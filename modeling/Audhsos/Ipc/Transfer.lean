import Audhsos.Syscall.Copies

/-!
What a transfer does. A message is refused for its header or one of its handles, and then nothing
has happened; otherwise it arrives with all its words and as many of its handles as there is room
for.
-/

namespace Audhsos.Ipc

open Lib Objects Prog Function List Option Buffer Ledger

variable {z : Sizes} {o o' : Objects z} {source target : Buffer} {sender receiver : ProcessId}
  {entry : Entry}

/-! ## The handles of the message -/

theorem mapM_cases {α β : Type} (f : α → Except Error β) (l : List α) :
    (∃ r, l.mapM f = .ok r ∧ Forall₂ (fun a b => f a = .ok b) l r) ∨
    ∃ e, l.mapM f = .error e ∧ ∃ a ∈ l, f a = .error e := by
  induction l with
  | nil => exact .inl ⟨[], rfl, .nil⟩
  | cons a l ih =>
    cases hf : f a with
    | error e =>
      refine .inr ⟨e, ?_, a, by simp, hf⟩
      rw [mapM_cons, hf]
      rfl
    | ok b =>
      have hcons : (a :: l).mapM f = l.mapM f >>= fun r => pure (b :: r) := by
        rw [mapM_cons, hf]
        rfl
      rw [hcons]
      rcases ih with ⟨r, hr, hall⟩ | ⟨e, he, a', ha', hfa'⟩
      · rw [hr]
        exact .inl ⟨b :: r, rfl, .cons hf hall⟩
      · rw [he]
        exact .inr ⟨e, rfl, a', mem_cons_of_mem a ha', hfa'⟩

/-- The handle word at `index` names `entry`, which the sender holds and may transfer. -/
def Sendable (source : Buffer) (o : Objects z) (sender : ProcessId) (index : Nat) (entry : Entry) :
    Prop :=
  ∃ h, source.handle index = some h ∧ o.books.entry h = some (sender, entry) ∧
    entry.rights.contains .transfer = true

/-- One handle word, as it is read. -/
def sendable (source : Buffer) (o : Objects z) (sender : ProcessId) (index : Nat) :
    Except Error Entry := do
  let handle ← (source.handle index).elim (.error .invalidHandle) .ok
  let entry ← o.handles.lookup sender handle
  if entry.rights.contains .transfer then .ok entry else .error .accessDenied

theorem sendable_iff {index : Nat} :
    sendable source o sender index = .ok entry ↔ Sendable source o sender index entry := by
  unfold Sendable sendable
  cases hh : source.handle index with
  | none =>
    refine ⟨nofun, ?_⟩
    rintro ⟨h, heq, -⟩
    cases heq
  | some h =>
    change (o.handles.lookup sender h >>= fun entry => if entry.rights.contains .transfer then
      .ok entry else .error Error.accessDenied) = Except.ok entry ↔ _
    cases hl : o.handles.lookup sender h with
    | error e =>
      refine ⟨nofun, ?_⟩
      rintro ⟨h', heq, hentry, -⟩
      obtain rfl := some.inj heq
      cases hl.symm.trans (HandleArena.lookup_eq_ok_iff.mpr hentry)
    | ok held =>
      change (if held.rights.contains .transfer then Except.ok held else .error Error.accessDenied) =
        .ok entry ↔ _
      have hheld : o.books.entry h = some (sender, held) := HandleArena.lookup_eq_ok_iff.mp hl
      constructor
      · intro heq
        split at heq
        · next hright =>
          obtain rfl := Except.ok.inj heq
          exact ⟨h, rfl, hheld, hright⟩
        · cases heq
      · rintro ⟨h', heq, hentry, hright⟩
        obtain rfl := some.inj heq
        obtain ⟨-, rfl⟩ := Prod.mk.inj (mem_unique hheld hentry)
        exact if_pos hright

/-- Why a message is refused. -/
def Refusable (source : Buffer) (o : Objects z) (sender : ProcessId) (kernelMessage : Bool) :
    Prop :=
  maxMessageWords < source.wordCount ∨ maxMessageHandles < source.handleCount ∨
  (kernelMessage = false ∧ kernelLabelBase ≤ source.label) ∨
  ∃ index < source.handleCount, ∀ entry, ¬ Sendable source o sender index entry

/-! ## Arrival -/

/-- The handles that `entries` became when they arrived. -/
structure Delivered (o : Objects z) (receiver : ProcessId) (entries : List Entry)
    (handles : List Handle) (truncated : Bool) (o' : Objects z) : Prop where
  arrived : Forall₂ (fun h entry => o'.books.entry h = some (receiver, entry)) handles
    (entries.take handles.length)
  truncated_iff : truncated = true ↔ handles.length < entries.length
  noRoom : truncated = true → ¬ o'.HasRoom receiver
  nodup : handles.Nodup
  fresh : ∀ h ∈ handles, o.books.entry h = none
  others : ∀ h, h ∉ handles → o'.books.entry h = o.books.entry h
  gone : ∀ id, o.books.refs id = none → o'.books.refs id = none
  counted : ∀ id n, o.books.refs id = some n →
    n + (entries.take handles.length).countP (·.object = id) < u32Size →
    o'.books.refs id = some (n + (entries.take handles.length).countP (·.object = id))
  isolated : o'.tables.Isolated

theorem refs_ignore_retain (id k : AnyObjectId) (o : Objects z) :
    let o' := ((retain id).ignore o).2
    (o.books.refs k = none → o'.books.refs k = none) ∧
    (∀ n, o.books.refs k = some n → n + (if id = k then 1 else 0) < u32Size →
      o'.books.refs k = some (n + if id = k then 1 else 0)) ∧
    o'.books.entry = o.books.entry ∧ o'.tables = o.tables := by
  intro o'
  have hretained := retained id o
  cases hr : (retain id o).1 with
  | error e =>
    obtain ⟨hsame, -, hfull⟩ := hretained.refused e hr
    have ho' : o' = o := hsame
    rw [ho']
    refine ⟨fun h => h, fun n hn hlt => ?_, rfl, rfl⟩
    by_cases hid : id = k
    · rw [if_pos hid] at hlt
      have := hfull n (hid ▸ hn)
      omega
    · rw [if_neg hid]
      exact hn
  | ok _ =>
    obtain ⟨-, -, hframe⟩ := hretained.granted hr
    have hbooks : o'.books = o.books.retain id := congrArg Frame.books hframe
    have htables : o'.tables = o.tables := congrArg Frame.tables hframe
    rw [hbooks]
    unfold Books.retain
    cases hrefs : o.books.refs id with
    | none =>
      refine ⟨fun h => h, fun n hn _ => ?_, rfl, htables⟩
      rw [if_neg fun hid => by rw [← hid, hrefs] at hn; cases hn]
      exact hn
    | some n =>
      refine ⟨fun h => ?_, fun n' hn' _ => ?_, rfl, htables⟩
      · have hne : k ≠ id := fun hid => by rw [hid, hrefs] at h; cases h
        rw [Books.setRefs_refs, update_of_ne hne]
        exact h
      · rw [Books.setRefs_refs]
        by_cases hid : id = k
        · subst hid
          obtain rfl := mem_unique hrefs hn'
          rw [update_self, if_pos rfl]
        · rw [update_of_ne (Ne.symm hid), if_neg hid]
          exact hn'

theorem installAll_spec (receiver : ProcessId) (entries : List Entry) : ∀ o : Objects z,
    o.tables.Isolated → ∃ handles truncated o',
      installAll receiver entries o = (.ok (handles, truncated), o') ∧
        Delivered o receiver entries handles truncated o' := by
  induction entries with
  | nil =>
    intro o hiso
    exact ⟨[], false, o, rfl, .nil, by simp, nofun, .nil, by simp, fun _ _ => rfl, fun _ h => h,
      fun _ _ hn _ => hn, hiso⟩
  | cons entry rest ih =>
    intro o hiso
    rcases installHandle_cases hiso receiver entry with ⟨e, heq, hfull⟩ | ⟨h, o₁, heq, hin⟩
    · -- the first that does not fit is the last that is tried
      refine ⟨[], true, o, ?_, .nil, by simp, fun _ => hfull, .nil, by simp,
        fun _ _ => rfl, fun _ h => h, fun _ _ hn _ => hn, hiso⟩
      have hnone : install receiver entry o = (.ok none, o) := by
        unfold install
        rw [run_attempt_bind, heq]
        rfl
      rw [installAll, run_bind_ok hnone]
      rfl
    · let o₂ := ((retain entry.object).ignore o₁).2
      have hsome : install receiver entry o = (.ok (some h), o₂) := by
        unfold install
        rw [run_attempt_bind, heq]
        rfl
      have hretain := fun k => refs_ignore_retain entry.object k o₁
      have hentry₂ : o₂.books.entry = update o.books.entry h (some (receiver, entry)) := by
        rw [show o₂.books.entry = o₁.books.entry from (hretain entry.object).2.2.1, hin.books_eq]
        rfl
      have hrefs₁ : o₁.books.refs = o.books.refs := by
        rw [hin.books_eq]
        rfl
      have hiso₂ : o₂.tables.Isolated := by
        rw [show o₂.tables = o₁.tables from (hretain entry.object).2.2.2]
        exact hin.isolated
      obtain ⟨handles, truncated, o', hrun, hd⟩ := ih o₂ hiso₂
      have hnot : h ∉ handles := by
        intro hmem
        have hfresh := hd.fresh h hmem
        rw [hentry₂, update_self] at hfresh
        cases hfresh
      refine ⟨h :: handles, truncated, o', ?_, .cons ?_ hd.arrived, by simpa using hd.truncated_iff,
        hd.noRoom, nodup_cons.mpr ⟨hnot, hd.nodup⟩, fun k hk => ?_, fun k hk => ?_,
        fun id hid => ?_, fun id n hn hlt => ?_, hd.isolated⟩
      · rw [installAll, run_bind_ok hsome]
        exact run_bind_ok hrun
      · rw [hd.others h hnot, hentry₂, update_self]
      · rcases mem_cons.mp hk with rfl | hk
        · exact hin.fresh
        · have hfresh := hd.fresh k hk
          have hne : k ≠ h := fun heq => hnot (heq ▸ hk)
          rwa [hentry₂, update_of_ne hne] at hfresh
      · obtain ⟨hne, hk⟩ := not_or.mp fun h' => hk (mem_cons.mpr h')
        rw [hd.others k hk, hentry₂, update_of_ne hne]
      · exact hd.gone id ((hretain id).1 (hrefs₁ ▸ hid))
      · simp only [length_cons, take_succ_cons, countP_cons] at hlt ⊢
        simp only [decide_eq_true_eq] at hlt ⊢
        have hn₂ := (hretain id).2.1 n (hrefs₁ ▸ hn) (by omega)
        have hcounted := hd.counted id _ hn₂ (by omega)
        rw [hcounted]
        congr 1
        omega

/-! ## The buffer of the receiver -/

theorem fromRaw_raw (h : Handle) : Handle.fromRaw h.raw = some h :=
  dif_neg h.generation_ne

theorem foldl_setHandle (handles : List Handle) : ∀ (k : Nat) (target : Buffer),
    k + handles.length ≤ maxMessageHandles →
    let target' := (handles.zipIdx k).foldl (fun target (handle, index) =>
      target.setHandle index handle) target
    target'.label = target.label ∧ target'.words = target.words ∧
      (∀ i < k, target'.handleWords i = target.handleWords i) ∧
      ∀ i h, handles[i]? = some h → target'.handleWords (k + i) = h.raw := by
  induction handles with
  | nil => exact fun _ _ _ => ⟨rfl, rfl, fun _ _ => rfl, by simp⟩
  | cons h rest ih =>
    intro k target hlen
    rw [length_cons] at hlen
    have hset : target.setHandle k h =
        { target with handleWords := update target.handleWords k h.raw } :=
      if_neg (by omega)
    obtain ⟨hlabel, hwords, hbelow, hat⟩ := ih (k + 1) (target.setHandle k h) (by omega)
    refine ⟨hlabel.trans (by rw [hset]), hwords.trans (by rw [hset]), fun i hi => ?_,
      fun i h' hi => ?_⟩
    · refine (hbelow i (by omega)).trans ?_
      rw [hset]
      exact update_of_ne (by omega) _ _
    · cases i with
      | zero =>
        obtain rfl := some.inj hi
        refine (hbelow k (by omega)).trans ?_
        rw [hset]
        exact update_self _ _ _
      | succ i =>
        rw [show k + (i + 1) = k + 1 + i by omega]
        exact hat i h' (by simpa using hi)

theorem handle_filled (handles : List Handle) (copied : Buffer) (wordCount : Nat)
    (hle : handles.length ≤ maxMessageHandles) :
    let filled := handles.zipIdx.foldl (fun target (handle, index) => target.setHandle index handle)
      copied
    (List.range handles.length).map
      { filled with wordCount, handleCount := handles.length }.handle = handles.map some := by
  refine ext_getElem (by simp) fun i hi _ => ?_
  rw [length_map, length_range] at hi
  rw [getElem_map, getElem_range, getElem_map]
  obtain ⟨-, -, -, hraw⟩ := foldl_setHandle handles 0 copied (by omega)
  have hat := hraw i handles[i] (getElem?_eq_getElem hi)
  rw [zero_add] at hat
  unfold handle
  rw [if_neg (by omega)]
  exact (congrArg Handle.fromRaw hat).trans (fromRaw_raw _)

theorem message_eq (source : Buffer) : source.message =
    if maxMessageWords < source.wordCount ∨ maxMessageHandles < source.handleCount then
      .error .invalidArgument
    else .ok ⟨source.label, source.wordCount, source.handleCount⟩ := by
  unfold message
  by_cases hwords : maxMessageWords < source.wordCount <;> simp [hwords]

/-- A message of two words and of the handle to the process that sends it to itself. -/
def toItself : Buffer :=
  { emptyBuffer with
    label := 7
    wordCount := 2
    handleCount := 1
    handleWords := fun _ => 1 * u32Size + 0
    words := fun i => 40 + i }

/-- One process with room for two handles and one handle, which names the process, whose count has
no room for another reference. -/
def allCounted : Objects ⟨2, 2, 1, 8⟩ :=
  let root : ProcessId := ⟨0, 1⟩
  let process := Process.new ⟨0⟩ (.withCapacity 2) (.new 8) (.new 8)
  let o := (onProcesses (Pool.allocate process) noObjects).2
  let o := (installHandle root ⟨.of root, Calls.processRights, 0⟩ o).2
  { o with processes := o.processes.update root ({ · with refs := u32Size - 1 }) }

end Audhsos.Ipc
