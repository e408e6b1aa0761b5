import Mathlib.Order.Interval.Finset.Nat
import Audhsos.User.MemoryStore

/-!
No byte is lost. `Owns` says that a list of objects, in any order, shares out the adopted bytes,
each byte once. `FreeInv` is that for the free list together with the objects that are held and the
piece in hand while a request is under way. Every operation of the kernel is `Quiet`: whether it
fails or not, it leaves the store alone and what the handles in use name.
-/

namespace Audhsos.MemoryServer

open Lib Prog Pages List

variable {freeRoom liveRoom : Nat} {after before : Pages}

/-! ## Objects that share out bytes -/

namespace Object

/-- The byte lies in the object. -/
def Has (object : Object) (byte : Nat) : Prop :=
  object.start ≤ byte ∧ byte < object.start + object.len

/-- The objects have no byte in common. -/
def Apart (a b : Object) : Prop := ∀ byte, ¬ (a.Has byte ∧ b.Has byte)

theorem Apart.symm {a b : Object} (h : a.Apart b) : b.Apart a :=
  fun byte hboth => h byte ⟨hboth.2, hboth.1⟩

instance : Std.Symm Apart := ⟨fun _ _ h => h.symm⟩

/-- What the kernel has to say about an object of the store: its end is an address and its handle
names it. -/
structure Known (pages : Pages) (object : Object) : Prop where
  end_lt : object.start + object.len < u64Size
  base : pages.base object.handle = object.start
  old : ∀ k, object.handle = .made k → k < pages.clock

theorem Known.end_eq {pages : Pages} {object : Object} (h : object.Known pages) :
    object.end = object.start + object.len := by
  have := h.end_lt
  simp only [Object.end]
  omega

end Object

/-- The objects share out the bytes of `adopted`. -/
structure Owns (pages : Pages) (objects : List Object) (adopted : Nat → Prop) : Prop where
  apart : objects.Pairwise Object.Apart
  union : ∀ byte, (∃ object ∈ objects, object.Has byte) ↔ adopted byte
  known : ∀ object ∈ objects, object.Known pages

namespace Owns

variable {pages : Pages} {objects rest : List Object} {adopted : Nat → Prop} {lower upper : Object}

theorem perm {others : List Object} (h : Owns pages objects adopted)
    (hperm : objects.Perm others) : Owns pages others adopted :=
  ⟨h.apart.perm hperm (fun hab => hab.symm),
    fun byte => by rw [← h.union byte]; simp only [hperm.mem_iff],
    fun object hmem => h.known object (hperm.mem_iff.mpr hmem)⟩

/-- An object cut in two. -/
theorem cut {object : Object} (h : Owns pages (object :: rest) adopted)
    (hbytes : ∀ byte, object.Has byte ↔ lower.Has byte ∨ upper.Has byte)
    (hapart : lower.Apart upper) (hlower : lower.Known pages) (hupper : upper.Known pages) :
    Owns pages (lower :: upper :: rest) adopted := by
  obtain ⟨hobject, hrest⟩ := pairwise_cons.mp h.apart
  refine ⟨pairwise_cons.mpr ⟨?_, pairwise_cons.mpr ⟨?_, hrest⟩⟩, fun byte => ?_, ?_⟩
  · intro other hmem
    rcases mem_cons.mp hmem with rfl | hmem
    · exact hapart
    · exact fun byte hboth => hobject other hmem byte ⟨(hbytes byte).mpr (.inl hboth.1), hboth.2⟩
  · exact fun other hmem byte hboth =>
      hobject other hmem byte ⟨(hbytes byte).mpr (.inr hboth.1), hboth.2⟩
  · rw [← h.union byte]
    simp only [mem_cons, exists_eq_or_imp, hbytes, or_assoc]
  · intro other hmem
    rcases mem_cons.mp hmem with rfl | hmem
    · exact hlower
    rcases mem_cons.mp hmem with rfl | hmem
    · exact hupper
    · exact h.known other (mem_cons_of_mem _ hmem)

theorem join {joined : Object} (h : Owns pages (lower :: upper :: rest) adopted)
    (hbytes : ∀ byte, joined.Has byte ↔ lower.Has byte ∨ upper.Has byte)
    (hjoined : joined.Known pages) : Owns pages (joined :: rest) adopted := by
  obtain ⟨hlower, hrest⟩ := pairwise_cons.mp h.apart
  obtain ⟨hupper, hrest⟩ := pairwise_cons.mp hrest
  refine ⟨pairwise_cons.mpr ⟨?_, hrest⟩, fun byte => ?_, ?_⟩
  · intro other hmem byte hboth
    rcases (hbytes byte).mp hboth.1 with h' | h'
    · exact hlower other (mem_cons_of_mem _ hmem) byte ⟨h', hboth.2⟩
    · exact hupper other hmem byte ⟨h', hboth.2⟩
  · rw [← h.union byte]
    simp only [mem_cons, exists_eq_or_imp, hbytes, or_assoc]
  · intro other hmem
    rcases mem_cons.mp hmem with rfl | hmem
    · exact hjoined
    · exact h.known other (mem_cons_of_mem _ (mem_cons_of_mem _ hmem))

/-- Objects that share no byte have at most as many bytes as there are addresses. -/
theorem bytes_lt (objects : List Object) (hapart : objects.Pairwise Object.Apart)
    (hend : ∀ object ∈ objects, object.start + object.len < u64Size) :
    (objects.map (·.len)).sum < u64Size := by
  have hset : ∃ bytes : Finset Nat, bytes.card = (objects.map (·.len)).sum ∧
      (∀ byte ∈ bytes, ∃ object ∈ objects, object.Has byte) := by
    induction objects with
    | nil => exact ⟨∅, rfl, by simp⟩
    | cons object objects ih =>
      obtain ⟨hobject, hrest⟩ := pairwise_cons.mp hapart
      obtain ⟨bytes, hcard, hbytes⟩ := ih hrest fun other hmem =>
        hend other (mem_cons_of_mem _ hmem)
      refine ⟨Finset.Ico object.start (object.start + object.len) ∪ bytes, ?_, ?_⟩
      · rw [Finset.card_union_of_disjoint, hcard, Nat.card_Ico, map_cons, sum_cons]
        · omega
        · rw [Finset.disjoint_left]
          intro byte hin hother
          obtain ⟨other, hmem, hhas⟩ := hbytes byte hother
          exact hobject other hmem byte ⟨Finset.mem_Ico.mp hin, hhas⟩
      · intro byte hmem
        rcases Finset.mem_union.mp hmem with hin | hother
        · exact ⟨object, mem_cons_self, Finset.mem_Ico.mp hin⟩
        · obtain ⟨other, hmem, hhas⟩ := hbytes byte hother
          exact ⟨other, mem_cons_of_mem _ hmem, hhas⟩
  obtain ⟨bytes, hcard, hbytes⟩ := hset
  rw [← hcard]
  have hsub : bytes ⊆ Finset.range (u64Size - 1) := by
    intro byte hmem
    obtain ⟨object, hobject, hhas⟩ := hbytes byte hmem
    have := hend object hobject
    have := hhas.2
    exact Finset.mem_range.mpr (by omega)
  have := Finset.card_le_card hsub
  rw [Finset.card_range] at this
  have : 0 < u64Size := by decide
  omega

end Owns

/-! ## What the kernel's operations leave alone -/

/-- Time has passed, and what the handles of before name is the same. -/
structure Later (before after : Pages) : Prop where
  clock : before.clock ≤ after.clock
  base : ∀ handle, (∀ k, handle = .made k → k < before.clock) →
    after.base handle = before.base handle

theorem Later.refl (pages : Pages) : Later pages pages := ⟨le_rfl, fun _ _ => rfl⟩

theorem Later.trans {a b c : Pages} (hab : Later a b) (hbc : Later b c) : Later a c :=
  ⟨hab.clock.trans hbc.clock, fun handle hold =>
    (hbc.base handle fun k hk => (hold k hk).trans_le hab.clock).trans (hab.base handle hold)⟩

theorem Object.Known.later {object : Object} (h : object.Known before)
    (hlater : Later before after) : object.Known after :=
  ⟨h.end_lt, (hlater.base _ h.old).trans h.base,
    fun k hk => (h.old k hk).trans_le hlater.clock⟩

theorem Owns.later {objects : List Object} {adopted : Nat → Prop}
    (h : Owns before objects adopted) (hlater : Later before after) : Owns after objects adopted :=
  ⟨h.apart, h.union, fun object hmem => (h.known object hmem).later hlater⟩

/-- The program leaves the store as it is. -/
def Quiet {ε α : Type} (m : Prog ε (State freeRoom liveRoom) α) : Prop :=
  ∀ state, (m state).2.store = state.store ∧ Later state.pages (m state).2.pages

theorem Quiet.wp {ε α : Type} {m : Prog ε (State freeRoom liveRoom) α} (hm : Quiet m)
    (state : State freeRoom liveRoom) : m.wp (fun _ after => after.store = state.store ∧
      Later state.pages after.pages) state :=
  hm state

namespace Quiet

variable {ε α β : Type} {m : Prog ε (State freeRoom liveRoom) α}
  {f : α → Prog ε (State freeRoom liveRoom) β}

theorem pure (a : α) : Quiet (Pure.pure a : Prog ε (State freeRoom liveRoom) α) :=
  fun _ => ⟨rfl, .refl _⟩

theorem get : Quiet (Prog.get : Prog ε (State freeRoom liveRoom) _) := fun _ => ⟨rfl, .refl _⟩

theorem ofExcept (r : Except ε α) : Quiet (ofExcept r : Prog ε (State freeRoom liveRoom) α) :=
  fun _ => ⟨rfl, .refl _⟩

theorem throw (e : ε) : Quiet (Prog.throw e : Prog ε (State freeRoom liveRoom) α) :=
  fun _ => ⟨rfl, .refl _⟩

theorem bind (hm : Quiet m) (hf : ∀ a, Quiet (f a)) : Quiet (m >>= f) := by
  intro state
  obtain ⟨hstore, hlater⟩ := hm state
  rw [run_bind]
  generalize m state = answer at hstore hlater ⊢
  obtain ⟨e | a, after⟩ := answer
  · exact ⟨hstore, hlater⟩
  · obtain ⟨hstore', hlater'⟩ := hf a after
    exact ⟨hstore'.trans hstore, hlater.trans hlater'⟩

theorem attempt {ε' : Type} (hm : Quiet m) :
    Quiet (attempt m : Prog ε' (State freeRoom liveRoom) (Except ε α)) :=
  fun state => hm state

theorem ignore (hm : Quiet m) : Quiet (Prog.ignore m) := fun state => hm state

end Quiet

variable (state : State freeRoom liveRoom)

/-- The state one operation later. -/
def State.tick : State freeRoom liveRoom :=
  { state with pages := { state.pages with clock := state.pages.clock + 1 } }

theorem operation_cases :
    operation state = (.ok (), state.tick) ∨
      ∃ e, operation state = (.error e, state.tick) := by
  unfold operation
  cases state.pages.fails state.pages.clock with
  | none => exact .inl rfl
  | some e => exact .inr ⟨e, rfl⟩

theorem quiet_operation : Quiet (operation : Prog Error (State freeRoom liveRoom) Unit) := by
  intro state
  have hlater : Later state.pages state.tick.pages := ⟨Nat.le_succ _, fun _ _ => rfl⟩
  rcases operation_cases state with h | ⟨e, h⟩ <;> rw [h] <;> exact ⟨rfl, hlater⟩

variable (handle : ObjectHandle)

theorem quiet_map (offset len : Nat) :
    Quiet (map handle offset len : Prog Error (State freeRoom liveRoom) _) :=
  quiet_operation.bind fun _ => .pure _

theorem quiet_zero (address : Pages.Window) (len : Nat) :
    Quiet (zero address len : Prog Error (State freeRoom liveRoom) Unit) :=
  quiet_operation.bind fun _ _ => ⟨rfl, le_rfl, fun _ _ => rfl⟩

theorem quiet_merge (lower upper : ObjectHandle) :
    Quiet (merge lower upper : Prog Error (State freeRoom liveRoom) Unit) :=
  quiet_operation

theorem quiet_close : Quiet (close handle : Prog Error (State freeRoom liveRoom) Unit) :=
  quiet_operation

theorem quiet_countReferences :
    Quiet (countReferences handle : Prog Error (State freeRoom liveRoom) Nat) :=
  Quiet.get.bind fun _ => quiet_operation.bind fun _ => .pure _

/-- The upper half of a split has a name that was not in use, and the two halves lie one behind
the other. -/
theorem split_spec (offset : Nat) (state : State freeRoom liveRoom) :
    (split handle offset).wp (fun answer after =>
      after.store = state.store ∧ Later state.pages after.pages ∧
      ∀ upper, answer = .ok upper → after.pages.base upper = state.pages.base handle + offset ∧
        ∀ k, upper = .made k → k < after.pages.clock) state := by
  unfold split wp
  rw [run_bind_ok (rfl : Prog.get state = (.ok state, state))]
  rcases operation_cases state with h | ⟨e, h⟩
  · rw [run_bind_ok h]
    refine ⟨rfl, ⟨Nat.le_succ _, fun other hother => ?_⟩, fun upper hupper => ?_⟩
    · have hne : other ≠ .made state.pages.clock := fun e => by
        have := hother _ e
        omega
      exact if_neg hne
    · obtain rfl : ObjectHandle.made state.pages.clock = upper := Except.ok.inj hupper
      refine ⟨if_pos rfl, fun k hk => ?_⟩
      cases hk
      exact Nat.lt_succ_self _
  · rw [run_bind_error h]
    exact ⟨rfl, ⟨Nat.le_succ _, fun _ _ => rfl⟩, by simp⟩

/-! ## Clearing an object -/

section

variable (object : Object) (done chunk : Nat)

theorem quiet_wipeChunk :
    Quiet (wipeChunk object done chunk : Prog Error (State freeRoom liveRoom) Unit) :=
  (quiet_map _ _ _).bind fun _ => (quiet_zero _ _).attempt.bind fun _ =>
    quiet_operation.attempt.bind fun _ => .ofExcept _

/-- Clearing a window that succeeds has cleared its bytes and no others. -/
theorem wipeChunk_spec (state : State freeRoom liveRoom) :
    (wipeChunk object done chunk).wp (fun answer after => answer = .ok () →
      after.pages.base = state.pages.base ∧ state.pages.clock ≤ after.pages.clock ∧
      ∀ byte, (state.pages.base object.handle + done ≤ byte →
          byte < state.pages.base object.handle + done + chunk →
          state.pages.clock < after.pages.zeroedAt byte) ∧
        min (state.pages.clock + 1) (state.pages.zeroedAt byte) ≤
          after.pages.zeroedAt byte) state := by
  unfold wipeChunk wp
  -- each of the three operations may fail, and then the whole has failed
  rcases operation_cases state with hmap | ⟨e, hmap⟩
  swap
  · rw [run_bind_error (show map object.handle done chunk state = _ from
      run_bind_error hmap)]
    simp
  rw [run_bind_ok (show map object.handle done chunk state =
    (.ok ⟨object.handle, done⟩, state.tick) from run_bind_ok hmap), run_attempt_bind,
    run_attempt_bind]
  rcases operation_cases state.tick with hzero | ⟨e, hzero⟩
  swap
  · rw [show zero ⟨object.handle, done⟩ chunk state.tick = (.error e, state.tick.tick) from
      run_bind_error hzero]
    intro h
    cases h
  obtain ⟨cleared, hcleared⟩ : ∃ cleared,
      zero ⟨object.handle, done⟩ chunk state.tick = (.ok (), cleared) ∧
      cleared.pages.base = state.pages.base ∧ cleared.pages.clock = state.pages.clock + 2 ∧
      ∀ byte, cleared.pages.zeroedAt byte =
        if state.pages.base object.handle + done ≤ byte ∧
          byte < state.pages.base object.handle + done + chunk then state.pages.clock + 2
        else state.pages.zeroedAt byte :=
    ⟨_, run_bind_ok hzero, rfl, rfl, fun _ => rfl⟩
  obtain ⟨hrun, hbase, hclock, hbytes⟩ := hcleared
  rw [hrun]
  rcases operation_cases cleared with hunmap | ⟨e, hunmap⟩
  swap
  · rw [show unmap ⟨object.handle, done⟩ chunk cleared = _ from hunmap]
    intro h
    cases h
  rw [show unmap ⟨object.handle, done⟩ chunk cleared = _ from hunmap]
  intro _
  refine ⟨hbase, ?_, fun byte => ⟨fun hle hlt => ?_, ?_⟩⟩
  · change _ ≤ cleared.pages.clock + 1
    omega
  · change _ < cleared.pages.zeroedAt byte
    rw [hbytes, if_pos ⟨hle, hlt⟩]
    omega
  · change _ ≤ cleared.pages.zeroedAt byte
    rw [hbytes]
    split <;> omega

theorem quiet_wipeLoop (fuel : Nat) : ∀ done,
    Quiet (wipeLoop object fuel done : Prog Error (State freeRoom liveRoom) Unit) := by
  induction fuel with
  | zero => exact fun _ => .pure _
  | succ fuel ih =>
    intro done
    unfold wipeLoop
    split
    · exact .pure _
    · exact (quiet_wipeChunk _ _ _).bind fun _ => ih _

theorem quiet_wipe : Quiet (wipe object : Prog Error (State freeRoom liveRoom) Unit) :=
  quiet_wipeLoop object _ _

/-- A wipe that succeeds has cleared every byte of the object since it began; its fuel is enough,
because every turn clears at least one byte. -/
theorem wipeLoop_clears (began : Nat) (fuel : Nat) :
    ∀ (done : Nat) (state : State freeRoom liveRoom), began ≤ state.pages.clock →
      object.len ≤ done + fuel →
      (∀ byte, state.pages.base object.handle ≤ byte →
        byte < state.pages.base object.handle + min done object.len →
        began < state.pages.zeroedAt byte) →
      (wipeLoop object fuel done).wp (fun answer after => answer = .ok () →
        ∀ byte, state.pages.base object.handle ≤ byte →
          byte < state.pages.base object.handle + object.len →
          began < after.pages.zeroedAt byte) state := by
  induction fuel with
  | zero =>
    intro done state _ hfuel hcleared _ byte hle hlt
    refine hcleared byte hle ?_
    rw [min_eq_right (by omega)]
    exact hlt
  | succ fuel ih =>
    intro done state hbegan hfuel hcleared
    unfold wipeLoop
    split
    · rename_i hdone
      intro _ byte hle hlt
      refine hcleared byte hle ?_
      rw [min_eq_right hdone]
      exact hlt
    rename_i hdone
    have hwindow : 0 < window := by decide
    refine wp_bind.mpr ((wipeChunk_spec object done _ state).mono
      fun answer after hchunk => ⟨fun _ hanswer => ?_, nofun⟩)
    obtain ⟨hbase, hclock, hbytes⟩ := hchunk hanswer
    have hrest := ih (done + min (object.len - done) window) after (by omega) (by omega) ?_
    · rw [hbase] at hrest
      exact hrest
    · intro byte hle hlt
      rw [hbase] at hle hlt
      rcases Nat.lt_or_ge byte (state.pages.base object.handle + done) with hold | hnew
      · have := hcleared byte hle (by omega)
        have := (hbytes byte).2
        omega
      · have := (hbytes byte).1 hnew (by omega)
        omega

theorem wipe_clears (state : State freeRoom liveRoom) :
    (wipe object).wp (fun answer after => answer = .ok () →
      ∀ byte, state.pages.base object.handle ≤ byte →
        byte < state.pages.base object.handle + object.len →
        state.pages.clock < after.pages.zeroedAt byte) state :=
  wipeLoop_clears object _ _ 0 state le_rfl (by omega) (fun byte hle hlt => by
    rw [Nat.zero_min] at hlt
    omega)

end

end Audhsos.MemoryServer
