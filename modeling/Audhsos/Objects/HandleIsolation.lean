import Mathlib.Algebra.BigOperators.Group.Finset.Basic
import Audhsos.Objects.HandleSpec

/-!
Any number of processes, each with its own list, share one arena. Over every sequence of calls each
chain visits the slots of its owner and no others, the kinds of slots partition the arena, and a
handle works for a process exactly from the call that returned it until the call that closed it.
The calls are recorded as `HandleEvent`s, so "returned and not closed since" is about the record.
-/

namespace Audhsos

open Lib HandleArena Function Option Finset

/-- One arena and the handle list of every process. -/
structure HandleTables (n : Nat) where
  arena : HandleArena n
  lists : ProcessId → HandleList

inductive HandleOp where
  | insert (process : ProcessId) (entry : Entry)
  | duplicate (process : ProcessId) (handle : Handle) (rights : Rights)
  | close (process : ProcessId) (handle : Handle)
  | closeNext (process : ProcessId)
  | lookup (process : ProcessId) (handle : Handle)

inductive HandleEvent where
  | opened (process : ProcessId) (handle : Handle)
  | closed (process : ProcessId) (handle : Handle)
deriving DecidableEq

namespace HandleTables

variable {n : Nat} {t t' : HandleTables n} {p q : ProcessId} {h : Handle}

variable {events : List HandleEvent} {i : Nat} {l : List Nat}

def new (n : Nat) (capacity : ProcessId → Nat) : HandleTables n :=
  ⟨.new, fun p => .withCapacity (capacity p)⟩

variable (t)

/-- Runs a call of `process` on the arena and its own list. -/
def call (process : ProcessId) {α : Type}
    (m : Prog Error (HandleArena n × HandleList) α) : Except Error α × HandleTables n :=
  let (answer, arena, list) := m (t.arena, t.lists process)
  (answer, ⟨arena, update t.lists process list⟩)

/-- One call, with the events it causes. A `closeNext` that closes an entry closes the handle the
iterator over the list yields first. -/
def step : HandleOp → List HandleEvent × HandleTables n
  | .insert process entry =>
    let (answer, t) := t.call process (insert process entry)
    (answer.toOption.toList.map (.opened process), t)
  | .duplicate process handle rights =>
    let (answer, t) := t.call process (duplicate process handle rights)
    (answer.toOption.toList.map (.opened process), t)
  | .close process handle =>
    let (answer, t) := t.call process (close process handle)
    (answer.toOption.toList.map fun _ => .closed process handle, t)
  | .closeNext process =>
    let first := (t.arena.handlesNext (t.lists process).head).map (·.1.1)
    let (entry, arena, list) := t.arena.closeNext (t.lists process)
    ((entry.bind fun _ => first).toList.map (.closed process),
      ⟨arena, update t.lists process list⟩)
  | .lookup _ _ => ([], t)

variable {t}

def run (t : HandleTables n) : List HandleOp → List HandleEvent × HandleTables n
  | [] => ([], t)
  | op :: ops =>
    let (events, t) := t.step op
    let (later, t) := run t ops
    (events ++ later, t)

/-! ## The invariant -/

/-- `l` is the chain of `p`: linked both ways, starting at the head of its list, through every
slot that names `p` as owner and no other, and as long as the list says. -/
structure ChainOf (t : HandleTables n) (p : ProcessId) (l : List Nat) : Prop where
  linked : Linked t.arena.nextOf t.arena.prevOf l
  head_eq : (t.lists p).head.index = l.head?
  mem_iff : ∀ i, i ∈ l ↔ t.arena.owner i = some p
  count_eq : (t.lists p).count = l.length

structure Isolated (t : HandleTables n) : Prop where
  valid : t.arena.Valid
  chain : ∀ p, ∃ l, t.ChainOf p l

theorem isolated_new (hn : n < u32Size) (capacity : ProcessId → Nat) :
    (new n capacity).Isolated where
  valid := valid_new hn
  chain := fun _ => ⟨[], linked_nil, rfl, fun _ => ⟨nofun, nofun⟩, rfl⟩

theorem Isolated.head_held (ht : t.Isolated) (p : ProcessId) (i : Nat)
    (hi : (t.lists p).head.index = some i) : t.arena.occupant i ≠ none := by
  obtain ⟨l, hl⟩ := ht.chain p
  have howner := (hl.mem_iff i).mp (List.mem_of_head? (hl.head_eq ▸ hi))
  intro hnone
  simp [owner, hnone] at howner

theorem ChainOf.lt (hl : t.ChainOf p l) (hv : t.arena.Valid) (hi : i ∈ l) : i < n := by
  refine hv.lt_of_occupant fun hnone => ?_
  have howner := (hl.mem_iff i).mp hi
  simp [owner, hnone] at howner

theorem ChainOf.length_lt (hl : t.ChainOf p l) (hv : t.arena.Valid)
    (hi : i < n) (hil : i ∉ l) : l.length < n := by
  have hsub : l.toFinset ⊂ Finset.range n := by
    refine ssubset_iff_of_subset (fun j hj => ?_) |>.mpr ⟨i, ?_, ?_⟩
    · exact mem_range.mpr (hl.lt hv (List.mem_toFinset.mp hj))
    · exact mem_range.mpr hi
    · exact fun hmem => hil (List.mem_toFinset.mp hmem)
  have hcard := card_lt_card hsub
  rwa [List.toFinset_card_of_nodup hl.linked.nodup, card_range] at hcard

/-! ## What a handle reaches -/

/-- The handle names an entry of the process. -/
def Reaches (t : HandleTables n) (p : ProcessId) (h : Handle) : Prop :=
  t.arena.owner h.index = some p ∧ t.arena.generation h.index = h.generation

theorem resolve_ok_iff (hv : t.arena.Valid) :
    t.arena.resolve p h = .ok h.index ↔ t.Reaches p h := by
  unfold resolve Reaches slot owner occupant generation
  by_cases hn : h.index < n
  · simp only [hn, if_true]
    by_cases hg : (t.arena.slots h.index).generation = h.generation
    · cases ho : (t.arena.slots h.index).occupant with
      | none => simp [hg]
      | some o => by_cases hp : o.owner = p <;> simp [hg, hp]
    · simp [hg]
  · have hnone : (t.arena.slots h.index).occupant = none := by
      by_contra hne
      exact hn (hv.lt_of_occupant hne)
    simp [hn, hnone]

variable (arena : HandleArena n)

theorem resolve_cases (p : ProcessId) (h : Handle) :
    arena.resolve p h = .ok h.index ∨ arena.resolve p h = .error .invalidHandle := by
  unfold resolve
  repeat' split
  all_goals simp

theorem lookup_ok_iff (hv : t.arena.Valid) :
    (∃ entry, t.arena.lookup p h = .ok entry) ↔ t.Reaches p h := by
  rw [← resolve_ok_iff hv]
  unfold lookup
  rcases resolve_cases t.arena p h with hr | hr
  · have hreach := (resolve_ok_iff hv).mp hr
    obtain ⟨o, ho, -⟩ := map_eq_some_iff.mp hreach.1
    have hlt : h.index < n := hv.lt_of_occupant (by simp [ho])
    have hocc : t.arena.occupantAt h.index = some o := by
      simpa [occupantAt, slot, hlt, occupant] using ho
    simp [hr, hocc]
  · simp [hr]

/-! ## Insertion keeps the chains -/

variable {entry : Entry} {arena' : HandleArena n} {list' : HandleList}

/-- The new slot becomes the head of the chain of `p`; the other chains are not touched. -/
theorem Isolated.inserted (ht : t.Isolated)
    (hins : Inserted t.arena (t.lists p) p entry h arena' list') :
    (⟨arena', update t.lists p list'⟩ : HandleTables n).Isolated := by
  have hv := ht.valid
  have hu : h.index + 1 < u32Size := lt_of_le_of_lt hins.index_lt hv.size_lt
  refine ⟨hins.valid, fun q => ?_⟩
  obtain ⟨l, hl⟩ := ht.chain q
  have hne : ∀ i ∈ l, i ≠ h.index := by
    rintro i hi rfl
    have howner := (hl.mem_iff h.index).mp hi
    simp [owner, hins.was_free] at howner
  have hheld : ∀ i ∈ l, t.arena.occupant i ≠ none := by
    intro i hi hnone
    have howner := (hl.mem_iff i).mp hi
    simp [owner, hnone] at howner
  by_cases hq : q = p
  · subst hq
    have hfresh : h.index ∉ l := fun hmem => hne _ hmem rfl
    refine ⟨h.index :: l, ?_, ?_, fun i => ?_, ?_⟩
    · have hlinked : Linked t.arena.nextOf t.arena.prevOf ([] ++ l) := hl.linked
      refine hlinked.insert hfresh ?_ ?_ (fun i hi => ?_) fun i hi => ?_
      · simp [hins.nextOf_eq, hl.head_eq]
      · simp [prevOf, occupant, hins.slot_eq]
      · simp [hins.nextOf_eq, hne i hi]
      · rw [hins.prevOf_eq hu (hne i hi) (hl.lt hv hi) (hheld i hi), hl.head_eq]
    · simp [hins.list_eq, Link.index_to hu]
    · simp only [List.mem_cons, hl.mem_iff, hins.owner_eq]
      by_cases hi : i = h.index <;> simp [hi]
    · have hlt := hl.length_lt hv hins.index_lt hfresh
      have hcount : l.length + 1 < u32Size := lt_of_le_of_lt hlt hv.size_lt
      simp only [update_self, hins.list_eq, hl.count_eq, satAdd32_eq hcount, List.length_cons]
  · refine ⟨l, hl.linked.congr (fun i hi => ?_) (fun i hi => ?_), ?_, fun i => ?_, ?_⟩
    · simp [hins.nextOf_eq, hne i hi]
    · rw [hins.prevOf_eq hu (hne i hi) (hl.lt hv hi) (hheld i hi), if_neg]
      intro hhead
      obtain ⟨l', hl'⟩ := ht.chain p
      have howner := (hl'.mem_iff i).mp (List.mem_of_head? (hl'.head_eq ▸ hhead))
      rw [(hl.mem_iff i).mp hi] at howner
      exact hq (some.inj howner)
    · simpa [hq] using hl.head_eq
    · rw [hins.owner_eq, hl.mem_iff]
      by_cases hi : i = h.index
      · simp [hi, owner, hins.was_free, Ne.symm hq]
      · simp [hi]
    · simpa [hq] using hl.count_eq

/-! ## Removal keeps the chains -/

section Detached

variable {i : Nat} {occupant : HandleOccupant} {arena' : HandleArena n} {list' : HandleList}

/-- The slot leaves the chain of its owner; the other chains are not touched. -/
theorem Isolated.detached (ht : t.Isolated) (howner : occupant.owner = p)
    (hdet : Detached t.arena (t.lists p) i occupant arena' list') :
    (⟨arena', update t.lists p list'⟩ : HandleTables n).Isolated := by
  refine ⟨hdet.valid, fun q => ?_⟩
  obtain ⟨l, hl⟩ := ht.chain q
  have hheld : ∀ j ∈ l, t.arena.occupant j ≠ none := by
    intro j hj hnone
    have hq := (hl.mem_iff j).mp hj
    simp [owner, hnone] at hq
  have hi : t.arena.owner i = some p := by simp [owner, hdet.was_held, howner]
  by_cases hq : q = p
  · subst hq
    have hmem : i ∈ l := (hl.mem_iff i).mpr hi
    refine ⟨l.erase i, ?_, ?_, fun j => ?_, ?_⟩
    · exact hl.linked.remove hmem (fun j hj hji => hdet.nextOf_eq hji (hheld j hj))
        fun j hj hji => hdet.prevOf_eq hji (hheld j hj)
    · rw [hl.linked.head_erase hmem, ← hl.head_eq]
      simp only [update_self, hdet.list_eq, nextOf, prevOf, hdet.was_held,
        bind_some, Link.index_eq_none]
      split <;> rfl
    · rw [hl.linked.nodup.mem_erase_iff, hl.mem_iff, hdet.owner_eq]
      by_cases hj : j = i <;> simp [hj]
    · simp [hdet.list_eq, hl.count_eq, List.length_erase_of_mem hmem]
  · have hne : ∀ j ∈ l, j ≠ i := by
      rintro j hj rfl
      rw [(hl.mem_iff j).mp hj] at hi
      exact hq (some.inj hi)
    obtain ⟨l', hl'⟩ := ht.chain p
    have hother : ∀ j ∈ l, j ∉ l' := by
      intro j hj hj'
      have := (hl'.mem_iff j).mp hj'
      rw [(hl.mem_iff j).mp hj] at this
      exact hq (some.inj this)
    have hmem : i ∈ l' := (hl'.mem_iff i).mpr hi
    refine ⟨l, hl.linked.congr (fun j hj => ?_) (fun j hj => ?_), ?_, fun j => ?_, ?_⟩
    · rw [hdet.nextOf_eq (hne j hj) (hheld j hj), if_neg]
      exact fun hprev => hother j hj (hl'.linked.prev_mem hmem hprev)
    · rw [hdet.prevOf_eq (hne j hj) (hheld j hj), if_neg]
      exact fun hnext => hother j hj (hl'.linked.next_mem hmem hnext)
    · simpa [hq] using hl.head_eq
    · rw [hdet.owner_eq, hl.mem_iff]
      by_cases hj : j = i
      · simp [hj, hi, Ne.symm hq]
      · simp [hj]
    · simpa [hq] using hl.count_eq

end Detached

/-! ## What a call can do -/

/-- Every call leaves the tables alone, opens one handle or closes one. -/
inductive Effect (t : HandleTables n) : List HandleEvent → HandleTables n → Prop
  | quiet : Effect t [] t
  | opened {p : ProcessId} {entry : Entry} {h : Handle} {arena' : HandleArena n}
      {list' : HandleList} (hins : Inserted t.arena (t.lists p) p entry h arena' list') :
      Effect t [.opened p h] ⟨arena', update t.lists p list'⟩
  | closed {p : ProcessId} {occupant : HandleOccupant} {h : Handle} {arena' : HandleArena n}
      {list' : HandleList} (howner : occupant.owner = p)
      (hgen : t.arena.generation h.index = h.generation)
      (hdet : Detached t.arena (t.lists p) h.index occupant arena' list') :
      Effect t [.closed p h] ⟨arena', update t.lists p list'⟩

theorem Isolated.insert_effect (ht : t.Isolated) (p : ProcessId) (entry : Entry) :
    t.Effect ((t.call p (insert p entry)).1.toOption.toList.map (.opened p))
      (t.call p (insert p entry)).2 := by
  unfold call
  rcases insert_cases ht.valid p entry (ht.head_held p) with
    ⟨e, he, -⟩ | ⟨handle, arena', list', hok, -, hins⟩
  · rw [he]
    simpa [Except.toOption] using Effect.quiet
  · rw [hok]
    exact Effect.opened hins

theorem duplicate_cases (list : HandleList) (p : ProcessId) (h : Handle) (rights : Rights) :
    (∃ e, duplicate p h rights (arena, list) = (.error e, arena, list) ∧
      ∀ original, arena.lookup p h = .ok original →
        ¬ (original.rights.contains .duplicate = true ∧
          rights.isSubsetOf original.rights = true)) ∨
    ∃ original, arena.lookup p h = .ok original ∧ (original.rights.contains .duplicate = true ∧
        rights.isSubsetOf original.rights = true) ∧
      duplicate p h rights (arena, list) =
        insert p ⟨original.object, rights, original.badge⟩ (arena, list) := by
  unfold duplicate
  cases hl : arena.lookup p h with
  | error e => exact Or.inl ⟨e, by simp [bind, hl], by simp⟩
  | ok original =>
    by_cases hd : original.rights.contains .duplicate = true
    · by_cases hs : rights.isSubsetOf original.rights = true
      · exact Or.inr ⟨original, rfl, ⟨hd, hs⟩, by simp [bind, hl, Prog.require, hd, hs]⟩
      · exact Or.inl ⟨_, by simp [bind, hl, Prog.require, hd, hs]; rfl, by simp [hs]⟩
    · exact Or.inl ⟨_, by simp [bind, hl, Prog.require, hd]; rfl, by simp [hd]⟩

theorem Isolated.step_effect (ht : t.Isolated) (op : HandleOp) :
    t.Effect (t.step op).1 (t.step op).2 := by
  cases op with
  | insert p entry => exact ht.insert_effect p entry
  | duplicate p h rights =>
    rcases duplicate_cases t.arena (t.lists p) p h rights with
      ⟨e, he, -⟩ | ⟨original, -, -, hentry⟩
    · simp only [step, call, he]
      simpa [Except.toOption] using Effect.quiet
    · have heffect := ht.insert_effect p ⟨original.object, rights, original.badge⟩
      simp only [call] at heffect
      simp only [step, call, hentry]
      exact heffect
  | close p h =>
    simp only [step, call, close]
    rcases resolve_cases t.arena p h with hr | hr
    · obtain ⟨howner, hgen⟩ := (resolve_ok_iff ht.valid).mp hr
      obtain ⟨o, ho, howner⟩ := map_eq_some_iff.mp howner
      obtain ⟨arena', list', heq, hdet⟩ := ht.valid.detach (t.lists p) ho
      rw [hr]
      simp only [heq]
      exact Effect.closed howner hgen hdet
    · rw [hr]
      simpa [Except.toOption] using Effect.quiet
  | closeNext p =>
    simp only [step, closeNext]
    cases hhead : (t.lists p).head.index with
    | none => simpa using Effect.quiet
    | some i =>
      obtain ⟨o, ho⟩ := ne_none_iff_exists'.mp (ht.head_held p i hhead)
      obtain ⟨arena', list', heq, hdet⟩ := ht.valid.detach (t.lists p) ho
      have hin : i < n := ht.valid.lt_of_occupant (by simp [ho])
      have hgen := ht.valid.generation_ne i (by simp [ho])
      obtain ⟨handle, hhandle⟩ :
          ∃ handle, Handle.new i (t.arena.generation i) = some handle := by
        unfold Handle.new
        rw [dif_neg hgen]
        exact ⟨_, rfl⟩
      obtain ⟨-, hindex, hgeneration⟩ :=
        (Handle.new_eq_some (lt_trans hin ht.valid.size_lt)).mp hhandle
      have hfirst : t.arena.handlesNext (t.lists p).head = some ((handle, o.entry), o.next) := by
        have ho' : (t.arena.slots i).occupant = some o := ho
        have hh' : Handle.new i (t.arena.slots i).generation = some handle := hhandle
        simp [handlesNext, hhead, slot, hin, ho', hh']
      have howner : o.owner = p := by
        obtain ⟨l, hl⟩ := ht.chain p
        have hi := (hl.mem_iff i).mp (List.mem_of_head? (hl.head_eq ▸ hhead))
        simpa [owner, ho] using hi
      subst hindex
      simp only [heq, hfirst]
      exact Effect.closed howner hgeneration.symm hdet
  | lookup p h => exact Effect.quiet

theorem Effect.isolated (ht : t.Isolated) (h : t.Effect events t') : t'.Isolated := by
  cases h with
  | quiet => exact ht
  | opened hins => exact ht.inserted hins
  | closed howner _ hdet => exact ht.detached howner hdet

/-- A handle that works after a call worked before it or was returned by it, and was not closed
by it. -/
theorem Effect.reaches (heff : t.Effect events t') (p : ProcessId) (h : Handle) :
    t'.Reaches p h ↔
      (t.Reaches p h ∨ .opened p h ∈ events) ∧ .closed p h ∉ events := by
  cases heff with
  | quiet => simp
  | @opened q entry k arena' list' hins =>
    simp only [Reaches, hins.owner_eq, hins.generation_eq', List.mem_singleton,
      HandleEvent.opened.injEq, reduceCtorEq, not_false_eq_true, and_true]
    by_cases hi : h.index = k.index
    · have hfree : t.arena.owner k.index = none := by simp [owner, hins.was_free]
      simp only [hi, if_true, hfree, some.injEq, reduceCtorEq, false_and, false_or,
        Handle.ext_iff, true_and, eq_comm]
    · have hne : ¬ h = k := fun heq => hi (congrArg Handle.index heq)
      simp [hi, hne]
  | @closed q occupant k arena' list' howner hgen hdet =>
    simp only [Reaches, hdet.owner_eq, hdet.generation_eq, List.mem_singleton, reduceCtorEq,
      or_false, HandleEvent.closed.injEq]
    by_cases hi : h.index = k.index
    · have hq : t.arena.owner h.index = some q := by simp [owner, hi, hdet.was_held, howner]
      simp only [hi, if_true, reduceCtorEq, false_and, false_iff, not_and]
      rintro ⟨hp, hg⟩ hnot
      rw [← hi, hq] at hp
      exact hnot (some.inj hp).symm (Handle.ext_iff.mpr ⟨hi, hg.symm.trans hgen⟩)
    · have hne : ¬ h = k := fun heq => hi (congrArg Handle.index heq)
      simp [hi, hne]

/-! ## Whole runs -/

theorem Isolated.run (ht : t.Isolated) (ops : List HandleOp) : (t.run ops).2.Isolated := by
  induction ops generalizing t with
  | nil => exact ht
  | cons op ops ih => exact ih ((ht.step_effect op).isolated ht)

/-- The record shows that `p` was given `h` and has not closed it since. -/
def HeldBy (events : List HandleEvent) (p : ProcessId) (h : Handle) : Prop :=
  ∃ before after, events = before ++ .opened p h :: after ∧ .closed p h ∉ after

theorem heldBy_cons {event : HandleEvent} :
    HeldBy (event :: events) p h ↔
      (event = .opened p h ∧ .closed p h ∉ events) ∨ HeldBy events p h := by
  constructor
  · rintro ⟨before, after, heq, hclosed⟩
    cases before with
    | nil =>
      obtain ⟨rfl, rfl⟩ := List.cons.inj heq
      exact Or.inl ⟨rfl, hclosed⟩
    | cons first before =>
      obtain ⟨-, rfl⟩ := List.cons.inj heq
      exact Or.inr ⟨before, after, rfl, hclosed⟩
  · rintro (⟨rfl, hclosed⟩ | ⟨before, after, rfl, hclosed⟩)
    · exact ⟨[], events, rfl, hclosed⟩
    · exact ⟨event :: before, after, rfl, hclosed⟩

theorem Isolated.run_reaches (ht : t.Isolated) (ops : List HandleOp) (p : ProcessId) (h : Handle) :
    (t.run ops).2.Reaches p h ↔
      (t.Reaches p h ∧ .closed p h ∉ (t.run ops).1) ∨ HeldBy (t.run ops).1 p h := by
  induction ops generalizing t with
  | nil => simp [HandleTables.run, HeldBy]
  | cons op ops ih =>
    have heff := ht.step_effect op
    have hreach := heff.reaches p h
    have hlater := ih (heff.isolated ht)
    simp only [HandleTables.run]
    rw [hlater, hreach]
    generalize t.step op = r at heff
    obtain ⟨events, t'⟩ := r
    cases heff with
    | quiet => simp
    | opened hins =>
      simp only [List.mem_singleton, List.singleton_append, heldBy_cons]
      grind
    | closed howner hgen hdet =>
      simp only [List.mem_singleton, List.singleton_append, heldBy_cons]
      grind

def reuses (i : Nat) (events : List HandleEvent) : Nat :=
  events.countP fun
    | .opened _ h => h.index = i
    | .closed _ _ => false

theorem Isolated.run_generation (ht : t.Isolated) (ops : List HandleOp) (i : Nat) :
    (t.run ops).2.arena.generation i =
      nextGeneration^[reuses i (t.run ops).1] (t.arena.generation i) := by
  induction ops generalizing t with
  | nil => rfl
  | cons op ops ih =>
    have heff := ht.step_effect op
    have hlater := ih (heff.isolated ht)
    simp only [HandleTables.run]
    rw [hlater]
    generalize t.step op = r at heff
    obtain ⟨events, t'⟩ := r
    cases heff with
    | quiet => rfl
    | @opened q entry k arena' list' hins =>
      rw [hins.generation_eq']
      by_cases hi : i = k.index
      · subst hi
        simp [reuses, hins.generation_eq]
      · simp [reuses, hi, Ne.symm hi]
    | closed howner hgen hdet => simp [reuses, hdet.generation_eq]

end HandleTables

variable {g : Nat}

/-- Generations run through `1 .. 2 ^ 32 - 1` and start again. -/
theorem iterate_nextGeneration (hpos : g ≠ 0) (hlt : g < u32Size) (k : Nat) :
    nextGeneration^[k] g = (g - 1 + k) % (u32Size - 1) + 1 := by
  unfold u32Size at *
  induction k with
  | zero =>
    rw [iterate_zero_apply]
    omega
  | succ k ih =>
    rw [iterate_succ_apply', ih, ← add_assoc]
    generalize g - 1 + k = x
    unfold nextGeneration u32Size
    by_cases hlast : x % 4294967295 = 4294967294
    · have hwrap : (x + 1) % 4294967295 = 0 := by omega
      simp [hlast, hwrap]
    · have hnext : (x + 1) % 4294967295 = x % 4294967295 + 1 := by omega
      have hsmall : (x % 4294967295 + 1 + 1) % 4294967296 = x % 4294967295 + 2 := by
        rw [Nat.mod_eq_of_lt (by omega)]
      simp [hnext, hsmall]

/-- A slot comes back to a generation only after it was filled `2 ^ 32 - 1` times. -/
theorem iterate_nextGeneration_ne {k : Nat} (hpos : g ≠ 0) (hlt : g < u32Size) (hk : k ≠ 0)
    (hkm : k < u32Size - 1) : nextGeneration^[k] g ≠ g := by
  rw [iterate_nextGeneration hpos hlt]
  unfold u32Size at *
  omega

namespace HandleTables

variable {n : Nat} {t : HandleTables n} {p : ProcessId} {h : Handle}

theorem Isolated.run_after_opened (ht : t.Isolated) (ops : List HandleOp)
    {before after : List HandleEvent} (heq : (t.run ops).1 = before ++ .opened p h :: after) :
    ∃ (t₁ : HandleTables n) (later : List HandleOp), t₁.Isolated ∧ t₁.Reaches p h ∧
      h.generation < u32Size ∧ t₁.run later = (after, (t.run ops).2) := by
  induction ops generalizing t before with
  | nil => simp [HandleTables.run] at heq
  | cons op ops ih =>
    have heff := ht.step_effect op
    have hlater := heff.isolated ht
    have hreach := heff.reaches p h
    simp only [HandleTables.run] at heq ⊢
    generalize t.step op = r at heff hlater hreach heq ⊢
    obtain ⟨events, t'⟩ := r
    cases heff with
    | quiet => exact ih hlater heq
    | @opened q entry k arena' list' hins =>
      cases before with
      | nil =>
        obtain ⟨hhead, htail⟩ := List.cons.inj heq
        obtain ⟨rfl, rfl⟩ := HandleEvent.opened.inj hhead
        refine ⟨_, ops, hlater, hreach.mpr (by simp), ?_, ?_⟩
        · rw [hins.generation_eq]
          exact nextGeneration_lt _
        · rw [← htail]
          rfl
      | cons first before => exact ih hlater (List.cons.inj heq).2
    | closed howner hgen hdet =>
      cases before with
      | nil => exact absurd (List.cons.inj heq).1 (by simp)
      | cons first before => exact ih hlater (List.cons.inj heq).2

theorem reuses_pos {events : List HandleEvent} (hheld : HeldBy events p h) :
    reuses h.index events ≠ 0 := by
  obtain ⟨before, after, rfl, -⟩ := hheld
  simp [reuses]

/-- The owners of the occupied slots; every other process holds no handle. -/
def holders (t : HandleTables n) : Finset ProcessId :=
  t.arena.occupied.image fun i => (t.arena.owner i).getD ⟨0, 0⟩

theorem owner_of_occupied {i : Nat} (hi : i ∈ t.arena.occupied) :
    ∃ p, t.arena.owner i = some p := by
  obtain ⟨o, ho⟩ := ne_none_iff_exists'.mp (mem_filter.mp hi).2
  exact ⟨o.owner, by simp [owner, ho]⟩

theorem Isolated.count_eq_card (ht : t.Isolated) (p : ProcessId) :
    (t.lists p).count =
      (t.arena.occupied.filter fun i => (t.arena.owner i).getD ⟨0, 0⟩ = p).card := by
  obtain ⟨l, hl⟩ := ht.chain p
  rw [hl.count_eq, ← List.toFinset_card_of_nodup hl.linked.nodup]
  congr 1
  ext i
  rw [List.mem_toFinset, hl.mem_iff, mem_filter]
  constructor
  · intro howner
    have hocc : t.arena.occupant i ≠ none := fun hnone => by simp [owner, hnone] at howner
    have hin := mem_range.mpr (ht.valid.lt_of_occupant hocc)
    exact ⟨mem_filter.mpr ⟨hin, hocc⟩, by simp [howner]⟩
  · rintro ⟨hi, hp⟩
    obtain ⟨q, hq⟩ := owner_of_occupied hi
    simpa [hq] using hp

theorem Isolated.count_eq_zero (ht : t.Isolated) {p : ProcessId} (hp : p ∉ t.holders) :
    (t.lists p).count = 0 := by
  rw [ht.count_eq_card, card_eq_zero, filter_eq_empty_iff]
  exact fun i hi heq => hp (mem_image.mpr ⟨i, hi, heq⟩)

theorem Isolated.live_eq_sum (ht : t.Isolated) :
    t.arena.live = ∑ p ∈ t.holders, (t.lists p).count := by
  rw [ht.valid.live_eq, card_eq_sum_card_image fun i => (t.arena.owner i).getD ⟨0, 0⟩]
  exact sum_congr rfl fun p _ => (ht.count_eq_card p).symm

/-- The three kinds of slots, each with what it excludes. -/
def Partitioned (t : HandleTables n) (free : List Nat) : Prop :=
  ∀ i < n,
    (t.arena.occupant i ≠ none ∧ i ∉ free ∧ i < t.arena.highWater) ∨
    (t.arena.occupant i = none ∧ i ∈ free ∧ i < t.arena.highWater) ∨
    (t.arena.occupant i = none ∧ i ∉ free ∧ t.arena.highWater ≤ i)

theorem Isolated.partitioned (ht : t.Isolated) :
    ∃ free, FreeList t.arena.nextFreeOf t.arena.freeHead.index t.arena.freeTail.index
      t.arena.highWater n (fun i => t.arena.occupant i = none) free ∧ t.Partitioned free := by
  obtain ⟨free, hfree⟩ := ht.valid.free
  refine ⟨free, hfree, fun i _ => ?_⟩
  have hmem := hfree.mem_iff i
  have habove := hfree.above i
  by_cases hhigh : i < t.arena.highWater
  · by_cases hocc : t.arena.occupant i = none
    · exact Or.inr (Or.inl ⟨hocc, hmem.mpr ⟨hhigh, hocc⟩, hhigh⟩)
    · exact Or.inl ⟨hocc, fun hi => hocc (hmem.mp hi).2, hhigh⟩
  · have hge := le_of_not_gt hhigh
    exact Or.inr (Or.inr ⟨habove hge, fun hi => hhigh (hmem.mp hi).1, hge⟩)

/-- What holds of the tables after a run whose record is `events`. -/
structure Isolation (events : List HandleEvent) (t : HandleTables n) : Prop where
  /-- The chain of a process visits its own slots, once each, with correct back links. -/
  chain : ∀ p, ∃ l, t.ChainOf p l
  /-- Occupied slots, the free list and the slots above the mark partition the arena. -/
  partition : ∃ free, FreeList t.arena.nextFreeOf t.arena.freeHead.index t.arena.freeTail.index
    t.arena.highWater n (fun i => t.arena.occupant i = none) free ∧ t.Partitioned free
  /-- The live count is the sum of the counts of the lists. -/
  live : ∃ holders : Finset ProcessId, (∀ p ∉ holders, (t.lists p).count = 0) ∧
    t.arena.live = ∑ p ∈ holders, (t.lists p).count
  /-- A lookup succeeds exactly when the handle was returned and not closed since. -/
  lookup : ∀ p h, (∃ entry, t.arena.lookup p h = .ok entry) ↔ HeldBy events p h
  /-- From the call that returned it, a handle works until it is closed and not again, as long as
  its slot is filled fewer than `2 ^ 32 - 1` times. -/
  lookup_since : ∀ p h before after, events = before ++ .opened p h :: after →
    reuses h.index after < u32Size - 1 →
    ((∃ entry, t.arena.lookup p h = .ok entry) ↔ .closed p h ∉ after)

/-- For every sequence of calls by any number of processes on one arena. -/
theorem handleTables_isolated (hn : n < u32Size) (capacity : ProcessId → Nat)
    (ops : List HandleOp) :
    Isolation ((new n capacity).run ops).1 ((new n capacity).run ops).2 := by
  have hnew : (new n capacity).Isolated := isolated_new hn capacity
  have hrun := hnew.run ops
  have hreach : ∀ p h, (new n capacity).Reaches p h → False := by
    rintro p h ⟨howner, -⟩
    exact absurd howner nofun
  constructor
  · exact hrun.chain
  · exact hrun.partitioned
  · exact ⟨_, fun p hp => hrun.count_eq_zero hp, hrun.live_eq_sum⟩
  · intro p h
    rw [lookup_ok_iff hrun.valid, hnew.run_reaches]
    constructor
    · rintro (⟨hno, -⟩ | hheld)
      · exact (hreach p h hno).elim
      · exact hheld
    · exact Or.inr
  · intro p h before after heq hreuses
    obtain ⟨t₁, later, ht₁, hopen, hlt, hlater⟩ := hnew.run_after_opened ops heq
    have hfinal := ht₁.run_reaches later p h
    have hgeneration := ht₁.run_generation later h.index
    rw [hlater] at hfinal hgeneration
    rw [lookup_ok_iff hrun.valid, hfinal]
    constructor
    · rintro (⟨-, hclosed⟩ | hheld)
      · exact hclosed
      -- A second opening of the same slot would need the generation to have come round.
      have hback : ((new n capacity).run ops).2.Reaches p h := hfinal.mpr (Or.inr hheld)
      simp only [hback.2, hopen.2] at hgeneration
      exact absurd hgeneration.symm
        (iterate_nextGeneration_ne h.generation_ne hlt (reuses_pos hheld) hreuses)
    · exact fun hclosed => Or.inl ⟨hopen, hclosed⟩

/-- Two processes on an arena of three slots: one opens two handles and closes the first, the
other takes over its slot. -/
theorem handleTables_isolated_three :
    3 < u32Size ∧
    let ops : List HandleOp :=
      [.insert ⟨0, 1⟩ (.new ⟨.endpoint, 0, 1⟩ .all), .insert ⟨0, 1⟩ (.new ⟨.endpoint, 1, 1⟩ .all),
        .closeNext ⟨0, 1⟩, .insert ⟨1, 1⟩ (.new ⟨.endpoint, 2, 1⟩ .all)]
    Isolation ((new 3 fun _ => 2).run ops).1 ((new 3 fun _ => 2).run ops).2 :=
  ⟨by decide, handleTables_isolated (by decide) _ _⟩

end HandleTables

end Audhsos
