import Audhsos.Lib.FreeList
import Audhsos.Objects.HandleTable

/-!
What `insert` and `detach` do to a well-formed arena. `HandleArena.Valid` ties the free list, the
high-water mark and the live count to the slots; `Inserted` and `Detached` list every change of the
two, and everything else reads the arena through them.
-/

namespace Audhsos

open Lib Option

namespace HandleArena

variable {n : Nat} {arena arena' : HandleArena n} {list list' : HandleList} {i j : Nat}

/-! ## Reading the links -/

section

variable (arena : HandleArena n) (i : Nat)

def occupant : Option HandleOccupant := (arena.slots i).occupant

def generation : Nat := (arena.slots i).generation

def owner : Option ProcessId :=
  (arena.occupant i).map (·.owner)

def nextOf : Option Nat :=
  (arena.occupant i).bind (·.next.index)

def prevOf : Option Nat :=
  (arena.occupant i).bind (·.previous.index)

def nextFreeOf : Option Nat := (arena.slots i).nextFree.index

end

theorem nextFreeOf_eq_none : arena.nextFreeOf i = none ↔ (arena.slots i).nextFree = .none :=
  Link.index_eq_none

variable (arena)

def occupied : Finset Nat :=
  (Finset.range n).filter fun i => arena.occupant i ≠ none

theorem modifySlot_slots (i : Nat) (f : HandleSlot → HandleSlot) (j : Nat) :
    (arena.modifySlot i f).slots j =
      if j = i ∧ i < n then f (arena.slots i) else arena.slots j := by
  unfold modifySlot
  by_cases hi : i < n
  · by_cases hj : j = i <;> simp [hi, hj]
  · simp [hi]

theorem modifyLinked_slots (link : Link) (f : HandleOccupant → HandleOccupant) (j : Nat) :
    (arena.modifyLinked link f).slots j =
      if link.index = some j ∧ j < n then
        { arena.slots j with occupant := (arena.slots j).occupant.map f }
      else arena.slots j := by
  unfold modifyLinked modifyOccupantAt
  cases h : link.index with
  | none => simp
  | some i =>
    simp only [modifySlot_slots, some.injEq]
    by_cases hj : j = i
    · subst hj
      simp
    · have hij : ¬ i = j := fun h => hj h.symm
      simp [hj, hij]

variable {arena}

section Fields

variable (arena : HandleArena n) (link : Link) (i : Nat) (f : HandleSlot → HandleSlot)
  (g : HandleOccupant → HandleOccupant)

@[simp] theorem modifySlot_rest : (arena.modifySlot i f).freeHead = arena.freeHead ∧
    (arena.modifySlot i f).freeTail = arena.freeTail ∧
    (arena.modifySlot i f).highWater = arena.highWater ∧
    (arena.modifySlot i f).live = arena.live := by
  unfold modifySlot
  split <;> simp

@[simp] theorem modifyLinked_rest : (arena.modifyLinked link g).freeHead = arena.freeHead ∧
    (arena.modifyLinked link g).freeTail = arena.freeTail ∧
    (arena.modifyLinked link g).highWater = arena.highWater ∧
    (arena.modifyLinked link g).live = arena.live := by
  unfold modifyLinked modifyOccupantAt
  split <;> simp

end Fields

/-! ## Well-formed arenas -/

/-- The free list, the high-water mark and the live count agree with the slots. -/
structure Valid (arena : HandleArena n) : Prop where
  size_lt : n < u32Size
  free : ∃ l, FreeList arena.nextFreeOf arena.freeHead.index arena.freeTail.index
    arena.highWater n (fun i => arena.occupant i = none) l
  live_eq : arena.live = arena.occupied.card
  generation_ne : ∀ i, arena.occupant i ≠ none → arena.generation i ≠ 0

theorem valid_new (hn : n < u32Size) : (new : HandleArena n).Valid where
  size_lt := hn
  free := ⟨[], FreeList.new n fun _ => rfl⟩
  live_eq := by
    have : (new : HandleArena n).occupied = ∅ := Finset.filter_eq_empty_iff.mpr fun i _ h => h rfl
    rw [this]
    rfl
  generation_ne := fun _ h => absurd rfl h

theorem Valid.lt_of_occupant (h : arena.Valid) (hi : arena.occupant i ≠ none) : i < n := by
  obtain ⟨l, hfree⟩ := h.free
  by_contra hlt
  exact hi (hfree.above i (le_trans hfree.high_le (le_of_not_gt hlt)))

/-- A taken slot is unoccupied, and filling it leaves a free list of the others. -/
theorem Valid.takeFreeSlot (h : arena.Valid) (htake : arena.takeFreeSlot = some (i, arena')) :
    i < n ∧ arena.occupant i = none ∧ arena'.slots = arena.slots ∧ arena'.live = arena.live ∧
    ∀ (next' : Nat → Option Nat) (free' : Nat → Prop),
      (∀ j, j ≠ i → next' j = arena.nextFreeOf j) →
      (∀ j, free' j ↔ arena.occupant j = none ∧ j ≠ i) →
      ∃ l, FreeList next' arena'.freeHead.index arena'.freeTail.index arena'.highWater n
        free' l := by
  obtain ⟨l, hfree⟩ := h.free
  have hsize := h.size_lt
  have hhigh := hfree.high_le
  unfold HandleArena.takeFreeSlot at htake
  cases hhead : arena.freeHead.index with
  | some x =>
    obtain ⟨hx, hxfree⟩ := hfree.head_lt hhead
    have hxn : x < n := lt_of_lt_of_le hx hhigh
    simp only [hhead, HandleArena.slot, hxn, if_true, elim_some, some.injEq, Prod.mk.injEq] at htake
    obtain ⟨rfl, rfl⟩ := htake
    refine ⟨hxn, hxfree, rfl, rfl, fun next' free' hnext hfree' => ⟨l.tail, ?_⟩⟩
    have htaken := hfree.take_head hhead (fun j _ hj => hnext j hj) hfree'
    have htail : (if (arena.slots x).nextFree = Link.none then Link.none
        else arena.freeTail).index =
        if arena.nextFreeOf x = none then none else arena.freeTail.index := by
      by_cases hnone : (arena.slots x).nextFree = Link.none
      · rw [if_pos hnone, if_pos (nextFreeOf_eq_none.mpr hnone), Link.index_none]
      · rw [if_neg hnone, if_neg fun hi => hnone (nextFreeOf_eq_none.mp hi)]
    simp only [htail]
    exact htaken
  | none =>
    simp only [hhead] at htake
    split at htake
    · rename_i hlt
      cases htake
      have hsat : satAdd32 arena.highWater 1 = arena.highWater + 1 := satAdd32_eq (by omega)
      refine ⟨hlt, hfree.above _ (le_rfl), rfl, rfl, fun next' free' _ hfree' => ⟨[], ?_⟩⟩
      simp only [hhead, hsat] at hfree ⊢
      exact hfree.take_fresh hlt hfree'
    · exact absurd htake (by simp)

variable (arena)

theorem putFreeSlot_slots (i j : Nat) :
    (arena.putFreeSlot i).occupant j = arena.occupant j ∧
    (arena.putFreeSlot i).generation j = arena.generation j := by
  unfold putFreeSlot HandleArena.occupant HandleArena.generation
  dsimp only
  split <;> simp only [modifySlot_slots] <;> split <;> (try split) <;> simp_all

theorem putFreeSlot_nextFreeOf (hi : i + 1 < u32Size) (hin : i < n)
    (hne : arena.freeTail.index ≠ some i) (hj : j < n) :
    (arena.putFreeSlot i).nextFreeOf j =
      if j = i then none else if arena.freeTail.index = some j then some i
        else arena.nextFreeOf j := by
  unfold putFreeSlot HandleArena.nextFreeOf
  simp only [modifySlot_rest]
  cases htail : arena.freeTail.index with
  | none => by_cases hji : j = i <;> simp [modifySlot_slots, hji, hin]
  | some t =>
    have hti : t ≠ i := by
      rintro rfl
      exact hne htail
    by_cases hji : j = i
    · subst hji
      simp [modifySlot_slots, hin, hti.symm]
    by_cases hjt : j = t
    · subst hjt
      simp [modifySlot_slots, hji, hj, Link.index_to hi]
    · have htj : ¬ t = j := fun h => hjt h.symm
      simp [modifySlot_slots, hji, hjt, htj]

theorem putFreeSlot_fields (hi : i + 1 < u32Size) :
    (arena.putFreeSlot i).freeHead.index =
      (if arena.freeTail.index = none then some i else arena.freeHead.index) ∧
    (arena.putFreeSlot i).freeTail.index = some i ∧
    (arena.putFreeSlot i).highWater = arena.highWater ∧
    (arena.putFreeSlot i).live = arena.live := by
  unfold putFreeSlot
  simp only [modifySlot_rest, Link.index_to hi]
  cases arena.freeTail.index <;> simp [Link.index_to hi]

variable {arena}

/-! ## Insertion -/

/-- `insert` gave `process` the handle `handle` on `entry`. -/
structure Inserted (arena : HandleArena n) (list : HandleList) (process : ProcessId)
    (entry : Entry) (handle : Handle) (arena' : HandleArena n) (list' : HandleList) : Prop where
  index_lt : handle.index < n
  was_free : arena.occupant handle.index = none
  generation_eq : handle.generation = nextGeneration (arena.generation handle.index)
  slot_eq : arena'.slots handle.index =
    ⟨handle.generation, .none, some ⟨process, entry, .none, list.head⟩⟩
  slot_other : ∀ j, j ≠ handle.index → arena'.slots j =
    if list.head.index = some j ∧ j < n then
      { arena.slots j with
        occupant := (arena.slots j).occupant.map ({ · with previous := .toIndex handle.index }) }
    else arena.slots j
  live_eq : arena'.live = arena.live + 1
  list_eq : list' = { list with head := .toIndex handle.index, count := satAdd32 list.count 1 }
  valid : arena'.Valid

section Inserted

variable {process : ProcessId} {entry : Entry} {handle : Handle}

section

variable (hins : Inserted arena list process entry handle arena' list')
include hins

variable (j)

theorem Inserted.owner_eq :
    arena'.owner j = if j = handle.index then some process else arena.owner j := by
  unfold owner HandleArena.occupant
  by_cases hj : j = handle.index
  · simp [hj, hins.slot_eq]
  · rw [hins.slot_other j hj, if_neg hj]
    split
    · simp [Function.comp_def]
    · rfl

theorem Inserted.nextOf_eq :
    arena'.nextOf j = if j = handle.index then list.head.index else arena.nextOf j := by
  unfold nextOf HandleArena.occupant
  by_cases hj : j = handle.index
  · simp [hj, hins.slot_eq]
  · rw [hins.slot_other j hj, if_neg hj]
    split
    · cases (arena.slots j).occupant <;> rfl
    · rfl

theorem Inserted.prevOf_eq {j : Nat}
    (hu : handle.index + 1 < u32Size) (hj : j ≠ handle.index) (hjn : j < n)
    (hocc : arena.occupant j ≠ none) :
    arena'.prevOf j =
      if list.head.index = some j then some handle.index else arena.prevOf j := by
  unfold prevOf
  obtain ⟨o, ho⟩ := ne_none_iff_exists'.mp hocc
  rw [HandleArena.occupant, hins.slot_other j hj, ho]
  have ho' : (arena.slots j).occupant = some o := ho
  by_cases hhead : list.head.index = some j <;> simp [hhead, hjn, ho', Link.index_to hu]

theorem Inserted.generation_eq' :
    arena'.generation j = if j = handle.index then handle.generation else arena.generation j := by
  unfold HandleArena.generation
  by_cases hj : j = handle.index
  · simp [hj, hins.slot_eq]
  · rw [hins.slot_other j hj, if_neg hj]
    split <;> rfl

end

end Inserted

theorem nextGeneration_ne_zero (g : Nat) : nextGeneration g ≠ 0 := by
  unfold nextGeneration
  split <;> simp_all

theorem nextGeneration_lt (g : Nat) : nextGeneration g < u32Size := by
  have hmod : (g + 1) % u32Size < u32Size := Nat.mod_lt _ (by decide)
  unfold nextGeneration
  split
  · decide
  · exact hmod

theorem place_slots (arena : HandleArena n) (head : Link) (slot : HandleSlot) (hi : i < n)
    (hhead : head.index ≠ some i) (j : Nat) :
    (arena.place head i slot).slots j =
      if j = i then slot
      else if head.index = some j ∧ j < n then
        { arena.slots j with
          occupant := (arena.slots j).occupant.map ({ · with previous := .toIndex i }) }
      else arena.slots j := by
  simp only [place, modifyLinked_slots, modifySlot_slots, hi, and_true]
  by_cases hj : j = i
  · subst hj
    simp [hhead]
  · simp [hj]

theorem Valid.place (h : arena.Valid) (htake : arena.takeFreeSlot = some (i, arena'))
    (process : ProcessId) (entry : Entry) {handle : Handle} (hindex : handle.index = i)
    (hgen : handle.generation = nextGeneration (arena.generation i))
    (hhead : list.head.index ≠ some i) :
    Inserted arena list process entry handle
      (arena'.place list.head i ⟨handle.generation, .none, some ⟨process, entry, .none, list.head⟩⟩)
      { list with head := .toIndex i, count := satAdd32 list.count 1 } := by
  obtain ⟨hi, hfree, hslots, hlive, hlist⟩ := h.takeFreeSlot htake
  subst hindex
  have hslot := place_slots arena' list.head
    ⟨handle.generation, .none, some ⟨process, entry, .none, list.head⟩⟩ hi hhead
  rw [hslots] at hslot
  set final := arena'.place list.head handle.index
    ⟨handle.generation, .none, some ⟨process, entry, .none, list.head⟩⟩ with hfinal
  have hocc : ∀ j, final.occupant j = none ↔ arena.occupant j = none ∧ j ≠ handle.index := by
    intro j
    unfold HandleArena.occupant
    rw [hslot j]
    by_cases hj : j = handle.index
    · simp [hj]
    · simp only [hj, if_false]
      split <;> simp [hj]
  have hle : final.occupied.card ≤ n := card_range_filter_le
  have hcard : final.occupied.card = arena.occupied.card + 1 :=
    card_range_filter_insert hi (by simp [hfree]) fun j => by
      simp only [ne_eq, hocc]
      tauto
  have hlive' : final.live = arena.live + 1 := by
    have hsize := h.size_lt
    have hsat : final.live = satAdd32 arena.live 1 := by simp [hfinal, HandleArena.place, hlive]
    rw [hsat, satAdd32_eq]
    rw [h.live_eq]
    omega
  have hnext : ∀ j, j ≠ handle.index → final.nextFreeOf j = arena.nextFreeOf j := by
    intro j hj
    unfold HandleArena.nextFreeOf
    rw [hslot j, if_neg hj]
    split <;> rfl
  constructor
  · exact hi
  · exact hfree
  · exact hgen
  · simp [hslot]
  · intro j hj
    rw [hslot j, if_neg hj]
  · exact hlive'
  · rfl
  · refine ⟨h.size_lt, ?_, ?_, ?_⟩
    · obtain ⟨l, hl⟩ := hlist final.nextFreeOf (fun j => final.occupant j = none) hnext hocc
      refine ⟨l, ?_⟩
      simpa [hfinal, HandleArena.place] using hl
    · rw [hlive', hcard, h.live_eq]
    intro j hj
    unfold HandleArena.generation
    rw [hslot j]
    by_cases hji : j = handle.index
    · simp only [hji, if_true, hgen]
      exact nextGeneration_ne_zero _
    · simp only [hji, if_false]
      have hne := h.generation_ne j fun hnone => hj ((hocc j).mpr ⟨hnone, hji⟩)
      split <;> exact hne

/-- The list may grow, and the arena has a slot to give. -/
def HasSlot (arena : HandleArena n) (list : HandleList) : Prop :=
  list.count < list.capacity ∧ arena.takeFreeSlot ≠ none

/-- `insert` fails without a change, or it makes exactly the changes of `Inserted`. -/
theorem insert_cases (h : arena.Valid) (process : ProcessId) (entry : Entry)
    (hhead : ∀ i, list.head.index = some i → arena.occupant i ≠ none) :
    (∃ e, insert process entry (arena, list) = (.error e, arena, list) ∧ ¬ HasSlot arena list) ∨
    ∃ handle arena' list', insert process entry (arena, list) = (.ok handle, arena', list') ∧
      HasSlot arena list ∧ Inserted arena list process entry handle arena' list' := by
  unfold insert
  dsimp only
  by_cases hcap : list.capacity ≤ list.count
  · exact Or.inl ⟨_, if_pos hcap, fun hslot => absurd hslot.1 (not_lt.mpr hcap)⟩
  rw [if_neg hcap]
  cases htake : arena.takeFreeSlot with
  | none => exact Or.inl ⟨_, rfl, fun hslot => hslot.2 htake⟩
  | some taken =>
    obtain ⟨i, taken⟩ := taken
    obtain ⟨hi, hfree, hslots, -, -⟩ := h.takeFreeSlot htake
    have hslot : taken.slot i = some (arena.slots i) := by
      unfold HandleArena.slot
      rw [if_pos hi, hslots]
    have hgen := nextGeneration_ne_zero (arena.generation i)
    obtain ⟨handle, hhandle⟩ :
        ∃ handle, Handle.new i (nextGeneration (arena.generation i)) = some handle := by
      unfold Handle.new
      rw [dif_neg hgen]
      exact ⟨_, rfl⟩
    obtain ⟨-, hindex, hgeneration⟩ := (Handle.new_eq_some (lt_trans hi h.size_lt)).mp hhandle
    have hinserted := h.place htake process entry hindex hgeneration
      fun hlist => hhead i hlist hfree
    rw [hgeneration] at hinserted
    simp only [hslot]
    refine Or.inr ⟨handle, _, _, ?_, ⟨lt_of_not_ge hcap, by simp [htake]⟩, hinserted⟩
    rw [show nextGeneration (arena.slots i).generation =
      nextGeneration (arena.generation i) from rfl, hhandle]
    rfl

/-! ## Removal -/

/-- `detach` took `occupant` out of the slot `i` and out of the chain of its owner. -/
structure Detached (arena : HandleArena n) (list : HandleList) (i : Nat)
    (occupant : HandleOccupant) (arena' : HandleArena n) (list' : HandleList) : Prop where
  was_held : arena.occupant i = some occupant
  occupant_eq : arena'.occupant i = none
  occupant_other : ∀ j, j ≠ i → arena'.occupant j = (arena.occupant j).map fun o =>
    { o with
      next := if occupant.previous.index = some j then occupant.next else o.next
      previous := if occupant.next.index = some j then occupant.previous else o.previous }
  generation_eq : ∀ j, arena'.generation j = arena.generation j
  live_eq : arena'.live = arena.live - 1
  list_eq : list' = { list with
    head := if occupant.previous = .none then occupant.next else list.head
    count := list.count - 1 }
  valid : arena'.Valid

section Detached

variable {occupant : HandleOccupant}

section

variable (hdet : Detached arena list i occupant arena' list')
include hdet

theorem Detached.owner_eq (j : Nat) : arena'.owner j = if j = i then none else arena.owner j := by
  unfold owner
  by_cases hj : j = i
  · simp [hj, hdet.occupant_eq]
  · simp [hj, hdet.occupant_other j hj, Function.comp_def]

theorem Detached.nextOf_eq (hj : j ≠ i) (hocc : arena.occupant j ≠ none) :
    arena'.nextOf j = if arena.prevOf i = some j then arena.nextOf i else arena.nextOf j := by
  obtain ⟨o, ho⟩ := ne_none_iff_exists'.mp hocc
  simp only [nextOf, prevOf, hdet.occupant_other j hj, hdet.was_held, ho, map_some, bind_some]
  split <;> rfl

theorem Detached.prevOf_eq (hj : j ≠ i) (hocc : arena.occupant j ≠ none) :
    arena'.prevOf j = if arena.nextOf i = some j then arena.prevOf i else arena.prevOf j := by
  obtain ⟨o, ho⟩ := ne_none_iff_exists'.mp hocc
  simp only [nextOf, prevOf, hdet.occupant_other j hj, hdet.was_held, ho, map_some, bind_some]
  split <;> rfl

end

end Detached

/-- The arena between taking the occupant out and giving the slot back. -/
def unlinked (arena : HandleArena n) (i : Nat) (occupant : HandleOccupant) : HandleArena n :=
  let arena := arena.modifySlot i ({ · with occupant := none })
  let arena := arena.modifyLinked occupant.previous ({ · with next := occupant.next })
  let arena := arena.modifyLinked occupant.next ({ · with previous := occupant.previous })
  { arena with live := arena.live - 1 }

variable {occupant : HandleOccupant}

theorem unlinked_slots (h : arena.Valid) (hi : arena.occupant i = some occupant) (j : Nat) :
    (arena.unlinked i occupant).slots j = { arena.slots j with
      occupant := if j = i then none else (arena.occupant j).map fun o =>
        { o with
          next := if occupant.previous.index = some j then occupant.next else o.next
          previous := if occupant.next.index = some j then occupant.previous else o.previous } } := by
  have hin : i < n := h.lt_of_occupant (by simp [hi])
  simp only [unlinked, modifyLinked_slots, modifySlot_slots]
  by_cases hj : j = i
  · subst hj
    simp only [hin, and_true, if_true]
    split <;> split <;> simp
  simp only [hj, false_and, if_false]
  by_cases hjn : j < n
  · simp only [hjn, and_true, HandleArena.occupant]
    cases hocc : (arena.slots j).occupant with
    | none => split <;> split <;> simp [hocc, HandleSlot.ext_iff]
    | some o => split <;> split <;> simp [hocc, HandleSlot.ext_iff]
  · have hocc : (arena.slots j).occupant = none := by
      by_contra hne
      exact hjn (h.lt_of_occupant hne)
    simp [hjn, HandleArena.occupant, hocc, HandleSlot.ext_iff]

theorem detach_eq (hin : i < n) (hi : arena.occupant i = some occupant) :
    arena.detach list i = (some occupant.entry, (arena.unlinked i occupant).putFreeSlot i,
      { list with
        head := if occupant.previous = .none then occupant.next else list.head
        count := list.count - 1 }) := by
  have hocc : arena.occupantAt i = some occupant := by
    simpa [occupantAt, HandleArena.slot, hin, HandleArena.occupant] using hi
  unfold detach
  simp only [hocc]
  rfl

/-- Taking out an occupied slot makes exactly the changes of `Detached`. -/
theorem Valid.detach (h : arena.Valid) (list : HandleList) (hi : arena.occupant i = some occupant) :
    ∃ arena' list', arena.detach list i = (some occupant.entry, arena', list') ∧
      Detached arena list i occupant arena' list' := by
  have hheld : arena.occupant i ≠ none := by simp [hi]
  have hin : i < n := h.lt_of_occupant hheld
  have hiu : i + 1 < u32Size := lt_of_le_of_lt hin h.size_lt
  have hslot := unlinked_slots h hi
  set middle := arena.unlinked i occupant with hmiddle
  refine ⟨_, _, detach_eq hin hi, ?_⟩
  rw [← hmiddle]
  have hput := putFreeSlot_slots middle i
  have hoccupant := fun j => (hput j).1.trans (congrArg HandleSlot.occupant (hslot j))
  dsimp only at hoccupant
  have hgeneration : ∀ j, (middle.putFreeSlot i).generation j = arena.generation j := by
    intro j
    rw [(hput j).2, HandleArena.generation, hslot]
    rfl
  have hnone : ∀ j, (middle.putFreeSlot i).occupant j = none ↔ arena.occupant j = none ∨ j = i := by
    intro j
    rw [hoccupant j]
    by_cases hj : j = i <;> simp [hj]
  obtain ⟨hputHead, hputTail, hputHigh, hputLive⟩ := putFreeSlot_fields middle hiu
  have hlive : (middle.putFreeSlot i).live = arena.live - 1 := by
    rw [hputLive, hmiddle]
    simp [unlinked]
  have hcard : (middle.putFreeSlot i).occupied.card = arena.occupied.card - 1 :=
    card_range_filter_erase hin hheld fun j => by simp only [ne_eq, hnone, not_or]
  constructor
  · exact hi
  · simp [hoccupant]
  · intro j hj
    rw [hoccupant j, if_neg hj]
  · exact hgeneration
  · exact hlive
  · rfl
  · refine ⟨h.size_lt, ?_, ?_, ?_⟩
    · obtain ⟨l, hl⟩ := h.free
      have hfree : ∀ j, middle.nextFreeOf j = arena.nextFreeOf j := by
        intro j
        rw [HandleArena.nextFreeOf, hslot]
        rfl
      have hhead : middle.freeHead = arena.freeHead := by simp [hmiddle, unlinked]
      have htail : middle.freeTail = arena.freeTail := by simp [hmiddle, unlinked]
      have hhigh : middle.highWater = arena.highWater := by simp [hmiddle, unlinked]
      have htaili : arena.freeTail.index ≠ some i := by
        intro hti
        have hmem := List.mem_of_getLast? (hl.tail_eq.symm.trans hti)
        exact hheld ((hl.mem_iff i).mp hmem).2
      have hnext : ∀ j, j < n → (middle.putFreeSlot i).nextFreeOf j = _ :=
        fun j hj => putFreeSlot_nextFreeOf middle hiu hin (htail ▸ htaili) hj
      have hilt : i < arena.highWater := by
        by_contra hge
        exact hheld (hl.above i (le_of_not_gt hge))
      refine ⟨l ++ [i], ?_⟩
      rw [hputHead, hputTail, hputHigh, hhead, htail, hhigh]
      refine hl.put hilt hheld (by simpa using hnext i hin) (fun j hj => ?_) hnone
      obtain ⟨hjlt, hjfree⟩ := (hl.mem_iff j).mp hj
      have hji : j ≠ i := fun h => hheld (h ▸ hjfree)
      rw [hnext j (lt_of_lt_of_le hjlt hl.high_le), if_neg hji, htail, hfree]
    · rw [hlive, hcard, h.live_eq]
    · intro j hj
      rw [hgeneration]
      exact h.generation_ne j fun hnone' => hj ((hnone j).mpr (Or.inl hnone'))

end HandleArena

end Audhsos
