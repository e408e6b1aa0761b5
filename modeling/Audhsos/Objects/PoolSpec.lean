import Audhsos.Objects.Pool

/-!
What the pool operations do to the objects of a pool. `Pool.allocate_cases`, `Pool.retain_cases`
and `Pool.release_cases` state it through `find`, for every id at once.
-/

namespace Audhsos

open Lib Option
open Or (inl inr)

namespace PoolSlots

variable {type : ObjectType} {T : Type} {n : Nat} {pool pool' : PoolSlots type T n}
  {id id' : ObjectId type} {i j : Nat}

variable {l : List Nat}

section

variable (pool : PoolSlots type T n) (i : Nat) (f : PoolSlot T → PoolSlot T)

theorem modifySlot_slots (j : Nat) :
    (pool.modifySlot i f).slots j =
      if j = i ∧ i < n then f (pool.slots i) else pool.slots j := by
  unfold modifySlot
  by_cases hi : i < n
  · by_cases hj : j = i <;> simp [hi, hj]
  · simp [hi]

theorem modifySlot_rest :
    (pool.modifySlot i f).freeHead = pool.freeHead ∧
    (pool.modifySlot i f).freeTail = pool.freeTail ∧
    (pool.modifySlot i f).highWater = pool.highWater ∧
    (pool.modifySlot i f).live = pool.live := by
  unfold modifySlot
  split <;> exact ⟨rfl, rfl, rfl, rfl⟩

end

theorem find_eq (pool : PoolSlots type T n) (id : ObjectId type) :
    pool.find id = if id.index < n ∧ (pool.slots id.index).generation = id.generation then
      (pool.slots id.index).occupancy else none := by
  unfold find slot
  by_cases hn : id.index < n
  · by_cases hg : (pool.slots id.index).generation = id.generation <;> simp [hn, hg]
  · simp [hn]

theorem find_eq_some {occupant : Occupant T} :
    pool.find id = some occupant ↔ id.index < n ∧
      (pool.slots id.index).generation = id.generation ∧
      (pool.slots id.index).occupancy = some occupant := by
  rw [find_eq]
  split <;> simp_all

/-- Writing to the slot an id names shows under that id and under no other. -/
theorem find_modifySlot (hn : id.index < n) (f : PoolSlot T → PoolSlot T)
    (hgen : (f (pool.slots id.index)).generation = id.generation)
    (hother : (pool.slots id.index).generation = id.generation ∨
      (pool.slots id.index).occupancy = none) (id' : ObjectId type) :
    (pool.modifySlot id.index f).find id' =
      if id' = id then (f (pool.slots id.index)).occupancy else pool.find id' := by
  by_cases hi : id'.index = id.index
  · by_cases hg : id'.generation = id.generation
    · have hid : id' = id := ObjectId.ext hi hg
      subst hid
      simp [find_eq, modifySlot_slots, hn, hgen]
    · have hid : id' ≠ id := fun h => hg (congrArg ObjectId.generation h)
      rcases hother with hother | hother
      · simp [find_eq, modifySlot_slots, hi, hn, hgen, hid, hother, Ne.symm hg]
      · simp [find_eq, modifySlot_slots, hi, hn, hgen, hid, hother, Ne.symm hg]
  · have hid : id' ≠ id := fun h => hi (congrArg ObjectId.index h)
    simp [find_eq, modifySlot_slots, hi, hid]

variable (pool)

@[simp] theorem find_update (id : ObjectId type)
    (f : Occupant T → Occupant T) (id' : ObjectId type) :
    (pool.update id f).find id' =
      if id' = id then (pool.find id).map f else pool.find id' := by
  unfold update
  cases hfind : pool.find id with
  | none =>
    by_cases hid : id' = id
    · simp [hid, hfind]
    · simp [hid]
  | some occupant =>
    obtain ⟨hn, hg, -⟩ := find_eq_some.mp hfind
    exact find_modifySlot hn _ hg (inl hg) id'

/-! ## Well-formed pools -/

def occupied : Finset Nat :=
  (Finset.range n).filter fun i => (pool.slots i).occupancy.isSome

/-- The free list, the high-water mark and the live count agree with the slots. -/
structure Valid (pool : PoolSlots type T n) : Prop where
  size_lt : n < u32Size
  free : ∃ l, FreeList (fun i => (pool.slots i).nextFree) pool.freeHead pool.freeTail
    pool.highWater n (fun i => (pool.slots i).occupancy = none) l
  live_eq : pool.live = pool.occupied.card

/-- `l` are the released slots, in the order in which they are handed out again. -/
def FreeSlots (l : List Nat) : Prop :=
  FreeList (fun i => (pool.slots i).nextFree) pool.freeHead pool.freeTail pool.highWater n
    (fun i => (pool.slots i).occupancy = none) l

variable {pool}

theorem valid_new (hn : n < u32Size) : (new : PoolSlots type T n).Valid where
  size_lt := hn
  free := ⟨[], FreeList.new n fun _ => rfl⟩
  live_eq := by
    have : (new : PoolSlots type T n).occupied = ∅ :=
      Finset.filter_eq_empty_iff.mpr fun i _ h => absurd h (by simp [new])
    rw [this]
    rfl

theorem occupied_congr
    (hocc : ∀ i, (pool'.slots i).occupancy = none ↔ (pool.slots i).occupancy = none) :
    pool'.occupied = pool.occupied := by
  ext i
  have := hocc i
  simp only [occupied, Finset.mem_filter, isSome_iff_ne_none, ne_eq, this]

theorem update_slots (pool : PoolSlots type T n) (id : ObjectId type)
    (f : Occupant T → Occupant T) :
    let after := pool.update id f
    (∀ j, (after.slots j).occupancy = none ↔ (pool.slots j).occupancy = none) ∧
    (∀ j, (after.slots j).nextFree = (pool.slots j).nextFree ∧
      (after.slots j).generation = (pool.slots j).generation) ∧
    after.freeHead = pool.freeHead ∧ after.freeTail = pool.freeTail ∧
    after.highWater = pool.highWater ∧ after.live = pool.live := by
  unfold PoolSlots.update
  cases hfind : pool.find id with
  | none => exact ⟨fun _ => Iff.rfl, fun _ => ⟨rfl, rfl⟩, rfl, rfl, rfl, rfl⟩
  | some occupant =>
    obtain ⟨hn, -, ho⟩ := find_eq_some.mp hfind
    have hslots := modifySlot_slots pool id.index ({ · with occupancy := some (f occupant) })
    refine ⟨fun j => ?_, fun j => ?_, modifySlot_rest pool id.index _⟩
    · simp only [hslots]
      by_cases hj : j = id.index <;> simp [hj, hn, ho]
    · simp only [hslots]
      by_cases hj : j = id.index <;> simp [hj, hn]

theorem FreeSlots.update (h : pool.FreeSlots l) (id : ObjectId type)
    (f : Occupant T → Occupant T) : (pool.update id f).FreeSlots l := by
  obtain ⟨hnone, hnext, hhead, htail, hhigh, -⟩ := update_slots pool id f
  unfold FreeSlots
  rw [hhead, htail, hhigh]
  exact FreeList.congr h (fun j _ => (hnext j).1) hnone

theorem Valid.update (h : pool.Valid) (id : ObjectId type) (f : Occupant T → Occupant T) :
    (pool.update id f).Valid := by
  obtain ⟨hnone, -, -, -, -, hlive⟩ := update_slots pool id f
  obtain ⟨l, hl⟩ := h.free
  refine ⟨h.size_lt, ⟨l, FreeSlots.update hl id f⟩, ?_⟩
  rw [hlive, occupied_congr hnone]
  exact h.live_eq

/-! ## Allocation -/

/-- A taken slot is the first of the released ones, or the one at the mark when there is none, and
filling it leaves a free list of the others. -/
theorem FreeSlots.takeFreeSlot (hfree : pool.FreeSlots l) (hsize : n < u32Size)
    {index : Nat} (htake : PoolSlots.takeFreeSlot pool = (.ok index, pool')) :
    index < n ∧ (pool.slots index).occupancy = none ∧ pool'.slots = pool.slots ∧
    pool'.live = pool.live ∧ index = l.head?.getD pool.highWater ∧ index < pool'.highWater ∧
    pool.highWater ≤ pool'.highWater ∧
    ∀ (next' : Nat → Option Nat) (free' : Nat → Prop),
      (∀ j, j ≠ index → next' j = (pool.slots j).nextFree) →
      (∀ j, free' j ↔ (pool.slots j).occupancy = none ∧ j ≠ index) →
      FreeList next' pool'.freeHead pool'.freeTail pool'.highWater n free' l.tail := by
  have hhigh := hfree.high_le
  unfold PoolSlots.takeFreeSlot at htake
  cases hhead : pool.freeHead with
  | some x =>
    obtain ⟨hx, hxfree⟩ := hfree.head_lt hhead
    have hxn : x < n := lt_of_lt_of_le hx hhigh
    have hl : l.head? = some x := hfree.head_eq.symm.trans hhead
    simp only [hhead, slot, hxn, if_true, bind_some, Prod.mk.injEq, Except.ok.injEq] at htake
    obtain ⟨rfl, rfl⟩ := htake
    refine ⟨hxn, hxfree, rfl, rfl, by rw [hl]; rfl, hx, le_rfl, fun next' free' hnext hfree' => ?_⟩
    exact hfree.take_head hhead (fun j _ hj => hnext j hj) hfree'
  | none =>
    have hl : l = [] := List.head?_eq_none_iff.mp (hfree.head_eq.symm.trans hhead)
    subst hl
    simp only [hhead] at htake
    split at htake
    · rename_i hlt
      cases htake
      have hsat : satAdd32 pool.highWater 1 = pool.highWater + 1 :=
        satAdd32_eq (lt_of_le_of_lt hlt hsize)
      refine ⟨hlt, hfree.above _ (le_rfl), rfl, rfl, rfl, ?_, ?_, fun next' free' _ hfree' => ?_⟩
      · exact hsat ▸ Nat.lt_succ_self _
      · exact hsat ▸ Nat.le_succ _
      · unfold FreeSlots at hfree
        simp only [hhead, hsat] at hfree ⊢
        exact hfree.take_fresh hlt hfree'
    · simp at htake

/-- An allocation fails without a change when nothing is free, or fills the first free slot under
the slot's next generation. -/
theorem Valid.allocate_slot (h : pool.Valid) (hl : pool.FreeSlots l) (value : T) :
    (allocate value pool = (.error .exhausted, pool) ∧ l = [] ∧ pool.highWater = n) ∨
    ∃ index pool', allocate value pool =
        (.ok ⟨index, nextGeneration (pool.slots index).generation⟩, pool') ∧
      index = l.head?.getD pool.highWater ∧ index < n ∧ index < pool'.highWater ∧
      pool.highWater ≤ pool'.highWater ∧ (pool.slots index).occupancy = none ∧
      pool'.Valid ∧ pool'.FreeSlots l.tail ∧
      (∀ j, (pool'.slots j).generation =
        if j = index then nextGeneration (pool.slots index).generation
        else (pool.slots j).generation) ∧
      ∀ id', pool'.find id' =
        if id' = ⟨index, nextGeneration (pool.slots index).generation⟩ then some ⟨1, value⟩
        else pool.find id' := by
  unfold allocate
  rcases htake : PoolSlots.takeFreeSlot pool with ⟨e | index, taken⟩
  · unfold PoolSlots.takeFreeSlot at htake
    split at htake
    · simp at htake
    rename_i hhead
    split at htake
    · simp at htake
    rename_i hfull
    obtain ⟨rfl, rfl⟩ := htake
    have hhigh := hl.high_le
    exact inl ⟨rfl, List.head?_eq_none_iff.mp (hl.head_eq.symm.trans hhead), by omega⟩
  · obtain ⟨hi, hfree, hslots, hlive, hindex, hmark, hgrow, hlist⟩ :=
      hl.takeFreeSlot h.size_lt htake
    have hslot : taken.slot index = some (pool.slots index) := by simp [slot, hi, hslots]
    set generation := nextGeneration (pool.slots index).generation with hgeneration
    set final := taken.modifySlot index fun _ => ⟨generation, none, some ⟨1, value⟩⟩ with hfinal
    have hmodified := modifySlot_slots taken index fun _ => ⟨generation, none, some ⟨1, value⟩⟩
    have hfind : ∀ id' : ObjectId type, final.find id' =
        if id' = ⟨index, generation⟩ then some ⟨1, value⟩ else taken.find id' :=
      @find_modifySlot type T n taken ⟨index, generation⟩ hi _ rfl
        (inr (by rw [hslots]; exact hfree))
    have htaken : ∀ id', taken.find id' = pool.find id' := fun id' => by simp [find_eq, hslots]
    obtain ⟨hhead, htail, hhigh, hlive'⟩ := modifySlot_rest taken index
      fun _ => ⟨generation, none, some ⟨1, value⟩⟩
    have hocc : ∀ j, (final.slots j).occupancy = none ↔
        (pool.slots j).occupancy = none ∧ j ≠ index := by
      intro j
      rw [hfinal, hmodified, hslots]
      by_cases hj : j = index <;> simp [hj, hi]
    have hfinalFree : final.FreeSlots l.tail := by
      have hl := hlist (fun j => (final.slots j).nextFree)
        (fun j => (final.slots j).occupancy = none) (fun j hj => by
          rw [hfinal, hmodified, hslots]
          simp [hj]) hocc
      unfold FreeSlots
      rw [hfinal, hhead, htail, hhigh]
      exact hl
    refine inr ⟨index, { final with live := satAdd32 final.live 1 }, ?_, hindex, hi, ?_, ?_,
      hfree, ⟨h.size_lt, ⟨l.tail, hfinalFree⟩, ?_⟩, hfinalFree, fun j => ?_, fun id' => ?_⟩
    · simp only [hslot]
      rfl
    · exact hhigh ▸ hmark
    · exact hhigh ▸ hgrow
    · have hle : final.occupied.card ≤ n := card_range_filter_le
      have hsize := h.size_lt
      have hcard : final.occupied.card = pool.occupied.card + 1 :=
        card_range_filter_insert hi (by simp [hfree]) fun j => by
          simp only [isSome_iff_ne_none, ne_eq, hocc]
          tauto
      have hsum : final.live + 1 = final.occupied.card := by
        rw [hcard, hfinal, hlive', hlive, h.live_eq]
      change satAdd32 final.live 1 = final.occupied.card
      rw [satAdd32_eq (by omega), hsum]
    · change (final.slots j).generation = _
      rw [hfinal, hmodified, hslots]
      by_cases hj : j = index <;> simp [hj, hi, hgeneration]
    · have hfinal' : ({ final with live := satAdd32 final.live 1 } :
          PoolSlots type T n).find id' = final.find id' := rfl
      rw [hfinal', hfind id', htaken]

/-- An allocation fails without a change, or gives a name that named nothing before. -/
theorem Valid.allocate_cases (h : pool.Valid) (value : T) :
    allocate value pool = (.error .exhausted, pool) ∨
    ∃ id pool', allocate value pool = (.ok id, pool') ∧ pool'.Valid ∧ pool.find id = none ∧
      ∀ id', pool'.find id' = if id' = id then some ⟨1, value⟩ else pool.find id' := by
  obtain ⟨l, hl⟩ := h.free
  rcases h.allocate_slot hl value with
    ⟨heq, -, -⟩ | ⟨index, pool', heq, -, -, -, -, hfree, hvalid, -, -, hfind⟩
  · exact inl heq
  · exact inr ⟨_, pool', heq, hvalid, by simp [find_eq, hfree], hfind⟩

/-! ## References -/

variable (pool)

theorem retain_cases (id : ObjectId type) :
    (∃ e, retain id pool = (.error e, pool) ∧
      ∀ occupant, pool.find id = some occupant → u32Size ≤ occupant.refs + 1) ∨
    ∃ occupant, pool.find id = some occupant ∧ occupant.refs + 1 < u32Size ∧
      retain id pool = (.ok (), pool.update id fun o => { o with refs := o.refs + 1 }) := by
  unfold retain
  cases hfind : pool.find id with
  | none => exact inl ⟨_, rfl, nofun⟩
  | some occupant =>
    by_cases hlt : occupant.refs + 1 < u32Size
    · refine inr ⟨occupant, rfl, hlt, ?_⟩
      simp only [hlt, if_true]
      unfold update
      simp only [hfind]
    · refine inl ⟨.refOverflow, by simp only [hlt, if_false], ?_⟩
      rintro o ⟨⟩
      exact le_of_not_gt hlt

/-- The pool without the occupant of `index`. -/
def cleared (index : Nat) : PoolSlots type T n :=
  let pool := pool.modifySlot index fun slot => { slot with occupancy := none, nextFree := none }
  { pool with live := pool.live - 1 }.putFreeSlot index

variable {pool}

theorem cleared_slots (hn : i < n) (htail : pool.freeTail ≠ some i) (j : Nat) :
    ((pool.cleared i).slots j).generation = (pool.slots j).generation ∧
    ((pool.cleared i).slots j).occupancy = (if j = i then none else (pool.slots j).occupancy) ∧
    (j < n → ((pool.cleared i).slots j).nextFree = if j = i then none
      else if pool.freeTail = some j then some i else (pool.slots j).nextFree) := by
  obtain ⟨-, hmidtail, -, -⟩ := modifySlot_rest pool i
    fun slot => { slot with occupancy := none, nextFree := none }
  unfold cleared putFreeSlot
  simp only [hmidtail]
  cases hfree : pool.freeTail with
  | none => by_cases hj : j = i <;> simp [modifySlot_slots, hj, hn]
  | some t =>
    have hti : t ≠ i := fun h => htail (by rw [hfree, h])
    by_cases hj : j = i
    · subst hj
      simp [modifySlot_slots, hn, Ne.symm hti]
    by_cases hjt : j = t
    · subst hjt
      by_cases hjn : j < n <;> simp [modifySlot_slots, hj, hjn]
    · have htj : ¬ t = j := fun h => hjt h.symm
      simp [modifySlot_slots, hj, hjt, htj]

theorem Valid.cleared_slot (h : pool.Valid) (hl : pool.FreeSlots l) (hn : i < n)
    (hheld : (pool.slots i).occupancy ≠ none) :
    (pool.cleared i).Valid ∧ (pool.cleared i).FreeSlots (l ++ [i]) ∧
      (pool.cleared i).highWater = pool.highWater ∧
      (∀ j, ((pool.cleared i).slots j).generation = (pool.slots j).generation) ∧
      ∀ id : ObjectId type,
        (pool.cleared i).find id = if id.index = i then none else pool.find id := by
  have htail : pool.freeTail ≠ some i := by
    intro hti
    have hmem := List.mem_of_getLast? (hl.tail_eq.symm.trans hti)
    exact hheld ((hl.mem_iff i).mp hmem).2
  have hslots := cleared_slots hn htail
  have hocc : ∀ j, ((pool.cleared i).slots j).occupancy = none ↔
      (pool.slots j).occupancy = none ∨ j = i := by
    intro j
    rw [(hslots j).2.1]
    by_cases hj : j = i <;> simp [hj]
  have hilt : i < pool.highWater := by
    by_contra hge
    exact hheld (hl.above i (le_of_not_gt hge))
  have hrest : (pool.cleared i).freeHead =
        (if pool.freeTail = none then some i else pool.freeHead) ∧
      (pool.cleared i).freeTail = some i ∧ (pool.cleared i).highWater = pool.highWater ∧
      (pool.cleared i).live = pool.live - 1 := by
    obtain ⟨hmhead, hmtail, hmhigh, hmlive⟩ := modifySlot_rest pool i
      fun slot => { slot with occupancy := none, nextFree := none }
    unfold PoolSlots.cleared putFreeSlot
    simp only [hmtail]
    cases hfree : pool.freeTail with
    | none => simp [hmhigh, hmlive]
    | some t => simp [(modifySlot_rest _ t _).1, (modifySlot_rest _ t _).2.2.1,
        (modifySlot_rest _ t _).2.2.2, hmhead, hmhigh, hmlive]
  have hlist : (pool.cleared i).FreeSlots (l ++ [i]) := by
    unfold FreeSlots
    rw [hrest.1, hrest.2.1, hrest.2.2.1]
    refine FreeList.put hl hilt hheld ?_ (fun j hj => ?_) hocc
    · simpa using (hslots i).2.2 hn
    · obtain ⟨hjlt, hjfree⟩ := (hl.mem_iff j).mp hj
      have hji : j ≠ i := fun heq => hheld (heq ▸ hjfree)
      simpa [hji] using (hslots j).2.2 (lt_of_lt_of_le hjlt hl.high_le)
  refine ⟨⟨h.size_lt, ⟨l ++ [i], hlist⟩, ?_⟩, hlist, hrest.2.2.1, fun j => (hslots j).1,
    fun id => ?_⟩
  · rw [hrest.2.2.2, h.live_eq]
    refine (card_range_filter_erase hn (isSome_iff_ne_none.mpr hheld) fun j => ?_).symm
    simp only [isSome_iff_ne_none, ne_eq, hocc, not_or]
  · rw [find_eq, find_eq, (hslots id.index).1, (hslots id.index).2.1]
    by_cases hid : id.index = i <;> simp [hid]

theorem Valid.cleared (h : pool.Valid) (hn : i < n) (hheld : (pool.slots i).occupancy ≠ none) :
    (pool.cleared i).Valid ∧ ∀ id : ObjectId type,
      (pool.cleared i).find id = if id.index = i then none else pool.find id := by
  obtain ⟨l, hl⟩ := h.free
  obtain ⟨hvalid, -, -, -, hfind⟩ := h.cleared_slot hl hn hheld
  exact ⟨hvalid, hfind⟩

section

variable (pool : PoolSlots type T n) (id : ObjectId type)

/-- A release of a live object takes one reference away, and the object with the last one. -/
theorem release_cases :
    (pool.find id = none ∧ release id pool = (.error .staleId, pool)) ∨
    (∃ occupant, pool.find id = some occupant ∧ 1 < occupant.refs ∧
      release id pool = (.ok false, pool.update id fun o => { o with refs := o.refs - 1 })) ∨
    (∃ occupant, pool.find id = some occupant ∧ occupant.refs ≤ 1 ∧
      release id pool = (.ok true, pool.cleared id.index)) := by
  unfold release
  cases hfind : pool.find id with
  | none => exact inl ⟨rfl, rfl⟩
  | some occupant =>
    by_cases hlt : 1 < occupant.refs
    · refine inr (inl ⟨occupant, rfl, hlt, ?_⟩)
      simp only [hlt, if_true]
      unfold update
      simp only [hfind]
    · refine inr (inr ⟨occupant, rfl, le_of_not_gt hlt, ?_⟩)
      simp only [hlt, if_false]
      rfl

theorem forceRelease_cases :
    (pool.find id = none ∧ forceRelease id pool = (false, pool)) ∨
    (∃ occupant, pool.find id = some occupant ∧
      forceRelease id pool = (true, (pool.update id ({ · with refs := 1 })).cleared id.index)) := by
  unfold forceRelease
  cases hfind : pool.find id with
  | none => exact inl ⟨rfl, rfl⟩
  | some occupant =>
    refine inr ⟨occupant, rfl, ?_⟩
    have hone : (pool.update id ({ · with refs := 1 })).find id = some { occupant with refs := 1 } := by
      simp [hfind]
    rcases release_cases (pool.update id ({ · with refs := 1 })) id with
      ⟨hnone, -⟩ | ⟨o, ho, hlt, -⟩ | ⟨o, ho, -, heq⟩
    · rw [hone] at hnone
      exact absurd hnone (by simp)
    · rw [hone, some.injEq] at ho
      rw [← ho] at hlt
      exact absurd hlt (by simp)
    · simp only [heq]
      rfl

end

end PoolSlots

/-! ## Pools that carry their well-formedness -/

/-- A pool whose free list, mark and live count agree with its slots. -/
structure Pool (type : ObjectType) (T : Type) (n : Nat) extends PoolSlots type T n where
  valid : toPoolSlots.Valid

namespace Pool

variable {type : ObjectType} {T : Type} {n : Nat} {pool pool' : Pool type T n}
  {id id' : ObjectId type} {o : Occupant T}

def new (hn : n < u32Size) : Pool type T n := ⟨.new, PoolSlots.valid_new hn⟩

@[simp] theorem find_new (hn : n < u32Size) (id : ObjectId type) :
    (new hn : Pool type T n).find id = none := by
  rw [PoolSlots.find_eq]
  split <;> rfl

variable (pool)

def update (id : ObjectId type) (f : Occupant T → Occupant T) : Pool type T n :=
  ⟨pool.toPoolSlots.update id f, pool.valid.update id f⟩

def modify (id : ObjectId type) (f : T → T) : Pool type T n :=
  pool.update id fun o => { o with value := f o.value }

theorem valid_allocate (value : T) : (PoolSlots.allocate value pool.toPoolSlots).2.Valid := by
  rcases pool.valid.allocate_cases value with heq | ⟨id, pool', heq, hvalid, -, -⟩
  · rw [heq]
    exact pool.valid
  · rw [heq]
    exact hvalid

theorem valid_retain (id : ObjectId type) : (PoolSlots.retain id pool.toPoolSlots).2.Valid := by
  rcases PoolSlots.retain_cases pool.toPoolSlots id with ⟨e, heq, -⟩ | ⟨o, -, -, heq⟩
  · rw [heq]
    exact pool.valid
  · rw [heq]
    exact pool.valid.update id _

variable {pool}

theorem held_of_find {pool : PoolSlots type T n} (h : pool.find id = some o) :
    id.index < n ∧ (pool.slots id.index).occupancy ≠ none := by
  obtain ⟨hn, -, ho⟩ := PoolSlots.find_eq_some.mp h
  exact ⟨hn, by simp [ho]⟩

section

variable (pool : Pool type T n) (id : ObjectId type)

theorem valid_release : (PoolSlots.release id pool.toPoolSlots).2.Valid := by
  rcases PoolSlots.release_cases pool.toPoolSlots id with ⟨-, heq⟩ | ⟨o, -, -, heq⟩ | ⟨o, ho, -, heq⟩
  · rw [heq]
    exact pool.valid
  · rw [heq]
    exact pool.valid.update id _
  · rw [heq]
    exact (pool.valid.cleared (held_of_find ho).1 (held_of_find ho).2).1

theorem valid_forceRelease : (PoolSlots.forceRelease id pool.toPoolSlots).2.Valid := by
  rcases PoolSlots.forceRelease_cases pool.toPoolSlots id with ⟨-, heq⟩ | ⟨o, ho, heq⟩
  · rw [heq]
    exact pool.valid
  · rw [heq]
    have hfind : (pool.toPoolSlots.update id ({ · with refs := 1 })).find id =
        some { o with refs := 1 } := by simp [ho]
    exact ((pool.valid.update id _).cleared (held_of_find hfind).1 (held_of_find hfind).2).1

end

def allocate (value : T) : Prog PoolError (Pool type T n) (ObjectId type) := fun pool =>
  ((PoolSlots.allocate value pool.toPoolSlots).1, ⟨_, pool.valid_allocate value⟩)

variable (id)

def retain : Prog PoolError (Pool type T n) Unit := fun pool =>
  ((PoolSlots.retain id pool.toPoolSlots).1, ⟨_, pool.valid_retain id⟩)

def release : Prog PoolError (Pool type T n) Bool := fun pool =>
  ((PoolSlots.release id pool.toPoolSlots).1, ⟨_, pool.valid_release id⟩)

def forceRelease (pool : Pool type T n) : Bool × Pool type T n :=
  ((PoolSlots.forceRelease id pool.toPoolSlots).1, ⟨_, pool.valid_forceRelease id⟩)

theorem ext_slots (h : pool.toPoolSlots = pool'.toPoolSlots) : pool = pool' := by
  cases pool
  cases pool'
  cases h
  rfl

variable (pool)

@[simp] theorem find_update (f : Occupant T → Occupant T) (id' : ObjectId type) :
    (pool.update id f).find id' = if id' = id then (pool.find id).map f else pool.find id' :=
  PoolSlots.find_update pool.toPoolSlots id f id'

@[simp] theorem find_modify (f : T → T) (id' : ObjectId type) :
    (pool.modify id f).find id' =
      if id' = id then (pool.find id).map fun o => { o with value := f o.value }
      else pool.find id' :=
  find_update pool id _ id'

variable {id}

theorem allocate_cases (value : T) :
    allocate value pool = (.error .exhausted, pool) ∨
    ∃ id pool', allocate value pool = (.ok id, pool') ∧ pool.find id = none ∧
      ∀ id', pool'.find id' = if id' = id then some ⟨1, value⟩ else pool.find id' := by
  unfold allocate
  rcases pool.valid.allocate_cases value with heq | ⟨id, slots, heq, -, hfresh, hfind⟩
  · refine inl (Prod.ext ?_ (ext_slots ?_)) <;> simp [heq]
  · exact inr ⟨id, ⟨slots, by simpa [heq] using pool.valid_allocate value⟩,
      Prod.ext (by simp [heq]) (ext_slots (by simp [heq])), hfresh, hfind⟩

theorem retain_cases (id : ObjectId type) :
    (∃ e, retain id pool = (.error e, pool) ∧
      ∀ occupant, pool.find id = some occupant → u32Size ≤ occupant.refs + 1) ∨
    ∃ occupant, pool.find id = some occupant ∧ occupant.refs + 1 < u32Size ∧
      retain id pool = (.ok (), pool.update id fun o => { o with refs := o.refs + 1 }) := by
  unfold retain
  rcases PoolSlots.retain_cases pool.toPoolSlots id with ⟨e, heq, hfull⟩ | ⟨o, ho, hlt, heq⟩
  · exact inl ⟨e, Prod.ext (by simp [heq]) (ext_slots (by simp [heq])), hfull⟩
  · exact inr ⟨o, ho, hlt, Prod.ext (by simp [heq]) (ext_slots (by simp [heq, update]))⟩

variable {pool}

theorem find_cleared (hfind : pool.find id = some o) (id' : ObjectId type) :
    (pool.toPoolSlots.cleared id.index).find id' = if id' = id then none else pool.find id' := by
  rw [(pool.valid.cleared (held_of_find hfind).1 (held_of_find hfind).2).2]
  by_cases hid : id' = id
  · simp [hid]
  by_cases hi : id'.index = id.index
  · obtain ⟨-, hg, -⟩ := PoolSlots.find_eq_some.mp hfind
    have hgen : (pool.slots id.index).generation ≠ id'.generation :=
      fun h => hid (ObjectId.ext hi (h.symm.trans hg))
    simp [hid, hi, PoolSlots.find_eq, hgen]
  · simp [hid, hi]

section

variable (pool : Pool type T n) (id : ObjectId type)

theorem release_cases :
    (pool.find id = none ∧ release id pool = (.error .staleId, pool)) ∨
    (∃ occupant, pool.find id = some occupant ∧ 1 < occupant.refs ∧
      release id pool = (.ok false, pool.update id fun o => { o with refs := o.refs - 1 })) ∨
    (∃ occupant pool', pool.find id = some occupant ∧ occupant.refs ≤ 1 ∧
      release id pool = (.ok true, pool') ∧
      ∀ id', pool'.find id' = if id' = id then none else pool.find id') := by
  unfold release
  rcases PoolSlots.release_cases pool.toPoolSlots id with
    ⟨hnone, heq⟩ | ⟨o, ho, hlt, heq⟩ | ⟨o, ho, hle, heq⟩
  · exact inl ⟨hnone, Prod.ext (by simp [heq]) (ext_slots (by simp [heq]))⟩
  · exact inr (inl ⟨o, ho, hlt, Prod.ext (by simp [heq]) (ext_slots (by simp [heq, update]))⟩)
  · exact inr (inr ⟨o, ⟨pool.toPoolSlots.cleared id.index,
      by simpa [heq] using pool.valid_release id⟩, ho, hle,
      Prod.ext (by simp [heq]) (ext_slots (by simp [heq])), find_cleared ho⟩)

theorem forceRelease_cases :
    (pool.find id = none ∧ forceRelease id pool = (false, pool)) ∨
    (∃ occupant pool', pool.find id = some occupant ∧ forceRelease id pool = (true, pool') ∧
      ∀ id', pool'.find id' = if id' = id then none else pool.find id') := by
  unfold forceRelease
  rcases PoolSlots.forceRelease_cases pool.toPoolSlots id with ⟨hnone, heq⟩ | ⟨o, ho, heq⟩
  · exact inl ⟨hnone, Prod.ext (by simp [heq]) (ext_slots (by simp [heq]))⟩
  have hone : (pool.update id ({ · with refs := 1 })).find id = some { o with refs := 1 } := by
    simp [ho]
  refine inr ⟨o, ⟨(pool.update id ({ · with refs := 1 })).toPoolSlots.cleared id.index,
    by simpa [heq, update] using pool.valid_forceRelease id⟩, ho,
    Prod.ext (by simp [heq]) (ext_slots (by simp [heq, update])), fun id' => ?_⟩
  have hfind := find_cleared hone id'
  by_cases hid : id' = id
  · simpa [hid] using hfind
  · simpa [hid] using hfind

end

end Pool

end Audhsos
