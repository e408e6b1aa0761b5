import Audhsos.Objects.PoolSpec

/-!
Runs of the calls of one pool. `PoolHistory` is what a caller can write down from the answers: the
ids handed out, the references each still has, its value and the slots released since. After every
run the pool is what its history says.
-/

namespace Audhsos

open Lib Function List Option Nat

variable {type : ObjectType} {T : Type} {n : Nat}

/-! ## Calls and histories -/

inductive PoolCall (type : ObjectType) (T : Type) where
  | allocate (value : T)
  | retain (id : ObjectId type)
  | release (id : ObjectId type)
  | forceRelease (id : ObjectId type)
  | get (id : ObjectId type)
  | iter

inductive PoolAnswer (type : ObjectType) (T : Type) where
  | handed (id : ObjectId type)
  | retained
  | released (last : Bool)
  | forced (held : Bool)
  | value (value : T)
  | objects (objects : List (ObjectId type × T))
  | refused (error : PoolError)

def PoolAnswer.failed : PoolAnswer type T → Prop
  | .refused _ | .forced false => True
  | _ => False

namespace PoolCall

def run (pool : PoolSlots type T n) : PoolCall type T → PoolAnswer type T × PoolSlots type T n
  | .allocate value =>
    match PoolSlots.allocate value pool with
    | (.ok id, pool) => (.handed id, pool)
    | (.error e, pool) => (.refused e, pool)
  | .retain id =>
    match PoolSlots.retain id pool with
    | (.ok (), pool) => (.retained, pool)
    | (.error e, pool) => (.refused e, pool)
  | .release id =>
    match PoolSlots.release id pool with
    | (.ok last, pool) => (.released last, pool)
    | (.error e, pool) => (.refused e, pool)
  | .forceRelease id => (.forced (PoolSlots.forceRelease id pool).1,
      (PoolSlots.forceRelease id pool).2)
  | .get id =>
    match pool.get id with
    | .ok value => (.value value, pool)
    | .error e => (.refused e, pool)
  | .iter => (.objects pool.iter, pool)

end PoolCall

structure PoolHistory (type : ObjectType) (T : Type) where
  handed : List (ObjectId type)
  references : ObjectId type → Nat
  values : ObjectId type → Option T
  released : List Nat

namespace PoolHistory

def empty : PoolHistory type T := ⟨[], fun _ => 0, fun _ => none, []⟩

def record (h : PoolHistory type T) : PoolCall type T → PoolAnswer type T → PoolHistory type T
  | .allocate value, .handed id =>
    { handed := h.handed ++ [id]
      references := update h.references id 1
      values := update h.values id (some value)
      released := h.released.erase id.index }
  | .retain id, .retained => { h with references := update h.references id (h.references id + 1) }
  | .release id, .released last =>
    { h with
      references := update h.references id (h.references id - 1)
      released := if last then h.released ++ [id.index] else h.released }
  | .forceRelease id, .forced true =>
    { h with
      references := update h.references id 0
      released := h.released ++ [id.index] }
  | _, _ => h

def generations (h : PoolHistory type T) (index : Nat) : List Nat :=
  (h.handed.filter (·.index = index)).map (·.generation)

end PoolHistory

def PoolCall.step (s : PoolSlots type T n × PoolHistory type T) (call : PoolCall type T) :
    PoolSlots type T n × PoolHistory type T :=
  ((call.run s.1).2, s.2.record call (call.run s.1).1)

def PoolCall.runs (calls : List (PoolCall type T)) : PoolSlots type T n × PoolHistory type T :=
  calls.foldl PoolCall.step (.new, .empty)

/-! ## Generations -/

/-- The generation of a slot that is handed out for the time numbered `k`: zero is left out. -/
def generationAt (k : Nat) : Nat := k % (u32Size - 1) + 1

/-- The generation of a slot that was handed out `k` times. -/
def generationAfter : Nat → Nat
  | 0 => 0
  | k + 1 => generationAt k

theorem nextGeneration_of_lt {generation : Nat} (h : generation + 1 < u32Size) :
    nextGeneration generation = generation + 1 := by
  unfold nextGeneration
  rw [mod_eq_of_lt h]
  rfl

theorem nextGeneration_after (k : Nat) : nextGeneration (generationAfter k) = generationAt k := by
  cases k with
  | zero => rfl
  | succ k =>
    change nextGeneration (k % (u32Size - 1) + 1) = (k + 1) % (u32Size - 1) + 1
    have hlt : k % (u32Size - 1) < u32Size - 1 := mod_lt _ (by decide)
    have hstep : (k + 1) % (u32Size - 1) = (k % (u32Size - 1) + 1) % (u32Size - 1) := by
      rw [add_mod, mod_eq_of_lt (show 1 < u32Size - 1 by decide)]
    by_cases hlast : k % (u32Size - 1) + 1 = u32Size - 1
    · rw [hstep, hlast, mod_self]
      rfl
    · rw [hstep, mod_eq_of_lt (show k % (u32Size - 1) + 1 < u32Size - 1 by omega),
        nextGeneration_of_lt (by omega)]

theorem generationAt_inj {j k : Nat} (hj : j < u32Size - 1) (hk : k < u32Size - 1)
    (h : generationAt j = generationAt k) : j = k := by
  unfold generationAt at h
  rw [mod_eq_of_lt hj, mod_eq_of_lt hk] at h
  exact succ.inj h

/-! ## The pool and its history -/

/-- The pool is what its history says. -/
structure Tracks (pool : PoolSlots type T n) (h : PoolHistory type T) : Prop where
  valid : pool.Valid
  released : pool.FreeSlots h.released
  gone : ∀ id, h.references id = 0 → pool.find id = none
  held : ∀ id, 0 < h.references id →
    ∃ value, h.values id = some value ∧ pool.find id = some ⟨h.references id, value⟩
  known : ∀ id, 0 < h.references id → id ∈ h.handed
  below : ∀ id ∈ h.handed, id.index < pool.highWater
  generations : ∀ i, h.generations i = (List.range (h.generations i).length).map generationAt
  current : ∀ i, (pool.slots i).generation = generationAfter (h.generations i).length

namespace Tracks

variable {pool : PoolSlots type T n} {h : PoolHistory type T} {id : ObjectId type}

theorem start (hn : n < u32Size) : Tracks (.new : PoolSlots type T n) .empty where
  valid := PoolSlots.valid_new hn
  released := FreeList.new n fun _ => rfl
  gone := by
    intro id _
    rw [PoolSlots.find_eq]
    split <;> rfl
  held := fun _ hpos => absurd hpos (Nat.lt_irrefl 0)
  known := fun _ hpos => absurd hpos (Nat.lt_irrefl 0)
  below := fun _ hmem => absurd hmem not_mem_nil
  generations := fun _ => rfl
  current := fun _ => rfl

theorem find_iff (ht : Tracks pool h) (id : ObjectId type) :
    pool.find id ≠ none ↔ 0 < h.references id := by
  constructor
  · intro hfind
    by_contra hzero
    exact hfind (ht.gone id (Nat.eq_zero_of_not_pos hzero))
  · intro hpos
    obtain ⟨value, -, hfind⟩ := ht.held id hpos
    rw [hfind]
    exact some_ne_none _

variable {o : Occupant T}

theorem occupant (ht : Tracks pool h) (hfind : pool.find id = some o) :
    0 < h.references id ∧ o.refs = h.references id ∧ h.values id = some o.value := by
  have hpos := (ht.find_iff id).mp (by rw [hfind]; exact some_ne_none o)
  obtain ⟨value, hvalue, hheld⟩ := ht.held id hpos
  obtain rfl := mem_unique hfind hheld
  exact ⟨hpos, rfl, hvalue⟩

theorem generations_append (h : PoolHistory type T) (id : ObjectId type) (i : Nat)
    (h' : PoolHistory type T) (hh : h'.handed = h.handed ++ [id]) :
    h'.generations i =
      if id.index = i then h.generations i ++ [id.generation] else h.generations i := by
  unfold PoolHistory.generations
  rw [hh, filter_append]
  by_cases hi : id.index = i <;> simp [hi]

theorem update_congr {f g : Occupant T → Occupant T}
    (hfind : pool.find id = some o) (hfg : f o = g o) : pool.update id f = pool.update id g := by
  unfold PoolSlots.update
  rw [hfind]
  dsimp only
  rw [hfg]

/-! ## One call -/

section

variable (ht : Tracks pool h)
include ht

theorem allocate (value : T) :
    Tracks (PoolCall.step (pool, h) (.allocate value)).1
      (PoolCall.step (pool, h) (.allocate value)).2 := by
  unfold PoolCall.step PoolCall.run
  rcases ht.valid.allocate_slot ht.released value with ⟨heq, -, -⟩ |
    ⟨index, pool', heq, hindex, hn, hmark, hgrow, hfree, hvalid, hlist, hgens, hfind⟩
  · simp only [heq]
    exact ht
  simp only [heq]
  have herase : h.released.erase index = h.released.tail := by
    cases hl : h.released with
    | nil => rfl
    | cons x l =>
      have hx : index = x := by rw [hindex, hl]; rfl
      rw [hx, erase_cons_head, tail_cons]
  have hnew : nextGeneration (pool.slots index).generation =
      generationAt (h.generations index).length := by
    rw [ht.current, nextGeneration_after]
  generalize nextGeneration (pool.slots index).generation = generation at *
  have hgenerations := fun i => generations_append h ⟨index, generation⟩ i
    (h.record (.allocate value) (.handed ⟨index, generation⟩)) rfl
  refine ⟨hvalid, ?_, fun id hzero => ?_, fun id hpos => ?_, fun id hpos => ?_, fun id hmem => ?_,
    fun i => ?_, fun i => ?_⟩
  · change pool'.FreeSlots (h.released.erase index)
    rw [herase]
    exact hlist
  · change update h.references _ 1 id = 0 at hzero
    by_cases hid : id = ⟨index, generation⟩
    · rw [hid, update_self] at hzero
      cases hzero
    · rw [update_of_ne hid] at hzero
      rw [hfind, if_neg hid]
      exact ht.gone id hzero
  · change 0 < update h.references _ 1 id at hpos
    change ∃ v, update h.values _ (some value) id = some v ∧
      pool'.find id = some (Occupant.mk (update h.references _ 1 id) v)
    by_cases hid : id = ⟨index, generation⟩
    · subst hid
      exact ⟨value, update_self .., by rw [hfind, if_pos rfl, update_self]⟩
    · rw [update_of_ne hid] at hpos
      rw [update_of_ne hid, update_of_ne hid, hfind, if_neg hid]
      exact ht.held id hpos
  · change 0 < update h.references _ 1 id at hpos
    change id ∈ h.handed ++ [_]
    by_cases hid : id = ⟨index, generation⟩
    · exact mem_append_right _ (mem_singleton.mpr hid)
    · rw [update_of_ne hid] at hpos
      exact mem_append_left _ (ht.known id hpos)
  · rcases mem_append.mp (show id ∈ h.handed ++ [_] from hmem) with hold | hnew
    · exact Nat.lt_of_lt_of_le (ht.below id hold) hgrow
    · rw [mem_singleton.mp hnew]
      exact hmark
  · rw [hgenerations i]
    by_cases hi : index = i
    · subst hi
      rw [if_pos rfl, length_append, length_singleton, range_succ, map_append,
        ← ht.generations, hnew]
      rfl
    · rw [if_neg hi]
      exact ht.generations i
  · rw [hgenerations i, hgens]
    by_cases hi : index = i
    · subst hi
      rw [if_pos rfl, if_pos rfl, length_append, length_singleton, hnew]
      rfl
    · rw [if_neg hi, if_neg (Ne.symm hi)]
      exact ht.current i

/-- The references of one object change, and with the last one it is gone. -/
theorem recount (hfind : pool.find id = some o) {pool' : PoolSlots type T n} {count : Nat}
    {released : List Nat} (hvalid : pool'.Valid) (hreleased : pool'.FreeSlots released)
    (hat : pool'.find id = if count = 0 then none else some ⟨count, o.value⟩)
    (hother : ∀ id' ≠ id, pool'.find id' = pool.find id')
    (hhigh : pool'.highWater = pool.highWater)
    (hgens : ∀ i, (pool'.slots i).generation = (pool.slots i).generation) :
    Tracks pool' { h with references := update h.references id count, released } := by
  obtain ⟨hpos, -, hvalue⟩ := ht.occupant hfind
  refine ⟨hvalid, hreleased, fun id' hzero => ?_, fun id' hpos' => ?_, fun id' hpos' => ?_,
    fun id' hmem => ?_, ht.generations, fun i => ?_⟩
  · by_cases hid : id' = id
    · subst hid
      rw [hat, if_pos (by simpa using hzero)]
    · rw [hother id' hid]
      exact ht.gone id' (by simpa [hid] using hzero)
  · change ∃ v, h.values id' = some v ∧
      pool'.find id' = some (Occupant.mk (update h.references id count id') v)
    by_cases hid : id' = id
    · subst hid
      have hcount : 0 < count := by simpa using hpos'
      exact ⟨o.value, hvalue, by rw [hat, if_neg hcount.ne', update_self]⟩
    · rw [update_of_ne hid, hother id' hid]
      exact ht.held id' (by simpa [hid] using hpos')
  · by_cases hid : id' = id
    · exact hid ▸ ht.known id hpos
    · exact ht.known id' (by simpa [hid] using hpos')
  · rw [hhigh]
    exact ht.below id' hmem
  · rw [hgens]
    exact ht.current i

theorem count (hfind : pool.find id = some o) {count : Nat} (hcount : 0 < count) :
    Tracks (pool.update id fun o => { o with refs := count })
      { h with references := update h.references id count } := by
  obtain ⟨-, hslots, -, -, hhigh, -⟩ := PoolSlots.update_slots pool id
    fun o => { o with refs := count }
  refine ht.recount hfind (ht.valid.update id _) (ht.released.update id _) ?_ (fun id' hid => ?_)
    hhigh fun i => (hslots i).2
  · rw [PoolSlots.find_update, if_pos rfl, hfind, if_neg hcount.ne']
    rfl
  · rw [PoolSlots.find_update, if_neg hid]

theorem clear (hfind : pool.find id = some o) :
    Tracks (pool.cleared id.index)
      { h with
        references := update h.references id 0
        released := h.released ++ [id.index] } := by
  obtain ⟨hn, hgen, hocc⟩ := PoolSlots.find_eq_some.mp hfind
  have hheld : (pool.slots id.index).occupancy ≠ none := by
    rw [hocc]
    exact some_ne_none o
  obtain ⟨hvalid, hlist, hhigh, hgens, hcleared⟩ := ht.valid.cleared_slot ht.released hn hheld
  -- under another generation the slot held nothing
  have hsame : ∀ id', id' ≠ id → (pool.cleared id.index).find id' = pool.find id' := by
    intro id' hid
    rw [hcleared]
    by_cases hi : id'.index = id.index
    · have hne : (pool.slots id'.index).generation ≠ id'.generation := by
        intro heq
        rw [hi] at heq
        exact hid (ObjectId.ext hi (heq.symm.trans hgen))
      rw [if_pos hi, PoolSlots.find_eq, if_neg fun hboth => hne hboth.2]
    · exact if_neg hi
  refine ht.recount hfind hvalid hlist ?_ hsame hhigh hgens
  rw [hcleared, if_pos rfl]
  rfl

variable (id)

theorem retain :
    Tracks (PoolCall.step (pool, h) (.retain id)).1 (PoolCall.step (pool, h) (.retain id)).2 := by
  unfold PoolCall.step PoolCall.run
  rcases pool.retain_cases id with ⟨e, heq, -⟩ | ⟨o, hfind, -, heq⟩
  · simp only [heq]
    exact ht
  have hrefs := (ht.occupant hfind).2.1
  simp only [heq]
  have hcount := ht.count hfind (succ_pos (h.references id))
  rw [update_congr (g := fun o => { o with refs := h.references id + 1 }) hfind
    (by simp only [hrefs])]
  exact hcount

theorem release :
    Tracks (PoolCall.step (pool, h) (.release id)).1 (PoolCall.step (pool, h) (.release id)).2 := by
  unfold PoolCall.step PoolCall.run
  rcases pool.release_cases id with ⟨-, heq⟩ | ⟨o, hfind, hmany, heq⟩ | ⟨o, hfind, hlast, heq⟩
  · simp only [heq]
    exact ht
  · have hrefs := (ht.occupant hfind).2.1
    have hcount := ht.count hfind (show 0 < h.references id - 1 by omega)
    simp only [heq]
    rw [update_congr (g := fun o => { o with refs := h.references id - 1 }) hfind
      (by simp only [hrefs])]
    exact hcount
  · obtain ⟨hpos, hrefs, -⟩ := ht.occupant hfind
    have hone : h.references id - 1 = 0 := by omega
    have hclear := ht.clear hfind
    simp only [heq, PoolHistory.record, hone, if_true]
    exact hclear

theorem forceRelease :
    Tracks (PoolCall.step (pool, h) (.forceRelease id)).1
      (PoolCall.step (pool, h) (.forceRelease id)).2 := by
  unfold PoolCall.step PoolCall.run
  rcases pool.forceRelease_cases id with ⟨-, heq⟩ | ⟨o, hfind, heq⟩
  · simp only [heq]
    exact ht
  have hone := ht.count hfind Nat.one_pos
  have hfind' : (pool.update id ({ · with refs := 1 })).find id = some { o with refs := 1 } := by
    rw [PoolSlots.find_update, if_pos rfl, hfind]
    rfl
  have hclear := hone.clear hfind'
  simp only [heq, PoolHistory.record]
  rw [show update (update h.references id 1) id 0 =
    update h.references id 0 from update_idem ..] at hclear
  exact hclear

variable {id}

theorem step (call : PoolCall type T) :
    Tracks (PoolCall.step (pool, h) call).1 (PoolCall.step (pool, h) call).2 := by
  cases call with
  | allocate value => exact ht.allocate value
  | retain id => exact ht.retain id
  | release id => exact ht.release id
  | forceRelease id => exact ht.forceRelease id
  | get id =>
    cases hget : pool.get id with
    | ok value =>
      simp only [PoolCall.step, PoolCall.run, hget]
      exact ht
    | error e =>
      simp only [PoolCall.step, PoolCall.run, hget]
      exact ht
  | iter => exact ht

theorem foldl (calls : List (PoolCall type T)) :
    Tracks (calls.foldl PoolCall.step (pool, h)).1 (calls.foldl PoolCall.step (pool, h)).2 := by
  induction calls generalizing pool h with
  | nil => exact ht
  | cons call calls ih => exact ih (ht.step call)

/-! ## What the history says -/

theorem mem_iter (id : ObjectId type) (value : T) :
    (id, value) ∈ pool.iter ↔ pool.get id = .ok value := by
  unfold PoolSlots.iter PoolSlots.get
  simp only [mem_filterMap, mem_range, Option.map_eq_some_iff, Prod.mk.injEq]
  constructor
  · rintro ⟨index, hindex, o, hocc, rfl, rfl⟩
    have hfind : pool.find ⟨index, (pool.slots index).generation⟩ = some o :=
      PoolSlots.find_eq_some.mpr ⟨by dsimp only; omega, rfl, hocc⟩
    rw [hfind]
    rfl
  · intro hget
    cases hfind : pool.find id with
    | none => rw [hfind] at hget; cases hget
    | some o =>
      rw [hfind] at hget
      cases hget
      obtain ⟨hn, hgen, hocc⟩ := PoolSlots.find_eq_some.mp hfind
      have hbelow := ht.below id (ht.known id (ht.occupant hfind).1)
      exact ⟨id.index, by omega, o, hocc, ObjectId.ext rfl hgen, rfl⟩

end

theorem nodup_iter (pool : PoolSlots type T n) : (pool.iter.map (·.1)).Nodup := by
  unfold PoolSlots.iter
  rw [map_filterMap]
  refine (nodup_range).filterMap ?_
  intro i j id hi hj
  simp only [Option.mem_def, Option.map_map, Option.map_eq_some_iff, comp_apply] at hi hj
  obtain ⟨-, -, rfl⟩ := hi
  obtain ⟨-, -, hid⟩ := hj
  exact (congrArg ObjectId.index hid).symm

theorem nodup_handed (ht : Tracks pool h)
    (hfew : ∀ i, h.handed.countP (·.index = i) < u32Size) : h.handed.Nodup := by
  have hlength : ∀ i, (h.generations i).length = h.handed.countP (·.index = i) := by
    intro i
    rw [PoolHistory.generations, length_map, countP_eq_length_filter]
  have hslot : ∀ i, (h.handed.filter (·.index = i)).Nodup := by
    intro i
    refine Nodup.of_map (·.generation) ?_
    change (h.generations i).Nodup
    rw [ht.generations i]
    refine Nodup.map_on ?_ nodup_range
    intro j hj k hk heq
    have hlt := hfew i
    rw [mem_range, hlength] at hj hk
    exact generationAt_inj (by omega) (by omega) heq
  rw [nodup_iff_count_le_one]
  intro id
  have hcount := nodup_iff_count_le_one.mp (hslot id.index) id
  rwa [count_filter (by simp)] at hcount

theorem live_eq_iff (ht : Tracks pool h) :
    pool.live = n ↔ h.released = [] ∧ pool.highWater = n := by
  have hhigh := ht.released.high_le
  rw [ht.valid.live_eq]
  constructor
  · intro hcard
    have hall : pool.occupied = Finset.range n := by
      refine Finset.eq_of_subset_of_card_le (Finset.filter_subset _ _) ?_
      rw [hcard, Finset.card_range]
    have hheld : ∀ i < n, (pool.slots i).occupancy ≠ none := by
      intro i hi
      have hmem : i ∈ pool.occupied := hall ▸ Finset.mem_range.mpr hi
      exact isSome_iff_ne_none.mp (Finset.mem_filter.mp hmem).2
    refine ⟨eq_nil_iff_forall_not_mem.mpr fun i hi => ?_, ?_⟩
    · obtain ⟨hlt, hfree⟩ := (ht.released.mem_iff i).mp hi
      exact hheld i (by omega) hfree
    · by_contra hne
      exact hheld pool.highWater (by omega) (ht.released.above _ (Nat.le_refl _))
  · rintro ⟨hnil, hmark⟩
    have hall : pool.occupied = Finset.range n := by
      refine Finset.filter_true_of_mem fun i hi => ?_
      rw [isSome_iff_ne_none]
      intro hfree
      have hlt : i < pool.highWater := by rw [hmark]; exact Finset.mem_range.mp hi
      have hmem := (ht.released.mem_iff i).mpr ⟨hlt, hfree⟩
      rw [hnil] at hmem
      exact not_mem_nil hmem
    rw [hall, Finset.card_range]

theorem failed (ht : Tracks pool h) (call : PoolCall type T) (hfailed : (call.run pool).1.failed) :
    (call.run pool).2 = pool := by
  cases call with
  | allocate value =>
    rcases ht.valid.allocate_slot ht.released value with ⟨heq, -, -⟩ | ⟨index, pool', heq, -⟩ <;>
      simp only [PoolCall.run, heq] at hfailed ⊢
    exact hfailed.elim
  | retain id =>
    rcases pool.retain_cases id with ⟨e, heq, -⟩ | ⟨o, -, -, heq⟩ <;>
      simp only [PoolCall.run, heq] at hfailed ⊢
    exact hfailed.elim
  | release id =>
    rcases pool.release_cases id with ⟨-, heq⟩ | ⟨o, -, -, heq⟩ | ⟨o, -, -, heq⟩ <;>
      simp only [PoolCall.run, heq] at hfailed ⊢
    all_goals exact hfailed.elim
  | forceRelease id =>
    rcases pool.forceRelease_cases id with ⟨-, heq⟩ | ⟨o, -, heq⟩ <;>
      simp only [PoolCall.run, heq] at hfailed ⊢
    exact hfailed.elim
  | get id =>
    cases hget : pool.get id with
    | ok value => simp only [PoolCall.run, hget]
    | error e => simp only [PoolCall.run, hget]
  | iter => rfl

end Tracks

namespace PoolCall

/-- After every run of calls on a pool that starts empty: the free list is the slots released and
not handed out since, in the order of their release; the live count is the number of occupied
slots, each of which has a reference; `iter` lists the live objects once each; an id is accepted
while the history gives it a reference, and no id is handed out twice while no slot is handed out
2³² times; an allocation is refused exactly when every slot is live, and otherwise takes the slot
released first, or an unused one when there is none; a call that fails changes nothing. -/
theorem pool_keeps_history (hn : n < u32Size) (calls : List (PoolCall type T)) :
    let s : PoolSlots type T n × PoolHistory type T := runs calls
    (s.1.FreeSlots s.2.released ∧ s.2.released.Nodup) ∧
    (s.1.live = s.1.occupied.card ∧
      ∀ i o, i < n → (s.1.slots i).occupancy = some o → 0 < o.refs) ∧
    ((∀ id value, (id, value) ∈ s.1.iter ↔ s.1.get id = .ok value) ∧
      (s.1.iter.map (·.1)).Nodup) ∧
    ((∀ id value, s.1.get id = .ok value ↔
        0 < s.2.references id ∧ s.2.values id = some value) ∧
      (∀ id, 0 < s.2.references id → id ∈ s.2.handed) ∧
      ((∀ i, s.2.handed.countP (·.index = i) < u32Size) → s.2.handed.Nodup)) ∧
    (∀ value, ((PoolSlots.allocate value s.1).1 = .error .exhausted ↔ s.1.live = n) ∧
      ∀ id, (PoolSlots.allocate value s.1).1 = .ok id →
        id.index = s.2.released.head?.getD s.1.highWater ∧
        (s.2.released = [] → ∀ id' ∈ s.2.handed, id'.index ≠ id.index)) ∧
    ∀ call : PoolCall type T, (call.run s.1).1.failed → (call.run s.1).2 = s.1 := by
  intro s
  have ht : Tracks s.1 s.2 := (Tracks.start hn).foldl calls
  refine ⟨⟨ht.released, ht.released.nodup⟩, ⟨ht.valid.live_eq, fun i o hi hocc => ?_⟩,
    ⟨ht.mem_iter, Tracks.nodup_iter s.1⟩, ⟨fun id value => ?_, ht.known, ht.nodup_handed⟩,
    fun value => ?_, ht.failed⟩
  · have hfind : s.1.find ⟨i, (s.1.slots i).generation⟩ = some o :=
      PoolSlots.find_eq_some.mpr ⟨hi, rfl, hocc⟩
    obtain ⟨hpos, hrefs, -⟩ := ht.occupant hfind
    omega
  · unfold PoolSlots.get
    constructor
    · intro hget
      cases hfind : s.1.find id with
      | none => rw [hfind] at hget; cases hget
      | some o =>
        rw [hfind] at hget
        cases hget
        exact ⟨(ht.occupant hfind).1, (ht.occupant hfind).2.2⟩
    · rintro ⟨hpos, hvalue⟩
      obtain ⟨v, hv, hfind⟩ := ht.held id hpos
      obtain rfl := mem_unique hv hvalue
      rw [hfind]
      rfl
  · rw [ht.live_eq_iff]
    rcases ht.valid.allocate_slot ht.released value with ⟨heq, hnil, hmark⟩ |
      ⟨index, pool', heq, hindex, hin, -, -, hfree, -⟩
    · rw [heq]
      exact ⟨⟨fun _ => ⟨hnil, hmark⟩, fun _ => rfl⟩, nofun⟩
    rw [heq]
    refine ⟨⟨nofun, ?_⟩, ?_⟩
    · rintro ⟨hnil, hmark⟩
      rw [hnil] at hindex
      change index = s.1.highWater at hindex
      omega
    · rintro id ⟨⟩
      refine ⟨hindex, fun hnil id' hid' => ?_⟩
      rw [hnil] at hindex
      have hbelow := ht.below id' hid'
      change index = s.1.highWater at hindex
      change id'.index ≠ index
      omega

/-- The first slot of two is released and handed out again under its second generation. -/
theorem pool_keeps_history_two_slots :
    let s : PoolSlots .memoryObject Nat 2 × PoolHistory .memoryObject Nat :=
      runs [.allocate 10, .allocate 20, .release ⟨0, 1⟩, .allocate 30]
    2 < u32Size ∧ s.1.iter = [(⟨0, 2⟩, 30), (⟨1, 1⟩, 20)] ∧
    ∀ id value, (id, value) ∈ s.1.iter ↔ s.1.get id = .ok value :=
  ⟨by decide, by decide, (pool_keeps_history (by decide) _).2.2.1.1⟩

/-! ## A pool with a slot for every number of 32 bits -/

/-- The first `k` slots hold an object each, and both counts stop at the largest number. -/
def filled (type : ObjectType) (n k : Nat) : PoolSlots type Unit n where
  slots i := if i < k then ⟨1, none, some ⟨1, ()⟩⟩ else ⟨0, none, none⟩
  freeHead := none
  freeTail := none
  highWater := min k (u32Size - 1)
  live := min k (u32Size - 1)

theorem allocate_filled {k : Nat} (hk : k < n) (hsize : k < u32Size) :
    (PoolSlots.allocate () (filled type n k)).2 = filled type n (k + 1) := by
  have hmark : min k (u32Size - 1) = k := Nat.min_eq_left (by omega)
  have hslots : update (filled type n k).slots k ⟨1, none, some ⟨1, ()⟩⟩ =
      (filled type n (k + 1)).slots := by
    funext i
    by_cases hi : i = k
    · subst hi
      simp [filled]
    · have hiff : i < k + 1 ↔ i < k := by omega
      rw [update_of_ne hi]
      simp only [filled, hiff]
  have htake : PoolSlots.takeFreeSlot (filled type n k) =
      (.ok k, { filled type n k with highWater := satAdd32 k 1 }) := by
    simp [PoolSlots.takeFreeSlot, filled, hmark, hk]
  unfold PoolSlots.allocate
  rw [htake]
  simp only [PoolSlots.slot, hk, if_true, PoolSlots.modifySlot]
  have hgen : ((filled type n k).slots k).generation = 0 := by simp [filled]
  rw [hgen, show nextGeneration 0 = 1 from rfl, hslots]
  simp [filled, satAdd32, hmark]

theorem runs_filled {k : Nat} (hk : k ≤ n) (hsize : k ≤ u32Size) :
    (runs (replicate k (.allocate ())) : PoolSlots type Unit n × _).1 = filled type n k := by
  have hfold : ∀ j i (h : PoolHistory type Unit), i + j = k →
      ((replicate j (.allocate ())).foldl step (filled type n i, h)).1 = filled type n k := by
    intro j
    induction j with
    | zero =>
      intro i h hi
      rw [← hi]
      rfl
    | succ j ih =>
      intro i h hi
      have hrun : (PoolCall.run (filled type n i) (.allocate ())).2 = filled type n (i + 1) := by
        rw [← allocate_filled (show i < n by omega) (by omega)]
        rcases hanswer : PoolSlots.allocate () (filled type n i) with ⟨e | id, pool⟩
        · simp only [run, hanswer]
        · simp only [run, hanswer]
      rw [replicate_succ, foldl_cons]
      unfold step
      rw [hrun]
      exact ih (i + 1) _ (by omega)
  exact hfold k 0 .empty (Nat.zero_add k)

theorem live_filled (hn : n = u32Size) :
    (filled type n n).live ≠ (filled type n n).occupied.card := by
  have hall : (filled type n n).occupied = Finset.range n := by
    refine Finset.filter_true_of_mem fun i hi => ?_
    simp [filled, Finset.mem_range.mp hi]
  have hsize : 0 < u32Size := Nat.two_pow_pos 32
  rw [hall, Finset.card_range]
  change min n (u32Size - 1) ≠ n
  omega

theorem live_runs_filled (hn : n = u32Size) :
    let s : PoolSlots type Unit n × PoolHistory type Unit := runs (replicate n (.allocate ()))
    s.1.live ≠ s.1.occupied.card := by
  intro s
  have hs : s.1 = filled type n n := runs_filled (Nat.le_refl n) (Nat.le_of_eq hn)
  rw [hs]
  exact live_filled hn

/-- With as many slots as there are numbers of 32 bits, the live count stops one short. -/
theorem pool_of_all_numbers_miscounts :
    ∃ n, ∃ calls : List (PoolCall .memoryObject Unit),
      let s : PoolSlots .memoryObject Unit n × PoolHistory .memoryObject Unit := runs calls
      s.1.live ≠ s.1.occupied.card :=
  ⟨u32Size, replicate u32Size (.allocate ()), live_runs_filled rfl⟩

end PoolCall

end Audhsos
