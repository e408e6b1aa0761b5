import Audhsos.Virtio.Table

/-!
Chains in the descriptor table. `Chained` says that the table holds a list of buffers at a list of
descriptors, each linked to the next. `freeLoop` along a chain frees exactly its descriptors and
adds up the bytes the device may write; `addLoop` builds a chain out of free descriptors, and takes
it apart again when they run out.
-/

namespace Audhsos.Virtio

open Lib List Prog
open Descriptor (linkOf nextAt offset put stepOf stepOf_put_of_ne)

variable {words : Nat} {body : List Nat} {buffers : List Buffer} {table table' : Bytes}

/-! ## Chains -/

/-- The bytes the device may write into the buffers. -/
def writableBytes (buffers : List Buffer) : Nat :=
  (buffers.map fun buffer => if buffer.direction = .deviceToDriver then buffer.length else 0).sum

variable (buffer : Buffer) (behind : List Nat)

/-- The flags of a descriptor, with more behind it or without. -/
def chainFlags : Nat :=
  if behind = [] then buffer.direction.flag else buffer.direction.flag ||| descFNext

/-- The table holds the buffers at the descriptors, each linked to the one behind it. -/
def Chained (table : Bytes) : List Nat → List Buffer → Prop
  | [], [] => True
  | index :: behind, buffer :: buffers =>
    stepOf table index =
      .ok (buffer.length, chainFlags buffer behind, behind.head?.getD 0) ∧
    Chained table behind buffers
  | _, _ => False

theorem Chained.length_eq (h : Chained table body buffers) : body.length = buffers.length := by
  induction body generalizing buffers with
  | nil => cases buffers with
    | nil => rfl
    | cons => exact h.elim
  | cons index body ih => cases buffers with
    | nil => exact h.elim
    | cons buffer buffers => simp [ih h.2]

theorem Chained.congr (h : Chained table body buffers)
    (hsame : ∀ i ∈ body, stepOf table' i = stepOf table i) : Chained table' body buffers := by
  induction body generalizing buffers with
  | nil => cases buffers with
    | nil => trivial
    | cons => exact h.elim
  | cons index body ih => cases buffers with
    | nil => exact h.elim
    | cons buffer buffers =>
      exact ⟨(hsame index mem_cons_self).trans h.1,
        ih h.2 fun i hi => hsame i (mem_cons_of_mem _ hi)⟩

/-- A chain grows by a descriptor: its last one links to the new one. -/
theorem Chained.snoc
    {last index : Nat} {buffer : Buffer} (h : Chained table body buffers) (hnodup : body.Nodup)
    (hlast : body.getLast? = some last)
    (hsame : ∀ i ∈ body, i ≠ last → stepOf table' i = stepOf table i)
    (hlink : ∀ length flags next, stepOf table last = .ok (length, flags, next) →
      stepOf table' last = .ok (length, flags ||| descFNext, index))
    (hnew : stepOf table' index = .ok (buffer.length, buffer.direction.flag, 0)) :
    Chained table' (body ++ [index]) (buffers ++ [buffer]) := by
  induction body generalizing buffers with
  | nil => simp at hlast
  | cons first body ih => cases buffers with
    | nil => exact h.elim
    | cons held buffers =>
      obtain ⟨hstep, hbehind⟩ := h
      cases body with
      | nil =>
        obtain rfl : first = last := by simpa using hlast
        cases buffers with
        | cons => exact hbehind.elim
        | nil => exact ⟨by simpa [chainFlags] using hlink _ _ _ hstep, by
            simpa [chainFlags] using hnew, trivial⟩
      | cons second body =>
        have hne : first ≠ last := by
          rintro rfl
          refine (nodup_cons.mp hnodup).1 (mem_of_getLast? ?_)
          simpa using hlast
        refine ⟨?_, ih hbehind (nodup_cons.mp hnodup).2 (by simpa using hlast)
          fun i hi => hsame i (mem_cons_of_mem _ hi)⟩
        rw [hsame first mem_cons_self hne, hstep]
        simp [chainFlags]

/-! ## Marking a list of descriptors -/

namespace BitSet

variable (set : BitSet words) (l : List Nat)

/-- The set with all of `l` set. -/
def setMany : BitSet words :=
  l.foldl (fun set i => (set.set i).2) set

/-- The set with all of `l` cleared. -/
def clearMany : BitSet words :=
  l.foldl (fun set i => (set.clear i).2) set

theorem test_setMany {l : List Nat} (hl : ∀ i ∈ l, i < 64 * words) (set : BitSet words) (i : Nat) :
    (set.setMany l).test i = some true ↔ i ∈ l ∨ set.test i = some true := by
  induction l generalizing set with
  | nil => simp [setMany]
  | cons a l ih =>
    have := ih (fun i hi => hl i (mem_cons_of_mem _ hi)) (set.set a).2
    rw [setMany, foldl_cons]
    rw [setMany] at this
    rw [this, test_set, mem_cons]
    have ha := hl a mem_cons_self
    by_cases hia : i = a
    · subst hia
      simp [ha]
    · simp [hia]

theorem test_clearMany (set : BitSet words) (i : Nat) :
    (set.clearMany l).test i = some true ↔ i ∉ l ∧ set.test i = some true := by
  induction l generalizing set with
  | nil => simp [clearMany]
  | cons a l ih =>
    have := ih (set.clear a).2
    rw [clearMany, foldl_cons]
    rw [clearMany] at this
    rw [this, test_clear, mem_cons]
    tauto

end BitSet

/-! ## Freeing a chain -/

namespace Driver

variable {body : List Nat} {buffers : List Buffer} {driver : Driver words}
  {head index flags length next : Nat} {now start : Driver words}

/-- The driver with another free set. -/
def withFree (driver : Driver words) (free : BitSet words) : Driver words :=
  { driver with queue := { driver.queue with free } }

theorem flag_write :
    chainFlags buffer behind &&& descFWrite ≠ 0 ↔ buffer.direction = .deviceToDriver := by
  unfold chainFlags
  cases buffer.direction <;> split <;> simp [Direction.flag, descFWrite, descFNext]

theorem flag_next : chainFlags buffer behind &&& descFNext = 0 ↔ behind = [] := by
  unfold chainFlags
  cases buffer.direction <;> split <;> simp_all [Direction.flag, descFWrite, descFNext]

theorem freeLoop_chained (head : Nat) :
    ∀ (driver : Driver words) (fuel current writable : Nat), body.head? = some current →
      Chained driver.memory.descriptorTable body buffers → body.Nodup →
      (∀ i ∈ body, i < driver.queue.size ∧ driver.queue.free.test i = some false) →
      body.length ≤ fuel → writable + writableBytes buffers < u32Size →
      freeLoop head fuel current writable driver =
        (.ok (writable + writableBytes buffers),
          driver.withFree (driver.queue.free.setMany body)) := by
  induction body generalizing buffers with
  | nil => intro _ _ _ _ h; simp at h
  | cons index behind ih =>
    intro driver fuel current writable hhead hchained hnodup huse hfuel hbytes
    cases buffers with
    | nil => exact hchained.elim
    | cons buffer buffers =>
      obtain rfl : index = current := by simpa using hhead
      obtain ⟨hstep, hbehind⟩ := hchained
      obtain ⟨hlt, hfree⟩ := huse index mem_cons_self
      obtain ⟨hnotin, hnodup'⟩ := nodup_cons.mp hnodup
      obtain ⟨fuel, rfl⟩ : ∃ k, fuel = k + 1 := ⟨fuel - 1, by simp at hfuel; omega⟩
      have hwas : (driver.queue.free.set index).1.getD true = false := by
        rw [BitSet.set, hfree]
        rfl
      have hsum : writableBytes (buffer :: buffers) =
          (if buffer.direction = .deviceToDriver then buffer.length else 0) +
            writableBytes buffers := by
        simp [writableBytes]
      have hwritable : (if chainFlags buffer behind &&& descFWrite ≠ 0 then
          min (writable + buffer.length) (u32Size - 1) else writable) =
          writable + if buffer.direction = .deviceToDriver then buffer.length else 0 := by
        simp only [flag_write]
        rw [hsum] at hbytes
        split
        · rename_i h
          rw [if_pos h] at hbytes
          omega
        · rfl
      rw [freeLoop, if_neg (by omega)]
      simp only [hwas, Bool.false_eq_true, if_false, hstep, hwritable, flag_next]
      cases behind with
      | nil =>
        cases buffers with
        | cons => exact hbehind.elim
        | nil => simp [writableBytes, withFree, BitSet.setMany]
      | cons next behind =>
        rw [if_neg (by simp)]
        have := ih (driver.withFree (driver.queue.free.set index).2) fuel next
          (writable + if buffer.direction = .deviceToDriver then buffer.length else 0)
          rfl hbehind hnodup' (fun i hi => ?_) (by simp at hfuel ⊢; omega) (by omega)
        · rw [hsum, ← Nat.add_assoc]
          exact this
        obtain ⟨hi', hfree'⟩ := huse i (mem_cons_of_mem _ hi)
        refine ⟨hi', ?_⟩
        have hne : i ≠ index := fun h => hnotin (h ▸ hi)
        change (driver.queue.free.set index).2.test i = some false
        rw [BitSet.test_set, if_neg (fun h => hne h.1), hfree']

/-- Freeing a chain in use: its descriptors are free and its head is no head any more. -/
theorem freeChain_chained (hhead : body.head? = some head)
    (hchained : Chained driver.memory.descriptorTable body buffers) (hnodup : body.Nodup)
    (huse : ∀ i ∈ body, i < driver.queue.size ∧ driver.queue.free.test i = some false)
    (hlength : body.length ≤ driver.queue.size + 1) (hbytes : writableBytes buffers < u32Size) :
    freeChain head driver = (.ok (writableBytes buffers), { driver with queue := { driver.queue with
      heads := (driver.queue.heads.clear head).2
      free := driver.queue.free.setMany body } }) := by
  have := freeLoop_chained head { driver with queue := { driver.queue with
    heads := (driver.queue.heads.clear head).2 } } (driver.queue.size + 1) head 0 hhead hchained
      hnodup huse hlength (by omega)
  rw [Nat.zero_add] at this
  exact this

/-! ## Building a chain -/

/-- The driver with another descriptor table. -/
def withTable (driver : Driver words) (table : Bytes) : Driver words :=
  { driver with memory := { driver.memory with descriptorTable := table } }

theorem writeTable_store {start count : Nat} (value : Nat)
    (h : start + count ≤ driver.memory.descriptorTable.size) :
    writeTable (·.write .descriptorTable start count value) driver =
      (.ok (), driver.withTable (driver.memory.descriptorTable.store start count value)) := by
  simp only [writeTable, Bytes.write_eq h]
  rfl

/-- A field of a descriptor lies in the table. -/
theorem field_le {size k count : Nat} (h : offset index + 16 ≤ size) (hk : k + count ≤ 16) :
    offset index + k + count ≤ size := by
  omega

theorem writeDescriptor_run (desc : Descriptor)
    (h : offset index + 16 ≤ driver.memory.descriptorTable.size) :
    writeDescriptor desc index driver =
      (.ok (), driver.withTable (put driver.memory.descriptorTable desc index)) := by
  refine (run_bind_ok (writeTable_store _ ?_)).trans ?_
  · exact field_le h (by decide)
  refine (run_bind_ok (writeTable_store _ ?_)).trans ?_
  · exact field_le h (by decide)
  refine (run_bind_ok (writeTable_store _ ?_)).trans ?_
  · exact field_le h (by decide)
  refine writeTable_store _ ?_
  exact field_le h (by decide)

theorem linkOf_of_stepOf {table : Bytes} (h : stepOf table index = .ok (length, flags, next)) :
    linkOf table index = .ok (flags, next) := by
  obtain ⟨read, -, h⟩ := bind_eq_ok h
  obtain ⟨⟨flags', next'⟩, hlink, h⟩ := bind_eq_ok h
  cases h
  exact hlink

theorem linkTo_run {next' : Nat} (h : offset index + 16 ≤ driver.memory.descriptorTable.size)
    (hstep : stepOf driver.memory.descriptorTable index = .ok (length, flags, next')) :
    linkTo index next driver = (.ok (), driver.withTable
      (Descriptor.relink driver.memory.descriptorTable index (flags ||| descFNext) next)) := by
  unfold linkTo
  refine (run_bind_ok (rfl : Prog.get driver = (.ok driver, driver))).trans ?_
  refine (run_bind_ok (show ofExcept
    (linkOf driver.memory.descriptorTable index) driver = (.ok (flags, next'), driver)
    by rw [linkOf_of_stepOf hstep]; rfl)).trans ?_
  refine (run_bind_ok (writeTable_store _ ?_)).trans ?_
  · exact field_le h (by decide)
  refine writeTable_store _ ?_
  exact field_le h (by decide)

theorem takeFree_cases (hbound : ∀ i, driver.queue.free.test i = some true → i < driver.queue.size)
    (hsize : driver.queue.size < u16Size) :
    (takeFree driver = (.ok none, driver) ∧ ∀ i, driver.queue.free.test i ≠ some true) ∨
    ∃ index, driver.queue.free.test index = some true ∧
      takeFree driver = (.ok (some index),
        driver.withFree (driver.queue.free.clear index).2) := by
  unfold takeFree
  cases hfirst : driver.queue.free.firstSet with
  | none => exact .inl ⟨rfl, BitSet.firstSet_eq_none hfirst⟩
  | some index =>
    have htest := BitSet.firstSet_eq_some hfirst
    have hlt := hbound index htest
    refine .inr ⟨index, htest, ?_⟩
    have hmin : min index (u16Size - 1) = index := by omega
    have hwas : (driver.queue.free.clear index).1 = some true := htest
    dsimp only
    rw [hmin]
    generalize driver.queue.free.clear index = answer at hwas ⊢
    obtain ⟨was, free⟩ := answer
    cases hwas
    rfl

/-- The driver `now` has taken the descriptors `body` out of the free set of `start` and written
the chain of `buffers` to them; every other descriptor is as it was. -/
structure Building (start now : Driver words) (body : List Nat) (buffers : List Buffer) : Prop where
  queue : now.queue = { start.queue with free := start.queue.free.clearMany body }
  nodup : body.Nodup
  free : ∀ i ∈ body, start.queue.free.test i = some true
  chained : Chained now.memory.descriptorTable body buffers
  frame : ∀ i, i ∉ body → stepOf now.memory.descriptorTable i =
    stepOf start.memory.descriptorTable i
  size : now.memory.descriptorTable.size = start.memory.descriptorTable.size
  availableRing : now.memory.availableRing = start.memory.availableRing
  usedRing : now.memory.usedRing = start.memory.usedRing

theorem Building.refl (driver : Driver words) : Building driver driver [] [] :=
  ⟨rfl, nodup_nil, by simp, trivial, fun _ _ => rfl, rfl, rfl, rfl⟩

/-- What a queue says about itself that `add` relies on. -/
structure Ready (driver : Driver words) : Prop where
  size_lt : driver.queue.size < u16Size
  size_le : driver.queue.size ≤ 64 * words
  free_lt : ∀ i, driver.queue.free.test i = some true → i < driver.queue.size
  table : driver.queue.size * descriptorBytes ≤ driver.memory.descriptorTable.size

theorem Ready.offset_le (h : driver.Ready) {i : Nat} (hi : i < driver.queue.size) :
    offset i + 16 ≤ driver.memory.descriptorTable.size := by
  have := h.table
  simp only [offset, descriptorBytes] at *
  omega

theorem flag_lt (direction : Direction) : direction.flag < u16Size := by
  cases direction <;> decide

theorem flag_or_lt (flags : Nat) (h : flags < u16Size) : flags ||| descFNext < u16Size :=
  Nat.or_lt_two_pow h (by decide)

theorem place_chained (driver : Driver words) (buffer : Buffer)
    (hchained : Chained driver.memory.descriptorTable body buffers) (hnodup : body.Nodup)
    (hnotin : index ∉ body) (hindex : index < u16Size) (hoffset : ∀ i ∈ body ++ [index],
      offset i + 16 ≤ driver.memory.descriptorTable.size) :
    ∃ table, place buffer body.getLast? index driver = (.ok (), driver.withTable table) ∧
      table.size = driver.memory.descriptorTable.size ∧
      Chained table (body ++ [index]) (buffers ++ [buffer]) ∧
      ∀ i, i ∉ body ++ [index] →
        stepOf table i = stepOf driver.memory.descriptorTable i := by
  obtain ⟨desc, hdesc⟩ : ∃ desc : Descriptor,
      desc = ⟨buffer.address, buffer.length, buffer.direction.flag, 0⟩ := ⟨_, rfl⟩
  have hwrite := writeDescriptor_run desc (hoffset index (by simp))
  have hnew : stepOf (put driver.memory.descriptorTable desc index) index =
      .ok (buffer.length, buffer.direction.flag, 0) := by
    subst hdesc
    exact Descriptor.stepOf_put (hoffset index (by simp)) buffer.length_lt (flag_lt _)
      (Nat.two_pow_pos 16)
  unfold place
  rw [← hdesc]
  cases hlast : body.getLast? with
  | none =>
    obtain rfl : body = [] := getLast?_eq_none_iff.mp hlast
    obtain rfl : buffers = [] := eq_nil_of_length_eq_zero hchained.length_eq.symm
    refine ⟨_, (run_bind_ok hwrite).trans rfl, rfl,
      ⟨by simpa [chainFlags] using hnew, trivial⟩, fun i hi => ?_⟩
    exact stepOf_put_of_ne _ _ (by simpa using hi)
  | some last =>
    have hmem := mem_of_getLast? hlast
    have hne : last ≠ index := fun e => hnotin (e ▸ hmem)
    have hlastOffset := hoffset last (mem_append_left _ hmem)
    have hput := stepOf_put_of_ne driver.memory.descriptorTable desc hne
    obtain ⟨⟨length, flags, next⟩, hstep⟩ : ∃ step,
        stepOf driver.memory.descriptorTable last = .ok step :=
      ⟨_, Descriptor.stepOf_eq hlastOffset⟩
    have hflags : flags < u16Size := by
      rw [Descriptor.stepOf_eq hlastOffset, Except.ok.injEq, Prod.mk.injEq, Prod.mk.injEq] at hstep
      simp only [u16Size]
      omega
    refine ⟨_, (run_bind_ok hwrite).trans (linkTo_run hlastOffset (hput.trans hstep)), rfl,
      hchained.snoc hnodup hlast (fun i hi hil => ?_) (fun length' flags' next' h => ?_) ?_,
      fun i hi => ?_⟩
    · have hii : i ≠ index := fun e => hnotin (e ▸ hi)
      exact (Descriptor.stepOf_relink_of_ne hil).trans (stepOf_put_of_ne _ _ hii)
    · rw [hstep, Except.ok.injEq, Prod.mk.injEq, Prod.mk.injEq] at h
      obtain ⟨rfl, rfl, rfl⟩ := h
      exact Descriptor.stepOf_relink hlastOffset (flag_or_lt _ hflags) hindex (hput.trans hstep)
    · exact (Descriptor.stepOf_relink_of_ne hne.symm).trans hnew
    · rw [mem_append, mem_singleton, not_or] at hi
      have hil : i ≠ last := fun e => hi.1 (e ▸ hmem)
      exact (Descriptor.stepOf_relink_of_ne hil).trans (stepOf_put_of_ne _ _ hi.2)

section

variable (h : Building start now body buffers) (hready : start.Ready)
include h hready

theorem Building.take (buffer : Buffer) (hindex : now.queue.free.test index = some true) :
    ∃ next, Building start next (body ++ [index]) (buffers ++ [buffer]) ∧
      place buffer body.getLast? index (now.withFree (now.queue.free.clear index).2) =
        (.ok (), next) := by
  rw [h.queue, BitSet.test_clearMany] at hindex
  obtain ⟨hnotin, hfree⟩ := hindex
  have hallFree : ∀ i ∈ body ++ [index], start.queue.free.test i = some true := by
    intro i hi
    rcases mem_append.mp hi with hi | hi
    · exact h.free i hi
    · rwa [mem_singleton.mp hi]
  have hqueue : (now.withFree (now.queue.free.clear index).2).queue =
      { start.queue with free := start.queue.free.clearMany (body ++ [index]) } := by
    simp only [withFree, h.queue, BitSet.clearMany, foldl_append, foldl_cons, foldl_nil]
  obtain ⟨table, hrun, hsize, hchained, hframe⟩ := place_chained
    (now.withFree (now.queue.free.clear index).2) buffer h.chained h.nodup hnotin
    ((hready.free_lt index hfree).trans hready.size_lt)
    (fun i hi => h.size ▸ hready.offset_le (hready.free_lt i (hallFree i hi)))
  refine ⟨(now.withFree (now.queue.free.clear index).2).withTable table,
    ⟨hqueue, ?_, hallFree, hchained, fun i hi => ?_, hsize.trans h.size,
    h.availableRing, h.usedRing⟩, hrun⟩
  · rw [nodup_append]
    exact ⟨h.nodup, nodup_singleton _, fun a ha b hb hab => hnotin (by
      rw [mem_singleton] at hb
      rwa [← hb, ← hab])⟩
  · exact (hframe i hi).trans (h.frame i fun hmem => hi (mem_append_left _ hmem))

theorem Building.undo
    (hhead : body.head? = some head) (hheads : start.queue.heads.test head ≠ some true)
    (hbytes : writableBytes buffers < u32Size) :
    ∃ writable next, freeChain head now = (.ok writable, next) ∧ next.queue = start.queue ∧
      next.memory = now.memory := by
  have hlt : ∀ i ∈ body, i < start.queue.size := fun i hi => hready.free_lt i (h.free i hi)
  have hsize : now.queue.size = start.queue.size := by rw [h.queue]
  have hnow : now.queue.free = start.queue.free.clearMany body := by rw [h.queue]
  have huse : ∀ i ∈ body, i < now.queue.size ∧ now.queue.free.test i = some false := by
    intro i hi
    refine ⟨hsize ▸ hlt i hi, BitSet.test_eq_false ((hlt i hi).trans_le hready.size_le) ?_⟩
    rw [hnow, Ne, BitSet.test_clearMany]
    exact fun e => e.1 hi
  have hlength : body.length ≤ now.queue.size + 1 := by
    have hsub : body ⊆ List.range start.queue.size := fun i hi => mem_range.mpr (hlt i hi)
    have := (subperm_of_subset h.nodup hsub).length_le
    rw [length_range] at this
    omega
  refine ⟨_, _, freeChain_chained hhead h.chained h.nodup huse hlength hbytes, ?_, rfl⟩
  have hfree : (start.queue.free.clearMany body).setMany body = start.queue.free := by
    refine BitSet.ext_members fun i => ?_
    rw [BitSet.test_setMany (fun i hi => (hlt i hi).trans_le hready.size_le), BitSet.test_clearMany]
    by_cases hi : i ∈ body
    · simp [hi, h.free i hi]
    · simp [hi]
  have hclear : (start.queue.heads.clear head).2 = start.queue.heads := by
    refine BitSet.ext_members fun i => ?_
    rw [BitSet.test_clear]
    exact ⟨fun hi => hi.1, fun hi => ⟨hi, fun e => hheads (e ▸ hi)⟩⟩
  simp only [h.queue, hfree, hclear]

end

end Driver

end Audhsos.Virtio
