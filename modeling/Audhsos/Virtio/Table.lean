import Mathlib.Data.Finset.Card
import Audhsos.Virtio.Queue

/-!
What the queue needs of its bit sets and its descriptor table. A bit set is known by `test`; a table
by `Descriptor.stepOf`, which reads one descriptor, so a write to one leaves the others.
-/

namespace Audhsos.Virtio

open Descriptor List Bytes

/-! ## Bit sets -/

namespace BitSet

variable {words : Nat} {set : BitSet words} {a b : BitSet words} {i : Nat}

theorem ext_test (h : ∀ i, a.test i = b.test i) : a = b := by
  obtain ⟨bits, hbits⟩ := a
  obtain ⟨bits', hbits'⟩ := b
  have : bits = bits' := ext_getElem? h
  subst this
  rfl

theorem test_new (i : Nat) : (new : BitSet words).test i ≠ some true := by
  simp [new, test, getElem?_replicate]

theorem test_set (set : BitSet words) (index i : Nat) :
    (set.set index).2.test i = if i = index ∧ i < 64 * words then some true else set.test i := by
  simp only [test, BitSet.set, getElem?_set, set.length_eq]
  by_cases h : index = i
  · subst h
    by_cases hlt : index < 64 * words
    · simp [hlt]
    · have : set.bits[index]? = none := getElem?_eq_none (by rw [set.length_eq]; omega)
      simp [hlt, this]
  · have : i ≠ index := fun e => h e.symm
    simp [h, this]

theorem test_clear (set : BitSet words) (index i : Nat) :
    (set.clear index).2.test i = some true ↔ set.test i = some true ∧ i ≠ index := by
  simp only [test, clear, getElem?_set]
  by_cases h : index = i
  · subst h
    rw [if_pos rfl]
    split <;> simp
  · have : i ≠ index := fun e => h e.symm
    simp [h, this]

theorem test_lt {b : Bool} (h : set.test i = some b) : i < 64 * words := by
  rw [← set.length_eq]
  exact (List.getElem?_eq_some_iff.mp h).1

/-- In range, a bit that is not set is clear. -/
theorem test_eq_false (hlt : i < 64 * words)
    (h : set.test i ≠ some true) : set.test i = some false := by
  have : i < set.bits.length := by rw [set.length_eq]; exact hlt
  simp only [test, getElem?_eq_getElem this] at h ⊢
  simpa using h

/-- Two sets with the same members are the same. -/
theorem ext_members (h : ∀ i, a.test i = some true ↔ b.test i = some true) : a = b := by
  refine ext_test fun i => ?_
  by_cases hlt : i < 64 * words
  · by_cases ha : a.test i = some true
    · rw [ha, (h i).mp ha]
    · rw [test_eq_false hlt ha, test_eq_false hlt fun hb => ha ((h i).mpr hb)]
  · have hnone : ∀ s : BitSet words, s.test i = none := fun s =>
      getElem?_eq_none (by rw [s.length_eq]; omega)
    rw [hnone, hnone]

theorem firstSet_eq_some (h : set.firstSet = some i) : set.test i = some true := by
  obtain ⟨hlt, hbit, -⟩ := findIdx?_eq_some_iff_getElem.mp h
  rw [test, getElem?_eq_getElem hlt]
  simpa using hbit

theorem firstSet_eq_none (h : set.firstSet = none) (i : Nat) : set.test i ≠ some true := by
  intro hi
  have hall := findIdx?_eq_none_iff.mp h
  have := hall true (mem_of_getElem? hi)
  simp at this

theorem count_list (bits : List Bool) :
    bits.count true = ((Finset.range bits.length).filter fun i => bits[i]? = some true).card := by
  induction bits using reverseRecOn with
  | nil => simp
  | append_singleton bits b ih =>
    have hrest : ((Finset.range bits.length).filter fun i => (bits ++ [b])[i]? = some true) =
        (Finset.range bits.length).filter fun i => bits[i]? = some true := by
      refine Finset.filter_congr fun i hi => ?_
      rw [getElem?_append_left (Finset.mem_range.mp hi)]
    rw [count_append, ih, length_append, length_singleton, Finset.range_add_one,
      Finset.filter_insert, hrest]
    cases b <;> simp

/-- A set with the members of a finite set has as many bits. -/
theorem count_eq (members : Finset Nat)
    (h : ∀ i, set.test i = some true ↔ i ∈ members) : set.count = members.card := by
  rw [count, count_list, set.length_eq]
  congr 1
  ext i
  simp only [Finset.mem_filter, Finset.mem_range]
  exact ⟨fun hi => (h i).mp hi.2, fun hi => ⟨test_lt ((h i).mpr hi), (h i).mpr hi⟩⟩

end BitSet

/-! ## Reading what was stored -/

namespace Bytes

theorem byte_store (region : Bytes) (start count value i : Nat) :
    (region.store start count value).byte i = if start ≤ i ∧ i < start + count then
      BitVec.ofNat 8 (value / 256 ^ (i - start)) else region.byte i :=
  rfl

@[simp] theorem size_store (region : Bytes) (start count value : Nat) :
    (region.store start count value).size = region.size :=
  rfl

theorem write_eq {region : Bytes} {area : Area} {start count : Nat}
    (h : start + count ≤ region.size) (value : Nat) :
    region.write area start count value = .ok (region.store start count value) :=
  if_pos h

end Bytes

namespace Descriptor

variable {table : Bytes} {index i flags next : Nat}

/-- The table with a descriptor written to it. -/
def put (table : Bytes) (desc : Descriptor) (index : Nat) : Bytes :=
  (((table.store (offset index + addressAt) 8 desc.address).store
    (offset index + lengthAt) 4 desc.length).store
    (offset index + flagsAt) 2 desc.flags).store (offset index + nextAt) 2 desc.next

/-- The table with the flags and the next index of a descriptor written to it. -/
def relink (table : Bytes) (index flags next : Nat) : Bytes :=
  (table.store (offset index + flagsAt) 2 flags).store (offset index + nextAt) 2 next

/-- What a walk reads of a descriptor that lies in the table. -/
theorem stepOf_eq (h : offset index + 16 ≤ table.size) :
    stepOf table index = .ok
      ((table.byte (offset index + 8)).toNat + 256 * (table.byte (offset index + 9)).toNat +
        256 ^ 2 * (table.byte (offset index + 10)).toNat +
        256 ^ 3 * (table.byte (offset index + 11)).toNat,
       (table.byte (offset index + 12)).toNat + 256 * (table.byte (offset index + 13)).toNat,
       (table.byte (offset index + 14)).toNat + 256 * (table.byte (offset index + 15)).toNat) := by
  have h8 : table.readU32 .descriptorTable (offset index + lengthAt) = .ok _ :=
    if_pos (by simp only [lengthAt]; omega)
  have h12 : table.readU16 .descriptorTable (offset index + flagsAt) = .ok _ :=
    if_pos (by simp only [flagsAt]; omega)
  have h14 : table.readU16 .descriptorTable (offset index + nextAt) = .ok _ :=
    if_pos (by simp only [nextAt]; omega)
  unfold stepOf linkOf
  rw [h8, h12, h14]
  rfl

/-- What a walk reads of a descriptor depends on its bytes alone. -/
theorem stepOf_congr {table table' : Bytes} (hsize : table'.size = table.size)
    (h : ∀ i, offset index ≤ i → i < offset index + 16 → table'.byte i = table.byte i) :
    stepOf table' index = stepOf table index := by
  unfold stepOf linkOf readU32 readU16
  simp only [hsize, lengthAt, flagsAt, nextAt, Nat.add_assoc]
  rw [h, h, h, h, h, h, h, h] <;> omega

theorem offset_disjoint {j : Nat} (h : i ≠ j) :
    offset i + 16 ≤ offset j ∨ offset j + 16 ≤ offset i := by
  simp only [offset, descriptorBytes]
  omega

theorem stepOf_put_of_ne (table : Bytes) (desc : Descriptor) (h : i ≠ index) :
    stepOf (put table desc index) i = stepOf table i := by
  have hdisjoint := offset_disjoint h
  refine stepOf_congr rfl fun k hk hlt => ?_
  simp only [put, byte_store, addressAt, lengthAt, flagsAt, nextAt]
  rw [if_neg (by omega), if_neg (by omega), if_neg (by omega), if_neg (by omega)]

theorem stepOf_relink_of_ne (h : i ≠ index) :
    stepOf (relink table index flags next) i = stepOf table i := by
  have hdisjoint := offset_disjoint h
  refine stepOf_congr rfl fun k hk hlt => ?_
  simp only [relink, byte_store, flagsAt, nextAt]
  rw [if_neg (by omega), if_neg (by omega)]

theorem stepOf_put {desc : Descriptor}
    (h : offset index + 16 ≤ table.size) (hlength : desc.length < u32Size)
    (hflags : desc.flags < u16Size) (hnext : desc.next < u16Size) :
    stepOf (put table desc index) index = .ok (desc.length, desc.flags, desc.next) := by
  rw [stepOf_eq (by simpa [put] using h)]
  simp only [put, byte_store, addressAt, lengthAt, flagsAt, nextAt, u32Size, u16Size] at *
  simp
  omega

theorem stepOf_relink {length flags' next' : Nat}
    (h : offset index + 16 ≤ table.size) (hflags : flags < u16Size) (hnext : next < u16Size)
    (hstep : stepOf table index = .ok (length, flags', next')) :
    stepOf (relink table index flags next) index = .ok (length, flags, next) := by
  rw [stepOf_eq h, Except.ok.injEq, Prod.mk.injEq, Prod.mk.injEq] at hstep
  rw [stepOf_eq (by simpa [relink] using h)]
  simp only [relink, byte_store, flagsAt, nextAt, u16Size] at *
  simp
  omega

end Descriptor

end Audhsos.Virtio
