import Audhsos.Tcp.Connection

/-!
Sequence numbers as distances from a base, and the bytes a send buffer holds as a list.
-/

namespace Audhsos.Tcp

open List Tcp.Ring

/-! ## Numbers counted from a base -/

namespace SeqNumber

/-- The number `k` steps behind the base. -/
def fromBase (base : SeqNumber) (k : Nat) : SeqNumber := base + BitVec.ofNat 32 k

section

variable (base : SeqNumber) {j k : Nat}

theorem toNat_fromBase_sub (j k : Nat) :
    (fromBase base k - fromBase base j).toNat = (2 ^ 32 - j % 2 ^ 32 + k % 2 ^ 32) % 2 ^ 32 := by
  simp only [fromBase, BitVec.toNat_sub, BitVec.toNat_add, BitVec.toNat_ofNat]
  omega

theorem distanceFrom_fromBase (hle : j ≤ k) (hlt : k - j < 2 ^ 32) :
    (fromBase base k).distanceFrom (fromBase base j) = k - j := by
  unfold distanceFrom
  rw [toNat_fromBase_sub]
  omega

/-- Less than half a circle apart, the order of the numbers is that of the distances. -/
theorem before_fromBase (hjk : j < k + 2 ^ 31)
    (hkj : k < j + 2 ^ 31) : (fromBase base j).before (fromBase base k) = decide (j < k) := by
  unfold before half
  rw [toNat_fromBase_sub]
  by_cases h : j < k
  · rw [decide_eq_true h, decide_eq_true_eq]
    omega
  · rw [decide_eq_false h, decide_eq_false_iff_not]
    omega

theorem later_fromBase (hjk : j < k + 2 ^ 31) (hkj : k < j + 2 ^ 31) :
    (if (fromBase base (1 + j)).before (fromBase base (1 + k)) then fromBase base (1 + k)
      else fromBase base (1 + j)) = fromBase base (1 + max j k) := by
  rw [before_fromBase base (by omega) (by omega)]
  by_cases h : j < k
  · rw [if_pos (decide_eq_true (by omega)), Nat.max_eq_right (by omega)]
  · rw [if_neg (by simp; omega), Nat.max_eq_left (by omega)]

theorem fromBase_inj (hjk : j < k + 2 ^ 32)
    (hkj : k < j + 2 ^ 32) : fromBase base j = fromBase base k ↔ j = k := by
  constructor
  · intro h
    have hzero : (fromBase base k - fromBase base j).toNat = 0 := by
      rw [h, BitVec.sub_self]
      rfl
    rw [toNat_fromBase_sub] at hzero
    omega
  · rintro rfl
    rfl

theorem beforeOrEqual_fromBase (hjk : j < k + 2 ^ 31) (hkj : k < j + 2 ^ 31) :
    (fromBase base j).beforeOrEqual (fromBase base k) = decide (j ≤ k) := by
  unfold beforeOrEqual
  rw [before_fromBase base hjk hkj]
  have heq := fromBase_inj base (show j < k + 2 ^ 32 by omega) (show k < j + 2 ^ 32 by omega)
  by_cases h : j = k
  · simp [h]
  · have hne : fromBase base j ≠ fromBase base k := fun h' => h (heq.1 h')
    simp only [hne, decide_false, Bool.false_or, decide_eq_decide]
    omega

theorem add_fromBase (k d : Nat) : (fromBase base k).add d = fromBase base (k + d) := by
  unfold add fromBase
  rw [BitVec.ofNat_add, BitVec.add_assoc]

theorem fromBase_zero : fromBase base 0 = base := by
  simp [fromBase]

theorem eq_fromBase (k : Nat) (number : SeqNumber) :
    number = fromBase base (k + number.distanceFrom (fromBase base k)) := by
  have hadd := add_fromBase base k (number.distanceFrom (fromBase base k))
  rw [← hadd]
  unfold add distanceFrom
  rw [BitVec.ofNat_toNat, BitVec.setWidth_eq, BitVec.add_comm, BitVec.sub_add_cancel]

end

end SeqNumber

/-! ## The bytes of a ring -/

theorem wrap_wrap_add (capacity a b : Nat) :
    wrap (wrap a capacity + b) capacity = wrap (a + b) capacity := by
  unfold wrap
  split
  · rfl
  · rw [Nat.mod_add_mod]

theorem wrap_ne {capacity a i j : Nat} (hi : i < capacity) (hj : j < capacity) (hne : i ≠ j) :
    wrap (a + i) capacity ≠ wrap (a + j) capacity := by
  unfold wrap
  rw [if_neg (by omega), if_neg (by omega)]
  intro h
  have hmod : (a + i) ≡ (a + j) [MOD capacity] := h
  have hij := Nat.ModEq.add_left_cancel' a hmod
  unfold Nat.ModEq at hij
  rw [Nat.mod_eq_of_lt hi, Nat.mod_eq_of_lt hj] at hij
  exact hne hij

theorem Ring.bytes_write_other (ring : Ring) (start : Nat) (data : List Byte) {p : Nat}
    (h : ∀ i, i < data.length → p ≠ wrap (start + i) ring.capacity) :
    (ring.write start data).bytes p = ring.bytes p := by
  induction data generalizing ring start with
  | nil => rfl
  | cons byte rest ih =>
    rw [write, ih]
    · exact Function.update_of_ne (h 0 (by simp)) ..
    · intro i hi
      rw [show start + 1 + i = start + (i + 1) by omega]
      exact h (i + 1) (by simpa using hi)

theorem Ring.bytes_write (ring : Ring) (start : Nat) (data : List Byte)
    (hlen : data.length ≤ ring.capacity) {i : Nat} (hi : i < data.length) :
    (ring.write start data).bytes (wrap (start + i) ring.capacity) = data.getD i 0 := by
  induction data generalizing ring start i with
  | nil => cases hi
  | cons byte rest ih =>
    rw [write]
    simp only [length_cons] at hlen hi
    cases i with
    | zero =>
      rw [bytes_write_other]
      · exact Function.update_self ..
      · intro j hj
        rw [show start + 1 + j = start + (j + 1) by omega]
        exact wrap_ne (by omega) (show j + 1 < ring.capacity by omega) (by omega)
    | succ i =>
      rw [show start + (i + 1) = start + 1 + i by omega]
      rw [getD_cons_succ]
      exact ih ⟨ring.capacity, Function.update ring.bytes (wrap start ring.capacity) byte⟩
        (start + 1) (show rest.length ≤ ring.capacity by omega)
        (show i < rest.length by omega)

namespace SendBuffer

def contents (buffer : SendBuffer) : List Byte :=
  (List.range buffer.len).map fun k =>
    buffer.ring.bytes (wrap (buffer.head + k) buffer.ring.capacity)

section

variable (buffer : SendBuffer)

theorem length_contents : buffer.contents.length = buffer.len := by
  simp [contents]

theorem contents_getElem? {k : Nat} (hk : k < buffer.len) :
    buffer.contents[k]? =
      some (buffer.ring.bytes (wrap (buffer.head + k) buffer.ring.capacity)) := by
  simp [contents, hk]

theorem contents_write (data : List Byte) :
    (buffer.write data).2.contents = buffer.contents ++ data.take (buffer.write data).1 := by
  have htaken : (data.take (min data.length buffer.free)).length = min data.length buffer.free := by
    simp
  apply ext_getElem?
  intro k
  have hcapacity := capacity_write buffer.ring
    (wrap (buffer.head + buffer.len) buffer.ring.capacity)
    (data.take (min data.length buffer.free))
  have hnew : (buffer.write data).2.len = buffer.len + min data.length buffer.free := rfl
  by_cases hk : k < buffer.len
  · rw [getElem?_append_left (by rw [length_contents]; exact hk),
      contents_getElem? _ hk, contents_getElem? _ (by rw [hnew]; omega)]
    simp only [write, hcapacity]
    rw [bytes_write_other]
    intro i hi
    rw [wrap_wrap_add, show buffer.head + buffer.len + i = buffer.head + (buffer.len + i) by omega]
    rw [htaken] at hi
    unfold free at hi
    exact wrap_ne (by omega) (by omega) (by omega)
  · by_cases hk' : k < buffer.len + min data.length buffer.free
    · rw [getElem?_append_right (by rw [length_contents]; omega), length_contents,
        contents_getElem? _ (by rw [hnew]; exact hk')]
      simp only [write, hcapacity]
      have hindex : k - buffer.len < (data.take (min data.length buffer.free)).length := by
        rw [htaken]
        omega
      have hbyte := bytes_write buffer.ring
        (wrap (buffer.head + buffer.len) buffer.ring.capacity)
        (data.take (min data.length buffer.free)) (by rw [htaken]; unfold free; omega) hindex
      rw [wrap_wrap_add, show buffer.head + buffer.len + (k - buffer.len) = buffer.head + k by
        omega] at hbyte
      rw [hbyte, getD_eq_getElem?_getD, getElem?_eq_getElem hindex]
      rfl
    · rw [getElem?_eq_none (by rw [length_contents, hnew]; omega), getElem?_eq_none (by
          rw [length_append, length_contents]
          change buffer.len + (data.take (min data.length buffer.free)).length ≤ k
          rw [htaken]
          omega)]

theorem contents_acknowledge (count : Nat) :
    (buffer.acknowledge count).contents = buffer.contents.drop (min count buffer.len) := by
  apply ext_getElem?
  intro k
  rw [getElem?_drop]
  have hnew : (buffer.acknowledge count).len = buffer.len - min count buffer.len := rfl
  by_cases hk : k < buffer.len - min count buffer.len
  · rw [contents_getElem? _ (by rw [hnew]; exact hk), contents_getElem? _ (by omega)]
    have hhead : (buffer.acknowledge count).head =
        wrap (buffer.head + min count buffer.len) buffer.ring.capacity := if_neg (by omega)
    change some (buffer.ring.bytes
      (wrap ((buffer.acknowledge count).head + k) buffer.ring.capacity)) = _
    rw [hhead, wrap_wrap_add, add_assoc]
  · rw [getElem?_eq_none (by rw [length_contents, hnew]; omega),
      getElem?_eq_none (by rw [length_contents]; omega)]

theorem contiguous_getElem? {offset limit i : Nat} (hi : i < buffer.run offset limit) :
    (buffer.contiguous offset limit)[i]? = buffer.contents[offset + i]? := by
  have hrun := hi
  unfold run at hrun
  split at hrun
  · cases hrun
  have hlen := buffer.len_le
  rw [contents_getElem? _ (by omega)]
  have hcapacity : 0 < buffer.ring.capacity := by omega
  have hplace : wrap (buffer.head + (offset + i)) buffer.ring.capacity =
      wrap (buffer.head + offset) buffer.ring.capacity + i := by
    rw [← add_assoc, ← wrap_wrap_add]
    generalize wrap (buffer.head + offset) buffer.ring.capacity = start at hrun
    unfold wrap
    rw [if_neg (by omega), Nat.mod_eq_of_lt (by omega)]
  rw [hplace]
  simp [contiguous, hi]

end

end SendBuffer

end Audhsos.Tcp
