import Mathlib.Data.Nat.Bitwise
import Mathlib.Algebra.Ring.Nat

/-!
Bitmaps in words. A bit is read by its number, whatever the width of the words is; one mark
changes one bit, and the search word by word finds the first clear bit.
-/

namespace Audhsos.Bitmap

open BitVec Nat

variable {w : Nat} {value : BitVec w} {i k : Nat}

/-! ## One word -/

theorem test_mask (value : BitVec w) (hk : k < w) :
    decide (value &&& (1#w <<< k) ≠ 0#w) = value.getLsbD k := by
  rw [← twoPow_eq, and_twoPow]
  have hmask : twoPow w k ≠ 0#w := by
    intro hzero
    have hbit := congrArg (fun bits => bits.getLsbD k) hzero
    simp [hk] at hbit
  cases hvalue : value.getLsbD k <;> simp [hmask]

theorem getLsbD_below (hk : k < w) (hi : i < w) :
    ((1#w <<< k) - 1#w).getLsbD i = decide (i < k) := by
  have hpos : 0 < 2 ^ k := Nat.two_pow_pos k
  have hlt : 2 ^ k < 2 ^ w := Nat.pow_lt_pow_right (by decide) hk
  have hword : (1#w <<< k) - 1#w = BitVec.ofNat w (2 ^ k - 1) := by
    apply eq_of_toNat_eq
    have hone : 1 < 2 ^ w := by omega
    have hshift : (1#w <<< k).toNat = 2 ^ k := by rw [← twoPow_eq, toNat_twoPow, mod_eq_of_lt hlt]
    have hunit : (1#w).toNat = 1 := by rw [toNat_ofNat, mod_eq_of_lt hone]
    rw [toNat_sub_of_le (by rw [le_def, hshift, hunit]; omega), hshift, hunit,
      toNat_ofNat, mod_eq_of_lt (by omega)]
  rw [hword, getLsbD_ofNat, testBit_two_pow_sub_one]
  simp [hi]

def trailingOnes (value : BitVec w) : Nat := (List.range w).findIdx fun i => !value.getLsbD i

theorem getLsbD_of_lt_trailingOnes (h : i < trailingOnes value) : value.getLsbD i = true := by
  have hbit := List.not_of_lt_findIdx h
  simpa using hbit

theorem trailingOnes_spec (h : value ≠ allOnes w) :
    trailingOnes value < w ∧ value.getLsbD (trailingOnes value) = false := by
  have hlt : trailingOnes value < w := by
    by_contra hle
    refine h (eq_of_getLsbD_eq fun i hi => ?_)
    rw [getLsbD_of_lt_trailingOnes (by omega), getLsbD_allOnes]
    simp [hi]
  have hlength : (List.range w).findIdx (fun i => !value.getLsbD i) < (List.range w).length := by
    rwa [List.length_range]
  have hzero := List.findIdx_getElem (w := hlength)
  refine ⟨hlt, ?_⟩
  unfold trailingOnes
  simpa using hzero

/-! ## All words -/

variable (words : Nat → BitVec w)

def bit (n : Nat) : Bool := (words (n / w)).getLsbD (n % w)

def mark (n : Nat) (value : Bool) : Nat → BitVec w := fun word =>
  if word = n / w then
    if value then words word ||| 1#w <<< (n % w) else words word &&& ~~~(1#w <<< (n % w))
  else words word

theorem bit_mark (hw : 0 < w) (words : Nat → BitVec w) (n m : Nat) (value : Bool) :
    bit (mark words n value) m = if m = n then value else bit words m := by
  have hn := mod_lt n hw
  have hm := mod_lt m hw
  unfold bit mark
  by_cases hword : m / w = n / w
  · rw [if_pos hword]
    have hsame : m % w = n % w ↔ m = n := by
      refine ⟨fun hmod => ?_, fun heq => by rw [heq]⟩
      rw [← div_add_mod m w, ← div_add_mod n w, hword, hmod]
    cases value with
    | true =>
      rw [if_pos rfl, ← twoPow_eq, getLsbD_or, getLsbD_twoPow]
      by_cases heq : m = n
      · simp [heq, hn]
      · have hne : ¬ n % w = m % w := fun h => heq (hsame.mp h.symm)
        simp [heq, hne]
    | false =>
      rw [if_neg (by decide), ← twoPow_eq, getLsbD_and, getLsbD_not, getLsbD_twoPow]
      by_cases heq : m = n
      · simp [heq, hn]
      · have hne : ¬ n % w = m % w := fun h => heq (hsame.mp h.symm)
        simp [heq, hne, hm]
  · have hne : m ≠ n := fun heq => hword (by rw [heq])
    rw [if_neg hword, if_neg hne]

theorem bit_at (word : Nat) (hi : i < w) : bit words (word * w + i) = (words word).getLsbD i := by
  unfold bit
  rw [mul_comm, mul_add_div (by omega), div_eq_of_lt hi, mul_add_mod, mod_eq_of_lt hi, add_zero]

/-- The first clear bit of `left` words from `word` on; in the first of them, the bits of `below`
count as set. -/
def firstClear (words : Nat → BitVec w) : Nat → Nat → BitVec w → Option Nat
  | 0, _, _ => none
  | left + 1, word, below =>
    let taken := words word ||| below
    if taken = allOnes w then firstClear words left (word + 1) 0
    else some (word * w + trailingOnes taken)

/-- What the search answers when it starts at the bit `first`. -/
def Searched (first total : Nat) : Option Nat → Prop
  | some n => first ≤ n ∧ bit words n = false ∧ ∀ m, first ≤ m → m < n → bit words m = true
  | none => ∀ m, first ≤ m → m < total * w → bit words m = true

/-- Induction on the words left: all bits from `first` to the current word are set. -/
theorem searched_firstClear (first left word : Nat) (below : BitVec w)
    (hfirst : first ≤ word * w + w)
    (hbelow : ∀ i < w, below.getLsbD i = decide (word * w + i < first))
    (hset : ∀ m, first ≤ m → m < word * w → bit words m = true) :
    Searched words first (word + left) (firstClear words left word below) := by
  induction left generalizing word below with
  | zero => exact hset
  | succ left ih =>
    -- a bit of the word that counts as taken is set, or lies below the first one
    have htaken : ∀ i < w, (words word ||| below).getLsbD i = true → first ≤ word * w + i →
        bit words (word * w + i) = true := by
      intro i hi hor hle
      rw [getLsbD_or, hbelow i hi, decide_eq_false (by omega), Bool.or_false] at hor
      rwa [bit_at words word hi]
    have hupto : ∀ k ≤ w, (∀ i < k, (words word ||| below).getLsbD i = true) →
        ∀ m, first ≤ m → m < word * w + k → bit words m = true := by
      intro k hk hones m hle hm
      by_cases hbefore : m < word * w
      · exact hset m hle hbefore
      · obtain ⟨i, rfl⟩ := Nat.exists_eq_add_of_le (le_of_not_gt hbefore)
        exact htaken i (by omega) (hones i (by omega)) hle
    unfold firstClear
    dsimp only
    split
    next hfull =>
      have hnext : (word + 1) * w = word * w + w := succ_mul word w
      have hsearched := ih (word + 1) 0 (by omega) (fun i hi => ?_) (fun m hle hm => ?_)
      · rwa [Nat.add_right_comm, add_assoc] at hsearched
      · rw [decide_eq_false (by omega)]
        exact getLsbD_zero
      · refine hupto w (le_refl w) (fun i hi => ?_) m hle (by omega)
        rw [hfull, getLsbD_allOnes, decide_eq_true hi]
    next hfull =>
      obtain ⟨hlt, hzero⟩ := trailingOnes_spec hfull
      refine ⟨?_, ?_, hupto _ (le_of_lt hlt) fun i hi => getLsbD_of_lt_trailingOnes hi⟩
      · rw [getLsbD_or, hbelow _ hlt, Bool.or_eq_false_iff] at hzero
        simpa using hzero.2
      · rw [getLsbD_or, Bool.or_eq_false_iff] at hzero
        rw [bit_at words word hlt]
        exact hzero.1

theorem searched_from (hw : 0 < w) (words : Nat → BitVec w) (first total : Nat) :
    Searched words first total
      (firstClear words (total - first / w) (first / w) ((1#w <<< (first % w)) - 1#w)) := by
  have hmod := mod_lt first hw
  have hsplit : first / w * w + first % w = first := div_add_mod' first w
  by_cases hinside : first / w ≤ total
  · have hsearched := searched_firstClear words first (total - first / w) (first / w)
      ((1#w <<< (first % w)) - 1#w) (by omega) (fun i hi => ?_)
      (fun m hle hm => by omega)
    · rwa [Nat.add_sub_cancel' hinside] at hsearched
    · rw [getLsbD_below hmod hi]
      exact decide_eq_decide.mpr (by omega)
  · rw [Nat.sub_eq_zero_of_le (by omega)]
    intro m hle hm
    have hless : total * w ≤ first / w * w := Nat.mul_le_mul_right w (by omega)
    omega

end Audhsos.Bitmap
