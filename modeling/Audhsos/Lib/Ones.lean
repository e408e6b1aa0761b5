import Mathlib.Data.Nat.ModEq
import Mathlib.Tactic.Ring

/-!
Sums with the end-around carry. A sum that passes `m`, the largest number of the width, comes round
to one, so zero and `m` mark one residue: zero a sum of nothing but zeros, `m` any other multiple of
`m`.
-/

namespace Audhsos.Lib

open Nat

/-- A total brought back to the width, by adding every carry in at the other end. -/
def wrapAround (m n : Nat) : Nat := if n = 0 then 0 else (n - 1) % m + 1

variable {m a b n : Nat}

theorem wrapAround_le (hm : 0 < m) (n : Nat) : wrapAround m n ≤ m := by
  unfold wrapAround
  split
  · exact Nat.zero_le m
  · exact mod_lt _ hm

theorem wrapAround_le_self (m n : Nat) : wrapAround m n ≤ n := by
  unfold wrapAround
  split
  · exact Nat.zero_le n
  · have hle := mod_le (n - 1) m
    omega

theorem wrapAround_of_le (h : n ≤ m) : wrapAround m n = n := by
  unfold wrapAround
  split
  · omega
  · rw [mod_eq_of_lt (by omega)]
    omega

theorem wrapAround_modEq (m n : Nat) : wrapAround m n ≡ n [MOD m] := by
  unfold wrapAround
  split
  next h => rw [h]
  next h =>
    have hmod : (n - 1) % m + 1 ≡ n - 1 + 1 [MOD m] := (mod_modEq (n - 1) m).add_right 1
    rwa [Nat.sub_add_cancel (Nat.pos_of_ne_zero h)] at hmod

theorem wrapAround_eq_zero : wrapAround m n = 0 ↔ n = 0 := by
  unfold wrapAround
  split <;> omega

theorem wrapAround_congr (h : a ≡ b [MOD m]) (hzero : a = 0 ↔ b = 0) :
    wrapAround m a = wrapAround m b := by
  by_cases ha : a = 0
  · rw [ha, hzero.mp ha]
  have hb : b ≠ 0 := fun hb => ha (hzero.mpr hb)
  have hpred : a - 1 ≡ b - 1 [MOD m] := by
    apply Nat.ModEq.add_right_cancel' 1
    rwa [Nat.sub_add_cancel (Nat.pos_of_ne_zero ha), Nat.sub_add_cancel (Nat.pos_of_ne_zero hb)]
  unfold wrapAround
  rw [if_neg ha, if_neg hb, hpred]

theorem wrapAround_add (m a b : Nat) :
    wrapAround m (wrapAround m a + b) = wrapAround m (a + b) := by
  apply wrapAround_congr
  · exact (wrapAround_modEq m a).add_right b
  · have hiff : wrapAround m a = 0 ↔ a = 0 := wrapAround_eq_zero
    omega

theorem wrapAround_carry (ha : a ≤ m) (hb : b ≤ m) :
    wrapAround m (a + b) = if m < a + b then a + b - m else a + b := by
  split
  next h =>
    have hcongr : a + b - m ≡ a + b [MOD m] := (modEq_iff_dvd' (sub_le _ _)).mpr ⟨1, by omega⟩
    have hwrap := wrapAround_congr hcongr (by omega)
    rw [← hwrap, wrapAround_of_le (by omega)]
  next h => exact wrapAround_of_le (by omega)

/-- The largest number marks the multiples of it other than zero. -/
theorem wrapAround_eq_max (hm : 0 < m) : wrapAround m n = m ↔ n ≠ 0 ∧ m ∣ n := by
  have hmod := wrapAround_modEq m n
  have hle := wrapAround_le hm n
  have hzero : wrapAround m n = 0 ↔ n = 0 := wrapAround_eq_zero
  constructor
  · intro h
    rw [h] at hmod
    exact ⟨by omega, (modEq_zero_iff_dvd.mp (hmod.symm.trans (by simp [ModEq])))⟩
  · rintro ⟨hne, hdvd⟩
    have hdvd' : m ∣ wrapAround m n :=
      modEq_zero_iff_dvd.mp (hmod.trans (modEq_zero_iff_dvd.mpr hdvd))
    exact le_antisymm hle (le_of_dvd (by omega) hdvd')

/-- What is missing from a sum to the largest number completes every total that wraps to it. -/
theorem wrapAround_complete (hm : 0 < m) (n : Nat) :
    wrapAround m (n + (m - wrapAround m n)) = m := by
  have hle := wrapAround_le hm n
  have hself := wrapAround_le_self m n
  refine (wrapAround_eq_max hm).mpr ⟨by omega, ?_⟩
  have hmod : wrapAround m n + (m - wrapAround m n) ≡ n + (m - wrapAround m n) [MOD m] :=
    (wrapAround_modEq m n).add_right _
  rw [Nat.add_sub_cancel' hle] at hmod
  exact modEq_zero_iff_dvd.mp (hmod.symm.trans (by simp [ModEq]))

end Audhsos.Lib
