import Audhsos.Tcp.Parts
import Mathlib.Tactic.Ring

/-!
The retransmission timeout over any sequence of samples and expiries. The shift that doubles it
drops the bits that leave the word: the timeout is the doubled one cut off at the ceiling, or
nothing at all when every bit has left.
-/

namespace Audhsos.Tcp.Rto

def reset (_ : Rto) : Rto := new

/-- What happens to the estimate of a connection. -/
inductive Event where
  | sample (rtt : Duration)
  | backOff
  | reset

def Event.apply (rto : Rto) : Event → Rto
  | .sample rtt => rto.sample rtt
  | .backOff => rto.backOff
  | .reset => rto.reset

variable (events : List Event)

def run : Rto := events.foldl Event.apply new

/-- The shift is inside the width of the word and leaves no bit of the timeout in it. -/
def ShiftedOut (rto : Rto) : Prop := rto.attempts < 64 ∧ 2 ^ 64 ∣ rto.base * 2 ^ rto.attempts

instance (rto : Rto) : Decidable rto.ShiftedOut := inferInstanceAs (Decidable (_ ∧ _))

variable {rto : Rto}

/-! ## One timeout -/

theorem base_lt (rto : Rto) : rto.base < 2 ^ 26 :=
  lt_of_le_of_lt rto.base_le (by decide)

theorem base_pos (rto : Rto) : 0 < rto.base :=
  lt_of_lt_of_le (by decide) rto.base_ge

theorem pow_dvd_shifted {base attempts : Nat} (h : attempts < 64) :
    2 ^ attempts ∣ base * 2 ^ attempts % 2 ^ 64 :=
  (Nat.dvd_mod_iff (pow_dvd_pow 2 h.le)).mpr (Nat.dvd_mul_left _ _)

theorem maximum_le_shifted (h : rto.attempts < 64) (hbig : 38 < rto.attempts)
    (hleft : ¬ rto.ShiftedOut) : maximum ≤ rto.base * 2 ^ rto.attempts % 2 ^ 64 := by
  have hne : rto.base * 2 ^ rto.attempts % 2 ^ 64 ≠ 0 := fun hzero =>
    hleft ⟨h, Nat.dvd_of_mod_eq_zero hzero⟩
  have hpow : 2 ^ 39 ≤ 2 ^ rto.attempts := Nat.pow_le_pow_right (by decide) hbig
  have hle := Nat.le_of_dvd (Nat.pos_of_ne_zero hne) (pow_dvd_shifted h)
  exact le_trans (by decide) (le_trans hpow hle)

theorem get_eq (hleft : ¬ rto.ShiftedOut) :
    rto.get = min (rto.base * 2 ^ rto.attempts) maximum := by
  unfold get
  by_cases hsmall : rto.attempts ≤ 38
  · have hpow : 2 ^ rto.attempts ≤ 2 ^ 38 := Nat.pow_le_pow_right (by decide) hsmall
    have hlt : rto.base * 2 ^ rto.attempts < 2 ^ 64 :=
      calc rto.base * 2 ^ rto.attempts ≤ rto.base * 2 ^ 38 := Nat.mul_le_mul_left _ hpow
        _ < 2 ^ 26 * 2 ^ 38 := Nat.mul_lt_mul_of_pos_right rto.base_lt (by decide)
        _ = 2 ^ 64 := by decide
    rw [if_pos (show rto.attempts < 64 by omega), Nat.mod_eq_of_lt hlt]
  · -- from here on the doubled base is above the ceiling, in the word or out of it
    have hbig : 38 < rto.attempts := lt_of_not_ge hsmall
    have hpow : 2 ^ 39 ≤ 2 ^ rto.attempts := Nat.pow_le_pow_right (by decide) hbig
    have htrue : maximum ≤ rto.base * 2 ^ rto.attempts :=
      calc maximum ≤ 1 * 2 ^ 39 := by decide
        _ ≤ rto.base * 2 ^ rto.attempts := Nat.mul_le_mul rto.base_pos hpow
    rw [Nat.min_eq_right htrue]
    split
    next h => exact Nat.min_eq_right (maximum_le_shifted h hbig hleft)
    next => decide

theorem get_shiftedOut (h : rto.ShiftedOut) : rto.get = 0 := by
  unfold get
  rw [if_pos h.1, Nat.mod_eq_zero_of_dvd h.2]
  rfl

theorem get_le (rto : Rto) : rto.get ≤ maximum := Nat.min_le_right _ _

theorem minimum_le_get (hleft : ¬ rto.ShiftedOut) : minimum ≤ rto.get := by
  have hpos : 0 < 2 ^ rto.attempts := Nat.two_pow_pos _
  rw [get_eq hleft]
  exact Nat.le_min.mpr ⟨le_trans rto.base_ge (Nat.le_mul_of_pos_right _ hpos), by decide⟩

theorem get_le_backOff (hleft : ¬ rto.backOff.ShiftedOut) : rto.get ≤ rto.backOff.get := by
  by_cases hout : rto.ShiftedOut
  · rw [get_shiftedOut hout]
    exact Nat.zero_le _
  by_cases hfull : rto.attempts < u32Max
  · have hattempts : rto.backOff.attempts = rto.attempts + 1 := Nat.min_eq_left hfull
    rw [get_eq hout, get_eq hleft, hattempts]
    have hmono : rto.base * 2 ^ rto.attempts ≤ rto.base * 2 ^ (rto.attempts + 1) :=
      Nat.mul_le_mul_left _ (Nat.pow_le_pow_right (by decide) (Nat.le_succ _))
    exact Nat.le_min.mpr ⟨le_trans (Nat.min_le_left _ _) hmono, Nat.min_le_right _ _⟩
  -- the count of attempts stays at its largest value, far behind the width of the word
  have hget : rto.backOff.get = maximum := by
    have hwide : ¬ rto.backOff.attempts < 64 := by
      have hattempts : rto.backOff.attempts = min (rto.attempts + 1) u32Max := rfl
      have hmax : 64 ≤ u32Max := by decide
      omega
    unfold get
    rw [if_neg hwide]
    decide
  rw [hget]
  exact rto.get_le

/-! ## Every run -/

/-- In every run the timeout is at most the ceiling. It is below the floor, and an expiry shortens it,
exactly when the doubling leaves no bit of it in the word. -/
theorem run_timeout_bounded :
    (run events).get ≤ maximum ∧
    (minimum ≤ (run events).get ↔ ¬ (run events).ShiftedOut) ∧
    ((run events).get ≤ (run (events ++ [.backOff])).get ↔
      ((run (events ++ [.backOff])).ShiftedOut → (run events).ShiftedOut)) := by
  have hnext : run (events ++ [.backOff]) = (run events).backOff := by
    unfold run
    rw [List.foldl_append]
    rfl
  have hfloor : minimum ≤ (run events).get ↔ ¬ (run events).ShiftedOut := by
    refine ⟨fun hle hout => ?_, minimum_le_get⟩
    rw [get_shiftedOut hout] at hle
    exact absurd hle (by decide)
  refine ⟨get_le _, hfloor, fun hle hout => ?_, fun hkeeps => ?_⟩
  · rw [get_shiftedOut hout] at hle
    by_contra hleft
    exact absurd (le_trans (hfloor.mpr hleft) hle) (by decide)
  · by_cases hout : (run (events ++ [.backOff])).ShiftedOut
    · rw [get_shiftedOut (hkeeps hout)]
      exact Nat.zero_le _
    · rw [hnext] at hout ⊢
      exact get_le_backOff hout

/-- The timeout after two expiries. -/
theorem run_timeout_bounded_twice :
    ¬ (run [.backOff, .backOff]).ShiftedOut ∧ minimum ≤ (run [.backOff, .backOff]).get ∧
    (run [.backOff]).get ≤ (run [.backOff, .backOff]).get :=
  ⟨by decide, (run_timeout_bounded [.backOff, .backOff]).2.1.2 (by decide),
    (run_timeout_bounded [.backOff]).2.2.2 fun hout => absurd hout (by decide)⟩

/-- After fifty-seven expiries the timeout stands at the ceiling, and one more makes it nothing. -/
theorem run_timeout_vanishes :
    (run (List.replicate 57 .backOff)).get = maximum ∧
    (run (List.replicate 58 .backOff)).get = 0 := by
  decide +kernel

end Audhsos.Tcp.Rto
