import Audhsos.Paging.Mapper

/-!
What the constructors of an entry put into its bits, and what reading it gives back.
-/

namespace Audhsos.Paging.Entry

open BitVec

variable {entry : Entry}

/-! ## Bits -/

theorem getLsbD_flag (flag : Nat) {i : Nat} (hi : i < 64) :
    (1#64 <<< flag).getLsbD i = decide (i = flag) := by
  by_cases hf : i = flag
  · subst hf
    simp [hi]
  · simp [getLsbD_shiftLeft, hf]
    omega

theorem getLsbD_withFlag (entry : Entry) {flag : Nat} (set : Bool) (h : flag < 64) (i : Nat) :
    (withFlag entry flag set).getLsbD i = if i = flag then set else entry.getLsbD i := by
  by_cases hi : i < 64
  · unfold withFlag
    cases set
    · rw [if_neg Bool.false_ne_true, getLsbD_and, getLsbD_not, getLsbD_flag _ hi]
      by_cases hf : i = flag <;> simp [hf, hi]
    · rw [if_pos rfl, getLsbD_or, getLsbD_flag _ hi]
      by_cases hf : i = flag <;> simp [hf]
  · rw [getLsbD_of_ge _ _ (by omega), if_neg (by omega), getLsbD_of_ge _ _ (by omega)]

theorem getLsbD_start (frame : Frame) {i : Nat} (hi : i < 64) :
    (start frame).getLsbD i = (decide (12 ≤ i) && frame.getLsbD (i - 12)) := by
  unfold start
  by_cases h : i < 12
  · simp [h]
  · simp [h, hi, show 12 ≤ i by omega]

theorem getLsbD_reservedMask (i : Nat) : reservedMask.getLsbD i = decide (52 ≤ i ∧ i < 63) := by
  by_cases hi : i < 64
  · have hbits : ∀ j : Fin 64, reservedMask.getLsbD j = decide (52 ≤ j.val ∧ j.val < 63) := by
      decide
    exact hbits ⟨i, hi⟩
  · rw [getLsbD_of_ge _ _ (by omega)]
    symm
    rw [decide_eq_false_iff_not]
    omega

theorem and_reservedMask (entry : Entry) :
    entry &&& reservedMask = 0 ↔ ∀ i, 52 ≤ i → i < 63 → entry.getLsbD i = false := by
  constructor
  · intro h i hlow hhigh
    have hbit := congrArg (getLsbD · i) h
    simpa [getLsbD_reservedMask, hlow, hhigh] using hbit
  · intro h
    apply eq_of_getLsbD_eq
    intro i hi
    rw [getLsbD_and, getLsbD_reservedMask]
    by_cases hin : 52 ≤ i ∧ i < 63
    · simp [h i hin.1 hin.2]
    · simp [hin]

theorem validate_ok {level : Nat} (hbits : ∀ i, 52 ≤ i → i < 63 → entry.getLsbD i = false)
    (hhuge : level = 0 ∨ has entry huge = false) : validate entry level = .ok () := by
  unfold validate
  rw [(and_reservedMask entry).2 hbits]
  rcases hhuge with h | h <;> simp [h]

theorem validate_zero (hpresent : isPresent entry = true) :
    validate entry 0 = .ok () ↔ ∀ i, 52 ≤ i → i < 63 → entry.getLsbD i = false := by
  constructor
  · intro h
    rw [← and_reservedMask]
    by_contra hne
    unfold validate at h
    simp only [hpresent, not_true_eq_false, if_false, if_pos hne] at h
    cases h
  · exact fun h => validate_ok h (.inl rfl)

theorem frame_eq_some {f : Frame} (hpresent : isPresent entry = true)
    (h : ∀ i, i < 40 → entry.getLsbD (12 + i) = f.getLsbD i) : frame entry = some f := by
  unfold frame
  rw [if_pos hpresent]
  congr 1
  apply eq_of_getLsbD_eq
  intro i hi
  rw [getLsbD_extractLsb', h i hi]
  simp [hi]

theorem frame_isSome (entry : Entry) : (frame entry).isSome = isPresent entry := by
  unfold frame
  split <;> simp_all

/-! ## The empty entry -/

@[simp] theorem isPresent_empty : isPresent empty = false := by decide

@[simp] theorem frame_empty : frame empty = none := by decide

@[simp] theorem validate_empty (level : Nat) : validate empty level = .ok () := by
  simp [validate]

/-! ## Entries of tables -/

variable (f : Frame)

theorem getLsbD_table (i : Nat) :
    (table f).getLsbD i = if i < 3 then true else (start f).getLsbD i := by
  unfold table
  rw [getLsbD_withFlag _ _ (by decide), getLsbD_withFlag _ _ (by decide),
    getLsbD_withFlag _ _ (by decide)]
  unfold user writable present
  by_cases h : i < 3
  · have hcases : i = 0 ∨ i = 1 ∨ i = 2 := by omega
    rcases hcases with rfl | rfl | rfl <;> rfl
  · simp [h, show i ≠ 2 by omega, show i ≠ 1 by omega, show i ≠ 0 by omega]

@[simp] theorem isPresent_table : isPresent (table f) = true := by
  unfold isPresent has present
  rw [getLsbD_table]
  rfl

@[simp] theorem frame_table : frame (table f) = some f := by
  refine frame_eq_some (isPresent_table f) fun i hi => ?_
  rw [getLsbD_table, if_neg (by omega), getLsbD_start _ (by omega)]
  simp

@[simp] theorem validate_table (level : Nat) : validate (table f) level = .ok () := by
  refine validate_ok (fun i hlow hhigh => ?_) (.inr ?_)
  · rw [getLsbD_table, if_neg (by omega), getLsbD_start _ (by omega),
      getLsbD_of_ge _ _ (show 40 ≤ i - 12 by omega), Bool.and_false]
  · unfold has huge
    rw [getLsbD_table, if_neg (by decide), getLsbD_start _ (by decide)]
    rfl

/-! ## Permissions and leaves -/

theorem getLsbD_withPermissions (entry : Entry) (perms : Permissions) (i : Nat) :
    (withPermissions entry perms).getLsbD i =
      if i = noExecute then !perms.execute
      else if i = user then perms.user
      else if i = writable then perms.write
      else entry.getLsbD i := by
  unfold withPermissions
  rw [getLsbD_withFlag _ _ (by decide), getLsbD_withFlag _ _ (by decide),
    getLsbD_withFlag _ _ (by decide)]

@[simp] theorem isPresent_withPermissions (entry : Entry) (perms : Permissions) :
    isPresent (withPermissions entry perms) = isPresent entry := by
  unfold isPresent has present
  rw [getLsbD_withPermissions]
  rfl

section

variable (entry : Entry) (perms : Permissions)

theorem frame_withPermissions : frame (withPermissions entry perms) = frame entry := by
  unfold frame
  rw [isPresent_withPermissions]
  congr 2
  apply eq_of_getLsbD_eq
  intro i hi
  rw [getLsbD_extractLsb', getLsbD_extractLsb', getLsbD_withPermissions]
  unfold noExecute user writable
  rw [if_neg (by omega), if_neg (by omega), if_neg (by omega)]

theorem permissions_withPermissions : permissions (withPermissions entry perms) = perms := by
  unfold permissions has
  rw [getLsbD_withPermissions, getLsbD_withPermissions, getLsbD_withPermissions]
  unfold noExecute user writable
  cases perms
  simp

end

theorem validate_withPermissions (perms : Permissions)
    (hpresent : isPresent entry = true) (h : validate entry 0 = .ok ()) :
    validate (withPermissions entry perms) 0 = .ok () := by
  rw [validate_zero (by simpa using hpresent)]
  rw [validate_zero hpresent] at h
  intro i hlow hhigh
  rw [getLsbD_withPermissions]
  unfold noExecute user writable
  rw [if_neg (by omega), if_neg (by omega), if_neg (by omega)]
  exact h i hlow hhigh

section

variable (f : Frame) (perms : Permissions) (cache : CachePolicy) (isGlobal : Bool)

theorem getLsbD_leaf (i : Nat) :
    (leaf f perms cache isGlobal).getLsbD i =
      if i = writeThrough then decide (cache = .uncached)
      else if i = noCache then decide (cache = .uncached)
      else if i = global then isGlobal
      else if i = noExecute then !perms.execute
      else if i = user then perms.user
      else if i = writable then perms.write
      else if i = present then true
      else (start f).getLsbD i := by
  unfold leaf
  rw [getLsbD_withFlag _ _ (by decide), getLsbD_withFlag _ _ (by decide),
    getLsbD_withFlag _ _ (by decide), getLsbD_withPermissions, getLsbD_withFlag _ _ (by decide)]

/-- The bits of a leaf that are neither flags nor part of the address are zero. -/
theorem getLsbD_leaf_high {i : Nat} (hlow : 9 ≤ i) (hhigh : i < 63) :
    (leaf f perms cache isGlobal).getLsbD i = (start f).getLsbD i := by
  rw [getLsbD_leaf]
  unfold writeThrough noCache global noExecute user writable present
  rw [if_neg (by omega), if_neg (by omega), if_neg (by omega), if_neg (by omega),
    if_neg (by omega), if_neg (by omega), if_neg (by omega)]

end

@[simp] theorem isPresent_leaf (f : Frame) (perms : Permissions) (cache : CachePolicy)
    (isGlobal : Bool) : isPresent (leaf f perms cache isGlobal) = true := by
  unfold isPresent has
  rw [getLsbD_leaf]
  rfl

section

variable (f : Frame) (perms : Permissions) (cache : CachePolicy) (isGlobal : Bool)

theorem frame_leaf : frame (leaf f perms cache isGlobal) = some f := by
  refine frame_eq_some (isPresent_leaf f perms cache isGlobal) fun i hi => ?_
  rw [getLsbD_leaf_high _ _ _ _ (by omega) (by omega), getLsbD_start _ (by omega)]
  simp

theorem permissions_leaf : permissions (leaf f perms cache isGlobal) = perms := by
  unfold permissions has
  rw [getLsbD_leaf, getLsbD_leaf, getLsbD_leaf]
  unfold writeThrough noCache global noExecute user writable present
  cases perms
  simp

theorem validate_leaf : validate (leaf f perms cache isGlobal) 0 = .ok () := by
  refine validate_ok (fun i hlow hhigh => ?_) (.inl rfl)
  rw [getLsbD_leaf_high _ _ _ _ (by omega) (by omega), getLsbD_start _ (by omega),
    getLsbD_of_ge _ _ (show 40 ≤ i - 12 by omega), Bool.and_false]

end

end Audhsos.Paging.Entry
