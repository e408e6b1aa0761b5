import Mathlib.Logic.Equiv.Basic
import Mathlib.Order.Lattice

/-!
Binary heaps in an array. The first `len` positions are in heap order when no key is below that of
its parent. While a position is moved up or down, the order holds around it (`Around`): everywhere
else, and from its parent to its children. An exchange moves the exception along.
-/

namespace Audhsos.Lib

open Equiv

def parent (i : Nat) : Nat := (i - 1) / 2

theorem parent_lt {i : Nat} (hi : 0 < i) : parent i < i := by
  unfold parent
  omega

theorem parent_eq_iff {i h : Nat} (hi : 0 < i) : parent i = h ↔ i = 2 * h + 1 ∨ i = 2 * h + 2 := by
  unfold parent
  omega

theorem swap_apply {κ : Type} (key : Nat → κ) (a b i : Nat) :
    (key ∘ swap a b) i = if i = a then key b else if i = b then key a else key i := by
  unfold Function.comp
  by_cases ha : i = a
  · rw [if_pos ha, ha, swap_apply_left]
  · by_cases hb : i = b
    · rw [if_neg ha, if_pos hb, hb, swap_apply_right]
    · rw [if_neg ha, if_neg hb, swap_apply_of_ne_of_ne ha hb]

section

variable {κ : Type} [LinearOrder κ] {key : Nat → κ} {len h c : Nat}

variable (key)

/-- No key is below that of its parent. -/
def Heaped (len : Nat) : Prop := ∀ i, 0 < i → i < len → key (parent i) ≤ key i

/-- The keys are in order but for the position `h`, which may be too low or too high. -/
structure Around (key : Nat → κ) (len h : Nat) : Prop where
  other : ∀ i, 0 < i → i < len → i ≠ h → parent i ≠ h → key (parent i) ≤ key i
  across : ∀ i, 0 < i → i < len → parent i = h → 0 < h → key (parent h) ≤ key i

/-- The key at `h` is not below that of its parent. -/
def AboveOk (h : Nat) : Prop := 0 < h → key (parent h) ≤ key h

/-- The key at `h` is not above that of a child. -/
def BelowOk (len h : Nat) : Prop :=
  ∀ i, 0 < i → i < len → parent i = h → key h ≤ key i

variable {key}

theorem Around.heaped (ha : Around key len h) (habove : AboveOk key h)
    (hbelow : BelowOk key len h) : Heaped key len := by
  intro i hi hlt
  by_cases hih : i = h
  · subst hih
    exact habove hi
  · by_cases hp : parent i = h
    · rw [hp]
      exact hbelow i hi hlt hp
    · exact ha.other i hi hlt hih hp

theorem Heaped.root_le (hh : Heaped key len) (i : Nat) (hi : i < len) : key 0 ≤ key i := by
  induction i using Nat.strongRecOn with
  | ind i ih =>
    by_cases h0 : i = 0
    · rw [h0]
    · have hpos : 0 < i := Nat.pos_of_ne_zero h0
      have hlt := parent_lt hpos
      exact (ih _ hlt (hlt.trans hi)).trans (hh i hpos hi)

/-! ## Moving a position -/

theorem Around.up (ha : Around key len h) (h0 : 0 < h) (hlt : key h < key (parent h)) :
    Around (key ∘ swap h (parent h)) len (parent h) ∧
      BelowOk (key ∘ swap h (parent h)) len (parent h) := by
  have hp := parent_lt h0
  have hbelow : BelowOk (key ∘ swap h (parent h)) len (parent h) := by
    intro i hi hil hpi
    have hne : i ≠ parent h := fun heq => by
      have := parent_lt hi
      omega
    rw [swap_apply, swap_apply, if_neg hp.ne, if_pos rfl]
    by_cases hih : i = h
    · rw [if_pos hih]
      exact hlt.le
    · rw [if_neg hih, if_neg hne]
      -- the other child of the parent
      exact hlt.le.trans (hpi ▸ ha.other i hi hil hih fun heq => by omega)
  refine ⟨⟨fun i hi hil hip hpi => ?_, fun i hi hil hpi hp0 => ?_⟩, hbelow⟩
  · have hih : i ≠ h := fun heq => hpi (heq ▸ rfl)
    rw [swap_apply, swap_apply, if_neg hih, if_neg hip, if_neg hpi]
    by_cases hph : parent i = h
    · rw [if_pos hph]
      exact ha.across i hi hil hph h0
    · rw [if_neg hph]
      exact ha.other i hi hil hih hph
  · have hpp := parent_lt hp0
    have hne : i ≠ parent h := fun heq => by
      have := parent_lt hi
      omega
    have hpar : key (parent (parent h)) ≤ key (parent h) := by
      refine ha.other (parent h) hp0 ?_ hp.ne fun heq => by omega
      have := parent_lt hi
      omega
    rw [swap_apply, swap_apply, if_neg (by omega), if_neg hpp.ne]
    by_cases hih : i = h
    · rw [if_pos hih]
      exact hpar
    · rw [if_neg hih, if_neg hne]
      exact hpar.trans (hpi ▸ ha.other i hi hil hih fun heq => by omega)

theorem Around.down (ha : Around key len h) (habove : AboveOk key h) (hc : c < len)
    (hpc : parent c = h) (hc0 : 0 < c)
    (hleast : ∀ i, 0 < i → i < len → parent i = h → key c ≤ key i) (hlt : key c < key h) :
    Around (key ∘ swap h c) len c ∧ AboveOk (key ∘ swap h c) c := by
  have hhc : h < c := hpc ▸ parent_lt hc0
  constructor
  · refine ⟨fun i hi hil hic hpi => ?_, fun i hi hil hpi _ => ?_⟩
    · rw [swap_apply, swap_apply, if_neg hic, if_neg hpi]
      by_cases hih : i = h
      · subst hih
        have hself : parent i ≠ i := (parent_lt hi).ne
        rw [if_pos rfl, if_neg hself]
        exact ha.across c hc0 hc hpc hi
      · rw [if_neg hih]
        by_cases hph : parent i = h
        · rw [if_pos hph]
          exact hleast i hi hil hph
        · rw [if_neg hph]
          exact ha.other i hi hil hih hph
    · have hci : c < i := hpi ▸ parent_lt hi
      rw [swap_apply, swap_apply, hpc, if_pos rfl, if_neg (by omega), if_neg hci.ne']
      exact hpi ▸ ha.other i hi hil (by omega) (by omega)
  · intro _
    rw [swap_apply, swap_apply, hpc, if_pos rfl, if_neg hhc.ne', if_pos rfl]
    exact hlt.le

end

end Audhsos.Lib
