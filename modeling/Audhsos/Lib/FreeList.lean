import Mathlib.Data.Finset.Card
import Audhsos.Lib.Chain

/-!
Slots handed out from a table of fixed size: from a first-in first-out list of freed slots, and only
when that is empty from the high-water mark up. `FreeList` ties the list, the mark and the occupancy
together; the lemmas are its three transitions, with the links after each given by what they answer,
as in `Linked`. `Occupied` counts the slots in use.
-/

namespace Audhsos.Lib

open List

/-- `l` are the freed slots below `high`, in the order they are handed out again. -/
structure FreeList (next : Nat → Option Nat) (head tail : Option Nat) (high size : Nat)
    (free : Nat → Prop) (l : List Nat) : Prop where
  nodup : l.Nodup
  chain : Chain next l none
  head_eq : head = l.head?
  tail_eq : tail = l.getLast?
  mem_iff : ∀ i, i ∈ l ↔ i < high ∧ free i
  above : ∀ i, high ≤ i → free i
  high_le : high ≤ size

namespace FreeList

variable {next next' : Nat → Option Nat} {head tail : Option Nat} {high size x : Nat}
  {free free' : Nat → Prop} {l : List Nat}

theorem new (size : Nat) (hfree : ∀ i, free i) : FreeList next none none 0 size free [] where
  nodup := nodup_nil
  chain := trivial
  head_eq := rfl
  tail_eq := rfl
  mem_iff := by simp
  above := fun i _ => hfree i
  high_le := Nat.zero_le size

section

variable (h : FreeList next head tail high size free l)
include h

theorem congr (hnext : ∀ i ∈ l, next' i = next i) (hfree : ∀ i, free' i ↔ free i) :
    FreeList next' head tail high size free' l :=
  { h with
    chain := h.chain.congr hnext
    mem_iff := fun i => by rw [hfree, h.mem_iff]
    above := fun i hi => (hfree i).mpr (h.above i hi) }

theorem head_lt (hx : head = some x) : x < high ∧ free x :=
  (h.mem_iff x).mp (mem_of_head? (h.head_eq ▸ hx))

theorem take_head (hx : head = some x)
    (hnext : ∀ i ∈ l, i ≠ x → next' i = next i) (hfree : ∀ i, free' i ↔ free i ∧ i ≠ x) :
    FreeList next' (next x) (if next x = none then none else tail) high size free' l.tail := by
  obtain ⟨m, rfl⟩ := head?_eq_some_iff.mp (h.head_eq ▸ hx)
  have hnodup := nodup_cons.mp h.nodup
  have hnextx : next x = m.head? := by simpa using h.chain.1
  have hne : ∀ i ∈ m, i ≠ x := fun i hi hix => hnodup.1 (hix ▸ hi)
  have hlt := h.head_lt hx
  constructor
  · exact hnodup.2
  · exact h.chain.2.congr fun i hi => hnext i (mem_cons_of_mem x hi) (hne i hi)
  · exact hnextx
  · rw [hnextx, h.tail_eq]
    cases m <;> simp
  · intro i
    have hmem := h.mem_iff i
    rw [mem_cons] at hmem
    rw [hfree, ← and_assoc, ← hmem]
    constructor
    · exact fun hi => ⟨Or.inr hi, hne i hi⟩
    · rintro ⟨rfl | hi, hix⟩
      · exact absurd rfl hix
      · exact hi
  · intro i hi
    exact (hfree i).mpr ⟨h.above i hi, by omega⟩
  · exact h.high_le

end

theorem take_fresh (h : FreeList next none tail high size free l) (hlt : high < size)
    (hfree : ∀ i, free' i ↔ free i ∧ i ≠ high) :
    FreeList next' none tail (high + 1) size free' [] := by
  have hl : l = [] := head?_eq_none_iff.mp h.head_eq.symm
  subst hl
  constructor
  · exact nodup_nil
  · trivial
  · rfl
  · exact h.tail_eq
  · intro i
    have hmem := h.mem_iff i
    rw [hfree]
    simp only [not_mem_nil, false_iff, not_and] at hmem
    simp only [not_mem_nil, false_iff]
    rintro ⟨hi, hf, hne⟩
    exact hmem (by omega) hf
  · intro i hi
    exact (hfree i).mpr ⟨h.above i (by omega), by omega⟩
  · omega

theorem put (h : FreeList next head tail high size free l) (hx : x < high) (hheld : ¬ free x)
    (hnextx : next' x = none) (hnext : ∀ i ∈ l, next' i = if tail = some i then some x else next i)
    (hfree : ∀ i, free' i ↔ free i ∨ i = x) :
    FreeList next' (if tail = none then some x else head) (some x) high size free' (l ++ [x]) := by
  have hxl : x ∉ l := fun hmem => hheld ((h.mem_iff x).mp hmem).2
  constructor
  · exact nodup_append.mpr ⟨h.nodup, nodup_singleton x, by
      rintro a ha b hb rfl
      exact hxl (mem_singleton.mp hb ▸ ha)⟩
  · rw [h.tail_eq] at hnext
    have hchain : Chain next (l ++ []) none := by simpa using h.chain
    exact hchain.insert (by simpa using h.nodup) (by simpa using hnextx) (by simpa using hnext)
  · rw [h.tail_eq, h.head_eq]
    cases l with
    | nil => simp
    | cons a l => simp [getLast?_cons]
  · simp
  · intro i
    rw [mem_append, mem_singleton, h.mem_iff, hfree]
    constructor
    · rintro (⟨hi, hf⟩ | rfl)
      · exact ⟨hi, Or.inl hf⟩
      · exact ⟨hx, Or.inr rfl⟩
    · rintro ⟨hi, hf | rfl⟩
      · exact Or.inl ⟨hi, hf⟩
      · exact Or.inr rfl
  · intro i hi
    exact (hfree i).mpr (Or.inl (h.above i hi))
  · exact h.high_le

end FreeList

section Occupied

variable {n i : Nat} {held held' : Nat → Prop} [DecidablePred held] [DecidablePred held']

theorem card_range_filter_le : ((Finset.range n).filter held).card ≤ n := by
  have h := Finset.card_filter_le (Finset.range n) held
  rwa [Finset.card_range] at h

theorem card_range_filter_insert (hi : i < n) (hfree : ¬ held i)
    (h : ∀ j, held' j ↔ held j ∨ j = i) :
    ((Finset.range n).filter held').card = ((Finset.range n).filter held).card + 1 := by
  have heq : (Finset.range n).filter held' = insert i ((Finset.range n).filter held) := by
    ext j
    simp only [Finset.mem_filter, Finset.mem_range, Finset.mem_insert, h]
    by_cases hj : j = i
    · simp [hj, hi]
    · simp [hj]
  rw [heq, Finset.card_insert_of_notMem]
  simp [hfree]

theorem card_range_filter_erase (hi : i < n) (hheld : held i) (h : ∀ j, held' j ↔ held j ∧ j ≠ i) :
    ((Finset.range n).filter held').card = ((Finset.range n).filter held).card - 1 := by
  have heq : (Finset.range n).filter held' = ((Finset.range n).filter held).erase i := by
    ext j
    simp only [Finset.mem_filter, Finset.mem_range, Finset.mem_erase, h]
    tauto
  rw [heq, Finset.card_erase_of_mem]
  simp [hi, hheld]

end Occupied

end Audhsos.Lib
