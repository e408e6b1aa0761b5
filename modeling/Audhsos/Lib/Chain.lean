import Mathlib.Data.List.Nodup
import Mathlib.Data.List.Basic

/-!
Intrusive linked lists, described by two functions `next` and `prev` on the type of members. `Chain`
reads one direction, `Linked` both. `Linked.insert` and `Linked.remove` take the links after the
update by what they answer on the members, so they fit any record that stores them.
-/

namespace Audhsos.Lib

open List

variable {ι : Type*} {next prev next' prev' : ι → Option ι} {l l₁ l₂ : List ι} {x y : ι}
  {e e' : Option ι}

/-- Every member of `l` links to the one after it, and the last to `e`. -/
def Chain (next : ι → Option ι) : List ι → Option ι → Prop
  | [], _ => True
  | a :: l, e => next a = l.head?.or e ∧ Chain next l e

@[simp] theorem chain_nil : Chain next [] e :=
  trivial

@[simp] theorem chain_cons : Chain next (x :: l) e ↔ next x = l.head?.or e ∧ Chain next l e :=
  Iff.rfl

theorem chain_append :
    Chain next (l₁ ++ l₂) e ↔ Chain next l₁ (l₂.head?.or e) ∧ Chain next l₂ e := by
  induction l₁ with
  | nil => simp
  | cons a l₁ ih => simp [ih, Option.or_assoc, and_assoc]

theorem Chain.congr (h : Chain next l e) (hnext : ∀ a ∈ l, next' a = next a) : Chain next' l e := by
  induction l with
  | nil => trivial
  | cons a l ih =>
    refine ⟨?_, ih h.2 fun b hb => hnext b (mem_cons_of_mem a hb)⟩
    rw [hnext a mem_cons_self]
    exact h.1

/-! ## Both directions -/

/-- The members of `l` are linked in both directions, in the order of `l`. -/
structure Linked (next prev : ι → Option ι) (l : List ι) : Prop where
  nodup : l.Nodup
  forward : Chain next l none
  backward : Chain prev l.reverse none

theorem linked_nil : Linked next prev [] :=
  ⟨nodup_nil, trivial, trivial⟩

theorem Linked.congr (h : Linked next prev l) (hnext : ∀ a ∈ l, next' a = next a)
    (hprev : ∀ a ∈ l, prev' a = prev a) : Linked next' prev' l :=
  ⟨h.nodup, h.forward.congr hnext, h.backward.congr fun a ha => hprev a (mem_reverse.mp ha)⟩

theorem Linked.next_mid (h : Linked next prev (l₁ ++ x :: l₂)) : next x = l₂.head? := by
  have := (chain_append.mp h.forward).2.1
  simpa using this

theorem Linked.prev_mid (h : Linked next prev (l₁ ++ x :: l₂)) : prev x = l₁.getLast? := by
  have hb := h.backward
  rw [reverse_append, reverse_cons, append_assoc, singleton_append] at hb
  have := (chain_append.mp hb).2.1
  simpa using this

section

variable (h : Linked next prev l)
include h

theorem Linked.next_mem (hx : x ∈ l) (hy : next x = some y) : y ∈ l := by
  obtain ⟨l₁, l₂, rfl⟩ := append_of_mem hx
  rw [h.next_mid] at hy
  exact mem_append_right l₁ (mem_cons_of_mem x (mem_of_head? hy))

theorem Linked.prev_mem (hx : x ∈ l) (hy : prev x = some y) : y ∈ l := by
  obtain ⟨l₁, l₂, rfl⟩ := append_of_mem hx
  rw [h.prev_mid] at hy
  exact mem_append_left _ (mem_of_getLast? hy)

theorem Linked.head_of_prev_none (hx : x ∈ l) (hp : prev x = none) : l.head? = some x := by
  obtain ⟨l₁, l₂, rfl⟩ := append_of_mem hx
  rw [h.prev_mid, getLast?_eq_none_iff] at hp
  simp [hp]

theorem Linked.prev_head (hx : l.head? = some x) : prev x = none := by
  obtain ⟨l₂, rfl⟩ := head?_eq_some_iff.mp hx
  rw [← nil_append (x :: l₂)] at h
  exact h.prev_mid

theorem Linked.next_last (hx : l.getLast? = some x) : next x = none := by
  obtain ⟨l₁, rfl⟩ := getLast?_eq_some_iff.mp hx
  exact h.next_mid

end

/-! ## Updates -/

variable [DecidableEq ι]

/-- Only the last member's link has to change for the chain to end elsewhere. -/
theorem Chain.relast (h : Chain next l e) (hl : l.Nodup)
    (hnext : ∀ a ∈ l, next' a = if l.getLast? = some a then e' else next a) : Chain next' l e' := by
  induction l with
  | nil => trivial
  | cons a l ih =>
    rw [nodup_cons] at hl
    cases l with
    | nil => simpa using hnext a
    | cons b l =>
      have hlast : (a :: b :: l).getLast? = (b :: l).getLast? := getLast?_cons_cons
      rw [hlast] at hnext
      have ha : (b :: l).getLast? ≠ some a := fun h => hl.1 (mem_of_getLast? h)
      refine ⟨?_, ih h.2 hl.2 fun c hc => hnext c (mem_cons_of_mem a hc)⟩
      rw [hnext a mem_cons_self, if_neg ha, h.1]
      simp

theorem Chain.insert (h : Chain next (l₁ ++ l₂) e) (hl : (l₁ ++ l₂).Nodup)
    (hx : next' x = l₂.head?.or e)
    (hnext : ∀ a ∈ l₁ ++ l₂, next' a = if l₁.getLast? = some a then some x else next a) :
    Chain next' (l₁ ++ x :: l₂) e := by
  rw [chain_append] at h ⊢
  have hdis := nodup_append.mp hl
  refine ⟨?_, hx, h.2.congr fun a ha => ?_⟩
  · exact h.1.relast hdis.1 fun a ha => hnext a (mem_append_left l₂ ha)
  · rw [hnext a (mem_append_right l₁ ha), if_neg]
    exact fun hlast => hdis.2.2 a (mem_of_getLast? hlast) a ha rfl

theorem Chain.remove (h : Chain next (l₁ ++ x :: l₂) e) (hl : (l₁ ++ x :: l₂).Nodup)
    (hnext : ∀ a ∈ l₁ ++ l₂,
      next' a = if l₁.getLast? = some a then l₂.head?.or e else next a) :
    Chain next' (l₁ ++ l₂) e := by
  rw [chain_append] at h ⊢
  have hdis := nodup_append.mp hl
  refine ⟨?_, h.2.2.congr fun a ha => ?_⟩
  · exact h.1.relast hdis.1 fun a ha => hnext a (mem_append_left l₂ ha)
  · rw [hnext a (mem_append_right l₁ ha), if_neg]
    exact fun hlast => hdis.2.2 a (mem_of_getLast? hlast) a (mem_cons_of_mem x ha) rfl

theorem Linked.insert (h : Linked next prev (l₁ ++ l₂)) (hx : x ∉ l₁ ++ l₂)
    (hxn : next' x = l₂.head?) (hxp : prev' x = l₁.getLast?)
    (hnext : ∀ a ∈ l₁ ++ l₂, next' a = if l₁.getLast? = some a then some x else next a)
    (hprev : ∀ a ∈ l₁ ++ l₂, prev' a = if l₂.head? = some a then some x else prev a) :
    Linked next' prev' (l₁ ++ x :: l₂) := by
  refine ⟨?_, h.forward.insert h.nodup (by simpa using hxn) hnext, ?_⟩
  · exact nodup_middle.mpr (nodup_cons.mpr ⟨hx, h.nodup⟩)
  · have hb := h.backward
    have hn := nodup_reverse.mpr h.nodup
    rw [reverse_append] at hb hn
    rw [reverse_append, reverse_cons, append_assoc, singleton_append]
    refine hb.insert hn (by simpa using hxp) fun a ha => ?_
    rw [hprev a (by simpa [or_comm] using ha), getLast?_reverse]

/-- Taking `x` out of the middle: the neighbours are linked to each other. -/
theorem Linked.remove_mid (h : Linked next prev (l₁ ++ x :: l₂))
    (hnext : ∀ a ∈ l₁ ++ l₂, next' a = if prev x = some a then next x else next a)
    (hprev : ∀ a ∈ l₁ ++ l₂, prev' a = if next x = some a then prev x else prev a) :
    Linked next' prev' (l₁ ++ l₂) := by
  rw [h.next_mid, h.prev_mid] at hnext hprev
  refine ⟨(nodup_cons.mp (nodup_middle.mp h.nodup)).2,
    h.forward.remove h.nodup (by simpa using hnext), ?_⟩
  have hb := h.backward
  have hn := nodup_reverse.mpr h.nodup
  rw [reverse_append, reverse_cons, append_assoc, singleton_append] at hb hn
  rw [reverse_append]
  refine hb.remove hn fun a ha => ?_
  rw [hprev a (by simpa [or_comm] using ha)]
  simp

section

variable (h : Linked next prev l) (hx : x ∈ l)
include h hx

theorem Linked.remove
    (hnext : ∀ a ∈ l, a ≠ x → next' a = if prev x = some a then next x else next a)
    (hprev : ∀ a ∈ l, a ≠ x → prev' a = if next x = some a then prev x else prev a) :
    Linked next' prev' (l.erase x) := by
  obtain ⟨l₁, l₂, hx₁, rfl, herase⟩ := exists_erase_eq hx
  rw [herase]
  have hne : ∀ a ∈ l₁ ++ l₂, a ≠ x := by
    rintro a ha rfl
    exact (nodup_cons.mp (nodup_middle.mp h.nodup)).1 ha
  have hmem : ∀ a ∈ l₁ ++ l₂, a ∈ l₁ ++ x :: l₂ := by
    intro a ha
    simp only [mem_append, mem_cons] at ha ⊢
    tauto
  exact h.remove_mid (fun a ha => hnext a (hmem a ha) (hne a ha))
    fun a ha => hprev a (hmem a ha) (hne a ha)

theorem Linked.head_erase : (l.erase x).head? = if prev x = none then next x else l.head? := by
  obtain ⟨l₁, l₂, hx₁, rfl, herase⟩ := exists_erase_eq hx
  rw [herase, h.prev_mid, h.next_mid]
  cases l₁ <;> simp

theorem Linked.last_erase :
    (l.erase x).getLast? = if next x = none then prev x else l.getLast? := by
  obtain ⟨l₁, l₂, hx₁, rfl, herase⟩ := exists_erase_eq hx
  rw [herase, h.prev_mid, h.next_mid]
  cases l₂ <;> simp

end

end Audhsos.Lib
