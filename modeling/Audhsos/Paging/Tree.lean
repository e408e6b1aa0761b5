import Mathlib.Tactic.IntervalCases
import Audhsos.Paging.EntrySpec

/-!
The tables as a tree. A table is named by its path, the indices from the root to it, the last first;
at level `l` it has length `3 - l`. `Rep` says that the tables in the frames are the tree `node`,
and that the frames lent are those of the tree.
-/

namespace Audhsos.Paging

open Lib Mapper List

abbrev Path := List (Fin 512)

/-- The frame of the table at a path. -/
abbrev Nodes := Path → Option Frame

/-! ## The way to a page -/

/-- The path of the table of the level `level` on the way to a page. -/
def above (page : Page) (level : Nat) : Path :=
  (range' (level + 1) (3 - level)).map (index · page)

variable {level : Nat} (page : Page)

theorem above_of_lt (h : level < 3) :
    above page level = index (level + 1) page :: above page (level + 1) := by
  unfold above
  rw [show 3 - level = 3 - (level + 1) + 1 by omega, range'_succ, map_cons]

theorem length_above (level : Nat) : (above page level).length = 3 - level := by
  simp [above]

theorem above_suffix {low high : Nat} (h : low ≤ high) : above page high <:+ above page low := by
  have hdrop : above page high = (above page low).drop (high - low) := by
    unfold above
    rw [← map_drop, drop_range']
    congr 2 <;> omega
  rw [hdrop]
  exact drop_suffix _ _

theorem page_ext {p q : Page} (habove : above p 0 = above q 0) (hindex : index 0 p = index 0 q) :
    p = q := by
  have hp := p.isLt
  have hq := q.isLt
  simp only [above, range', Nat.reduceSub, Nat.reduceAdd, map_cons, map_nil,
    List.cons.injEq, index, Fin.mk.injEq, and_true] at habove hindex
  apply BitVec.eq_of_toNat_eq
  omega

variable (i₃ i₂ i₁ i₀ : Fin 512)

def pageOf : Page :=
  BitVec.ofNat 36 (((i₃ * 512 + i₂) * 512 + i₁) * 512 + i₀ : Nat)

theorem index_pageOf :
    above (pageOf i₃ i₂ i₁ i₀) 0 = [i₁, i₂, i₃] ∧ index 0 (pageOf i₃ i₂ i₁ i₀) = i₀ := by
  have hpage : (pageOf i₃ i₂ i₁ i₀).toNat =
      ((i₃.val * 512 + i₂.val) * 512 + i₁.val) * 512 + i₀.val := by
    unfold pageOf
    rw [BitVec.toNat_ofNat, Nat.mod_eq_of_lt (by omega)]
  simp only [above, range', Nat.reduceSub, Nat.reduceAdd, map_cons, map_nil,
    List.cons.injEq, index, Fin.ext_iff, and_true, hpage]
  omega

theorem isUser_iff : isUser page = true ↔ (index 3 page).val < 256 := by
  have hp := page.isLt
  change isUser page = true ↔ page.toNat / 512 ^ 3 % 512 < 256
  unfold isUser
  rw [Bool.not_eq_true', BitVec.getLsbD, Nat.testBit_eq_decide_div_mod_eq, decide_eq_false_iff_not]
  omega

/-! ## The tree in the frames -/

/-- What a table at a path holds: above the leaves exactly the tables of the tree, and among the
leaves only entries that can be read. -/
def Holds (node : Nodes) (path : Path) (table : Table) : Prop :=
  (path.length < 3 → ∀ i, table i = (node (i :: path)).elim Entry.empty Entry.table) ∧
  (path.length = 3 → ∀ i, Entry.validate (table i) 0 = .ok ())

structure Rep (root : Frame) (s : Memory) (node : Nodes) : Prop where
  root : node [] = some root
  injective : ∀ p q f, node p = some f → node q = some f → p = q
  parent : ∀ i p, node p = none → node (i :: p) = none
  depth : ∀ p f, node p = some f → p.length ≤ 3
  holds : ∀ p f, node p = some f → ∃ table, s.tables f = some table ∧ Holds node p table
  nodup : s.lent.Nodup
  lent : ∀ f, f ∈ s.lent ↔ ∃ p, node p = some f

/-- The table at a path, if there is one, has an entry that is present. -/
def Busy (s : Memory) (node : Nodes) (path : Path) : Prop :=
  ∀ f table, node path = some f → s.tables f = some table →
    ∃ i, Entry.isPresent (table i) = true

/-- Every table below the root has an entry, but for the one at `but`. -/
def BusyBut (but : Path) (s : Memory) (node : Nodes) : Prop :=
  ∀ p, p ≠ [] → p ≠ but → Busy s node p

def SameTranslation (root : Frame) (s s' : Memory) : Prop :=
  ∀ page, translate root page s' = translate root page s

theorem readEntry_ok {tables : Frame → Option Table} {f : Frame} {table : Table}
    {i : Fin 512} (htable : tables f = some table)
    (hvalid : Entry.validate (table i) level = .ok ()) :
    readEntry tables f level i = .ok (table i) := by
  simp only [readEntry, htable, hvalid]

namespace Rep

variable {root : Frame} {s s' : Memory} {node : Nodes} {p : Path} {f : Frame}

section

variable (h : Rep root s node) {i : Fin 512}
include h

theorem parent_some (hf : node (i :: p) = some f) : ∃ g, node p = some g := by
  cases hp : node p with
  | some g => exact ⟨g, rfl⟩
  | none => rw [h.parent i p hp] at hf; cases hf

theorem length_lt (hf : node (i :: p) = some f) : p.length < 3 :=
  h.depth (i :: p) f hf

theorem none_below {p q : Path} (hp : node p = none) (hpq : p <:+ q) : node q = none := by
  obtain ⟨t, rfl⟩ := hpq
  induction t with
  | nil => exact hp
  | cons i t ih => exact h.parent i _ ih

theorem readEntry_above {page : Page} {level : Nat} (hlevel : level + 1 ≤ 3)
    (hf : node (above page (level + 1)) = some f) :
    ∃ entry, readEntry s.tables f (level + 1) (index (level + 1) page) = .ok entry ∧
      Entry.frame entry = node (above page level) := by
  have hlen : (above page (level + 1)).length < 3 := by rw [length_above]; omega
  obtain ⟨table, htable, hholds⟩ := h.holds _ f hf
  rw [above_of_lt page (by omega)]
  refine ⟨table _, readEntry_ok htable ?_, ?_⟩
  · rw [hholds.1 hlen]
    cases node (_ :: _) <;> simp
  · rw [hholds.1 hlen]
    cases node (_ :: _) <;> simp

theorem readEntry_leaf {page : Page} (hf : node (above page 0) = some f) :
    ∃ table, s.tables f = some table ∧
      readEntry s.tables f 0 (index 0 page) = .ok (table (index 0 page)) ∧
      Entry.validate (table (index 0 page)) 0 = .ok () := by
  obtain ⟨table, htable, hholds⟩ := h.holds _ f hf
  have hvalid := hholds.2 (length_above page 0) (index 0 page)
  exact ⟨table, htable, readEntry_ok htable hvalid, hvalid⟩

end

/-! ## Translating -/

/-- What the leaf table of a page says about it. -/
def leafOf (s : Memory) (node : Nodes) (page : Page) : Option (Frame × Permissions) :=
  (node (above page 0)).bind fun f => (s.tables f).bind fun table =>
    (Entry.frame (table (index 0 page))).map fun frame =>
      (frame, Entry.permissions (table (index 0 page)))

theorem translateLoop_eq (h : Rep root s node) (page : Page) (level : Nat) (f : Frame)
    (hlevel : level ≤ 3) (hf : node (above page level) = some f) :
    translateLoop s.tables page level f = leafOf s node page := by
  induction level generalizing f with
  | zero =>
    obtain ⟨table, htable, hread, -⟩ := h.readEntry_leaf hf
    unfold leafOf
    rw [hf]
    simp [translateLoop, hread, htable, Except.toOption, Option.map_eq_bind]
  | succ level ih =>
    obtain ⟨entry, hread, hnext⟩ := h.readEntry_above hlevel hf
    simp only [translateLoop, hread, Except.toOption, Option.bind_eq_bind, Option.bind_some, hnext]
    cases hnode : node (above page level) with
    | some g => exact ih g (by omega) hnode
    | none =>
      -- without a table here there is none at the leaves
      have hleaf : node (above page 0) = none :=
        h.none_below hnode (above_suffix page (Nat.zero_le level))
      unfold leafOf
      rw [hleaf]
      rfl

theorem translate_eq (h : Rep root s node) (page : Page) :
    translate root page s = leafOf s node page :=
  h.translateLoop_eq page 3 root (le_refl 3) h.root

end Rep

end Audhsos.Paging
