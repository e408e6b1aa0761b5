import Audhsos.Paging.Tree

/-!
The three ways the mapper changes the tree: it writes a leaf, it hangs an empty table below
another one, and it takes a table without entries away.
-/

namespace Audhsos.Paging

open Lib Function Option

theorem update_eq_some {node : Nodes} {p q : Path} {v : Option Frame} {f : Frame} :
    update node p v q = some f ↔ q = p ∧ v = some f ∨ q ≠ p ∧ node q = some f := by
  by_cases h : q = p <;> simp [h]

namespace Holds

variable {node : Nodes} {p q : Path} {table : Table} {i : Fin 512} {v : Option Frame}

theorem update_child (h : Holds node p table) (hp : p.length < 3) :
    Holds (update node (i :: p) v) p (update table i (v.elim Entry.empty Entry.table)) := by
  refine ⟨fun _ j => ?_, fun hlen => by omega⟩
  by_cases hj : j = i
  · rw [hj, update_self, update_self]
  · rw [update_of_ne hj, update_of_ne (by simp [hj]), h.1 hp]

theorem update_other (h : Holds node q table) (hne : q ≠ p) :
    Holds (update node (i :: p) v) q table := by
  refine ⟨fun hlt j => ?_, h.2⟩
  rw [update_of_ne (by simp [hne]), h.1 hlt]

end Holds

namespace Rep

variable {root : Frame} {s : Memory} {node : Nodes}

theorem frame_ne (h : Rep root s node) {p q : Path} {f g : Frame} (hp : node p = some f)
    (hq : node q = some g) (hne : q ≠ p) : g ≠ f := by
  rintro rfl
  exact hne (h.injective q p g hq hp)

theorem tables_setTable_self (f : Frame) (table : Table) :
    (setTable f table s).tables f = some table :=
  update_self ..

theorem tables_setTable_of_ne {f g : Frame} (table : Table) (hne : g ≠ f) :
    (setTable f table s).tables g = s.tables g :=
  update_of_ne hne ..

/-! ## Writing a leaf -/

section Leaf

variable {page : Page} {f : Frame} {table : Table} {entry : Entry}

/-- The state in which the leaf of a page is `entry`. -/
def withLeaf (s : Memory) (page : Page) (f : Frame) (table : Table) (entry : Entry) : Memory :=
  setTable f (update table (index 0 page) entry) s

section

variable (h : Rep root s node) (hf : node (above page 0) = some f)
include h hf

theorem setLeaf (htable : s.tables f = some table) (hentry : Entry.validate entry 0 = .ok ()) :
    Rep root (withLeaf s page f table entry) node := by
  refine { h with holds := fun q g hq => ?_ }
  by_cases hne : q = above page 0
  · subst hne
    obtain rfl := mem_unique hf hq
    refine ⟨_, tables_setTable_self _ _, fun hlt => ?_, fun hlen i => ?_⟩
    · rw [length_above] at hlt
      omega
    · obtain ⟨table', htable', hholds⟩ := h.holds _ _ hq
      obtain rfl := mem_unique htable htable'
      by_cases hi : i = index 0 page
      · subst hi
        rw [update_self]
        exact hentry
      · rw [update_of_ne hi]
        exact hholds.2 hlen i
  · obtain ⟨table', htable', hholds⟩ := h.holds q g hq
    exact ⟨table', (tables_setTable_of_ne _ (h.frame_ne hf hq hne)).trans htable', hholds⟩

theorem leafOf_setLeaf (htable : s.tables f = some table) (q : Page) :
    leafOf (withLeaf s page f table entry) node q =
      if q = page then (Entry.frame entry).map fun frame => (frame, Entry.permissions entry)
      else leafOf s node q := by
  unfold leafOf
  by_cases habove : above q 0 = above page 0
  · rw [habove, hf, bind_some, bind_some, htable,
      show (withLeaf s page f table entry).tables f = _ from tables_setTable_self _ _,
      bind_some, bind_some]
    by_cases hindex : index 0 q = index 0 page
    · rw [if_pos (page_ext habove hindex), hindex, update_self]
    · rw [if_neg (mt (congrArg (index 0)) hindex), update_of_ne hindex]
  · rw [if_neg (mt (congrArg (above · 0)) habove)]
    cases hq : node (above q 0) with
    | none => rfl
    | some g =>
      rw [bind_some, bind_some, show (withLeaf s page f table entry).tables g = s.tables g from
          tables_setTable_of_ne _ (h.frame_ne hf hq habove)]

theorem busyBut_setLeaf (hbusy : BusyBut (above page 0) s node) :
    BusyBut (above page 0) (withLeaf s page f table entry) node := by
  intro q hnil hne g table' hq htable'
  refine hbusy q hnil hne g table' hq ?_
  rw [← htable']
  exact (tables_setTable_of_ne _ (h.frame_ne hf hq hne)).symm

end

theorem busy_of_leaf (hf : node (above page 0) = some f) (htable : s.tables f = some table)
    (hpresent : Entry.isPresent (table (index 0 page)) = true)
    (hbusy : BusyBut (above page 0) s node) : BusyBut [] s node := by
  intro q hnil _
  by_cases hne : q = above page 0
  · intro g table' hq htable'
    subst hne
    obtain rfl := mem_unique hf hq
    obtain rfl : table = table' := some.inj (htable.symm.trans htable')
    exact ⟨index 0 page, hpresent⟩
  · exact hbusy q hnil hne

end Leaf

/-! ## Hanging a table into the tree -/

section Grow

variable {p : Path} {i : Fin 512} {parent fresh : Frame} {table : Table}

/-- The state after a fresh frame was lent, emptied and entered into its parent. -/
def grown (s : Memory) (parent fresh : Frame) (table : Table) (i : Fin 512) : Memory :=
  setTable parent (update table i (Entry.table fresh))
    (setTable fresh (fun _ => Entry.empty)
      { s with asked := s.asked + 1, lent := fresh :: s.lent })

section

variable (h : Rep root s node)
include h

theorem fresh_ne (hfresh : fresh ∉ s.lent) {q : Path} {f : Frame}
    (hq : node q = some f) : f ≠ fresh := by
  rintro rfl
  exact hfresh ((h.lent f).2 ⟨q, hq⟩)

section

variable (hparent : node p = some parent)
include hparent

theorem tables_grown_fresh (hfresh : fresh ∉ s.lent) :
    (grown s parent fresh table i).tables fresh = some fun _ => Entry.empty :=
  (tables_setTable_of_ne _ (h.fresh_ne hfresh hparent).symm).trans (tables_setTable_self _ _)

theorem tables_grown_of_ne
    (hfresh : fresh ∉ s.lent) {q : Path} {f : Frame} (hq : node q = some f) (hne : q ≠ p) :
    (grown s parent fresh table i).tables f = s.tables f :=
  (tables_setTable_of_ne _ (h.frame_ne hparent hq hne)).trans
    (tables_setTable_of_ne _ (h.fresh_ne hfresh hq))

section

variable (hp : p.length < 3) (hnone : node (i :: p) = none) (hfresh : fresh ∉ s.lent)
  (htable : s.tables parent = some table)
include hp hnone hfresh htable

theorem grow :
    Rep root (grown s parent fresh table i) (update node (i :: p) (some fresh)) where
  root := by exact h.root
  injective q r f hq hr := by
    obtain ⟨rfl, ⟨⟩⟩ | ⟨hqp, hq⟩ := update_eq_some.1 hq <;>
      obtain ⟨rfl, ⟨⟩⟩ | ⟨hrp, hr⟩ := update_eq_some.1 hr
    · rfl
    · exact absurd rfl (h.fresh_ne hfresh hr)
    · exact absurd rfl (h.fresh_ne hfresh hq)
    · exact h.injective q r f hq hr
  parent j q hq := by
    have hqp : q ≠ i :: p := by
      rintro rfl
      rw [update_self] at hq
      cases hq
    rw [update_of_ne hqp] at hq
    have hjq : j :: q ≠ i :: p := by
      intro heq
      cases heq
      rw [hparent] at hq
      cases hq
    rw [update_of_ne hjq]
    exact h.parent j q hq
  depth q f hq := by
    obtain ⟨rfl, -⟩ | ⟨-, hq⟩ := update_eq_some.1 hq
    · exact hp
    · exact h.depth q f hq
  holds q f hq := by
    rw [update_eq_some] at hq
    obtain ⟨rfl, ⟨⟩⟩ | ⟨-, hq⟩ := hq
    · refine ⟨_, h.tables_grown_fresh hparent hfresh, fun _ j => ?_, fun _ j => ?_⟩
      · rw [update_of_ne (by simp), h.parent j _ hnone]
        rfl
      · exact Entry.validate_empty 0
    · obtain ⟨table', htable', hholds⟩ := h.holds q f hq
      by_cases hne : q = p
      · subst hne
        obtain rfl := mem_unique hparent hq
        obtain rfl : table = table' := some.inj (htable.symm.trans htable')
        exact ⟨_, tables_setTable_self _ _, hholds.update_child hp⟩
      · exact ⟨table', (h.tables_grown_of_ne hparent hfresh hq hne).trans htable',
          hholds.update_other hne⟩
  nodup := List.nodup_cons.2 ⟨hfresh, h.nodup⟩
  lent f := by
    change f ∈ fresh :: s.lent ↔ _
    rw [List.mem_cons, h.lent]
    constructor
    · rintro (rfl | ⟨q, hq⟩)
      · exact ⟨i :: p, update_self ..⟩
      · refine ⟨q, ?_⟩
        rw [update_of_ne (by rintro rfl; rw [hnone] at hq; cases hq)]
        exact hq
    · rintro ⟨q, hq⟩
      obtain ⟨-, ⟨⟩⟩ | ⟨-, hq⟩ := update_eq_some.1 hq
      · exact .inl rfl
      · exact .inr ⟨q, hq⟩

theorem sameTranslation_grow
 :
    SameTranslation root s (grown s parent fresh table i) := by
  intro page
  rw [(h.grow hparent hp hnone hfresh htable).translate_eq, h.translate_eq]
  unfold leafOf
  by_cases hpath : above page 0 = i :: p
  · rw [hpath, update_self, hnone, bind_some, h.tables_grown_fresh hparent hfresh]
    simp
  rw [update_of_ne hpath]
  cases hq : node (above page 0) with
  | none => rfl
  | some g =>
    have hne : above page 0 ≠ p := by
      rintro rfl
      rw [length_above] at hp
      omega
    rw [bind_some, bind_some, h.tables_grown_of_ne hparent hfresh hq hne]

end

theorem busyBut_grow (hfresh : fresh ∉ s.lent) (hbusy : BusyBut p s node) :
    BusyBut (i :: p) (grown s parent fresh table i) (update node (i :: p) (some fresh)) := by
  intro q hnil hqp f table' hq htable'
  rw [update_of_ne hqp] at hq
  by_cases hne : q = p
  · subst hne
    obtain rfl := mem_unique hparent hq
    rw [show (grown s parent fresh table i).tables parent = _ from
      tables_setTable_self _ _] at htable'
    cases htable'
    exact ⟨i, by rw [update_self, Entry.isPresent_table]⟩
  · rw [h.tables_grown_of_ne hparent hfresh hq hne] at htable'
    exact hbusy q hnil hne f table' hq htable'

end

end

end Grow

/-! ## Taking a table away -/

section Remove

variable {p : Path} {i : Fin 512} {parent f : Frame} {table unused : Table}

/-- The state after a table was taken out of its parent and given back. -/
def removed (s : Memory) (parent f : Frame) (table : Table) (i : Fin 512) : Memory :=
  { setTable parent (update table i Entry.empty) s with
    lent := s.lent.erase f, given := f :: s.given }

theorem tables_removed_of_ne (h : Rep root s node) (hparent : node p = some parent) {q : Path}
    {g : Frame} (hq : node q = some g) (hne : q ≠ p) :
    (removed s parent f table i).tables g = s.tables g :=
  tables_setTable_of_ne _ (h.frame_ne hparent hq hne)

theorem none_of_unused (h : Rep root s node) (hf : node p = some f)
    (hunused : s.tables f = some unused) (hempty : ∀ j, Entry.isPresent (unused j) = false)
    (j : Fin 512) : node (j :: p) = none := by
  cases hj : node (j :: p) with
  | none => rfl
  | some g =>
    obtain ⟨table', htable', hholds⟩ := h.holds p f hf
    obtain rfl := mem_unique hunused htable'
    have hpresent := hempty j
    rw [hholds.1 (h.length_lt hj) j, hj] at hpresent
    simp at hpresent

section

variable (h : Rep root s node) (hparent : node p = some parent) (hf : node (i :: p) = some f)
  (htable : s.tables parent = some table) (hunused : s.tables f = some unused)
  (hempty : ∀ j, Entry.isPresent (unused j) = false)
include h hparent hf htable hunused hempty

theorem remove : Rep root (removed s parent f table i) (update node (i :: p) none) where
  root := by
    rw [update_of_ne (by simp)]
    exact h.root
  injective q r g hq hr := by
    obtain ⟨-, ⟨⟩⟩ | ⟨-, hq⟩ := update_eq_some.1 hq
    obtain ⟨-, ⟨⟩⟩ | ⟨-, hr⟩ := update_eq_some.1 hr
    exact h.injective q r g hq hr
  parent j q hq := by
    by_cases hjq : j :: q = i :: p
    · rw [hjq, update_self]
    rw [update_of_ne hjq]
    by_cases hqp : q = i :: p
    · subst hqp
      exact h.none_of_unused hf hunused hempty j
    · rw [update_of_ne hqp] at hq
      exact h.parent j q hq
  depth q g hq := by
    obtain ⟨-, ⟨⟩⟩ | ⟨-, hq⟩ := update_eq_some.1 hq
    exact h.depth q g hq
  holds q g hq := by
    rw [update_eq_some] at hq
    obtain ⟨-, ⟨⟩⟩ | ⟨-, hq⟩ := hq
    obtain ⟨table', htable', hholds⟩ := h.holds q g hq
    by_cases hne : q = p
    · subst hne
      obtain rfl := mem_unique hparent hq
      obtain rfl : table = table' := some.inj (htable.symm.trans htable')
      exact ⟨_, tables_setTable_self _ _, hholds.update_child (h.length_lt hf)⟩
    · exact ⟨table', (h.tables_removed_of_ne hparent hq hne).trans htable', hholds.update_other hne⟩
  nodup := h.nodup.erase f
  lent g := by
    change g ∈ s.lent.erase f ↔ _
    rw [h.nodup.mem_erase_iff, h.lent]
    constructor
    · rintro ⟨hne, q, hq⟩
      refine ⟨q, ?_⟩
      rw [update_of_ne (by rintro rfl; exact hne (mem_unique hq hf))]
      exact hq
    · rintro ⟨q, hq⟩
      obtain ⟨-, ⟨⟩⟩ | ⟨hqp, hq⟩ := update_eq_some.1 hq
      exact ⟨h.frame_ne hf hq hqp, q, hq⟩

theorem sameTranslation_remove : SameTranslation root s (removed s parent f table i) := by
  intro page
  rw [(h.remove hparent hf htable hunused hempty).translate_eq, h.translate_eq]
  unfold leafOf
  by_cases hpath : above page 0 = i :: p
  · have hframe : Entry.frame (unused (index 0 page)) = none := by
      rw [← isNone_iff_eq_none, ← not_isSome, Entry.frame_isSome, hempty]
      rfl
    rw [hpath, update_self, hf, bind_some, hunused, bind_some, hframe]
    rfl
  rw [update_of_ne hpath]
  cases hq : node (above page 0) with
  | none => rfl
  | some g =>
    have hne : above page 0 ≠ p := by
      rintro rfl
      have hlt := h.length_lt hf
      rw [length_above] at hlt
      omega
    rw [bind_some, bind_some, h.tables_removed_of_ne hparent hq hne]

end

theorem busyBut_remove (h : Rep root s node) (hparent : node p = some parent)
    (hbusy : BusyBut (i :: p) s node) :
    BusyBut p (removed s parent f table i) (update node (i :: p) none) := by
  intro q hnil hne g table' hq htable'
  obtain ⟨-, ⟨⟩⟩ | ⟨hqp, hq⟩ := update_eq_some.1 hq
  rw [h.tables_removed_of_ne hparent hq hne] at htable'
  exact hbusy q hnil hqp g table' hq htable'

end Remove

end Rep

end Audhsos.Paging
