import Audhsos.Paging.Walk

/-!
What the calls of a mapper do to the tree and to the translations.
-/

namespace Audhsos.Paging

open Lib Function Paging.Entry Prog Option Paging.Rep

variable {root : Frame} {s : Memory} {node : Nodes}

/-- The tables are the tree, and none below the root is without entries. -/
structure Sound (root : Frame) (s : Memory) (node : Nodes) : Prop where
  rep : Rep root s node
  busy : BusyBut [] s node

theorem Sound.congr {s' : Memory} (h : Sound root s node) (hs : SameTables s s') :
    Sound root s' node :=
  ⟨h.rep.congr hs, h.busy.congr hs⟩

namespace Mapper

/-! ## Steps of the calls -/

variable {entry : Entry} {f : Frame} {table : Table} {page : Page}

theorem read_run {i : Fin 512}
    (h : readEntry s.tables f 0 i = .ok entry) : read f 0 i s = (.ok entry, s) := by
  rw [read, h]

theorem write_leaf (htable : s.tables f = some table) (page : Page) (entry : Entry) :
    write f (index 0 page) entry s = (.ok (), withLeaf s page f table entry) := by
  simp only [write, htable, withLeaf]

theorem sameTables_flush (page : Page) (s : Memory) : SameTables s (flushPage page s).2 :=
  ⟨rfl, rfl⟩

theorem frame_eq_none (h : isPresent entry = false) : frame entry = none := by
  rw [← isNone_iff_eq_none, ← not_isSome, frame_isSome, h]
  rfl

section

variable (h : Rep root s node) {page : Page} {f : Frame} {table : Table}
include h

section

variable (hf : node (above page 0) = some f) (htable : s.tables f = some table)
include hf htable

theorem translate_of_leaf :
    translate root page s = (frame (table (index 0 page))).map fun frame =>
      (frame, permissions (table (index 0 page))) := by
  rw [h.translate_eq]
  unfold leafOf
  rw [hf, bind_some, htable, bind_some]

theorem translate_withLeaf (hentry : validate entry 0 = .ok ()) (q : Page) :
    translate root q (withLeaf s page f table entry) =
      if q = page then (frame entry).map fun frame => (frame, permissions entry)
      else translate root q s := by
  rw [(h.setLeaf hf htable hentry).translate_eq, h.leafOf_setLeaf hf htable, h.translate_eq]

end

/-- A present entry written into the leaf table leaves every table with an entry. -/
theorem sound_withLeaf (hbusy : BusyBut (above page 0) s node)
    (hf : node (above page 0) = some f) (htable : s.tables f = some table)
    (hentry : validate entry 0 = .ok ()) (hpresent : isPresent entry = true) :
    Sound root (withLeaf s page f table entry) node :=
  ⟨h.setLeaf hf htable hentry,
    busy_of_leaf hf (tables_setTable_self _ _) (by rw [update_self]; exact hpresent)
      (h.busyBut_setLeaf hf hbusy)⟩

end

/-! ## map -/

theorem map_spec (h : Sound root s node) (page : Page) (frame : Frame) (perms : Permissions)
    (cache : CachePolicy) :
    (∃ s' node', map root page frame perms cache s = (.ok (), s') ∧ Sound root s' node' ∧
      translate root page s = none ∧
      ∀ q, translate root q s' =
        if q = page then some (frame, confine page perms) else translate root q s) ∨
    ∃ e s', map root page frame perms cache s = (.error e, s') ∧ Sound root s' node ∧
      SameTranslation root s s' ∧
      (NoFrame e ∨ e = .alreadyMapped ∧ translate root page s ≠ none) := by
  rcases walkLoop_spec page (h.rep.inner h.busy) 3 root [] s node (le_refl 3) h.rep
    (h.busy.weaken _) h.rep.root (.nil _) (le_refl 3) nofun with
    ⟨leaf, s₁, node₁, hrun, hreached, hsame⟩ | ⟨e, s', hrun, he, hrep, hfull, hsame⟩
  · have hwalk : walk root page true s = (.ok leaf, s₁) := hrun
    obtain ⟨table, htable, hread, -⟩ := hreached.rep.readEntry_leaf hreached.reached
    have htranslate := translate_of_leaf hreached.rep hreached.reached htable
    rw [map, run_bind_ok hwalk, run_bind_ok (read_run hread)]
    cases hpresent : isPresent (table (index 0 page)) with
    | true =>
      -- a table of this walk has no entry, so the walk created none
      have hnode : node₁ = node := by
        rcases hreached.created with hnode | ⟨unused, hunused, hempty⟩
        · exact hnode
        · obtain rfl := mem_unique htable hunused
          rw [hempty] at hpresent
          cases hpresent
      subst hnode
      refine .inr ⟨.alreadyMapped, s₁, run_bind_error (run_require_not nofun _ _),
        ⟨hreached.rep, busy_of_leaf hreached.reached htable hpresent hreached.busy⟩, hsame,
        .inr ⟨rfl, ?_⟩⟩
      obtain ⟨old, hold⟩ := isSome_iff_exists.1
        ((frame_isSome (table (index 0 page))).trans hpresent)
      rw [← hsame page, htranslate, hold]
      nofun
    | false =>
      have hvalid := validate_leaf frame (confine page perms) cache (!isUser page)
      have hsound := sound_withLeaf hreached.rep hreached.busy hreached.reached htable hvalid
        (isPresent_leaf ..)
      refine .inl ⟨_, node₁, ?_, hsound.congr (sameTables_flush page _), ?_, fun q => ?_⟩
      · rw [run_bind_ok (run_require rfl _ _), run_bind_ok (write_leaf htable page _)]
        rfl
      · rw [← hsame page, htranslate, frame_eq_none hpresent]
        rfl
      · rw [(sameTables_flush page _).sameTranslation q,
          translate_withLeaf hreached.rep hreached.reached htable hvalid, frame_leaf,
          permissions_leaf, hsame q]
        rfl
  · have hwalk : walk root page true s = (.error e, s') := hrun
    exact .inr ⟨e, s', by rw [map, run_bind_error hwalk], ⟨hrep, hfull⟩, hsame, .inl he⟩

/-! ## protect -/

section

variable (h : Rep root s node)
include h

theorem walk_find (page : Page) :
    walk root page false s = ((node (above page 0)).elim (.error .notMapped) .ok, s) :=
  walkLoop_find h page 3 root (le_refl 3) h.root

theorem translate_missing (hleaf : node (above page 0) = none) : translate root page s = none := by
  rw [h.translate_eq]
  unfold leafOf
  rw [hleaf]
  rfl

end

theorem protect_spec (h : Sound root s node) (page : Page) (perms : Permissions) :
    (∃ frame old s', protect root page perms s = (.ok (), s') ∧ Sound root s' node ∧
      translate root page s = some (frame, old) ∧
      ∀ q, translate root q s' =
        if q = page then some (frame, confine page perms) else translate root q s) ∨
    (protect root page perms s = (.error .notMapped, s) ∧ translate root page s = none) := by
  have hwalk := walk_find h.rep page
  cases hleaf : node (above page 0) with
  | none =>
    rw [hleaf] at hwalk
    exact .inr ⟨run_bind_error hwalk, translate_missing h.rep hleaf⟩
  | some leaf =>
    obtain ⟨table, htable, hread, hentry⟩ := h.rep.readEntry_leaf hleaf
    have htranslate := translate_of_leaf h.rep hleaf htable
    rw [hleaf] at hwalk
    rw [protect, run_bind_ok hwalk, run_bind_ok (read_run hread)]
    cases hpresent : isPresent (table (index 0 page)) with
    | false =>
      refine .inr ⟨run_bind_error (run_require_not nofun _ _), ?_⟩
      rw [htranslate, frame_eq_none hpresent]
      rfl
    | true =>
      obtain ⟨frame, hframe⟩ := isSome_iff_exists.1
        ((frame_isSome (table (index 0 page))).trans hpresent)
      have hvalid := validate_withPermissions (confine page perms) hpresent hentry
      have hsound := sound_withLeaf h.rep (h.busy.weaken _) hleaf htable hvalid
        ((isPresent_withPermissions ..).trans hpresent)
      refine .inl ⟨frame, permissions (table (index 0 page)), _, ?_,
        hsound.congr (sameTables_flush page _), ?_, fun q => ?_⟩
      · rw [run_bind_ok (run_require rfl _ _), run_bind_ok (write_leaf htable page _)]
        rfl
      · rw [htranslate, hframe]
        rfl
      · rw [(sameTables_flush page _).sameTranslation q,
          translate_withLeaf h.rep hleaf htable hvalid, frame_withPermissions,
          permissions_withPermissions, hframe]
        rfl

/-! ## unmap -/

theorem tablePairLoop_eq (h : Rep root s node) (page : Page) (target current : Nat) (f : Frame)
    (hcurrent : current ≤ 3) (htarget : target < current)
    (hf : node (above page current) = some f) :
    tablePairLoop s.tables page target current f =
      .ok ((node (above page target)).bind fun frame =>
        (node (above page (target + 1))).map fun parent => (parent, frame)) := by
  induction current generalizing f with
  | zero => omega
  | succ current ih =>
    obtain ⟨entry, hread, hnext⟩ := h.readEntry_above hcurrent hf
    simp only [tablePairLoop, if_neg (show ¬ current + 1 ≤ target by omega), hread, hnext]
    cases hnode : node (above page current) with
    | none =>
      rw [h.none_below hnode (above_suffix page (show target ≤ current by omega))]
      rfl
    | some next =>
      by_cases heq : current = target
      · subst heq
        rw [hnode, hf]
        simp
      · simp only [if_neg heq]
        exact ih next (by omega) (by omega) hnode

theorem write_empty {parent : Frame} (htable : s.tables parent = some table) (i : Fin 512) :
    ∃ s₁, write parent i empty s = (.ok (), s₁) ∧
      (releaseFrame f s₁).2 = removed s parent f table i :=
  ⟨setTable parent (update table i empty) s, by simp only [write, htable], rfl⟩

/-- The collection goes up from a table that may be empty, until one has an entry. -/
theorem collectLoop_spec (page : Page) (fuel target : Nat) (s : Memory) (node : Nodes)
    (hfuel : fuel + target = 3) (h : Rep root s node) (hbusy : BusyBut (above page target) s node) :
    ∃ s' node', collectLoop root page fuel target s = (.ok (), s') ∧ Sound root s' node' ∧
      SameTranslation root s s' := by
  induction fuel generalizing target s node with
  | zero =>
    obtain rfl : target = 3 := by omega
    exact ⟨s, node, rfl, ⟨h, hbusy⟩, fun _ => rfl⟩
  | succ fuel ih =>
    have hpair : tablePair root page target s = _ :=
      congrArg (·, s) (tablePairLoop_eq h page target 3 root (le_refl 3) (by omega) h.root)
    have habove := above_of_lt page (show target < 3 by omega)
    cases hnode : node (above page target) with
    | none =>
      rw [hnode] at hpair
      refine ⟨s, node, by simp only [collectLoop, hpair, bind_none], ⟨h, ?_⟩, fun _ => rfl⟩
      intro p hnil _
      by_cases hp : p = above page target
      · subst hp
        intro f table hf
        rw [hnode] at hf
        cases hf
      · exact hbusy p hnil hp
    | some f =>
      obtain ⟨parent, hparent⟩ := h.parent_some (habove ▸ hnode)
      obtain ⟨unused, hunused, -⟩ := h.holds _ _ hnode
      rw [hnode, hparent] at hpair
      by_cases hempty : isUnused unused = true
      · obtain ⟨table, htable, -⟩ := h.holds _ _ hparent
        obtain ⟨s₁, hwrite, hremoved⟩ := write_empty (f := f) htable (index (target + 1) page)
        have hnone : ∀ i, isPresent (unused i) = false := of_decide_eq_true hempty
        rw [habove] at hnode hbusy
        obtain ⟨s', node', hrun, hsound, hsame⟩ := ih (target + 1) _ _ (by omega)
          (h.remove hparent hnode htable hunused hnone) (h.busyBut_remove hparent hbusy)
        refine ⟨s', node', ?_, hsound,
          (h.sameTranslation_remove hparent hnode htable hunused hnone).trans hsame⟩
        simp only [collectLoop, hpair, bind_some, map_some, hunused, hempty,
          not_true_eq_false, if_false, hwrite, hremoved, hrun]
      · refine ⟨s, node, ?_, ⟨h, ?_⟩, fun _ => rfl⟩
        · simp only [collectLoop, hpair, bind_some, map_some, hunused, hempty]
          rfl
        intro p hnil _
        by_cases hp : p = above page target
        · subst hp
          intro g table hg htable
          obtain rfl := mem_unique hnode hg
          obtain rfl : unused = table := some.inj (hunused.symm.trans htable)
          unfold isUnused at hempty
          simpa using hempty
        · exact hbusy p hnil hp

theorem unmap_spec (h : Sound root s node) (page : Page) :
    (∃ frame perms s' node', unmap root page s = (.ok frame, s') ∧ Sound root s' node' ∧
      translate root page s = some (frame, perms) ∧
      ∀ q, translate root q s' = if q = page then none else translate root q s) ∨
    (unmap root page s = (.error .notMapped, s) ∧ translate root page s = none) := by
  have hwalk := walk_find h.rep page
  cases hleaf : node (above page 0) with
  | none =>
    rw [hleaf] at hwalk
    exact .inr ⟨run_bind_error hwalk, translate_missing h.rep hleaf⟩
  | some leaf =>
    obtain ⟨table, htable, hread, -⟩ := h.rep.readEntry_leaf hleaf
    have htranslate := translate_of_leaf h.rep hleaf htable
    rw [hleaf] at hwalk
    rw [unmap, run_bind_ok hwalk, run_bind_ok (read_run hread)]
    cases hframe : frame (table (index 0 page)) with
    | none =>
      refine .inr ⟨run_bind_error rfl, ?_⟩
      rw [htranslate, hframe]
      rfl
    | some frame =>
      have hrep := h.rep.setLeaf hleaf htable (validate_empty 0)
      obtain ⟨s', node', hrun, hsound, hsame⟩ := collectLoop_spec page 3 0 _ _ rfl hrep
        (h.rep.busyBut_setLeaf hleaf (h.busy.weaken _))
      have hcollect : collectEmptyTables root page
          (withLeaf s page leaf table empty) = (.ok (), s') := hrun
      refine .inl ⟨frame, permissions (table (index 0 page)), _, node', ?_,
        hsound.congr (sameTables_flush page s'), ?_, fun q => ?_⟩
      · rw [run_bind_ok (show ofOption (some frame) MapError.notMapped s = _ from rfl),
          run_bind_ok (write_leaf htable page _), run_attempt_bind, hcollect]
        rfl
      · rw [htranslate, hframe]
        rfl
      · rw [(sameTables_flush page _).sameTranslation q, hsame q,
          translate_withLeaf h.rep hleaf htable (validate_empty 0), frame_empty]
        rfl

end Mapper

end Audhsos.Paging
