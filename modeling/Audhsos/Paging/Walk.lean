import Audhsos.Paging.Edits

/-!
The walk to the leaf table of a page. A walk that only looks changes nothing; one that creates
tables either reaches the leaf table, or it takes back every table it created.
-/

namespace Audhsos.Paging

open Lib Function Paging.Rep Prog

variable {root : Frame} {s s' : Memory} {node node₀ : Nodes} {but : Path}

/-! ## States with the same tables and the same frames lent -/

/-- The two states differ at most in what the source was asked and given back. -/
def SameTables (s s' : Memory) : Prop := s'.tables = s.tables ∧ s'.lent = s.lent

theorem Rep.congr (h : Rep root s node) (hs : SameTables s s') : Rep root s' node :=
  { h with
    holds := by rw [hs.1]; exact h.holds
    nodup := by rw [hs.2]; exact h.nodup
    lent := by rw [hs.2]; exact h.lent }

theorem BusyBut.congr (h : BusyBut but s node) (hs : SameTables s s') : BusyBut but s' node := by
  unfold BusyBut Busy
  rw [hs.1]
  exact h

theorem SameTables.sameTranslation (hs : SameTables s s') : SameTranslation root s s' := by
  intro page
  unfold Mapper.translate
  rw [hs.1]

theorem SameTranslation.trans {s₁ s₂ s₃ : Memory} (h : SameTranslation root s₁ s₂)
    (h' : SameTranslation root s₂ s₃) : SameTranslation root s₁ s₃ :=
  fun page => (h' page).trans (h page)

/-! ## Tables without entries -/

def Unused (s : Memory) (f : Frame) : Prop :=
  ∃ table, s.tables f = some table ∧ ∀ i, Entry.isPresent (table i) = false

/-- Every table between the root and the leaves has a table below it. -/
def Inner (node : Nodes) : Prop :=
  ∀ p f, p ≠ [] → p.length < 3 → node p = some f → ∃ i g, node (i :: p) = some g

theorem BusyBut.weaken (h : BusyBut [] s node) (but : Path) : BusyBut but s node :=
  fun p hnil _ => h p hnil hnil

theorem Rep.inner (h : Rep root s node) (hbusy : BusyBut [] s node) : Inner node := by
  intro p f hnil hlt hf
  obtain ⟨table, htable, hholds⟩ := h.holds p f hf
  obtain ⟨i, hi⟩ := hbusy p hnil hnil f table hf htable
  rw [hholds.1 hlt i] at hi
  cases hnode : node (i :: p) with
  | none => rw [hnode] at hi; simp at hi
  | some g => exact ⟨i, g, hnode⟩

theorem BusyBut.of_inner (hbusy : BusyBut but s node) (h : Rep root s node)
    (hinner : Inner node) (hlt : but.length < 3) : BusyBut [] s node := by
  intro p hnil _
  by_cases hp : p = but
  · subst hp
    intro f table hf htable
    obtain ⟨i, g, hg⟩ := hinner p f hnil hlt hf
    obtain ⟨table', htable', hholds⟩ := h.holds p f hf
    obtain rfl := Option.mem_unique htable htable'
    refine ⟨i, ?_⟩
    rw [hholds.1 hlt i, hg]
    exact Entry.isPresent_table g
  · exact hbusy p hnil hp

variable {p : Path}

theorem Rep.unused (h : Rep root s node) {f : Frame} (hf : node p = some f)
    (hlt : p.length < 3) (hnone : ∀ i, node (i :: p) = none) : Unused s f := by
  obtain ⟨table, htable, hholds⟩ := h.holds p f hf
  refine ⟨table, htable, fun i => ?_⟩
  rw [hholds.1 hlt i, hnone i]
  exact Entry.isPresent_empty

namespace Mapper

/-! ## Taking back -/

/-- The tables `created` hang below each other, the first one at the given path, and without
them the tree is `node₀`. -/
inductive Chain (node₀ : Nodes) : List Created → Path → Nodes → Prop where
  | nil (p : Path) : Chain node₀ [] p node₀
  | cons {rest : List Created} {p : Path} {node : Nodes} (created : Created)
      (chain : Chain node₀ rest p node) (parent : node p = some created.parent)
      (length_lt : p.length < 3) (fresh : node (created.index :: p) = none)
      (alone : rest ≠ [] → ∀ i, node (i :: p) = none) :
      Chain node₀ (created :: rest) (created.index :: p)
        (update node (created.index :: p) (some created.frame))

theorem Chain.eq_of_nil (h : Chain node₀ [] p node) : node = node₀ := by
  cases h
  rfl

variable {created : Created} {table : Table}

theorem undo_run (htable : s.tables created.parent = some table) :
    undo created s =
      (.ok (), removed s created.parent created.frame table created.index) := by
  have hwrite : Prog.ignore (write created.parent created.index Entry.empty) s =
      (.ok (), setTable created.parent (update table created.index Entry.empty) s) := by
    simp only [Prog.ignore, write, htable]
  rw [undo, run_bind_ok hwrite]
  rfl

theorem rollback_cons {rest : List Created} (htable : s.tables created.parent = some table) :
    rollback (created :: rest) s =
      rollback rest (removed s created.parent created.frame table created.index) := by
  rw [rollback, run_bind_ok (undo_run htable)]

theorem rollback_spec {created : List Created} (hchain : Chain node₀ created p node)
    (hinner : Inner node₀) (hlt : created = [] → p.length < 3) (h : Rep root s node)
    (hbusy : BusyBut p s node) (hunused : created ≠ [] → ∃ f, node p = some f ∧ Unused s f) :
    Rep root (rollback created s).2 node₀ ∧ BusyBut [] (rollback created s).2 node₀ ∧
      SameTranslation root s (rollback created s).2 := by
  induction hchain generalizing s with
  | nil p => exact ⟨h, hbusy.of_inner h hinner (hlt rfl), fun _ => rfl⟩
  | @cons rest p node created chain parent length_lt fresh alone ih =>
    obtain ⟨f, hf, unused, hunused, hempty⟩ := hunused (List.cons_ne_nil _ _)
    have hparent : update node (created.index :: p) (some created.frame) p =
        some created.parent := by
      rw [update_of_ne (by simp)]
      exact parent
    obtain rfl : created.frame = f := by
      rw [update_self] at hf
      exact Option.some.inj hf
    obtain ⟨table, htable, -⟩ := h.holds p _ hparent
    have hnode : update (update node (created.index :: p) (some created.frame))
        (created.index :: p) none = node := by
      rw [update_idem, ← fresh, update_eq_self]
    have hrep := h.remove hparent hf htable hunused hempty
    have hbusy' : BusyBut p (removed s created.parent created.frame table created.index) _ :=
      h.busyBut_remove hparent hbusy
    rw [hnode] at hrep hbusy'
    rw [rollback_cons htable]
    obtain ⟨hdone, hfull, hsame⟩ := ih (fun _ => length_lt) hrep hbusy'
      fun hrest => ⟨_, parent, hrep.unused parent length_lt (alone hrest)⟩
    exact ⟨hdone, hfull, (h.sameTranslation_remove hparent hf htable hunused hempty).trans hsame⟩

/-! ## Creating one table -/

/-- The source has no frame, or gave one that cannot be reached. -/
def NoFrame (e : MapError) : Prop := e = .outOfKernelMemory ∨ e = .unreachableFrame

theorem grow_cases (h : Rep root s node) {parent : Frame}
    (hparent : node p = some parent) (i : Fin 512) :
    (∃ e s', grow parent i s = (.error e, s') ∧ NoFrame e ∧ SameTables s s') ∨
      ∃ fresh table, grow parent i s = (.ok fresh, grown s parent fresh table i) ∧
        fresh ∉ s.lent ∧ s.tables parent = some table := by
  obtain ⟨table, htable, -⟩ := h.holds p parent hparent
  cases hanswer : (s.answers s.asked).filter (· ∉ s.lent) with
  | none =>
    have hrun : allocateFrame s = (.ok none, { s with asked := s.asked + 1 }) := by
      simp only [allocateFrame, hanswer]
      rfl
    refine .inl ⟨.outOfKernelMemory, { s with asked := s.asked + 1 }, ?_, .inl rfl, rfl, rfl⟩
    rw [grow, run_bind_ok hrun]
    rfl
  | some fresh =>
    have hfresh : fresh ∉ s.lent := by
      have hmem := Option.mem_filter_iff.1 hanswer
      simpa using hmem.2
    have hrun : allocateFrame s =
        (.ok (some fresh), { s with asked := s.asked + 1, lent := fresh :: s.lent }) := by
      simp only [allocateFrame, hanswer]
      rfl
    have hne : parent ≠ fresh := h.fresh_ne hfresh hparent
    cases hreach : s.tables fresh with
    | none =>
      refine .inl ⟨.unreachableFrame,
        { s with asked := s.asked + 1, given := fresh :: s.given }, ?_, .inr rfl, rfl, rfl⟩
      rw [grow, run_bind_ok hrun]
      simp [hreach, releaseFrame, Prog.modify]
    | some old =>
      refine .inr ⟨fresh, table, ?_, hfresh, htable⟩
      rw [grow, run_bind_ok hrun]
      simp [hreach, write, setTable, update_of_ne hne, htable, grown]

/-! ## The walk -/

theorem walkLoop_find (h : Rep root s node) (page : Page) (level : Nat) (f : Frame)
    (hlevel : level ≤ 3) (hf : node (above page level) = some f) :
    walkLoop page false level f [] s =
      ((node (above page 0)).elim (.error .notMapped) .ok, s) := by
  induction level generalizing f with
  | zero =>
    rw [hf]
    rfl
  | succ level ih =>
    obtain ⟨entry, hread, hnext⟩ := h.readEntry_above hlevel hf
    cases hnode : node (above page level) with
    | some g =>
      rw [hnode] at hnext
      simp only [walkLoop, hread, hnext]
      exact ih g (by omega) hnode
    | none =>
      rw [hnode] at hnext
      rw [h.none_below hnode (above_suffix page (Nat.zero_le level))]
      simp only [walkLoop, hread, hnext]
      rfl

/-- The walk has reached the leaf table of a page, and all it created lies on the way there. -/
structure Reached (root : Frame) (node₀ : Nodes) (page : Page) (leaf : Frame) (s : Memory)
    (node : Nodes) : Prop where
  rep : Rep root s node
  busy : BusyBut (above page 0) s node
  reached : node (above page 0) = some leaf
  created : node = node₀ ∨ Unused s leaf

theorem walkLoop_spec (page : Page) (hinner : Inner node₀) (level : Nat) (f : Frame)
    (created : List Created) (s : Memory) (node : Nodes) (hlevel : level ≤ 3)
    (h : Rep root s node) (hbusy : BusyBut (above page level) s node)
    (hf : node (above page level) = some f) (hchain : Chain node₀ created (above page level) node)
    (hcount : created.length + level ≤ 3) (hunused : created ≠ [] → Unused s f) :
    (∃ leaf s' node', walkLoop page true level f created s = (.ok leaf, s') ∧
      Reached root node₀ page leaf s' node' ∧ SameTranslation root s s') ∨
    ∃ e s', walkLoop page true level f created s = (.error e, s') ∧ NoFrame e ∧
      Rep root s' node₀ ∧ BusyBut [] s' node₀ ∧ SameTranslation root s s' := by
  induction level generalizing f created s node with
  | zero =>
    refine .inl ⟨f, s, node, rfl, ⟨h, hbusy, hf, ?_⟩, fun _ => rfl⟩
    cases created with
    | nil => exact .inl hchain.eq_of_nil
    | cons => exact .inr (hunused (List.cons_ne_nil _ _))
  | succ level ih =>
    have hlen : (above page (level + 1)).length < 3 := by rw [length_above]; omega
    obtain ⟨entry, hread, hnext⟩ := h.readEntry_above hlevel hf
    have habove := above_of_lt page (show level < 3 by omega)
    rw [habove] at hnext
    have hnone_of : created ≠ [] → ∀ i, node (i :: above page (level + 1)) = none := by
      intro hne i
      obtain ⟨unused, htable, hempty⟩ := hunused hne
      exact h.none_of_unused hf htable hempty i
    cases hnode : node (index (level + 1) page :: above page (level + 1)) with
    | some g =>
      -- below a table of this walk there is nothing yet, so it has created none so far
      have hnil : created = [] := by
        by_contra hne
        rw [hnone_of hne] at hnode
        cases hnode
      subst hnil
      rw [hnode] at hnext
      simp only [walkLoop, hread, hnext]
      obtain rfl := hchain.eq_of_nil
      have hfull := hbusy.of_inner h hinner hlen
      rw [← habove] at hnode
      exact ih g [] s node (by omega) h (hfull.weaken _) hnode (.nil _) (by simp; omega) nofun
    | none =>
      rw [hnode] at hnext
      rcases grow_cases h hf (index (level + 1) page) with
        ⟨e, s', hgrow, he, hsame⟩ | ⟨fresh, table, hgrow, hfresh, htable⟩
      · refine .inr ⟨e, (rollback created s').2, ?_, he, ?_⟩
        · simp only [walkLoop, hread, hnext, not_true_eq_false, if_false, hgrow]
        have hback := rollback_spec hchain hinner (fun _ => hlen) (h.congr hsame)
          (hbusy.congr hsame) fun hne => ⟨f, hf, by
            unfold Unused
            rw [hsame.1]
            exact hunused hne⟩
        exact ⟨hback.1, hback.2.1, hsame.sameTranslation.trans hback.2.2⟩
      · have hrep := h.grow hf hlen hnode hfresh htable
        have hbusy' : BusyBut _ (grown s f fresh table (index (level + 1) page)) _ :=
          h.busyBut_grow hf hfresh hbusy
        have hsame := h.sameTranslation_grow hf hlen hnode hfresh htable
        have hchain' := Chain.cons ⟨f, index (level + 1) page, fresh⟩ hchain hf hlen hnode
          hnone_of
        have hempty : Unused (grown s f fresh table (index (level + 1) page)) fresh :=
          ⟨_, h.tables_grown_fresh hf hfresh, fun _ => Entry.isPresent_empty⟩
        have hroom : created.length < maxCreated := by unfold maxCreated; omega
        simp only [walkLoop, hread, hnext, not_true_eq_false, if_false, hgrow, if_pos hroom]
        simp only [← habove] at hrep hbusy' hchain'
        rcases ih fresh _ _ _ (by omega) hrep hbusy' (update_self ..) hchain'
          (by simp only [List.length_cons]; omega) (fun _ => hempty) with
          ⟨leaf, s', node', hrun, hreached, hrest⟩ | ⟨e, s', hrun, he, hback, hfull, hrest⟩
        · exact .inl ⟨leaf, s', node', hrun, hreached, hsame.trans hrest⟩
        · exact .inr ⟨e, s', hrun, he, hback, hfull, hsame.trans hrest⟩

end Mapper

end Audhsos.Paging
