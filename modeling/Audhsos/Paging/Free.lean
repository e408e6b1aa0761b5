import Audhsos.Paging.Calls

/-!
Giving back a tree. What `freeSubtree` gives back are the tables at and below a path, each once.
-/

namespace Audhsos.Paging

open Lib Function List

variable {root : Frame} {s s' : Memory} {node : Nodes} {frames : List Frame} {p : Path}

/-! ## Lists of frames given back -/

/-- Takes the frames out of the frames lent, the last one first. -/
def eraseAll (frames lent : List Frame) : List Frame := frames.foldr (fun f l => l.erase f) lent

/-- Between the two states the frames were given back, the last of the list first. -/
structure Frees (frames : List Frame) (s s' : Memory) : Prop where
  given : s'.given = frames ++ s.given
  lent : s'.lent = eraseAll frames s.lent

theorem Frees.nil (s : Memory) : Frees [] s s := ⟨rfl, rfl⟩

variable {frames frames' : List Frame} {s₁ s₀ : Memory} {lent : List Frame} {P Q : Path → Prop}
  {f r : Frame} {i : Fin 512}

theorem Frees.trans {s₂ s₃ : Memory}
    (h : Frees frames s₁ s₂) (h' : Frees frames' s₂ s₃) : Frees (frames' ++ frames) s₁ s₃ where
  given := by rw [h'.given, h.given, append_assoc]
  lent := by rw [h'.lent, h.lent, eraseAll, eraseAll, eraseAll, foldr_append]

theorem Frees.setTable (h : Frees frames s s') (f : Frame)
    (table : Table) : Frees frames s (setTable f table s') :=
  ⟨h.given, h.lent⟩

theorem nodup_eraseAll (frames : List Frame) (h : lent.Nodup) : (eraseAll frames lent).Nodup := by
  induction frames with
  | nil => exact h
  | cons f frames ih => exact ih.erase f

theorem mem_eraseAll (frames : List Frame) (h : lent.Nodup) (g : Frame) :
    g ∈ eraseAll frames lent ↔ g ∈ lent ∧ g ∉ frames := by
  induction frames with
  | nil => simp [eraseAll]
  | cons f frames ih =>
    change g ∈ (eraseAll frames lent).erase f ↔ _
    rw [(nodup_eraseAll frames h).mem_erase_iff, ih, mem_cons]
    tauto

/-- The list holds the frames of the tables at the paths in `P`, each once. -/
structure Covers (node : Nodes) (P : Path → Prop) (frames : List Frame) : Prop where
  nodup : frames.Nodup
  mem : ∀ f, f ∈ frames ↔ ∃ q, P q ∧ node q = some f

theorem Covers.congr (h : Covers node P frames)
    (hPQ : ∀ q f, node q = some f → (P q ↔ Q q)) : Covers node Q frames where
  nodup := h.nodup
  mem f := by
    rw [h.mem]
    constructor
    · rintro ⟨q, hq, hf⟩
      exact ⟨q, (hPQ q f hf).1 hq, hf⟩
    · rintro ⟨q, hq, hf⟩
      exact ⟨q, (hPQ q f hf).2 hq, hf⟩

theorem Covers.nil (h : ∀ q f, P q → node q ≠ some f) : Covers node P [] where
  nodup := nodup_nil
  mem f := by
    simp only [not_mem_nil, false_iff, not_exists, not_and]
    exact fun q hq => h q f hq

theorem Covers.single (hf : node p = some f) : Covers node (· = p) [f] where
  nodup := nodup_singleton f
  mem g := by
    rw [mem_singleton]
    constructor
    · rintro rfl
      exact ⟨p, rfl, hf⟩
    · rintro ⟨q, rfl, hg⟩
      exact Option.mem_unique hg hf

theorem Covers.append (h : Rep root s node)
    (hP : Covers node P frames) (hQ : Covers node Q frames') (hdisjoint : ∀ q, P q → ¬ Q q) :
    Covers node (fun q => P q ∨ Q q) (frames' ++ frames) where
  nodup := by
    refine nodup_append'.2 ⟨hQ.nodup, hP.nodup, fun f hf hf' => ?_⟩
    obtain ⟨q, hq, hnode⟩ := (hQ.mem f).1 hf
    obtain ⟨q', hq', hnode'⟩ := (hP.mem f).1 hf'
    rw [h.injective q q' f hnode hnode'] at hq
    exact hdisjoint q' hq' hq
  mem f := by
    rw [mem_append, hP.mem, hQ.mem]
    constructor
    · rintro (⟨q, hq, hf⟩ | ⟨q, hq, hf⟩)
      · exact ⟨q, .inr hq, hf⟩
      · exact ⟨q, .inl hq, hf⟩
    · rintro ⟨q, hq | hq, hf⟩
      · exact .inr ⟨q, hq, hf⟩
      · exact .inl ⟨q, hq, hf⟩

/-! ## Paths below a path -/

theorem suffix_iff (p q : Path) : p <:+ q ↔ (∃ i, i :: p <:+ q) ∨ q = p := by
  constructor
  · rintro ⟨t, rfl⟩
    rcases eq_nil_or_concat t with rfl | ⟨t, i, rfl⟩
    · exact .inr rfl
    · exact .inl ⟨i, t, by simp⟩
  · rintro (⟨i, h⟩ | rfl)
    · exact (suffix_cons i p).trans h
    · exact suffix_refl q

theorem index_eq_of_suffix {p q : Path} {j : Fin 512} (hi : i :: p <:+ q) (hj : j :: p <:+ q) :
    i = j := by
  have heq : i :: p = j :: p := by
    rcases suffix_or_suffix_of_suffix hi hj with h | h
    · exact h.eq_of_length rfl
    · exact (h.eq_of_length rfl).symm
  exact (List.cons.inj heq).1

theorem not_suffix_self (i : Fin 512) (p : Path) : ¬ i :: p <:+ p := by
  intro h
  have hlen := h.length_le
  simp at hlen

/-! ## The loops -/

/-- The tables at and below a path can be read as the tree says. -/
def Intact (node : Nodes) (p : Path) (s : Memory) : Prop :=
  ∀ q f, p <:+ q → node q = some f → ∃ table, s.tables f = some table ∧
    (q.length < 3 → ∀ i, Entry.frame (table i) = node (i :: q))

theorem Rep.intact (h : Rep root s node) (p : Path) : Intact node p s := by
  intro q f _ hf
  obtain ⟨table, htable, hholds⟩ := h.holds q f hf
  refine ⟨table, htable, fun hlt i => ?_⟩
  rw [hholds.1 hlt i]
  cases node (i :: q) <;> simp

theorem Intact.congr (h : Intact node p s)
    (hs : ∀ q f, p <:+ q → node q = some f → s'.tables f = s.tables f) : Intact node p s' := by
  intro q f hq hf
  rw [hs q f hq hf]
  exact h q f hq hf

/-- A loop over the entries of a table gives back what each turn gives back. The condition `I`
speaks of the entries that are still to come. -/
theorem fold_frees (h : Rep r s₀ node)
    {step : Nat × Memory → Fin 512 → Nat × Memory} {I : List (Fin 512) → Memory → Prop}
    (hstep : ∀ i rest n s, i ∉ rest → I (i :: rest) s → ∃ frames s',
      step (n, s) i = (n + frames.length, s') ∧ Covers node (i :: p <:+ ·) frames ∧
      Frees frames s s' ∧ I rest s')
    (entries : List (Fin 512)) (n : Nat) (s : Memory) (hnodup : entries.Nodup) (hI : I entries s) :
    ∃ frames s', entries.foldl step (n, s) = (n + frames.length, s') ∧
      Covers node (fun q => ∃ i ∈ entries, i :: p <:+ q) frames ∧ Frees frames s s' ∧ I [] s' := by
  induction entries generalizing n s with
  | nil => exact ⟨[], s, rfl, .nil (by simp), .nil s, hI⟩
  | cons i rest ih =>
    obtain ⟨hi, hrest⟩ := nodup_cons.1 hnodup
    obtain ⟨frames, s₁, hrun, hcovers, hfrees, hI₁⟩ := hstep i rest n s hi hI
    obtain ⟨frames', s₂, hrun', hcovers', hfrees', hI₂⟩ := ih (n + frames.length) s₁ hrest hI₁
    refine ⟨frames' ++ frames, s₂, ?_, ?_, hfrees.trans hfrees', hI₂⟩
    · rw [foldl_cons, hrun, hrun', length_append]
      congr 1
      omega
    · refine (hcovers.append h hcovers' fun q hq => ?_).congr fun q f _ => ?_
      · rintro ⟨j, hj, hq'⟩
        rw [index_eq_of_suffix hq hq'] at hi
        exact hi hj
      · simp

theorem freeTable_frees (f : Frame) (s : Memory) : Frees [f] s (freeTable f s) := by
  unfold freeTable
  split <;> exact ⟨rfl, rfl⟩

theorem freeTable_tables {g : Frame} (hne : g ≠ f) (s : Memory) :
    (freeTable f s).tables g = s.tables g := by
  unfold freeTable
  split
  · rfl
  · exact update_of_ne hne ..

/-- What one call of `freeSubtree` for the table at a path does. -/
structure Freed (node : Nodes) (p : Path) (s : Memory) (answer : Nat × Memory)
    (frames : List Frame) : Prop where
  count : answer.1 = frames.length
  covers : Covers node (p <:+ ·) frames
  frees : Frees frames s answer.2
  tables : ∀ g, g ∉ frames → answer.2.tables g = s.tables g

/-- What holds between two turns of the loop in `freeSubtree`. -/
structure Between (node : Nodes) (p : Path) (f : Frame) (s₀ : Memory) (rest : List (Fin 512))
    (s : Memory) : Prop where
  own : s.tables f = s₀.tables f
  intact : ∀ i ∈ rest, Intact node (i :: p) s
  outside : ∀ g, (∀ q, p <:+ q → node q ≠ some g) → s.tables g = s₀.tables g

theorem Between.step (h : Rep r s₁ node)
    (hf : node p = some f) {rest : List (Fin 512)} (hi : i ∉ rest)
    (hb : Between node p f s₀ (i :: rest) s) {answer : Nat × Memory}
    (hfreed : Freed node (i :: p) s answer frames) : Between node p f s₀ rest answer.2 where
  own := by
    rw [hfreed.tables f, hb.own]
    intro hmem
    obtain ⟨q, hq, hnode⟩ := (hfreed.covers.mem f).1 hmem
    rw [h.injective q p f hnode hf] at hq
    exact not_suffix_self i p hq
  intact j hj := by
    refine (hb.intact j (mem_cons_of_mem _ hj)).congr fun q g hq hg => hfreed.tables g ?_
    intro hmem
    obtain ⟨q', hq', hnode⟩ := (hfreed.covers.mem g).1 hmem
    rw [h.injective q' q g hnode hg] at hq'
    exact hi (index_eq_of_suffix hq' hq ▸ hj)
  outside g hg := by
    rw [hfreed.tables g, hb.outside g hg]
    intro hmem
    obtain ⟨q, hq, hnode⟩ := (hfreed.covers.mem g).1 hmem
    exact hg q ((suffix_cons i p).trans hq) hnode

theorem freeSubtree_spec (h : Rep r s₁ node) (level : Nat) (p : Path)
    (f : Frame) (s : Memory) (hlevel : p.length + level = 3) (hf : node p = some f)
    (hintact : Intact node p s) : ∃ frames, Freed node p s (freeSubtree level f s) frames := by
  induction level generalizing p f s with
  | zero =>
    refine ⟨[f], rfl, (Covers.single hf).congr fun q g hg => ?_, freeTable_frees f s,
      fun g hg => freeTable_tables (by simpa using hg) s⟩
    constructor
    · rintro rfl
      exact suffix_refl q
    · intro hq
      have hdepth := h.depth q g hg
      exact (hq.eq_of_length_le (by omega)).symm
  | succ level ih =>
    have hstep : ∀ i rest n t, i ∉ rest → Between node p f s (i :: rest) t → ∃ frames t',
        freeEntry (freeSubtree level) f (n, t) i = (n + frames.length, t') ∧
        Covers node (i :: p <:+ ·) frames ∧ Frees frames t t' ∧ Between node p f s rest t' := by
      intro i rest n t hi hb
      obtain ⟨table, htable, hentries⟩ := hintact p f (suffix_refl p) hf
      have hread : ((t.tables f).bind fun table => Entry.frame (table i)) = node (i :: p) := by
        rw [hb.own, htable, Option.bind_some, hentries (by omega) i]
      cases hnode : node (i :: p) with
      | none =>
        refine ⟨[], t, ?_, .nil fun q g hq => ?_, .nil t, hb.own,
          fun j hj => hb.intact j (mem_cons_of_mem _ hj), hb.outside⟩
        · simp only [freeEntry, hread, hnode]
          rfl
        · rw [h.none_below hnode hq]
          nofun
      | some g =>
        obtain ⟨frames, hfreed⟩ := ih (i :: p) g t (by simp only [length_cons]; omega) hnode
          (hb.intact i mem_cons_self)
        refine ⟨frames, (freeSubtree level g t).2, ?_, hfreed.covers, hfreed.frees,
          hb.step h hf hi hfreed⟩
        simp only [freeEntry, hread, hnode, hfreed.count]
    have hstart : Between node p f s (finRange 512) s :=
      ⟨rfl, fun i _ q g hq hg => hintact q g ((suffix_cons i p).trans hq) hg, fun _ _ => rfl⟩
    obtain ⟨frames, t, hrun, hcovers, hfrees, hend⟩ :=
      fold_frees h hstep (finRange 512) 0 s (nodup_finRange 512) hstart
    have hfree : freeSubtree (level + 1) f s = (frames.length + 1, freeTable f t) := by
      rw [freeSubtree, hrun]
      simp only [zero_add]
    refine ⟨[f] ++ frames, ?_⟩
    rw [hfree]
    refine ⟨by simp, ?_, hfrees.trans (freeTable_frees f t), fun g hg => ?_⟩
    · refine (hcovers.append h (Covers.single hf) fun q => ?_).congr fun q g _ => ?_
      · rintro ⟨i, -, hq⟩ rfl
        exact not_suffix_self i q hq
      · rw [suffix_iff]
        simp
    · have hne : g ≠ f := by
        rintro rfl
        simp at hg
      rw [freeTable_tables hne]
      refine hend.outside g fun q hq hnode => hg ?_
      rcases (suffix_iff p q).1 hq with ⟨i, hi⟩ | rfl
      · exact mem_append_right _ ((hcovers.mem g).2 ⟨q, ⟨i, mem_finRange i, hi⟩, hnode⟩)
      · exact absurd (Option.mem_unique hnode hf) hne

/-! ## The user half -/

/-- What holds between two turns of the loop in `freeUserHalf`. -/
structure RootBetween (node : Nodes) (root : Frame) (rest : List (Fin 512)) (s : Memory) :
    Prop where
  entries : ∃ table, s.tables root = some table ∧ ∀ i ∈ rest, Entry.frame (table i) = node [i]
  intact : ∀ i ∈ rest, Intact node [i] s

theorem freeRootEntry_step (h : Rep root s₁ node) (i : Fin 512)
    (rest : List (Fin 512)) (n : Nat) (s : Memory) (hi : i ∉ rest)
    (hb : RootBetween node root (i :: rest) s) :
    ∃ frames s', freeRootEntry root (n, s) i = (n + frames.length, s') ∧
      Covers node ([i] <:+ ·) frames ∧ Frees frames s s' ∧ RootBetween node root rest s' := by
  obtain ⟨table, htable, hentries⟩ := hb.entries
  have hread : ((s.tables root).bind fun table => Entry.frame (table i)) = node [i] := by
    rw [htable, Option.bind_some, hentries i mem_cons_self]
  cases hnode : node [i] with
  | none =>
    refine ⟨[], s, ?_, .nil fun q g hq => ?_, .nil s,
      ⟨table, htable, fun j hj => hentries j (mem_cons_of_mem _ hj)⟩,
      fun j hj => hb.intact j (mem_cons_of_mem _ hj)⟩
    · simp only [freeRootEntry, hread, hnode]
      rfl
    · rw [h.none_below hnode hq]
      nofun
  | some g =>
    obtain ⟨frames, hfreed⟩ := freeSubtree_spec h 2 [i] g s rfl hnode
      (hb.intact i mem_cons_self)
    have hroot : (freeSubtree 2 g s).2.tables root = some table := by
      rw [hfreed.tables root, htable]
      intro hmem
      obtain ⟨q, hq, hq'⟩ := (hfreed.covers.mem root).1 hmem
      rw [h.injective q [] root hq' h.root] at hq
      exact not_suffix_self i [] hq
    have hclear : clearEntry root i (freeSubtree 2 g s).2 =
        setTable root (update table i Entry.empty) (freeSubtree 2 g s).2 := by
      simp only [clearEntry, hroot]
    refine ⟨frames, clearEntry root i (freeSubtree 2 g s).2, ?_, hfreed.covers, ?_, ?_, ?_⟩
    · simp only [freeRootEntry, hread, hnode, hfreed.count]
    · rw [hclear]
      exact hfreed.frees.setTable root _
    · rw [hclear]
      refine ⟨_, Rep.tables_setTable_self _ _, fun j hj => ?_⟩
      rw [update_of_ne (by rintro rfl; exact hi hj)]
      exact hentries j (mem_cons_of_mem _ hj)
    · intro j hj
      rw [hclear]
      refine (hb.intact j (mem_cons_of_mem _ hj)).congr fun q g' hq hg' => ?_
      have hne : g' ≠ root := h.frame_ne h.root hg' (by rintro rfl; exact not_suffix_self j [] hq)
      rw [Rep.tables_setTable_of_ne _ hne]
      refine hfreed.tables g' fun hmem => ?_
      obtain ⟨q', hq', hnode'⟩ := (hfreed.covers.mem g').1 hmem
      rw [h.injective q' q g' hnode' hg'] at hq'
      exact hi (index_eq_of_suffix hq' hq ▸ hj)

theorem freeUserHalf_spec (h : Rep root s node)
    (huser : ∀ i g, node [i] = some g → i.val < firstKernelEntry) :
    ∃ frames s', freeUserHalf root s = (frames.length, s') ∧ s'.given = frames ++ s.given ∧
      frames.Perm s.lent ∧ s'.lent = [] := by
  obtain ⟨table, htable, hentries⟩ := h.intact [] [] root (suffix_refl []) h.root
  obtain ⟨frames, t, hrun, hcovers, hfrees, -⟩ := fold_frees h (freeRootEntry_step h)
    ((finRange 512).filter (·.val < firstKernelEntry)) 0 s
    ((nodup_finRange 512).filter _)
    ⟨⟨table, htable, fun i _ => hentries (by decide) i⟩, fun i _ => h.intact [i]⟩
  have hall : Covers node (fun _ => True) ([root] ++ frames) := by
    refine (hcovers.append h (Covers.single h.root) fun q => ?_).congr fun q f hf => ?_
    · rintro ⟨i, -, hq⟩ rfl
      exact not_suffix_self i [] hq
    · rw [iff_true]
      rcases (suffix_iff [] q).1 (nil_suffix) with ⟨i, hi⟩ | rfl
      · refine .inl ⟨i, ?_, hi⟩
        have hsome : ∃ g, node [i] = some g := by
          cases hnode : node [i] with
          | some g => exact ⟨g, rfl⟩
          | none => rw [h.none_below hnode hi] at hf; cases hf
        obtain ⟨g, hg⟩ := hsome
        simpa using huser i g hg
      · exact .inr rfl
  have hfrees' : Frees ([root] ++ frames) s (releaseFrame root t).2 := hfrees.trans ⟨rfl, rfl⟩
  have hmem : ∀ f, f ∈ [root] ++ frames ↔ f ∈ s.lent := by
    intro f
    rw [hall.mem, h.lent]
    simp
  refine ⟨[root] ++ frames, (releaseFrame root t).2, ?_, hfrees'.given,
    (perm_ext_iff_of_nodup hall.nodup h.nodup).2 hmem, ?_⟩
  · rw [freeUserHalf, hrun]
    simp
  · rw [hfrees'.lent, eq_nil_iff_forall_not_mem]
    intro f hf
    rw [mem_eraseAll _ h.nodup] at hf
    exact hf.2 ((hmem f).2 hf.1)

end Audhsos.Paging
