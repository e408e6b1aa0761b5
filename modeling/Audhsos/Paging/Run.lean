import Audhsos.Paging.Free

/-!
Runs of a mapper. A run is any sequence of calls, each of which may fail; beside it goes the
partial map from pages to frames and permissions, which only the calls that succeed update.
-/

namespace Audhsos.Paging

open Lib Function List Prog

/-! ## Calls and their meaning -/

inductive Call where
  | map (page : Page) (frame : Frame) (perms : Permissions) (cache : CachePolicy)
  | unmap (page : Page)
  | protect (page : Page) (perms : Permissions)
  | translate (page : Page)
deriving DecidableEq

inductive Answer where
  | done
  | frame (frame : Frame)
  | translation (translation : Option (Frame × Permissions))
deriving DecidableEq

/-- The abstract state: what a page translates to. -/
abbrev Mapping := Page → Option (Frame × Permissions)

variable {mapping : Mapping}

namespace Call

def page : Call → Page
  | .map page _ _ _ => page
  | .unmap page => page
  | .protect page _ => page
  | .translate page => page

variable (root : Frame)

def run : Call → Edit Answer
  | .map page frame perms cache => do
    Mapper.map root page frame perms cache
    pure .done
  | .unmap page => do
    let frame ← Mapper.unmap root page
    pure (.frame frame)
  | .protect page perms => do
    Mapper.protect root page perms
    pure .done
  | .translate page => Prog.gets fun s => .translation (Mapper.translate root page s)

variable (mapping)

/-- What a call that succeeds does to the mapping. -/
def apply : Call → Mapping
  | .map page frame perms _ => update mapping page (some (frame, Mapper.confine page perms))
  | .unmap page => update mapping page none
  | .protect page perms =>
    update mapping page ((mapping page).map fun old => (old.1, Mapper.confine page perms))
  | .translate _ => mapping

/-- What a call may answer when it succeeds. -/
def Answers : Call → Answer → Prop
  | .map page _ _ _, answer => mapping page = none ∧ answer = .done
  | .unmap page, answer => ∃ frame perms, mapping page = some (frame, perms) ∧
      answer = .frame frame
  | .protect page _, answer => mapping page ≠ none ∧ answer = .done
  | .translate page, answer => answer = .translation (mapping page)

def Refused : Call → MapError → Prop
  | .map page _ _ _, e => Mapper.NoFrame e ∨ e = .alreadyMapped ∧ mapping page ≠ none
  | .unmap page, e => e = .notMapped ∧ mapping page = none
  | .protect page _, e => e = .notMapped ∧ mapping page = none
  | .translate _, _ => False

def step (state : Mapping × Memory) (call : Call) : Mapping × Memory :=
  match call.run root state.2 with
  | (.ok _, s) => (apply state.1 call, s)
  | (.error _, s) => (state.1, s)

def steps (calls : List Call) (state : Mapping × Memory) : Mapping × Memory :=
  calls.foldl (step root) state

end Call

/-! ## The tables that can be reached -/

/-- The walk along a path from the root ends in the table in a frame. -/
inductive Reaches (root : Frame) (s : Memory) : Path → Frame → Prop where
  | root : Reaches root s [] root
  | entry {p : Path} {f g : Frame} {table : Table} {i : Fin 512} (above : Reaches root s p f)
      (level : p.length < 3) (reachable : s.tables f = some table)
      (entry : Entry.frame (table i) = some g) : Reaches root s (i :: p) g

/-- The frames lent are the tables that can be reached from the root, each once. -/
structure Owned (root : Frame) (s : Memory) : Prop where
  nodup : s.lent.Nodup
  lent : ∀ f, f ∈ s.lent ↔ ∃ p, Reaches root s p f
  once : ∀ p q f, Reaches root s p f → Reaches root s q f → p = q

def NoEmptyTable (root : Frame) (s : Memory) : Prop :=
  ∀ p f table, p ≠ [] → Reaches root s p f → s.tables f = some table →
    ∃ i, Entry.isPresent (table i) = true

variable {root : Frame} {s : Memory} {node : Nodes} {page : Page} {s' : Memory}

theorem Rep.reaches_iff (h : Rep root s node) (p : Path) (f : Frame) :
    Reaches root s p f ↔ node p = some f := by
  constructor
  · intro hp
    induction hp with
    | root => exact h.root
    | @entry p f g table i _ level reachable entry ih =>
      obtain ⟨table', htable', hentries⟩ := h.intact p p f (suffix_refl p) ih
      obtain rfl := Option.mem_unique reachable htable'
      rw [← hentries level i, entry]
  · intro hp
    induction p generalizing f with
    | nil =>
      obtain rfl := Option.mem_unique h.root hp
      exact .root
    | cons i p ih =>
      obtain ⟨g, hg⟩ := h.parent_some hp
      obtain ⟨table, htable, hentries⟩ := h.intact p p g (suffix_refl p) hg
      exact .entry (ih g hg) (h.length_lt hp) htable ((hentries (h.length_lt hp) i).trans hp)

theorem Rep.owned (h : Rep root s node) : Owned root s where
  nodup := h.nodup
  lent f := by
    rw [h.lent]
    exact exists_congr fun p => (h.reaches_iff p f).symm
  once p q f hp hq := h.injective p q f ((h.reaches_iff p f).1 hp) ((h.reaches_iff q f).1 hq)

theorem Sound.noEmptyTable (h : Sound root s node) : NoEmptyTable root s :=
  fun p f table hnil hp htable => h.busy p hnil hnil f table ((h.rep.reaches_iff p f).1 hp) htable

theorem Sound.exists_page (h : Sound root s node) {i : Fin 512} {g : Frame}
    (hg : node [i] = some g) : ∃ page, index 3 page = i ∧ Mapper.translate root page s ≠ none := by
  have hinner := h.rep.inner h.busy
  obtain ⟨j, g₁, hg₁⟩ := hinner [i] g (by simp) (by simp) hg
  obtain ⟨k, g₀, hg₀⟩ := hinner [j, i] g₁ (by simp) (by simp) hg₁
  obtain ⟨table, htable, -⟩ := h.rep.holds _ _ hg₀
  obtain ⟨l, hl⟩ := h.busy [k, j, i] (by simp) (by simp) g₀ table hg₀ htable
  obtain ⟨habove, hindex⟩ := index_pageOf i j k l
  refine ⟨pageOf i j k l, ?_, ?_⟩
  · simp only [above, range', Nat.reduceSub, Nat.reduceAdd, map_cons, map_nil,
      List.cons.injEq, and_true] at habove
    exact habove.2.2
  · rw [Mapper.translate_of_leaf h.rep (habove ▸ hg₀) htable, hindex]
    have hsome := (Entry.frame_isSome (table l)).trans hl
    obtain ⟨frame, hframe⟩ := Option.isSome_iff_exists.1 hsome
    simp [hframe]

/-! ## Every call keeps the two states together -/

/-- The memory is a sound tree whose translations are the mapping. -/
def Agrees (root : Frame) (mapping : Mapping) (s : Memory) : Prop :=
  (∃ node, Sound root s node) ∧ ∀ page, Mapper.translate root page s = mapping page

/-- What a call does in a state that agrees with a mapping. -/
def Fits (root : Frame) (mapping : Mapping) (s : Memory) (call : Call) :
    Except MapError Answer × Memory → Prop
  | (.ok answer, s') => Call.Answers mapping call answer ∧ Agrees root (Call.apply mapping call) s'
  | (.error e, s') => Call.Refused mapping call e ∧ Agrees root mapping s' ∧ s'.lent.Perm s.lent

theorem translate_update
    {value : Option (Frame × Permissions)} (h : ∀ q, Mapper.translate root q s = mapping q)
    (h' : ∀ q, Mapper.translate root q s' =
      if q = page then value else Mapper.translate root q s) (q : Page) :
    Mapper.translate root q s' = update mapping page value q := by
  rw [h', update_apply, h]

theorem Rep.lent_perm (h : Rep root s node) (h' : Rep root s' node) : s'.lent.Perm s.lent :=
  (perm_ext_iff_of_nodup h'.nodup h.nodup).2 fun f => (h'.lent f).trans (h.lent f).symm

section

variable {mapping : Mapping} (h : Agrees root mapping s)
include h

theorem Agrees.call (call : Call) : Fits root mapping s call (call.run root s) := by
  obtain ⟨⟨node, hsound⟩, hagree⟩ := h
  cases call with
  | map page frame perms cache =>
    rcases Mapper.map_spec hsound page frame perms cache with
      ⟨s', node', hrun, hsound', hnone, htranslate⟩ | ⟨e, s', hrun, hsound', hsame, hwhy⟩
    · rw [Call.run, run_bind_ok hrun]
      exact ⟨⟨(hagree page).symm.trans hnone, rfl⟩, ⟨node', hsound'⟩,
        translate_update hagree htranslate⟩
    · rw [Call.run, run_bind_error hrun]
      rw [hagree] at hwhy
      exact ⟨hwhy, ⟨⟨node, hsound'⟩, fun q => (hsame q).trans (hagree q)⟩,
        hsound.rep.lent_perm hsound'.rep⟩
  | unmap page =>
    rcases Mapper.unmap_spec hsound page with
      ⟨frame, perms, s', node', hrun, hsound', hsome, htranslate⟩ | ⟨hrun, hnone⟩
    · rw [Call.run, run_bind_ok hrun]
      exact ⟨⟨frame, perms, (hagree page).symm.trans hsome, rfl⟩, ⟨node', hsound'⟩,
        translate_update hagree htranslate⟩
    · rw [Call.run, run_bind_error hrun]
      exact ⟨⟨rfl, (hagree page).symm.trans hnone⟩, ⟨⟨node, hsound⟩, hagree⟩, .refl _⟩
  | protect page perms =>
    rcases Mapper.protect_spec hsound page perms with
      ⟨frame, old, s', hrun, hsound', hsome, htranslate⟩ | ⟨hrun, hnone⟩
    · have hmapped : mapping page = some (frame, old) := (hagree page).symm.trans hsome
      rw [Call.run, run_bind_ok hrun]
      refine ⟨⟨by rw [hmapped]; nofun, rfl⟩, ⟨node, hsound'⟩, ?_⟩
      rw [Call.apply, hmapped]
      exact translate_update hagree htranslate
    · rw [Call.run, run_bind_error hrun]
      exact ⟨⟨rfl, (hagree page).symm.trans hnone⟩, ⟨⟨node, hsound⟩, hagree⟩, .refl _⟩
  | translate page => exact ⟨congrArg Answer.translation (hagree page), ⟨node, hsound⟩, hagree⟩

theorem Agrees.step (call : Call) :
    Agrees root (Call.step root (mapping, s) call).1 (Call.step root (mapping, s) call).2 := by
  have hfits := h.call call
  unfold Call.step
  dsimp only
  generalize call.run root s = answer at hfits ⊢
  rcases answer with ⟨e | answer, s'⟩
  · exact hfits.2.1
  · exact hfits.2

theorem Agrees.steps (calls : List Call) :
    Agrees root (Call.steps root calls (mapping, s)).1 (Call.steps root calls (mapping, s)).2 := by
  induction calls generalizing mapping s with
  | nil => exact h
  | cons call calls ih => exact ih (h.step call)

end

/-! ## Runs over user pages -/

/-- Only pages of the user half are mapped. -/
def UserOnly (mapping : Mapping) : Prop := ∀ page, mapping page ≠ none → isUser page = true

theorem UserOnly.update (h : UserOnly mapping)
    (hpage : isUser page = true) (value : Option (Frame × Permissions)) :
    UserOnly (update mapping page value) := by
  intro q hq
  by_cases hne : q = page
  · rw [hne]
    exact hpage
  · rw [update_of_ne hne] at hq
    exact h q hq

theorem UserOnly.step (h : UserOnly mapping) {call : Call}
    (hcall : isUser call.page = true) (s : Memory) :
    UserOnly (Call.step root (mapping, s) call).1 := by
  have happly : UserOnly (Call.apply mapping call) := by
    cases call with
    | translate => exact h
    | _ => exact h.update hcall _
  unfold Call.step
  dsimp only
  generalize call.run root s = answer
  rcases answer with ⟨e | answer, s'⟩
  · exact h
  · exact happly

theorem UserOnly.steps (h : UserOnly mapping) (s : Memory)
    (calls : List Call) (hcalls : ∀ call ∈ calls, isUser call.page = true) :
    UserOnly (Call.steps root calls (mapping, s)).1 := by
  induction calls generalizing mapping s with
  | nil => exact h
  | cons call calls ih =>
    exact ih (h.step (hcalls call mem_cons_self) s) _
      fun call' hcall' => hcalls call' (mem_cons_of_mem _ hcall')

theorem Agrees.freeUserHalf (h : Agrees root mapping s) (huser : UserOnly mapping) :
    ∃ frames s', freeUserHalf root s = (frames.length, s') ∧ s'.given = frames ++ s.given ∧
      frames.Perm s.lent ∧ s'.lent = [] := by
  obtain ⟨⟨node, hsound⟩, hagree⟩ := h
  refine freeUserHalf_spec hsound.rep fun i g hg => ?_
  obtain ⟨page, hindex, hmapped⟩ := hsound.exists_page hg
  rw [← hindex]
  rw [hagree] at hmapped
  exact (isUser_iff page).1 (huser page hmapped)

/-! ## The mapper -/

/-- The root holds an empty table and is the only frame lent. -/
structure Fresh (root : Frame) (s : Memory) : Prop where
  table : s.tables root = some fun _ => Entry.empty
  lent : s.lent = [root]

theorem Fresh.agrees (h : Fresh root s) : Agrees root (fun _ => none) s := by
  have hrep : Rep root s (update (fun _ => none) [] (some root)) := by
    refine ⟨update_self .., ?_, ?_, ?_, ?_, ?_, ?_⟩
    · intro p q f hp hq
      rw [update_apply] at hp hq
      split at hp <;> split at hq <;> simp_all
    · intro i p _
      exact update_of_ne (by simp) ..
    · intro p f hp
      rw [update_apply] at hp
      split at hp <;> simp_all
    · intro p f hp
      rw [update_apply] at hp
      split at hp
      · cases hp
        refine ⟨_, h.table, fun _ i => ?_, fun _ _ => Entry.validate_empty 0⟩
        rfl
      · cases hp
    · rw [h.lent]
      exact nodup_singleton root
    · intro f
      rw [h.lent, mem_singleton]
      constructor
      · rintro rfl
        exact ⟨[], update_self ..⟩
      · rintro ⟨p, hp⟩
        rw [update_apply] at hp
        split at hp <;> simp_all
  refine ⟨⟨_, hrep, fun p hnil _ f table hf => ?_⟩, fun page => ?_⟩
  · rw [update_of_ne hnil] at hf
    cases hf
  · refine Mapper.translate_missing hrep (update_of_ne ?_ ..)
    intro hnil
    have hlen := length_above page 0
    rw [hnil] at hlen
    cases hlen

/-- A machine of eight frames with the root in frame zero; the source hands out the others in
turn. -/
def eightFrames : Memory where
  tables f := if f.toNat < 8 then some fun _ => Entry.empty else none
  answers n := if n < 7 then some (BitVec.ofNat 40 (n + 1)) else none
  asked := 0
  lent := [0]
  given := []
  flushed := []

/-- Two pages of the user half whose leaves lie in different tables, and one of them again. -/
def threeCalls : List Call :=
  [.map 5 100 ⟨true, false, true⟩ .writeBack, .map 0x40000 101 ⟨false, true, true⟩ .uncached,
    .unmap 5]

end Audhsos.Paging
