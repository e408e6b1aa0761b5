import Audhsos.Memory.RegionPart

/-!
The region table as a function of pages, `RegionTable.mapping`: `insert`, `remove` and `protect` add
a range, delete one and change the permissions of one, and keep the regions sorted, disjoint and
non-empty. They replace one region by parts of it, or set one between two others. `Laid` is the
invariant of the list, `coverOf` what it says about a page.
-/

namespace Audhsos

open Lib List Option PageRange

variable {B : Type} {n : Nat}

/-! ## Lists of regions -/

/-- What the regions say about a page: the answer of the first one that holds it. -/
def coverOf (regions : List (Region B)) (page : Page) : Option (Mapping B) :=
  (regions.find? (·.pages.contains page)).map (·.mapping page)

@[simp] theorem coverOf_nil (page : Page) : coverOf ([] : List (Region B)) page = none := rfl

theorem coverOf_cons (region : Region B) (regions : List (Region B)) (page : Page) :
    coverOf (region :: regions) page = (region.cover page).or (coverOf regions page) := by
  simp only [coverOf, Region.cover, find?_cons]
  cases region.pages.contains page <;> simp

theorem coverOf_append (front back : List (Region B)) (page : Page) :
    coverOf (front ++ back) page = (coverOf front page).or (coverOf back page) := by
  simp only [coverOf, find?_append]
  cases front.find? (·.pages.contains page) <;> simp

variable {page : Page}

theorem coverOf_eq_none {regions : List (Region B)}
    (h : ∀ region ∈ regions, ¬ region.pages.contains page = true) :
    coverOf regions page = none := by
  simp only [coverOf, map_eq_none_iff, find?_eq_none]
  exact h

theorem Region.cover_eq_none {region : Region B}
    (h : ¬ region.pages.contains page = true) : region.cover page = none :=
  if_neg h

/-- The regions are sound, and each ends before the ones behind it start. -/
structure Laid (kernel : Bool) (regions : List (Region B)) : Prop where
  sound : ∀ region ∈ regions, region.Sound kernel
  order : regions.Pairwise fun a b => a.pages.endNumber ≤ b.pages.start.number

namespace Laid

variable {kernel : Bool} {front back : List (Region B)} {region : Region B}

section

variable (h : Laid kernel (front ++ region :: back)) {other : Region B}
include h

theorem sound_mid : region.Sound kernel :=
  h.sound region (mem_append_right _ mem_cons_self)

theorem front_le (hmem : other ∈ front) : other.pages.endNumber ≤ region.pages.start.number :=
  (pairwise_append.mp h.order).2.2 other hmem region mem_cons_self

theorem le_back (hmem : other ∈ back) : region.pages.endNumber ≤ other.pages.start.number :=
  (pairwise_cons.mp (pairwise_append.mp h.order).2.1).1 other hmem

end

theorem splice (h : Laid kernel (front ++ back)) (parts : List (Region B))
    (hparts : Laid kernel parts)
    (hwithin : ∀ part ∈ parts, (∀ r ∈ front, r.pages.endNumber ≤ part.pages.start.number) ∧
      ∀ r ∈ back, part.pages.endNumber ≤ r.pages.start.number) :
    Laid kernel (front ++ parts ++ back) := by
  obtain ⟨hfront, hback, hcross⟩ := pairwise_append.mp h.order
  refine ⟨fun r hr => ?_, ?_⟩
  · rcases mem_append.mp hr with hr | hr
    · rcases mem_append.mp hr with hr | hr
      · exact h.sound r (mem_append_left _ hr)
      · exact hparts.sound r hr
    · exact h.sound r (mem_append_right _ hr)
  · refine pairwise_append.mpr ⟨pairwise_append.mpr
      ⟨hfront, hparts.order, fun a ha b hb => (hwithin b hb).1 a ha⟩, hback, fun a ha b hb => ?_⟩
    rcases mem_append.mp ha with ha | ha
    · exact hcross a ha b hb
    · exact (hwithin a ha).2 b hb

theorem append {back : List (Region B)} (hfront : Laid kernel front) (hback : Laid kernel back)
    (hcross : ∀ a ∈ front, ∀ b ∈ back, a.pages.endNumber ≤ b.pages.start.number) :
    Laid kernel (front ++ back) :=
  ⟨fun r hr => (mem_append.mp hr).elim (hfront.sound r) (hback.sound r),
    pairwise_append.mpr ⟨hfront.order, hback.order, hcross⟩⟩

theorem erase_mid (h : Laid kernel (front ++ region :: back)) : Laid kernel (front ++ back) :=
  have hsub : (front ++ back).Sublist (front ++ region :: back) :=
    (sublist_cons_self _ _).append_left _
  ⟨fun r hr => h.sound r (hsub.subset hr), h.order.sublist hsub⟩

theorem replace_parts (h : Laid kernel (front ++ region :: back)) {parts : List (Region B)}
    (hparts : Laid kernel parts)
    (hwithin : ∀ part ∈ parts, region.pages.start.number ≤ part.pages.start.number ∧
      part.pages.endNumber ≤ region.pages.endNumber) : Laid kernel (front ++ parts ++ back) :=
  h.erase_mid.splice parts hparts fun part hpart =>
    ⟨fun _ hr => (h.front_le hr).trans (hwithin part hpart).1,
      fun _ hr => (hwithin part hpart).2.trans (h.le_back hr)⟩

end Laid

/-! ## Taking pages out of a region -/

namespace Region

variable {kernel : Bool} {region : Region B} {pages : PageRange} {hi lo : Nat}

/-- `parts` is the region between the page numbers `lo` and `hi`: one part, or none when there is
no page between them. -/
structure Between (kernel : Bool) (region : Region B) (lo hi : Nat)
    (parts : List (Region B)) : Prop where
  laid : Laid kernel parts
  within : ∀ part ∈ parts, lo ≤ part.pages.start.number ∧ part.pages.endNumber ≤ hi
  cover : ∀ page, coverOf parts page =
    if lo ≤ page.number ∧ page.number < hi then region.cover page else none
  length : parts.length = if lo < hi then 1 else 0

theorem between_none (h : hi ≤ lo) : region.Between kernel lo hi [] := by
  refine ⟨⟨by simp, by simp⟩, by simp, fun page => ?_, ?_⟩
  · rw [coverOf_nil, if_neg (by omega)]
  · rw [if_neg (by omega), length_nil]

theorem IsPart.between {part : Region B} (h : region.IsPart lo hi part)
    (hregion : region.Sound kernel) (hlo : region.pages.start.number ≤ lo) (hlt : lo < hi)
    (hhi : hi ≤ region.pages.endNumber) : region.Between kernel lo hi [part] := by
  refine ⟨⟨by simpa using h.sound hregion hlo hlt hhi, by simp⟩, ?_, fun page => ?_, ?_⟩
  · simp [h.start, h.stop]
  · rw [coverOf_cons, coverOf_nil, or_none, h.cover_eq hlo hhi]
  · rw [if_pos hlt, length_singleton]

theorem head_between (hregion : region.Sound kernel) (page : Page)
    (hle : page.number ≤ region.pages.endNumber) :
    region.Between kernel region.pages.start.number page.number (region.head page).toList := by
  rcases region.head_cases page hle with ⟨hhead, h⟩ | ⟨part, hhead, h, hpart⟩ <;> rw [hhead]
  · exact between_none h
  · exact hpart.between hregion le_rfl h hle

theorem tail_between (hregion : region.Sound kernel) (page : Page)
    (hle : region.pages.start.number ≤ page.number) :
    region.Between kernel page.number region.pages.endNumber (region.tail page).toList := by
  rcases tail_cases hregion page hle with ⟨htail, h⟩ | ⟨part, htail, h, hpart⟩ <;> rw [htail]
  · exact between_none h
  · exact hpart.between hregion hle h le_rfl

theorem cover_cases (region : Region B) (page : Page) : region.cover page = none ∨
    region.pages.start.number ≤ page.number ∧ page.number < region.pages.endNumber := by
  rw [← contains_iff_number]
  by_cases h : region.pages.contains page = true
  · exact .inr h
  · exact .inl (cover_eq_none h)

/-- What is left of a region when `pages` go out of it. -/
def rest (region : Region B) (pages : PageRange) : List (Region B) :=
  (region.head ⟨max region.pages.start.number pages.start.number⟩).toList ++
    (region.tail ⟨min region.pages.endNumber pages.endNumber⟩).toList

/-- What is left are parts of the region, in order, that say what the region said outside of
`pages`; there are two exactly when `pages` lie strictly inside. -/
structure Leaves (kernel : Bool) (region : Region B) (pages : PageRange)
    (parts : List (Region B)) : Prop where
  laid : Laid kernel parts
  within : ∀ part ∈ parts, region.pages.start.number ≤ part.pages.start.number ∧
    part.pages.endNumber ≤ region.pages.endNumber
  outside : ∀ part ∈ parts, ¬ part.pages.overlaps pages = true
  cover : ∀ page, coverOf parts page =
    if pages.contains page = true then none else region.cover page
  length_le : parts.length ≤ 2
  divided : parts.length = 2 → region.pages.start.number < pages.start.number ∧
    pages.endNumber < region.pages.endNumber

theorem rest_leaves (hregion : region.Sound kernel)
    (hoverlaps : region.pages.overlaps pages = true) :
    region.Leaves kernel pages (region.rest pages) := by
  rw [overlaps_iff] at hoverlaps
  have hhead := head_between hregion ⟨max region.pages.start.number pages.start.number⟩
    (by simp only; omega)
  have htail := tail_between hregion ⟨min region.pages.endNumber pages.endNumber⟩
    (by simp only; omega)
  unfold rest
  dsimp only at hhead htail
  have hlength := hhead.length
  have hlength' := htail.length
  refine ⟨hhead.laid.append htail.laid fun a ha b hb => ?_, fun part hpart => ?_,
    fun part hpart => ?_, fun page => ?_, ?_, ?_⟩
  · have := hhead.within a ha
    have := htail.within b hb
    omega
  · rcases mem_append.mp hpart with h | h
    · have := hhead.within part h
      omega
    · have := htail.within part h
      omega
  · rw [overlaps_iff]
    rcases mem_append.mp hpart with h | h
    · have := hhead.within part h
      omega
    · have := htail.within part h
      omega
  · rw [coverOf_append, hhead.cover, htail.cover]
    simp only [contains_iff_number]
    rcases region.cover_cases page with h | h
    · simp [h]
    · split <;> split <;> split <;> first | omega | simp
  · rw [length_append, hlength, hlength']
    split <;> split <;> omega
  · rw [length_append, hlength, hlength']
    split <;> split <;> omega

end Region

/-! ## The loop of `remove` -/

namespace RegionTable

variable {kernel : Bool} {pages : PageRange}

theorem remainingFrom_eq (hcanonical : pages.start.Canonical) (page : Page)
    (hle : pages.start.number ≤ page.number) (hlt : page.number < pages.endNumber) :
    ∃ left, remainingFrom page pages = some left ∧ left.start = page ∧
      left.endNumber = pages.endNumber := by
  have hend := pages.end_le
  have hstop : pages.endNumber = pages.start.number + pages.count := rfl
  obtain ⟨-, hlimit, -⟩ := same_half page hcanonical hle (by omega)
  have hnew : page.number + (pages.endNumber - page.number) ≤ pageLimit page := by omega
  refine ⟨⟨page, _, hnew⟩, ?_, rfl, ?_⟩
  · rw [remainingFrom, if_neg (by omega), PageRange.new, dif_pos hnew]
  · change page.number + (pages.endNumber - page.number) = _
    omega

theorem removeLoop_overlapping (limit : Nat) (done todo : List (Region B))
    (taken : List (Taken B)) {region : Region B} (hregion : region.Sound kernel)
    (hoverlaps : region.pages.overlaps pages = true) :
    ∃ piece, piece.pages.start.number = max region.pages.start.number pages.start.number ∧
      (removeLoop limit pages kernel done taken (region :: todo) :
          Except RegionError (Removed B) × RegionTable B n) =
        if limit ≤ taken.length then
          (.ok ⟨taken, remainingFrom piece.pages.start pages⟩, ⟨done ++ region :: todo, kernel⟩)
        else if (region.rest pages).length = 2 ∧ n ≤ (done ++ region :: todo).length then
          (.error .quotaExceeded, ⟨done ++ region :: todo, kernel⟩)
        else
          removeLoop limit pages kernel (done ++ region.rest pages)
            (taken ++ [⟨piece, (region.rest pages).length = 0, (region.rest pages).length = 2⟩])
            todo := by
  obtain ⟨piece, hclipped, hpart⟩ := Region.clipped_isPart hregion hoverlaps
  refine ⟨piece, hpart.start, ?_⟩
  rw [overlaps_iff] at hoverlaps
  have hpiece := hpart.sound hregion (by omega) hoverlaps (by omega)
  have hend := region.pages.end_le
  have hstop : region.pages.endNumber = region.pages.start.number + region.pages.count := rfl
  have hstart := hpart.start
  obtain ⟨-, hlimit, -⟩ := same_half piece.pages.start hregion.canonical (by omega)
    (by omega)
  have htail := Region.tail_after_last hpiece.canonical hpiece.pos hlimit
  have hnumber : piece.pages.start = ⟨max region.pages.start.number pages.start.number⟩ := by
    rw [← hpart.start]
  rw [hpart.stop] at htail
  rw [removeLoop, if_neg (by rw [overlaps_iff]; omega), hclipped]
  dsimp only
  rw [htail, hnumber]
  unfold Region.rest
  split
  · rfl
  cases region.head _ with
  | none =>
    cases region.tail _ with
    | none => simp
    | some back => simp
  | some front =>
    cases region.tail _ with
    | none => simp
    | some back => simp

/-- What the loop has done to the regions `before` when it answers `removed`. -/
structure Removes (kernel : Bool) (pages : PageRange) (before : List (Region B))
    (removed : Removed B) (after : List (Region B)) : Prop where
  laid : Laid kernel after
  cover : ∀ page, coverOf after page =
    if pages.contains page = true ∧ ¬ removed.remaining.any (·.contains page) = true then none
    else coverOf before page

/-- Where the remainder starts when a call has taken at least one piece: at the start of a region
that is still there, so that no region reaches across its start. -/
structure Resumes (pages left : PageRange) (after : List (Region B)) : Prop where
  later : pages.start.number < left.start.number
  found : ∃ region ∈ after, region.pages.start.number = left.start.number
  clear : ∀ region ∈ after, left.start.number ≤ region.pages.start.number ∨
    region.pages.endNumber ≤ left.start.number

/-- The remainder starts at a region of `todo` or at the start of the range, and ends with the
range. -/
structure Leftover (pages left : PageRange) (todo : List (Region B)) : Prop where
  region : ∃ region ∈ todo, left.start.number = max region.pages.start.number pages.start.number
  canonical : left.start.Canonical
  stop : left.endNumber = pages.endNumber
  pos : left.start.number < left.endNumber

section

variable {limit : Nat} {done todo : List (Region B)} {taken : List (Taken B)} {region : Region B}
  {answer : Except RegionError (Removed B) × RegionTable B n}

theorem Leftover.cons {left : PageRange} (h : Leftover pages left todo) :
    Leftover pages left (region :: todo) := by
  obtain ⟨other, hmem, hstart⟩ := h.region
  exact { h with region := ⟨other, mem_cons_of_mem _ hmem, hstart⟩ }

/-- What the loop answers when `done` is behind it and it took `taken`. -/
def Ends (limit : Nat) (pages : PageRange) (kernel : Bool) (done : List (Region B))
    (taken : List (Taken B)) (todo : List (Region B)) :
    Except RegionError (Removed B) × RegionTable B n → Prop
  | (.ok removed, after) => after.kernel = kernel ∧ after.regions.length ≤ n ∧
      Removes kernel pages (done ++ todo) removed after.regions ∧
      after.regions.length + removed.items.countP (·.vanished) + taken.countP (·.divided) =
        (done ++ todo).length + removed.items.countP (·.divided) + taken.countP (·.vanished) ∧
      (∀ left, removed.remaining = some left → Leftover pages left todo ∧
        (0 < limit → Resumes pages left after.regions))
  | (.error _, after) => taken = [] ∧ after = ⟨done ++ todo, kernel⟩ ∧
      ∃ region ∈ todo, region.pages.start.number < pages.start.number ∧
        pages.endNumber < region.pages.endNumber

theorem Ends.keep (h : Ends limit pages kernel (done ++ [region]) taken todo answer) :
    Ends limit pages kernel done taken (region :: todo) answer := by
  unfold Ends at h ⊢
  rw [append_assoc, singleton_append] at h
  obtain ⟨e | removed, after⟩ := answer
  · obtain ⟨hnil, hafter, other, hmem, h⟩ := h
    exact ⟨hnil, hafter, other, mem_cons_of_mem _ hmem, h⟩
  · obtain ⟨hkernel, hroom, hremoves, hcount, hleft⟩ := h
    exact ⟨hkernel, hroom, hremoves, hcount, fun left h => (hleft left h).imp_left .cons⟩

theorem Ends.take (hlaid : Laid kernel (done ++ region :: todo)) {parts : List (Region B)}
    (hrest : region.Leaves kernel pages parts) {piece : Region B}
    (h : Ends limit pages kernel (done ++ parts)
      (taken ++ [⟨piece, parts.length = 0, parts.length = 2⟩]) todo answer) :
    Ends limit pages kernel done taken (region :: todo) answer := by
  obtain ⟨e | removed, after⟩ := answer
  · exact absurd h.1 (by simp)
  obtain ⟨hkernel, hroom, hremoves, hcount, hleft⟩ := h
  refine ⟨hkernel, hroom, ⟨hremoves.laid, fun page => ?_⟩, ?_,
    fun left h => (hleft left h).imp_left .cons⟩
  · rw [hremoves.cover page]
    split
    · rfl
    rename_i hkept
    rw [coverOf_append, coverOf_append, hrest.cover page, coverOf_append, coverOf_cons]
    split
    · rename_i hin
      -- the page is in the remainder, which starts behind this region
      cases hremaining : removed.remaining with
      | none => simp [hremaining, hin] at hkept
      | some left =>
        obtain ⟨other, hmem, hstart⟩ := (hleft left hremaining).1.region
        have hle := hlaid.le_back hmem
        have hkept' : left.contains page = true := by simpa [hremaining, hin] using hkept
        rw [contains_iff_number] at hkept'
        rw [Region.cover_eq_none (by rw [contains_iff_number]; omega), or_none, none_or]
    · rw [Option.or_assoc]
  · have := hrest.length_le
    simp only [countP_append, countP_singleton, length_append, length_cons,
      decide_eq_true_eq] at hcount ⊢
    split at hcount <;> split at hcount <;> omega

variable (hcanonical : pages.start.Canonical)
  (hdone : ∀ region ∈ done, ¬ region.pages.overlaps pages = true)
include hdone

theorem coverOf_done (hin : pages.contains page = true) : coverOf done page = none := by
  refine coverOf_eq_none fun region hmem hcontains => hdone region hmem ?_
  rw [contains_iff_number] at hin hcontains
  rw [overlaps_iff]
  omega

include hcanonical

/-- The answer is full: the range from `page` on, where the region enters it, is left. -/
theorem ends_full (hlaid : Laid kernel (done ++ region :: todo))
    (htaken : taken ≠ [] → pages.start.number < region.pages.start.number)
    (hroom : (done ++ region :: todo).length ≤ n)
    (hoverlaps : region.pages.overlaps pages = true) (hlimit : limit ≤ taken.length)
    (hpage : page.number = max region.pages.start.number pages.start.number) :
    Ends (n := n) limit pages kernel done taken (region :: todo)
      (.ok ⟨taken, remainingFrom page pages⟩, ⟨done ++ region :: todo, kernel⟩) := by
  have hlt := hlaid.sound_mid.start_lt_end
  rw [overlaps_iff] at hoverlaps
  obtain ⟨left, hleft, rfl, hstop⟩ := remainingFrom_eq hcanonical page (by omega) (by omega)
  refine ⟨rfl, hroom, ⟨hlaid, fun page => ?_⟩, by simp only; omega, fun left' hleft' => ?_⟩
  · simp only [hleft, any_some]
    split
    · rename_i hin
      rw [coverOf_append, coverOf_cons, coverOf_done hdone hin.1, Region.cover_eq_none,
        coverOf_eq_none]
      · rfl
      · intro other hmem
        have := hlaid.le_back hmem
        simp only [contains_iff_number] at hin ⊢
        omega
      · simp only [contains_iff_number] at hin ⊢
        omega
    · rfl
  · obtain rfl := mem_unique hleft hleft'
    obtain ⟨hhalf, -, -⟩ := same_half left.start hcanonical (by omega) (by
      have := pages.end_le
      simp only [PageRange.endNumber] at hoverlaps
      omega)
    refine ⟨⟨⟨region, mem_cons_self, hpage⟩, hhalf, hstop, by omega⟩, fun hpos => ?_⟩
    have hfirst := htaken (ne_nil_of_length_pos (by omega))
    have hsame : left.start.number = region.pages.start.number := by omega
    refine ⟨by omega, ⟨region, by simp, hsame.symm⟩, fun other hmem => ?_⟩
    rw [hsame]
    rcases mem_append.mp hmem with hmem | hmem
    · exact .inr (hlaid.front_le hmem)
    · rcases mem_cons.mp hmem with rfl | hmem
      · exact .inl le_rfl
      · exact .inl (hlt.le.trans (hlaid.le_back hmem))

end

/-- The loop over sound regions in order. `done` no longer overlaps the range; once a piece is
taken every region still to come starts inside the range, so none of them can fall into two. -/
theorem removeLoop_spec (limit : Nat) (hcanonical : pages.start.Canonical)
    (todo : List (Region B)) :
    ∀ (done : List (Region B)) (taken : List (Taken B)), Laid kernel (done ++ todo) →
      (∀ region ∈ done, ¬ region.pages.overlaps pages = true) →
      (taken ≠ [] → ∀ region ∈ todo, pages.start.number < region.pages.start.number) →
      (done ++ todo).length ≤ n → Ends (n := n) limit pages kernel done taken todo
        (removeLoop limit pages kernel done taken todo) := by
  induction todo with
  | nil =>
    intro done taken hlaid hdone _ hroom
    unfold removeLoop
    rw [append_nil] at hlaid hroom
    refine ⟨rfl, hroom, ⟨hlaid, fun page => ?_⟩, by simp only [append_nil]; omega, by simp⟩
    simp only [any_none, Bool.false_eq_true, not_false_eq_true, and_true, append_nil]
    split
    · rename_i hin
      exact coverOf_done hdone hin
    · rfl
  | cons region todo ih =>
    intro done taken hlaid hdone htaken hroom
    have hregion := hlaid.sound_mid
    by_cases hoverlaps : region.pages.overlaps pages = true
    swap
    · unfold removeLoop
      rw [if_pos hoverlaps]
      have hsplit : done ++ region :: todo = done ++ [region] ++ todo := by simp
      rw [hsplit] at hlaid hroom
      exact .keep (ih (done ++ [region]) taken hlaid
        (fun other hmem => (mem_append.mp hmem).elim (hdone other)
          fun h => mem_singleton.mp h ▸ hoverlaps)
        (fun hne other hmem => htaken hne other (mem_cons_of_mem _ hmem)) hroom)
    obtain ⟨piece, hpiece, hturn⟩ := removeLoop_overlapping (n := n) limit done todo taken
      hregion hoverlaps
    have hrest := Region.rest_leaves hregion hoverlaps
    have hfirst := fun hne => htaken hne region mem_cons_self
    rw [hturn]
    by_cases hlimit : limit ≤ taken.length
    · rw [if_pos hlimit]
      exact ends_full hcanonical hdone hlaid hfirst hroom hoverlaps hlimit hpiece
    rw [if_neg hlimit]
    by_cases hfull : (region.rest pages).length = 2 ∧ n ≤ (done ++ region :: todo).length
    · rw [if_pos hfull]
      obtain ⟨hbefore, hafter⟩ := hrest.divided hfull.1
      refine ⟨?_, rfl, region, mem_cons_self, hbefore, hafter⟩
      by_contra hne
      exact absurd hbefore (hfirst hne).not_gt
    rw [if_neg hfull]
    refine .take hlaid hrest (ih _ _ (hlaid.replace_parts hrest.laid hrest.within)
      (fun other hmem => (mem_append.mp hmem).elim (hdone other) (hrest.outside other))
      (fun _ other hmem => ?_) ?_)
    · have := hlaid.le_back hmem
      rw [overlaps_iff] at hoverlaps
      omega
    · have := hrest.length_le
      simp only [length_append, length_cons] at hfull hroom ⊢
      omega

end RegionTable

end Audhsos
