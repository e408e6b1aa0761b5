import Audhsos.Memory.Region

/-!
Parts of a region. `Region.head`, `Region.tail` and `Region.clipped` answer the part between two
page numbers, `IsPart`, as long as the pages are canonical and the byte offset of the last page fits
in 64 bits. `Region.cover` is what a region says about a page, and a part says the same on its own
pages; of a list of regions, the first one that holds the page answers.
-/

namespace Audhsos

open PageRange Page Option

/-! ## Pages of one half -/

variable (page : Page)

/-- The source's page holds a canonical address. -/
def Page.Canonical : Prop := isCanonical page.start = true

namespace Page

theorem isUser_iff : page.isUser = true ↔ page.number < 2 ^ 35 := by
  simp only [isUser, decide_eq_true_eq]
  simp only [start, userSpaceEnd, pageSize]
  omega

theorem canonical_iff : page.Canonical ↔ page.number < 2 ^ 35 ∨ 2 ^ 52 - 2 ^ 35 ≤ page.number := by
  simp only [Canonical, isCanonical, Bool.or_eq_true, decide_eq_true_eq]
  simp only [start, userSpaceEnd, kernelSpaceStart, pageSize]
  omega

end Page

theorem pageLimit_eq : pageLimit page = if page.number < 2 ^ 35 then 2 ^ 35 else 2 ^ 52 := by
  simp only [pageLimit, page.isUser_iff]
  rfl

variable {page : Page}

theorem same_half (next : Page) (hcanonical : page.Canonical)
    (hle : page.number ≤ next.number) (hlt : next.number < pageLimit page) :
    next.Canonical ∧ pageLimit next = pageLimit page ∧ next.isUser = page.isUser := by
  rw [canonical_iff] at hcanonical
  rw [pageLimit_eq] at hlt
  rw [canonical_iff, pageLimit_eq, pageLimit_eq, Bool.eq_iff_iff, isUser_iff, isUser_iff]
  split at hlt <;> (refine ⟨?_, ?_, ?_⟩ <;> first | omega | (split <;> omega))

/-- The page `count` pages on is the one with that number, unless it leaves the half. -/
theorem Page.checkedAdd_eq {count : Nat} (hcanonical : page.Canonical)
    (hle : page.number + count ≤ pageLimit page) :
    page.checkedAdd count =
      if page.number + count < pageLimit page then some ⟨page.number + count⟩ else none := by
  have hlimit := pageLimit_eq page
  have hnext : (mk (page.number + count)).start = page.start + count * pageSize := Nat.add_mul _ _ _
  have hcount : count * pageSize < u64Size := by
    simp only [pageSize, u64Size]
    split at hlimit <;> omega
  rw [canonical_iff] at hcanonical
  rw [checkedAdd, checkedMul64, if_pos hcount]
  dsimp only
  rw [checkedAdd64, ← hnext]
  by_cases hlt : page.number + count < pageLimit page
  · obtain ⟨hin, -, hhalf⟩ := same_half ⟨page.number + count⟩
      (page.canonical_iff.mpr hcanonical) (Nat.le_add_right _ _) hlt
    have hsum : (mk (page.number + count)).start < u64Size := by
      simp only [start, pageSize, u64Size]
      split at hlimit <;> omega
    rw [if_pos hsum, if_pos hlt]
    exact (if_pos ⟨hin, hhalf⟩).trans
      (congrArg (fun number => some (mk number)) (Nat.mul_div_cancel _ (by decide)))
  · rw [if_neg hlt]
    by_cases hsum : (mk (page.number + count)).start < u64Size
    · have hstop : ¬ (mk (page.number + count)).Canonical := by
        rw [canonical_iff]
        simp only [start, pageSize, u64Size] at hsum ⊢
        split at hlimit <;> omega
      rw [if_pos hsum]
      exact if_neg fun h => hstop h.1
    · rw [if_neg hsum]

namespace PageRange

theorem contains_iff_number (range : PageRange) (page : Page) :
    range.contains page = true ↔
      range.start.number ≤ page.number ∧ page.number < range.endNumber := by
  simp only [contains, Bool.and_eq_true, decide_eq_true_eq]

theorem overlaps_iff (a b : PageRange) :
    a.overlaps b = true ↔
      max a.start.number b.start.number < min a.endNumber b.endNumber := by
  simp only [overlaps, isEmpty, Bool.and_eq_true, Bool.not_eq_true', decide_eq_true_eq,
    decide_eq_false_iff_not]
  simp only [endNumber]
  omega

theorem after_last {range : PageRange} (hcanonical : range.start.Canonical)
    (hpos : 0 < range.count) :
    range.last.bind (·.checkedAdd 1) =
      if range.endNumber < pageLimit range.start then some ⟨range.endNumber⟩ else none := by
  have hle := range.end_le
  have hlast : range.last = some ⟨range.start.number + (range.count - 1)⟩ := by
    rw [last, if_neg (by omega), checkedAdd_eq hcanonical (by omega), if_pos (by omega)]
  have hhalf := same_half ⟨range.start.number + (range.count - 1)⟩ hcanonical
    (Nat.le_add_right _ _) (by simp only; omega)
  have hnumber : range.start.number + (range.count - 1) + 1 = range.endNumber := by
    simp only [endNumber]
    omega
  rw [hlast, bind_some, checkedAdd_eq hhalf.1 (by rw [hhalf.2.1]; simp only; omega), hhalf.2.1]
  simp only [hnumber]

end PageRange

/-! ## What a region maps a page to -/

structure Mapping (B : Type) where
  backing : B
  offset : Nat
  perms : Permissions
  rights : Rights
deriving DecidableEq

namespace Region

variable {B : Type} {kernel : Bool} {region part : Region B} {hi lo : Nat} {pages : PageRange}

variable (region)

def mapping (page : Page) : Mapping B :=
  ⟨region.backing, region.offset + (page.number - region.pages.start.number) * pageSize,
    region.perms, region.rights⟩

def cover (page : Page) : Option (Mapping B) :=
  if region.pages.contains page then some (region.mapping page) else none

/-- The byte offset of the last page fits in 64 bits. -/
def Fits : Prop :=
  region.offset + (region.pages.count - 1) * pageSize < u64Size

variable {region}

/-- `part` is `region` between the page numbers `lo` and `hi`. -/
structure IsPart (region : Region B) (lo hi : Nat) (part : Region B) : Prop where
  start : part.pages.start.number = lo
  stop : part.pages.endNumber = hi
  backing : part.backing = region.backing
  offset : part.offset = region.offset + (lo - region.pages.start.number) * pageSize
  perms : part.perms = region.perms
  rights : part.rights = region.rights

/-- What every region of a table satisfies: it has pages, at canonical addresses and in the
mappable user half unless the table is the kernel's, and its byte offsets fit. -/
structure Sound (kernel : Bool) (region : Region B) : Prop where
  pos : 0 < region.pages.count
  canonical : region.pages.start.Canonical
  fits : region.Fits
  inUser : kernel = false → region.pages.isUser = true ∧
    userSpaceStart ≤ region.pages.start.start

theorem Sound.start_lt_end (h : region.Sound kernel) :
    region.pages.start.number < region.pages.endNumber := by
  have := h.pos
  simp only [endNumber]
  omega

theorem IsPart.cover_eq (h : region.IsPart lo hi part)
    (hlo : region.pages.start.number ≤ lo) (hhi : hi ≤ region.pages.endNumber) (page : Page) :
    part.cover page = if lo ≤ page.number ∧ page.number < hi then region.cover page else none := by
  simp only [cover, contains_iff_number, h.start, h.stop]
  by_cases hin : lo ≤ page.number ∧ page.number < hi
  · rw [if_pos hin, if_pos hin, if_pos ⟨by omega, by omega⟩]
    simp only [mapping, h.backing, h.perms, h.rights, h.offset, h.start, some.injEq,
      Mapping.mk.injEq, true_and, and_true]
    rw [Nat.add_assoc, ← Nat.add_mul]
    congr 2
    omega
  · rw [if_neg hin, if_neg hin]

theorem IsPart.sound (h : region.IsPart lo hi part) (hregion : region.Sound kernel)
    (hlo : region.pages.start.number ≤ lo) (hlt : lo < hi) (hhi : hi ≤ region.pages.endNumber) :
    part.Sound kernel := by
  have hstart := h.start
  have hend := h.stop
  have hle := region.pages.end_le
  simp only [endNumber] at hend hhi
  obtain ⟨hcanonical, -, huser⟩ := same_half part.pages.start hregion.canonical
    (by omega) (by omega)
  refine ⟨by omega, hcanonical, ?_, fun hkernel => ?_⟩
  · have hfits := hregion.fits
    simp only [Fits, h.offset] at hfits ⊢
    calc region.offset + (lo - region.pages.start.number) * pageSize +
          (part.pages.count - 1) * pageSize
        = region.offset + (lo - region.pages.start.number + (part.pages.count - 1)) * pageSize := by
          rw [Nat.add_mul, Nat.add_assoc]
      _ ≤ region.offset + (region.pages.count - 1) * pageSize :=
          Nat.add_le_add_left (Nat.mul_le_mul_right _ (by omega)) _
      _ < u64Size := hfits
  · obtain ⟨hisUser, hbound⟩ := hregion.inUser hkernel
    refine ⟨huser.trans hisUser, hbound.trans (Nat.mul_le_mul_right _ (by omega))⟩

/-! ## Cutting a region -/

variable {region : Region B} {kernel : Bool}

theorem head_eq_none (h : page.number ≤ region.pages.start.number) : region.head page = none :=
  if_pos h

theorem head_isPart (hlt : region.pages.start.number < page.number)
    (hle : page.number ≤ region.pages.endNumber) :
    ∃ part, region.head page = some part ∧
      region.IsPart region.pages.start.number page.number part := by
  have hend := region.pages.end_le
  simp only [endNumber] at hle
  have hnew : region.pages.start.number + (page.number - region.pages.start.number) ≤
      pageLimit region.pages.start := by omega
  refine ⟨{ region with pages := ⟨_, _, hnew⟩ }, ?_, ⟨rfl, ?_, rfl, ?_, rfl, rfl⟩⟩
  · rw [head, if_neg (by omega), new, dif_pos hnew]
    rfl
  · simp only [endNumber]
    omega
  · simp

theorem tail_eq_none (h : region.pages.endNumber ≤ page.number) : region.tail page = none := by
  simp only [endNumber] at h
  unfold tail
  split
  · rfl
  · rw [if_pos (by omega)]

theorem tail_isPart (hregion : region.Sound kernel) (page : Page)
    (hle : region.pages.start.number ≤ page.number) (hlt : page.number < region.pages.endNumber) :
    ∃ part, region.tail page = some part ∧
      region.IsPart page.number region.pages.endNumber part := by
  have hend := region.pages.end_le
  have hfits := hregion.fits
  simp only [endNumber] at hlt
  obtain ⟨-, hlimit, -⟩ := same_half page hregion.canonical hle (by omega)
  have hnew : page.number + (region.pages.count - (page.number - region.pages.start.number)) ≤
      pageLimit page := by omega
  have hoffset : region.offset + (page.number - region.pages.start.number) * pageSize < u64Size :=
    Nat.lt_of_le_of_lt (Nat.add_le_add_left (Nat.mul_le_mul_right _ (by omega)) _) hfits
  refine ⟨{ region with
    pages := ⟨page, _, hnew⟩
    offset := region.offset + (page.number - region.pages.start.number) * pageSize }, ?_,
    ⟨rfl, ?_, rfl, rfl, rfl, rfl⟩⟩
  · unfold tail
    rw [if_neg (by omega), if_neg (by omega), new, dif_pos hnew, checkedMul64, if_pos (by omega)]
    simp only [bind_eq_bind, bind_some, checkedAdd64, if_pos hoffset]
    rfl
  · simp only [endNumber]
    omega

/-- The part before a page up to the end: none, or one that is not empty. -/
theorem head_cases (region : Region B) (page : Page) (hle : page.number ≤ region.pages.endNumber) :
    (region.head page = none ∧ page.number ≤ region.pages.start.number) ∨
      ∃ part, region.head page = some part ∧ region.pages.start.number < page.number ∧
        region.IsPart region.pages.start.number page.number part := by
  rcases Nat.lt_or_ge region.pages.start.number page.number with h | h
  · obtain ⟨part, hpart, his⟩ := head_isPart h hle
    exact .inr ⟨part, hpart, h, his⟩
  · exact .inl ⟨head_eq_none h, h⟩

/-- The part from a page on that is not before the start: none, or one that is not empty. -/
theorem tail_cases (hregion : region.Sound kernel) (page : Page)
    (hle : region.pages.start.number ≤ page.number) :
    (region.tail page = none ∧ region.pages.endNumber ≤ page.number) ∨
      ∃ part, region.tail page = some part ∧ page.number < region.pages.endNumber ∧
        region.IsPart page.number region.pages.endNumber part := by
  rcases Nat.lt_or_ge page.number region.pages.endNumber with h | h
  · obtain ⟨part, hpart, his⟩ := tail_isPart hregion page hle h
    exact .inr ⟨part, hpart, h, his⟩
  · exact .inl ⟨tail_eq_none h, h⟩

theorem clipped_isPart (hregion : region.Sound kernel)
    (hoverlaps : region.pages.overlaps pages = true) :
    ∃ part, region.clipped pages = some part ∧
      region.IsPart (max region.pages.start.number pages.start.number)
        (min region.pages.endNumber pages.endNumber) part := by
  rw [overlaps_iff] at hoverlaps
  have hend := region.pages.end_le
  have hstop : region.pages.endNumber = region.pages.start.number + region.pages.count := rfl
  set lo := max region.pages.start.number pages.start.number with hlo
  set hi := min region.pages.endNumber pages.endNumber with hhi
  have hpage : region.pages.start.checkedAdd (lo - region.pages.start.number) = some ⟨lo⟩ := by
    rw [checkedAdd_eq hregion.canonical (by omega), if_pos (by omega)]
    congr 2
    omega
  obtain ⟨-, hlimit, -⟩ := same_half ⟨lo⟩ hregion.canonical (by simp only; omega)
    (by simp only; omega)
  obtain ⟨part, htail, hpart⟩ := tail_isPart hregion ⟨lo⟩ (by simp only; omega)
    (by simp only; omega)
  have hnew : lo + (hi - lo) ≤ pageLimit ⟨lo⟩ := by omega
  refine ⟨{ part with pages := ⟨⟨lo⟩, hi - lo, hnew⟩ }, ?_,
    ⟨rfl, ?_, hpart.backing, hpart.offset, hpart.perms, hpart.rights⟩⟩
  · unfold clipped
    simp only [← hlo, ← hhi]
    rw [if_neg (by omega), hpage]
    simp only [bind_eq_bind, bind_some, htail]
    rw [new, dif_pos hnew]
    rfl
  · simp only [endNumber]
    omega

theorem tail_after_last (hcanonical : pages.start.Canonical) (hpos : 0 < pages.count)
    (hhalf : pageLimit pages.start = pageLimit region.pages.start) :
    (pages.last.bind (·.checkedAdd 1)).bind region.tail = region.tail ⟨pages.endNumber⟩ := by
  have hend := region.pages.end_le
  rw [after_last hcanonical hpos]
  split
  · rfl
  · rw [bind_none, tail_eq_none]
    simp only [endNumber] at *
    omega

end Region

end Audhsos
