import Audhsos.Memory.RegionSpec

/-!
The operations of the region table against its page function.

- `RegionTable.mapping`: the page function of a table.
- `RegionTable.insert_spec`, `remove_spec`, `protect_spec`: one lemma for each operation.
- `RegionTable.removeAll`: `remove` repeated with what it left over.
-/

namespace Audhsos

open Lib Prog List Option RegionTable Page PageRange

variable {B : Type} {n : Nat}

namespace RegionTable

/-! ## The page function and the invariant -/

variable (table : RegionTable B n)

/-- What the table says about a page: the backing, the byte offset in it, the permissions and
the rights. -/
def mapping (page : Page) : Option (Mapping B) :=
  (table.find page).map (·.mapping page)

def adding (region : Region B) (f : Page → Option (Mapping B)) (page : Page) : Option (Mapping B) :=
  if region.pages.contains page then some (region.mapping page) else f page

def deleting (gone : Page → Bool) (f : Page → Option (Mapping B)) (page : Page) :
    Option (Mapping B) :=
  if gone page then none else f page

def protecting (pages : PageRange) (perms : Permissions) (f : Page → Option (Mapping B))
    (page : Page) : Option (Mapping B) :=
  if pages.contains page then (f page).map fun held => { held with perms } else f page

/-- What the types of the source say about a table: its pages are canonical addresses and it has
at most `n` regions. -/
structure Typed (table : RegionTable B n) : Prop where
  canonical : ∀ region ∈ table.regions, region.pages.start.Canonical
  room : table.regions.length ≤ n

/-- The byte offset of every page fits in 64 bits. -/
def OffsetsFit : Prop := ∀ region ∈ table.regions, region.Fits

/-- The table passes its own check, is of the source's type, and its byte offsets fit. -/
structure Valid (table : RegionTable B n) : Prop where
  invariants : table.checkInvariants = true
  typed : table.Typed
  fits : table.OffsetsFit

theorem checkFrom_iff (kernel : Bool) (regions : List (Region B)) (previous : Option PageRange) :
    checkFrom kernel previous regions = true ↔
      (∀ region ∈ regions, 0 < region.pages.count ∧
        (kernel = false → region.pages.isUser = true ∧
          userSpaceStart ≤ region.pages.start.start)) ∧
      regions.Pairwise (fun a b => a.pages.endNumber ≤ b.pages.start.number) ∧
      ∀ pages, previous = some pages → ∀ region ∈ regions,
        pages.endNumber ≤ region.pages.start.number := by
  induction regions generalizing previous with
  | nil => simp [checkFrom]
  | cons region regions ih =>
    have hpos : ¬ region.pages.isEmpty = true ↔ 0 < region.pages.count := by
      simp only [PageRange.isEmpty, decide_eq_true_eq]
      omega
    have huser : ¬ (¬ kernel = true ∧ (¬ region.pages.isUser = true ∨
        region.pages.start.start < userSpaceStart)) ↔ (kernel = false →
          region.pages.isUser = true ∧ userSpaceStart ≤ region.pages.start.start) := by
      cases kernel <;> simp
    have hprevious : ¬ (previous.any fun pages => decide (region.pages.start.number <
        pages.endNumber)) = true ↔
        ∀ pages, previous = some pages → pages.endNumber ≤ region.pages.start.number := by
      cases previous <;> simp
    simp only [checkFrom, Bool.if_false_left, Bool.and_eq_true, Bool.not_eq_true',
      decide_eq_false_iff_not, ih, mem_cons, forall_eq_or_imp, pairwise_cons, hpos,
      huser, hprevious, some.injEq, forall_eq']
    constructor
    · rintro ⟨hregion, hin, hbefore, hsound, hsorted, hstart⟩
      refine ⟨⟨⟨hregion, hin⟩, hsound⟩, ⟨hstart, hsorted⟩, fun pages h => ⟨hbefore pages h, ?_⟩⟩
      intro other hmem
      have := hbefore pages h
      have := hstart other hmem
      simp only [PageRange.endNumber] at *
      omega
    · rintro ⟨⟨⟨hregion, hin⟩, hsound⟩, ⟨hstart, hsorted⟩, hbefore⟩
      exact ⟨hregion, hin, fun pages h => (hbefore pages h).1, hsound, hsorted, hstart⟩

theorem valid_iff : table.Valid ↔ Laid table.kernel table.regions ∧ table.regions.length ≤ n := by
  have hcheck := checkFrom_iff table.kernel table.regions none
  constructor
  · rintro ⟨hinvariants, ⟨hcanonical, hroom⟩, hfits⟩
    obtain ⟨hsound, hsorted, -⟩ := hcheck.mp hinvariants
    exact ⟨⟨fun region hmem => ⟨(hsound region hmem).1, hcanonical region hmem,
      hfits region hmem, (hsound region hmem).2⟩, hsorted⟩, hroom⟩
  · rintro ⟨hlaid, hroom⟩
    exact ⟨hcheck.mpr ⟨fun region hmem => ⟨(hlaid.sound region hmem).pos,
      (hlaid.sound region hmem).inUser⟩, hlaid.order, by simp⟩,
      ⟨fun region hmem => (hlaid.sound region hmem).canonical, hroom⟩,
      fun region hmem => (hlaid.sound region hmem).fits⟩

variable {pages : PageRange}

/-- A range that passes the check of the table has pages, in the mappable half if the table is a
user's. -/
theorem checkRange_ok {table : RegionTable B n} :
    table.checkRange pages = .ok () ↔ 0 < pages.count ∧
      (table.kernel = false → pages.isUser = true ∧ userSpaceStart ≤ pages.start.start) := by
  unfold checkRange PageRange.isEmpty
  by_cases hempty : pages.count = 0
  · simp [hempty]
  cases hkernel : table.kernel with
  | true => simp [hempty, Nat.pos_of_ne_zero hempty]
  | false =>
    simp only [hempty, decide_false, Bool.false_eq_true, if_false, Nat.pos_of_ne_zero hempty,
      true_and, forall_const]
    split
    · rename_i h
      simp only [reduceCtorEq, false_iff, not_and, Nat.not_le]
      exact fun huser => h.resolve_left (by simp [huser])
    · rename_i h
      simpa using h

/-! ## insert -/

section Insert

variable {table : RegionTable B n} {region : Region B} {regions : List (Region B)} {kernel : Bool}

section

variable (front back : List (Region B)) (region)

theorem insertIdx_mid :
    (front ++ back).insertIdx front.length region = front ++ region :: back := by
  induction front with
  | nil => rfl
  | cons first front ih => simp [ih]

theorem insertAt_mid (kernel : Bool) (region : Region B) :
    (insertAt front.length region : Prog RegionError (RegionTable B n) Unit)
        ⟨front ++ back, kernel⟩ =
      if n ≤ (front ++ back).length then (.error .quotaExceeded, ⟨front ++ back, kernel⟩)
      else (.ok (), ⟨front ++ region :: back, kernel⟩) := by
  have hindex : ¬ (front ++ back).length < front.length := by simp
  simp only [insertAt, hindex, or_false, insertIdx_mid]

theorem modify_mid (f : Region B → Region B) :
    (front ++ region :: back).modify front.length f = front ++ f region :: back := by
  induction front with
  | nil => rfl
  | cons first front ih => simp [ih]

end

theorem findIdx?_split {p : Region B → Bool} {index : Nat} (h : regions.findIdx? p = some index) :
    ∃ front region back, regions = front ++ region :: back ∧ front.length = index ∧
      p region = true := by
  induction regions generalizing index with
  | nil => simp at h
  | cons first regions ih =>
    rw [findIdx?_cons] at h
    by_cases hfirst : p first = true
    · rw [if_pos hfirst, some.injEq] at h
      exact ⟨[], first, regions, rfl, h, hfirst⟩
    · rw [if_neg hfirst, map_eq_some_iff] at h
      obtain ⟨before, hbefore, rfl⟩ := h
      obtain ⟨front, region, back, rfl, rfl, hregion⟩ := ih hbefore
      exact ⟨first :: front, region, back, rfl, rfl, hregion⟩

/-- The position for a region that overlaps none lies between those before it and those
behind it. -/
theorem positionFor_split (hlaid : Laid kernel regions) (hpos : 0 < pages.count)
    (hfree : ∀ other ∈ regions, ¬ other.pages.overlaps pages = true) :
    ∃ front back, regions = front ++ back ∧
      (regions.takeWhile fun other => other.pages.start.number < pages.start.number) = front ∧
      (∀ other ∈ front, other.pages.endNumber ≤ pages.start.number) ∧
      ∀ other ∈ back, pages.endNumber ≤ other.pages.start.number := by
  have hstop : pages.endNumber = pages.start.number + pages.count := rfl
  induction regions with
  | nil => exact ⟨[], [], rfl, rfl, by simp, by simp⟩
  | cons first regions ih =>
    have hfirst := hfree first mem_cons_self
    have hlt := (hlaid.sound first mem_cons_self).start_lt_end
    rw [overlaps_iff] at hfirst
    obtain ⟨hle, horder⟩ := pairwise_cons.mp hlaid.order
    by_cases hbefore : first.pages.start.number < pages.start.number
    · obtain ⟨front, back, hsplit, hfront, hends, hstarts⟩ :=
        ih ⟨fun other hmem => hlaid.sound other (mem_cons_of_mem _ hmem), horder⟩
          fun other hmem => hfree other (mem_cons_of_mem _ hmem)
      refine ⟨first :: front, back, by rw [hsplit, cons_append], ?_, ?_, hstarts⟩
      · rw [takeWhile_cons, if_pos (decide_eq_true hbefore), hfront]
      · intro other hmem
        rcases mem_cons.mp hmem with rfl | hmem
        · omega
        · exact hends other hmem
    · refine ⟨[], first :: regions, rfl, ?_, by simp, fun other hmem => ?_⟩
      · rw [takeWhile_cons, if_neg (by simpa using hbefore)]
      · rcases mem_cons.mp hmem with rfl | hmem
        · omega
        · have := hle other hmem
          omega

theorem coverOf_free {page : Page} (hfree : ∀ other ∈ regions, ¬ other.pages.overlaps pages = true)
    (hin : pages.contains page = true) : coverOf regions page = none := by
  refine coverOf_eq_none fun other hmem hcontains => hfree other hmem ?_
  rw [contains_iff_number] at hin hcontains
  rw [overlaps_iff]
  omega

theorem grown_spec [DecidableEq B] {held : Region B} (hheld : held.Sound kernel)
    (hregion : region.Sound kernel) (hcontinues : held.continuesInto region = true) :
    ∃ grown, PageRange.new held.pages.start (held.pages.count + region.pages.count) = some grown ∧
      grown.start = held.pages.start ∧ grown.endNumber = region.pages.endNumber ∧
      ({ held with pages := grown } : Region B).Sound kernel ∧
      ∀ page, ({ held with pages := grown } : Region B).cover page =
        if region.pages.contains page then some (region.mapping page) else held.cover page := by
  simp only [Region.continuesInto, Bool.and_eq_true, decide_eq_true_eq] at hcontinues
  obtain ⟨⟨⟨⟨hstart, hbacking⟩, hperms⟩, hrights⟩, hoffset⟩ := hcontinues
  obtain ⟨hsum, hoffset⟩ : held.offset + held.pages.bytes < u64Size ∧
      held.offset + held.pages.bytes = region.offset := by
    unfold checkedAdd64 at hoffset
    split at hoffset
    · exact ⟨‹_›, some.inj hoffset⟩
    · simp at hoffset
  have hlt := hheld.start_lt_end
  have hpos := hregion.pos
  have hend := region.pages.end_le
  have hstop : held.pages.endNumber = held.pages.start.number + held.pages.count := rfl
  have hstop' : region.pages.endNumber = region.pages.start.number + region.pages.count := rfl
  have hlimit : pageLimit region.pages.start ≤ pageLimit held.pages.start := by
    have hle := held.pages.end_le
    have := hregion.canonical
    rw [canonical_iff] at this
    rw [pageLimit_eq] at hle ⊢
    rw [pageLimit_eq]
    split at hle <;> split <;> omega
  have hnew : held.pages.start.number + (held.pages.count + region.pages.count) ≤
      pageLimit held.pages.start := by omega
  have hgrown : held.pages.start.number + (held.pages.count + region.pages.count) =
      region.pages.endNumber := by omega
  refine ⟨⟨_, _, hnew⟩, by rw [PageRange.new, dif_pos hnew], rfl, hgrown,
    ⟨Nat.add_pos_left hheld.pos _, hheld.canonical, ?_, hheld.inUser⟩, fun page => ?_⟩
  · have hfits := hregion.fits
    simp only [Region.Fits, ← hoffset, PageRange.bytes] at hfits ⊢
    have : held.pages.count + region.pages.count - 1 =
        held.pages.count + (region.pages.count - 1) := by omega
    rw [this, Nat.add_mul, ← Nat.add_assoc]
    exact hfits
  · simp only [Region.cover, contains_iff_number]
    rw [show (PageRange.mk held.pages.start (held.pages.count + region.pages.count) hnew).endNumber
      = region.pages.endNumber from hgrown]
    by_cases hin : region.pages.start.number ≤ page.number ∧ page.number < region.pages.endNumber
    · rw [if_pos hin, if_pos ⟨by omega, by omega⟩]
      have hpage : page.number - held.pages.start.number =
          held.pages.count + (page.number - region.pages.start.number) := by omega
      simp only [Region.mapping, hbacking, hperms, hrights, ← hoffset, hpage, PageRange.bytes,
        Nat.add_mul, Nat.add_assoc]
    · rw [if_neg hin]
      by_cases hheld' : held.pages.start.number ≤ page.number ∧
          page.number < held.pages.endNumber
      · rw [if_pos hheld', if_pos ⟨by omega, by omega⟩]
        rfl
      · rw [if_neg hheld', if_neg (by omega)]

/-- What `insert` of a region does to the table and its page function. -/
structure Inserts (table : RegionTable B n) (region : Region B) (outcome : InsertedRegion)
    (after : RegionTable B n) : Prop where
  valid : after.Valid
  free : ∀ page, region.pages.contains page = true → table.mapping page = none
  mapping : after.mapping = adding region table.mapping
  length : after.regions.length =
    table.regions.length + match outcome with | .added => 1 | .merged => 0

theorem insert_spec [DecidableEq B] (hvalid : table.Valid)
    (hcanonical : region.pages.start.Canonical) (hfits : region.Fits) :
    (insert region).wp (fun answer after => match answer with
      | .ok outcome => table.Inserts region outcome after
      | .error _ => after = table) table := by
  obtain ⟨hlaid, hroom⟩ := table.valid_iff.mp hvalid
  unfold insert
  simp only [wp_bind, wp_get, wp_ofExcept, Except.ok.injEq, forall_eq',
    reduceCtorEq, false_imp_iff, forall_const, and_true, wp_require, implies_true]
  intro _ hcheck hfree
  obtain ⟨hpos, huser⟩ := checkRange_ok.mp hcheck
  have hregion : region.Sound table.kernel := ⟨hpos, hcanonical, hfits, huser⟩
  have hfree' : ∀ other ∈ table.regions, ¬ other.pages.overlaps region.pages = true := by
    simpa using hfree
  have hnone : ∀ page, region.pages.contains page = true → coverOf table.regions page = none :=
    fun page hin => coverOf_free hfree' hin
  have hmapping : ∀ regions : List (Region B), (∀ page, coverOf regions page =
      if region.pages.contains page then some (region.mapping page)
      else coverOf table.regions page) →
      (⟨regions, table.kernel⟩ : RegionTable B n).mapping = adding region table.mapping :=
    fun _ h => funext h
  cases hindex : table.regions.findIdx? (·.continuesInto region) with
  | some index =>
    -- the region that the new one continues grows in place
    obtain ⟨front, held, back, hsplit, rfl, hcontinues⟩ := findIdx?_split hindex
    have hlaid' := hsplit ▸ hlaid
    obtain ⟨grown, hnew, hstart, hstop, hsound, hcover⟩ :=
      grown_spec hlaid'.sound_mid hregion hcontinues
    have hafter : table.regions.modify front.length (fun held => { held with
        pages := (PageRange.new held.pages.start
          (held.pages.count + region.pages.count)).getD held.pages }) =
        front ++ [{ held with pages := grown }] ++ back := by
      rw [hsplit, modify_mid]
      simp [hnew]
    have hbehind : ∀ other ∈ back, region.pages.endNumber ≤ other.pages.start.number := by
      intro other hmem
      have hother : other ∈ table.regions := by simp [hsplit, hmem]
      have hle := hlaid'.le_back hmem
      have hlt := (hlaid.sound other hother).start_lt_end
      have hfree := hfree' other hother
      simp only [Region.continuesInto, Bool.and_eq_true, decide_eq_true_eq] at hcontinues
      rw [overlaps_iff] at hfree
      omega
    simp only [wp_bind, wp_modify, wp_pure, hafter, reduceCtorEq, false_imp_iff,
      implies_true, and_true]
    intro _ _
    refine ⟨?_, hnone, hmapping _ fun page => ?_, by simp [hsplit]⟩
    · refine (valid_iff _).mpr ⟨hlaid'.erase_mid.splice _ ⟨by simpa using hsound, by simp⟩ ?_, ?_⟩
      · simp only [mem_singleton, forall_eq, hstart, hstop]
        exact ⟨fun _ hmem => hlaid'.front_le hmem, hbehind⟩
      · simpa [hsplit] using hroom
    · have hpage := hnone page
      simp only [hsplit, append_assoc, singleton_append, coverOf_append, coverOf_cons,
        or_eq_none_iff] at hpage ⊢
      rw [hcover]
      split
      · rename_i hin
        rw [(hpage hin).1, none_or, some_or]
      · rfl
  | none =>
    obtain ⟨front, back, hsplit, hposition, hfront, hback⟩ := positionFor_split hlaid hpos hfree'
    have hindex : table.positionFor region.pages.start = front.length :=
      congrArg List.length hposition
    obtain ⟨regions, kernel⟩ := table
    obtain rfl : regions = front ++ back := hsplit
    have hinsert := insertAt_mid (n := n) front back kernel region
    rw [hindex, wp_bind, wp, hinsert]
    split
    · exact ⟨by simp, fun _ _ => rfl⟩
    rename_i hspace
    refine ⟨fun _ _ => ?_, by simp⟩
    simp only [wp_pure]
    refine ⟨?_, hnone, hmapping _ fun page => ?_, by simp; omega⟩
    · refine (valid_iff _).mpr ⟨?_, by simp at hspace ⊢; omega⟩
      have := hlaid.splice [region] ⟨by simpa using hregion, by simp⟩
        (by simpa using ⟨hfront, hback⟩)
      simpa using this
    · have hpage := hnone page
      simp only [coverOf_append, coverOf_cons, or_eq_none_iff] at hpage ⊢
      split
      · rename_i hin
        rw [(hpage hin).1, Region.cover, if_pos hin, none_or, some_or]
      · rename_i hout
        rw [Region.cover_eq_none hout, none_or]

end Insert

/-! ## remove -/

section Remove

variable {table : RegionTable B n} {pages : PageRange} {limit : Nat}

/-- What one call of `remove` does to the table and its page function: the pages of the range
that are not left over go, and the number of regions changes by the divided and the vanished
pieces. -/
structure RemovesPages (table : RegionTable B n) (pages : PageRange) (removed : Removed B)
    (after : RegionTable B n) : Prop where
  valid : after.Valid
  kernel : after.kernel = table.kernel
  mapping : after.mapping = deleting (fun page => pages.contains page &&
    !removed.remaining.any (·.contains page)) table.mapping
  length : after.regions.length + removed.items.countP (·.vanished) =
    table.regions.length + removed.items.countP (·.divided)
  remaining : ∀ left, removed.remaining = some left →
    left.endNumber = pages.endNumber ∧ pages.start.number ≤ left.start.number ∧
      left.start.Canonical

/-- What `remove` needs to be called with what it left over. -/
structure Continues (table : RegionTable B n) (pages left : PageRange)
    (after : RegionTable B n) : Prop where
  range : table.checkRange left = .ok ()
  shorter : left.count < pages.count
  resumes : Resumes pages left after.regions

/-- Why `remove` fails: the range does not pass the check, is not mapped at all, or lies strictly
inside a region and there is no room for a second part. -/
inductive Refused (table : RegionTable B n) (pages : PageRange) : Prop where
  | range (h : table.checkRange pages ≠ .ok ())
  | notMapped (h : ∀ region ∈ table.regions, ¬ region.pages.overlaps pages = true)
  | noRoom (region : Region B) (hmem : region ∈ table.regions)
      (hstart : region.pages.start.number < pages.start.number)
      (hend : pages.endNumber < region.pages.endNumber)

theorem remove_spec (limit : Nat) (hvalid : table.Valid) (hcanonical : pages.start.Canonical) :
    (remove limit pages).wp (fun answer after => match answer with
      | .ok removed => table.RemovesPages pages removed after ∧
          ∀ left, removed.remaining = some left → 0 < limit → table.Continues pages left after
      | .error _ => after = table ∧ table.Refused pages) table := by
  obtain ⟨hlaid, hroom⟩ := table.valid_iff.mp hvalid
  unfold remove
  simp only [wp_bind, wp_get, wp_ofExcept, Except.ok.injEq, reduceCtorEq,
    false_imp_iff, implies_true, and_true, forall_eq']
  refine ⟨fun _ hcheck => ?_, fun e he => ⟨trivial, .range (by simp [he])⟩⟩
  refine wp_require_bind.mpr ⟨fun _ => ?_,
    fun hmapped => ⟨rfl, .notMapped (by simpa using hmapped)⟩⟩
  have hloop := removeLoop_spec (n := n) limit hcanonical table.regions [] []
    hlaid (by simp) (by simp) hroom
  unfold wp
  beta_reduce
  generalize removeLoop limit pages table.kernel [] [] table.regions = answer at hloop ⊢
  obtain ⟨e | removed, after⟩ := answer
  · obtain ⟨-, rfl, region, hmem, hstart, hend⟩ := hloop
    exact ⟨rfl, .noRoom region hmem hstart hend⟩
  obtain ⟨hkernel, hroom', hremoves, hcount, hleft⟩ := hloop
  refine ⟨⟨(valid_iff _).mpr ⟨hkernel ▸ hremoves.laid, hroom'⟩, hkernel, ?_, by simpa using hcount,
    fun left h => ?_⟩, fun left h hpos => ?_⟩
  · funext page
    refine (hremoves.cover page).trans ?_
    simp only [deleting, Bool.and_eq_true, Bool.not_eq_true', Bool.not_eq_true]
    rfl
  · obtain ⟨⟨region, -, hstart⟩, hleftCanonical, hstop, -⟩ := (hleft left h).1
    exact ⟨hstop, by omega, hleftCanonical⟩
  · obtain ⟨⟨⟨region, hmem, hstart⟩, -, hstop, hlt⟩, hresumes⟩ := hleft left h
    have hresumes := hresumes hpos
    have hlater := hresumes.later
    obtain ⟨hcount, huser⟩ := checkRange_ok.mp hcheck
    have hend := pages.end_le
    simp only [PageRange.endNumber] at hstop hlt
    obtain ⟨-, -, hhalf⟩ := same_half left.start hcanonical (by omega) (by omega)
    refine ⟨checkRange_ok.mpr ⟨by omega, fun hkernel => ?_⟩, by omega, hresumes⟩
    obtain ⟨hisUser, hbound⟩ := huser hkernel
    exact ⟨hhalf.trans hisUser, hbound.trans (Nat.mul_le_mul_right _ (by omega))⟩

/-- `remove` repeated with what it left over, at most `fuel` times: answers whether nothing is
left over. -/
def removeAll (limit : Nat) : Nat → PageRange → Prog RegionError (RegionTable B n) Bool
  | 0, _ => pure false
  | fuel + 1, pages => do
    let removed ← remove limit pages
    match removed.remaining with
    | none => pure true
    | some left => removeAll limit fuel left

section

variable (fuel : Nat) (hvalid : table.Valid) (hcanonical : pages.start.Canonical)
include hvalid hcanonical

theorem removeAll_deletes :
    (removeAll limit fuel pages).wp (fun answer after => answer = .ok true →
      after.Valid ∧ after.mapping = deleting pages.contains table.mapping) table := by
  induction fuel generalizing pages table with
  | zero => simp [removeAll]
  | succ fuel ih =>
    unfold removeAll
    rw [wp_bind]
    refine (remove_spec limit hvalid hcanonical).mono fun answer after hanswer => ?_
    refine ⟨fun removed hremoved => ?_, nofun⟩
    subst hremoved
    obtain ⟨hremoves, -⟩ := hanswer
    cases hremaining : removed.remaining with
    | none =>
      intro _
      refine ⟨hremoves.valid, hremoves.mapping.trans ?_⟩
      simp [hremaining]
    | some left =>
      obtain ⟨hstop, hstart, hleft⟩ := hremoves.remaining left hremaining
      refine (ih hremoves.valid hleft).mono fun answer' after' hrest hdone => ?_
      obtain ⟨hvalid', hmapping'⟩ := hrest hdone
      refine ⟨hvalid', ?_⟩
      rw [hmapping', hremoves.mapping]
      funext page
      simp only [deleting, hremaining, any_some]
      by_cases hleft : left.contains page = true
      · have hin : pages.contains page = true := by
          rw [contains_iff_number] at hleft ⊢
          omega
        simp [hleft, hin]
      · simp [hleft]

theorem removeAll_ends (hpos : 0 < limit) (hcount : 0 < pages.count) (hfuel : pages.count ≤ fuel)
    (haccepted : ∀ e, (remove limit pages table).1 ≠ .error e) :
    (removeAll limit fuel pages table).1 = .ok true := by
  induction fuel generalizing pages table with
  | zero => omega
  | succ fuel ih =>
    have hremove := remove_spec limit hvalid hcanonical
    unfold removeAll
    rw [run_bind]
    unfold wp at hremove
    generalize remove limit pages table = answer at hremove haccepted ⊢
    obtain ⟨e | removed, after⟩ := answer
    · exact absurd rfl (haccepted e)
    obtain ⟨hremoves, hcontinues⟩ := hremove
    dsimp only
    cases hremaining : removed.remaining with
    | none => rfl
    | some left =>
      obtain ⟨hrange, hshorter, hresumes⟩ := hcontinues left hremaining hpos
      obtain ⟨-, -, hleft⟩ := hremoves.remaining left hremaining
      obtain ⟨region, hmem, hstart⟩ := hresumes.found
      have hlaid := ((valid_iff _).mp hremoves.valid).1
      have hcheck : after.checkRange left = .ok () := by
        rw [checkRange_ok, hremoves.kernel, ← checkRange_ok]
        exact hrange
      have hcount := (checkRange_ok.mp hrange).1
      refine ih hremoves.valid hleft hcount (by omega) fun e herror => ?_
      have hrefused := remove_spec limit hremoves.valid hleft
      unfold wp at hrefused
      rw [herror] at hrefused
      cases hrefused.2 with
      | range h => exact h hcheck
      | notMapped h =>
        refine h region hmem ?_
        have hlt := (hlaid.sound region hmem).start_lt_end
        have hstop : left.endNumber = left.start.number + left.count := rfl
        rw [overlaps_iff]
        omega
      | noRoom other hother hbefore hbehind =>
        have hstop : left.endNumber = left.start.number + left.count := rfl
        rcases hresumes.clear other hother with h | h <;> omega

end

end Remove

/-! ## protect -/

section Protect

variable {table : RegionTable B n} {pages : PageRange} {perms : Permissions} {region : Region B}
  {extra : Nat} {kernel : Bool}

/-- The plan of `protect`: a region that holds all of the pages, and room for the parts of it
that lie outside of them. -/
structure Plan (table : RegionTable B n) (pages : PageRange) (front back : List (Region B))
    (region : Region B) (extra : Nat) : Prop where
  split : table.regions = front ++ region :: back
  pos : 0 < pages.count
  start : region.pages.start.number ≤ pages.start.number
  stop : pages.endNumber ≤ region.pages.endNumber
  added : extra = (if region.pages.start.number < pages.start.number then 1 else 0) +
    if pages.endNumber < region.pages.endNumber then 1 else 0
  room : table.regions.length + extra ≤ n

theorem protectPlan_ok {index : Nat} (hroom : table.regions.length ≤ n)
    (h : table.protectPlan pages = .ok (index, region, extra)) :
    ∃ front back, front.length = index ∧ table.Plan pages front back region extra := by
  unfold protectPlan at h
  cases hcheck : table.checkRange pages with
  | error e =>
    rw [hcheck] at h
    cases h
  | ok =>
    cases hindex : table.regions.findIdx? (·.pages.contains pages.start) with
    | none =>
      rw [hcheck, hindex] at h
      cases h
    | some found =>
      obtain ⟨front, held, back, hsplit, rfl, hcontains⟩ := findIdx?_split hindex
      have hget : table.regions[front.length]? = some held := by simp [hsplit]
      rw [contains_iff_number] at hcontains
      rw [hcheck, hindex] at h
      change (do
        let region ← (table.regions[front.length]?).elim (Except.error RegionError.notMapped) .ok
        _ : Except RegionError (Nat × Region B × Nat)) = _ at h
      rw [hget] at h
      change ite _ _ _ = _ at h
      by_cases hstop : held.pages.endNumber < pages.endNumber
      · rw [if_pos hstop] at h
        cases h
      rw [if_neg hstop] at h
      by_cases hfree : table.freeSlots <
          (if held.pages.start.number < pages.start.number then 1 else 0) +
            if pages.endNumber < held.pages.endNumber then 1 else 0
      · rw [if_pos hfree] at h
        cases h
      rw [if_neg hfree, Except.ok.injEq, Prod.mk.injEq, Prod.mk.injEq] at h
      obtain ⟨rfl, rfl, rfl⟩ := h
      refine ⟨front, back, rfl, hsplit, (checkRange_ok.mp hcheck).1, hcontains.1, by omega, rfl, ?_⟩
      simp only [freeSlots] at hfree
      omega

theorem insertAt_behind (front back : List (Region B)) (first region : Region B) (kernel : Bool)
    (hroom : (front ++ first :: back).length < n) :
    (insertAt (front.length + 1) region : Prog RegionError (RegionTable B n) Unit)
        ⟨front ++ first :: back, kernel⟩ =
      (.ok (), ⟨front ++ first :: region :: back, kernel⟩) := by
  have := insertAt_mid (n := n) (front ++ [first]) back kernel region
  simp only [length_append, length_singleton, append_assoc, singleton_append] at this
  rw [this, if_neg (by simpa using hroom)]

/-- The parts of a region when the permissions of `pages` in it change. -/
structure Divides (kernel : Bool) (region : Region B) (pages : PageRange) (perms : Permissions)
    (extra : Nat) (parts : List (Region B)) : Prop where
  laid : Laid kernel parts
  within : ∀ part ∈ parts, region.pages.start.number ≤ part.pages.start.number ∧
    part.pages.endNumber ≤ region.pages.endNumber
  cover : ∀ page, coverOf parts page = if pages.contains page then
    (region.cover page).map fun held => { held with perms } else region.cover page
  length : parts.length = 1 + extra

theorem withPerms_sound (perms : Permissions) (h : region.Sound kernel) :
    ({ region with perms } : Region B).Sound kernel :=
  ⟨h.pos, h.canonical, h.fits, h.inUser⟩

theorem withPerms_cover (perms : Permissions) (region : Region B) (page : Page) :
    ({ region with perms } : Region B).cover page =
      (region.cover page).map fun held => { held with perms } := by
  unfold Region.cover
  split <;> rfl

theorem divides_parts {region middle : Region B}
    (hregion : region.Sound kernel) (hpos : 0 < pages.count)
    (hstart : region.pages.start.number ≤ pages.start.number)
    (hstop : pages.endNumber ≤ region.pages.endNumber)
    (hadded : extra = (if region.pages.start.number < pages.start.number then 1 else 0) +
      if pages.endNumber < region.pages.endNumber then 1 else 0)
    (hmiddle : region.IsPart pages.start.number pages.endNumber middle) :
    Divides kernel region pages perms extra ((region.head pages.start).toList ++
      { middle with perms } :: (region.tail ⟨pages.endNumber⟩).toList) := by
  have hstop' : pages.endNumber = pages.start.number + pages.count := rfl
  have hhead := Region.head_between hregion pages.start (by omega)
  have htail := Region.tail_between hregion ⟨pages.endNumber⟩ (by simp only; omega)
  have hsound := withPerms_sound perms (hmiddle.sound hregion hstart (by omega) hstop)
  have hmiddleStart : middle.pages.start.number = pages.start.number := hmiddle.start
  have hmiddleEnd : middle.pages.endNumber = pages.endNumber := hmiddle.stop
  dsimp only at htail
  have hmid : Laid kernel [({ middle with perms } : Region B)] := ⟨by simpa using hsound, by simp⟩
  have hback := hmid.append htail.laid fun a ha b hb => by
    obtain rfl := mem_singleton.mp ha
    have := htail.within b hb
    simp only
    omega
  refine ⟨hhead.laid.append hback fun a ha b hb => ?_, fun part hpart => ?_, fun page => ?_, ?_⟩
  · have := hhead.within a ha
    rcases mem_cons.mp hb with rfl | hb
    · simp only
      omega
    · have := htail.within b hb
      omega
  · rcases mem_append.mp hpart with h | h
    · have := hhead.within part h
      omega
    rcases mem_cons.mp h with rfl | h
    · simp only
      omega
    · have := htail.within part h
      omega
  · rw [coverOf_append, coverOf_cons, hhead.cover, htail.cover, withPerms_cover perms middle,
      hmiddle.cover_eq hstart hstop]
    simp only [contains_iff_number]
    rcases region.cover_cases page with h | h
    · simp [h]
    · split <;> split <;> split <;> first | omega | simp
  · rw [length_append, length_cons, hhead.length, htail.length, hadded]
    omega

variable (perms)

/-- The run of `protect` with a plan: the region is replaced by its parts. -/
theorem protect_run {front back : List (Region B)}
    (hvalid : table.Valid) (hcanonical : pages.start.Canonical)
    (hplan : table.protectPlan pages = .ok (front.length, region, extra))
    (h : table.Plan pages front back region extra) :
    ∃ parts, Divides table.kernel region pages perms extra parts ∧
      protect pages perms table = (.ok extra, ⟨front ++ parts ++ back, table.kernel⟩) := by
  obtain ⟨hlaid, hroom⟩ := table.valid_iff.mp hvalid
  rw [h.split] at hlaid
  have hregion := hlaid.sound_mid
  have hpos := h.pos
  have hstart := h.start
  have hstop := h.stop
  have hstop' : pages.endNumber = pages.start.number + pages.count := rfl
  have hend := region.pages.end_le
  obtain ⟨-, hhalf, -⟩ := same_half pages.start hregion.canonical hstart
    (by simp only [PageRange.endNumber] at hstop; omega)
  have htail := Region.tail_after_last hcanonical hpos hhalf
  obtain ⟨middle, hclipped, hmiddle⟩ := Region.clipped_isPart hregion
    (show region.pages.overlaps pages = true by rw [overlaps_iff]; omega)
  rw [max_eq_right hstart, min_eq_right hstop] at hmiddle
  refine ⟨(region.head pages.start).toList ++ { middle with perms } ::
    (region.tail ⟨pages.endNumber⟩).toList,
    divides_parts hregion hpos hstart hstop h.added hmiddle, ?_⟩
  · unfold protect
    refine (run_bind_ok (rfl : Prog.get table = (.ok table, table))).trans ?_
    refine (run_bind_ok (show ofExcept (table.protectPlan pages) table =
      (.ok (front.length, region, extra), table) by rw [hplan]; rfl)).trans ?_
    dsimp only
    rw [htail, hclipped]
    refine (run_bind_ok (rfl : ofOption (some middle) RegionError.notMapped table =
      (.ok middle, table))).trans ?_
    have hroom' := h.room
    have hsplit := h.split
    have hadded := h.added
    obtain ⟨regions, kernel⟩ := table
    dsimp only at hsplit hroom' ⊢
    subst hsplit
    have hset : ∀ x : Region B, (front ++ region :: back).set front.length x = front ++ x :: back := by
      intro x
      simp
    have hlength : (front ++ region :: back).length = front.length + back.length + 1 := by
      simp
      omega
    rw [hlength] at hroom'
    rcases region.head_cases pages.start (by omega) with
      ⟨hhead, hps⟩ | ⟨first, hhead, hps, -⟩ <;>
      rcases Region.tail_cases hregion ⟨pages.endNumber⟩ (by simp only; omega) with
        ⟨hlast, hpe⟩ | ⟨last, hlast, hpe, -⟩ <;> rw [hhead, hlast]
    · change (Except.ok extra, mk (List.set _ _ _) kernel) = _
      rw [hset]
      simp
    · rw [if_neg (by omega), if_pos hpe] at hadded
      change (insertAt (front.length + 1) last >>= fun _ => pure extra : Prog _ _ _)
        (mk (List.set _ _ _) kernel) = _
      rw [hset, run_bind_ok (insertAt_behind _ _ _ _ _ (by simp; omega))]
      simp [run_pure]
    · rw [if_pos hps, if_neg (by simp only at hpe; omega)] at hadded
      change (insertAt (front.length + 1) { middle with perms } >>= fun _ => pure extra :
        Prog _ _ _) (mk (List.set _ _ _) kernel) = _
      rw [hset, run_bind_ok (insertAt_behind _ _ _ _ _ (by simp; omega))]
      simp [run_pure]
    rw [if_pos hps, if_pos hpe] at hadded
    change (insertAt (front.length + 1) { middle with perms } >>= fun _ =>
      insertAt (front.length + 2) last >>= fun _ => pure extra :
      Prog _ _ _) (mk (List.set _ _ _) kernel) = _
    rw [hset, run_bind_ok (insertAt_behind _ _ _ _ _ (by simp; omega))]
    have := insertAt_behind (n := n) (front ++ [first]) back { middle with perms } last kernel
      (by simp; omega)
    simp only [length_append, length_singleton, append_assoc, singleton_append] at this
    rw [run_bind_ok this]
    simp [run_pure]

/-- What `protect` does to the table and its page function. -/
structure Protects (table : RegionTable B n) (pages : PageRange) (perms : Permissions)
    (gained : Nat) (after : RegionTable B n) : Prop where
  valid : after.Valid
  mapping : after.mapping = protecting pages perms table.mapping
  length : after.regions.length = table.regions.length + gained

theorem protect_spec (hvalid : table.Valid) (hcanonical : pages.start.Canonical) :
    (protect pages perms).wp (fun answer after => match answer with
      | .ok gained => table.Protects pages perms gained after ∧ table.checkProtect pages = .ok ()
      | .error e => after = table ∧ table.checkProtect pages = .error e) table := by
  obtain ⟨hlaid, hroom⟩ := table.valid_iff.mp hvalid
  unfold checkProtect
  cases hplan : table.protectPlan pages with
  | error e =>
    have hrun : protect pages perms table = (.error e, table) := by
      unfold protect
      refine (run_bind_ok (rfl : Prog.get table = (.ok table, table))).trans ?_
      exact run_bind_error (by rw [hplan]; rfl)
    rw [wp, hrun]
    exact ⟨rfl, rfl⟩
  | ok plan =>
    obtain ⟨index, region, extra⟩ := plan
    obtain ⟨front, back, rfl, h⟩ := protectPlan_ok hroom hplan
    obtain ⟨parts, hparts, hrun⟩ := protect_run perms hvalid hcanonical hplan h
    rw [wp, hrun]
    rw [h.split] at hlaid
    refine ⟨⟨(valid_iff _).mpr ⟨hlaid.replace_parts hparts.laid hparts.within, ?_⟩, ?_, ?_⟩, rfl⟩
    · have := h.room
      have := hparts.length
      simp only [h.split, length_append, length_cons] at *
      omega
    · funext page
      change coverOf (front ++ parts ++ back) page =
        if pages.contains page then (coverOf table.regions page).map fun held => { held with perms }
        else coverOf table.regions page
      simp only [h.split, coverOf_append, coverOf_cons, hparts.cover]
      split
      · rename_i hin
        -- only the region of the plan holds a page of the range
        have hstart := h.start
        have hstop := h.stop
        rw [contains_iff_number] at hin
        rw [coverOf_eq_none fun r hmem => ?_, coverOf_eq_none fun r hmem => ?_]
        · simp
        · have := hlaid.le_back hmem
          rw [contains_iff_number]
          omega
        · have := hlaid.front_le hmem
          rw [contains_iff_number]
          omega
      · rw [Option.or_assoc]
    · have := hparts.length
      simp only [h.split, length_append, length_cons] at *
      omega

end Protect

/-! ## The table as a function of pages -/

/-- `insert`, `remove` and `protect` keep a valid table valid and act on its page function as
adding, deleting and changing the permissions of the range; an error leaves the table as it was.
`removeAll`, which calls `remove` again with what is left over, deletes exactly the range. -/
theorem refines_page_function [DecidableEq B] (table : RegionTable B n)
    (hinvariants : table.checkInvariants = true) (htyped : table.Typed) (hfits : table.OffsetsFit) :
    (∀ region : Region B, region.pages.start.Canonical → region.Fits →
      (insert region).wp (fun answer after => match answer with
        | .ok outcome => table.Inserts region outcome after
        | .error _ => after = table) table) ∧
    ∀ pages : PageRange, pages.start.Canonical →
      (∀ limit, (remove limit pages).wp (fun answer after => match answer with
        | .ok removed => table.RemovesPages pages removed after
        | .error _ => after = table) table) ∧
      (∀ perms, (protect pages perms).wp (fun answer after => match answer with
        | .ok gained => table.Protects pages perms gained after ∧
            table.checkProtect pages = .ok ()
        | .error e => after = table ∧ table.checkProtect pages = .error e) table) ∧
      ∀ limit fuel,
        ((removeAll limit fuel pages).wp (fun answer after => answer = .ok true →
          after.Valid ∧ after.mapping = deleting pages.contains table.mapping) table) ∧
        (0 < limit → pages.count ≤ fuel → (∀ e, (remove limit pages table).1 ≠ .error e) →
          (removeAll limit fuel pages table).1 = .ok true) := by
  have hvalid : table.Valid := ⟨hinvariants, htyped, hfits⟩
  refine ⟨fun region hcanonical hregion => insert_spec hvalid hcanonical hregion,
    fun pages hcanonical => ⟨fun limit => ?_, fun perms => protect_spec perms hvalid hcanonical,
      fun limit fuel => ⟨removeAll_deletes fuel hvalid hcanonical, fun hpos hfuel hok => ?_⟩⟩⟩
  · refine (remove_spec limit hvalid hcanonical).mono fun answer after h => ?_
    cases answer with
    | error e => exact h.1
    | ok removed => exact h.1
  · refine removeAll_ends fuel hvalid hcanonical hpos ?_ hfuel hok
    by_contra hempty
    have hcheck : table.checkRange pages = .error .empty :=
      if_pos (decide_eq_true (Nat.eq_zero_of_not_pos hempty))
    have hrun : remove limit pages table = (.error .empty, table) :=
      (run_bind_ok (rfl : Prog.get table = (.ok table, table))).trans
        (run_bind_error (by rw [hcheck]; rfl))
    exact hok .empty (congrArg Prod.fst hrun)

/-- A user table with one region of two pages in it, backed by a device of 256 pages. -/
theorem refines_page_function_two_pages : let table : RegionTable Nat 4 :=
      ⟨[⟨⟨⟨16⟩, 2, by decide⟩, 7, 0x1000, ⟨true, false, true⟩, .read⟩], false⟩
    (removeAll 1 2 ⟨⟨16⟩, 2, by decide⟩ table).1 = .ok true :=
  ((refines_page_function _ (by decide) ⟨by simp [canonical_iff], by decide⟩
    (by simp [OffsetsFit, Region.Fits, u64Size, pageSize])).2 ⟨⟨16⟩, 2, by decide⟩
      (by simp [canonical_iff])).2.2 1 2 |>.2 (by decide) (by decide)
      fun e h => absurd (congrArg Except.isOk h) (by cases e <;> decide)

/-- With a byte offset that leaves 64 bits at its second page, a region passes the check of the
table but cannot be clipped to that page: `remove` of the page answers that it is done and takes
nothing out. -/
theorem remove_skips_overflowing_offset : let table : RegionTable Nat 4 :=
      ⟨[⟨⟨⟨16⟩, 2, by decide⟩, 7, u64Size - pageSize, ⟨true, false, true⟩, .read⟩], false⟩
    let pages : PageRange := ⟨⟨17⟩, 1, by decide⟩
    table.checkInvariants = true ∧ table.Typed ∧ pages.start.Canonical ∧
      (remove 4 pages table).1.toOption.map (·.remaining) = some none ∧
      ((remove 4 pages table).2.mapping ⟨17⟩).isSome = true ∧
      (deleting pages.contains table.mapping ⟨17⟩) = none := by
  refine ⟨by decide, ⟨by simp [canonical_iff], by decide⟩, ?_, by decide, by decide, by decide⟩
  simp [canonical_iff]

end RegionTable

end Audhsos
