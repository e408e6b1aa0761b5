import Audhsos.Memory.SpanList

/-!
The memory map. `normalize` turns the regions that the firmware gives into spans of usable frames,
and `selectReserve` takes the kernel reserve out of them. A frame is usable when one usable region
has all of its bytes and no region of another kind has any.
-/

namespace Audhsos

open Lib PhysFrameRange List SpanList

/-! ## Regions -/

inductive MemoryRegionKind where
  | usable
  | reserved
  | acpiReclaimable
  | acpiNvs
  | mmioReserved
  | kernel
  | bootImage
  | pageTables
  | bootStack
  | bootInfo
deriving DecidableEq, Repr

/-- A region of the firmware, in bytes; the address is a physical one. -/
structure MemoryRegion where
  start : Nat
  len : Nat
  kind : MemoryRegionKind
  start_lt : start < 2 ^ 52
  len_lt : len < 2 ^ 64

namespace MemoryRegion

variable (region : MemoryRegion)

def Covers (address : Nat) : Prop :=
  region.start ≤ address ∧ address < region.start + region.len

def InFrame (n address : Nat) : Prop := n * pageSize ≤ address ∧ address < (n + 1) * pageSize

variable (n : Nat)

def CoversAll : Prop :=
  ∀ address, InFrame n address → region.Covers address

def CoversAny : Prop :=
  ∃ address, InFrame n address ∧ region.Covers address

theorem coversAll_iff :
    region.CoversAll n ↔
      region.start ≤ n * pageSize ∧ (n + 1) * pageSize ≤ region.start + region.len := by
  unfold CoversAll InFrame Covers pageSize
  constructor
  · intro h
    obtain ⟨hstart, -⟩ := h (n * 4096) ⟨le_rfl, by omega⟩
    obtain ⟨-, hend⟩ := h ((n + 1) * 4096 - 1) ⟨by omega, by omega⟩
    exact ⟨hstart, by omega⟩
  · intro h address haddress
    omega

theorem coversAny_iff :
    region.CoversAny n ↔ region.len ≠ 0 ∧
      region.start < (n + 1) * pageSize ∧ n * pageSize < region.start + region.len := by
  unfold CoversAny InFrame Covers pageSize
  constructor
  · rintro ⟨address, hframe, hcovers⟩
    omega
  · intro h
    by_cases hle : n * 4096 ≤ region.start
    · exact ⟨region.start, by omega, by omega⟩
    · exact ⟨n * 4096, by omega, by omega⟩

end MemoryRegion

def frameFloor (address : Nat) : Nat := address / pageSize

def frameCeil (address : Nat) : Nat :=
  if address % pageSize = 0 then address / pageSize else address / pageSize + 1

variable (region : MemoryRegion)

/-- The first byte above a region. -/
def regionEnd : Except MapError Nat :=
  if region.start + region.len < 2 ^ 64 then .ok (region.start + region.len)
  else .error (.address .overflow)

/-- The start rounded up, the end rounded down. -/
def usableSpan : Except MapError Span := do
  let stop ← regionEnd region
  .ok ⟨frameCeil region.start, min (frameFloor stop) (maxFrameNumber + 1)⟩

/-- The start rounded down, the end rounded up. -/
def excludedSpan : Except MapError Span := do
  let stop ← regionEnd region
  .ok ⟨frameFloor region.start, frameCeil stop⟩

/-! ## The map -/

structure NormalizedMap where
  spans : SpanList

/-- The frames whose numbers lie from `start` on and below `stop`. -/
def PhysFrameRange.fromNumbers (start stop : Nat) : Option PhysFrameRange :=
  if stop < start then none
  else if start ≤ maxFrameNumber then new ⟨start⟩ (stop - start)
  else none

namespace NormalizedMap

variable (map : NormalizedMap)

def iter : List PhysFrameRange :=
  map.spans.asSlice.filterMap fun span => fromNumbers span.start span.stop

def totalFrames : Nat :=
  map.spans.asSlice.foldl (fun total span => min (total + span.frames) (2 ^ 64 - 1)) 0

def totalBytes : Nat := map.totalFrames * pageSize % 2 ^ 64

def without (range : PhysFrameRange) : Except MapError NormalizedMap := do
  let spans ← map.spans.subtract ⟨range.start.number, range.endNumber⟩
  .ok ⟨spans.sortAndMerge⟩

end NormalizedMap

def pushUsable : SpanList → List MemoryRegion → Except MapError SpanList
  | usable, [] => .ok usable
  | usable, region :: rest =>
    if region.kind ≠ .usable ∨ region.len = 0 then pushUsable usable rest
    else do
      let span ← usableSpan region
      if span.isEmpty then pushUsable usable rest
      else
        let usable ← usable.push span
        pushUsable usable rest

def subtractOthers : SpanList → List MemoryRegion → Except MapError SpanList
  | usable, [] => .ok usable
  | usable, region :: rest =>
    if region.kind = .usable ∨ region.len = 0 then subtractOthers usable rest
    else do
      let span ← excludedSpan region
      let usable ← usable.subtract span
      subtractOthers usable rest

def normalize (regions : List MemoryRegion) : Except MapError NormalizedMap := do
  let usable ← pushUsable .empty regions
  let usable ← subtractOthers usable.sortAndMerge regions
  let usable := usable.sortAndMerge
  if usable.len = 0 then .error .noUsableMemory else .ok ⟨usable⟩

/-! ## The reserve -/

def minReserveBytes : Nat := 4 * 1024 * 1024
def maxReserveBytes : Nat := 64 * 1024 * 1024
def reserveDivisor : Nat := 16

/-- The smallest multiple of the page size that is not below the value. -/
def alignUpPage (value : Nat) : Option Nat :=
  if value + (pageSize - 1) < 2 ^ 64 then some ((value + (pageSize - 1)) / pageSize * pageSize)
  else none

def defaultReserveBytes (totalBytes : Nat) : Nat :=
  let share := totalBytes / reserveDivisor
  let clamped :=
    if share < minReserveBytes then minReserveBytes
    else if maxReserveBytes < share then maxReserveBytes
    else share
  (alignUpPage clamped).getD maxReserveBytes

variable (map : NormalizedMap) (overrideBytes : Nat)

def reserveBytes : Except MapError Nat :=
  if overrideBytes = 0 then .ok (defaultReserveBytes map.totalBytes)
  else if overrideBytes % pageSize ≠ 0 then .error (.address (.unaligned overrideBytes pageSize))
  else if map.totalBytes ≤ overrideBytes then .error (.address .overflow)
  else .ok overrideBytes

def selectReserve :
    Except MapError (PhysFrameRange × NormalizedMap) := do
  let bytes ← reserveBytes map overrideBytes
  let frames := bytes / pageSize
  if frames = 0 then .error .reserveDoesNotFit
  else
    match map.iter.find? fun candidate => frames ≤ candidate.count with
    | none => .error .reserveDoesNotFit
    | some range =>
      match new range.start frames with
      | none => .error (.address .overflow)
      | some reserve =>
        let remaining ← map.without reserve
        .ok (reserve, remaining)

/-! ## Spans of regions -/

variable {region : MemoryRegion} {regions : List MemoryRegion} {span : Span} {l l' : SpanList}
  {map : NormalizedMap} {n : Nat}

theorem regionEnd_ok {stop : Nat} (h : regionEnd region = .ok stop) :
    stop = region.start + region.len := by
  unfold regionEnd at h
  split at h
  · cases h
    rfl
  · cases h

theorem usableSpan_spec (h : usableSpan region = .ok span) (n : Nat) :
    span.Has n ↔ region.CoversAll n ∧ n ≤ maxFrameNumber := by
  obtain ⟨stop, hend, h⟩ := bind_eq_ok h
  cases h
  rw [region.coversAll_iff, regionEnd_ok hend]
  unfold Span.Has frameCeil frameFloor pageSize
  dsimp only
  split <;> omega

theorem excludedSpan_spec (hlen : region.len ≠ 0) (h : excludedSpan region = .ok span) (n : Nat) :
    span.Has n ↔ region.CoversAny n := by
  obtain ⟨stop, hend, h⟩ := bind_eq_ok h
  cases h
  rw [region.coversAny_iff, regionEnd_ok hend]
  unfold Span.Has frameCeil frameFloor pageSize
  dsimp only
  split <;> omega

theorem mem_push (h : l.push span = .ok l') (n : Nat) : l'.Mem n ↔ l.Mem n ∨ span.Has n := by
  unfold push at h
  split at h
  · cases h
    constructor
    · rintro ⟨i, hi, hhas⟩
      dsimp only at hi hhas
      split at hhas
      · exact .inr hhas
      · exact .inl ⟨i, by omega, hhas⟩
    · rintro (⟨i, hi, hhas⟩ | hhas)
      · refine ⟨i, Nat.lt_succ_of_lt hi, ?_⟩
        dsimp only
        rwa [if_neg (by omega)]
      · refine ⟨l.len, Nat.lt_succ_self _, ?_⟩
        dsimp only
        rwa [if_pos rfl]
  · cases h

variable (regions)

/-- Some usable region has all bytes of the frame. -/
def Offered (n : Nat) : Prop :=
  ∃ region ∈ regions, region.kind = .usable ∧ region.CoversAll n

/-- Some region of another kind and a length has a byte of the frame. -/
def Withheld (n : Nat) : Prop :=
  ∃ region ∈ regions, region.kind ≠ .usable ∧ region.len ≠ 0 ∧ region.CoversAny n

variable {regions}

section

variable (region : MemoryRegion) (rest : List MemoryRegion) (n : Nat)

theorem offered_cons :
    Offered (region :: rest) n ↔
      region.kind = .usable ∧ region.CoversAll n ∨ Offered rest n := by
  unfold Offered
  exact exists_mem_cons_iff ..

theorem withheld_cons :
    Withheld (region :: rest) n ↔
      region.kind ≠ .usable ∧ region.len ≠ 0 ∧ region.CoversAny n ∨ Withheld rest n := by
  unfold Withheld
  exact exists_mem_cons_iff ..

end

theorem not_coversAll_of_empty (h : region.len = 0) : ¬ region.CoversAll n := by
  rw [region.coversAll_iff, h]
  unfold pageSize
  omega

theorem pushUsable_spec (h : pushUsable l regions = .ok l') (n : Nat) :
    l'.Mem n ↔ l.Mem n ∨ Offered regions n ∧ n ≤ maxFrameNumber := by
  induction regions generalizing l with
  | nil =>
    cases h
    simp [Offered]
  | cons region rest ih =>
    rw [offered_cons]
    unfold pushUsable at h
    split at h
    next hskip =>
      rw [ih h]
      have hnone : ¬ (region.kind = .usable ∧ region.CoversAll n) := by
        rintro ⟨hkind, hall⟩
        exact hskip.elim (fun hne => hne hkind) fun hlen => not_coversAll_of_empty hlen hall
      rw [or_iff_right hnone]
    next htake =>
      obtain ⟨span, hspan, h⟩ := bind_eq_ok h
      have hhas := usableSpan_spec hspan n
      split at h
      next hempty =>
        have hnone : ¬ span.Has n := by
          unfold Span.isEmpty at hempty
          rw [decide_eq_true_eq] at hempty
          unfold Span.Has
          omega
        rw [hhas] at hnone
        rw [ih h]
        tauto
      next hfull =>
        obtain ⟨l₁, hpush, h⟩ := bind_eq_ok h
        rw [ih h, mem_push hpush, hhas]
        tauto

theorem subtractOthers_spec (h : subtractOthers l regions = .ok l') (n : Nat) :
    l'.Mem n ↔ l.Mem n ∧ ¬ Withheld regions n := by
  induction regions generalizing l with
  | nil =>
    cases h
    simp [Withheld]
  | cons region rest ih =>
    rw [withheld_cons]
    unfold subtractOthers at h
    split at h
    next hskip =>
      rw [ih h]
      tauto
    next htake =>
      rw [not_or] at htake
      obtain ⟨span, hspan, h⟩ := bind_eq_ok h
      obtain ⟨l₁, hsubtract, h⟩ := bind_eq_ok h
      rw [ih h, subtract_spec hsubtract n, excludedSpan_spec htake.2 hspan]
      tauto

/-! ## Ranges of a map -/

namespace NormalizedMap

variable {range : PhysFrameRange}

def HasFrame (map : NormalizedMap) (n : Nat) : Prop :=
  ∃ range ∈ map.iter, range.start.number ≤ n ∧ n < range.endNumber

/-- The spans are parted and hold numbers of frames. -/
structure Normal (map : NormalizedMap) : Prop where
  parted : map.spans.Parted map.spans.len
  below : ∀ n, map.spans.Mem n → n ≤ maxFrameNumber

theorem fromNumbers_spec {start stop : Nat} (h : fromNumbers start stop = some range) :
    range.start.number = start ∧ range.endNumber = stop := by
  unfold fromNumbers new at h
  split at h
  · cases h
  split at h
  · split at h
    · cases h
      unfold endNumber
      dsimp only
      omega
    · cases h
  · cases h

theorem mem_iter (h : range ∈ map.iter) :
    ∃ i < map.spans.len, range.start.number = (map.spans.items i).start ∧
      range.endNumber = (map.spans.items i).stop := by
  obtain ⟨span, hspan, hsome⟩ := mem_filterMap.mp h
  obtain ⟨i, hi, rfl⟩ := mem_map.mp hspan
  exact ⟨i, mem_range.mp hi, fromNumbers_spec hsome⟩

section

variable (h : map.Normal)
include h

theorem Normal.exists_range {i : Nat} (hi : i < map.spans.len) :
    ∃ range ∈ map.iter, range.start.number = (map.spans.items i).start ∧
      range.endNumber = (map.spans.items i).stop := by
  have hfull := (h.parted i hi).1
  have hlast := h.below ((map.spans.items i).stop - 1) ⟨i, hi, by
    unfold Span.Has
    omega⟩
  have hsome : fromNumbers (map.spans.items i).start (map.spans.items i).stop =
      some ⟨⟨(map.spans.items i).start⟩, (map.spans.items i).stop - (map.spans.items i).start,
        by dsimp only; omega⟩ := by
    unfold fromNumbers new
    rw [if_neg (by omega), if_pos (by omega), dif_pos]
  refine ⟨_, mem_filterMap.mpr ⟨map.spans.items i, ?_, hsome⟩, fromNumbers_spec hsome⟩
  exact mem_map_of_mem (mem_range.mpr hi)

theorem Normal.hasFrame_iff (n : Nat) : map.HasFrame n ↔ map.spans.Mem n := by
  constructor
  · rintro ⟨range, hrange, hstart, hend⟩
    obtain ⟨i, hi, hfirst, hstop⟩ := mem_iter hrange
    refine ⟨i, hi, ?_⟩
    rw [hfirst] at hstart
    rw [hstop] at hend
    exact ⟨hstart, hend⟩
  · rintro ⟨i, hi, hhas⟩
    obtain ⟨range, hrange, hfirst, hstop⟩ := h.exists_range hi
    exact ⟨range, hrange, hfirst ▸ hhas.1, hstop ▸ hhas.2⟩

/-- Induction on the distance: spans that are not neighbours are parted as well. -/
theorem Normal.apart {i : Nat} (k : Nat) (hk : i + 1 + k < map.spans.len) :
    (map.spans.items i).stop < (map.spans.items (i + 1 + k)).start := by
  induction k with
  | zero => exact (h.parted i (by omega)).2 hk
  | succ k ih =>
    have hbefore := ih (by omega)
    have hfull := (h.parted (i + 1 + k) (by omega)).1
    have hnext := (h.parted (i + 1 + k) (by omega)).2 (by omega)
    exact lt_trans hbefore (lt_trans hfull hnext)

theorem Normal.iter_sorted :
    (∀ range ∈ map.iter, 0 < range.count) ∧
    map.iter.Pairwise fun a b => a.endNumber < b.start.number := by
  constructor
  · intro range hrange
    obtain ⟨i, hi, hfirst, hstop⟩ := mem_iter hrange
    have hfull := (h.parted i hi).1
    unfold endNumber at hstop
    omega
  · unfold iter asSlice
    rw [pairwise_filterMap, pairwise_map]
    refine pairwise_lt_range.imp_of_mem fun {i j} _ hj hij a ha b hb => ?_
    rw [(fromNumbers_spec ha).2, (fromNumbers_spec hb).1]
    obtain ⟨k, rfl⟩ := Nat.exists_eq_add_of_le (Nat.succ_le_of_lt hij)
    exact h.apart k (mem_range.mp hj)

theorem without_spec {rest : NormalizedMap} (hrest : map.without range = .ok rest) :
    rest.Normal ∧ ∀ n, rest.HasFrame n ↔
      map.HasFrame n ∧ ¬ (range.start.number ≤ n ∧ n < range.endNumber) := by
  obtain ⟨spans, hsubtract, hrest⟩ := bind_eq_ok hrest
  cases hrest
  have hcut := subtract_spec hsubtract
  obtain ⟨hmem, hparted⟩ := spans.sortAndMerge_spec
  have hnormal : Normal ⟨spans.sortAndMerge⟩ := by
    refine ⟨hparted, fun n hn => h.below n ?_⟩
    exact ((hcut n).mp ((hmem n).mp hn)).1
  refine ⟨hnormal, fun n => ?_⟩
  rw [hnormal.hasFrame_iff, h.hasFrame_iff]
  exact (hmem n).trans (hcut n)

end

end NormalizedMap

/-- What `normalize` answers is parted, and has the frames that are offered and not withheld. -/
theorem normalize_spec (h : normalize regions = .ok map) :
    map.Normal ∧ ∀ n, map.spans.Mem n ↔
      (Offered regions n ∧ n ≤ maxFrameNumber) ∧ ¬ Withheld regions n := by
  unfold normalize at h
  obtain ⟨usable, hpush, h⟩ := bind_eq_ok h
  obtain ⟨kept, hsubtract, h⟩ := bind_eq_ok h
  change (if kept.sortAndMerge.len = 0 then _ else _) = _ at h
  split at h
  · cases h
  cases h
  obtain ⟨hmem, hparted⟩ := kept.sortAndMerge_spec
  have hframes : ∀ n, kept.sortAndMerge.Mem n ↔
      (Offered regions n ∧ n ≤ maxFrameNumber) ∧ ¬ Withheld regions n := by
    intro n
    have hempty : ¬ empty.Mem n := by
      rintro ⟨i, hi, -⟩
      exact Nat.not_lt_zero i hi
    rw [hmem n, subtractOthers_spec hsubtract n, usable.sortAndMerge_spec.1 n,
      pushUsable_spec hpush n, or_iff_right hempty]
  exact ⟨⟨hparted, fun n hn => ((hframes n).mp hn).1.2⟩, hframes⟩

theorem selectReserve_spec (h : map.Normal) {overrideBytes : Nat} {reserve : PhysFrameRange}
    {rest : NormalizedMap} (hselect : selectReserve map overrideBytes = .ok (reserve, rest)) :
    (∃ range ∈ map.iter, range.start.number ≤ reserve.start.number ∧
      reserve.endNumber ≤ range.endNumber) ∧
    ∀ n, rest.HasFrame n ↔
      map.HasFrame n ∧ ¬ (reserve.start.number ≤ n ∧ n < reserve.endNumber) := by
  obtain ⟨bytes, hbytes, hselect⟩ := bind_eq_ok hselect
  change (if bytes / pageSize = 0 then _ else _) = _ at hselect
  split at hselect
  · cases hselect
  split at hselect
  · cases hselect
  next range hfind =>
  split at hselect
  · cases hselect
  next found hnew =>
  obtain ⟨remaining, hwithout, hselect⟩ := bind_eq_ok hselect
  cases hselect
  have hlarge : bytes / pageSize ≤ range.count := by simpa using find?_some hfind
  refine ⟨⟨range, mem_of_find?_eq_some hfind, ?_⟩, (NormalizedMap.without_spec h hwithout).2⟩
  unfold new at hnew
  split at hnew
  · cases hnew
    unfold endNumber
    dsimp only
    omega
  · cases hnew

/-- A normalized map has the frames that one usable region has all bytes of and no other region
has any byte of; its ranges hold frames, are sorted and do not touch. The reserve comes out of
one of them, and what is left is the map without it. -/
theorem normalized_map_sound (regions : List MemoryRegion) (map : NormalizedMap)
    (h : normalize regions = .ok map) :
    (∀ n ≤ maxFrameNumber, map.HasFrame n ↔
      (∃ region ∈ regions, region.kind = .usable ∧ region.CoversAll n) ∧
      ∀ region ∈ regions, region.kind ≠ .usable → region.len ≠ 0 → ¬ region.CoversAny n) ∧
    (∀ range ∈ map.iter, 0 < range.count) ∧
    (map.iter.Pairwise fun a b => a.endNumber < b.start.number) ∧
    ∀ overrideBytes reserve rest, selectReserve map overrideBytes = .ok (reserve, rest) →
      (∃ range ∈ map.iter, range.start.number ≤ reserve.start.number ∧
        reserve.endNumber ≤ range.endNumber) ∧
      ∀ n, rest.HasFrame n ↔
        map.HasFrame n ∧ ¬ (reserve.start.number ≤ n ∧ n < reserve.endNumber) := by
  obtain ⟨hnormal, hframes⟩ := normalize_spec h
  refine ⟨fun n hn => ?_, hnormal.iter_sorted.1, hnormal.iter_sorted.2,
    fun overrideBytes reserve rest hselect => selectReserve_spec hnormal hselect⟩
  rw [hnormal.hasFrame_iff, hframes n, and_iff_left hn]
  refine and_congr Iff.rfl ?_
  unfold Withheld
  simp only [not_exists, not_and]

/-- Sixteen usable MiB with a byte of the kernel in the second frame. -/
def oneByteTaken : List MemoryRegion :=
  [⟨4097, 1, .kernel, by decide, by decide⟩,
    ⟨0, 16 * 1024 * 1024, .usable, by decide, by decide⟩]

theorem normalized_map_sound_one_byte :
    ∃ map, normalize oneByteTaken = .ok map ∧
      map.iter.map (fun range => (range.start.number, range.count)) = [(0, 1), (2, 4094)] ∧
      (∀ n ≤ maxFrameNumber, map.HasFrame n ↔
        (∃ region ∈ oneByteTaken, region.kind = .usable ∧ region.CoversAll n) ∧
        ∀ region ∈ oneByteTaken, region.kind ≠ .usable → region.len ≠ 0 →
          ¬ region.CoversAny n) := by
  cases hmap : normalize oneByteTaken with
  | error error =>
    have hok : (normalize oneByteTaken).toOption.isSome = true := by decide +kernel
    rw [hmap] at hok
    cases hok
  | ok map =>
    refine ⟨map, rfl, ?_, (normalized_map_sound oneByteTaken map hmap).1⟩
    have hranges : (normalize oneByteTaken).toOption.map (fun map =>
        map.iter.map fun range => (range.start.number, range.count)) =
        some [(0, 1), (2, 4094)] := by decide +kernel
    rw [hmap] at hranges
    exact Option.some.inj hranges

end Audhsos
