import Mathlib.Order.Interval.Finset.Nat
import Audhsos.Lib.Bitmap
import Audhsos.Memory.Region

/-!
The bitmap allocator over the kernel reserve. The answers of the calls tell which frames are handed
out: the bits below the managed count are that set, and the others are counted as free.
-/

namespace Audhsos

open Bitmap Finset PhysFrame

structure Alignment where
  bytes : Nat
  pow : ∃ k < 64, bytes = 2 ^ k

variable (alignment : Alignment)

def Alignment.isAligned (value : Nat) : Bool :=
  value &&& (alignment.bytes - 1) = 0

theorem Alignment.isAligned_iff (value : Nat) :
    alignment.isAligned value = true ↔ alignment.bytes ∣ value := by
  obtain ⟨k, -, hpow⟩ := alignment.pow
  unfold isAligned
  rw [decide_eq_true_eq, hpow, Nat.and_two_pow_sub_one_eq_mod, Nat.dvd_iff_mod_eq_zero]

def PhysFrame.start (frame : PhysFrame) : Nat := frame.number * pageSize

variable (range : PhysFrameRange)

def PhysFrameRange.frames : List PhysFrame :=
  (List.range range.count).map fun i => ⟨range.start.number + i⟩

inductive FrameError where
  | outOfFrames
  | notManaged
  | notAllocated
  | alreadyAllocated
  | invalidCount
deriving DecidableEq, Repr

def reserveWords : Nat := 256
def maxManagedFrames : Nat := 16384

/-- An allocator over consecutive frames; a set bit means that the frame is handed out. -/
structure BitmapFrameAllocator where
  base : PhysFrame
  count : Nat
  bits : Nat → BitVec 64
  freeCount : Nat
  count_le : count ≤ maxManagedFrames
  end_le : base.number + count ≤ maxFrameNumber + 1

namespace BitmapFrameAllocator

variable {a : BitmapFrameAllocator} {n m k first : Nat}

/-! ## The allocator -/

variable (a) (frame : PhysFrame)

def offsetOf : Option Nat :=
  if a.base.number ≤ frame.number ∧ frame.number - a.base.number < a.count then
    some (frame.number - a.base.number)
  else none

variable (number : Nat)

def isSet : Bool :=
  number / 64 < reserveWords && decide (a.bits (number / 64) &&& (1#64 <<< (number % 64)) ≠ 0#64)

def set (allocated : Bool) : BitmapFrameAllocator :=
  if number / 64 < reserveWords then { a with bits := mark a.bits number allocated } else a

def setRun (first count : Nat) (allocated : Bool) : BitmapFrameAllocator :=
  (List.range count).foldl (fun a i => a.set (first + i) allocated) a

def new : Except FrameError BitmapFrameAllocator :=
  if h : maxManagedFrames < range.count then .error .invalidCount
  else
    let allocator : BitmapFrameAllocator :=
      { base := range.start, count := range.count, bits := fun _ => BitVec.allOnes 64
        freeCount := range.count, count_le := le_of_not_gt h, end_le := range.end_le }
    .ok (allocator.setRun 0 range.count false)

/-- The number of the first free frame at or above `number`; full words are skipped. -/
def firstFree : Option Nat :=
  -- bits below `number` in its word count as taken
  match firstClear a.bits (reserveWords - number / 64) (number / 64)
    ((1#64 <<< (number % 64)) - 1#64) with
  | some found => if found < a.count then some found else none
  | none => none

def allocate : Except FrameError PhysFrame × BitmapFrameAllocator :=
  match a.firstFree 0 with
  | none => (.error .outOfFrames, a)
  | some number =>
    let a' := { a.set number true with freeCount := a.freeCount - 1 }
    match a.base.checkedAdd number with
    | some frame => (.ok frame, a')
    | none => (.error .outOfFrames, a')

def allocateAt : Except FrameError Unit × BitmapFrameAllocator :=
  match a.offsetOf frame with
  | none => (.error .notManaged, a)
  | some number =>
    if a.isSet number then (.error .alreadyAllocated, a)
    else (.ok (), { a.set number true with freeCount := a.freeCount - 1 })

/-- The search of `allocateContiguous`, from `number` on. -/
def contiguousLoop (a : BitmapFrameAllocator) (count : Nat) (alignment : Alignment) :
    Nat → Nat → Except FrameError PhysFrameRange × BitmapFrameAllocator
  | 0, _ => (.error .outOfFrames, a)
  | steps + 1, number =>
    match a.firstFree number with
    | none => (.error .outOfFrames, a)
    | some candidate =>
      match a.base.checkedAdd candidate with
      | none => (.error .outOfFrames, a)
      | some start =>
        if !alignment.isAligned start.start then
          contiguousLoop a count alignment steps (candidate + 1)
        else if a.count < candidate + count then (.error .outOfFrames, a)
        else
          match (List.range count).find? fun i => a.isSet (candidate + i) with
          | some i => contiguousLoop a count alignment steps (candidate + i + 1)
          | none =>
            let a' := { a.setRun candidate count true with freeCount := a.freeCount - count }
            match PhysFrameRange.new start count with
            | some range => (.ok range, a')
            | none => (.error .outOfFrames, a')

def allocateContiguous (count : Nat) (alignment : Alignment) :
    Except FrameError PhysFrameRange × BitmapFrameAllocator :=
  if count = 0 ∨ a.count < count then (.error .invalidCount, a)
  else a.contiguousLoop count alignment (a.count + 1) 0

def free : Except FrameError Unit × BitmapFrameAllocator :=
  match a.offsetOf frame with
  | none => (.error .notManaged, a)
  | some number =>
    if !a.isSet number then (.error .notAllocated, a)
    else (.ok (), { a.set number false with freeCount := a.freeCount + 1 })

def refused (a : BitmapFrameAllocator) : List PhysFrame → Option FrameError
  | [] => none
  | frame :: rest =>
    match a.offsetOf frame with
    | none => some .notManaged
    | some number => if !a.isSet number then some .notAllocated else a.refused rest

def freeContiguous (range : PhysFrameRange) : Except FrameError Unit × BitmapFrameAllocator :=
  match a.refused range.frames with
  | some error => (.error error, a)
  | none => (.ok (), range.frames.foldl (fun a frame => (a.free frame).2) a)

variable {a}

/-! ## Marks -/

theorem lt_words (h : n < maxManagedFrames) : n / 64 < reserveWords := by
  unfold maxManagedFrames at h
  unfold reserveWords
  omega

theorem isSet_eq_bit (h : n < maxManagedFrames) : a.isSet n = bit a.bits n := by
  unfold isSet bit
  rw [decide_eq_true (lt_words h), Bool.true_and, test_mask _ (Nat.mod_lt n (by decide))]

section

variable (a : BitmapFrameAllocator)

theorem isSet_set (hn : n < maxManagedFrames) (hm : m < maxManagedFrames) (value : Bool) :
    (a.set n value).isSet m = if m = n then value else a.isSet m := by
  rw [isSet_eq_bit hm, isSet_eq_bit hm]
  unfold set
  rw [if_pos (lt_words hn)]
  exact bit_mark (by decide) a.bits n m value

theorem set_frame (n : Nat) (value : Bool) :
    (a.set n value).base = a.base ∧ (a.set n value).count = a.count ∧
    (a.set n value).freeCount = a.freeCount := by
  unfold set
  split <;> exact ⟨rfl, rfl, rfl⟩

theorem setRun_succ (first k : Nat) (value : Bool) :
    a.setRun first (k + 1) value = (a.setRun first k value).set (first + k) value := by
  unfold setRun
  rw [List.range_succ, List.foldl_append]
  rfl

theorem setRun_frame (first k : Nat) (value : Bool) :
    (a.setRun first k value).base = a.base ∧ (a.setRun first k value).count = a.count ∧
    (a.setRun first k value).freeCount = a.freeCount := by
  induction k with
  | zero => exact ⟨rfl, rfl, rfl⟩
  | succ k ih =>
    obtain ⟨hbase, hcount, hfree⟩ := (a.setRun first k value).set_frame (first + k) value
    rw [setRun_succ]
    exact ⟨hbase.trans ih.1, hcount.trans ih.2.1, hfree.trans ih.2.2⟩

theorem isSet_setRun (hrun : first + k ≤ maxManagedFrames)
    (hm : m < maxManagedFrames) (value : Bool) :
    (a.setRun first k value).isSet m =
      if first ≤ m ∧ m < first + k then value else a.isSet m := by
  induction k with
  | zero =>
    rw [if_neg (by omega)]
    rfl
  | succ k ih =>
    rw [setRun_succ, isSet_set _ (by omega) hm, ih (by omega)]
    by_cases heq : m = first + k
    · rw [if_pos heq, if_pos (by omega)]
    · rw [if_neg heq]
      by_cases hin : first ≤ m ∧ m < first + k
      · rw [if_pos hin, if_pos (by omega)]
      · rw [if_neg hin, if_neg (by omega)]

theorem firstFree_spec (number : Nat) :
    match a.firstFree number with
    | some found => number ≤ found ∧ found < a.count ∧ a.isSet found = false ∧
        ∀ m, number ≤ m → m < found → a.isSet m = true
    | none => ∀ m, number ≤ m → m < a.count → a.isSet m = true := by
  have hcount := a.count_le
  have hsearched := searched_from (by decide) a.bits number reserveWords
  unfold firstFree
  generalize firstClear a.bits (reserveWords - number / 64) (number / 64)
    ((1#64 <<< (number % 64)) - 1#64) = found at hsearched ⊢
  cases found with
  | none =>
    intro m hle hm
    rw [isSet_eq_bit (by omega)]
    exact hsearched m hle (by unfold maxManagedFrames at hcount; unfold reserveWords; omega)
  | some found =>
    obtain ⟨hle, hclear, hbefore⟩ := hsearched
    dsimp only
    by_cases hlt : found < a.count
    · rw [if_pos hlt]
      refine ⟨hle, hlt, ?_, fun m hm hmf => ?_⟩
      · rw [isSet_eq_bit (by omega)]
        exact hclear
      · rw [isSet_eq_bit (by omega)]
        exact hbefore m hm hmf
    · rw [if_neg hlt]
      intro m hm hmc
      rw [isSet_eq_bit (by omega)]
      exact hbefore m hm (by omega)

end

/-! ## The frames handed out -/

variable {out : Finset Nat} {frame : PhysFrame}

def managed (a : BitmapFrameAllocator) : Finset Nat :=
  Ico a.base.number (a.base.number + a.count)

/-- The allocator knows the frames that are handed out. -/
structure Tracks (a : BitmapFrameAllocator) (out : Finset Nat) : Prop where
  mark : ∀ n < a.count, a.isSet n = true ↔ a.base.number + n ∈ out
  inside : out ⊆ a.managed
  free : a.freeCount + out.card = a.count

theorem Tracks.clear (h : a.Tracks out) (hn : n < a.count) :
    a.isSet n = false ↔ a.base.number + n ∉ out := by
  rw [← h.mark n hn, Bool.not_eq_true]

def runFrames (a : BitmapFrameAllocator) (first k : Nat) : Finset Nat :=
  Ico (a.base.number + first) (a.base.number + first + k)

theorem runFrames_subset (hrun : first + k ≤ a.count) : a.runFrames first k ⊆ a.managed := by
  intro f hf
  unfold runFrames at hf
  unfold managed
  rw [mem_Ico] at hf ⊢
  omega

section

variable (h : a.Tracks out) (hrun : first + k ≤ a.count)
  (hclear : ∀ i < k, a.isSet (first + i) = false)
include h hrun hclear

theorem Tracks.disjoint_run : Disjoint (a.runFrames first k) out := by
  rw [disjoint_left]
  intro f hf
  unfold runFrames at hf
  rw [mem_Ico] at hf
  obtain ⟨i, rfl⟩ := Nat.exists_eq_add_of_le hf.1
  rw [add_assoc]
  exact (h.clear (by omega)).mp (hclear i (by omega))

theorem Tracks.give :
    Tracks { a.setRun first k true with freeCount := a.freeCount - k }
      (out ∪ a.runFrames first k) := by
  have hle := a.count_le
  obtain ⟨hbase, hcount, -⟩ := a.setRun_frame first k true
  have hinside : out ∪ a.runFrames first k ⊆ a.managed :=
    union_subset h.inside (runFrames_subset hrun)
  have hcard : (out ∪ a.runFrames first k).card = out.card + k := by
    rw [card_union_of_disjoint (h.disjoint_run hrun hclear).symm]
    simp [runFrames]
  refine ⟨fun n hn => ?_, ?_, ?_⟩
  · change (a.setRun first k true).isSet n = true ↔ (a.setRun first k true).base.number + n ∈ _
    rw [hbase, isSet_setRun a (by omega) (by dsimp only at hn; omega), mem_union]
    unfold runFrames
    rw [mem_Ico]
    by_cases hin : first ≤ n ∧ n < first + k
    · rw [if_pos hin]
      exact ⟨fun _ => .inr (by omega), fun _ => rfl⟩
    · rw [if_neg hin, h.mark n (by dsimp only at hn; omega)]
      exact ⟨.inl, fun hor => hor.resolve_right (by omega)⟩
  · unfold managed
    dsimp only
    rw [hbase, hcount]
    exact hinside
  · have hfree := h.free
    have hmost := card_le_card hinside
    rw [hcard] at hmost
    have hmanaged : a.managed.card = a.count := by simp [managed]
    change a.freeCount - k + (out ∪ a.runFrames first k).card = (a.setRun first k true).count
    rw [hcard, hcount]
    omega

end

theorem Tracks.take (h : a.Tracks out) (hn : n < a.count) (hset : a.isSet n = true) :
    Tracks { a.set n false with freeCount := a.freeCount + 1 }
      (out.erase (a.base.number + n)) := by
  have hle := a.count_le
  obtain ⟨hbase, hcount, -⟩ := a.set_frame n false
  refine ⟨fun m hm => ?_, ?_, ?_⟩
  · change (a.set n false).isSet m = true ↔ (a.set n false).base.number + m ∈ _
    dsimp only at hm
    rw [hbase, isSet_set a (by omega) (by omega), mem_erase]
    by_cases heq : m = n
    · simp [heq]
    · rw [if_neg heq, h.mark m (by omega)]
      exact ⟨fun hmem => ⟨by omega, hmem⟩, And.right⟩
  · unfold managed
    dsimp only
    rw [hbase, hcount]
    exact (erase_subset _ _).trans h.inside
  · have hfree := h.free
    have hmem := (h.mark n hn).mp hset
    have hpos := card_pos.mpr ⟨_, hmem⟩
    change a.freeCount + 1 + (out.erase (a.base.number + n)).card = (a.set n false).count
    rw [card_erase_of_mem hmem, hcount]
    omega

theorem offsetOf_eq_some (h : a.offsetOf frame = some n) :
    n < a.count ∧ a.base.number + n = frame.number := by
  unfold offsetOf at h
  split at h
  · cases h
    omega
  · cases h

theorem checkedAdd_managed (h : n < a.count) : a.base.checkedAdd n = some ⟨a.base.number + n⟩ := by
  have hend := a.end_le
  unfold checkedAdd
  rw [if_pos (by omega)]

/-! ## Runs of frames -/

variable (a) (count : Nat) (alignment : Alignment)

/-- A free run at the offset `s`. -/
def RunAt (s : Nat) : Prop :=
  s + count ≤ a.count ∧ alignment.bytes ∣ (a.base.number + s) * pageSize ∧
    ∀ i < count, a.isSet (s + i) = false

/-- What the search for a run answers: the lowest one, marked, or that there is none. -/
def Lowest (answer : Except FrameError PhysFrameRange × BitmapFrameAllocator) : Prop :=
  (∃ s range, a.RunAt count alignment s ∧ (∀ s' < s, ¬ a.RunAt count alignment s') ∧
    range.start.number = a.base.number + s ∧ range.count = count ∧
    answer = (.ok range,
      { a.setRun s count true with freeCount := a.freeCount - count })) ∨
  (∀ s, ¬ a.RunAt count alignment s) ∧ answer = (.error .outOfFrames, a)

theorem RunAt.free {a : BitmapFrameAllocator} {count : Nat} {alignment : Alignment} {s n : Nat}
    (h : a.RunAt count alignment s) (hlow : s ≤ n) (hhigh : n < s + count) : a.isSet n = false := by
  have hclear := h.2.2 (n - s) (by omega)
  rwa [Nat.add_sub_cancel' hlow] at hclear

/-- Induction on the steps: no run starts below `number`, and every step moves it on. -/
theorem lowest_contiguousLoop (hcount : 0 < count) (steps number : Nat)
    (hsteps : a.count < number + steps) (hnone : ∀ s < number, ¬ a.RunAt count alignment s) :
    a.Lowest count alignment (a.contiguousLoop count alignment steps number) := by
  induction steps generalizing number with
  | zero =>
    refine .inr ⟨fun s hrun => hnone s ?_ hrun, rfl⟩
    have hend := hrun.1
    omega
  | succ steps ih =>
    have hsearch := a.firstFree_spec number
    unfold contiguousLoop
    cases hfirst : a.firstFree number with
    | none =>
      rw [hfirst] at hsearch
      refine .inr ⟨fun s hrun => ?_, rfl⟩
      have hend := hrun.1
      by_cases hlt : s < number
      · exact hnone s hlt hrun
      · have hfree := hrun.free (le_refl s) (by omega)
        rw [hsearch s (by omega) (by omega)] at hfree
        cases hfree
    | some candidate =>
      rw [hfirst] at hsearch
      obtain ⟨hle, hlt, hfree, hbefore⟩ := hsearch
      -- what lies before the candidate is taken
      have hskip : ∀ s < candidate, ¬ a.RunAt count alignment s := by
        intro s hs hrun
        by_cases hnumber : s < number
        · exact hnone s hnumber hrun
        · have hclear := hrun.free (le_refl s) (by omega)
          rw [hbefore s (by omega) hs] at hclear
          cases hclear
      dsimp only
      rw [checkedAdd_managed hlt]
      dsimp only
      split
      next hunaligned =>
        refine ih (candidate + 1) (by omega) fun s hs hrun => ?_
        by_cases heq : s = candidate
        · subst heq
          have haligned := (alignment.isAligned_iff _).mpr hrun.2.1
          unfold start at hunaligned
          rw [haligned] at hunaligned
          cases hunaligned
        · exact hskip s (by omega) hrun
      next haligned =>
      split
      next hlong =>
        refine .inr ⟨fun s hrun => ?_, rfl⟩
        by_cases hs : s < candidate
        · exact hskip s hs hrun
        · have hend := hrun.1
          omega
      next hfits =>
      cases hfind : (List.range count).find? fun i => a.isSet (candidate + i) with
      | some i =>
        have htaken : a.isSet (candidate + i) = true := by simpa using List.find?_some hfind
        have hi : i < count := List.mem_range.mp (List.mem_of_find?_eq_some hfind)
        refine ih (candidate + i + 1) (by omega) fun s hs hrun => ?_
        by_cases hlow : s < candidate
        · exact hskip s hlow hrun
        · have hclear := hrun.free (n := candidate + i) (by omega) (by omega)
          rw [htaken] at hclear
          cases hclear
      | none =>
        have hend := a.end_le
        have hclear : ∀ i < count, a.isSet (candidate + i) = false := by
          intro i hi
          have hnot := List.find?_eq_none.mp hfind i (List.mem_range.mpr hi)
          simpa using hnot
        have hrange : PhysFrameRange.new ⟨a.base.number + candidate⟩ count =
            some ⟨⟨a.base.number + candidate⟩, count, by dsimp only; omega⟩ := by
          unfold PhysFrameRange.new
          rw [dif_pos]
        dsimp only
        rw [hrange]
        refine .inl ⟨candidate, _, ⟨by omega, ?_, hclear⟩, hskip, rfl, rfl, rfl⟩
        rw [← alignment.isAligned_iff]
        simpa [start] using haligned

variable {a}

/-! ## Frames that come back -/

theorem Tracks.free_of_mem (h : a.Tracks out) (hmem : frame.number ∈ out) :
    ∃ n < a.count, a.base.number + n = frame.number ∧ a.isSet n = true ∧
      a.free frame = (.ok (), { a.set n false with freeCount := a.freeCount + 1 }) := by
  have hinside := h.inside hmem
  unfold managed at hinside
  rw [mem_Ico] at hinside
  have hoffset : a.offsetOf frame = some (frame.number - a.base.number) := by
    unfold offsetOf
    rw [if_pos (by omega)]
  have hnumber : a.base.number + (frame.number - a.base.number) = frame.number := by omega
  have hset : a.isSet (frame.number - a.base.number) = true := by
    rw [h.mark _ (by omega), hnumber]
    exact hmem
  refine ⟨_, by omega, hnumber, hset, ?_⟩
  unfold BitmapFrameAllocator.free
  rw [hoffset]
  dsimp only
  rw [hset]
  rfl

theorem Tracks.takeAll (h : a.Tracks out) (frames : List PhysFrame)
    (hmem : ∀ frame ∈ frames, frame.number ∈ out) (hnodup : (frames.map (·.number)).Nodup) :
    Tracks (frames.foldl (fun a frame => (a.free frame).2) a)
      (out \ (frames.map (·.number)).toFinset) := by
  induction frames generalizing a out with
  | nil => simpa using h
  | cons frame rest ih =>
    obtain ⟨n, hn, hnumber, hset, hfree⟩ := h.free_of_mem (hmem frame (List.mem_cons_self ..))
    have htaken := h.take hn hset
    rw [hnumber] at htaken
    rw [List.map_cons, List.nodup_cons] at hnodup
    have hrest := ih htaken (fun f hf => ?_) hnodup.2
    · rw [List.foldl_cons, hfree]
      rw [List.map_cons, List.toFinset_cons, sdiff_insert, ← erase_sdiff_comm]
      exact hrest
    · refine mem_erase.mpr ⟨fun heq => hnodup.1 ?_, hmem f (List.mem_cons_of_mem _ hf)⟩
      rw [← heq]
      exact List.mem_map_of_mem hf

variable (a)

theorem free_range (frame : PhysFrame) :
    (a.free frame).2.base = a.base ∧ (a.free frame).2.count = a.count := by
  unfold free
  split
  · exact ⟨rfl, rfl⟩
  next number _ =>
    split
    · exact ⟨rfl, rfl⟩
    · obtain ⟨hbase, hcount, -⟩ := a.set_frame number false
      exact ⟨hbase, hcount⟩

theorem takeAll_range (frames : List PhysFrame) :
    (frames.foldl (fun a frame => (a.free frame).2) a).base = a.base ∧
    (frames.foldl (fun a frame => (a.free frame).2) a).count = a.count := by
  induction frames generalizing a with
  | nil => exact ⟨rfl, rfl⟩
  | cons frame rest ih =>
    obtain ⟨hbase, hcount⟩ := ih (a.free frame).2
    exact ⟨hbase.trans (a.free_range frame).1, hcount.trans (a.free_range frame).2⟩

variable {a}

theorem mem_of_not_refused (h : a.Tracks out) {frames : List PhysFrame}
    (hnone : a.refused frames = none) : ∀ frame ∈ frames, frame.number ∈ out := by
  induction frames with
  | nil => exact nofun
  | cons frame rest ih =>
    unfold refused at hnone
    cases hoffset : a.offsetOf frame with
    | none =>
      rw [hoffset] at hnone
      cases hnone
    | some number =>
      rw [hoffset] at hnone
      dsimp only at hnone
      split at hnone
      · cases hnone
      next hset =>
        obtain ⟨hlt, hnumber⟩ := offsetOf_eq_some hoffset
        rw [List.forall_mem_cons]
        refine ⟨?_, ih hnone⟩
        rw [← hnumber, ← h.mark number hlt]
        simpa using hset

end BitmapFrameAllocator

/-! ## Calls -/

def PhysFrameRange.numbers : Finset Nat :=
  Ico range.start.number range.endNumber

theorem PhysFrameRange.numbers_frames :
    (range.frames.map (·.number)).toFinset = range.numbers ∧
    (range.frames.map (·.number)).Nodup := by
  have hmap : range.frames.map (·.number) =
      (List.range range.count).map (range.start.number + ·) := by
    unfold frames
    rw [List.map_map]
    rfl
  rw [hmap]
  constructor
  · ext f
    unfold numbers endNumber
    simp only [List.mem_toFinset, List.mem_map, List.mem_range, mem_Ico]
    constructor
    · rintro ⟨i, hi, rfl⟩
      omega
    · rintro ⟨hle, hlt⟩
      exact ⟨f - range.start.number, by omega, by omega⟩
  · exact List.nodup_range.map fun i j hij => Nat.add_left_cancel hij

inductive FrameCall where
  | allocate
  | allocateAt (frame : PhysFrame)
  | allocateContiguous (count : Nat) (alignment : Alignment)
  | free (frame : PhysFrame)
  | freeContiguous (range : PhysFrameRange)

/-- The numbers of the frames that a call hands out and of those it takes back. -/
structure Transfer where
  given : Finset Nat
  taken : Finset Nat

namespace FrameCall

open BitmapFrameAllocator

variable {a : BitmapFrameAllocator} {out : Finset Nat}

variable (a)

def run : FrameCall → Except FrameError Transfer × BitmapFrameAllocator
  | .allocate => (a.allocate.1.map fun frame => ⟨{frame.number}, ∅⟩, a.allocate.2)
  | .allocateAt frame =>
    ((a.allocateAt frame).1.map fun _ => ⟨{frame.number}, ∅⟩, (a.allocateAt frame).2)
  | .allocateContiguous count alignment =>
    ((a.allocateContiguous count alignment).1.map fun range => ⟨range.numbers, ∅⟩,
      (a.allocateContiguous count alignment).2)
  | .free frame => ((a.free frame).1.map fun _ => ⟨∅, {frame.number}⟩, (a.free frame).2)
  | .freeContiguous range =>
    ((a.freeContiguous range).1.map fun _ => ⟨∅, range.numbers⟩, (a.freeContiguous range).2)

/-- A call that succeeds hands out free frames and takes back handed out ones; one that fails
changes nothing. -/
def Fair (out : Finset Nat) (answer : Except FrameError Transfer × BitmapFrameAllocator) : Prop :=
  match answer.1 with
  | .ok t => t.given ⊆ a.managed ∧ Disjoint t.given out ∧ t.taken ⊆ out ∧
      answer.2.Tracks (out \ t.taken ∪ t.given) ∧ answer.2.base = a.base ∧ answer.2.count = a.count
  | .error _ => answer.2 = a

variable {a}

theorem fair_give (h : a.Tracks out) (first k : Nat) (hrun : first + k ≤ a.count)
    (hclear : ∀ i < k, a.isSet (first + i) = false) {given : Finset Nat}
    (hgiven : given = a.runFrames first k) :
    Fair a out (.ok ⟨given, ∅⟩,
      { a.setRun first k true with freeCount := a.freeCount - k }) := by
  subst hgiven
  obtain ⟨hbase, hcount, -⟩ := a.setRun_frame first k true
  refine ⟨runFrames_subset hrun, h.disjoint_run hrun hclear, empty_subset _, ?_, hbase, hcount⟩
  rw [sdiff_empty]
  exact h.give hrun hclear

theorem fair_take {a' : BitmapFrameAllocator} {taken : Finset Nat} (hsub : taken ⊆ out)
    (htracks : a'.Tracks (out \ taken)) (hrange : a'.base = a.base ∧ a'.count = a.count) :
    Fair a out (.ok ⟨∅, taken⟩, a') := by
  refine ⟨empty_subset _, disjoint_empty_left _, hsub, ?_, hrange⟩
  rw [union_empty]
  exact htracks

theorem fair_allocateContiguous (h : a.Tracks out) (count : Nat) (alignment : Alignment) :
    Fair a out ((FrameCall.allocateContiguous count alignment).run a) := by
  change Fair a out (_, _)
  unfold BitmapFrameAllocator.allocateContiguous
  split
  · rfl
  next hvalid =>
  obtain ⟨s, range, hrun, -, hstart, hlength, heq⟩ | ⟨-, heq⟩ :=
    lowest_contiguousLoop a count alignment (by omega) (a.count + 1) 0 (by omega) (by omega)
  · rw [heq]
    refine fair_give h s count hrun.1 hrun.2.2 ?_
    unfold PhysFrameRange.numbers PhysFrameRange.endNumber runFrames
    rw [hstart, hlength]
  · rw [heq]
    rfl

theorem runFrames_one (a : BitmapFrameAllocator) (n : Nat) :
    {a.base.number + n} = a.runFrames n 1 := by
  unfold runFrames
  simp

theorem fair_run (h : a.Tracks out) (call : FrameCall) : Fair a out (call.run a) := by
  cases call with
  | allocate =>
    have hsearch := a.firstFree_spec 0
    change Fair a out (_, _)
    unfold BitmapFrameAllocator.allocate
    cases hfirst : a.firstFree 0 with
    | none => rfl
    | some number =>
      rw [hfirst] at hsearch
      dsimp only
      rw [checkedAdd_managed hsearch.2.1]
      refine fair_give h number 1 (by omega) (fun i hi => ?_) (runFrames_one a number)
      rw [Nat.lt_one_iff.mp hi]
      exact hsearch.2.2.1
  | allocateAt frame =>
    change Fair a out (_, _)
    unfold BitmapFrameAllocator.allocateAt
    cases hoffset : a.offsetOf frame with
    | none => rfl
    | some number =>
      obtain ⟨hlt, hnumber⟩ := offsetOf_eq_some hoffset
      dsimp only
      split
      · rfl
      next hclear =>
        refine fair_give h number 1 (by omega) (fun i hi => ?_) ?_
        · rw [Nat.lt_one_iff.mp hi]
          simpa using hclear
        · rw [← hnumber]
          exact runFrames_one a number
  | allocateContiguous count alignment => exact fair_allocateContiguous h count alignment
  | free frame =>
    change Fair a out (_, _)
    unfold BitmapFrameAllocator.free
    cases hoffset : a.offsetOf frame with
    | none => rfl
    | some number =>
      obtain ⟨hlt, hnumber⟩ := offsetOf_eq_some hoffset
      dsimp only
      split
      · rfl
      next hset =>
        have hmarked : a.isSet number = true := by simpa using hset
        have htake := h.take hlt hmarked
        rw [hnumber, erase_eq] at htake
        obtain ⟨hbase, hcount, -⟩ := a.set_frame number false
        refine fair_take ?_ htake ⟨hbase, hcount⟩
        rw [singleton_subset_iff, ← hnumber, ← h.mark number hlt]
        exact hmarked
  | freeContiguous range =>
    change Fair a out (_, _)
    unfold BitmapFrameAllocator.freeContiguous
    cases hrefused : a.refused range.frames with
    | some error => rfl
    | none =>
      obtain ⟨hnumbers, hnodup⟩ := range.numbers_frames
      have hmem := mem_of_not_refused h hrefused
      have htake := h.takeAll range.frames hmem hnodup
      rw [hnumbers] at htake
      refine fair_take ?_ htake (a.takeAll_range range.frames)
      rw [← hnumbers]
      intro f hf
      obtain ⟨frame, hframe, rfl⟩ := List.mem_map.mp (List.mem_toFinset.mp hf)
      exact hmem frame hframe

end FrameCall

/-! ## Histories -/

/-- An allocator with the numbers of the frames that its calls have handed out. -/
structure Reserve where
  allocator : BitmapFrameAllocator
  out : Finset Nat

namespace Reserve

open BitmapFrameAllocator

def step (s : Reserve) (call : FrameCall) : Reserve :=
  match call.run s.allocator with
  | (.ok t, allocator) => ⟨allocator, s.out \ t.taken ∪ t.given⟩
  | (.error _, allocator) => ⟨allocator, s.out⟩

def run (s : Reserve) (calls : List FrameCall) : Reserve := calls.foldl step s

/-- The allocator knows what is handed out of the frames of `range`. -/
structure Keeps (range : PhysFrameRange) (s : Reserve) : Prop where
  tracks : s.allocator.Tracks s.out
  base : s.allocator.base = range.start
  count : s.allocator.count = range.count

variable {range : PhysFrameRange} {s : Reserve}

theorem Keeps.managed (h : s.Keeps range) : s.allocator.managed = range.numbers := by
  unfold BitmapFrameAllocator.managed PhysFrameRange.numbers PhysFrameRange.endNumber
  rw [h.base, h.count]

theorem keeps_step (h : s.Keeps range) (call : FrameCall) : (s.step call).Keeps range := by
  have hfair := FrameCall.fair_run h.tracks call
  unfold step
  rcases hrun : call.run s.allocator with ⟨error | t, allocator⟩
  · rw [hrun] at hfair
    cases hfair
    exact h
  · rw [hrun] at hfair
    obtain ⟨-, -, -, htracks, hbase, hcount⟩ := hfair
    exact ⟨htracks, hbase.trans h.base, hcount.trans h.count⟩

theorem keeps_run (calls : List FrameCall) (h : s.Keeps range) : (s.run calls).Keeps range := by
  induction calls generalizing s with
  | nil => exact h
  | cons call rest ih => exact ih (keeps_step h call)

theorem keeps_new {a : BitmapFrameAllocator} (hnew : new range = .ok a) : Keeps range ⟨a, ∅⟩ := by
  unfold new at hnew
  split at hnew
  · cases hnew
  next hfits =>
    have hle : range.count ≤ maxManagedFrames := le_of_not_gt hfits
    cases hnew
    obtain ⟨hbase, hcount, hfree⟩ := setRun_frame
      { base := range.start, count := range.count, bits := fun _ => BitVec.allOnes 64,
        freeCount := range.count, count_le := hle, end_le := range.end_le } 0 range.count false
    refine ⟨⟨fun n hn => ?_, empty_subset _, ?_⟩, hbase, hcount⟩
    · dsimp only at hn hcount ⊢
      rw [hcount] at hn
      rw [isSet_setRun _ (by omega) (by omega), if_pos (by omega)]
      simp
    · dsimp only
      rw [hfree, hcount, card_empty]
      rfl

end Reserve

/-- An aligned run of managed frames that are not handed out, from the frame number `f` on. -/
def FreeRun (managed out : Finset Nat) (count : Nat) (alignment : Alignment) (f : Nat) : Prop :=
  alignment.bytes ∣ f * pageSize ∧ ∀ i < count, f + i ∈ managed ∧ f + i ∉ out

namespace BitmapFrameAllocator

variable {a : BitmapFrameAllocator} {out : Finset Nat} {count : Nat} {alignment : Alignment}

theorem Tracks.freeRun_iff (h : a.Tracks out) (hcount : 0 < count) (s : Nat) :
    FreeRun a.managed out count alignment (a.base.number + s) ↔ a.RunAt count alignment s := by
  unfold FreeRun RunAt managed
  constructor
  · rintro ⟨haligned, hfree⟩
    have hlast := (hfree (count - 1) (by omega)).1
    rw [mem_Ico] at hlast
    refine ⟨by omega, haligned, fun i hi => ?_⟩
    rw [h.clear (by omega), ← add_assoc]
    exact (hfree i hi).2
  · rintro ⟨hend, haligned, hclear⟩
    refine ⟨haligned, fun i hi => ⟨mem_Ico.mpr (by omega), ?_⟩⟩
    rw [add_assoc, ← h.clear (by omega)]
    exact hclear i hi

theorem exists_offset {f : Nat} (hcount : 0 < count)
    (h : FreeRun a.managed out count alignment f) : ∃ s, f = a.base.number + s := by
  have hfirst := (h.2 0 hcount).1
  unfold managed at hfirst
  rw [mem_Ico] at hfirst
  exact ⟨f - a.base.number, by omega⟩

/-- `allocateContiguous` answers the lowest run, and that there is none exactly then. -/
theorem Tracks.contiguous (h : a.Tracks out) (count : Nat) (alignment : Alignment) :
    let answer := (a.allocateContiguous count alignment).1
    (∀ found, answer = .ok found → found.count = count ∧
      FreeRun a.managed out count alignment found.start.number ∧
      ∀ f, FreeRun a.managed out count alignment f → found.start.number ≤ f) ∧
    (answer = .error .outOfFrames ↔
      0 < count ∧ count ≤ a.count ∧ ∀ f, ¬ FreeRun a.managed out count alignment f) ∧
    (answer = .error .invalidCount ↔ count = 0 ∨ a.count < count) := by
  unfold allocateContiguous
  dsimp only
  split
  next hinvalid =>
    refine ⟨nofun, ⟨nofun, fun hnone => ?_⟩, fun _ => hinvalid, fun _ => rfl⟩
    omega
  next hvalid =>
  have hcount : 0 < count := by omega
  obtain ⟨s, range, hrun, hlow, hstart, hlength, heq⟩ | ⟨hnone, heq⟩ :=
    lowest_contiguousLoop a count alignment hcount (a.count + 1) 0 (by omega) (by omega)
  · rw [heq]
    have hfree := (h.freeRun_iff hcount s).mpr hrun
    refine ⟨?_, ⟨nofun, fun hnone => absurd hfree (hnone.2.2 _)⟩, nofun,
      fun hor => absurd hor hvalid⟩
    rintro found ⟨⟩
    rw [hstart]
    refine ⟨hlength, hfree, fun f hf => ?_⟩
    obtain ⟨s', rfl⟩ := exists_offset hcount hf
    by_contra hbelow
    exact hlow s' (by omega) ((h.freeRun_iff hcount s').mp hf)
  · rw [heq]
    refine ⟨nofun, ⟨fun _ => ⟨hcount, by omega, fun f hf => ?_⟩, fun _ => rfl⟩, nofun,
      fun hor => absurd hor hvalid⟩
    obtain ⟨s, rfl⟩ := exists_offset hcount hf
    exact hnone s ((h.freeRun_iff hcount s).mp hf)

end BitmapFrameAllocator

namespace Reserve

open BitmapFrameAllocator

/-- After every history of calls: the count of free frames is right, a call hands out only
managed frames that are not handed out, a call that fails changes nothing, and runs are found
where they are lowest. -/
theorem run_reserve_sound (range : PhysFrameRange) (a : BitmapFrameAllocator)
    (hnew : new range = .ok a) (calls : List FrameCall) :
    let s := run ⟨a, ∅⟩ calls
    s.allocator.freeCount = (range.numbers \ s.out).card ∧
    (∀ call : FrameCall, match call.run s.allocator with
      | (.ok t, _) => t.given ⊆ range.numbers ∧ Disjoint t.given s.out ∧ t.taken ⊆ s.out
      | (.error _, after) => after = s.allocator) ∧
    ∀ count alignment,
      (∀ found, (s.allocator.allocateContiguous count alignment).1 = .ok found →
        found.count = count ∧ FreeRun range.numbers s.out count alignment found.start.number ∧
        ∀ f, FreeRun range.numbers s.out count alignment f → found.start.number ≤ f) ∧
      ((s.allocator.allocateContiguous count alignment).1 = .error .outOfFrames ↔
        0 < count ∧ count ≤ range.count ∧
        ∀ f, ¬ FreeRun range.numbers s.out count alignment f) ∧
      ((s.allocator.allocateContiguous count alignment).1 = .error .invalidCount ↔
        count = 0 ∨ range.count < count) := by
  intro s
  have hkeeps : s.Keeps range := keeps_run calls (keeps_new hnew)
  have hmanaged := hkeeps.managed
  refine ⟨?_, fun call => ?_, fun count alignment => ?_⟩
  · have hfree := hkeeps.tracks.free
    have hinside := hkeeps.tracks.inside
    rw [hmanaged] at hinside
    have hcard : range.numbers.card = range.count := by
      simp [PhysFrameRange.numbers, PhysFrameRange.endNumber]
    rw [hkeeps.count] at hfree
    rw [card_sdiff_of_subset hinside, hcard]
    omega
  · have hfair := FrameCall.fair_run hkeeps.tracks call
    rcases hrun : call.run s.allocator with ⟨error | t, after⟩
    · rw [hrun] at hfair
      exact hfair
    · rw [hrun] at hfair
      exact ⟨hmanaged ▸ hfair.1, hfair.2.1, hfair.2.2.1⟩
  · rw [← hmanaged, ← hkeeps.count]
    exact hkeeps.tracks.contiguous count alignment

def threeFrames : PhysFrameRange := ⟨⟨2⟩, 3, by decide⟩

def twoPages : Alignment := ⟨8192, 13, by decide, rfl⟩

def threeFree : BitmapFrameAllocator :=
  BitmapFrameAllocator.setRun
    { base := threeFrames.start, count := 3, bits := fun _ => BitVec.allOnes 64
      freeCount := 3, count_le := by decide, end_le := threeFrames.end_le } 0 3 false

theorem run_reserve_sound_taken :
    let s := run ⟨threeFree, ∅⟩ [.allocate]
    s.out = {2} ∧ s.allocator.freeCount = (threeFrames.numbers \ s.out).card ∧
      (s.allocator.allocateContiguous 1 twoPages).1.toOption.map (·.start) = some ⟨4⟩ ∧
      ((s.allocator.allocateContiguous 3 twoPages).1 = .error .outOfFrames ↔
        0 < 3 ∧ 3 ≤ threeFrames.count ∧
        ∀ f, ¬ FreeRun threeFrames.numbers s.out 3 twoPages f) := by
  obtain ⟨hfree, -, hcontiguous⟩ := run_reserve_sound threeFrames threeFree rfl [.allocate]
  refine ⟨by decide +kernel, hfree, by decide +kernel, (hcontiguous 3 twoPages).2.1⟩

/-- A run longer than the range does not exist, and the answer is another error. -/
theorem long_run_invalid_count :
    ¬ ∀ (range : PhysFrameRange) (a : BitmapFrameAllocator), new range = .ok a →
      ∀ (calls : List FrameCall) (count : Nat) (alignment : Alignment),
        let s := run ⟨a, ∅⟩ calls
        (s.allocator.allocateContiguous count alignment).1 = .error .outOfFrames ↔
          ∀ f, ¬ FreeRun range.numbers s.out count alignment f := by
  intro h
  have hnone : ∀ f, ¬ FreeRun threeFrames.numbers ∅ 4 twoPages f := by
    intro f hf
    have hfirst := (hf.2 0 (by decide)).1
    have hlast := (hf.2 3 (by decide)).1
    have hnumbers : threeFrames.numbers = Ico 2 5 := rfl
    rw [hnumbers, mem_Ico] at hfirst hlast
    omega
  have herror := (h threeFrames threeFree rfl [] 4 twoPages).mpr hnone
  cases herror

end Reserve

end Audhsos
