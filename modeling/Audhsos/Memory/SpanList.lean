import Mathlib.Tactic.Common
import Audhsos.Memory.Region

/-!
Lists of spans of frame numbers in one fixed array. The loops move spans in place; what each does is
said slot by slot, and what it means as the set of the frame numbers in the spans.
-/

namespace Audhsos

inductive AddressError where
  | overflow
  | unaligned (address alignment : Nat)
deriving DecidableEq, Repr

inductive MapError where
  | tooManyRegions
  | noUsableMemory
  | reserveDoesNotFit
  | address (error : AddressError)
deriving DecidableEq, Repr

def maxBootRegions : Nat := 128

structure Span where
  start : Nat
  stop : Nat
deriving DecidableEq, Repr

namespace Span

variable (span : Span)

def isEmpty : Bool := span.stop ≤ span.start

def frames : Nat := span.stop - span.start

def Has (n : Nat) : Prop := span.start ≤ n ∧ n < span.stop

end Span

/-- Spans in the first `len` slots of an array. -/
structure SpanList where
  items : Nat → Span
  len : Nat
  len_le : len ≤ maxBootRegions

namespace SpanList

variable {l l' : SpanList} {index position i n : Nat} {span cut : Span} {l₁ : SpanList}

/-! ## The list -/

def empty : SpanList := ⟨fun _ => ⟨0, 0⟩, 0, Nat.zero_le _⟩

variable (l)

def asSlice : List Span := (List.range l.len).map l.items

variable (index)

def get : Option Span :=
  if index < l.len then some (l.items index) else none

/-- Writes one slot; an index outside the array changes nothing. -/
def put (span : Span) : SpanList :=
  if index < maxBootRegions then
    { l with items := fun i => if i = index then span else l.items i }
  else l

def push (span : Span) : Except MapError SpanList :=
  if h : l.len < maxBootRegions then
    .ok ⟨fun i => if i = l.len then span else l.items i, l.len + 1, h⟩
  else .error .tooManyRegions

/-- Moves the spans between `index` and `position` up by one slot, the last one first. -/
def shiftUp (l : SpanList) (index : Nat) : Nat → SpanList
  | 0 => l
  | position + 1 =>
    if index < position + 1 then
      shiftUp (l.put (position + 1) ((l.get position).getD ⟨0, 0⟩)) index position
    else l

def insert (span : Span) : Except MapError SpanList :=
  if h : maxBootRegions ≤ l.len ∨ l.len < index then .error .tooManyRegions
  else
    .ok { (l.shiftUp index l.len).put index span with len := l.len + 1, len_le := by omega }

/-- Moves the spans behind `position` down by one slot, the first one first. -/
def shiftDown (l : SpanList) : Nat → Nat → SpanList
  | 0, _ => l
  | steps + 1, position =>
    if position + 1 < l.len then
      shiftDown (l.put position ((l.get (position + 1)).getD ⟨0, 0⟩)) steps (position + 1)
    else l

def remove : SpanList :=
  if l.len ≤ index then l
  else
    { l.shiftDown l.len index with
      len := l.len - 1, len_le := le_trans (Nat.sub_le _ _) l.len_le }

variable {index}

/-- Swaps the span at the position down as long as the one before it starts later. -/
def sink (l : SpanList) : Nat → SpanList
  | 0 => l
  | previous + 1 =>
    match l.get previous, l.get (previous + 1) with
    | some left, some right =>
      if right.start < left.start then
        sink ((l.put previous right).put (previous + 1) left) previous
      else l
    | _, _ => l

def sortLoop (l : SpanList) : Nat → Nat → SpanList
  | 0, _ => l
  | steps + 1, index => if index < l.len then sortLoop (l.sink index) steps (index + 1) else l

/-- Joins neighbours that overlap or touch; empty spans are dropped. -/
def mergeLoop (l : SpanList) : Nat → Nat → SpanList
  | 0, _ => l
  | steps + 1, index =>
    match l.get index with
    | none => l
    | some current =>
      if current.isEmpty then mergeLoop (l.remove index) steps index
      else
        match l.get (index + 1) with
        | some next =>
          if next.start ≤ current.stop then
            mergeLoop ((l.put index ⟨current.start, max current.stop next.stop⟩).remove (index + 1))
              steps index
          else mergeLoop l steps (index + 1)
        | none => mergeLoop l steps (index + 1)

def sortAndMerge : SpanList :=
  let sorted := l.sortLoop l.len 1
  sorted.mergeLoop sorted.len 0

def subtractLoop (l : SpanList) (cut : Span) : Nat → Nat → Except MapError SpanList
  | 0, _ => .ok l
  | steps + 1, index =>
    match l.get index with
    | none => .ok l
    | some current =>
      if current.stop ≤ cut.start ∨ cut.stop ≤ current.start then
        subtractLoop l cut steps (index + 1)
      else if cut.start ≤ current.start ∧ current.stop ≤ cut.stop then
        subtractLoop (l.remove index) cut steps index
      else if cut.start ≤ current.start then
        subtractLoop (l.put index ⟨cut.stop, current.stop⟩) cut steps (index + 1)
      else if current.stop ≤ cut.stop then
        subtractLoop (l.put index ⟨current.start, cut.start⟩) cut steps (index + 1)
      else
        match (l.put index ⟨current.start, cut.start⟩).insert (index + 1)
          ⟨cut.stop, current.stop⟩ with
        | .ok l => subtractLoop l cut steps (index + 2)
        | .error error => .error error

/-- Takes the frames of `cut` out. -/
def subtract (cut : Span) : Except MapError SpanList :=
  if cut.isEmpty then .ok l else l.subtractLoop cut l.len 0

variable {l}

/-! ## Slots -/

theorem get_of_lt (h : i < l.len) : l.get i = some (l.items i) := if_pos h

theorem get_of_le (h : l.len ≤ i) : l.get i = none := if_neg (Nat.not_lt_of_le h)

variable (l)

theorem put_len (index : Nat) (span : Span) : (l.put index span).len = l.len := by
  unfold put
  split <;> rfl

theorem put_items (h : index < maxBootRegions) (span : Span) (i : Nat) :
    (l.put index span).items i = if i = index then span else l.items i := by
  unfold put
  rw [if_pos h]

/-- Induction on the position: the slots above it are done. -/
theorem shiftUp_items (index position : Nat) (hlen : position ≤ l.len)
    (hroom : position < maxBootRegions) (i : Nat) :
    (l.shiftUp index position).items i =
      if index < i ∧ i ≤ position then l.items (i - 1) else l.items i := by
  induction position generalizing l with
  | zero =>
    rw [if_neg (by omega)]
    rfl
  | succ position ih =>
    unfold shiftUp
    split
    next hindex =>
      rw [get_of_lt (by omega), ih _ (by rw [put_len]; omega) (by omega), put_items _ hroom,
        put_items _ hroom, Option.getD_some]
      by_cases hin : index < i ∧ i ≤ position
      · rw [if_pos hin, if_neg (by omega), if_pos (by omega)]
      rw [if_neg hin]
      by_cases hlast : i = position + 1
      · rw [if_pos hlast, if_pos (by omega), hlast]
        rfl
      · rw [if_neg hlast, if_neg (by omega)]
    next hindex => rw [if_neg (by omega)]

/-- Induction on the steps: the slots below the position are done. -/
theorem shiftDown_items (steps position : Nat) (hsteps : l.len ≤ position + steps) (i : Nat) :
    (l.shiftDown steps position).items i =
      if position ≤ i ∧ i + 1 < l.len then l.items (i + 1) else l.items i := by
  have hle := l.len_le
  induction steps generalizing l position with
  | zero =>
    rw [if_neg (by omega)]
    rfl
  | succ steps ih =>
    unfold shiftDown
    split
    next hmore =>
      rw [get_of_lt hmore, ih _ _ (by rw [put_len]; omega) (by rw [put_len]; exact hle), put_len,
        put_items _ (by omega), put_items _ (by omega), Option.getD_some]
      by_cases hin : position + 1 ≤ i ∧ i + 1 < l.len
      · rw [if_pos hin, if_neg (by omega), if_pos (by omega)]
      · rw [if_neg hin]
        by_cases hfirst : i = position
        · rw [if_pos hfirst, if_pos (by omega), hfirst]
        · rw [if_neg hfirst, if_neg (by omega)]
    next hmore => rw [if_neg (by omega)]

variable {l}

theorem remove_len (h : index < l.len) : (l.remove index).len = l.len - 1 := by
  unfold remove
  rw [if_neg (by omega)]

theorem remove_items (h : index < l.len) (hi : i + 1 < l.len) :
    (l.remove index).items i = if i < index then l.items i else l.items (i + 1) := by
  unfold remove
  rw [if_neg (by omega)]
  dsimp only
  rw [shiftDown_items l l.len index (by omega)]
  by_cases hlt : i < index
  · rw [if_pos hlt, if_neg (by omega)]
  · rw [if_neg hlt, if_pos (by omega)]

theorem insert_spec (h : l.insert index span = .ok l') :
    l'.len = l.len + 1 ∧ index ≤ l.len ∧ ∀ i ≤ l.len, l'.items i =
      if i < index then l.items i else if i = index then span else l.items (i - 1) := by
  unfold insert at h
  split at h
  · cases h
  next hvalid =>
    cases h
    refine ⟨rfl, by omega, fun i hi => ?_⟩
    dsimp only
    rw [put_items _ (by omega), shiftUp_items l index l.len (le_rfl) (by omega)]
    by_cases heq : i = index
    · rw [if_pos heq, if_neg (by omega), if_pos heq]
    · rw [if_neg heq, if_neg heq]
      by_cases hlt : i < index
      · rw [if_pos hlt, if_neg (by omega)]
      · rw [if_neg hlt, if_pos (by omega)]

/-! ## Frames -/

def Mem (l : SpanList) (n : Nat) : Prop := ∃ i < l.len, (l.items i).Has n

def Others (l : SpanList) (index n : Nat) : Prop := ∃ i < l.len, i ≠ index ∧ (l.items i).Has n

theorem mem_split (h : index < l.len) : l.Mem n ↔ (l.items index).Has n ∨ l.Others index n := by
  constructor
  · rintro ⟨i, hi, hhas⟩
    by_cases heq : i = index
    · exact .inl (heq ▸ hhas)
    · exact .inr ⟨i, hi, heq, hhas⟩
  · rintro (hhas | ⟨i, hi, -, hhas⟩)
    · exact ⟨index, h, hhas⟩
    · exact ⟨i, hi, hhas⟩

theorem mem_put (h : index < l.len) : (l.put index span).Mem n ↔ span.Has n ∨ l.Others index n := by
  have hroom := l.len_le
  rw [mem_split (by rwa [put_len]), put_items _ (by omega), if_pos rfl]
  refine or_congr Iff.rfl ?_
  unfold Others
  rw [put_len]
  refine exists_congr fun i => and_congr_right fun hi => and_congr_right fun hne => ?_
  rw [put_items _ (by omega), if_neg hne]

theorem mem_remove (h : index < l.len) : (l.remove index).Mem n ↔ l.Others index n := by
  unfold Mem Others
  rw [remove_len h]
  constructor
  · rintro ⟨i, hi, hhas⟩
    rw [remove_items h (by omega)] at hhas
    split at hhas
    · exact ⟨i, by omega, by omega, hhas⟩
    · exact ⟨i + 1, by omega, by omega, hhas⟩
  · rintro ⟨i, hi, hne, hhas⟩
    by_cases hlt : i < index
    · refine ⟨i, by omega, ?_⟩
      rwa [remove_items h (by omega), if_pos hlt]
    · refine ⟨i - 1, by omega, ?_⟩
      rwa [remove_items h (by omega), if_neg (by omega), show i - 1 + 1 = i by omega]

theorem mem_insert (h : l.insert index span = .ok l') : l'.Mem n ↔ span.Has n ∨ l.Mem n := by
  obtain ⟨hlen, hindex, hitems⟩ := insert_spec h
  constructor
  · rintro ⟨i, hi, hhas⟩
    rw [hitems i (by omega)] at hhas
    split at hhas
    · exact .inr ⟨i, by omega, hhas⟩
    split at hhas
    · exact .inl hhas
    · exact .inr ⟨i - 1, by omega, hhas⟩
  · rintro (hhas | ⟨i, hi, hhas⟩)
    · refine ⟨index, by omega, ?_⟩
      rwa [hitems index hindex, if_neg (by omega), if_pos rfl]
    by_cases hlt : i < index
    · refine ⟨i, by omega, ?_⟩
      rwa [hitems i (by omega), if_pos hlt]
    · refine ⟨i + 1, by omega, ?_⟩
      rwa [hitems (i + 1) (by omega), if_neg (by omega), if_neg (by omega), Nat.add_sub_cancel]

/-! ## Sorting -/

def SortedTo (l : SpanList) (k : Nat) : Prop :=
  ∀ i j, i < j → j < k → (l.items i).start ≤ (l.items j).start

/-- Two lists hold the same frames in as many spans. -/
def Rearranges (l l' : SpanList) : Prop := l'.len = l.len ∧ ∀ n, l'.Mem n ↔ l.Mem n

theorem Rearranges.trans {l'' : SpanList} (h : Rearranges l l') (h' : Rearranges l' l'') :
    Rearranges l l'' :=
  ⟨h'.1.trans h.1, fun n => (h'.2 n).trans (h.2 n)⟩

variable (l)

def swap (position : Nat) : SpanList :=
  (l.put position (l.items (position + 1))).put (position + 1) (l.items position)

theorem swap_items (h : position + 1 < l.len) (i : Nat) :
    (l.swap position).items i = if i = position + 1 then l.items position
      else if i = position then l.items (position + 1) else l.items i := by
  have hroom := l.len_le
  unfold swap
  rw [put_items _ (by omega), put_items _ (by omega)]

theorem rearranges_swap (h : position + 1 < l.len) : Rearranges l (l.swap position) := by
  have hlen : (l.swap position).len = l.len := by
    unfold swap
    rw [put_len, put_len]
  refine ⟨hlen, fun n => ?_⟩
  constructor
  · rintro ⟨i, hi, hhas⟩
    rw [hlen] at hi
    rw [swap_items l h] at hhas
    split at hhas
    · exact ⟨position, by omega, hhas⟩
    split at hhas
    · exact ⟨position + 1, h, hhas⟩
    · exact ⟨i, hi, hhas⟩
  · rintro ⟨i, hi, hhas⟩
    by_cases hfirst : i = position
    · refine ⟨position + 1, by omega, ?_⟩
      rwa [swap_items l h, if_pos rfl, ← hfirst]
    by_cases hsecond : i = position + 1
    · refine ⟨position, by omega, ?_⟩
      rwa [swap_items l h, if_neg (by omega), if_pos rfl, ← hsecond]
    · refine ⟨i, by omega, ?_⟩
      rwa [swap_items l h, if_neg hsecond, if_neg hfirst]

/-- Up to `k`, the spans are sorted but for the one at the position, which may start too early. -/
def SortedBut (position k : Nat) : Prop :=
  ∀ i j, i < j → j < k → j ≠ position → (l.items i).start ≤ (l.items j).start

/-- Induction on the position, which holds the only span that may start too early. -/
theorem sink_spec (position k : Nat) (hposition : position < k) (hk : k ≤ l.len)
    (hsorted : l.SortedBut position k) :
    Rearranges l (l.sink position) ∧ (l.sink position).SortedTo k := by
  induction position generalizing l with
  | zero => exact ⟨⟨rfl, fun _ => Iff.rfl⟩, fun i j hij hj => hsorted i j hij hj (by omega)⟩
  | succ previous ih =>
    unfold sink
    rw [get_of_lt (by omega), get_of_lt (by omega)]
    dsimp only
    split
    next hearly =>
      have hswap : Rearranges l (l.swap previous) := rearranges_swap l (by omega)
      have hnext := ih (l.swap previous) (by omega) (by rw [hswap.1]; omega) ?_
      · exact ⟨hswap.trans hnext.1, hnext.2⟩
      · intro i j hij hj hne
        rw [swap_items l (by omega), swap_items l (by omega)]
        by_cases hlast : j = previous + 1
        · rw [if_pos hlast, if_neg (by omega)]
          split
          · omega
          · exact hsorted i previous (by omega) (by omega) (by omega)
        · rw [if_neg hlast, if_neg hne]
          split
          · exact hsorted previous j (by omega) hj hlast
          split
          · exact hsorted (previous + 1) j (by omega) hj hlast
          · exact hsorted i j hij hj hlast
    next hlate =>
      refine ⟨⟨rfl, fun _ => Iff.rfl⟩, fun i j hij hj => ?_⟩
      by_cases hlast : j = previous + 1
      · subst hlast
        by_cases hprevious : i = previous
        · subst hprevious
          omega
        · have hbefore := hsorted i previous (by omega) (by omega) (by omega)
          omega
      · exact hsorted i j hij hj hlast

theorem sortLoop_spec (steps index : Nat) (hsteps : l.len ≤ index + steps)
    (hsorted : l.SortedTo index) :
    Rearranges l (l.sortLoop steps index) ∧ (l.sortLoop steps index).SortedTo l.len := by
  induction steps generalizing l index with
  | zero => exact ⟨⟨rfl, fun _ => Iff.rfl⟩, fun i j hij hj => hsorted i j hij (by omega)⟩
  | succ steps ih =>
    unfold sortLoop
    split
    next hmore =>
      obtain ⟨hsame, hsunk⟩ := sink_spec l index (index + 1) (by omega) (by omega)
        fun i j hij hj hne => hsorted i j hij (by omega)
      have hrest := ih (l.sink index) (index + 1) (by rw [hsame.1]; omega) hsunk
      rw [hsame.1] at hrest
      exact ⟨hsame.trans hrest.1, hrest.2⟩
    next hmore => exact ⟨⟨rfl, fun _ => Iff.rfl⟩, fun i j hij hj => hsorted i j hij (by omega)⟩

/-! ## Merging -/

/-- The first `index` spans hold frames, and each of them ends before the next one starts. -/
def Parted (index : Nat) : Prop :=
  ∀ i < index, (l.items i).start < (l.items i).stop ∧
    (i + 1 < l.len → (l.items i).stop < (l.items (i + 1)).start)

variable {l}

theorem sorted_remove (h : index < l.len) (hsorted : l.SortedTo l.len) :
    (l.remove index).SortedTo (l.remove index).len := by
  rw [remove_len h]
  intro i j hij hj
  rw [remove_items h (by omega), remove_items h (by omega)]
  split
  · split
    · exact hsorted i j hij (by omega)
    · exact hsorted i (j + 1) (by omega) (by omega)
  · rw [if_neg (by omega)]
    exact hsorted (i + 1) (j + 1) (by omega) (by omega)

theorem parted_remove {k : Nat} (hk : k < l.len) (hle : index ≤ k) (hsorted : l.SortedTo l.len)
    (hparted : l.Parted index) : (l.remove k).Parted index := by
  intro i hi
  obtain ⟨hfull, hnext⟩ := hparted i hi
  rw [remove_len hk, remove_items hk (by omega), if_pos (by omega)]
  refine ⟨hfull, fun hmore => ?_⟩
  rw [remove_items hk (by omega)]
  have hbefore := hnext (by omega)
  split
  · exact hbefore
  · have hlater := hsorted (i + 1) (i + 1 + 1) (by omega) (by omega)
    omega

theorem sorted_put (h : index < l.len) (span : Span) (hstart : span.start = (l.items index).start)
    (hsorted : l.SortedTo l.len) : (l.put index span).SortedTo (l.put index span).len := by
  have hroom := l.len_le
  have hsame : ∀ i, ((l.put index span).items i).start = (l.items i).start := by
    intro i
    rw [put_items _ (by omega)]
    split
    next heq => rw [heq, hstart]
    · rfl
  intro i j hij hj
  rw [hsame, hsame]
  exact hsorted i j hij (by rwa [put_len] at hj)

theorem parted_put (h : index < l.len) (hstart : span.start = (l.items index).start)
    (hparted : l.Parted index) : (l.put index span).Parted index := by
  have hroom := l.len_le
  intro i hi
  obtain ⟨hfull, hnext⟩ := hparted i hi
  rw [put_len, put_items _ (by omega), put_items _ (by omega), if_neg (by omega)]
  refine ⟨hfull, fun hmore => ?_⟩
  have hbefore := hnext hmore
  split
  next heq => rwa [hstart, ← heq]
  · exact hbefore

theorem mem_join (h : index + 1 < l.len)
    (hstart : (l.items index).start ≤ (l.items (index + 1)).start)
    (htouch : (l.items (index + 1)).start ≤ (l.items index).stop) :
    ((l.put index ⟨(l.items index).start,
      max (l.items index).stop (l.items (index + 1)).stop⟩).remove (index + 1)).Mem n ↔
      l.Mem n := by
  have hroom := l.len_le
  rw [mem_remove (by rwa [put_len]), mem_split h]
  unfold Others
  rw [put_len]
  have hjoined : Span.Has ⟨(l.items index).start,
      max (l.items index).stop (l.items (index + 1)).stop⟩ n ↔
      (l.items index).Has n ∨ (l.items (index + 1)).Has n := by
    unfold Span.Has
    dsimp only
    omega
  constructor
  · rintro ⟨i, hi, hne, hhas⟩
    rw [put_items _ (by omega)] at hhas
    split at hhas
    · rcases hjoined.mp hhas with hfirst | hsecond
      · exact .inr ⟨index, by omega, by omega, hfirst⟩
      · exact .inl hsecond
    · exact .inr ⟨i, hi, hne, hhas⟩
  · rintro (hsecond | ⟨i, hi, hne, hhas⟩)
    · refine ⟨index, by omega, by omega, ?_⟩
      rw [put_items _ (by omega), if_pos rfl]
      exact hjoined.mpr (.inr hsecond)
    · refine ⟨i, hi, hne, ?_⟩
      rw [put_items _ (by omega)]
      split
      next heq => exact hjoined.mpr (.inl (heq ▸ hhas))
      · exact hhas

variable (l)

/-- Induction on the steps: the spans below the index are parted, and each step moves the index
on or shortens the list. -/
theorem mergeLoop_spec (steps index : Nat) (hsteps : l.len ≤ index + steps)
    (hsorted : l.SortedTo l.len) (hparted : l.Parted index) :
    (∀ n, (l.mergeLoop steps index).Mem n ↔ l.Mem n) ∧
    (l.mergeLoop steps index).Parted (l.mergeLoop steps index).len := by
  induction steps generalizing l index with
  | zero =>
    refine ⟨fun _ => Iff.rfl, fun i hi => hparted i ?_⟩
    change i < l.len at hi
    omega
  | succ steps ih =>
    unfold mergeLoop
    by_cases hmore : index < l.len
    · rw [get_of_lt hmore]
      dsimp only
      split
      next hempty =>
        have hrest := ih (l.remove index) index (by rw [remove_len hmore]; omega)
          (sorted_remove hmore hsorted) (parted_remove hmore (le_rfl) hsorted hparted)
        refine ⟨fun n => (hrest.1 n).trans ?_, hrest.2⟩
        have hnone : ¬ (l.items index).Has n := by
          unfold Span.isEmpty at hempty
          rw [decide_eq_true_eq] at hempty
          unfold Span.Has
          omega
        rw [mem_remove hmore, mem_split hmore]
        exact (or_iff_right hnone).symm
      next hempty =>
      have hfull : (l.items index).start < (l.items index).stop := by
        unfold Span.isEmpty at hempty
        simpa using hempty
      by_cases hnext : index + 1 < l.len
      · rw [get_of_lt hnext]
        dsimp only
        split
        next htouch =>
          have hstart := hsorted index (index + 1) (by omega) hnext
          have hlen := put_len l index ⟨(l.items index).start,
            max (l.items index).stop (l.items (index + 1)).stop⟩
          have hput := sorted_put hmore ⟨(l.items index).start,
            max (l.items index).stop (l.items (index + 1)).stop⟩ rfl hsorted
          have hrest := ih _ index (by rw [remove_len (by omega), hlen]; omega)
            (sorted_remove (by omega) hput)
            (parted_remove (by omega) (Nat.le_succ _) hput (parted_put hmore rfl hparted))
          exact ⟨fun n => (hrest.1 n).trans (mem_join hnext hstart htouch), hrest.2⟩
        next htouch =>
          refine ih l (index + 1) (by omega) hsorted fun i hi => ?_
          by_cases heq : i = index
          · rw [heq]
            exact ⟨hfull, fun _ => by omega⟩
          · exact hparted i (by omega)
      · rw [get_of_le (by omega)]
        refine ih l (index + 1) (by omega) hsorted fun i hi => ?_
        by_cases heq : i = index
        · rw [heq]
          exact ⟨hfull, fun hlater => absurd hlater hnext⟩
        · exact hparted i (by omega)
    · rw [get_of_le (by omega)]
      refine ⟨fun _ => Iff.rfl, fun i hi => hparted i ?_⟩
      change i < l.len at hi
      omega

theorem sortAndMerge_spec :
    (∀ n, l.sortAndMerge.Mem n ↔ l.Mem n) ∧ l.sortAndMerge.Parted l.sortAndMerge.len := by
  obtain ⟨hsame, hsorted⟩ := sortLoop_spec l l.len 1 (by omega) (by intro i j hij hj; omega)
  obtain ⟨hmem, hparted⟩ := mergeLoop_spec (l.sortLoop l.len 1) (l.sortLoop l.len 1).len 0
    (by omega) (by rwa [hsame.1]) (by intro i hi; omega)
  exact ⟨fun n => (hmem n).trans (hsame.2 n), hparted⟩

/-! ## Subtracting -/

/-- The first `index` spans hold no frame of the cut. -/
def ClearTo (cut : Span) (index : Nat) : Prop :=
  ∀ i < index, ∀ n, cut.Has n → ¬ (l.items i).Has n

/-- Nothing but the frames of the cut is gone. -/
def Cuts (cut : Span) (l' : SpanList) : Prop :=
  ∀ n, l'.Mem n ↔ l.Mem n ∧ ¬ cut.Has n

variable {l}

theorem clear_put (h : index < l.len) (hclear : l.ClearTo cut index)
    (hspan : ∀ n, cut.Has n → ¬ span.Has n) : (l.put index span).ClearTo cut (index + 1) := by
  have hroom := l.len_le
  intro i hi n hn
  rw [put_items _ (by omega)]
  split
  · exact hspan n hn
  · exact hclear i (by omega) n hn

theorem Cuts.after (h : l₁.Cuts cut l')
    (hstep : ∀ n, ¬ cut.Has n → (l₁.Mem n ↔ l.Mem n)) : l.Cuts cut l' := by
  intro n
  rw [h n]
  exact and_congr_left fun hn => hstep n hn

theorem mem_trim (h : index < l.len)
    (hspan : ∀ n, ¬ cut.Has n → (span.Has n ↔ (l.items index).Has n)) :
    ∀ n, ¬ cut.Has n → ((l.put index span).Mem n ↔ l.Mem n) := by
  intro n hn
  rw [mem_put h, mem_split h, hspan n hn]

theorem insert_rest (h : index < l.len) (hclear : l.ClearTo cut index)
    (hmeets : cut.start < (l.items index).stop ∧ (l.items index).start < cut.stop)
    (hinsert : (l.put index ⟨(l.items index).start, cut.start⟩).insert (index + 1)
      ⟨cut.stop, (l.items index).stop⟩ = .ok l₁) :
    l₁.len = l.len + 1 ∧ l₁.ClearTo cut (index + 2) ∧
      ∀ n, ¬ cut.Has n → (l₁.Mem n ↔ l.Mem n) := by
  obtain ⟨hlen, -, hitems⟩ := insert_spec hinsert
  rw [put_len] at hlen hitems
  have hput : (l.put index ⟨(l.items index).start, cut.start⟩).ClearTo cut (index + 1) := by
    refine clear_put h hclear fun n hn => ?_
    unfold Span.Has at hn ⊢
    dsimp only
    omega
  refine ⟨hlen, fun i hi n hn => ?_, fun n hn => ?_⟩
  · rw [hitems i (by omega)]
    split
    · exact hput i (by omega) n hn
    · rw [if_pos (by omega)]
      unfold Span.Has at hn ⊢
      dsimp only
      omega
  · rw [mem_insert hinsert, mem_put h, mem_split h, ← or_assoc]
    refine or_congr ?_ Iff.rfl
    unfold Span.Has at hn ⊢
    dsimp only
    omega

/-- Induction on the steps: the spans below the index hold nothing of the cut. -/
theorem subtractLoop_spec (l : SpanList) (steps index : Nat)
    (h : l.subtractLoop cut steps index = .ok l') (hsteps : l.len ≤ index + steps)
    (hclear : l.ClearTo cut index) : l.Cuts cut l' := by
  have hdone : ∀ l : SpanList, l.ClearTo cut l.len → l.Cuts cut l := by
    intro l hclear n
    refine ⟨fun hmem => ⟨hmem, fun hn => ?_⟩, And.left⟩
    obtain ⟨i, hi, hhas⟩ := hmem
    exact hclear i hi n hn hhas
  induction steps generalizing l index with
  | zero =>
    cases h
    exact hdone _ fun i hi => hclear i (by omega)
  | succ steps ih =>
    unfold subtractLoop at h
    by_cases hmore : index < l.len
    · rw [get_of_lt hmore] at h
      dsimp only at h
      split at h
      next hapart =>
        refine ih l (index + 1) h (by omega) fun i hi n hn => ?_
        by_cases heq : i = index
        · rw [heq]
          unfold Span.Has at hn ⊢
          omega
        · exact hclear i (by omega) n hn
      next hmeets =>
      split at h
      next hinside =>
        refine (ih (l.remove index) index h (by rw [remove_len hmore]; omega)
          fun i hi n hn => ?_).after fun n hn => ?_
        · rw [remove_items hmore (by omega), if_pos hi]
          exact hclear i hi n hn
        · rw [mem_remove hmore, mem_split hmore]
          refine (or_iff_right ?_).symm
          unfold Span.Has at hn ⊢
          omega
      next houtside =>
      split at h
      next hfront =>
        refine (ih _ (index + 1) h (by rw [put_len]; omega)
          (clear_put hmore hclear fun n hn => ?_)).after (mem_trim hmore fun n hn => ?_)
        all_goals
          unfold Span.Has at hn ⊢
          dsimp only
          omega
      next hfront =>
      split at h
      next hback =>
        refine (ih _ (index + 1) h (by rw [put_len]; omega)
          (clear_put hmore hclear fun n hn => ?_)).after (mem_trim hmore fun n hn => ?_)
        all_goals
          unfold Span.Has at hn ⊢
          dsimp only
          omega
      next hback =>
        -- the cut lies inside the span
        cases hinsert : (l.put index ⟨(l.items index).start, cut.start⟩).insert (index + 1)
            ⟨cut.stop, (l.items index).stop⟩ with
        | error error =>
          rw [hinsert] at h
          cases h
        | ok l₁ =>
          rw [hinsert] at h
          obtain ⟨hlen, hclear₁, hmem⟩ := insert_rest hmore hclear (by omega) hinsert
          exact (ih l₁ (index + 2) h (by omega) hclear₁).after hmem
    · rw [get_of_le (by omega)] at h
      cases h
      exact hdone _ fun i hi => hclear i (by omega)

theorem subtract_spec (h : l.subtract cut = .ok l') : l.Cuts cut l' := by
  unfold subtract at h
  split at h
  next hempty =>
    cases h
    intro n
    refine ⟨fun hmem => ⟨hmem, fun hn => ?_⟩, And.left⟩
    unfold Span.isEmpty at hempty
    rw [decide_eq_true_eq] at hempty
    unfold Span.Has at hn
    omega
  · exact subtractLoop_spec l l.len 0 h (by omega) fun i hi => by omega

end SpanList

end Audhsos
