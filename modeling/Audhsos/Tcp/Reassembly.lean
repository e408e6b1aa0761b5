import Audhsos.Tcp.SendRing

/-!
The receive buffer over any sequence of calls. A place of the window is held when it lies in the run
or in a remembered range; `accept` holds what it held and what it was given, or forgets the latter.
The bytes are written before anything is looked at, also over bytes that are held.
-/

namespace Audhsos.Tcp

open List Sublist

namespace RecvBuffer

variable {buffer : RecvBuffer} {early : List Extent} {low high offset i : Nat} {data : List Byte}

/-! ## Ranges -/

/-- The place lies in one of the ranges. -/
def Covered (early : List Extent) (i : Nat) : Prop := ∃ e ∈ early, e.start ≤ i ∧ i < e.stop

theorem covered_cons (e : Extent) (early : List Extent) (i : Nat) :
    Covered (e :: early) i ↔ (e.start ≤ i ∧ i < e.stop) ∨ Covered early i := by
  simp [Covered]

theorem covered_append (front back : List Extent) (i : Nat) :
    Covered (front ++ back) i ↔ Covered front i ∨ Covered back i := by
  simp [Covered, or_and_right, exists_or]

/-- Sorted ranges that do not touch each other. -/
def Apart (early : List Extent) : Prop :=
  early.Pairwise (fun a b => a.stop < b.start) ∧ ∀ e ∈ early, e.start ≤ e.stop

theorem Apart.tail {e : Extent} (h : Apart (e :: early)) : Apart early :=
  ⟨(pairwise_cons.mp h.1).2, fun d hd => h.2 d (mem_cons_of_mem e hd)⟩

theorem Apart.head {e d : Extent} (h : Apart (e :: early)) (hd : d ∈ early) : e.stop < d.start :=
  (pairwise_cons.mp h.1).1 d hd

theorem merge_behind (h : ∀ e ∈ early, high < e.start) :
    merge low high early = (early, low, high) := by
  induction early with
  | nil => rfl
  | cons e rest ih =>
    unfold merge
    rw [if_pos (.inr (h e mem_cons_self)), ih fun d hd => h d (mem_cons_of_mem e hd)]

/-- What `merge` makes of a new range: the range with all that it touches, between the ranges
before and behind it. -/
structure Merged (early : List Extent) (low high : Nat) (before after : List Extent)
    (low' high' : Nat) : Prop where
  eq : merge low high early = (before ++ after, low', high')
  sublist : (before ++ after).Sublist early
  low_le : low' ≤ low
  le_high : high ≤ high'
  before_lt : ∀ e ∈ before, e.stop < low'
  lt_after : ∀ e ∈ after, high' < e.start
  above : ∀ b, b < low → (∀ e ∈ early, b < e.start) → b < low'
  below : ∀ t, high ≤ t → (∀ e ∈ early, e.stop ≤ t) → high' ≤ t
  covered : ∀ i, (low' ≤ i ∧ i < high') ∨ Covered (before ++ after) i ↔
    (low ≤ i ∧ i < high) ∨ Covered early i

theorem exists_merged (h : Apart early) (hle : low ≤ high) :
    ∃ before after low' high', Merged early low high before after low' high' := by
  induction early generalizing low high with
  | nil =>
    exact ⟨[], [], low, high, rfl, refl _, le_rfl, le_rfl, nofun, nofun,
      fun b hb _ => hb, fun t ht _ => ht, fun i => Iff.rfl⟩
  | cons e rest ih =>
    by_cases hbefore : e.stop < low
    · -- the range lies before the new one, and before all that is merged into it
      obtain ⟨before, after, low', high', hm⟩ := ih h.tail hle
      have habove : e.stop < low' := hm.above e.stop hbefore fun d hd => h.head hd
      refine ⟨e :: before, after, low', high', ?_, hm.sublist.cons_cons e, hm.low_le, hm.le_high,
        ?_, hm.lt_after, ?_, ?_, ?_⟩
      · unfold merge
        rw [if_pos (.inl hbefore), hm.eq]
        rfl
      · intro d hd
        rcases mem_cons.mp hd with rfl | hd
        · exact habove
        · exact hm.before_lt d hd
      · exact fun b hb hall => hm.above b hb fun d hd => hall d (mem_cons_of_mem e hd)
      · exact fun t ht hall => hm.below t ht fun d hd => hall d (mem_cons_of_mem e hd)
      · intro i
        rw [cons_append, covered_cons, covered_cons, or_left_comm, hm.covered i, or_left_comm]
    · by_cases hbehind : high < e.start
      · have hrest : ∀ d ∈ e :: rest, high < d.start := by
          intro d hd
          rcases mem_cons.mp hd with rfl | hd
          · exact hbehind
          · have hord := h.2 e mem_cons_self
            have hhead := h.head hd
            omega
        exact ⟨[], e :: rest, low, high, merge_behind hrest, refl _, le_rfl,
          le_rfl, nofun, hrest, fun b hb _ => hb, fun t ht _ => ht, fun i => Iff.rfl⟩
      · have hord := h.2 e mem_cons_self
        obtain ⟨before, after, low', high', hm⟩ :=
          @ih (min low e.start) (max high e.stop) h.tail (by omega)
        refine ⟨before, after, low', high', ?_, hm.sublist.cons e, ?_, ?_, hm.before_lt,
          hm.lt_after, ?_, ?_, ?_⟩
        · unfold merge
          rw [if_neg (by omega), hm.eq]
        · have hlow := hm.low_le
          omega
        · have hhigh := hm.le_high
          omega
        · intro b hb hall
          have he := hall e mem_cons_self
          exact hm.above b (by omega) fun d hd => hall d (mem_cons_of_mem e hd)
        · intro t ht hall
          have he := hall e mem_cons_self
          exact hm.below t (by omega) fun d hd => hall d (mem_cons_of_mem e hd)
        · -- the two ranges touch, so together they are the range from the lower to the higher end
          intro i
          have hunion : (min low e.start ≤ i ∧ i < max high e.stop) ↔
              (low ≤ i ∧ i < high) ∨ (e.start ≤ i ∧ i < e.stop) := by omega
          rw [hm.covered i, covered_cons, hunion, or_assoc]

section

variable {before after : List Extent} {low' high' : Nat}

theorem Merged.le
    (hm : Merged early low high before after low' high') (hle : low ≤ high) : low' ≤ high' :=
  le_trans hm.low_le (le_trans hle hm.le_high)

theorem Merged.mem {e : Extent} (hm : Merged early low high before after low' high')
    (he : e ∈ before ++ ⟨low', high'⟩ :: after) : e = ⟨low', high'⟩ ∨ e ∈ early := by
  rcases mem_append.mp he with he | he
  · exact .inr (hm.sublist.subset (mem_append_left _ he))
  · rcases mem_cons.mp he with rfl | he
    · exact .inl rfl
    · exact .inr (hm.sublist.subset (mem_append_right _ he))

section

variable (hm : Merged early low high before after low' high')
include hm

theorem Merged.apart (h : Apart early) (hle : low ≤ high) :
    Apart (before ++ ⟨low', high'⟩ :: after) := by
  have hapart := h.1.sublist hm.sublist
  refine ⟨?_, ?_⟩
  · rw [pairwise_append] at hapart ⊢
    refine ⟨hapart.1, pairwise_cons.mpr ⟨hm.lt_after, hapart.2.1⟩, ?_⟩
    intro a ha b hb
    rcases mem_cons.mp hb with rfl | hb
    · exact hm.before_lt a ha
    · exact hapart.2.2 a ha b hb
  · intro e he
    rcases hm.mem he with rfl | he
    · exact hm.le hle
    · exact h.2 e he

theorem Merged.covers (i : Nat) :
    Covered (before ++ ⟨low', high'⟩ :: after) i ↔
      (low ≤ i ∧ i < high) ∨ Covered early i := by
  rw [← hm.covered i, covered_append, covered_append, covered_cons, or_left_comm]

end

end

theorem remember_cases (h : Apart early) (hle : low ≤ high) (hlen : early.length ≤ maxHoles) :
    (∃ before after low' high', Merged early low high before after low' high' ∧
      remember early low high = before ++ ⟨low', high'⟩ :: after ∧
      (before ++ after).length < maxHoles) ∨
    remember early low high = early := by
  obtain ⟨before, after, low', high', hm⟩ := exists_merged h hle
  unfold remember
  rw [hm.eq]
  dsimp only
  by_cases hroom : (before ++ after).length < maxHoles
  · left
    refine ⟨before, after, low', high', hm, ?_, hroom⟩
    have hfront : ∀ e ∈ before, (!decide (low' < e.start)) = true := by
      intro e he
      have hmem : e ∈ early := hm.sublist.subset (mem_append_left after he)
      have hord := h.2 e hmem
      have hstop := hm.before_lt e he
      simp only [Bool.not_eq_true', decide_eq_false_iff_not]
      omega
    have hback : after.takeWhile (fun e => !decide (low' < e.start)) = [] ∧
        after.dropWhile (fun e => !decide (low' < e.start)) = after := by
      cases after with
      | nil => exact ⟨rfl, rfl⟩
      | cons e rest =>
        have hgt := hm.lt_after e mem_cons_self
        have hlh := hm.le hle
        have hfalse : (!decide (low' < e.start)) = false := by
          simp only [Bool.not_eq_false', decide_eq_true_eq]
          omega
        simp [hfalse]
    rw [if_pos hroom, takeWhile_append_of_pos hfront, dropWhile_append_of_pos hfront,
      hback.1, hback.2, append_nil]
  · right
    rw [if_neg hroom]
    exact hm.sublist.eq_of_length_le (by omega)

/-- What remembering a range makes of the list: ranges of the same kind, in the same bounds, that
cover what was covered, and nothing besides but the new range. -/
structure Remembered (early : List Extent) (low high : Nat) (early' : List Extent) : Prop where
  apart : Apart early'
  few : early'.length ≤ maxHoles
  above : ∀ b, b < low → (∀ e ∈ early, b < e.start) → ∀ e ∈ early', b < e.start
  below : ∀ t, high ≤ t → (∀ e ∈ early, e.stop ≤ t) → ∀ e ∈ early', e.stop ≤ t
  nonempty : low < high → (∀ e ∈ early, e.start < e.stop) → ∀ e ∈ early', e.start < e.stop
  keeps : ∀ i, Covered early i → Covered early' i
  covered : ∀ i, Covered early' i → (low ≤ i ∧ i < high) ∨ Covered early i

theorem remember_spec (h : Apart early) (hle : low ≤ high) (hlen : early.length ≤ maxHoles) :
    Remembered early low high (remember early low high) := by
  obtain ⟨before, after, low', high', hm, heq, hroom⟩ | heq := remember_cases h hle hlen <;>
    rw [heq]
  · refine ⟨hm.apart h hle, ?_, ?_, ?_, ?_, fun i hi => (hm.covers i).mpr (.inr hi),
      fun i hi => (hm.covers i).mp hi⟩
    · simp only [length_append, length_cons] at hroom ⊢
      omega
    · intro b hb hall e he
      rcases hm.mem he with rfl | he
      · exact hm.above b hb hall
      · exact hall e he
    · intro t ht hall e he
      rcases hm.mem he with rfl | he
      · exact hm.below t ht hall
      · exact hall e he
    · intro hlt hall e he
      rcases hm.mem he with rfl | he
      · exact lt_of_le_of_lt hm.low_le (lt_of_lt_of_le hlt hm.le_high)
      · exact hall e he
  · -- the list is full: the range is forgotten
    exact ⟨h, hlen, fun b _ hall => hall, fun t _ hall => hall, fun _ hall => hall,
      fun i hi => hi, fun i hi => .inr hi⟩

/-! ## The run -/

theorem absorb_spec (h : Apart early) (ready : Nat) :
    let after := absorb ready early
    ready ≤ after.1 ∧ after.2.Sublist early ∧ (∀ e ∈ after.2, after.1 < e.start) ∧
    (∀ t, ready ≤ t → (∀ e ∈ early, e.stop ≤ t) → after.1 ≤ t) ∧
    ∀ i, i < after.1 ∨ Covered after.2 i ↔ i < ready ∨ Covered early i := by
  induction early generalizing ready with
  | nil => exact ⟨le_rfl, refl _, nofun, fun t ht _ => ht, fun i => Iff.rfl⟩
  | cons e rest ih =>
    unfold absorb
    by_cases hgap : ready < e.start
    · rw [if_pos hgap]
      refine ⟨le_rfl, refl _, ?_, fun t ht _ => ht, fun i => Iff.rfl⟩
      intro d hd
      rcases mem_cons.mp hd with rfl | hd
      · exact hgap
      · have hord := h.2 e mem_cons_self
        have hhead := h.head hd
        dsimp only
        omega
    · rw [if_neg hgap]
      obtain ⟨hle, hsub, hgt, hbound, hheld⟩ := ih h.tail (max ready e.stop)
      refine ⟨by omega, hsub.cons e, hgt, ?_, ?_⟩
      · intro t ht hall
        have he := hall e mem_cons_self
        exact hbound t (by omega) fun d hd => hall d (mem_cons_of_mem e hd)
      · intro i
        have hgrown : i < max ready e.stop ↔ i < ready ∨ (e.start ≤ i ∧ i < e.stop) := by omega
        rw [hheld i, covered_cons, hgrown, or_assoc]

/-! ## The buffer -/

/-- The place holds a byte of the stream. -/
def Held (buffer : RecvBuffer) (i : Nat) : Prop := i < buffer.ready ∨ Covered buffer.early i

/-- The byte at a place, counted from the oldest one that was not read. -/
def byteAt (buffer : RecvBuffer) (i : Nat) : Byte :=
  buffer.ring.bytes (wrap (buffer.head + i) buffer.ring.capacity)

/-- The run inside the window, and sorted ranges behind it that touch neither it nor each other. -/
structure Shaped (buffer : RecvBuffer) : Prop where
  ready_le : buffer.ready ≤ buffer.ring.capacity
  apart : Apart buffer.early
  beyond : ∀ e ∈ buffer.early, buffer.ready < e.start
  inside : ∀ e ∈ buffer.early, e.stop ≤ buffer.ring.capacity
  few : buffer.early.length ≤ maxHoles

theorem shaped_new (ring : Ring) : (new ring).Shaped :=
  ⟨Nat.zero_le _, ⟨Pairwise.nil, nofun⟩, nofun, nofun, Nat.zero_le _⟩

theorem Shaped.held_lt (h : buffer.Shaped) (hi : buffer.Held i) : i < buffer.ring.capacity := by
  rcases hi with hi | ⟨e, he, -, hi⟩
  · exact lt_of_lt_of_le hi h.ready_le
  · exact lt_of_lt_of_le hi (h.inside e he)

variable (buffer)

def stopOf (offset : Nat) (data : List Byte) : Nat :=
  min (offset + data.length) buffer.ring.capacity

def written (offset : Nat) (data : List Byte) : RecvBuffer :=
  { buffer with
    ring := buffer.ring.write (wrap (buffer.head + offset) buffer.ring.capacity)
      (data.take (buffer.stopOf offset data - offset)) }

theorem capacity_written (offset : Nat) (data : List Byte) :
    (buffer.written offset data).ring.capacity = buffer.ring.capacity :=
  Ring.capacity_write _ _ _

variable {buffer}

/-- The bytes behind `written`: those of the data, and elsewhere the ones that were there. -/
theorem byteAt_written (hi : i < buffer.ring.capacity) :
    (buffer.written offset data).byteAt i =
      if offset ≤ i ∧ i < buffer.stopOf offset data then data.getD (i - offset) 0
      else buffer.byteAt i := by
  have hlen : (data.take (buffer.stopOf offset data - offset)).length =
      buffer.stopOf offset data - offset := by
    rw [length_take, Nat.min_eq_left]
    unfold stopOf
    omega
  have hstop : buffer.stopOf offset data ≤ buffer.ring.capacity := Nat.min_le_right _ _
  unfold byteAt
  rw [capacity_written]
  unfold written
  dsimp only
  split
  next hin =>
    have hplace : wrap (buffer.head + i) buffer.ring.capacity =
        wrap (wrap (buffer.head + offset) buffer.ring.capacity + (i - offset))
          buffer.ring.capacity := by
      rw [wrap_wrap_add]
      congr 1
      omega
    rw [hplace, Ring.bytes_write _ _ _ (by rw [hlen]; omega) (by rw [hlen]; omega)]
    rw [getD_eq_getElem?_getD, getElem?_take_of_lt (by omega), ← getD_eq_getElem?_getD]
  next hout =>
    apply Ring.bytes_write_other
    intro k hk
    rw [hlen] at hk
    rw [wrap_wrap_add, add_assoc]
    exact wrap_ne hi (show offset + k < buffer.ring.capacity by omega) (by omega)

/-- What `accept` does: the data goes into the ring, and then the run or the ranges grow. -/
theorem accept_eq (buffer : RecvBuffer) (offset : Nat) (data : List Byte) :
    buffer.accept offset data =
      if buffer.ring.capacity ≤ offset then buffer
      else if offset ≤ buffer.ready then
        { buffer.written offset data with
          ready := (absorb (max buffer.ready (buffer.stopOf offset data)) buffer.early).1
          early := (absorb (max buffer.ready (buffer.stopOf offset data)) buffer.early).2 }
      else
        { buffer.written offset data with
          early := remember buffer.early offset (buffer.stopOf offset data) } := rfl

def Given (buffer : RecvBuffer) (offset : Nat) (data : List Byte) (i : Nat) : Prop :=
  offset ≤ i ∧ i < buffer.stopOf offset data

/-- What an accept leaves behind. -/
structure Accepted (buffer : RecvBuffer) (offset : Nat) (data : List Byte) (after : RecvBuffer) :
    Prop where
  capacity : after.ring.capacity = buffer.ring.capacity
  shaped : after.Shaped
  ready_le : buffer.ready ≤ after.ready
  keeps : ∀ i, buffer.Held i → after.Held i
  held : ∀ i, after.Held i → buffer.Held i ∨ buffer.Given offset data i
  byte : ∀ i, i < buffer.ring.capacity → after.byteAt i =
    if offset ≤ i ∧ i < buffer.stopOf offset data then data.getD (i - offset) 0
    else buffer.byteAt i
  /-- In order, all of the data is in the run. -/
  taken : offset ≤ buffer.ready → buffer.stopOf offset data ≤ after.ready

theorem Shaped.accept (h : buffer.Shaped) (hoffset : offset < buffer.ring.capacity)
    (data : List Byte) : Accepted buffer offset data (buffer.accept offset data) := by
  have hstop : buffer.stopOf offset data ≤ buffer.ring.capacity := Nat.min_le_right _ _
  have hle : offset ≤ buffer.stopOf offset data := by
    unfold stopOf
    omega
  rw [accept_eq, if_neg (by omega)]
  split
  next hrun =>
    obtain ⟨hgrow, hsub, hgt, hbound, hheld⟩ :=
      absorb_spec h.apart (max buffer.ready (buffer.stopOf offset data))
    have hready := h.ready_le
    have hgiven : ∀ i, i < max buffer.ready (buffer.stopOf offset data) ↔
        i < buffer.ready ∨ buffer.Given offset data i := by
      intro i
      unfold Given
      omega
    refine ⟨capacity_written _ _ _, ⟨?_, ?_, hgt, ?_, ?_⟩, by dsimp only; omega, ?_, ?_,
      fun i hi => byteAt_written hi, fun _ => by dsimp only; omega⟩
    · rw [capacity_written]
      exact hbound _ (by omega) h.inside
    · exact ⟨h.apart.1.sublist hsub, fun e he => h.apart.2 e (hsub.subset he)⟩
    · intro e he
      rw [capacity_written]
      exact h.inside e (hsub.subset he)
    · exact le_trans hsub.length_le h.few
    · intro i hi
      exact (hheld i).mpr (hi.imp_left fun hi => (hgiven i).mpr (.inl hi))
    · intro i hi
      rcases (hheld i).mp hi with hi | hi
      · exact ((hgiven i).mp hi).imp_left .inl
      · exact .inl (.inr hi)
  next hearly =>
    have hspec := remember_spec h.apart hle h.few
    refine ⟨capacity_written _ _ _, ⟨?_, hspec.apart, ?_, ?_, hspec.few⟩, le_rfl, ?_, ?_,
      fun i hi => byteAt_written hi, fun hle => absurd hle hearly⟩
    · rw [capacity_written]
      exact h.ready_le
    · exact hspec.above buffer.ready (by omega) h.beyond
    · rw [capacity_written]
      exact hspec.below _ hstop h.inside
    · exact fun i hi => hi.imp_right (hspec.keeps i)
    · intro i hi
      rcases hi with hi | hi
      · exact .inl (.inl hi)
      · exact (hspec.covered i hi).symm.imp_left .inr

/-- Reading moves the window on: every place is held under a number that is smaller by what was
dropped. -/
theorem Shaped.consume (h : buffer.Shaped) (count : Nat) :
    (buffer.consume count).Shaped ∧
    (∀ i, (buffer.consume count).Held i → buffer.Held (i + min count buffer.ready) ∧
      (buffer.consume count).byteAt i = buffer.byteAt (i + min count buffer.ready)) := by
  have hready := h.ready_le
  refine ⟨⟨?_, ⟨?_, ?_⟩, ?_, ?_, ?_⟩, ?_⟩
  · dsimp only [RecvBuffer.consume]
    omega
  · dsimp only [RecvBuffer.consume]
    rw [pairwise_map]
    refine h.apart.1.imp_of_mem fun {a b} ha hb hab => ?_
    have hbeyond := h.beyond b hb
    dsimp only
    omega
  · intro e he
    obtain ⟨d, hd, rfl⟩ := mem_map.mp he
    have hord := h.apart.2 d hd
    dsimp only
    omega
  · intro e he
    obtain ⟨d, hd, rfl⟩ := mem_map.mp he
    have hbeyond := h.beyond d hd
    dsimp only [RecvBuffer.consume]
    omega
  · intro e he
    obtain ⟨d, hd, rfl⟩ := mem_map.mp he
    have hinside := h.inside d hd
    dsimp only [RecvBuffer.consume]
    omega
  · dsimp only [RecvBuffer.consume]
    rw [length_map]
    exact h.few
  · intro i hi
    have hheld : buffer.Held (i + min count buffer.ready) := by
      rcases hi with hi | ⟨e, he, hlow, hhigh⟩
      · dsimp only [RecvBuffer.consume] at hi
        exact .inl (by omega)
      · obtain ⟨d, hd, rfl⟩ := mem_map.mp he
        have hbeyond := h.beyond d hd
        dsimp only at hlow hhigh
        exact .inr ⟨d, hd, by omega, by omega⟩
    refine ⟨hheld, ?_⟩
    -- the front goes back to the first place of the ring only where nothing is held
    have hsome : ¬ (buffer.ready - min count buffer.ready = 0 ∧ buffer.early = []) := by
      rintro ⟨hzero, hnil⟩
      rcases hi with hi | ⟨e, he, -⟩
      · dsimp only [RecvBuffer.consume] at hi
        omega
      · dsimp only [RecvBuffer.consume] at he
        rw [hnil] at he
        cases he
    unfold byteAt
    dsimp only [RecvBuffer.consume]
    rw [if_neg hsome, wrap_wrap_add, add_assoc, add_comm (min count buffer.ready)]

def contents (buffer : RecvBuffer) : List Byte := (List.range buffer.ready).map buffer.byteAt

/-! ## Runs -/

inductive Call where
  | accept (offset : Nat) (data : List Byte)
  | read (count : Nat)
  | consume (count : Nat)

instance (early : List Extent) (i : Nat) : Decidable (Covered early i) :=
  inferInstanceAs (Decidable (∃ e ∈ early, _))

instance (buffer : RecvBuffer) (i : Nat) : Decidable (buffer.Held i) :=
  inferInstanceAs (Decidable (_ ∨ _))

instance (buffer : RecvBuffer) (offset : Nat) (data : List Byte) (i : Nat) :
    Decidable (buffer.Given offset data i) := inferInstanceAs (Decidable (_ ∧ _))

/-- A buffer with what was taken from its front, and with the byte first accepted for each position
of the stream, as part of the run or of a range that was remembered. -/
structure History where
  buffer : RecvBuffer
  out : List Byte
  first : Nat → Option Byte

def History.start (ring : Ring) : History := ⟨new ring, [], fun _ => none⟩

variable (s : History)

def History.record (offset : Nat) (data : List Byte) (p : Nat) : Option Byte :=
  if s.first p = none ∧ s.out.length ≤ p ∧ s.buffer.Given offset data (p - s.out.length) ∧
      (s.buffer.accept offset data).Held (p - s.out.length) then
    some (data.getD (p - s.out.length - offset) 0)
  else s.first p

def History.step : Call → History
  | .accept offset data => ⟨s.buffer.accept offset data, s.out, s.record offset data⟩
  | .read count => ⟨(s.buffer.read count).2, s.out ++ (s.buffer.read count).1, s.first⟩
  | .consume count => ⟨s.buffer.consume count, s.out ++ (s.buffer.read count).1, s.first⟩

def History.run (calls : List Call) : History := calls.foldl History.step s

/-- The stream as it is told by `told`: what was taken, and what every place holds. -/
structure Tells (told : Nat → Option Byte) (s : History) : Prop where
  passed : ∀ p, p < s.out.length → told p = s.out[p]?
  held : ∀ i, s.buffer.Held i → told (s.out.length + i) = some (s.buffer.byteAt i)

variable {s : History} {told told' : Nat → Option Byte}

section

variable (buffer : RecvBuffer)

theorem read_snd (count : Nat) : (buffer.read count).2 = buffer.consume count := by
  unfold read consume
  dsimp only
  rw [Nat.min_eq_left (Nat.min_le_right count buffer.ready)]

theorem length_read (count : Nat) : (buffer.read count).1.length = min count buffer.ready := by
  simp [read]

theorem getElem?_read {count i : Nat} (hi : i < min count buffer.ready) :
    (buffer.read count).1[i]? = some (buffer.byteAt i) := by
  have hrange : (List.range (min count buffer.ready))[i]? = some i := getElem?_range hi
  simp only [read, getElem?_map, hrange, Option.map_some]
  rfl

end

theorem Tells.consume (h : Tells told s) (hshaped : s.buffer.Shaped) (count : Nat) :
    Tells told ⟨s.buffer.consume count, s.out ++ (s.buffer.read count).1, s.first⟩ := by
  have hlen : (s.out ++ (s.buffer.read count).1).length =
      s.out.length + min count s.buffer.ready := by
    rw [length_append, length_read]
  constructor
  · intro p hp
    dsimp only at hp ⊢
    rw [hlen] at hp
    by_cases hpast : p < s.out.length
    · rw [getElem?_append_left hpast]
      exact h.passed p hpast
    · have hi : p - s.out.length < min count s.buffer.ready := by omega
      have hheld := h.held (p - s.out.length) (.inl (by omega))
      rw [Nat.add_sub_cancel' (by omega)] at hheld
      rw [getElem?_append_right (by omega), getElem?_read _ hi, hheld]
  · intro i hi
    obtain ⟨hheld, hbyte⟩ := (hshaped.consume count).2 i hi
    dsimp only
    rw [hlen, hbyte, add_assoc, add_comm _ i]
    exact h.held _ hheld

theorem Tells.accept (h : Tells told s) (hshaped : s.buffer.Shaped) {first : Nat → Option Byte}
    (hsame : ∀ p b, told p = some b → told' p = some b)
    (hdata : ∀ i, s.buffer.Given offset data i → (s.buffer.accept offset data).Held i →
      told' (s.out.length + i) = some (data.getD (i - offset) 0)) :
    Tells told' ⟨s.buffer.accept offset data, s.out, first⟩ := by
  constructor
  · intro p hp
    have hpassed := h.passed p hp
    rw [getElem?_eq_getElem hp] at hpassed ⊢
    exact hsame p _ hpassed
  · intro i hi
    dsimp only at hi ⊢
    by_cases hoffset : offset < s.buffer.ring.capacity
    · have haccepted := hshaped.accept hoffset data
      have hlt : i < s.buffer.ring.capacity := haccepted.capacity ▸ haccepted.shaped.held_lt hi
      rw [haccepted.byte i hlt]
      split
      next hgiven => exact hdata i hgiven hi
      next hgiven =>
        have hbefore := (haccepted.held i hi).resolve_right hgiven
        exact hsame _ _ (h.held i hbefore)
    · have heq : s.buffer.accept offset data = s.buffer := by rw [accept_eq, if_pos (by omega)]
      rw [heq] at hi ⊢
      exact hsame _ _ (h.held i hi)

theorem shaped_step (h : s.buffer.Shaped) (call : Call) : (s.step call).buffer.Shaped := by
  cases call with
  | accept offset data =>
    by_cases hoffset : offset < s.buffer.ring.capacity
    · exact (h.accept hoffset data).shaped
    · have heq : s.buffer.accept offset data = s.buffer := by rw [accept_eq, if_pos (by omega)]
      simpa [History.step, heq] using h
  | read count =>
    simp only [History.step, read_snd]
    exact (h.consume count).1
  | consume count => exact (h.consume count).1

variable (calls : List Call)

theorem shaped_run (h : s.buffer.Shaped) : (s.run calls).buffer.Shaped := by
  induction calls generalizing s with
  | nil => exact h
  | cons call rest ih => exact ih (shaped_step h call)

/-! ## The conditions on a run -/

/-- Every accept of the run carries, for each position that has a byte, that byte. -/
def AgreesRun : History → List Call → Prop
  | _, [] => True
  | s, call :: rest =>
    (∀ offset data, call = .accept offset data → ∀ i b, s.buffer.Given offset data i →
      s.first (s.out.length + i) = some b → data.getD (i - offset) 0 = b) ∧
    AgreesRun (s.step call) rest

/-- Every accept of the run is cut from the stream at its true position. -/
def CutRun (stream : List Byte) : History → List Call → Prop
  | _, [] => True
  | s, call :: rest =>
    (∀ offset data, call = .accept offset data → data <+: stream.drop (s.out.length + offset)) ∧
    CutRun stream (s.step call) rest

theorem tells_agrees (hshaped : s.buffer.Shaped) (h : Tells s.first s)
    (hagrees : AgreesRun s calls) : Tells (s.run calls).first (s.run calls) := by
  induction calls generalizing s with
  | nil => exact h
  | cons call rest ih =>
    refine ih (shaped_step hshaped call) ?_ hagrees.2
    cases call with
    | accept offset data =>
      refine h.accept hshaped (fun p b hp => ?_) fun i hgiven hheld => ?_
      · simp [History.step, History.record, hp]
      · simp only [History.step, History.record]
        split
        next => rw [Nat.add_sub_cancel_left]
        next hold =>
          cases hfirst : s.first (s.out.length + i) with
          | none =>
            refine absurd ⟨hfirst, Nat.le_add_right _ _, ?_⟩ hold
            rw [Nat.add_sub_cancel_left]
            exact ⟨hgiven, hheld⟩
          | some b => rw [hagrees.1 offset data rfl i b hgiven hfirst]
    | read count =>
      simp only [History.step, read_snd]
      exact h.consume hshaped count
    | consume count => exact h.consume hshaped count

theorem tells_cut {stream : List Byte} (calls : List Call) (hshaped : s.buffer.Shaped)
    (h : Tells (fun p => stream[p]?) s) (hcut : CutRun stream s calls) :
    Tells (fun p => stream[p]?) (s.run calls) := by
  induction calls generalizing s with
  | nil => exact h
  | cons call rest ih =>
    refine ih (shaped_step hshaped call) ?_ hcut.2
    cases call with
    | accept offset data =>
      refine h.accept hshaped (fun p b hp => hp) fun i hgiven hheld => ?_
      have hlt : i - offset < data.length := by
        have hstop := hgiven.2
        unfold stopOf at hstop
        have hlow := hgiven.1
        omega
      obtain ⟨back, hback⟩ := hcut.1 offset data rfl
      have hplace : stream[s.out.length + i]? =
          (stream.drop (s.out.length + offset))[i - offset]? := by
        rw [getElem?_drop]
        congr 1
        have hlow := hgiven.1
        omega
      rw [hplace, ← hback, getElem?_append_left hlt, getD_eq_getElem?_getD, getElem?_eq_getElem hlt]
      rfl
    | read count =>
      simp only [History.step, read_snd]
      exact h.consume hshaped count
    | consume count => exact h.consume hshaped count

theorem Tells.getElem? (h : Tells told s) {p : Nat}
    (hp : p < s.out.length + s.buffer.ready) : (s.out ++ s.buffer.contents)[p]? = told p := by
  by_cases hpast : p < s.out.length
  · rw [getElem?_append_left hpast, h.passed p hpast]
  have hheld := h.held (p - s.out.length) (.inl (by omega))
  rw [Nat.add_sub_cancel' (by omega)] at hheld
  have hrange : (List.range s.buffer.ready)[p - s.out.length]? = some (p - s.out.length) :=
    getElem?_range (by omega)
  rw [getElem?_append_right (by omega), contents, getElem?_map, hrange, hheld]
  rfl

/-! ## Ranges that are not empty -/

section

variable (h : s.buffer.Shaped) (hne : ∀ e ∈ s.buffer.early, e.start < e.stop)
include h hne

theorem nonempty_step {call : Call} (hcall : ∀ offset, call ≠ .accept offset []) :
    ∀ e ∈ (s.step call).buffer.early, e.start < e.stop := by
  have hconsume : ∀ count, ∀ e ∈ (s.buffer.consume count).early, e.start < e.stop := by
    intro count e he
    obtain ⟨d, hd, rfl⟩ := mem_map.mp he
    have hnonempty := hne d hd
    have hbeyond := h.beyond d hd
    dsimp only
    omega
  cases call with
  | accept offset data =>
    have hdata : 0 < data.length := length_pos_of_ne_nil fun hnil => hcall offset (hnil ▸ rfl)
    simp only [History.step, accept_eq]
    split
    · exact hne
    next hoffset =>
    split
    · intro e he
      exact hne e ((absorb_spec h.apart _).2.1.subset he)
    · have hstop : offset < s.buffer.stopOf offset data := by
        unfold stopOf
        omega
      exact (remember_spec h.apart hstop.le h.few).nonempty hstop hne
  | read count =>
    simp only [History.step, read_snd]
    exact hconsume count
  | consume count => exact hconsume count

theorem nonempty_run (hcalls : ∀ offset, Call.accept offset [] ∉ calls) :
    ∀ e ∈ (s.run calls).buffer.early, e.start < e.stop := by
  induction calls generalizing s with
  | nil => exact hne
  | cons call rest ih =>
    refine ih (shaped_step h call) (nonempty_step h hne fun offset heq => ?_) fun offset hmem => ?_
    · exact hcalls offset (heq ▸ mem_cons_self)
    · exact hcalls offset (mem_cons_of_mem call hmem)

end

/-! ## The receive buffer -/

/-- For every ring and every sequence of calls: the ranges stay sorted and apart from each other
and from the run, inside the window; they are not empty as long as nothing empty is accepted; as
long as no accept carries another byte for a position that has one, what was taken and the run are
the bytes first accepted; and when all accepts are cut from one stream, they are a beginning of
it. -/
theorem reassembly_sound (ring : Ring) (calls : List Call) :
    ((History.start ring).run calls).buffer.Shaped ∧
    ((∀ offset, Call.accept offset [] ∉ calls) →
      ∀ e ∈ ((History.start ring).run calls).buffer.early, e.start < e.stop) ∧
    (AgreesRun (History.start ring) calls → ∀ p,
      p < ((History.start ring).run calls).out.length +
        ((History.start ring).run calls).buffer.ready →
      (((History.start ring).run calls).out ++
        ((History.start ring).run calls).buffer.contents)[p]? =
        ((History.start ring).run calls).first p) ∧
    ∀ stream : List Byte, CutRun stream (History.start ring) calls →
      ((History.start ring).run calls).out ++ ((History.start ring).run calls).buffer.contents <+:
        stream := by
  have hshaped := shaped_new ring
  have htells : ∀ told : Nat → Option Byte, Tells told (History.start ring) := by
    intro told
    refine ⟨nofun, fun i hi => ?_⟩
    rcases hi with hi | ⟨e, he, -⟩
    · cases hi
    · cases he
  refine ⟨shaped_run calls hshaped, nonempty_run calls hshaped nofun, fun hagrees p hp => ?_,
    fun stream hcut => ?_⟩
  · exact (tells_agrees calls hshaped (htells _) hagrees).getElem? hp
  · have hstream := tells_cut calls hshaped (htells _) hcut
    refine prefix_iff_getElem?.mpr fun p hp => ?_
    have hlen : p < ((History.start ring).run calls).out.length +
        ((History.start ring).run calls).buffer.ready := by
      simpa [contents] using hp
    rw [← hstream.getElem? hlen, getElem?_eq_getElem hp]

def fourBytes : Ring := ⟨4, fun _ => 0⟩

/-- The second accept carries a byte that is there already, and a new one. -/
def overlap : List Call := [.accept 0 [1, 2], .accept 1 [2, 3], .read 2]

theorem reassembly_sound_overlap :
    (∀ e ∈ ((History.start fourBytes).run overlap).buffer.early, e.start < e.stop) ∧
    (((History.start fourBytes).run overlap).out ++
      ((History.start fourBytes).run overlap).buffer.contents)[1]? =
      ((History.start fourBytes).run overlap).first 1 ∧
    ((History.start fourBytes).run overlap).out ++
      ((History.start fourBytes).run overlap).buffer.contents <+: [1, 2, 3, 4] := by
  obtain ⟨-, hnonempty, hagrees, hcut⟩ := reassembly_sound fourBytes overlap
  refine ⟨hnonempty (by simp [overlap]), hagrees ⟨?_, ?_, ?_, trivial⟩ 1 (by decide),
    hcut _ ⟨?_, ?_, ?_, trivial⟩⟩
  · rintro offset data ⟨⟩ i b - hfirst
    cases hfirst
  · rintro offset data ⟨⟩ i b hgiven hfirst
    obtain ⟨hlow, hhigh⟩ := hgiven
    have hstop :
        ((History.start fourBytes).step (.accept 0 [1, 2])).buffer.stopOf 1 [2, 3] = 3 := by
      decide
    rw [hstop] at hhigh
    have hi : i = 1 ∨ i = 2 := by omega
    rcases hi with rfl | rfl
    · have hone : ((History.start fourBytes).step (.accept 0 [1, 2])).first 1 = some 2 := by decide
      exact Option.mem_unique hone hfirst
    · have hnone : ((History.start fourBytes).step (.accept 0 [1, 2])).first 2 = none := by decide
      cases hnone.symm.trans hfirst
  · exact nofun
  · rintro offset data ⟨⟩
    decide
  · rintro offset data ⟨⟩
    decide
  · exact nofun

/-- A later accept changes a byte of the run before it is read, and an empty one beyond the run
leaves an empty range. -/
theorem accept_overwrites_run :
    ((History.start fourBytes).run [.accept 0 [1], .accept 0 [2]]).first 0 = some 1 ∧
    ((History.start fourBytes).run [.accept 0 [1], .accept 0 [2], .read 1]).out = [2] ∧
    ((History.start fourBytes).run [.accept 2 []]).buffer.early = [⟨2, 2⟩] := by
  decide

end RecvBuffer

end Audhsos.Tcp
