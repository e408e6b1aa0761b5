import Mathlib.Data.List.Pairwise
import Audhsos.Ip.Reassembler

/-!
A reassembler when anybody may send the pieces. Beside it a history keeps, for every datagram, the
pieces stored since its buffer was made, and whether a piece that met one of them with another
extent or other contents has arrived since.
-/

namespace Audhsos.Ip

open Wire Piece Reassembler Option Function
open Tcp (Instant Duration)

/-! ## How far the ranges reach -/

namespace Buffer

variable {filled : List (Nat × Nat)} {reached : Nat}

variable (filled)

/-- The place lies in one of the ranges. -/
def Filled (i : Nat) : Prop :=
  ∃ range ∈ filled, range.1 ≤ i ∧ i < range.2

/-- What one pass finds, from a run and a mark that were found before. -/
structure Passed (filled : List (Nat × Nat)) (before after : Nat × Bool) : Prop where
  still : after.2 = false → before.2 = false ∧ after.1 = before.1 ∧
    ∀ range ∈ filled, ¬ (range.1 ≤ before.1 ∧ before.1 < range.2)
  moved : after.2 = true → before.2 = true ∨ before.1 < after.1
  ends : after.1 = before.1 ∨ ∃ range ∈ filled, range.2 = after.1
  le : before.1 ≤ after.1
  filled : ∀ i, before.1 ≤ i → i < after.1 → Filled filled i

theorem passed_foldl (run : Nat × Bool) : Passed filled run (filled.foldl advance run) := by
  induction filled generalizing run with
  | nil =>
    refine ⟨fun h => ⟨h, rfl, nofun⟩, .inl, .inl rfl, le_rfl, fun i hlow hhigh => ?_⟩
    exact absurd hhigh (Nat.not_lt_of_le hlow)
  | cons range rest ih =>
    have hrest := ih (advance run range)
    rw [List.foldl_cons]
    by_cases hstep : range.1 ≤ run.1 ∧ run.1 < range.2
    · have hadvance : advance run range = (range.2, true) := if_pos hstep
      rw [hadvance] at hrest ⊢
      have hle := hrest.le
      dsimp only at hle
      refine ⟨fun h => absurd (hrest.still h).1 (by simp), fun _ => .inr (by omega), .inr ?_,
        by omega, fun i hlow hhigh => ?_⟩
      · rcases hrest.ends with heq | ⟨last, hlast, heq⟩
        · exact ⟨range, List.mem_cons_self, heq.symm⟩
        · exact ⟨last, List.mem_cons_of_mem _ hlast, heq⟩
      · by_cases hin : i < range.2
        · exact ⟨range, List.mem_cons_self, by omega, hin⟩
        · obtain ⟨other, hother, hinside⟩ := hrest.filled i (by dsimp only; omega) hhigh
          exact ⟨other, List.mem_cons_of_mem _ hother, hinside⟩
    · have hadvance : advance run range = run := if_neg hstep
      rw [hadvance] at hrest ⊢
      refine ⟨fun h => ?_, hrest.moved, ?_, hrest.le, fun i hlow hhigh => ?_⟩
      · obtain ⟨hprogressed, heq, hnone⟩ := hrest.still h
        refine ⟨hprogressed, heq, fun other hother => ?_⟩
        rcases List.mem_cons.mp hother with rfl | hother
        · exact hstep
        · exact hnone other hother
      · exact hrest.ends.imp_right fun ⟨last, hlast, heq⟩ =>
          ⟨last, List.mem_cons_of_mem _ hlast, heq⟩
      · obtain ⟨other, hother, hinside⟩ := hrest.filled i hlow hhigh
        exact ⟨other, List.mem_cons_of_mem _ hother, hinside⟩

/-- The ranges that end behind a place. A pass that makes progress leaves fewer of them. -/
def behind (reached : Nat) : Nat :=
  filled.countP fun range => reached < range.2

variable {filled}

theorem behind_lt {reached' : Nat} (hlt : reached < reached')
    (hends : ∃ range ∈ filled, range.2 = reached') :
    behind filled reached' < behind filled reached := by
  obtain ⟨range, hmem, hstop⟩ := hends
  obtain ⟨front, back, rfl⟩ := List.append_of_mem hmem
  have hmono : ∀ l : List (Nat × Nat), l.countP (fun range => reached' < range.2) ≤
      l.countP (fun range => reached < range.2) := fun l =>
    List.countP_mono_left fun r _ hr => by
      simp only [decide_eq_true_eq] at hr ⊢
      omega
  have hfront := hmono front
  have hback := hmono back
  simp only [behind, List.countP_append, List.countP_cons, hstop, lt_irrefl, hlt, decide_true,
    decide_false, if_true, Bool.false_eq_true, if_false]
  omega

variable (filled)

/-- What the passes find: all before the end of the run is filled, and no range goes on there. -/
theorem reach_spec (passes reached : Nat) (hpasses : behind filled reached < passes) :
    let last := reach filled passes reached
    reached ≤ last ∧ (∀ i, reached ≤ i → i < last → Filled filled i) ∧
    ∀ range ∈ filled, ¬ (range.1 ≤ last ∧ last < range.2) := by
  induction passes generalizing reached with
  | zero => omega
  | succ passes ih =>
    have hpass := passed_foldl filled (reached, false)
    unfold reach pass
    generalize filled.foldl advance (reached, false) = after at hpass
    obtain ⟨far, progressed⟩ := after
    cases progressed with
    | false =>
      obtain ⟨-, heq, hnone⟩ := hpass.still rfl
      subst heq
      exact ⟨le_rfl, fun i hlow hhigh => absurd hhigh (Nat.not_lt_of_le hlow), hnone⟩
    | true =>
      have hlt : reached < far := (hpass.moved rfl).resolve_left (by simp)
      have hfewer := behind_lt hlt (hpass.ends.resolve_left (by dsimp only; omega))
      obtain ⟨hle, hfilled, hnone⟩ := ih far (by omega)
      dsimp only
      refine ⟨by omega, fun i hlow hhigh => ?_, hnone⟩
      by_cases hin : i < far
      · exact hpass.filled i hlow hin
      · exact hfilled i (by omega) hhigh

theorem behind_le (reached : Nat) : behind filled reached < filled.length + 1 :=
  Nat.lt_succ_of_le List.countP_le_length

theorem total_of_isComplete {bytes : Nat} {buffer : Buffer bytes}
    (h : buffer.isComplete = true) : ∃ total, buffer.total = some total := by
  unfold isComplete at h
  cases htotal : buffer.total with
  | none =>
    rw [htotal] at h
    cases h
  | some total => exact ⟨total, rfl⟩

theorem isComplete_iff {bytes : Nat} {buffer : Buffer bytes} {total : Nat}
    (htotal : buffer.total = some total) :
    buffer.isComplete = true ↔ ∀ i < total, Filled buffer.filled i := by
  obtain ⟨-, hfilled, hnone⟩ := reach_spec buffer.filled _ 0 (behind_le buffer.filled 0)
  unfold isComplete
  rw [htotal]
  simp only [decide_eq_true_eq]
  constructor
  · intro hle i hi
    exact hfilled i (Nat.zero_le _) (by omega)
  · intro hall
    by_contra hlt
    obtain ⟨range, hmem, hlow, hhigh⟩ := hall _ (lt_of_not_ge hlt)
    exact hnone range hmem ⟨hlow, hhigh⟩

end Buffer

/-! ## Pieces -/

namespace Piece

variable (p q : Piece)

/-- The two pieces claim a byte in common. -/
def touches : Bool := Buffer.meets p.offset p.stop q.range

/-- They do so with another extent or other contents. -/
def conflicts : Bool :=
  p.touches q ∧ ¬ (p.offset = q.offset ∧ p.stop = q.stop ∧ p.payload = q.payload)

def covers (p : Piece) (i : Nat) : Bool := p.offset ≤ i ∧ i < p.stop

theorem touches_comm : p.touches q = q.touches p := by
  unfold touches Buffer.meets range
  simp only [decide_eq_decide]
  omega

theorem touches_of_covers {p q : Piece} {i : Nat} (hp : p.covers i = true)
    (hq : q.covers i = true) : p.touches q = true := by
  unfold covers at hp hq
  unfold touches Buffer.meets range
  simp only [decide_eq_true_eq] at hp hq ⊢
  omega

end Piece

/-- The pieces of a datagram make up the bytes that were answered: they cover every byte exactly
once and carry it, all of them end where the bytes end or before, and exactly one has no successor
and ends there. -/
structure Assembled (stored : List Piece) (data : List Byte) : Prop where
  once : ∀ i < data.length, ∃ p, stored.filter (·.covers i) = [p] ∧
    data[i]? = p.payload[i - p.offset]?
  within : ∀ p ∈ stored, p.stop ≤ data.length
  last : ∃ p, stored.filter (!·.more) = [p] ∧ p.stop = data.length

/-- The pieces agree with one more about where the datagram ends. -/
def Agrees (stored : List Piece) (piece : Piece) : Prop :=
  (∀ q ∈ stored, q.more = false → piece.more = true ∧ piece.stop ≤ q.stop) ∧
    (piece.more = false → ∀ q ∈ stored, q.stop ≤ piece.stop)

instance (stored : List Piece) (piece : Piece) : Decidable (Agrees stored piece) :=
  inferInstanceAs (Decidable (_ ∧ _))

/-- What a buffer knows of the pieces stored in it. -/
structure Keeps {bytes : Nat} (buffer : Buffer bytes) (stored : List Piece) : Prop where
  filled : buffer.filled = stored.map range
  apart : stored.Pairwise fun p q => p.touches q = false
  inside : ∀ p ∈ stored, p.stop ≤ bytes
  contents : ∀ p ∈ stored, ∀ i < p.payload.length, buffer.data[p.offset + i]? = p.payload[i]?
  unended : buffer.total = none → ∀ p ∈ stored, p.more = true
  ended : ∀ total, buffer.total = some total →
    (∃ p, stored.filter (!·.more) = [p] ∧ p.stop = total) ∧ ∀ p ∈ stored, p.stop ≤ total

section Insert

variable {bytes : Nat} {buffer : Buffer bytes} {stored : List Piece} {piece : Piece}

theorem keeps_fresh (key : Key) (deadline : Instant) :
    Keeps (fresh key deadline : Buffer bytes) [] :=
  ⟨rfl, .nil, nofun, nofun, nofun, nofun⟩

theorem Piece.conflicts_of_touches {p q : Piece} (h : p.touches q = false) :
    p.conflicts q = false := by
  unfold conflicts
  rw [decide_eq_false_iff_not, h]
  rintro ⟨hfalse, -⟩
  cases hfalse

theorem find_filled (h : Keeps buffer stored) (piece : Piece) :
    buffer.filled.find? (Buffer.meets piece.offset piece.stop) =
      (stored.find? (piece.touches ·)).map range := by
  rw [h.filled, List.find?_map]
  rfl

theorem Keeps.copied (h : Keeps buffer stored) (hend : piece.stop ≤ bytes)
    (hapart : ∀ q ∈ stored, piece.touches q = false) :
    ∀ p ∈ stored, ∀ i < p.payload.length,
      (copyInto buffer.data piece.offset piece.payload)[p.offset + i]? = p.payload[i]? := by
  intro p hp i hi
  have hlength := buffer.length_data
  have hnot := hapart p hp
  unfold stop at hend
  unfold touches Buffer.meets range stop at hnot
  simp only [decide_eq_false_iff_not] at hnot
  rw [getElem?_copyInto (by omega), if_neg (by omega)]
  exact h.contents p hp i hi

theorem slice_eq {data : List Byte} {start : Nat} {payload : List Byte}
    (h : ∀ i < payload.length, data[start + i]? = payload[i]?) :
    (data.drop start).take payload.length = payload := by
  apply List.ext_getElem?
  intro i
  by_cases hi : i < payload.length
  · rw [List.getElem?_take_of_lt hi, List.getElem?_drop, h i hi]
  · rw [List.getElem?_eq_none (by simp; omega), List.getElem?_eq_none (by omega)]

section

variable (h : Keeps buffer stored) (hend : piece.stop ≤ bytes)
include h hend

/-- What putting a piece in does: it is a duplicate of a stored one, it conflicts with one, it is
stored, or there is no room to remember it. -/
theorem insert_cases :
    let after := buffer.insert piece hend
    (after = (.ok (), buffer) ∧ (∃ q ∈ stored, piece.touches q = true) ∧
      ∀ q ∈ stored, piece.conflicts q = false) ∨
    (after = (.error .overlappingFragment, buffer) ∧ ∃ q ∈ stored, piece.conflicts q = true) ∨
    ((∀ q ∈ stored, piece.touches q = false) ∧
      after.2.data = copyInto buffer.data piece.offset piece.payload ∧ after.2.key = buffer.key ∧
      ((buffer.filled.length < maxRanges ∧ after.1 = .ok () ∧
        after.2.filled = buffer.filled ++ [piece.range] ∧
        after.2.total = if piece.more then buffer.total else some piece.stop) ∨
      (maxRanges ≤ buffer.filled.length ∧ after.1 = .error (.tooLarge piece.stop) ∧
        after.2.filled = buffer.filled ∧ after.2.total = buffer.total))) := by
  dsimp only
  unfold Buffer.insert
  rw [find_filled h]
  cases hfind : stored.find? (piece.touches ·) with
  | some q =>
    have htouch : piece.touches q = true := by simpa using List.find?_some hfind
    have hmem : q ∈ stored := List.mem_of_find?_eq_some hfind
    simp only [map_some, range]
    split
    next hsame =>
      -- another stored piece that the duplicate touches would touch the one it repeats
      have hpayload : piece.payload = q.payload := by
        obtain ⟨hstart, hstop, hslice⟩ := hsame
        unfold stop at hstop
        rw [← hslice, hstart, show piece.payload.length = q.payload.length by omega]
        exact slice_eq (h.contents q hmem)
      refine .inl ⟨rfl, ⟨q, hmem, htouch⟩, fun p hp => ?_⟩
      unfold conflicts
      rw [decide_eq_false_iff_not]
      rintro ⟨hmeets, hdiffers⟩
      by_cases heq : p = q
      · rw [heq] at hdiffers
        exact hdiffers ⟨hsame.1, hsame.2.1, hpayload⟩
      have hsymm : Std.Symm fun p q : Piece => p.touches q = false :=
        ⟨fun p q hpq => (touches_comm q p).trans hpq⟩
      have hapart := List.Pairwise.forall h.apart hmem hp (Ne.symm heq)
      unfold touches at hmeets hapart
      rw [hsame.1, hsame.2.1, hapart] at hmeets
      cases hmeets
    next hother =>
      refine .inr (.inl ⟨rfl, q, hmem, ?_⟩)
      unfold conflicts
      simp only [decide_eq_true_eq]
      refine ⟨htouch, fun hsame => hother ⟨hsame.1, hsame.2.1, ?_⟩⟩
      rw [hsame.1, hsame.2.2]
      exact slice_eq (h.contents q hmem)
  | none =>
    have hapart : ∀ q ∈ stored, piece.touches q = false := by
      intro q hq
      simpa using List.find?_eq_none.mp hfind q hq
    dsimp only [map_none]
    refine .inr (.inr ⟨hapart, ?_⟩)
    split
    next hroom => exact ⟨rfl, rfl, .inl ⟨hroom, rfl, rfl, rfl⟩⟩
    next hfull => exact ⟨rfl, rfl, .inr ⟨le_of_not_gt hfull, rfl, rfl, rfl⟩⟩

section

variable {after : Buffer bytes} (hapart : ∀ q ∈ stored, piece.touches q = false)
include hapart

theorem Keeps.added (hagrees : Agrees stored piece)
    (hdata : after.data = copyInto buffer.data piece.offset piece.payload)
    (hfilled : after.filled = buffer.filled ++ [piece.range])
    (htotal : after.total = if piece.more then buffer.total else some piece.stop) :
    Keeps after (stored ++ [piece]) := by
  have hlength := buffer.length_data
  have hmem : ∀ p ∈ stored ++ [piece], p ∈ stored ∨ p = piece := by simp
  refine ⟨?_, ?_, ?_, ?_, ?_, ?_⟩
  · rw [hfilled, h.filled, List.map_append]
    rfl
  · rw [List.pairwise_append]
    refine ⟨h.apart, List.pairwise_singleton _ _, fun p hp q hq => ?_⟩
    rw [List.mem_singleton.mp hq, touches_comm]
    exact hapart p hp
  · intro p hp
    rcases hmem p hp with hp | rfl
    · exact h.inside p hp
    · exact hend
  · intro p hp i hi
    rw [hdata]
    rcases hmem p hp with hp | rfl
    · exact h.copied hend hapart p hp i hi
    · unfold stop at hend
      rw [getElem?_copyInto (by omega), if_pos (by omega), Nat.add_sub_cancel_left]
  · intro hnone p hp
    rw [htotal] at hnone
    split at hnone
    next hmore =>
      rcases hmem p hp with hp | rfl
      · exact h.unended hnone p hp
      · exact hmore
    next => cases hnone
  · intro total hsome
    rw [htotal] at hsome
    split at hsome
    next hmore =>
      obtain ⟨⟨last, hlast, hstop⟩, hwithin⟩ := h.ended total hsome
      have hstored : last ∈ stored ∧ (!last.more) = true :=
        List.mem_filter.mp (hlast ▸ List.mem_singleton_self last)
      refine ⟨⟨last, ?_, hstop⟩, fun p hp => ?_⟩
      · rw [List.filter_append, hlast, List.filter_cons_of_neg (by simp [hmore])]
        rfl
      · rcases hmem p hp with hp | rfl
        · exact hwithin p hp
        · rw [← hstop]
          exact (hagrees.1 last hstored.1 (by simpa using hstored.2)).2
    next hlast =>
      have hmore : piece.more = false := by simpa using hlast
      obtain rfl := some.inj hsome
      refine ⟨⟨piece, ?_, rfl⟩, fun p hp => ?_⟩
      · have hnone : stored.filter (!·.more) = [] := by
          rw [List.filter_eq_nil_iff]
          intro q hq hlast
          have hcontra := (hagrees.1 q hq (by simpa using hlast)).1
          rw [hmore] at hcontra
          cases hcontra
        rw [List.filter_append, hnone, List.filter_cons_of_pos (by simp [hmore])]
        rfl
      · rcases hmem p hp with hp | rfl
        · exact hagrees.2 hmore p hp
        · exact le_rfl

theorem Keeps.unstored (hdata : after.data = copyInto buffer.data piece.offset piece.payload)
    (hfilled : after.filled = buffer.filled) (htotal : after.total = buffer.total) :
    Keeps after stored :=
  ⟨hfilled.trans h.filled, h.apart, h.inside, hdata ▸ h.copied hend hapart, htotal ▸ h.unended,
    htotal ▸ h.ended⟩

end

end

theorem Keeps.assembled (h : Keeps buffer stored) {total : Nat} (htotal : buffer.total = some total)
    (hfits : total ≤ bytes) (hcomplete : buffer.isComplete = true) :
    Assembled stored (buffer.data.take total) := by
  have hlength : (buffer.data.take total).length = total := by
    rw [List.length_take, buffer.length_data]
    omega
  obtain ⟨hlast, hwithin⟩ := h.ended total htotal
  refine ⟨fun i hi => ?_, by rw [hlength]; exact hwithin, by rw [hlength]; exact hlast⟩
  rw [hlength] at hi
  obtain ⟨range, hrange, hin⟩ := (Buffer.isComplete_iff htotal).mp hcomplete i hi
  rw [h.filled] at hrange
  obtain ⟨p, hp, rfl⟩ := List.mem_map.mp hrange
  have hcovers : p.covers i = true := decide_eq_true hin
  refine ⟨p, ?_, ?_⟩
  · -- another piece that covers the byte would touch this one
    obtain ⟨front, back, rfl⟩ := List.append_of_mem hp
    obtain ⟨-, hback, hfront⟩ := List.pairwise_append.mp h.apart
    have hnot : ∀ q : Piece, q.touches p = false → q.covers i = false := by
      intro q hq
      by_contra hcov
      rw [touches_of_covers (by simpa using hcov) hcovers] at hq
      cases hq
    rw [List.filter_append, List.filter_cons, if_pos hcovers,
      List.filter_eq_nil_iff.mpr fun q hq => by
        simp [hnot q (hfront q hq p List.mem_cons_self)],
      List.filter_eq_nil_iff.mpr fun q hq => by
        simp [hnot q (by rw [touches_comm]; exact (List.pairwise_cons.mp hback).1 q hq)]]
    rfl
  · unfold range stop at hin
    dsimp only at hin
    rw [List.getElem?_take_of_lt hi, ← h.contents p hp (i - p.offset) (by omega)]
    congr 1
    omega

end Insert

/-! ## The buffers -/

namespace Reassembler

variable {slots bytes : Nat} {r : Reassembler slots bytes} {key : Key} {piece : Piece}
  {now : Instant}

variable {b : Buffer bytes}

/-- Every datagram has one buffer. -/
def Distinct (buffers : List (Buffer bytes)) : Prop := buffers.Pairwise fun b c => b.key ≠ c.key

variable (r)

def holds (key : Key) : Bool := r.buffers.any (·.key = key)

def rangesOf (key : Key) : List (Nat × Nat) :=
  ((r.buffers.find? (·.key = key)).map (·.filled)).getD []

variable {r}

theorem holds_of_mem (hmem : b ∈ r.buffers) (hkey : b.key = key) : r.holds key = true :=
  List.any_eq_true.mpr ⟨b, hmem, decide_eq_true hkey⟩

variable {buffers : List (Buffer bytes)} {b : Buffer bytes} {index : Nat}

theorem Distinct.eq (h : Distinct buffers) {c : Buffer bytes}
    (hb : b ∈ buffers) (hc : c ∈ buffers) (hkey : b.key = c.key) : b = c := by
  by_contra hne
  have hsymm : Std.Symm fun b c : Buffer bytes => b.key ≠ c.key :=
    ⟨fun _ _ hdiffer heq => hdiffer heq.symm⟩
  exact List.Pairwise.forall h hb hc hne hkey

theorem rangesOf_mem (h : Distinct r.buffers) (hmem : b ∈ r.buffers)
    (hkey : b.key = key) : r.rangesOf key = b.filled := by
  unfold rangesOf
  cases hfind : r.buffers.find? (·.key = key) with
  | none => exact absurd (decide_eq_true hkey) (List.find?_eq_none.mp hfind b hmem)
  | some c =>
    have hc : c.key = key := by simpa using List.find?_some hfind
    rw [h.eq (List.mem_of_find?_eq_some hfind) hmem (hc.trans hkey.symm)]
    rfl

theorem rangesOf_not_holds (h : r.holds key = false) : r.rangesOf key = [] := by
  unfold rangesOf
  have hnone : r.buffers.find? (·.key = key) = none := by
    rw [List.find?_eq_none]
    intro b hb
    have hall := List.any_eq_false.mp h b hb
    exact hall
  rw [hnone]
  rfl

theorem slotFor_spec (r : Reassembler slots bytes) (key : Key) (deadline : Instant) :
    (∃ index b, r.slotFor key deadline = (.ok index, r) ∧ r.buffers[index]? = some b ∧
      b.key = key) ∨
    (r.holds key = false ∧ ∃ kept : List (Buffer bytes), kept.Sublist r.buffers ∧
      ((∃ error, r.slotFor key deadline = (.error error, { r with buffers := kept })) ∨
        r.slotFor key deadline = (.ok kept.length,
          { r with buffers := kept ++ [fresh key deadline] }))) := by
  unfold slotFor
  cases hfind : r.buffers.findIdx? (·.key = key) with
  | some index =>
    obtain ⟨hlt, hkey, -⟩ := List.findIdx?_eq_some_iff_getElem.mp hfind
    exact .inl ⟨index, r.buffers[index], rfl, List.getElem?_eq_getElem hlt, by simpa using hkey⟩
  | none =>
    refine .inr ⟨?_, ?_⟩
    · rw [holds, List.any_eq_false]
      intro b hb
      exact Bool.not_eq_true _ ▸ List.findIdx?_eq_none_iff.mp hfind b hb
    · have hkept : ∀ kept, (if slots ≤ r.buffers.length then (oldest r.buffers).map r.buffers.eraseIdx
          else some r.buffers) = some kept → kept.Sublist r.buffers := by
        intro kept heq
        split at heq
        · obtain ⟨index, -, rfl⟩ := map_eq_some_iff.mp heq
          exact List.eraseIdx_sublist _ _
        · exact some.inj heq ▸ List.Sublist.refl _
      dsimp only
      generalize (if slots ≤ r.buffers.length then (oldest r.buffers).map r.buffers.eraseIdx
        else some r.buffers) = kept? at hkept ⊢
      cases kept? with
      | none => exact ⟨r.buffers, List.Sublist.refl _, .inl ⟨_, rfl⟩⟩
      | some kept =>
        refine ⟨kept, hkept kept rfl, ?_⟩
        dsimp only
        split
        · exact .inr rfl
        · exact .inl ⟨_, rfl⟩

theorem Distinct.set (h : Distinct buffers)
    {b' : Buffer bytes} (hindex : buffers[index]? = some b) (hkey : b'.key = b.key) :
    Distinct (buffers.set index b') ∧ b' ∈ buffers.set index b' ∧
      ∀ c ∈ buffers.set index b', c = b' ∨ (c ∈ buffers ∧ c.key ≠ b.key) := by
  obtain ⟨hlt, rfl⟩ := List.getElem?_eq_some_iff.mp hindex
  obtain ⟨front, back, hsplit, hlength⟩ : ∃ front back,
      buffers = front ++ buffers[index] :: back ∧ front.length = index := by
    refine ⟨buffers.take index, buffers.drop (index + 1), ?_, by rw [List.length_take]; omega⟩
    rw [List.getElem_cons_drop, List.take_append_drop]
  generalize buffers[index] = b at hkey hsplit
  subst hsplit
  have hset : (front ++ b :: back).set index b' = front ++ b' :: back := by
    rw [← hlength, List.set_append_right _ _ (le_rfl), tsub_self, List.set_cons_zero]
  rw [hset]
  unfold Distinct at h ⊢
  rw [List.pairwise_append, List.pairwise_cons] at h ⊢
  obtain ⟨hfront, ⟨hhead, hback⟩, hacross⟩ := h
  refine ⟨⟨hfront, ⟨fun c hc => hkey ▸ hhead c hc, hback⟩, fun c hc d hd => ?_⟩,
    List.mem_append_right _ List.mem_cons_self, fun c hc => ?_⟩
  · rcases List.mem_cons.mp hd with rfl | hd
    · rw [hkey]
      exact hacross c hc b List.mem_cons_self
    · exact hacross c hc d (List.mem_cons_of_mem _ hd)
  · rcases List.mem_append.mp hc with hc | hc
    · exact .inr ⟨List.mem_append_left _ hc, hacross c hc b List.mem_cons_self⟩
    · rcases List.mem_cons.mp hc with rfl | hc
      · exact .inl rfl
      · exact .inr ⟨List.mem_append_right _ (List.mem_cons_of_mem _ hc), (hhead c hc).symm⟩

theorem key_insert (b : Buffer bytes) (piece : Piece) (hend : piece.stop ≤ bytes) :
    (b.insert piece hend).2.key = b.key := by
  unfold Buffer.insert
  split
  · split <;> rfl
  · dsimp only
    split <;> rfl

variable {r₁ : Reassembler slots bytes}

theorem acceptPiece_slot (hend : piece.stop ≤ bytes)
    (hslot : r.slotFor piece.key (now.saturatingAdd r.timeout) = (.ok index, r₁))
    (hindex : r₁.buffers[index]? = some b) :
    let after := (b.insert piece hend).2
    (r.acceptPiece piece now).2 = { r₁ with buffers := r₁.buffers.set index after } ∧
    (r.acceptPiece piece now).1 =
      match (b.insert piece hend).1 with
      | .error error => .error error
      | .ok () =>
        if after.isComplete then
          if after.total.getD 0 ≤ bytes then .ok (some (after.data.take (after.total.getD 0)))
          else .error (.tooLarge (after.total.getD 0))
        else .ok none := by
  dsimp only
  unfold acceptPiece
  rw [dif_pos hend, hslot]
  dsimp only
  rw [hindex]
  dsimp only
  cases hinsert : b.insert piece hend with
  | mk answer b' =>
    cases answer with
    | error error => exact ⟨rfl, rfl⟩
    | ok done =>
      dsimp only
      cases b'.isComplete with
      | false => exact ⟨rfl, rfl⟩
      | true =>
        simp only [if_true]
        split <;> exact ⟨rfl, rfl⟩

/-- The piece was put into the buffer `b` of its datagram, and what was answered is there. -/
structure Took (r : Reassembler slots bytes) (piece : Piece) (now : Instant)
    (hend : piece.stop ≤ bytes) (b : Buffer bytes) : Prop where
  distinct : Distinct (r.acceptPiece piece now).2.buffers
  there : (b.insert piece hend).2 ∈ (r.acceptPiece piece now).2.buffers
  others : ∀ c ∈ (r.acceptPiece piece now).2.buffers,
    c = (b.insert piece hend).2 ∨ (c ∈ r.buffers ∧ c.key ≠ piece.key)
  answer : ∀ data, (r.acceptPiece piece now).1 = .ok (some data) →
    (b.insert piece hend).1 = .ok () ∧ (b.insert piece hend).2.isComplete = true ∧
    ∃ total, (b.insert piece hend).2.total = some total ∧ total ≤ bytes ∧
      data = (b.insert piece hend).2.data.take total

theorem took_of_slot (hend : piece.stop ≤ bytes)
    (hslot : r.slotFor piece.key (now.saturatingAdd r.timeout) = (.ok index, r₁))
    (hindex : r₁.buffers[index]? = some b) (hkey : b.key = piece.key)
    (hdistinct : Distinct r₁.buffers)
    (hothers : ∀ c ∈ r₁.buffers, c.key ≠ piece.key → c ∈ r.buffers) : Took r piece now hend b := by
  obtain ⟨hafter, hanswer⟩ := acceptPiece_slot hend hslot hindex
  obtain ⟨hset, hmem, hall⟩ := hdistinct.set hindex (key_insert b piece hend)
  refine ⟨hafter ▸ hset, hafter ▸ hmem, fun c hc => ?_, fun data hdata => ?_⟩
  · rw [hafter] at hc
    refine (hall c hc).imp_right fun hc => ?_
    rw [hkey] at hc
    exact ⟨hothers c hc.1 hc.2, hc.2⟩
  · rw [hanswer] at hdata
    split at hdata
    · cases hdata
    next hok =>
    split at hdata
    case isFalse => cases hdata
    next hcomplete =>
    obtain ⟨total, htotal⟩ := Buffer.total_of_isComplete hcomplete
    rw [htotal, getD_some] at hdata
    split at hdata
    case isFalse => cases hdata
    next hfits => exact ⟨hok, hcomplete, total, htotal, hfits, by cases hdata; rfl⟩

/-- What taking a piece in does: nothing is put into a buffer, or the piece is put into the buffer
of its datagram, which is one that was there or a fresh one. -/
theorem acceptPiece_cases (h : Distinct r.buffers) (piece : Piece) (now : Instant) :
    (∃ error, (r.acceptPiece piece now).1 = .error error ∧
      (r.acceptPiece piece now).2.buffers.Sublist r.buffers ∧
      (r.holds piece.key = true → (r.acceptPiece piece now).2 = r)) ∨
    ∃ (hend : piece.stop ≤ bytes) (b : Buffer bytes), b.key = piece.key ∧
      (b ∈ r.buffers ∨ (r.holds piece.key = false ∧
        b = fresh piece.key (now.saturatingAdd r.timeout))) ∧ Took r piece now hend b := by
  by_cases hend : piece.stop ≤ bytes
  · obtain ⟨index, b, hslot, hindex, hkey⟩ | ⟨hnew, kept, hkept, ⟨error, hslot⟩ | hslot⟩ :=
      slotFor_spec r piece.key (now.saturatingAdd r.timeout)
    · exact .inr ⟨hend, b, hkey, .inl (List.mem_of_getElem? hindex),
        took_of_slot hend hslot hindex hkey h fun c hc _ => hc⟩
    · left
      refine ⟨error, ?_⟩
      unfold acceptPiece
      rw [dif_pos hend, hslot]
      exact ⟨rfl, hkept, fun hold => absurd (hold.symm.trans hnew) (by decide)⟩
    · refine .inr ⟨hend, fresh piece.key (now.saturatingAdd r.timeout), rfl, .inr ⟨hnew, rfl⟩,
        took_of_slot hend hslot List.getElem?_concat_length rfl ?_ fun c hc hne => ?_⟩
      · refine List.pairwise_append.mpr ⟨h.sublist hkept, List.pairwise_singleton _ _, ?_⟩
        intro c hc d hd hsame
        rw [List.mem_singleton.mp hd] at hsame
        exact absurd ((holds_of_mem (hkept.subset hc) hsame).symm.trans hnew) (by decide)
      · rcases List.mem_append.mp hc with hc | hc
        · exact hkept.subset hc
        · exact absurd (congrArg Buffer.key (List.mem_singleton.mp hc)) hne
  · left
    refine ⟨.tooLarge piece.stop, ?_⟩
    unfold acceptPiece
    rw [dif_neg hend]
    exact ⟨rfl, List.Sublist.refl _, fun _ => rfl⟩

end Reassembler

/-! ## Whole runs -/

inductive Call where
  | accept (piece : Piece) (now : Instant)
  | release (piece : Piece)
  | poll (now : Instant)

/-- A reassembler, with the pieces stored for every datagram since its buffer was made, and whether
a piece that conflicts with one of them has arrived since then. -/
structure History (slots bytes : Nat) where
  reassembler : Reassembler slots bytes
  stored : Key → List Piece
  spoiled : Key → Bool

namespace History

variable {slots bytes : Nat} {h : History slots bytes} {piece : Piece} {now : Instant}

def new (timeout : Duration) : History slots bytes :=
  ⟨.withTimeout timeout, fun _ => [], fun _ => false⟩

variable (h)

def pieces (key : Key) : List Piece :=
  if h.reassembler.holds key then h.stored key else []

/-- Whether the pieces in the buffer of a datagram were met by one that conflicts with them. -/
def marred (key : Key) : Bool :=
  h.reassembler.holds key && h.spoiled key

/-- One call. A piece is stored when its datagram has one range more than before. -/
def step : Call → History slots bytes
  | .accept piece now =>
    let after := (h.reassembler.acceptPiece piece now).2
    { reassembler := after
      stored := update h.stored piece.key
        (if (after.rangesOf piece.key).length = (h.reassembler.rangesOf piece.key).length + 1 then
          h.pieces piece.key ++ [piece]
        else h.pieces piece.key)
      spoiled := update h.spoiled piece.key
        (h.marred piece.key || (h.pieces piece.key).any (piece.conflicts ·)) }
  | .release piece => { h with reassembler := h.reassembler.releasePiece piece }
  | .poll now => { h with reassembler := h.reassembler.poll now }

def run (calls : List Call) : History slots bytes := calls.foldl step h

/-- The datagram of the piece has not been spoiled, and unless the piece meets one that is stored,
the stored ones agree with it about where the datagram ends. -/
def Clean : Call → Prop
  | .accept piece _ => h.marred piece.key = false ∧
      ((∀ q ∈ h.pieces piece.key, piece.touches q = false) → Agrees (h.pieces piece.key) piece)
  | _ => True

variable {h}

def CleanRun (h : History slots bytes) : List Call → Prop
  | [] => True
  | call :: rest => h.Clean call ∧ (h.step call).CleanRun rest

instance (h : History slots bytes) : (call : Call) → Decidable (h.Clean call)
  | .accept _ _ => inferInstanceAs (Decidable (_ ∧ _))
  | .release _ => isTrue trivial
  | .poll _ => isTrue trivial

instance decidableCleanRun :
    (h : History slots bytes) → (calls : List Call) → Decidable (h.CleanRun calls)
  | _, [] => isTrue trivial
  | h, call :: rest =>
    have := decidableCleanRun (h.step call) rest
    inferInstanceAs (Decidable (_ ∧ _))

/-- Every datagram has one buffer, which knows the pieces stored in it unless it is spoiled. -/
structure Sound (h : History slots bytes) : Prop where
  distinct : Reassembler.Distinct h.reassembler.buffers
  keeps : ∀ b ∈ h.reassembler.buffers, h.spoiled b.key = false → Keeps b (h.stored b.key)

theorem sound_new (timeout : Duration) : (new timeout : History slots bytes).Sound :=
  ⟨.nil, nofun⟩

section

variable (hsound : h.Sound)
include hsound

theorem Sound.sublist {r : Reassembler slots bytes}
    (hsub : r.buffers.Sublist h.reassembler.buffers) : { h with reassembler := r }.Sound :=
  ⟨hsound.distinct.sublist hsub, fun b hb => hsound.keeps b (hsub.subset hb)⟩

/-- One piece: what is known stays known, and an answer is made up of the pieces stored. -/
theorem Sound.accept (hclean : h.Clean (.accept piece now)) :
    (h.step (.accept piece now)).Sound ∧
    ∀ data, (h.reassembler.acceptPiece piece now).1 = .ok (some data) →
      Assembled ((h.step (.accept piece now)).stored piece.key) data ∧
      (h.step (.accept piece now)).spoiled piece.key = false := by
  obtain ⟨hmarred, hagrees⟩ := hclean
  obtain ⟨error, herror, hsub, hsame⟩ | ⟨hend, b, hkey, hwhere, hdistinct, hmem, hall, hanswer⟩ :=
    acceptPiece_cases hsound.distinct piece now
  · refine ⟨⟨hsound.distinct.sublist hsub, fun c hc hspoiled => ?_⟩, fun data hdata => ?_⟩
    · have hold := hsub.subset hc
      unfold step at hspoiled ⊢
      dsimp only at hspoiled ⊢
      by_cases heq : c.key = piece.key
      · have hholds := holds_of_mem hold heq
        rw [heq, update_self] at hspoiled ⊢
        rw [hsame hholds, if_neg (by omega)]
        rw [Bool.or_eq_false_iff] at hspoiled
        unfold marred at hspoiled
        unfold pieces
        rw [hholds, Bool.true_and] at hspoiled
        rw [if_pos hholds, ← heq]
        exact hsound.keeps c hold (heq ▸ hspoiled.1)
      · rw [update_of_ne heq] at hspoiled ⊢
        exact hsound.keeps c hold hspoiled
    · rw [herror] at hdata
      cases hdata
  · -- what the buffer knew before the piece was put in
    obtain ⟨hkeeps, hbefore⟩ : Keeps b (h.pieces piece.key) ∧
        h.reassembler.rangesOf piece.key = b.filled := by
      rcases hwhere with hold | ⟨hnew, rfl⟩
      · have hholds := holds_of_mem hold hkey
        unfold marred at hmarred
        rw [hholds, Bool.true_and] at hmarred
        unfold pieces
        rw [if_pos hholds]
        exact ⟨hkey ▸ hsound.keeps b hold (hkey ▸ hmarred), rangesOf_mem hsound.distinct hold hkey⟩
      · unfold pieces
        rw [hnew]
        exact ⟨keeps_fresh _ _, rangesOf_not_holds hnew⟩
    have hafter := rangesOf_mem hdistinct hmem
      ((key_insert b piece hend).trans hkey)
    -- unless the piece conflicts with a stored one, the buffer knows the pieces after it
    have hknows : (h.step (.accept piece now)).spoiled piece.key = false →
        Keeps (b.insert piece hend).2 ((h.step (.accept piece now)).stored piece.key) := by
      intro hspoiled
      unfold step at hspoiled ⊢
      dsimp only at hspoiled ⊢
      rw [update_self] at hspoiled ⊢
      rw [Bool.or_eq_false_iff] at hspoiled
      rw [hafter, hbefore]
      obtain ⟨hinsert, -⟩ | ⟨-, q, hq, hconflict⟩ | ⟨hapart, hdata, -, ⟨-, -, hfilled, htotal⟩ |
        ⟨-, -, hfilled, htotal⟩⟩ := insert_cases hkeeps hend
      · rw [hinsert, if_neg (by simp)]
        exact hkeeps
      · have hnone := List.any_eq_false.mp hspoiled.2 q hq
        exact absurd hconflict hnone
      · rw [if_pos (by rw [hfilled]; simp)]
        exact hkeeps.added hend hapart (hagrees hapart) hdata hfilled htotal
      · rw [if_neg (by rw [hfilled]; omega)]
        exact hkeeps.unstored hend hapart hdata hfilled htotal
    refine ⟨⟨hdistinct, fun c hc hspoiled => ?_⟩, fun data hdata => ?_⟩
    · rcases hall c hc with rfl | ⟨hold, hne⟩
      · rw [key_insert, hkey] at hspoiled ⊢
        exact hknows hspoiled
      · unfold step at hspoiled ⊢
        dsimp only at hspoiled ⊢
        rw [update_of_ne hne] at hspoiled ⊢
        exact hsound.keeps c hold hspoiled
    · obtain ⟨hok, hcomplete, total, htotal, hfits, rfl⟩ := hanswer data hdata
      have hspoiled : (h.step (.accept piece now)).spoiled piece.key = false := by
        unfold step
        dsimp only
        rw [update_self, hmarred, Bool.false_or, List.any_eq_false]
        intro q hq
        rw [Bool.not_eq_true]
        obtain ⟨-, -, hnone⟩ | ⟨hinsert, -⟩ | ⟨hapart, -⟩ := insert_cases hkeeps hend
        · exact hnone q hq
        · rw [hinsert] at hok
          cases hok
        · exact conflicts_of_touches (hapart q hq)
      exact ⟨(hknows hspoiled).assembled htotal hfits hcomplete, hspoiled⟩

theorem sound_step (call : Call) (hclean : h.Clean call) : (h.step call).Sound := by
  cases call with
  | accept piece now => exact (hsound.accept hclean).1
  | release piece =>
    refine hsound.sublist ?_
    unfold releasePiece
    split
    · exact List.eraseIdx_sublist _ _
    · exact List.Sublist.refl _
  | poll now => exact hsound.sublist List.filter_sublist

theorem sound_run (calls : List Call) (hclean : h.CleanRun calls) : (h.run calls).Sound := by
  induction calls generalizing h with
  | nil => exact hsound
  | cons call rest ih => exact ih (sound_step hsound call hclean.1) hclean.2

end

theorem cleanRun_append (calls : List Call) (call : Call) :
    h.CleanRun (calls ++ [call]) → h.CleanRun calls ∧ (h.run calls).Clean call := by
  induction calls generalizing h with
  | nil => exact fun hclean => ⟨trivial, hclean.1⟩
  | cons first rest ih =>
    intro hclean
    obtain ⟨hrest, hlast⟩ := ih hclean.2
    exact ⟨⟨hclean.1, hrest⟩, hlast⟩

/-- In every run of pieces, releases and polls in which no piece of a datagram follows a conflict
before its buffer is gone, and every piece agrees with the stored ones about where the datagram
ends: an answer is made up of exactly the pieces stored since the buffer was made, and none of them
was there when a piece conflicted. -/
theorem answers_assembled (timeout : Duration) (calls : List Call) (piece : Piece) (now : Instant)
    (hclean : (new timeout : History slots bytes).CleanRun (calls ++ [.accept piece now]))
    (data : List Byte)
    (hanswer : (((new timeout : History slots bytes).run calls).reassembler.acceptPiece
      piece now).1 = .ok (some data)) :
    Assembled (((new timeout : History slots bytes).run
      (calls ++ [.accept piece now])).stored piece.key) data ∧
    ((new timeout : History slots bytes).run
      (calls ++ [.accept piece now])).spoiled piece.key = false := by
  obtain ⟨hbefore, hlast⟩ := cleanRun_append calls _ hclean
  have hsound := sound_run (sound_new timeout) calls hbefore
  have hrun : (new timeout : History slots bytes).run (calls ++ [.accept piece now]) =
      ((new timeout : History slots bytes).run calls).step (.accept piece now) := by
    unfold run
    rw [List.foldl_append]
    rfl
  rw [hrun]
  exact (hsound.accept hlast).2 data hanswer

/-- Two hosts, and the datagram between them that the pieces below belong to. -/
def pieceAt (offset : Nat) (more : Bool) (payload : List Byte) : Piece :=
  ⟨.v4 1, .v4 2, 17, 5, offset, more, payload⟩

theorem answers_assembled_two_pieces :
    Assembled [pieceAt 8 false [9], pieceAt 0 true [1, 2, 3, 4, 5, 6, 7, 8]]
      [1, 2, 3, 4, 5, 6, 7, 8, 9] :=
  (@answers_assembled 1 16 60 [.accept (pieceAt 8 false [9]) 0]
    (pieceAt 0 true [1, 2, 3, 4, 5, 6, 7, 8]) 1 (by decide +kernel)
    [1, 2, 3, 4, 5, 6, 7, 8, 9] (by decide +kernel)).1

/-- A first piece, one that overlaps it with other contents and is refused, and the last piece: the
datagram is answered with the first piece in it. And a piece behind the last one: eight bytes are
answered although a stored piece ends at sixteen. -/
theorem overlap_answered :
    let first := pieceAt 0 true [1, 2, 3, 4, 5, 6, 7, 8]
    let other := pieceAt 0 true [1, 2, 3, 4, 5, 6, 7, 0]
    let last := pieceAt 8 false [9]
    let h := (new 60 : History 1 16).run [.accept first 0, .accept other 1]
    (((new 60 : History 1 16).run [.accept first 0]).reassembler.acceptPiece other 1).1 =
      .error .overlappingFragment ∧
    other.conflicts first = true ∧
    (h.reassembler.acceptPiece last 2).1 = .ok (some [1, 2, 3, 4, 5, 6, 7, 8, 9]) ∧
    (h.step (.accept last 2)).stored last.key = [first, last] ∧
    (((new 60 : History 1 16).run [.accept (pieceAt 8 true [1, 1, 1, 1, 1, 1, 1, 1]) 0]).reassembler
      |>.acceptPiece (pieceAt 0 false [1, 2, 3, 4, 5, 6, 7, 8]) 1).1 =
      .ok (some [1, 2, 3, 4, 5, 6, 7, 8]) := by
  decide +kernel

end History

end Audhsos.Ip
