import Audhsos.Tcp.Receiving

/-!
The window announced to the peer. Its far edge is the next number expected and the room of the
receive buffer, as far as sixteen bits tell it; reading moves it on, and text moves the next number
towards it. What the peer sends inside the edge finds room.
-/

namespace Audhsos.Tcp.Connection

open SeqNumber Flags RecvBuffer State True Config

variable {c c' : Connection} {segment : Segment} {now : Instant} {count edge : Nat}

/-! ## The invariant -/

/-- What a segment can announce of the room in the receive buffer. -/
def room (c : Connection) : Nat := min c.recv.window 65535

/-- Where the edge stands: `count` bytes were accepted in order, and `edge` of them and of those
behind them were announced last. -/
structure Edged (c : Connection) (count edge : Nat) : Prop where
  held : c.recv.ready ≤ count
  settled : c.Settled
  opening : c.state.isOpening = true → edge = 0
  begun : c.state.begun = true →
    ∃ e, c.rcvEdge = fromBase c.irs (1 + e) ∧ edge ≤ e ∧ e ≤ count + c.room

section

variable (h : c.Edged count edge)
include h

theorem Edged.follows (hfollows : Follows c c') : c'.Edged count edge := by
  have hrecv := hfollows.recv
  refine ⟨hrecv ▸ h.held, hfollows.settled h.settled,
    fun hopening => h.opening (hfollows.opening hopening), fun hbegun => ?_⟩
  obtain ⟨e, hedge, hle, hroom⟩ := h.begun (hfollows.begun hbegun)
  refine ⟨e, ?_, hle, ?_⟩
  · rw [hfollows.edge, hfollows.irs, hedge]
  · unfold room at hroom ⊢
    rw [hrecv]
    exact hroom

theorem Edged.consume (n : Nat) :
    Connection.Edged { c with recv := c.recv.consume n } count edge := by
  have hheld := h.held
  have hready : (c.recv.consume n).ready ≤ c.recv.ready := Nat.sub_le _ _
  refine ⟨le_trans hready hheld, h.settled, h.opening, fun hbegun => ?_⟩
  obtain ⟨e, hedge, hle, hroom⟩ := h.begun hbegun
  refine ⟨e, hedge, hle, le_trans hroom ?_⟩
  unfold room window
  have hcapacity : (c.recv.consume n).ring.capacity = c.recv.ring.capacity := rfl
  dsimp only
  omega

/-! ## Segments that arrive -/

theorem Edged.withText (hcounts : c.Counts count)
    (hshaped : c.recv.Shaped) (hsmall : c.recv.ring.capacity < 2 ^ 32) (segment : Segment) :
    (c.withText segment).Edged (count + c.grown (c.withText segment)) edge := by
  obtain ⟨-, hshaped', hcapacity, hle⟩ := counts_withText hcounts hshaped hsmall segment
  have hheld := h.held
  unfold grown
  refine ⟨by omega, h.settled, h.opening, fun hbegun => ?_⟩
  obtain ⟨e, hedge, hedge_le, hroom⟩ := h.begun hbegun
  refine ⟨e, hedge, hedge_le, le_trans hroom ?_⟩
  unfold room window
  omega

theorem edged_opened (hopening : c.state.isOpening = true)
    (hfixed : c'.recv = c.recv) (hirs : c'.irs = segment.seq)
    (hedge : c'.rcvEdge = segment.seq.add 1)
    (hstate : c'.state = .synReceived ∨ c'.state = .established) :
    c'.Edged (count + c.grown c') edge := by
  have hgrown : c.grown c' = 0 := by
    unfold grown
    rw [hfixed, tsub_self]
  rw [hgrown]
  have hzero := h.opening hopening
  refine ⟨hfixed ▸ h.held, ?_, fun _ => hzero, fun _ => ⟨0, ?_, by omega, Nat.zero_le _⟩⟩
  · unfold Settled
    rcases hstate with hstate | hstate <;> rw [hstate] <;> exact nofun
  · rw [hedge, hirs]
    rfl

end

theorem edged_taken (hexpects : c.Expects count) (h : c.Edged count edge)
    (hbegun : c.state.begun = true) :
    let taken := ((c.checkAck segment now).2.updateWindow segment).acceptText segment
      c.recv.window now |>.checkFin segment now
    taken.peerFinished = true ∨ taken.Edged (count + c.grown taken) edge := by
  dsimp only
  have hwindow := (follows_checkAck c segment now).trans (follows_updateWindow _ segment)
  generalize (c.checkAck segment now).2.updateWindow segment = c₁ at hwindow ⊢
  have hcounts : c₁.Counts count := (hexpects.begun hbegun).congr hwindow.fixed
  have hfirst : c₁.Edged count edge := h.follows hwindow
  have htext : (c₁.acceptText segment c.recv.window now).Edged
      (count + c.grown (c₁.acceptText segment c.recv.window now)) edge := by
    obtain ⟨-, heq⟩ | ⟨-, -, hfollows, -⟩ := acceptText_cases c₁ segment c.recv.window now
    · rw [heq, grown_of_follows hwindow]
      exact hfirst
    have hafter := (hfirst.withText hcounts (hwindow.recv ▸ hexpects.shaped)
      (by rw [hwindow.recv]; exact hexpects.small) segment).follows hfollows
    unfold grown at hafter ⊢
    rw [hfollows.recv]
    rwa [hwindow.recv] at hafter
  generalize c₁.acceptText segment c.recv.window now = c₂ at htext ⊢
  obtain ⟨-, heq⟩ | ⟨-, hfollows, -⟩ := checkFin_cases c₂ segment now
  · rw [heq]
    exact .inr htext
  · exact .inl hfollows.peerFinished

theorem edged_onSegment (hexpects : c.Expects count) (h : c.Edged count edge) (source : IpAddr)
    (segment : Segment) (now : Instant) :
    let c' := c.onSegment source segment now
    c'.peerFinished = true ∨ c'.Edged (count + c.grown c') edge := by
  dsimp only
  obtain hfollows | ⟨hopening, hfixed, hedge, hstate⟩ | ⟨hbegun, -, heq⟩ :=
    onSegment_cases c source segment now
  · rw [grown_of_follows hfollows]
    exact .inr (h.follows hfollows)
  · exact .inr (edged_opened h hopening (congrArg Fixed.recv hfixed) (congrArg Fixed.irs hfixed)
      hedge hstate)
  · rw [heq]
    exact edged_taken hexpects h hbegun

/-! ## Segments that are sent -/

theorem advertise_spec (c : Connection) (count e : Nat)
    (hcounts : c.rcvNxt = fromBase c.irs (1 + count))
    (hedge : c.rcvEdge = fromBase c.irs (1 + e)) (hroom : e ≤ count + c.room)
    (hsteady : count < e + 2 ^ 31) (hsmall : c.recv.ring.capacity < 2 ^ 32) :
    c.advertise.1.toNat = c.room ∧
    c.advertise.2.rcvEdge = fromBase c.irs (1 + (count + c.room)) := by
  have hwindow : min (toU32 c.recv.window u32Max) 65535 = c.room := by
    have hle : c.recv.window ≤ u32Max := by
      unfold window u32Max
      omega
    unfold toU32
    rw [if_pos hle]
    rfl
  have hfar : c.rcvNxt.add c.room = fromBase c.irs (1 + (count + c.room)) := by
    rw [hcounts, add_fromBase, add_assoc]
  -- the edge as it was, or the next number expected if that has passed it
  have hpassed : (if c.rcvEdge.before c.rcvNxt then c.rcvNxt else c.rcvEdge) =
      fromBase c.irs (1 + max e count) := by
    rw [hedge, hcounts, before_fromBase _ (by omega) (by omega)]
    by_cases hlt : e < count
    · rw [if_pos (by simpa using hlt), Nat.max_eq_right (by omega)]
    · rw [if_neg (by simpa using hlt), Nat.max_eq_left (by omega)]
  have hmoved : (if (c.rcvNxt.add c.room).after (fromBase c.irs (1 + max e count)) ||
      !c.state.isSynchronized then c.rcvNxt.add c.room else fromBase c.irs (1 + max e count)) =
      fromBase c.irs (1 + (count + c.room)) := by
    split
    · exact hfar
    next hstays =>
      rw [Bool.or_eq_true, not_or, hfar] at hstays
      unfold SeqNumber.after at hstays
      rw [before_fromBase _ (by omega) (by omega), decide_eq_true_eq] at hstays
      congr 1
      omega
  unfold advertise
  dsimp only
  rw [hwindow, hpassed, hmoved]
  refine ⟨?_, rfl⟩
  rw [hcounts, distanceFrom_fromBase _ (by omega) (by omega), BitVec.toNat_ofNat]
  omega

theorem outgoing_announces (c : Connection) (plan : Plan) (window : BitVec 16)
    (h : (c.outgoing plan window).segment.flags.has rst = false) :
    (c.outgoing plan window).segment.ack = c.rcvNxt ∧
    (c.outgoing plan window).segment.window = window := by
  cases plan with
  | reset dest seq ack =>
    cases ack with
    | none => exact absurd h (show ¬ rst.has rst = false by decide)
    | some => exact absurd h (show ¬ (rst.with_ ack).has rst = false by decide)
  | syn | data | fin | probe | ack => exact ⟨rfl, rfl⟩

theorem poll_announces (hexpects : c.Expects count) (h : c.Edged count edge)
    (hbegun : c.state.begun = true) (hfin : c.peerFinished = false)
    (hsteady : count < edge + 2 ^ 31) (now : Instant) :
    ((c.poll now).2.rcvEdge = c.rcvEdge ∨
      (c.poll now).2.rcvEdge = fromBase c.irs (1 + (count + c.room))) ∧
    ∀ segment, (c.poll now).1 = some segment → segment.flags.has rst = false →
      segment.ack = c.rcvNxt ∧ segment.window.toNat = c.room ∧
      (c.poll now).2.rcvEdge = fromBase c.irs (1 + (count + c.room)) := by
  obtain ⟨e, hedge, hle, hroom⟩ := h.begun hbegun
  have hcounts := hexpects.begun hbegun
  unfold Counts at hcounts
  rw [hfin] at hcounts
  have hdecide := follows_decide c now
  unfold poll
  rcases hd : c.decide now with ⟨plan | plan, c₁⟩
  · rw [hd] at hdecide
    exact ⟨.inl hdecide.edge, nofun⟩
  rw [hd] at hdecide
  have hrecv : c₁.recv = c.recv := hdecide.recv
  have hsame : c₁.room = c.room := by
    unfold room
    rw [hrecv]
  obtain ⟨hwindow, hmoved⟩ := advertise_spec c₁ count e
    (by rw [hdecide.rcvNxt, hdecide.irs]; exact hcounts)
    (by rw [hdecide.edge, hdecide.irs, hedge]) (by rw [hsame]; exact hroom) (by omega)
    (by rw [hrecv]; exact hexpects.small)
  rw [hdecide.irs, hsame] at hmoved
  rw [hsame] at hwindow
  have hafter : (c₁.transmit plan now).2.rcvEdge = fromBase c.irs (1 + (count + c.room)) :=
    (transmit_follows c₁ plan now).edge.trans hmoved
  refine ⟨.inr hafter, fun segment hsegment hreset => ?_⟩
  dsimp only at hsegment ⊢
  rcases transmit_cases c₁ plan now with heq | heq
  · rw [heq] at hsegment
    cases hsegment
  rw [heq] at hsegment
  cases hsegment
  obtain ⟨hack, htells⟩ := outgoing_announces _ _ _ hreset
  refine ⟨hack.trans hdecide.rcvNxt, ?_, hafter⟩
  rw [htells]
  exact hwindow

/-! ## Bytes inside the edge -/

theorem sub_fromBase (number : SeqNumber) (b r : Nat) :
    number.sub b = fromBase (number.sub (b + r)) r := by
  unfold SeqNumber.sub fromBase
  rw [BitVec.ofNat_add]
  ring

section

variable (c : Connection) (segment : Segment)

/-- Where the text of a segment goes that starts `b` bytes before the next number expected. -/
theorem text_place (b : Nat) (hb : b < 2 ^ 31)
    (hseq : segment.seq = c.rcvNxt.sub b) (hready : c.recv.ready < 2 ^ 31) :
    c.textOffset segment = c.recv.ready - b ∧
    c.textData segment = segment.payload.drop (b - c.recv.ready) := by
  have hbase : c.receiveBase = fromBase (c.rcvNxt.sub (b + c.recv.ready)) b := by
    unfold receiveBase toU32 u32Max
    rw [if_pos (by omega), add_comm]
    exact sub_fromBase c.rcvNxt c.recv.ready b
  have hstart : segment.seq = fromBase (c.rcvNxt.sub (b + c.recv.ready)) c.recv.ready := by
    rw [hseq]
    exact sub_fromBase c.rcvNxt b c.recv.ready
  unfold textOffset textData
  rw [hbase, hstart, before_fromBase _ (by omega) (by omega)]
  by_cases hlt : c.recv.ready < b
  · rw [if_pos (by simpa using hlt), if_pos (by simpa using hlt),
      distanceFrom_fromBase _ (by omega) (by omega)]
    exact ⟨by omega, rfl⟩
  · rw [if_neg (by simpa using hlt), if_neg (by simpa using hlt),
      distanceFrom_fromBase _ (by omega) (by omega)]
    have hzero : b - c.recv.ready = 0 := by omega
    rw [hzero]
    exact ⟨rfl, rfl⟩

/-- A segment with the byte expected next is acceptable when it starts with that byte, or ends
inside the window. -/
theorem acceptable_of_inside (b window : Nat)
    (hb : b < 2 ^ 31) (hseq : segment.seq = c.rcvNxt.sub b) (hlen : b < segment.payload.length)
    (hwindow : 0 < window) (hwhole : b = 0 ∨ segment.sequenceLen ≤ window + b) :
    isAcceptable segment.seq segment.sequenceLen c.rcvNxt window = true := by
  have hpos : b < segment.sequenceLen ∧ segment.sequenceLen < 2 ^ 32 := by
    unfold Segment.sequenceLen sat32 toU32 u32Max
    split <;> omega
  obtain ⟨last, hlast⟩ : ∃ last, segment.sequenceLen = last + 1 :=
    ⟨segment.sequenceLen - 1, by omega⟩
  obtain ⟨w, rfl⟩ : ∃ w, window = w + 1 := ⟨window - 1, by omega⟩
  rw [hlast]
  change (isInWindow segment.seq c.rcvNxt (w + 1) ||
    isInWindow (segment.seq.add last) c.rcvNxt (w + 1)) = true
  have hnext : c.rcvNxt = fromBase (c.rcvNxt.sub b) b := by
    have hsub := sub_fromBase c.rcvNxt 0 b
    rw [zero_add] at hsub
    rw [← hsub]
    exact (BitVec.sub_zero _).symm
  have hend : ∀ k, segment.seq.add k = fromBase (c.rcvNxt.sub b) k := by
    intro k
    rw [hseq]
    rfl
  have hfirst := hend 0
  generalize c.rcvNxt.sub b = base at hnext hend hfirst
  rw [Bool.or_eq_true]
  unfold isInWindow
  rw [decide_eq_true_eq, decide_eq_true_eq]
  rcases hwhole with rfl | hwhole
  · left
    have hzero : segment.seq = fromBase base 0 := by
      rw [← hfirst]
      exact (BitVec.add_zero _).symm
    rw [hzero, hnext, distanceFrom_fromBase _ (by omega) (by omega)]
    omega
  · right
    rw [hend, hnext, distanceFrom_fromBase _ (by omega) (by omega)]
    omega

end

theorem canReceive_checkAck (hstate : c.state.canReceive = true) (segment : Segment)
    (now : Instant) : (c.checkAck segment now).2.state.canReceive = true := by
  have hsyn : c.state ≠ .synReceived := by
    intro h
    rw [h] at hstate
    cases hstate
  have hadvance : ∀ c₁ : Connection, c₁.state.canReceive = true →
      (c₁.advanceAfterAck now).state.canReceive = true := by
    intro c₁ h
    unfold advanceAfterAck
    split
    · split
      · rfl
      next hclosing =>
        rw [hclosing] at h
        cases h
      next hlast =>
        rw [hlast] at h
        cases h
      · exact h
    · exact h
  unfold checkAck
  dsimp only
  rw [if_neg fun h => hsyn h.1, if_neg hsyn]
  split
  · exact hstate
  split
  · rw [onNewAck_eq]
    refine hadvance _ ?_
    rw [(numbers_acked c segment.ack now).2]
    exact hstate
  split
  · unfold onDuplicateAck
    dsimp only
    split <;> exact hstate
  · exact hstate

theorem checkAck_accepts (hsyn : c.state ≠ .synReceived)
    (hack : segment.ack.after c.sndMax = false) : (c.checkAck segment now).1 = true := by
  unfold checkAck
  dsimp only
  rw [if_neg fun h => hsyn h.1, if_neg hsyn, if_neg (by rw [hack]; decide)]
  split
  · rfl
  split <;> rfl

/-- The segment is one that a receiver takes text from. -/
structure CarriesText (c : Connection) (segment : Segment) : Prop where
  ack : segment.flags.has ack = true
  rst : segment.flags.has rst = false
  syn : segment.flags.has syn = false
  /-- It acknowledges nothing that was not sent. -/
  sent : segment.ack.after c.sndMax = false

theorem onSegment_taken (hstate : c.state.canReceive = true) (source : IpAddr)
    (hcarries : c.CarriesText segment)
    (haccept : isAcceptable segment.seq segment.sequenceLen c.rcvNxt
      (toU32 c.recv.window u32Max) = true) :
    c.onSegment source segment now =
      ((((c.checkAck segment now).2.updateWindow segment).acceptText segment c.recv.window
        now).checkFin segment now) := by
  have hopen : c.onSegment source segment now = c.onSegmentOpen segment now := by
    unfold onSegment
    revert hstate
    cases c.state <;> simp [canReceive]
  have hsyn : c.state ≠ .synReceived := by
    intro h
    rw [h] at hstate
    cases hstate
  rw [hopen]
  unfold onSegmentOpen
  dsimp only
  rw [if_neg fun h => hsyn h.1, if_neg (by simp [haccept]), if_neg (by simp [hcarries.rst]),
    if_neg (by simp [hcarries.syn]), if_neg (by simp [hcarries.ack]),
    if_pos (checkAck_accepts hsyn hcarries.sent)]

/-- A byte inside the edge that arrives with the byte expected next, or behind it in one segment,
is in the run of the receive buffer afterwards. -/
theorem stored_onSegment (hexpects : c.Expects count) (h : c.Edged count edge)
    (hstate : c.state.canReceive = true) (hcapacity : c.recv.ring.capacity < 2 ^ 31)
    (source : IpAddr) (hcarries : c.CarriesText segment) (b : Nat) (hb : b < 2 ^ 31)
    (hseq : segment.seq = c.rcvNxt.sub b)
    (hwhole : b = 0 ∨ count + segment.sequenceLen ≤ edge + b) (i : Nat) (hi : b ≤ i)
    (hlen : i < segment.payload.length) (hinside : count + (i - b) < edge) :
    c.recv.ready + (i - b) < (c.onSegment source segment now).recv.ready ∧
    (c.onSegment source segment now).recv.byteAt (c.recv.ready + (i - b)) =
      segment.payload.getD i 0 := by
  have hshaped := hexpects.shaped
  have hbegun : c.state.begun = true := begun_of_canReceive hstate
  obtain ⟨e, -, hedge, hroom⟩ := h.begun hbegun
  have hwindow : edge ≤ count + c.recv.window := by
    have hle : c.room ≤ c.recv.window := Nat.min_le_left _ _
    omega
  have hplace : c.recv.ready + (i - b) < c.recv.ring.capacity := by
    unfold window at hwindow
    omega
  have hfits : toU32 c.recv.window u32Max = c.recv.window := by
    unfold toU32 u32Max window
    rw [if_pos (by omega)]
  rw [onSegment_taken hstate source hcarries (by
    rw [hfits]
    exact acceptable_of_inside c segment b _ hb hseq (by omega) (by omega) (by omega))]
  have hfollows := (follows_checkAck c segment now).trans (follows_updateWindow _ segment)
  have hreceives : ((c.checkAck segment now).2.updateWindow segment).state.canReceive = true := by
    rw [(same_updateWindow _ segment).2]
    exact canReceive_checkAck hstate segment now
  generalize (c.checkAck segment now).2.updateWindow segment = c₁ at hfollows hreceives ⊢
  have hrecv := hfollows.recv
  -- the text goes to the end of the run, or overlaps it
  have htext : (c₁.acceptText segment c.recv.window now).recv =
      c.recv.accept (c.recv.ready - b) (segment.payload.drop (b - c.recv.ready)) := by
    obtain ⟨hskip, -⟩ | ⟨-, -, htaken, -⟩ := acceptText_cases c₁ segment c.recv.window now
    · rcases hskip with hnil | hnone
      · rw [hnil] at hlen
        exact absurd hlen (Nat.not_lt_zero i)
      · rw [hreceives] at hnone
        cases hnone
    · obtain ⟨hoffset, hdata⟩ := text_place c₁ segment b hb (by rw [hfollows.rcvNxt, hseq])
        (by rw [hrecv]; omega)
      rw [htaken.recv]
      unfold withText
      dsimp only
      rw [hoffset, hdata, hrecv]
  generalize c₁.acceptText segment c.recv.window now = c₂ at htext ⊢
  have hfin : (c₂.checkFin segment now).recv = c₂.recv := by
    obtain ⟨-, heq⟩ | ⟨-, htaken, -⟩ := checkFin_cases c₂ segment now
    · rw [heq]
    · exact htaken.recv
  rw [hfin, htext]
  have hoffset : c.recv.ready - b < c.recv.ring.capacity := by omega
  have haccepted := hshaped.accept hoffset (segment.payload.drop (b - c.recv.ready))
  have hstop : c.recv.ready + (i - b) <
      c.recv.stopOf (c.recv.ready - b) (segment.payload.drop (b - c.recv.ready)) := by
    unfold stopOf
    rw [List.length_drop]
    omega
  refine ⟨lt_of_lt_of_le hstop (haccepted.taken (Nat.sub_le _ _)), ?_⟩
  rw [haccepted.byte _ hplace, if_pos ⟨by omega, hstop⟩]
  rw [List.getD_eq_getElem?_getD, List.getD_eq_getElem?_getD, List.getElem?_drop]
  congr 2
  omega

/-! ## Runs -/

theorem capacity_accept (buffer : RecvBuffer) (offset : Nat) (data : List Byte) :
    (buffer.accept offset data).ring.capacity = buffer.ring.capacity := by
  rw [accept_eq]
  split
  · rfl
  split <;> exact capacity_written buffer offset data

/-- The size of the receive buffer stays, and the closing number of the peer is not forgotten. -/
structure Retains (c c' : Connection) : Prop where
  capacity : c'.recv.ring.capacity = c.recv.ring.capacity
  finished : c.peerFinished = true → c'.peerFinished = true

theorem Follows.retains (h : Follows c c') : Retains c c' :=
  ⟨by rw [h.recv], fun hfin => h.peerFinished.trans hfin⟩

theorem Retains.trans {c'' : Connection} (h : Retains c c') (h' : Retains c' c'') : Retains c c'' :=
  ⟨h'.capacity.trans h.capacity, fun hfin => h'.finished (h.finished hfin)⟩

variable (c)

theorem retains_taken (segment : Segment) (windowBefore : Nat) (now : Instant) :
    Retains c ((c.acceptText segment windowBefore now).checkFin segment now) := by
  have htext : Retains c (c.acceptText segment windowBefore now) := by
    obtain ⟨-, hsame⟩ | ⟨-, -, hfollows, -⟩ := acceptText_cases c segment windowBefore now
    · rw [hsame]
      exact (Follows.refl c).retains
    · have hwritten : Retains c (c.withText segment) := ⟨capacity_accept _ _ _, id⟩
      exact hwritten.trans hfollows.retains
  generalize c.acceptText segment windowBefore now = c₁ at htext ⊢
  obtain ⟨-, hsame⟩ | ⟨-, hfollows, -⟩ := checkFin_cases c₁ segment now
  · rw [hsame]
    exact htext
  · have hfin : Retains c₁ c₁.withFin := ⟨rfl, fun _ => rfl⟩
    exact htext.trans (hfin.trans hfollows.retains)

theorem retains_onSegment (source : IpAddr) (segment : Segment) (now : Instant) :
    Retains c (c.onSegment source segment now) := by
  obtain hfollows | ⟨-, hfixed, -⟩ | ⟨-, -, heq⟩ := onSegment_cases c source segment now
  · exact hfollows.retains
  · have hrecv : (c.onSegment source segment now).recv = c.recv := congrArg Fixed.recv hfixed
    exact ⟨by rw [hrecv], (congrArg Fixed.peerFinished hfixed).trans⟩
  · rw [heq]
    have hwindow := (follows_checkAck c segment now).trans (follows_updateWindow _ segment)
    exact hwindow.retains.trans (retains_taken _ segment c.recv.window now)

theorem retains_event (event : Event) (hopens : ¬ event.Opens) : Retains c (event.apply c) := by
  cases event with
  | listen | connect => exact absurd intro hopens
  | write data => exact (follows_write c data).retains
  | read n =>
    refine ⟨?_, id⟩
    change (c.recv.read n).2.ring.capacity = _
    rw [read_snd]
    rfl
  | consume n => exact ⟨rfl, id⟩
  | close => exact (follows_close c).retains
  | abort => exact (follows_abort c).retains
  | arrive source segment now => exact retains_onSegment c source segment now
  | poll now =>
    have hretains := (follows_poll c now).retains
    exact ⟨hretains.capacity, hretains.finished⟩

variable {c}

/-- A connection with the number of bytes accepted in order and the edge announced last. -/
structure Announced where
  conn : Connection
  count : Nat
  edge : Nat

namespace Announced

variable {s : Announced}

variable (s)

/-- The edge after a segment was sent; a reset announces none. -/
def said : Option Segment → Nat
  | some segment =>
    if s.conn.state.begun = true ∧ segment.flags.has rst = false then
      s.count + segment.window.toNat
    else s.edge
  | none => s.edge

def step (event : Event) : Announced where
  conn := event.apply s.conn
  count := s.count + event.accepted s.conn
  edge := match event with
    | .poll now => s.said (s.conn.poll now).1
    | _ => s.edge

def run (events : List Event) : Announced := events.foldl step s

variable {s}

/-- The connection is not opened again, and less than half a circle of bytes is accepted between
two announcements. -/
def SteadyRun : Announced → List Event → Prop
  | s, [] => s.count < s.edge + 2 ^ 31
  | s, event :: events =>
    s.count < s.edge + 2 ^ 31 ∧ ¬ event.Opens ∧ SteadyRun (s.step event) events

/-- The peer has closed its stream, or the numbers and the edge stand as they should. -/
def Known (s : Announced) : Prop :=
  s.conn.peerFinished = true ∨
    s.conn.Expects s.count ∧ s.conn.Edged s.count s.edge

theorem edged_poll (hexpects : s.conn.Expects s.count) (h : s.conn.Edged s.count s.edge)
    (hfin : s.conn.peerFinished = false) (hsteady : s.count < s.edge + 2 ^ 31) (now : Instant) :
    (s.conn.poll now).2.Edged s.count (s.said (s.conn.poll now).1) := by
  have hfollows := follows_poll s.conn now
  have hafter := h.follows hfollows
  have hrecv : (s.conn.poll now).2.recv = s.conn.recv := hfollows.recv
  have hroom : (s.conn.poll now).2.room = s.conn.room := by
    unfold room
    rw [hrecv]
  have hirs : (s.conn.poll now).2.irs = s.conn.irs := hfollows.irs
  refine ⟨hafter.held, hafter.settled, fun hopening => ?_, fun hbegun => ?_⟩
  · have hbefore : s.conn.state.isOpening = true := hfollows.opening hopening
    have hnot : ¬ s.conn.state.begun = true := by
      revert hbefore
      cases s.conn.state <;> simp [isOpening, begun]
    have hzero := h.opening hbefore
    cases (s.conn.poll now).1 with
    | none => exact hzero
    | some segment =>
      unfold said
      dsimp only
      rw [if_neg fun hsaid => hnot hsaid.1]
      exact hzero
  · have hbefore : s.conn.state.begun = true := hfollows.begun hbegun
    obtain ⟨e, hedge, hle, hlimit⟩ := h.begun hbefore
    obtain ⟨hmoved, htells⟩ := poll_announces hexpects h hbefore hfin hsteady now
    -- a segment that announces nothing may move the edge as well
    have hquiet : ∃ e, (s.conn.poll now).2.rcvEdge = fromBase (s.conn.poll now).2.irs (1 + e) ∧
        s.edge ≤ e ∧ e ≤ s.count + (s.conn.poll now).2.room := by
      rw [hirs, hroom]
      rcases hmoved with hsame | hfar
      · exact ⟨e, hsame.trans hedge, hle, hlimit⟩
      · exact ⟨s.count + s.conn.room, hfar, by omega, le_rfl⟩
    cases hsegment : (s.conn.poll now).1 with
    | none => exact hquiet
    | some segment =>
      unfold said
      dsimp only
      split
      next hannounces =>
        obtain ⟨-, hwindow, hfar⟩ := htells segment hsegment hannounces.2
        rw [hirs, hroom, hwindow]
        exact ⟨s.count + s.conn.room, hfar, le_rfl, le_rfl⟩
      · exact hquiet

theorem known_step (h : s.Known) (hsteady : s.count < s.edge + 2 ^ 31) (event : Event)
    (hopens : ¬ event.Opens) : (s.step event).Known := by
  by_cases hfin : s.conn.peerFinished = true
  · exact .inl ((retains_event s.conn event hopens).finished hfin)
  obtain ⟨hexpects, hedged⟩ := h.resolve_left hfin
  have honce : event.ClosesOnce s.conn := by
    cases event with
    | listen | connect => exact absurd intro hopens
    | arrive => exact fun hclosed => absurd hclosed hfin
    | _ => exact intro
  have hnext : (s.step event).conn.Expects (s.step event).count :=
    expects_event hexpects event honce
  cases event with
  | listen | connect => exact absurd intro hopens
  | write data => exact .inr ⟨hnext, hedged.follows (follows_write s.conn data)⟩
  | read n =>
    refine .inr ⟨hnext, ?_⟩
    change Connection.Edged { s.conn with recv := (s.conn.recv.read n).2 } s.count s.edge
    rw [read_snd]
    exact hedged.consume n
  | consume n => exact .inr ⟨hnext, hedged.consume n⟩
  | close => exact .inr ⟨hnext, hedged.follows (follows_close s.conn)⟩
  | abort => exact .inr ⟨hnext, hedged.follows (follows_abort s.conn)⟩
  | arrive source segment now =>
    exact (edged_onSegment hexpects hedged source segment now).imp_right fun hafter =>
      ⟨hnext, hafter⟩
  | poll now => exact .inr ⟨hnext, edged_poll hexpects hedged (by simpa using hfin) hsteady now⟩

theorem known_run (events : List Event) (h : s.Known) (hsteady : SteadyRun s events) :
    (s.run events).Known ∧ (s.run events).count < (s.run events).edge + 2 ^ 31 := by
  induction events generalizing s with
  | nil => exact ⟨h, hsteady⟩
  | cons event events ih => exact ih (known_step h hsteady.1 event hsteady.2.1) hsteady.2.2

theorem capacity_run (events : List Event) (s : Announced) (hsteady : SteadyRun s events) :
    (s.run events).conn.recv.ring.capacity = s.conn.recv.ring.capacity := by
  induction events generalizing s with
  | nil => rfl
  | cons event events ih =>
    exact (ih (s.step event) hsteady.2.2).trans (retains_event s.conn event hsteady.2.1).capacity

end Announced

theorem edged_opens (localEnd : Endpoint) (config : Config) (send recv : Ring) (first : Event)
    (hfirst : first.Opens) :
    (first.apply (Connection.new localEnd config send recv)).Edged 0 0 := by
  obtain ⟨hbuffer, -, hstate⟩ := opens_spec localEnd config send recv first hfirst
  refine ⟨?_, ?_, fun _ => rfl, fun hbegun => ?_⟩
  · rw [hbuffer]
    exact le_refl 0
  · unfold Settled
    rcases hstate with hs | hs | hs <;> rw [hs] <;> exact nofun
  · rcases hstate with hs | hs | hs <;> rw [hs] at hbegun <;> cases hbegun

theorem canReceive_of_settled (h : c.Settled) (hsync : c.state.isSynchronized = true)
    (hfin : c.peerFinished = false) : c.state.canReceive = true := by
  unfold Settled at h
  rw [hfin] at h
  revert h hsync
  cases c.state <;> simp [isSynchronized, finTaken, canReceive]

/-- Until the peer has closed its stream, every segment but a reset says the next number expected;
the edge it announces does not lie before the last one, nor behind the end of the receive buffer.
A byte inside the edge that arrives with the next one expected, in a segment that text is taken
from and that starts there or ends inside the edge, is stored in order. -/
theorem run_announces_room (localEnd : Endpoint) (config : Config) (send recv : Ring)
    (first : Event) (events : List Event) (hfirst : first.Opens) (hrecv : recv.capacity < 2 ^ 31)
    (hsteady : Announced.SteadyRun ⟨first.apply (Connection.new localEnd config send recv), 0, 0⟩
      events) :
    let s := Announced.run ⟨first.apply (Connection.new localEnd config send recv), 0, 0⟩ events
    s.conn.state.isSynchronized = true → s.conn.peerFinished = false →
    (∀ now segment, (s.conn.poll now).1 = some segment → segment.flags.has rst = false →
      segment.ack = fromBase s.conn.irs (1 + s.count) ∧
      s.edge ≤ s.count + segment.window.toNat ∧
      s.count + segment.window.toNat ≤ s.count - s.conn.recv.ready + recv.capacity) ∧
    ∀ source segment now b, s.conn.CarriesText segment → b < 2 ^ 31 →
      segment.seq = s.conn.rcvNxt.sub b → (b = 0 ∨ s.count + segment.sequenceLen ≤ s.edge + b) →
      ∀ i, b ≤ i → i < segment.payload.length → s.count + (i - b) < s.edge →
        s.conn.recv.ready + (i - b) < (s.conn.onSegment source segment now).recv.ready ∧
        (s.conn.onSegment source segment now).recv.byteAt (s.conn.recv.ready + (i - b)) =
          segment.payload.getD i 0 := by
  intro s hsync hfin
  obtain ⟨hbuffer, -⟩ := opens_spec localEnd config send recv first hfirst
  obtain ⟨hknown, hnow⟩ : s.Known ∧ s.count < s.edge + 2 ^ 31 := Announced.known_run events
    (.inr ⟨expects_opens localEnd config send recv first hfirst (by omega),
      edged_opens localEnd config send recv first hfirst⟩) hsteady
  have hcapacity : s.conn.recv.ring.capacity = recv.capacity := by
    refine (Announced.capacity_run events _ hsteady).trans ?_
    rw [hbuffer]
    rfl
  obtain ⟨hexpects, hedged⟩ := hknown.resolve_left (by rw [hfin]; decide)
  have hreceives := canReceive_of_settled hedged.settled hsync hfin
  have hbegun : s.conn.state.begun = true := begun_of_canReceive hreceives
  refine ⟨fun now segment hsegment hreset => ?_, ?_⟩
  · obtain ⟨-, htells⟩ := poll_announces hexpects hedged hbegun hfin hnow now
    obtain ⟨hack, hwindow, -⟩ := htells segment hsegment hreset
    obtain ⟨e, -, hle, hlimit⟩ := hedged.begun hbegun
    have hcounts := hexpects.begun hbegun
    unfold Counts at hcounts
    rw [hfin] at hcounts
    have hroom : s.conn.room ≤ s.conn.recv.ring.capacity - s.conn.recv.ready := Nat.min_le_left _ _
    have hready := hexpects.shaped.ready_le
    refine ⟨hack.trans hcounts, by omega, by omega⟩
  · intro source segment now b hcarries hb hseq hwhole i hi hlen hinside
    exact stored_onSegment hexpects hedged hreceives (by rw [hcapacity]; exact hrecv) source
      hcarries b hb hseq hwhole i hi hlen hinside

/-- A segment of the peer with text from the number `seq` on. -/
def textSegment (seq : SeqNumber) (payload : List Byte) : Segment :=
  { Segment.new 2000 1000 ack with
    seq := seq, ack := 8, window := 4096, payload := payload }

/-- The connection is open, and has announced its eight bytes of room. -/
def roomAnnounced : List Event := [.poll 0, .arrive (.v4 2) synAck 10, .poll 10]

theorem run_announces_room_two_bytes :
    let s := Announced.run ⟨(Event.connect hostB (some 7)).apply (eightBytes default), 0, 0⟩
      roomAnnounced
    s.edge = 8 ∧
      s.conn.recv.ready + (1 - 0) <
        (s.conn.onSegment (.v4 2) (textSegment 101 [1, 2]) 20).recv.ready ∧
      (s.conn.onSegment (.v4 2) (textSegment 101 [1, 2]) 20).recv.byteAt
        (s.conn.recv.ready + (1 - 0)) = 2 := by
  refine ⟨by decide +kernel, ?_⟩
  have hrun := run_announces_room hostA default ⟨8, fun _ => 0⟩ ⟨8, fun _ => 0⟩
    (.connect hostB (some 7)) roomAnnounced intro (by decide)
    ⟨by decide, nofun, by decide +kernel, nofun, by decide +kernel, nofun,
      by unfold Announced.SteadyRun; decide +kernel⟩ (by decide +kernel) (by decide +kernel)
  exact hrun.2 (.v4 2) (textSegment 101 [1, 2]) 20 0
    ⟨by decide, by decide, by decide, by decide +kernel⟩ (by decide) (by decide +kernel)
    (.inl rfl) 1 (by decide) (by decide) (by decide +kernel)

/-- Two bytes have arrived. -/
def twoArrived : List Event :=
  [.poll 0, .arrive (.v4 2) synAck 10, .poll 10, .arrive (.v4 2) (textSegment 101 [1, 2]) 20]

/-- The peer sends them again with more than there is room for, and nothing of it is taken. -/
theorem overlong_repeat_dropped :
    ¬ ∀ (first : Event) (events : List Event), first.Opens →
      Announced.SteadyRun ⟨first.apply (eightBytes default), 0, 0⟩ events →
      let s := Announced.run ⟨first.apply (eightBytes default), 0, 0⟩ events
      s.conn.state.isSynchronized = true → s.conn.peerFinished = false →
      ∀ source segment now b, s.conn.CarriesText segment → b < 2 ^ 31 →
        segment.seq = s.conn.rcvNxt.sub b →
        ∀ i, b ≤ i → i < segment.payload.length → s.count + (i - b) < s.edge →
          s.conn.recv.ready + (i - b) < (s.conn.onSegment source segment now).recv.ready := by
  intro h
  have hrun := h (.connect hostB (some 7)) twoArrived intro
    ⟨by decide, nofun, by decide +kernel, nofun, by decide +kernel, nofun, by decide +kernel, nofun,
      by unfold Announced.SteadyRun; decide +kernel⟩ (by decide +kernel) (by decide +kernel)
  have hstored := hrun (.v4 2) (textSegment 101 (List.replicate 12 7)) 30 2
    ⟨by decide, by decide, by decide, by decide +kernel⟩ (by decide) (by decide +kernel) 2
    (by decide) (by decide) (by decide +kernel)
  revert hstored
  decide +kernel

end Audhsos.Tcp.Connection
