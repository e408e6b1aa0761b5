import Audhsos.Tcp.Events

/-!
What the steps of a connection leave alone. Only the opening sets the two ends and the first number
of the peer, only text and the closing number move the next one expected, and only `advertise` moves
the edge announced. Every other step `Follows`.
-/

namespace Audhsos.Tcp

open State

/-- The states in which the closing number of the peer was not taken yet. -/
def State.awaitsFin : State → Bool
  | .listen | .synSent | .synReceived | .established | .finWait1 | .finWait2 => true
  | _ => false

/-- The states in which the peer has told where its numbers start. -/
def State.begun : State → Bool
  | .closed | .listen | .synSent => false
  | _ => true

/-- The states in which it has not, and the connection is open. -/
def State.isOpening : State → Bool
  | .listen | .synSent => true
  | _ => false

/-- The states in which the closing number of the peer was taken. -/
def State.finTaken : State → Bool
  | .closeWait | .closing | .lastAck | .timeWait => true
  | _ => false

namespace State

variable {s : State}

theorem awaitsFin_of_canReceive (h : s.canReceive = true) : s.awaitsFin = true := by
  cases s <;> first | rfl | cases h

theorem begun_of_isSynchronized (h : s.isSynchronized = true) : s.begun = true := by
  cases s <;> first | rfl | cases h

theorem begun_of_canReceive (h : s.canReceive = true) : s.begun = true := by
  cases s <;> first | rfl | cases h

theorem begun_of_ne (hclosed : s ≠ .closed) (hlisten : s ≠ .listen) (hsyn : s ≠ .synSent) :
    s.begun = true := by
  cases s <;> first | rfl | contradiction

end State

namespace Connection

variable {c c' c'' : Connection} {now : Instant}

/-- The fields that belong to the ends of the connection and to its receiving side. -/
structure Fixed where
  localEnd : Endpoint
  remote : Endpoint
  config : Config
  maxSegment : Nat
  irs : SeqNumber
  rcvNxt : SeqNumber
  recv : RecvBuffer
  peerFinished : Bool

def fixed (c : Connection) : Fixed :=
  ⟨c.localEnd, c.remote, c.config, c.maxSegment, c.irs, c.rcvNxt, c.recv, c.peerFinished⟩

/-- The states behind the closing number of the peer are entered with it. -/
def Settled (c : Connection) : Prop := c.state.finTaken = true → c.peerFinished = true

/-- `c'` comes from `c` by a step that opens nothing and takes nothing from the peer. -/
structure Follows (c c' : Connection) : Prop where
  fixed : c'.fixed = c.fixed
  edge : c'.rcvEdge = c.rcvEdge
  awaits : c'.state.awaitsFin = true → c.state.awaitsFin = true
  begun : c'.state.begun = true → c.state.begun = true
  opening : c'.state.isOpening = true → c.state.isOpening = true
  settled : c.Settled → c'.Settled

section

variable (hfixed : c'.fixed = c.fixed) (hedge : c'.rcvEdge = c.rcvEdge)
include hfixed hedge

theorem Follows.same (hstate : c'.state = c.state) : Follows c c' := by
  have hpeer : c'.peerFinished = c.peerFinished := congrArg Fixed.peerFinished hfixed
  refine ⟨hfixed, hedge, ?_, ?_, ?_, fun h => ?_⟩
  · rw [hstate]
    exact id
  · rw [hstate]
    exact id
  · rw [hstate]
    exact id
  · unfold Settled
    rw [hstate, hpeer]
    exact h

theorem Follows.closed (hstate : c'.state = .closed) : Follows c c' := by
  refine ⟨hfixed, hedge, ?_, ?_, ?_, fun _ => ?_⟩
  · rw [hstate]
    exact nofun
  · rw [hstate]
    exact nofun
  · rw [hstate]
    exact nofun
  · unfold Settled
    rw [hstate]
    exact nofun

theorem Follows.established (hawaits : c.state.awaitsFin = true) (hbegun : c.state.begun = true)
    (hstate : c'.state.canReceive = true) : Follows c c' := by
  refine ⟨hfixed, hedge, fun _ => hawaits, fun _ => hbegun, fun hopening => ?_, fun _ htaken => ?_⟩
  · revert hstate hopening
    cases c'.state <;> simp [canReceive, isOpening]
  · revert hstate htaken
    cases c'.state <;> simp [canReceive, finTaken]

end

theorem Follows.refl (c : Connection) : Follows c c := .same rfl rfl rfl

section

variable (h : Follows c c')
include h

theorem Follows.trans (h' : Follows c' c'') : Follows c c'' :=
  ⟨h'.fixed.trans h.fixed, h'.edge.trans h.edge, fun hawaits => h.awaits (h'.awaits hawaits),
    fun hbegun => h.begun (h'.begun hbegun), fun hopening => h.opening (h'.opening hopening),
    fun hsettled => h'.settled (h.settled hsettled)⟩

theorem Follows.rcvNxt : c'.rcvNxt = c.rcvNxt := congrArg Fixed.rcvNxt h.fixed

theorem Follows.irs : c'.irs = c.irs := congrArg Fixed.irs h.fixed

theorem Follows.recv : c'.recv = c.recv := congrArg Fixed.recv h.fixed

theorem Follows.peerFinished : c'.peerFinished = c.peerFinished :=
  congrArg Fixed.peerFinished h.fixed

end

theorem follows_tearDown (c : Connection) (byPeer : Bool) : Follows c (c.tearDown byPeer) :=
  .closed rfl rfl rfl

theorem follows_enterTimeWait (h : c.state = .closing) (now : Instant) :
    Follows c (c.enterTimeWait now) :=
  ⟨rfl, rfl, nofun, fun _ => by rw [h]; rfl, nofun, fun hsettled _ => hsettled (by rw [h]; rfl)⟩

/-! ## Segments that arrive -/

section

variable (c : Connection)

theorem follows_measure (ack : SeqNumber) (now : Instant) : Follows c (c.measure ack now) := by
  unfold measure
  split
  · split <;> exact .same rfl rfl rfl
  · exact .refl c

variable (segment : Segment)

theorem follows_updateWindow : Follows c (c.updateWindow segment) := by
  unfold updateWindow
  split <;> exact .same rfl rfl rfl

theorem follows_advanceAfterAck (now : Instant) : Follows c (c.advanceAfterAck now) := by
  unfold advanceAfterAck
  split
  · split
    next hstate => exact .established rfl rfl (by rw [hstate]; rfl) (by rw [hstate]; rfl) rfl
    next hstate => exact follows_enterTimeWait hstate now
    · exact follows_tearDown c false
    · exact .refl c
  · exact .refl c

theorem follows_onNewAck (ack : SeqNumber) (now : Instant) : Follows c (c.onNewAck ack now) := by
  unfold onNewAck
  dsimp only
  refine Follows.trans ?_ (follows_advanceAfterAck _ now)
  refine Follows.trans (.same ?_ ?_ ?_) (Follows.trans (follows_measure { c with
    send := c.send.acknowledge (c.ackedBytes ack)
    sndUna := ack
    sndNxt := if c.sndNxt.before ack then ack else c.sndNxt
    retries := 0 } ack now) (.same rfl rfl rfl))
  · rfl
  · rfl
  · rfl

theorem follows_onDuplicateAck : Follows c c.onDuplicateAck := by
  unfold onDuplicateAck
  dsimp only
  split <;> exact .same rfl rfl rfl

theorem follows_checkAck (now : Instant) : Follows c (c.checkAck segment now).2 := by
  unfold checkAck
  dsimp only
  split
  · exact .same rfl rfl rfl
  have hopened : Follows c (if c.state = .synReceived then
      { c with state := .established, retransmitAt := none } else c) := by
    split
    next hstate => exact .established rfl rfl (by rw [hstate]; rfl) (by rw [hstate]; rfl) rfl
    next => exact .refl c
  revert hopened
  generalize (if c.state = .synReceived then
    { c with state := .established, retransmitAt := none } else c) = c₁
  intro hopened
  split
  · exact hopened.trans (.same rfl rfl rfl)
  split
  · exact hopened.trans (follows_onNewAck c₁ _ now)
  split
  · exact hopened.trans (follows_onDuplicateAck c₁)
  · exact hopened

end

theorem follows_onRepeatedSyn (hstate : c.state = .synReceived) (segment : Segment)
    (now : Instant) : Follows c (c.onRepeatedSyn segment now) := by
  unfold onRepeatedSyn
  dsimp only
  split
  · have hopened :
        Follows c { c with sndUna := segment.ack, state := .established, retries := 0 } :=
      .established rfl rfl (by rw [hstate]; rfl) (by rw [hstate]; rfl) rfl
    refine (hopened.trans ((follows_updateWindow _ segment).trans
      (follows_measure _ segment.ack now))).trans ?_
    generalize Connection.measure _ _ _ = measured
    exact .same rfl rfl rfl
  · exact .same rfl rfl rfl

variable (c) (segment : Segment)

def textOffset : Nat :=
  if segment.seq.before c.receiveBase then 0 else segment.seq.distanceFrom c.receiveBase

def textData : List Byte :=
  if segment.seq.before c.receiveBase then
    segment.payload.drop (c.receiveBase.distanceFrom segment.seq)
  else segment.payload

def withText : Connection :=
  let recv := c.recv.accept (c.textOffset segment) (c.textData segment)
  { c with recv := recv, rcvNxt := c.receiveBase.add (toU32 recv.ready u32Max) }

theorem acceptText_cases (windowBefore : Nat) (now : Instant) :
    let after := c.acceptText segment windowBefore now
    (segment.payload = [] ∨ c.state.canReceive = false) ∧ after = c ∨
    segment.payload ≠ [] ∧ c.state.canReceive = true ∧ Follows (c.withText segment) after ∧
      after.state = c.state := by
  dsimp only
  by_cases hskip : segment.payload = [] ∨ !c.state.canReceive
  · refine .inl ⟨by simpa using hskip, ?_⟩
    unfold acceptText
    rw [if_pos hskip]
  have htaken : segment.payload ≠ [] ∧ c.state.canReceive = true := by simpa using hskip
  refine .inr ⟨htaken.1, htaken.2, ?_⟩
  unfold acceptText withText textOffset textData
  rw [if_neg hskip]
  dsimp only
  generalize (if segment.seq.before c.receiveBase = true then 0
    else segment.seq.distanceFrom c.receiveBase) = offset
  generalize (if segment.seq.before c.receiveBase = true then
    segment.payload.drop (c.receiveBase.distanceFrom segment.seq) else segment.payload) = data
  split
  · exact ⟨.same rfl rfl rfl, rfl⟩
  split
  · exact ⟨.same rfl rfl rfl, rfl⟩
  split <;> exact ⟨.same rfl rfl rfl, rfl⟩

/-- The closing number of the peer is where it is expected. -/
def FinHere : Prop :=
  segment.flags.has Flags.fin = true ∧
    segment.seq.add (toU32 segment.payload.length u32Max) = c.rcvNxt

def withFin : Connection :=
  { c with rcvNxt := c.rcvNxt.add 1, peerFinished := true, ackNow := true }

variable {c}

theorem follows_withFin (hfixed : c'.fixed = c.withFin.fixed) (hedge : c'.rcvEdge = c.rcvEdge)
    (hbegun : c.state.begun = true) (hstate : c'.state.finTaken = true) : Follows c.withFin c' := by
  refine ⟨hfixed, hedge, fun hawaits => ?_, fun _ => hbegun, fun hopening => ?_, fun _ _ => ?_⟩
  · revert hstate hawaits
    cases c'.state <;> simp [finTaken, awaitsFin]
  · revert hstate hopening
    cases c'.state <;> simp [finTaken, isOpening]
  · exact congrArg Fixed.peerFinished hfixed

section

variable (c : Connection) (segment : Segment) (now : Instant)

theorem checkFin_cases :
    ¬ c.FinHere segment ∧ c.checkFin segment now = c ∨
    c.FinHere segment ∧ Follows c.withFin (c.checkFin segment now) ∧
      ((c.checkFin segment now).state.awaitsFin = true → c.state = .listen ∨ c.state = .synSent ∨
        c.state = .synReceived) := by
  unfold FinHere checkFin
  by_cases hflag : segment.flags.has Flags.fin = true
  · rw [if_neg (by simp [hflag])]
    by_cases hseq : segment.seq.add (toU32 segment.payload.length u32Max) = c.rcvNxt
    · refine .inr ⟨⟨hflag, hseq⟩, ?_⟩
      rw [if_neg (not_not.mpr hseq)]
      dsimp only
      split
      next hstate =>
        exact ⟨follows_withFin rfl rfl (by rw [show c.state = _ from hstate]; rfl) rfl, nofun⟩
      next hstate =>
        split
        · exact ⟨follows_withFin rfl rfl (by rw [show c.state = _ from hstate]; rfl) rfl, nofun⟩
        · exact ⟨follows_withFin rfl rfl (by rw [show c.state = _ from hstate]; rfl) rfl, nofun⟩
      next hstate =>
        exact ⟨follows_withFin rfl rfl (by rw [show c.state = _ from hstate]; rfl) rfl, nofun⟩
      next hstate =>
        refine ⟨.same rfl rfl rfl, fun hawaits => ?_⟩
        simp [hstate, awaitsFin] at hawaits
      next hest hfin1 hfin2 htime =>
        refine ⟨.same rfl rfl rfl, fun hawaits => ?_⟩
        dsimp only at hawaits
        revert hawaits hest hfin1 hfin2
        cases c.state <;> simp [awaitsFin]
    · exact .inl ⟨fun h => hseq h.2, if_pos hseq⟩
  · exact .inl ⟨fun h => hflag h.1, if_pos (by simp [hflag])⟩

/-- A segment of an open connection either changes nothing that is fixed, or it is taken: the
acknowledgment is looked at, then the window, the text and the closing number. -/
theorem onSegmentOpen_cases :
    Follows c (c.onSegmentOpen segment now) ∨
    isAcceptable segment.seq segment.sequenceLen c.rcvNxt (toU32 c.recv.window u32Max) = true ∧
      (c.checkAck segment now).1 = true ∧
      c.onSegmentOpen segment now = ((((c.checkAck segment now).2.updateWindow segment).acceptText
        segment c.recv.window now).checkFin segment now) := by
  unfold onSegmentOpen
  dsimp only
  split
  next hsyn => exact .inl (follows_onRepeatedSyn hsyn.1 segment now)
  split
  · left
    split
    · exact .refl c
    · exact .same rfl rfl rfl
  next haccept =>
  split
  · left
    split
    · exact follows_tearDown c true
    · exact .same rfl rfl rfl
  split
  · exact .inl (.same rfl rfl rfl)
  split
  · exact .inl (.refl c)
  split
  next hcheck => exact .inr ⟨by simpa using haccept, hcheck, rfl⟩
  next => exact .inl (follows_checkAck c segment now)

end

def ends (c : Connection) : Endpoint × Endpoint × Config × Nat :=
  (c.localEnd, c.remote, c.config, c.maxSegment)

theorem ends_of_fixed (h : c'.fixed = c.fixed) : c'.ends = c.ends :=
  congrArg (fun f : Fixed => (f.localEnd, f.remote, f.config, f.maxSegment)) h

section

variable (c : Connection)

section

variable (segment : Segment) (now : Instant)

theorem ends_onSegmentOpen : (c.onSegmentOpen segment now).ends = c.ends := by
  obtain h | ⟨-, -, heq⟩ := onSegmentOpen_cases c segment now
  · exact ends_of_fixed h.fixed
  rw [heq]
  have hwindow := ends_of_fixed ((follows_checkAck c segment now).trans
    (follows_updateWindow _ segment)).fixed
  generalize (c.checkAck segment now).2.updateWindow segment = c₁ at hwindow ⊢
  have htext : (c₁.acceptText segment c.recv.window now).ends = c₁.ends := by
    obtain ⟨-, hsame⟩ | ⟨-, -, hfollows, -⟩ := acceptText_cases c₁ segment c.recv.window now
    · rw [hsame]
    · exact ends_of_fixed (c := c₁.withText segment) hfollows.fixed
  generalize c₁.acceptText segment c.recv.window now = c₂ at htext ⊢
  obtain ⟨-, hsame⟩ | ⟨-, hfollows, -⟩ := checkFin_cases c₂ segment now
  · rw [hsame]
    exact htext.trans hwindow
  · have hfin := ends_of_fixed (c := c₂.withFin) hfollows.fixed
    exact hfin.trans (htext.trans hwindow)

/-- A segment that answers the opening one either changes nothing that is fixed, or takes what the
peer's opening segment says. -/
theorem onSegmentSynSent_cases :
    let c' := c.onSegmentSynSent segment now
    Follows c c' ∨ c'.fixed = (c.acceptPeer segment).fixed ∧ c'.rcvEdge = segment.seq.add 1 ∧
      (c'.state = .established ∨ c'.state = .synReceived) := by
  unfold onSegmentSynSent
  dsimp only
  split
  · left
    split <;> exact .same rfl rfl rfl
  split
  · left
    split
    · exact follows_tearDown c true
    · exact .refl c
  split
  · exact .inl (.refl c)
  right
  have hpeer : ∀ b : Prop, ∀ [Decidable b], (if b then
      { c.acceptPeer segment with
        sndUna := segment.ack, sndWl1 := segment.seq, sndWl2 := segment.ack }
      else c.acceptPeer segment).fixed = (c.acceptPeer segment).fixed ∧ (if b then
      { c.acceptPeer segment with
        sndUna := segment.ack, sndWl1 := segment.seq, sndWl2 := segment.ack }
      else c.acceptPeer segment).rcvEdge = segment.seq.add 1 := by
    intro b hb
    split <;> exact ⟨rfl, rfl⟩
  specialize hpeer (segment.flags.has Flags.ack = true)
  generalize (if segment.flags.has Flags.ack = true then
    { c.acceptPeer segment with
      sndUna := segment.ack, sndWl1 := segment.seq, sndWl2 := segment.ack }
    else c.acceptPeer segment) = c₁ at hpeer ⊢
  split
  · have hmeasure := follows_measure { c₁ with state := .established, retries := 0 } segment.ack now
    have hstate : (({ c₁ with state := .established, retries := 0 } : Connection).measure
        segment.ack now).state = .established := by
      unfold measure
      split
      · split <;> rfl
      · rfl
    exact ⟨hmeasure.fixed.trans hpeer.1, hmeasure.edge.trans hpeer.2, .inl hstate⟩
  · exact ⟨hpeer.1, hpeer.2, .inr rfl⟩

theorem ends_onSegmentSynSent :
    (c.onSegmentSynSent segment now).localEnd = c.localEnd ∧
    (c.onSegmentSynSent segment now).remote = c.remote := by
  obtain h | ⟨hfixed, -⟩ := onSegmentSynSent_cases c segment now
  · exact ⟨congrArg Fixed.localEnd h.fixed, congrArg Fixed.remote h.fixed⟩
  · exact ⟨congrArg Fixed.localEnd hfixed, congrArg Fixed.remote hfixed⟩

end

/-- A segment changes nothing that is fixed, opens the connection with what it says of the peer, or
is taken by an open connection. -/
theorem onSegment_cases (source : IpAddr) (segment : Segment) (now : Instant) :
    let c' := c.onSegment source segment now
    Follows c c' ∨
    c.state.isOpening = true ∧
      c'.fixed = { (c.acceptPeer segment).fixed with remote := c'.remote } ∧
      c'.rcvEdge = segment.seq.add 1 ∧ (c'.state = .synReceived ∨ c'.state = .established) ∨
    c.state.begun = true ∧ (c.checkAck segment now).1 = true ∧
      c' = ((((c.checkAck segment now).2.updateWindow segment).acceptText segment c.recv.window
        now).checkFin segment now) := by
  dsimp only
  unfold onSegment
  split
  next => exact .inl (.refl c)
  next hstate =>
    unfold onSegmentListen
    split
    · exact .inl (.refl c)
    split
    · exact .inl (.same rfl rfl rfl)
    split
    · exact .inl (.refl c)
    · exact .inr (.inl ⟨by rw [hstate]; rfl, rfl, rfl, .inl rfl⟩)
  next hstate =>
    obtain hfollows | ⟨hfixed, hedge, hopened⟩ := onSegmentSynSent_cases c segment now
    · exact .inl hfollows
    refine .inr (.inl ⟨by rw [hstate]; rfl, ?_, hedge, hopened.symm⟩)
    have hremote : (c.onSegmentSynSent segment now).remote = (c.acceptPeer segment).remote :=
      congrArg Fixed.remote hfixed
    rw [hfixed, hremote]
    rfl
  next hclosed hlisten hsyn =>
    have hbegun : c.state.begun = true := begun_of_ne hclosed hlisten hsyn
    obtain hfollows | ⟨-, hcheck, heq⟩ := onSegmentOpen_cases c segment now
    · exact .inl hfollows
    · exact .inr (.inr ⟨hbegun, hcheck, heq⟩)

/-! ## Polling -/

theorem follows_giveUp : Follows c c.giveUp.2 := by
  unfold giveUp
  split
  · exact .same rfl rfl rfl
  · exact .closed rfl rfl rfl

theorem follows_decideSyn (now : Instant) : Follows c (c.decideSyn now).2 := by
  unfold decideSyn
  dsimp only
  split
  · exact .same rfl rfl rfl
  split
  · split
    · exact follows_giveUp c
    · exact (follows_giveUp c).trans (.same rfl rfl rfl)
  split <;> exact .refl c

section

variable (now : Instant)

theorem follows_decideOpen : Follows c (c.decideOpen now).2 := by
  obtain ⟨-, -, heq⟩ | ⟨-, -, heq⟩ | ⟨plan, -, heq⟩ | ⟨-, -, heq⟩ := decideOpen_cases c now <;>
    rw [heq]
  · exact .refl c
  · exact .same rfl rfl rfl
  · exact .same rfl rfl rfl
  · repeat' split
    all_goals exact .same rfl rfl rfl

theorem follows_endTimeWait : Follows c (c.endTimeWait now) := by
  unfold endTimeWait
  split
  · exact follows_tearDown c false
  · exact .refl c

theorem follows_decideStanding : Follows c (c.decideStanding now).2 := by
  unfold decideStanding
  dsimp only
  split
  · exact .refl c
  split
  · exact follows_decideSyn c now
  split
  · split
    · exact follows_giveUp c
    · have hrewind : Follows c.giveUp.2 (c.giveUp.2.rewind now) := .same rfl rfl rfl
      exact ((follows_giveUp c).trans hrewind).trans (follows_decideOpen _ now)
  · exact follows_decideOpen c now

theorem follows_decide : Follows c (c.decide now).2 := by
  unfold decide
  split
  · exact .same rfl rfl rfl
  · exact (follows_endTimeWait c now).trans (follows_decideStanding _ now)

end

theorem follows_finAt (c : Connection) (finAt : Option SeqNumber) :
    Follows c (match finAt with
      | none => c
      | some number => { c with
        finSeq := some number
        state := match c.state with
          | .established => .finWait1
          | .closeWait => .lastAck
          | other => other }) := by
  cases finAt with
  | none => exact .refl c
  | some number =>
    refine ⟨rfl, rfl, ?_, ?_, ?_, ?_⟩
    · dsimp only
      cases c.state <;> simp [awaitsFin]
    · dsimp only
      cases c.state <;> simp [begun]
    · dsimp only
      cases c.state <;> simp [isOpening]
    · unfold Settled
      dsimp only
      cases c.state <;> simp [finTaken]

theorem follows_sent (plan : Plan) (now : Instant) (out : Outgoing) :
    Follows c (c.sent plan now out) := by
  unfold sent
  split
  · exact .refl c
  · exact .same rfl rfl rfl
  dsimp only
  have hnumbers : Follows c { c with
      ackNow := false
      ackAt := none
      sinceAck := 0
      sndMax := if (out.first.add out.length).after c.sndMax then out.first.add out.length
        else c.sndMax
      sndNxt := if c.sndNxt.before (out.first.add out.length) then out.first.add out.length
        else c.sndNxt } := .same rfl rfl rfl
  split
  · exact hnumbers.trans (follows_finAt _ _)
  · exact (hnumbers.trans (follows_finAt _ _)).trans (.same rfl rfl rfl)

/-! ## Calls of the owner -/

theorem follows_write (data : List Byte) : Follows c (c.write data).2 := by
  unfold write
  split
  · exact .refl c
  · exact .same rfl rfl rfl

theorem follows_close : Follows c c.close.2 := by
  unfold close
  split
  · exact .refl c
  · exact .closed rfl rfl rfl
  · exact .closed rfl rfl rfl
  · exact .same rfl rfl rfl

theorem follows_abort : Follows c c.abort := by
  unfold abort
  dsimp only
  split <;> exact .closed rfl rfl rfl

theorem transmit_follows (plan : Plan) (now : Instant) :
    Follows c.advertise.2 (c.transmit plan now).2 := by
  rcases transmit_cases c plan now with heq | heq
  · rw [heq]
    exact .refl _
  · rw [heq]
    exact follows_sent _ plan now _

end

theorem Follows.withEdge (h : Follows c c') (edge : SeqNumber) :
    Follows { c with rcvEdge := edge } { c' with rcvEdge := edge } :=
  ⟨h.fixed, rfl, h.awaits, h.begun, h.opening, h.settled⟩

/-- Polling takes nothing from the peer; the edge announced is what it moves. -/
theorem follows_poll (c : Connection) (now : Instant) :
    Follows c { (c.poll now).2 with rcvEdge := c.rcvEdge } := by
  have hdecide := (follows_decide c now).withEdge c.rcvEdge
  unfold poll
  rcases hd : c.decide now with ⟨plan | plan, c₁⟩
  · rw [hd] at hdecide
    exact hdecide
  · rw [hd] at hdecide
    exact hdecide.trans ((transmit_follows c₁ plan now).withEdge c.rcvEdge)

end Connection

end Audhsos.Tcp
