import Audhsos.Wire.Transport

/-!
One connection: the state machine with its two buffers, its timers and its congestion window. A
segment goes in through `onSegment`, and what is owed comes out through `poll`, one segment a call.
The buffer that `poll` writes to holds any segment.
-/

namespace Audhsos.Tcp

open Instant
open Flags (rst syn)

def defaultMaxSegment : Nat := 536
def minMaxSegment : Nat := 536
def maxSegmentLifetime : Duration := 30000000

inductive State where
  | closed
  | listen
  | synSent
  | synReceived
  | established
  | finWait1
  | finWait2
  | closeWait
  | closing
  | lastAck
  | timeWait
deriving DecidableEq, Repr

namespace State

def isSynchronized : State → Bool
  | .closed | .listen | .synSent | .synReceived => false
  | _ => true

variable (state : State)

def isOpen : Bool := state ≠ .closed

def canSend : Bool := state = .established || state = .closeWait

def canReceive : Bool :=
  state = .established || state = .finWait1 || state = .finWait2

end State

structure Config where
  maxSegment : BitVec 16
  retransmitLimit : Nat
  delayedAck : Duration
  nagle : Bool

def Config.default : Config := ⟨536, 8, 500000, true⟩

inductive TcpError where
  | wire (error : Wire.WireError)
  | short (length : Nat)
  | dataOffset (words : Nat)
  | checksum (carried : BitVec 16)
  | badOption (kind : Byte)
  | mixedFamilies
  | wrongState (state : State)
  | portInUse (port : Port)
  | noConnection
  | unknownConnection
  | rng
deriving DecidableEq

/-- What one call of `poll` decided to say. -/
inductive Plan where
  | reset (dest : Endpoint) (seq : SeqNumber) (ack : Option SeqNumber)
  | syn (acknowledges : Bool)
  | data (offset len : Nat) (fin push again : Bool)
  | fin
  | probe (offset : Nat)
  | ack
deriving DecidableEq

structure Connection where
  state : State
  localEnd : Endpoint
  remote : Endpoint
  config : Config
  sndUna : SeqNumber
  sndNxt : SeqNumber
  sndMax : SeqNumber
  sndWnd : Nat
  sndWl1 : SeqNumber
  sndWl2 : SeqNumber
  iss : SeqNumber
  rcvNxt : SeqNumber
  irs : SeqNumber
  rcvEdge : SeqNumber
  send : SendBuffer
  recv : RecvBuffer
  maxSegment : Nat
  congestion : Congestion
  rto : Rto
  retransmitAt : Option Instant
  ackAt : Option Instant
  persistAt : Option Instant
  timeWaitUntil : Option Instant
  rttSample : Option (SeqNumber × Instant)
  ackNow : Bool
  resendSyn : Bool
  fastRetransmit : Bool
  sinceAck : Nat
  retries : Nat
  resetPending : Option (Endpoint × SeqNumber × Option SeqNumber)
  closing : Bool
  finSeq : Option SeqNumber
  peerFinished : Bool
  wasReset : Bool
  timedOut : Bool

def due (timer : Option Instant) (now : Instant) : Bool :=
  match timer with
  | none => false
  | some at_ => decide (at_ ≤ now)

def timeWaitEnd (now : Instant) : Instant :=
  saturatingAdd now (sat64 (maxSegmentLifetime + maxSegmentLifetime))

namespace Connection

def new (localEnd : Endpoint) (config : Config) (send recv : Ring) : Connection where
  state := .closed
  localEnd := localEnd
  remote := ⟨localEnd.address, 0⟩
  config := config
  sndUna := 0
  sndNxt := 0
  sndMax := 0
  sndWnd := 0
  sndWl1 := 0
  sndWl2 := 0
  iss := 0
  rcvNxt := 0
  irs := 0
  rcvEdge := 0
  send := SendBuffer.new send
  recv := RecvBuffer.new recv
  maxSegment := config.maxSegment.toNat
  congestion := Congestion.new config.maxSegment.toNat
  rto := Rto.new
  retransmitAt := none
  ackAt := none
  persistAt := none
  timeWaitUntil := none
  rttSample := none
  ackNow := false
  resendSyn := false
  fastRetransmit := false
  sinceAck := 0
  retries := 0
  resetPending := none
  closing := false
  finSeq := none
  peerFinished := false
  wasReset := false
  timedOut := false

/-! ## What the numbers say -/

section

variable (c : Connection)

def synOutstanding : Bool :=
  (c.state = .synSent || c.state = .synReceived) && c.sndUna = c.iss

def inFlight : Nat := c.sndNxt.distanceFrom c.sndUna

def sentOffset : Nat :=
  -- the opening segment takes a number and no byte of the buffer
  if c.sndUna = c.iss ∧ c.state.isOpen then c.inFlight - 1 else c.inFlight

def receiveBase : SeqNumber := c.rcvNxt.sub (toU32 c.recv.ready 0)

/-! ## Opening, writing, reading and closing -/

def setInitialSequence (iss : SeqNumber) : Connection :=
  { c with iss := iss, sndUna := iss, sndNxt := iss, sndMax := iss }

def listen (drawn : Option SeqNumber) : Except TcpError Unit × Connection :=
  if c.state ≠ .closed then (.error (.wrongState c.state), c)
  else
    match drawn with
    | none => (.error .rng, c)
    | some iss => (.ok (), { c.setInitialSequence iss with state := .listen })

def connect (remote : Endpoint) (drawn : Option SeqNumber) : Except TcpError Unit × Connection :=
  if c.state ≠ .closed then (.error (.wrongState c.state), c)
  else if remote.address.version ≠ c.localEnd.address.version then (.error .mixedFamilies, c)
  else
    match drawn with
    | none => (.error .rng, { c with remote := remote })
    | some iss => (.ok (), { c.setInitialSequence iss with remote := remote, state := .synSent })

def write (data : List Byte) : Except TcpError Nat × Connection :=
  if c.closing || !c.state.canSend then (.error (.wrongState c.state), c)
  else (.ok (c.send.write data).1, { c with send := (c.send.write data).2 })

def read (count : Nat) : List Byte × Connection :=
  ((c.recv.read count).1, { c with recv := (c.recv.read count).2 })

def consume (count : Nat) : Connection := { c with recv := c.recv.consume count }

def close : Except TcpError Unit × Connection :=
  match c.state with
  | .closed => (.error (.wrongState c.state), c)
  | .listen | .synSent => (.ok (), { c with state := .closed })
  | _ => (.ok (), { c with closing := true })

def abort : Connection :=
  let c :=
    if c.state = .synReceived ∨ c.state = .established ∨ c.state = .finWait1 ∨
        c.state = .finWait2 ∨ c.state = .closeWait then
      { c with resetPending := some (c.remote, c.sndNxt, some c.rcvNxt) }
    else c
  { c with state := .closed, closing := false }

/-! ## Steps shared by the two directions -/

/-- Closes the connection; every mark and every timer goes with it. -/
def tearDown (byPeer : Bool) : Connection :=
  { c with
    state := .closed
    wasReset := c.wasReset || byPeer
    closing := false
    retransmitAt := none
    ackAt := none
    persistAt := none
    timeWaitUntil := none
    ackNow := false
    resendSyn := false
    fastRetransmit := false }

variable (now : Instant)

def enterTimeWait : Connection :=
  { c with
    state := .timeWait
    retransmitAt := none
    persistAt := none
    timeWaitUntil := some (timeWaitEnd now) }

def armRetransmit : Connection :=
  { c with
    retransmitAt := if c.inFlight = 0 then none else some (saturatingAdd now c.rto.get) }

variable (ack : SeqNumber)

/-- Takes a round trip measurement when `ack` covers the number being timed. -/
def measure (now : Instant) : Connection :=
  match c.rttSample with
  | some (timed, sentAt) =>
    if ack.after timed then { c with rto := c.rto.sample (now - sentAt), rttSample := none } else c
  | none => c

variable (segment : Segment)

def acceptPeer : Connection :=
  let announced := min (max ((segment.maxSegmentSize.map BitVec.toNat).getD defaultMaxSegment)
    minMaxSegment) c.config.maxSegment.toNat
  { c with
    irs := segment.seq
    rcvNxt := segment.seq.add 1
    rcvEdge := segment.seq.add 1
    sndWnd := segment.window.toNat
    sndWl1 := segment.seq
    maxSegment := announced
    congestion := c.congestion.setMaxSegment announced }

/-! ## Segments that arrive -/

def onSegmentListen (source : IpAddr) (segment : Segment) : Connection :=
  if segment.flags.has rst then c
  else if segment.flags.has Flags.ack then
    { c with resetPending := some (⟨source, segment.sourcePort⟩, segment.ack, none) }
  else if !segment.flags.has syn || source.version ≠ c.localEnd.address.version then c
  else
    { ({ c with remote := ⟨source, segment.sourcePort⟩ }).acceptPeer segment with
      state := .synReceived }

def onSegmentSynSent (segment : Segment) (now : Instant) : Connection :=
  let acknowledges := segment.flags.has Flags.ack
  if acknowledges ∧ (segment.ack.beforeOrEqual c.iss ∨ segment.ack.after c.sndMax) then
    if segment.flags.has rst then c
    else { c with resetPending := some (c.remote, segment.ack, none) }
  else if segment.flags.has rst then
    if acknowledges then c.tearDown true else c
  else if !segment.flags.has syn then c
  else
    let c := c.acceptPeer segment
    let c := if acknowledges then
        { c with sndUna := segment.ack, sndWl1 := segment.seq, sndWl2 := segment.ack }
      else c
    if c.sndUna.after c.iss then
      let c := ({ c with state := .established, retries := 0 }).measure segment.ack now
      ({ c with ackNow := true }).armRetransmit now
    else { c with state := .synReceived, retransmitAt := none }

/-- The window the peer advertises; an older segment does not undo a newer one. -/
def updateWindow : Connection :=
  if c.sndWl1.before segment.seq ∨
      c.sndWl1 = segment.seq ∧ c.sndWl2.beforeOrEqual segment.ack then
    { c with
      sndWnd := segment.window.toNat
      sndWl1 := segment.seq
      sndWl2 := segment.ack
      persistAt := if 0 < segment.window.toNat then none else c.persistAt }
  else c

def onRepeatedSyn (segment : Segment) (now : Instant) : Connection :=
  if segment.flags.has Flags.ack ∧ c.sndUna.before segment.ack ∧
      segment.ack.beforeOrEqual c.sndMax then
    let c := { c with sndUna := segment.ack, state := .established, retries := 0 }
    let c := ((c.updateWindow segment).measure segment.ack now).armRetransmit now
    { c with ackNow := true }
  else { c with resendSyn := true }

/-- What the acknowledgment of this end's closing number moves the state to. -/
def advanceAfterAck : Connection :=
  if (c.finSeq.map fun fin => c.sndUna.after fin).getD false then
    match c.state with
    | .finWait1 => { c with state := .finWait2 }
    | .closing => c.enterTimeWait now
    | .lastAck => c.tearDown false
    | _ => c
  else c

def ackedBytes : Nat :=
  let counted := ack.distanceFrom c.sndUna
  let counted := if c.sndUna = c.iss then counted - 1 else counted
  if (c.finSeq.map fun fin => ack.after fin).getD false then counted - 1 else counted

def onNewAck (now : Instant) : Connection :=
  let counted := c.ackedBytes ack
  let c := { c with
    send := c.send.acknowledge counted
    sndUna := ack
    sndNxt := if c.sndNxt.before ack then ack else c.sndNxt
    retries := 0 }
  let c := c.measure ack now
  let c := { c with congestion := c.congestion.onAck counted, persistAt := none }
  (c.armRetransmit now).advanceAfterAck now

def onDuplicateAck : Connection :=
  let answer := c.congestion.onDuplicateAck c.inFlight c.sndMax
  if answer.1 then
    { c with congestion := answer.2, fastRetransmit := true, rttSample := none }
  else { c with congestion := answer.2 }

variable (now : Instant)

/-- The acknowledgment field. Answers whether processing goes on. -/
def checkAck : Bool × Connection :=
  let ack := segment.ack
  if c.state = .synReceived ∧ ¬ (c.sndUna.before ack ∧ ack.beforeOrEqual c.sndMax) then
    (false, { c with resetPending := some (c.remote, ack, none) })
  else
    let c := if c.state = .synReceived then
        { c with state := .established, retransmitAt := none }
      else c
    if ack.after c.sndMax then (false, { c with ackNow := true })
    else if ack.after c.sndUna then (true, c.onNewAck ack now)
    else if ack = c.sndUna ∧ segment.payload = [] ∧ segment.flags.has Flags.fin = false ∧
        segment.window.toNat = c.sndWnd ∧ 0 < c.inFlight then
      (true, c.onDuplicateAck)
    else (true, c)

def acceptText (windowBefore : Nat) (now : Instant) : Connection :=
  if segment.payload = [] ∨ !c.state.canReceive then c
  else
    let base := c.receiveBase
    let early := segment.seq.before base
    let offset := if early then 0 else segment.seq.distanceFrom base
    let data := if early then segment.payload.drop (base.distanceFrom segment.seq)
      else segment.payload
    let inOrder := segment.seq.beforeOrEqual c.rcvNxt
    let hadGap := c.recv.hasEarlyBytes
    let recv := c.recv.accept offset data
    let c := { c with recv := recv, rcvNxt := base.add (toU32 recv.ready u32Max) }
    if !inOrder || hadGap || windowBefore = 0 then { c with ackNow := true }
    else if data.length < c.config.maxSegment.toNat then
      { c with ackAt := some (saturatingAdd now c.config.delayedAck) }
    else
      let c := { c with sinceAck := sat32 (c.sinceAck + 1) }
      if 2 ≤ c.sinceAck then { c with ackNow := true }
      else { c with ackAt := some (saturatingAdd now c.config.delayedAck) }

/-- The closing number of the peer, once everything before it has arrived. -/
def checkFin (segment : Segment) (now : Instant) : Connection :=
  if !segment.flags.has Flags.fin then c
  else if segment.seq.add (toU32 segment.payload.length u32Max) ≠ c.rcvNxt then c
  else
    let c := { c with rcvNxt := c.rcvNxt.add 1, peerFinished := true, ackNow := true }
    match c.state with
    | .established => { c with state := .closeWait }
    | .finWait1 =>
      if (c.finSeq.map fun fin => c.sndUna.after fin).getD false then c.enterTimeWait now
      else { c with state := .closing }
    | .finWait2 => c.enterTimeWait now
    | .timeWait => { c with timeWaitUntil := some (timeWaitEnd now) }
    | _ => c

def onSegmentOpen : Connection :=
  if c.state = .synReceived ∧ segment.flags.has syn ∧ segment.seq = c.irs then
    c.onRepeatedSyn segment now
  else
    let windowBefore := c.recv.window
    if !isAcceptable segment.seq segment.sequenceLen c.rcvNxt (toU32 windowBefore u32Max) then
      if segment.flags.has rst then c else { c with ackNow := true }
    else if segment.flags.has rst then
      if segment.seq = c.rcvNxt then c.tearDown true else { c with ackNow := true }
    else if segment.flags.has syn then { c with ackNow := true }
    else if !segment.flags.has Flags.ack then c
    else
      let answer := c.checkAck segment now
      if answer.1 then
        ((answer.2.updateWindow segment).acceptText segment windowBefore now).checkFin segment now
      else answer.2

def onSegment (source : IpAddr) (segment : Segment) (now : Instant) : Connection :=
  match c.state with
  | .closed => c
  | .listen => c.onSegmentListen source segment
  | .synSent => c.onSegmentSynSent segment now
  | _ => c.onSegmentOpen segment now

/-! ## What to say -/

/-- The closing number is to go now, for the first time or again. -/
def finDue : Bool :=
  if !c.closing || c.sentOffset < c.send.len then false
  else
    match c.finSeq with
    | none => c.state.canSend
    | some fin => c.sndUna.beforeOrEqual fin && c.sndNxt.beforeOrEqual fin

def ackDue : Bool := c.ackNow || due c.ackAt now

end

section

variable (c : Connection) (now : Instant)

/-- Gives the connection up when a segment has used its attempts, and otherwise counts one. -/
def giveUp : Bool × Connection :=
  if c.retries < c.config.retransmitLimit then (false, { c with retries := sat32 (c.retries + 1) })
  else (true, { c.tearDown false with timedOut := true })

def decideSyn : Option Plan × Connection :=
  let plan := Plan.syn (c.state = .synReceived)
  if c.resendSyn || c.retransmitAt.isNone then (some plan, { c with resendSyn := false })
  else if due c.retransmitAt now then
    let answer := c.giveUp
    if answer.1 then (none, answer.2)
    else
      let rto := answer.2.rto.backOff
      (some plan, { answer.2 with
        rto := rto, rttSample := none
        retransmitAt := some (saturatingAdd now rto.get) })
  else if c.ackDue now then (some .ack, c)
  else (none, c)

def decideProbe : Option Plan :=
  if c.sndWnd ≠ 0 ∨ c.send.len ≤ c.sentOffset then none
  else if c.persistAt.isNone || due c.persistAt now then some (.probe c.sentOffset)
  else none

def limit : Nat :=
  min (min c.sndWnd c.congestion.window - c.inFlight) c.maxSegment

/-- A segment that is not full waits while something is outstanding, unless this end closes. -/
def nagleWaits (len : Nat) : Bool :=
  c.config.nagle && len < c.maxSegment && 0 < c.inFlight &&
    !(c.closing && c.sentOffset + len = c.send.len)

/-- Bytes that were not sent yet, or are to go again after a timeout. -/
def decideNext : Option Plan :=
  if c.send.len - c.sentOffset = 0 ∨ c.limit = 0 then none
  else
    let len := (c.send.contiguous c.sentOffset c.limit).length
    if len = 0 then none
    else if c.nagleWaits len then none
    else
      let last : Bool := c.sentOffset + len = c.send.len
      some (.data c.sentOffset len (c.closing && last && c.finSeq.isNone && c.state.canSend) last
        (c.sndNxt.before c.sndMax))

def decideData : Option Plan × Connection :=
  let len := (c.send.contiguous 0 c.maxSegment).length
  if c.fastRetransmit ∧ 0 < len then
    (some (.data 0 len false false true), { c with fastRetransmit := false })
  else
    (decideNext { c with fastRetransmit := false }, { c with fastRetransmit := false })

/-- The retransmission timer ran out: everything from the oldest number goes again. -/
def rewind : Connection :=
  let rto := c.rto.backOff
  { c with
    rto := rto
    congestion := c.congestion.onTimeout c.inFlight
    sndNxt := c.sndUna
    rttSample := none
    retransmitAt := some (saturatingAdd now rto.get) }

/-- The rest of `decide`, once the retransmission timer was looked at. -/
def decideOpen (now : Instant) : Option Plan × Connection :=
  match c.decideProbe now with
  | some plan => (some plan, c)
  | none =>
    match c.decideData with
    | (some plan, c) => (some plan, c)
    | (none, c) =>
      if c.finDue then (some .fin, c)
      else if c.ackDue now then (some .ack, c)
      else if due c.retransmitAt now then (none, c.armRetransmit now)
      else (none, c)

/-- Closes a connection that has waited long enough after both ends closed. -/
def endTimeWait : Connection :=
  if c.state = .timeWait ∧ due c.timeWaitUntil now then c.tearDown false else c

/-- The part of `decide` behind the reset and the end of `TIME-WAIT`. -/
def decideStanding : Option Plan × Connection :=
  if !c.state.isOpen || c.state = .listen then (none, c)
  else if c.synOutstanding || c.resendSyn then c.decideSyn now
  else if due c.retransmitAt now then
    let answer := c.giveUp
    if answer.1 then (none, answer.2) else (answer.2.rewind now).decideOpen now
  else c.decideOpen now

/-- What one segment would best say now. -/
def decide : Option Plan × Connection :=
  match c.resetPending with
  | some (dest, seq, ack) => (some (.reset dest seq ack), { c with resetPending := none })
  | none => (c.endTimeWait now).decideStanding now

/-! ## Saying it -/

/-- What this end has room for; the far edge of the window never moves back. -/
def advertise : BitVec 16 × Connection :=
  let edge := if c.rcvEdge.before c.rcvNxt then c.rcvNxt else c.rcvEdge
  let room := min (toU32 c.recv.window u32Max) 65535
  let far := c.rcvNxt.add room
  let edge := if far.after edge || !c.state.isSynchronized then far else edge
  (BitVec.ofNat 16 (min (edge.distanceFrom c.rcvNxt) 65535), { c with rcvEdge := edge })

end

/-- A segment as `transmit` writes it, with what `sent` has to record. -/
structure Outgoing where
  segment : Segment
  first : SeqNumber
  length : Nat
  finAt : Option SeqNumber
  again : Bool

variable (c : Connection) (plan : Plan)

def outgoing (window : BitVec 16) : Outgoing :=
  let plain : Segment := { Segment.new c.localEnd.port c.remote.port Flags.ack with
    window := window, ack := c.rcvNxt, seq := c.sndNxt }
  match plan with
  | .reset dest seq ack =>
    let segment : Segment := { Segment.new c.localEnd.port dest.port rst with
      seq := seq, ack := ack.getD c.rcvNxt
      flags := if ack.isSome then rst.with_ Flags.ack else rst }
    ⟨segment, c.sndNxt, 0, none, false⟩
  | .syn acknowledges =>
    ⟨{ plain with
        seq := c.iss
        flags := if acknowledges then syn.with_ Flags.ack else syn
        maxSegmentSize := some c.config.maxSegment },
      c.iss, 1, none, c.sndMax.after c.iss⟩
  | .data offset len fin push again =>
    let seq := c.sndUna.add (toU32 offset 0)
    let flags := if push then plain.flags.with_ Flags.psh else plain.flags
    let payload := c.send.contiguous offset len
    ⟨{ plain with
        seq := seq
        flags := if fin then flags.with_ Flags.fin else flags
        payload := payload },
      seq, sat32 (toU32 payload.length 0 + fin.toNat),
      if fin then some (seq.add (toU32 len 0)) else none, again⟩
  | .fin =>
    ⟨{ plain with flags := plain.flags.with_ Flags.fin }, c.sndNxt, 1, some c.sndNxt,
      c.sndMax.after c.sndNxt⟩
  | .probe offset =>
    let payload := c.send.contiguous offset 1
    ⟨{ plain with seq := c.sndUna.add (toU32 offset 0), payload := payload }, c.sndNxt,
      toU32 payload.length 0, none, false⟩
  | .ack => ⟨{ plain with seq := c.sndMax }, c.sndMax, 0, none, false⟩

variable (now : Instant)

/-- Everything that follows from a segment having gone out. -/
def sent (out : Outgoing) : Connection :=
  match plan with
  | .reset _ _ _ => c
  | .probe _ =>
    let stop := out.first.add out.length
    let rto := c.rto.backOff
    { c with
      ackNow := false
      ackAt := none
      sinceAck := 0
      sndMax := if stop.after c.sndMax then stop else c.sndMax
      rto := rto
      persistAt := some (saturatingAdd now rto.get) }
  | _ =>
    let stop := out.first.add out.length
    let c := { c with
      ackNow := false
      ackAt := none
      sinceAck := 0
      sndMax := if stop.after c.sndMax then stop else c.sndMax
      sndNxt := if c.sndNxt.before stop then stop else c.sndNxt }
    let c := match out.finAt with
      | none => c
      | some number =>
        { c with
          finSeq := some number
          state := match c.state with
            | .established => .finWait1
            | .closeWait => .lastAck
            | other => other }
    if out.length = 0 then c
    else
      { c with
        rttSample := if out.again then none
          else if c.rttSample.isNone then some (stop.sub 1, now) else c.rttSample
        retransmitAt := if c.retransmitAt.isNone then
            some (saturatingAdd now c.rto.get)
          else c.retransmitAt }

/-- Writes the segment the plan asks for. It is not written where the two ends have addresses of
different families, or where it is longer than the pseudo-header of its family can say. -/
def transmit : Option Segment × Connection :=
  let (window, c) := c.advertise
  let dest := match plan with
    | .reset dest _ _ => dest
    | _ => c.remote
  let out := c.outgoing plan window
  if c.localEnd.address.version ≠ dest.address.version ∨
      Wire.lengthLimit c.localEnd.address ≤ out.segment.wireLen then (none, c)
  else (some out.segment, c.sent plan now out)

/-- At most one segment that the connection has to send. -/
def poll : Option Segment × Connection :=
  match c.decide now with
  | (none, c) => (none, c)
  | (some plan, c) => c.transmit plan now

end Connection

end Audhsos.Tcp
