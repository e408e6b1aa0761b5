import Audhsos.Tcp.Connection

/-!
What `poll` decides, by cases, and the events that a connection goes through: the calls of its owner,
the segments of its peer and the polls.
-/

namespace Audhsos.Tcp.Connection

open Config

variable {c : Connection} {now : Instant}

/-! ## What is sent -/

theorem contiguous_length (buffer : SendBuffer) (offset limit : Nat) :
    (buffer.contiguous offset limit).length = buffer.run offset limit := by
  simp [SendBuffer.contiguous]

theorem run_pos {buffer : SendBuffer} {offset limit : Nat} (hheld : 0 < buffer.len - offset)
    (hlimit : 0 < limit) : 0 < buffer.run offset limit := by
  have hlen := buffer.len_le
  have hwrap : wrap (buffer.head + offset) buffer.ring.capacity < buffer.ring.capacity := by
    unfold wrap
    rw [if_neg (by omega)]
    exact Nat.mod_lt _ (by omega)
  unfold SendBuffer.run
  rw [if_neg (by omega)]
  omega

theorem decide_of_no_reset (h : c.resetPending = none) :
    c.decide now = (c.endTimeWait now).decideStanding now := by
  unfold decide
  rw [h]

theorem endTimeWait_of_ne (h : c.state ≠ .timeWait) : c.endTimeWait now = c :=
  if_neg fun hboth => h hboth.1

/-- A probe, the oldest bytes again, the next bytes, or what is left when none of these is due. -/
theorem decideOpen_cases (c : Connection) (now : Instant) :
    let c' := { c with fastRetransmit := false }
    (c.sndWnd = 0 ∧ c.sentOffset < c.send.len ∧
      c.decideOpen now = (some (.probe c.sentOffset), c)) ∨
    (c.fastRetransmit = true ∧ 0 < c.send.run 0 c.maxSegment ∧ c.decideOpen now =
      (some (.data 0 (c.send.run 0 c.maxSegment) false false true), c')) ∨
    (∃ plan, c'.decideNext = some plan ∧ c.decideOpen now = (some plan, c')) ∨
    c.decideProbe now = none ∧ c'.decideNext = none ∧ c.decideOpen now =
      if c'.finDue then (some .fin, c')
      else if c'.ackDue now then (some .ack, c')
      else if due c'.retransmitAt now then (none, c'.armRetransmit now)
      else (none, c') := by
  unfold decideOpen decideData
  simp only [contiguous_length]
  cases hprobe : c.decideProbe now with
  | some plan =>
    unfold decideProbe at hprobe
    split at hprobe
    · cases hprobe
    split at hprobe
    · cases hprobe
      exact .inl ⟨by omega, by omega, rfl⟩
    · cases hprobe
  | none =>
    by_cases hfast : c.fastRetransmit = true ∧ 0 < c.send.run 0 c.maxSegment
    · rw [if_pos hfast]
      exact .inr (.inl ⟨hfast.1, hfast.2, rfl⟩)
    rw [if_neg hfast]
    cases hnext : decideNext { c with fastRetransmit := false } with
    | some plan => exact .inr (.inr (.inl ⟨plan, rfl, rfl⟩))
    | none => exact .inr (.inr (.inr ⟨rfl, rfl, rfl⟩))

theorem giveUp_false (h : c.giveUp.1 = false) :
    c.giveUp.2 = { c with retries := sat32 (c.retries + 1) } := by
  unfold giveUp at h ⊢
  split at h
  · rename_i hlt
    rw [if_pos hlt]
  · cases h

theorem giveUp_true (h : c.giveUp.1 = true) :
    c.giveUp.2 = { c.tearDown false with timedOut := true } := by
  unfold giveUp at h ⊢
  split at h
  · cases h
  · rename_i hlt
    rw [if_neg hlt]

theorem transmit_cases (c : Connection) (plan : Plan) (now : Instant) :
    c.transmit plan now = (none, c.advertise.2) ∨
      c.transmit plan now =
        (some (c.advertise.2.outgoing plan c.advertise.1).segment,
          c.advertise.2.sent plan now (c.advertise.2.outgoing plan c.advertise.1)) := by
  unfold transmit
  dsimp only
  split_ifs
  · exact .inl rfl
  · exact .inr rfl

/-! ## Events -/

inductive Event where
  | listen (drawn : Option SeqNumber)
  | connect (remote : Endpoint) (drawn : Option SeqNumber)
  | write (data : List Byte)
  | read (count : Nat)
  | consume (count : Nat)
  | close
  | abort
  | arrive (source : IpAddr) (segment : Segment) (now : Instant)
  | poll (now : Instant)

variable (c)

def Event.apply : Event → Connection
  | .listen drawn => (c.listen drawn).2
  | .connect remote drawn => (c.connect remote drawn).2
  | .write data => (c.write data).2
  | .read count => (c.read count).2
  | .consume count => c.consume count
  | .close => c.close.2
  | .abort => c.abort
  | .arrive source segment now => c.onSegment source segment now
  | .poll now => (c.poll now).2

/-! ## Two hosts -/

def hostA : Endpoint := ⟨.v4 1, 1000⟩
def hostB : Endpoint := ⟨.v4 2, 2000⟩

def eightBytes (config : Config) : Connection :=
  Connection.new hostA config ⟨8, fun _ => 0⟩ ⟨8, fun _ => 0⟩

def synAck : Segment :=
  { Segment.new 2000 1000 (Flags.syn.with_ Flags.ack) with seq := 100, ack := 8, window := 4096 }

end Audhsos.Tcp.Connection
