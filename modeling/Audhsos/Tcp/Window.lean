import Audhsos.Tcp.Frames
import Audhsos.Tcp.Stream

/-!
The window of the peer. A byte that goes out for the first time, but for that of a probe, lies
inside the window: new bytes and those that go again after a timeout are limited by the two windows.
A fast retransmission is not: it takes a full segment from the front of the send buffer, sent before
or not.
-/

namespace Audhsos.Tcp.Connection

open True Config

variable {c c' : Connection} {now : Instant} {plan : Plan}

/-! ## What is decided -/

variable (c)

/-- What the sending side reads of the peer and of the caller's bytes. -/
def outlook : SeqNumber × Nat × SendBuffer × Nat :=
  (c.sndUna, c.sndWnd, c.send, c.maxSegment)

def fastLen : Nat := c.send.run 0 c.maxSegment

/-- The plan sends no byte outside the window, or is a probe or a fast retransmission. -/
def Admits : Plan → Prop
  | .data offset len _ _ _ =>
    len ≤ c.maxSegment ∧ (offset + len ≤ c.sndWnd ∧ offset < 2 ^ 32 ∨
      c.fastRetransmit = true ∧ offset = 0 ∧ len = c.fastLen)
  | .probe offset => c.sndWnd = 0 ∧ offset < 2 ^ 32
  | _ => True

variable {c}

theorem Admits.congr (h : c'.Admits plan) (houtlook : c'.outlook = c.outlook)
    (hfast : c'.fastRetransmit = c.fastRetransmit) : c.Admits plan := by
  have hwindow : c'.sndWnd = c.sndWnd := congrArg (·.2.1) houtlook
  have hsend : c'.send = c.send := congrArg (·.2.2.1) houtlook
  have hsegment : c'.maxSegment = c.maxSegment := congrArg (·.2.2.2) houtlook
  cases plan with
  | data offset len fin push again =>
    unfold Admits fastLen at h ⊢
    dsimp only at h ⊢
    rwa [hwindow, hsend, hsegment, hfast] at h
  | probe offset => exact ⟨hwindow ▸ h.1, h.2⟩
  | reset | syn | fin | ack => exact intro

theorem sentOffset_le (c : Connection) : c.sentOffset ≤ c.inFlight := by
  unfold sentOffset
  split <;> omega

theorem inFlight_lt (c : Connection) : c.inFlight < 2 ^ 32 := (c.sndNxt - c.sndUna).isLt

variable (buffer : SendBuffer) (offset limit : Nat)

theorem run_le_limit : buffer.run offset limit ≤ limit := by
  unfold SendBuffer.run
  split
  · exact Nat.zero_le _
  · exact Nat.min_le_right _ _

theorem admits_decideNext (h : c.decideNext = some plan) : c.Admits plan := by
  have hoffset := c.sentOffset_le
  have hlt := c.inFlight_lt
  unfold decideNext at h
  dsimp only at h
  split at h
  · cases h
  next hsome =>
  split at h
  · cases h
  split at h
  · cases h
  cases h
  have hlen := run_le_limit c.send c.sentOffset c.limit
  rw [← contiguous_length] at hlen
  have hsegment : c.limit ≤ c.maxSegment := Nat.min_le_right _ _
  have hwindow : c.limit ≤ c.sndWnd - c.inFlight :=
    le_trans (Nat.min_le_left _ _) (Nat.sub_le_sub_right (Nat.min_le_left _ _) _)
  exact ⟨by omega, .inl ⟨by omega, by omega⟩⟩

theorem admits_decideOpen (h : (c.decideOpen now).1 = some plan) : c.Admits plan := by
  obtain ⟨hzero, hwaits, heq⟩ | ⟨hfast, -, heq⟩ | ⟨next, hnext, heq⟩ | ⟨-, -, heq⟩ :=
    decideOpen_cases c now <;> rw [heq] at h
  · cases h
    have hoffset := c.sentOffset_le
    have hlt := c.inFlight_lt
    exact ⟨by omega, by omega⟩
  · cases h
    exact ⟨run_le_limit _ _ _, .inr ⟨hfast, rfl, rfl⟩⟩
  · cases h
    have hadmits := admits_decideNext hnext
    cases plan with
    | data offset len fin push again =>
      exact ⟨hadmits.1, .inl (hadmits.2.resolve_right fun hfast => nomatch hfast.1)⟩
    | probe offset => exact hadmits
    | reset | syn | fin | ack => exact intro
  · split at h
    · cases h
      exact intro
    split at h
    · cases h
      exact intro
    split at h <;> cases h

theorem outlook_decideOpen (c : Connection) (now : Instant) :
    (c.decideOpen now).2.outlook = c.outlook := by
  obtain ⟨-, -, heq⟩ | ⟨-, -, heq⟩ | ⟨plan, -, heq⟩ | ⟨-, -, heq⟩ := decideOpen_cases c now <;>
    rw [heq]
  · rfl
  · rfl
  split
  · rfl
  split
  · rfl
  split <;> rfl

theorem outlook_giveUp (c : Connection) : c.giveUp.2.outlook = c.outlook := by
  unfold giveUp
  split <;> rfl

theorem admits_syn (h : (c.decideSyn now).1 = some plan) : c.Admits plan := by
  unfold decideSyn at h
  dsimp only at h
  split at h
  · cases h
    exact intro
  split at h
  · split at h
    · cases h
    · cases h
      exact intro
  split at h
  · cases h
    exact intro
  · cases h

section

variable (c : Connection) (now : Instant)

theorem outlook_decideSyn : (c.decideSyn now).2.outlook = c.outlook := by
  unfold decideSyn
  dsimp only
  split
  · rfl
  split
  · split
    · exact c.outlook_giveUp
    · exact c.outlook_giveUp
  split <;> rfl

theorem decideStanding_spec :
    (c.decideStanding now).2.outlook = c.outlook ∧
    ∀ plan, (c.decideStanding now).1 = some plan → c.Admits plan := by
  unfold decideStanding
  dsimp only
  split
  · exact ⟨rfl, nofun⟩
  split
  · exact ⟨c.outlook_decideSyn now, fun plan h => admits_syn h⟩
  split
  · split
    · exact ⟨c.outlook_giveUp, nofun⟩
    next hstays =>
      have hgiveUp : c.giveUp.2 = { c with retries := sat32 (c.retries + 1) } := by
        unfold giveUp at hstays ⊢
        split
        · rfl
        next hretries => exact absurd (by rw [if_neg hretries]) hstays
      rw [hgiveUp]
      refine ⟨outlook_decideOpen _ now, fun plan h => ?_⟩
      exact (admits_decideOpen h).congr rfl rfl
  · exact ⟨outlook_decideOpen c now, fun plan h => admits_decideOpen h⟩

theorem decide_spec :
    (c.decide now).2.outlook = c.outlook ∧
    ∀ plan, (c.decide now).1 = some plan → c.Admits plan := by
  unfold decide
  split
  · refine ⟨rfl, fun plan h => ?_⟩
    cases h
    exact intro
  unfold endTimeWait
  split
  · refine ⟨(decideStanding_spec _ now).1, fun plan h => ?_⟩
    have hclosed : (c.tearDown false).decideStanding now = (none, c.tearDown false) := rfl
    rw [hclosed] at h
    cases h
  · exact decideStanding_spec c now

end

/-! ## What is sent -/

/-- How far behind the oldest number not acknowledged the segment starts. -/
def reach (c : Connection) (segment : Segment) : Nat := segment.seq.distanceFrom c.sndUna

theorem distanceFrom_add {number : SeqNumber} {offset : Nat} (h : offset < 2 ^ 32) :
    (number.add (toU32 offset 0)).distanceFrom number = offset := by
  unfold toU32 u32Max
  rw [if_pos (by omega)]
  change (number + BitVec.ofNat 32 offset - number).toNat = offset
  rw [add_sub_cancel_left, BitVec.toNat_ofNat]
  exact Nat.mod_eq_of_lt h

/-- A fast retransmission goes out. -/
def Repeats (c : Connection) (now : Instant) : Prop :=
  (c.poll now).1 ≠ none ∧ c.fastRetransmit = true ∧
    ∃ fin push again, (c.decide now).1 = some (.data 0 c.fastLen fin push again)

/-- Where the bytes of a segment lie. -/
inductive Within (c : Connection) (now : Instant) (segment : Segment) : Prop where
  | empty (h : segment.payload = [])
  | window (hsize : segment.payload.length ≤ c.maxSegment)
      (hplace : c.reach segment + segment.payload.length ≤ c.sndWnd)
  | fast (hsize : segment.payload.length ≤ c.maxSegment) (hrepeats : c.Repeats now)
  | probe (hclosed : c.sndWnd = 0) (hsize : segment.payload.length ≤ 1)
      (hplan : ∃ offset, (c.decide now).1 = some (.probe offset))

theorem contiguous_le : (buffer.contiguous offset limit).length ≤ limit := by
  rw [contiguous_length]
  exact run_le_limit buffer offset limit

theorem within_poll {segment : Segment} (h : (c.poll now).1 = some segment) :
    c.Within now segment := by
  have hpoll := h
  obtain ⟨houtlook, hadmits⟩ := c.decide_spec now
  unfold poll at h
  rcases hd : c.decide now with ⟨plan | plan, c₁⟩
  · rw [hd] at h
    cases h
  rw [hd] at h houtlook hadmits
  specialize hadmits plan rfl
  have huna : c₁.advertise.2.sndUna = c.sndUna := congrArg (·.1) houtlook
  dsimp only at h
  rcases transmit_cases c₁ plan now with heq | heq
  · rw [heq] at h
    cases h
  rw [heq] at h
  cases h
  cases plan with
  | reset | syn | fin | ack => exact .empty rfl
  | data offset len fin push again =>
    have hlen := contiguous_le c₁.advertise.2.send offset len
    obtain ⟨hsize, ⟨hplace, hoffset⟩ | ⟨hfast, rfl, rfl⟩⟩ := hadmits
    · refine .window (le_trans hlen hsize) ?_
      have hreach : c.reach (c₁.advertise.2.outgoing (.data offset len fin push again)
          c₁.advertise.1).segment = offset := by
        unfold reach
        rw [← huna]
        exact distanceFrom_add hoffset
      rw [hreach]
      exact le_trans (Nat.add_le_add_left hlen offset) hplace
    · exact .fast (le_trans hlen hsize)
        ⟨by rw [hpoll]; exact nofun, hfast, fin, push, again, by rw [hd]⟩
  | probe offset =>
    exact .probe hadmits.1 (contiguous_le c₁.advertise.2.send offset 1) ⟨offset, by rw [hd]⟩

theorem Repeats.front {segment : Segment} (h : c.Repeats now)
    (hpoll : (c.poll now).1 = some segment) :
    c.reach segment = 0 ∧ segment.payload.length = c.fastLen := by
  obtain ⟨-, -, fin, push, again, hplan⟩ := h
  have houtlook := (c.decide_spec now).1
  unfold poll at hpoll
  rcases hd : c.decide now with ⟨plan, c₁⟩
  rw [hd] at hpoll houtlook hplan
  obtain rfl : plan = _ := hplan
  have huna : c₁.advertise.2.sndUna = c.sndUna := congrArg (·.1) houtlook
  have hsend : c₁.advertise.2.send = c.send := congrArg (·.2.2.1) houtlook
  dsimp only at hpoll
  rcases transmit_cases c₁ (.data 0 c.fastLen fin push again) now with heq | heq
  · rw [heq] at hpoll
    cases hpoll
  rw [heq] at hpoll
  cases hpoll
  constructor
  · unfold reach
    rw [← huna]
    exact distanceFrom_add (by decide)
  · change (c₁.advertise.2.send.contiguous 0 c.fastLen).length = c.fastLen
    rw [hsend, contiguous_length, fastLen, run_run]

/-! ## The size of segments -/

def Sized (c : Connection) : Prop := 0 < c.config.maxSegment.toNat ∧ 0 < c.maxSegment

theorem Sized.ends (h : c.Sized) (hends : c'.ends = c.ends) : c'.Sized := by
  have hconfig : c'.config = c.config := congrArg (·.2.2.1) hends
  have hsegment : c'.maxSegment = c.maxSegment := congrArg (·.2.2.2) hends
  unfold Sized at h ⊢
  rwa [hconfig, hsegment]

theorem sized_acceptPeer (h : c.Sized) (segment : Segment) : (c.acceptPeer segment).Sized := by
  refine ⟨h.1, ?_⟩
  have hleast : 0 < minMaxSegment := by decide
  exact Nat.lt_min.mpr ⟨lt_of_lt_of_le hleast (le_max_right _ _), h.1⟩

theorem sized_onSegment (h : c.Sized) (source : IpAddr) (segment : Segment) (now : Instant) :
    (c.onSegment source segment now).Sized := by
  unfold onSegment
  split
  · exact h
  · unfold onSegmentListen
    split
    · exact h
    split
    · exact h
    split
    · exact h
    · exact sized_acceptPeer h segment
  · obtain hfollows | ⟨hfixed, -⟩ := onSegmentSynSent_cases c segment now
    · exact h.ends (ends_of_fixed hfollows.fixed)
    · exact (sized_acceptPeer h segment).ends (ends_of_fixed hfixed)
  · exact h.ends (ends_onSegmentOpen c segment now)

theorem sized_event (h : c.Sized) (event : Event) : (event.apply c).Sized := by
  cases event with
  | listen drawn =>
    change (c.listen drawn).2.Sized
    unfold listen
    split
    · exact h
    · cases drawn <;> exact h
  | connect remote drawn =>
    change (c.connect remote drawn).2.Sized
    unfold connect
    split
    · exact h
    split
    · exact h
    · cases drawn <;> exact h
  | write data => exact h.ends (ends_of_fixed (follows_write c data).fixed)
  | read | consume => exact h
  | close => exact h.ends (ends_of_fixed (follows_close c).fixed)
  | abort => exact h.ends (ends_of_fixed (follows_abort c).fixed)
  | arrive source segment now => exact sized_onSegment h source segment now
  | poll now => exact h.ends (ends_of_fixed (follows_poll c now).fixed)

/-! ## Runs -/

/-- A connection with the history of its bytes since it was opened: how many left the send buffer,
and the places in the stream of all that were sent. -/
structure History where
  conn : Connection
  released : Nat
  places : List Nat

namespace History

variable (s : History)

def carried (segment : Segment) : List Nat :=
  (List.range segment.payload.length).map fun i => s.released + (s.conn.reach segment + i)

def step (event : Event) : History :=
  match event with
  | .arrive source segment now =>
    let conn := s.conn.onSegment source segment now
    ⟨conn, s.released + (s.conn.send.len - conn.send.len), s.places⟩
  | .poll now =>
    match s.conn.poll now with
    | (some segment, conn) => ⟨conn, s.released, s.places ++ s.carried segment⟩
    | (none, conn) => ⟨conn, s.released, s.places⟩
  | event =>
    if event.starts s.conn then ⟨event.apply s.conn, 0, []⟩
    else ⟨event.apply s.conn, s.released, s.places⟩

variable (events : List Event)

def run : History := events.foldl step s

theorem conn_step (event : Event) : (s.step event).conn = event.apply s.conn := by
  cases event with
  | poll now =>
    unfold step Event.apply
    dsimp only
    split
    next heq => rw [heq]
    next heq => rw [heq]
  | arrive => rfl
  | _ =>
    unfold step
    dsimp only
    split <;> rfl

theorem sized_run (s : History) (h : s.conn.Sized) : (s.run events).conn.Sized := by
  induction events generalizing s with
  | nil => exact h
  | cons event events ih =>
    refine ih (s.step event) ?_
    rw [conn_step]
    exact sized_event h event

/-- What the segment sends for the first time lies inside the window of the peer, or is the byte of a
probe. -/
def Inside (s : History) (now : Instant) (segment : Segment) : Prop :=
  ∀ i < segment.payload.length, s.released + (s.conn.reach segment + i) ∉ s.places →
    s.conn.reach segment + i < s.conn.sndWnd ∨
    s.conn.sndWnd = 0 ∧ segment.payload.length = 1 ∧
      ∃ offset, (s.conn.decide now).1 = some (.probe offset)

end History

def narrowAck : Segment := { synAck with window := 2 }

def sameAck : Segment := { Segment.new 2000 1000 Flags.ack with seq := 101, ack := 8, window := 2 }

/-- The first two bytes go out, and the peer asks for the first one again. -/
def threeSameAcks (data : List Byte) : List Event :=
  [.connect hostB (some 7), .poll 0, .arrive (.v4 2) narrowAck 10, .poll 10,
    .write data, .poll 10, .arrive (.v4 2) sameAck 20, .arrive (.v4 2) sameAck 20,
    .arrive (.v4 2) sameAck 20]

end Audhsos.Tcp.Connection
