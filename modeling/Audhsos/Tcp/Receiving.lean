import Audhsos.Tcp.Frames
import Audhsos.Tcp.Reassembly
import Audhsos.Tcp.Stream

/-!
The next number expected from the peer. It is the peer's first number, one more for its opening,
one for each byte that arrived in order and one for its closing number, once that was taken.
-/

namespace Audhsos.Tcp

namespace Connection

open SeqNumber State True

variable {c c' : Connection} {segment : Segment} {now : Instant} {count : Nat}

/-! ## The invariant -/

/-- The next number expected, with `count` bytes accepted in order. -/
def Counts (c : Connection) (count : Nat) : Prop :=
  c.rcvNxt = fromBase c.irs (1 + count + c.peerFinished.toNat)

/-- Where a connection stands towards the stream of its peer. -/
structure Expects (c : Connection) (count : Nat) : Prop where
  shaped : c.recv.Shaped
  small : c.recv.ring.capacity < 2 ^ 32
  opening : c.state.isOpening = true → count = 0 ∧ c.peerFinished = false
  begun : c.state.begun = true → c.Counts count
  finished : c.peerFinished = true → c.state.awaitsFin = false

theorem Counts.congr (h : c.Counts count) (hfixed : c'.fixed = c.fixed) : c'.Counts count := by
  unfold Counts at h ⊢
  rw [show c'.rcvNxt = c.rcvNxt from congrArg Fixed.rcvNxt hfixed,
    show c'.irs = c.irs from congrArg Fixed.irs hfixed,
    show c'.peerFinished = c.peerFinished from congrArg Fixed.peerFinished hfixed, h]

theorem not_awaits_of_follows (h : Follows c c') (hfin : c.state.awaitsFin = false) :
    c'.state.awaitsFin = false := by
  by_contra hawaits
  have hbefore := h.awaits (by simpa using hawaits)
  rw [hfin] at hbefore
  cases hbefore

theorem Expects.follows (h : c.Expects count) (hfollows : Follows c c') : c'.Expects count := by
  have hrecv := hfollows.recv
  have hpeer := hfollows.peerFinished
  refine ⟨hrecv ▸ h.shaped, hrecv ▸ h.small, fun hstate => ?_, fun hbegun => ?_, fun hfin => ?_⟩
  · rw [hpeer]
    exact h.opening (hfollows.opening hstate)
  · exact (h.begun (hfollows.begun hbegun)).congr hfollows.fixed
  · exact not_awaits_of_follows hfollows (h.finished (hpeer ▸ hfin))

theorem listen_or_synSent (h : c.state.isOpening = true) :
    c.state = .listen ∨ c.state = .synSent ∨ c.state = .synReceived := by
  revert h
  cases c.state <;> simp [isOpening]

theorem awaitsFin_of_isOpening (h : c.state.isOpening = true) : c.state.awaitsFin = true := by
  revert h
  cases c.state <;> simp [isOpening, awaitsFin]

theorem opening_of_sync (h : c'.state.isSynchronized = true ∨ c'.state = .closed) :
    ¬ (c'.state = .listen ∨ c'.state = .synSent ∨ c'.state = .synReceived) := by
  rintro (hs | hs | hs) <;> rw [hs] at h <;> rcases h with h | h <;> cases h

/-! ## Text -/

theorem counts_withText (h : c.Counts count) (hshaped : c.recv.Shaped)
    (hsmall : c.recv.ring.capacity < 2 ^ 32) (segment : Segment) :
    let c' := c.withText segment
    c'.Counts (count + (c'.recv.ready - c.recv.ready)) ∧ c'.recv.Shaped ∧
    c'.recv.ring.capacity = c.recv.ring.capacity ∧ c.recv.ready ≤ c'.recv.ready := by
  intro c'
  have hafter : c'.recv.Shaped ∧ c'.recv.ring.capacity = c.recv.ring.capacity ∧
      c.recv.ready ≤ c'.recv.ready := by
    by_cases hoffset : c.textOffset segment < c.recv.ring.capacity
    · have haccepted := hshaped.accept hoffset (c.textData segment)
      exact ⟨haccepted.shaped, haccepted.capacity, haccepted.ready_le⟩
    have heq : c.recv.accept (c.textOffset segment) (c.textData segment) = c.recv := by
      rw [RecvBuffer.accept_eq, if_pos (by omega)]
    have hrecv : c'.recv = c.recv := heq
    rw [hrecv]
    exact ⟨hshaped, rfl, le_rfl⟩
  refine ⟨?_, hafter⟩
  obtain ⟨hshaped', hcapacity, hle⟩ := hafter
  have hready' := hshaped'.ready_le
  have hnext : c'.rcvNxt =
      c.rcvNxt - BitVec.ofNat 32 c.recv.ready + BitVec.ofNat 32 c'.recv.ready := by
    change (c.rcvNxt.sub (toU32 c.recv.ready 0)).add (toU32 c'.recv.ready u32Max) = _
    unfold toU32 u32Max
    rw [if_pos (by omega), if_pos (by omega)]
    rfl
  unfold Counts at h ⊢
  rw [hnext, h]
  change fromBase c.irs _ - _ + _ =
    fromBase c.irs (1 + (count + (c'.recv.ready - c.recv.ready)) + c.peerFinished.toNat)
  obtain ⟨d, hd⟩ := Nat.exists_eq_add_of_le hle
  rw [hd, Nat.add_sub_cancel_left]
  unfold fromBase
  simp only [BitVec.ofNat_add]
  ring

theorem counts_withFin (h : c.Counts count) (hfin : c.peerFinished = false) :
    c.withFin.Counts count := by
  change c.rcvNxt.add 1 = fromBase c.irs (1 + count + 1)
  rw [h, hfin, add_fromBase]
  rfl

/-! ## Segments -/

theorem state_checkAck (hbegun : c.state.begun = true)
    (hcheck : (c.checkAck segment now).1 = true) :
    (c.checkAck segment now).2.state.isSynchronized = true ∨
      (c.checkAck segment now).2.state = .closed := by
  unfold checkAck at hcheck ⊢
  dsimp only at hcheck ⊢
  split at hcheck
  · cases hcheck
  next hfirst =>
  rw [if_neg hfirst]
  have hsync : (if c.state = .synReceived then
      { c with state := .established, retransmitAt := none }
      else c).state.isSynchronized = true := by
    split
    · rfl
    next hstate =>
      revert hbegun hstate
      cases c.state <;> simp [begun, isSynchronized]
  revert hsync hcheck
  generalize (if c.state = .synReceived then
    { c with state := .established, retransmitAt := none } else c) = c₁
  intro hcheck hsync
  split at hcheck
  · cases hcheck
  next hmax =>
  rw [if_neg hmax]
  split
  · exact state_onNewAck hsync _
  split
  · left
    unfold onDuplicateAck
    dsimp only
    split <;> exact hsync
  · exact .inl hsync

/-- What the event adds to the bytes accepted in order. -/
def grown (c c' : Connection) : Nat := c'.recv.ready - c.recv.ready

theorem counts_acceptText {c₁ : Connection} (h : c.Expects count) (hbegun : c.state.begun = true)
    (hwindow : c.Follows c₁) :
    let c₂ := c₁.acceptText segment c.recv.window now
    c₂.Counts (count + c.grown c₂) ∧ c₂.recv.Shaped ∧
    c₂.recv.ring.capacity = c.recv.ring.capacity ∧ c₂.state = c₁.state ∧
    (c₂.peerFinished = c.peerFinished ∧ (c.peerFinished = true → c₂.rcvNxt = c.rcvNxt)) := by
  dsimp only
  have hcounts : c₁.Counts count := (h.begun hbegun).congr hwindow.fixed
  obtain ⟨-, heq⟩ | ⟨-, hreceive, hfollows, hstate'⟩ :=
    acceptText_cases c₁ segment c.recv.window now
  · rw [heq]
    unfold grown
    rw [hwindow.recv, tsub_self]
    exact ⟨hcounts, h.shaped, rfl, rfl, hwindow.peerFinished, fun _ => hwindow.rcvNxt⟩
  obtain ⟨htext, htshaped, htcapacity, -⟩ := counts_withText hcounts
    (hwindow.recv ▸ h.shaped) (by rw [hwindow.recv]; exact h.small) segment
  rw [hwindow.recv] at htext htcapacity
  unfold grown
  rw [hfollows.recv]
  refine ⟨htext.congr hfollows.fixed, htshaped, htcapacity, hstate', ?_, fun hfin => ?_⟩
  · exact hfollows.peerFinished.trans hwindow.peerFinished
  · have hawaits := hwindow.awaits (awaitsFin_of_canReceive hreceive)
    rw [h.finished hfin] at hawaits
    cases hawaits

theorem expects_taken (h : c.Expects count) (hbegun : c.state.begun = true)
    (honce : c.peerFinished = true → ¬ c.FinHere segment)
    (hcheck : (c.checkAck segment now).1 = true) :
    let taken := ((c.checkAck segment now).2.updateWindow segment).acceptText segment
      c.recv.window now |>.checkFin segment now
    taken.Expects (count + c.grown taken) := by
  dsimp only
  have hwindow := (follows_checkAck c segment now).trans (follows_updateWindow _ segment)
  have hstate : ((c.checkAck segment now).2.updateWindow segment).state.isSynchronized = true ∨
      ((c.checkAck segment now).2.updateWindow segment).state = .closed := by
    rw [(same_updateWindow _ segment).2]
    exact state_checkAck hbegun hcheck
  generalize (c.checkAck segment now).2.updateWindow segment = c₁ at hwindow hstate ⊢
  obtain ⟨hc₂, hshaped, hsize, hstate₂, hsame⟩ := counts_acceptText h hbegun hwindow
  generalize c₁.acceptText segment c.recv.window now = c₂ at hc₂ hshaped hsize hstate₂ hsame ⊢
  have hold : c₂.state.isSynchronized = true ∨ c₂.state = .closed := by
    rw [hstate₂]
    exact hstate
  have hlast : c.peerFinished = true → c₂.state.awaitsFin = false := by
    intro hfin
    rw [hstate₂]
    exact not_awaits_of_follows hwindow (h.finished hfin)
  have hopening := opening_of_sync hold
  obtain ⟨-, heq⟩ | ⟨hhere, hfollows, hawaits⟩ := checkFin_cases c₂ segment now
  · rw [heq]
    refine ⟨hshaped, by rw [hsize]; exact h.small, fun hs => ?_, fun _ => hc₂, fun hfin => ?_⟩
    · exact absurd (listen_or_synSent hs) hopening
    · exact hlast (hsame.1 ▸ hfin)
  -- the closing number is taken for the first time
  have hunfinished : c.peerFinished = false := by
    by_contra hfin
    have htrue : c.peerFinished = true := by simpa using hfin
    refine honce htrue ⟨hhere.1, ?_⟩
    rw [← hsame.2 htrue]
    exact hhere.2
  have hc₃ := counts_withFin hc₂ (hsame.1.trans hunfinished)
  have hrecv : (c₂.checkFin segment now).recv = c₂.recv := hfollows.recv
  unfold grown at hc₃ ⊢
  rw [hrecv]
  refine ⟨hrecv ▸ hshaped, by rw [hrecv, hsize]; exact h.small, fun hs => ?_,
    fun _ => hc₃.congr hfollows.fixed, fun _ => ?_⟩
  · exact absurd (hawaits (awaitsFin_of_isOpening hs)) hopening
  · by_contra hbefore
    exact absurd (hawaits (by simpa using hbefore)) hopening

theorem grown_of_follows (h : Follows c c') : c.grown c' = 0 := by
  unfold grown
  rw [h.recv, tsub_self]

section

variable (h : c.Expects count)
include h

theorem expects_opened (hopening : c.state.isOpening = true) (segment : Segment)
    (hfixed : c'.fixed = { (c.acceptPeer segment).fixed with remote := c'.remote }) :
    c'.Expects (count + c.grown c') := by
  obtain ⟨hcount, hpeer⟩ := h.opening hopening
  have hrecv : c'.recv = c.recv := congrArg Fixed.recv hfixed
  have hfin : c'.peerFinished = false := (congrArg Fixed.peerFinished hfixed).trans hpeer
  have hgrown : c.grown c' = 0 := by
    unfold grown
    rw [hrecv, tsub_self]
  rw [hgrown, hcount]
  refine ⟨hrecv ▸ h.shaped, hrecv ▸ h.small, fun _ => ⟨rfl, hfin⟩, fun _ => ?_, fun hf => ?_⟩
  · unfold Counts
    rw [show c'.rcvNxt = segment.seq.add 1 from congrArg Fixed.rcvNxt hfixed,
      show c'.irs = segment.seq from congrArg Fixed.irs hfixed, hfin]
    rfl
  · rw [hfin] at hf
    cases hf

theorem expects_onSegment (source : IpAddr) (honce : c.peerFinished = true → ¬ c.FinHere segment) :
    (c.onSegment source segment now).Expects
      (count + c.grown (c.onSegment source segment now)) := by
  obtain hfollows | ⟨hopening, hfixed, -⟩ | ⟨hbegun, hcheck, heq⟩ :=
    onSegment_cases c source segment now
  · rw [grown_of_follows hfollows]
    exact h.follows hfollows
  · exact expects_opened h hopening segment hfixed
  · rw [heq]
    exact expects_taken h hbegun honce hcheck

theorem expects_consume (n : Nat) : Connection.Expects { c with recv := c.recv.consume n } count :=
  ⟨(h.shaped.consume n).1, h.small, h.opening, h.begun, h.finished⟩

theorem expects_poll (now : Instant) : (c.poll now).2.Expects count := by
  have hafter := h.follows (follows_poll c now)
  exact ⟨hafter.shaped, hafter.small, hafter.opening, hafter.begun, hafter.finished⟩

end

/-! ## Runs -/

/-- The bytes that the event adds to the run at the front of the receive buffer. -/
def Event.accepted (c : Connection) : Event → Nat
  | .arrive source segment now => c.grown (c.onSegment source segment now)
  | _ => 0

/-- The event does not open the connection again, and brings no second closing number. -/
def Event.ClosesOnce (c : Connection) : Event → Prop
  | .listen _ | .connect _ _ => False
  | .arrive _ segment _ => c.peerFinished = true → ¬ c.FinHere segment
  | _ => True

theorem expects_event (h : c.Expects count) (event : Event) (honce : event.ClosesOnce c) :
    (event.apply c).Expects (count + event.accepted c) := by
  cases event with
  | listen | connect => exact honce.elim
  | write data => exact h.follows (follows_write c data)
  | read n =>
    change Connection.Expects { c with recv := (c.recv.read n).2 } count
    rw [RecvBuffer.read_snd]
    exact expects_consume h n
  | consume n => exact expects_consume h n
  | close => exact h.follows (follows_close c)
  | abort => exact h.follows (follows_abort c)
  | arrive source segment now => exact expects_onSegment h source honce
  | poll now => exact expects_poll h now

variable (s : Connection × Nat)

/-- The connection after an event, with the number of bytes accepted in order. -/
def countStep (event : Event) : Connection × Nat :=
  (event.apply s.1, s.2 + event.accepted s.1)

variable (events : List Event)

def runCount : Connection × Nat :=
  events.foldl countStep s

/-- Every event of the run closes the peer's stream at most once where it happens. -/
def ClosesOnceRun : Connection → List Event → Prop
  | _, [] => True
  | c, event :: events => event.ClosesOnce c ∧ ClosesOnceRun (event.apply c) events

theorem expects_runCount (s : Connection × Nat) (h : s.1.Expects s.2)
    (honce : ClosesOnceRun s.1 events) : (runCount s events).1.Expects (runCount s events).2 := by
  induction events generalizing s with
  | nil => exact h
  | cons event events ih => exact ih (countStep s event) (expects_event h event honce.1) honce.2

def Event.Opens : Event → Prop
  | .listen _ | .connect _ _ => True
  | _ => False

section

variable (localEnd : Endpoint) (config : Config) (send recv : Ring) (first : Event)
  (hfirst : first.Opens)
include hfirst

theorem opens_spec :
    let c := first.apply (Connection.new localEnd config send recv)
    c.recv = RecvBuffer.new recv ∧ c.peerFinished = false ∧
      (c.state = .closed ∨ c.state = .listen ∨ c.state = .synSent) := by
  cases first with
  | listen drawn =>
    cases drawn with
    | none => exact ⟨rfl, rfl, .inl rfl⟩
    | some iss => exact ⟨rfl, rfl, .inr (.inl rfl)⟩
  | connect remote drawn =>
    intro c
    have hconnect : c = (Connection.connect _ remote drawn).2 := rfl
    rw [hconnect]
    unfold connect
    split
    · exact ⟨rfl, rfl, .inl rfl⟩
    split
    · exact ⟨rfl, rfl, .inl rfl⟩
    cases drawn with
    | none => exact ⟨rfl, rfl, .inl rfl⟩
    | some iss => exact ⟨rfl, rfl, .inr (.inr rfl)⟩
  | _ => exact hfirst.elim

theorem expects_opens (hrecv : recv.capacity < 2 ^ 32) :
    (first.apply (Connection.new localEnd config send recv)).Expects 0 := by
  obtain ⟨hbuffer, hpeer, hstate⟩ := opens_spec localEnd config send recv first hfirst
  refine ⟨?_, ?_, fun _ => ⟨rfl, hpeer⟩, fun hbegun => ?_, fun hfin => ?_⟩
  · rw [hbuffer]
    exact RecvBuffer.shaped_new recv
  · rw [hbuffer]
    exact hrecv
  · rcases hstate with hs | hs | hs <;> rw [hs] at hbegun <;> cases hbegun
  · rw [hpeer] at hfin
    cases hfin

end

/-- From the opening of a connection on, and as long as the peer closes its stream once, the
next number expected counts its opening, the bytes accepted in order and its closing number. -/
theorem run_counts_stream (localEnd : Endpoint) (config : Config) (send recv : Ring)
    (first : Event) (events : List Event) (hfirst : first.Opens) (hrecv : recv.capacity < 2 ^ 32)
    (honce : ClosesOnceRun (first.apply (Connection.new localEnd config send recv)) events) :
    let s := runCount (first.apply (Connection.new localEnd config send recv), 0) events
    s.1.state.isSynchronized = true →
      s.1.rcvNxt = fromBase s.1.irs (1 + s.2 + s.1.peerFinished.toNat) := by
  intro s hsync
  have hexpects : s.1.Expects s.2 :=
    expects_runCount events _ (expects_opens localEnd config send recv first hfirst hrecv) honce
  exact hexpects.begun (begun_of_isSynchronized hsync)

/-- A segment of the peer with the number `seq` that closes its stream. -/
def lastSegment (seq : SeqNumber) (payload : List Byte) : Segment :=
  { Segment.new 2000 1000 (Flags.fin.with_ Flags.ack) with
    seq := seq, ack := 8, window := 4096, payload := payload }

/-- The peer opens, sends two bytes and closes its stream. -/
def closedByPeer : List Event :=
  [.poll 0, .arrive (.v4 2) synAck 10, .poll 10, .arrive (.v4 2) (lastSegment 101 [1, 2]) 20]

theorem run_counts_stream_closed :
    let s := runCount ((Event.connect hostB (some 7)).apply (eightBytes Config.default), 0)
      closedByPeer
    s.1.state = .closeWait ∧ s.2 = 2 ∧ s.1.rcvNxt = 104 ∧
      s.1.rcvNxt = fromBase s.1.irs (1 + s.2 + s.1.peerFinished.toNat) := by
  refine ⟨by decide +kernel, by decide +kernel, by decide +kernel, ?_⟩
  refine run_counts_stream hostA Config.default ⟨8, fun _ => 0⟩ ⟨8, fun _ => 0⟩
    (.connect hostB (some 7)) closedByPeer intro (by decide)
    ⟨intro, ?_, intro, ?_, intro⟩ (by decide +kernel)
  · exact fun hfin => absurd hfin (by decide +kernel)
  · exact fun hfin => absurd hfin (by decide +kernel)

/-- A second closing number behind the first one is counted as well. -/
theorem second_fin_counted :
    ¬ ∀ (first : Event) (events : List Event), first.Opens →
      let s := runCount (first.apply (eightBytes Config.default), 0) events
      s.1.state.isSynchronized = true →
        s.1.rcvNxt = fromBase s.1.irs (1 + s.2 + s.1.peerFinished.toNat) := by
  intro h
  have hrun := h (.connect hostB (some 7))
    (closedByPeer ++ [.arrive (.v4 2) (lastSegment 104 []) 30]) intro (by decide +kernel)
  revert hrun
  decide +kernel

end Connection

end Audhsos.Tcp
