import Audhsos.Tcp.Sending

/-!
The numbers of a stream over whole runs: next to the connection a run keeps the bytes that `write`
has taken since the connection was opened, and every byte that is sent carries the number of its
place among them.
-/

namespace Audhsos.Tcp.Connection

open SeqNumber True Config

variable {c : Connection} {capacity : Nat} {written : List Byte}

/-! ## One event -/

/-- The bytes that an event adds to the stream. -/
def Event.taken (c : Connection) : Event → List Byte
  | .write data =>
    match (c.write data).1 with
    | .ok count => data.take count
    | .error _ => []
  | _ => []

/-- The event is a successful opening. -/
def Event.starts (c : Connection) : Event → Bool
  | .listen drawn => (c.listen drawn).1.isOk
  | .connect remote drawn => (c.connect remote drawn).1.isOk
  | _ => false

/-- The stream behind an event; an opening starts a new one. -/
def Event.stream (c : Connection) (written : List Byte) (event : Event) : List Byte :=
  if event.starts c then [] else written ++ event.taken c

/-- An opening finds nothing left of the connection before it, and the acknowledgment that a segment
brings leaves the oldest number where the connection looks for it. -/
def Event.Ordinary (c : Connection) (event : Event) : Prop :=
  (event.starts c = true → c.send.len = 0 ∧ c.finSeq = none) ∧
  match event with
  | .arrive source segment now => (c.onSegment source segment now).Placed
  | _ => True

/-- What an opening does: where it is refused the numbers stay, and otherwise all of them are the
initial one. -/
inductive Opened (c : Connection) (opened : Except TcpError Unit × Connection) : Prop where
  | refused {error : TcpError} (herror : opened.1 = .error error)
      (hnumbers : opened.2.numbers = c.numbers) (hstate : opened.2.state = c.state)
  | fresh (iss : SeqNumber) (hok : opened.1 = .ok ())
      (hstate : opened.2.state = .listen ∨ opened.2.state = .synSent)
      (hnumbers : opened.2.numbers = (iss, iss, iss, iss, c.send, c.finSeq, c.resendSyn))

theorem opened_listen (c : Connection) (drawn : Option SeqNumber) : Opened c (c.listen drawn) := by
  unfold listen
  split
  · exact .refused rfl rfl rfl
  cases drawn with
  | none => exact .refused rfl rfl rfl
  | some iss => exact .fresh iss rfl (.inl rfl) rfl

theorem opened_connect (c : Connection) (remote : Endpoint) (drawn : Option SeqNumber) :
    Opened c (c.connect remote drawn) := by
  unfold connect
  split
  · exact .refused rfl rfl rfl
  split
  · exact .refused rfl rfl rfl
  cases drawn with
  | none => exact .refused rfl rfl rfl
  | some iss => exact .fresh iss rfl (.inr rfl) rfl

section

variable (h : Numbered capacity written c)
include h

theorem numbered_write (data : List Byte) :
    Numbered capacity (written ++ Event.taken c (.write data)) (c.write data).2 := by
  unfold Event.taken
  dsimp only
  by_cases hopen : (c.closing || !c.state.canSend) = true
  · have hwrite : c.write data = (.error (.wrongState c.state), c) := if_pos hopen
    rw [hwrite, List.append_nil]
    exact h
  have hwrite : c.write data =
      (.ok (c.send.write data).1, { c with send := (c.send.write data).2 }) := if_neg hopen
  rw [hwrite]
  have hsend : c.state.canSend = true := by
    simp only [Bool.or_eq_true, Bool.not_eq_true', not_or, Bool.not_eq_false] at hopen
    exact hopen.2
  have hsync : c.state.isSynchronized = true := by
    revert hsend
    cases c.state <;> decide
  obtain ⟨r, n, m, φ, hflow, hcontents, hring⟩ := h.exists_flow hsync
  -- nothing closes a stream that can still be written to
  have hfin : c.finSeq = none := by
    cases hfin : c.finSeq with
    | none => rfl
    | some f =>
      have hclosed := (hflow.fin f hfin).2
      rw [hsend] at hclosed
      cases hclosed
  have hcount : c.finCount = 0 := by
    rw [finCount, hfin]
    rfl
  have hheld := hflow.held
  have hmax := hflow.max_le
  have hacked := hflow.acked
  have htaken : (data.take (c.send.write data).1).length = (c.send.write data).1 := by
    rw [List.length_take]
    exact Nat.min_eq_left (Nat.min_le_left _ _)
  have hlen : (c.send.write data).2.len = c.send.len + (c.send.write data).1 := rfl
  refine .flow r n m φ hsync ⟨hflow.una, hflow.una_ne, hflow.nxt, hflow.max, hflow.una_le,
    hflow.nxt_le, ?_, ?_, hflow.acked, ?_, ?_, hflow.resend⟩ ?_ ?_
  · rw [List.length_append]
    refine le_trans hmax ?_
    rw [hcount]
    exact le_trans (Nat.le_add_right _ _) (Nat.le_add_right _ _)
  · rw [List.length_append, htaken]
    dsimp only
    omega
  · intro hone
    omega
  · intro f hf
    rw [hfin] at hf
    cases hf
  · dsimp only
    rw [SendBuffer.contents_write, hcontents, List.drop_append_of_le_length (by omega)]
  · exact (Ring.capacity_write _ _ _).trans hring

theorem numbered_close : Numbered capacity written c.close.2 := by
  unfold close
  split
  · exact h
  · exact .closed rfl h.ring
  · exact .closed rfl h.ring
  · exact h.same rfl rfl

theorem numbered_abort : Numbered capacity written c.abort := by
  refine .closed rfl ?_
  unfold abort
  dsimp only
  split <;> exact h.ring

theorem numbered_opened {opened : Except TcpError Unit × Connection} (hopened : Opened c opened)
    (hempty : opened.1.isOk = true → c.send.len = 0 ∧ c.finSeq = none) :
    Numbered capacity (if opened.1.isOk then [] else written ++ []) opened.2 := by
  cases hopened with
  | refused herror hnumbers hstate =>
    rw [herror, List.append_nil]
    exact h.same hnumbers hstate
  | fresh iss hok hstate hnumbers =>
    obtain ⟨hlen, hfin⟩ := hempty (by rw [hok]; rfl)
    simp only [numbers, Prod.mk.injEq] at hnumbers
    obtain ⟨huna, hnxt, hmax, hiss, hsend, hfinEq, -⟩ := hnumbers
    rw [hok]
    refine .opening ⟨?_, ?_, ?_, .inl ?_, ?_, ?_⟩ rfl (by rw [hsend]; exact h.ring)
    · exact hstate.imp id .inl
    · rw [huna, hiss]
    · rw [hnxt, hmax]
    · rw [hmax, hiss]
    · rw [hsend]; exact hlen
    · rw [hfinEq]; exact hfin

theorem numbered_event (hcapacity : capacity + 2 < 2 ^ 31) (event : Event)
    (hordinary : event.Ordinary c) :
    Numbered capacity (event.stream c written) (event.apply c) := by
  have hnothing : ∀ c', Numbered capacity written c' → Numbered capacity (written ++ []) c' := by
    intro c' h
    rw [List.append_nil]
    exact h
  cases event with
  | listen drawn => exact numbered_opened h (opened_listen c drawn) hordinary.1
  | connect remote drawn => exact numbered_opened h (opened_connect c remote drawn) hordinary.1
  | write data => exact numbered_write h data
  | read | consume => exact hnothing _ (h.same rfl rfl)
  | close => exact hnothing _ (numbered_close h)
  | abort => exact hnothing _ (numbered_abort h)
  | arrive source segment now =>
    exact hnothing _ (numbered_onSegment h hcapacity source segment hordinary.2)
  | poll now => exact hnothing _ (numbered_poll h hcapacity now).1

end

/-! ## Runs -/

variable (s : Connection × List Byte)

/-- The connection after an event, with the bytes written to it since it was opened. -/
def streamStep (event : Event) : Connection × List Byte :=
  (event.apply s.1, event.stream s.1 s.2)

variable (events : List Event)

def runStream : Connection × List Byte :=
  events.foldl streamStep s

/-- Every event of the run is ordinary where it happens. -/
def OrdinaryRun : Connection → List Event → Prop
  | _, [] => True
  | c, event :: events => event.Ordinary c ∧ OrdinaryRun (event.apply c) events

theorem numbered_runStream (s : Connection × List Byte)
    (h : Numbered capacity s.2 s.1) (hcapacity : capacity + 2 < 2 ^ 31)
    (hordinary : OrdinaryRun s.1 events) :
    Numbered capacity (runStream s events).2 (runStream s events).1 := by
  induction events generalizing s with
  | nil => exact h
  | cons event events ih =>
    exact ih (streamStep s event) (numbered_event h hcapacity event hordinary.1) hordinary.2

/-! ## From the beginning -/

/-- The peer has not acknowledged the number that closes the stream. -/
def FinOpen (c : Connection) : Prop := ∀ f, c.finSeq = some f → c.sndUna ≠ f.add 1

/-- The front of the send buffer is the byte whose number is `sndUna`: what is released from the
buffer is what is acknowledged of the stream. -/
def FrontAcknowledged (c : Connection) (written : List Byte) : Prop :=
  ∃ released, c.sndUna = fromBase c.iss (1 + released) ∧
    c.send.contents = written.drop released ∧ written.length = released + c.send.len

theorem Numbered.front (h : Numbered capacity written c) (hsync : c.state.isSynchronized = true)
    (hfin : c.FinOpen) : c.FrontAcknowledged written := by
  obtain ⟨r, n, m, φ, hflow, hcontents, _⟩ := h.exists_flow hsync
  have hone : c.finCount ≤ 1 := Bool.toNat_le _
  have hacked := hflow.acked
  have hheld := hflow.held
  have hzero : φ = 0 := by
    by_contra hpos
    have hφ : φ = 1 := by omega
    have hempty := hflow.empty hφ
    cases hseq : c.finSeq with
    | none =>
      rw [finCount, hseq] at hacked
      exact hpos (Nat.le_zero.mp hacked)
    | some f =>
      refine hfin f hseq ?_
      rw [(hflow.fin f hseq).1, add_fromBase, hflow.una]
      congr 1
      omega
  subst hzero
  exact ⟨r, hflow.una, hcontents, hheld⟩

/-- The connection opens, a second opening is refused, and two bytes go out; the peer acknowledges
the first of them. -/
def twoBytes : List Event :=
  [.connect hostB (some 7), .connect hostB (some 8), .poll 0, .arrive (.v4 2) synAck 10, .poll 10,
    .write [1], .poll 10, .arrive (.v4 2) { synAck with flags := Flags.ack, seq := 101, ack := 9 } 20,
    .write [2]]

/-- Answers the opening segment before it was sent, with the number half a circle away. -/
def halfAck : Segment := { synAck with ack := fromBase 7 (2 ^ 31) }

/-- Acknowledges the number before the first one. -/
def earlyAck : Segment :=
  { Segment.new 2000 1000 Flags.ack with seq := 101, ack := 6, window := 4096 }

def halfCircle : List Event :=
  [.connect hostB (some 7), .arrive (.v4 2) halfAck 10, .arrive (.v4 2) earlyAck 20, .write [10, 20]]

end Audhsos.Tcp.Connection
