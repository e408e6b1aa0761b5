import Audhsos.Tcp.SendRing

/-!
The numbers of the bytes. `Flow` places the three numbers of the sending side by their distance from
the initial one: how many bytes were released, how far was sent and how far was ever sent. The
connection takes a number that is not acknowledged for the opening one by comparing it with the
initial number; `Placed` says that this is right.
-/

namespace Audhsos.Tcp.Connection

open SeqNumber

variable {c c' : Connection} {now : Instant} {w r n m φ : Nat}

/-- The closing number, once it was sent, takes one number behind the bytes. -/
def finCount (c : Connection) : Nat := c.finSeq.isSome.toNat

/-- A connection that is opening: nothing is acknowledged, and at most its own first number was
sent. -/
structure Opening (c : Connection) : Prop where
  state : c.state = .listen ∨ c.state = .synSent ∨ c.state = .synReceived
  una : c.sndUna = c.iss
  nxt : c.sndNxt = c.sndMax
  max : c.sndMax = c.iss ∨ c.sndMax = fromBase c.iss 1
  len : c.send.len = 0
  fin : c.finSeq = none

/-- The oldest number not acknowledged is the initial one exactly while the connection opens. -/
def Placed (c : Connection) : Prop :=
  c.state ≠ .closed → (c.sndUna = c.iss ↔ c.state.isSynchronized = false)

/-- Of `w` bytes `r` were released, `n` sent since the last timeout and `m` ever sent; `φ` is one
once the closing number is acknowledged. -/
structure Flow (c : Connection) (w r n m φ : Nat) : Prop where
  una : c.sndUna = fromBase c.iss (1 + (r + φ))
  una_ne : c.sndUna ≠ c.iss
  nxt : c.sndNxt = fromBase c.iss (1 + n)
  max : c.sndMax = fromBase c.iss (1 + m)
  una_le : r + φ ≤ n
  nxt_le : n ≤ m
  max_le : m ≤ w + c.finCount
  held : w = r + c.send.len
  acked : φ ≤ c.finCount
  empty : φ = 1 → c.send.len = 0
  fin : ∀ f, c.finSeq = some f → f = fromBase c.iss (1 + w) ∧ c.state.canSend = false
  resend : c.resendSyn = true → m = 0

/-- The part of a connection that its numbers depend on, but for the state. -/
def numbers (c : Connection) : SeqNumber × SeqNumber × SeqNumber × SeqNumber × SendBuffer ×
    Option SeqNumber × Bool :=
  (c.sndUna, c.sndNxt, c.sndMax, c.iss, c.send, c.finSeq, c.resendSyn)

theorem Flow.congr (h : Flow c w r n m φ) (hnumbers : c'.numbers = c.numbers)
    (hstate : c'.state.canSend = true → c.state.canSend = true) : Flow c' w r n m φ := by
  simp only [numbers, Prod.mk.injEq] at hnumbers
  obtain ⟨huna, hnxt, hmax, hiss, hsend, hfin, hresend⟩ := hnumbers
  have hcount : c'.finCount = c.finCount := by rw [finCount, hfin, finCount]
  refine ⟨?_, ?_, ?_, ?_, h.una_le, h.nxt_le, ?_, ?_, ?_, ?_, ?_, ?_⟩
  · rw [huna, hiss]; exact h.una
  · rw [huna, hiss]; exact h.una_ne
  · rw [hnxt, hiss]; exact h.nxt
  · rw [hmax, hiss]; exact h.max
  · rw [hcount]; exact h.max_le
  · rw [hsend]; exact h.held
  · rw [hcount]; exact h.acked
  · rw [hsend]; exact h.empty
  · intro f hf
    rw [hfin] at hf
    rw [hiss]
    refine ⟨(h.fin f hf).1, ?_⟩
    have hno := (h.fin f hf).2
    cases hcan : c'.state.canSend with
    | false => rfl
    | true => rw [hstate hcan] at hno; cases hno
  · rw [hresend]; exact h.resend

theorem Opening.congr (h : Opening c) (hnumbers : c'.numbers = c.numbers)
    (hstate : c'.state = .listen ∨ c'.state = .synSent ∨ c'.state = .synReceived) : Opening c' := by
  simp only [numbers, Prod.mk.injEq] at hnumbers
  obtain ⟨huna, hnxt, hmax, hiss, hsend, hfin, -⟩ := hnumbers
  refine ⟨hstate, ?_, ?_, ?_, ?_, ?_⟩
  · rw [huna, hiss]; exact h.una
  · rw [hnxt, hmax]; exact h.nxt
  · rw [hmax, hiss]; exact h.max
  · rw [hsend]; exact h.len
  · rw [hfin]; exact h.fin

/-! ## The invariant -/

/-- Where a connection with a send buffer of `capacity` bytes stands towards the stream of the
bytes written to it. -/
inductive Numbered (capacity : Nat) (written : List Byte) (c : Connection) : Prop where
  | closed (state : c.state = .closed) (ring : c.send.ring.capacity = capacity)
  | opening (opening : Opening c) (empty : written = []) (ring : c.send.ring.capacity = capacity)
  | flow (r n m φ : Nat) (state : c.state.isSynchronized = true)
      (flow : Flow c written.length r n m φ) (contents : c.send.contents = written.drop r)
      (ring : c.send.ring.capacity = capacity)

theorem Flow.span (h : Flow c w r n m φ) : m ≤ r + φ + c.send.len + 1 := by
  have hcount : c.finCount ≤ 1 := Bool.toNat_le _
  have hmax := h.max_le
  have hheld := h.held
  omega

theorem finCount_some {f : SeqNumber} (h : c.finSeq = some f) : c.finCount = 1 := by
  rw [finCount, h]
  rfl

theorem finCount_none (h : c.finSeq = none) : c.finCount = 0 := by
  rw [finCount, h]
  rfl

section

variable (h : Flow c w r n m φ) (hbuffer : c.send.len + 2 < 2 ^ 31)
include h hbuffer

theorem Flow.inFlight : c.inFlight = n - (r + φ) := by
  have hspan := h.span
  have hle := h.una_le
  have hnxt := h.nxt_le
  unfold Connection.inFlight
  rw [h.nxt, h.una, distanceFrom_fromBase _ (by omega) (by omega)]
  omega

theorem Flow.sentOffset : c.sentOffset = n - (r + φ) := by
  unfold Connection.sentOffset
  rw [if_neg (fun hboth => h.una_ne hboth.1), h.inFlight hbuffer]

end

/-! ## Acknowledgments -/

variable {ack : SeqNumber}

/-- An acknowledgment of something new, and of nothing that was never sent. -/
theorem Flow.ack_cases (h : Flow c w r n m φ) (hbuffer : c.send.len + 2 < 2 ^ 31)
    (hafter : ack.after c.sndUna = true) (hmax : ack.after c.sndMax = false) :
    ∃ d, ack = fromBase c.iss (1 + (r + φ) + d) ∧ ack.distanceFrom c.sndUna = d ∧ 0 < d ∧
      r + φ + d ≤ m := by
  have hspan := h.span
  have hle := h.una_le
  have hnxt := h.nxt_le
  have hack := eq_fromBase c.iss (1 + (r + φ)) ack
  rw [← h.una] at hack
  generalize hd : ack.distanceFrom c.sndUna = d at hack
  have hpos : d ≠ 0 ∧ d < 2 ^ 31 := by
    unfold after before at hafter
    rw [decide_eq_true_eq] at hafter
    unfold distanceFrom at hd
    rw [hd] at hafter
    exact hafter
  refine ⟨d, hack, rfl, by omega, ?_⟩
  unfold after at hmax
  rw [hack, h.max, before_fromBase _ (by omega) (by omega), decide_eq_false_iff_not] at hmax
  omega

/-- The connection behind an acknowledgment, before the state follows. -/
def acked (c : Connection) (ack : SeqNumber) (now : Instant) : Connection :=
  let counted := c.ackedBytes ack
  let c := { c with
    send := c.send.acknowledge counted
    sndUna := ack
    sndNxt := if c.sndNxt.before ack then ack else c.sndNxt
    retries := 0 }
  let c := c.measure ack now
  let c := { c with congestion := c.congestion.onAck counted, persistAt := none }
  c.armRetransmit now

section

variable (c : Connection) (ack : SeqNumber) (now : Instant)

theorem onNewAck_eq : c.onNewAck ack now = (c.acked ack now).advanceAfterAck now :=
  rfl

theorem numbers_measure :
    (c.measure ack now).numbers = c.numbers ∧ (c.measure ack now).state = c.state := by
  unfold measure
  split
  · split <;> exact ⟨rfl, rfl⟩
  · exact ⟨rfl, rfl⟩

theorem numbers_acked :
    (c.acked ack now).numbers = (ack, if c.sndNxt.before ack then ack else c.sndNxt, c.sndMax,
      c.iss, c.send.acknowledge (c.ackedBytes ack), c.finSeq, c.resendSyn) ∧
      (c.acked ack now).state = c.state := by
  have hmeasure := numbers_measure { c with
    send := c.send.acknowledge (c.ackedBytes ack)
    sndUna := ack
    sndNxt := if c.sndNxt.before ack then ack else c.sndNxt
    retries := 0 } ack now
  exact ⟨hmeasure.1, hmeasure.2⟩

theorem una_onNewAck :
    (c.onNewAck ack now).sndUna = ack ∧ (c.onNewAck ack now).iss = c.iss ∧
      (c.onNewAck ack now).send = c.send.acknowledge (c.ackedBytes ack) := by
  have hacked := (numbers_acked c ack now).1
  simp only [numbers, Prod.mk.injEq] at hacked
  have hsame : ∀ c : Connection, (c.advanceAfterAck now).sndUna = c.sndUna ∧
      (c.advanceAfterAck now).iss = c.iss ∧ (c.advanceAfterAck now).send = c.send := by
    intro c
    unfold advanceAfterAck
    split
    · split <;> exact ⟨rfl, rfl, rfl⟩
    · exact ⟨rfl, rfl, rfl⟩
  obtain ⟨huna, hiss, hsend⟩ := hsame (c.acked ack now)
  exact ⟨huna.trans hacked.1, hiss.trans hacked.2.2.2.1, hsend.trans hacked.2.2.2.2.1⟩

end

section

variable (h : Flow c w r n m φ) (hbuffer : c.send.len + 2 < 2 ^ 31) {ack : SeqNumber}
include h hbuffer

/-- The bytes counted are those between the two numbers, without the closing one. -/
theorem Flow.ackedBytes {d : Nat}
    (hack : ack = fromBase c.iss (1 + (r + φ) + d)) (hd : ack.distanceFrom c.sndUna = d)
    (hle : r + φ + d ≤ m) (hpos : 0 < d) :
    φ = 0 ∧ ∃ φ' ≤ c.finCount, c.ackedBytes ack + φ' = d ∧ r + c.ackedBytes ack ≤ w ∧
      (φ' = 1 → r + c.ackedBytes ack = w) := by
  have hcount : c.finCount ≤ 1 := Bool.toNat_le _
  have hmax := h.max_le
  have hheld := h.held
  have hacked := h.acked
  have hzero : φ = 0 := by
    by_contra hne
    have hone : φ = 1 := by omega
    have hempty := h.empty hone
    omega
  refine ⟨hzero, ?_⟩
  subst hzero
  unfold Connection.ackedBytes
  dsimp only
  rw [if_neg h.una_ne, hd]
  cases hfin : c.finSeq with
  | none =>
    rw [finCount_none hfin] at hmax
    exact ⟨0, Nat.zero_le _, rfl, by simp; omega, nofun⟩
  | some f =>
    have hone := finCount_some hfin
    have hafter : ack.after f = Decidable.decide (w < r + d) := by
      unfold after
      rw [hack, (h.fin f hfin).1, before_fromBase _ (by omega) (by omega)]
      exact decide_eq_decide.2 (by omega)
    simp only [Option.map_some, Option.getD_some, hafter, decide_eq_true_eq]
    by_cases hlast : w < r + d
    · rw [if_pos hlast]
      exact ⟨1, by omega, by omega, by omega, fun _ => by omega⟩
    · rw [if_neg hlast]
      exact ⟨0, Nat.zero_le _, rfl, by omega, nofun⟩

theorem Flow.acked_flow (hne : ack ≠ c.iss)
    (hafter : ack.after c.sndUna = true) (hmax : ack.after c.sndMax = false) (now : Instant) :
    ∃ k n' φ', k ≤ c.send.len ∧ (c.acked ack now).send.contents = c.send.contents.drop k ∧
      Flow (c.acked ack now) w (r + k) n' m φ' := by
  obtain ⟨d, hack, hd, hpos, hle⟩ := h.ack_cases hbuffer hafter hmax
  obtain ⟨rfl, φ', hφ, hbytes, hin, hlast⟩ := h.ackedBytes hbuffer hack hd hle hpos
  obtain ⟨hnumbers, hstate⟩ := numbers_acked c ack now
  simp only [numbers, Prod.mk.injEq] at hnumbers
  obtain ⟨huna, hnxt, hmaxEq, hiss, hsend, hfin, hresend⟩ := hnumbers
  have hcount : (c.acked ack now).finCount = c.finCount := by rw [finCount, hfin, finCount]
  have hheld := h.held
  have hspan := h.span
  have hunaLe := h.una_le
  have hnxtLe := h.nxt_le
  have hmaxLe := h.max_le
  have hkle : c.ackedBytes ack ≤ c.send.len := by omega
  -- what is behind the acknowledgment was sent before, or is to go next
  have hnext : ∃ n', (c.acked ack now).sndNxt = fromBase c.iss (1 + n') ∧ r + d ≤ n' ∧
      n' ≤ m := by
    rw [hnxt, hack, h.nxt, before_fromBase _ (by omega) (by omega)]
    by_cases hlt : n < r + d
    · exact ⟨r + d, by rw [if_pos (by simp; omega)]; congr 1; omega, le_refl _, by omega⟩
    · exact ⟨n, by rw [if_neg (by simp; omega)], by omega, hnxtLe⟩
  obtain ⟨n', hn', hlow, hhigh⟩ := hnext
  have hlen : (c.acked ack now).send.len = c.send.len - c.ackedBytes ack := by
    rw [hsend]
    change c.send.len - min (c.ackedBytes ack) c.send.len = _
    omega
  refine ⟨c.ackedBytes ack, n', φ', hkle, ?_,
    ⟨?_, ?_, ?_, ?_, by omega, hhigh, ?_, by omega, ?_, fun hφ' => ?_, fun f hf => ?_, ?_⟩⟩
  · rw [hsend, SendBuffer.contents_acknowledge, Nat.min_eq_left hkle]
  · rw [huna, hiss]
    exact hack.trans (congrArg _ (by omega))
  · rw [huna, hiss]
    exact hne
  · rw [hiss]
    exact hn'
  · rw [hmaxEq, hiss]
    exact h.max
  · rw [hcount]
    exact hmaxLe
  · rw [hcount]
    exact hφ
  · have := hlast hφ'
    omega
  · rw [hfin] at hf
    rw [hiss, hstate]
    exact h.fin f hf
  · rw [hresend]
    exact h.resend

end

/-! ## Segments keep the numbers -/

variable {capacity : Nat} {written : List Byte}

theorem state_advanceAfterAck (hsync : c.state.isSynchronized = true) :
    (c.advanceAfterAck now).state.isSynchronized = true ∨
      (c.advanceAfterAck now).state = .closed := by
  unfold advanceAfterAck
  split
  · split
    · exact .inl rfl
    · exact .inl rfl
    · exact .inr rfl
    · exact .inl hsync
  · exact .inl hsync

theorem state_onNewAck (hsync : c.state.isSynchronized = true) (ack : SeqNumber) :
    (c.onNewAck ack now).state.isSynchronized = true ∨ (c.onNewAck ack now).state = .closed := by
  rw [onNewAck_eq]
  refine state_advanceAfterAck ?_
  rw [(numbers_acked c ack now).2]
  exact hsync

theorem Numbered.exists_flow (h : Numbered capacity written c)
    (hsync : c.state.isSynchronized = true) :
    ∃ r n m φ, Flow c written.length r n m φ ∧ c.send.contents = written.drop r ∧
      c.send.ring.capacity = capacity := by
  cases h with
  | closed hclosed => rw [hclosed] at hsync; cases hsync
  | opening hopening => rcases hopening.state with h | h | h <;> rw [h] at hsync <;> cases hsync
  | flow r n m φ _ hflow hcontents hring => exact ⟨r, n, m, φ, hflow, hcontents, hring⟩

theorem send_of_numbers (hnumbers : c'.numbers = c.numbers) : c'.send = c.send := by
  simp only [numbers, Prod.mk.injEq] at hnumbers
  exact hnumbers.2.2.2.2.1

section

variable (h : Numbered capacity written c)
include h

theorem Numbered.ring : c.send.ring.capacity = capacity := by
  cases h with
  | closed _ hring => exact hring
  | opening _ _ hring => exact hring
  | flow _ _ _ _ _ _ _ hring => exact hring

/-- The state moves on among those in which both ends have agreed on the numbers. -/
theorem Numbered.restate (hnumbers : c'.numbers = c.numbers)
    (hsync : c.state.isSynchronized = true) (hsync' : c'.state.isSynchronized = true)
    (hstate : c'.state.canSend = true → c.state.canSend = true) : Numbered capacity written c' := by
  obtain ⟨r, n, m, φ, hflow, hcontents, hring⟩ := h.exists_flow hsync
  have hsend := send_of_numbers hnumbers
  exact .flow r n m φ hsync' (hflow.congr hnumbers hstate) (by rw [hsend]; exact hcontents)
    (by rw [hsend]; exact hring)

theorem Numbered.same (hnumbers : c'.numbers = c.numbers)
    (hstate : c'.state = c.state) : Numbered capacity written c' := by
  have hsend := send_of_numbers hnumbers
  cases h with
  | closed hclosed hring => exact .closed (hstate.trans hclosed) (by rw [hsend]; exact hring)
  | opening hopening hempty hring =>
    exact .opening (hopening.congr hnumbers (by rw [hstate]; exact hopening.state)) hempty
      (by rw [hsend]; exact hring)
  | flow r n m φ hsync hflow hcontents hring =>
    exact .flow r n m φ (by rw [hstate]; exact hsync)
      (hflow.congr hnumbers (by rw [hstate]; exact id)) (by rw [hsend]; exact hcontents)
      (by rw [hsend]; exact hring)

theorem numbered_advanceAfterAck (hsync : c.state.isSynchronized = true) :
    Numbered capacity written (c.advanceAfterAck now) := by
  unfold advanceAfterAck
  split
  · split
    · rename_i hstate
      exact h.restate rfl hsync rfl (by rw [hstate]; exact id)
    · exact h.restate rfl hsync rfl nofun
    · exact .closed rfl h.ring
    · exact h
  · exact h

theorem numbered_onNewAck
    (hsync : c.state.isSynchronized = true) (hcapacity : capacity + 2 < 2 ^ 31)
    (hafter : ack.after c.sndUna = true) (hmax : ack.after c.sndMax = false)
    (hplaced : (c.onNewAck ack now).Placed) :
    Numbered capacity written (c.onNewAck ack now) := by
  obtain ⟨huna, hiss, hsend⟩ := una_onNewAck c ack now
  -- an acknowledgment that comes round to the initial number has closed the connection
  by_cases hne : ack = c.iss
  · rcases state_onNewAck hsync ack with hgoes | hclosed
    · have hno := (hplaced (fun hclosed => by rw [hclosed] at hgoes; cases hgoes)).1
        (by rw [huna, hiss]; exact hne)
      rw [hgoes] at hno
      cases hno
    · exact .closed hclosed (by rw [hsend]; exact h.ring)
  rw [onNewAck_eq]
  obtain ⟨hnumbers, hstate⟩ := numbers_acked c ack now
  refine numbered_advanceAfterAck ?_ (by rw [hstate]; exact hsync)
  obtain ⟨r, n, m, φ, hflow, hcontents, hring⟩ := h.exists_flow hsync
  have hlen := c.send.len_le
  obtain ⟨k, n', φ', hk, hdrop, hflow'⟩ := hflow.acked_flow (by omega) hne hafter hmax now
  refine .flow (r + k) n' m φ' (by rw [hstate]; exact hsync) hflow' ?_ ?_
  · rw [hdrop, hcontents, List.drop_drop]
  · simp only [numbers, Prod.mk.injEq] at hnumbers
    rw [hnumbers.2.2.2.2.1]
    exact hring

theorem numbered_updateWindow (segment : Segment) :
    Numbered capacity written (c.updateWindow segment) := by
  unfold updateWindow
  split
  · exact h.same rfl rfl
  · exact h

end

section

variable (c : Connection) (segment : Segment)

theorem same_updateWindow : (c.updateWindow segment).numbers = c.numbers ∧
    (c.updateWindow segment).state = c.state := by
  unfold updateWindow
  split <;> exact ⟨rfl, rfl⟩

theorem same_acceptText (windowBefore : Nat) (now : Instant) :
    (c.acceptText segment windowBefore now).numbers = c.numbers ∧
      (c.acceptText segment windowBefore now).state = c.state := by
  unfold acceptText
  dsimp only
  repeat' split
  all_goals exact ⟨rfl, rfl⟩

end

theorem Placed.congr (h : c.Placed) (hnumbers : c'.numbers = c.numbers)
    (hstate : c'.state = c.state) : c'.Placed := by
  simp only [numbers, Prod.mk.injEq] at hnumbers
  unfold Placed at h ⊢
  rwa [hstate, hnumbers.1, hnumbers.2.2.2.1]

theorem placed_of_checkFin {segment : Segment} (h : (c.checkFin segment now).Placed) :
    c.Placed := by
  unfold checkFin at h
  split at h
  · exact h
  split at h
  · exact h
  intro _
  dsimp only at h
  split at h
  · rename_i hstate
    rw [show c.state = _ from hstate]
    exact h nofun
  · rename_i hstate
    rw [show c.state = _ from hstate]
    split at h <;> exact h nofun
  · rename_i hstate
    rw [show c.state = _ from hstate]
    exact h nofun
  · exact h ‹_›
  · exact h ‹_›

theorem numbered_checkFin (h : Numbered capacity written c)
    (hsync : c.state.isSynchronized = true ∨ c.state = .closed) (segment : Segment) :
    Numbered capacity written (c.checkFin segment now) := by
  unfold checkFin
  split
  · exact h
  split
  · exact h
  dsimp only
  rcases hsync with hsync | hclosed
  · split
    · rename_i hstate
      exact h.restate rfl hsync rfl (by rw [show c.state = _ from hstate]; exact fun _ => rfl)
    · split
      · exact h.restate rfl hsync rfl nofun
      · exact h.restate rfl hsync rfl nofun
    · exact h.restate rfl hsync rfl nofun
    · exact h.same rfl rfl
    · exact h.same rfl rfl
  · split
    all_goals first
      | (rename_i hstate; rw [show c.state = _ from hstate] at hclosed; cases hclosed)
      | exact .closed hclosed h.ring

/-! ## The opening handshake -/

theorem after_self (number : SeqNumber) : number.after number = false := by
  unfold after before
  simp

theorem not_after_of_beforeOrEqual {number other : SeqNumber}
    (h : number.beforeOrEqual other = true) : number.after other = false := by
  unfold beforeOrEqual at h
  rw [Bool.or_eq_true, decide_eq_true_eq] at h
  rcases h with rfl | h
  · exact after_self _
  have hnumber := number.isLt
  have hother := other.isLt
  unfold before half at h
  unfold after before half
  rw [decide_eq_true_eq, BitVec.toNat_sub] at h
  rw [decide_eq_false_iff_not, BitVec.toNat_sub]
  omega

theorem Opening.ack_eq (h : Opening c) (hafter : c.sndUna.before ack = true)
    (hmax : ack.after c.sndMax = false) :
    ack = fromBase c.iss 1 ∧ c.sndMax = fromBase c.iss 1 := by
  have hack := eq_fromBase c.iss 0 ack
  rw [fromBase_zero, zero_add] at hack
  generalize hd : ack.distanceFrom c.iss = d at hack
  have hpos : d ≠ 0 ∧ d < 2 ^ 31 := by
    rw [h.una] at hafter
    unfold before at hafter
    rw [decide_eq_true_eq] at hafter
    unfold distanceFrom at hd
    rw [hd] at hafter
    exact hafter
  unfold after at hmax
  rcases h.max with hzero | hone
  · rw [hzero, hack] at hmax
    have hno := before_fromBase c.iss (show 0 < d + 2 ^ 31 by omega) (by omega)
    rw [fromBase_zero, hmax, eq_comm, decide_eq_false_iff_not] at hno
    omega
  · rw [hone, hack, before_fromBase c.iss (by omega) (by omega), decide_eq_false_iff_not] at hmax
    obtain rfl : d = 1 := by omega
    exact ⟨hack, hone⟩

/-- With its first number acknowledged, a connection without bytes flows. -/
theorem Opening.flow (h : Opening c) (huna : c'.sndUna = fromBase c.iss 1)
    (hmax : c.sndMax = fromBase c.iss 1)
    (hrest : c'.numbers = (c'.sndUna, c.sndNxt, c.sndMax, c.iss, c'.send, c.finSeq, c.resendSyn))
    (hlen : c'.send.len = 0) : Flow c' 0 0 0 0 0 := by
  simp only [numbers, Prod.mk.injEq, true_and] at hrest
  obtain ⟨hnxt, hmaxEq, hiss, hfin, -⟩ := hrest
  have hnone : c'.finSeq = none := hfin.trans h.fin
  refine ⟨?_, ?_, ?_, ?_, le_refl _, le_refl _, Nat.zero_le _, by rw [hlen], Nat.zero_le _, nofun,
    ?_, fun _ => rfl⟩
  · rw [huna, hiss]
  · rw [huna, hiss]
    intro heq
    have hzero := (fromBase_inj c.iss (show 1 < 0 + 2 ^ 32 by omega) (by omega)).1
      (heq.trans (fromBase_zero c.iss).symm)
    omega
  · rw [hnxt, hiss, h.nxt, hmax]
  · rw [hmaxEq, hiss, hmax]
  · intro f hf
    rw [hnone] at hf
    cases hf

theorem contents_of_len {buffer : SendBuffer} (h : buffer.len = 0) : buffer.contents = [] :=
  List.eq_nil_of_length_eq_zero ((SendBuffer.length_contents buffer).trans h)

theorem Numbered.measured (h : Numbered capacity written c) (ack : SeqNumber) (now : Instant) :
    Numbered capacity written { (c.measure ack now).armRetransmit now with ackNow := true } ∧
    Numbered capacity written ({ c.measure ack now with ackNow := true }.armRetransmit now) :=
  have hmeasure := numbers_measure c ack now
  ⟨h.same hmeasure.1 hmeasure.2, h.same hmeasure.1 hmeasure.2⟩

section

variable (h : Opening c) (hring : c.send.ring.capacity = capacity)
include h hring

theorem numbered_onRepeatedSyn (hstate : c.state = .synReceived) (segment : Segment) :
    Numbered capacity [] (c.onRepeatedSyn segment now) := by
  unfold onRepeatedSyn
  split
  · rename_i hack
    obtain ⟨hackEq, hmax⟩ := h.ack_eq hack.2.1 (not_after_of_beforeOrEqual hack.2.2)
    have hopen : Numbered capacity [] { c with
        sndUna := segment.ack, state := .established, retries := 0 } :=
      .flow 0 0 0 0 rfl (h.flow hackEq hmax rfl h.len) (contents_of_len h.len) hring
    exact ((numbered_updateWindow hopen segment).measured segment.ack now).1
  · exact .opening ⟨.inr (.inr hstate), h.una, h.nxt, h.max, h.len, h.fin⟩ rfl hring

theorem numbered_firstAck (hafter : c.sndUna.before ack = true)
    (hle : ack.after c.sndMax = false) :
    Numbered capacity []
      (onNewAck { c with state := .established, retransmitAt := none } ack now) := by
  obtain ⟨hack, hmax⟩ := h.ack_eq hafter hle
  rw [onNewAck_eq]
  obtain ⟨hnumbers, hstate⟩ :=
    numbers_acked { c with state := .established, retransmitAt := none } ack now
  refine numbered_advanceAfterAck ?_ (by rw [hstate]; rfl)
  have hbefore : c.sndNxt.before ack = false := by
    rw [h.nxt, hmax, hack, before_fromBase _ (by omega) (by omega)]
    rfl
  have hcounted : ackedBytes { c with state := .established, retransmitAt := none } ack = 0 := by
    have hdistance : ack.distanceFrom c.sndUna = 1 := by
      have h01 := distanceFrom_fromBase c.iss (show 0 ≤ 1 by omega) (by omega)
      rw [fromBase_zero] at h01
      rw [h.una, hack, h01]
    simp [ackedBytes, h.fin, h.una, ← hdistance]
  rw [hbefore, if_neg Bool.false_ne_true, hcounted] at hnumbers
  have hparts := hnumbers
  simp only [numbers, Prod.mk.injEq] at hparts
  obtain ⟨huna, -, -, -, hsend, -⟩ := hparts
  have hlen : (acked { c with state := .established, retransmitAt := none } ack now).send.len =
      0 := by
    have hzero := h.len
    rw [hsend]
    change c.send.len - min 0 c.send.len = 0
    omega
  refine .flow 0 0 0 0 (by rw [hstate]; rfl) (h.flow (huna.trans hack) hmax ?_ hlen)
    (contents_of_len hlen) ?_
  · rw [hnumbers, huna, hsend]
  · rw [hsend]
    exact hring

end

theorem numbered_onDuplicateAck (h : Numbered capacity written c) :
    Numbered capacity written c.onDuplicateAck ∧ c.onDuplicateAck.state = c.state := by
  unfold onDuplicateAck
  dsimp only
  split
  · exact ⟨h.same rfl rfl, rfl⟩
  · exact ⟨h.same rfl rfl, rfl⟩

/-- Processing goes on in a connection whose numbers are agreed, or one that has ended. -/
def Goes (answer : Bool × Connection) : Prop :=
  answer.1 = true → answer.2.state.isSynchronized = true ∨ answer.2.state = .closed

section

variable (h : Numbered capacity written c) (hcapacity : capacity + 2 < 2 ^ 31)
  (hstate : c.state.isSynchronized = true ∨ c.state = .synReceived) (segment : Segment)
include h hcapacity hstate

theorem numbered_checkAck (now : Instant) (hplaced : (c.checkAck segment now).2.Placed) :
    Numbered capacity written (c.checkAck segment now).2 ∧ Goes (c.checkAck segment now) := by
  unfold checkAck at hplaced ⊢
  dsimp only at hplaced ⊢
  split
  · exact ⟨h.same rfl rfl, nofun⟩
  rename_i hfirst
  rw [if_neg hfirst] at hplaced
  rcases hstate with hsync | hopening
  · have hne : c.state ≠ .synReceived := by
      intro heq
      rw [heq] at hsync
      cases hsync
    rw [if_neg hne] at hplaced ⊢
    split
    · exact ⟨h.same rfl rfl, nofun⟩
    rename_i hmax
    rw [if_neg hmax] at hplaced
    rw [Bool.not_eq_true] at hmax
    split
    · rename_i hafter
      rw [if_pos hafter] at hplaced
      exact ⟨numbered_onNewAck h hsync hcapacity hafter hmax hplaced,
        fun _ => state_onNewAck hsync _⟩
    split
    · have hduplicate := numbered_onDuplicateAck h
      exact ⟨hduplicate.1, fun _ => .inl (by
        rw [hduplicate.2]
        exact hsync)⟩
    · exact ⟨h, fun _ => .inl hsync⟩
  · have hack : c.sndUna.before segment.ack = true ∧
        segment.ack.beforeOrEqual c.sndMax = true := by
      by_contra hno
      exact hfirst ⟨hopening, hno⟩
    cases h with
    | closed hclosed => rw [hclosed] at hopening; cases hopening
    | flow _ _ _ _ hsync => rw [hopening] at hsync; cases hsync
    | opening h hempty hring =>
      subst hempty
      have hmax := not_after_of_beforeOrEqual hack.2
      rw [if_pos hopening]
      dsimp only
      split
      · rename_i hbehind
        rw [show segment.ack.after c.sndMax = true from hbehind] at hmax
        cases hmax
      split
      · refine ⟨numbered_firstAck h hring hack.1 hmax, fun _ => ?_⟩
        exact state_onNewAck (c := { c with state := .established, retransmitAt := none }) rfl
          segment.ack
      · rename_i hno
        exact absurd hack.1 hno

theorem numbered_onSegmentOpen (hplaced : (c.onSegmentOpen segment now).Placed) :
    Numbered capacity written (c.onSegmentOpen segment now) := by
  unfold onSegmentOpen at hplaced ⊢
  dsimp only at hplaced ⊢
  split
  · rename_i hagain
    cases h with
    | closed hclosed => exact absurd (hagain.1.symm.trans hclosed) nofun
    | flow _ _ _ _ hsync => rw [hagain.1] at hsync; cases hsync
    | opening h hempty hring =>
      subst hempty
      exact numbered_onRepeatedSyn h hring hagain.1 segment
  rename_i hagain
  rw [if_neg hagain] at hplaced
  split
  · split
    · exact h
    · exact h.same rfl rfl
  rename_i hin
  rw [if_neg hin] at hplaced
  split
  · split
    · exact .closed rfl h.ring
    · exact h.same rfl rfl
  rename_i hrst
  rw [if_neg hrst] at hplaced
  split
  · exact h.same rfl rfl
  rename_i hsyn
  rw [if_neg hsyn] at hplaced
  split
  · exact h
  rename_i hack
  rw [if_neg hack] at hplaced
  have hwindow := same_updateWindow (c.checkAck segment now).2 segment
  have htext := same_acceptText ((c.checkAck segment now).2.updateWindow segment) segment
    c.recv.window now
  have hchecks : (c.checkAck segment now).2.Placed := by
    split at hplaced
    · exact (placed_of_checkFin hplaced).congr (htext.1.trans hwindow.1).symm
        (htext.2.trans hwindow.2).symm
    · exact hplaced
  obtain ⟨hchecked, hgoes⟩ := numbered_checkAck h hcapacity hstate segment now hchecks
  split
  · rename_i hgo
    refine numbered_checkFin ((numbered_updateWindow hchecked segment).same htext.1 htext.2) ?_
      segment
    rw [htext.2, hwindow.2]
    exact hgoes hgo
  · exact hchecked

end

theorem numbered_onSegmentSynSent (h : Opening c) (hring : c.send.ring.capacity = capacity)
    (segment : Segment) (hplaced : (c.onSegmentSynSent segment now).Placed) :
    Numbered capacity [] (c.onSegmentSynSent segment now) := by
  have hsame : Numbered capacity [] c := .opening h rfl hring
  unfold onSegmentSynSent at hplaced ⊢
  dsimp only at hplaced ⊢
  split
  · split
    · exact hsame
    · exact hsame.same rfl rfl
  rename_i hack
  rw [if_neg hack] at hplaced
  split
  · split
    · exact .closed rfl hring
    · exact hsame
  rename_i hrst
  rw [if_neg hrst] at hplaced
  split
  · exact hsame
  rename_i hsyn
  rw [if_neg hsyn] at hplaced
  cases hacknowledges : segment.flags.has Flags.ack with
  | false =>
    rw [if_neg Bool.false_ne_true]
    have huna : (c.acceptPeer segment).sndUna.after (c.acceptPeer segment).iss = false := by
      change c.sndUna.after c.iss = false
      rw [h.una]
      exact after_self _
    rw [huna, if_neg Bool.false_ne_true]
    exact .opening ⟨.inr (.inr rfl), h.una, h.nxt, h.max, h.len, h.fin⟩ rfl hring
  | true =>
    rw [hacknowledges, if_pos rfl] at hplaced
    rw [if_pos rfl]
    rw [hacknowledges] at hack
    have hlate : segment.ack.after c.sndMax = false := by
      rw [← Bool.not_eq_true]
      exact fun hbehind => hack ⟨rfl, .inr hbehind⟩
    split
    · rename_i hafter
      have hfirst := h.ack_eq (by rw [h.una]; exact hafter) hlate
      have hopen : Numbered capacity [] { c.acceptPeer segment with
          sndUna := segment.ack, sndWl1 := segment.seq, sndWl2 := segment.ack
          state := .established, retries := 0 } :=
        .flow 0 0 0 0 rfl (h.flow hfirst.1 hfirst.2 rfl h.len) (contents_of_len h.len) hring
      exact (hopen.measured segment.ack now).2
    · -- neither before nor behind: half a circle away
      rename_i hno
      rw [if_neg hno] at hplaced
      have hself : segment.ack = c.iss := (hplaced nofun).2 rfl
      refine absurd ⟨rfl, .inl ?_⟩ hack
      rw [hself]
      simp [beforeOrEqual]

theorem numbered_onSegment (h : Numbered capacity written c)
    (hcapacity : capacity + 2 < 2 ^ 31) (source : IpAddr) (segment : Segment)
    (hplaced : (c.onSegment source segment now).Placed) :
    Numbered capacity written (c.onSegment source segment now) := by
  have hopen : c.state ≠ .closed → c.state ≠ .listen → c.state ≠ .synSent →
      c.state.isSynchronized = true ∨ c.state = .synReceived := by
    cases c.state <;> simp [State.isSynchronized]
  unfold onSegment at hplaced ⊢
  split
  · exact h
  · rename_i hstate
    cases h with
    | closed hclosed => rw [hclosed] at hstate; cases hstate
    | flow _ _ _ _ hsync => rw [hstate] at hsync; cases hsync
    | opening h hempty hring =>
      unfold onSegmentListen
      split
      · exact .opening h hempty hring
      split
      · exact .opening ⟨h.state, h.una, h.nxt, h.max, h.len, h.fin⟩ hempty hring
      split
      · exact .opening h hempty hring
      · exact .opening ⟨.inr (.inr rfl), h.una, h.nxt, h.max, h.len, h.fin⟩ hempty hring
  · rename_i hstate
    rw [hstate] at hplaced
    cases h with
    | closed hclosed => rw [hclosed] at hstate; cases hstate
    | flow _ _ _ _ hsync => rw [hstate] at hsync; cases hsync
    | opening h hempty hring =>
      subst hempty
      exact numbered_onSegmentSynSent h hring segment hplaced
  · rename_i hclosed hlisten hsent
    refine numbered_onSegmentOpen h hcapacity (hopen hclosed hlisten hsent) segment ?_
    split at hplaced
    · exact absurd ‹_› hclosed
    · exact absurd ‹_› hlisten
    · exact absurd ‹_› hsent
    · exact hplaced

end Audhsos.Tcp.Connection
