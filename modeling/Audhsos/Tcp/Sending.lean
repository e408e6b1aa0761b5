import Audhsos.Tcp.Numbering
import Audhsos.Tcp.Events

/-!
What `poll` sends carries the numbers of the stream, and sending keeps the numbers.
-/

namespace Audhsos.Tcp.Connection

open SeqNumber SendBuffer

variable {c c' : Connection} {now : Instant} {w r n m φ capacity : Nat} {written : List Byte}
  {segment : Segment} {out : Outgoing}

/-- Every byte of the segment carries the number of its place in the stream. -/
def Carries (iss : SeqNumber) (written : List Byte) (segment : Segment) : Prop :=
  ∀ i byte, segment.payload[i]? = some byte →
    ∃ position, written[position]? = some byte ∧ segment.seq.add i = fromBase iss (1 + position)

theorem carries_empty {iss : SeqNumber} (h : segment.payload = []) :
    Carries iss written segment := by
  intro i byte hbyte
  rw [h] at hbyte
  cases hbyte

/-! ## What `sent` records -/

variable (c) (out)

def finAfter : Option SeqNumber :=
  match out.finAt with
  | none => c.finSeq
  | some number => some number

def stateAfter : State :=
  match out.finAt with
  | none => c.state
  | some _ =>
    match c.state with
    | .established => .finWait1
    | .closeWait => .lastAck
    | other => other

/-- The plan is neither a reset nor a probe. -/
def occupies : Plan → Bool
  | .reset _ _ _ | .probe _ => false
  | _ => true

theorem sent_numbers (now : Instant) (plan : Plan) (hplan : occupies plan = true) (out : Outgoing) :
    let stop := out.first.add out.length
    (c.sent plan now out).numbers =
      (c.sndUna, if c.sndNxt.before stop then stop else c.sndNxt,
        if stop.after c.sndMax then stop else c.sndMax, c.iss, c.send, c.finAfter out,
        c.resendSyn) ∧
      (c.sent plan now out).state = c.stateAfter out := by
  unfold finAfter stateAfter
  cases plan with
  | reset => cases hplan
  | probe => cases hplan
  | _ =>
    unfold sent
    dsimp only
    cases out.finAt <;> dsimp only <;> split <;> exact ⟨rfl, rfl⟩

variable {c}

theorem sync_stateAfter (hsync : c.state.isSynchronized = true) :
    (c.stateAfter out).isSynchronized = true := by
  unfold stateAfter
  split
  · exact hsync
  · split
    · rfl
    · rfl
    · exact hsync

variable {out}

theorem canSend_stateAfter {number : SeqNumber} (h : out.finAt = some number) :
    (c.stateAfter out).canSend = false := by
  unfold stateAfter
  rw [h]
  dsimp only
  split
  · rfl
  · rfl
  · rename_i hestablished hcloseWait
    simp only [State.canSend, Bool.or_eq_false_iff, decide_eq_false_iff_not]
    exact ⟨hestablished, hcloseWait⟩

/-- The numbers behind a segment that ends `s` bytes into the stream, with the closing number or
without it. -/
theorem numbered_sent {plan : Plan} (hplan : occupies plan = true) {s : Nat}
    (hsync : c.state.isSynchronized = true) (h : Flow c written.length r n m φ)
    (hcontents : c.send.contents = written.drop r) (hring : c.send.ring.capacity = capacity)
    (hcapacity : capacity + 2 < 2 ^ 31)
    (hstop : out.first.add out.length = fromBase c.iss (1 + s)) (hlow : r + φ ≤ s + 1)
    (hfin : out.finAt = none ∧ s ≤ written.length + c.finCount ∨
      out.finAt = some (fromBase c.iss (1 + written.length)) ∧ s ≤ written.length + 1)
    (hresend : c.resendSyn = true → s = 0) : Numbered capacity written (c.sent plan now out) := by
  obtain ⟨hnumbers, hstate⟩ := sent_numbers c now plan hplan out
  rw [hstop] at hnumbers
  generalize c.sent plan now out = c' at hnumbers hstate ⊢
  simp only [numbers, Prod.mk.injEq] at hnumbers
  obtain ⟨huna, hnxtEq, hmaxEq, hiss, hsend, hfinEq, hresendEq⟩ := hnumbers
  have hlen := c.send.len_le
  have hspan := h.span
  have hle := h.una_le
  have hnxt := h.nxt_le
  have hmaxLe := h.max_le
  have hheld := h.held
  have hacked := h.acked
  have hcount : c.finCount ≤ c'.finCount ∧ s ≤ written.length + c'.finCount ∧ c'.finCount ≤ 1 := by
    have hone : c.finCount ≤ 1 := Bool.toNat_le _
    rcases hfin with ⟨hnone, hs⟩ | ⟨hsome, hs⟩
    · have hsame : c'.finCount = c.finCount := by rw [finCount, hfinEq, finAfter, hnone, finCount]
      omega
    · have hnew := finCount_some (c := c') (by rw [hfinEq, finAfter, hsome])
      omega
  have hflow : Flow c' written.length r (max n s) (max m s) φ := by
    refine ⟨?_, ?_, ?_, ?_, by omega, by omega, by omega, ?_, by omega, ?_, fun f hf => ?_, ?_⟩
    · rw [huna, hiss]; exact h.una
    · rw [huna, hiss]; exact h.una_ne
    · rw [hnxtEq, hiss, h.nxt, later_fromBase _ (by omega) (by omega)]
    · unfold after at hmaxEq
      rw [hmaxEq, hiss, h.max, later_fromBase _ (by omega) (by omega)]
    · rw [hsend]; exact h.held
    · rw [hsend]; exact h.empty
    · rw [hiss, hstate]
      rcases hfin with ⟨hnone, -⟩ | ⟨hsome, -⟩
      · rw [hfinEq, finAfter, hnone] at hf
        rw [stateAfter, hnone]
        exact h.fin f hf
      · rw [hfinEq, finAfter, hsome] at hf
        cases hf
        exact ⟨rfl, canSend_stateAfter hsome⟩
    · intro hyes
      rw [hresendEq] at hyes
      rw [h.resend hyes, hresend hyes]
      rfl
  exact .flow r _ _ φ (by rw [hstate]; exact sync_stateAfter out hsync) hflow
    (by rw [hsend]; exact hcontents) (by rw [hsend]; exact hring)

/-! ## The segments -/

/-- What sending a plan has to keep, and what it has to say. -/
def Sends (capacity : Nat) (written : List Byte) (c : Connection) (plan : Plan) (now : Instant) :
    Prop :=
  ∀ window, Numbered capacity written (c.sent plan now (c.outgoing plan window)) ∧
    Carries c.iss written (c.outgoing plan window).segment

section

variable (h : Numbered capacity written c) (hstate : c.state ≠ .closed)
include h hstate

theorem sends_ack (hcapacity : capacity + 2 < 2 ^ 31) : Sends capacity written c .ack now := by
  intro window
  refine ⟨?_, carries_empty rfl⟩
  have hstop : (c.outgoing .ack window).first.add (c.outgoing .ack window).length = c.sndMax := by
    change c.sndMax.add 0 = c.sndMax
    simp [add]
  cases h with
  | closed hclosed => exact absurd hclosed hstate
  | opening h hempty hring =>
    obtain ⟨hnumbers, hstateEq⟩ := sent_numbers c now .ack rfl (c.outgoing .ack window)
    have hself : c.sndNxt.before c.sndMax = false := by
      rw [h.nxt]
      exact after_self _
    rw [hstop, after_self, hself, if_neg Bool.false_ne_true] at hnumbers
    exact Numbered.same (.opening h hempty hring) hnumbers hstateEq
  | flow r n m φ hsync h hcontents hring =>
    have hle := h.una_le
    have hnxt := h.nxt_le
    exact numbered_sent rfl hsync h hcontents hring hcapacity (hstop.trans h.max) (by omega)
      (.inl ⟨rfl, h.max_le⟩) h.resend

theorem sends_syn (hcapacity : capacity + 2 < 2 ^ 31)
    (hfirst : c.state.isSynchronized = true → c.sndMax = fromBase c.iss 1) (acknowledges : Bool) :
    Sends capacity written c (.syn acknowledges) now := by
  intro window
  refine ⟨?_, carries_empty rfl⟩
  cases h with
  | closed hclosed => exact absurd hclosed hstate
  | opening h hempty hring =>
    obtain ⟨hnumbers, hstateEq⟩ := sent_numbers c now (.syn acknowledges) rfl
      (c.outgoing (.syn acknowledges) window)
    have hstop : (c.outgoing (.syn acknowledges) window).first.add
        (c.outgoing (.syn acknowledges) window).length = fromBase c.iss 1 := rfl
    rw [hstop] at hnumbers
    generalize c.sent (.syn acknowledges) now (c.outgoing (.syn acknowledges) window) = c' at *
    simp only [numbers, Prod.mk.injEq] at hnumbers
    obtain ⟨huna, hnxtEq, hmaxEq, hiss, hsend, hfin, -⟩ := hnumbers
    have hboth : c'.sndNxt = fromBase c.iss 1 ∧ c'.sndMax = fromBase c.iss 1 := by
      unfold after at hmaxEq
      rw [hnxtEq, hmaxEq, h.nxt]
      have h01 := before_fromBase c.iss (show 0 < 1 + 2 ^ 31 by omega) (by omega)
      rw [fromBase_zero] at h01
      rcases h.max with hmax | hmax
      · rw [hmax, h01]
        exact ⟨rfl, rfl⟩
      · rw [hmax]
        exact ⟨ite_self _, ite_self _⟩
    refine .opening ⟨?_, ?_, ?_, ?_, ?_, ?_⟩ hempty (by rw [hsend]; exact hring)
    · rw [hstateEq]; exact h.state
    · rw [huna, hiss]; exact h.una
    · rw [hboth.1, hboth.2]
    · rw [hboth.2, hiss]; exact .inr rfl
    · rw [hsend]; exact h.len
    · rw [hfin]; exact h.fin
  | flow r n m φ hsync h hcontents hring =>
    have hle := h.una_le
    have hnxt := h.nxt_le
    exact numbered_sent rfl hsync h hcontents hring hcapacity ((hfirst hsync).symm.trans h.max)
      (by omega) (.inl ⟨rfl, h.max_le⟩) h.resend

end

theorem sends_fin {r m : Nat} (hsync : c.state.isSynchronized = true)
    (h : Flow c written.length r written.length m 0)
    (hcontents : c.send.contents = written.drop r) (hring : c.send.ring.capacity = capacity)
    (hcapacity : capacity + 2 < 2 ^ 31) (hresend : c.resendSyn = false) :
    Sends capacity written c .fin now := by
  intro window
  refine ⟨?_, carries_empty rfl⟩
  have hstop : (c.outgoing .fin window).first.add (c.outgoing .fin window).length =
      fromBase c.iss (1 + (written.length + 1)) := by
    change c.sndNxt.add 1 = _
    rw [h.nxt, add_fromBase, Nat.add_assoc]
  have hle := h.una_le
  exact numbered_sent rfl hsync h hcontents hring hcapacity hstop (by omega)
    (.inr ⟨congrArg some h.nxt, le_rfl⟩) (by simp [hresend])

theorem carries_contiguous (huna : c.sndUna = fromBase c.iss (1 + r))
    (hcontents : c.send.contents = written.drop r) {offset limit : Nat}
    (hoffset : offset ≤ u32Max) (hseq : segment.seq = c.sndUna.add (toU32 offset 0))
    (hpayload : segment.payload = c.send.contiguous offset limit) :
    Carries c.iss written segment := by
  intro i byte hbyte
  rw [hpayload] at hbyte
  have hi : i < c.send.run offset limit := by
    by_contra hno
    rw [List.getElem?_eq_none (by simp [contiguous]; omega)] at hbyte
    cases hbyte
  rw [contiguous_getElem? _ hi, hcontents, List.getElem?_drop] at hbyte
  refine ⟨r + (offset + i), hbyte, ?_⟩
  rw [hseq, huna, toU32, if_pos hoffset, add_fromBase, add_fromBase]
  congr 1
  omega

theorem Flow.unacked (h : Flow c w r n m φ) (hlen : 0 < c.send.len) : φ = 0 := by
  have hcount : c.finCount ≤ 1 := Bool.toNat_le _
  have hacked := h.acked
  by_contra hne
  have hempty := h.empty (by omega)
  omega

section Open

variable (hsync : c.state.isSynchronized = true) (h : Flow c written.length r n m φ)
  (hcontents : c.send.contents = written.drop r) (hring : c.send.ring.capacity = capacity)
  (hcapacity : capacity + 2 < 2 ^ 31) (hresend : c.resendSyn = false) {offset : Nat}

include hsync h hcontents hring hcapacity hresend in
theorem sends_data {len : Nat} (hpos : 0 < len)
    (hin : offset + len ≤ c.send.len) (hrun : c.send.run offset len = len) (fin push again : Bool)
    (hfin : fin = true → offset + len = c.send.len ∧ c.finSeq = none) :
    Sends capacity written c (.data offset len fin push again) now := by
  intro window
  have hbuffer := c.send.len_le
  obtain rfl := h.unacked (show 0 < c.send.len by omega)
  have hheld := h.held
  have huna : c.sndUna = fromBase c.iss (1 + r) := h.una
  have hoffset : offset ≤ u32Max := by unfold u32Max; omega
  refine ⟨?_, carries_contiguous huna hcontents hoffset rfl rfl⟩
  have hpayload : (c.send.contiguous offset len).length = len := by simp [contiguous, hrun]
  have hseq : c.sndUna.add (toU32 offset 0) = fromBase c.iss (1 + r + offset) := by
    rw [huna, toU32, if_pos hoffset, add_fromBase]
  have hfits : toU32 len 0 = len := if_pos (by unfold u32Max; omega)
  have hbit : fin.toNat ≤ 1 := Bool.toNat_le _
  have hstop : (c.outgoing (.data offset len fin push again) window).first.add
      (c.outgoing (.data offset len fin push again) window).length =
      fromBase c.iss (1 + (r + offset + len + fin.toNat)) := by
    change (c.sndUna.add (toU32 offset 0)).add
      (sat32 (toU32 (c.send.contiguous offset len).length 0 + fin.toNat)) = _
    rw [hpayload, hfits, hseq, add_fromBase, sat32, Nat.min_eq_left (by unfold u32Max; omega)]
    congr 1
    omega
  refine numbered_sent rfl hsync h hcontents hring hcapacity hstop (by omega) ?_ (by simp [hresend])
  cases fin with
  | false => exact .inl ⟨rfl, by rw [Bool.toNat_false]; omega⟩
  | true =>
    obtain ⟨hlast, -⟩ := hfin rfl
    refine .inr ⟨?_, by rw [Bool.toNat_true]; omega⟩
    change some ((c.sndUna.add (toU32 offset 0)).add (toU32 len 0)) = _
    rw [hseq, hfits, add_fromBase]
    congr 2
    omega

theorem probe_numbers (c : Connection) (now : Instant) (offset : Nat) (out : Outgoing) :
    (c.sent (.probe offset) now out).numbers =
      (c.sndUna, c.sndNxt,
        if (out.first.add out.length).after c.sndMax then out.first.add out.length else c.sndMax,
        c.iss, c.send, c.finSeq, c.resendSyn) ∧
      (c.sent (.probe offset) now out).state = c.state :=
  ⟨rfl, rfl⟩

theorem flow_grown (h : Flow c w r n m φ) {s : Nat} (hs : s ≤ w) (hresend : c.resendSyn = false) :
    Flow { c with sndMax := fromBase c.iss (1 + max m s) } w r n (max m s) φ :=
  have hmaxLe := h.max_le
  { h with
    max := rfl
    nxt_le := Nat.le_trans h.nxt_le (Nat.le_max_left m s)
    max_le := Nat.max_le.2 ⟨hmaxLe, Nat.le_trans hs (Nat.le_add_right w c.finCount)⟩
    resend := fun hyes => absurd (hresend.symm.trans hyes) Bool.false_ne_true }

include hsync h hcontents hring hcapacity hresend in
theorem sends_probe (hin : offset < c.send.len)
    (hoffsetEq : offset = n - (r + φ)) : Sends capacity written c (.probe offset) now := by
  intro window
  have hbuffer := c.send.len_le
  obtain rfl := h.unacked (show 0 < c.send.len by omega)
  have hheld := h.held
  have hle := h.una_le
  have hnxt := h.nxt_le
  have hspan := h.span
  have hoffset : offset ≤ u32Max := by unfold u32Max; omega
  refine ⟨?_, carries_contiguous h.una hcontents hoffset rfl rfl⟩
  have hrun : c.send.run offset 1 = 1 := by
    have hpos : 0 < c.send.run offset 1 := run_pos (by omega) Nat.one_pos
    have hle1 : c.send.run offset 1 ≤ 1 := by
      unfold run
      split
      · omega
      · exact Nat.min_le_right _ _
    omega
  have hpayload : (c.send.contiguous offset 1).length = 1 := by simp [contiguous, hrun]
  have hstop : c.sndNxt.add (toU32 (c.send.contiguous offset 1).length 0) =
      fromBase c.iss (1 + (n + 1)) := by
    rw [hpayload, h.nxt, toU32, if_pos (by decide), add_fromBase, Nat.add_assoc]
  have hends : (c.outgoing (.probe offset) window).first.add
      (c.outgoing (.probe offset) window).length = fromBase c.iss (1 + (n + 1)) := hstop
  obtain ⟨hnumbers, hstate⟩ := probe_numbers c now offset (c.outgoing (.probe offset) window)
  unfold after at hnumbers
  rw [hends, h.max, later_fromBase _ (by omega) (by omega)] at hnumbers
  have hgrown := flow_grown h (show n + 1 ≤ written.length by omega) hresend
  have hmoved : Numbered capacity written { c with
      sndMax := fromBase c.iss (1 + max m (n + 1)) } :=
    .flow r n (max m (n + 1)) 0 hsync hgrown hcontents hring
  exact hmoved.same hnumbers hstate

/-! ## Every plan -/

/-- Whatever was decided keeps the numbers, and sends what carries them. -/
structure Plans (capacity : Nat) (written : List Byte) (c : Connection) (now : Instant)
    (answer : Option Plan × Connection) : Prop where
  iss : answer.2.iss = c.iss
  numbered : Numbered capacity written answer.2
  sends : ∀ plan, answer.1 = some plan → ∀ edge,
    Sends capacity written { answer.2 with rcvEdge := edge } plan now

theorem Plans.nothing (h : Numbered capacity written c') (hiss : c'.iss = c.iss) :
    Plans capacity written c now (none, c') :=
  ⟨hiss, h, nofun⟩

section

variable (buffer : SendBuffer) (offset limit : Nat)

theorem run_run : buffer.run offset (buffer.run offset limit) = buffer.run offset limit := by
  unfold run
  split
  · rfl
  · omega

theorem run_le : buffer.run offset limit ≤ buffer.len - offset := by
  unfold run
  split
  · omega
  · exact Nat.le_trans (Nat.min_le_left _ _) (Nat.min_le_left _ _)

end

theorem Flow.finDue (h : Flow c w r n m φ) (hlen : c.send.len + 2 < 2 ^ 31)
    (hdue : c.finDue = true) : φ = 0 ∧ n = w := by
  have hcount : c.finCount ≤ 1 := Bool.toNat_le _
  have hle := h.una_le
  have hnxt := h.nxt_le
  have hmax := h.max_le
  have hheld := h.held
  have hacked := h.acked
  unfold Connection.finDue at hdue
  rw [h.sentOffset hlen] at hdue
  split at hdue
  · cases hdue
  rename_i hsent
  simp only [Bool.or_eq_true, decide_eq_true_eq, not_or] at hsent
  split at hdue
  · rename_i hnone
    rw [finCount_none hnone] at hmax hacked
    omega
  rename_i f hsome
  rw [(h.fin f hsome).1, h.una, h.nxt, Bool.and_eq_true,
    beforeOrEqual_fromBase _ (by omega) (by omega),
    beforeOrEqual_fromBase _ (by omega) (by omega), decide_eq_true_eq, decide_eq_true_eq] at hdue
  have hspan := h.span
  omega

include hsync h hcontents hring hcapacity hresend

theorem sends_decideNext {plan : Plan} (hplan : c.decideNext = some plan) :
    Sends capacity written c plan now := by
  unfold decideNext at hplan
  dsimp only at hplan
  split at hplan
  · cases hplan
  split at hplan
  · cases hplan
  rename_i hsome
  split at hplan
  · cases hplan
  cases hplan
  rw [contiguous_length] at hsome ⊢
  have hle := run_le c.send c.sentOffset c.limit
  refine sends_data hsync h hcontents hring hcapacity hresend (by omega) (by omega)
    (run_run c.send _ _) _ _ _ fun hfin => ?_
  simp only [Bool.and_eq_true, decide_eq_true_eq, Option.isNone_iff_eq_none] at hfin
  exact ⟨hfin.1.1.2, hfin.1.2⟩

theorem plans_decideOpen : Plans capacity written c now (c.decideOpen now) := by
  have hnumbered : Numbered capacity written c := .flow r n m φ hsync h hcontents hring
  have hlen : c.send.len + 2 < 2 ^ 31 := by
    have hle := c.send.len_le
    omega
  have hflow : ∀ edge, Flow { c with rcvEdge := edge, fastRetransmit := false } written.length r n
      m φ := fun _ => h.congr rfl id
  have hflow' : ∀ edge, Flow { c with rcvEdge := edge } written.length r n m φ :=
    fun _ => h.congr rfl id
  have hsame : Numbered capacity written { c with fastRetransmit := false } :=
    hnumbered.same rfl rfl
  obtain ⟨-, hwaits, heq⟩ | ⟨-, hrun, heq⟩ | ⟨plan, hnext, heq⟩ | ⟨-, -, heq⟩ :=
    decideOpen_cases c now <;> rw [heq]
  · refine ⟨rfl, hnumbered, ?_⟩
    rintro plan' ⟨⟩ edge
    exact sends_probe (c := { c with rcvEdge := edge }) hsync (hflow' edge) hcontents hring
      hcapacity hresend hwaits (h.sentOffset hlen)
  · refine ⟨rfl, hsame, ?_⟩
    rintro plan ⟨⟩ edge
    have hle := run_le c.send 0 c.maxSegment
    exact sends_data (c := { c with rcvEdge := edge, fastRetransmit := false }) hsync
      (hflow edge) hcontents hring hcapacity hresend hrun
      (show 0 + c.send.run 0 c.maxSegment ≤ c.send.len by omega) (run_run c.send _ _) _ _ _ nofun
  · refine ⟨rfl, hsame, ?_⟩
    rintro plan' ⟨⟩ edge
    exact sends_decideNext (c := { c with rcvEdge := edge, fastRetransmit := false }) hsync
      (hflow edge) hcontents hring hcapacity hresend hnext
  split
  · rename_i hfin
    refine ⟨rfl, hsame, ?_⟩
    rintro plan ⟨⟩ edge
    obtain ⟨rfl, rfl⟩ := h.finDue hlen hfin
    exact sends_fin hsync (hflow edge) hcontents hring hcapacity hresend
  split
  · refine ⟨rfl, hsame, ?_⟩
    rintro plan ⟨⟩ edge
    refine sends_ack (hnumbered.same rfl rfl) ?_ hcapacity
    intro hclosed
    rw [show c.state = .closed from hclosed] at hsync
    cases hsync
  split
  · exact .nothing (hnumbered.same rfl rfl) rfl
  · exact .nothing hsame rfl

end Open

theorem plans_decideSyn (h : Numbered capacity written c) (hstate : c.state ≠ .closed)
    (hcapacity : capacity + 2 < 2 ^ 31)
    (hfirst : c.state.isSynchronized = true → c.sndMax = fromBase c.iss 1) :
    Plans capacity written c now (c.decideSyn now) := by
  have hclear : Numbered capacity written { c with resendSyn := false } := by
    cases h with
    | closed hclosed hring => exact .closed hclosed hring
    | opening h hempty hring =>
      exact .opening ⟨h.state, h.una, h.nxt, h.max, h.len, h.fin⟩ hempty hring
    | flow r n m φ hsync h hcontents hring =>
      exact .flow r n m φ hsync { h with resend := nofun } hcontents hring
  unfold decideSyn
  dsimp only
  split
  · refine ⟨rfl, hclear, ?_⟩
    rintro plan ⟨⟩ edge
    refine sends_syn ?_ ?_ hcapacity ?_ _
    · exact hclear.same rfl rfl
    · exact hstate
    · exact hfirst
  split
  · cases hgive : c.giveUp.1 with
    | true =>
      rw [if_pos rfl, giveUp_true hgive]
      exact .nothing (.closed rfl h.ring) rfl
    | false =>
      rw [if_neg Bool.false_ne_true, giveUp_false hgive]
      refine ⟨rfl, h.same rfl rfl, ?_⟩
      rintro plan ⟨⟩ edge
      refine sends_syn ?_ ?_ hcapacity ?_ _
      · exact h.same rfl rfl
      · exact hstate
      · exact hfirst
  split
  · refine ⟨rfl, h, ?_⟩
    rintro plan ⟨⟩ edge
    exact sends_ack (h.same rfl rfl) hstate hcapacity
  · exact .nothing h rfl

theorem flow_rewind (h : Flow c w r n m φ) (retries : Nat) :
    Flow (rewind { c with retries := retries } now) w r (r + φ) m φ :=
  ⟨h.una, h.una_ne, h.una, h.max, Nat.le_refl _, Nat.le_trans h.una_le h.nxt_le, h.max_le, h.held,
    h.acked, h.empty, h.fin, h.resend⟩

section

variable (h : Numbered capacity written c)
include h

theorem plans_decideStanding (hcapacity : capacity + 2 < 2 ^ 31) :
    Plans capacity written c now (c.decideStanding now) := by
  unfold decideStanding
  split
  · exact .nothing h rfl
  rename_i hopen
  simp only [Bool.or_eq_true, decide_eq_true_eq, not_or] at hopen
  have hstate : c.state ≠ .closed := by simpa [State.isOpen] using hopen.1
  cases h with
  | closed hclosed => exact absurd hclosed hstate
  | opening h hempty hring =>
    have hsyn : (c.synOutstanding || c.resendSyn) = true := by
      have hout : c.synOutstanding = true := by
        rcases h.state with hs | hs | hs
        · exact absurd hs hopen.2
        · simp [synOutstanding, hs, h.una]
        · simp [synOutstanding, hs, h.una]
      rw [hout]
      rfl
    rw [if_pos hsyn]
    refine plans_decideSyn (.opening h hempty hring) hstate hcapacity fun hsync => ?_
    rcases h.state with hs | hs | hs <;> rw [hs] at hsync <;> cases hsync
  | flow r n m φ hsync h hcontents hring =>
    have hout : c.synOutstanding = false := by
      have hne := h.una_ne
      simp [synOutstanding, hne]
    cases hresend : c.resendSyn with
    | true =>
      rw [if_pos (by rw [Bool.or_true])]
      refine plans_decideSyn (.flow r n m φ hsync h hcontents hring) hstate hcapacity fun _ => ?_
      rw [h.max, h.resend hresend]
    | false =>
      rw [hout, if_neg (by decide)]
      split
      · dsimp only
        cases hgive : c.giveUp.1 with
        | true =>
          rw [if_pos rfl, giveUp_true hgive]
          exact .nothing (.closed rfl hring) rfl
        | false =>
          rw [if_neg Bool.false_ne_true, giveUp_false hgive]
          have hplans : Plans capacity written (rewind { c with retries := sat32 (c.retries + 1) }
              now) now (decideOpen (rewind { c with retries := sat32 (c.retries + 1) } now) now) :=
            plans_decideOpen hsync (flow_rewind h _) hcontents hring hcapacity hresend
          exact ⟨hplans.iss, hplans.numbered, hplans.sends⟩
      · exact plans_decideOpen hsync h hcontents hring hcapacity hresend

theorem numbered_endTimeWait (now : Instant) :
    Numbered capacity written (c.endTimeWait now) ∧ (c.endTimeWait now).iss = c.iss := by
  unfold endTimeWait
  split
  · exact ⟨.closed rfl h.ring, rfl⟩
  · exact ⟨h, rfl⟩

theorem plans_decide (hcapacity : capacity + 2 < 2 ^ 31) (now : Instant) :
    Plans capacity written c now (c.decide now) := by
  cases hreset : c.resetPending with
  | some pending =>
    unfold decide
    rw [hreset]
    refine ⟨rfl, h.same rfl rfl, ?_⟩
    rintro plan ⟨⟩ edge window
    exact ⟨h.same rfl rfl, carries_empty rfl⟩
  | none =>
    obtain ⟨hend, hiss⟩ := numbered_endTimeWait h now
    have hstanding : Plans capacity written (c.endTimeWait now) now
        ((c.endTimeWait now).decideStanding now) :=
      plans_decideStanding hend hcapacity
    rw [decide_of_no_reset hreset]
    exact ⟨hstanding.iss.trans hiss, hstanding.numbered, hstanding.sends⟩

end

theorem numbered_poll (h : Numbered capacity written c) (hcapacity : capacity + 2 < 2 ^ 31)
    (now : Instant) :
    Numbered capacity written (c.poll now).2 ∧
      ∀ segment, (c.poll now).1 = some segment → Carries c.iss written segment := by
  have hplans := plans_decide h hcapacity now
  unfold poll
  rcases hdecide : c.decide now with ⟨plan | plan, c₁⟩
  · rw [hdecide] at hplans
    exact ⟨hplans.numbered, nofun⟩
  rw [hdecide] at hplans
  dsimp only
  rcases transmit_cases c₁ plan now with heq | heq
  · rw [heq]
    exact ⟨Numbered.same hplans.numbered rfl rfl, nofun⟩
  obtain ⟨hsent, hcarries⟩ := hplans.sends plan rfl c₁.advertise.2.rcvEdge c₁.advertise.1
  rw [heq]
  refine ⟨hsent, ?_⟩
  rintro segment ⟨⟩
  rw [← hplans.iss]
  exact hcarries

end Audhsos.Tcp.Connection
