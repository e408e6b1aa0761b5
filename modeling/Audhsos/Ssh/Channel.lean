import Audhsos.Ssh.Rekey

/-!
An SSH channel: two windows, one for each direction, and what both sides have said about the end.
-/

namespace Audhsos.Ssh

open Lib Prog

abbrev U32 := BitVec 32

inductive Event where
  | opened (remote window maxPacket : U32)
  | openFailed
  | windowAdjust (bytes : U32)
  | data (kind : Option U32) (data : List Byte)
  | eof
  | close
  | success
  | failure
  | exitStatus (status : U32)
  | exitSignal
  | request

structure Message where
  channel : U32
  event : Event

structure Ending where
  eof : Bool
  close : Bool

structure Channel where
  localNumber : U32
  remote : Option U32
  localWindow : Nat
  remoteWindow : Nat
  remoteMaxPacket : Nat
  sent : Ending
  received : Ending

namespace Channel

def new (localNumber window : U32) : Channel :=
  ⟨localNumber, none, window.toNat, 0, 0, ⟨false, false⟩, ⟨false, false⟩⟩

def write (room len : Nat) : Except SshError Nat :=
  if len ≤ room then .ok len else .error .outOfBounds

def isClosed (c : Channel) : Bool := c.sent.close && c.received.close

def sendable : Prog SshError Channel Unit := do
  let c ← get
  require (c.remote ≠ none) .channel
  require (c.sent.close = false) .channel

def expectOpen : Prog SshError Channel Unit := do
  let c ← get
  require (c.remote ≠ none ∧ c.isClosed = false) .channel

def writeDataMessage (kind : Option U32) (data : List Byte) (room : Nat) :
    Prog SshError Channel Nat := do
  sendable
  let c ← get
  require (c.sent.eof = false) .channel
  require (data.length < 2 ^ 32) .window
  require (data.length ≤ c.remoteWindow ∧ data.length ≤ c.remoteMaxPacket) .window
  let head := if kind = none then 1 + 4 else 1 + 4 + 4
  let len ← ofExcept (write room (head + (data.length + 4)))
  modify ({ · with remoteWindow := c.remoteWindow - data.length })
  pure len

def writeEof (room : Nat) : Prog SshError Channel Nat := do
  sendable
  let c ← get
  let len ← ofExcept (write room (1 + 4))
  modify ({ · with sent := { c.sent with eof := true } })
  pure len

def writeClose (room : Nat) : Prog SshError Channel Nat := do
  let c ← get
  require (c.remote ≠ none) .channel
  require (c.sent.close = false) .channel
  let len ← ofExcept (write room (1 + 4))
  modify ({ · with sent := { c.sent with close := true } })
  pure len

def writeWindowAdjust (bytes : U32) (room : Nat) : Prog SshError Channel Nat := do
  let c ← get
  require (c.remote ≠ none) .channel
  require (c.localWindow + bytes.toNat < 2 ^ 32) .window
  let len ← ofExcept (write room (1 + 4 + 4))
  modify ({ · with localWindow := c.localWindow + bytes.toNat })
  pure len

def spendLocal (len : Nat) : Prog SshError Channel Unit := do
  expectOpen
  let c ← get
  require (len < 2 ^ 32) .window
  require (len ≤ c.localWindow) .window
  modify ({ · with localWindow := c.localWindow - len })

def apply (message : Message) : Prog SshError Channel Unit := do
  let c ← get
  require (message.channel = c.localNumber) .channel
  match message.event with
  | .opened remote window maxPacket =>
    require (c.remote = none) .channel
    modify ({ · with
      remote := some remote, remoteWindow := window.toNat, remoteMaxPacket := maxPacket.toNat })
  | .openFailed =>
    require (c.remote = none) .channel
    modify ({ · with
      sent := { c.sent with close := true }, received := { c.received with close := true } })
  | .windowAdjust bytes =>
    expectOpen
    require (c.remoteWindow + bytes.toNat < 2 ^ 32) .window
    modify ({ · with remoteWindow := c.remoteWindow + bytes.toNat })
  | .data _ data => spendLocal data.length
  | .eof =>
    expectOpen
    modify ({ · with received := { c.received with eof := true } })
  | .close =>
    expectOpen
    modify ({ · with received := { c.received with close := true } })
  | .success | .failure | .exitStatus _ | .exitSignal | .request => expectOpen

inductive Call where
  | writeData (kind : Option U32) (data : List Byte) (room : Nat)
  | writeEof (room : Nat)
  | writeClose (room : Nat)
  | writeWindowAdjust (bytes : U32) (room : Nat)
  | apply (message : Message)

def Call.run : Call → Prog SshError Channel Nat
  | .writeData kind data room => writeDataMessage kind data room
  | .writeEof room => Channel.writeEof room
  | .writeClose room => Channel.writeClose room
  | .writeWindowAdjust bytes room => Channel.writeWindowAdjust bytes room
  | .apply message => do
    Channel.apply message
    pure 0

/-- What the calls that succeeded have said. -/
structure Log where
  opened : Bool
  written : Nat
  credited : Nat
  applied : Nat
  granted : Nat
  maxPacket : Nat
  sent : Ending
  received : Ending

def Log.note (l : Log) : Call → Log
  | .writeData _ data _ => { l with written := l.written + data.length }
  | .writeEof _ => { l with sent := { l.sent with eof := true } }
  | .writeClose _ => { l with sent := { l.sent with close := true } }
  | .writeWindowAdjust bytes _ => { l with granted := l.granted + bytes.toNat }
  | .apply message =>
    match message.event with
    | .opened _ window maxPacket =>
      { l with
        opened := true, credited := l.credited + window.toNat, maxPacket := maxPacket.toNat }
    | .openFailed =>
      { l with sent := { l.sent with close := true }, received := { l.received with close := true } }
    | .windowAdjust bytes => { l with credited := l.credited + bytes.toNat }
    | .data _ data => { l with applied := l.applied + data.length }
    | .eof => { l with received := { l.received with eof := true } }
    | .close => { l with received := { l.received with close := true } }
    | _ => l

def step (s : Channel × Log) (call : Call) : Channel × Log :=
  ((call.run s.1).2, if (call.run s.1).1.isOk then s.2.note call else s.2)

def run (localNumber window : U32) (calls : List Call) : Channel × Log :=
  calls.foldl step (new localNumber window, ⟨false, 0, 0, 0, 0, 0, ⟨false, false⟩, ⟨false, false⟩⟩)

/-- What a call that succeeds may do after the log `l`. -/
def Call.Fits (l : Log) : Call → Prop
  | .writeData _ data _ =>
    data.length ≤ l.maxPacket ∧ l.sent.eof = false ∧ l.sent.close = false
  | _ => True

/-- The peer has said its end of file or its close. -/
def Log.Ended (l : Log) : Prop := l.received.eof = true ∨ l.received.close = true

/-- Data of the peer for this channel: the channel is open, one of the two closes is missing, and
the window has room. -/
structure Log.Admits (l : Log) (localNumber window channel : U32) (data : List Byte) : Prop where
  channel : channel = localNumber
  opened : l.opened = true
  unclosed : l.sent.close = false ∨ l.received.close = false
  small : data.length < 2 ^ 32
  room : l.applied + data.length ≤ window.toNat + l.granted

/-- The channel agrees with its log. -/
structure Balanced (localNumber window : U32) (c : Channel) (l : Log) : Prop where
  localNumber : c.localNumber = localNumber
  sending : l.written + c.remoteWindow = l.credited
  receiving : l.applied + c.localWindow = window.toNat + l.granted
  remote_lt : c.remoteWindow < 2 ^ 32
  local_lt : c.localWindow < 2 ^ 32
  maxPacket : c.remoteMaxPacket = l.maxPacket
  unopened : c.remote = none → l.credited = 0
  opened : c.remote ≠ none ↔ l.opened = true
  sent : c.sent = l.sent
  received : c.received = l.received

variable {localNumber window : U32} {c : Channel} {l : Log}

theorem Balanced.call (h : Balanced localNumber window c l) (call : Call) :
    call.run.wp (fun answer c' => (∀ e, answer = .error e → c' = c) ∧
      ∀ len, answer = .ok len → call.Fits l ∧ Balanced localNumber window c' (l.note call)) c := by
  have hsending := h.sending
  have hreceiving := h.receiving
  have hsent := h.sent
  have hreceived := h.received
  cases call with
  | writeData kind data room =>
    simp [Call.run, writeDataMessage, sendable, wp_bind]
    intro _ hclose heof _ hle hmax _ _
    refine ⟨⟨h.maxPacket ▸ hmax, hsent ▸ heof, hsent ▸ hclose⟩, { h with
      sending := ?_
      remote_lt := (Nat.sub_le _ _).trans_lt h.remote_lt }⟩
    dsimp only [Log.note]
    omega
  | writeEof room =>
    simp [Call.run, Channel.writeEof, sendable, wp_bind]
    exact fun _ _ _ _ => ⟨trivial, { h with sent := by rw [hsent]; rfl }⟩
  | writeClose room =>
    simp [Call.run, Channel.writeClose, wp_bind]
    exact fun _ _ _ _ => ⟨trivial, { h with sent := by rw [hsent]; rfl }⟩
  | writeWindowAdjust bytes room =>
    simp [Call.run, Channel.writeWindowAdjust, wp_bind]
    intro _ hlt _ _
    refine ⟨trivial, { h with receiving := ?_, local_lt := hlt }⟩
    dsimp only [Log.note]
    omega
  | apply message =>
    obtain ⟨channel, event⟩ := message
    cases event <;> simp [Call.run, Channel.apply, spendLocal, expectOpen, wp_bind]
    case opened remote credit maxPacket =>
      intro _ hnone
      have hcredited := h.unopened hnone
      refine ⟨trivial, { h with
        sending := ?_, remote_lt := credit.isLt, maxPacket := rfl, unopened := by simp
        opened := by simp [Log.note] }⟩
      dsimp only [Log.note]
      omega
    case openFailed =>
      exact fun _ _ => ⟨trivial, { h with
        sent := by rw [hsent]; rfl, received := by rw [hreceived]; rfl }⟩
    case windowAdjust bytes =>
      intro _ hopen _ hlt
      refine ⟨trivial, { h with sending := ?_, remote_lt := hlt, unopened := (absurd · hopen) }⟩
      dsimp only [Log.note]
      omega
    case data kind data =>
      intro _ _ _ _ hle
      refine ⟨trivial, { h with
        receiving := ?_
        local_lt := (Nat.sub_le _ _).trans_lt h.local_lt }⟩
      dsimp only [Log.note]
      omega
    case eof | close =>
      exact fun _ _ _ => ⟨trivial, { h with received := by rw [hreceived]; rfl }⟩
    all_goals exact fun _ _ _ => ⟨trivial, { h with }⟩

/-- Data is taken exactly when the log admits it; what the peer said about the end is not asked. -/
theorem Balanced.data_isOk (h : Balanced localNumber window c l) (channel : U32)
    (kind : Option U32) (data : List Byte) :
    ((Call.apply ⟨channel, .data kind data⟩).run c).1.isOk ↔
      l.Admits localNumber window channel data := by
  have hreceiving := h.receiving
  have hclosed : c.isClosed = false ↔ l.sent.close = false ∨ l.received.close = false := by
    rw [isClosed, h.sent, h.received, Bool.and_eq_false_iff]
  constructor
  · have hwp : (Call.apply ⟨channel, .data kind data⟩).run.wp (fun answer _ =>
        answer.isOk → l.Admits localNumber window channel data) c := by
      simp [Call.run, Channel.apply, spendLocal, expectOpen, wp_bind, Except.isOk, Except.toBool]
      intro hnumber hopen hunclosed hsmall hle
      exact ⟨hnumber.trans h.localNumber, h.opened.mp hopen, hclosed.mp hunclosed, hsmall,
        by omega⟩
    exact hwp
  · rintro ⟨hnumber, hopen, hunclosed, hsmall, hroom⟩
    have hopen' := h.opened.mpr hopen
    have hle : data.length ≤ c.localWindow := by omega
    have hexpect : expectOpen c = (.ok (), c) :=
      (run_bind_ok (run_get c)).trans (run_require ⟨hopen', hclosed.mpr hunclosed⟩ _ _)
    have hspend : spendLocal data.length c =
        (.ok (), { c with localWindow := c.localWindow - data.length }) := by
      unfold spendLocal
      rw [run_bind_ok hexpect, run_bind_ok (run_get c), run_bind_ok (run_require hsmall _ _),
        run_bind_ok (run_require hle _ _)]
      rfl
    have hrun : Channel.apply ⟨channel, .data kind data⟩ c =
        (.ok (), { c with localWindow := c.localWindow - data.length }) := by
      unfold Channel.apply
      rw [run_bind_ok (run_get c),
        run_bind_ok (run_require (hnumber.trans h.localNumber.symm) _ _)]
      exact hspend
    rw [Call.run, run_bind_ok hrun]
    rfl

theorem balanced_run (localNumber window : U32) (calls : List Call) :
    Balanced localNumber window (run localNumber window calls).1
      (run localNumber window calls).2 := by
  refine List.foldlRecOn (motive := fun s => Balanced localNumber window s.1 s.2) calls step ?_
    fun s h call _ => ?_
  · exact ⟨rfl, rfl, Nat.zero_add _, Nat.two_pow_pos 32, window.isLt, rfl, fun _ => rfl,
      by simp [new], rfl, rfl⟩
  · obtain ⟨hrefused, hdone⟩ := h.call call
    unfold step
    cases hanswer : (call.run s.1).1 with
    | error e =>
      rw [hrefused e hanswer]
      exact h
    | ok len => exact (hdone len hanswer).2

/-- The windows balance in every run, what both sides said about the end is recorded, and what is
refused changes nothing. Data is written before this side's end only. The peer's data is accepted
before its end only, exactly when none comes that finds the channel open and room in the window
although the peer has said its end. -/
theorem channel_run (localNumber window : U32) (calls : List Call) (call : Call) :
    let s := run localNumber window calls
    s.2.written + s.1.remoteWindow = s.2.credited ∧
    s.2.applied + s.1.localWindow = window.toNat + s.2.granted ∧
    s.1.remoteWindow < 2 ^ 32 ∧ s.1.localWindow < 2 ^ 32 ∧
    s.1.sent = s.2.sent ∧ s.1.received = s.2.received ∧
    (∀ e, (call.run s.1).1 = .error e → (call.run s.1).2 = s.1) ∧
    (∀ len, (call.run s.1).1 = .ok len → call.Fits s.2) ∧
    ∀ channel kind data,
      (((Call.apply ⟨channel, .data kind data⟩).run s.1).1.isOk ↔
        s.2.Admits localNumber window channel data) ∧
      ((((Call.apply ⟨channel, .data kind data⟩).run s.1).1.isOk → ¬ s.2.Ended) ↔
        ¬ (s.2.Ended ∧ s.2.Admits localNumber window channel data)) := by
  intro s
  have h := balanced_run localNumber window calls
  obtain ⟨hrefused, hdone⟩ := h.call call
  refine ⟨h.sending, h.receiving, h.remote_lt, h.local_lt, h.sent, h.received, hrefused,
    fun m hm => (hdone m hm).1, fun channel kind data => ?_⟩
  have hdata := h.data_isOk channel kind data
  refine ⟨hdata, ?_⟩
  rw [hdata]
  tauto

/-- Data in both directions, and the end of each. -/
def bothWays : List Call :=
  [.apply ⟨0, .opened 9 8 4⟩, .writeData none [1, 2] 64, .apply ⟨0, .data none [3]⟩,
    .apply ⟨0, .eof⟩, .writeEof 64, .writeClose 64, .apply ⟨0, .close⟩]

/-- After three bytes and both closes the windows have what is left of them. -/
theorem channel_run_bothWays :
    let s := run 0 5 bothWays
    s.2.written = 2 ∧ s.2.applied = 1 ∧ s.1.remoteWindow = 6 ∧ s.1.localWindow = 4 ∧
      s.1.received = ⟨true, true⟩ ∧ s.1.isClosed := by
  intro s
  obtain ⟨hsending, hreceiving, -, -, -, hreceived, -⟩ := channel_run 0 5 bothWays (.writeEof 0)
  have hwritten : s.2.written = 2 ∧ s.2.credited = 8 := ⟨rfl, rfl⟩
  have happlied : s.2.applied = 1 ∧ s.2.granted = 0 := ⟨rfl, rfl⟩
  refine ⟨hwritten.1, happlied.1, ?_, ?_, hreceived.trans rfl, rfl⟩
  · change s.2.written + s.1.remoteWindow = s.2.credited at hsending
    omega
  · change s.2.applied + s.1.localWindow = 5 + s.2.granted at hreceiving
    omega

/-- The peer's data is taken after its end of file and its close. -/
theorem data_after_close :
    let s := run 0 1 [.apply ⟨0, .opened 0 0 0⟩, .apply ⟨0, .eof⟩, .apply ⟨0, .close⟩]
    s.2.received = ⟨true, true⟩ ∧ ((Call.apply ⟨0, .data none [7]⟩).run s.1).1.isOk = true :=
  ⟨rfl, rfl⟩

theorem closed_call (h : c.isClosed) (call : Call) :
    call.run.wp (fun answer c' => c'.isClosed ∧ ∀ len, answer = .ok len →
      (l.note call).written = l.written ∧ (l.note call).applied = l.applied) c := by
  have hsent := (Bool.and_eq_true_iff.mp h).1
  cases call with
  | writeData kind data room => simp [Call.run, writeDataMessage, sendable, wp_bind, hsent, h]
  | writeEof room => simp [Call.run, Channel.writeEof, sendable, wp_bind, hsent, h]
  | writeClose room => simp [Call.run, Channel.writeClose, wp_bind, hsent, h]
  | writeWindowAdjust bytes room =>
    simp_all [Call.run, Channel.writeWindowAdjust, wp_bind, isClosed, Log.note]
  | apply message =>
    obtain ⟨channel, event⟩ := message
    cases event <;> simp [Call.run, Channel.apply, spendLocal, expectOpen, wp_bind, h, Log.note]
    · simp_all [isClosed]
    · simp [isClosed]

/-- A closed channel stays closed, whatever is called and whatever the peer sends, and carries no
more data in either direction. -/
theorem closed_run (s : Channel × Log) (h : s.1.isClosed) (calls : List Call) :
    (calls.foldl step s).1.isClosed ∧ (calls.foldl step s).2.written = s.2.written ∧
      (calls.foldl step s).2.applied = s.2.applied := by
  induction calls generalizing s with
  | nil => exact ⟨h, rfl, rfl⟩
  | cons call calls ih =>
    obtain ⟨hclosed, hsame⟩ := closed_call (l := s.2) h call
    have hstep : (step s call).2.written = s.2.written ∧ (step s call).2.applied = s.2.applied := by
      unfold step
      cases hanswer : (call.run s.1).1 with
      | error e => exact ⟨rfl, rfl⟩
      | ok len => exact hsame len hanswer
    obtain ⟨hend, hwritten, happlied⟩ := ih (step s call) hclosed
    exact ⟨hend, hwritten.trans hstep.1, happlied.trans hstep.2⟩

/-- A channel that carried data both ways and was closed by both sides carries no more. -/
theorem closed_run_bothWays :
    let s := run 0 5 bothWays
    let after := [.writeData none [7] 16, .apply ⟨0, .data none [8]⟩].foldl step s
    s.1.isClosed ∧ after.1.isClosed ∧ after.2.written = 2 ∧ after.2.applied = 1 := by
  intro s after
  obtain ⟨hclosed, hwritten, happlied⟩ :=
    closed_run (run 0 5 bothWays) rfl [.writeData none [7] 16, .apply ⟨0, .data none [8]⟩]
  exact ⟨rfl, hclosed, hwritten, happlied⟩

end Channel

end Audhsos.Ssh
