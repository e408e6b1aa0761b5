import Audhsos.Abi
import Audhsos.Lib.Prog

/-!
When an SSH client asks for new keys: a gigabyte, an hour or half the sequence numbers after the
last exchange. The packets are counted from the beginning of the connection.
-/

namespace Audhsos.Ssh

open Lib Prog

inductive SshError where
  | exchange
  | channel
  | window
  | outOfBounds
deriving DecidableEq

inductive Exchange where
  | settled
  | asked
  | running
deriving DecidableEq

inductive Answer where
  | sendKexInit
  | nothing

def bytesLimit : Nat := 2 ^ 30
def microseconds : Nat := 3600 * 1000000
def packetsLimit : Nat := 2 ^ 31

structure Rekey where
  bytes : Nat
  since : Nat
  packets : Nat
  state : Exchange

namespace Rekey

def new (now : Nat) : Rekey := ⟨0, now, 0, .asked⟩

variable (r : Rekey)

def isRunning : Bool := r.state ≠ .settled

def note (bytes : Nat) : Rekey :=
  { r with bytes := min (r.bytes + bytes) u64Max, packets := min (r.packets + 1) u64Max }

def due (now : Nat) : Bool :=
  !r.isRunning && (bytesLimit ≤ r.bytes || packetsLimit ≤ r.packets ||
    microseconds ≤ now - r.since)

def ask : Prog SshError Rekey Unit := fun r =>
  if r.isRunning then (.error .exchange, r) else (.ok (), { r with state := .asked })

def peerAsked : Prog SshError Rekey Answer := fun r =>
  match r.state with
  | .settled => (.ok .sendKexInit, { r with state := .running })
  | .asked => (.ok .nothing, { r with state := .running })
  | .running => (.error .exchange, r)

def answered : Prog SshError Rekey Unit := fun r =>
  if r.state = .settled then (.error .exchange, r) else (.ok (), { r with state := .running })

/-- The packets are not reset. -/
def settled (now : Nat) : Prog SshError Rekey Unit := fun r =>
  if r.isRunning then (.ok (), { r with state := .settled, bytes := 0, since := now })
  else (.error .exchange, r)

inductive Call where
  | note (bytes : Nat)
  | ask
  | peerAsked
  | answered
  | settled (now : Nat)

def step (r : Rekey) : Call → Rekey
  | .note bytes => r.note bytes
  | .ask => (ask r).2
  | .peerAsked => (peerAsked r).2
  | .answered => (answered r).2
  | .settled now => (settled now r).2

/-- What a connection has carried, counted exactly: since the last exchange that was settled, and
the packets from the beginning. -/
structure Carried where
  bytes : Nat
  packets : Nat
  since : Nat
  total : Nat

def Carried.step (c : Carried) (r : Rekey) : Call → Carried
  | .note bytes => { c with
      bytes := c.bytes + bytes, packets := c.packets + 1, total := c.total + 1 }
  | .settled now => if r.isRunning then { c with bytes := 0, packets := 0, since := now } else c
  | _ => c

/-- A connection from its beginning, with what it has carried. -/
def run (start : Nat) (calls : List Call) : Rekey × Carried :=
  calls.foldl (fun s call => (s.1.step call, s.2.step s.1 call)) (new start, ⟨0, 0, start, 0⟩)

/-- The counters are the exact ones, cut off at the largest number. -/
structure Counts (r : Rekey) (c : Carried) : Prop where
  bytes : r.bytes = min c.bytes u64Max
  packets : r.packets = min c.total u64Max
  since : r.since = c.since
  within : c.packets ≤ c.total

variable {r} {c : Carried} (h : Counts r c)
include h

theorem Counts.withState (state : Exchange) : Counts { r with state } c :=
  ⟨h.bytes, h.packets, h.since, h.within⟩

theorem Counts.step (call : Call) : Counts (r.step call) (c.step r call) := by
  cases call with
  | note bytes =>
    have hbytes := h.bytes
    have hpackets := h.packets
    refine ⟨?_, ?_, h.since, Nat.succ_le_succ h.within⟩
    · simp only [Rekey.step, note, Carried.step]
      omega
    · simp only [Rekey.step, note, Carried.step]
      omega
  | ask =>
    change Counts (ask r).2 c
    unfold ask
    split
    · exact h
    · exact h.withState _
  | peerAsked =>
    change Counts (peerAsked r).2 c
    unfold peerAsked
    split
    · exact h.withState _
    · exact h.withState _
    · exact h
  | answered =>
    change Counts (answered r).2 c
    unfold answered
    split
    · exact h
    · exact h.withState _
  | settled now =>
    unfold Rekey.step settled Carried.step
    dsimp only
    split
    · exact ⟨(Nat.zero_min _).symm, h.packets, rfl, Nat.zero_le _⟩
    · exact h

variable {now : Nat}

theorem Counts.due_iff : r.due now = true ↔ r.isRunning = false ∧
      (bytesLimit ≤ c.bytes ∨ packetsLimit ≤ c.total ∨ microseconds ≤ now - c.since) := by
  have hmax : bytesLimit ≤ u64Max ∧ packetsLimit ≤ u64Max := by decide
  simp [due, h.bytes, h.packets, h.since, hmax, or_assoc]

theorem Counts.due_settled {r' : Rekey} (hrun : settled now r = (.ok (), r')) :
    r'.due now = true ↔ packetsLimit ≤ c.total := by
  have hstep := h.step (.settled now)
  rw [Rekey.step, hrun] at hstep
  unfold settled at hrun
  split at hrun
  next hrunning =>
    obtain rfl := (Prod.mk.inj hrun).2
    rw [hstep.due_iff, Carried.step, if_pos hrunning]
    simp [isRunning, bytesLimit, microseconds]
  next => simp at hrun

omit h

theorem counts_run (start : Nat) (calls : List Call) :
    Counts (run start calls).1 (run start calls).2 := by
  refine List.foldlRecOn calls _ ?_ fun s h call _ => Counts.step h call
  exact ⟨rfl, rfl, rfl, le_rfl⟩

/-- One of the three reasons for new keys, counted from the last exchange. -/
def Carried.Due (c : Carried) (now : Nat) : Prop :=
  bytesLimit ≤ c.bytes ∨ packetsLimit ≤ c.packets ∨ microseconds ≤ now - c.since

/-- New keys are asked for exactly for one of the reasons, or once the connection has carried as
many packets as the limit. From then on an exchange that was just settled is followed by another. -/
theorem due_run (start now : Nat) (calls : List Call) :
    let s := run start calls
    (s.1.due now = true ↔
      s.1.isRunning = false ∧ (s.2.Due now ∨ packetsLimit ≤ s.2.total)) ∧
    ∀ r', settled now s.1 = (.ok (), r') → (r'.due now = true ↔ packetsLimit ≤ s.2.total) := by
  intro s
  have h : Counts s.1 s.2 := counts_run start calls
  have hwithin := h.within
  refine ⟨?_, fun r' hrun => h.due_settled hrun⟩
  rw [h.due_iff, Carried.Due]
  exact and_congr_right fun _ => ⟨by omega, by omega⟩

/-- Three packets and two exchanges. -/
theorem due_run_settled :
    let s := run 0 [.note 10, .settled 5, .note 20, .ask, .peerAsked, .note 30]
    s.2.bytes = 50 ∧ s.2.total = 3 ∧ ∃ r', settled 7 s.1 = (.ok (), r') ∧ r'.due 7 = false := by
  intro s
  obtain ⟨-, hsettled⟩ := due_run 0 7 [.note 10, .settled 5, .note 20, .ask, .peerAsked, .note 30]
  refine ⟨rfl, rfl, _, rfl, ?_⟩
  rw [← Bool.not_eq_true, hsettled _ rfl]
  decide

theorem run_notes (n : Nat) : (run 0 (List.replicate n (.note 0))).1.state = .asked ∧
    (run 0 (List.replicate n (.note 0))).2.total = n := by
  induction n with
  | zero => exact ⟨rfl, rfl⟩
  | succ n ih =>
    rw [List.replicate_succ', run, List.foldl_append]
    exact ⟨ih.1, congrArg (· + 1) ih.2⟩

theorem due_settled_notes {n : Nat} (h : packetsLimit ≤ n) :
    ∃ r', settled 0 (run 0 (List.replicate n (.note 0))).1 = (.ok (), r') ∧ r'.due 0 = true := by
  obtain ⟨hstate, htotal⟩ := run_notes n
  have hrunning : (run 0 (List.replicate n (.note 0))).1.isRunning := by simp [isRunning, hstate]
  have hrun : settled 0 (run 0 (List.replicate n (.note 0))).1 = (.ok (), _) := if_pos hrunning
  exact ⟨_, hrun, ((counts_run _ _).due_settled hrun).2 (by rwa [htotal])⟩

/-- From then on every exchange is followed by another. -/
theorem due_after_settled :
    ∃ r', settled 0 (run 0 (List.replicate packetsLimit (.note 0))).1 = (.ok (), r') ∧
      r'.due 0 = true :=
  due_settled_notes le_rfl

end Rekey

end Audhsos.Ssh
