import Audhsos.Kernel.Store
import Audhsos.Objects.WaitQueue

/-!
What an operation on an endpoint, a reply or a notification leaves for its call: the answer of the
caller, the thread that woke, which always learns why, and whether to switch.
-/

namespace Audhsos

open Lib Objects

variable {z : Sizes}

/-- Runs a call on a copy of a wait queue and answers the queue as the call left it. -/
def Objects.onQueue {α : Type} (queue : WaitQueue) (m : Prog Error (WaitState z.threads) α) :
    Store z (Except Error α × WaitQueue) := fun o =>
  let (answer, s) := m ⟨queue, o.threads⟩
  (.ok (answer, s.queue), { o with threads := s.threads })

namespace Ipc

/-- A thread that became ready, and what it finds in its buffer. -/
structure Wakeup where
  thread : ThreadId
  status : Status
  values : Nat × Nat
deriving DecidableEq, Repr

variable (thread : ThreadId)

def Wakeup.failed (error : Error) : Wakeup := ⟨thread, .failed error, (0, 0)⟩

def Wakeup.ok (values : Nat × Nat) : Wakeup := ⟨thread, .ok, values⟩

structure Outcome where
  blocked : Bool
  status : Status
  values : Nat × Nat
  wakeup : Option Wakeup
  reschedule : Bool
deriving DecidableEq, Repr

namespace Outcome

def done : Outcome := ⟨false, .ok, (0, 0), none, false⟩

def ofValues (first second : Nat) : Outcome := { done with values := (first, second) }

variable (outcome : Outcome)

def withStatus (status : Status) : Outcome := { outcome with status }

def waking (wakeup : Wakeup) : Outcome := { outcome with wakeup := some wakeup }

def switching (reschedule : Bool) : Outcome := { outcome with reschedule }

/-- The caller blocks: it has no result yet. -/
def ofBlocked : Outcome := { done with blocked := true, reschedule := true }

end Outcome

/-! ## Waking and blocking -/

def stateOf (o : Objects z) (id : ThreadId) : Option ThreadState := (o.thread? id).map (·.state)

def isBlocked : ThreadState → Bool
  | .blockedSend | .blockedRecv | .blockedReply | .blockedNotification => true
  | _ => false

/-- Makes a blocked thread ready and answers whether it should take the processor; `none` when
nothing was woken. -/
def wake (id : ThreadId) : Sys z (Option Bool) := do
  let s ← Prog.get
  if (stateOf s.objects id).any isBlocked then do
    let woken ← Prog.attempt (sched (Processors.onWake id))
    pure (woken.toOption.map (·.reschedule))
  else pure none

def block (id : ThreadId) (event : Event) : Sys z Bool := do
  let outcome ← sched (Processors.onBlock id event)
  pure outcome.reschedule

def record (wait : Wait) : Store z Unit :=
  withThread thread (·.setWait wait)

def forget : Store z Unit := record thread .nothing

/-! ## The threads a destroyed object left waiting -/

structure Waiters where
  first : WaitQueue
  second : WaitQueue
  single : Option ThreadId
  error : Error
  switch : Bool

namespace Waiters

def none : Waiters := ⟨.empty, .empty, .none, .objectDestroyed, false⟩

def queues (first second : WaitQueue) (error : Error) :
    Waiters := ⟨first, second, .none, error, false⟩

def one (thread : Option ThreadId) (error : Error) : Waiters :=
  ⟨.empty, .empty, thread, error, false⟩

variable (waiters : Waiters)

/-- How many threads are left to take, one more for each queue whose head may be stale, and one to
find that nobody is left. -/
def bound : Nat :=
  waiters.single.toList.length + waiters.first.len + waiters.second.len + 3

/-- The next thread to wake: the single one first, then those of the two queues. -/
def takeNext : Store z (Option ThreadId × Waiters) := do
  match waiters.single with
  | some id => pure (some id, { waiters with single := .none })
  | .none => do
    let (first, firstLeft) ← onQueue waiters.first WaitQueue.dequeueFront
    let waiters := { waiters with first := firstLeft }
    match first with
    | .ok (some id) => pure (some id, waiters)
    | _ => do
      let (second, secondLeft) ← onQueue waiters.second WaitQueue.dequeueFront
      pure (second.toOption.join, { waiters with second := secondLeft })

/-- The loop of `wakeNext`: threads that cannot be woken are dropped. -/
def wakeLoop : Nat → Waiters → Sys z (Option Wakeup × Waiters)
  | 0, waiters => pure (.none, waiters)
  | fuel + 1, waiters => do
    let (next, waiters) ← store waiters.takeNext
    match next with
    | .none => pure (.none, waiters)
    | some id => do
      store (forget id)
      let woken ← wake id
      match woken with
      | some reschedule =>
        pure (some (.failed id waiters.error), { waiters with switch := waiters.switch || reschedule })
      | .none => wakeLoop fuel waiters

/-- Wakes the next thread and says what belongs in its buffer. -/
def wakeNext : Sys z (Option Wakeup × Waiters) := wakeLoop waiters.bound waiters

end Waiters

def destroyEndpoint (endpoint : Endpoint) : Waiters :=
  .queues endpoint.senders endpoint.receivers .objectDestroyed

def destroyNotification (notification : Notification) : Waiters :=
  .one notification.waiter .objectDestroyed

def destroyReply (reply : Reply) : Waiters :=
  .one (if reply.consumed then none else some reply.caller) .replyDropped

def destroyed : Destroyed → Waiters
  | .quietly _ => .none
  | .endpoint _ endpoint => destroyEndpoint endpoint
  | .notification _ notification => destroyNotification notification
  | .reply _ reply => destroyReply reply

/-! ## Cancelling a wait -/

/-- Takes a thread out of the object that its record names. -/
def leave : Wait → Store z Unit
  | .nothing => pure ()
  | .endpoint endpoint queue _ _ => do
    let o ← Prog.get
    match o.endpoint? endpoint with
    | none => pure ()
    | some held =>
      if queue.isSender then do
        let (_, senders) ← onQueue held.senders (WaitQueue.unlink thread)
        withEndpoint endpoint ({ · with senders })
      else do
        let (_, receivers) ← onQueue held.receivers (WaitQueue.unlink thread)
        withEndpoint endpoint ({ · with receivers })
  | .notification notification => withNotification notification ({ · with waiter := none })
  | .reply reply => withReply reply ({ · with consumed := true })

/-- Takes a thread out of what it waits on; `true` when it waited on something. -/
def cancel : Store z Bool := do
  let o ← Prog.get
  match o.thread? thread with
  | none => pure false
  | some held =>
    if held.wait = .nothing then pure false
    else do
      leave thread held.wait
      withThread thread fun held => (held.setWait .nothing).setWaitLinks .unlinked
      pure true

end Ipc

end Audhsos
