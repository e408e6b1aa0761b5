import Audhsos.Sched.Scheduler

/-!
The queue a thread waits in on an endpoint: by priority, and first in first out within one. It is
linked through `waitLinks`, which no run queue uses.
-/

namespace Audhsos

open Lib

structure WaitState (n : Nat) where
  queue : WaitQueue
  threads : Threads n

namespace WaitQueue

variable {n : Nat}

/-- The first `steps` threads of the chain that starts at `next`. -/
def iterFrom (threads : Threads n) : Nat → Option ThreadId → List ThreadId
  | 0, _ => []
  | _ + 1, none => []
  | steps + 1, some id => id :: iterFrom threads steps ((threads.get? id).bind (·.waitLinks.next))

section

variable (queue : WaitQueue) (threads : Threads n)

def iter : List ThreadId :=
  iterFrom threads queue.len queue.head

def findByPriority (wanted : Nat → Bool) : Option ThreadId :=
  (queue.iter threads).find? fun id => (threads.get? id).any fun thread => wanted thread.priority

def firstBelow (priority : Nat) : Option ThreadId :=
  queue.findByPriority threads (· < priority)

def firstAtOrBelow (priority : Nat) : Option ThreadId :=
  queue.findByPriority threads (· ≤ priority)

end

variable (id : ThreadId)

def getThread : Prog Error (WaitState n) Thread := fun s =>
  ((s.threads.get? id).elim (.error .invalidHandle) .ok, s)

def modifyThread (f : Thread → Thread) : Prog Error (WaitState n) Unit :=
  Prog.modify fun s => { s with threads := s.threads.modify id f }

def modifySelf (f : WaitQueue → WaitQueue) : Prog Error (WaitState n) Unit :=
  Prog.modify fun s => { s with queue := f s.queue }

def append : Prog Error (WaitState n) Unit := do
  let self ← Prog.gets (·.queue)
  let _ ← getThread id
  modifyThread id (·.setWaitLinks { next := none, previous := self.tail })
  match self.tail with
  | some previous => do
    let _ ← getThread previous
    modifyThread previous fun before =>
      before.setWaitLinks { before.waitLinks with next := some id }
  | none => modifySelf ({ · with head := some id })
  modifySelf ({ · with tail := some id })

def linkBefore (id next : ThreadId) : Prog Error (WaitState n) Unit := do
  let after ← getThread next
  let previous := after.waitLinks.previous
  let _ ← getThread id
  modifyThread id (·.setWaitLinks { next := some next, previous })
  let _ ← getThread next
  modifyThread next fun after => after.setWaitLinks { after.waitLinks with previous := some id }
  match previous with
  | some before => do
    let _ ← getThread before
    modifyThread before fun held => held.setWaitLinks { held.waitLinks with next := some id }
  | none => modifySelf ({ · with head := some id })

/-- Puts a thread before the one that `place` finds for its priority, or at the end. -/
def enqueueAt (place : WaitQueue → Threads n → Nat → Option ThreadId) (id : ThreadId) :
    Prog Error (WaitState n) Unit := do
  let thread ← getThread id
  let s ← Prog.get
  Prog.require (thread.wait = .nothing ∧ thread.waitLinks.isUnlinked ∧ s.queue.head ≠ some id)
    .invalidState
  match place s.queue s.threads thread.priority with
  | some next => linkBefore id next
  | none => append id
  modifySelf fun queue => { queue with len := satAdd32 queue.len 1 }

/-- Queues a thread behind those of its own priority. -/
def enqueue : Prog Error (WaitState n) Unit := enqueueAt firstBelow id

/-- Queues a thread in front of those of its own priority. -/
def requeue : Prog Error (WaitState n) Unit := enqueueAt firstAtOrBelow id

/-- Takes a thread out; `false` when it was not in the queue. -/
def unlink : Prog Error (WaitState n) Bool := fun s =>
  match s.threads.get? id with
  | none => (.ok false, s)
  | some thread =>
    let links := thread.waitLinks
    if links.isUnlinked ∧ s.queue.head ≠ some id then (.ok false, s)
    else
      let threads := match links.previous with
        | some previous => s.threads.modify previous fun before =>
          before.setWaitLinks { before.waitLinks with next := links.next }
        | none => s.threads
      let threads := match links.next with
        | some next => threads.modify next fun after =>
          after.setWaitLinks { after.waitLinks with previous := links.previous }
        | none => threads
      (.ok true,
        { queue :=
            { head := if s.queue.head = some id then links.next else s.queue.head
              tail := if s.queue.tail = some id then links.previous else s.queue.tail
              len := s.queue.len - 1 }
          threads := threads.modify id (·.setWaitLinks .unlinked) })

/-- Takes the first thread out. A head that is stale leaves nothing to follow. -/
def dequeueFront : Prog Error (WaitState n) (Option ThreadId) := do
  let self ← Prog.gets (·.queue)
  match self.head with
  | none => pure none
  | some head => do
    let unlinked ← unlink head
    if unlinked then pure (some head)
    else do
      modifySelf fun _ => .empty
      pure none

end WaitQueue

end Audhsos
