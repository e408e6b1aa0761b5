import Audhsos.Objects.Object

/-!
The scheduler of one processor: a queue per priority, linked through the threads, a bitmap of the
queues that hold a thread, the thread that runs, and a heap of the deadlines threads wait for.
-/

namespace Audhsos

open Lib Prog Function

/-! ## Thread states -/

inductive Event where
  | start
  | schedule
  | sliceExpired
  | displaced
  | yield
  | blockSend
  | blockRecv
  | blockReply
  | blockNotification
  | wake
  | suspend
  | resume
  | fault
  | exit
deriving DecidableEq, Repr

def Event.blockedState : Event → Option ThreadState
  | .blockSend => some .blockedSend
  | .blockRecv => some .blockedRecv
  | .blockReply => some .blockedReply
  | .blockNotification => some .blockedNotification
  | _ => none

def transition : ThreadState → Event → Option ThreadState
  | .inactive, .start => some .ready
  | .inactive, .suspend => some .suspended
  | .inactive, .exit => some .exited
  | .ready, .schedule => some .running
  | .ready, .suspend => some .suspended
  | .ready, .exit => some .exited
  | .running, .sliceExpired => some .ready
  | .running, .displaced => some .ready
  | .running, .yield => some .ready
  | .running, .blockSend => some .blockedSend
  | .running, .blockRecv => some .blockedRecv
  | .running, .blockReply => some .blockedReply
  | .running, .blockNotification => some .blockedNotification
  | .running, .suspend => some .suspended
  | .running, .fault => some .faulted
  | .running, .exit => some .exited
  | .blockedSend, .wake => some .ready
  | .blockedSend, .suspend => some .suspended
  | .blockedSend, .exit => some .exited
  | .blockedSend, .blockReply => some .blockedReply
  | .blockedRecv, .wake => some .ready
  | .blockedRecv, .suspend => some .suspended
  | .blockedRecv, .exit => some .exited
  | .blockedReply, .wake => some .ready
  | .blockedReply, .suspend => some .suspended
  | .blockedReply, .exit => some .exited
  | .blockedNotification, .wake => some .ready
  | .blockedNotification, .suspend => some .suspended
  | .blockedNotification, .exit => some .exited
  | .suspended, .resume => some .ready
  | .suspended, .exit => some .exited
  | .faulted, .resume => some .ready
  | .faulted, .exit => some .exited
  | _, _ => none

def nextState (state : ThreadState) (event : Event) : Except Error ThreadState :=
  (transition state event).elim (.error .invalidState) .ok

/-! ## Deadlines -/

structure DeadlineEntry where
  deadline : Nat
  order : Nat
  id : ThreadId
deriving DecidableEq, Repr

def DeadlineEntry.empty : DeadlineEntry := ⟨0, 0, ⟨0, 0⟩⟩

def deadlineCapacity : Nat := 256

/-- A binary heap, first by deadline and then by order of arrival. -/
structure Deadlines where
  entries : Nat → DeadlineEntry
  len : Nat
  order : Nat

abbrev Threads (n : Nat) := Pool .thread Thread n

def Threads.get? {n : Nat} (threads : Threads n) (id : ThreadId) : Option Thread :=
  (threads.find id).map (·.value)

namespace Deadlines

variable {n : Nat}

def new : Deadlines := ⟨fun _ => .empty, 0, 0⟩

section

variable (heap : Deadlines)
include heap

variable (threads : Threads n)

def canInsert (id : ThreadId) : Except Error Unit :=
  match threads.get? id with
  | none => .error .invalidHandle
  | some thread =>
    if thread.deadlineIndex.isSome || thread.deadline.isSome then .error .invalidState
    else if heap.len = deadlineCapacity then .error .poolExhausted
    else if heap.order = u64Size - 1 then .error .quotaExceeded
    else .ok ()

variable (left right : Nat)

def before : Bool :=
  let left := heap.entries left
  let right := heap.entries right
  left.deadline < right.deadline || (left.deadline = right.deadline && left.order < right.order)

def recordIndex (index : Nat) : Threads n :=
  threads.modify (heap.entries index).id fun thread =>
    thread.setDeadline thread.deadline (some index)

def swap : Deadlines × Threads n :=
  let heap := { heap with
    entries := update (update heap.entries left (heap.entries right)) right
      (heap.entries left) }
  (heap, heap.recordIndex (heap.recordIndex threads left) right)

end

/-- Moves the entry at `at` up; `fuel` bounds the steps, which at least halve the index. -/
def siftUp : Nat → Deadlines → Threads n → Nat → Nat × Deadlines × Threads n
  | 0, heap, threads, position => (position, heap, threads)
  | fuel + 1, heap, threads, position =>
    if position = 0 then (position, heap, threads)
    else
      let parent := (position - 1) / 2
      if ¬ heap.before position parent then (position, heap, threads)
      else
        let (heap, threads) := heap.swap threads position parent
        siftUp fuel heap threads parent

/-- Moves the entry at `at` down; `fuel` bounds the steps, which at least double the index. -/
def siftDown : Nat → Deadlines → Threads n → Nat → Deadlines × Threads n
  | 0, heap, threads, _ => (heap, threads)
  | fuel + 1, heap, threads, position =>
    if ¬ position < heap.len / 2 then (heap, threads)
    else
      let left := position * 2 + 1
      let right := left + 1
      let child := if right < heap.len ∧ heap.before right left then right else left
      if ¬ heap.before child position then (heap, threads)
      else
        let (heap, threads) := heap.swap threads position child
        siftDown fuel heap threads child

variable (heap : Deadlines) (threads : Threads n)

def insert (id : ThreadId) (deadline : Nat) : Except Error Unit × Deadlines × Threads n :=
  match heap.canInsert threads id with
  | .error e => (.error e, heap, threads)
  | .ok () =>
    let index := heap.len
    let heap := { heap with
      entries := update heap.entries index ⟨deadline, heap.order, id⟩
      order := heap.order + 1
      len := heap.len + 1 }
    let threads := threads.modify id (·.setDeadline (some deadline) (some index))
    let (_, heap, threads) := siftUp (index + 1) heap threads index
    (.ok (), heap, threads)

def removeAt (index : Nat) : Deadlines × Threads n :=
  let removed := heap.entries index
  let threads := threads.modify removed.id (·.setDeadline none none)
  let heap := { heap with len := heap.len - 1 }
  let (heap, threads) :=
    if index ≠ heap.len then
      let heap := { heap with entries := update heap.entries index (heap.entries heap.len) }
      let threads := heap.recordIndex threads index
      let (position, heap, threads) := siftUp (index + 1) heap threads index
      siftDown (heap.len + 1) heap threads position
    else (heap, threads)
  let heap := { heap with entries := update heap.entries heap.len .empty }
  (if heap.len = 0 then { heap with order := 0 } else heap, threads)

/-- The thread whose deadline has passed, taken out of the heap. Entries of threads that no longer
wait for them are dropped on the way, each of which makes the heap shorter. -/
def expiredLoop (now : Nat) : Nat → Deadlines → Threads n → Option ThreadId × Deadlines × Threads n
  | 0, heap, threads => (none, heap, threads)
  | fuel + 1, heap, threads =>
    if heap.len = 0 then (none, heap, threads)
    else
      let entry := heap.entries 0
      if ((threads.get? entry.id).bind (·.deadline)) ≠ some entry.deadline then
        let (heap, threads) := heap.removeAt threads 0
        expiredLoop now fuel heap threads
      else if now < entry.deadline then (none, heap, threads)
      else
        let (heap, threads) := heap.removeAt threads 0
        (some entry.id, heap, threads)

def expired (now : Nat) : Option ThreadId × Deadlines × Threads n :=
  expiredLoop now (heap.len + 1) heap threads

def remove (id : ThreadId) : Deadlines × Threads n :=
  match threads.get? id with
  | none => (heap, threads)
  | some thread =>
    match thread.deadlineIndex with
    | none => (heap, threads)
    | some index =>
      if index < heap.len ∧ (heap.entries index).id = id then heap.removeAt threads index
      else (heap, threads)

end Deadlines

/-! ## The scheduler -/

structure RunQueue where
  head : Option ThreadId
  tail : Option ThreadId
deriving DecidableEq, Repr

def RunQueue.empty : RunQueue := ⟨none, none⟩

inductive Placement where
  | tail
  | head
deriving DecidableEq, Repr

/-- Whether the processor should choose a thread again. -/
structure Outcome where
  reschedule : Bool
deriving DecidableEq, Repr

def Outcome.nothing : Outcome := ⟨false⟩

def Outcome.again : Outcome := ⟨true⟩

structure Scheduler where
  queues : Nat → RunQueue
  ready : BitVec 32
  current : Option ThreadId
  idle : Option ThreadId
  ended : Nat
  deadlines : Deadlines

structure SchedState (n : Nat) where
  scheduler : Scheduler
  threads : Threads n

namespace Scheduler

variable {n : Nat}

def new : Scheduler := ⟨fun _ => .empty, 0, none, none, 0, .new⟩

section

variable (scheduler : Scheduler)

def highestReady : Option Nat :=
  (List.range priorityCount).reverse.find? fun priority => scheduler.ready.getLsbD priority

variable (priority : Nat)

def markReady (ready : Bool) : Scheduler :=
  if priorityCount ≤ priority then scheduler
  else
    let bit := 1#32 <<< priority
    { scheduler with
      ready := if ready then scheduler.ready ||| bit else scheduler.ready &&& ~~~bit }

def modifyQueue (f : RunQueue → RunQueue) : Scheduler :=
  if priority < priorityCount then
    { scheduler with
      queues := update scheduler.queues priority (f (scheduler.queues priority)) }
  else scheduler

def queue : RunQueue :=
  if priority < priorityCount then scheduler.queues priority else .empty

def cleared : Scheduler := { scheduler with ended := scheduler.ended - 1 }

def setIdle (idle : ThreadId) : Scheduler :=
  { scheduler with idle := some idle }

def adopt (thread : ThreadId) : Scheduler :=
  { scheduler with current := some thread }

end

def getThread (id : ThreadId) : Prog Error (SchedState n) Thread := fun s =>
  ((s.threads.get? id).elim (.error .invalidHandle) .ok, s)

def modifyThread (id : ThreadId) (f : Thread → Thread) : Prog Error (SchedState n) Unit :=
  Prog.modify fun s => { s with threads := s.threads.modify id f }

def modifySelf (f : Scheduler → Scheduler) : Prog Error (SchedState n) Unit :=
  Prog.modify fun s => { s with scheduler := f s.scheduler }

section

variable (id : ThreadId)

/-- Puts a thread into the queue of its priority. -/
def link (placement : Placement) : Prog Error (SchedState n) Unit := do
  let self ← Prog.gets (·.scheduler)
  require (self.idle ≠ some id) .invalidArgument
  let thread ← getThread id
  let priority := thread.priority
  require (priority < priorityCount) .invalidArgument
  require thread.queueLinks.isUnlinked .invalidState
  let head := (self.queue priority).head
  let tail := (self.queue priority).tail
  require (head ≠ some id) .invalidState
  let neighbour := match placement with
    | .tail => tail
    | .head => head
  match neighbour with
  | some neighbour => do
    let _ ← getThread neighbour
    pure ()
  | none => pure ()
  modifyThread id (·.setQueueLinks (match placement with
    | .tail => { next := none, previous := tail }
    | .head => { next := head, previous := none }))
  match neighbour with
  | some neighbour =>
    modifyThread neighbour fun entry => entry.setQueueLinks (match placement with
      | .tail => { entry.queueLinks with next := some id }
      | .head => { entry.queueLinks with previous := some id })
  | none =>
    modifySelf (·.modifyQueue priority fun queue => match placement with
      | .tail => { queue with head := some id }
      | .head => { queue with tail := some id })
  modifySelf (·.modifyQueue priority fun queue => match placement with
    | .tail => { queue with tail := some id }
    | .head => { queue with head := some id })
  modifySelf (·.markReady priority true)

def enqueue : Prog Error (SchedState n) Unit := link id .tail

/-- Takes a thread out of the queue of its priority, if it is in one. -/
def dequeue : Prog Error (SchedState n) Unit := do
  let thread ← getThread id
  let priority := thread.priority
  let links := thread.queueLinks
  let self ← Prog.gets (·.scheduler)
  if links.isUnlinked ∧ (self.queue priority).head ≠ some id then pure ()
  else
    match links.previous with
    | some previous => do
      let _ ← getThread previous
      modifyThread previous fun before =>
        before.setQueueLinks { before.queueLinks with next := links.next }
    | none => pure ()
    match links.next with
    | some next => do
      let _ ← getThread next
      modifyThread next fun after =>
        after.setQueueLinks { after.queueLinks with previous := links.previous }
    | none => pure ()
    modifySelf fun self =>
      let self := self.modifyQueue priority fun queue =>
        { head := if queue.head = some id then links.next else queue.head
          tail := if queue.tail = some id then links.previous else queue.tail }
      self.markReady priority (self.queue priority).head.isSome
    modifyThread id (·.setQueueLinks .unlinked)

def spendSlice : Prog Error (SchedState n) Unit :=
  modifyThread id (·.setTimeSlice 0)

def removeDeadline : Prog Error (SchedState n) Unit := Prog.modify fun s =>
  let (deadlines, threads) := s.scheduler.deadlines.remove s.threads id
  { scheduler := { s.scheduler with deadlines }, threads }

/-- Moves a thread along the table of transitions. -/
def apply (event : Event) : Prog Error (SchedState n) ThreadState := do
  let thread ← getThread id
  let state ← ofExcept (nextState thread.state event)
  modifyThread id (·.setState state)
  if state = .exited ∧ thread.state ≠ .exited then
    modifySelf fun self => { self with ended := satAdd32 self.ended 1 }
  else pure ()
  if state ≠ .blockedNotification then removeDeadline id else pure ()
  pure state

end

variable (self : Scheduler)

def wakeFromIdle : Outcome := if self.ready = 0 then .nothing else .again

def preemptsCurrent (s : SchedState n) (id : ThreadId) : Outcome :=
  match s.threads.get? id with
  | none => .nothing
  | some thread =>
    match s.scheduler.current with
    | none => .again
    | some current =>
      if some current = s.scheduler.idle then .again
      else match s.threads.get? current with
        | none => .again
        | some running => if running.priority < thread.priority then .again else .nothing

def higherWaits (priority : Nat) : Outcome :=
  match self.highestReady with
  | some highest => if priority < highest then .again else .nothing
  | none => .nothing

section

variable (id : ThreadId)

def leftTheProcessor : Prog Error (SchedState n) Outcome := fun s =>
  if s.scheduler.current = some id then
    (.ok .again, { s with scheduler := { s.scheduler with current := none } })
  else (.ok .nothing, s)

variable (event : Event)

/-- The thread takes an event that makes it ready and goes to the end of its queue. -/
def becomesReady : Prog Error (SchedState n) Outcome := do
  let _ ← apply id event
  enqueue id
  Prog.gets (preemptsCurrent · id)

def start : Prog Error (SchedState n) Outcome := becomesReady id .start

def onWake : Prog Error (SchedState n) Outcome := do
  let thread ← getThread id
  if thread.state = .ready then pure .nothing else becomesReady id .wake

def leavesTheProcessor : Prog Error (SchedState n) Outcome := do
  let _ ← apply id event
  dequeue id
  spendSlice id
  leftTheProcessor id

def onBlock : Prog Error (SchedState n) Outcome := do
  require event.blockedState.isSome .invalidArgument
  leavesTheProcessor id event

def onBlockUntil (deadline : Nat) :
    Prog Error (SchedState n) Outcome := do
  require (event = .blockNotification) .invalidArgument
  let s ← Prog.get
  ofExcept (s.scheduler.deadlines.canInsert s.threads id)
  let outcome ← onBlock id event
  fun s =>
    let (answer, deadlines, threads) := s.scheduler.deadlines.insert s.threads id deadline
    (answer.map fun _ => outcome, { scheduler := { s.scheduler with deadlines }, threads })

def suspend : Prog Error (SchedState n) Outcome := leavesTheProcessor id .suspend

def resume : Prog Error (SchedState n) Outcome := becomesReady id .resume

def fault : Prog Error (SchedState n) Outcome := leavesTheProcessor id .fault

def exit : Prog Error (SchedState n) Outcome := do
  let thread ← getThread id
  if thread.state = .exited then pure .nothing else leavesTheProcessor id .exit

def yieldNow : Prog Error (SchedState n) Outcome := do
  let _ ← apply id .yield
  let _ ← getThread id
  modifyThread id (·.setTimeSlice 0)
  enqueue id
  pure .again

def setPriority (priority : Nat) : Prog Error (SchedState n) Outcome := do
  let thread ← getThread id
  require (priority < priorityCount ∧ priority ≤ thread.maxPriority) .invalidArgument
  let queued := thread.state = .ready
  let moves := thread.priority ≠ priority
  if queued then dequeue id else pure ()
  let _ ← getThread id
  modifyThread id (·.setPriority priority)
  if moves then spendSlice id else pure ()
  if queued then do
    enqueue id
    Prog.gets (preemptsCurrent · id)
  else
    Prog.gets fun s =>
      if s.scheduler.current = some id then s.scheduler.higherWaits priority else .nothing

end

def tick : Prog Error (SchedState n) Outcome := fun s =>
  match s.scheduler.current with
  | none => (.ok s.scheduler.wakeFromIdle, s)
  | some current =>
    if some current = s.scheduler.idle then (.ok s.scheduler.wakeFromIdle, s)
    else match s.threads.get? current with
      | none => (.ok .again, s)
      | some thread =>
        let timeSlice := thread.timeSlice - 1
        (.ok (if timeSlice = 0 then .again else .nothing),
          { s with threads := s.threads.modify current (·.setTimeSlice timeSlice) })

/-- The thread that runs goes back to its queue: to the head with what is left of its slice when a
higher priority displaces it, otherwise to the tail. -/
def requeueCurrent : Prog Error (SchedState n) Unit := do
  let s ← Prog.get
  match s.scheduler.current with
  | none => pure ()
  | some current =>
    match s.threads.get? current with
    | none => pure ()
    | some thread =>
      if thread.state = .running ∧ some current ≠ s.scheduler.idle then do
        let displaced := 0 < thread.timeSlice ∧
          (s.scheduler.highestReady.any fun highest => thread.priority < highest)
        let applied ← attempt (apply current (if displaced then .displaced else .sliceExpired))
        match applied with
        | .ok _ => do
          if displaced then pure () else spendSlice current
          link current (if displaced then .head else .tail)
        | .error _ => pure ()
      else pure ()

def pickNext : Prog Error (SchedState n) ThreadId := do
  requeueCurrent
  let self ← Prog.gets (·.scheduler)
  match self.highestReady with
  | none => do
    let idle ← ofOption self.idle .notRunnable
    modifySelf ({ · with current := some idle })
    pure idle
  | some priority => do
    let id ← ofOption (self.queue priority).head .invalidState
    dequeue id
    let thread ← getThread id
    let state ← ofExcept (nextState thread.state .schedule)
    modifyThread id fun thread => (thread.setState state).setTimeSlice
      (if thread.timeSlice = 0 then defaultTimeSliceTicks else thread.timeSlice)
    modifySelf ({ · with current := some id })
    pure id

def expired (now : Nat) : Prog Error (SchedState n) (Option ThreadId) := fun s =>
  let (id, deadlines, threads) := s.scheduler.deadlines.expired s.threads now
  (.ok id, { scheduler := { s.scheduler with deadlines }, threads })

end Scheduler

end Audhsos
