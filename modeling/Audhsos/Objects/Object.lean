import Mathlib.Tactic.Simps.Basic
import Audhsos.Memory.Region
import Audhsos.Objects.HandleTable
import Audhsos.Objects.PoolSpec

/-!
The kernel objects that live in pools, and the quota they are charged to.
-/

namespace Audhsos

open Lib

/-! ## Quotas -/

structure Quota where
  limit : Nat
  used : Nat
deriving DecidableEq, Repr

namespace Quota

def new (limit : Nat) : Quota := ⟨limit, 0⟩

/-- The quota after charging `amount`, or `none` if it does not fit. -/
def charge (quota : Quota) (amount : Nat) : Option Quota :=
  if quota.used + amount < u32Size ∧ quota.used + amount ≤ quota.limit then
    some { quota with used := quota.used + amount }
  else none

def refund (quota : Quota) (amount : Nat) : Quota := { quota with used := quota.used - amount }

end Quota

/-! ## Memory -/

inductive MemoryKind where
  | ram
  | device
deriving DecidableEq, Repr

structure MemoryObject where
  frames : PhysFrameRange
  kind : MemoryKind
  cache : CachePolicy
deriving DecidableEq

/-! ## Processes -/

/-- Whom the end of a process is told to, and by which bit. -/
structure Watch where
  notification : NotificationId
  bit : Nat
deriving DecidableEq, Repr

/-- Writes `value` to the first slot that is free, answering its position. -/
def fillFirst {α : Type} (slots : List (Option α)) (value : α) : Option (Nat × List (Option α)) :=
  (slots.findIdx? (·.isNone)).map fun index => (index, slots.set index (some value))

structure Process where
  root : PhysFrame
  regions : RegionTable MemoryObjectId regionsPerProcess
  handles : HandleList
  threads : List (Option ThreadId)
  quota : Quota
  kernelObjectQuota : Quota
  faultHandler : Option (EndpointId × Nat)
  creator : Option ProcessId
  watchers : List (Option Watch)
  ended : Bool

namespace Process

def new (root : PhysFrame) (handles : HandleList) (quota kernelObjectQuota : Quota) : Process where
  root := root
  regions := .new
  handles := handles
  threads := List.replicate threadsPerProcess none
  quota := quota
  kernelObjectQuota := kernelObjectQuota
  faultHandler := none
  creator := none
  watchers := List.replicate watchersPerProcess none
  ended := false

section

variable (process : Process)

def addWatcher (watch : Watch) : Except Error Process :=
  if some watch ∈ process.watchers then .error .alreadyExists
  else (fillFirst process.watchers watch).elim (.error .quotaExceeded) fun (_, watchers) =>
    .ok { process with watchers }

def removeWatcher (watch : Watch) : Process :=
  { process with
    watchers := process.watchers.map fun slot => if slot = some watch then none else slot }

variable (thread : ThreadId)

/-- Records a thread in the first free slot and answers its position. -/
def addThread : Except Error (Nat × Process) :=
  (fillFirst process.threads thread).elim (.error .quotaExceeded) fun (index, threads) =>
    .ok (index, { process with threads })

def removeThread : Process :=
  match process.threads.findIdx? (· = some thread) with
  | none => process
  | some index => { process with threads := process.threads.set index none }

def threadList : List ThreadId := process.threads.filterMap id

def watcherList : List Watch := process.watchers.filterMap id

end

end Process

/-! ## Threads -/

structure Links where
  next : Option ThreadId
  previous : Option ThreadId
deriving DecidableEq, Repr

namespace Links

def unlinked : Links := ⟨none, none⟩

def isUnlinked (links : Links) : Bool := links.next.isNone && links.previous.isNone

end Links

inductive FaultKind where
  | pageFault
  | generalProtection
  | invalidOpcode
  | divideError
  | breakpoint
  | alignmentCheck
deriving DecidableEq, Repr

def FaultKind.code (kind : FaultKind) : Nat := kind.ctorIdx + 1

def FaultKind.name : FaultKind → String
  | .pageFault => "PageFault"
  | .generalProtection => "GeneralProtection"
  | .invalidOpcode => "InvalidOpcode"
  | .divideError => "DivideError"
  | .breakpoint => "Breakpoint"
  | .alignmentCheck => "AlignmentCheck"

structure Fault where
  kind : FaultKind
  address : Nat
  instructionPointer : Nat
  errorCode : Nat
deriving DecidableEq, Repr

/-- Which queue of an endpoint a thread waits on, and whether it wants an answer. -/
inductive Queue where
  | senders
  | callers
  | receivers
deriving DecidableEq, Repr

def Queue.isSender : Queue → Bool
  | .senders | .callers => true
  | .receivers => false

def Queue.wantsReply : Queue → Bool
  | .callers => true
  | _ => false

inductive Wait where
  | nothing
  | endpoint (endpoint : EndpointId) (queue : Queue) (badge : Nat) (kernelMessage : Bool)
  | reply (reply : ReplyId)
  | notification (notification : NotificationId)
deriving DecidableEq, Repr

structure Thread where
  cpu : Nat
  process : ProcessId
  state : ThreadState
  priority : Nat
  maxPriority : Nat
  timeSlice : Nat
  kernelStack : Nat
  ipcBuffer : PhysFrame
  bufferObject : Option MemoryObjectId
  ipcAddress : Nat
  entry : Nat
  userStack : Nat
  queueLinks : Links
  waitLinks : Links
  wait : Wait
  deadline : Option Nat
  deadlineIndex : Option Nat
  fault : Option Fault
deriving DecidableEq

namespace Thread

def new (process : ProcessId) (priority maxPriority kernelStack : Nat) (ipcBuffer : PhysFrame) :
    Except Error Thread :=
  if priorityCount ≤ maxPriority ∨ maxPriority < priority then .error .invalidArgument
  else .ok
    { cpu := 0, process, state := .inactive, priority, maxPriority, timeSlice := 0, kernelStack,
      ipcBuffer, bufferObject := none, ipcAddress := 0, entry := 0, userStack := 0,
      queueLinks := .unlinked, waitLinks := .unlinked, wait := .nothing, deadline := none,
      deadlineIndex := none, fault := none }

variable (thread : Thread)

def onProcessor (cpu : Nat) : Thread := { thread with cpu }

def withBufferObject (object : MemoryObjectId) : Thread :=
  { thread with bufferObject := some object }

def startingAt (entry userStack ipcAddress : Nat) : Thread :=
  { thread with ipcAddress, entry, userStack }

end Thread

/-! Writes to single fields, under a name so that terms stay small. -/

namespace Thread

variable (thread : Thread)

@[simps] def setState (state : ThreadState) : Thread := { thread with state }

@[simps] def setQueueLinks (queueLinks : Links) : Thread :=
  { thread with queueLinks }

@[simps] def setPriority (priority : Nat) : Thread := { thread with priority }

@[simps] def setTimeSlice (timeSlice : Nat) : Thread := { thread with timeSlice }

@[simps] def setDeadline (deadline deadlineIndex : Option Nat) : Thread :=
  { thread with deadline, deadlineIndex }

@[simps] def setWait (wait : Wait) : Thread := { thread with wait }

@[simps] def setWaitLinks (waitLinks : Links) : Thread :=
  { thread with waitLinks }

end Thread

/-! ## Communication -/

structure WaitQueue where
  head : Option ThreadId
  tail : Option ThreadId
  len : Nat
deriving DecidableEq, Repr

def WaitQueue.empty : WaitQueue := ⟨none, none, 0⟩

structure Endpoint where
  senders : WaitQueue
  receivers : WaitQueue
deriving DecidableEq, Repr

def Endpoint.new : Endpoint := ⟨.empty, .empty⟩

structure Reply where
  caller : ThreadId
  consumed : Bool
deriving DecidableEq, Repr

def Reply.new (caller : ThreadId) : Reply := ⟨caller, false⟩

structure Notification where
  word : Nat
  waiter : Option ThreadId
deriving DecidableEq, Repr

def Notification.new : Notification := ⟨0, none⟩

structure Interrupt where
  line : Option Nat
  vector : Nat
  notification : Option (NotificationId × Nat)
  masked : Bool
deriving DecidableEq, Repr

def Interrupt.new (line vector : Nat) : Interrupt := ⟨some line, vector, none, false⟩

/-- The interrupt of a message, which has no line. -/
def Interrupt.message (vector : Nat) : Interrupt := ⟨none, vector, none, false⟩

structure IoPortRange where
  first : Nat
  count : Nat
deriving DecidableEq, Repr

namespace IoPortRange

def new (first count : Nat) : Except Error IoPortRange :=
  if count = 0 then .error .invalidArgument
  else if first + (count - 1) < 2 ^ 16 then .ok ⟨first, count⟩
  else .error .invalidArgument

variable (range : IoPortRange)

def last : Nat := (range.first + (range.count - 1)) % 2 ^ 16

def contains (port : Nat) : Bool := range.first ≤ port && port ≤ range.last

/-- An access of `width` bytes at `port` stays inside the range. -/
def holds (port width : Nat) : Bool :=
  range.contains port && decide (port + (width - 1) < 2 ^ 16) && port + (width - 1) ≤ range.last

def overlaps (a b : IoPortRange) : Bool := a.first ≤ b.last && b.first ≤ a.last

end IoPortRange

end Audhsos
