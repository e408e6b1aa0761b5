import Audhsos.Syscall.Process

/-!
The calls on threads. A thread that is created charges one object to its process, takes a kernel
stack and the page of its IPC buffer; what it held goes back when it is cleared away.
-/

namespace Audhsos.Calls

open Lib Objects Prog Environment Calls.Reply Processors

variable {ε : Type} [Environment ε] {z : Sizes}

/-! ## Creating a thread -/

def userAddress (value : Nat) : Except Error Nat :=
  if ¬ isCanonical value then .error .invalidArgument
  else if userSpaceEnd ≤ value ∨ value < userSpaceStart then .error .invalidArgument
  else .ok value

/-- The page that the caller supplies for the buffer, if it supplies one. -/
def suppliedBuffer (caller : ProcessId) (argument : Nat) :
    Call ε z (Option (MemoryObjectId × PhysFrame)) :=
  if argument = 0 then pure none
  else do
    let handle ← ofOption (Handle.fromRaw argument) .invalidHandle
    let (id, _) ← objs (resolve .memoryObject caller handle .map)
    let object ← objs (getMemory id)
    require (object.kind = .ram ∧ object.frames.count = 1) .invalidArgument
    pure (some (id, object.frames.start))

def takeBuffer : Option (MemoryObjectId × PhysFrame) → Call ε z PhysFrame
  | some (id, frame) => do
    objs (onMemory (Pool.retain id))
    pure frame
  | none => env allocateFrame

def giveBufferBack (supplied : Option (MemoryObjectId × PhysFrame)) (frame : PhysFrame) :
    Call ε z Unit :=
  match supplied with
  | some (id, _) => (objs (onMemory (Pool.release id))).ignore
  | none => envDo (releaseFrame frame)

/-- The page of the buffer of the thread in `slot`. -/
def ipcPage (slot : Nat) : Option Page := (ipcBufferAddress slot).bind pageFromStart

def bufferPermissions : Permissions := Permissions.forUser ⟨true, false, false⟩

variable (process : ProcessId)

def mapBuffer (slot : Nat) (frame : PhysFrame) : Call ε z Nat := do
  let page ← ofOption (ipcPage slot) .quotaExceeded
  let holder ← objs (getProcess process)
  env (map holder.root page frame bufferPermissions .writeBack)
  pure page.start

/-- Takes a thread that was just created back, which may be the end of its process. -/
def forgetThread (id : ThreadId) : Call ε z Unit := do
  objs (withProcess process (·.removeThread id))
  objs (forceReleaseThread id)
  (threadLeft process).ignore

def threadRights : Rights := (Rights.manage.union .duplicate).union .transfer

def installThread (thread : ThreadId) : Call ε z Nat := do
  let handle ← objs (installHandle process ⟨.of thread, threadRights, 0⟩)
  objs (retain (.of thread))
  pure handle.raw

def assignHome : Call ε z Nat := fun m =>
  let (cpu, scheduler) := m.scheduler.assign
  (.ok cpu, { m with scheduler })

variable (target : ProcessId)

def recordThread (id : ThreadId) : Call ε z Nat := do
  let holder ← objs (getProcess target)
  let (slot, holder) ← ofExcept (holder.addThread id)
  objs (withProcess target fun _ => holder)
  pure slot

/-- Gives the buffer, the stack and the charge of a thread back. -/
def giveThreadBack (supplied : Option (MemoryObjectId × PhysFrame))
    (frame : PhysFrame) (stack : KernelStack) : Call ε z Unit := do
  giveBufferBack supplied frame
  envDo (releaseKernelStack stack.slot)
  refundObject target

variable (caller : ThreadId)

def threadCreate (process : ProcessId) (request : Request) :
    Call ε z Reply := do
  let target ← processOf process request
  let entry ← ofExcept (userAddress (request.argument 1))
  let stack ← ofExcept (userAddress (request.argument 2))
  let priority ← narrow 8 (request.argument 3)
  let maxPriority ← narrow 8 (request.argument 4)
  let supplied ← suppliedBuffer process (request.argument 5)
  require (maxPriority < priorityCount ∧ priority ≤ maxPriority) .invalidArgument
  let creator ← objs (getThread caller)
  require (maxPriority ≤ creator.maxPriority) .invalidArgument
  chargeObject target
  let area ← (env allocateKernelStack).orUndo (refundObject target)
  let ipcBuffer ← (takeBuffer supplied).orUndo (do
    envDo (releaseKernelStack area.slot)
    refundObject target)
  let thread ← ofExcept (Thread.new target priority maxPriority area.slot ipcBuffer)
  let cpu ← assignHome
  let thread := thread.onProcessor cpu
  let thread := supplied.elim thread fun (object, _) => thread.withBufferObject object
  let giveBack := giveThreadBack target supplied ipcBuffer area
  let id ← (objs (onThreads (Pool.allocate thread))).orUndo giveBack
  let slot ← (recordThread target id).orUndo (do
    objs (forceReleaseThread id)
    giveBack)
  let ipcAddress ← (mapBuffer target slot ipcBuffer).orUndo (do
    forgetThread target id
    giveBack)
  objs (withThread id (·.startingAt entry stack ipcAddress))
  let takeBack : Call ε z Unit := do
    unmapBuffer target ipcAddress
    forgetThread target id
    giveBack
  let _ ← (env (prepareThread area.top entry stack ipcAddress)).orUndo takeBack
  let handle ← (installThread process id).orUndo takeBack
  pure (.value handle)

/-! ## The states of a thread -/

/-- Answers what a call of the scheduler says about the processor. -/
def afterSched (m : Prog Error (ProcState z.threads) Outcome) : Call ε z Reply := do
  let outcome ← sys (sched m)
  pure (done.after outcome)

section

variable (process : ProcessId) (request : Request)

def threadStart : Call ε z Reply := do
  let id ← threadOf process request
  afterSched (start id)

def threadSuspend : Call ε z Reply := do
  let id ← threadOf process request
  let thread ← objs (getThread id)
  let waiting ← if Ipc.isBlocked thread.state then objs (Ipc.cancel id) else pure false
  let outcome ← sys (sched (suspend id))
  if waiting then writeResult (.failed id .cancelled) else pure ()
  pure (done.after outcome)

def threadResume : Call ε z Reply := do
  let id ← threadOf process request
  afterSched (resume id)

end

/-- Ends a thread. The last thread of a process is the end of the process. -/
def endThread (id : ThreadId) : Call ε z Outcome := do
  let _ ← objs (Ipc.cancel id)
  let outcome ← sys (sched (exit id))
  let thread ← objs (getThread id)
  objs (withProcess thread.process fun holder =>
    let holder := holder.removeThread id
    { holder with kernelObjectQuota := holder.kernelObjectQuota.refund 1 })
  let switch ← threadLeft thread.process
  pure (if switch then .again else outcome)

def threadKill (process : ProcessId) (request : Request) : Call ε z Reply := do
  let id ← threadOf process request
  let outcome ← endThread id
  pure (done.after outcome)

def threadExit : Call ε z Reply := do
  let outcome ← endThread caller
  pure (done.after outcome)

def threadSetPriority (process : ProcessId) (request : Request) : Call ε z Reply := do
  let id ← threadOf process request
  let priority ← narrow 8 (request.argument 1)
  afterSched (setPriority id priority)

def threadInfo (process : ProcessId) (request : Request) : Call ε z Reply := do
  let id ← threadOf process request
  let thread ← objs (getThread id)
  let state := thread.state.code
  match thread.fault with
  | none => pure ((ofValues state 0).withWords [])
  | some fault =>
    pure ((ofValues state fault.kind.code).withWords
      [fault.address, fault.instructionPointer, fault.errorCode])

def threadYield : Call ε z Reply := afterSched (yieldNow caller)

end Audhsos.Calls
