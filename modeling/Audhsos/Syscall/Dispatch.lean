import Audhsos.Syscall.Device
import Audhsos.Syscall.Memory
import Audhsos.Syscall.Thread

/-!
The table of system calls, the checks every call passes before it runs, and the gate by which a
thread enters the kernel.
-/

namespace Audhsos

open Lib

inductive FirstArgument where
  | nothing
  | any
  | object (type : ObjectType)
deriving DecidableEq, Repr

def FirstArgument.isHandle : FirstArgument → Bool
  | .nothing => false
  | _ => true

inductive Syscall where
  | processCreate
  | processInstallHandle
  | processSetFaultHandler
  | processKill
  | threadCreate
  | threadStart
  | threadSuspend
  | threadResume
  | threadKill
  | threadSetPriority
  | threadInfo
  | threadExit
  | threadYield
  | memorySplit
  | memoryMap
  | memoryUnmap
  | memoryProtect
  | memoryInfo
  | handleDuplicate
  | handleClose
  | endpointCreate
  | endpointBadge
  | ipcCall
  | ipcSend
  | ipcRecv
  | ipcTryRecv
  | ipcReply
  | ipcReplyRecv
  | notificationCreate
  | notificationSignal
  | notificationWait
  | notificationPoll
  | interruptCreate
  | interruptBind
  | interruptAck
  | ioPortCreate
  | ioPortRead
  | ioPortWrite
  | memoryCreateDevice
  | systemInfo
  | debugLog
  | memoryMerge
  | processWatch
  | processUnwatch
  | memoryReferences
  | ioPortWriteString
  | clockNow
  | notificationWaitUntil
  | randomBytes
  | interruptCreateMsi
  | clockWall
deriving DecidableEq, Repr

namespace Syscall

/-- The calls in the order of their numbers, the first of which is one. -/
def all : List Syscall :=
  [.processCreate, .processInstallHandle, .processSetFaultHandler, .processKill, .threadCreate,
    .threadStart, .threadSuspend, .threadResume, .threadKill, .threadSetPriority, .threadInfo,
    .threadExit, .threadYield, .memorySplit, .memoryMap, .memoryUnmap, .memoryProtect,
    .memoryInfo, .handleDuplicate, .handleClose, .endpointCreate, .endpointBadge, .ipcCall,
    .ipcSend, .ipcRecv, .ipcTryRecv, .ipcReply, .ipcReplyRecv, .notificationCreate,
    .notificationSignal, .notificationWait, .notificationPoll, .interruptCreate, .interruptBind,
    .interruptAck, .ioPortCreate, .ioPortRead, .ioPortWrite, .memoryCreateDevice, .systemInfo,
    .debugLog, .memoryMerge, .processWatch, .processUnwatch, .memoryReferences,
    .ioPortWriteString, .clockNow, .notificationWaitUntil, .randomBytes, .interruptCreateMsi,
    .clockWall]

def fromWord (word : Nat) : Except Error Syscall :=
  if word = 0 then .error .unknownSyscall
  else (all[word - 1]?).elim (.error .unknownSyscall) .ok

/-- How many arguments a call takes, and what the first one is. -/
def signature : Syscall → Nat × FirstArgument
  | .processCreate => (5, .object .process)
  | .processInstallHandle => (3, .object .process)
  | .processSetFaultHandler => (2, .object .process)
  | .processKill => (1, .object .process)
  | .threadCreate => (6, .object .process)
  | .threadStart => (1, .object .thread)
  | .threadSuspend => (1, .object .thread)
  | .threadResume => (1, .object .thread)
  | .threadKill => (1, .object .thread)
  | .threadSetPriority => (2, .object .thread)
  | .threadInfo => (1, .object .thread)
  | .threadExit => (0, .nothing)
  | .threadYield => (0, .nothing)
  | .memorySplit => (2, .object .memoryObject)
  | .memoryMap => (6, .object .process)
  | .memoryUnmap => (3, .object .process)
  | .memoryProtect => (4, .object .process)
  | .memoryInfo => (1, .object .memoryObject)
  | .handleDuplicate => (2, .any)
  | .handleClose => (1, .any)
  | .endpointCreate => (0, .nothing)
  | .endpointBadge => (2, .object .endpoint)
  | .ipcCall => (1, .object .endpoint)
  | .ipcSend => (1, .object .endpoint)
  | .ipcRecv => (1, .object .endpoint)
  | .ipcTryRecv => (1, .object .endpoint)
  | .ipcReply => (1, .object .reply)
  | .ipcReplyRecv => (2, .object .reply)
  | .notificationCreate => (0, .nothing)
  | .notificationSignal => (2, .object .notification)
  | .notificationWait => (1, .object .notification)
  | .notificationPoll => (1, .object .notification)
  | .interruptCreate => (2, .object .systemControl)
  | .interruptBind => (3, .object .interrupt)
  | .interruptAck => (1, .object .interrupt)
  | .ioPortCreate => (3, .object .systemControl)
  | .ioPortRead => (3, .object .ioPortRange)
  | .ioPortWrite => (4, .object .ioPortRange)
  | .memoryCreateDevice => (3, .object .systemControl)
  | .systemInfo => (1, .object .systemControl)
  | .debugLog => (0, .nothing)
  | .memoryMerge => (2, .object .memoryObject)
  | .processWatch => (3, .object .process)
  | .processUnwatch => (3, .object .process)
  | .memoryReferences => (1, .object .memoryObject)
  | .ioPortWriteString => (3, .object .ioPortRange)
  | .clockNow => (0, .nothing)
  | .notificationWaitUntil => (2, .object .notification)
  | .randomBytes => (0, .nothing)
  | .interruptCreateMsi => (1, .object .systemControl)
  | .clockWall => (0, .nothing)

def argumentCount (call : Syscall) : Nat := call.signature.1

def firstArgument (call : Syscall) : FirstArgument := call.signature.2

end Syscall

namespace Calls

variable {ε : Type} [Environment ε] {z : Sizes}

/-- The rights that the handle of the first argument must carry. -/
def requiredRights : Syscall → Rights
  | .processCreate | .processSetFaultHandler | .processKill | .threadCreate | .threadStart
  | .threadSuspend | .threadResume | .threadKill | .threadSetPriority | .threadInfo
  | .interruptCreate | .interruptCreateMsi | .interruptBind | .interruptAck | .ioPortCreate
  | .memoryCreateDevice | .systemInfo => .manage
  | .processInstallHandle => .install
  | .memoryMap | .memoryUnmap | .memoryProtect | .memorySplit | .memoryMerge => .map
  | .memoryInfo | .processWatch | .processUnwatch | .memoryReferences => .info
  | .endpointBadge => .badge
  | .ipcSend | .ipcCall => .send
  | .ipcRecv | .ipcTryRecv => .recv
  | .notificationSignal => .signal
  | .notificationWait | .notificationWaitUntil | .notificationPoll => .wait
  | .ioPortRead => .read
  | .ioPortWrite | .ioPortWriteString => .write
  | .handleDuplicate | .handleClose | .ipcReply | .ipcReplyRecv | .threadExit | .threadYield
  | .endpointCreate | .notificationCreate | .clockNow | .clockWall | .randomBytes
  | .debugLog => .empty

/-- The call a buffer asks for. The words above the argument count are zero. -/
def decode (buffer : Buffer) : Except Error (Syscall × Request) := do
  let call ← Syscall.fromWord buffer.syscallNumber
  if (List.range 6).any fun i => call.argumentCount ≤ i && buffer.arguments i ≠ 0 then
    .error .argumentCount
  else if call.firstArgument.isHandle then
    match Handle.fromRaw (buffer.arguments 0) with
    | none => .error .invalidHandle
    | some handle => .ok (call, ⟨buffer.arguments, some handle⟩)
  else .ok (call, ⟨buffer.arguments, none⟩)

/-- The handle of the first argument is one of the caller, of the type the call takes, and carries
the rights the call requires. -/
def checkCapability (process : ProcessId) (call : Syscall) (request : Request) :
    Call ε z Unit := do
  match request.handle with
  | none => pure ()
  | some handle => do
    let entry ← objs (Objects.entry process handle)
    match call.firstArgument with
    | .object expected => Prog.require (entry.object.objectType = expected) .wrongObjectType
    | _ => pure ()
    Prog.require (entry.rights.contains (requiredRights call)) .accessDenied

variable (caller : ThreadId)

def run (process : ProcessId) (call : Syscall) (request : Request) : Call ε z Reply :=
  match call with
  | .processCreate => processCreate process request
  | .processInstallHandle => processInstallHandle process request
  | .processSetFaultHandler => processSetFaultHandler process request
  | .processKill => processKill process request
  | .threadCreate => threadCreate caller process request
  | .threadStart => threadStart process request
  | .threadSuspend => threadSuspend process request
  | .threadResume => threadResume process request
  | .threadKill => threadKill process request
  | .threadSetPriority => threadSetPriority process request
  | .threadInfo => threadInfo process request
  | .threadExit => threadExit caller
  | .threadYield => threadYield caller
  | .memorySplit => memorySplit process request
  | .memoryMap => memoryMap process request
  | .memoryUnmap => memoryUnmap process request
  | .memoryProtect => memoryProtect process request
  | .memoryInfo => memoryInfo process request
  | .handleDuplicate => handleDuplicate process request
  | .handleClose => handleClose process request
  | .endpointCreate => endpointCreate process
  | .endpointBadge => endpointBadge process request
  | .ipcCall => ipcSend caller process request true
  | .ipcSend => ipcSend caller process request false
  | .ipcRecv => ipcReceive caller process request true
  | .ipcTryRecv => ipcReceive caller process request false
  | .ipcReply => ipcReply process request
  | .ipcReplyRecv => ipcReplyRecv caller process request
  | .notificationCreate => notificationCreate process
  | .notificationSignal => notificationSignal process request
  | .notificationWait => notificationWait caller process request
  | .notificationPoll => notificationPoll process request
  | .interruptCreate => interruptCreate process request
  | .interruptBind => interruptBind process request
  | .interruptAck => interruptAck process request
  | .ioPortCreate => ioPortCreate process request
  | .ioPortRead => ioPortRead process request
  | .ioPortWrite => ioPortWrite process request
  | .memoryCreateDevice => memoryCreateDevice process request
  | .systemInfo => systemInfo
  | .debugLog => debugLog
  | .memoryMerge => memoryMerge process request
  | .processWatch => processWatch process request
  | .processUnwatch => processUnwatch process request
  | .memoryReferences => memoryReferences process request
  | .ioPortWriteString => ioPortWriteString process request
  | .clockNow => clockNow
  | .notificationWaitUntil => notificationWaitUntil caller process request
  | .randomBytes => randomBytes
  | .interruptCreateMsi => interruptCreateMsi process
  | .clockWall => clockWall

/-- Decodes the request in the caller's buffer, checks it and runs it. -/
def handle : Call ε z Reply := do
  let thread ← objs (Objects.getThread caller)
  let m ← Prog.get
  let (call, request) ← Prog.ofExcept (decode m.buffer)
  checkCapability thread.process call request
  run caller thread.process call request

/-- What the caller finds in its buffer after a call that did not block it. -/
def writeReply (buffer : Buffer) (result : Except Error Reply) : Buffer :=
  let buffer := buffer.clearResult
  match result with
  | .error error => buffer.setStatus (.failed error)
  | .ok reply =>
    match reply.failure with
    | some error => buffer.setStatus (.failed error)
    | none =>
      let buffer := buffer.setStatus (if reply.partially then .partially else .ok)
      let buffer := buffer.setReturnWords reply.values
      match reply.words with
      | none => buffer
      | some words =>
        let buffer := { buffer with label := 0 }
        let buffer := ((buffer.setCounts words.length 0).toOption).getD buffer
        words.zipIdx.foldl (fun buffer (word, index) => buffer.setWord index word) buffer

/-- Runs the call of a thread and writes its result, unless the call blocked it. -/
def dispatch : Call ε z Outcome := do
  let result ← Prog.attempt (handle caller)
  match result with
  | .ok reply =>
    if reply.blocked then pure reply.outcome
    else do
      Prog.modify fun m => { m with buffer := writeReply m.buffer (.ok reply) }
      pure reply.outcome
  | .error error => do
    Prog.modify fun m => { m with buffer := writeReply m.buffer (.error error) }
    pure .nothing

/-! ## The gate -/

variable (cpu : Nat)

def enter : Call ε z Unit :=
  Prog.modify fun m => { m with scheduler := m.scheduler.select cpu }

variable (thread : ThreadId)

/-- Runs `body` on the buffer of a thread that runs; answers `true`, to choose again, when the
thread does not run or its buffer cannot be reached. -/
def withCaller (body : Call ε z Bool) : Call ε z Bool := do
  let m ← Prog.get
  match m.objects.thread? thread with
  | none => pure true
  | some held =>
    if held.state ≠ .running then pure true
    else match Environment.readBuffer held.ipcBuffer m.environment with
      | .error _ => pure true
      | .ok buffer => do
        Prog.modify ({ · with buffer })
        let again ← body
        let m ← Prog.get
        writeBuffer held.ipcBuffer m.buffer
        pure again

/-- A system call of a thread, and the clearing away of threads that have ended since. -/
def answerCall (cpu : Nat) (caller : ThreadId) : Call ε z Bool := do
  enter cpu
  withCaller caller (do
    let outcome ← dispatch caller
    let _ ← reap (some caller)
    pure outcome.reschedule)

def answerFault (fault : Option Fault) : Call ε z Bool := do
  enter cpu
  withCaller thread (do
    let outcome ← takeFault thread fault
    pure outcome.reschedule)

/-- Writes what a thread that an interrupt or a deadline woke finds, if its buffer is there. -/
def announce (outcome : Option Ipc.Outcome) : Call ε z Unit :=
  match outcome.bind (·.wakeup) with
  | some wakeup => (writeResult wakeup).ignore
  | none => pure ()

/-- The wake of one thread whose deadline has passed. -/
def answerDeadline (now : Nat) : Call ε z Unit := do
  enter cpu
  let outcome ← sys (Ipc.expire now)
  announce outcome

def answerInterrupt (vector : Nat) : Call ε z Unit := do
  enter cpu
  let outcome ← sys (Ipc.deliver vector)
  announce outcome

def answerTick : Call ε z Bool := do
  enter cpu
  let outcome ← sys (sched Processors.tick)
  pure outcome.reschedule

def chooseNext : Call ε z ThreadId := do
  enter cpu
  sys (sched Processors.pickNext)

def sweep (running : Option ThreadId) : Call ε z Nat := do
  enter cpu
  reap running

end Calls

end Audhsos
