import Audhsos.Ipc.Endpoint
import Audhsos.Syscall.Process

/-!
The calls on endpoints, replies and notifications, and the message a fault sends.
-/

namespace Audhsos.Calls

open Lib Ipc Prog Objects

variable {ε : Type} [Environment ε] {z : Sizes} (process : ProcessId)

/-- A new object in a pool, charged to `process`, with a handle that carries `rights`. -/
def createObject {type : ObjectType} (rights : Rights)
    (allocate : Store z (ObjectId type)) (takeBack : ObjectId type → Call ε z Unit) :
    Call ε z Handle := do
  let id ← (objs allocate).orUndo (refundObject process)
  (objs (installHandle process ⟨.of id, rights, 0⟩)).orUndo (do
    takeBack id
    refundObject process)

/-! ## Endpoints -/

def badgedRights : Rights := (Rights.send.union .duplicate).union .transfer

def endpointRights : Rights :=
  (((Rights.send.union .recv).union .badge).union .duplicate).union .transfer

def endpointCreate : Call ε z Reply := do
  chargeObject process
  let handle ← createObject process endpointRights (onEndpoints (Pool.allocate .new))
    fun id => (objs (onEndpoints (Pool.release id))).ignore
  pure (.value handle.raw)

variable (request : Request)

def endpointBadge : Call ε z Reply := do
  let (id, _) ← objectOf .endpoint process request .badge
  let badge := request.argument 1
  require (badge ≠ 0) .invalidArgument
  let badged ← objs (installHandle process ⟨.of id, badgedRights, badge⟩)
  objs (retain (.of id))
  pure (.value badged.raw)

/-! ## Sending -/

def checkHeader (buffer : Buffer) : Except Error Unit := do
  let message ← buffer.message
  if message.isKernelLabel then .error .invalidArgument else .ok ()

def statusOf (truncated : Bool) : Status := if truncated then .partially else .ok

variable (frame : PhysFrame) (sender receiver : ProcessId)

/-- Runs a transfer into a buffer, and answers what the buffer is then, an error included. -/
def moving {α : Type} (call : Prog Error (Ipc.Moving z) α) (target : Buffer) :
    Call ε z (Except Error α × Buffer) :=
  objs fun o => (.ok ((call ⟨target, o⟩).1, (call ⟨target, o⟩).2.target), (call ⟨target, o⟩).2.objects)

def transferInto (kernelMessage : Bool) :
    Call ε z (Except Error Ipc.Transferred) := do
  let target ← readBuffer frame
  let m ← Prog.get
  let (moved, target) ← moving (transfer m.buffer sender receiver kernelMessage) target
  writeBuffer frame target
  pure moved

def transferFrom :
    Call ε z (Except Error Ipc.Transferred) := do
  let source ← readBuffer frame
  let m ← Prog.get
  let (moved, buffer) ← moving (transfer source sender receiver false) m.buffer
  Prog.modify ({ · with buffer })
  pure moved

/-- A reply object for `caller`, when its message wants one. -/
def openWanted (wantsReply : Bool) (caller : ThreadId) (receiver : ProcessId) :
    Store z (Option (ReplyId × Handle)) :=
  if wantsReply then do
    let opened ← openReply caller receiver
    pure (some opened)
  else pure none

variable (opened : Option (ReplyId × Handle))

def closeOpened (receiver : ProcessId) : Store z Unit :=
  match opened with
  | some (reply, handle) => closeReply reply receiver handle
  | none => pure ()

def handoverOf (badge : Nat) (moved : Ipc.Transferred) :
    Ipc.Handover where
  reply := opened.map (·.1)
  received := (badge, (opened.map (·.2.raw)).getD 0)
  status := statusOf moved.truncated

/-- Sends the message in the caller's buffer, or queues the sender. -/
def deliver (sender : ThreadId) (senderProcess : ProcessId) (endpoint : EndpointId)
    (intent : Ipc.Intent) : Call ε z Reply := do
  let met ← sys (send sender endpoint intent)
  match met with
  | .queued _ => pure .ofBlocked
  | .receiver receiver => do
    let held ← objs (getThread receiver)
    let senderFrame ← frameOf sender
    let undo : Call ε z Unit := objs (undoMeeting endpoint receiver .receivers 0 false)
    (require (held.ipcBuffer ≠ senderFrame) .invalidArgument).orUndo undo
    let opened ← (objs (openWanted intent.wantsReply sender held.process)).orUndo undo
    let moved ← transferInto held.ipcBuffer senderProcess held.process intent.kernelMessage
    let moved ← (ofExcept moved).orUndo (do
      objs (closeOpened opened held.process)
      undo)
    let outcome ← sys (sent sender receiver (handoverOf opened intent.badge moved))
    apply outcome

variable (caller : ThreadId)

def ipcSend (process : ProcessId) (request : Request) (wantsReply : Bool) :
    Call ε z Reply := do
  let handle ← handleOf request
  let entry ← objs (entry process handle)
  let endpoint ← ofExcept (entry.object.typed .endpoint)
  let m ← Prog.get
  ofExcept (checkHeader m.buffer)
  deliver caller process endpoint ⟨wantsReply, entry.badge, false⟩

/-! ## Receiving -/

def refusal (error : Error) (switch : Bool) : Reply := (Reply.failed error).switching switch

inductive TakenMessage where
  | message (outcome : Ipc.Outcome)
  | refused (error : Error)
deriving DecidableEq, Repr

def faultLabel (kind : FaultKind) : Nat := (kernelLabelBase + kind.code) % u64Size

def faultMessage (buffer : Buffer) (fault : Fault) : Buffer :=
  let buffer := { buffer with label := faultLabel fault.kind, wordCount := 3, handleCount := 0 }
  ((buffer.setWord 0 fault.address).setWord 1 fault.instructionPointer).setWord 2 fault.errorCode

/-- The copy of a queued message: that of the kernel is built again from the fault. -/
def moveQueued (sender : ThreadId) (held : Thread) (process : ProcessId) (kernelMessage : Bool) :
    Call ε z (Except Error Ipc.Transferred) :=
  if kernelMessage then do
    let held ← objs (getThread sender)
    match held.fault with
    | some fault => do
      Prog.modify fun m => { m with buffer := faultMessage m.buffer fault }
      pure (.ok ⟨3, 0, false⟩)
    | none => pure (.error .invalidArgument)
  else transferFrom held.ipcBuffer held.process process

/-- Takes the message of a sender that has left its queue. -/
def takeMessage (process : ProcessId) (endpoint : EndpointId)
    (sender : ThreadId) (intent : Ipc.Intent) : Call ε z TakenMessage := do
  let queue := if intent.wantsReply then Queue.callers else .senders
  let held ← objs (getThread sender)
  let ownFrame ← frameOf caller
  let undo : Call ε z Unit :=
    objs (undoMeeting endpoint sender queue intent.badge intent.kernelMessage)
  (require (held.ipcBuffer ≠ ownFrame) .invalidArgument).orUndo undo
  let opened ← (objs (openWanted intent.wantsReply sender process)).orUndo undo
  let moved ← moveQueued sender held process intent.kernelMessage
  match moved with
  | .error error => do
    objs (closeOpened opened process)
    pure (.refused error)
  | .ok moved => do
    let outcome ← sys (received sender (handoverOf opened intent.badge moved))
    pure (.message outcome)

/-- The loop of `recv`. Every turn takes a sender out of the queue for good. -/
def recvLoop (caller : ThreadId) (process : ProcessId) (endpoint : EndpointId) (blocking : Bool) :
    Nat → Bool → Call ε z Reply
  | 0, switch => pure (refusal .wouldBlock switch)
  | fuel + 1, switch => do
    let found ← sys (recv caller endpoint blocking)
    match found with
    | .empty => pure (refusal .wouldBlock switch)
    | .queued _ => pure .ofBlocked
    | .sender sender wantsReply badge kernelMessage => do
      let taken ← attempt
        (takeMessage caller process endpoint sender ⟨wantsReply, badge, kernelMessage⟩)
      match taken with
      | .error error => pure (refusal error switch)
      | .ok (.message outcome) => do
        let reply ← apply outcome
        pure (reply.switching switch)
      | .ok (.refused error) => do
        let outcome ← sys (refuse sender error)
        let _ ← apply outcome
        recvLoop caller process endpoint blocking fuel (switch || outcome.reschedule)

/-- Receives a message; as many senders as wait can be refused before one is received. -/
def recv (process : ProcessId) (endpoint : EndpointId) (blocking : Bool) :
    Call ε z Reply := do
  let m ← Prog.get
  let waiting := ((m.objects.endpoint? endpoint).map (·.senders.len)).getD 0
  recvLoop caller process endpoint blocking (waiting + 2) false

def ipcReceive (process : ProcessId) (request : Request) (blocking : Bool) :
    Call ε z Reply := do
  let (endpoint, _) ← objectOf .endpoint process request .recv
  recv caller process endpoint blocking

/-! ## Replying -/

/-- Moves the answer to the caller of a reply object and wakes it. -/
def answer (id : ReplyId) : Call ε z Ipc.Outcome := do
  let m ← Prog.get
  let target ← ofExcept (replyCaller m.objects id)
  ofExcept (checkHeader m.buffer)
  let held ← objs (getThread target)
  let moved ← transferInto held.ipcBuffer process held.process false
  let moved ← ofExcept moved
  sys (replied id (statusOf moved.truncated))

def ipcReply : Call ε z Reply := do
  let handle ← handleOf request
  let (id, _) ← objs (resolve .reply process handle .empty)
  let outcome ← answer process id
  let switched ← consume process handle
  apply { outcome with reschedule := outcome.reschedule || switched }

def ipcReplyRecv (process : ProcessId) (request : Request) :
    Call ε z Reply := do
  let handle ← handleOf request
  let (id, _) ← objs (resolve .reply process handle .empty)
  let second ← handleAt request 1
  let (endpoint, _) ← objs (resolve .endpoint process second .recv)
  let answered ← answer process id
  match answered.wakeup with
  | some wakeup => writeResult wakeup
  | none => pure ()
  let switched ← consume process handle
  let reply ← recv caller process endpoint true
  pure (reply.switching (answered.reschedule || switched))

/-! ## Notifications -/

def notificationRights : Rights :=
  (((Rights.signal.union .wait).union .bind).union .duplicate).union .transfer

def notificationCreate : Call ε z Reply := do
  chargeObject process
  let handle ← createObject process notificationRights
    (onNotifications (Pool.allocate .new))
    fun id => (objs (onNotifications (Pool.release id))).ignore
  pure (.value handle.raw)

def notificationOf (required : Rights) :
    Call ε z NotificationId := do
  let (id, _) ← objectOf .notification process request required
  pure id

def notificationSignal : Call ε z Reply := do
  let id ← notificationOf process request .signal
  let outcome ← sys (signal id (request.argument 1))
  apply outcome

def notificationWait (process : ProcessId) (request : Request) :
    Call ε z Reply := do
  let id ← notificationOf process request .wait
  let outcome ← sys (wait caller id)
  apply outcome

def notificationWaitUntil (process : ProcessId) (request : Request) :
    Call ε z Reply := do
  let id ← notificationOf process request .wait
  let m ← Prog.get
  let outcome ← sys
    (waitUntil caller id (request.argument 1) (Environment.nowMicros m.environment))
  apply outcome

def notificationPoll : Call ε z Reply := do
  let id ← notificationOf process request .wait
  let outcome ← objs (poll id)
  apply outcome

/-! ## Faults -/

/-- The handler of the faults of a thread, if it has one that is still there. -/
def handlerOf (o : Objects z) (thread : ThreadId) : Option (ProcessId × EndpointId × Nat) := do
  let held ← o.thread? thread
  let holder ← o.process? held.process
  let (handler, badge) ← holder.faultHandler
  let _ ← o.endpoint? handler
  pure (held.process, handler, badge)

variable (thread : ThreadId)

def stop : Call ε z Outcome := do
  let outcome ← attempt (sys (sched (Processors.fault thread)))
  pure (outcome.toOption.getD .nothing)

def bytesOf (text : String) : List Nat := text.toList.map Char.toNat

def hexadecimal (value : Nat) : List Nat :=
  bytesOf "0x" ++ (Nat.toDigits 16 value).map Char.toNat

variable (fault : Fault)

/-- The line the kernel logs of a fault that nobody takes, as far as its buffer holds it. -/
def sayUnreported : List Nat :=
  (bytesOf "[kernel] a fault reached no handler: " ++ bytesOf fault.kind.name ++ bytesOf " at " ++
    hexadecimal fault.address ++ bytesOf " from " ++ hexadecimal fault.instructionPointer ++
    bytesOf "\n").take 104

def unreported : Call ε z Outcome := do
  envDo (Environment.log (sayUnreported fault))
  stop thread

/-- Sends a fault to the handler of its process, and stops the thread when nobody takes it. -/
def deliverFault : Call ε z Outcome := do
  objs (withThread thread ({ · with fault := some fault }))
  let m ← Prog.get
  match handlerOf m.objects thread with
  | none => unreported thread fault
  | some (process, handler, badge) => do
    Prog.modify fun m => { m with buffer := faultMessage m.buffer fault }
    let outcome ← attempt (deliver thread process handler (.kernelCall badge))
    match outcome with
    | .ok reply => pure reply.outcome
    | .error _ => unreported thread fault

def takeFault (fault : Option Fault) : Call ε z Outcome :=
  match fault with
  | some fault => deliverFault thread fault
  | none => stop thread

end Audhsos.Calls
