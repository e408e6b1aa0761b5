import Audhsos.Ipc.Outcome

/-!
The rendezvous on an endpoint. Every operation is two steps, with the message moved in between: the
first finds the peer or queues the caller, the second says what becomes of the two threads.
-/

namespace Audhsos.Ipc

open Lib Objects WaitQueue Prog Ipc.Outcome

variable {z : Sizes}

inductive Meeting where
  | receiver (receiver : ThreadId)
  | queued (outcome : Outcome)
deriving DecidableEq, Repr

inductive Reception where
  | sender (sender : ThreadId) (wantsReply : Bool) (badge : Nat) (kernelMessage : Bool)
  | queued (outcome : Outcome)
  | empty
deriving DecidableEq, Repr

structure Intent where
  wantsReply : Bool
  badge : Nat
  kernelMessage : Bool
deriving DecidableEq, Repr

namespace Intent

variable (badge : Nat)

def badged : Intent := ⟨false, badge, false⟩

def call : Intent := ⟨true, badge, false⟩

def kernelCall : Intent := ⟨true, badge, true⟩

end Intent

structure Handover where
  reply : Option ReplyId
  received : Nat × Nat
  status : Status
deriving DecidableEq, Repr

def getEndpoint (id : EndpointId) : Store z Endpoint := fun o =>
  ((o.endpoint? id).elim (.error .invalidHandle) .ok, o)

variable (endpoint : EndpointId)

def writeBack (held : Endpoint) : Store z Unit :=
  withEndpoint endpoint fun _ => held

variable (sender : ThreadId)

/-- Finds a receiver for `sender`, or queues the sender. -/
def send (endpoint : EndpointId) (intent : Intent) : Sys z Meeting := do
  let held ← store (getEndpoint endpoint)
  let (receiver, receivers) ← store (onQueue held.receivers dequeueFront)
  let held := { held with receivers }
  match receiver.toOption.join with
  | some receiver => do
    store (forget receiver)
    store (writeBack endpoint held)
    pure (.receiver receiver)
  | none => do
    let queue := if intent.wantsReply then Queue.callers else .senders
    let (queued, senders) ← store (onQueue held.senders (enqueue sender))
    ofExcept queued
    store (record sender (.endpoint endpoint queue intent.badge intent.kernelMessage))
    let blocked ← attempt (block sender .blockSend)
    match blocked with
    | .ok reschedule => do
      store (writeBack endpoint { held with senders })
      pure (.queued (ofBlocked.switching reschedule))
    | .error error => do
      let _ ← store (onQueue senders (unlink sender))
      store (record sender .nothing)
      Prog.throw error

/-- What the record of a queued sender says about its message. -/
def queuedIntent (o : Objects z) (sender : ThreadId) : Intent :=
  match (o.thread? sender).map (·.wait) with
  | some (Wait.endpoint _ queue badge kernelMessage) => ⟨queue.wantsReply, badge, kernelMessage⟩
  | _ => ⟨false, 0, false⟩

/-- Finds a sender for `receiver`, or queues the receiver if it may block. -/
def recv (receiver : ThreadId) (endpoint : EndpointId) (blocking : Bool) : Sys z Reception := do
  let held ← store (getEndpoint endpoint)
  let (sender, senders) ← store (onQueue held.senders dequeueFront)
  let held := { held with senders }
  match sender.toOption.join with
  | some sender => do
    let intent ← Prog.gets fun s => queuedIntent s.objects sender
    store (writeBack endpoint held)
    pure (.sender sender intent.wantsReply intent.badge intent.kernelMessage)
  | none =>
    if ¬ blocking then pure .empty
    else do
      let (queued, receivers) ← store (onQueue held.receivers (enqueue receiver))
      ofExcept queued
      store (record receiver (.endpoint endpoint .receivers 0 false))
      let blocked ← attempt (block receiver .blockRecv)
      match blocked with
      | .ok reschedule => do
        store (writeBack endpoint { held with receivers })
        pure (.queued (ofBlocked.switching reschedule))
      | .error error => do
        let _ ← store (onQueue receivers (unlink receiver))
        store (record receiver .nothing)
        Prog.throw error

/-- Closes a rendezvous the sender began: the receiver wakes, and the sender blocks for the answer
when there is a reply object. -/
def sent (sender receiver : ThreadId) (handover : Handover) : Sys z Outcome := do
  let woken ← wake receiver
  let wakeup := ⟨receiver, handover.status, handover.received⟩
  match handover.reply with
  | some reply => do
    store (record sender (.reply reply))
    let reschedule ← block sender .blockReply
    pure ((ofBlocked.switching reschedule).waking wakeup)
  | none => pure ((done.switching (woken.getD false)).waking wakeup)

/-- Closes a rendezvous the receiver began: the sender wakes, or stays blocked for the answer. -/
def received (handover : Handover) : Sys z Outcome := do
  let mine := (ofValues handover.received.1 handover.received.2).withStatus handover.status
  match handover.reply with
  | some reply => do
    store (record sender (.reply reply))
    let _ ← block sender .blockReply
    pure mine
  | none => do
    store (forget sender)
    let woken ← wake sender
    pure ((mine.waking (.ok sender (0, 0))).switching (woken.getD false))

/-- Wakes a queued sender whose message was refused. -/
def refuse (error : Error) : Sys z Outcome := do
  store (forget sender)
  let woken ← wake sender
  pure ((done.waking (.failed sender error)).switching (woken.getD false))

/-- Puts a peer back into the queue it was taken from. -/
def undoMeeting (peer : ThreadId) (queue : Queue) (badge : Nat)
    (kernelMessage : Bool) : Store z Unit := do
  let o ← Prog.get
  match o.endpoint? endpoint with
  | none => pure ()
  | some held => do
    forget peer
    if queue.isSender then do
      let (_, senders) ← onQueue held.senders (requeue peer)
      withEndpoint endpoint ({ · with senders })
    else do
      let (_, receivers) ← onQueue held.receivers (requeue peer)
      withEndpoint endpoint ({ · with receivers })
    record peer (.endpoint endpoint queue badge kernelMessage)

/-! ## Replies -/

/-- A reply object for `caller`, with a handle to it in `receiver`. -/
def openReply (caller : ThreadId) (receiver : ProcessId) : Store z (ReplyId × Handle) := do
  let reply ← onReplies (Pool.allocate (Reply.new caller))
  let handle ← (installHandle receiver ⟨.of reply, .empty, 0⟩).orUndo
    (onReplies (Pool.release reply)).ignore
  pure (reply, handle)

def closeReply (reply : ReplyId) (receiver : ProcessId) (handle : Handle) : Store z Unit := do
  (closeHandle receiver handle).ignore
  (onReplies (Pool.release reply)).ignore

/-- The thread a reply object answers, if it still waits for it. -/
def replyCaller (o : Objects z) (reply : ReplyId) : Except Error ThreadId :=
  match o.reply? reply with
  | none => .error .invalidHandle
  | some held =>
    if held.consumed then .error .invalidState
    else if stateOf o held.caller ≠ some .blockedReply then .error .invalidState
    else if (o.thread? held.caller).map (·.wait) ≠ some (.reply reply) then .error .invalidState
    else .ok held.caller

def replied (reply : ReplyId) (status : Status) : Sys z Outcome := do
  let s ← Prog.get
  let caller ← ofExcept (replyCaller s.objects reply)
  store (withReply reply ({ · with consumed := true }))
  store (forget caller)
  let woken ← wake caller
  pure ((done.waking ⟨caller, status, (0, 0)⟩).switching (woken.getD false))

/-! ## Moving a message -/

structure Transferred where
  words : Nat
  handles : Nat
  truncated : Bool
deriving DecidableEq, Repr

/-- The entries that the handle words of a message name, each of which may be transferred. -/
def carried (source : Buffer) (o : Objects z) (sender : ProcessId) (count : Nat) :
    Except Error (List Entry) :=
  (List.range count).mapM fun index => do
    let handle ← (source.handle index).elim (.error .invalidHandle) .ok
    let entry ← o.handles.lookup sender handle
    if entry.rights.contains .transfer then .ok entry else .error .accessDenied

/-- Installs a second handle to what `entry` names; `none` when the receiver has no room. -/
def install (receiver : ProcessId) (entry : Entry) : Store z (Option Handle) := do
  let handle ← attempt (installHandle receiver entry)
  match handle with
  | .error _ => pure none
  | .ok handle => do
    (retain entry.object).ignore
    pure (some handle)

/-- Installs the entries one by one until one does not fit. Answers the handles in order and
whether one did not fit. -/
def installAll (receiver : ProcessId) : List Entry → Store z (List Handle × Bool)
  | [] => pure ([], false)
  | entry :: rest => do
    let handle ← install receiver entry
    match handle with
    | none => pure ([], true)
    | some handle => do
      let (handles, truncated) ← installAll receiver rest
      pure (handle :: handles, truncated)

/-- What a transfer writes to: the buffer of the receiver and the objects. -/
structure Moving (z : Sizes) where
  target : Buffer
  objects : Objects z

/-- Moves the message in `source` to the target. -/
def transfer (source : Buffer) (sender receiver : ProcessId) (kernelMessage : Bool) :
    Prog Error (Moving z) Transferred := do
  let message ← ofExcept source.message
  require (kernelMessage ∨ ¬ message.isKernelLabel) .invalidArgument
  let s ← Prog.get
  let entries ← ofExcept (carried source s.objects sender message.handleCount)
  Prog.modify fun s => { s with
    target := { source.copyWords s.target message.wordCount with label := message.label } }
  let (handles, truncated) ← (installAll receiver entries).zoom Moving.objects
    (fun objects s => { s with objects }) id
  Prog.modify fun s => { s with
    target := handles.zipIdx.foldl (fun target (handle, index) => target.setHandle index handle)
      s.target }
  let s ← Prog.get
  let target ← ofExcept (s.target.setCounts message.wordCount handles.length)
  Prog.modify fun s => { s with target }
  pure ⟨message.wordCount, handles.length, truncated⟩

end Audhsos.Ipc
