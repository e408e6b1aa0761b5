import Audhsos.Ipc.Notify

/-!
What every call shares: the request and the answer, the one path by which a reference is given
back, the telling of the end of a process, and the clearing away of threads that have ended.
-/

namespace Audhsos.Calls

open Lib Objects Prog

variable {ε : Type} [Environment ε] {z : Sizes}

/-- The most words of a result that goes to the message area. -/
def maxResultWords : Nat := 30

/-- What a call answers. `words` is `none` for a call that leaves the message area alone. -/
structure Reply where
  values : Nat × Nat
  words : Option (List Nat)
  partially : Bool
  blocked : Bool
  failure : Option Error
  outcome : Outcome
deriving DecidableEq, Repr

namespace Reply

def done : Reply := ⟨(0, 0), none, false, false, none, .nothing⟩

def failed (error : Error) : Reply := { done with failure := some error }

def ofBlocked : Reply := { done with blocked := true, outcome := .again }

def value (value : Nat) : Reply := { done with values := (value, 0) }

def ofValues (first second : Nat) : Reply := { done with values := (first, second) }

variable (reply : Reply)

def reschedule : Reply := { reply with outcome := .again }

def switching (switch : Bool) : Reply := if switch then reply.reschedule else reply

def after (outcome : Outcome) : Reply := { reply with outcome }

/-- The call did part of its work. -/
def progress (done' : Nat) : Reply := { done with values := (done', 0), partially := true }

variable (words : List Nat)

def withWords : Reply :=
  { reply with words := some (words.take maxResultWords) }

def message : Reply :=
  { done.withWords words with values := (min words.length maxResultWords, 0) }

end Reply

/-- The arguments of a call, and the handle of the first for a call that takes one. -/
structure Request where
  arguments : Nat → Nat
  handle : Option Handle

variable (request : Request)

def Request.argument (index : Nat) : Nat :=
  if index < 6 then request.arguments index else 0

/-- `u8::try_from`, `u16::try_from` and `u32::try_from`. -/
def narrow (bits value : Nat) : Call ε z Nat :=
  ofExcept (if value < 2 ^ bits then .ok value else .error .invalidArgument)

def handleOf : Call ε z Handle := ofOption request.handle .invalidHandle

def handleAt (index : Nat) : Call ε z Handle :=
  ofOption (Handle.fromRaw (request.argument index)) .invalidHandle

/-- The object of a type that the first argument names. -/
def objectOf (type : ObjectType) (caller : ProcessId) (request : Request) (required : Rights) :
    Call ε z (ObjectId type × Rights) := do
  let handle ← handleOf request
  objs (resolve type caller handle required)

variable (caller : ProcessId)

def processOf (request : Request) : Call ε z ProcessId := do
  let (id, _) ← objectOf .process caller request .empty
  pure id

def threadOf (request : Request) : Call ε z ThreadId := do
  let (id, _) ← objectOf .thread caller request .empty
  pure id

/-! ## Charging the quota of kernel objects -/

variable (process : ProcessId)

def chargeObject : Call ε z Unit := do
  let holder ← objs (getProcess process)
  let quota ← ofOption (holder.kernelObjectQuota.charge 1) .quotaExceeded
  objs (withProcess process ({ · with kernelObjectQuota := quota }))

def refundObject : Call ε z Unit :=
  objs (withProcess process fun holder =>
    { holder with kernelObjectQuota := holder.kernelObjectQuota.refund 1 })

/-! ## Writing results -/

def frameOf (thread : ThreadId) : Call ε z PhysFrame := do
  let held ← objs (getThread thread)
  pure held.ipcBuffer

variable (frame : PhysFrame)

def readBuffer : Call ε z Buffer := do
  let m ← Prog.get
  ofExcept (Environment.readBuffer frame m.environment)

def writeBuffer (buffer : Buffer) : Call ε z Unit :=
  envDo (Environment.writeBuffer frame buffer)

def writeResult (wakeup : Ipc.Wakeup) : Call ε z Unit := do
  let frame ← frameOf wakeup.thread
  let buffer ← readBuffer frame
  writeBuffer frame ((buffer.clearResult.setStatus wakeup.status).setReturnWords wakeup.values)

/-- Writes the result of the thread an outcome woke and turns the outcome into a reply. -/
def apply (outcome : Ipc.Outcome) : Call ε z Reply := do
  match outcome.wakeup with
  | some wakeup => writeResult wakeup
  | none => pure ()
  let switch := if outcome.reschedule then Outcome.again else .nothing
  if outcome.blocked then pure (Reply.ofBlocked.after switch)
  else
    pure ({ Reply.ofValues outcome.values.1 outcome.values.2 with
      partially := outcome.status.isPartial }.after switch)

/-! ## Giving a reference back -/

/-- The vector that goes back to the environment when this reference is the last one. -/
def messageVectorOf (o : Objects z) (object : AnyObjectId) : Option Nat :=
  if object.objectType ≠ .interrupt then none
  else match o.interrupts.find ⟨object.index, object.generation⟩ with
    | none => none
    | some held => if held.refs = 1 ∧ held.value.line = none then some held.value.vector else none

/-- Wakes everyone a destroyed object left waiting and writes their results. -/
def wakeAll : Nat → Ipc.Waiters → Call ε z Bool
  | 0, waiters => pure waiters.switch
  | fuel + 1, waiters => do
    let (wakeup, waiters) ← sys waiters.wakeNext
    match wakeup with
    | none => pure waiters.switch
    | some wakeup => do
      writeResult wakeup
      wakeAll fuel waiters

/-- Gives one reference back. When it was the last, the object goes and whoever waited on it wakes;
answers whether one of them should take the processor. -/
def release (object : AnyObjectId) : Call ε z Bool := do
  let m ← Prog.get
  let vector := messageVectorOf m.objects object
  let gone ← objs (destroy object)
  match gone with
  | none => pure false
  | some gone => do
    match vector with
    | some vector => envDo (Environment.releaseMessageVector vector)
    | none => pure ()
    let waiters := Ipc.destroyed gone
    wakeAll waiters.bound waiters

/-- The loop of `closeEveryHandle`, in which every turn closes a handle. -/
def closeLoop (process : ProcessId) : Nat → Bool → Call ε z Bool
  | 0, switch => pure switch
  | fuel + 1, switch => do
    let entry ← objs (closeNextHandle process)
    match entry with
    | none => pure switch
    | some entry => do
      let released ← attempt (release entry.object)
      closeLoop process fuel (switch || released.toOption.getD false)

def closeEveryHandle : Call ε z Bool :=
  closeLoop process (z.handles + 1) false

/-! ## The end of a process -/

def signalOne (watch : Watch) : Call ε z Bool := do
  Prog.modify fun m => { m with told := (process, watch) :: m.told }
  let outcome ← attempt (sys (Ipc.signal watch.notification (2 ^ (watch.bit % 64))))
  match outcome with
  | .error _ => pure false
  | .ok outcome => do
    match outcome.wakeup with
    | some wakeup => writeResult wakeup
    | none => pure ()
    pure outcome.reschedule

def signalEach (process : ProcessId) : List Watch → Bool → Call ε z Bool
  | [], switch => pure switch
  | watch :: rest, switch => do
    let again ← signalOne process watch
    signalEach process rest (switch || again)

/-- The process has ended: whoever watches it is told, once. -/
def ended (process : ProcessId) : Call ε z Bool := do
  let m ← Prog.get
  match m.objects.process? process with
  | none => pure false
  | some holder =>
    if holder.ended then pure false
    else do
      objs (withProcess process ({ · with ended := true }))
      signalEach process holder.watcherList false

/-- A thread left the process; when it was the last one, the process has ended. -/
def threadLeft : Call ε z Bool := do
  let m ← Prog.get
  if (m.objects.process? process).any (·.threadList.isEmpty) then ended process else pure false

/-! ## Clearing threads away -/

/-- The next thread of this processor that has ended and is not the one the kernel stands on. -/
def nextEnded (s : System z) (running : Option ThreadId) : Option ThreadId :=
  let spared := running.or s.scheduler.current
  (s.objects.threads.iter.find? fun (id, thread) =>
    thread.state = .exited ∧ some id ≠ spared ∧ thread.cpu = s.scheduler.caller).map (·.1)

def pageFromStart (address : Nat) : Option Page :=
  if address % pageSize = 0 then some (.containing address) else none

def unmapBuffer (address : Nat) : Call ε z Unit := do
  let m ← Prog.get
  match (m.objects.process? process).map (·.root), pageFromStart address with
  | some root, some page => (env (Environment.unmap root page)).ignore
  | _, _ => pure ()

/-- Gives back what a thread that has ended held, and its slot. -/
def clear (id : ThreadId) : Call ε z Unit := do
  let m ← Prog.get
  match m.objects.thread? id with
  | none => pure ()
  | some thread => do
    unmapBuffer thread.process thread.ipcAddress
    envDo (Environment.releaseKernelStack thread.kernelStack)
    match thread.bufferObject with
    | some object => (objs (onMemory (Pool.release object))).ignore
    | none => envDo (Environment.releaseFrame thread.ipcBuffer)
    objs (forceReleaseThread id)
    sys (Prog.modify fun s => { s with scheduler := s.scheduler.cleared })

/-- The loop of `reap`, in which every turn frees a thread. -/
def reapLoop (running : Option ThreadId) : Nat → Nat → Call ε z Nat
  | 0, cleared => pure cleared
  | fuel + 1, cleared => do
    let m ← Prog.get
    match nextEnded m.toSystem running with
    | none => pure cleared
    | some id => do
      clear id
      reapLoop running fuel (cleared + 1)

/-- Clears away the threads of this processor that have ended, and answers how many. -/
def reap (running : Option ThreadId) : Call ε z Nat := do
  let m ← Prog.get
  if (m.scheduler.queues m.scheduler.caller).ended = 0 then pure 0
  else reapLoop running (z.threads + 1) 0

end Audhsos.Calls
