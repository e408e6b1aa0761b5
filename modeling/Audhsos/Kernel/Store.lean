import Audhsos.Kernel.Environment
import Audhsos.Sched.Processors

/-!
Every object of the machine in one structure, with the handles that name them and the processors
that run them. A program over one part is a program over the machine that leaves the rest alone.
-/

namespace Audhsos

open Lib PoolError
open Prog (get modify)

/-- The sizes of the four tables that are parameters of the store. -/
structure Sizes where
  processes : Nat
  threads : Nat
  memory : Nat
  handles : Nat
deriving DecidableEq, Repr

def handlesPerProcess : Nat := 4096

structure Objects (z : Sizes) where
  processes : Pool .process Process z.processes
  threads : Pool .thread Thread z.threads
  memory : Pool .memoryObject MemoryObject z.memory
  endpoints : Pool .endpoint Endpoint 1024
  notifications : Pool .notification Notification 1024
  replies : Pool .reply Reply 1024
  interrupts : Pool .interrupt Interrupt 64
  ports : Pool .ioPortRange IoPortRange 64
  handles : HandleArena z.handles

/-- What a release destroyed, and what it left waiting. -/
inductive Destroyed where
  | quietly (id : AnyObjectId)
  | endpoint (id : EndpointId) (endpoint : Endpoint)
  | notification (id : NotificationId) (notification : Notification)
  | reply (id : ReplyId) (reply : Reply)

namespace Objects

theorem queues_lt : 1024 < u32Size := by decide

theorem devices_lt : 64 < u32Size := by decide

variable {z : Sizes}

/-! ## Reaching a pool -/

section

variable {α : Type}

def onProcesses (m : Prog PoolError (Pool .process Process z.processes) α) :
    Prog Error (Objects z) α :=
  m.zoom (·.processes) (fun processes o => { o with processes }) toError

def onThreads (m : Prog PoolError (Pool .thread Thread z.threads) α) : Prog Error (Objects z) α :=
  m.zoom (·.threads) (fun threads o => { o with threads }) toError

def onMemory (m : Prog PoolError (Pool .memoryObject MemoryObject z.memory) α) :
    Prog Error (Objects z) α :=
  m.zoom (·.memory) (fun memory o => { o with memory }) toError

def onEndpoints (m : Prog PoolError (Pool .endpoint Endpoint 1024) α) : Prog Error (Objects z) α :=
  m.zoom (·.endpoints) (fun endpoints o => { o with endpoints }) toError

def onNotifications (m : Prog PoolError (Pool .notification Notification 1024) α) :
    Prog Error (Objects z) α :=
  m.zoom (·.notifications) (fun notifications o => { o with notifications }) toError

def onReplies (m : Prog PoolError (Pool .reply Reply 1024) α) : Prog Error (Objects z) α :=
  m.zoom (·.replies) (fun replies o => { o with replies }) toError

def onInterrupts (m : Prog PoolError (Pool .interrupt Interrupt 64) α) : Prog Error (Objects z) α :=
  m.zoom (·.interrupts) (fun interrupts o => { o with interrupts }) toError

def onPorts (m : Prog PoolError (Pool .ioPortRange IoPortRange 64) α) : Prog Error (Objects z) α :=
  m.zoom (·.ports) (fun ports o => { o with ports }) toError

end

/-! ## Single objects -/

section

variable (o : Objects z)

def process? (id : ProcessId) : Option Process :=
  (o.processes.find id).map (·.value)

def thread? (id : ThreadId) : Option Thread := (o.threads.find id).map (·.value)

def memory? (id : MemoryObjectId) : Option MemoryObject :=
  (o.memory.find id).map (·.value)

def endpoint? (id : EndpointId) : Option Endpoint :=
  (o.endpoints.find id).map (·.value)

def notification? (id : NotificationId) : Option Notification :=
  (o.notifications.find id).map (·.value)

def reply? (id : ReplyId) : Option Reply := (o.replies.find id).map (·.value)

def interrupt? (id : InterruptId) : Option Interrupt :=
  (o.interrupts.find id).map (·.value)

end

def getProcess (id : ProcessId) : Prog Error (Objects z) Process := fun o =>
  ((o.process? id).elim (.error .invalidHandle) .ok, o)

def getThread (id : ThreadId) : Prog Error (Objects z) Thread := fun o =>
  ((o.thread? id).elim (.error .invalidHandle) .ok, o)

variable (id : MemoryObjectId)

def getMemory : Prog Error (Objects z) MemoryObject := fun o =>
  ((o.memory? id).elim (.error .invalidHandle) .ok, o)

def withProcess (id : ProcessId) (f : Process → Process) : Prog Error (Objects z) Unit :=
  modify fun o => { o with processes := o.processes.modify id f }

def withThread (id : ThreadId) (f : Thread → Thread) : Prog Error (Objects z) Unit :=
  modify fun o => { o with threads := o.threads.modify id f }

def withMemory (f : MemoryObject → MemoryObject) : Prog Error (Objects z) Unit :=
  modify fun o => { o with memory := o.memory.modify id f }

def withEndpoint (id : EndpointId) (f : Endpoint → Endpoint) : Prog Error (Objects z) Unit :=
  modify fun o => { o with endpoints := o.endpoints.modify id f }

def withNotification (id : NotificationId) (f : Notification → Notification) :
    Prog Error (Objects z) Unit :=
  modify fun o => { o with notifications := o.notifications.modify id f }

def withReply (id : ReplyId) (f : Reply → Reply) : Prog Error (Objects z) Unit :=
  modify fun o => { o with replies := o.replies.modify id f }

def withInterrupt (id : InterruptId) (f : Interrupt → Interrupt) : Prog Error (Objects z) Unit :=
  modify fun o => { o with interrupts := o.interrupts.modify id f }

/-! ## Handles -/

def entry (process : ProcessId) (handle : Handle) : Prog Error (Objects z) Entry := fun o =>
  (o.handles.lookup process handle, o)

/-- The object of a type that a handle names, with the rights it carries: the handle is checked
first, then the type, then the rights. -/
def resolve (type : ObjectType) (process : ProcessId) (handle : Handle) (required : Rights) :
    Prog Error (Objects z) (ObjectId type × Rights) := do
  let entry ← entry process handle
  let id ← Prog.ofExcept (entry.object.typed type)
  Prog.require (entry.rights.contains required) .accessDenied
  pure (id, entry.rights)

section

variable (process : ProcessId)

/-- Runs a call of the arena on the list of a process: the list is read out of the process and
written back when the call succeeds. -/
def onHandles {α : Type}
    (m : Prog Error (HandleArena z.handles × HandleList) α) : Prog Error (Objects z) α := do
  let holder ← getProcess process
  fun o =>
    match m (o.handles, holder.handles) with
    | (.error e, handles, _) => (.error e, { o with handles })
    | (.ok a, handles, list) =>
      (.ok a, { o with
        handles
        processes := o.processes.modify process ({ · with handles := list }) })

def installHandle (entry : Entry) : Prog Error (Objects z) Handle :=
  onHandles process (HandleArena.insert process entry)

def closeHandle (handle : Handle) : Prog Error (Objects z) Entry :=
  onHandles process (HandleArena.close process handle)

/-- Closes the first handle of a process and answers what it named. -/
def closeNextHandle : Prog Error (Objects z) (Option Entry) := fun o =>
  match o.process? process with
  | none => (.ok none, o)
  | some holder =>
    let (entry, handles, list) := o.handles.closeNext holder.handles
    (.ok entry, { o with
      handles
      processes := o.processes.modify process ({ · with handles := list }) })

end

/-! ## References -/

variable (id : AnyObjectId)

/-- Adds one reference to the object an id names, whichever pool holds it. -/
def retain : Prog Error (Objects z) Unit :=
  match id.objectType with
  | .process => onProcesses (Pool.retain ⟨id.index, id.generation⟩)
  | .thread => onThreads (Pool.retain ⟨id.index, id.generation⟩)
  | .memoryObject => onMemory (Pool.retain ⟨id.index, id.generation⟩)
  | .endpoint => onEndpoints (Pool.retain ⟨id.index, id.generation⟩)
  | .notification => onNotifications (Pool.retain ⟨id.index, id.generation⟩)
  | .reply => onReplies (Pool.retain ⟨id.index, id.generation⟩)
  | .interrupt => onInterrupts (Pool.retain ⟨id.index, id.generation⟩)
  | .ioPortRange => onPorts (Pool.retain ⟨id.index, id.generation⟩)
  | .systemControl => pure ()

def gone (m : Prog Error (Objects z) Bool) : Prog Error (Objects z) Bool := fun o =>
  (.ok ((m o).1.toOption.getD false), (m o).2)

/-- Drops one reference in a pool whose objects no thread can wait on. -/
def quietly (release : Prog Error (Objects z) Bool) :
    Prog Error (Objects z) (Option Destroyed) := do
  let last ← gone release
  pure (if last then some (.quietly id) else none)

/-- Drops one reference to the object an id names and answers what was destroyed when that was the
last one. -/
def destroy : Prog Error (Objects z) (Option Destroyed) :=
  match id.objectType with
  | .endpoint => do
    let o ← get
    match o.endpoint? ⟨id.index, id.generation⟩ with
    | none => pure none
    | some held => do
      let last ← gone (onEndpoints (Pool.release ⟨id.index, id.generation⟩))
      pure (if last then some (.endpoint ⟨id.index, id.generation⟩ held) else none)
  | .notification => do
    let o ← get
    match o.notification? ⟨id.index, id.generation⟩ with
    | none => pure none
    | some held => do
      let last ← gone (onNotifications (Pool.release ⟨id.index, id.generation⟩))
      pure (if last then some (.notification ⟨id.index, id.generation⟩ held) else none)
  | .reply => do
    let o ← get
    match o.reply? ⟨id.index, id.generation⟩ with
    | none => pure none
    | some held => do
      let last ← gone (onReplies (Pool.release ⟨id.index, id.generation⟩))
      pure (if last then some (.reply ⟨id.index, id.generation⟩ held) else none)
  | .process => quietly id (onProcesses (Pool.release ⟨id.index, id.generation⟩))
  | .thread => quietly id (onThreads (Pool.release ⟨id.index, id.generation⟩))
  | .memoryObject => quietly id (onMemory (Pool.release ⟨id.index, id.generation⟩))
  | .interrupt => quietly id (onInterrupts (Pool.release ⟨id.index, id.generation⟩))
  | .ioPortRange => quietly id (onPorts (Pool.release ⟨id.index, id.generation⟩))
  | .systemControl => pure none

def forceReleaseProcess (id : ProcessId) : Prog Error (Objects z) Unit :=
  modify fun o => { o with processes := (Pool.forceRelease id o.processes).2 }

def forceReleaseThread (id : ThreadId) : Prog Error (Objects z) Unit :=
  modify fun o => { o with threads := (Pool.forceRelease id o.threads).2 }

end Objects

/-! ## The machine -/

structure System (z : Sizes) where
  objects : Objects z
  scheduler : Processors

/-- What a system call works on: the system, the environment, and the IPC buffer of the calling
thread. The last field is a history that no call reads: the watches that were signalled, each with
the process whose end it was told, the latest first. -/
structure Machine (ε : Type) (z : Sizes) extends System z where
  environment : ε
  buffer : Buffer
  told : List (ProcessId × Watch)

abbrev Store (z : Sizes) (α : Type) := Prog Error (Objects z) α
abbrev Sys (z : Sizes) (α : Type) := Prog Error (System z) α
abbrev Call (ε : Type) (z : Sizes) (α : Type) := Prog Error (Machine ε z) α

section

variable {ε : Type} {z : Sizes} {α : Type}

def store (m : Store z α) : Sys z α := m.zoom (·.objects) (fun objects s => { s with objects }) id

def sched (m : Prog Error (ProcState z.threads) α) : Sys z α :=
  m.zoom (fun s => ⟨s.scheduler, s.objects.threads⟩)
    (fun t s => { objects := { s.objects with threads := t.threads }, scheduler := t.processors }) id

def sys (m : Sys z α) : Call ε z α :=
  m.zoom (·.toSystem) (fun toSystem m => { m with toSystem }) id

def objs (m : Store z α) : Call ε z α := sys (store m)

def env (m : Prog Error ε α) : Call ε z α :=
  m.zoom (·.environment) (fun environment m => { m with environment }) id

def envDo (f : ε → ε) : Call ε z Unit :=
  modify fun m => { m with environment := f m.environment }

end

end Audhsos
