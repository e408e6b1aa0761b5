import Audhsos.Syscall.Lifetime

/-!
The calls on processes and on handles.
-/

namespace Audhsos.Calls

open Lib Objects Prog Environment

variable {ε : Type} [Environment ε] {z : Sizes}

/-! ## Watching a process -/

section

variable (caller : ProcessId) (request : Request)

/-- The watch that a request names: a notification the caller may bind, and a bit of it. -/
def watchOf : Call ε z Watch := do
  let handle ← handleAt request 1
  let (notification, _) ← objs (resolve .notification caller handle .bind)
  let bit ← narrow 8 (request.argument 2)
  require (bit < 64) .invalidArgument
  pure ⟨notification, bit⟩

def processWatch : Call ε z Reply := do
  let target ← processOf caller request
  let watch ← watchOf caller request
  let holder ← objs (getProcess target)
  if holder.ended then do
    let switch ← signalOne target watch
    pure (Reply.done.switching switch)
  else do
    let holder ← ofExcept (holder.addWatcher watch)
    objs (withProcess target fun _ => holder)
    pure .done

def processUnwatch : Call ε z Reply := do
  let target ← processOf caller request
  let watch ← watchOf caller request
  let holder ← objs (getProcess target)
  objs (withProcess target (·.removeWatcher watch))
  pure (.value holder.ended.toNat)

end

/-! ## Creating and killing -/

/-- What the creator of a process pays: one object, the frames and the objects of the child. -/
def chargeChild (holder : Process) (frames objects : Nat) : Option Process := do
  let one ← holder.kernelObjectQuota.charge 1
  let quota ← holder.quota.charge frames
  let kernelObjectQuota ← one.charge objects
  pure { holder with quota, kernelObjectQuota }

/-- What the creator of a process gets back. -/
def refundChild (holder : Process) (frames objects : Nat) : Process :=
  { holder with
    quota := holder.quota.refund frames
    kernelObjectQuota := (holder.kernelObjectQuota.refund objects).refund 1 }

def giveBack (parent : ProcessId) (frames objects : Nat) : Call ε z Unit :=
  objs (withProcess parent (refundChild · frames objects))

def processRights : Rights :=
  ((((Rights.manage.union .map).union .install).union .info).union .duplicate).union .transfer

def processCreate (caller : ProcessId) (request : Request) : Call ε z Reply := do
  let parent ← processOf caller request
  let capacity ← narrow 32 (request.argument 1)
  let frames ← narrow 32 (request.argument 2)
  let objects ← narrow 32 (request.argument 3)
  require (request.argument 4 = 0) .invalidArgument
  require (capacity ≤ handlesPerProcess) .invalidArgument
  -- A charge that does not fit takes back those before it, so the holder is as it was.
  let holder ← objs (getProcess parent)
  let charged ← ofOption (chargeChild holder frames objects) .quotaExceeded
  objs (withProcess parent fun _ => charged)
  let root ← (env createAddressSpace).orUndo (giveBack parent frames objects)
  let process := Process.new root (.withCapacity capacity) (.new frames) (.new objects)
  let id ← (objs (onProcesses (Pool.allocate process))).orUndo (do
    envDo (destroyAddressSpace root)
    giveBack parent frames objects)
  objs (withProcess id ({ · with creator := some parent }))
  let handle ← (objs (installHandle caller ⟨.of id, processRights, 0⟩)).orUndo (do
    objs (forceReleaseProcess id)
    envDo (destroyAddressSpace root)
    giveBack parent frames objects)
  objs (retain (.of id))
  pure (.value handle.raw)

/-- One turn of the loop over the processes: a child of `target` goes to `creator`, and what it
was charged is added up. -/
def handOver (target : ProcessId) (creator : Option ProcessId) :
    List (ProcessId × Process) → Nat → Nat → Call ε z (Nat × Nat)
  | [], frames, objects => pure (frames, objects)
  | (id, child) :: rest, frames, objects =>
    if id = target ∨ child.creator ≠ some target then handOver target creator rest frames objects
    else do
      objs (withProcess id ({ · with creator }))
      handOver target creator rest (satAdd32 frames child.quota.limit)
        (satAdd32 objects (satAdd32 child.kernelObjectQuota.limit 1))

/-- The children of `target` become children of `creator`; answers what they were charged. -/
def handOverChildren (target : ProcessId) (creator : Option ProcessId) : Call ε z (Nat × Nat) := do
  let m ← Prog.get
  handOver target creator m.objects.processes.iter 0 0

/-- Ends the threads of a process, each of which leaves what it waits on first. -/
def endEach : List ThreadId → Bool → Call ε z Bool
  | [], reschedule => pure reschedule
  | id :: rest, reschedule => do
    let _ ← objs (Ipc.cancel id)
    let outcome ← attempt (sys (sched (Processors.exit id)))
    endEach rest (reschedule || (outcome.toOption.map (·.reschedule)).getD false)

section

variable (caller : ProcessId) (request : Request)

def processKill : Call ε z Reply := do
  let target ← processOf caller request
  let holder ← objs (getProcess target)
  let left ← endEach holder.threadList false
  let closed ← closeEveryHandle target
  envDo (destroyAddressSpace holder.root)
  objs (withProcess target fun entry =>
    holder.threadList.foldl (fun entry id => entry.removeThread id) entry)
  let released ← match holder.faultHandler with
    | some (handler, _) => release (.of handler)
    | none => pure false
  let told ← ended target
  let (frames, objects) ← handOverChildren target holder.creator
  match holder.creator with
  | some creator =>
    giveBack creator (holder.quota.limit - frames) (holder.kernelObjectQuota.limit - objects)
  | none => pure ()
  objs (forceReleaseProcess target)
  pure (Reply.done.switching (left || closed || released || told))

/-! ## Handles of another process -/

def processInstallHandle : Call ε z Reply := do
  let target ← processOf caller request
  let source ← handleAt request 1
  let bits ← narrow 32 (request.argument 2)
  let rights ← ofExcept (Rights.fromBits bits)
  let entry ← objs (entry caller source)
  require (entry.rights.contains .transfer) .accessDenied
  require (rights.isSubsetOf entry.rights) .accessDenied
  let handle ← objs (installHandle target { entry with rights })
  objs (retain entry.object)
  pure (.value handle.raw)

/-- The endpoint that a request names as the handler of faults, with one more reference to it. -/
def wantedHandler : Call ε z (Option (EndpointId × Nat)) :=
  if request.argument 1 = 0 then pure none
  else do
    let handle ← handleAt request 1
    let (id, _) ← objs (resolve .endpoint caller handle .send)
    let entry ← objs (entry caller handle)
    objs (retain (.of id))
    pure (some (id, entry.badge))

def processSetFaultHandler : Call ε z Reply := do
  let target ← processOf caller request
  let handler ← wantedHandler caller request
  let holder ← objs (getProcess target)
  objs (withProcess target ({ · with faultHandler := handler }))
  let switch ← match holder.faultHandler with
    | some (old, _) => release (.of old)
    | none => pure false
  pure (Reply.done.switching switch)

end

/-! ## Handles of the caller -/

variable (process : ProcessId) (request : Request)

def handleDuplicate : Call ε z Reply := do
  let handle ← handleOf request
  let bits ← narrow 32 (request.argument 1)
  let rights ← ofExcept (Rights.fromBits bits)
  let entry ← objs (entry process handle)
  let copy ← objs (onHandles process (HandleArena.duplicate process handle rights))
  objs (retain entry.object)
  pure (.value copy.raw)

/-- Closes a handle and gives back the reference it held. -/
def consume (handle : Handle) : Call ε z Bool := do
  let entry ← objs (closeHandle process handle)
  release entry.object

def handleClose : Call ε z Reply := do
  let handle ← handleOf request
  let switch ← consume process handle
  pure (Reply.done.switching switch)

end Audhsos.Calls
