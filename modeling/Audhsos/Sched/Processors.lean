import Audhsos.Sched.Scheduler

/-!
The schedulers of all processors. A thread is linked by the scheduler of its home processor only;
a call for a thread of another processor marks that processor to choose again.
-/

namespace Audhsos

open Lib

def cpus : Nat := 16

structure Processors where
  queues : Nat → Scheduler
  caller : Nat
  pending : BitVec 16
  online : BitVec 16
  nextHome : Nat

structure ProcState (n : Nat) where
  processors : Processors
  threads : Threads n

namespace Processors

variable {n : Nat}

def new : Processors := ⟨fun _ => .new, 0, 0, 0, 0⟩

variable (self : Processors) (cpu : Nat)

def select :
    Processors := { self with caller := min cpu (cpus - 1) }

/-- The loop of `assign`, over at most `fuel` processors from `nextHome` on. -/
def assignLoop (mask : BitVec 16) : Nat → Processors → Nat × Processors
  | 0, self => (0, self)
  | fuel + 1, self =>
    let cpu := self.nextHome
    let self := { self with nextHome := (cpu + 1) % cpus }
    if mask.getLsbD cpu then (cpu, self) else assignLoop mask fuel self

section

variable (self : Processors)

/-- The home of the next thread: the processors that are online, in turn. -/
def assign : Nat × Processors := assignLoop (self.online ||| 1) cpus self

def modifyQueue (cpu : Nat) (f : Scheduler → Scheduler) : Processors :=
  if cpu < cpus then { self with queues := Function.update self.queues cpu (f (self.queues cpu)) }
  else self

def current : Option ThreadId := (self.queues self.caller).current

def setIdle (id : ThreadId) : Processors :=
  self.modifyQueue self.caller (·.setIdle id)

def adopt (id : ThreadId) : Processors :=
  self.modifyQueue self.caller (·.adopt id)

def cleared : Processors := self.modifyQueue self.caller (·.cleared)

end

def home (threads : Threads n) (id : ThreadId) : Except Error Nat :=
  match threads.get? id with
  | none => .error .invalidHandle
  | some thread => if thread.cpu < cpus then .ok thread.cpu else .error .invalidArgument

/-- Marks another processor to choose again, and tells the caller only about its own. -/
def outcome (cpu : Nat) (outcome : Outcome) : Prog Error (ProcState n) Outcome := fun s =>
  if cpu = s.processors.caller then (.ok outcome, s)
  else
    (.ok .nothing, if outcome.reschedule then
      { s with processors := { s.processors with
          pending := s.processors.pending ||| (1#16 <<< cpu) } }
    else s)

def onCpu {α : Type} (m : Prog Error (SchedState n) α) : Prog Error (ProcState n) α :=
  m.zoom (fun s => ⟨s.processors.queues cpu, s.threads⟩) (fun t s =>
    { processors := { s.processors with
        queues := Function.update s.processors.queues cpu t.scheduler }
      threads := t.threads }) id

section

variable (id : ThreadId)

def onHome (m : Prog Error (SchedState n) Outcome) :
    Prog Error (ProcState n) Outcome := do
  let s ← Prog.get
  let cpu ← Prog.ofExcept (home s.threads id)
  let answer ← onCpu cpu m
  outcome cpu answer

def start : Prog Error (ProcState n) Outcome := onHome id (Scheduler.start id)

def onWake : Prog Error (ProcState n) Outcome := onHome id (Scheduler.onWake id)

def onBlock (event : Event) : Prog Error (ProcState n) Outcome :=
  onHome id (Scheduler.onBlock id event)

def onBlockUntil (event : Event) (deadline : Nat) : Prog Error (ProcState n) Outcome :=
  onHome id (Scheduler.onBlockUntil id event deadline)

def suspend : Prog Error (ProcState n) Outcome := onHome id (Scheduler.suspend id)

def resume : Prog Error (ProcState n) Outcome := onHome id (Scheduler.resume id)

def fault : Prog Error (ProcState n) Outcome := onHome id (Scheduler.fault id)

def exit : Prog Error (ProcState n) Outcome := onHome id (Scheduler.exit id)

def yieldNow : Prog Error (ProcState n) Outcome :=
  onHome id (Scheduler.yieldNow id)

def setPriority (priority : Nat) : Prog Error (ProcState n) Outcome :=
  onHome id (Scheduler.setPriority id priority)

end

def pickNext : Prog Error (ProcState n) ThreadId := do
  let cpu ← Prog.gets (·.processors.caller)
  Prog.require (cpu < cpus) .invalidArgument
  onCpu cpu Scheduler.pickNext

def tick : Prog Error (ProcState n) Outcome := do
  let cpu ← Prog.gets (·.processors.caller)
  if cpu < cpus then onCpu cpu Scheduler.tick else pure .nothing

/-- Asks the processors from `cpu` on, `fuel` of them, for a thread whose deadline has passed. -/
def expiredFrom (now : Nat) : Nat → Nat → Prog Error (ProcState n) (Option ThreadId)
  | 0, _ => pure none
  | fuel + 1, cpu => do
    let id ← onCpu cpu (Scheduler.expired now)
    match id with
    | some id => pure (some id)
    | none => expiredFrom now fuel (cpu + 1)

def expired (now : Nat) : Prog Error (ProcState n) (Option ThreadId) := expiredFrom now cpus 0

end Processors

end Audhsos
