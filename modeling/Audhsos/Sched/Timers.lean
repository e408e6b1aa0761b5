import Audhsos.Sched.Queues

/-!
The heap of deadlines and what the threads record of it. Linking a thread, taking it out of its
queue, spending its slice and leaving the processor keep every view that does not look at the
queues.
-/

namespace Audhsos

open Lib Threads

variable {n : Nat} {s s' : SchedState n} {id j : ThreadId} {t : Thread}

/-- What a thread records of the deadline it waits for, and whether it waits. -/
structure Timer where
  deadline : Option Nat
  index : Option Nat
  state : ThreadState
deriving DecidableEq, Repr

def Thread.timer (t : Thread) : Timer := ⟨t.deadline, t.deadlineIndex, t.state⟩

def Threads.timers (threads : Threads n) (id : ThreadId) : Option Timer :=
  (threads.get? id).map Thread.timer

theorem Threads.timers_of_get? {threads : Threads n} (ht : threads.get? id = some t) :
    threads.timers id = some t.timer := by
  rw [timers, ht]
  rfl

section

variable (threads : Threads n) (id : ThreadId) {f : Thread → Thread}

theorem Threads.timers_modify
    {g : Timer → Timer} (hf : ∀ t, (f t).timer = g t.timer) (j : ThreadId) :
    timers (threads.modify id f) j =
      if j = id then (threads.timers id).map g else threads.timers j := by
  unfold timers
  rw [get?_modify]
  by_cases hj : j = id
  · rw [if_pos hj, if_pos hj, Option.map_map, Option.map_map]
    exact congrArg (fun h => (threads.get? id).map h) (funext hf)
  · rw [if_neg hj, if_neg hj]

/-- A write that does not show in the timer of its thread shows in none. -/
theorem Threads.timers_modify_same
    (hf : ∀ t, (f t).timer = t.timer) : timers (threads.modify id f) = threads.timers := by
  funext j
  rw [timers_modify threads id (g := fun timer => timer) hf]
  by_cases hj : j = id
  · rw [if_pos hj, Option.map_id', hj]
  · rw [if_neg hj]

end

theorem Threads.timers_setState {threads : Threads n} (st : ThreadState)
    (ht : threads.get? id = some t) (j : ThreadId) :
    timers (threads.modify id (·.setState st)) j =
      if j = id then some { t.timer with state := st } else threads.timers j := by
  rw [timers_modify threads id (g := fun timer => { timer with state := st }) (fun _ => rfl),
    timers_of_get? ht]
  rfl

namespace Scheduler

def timers (s : SchedState n) : Deadlines × (ThreadId → Option Timer) :=
  (s.scheduler.deadlines, s.threads.timers)

theorem timers_eq_iff : timers s' = timers s ↔
    s'.scheduler.deadlines = s.scheduler.deadlines ∧ s'.threads.timers = s.threads.timers :=
  Prod.mk.injEq _ _ _ _ ▸ Iff.rfl

abbrev KeepsTimers (n : Nat) {α : Type} (m : Prog Error (SchedState n) α) : Prop := m.Keeps timers

theorem keepsTimers_modifyThread (id : ThreadId) {f : Thread → Thread}
    (hf : ∀ t, (f t).timer = t.timer) : KeepsTimers n (modifyThread id f) :=
  fun s => timers_eq_iff.mpr ⟨rfl, s.threads.timers_modify_same id hf⟩

theorem keepsTimers_modifySelf {f : Scheduler → Scheduler}
    (hf : ∀ self, (f self).deadlines = self.deadlines) : KeepsTimers n (modifySelf f) :=
  fun s => timers_eq_iff.mpr ⟨hf s.scheduler, rfl⟩

section

variable (self : Scheduler)

@[simp] theorem modifyQueue_deadlines (p : Nat) (f : RunQueue → RunQueue) :
    (self.modifyQueue p f).deadlines = self.deadlines := by
  unfold modifyQueue
  split <;> rfl

@[simp] theorem markReady_deadlines (p : Nat) (ready : Bool) :
    (self.markReady p ready).deadlines = self.deadlines :=
  (markReady_rest self p ready).2.2.2.2

end

theorem keeps_getThread {β : Type} {view : SchedState n → β} (id : ThreadId) :
    (getThread id).Keeps view := fun _ => rfl

/-- The view looks neither at the queues nor at the links, slice and priority of a thread. -/
structure Unqueued {β : Type} (view : SchedState n → β) : Prop where
  links : ∀ id (links : Thread → Links),
    (modifyThread id fun t => t.setQueueLinks (links t)).Keeps view
  slice : ∀ id ticks, (modifyThread id (·.setTimeSlice ticks)).Keeps view
  priority : ∀ id priority, (modifyThread id (·.setPriority priority)).Keeps view
  queues : ∀ f, (∀ self, (f self).deadlines = self.deadlines) → (modifySelf f).Keeps view

namespace Unqueued

variable {β : Type} {view : SchedState n → β} (h : Unqueued view) (id : ThreadId)
include h

theorem keeps_link (placement : Placement) : (link id placement).Keeps view := by
  unfold link
  dsimp only
  repeat' first
    | with_reducible first
      | exact .gets _ | exact .require _ _ | exact .pure _ | exact keeps_getThread _
      | exact h.links _ _
      | exact h.queues _ fun _ => modifyQueue_deadlines _ _ _
      | exact h.queues _ fun _ => markReady_deadlines _ _ _
      | refine .bind ?_ fun _ => ?_
    | split

theorem keeps_dequeue : (dequeue id).Keeps view := by
  unfold dequeue
  dsimp only
  repeat' first
    | with_reducible first
      | exact .gets _ | exact .pure _ | exact keeps_getThread _ | exact h.links _ _
      | exact h.queues _ fun _ => by simp
      | refine .bind ?_ fun _ => ?_
    | split

theorem keeps_spendSlice : (spendSlice id).Keeps view := h.slice id 0

/-- What follows the event of a thread that leaves its processor. -/
theorem keeps_leaves : (do dequeue id; spendSlice id; leftTheProcessor id).Keeps view := by
  refine .bind (h.keeps_dequeue id) fun _ => .bind (h.keeps_spendSlice id) fun _ s => ?_
  unfold leftTheProcessor
  split
  · exact h.queues ({ · with current := none }) (fun _ => rfl) s
  · rfl

theorem keeps_setPriority (priority : Nat) : (setPriority id priority).Keeps view := by
  unfold setPriority
  dsimp only
  repeat' first
    | with_reducible first
      | exact .gets _ | exact .require _ _ | exact .pure _ | exact keeps_getThread _
      | exact h.keeps_dequeue _ | exact h.keeps_spendSlice _ | exact h.priority _ _
      | refine .bind ?_ fun _ => ?_
    | exact h.keeps_link _ .tail
    | split

theorem keeps_tick : tick.Keeps view := by
  intro s
  unfold tick
  repeat' split
  all_goals first | rfl | exact h.slice _ _ s

end Unqueued

/-- The last steps of `pickNext`, for the thread that it has taken out of its queue. -/
def chosen (id : ThreadId) : Prog Error (SchedState n) ThreadId := do
  let thread ← getThread id
  let state ← Prog.ofExcept (nextState thread.state .schedule)
  modifyThread id fun thread => (thread.setState state).setTimeSlice
    (if thread.timeSlice = 0 then defaultTimeSliceTicks else thread.timeSlice)
  modifySelf ({ · with current := some id })
  pure id

theorem unqueued_timers : Unqueued (timers (n := n)) :=
  ⟨fun id _ => keepsTimers_modifyThread id fun _ => rfl,
    fun id _ => keepsTimers_modifyThread id fun _ => rfl,
    fun id _ => keepsTimers_modifyThread id fun _ => rfl, fun _ => keepsTimers_modifySelf⟩

end Scheduler

end Audhsos
