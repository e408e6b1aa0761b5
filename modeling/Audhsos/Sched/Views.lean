import Audhsos.Sched.Operations
import Audhsos.Sched.Timers

/-!
What the scheduler does not change. A view of a thread that does not look at clocks, links and
priority only changes where a thread takes an event that shows in it.
-/

namespace Audhsos

open Lib

variable {n : Nat} {γ : Type} {view : ThreadId → Thread → γ} {id : ThreadId} {event : Event}

namespace Threads

def seen (view : ThreadId → Thread → γ) (threads : Threads n) (j : ThreadId) : Option (Nat × γ) :=
  (threads.find j).map fun o => (o.refs, view j o.value)

/-- A write that keeps the view of the thread it is about keeps all of them. -/
theorem seen_modify {threads : Threads n} {f : Thread → Thread}
    (hf : ∀ t, threads.get? id = some t → view id (f t) = view id t) :
    seen view (threads.modify id f) = threads.seen view := by
  funext j
  unfold seen get? at *
  rw [Pool.find_modify]
  by_cases hj : j = id
  · subst hj
    cases hfind : threads.find j with
    | none => simp
    | some o => simp [hf o.value (by simp [hfind])]
  · simp [hj]

end Threads

open Threads

/-- The view does not look at what only the scheduler writes, the state apart. -/
structure Blind (view : ThreadId → Thread → γ) : Prop where
  clock : ∀ j t, view j t.eraseClock = view j t
  links : ∀ j t links, view j (t.setQueueLinks links) = view j t
  priority : ∀ j t p, view j (t.setPriority p) = view j t

/-- The event of the thread does not show in the view. -/
def Silent (view : ThreadId → Thread → γ) (id : ThreadId) (event : Event) : Prop :=
  ∀ t next, transition t.state event = some next → view id (t.setState next) = view id t

theorem Threads.SameClock.seen {a b : Threads n} (hv : Blind view) (h : SameClock a b) :
    b.seen view = a.seen view := by
  funext j
  have hj := congrArg (Option.map fun o => (o.1, view j o.2)) (h j)
  simpa [clockless, Threads.seen, Function.comp_def, hv.clock] using hj

/-! ## One processor -/

namespace Scheduler

def seen (view : ThreadId → Thread → γ) (s : SchedState n) : ThreadId → Option (Nat × γ) :=
  s.threads.seen view

abbrev Sees (n : Nat) (view : ThreadId → Thread → γ) {α : Type}
    (m : Prog Error (SchedState n) α) : Prop := m.Keeps (seen view)

end Scheduler

theorem Blind.unqueued (hv : Blind view) :
    Scheduler.Unqueued (n := n) (Scheduler.seen view) where
  links _ _ _ := seen_modify fun _ _ => hv.links _ _ _
  slice _ _ _ := seen_modify fun t _ => by
    rw [← hv.clock, Thread.eraseClock_setTimeSlice, hv.clock]
  priority _ _ _ := seen_modify fun _ _ => hv.priority _ _ _
  queues _ _ _ := rfl

namespace Scheduler

section

variable (hv : Blind view)
include hv

theorem sees_apply (hs : Silent view id event) : Sees n view (apply id event) := by
  intro s
  cases ht : s.threads.get? id with
  | none => simp [apply, Prog.run_bind, getThread, ht]
  | some t =>
    cases htr : transition t.state event with
    | none => rw [apply_refused ht htr]
    | some next =>
      obtain ⟨s', heq, hrun⟩ := apply_spec ht htr
      rw [heq]
      refine (hrun.threads.seen hv).trans (seen_modify fun t' ht' => ?_)
      obtain rfl := Option.mem_unique ht' ht
      exact hs _ _ htr

theorem sees_becomesReady (hs : Silent view id event) : Sees n view (becomesReady id event) :=
  .bind (sees_apply hv hs) fun _ => .bind (hv.unqueued.keeps_link id .tail) fun _ => .gets _

theorem sees_onWake (hs : Silent view id .wake) : Sees n view (onWake id) :=
  .bind (keeps_getThread id) fun _ => .ite (.pure _) (sees_becomesReady hv hs)

theorem sees_leavesTheProcessor (hs : Silent view id event) :
    Sees n view (leavesTheProcessor id event) :=
  .bind (sees_apply hv hs) fun _ => hv.unqueued.keeps_leaves id

section

variable (hs : event.blockedState.isSome → Silent view id event)
include hs

theorem sees_onBlock : Sees n view (onBlock id event) := by
  intro s
  by_cases he : event.blockedState.isSome
  · exact (Prog.Keeps.bind (.require _ _) fun _ => sees_leavesTheProcessor hv (hs he)) s
  · simp [onBlock, Prog.run_bind, Prog.require, he]

theorem sees_onBlockUntil (deadline : Nat) : Sees n view (onBlockUntil id event deadline) :=
  .bind (.require _ _) fun _ => .bind .get fun _ => .bind (.ofExcept _) fun _ =>
    .bind (sees_onBlock hv hs) fun _ s =>
      (s.scheduler.deadlines.sameClock_insert s.threads id deadline).seen hv

end

theorem sees_exit (hs : Silent view id .exit) : Sees n view (exit id) :=
  .bind (keeps_getThread id) fun _ => .ite (.pure _) (sees_leavesTheProcessor hv hs)

theorem sees_yieldNow (hs : Silent view id .yield) : Sees n view (yieldNow id) :=
  .bind (sees_apply hv hs) fun _ => .bind (keeps_getThread id) fun _ =>
    .bind (hv.unqueued.keeps_spendSlice id) fun _ =>
      .bind (hv.unqueued.keeps_link id .tail) fun _ => .pure _

theorem sees_requeueCurrent (hd : ∀ id, Silent view id .displaced)
    (he : ∀ id, Silent view id .sliceExpired) : Sees n view requeueCurrent := by
  refine .bind .get fun s => ?_
  split
  · exact .pure _
  split
  · exact .pure _
  refine .ite (.bind (.attempt ?_) fun applied => ?_) (.pure _)
  · split
    · exact sees_apply hv (hd _)
    · exact sees_apply hv (he _)
  split
  · dsimp only
    split
    · exact hv.unqueued.keeps_link _ _
    · exact .bind (hv.unqueued.keeps_spendSlice _) fun _ => hv.unqueued.keeps_link _ _
  · exact .pure _

/-- The thread that is chosen takes the event that puts it on the processor. -/
theorem sees_chosen (hs : Silent view id .schedule) : Sees n view (chosen id) := by
  intro s
  unfold chosen
  simp only [Prog.run_bind, getThread, Prog.ofExcept, nextState]
  cases ht : s.threads.get? id with
  | none => rfl
  | some t =>
    simp only [Option.elim_some]
    cases htr : transition t.state .schedule with
    | none => rfl
    | some next =>
      refine seen_modify fun t' ht' => ?_
      obtain rfl := Option.mem_unique ht' ht
      rw [← hv.clock, Thread.eraseClock_setTimeSlice, hv.clock]
      exact hs _ _ htr

theorem sees_pickNext (hd : ∀ id, Silent view id .displaced)
    (he : ∀ id, Silent view id .sliceExpired) (hs : ∀ id, Silent view id .schedule) :
    Sees n view pickNext := by
  refine .bind (sees_requeueCurrent hv hd he) fun _ => .bind (.gets _) fun self => ?_
  split
  · exact .bind (.ofOption _ _) fun _ => .bind (fun _ => rfl) fun _ => .pure _
  · exact .bind (.ofOption _ _) fun id => .bind (hv.unqueued.keeps_dequeue id) fun _ =>
      sees_chosen hv (hs id)

theorem sees_expired (now : Nat) : Sees n view (expired now) :=
  fun s => (s.scheduler.deadlines.sameClock_expired s.threads now).seen hv

end

end Scheduler

/-! ## All processors -/

namespace Processors

def seen (view : ThreadId → Thread → γ) (s : ProcState n) : ThreadId → Option (Nat × γ) :=
  s.threads.seen view

theorem sees_onCpu (cpu : Nat) {α : Type} {m : Prog Error (SchedState n) α}
    (hm : m.Keeps (Scheduler.seen view)) : (onCpu cpu m).Keeps (seen view) :=
  fun s => hm ⟨s.processors.queues cpu, s.threads⟩

theorem sees_outcome (cpu : Nat) (answer : Outcome) :
    (outcome cpu answer : Prog Error (ProcState n) _).Keeps (seen view) := by
  intro s
  unfold outcome
  repeat' split
  all_goals rfl

theorem sees_onHome (id : ThreadId) {m : Prog Error (SchedState n) Outcome}
    (hm : m.Keeps (Scheduler.seen view)) : (onHome id m).Keeps (seen view) :=
  .bind .get fun _ => .bind (.ofExcept _) fun cpu => .bind (sees_onCpu cpu hm) fun answer =>
    sees_outcome cpu answer

theorem sees_tick (hv : Blind view) : (tick : Prog Error (ProcState n) _).Keeps (seen view) :=
  .bind (.gets _) fun cpu => .ite (sees_onCpu cpu (hv.unqueued.keeps_tick)) (.pure _)

theorem sees_pickNext (hv : Blind view) (hd : ∀ id, Silent view id .displaced)
    (he : ∀ id, Silent view id .sliceExpired) (hs : ∀ id, Silent view id .schedule) :
    (pickNext : Prog Error (ProcState n) _).Keeps (seen view) :=
  .bind (.gets _) fun cpu => .bind (.require _ _) fun _ =>
    sees_onCpu cpu (Scheduler.sees_pickNext hv hd he hs)

theorem sees_expired (hv : Blind view) (now : Nat) :
    (expired now : Prog Error (ProcState n) _).Keeps (seen view) := by
  have hloop : ∀ fuel cpu,
      (expiredFrom now fuel cpu : Prog Error (ProcState n) _).Keeps (seen view) := by
    intro fuel
    induction fuel with
    | zero => exact fun _ => .pure _
    | succ fuel ih =>
      intro cpu
      refine .bind (sees_onCpu cpu (Scheduler.sees_expired hv now)) fun id => ?_
      cases id with
      | none => exact ih _
      | some id => exact .pure _
  exact hloop cpus 0

end Processors

end Audhsos
