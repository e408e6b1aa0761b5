import Audhsos.Sched.Reachable
import Audhsos.Sched.Timers

/-!
A refused call of the scheduler changes nothing. Each call moves the thread along the table of
transitions before it touches a queue or the heap; that the later steps cannot fail follows from the
run queue invariant, and for a deadline from the check made before the thread blocks.
-/

namespace Audhsos

open Lib Scheduler Threads

variable {n : Nat} {isIdle : ThreadId → Prop} {s s₁ : SchedState n} {c : Nat} {id : ThreadId}
  {t : Thread}

/-! ## A thread that blocks until a deadline -/

theorem canInsert_eq (heap : Deadlines) (threads : Threads n) (id : ThreadId) :
    heap.canInsert threads id = match threads.timers id with
      | none => .error .invalidHandle
      | some timer =>
        if timer.index.isSome || timer.deadline.isSome then .error .invalidState
        else if heap.len = deadlineCapacity then .error .poolExhausted
        else if heap.order = u64Size - 1 then .error .quotaExceeded
        else .ok () := by
  unfold Deadlines.canInsert Threads.timers
  cases threads.get? id <;> rfl

theorem insert_of_canInsert {heap : Deadlines} {threads : Threads n} (deadline : Nat)
    (h : heap.canInsert threads id = .ok ()) : (heap.insert threads id deadline).1 = .ok () := by
  unfold Deadlines.insert
  rw [h]

theorem apply_blocked (ht : s.threads.get? id = some t)
    (htr : transition t.state event = some .blockedNotification) :
    apply id event s = (.ok .blockedNotification,
      { s with threads := s.threads.modify id (·.setState .blockedNotification) }) := by
  simp [apply, bind, getThread_of_get? ht, Prog.ofExcept, nextState, htr, modifyThread, Prog.modify,
    pure]

section

variable {o : Outcome} (ht : s.threads.get? id = some t)
  (hblock : onBlock id .blockNotification s = (.ok o, s₁))
include ht hblock

/-- Blocking for a notification changes the state in the timer of the thread, and nothing else of
the timers. -/
theorem timers_onBlock_notification :
    s₁.scheduler.deadlines = s.scheduler.deadlines ∧ ∀ j, s₁.threads.timers j =
      if j = id then some { t.timer with state := .blockedNotification }
      else s.threads.timers j := by
  have hleaves : leavesTheProcessor id .blockNotification s = (.ok o, s₁) := by
    simpa [onBlock, bind, Prog.require, Event.blockedState] using hblock
  cases htr : transition t.state .blockNotification with
  | none =>
    rw [leavesTheProcessor_refused ht htr] at hleaves
    cases hleaves
  | some st =>
    obtain rfl : st = .blockedNotification := by cases hs : t.state <;> simp_all [transition]
    unfold leavesTheProcessor at hleaves
    rw [Prog.run_bind_ok (apply_blocked ht htr)] at hleaves
    have hkept := unqueued_timers.keeps_leaves id
      { s with threads := s.threads.modify id (·.setState .blockedNotification) }
    rw [hleaves] at hkept
    obtain ⟨hheap, htimers⟩ := timers_eq_iff.mp hkept
    exact ⟨hheap, fun j => htimers ▸ timers_setState _ ht j⟩

theorem canInsert_onBlock (hcan : s.scheduler.deadlines.canInsert s.threads id = .ok ()) :
    s₁.scheduler.deadlines.canInsert s₁.threads id = .ok () := by
  obtain ⟨hheap, htimers⟩ := timers_onBlock_notification ht hblock
  rw [canInsert_eq, timers_of_get? ht] at hcan
  rw [hheap, canInsert_eq, htimers id, if_pos rfl]
  exact hcan

end

theorem atomic_onBlockUntil (hc : c < cpus) (ht : s.threads.get? id = some t) (hcpu : t.cpu = c)
    (event : Event) (deadline : Nat) : Atomic isIdle c (onBlockUntil id event deadline) s := by
  rcases onBlockUntil_cases s id event deadline with
    ⟨e, heq⟩ | ⟨e, s', hblock, heq⟩ | ⟨o, s₁, hevent, hcan, hblock, heq⟩
  · exact atomic_refused heq
  · exact (atomic_onBlock hc ht hcpu event).congr (heq.trans hblock.symm)
  intro queues m h
  obtain ⟨m', h'⟩ := keepsQueues_onBlockUntil hc ht hcpu event deadline queues m h
  subst hevent
  refine .inr ⟨o, _, m', Prod.ext ?_ rfl, h'⟩
  rw [heq, insert_of_canInsert deadline (canInsert_onBlock ht hblock hcan)]
  rfl

/-! ## All processors -/

/-- A call that is refused leaves the state as it was. -/
def Unchanged {σ α : Type} (call : Prog Error σ α) (s : σ) : Prop :=
  ∀ e s', call s = (.error e, s') → s' = s

namespace Processors

variable {s : ProcState n}

theorem unchanged_onHome {call : Prog Error (SchedState n) Outcome} (h : s.Sorted isIdle)
    (hcall : ∀ t, s.threads.get? id = some t → t.cpu < cpus →
      Atomic isIdle t.cpu call ⟨s.processors.queues t.cpu, s.threads⟩) :
    Unchanged (onHome id call) s := by
  intro e s' heq
  unfold onHome at heq
  simp only [Prog.run_bind, Prog.get, Prog.ofExcept, home] at heq
  cases ht : s.threads.get? id with
  | none =>
    rw [ht] at heq
    exact (Prod.mk.inj heq).2.symm
  | some t =>
    rw [ht] at heq
    by_cases hcpu : t.cpu < cpus
    · obtain ⟨m, h⟩ := h
      rw [← Function.update_eq_self t.cpu s.processors.queues] at h
      simp only [hcpu, ↓reduceIte, onCpu, Prog.zoom] at heq
      rcases hcall t ht hcpu _ m h with ⟨e', hrefused⟩ | ⟨a, s₁, -, hdone, -⟩
      · rw [hrefused] at heq
        cases heq
        simp only [Function.update_eq_self]
      · rw [hdone] at heq
        simp only [Except.mapError, outcome] at heq
        split at heq <;> cases heq
    · simp only [hcpu, ↓reduceIte] at heq
      exact (Prod.mk.inj heq).2.symm

end Processors

namespace SchedCall

variable {s : ProcState n}

open Processors (unchanged_onHome)

/-- A call that is refused changes nothing, in every state that is reached and for every thread,
dead or alive. The calls that put a thread into a queue are made for threads that are not idle. -/
theorem refused_call_changes_nothing (isIdle : ThreadId → Prop) (s : ProcState n)
    (h : Reached isIdle s) (id : ThreadId) :
    (¬ isIdle id → Unchanged (Processors.start id) s ∧ Unchanged (Processors.onWake id) s ∧
      Unchanged (Processors.resume id) s ∧ Unchanged (Processors.yieldNow id) s) ∧
    (∀ event, Unchanged (Processors.onBlock id event) s) ∧
    (∀ event deadline, Unchanged (Processors.onBlockUntil id event deadline) s) ∧
    Unchanged (Processors.suspend id) s ∧ Unchanged (Processors.fault id) s ∧
    Unchanged (Processors.exit id) s ∧
    ∀ priority, Unchanged (Processors.setPriority id priority) s := by
  have hs := sorted_of_reached h
  have hready : ∀ event, (event = .start ∨ event = .resume) → ∀ state st,
      transition state event = some st → st = .ready := by
    intro event hevent state st hst
    exact transition_wakes hst (hevent.imp_right fun hresume => .inr (.inl hresume))
  refine ⟨fun hid => ⟨?_, ?_, ?_, ?_⟩, fun event => ?_, fun event deadline => ?_, ?_, ?_, ?_,
    fun priority => ?_⟩
  · exact unchanged_onHome hs fun t ht hc =>
      atomic_becomesReady hc hid ht rfl (hready .start (.inl rfl) t.state)
  · exact unchanged_onHome hs fun t ht hc => atomic_onWake hc hid ht rfl
  · exact unchanged_onHome hs fun t ht hc =>
      atomic_becomesReady hc hid ht rfl (hready .resume (.inr rfl) t.state)
  · exact unchanged_onHome hs fun t ht hc => atomic_yieldNow hc hid ht rfl
  · exact unchanged_onHome hs fun t ht hc => atomic_onBlock hc ht rfl event
  · exact unchanged_onHome hs fun t ht hc => atomic_onBlockUntil hc ht rfl event deadline
  · exact unchanged_onHome hs fun t ht hc =>
      atomic_leavesTheProcessor hc ht rfl fun _ hst => transition_leaves hst (by simp)
  · exact unchanged_onHome hs fun t ht hc =>
      atomic_leavesTheProcessor hc ht rfl fun _ hst => transition_leaves hst (by simp)
  · exact unchanged_onHome hs fun t ht hc => atomic_exit hc ht rfl
  · exact unchanged_onHome hs fun t ht hc => atomic_setPriority hc ht rfl priority

/-- A thread that was started twice: the second start is refused. -/
theorem refused_call_changes_nothing_started :
    let s := (SchedCall.start ⟨0, 1⟩).run twoThreads
    (Processors.start ⟨0, 1⟩ s).1 = .error .invalidState ∧ (Processors.start ⟨0, 1⟩ s).2 = s := by
  intro s
  have hreached : Reached (· = (⟨1, 1⟩ : ThreadId)) s :=
    .call _ _ (.initial _ initial_twoThreads) (by simp [Allowed])
  have hrefused : (Processors.start ⟨0, 1⟩ s).1 = .error .invalidState := by decide +kernel
  exact ⟨hrefused, ((refused_call_changes_nothing _ s hreached ⟨0, 1⟩).1 (by simp)).1 _ _
    (Prod.ext hrefused rfl)⟩

/-- Starting the idle thread is refused when it comes to the queue; the thread is ready by then. -/
theorem refused_start_of_idle_thread :
    let s := (SchedCall.setIdle ⟨1, 1⟩).run twoThreads
    Reached (· = (⟨1, 1⟩ : ThreadId)) s ∧
    (Processors.start ⟨1, 1⟩ s).1 = .error .invalidArgument ∧
    (s.threads.get? ⟨1, 1⟩).map (·.state) = some .inactive ∧
    ((Processors.start ⟨1, 1⟩ s).2.threads.get? ⟨1, 1⟩).map (·.state) = some .ready := by
  refine ⟨.call _ _ (.initial _ initial_twoThreads) rfl, ?_⟩
  decide +kernel

end SchedCall

end Audhsos
