import Audhsos.Ipc.Notify
import Audhsos.Sched.Reachable
import Audhsos.Sched.Views

/-!
The invariant of the notifications. A recorded waiter is blocked on its notification and the word is
empty; a thread whose record names a notification is its waiter. A call of the scheduler moves at
most the thread it names.
-/

namespace Audhsos

open Lib Threads Processors Option Function Objects

variable {n : Nat} {isIdle : ThreadId → Prop}

/-! ## Where a thread stands -/

/-- What a thread waits on, its home, and whether it is blocked. -/
structure Standing where
  wait : Wait
  cpu : Nat
  onNotification : Bool
  blocked : Bool
deriving DecidableEq

variable (moving : Option ThreadId)

/-- Where a thread stands; of one that moves, the state is left out. -/
def standing (j : ThreadId) (t : Thread) : Standing where
  wait := t.wait
  cpu := t.cpu
  onNotification := moving ≠ some j ∧ t.state = .blockedNotification
  blocked := moving ≠ some j ∧ Ipc.isBlocked t.state

theorem blind_standing : Blind (standing moving) :=
  ⟨fun _ _ => rfl, fun _ _ _ => rfl, fun _ _ _ => rfl⟩

/-- The events that block a thread or end a wait. -/
def Event.parks : Event → Bool
  | .blockSend | .blockRecv | .blockReply | .blockNotification | .wake | .suspend | .exit => true
  | _ => false

theorem silent_moving (id : ThreadId) (event : Event) : Silent (standing (some id)) id event :=
  fun _ _ _ => by simp [standing]

theorem silent_standing (id : ThreadId) {event : Event}
    (he : event.parks = false) : Silent (standing moving) id event := by
  intro t next htr
  cases hst : t.state <;> cases event <;>
    simp_all [transition, Event.parks, standing, Ipc.isBlocked] <;> subst htr <;> simp

namespace SchedCall

def moves : SchedCall → Option ThreadId
  | .onBlock id _ | .onBlockUntil id _ _ | .onWake id | .suspend id | .exit id => some id
  | _ => none

theorem sees_run (call : SchedCall) (s : ProcState n) :
    (call.run s).threads.seen (standing call.moves) = s.threads.seen (standing call.moves) := by
  have hv := blind_standing call.moves
  cases call with
  | start id => exact sees_onHome id (Scheduler.sees_becomesReady hv (silent_standing _ _ rfl)) s
  | onBlock id event =>
    exact sees_onHome id (Scheduler.sees_onBlock hv fun _ => silent_moving id event) s
  | onBlockUntil id event deadline =>
    exact sees_onHome id
      (Scheduler.sees_onBlockUntil hv (fun _ => silent_moving id event) deadline) s
  | onWake id => exact sees_onHome id (Scheduler.sees_onWake hv (silent_moving id _)) s
  | suspend id =>
    exact sees_onHome id (Scheduler.sees_leavesTheProcessor hv (silent_moving id .suspend)) s
  | resume id => exact sees_onHome id (Scheduler.sees_becomesReady hv (silent_standing _ _ rfl)) s
  | fault id =>
    exact sees_onHome id (Scheduler.sees_leavesTheProcessor hv (silent_standing _ _ rfl)) s
  | exit id => exact sees_onHome id (Scheduler.sees_exit hv (silent_moving id _)) s
  | yieldNow id => exact sees_onHome id (Scheduler.sees_yieldNow hv (silent_standing _ _ rfl)) s
  | setPriority id priority => exact sees_onHome id (hv.unqueued.keeps_setPriority id priority) s
  | tick => exact sees_tick hv s
  | expired now => exact sees_expired hv now s
  | pickNext =>
    exact sees_pickNext hv (fun _ => silent_standing _ _ rfl)
      (fun _ => silent_standing _ _ rfl) (fun _ => silent_standing _ _ rfl) s
  | select | setIdle | adopt => rfl

end SchedCall

/-! ## Blocking and waking succeed -/

namespace Processors

variable {s : ProcState n} {id : ThreadId} {t : Thread}

theorem onHome_run {call : Prog Error (SchedState n) Outcome}
    (ht : s.threads.get? id = some t) (hcpu : t.cpu < cpus) :
    (onHome id call s).2.threads = (call ⟨s.processors.queues t.cpu, s.threads⟩).2.threads ∧
      ∀ answer, (call ⟨s.processors.queues t.cpu, s.threads⟩).1 = .ok answer →
        ∃ o, (onHome id call s).1 = .ok o := by
  unfold onHome
  simp only [Prog.run_bind, Prog.get, Prog.ofExcept, home, ht, hcpu, if_true, onCpu, Prog.zoom]
  generalize call ⟨s.processors.queues t.cpu, s.threads⟩ = answer
  obtain ⟨e | a, s'⟩ := answer
  · exact ⟨rfl, fun _ h => by cases h⟩
  dsimp only [Except.mapError]
  unfold outcome
  split
  · exact ⟨rfl, fun _ _ => ⟨_, rfl⟩⟩
  · split
    · exact ⟨rfl, fun _ _ => ⟨_, rfl⟩⟩
    · exact ⟨rfl, fun _ _ => ⟨_, rfl⟩⟩

theorem onWake_ok (h : s.Sorted isIdle) (hid : ¬ isIdle id) (ht : s.threads.get? id = some t)
    (hcpu : t.cpu < cpus) (hblocked : Ipc.isBlocked t.state = true) :
    ∃ o, (onWake id s).1 = .ok o := by
  obtain ⟨m, h⟩ := h
  rw [← update_eq_self t.cpu s.processors.queues] at h
  have hready : t.state ≠ .ready := fun heq => by simp [heq, Ipc.isBlocked] at hblocked
  have htr : transition t.state .wake = some .ready := by
    cases hst : t.state <;> simp_all [Ipc.isBlocked, transition]
  obtain ⟨o, s', m', hrun, -⟩ := becomesReady_spec (s := ⟨s.processors.queues t.cpu, s.threads⟩)
    h hcpu hid ht rfl htr
  refine (onHome_run ht hcpu).2 o ?_
  have heq : Scheduler.onWake id ⟨s.processors.queues t.cpu, s.threads⟩ =
      Scheduler.becomesReady id .wake ⟨s.processors.queues t.cpu, s.threads⟩ := by
    simp [Scheduler.onWake, bind, Scheduler.getThread, ht, hready]
  rw [heq, hrun]

theorem onBlock_run (h : s.Sorted isIdle) (ht : s.threads.get? id = some t)
    (hrunning : t.state = .running) :
    t.cpu < cpus ∧ ∃ o s', Scheduler.onBlock id .blockNotification
        ⟨s.processors.queues t.cpu, s.threads⟩ = (.ok o, s') ∧
      s'.threads.key id = some (.blockedNotification, t.cpu, t.priority) := by
  obtain ⟨m, h⟩ := h
  have hcpu : t.cpu < cpus := (h.running id _ _ (hrunning ▸ Threads.key_of_get? ht)).1
  rw [← update_eq_self t.cpu s.processors.queues] at h
  have htr : transition t.state .blockNotification = some .blockedNotification := by
    rw [hrunning]
    rfl
  obtain ⟨o, s', m', hrun, hkey, -⟩ := leavesTheProcessor_spec
    (s := ⟨s.processors.queues t.cpu, s.threads⟩) h hcpu ht rfl htr (by decide) (by decide)
  refine ⟨hcpu, o, s', ?_, by rw [hkey.key, update_self]⟩
  rw [← hrun]
  simp [Scheduler.onBlock, bind, Prog.require, Event.blockedState]

theorem state_of_key {threads : Threads n} {c p : Nat}
    (h : threads.key id = some (.blockedNotification, c, p)) :
    ∃ t, threads.get? id = some t ∧ t.state = .blockedNotification := by
  obtain ⟨t, ht, hk⟩ := Threads.key_eq_some.mp h
  exact ⟨t, ht, congrArg Prod.fst hk⟩

section

variable (h : s.Sorted isIdle) (ht : s.threads.get? id = some t) (hrunning : t.state = .running)
include h ht hrunning

theorem onBlock_state :
    ∃ t', (onBlock id .blockNotification s).2.threads.get? id = some t' ∧
      t'.state = .blockedNotification := by
  obtain ⟨hcpu, o, s', hrun, hkey⟩ := onBlock_run h ht hrunning
  have hthreads : (onBlock id .blockNotification s).2.threads = _ := (onHome_run ht hcpu).1
  rw [hrun] at hthreads
  rw [hthreads]
  exact state_of_key hkey

theorem onBlockUntil_state (deadline : Nat)
    (hok : ∃ o, (onBlockUntil id .blockNotification deadline s).1 = .ok o) :
    ∃ t', (onBlockUntil id .blockNotification deadline s).2.threads.get? id = some t' ∧
      t'.state = .blockedNotification := by
  obtain ⟨hcpu, o, s', hrun, hkey⟩ := onBlock_run h ht hrunning
  have hthreads : (onBlockUntil id .blockNotification deadline s).2.threads = _ :=
    (onHome_run ht hcpu).1
  cases hcan : (s.processors.queues t.cpu).deadlines.canInsert s.threads id with
  | error e =>
    have hrefused : Scheduler.onBlockUntil id .blockNotification deadline
        ⟨s.processors.queues t.cpu, s.threads⟩ =
          (.error e, ⟨s.processors.queues t.cpu, s.threads⟩) := by
      simp [Scheduler.onBlockUntil, bind, Prog.require, Prog.get, Prog.ofExcept, hcan]
    obtain ⟨o', hok⟩ := hok
    simp [onBlockUntil, onHome, Prog.run_bind, Prog.get, Prog.ofExcept, home, ht, hcpu, onCpu,
      Prog.zoom, hrefused, Except.mapError] at hok
  | ok _ =>
    have hinsert : (Scheduler.onBlockUntil id .blockNotification deadline
        ⟨s.processors.queues t.cpu, s.threads⟩).2.threads =
          (s'.scheduler.deadlines.insert s'.threads id deadline).2.2 := by
      simp [Scheduler.onBlockUntil, bind, Prog.require, Prog.get, Prog.ofExcept, hcan, hrun]
    rw [hthreads, hinsert]
    refine state_of_key (c := t.cpu) (p := t.priority) ?_
    rw [(Deadlines.sameClock_insert _ _ _ _).key]
    exact hkey

end

end Processors

/-! ## The invariant -/

namespace Ipc

variable {z : Sizes} {s s' : System z} {w : Option ThreadId}

def procs (s : System z) : ProcState z.threads := ⟨s.scheduler, s.objects.threads⟩

structure Inv (isIdle : ThreadId → Prop) (s : System z) : Prop where
  sorted : (procs s).Sorted isIdle
  homes : ∀ w t, s.objects.thread? w = some t → t.cpu < cpus
  busy : ∀ w t, s.objects.thread? w = some t → isBlocked t.state = true → ¬ isIdle w
  waiter : ∀ k held w, s.objects.notification? k = some held → held.waiter = some w →
    held.word = 0 ∧ ∃ t, s.objects.thread? w = some t ∧ t.wait = .notification k ∧
      t.state = .blockedNotification
  record : ∀ w t k, s.objects.thread? w = some t → t.wait = .notification k →
    ∃ held, s.objects.notification? k = some held ∧ held.waiter = some w

/-- Every thread but `w` stands where it stood, and none has left its home. -/
structure Moved (w : Option ThreadId) (s s' : System z) : Prop where
  still : ∀ j, w ≠ some j → (s'.objects.thread? j).map (standing none j) =
    (s.objects.thread? j).map (standing none j)
  cpu : ∀ j, (s'.objects.thread? j).map (·.cpu) = (s.objects.thread? j).map (·.cpu)

namespace Moved

variable {w : Option ThreadId} {s'' : System z}

theorem trans (h : Moved w s s') (h' : Moved w s' s'') : Moved w s s'' :=
  ⟨fun j hj => (h'.still j hj).trans (h.still j hj), fun j => (h'.cpu j).trans (h.cpu j)⟩

theorem of_threads (h : s'.objects.threads = s.objects.threads) : Moved w s s' := by
  refine ⟨fun j _ => ?_, fun j => ?_⟩ <;> simp only [thread?, h]

theorem of_seen (h : (procs s').threads.seen (standing w) = (procs s).threads.seen (standing w)) :
    Moved w s s' := by
  refine ⟨fun j hj => ?_, fun j => ?_⟩
  · have hview : standing w j = standing none j := by
      funext t
      simp [standing, hj]
    have hseen := congrArg (Option.map Prod.snd) (congrFun h j)
    simpa [Threads.seen, thread?, procs, comp_def, hview] using hseen
  · have hseen := congrArg (Option.map fun o => Standing.cpu o.2) (congrFun h j)
    simpa [Threads.seen, thread?, procs, comp_def, standing] using hseen

theorem before (h : Moved w s s') {j : ThreadId} {t' : Thread} (hj : w ≠ some j)
    (ht' : s'.objects.thread? j = some t') :
    ∃ t, s.objects.thread? j = some t ∧ t.wait = t'.wait ∧
      (t.state = .blockedNotification ↔ t'.state = .blockedNotification) ∧
      isBlocked t.state = isBlocked t'.state := by
  have hstill := h.still j hj
  rw [ht', map_some, eq_comm, map_eq_some_iff] at hstill
  obtain ⟨t, ht, heq⟩ := hstill
  refine ⟨t, ht, congrArg Standing.wait heq, ?_, ?_⟩
  · simpa [standing] using congrArg Standing.onNotification heq
  · simpa [standing] using congrArg Standing.blocked heq

theorem symm (h : Moved w s s') : Moved w s' s :=
  ⟨fun j hj => (h.still j hj).symm, fun j => (h.cpu j).symm⟩

end Moved

/-- One thread may have moved, and one notification may have changed; what the invariant says of
the two has to be shown, and the rest follows. -/
theorem Inv.change {k : Option NotificationId} (h : Inv isIdle s)
    (hmoved : Moved w s s') (hsorted : (procs s').Sorted isIdle)
    (hbusy : ∀ id t, w = some id → s'.objects.thread? id = some t → isBlocked t.state = true →
      ¬ isIdle id)
    (hother : ∀ j, k ≠ some j → s'.objects.notification? j = s.objects.notification? j)
    (hold : ∀ id t j, w = some id → s.objects.thread? id = some t → t.wait = .notification j →
      k = some j)
    (hnew : ∀ id t j, w = some id → s'.objects.thread? id = some t → t.wait = .notification j →
      k = some j)
    (hwaiter : ∀ j held id, k = some j → s'.objects.notification? j = some held →
      held.waiter = some id → held.word = 0 ∧ ∃ t, s'.objects.thread? id = some t ∧
        t.wait = .notification j ∧ t.state = .blockedNotification)
    (hrecord : ∀ j id t, k = some j → s'.objects.thread? id = some t → t.wait = .notification j →
      ∃ held, s'.objects.notification? j = some held ∧ held.waiter = some id) : Inv isIdle s' := by
  refine ⟨hsorted, fun id t' ht' => ?_, fun id t' ht' hblocked => ?_, fun j held id hj hid => ?_,
    fun id t' j ht' hwait => ?_⟩
  · have hcpu := hmoved.cpu id
    rw [ht', map_some, eq_comm, map_eq_some_iff] at hcpu
    obtain ⟨t, ht, heq⟩ := hcpu
    exact heq ▸ h.homes id t ht
  · by_cases hw : w = some id
    · exact hbusy id t' hw ht' hblocked
    · obtain ⟨t, ht, -, -, heq⟩ := hmoved.before hw ht'
      exact h.busy id t ht (heq.trans hblocked)
  · by_cases hk : k = some j
    · exact hwaiter j held id hk hj hid
    rw [hother j hk] at hj
    obtain ⟨hword, t, ht, hwait, hstate⟩ := h.waiter j held id hj hid
    refine ⟨hword, ?_⟩
    have hw : w ≠ some id := fun hw => hk (hold id t j hw ht hwait)
    obtain ⟨t', ht', hwait', hstate', -⟩ := hmoved.symm.before hw ht
    exact ⟨t', ht', hwait'.trans hwait, hstate'.mpr hstate⟩
  · by_cases hk : k = some j
    · exact hrecord j id t' hk ht' hwait
    · have hw : w ≠ some id := fun hw => hk (hnew id t' j hw ht' hwait)
      obtain ⟨t, ht, hwait', -⟩ := hmoved.before hw ht'
      rw [hother j hk]
      exact h.record id t j ht (hwait'.trans hwait)

/-! ## Calls of the scheduler -/

/-- A call of the scheduler that moves at most the thread `w`. -/
structure Stepped (isIdle : ThreadId → Prop) (w : Option ThreadId) (s s' : System z) : Prop where
  objects : s'.objects = { s.objects with threads := s'.objects.threads }
  sorted : (procs s').Sorted isIdle
  moved : Moved w s s'
  wait : ∀ j, (s'.objects.thread? j).map (·.wait) = (s.objects.thread? j).map (·.wait)

theorem Stepped.notification? (h : Stepped isIdle w s s')
    (k : NotificationId) : s'.objects.notification? k = s.objects.notification? k := by
  rw [h.objects]
  rfl

def scheduled (call : SchedCall) (s : System z) : System z :=
  let after := call.run (procs s)
  { objects := { s.objects with threads := after.threads }, scheduler := after.processors }

theorem stepped_call (c : SchedCall) (hsorted : (procs s).Sorted isIdle)
    (hallowed : c.Allowed isIdle (procs s)) : Stepped isIdle c.moves s (scheduled c s) := by
  have hseen := c.sees_run (procs s)
  refine ⟨rfl, SchedCall.sorted_run hsorted c hallowed, .of_seen hseen, fun j => ?_⟩
  have hwait := congrArg (Option.map fun o => Standing.wait o.2) (congrFun hseen j)
  simpa [Threads.seen, thread?, procs, scheduled, comp_def, standing] using hwait

/-- A call of the scheduler keeps the invariant, if it ends no wait on a notification. -/
theorem Inv.stepped (h : Inv isIdle s) (hs : Stepped isIdle w s s')
    (hfree : ∀ id t j, w = some id → s.objects.thread? id = some t → t.wait ≠ .notification j)
    (hid : ∀ id, w = some id → ¬ isIdle id) : Inv isIdle s' := by
  refine h.change (k := none) hs.moved hs.sorted (fun id _ hw _ _ => hid id hw)
    (fun j _ => hs.notification? j) (fun id t j hw ht hwait => absurd hwait (hfree id t j hw ht))
    (fun id t' j hw ht' hwait => ?_) (by simp) (by simp)
  have hsame := hs.wait id
  rw [ht', map_some, hwait, eq_comm, map_eq_some_iff] at hsame
  obtain ⟨t, ht, heq⟩ := hsame
  exact absurd heq (hfree id t j hw ht)

/-- A wait has ended: the notification has no waiter, and the thread no record. -/
theorem Inv.freed {w : ThreadId} {k : NotificationId} (h : Inv isIdle s)
    (hmoved : Moved (some w) s s') (hsorted : (procs s').Sorted isIdle)
    (hbusy : ∀ t, s'.objects.thread? w = some t → isBlocked t.state = true → ¬ isIdle w)
    (hother : ∀ j, j ≠ k → s'.objects.notification? j = s.objects.notification? j)
    (hnone : ∀ held, s'.objects.notification? k = some held → held.waiter = none)
    (hforgot : ∀ t j, s'.objects.thread? w = some t → t.wait ≠ .notification j)
    (hheld : ∀ held x, s.objects.notification? k = some held → held.waiter = some x → x = w)
    (hrecord : ∀ t j, s.objects.thread? w = some t → t.wait = .notification j → j = k) :
    Inv isIdle s' := by
  refine h.change (w := some w) (k := some k) hmoved hsorted ?_ ?_ ?_ ?_ ?_ ?_
  · rintro id t ⟨⟩ ht hblocked
    exact hbusy t ht hblocked
  · exact fun j hj => hother j fun heq => hj (by rw [heq])
  · rintro id t j ⟨⟩ ht hwait
    rw [hrecord t j ht hwait]
  · rintro id t j ⟨⟩ ht hwait
    exact absurd hwait (hforgot t j ht)
  · rintro j held id ⟨⟩ hj hid
    rw [hnone held hj] at hid
    cases hid
  · rintro j id t ⟨⟩ ht hwait
    by_cases hid : w = id
    · subst hid
      exact absurd hwait (hforgot t _ ht)
    · obtain ⟨t₀, ht₀, hwait₀, -⟩ := hmoved.before (fun heq => hid (some.inj heq)) ht
      obtain ⟨held, hk, hwaiter⟩ := h.record id t₀ _ ht₀ (hwait₀.trans hwait)
      exact absurd (hheld held id hk hwaiter).symm hid

end Ipc

end Audhsos
