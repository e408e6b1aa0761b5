import Audhsos.Ipc.NotifyEnd

/-!
Runs of calls on notifications. A history notes the bits that were signalled and when a word was
consumed; after every run each word is what the history says is pending.
-/

namespace Audhsos

open Lib Threads Objects Option Pool

variable {z : Sizes} {isIdle : ThreadId → Prop}

namespace Ipc

/-! ## The history -/

/-- Bits were signalled, or the word was consumed. -/
inductive Note where
  | signalled (notification : NotificationId) (bits : Nat)
  | consumed (notification : NotificationId)
deriving DecidableEq

/-- The bits that were signalled since the last consumption; the latest note comes first. -/
def pending (k : NotificationId) : List Note → Nat
  | [] => 0
  | .signalled j bits :: log => if j = k then pending k log ||| bits else pending k log
  | .consumed j :: log => if j = k then 0 else pending k log

variable (k : NotificationId)

/-- The notes of bits for a notification that is there: they are signalled, whatever is answered,
and are consumed at once when they wake the thread that waits. -/
def noted (o : Objects z) (bits : Nat) (wakes : Bool) (log : List Note) : List Note :=
  match o.notification? k with
  | none => log
  | some _ =>
    if wakes then .consumed k :: .signalled k bits :: log else .signalled k bits :: log

/-! ## Runs -/

inductive Act where
  | create
  | signal (notification : NotificationId) (bits : Nat)
  | deliver (vector : Nat)
  | wait (waiter : ThreadId) (notification : NotificationId)
  | waitUntil (waiter : ThreadId) (notification : NotificationId) (deadline now : Nat)
  | poll (notification : NotificationId)
  | expire (now : Nat)
  | cancel (thread : ThreadId)
  | schedule (call : SchedCall)
deriving DecidableEq

namespace Act

def wakes : Except Error Outcome → Bool
  | .ok outcome => outcome.wakeup.isSome
  | .error _ => false

def rings : Except Error (Option Outcome) → Bool
  | .ok (some outcome) => outcome.wakeup.isSome
  | _ => false

/-- The notes of an interrupt: the bit it is bound to, if it is bound. -/
def rung (o : Objects z) (vector : Nat) (rings : Bool) (log : List Note) : List Note :=
  match bound o vector with
  | none => log
  | some (k, bit) => noted k o (2 ^ (bit % 64)) rings log

/-- The note of a wait, unless it blocked or was refused. -/
def taken (answer : Except Error Outcome) (log : List Note) : List Note :=
  match answer with
  | .ok outcome => if outcome.blocked then log else .consumed k :: log
  | .error _ => log

def run (s : System z × List Note) : Act → System z × List Note
  | create => ((store (onNotifications (allocate .new)) s.1).2, s.2)
  | signal k bits =>
    ((Ipc.signal k bits s.1).2, noted k s.1.objects bits (wakes (Ipc.signal k bits s.1).1) s.2)
  | deliver vector =>
    ((Ipc.deliver vector s.1).2, rung s.1.objects vector (rings (Ipc.deliver vector s.1).1) s.2)
  | wait w k => ((Ipc.wait w k s.1).2, taken k (Ipc.wait w k s.1).1 s.2)
  | waitUntil w k deadline now =>
    ((Ipc.waitUntil w k deadline now s.1).2, taken k (Ipc.waitUntil w k deadline now s.1).1 s.2)
  | poll k => ((store (Ipc.poll k) s.1).2, taken k (store (Ipc.poll k) s.1).1 s.2)
  | expire now => ((Ipc.expire now s.1).2, s.2)
  | cancel thread => ((store (Ipc.cancel thread) s.1).2, s.2)
  | schedule call => (scheduled call s.1, s.2)

/-- A thread that waits runs, and the scheduler ends no wait on a notification by itself: a thread
that is suspended or ends is taken out of what it waits on with `cancel` before. -/
def Allowed (isIdle : ThreadId → Prop) (s : System z) : Act → Prop
  | wait w _ | waitUntil w _ _ _ => ∃ t, s.objects.thread? w = some t ∧ t.state = .running
  | schedule call => call.Allowed isIdle (procs s) ∧
      ∀ w t k, call.moves = some w → s.objects.thread? w = some t → t.wait ≠ .notification k
  | _ => True

def AllAllowed (isIdle : ThreadId → Prop) : System z × List Note → List Act → Prop
  | _, [] => True
  | s, act :: acts => act.Allowed isIdle s.1 ∧ AllAllowed isIdle (act.run s) acts

/-- A system in which nothing has happened: no thread runs or waits, and no bit is set. -/
structure Initial (s : System z) : Prop where
  sched : SchedCall.Initial (procs s)
  threads : ∀ w t, s.objects.thread? w = some t → t.wait = .nothing ∧ t.cpu < cpus
  notes : ∀ k held, s.objects.notification? k = some held → held = .new

/-- The invariant, and that each word is what is pending. -/
structure Account (isIdle : ThreadId → Prop) (s : System z × List Note) : Prop where
  inv : Inv isIdle s.1
  word : ∀ k held, s.1.objects.notification? k = some held → held.word = pending k s.2
  gone : ∀ k, s.1.objects.notification? k = none → pending k s.2 = 0

theorem account_initial {s : System z} (h : Initial s) : Account isIdle (s, []) := by
  refine ⟨⟨SchedCall.sorted_initial h.sched, fun w t ht => (h.threads w t ht).2,
    fun w t ht hblocked => ?_, fun k held w hk hw => ?_, fun w t k ht hwait => ?_⟩,
    fun k held hk => ?_, fun _ _ => rfl⟩
  · have hstate := (h.sched.threads w t ht).1
    simp [hstate, isBlocked] at hblocked
  · rw [h.notes k held hk] at hw
    cases hw
  · rw [(h.threads w t ht).1] at hwait
    cases hwait
  · rw [h.notes k held hk]
    rfl

section

variable {s : System z × List Note} {after : System z} {k : NotificationId} {old : Notification}

theorem Account.same (h : Account isIdle s) (hinv : Inv isIdle after)
    (hword : ∀ j, (after.objects.notification? j).map (·.word) =
      (s.1.objects.notification? j).map (·.word)) : Account isIdle (after, s.2) := by
  refine ⟨hinv, fun k held hk => ?_, fun k hk => ?_⟩
  · have hsame := hword k
    rw [hk, map_some, eq_comm, map_eq_some_iff] at hsame
    obtain ⟨old, hold, heq⟩ := hsame
    exact heq.symm.trans (h.word k old hold)
  · have hsame := hword k
    rw [hk, map_none, eq_comm, map_eq_none_iff] at hsame
    exact h.gone k hsame

theorem Account.one {held : Notification} {log : List Note}
    (h : Account isIdle s) (hinv : Inv isIdle after)
    (hothers : ∀ j, j ≠ k → after.objects.notification? j = s.1.objects.notification? j)
    (hk : after.objects.notification? k = some held) (hword : held.word = pending k log)
    (hlog : ∀ j, j ≠ k → pending j log = pending j s.2) : Account isIdle (after, log) := by
  refine ⟨hinv, fun j other hj => ?_, fun j hj => ?_⟩
  · by_cases heq : j = k
    · subst heq
      obtain rfl := mem_unique hk hj
      exact hword
    · rw [hlog j heq]
      exact h.word j other ((hothers j heq).symm.trans hj)
  · by_cases heq : j = k
    · subst heq
      rw [show after.objects.notification? j = _ from hk] at hj
      cases hj
    · rw [hlog j heq]
      exact h.gone j ((hothers j heq).symm.trans hj)

theorem Account.signalled {bits : Nat}
    {outcome : Outcome} (h : Account isIdle s) (hold : s.1.objects.notification? k = some old)
    (hs : Signalled isIdle k old bits s.1 outcome after) :
    Account isIdle (after, noted k s.1.objects bits outcome.wakeup.isSome s.2) := by
  have hword := h.word k old hold
  unfold noted
  rw [hold]
  obtain ⟨hnone, hk⟩ | ⟨⟨w, -, hwakeup⟩, -, hk⟩ := hs.word
  · refine h.one hs.inv hs.others hk ?_ fun j hj => ?_
    · simp [hnone, pending, hword]
    · simp [hnone, pending, Ne.symm hj]
  · refine h.one hs.inv hs.others hk ?_ fun j hj => ?_
    · simp [hwakeup, pending]
    · simp [hwakeup, pending, Ne.symm hj]

theorem Account.waited {w : ThreadId} {answer : Except Error Outcome} (h : Account isIdle s)
    (hold : s.1.objects.notification? k = some old) (hw : Waited isIdle w k old s.1 answer after) :
    Account isIdle (after, taken k answer s.2) := by
  have hword := h.word k old hold
  obtain ⟨outcome, rfl, hblocked, -, hk⟩ | ⟨outcome, rfl, hblocked, hzero, hk⟩ | ⟨⟨e, rfl⟩, hk⟩ :=
    hw.word
  · refine h.one hw.inv hw.others hk ?_ fun j hj => ?_
    · simp [taken, hblocked, pending]
    · simp [taken, hblocked, pending, Ne.symm hj]
  · refine h.one hw.inv hw.others hk ?_ fun j _ => ?_
    · simp [taken, hblocked, ← hword, hzero]
    · simp [taken, hblocked]
  · exact h.one hw.inv hw.others hk hword fun _ _ => rfl

theorem Account.created (h : Account isIdle s) :
    Account isIdle ((store (onNotifications (allocate .new)) s.1).2, s.2) := by
  obtain ⟨after, hafter⟩ : ∃ after, after = (store (onNotifications
    (allocate .new)) s.1).2 := ⟨_, rfl⟩
  have hnotes : after.objects.notifications =
      (allocate .new s.1.objects.notifications).2 := by rw [hafter]; rfl
  have hthreads : after.objects.threads = s.1.objects.threads := by rw [hafter]; rfl
  have hscheduler : after.scheduler = s.1.scheduler := by rw [hafter]; rfl
  rw [← hafter]
  obtain heq | ⟨k, pool, heq, hfresh, hfind⟩ := s.1.objects.notifications.allocate_cases .new
  · rw [heq] at hnotes
    exact h.same (h.inv.congr hthreads hnotes hscheduler) fun j => by
      simp only [notification?, hnotes]
  rw [heq] at hnotes
  have hnone : s.1.objects.notification? k = none := by simp [notification?, hfresh]
  have hothers : ∀ j, j ≠ k →
      after.objects.notification? j = s.1.objects.notification? j := by
    intro j hj
    simp [notification?, hnotes, hfind, hj]
  have hk : after.objects.notification? k = some .new := by simp [notification?, hnotes, hfind]
  refine h.one ?_ hothers hk (h.gone k hnone).symm fun _ _ => rfl
  refine h.inv.change (w := none) (k := some k) (.of_threads hthreads) ?_ (by simp)
    (fun j hj => hothers j fun heq => hj (by rw [heq])) (by simp) (by simp) ?_ ?_
  · unfold procs
    rw [hthreads, hscheduler]
    exact h.inv.sorted
  · rintro j held id ⟨⟩ hj hid
    rw [hk] at hj
    obtain rfl := some.inj hj
    cases hid
  · rintro j id t ⟨⟩ ht hwait
    have ht' : s.1.objects.thread? id = some t := by simpa only [thread?, hthreads] using ht
    obtain ⟨held, hheld, -⟩ := h.inv.record id t k ht' hwait
    rw [hnone] at hheld
    cases hheld

end

theorem account_run {s : System z × List Note} (act : Act) (h : Account isIdle s)
    (hallowed : act.Allowed isIdle s.1) : Account isIdle (act.run s) := by
  cases act with
  | create => exact h.created
  | signal k bits =>
    change Account isIdle
      ((Ipc.signal k bits s.1).2, noted k s.1.objects bits (wakes (Ipc.signal k bits s.1).1) s.2)
    obtain ⟨hnone, hrun⟩ | ⟨old, outcome, after, hold, hrun, hs⟩ := signal_spec h.inv k bits
    · rw [hrun, noted, hnone]
      exact h
    · rw [hrun]
      exact h.signalled hold hs
  | deliver vector =>
    change Account isIdle
      ((Ipc.deliver vector s.1).2, rung s.1.objects vector (rings (Ipc.deliver vector s.1).1) s.2)
    obtain ⟨answer, after, hrun, ⟨hinv, hnotes, hgone, -⟩ | ⟨k, bit, old, outcome, hbound, hold,
      rfl, hs⟩⟩ := deliver_spec h.inv vector
    · have hlog : rung s.1.objects vector (rings (.ok answer)) s.2 = s.2 := by
        unfold rung
        cases hbound : bound s.1.objects vector with
        | none => rfl
        | some target =>
          obtain ⟨k, bit⟩ := target
          dsimp only [noted]
          rw [hgone k bit hbound]
      rw [hrun, hlog]
      exact h.same hinv fun j => by rw [hnotes]
    · rw [hrun, rung, hbound]
      exact h.signalled hold hs
  | wait w k =>
    obtain ⟨t, ht, hrunning⟩ := hallowed
    change Account isIdle
      ((Ipc.wait w k s.1).2, taken k (Ipc.wait w k s.1).1 s.2)
    obtain ⟨-, hrun⟩ | ⟨old, hold, hw⟩ := wait_spec k h.inv ht hrunning
    · rw [hrun]
      exact h
    · exact h.waited hold hw
  | waitUntil w k deadline now =>
    obtain ⟨t, ht, hrunning⟩ := hallowed
    change Account isIdle
      ((Ipc.waitUntil w k deadline now s.1).2, taken k (Ipc.waitUntil w k deadline now s.1).1 s.2)
    obtain ⟨-, hrun⟩ | ⟨old, hold, hw⟩ := waitUntil_spec k deadline now h.inv ht hrunning
    · rw [hrun]
      exact h
    · exact h.waited hold hw
  | poll k =>
    change Account isIdle ((store (Ipc.poll k) s.1).2, taken k (store (Ipc.poll k) s.1).1 s.2)
    obtain ⟨-, hrun⟩ | ⟨old, hold, hrun, hinv⟩ := poll_spec h.inv k
    · rw [hrun]
      exact h
    rw [hrun]
    refine h.one hinv (fun j hj => ?_) (by rw [setNote_note, if_pos rfl, hold]; rfl) ?_ ?_
    · rw [setNote_note, if_neg hj]
    · simp [taken, Outcome.ofValues, Outcome.done, pending]
    · intro j hj
      simp [taken, Outcome.ofValues, Outcome.done, pending, Ne.symm hj]
  | expire now =>
    have hended := expire_spec h.inv now
    exact h.same hended.inv hended.word
  | cancel thread =>
    have hended := cancel_spec h.inv thread
    exact h.same hended.inv hended.word
  | schedule call =>
    obtain ⟨hcall, hfree⟩ := hallowed
    have hstep := stepped_call call h.inv.sorted hcall
    refine h.same (h.inv.stepped hstep hfree fun id hid => ?_) fun j => ?_
    · cases call <;> cases hid <;> exact hcall
    · exact congrArg _ (hstep.notification? j)

theorem account_foldl (acts : List Act) : ∀ s : System z × List Note, Account isIdle s →
    AllAllowed isIdle s acts → Account isIdle (acts.foldl run s) := by
  induction acts with
  | nil => exact fun _ h _ => h
  | cons act acts ih => exact fun s h hallowed => ih _ (account_run act h hallowed.1) hallowed.2

/-- Two threads, of which the second is idle, and no notification yet. -/
def twoThreads : System ⟨1, 2, 1, 1⟩ where
  objects :=
    { processes := .new (by decide), threads := SchedCall.twoThreads.threads
      memory := .new (by decide), endpoints := .new (by decide)
      notifications := .new (by decide), replies := .new (by decide)
      interrupts := .new (by decide), ports := .new (by decide), handles := .new }
  scheduler := .new

theorem initial_twoThreads : Initial twoThreads where
  sched := SchedCall.initial_twoThreads
  threads := by
    intro w t ht
    have hstep : ∀ (pool : Threads 2) (p : Nat),
        (∀ t, pool.get? w = some t → t.wait = .nothing ∧ t.cpu < cpus) →
        ∀ t, Threads.get? (allocate (SchedCall.inactiveThread p) pool).2 w = some t →
          t.wait = .nothing ∧ t.cpu < cpus := by
      intro pool p hpool t ht
      rcases pool.allocate_cases (SchedCall.inactiveThread p) with heq | ⟨new, pool', heq, -, hfind⟩
      · rw [heq] at ht
        exact hpool t ht
      rw [heq] at ht
      unfold Threads.get? at ht hpool
      rw [hfind] at ht
      by_cases hid : w = new
      · rw [if_pos hid] at ht
        obtain rfl := some.inj ht
        exact ⟨rfl, show 0 < cpus by decide⟩
      · rw [if_neg hid] at ht
        exact hpool t ht
    exact hstep _ 0 (hstep _ 5 (by simp [Threads.get?])) t ht
  notes := by simp [twoThreads, notification?]

end Act

end Ipc

end Audhsos
