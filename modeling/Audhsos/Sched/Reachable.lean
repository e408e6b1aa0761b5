import Audhsos.Sched.Operations

/-!
Runs of the processors. A run starts with no thread queued and may make every call in any order, but
an idle thread is only named to a processor as the one to run when there is nothing else. In every
state that is reached, the queues of each processor are the lists of its ready threads.
-/

namespace Audhsos

open Lib Scheduler Threads Function

variable {n : Nat} {isIdle : ThreadId → Prop} {s : ProcState n}

/-- The run queue invariant of all processors. -/
def ProcState.Sorted (isIdle : ThreadId → Prop) (s : ProcState n) : Prop :=
  ∃ m, RunQueues isIdle s.processors.queues s.threads m

variable {id : ThreadId} {c : Nat}

theorem RunQueues.setIdle {queues : Nat → Scheduler} {threads : Threads n}
    {m : Nat → Nat → List ThreadId} (h : RunQueues isIdle queues threads m) (hid : isIdle id) :
    RunQueues isIdle (update queues c ((queues c).setIdle id)) threads m := by
  have hrest : ∀ c', (update queues c ((queues c).setIdle id) c').queues =
      (queues c').queues ∧ (update queues c ((queues c).setIdle id) c').ready =
      (queues c').ready ∧ (update queues c ((queues c).setIdle id) c').current =
      (queues c').current := by
    intro c'
    by_cases hcc : c' = c
    · subst hcc
      simp [Scheduler.setIdle]
    · simp [hcc]
  refine ⟨h.lists.congr (fun c' _ => ⟨(hrest c').1, (hrest c').2.1⟩) fun _ => rfl, h.mem_iff,
    h.priority, h.ready, fun j c' p hj => ?_, fun c' hc' j hj => ?_, fun c' hc' j hj => ?_⟩
  · rw [(hrest c').2.2]
    exact h.running j c' p hj
  · exact h.current c' hc' j ((hrest c').2.2.symm.trans hj)
  · by_cases hcc : c' = c
    · subst hcc
      rw [update_self] at hj
      exact Option.some.inj hj ▸ hid
    · rw [update_of_ne hcc] at hj
      exact h.idle c' hc' j hj

namespace Processors

/-! ## One call -/

theorem sorted_onCpu {α : Type} {call : Prog Error (SchedState n) α} (h : s.Sorted isIdle)
    (hcall : KeepsQueues isIdle c call ⟨s.processors.queues c, s.threads⟩) :
    (onCpu c call s).2.Sorted isIdle := by
  obtain ⟨m, h⟩ := h
  refine hcall s.processors.queues m ?_
  rwa [update_eq_self]

theorem sorted_outcome {o : Outcome} (h : s.Sorted isIdle) : (outcome c o s).2.Sorted isIdle := by
  unfold outcome
  split
  · exact h
  · split
    · exact h
    · exact h

theorem sorted_onHome {call : Prog Error (SchedState n) Outcome} (h : s.Sorted isIdle)
    (hcall : ∀ t, s.threads.get? id = some t → t.cpu < cpus →
      KeepsQueues isIdle t.cpu call ⟨s.processors.queues t.cpu, s.threads⟩) :
    (onHome id call s).2.Sorted isIdle := by
  unfold onHome
  simp only [Prog.run_bind, Prog.get, Prog.ofExcept, home]
  cases ht : s.threads.get? id with
  | none => exact h
  | some t =>
    by_cases hcpu : t.cpu < cpus
    · simp only [hcpu, ↓reduceIte]
      have hs := sorted_onCpu h (hcall t ht hcpu)
      cases hans : onCpu t.cpu call s with
      | mk answer s' =>
        rw [hans] at hs
        cases answer with
        | error e => exact hs
        | ok o => exact sorted_outcome hs
    · simp only [hcpu, ↓reduceIte]
      exact h

theorem sorted_expiredFrom (now fuel c : Nat) (h : s.Sorted isIdle) :
    (expiredFrom now fuel c s).2.Sorted isIdle := by
  induction fuel generalizing c s with
  | zero => exact h
  | succ fuel ih =>
    have hs := sorted_onCpu h (keepsQueues_expired (c := c) now)
    simp only [expiredFrom, Prog.run_bind]
    cases hans : onCpu c (Scheduler.expired now) s with
    | mk answer s' =>
      rw [hans] at hs
      cases answer with
      | error e => exact hs
      | ok id =>
        cases id with
        | none => exact ih (c + 1) hs
        | some id => exact hs

theorem sorted_modifyQueue {f : Scheduler → Scheduler} (h : s.Sorted isIdle)
    (hf : c < cpus → ∀ m, RunQueues isIdle s.processors.queues s.threads m →
      RunQueues isIdle (update s.processors.queues c (f (s.processors.queues c)))
        s.threads m) :
    ({ s with processors := s.processors.modifyQueue c f } : ProcState n).Sorted isIdle := by
  unfold modifyQueue
  split
  · next hc =>
    obtain ⟨m, h⟩ := h
    exact ⟨m, hf hc m h⟩
  · exact h

end Processors

/-! ## Runs -/

inductive SchedCall where
  | start (id : ThreadId)
  | onBlock (id : ThreadId) (event : Event)
  | onBlockUntil (id : ThreadId) (event : Event) (deadline : Nat)
  | onWake (id : ThreadId)
  | suspend (id : ThreadId)
  | resume (id : ThreadId)
  | fault (id : ThreadId)
  | exit (id : ThreadId)
  | yieldNow (id : ThreadId)
  | setPriority (id : ThreadId) (priority : Nat)
  | tick
  | expired (now : Nat)
  | pickNext
  | select (cpu : Nat)
  | setIdle (id : ThreadId)
  | adopt (id : ThreadId)
deriving DecidableEq, Repr

namespace SchedCall

def run (s : ProcState n) : SchedCall → ProcState n
  | .start id => (Processors.start id s).2
  | .onBlock id event => (Processors.onBlock id event s).2
  | .onBlockUntil id event deadline => (Processors.onBlockUntil id event deadline s).2
  | .onWake id => (Processors.onWake id s).2
  | .suspend id => (Processors.suspend id s).2
  | .resume id => (Processors.resume id s).2
  | .fault id => (Processors.fault id s).2
  | .exit id => (Processors.exit id s).2
  | .yieldNow id => (Processors.yieldNow id s).2
  | .setPriority id priority => (Processors.setPriority id priority s).2
  | .tick => (Processors.tick s).2
  | .expired now => (Processors.expired now s).2
  | .pickNext => (Processors.pickNext s).2
  | .select cpu => { s with processors := s.processors.select cpu }
  | .setIdle id => { s with processors := s.processors.setIdle id }
  | .adopt id => { s with processors := s.processors.adopt id }

/-- The idle threads are only ever passed to `setIdle` and `adopt`. A processor adopts its idle
thread while it is brought up, before it has picked a thread. -/
def Allowed (isIdle : ThreadId → Prop) (s : ProcState n) : SchedCall → Prop
  | .start id | .onBlock id _ | .onBlockUntil id _ _ | .onWake id | .suspend id | .resume id
  | .fault id | .exit id | .yieldNow id | .setPriority id _ => ¬ isIdle id
  | .tick | .expired _ | .pickNext | .select _ => True
  | .setIdle id => isIdle id
  | .adopt id => isIdle id ∧ s.processors.current = none

open Processors (sorted_onHome)

theorem sorted_run (h : s.Sorted isIdle) (call : SchedCall) (hcall : call.Allowed isIdle s) :
    (call.run s).Sorted isIdle := by
  cases call with
  | start id =>
    exact sorted_onHome h fun t ht hc =>
      (atomic_becomesReady hc hcall ht rfl fun _ hst => transition_wakes hst (by simp)).keepsQueues
  | onBlock id event =>
    exact sorted_onHome h fun t ht hc => (atomic_onBlock hc ht rfl event).keepsQueues
  | onBlockUntil id event deadline =>
    exact sorted_onHome h fun t ht hc =>
      keepsQueues_onBlockUntil hc ht rfl event deadline
  | onWake id =>
    exact sorted_onHome h fun t ht hc => (atomic_onWake hc hcall ht rfl).keepsQueues
  | suspend id =>
    exact sorted_onHome h fun t ht hc =>
      (atomic_leavesTheProcessor hc ht rfl fun _ hst => transition_leaves hst (by simp)).keepsQueues
  | resume id =>
    exact sorted_onHome h fun t ht hc =>
      (atomic_becomesReady hc hcall ht rfl fun _ hst => transition_wakes hst (by simp)).keepsQueues
  | fault id =>
    exact sorted_onHome h fun t ht hc =>
      (atomic_leavesTheProcessor hc ht rfl fun _ hst => transition_leaves hst (by simp)).keepsQueues
  | exit id => exact sorted_onHome h fun t ht hc => (atomic_exit hc ht rfl).keepsQueues
  | yieldNow id =>
    exact sorted_onHome h fun t ht hc => (atomic_yieldNow hc hcall ht rfl).keepsQueues
  | setPriority id priority =>
    exact sorted_onHome h fun t ht hc =>
      (atomic_setPriority hc ht rfl priority).keepsQueues
  | tick =>
    simp only [run, Processors.tick, Prog.run_bind, Prog.gets, Prog.run_ite]
    split
    · exact Processors.sorted_onCpu h keepsQueues_tick
    · exact h
  | expired now => exact Processors.sorted_expiredFrom now cpus 0 h
  | pickNext =>
    simp only [run, Processors.pickNext, Prog.run_bind, Prog.gets, Prog.require]
    by_cases hc : s.processors.caller < cpus
    · simp only [hc, ↓reduceIte]
      exact Processors.sorted_onCpu h (keepsQueues_pickNext hc)
    · simp only [hc, ↓reduceIte]
      exact h
  | select cpu => exact h
  | setIdle id => exact Processors.sorted_modifyQueue h fun _ m h => h.setIdle hcall
  | adopt id =>
    refine Processors.sorted_modifyQueue h fun hc m h => ?_
    rw [← update_eq_self s.processors.caller s.processors.queues] at h
    refine h.runIdle (s := ⟨_, _⟩) (fun j p hj => ?_) hcall.1
    obtain ⟨-, -, hcur⟩ := h.running j _ p hj
    rw [update_self, ← Processors.current, hcall.2] at hcur
    cases hcur

/-- The state of a processor that runs nothing yet, and threads as `Thread.new` makes them. -/
structure Initial (s : ProcState n) : Prop where
  processors : s.processors = .new
  threads : ∀ id t, s.threads.get? id = some t → t.state = .inactive ∧
    t.queueLinks = .unlinked ∧ t.priority < priorityCount

/-- The states that calls of the processors lead to. -/
inductive Reached (isIdle : ThreadId → Prop) : ProcState n → Prop where
  | initial (s : ProcState n) : Initial s → Reached isIdle s
  | call (s : ProcState n) (call : SchedCall) : Reached isIdle s → call.Allowed isIdle s →
    Reached isIdle (call.run s)

theorem sorted_initial (h : Initial s) : s.Sorted isIdle := by
  have hq : s.processors.queues = fun _ => .new := by rw [h.processors]; rfl
  have hkey : ∀ {id st c p}, s.threads.key id = some (st, c, p) → st = .inactive ∧
      p < priorityCount := by
    intro id st c p hk
    obtain ⟨t, ht, hkt⟩ := key_eq_some.mp hk
    obtain ⟨hstate, -, hprio⟩ := h.threads id t ht
    simp only [Prod.mk.injEq] at hkt
    exact ⟨hkt.1 ▸ hstate, hkt.2.2 ▸ hprio⟩
  refine ⟨fun _ _ => [], ⟨fun c _ => ?_, ?_, fun id t ht _ => (h.threads id t ht).2.1⟩, ?_, ?_, ?_,
    ?_, ?_, ?_⟩
  · rw [hq]
    exact ⟨fun p _ => linked_nil, fun _ _ => rfl, fun _ _ => rfl, fun p _ => by
      simp [Scheduler.new], by simp, by simp⟩
  · simp
  · intro c _ p _ id
    simp only [List.not_mem_nil, false_iff]
    intro hk
    cases (hkey hk).1
  · exact fun id st c p hk => (hkey hk).2
  · exact fun id c p hk => by cases (hkey hk).1
  · exact fun id c p hk => by cases (hkey hk).1
  · rw [hq]
    exact fun c _ id hcur => by cases hcur
  · rw [hq]
    exact fun c _ id hidle => by cases hidle

theorem sorted_of_reached (h : Reached isIdle s) : s.Sorted isIdle := by
  induction h with
  | initial s hs => exact sorted_initial hs
  | call s call _ hcall ih => exact sorted_run ih call hcall

/-- In every state that is reached, each queue of each processor is a doubly linked list without
repetition and the bitmap shows those that are not empty. A thread that is not idle is in the queue
of its priority on its home when it is ready, and in no queue otherwise. Of the threads of one home
at most one runs, which is the current thread of that processor. -/
theorem runQueues_of_reached (isIdle : ThreadId → Prop) (s : ProcState n) (h : Reached isIdle s) :
    ∃ m : Nat → Nat → List ThreadId,
      (∀ c < cpus, ∀ p < priorityCount,
        Linked (nextOf s.threads) (prevOf s.threads) (m c p) ∧
        ((s.processors.queues c).queues p).head = (m c p).head? ∧
        ((s.processors.queues c).queues p).tail = (m c p).getLast? ∧
        ((s.processors.queues c).ready.getLsbD p = true ↔ m c p ≠ []) ∧
        ∀ id ∈ m c p, s.threads.get? id ≠ none ∧ ¬ isIdle id) ∧
      (∀ id t, s.threads.get? id = some t → ¬ isIdle id →
        (t.state = .ready → t.cpu < cpus ∧ t.priority < priorityCount ∧
          ∀ c < cpus, ∀ p < priorityCount, id ∈ m c p ↔ c = t.cpu ∧ p = t.priority) ∧
        (t.state ≠ .ready → ∀ c < cpus, ∀ p < priorityCount, id ∉ m c p) ∧
        (t.state = .running → t.cpu < cpus ∧
          (s.processors.queues t.cpu).current = some id)) ∧
      ∀ id id' t t', s.threads.get? id = some t → s.threads.get? id' = some t' →
        ¬ isIdle id → ¬ isIdle id' → t.state = .running → t'.state = .running →
        t.cpu = t'.cpu → id = id' := by
  obtain ⟨m, hm⟩ := sorted_of_reached h
  have hrun : ∀ id t, s.threads.get? id = some t → t.state = .running →
      t.cpu < cpus ∧ (s.processors.queues t.cpu).current = some id := by
    intro id t ht hst
    obtain ⟨hc, -, hcur⟩ := hm.running id _ _ (hst ▸ key_of_get? ht)
    exact ⟨hc, hcur⟩
  refine ⟨m, fun c hc p hp => ?_, fun id t ht _ => ⟨fun hst => ?_, hm.not_mem ht, hrun id t ht⟩, ?_⟩
  · have hq := hm.lists.queues c hc
    refine ⟨hq.linked p hp, hq.head_eq p hp, hq.tail_eq p hp, hq.ready_iff p hp, fun id hid => ?_⟩
    exact ⟨hq.live p hp id hid, (hm.ready id c p ((hm.mem_iff c hc p hp id).mp hid)).2⟩
  · have hk := hst ▸ key_of_get? ht
    refine ⟨(hm.ready id _ _ hk).1, hm.priority_lt ht, fun c hc p hp => ?_⟩
    rw [hm.mem_iff c hc p hp, hk]
    simp [eq_comm]
  · intro id id' t t' ht ht' _ _ hst hst' hcpu
    have hcur := (hrun id t ht hst).2
    rw [hcpu, (hrun id' t' ht' hst').2] at hcur
    exact (Option.some.inj hcur).symm

/-- A thread as `Thread.new` makes it. -/
def inactiveThread (priority : Nat) : Thread where
  cpu := 0
  process := ⟨0, 1⟩
  state := .inactive
  priority := priority
  maxPriority := priorityCount - 1
  timeSlice := 0
  kernelStack := 0
  ipcBuffer := ⟨0⟩
  bufferObject := none
  ipcAddress := 0
  entry := 0
  userStack := 0
  queueLinks := .unlinked
  waitLinks := .unlinked
  wait := .nothing
  deadline := none
  deadlineIndex := none
  fault := none

def twoThreads : ProcState 2 where
  processors := .new
  threads := (Pool.allocate (inactiveThread 0)
    (Pool.allocate (inactiveThread 5) (Pool.new (by decide))).2).2

theorem inactive_of_twoThreads {t : Thread}
    (ht : twoThreads.threads.get? id = some t) : ∃ p < priorityCount, t = inactiveThread p := by
  have hstep : ∀ (pool : Threads 2) (p : Nat), p < priorityCount →
      (∀ t, pool.get? id = some t → ∃ p < priorityCount, t = inactiveThread p) →
      ∀ t, get? (Pool.allocate (inactiveThread p) pool).2 id = some t →
        ∃ p < priorityCount, t = inactiveThread p := by
    intro pool p hp hpool t ht
    rcases pool.allocate_cases (inactiveThread p) with heq | ⟨new, pool', heq, -, hfind⟩
    · rw [heq] at ht
      exact hpool t ht
    rw [heq] at ht
    unfold get? at ht hpool
    rw [hfind] at ht
    by_cases hid : id = new
    · rw [if_pos hid] at ht
      exact ⟨p, hp, (Option.some.inj ht).symm⟩
    · rw [if_neg hid] at ht
      exact hpool t ht
  refine hstep _ 0 (by decide) (hstep _ 5 (by decide) ?_) t ht
  simp [get?]

theorem initial_twoThreads : Initial twoThreads where
  processors := rfl
  threads := by
    intro id t ht
    obtain ⟨p, hp, rfl⟩ := inactive_of_twoThreads ht
    exact ⟨rfl, rfl, hp⟩

/-- A processor adopts its idle thread, starts the other one and picks it. -/
theorem runQueues_of_reached_picked :
    let s := ([.setIdle ⟨1, 1⟩, .adopt ⟨1, 1⟩, .start ⟨0, 1⟩, .pickNext] : List SchedCall).foldl run
      twoThreads
    Reached (· = ⟨1, 1⟩) s ∧ (s.threads.get? ⟨0, 1⟩).map (·.state) = some .running ∧
    ∃ m : Nat → Nat → List ThreadId, ∀ c < cpus, ∀ p < priorityCount,
      Linked (nextOf s.threads) (prevOf s.threads) (m c p) := by
  have hreached : Reached (· = (⟨1, 1⟩ : ThreadId)) _ :=
    .call _ .pickNext (.call _ (.start ⟨0, 1⟩) (.call _ (.adopt ⟨1, 1⟩) (.call _ (.setIdle ⟨1, 1⟩)
      (.initial _ initial_twoThreads) rfl) ⟨rfl, rfl⟩) (by simp [Allowed])) trivial
  obtain ⟨m, hm, -⟩ := runQueues_of_reached _ _ hreached
  exact ⟨hreached, by decide, m, fun c hc p hp => (hm c hc p hp).1⟩

end SchedCall

end Audhsos
