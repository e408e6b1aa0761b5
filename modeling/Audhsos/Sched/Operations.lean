import Audhsos.Sched.RunQueue

/-!
What each call of a scheduler does to the run queues, from the state before to the state after: its
answer, the lists, and the key of each thread. `queues` are the schedulers of all processors and `c`
is the one called, whose own scheduler is in the state.
-/

namespace Audhsos

open Lib Scheduler Threads Function Option
open Prog (gets require)

variable {n : Nat} {isIdle : ThreadId → Prop} {queues : Nat → Scheduler} {s s₀ s' : SchedState n}
  {m : Nat → Nat → List ThreadId} {c : Nat} {id : ThreadId} {t : Thread} {st : ThreadState}
  {event : Event}

variable {p : Nat}

/-- The states agree but for deadlines, time slices and the count of ended threads. -/
structure SameRun (s s' : SchedState n) : Prop where
  queues : s'.scheduler.queues = s.scheduler.queues
  ready : s'.scheduler.ready = s.scheduler.ready
  current : s'.scheduler.current = s.scheduler.current
  idle : s'.scheduler.idle = s.scheduler.idle
  threads : SameClock s.threads s'.threads

/-- The states agree on the keys of the threads and on what runs. -/
structure SameKeys (s s' : SchedState n) : Prop where
  key : s'.threads.key = s.threads.key
  current : s'.scheduler.current = s.scheduler.current
  idle : s'.scheduler.idle = s.scheduler.idle

theorem update_congr (queues : Nat → Scheduler) (c : Nat) {β : Type} (f : Scheduler → β)
    {a b : Scheduler} (h : f a = f b) (c' : Nat) :
    f (update queues c a c') = f (update queues c b c') := by
  by_cases hcc : c' = c
  · subst hcc
    simpa using h
  · simp [hcc]

theorem Threads.SameClock.key {a b : Threads n} (h : SameClock a b) : b.key = a.key :=
  funext fun id => h.get?_map (fun t => (t.state, t.cpu, t.priority)) (fun _ => rfl) id

theorem SameRun.refl (s : SchedState n) : SameRun s s := ⟨rfl, rfl, rfl, rfl, .refl _⟩

theorem SameRun.keys (h : SameRun s s') : SameKeys s s' := ⟨h.threads.key, h.current, h.idle⟩

theorem Lists.congr_called {a b : Scheduler} {threads threads' : Threads n}
    (h : Lists (update queues c a) threads m) (hq : b.queues = a.queues) (hr : b.ready = a.ready)
    (hlinks : ∀ id, (threads'.get? id).map (·.queueLinks) =
      (threads.get? id).map (·.queueLinks)) : Lists (update queues c b) threads' m :=
  h.congr (fun c' _ => ⟨update_congr _ c (·.queues) hq c', update_congr _ c (·.ready) hr c'⟩) hlinks

theorem Lists.sameRun (h : Lists (update queues c s.scheduler) s.threads m)
    (hs : SameRun s s') : Lists (update queues c s'.scheduler) s'.threads m :=
  h.congr_called hs.queues hs.ready fun id => hs.threads.get?_map _ (fun _ => rfl) id

theorem RunQueues.sameRun (h : RunQueues isIdle (update queues c s.scheduler) s.threads m)
    (hs : SameRun s s') : RunQueues isIdle (update queues c s'.scheduler) s'.threads m := by
  refine h.congr (fun c' _ => ?_) (fun id => hs.threads.get?_map _ (fun _ => rfl) id)
    fun id => congrFun hs.threads.key id
  by_cases hc : c' = c
  · subst hc
    simp [hs.queues, hs.ready, hs.current, hs.idle]
  · simp [hc]

theorem sameRun_spendSlice (id : ThreadId) (s : SchedState n) :
    spendSlice id s = (.ok (), (spendSlice id s).2) ∧ SameRun s (spendSlice id s).2 :=
  ⟨rfl, rfl, rfl, rfl, rfl, SameClock.modify _ _ fun _ => rfl⟩

/-! ## The table of transitions -/

theorem apply_refused (ht : s.threads.get? id = some t) (h : transition t.state event = none) :
    apply id event s = (.error .invalidState, s) := by
  simp [apply, bind, getThread_of_get? ht, Prog.ofExcept, nextState, h]

/-- `apply` sets the state of the thread, and otherwise touches clocks only. -/
theorem apply_spec (ht : s.threads.get? id = some t) (h : transition t.state event = some st) :
    ∃ s', apply id event s = (.ok st, s') ∧
      SameRun { s with threads := s.threads.modify id (·.setState st) } s' := by
  have hclock := fun (d : Deadlines) (threads : Threads n) => d.sameClock_remove threads id
  by_cases hexit : st = .exited ∧ t.state ≠ .exited <;>
    by_cases hdead : st = .blockedNotification <;>
    simp only [apply, bind, getThread_of_get? ht, Prog.ofExcept, nextState, h, elim_some,
      modifyThread, modifySelf, removeDeadline, Prog.modify, hexit, hdead, pure,
      not_true, not_false_eq_true, ne_eq, and_self] <;>
    refine ⟨_, rfl, rfl, rfl, rfl, rfl, ?_⟩
  all_goals first | exact SameClock.refl _ | exact hclock _ _

theorem Threads.key_modify (threads : Threads n) (ht : threads.get? id = some t)
    {f : Thread → Thread} : key (threads.modify id f) =
      update threads.key id (some ((f t).state, (f t).cpu, (f t).priority)) := by
  funext j
  by_cases hj : j = id
  · subst hj
    simp [key, ht]
  · simp [key, hj]

/-! ## Linking and taking out -/

@[simp] theorem Scheduler.modifyQueue_rest (self : Scheduler) (p : Nat) (f : RunQueue → RunQueue) :
    (self.modifyQueue p f).current = self.current ∧ (self.modifyQueue p f).idle = self.idle := by
  unfold modifyQueue
  split <;> exact ⟨rfl, rfl⟩

/-- The lists without `id` in the queue `p` of processor `c`. -/
def without (m : Nat → Nat → List ThreadId) (c p : Nat) (id : ThreadId) :
    Nat → Nat → List ThreadId :=
  update m c (update (m c) p ((m c p).erase id))

theorem without_eq_self (h : id ∉ m c p) : without m c p id = m := by
  rw [without, List.erase_of_not_mem h, update_eq_self, update_eq_self]

theorem mem_without_of_ne {c' p p' : Nat} {j : ThreadId} (hj : j ≠ id) :
    j ∈ without m c p id c' p' ↔ j ∈ m c' p' := by
  unfold without
  by_cases hc : c' = c
  · subst hc
    by_cases hp : p' = p
    · subst hp
      simp [List.mem_erase_of_ne hj]
    · simp [hp]
  · simp [hc]

section

variable (h : Lists (update queues c s.scheduler) s.threads m) (hc : c < cpus)
  (ht : s.threads.get? id = some t) (hp : t.priority < priorityCount)
include h hc ht hp

theorem Lists.link_spec
    (hfresh : ∀ c < cpus, ∀ p < priorityCount, id ∉ m c p) (hidle : s.scheduler.idle ≠ some id)
    (placement : Placement) :
    ∃ s', Scheduler.link id placement s = (.ok (), s') ∧ SameKeys s s' ∧
      Lists (update queues c s'.scheduler) s'.threads (update m c
        (update (m c) t.priority (placed placement id (m c t.priority)))) := by
  have hq : Queues s (m c) := by
    have := h.queues c hc
    rwa [update_self] at this
  have hnot := hfresh c hc _ hp
  have hend : endOf placement (s.scheduler.queues t.priority) ≠ some id :=
    fun heq => hnot (hq.endOf_mem hp heq)
  refine ⟨linkedState s id placement t.priority,
    link_eq hidle ht hp (h.outside id t ht hfresh) ?_ placement ?_, ⟨?_, ?_, ?_⟩, ?_⟩
  · rw [hq.head_eq _ hp]
    exact fun heq => hnot (List.mem_of_head? heq)
  · exact fun j hj => hq.live _ hp j (hq.endOf_mem hp hj)
  · funext j
    unfold key
    rw [linkedState_get? placement j hend]
    split
    · next hj => simp [hj, comp_def]
    · split <;> simp [comp_def, pointTo]
  · simp [linkedState]
  · simp [linkedState]
  · have hl := h.link hc hp hfresh ht placement
    simpa only [update_self, update_idem] using hl

theorem Lists.dequeue_spec
    (hin : id ∈ m c t.priority ∨ ∀ c < cpus, ∀ p < priorityCount, id ∉ m c p) :
    ∃ s', Scheduler.dequeue id s = (.ok (), s') ∧ SameKeys s s' ∧
      Lists (update queues c s'.scheduler) s'.threads (without m c t.priority id) := by
  have hq : Queues s (m c) := by
    have := h.queues c hc
    rwa [update_self] at this
  rcases hin with hin | hout
  · obtain ⟨-, -, hprev, hnext⟩ := hq.links_of_mem ht hp hin
    refine ⟨_, hq.dequeue_mem ht hp hin rfl, ⟨?_, ?_, ?_⟩, ?_⟩
    · funext j
      unfold key
      rw [dequeuedState_get? hprev hnext]
      split
      · next hj => simp [hj, comp_def]
      · simp [comp_def]
    · simp [dequeuedState]
    · simp [dequeuedState]
    · have hl := h.dequeue hc hp ht hin
      simpa only [update_self, update_idem, without] using hl
  · refine ⟨s, dequeue_unlinked ht (h.outside id t ht hout) ?_, ⟨rfl, rfl, rfl⟩, ?_⟩
    · rw [queue_of_lt _ hp, hq.head_eq _ hp]
      exact fun heq => hout c hc _ hp (List.mem_of_head? heq)
    · rwa [without_eq_self (hout c hc _ hp)]

end

/-- The key of `id` is `k` now, and everything else a thread is queued by is as it was. -/
structure Rekeyed (s s' : SchedState n) (id : ThreadId) (k : ThreadState × Nat × Nat) : Prop where
  key : s'.threads.key = update s.threads.key id (some k)
  idle : s'.scheduler.idle = s.scheduler.idle

variable {k : ThreadState × Nat × Nat}

theorem Rekeyed.key_self (h : Rekeyed s s' id k) :
    s'.threads.key id = some k := by rw [h.key, update_self]

theorem Rekeyed.trans_sameKeys {s₁ : SchedState n}
    (h : Rekeyed s s₁ id k) (hs : SameKeys s₁ s') : Rekeyed s s' id k :=
  ⟨hs.key.trans h.key, hs.idle.trans h.idle⟩

theorem rekeyed_of_apply (ht : s.threads.get? id = some t)
    (h : SameRun { s with threads := s.threads.modify id (·.setState st) } s') :
    Rekeyed s s' id (st, t.cpu, t.priority) :=
  ⟨h.threads.key.trans (key_modify s.threads ht), h.idle⟩

section

variable (h : RunQueues isIdle (update queues c s.scheduler) s.threads m) (hc : c < cpus)
include h hc

theorem RunQueues.idle_ne (hid : ¬ isIdle id) : s.scheduler.idle ≠ some id := by
  intro heq
  refine hid (h.idle c hc id ?_)
  rwa [update_self]

/-- A thread is in no list once it was taken out of the queue of its key. -/
theorem RunQueues.not_mem_without (ht : s.threads.get? id = some t) (hcpu : t.cpu = c) :
    ∀ c' < cpus, ∀ p < priorityCount, id ∉ without m c t.priority id c' p := by
  intro c' hc' p hp hmem
  unfold without at hmem
  by_cases hcc : c' = c
  · subst hcc
    rw [update_self] at hmem
    by_cases hpp : p = t.priority
    · rw [hpp, update_self] at hmem
      exact ((h.lists.queues c' hc).linked _ (h.priority_lt ht)).nodup.not_mem_erase hmem
    · rw [update_of_ne hpp, h.mem_iff c' hc p hp, key_of_get? ht] at hmem
      simp only [some.injEq, Prod.mk.injEq] at hmem
      exact hpp hmem.2.2.symm
  · rw [update_of_ne hcc, h.mem_iff c' hc' p hp, key_of_get? ht] at hmem
    simp only [some.injEq, Prod.mk.injEq] at hmem
    exact hcc (hmem.2.1.symm.trans hcpu)

/-- A thread of processor `c` is in the queue of its priority there or in none. -/
theorem RunQueues.mem_or_not_mem (ht : s.threads.get? id = some t) (hcpu : t.cpu = c) :
    id ∈ m c t.priority ∨ ∀ c < cpus, ∀ p < priorityCount, id ∉ m c p := by
  by_cases hstate : t.state = .ready
  · left
    rw [h.mem_iff c hc _ (h.priority_lt ht), key_of_get? ht, hstate, hcpu]
  · exact Or.inr (h.not_mem ht hstate)

end

/-- The thread a processor runs has its home there, unless it is idle. -/
theorem RunQueues.current_home {threads : Threads n} (h : RunQueues isIdle queues threads m)
    (hc : c < cpus) (ht : threads.get? id = some t) (hid : ¬ isIdle id)
    (hcur : (queues c).current = some id) : t.cpu = c := by
  rcases h.current c hc id hcur with hidle | ⟨p, hk | hk⟩
  · exact absurd hidle hid
  all_goals
    rw [key_of_get? ht] at hk
    simp only [some.injEq, Prod.mk.injEq] at hk
    exact hk.2.1

section

variable (h : RunQueues isIdle (update queues c s₀.scheduler) s₀.threads m)
include h

variable {m₁ : Nat → Nat → List ThreadId}

/-- A thread that is ready now and in no list goes into the queue of its priority. -/
theorem RunQueues.enter (hc : c < cpus)
    (hid : ¬ isIdle id) (hp : p < priorityCount) (ht₀ : s₀.threads.get? id = some t)
    (hcpu : t.cpu = c) (hl : Lists (update queues c s.scheduler) s.threads m₁)
    (hm₁ : ∀ c' < cpus, ∀ p' < priorityCount, ∀ j ≠ id, j ∈ m₁ c' p' ↔ j ∈ m c' p')
    (hfresh : ∀ c' < cpus, ∀ p' < priorityCount, id ∉ m₁ c' p')
    (hk : Rekeyed s₀ s id (.ready, c, p))
    (hcurrent : s.scheduler.current = s₀.scheduler.current) (placement : Placement) :
    ∃ s' m', Scheduler.link id placement s = (.ok (), s') ∧ SameKeys s s' ∧
      RunQueues isIdle (update queues c s'.scheduler) s'.threads m' := by
  have hkid := hk.key_self
  obtain ⟨t, ht, hkt⟩ := key_eq_some.mp hkid
  obtain ⟨-, -, rfl⟩ : t.state = .ready ∧ t.cpu = c ∧ t.priority = p := by simpa using hkt
  obtain ⟨s', hlink, hkeys, hl'⟩ := hl.link_spec hc ht hp hfresh
    (hk.idle ▸ h.idle_ne hc hid) placement
  have hcur := update_congr queues c Scheduler.current (hkeys.current.trans hcurrent)
  refine ⟨s', _, hlink, hkeys, h.step id hl' (fun j hj => ?_) ?_ ?_ ?_ ?_ ?_ ?_ ?_⟩
  · rw [hkeys.key, hk.key, update_of_ne hj]
  · intro c' hc' p' hp' j hj
    rw [← hm₁ c' hc' p' hp' j hj]
    by_cases hcc : c' = c
    · subst hcc
      by_cases hpp : p' = t.priority
      · simp [hpp, mem_placed, hj]
      · simp [hpp]
    · simp [hcc]
  · exact fun c' _ => update_congr _ _ _ (hkeys.idle.trans hk.idle) c'
  · exact fun c' _ j _ _ _ hj => (hcur c').trans hj
  · exact fun c' _ j _ hj => Or.inl ((hcur c').symm.trans hj)
  · intro st c' p' hkey
    rw [hkeys.key, hkid] at hkey
    cases hkey
    exact ⟨hp, fun _ => ⟨hc, hid⟩, nofun⟩
  · intro c' hc' hj
    have hhome := h.current_home hc' ht₀ hid ((hcur c').symm.trans hj)
    rw [hkeys.key, hkid, ← hhome, hcpu]
    exact Or.inr ⟨_, Or.inr rfl⟩
  · intro c' hc' p' hp'
    rw [hkeys.key, hkid]
    by_cases hcc : c' = c
    · subst hcc
      by_cases hpp : p' = t.priority
      · simp [hpp, mem_placed]
      · simp [hpp, hfresh c' hc' p' hp', Ne.symm hpp]
    · simp [hcc, hfresh c' hc' p' hp', Ne.symm hcc]

/-- A thread that is neither ready nor running any more and is in no list. -/
theorem RunQueues.leave
    (hp : p < priorityCount) (ht₀ : s₀.threads.get? id = some t) (hcpu : t.cpu = c)
    (hl : Lists (update queues c s.scheduler) s.threads m₁)
    (hm₁ : ∀ c' < cpus, ∀ p' < priorityCount, ∀ j ≠ id, j ∈ m₁ c' p' ↔ j ∈ m c' p')
    (hfresh : ∀ c' < cpus, ∀ p' < priorityCount, id ∉ m₁ c' p')
    (hk : Rekeyed s₀ s id (st, c, p)) (hready : st ≠ .ready) (hrunning : st ≠ .running)
    (hcurrent : s.scheduler.current =
      if s₀.scheduler.current = some id then none else s₀.scheduler.current) :
    RunQueues isIdle (update queues c s.scheduler) s.threads m₁ := by
  have hkid := hk.key_self
  refine h.step id hl (fun j hj => ?_) hm₁ ?_ ?_ ?_ ?_ ?_ ?_
  · rw [hk.key, update_of_ne hj]
  · exact fun c' _ => update_congr _ _ _ hk.idle c'
  · intro c' _ j hj _ _ hcur
    by_cases hcc : c' = c
    · subst hcc
      rw [update_self] at hcur ⊢
      simp [hcurrent, hcur, hj]
    · simpa [hcc] using hcur
  · intro c' _ j _ hcur
    by_cases hcc : c' = c
    · subst hcc
      rw [update_self, hcurrent] at hcur
      rw [update_self]
      split at hcur
      · cases hcur
      · exact Or.inl hcur
    · exact Or.inl (by simpa [hcc] using hcur)
  · intro st' c' p' hkey
    rw [hkid] at hkey
    cases hkey
    exact ⟨hp, fun h => absurd h hready, fun h => absurd h hrunning⟩
  · intro c' hc' hcur
    by_cases hcc : c' = c
    · subst hcc
      rw [update_self, hcurrent] at hcur
      split at hcur
      · cases hcur
      · next hne => exact absurd hcur hne
    · by_cases hid : isIdle id
      · exact Or.inl hid
      · rw [update_of_ne hcc] at hcur
        refine absurd (h.current_home hc' ht₀ hid ?_) (hcpu ▸ Ne.symm hcc)
        rwa [update_of_ne hcc]
  · intro c' hc' p' hp'
    rw [hkid]
    simp [hfresh c' hc' p' hp', hready]

end

/-! ## Becoming ready -/

theorem transition_ready (h : transition st event = some .ready) : st ≠ .ready := by
  rintro rfl
  cases event <;> cases h

theorem transition_wakes {a : ThreadState} (h : transition a event = some st)
    (hevent : event = .start ∨ event = .wake ∨ event = .resume ∨ event = .yield) : st = .ready := by
  rcases hevent with rfl | rfl | rfl | rfl <;> cases a <;> cases h <;> rfl

section Calls

variable (h : RunQueues isIdle (update queues c s.scheduler) s.threads m) (hc : c < cpus)
  (hid : ¬ isIdle id) (ht : s.threads.get? id = some t) (hcpu : t.cpu = c) {α : Type}

include h ht in
/-- After `apply` alone the lists are as before and the key of the thread is new. -/
theorem RunQueues.apply_spec (htr : transition t.state event = some st) :
    ∃ s', Scheduler.apply id event s = (.ok st, s') ∧
      Lists (update queues c s'.scheduler) s'.threads m ∧
      Rekeyed s s' id (st, t.cpu, t.priority) ∧ s'.scheduler.current = s.scheduler.current := by
  obtain ⟨s', happly, hrun⟩ := Audhsos.apply_spec ht htr
  refine ⟨s', happly, Lists.sameRun ?_ hrun, rekeyed_of_apply ht hrun, hrun.current⟩
  refine h.lists.congr (fun _ _ => ⟨rfl, rfl⟩) fun j => ?_
  by_cases hj : j = id
  · subst hj
    simp [ht]
  · simp [hj]

include ht in
theorem becomesReady_refused (htr : transition t.state event = none) :
    becomesReady id event s = (.error .invalidState, s) := by
  simp [becomesReady, bind, apply_refused ht htr]

include h hc hid ht hcpu in
theorem becomesReady_spec (htr : transition t.state event = some .ready) :
    ∃ o s' m', becomesReady id event s = (.ok o, s') ∧ Rekeyed s s' id (.ready, c, t.priority) ∧
      RunQueues isIdle (update queues c s'.scheduler) s'.threads m' := by
  obtain ⟨s₁, happly, hl, hk, hcurrent⟩ := h.apply_spec ht htr
  rw [hcpu] at hk
  obtain ⟨s', m', hlink, hkeys, h'⟩ := h.enter hc hid (h.priority_lt ht) ht hcpu hl
    (fun _ _ _ _ _ _ => Iff.rfl) (h.not_mem ht (transition_ready htr)) hk hcurrent .tail
  refine ⟨preemptsCurrent s' id, s', m', ?_, hk.trans_sameKeys hkeys, h'⟩
  simp [becomesReady, bind, happly, enqueue, hlink, gets]

/-! ## Leaving the processor -/

include ht in
theorem leavesTheProcessor_refused (htr : transition t.state event = none) :
    leavesTheProcessor id event s = (.error .invalidState, s) := by
  simp [leavesTheProcessor, bind, apply_refused ht htr]

theorem leftTheProcessor_spec (id : ThreadId) (s : SchedState n) :
    ∃ o s', leftTheProcessor id s = (.ok o, s') ∧ s'.threads = s.threads ∧
      s'.scheduler.queues = s.scheduler.queues ∧ s'.scheduler.ready = s.scheduler.ready ∧
      s'.scheduler.idle = s.scheduler.idle ∧ s'.scheduler.current =
        if s.scheduler.current = some id then none else s.scheduler.current := by
  by_cases hcur : s.scheduler.current = some id
  · exact ⟨_, _, if_pos hcur, rfl, rfl, rfl, rfl, (if_pos hcur).symm⟩
  · exact ⟨_, _, if_neg hcur, rfl, rfl, rfl, rfl, (if_neg hcur).symm⟩

include h hc ht hcpu in
theorem leavesTheProcessor_spec
    (htr : transition t.state event = some st) (hready : st ≠ .ready) (hrunning : st ≠ .running) :
    ∃ o s' m', leavesTheProcessor id event s = (.ok o, s') ∧
      Rekeyed s s' id (st, c, t.priority) ∧
      RunQueues isIdle (update queues c s'.scheduler) s'.threads m' := by
  obtain ⟨s₁, happly, hl, hk, hcurrent⟩ := h.apply_spec ht htr
  rw [hcpu] at hk
  -- The state has changed already when the thread is taken out of the queue it was in.
  obtain ⟨t₁, ht₁, hkt₁⟩ := key_eq_some.mp hk.key_self
  have hprio : t₁.priority = t.priority := by simpa using congrArg (·.2.2) hkt₁
  obtain ⟨s₂, hdeq, hkeys, hl₂⟩ := hl.dequeue_spec hc ht₁ (hprio ▸ h.priority_lt ht)
    (hprio ▸ h.mem_or_not_mem hc ht hcpu)
  rw [hprio] at hl₂
  obtain ⟨hslice, hrun⟩ := sameRun_spendSlice id s₂
  obtain ⟨o, s', hleft, hth, hq, hr, hi, hcur⟩ := leftTheProcessor_spec id (spendSlice id s₂).2
  have hk' : Rekeyed s s' id (st, c, t.priority) :=
    ⟨by rw [hth, hrun.threads.key, hkeys.key, hk.key], by rw [hi, hrun.idle, hkeys.idle, hk.idle]⟩
  refine ⟨o, s', without m c t.priority id, ?_, hk', ?_⟩
  · simp only [leavesTheProcessor, bind, happly, hdeq]
    rw [hslice]
    exact hleft
  · refine h.leave (h.priority_lt ht) ht hcpu ?_ (fun _ _ _ _ _ hj => mem_without_of_ne hj)
      (h.not_mem_without hc ht hcpu) hk' hready hrunning ?_
    · exact (hl₂.sameRun hrun).congr_called hq hr fun j => by rw [hth]
    · rw [hcur, hrun.current, hkeys.current, hcurrent]

/-! ## The calls -/

section

variable (isIdle : ThreadId → Prop) (c : Nat) {α : Type} (call : Prog Error (SchedState n) α)
  (s : SchedState n)

/-- A call keeps the run queues when it is made for a thread of processor `c` that is not idle. -/
def KeepsQueues : Prop :=
  ∀ queues m, RunQueues isIdle (update queues c s.scheduler) s.threads m →
    ∃ m', RunQueues isIdle (update queues c (call s).2.scheduler) (call s).2.threads m'

/-- The call is refused and changes nothing, or succeeds and keeps the run queues. -/
def Atomic : Prop :=
  ∀ queues m, RunQueues isIdle (update queues c s.scheduler) s.threads m →
    (∃ e, call s = (.error e, s)) ∨ ∃ a s' m', call s = (.ok a, s') ∧
      RunQueues isIdle (update queues c s'.scheduler) s'.threads m'

end

section

variable {α : Type} {call : Prog Error (SchedState n) α}

theorem Atomic.keepsQueues (h : Atomic isIdle c call s) : KeepsQueues isIdle c call s := by
  intro queues m hr
  rcases h queues m hr with ⟨e, heq⟩ | ⟨a, s', m', heq, h'⟩
  · rw [heq]
    exact ⟨m, hr⟩
  · rw [heq]
    exact ⟨m', h'⟩

theorem atomic_refused {e : Error} (heq : call s = (.error e, s)) : Atomic isIdle c call s :=
  fun _ _ _ => .inl ⟨e, heq⟩

theorem atomic_done {a : α} (heq : call s = (.ok a, s)) : Atomic isIdle c call s :=
  fun _ m h => .inr ⟨a, s, m, heq, h⟩

end

theorem Atomic.congr {call call' : Prog Error (SchedState n) α}
    (h : Atomic isIdle c call' s) (heq : call s = call' s) : Atomic isIdle c call s := by
  intro queues m hr
  rw [heq]
  exact h queues m hr

theorem keepsQueues_of_same {call : Prog Error (SchedState n) α}
    (h : SameRun s (call s).2) : KeepsQueues isIdle c call s :=
  fun _ m hr => ⟨m, hr.sameRun h⟩

include hc hid ht hcpu in
theorem atomic_becomesReady (htr : ∀ st, transition t.state event = some st → st = .ready) :
    Atomic isIdle c (becomesReady id event) s := by
  cases hst : transition t.state event with
  | none => exact atomic_refused (becomesReady_refused ht hst)
  | some st =>
    intro queues m h
    obtain ⟨o, s', m', heq, -, h'⟩ :=
      becomesReady_spec h hc hid ht hcpu (hst.trans (by rw [htr st hst]))
    exact .inr ⟨o, s', m', heq, h'⟩

include hc ht hcpu in
theorem atomic_leavesTheProcessor
    (htr : ∀ st, transition t.state event = some st → st ≠ .ready ∧ st ≠ .running) :
    Atomic isIdle c (leavesTheProcessor id event) s := by
  cases hst : transition t.state event with
  | none => exact atomic_refused (leavesTheProcessor_refused ht hst)
  | some st =>
    intro queues m h
    obtain ⟨hready, hrunning⟩ := htr st hst
    obtain ⟨o, s', m', heq, -, h'⟩ := leavesTheProcessor_spec h hc ht hcpu hst hready hrunning
    exact .inr ⟨o, s', m', heq, h'⟩

include hc hid ht hcpu in
theorem atomic_onWake : Atomic isIdle c (onWake id) s := by
  by_cases hready : t.state = .ready
  · exact atomic_done (a := .nothing) (by simp [onWake, bind, getThread_of_get? ht, hready, pure])
  · have hwake : Atomic isIdle c (becomesReady id .wake) s :=
      atomic_becomesReady hc hid ht hcpu fun st hst => transition_wakes hst (by simp)
    exact hwake.congr (by simp [onWake, bind, getThread_of_get? ht, hready])

theorem transition_leaves {a : ThreadState} (h : transition a event = some st)
    (hevent : event.blockedState.isSome ∨ event = .suspend ∨ event = .fault ∨ event = .exit) :
    st ≠ .ready ∧ st ≠ .running := by
  cases a <;> cases event <;> cases h <;> first | decide | exact absurd hevent (by decide)

include hc ht hcpu in
theorem atomic_onBlock (event : Event) : Atomic isIdle c (onBlock id event) s := by
  by_cases hblock : event.blockedState.isSome
  · exact (atomic_leavesTheProcessor hc ht hcpu
      fun _ hst => transition_leaves hst (.inl hblock)).congr
      (by simp [onBlock, bind, require, hblock])
  · exact atomic_refused (e := .invalidArgument) (by simp [onBlock, bind, require, hblock])

theorem sameRun_insertDeadline (s : SchedState n) (id : ThreadId) (deadline : Nat) :
    SameRun s
      { scheduler := { s.scheduler with
          deadlines := (s.scheduler.deadlines.insert s.threads id deadline).2.1 }
        threads := (s.scheduler.deadlines.insert s.threads id deadline).2.2 } :=
  ⟨rfl, rfl, rfl, rfl, Deadlines.sameClock_insert _ _ _ _⟩

/-- `onBlockUntil` is refused before it blocks the thread, or blocks it and takes its deadline. -/
theorem onBlockUntil_cases (s : SchedState n) (id : ThreadId) (event : Event) (deadline : Nat) :
    (∃ e, onBlockUntil id event deadline s = (.error e, s)) ∨
    (∃ e s', onBlock id event s = (.error e, s') ∧
      onBlockUntil id event deadline s = (.error e, s')) ∨
    ∃ o s₁, event = .blockNotification ∧ s.scheduler.deadlines.canInsert s.threads id = .ok () ∧
      onBlock id event s = (.ok o, s₁) ∧
      let after := s₁.scheduler.deadlines.insert s₁.threads id deadline
      onBlockUntil id event deadline s = (after.1.map fun _ => o,
        { scheduler := { s₁.scheduler with deadlines := after.2.1 }, threads := after.2.2 }) := by
  by_cases hevent : event = .blockNotification
  · cases hcan : s.scheduler.deadlines.canInsert s.threads id with
    | error e =>
      exact .inl ⟨e, by simp [onBlockUntil, bind, require, hevent, Prog.get, Prog.ofExcept, hcan]⟩
    | ok _ =>
      cases hblock : onBlock id event s with
      | mk answer s₁ =>
        cases answer with
        | error e =>
          exact .inr (.inl ⟨e, s₁, rfl, by
            simp only [onBlockUntil, bind, require, Prog.get, Prog.ofExcept, hcan, hblock,
              if_pos hevent]⟩)
        | ok o =>
          exact .inr (.inr ⟨o, s₁, hevent, rfl, rfl, by
            simp only [onBlockUntil, bind, require, Prog.get, Prog.ofExcept, hcan, hblock,
              if_pos hevent]⟩)
  · exact .inl ⟨.invalidArgument, by simp [onBlockUntil, bind, require, hevent]⟩

include hc ht hcpu in
theorem keepsQueues_onBlockUntil (event : Event) (deadline : Nat) :
    KeepsQueues isIdle c (onBlockUntil id event deadline) s := by
  intro queues m h
  obtain ⟨m₁, h₁⟩ := (atomic_onBlock hc ht hcpu event).keepsQueues queues m h
  rcases onBlockUntil_cases s id event deadline with
    ⟨e, heq⟩ | ⟨e, s', hblock, heq⟩ | ⟨o, s₁, -, -, hblock, heq⟩
  · rw [heq]
    exact ⟨m, h⟩
  · rw [hblock] at h₁
    rw [heq]
    exact ⟨m₁, h₁⟩
  · rw [hblock] at h₁
    rw [heq]
    exact ⟨m₁, h₁.sameRun (sameRun_insertDeadline s₁ id deadline)⟩

include hc ht hcpu in
theorem atomic_exit : Atomic isIdle c (exit id) s := by
  by_cases hexited : t.state = .exited
  · exact atomic_done (a := .nothing) (by simp [exit, bind, getThread_of_get? ht, hexited, pure])
  · have hleaves : Atomic isIdle c (leavesTheProcessor id .exit) s :=
      atomic_leavesTheProcessor hc ht hcpu fun _ hst => transition_leaves hst (by simp)
    exact hleaves.congr (by simp [exit, bind, getThread_of_get? ht, hexited])

include hc hid ht hcpu in
theorem atomic_yieldNow : Atomic isIdle c (yieldNow id) s := by
  cases hst : transition t.state .yield with
  | none =>
    exact atomic_refused (e := .invalidState) (by simp [yieldNow, bind, apply_refused ht hst])
  | some st =>
    intro queues m h
    obtain rfl : st = .ready := transition_wakes hst (by simp)
    obtain ⟨s₁, happly, hl, hk, hcurrent⟩ := h.apply_spec ht hst
    rw [hcpu] at hk
    obtain ⟨t₁, ht₁, -⟩ := key_eq_some.mp hk.key_self
    obtain ⟨hslice, hrun⟩ := sameRun_spendSlice id s₁
    obtain ⟨s', m', hlink, -, h'⟩ := h.enter hc hid (h.priority_lt ht) ht hcpu (hl.sameRun hrun)
      (fun _ _ _ _ _ _ => Iff.rfl) (h.not_mem ht (transition_ready hst))
      (hk.trans_sameKeys hrun.keys) (hrun.current.trans hcurrent) .tail
    refine .inr ⟨.again, s', m', ?_, h'⟩
    simp only [yieldNow, bind, happly, getThread_of_get? ht₁]
    rw [show modifyThread id (·.setTimeSlice 0) s₁ = (.ok (), (spendSlice id s₁).2) from hslice]
    simp only [enqueue, hlink, pure]

/-- A thread that is not ready keeps its state under another priority. -/
theorem RunQueues.reprioritise (h : RunQueues isIdle (update queues c s₀.scheduler) s₀.threads m)
    (hp : p < priorityCount) (ht₀ : s₀.threads.get? id = some t) (hcpu : t.cpu = c)
    (hready : t.state ≠ .ready) (hl : Lists (update queues c s.scheduler) s.threads m)
    (hk : Rekeyed s₀ s id (t.state, c, p)) (hcurrent : s.scheduler.current = s₀.scheduler.current) :
    RunQueues isIdle (update queues c s.scheduler) s.threads m := by
  have hkid := hk.key_self
  have hkid₀ := hcpu ▸ key_of_get? ht₀
  have hcur := update_congr queues c Scheduler.current hcurrent
  refine h.step id hl (fun j hj => ?_) (fun _ _ _ _ _ _ => Iff.rfl) ?_ ?_ ?_ ?_ ?_ ?_
  · rw [hk.key, update_of_ne hj]
  · exact fun c' _ => update_congr _ _ _ hk.idle c'
  · exact fun c' _ j _ _ _ hj => (hcur c').trans hj
  · exact fun c' _ j _ hj => Or.inl ((hcur c').symm.trans hj)
  · intro st' c' p' hkey
    rw [hkid] at hkey
    cases hkey
    refine ⟨hp, fun hr => absurd hr hready, fun hr => ?_⟩
    rw [hr] at hkid₀
    obtain ⟨hc, hid, hj⟩ := h.running id c _ hkid₀
    exact ⟨hc, hid, (hcur c).trans hj⟩
  · intro c' hc' hj
    rw [hkid]
    rcases h.current c' hc' id ((hcur c').symm.trans hj) with hidle | ⟨p', hk' | hk'⟩
    · exact Or.inl hidle
    · rw [hkid₀] at hk'
      simp only [some.injEq, Prod.mk.injEq] at hk'
      exact Or.inr ⟨p, Or.inl (by rw [hk'.1, hk'.2.1])⟩
    · rw [hkid₀] at hk'
      simp only [some.injEq, Prod.mk.injEq] at hk'
      exact absurd hk'.1 hready
  · intro c' hc' p' hp'
    rw [hkid]
    simp [h.not_mem ht₀ hready c' hc' p' hp', hready]

include hc ht hcpu in
theorem atomic_setPriority (priority : Nat) : Atomic isIdle c (setPriority id priority) s := by
  intro queues m h
  by_cases hok : priority < priorityCount ∧ priority ≤ t.maxPriority
  · -- The thread is taken out of its queue under the old priority and goes back under the new one.
    have hout : ∃ s₁, (if t.state = .ready then dequeue id else pure ()) s = (.ok (), s₁) ∧
        SameKeys s s₁ ∧ Lists (update queues c s₁.scheduler) s₁.threads
          (without m c t.priority id) := by
      by_cases hready : t.state = .ready
      · rw [if_pos hready]
        exact h.lists.dequeue_spec hc ht (h.priority_lt ht) (h.mem_or_not_mem hc ht hcpu)
      · rw [if_neg hready, without_eq_self (h.not_mem ht hready c hc _ (h.priority_lt ht))]
        exact ⟨s, rfl, ⟨rfl, rfl, rfl⟩, h.lists⟩
    obtain ⟨s₁, hdeq, hkeys, hl₁⟩ := hout
    obtain ⟨t₁, ht₁, hkt₁⟩ := key_eq_some.mp
      ((congrFun hkeys.key id).trans (key_of_get? ht))
    simp only [Prod.mk.injEq] at hkt₁
    let s₂ : SchedState n := { s₁ with threads := s₁.threads.modify id (·.setPriority priority) }
    have hl₂ : Lists (update queues c s₂.scheduler) s₂.threads
        (without m c t.priority id) := by
      refine hl₁.congr (fun _ _ => ⟨rfl, rfl⟩) fun j => ?_
      by_cases hj : j = id
      · subst hj
        simp [s₂, ht₁]
      · simp [s₂, hj]
    have hk₂ : Rekeyed s s₂ id (t.state, c, priority) := by
      refine ⟨?_, hkeys.idle⟩
      rw [show s₂.threads.key = update _ id (some (t₁.state, t₁.cpu, priority)) from
        key_modify s₁.threads ht₁, hkeys.key, hkt₁.1, hkt₁.2.1, hcpu]
    have hslice : ∃ s₃, (if t.priority ≠ priority then spendSlice id else pure ()) s₂ =
        (.ok (), s₃) ∧ SameRun s₂ s₃ := by
      by_cases hmoves : t.priority ≠ priority
      · rw [if_pos hmoves]
        exact ⟨_, sameRun_spendSlice id s₂⟩
      · rw [if_neg hmoves]
        exact ⟨s₂, rfl, SameRun.refl s₂⟩
    obtain ⟨s₃, hspend, hrun⟩ := hslice
    have hk₃ := hk₂.trans_sameKeys hrun.keys
    have hcurrent₃ : s₃.scheduler.current = s.scheduler.current := hrun.current.trans hkeys.current
    have heq : setPriority id priority s = (if t.state = .ready then do
          enqueue id
          Prog.gets (preemptsCurrent · id)
        else Prog.gets fun s => if s.scheduler.current = some id then
          s.scheduler.higherWaits priority else .nothing : Prog Error _ _) s₃ := by
      have hwrite : modifyThread id (·.setPriority priority) s₁ = (.ok (), s₂) := rfl
      rw [setPriority, Prog.run_bind_ok (getThread_of_get? ht),
        Prog.run_bind_ok (Prog.run_require hok _ _)]
      dsimp only
      rw [Prog.run_ite_bind hdeq, Prog.run_bind_ok (getThread_of_get? ht₁), Prog.run_bind_ok hwrite,
        Prog.run_ite_bind hspend]
    by_cases hready : t.state = .ready
    · rw [hready] at hk₃
      have hid : ¬ isIdle id := by
        have hk := key_of_get? ht
        rw [hready] at hk
        exact (h.ready id _ _ hk).2
      obtain ⟨s', m', hlink, -, h'⟩ := h.enter hc hid hok.1 ht hcpu (hl₂.sameRun hrun)
        (fun _ _ _ _ _ hj => mem_without_of_ne hj) (h.not_mem_without hc ht hcpu) hk₃
        hcurrent₃ .tail
      rw [if_pos hready, Prog.run_bind_ok (show enqueue id s₃ = _ from hlink)] at heq
      exact .inr ⟨_, s', m', heq, h'⟩
    · rw [if_neg hready] at heq
      have hout := h.not_mem ht hready c hc _ (h.priority_lt ht)
      exact .inr ⟨_, s₃, m, heq, h.reprioritise hok.1 ht hcpu hready
        (without_eq_self hout ▸ hl₂.sameRun hrun) hk₃ hcurrent₃⟩
  · exact .inl ⟨.invalidArgument, by simp [setPriority, bind, getThread_of_get? ht, require, hok]⟩

end Calls

theorem keepsQueues_tick : KeepsQueues isIdle c tick s := by
  apply keepsQueues_of_same
  unfold tick
  split
  · exact SameRun.refl s
  split
  · exact SameRun.refl s
  · split
    · exact SameRun.refl s
    · exact ⟨rfl, rfl, rfl, rfl, SameClock.modify _ _ fun _ => rfl⟩

theorem keepsQueues_expired (now : Nat) : KeepsQueues isIdle c (Scheduler.expired now) s :=
  keepsQueues_of_same ⟨rfl, rfl, rfl, rfl, Deadlines.sameClock_expired _ _ _⟩

/-! ## Choosing the next thread -/

theorem requeueCurrent_spec
    (h : RunQueues isIdle (update queues c s.scheduler) s.threads m) (hc : c < cpus) :
    ∃ s' m', requeueCurrent s = (.ok (), s') ∧
      RunQueues isIdle (update queues c s'.scheduler) s'.threads m' ∧
      ∀ j p, s'.threads.key j ≠ some (.running, c, p) := by
  have hrun : ∀ j p, s.threads.key j = some (.running, c, p) →
      s.scheduler.current = some j ∧ ¬ isIdle j := by
    intro j p hj
    obtain ⟨-, hid, hcur⟩ := h.running j c p hj
    rw [update_self] at hcur
    exact ⟨hcur, hid⟩
  cases hcur : s.scheduler.current with
  | none =>
    refine ⟨s, m, by simp [requeueCurrent, bind, Prog.get, hcur, pure], h, fun j p hj => ?_⟩
    obtain ⟨hj', -⟩ := hrun j p hj
    rw [hcur] at hj'
    cases hj'
  | some current =>
    cases ht : s.threads.get? current with
    | none =>
      refine ⟨s, m, by simp [requeueCurrent, bind, Prog.get, hcur, ht, pure], h, fun j p hj => ?_⟩
      obtain ⟨hj', -⟩ := hrun j p hj
      obtain rfl := mem_unique hcur hj'
      simp [key, ht] at hj
    | some t =>
      by_cases hstays : t.state = .running ∧ some current ≠ s.scheduler.idle
      · have hid : ¬ isIdle current := (h.running current _ _ (hstays.1 ▸ key_of_get? ht)).2.1
        have hcpu : t.cpu = c := h.current_home hc ht hid (by rwa [update_self])
        -- Displaced or not decides the end of the queue and what is left of the slice.
        have hcall : ∀ (event : Event) (placement : Placement)
            (slice : Prog Error (SchedState n) Unit), transition .running event = some .ready →
            (∀ s₁, ∃ s₂, slice s₁ = (.ok (), s₂) ∧ SameRun s₁ s₂) →
            ∃ s₁ s₂ s' m', apply current event s = (.ok .ready, s₁) ∧ slice s₁ = (.ok (), s₂) ∧
              Scheduler.link current placement s₂ = (.ok (), s') ∧
              RunQueues isIdle (update queues c s'.scheduler) s'.threads m' ∧
              ∀ j p, s'.threads.key j ≠ some (.running, c, p) := by
          intro event placement slice htr hslice
          obtain ⟨s₁, happly, hl, hk, hcurrent⟩ := h.apply_spec ht (hstays.1 ▸ htr)
          obtain ⟨s₂, hs₂, hsame⟩ := hslice s₁
          rw [hcpu] at hk
          obtain ⟨s', m', hlink, hkeys, h'⟩ := h.enter hc hid (h.priority_lt ht) ht hcpu
            (hl.sameRun hsame) (fun _ _ _ _ _ _ => Iff.rfl)
            (h.not_mem ht (by rw [hstays.1]; decide)) (hk.trans_sameKeys hsame.keys)
            (hsame.current.trans hcurrent) placement
          refine ⟨s₁, s₂, s', m', happly, hs₂, hlink, h', fun j p hj => ?_⟩
          rw [hkeys.key, hsame.threads.key, hk.key] at hj
          by_cases hjc : j = current
          · simp [hjc] at hj
          · rw [update_of_ne hjc] at hj
            exact hjc (mem_unique ((hrun j p hj).1) hcur)
        by_cases hdisplaced : 0 < t.timeSlice ∧
            (s.scheduler.highestReady.any fun highest => t.priority < highest) = true
        · obtain ⟨s₁, s₂, s', m', happly, hs₂, hlink, h', hnone⟩ := hcall .displaced .head (pure ())
            rfl fun s₁ => ⟨s₁, rfl, SameRun.refl s₁⟩
          obtain rfl : s₁ = s₂ := congrArg Prod.snd hs₂
          refine ⟨s', m', ?_, h', hnone⟩
          simp only [requeueCurrent, Prog.run_bind, Prog.run_ite, Prog.get, hcur, ht,
            if_pos hstays, hdisplaced, and_self, ↓reduceIte, Prog.attempt, happly, hlink]
        · obtain ⟨s₁, s₂, s', m', happly, hs₂, hlink, h', hnone⟩ :=
            hcall .sliceExpired .tail (spendSlice current) rfl fun s₁ =>
              ⟨_, sameRun_spendSlice current s₁⟩
          refine ⟨s', m', ?_, h', hnone⟩
          simp only [requeueCurrent, Prog.run_bind, Prog.run_ite, Prog.get, hcur, ht,
            if_pos hstays, hdisplaced, ↓reduceIte, Prog.attempt, happly, hs₂, hlink]
      · refine ⟨s, m, by simp [requeueCurrent, bind, Prog.get, hcur, ht, hstays, pure], h,
          fun j p hj => ?_⟩
        obtain ⟨hj', hid⟩ := hrun j p hj
        obtain rfl := mem_unique hcur hj'
        refine hstays ⟨?_, (h.idle_ne hc hid).symm⟩
        rw [key_of_get? ht] at hj
        simp only [some.injEq, Prod.mk.injEq] at hj
        exact hj.1

theorem highestReady_spec {self : Scheduler} (h : self.highestReady = some p) :
    p < priorityCount ∧ self.ready.getLsbD p = true := by
  refine ⟨?_, List.find?_some h⟩
  simpa using List.mem_of_find?_eq_some h

/-- A processor that runs no thread may be told to run an idle thread. -/
theorem RunQueues.runIdle {idle : ThreadId}
    (h : RunQueues isIdle (update queues c s.scheduler) s.threads m)
    (hnone : ∀ j p, s.threads.key j ≠ some (.running, c, p)) (hidle : isIdle idle) :
    RunQueues isIdle (update queues c { s.scheduler with current := some idle })
      s.threads m where
  lists := h.lists.congr_called rfl rfl fun _ => rfl
  mem_iff := h.mem_iff
  priority := h.priority
  ready := h.ready
  running := by
    intro j c' p hj
    obtain ⟨hc', hid, hcur⟩ := h.running j c' p hj
    have hcc : c' ≠ c := fun heq => hnone j p (heq ▸ hj)
    rw [update_of_ne hcc] at hcur ⊢
    exact ⟨hc', hid, hcur⟩
  current := by
    intro c' hc' j hcur
    by_cases hcc : c' = c
    · subst hcc
      rw [update_self] at hcur
      exact Or.inl (some.inj hcur ▸ hidle)
    · refine h.current c' hc' j ?_
      rw [update_of_ne hcc] at hcur ⊢
      exact hcur
  idle := by
    intro c' hc' j hj
    refine h.idle c' hc' j ?_
    by_cases hcc : c' = c
    · subst hcc
      simpa using hj
    · simpa [hcc] using hj

/-- A processor that runs no thread may take a ready thread out of its queue and run it. -/
theorem RunQueues.runReady
    (h : RunQueues isIdle (update queues c s₀.scheduler) s₀.threads m) (hc : c < cpus)
    (hnone : ∀ j p, s₀.threads.key j ≠ some (.running, c, p))
    (ht₀ : s₀.threads.get? id = some t) (hid : id ∈ m c p) (hp : p < priorityCount)
    (hl : Lists (update queues c s.scheduler) s.threads (without m c p id))
    (hk : Rekeyed s₀ s id (.running, c, p)) (hcurrent : s.scheduler.current = some id) :
    RunQueues isIdle (update queues c s.scheduler) s.threads (without m c p id) := by
  have hkid₀ := (h.mem_iff c hc p hp id).mp hid
  have hkid := hk.key_self
  obtain ⟨-, hcpu, rfl⟩ : t.state = .ready ∧ t.cpu = c ∧ t.priority = p := by
    rw [key_of_get? ht₀] at hkid₀
    simpa using hkid₀
  have hnidle := (h.ready id c _ hkid₀).2
  refine h.step id hl (fun j hj => ?_) (fun _ _ _ _ _ hj => mem_without_of_ne hj) ?_ ?_ ?_ ?_ ?_ ?_
  · rw [hk.key, update_of_ne hj]
  · exact fun c' _ => update_congr _ _ _ hk.idle c'
  · intro c' _ j _ p' hrun hcur
    have hcc : c' ≠ c := fun heq => hnone j p' (heq ▸ hrun)
    simpa [hcc] using hcur
  · intro c' _ j hj hcur
    by_cases hcc : c' = c
    · subst hcc
      rw [update_self, hcurrent] at hcur
      exact absurd (some.inj hcur).symm hj
    · exact Or.inl (by simpa [hcc] using hcur)
  · intro st c' p' hkey
    rw [hkid] at hkey
    cases hkey
    exact ⟨hp, nofun, fun _ => ⟨hc, hnidle, by simpa using hcurrent⟩⟩
  · intro c' hc' hcur
    by_cases hcc : c' = c
    · subst hcc
      exact Or.inr ⟨_, Or.inl hkid⟩
    · refine absurd (h.current_home hc' ht₀ hnidle ?_) (hcpu ▸ Ne.symm hcc)
      simpa [hcc] using hcur
  · intro c' hc' p' hp'
    rw [hkid]
    simp [h.not_mem_without hc ht₀ hcpu c' hc' p' hp']

theorem keepsQueues_pickNext (hc : c < cpus) : KeepsQueues isIdle c pickNext s := by
  intro queues m h
  obtain ⟨s₁, m₁, hrequeue, h₁, hnone⟩ := requeueCurrent_spec h hc
  cases hhigh : s₁.scheduler.highestReady with
  | none =>
    cases hidle : s₁.scheduler.idle with
    | none =>
      have heq : pickNext s = (.error .notRunnable, s₁) := by
        simp [pickNext, bind, hrequeue, gets, hhigh, hidle, Prog.ofOption, Prog.ofExcept]
      rw [heq]
      exact ⟨m₁, h₁⟩
    | some idle =>
      have heq : pickNext s =
          (.ok idle, { s₁ with scheduler := { s₁.scheduler with current := some idle } }) := by
        simp [pickNext, bind, hrequeue, gets, hhigh, hidle, Prog.ofOption, Prog.ofExcept,
          modifySelf, Prog.modify, pure]
      rw [heq]
      exact ⟨m₁, h₁.runIdle hnone (h₁.idle c hc idle (by rwa [update_self]))⟩
  | some p =>
    obtain ⟨hp, hbit⟩ := highestReady_spec hhigh
    have hq : Queues s₁ (m₁ c) := by
      have := h₁.lists.queues c hc
      rwa [update_self] at this
    obtain ⟨id, l, hlist⟩ := List.exists_cons_of_ne_nil ((hq.ready_iff p hp).mp hbit)
    have hid : id ∈ m₁ c p := by simp [hlist]
    have hhead : (s₁.scheduler.queue p).head = some id := by
      rw [queue_of_lt _ hp, hq.head_eq p hp, hlist]
      rfl
    obtain ⟨t, ht, hkt⟩ := key_eq_some.mp ((h₁.mem_iff c hc p hp id).mp hid)
    obtain ⟨hstate, hcpu, rfl⟩ : t.state = .ready ∧ t.cpu = c ∧ t.priority = p := by simpa using hkt
    obtain ⟨s₂, hdeq, hkeys, hl₂⟩ := h₁.lists.dequeue_spec hc ht hp (.inl hid)
    obtain ⟨t₂, ht₂, hkt₂⟩ := key_eq_some.mp
      ((congrFun hkeys.key id).trans (key_of_get? ht))
    simp only [Prod.mk.injEq, hstate] at hkt₂
    have heq : (pickNext s).2 =
        { scheduler := { s₂.scheduler with current := some id }
          threads := s₂.threads.modify id fun thread => (thread.setState .running).setTimeSlice
            (if thread.timeSlice = 0 then defaultTimeSliceTicks else thread.timeSlice) } := by
      simp [pickNext, bind, hrequeue, gets, hhigh, hhead, Prog.ofOption, Prog.ofExcept,
        modifySelf, modifyThread, Prog.modify, pure, hdeq, getThread_of_get? ht₂, nextState,
        hkt₂.1, transition]
    rw [heq]
    refine ⟨_, h₁.runReady hc hnone ht hid hp ?_ ⟨?_, hkeys.idle⟩ rfl⟩
    · refine hl₂.congr_called rfl rfl fun j => ?_
      by_cases hj : j = id
      · subst hj
        simp [ht₂]
      · simp [hj]
    · refine (key_modify s₂.threads ht₂).trans ?_
      rw [hkeys.key]
      simp [hkt₂, hcpu]

end Audhsos
