import Audhsos.Sched.Reachable

/-!
What the processors choose: of the threads that are ready at home, one of the highest priority.
-/

namespace Audhsos

open Lib Scheduler Threads Function
open Prog (gets)

variable {n : Nat} {isIdle : ThreadId → Prop} {queues : Nat → Scheduler} {s : SchedState n}
  {m : Nat → Nat → List ThreadId} {c p q : Nat}

theorem Scheduler.highestReady_max {self : Scheduler} (h : self.highestReady = some p)
    (hq : q < priorityCount) (hbit : self.ready.getLsbD q = true) : q ≤ p := by
  obtain ⟨-, i, hi, hp, hbelow⟩ := List.find?_eq_some_iff_getElem.mp h
  by_contra hlt
  simp only [List.getElem_reverse, List.getElem_range, List.length_range] at hp hbelow
  have hno := hbelow (priorityCount - 1 - q) (by omega)
  rw [show priorityCount - 1 - (priorityCount - 1 - q) = q by omega, hbit] at hno
  cases hno

/-- A thread of processor `c` runs and no ready one has a higher priority, or none is ready. -/
def Chosen (isIdle : ThreadId → Prop) (c : Nat) (r : Except Error ThreadId) (threads : Threads n) :
    Prop :=
  (∃ id p, r = .ok id ∧ threads.key id = some (.running, c, p) ∧
    ∀ j q, threads.key j = some (.ready, c, q) → q ≤ p) ∨
  ((∀ id, r = .ok id → isIdle id) ∧ ∀ j q, threads.key j ≠ some (.ready, c, q))

theorem RunQueues.chosen (h : RunQueues isIdle (update queues c s.scheduler) s.threads m)
    (hc : c < cpus) : pickNext.wp (fun r s' => Chosen isIdle c r s'.threads) s := by
  obtain ⟨s₁, m₁, hrequeue, h₁, -⟩ := requeueCurrent_spec h hc
  have hq : Queues s₁ (m₁ c) := by
    have := h₁.lists.queues c hc
    rwa [update_self] at this
  -- a thread that is ready has its bit
  have hbit : ∀ j q, s₁.threads.key j = some (.ready, c, q) →
      q < priorityCount ∧ s₁.scheduler.ready.getLsbD q = true := by
    intro j q hj
    have hlt := h₁.priority j _ _ _ hj
    exact ⟨hlt, (hq.ready_iff q hlt).mpr (List.ne_nil_of_mem ((h₁.mem_iff c hc q hlt j).mpr hj))⟩
  cases hhigh : s₁.scheduler.highestReady with
  | none =>
    have hnone : ∀ j q, s₁.threads.key j ≠ some (.ready, c, q) := by
      intro j q hj
      obtain ⟨hlt, hset⟩ := hbit j q hj
      exact List.find?_eq_none.mp hhigh q (by simpa using hlt) hset
    have hidle := h₁.idle c hc
    rw [update_self] at hidle
    unfold Prog.wp Chosen
    cases hi : s₁.scheduler.idle <;> simp_all [pickNext, bind, gets, Prog.ofOption, Prog.ofExcept,
      modifySelf, Prog.modify, pure]
  | some p =>
    obtain ⟨hp, hset⟩ := highestReady_spec hhigh
    obtain ⟨id, l, hlist⟩ := List.exists_cons_of_ne_nil ((hq.ready_iff p hp).mp hset)
    have hid : id ∈ m₁ c p := by simp [hlist]
    have hhead : (s₁.scheduler.queue p).head = some id := by
      rw [queue_of_lt _ hp, hq.head_eq p hp, hlist]
      rfl
    obtain ⟨t, ht, hkt⟩ := key_eq_some.mp ((h₁.mem_iff c hc p hp id).mp hid)
    obtain ⟨hstate, hcpu, rfl⟩ : t.state = .ready ∧ t.cpu = c ∧ t.priority = p := by simpa using hkt
    obtain ⟨s₂, hdeq, hkeys, -⟩ := h₁.lists.dequeue_spec hc ht hp (.inl hid)
    obtain ⟨t₂, ht₂, hkt₂⟩ := key_eq_some.mp ((congrFun hkeys.key id).trans (key_of_get? ht))
    simp only [Prod.mk.injEq, hstate] at hkt₂
    have hkey : (pickNext s).1 = .ok id ∧
        (pickNext s).2.threads.key = update s₁.threads.key id (some (.running, c, t.priority)) := by
      simp [pickNext, bind, hrequeue, gets, hhigh, hhead, Prog.ofOption, Prog.ofExcept, modifySelf,
        modifyThread, Prog.modify, pure, hdeq, getThread_of_get? ht₂, nextState, hkt₂, transition,
        key_modify s₂.threads ht₂, hkeys.key, hcpu]
    refine .inl ⟨id, t.priority, hkey.1, by rw [hkey.2, update_self], fun j q hj => ?_⟩
    rw [hkey.2] at hj
    by_cases hji : j = id
    · simp [hji] at hj
    · rw [update_of_ne hji] at hj
      exact highestReady_max hhigh (hbit j q hj).1 (hbit j q hj).2

namespace SchedCall

/-- In every state that is reached, the thread that a processor chooses next is of the highest
priority among its ready threads, and is an idle thread only when none of them is ready. -/
theorem chosen_of_reached (isIdle : ThreadId → Prop) (s : ProcState n) (h : Reached isIdle s) :
    Processors.pickNext.wp (fun r s' => Chosen isIdle s.processors.caller r s'.threads) s := by
  obtain ⟨m, hm⟩ := sorted_of_reached h
  rw [← update_eq_self s.processors.caller s.processors.queues] at hm
  refine (Prog.wp_bind (m := gets _)).mpr ⟨fun c hcaller => ?_, nofun⟩
  cases hcaller
  refine Prog.wp_require_bind.mpr ⟨fun hc => ?_, fun hc => .inr ⟨nofun, fun j q hj => ?_⟩⟩
  · have hpick := RunQueues.chosen (s := ⟨_, _⟩) hm hc
    have hid : ∀ r : Except Error ThreadId, r.mapError id = r := by rintro (_ | _) <;> rfl
    simpa [Processors.onCpu, Prog.zoom, Prog.wp, hid, gets] using hpick
  · exact hc (hm.ready j _ q hj).1

/-- A processor whose only other thread has started. -/
theorem chosen_of_reached_started :
    let s := ([.setIdle ⟨1, 1⟩, .start ⟨0, 1⟩] : List SchedCall).foldl run twoThreads
    Reached (· = ⟨1, 1⟩) s ∧
      Processors.pickNext.wp (fun r s' => Chosen (· = ⟨1, 1⟩) 0 r s'.threads) s := by
  have hreached : Reached (· = (⟨1, 1⟩ : ThreadId)) _ := .call _ (.start ⟨0, 1⟩)
    (.call _ (.setIdle ⟨1, 1⟩) (.initial _ initial_twoThreads) rfl) (by simp [Allowed])
  exact ⟨hreached, chosen_of_reached _ _ hreached⟩

end SchedCall

end Audhsos
