import Audhsos.Sched.DeadlineArray
import Audhsos.Sched.Refusals

/-!
Runs of one scheduler, seen from its deadlines. `due` is the deadline each thread waits for;
whichever call moves a thread out of its wait takes its entry out of the heap, and `expired` hands
out the threads whose time has come, the earliest first.
-/

namespace Audhsos

open Lib Scheduler Deadlines Function Option
open Threads (timers_of_get? timers_setState)
open Prog (ofOption run_bind)

variable {n : Nat} {s s' s₁ s₂ : SchedState n} {id : ThreadId} {t : Thread} {event : Event}
  {w : ThreadId → Option Nat} {here : ThreadId → Bool} {f : α → Prog Error (SchedState n) β}
  {m : Prog Error (SchedState n) α} {α β : Type} {st : ThreadState} {deadline : Nat}

namespace SchedState

def due (here : ThreadId → Bool) (s : SchedState n) (id : ThreadId) : Option Nat :=
  if here id then (s.threads.timers id).bind (·.deadline) else none

def stateAt (s : SchedState n) (id : ThreadId) : Option ThreadState :=
  (s.threads.timers id).map (·.state)

/-- The heap is in order, and the threads it names are of this scheduler and wait for a
notification. -/
structure Waiting (here : ThreadId → Bool) (s : SchedState n) : Prop where
  timed : Timed here s.scheduler.deadlines s.threads
  mine : ∀ e, s.scheduler.deadlines.Member e → here e.id
  waits : ∀ e, s.scheduler.deadlines.Member e → Live s.threads e →
    s.stateAt e.id = some .blockedNotification

theorem Waiting.due_eq_some (h : s.Waiting here) {d : Nat} : s.due here id = some d ↔
    ∃ e, s.scheduler.deadlines.Member e ∧ Live s.threads e ∧ e.id = id ∧ e.deadline = d := by
  unfold due
  constructor
  · intro hdue
    by_cases hhere : here id
    · rw [if_pos hhere] at hdue
      obtain ⟨timer, htimer, hd⟩ := bind_eq_some_iff.mp hdue
      obtain ⟨e, he, rfl⟩ := h.timed.known id timer hhere htimer (.inl (by rw [hd]; simp))
      have hdeadline := (h.timed.recorded.deadline_of_member he htimer).1
      exact ⟨e, he, by rw [Live, htimer]; simp, rfl, mem_unique hdeadline hd⟩
    · rw [if_neg hhere] at hdue
      cases hdue
  · rintro ⟨e, he, hlive, rfl, rfl⟩
    obtain ⟨timer, htimer⟩ := ne_none_iff_exists'.mp hlive
    rw [if_pos (h.mine e he), htimer]
    exact (h.timed.recorded.deadline_of_member he htimer).1

theorem Waiting.blocked_of_due (h : s.Waiting here) (hdue : s.due here id ≠ none) :
    s.stateAt id = some .blockedNotification := by
  obtain ⟨d, hd⟩ := ne_none_iff_exists'.mp hdue
  obtain ⟨e, he, hlive, rfl, -⟩ := h.due_eq_some.mp hd
  exact h.waits e he hlive

/-- The deadlines that are left when the threads that do not wait any more have none. -/
def kept (s : SchedState n) (w : ThreadId → Option Nat) (id : ThreadId) : Option Nat :=
  if s.stateAt id = some .blockedNotification then w id else none

/-- The invariant is kept, and of the deadlines those of the threads that still wait. -/
def Passes (here : ThreadId → Bool) (s s' : SchedState n) : Prop :=
  s.Waiting here → s'.Waiting here ∧ s'.due here = s'.kept (s.due here)

theorem Waiting.kept_due (h : s.Waiting here) : s.kept (s.due here) = s.due here := by
  funext id
  unfold kept
  by_cases hstate : s.stateAt id = some .blockedNotification
  · rw [if_pos hstate]
  · rw [if_neg hstate]
    by_contra hne
    exact hstate (h.blocked_of_due (Ne.symm hne))

theorem Passes.refl (s : SchedState n) : Passes here s s := fun h => ⟨h, h.kept_due.symm⟩

theorem Passes.of_timers (h : Passes here s s₁) (htimers : timers s₂ = timers s₁) :
    Passes here s s₂ := by
  obtain ⟨hheap, hthreads⟩ := timers_eq_iff.mp htimers
  intro hw
  obtain ⟨h₁, hdue⟩ := h hw
  have hstate : s₂.stateAt = s₁.stateAt := by
    funext id
    rw [stateAt, stateAt, hthreads]
  refine ⟨⟨?_, fun e he => h₁.mine e (hheap ▸ he), fun e he hlive => ?_⟩, ?_⟩
  · obtain ⟨⟨⟨hdistinct, hrecorded⟩, hknown, hlen, hlt, hinj⟩, hheaped, hrest⟩ := h₁.timed
    rw [hheap]
    refine ⟨⟨⟨hdistinct, fun i hi timer ht => ?_⟩, fun id timer hhere ht => ?_, hlen, hlt, hinj⟩,
      hheaped, hrest⟩
    · rw [hthreads] at ht
      exact hrecorded i hi timer ht
    · rw [hthreads] at ht
      exact hknown id timer hhere ht
  · rw [hstate]
    rw [hheap] at he
    rw [Live, hthreads] at hlive
    exact h₁.waits e he hlive
  · funext id
    have hid := congrFun hdue id
    unfold due kept at hid ⊢
    rw [hthreads, hstate]
    exact hid

theorem Passes.trans (h : Passes here s s₁) (h' : Passes here s₁ s₂)
    (hstate : ∀ id, s₂.stateAt id = some .blockedNotification →
      s₁.stateAt id = some .blockedNotification) : Passes here s s₂ := by
  intro hw
  obtain ⟨hw₁, hdue₁⟩ := h hw
  obtain ⟨hw₂, hdue₂⟩ := h' hw₁
  refine ⟨hw₂, ?_⟩
  rw [hdue₂, hdue₁]
  funext id
  unfold kept
  by_cases hid : s₂.stateAt id = some .blockedNotification
  · rw [if_pos hid, if_pos hid, if_pos (hstate id hid)]
  · rw [if_neg hid, if_neg hid]

end SchedState

open SchedState

/-! ## One call -/

theorem passes_bind (hm : Passes here s (m s).2) (hf : ∀ a, (f a).Keeps timers) :
    Passes here s ((m >>= f) s).2 := by
  rw [run_bind]
  generalize m s = answer at hm ⊢
  rcases answer with ⟨e | a, s₁⟩
  · exact hm
  · exact hm.of_timers (hf a s₁)

theorem passes_of_keeps (hm : m.Keeps timers) (s : SchedState n) : Passes here s (m s).2 :=
  (Passes.refl s).of_timers (hm s)

theorem timed_setState (st : ThreadState) (ht : s.threads.get? id = some t)
    (h : Timed here s.scheduler.deadlines s.threads) :
    Timed here s.scheduler.deadlines (s.threads.modify id (·.setState st)) := by
  have htimers := timers_setState st ht
  refine ⟨⟨⟨h.recorded.distinct, fun i hi timer htimer => ?_⟩,
    fun j timer hhere htimer hset => ?_, h.len_le, h.order_lt, h.order_inj⟩, h.heaped, h.rest⟩
  · rw [htimers] at htimer
    by_cases hj : (s.scheduler.deadlines.entries i).id = id
    · rw [if_pos hj] at htimer
      obtain rfl := some.inj htimer
      exact h.recorded.recorded i hi t.timer (hj ▸ timers_of_get? ht)
    · rw [if_neg hj] at htimer
      exact h.recorded.recorded i hi timer htimer
  · rw [htimers] at htimer
    by_cases hj : j = id
    · rw [if_pos hj] at htimer
      obtain rfl := some.inj htimer
      exact h.known j t.timer hhere (hj ▸ timers_of_get? ht) hset
    · rw [if_neg hj] at htimer
      exact h.known j timer hhere htimer hset

theorem passes_setState (ht : s.threads.get? id = some t)
    (hstate : t.state ≠ .blockedNotification) :
    Passes here s { s with threads := s.threads.modify id (·.setState st) } := by
  intro h
  have htimers := timers_setState st ht
  have hnot : ∀ e, s.scheduler.deadlines.Member e → e.id ≠ id := by
    intro e he hid
    have hlive : Live s.threads e := by
      rw [Live, hid, timers_of_get? ht]
      simp
    have hwaits := h.waits e he hlive
    rw [stateAt, hid, timers_of_get? ht] at hwaits
    exact hstate (some.inj hwaits)
  have hdue : ∀ j, ({ s with threads := s.threads.modify id (·.setState st) } :
      SchedState n).due here j = s.due here j := by
    intro j
    unfold due
    rw [htimers]
    by_cases hj : j = id
    · rw [if_pos hj, hj, timers_of_get? ht]
      rfl
    · rw [if_neg hj]
  have hdue_id : s.due here id = none := by
    by_contra hne
    have hblocked := h.blocked_of_due hne
    rw [stateAt, timers_of_get? ht] at hblocked
    exact hstate (some.inj hblocked)
  refine ⟨⟨timed_setState st ht h.timed, h.mine, fun e he hlive => ?_⟩, ?_⟩
  · rw [Live, htimers, if_neg (hnot e he)] at hlive
    rw [stateAt, htimers, if_neg (hnot e he)]
    exact h.waits e he hlive
  · funext j
    rw [hdue, kept]
    by_cases hblocked : SchedState.stateAt { s with
        threads := s.threads.modify id (·.setState st) } j = some .blockedNotification
    · rw [if_pos hblocked]
    rw [if_neg hblocked]
    by_cases hj : j = id
    · rw [hj]
      exact hdue_id
    · by_contra hne
      have hwas := h.blocked_of_due hne
      rw [stateAt, htimers, if_neg hj] at hblocked
      exact hblocked hwas

theorem passes_leaveWait {ended : Nat} (ht : s.threads.get? id = some t)
    (hst : st ≠ .blockedNotification) {heap' : Deadlines} {threads' : Threads n}
    (hremove : s.scheduler.deadlines.remove (s.threads.modify id (·.setState st)) id =
      (heap', threads')) :
    Passes here s ⟨{ s.scheduler with ended, deadlines := heap' }, threads'⟩ := by
  intro h
  have htimers := timers_setState st ht
  obtain ⟨heap₁, threads₁, heq, htimed₁, hmember, hstates⟩ :=
    (timed_setState st ht h.timed).remove ((htimers id).trans (if_pos rfl))
  obtain ⟨rfl, rfl⟩ := Prod.mk.inj (hremove.symm.trans heq)
  let s' : SchedState n := ⟨{ s.scheduler with ended, deadlines := heap' }, threads'⟩
  have hstate : ∀ j, s'.stateAt j = if j = id then some st else s.stateAt j := by
    intro j
    refine (hstates j).trans ?_
    rw [htimers]
    by_cases hj : j = id
    · rw [if_pos hj, if_pos hj]
      rfl
    · rw [if_neg hj, if_neg hj]
      rfl
  have hlive : ∀ e, Live threads' e ↔ Live s.threads e := by
    intro e
    refine (live_congr hstates e).trans ?_
    unfold Live
    rw [htimers]
    by_cases hj : e.id = id
    · rw [if_pos hj, hj, timers_of_get? ht]
      simp
    · rw [if_neg hj]
  have hwaiting : s'.Waiting here := by
    refine ⟨htimed₁, fun e he => h.mine e ((hmember e).mp he).1, fun e he hl => ?_⟩
    obtain ⟨hm, hne⟩ := (hmember e).mp he
    rw [hstate, if_neg hne]
    exact h.waits e hm ((hlive e).mp hl)
  refine ⟨hwaiting, ?_⟩
  funext j
  refine Option.ext fun d => ?_
  change s'.due here j = some d ↔
    (if s'.stateAt j = some .blockedNotification then s.due here j else none) = some d
  rw [hwaiting.due_eq_some, hstate]
  by_cases hj : j = id
  · rw [if_pos hj, if_neg fun heq => hst (some.inj heq)]
    refine ⟨?_, nofun⟩
    rintro ⟨e, he, -, rfl, -⟩
    exact absurd hj ((hmember e).mp he).2
  rw [if_neg hj]
  have hiff : (∃ e, s'.scheduler.deadlines.Member e ∧ Live s'.threads e ∧ e.id = j ∧
      e.deadline = d) ↔ s.due here j = some d := by
    rw [h.due_eq_some]
    constructor
    · rintro ⟨e, he, hl, hid, hd⟩
      exact ⟨e, ((hmember e).mp he).1, (hlive e).mp hl, hid, hd⟩
    · rintro ⟨e, he, hl, hid, hd⟩
      exact ⟨e, (hmember e).mpr ⟨he, hid ▸ hj⟩, (hlive e).mpr hl, hid, hd⟩
  rw [hiff]
  by_cases hblocked : s.stateAt j = some .blockedNotification
  · rw [if_pos hblocked]
  rw [if_neg hblocked]
  constructor
  · intro hd
    exact absurd (h.blocked_of_due (by rw [hd]; simp)) hblocked
  · nofun

theorem transition_blockedNotification {a : ThreadState}
    (h : transition a event = some .blockedNotification) : a ≠ .blockedNotification := by
  rintro rfl
  cases event <;> cases h

theorem passes_apply (s : SchedState n) (id : ThreadId) (event : Event) :
    Passes here s (apply id event s).2 := by
  cases ht : s.threads.get? id with
  | none =>
    have heq : apply id event s = (.error .invalidHandle, s) := by simp [apply, bind, getThread, ht]
    rw [heq]
    exact Passes.refl s
  | some t =>
    cases htr : transition t.state event with
    | none =>
      rw [apply_refused ht htr]
      exact Passes.refl s
    | some st =>
      by_cases hst : st = .blockedNotification
      · subst hst
        rw [apply_blocked ht htr]
        exact passes_setState ht (transition_blockedNotification htr)
      · have heq : (apply id event s).2 = ⟨{ s.scheduler with
            ended := if st = .exited ∧ t.state ≠ .exited then satAdd32 s.scheduler.ended 1
              else s.scheduler.ended
            deadlines := (s.scheduler.deadlines.remove
              (s.threads.modify id (·.setState st)) id).1 },
            (s.scheduler.deadlines.remove (s.threads.modify id (·.setState st)) id).2⟩ := by
          by_cases hexit : st = .exited ∧ t.state ≠ .exited <;>
            simp [apply, bind, getThread_of_get? ht, Prog.ofExcept, nextState, htr, hst,
              modifyThread, modifySelf, removeDeadline, Prog.modify, pure, hexit]
        rw [heq]
        exact passes_leaveWait ht hst rfl

theorem passes_reads (hm : m.Reads) (hf : ∀ a, Passes here s (f a s).2) :
    Passes here s ((m >>= f) s).2 := by
  rw [run_bind]
  have hs := hm s
  generalize m s = answer at hs ⊢
  rcases answer with ⟨e | a, s₁⟩
  · obtain rfl : s₁ = s := hs
    exact Passes.refl s₁
  · obtain rfl : s₁ = s := hs
    exact hf a

theorem getThread_reads (id : ThreadId) :
    (getThread id : Prog Error (SchedState n) _).Reads := fun _ => rfl

section

variable (s : SchedState n) (id : ThreadId)

theorem passes_becomesReady (event : Event) : Passes here s (becomesReady id event s).2 :=
  passes_bind (passes_apply s id event) fun _ =>
    .bind (unqueued_timers.keeps_link id .tail) fun _ => .gets _

theorem passes_leavesTheProcessor (event : Event) :
    Passes here s (leavesTheProcessor id event s).2 :=
  passes_bind (passes_apply s id event) fun _ => unqueued_timers.keeps_leaves id

theorem passes_onBlock (event : Event) : Passes here s (onBlock id event s).2 :=
  passes_reads (.require _ _) fun _ => passes_leavesTheProcessor s id event

theorem passes_onWake : Passes here s (onWake id s).2 := by
  refine passes_reads (getThread_reads id) fun thread => ?_
  rw [Prog.run_ite]
  split
  · exact Passes.refl s
  · exact passes_becomesReady s id .wake

theorem passes_exit : Passes here s (exit id s).2 := by
  refine passes_reads (getThread_reads id) fun thread => ?_
  rw [Prog.run_ite]
  split
  · exact Passes.refl s
  · exact passes_leavesTheProcessor s id .exit

theorem passes_yieldNow : Passes here s (yieldNow id s).2 :=
  passes_bind (passes_apply s id .yield) fun _ => .bind (keeps_getThread id) fun _ =>
    .bind (unqueued_timers.keeps_spendSlice id) fun _ =>
      .bind (unqueued_timers.keeps_link id .tail) fun _ => .pure _

end

/-! ## Choosing -/

theorem passes_requeueCurrent (s : SchedState n) : Passes here s (requeueCurrent s).2 := by
  unfold requeueCurrent
  rw [Prog.run_bind_ok (Prog.run_get s)]
  cases s.scheduler.current with
  | none => exact Passes.refl s
  | some current =>
    dsimp only
    cases s.threads.get? current with
    | none => exact Passes.refl s
    | some thread =>
      dsimp only
      rw [Prog.run_ite]
      split
      · rw [Prog.run_attempt_bind]
        generalize (if 0 < thread.timeSlice ∧ s.scheduler.highestReady.any (thread.priority < ·) then
          Event.displaced else Event.sliceExpired) = event
        refine (passes_apply s current event).of_timers ?_
        generalize apply current event s = answer
        rcases answer with ⟨e | _, s₁⟩
        · rfl
        · dsimp only
          split
          · exact unqueued_timers.keeps_link _ _ s₁
          · exact Prog.Keeps.bind (unqueued_timers.keeps_spendSlice _)
              (fun _ => unqueued_timers.keeps_link _ _) s₁
      · exact Passes.refl s

theorem passes_chosen (s : SchedState n) (id : ThreadId) :
    Passes here s (chosen id s).2 ∧ ∀ j, (chosen id s).2.stateAt j = some .blockedNotification →
      s.stateAt j = some .blockedNotification := by
  unfold chosen
  simp only [run_bind, getThread, Prog.ofExcept, nextState]
  cases ht : s.threads.get? id with
  | none => exact ⟨Passes.refl s, fun _ hj => hj⟩
  | some t =>
    simp only [elim_some]
    cases htr : transition t.state .schedule with
    | none => exact ⟨Passes.refl s, fun _ hj => hj⟩
    | some st =>
      obtain ⟨hready, rfl⟩ : t.state = .ready ∧ st = .running := by
        cases hs : t.state <;> simp_all [transition]
      have htimers : Threads.timers (s.threads.modify id fun thread =>
          (thread.setState .running).setTimeSlice (if thread.timeSlice = 0 then
            defaultTimeSliceTicks else thread.timeSlice)) =
          Threads.timers (s.threads.modify id (·.setState .running)) := by
        funext j
        exact (s.threads.timers_modify id (g := fun timer => { timer with state := .running })
          (fun _ => rfl) j).trans (s.threads.timers_modify id (fun _ => rfl) j).symm
      refine ⟨(passes_setState ht (by rw [hready]; simp)).of_timers
        (timers_eq_iff.mpr ⟨rfl, htimers⟩), fun j hj => ?_⟩
      replace hj := (congrArg (Option.map Timer.state) (congrFun htimers j)).symm.trans hj
      rw [timers_setState _ ht] at hj
      by_cases hid : j = id
      · rw [if_pos hid] at hj
        cases hj
      · rwa [if_neg hid] at hj

theorem passes_pickNext (s : SchedState n) : Passes here s (pickNext s).2 := by
  have hrequeue : Passes here s _ := passes_requeueCurrent s
  unfold pickNext
  rw [run_bind]
  generalize requeueCurrent s = answer at hrequeue ⊢
  rcases answer with ⟨e | _, s₁⟩
  · exact hrequeue
  dsimp only
  rw [Prog.run_bind_ok (show Prog.gets (·.scheduler) s₁ = (.ok s₁.scheduler, s₁) from rfl)]
  cases s₁.scheduler.highestReady with
  | none =>
    dsimp only
    refine hrequeue.of_timers (Prog.Keeps.bind (.ofOption _ _) (fun _ => ?_) s₁)
    exact .bind (keepsTimers_modifySelf fun _ => rfl) fun _ => .pure _
  | some priority =>
    dsimp only
    cases (s₁.scheduler.queue priority).head with
    | none => exact hrequeue
    | some id =>
      have hdequeue := hrequeue.of_timers (unqueued_timers.keeps_dequeue id s₁)
      rw [Prog.run_bind_ok (show ofOption (some id) Error.invalidState s₁ = _ from rfl), run_bind]
      generalize dequeue id s₁ = answer at hdequeue ⊢
      rcases answer with ⟨e | _, s₂⟩
      · exact hdequeue
      · obtain ⟨hpasses, hstate⟩ := passes_chosen s₂ id
        exact hdequeue.trans hpasses hstate

/-! ## Waits with a deadline -/

/-- A wait with a deadline begins: the deadline is the one that is added, and its entry comes after
those that are there. -/
theorem waiting_onBlockUntil {o : Outcome} (h : s.Waiting here)
    (hhere : here id) (hrun : onBlockUntil id event deadline s = (.ok o, s')) :
    s'.Waiting here ∧
      s'.due here = update (s'.kept (s.due here)) id (some deadline) ∧
      ∀ e, s'.scheduler.deadlines.Member e ↔
        e = ⟨deadline, s.scheduler.deadlines.order, id⟩ ∨ s.scheduler.deadlines.Member e := by
  rcases onBlockUntil_cases s id event deadline with
    ⟨e, heq⟩ | ⟨e, s₁, -, heq⟩ | ⟨o', s₁, rfl, hcan, hblock, heq⟩
  · rw [heq] at hrun
    cases hrun
  · rw [heq] at hrun
    cases hrun
  obtain ⟨timer, htimer, -⟩ := canInsert_ok hcan
  obtain ⟨t, ht, -⟩ := get?_of_timers htimer
  have hpasses : Passes here s _ := passes_onBlock s id .blockNotification
  rw [hblock] at hpasses
  obtain ⟨h₁, hdue₁⟩ := hpasses h
  obtain ⟨hheap, htimers⟩ := timers_onBlock_notification ht hblock
  obtain ⟨heap', threads', hinsert, htimed, hmember, hstates⟩ :=
    h₁.timed.insert deadline (canInsert_onBlock ht hblock hcan)
  rw [heq, hinsert] at hrun
  obtain rfl : (⟨{ s₁.scheduler with deadlines := heap' }, threads'⟩ : SchedState n) = s' :=
    (Prod.mk.inj hrun).2
  let s' : SchedState n := ⟨{ s₁.scheduler with deadlines := heap' }, threads'⟩
  have hstate : s'.stateAt = s₁.stateAt := funext hstates
  have hblocked : s₁.stateAt id = some .blockedNotification := by
    rw [stateAt, htimers id, if_pos rfl]
    rfl
  have hmine : ∀ e, heap'.Member e → here e.id := by
    intro e he
    rcases (hmember e).mp he with rfl | he
    · exact hhere
    · exact h₁.mine e he
  have hwaiting : s'.Waiting here := by
    refine ⟨htimed, hmine, fun e he hlive => ?_⟩
    rw [hstate]
    rcases (hmember e).mp he with rfl | he
    · exact hblocked
    · exact h₁.waits e he ((live_congr hstates e).mp hlive)
  refine ⟨hwaiting, ?_, fun e => (hmember e).trans (by rw [hheap])⟩
  funext j
  have hkept : s'.kept (s.due here) = s₁.due here := by
    rw [hdue₁]
    funext i
    unfold kept
    rw [hstate]
  rw [hkept]
  by_cases hj : j = id
  · rw [hj, update_self, hwaiting.due_eq_some]
    refine ⟨_, (hmember _).mpr (.inl rfl), ?_, rfl, rfl⟩
    rw [live_congr hstates, Live]
    intro hnone
    rw [stateAt, hnone] at hblocked
    cases hblocked
  · rw [update_of_ne hj]
    refine Option.ext fun d => ?_
    rw [hwaiting.due_eq_some, h₁.due_eq_some]
    constructor
    · rintro ⟨e, he, hlive, rfl, hd⟩
      rcases (hmember e).mp he with rfl | he
      · exact absurd rfl hj
      · exact ⟨e, he, (live_congr hstates e).mp hlive, rfl, hd⟩
    · rintro ⟨e, he, hlive, hid, hd⟩
      exact ⟨e, (hmember e).mpr (.inr he), (live_congr hstates e).mpr hlive, hid, hd⟩

theorem passes_onBlockUntil {e : Error}
    (hrun : onBlockUntil id event deadline s = (.error e, s')) (h : s.Waiting here) :
    s'.Waiting here ∧ s'.due here = s'.kept (s.due here) := by
  rcases onBlockUntil_cases s id event deadline with
    ⟨e, heq⟩ | ⟨e, s₁, hblock, heq⟩ | ⟨o', s₁, rfl, hcan, hblock, heq⟩
  · rw [heq] at hrun
    obtain rfl := (Prod.mk.inj hrun).2
    exact Passes.refl s h
  · rw [heq] at hrun
    obtain rfl := (Prod.mk.inj hrun).2
    have hpasses : Passes here s _ := passes_onBlock s id event
    rw [hblock] at hpasses
    exact hpasses h
  · obtain ⟨timer, htimer, -⟩ := canInsert_ok hcan
    obtain ⟨t, ht, -⟩ := get?_of_timers htimer
    rw [heq, insert_of_canInsert deadline (canInsert_onBlock ht hblock hcan)] at hrun
    cases hrun

/-- The thread that `expired` answers has no deadline any more, the others keep theirs. -/
theorem waiting_expired (h : s.Waiting here) (now : Nat) :
    ∃ answer s', expired now s = (.ok answer, s') ∧ s'.Waiting here ∧
      Expires now s.scheduler.deadlines s.threads s'.scheduler.deadlines answer ∧
      (∀ e, Live s'.threads e ↔ Live s.threads e) ∧
      s'.due here = answer.elim (s'.kept (s.due here))
        (fun id => update (s'.kept (s.due here)) id none) := by
  obtain ⟨answer, heap', threads', heq, htimed, hsub, hexpires, hstates⟩ := h.timed.expired now
  let s' : SchedState n := ⟨{ s.scheduler with deadlines := heap' }, threads'⟩
  have hrun : expired now s = (.ok answer, s') := by
    unfold Scheduler.expired
    rw [heq]
  have hlive := live_congr hstates
  have hstate : s'.stateAt = s.stateAt := funext hstates
  have hwaiting : s'.Waiting here := by
    refine ⟨htimed, fun e he => h.mine e (hsub e he), fun e he hl => ?_⟩
    rw [hstate]
    exact h.waits e (hsub e he) ((hlive e).mp hl)
  refine ⟨answer, s', hrun, hwaiting, hexpires, hlive, ?_⟩
  have hkept : s'.kept (s.due here) = s.due here := by
    refine Eq.trans ?_ h.kept_due
    funext j
    unfold kept
    rw [hstate]
  rw [hkept]
  funext j
  refine Option.ext fun d => ?_
  rw [hwaiting.due_eq_some]
  cases answer with
  | none =>
    refine Iff.trans ?_ h.due_eq_some.symm
    refine exists_congr fun e => ⟨fun ⟨he, hl, hid⟩ => ⟨hsub e he, (hlive e).mp hl, hid⟩, ?_⟩
    exact fun ⟨he, hl, hid⟩ => ⟨(hexpires.1 e hl).mpr he, (hlive e).mpr hl, hid⟩
  | some id =>
    obtain ⟨e₀, hm₀, -, hid₀, -, -, -, hrest⟩ := hexpires
    change _ ↔ update (s.due here) id none j = some d
    by_cases hj : j = id
    · rw [hj, update_self]
      refine ⟨?_, nofun⟩
      rintro ⟨e, he, hl, hid, -⟩
      have hmem := (hrest e ((hlive e).mp hl)).mp he
      exact absurd (h.timed.recorded.member_ext hmem.1 hm₀ (hid.trans hid₀.symm)) hmem.2
    · rw [update_of_ne hj, h.due_eq_some]
      constructor
      · rintro ⟨e, he, hl, hid⟩
        exact ⟨e, hsub e he, (hlive e).mp hl, hid⟩
      · rintro ⟨e, he, hl, hid, hd⟩
        refine ⟨e, (hrest e hl).mpr ⟨he, ?_⟩, (hlive e).mpr hl, hid, hd⟩
        rintro rfl
        exact hj (hid.symm.trans hid₀)

/-! ## What happens elsewhere -/

/-- The rest of the system, other processors among it, does not touch the timers of the threads of
this scheduler: it destroys threads and makes new ones. -/
def Elsewhere (here : ThreadId → Bool) (s : SchedState n) (threads : Threads n) : Prop :=
  ∀ id, here id → threads.timers id = s.threads.timers id ∨ threads.timers id = none ∨
    (∀ e, s.scheduler.deadlines.Member e → e.id ≠ id) ∧
      ∃ timer, threads.timers id = some timer ∧ timer.deadline = none ∧ timer.index = none

theorem passes_elsewhere {threads : Threads n} (helse : Elsewhere here s threads) :
    Passes here s { s with threads } := by
  intro h
  -- a thread that is in the heap and alive is as it was
  have hsame : ∀ e, s.scheduler.deadlines.Member e → threads.timers e.id ≠ none →
      threads.timers e.id = s.threads.timers e.id := by
    intro e he hl
    rcases helse e.id (h.mine e he) with heq | hnone | ⟨hnot, -⟩
    · exact heq
    · exact absurd hnone hl
    · exact absurd rfl (hnot e he)
  have hknown : Known here s.scheduler.deadlines threads := by
    intro id timer hhere htimer hset
    rcases helse id hhere with heq | hnone | ⟨-, timer', htimer', hd, hi⟩
    · exact h.timed.known id timer hhere (heq ▸ htimer) hset
    · rw [hnone] at htimer
      cases htimer
    · obtain rfl := mem_unique htimer htimer'
      rcases hset with hset | hset
      · exact absurd hd hset
      · exact absurd hi hset
  have hwaiting : SchedState.Waiting here { s with threads } := by
    refine ⟨⟨⟨⟨h.timed.recorded.distinct, fun i hi timer htimer => ?_⟩, hknown, h.timed.len_le,
      h.timed.order_lt, h.timed.order_inj⟩, h.timed.heaped, h.timed.rest⟩, h.mine,
      fun e he hl => ?_⟩
    · refine h.timed.recorded.recorded i hi timer ?_
      rw [← hsame _ ⟨i, hi, rfl⟩ (by rw [htimer]; simp)]
      exact htimer
    · have heq := hsame e he hl
      rw [stateAt, heq]
      exact h.waits e he (by rwa [Live, ← heq])
  refine ⟨hwaiting, funext fun id => ?_⟩
  refine Option.ext fun d => ?_
  rw [hwaiting.due_eq_some]
  unfold kept
  constructor
  · rintro ⟨e, he, hl, rfl, rfl⟩
    rw [if_pos (hwaiting.waits e he hl), h.due_eq_some]
    exact ⟨e, he, by rwa [Live, ← hsame e he hl], rfl, rfl⟩
  · intro hdue
    by_cases hblocked : SchedState.stateAt { s with threads } id = some .blockedNotification
    · rw [if_pos hblocked, h.due_eq_some] at hdue
      obtain ⟨e, he, -, rfl, hd⟩ := hdue
      refine ⟨e, he, fun hnone => ?_, rfl, hd⟩
      rw [stateAt, hnone] at hblocked
      cases hblocked
    · rw [if_neg hblocked] at hdue
      cases hdue

/-! ## Runs -/

namespace SchedCall

def step (s : SchedState n) : SchedCall → SchedState n
  | .start id => (Scheduler.start id s).2
  | .onBlock id event => (Scheduler.onBlock id event s).2
  | .onBlockUntil id event deadline => (Scheduler.onBlockUntil id event deadline s).2
  | .onWake id => (Scheduler.onWake id s).2
  | .suspend id => (Scheduler.suspend id s).2
  | .resume id => (Scheduler.resume id s).2
  | .fault id => (Scheduler.fault id s).2
  | .exit id => (Scheduler.exit id s).2
  | .yieldNow id => (Scheduler.yieldNow id s).2
  | .setPriority id priority => (Scheduler.setPriority id priority s).2
  | .tick => (Scheduler.tick s).2
  | .expired now => (Scheduler.expired now s).2
  | .pickNext => (Scheduler.pickNext s).2
  | .select _ => s
  | .setIdle id => { s with scheduler := { s.scheduler with idle := some id } }
  | .adopt id => { s with scheduler := { s.scheduler with current := some id } }

/-- The deadlines threads wait for after a call, by what the calls are for: `onBlockUntil` begins a
wait, `expired` ends the one of the thread it answers, and a thread that leaves its state ends its
own. -/
def waits (s : SchedState n) (w : ThreadId → Option Nat) (call : SchedCall) :
    ThreadId → Option Nat :=
  match call with
  | .onBlockUntil id event deadline =>
    match (Scheduler.onBlockUntil id event deadline s).1 with
    | .ok _ => update ((call.step s).kept w) id (some deadline)
    | .error _ => (call.step s).kept w
  | .expired now =>
    match (Scheduler.expired now s).1 with
    | .ok (some id) => update ((call.step s).kept w) id none
    | _ => (call.step s).kept w
  | _ => (call.step s).kept w

/-- A wait with a deadline is begun with the scheduler that is the thread's home. -/
def AtHome (here : ThreadId → Bool) : SchedCall → Prop
  | .onBlockUntil id _ _ => here id
  | _ => True

/-- The states that calls of one scheduler lead to, with the deadlines its threads wait for. -/
inductive Run (here : ThreadId → Bool) : SchedState n → (ThreadId → Option Nat) → Prop where
  | new (threads : Threads n) : (∀ id timer, here id → threads.timers id = some timer →
      timer.deadline = none ∧ timer.index = none) → Run here ⟨.new, threads⟩ fun _ => none
  | call (s : SchedState n) (w : ThreadId → Option Nat) (call : SchedCall) : Run here s w →
      call.AtHome here → Run here (call.step s) (call.waits s w)
  | elsewhere (s : SchedState n) (w : ThreadId → Option Nat) (threads : Threads n) : Run here s w →
      Elsewhere here s threads → Run here { s with threads } (kept { s with threads } w)

theorem waiting_call (call : SchedCall) (hhere : call.AtHome here) (h : s.Waiting here) :
    (call.step s).Waiting here ∧ (call.step s).due here = call.waits s (s.due here) := by
  cases call with
  | start id => exact passes_becomesReady s id .start h
  | onBlock id event => exact passes_onBlock s id event h
  | onBlockUntil id event deadline =>
    unfold waits step
    obtain ⟨answer, s', hrun⟩ : ∃ answer s',
        Scheduler.onBlockUntil id event deadline s = (answer, s') := ⟨_, _, rfl⟩
    dsimp only
    rw [hrun]
    cases answer with
    | error e => exact passes_onBlockUntil hrun h
    | ok o =>
      obtain ⟨hw, hdue, -⟩ := waiting_onBlockUntil h hhere hrun
      exact ⟨hw, hdue⟩
  | onWake id => exact passes_onWake s id h
  | suspend id => exact passes_leavesTheProcessor s id .suspend h
  | resume id => exact passes_becomesReady s id .resume h
  | fault id => exact passes_leavesTheProcessor s id .fault h
  | exit id => exact passes_exit s id h
  | yieldNow id => exact passes_yieldNow s id h
  | setPriority id priority =>
    exact passes_of_keeps (unqueued_timers.keeps_setPriority id priority) s h
  | tick => exact passes_of_keeps unqueued_timers.keeps_tick s h
  | expired now =>
    obtain ⟨answer, s', hrun, hw, -, -, hdue⟩ := waiting_expired h now
    unfold waits step
    dsimp only
    rw [hrun]
    cases answer with
    | none => exact ⟨hw, hdue⟩
    | some id => exact ⟨hw, hdue⟩
  | pickNext => exact passes_pickNext s h
  | select cpu => exact Passes.refl s h
  | setIdle id => exact (Passes.refl s).of_timers rfl h
  | adopt id => exact (Passes.refl s).of_timers rfl h

/-- The heap is in order along every run, and holds the waits that were begun and have not ended. -/
theorem waiting_of_run (h : Run here s w) : s.Waiting here ∧ s.due here = w := by
  induction h with
  | new threads hnone =>
    have hwaiting : SchedState.Waiting here ⟨.new, threads⟩ := by
      refine ⟨timed_new threads hnone, ?_, ?_⟩
      · rintro e ⟨i, hi, -⟩
        exact absurd hi (Nat.not_lt_zero i)
      · rintro e ⟨i, hi, -⟩
        exact absurd hi (Nat.not_lt_zero i)
    refine ⟨hwaiting, funext fun id => ?_⟩
    by_contra hne
    obtain ⟨d, hd⟩ := ne_none_iff_exists'.mp hne
    obtain ⟨e, ⟨i, hi, -⟩, -⟩ := hwaiting.due_eq_some.mp hd
    exact absurd hi (Nat.not_lt_zero i)
  | call s w call _ hhere ih =>
    obtain ⟨hw, rfl⟩ := ih
    exact waiting_call call hhere hw
  | elsewhere s w threads _ helse ih =>
    obtain ⟨hw, rfl⟩ := ih
    exact passes_elsewhere helse hw

/-! ## Draining -/

/-- Asks `expired` until it answers nobody; `fuel` bounds the answers. -/
def drain (now : Nat) : Nat → SchedState n → List ThreadId × SchedState n
  | 0, s => ([], s)
  | fuel + 1, s =>
    match Scheduler.expired now s with
    | (.ok (some id), s') => (id :: (drain now fuel s').1, (drain now fuel s').2)
    | (_, s') => ([], s')

theorem key_lt_of_ne {heap : Deadlines} {threads : Threads n} {e e' : DeadlineEntry}
    (h : Timed here heap threads) (he : heap.Member e) (he' : heap.Member e') (hle : e.key ≤ e'.key)
    (hne : e' ≠ e) : e.key < e'.key := by
  refine lt_of_le_of_ne hle fun heq => hne ?_
  obtain ⟨i, hi, rfl⟩ := he
  obtain ⟨j, hj, rfl⟩ := he'
  have horder : (heap.entries i).order = (heap.entries j).order := congrArg (fun k => (ofLex k).2) heq
  rw [h.order_inj i hi j hj horder]

theorem drain_spec (now fuel : Nat) : ∀ s : SchedState n, s.Waiting here →
    s.scheduler.deadlines.len < fuel → ∃ es : List DeadlineEntry,
      (drain now fuel s).1 = es.map (·.id) ∧ es.Pairwise (·.key < ·.key) ∧
      (∀ e, e ∈ es ↔ s.scheduler.deadlines.Member e ∧ Live s.threads e ∧ e.deadline ≤ now) ∧
      (Scheduler.expired now (drain now fuel s).2).1 = .ok none := by
  induction fuel with
  | zero => exact fun _ _ hfuel => absurd hfuel (Nat.not_lt_zero _)
  | succ fuel ih =>
    intro s h hfuel
    obtain ⟨answer, s', hrun, hw, hexpires, hlive, -⟩ := waiting_expired h now
    unfold drain
    rw [hrun]
    cases answer with
    | none =>
      obtain ⟨hmember, hlater⟩ := hexpires
      refine ⟨[], rfl, .nil, fun e => ⟨nofun, fun ⟨he, hl, hle⟩ => ?_⟩, ?_⟩
      · exact absurd (hlater e he hl) (not_lt.mpr hle)
      · obtain ⟨answer, s'', hrun', -, hexpires', -⟩ := waiting_expired hw now
        dsimp only
        rw [hrun']
        cases answer with
        | none => rfl
        | some id =>
          obtain ⟨e, he, hl, -, hle, -⟩ := hexpires'
          have hl' := (hlive e).mp hl
          exact absurd (hlater e ((hmember e hl').mp he) hl') (not_lt.mpr hle)
    | some id =>
      obtain ⟨e, he, hl, rfl, hle, hleast, hlen, hrest⟩ := hexpires
      obtain ⟨es, hes, hsorted, hmem, hend⟩ := ih s' hw (by omega)
      -- the ones that are left are those that were there, without the one answered
      have hleft : ∀ e', e' ∈ es ↔
          (s.scheduler.deadlines.Member e' ∧ e' ≠ e) ∧ Live s.threads e' ∧ e'.deadline ≤ now := by
        intro e'
        rw [hmem, hlive]
        exact ⟨fun ⟨hm, hl', hd⟩ => ⟨(hrest e' hl').mp hm, hl', hd⟩,
          fun ⟨hm, hl', hd⟩ => ⟨(hrest e' hl').mpr hm, hl', hd⟩⟩
      refine ⟨e :: es, congrArg (e.id :: ·) hes, List.pairwise_cons.mpr ⟨fun e' he' => ?_, hsorted⟩,
        fun e' => ?_, hend⟩
      · obtain ⟨⟨hm, hne⟩, hl', -⟩ := (hleft e').mp he'
        exact key_lt_of_ne h.timed he hm (hleast e' hm hl') hne
      · rw [List.mem_cons, hleft]
        constructor
        · rintro (rfl | ⟨⟨hm, -⟩, hl', hd⟩)
          · exact ⟨he, hl, hle⟩
          · exact ⟨hm, hl', hd⟩
        · rintro ⟨hm, hl', hd⟩
          by_cases hne : e' = e
          · exact .inl hne
          · exact .inr ⟨⟨hm, hne⟩, hl', hd⟩

/-- Along every run the array is a heap of the deadlines threads wait for, in the order they were
given, and `expired` hands them out in that order. -/
theorem run_keeps_deadline_heap (here : ThreadId → Bool) (s : SchedState n)
    (w : ThreadId → Option Nat) (h : Run here s w) :
    let heap := s.scheduler.deadlines
    (∀ i, 0 < i → i < heap.len → (heap.entries ((i - 1) / 2)).key < (heap.entries i).key) ∧
    (∀ i < heap.len, ∀ t, s.threads.get? (heap.entries i).id = some t →
      t.deadlineIndex = some i ∧ t.deadline = some (heap.entries i).deadline ∧
        t.state = .blockedNotification) ∧
    (∀ id d, w id = some d ↔ s.threads.get? id ≠ none ∧
      ∃ e, heap.Member e ∧ e.id = id ∧ e.deadline = d) ∧
    (heap.len ≤ deadlineCapacity ∧ ∀ (junk : Nat → DeadlineEntry) (threads : Threads n) id d now,
      (heap.past junk).insert threads id d = ((heap.insert threads id d).1,
        (heap.insert threads id d).2.1.past junk, (heap.insert threads id d).2.2) ∧
      (heap.past junk).remove threads id =
        ((heap.remove threads id).1.past junk, (heap.remove threads id).2) ∧
      (heap.past junk).expired threads now = ((heap.expired threads now).1,
        (heap.expired threads now).2.1.past junk, (heap.expired threads now).2.2)) ∧
    (∀ e, heap.Member e → e.order < heap.order) ∧
    (∀ id event d o s', here id → Scheduler.onBlockUntil id event d s = (.ok o, s') →
      ∀ e, s'.scheduler.deadlines.Member e ↔ e = ⟨d, heap.order, id⟩ ∨ heap.Member e) ∧
    ∀ now, ∃ es : List DeadlineEntry, (drain now (heap.len + 1) s).1 = es.map (·.id) ∧
      es.Pairwise (·.key < ·.key) ∧
      (∀ e, e ∈ es ↔ heap.Member e ∧ w e.id = some e.deadline ∧ e.deadline ≤ now) ∧
      (Scheduler.expired now (drain now (heap.len + 1) s).2).1 = .ok none := by
  intro heap
  obtain ⟨hw, rfl⟩ := waiting_of_run h
  have hget : ∀ id, s.threads.get? id ≠ none ↔ s.threads.timers id ≠ none := by
    intro id
    unfold Threads.timers
    simp
  refine ⟨fun i hi hil => ?_, fun i hi t ht => ?_, fun id d => ?_, ⟨hw.timed.len_le,
    fun junk threads id d now => ⟨past_insert hw.timed.len_le d, past_remove hw.timed.len_le,
      past_expiredLoop now _ heap threads hw.timed.len_le⟩⟩, hw.timed.order_lt,
    fun id event d o s' hhere hrun => (waiting_onBlockUntil hw hhere hrun).2.2, fun now => ?_⟩
  · have hparent := parent_lt hi
    refine key_lt_of_ne hw.timed ⟨_, hparent.trans hil, rfl⟩ ⟨i, hil, rfl⟩ (hw.timed.heaped i hi hil)
      fun heq => ?_
    have hij := hw.timed.recorded.distinct _ hil _ (hparent.trans hil) (congrArg (·.id) heq)
    omega
  · have htimer := timers_of_get? ht
    obtain ⟨hd, hindex⟩ := hw.timed.recorded.recorded i hi t.timer htimer
    have hstate := hw.waits _ ⟨i, hi, rfl⟩ (by rw [Live, htimer]; simp)
    rw [stateAt, htimer] at hstate
    exact ⟨hindex, hd, some.inj hstate⟩
  · rw [hw.due_eq_some, hget]
    constructor
    · rintro ⟨e, he, hl, rfl, hd⟩
      exact ⟨hl, e, he, rfl, hd⟩
    · rintro ⟨hl, e, he, rfl, hd⟩
      exact ⟨e, he, hl, rfl, hd⟩
  · obtain ⟨es, hes, hsorted, hmem, hend⟩ := drain_spec now (heap.len + 1) s hw
      (Nat.lt_succ_self _)
    refine ⟨es, hes, hsorted, fun e => (hmem e).trans ?_, hend⟩
    refine and_congr_right fun he => and_congr_left fun _ => ?_
    rw [hw.due_eq_some]
    refine ⟨fun hl => ⟨e, he, hl, rfl, rfl⟩, ?_⟩
    rintro ⟨e', he', hl, hid, -⟩
    rwa [Live, ← hid]

/-- Two threads that are started, of which the first waits until time 10. -/
def oneWaits : SchedState 2 :=
  [.start ⟨0, 1⟩, .start ⟨1, 1⟩, .pickNext, .onBlockUntil ⟨0, 1⟩ .blockNotification 10].foldl step
    ⟨.new, twoThreads.threads⟩

theorem run_keeps_deadline_heap_one_waits :
    ∃ w, Run (fun _ => true) oneWaits w ∧ ∃ es : List DeadlineEntry,
      (drain 10 (oneWaits.scheduler.deadlines.len + 1) oneWaits).1 = es.map (·.id) ∧
      es.map (·.id) = [⟨0, 1⟩] ∧ es.Pairwise (·.key < ·.key) := by
  have hnew : Run (fun _ => true) (⟨.new, twoThreads.threads⟩ : SchedState 2) fun _ => none := by
    refine .new _ fun id timer _ htimer => ?_
    obtain ⟨t, ht, rfl⟩ := get?_of_timers htimer
    obtain ⟨p, -, rfl⟩ := inactive_of_twoThreads ht
    exact ⟨rfl, rfl⟩
  have hrun : Run (fun _ => true) oneWaits _ :=
    .call _ _ (.onBlockUntil ⟨0, 1⟩ .blockNotification 10) (.call _ _ .pickNext
      (.call _ _ (.start ⟨1, 1⟩) (.call _ _ (.start ⟨0, 1⟩) hnew trivial) trivial) trivial) rfl
  obtain ⟨-, -, -, -, -, -, hdrain⟩ := run_keeps_deadline_heap _ oneWaits _ hrun
  obtain ⟨es, hes, hsorted, -⟩ := hdrain 10
  exact ⟨_, hrun, es, hes, hes ▸ by decide +kernel, hsorted⟩

/-- The thread that `expired` has answered still waits for its notification, and its entry is
gone: a thread waits through `onBlockUntil` and is not in the heap. -/
theorem expired_thread_waits_outside_heap :
    (Scheduler.expired 10 oneWaits).1 = .ok (some ⟨0, 1⟩) ∧
    let s := (Scheduler.expired 10 oneWaits).2
    (s.threads.get? ⟨0, 1⟩).map (·.state) = some .blockedNotification ∧
      s.scheduler.deadlines.len = 0 := by
  decide +kernel

end SchedCall

end Audhsos
