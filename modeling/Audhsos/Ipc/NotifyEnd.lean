import Audhsos.Ipc.NotifyCalls

/-!
What ends a wait without a signal, a deadline or a cancellation, and interrupts, which signal.
-/

namespace Audhsos

open Lib Threads Option Prog Objects

variable {z : Sizes} {isIdle : ThreadId → Prop} {s s' : System z}

namespace Ipc

/-! ## Writes that no notification sees -/

/-- The invariant is about the threads, the notifications and the processors. -/
theorem Inv.congr (h : Inv isIdle s) (hthreads : s'.objects.threads = s.objects.threads)
    (hnotes : s'.objects.notifications = s.objects.notifications)
    (hscheduler : s'.scheduler = s.scheduler) : Inv isIdle s' := by
  refine h.change (w := none) (k := none) (.of_threads hthreads) ?_ (by simp) (fun j _ => ?_)
    (by simp) (by simp) (by simp) (by simp)
  · unfold procs
    rw [hthreads, hscheduler]
    exact h.sorted
  · simp only [notification?, hnotes]

/-- A thread, but for its place in a wait queue. -/
def unqueued (_ : ThreadId) (t : Thread) : Thread := t.setWaitLinks .unlinked

theorem Inv.requeued (h : Inv isIdle s)
    (hseen : (procs s').threads.seen unqueued = (procs s).threads.seen unqueued)
    (hnotes : s'.objects.notifications = s.objects.notifications)
    (hscheduler : s'.scheduler = s.scheduler) : Inv isIdle s' := by
  have hview : ∀ {γ : Type} (f : Thread → γ), (∀ t, f (t.setWaitLinks .unlinked) = f t) →
      ∀ j, ((procs s').threads.get? j).map f = ((procs s).threads.get? j).map f := by
    intro γ f hf j
    have := congrArg (Option.map fun o => f o.2) (congrFun hseen j)
    simpa [seen, get?, unqueued, Function.comp_def, hf] using this
  refine h.change (w := none) (k := none) ⟨fun j _ => ?_, fun j => ?_⟩ ?_ (by simp) (fun j _ => ?_)
    (by simp) (by simp) (by simp) (by simp)
  · exact hview (standing none j) (fun _ => rfl) j
  · exact hview (·.cpu) (fun _ => rfl) j
  · obtain ⟨m, hm⟩ := h.sorted
    refine ⟨m, hm.congr (fun c _ => ?_) (hview (·.queueLinks) fun _ => rfl)
      (hview (fun t => (t.state, t.cpu, t.priority)) fun _ => rfl)⟩
    simp only [procs, hscheduler, and_self]
  · simp only [notification?, hnotes]

/-- What ends a wait without a signal: it keeps the invariant and touches no word. -/
structure Ended (isIdle : ThreadId → Prop) (s after : System z) : Prop where
  inv : Inv isIdle after
  word : ∀ j, (after.objects.notification? j).map (·.word) =
    (s.objects.notification? j).map (·.word)

theorem Inv.forget {w : ThreadId} {f : Thread → Thread} (h : Inv isIdle s)
    (hfree : ∀ t j, s.objects.thread? w = some t → t.wait ≠ .notification j)
    (hf : ∀ t, (f t).queueLinks = t.queueLinks ∧ (f t).state = t.state ∧ (f t).cpu = t.cpu ∧
      (f t).priority = t.priority)
    (hforget : ∀ t j, (f t).wait ≠ .notification j) : Inv isIdle (setThread w f s) := by
  refine h.change (w := some w) (k := none) (moved_setThread fun t => (hf t).2.2.1)
    (ProcState.Sorted.modify h.sorted w hf) ?_ (fun _ _ => rfl) ?_ ?_ (by simp) (by simp)
  · rintro id t ⟨⟩ ht hblocked
    rw [setThread_thread, if_pos rfl] at ht
    obtain ⟨t₀, ht₀, rfl⟩ := map_eq_some_iff.mp ht
    rw [(hf t₀).2.1] at hblocked
    exact h.busy w t₀ ht₀ hblocked
  · rintro id t j ⟨⟩ ht hwait
    exact absurd hwait (hfree t j ht)
  · rintro id t j ⟨⟩ ht hwait
    rw [setThread_thread, if_pos rfl] at ht
    obtain ⟨t₀, ht₀, rfl⟩ := map_eq_some_iff.mp ht
    exact absurd hwait (hforget t₀ j)

/-! ## Deadlines -/

theorem expired_spec (h : Inv isIdle s) (w : ThreadId) : Ended isIdle s ((do
    let waitedOn ← Prog.gets fun s => (s.objects.thread? w).map (·.wait)
    let woken ← wake w
    match woken with
    | none => pure (some .done)
    | some reschedule => do
      match waitedOn with
      | some (Wait.notification notification) =>
        store (withNotification notification ({ · with waiter := none }))
      | _ => pure ()
      store (forget w)
      pure (some ((Outcome.done.waking (.ok w (0, 0))).switching reschedule)) :
        Sys z (Option Outcome)) s).2 := by
  rw [run_bind_ok (rfl : Prog.gets _ s = (.ok _, s))]
  cases hstate : (stateOf s.objects w).any isBlocked with
  | false =>
    rw [run_bind_ok (wake_asleep hstate)]
    exact ⟨h, fun _ => rfl⟩
  | true =>
    obtain ⟨t, ht, hblocked⟩ : ∃ t, s.objects.thread? w = some t ∧ isBlocked t.state = true := by
      unfold stateOf at hstate
      cases ht : s.objects.thread? w with
      | none => simp [ht] at hstate
      | some t => exact ⟨t, rfl, by simpa [ht] using hstate⟩
    have hid := h.busy w t ht hblocked
    obtain ⟨reschedule, hwake⟩ := wake_blocked h.sorted ht (h.homes w t ht) hid hblocked
    have hstep := stepped_call (.onWake w) h.sorted hid
    rw [run_bind_ok hwake, ht, map_some]
    have hplain : (∀ j, t.wait ≠ .notification j) →
        Ended isIdle s (setThread w (·.setWait .nothing) (scheduled (.onWake w) s)) := by
      intro hfree
      have hfree' : ∀ t' j, s.objects.thread? w = some t' → t'.wait ≠ .notification j := by
        intro t' j ht'
        obtain rfl := mem_unique ht ht'
        exact hfree j
      have hwoken := h.stepped hstep (by rintro id t' j ⟨⟩; exact hfree' t' j)
        (by rintro id ⟨⟩; exact hid)
      refine ⟨hwoken.forget ?_ (fun _ => ⟨rfl, rfl, rfl, rfl⟩) (by simp), fun j => ?_⟩
      · intro t' j ht' hwait
        have hsame := hstep.wait w
        rw [ht', ht] at hsame
        exact hfree j ((some.inj hsame).symm.trans hwait)
      · rw [setThread_note, hstep.notification?]
    cases hwait : t.wait with
    | notification k =>
      refine ⟨h.ended ht hwait rfl (fun _ _ => rfl) hstep hid fun _ => rfl, fun j => ?_⟩
      change ((setNote k _ (scheduled (.onWake w) s)).objects.notification? j).map _ = _
      rw [setNote_note]
      by_cases hj : j = k
      · rw [if_pos hj, hj, hstep.notification?, map_map]
        rfl
      · rw [if_neg hj, hstep.notification?]
    | nothing => exact hplain (by simp [hwait])
    | endpoint e q b m => exact hplain (by simp [hwait])
    | reply r => exact hplain (by simp [hwait])

theorem expire_spec (h : Inv isIdle s) (now : Nat) : Ended isIdle s (expire now s).2 := by
  have hstep := stepped_call (.expired now) h.sorted trivial
  obtain ⟨due, hdue⟩ : ∃ due, due = scheduled (.expired now) s := ⟨_, rfl⟩
  rw [← hdue] at hstep
  have hinv : Inv isIdle due := h.stepped hstep (by simp [SchedCall.moves]) (by simp [SchedCall.moves])
  have hended : ∀ after : System z, Inv isIdle after →
      (∀ j, (after.objects.notification? j).map (·.word) =
        (due.objects.notification? j).map (·.word)) → Ended isIdle s after :=
    fun after hafter hword => ⟨hafter, fun j => (hword j).trans (by rw [hstep.notification?])⟩
  have hsched : sched (Processors.expired now) s =
      ((Processors.expired now (procs s)).1.mapError id, due) := by
    rw [hdue]
    rfl
  unfold expire
  rw [run_bind, hsched]
  cases (Processors.expired now (procs s)).1 with
  | error e => exact hended due hinv fun _ => rfl
  | ok waiter =>
    cases waiter with
    | none => exact hended due hinv fun _ => rfl
    | some w =>
      have hone := expired_spec hinv w
      exact hended _ hone.inv hone.word

/-! ## Cancelling -/

theorem unlink_unqueued (w : ThreadId) {n : Nat} :
    (WaitQueue.unlink w : Prog Error (WaitState n) _).Keeps fun s => s.threads.seen unqueued := by
  intro s
  unfold WaitQueue.unlink
  cases ht : s.threads.get? w with
  | none => rfl
  | some t =>
    dsimp only
    split
    · rfl
    have hlinks : ∀ (threads : Threads n) (j : ThreadId) (links : Thread → Links),
        seen unqueued (threads.modify j fun t => t.setWaitLinks (links t)) =
          threads.seen unqueued :=
      fun threads j links => seen_modify fun _ _ => rfl
    cases t.waitLinks.next <;> cases t.waitLinks.previous <;> dsimp only <;> simp only [hlinks]

theorem leave_unqueued (w : ThreadId) (wait : Wait) (hwait : ∀ k, wait ≠ .notification k) :
    (leave w wait : Store z Unit).Keeps fun o =>
      (seen unqueued o.threads, o.notifications) := by
  have hqueue : ∀ queue : WaitQueue, (onQueue queue (WaitQueue.unlink w) :
      Store z _).Keeps fun o => (seen unqueued o.threads, o.notifications) :=
    fun queue o => by
      have := unlink_unqueued w (n := z.threads) ⟨queue, o.threads⟩
      exact congrArg (·, o.notifications) this
  cases wait with
  | nothing => exact .pure _
  | notification k => exact absurd rfl (hwait k)
  | reply r => exact fun _ => rfl
  | endpoint e q b m =>
    unfold leave
    refine .bind .get fun o => ?_
    split
    · exact .pure _
    · refine .ite ?_ ?_
      · exact .bind (hqueue _) fun _ _ => rfl
      · exact .bind (hqueue _) fun _ _ => rfl

def uncoupled (t : Thread) : Thread := (t.setWait .nothing).setWaitLinks .unlinked

theorem cancel_spec (h : Inv isIdle s) (w : ThreadId) : Ended isIdle s (store (cancel w) s).2 := by
  change Ended isIdle s { s with objects := (cancel w s.objects).2 }
  unfold cancel
  rw [run_bind_ok (rfl : Prog.get s.objects = (.ok s.objects, s.objects))]
  cases ht : s.objects.thread? w with
  | none => exact ⟨h, fun _ => rfl⟩
  | some t =>
    dsimp only
    by_cases hnothing : t.wait = .nothing
    · rw [if_pos hnothing]
      exact ⟨h, fun _ => rfl⟩
    rw [if_neg hnothing]
    by_cases hnote : ∃ k, t.wait = .notification k
    · obtain ⟨k, hwait⟩ := hnote
      rw [hwait]
      change Ended isIdle s (setThread w uncoupled (setNote k ({ · with waiter := none }) s))
      obtain ⟨held, hheld, hwaiter⟩ := h.record w t k ht hwait
      refine ⟨h.freed (w := w) (k := k) ((moved_setNote _).trans (moved_setThread fun _ => rfl))
        (ProcState.Sorted.modify (f := uncoupled) h.sorted w fun _ => ⟨rfl, rfl, rfl, rfl⟩)
        (fun t' ht' hblocked => ?_) (fun j hj => ?_) (fun held' hheld' => ?_) (fun t' j ht' => ?_)
        (fun held' x hheld' hx => ?_) (fun t' j ht' hj => ?_), fun j => ?_⟩
      · rw [setThread_thread, if_pos rfl, setNote_thread, ht] at ht'
        obtain rfl := some.inj ht'
        exact h.busy w t ht hblocked
      · rw [setThread_note, setNote_note, if_neg hj]
      · rw [setThread_note, setNote_note, if_pos rfl, hheld] at hheld'
        obtain rfl := some.inj hheld'
        rfl
      · rw [setThread_thread, if_pos rfl, setNote_thread, ht] at ht'
        obtain rfl := some.inj ht'
        simp [uncoupled]
      · obtain rfl := mem_unique hheld hheld'
        exact mem_unique hx hwaiter
      · obtain rfl := mem_unique ht ht'
        exact Wait.notification.inj (hj.symm.trans hwait)
      · rw [setThread_note, setNote_note]
        by_cases hj : j = k
        · rw [if_pos hj, hj, hheld]
          rfl
        · rw [if_neg hj]
    · have hfree : ∀ k, t.wait ≠ .notification k := fun k hk => hnote ⟨k, hk⟩
      have hkeeps := leave_unqueued w t.wait hfree s.objects
      rw [run_bind]
      generalize leave w t.wait s.objects = answer at hkeeps ⊢
      obtain ⟨answer, left⟩ := answer
      have hinv : Inv isIdle ({ s with objects := left } : System z) :=
        h.requeued (congrArg Prod.fst hkeeps) (congrArg Prod.snd hkeeps) rfl
      have hword : ∀ j, left.notification? j = s.objects.notification? j := by
        intro j
        unfold notification?
        rw [show left.notifications = s.objects.notifications from congrArg Prod.snd hkeeps]
      obtain e | _ := answer
      · exact ⟨hinv, fun j => congrArg _ (hword j)⟩
      refine ⟨hinv.forget ?_ (fun _ => ⟨rfl, rfl, rfl, rfl⟩) (by simp),
        fun j => congrArg _ (hword j)⟩
      intro t' j ht' hwait
      have hseen := congrFun (congrArg Prod.fst hkeeps) w
      have hwaits := congrArg (Option.map fun o => Thread.wait o.2) hseen
      have hsame : (left.thread? w).map (·.wait) = (s.objects.thread? w).map (·.wait) := by
        simpa [seen, thread?, unqueued, Function.comp_def] using hwaits
      rw [ht, show left.thread? w = some t' from ht'] at hsame
      exact hfree j ((some.inj hsame).symm.trans hwait)

/-! ## Interrupts -/

/-- The notification and the bit that the interrupts of a vector signal. -/
def bound (o : Objects z) (vector : Nat) : Option (NotificationId × Nat) :=
  (interruptFor o vector).bind fun id => (o.interrupt? id).bind (·.notification)

theorem deliver_spec (h : Inv isIdle s) (vector : Nat) :
    ∃ answer after, deliver vector s = (.ok answer, after) ∧
      ((Inv isIdle after ∧ (∀ j, after.objects.notification? j = s.objects.notification? j) ∧
          (∀ k bit, bound s.objects vector = some (k, bit) → s.objects.notification? k = none) ∧
          ∀ outcome, answer = some outcome → outcome.wakeup = none) ∨
        ∃ k bit old outcome, bound s.objects vector = some (k, bit) ∧
          s.objects.notification? k = some old ∧ answer = some outcome ∧
          Signalled isIdle k old (2 ^ (bit % 64)) s outcome after) := by
  unfold deliver
  rw [run_bind_ok (rfl : Prog.get s = (.ok s, s))]
  cases hid : interruptFor s.objects vector with
  | none => exact ⟨_, _, rfl, .inl ⟨h, fun _ => rfl, by simp [bound, hid], by simp⟩⟩
  | some id =>
    dsimp only
    cases hheld : s.objects.interrupt? id with
    | none => exact ⟨_, _, rfl, .inl ⟨h, fun _ => rfl, by simp [bound, hid, hheld], by simp⟩⟩
    | some held =>
      dsimp only
      obtain ⟨masked, hmasked⟩ : ∃ masked : System z, masked = { s with objects := { s.objects with
        interrupts := s.objects.interrupts.modify id ({ · with masked := true }) } } := ⟨_, rfl⟩
      have hinv : Inv isIdle masked := by
        rw [hmasked]
        exact h.congr rfl rfl rfl
      have hnotes : ∀ j, masked.objects.notification? j = s.objects.notification? j := by
        rw [hmasked]
        exact fun _ => rfl
      have hrun : store (withInterrupt id ({ · with masked := true })) s =
          (.ok (), masked) := by
        rw [hmasked]
        rfl
      rw [run_bind_ok hrun]
      have hbound : bound s.objects vector = held.notification := by simp [bound, hid, hheld]
      cases hnote : held.notification with
      | none =>
        exact ⟨_, _, rfl, .inl ⟨hinv, hnotes, by simp [hbound, hnote], by
          rintro outcome ⟨⟩
          rfl⟩⟩
      | some target =>
        obtain ⟨k, bit⟩ := target
        dsimp only
        obtain ⟨hnone, hraise⟩ | ⟨old, outcome, after, hold, hraise, hsignalled⟩ :=
          raise_spec hinv k bit
        · rw [run_bind_ok hraise]
          refine ⟨_, _, rfl, .inl ⟨hinv, hnotes, fun j b hb => ?_, ?_⟩⟩
          · rw [hbound, hnote] at hb
            obtain ⟨rfl, rfl⟩ := Prod.mk.inj (some.inj hb)
            rw [← hnotes, hnone]
          · rintro outcome ⟨⟩
            rfl
        · rw [run_bind_ok hraise]
          refine ⟨_, _, rfl, .inr ⟨k, bit, old, outcome, by rw [hbound, hnote],
            by rw [← hnotes, hold], rfl, hsignalled.inv, fun j hj => ?_, hsignalled.word⟩⟩
          rw [hsignalled.others j hj, hnotes]

end Ipc

end Audhsos
