import Audhsos.Ipc.NotifySpec

/-!
What the calls on notifications do: each keeps the invariant, says what it did to the words, and
hands the whole word over when it wakes the waiter.
-/

namespace Audhsos

open Lib Threads Prog Option Processors Function Objects

variable {z : Sizes} {isIdle : ThreadId → Prop} {s : System z}

/-! ## Writes -/

theorem ProcState.Sorted.modify {n : Nat} {p : ProcState n} (h : p.Sorted isIdle) (id : ThreadId)
    {f : Thread → Thread}
    (hf : ∀ t, (f t).queueLinks = t.queueLinks ∧ (f t).state = t.state ∧ (f t).cpu = t.cpu ∧
      (f t).priority = t.priority) :
    ({ p with threads := p.threads.modify id f } : ProcState n).Sorted isIdle := by
  obtain ⟨m, h⟩ := h
  refine ⟨m, h.congr (fun _ _ => ⟨rfl, rfl, rfl, rfl⟩) (fun j => ?_) fun j => ?_⟩
  · by_cases hj : j = id
    · subst hj
      simp [get?, comp_def, hf]
    · simp [get?, hj]
  · by_cases hj : j = id
    · subst hj
      simp [key, get?, comp_def, hf]
    · simp [key, get?, hj]

namespace Ipc

variable {o : Objects z} {k : NotificationId} {w : ThreadId} {t : Thread} {held old : Notification}

theorem store_run {α : Type} {m : Store z α} {r : Except Error α}
    (h : m s.objects = (r, o)) : store m s = (r, { s with objects := o }) := by
  unfold store zoom
  rw [h]
  cases r <;> rfl

theorem getNotification_run
    (h : o.notification? k = some held) : getNotification k o = (.ok held, o) := by
  simp [getNotification, h]

theorem getNotification_gone
    (h : o.notification? k = none) : getNotification k o = (.error .invalidHandle, o) := by
  simp [getNotification, h]

def setNote (k : NotificationId) (f : Notification → Notification) (s : System z) : System z :=
  { s with objects := { s.objects with notifications := s.objects.notifications.modify k f } }

def setThread (w : ThreadId) (f : Thread → Thread) (s : System z) : System z :=
  { s with objects := { s.objects with threads := s.objects.threads.modify w f } }

section

variable {k j : NotificationId} {w x : ThreadId} {f : Notification → Notification}
  {g : Thread → Thread}

@[simp] theorem setNote_note : (setNote k f s).objects.notification? j =
    if j = k then (s.objects.notification? k).map f else s.objects.notification? j := by
  by_cases hj : j = k <;> simp [setNote, notification?, hj, comp_def]

@[simp] theorem setNote_thread : (setNote k f s).objects.thread? x = s.objects.thread? x := rfl

@[simp] theorem setThread_note :
    (setThread w g s).objects.notification? j = s.objects.notification? j := rfl

@[simp] theorem setThread_thread : (setThread w g s).objects.thread? x =
    if x = w then (s.objects.thread? w).map g else s.objects.thread? x := by
  by_cases hx : x = w <;> simp [setThread, thread?, hx, comp_def]

theorem moved_setNote (x : Option ThreadId) : Moved x s (setNote k f s) := .of_threads rfl

theorem moved_setThread (hg : ∀ t, (g t).cpu = t.cpu) : Moved (some w) s (setThread w g s) := by
  refine ⟨fun x hx => ?_, fun x => ?_⟩
  · rw [setThread_thread, if_neg fun heq => hx (by rw [heq])]
  · rw [setThread_thread]
    by_cases hx : x = w <;> simp [hx, comp_def, hg]

theorem sorted_setWait (h : (procs s).Sorted isIdle) (wait : Wait) :
    (procs (setThread w (·.setWait wait) s)).Sorted isIdle :=
  ProcState.Sorted.modify (f := (·.setWait wait)) h w fun _ => ⟨rfl, rfl, rfl, rfl⟩

end

/-- The word of a notification is rewritten; where there is a waiter it stays empty. -/
theorem Inv.reword {f : Notification → Notification}
    (h : Inv isIdle s) (hk : s.objects.notification? k = some held)
    (hwaiter : (f held).waiter = held.waiter) (hword : held.waiter ≠ none → (f held).word = 0) :
    Inv isIdle (setNote k f s) := by
  refine h.change (w := none) (k := some k) (.of_threads rfl) h.sorted (by simp) ?_ (by simp)
    (by simp) ?_ ?_
  · intro j hj
    rw [setNote_note, if_neg fun heq => hj (by rw [heq])]
  · rintro j other id ⟨⟩ hj hid
    rw [setNote_note, if_pos rfl, hk, map_some, some.injEq] at hj
    subst hj
    rw [hwaiter] at hid
    exact ⟨hword (by simp [hid]), (h.waiter k held id hk hid).2⟩
  · rintro j id t ⟨⟩ ht hwait
    obtain ⟨other, hother, hid⟩ := h.record id t k ht hwait
    obtain rfl := mem_unique hk hother
    exact ⟨f held, by simp [hk], hwaiter.trans hid⟩

/-! ## Waking -/

theorem wake_asleep (h : (stateOf s.objects w).any isBlocked = false) :
    wake w s = (.ok none, s) := by
  unfold wake
  rw [run_bind]
  simp [Prog.get, h, run_pure]

theorem wake_blocked (hsorted : (procs s).Sorted isIdle)
    (ht : s.objects.thread? w = some t) (hcpu : t.cpu < cpus) (hid : ¬ isIdle w)
    (hblocked : isBlocked t.state = true) :
    ∃ reschedule, wake w s = (.ok (some reschedule), scheduled (.onWake w) s) := by
  obtain ⟨o, ho⟩ := onWake_ok hsorted hid ht hcpu hblocked
  refine ⟨o.reschedule, ?_⟩
  have hstate : (stateOf s.objects w).any isBlocked = true := by simp [stateOf, ht, hblocked]
  unfold wake
  rw [run_bind]
  simp only [Prog.get, hstate, if_true]
  rw [run_attempt_bind]
  have hrun : (sched (onWake w) s).1 = .ok o := by
    change (onWake w (procs s)).1.mapError id = _
    rw [ho]
    rfl
  rw [hrun]
  rfl

theorem Inv.ended {p p' : System z}
    {g : Notification → Notification} (h : Inv isIdle s) (ht : s.objects.thread? w = some t)
    (hwait : t.wait = .notification k) (hthreads : p.objects.threads = s.objects.threads)
    (hothers : ∀ j, j ≠ k → p.objects.notification? j = s.objects.notification? j)
    (hstep : Stepped isIdle (some w) p p') (hid : ¬ isIdle w)
    (hg : ∀ held, (g held).waiter = none) :
    Inv isIdle (setThread w (·.setWait .nothing) (setNote k g p')) := by
  have hmoved : Moved (some w) s p' := Moved.trans (.of_threads hthreads) hstep.moved
  refine h.freed (w := w) (k := k) (hmoved.trans ((moved_setNote _).trans
      (moved_setThread (g := (·.setWait .nothing)) fun _ => rfl)))
    (sorted_setWait hstep.sorted _) (fun _ _ _ => hid) (fun j hj => ?_) (fun held hheld => ?_)
    (fun t' j ht' => ?_) (fun held x hk hx => ?_) (fun t' j ht' hwait' => ?_)
  · rw [setThread_note, setNote_note, if_neg hj, hstep.notification?, hothers j hj]
  · rw [setThread_note, setNote_note, if_pos rfl] at hheld
    obtain ⟨old, -, rfl⟩ := map_eq_some_iff.mp hheld
    exact hg old
  · rw [setThread_thread, if_pos rfl] at ht'
    obtain ⟨old, -, rfl⟩ := map_eq_some_iff.mp ht'
    simp
  · obtain ⟨other, hother, hw⟩ := h.record w t k ht hwait
    obtain rfl := mem_unique hk hother
    exact mem_unique hx hw
  · obtain rfl := mem_unique ht ht'
    rw [hwait] at hwait'
    exact (Wait.notification.inj hwait').symm

/-! ## Signalling -/

/-- What a signal with `bits` left: the bits in the word, or the whole word with the waiter. -/
structure Signalled (isIdle : ThreadId → Prop) (k : NotificationId) (old : Notification)
    (bits : Nat) (s : System z) (outcome : Outcome) (after : System z) : Prop where
  inv : Inv isIdle after
  others : ∀ j, j ≠ k → after.objects.notification? j = s.objects.notification? j
  word : outcome.wakeup = none ∧
      after.objects.notification? k = some { old with word := old.word ||| bits } ∨
    (∃ w, old.waiter = some w ∧ outcome.wakeup = some (.ok w (old.word ||| bits, 0))) ∧
      old.word ||| bits ≠ 0 ∧ after.objects.notification? k = some ⟨0, none⟩

theorem deliverWord_spec (bits : Nat)
    (h : Inv isIdle s) (hk : s.objects.notification? k = some old) :
    ∃ outcome after, deliverWord k { old with word := old.word ||| bits }
        (setNote k (fun _ => { old with word := old.word ||| bits }) s) = (.ok outcome, after) ∧
      Signalled isIdle k old bits s outcome after := by
  have hothers : ∀ j, j ≠ k → (setNote k (fun _ => { old with word := old.word ||| bits }) s
      ).objects.notification? j = s.objects.notification? j := by
    intro j hj
    rw [setNote_note, if_neg hj]
  unfold deliverWord
  dsimp only
  cases hwaiter : old.waiter with
  | none =>
    exact ⟨_, _, rfl, h.reword hk hwaiter.symm (by simp [hwaiter]), by simpa [hwaiter] using hothers,
      .inl ⟨rfl, by simp [hk, hwaiter]⟩⟩
  | some w =>
    dsimp only
    by_cases hword : old.word ||| bits = 0
    · rw [if_pos hword]
      exact ⟨_, _, rfl, h.reword hk hwaiter.symm fun _ => hword, by simpa [hwaiter] using hothers,
        .inl ⟨rfl, by simp [hk, hwaiter]⟩⟩
    rw [if_neg hword]
    obtain ⟨-, t, ht, hwait, hstate⟩ := h.waiter k old w hk hwaiter
    have hblocked : isBlocked t.state = true := by rw [hstate]; rfl
    have hid := h.busy w t ht hblocked
    obtain ⟨posted, hposted⟩ : ∃ posted : System z,
      posted = setNote k (fun _ => { old with word := old.word ||| bits }) s := ⟨_, rfl⟩
    rw [hwaiter] at hposted
    have hsorted : (procs posted).Sorted isIdle := by rw [hposted]; exact h.sorted
    obtain ⟨reschedule, hwake⟩ := wake_blocked (s := posted) hsorted (by rw [hposted]; exact ht)
      (h.homes w t ht) hid hblocked
    have hstep := stepped_call (.onWake w) hsorted hid
    rw [← hposted, run_bind_ok hwake]
    have hnote : (scheduled (.onWake w) posted).objects.notification? k =
        some { old with word := old.word ||| bits } := by
      rw [hstep.notification?, hposted, setNote_note, if_pos rfl, hk, hwaiter]
      rfl
    refine ⟨_, setThread w (·.setWait .nothing) (setNote k (fun _ => ⟨0, none⟩)
      (scheduled (.onWake w) posted)), rfl, ?_, fun j hj => ?_, .inr ⟨⟨w, hwaiter, ?_⟩, hword, ?_⟩⟩
    · exact h.ended ht hwait (by rw [hposted]; rfl)
        (fun j hj => by rw [hposted, setNote_note, if_neg hj]) hstep hid fun _ => rfl
    · rw [setThread_note, setNote_note, if_neg hj, hstep.notification?, hposted, setNote_note,
        if_neg hj]
    · change some (Wakeup.ok w ((((scheduled (.onWake w) posted).objects.notification? k).map
        (·.word)).getD 0, 0)) = _
      rw [hnote]
      rfl
    · rw [setThread_note, setNote_note, if_pos rfl, hnote]
      rfl

section

variable (h : Inv isIdle s) (k : NotificationId)
include h

/-- A signal keeps the invariant, and answers unless the notification is gone. -/
theorem signal_spec (bits : Nat) :
    (s.objects.notification? k = none ∧ signal k bits s = (.error .invalidHandle, s)) ∨
      ∃ old outcome after, s.objects.notification? k = some old ∧
        signal k bits s = (.ok outcome, after) ∧
        Signalled isIdle k old bits s outcome after := by
  cases hk : s.objects.notification? k with
  | none => exact .inl ⟨rfl, run_bind_error (store_run (getNotification_gone hk))⟩
  | some old =>
    obtain ⟨outcome, after, hrun, hsignalled⟩ := deliverWord_spec bits h hk
    refine .inr ⟨old, outcome, after, rfl, ?_, hsignalled⟩
    exact (run_bind_ok (store_run (getNotification_run hk))).trans hrun

theorem raise_spec (bit : Nat) :
    (s.objects.notification? k = none ∧ raise k bit s = (.ok .done, s)) ∨
      ∃ old outcome after, s.objects.notification? k = some old ∧
        raise k bit s = (.ok outcome, after) ∧
        Signalled isIdle k old (2 ^ (bit % 64)) s outcome after := by
  unfold raise
  rw [run_bind]
  simp only [Prog.get]
  cases hk : s.objects.notification? k with
  | none => exact .inl ⟨rfl, rfl⟩
  | some old =>
    obtain ⟨outcome, after, hrun, hsignalled⟩ := deliverWord_spec (2 ^ (bit % 64)) h hk
    exact .inr ⟨old, outcome, after, rfl, hrun, hsignalled⟩

/-! ## Taking the word -/

theorem poll_spec :
    (s.objects.notification? k = none ∧ store (poll k) s = (.error .invalidHandle, s)) ∨
      ∃ old, s.objects.notification? k = some old ∧
        store (poll k) s = (.ok (.ofValues old.word 0), setNote k ({ · with word := 0 }) s) ∧
        Inv isIdle (setNote k ({ · with word := 0 }) s) := by
  cases hk : s.objects.notification? k with
  | none => exact .inl ⟨rfl, store_run (run_bind_error (getNotification_gone hk))⟩
  | some old =>
    exact .inr ⟨old, rfl, store_run (run_bind_ok (getNotification_run hk)),
      h.reword hk rfl fun _ => rfl⟩

end

/-! ## Waiting -/

/-- What a wait left: the word with the caller, or the caller as the waiter. -/
structure Waited (isIdle : ThreadId → Prop) (w : ThreadId) (k : NotificationId) (old : Notification)
    (s : System z) (answer : Except Error Outcome) (after : System z) : Prop where
  inv : Inv isIdle after
  others : ∀ j, j ≠ k → after.objects.notification? j = s.objects.notification? j
  word : (∃ outcome, answer = .ok outcome ∧ outcome.blocked = false ∧
      outcome.values = (old.word, 0) ∧
      after.objects.notification? k = some { old with word := 0 }) ∨
    (∃ outcome, answer = .ok outcome ∧ outcome.blocked = true ∧ old.word = 0 ∧
      after.objects.notification? k = some ⟨0, some w⟩) ∨
    (∃ e, answer = .error e) ∧ after.objects.notification? k = some old

structure Blocks (isIdle : ThreadId → Prop) (w : ThreadId) (blocking : Sys z Bool) : Prop where
  step : ∀ p, (procs p).Sorted isIdle → ¬ isIdle w → Stepped isIdle (some w) p (blocking p).2
  state : ∀ p t answer after, (procs p).Sorted isIdle → p.objects.thread? w = some t →
    t.state = .running → blocking p = (.ok answer, after) →
    ∃ t', after.objects.thread? w = some t' ∧ t'.state = .blockedNotification

section

variable {w : ThreadId} {k : NotificationId} {old : Notification} {after : System z}

theorem Inv.blocked {t : Thread} (h : Inv isIdle s) (hk : s.objects.notification? k = some old)
    (hword : old.word = 0) (hwaiter : old.waiter = none) (hid : ¬ isIdle w)
    (hfree : ∀ t j, s.objects.thread? w = some t → t.wait ≠ .notification j)
    (hmoved : Moved (some w) s after) (hsorted : (procs after).Sorted isIdle)
    (hnote : ∀ j, after.objects.notification? j =
      if j = k then some { old with waiter := some w } else s.objects.notification? j)
    (ht : after.objects.thread? w = some t) (hwait : t.wait = .notification k)
    (hstate : t.state = .blockedNotification) : Inv isIdle after := by
  refine h.change (w := some w) (k := some k) hmoved hsorted ?_ ?_ ?_ ?_ ?_ ?_
  · rintro id _ ⟨⟩ _ _
    exact hid
  · intro j hj
    rw [hnote, if_neg fun heq => hj (by rw [heq])]
  · rintro id t₀ j ⟨⟩ ht₀ hj
    exact absurd hj (hfree t₀ j ht₀)
  · rintro id t₀ j ⟨⟩ ht₀ hj
    obtain rfl := mem_unique ht ht₀
    rw [Wait.notification.inj (hwait.symm.trans hj)]
  · rintro j held id ⟨⟩ hj hx
    rw [hnote, if_pos rfl, some.injEq] at hj
    subst hj
    obtain rfl := some.inj hx
    exact ⟨hword, t, ht, hwait, hstate⟩
  · rintro j id t₀ ⟨⟩ ht₀ hj
    by_cases hx : w = id
    · subst hx
      exact ⟨_, by rw [hnote, if_pos rfl], rfl⟩
    obtain ⟨t₁, ht₁, hwait₁, -⟩ := hmoved.before (fun heq => hx (some.inj heq)) ht₀
    obtain ⟨held, hheld, hid'⟩ := h.record id t₁ _ ht₁ (hwait₁.trans hj)
    obtain rfl := mem_unique hk hheld
    rw [hwaiter] at hid'
    cases hid'

theorem Inv.unblocked (h : Inv isIdle s) (hk : s.objects.notification? k = some old)
    (hwaiter : old.waiter = none) (hid : ¬ isIdle w)
    (hfree : ∀ t j, s.objects.thread? w = some t → t.wait ≠ .notification j)
    (hmoved : Moved (some w) s after) (hsorted : (procs after).Sorted isIdle)
    (hnote : ∀ j, after.objects.notification? j = s.objects.notification? j)
    (hforgot : ∀ t j, after.objects.thread? w = some t → t.wait ≠ .notification j) :
    Inv isIdle after := by
  have hnone : ∀ held, s.objects.notification? k = some held → held.waiter = none := by
    intro held hheld
    obtain rfl := mem_unique hk hheld
    exact hwaiter
  refine h.freed (w := w) (k := k) hmoved hsorted (fun _ _ _ => hid) (fun j _ => hnote j)
    (fun held hheld => hnone held (hnote k ▸ hheld)) hforgot (fun held x hheld hx => ?_)
    (fun t j ht hwait => absurd hwait (hfree t j ht))
  rw [hnone held hheld] at hx
  cases hx

end

theorem waitBy_spec
    {blocking : Sys z Bool} (h : Inv isIdle s) (hk : s.objects.notification? k = some old)
    (hword : old.word = 0) (hwaiter : old.waiter = none) (ht : s.objects.thread? w = some t)
    (hrunning : t.state = .running) (hb : Blocks isIdle w blocking) :
    Waited isIdle w k old s (waitBy w k blocking s).1 (waitBy w k blocking s).2 := by
  obtain ⟨p, hp⟩ : ∃ p, p = setThread w (·.setWait (.notification k))
    (setNote k ({ · with waiter := some w }) s) := ⟨_, rfl⟩
  have hsorted : (procs p).Sorted isIdle := by
    rw [hp]
    exact sorted_setWait (s := setNote k _ s) h.sorted _
  have hid : ¬ isIdle w := by
    obtain ⟨m, hm⟩ := h.sorted
    exact (hm.running w _ _ (hrunning ▸ key_of_get? ht)).2.1
  have hmoved : Moved (some w) s p := by
    rw [hp]
    exact (moved_setNote _).trans
      (moved_setThread (g := (·.setWait (.notification k))) fun _ => rfl)
  have htp : p.objects.thread? w = some (t.setWait (.notification k)) := by
    rw [hp, setThread_thread, if_pos rfl, setNote_thread, ht]
    rfl
  -- A thread that runs waits on no notification yet.
  have hfree : ∀ t' j, s.objects.thread? w = some t' → t'.wait ≠ .notification j := by
    intro t' j ht' hwait
    obtain ⟨held, hj, hw⟩ := h.record w t' j ht' hwait
    obtain ⟨-, t'', ht'', -, hstate⟩ := h.waiter j held w hj hw
    obtain rfl := mem_unique ht ht''
    rw [hrunning] at hstate
    cases hstate
  have hnote : ∀ after, Stepped isIdle (some w) p after → ∀ j,
      after.objects.notification? j = if j = k then some { old with waiter := some w }
        else s.objects.notification? j := by
    intro after hstep j
    rw [hstep.notification?, hp, setThread_note, setNote_note, hk]
    rfl
  have hrun : waitBy w k blocking s = (blocking.orUndo (do
      store (withNotification k ({ · with waiter := none }))
      store (forget w)) >>= fun reschedule => pure (Outcome.ofBlocked.switching reschedule)) p := by
    rw [hp]
    rfl
  have hstep := hb.step p hsorted hid
  rw [hrun, run_bind]
  unfold orUndo
  cases hblock : blocking p with
  | mk answer after =>
    rw [hblock] at hstep
    obtain e | reschedule := answer
    · -- The caller could not block: the record and the waiter are taken back.
      obtain ⟨last, hlast⟩ : ∃ last, last = setThread w (·.setWait .nothing)
        (setNote k ({ · with waiter := none }) after) := ⟨_, rfl⟩
      have hsame : ∀ j, last.objects.notification? j = s.objects.notification? j := by
        intro j
        rw [hlast, setThread_note, setNote_note]
        by_cases hj : j = k
        · rw [if_pos hj, hnote after hstep, if_pos rfl, hj, hk, map_some, ← hwaiter]
        · rw [if_neg hj, hnote after hstep, if_neg hj]
      have hinv : Inv isIdle last := by
        refine h.unblocked hk hwaiter hid hfree ?_ ?_ hsame fun t' j ht' => ?_
        · rw [hlast]
          exact (hmoved.trans hstep.moved).trans ((moved_setNote _).trans
            (moved_setThread (g := (·.setWait .nothing)) fun _ => rfl))
        · rw [hlast]
          exact sorted_setWait (s := setNote k _ after) hstep.sorted _
        · rw [hlast, setThread_thread, if_pos rfl] at ht'
          obtain ⟨t₀, -, rfl⟩ := map_eq_some_iff.mp ht'
          simp
      have hundone : ((do
          store (withNotification k ({ · with waiter := none }))
          store (forget w) : Sys z Unit) after).2 = last := by
        rw [hlast]
        rfl
      dsimp only
      rw [hundone]
      exact ⟨hinv, fun j _ => hsame j, .inr (.inr ⟨⟨e, rfl⟩, (hsame k).trans hk⟩)⟩
    · obtain ⟨t', ht', hstate⟩ := hb.state p _ _ _ hsorted htp hrunning hblock
      have hwait : t'.wait = .notification k := by
        have := hstep.wait w
        rw [ht', htp] at this
        exact some.inj this
      exact ⟨h.blocked hk hword hwaiter hid hfree (hmoved.trans hstep.moved) hstep.sorted
          (hnote after hstep) ht' hwait hstate,
        fun j hj => (hnote after hstep j).trans (if_neg hj),
        .inr (.inl ⟨_, rfl, rfl, hword, (hnote after hstep k).trans (by rw [if_pos rfl, hword])⟩)⟩

theorem blocks_sched {c : SchedCall} {m : Prog Error (ProcState z.threads) Audhsos.Outcome}
    (hm : ∀ p, (m p).2 = c.run p) (hmoves : c.moves = some w)
    (hallowed : ∀ p : ProcState z.threads, ¬ isIdle w → c.Allowed isIdle p)
    (hstate : ∀ (p : ProcState z.threads) t, p.Sorted isIdle → p.threads.get? w = some t →
      t.state = .running → (∃ o, (m p).1 = .ok o) →
      ∃ t', (m p).2.threads.get? w = some t' ∧ t'.state = .blockedNotification) :
    Blocks isIdle w (do
      let outcome ← sched m
      pure outcome.reschedule : Sys z Bool) := by
  have hrun : ∀ (p : System z) (e : Except Error Bool) (after : System z), (do
      let outcome ← sched m
      pure outcome.reschedule : Sys z Bool) p = (e, after) →
      after = scheduled c p ∧ (∀ b, e = .ok b → ∃ o, (m (procs p)).1 = .ok o) := by
    intro p e after hafter
    have hsched : sched m p = ((m (procs p)).1.mapError id, scheduled c p) := by
      unfold scheduled
      rw [← hm]
      rfl
    rw [run_bind, hsched] at hafter
    cases hanswer : (m (procs p)).1 with
    | error e' =>
      rw [hanswer] at hafter
      cases hafter
      exact ⟨rfl, fun _ h => by cases h⟩
    | ok o =>
      rw [hanswer] at hafter
      cases hafter
      exact ⟨rfl, fun _ _ => ⟨o, rfl⟩⟩
  refine ⟨fun p hsorted hid => ?_, fun p t answer after hsorted ht hrunning hok => ?_⟩
  · have hstep := stepped_call c hsorted (hallowed (procs p) hid)
    rw [hmoves, ← (hrun p _ _ rfl).1] at hstep
    exact hstep
  · obtain ⟨rfl, hanswer⟩ := hrun p _ _ hok
    have hblocked := hstate (procs p) t hsorted ht hrunning (hanswer _ rfl)
    rw [hm] at hblocked
    exact hblocked

/-- Bits that are there are taken; otherwise the caller goes on, if nobody waits. -/
theorem take_spec {rest : Sys z Outcome} (h : Inv isIdle s)
    (hrest : ∀ old, s.objects.notification? k = some old → old.word = 0 → old.waiter = none →
      Waited isIdle w k old s (rest s).1 (rest s).2) {call : Sys z Outcome}
    (hcall : call = (do
      let held ← store (getNotification k)
      if held.word ≠ 0 then store (poll k)
      else do
        require (held.waiter = none) .busy
        rest)) :
    (s.objects.notification? k = none ∧ call s = (.error .invalidHandle, s)) ∨
      ∃ old, s.objects.notification? k = some old ∧
        Waited isIdle w k old s (call s).1 (call s).2 := by
  subst hcall
  cases hk : s.objects.notification? k with
  | none => exact .inl ⟨rfl, run_bind_error (store_run (getNotification_gone hk))⟩
  | some old =>
    refine .inr ⟨old, rfl, ?_⟩
    rw [run_bind_ok (store_run (getNotification_run hk))]
    by_cases hword : old.word ≠ 0
    · rw [if_pos hword]
      obtain ⟨hnone, -⟩ | ⟨old', hold', hrun, hinv⟩ := poll_spec h k
      · rw [hk] at hnone
        cases hnone
      obtain rfl := mem_unique hk hold'
      rw [hrun]
      exact ⟨hinv, fun j hj => by rw [setNote_note, if_neg hj],
        .inl ⟨_, rfl, rfl, rfl, by rw [setNote_note, if_pos rfl, hk]; rfl⟩⟩
    · rw [if_neg hword]
      by_cases hwaiter : old.waiter = none
      · have hrequire : (require (old.waiter = none) .busy : Sys z Unit) s = (.ok (), s) := by
          simp [require, hwaiter]
        rw [run_bind_ok hrequire]
        exact hrest old hk (by simpa using hword) hwaiter
      · have hrequire : (require (old.waiter = none) .busy : Sys z Unit) s =
            (.error .busy, s) := by
          simp [require, hwaiter]
        rw [run_bind_error hrequire]
        exact ⟨h, fun _ _ => rfl, .inr (.inr ⟨⟨_, rfl⟩, hk⟩)⟩

variable (k)

theorem wait_spec (h : Inv isIdle s)
    (ht : s.objects.thread? w = some t) (hrunning : t.state = .running) :
    (s.objects.notification? k = none ∧ wait w k s = (.error .invalidHandle, s)) ∨
      ∃ old, s.objects.notification? k = some old ∧
        Waited isIdle w k old s (wait w k s).1 (wait w k s).2 := by
  have hblocks : Blocks isIdle w (block w .blockNotification : Sys z Bool) :=
    blocks_sched (c := .onBlock w .blockNotification) (fun _ => rfl) rfl (fun _ hid => hid)
      fun _ _ hsorted ht hrunning _ => onBlock_state hsorted ht hrunning
  exact take_spec h
    (fun old hk hword hwaiter => waitBy_spec h hk hword hwaiter ht hrunning hblocks) rfl

theorem waitUntil_spec (deadline now : Nat)
    (h : Inv isIdle s) (ht : s.objects.thread? w = some t) (hrunning : t.state = .running) :
    (s.objects.notification? k = none ∧
        waitUntil w k deadline now s = (.error .invalidHandle, s)) ∨
      ∃ old, s.objects.notification? k = some old ∧
        Waited isIdle w k old s (waitUntil w k deadline now s).1
          (waitUntil w k deadline now s).2 := by
  have hblocks : Blocks isIdle w (do
      let outcome ← sched (onBlockUntil w .blockNotification deadline)
      pure outcome.reschedule : Sys z Bool) :=
    blocks_sched (c := .onBlockUntil w .blockNotification deadline) (fun _ => rfl) rfl
      (fun _ hid => hid) fun _ _ hsorted ht hrunning hok =>
        onBlockUntil_state hsorted ht hrunning deadline hok
  refine take_spec h (fun old hk hword hwaiter => ?_) rfl
  by_cases hpassed : deadline ≤ now
  · rw [if_pos hpassed]
    refine ⟨h, fun _ _ => rfl, .inl ⟨_, rfl, rfl, by rw [hword]; rfl, ?_⟩⟩
    rw [← hword]
    exact hk
  · rw [if_neg hpassed]
    exact waitBy_spec h hk hword hwaiter ht hrunning hblocks

end Ipc

end Audhsos
