import Audhsos.Syscall.Checks

/-!
What passes the gate. A system call runs only when its caller holds the handle that it names, of
the type and with the rights that the call takes. Whatever enters the kernel, in any order, the
handles and the processes stay as they are until such a call runs or a handler takes a fault.
-/

namespace Audhsos.Calls

open Lib Objects

variable {ε : Type} [Environment ε] {z : Sizes}

/-! ## Authority -/

/-- The process holds what the call needs. -/
def Authorised (o : Objects z) (p : ProcessId) (call : Syscall) (request : Request) : Prop :=
  (requiredRights call ≠ .empty → request.handle ≠ none) ∧
  ∀ h, request.handle = some h → ∃ e, o.books.entry h = some (p, e) ∧
    (∀ type, call.firstArgument = .object type → e.object.objectType = type) ∧
    e.rights.contains (requiredRights call)

variable {m : Machine ε z} {p : ProcessId} {call : Syscall} {request : Request} {caller : ThreadId}

theorem handle_of_decode {buffer : Buffer} (h : decode buffer = .ok (call, request)) :
    request.handle.isSome = call.firstArgument.isHandle := by
  obtain ⟨call', -, h⟩ := bind_eq_ok h
  split at h
  · cases h
  · split at h
    · next hfirst =>
      split at h <;> cases h
      exact hfirst.symm
    · next hfirst =>
      cases h
      simpa using hfirst

theorem isHandle_of_requires (h : requiredRights call ≠ .empty) : call.firstArgument.isHandle := by
  cases call <;> first | rfl | exact absurd rfl h

omit [Environment ε] in
theorem checkCapability_spec (h : request.handle.isSome = call.firstArgument.isHandle) :
    (checkCapability p call request).wp
      (fun r m' => m' = m ∧ (r = .ok () → Authorised m.objects p call request)) m := by
  have hrights : requiredRights call ≠ .empty → request.handle ≠ none := by
    intro hr hn
    simp [hn, isHandle_of_requires hr] at h
  unfold checkCapability
  cases hh : request.handle with
  | none => exact ⟨rfl, fun _ => ⟨hrights, by simp [hh]⟩⟩
  | some k =>
    refine (reads_objs (reads_entry p k)).wp_bind (fun e he => ?_) fun _ => ⟨rfl, nofun⟩
    have he : m.objects.books.entry k = some (p, e) := by
      rw [objs_run] at he
      exact entry_ok (congrArg Prod.fst he)
    have hheld : ∀ h, request.handle = some h → h = k := by simp [hh, eq_comm]
    unfold Authorised
    cases hfirst : call.firstArgument <;> simp_all [Prog.wp_bind]

/-- A request that is not authorised changes nothing. -/
theorem handle_spec : (handle caller).wp (fun _ m' => m' = m ∨ ∃ t call request,
    m.objects.thread? caller = some t ∧ decode m.buffer = .ok (call, request) ∧
      Authorised m.objects t.process call request) m := by
  refine (reads_objs (reads_getThread caller)).wp_bind (fun t ht => ?_) fun _ => .inl rfl
  rw [Prog.wp_get_bind]
  refine Prog.Reads.wp_bind (.ofExcept _) (fun pair hd => ?_) fun _ => .inl rfl
  have hd : decode m.buffer = .ok (pair.1, pair.2) := congrArg Prod.fst hd
  refine Prog.wp_bind.mpr ((checkCapability_spec (handle_of_decode hd)).mono ?_)
  rintro r m' ⟨rfl, hr⟩
  refine ⟨fun a ha => .inr ⟨t, _, _, ?_, hd, hr ha⟩, fun _ _ => .inl rfl⟩
  rw [objs_run] at ht
  cases hfind : m'.objects.thread? caller <;> simp_all [getThread]

/-! ## Entries into the kernel -/

inductive Entrance where
  | call (cpu : Nat) (caller : ThreadId)
  | fault (cpu : Nat) (thread : ThreadId) (what : Option Fault)
  | deadline (cpu now : Nat)
  | interrupt (cpu vector : Nat)
  | tick (cpu : Nat)
  | choose (cpu : Nat)
  | sweep (cpu : Nat) (running : Option ThreadId)

/-- The machine after an entry. -/
def Entrance.step (m : Machine ε z) : Entrance → Machine ε z
  | .call cpu caller => (answerCall cpu caller m).2
  | .fault cpu thread what => (answerFault cpu thread what m).2
  | .deadline cpu now => (answerDeadline cpu now m).2
  | .interrupt cpu vector => (answerInterrupt cpu vector m).2
  | .tick cpu => (answerTick cpu m).2
  | .choose cpu => (chooseNext cpu m).2
  | .sweep cpu running => (Calls.sweep cpu running m).2

/-- The entry is a system call that the gate lets through, or a fault that a handler takes. -/
def Entrance.Passes (m : Machine ε z) : Entrance → Prop
  | .call _ caller => ∃ t buffer call request, m.objects.thread? caller = some t ∧
      t.state = .running ∧ Environment.readBuffer t.ipcBuffer m.environment = .ok buffer ∧
      decode buffer = .ok (call, request) ∧ Authorised m.objects t.process call request
  | .fault _ thread _ => handlerOf m.objects thread ≠ none
  | _ => False

/-- The handles and the records of the processes. -/
def holdings (s : System z) := (s.objects.handles, s.objects.processes)

/-! The steps of these programs write to threads, notifications, interrupts and the environment. -/

theorem keeps_wake (id : ThreadId) : (Ipc.wake id : Sys z _).Keeps holdings :=
  .bind .get fun _ => .ite (.bind (fun _ => rfl) fun _ => .pure _) (.pure _)

theorem keeps_expire (now : Nat) : (Ipc.expire now : Sys z _).Keeps holdings := by
  unfold Ipc.expire
  repeat' first | exact fun _ => rfl | exact keeps_wake _ | refine .bind ?_ fun _ => ?_ | split

theorem keeps_deliver (vector : Nat) : (Ipc.deliver vector : Sys z _).Keeps holdings := by
  unfold Ipc.deliver Ipc.raise Ipc.deliverWord
  repeat' first | exact fun _ => rfl | exact keeps_wake _ | refine .bind ?_ fun _ => ?_ | split

abbrev KeepsHoldings {α : Type} (call : Call ε z α) : Prop := call.Keeps (holdings ·.toSystem)

theorem keeps_writeResult (wakeup : Ipc.Wakeup) :
    KeepsHoldings (writeResult wakeup : Call ε z _) := by
  unfold writeResult frameOf
  repeat' first | exact fun _ => rfl | refine .bind ?_ fun _ => ?_

theorem keeps_announce (outcome : Option Ipc.Outcome) :
    KeepsHoldings (announce outcome : Call ε z _) := by
  unfold announce
  split
  · exact keeps_writeResult _
  · exact .pure _

theorem keeps_clear (id : ThreadId) : KeepsHoldings (clear id : Call ε z _) := by
  unfold clear unmapBuffer
  repeat' first | exact fun _ => rfl | refine .bind ?_ fun _ => ?_ | split

theorem keeps_reapLoop (running : Option ThreadId) (fuel cleared : Nat) :
    KeepsHoldings (reapLoop running fuel cleared : Call ε z _) := by
  induction fuel generalizing cleared with
  | zero => exact .pure _
  | succ fuel ih =>
    refine .bind .get fun m => ?_
    split
    · exact .pure _
    · exact .bind (keeps_clear _) fun _ => ih _

theorem keeps_reap (running : Option ThreadId) : KeepsHoldings (reap running : Call ε z _) :=
  .bind .get fun _ => .ite (.pure _) (keeps_reapLoop _ _ _)

/-- The holdings are those of `m`, or `P` is what changed them. -/
abbrev Changed (m : Machine ε z) (P : Prop) {α : Type} (_ : Except Error α) (m' : Machine ε z) :=
  holdings m'.toSystem = holdings m.toSystem ∨ P

omit [Environment ε] in
theorem changed_bind {α β : Type} {P : Prop} {m₁ : Machine ε z} {a : Call ε z α}
    {f : α → Call ε z β} (ha : a.wp (Changed m P) m₁) (hf : ∀ x, KeepsHoldings (f x)) :
    (a >>= f).wp (Changed m P) m₁ :=
  Prog.wp_bind.mpr (ha.mono fun _ m' h => ⟨fun x _ => h.imp_left (hf x m').trans, fun _ _ => h⟩)

/-- Apart from what `body` does for its caller, nothing happens. -/
theorem withCaller_changed {body : Call ε z Bool} {P : Prop}
    (hbody : ∀ t buffer, m.objects.thread? caller = some t → t.state = .running →
      Environment.readBuffer t.ipcBuffer m.environment = .ok buffer →
      body.wp (Changed m P) { m with buffer }) : (withCaller caller body).wp (Changed m P) m := by
  unfold withCaller
  rw [Prog.wp_get_bind]
  split
  · exact .inl rfl
  next t ht =>
  split
  · exact .inl rfl
  next hst =>
  split
  · exact .inl rfl
  next buffer hbuffer =>
  rw [Prog.wp_modify_bind]
  exact changed_bind (hbody t buffer ht (not_not.mp hst) hbuffer) fun _ _ => rfl

theorem dispatch_changed {P : Prop} (h : (handle caller).wp (fun _ m' => m' = m ∨ P) m) :
    (dispatch caller).wp (Changed m P) m := by
  refine changed_bind (Prog.wp_attempt.mpr (h.mono fun _ _ => Or.imp_left ?_)) fun r => ?_
  · exact fun h => h ▸ rfl
  split
  · exact .ite (.pure _) fun _ => rfl
  · exact fun _ => rfl

theorem handlerOf_withThread (o : Objects z) (thread : ThreadId) (fault : Fault) :
    handlerOf (withThread thread ({ · with fault := some fault }) o).2 thread =
      handlerOf o thread := by
  simp only [handlerOf, withThread, Prog.modify, thread?, Pool.find_modify, if_pos]
  cases o.threads.find thread <;> rfl

theorem step_changed (m : Machine ε z) (e : Entrance) :
    holdings (e.step m).toSystem = holdings m.toSystem ∨ e.Passes m := by
  cases e with
  | call cpu caller =>
    refine withCaller_changed (m := { m with scheduler := m.scheduler.select cpu }) ?_
    intro t buffer ht hst hbuffer
    refine changed_bind (dispatch_changed (handle_spec.mono fun _ _ => Or.imp_right ?_)) fun _ =>
      .bind (keeps_reap _) fun _ => .pure _
    rintro ⟨t', call, request, ht', hd, hauthorised⟩
    cases ht.symm.trans ht'
    exact ⟨t, buffer, call, request, ht, hst, hbuffer, hd, hauthorised⟩
  | fault cpu thread what =>
    refine withCaller_changed (m := { m with scheduler := m.scheduler.select cpu }) ?_
    intro t buffer ht _ _
    refine changed_bind ?_ fun _ => .pure _
    cases what with
    | none => exact .inl rfl
    | some fault =>
      refine Prog.wp_modify_bind.mpr (Prog.wp_get_bind.mpr ?_)
      split
      · exact .inl rfl
      · next hhandler =>
        refine Prog.wp.mono (Q := fun _ _ => True) trivial fun _ _ _ => .inr ?_
        exact fun hnone => nomatch hhandler.symm.trans
          ((handlerOf_withThread m.objects thread fault).trans hnone)
  | deadline cpu now =>
    have hkeeps : KeepsHoldings (answerDeadline cpu now : Call ε z _) :=
      .bind (fun _ => rfl) fun _ => .bind (fun m => keeps_expire now m.toSystem) keeps_announce
    exact .inl (hkeeps m)
  | interrupt cpu vector =>
    have hkeeps : KeepsHoldings (answerInterrupt cpu vector : Call ε z _) :=
      .bind (fun _ => rfl) fun _ => .bind (fun m => keeps_deliver vector m.toSystem) keeps_announce
    exact .inl (hkeeps m)
  | tick cpu =>
    have hkeeps : KeepsHoldings (answerTick cpu : Call ε z _) :=
      .bind (fun _ => rfl) fun _ => .bind (fun _ => rfl) fun _ => .pure _
    exact .inl (hkeeps m)
  | choose cpu => exact .inl rfl
  | sweep cpu running => exact .inl (keeps_reap running _)

/-- If the handles or the processes differ after any run of entries into the kernel, one of the
entries was a system call whose caller held the handle it named, with the type and the rights that
the call takes, or a fault of a process with a handler. -/
theorem changed_by_authorised (m : Machine ε z) (entries : List Entrance) :
    holdings (entries.foldl Entrance.step m).toSystem = holdings m.toSystem ∨
      ∃ before e after, entries = before ++ e :: after ∧
        e.Passes (before.foldl Entrance.step m) := by
  induction entries generalizing m with
  | nil => exact .inl rfl
  | cons e entries ih =>
    rcases step_changed m e with hstep | hpasses
    · rcases ih (e.step m) with hrest | ⟨before, e', after, rfl, hpasses⟩
      · exact .inl (hrest.trans hstep)
      · exact .inr ⟨e :: before, e', after, rfl, hpasses⟩
    · exact .inr ⟨[], e, entries, rfl, hpasses⟩

end Audhsos.Calls
