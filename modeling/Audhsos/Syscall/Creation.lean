import Audhsos.Sched.Reachable
import Audhsos.Syscall.Copies
import Audhsos.Syscall.Gate

/-!
A `threadCreate` that is refused. The call takes one thing after the other and every failure gives
back what was taken; each step is stated with what undoes it, and the undoing is composed. What may
differ is the generation of slots, the order in which they are handed out again and the home of the
next thread.
-/

namespace Audhsos.Calls

open Lib Objects Prog Environment Function List Option Ledger

variable {ε R : Type} {z : Sizes} {α β : Type}

/-- What no step of the call changes for good. -/
structure Rest (z : Sizes) where
  handles : HandleArena z.handles
  endpoints : Pool .endpoint Endpoint 1024
  notifications : Pool .notification Notification 1024
  replies : Pool .reply Audhsos.Reply 1024
  interrupts : Pool .interrupt Interrupt 64
  ports : Pool .ioPortRange IoPortRange 64
  queues : Nat → Scheduler
  caller : Nat
  pending : BitVec 16
  online : BitVec 16
  told : List (ProcessId × Watch)

/-- The machine as a refused call has to leave it: every object with its references, and the
resources of the environment. -/
@[ext]
structure Standing (z : Sizes) (R : Type) where
  process : ProcessId → Option (Occupant Process)
  thread : ThreadId → Option (Occupant Thread)
  memory : MemoryObjectId → Option (Occupant MemoryObject)
  rest : Rest z
  resources : R

def restOf (m : Machine ε z) : Rest z :=
  ⟨m.objects.handles, m.objects.endpoints, m.objects.notifications, m.objects.replies,
    m.objects.interrupts, m.objects.ports, m.scheduler.queues, m.scheduler.caller,
    m.scheduler.pending, m.scheduler.online, m.told⟩

def standing (res : ε → R) (m : Machine ε z) : Standing z R :=
  ⟨m.objects.processes.find, m.objects.threads.find, m.objects.memory.find, restOf m,
    res m.environment⟩

namespace Standing

variable (s : Standing z R)

def mapProcess (p : ProcessId) (f : Process → Process) : Standing z R :=
  { s with process := fun q => if q = p then (s.process p).map fun o => { o with value := f o.value }
      else s.process q }

def setThread (id : ThreadId) (held : Option (Occupant Thread)) : Standing z R :=
  { s with thread := update s.thread id held }

def setMemory (id : MemoryObjectId) (held : Option (Occupant MemoryObject)) : Standing z R :=
  { s with memory := update s.memory id held }

def setResources (r : R) : Standing z R := { s with resources := r }

theorem mapProcess_undo {s : Standing z R} {p : ProcessId} {f g : Process → Process}
    (h : ∀ held, s.process p = some held → g (f held.value) = held.value) :
    (s.mapProcess p f).mapProcess p g = s := by
  refine Standing.ext ?_ rfl rfl rfl rfl
  funext q
  by_cases hq : q = p
  · subst hq
    cases hheld : s.process q with
    | none => simp [mapProcess, hheld]
    | some held => simp [mapProcess, hheld, h held hheld]
  · simp [mapProcess, hq]

end Standing

section Undo

variable {res : ε → R} {m m' : Machine ε z} {s v v₁ v₂ : Standing z R} {u u₁ u₂ : Call ε z Unit}

variable {p : ProcessId} {held : Occupant Process} {id : ThreadId} {page : Page}

/-- The program leads from every machine that stands as `v₁` to one that stands as `v`. -/
def Restores (res : ε → R) (u : Call ε z Unit) (v₁ v : Standing z R) : Prop :=
  ∀ m, standing res m = v₁ → (u m).1 = .ok () ∧ standing res (u m).2 = v

theorem Restores.seq (h₂ : Restores res u₂ v₂ v₁) (h₁ : Restores res u₁ v₁ v) :
    Restores res (do u₂; u₁) v₂ v := by
  intro m hm
  obtain ⟨hok, hv₁⟩ := h₂ m hm
  rw [run_bind_ok (show u₂ m = (.ok (), (u₂ m).2) from Prod.ext hok rfl)]
  exact h₁ _ hv₁

variable {Q : Machine ε z → Prop} {Done : β → Machine ε z → Prop}

/-- A call that is refused leaves a machine in `Q`, and one that is served ends as `Done` says. -/
def Ends (Q : Machine ε z → Prop) (Done : α → Machine ε z → Prop) (call : Call ε z α)
    (m : Machine ε z) : Prop :=
  call.wp (fun r m' => (∀ e, r = .error e → Q m') ∧ ∀ a, r = .ok a → Done a m') m

theorem ends_reads {p : Call ε z α} {k : α → Call ε z β} (hp : p.Reads)
    (hm : Q m) (hk : ∀ a, p m = (.ok a, m) → Ends Q Done (k a) m) : Ends Q Done (p >>= k) m :=
  Prog.Reads.wp_bind hp hk fun _ => ⟨fun _ _ => hm, by simp⟩

/-- The program fails and has taken nothing, or it succeeds as `Ok` says. -/
def Does (res : ε → R) (p : Call ε z α) (m : Machine ε z) (Ok : α → Machine ε z → Prop) : Prop :=
  (∃ e m₁, p m = (.error e, m₁) ∧ standing res m₁ = standing res m) ∨
  ∃ a m₁, p m = (.ok a, m₁) ∧ Ok a m₁

section

variable {p : Call ε z α} {k : α → Call ε z β} {Ok : α → Machine ε z → Prop} (h : Does res p m Ok)
include h

theorem Does.ends_orUndo (hu : ∀ m₁, standing res m₁ = standing res m → Q (u m₁).2)
    (hok : ∀ a m₁, Ok a m₁ → Ends Q Done (k a) m₁) : Ends Q Done (p.orUndo u >>= k) m := by
  unfold Ends
  rw [wp_bind, wp]
  unfold orUndo
  rcases h with ⟨e, m₁, heq, hs⟩ | ⟨a, m₁, heq, ha⟩
  · rw [heq]
    exact ⟨by simp, fun _ _ => ⟨fun _ _ => hu m₁ hs, by simp⟩⟩
  · rw [heq]
    exact ⟨fun a' ha' => Except.ok.inj ha' ▸ hok a m₁ ha, by simp⟩

theorem Does.ends (hm : ∀ m₁, standing res m₁ = standing res m → Q m₁)
    (hok : ∀ a m₁, Ok a m₁ → Ends Q Done (k a) m₁) : Ends Q Done (p >>= k) m := by
  unfold Ends
  rw [wp_bind, wp]
  rcases h with ⟨e, m₁, heq, hs⟩ | ⟨a, m₁, heq, ha⟩
  · rw [heq]
    exact ⟨by simp, fun _ _ => ⟨fun _ _ => hm m₁ hs, by simp⟩⟩
  · rw [heq]
    exact ⟨fun a' ha' => Except.ok.inj ha' ▸ hok a m₁ ha, by simp⟩

end

theorem ends_ok {p : Call ε z α} {k : α → Call ε z β} {a : α} {m₁ : Machine ε z}
    (heq : p m = (.ok a, m₁)) (hk : Ends Q Done (k a) m₁) : Ends Q Done (p >>= k) m := by
  unfold Ends wp
  rw [run_bind_ok heq]
  exact hk

/-! ## The steps -/

theorem restores_withProcess {f : Process → Process} :
    Restores res (objs (withProcess p f)) s (s.mapProcess p f) := by
  rintro m rfl
  rw [objs_run]
  refine ⟨rfl, Standing.ext ?_ rfl rfl rfl rfl⟩
  funext q
  exact Pool.find_modify _ _ _ q

theorem standing_objs_withProcess (p : ProcessId) (f : Process → Process) (m : Machine ε z) :
    standing res (objs (withProcess p f) m).2 = (standing res m).mapProcess p f :=
  (restores_withProcess m rfl).2

theorem process?_eq (res : ε → R) (m : Machine ε z) (p : ProcessId) :
    m.objects.process? p = ((standing res m).process p).map (·.value) := rfl

theorem does_getProcess {k : Process → Call ε z α} {Ok : α → Machine ε z → Prop}
    (hk : ∀ held, (standing res m).process p = some held → Does res (k held.value) m Ok) :
    Does res (objs (getProcess p) >>= k) m Ok := by
  unfold Does
  rw [run_bind, objs_run]
  cases hheld : (standing res m).process p with
  | none =>
    exact .inl ⟨.invalidHandle, m, by simp [getProcess, process?_eq res, hheld], rfl⟩
  | some held =>
    have hrun : getProcess p m.objects = (.ok held.value, m.objects) := by
      simp [getProcess, process?_eq res, hheld]
    rw [hrun]
    exact hk held hheld

theorem restores_envDo {e e' : ε} {f : ε → ε}
    (hback : ∀ e'', res e'' = res e' → res (f e'') = res e)
    (hs : s.resources = res e') : Restores res (envDo f) s (s.setResources (res e)) := by
  rintro m rfl
  exact ⟨rfl, Standing.ext rfl rfl rfl rfl (hback _ hs)⟩

/-- A call of the environment changes nothing but its resources, and not those when it fails. -/
theorem does_env {p : Prog Error ε α}
    (hrefused : ∀ e x e', p e = (.error x, e') → res e' = res e) (m : Machine ε z) :
    Does res (env p) m fun a m₁ => ∃ e', p m.environment = (.ok a, e') ∧
      standing res m₁ = (standing res m).setResources (res e') := by
  obtain ⟨answer, e', hrun⟩ : ∃ answer e', p m.environment = (answer, e') := ⟨_, _, rfl⟩
  have heq : env p m = (answer, { m with environment := e' }) := by
    unfold env zoom
    rw [hrun]
    cases answer <;> rfl
  cases answer with
  | error e => exact .inl ⟨e, _, heq, Standing.ext rfl rfl rfl rfl (hrefused _ _ _ hrun)⟩
  | ok a => exact .inr ⟨a, _, heq, e', hrun, rfl⟩

theorem does_charge (res : ε → R) (p : ProcessId) (m : Machine ε z) :
    Does res (chargeObject p) m fun _ m₁ => ∃ held quota,
      (standing res m).process p = some held ∧
      held.value.kernelObjectQuota.charge 1 = some quota ∧
      standing res m₁ = (standing res m).mapProcess p ({ · with kernelObjectQuota := quota }) := by
  refine does_getProcess fun held hheld => ?_
  cases hquota : held.value.kernelObjectQuota.charge 1 with
  | none => exact .inl ⟨.quotaExceeded, m, run_bind_error rfl, rfl⟩
  | some quota =>
    refine .inr ⟨(), _, ?_, held, quota, hheld, hquota, standing_objs_withProcess p _ m⟩
    exact Prod.ext (by rw [objs_run]; rfl) rfl

theorem restores_refund {quota : Quota} (hheld : s.process p = some held)
    (hquota : held.value.kernelObjectQuota.charge 1 = some quota) :
    Restores res (refundObject p) (s.mapProcess p ({ · with kernelObjectQuota := quota })) s := by
  have hback : quota.refund 1 = held.value.kernelObjectQuota := by
    unfold Quota.charge at hquota
    split at hquota
    · obtain rfl := some.inj hquota
      rfl
    · cases hquota
  have hrestore : Restores res (refundObject p)
      (s.mapProcess p ({ · with kernelObjectQuota := quota })) _ := restores_withProcess
  rwa [Standing.mapProcess_undo] at hrestore
  intro held' hheld'
  obtain rfl := mem_unique hheld hheld'
  simp [hback]

theorem restores_release {id : MemoryObjectId} {held : Occupant MemoryObject}
    (hheld : s.memory id = some held) (hrefs : 1 < held.refs) :
    Restores res ((objs (onMemory (Pool.release id))).ignore) s
      (s.setMemory id (some { held with refs := held.refs - 1 })) := by
  rintro m rfl
  refine ⟨rfl, ?_⟩
  unfold Prog.ignore
  rw [objs_run]
  have hfind : m.objects.memory.find id = some held := hheld
  rcases m.objects.memory.release_cases id with
    ⟨hnone, -⟩ | ⟨o, ho, -, heq⟩ | ⟨o, pool', ho, hle, -⟩
  · rw [hfind] at hnone
    cases hnone
  · obtain rfl := mem_unique hfind ho
    unfold onMemory zoom
    rw [heq]
    refine Standing.ext rfl rfl ?_ rfl rfl
    funext k
    refine (Pool.find_update _ _ _ k).trans ?_
    rw [hfind]
    exact (update_apply _ _ _ k).symm
  · obtain rfl := mem_unique hfind ho
    omega

theorem restores_forceRelease :
    Restores res (objs (forceReleaseThread id)) s (s.setThread id none) := by
  rintro m rfl
  rw [objs_run]
  refine ⟨rfl, Standing.ext rfl ?_ rfl rfl rfl⟩
  change (Pool.forceRelease id m.objects.threads).2.find = _
  rcases m.objects.threads.forceRelease_cases id with ⟨hnone, heq⟩ | ⟨held, pool', -, heq, hfind⟩
  · rw [heq]
    exact (update_eq_self_iff.mpr hnone.symm).symm
  · rw [heq]
    exact funext fun k => (hfind k).trans (update_apply _ _ _ k).symm

theorem does_allocateThread (res : ε → R) (thread : Thread) (m : Machine ε z) :
    Does res (objs (onThreads (Pool.allocate thread))) m fun id m₁ =>
      (standing res m).thread id = none ∧
      standing res m₁ = (standing res m).setThread id (some ⟨1, thread⟩) := by
  rcases m.objects.threads.allocate_cases thread with heq | ⟨id, pool', heq, hnone, hfind⟩
  · refine .inl ⟨PoolError.exhausted.toError, m, ?_, rfl⟩
    rw [objs_run]
    unfold onThreads zoom
    rw [heq]
    rfl
  refine .inr ⟨id, { m with objects := { m.objects with threads := pool' } }, ?_, hnone, ?_⟩
  · rw [objs_run]
    unfold onThreads zoom
    rw [heq]
    rfl
  · refine Standing.ext rfl ?_ rfl rfl rfl
    exact funext fun k => (hfind k).trans (update_apply _ _ _ k).symm

theorem does_record (res : ε → R) (p : ProcessId) (id : ThreadId) (m : Machine ε z) :
    Does res (recordThread p id) m fun slot m₁ => ∃ held holder,
      (standing res m).process p = some held ∧ held.value.addThread id = .ok (slot, holder) ∧
      standing res m₁ = (standing res m).mapProcess p fun _ => holder := by
  refine does_getProcess fun held hheld => ?_
  cases hadd : held.value.addThread id with
  | error e => exact .inl ⟨e, m, run_bind_error rfl, rfl⟩
  | ok added =>
    obtain ⟨slot, holder⟩ := added
    refine .inr ⟨slot, _, ?_, held, holder, hheld, hadd, standing_objs_withProcess p _ m⟩
    rw [run_bind_ok (show ofExcept (Except.ok (slot, holder)) m = (.ok _, m) from rfl)]
    exact run_bind_ok (Prod.ext (by rw [objs_run]; rfl) rfl)

/-- A thread that is taken off the list again leaves it as it was. -/
theorem removeThread_addThread {P P' : Process} {slot : Nat}
    (hnot : some id ∉ P.threads) (hadd : P.addThread id = .ok (slot, P')) :
    P'.removeThread id = P := by
  unfold Process.addThread fillFirst at hadd
  cases hindex : P.threads.findIdx? (·.isNone) with
  | none => simp [hindex] at hadd
  | some k =>
    simp only [hindex, map_some, elim_some, Except.ok.injEq, Prod.mk.injEq] at hadd
    obtain ⟨rfl, rfl⟩ := hadd
    obtain ⟨hk, hnone, -⟩ := findIdx?_eq_some_iff_getElem.mp hindex
    have hat : (P.threads.set k (some id)).findIdx? (· = some id) = some k := by
      refine findIdx?_eq_some_iff_getElem.mpr ⟨by simpa using hk, by simp, fun j hj => ?_⟩
      rw [getElem_set_ne (by omega)]
      simp only [decide_eq_true_eq]
      exact fun heq => hnot (heq ▸ getElem_mem _)
    unfold Process.removeThread
    simp only [hat, set_set]
    have hsame : P.threads.set k none = P.threads := by
      have hself := set_getElem_self hk
      rwa [isNone_iff_eq_none.mp hnone] at hself
    rw [hsame]

theorem removeThread_handles (P : Process) (id : ThreadId) :
    (P.removeThread id).handles = P.handles := by
  unfold Process.removeThread
  split <;> rfl

theorem restores_withThread {f : Thread → Thread} {held : Occupant Thread}
    (hheld : s.thread id = some held) : Restores res (objs (withThread id f)) s
      (s.setThread id (some { held with value := f held.value })) := by
  rintro m rfl
  rw [objs_run]
  refine ⟨rfl, Standing.ext rfl ?_ rfl rfl rfl⟩
  funext k
  refine (Pool.find_modify _ _ _ k).trans ?_
  rw [show m.objects.threads.find id = some held from hheld]
  exact (update_apply _ _ _ k).symm

theorem does_installThread {thread : Thread}
    (hiso : m.objects.tables.Isolated) (hthread : (standing res m).thread id = some ⟨1, thread⟩) :
    Does res (installThread p id) m fun _ _ => True := by
  unfold installThread
  rcases installHandle_cases hiso p ⟨.of id, threadRights, 0⟩ with
    ⟨x, hx, -⟩ | ⟨h, o', ho', hin⟩
  · exact .inl ⟨x, m, run_bind_error (by rw [objs_run, hx]), rfl⟩
  rw [show ((objs (installHandle p ⟨.of id, threadRights, 0⟩) : Call ε z _) >>= fun handle => do
      objs (retain (.of id))
      pure handle.raw) = _ from rfl, Does, run_bind_ok
    (show (objs (installHandle p _) : Call ε z _) m = (.ok h, { m with objects := o' }) by
      rw [objs_run, ho'])]
  have hrefs : o'.books.refs (.of id) = some 1 := by
    rw [hin.books_eq]
    have hfind : m.objects.threads.find id = some ⟨1, thread⟩ := hthread
    change m.objects.refs (.of id) = some 1
    simp [refs, AnyObjectId.of, hfind]
  cases hr : (retain (.of id) o').1 with
  | error x =>
    have hfull := ((retained (.of id) o').refused x hr).2.2 1 hrefs
    exact absurd hfull (by decide)
  | ok _ =>
    exact .inr ⟨h.raw, _, run_bind_ok (show (objs (retain (.of id)) : Call ε z _)
      { m with objects := o' } = (.ok (), { m with objects := (retain (.of id) o').2 }) by
        rw [objs_run, hr]), trivial⟩

theorem assign_queues (self : Processors) :
    self.assign.2.queues = self.queues ∧ self.assign.2.caller = self.caller ∧
      self.assign.2.pending = self.pending ∧ self.assign.2.online = self.online := by
  unfold Processors.assign
  generalize self.online ||| 1 = mask
  generalize cpus = fuel
  induction fuel generalizing self with
  | zero => exact ⟨rfl, rfl, rfl, rfl⟩
  | succ fuel ih =>
    unfold Processors.assignLoop
    dsimp only
    split
    · exact ⟨rfl, rfl, rfl, rfl⟩
    · exact ih { self with nextHome := (self.nextHome + 1) % cpus }

variable (res) in
theorem standing_assignHome (m : Machine ε z) : standing res (assignHome m).2 = standing res m := by
  obtain ⟨hqueues, hcaller, hpending, honline⟩ := assign_queues m.scheduler
  change standing res { m with scheduler := m.scheduler.assign.2 } = _
  refine Standing.ext rfl rfl rfl ?_ rfl
  unfold standing restOf
  dsimp only
  rw [hqueues, hcaller, hpending, honline]

variable (res) in
theorem tables_of_standing (h : (standing res m').rest = (standing res m).rest)
    (hlists : ∀ p, ((standing res m').process p).map (·.value.handles) =
      ((standing res m).process p).map (·.value.handles)) :
    m'.objects.tables = m.objects.tables := by
  have hhandles : m'.objects.handles = m.objects.handles := congrArg Rest.handles h
  unfold tables
  rw [hhandles]
  congr 1
  funext p
  have hp := hlists p
  rw [process?_eq res m', process?_eq res m]
  cases h' : (standing res m').process p <;> cases h₀ : (standing res m).process p <;>
    simp_all

theorem reads_suppliedBuffer (p : ProcessId) (argument : Nat) :
    (suppliedBuffer p argument : Call ε z _).Reads := by
  unfold suppliedBuffer
  split
  · exact .pure _
  · exact .bind (.ofOption _ _) fun _ => .bind (reads_objs (reads_resolve _ _ _ _)) fun _ =>
      .bind (reads_objs (reads_getMemory _)) fun _ => .bind (.require _ _) fun _ => .pure _

/-! ## The steps that use the environment -/

variable [Environment ε]

/-- What the environment hands out it takes back, as far as `res` shows it. -/
structure Lawful (res : ε → R) : Prop where
  stack_refused : ∀ e x e', allocateKernelStack e = (.error x, e') → res e' = res e
  stack_back : ∀ e area e' e'', allocateKernelStack e = (.ok area, e') →
    res e'' = res e' → res (releaseKernelStack area.slot e'') = res e
  frame_refused : ∀ e x e', allocateFrame e = (.error x, e') → res e' = res e
  frame_back : ∀ e frame e' e'', allocateFrame e = (.ok frame, e') →
    res e'' = res e' → res (releaseFrame frame e'') = res e
  map_refused : ∀ root page frame permissions policy e x e',
    map root page frame permissions policy e = (.error x, e') → res e' = res e
  map_back : ∀ root page frame permissions policy e e' e'',
    map root page frame permissions policy e = (.ok (), e') → res e'' = res e' →
      res (unmap root page e'').2 = res e
  prepare : ∀ top entry stack address e,
    res (prepareThread top entry stack address e).2 = res e

theorem does_takeBuffer (hlaw : Lawful res) (supplied : Option (MemoryObjectId × PhysFrame))
    (m : Machine ε z) (hrefs : ∀ id held, m.objects.memory.find id = some held → 0 < held.refs) :
    Does res (takeBuffer supplied) m fun frame m₁ =>
      (standing res m₁).process = (standing res m).process ∧
      (standing res m₁).thread = (standing res m).thread ∧
      (standing res m₁).rest = (standing res m).rest ∧
      Restores res (giveBufferBack supplied frame) (standing res m₁) (standing res m) := by
  cases supplied with
  | none =>
    rcases does_env hlaw.frame_refused m with hfailed | ⟨frame, m₁, heq, e', hrun, hs⟩
    · exact .inl hfailed
    · refine .inr ⟨frame, m₁, heq, ?_⟩
      dsimp only
      rw [hs]
      refine ⟨rfl, rfl, rfl, ?_⟩
      exact restores_envDo (fun e'' he'' => hlaw.frame_back _ _ _ e'' hrun he'') rfl
  | some buffer =>
    obtain ⟨id, frame⟩ := buffer
    rcases m.objects.memory.retain_cases id with ⟨e, heq, -⟩ | ⟨held, hheld, -, heq⟩
    · refine .inl ⟨e.toError, m, run_bind_error ?_, rfl⟩
      rw [objs_run]
      unfold onMemory zoom
      rw [heq]
      rfl
    let pool := m.objects.memory.update id fun o => { o with refs := o.refs + 1 }
    let m₁ : Machine ε z := { m with objects := { m.objects with memory := pool } }
    have hrun : (objs (onMemory (Pool.retain id)) : Call ε z _) m = (.ok (), m₁) := by
      rw [objs_run]
      unfold onMemory zoom
      rw [heq]
      rfl
    have hs : standing res m₁ =
        (standing res m).setMemory id (some { held with refs := held.refs + 1 }) := by
      refine Standing.ext rfl rfl ?_ rfl rfl
      funext k
      refine (Pool.find_update _ _ _ k).trans ?_
      rw [hheld]
      exact (update_apply _ _ _ k).symm
    refine .inr ⟨frame, m₁, run_bind_ok hrun, ?_⟩
    dsimp only
    rw [hs]
    refine ⟨rfl, rfl, rfl, ?_⟩
    have hback : Restores res ((objs (onMemory (Pool.release id))).ignore)
        ((standing res m).setMemory id (some { held with refs := held.refs + 1 })) _ :=
      restores_release (update_self _ _ _) (Nat.succ_lt_succ (hrefs id held hheld))
    have hsame : ((standing res m).setMemory id
        (some { held with refs := held.refs + 1 })).setMemory id
          (some { held with refs := held.refs + 1 - 1 }) = standing res m := by
      refine Standing.ext rfl rfl ?_ rfl rfl
      unfold Standing.setMemory
      dsimp only
      rw [update_idem]
      exact update_eq_self_iff.mpr hheld.symm
    intro m' hm'
    obtain ⟨hok, hv⟩ := hback m' hm'
    exact ⟨hok, hv.trans hsame⟩

theorem does_kernelStack (hlaw : Lawful res) (m : Machine ε z) :
    Does res (env allocateKernelStack) m fun area m₁ =>
      (∃ r, standing res m₁ = (standing res m).setResources r) ∧
      Restores res (envDo (releaseKernelStack area.slot)) (standing res m₁)
        (standing res m) := by
  rcases does_env hlaw.stack_refused m with hfailed | ⟨area, m₁, heq, e', hrun, hs⟩
  · exact .inl hfailed
  · refine .inr ⟨area, m₁, heq, ⟨_, hs⟩, ?_⟩
    rw [hs]
    exact restores_envDo (fun e'' he'' => hlaw.stack_back _ _ _ e'' hrun he'') rfl

/-- The end of a thread is not the end of its process when others are left, or when it has ended
before. -/
theorem threadLeft_of_others (hheld : (standing res m).process p = some held)
    (hothers : held.value.threadList ≠ [] ∨ held.value.ended = true) : (threadLeft p m).2 = m := by
  have hP : m.objects.process? p = some held.value := by
    rw [process?_eq res, hheld]
    rfl
  unfold threadLeft
  rw [run_bind_ok (run_get m)]
  by_cases hempty : held.value.threadList = []
  · have hended := hothers.resolve_left (not_not_intro hempty)
    rw [if_pos (by rw [hP]; simp [hempty])]
    unfold ended
    rw [run_bind_ok (run_get m), hP]
    simp only [hended, if_true]
    rfl
  · rw [if_neg (by rw [hP]; simpa using hempty)]
    rfl

theorem keeps_signalEach (p : ProcessId) (watches : List Watch) (switch : Bool) :
    KeepsHoldings (signalEach p watches switch : Call ε z _) := by
  have hsignal : ∀ watch : Watch,
      (Ipc.signal watch.notification (2 ^ (watch.bit % 64)) : Sys z _).Keeps holdings := by
    intro watch
    unfold Ipc.signal Ipc.deliverWord
    repeat' first | exact fun _ => rfl | exact keeps_wake _ | refine .bind ?_ fun _ => ?_ | split
  have hone : ∀ watch, KeepsHoldings (signalOne p watch : Call ε z _) := by
    intro watch
    unfold signalOne
    refine .bind (fun _ => rfl) fun _ => .bind (.attempt fun m => hsignal watch m.toSystem) ?_
    intro outcome
    split
    · exact .pure _
    split
    · exact .bind (keeps_writeResult _) fun _ => .pure _
    · exact .pure _
  induction watches generalizing switch with
  | nil => exact .pure _
  | cons watch watches ih => exact .bind (hone watch) fun _ => ih _

/-- Whether a process is there and has ended. -/
def endedOf (p : ProcessId) (m : Machine ε z) : Option Bool :=
  (m.objects.process? p).map (·.ended)

/-- Forgetting the last thread of a process ends it. -/
theorem endedOf_forget (hheld : (standing res m).process p = some held)
    (hlast : (held.value.removeThread id).threadList = []) :
    endedOf p (forgetThread p id m).2 = some true := by
  have hrun : (forgetThread p id m).2 = (threadLeft p (objs (forceReleaseThread id)
      (objs (withProcess p (·.removeThread id)) m).2).2).2 := rfl
  have hs : standing res (objs (forceReleaseThread id)
      (objs (withProcess p (·.removeThread id)) m).2).2 = _ :=
    (restores_forceRelease _ (standing_objs_withProcess p _ m)).2
  rw [hrun]
  generalize (objs (forceReleaseThread id)
    (objs (withProcess p (·.removeThread id)) m).2).2 = m₁ at hs
  have hP : m₁.objects.process? p = some (held.value.removeThread id) := by
    rw [process?_eq res, hs]
    simp [Standing.setThread, Standing.mapProcess, hheld]
  unfold threadLeft
  rw [run_bind_ok (run_get m₁), if_pos (by rw [hP]; simp [hlast])]
  unfold ended
  rw [run_bind_ok (run_get m₁), hP]
  by_cases hended : (held.value.removeThread id).ended = true
  · simp only [hended, if_true]
    exact (congrArg (Option.map _) hP).trans (by simp [hended])
  · simp only [hended, Bool.false_eq_true, if_false]
    rw [run_bind_ok (Prod.ext (by rw [objs_run]; rfl) rfl :
      objs (withProcess p ({ · with ended := true })) m₁ = (.ok (), _))]
    unfold endedOf process?
    rw [show (signalEach p _ false _ : Except Error Bool × Machine ε z).2.objects.processes = _ from
      congrArg Prod.snd (keeps_signalEach p _ false _)]
    have hfind := Pool.find_modify m₁.objects.processes p ({ · with ended := true }) p
    obtain ⟨held₁, hheld₁, -⟩ := map_eq_some_iff.mp hP
    change Option.map _ (Option.map _
      ((m₁.objects.processes.modify p ({ · with ended := true })).find p)) = _
    rw [hfind, if_pos rfl, hheld₁]
    rfl

theorem restores_forget (hheld : s.process p = some held)
    (hothers : (held.value.removeThread id).threadList ≠ [] ∨
      (held.value.removeThread id).ended = true) :
    Restores res (forgetThread p id) s ((s.mapProcess p (·.removeThread id)).setThread id none) := by
  have hremoved : Restores res (objs (withProcess p (·.removeThread id))) s
      (s.mapProcess p (·.removeThread id)) := restores_withProcess
  refine hremoved.seq (restores_forceRelease.seq ?_)
  intro m hm
  refine ⟨rfl, ?_⟩
  have hheld' : (standing res m).process p =
      some { held with value := held.value.removeThread id } := by
    rw [hm]
    simp [Standing.setThread, Standing.mapProcess, hheld]
  change standing res (threadLeft p m).2 = _
  rw [threadLeft_of_others hheld' hothers, hm]

theorem pageFromStart_start {address : Nat} (h : pageFromStart address = some page) :
    pageFromStart page.start = some page := by
  unfold pageFromStart at h ⊢
  split at h
  · obtain rfl := some.inj h
    have hpos : 0 < pageSize := by decide
    simp [Page.start, Page.containing, Nat.mul_div_cancel _ hpos]
  · cases h

theorem does_mapBuffer (hlaw : Lawful res) (p : ProcessId) (slot : Nat) (frame : PhysFrame)
    (m : Machine ε z) :
    Does res (mapBuffer p slot frame) m fun address m₁ => ∃ held page e', page.start = address ∧
      (standing res m).process p = some held ∧ pageFromStart page.start = some page ∧
      map held.value.root page frame bufferPermissions .writeBack m.environment =
        (.ok (), e') ∧ standing res m₁ = (standing res m).setResources (res e') := by
  cases hpage : ipcPage slot with
  | none =>
    refine .inl ⟨.quotaExceeded, m, run_bind_error ?_, rfl⟩
    rw [hpage]
    rfl
  | some page =>
    have hstart : pageFromStart page.start = some page := by
      obtain ⟨address, -, hat⟩ := bind_eq_some_iff.mp hpage
      exact pageFromStart_start hat
    unfold Does mapBuffer
    rw [hpage, run_bind_ok (show ofOption (some page) Error.quotaExceeded m =
      (.ok page, m) from rfl)]
    refine does_getProcess fun held hheld => ?_
    rcases does_env
      (hlaw.map_refused held.value.root page frame bufferPermissions .writeBack) m with
      ⟨e, m₁, heq, hs⟩ | ⟨_, m₁, heq, e', hrun, hs⟩
    · exact .inl ⟨e, m₁, run_bind_error heq, hs⟩
    · exact .inr ⟨page.start, m₁, run_bind_ok heq, held, page, e', rfl, hheld, hstart, hrun, hs⟩

theorem restores_unmap (hlaw : Lawful res)
    {frame : PhysFrame} {e e' : ε} (hheld : s.process p = some held)
    (hpage : pageFromStart page.start = some page)
    (hmap : map held.value.root page frame bufferPermissions .writeBack e = (.ok (), e'))
    (hs : s.resources = res e') :
    Restores res (unmapBuffer p page.start) s (s.setResources (res e)) := by
  rintro m rfl
  have hP : m.objects.process? p = some held.value := by
    rw [process?_eq res, hheld]
    rfl
  have hrun : unmapBuffer p page.start m =
      ((env (unmap held.value.root page)).ignore : Call ε z Unit) m := by
    unfold unmapBuffer
    rw [run_bind_ok (run_get m), hP, hpage]
    rfl
  rw [hrun]
  refine ⟨rfl, Standing.ext rfl rfl rfl rfl ?_⟩
  exact hlaw.map_back _ _ _ _ _ _ _ _ hmap hs

theorem does_prepare (hlaw : Lawful res) (top entry stack address : Nat) (m : Machine ε z) :
    Does res (env (prepareThread top entry stack address)) m fun _ m₁ =>
      standing res m₁ = standing res m := by
  have hkept : ∀ e a e', prepareThread top entry stack address e = (a, e') → res e' = res e := by
    intro e a e' hrun
    have hsame := hlaw.prepare top entry stack address e
    rwa [hrun] at hsame
  rcases does_env (fun e x => hkept e (.error x)) m with hfailed | ⟨a, m₁, heq, e', hrun, hs⟩
  · exact .inl hfailed
  · rw [hkept _ _ _ hrun] at hs
    exact .inr ⟨a, m₁, heq, hs⟩

end Undo

/-! ## The call -/

section Create

variable [Environment ε] {res : ε → R} {m : Machine ε z} {v : Standing z R}

variable {id : ThreadId} {slot : Nat} {target : ProcessId}

/-- What the first part of the call has decoded and taken. -/
structure Recorded where
  target : ProcessId
  entry : Nat
  stack : Nat
  supplied : Option (MemoryObjectId × PhysFrame)
  area : KernelStack
  frame : PhysFrame
  id : ThreadId
  slot : Nat

/-- The part of `threadCreate` up to the entry in the list of the process. -/
def threadRecorded (caller : ThreadId) (process : ProcessId) (request : Request) :
    Call ε z Recorded := do
  let target ← processOf process request
  let entry ← ofExcept (userAddress (request.argument 1))
  let stack ← ofExcept (userAddress (request.argument 2))
  let priority ← narrow 8 (request.argument 3)
  let maxPriority ← narrow 8 (request.argument 4)
  let supplied ← suppliedBuffer process (request.argument 5)
  require (maxPriority < priorityCount ∧ priority ≤ maxPriority) .invalidArgument
  let creator ← objs (getThread caller)
  require (maxPriority ≤ creator.maxPriority) .invalidArgument
  chargeObject target
  let area ← (env allocateKernelStack).orUndo (refundObject target)
  let frame ← (takeBuffer supplied).orUndo (do
    envDo (releaseKernelStack area.slot)
    refundObject target)
  let thread ← ofExcept (Thread.new target priority maxPriority area.slot frame)
  let cpu ← assignHome
  let thread := thread.onProcessor cpu
  let thread := supplied.elim thread fun (object, _) => thread.withBufferObject object
  let giveBack := giveThreadBack target supplied frame area
  let id ← (objs (onThreads (Pool.allocate thread))).orUndo giveBack
  let slot ← (recordThread target id).orUndo (do
    objs (forceReleaseThread id)
    giveBack)
  pure ⟨target, entry, stack, supplied, area, frame, id, slot⟩

/-- The part of `threadCreate` that follows. -/
def threadFinished (process : ProcessId) (r : Recorded) : Call ε z Reply := do
  let giveBack := giveThreadBack r.target r.supplied r.frame r.area
  let ipcAddress ← (mapBuffer r.target r.slot r.frame).orUndo (do
    forgetThread r.target r.id
    giveBack)
  objs (withThread r.id (·.startingAt r.entry r.stack ipcAddress))
  let takeBack : Call ε z Unit := do
    unmapBuffer r.target ipcAddress
    forgetThread r.target r.id
    giveBack
  let _ ← (env (prepareThread r.area.top r.entry r.stack ipcAddress)).orUndo takeBack
  let handle ← (installThread process r.id).orUndo takeBack
  pure (Reply.value handle)

theorem threadCreate_eq (caller : ThreadId) (process : ProcessId) (request : Request) :
    (threadCreate caller process request : Call ε z Reply) =
      threadRecorded caller process request >>= threadFinished process := by
  unfold threadRecorded
  simp only [Prog.bind_assoc]
  rfl

/-- The second part gives everything back on every way out, and ends as that does. -/
theorem ends_finish {Q : Machine ε z → Prop} (hlaw : Lawful res) {process : ProcessId}
    {thread : Thread} {r : Recorded} (hiso : m.objects.tables.Isolated)
    (hthread : (standing res m).thread r.id = some ⟨1, thread⟩)
    (hback : ∀ x m', standing res m' = (standing res m).setThread r.id x →
      Q ((do forgetThread r.target r.id; giveThreadBack r.target r.supplied r.frame r.area :
        Call ε z Unit) m').2) :
    Ends Q (fun _ _ => True) (threadFinished process r) m := by
  obtain ⟨target, entry, stack, supplied, area, frame, id, slot⟩ := r
  unfold threadFinished
  have hself : (standing res m).setThread id (some ⟨1, thread⟩) = standing res m :=
    Standing.ext rfl (update_eq_self_iff.mpr hthread.symm) rfl rfl rfl
  refine (does_mapBuffer hlaw target slot frame m).ends_orUndo (fun m₁ hm₁ =>
    hback (some ⟨1, thread⟩) m₁ (hm₁.trans hself.symm)) ?_
  rintro _ m₁ ⟨held, page, e₁, rfl, hheld, hpage, hmap, hs₁⟩
  -- where the thread starts
  let started : Occupant Thread := ⟨1, thread.startingAt entry stack page.start⟩
  have hthread₁ : (standing res m₁).thread id = some ⟨1, thread⟩ := by
    rw [hs₁]
    exact hthread
  obtain ⟨hok, hs₂⟩ := restores_withThread (f := (·.startingAt entry stack page.start)) hthread₁ m₁
    rfl
  refine ends_ok (show objs (withThread id (·.startingAt entry stack page.start)) m₁ =
    (.ok (), (objs (withThread id (·.startingAt entry stack page.start)) m₁).2) from
      Prod.ext hok rfl) ?_
  generalize (objs (withThread id (·.startingAt entry stack page.start)) m₁).2 = m₂ at hs₂ ⊢
  dsimp only
  have hs₂' : standing res m₂ =
      ((standing res m).setThread id (some started)).setResources (res e₁) := by
    rw [hs₂, hs₁]
    rfl
  have htakeBack : ∀ m', standing res m' = standing res m₂ → Q ((do
      unmapBuffer target page.start
      forgetThread target id
      giveThreadBack target supplied frame area : Call ε z Unit) m').2 := by
    have hheld₂ : (standing res m₂).process target = some held := by
      rw [hs₂']
      exact hheld
    have hunmap : Restores res (unmapBuffer target page.start) (standing res m₂)
        ((standing res m₂).setResources (res m.environment)) :=
      restores_unmap hlaw hheld₂ hpage hmap (by rw [hs₂']; rfl)
    have hsame : (standing res m₂).setResources (res m.environment) =
        (standing res m).setThread id (some started) := by
      rw [hs₂']
      rfl
    rw [hsame] at hunmap
    intro m' hm'
    obtain ⟨hok, hs'⟩ := hunmap m' hm'
    rw [run_bind_ok (show unmapBuffer target page.start m' =
      (.ok (), (unmapBuffer target page.start m').2) from Prod.ext hok rfl)]
    exact hback (some started) _ hs'
  refine (does_prepare hlaw area.top entry stack page.start m₂).ends_orUndo htakeBack ?_
  intro _ m₃ hs₃
  have htables : m₃.objects.tables = m.objects.tables := by
    refine tables_of_standing res ?_ fun p => ?_
    · rw [hs₃, hs₂']
      rfl
    · rw [hs₃, hs₂']
      rfl
  have hthread₃ : (standing res m₃).thread id = some started := by
    rw [hs₃, hs₂']
    exact update_self _ _ _
  refine (does_installThread (htables ▸ hiso) hthread₃).ends_orUndo
    (fun m' hm' => htakeBack m' (hm'.trans hs₃)) ?_
  exact fun _ _ _ => ⟨by simp [pure], fun _ _ => trivial⟩

theorem setThread_undo {s : Standing z R} (h : s.thread id = none)
    (x : Option (Occupant Thread)) : (s.setThread id x).setThread id none = s := by
  refine Standing.ext rfl ?_ rfl rfl rfl
  unfold Standing.setThread
  dsimp only
  rw [update_idem]
  exact update_eq_self_iff.mpr h.symm

/-- Forgetting a thread takes it out of the list it was put into and out of the pool. -/
theorem restores_forget_recorded {held : Occupant Process}
    {holder : Process} {s : Standing z R} (hfresh : s.thread id = none)
    (hheld : s.process target = some held) (hadd : held.value.addThread id = .ok (slot, holder))
    (hnot : some id ∉ held.value.threads)
    (hothers : held.value.threadList ≠ [] ∨ held.value.ended = true)
    (x : Option (Occupant Thread)) :
    Restores res (forgetThread target id) ((s.mapProcess target fun _ => holder).setThread id x)
      s := by
  have hremove := removeThread_addThread hnot hadd
  have hheld' : ((s.mapProcess target fun _ => holder).setThread id x).process target =
      some { held with value := holder } := by
    simp [Standing.setThread, Standing.mapProcess, hheld]
  have hback : Restores res (forgetThread target id) _ _ := restores_forget hheld' (by
    rw [hremove]
    exact hothers)
  have hundo : (s.mapProcess target fun _ => holder).mapProcess target (·.removeThread id) = s := by
    refine Standing.mapProcess_undo fun held' hheld' => ?_
    obtain rfl := mem_unique hheld hheld'
    exact hremove
  have hsame : (((s.mapProcess target fun _ => holder).setThread id x).mapProcess target
      (·.removeThread id)).setThread id none = s := by
    refine Eq.trans ?_ (setThread_undo hfresh x)
    conv_rhs => rw [← hundo]
    rfl
  rwa [hsame] at hback

/-- What the first part leaves: the thread stands in the pool and in the list of its process, from
which it can be taken out again, and all that was taken for it can be given back. -/
structure Holds (res : ε → R) (m : Machine ε z) (process : ProcessId) (request : Request)
    (r : Recorded) (m' : Machine ε z) : Prop where
  target : processOf process request m = (.ok r.target, m)
  tables : m'.objects.tables = m.objects.tables
  taken : ∃ P held holder thread s, m.objects.process? r.target = some P ∧
    s.thread r.id = none ∧ s.process r.target = some held ∧
    held.value.addThread r.id = .ok (r.slot, holder) ∧ some r.id ∉ held.value.threads ∧
    held.value.threadList = P.threadList ∧ held.value.ended = P.ended ∧
    standing res m' = (s.mapProcess r.target fun _ => holder).setThread r.id (some ⟨1, thread⟩) ∧
    Restores res (giveThreadBack r.target r.supplied r.frame r.area) s (standing res m)

omit [Environment ε] in
/-- A charge and a new thread do not touch the handles of a process. -/
theorem tables_recorded {s : Standing z R} {quota : Quota} {holder : Process}
    {x : Option (Occupant Thread)} (hheld : (standing res m).process target = some held)
    (hprocess : s.process =
      ((standing res m).mapProcess target ({ · with kernelObjectQuota := quota })).process)
    (hrest : s.rest = (standing res m).rest)
    (hadd : ({ held.value with kernelObjectQuota := quota } : Process).addThread id =
      .ok (slot, holder)) (hnot : some id ∉ held.value.threads)
    (hs : standing res m' = (s.mapProcess target fun _ => holder).setThread id x) :
    m'.objects.tables = m.objects.tables := by
  have hhandles := congrArg Process.handles (removeThread_addThread (by exact hnot) hadd)
  rw [removeThread_handles] at hhandles
  refine tables_of_standing res ?_ fun p => ?_
  · rw [hs]
    exact hrest
  · rw [hs]
    change ((s.mapProcess target fun _ => holder).process p).map _ = _
    by_cases hp : p = target
    · simp [Standing.mapProcess, hp, hprocess, hheld, hhandles]
    · simp [Standing.mapProcess, hp, hprocess]

theorem ends_record (hlaw : Lawful res) (caller : ThreadId) (process : ProcessId)
    (request : Request)
    (hlisted : ∀ p P id, m.objects.process? p = some P → some id ∈ P.threads →
      m.objects.thread? id ≠ none)
    (hrefs : ∀ id held, m.objects.memory.find id = some held → 0 < held.refs) :
    Ends (standing res · = standing res m) (Holds res m process request)
      (threadRecorded caller process request) m := by
  unfold threadRecorded
  refine ends_reads (reads_processOf process request) rfl fun target htarget => ?_
  refine ends_reads (.ofExcept _) rfl fun entry _ => ?_
  refine ends_reads (.ofExcept _) rfl fun stack _ => ?_
  refine ends_reads (reads_narrow 8 _) rfl fun priority _ => ?_
  refine ends_reads (reads_narrow 8 _) rfl fun maxPriority _ => ?_
  refine ends_reads (reads_suppliedBuffer process _) rfl fun supplied _ => ?_
  refine ends_reads (.require _ _) rfl fun _ hpriority => ?_
  refine ends_reads (reads_objs (reads_getThread caller)) rfl fun creator _ => ?_
  refine ends_reads (.require _ _) rfl fun _ _ => ?_
  -- the charge, the kernel stack and the buffer
  refine (does_charge res target m).ends (fun _ h => h) ?_
  rintro _ m₁ ⟨held, quota, hheld, hquota, hs₁⟩
  have hrefund : Restores res (refundObject target) (standing res m₁) (standing res m) :=
    hs₁ ▸ restores_refund hheld hquota
  refine (does_kernelStack hlaw m₁).ends_orUndo (fun m' h => (hrefund m' h).2) ?_
  rintro area m₂ ⟨⟨r, hs₂⟩, hstack⟩
  have hmemory : m₂.objects.memory.find = m.objects.memory.find := by
    have h₂ := congrArg Standing.memory hs₂
    rw [hs₁] at h₂
    exact h₂
  refine (does_takeBuffer hlaw supplied m₂ (by rw [hmemory]; exact hrefs)).ends_orUndo
    (fun m' h => (hstack.seq hrefund m' h).2) ?_
  rintro frame m₃ ⟨hprocess₃, hthread₃, hrest₃, hbuffer⟩
  have hgive : Restores res (giveThreadBack target supplied frame area) (standing res m₃)
      (standing res m) := hbuffer.seq (hstack.seq hrefund)
  -- the record of the thread, which cannot fail
  have hcheck : maxPriority < priorityCount ∧ priority ≤ maxPriority :=
    require_ok.mp (congrArg Prod.fst hpriority)
  obtain ⟨thread₀, hnew⟩ : ∃ thread₀,
      Thread.new target priority maxPriority area.slot frame = .ok thread₀ := by
    unfold Thread.new
    rw [if_neg (by omega)]
    exact ⟨_, rfl⟩
  refine ends_ok (show ofExcept (Thread.new target priority maxPriority area.slot frame) m₃ =
    (.ok thread₀, m₃) by rw [hnew]; rfl) ?_
  refine ends_ok (show assignHome m₃ = (.ok m₃.scheduler.assign.1, (assignHome m₃).2) from rfl) ?_
  have hs₄ := standing_assignHome res m₃
  generalize (assignHome m₃).2 = m₄ at hs₄ ⊢
  dsimp only
  generalize (supplied.elim (thread₀.onProcessor m₃.scheduler.assign.1) fun x =>
    (thread₀.onProcessor m₃.scheduler.assign.1).withBufferObject x.1) = thread
  rw [← hs₄] at hgive hprocess₃ hthread₃ hrest₃
  -- the slot in the pool and the slot in the list of the process
  refine (does_allocateThread res thread m₄).ends_orUndo (fun m' h => (hgive m' h).2) ?_
  rintro id m₅ ⟨hfresh, hs₅⟩
  have hrelease : Restores res (objs (forceReleaseThread id)) (standing res m₅)
      (standing res m₄) := by
    have hback : Restores res (objs (forceReleaseThread id)) (standing res m₅)
      ((standing res m₅).setThread id none) := restores_forceRelease
    rwa [hs₅, setThread_undo hfresh, ← hs₅] at hback
  refine (does_record res target id m₅).ends_orUndo
    (fun m' h => (hrelease.seq hgive m' h).2) ?_
  rintro slot m₆ ⟨held₅, holder, hheld₅, hadd, hs₆⟩
  have hprocess : (standing res m₄).process =
      ((standing res m).mapProcess target ({ · with kernelObjectQuota := quota })).process := by
    rw [hprocess₃, hs₂, hs₁]
    rfl
  have hheld₄ : (standing res m₄).process target = some held₅ := by
    rw [hs₅] at hheld₅
    exact hheld₅
  obtain rfl : { held with value := { held.value with kernelObjectQuota := quota } } = held₅ := by
    rw [hprocess] at hheld₄
    simpa [Standing.mapProcess, hheld] using hheld₄
  have hP : m.objects.process? target = some held.value := by
    rw [process?_eq res, hheld]
    rfl
  have hnot : some id ∉ held.value.threads := by
    intro hmem
    refine hlisted target held.value id hP hmem ?_
    have hnone : m.objects.threads.find id = none := by
      have h₄ := hfresh
      rw [hthread₃, hs₂, hs₁] at h₄
      exact h₄
    unfold thread?
    rw [hnone]
    rfl
  have hs₆' : standing res m₆ = ((standing res m₄).mapProcess target fun _ => holder).setThread id
      (some ⟨1, thread⟩) := by
    rw [hs₆, hs₅]
    rfl
  have hrest : (standing res m₄).rest = (standing res m).rest := by
    rw [hrest₃, hs₂, hs₁]
    rfl
  have htables := tables_recorded hheld hprocess hrest hadd hnot hs₆'
  refine ⟨by simp [pure], fun r hr => ?_⟩
  cases hr
  exact ⟨htarget, htables, _, _, _, thread, _, hP, hfresh, hheld₄, hadd, hnot, rfl, rfl, hs₆', hgive⟩

section

variable {process : ProcessId} {request : Request} {r : Recorded} {m' : Machine ε z}

theorem Holds.thread (h : Holds res m process request r m') :
    ∃ thread, (standing res m').thread r.id = some ⟨1, thread⟩ := by
  obtain ⟨P, held, holder, thread, s, -, -, -, -, -, -, -, hs, -⟩ := h.taken
  exact ⟨thread, by rw [hs]; exact update_self _ _ _⟩

/-- With another thread in the list, or an end before, everything is as it was. -/
theorem Holds.restores (h : Holds res m process request r m')
    (hothers : ∀ P, m.objects.process? r.target = some P → P.threadList ≠ [] ∨ P.ended = true)
    (x : Option (Occupant Thread)) {m₁ : Machine ε z}
    (hm₁ : standing res m₁ = (standing res m').setThread r.id x) :
    standing res ((do forgetThread r.target r.id; giveThreadBack r.target r.supplied r.frame r.area :
      Call ε z Unit) m₁).2 = standing res m := by
  obtain ⟨P, held, holder, thread, s, hP, hfresh, hheld, hadd, hnot, hlist, hended, hs, hgive⟩ :=
    h.taken
  have hforget := (restores_forget_recorded hfresh hheld hadd hnot
    (by rw [hlist, hended]; exact hothers P hP) x).seq hgive
  refine (hforget m₁ ?_).2
  rw [hm₁, hs]
  exact Standing.ext rfl (update_idem _ _ _) rfl rfl rfl

/-- A process that had no thread and had not ended has ended. -/
theorem Holds.ends_process (h : Holds res m process request r m') {P : Process}
    (hP : m.objects.process? r.target = some P) (hlast : P.threadList = [])
    (x : Option (Occupant Thread)) {m₁ : Machine ε z}
    (hm₁ : standing res m₁ = (standing res m').setThread r.id x) :
    endedOf r.target ((do
      forgetThread r.target r.id
      giveThreadBack r.target r.supplied r.frame r.area : Call ε z Unit) m₁).2 = some true := by
  obtain ⟨P', held, holder, thread, s, hP', -, hheld, hadd, hnot, hlist, -, hs, -⟩ := h.taken
  cases hP.symm.trans hP'
  have hheld₁ : (standing res m₁).process r.target = some { held with value := holder } := by
    rw [hm₁, hs]
    simp [Standing.setThread, Standing.mapProcess, hheld]
  have hended : endedOf r.target (forgetThread r.target r.id m₁).2 = some true :=
    endedOf_forget hheld₁ (by rw [removeThread_addThread hnot hadd, hlist, hlast])
  have hkept : ((giveThreadBack r.target r.supplied r.frame r.area : Call ε z Unit)).Keeps
      (endedOf r.target) := by
    unfold giveThreadBack giveBufferBack
    refine .bind ?_ fun _ => .bind (fun _ => rfl) fun _ m => ?_
    · split <;> exact fun _ => rfl
    · unfold endedOf refundObject process?
      rw [objs_run]
      change Option.map _ (Option.map _ ((m.objects.processes.modify r.target _).find r.target)) = _
      rw [Pool.find_modify, if_pos rfl]
      cases m.objects.processes.find r.target <;> rfl
  rw [run_bind_ok (show forgetThread r.target r.id m₁ =
    (.ok (), (forgetThread r.target r.id m₁).2) from rfl), hkept]
  exact hended

end

theorem live_of_find {type : ObjectType} {T : Type} {n : Nat} {pool pool' : Pool type T n}
    (h : pool.find = pool'.find) : pool.live = pool'.live := by
  have hsub : ∀ {a b : Pool type T n}, a.find = b.find → a.occupied ⊆ b.occupied := by
    intro a b hab i hi
    obtain ⟨hn, hsome⟩ := Finset.mem_filter.mp hi
    obtain ⟨o, ho⟩ := isSome_iff_exists.mp hsome
    have hfind : a.find ⟨i, (a.slots i).generation⟩ = some o :=
      PoolSlots.find_eq_some.mpr ⟨Finset.mem_range.mp hn, rfl, ho⟩
    rw [hab] at hfind
    obtain ⟨-, -, hb⟩ := PoolSlots.find_eq_some.mp hfind
    exact Finset.mem_filter.mpr ⟨hn, isSome_iff_exists.mpr ⟨o, hb⟩⟩
  rw [pool.valid.live_eq, pool'.valid.live_eq, (hsub h).antisymm (hsub h.symm)]

/-- A `threadCreate` that is refused leaves every object, every count and the resources of the
environment as they were, exactly when it is refused before the thread stands in the list of the
process it is for, or that process has another thread or has ended before. -/
theorem refused_thread_create_changes_nothing (res : ε → R) (hlaw : Lawful res)
    (m : Machine ε z) (caller : ThreadId) (process : ProcessId) (request : Request)
    (hiso : m.objects.tables.Isolated)
    (hlisted : ∀ p P id, m.objects.process? p = some P → some id ∈ P.threads →
      m.objects.thread? id ≠ none)
    (hrefs : ∀ id held, m.objects.memory.find id = some held → 0 < held.refs)
    (e : Error) (m' : Machine ε z)
    (hrefused : threadCreate caller process request m = (.error e, m')) :
    (standing res m' = standing res m ∧
      m'.objects.processes.live = m.objects.processes.live ∧
      m'.objects.threads.live = m.objects.threads.live ∧
      m'.objects.memory.live = m.objects.memory.live) ↔
    (threadRecorded caller process request m).1 = .error e ∨
      ∀ target P, (processOf process request m).1 = .ok target →
        m.objects.process? target = some P → P.threadList ≠ [] ∨ P.ended = true := by
  have hlive : standing res m' = standing res m → (standing res m' = standing res m ∧
      m'.objects.processes.live = m.objects.processes.live ∧
      m'.objects.threads.live = m.objects.threads.live ∧
      m'.objects.memory.live = m.objects.memory.live) := fun hs =>
    ⟨hs, live_of_find (congrArg Standing.process hs), live_of_find (congrArg Standing.thread hs),
      live_of_find (congrArg Standing.memory hs)⟩
  obtain ⟨hfailed, hrecorded⟩ := ends_record hlaw caller process request hlisted hrefs
  rw [threadCreate_eq] at hrefused
  rcases hrun : threadRecorded caller process request m with ⟨x | r, m₁⟩
  · rw [run_bind_error hrun] at hrefused
    cases hrefused
    rw [hrun] at hfailed
    exact iff_of_true (hlive (hfailed e rfl)) (.inl rfl)
  rw [run_bind_ok hrun] at hrefused
  rw [hrun] at hrecorded
  have hholds := hrecorded r rfl
  obtain ⟨thread, hthread⟩ := hholds.thread
  have hiso₁ : m₁.objects.tables.Isolated := hholds.tables ▸ hiso
  have hend : ∀ Q : Machine ε z → Prop, Ends Q (fun _ _ => True) (threadFinished process r) m₁ →
      Q m' := by
    intro Q hwp
    unfold Ends wp at hwp
    rw [hrefused] at hwp
    exact hwp.1 e rfl
  have htarget : (processOf process request m).1 = .ok r.target :=
    congrArg Prod.fst hholds.target
  constructor
  · rintro ⟨hs, -⟩
    refine .inr fun target P htarget' hP => ?_
    obtain rfl := Except.ok.inj (htarget.symm.trans htarget')
    by_contra hnot
    obtain ⟨hlast, hrunning⟩ := not_or.mp hnot
    have hended := hend (endedOf r.target · = some true) (ends_finish hlaw hiso₁ hthread fun x _ hm =>
      hholds.ends_process hP (not_not.mp hlast) x hm)
    rw [endedOf, process?_eq res, hs, ← process?_eq res, hP] at hended
    exact hrunning (some.inj hended)
  · rintro (hrefused' | hothers)
    · cases hrefused'
    · exact hlive (hend (standing res · = standing res m) (ends_finish hlaw hiso₁ hthread fun x _ hm =>
        hholds.restores (fun P hP => hothers r.target P htarget hP) x hm))

end Create

/-! ## Two runs -/

theorem lawful_ledger : Lawful (id : Ledger → Ledger) where
  stack_refused := nofun
  stack_back := by
    rintro e area e' e'' heq rfl
    cases heq
    change ({ e with kernelStacks := _ } : Ledger) = e
    simp
  frame_refused := nofun
  frame_back := by
    rintro e frame e' e'' heq rfl
    cases heq
    change giveFrame _ _ = e
    simp [giveFrame]
  map_refused := by
    intro root page frame permissions policy e x e' heq
    change (if (root, page) ∈ e.pages then _ else _) = _ at heq
    split at heq
    · exact (Prod.mk.inj heq).2.symm
    · cases heq
  map_back := by
    rintro root page frame permissions policy e e' e'' heq rfl
    change (if (root, page) ∈ e.pages then _ else _) = _ at heq
    split at heq
    · cases heq
    · obtain rfl := (Prod.mk.inj heq).2
      change (if (root, page) ∈ _ then _ else _ : Except Error Unit × Ledger).2 = e
      simp
  prepare := fun _ _ _ _ _ => rfl

/-- A process that has ended, with a full list of handles, and a thread that calls. -/
def endedProcess : Objects ⟨2, 2, 1, 8⟩ :=
  let thread := SchedCall.inactiveThread 0
  (onThreads (Pool.allocate thread)
    (withProcess ⟨0, 1⟩ ({ · with ended := true }) oneHandle).2).2

theorem refused_thread_create_changes_nothing_full :
    let m : Machine Ledger ⟨2, 2, 1, 8⟩ := ⟨⟨endedProcess, .new⟩, .new, emptyBuffer, []⟩
    let request : Request :=
      ⟨fun i => if i = 1 ∨ i = 2 then userSpaceStart else 0, Handle.fromRaw (1 * u32Size + 0)⟩
    let refused := threadCreate ⟨0, 1⟩ ⟨0, 1⟩ request m
    refused.1 = .error .quotaExceeded ∧ standing id refused.2 = standing id m := by
  intro m request refused
  have hprocess : ∀ p P, m.objects.process? p = some P →
      P.threads = replicate threadsPerProcess none ∧ P.ended = true := by
    intro p P hP
    obtain ⟨held, hheld, rfl⟩ := map_eq_some_iff.mp hP
    obtain ⟨hn, -, hocc⟩ := PoolSlots.find_eq_some.mp hheld
    have hfirst : (m.objects.processes.slots 0).occupancy.map
        (fun o => (o.value.threads, o.value.ended)) =
        some (replicate threadsPerProcess none, true) := by decide +kernel
    have hsecond : (m.objects.processes.slots 1).occupancy.map
        (fun o => (o.value.threads, o.value.ended)) = none := by decide +kernel
    obtain hindex | hindex : p.index = 0 ∨ p.index = 1 := by
      change p.index < 2 at hn
      omega
    · rw [hindex] at hocc
      rw [hocc] at hfirst
      exact Prod.mk.inj (some.inj hfirst)
    · rw [hindex] at hocc
      rw [hocc] at hsecond
      cases hsecond
  have hrefused : refused.1 = .error .quotaExceeded := by decide +kernel
  have hiso : m.objects.tables.Isolated := by
    have htables : endedProcess.tables = oneHandle.tables := by
      refine congrArg (HandleTables.mk oneHandle.handles) (funext fun p => ?_)
      change (Option.map (·.value) ((oneHandle.processes.modify ⟨0, 1⟩
        ({ · with ended := true })).find p)).elim _ (·.handles) = _
      rw [Pool.find_modify]
      by_cases hp : p = ⟨0, 1⟩
      · rw [if_pos hp, hp]
        unfold process?
        cases oneHandle.processes.find ⟨0, 1⟩ <;> rfl
      · rw [if_neg hp]
        rfl
    exact htables ▸ isolated_oneHandle
  refine ⟨hrefused, ((refused_thread_create_changes_nothing id lawful_ledger m ⟨0, 1⟩ ⟨0, 1⟩ request
    hiso (fun p P id hP hid => ?_) (fun id held hheld => ?_) _ _ (Prod.ext hrefused rfl)).mpr
    (.inr fun target P _ hP => ?_)).1⟩
  · rw [(hprocess p P hP).1] at hid
    cases eq_of_mem_replicate hid
  · obtain ⟨hn, -, hocc⟩ := PoolSlots.find_eq_some.mp hheld
    have hnone : (m.objects.memory.slots 0).occupancy.isNone = true := by decide +kernel
    rw [show id.index = 0 from Nat.lt_one_iff.mp hn] at hocc
    rw [hocc] at hnone
    cases hnone
  · exact .inr (hprocess target P hP).2

/-- A process is created, and a thread for it that the caller has no room for. The thread is taken
back, and with it the process has ended. -/
theorem refused_thread_create_ends_process :
    let root : ProcessId := ⟨0, 1⟩
    let caller : ThreadId := ⟨0, 1⟩
    let own := Handle.fromRaw (1 * u32Size + 0)
    let child := Handle.fromRaw (1 * u32Size + 1)
    let m := (run caller root .processCreate ⟨fun i => if i = 3 then 1 else 0, own⟩
      (booted 2)).2
    let refused := threadCreate caller root
      ⟨fun i => if i = 1 ∨ i = 2 then userSpaceStart else 0, child⟩ m
    refused.1 = .error .quotaExceeded ∧
      (m.objects.process? ⟨1, 1⟩).map (·.ended) = some false ∧
      (refused.2.objects.process? ⟨1, 1⟩).map (·.ended) = some true := by
  decide +kernel

end Audhsos.Calls
