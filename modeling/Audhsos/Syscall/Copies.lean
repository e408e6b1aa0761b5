import Audhsos.Syscall.Checks
import Audhsos.Syscall.Ledger

/-!
A second handle to an object, made by `handleDuplicate` for the caller and by `processInstallHandle`
for another process. Both install it first and count the reference after; a handle to an object that
is gone gets as far as the second step.
-/

namespace Audhsos.Calls

open Lib Objects Ledger

variable {ε : Type} {z : Sizes} {m : Machine ε z} {entry : Entry} {p : ProcessId} {h : Handle}
  {request : Request}

/-- One more reference to the object can be counted. -/
def Retainable (o : Objects z) (object : AnyObjectId) : Prop :=
  object.objectType = .systemControl ∨ ∃ n, o.books.refs object = some n ∧ n + 1 < u32Size

/-- A refused program left the machine as it was. -/
def Untouched {α : Type} (m : Machine ε z) (call : Call ε z α) : Prop :=
  call.wp (fun r m' => ∀ e, r = .error e → m' = m) m

theorem untouched_reads {α β : Type} {call : Call ε z α} {f : α → Call ε z β} (hcall : call.Reads) :
    Untouched m (call >>= f) ↔ ∀ a, (call m).1 = .ok a → Untouched m (f a) := by
  have hsame : (call m).2 = m := hcall m
  unfold Untouched
  rw [Prog.wp_bind, Prog.wp, hsame]
  refine and_iff_left_of_imp fun _ _ _ _ _ => rfl

theorem retain_isOk {o : Objects z} {object : AnyObjectId} :
    (∃ e, (retain object o).1 = .error e) ↔ ¬ Retainable o object := by
  constructor
  · rintro ⟨e, he⟩ (hcontrol | ⟨n, hn, hlt⟩)
    · exact ((retained object o).refused e he).2.1 hcontrol
    · exact absurd (((retained object o).refused e he).2.2 n hn) (not_le.mpr hlt)
  · intro hnot
    cases hr : (retain object o).1 with
    | error e => exact ⟨e, rfl⟩
    | ok _ =>
      obtain ⟨hsome, hlt, -⟩ := (retained object o).granted hr
      refine absurd ?_ hnot
      by_cases hcontrol : object.objectType = .systemControl
      · exact .inl hcontrol
      · obtain ⟨n, hn⟩ := Option.ne_none_iff_exists'.mp (hsome hcontrol)
        exact .inr ⟨n, hn, hlt n hn⟩

/-- A copy that was put into a list stays there when its object cannot be retained. -/
theorem untouched_copy {install : Store z Handle} {object : AnyObjectId} {room : Prop}
    (p : ProcessId) (entry : Entry)
    (hinstall : (∃ e, install m.objects = (.error e, m.objects) ∧ ¬ room) ∨
      ∃ h o', install m.objects = (.ok h, o') ∧ room ∧ Installed m.objects p entry h o')
    (answer : Handle → Reply) :
    Untouched m (do
      let handle ← objs install
      objs (retain object)
      pure (answer handle)) ↔ (room → Retainable m.objects object) := by
  unfold Untouched
  rw [Prog.wp_bind, Prog.wp, objs_run]
  rcases hinstall with ⟨e, heq, hfull⟩ | ⟨h, o', heq, hroom, hinstalled⟩
  · rw [heq]
    exact iff_of_true ⟨by simp, fun _ _ _ _ => rfl⟩ fun hroom => absurd hroom hfull
  have hsame : Retainable o' object ↔ Retainable m.objects object := by
    unfold Retainable
    rw [hinstalled.books_eq]
    rfl
  rw [heq, ← hsame]
  constructor
  · intro hwp _
    by_contra hnot
    obtain ⟨e, he⟩ := retain_isOk.mpr hnot
    have hend := hwp.1 h rfl
    rw [Prog.wp_bind, Prog.wp, objs_run] at hend
    -- the new handle names something that it did not name before
    have hmachine := hend.2 e he e rfl
    have hobjects : o' = m.objects := by
      rw [← ((retained object o').refused e he).1]
      exact congrArg (fun machine => machine.objects) hmachine
    have hnew : o'.books.entry h = some (p, entry) := by
      rw [hinstalled.books_eq]
      exact Function.update_self _ _ _
    rw [hobjects, hinstalled.fresh] at hnew
    cases hnew
  · intro hretain
    refine ⟨fun _ _ => ?_, by simp⟩
    rw [Prog.wp_bind, Prog.wp, objs_run]
    exact ⟨fun _ _ => by simp, fun e he => absurd (hretain hroom) (retain_isOk.mp ⟨e, he⟩)⟩

theorem ofOption_ok {α : Type} {a : Option α} {e : Error} {b : α} :
    ((Prog.ofOption a e : Call ε z α) m).1 = .ok b ↔ a = some b := by
  cases a <;> simp [Prog.ofOption, Prog.ofExcept]

theorem handleAt_ok {index : Nat} : ((handleAt request index : Call ε z _) m).1 = .ok h ↔
    Handle.fromRaw (request.argument index) = some h :=
  ofOption_ok

theorem require_ok {c : Prop} [Decidable c] {e : Error} :
    ((Prog.require c e : Call ε z Unit) m).1 = .ok () ↔ c := by
  unfold Prog.require
  split <;> simp_all

theorem narrow_ok {bits value narrowed : Nat} :
    ((narrow bits value : Call ε z Nat) m).1 = .ok narrowed ↔
      value < 2 ^ bits ∧ value = narrowed := by
  unfold narrow Prog.ofExcept
  split <;> simp_all

theorem entry_objs_ok : ((objs (Objects.entry p h) : Call ε z _) m).1 = .ok entry ↔
    m.objects.books.entry h = some (p, entry) := by
  rw [objs_run]
  exact HandleArena.lookup_eq_ok_iff

/-- The rights that an argument asks for. -/
def asked (request : Request) (index : Nat) (rights : Rights) : Prop :=
  request.argument index < 2 ^ 32 ∧ Rights.fromBits (request.argument index) = .ok rights

/-- `handleDuplicate` gets as far as putting a copy of the entry into the list of the caller. -/
structure Duplicates (m : Machine ε z) (process : ProcessId) (request : Request) (entry : Entry) :
    Prop where
  held : ∃ h, request.handle = some h ∧ m.objects.books.entry h = some (process, entry)
  duplicable : entry.rights.contains .duplicate = true
  subset : ∃ rights, asked request 1 rights ∧ rights.isSubsetOf entry.rights = true
  room : m.objects.HasRoom process

/-- `processInstallHandle` gets as far as putting a copy of the entry into the list of a process. -/
structure Installs (m : Machine ε z) (process : ProcessId) (request : Request) (entry : Entry) :
    Prop where
  held : ∃ h, Handle.fromRaw (request.argument 1) = some h ∧
    m.objects.books.entry h = some (process, entry)
  transferable : entry.rights.contains .transfer = true
  subset : ∃ rights, asked request 2 rights ∧ rights.isSubsetOf entry.rights = true
  room : ∃ target, (processOf process request m).1 = .ok target ∧ m.objects.HasRoom target

section

variable (hiso : m.objects.tables.Isolated) (process : ProcessId) (request : Request)
include hiso

theorem untouched_handleDuplicate : Untouched m (handleDuplicate process request) ↔
    ∀ entry, Duplicates m process request entry → Retainable m.objects entry.object := by
  unfold handleDuplicate
  rw [untouched_reads (reads_handleOf request)]
  simp only [untouched_reads (reads_narrow 32 _), untouched_reads (Prog.Keeps.ofExcept _),
    untouched_reads (reads_objs (reads_entry process _)), handleOf, ofOption_ok, narrow_ok,
    entry_objs_ok, Prog.ofExcept]
  have hcopy : ∀ h rights entry, m.objects.books.entry h = some (process, entry) →
      (Untouched m (do
        let copy ← objs (onHandles process (HandleArena.duplicate process h rights))
        objs (retain entry.object)
        pure (Reply.value copy.raw)) ↔
      (entry.rights.contains .duplicate = true ∧ rights.isSubsetOf entry.rights = true ∧
        m.objects.HasRoom process → Retainable m.objects entry.object)) := by
    intro h rights entry hentry
    refine untouched_copy process ⟨entry.object, rights, entry.badge⟩ ?_ _
    rcases duplicate_cases hiso process h rights with
      ⟨e, heq, hnot⟩ | ⟨original, k, o', heq, ho, hdup, hsub, hin⟩
    · exact .inl ⟨e, heq, hnot entry hentry⟩
    · obtain ⟨-, rfl⟩ := Prod.mk.inj (Option.mem_unique ho hentry)
      exact .inr ⟨k, o', heq, ⟨hdup, hsub, hin.room⟩, hin⟩
  constructor
  · rintro hall entry ⟨⟨h, hh, hentry⟩, hdup, ⟨rights, ⟨hsmall, hrights⟩, hsub⟩, hroom⟩
    exact (hcopy h rights entry hentry).mp (hall h hh _ ⟨hsmall, rfl⟩ rights hrights entry hentry)
      ⟨hdup, hsub, hroom⟩
  · rintro hall h hh _ ⟨hsmall, rfl⟩ rights hrights entry hentry
    refine (hcopy h rights entry hentry).mpr fun ⟨hdup, hsub, hroom⟩ => hall entry ?_
    exact ⟨⟨h, hh, hentry⟩, hdup, ⟨rights, ⟨hsmall, hrights⟩, hsub⟩, hroom⟩

theorem untouched_processInstallHandle : Untouched m (processInstallHandle process request) ↔
    ∀ entry, Installs m process request entry → Retainable m.objects entry.object := by
  unfold processInstallHandle
  rw [untouched_reads (reads_processOf process request)]
  simp only [untouched_reads (reads_handleAt request 1), untouched_reads (reads_narrow 32 _),
    untouched_reads (Prog.Keeps.ofExcept _), untouched_reads (Prog.Keeps.require _ _),
    untouched_reads (reads_objs (reads_entry process _)), handleAt_ok, narrow_ok,
    entry_objs_ok, Prog.ofExcept]
  have hcopy : ∀ (target : ProcessId) (rights : Rights) (entry : Entry), (Untouched m (do
        let handle ← objs (installHandle target { entry with rights })
        objs (retain entry.object)
        pure (Reply.value handle.raw)) ↔
      (m.objects.HasRoom target → Retainable m.objects entry.object)) := by
    intro target rights entry
    refine untouched_copy target { entry with rights } ?_ _
    rcases installHandle_cases hiso target { entry with rights } with
      ⟨e, heq, hfull⟩ | ⟨h, o', heq, hin⟩
    · exact .inl ⟨e, heq, hfull⟩
    · exact .inr ⟨h, o', heq, hin.room, hin⟩
  constructor
  · rintro hall entry ⟨⟨h, hh, hentry⟩, htransfer, ⟨rights, ⟨hsmall, hrights⟩, hsub⟩, target,
      htarget, hroom⟩
    exact (hcopy target rights entry).mp (hall target htarget h hh _ ⟨hsmall, rfl⟩ rights hrights
      entry hentry () (require_ok.mpr htransfer) () (require_ok.mpr hsub)) hroom
  · rintro hall target htarget h hh _ ⟨hsmall, rfl⟩ rights hrights entry hentry _ htransfer _ hsub
    refine (hcopy target rights entry).mpr fun hroom => hall entry ?_
    exact ⟨⟨h, hh, hentry⟩, require_ok.mp htransfer,
      ⟨rights, ⟨hsmall, hrights⟩, require_ok.mp hsub⟩, target, htarget, hroom⟩

end

/-- A call that copies a handle changes nothing when it is refused, exactly when the object that the
copied handle names can be retained or the call is refused before the copy is made: for a handle
that is not held, for its rights, or for want of room. -/
theorem refused_copy_changes_nothing (m : Machine ε z) (process : ProcessId) (request : Request)
    (hiso : m.objects.tables.Isolated) :
    ((∀ e m', handleDuplicate process request m = (.error e, m') → m' = m) ↔
      ∀ entry, Duplicates m process request entry → Retainable m.objects entry.object) ∧
    ((∀ e m', processInstallHandle process request m = (.error e, m') → m' = m) ↔
      ∀ entry, Installs m process request entry → Retainable m.objects entry.object) := by
  have huntouched : ∀ call : Call ε z Reply, (∀ e m', call m = (.error e, m') → m' = m) ↔
      Untouched m call := by
    refine fun call => ⟨fun h e he => h e _ (Prod.ext he rfl), fun h e m' heq => ?_⟩
    have hwp := h e
    rw [heq] at hwp
    exact hwp rfl
  rw [huntouched, huntouched]
  exact ⟨untouched_handleDuplicate hiso process request,
    untouched_processInstallHandle hiso process request⟩

/-- A store with one process that holds a handle to itself and has no room for another. -/
def oneHandle : Objects ⟨2, 2, 1, 8⟩ :=
  let root : ProcessId := ⟨0, 1⟩
  let process := Process.new ⟨0⟩ (.withCapacity 1) (.new 8) (.new 8)
  let o := (onProcesses (Pool.allocate process) noObjects).2
  (retain (.of root) (installHandle root ⟨.of root, processRights, 0⟩ o).2).2

theorem isolated_oneHandle : oneHandle.tables.Isolated := by
  unfold oneHandle
  extract_lets root process o
  have hempty : ∀ p, noObjects.tables.lists p = .withCapacity 0 := by
    intro p
    simp [tables, process?, noObjects]
  have hlist : ∀ p, (o.tables.lists p).head = .none ∧ (o.tables.lists p).count = 0 := by
    intro p
    rcases processesAccess.allocate_cases process noObjects with
      ⟨e, heq⟩ | ⟨id, o', heq, -, hframe⟩
    · rw [show o = noObjects from congrArg Prod.snd heq, hempty]
      exact ⟨rfl, rfl⟩
    rw [show o = o' from congrArg Prod.snd heq, show o'.tables = _ from
      congrArg Frame.tables hframe]
    by_cases hp : p = id
    · subst hp
      simp [processesAccess, process, Process.new, HandleList.withCapacity]
    · simp [processesAccess, hp, frame, hempty, HandleList.withCapacity]
  have hiso : o.tables.Isolated := by
    refine ⟨HandleArena.valid_new (by decide), fun p => ⟨[], linked_nil, ?_, fun _ => ?_, ?_⟩⟩
    · rw [(hlist p).1]
      rfl
    · exact ⟨by simp, fun h => absurd (show none = some p from h) (by simp)⟩
    · exact (hlist p).2
  have hinstalled : (installHandle root ⟨.of root, processRights, 0⟩ o).2.tables.Isolated := by
    rcases installHandle_cases hiso root ⟨.of root, processRights, 0⟩ with
      ⟨e, heq, -⟩ | ⟨h, o', heq, hin⟩
    · rw [heq]
      exact hiso
    · rw [heq]
      exact hin.isolated
  generalize (installHandle root ⟨.of root, processRights, 0⟩ o).2 = o' at hinstalled ⊢
  cases hr : (retain (.of root) o').1 with
  | error e => rwa [((retained (.of root) o').refused e hr).1]
  | ok _ => rwa [show (retain (.of root) o').2.tables = o'.tables from
      congrArg Frame.tables ((retained (.of root) o').granted hr).2.2]

/-- The list is full: a second handle is refused, and nothing changes. -/
theorem refused_copy_changes_nothing_full :
    let m : Machine Ledger ⟨2, 2, 1, 8⟩ := ⟨⟨oneHandle, .new⟩, .new, emptyBuffer, []⟩
    let request : Request := ⟨fun _ => 0, Handle.fromRaw (1 * u32Size + 0)⟩
    handleDuplicate ⟨0, 1⟩ request m = (.error .quotaExceeded, m) := by
  intro m request
  have hfull : (m.objects.process? ⟨0, 1⟩).all
      (fun P => P.handles.capacity ≤ P.handles.count) = true := by decide +kernel
  have hrefused : (handleDuplicate ⟨0, 1⟩ request m).1 = .error .quotaExceeded := by decide +kernel
  refine Prod.ext hrefused ?_
  refine (refused_copy_changes_nothing m ⟨0, 1⟩ request isolated_oneHandle).1.mpr ?_ _ _
    (Prod.ext hrefused rfl)
  rintro entry ⟨-, -, -, P, hP, hcount, -⟩
  rw [hP] at hfull
  exact absurd hcount (not_lt.mpr (by simpa using hfull))

/-- A process that was killed leaves its handle with the one that created it. Copying that handle
is refused, and the copy stays in the list it was put into. -/
theorem refused_copy_keeps_handle :
    let root : ProcessId := ⟨0, 1⟩
    let caller : ThreadId := ⟨0, 1⟩
    let own := Handle.fromRaw (1 * u32Size + 0)
    let child := Handle.fromRaw (1 * u32Size + 1)
    let m := (run caller root .processKill ⟨fun _ => 0, child⟩
      (run caller root .processCreate ⟨fun _ => 0, own⟩ (booted 8)).2).2
    let duplicated := handleDuplicate root ⟨fun _ => 0, child⟩ m
    let installed := processInstallHandle root
      ⟨fun i => if i = 1 then 1 * u32Size + 1 else 0, own⟩ m
    duplicated.1 = .error .invalidHandle ∧ installed.1 = .error .invalidHandle ∧
    (m.objects.tables.lists root).count = 2 ∧ m.objects.handles.live = 2 ∧
    (duplicated.2.objects.tables.lists root).count = 3 ∧ duplicated.2.objects.handles.live = 3 ∧
    (installed.2.objects.tables.lists root).count = 3 ∧ installed.2.objects.handles.live = 3 := by
  decide +kernel

end Audhsos.Calls
