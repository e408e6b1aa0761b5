import Audhsos.Kernel.Store
import Audhsos.Lib.Tally
import Audhsos.Objects.HandleIsolation

/-!
The books of the store: who holds which handle, how many references an object has, what a process is
charged and what a thread holds. Wait queues, the words of notifications and the contents of buffers
are not in the books, so only the few writes of this module change them.
-/

namespace Audhsos

open Lib HandleArena
open ObjectId (ext_iff)
open AnyObjectId (of)
open Function (comp_def update update_apply)

/-! ## Handles by what they name -/

namespace HandleArena

variable {n : Nat} {arena arena' : HandleArena n} {list list' : HandleList} {p : ProcessId}
  {entry : Entry} {h : Handle}

def find (arena : HandleArena n) (h : Handle) : Option (ProcessId × Entry) :=
  if h.index < n ∧ arena.generation h.index = h.generation then
    (arena.occupant h.index).map fun o => (o.owner, o.entry)
  else none

/-- The handles that the slots would have, each with its present generation. -/
def handleSet (arena : HandleArena n) : Finset Handle :=
  (Finset.range n).image fun i => (Handle.new i (arena.generation i)).getD ⟨u32Size, by decide⟩

theorem mem_handleSet (hfind : arena.find h ≠ none) : h ∈ arena.handleSet := by
  by_cases hcond : h.index < n ∧ arena.generation h.index = h.generation
  · refine Finset.mem_image.mpr ⟨h.index, Finset.mem_range.mpr hcond.1, ?_⟩
    have hgen : h.generation ≠ 0 := h.generation_ne
    have hraw : h.generation * u32Size + h.index = h.raw := by
      rw [mul_comm]
      exact Nat.div_add_mod _ _
    simp only [hcond.2, Handle.new, hgen, dite_false, Option.getD_some]
    cases h
    simp only [Handle.mk.injEq]
    exact hraw
  · exact absurd (if_neg hcond) hfind

theorem finitelyMany_find (arena : HandleArena n) : FinitelyMany arena.find :=
  finitelyMany_of_subset fun _ => mem_handleSet

theorem lookup_eq_ok_iff : arena.lookup p h = .ok entry ↔ arena.find h = some (p, entry) := by
  unfold lookup resolve find slot generation occupant
  by_cases hn : h.index < n
  · by_cases hg : (arena.slots h.index).generation = h.generation
    · cases ho : (arena.slots h.index).occupant with
      | none => simp [hn, hg, ho]
      | some o =>
        by_cases hp : o.owner = p
        · simp [hn, hg, ho, hp, occupantAt, slot]
        · simp [hn, hg, ho, hp]
    · simp [hn, hg]
  · simp [hn]

theorem Inserted.find_eq (hins : Inserted arena list p entry h arena' list') :
    arena.find h = none ∧ arena'.find = update arena.find h (some (p, entry)) := by
  refine ⟨by simp [find, hins.was_free], ?_⟩
  funext k
  by_cases hi : k.index = h.index
  · by_cases hg : k.generation = h.generation
    · have hk : k = h := Handle.ext_iff.mpr ⟨hi, hg⟩
      subst hk
      simp [find, hins.index_lt, generation, occupant, hins.slot_eq]
    · have hk : k ≠ h := fun heq => hg (by rw [heq])
      have hgen : arena'.generation h.index ≠ k.generation := by
        rw [hins.generation_eq', if_pos rfl]
        exact fun h' => hg h'.symm
      simp [find, hk, hi, hgen, hins.was_free]
  · have hk : k ≠ h := fun heq => hi (by rw [heq])
    have hocc : (arena'.occupant k.index).map (fun o => (o.owner, o.entry)) =
        (arena.occupant k.index).map fun o => (o.owner, o.entry) := by
      unfold occupant
      rw [hins.slot_other _ hi]
      split
      · simp [comp_def]
      · rfl
    simp only [find, hins.generation_eq', if_neg hi, hocc, Function.update_of_ne hk]

end HandleArena

namespace Pool

variable {type : ObjectType} {T : Type} {n : Nat} (pool : Pool type T n)

/-- The ids that the slots would have, each with its present generation. -/
def idSet : Finset (ObjectId type) :=
  (Finset.range n).image fun i => ⟨i, (pool.slots i).generation⟩

theorem mem_idSet {pool : Pool type T n} {id : ObjectId type} (hfind : pool.find id ≠ none) :
    id ∈ pool.idSet := by
  obtain ⟨o, ho⟩ := Option.ne_none_iff_exists'.mp hfind
  obtain ⟨hn, hg, -⟩ := PoolSlots.find_eq_some.mp ho
  exact Finset.mem_image.mpr ⟨id.index, Finset.mem_range.mpr hn, ObjectId.ext rfl hg⟩

theorem finitelyMany_find : FinitelyMany pool.find :=
  finitelyMany_of_subset fun _ => mem_idSet

end Pool

/-! ## The books -/

/-- What a thread belongs to and holds, and whether it has ended. -/
@[ext]
structure ThreadCore where
  process : ProcessId
  exited : Bool
  cpu : Nat
  kernelStack : Nat
  ipcBuffer : PhysFrame
  bufferObject : Option MemoryObjectId
  ipcAddress : Nat
deriving DecidableEq

@[simps] def Thread.core (thread : Thread) : ThreadCore where
  process := thread.process
  exited := thread.state = .exited
  cpu := thread.cpu
  kernelStack := thread.kernelStack
  ipcBuffer := thread.ipcBuffer
  bufferObject := thread.bufferObject
  ipcAddress := thread.ipcAddress

/-- A process without the list of its handles, which the entries tell. -/
@[simps] def Process.withoutHandles (process : Process) : Process :=
  { process with handles := .withCapacity 0 }

@[ext]
structure Books where
  refs : AnyObjectId → Option Nat
  process : ProcessId → Option Process
  thread : ThreadId → Option ThreadCore
  memory : MemoryObjectId → Option MemoryObject
  entry : Handle → Option (ProcessId × Entry)
  process_finite : FinitelyMany process
  thread_finite : FinitelyMany thread
  entry_finite : FinitelyMany entry

namespace Books

variable (b : Books) (id : AnyObjectId)

@[simps -fullyApplied] def setRefs (n : Option Nat) : Books :=
  { b with refs := update b.refs id n }

@[simps -fullyApplied] def setProcess (p : ProcessId) (process : Option Process) : Books :=
  { b with
    process := update b.process p process
    process_finite := b.process_finite.update p process }

@[simps -fullyApplied] def setThread (t : ThreadId) (thread : Option ThreadCore) : Books :=
  { b with
    thread := update b.thread t thread
    thread_finite := b.thread_finite.update t thread }

@[simps -fullyApplied] def setMemory (m : MemoryObjectId) (memory : Option MemoryObject) : Books :=
  { b with memory := update b.memory m memory }

@[simps -fullyApplied] def setEntry (h : Handle) (entry : Option (ProcessId × Entry)) : Books :=
  { b with
    entry := update b.entry h entry
    entry_finite := b.entry_finite.update h entry }

/-- One more reference to an object that is there. -/
def retain : Books :=
  match b.refs id with
  | none => b
  | some n => b.setRefs id (some (n + 1))

variable {p : ProcessId} {b : Books}

theorem setProcess_eq_self {v : Option Process} (h : b.process p = v) : b.setProcess p v = b :=
  Books.ext rfl (Function.update_eq_self_iff.mpr h.symm) rfl rfl rfl

theorem setThread_eq_self {t : ThreadId} {v : Option ThreadCore} (h : b.thread t = v) :
    b.setThread t v = b :=
  Books.ext rfl rfl (Function.update_eq_self_iff.mpr h.symm) rfl rfl

theorem setMemory_eq_self {m : MemoryObjectId} {v : Option MemoryObject} (h : b.memory m = v) :
    b.setMemory m v = b :=
  Books.ext rfl rfl rfl (Function.update_eq_self_iff.mpr h.symm) rfl

end Books

namespace Objects

variable {z : Sizes} (o : Objects z)

/-- The references of the object an id names, whichever pool holds it. -/
def refs (id : AnyObjectId) : Option Nat :=
  match id.objectType with
  | .process => (o.processes.find ⟨id.index, id.generation⟩).map (·.refs)
  | .thread => (o.threads.find ⟨id.index, id.generation⟩).map (·.refs)
  | .memoryObject => (o.memory.find ⟨id.index, id.generation⟩).map (·.refs)
  | .endpoint => (o.endpoints.find ⟨id.index, id.generation⟩).map (·.refs)
  | .notification => (o.notifications.find ⟨id.index, id.generation⟩).map (·.refs)
  | .reply => (o.replies.find ⟨id.index, id.generation⟩).map (·.refs)
  | .interrupt => (o.interrupts.find ⟨id.index, id.generation⟩).map (·.refs)
  | .ioPortRange => (o.ports.find ⟨id.index, id.generation⟩).map (·.refs)
  | .systemControl => none

def books : Books where
  refs := o.refs
  process p := (o.process? p).map (·.withoutHandles)
  thread t := (o.thread? t).map (·.core)
  memory := o.memory?
  entry := o.handles.find
  process_finite := (o.processes.finitelyMany_find.map _).map _
  thread_finite := (o.threads.finitelyMany_find.map _).map _
  entry_finite := o.handles.finitelyMany_find

/-- The arena and the lists of the processes that are alive. -/
def tables : HandleTables z.handles :=
  ⟨o.handles, fun p => (o.process? p).elim (.withCapacity 0) (·.handles)⟩

end Objects

/-- All that the programs that only wake, block or notify leave as it is. -/
@[ext]
structure Frame (z : Sizes) where
  books : Books
  tables : HandleTables z.handles

namespace Objects

variable {z : Sizes} {o : Objects z}

def frame (o : Objects z) : Frame z := ⟨o.books, o.tables⟩

/-! ## Writing a pool back -/

section Put

variable {α : Type}

theorem refs_update {o' : Objects z} {id : AnyObjectId} {v : Option Nat}
    (h : ∀ a, o'.refs a = if a = id then v else o.refs a) : o'.refs = update o.refs id v :=
  funext fun a => (h a).trans (update_apply ..).symm

theorem frame_putProcesses {pool : Pool .process Process z.processes}
    {v : Option (Occupant Process)}
    (h : ∀ q, pool.find q = if q = p then v else o.processes.find q) :
    ({ o with processes := pool } : Objects z).frame =
      ⟨(o.books.setRefs (.of p) (v.map (·.refs))).setProcess p (v.map (·.value.withoutHandles)),
        o.handles, update o.tables.lists p
          (v.elim (.withCapacity 0) (·.value.handles))⟩ := by
  refine Frame.ext (Books.ext ?_ ?_ rfl rfl rfl) ?_
  · refine refs_update ?_
    rintro ⟨⟨⟩, _, _⟩ <;> simp [refs, h, of, ext_iff]
    split <;> rfl
  · funext q
    by_cases hq : q = p <;> simp [frame, books, process?, h, hq, comp_def]
  · refine congrArg (HandleTables.mk o.handles) ?_
    funext q
    by_cases hq : q = p
    · subst hq
      cases v <;> simp [tables, process?, h]
    · simp [tables, process?, h, hq]

theorem frame_putThreads {pool : Pool .thread Thread z.threads} {t : ThreadId}
    {v : Option (Occupant Thread)} (h : ∀ u, pool.find u = if u = t then v else o.threads.find u) :
    ({ o with threads := pool } : Objects z).frame =
      ⟨(o.books.setRefs (.of t) (v.map (·.refs))).setThread t (v.map (·.value.core)),
        o.tables⟩ := by
  refine Frame.ext (Books.ext ?_ rfl ?_ rfl rfl) rfl
  · refine refs_update ?_
    rintro ⟨⟨⟩, _, _⟩ <;> simp [refs, h, of, ext_iff]
    split <;> rfl
  · funext u
    by_cases hu : u = t <;> simp [frame, books, thread?, h, hu, comp_def]

theorem frame_putMemory {pool : Pool .memoryObject MemoryObject z.memory} {m : MemoryObjectId}
    {v : Option (Occupant MemoryObject)}
    (h : ∀ k, pool.find k = if k = m then v else o.memory.find k) :
    ({ o with memory := pool } : Objects z).frame =
      ⟨(o.books.setRefs (.of m) (v.map (·.refs))).setMemory m (v.map (·.value)), o.tables⟩ := by
  refine Frame.ext (Books.ext ?_ rfl rfl ?_ rfl) rfl
  · refine refs_update ?_
    rintro ⟨⟨⟩, _, _⟩ <;> simp [refs, h, of, ext_iff]
    split <;> rfl
  · funext k
    by_cases hk : k = m <;> simp [frame, books, memory?, h, hk]

end Put

/-! ## References -/

/-- How the store reaches the pool of one type of object, and what the books show of a new count
and of a new object. -/
structure Access (z : Sizes) (type : ObjectType) (T : Type) (n : Nat) where
  pool : Objects z → Pool type T n
  put : Pool type T n → Objects z → Objects z
  pool_put : ∀ o, put (pool o) o = o
  refs_eq : ∀ o id, o.books.refs (.of id) = ((pool o).find id).map (·.refs)
  recount : ∀ {o pool' id held} (n : Nat), (pool o).find id = some held →
    (∀ k, pool'.find k = if k = id then some { held with refs := n } else (pool o).find k) →
      (put pool' o).frame = ⟨o.books.setRefs (.of id) (some n), o.tables⟩
  fill : ObjectId type → T → Frame z → Frame z
  filled : ∀ {o pool' id value},
    (∀ k, pool'.find k = if k = id then some ⟨1, value⟩ else (pool o).find k) →
      (put pool' o).frame = fill id value o.frame

def processesAccess : Access z .process Process z.processes where
  pool o := o.processes
  put processes o := { o with processes }
  pool_put _ := rfl
  refs_eq _ _ := rfl
  recount := by
    intro o pool' id held n hheld h
    have hvalue : o.books.process id = some held.value.withoutHandles := by
      simp [books, process?, hheld]
    have hlist : o.tables.lists id = held.value.handles := by simp [tables, process?, hheld]
    rw [frame_putProcesses h]
    refine Frame.ext ?_ (congrArg (HandleTables.mk o.handles) ?_)
    · exact Books.setProcess_eq_self (by simpa using hvalue)
    · exact Function.update_eq_self_iff.mpr hlist.symm
  fill p process f :=
    ⟨(f.books.setRefs (.of p) (some 1)).setProcess p (some process.withoutHandles),
      f.tables.arena, update f.tables.lists p process.handles⟩
  filled := frame_putProcesses

def threadsAccess : Access z .thread Thread z.threads where
  pool o := o.threads
  put threads o := { o with threads }
  pool_put _ := rfl
  refs_eq _ _ := rfl
  recount := by
    intro o pool' id held n hheld h
    have hvalue : o.books.thread id = some held.value.core := by simp [books, thread?, hheld]
    rw [frame_putThreads h]
    refine Frame.ext ?_ rfl
    exact Books.setThread_eq_self (by simpa using hvalue)
  fill t thread f := ⟨(f.books.setRefs (.of t) (some 1)).setThread t (some thread.core), f.tables⟩
  filled := frame_putThreads

def memoryAccess : Access z .memoryObject MemoryObject z.memory where
  pool o := o.memory
  put memory o := { o with memory }
  pool_put _ := rfl
  refs_eq _ _ := rfl
  recount := by
    intro o pool' id held n hheld h
    have hvalue : o.books.memory id = some held.value := by simp [books, memory?, hheld]
    rw [frame_putMemory h]
    refine Frame.ext ?_ rfl
    exact Books.setMemory_eq_self (by simpa using hvalue)
  fill m memory f := ⟨(f.books.setRefs (.of m) (some 1)).setMemory m (some memory), f.tables⟩
  filled := frame_putMemory

/-- A pool of which the books only show the counts. -/
def countedAccess {type : ObjectType} {T : Type} {n : Nat} (pool : Objects z → Pool type T n)
    (put : Pool type T n → Objects z → Objects z) (pool_put : ∀ o, put (pool o) o = o)
    (refs_eq : ∀ o id, o.books.refs (.of id) = ((pool o).find id).map (·.refs))
    (frame_put : ∀ o pool' id v, (∀ k, (pool'.find k).map (·.refs) =
      if k = id then v else ((pool o).find k).map (·.refs)) →
      (put pool' o).frame = ⟨o.books.setRefs (.of id) v, o.tables⟩) : Access z type T n where
  pool
  put
  pool_put
  refs_eq
  recount _ _ h := frame_put _ _ _ _ fun k => by rw [h k]; split <;> rfl
  fill id _ f := ⟨f.books.setRefs (.of id) (some 1), f.tables⟩
  filled h := frame_put _ _ _ _ fun k => by rw [h k]; split <;> rfl

def endpointsAccess : Access z .endpoint Endpoint 1024 :=
  countedAccess (·.endpoints) (fun endpoints o => { o with endpoints }) (fun _ => rfl)
    (fun _ _ => rfl) fun _ _ _ _ h => Frame.ext (Books.ext (refs_update
      (by rintro ⟨⟨⟩, _, _⟩ <;> simp [refs, h, of, ext_iff])) rfl rfl rfl rfl) rfl

def notificationsAccess : Access z .notification Notification 1024 :=
  countedAccess (·.notifications) (fun notifications o => { o with notifications }) (fun _ => rfl)
    (fun _ _ => rfl) fun _ _ _ _ h => Frame.ext (Books.ext (refs_update
      (by rintro ⟨⟨⟩, _, _⟩ <;> simp [refs, h, of, ext_iff])) rfl rfl rfl rfl) rfl

def repliesAccess : Access z .reply Reply 1024 :=
  countedAccess (·.replies) (fun replies o => { o with replies }) (fun _ => rfl)
    (fun _ _ => rfl) fun _ _ _ _ h => Frame.ext (Books.ext (refs_update
      (by rintro ⟨⟨⟩, _, _⟩ <;> simp [refs, h, of, ext_iff])) rfl rfl rfl rfl) rfl

def interruptsAccess : Access z .interrupt Interrupt 64 :=
  countedAccess (·.interrupts) (fun interrupts o => { o with interrupts }) (fun _ => rfl)
    (fun _ _ => rfl) fun _ _ _ _ h => Frame.ext (Books.ext (refs_update
      (by rintro ⟨⟨⟩, _, _⟩ <;> simp [refs, h, of, ext_iff])) rfl rfl rfl rfl) rfl

def portsAccess : Access z .ioPortRange IoPortRange 64 :=
  countedAccess (·.ports) (fun ports o => { o with ports }) (fun _ => rfl)
    (fun _ _ => rfl) fun _ _ _ _ h => Frame.ext (Books.ext (refs_update
      (by rintro ⟨⟨⟩, _, _⟩ <;> simp [refs, h, of, ext_iff])) rfl rfl rfl rfl) rfl

/-- What a retain answers and does: one more reference, or a refusal that changes nothing. -/
structure Retained (id : AnyObjectId) (o : Objects z) (r : Except Error Unit × Objects z) :
    Prop where
  refused : ∀ e, r.1 = .error e → r.2 = o ∧ id.objectType ≠ .systemControl ∧
    ∀ n, o.books.refs id = some n → u32Size ≤ n + 1
  granted : r.1 = .ok () → (id.objectType ≠ .systemControl → o.books.refs id ≠ none) ∧
    (∀ n, o.books.refs id = some n → n + 1 < u32Size) ∧ r.2.frame = ⟨o.books.retain id, o.tables⟩

namespace Access

variable {type : ObjectType} {T : Type} {n : Nat} (access : Access z type T n)

def on {α : Type} (m : Prog PoolError (Pool type T n) α) : Prog Error (Objects z) α :=
  m.zoom access.pool access.put PoolError.toError

theorem retained (htype : type ≠ .systemControl) (id : ObjectId type)
    (o : Objects z) : Retained (.of id) o (access.on (Pool.retain id) o) := by
  unfold on Prog.zoom
  rcases Pool.retain_cases (access.pool o) id with ⟨e, he, hfull⟩ | ⟨held, hf, hlt, heq⟩
  · rw [he]
    refine ⟨fun _ _ => ⟨access.pool_put o, htype, fun n hn => ?_⟩, nofun⟩
    rw [access.refs_eq] at hn
    obtain ⟨held, hheld, rfl⟩ := Option.map_eq_some_iff.mp hn
    exact hfull held hheld
  · rw [heq]
    have hrefs : o.books.refs (.of id) = some held.refs := by rw [access.refs_eq, hf]; rfl
    refine ⟨nofun, fun _ => ⟨fun _ => by simp [hrefs], fun n hn => ?_, ?_⟩⟩
    · rw [hrefs] at hn
      exact Option.some.inj hn ▸ hlt
    · rw [Books.retain, hrefs]
      exact access.recount (held.refs + 1) hf fun k => by simp [hf]

/-- A new object takes an id that named nothing and has one reference. -/
theorem allocate_cases (value : T) (o : Objects z) :
    (∃ e, access.on (Pool.allocate value) o = (.error e, o)) ∨
    ∃ id o', access.on (Pool.allocate value) o = (.ok id, o') ∧ o.books.refs (.of id) = none ∧
      o'.frame = access.fill id value o.frame := by
  unfold on Prog.zoom
  rcases Pool.allocate_cases (access.pool o) value with heq | ⟨id, pool', heq, hfresh, hfind⟩
  · exact Or.inl ⟨_, by rw [heq, access.pool_put]; rfl⟩
  · refine Or.inr ⟨id, access.put pool' o, by rw [heq]; rfl, ?_, access.filled hfind⟩
    rw [access.refs_eq, hfresh]
    rfl

end Access

theorem retained (id : AnyObjectId) (o : Objects z) : Retained id o (retain id o) := by
  obtain ⟨type, index, generation⟩ := id
  cases type with
  | process => exact processesAccess.retained (by decide) ⟨index, generation⟩ o
  | thread => exact threadsAccess.retained (by decide) ⟨index, generation⟩ o
  | memoryObject => exact memoryAccess.retained (by decide) ⟨index, generation⟩ o
  | endpoint => exact endpointsAccess.retained (by decide) ⟨index, generation⟩ o
  | notification => exact notificationsAccess.retained (by decide) ⟨index, generation⟩ o
  | reply => exact repliesAccess.retained (by decide) ⟨index, generation⟩ o
  | interrupt => exact interruptsAccess.retained (by decide) ⟨index, generation⟩ o
  | ioPortRange => exact portsAccess.retained (by decide) ⟨index, generation⟩ o
  | systemControl => exact ⟨nofun, fun _ => ⟨fun h => absurd rfl h, nofun, rfl⟩⟩

/-! ## Handles -/

def putHandles (o : Objects z) (p : ProcessId) (handles : HandleArena z.handles)
    (list : HandleList) : Objects z :=
  { o with
    handles
    processes := o.processes.modify p ({ · with handles := list }) }

theorem frame_putHandles {P : Process} (hP : o.process? p = some P)
    (arena : HandleArena z.handles) (list : HandleList) :
    (o.putHandles p arena list).frame =
      ⟨{ o.books with entry := arena.find, entry_finite := arena.finitelyMany_find },
        arena, update o.tables.lists p list⟩ := by
  have hput : ({ o with processes := o.processes.modify p ({ · with handles := list }) } :
      Objects z).frame = _ :=
    frame_putProcesses fun q => Pool.find_modify o.processes p _ q
  obtain ⟨held, hfind, rfl⟩ := Option.map_eq_some_iff.mp hP
  have hbooks := congrArg Frame.books hput
  have hlists := congrArg (fun f : Frame z => f.tables.lists) hput
  refine Frame.ext (Books.ext ?_ ?_ rfl rfl rfl) (congrArg (HandleTables.mk arena) ?_)
  · refine (congrArg Books.refs hbooks).trans ?_
    exact Function.update_eq_self_iff.mpr (by simp [hfind, books, refs, of])
  · refine (congrArg Books.process hbooks).trans ?_
    exact Function.update_eq_self_iff.mpr (by simp [hfind, books, process?, Process.withoutHandles])
  · refine hlists.trans ?_
    simp [hfind]

section Handles

variable {p : ProcessId} {P : Process} {h : Handle} {entry : Entry} {α : Type}

theorem onHandles_run (hP : o.process? p = some P)
    (m : Prog Error (HandleArena z.handles × HandleList) α) :
    onHandles p m o = match m (o.handles, P.handles) with
      | (.error e, handles, _) => (.error e, { o with handles })
      | (.ok a, handles, list) => (.ok a, o.putHandles p handles list) := by
  exact Prog.run_bind_ok (show getProcess p o = (.ok P, o) by simp [getProcess, hP])

theorem onHandles_missing (hP : o.process? p = none)
    (m : Prog Error (HandleArena z.handles × HandleList) α) :
    onHandles p m o = (.error .invalidHandle, o) := by
  exact Prog.run_bind_error (by simp [getProcess, hP])

theorem lists_of_process (hP : o.process? p = some P) : o.tables.lists p = P.handles := by
  simp [tables, hP]

/-- The process is there, its list may grow, and the arena has a slot to give. -/
def HasRoom (o : Objects z) (p : ProcessId) : Prop :=
  ∃ P, o.process? p = some P ∧ HasSlot o.handles P.handles

/-- A handle that was installed, as the books show it. -/
structure Installed (o : Objects z) (p : ProcessId) (entry : Entry) (h : Handle)
    (o' : Objects z) : Prop where
  room : o.HasRoom p
  live : o.books.process p ≠ none
  fresh : o.books.entry h = none
  books_eq : o'.books = o.books.setEntry h (some (p, entry))
  isolated : o'.tables.Isolated

section

variable (hiso : o.tables.Isolated) (p : ProcessId)
include hiso

theorem onHandles_insert_cases (entry : Entry)
    {m : Prog Error (HandleArena z.handles × HandleList) Handle} (hm : ∀ P, o.process? p = some P →
      m (o.handles, P.handles) = insert p entry (o.handles, P.handles)) :
    (∃ e, onHandles p m o = (.error e, o) ∧ ¬ o.HasRoom p) ∨
    ∃ h o', onHandles p m o = (.ok h, o') ∧ Installed o p entry h o' := by
  cases hP : o.process? p with
  | none => exact Or.inl ⟨_, onHandles_missing hP m, by simp [HasRoom, hP]⟩
  | some P =>
    rw [onHandles_run hP, hm P hP]
    have hhead := hiso.head_held p
    rw [lists_of_process hP] at hhead
    rcases insert_cases hiso.valid p entry hhead with
      ⟨e, he, hfull⟩ | ⟨h, arena', list', hok, hslot, hins⟩
    · have he' : insert p entry (o.handles, P.handles) =
          (.error e, o.handles, P.handles) := he
      refine Or.inl ⟨e, by rw [he'], ?_⟩
      rintro ⟨P', hP', hslot⟩
      cases hP.symm.trans hP'
      exact hfull hslot
    have hok' : insert p entry (o.handles, P.handles) = (.ok h, arena', list') := hok
    refine Or.inr ⟨h, _, by rw [hok'], ⟨P, hP, hslot⟩, by simp [books, hP], hins.find_eq.1, ?_, ?_⟩
    · have hframe := congrArg Frame.books (frame_putHandles hP arena' list')
      exact hframe.trans (Books.ext rfl rfl rfl rfl hins.find_eq.2)
    · rw [← lists_of_process hP] at hins
      have htables : (o.putHandles p arena' list').tables = _ :=
        congrArg Frame.tables (frame_putHandles hP arena' list')
      rw [htables]
      exact hiso.inserted hins

theorem installHandle_cases (entry : Entry) :
    (∃ e, installHandle p entry o = (.error e, o) ∧ ¬ o.HasRoom p) ∨
    ∃ h o', installHandle p entry o = (.ok h, o') ∧ Installed o p entry h o' :=
  onHandles_insert_cases hiso p entry fun _ _ => rfl

theorem duplicate_cases (h : Handle) (rights : Rights) :
    (∃ e, onHandles p (duplicate p h rights) o = (.error e, o) ∧
      ∀ original, o.books.entry h = some (p, original) →
        ¬ (original.rights.contains .duplicate = true ∧
          rights.isSubsetOf original.rights = true ∧ o.HasRoom p)) ∨
    ∃ original k o', onHandles p (duplicate p h rights) o = (.ok k, o') ∧
      o.books.entry h = some (p, original) ∧ original.rights.contains .duplicate = true ∧
      rights.isSubsetOf original.rights = true ∧
      Installed o p ⟨original.object, rights, original.badge⟩ k o' := by
  cases hP : o.process? p with
  | none => exact Or.inl ⟨_, onHandles_missing hP _, by simp [HasRoom, hP]⟩
  | some P =>
    rcases HandleTables.duplicate_cases o.handles P.handles p h rights with
      ⟨e, he, hnot⟩ | ⟨original, hlookup, ⟨hdup, hsub⟩, hinsert⟩
    · exact Or.inl ⟨e, by rw [onHandles_run hP, he], fun original horiginal hall =>
        hnot original (lookup_eq_ok_iff.mpr horiginal) ⟨hall.1, hall.2.1⟩⟩
    have hm : ∀ P', o.process? p = some P' →
        duplicate p h rights (o.handles, P'.handles) =
          insert p ⟨original.object, rights, original.badge⟩
            (o.handles, P'.handles) := by
      intro P' hP'
      rw [hP] at hP'
      cases hP'
      exact hinsert
    rcases onHandles_insert_cases hiso p _ hm with ⟨e, he, hfull⟩ | ⟨k, o', hok, hinstalled⟩
    · exact Or.inl ⟨e, he, fun _ _ hall => hfull hall.2.2⟩
    · exact Or.inr ⟨original, k, o', hok, lookup_eq_ok_iff.mp hlookup, hdup, hsub, hinstalled⟩

end

end Handles

end Objects

end Audhsos
