import Audhsos.Kernel.Books
import Audhsos.Syscall.Dispatch

/-!
The checks a call begins with only read the machine, and what they let through is written in the
books.
-/

namespace Audhsos

open Lib

variable {ε : Type} {z : Sizes}

/-! ## Programs that only read -/

section Lifts

variable {α : Type} {m : Store z α}

theorem reads_store (hm : m.Reads) : (store m).Reads :=
  fun s => congrArg (fun objects => { s with objects }) (hm s.objects)

theorem reads_sys {m : Sys z α} (hm : m.Reads) : (sys m : Call ε z α).Reads :=
  fun s => congrArg (fun toSystem => { s with toSystem }) (hm s.toSystem)

theorem reads_objs (hm : m.Reads) : (objs m : Call ε z α).Reads :=
  reads_sys (reads_store hm)

theorem objs_run (m : Store z α) (s : Machine ε z) :
    objs m s = ((m s.objects).1, { s with objects := (m s.objects).2 }) := by
  unfold objs sys store Prog.zoom
  rcases m s.objects with ⟨r | r, o⟩ <;> rfl

end Lifts

namespace Objects

theorem reads_getThread (t : ThreadId) : (getThread t : Store z _).Reads := fun _ => rfl

theorem reads_getMemory (m : MemoryObjectId) : (getMemory m : Store z _).Reads := fun _ => rfl

theorem reads_entry (p : ProcessId) (h : Handle) : (entry p h : Store z _).Reads := fun _ => rfl

theorem reads_resolve (type : ObjectType) (p : ProcessId) (h : Handle) (required : Rights) :
    (resolve type p h required : Store z _).Reads :=
  .bind (reads_entry p h) fun _ => .bind (.ofExcept _) fun _ => .bind (.require _ _) fun _ => .pure _

variable {o : Objects z} {p : ProcessId} {h : Handle}

theorem entry_ok {e : Entry} (hentry : (entry p h o).1 = .ok e) : o.books.entry h = some (p, e) :=
  HandleArena.lookup_eq_ok_iff.mp hentry

end Objects

namespace Calls

open Objects

section Checks

variable {m : Machine ε z} {caller : ProcessId} {request : Request}

theorem reads_narrow (bits value : Nat) : (narrow bits value : Call ε z _).Reads := .ofExcept _

theorem reads_handleOf (request : Request) : (handleOf request : Call ε z _).Reads := .ofOption _ _

theorem reads_handleAt (request : Request) (index : Nat) :
    (handleAt request index : Call ε z _).Reads :=
  .ofOption _ _

theorem reads_objectOf (type : ObjectType) (caller : ProcessId) (request : Request)
    (required : Rights) : (objectOf type caller request required : Call ε z _).Reads :=
  .bind (reads_handleOf request) fun _ => reads_objs (reads_resolve _ _ _ _)

theorem reads_processOf (caller : ProcessId) (request : Request) :
    (processOf caller request : Call ε z _).Reads :=
  .bind (reads_objectOf _ _ _ _) fun _ => .pure _

end Checks

end Calls

end Audhsos
