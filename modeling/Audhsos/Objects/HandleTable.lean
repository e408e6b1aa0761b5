import Audhsos.Lib.Prog
import Audhsos.Objects.Id

/-!
The handle arena: one table of slots for the handles of every process, an owner chain per process,
and a first-in first-out list of freed slots behind a high-water mark. Every access goes through
`slot` or `modifySlot`, which check the index against the size `n`.
-/

namespace Audhsos

open Lib

/-- A link to a slot: zero is none, any other value the index plus one. -/
structure Link where
  raw : Nat
deriving DecidableEq, Repr

namespace Link

def none : Link := ⟨0⟩

def toIndex (index : Nat) : Link := if index + 1 < u32Size then ⟨index + 1⟩ else none

def index (link : Link) : Option Nat := if link.raw = 0 then Option.none else some (link.raw - 1)

@[simp] theorem index_none : none.index = Option.none := rfl

theorem index_to {i : Nat} (h : i + 1 < u32Size) : (toIndex i).index = some i := by
  simp [toIndex, index, h]

theorem index_eq_none {link : Link} : link.index = Option.none ↔ link = none := by
  obtain ⟨raw⟩ := link
  simp [index, none]

end Link

/-- What one handle names, and what its holder may do with it. -/
structure Entry where
  object : AnyObjectId
  rights : Rights
  badge : Nat
deriving DecidableEq, Repr

namespace Entry

def new (object : AnyObjectId) (rights : Rights) : Entry := ⟨object, rights, 0⟩

end Entry

/-- An entry in the arena, linked into the chain of its owner. -/
@[ext]
structure HandleOccupant where
  owner : ProcessId
  entry : Entry
  previous : Link
  next : Link
deriving DecidableEq, Repr

@[ext]
structure HandleSlot where
  generation : Nat
  nextFree : Link
  occupant : Option HandleOccupant
deriving DecidableEq, Repr

def HandleSlot.free : HandleSlot := ⟨0, .none, none⟩

/-- The handles of one process: the head of its chain, their number and the most it may hold. -/
structure HandleList where
  head : Link
  count : Nat
  capacity : Nat
deriving DecidableEq, Repr

def HandleList.withCapacity (capacity : Nat) : HandleList := ⟨.none, 0, capacity⟩

structure HandleArena (n : Nat) where
  slots : Nat → HandleSlot
  freeHead : Link
  freeTail : Link
  highWater : Nat
  live : Nat

namespace HandleArena

variable {n : Nat}

def new : HandleArena n := ⟨fun _ => .free, .none, .none, 0, 0⟩

section

variable (arena : HandleArena n) (index : Nat)

def slot : Option HandleSlot :=
  if index < n then some (arena.slots index) else none

def modifySlot (f : HandleSlot → HandleSlot) : HandleArena n :=
  if index < n then
    { arena with slots := Function.update arena.slots index (f (arena.slots index)) }
  else arena

def occupantAt : Option HandleOccupant :=
  (arena.slot index).bind (·.occupant)

def modifyOccupantAt (f : HandleOccupant → HandleOccupant) : HandleArena n :=
  arena.modifySlot index fun slot => { slot with occupant := slot.occupant.map f }

def modifyLinked (link : Link) (f : HandleOccupant → HandleOccupant) : HandleArena n :=
  match link.index with
  | some index => arena.modifyOccupantAt index f
  | none => arena

def takeFreeSlot : Option (Nat × HandleArena n) :=
  match arena.freeHead.index with
  | some index =>
    let nextFree := (arena.slot index).elim Link.none (·.nextFree)
    some (index, { arena with
      freeHead := nextFree
      freeTail := if nextFree = .none then .none else arena.freeTail })
  | none =>
    if arena.highWater < n then
      some (arena.highWater, { arena with highWater := satAdd32 arena.highWater 1 })
    else none

def putFreeSlot : HandleArena n :=
  let arena := arena.modifySlot index ({ · with nextFree := .none })
  let arena := match arena.freeTail.index with
    | some tail => arena.modifySlot tail ({ · with nextFree := .toIndex index })
    | none => { arena with freeHead := .toIndex index }
  { arena with freeTail := .toIndex index }

/-- Fills the slot at `index` and links it before the head of the chain. -/
def place (head : Link) (index : Nat) (slot : HandleSlot) : HandleArena n :=
  let arena := arena.modifySlot index fun _ => slot
  let arena := arena.modifyLinked head ({ · with previous := .toIndex index })
  { arena with live := satAdd32 arena.live 1 }

end

/-- Gives `process` a handle on `entry`, at the head of its chain. -/
def insert (process : ProcessId) (entry : Entry) :
    Prog Error (HandleArena n × HandleList) Handle := fun (arena, list) =>
  if list.capacity ≤ list.count then (.error .quotaExceeded, arena, list)
  else match arena.takeFreeSlot with
    | none => (.error .outOfHandles, arena, list)
    | some (index, arena) =>
      match arena.slot index with
      | none => (.error .outOfHandles, arena, list)
      | some slot =>
        let generation := nextGeneration slot.generation
        let occupant := { owner := process, entry, previous := .none, next := list.head }
        ((Handle.new index generation).elim (.error .outOfHandles) .ok,
          arena.place list.head index ⟨generation, .none, some occupant⟩,
          { list with head := .toIndex index, count := satAdd32 list.count 1 })

variable (arena : HandleArena n) (process : ProcessId) (handle : Handle)

/-- The slot a handle of `process` names. -/
def resolve : Except Error Nat :=
  match arena.slot handle.index with
  | none => .error .invalidHandle
  | some slot =>
    if slot.generation ≠ handle.generation then .error .invalidHandle
    else match slot.occupant with
      | none => .error .invalidHandle
      | some occupant =>
        if occupant.owner ≠ process then .error .invalidHandle else .ok handle.index

def lookup : Except Error Entry :=
  match arena.resolve process handle with
  | .error e => .error e
  | .ok index => (arena.occupantAt index).elim (.error .invalidHandle) fun o => .ok o.entry

/-- Another handle on what `handle` names, with rights that are a subset of its own. -/
def duplicate (rights : Rights) :
    Prog Error (HandleArena n × HandleList) Handle := do
  let original ← fun (arena, list) => (arena.lookup process handle, arena, list)
  Prog.require (original.rights.contains .duplicate) .accessDenied
  Prog.require (rights.isSubsetOf original.rights) .accessDenied
  insert process { object := original.object, rights, badge := original.badge }

variable (arena : HandleArena n) (list : HandleList)

/-- Takes the occupant of a slot out of the chain of its owner, whose list is `list`. -/
def detach (index : Nat) : Option Entry × HandleArena n × HandleList :=
  match arena.occupantAt index with
  | none => (none, arena, list)
  | some occupant =>
    let arena := arena.modifySlot index ({ · with occupant := none })
    let arena := arena.modifyLinked occupant.previous ({ · with next := occupant.next })
    let arena := arena.modifyLinked occupant.next ({ · with previous := occupant.previous })
    let list := { list with
      head := if occupant.previous = .none then occupant.next else list.head
      count := list.count - 1 }
    (some occupant.entry, { arena with live := arena.live - 1 }.putFreeSlot index, list)

def close :
    Prog Error (HandleArena n × HandleList) Entry := fun (arena, list) =>
  match arena.resolve process handle with
  | .error e => (.error e, arena, list)
  | .ok index =>
    let (entry, arena, list) := arena.detach list index
    (entry.elim (.error .invalidHandle) .ok, arena, list)

/-- Closes the handle at the head of a list, for a process that closes all of them. -/
def closeNext : Option Entry × HandleArena n × HandleList :=
  match list.head.index with
  | none => (none, arena, list)
  | some index =>
    match arena.detach list index with
    | (some entry, arena, list) => (some entry, arena, list)
    | (none, arena, list) => (none, arena, { list with head := .none, count := 0 })

/-- One step of the iterator over the handles of a list. -/
def handlesNext (next : Link) : Option ((Handle × Entry) × Link) :=
  match next.index with
  | none => none
  | some index =>
    match arena.slot index with
    | none => none
    | some slot =>
      match slot.occupant with
      | none => none
      | some occupant =>
        (Handle.new index slot.generation).map fun handle =>
          ((handle, occupant.entry), occupant.next)

end HandleArena

end Audhsos
