import Mathlib.Data.BitVec
import Audhsos.Lib.Prog

/-!
Page tables of four levels and the mapper that edits them. A frame is the number of a physical
frame below the fifty-two bits of an address, a page the thirty-six bits of a canonical address
that the walk translates.
-/

namespace Audhsos.Paging

open Lib Prog

abbrev Frame := BitVec 40
abbrev Page := BitVec 36

def isUser (page : Page) : Bool := !page.getLsbD 35

/-! ## Entries -/

structure Permissions where
  write : Bool
  execute : Bool
  user : Bool
deriving DecidableEq, Repr

inductive CachePolicy where
  | writeBack
  | uncached
deriving DecidableEq, Repr

abbrev Entry := BitVec 64

inductive EntryError where
  | reservedBits (raw : Entry)
  | hugePage
deriving DecidableEq, Repr

namespace Entry

def present : Nat := 0
def writable : Nat := 1
def user : Nat := 2
def writeThrough : Nat := 3
def noCache : Nat := 4
def huge : Nat := 7
def global : Nat := 8
def noExecute : Nat := 63

/-- The bits that are zero in an entry that is present. -/
def reservedMask : Entry := 0x7FF0000000000000

def empty : Entry := 0

variable (entry : Entry)

def has (flag : Nat) : Bool := entry.getLsbD flag

def withFlag (flag : Nat) (set : Bool) : Entry :=
  if set then entry ||| (1#64 <<< flag) else entry &&& ~~~(1#64 <<< flag)

def isPresent : Bool := has entry present

/-- The frame an entry points at: bits twelve to fifty-one. -/
def frame : Option Frame :=
  if isPresent entry then some (entry.extractLsb' 12 40) else none

variable (frame : Frame)

def start : Entry := frame.setWidth 64 <<< 12

def table : Entry :=
  withFlag (withFlag (withFlag (start frame) present true) writable true) user true

variable (perms : Permissions)

def withPermissions : Entry :=
  withFlag (withFlag (withFlag entry writable perms.write) user perms.user) noExecute
    (!perms.execute)

def leaf (cache : CachePolicy) (isGlobal : Bool) : Entry :=
  withFlag (withFlag (withFlag (withPermissions (withFlag (start frame) present true) perms)
    global isGlobal) noCache (cache = .uncached)) writeThrough (cache = .uncached)

def permissions : Permissions :=
  ⟨has entry writable, !has entry noExecute, has entry user⟩

def validate (level : Nat) : Except EntryError Unit :=
  if ¬ isPresent entry then .ok ()
  else if entry &&& reservedMask ≠ 0 then .error (.reservedBits entry)
  else if 0 < level ∧ has entry huge then .error .hugePage
  else .ok ()

end Entry

/-! ## Tables -/

abbrev Table := Fin 512 → Entry

/-- The index a page selects at a level; level zero holds the leaves. -/
def index (level : Nat) (page : Page) : Fin 512 :=
  ⟨page.toNat / 512 ^ level % 512, Nat.mod_lt _ (by decide)⟩

inductive MapError where
  | alreadyMapped
  | notMapped
  | outOfKernelMemory
  | unreachableFrame
  | entry (error : EntryError)
deriving DecidableEq, Repr

/-- The tables that can be reached, and the frames. The source of frames answers in turn what
`answers` says, but for a frame that is lent; `given` are the frames it got back, the latest
first, and `flushed` the pages whose translation was invalidated. -/
structure Memory where
  tables : Frame → Option Table
  answers : Nat → Option Frame
  asked : Nat
  lent : List Frame
  given : List Frame
  flushed : List Page

abbrev Edit := Prog MapError Memory

def allocateFrame : Edit (Option Frame) := fun s =>
  (.ok ((s.answers s.asked).filter (· ∉ s.lent)),
    { s with asked := s.asked + 1
             lent := ((s.answers s.asked).filter (· ∉ s.lent)).toList ++ s.lent })

variable (frame : Frame)

def releaseFrame : Edit Unit :=
  Prog.modify fun s => { s with lent := s.lent.erase frame, given := frame :: s.given }

def flushPage (page : Page) : Edit Unit :=
  Prog.modify fun s => { s with flushed := page :: s.flushed }

def setTable (table : Table) (s : Memory) : Memory :=
  { s with tables := Function.update s.tables frame (some table) }

namespace Mapper

def readEntry (tables : Frame → Option Table) (frame : Frame) (level : Nat) (i : Fin 512) :
    Except MapError Entry :=
  match tables frame with
  | none => .error .unreachableFrame
  | some table =>
    match Entry.validate (table i) level with
    | .error e => .error (.entry e)
    | .ok () => .ok (table i)

def read (level : Nat) (i : Fin 512) : Edit Entry := fun s =>
  (readEntry s.tables frame level i, s)

def write (i : Fin 512) (entry : Entry) : Edit Unit := fun s =>
  match s.tables frame with
  | none => (.error .unreachableFrame, s)
  | some table => (.ok (), setTable frame (Function.update table i entry) s)

structure Created where
  parent : Frame
  index : Fin 512
  frame : Frame

def maxCreated : Nat := 3

def undo (created : Created) : Edit Unit := do
  Prog.ignore (write created.parent created.index Entry.empty)
  releaseFrame created.frame

/-- Undoes the tables of a walk that failed, the newest, which is the first, first. -/
def rollback (created : List Created) : Edit Unit :=
  match created with
  | [] => pure ()
  | first :: rest => do
    undo first
    rollback rest

/-- Takes a frame for a new table, empties it and enters it into its parent. -/
def grow (parent : Frame) (i : Fin 512) : Edit Frame := do
  match ← allocateFrame with
  | none => Prog.throw .outOfKernelMemory
  | some fresh => fun s =>
    match s.tables fresh with
    | none => (.error .unreachableFrame, (releaseFrame fresh s).2)
    | some _ =>
      match write parent i (Entry.table fresh) (setTable fresh (fun _ => Entry.empty) s) with
      | (.error e, s) => (.error e, (releaseFrame fresh s).2)
      | (.ok (), s) => (.ok fresh, s)

def walkLoop (page : Page) (create : Bool) : Nat → Frame → List Created → Edit Frame
  | 0, frame, _ => pure frame
  | level + 1, frame, created => fun s =>
    let i := index (level + 1) page
    match readEntry s.tables frame (level + 1) i with
    | .error e => (.error e, (rollback created s).2)
    | .ok entry =>
      match Entry.frame entry with
      | some next => walkLoop page create level next created s
      | none =>
        if ¬ create then (.error .notMapped, (rollback created s).2)
        else
          match grow frame i s with
          | (.error e, s) => (.error e, (rollback created s).2)
          | (.ok fresh, s) =>
            walkLoop page create level fresh
              (if created.length < maxCreated then ⟨frame, i, fresh⟩ :: created else created) s

variable (root : Frame) (page : Page)

def walk (create : Bool) : Edit Frame :=
  walkLoop page create 3 root []

variable (perms : Permissions)

/-- User access is removed for a page of the kernel half. -/
def confine : Permissions :=
  { perms with user := perms.user && isUser page }

def map (frame : Frame) (perms : Permissions) (cache : CachePolicy) :
    Edit Unit := do
  let leafTable ← walk root page true
  let entry ← read leafTable 0 (index 0 page)
  require (Entry.isPresent entry = false) .alreadyMapped
  write leafTable (index 0 page) (Entry.leaf frame (confine page perms) cache (!isUser page))
  flushPage page

/-- The frames of the table at `target` on the way to a page and of the one above it; the table
`frame` has the level `current`. -/
def tablePairLoop (tables : Frame → Option Table) (page : Page) (target : Nat) :
    Nat → Frame → Except MapError (Option (Frame × Frame))
  | 0, _ => .ok none
  | current + 1, frame =>
    if current + 1 ≤ target then .ok none
    else
      match readEntry tables frame (current + 1) (index (current + 1) page) with
      | .error e => .error e
      | .ok entry =>
        match Entry.frame entry with
        | none => .ok none
        | some next =>
          if current = target then .ok (some (frame, next))
          else tablePairLoop tables page target current next

def tablePair (target : Nat) :
    Edit (Option (Frame × Frame)) := fun s => (tablePairLoop s.tables page target 3 root, s)

def isUnused (table : Table) : Bool := decide (∀ i, Entry.isPresent (table i) = false)

/-- The loop of `collectEmptyTables`, from `target` up; `fuel` levels are left. -/
def collectLoop (root : Frame) (page : Page) : Nat → Nat → Edit Unit
  | 0, _ => pure ()
  | fuel + 1, target => fun s =>
    match tablePair root page target s with
    | (.error e, s) => (.error e, s)
    | (.ok none, s) => (.ok (), s)
    | (.ok (some (parent, frame)), s) =>
      match s.tables frame with
      | none => (.error .unreachableFrame, s)
      | some table =>
        if ¬ isUnused table then (.ok (), s)
        else
          match write parent (index (target + 1) page) Entry.empty s with
          | (.error e, s) => (.error e, s)
          | (.ok (), s) => collectLoop root page fuel (target + 1) (releaseFrame frame s).2

/-- Frees every table below the root that has no entry left, the lowest first. -/
def collectEmptyTables : Edit Unit := collectLoop root page 3 0

def unmap : Edit Frame := do
  let leafTable ← walk root page false
  let entry ← read leafTable 0 (index 0 page)
  let frame ← ofOption (Entry.frame entry) .notMapped
  write leafTable (index 0 page) Entry.empty
  let collected ← attempt (collectEmptyTables root page)
  flushPage page
  ofExcept collected
  pure frame

def protect : Edit Unit := do
  let leafTable ← walk root page false
  let entry ← read leafTable 0 (index 0 page)
  require (Entry.isPresent entry = true) .notMapped
  write leafTable (index 0 page) (Entry.withPermissions entry (confine page perms))
  flushPage page

def translateLoop (tables : Frame → Option Table) (page : Page) :
    Nat → Frame → Option (Frame × Permissions)
  | 0, frame => do
    let entry ← (readEntry tables frame 0 (index 0 page)).toOption
    let frame ← Entry.frame entry
    some (frame, Entry.permissions entry)
  | level + 1, frame => do
    let entry ← (readEntry tables frame (level + 1) (index (level + 1) page)).toOption
    let next ← Entry.frame entry
    translateLoop tables page level next

def translate (s : Memory) : Option (Frame × Permissions) :=
  translateLoop s.tables page 3 root

end Mapper

/-! ## The user half -/

def firstKernelEntry : Nat := 256

def freeTable (s : Memory) : Memory :=
  match s.tables frame with
  | none => (releaseFrame frame s).2
  | some _ => (releaseFrame frame (setTable frame (fun _ => Entry.empty) s)).2

/-- One turn of the loop of `freeSubtree`; `free` is its recursion. The loop of the source ends
at a table that cannot be reached, and here every later turn finds the same table. -/
def freeEntry (free : Frame → Memory → Nat × Memory) (frame : Frame) (acc : Nat × Memory)
    (i : Fin 512) : Nat × Memory :=
  match (acc.2.tables frame).bind fun table => Entry.frame (table i) with
  | none => acc
  | some child => (acc.1 + (free child acc.2).1, (free child acc.2).2)

/-- Gives back the table in a frame and everything below it; answers how many frames that were. -/
def freeSubtree : Nat → Frame → Memory → Nat × Memory
  | 0, frame, s => (1, freeTable frame s)
  | level + 1, frame, s =>
    let acc := (List.finRange 512).foldl (freeEntry (freeSubtree level) frame) (0, s)
    (acc.1 + 1, freeTable frame acc.2)

def clearEntry (i : Fin 512) (s : Memory) : Memory :=
  match s.tables frame with
  | none => s
  | some table => setTable frame (Function.update table i Entry.empty) s

/-- One turn of the loop of `freeUserHalf`. -/
def freeRootEntry (root : Frame) (acc : Nat × Memory) (i : Fin 512) : Nat × Memory :=
  match (acc.2.tables root).bind fun table => Entry.frame (table i) with
  | none => acc
  | some child =>
    (acc.1 + (freeSubtree 2 child acc.2).1, clearEntry root i (freeSubtree 2 child acc.2).2)

/-- Gives back every table of the user half and the root; answers how many frames that were. -/
def freeUserHalf (root : Frame) (s : Memory) : Nat × Memory :=
  let acc := ((List.finRange 512).filter (·.val < firstKernelEntry)).foldl
    (freeRootEntry root) (0, s)
  (acc.1 + 1, (releaseFrame root acc.2).2)

end Audhsos.Paging
