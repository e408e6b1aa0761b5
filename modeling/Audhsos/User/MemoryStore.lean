import Audhsos.Abi
import Audhsos.Lib.Prog

/-!
The store of the memory server: which memory objects are free, which are held and by whom. The
operations of the kernel, `Pages`, are numbered by a clock, and each may fail, by its number, with
no effect. A handle names the physical address it begins at; one that `split` answers is named by
the number of the operation, so it is new.
-/

namespace Audhsos.MemoryServer

open Lib Prog

/-- A handle of the server: one it was given, or one that a `split` has made. -/
inductive ObjectHandle where
  | given (number : Nat)
  | made (operation : Nat)
deriving DecidableEq, Repr

/-- A memory object: its handle and the physical range it covers. -/
structure Object where
  handle : ObjectHandle
  start : Nat
  len : Nat
deriving DecidableEq, Repr

/-- The end, which stops at the largest address. -/
def Object.end (object : Object) : Nat := min (object.start + object.len) (u64Size - 1)

structure Held where
  object : Object
  owner : Nat
  retired : Bool
deriving DecidableEq, Repr

structure Quota where
  objects : Nat
  bytes : Nat
deriving DecidableEq, Repr

/-- The store, with room for `free` free objects and `live` held ones. -/
structure Store (freeRoom liveRoom : Nat) where
  free : List Object
  live : List Held
  quota : Quota
deriving DecidableEq, Repr

/-- The kernel: which operations fail, what `references` answers, what handles name, and when a
byte of physical memory was last overwritten with zeros. -/
structure Pages where
  clock : Nat
  fails : Nat → Option Error
  references : Nat → Nat
  base : ObjectHandle → Nat
  zeroedAt : Nat → Nat

structure State (freeRoom liveRoom : Nat) where
  store : Store freeRoom liveRoom
  pages : Pages

variable {freeRoom liveRoom : Nat}

/-! ## The kernel's operations -/

namespace Pages

/-- The next operation, which may fail. -/
def operation : Prog Error (State freeRoom liveRoom) Unit := fun state =>
  let after := { state with pages := { state.pages with clock := state.pages.clock + 1 } }
  match state.pages.fails state.pages.clock with
  | some e => (.error e, after)
  | none => (.ok (), after)

/-- Where a mapped window lies: the address stands for what it maps. -/
structure Window where
  handle : ObjectHandle
  offset : Nat

def map (handle : ObjectHandle) (offset _len : Nat) :
    Prog Error (State freeRoom liveRoom) Window := do
  operation
  pure ⟨handle, offset⟩

/-- Overwrites the window with zeros. -/
def zero (address : Window) (len : Nat) : Prog Error (State freeRoom liveRoom) Unit := do
  operation
  Prog.modify fun state =>
    let start := state.pages.base address.handle + address.offset
    { state with pages := { state.pages with
      zeroedAt := fun byte => if start ≤ byte ∧ byte < start + len then state.pages.clock
        else state.pages.zeroedAt byte } }

def unmap (_address : Window) (_len : Nat) : Prog Error (State freeRoom liveRoom) Unit :=
  operation

/-- Splits an object; the handle keeps the lower part and a new one names the upper part. -/
def split (handle : ObjectHandle) (offset : Nat) :
    Prog Error (State freeRoom liveRoom) ObjectHandle := do
  let state ← Prog.get
  operation
  let upper := ObjectHandle.made state.pages.clock
  Prog.modify fun state => { state with pages := { state.pages with
    base := fun other => if other = upper then state.pages.base handle + offset
      else state.pages.base other } }
  pure upper

def merge (_lower _upper : ObjectHandle) : Prog Error (State freeRoom liveRoom) Unit :=
  operation

def close (_handle : ObjectHandle) : Prog Error (State freeRoom liveRoom) Unit :=
  operation

def countReferences (_handle : ObjectHandle) : Prog Error (State freeRoom liveRoom) Nat := do
  let state ← Prog.get
  operation
  pure (state.pages.references state.pages.clock)

end Pages

/-- How many bytes are mapped at once. -/
def window : Nat := 64 * pageSize

variable (object : Object)

/-- Clears `chunk` bytes through a window, which is unmapped whether the fill worked or not. -/
def wipeChunk (done chunk : Nat) :
    Prog Error (State freeRoom liveRoom) Unit := do
  let address ← Pages.map object.handle done chunk
  let zeroed ← attempt (Pages.zero address chunk)
  let unmapped ← attempt (Pages.unmap address chunk)
  ofExcept (zeroed.bind fun _ => unmapped)

/-- The loop of `wipe`; every turn clears at least one byte. -/
def wipeLoop (object : Object) : Nat → Nat → Prog Error (State freeRoom liveRoom) Unit
  | 0, _ => pure ()
  | fuel + 1, done =>
    if object.len ≤ done then pure ()
    else do
      let chunk := min (object.len - done) window
      wipeChunk object done chunk
      wipeLoop object fuel (done + chunk)

/-- Overwrites an object with zeros, window by window. -/
def wipe : Prog Error (State freeRoom liveRoom) Unit :=
  wipeLoop object object.len 0

/-! ## The store -/

namespace Store

/-- Replaces the free list. -/
def putFreeList (free : List Object) : Prog Error (State freeRoom liveRoom) Unit :=
  Prog.modify fun state => { state with store := { state.store with free } }

/-- Replaces the list of held objects. -/
def putLive (live : List Held) : Prog Error (State freeRoom liveRoom) Unit :=
  Prog.modify fun state => { state with store := { state.store with live } }

def insertFree : Prog Error (State freeRoom liveRoom) Unit := do
  let state ← Prog.get
  let free := state.store.free
  let index := (free.findIdx? fun other => object.start < other.start).getD free.length
  require (free.length < freeRoom) .poolExhausted
  putFreeList (free.insertIdx index object)

/-- Joins the free object at `index` with the one behind it if they touch and the kernel agrees. -/
def joinAt (index : Nat) : Prog Error (State freeRoom liveRoom) Unit := do
  let state ← Prog.get
  let free := state.store.free
  match free[index]?, free[index + 1]? with
  | some lower, some upper =>
    if lower.end = upper.start then do
      match ← attempt (Pages.merge lower.handle upper.handle) with
      | .error _ => pure ()
      | .ok () =>
        putFreeList (((free.eraseIdx (index + 1)).eraseIdx index).insertIdx index
          ⟨lower.handle, lower.start, min (lower.len + upper.len) (u64Size - 1)⟩)
    else pure ()
  | _, _ => pure ()

def joinAround (start : Nat) : Prog Error (State freeRoom liveRoom) Unit := do
  let state ← Prog.get
  match state.store.free.findIdx? (·.start = start) with
  | none => pure ()
  | some index => do
    joinAt index
    if index = 0 then pure () else joinAt (index - 1)

def putFree : Prog Error (State freeRoom liveRoom) Unit := do
  insertFree object
  joinAround object.start

def restore (piece : Object) : Prog Error (State freeRoom liveRoom) Unit :=
  Prog.ignore (putFree piece)

def adopt : Prog Error (State freeRoom liveRoom) Unit := do
  wipe object
  putFree object

/-- The loop of `reclaim`: every turn takes an object out or moves on. -/
def reclaimLoop : Nat → Nat → Prog Error (State freeRoom liveRoom) Unit
  | 0, _ => pure ()
  | fuel + 1, index => do
    let state ← Prog.get
    match state.store.live[index]? with
    | none => pure ()
    | some held =>
      if held.retired ∧ state.store.free.length < freeRoom then do
        match ← attempt (Pages.countReferences held.object.handle) with
        | .ok 1 => do
          wipe held.object
          putFree held.object
          let state ← Prog.get
          putLive (state.store.live.eraseIdx index)
          reclaimLoop fuel index
        | _ => reclaimLoop fuel (index + 1)
      else reclaimLoop fuel (index + 1)

/-- Takes back the retired objects that nothing else refers to. -/
def reclaim : Prog Error (State freeRoom liveRoom) Unit := do
  let state ← Prog.get
  reclaimLoop state.store.live.length 0

variable (store : Store freeRoom liveRoom)

/-- Whether `owner` may hold one more object of `len` bytes. -/
def admits (owner len : Nat) : Bool :=
  let mine := store.live.filter fun held => held.owner = owner
  let bytes := mine.foldl (fun total held => min (total + held.object.len) (u64Size - 1)) 0
  mine.length < store.quota.objects && min (bytes + len) (u64Size - 1) ≤ store.quota.bytes

/-- The first multiple of `align` from `start` on. -/
def checkedNextMultipleOf (start align : Nat) : Option Nat :=
  let rounded := (start + align - 1) / align * align
  if rounded < u64Size then some rounded else none

/-- Where a piece of `len` bytes fits in an object. -/
def fits (len align : Nat) (object : Object) : Option Nat := do
  let start ← checkedNextMultipleOf object.start align
  let stop ← checkedAdd64 start len
  if stop ≤ object.end then some start else none

/-- The first free object that a piece fits in. -/
def firstFit (len align : Nat) : List Object → Nat → Option (Nat × Nat × Object)
  | [], _ => none
  | object :: free, index =>
    match fits len align object with
    | some start => some (index, start, object)
    | none => firstFit len align free (index + 1)

def place (wanted align : Nat) : Except Error (Nat × Nat × Object) :=
  match firstFit wanted align store.free 0 with
  | none => .error .outOfMemory
  | some (index, start, object) =>
    let leading := start - object.start
    let trailing := object.end - (start + wanted)
    let extra := (if 0 < leading then 1 else 0) + if 0 < trailing then 1 else 0
    if freeRoom < store.free.length + extra then .error .poolExhausted
    else .ok (index, start, object)

/-- Splits the part before `start` off, if there is one. -/
def carveBelow (start : Nat) :
    Prog (Object × Error) (State freeRoom liveRoom) Object := fun state =>
  let leading := start - object.start
  if 0 < leading then
    match Pages.split object.handle leading state with
    | (.error e, state) => (.error (object, e), state)
    | (.ok upper, state) =>
      let below : Object := ⟨object.handle, object.start, leading⟩
      let piece : Object := ⟨upper, start, object.len - leading⟩
      match insertFree below state with
      | (.error e, state) => (.error (piece, e), state)
      | (.ok (), state) => (.ok piece, state)
  else (.ok object, state)

/-- Splits the part behind the first `wanted` bytes off, if there is one. -/
def carveAbove (piece : Object) (start wanted trailing : Nat) :
    Prog (Object × Error) (State freeRoom liveRoom) Object := fun state =>
  if 0 < trailing then
    match Pages.split piece.handle wanted state with
    | (.error e, state) => (.error (piece, e), state)
    | (.ok upper, state) =>
      let above : Object := ⟨upper, start + wanted, trailing⟩
      let piece : Object := { piece with len := wanted }
      match insertFree above state with
      | (.error e, state) => (.error (piece, e), state)
      | (.ok (), state) => (.ok piece, state)
  else (.ok piece, state)

/-- Cuts the piece out of the object and clears it. An error comes with what is left in hand. -/
def carve (start wanted : Nat) :
    Prog (Object × Error) (State freeRoom liveRoom) Object := do
  let trailing := object.end - (start + wanted)
  let piece ← carveBelow object start
  let piece ← carveAbove piece start wanted trailing
  fun state => match wipe piece state with
    | (.error e, state) => (.error (piece, e), state)
    | (.ok (), state) => (.ok piece, state)

/-- The piece is cut out and handed to `owner`; on an error it goes back to the free list. -/
def handOut (owner index start wanted : Nat) (object : Object) :
    Prog Error (State freeRoom liveRoom) Object := do
  let state ← Prog.get
  putFreeList (state.store.free.eraseIdx index)
  fun state => match carve object start wanted state with
    | (.error (piece, e), state) => (.error e, (restore piece state).2)
    | (.ok piece, state) =>
      if liveRoom ≤ state.store.live.length then
        (.error .poolExhausted, (restore piece state).2)
      else (.ok piece, { state with store := { state.store with
        live := state.store.live ++ [⟨piece, owner, false⟩] } })

/-- Finds a place, with a reclaim in between if there has been none yet. -/
def findPlace (reclaimed : Bool) (wanted align : Nat) :
    Prog Error (State freeRoom liveRoom) (Nat × Nat × Object) := do
  let state ← Prog.get
  match state.store.place wanted align with
  | .ok found => pure found
  | .error e =>
    if (e = .outOfMemory ∨ e = .poolExhausted) ∧ ¬ reclaimed then do
      reclaim
      let state ← Prog.get
      ofExcept (state.store.place wanted align)
    else Prog.throw e

/-- Hands an object of at least `len` bytes to `owner`. -/
def allocate (owner len align : Nat) : Prog Error (State freeRoom liveRoom) Object := do
  require (¬ (owner = 0 ∨ len = 0 ∨ align = 0 ∨ align &&& (align - 1) ≠ 0)) .invalidArgument
  let wanted ← ofOption (checkedNextMultipleOf len pageSize) .invalidArgument
  let state ← Prog.get
  let reclaimed : Bool := liveRoom ≤ state.store.live.length ∨ ¬ state.store.admits owner wanted
  if reclaimed then reclaim else pure ()
  let state ← Prog.get
  require (state.store.admits owner wanted) .quotaExceeded
  require (state.store.live.length < liveRoom) .poolExhausted
  let (index, start, object) ← findPlace reclaimed wanted align
  handOut owner index start wanted object

/-- Whether the server itself holds the handle. -/
def holds (handle : ObjectHandle) : Bool :=
  store.live.any (·.object.handle = handle) || store.free.any (·.handle = handle)

/-- Gives up a handle that came with a refused request. -/
def refuse (handle : ObjectHandle) (e : Error) {α : Type} :
    Prog Error (State freeRoom liveRoom) α := do
  let state ← Prog.get
  if state.store.holds handle then pure () else Prog.ignore (Pages.close handle)
  Prog.throw e

/-- Retires a held object; it goes back to the free list once nothing else refers to it. -/
def release (owner : Nat) (returned : Object) : Prog Error (State freeRoom liveRoom) Object := do
  let state ← Prog.get
  match state.store.live.findIdx? fun held =>
    held.object.start = returned.start ∧ held.retired = false with
  | none => refuse returned.handle .notFound
  | some index =>
    match state.store.live[index]? with
    | none => refuse returned.handle .notFound
    | some held =>
      if held.owner ≠ owner then refuse returned.handle .accessDenied
      else if held.object.len ≠ returned.len then refuse returned.handle .invalidArgument
      else do
        putLive (state.store.live.set index { held with retired := true })
        let closed ← if returned.handle = held.object.handle then pure (.ok ())
          else attempt (Pages.close returned.handle)
        reclaim
        ofExcept closed
        pure held.object

/-- Retires everything a client holds. -/
def forgetClient (owner : Nat) : Prog Error (State freeRoom liveRoom) Nat := do
  let state ← Prog.get
  let live := state.store.live
  putLive (live.map fun held => if held.owner = owner then { held with retired := true } else held)
  reclaim
  pure (live.countP fun held => held.owner = owner ∧ held.retired = false)

end Store

end Audhsos.MemoryServer
