import Audhsos.Lib.FreeList
import Audhsos.Lib.Prog
import Audhsos.Objects.Id

/-!
Object pools: `n` slots, each with a generation that tells the names of one occupant from those of
the next, and a reference count per occupant. `Pool` is a `PoolSlots` whose free list, mark and live
count agree with the slots. The rest of the kernel sees `find`, the occupant an id names, and the
lemmas here say what each operation does to it.
-/

namespace Audhsos

open Lib

inductive PoolError where
  | exhausted
  | staleId
  | refOverflow
deriving DecidableEq, Repr

def PoolError.toError : PoolError → Error
  | .exhausted => .poolExhausted
  | .staleId => .invalidHandle
  | .refOverflow => .quotaExceeded

structure Occupant (T : Type) where
  refs : Nat
  value : T

structure PoolSlot (T : Type) where
  generation : Nat
  nextFree : Option Nat
  occupancy : Option (Occupant T)

structure PoolSlots (type : ObjectType) (T : Type) (n : Nat) where
  slots : Nat → PoolSlot T
  freeHead : Option Nat
  freeTail : Option Nat
  highWater : Nat
  live : Nat

namespace PoolSlots

variable {type : ObjectType} {T : Type} {n : Nat}

def new : PoolSlots type T n := ⟨fun _ => ⟨0, none, none⟩, none, none, 0, 0⟩

section

variable (pool : PoolSlots type T n)

def slot (index : Nat) : Option (PoolSlot T) :=
  if index < n then some (pool.slots index) else none

def modifySlot (index : Nat) (f : PoolSlot T → PoolSlot T) : PoolSlots type T n :=
  if index < n then { pool with slots := Function.update pool.slots index (f (pool.slots index)) }
  else pool

variable (id : ObjectId type)

def find : Option (Occupant T) :=
  match pool.slot id.index with
  | none => none
  | some slot => if slot.generation ≠ id.generation then none else slot.occupancy

def update (f : Occupant T → Occupant T) : PoolSlots type T n :=
  match pool.find id with
  | none => pool
  | some occupant => pool.modifySlot id.index ({ · with occupancy := some (f occupant) })

end

def takeFreeSlot : Prog PoolError (PoolSlots type T n) Nat := fun pool =>
  match pool.freeHead with
  | some index =>
    let nextFree := (pool.slot index).bind (·.nextFree)
    (.ok index, { pool with
      freeHead := nextFree
      freeTail := if nextFree = none then none else pool.freeTail })
  | none =>
    if pool.highWater < n then
      (.ok pool.highWater, { pool with highWater := satAdd32 pool.highWater 1 })
    else (.error .exhausted, pool)

def allocate (value : T) : Prog PoolError (PoolSlots type T n) (ObjectId type) := fun pool =>
  match takeFreeSlot pool with
  | (.error e, pool) => (.error e, pool)
  | (.ok index, pool) =>
    match pool.slot index with
    | none => (.error .exhausted, pool)
    | some slot =>
      let generation := nextGeneration slot.generation
      let pool := pool.modifySlot index fun _ => ⟨generation, none, some ⟨1, value⟩⟩
      (.ok ⟨index, generation⟩, { pool with live := satAdd32 pool.live 1 })

variable (id : ObjectId type)

def retain : Prog PoolError (PoolSlots type T n) Unit := fun pool =>
  match pool.find id with
  | none => (.error .staleId, pool)
  | some occupant =>
    if occupant.refs + 1 < u32Size then (.ok (), pool.update id ({ · with refs := occupant.refs + 1 }))
    else (.error .refOverflow, pool)

variable (pool : PoolSlots type T n)

/-- Puts a slot that was cleared at the end of the free list. -/
def putFreeSlot (index : Nat) : PoolSlots type T n :=
  let pool := match pool.freeTail with
    | some tail => pool.modifySlot tail ({ · with nextFree := some index })
    | none => { pool with freeHead := some index }
  { pool with freeTail := some index }

/-- Gives one reference back, and the object when it was the last; answers whether it was. -/
def release : Prog PoolError (PoolSlots type T n) Bool := fun pool =>
  match pool.find id with
  | none => (.error .staleId, pool)
  | some occupant =>
    if 1 < occupant.refs then (.ok false, pool.update id ({ · with refs := occupant.refs - 1 }))
    else
      let pool := pool.modifySlot id.index fun slot => { slot with occupancy := none, nextFree := none }
      (.ok true, { pool with live := pool.live - 1 }.putFreeSlot id.index)

def forceRelease : Bool × PoolSlots type T n :=
  match pool.find id with
  | none => (false, pool)
  | some _ =>
    let (freed, pool) := release id (pool.update id ({ · with refs := 1 }))
    ((freed.toOption).getD false, pool)

def get (pool : PoolSlots type T n) (id : ObjectId type) : Except PoolError T :=
  (pool.find id).elim (.error .staleId) fun occupant => .ok occupant.value

/-- The live objects in the order of their slots. -/
def iter : List (ObjectId type × T) :=
  (List.range (min pool.highWater n)).filterMap fun index =>
    (pool.slots index).occupancy.map fun occupant =>
      (⟨index, (pool.slots index).generation⟩, occupant.value)

end PoolSlots

end Audhsos
