import Audhsos.Abi
import Audhsos.Lib.Prog

/-!
The split virtqueue from the driver's side: a descriptor table and an available ring that the driver
writes, little end first, and a used ring that the device writes whenever it likes. What a read of
the used ring answers is an argument of the call, because the device may have stored anything there
by then.
-/

namespace Audhsos.Virtio

open Lib Prog

/-! ## Bit sets -/

/-- One bit for each index below `64 * words`. -/
structure BitSet (words : Nat) where
  bits : List Bool
  length_eq : bits.length = 64 * words
deriving DecidableEq

namespace BitSet

variable {words : Nat}

def new : BitSet words := ⟨List.replicate (64 * words) false, List.length_replicate⟩

def count (set : BitSet words) : Nat := set.bits.count true

/-- Whether the bit is set, or nothing for an index out of range. -/
def test (set : BitSet words) (index : Nat) : Option Bool := set.bits[index]?

/-- Sets the bit and answers whether it was set, or nothing for an index out of range. -/
def set (set : BitSet words) (index : Nat) : Option Bool × BitSet words :=
  (set.test index, ⟨set.bits.set index true, by rw [List.length_set, set.length_eq]⟩)

def clear (set : BitSet words) (index : Nat) : Option Bool × BitSet words :=
  (set.test index, ⟨set.bits.set index false, by rw [List.length_set, set.length_eq]⟩)

def firstSet (set : BitSet words) : Option Nat := set.bits.findIdx? id

end BitSet

/-! ## Errors and the device -/

inductive Area where
  | descriptorTable
  | availableRing
  | usedRing
deriving DecidableEq, Repr

inductive QueueError where
  | size (size : Nat)
  | region (area : Area) (needed given : Nat)
  | emptyChain
  | bufferOrder
  | chainTooLong (buffers size : Nat)
  | chainBytes (bytes : Nat)
  | queueFull (free needed : Nat)
  | notConfigured
  | notLive
  | unknownDescriptor (id : Nat)
  | usedIndexNotZero (index : Nat)
  | usedIndex (last now inFlight : Nat)
  | usedLength (head reported writable : Nat)
  | corruptChain (head : Nat)
deriving DecidableEq, Repr

/-- How far the device's initialization has come. -/
inductive Phase where
  | reset
  | acknowledged
  | driven
  | featuresOk
  | live
  | failed
deriving DecidableEq, Repr

def Phase.isLive : Phase → Bool
  | .live => true
  | _ => false

def Phase.mayPopulateQueues : Phase → Bool
  | .featuresOk | .live => true
  | _ => false

/-! ## Bytes of a region -/

def u16Size : Nat := 2 ^ 16

/-- A region of memory: its length and its bytes. -/
structure Bytes where
  size : Nat
  byte : Nat → BitVec 8

namespace Bytes

variable (region : Bytes) (area : Area)

def readU16 (start : Nat) : Except QueueError Nat :=
  if start + 2 ≤ region.size then
    .ok ((region.byte start).toNat + 256 * (region.byte (start + 1)).toNat)
  else .error (.region area (start + 2) region.size)

def readU32 (start : Nat) : Except QueueError Nat :=
  if start + 4 ≤ region.size then
    .ok ((region.byte start).toNat + 256 * (region.byte (start + 1)).toNat +
      256 ^ 2 * (region.byte (start + 2)).toNat + 256 ^ 3 * (region.byte (start + 3)).toNat)
  else .error (.region area (start + 4) region.size)

variable (start count value : Nat)

/-- Stores the low `count` bytes of `value` from `start` on. -/
def store : Bytes :=
  { region with
    byte := fun i => if start ≤ i ∧ i < start + count then
      BitVec.ofNat 8 (value / 256 ^ (i - start)) else region.byte i }

/-- The writes of two, four and eight bytes differ only in how many there are. -/
def write : Except QueueError Bytes :=
  if start + count ≤ region.size then .ok (region.store start count value)
  else .error (.region area (start + count) region.size)

variable (start value : Nat)

def writeU16 : Except QueueError Bytes :=
  region.write area start 2 value

def writeU32 : Except QueueError Bytes :=
  region.write area start 4 value

def writeU64 : Except QueueError Bytes :=
  region.write area start 8 value

end Bytes

/-! ## Descriptors -/

def descFNext : Nat := 1
def descFWrite : Nat := 2

inductive Direction where
  | driverToDevice
  | deviceToDriver
deriving DecidableEq, Repr

namespace Direction

def flag : Direction → Nat
  | .driverToDevice => 0
  | .deviceToDriver => descFWrite

/-- The order of the constructors. -/
def le : Direction → Direction → Bool
  | .deviceToDriver, .driverToDevice => false
  | _, _ => true

end Direction

/-- A buffer of the driver's, with the length a `u32` holds. -/
structure Buffer where
  address : Nat
  length : Nat
  direction : Direction
  length_lt : length < u32Size
deriving DecidableEq

structure Descriptor where
  address : Nat
  length : Nat
  flags : Nat
  next : Nat
deriving DecidableEq, Repr

def descriptorBytes : Nat := 16

namespace Descriptor

def addressAt : Nat := 0
def lengthAt : Nat := 8
def flagsAt : Nat := 12
def nextAt : Nat := 14

def offset (index : Nat) : Nat := index * descriptorBytes

/-- The flags and the next index of a descriptor. -/
def linkOf (table : Bytes) (index : Nat) : Except QueueError (Nat × Nat) := do
  let flags ← table.readU16 .descriptorTable (offset index + flagsAt)
  let next ← table.readU16 .descriptorTable (offset index + nextAt)
  pure (flags, next)

/-- The length, the flags and the next index of a descriptor. -/
def stepOf (table : Bytes) (index : Nat) : Except QueueError (Nat × Nat × Nat) := do
  let length ← table.readU32 .descriptorTable (offset index + lengthAt)
  let (flags, next) ← linkOf table index
  pure (length, flags, next)

end Descriptor

/-! ## The queue -/

/-- The regions of a queue. Of the used ring the driver has only the length. -/
structure QueueMemory where
  descriptorTable : Bytes
  availableRing : Bytes
  usedRing : Nat

structure Queue (words : Nat) where
  size : Nat
  free : BitSet words
  heads : BitSet words
  availIdx : Nat
  lastUsed : Nat
  inFlight : Nat
deriving DecidableEq

/-- The queue and the memory its calls work on. -/
structure Driver (words : Nat) where
  queue : Queue words
  memory : QueueMemory

/-- What three reads of the used ring answer: the index, and the two fields of the element. The
device may store between any two of them. -/
structure UsedReads where
  index : Nat
  id : Nat
  length : Nat
  index_lt : index < u16Size
  id_lt : id < u32Size
  length_lt : length < u32Size

structure Completion where
  head : Nat
  length : Nat
deriving DecidableEq, Repr

def ringHeaderBytes : Nat := 4
def usedElementBytes : Nat := 8
def flagsAt : Nat := 0
def indexAt : Nat := 2
def usedLengthAt : Nat := 4

def availableElementAt (slot : Nat) : Nat := ringHeaderBytes + slot * 2

def usedElementAt (slot : Nat) : Nat := ringHeaderBytes + slot * usedElementBytes

/-- A read of `count` bytes of the used ring that answers `value`. -/
def readUsed (memory : QueueMemory) (start count value : Nat) : Except QueueError Nat :=
  if start + count ≤ memory.usedRing then .ok value
  else .error (.region .usedRing (start + count) memory.usedRing)

/-- The descriptors below `size`, set one after the other. -/
def setAll {words : Nat} (size : Nat) : Nat → BitSet words → Except QueueError (BitSet words)
  | 0, set => .ok set
  | count + 1, set => do
    let set ← setAll size count set
    match set.set count with
    | (none, _) => .error (.size size)
    | (some _, set) => .ok set

namespace Queue

variable {words : Nat}

def freeCount (queue : Queue words) : Nat := min queue.free.count (u16Size - 1)

def mask (queue : Queue words) : Nat := queue.size - 1

/-- A queue of `size` descriptors, all free; `used` is the index the used ring holds. -/
def new (memory : QueueMemory) (size used : Nat) :
    Except QueueError (Driver words) := do
  if size = 0 ∨ size &&& (size - 1) ≠ 0 then .error (.size size)
  else
    let free ← setAll size size BitSet.new
    let used ← readUsed memory indexAt 2 used
    if used ≠ 0 then .error (.usedIndexNotZero used)
    else
      let available ← memory.availableRing.writeU16 .availableRing flagsAt 0
      let available ← available.writeU16 .availableRing indexAt 0
      pure ⟨⟨size, free, .new, 0, 0, 0⟩, { memory with availableRing := available }⟩

end Queue

namespace Driver

variable {words : Nat} (f : Bytes → Except QueueError Bytes)

/-- Writes of the driver's regions. -/
def writeTable : Prog QueueError (Driver words) Unit :=
  fun driver => match f driver.memory.descriptorTable with
    | .error e => (.error e, driver)
    | .ok table => (.ok (), { driver with memory := { driver.memory with
        descriptorTable := table } })

def writeAvailable : Prog QueueError (Driver words) Unit :=
  fun driver => match f driver.memory.availableRing with
    | .error e => (.error e, driver)
    | .ok ring => (.ok (), { driver with memory := { driver.memory with availableRing := ring } })

/-- Writes a descriptor, field by field. -/
def writeDescriptor (desc : Descriptor) (index : Nat) : Prog QueueError (Driver words) Unit := do
  writeTable (·.writeU64 .descriptorTable (Descriptor.offset index + Descriptor.addressAt)
    desc.address)
  writeTable (·.writeU32 .descriptorTable (Descriptor.offset index + Descriptor.lengthAt)
    desc.length)
  writeTable (·.writeU16 .descriptorTable (Descriptor.offset index + Descriptor.flagsAt)
    desc.flags)
  writeTable (·.writeU16 .descriptorTable (Descriptor.offset index + Descriptor.nextAt) desc.next)

/-- Sets the flag of a descriptor that says the chain goes on, and where. -/
def linkTo (index next : Nat) : Prog QueueError (Driver words) Unit := do
  let driver ← Prog.get
  let (flags, _) ← ofExcept (Descriptor.linkOf driver.memory.descriptorTable index)
  writeTable (·.writeU16 .descriptorTable (Descriptor.offset index + Descriptor.flagsAt)
    (flags ||| descFNext))
  writeTable (·.writeU16 .descriptorTable (Descriptor.offset index + Descriptor.nextAt) next)

def checkTable (driver : Driver words) : Except QueueError Unit :=
  let needed := driver.queue.size * descriptorBytes
  if driver.memory.descriptorTable.size < needed then
    .error (.region .descriptorTable needed driver.memory.descriptorTable.size)
  else .ok ()

/-- Takes one free descriptor. -/
def takeFree : Prog QueueError (Driver words) (Option Nat) := fun driver =>
  match driver.queue.free.firstSet with
  | none => (.ok none, driver)
  | some index =>
    let taken := min index (u16Size - 1)
    match driver.queue.free.clear index with
    | (none, _) => (.ok none, driver)
    | (some _, free) => (.ok (some taken), { driver with queue := { driver.queue with free } })

/-- The walk of a chain: every step frees one descriptor that was in use. A walk of as many steps
as there are descriptors has freed them all, so the next step would be refused. -/
def freeLoop (head : Nat) :
    Nat → Nat → Nat → Driver words → Except QueueError Nat × Driver words
  | 0, _, _, driver => (.error (.corruptChain head), driver)
  | fuel + 1, current, writable, driver =>
    if driver.queue.size ≤ current then (.error (.corruptChain head), driver)
    else
      let was := (driver.queue.free.set current).1
      let driver := { driver with queue := { driver.queue with
        free := (driver.queue.free.set current).2 } }
      if was.getD true then (.error (.corruptChain head), driver)
      else match Descriptor.stepOf driver.memory.descriptorTable current with
        | .error e => (.error e, driver)
        | .ok (length, flags, next) =>
          let writable :=
            if flags &&& descFWrite ≠ 0 then min (writable + length) (u32Size - 1) else writable
          if flags &&& descFNext = 0 then (.ok writable, driver)
          else freeLoop head fuel next writable driver

variable (head : Nat)

/-- Gives the descriptors of the chain at `head` back; answers how many bytes of it the device
was given to write. -/
def freeChain : Prog QueueError (Driver words) Nat := fun driver =>
  freeLoop head (driver.queue.size + 1) head 0 { driver with queue := { driver.queue with
    heads := (driver.queue.heads.clear head).2 } }

/-- Writes the head into the available ring and publishes it. -/
def publish : Prog QueueError (Driver words) Unit := do
  let driver ← Prog.get
  let slot := driver.queue.availIdx &&& driver.queue.mask
  writeAvailable (·.writeU16 .availableRing (availableElementAt slot) head)
  let next := (driver.queue.availIdx + 1) % u16Size
  writeAvailable (·.writeU16 .availableRing indexAt next)
  Prog.modify fun driver => { driver with queue := { driver.queue with
    heads := (driver.queue.heads.set head).2
    availIdx := next
    inFlight := min (driver.queue.inFlight + 1) (u16Size - 1) } }

/-- One turn of the loop of `add` that has taken a descriptor: writes the buffer to it and links
the descriptor before to it. -/
def place (buffer : Buffer) (previous : Option Nat) (index : Nat) :
    Prog QueueError (Driver words) Unit := do
  writeDescriptor ⟨buffer.address, buffer.length, buffer.direction.flag, 0⟩ index
  match previous with
  | some before => linkTo before index
  | none => pure ()

/-- The loop of `add`: takes a descriptor for each buffer and links it behind the one before. -/
def addLoop (needed : Nat) :
    List Buffer → Option Nat → Option Nat → Prog QueueError (Driver words) (Option Nat)
  | [], head, _ => pure head
  | buffer :: buffers, head, previous => do
    match ← takeFree with
    | none => do
      match head with
      | some started => let _ ← freeChain started
      | none => pure ()
      let driver ← Prog.get
      Prog.throw (.queueFull driver.queue.freeCount needed)
    | some index => do
      place buffer previous index
      addLoop needed buffers (head.or (some index)) (some index)

/-- Whether no buffer that the device writes stands before one it reads. -/
def sortedByDirection (buffers : List Buffer) : Bool :=
  match buffers with
  | [] => true
  | first :: rest =>
    match rest with
    | [] => true
    | second :: _ => first.direction.le second.direction && sortedByDirection rest

/-- The last step of `add`: a chain that could not be published goes back, and if it could not
either, that is the error that counts. -/
def publishOrFree : Prog QueueError (Driver words) Nat := fun driver =>
  match publish head driver with
  | (.ok (), driver) => (.ok head, driver)
  | (.error e, driver) => match freeChain head driver with
    | (.ok _, driver) => (.error e, driver)
    | (.error e', driver) => (.error e', driver)

/-- Adds a chain of buffers and publishes it; answers the descriptor it begins at. -/
def add (device : Phase) (buffers : List Buffer) : Prog QueueError (Driver words) Nat := do
  require (device.mayPopulateQueues) .notConfigured
  let driver ← Prog.get
  require (buffers.length ≤ driver.queue.size)
    (.chainTooLong buffers.length driver.queue.size)
  require (sortedByDirection buffers) .bufferOrder
  let bytes := buffers.foldl (fun total buffer => min (total + buffer.length) (u64Size - 1)) 0
  require (bytes < u32Size) (.chainBytes bytes)
  ofExcept driver.checkTable
  match ← addLoop buffers.length buffers none none with
  | none => Prog.throw .emptyChain
  | some head => publishOrFree head

/-- Takes the next chain the device has given back, if there is one. -/
def nextUsed (device : Phase) (reads : UsedReads) :
    Prog QueueError (Driver words) (Option Completion) := do
  require device.isLive .notLive
  let driver ← Prog.get
  let queue := driver.queue
  let index ← ofExcept (readUsed driver.memory indexAt 2 reads.index)
  let pending := (index + u16Size - queue.lastUsed) % u16Size
  if pending = 0 then pure none
  else do
    require (pending ≤ queue.inFlight) (.usedIndex queue.lastUsed index queue.inFlight)
    let start := usedElementAt (queue.lastUsed &&& queue.mask)
    let id ← ofExcept (readUsed driver.memory start 4 reads.id)
    let length ← ofExcept (readUsed driver.memory (start + usedLengthAt) 4 reads.length)
    let head := if id < u16Size then id else u16Size - 1
    require (head < queue.size ∧ (queue.heads.test head).getD false = true)
      (.unknownDescriptor id)
    Prog.modify fun driver => { driver with queue := { driver.queue with
      lastUsed := (queue.lastUsed + 1) % u16Size
      inFlight := queue.inFlight - 1 } }
    let writable ← freeChain head
    require (length ≤ writable) (.usedLength head length writable)
    pure (some ⟨head, length⟩)

end Driver

end Audhsos.Virtio
