import Mathlib.Data.BitVec
import Mathlib.Order.Basic
import Audhsos.Abi

/-!
The parts of a TCP connection: sequence numbers, segments, the two buffers, the retransmission
timeout and the congestion window. Saturating counts of thirty-two bits are numbers cut off at the
largest; instants and durations are microseconds.
-/

namespace Audhsos.Tcp

/-! ## Numbers -/

def u32Max : Nat := 2 ^ 32 - 1

def sat32 (n : Nat) : Nat := min n u32Max
def sat64 (n : Nat) : Nat := min n u64Max

/-- A length as a number of thirty-two bits, or `other` where it does not fit. -/
def toU32 (n other : Nat) : Nat := if n ≤ u32Max then n else other

abbrev Instant := Nat
abbrev Duration := Nat

def Instant.saturatingAdd (at_ : Instant) (duration : Duration) : Instant := sat64 (at_ + duration)

/-- A point on the circle of sequence numbers. -/
abbrev SeqNumber := BitVec 32

namespace SeqNumber

def half : Nat := 0x80000000

variable (number : SeqNumber)

def add (count : Nat) : SeqNumber := number + BitVec.ofNat 32 count

def sub (count : Nat) : SeqNumber := number - BitVec.ofNat 32 count

def distanceFrom (number earlier : SeqNumber) : Nat := (number - earlier).toNat

variable (number other : SeqNumber)

def before : Bool :=
  decide ((other - number).toNat ≠ 0 ∧ (other - number).toNat < half)

def after : Bool := before other number

def beforeOrEqual : Bool := number = other || before number other

def isInWindow (number start : SeqNumber) (len : Nat) : Bool :=
  decide (len ≠ 0 ∧ distanceFrom number start < len)

end SeqNumber

/-- The four cases in which a receiver takes a segment. -/
def isAcceptable (seq : SeqNumber) (len : Nat) (next : SeqNumber) (window : Nat) : Bool :=
  match len, window with
  | 0, 0 => seq = next
  | 0, window => SeqNumber.isInWindow seq next window
  | _, 0 => false
  | len + 1, window =>
    SeqNumber.isInWindow seq next window ||
      SeqNumber.isInWindow (SeqNumber.add seq len) next window

/-! ## Segments -/

inductive IpAddr where
  | v4 (bits : BitVec 32)
  | v6 (bits : BitVec 128)
deriving DecidableEq

inductive IpVersion where
  | v4
  | v6
deriving DecidableEq

def IpAddr.version : IpAddr → IpVersion
  | .v4 _ => .v4
  | .v6 _ => .v6

abbrev Port := BitVec 16

structure Endpoint where
  address : IpAddr
  port : Port
deriving DecidableEq

abbrev Flags := BitVec 8

namespace Flags

def fin : Flags := 0x01
def syn : Flags := 0x02
def rst : Flags := 0x04
def psh : Flags := 0x08
def ack : Flags := 0x10

variable (flags other : Flags)

def has : Bool := flags &&& other = other

def with_ : Flags := flags ||| other

end Flags

structure Segment where
  sourcePort : Port
  destinationPort : Port
  seq : SeqNumber
  ack : SeqNumber
  flags : Flags
  window : BitVec 16
  maxSegmentSize : Option (BitVec 16)
  payload : List Byte
deriving DecidableEq

namespace Segment

def new (sourcePort destinationPort : Port) (flags : Flags) : Segment :=
  ⟨sourcePort, destinationPort, 0, 0, flags, 0, none, []⟩

/-- How many numbers the segment takes. -/
def sequenceLen (segment : Segment) : Nat :=
  sat32 (sat32 (toU32 segment.payload.length u32Max + (segment.flags.has Flags.syn).toNat) +
    (segment.flags.has Flags.fin).toNat)

def headerSize : Nat := 20

namespace OptionKind

def endOfList : Byte := 0
def nop : Byte := 1
def maxSegmentSize : Byte := 2
def maxSegmentSizeLen : Byte := 4
def minLen : Byte := 2

end OptionKind

def headerLen (segment : Segment) : Nat :=
  match segment.maxSegmentSize with
  | some _ => headerSize + OptionKind.maxSegmentSizeLen.toNat
  | none => headerSize

def wireLen (segment : Segment) : Nat := segment.headerLen + segment.payload.length

end Segment

/-! ## Buffers -/

/-- A place in a ring of `capacity` bytes; a ring of no bytes has only one. -/
def wrap (value capacity : Nat) : Nat := if capacity = 0 then 0 else value % capacity

structure Ring where
  capacity : Nat
  bytes : Nat → Byte

/-- Writes `data` into the ring from `start` on, going round at its end. -/
def Ring.write (ring : Ring) (start : Nat) : List Byte → Ring
  | [] => ring
  | byte :: rest =>
    Ring.write ⟨ring.capacity, Function.update ring.bytes (wrap start ring.capacity) byte⟩
      (start + 1) rest

theorem Ring.capacity_write (ring : Ring) (start : Nat) (data : List Byte) :
    (ring.write start data).capacity = ring.capacity := by
  induction data generalizing ring start with
  | nil => rfl
  | cons byte rest ih => exact ih _ _

structure SendBuffer where
  ring : Ring
  head : Nat
  len : Nat
  len_le : len ≤ ring.capacity

namespace SendBuffer

def new (ring : Ring) : SendBuffer := ⟨ring, 0, 0, Nat.zero_le _⟩

section

variable (buffer : SendBuffer)

def free : Nat := buffer.ring.capacity - buffer.len

def write (data : List Byte) : Nat × SendBuffer :=
  let taken := min data.length buffer.free
  (taken, ⟨buffer.ring.write (wrap (buffer.head + buffer.len) buffer.ring.capacity)
      (data.take taken), buffer.head, buffer.len + taken, by
    have hlen := buffer.len_le
    have htaken : taken ≤ buffer.free := Nat.min_le_right _ _
    unfold free at htaken
    rw [Ring.capacity_write]
    omega⟩)

variable (offset limit : Nat)

/-- How many bytes lie at `offset` before the end of the ring, at most `limit`. -/
def run : Nat :=
  if buffer.len < offset then 0
  else min (min (buffer.len - offset)
    (buffer.ring.capacity - wrap (buffer.head + offset) buffer.ring.capacity)) limit

/-- The bytes at `offset` from the front, as far as they run before the end of the ring. -/
def contiguous : List Byte :=
  (List.range (buffer.run offset limit)).map fun i =>
    buffer.ring.bytes (wrap (buffer.head + offset) buffer.ring.capacity + i)

def acknowledge (count : Nat) : SendBuffer :=
  let dropped := min count buffer.len
  { buffer with
    head := if buffer.len - dropped = 0 then 0
      else wrap (buffer.head + dropped) buffer.ring.capacity
    len := buffer.len - dropped
    len_le := le_trans (Nat.sub_le _ _) buffer.len_le }

end

end SendBuffer

structure Extent where
  start : Nat
  stop : Nat
deriving DecidableEq

def maxHoles : Nat := 4

/-- The window and what has arrived in it. -/
structure RecvBuffer where
  ring : Ring
  head : Nat
  ready : Nat
  early : List Extent

namespace RecvBuffer

def new (ring : Ring) : RecvBuffer := ⟨ring, 0, 0, []⟩

section

variable (buffer : RecvBuffer)

def window : Nat := buffer.ring.capacity - buffer.ready

def hasEarlyBytes : Bool := !buffer.early.isEmpty

def consume (count : Nat) : RecvBuffer :=
  let dropped := min count buffer.ready
  { buffer with
    head := if buffer.ready - dropped = 0 ∧ buffer.early = [] then 0
      else wrap (buffer.head + dropped) buffer.ring.capacity
    ready := buffer.ready - dropped
    early := buffer.early.map fun extent => ⟨extent.start - dropped, extent.stop - dropped⟩ }

/-- Reads at most `count` bytes; going round the end of the ring takes a second turn of the loop
of the source. -/
def read (count : Nat) : List Byte × RecvBuffer :=
  let taken := min count buffer.ready
  ((List.range taken).map fun i =>
    buffer.ring.bytes (wrap (buffer.head + i) buffer.ring.capacity), buffer.consume taken)

end

/-- The extents that do not touch `low..high`, and the extent with all that do. -/
def merge (low high : Nat) : List Extent → List Extent × Nat × Nat
  | [] => ([], low, high)
  | extent :: rest =>
    if extent.stop < low ∨ high < extent.start then
      let (kept, low, high) := merge low high rest
      (extent :: kept, low, high)
    else merge (min low extent.start) (max high extent.stop) rest

/-- Remembers an early run; one that does not fit is forgotten. -/
def remember (early : List Extent) (start stop : Nat) : List Extent :=
  let (kept, low, high) := merge start stop early
  if kept.length < maxHoles then
    kept.takeWhile (fun extent => !decide (low < extent.start)) ++ ⟨low, high⟩ ::
      kept.dropWhile (fun extent => !decide (low < extent.start))
  else kept

def absorb (ready : Nat) : List Extent → Nat × List Extent
  | [] => (ready, [])
  | extent :: rest =>
    if ready < extent.start then (ready, extent :: rest) else absorb (max ready extent.stop) rest

def accept (buffer : RecvBuffer) (offset : Nat) (data : List Byte) : RecvBuffer :=
  let capacity := buffer.ring.capacity
  if capacity ≤ offset then buffer
  else
    let stop := min (offset + data.length) capacity
    let buffer := { buffer with
      ring := buffer.ring.write (wrap (buffer.head + offset) capacity)
        (data.take (stop - offset)) }
    if offset ≤ buffer.ready then
      let (ready, early) := absorb (max buffer.ready stop) buffer.early
      { buffer with ready := ready, early := early }
    else { buffer with early := remember buffer.early offset stop }

end RecvBuffer

/-! ## The retransmission timeout -/

def Rto.initial : Duration := 1000000
def Rto.minimum : Duration := 1000000
def Rto.maximum : Duration := 60000000

/-- The estimate a connection waits by; the timeout before any backoff lies between the floor and
the ceiling. -/
structure Rto where
  smoothed : Option Duration
  variation : Duration
  base : Duration
  attempts : Nat
  base_ge : Rto.minimum ≤ base
  base_le : base ≤ Rto.maximum

namespace Rto

def new : Rto := ⟨none, 0, initial, 0, le_rfl, by decide⟩

variable (rto : Rto)

/-- The timeout in force. A shift by the width of the word or more is the largest value, and
one below it drops the bits that leave the word. -/
def get : Duration :=
  min (if rto.attempts < 64 then rto.base * 2 ^ rto.attempts % 2 ^ 64 else u64Max) maximum

def sample (rtt : Duration) : Rto :=
  let smoothed := match rto.smoothed with
    | none => rtt
    | some previous => sat64 (sat64 (previous * 7) + rtt) / 8
  let variation := match rto.smoothed with
    | none => rtt / 2
    | some previous => sat64 (sat64 (rto.variation * 3) + (max previous rtt - min previous rtt)) / 4
  ⟨some smoothed, variation,
    min (max (sat64 (smoothed + sat64 (variation * 4))) minimum) maximum, 0,
    le_min (le_max_right _ _) (by decide), min_le_right _ _⟩

def backOff : Rto := { rto with attempts := sat32 (rto.attempts + 1) }

end Rto

/-! ## The congestion window -/

structure Congestion where
  window : Nat
  threshold : Nat
  maxSegment : Nat
  duplicates : Nat
  recoveringUntil : Option SeqNumber

namespace Congestion

def duplicateThreshold : Nat := 3

variable (maxSegment : Nat)

def initialWindow : Nat :=
  sat32 (maxSegment * if 2190 < maxSegment then 2 else if 1095 < maxSegment then 3 else 4)

def new : Congestion := ⟨initialWindow maxSegment, u32Max, maxSegment, 0, none⟩

section

variable (congestion : Congestion)

def setMaxSegment (maxSegment : Nat) : Congestion :=
  { congestion with maxSegment := maxSegment, window := initialWindow maxSegment }

/-- How much the window grows on an acknowledgment outside recovery. -/
def growth (acked : Nat) : Nat :=
  if congestion.window < congestion.threshold then min acked congestion.maxSegment
  else max 1 (sat32 (congestion.maxSegment * congestion.maxSegment) / congestion.window)

def onAck (acked : Nat) : Congestion :=
  match congestion.recoveringUntil with
  | some _ =>
    { congestion with duplicates := 0, recoveringUntil := none, window := congestion.threshold }
  | none =>
    { congestion with
      duplicates := 0, window := sat32 (congestion.window + congestion.growth acked) }

variable (inFlight : Nat)

def halved : Nat :=
  max (inFlight / 2) (sat32 (congestion.maxSegment * 2))

/-- Answers whether this duplicate is the third. -/
def onDuplicateAck (highest : SeqNumber) : Bool × Congestion :=
  let congestion := { congestion with duplicates := sat32 (congestion.duplicates + 1) }
  if congestion.recoveringUntil.isSome then
    (false, { congestion with window := sat32 (congestion.window + congestion.maxSegment) })
  else if congestion.duplicates < duplicateThreshold then (false, congestion)
  else
    (true, { congestion with
      threshold := congestion.halved inFlight
      window := sat32 (congestion.halved inFlight + sat32 (congestion.maxSegment * 3))
      recoveringUntil := some highest })

def onTimeout : Congestion :=
  { congestion with
    threshold := congestion.halved inFlight
    window := congestion.maxSegment
    duplicates := 0
    recoveringUntil := none }

end

end Congestion

end Audhsos.Tcp
