import Audhsos.Wire.Transport

/-!
Putting a datagram back together. A reassembler holds a few buffers, one for each datagram that is
half assembled; when every slot is busy a new one evicts the one closest to its deadline.
-/

namespace Audhsos.Ip

open Wire List
open Tcp (IpAddr Instant Duration)

inductive IpError where
  | wire (error : WireError)
  | version (version : Byte)
  | headerLength (words : Byte)
  | totalLength (length : Nat)
  | checksum (carried : Word)
  | wouldFragment (length mtu : Nat)
  | noRoute
  | overlappingFragment
  | tooLarge (length : Nat)
deriving DecidableEq

structure Key where
  source : IpAddr
  destination : IpAddr
  protocol : Protocol
  identification : BitVec 32
deriving DecidableEq

structure Piece where
  source : IpAddr
  destination : IpAddr
  protocol : Protocol
  identification : BitVec 32
  offset : Nat
  more : Bool
  payload : List Byte
deriving DecidableEq

namespace Piece

variable (piece : Piece)

def key : Key :=
  ⟨piece.source, piece.destination, piece.protocol, piece.identification⟩

/-- Where the piece ends. A sum beyond the machine word saturates in the source, beyond the
length of every buffer, and is refused all the same. -/
def stop : Nat := piece.offset + piece.payload.length

def range : Nat × Nat := (piece.offset, piece.stop)

end Piece

def maxRanges : Nat := 64

/-- One datagram being put back together, in a buffer of so many bytes. -/
structure Buffer (bytes : Nat) where
  key : Key
  deadline : Instant
  data : List Byte
  filled : List (Nat × Nat)
  total : Option Nat
  length_data : data.length = bytes

/-- The data with a slice of it replaced. -/
def copyInto (data : List Byte) (start : Nat) (payload : List Byte) : List Byte :=
  data.take start ++ payload ++ data.drop (start + payload.length)

section

variable {data payload : List Byte} {start : Nat} (h : start + payload.length ≤ data.length)
include h

theorem length_copyInto : (copyInto data start payload).length = data.length := by
  simp only [copyInto, length_append, length_take, length_drop]
  omega

theorem getElem?_copyInto (i : Nat) :
    (copyInto data start payload)[i]? =
      if start ≤ i ∧ i < start + payload.length then payload[i - start]? else data[i]? := by
  have htake : (data.take start).length = start := by
    rw [length_take]
    omega
  unfold copyInto
  rw [append_assoc]
  by_cases hlow : i < start
  · rw [getElem?_append_left (by omega), getElem?_take_of_lt hlow, if_neg (by omega)]
  rw [getElem?_append_right (by omega), htake]
  by_cases hhigh : i < start + payload.length
  · rw [getElem?_append_left (by omega), if_pos (by omega)]
  · rw [getElem?_append_right (by omega), getElem?_drop, if_neg (by omega)]
    congr 1
    omega

end

namespace Buffer

variable {bytes : Nat}

/-- Whether the bytes from `start` to `stop` meet a range that is filled. -/
def meets (start stop : Nat) (range : Nat × Nat) : Bool := start < range.2 ∧ range.1 < stop

variable (buffer : Buffer bytes)

/-- Puts the bytes of one piece in. A piece that meets a filled range is a duplicate of it or is
refused. -/
def insert (piece : Piece) (hend : piece.stop ≤ bytes) : Except IpError Unit × Buffer bytes :=
  match buffer.filled.find? (meets piece.offset piece.stop) with
  | some (start, stop) =>
    if piece.offset = start ∧ piece.stop = stop ∧
        (buffer.data.drop piece.offset).take piece.payload.length = piece.payload then
      (.ok (), buffer)
    else (.error .overlappingFragment, buffer)
  | none =>
    let copied : Buffer bytes := { buffer with
      data := copyInto buffer.data piece.offset piece.payload
      length_data := by
        have hlength := buffer.length_data
        rw [length_copyInto (by unfold Piece.stop at hend; omega), hlength] }
    if buffer.filled.length < maxRanges then
      (.ok (), { copied with
        filled := buffer.filled ++ [piece.range]
        total := if piece.more then buffer.total else some piece.stop })
    else (.error (.tooLarge piece.stop), copied)

/-- How far the run from zero reaches with one more range, and whether it got longer. -/
def advance (run : Nat × Bool) (range : Nat × Nat) : Nat × Bool :=
  if range.1 ≤ run.1 ∧ run.1 < range.2 then (range.2, true) else run

def pass (filled : List (Nat × Nat)) (reached : Nat) : Nat × Bool :=
  filled.foldl advance (reached, false)

/-- Passes over the ranges until one makes no progress. -/
def reach (filled : List (Nat × Nat)) : Nat → Nat → Nat
  | 0, reached => reached
  | passes + 1, reached =>
    match pass filled reached with
    | (reached, true) => reach filled passes reached
    | (reached, false) => reached

/-- Whether every byte from zero to the total length has arrived. Every pass that makes progress
reaches the end of a further range, so one pass more than there are ranges is enough. -/
def isComplete : Bool :=
  match buffer.total with
  | none => false
  | some total => total ≤ reach buffer.filled (buffer.filled.length + 1) 0

end Buffer

/-- The reassembly buffers: at most `slots` of `bytes` bytes. -/
structure Reassembler (slots bytes : Nat) where
  buffers : List (Buffer bytes)
  timeout : Duration

namespace Reassembler

variable {slots bytes : Nat}

def withTimeout (timeout : Duration) : Reassembler slots bytes := ⟨[], timeout⟩

variable (r : Reassembler slots bytes)

def poll (now : Instant) : Reassembler slots bytes :=
  { r with buffers := r.buffers.filter fun buffer => !decide (buffer.deadline ≤ now) }

/-- The place of the buffer closest to its deadline, the first of those. -/
def oldest : List (Buffer bytes) → Option Nat
  | [] => none
  | buffer :: rest =>
    match oldest rest with
    | none => some 0
    | some index =>
      if (rest.map (·.deadline)).getD index 0 < buffer.deadline then some (index + 1) else some 0

def fresh (key : Key) (deadline : Instant) : Buffer bytes where
  key
  deadline
  data := replicate bytes 0
  filled := []
  total := none
  length_data := length_replicate

def slotFor (key : Key) (deadline : Instant) : Except IpError Nat × Reassembler slots bytes :=
  match r.buffers.findIdx? (·.key = key) with
  | some index => (.ok index, r)
  | none =>
    let kept? := if slots ≤ r.buffers.length then (oldest r.buffers).map r.buffers.eraseIdx
      else some r.buffers
    match kept? with
    | none => (.error .noRoute, r)
    | some kept =>
      if kept.length < slots then
        (.ok kept.length, { r with buffers := kept ++ [fresh key deadline] })
      else (.error .noRoute, { r with buffers := kept })

/-- Takes one piece in, and answers the whole payload when this piece completed it. -/
def acceptPiece (piece : Piece) (now : Instant) :
    Except IpError (Option (List Byte)) × Reassembler slots bytes :=
  if hend : piece.stop ≤ bytes then
    match r.slotFor piece.key (now.saturatingAdd r.timeout) with
    | (.error error, r) => (.error error, r)
    | (.ok index, r) =>
      match r.buffers[index]? with
      | none => (.error .noRoute, r)
      | some buffer =>
        match buffer.insert piece hend with
        | (.error error, buffer) => (.error error, { r with buffers := r.buffers.set index buffer })
        | (.ok (), buffer) =>
          let r := { r with buffers := r.buffers.set index buffer }
          if buffer.isComplete then
            let total := buffer.total.getD 0
            if total ≤ bytes then (.ok (some (buffer.data.take total)), r)
            else (.error (.tooLarge total), r)
          else (.ok none, r)
  else (.error (.tooLarge piece.stop), r)

def releasePiece (piece : Piece) : Reassembler slots bytes :=
  match r.buffers.findIdx? (·.key = piece.key) with
  | some index => { r with buffers := r.buffers.eraseIdx index }
  | none => r

end Reassembler

end Audhsos.Ip
