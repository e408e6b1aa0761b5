import Audhsos.Tcp.Parts
import Audhsos.Wire.Cursor

/-!
The checksum of a transport segment: the sum starts with a pseudo-header of the two addresses, the
protocol and the length of the segment, and goes on with the segment.
-/

namespace Audhsos.Wire

open Lib
open Tcp (IpAddr)

abbrev Protocol := Byte

def Protocol.tcp : Protocol := 6

def ipv4Octets (bits : BitVec 32) : List Byte := doubleWordBytes bits

def ipv6Octets (bits : BitVec 128) : List Byte :=
  (List.range 16).map fun i => bits.extractLsb' (8 * (15 - i)) 8

namespace Checksum

def addPseudoHeaderV4 (c : Checksum) (source destination : BitVec 32) (protocol : Protocol)
    (length : Word) : Checksum :=
  (((c.addBytes (ipv4Octets source)).addBytes (ipv4Octets destination)).addWord
    (fromBytes 0 protocol)).addWord length

def addPseudoHeaderV6 (c : Checksum) (source destination : BitVec 128) (nextHeader : Protocol)
    (length : DoubleWord) : Checksum :=
  ((((c.addBytes (ipv6Octets source)).addBytes (ipv6Octets destination)).addBytes
    (doubleWordBytes length)).addWord 0).addWord (fromBytes 0 nextHeader)

end Checksum

def transportV4 (source destination : BitVec 32) (protocol : Protocol) (segment : List Byte) :
    Except WireError Word :=
  if segment.length < 2 ^ 16 then
    .ok (((Checksum.new.addPseudoHeaderV4 source destination protocol
      (BitVec.ofNat 16 segment.length)).addBytes segment).finish)
  else .error (.length segment.length)

def transportV6 (source destination : BitVec 128) (nextHeader : Protocol)
    (segment : List Byte) : Except WireError Word :=
  if segment.length < 2 ^ 32 then
    .ok (((Checksum.new.addPseudoHeaderV6 source destination nextHeader
      (BitVec.ofNat 32 segment.length)).addBytes segment).finish)
  else .error (.length segment.length)

variable (source destination : IpAddr) (protocol : Protocol)

/-- The checksum of a segment over the family the two addresses belong to. -/
def transport (segment : List Byte) : Except WireError Word :=
  match source, destination with
  | .v4 source, .v4 destination => transportV4 source destination protocol segment
  | .v6 source, .v6 destination => transportV6 source destination protocol segment
  | _, _ => .error .mixedFamilies

/-! ## The sum as one string -/

/-- The bytes summed before a segment of `length` bytes. -/
def pseudoHeader (length : Nat) : List Byte :=
  match source, destination with
  | .v4 source, .v4 destination =>
    ipv4Octets source ++ ipv4Octets destination ++ [0, protocol] ++
      wordBytes (BitVec.ofNat 16 length)
  | .v6 source, .v6 destination =>
    ipv6Octets source ++ ipv6Octets destination ++ doubleWordBytes (BitVec.ofNat 32 length) ++
      [0, 0] ++ [0, protocol]
  | _, _ => []

/-- How long a segment the length field of the pseudo-header can name. -/
def lengthLimit : IpAddr → Nat
  | .v4 _ => 2 ^ 16
  | .v6 _ => 2 ^ 32

theorem even_pseudoHeader (length : Nat) :
    (pseudoHeader source destination protocol length).length % 2 = 0 := by
  cases source <;> cases destination <;>
    simp [pseudoHeader, ipv4Octets, ipv6Octets, doubleWordBytes, wordBytes]

theorem wordBytes_zero : wordBytes 0 = [0, 0] := by decide

theorem Fed.finish_eq {c : Checksum} {data : List Byte} (h : Fed c data) :
    c.finish = checksum data := by
  apply BitVec.eq_of_toNat_eq
  rw [h.finish, checksum_toNat]

theorem fed_byte (c : Checksum) (data : List Byte) (h : Fed c data) (byte : Byte) :
    Fed (c.addWord (fromBytes 0 byte)) (data ++ [0, byte]) := by
  have hword := h.addWord (fromBytes 0 byte)
  rwa [(bytes_fromBytes 0 byte).1, (bytes_fromBytes 0 byte).2] at hword

variable {source destination : IpAddr}

/-- The checksum of a segment is that of the pseudo-header and the segment as one string. -/
theorem transport_eq (hversion : source.version = destination.version)
    (protocol : Protocol) (segment : List Byte) :
    transport source destination protocol segment =
      if segment.length < lengthLimit source then
        .ok (checksum (pseudoHeader source destination protocol segment.length ++ segment))
      else .error (.length segment.length) := by
  cases source with
  | v4 source =>
    cases destination with
    | v4 destination =>
      have hfirst := (fed_new.addBytes (ipv4Octets source)).addBytes (ipv4Octets destination)
      have hfed := ((fed_byte _ _ hfirst protocol).addWord
        (BitVec.ofNat 16 segment.length)).addBytes segment
      exact congrArg (fun sum : Word => if segment.length < 2 ^ 16 then Except.ok sum
        else .error (WireError.length segment.length)) hfed.finish_eq
    | v6 destination => cases hversion
  | v6 source =>
    cases destination with
    | v4 destination => cases hversion
    | v6 destination =>
      have hfirst := (fed_new.addBytes (ipv6Octets source)).addBytes (ipv6Octets destination)
      have hlength := (hfirst.addBytes (doubleWordBytes (BitVec.ofNat 32 segment.length))).addWord 0
      have hfed := (fed_byte _ _ hlength protocol).addBytes segment
      exact congrArg (fun sum : Word => if segment.length < 2 ^ 32 then Except.ok sum
        else .error (WireError.length segment.length)) hfed.finish_eq

theorem checksum_stored {header front : List Byte} (heven : (header ++ front).length % 2 = 0)
    (back : List Byte) :
    checksum (header ++ (front ++
      wordBytes (checksum (header ++ (front ++ wordBytes 0 ++ back))) ++ back)) = 0 := by
  have hvalid := isValid_stored heven back
  have hzero : header ++ (front ++ wordBytes 0 ++ back) = header ++ front ++ 0 :: 0 :: back := by
    rw [wordBytes_zero]
    simp
  rw [isValid, decide_eq_true_iff] at hvalid
  rw [hzero, wordBytes]
  simpa using hvalid

/-- The checksum stored in an even field of the segment that was zero makes the sum zero. -/
theorem transport_stored
    (hversion : source.version = destination.version) {protocol : Protocol} {sum : Word}
    {front back : List Byte} (heven : front.length % 2 = 0)
    (hsum : transport source destination protocol (front ++ wordBytes 0 ++ back) = .ok sum) :
    transport source destination protocol (front ++ wordBytes sum ++ back) = .ok 0 := by
  have hlength : (front ++ wordBytes sum ++ back).length = (front ++ wordBytes 0 ++ back).length :=
    by simp [wordBytes]
  have hpseudo := even_pseudoHeader source destination protocol
    (front ++ wordBytes 0 ++ back).length
  rw [transport_eq hversion] at hsum
  rw [transport_eq hversion, hlength]
  split at hsum
  next hfits =>
    rw [if_pos hfits]
    cases hsum
    rw [checksum_stored (by rw [List.length_append]; omega)]
  next => cases hsum

end Audhsos.Wire
