import Audhsos.Ip.Reassembler

/-!
The IPv4 header: a datagram read from the bytes it arrived in, and the header this host writes. The
checksum goes in as zero and is filled in once the header stands.
-/

namespace Audhsos.Ip

open Wire Lib Prog Reader
open BitVec (ofNat)
open Tcp (Instant)

def minHeaderLen : Nat := 20

def checksumOffset : Nat := 10

def flagDontFragment : Word := 0x4000

def flagMoreFragments : Word := 0x2000

def offsetMask : Word := 0x1FFF

/-- The unit the offset field counts in. -/
def fragmentUnit : Nat := 8

/-- Runs a program of the wire format and passes its error on. -/
def wired {σ α : Type} (m : Prog WireError σ α) : Prog IpError σ α :=
  zoom id (fun s _ => s) IpError.wire m

/-! ## Reading -/

structure Datagram where
  header : List Byte
  payload : List Byte
  source : BitVec 32
  destination : BitVec 32
  protocol : Protocol
  ttl : Byte
  identification : Word
  flagsAndOffset : Word
deriving DecidableEq

namespace Datagram

variable (datagram : Datagram)

def moreFragments : Bool :=
  datagram.flagsAndOffset &&& flagMoreFragments ≠ 0

def fragmentOffset : Nat :=
  ((datagram.flagsAndOffset &&& offsetMask) * 8).toNat

def isFragment : Bool :=
  datagram.moreFragments || datagram.fragmentOffset != 0

variable (bytes : List Byte)

/-- The fields of the header, with the checks between them, and the length of the header and of
the datagram. -/
def readFields : Prog IpError Reader (Datagram × Nat × Nat × Word) := do
  let versionAndLength ← wired readU8
  require (versionAndLength >>> 4 = 4) (.version (versionAndLength >>> 4))
  let words := versionAndLength &&& 0x0F
  let headerLen := words.toNat * 4
  require (minHeaderLen ≤ headerLen ∧ headerLen ≤ bytes.length) (.headerLength words)
  let _differentiatedServices ← wired readU8
  let totalLength ← wired readU16
  let total := totalLength.toNat
  require (headerLen ≤ total ∧ total ≤ bytes.length) (.totalLength total)
  let identification ← wired readU16
  let flagsAndOffset ← wired readU16
  let ttl ← wired readU8
  let protocol ← wired readU8
  let carried ← wired readU16
  let source ← wired readU32
  let destination ← wired readU32
  pure (⟨bytes.take headerLen, (bytes.take total).drop headerLen, source, destination, protocol,
    ttl, identification, flagsAndOffset⟩, headerLen, total, carried)

def parse : Except IpError Datagram :=
  match (readFields bytes (new bytes)).1 with
  | .error error => .error error
  | .ok (datagram, _, _, carried) =>
    if isValid datagram.header then .ok datagram else .error (.checksum carried)

end Datagram

def Piece.of (datagram : Datagram) : Piece where
  source := .v4 datagram.source
  destination := .v4 datagram.destination
  protocol := datagram.protocol
  identification := datagram.identification.setWidth 32
  offset := datagram.fragmentOffset
  more := datagram.moreFragments
  payload := datagram.payload

/-- Takes one datagram in, and answers its payload when it is whole or completed one. -/
def Reassembler.accept {slots bytes : Nat} (r : Reassembler slots bytes) (datagram : Datagram)
    (now : Instant) : Except IpError (Option (List Byte)) × Reassembler slots bytes :=
  if datagram.isFragment then r.acceptPiece (Piece.of datagram) now
  else (.ok (some datagram.payload), r)

/-! ## Writing -/

structure Header where
  source : BitVec 32
  destination : BitVec 32
  protocol : Protocol
  ttl : Byte
  identification : Word
  dontFragment : Bool
  moreFragments : Bool
  fragmentOffset : Nat
  payloadLen : Nat

namespace Header

section

variable (header : Header)
include header

/-- The flags and the offset as the header carries them. An offset beyond sixteen bits is written
as the largest one, and one beyond thirteen bits loses its high bits. -/
def flagsAndOffset : Word :=
  let units := header.fragmentOffset / fragmentUnit
  let offset := (if units < 2 ^ 16 then ofNat 16 units else offsetMask) &&& offsetMask
  let flags := if header.dontFragment then offset ||| flagDontFragment else offset
  if header.moreFragments then flags ||| flagMoreFragments else flags

/-- The fields in the order they stand in. -/
def writeFields (totalLength : Word) : Prog IpError Writer Unit := do
  wired (Writer.writeU8 0x45)
  wired (Writer.writeU8 0)
  wired (Writer.writeU16 totalLength)
  wired (Writer.writeU16 header.identification)
  wired (Writer.writeU16 header.flagsAndOffset)
  wired (Writer.writeU8 header.ttl)
  wired (Writer.writeU8 header.protocol)
  wired (Writer.writeU16 0)
  wired (Writer.writeU32 header.source)
  wired (Writer.writeU32 header.destination)

def write : Prog IpError Writer Unit := do
  let total := minHeaderLen + header.payloadLen
  require (total < 2 ^ 16) (.totalLength (2 ^ 16 - 1))
  let writer ← Prog.get
  require (minHeaderLen ≤ writer.remaining)
    (.wire (.outOfBounds minHeaderLen writer.remaining))
  header.writeFields (ofNat 16 total)
  let after ← Prog.get
  wired (Writer.patchU16 (writer.position + checksumOffset)
    (checksum (after.written.drop writer.position)))

/-- The bytes before the checksum. -/
def encodeFront : List Byte :=
  [0x45] ++ ([0] ++ (wordBytes (ofNat 16 (minHeaderLen + header.payloadLen)) ++
    (wordBytes header.identification ++ (wordBytes header.flagsAndOffset ++
      ([header.ttl] ++ [header.protocol])))))

/-- The bytes behind the checksum. -/
def encodeBack : List Byte :=
  doubleWordBytes header.source ++ doubleWordBytes header.destination

def encode (sum : Word) : List Byte :=
  header.encodeFront ++ wordBytes sum ++ header.encodeBack

/-- The bytes of a header with the checksum it gets. -/
def encoded : List Byte := header.encode (checksum (header.encode 0))

end

variable (header : Header)

theorem length_encodeFront : header.encodeFront.length = checksumOffset := by
  simp [encodeFront, wordBytes, checksumOffset]

theorem length_encode (sum : Word) : (header.encode sum).length = minHeaderLen := by
  simp [encode, encodeBack, length_encodeFront, wordBytes, doubleWordBytes, checksumOffset,
    minHeaderLen]

theorem encode_eq (sum : Word) : header.encode sum = [0x45] ++ ([0] ++ (wordBytes
    (ofNat 16 (minHeaderLen + header.payloadLen)) ++ (wordBytes header.identification ++
    (wordBytes header.flagsAndOffset ++ ([header.ttl] ++ ([header.protocol] ++ (wordBytes sum ++
    (doubleWordBytes header.source ++ doubleWordBytes header.destination)))))))) := by
  simp [encode, encodeFront, encodeBack]

theorem puts_wired {m : Prog WireError Writer Unit} {data : List Byte} (h : Writer.Puts m data) :
    Writer.Puts (wired m) data := by
  intro writer hroom
  unfold wired zoom
  simp [h writer hroom, Except.mapError]

theorem puts_bytes (data : List Byte) : Writer.Puts (wired (Writer.writeBytes data)) data :=
  puts_wired (Writer.puts_writeBytes data)

theorem puts_writeFields :
    Writer.Puts (header.writeFields (ofNat 16 (minHeaderLen + header.payloadLen)))
      (header.encode 0) := by
  have hputs := (puts_bytes [0x45]).bind ((puts_bytes [0]).bind ((puts_bytes (wordBytes
    (ofNat 16 (minHeaderLen + header.payloadLen)))).bind ((puts_bytes (wordBytes
    header.identification)).bind ((puts_bytes (wordBytes header.flagsAndOffset)).bind
    ((puts_bytes [header.ttl]).bind ((puts_bytes [header.protocol]).bind ((puts_bytes
    (wordBytes 0)).bind ((puts_bytes (doubleWordBytes header.source)).bind
    (puts_bytes (doubleWordBytes header.destination))))))))))
  rw [encode_eq]
  exact hputs

theorem write_run {writer : Writer}
    (htotal : minHeaderLen + header.payloadLen < 2 ^ 16) (hroom : minHeaderLen ≤ writer.remaining) :
    header.write writer = (.ok (), writer.put header.encoded) := by
  have hfits : ∀ sum, writer.position + (header.encode sum).length ≤ writer.bytes.length := by
    intro sum
    rw [length_encode]
    unfold Writer.remaining minHeaderLen at *
    omega
  have hfields := puts_writeFields header writer (hfits 0)
  have hwritten := Writer.written_put writer (hfits 0)
  have hpatch : ∀ sum, wired (Writer.patchU16 (writer.position + checksumOffset) sum)
      (writer.put (header.encode 0)) = (.ok (), writer.put (header.encode sum)) := by
    intro sum
    have hput := Writer.patchU16_put sum writer (hfits 0)
    rw [length_encodeFront] at hput
    unfold wired zoom
    rw [id_eq, encode, hput]
    rfl
  unfold write
  rw [run_bind_ok (run_require htotal _ writer), run_bind_ok (run_get writer)]
  rw [run_bind_ok (run_require hroom _ writer), run_bind_ok hfields]
  rw [run_bind_ok (run_get (writer.put (header.encode 0))), hwritten]
  exact hpatch _

theorem isValid_encoded : isValid header.encoded = true := by
  have h := isValid_stored (show header.encodeFront.length % 2 = 0 by
    rw [length_encodeFront]; rfl) header.encodeBack
  unfold encoded encode
  simpa [wordBytes, highByte, lowByte] using h

theorem write_ok {header : Header} {writer after : Writer}
    (h : header.write writer = (.ok (), after)) :
    minHeaderLen + header.payloadLen < 2 ^ 16 ∧ minHeaderLen ≤ writer.remaining := by
  unfold write at h
  obtain ⟨_, _, hfirst, hrest⟩ := ok_of_bind h
  obtain ⟨htotal, rfl⟩ := of_require hfirst
  obtain ⟨_, _, hget, hlater⟩ := ok_of_bind hrest
  cases hget
  obtain ⟨_, _, hroom, -⟩ := ok_of_bind hlater
  exact ⟨htotal, (of_require hroom).1⟩

end Header

/-! ## Reading back -/

theorem takes_wired {α : Type} {m : Prog WireError Reader α} {data : List Byte} {value : α}
    (h : Takes m data value) : Takes (wired m) data value := by
  intro bytes front back hbytes
  unfold wired zoom
  simp [h bytes front back hbytes, Except.mapError]

namespace Header

/-- The datagram a header and a payload are read as. -/
def datagram (header : Header) (payload : List Byte) : Datagram where
  header := header.encoded
  payload
  source := header.source
  destination := header.destination
  protocol := header.protocol
  ttl := header.ttl
  identification := header.identification
  flagsAndOffset := header.flagsAndOffset

theorem parse_encoded (header : Header) {payload : List Byte}
    (hlength : payload.length = header.payloadLen)
    (htotal : minHeaderLen + header.payloadLen < 2 ^ 16) :
    Datagram.parse (header.encoded ++ payload) = .ok (header.datagram payload) := by
  have hencoded : header.encoded.length = minHeaderLen := length_encode header _
  have hword : (ofNat 16 (minHeaderLen + header.payloadLen)).toNat =
      minHeaderLen + header.payloadLen := by
    rw [BitVec.toNat_ofNat, Nat.mod_eq_of_lt htotal]
  have hwhole : (header.encoded ++ payload).length = minHeaderLen + header.payloadLen := by
    rw [List.length_append, hencoded, hlength]
  have hreads : Takes (Datagram.readFields (header.encoded ++ payload)) header.encoded
      (header.datagram payload, minHeaderLen, minHeaderLen + header.payloadLen,
        checksum (header.encode 0)) := by
    have hfields : header.encoded = _ := header.encode_eq _
    rw [← List.append_nil (doubleWordBytes header.destination)] at hfields
    conv => arg 2; rw [hfields]
    refine (takes_wired (takes_readU8 0x45)).bind (.guard (by decide) (.guard ?_ ?_))
    · rw [hwhole]
      exact ⟨by decide, Nat.le_add_right _ _⟩
    refine (takes_wired (takes_readU8 0)).bind ((takes_wired (takes_readU16 _)).bind (.guard ?_ ?_))
    · rw [hwhole, hword]
      exact ⟨Nat.le_add_right _ _, le_rfl⟩
    refine (takes_wired (takes_readU16 _)).bind ((takes_wired (takes_readU16 _)).bind
      ((takes_wired (takes_readU8 _)).bind ((takes_wired (takes_readU8 _)).bind
      ((takes_wired (takes_readU16 _)).bind ((takes_wired (takes_readU32 _)).bind
      ((takes_wired (takes_readU32 _)).bind ?_))))))
    have hlen : ((0x45 : Byte) &&& 0x0F).toNat * 4 = header.encoded.length := by
      rw [hencoded]
      decide
    rw [hlen, hword, ← hwhole, List.take_length, List.take_left, List.drop_left]
    rw [hencoded]
    exact takes_pure _
  have hrun := hreads (header.encoded ++ payload) [] payload rfl
  unfold Datagram.parse new
  rw [show (0 : Nat) = ([] : List Byte).length from rfl, hrun]
  dsimp only
  rw [if_pos (show isValid (header.datagram payload).header = true from header.isValid_encoded)]

end Header

end Audhsos.Ip
