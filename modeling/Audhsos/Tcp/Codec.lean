import Audhsos.Tcp.Connection
import Audhsos.Wire.Transport

/-!
Segments as bytes. `write` puts header, option and payload and then the checksum; `parse` reads them
back. Between the two stands `encode`, the bytes with a given checksum.
-/

namespace Audhsos.Tcp

open Lib Wire Prog List Flags
open Wire.Protocol (tcp)
open Wire.Writer (patchU16 put remaining writeBytes writeU16 writeU32 writeU8 written_put)
open Wire.Reader (readU16 readU32 readU8 takes_readU16)
open BitVec (ofNat)

namespace Segment

def minDataOffset : Nat := 5
def maxDataOffset : Nat := 15
def checksumOffset : Nat := 16

/-! ## Parsing -/

/-- Walks the option list and answers the maximum segment size it announces last. -/
def walkOptions (found : Option (BitVec 16)) (options : List Byte) :
    Except TcpError (Option (BitVec 16)) :=
  match options with
  | [] => .ok found
  | kind :: tail =>
    if kind = OptionKind.endOfList then .ok found
    else if kind = OptionKind.nop then walkOptions found tail
    else
      match tail with
      | [] => .error (.badOption kind)
      | length :: rest =>
        if length < OptionKind.minLen then .error (.badOption kind)
        else if (kind :: length :: rest).length < length.toNat then .error (.badOption kind)
        else
          let body := (kind :: length :: rest).take length.toNat
          let found :=
            if kind = OptionKind.maxSegmentSize ∧ length = OptionKind.maxSegmentSizeLen then
              match (body.drop 2).take 2 with
              | [high, low] => some (fromBytes high low)
              | _ => none
            else found
          walkOptions found ((kind :: length :: rest).drop length.toNat)
termination_by options.length
decreasing_by
  · simp
  · have hlen : 2 ≤ length.toNat := le_of_not_gt ‹¬ length < OptionKind.minLen›
    simp only [length_drop, length_cons]
    omega

def readMaxSegmentSize (options : List Byte) : Except TcpError (Option (BitVec 16)) :=
  walkOptions none options

structure Header where
  sourcePort : Port
  destinationPort : Port
  seq : SeqNumber
  ack : SeqNumber
  offsetAndReserved : Byte
  flags : Flags
  window : BitVec 16
  carried : BitVec 16

def readHeader : Prog Wire.WireError Wire.Reader Header := do
  let sourcePort ← readU16
  let destinationPort ← readU16
  let seq ← readU32
  let ack ← readU32
  let offsetAndReserved ← readU8
  let flags ← readU8
  let window ← readU16
  let carried ← readU16
  let _urgent ← readU16
  pure ⟨sourcePort, destinationPort, seq, ack, offsetAndReserved, flags, window, carried⟩

def Header.words (header : Header) : Nat := (header.offsetAndReserved >>> 4).toNat

variable (bytes : List Byte) (source destination : IpAddr)

/-- The part of `parse` behind the fixed header. -/
def parseBehind (header : Header) : Except TcpError Segment :=
  if ¬ (minDataOffset ≤ header.words ∧ header.words ≤ maxDataOffset) then
    .error (.dataOffset header.words)
  else if bytes.length < header.words * 4 then .error (.dataOffset header.words)
  else
    match transport source destination tcp bytes with
    | .error error => .error (.wire error)
    | .ok sum =>
      if sum ≠ 0 then .error (.checksum header.carried)
      else
        -- the list is walked whether or not the value is kept
        match readMaxSegmentSize ((bytes.take (header.words * 4)).drop headerSize) with
        | .error error => .error error
        | .ok announced =>
          .ok {
            sourcePort := header.sourcePort
            destinationPort := header.destinationPort
            seq := header.seq
            ack := header.ack
            flags := header.flags
            window := header.window
            maxSegmentSize := if header.flags.has syn then announced else none
            payload := bytes.drop (header.words * 4) }

def parse : Except TcpError Segment :=
  if source.version ≠ destination.version then .error .mixedFamilies
  else if bytes.length < headerSize then .error (.short bytes.length)
  else
    match (readHeader (Wire.Reader.new bytes)).1 with
    | .error error => .error (.wire error)
    | .ok header => parseBehind bytes source destination header

/-! ## Writing -/

variable (segment : Segment)

def wired {α : Type} (m : Prog Wire.WireError Wire.Writer α) : Prog TcpError Wire.Writer α :=
  zoom id (fun writer _ => writer) TcpError.wire m

def writeOption : Option (BitVec 16) → Prog TcpError Wire.Writer Unit
  | some size => do
    wired (writeU8 OptionKind.maxSegmentSize)
    wired (writeU8 OptionKind.maxSegmentSizeLen)
    wired (writeU16 size)
  | none => pure ()

/-- Everything that is written before the checksum. -/
def writeParts : Prog TcpError Wire.Writer Unit := do
  wired (writeU16 segment.sourcePort)
  wired (writeU16 segment.destinationPort)
  wired (writeU32 segment.seq)
  wired (writeU32 segment.ack)
  wired (writeU8 (ofNat 8 (segment.headerLen / 4) <<< 4))
  wired (writeU8 segment.flags)
  wired (writeU16 segment.window)
  wired (writeU16 0)
  wired (writeU16 0)
  writeOption segment.maxSegmentSize
  wired (writeBytes segment.payload)

def write (source destination : IpAddr) : Prog TcpError Wire.Writer Unit := do
  require (source.version = destination.version) .mixedFamilies
  let writer ← Prog.get
  require (segment.wireLen ≤ writer.remaining)
    (.wire (.outOfBounds segment.wireLen writer.remaining))
  segment.writeParts
  let after ← Prog.get
  let sum ← ofExcept ((transport source destination tcp
    (after.written.drop writer.position)).mapError TcpError.wire)
  wired (patchU16 (writer.position + checksumOffset) sum)

/-! ## The bytes of a segment -/

def encodeOption : Option (BitVec 16) → List Byte
  | some size => [OptionKind.maxSegmentSize, OptionKind.maxSegmentSizeLen] ++ wordBytes size
  | none => []

/-- The bytes before the checksum field. -/
def encodeFront : List Byte :=
  wordBytes segment.sourcePort ++ (wordBytes segment.destinationPort ++
    (doubleWordBytes segment.seq ++ (doubleWordBytes segment.ack ++
      ([ofNat 8 (segment.headerLen / 4) <<< 4] ++ ([segment.flags] ++
        wordBytes segment.window)))))

/-- The bytes behind the checksum field. -/
def encodeBack : List Byte :=
  wordBytes 0 ++ (encodeOption segment.maxSegmentSize ++ segment.payload)

def encode (sum : BitVec 16) : List Byte :=
  segment.encodeFront ++ wordBytes sum ++ segment.encodeBack

variable {segment : Segment} {source destination : IpAddr} {bytes : List Byte}
  {writer after : Wire.Writer}

variable (segment)

theorem length_encodeFront : segment.encodeFront.length = checksumOffset := by
  simp [encodeFront, wordBytes, doubleWordBytes, checksumOffset]

theorem length_encode (sum : BitVec 16) : (segment.encode sum).length = segment.wireLen := by
  unfold encode encodeBack wireLen headerLen encodeOption
  simp only [length_append, length_encodeFront]
  cases segment.maxSegmentSize <;>
    simp [wordBytes, checksumOffset, headerSize, OptionKind.maxSegmentSizeLen] <;> omega

theorem puts_wired {m : Prog Wire.WireError Wire.Writer Unit} {data : List Byte}
    (h : Wire.Writer.Puts m data) : Wire.Writer.Puts (wired m) data := by
  intro writer hroom
  unfold wired zoom
  simp [h writer hroom, Except.mapError]

theorem puts_bytes (data : List Byte) : Wire.Writer.Puts (wired (writeBytes data)) data :=
  puts_wired (Wire.Writer.puts_writeBytes data)

theorem puts_writeOption (size : Option (BitVec 16)) :
    Wire.Writer.Puts (writeOption size) (encodeOption size) := by
  cases size with
  | none =>
    intro writer _
    simp [writeOption, encodeOption, put, run_pure]
  | some size => exact (puts_bytes _).bind ((puts_bytes _).bind (puts_bytes _))

theorem puts_writeParts : Wire.Writer.Puts segment.writeParts (segment.encode 0) := by
  have h := (puts_bytes (wordBytes segment.sourcePort)).bind
    ((puts_bytes (wordBytes segment.destinationPort)).bind
      ((puts_bytes (doubleWordBytes segment.seq)).bind
        ((puts_bytes (doubleWordBytes segment.ack)).bind
          ((puts_bytes [ofNat 8 (segment.headerLen / 4) <<< 4]).bind
            ((puts_bytes [segment.flags]).bind
              ((puts_bytes (wordBytes segment.window)).bind
                ((puts_bytes (wordBytes 0)).bind
                  ((puts_bytes (wordBytes 0)).bind
                    ((puts_writeOption segment.maxSegmentSize).bind
                      (puts_bytes segment.payload))))))))))
  have hbytes : segment.encode 0 = wordBytes segment.sourcePort ++
      (wordBytes segment.destinationPort ++ (doubleWordBytes segment.seq ++
        (doubleWordBytes segment.ack ++ ([ofNat 8 (segment.headerLen / 4) <<< 4] ++
          ([segment.flags] ++ (wordBytes segment.window ++ (wordBytes 0 ++
            (wordBytes 0 ++ (encodeOption segment.maxSegmentSize ++
              segment.payload))))))))) := by
    simp only [encode, encodeFront, encodeBack, append_assoc]
  rw [hbytes]
  exact h

variable {segment}

/-- A segment there is room for is written whole, and then its checksum goes into its field. -/
theorem write_run (hversion : source.version = destination.version)
    (hroom : segment.wireLen ≤ writer.remaining) :
    segment.write source destination writer =
      match transport source destination tcp (segment.encode 0) with
      | .ok sum => (.ok (), writer.put (segment.encode sum))
      | .error error => (.error (.wire error), writer.put (segment.encode 0)) := by
  have hlong : headerSize ≤ segment.wireLen := by
    unfold wireLen headerLen
    split <;> omega
  have hfits : ∀ sum, writer.position + (segment.encode sum).length ≤ writer.bytes.length := by
    intro sum
    rw [length_encode]
    unfold remaining headerSize at *
    omega
  have hparts := puts_writeParts segment writer (hfits 0)
  have hwritten := written_put writer (hfits 0)
  have hpatch : ∀ sum, wired (patchU16 (writer.position + checksumOffset) sum)
      (writer.put (segment.encode 0)) = (.ok (), writer.put (segment.encode sum)) := by
    intro sum
    have hput := Wire.Writer.patchU16_put sum writer (hfits 0)
    rw [length_encodeFront] at hput
    unfold wired zoom
    rw [id_eq, encode, hput]
    rfl
  unfold write
  rw [run_bind_ok (run_require hversion _ writer), run_bind_ok (run_get writer),
    run_bind_ok (run_require hroom _ writer), run_bind_ok hparts,
    run_bind_ok (run_get (writer.put (segment.encode 0))), hwritten]
  cases htransport : transport source destination tcp (segment.encode 0) with
  | error error => rfl
  | ok sum => exact hpatch sum

theorem write_ok (h : segment.write source destination writer = (.ok (), after)) :
    source.version = destination.version ∧ segment.wireLen ≤ writer.remaining := by
  unfold write at h
  by_cases hversion : source.version = destination.version
  · refine ⟨hversion, ?_⟩
    by_contra hroom
    rw [run_bind_ok (run_require hversion _ writer), run_bind_ok (run_get writer),
      run_bind_error (run_require_not hroom _ writer)] at h
    cases h
  · rw [run_bind_error (run_require_not hversion _ writer)] at h
    cases h

/-! ## Reading the bytes back -/

variable (segment) (sum : BitVec 16)

def headerOf : Header where
  sourcePort := segment.sourcePort
  destinationPort := segment.destinationPort
  seq := segment.seq
  ack := segment.ack
  offsetAndReserved := ofNat 8 (segment.headerLen / 4) <<< 4
  flags := segment.flags
  window := segment.window
  carried := sum

theorem takes_readHeader :
    Wire.Reader.Takes readHeader (segment.encodeFront ++ wordBytes sum ++ wordBytes 0)
      (segment.headerOf sum) := by
  have h : Wire.Reader.Takes readHeader _ (segment.headerOf sum) :=
    (takes_readU16 segment.sourcePort).bind
      ((takes_readU16 segment.destinationPort).bind
        ((Wire.Reader.takes_readU32 segment.seq).bind
          ((Wire.Reader.takes_readU32 segment.ack).bind
            ((Wire.Reader.takes_readU8 (ofNat 8 (segment.headerLen / 4) <<< 4)).bind
              ((Wire.Reader.takes_readU8 segment.flags).bind
                ((takes_readU16 segment.window).bind
                  ((takes_readU16 sum).bind
                    ((takes_readU16 0).bind (Wire.Reader.takes_pure _)))))))))
  simpa only [encodeFront, append_assoc, append_nil] using h

theorem words_headerOf :
    (segment.headerOf sum).words * 4 = segment.headerLen ∧
    minDataOffset ≤ (segment.headerOf sum).words ∧
    (segment.headerOf sum).words ≤ maxDataOffset := by
  have hlen : segment.headerLen = 20 ∨ segment.headerLen = 24 := by
    unfold headerLen
    cases segment.maxSegmentSize with
    | none => exact .inl rfl
    | some size => exact .inr rfl
  change ((ofNat 8 (segment.headerLen / 4) <<< 4) >>> 4).toNat * 4 = segment.headerLen ∧
    5 ≤ ((ofNat 8 (segment.headerLen / 4) <<< 4) >>> 4).toNat ∧
    ((ofNat 8 (segment.headerLen / 4) <<< 4) >>> 4).toNat ≤ 15
  rcases hlen with hlen | hlen <;> rw [hlen] <;> decide

theorem walkOptions_encodeOption (size : Option (BitVec 16)) :
    readMaxSegmentSize (encodeOption size) = .ok size := by
  cases size with
  | none => simp [readMaxSegmentSize, encodeOption, walkOptions]
  | some size =>
    simp [readMaxSegmentSize, encodeOption, walkOptions, wordBytes, OptionKind.endOfList,
      OptionKind.nop, OptionKind.maxSegmentSize, OptionKind.maxSegmentSizeLen, OptionKind.minLen,
      fromBytes_bytes]

theorem length_encodeOption :
    headerSize + (encodeOption segment.maxSegmentSize).length = segment.headerLen := by
  unfold headerLen
  cases segment.maxSegmentSize <;> rfl

theorem encode_eq :
    segment.encode sum = (segment.encodeFront ++ wordBytes sum ++ wordBytes 0) ++
      (encodeOption segment.maxSegmentSize ++ segment.payload) := by
  simp only [encode, encodeBack, append_assoc]

variable {segment}

theorem parse_encode (hversion : source.version = destination.version)
    (hsyn : segment.maxSegmentSize.isSome → segment.flags.has syn) {sum : BitVec 16}
    (hsum : transport source destination tcp (segment.encode sum) = .ok 0) :
    parse (segment.encode sum) source destination = .ok segment := by
  have hfixed : (segment.encodeFront ++ wordBytes sum ++ wordBytes 0).length =
      headerSize := by
    simp [length_encodeFront, wordBytes, checksumOffset, headerSize]
  have hoption := length_encodeOption segment
  obtain ⟨hwords, hmin, hmax⟩ := words_headerOf segment sum
  have hlength := length_encode segment sum
  have hread := takes_readHeader segment sum (segment.encode sum) [] _ (encode_eq segment sum)
  have hlist : ((segment.encode sum).take segment.headerLen).drop headerSize =
      encodeOption segment.maxSegmentSize := by
    rw [encode_eq, ← hoption, ← hfixed, take_length_add_append, drop_left]
    simp
  have hpayload : (segment.encode sum).drop segment.headerLen = segment.payload := by
    rw [encode_eq, ← hoption, ← hfixed, drop_length_add_append]
    simp
  unfold parse
  rw [if_neg (not_not.mpr hversion), if_neg (by rw [hlength, wireLen]; omega)]
  have hrun : (readHeader (Wire.Reader.new (segment.encode sum))).1 =
      .ok (segment.headerOf sum) := congrArg Prod.fst hread
  rw [hrun]
  dsimp only
  unfold parseBehind
  rw [if_neg (not_not.mpr ⟨hmin, hmax⟩), hwords, if_neg (by rw [hlength, wireLen]; omega), hsum]
  dsimp only
  rw [if_neg (not_not.mpr rfl), hlist, walkOptions_encodeOption, hpayload]
  have hkept : (if segment.flags.has syn then segment.maxSegmentSize else none) =
      segment.maxSegmentSize := by
    cases hsize : segment.maxSegmentSize with
    | none => simp
    | some size => simp [hsyn (by simp [hsize])]
  exact congrArg (fun size => Except.ok ({ segment with maxSegmentSize := size } : Segment)) hkept

/-! ## What is accepted -/

theorem length_of_announced {found announced : Option (BitVec 16)} {options : List Byte}
    (h : walkOptions found options = .ok announced) (hfound : found = none)
    (hannounced : announced.isSome) : 4 ≤ options.length := by
  induction found, options using walkOptions.induct with
  | case1 found =>
    rw [walkOptions] at h
    cases h
    simp [hfound] at hannounced
  | case2 found tail =>
    rw [walkOptions.eq_def] at h
    simp only [if_true] at h
    cases h
    simp [hfound] at hannounced
  | case3 found tail hend ih =>
    rw [walkOptions.eq_def] at h
    have hlen := ih h hfound
    simp only [length_cons]
    omega
  | case4 found kind hend hnop =>
    rw [walkOptions, if_neg hend, if_neg hnop] at h
    cases h
  | case5 found kind hend hnop length rest hshort =>
    rw [walkOptions, if_neg hend, if_neg hnop] at h
    simp only [hshort] at h
    cases h
  | case6 found kind hend hnop length rest hshort hlong =>
    rw [walkOptions, if_neg hend, if_neg hnop] at h
    simp only [hshort, hlong, if_true] at h
    cases h
  | case7 found kind hend hnop length rest hshort hlong body next ih =>
    rw [walkOptions, if_neg hend, if_neg hnop] at h
    simp only [hshort, hlong, if_false] at h
    by_cases hkind : kind = OptionKind.maxSegmentSize ∧ length = OptionKind.maxSegmentSizeLen
    · -- the option itself is four bytes long
      have hfour : length.toNat = 4 := by rw [hkind.2]; rfl
      omega
    · have hnext : next = found := if_neg hkind
      have hlen := ih h (hnext.trans hfound)
      simp only [length_drop] at hlen
      omega

/-- What a segment that `parse` accepts is known to be. -/
structure Accepted (bytes : List Byte) (source destination : IpAddr) (segment : Segment) :
    Prop where
  version : source.version = destination.version
  syn : segment.maxSegmentSize.isSome → segment.flags.has syn
  length : segment.wireLen ≤ bytes.length
  limit : bytes.length < lengthLimit source

theorem parse_accepted (h : parse bytes source destination = .ok segment) :
    Accepted bytes source destination segment := by
  unfold parse at h
  split at h
  · cases h
  next hversion =>
  split at h
  · cases h
  split at h
  · cases h
  next header hheader =>
  unfold parseBehind at h
  split at h
  · cases h
  next hwords =>
  split at h
  · cases h
  next hlong =>
  have hsame : source.version = destination.version := not_not.mp hversion
  split at h
  · cases h
  next sum hsum =>
  split at h
  · cases h
  split at h
  · cases h
  next announced hannounced =>
  cases h
  rw [transport_eq hsame] at hsum
  have hrange := not_not.mp hwords
  unfold minDataOffset maxDataOffset at hrange
  refine ⟨hsame, fun hsome => ?_, ?_, ?_⟩
  · dsimp only at hsome ⊢
    by_contra hsyn
    rw [if_neg hsyn] at hsome
    cases hsome
  · unfold wireLen headerLen
    simp only [length_drop]
    split
    next size hsize =>
      -- the option list held the size, so the header is at least four bytes longer
      have hsome : announced.isSome := by
        by_cases hsyn : header.flags.has syn = true
        · rw [if_pos hsyn] at hsize
          simp [hsize]
        · rw [if_neg hsyn] at hsize
          cases hsize
      have hlist := length_of_announced hannounced rfl hsome
      simp only [length_drop, length_take, headerSize] at hlist
      have hfour : OptionKind.maxSegmentSizeLen.toNat = 4 := rfl
      unfold headerSize
      omega
    next =>
      unfold headerSize
      omega
  · by_contra hlimit
    rw [if_neg hlimit] at hsum
    cases hsum

/-! ## The codec -/

theorem parse_written (hsyn : segment.maxSegmentSize.isSome → segment.flags.has syn)
    (h : segment.write source destination writer = (.ok (), after)) :
    parse (after.written.drop writer.position) source destination = .ok segment := by
  obtain ⟨hversion, hroom⟩ := write_ok h
  rw [write_run hversion hroom] at h
  split at h
  next sum hsum =>
    cases h
    have hpos : headerSize ≤ segment.wireLen := by
      unfold wireLen headerLen
      split <;> omega
    have hfits : writer.position + (segment.encode sum).length ≤ writer.bytes.length := by
      rw [length_encode]
      unfold remaining headerSize at *
      omega
    rw [written_put writer hfits]
    have heven : segment.encodeFront.length % 2 = 0 := by rw [length_encodeFront]; rfl
    have hstored := transport_stored hversion heven hsum
    exact parse_encode hversion hsyn hstored
  next => cases h

theorem local_readHeader : Wire.Reader.Local readHeader headerSize :=
  Wire.Reader.local_readU16.bind fun _ => Wire.Reader.local_readU16.bind fun _ =>
    Wire.Reader.local_readU32.bind fun _ => Wire.Reader.local_readU32.bind fun _ =>
      Wire.Reader.local_readU8.bind fun _ => Wire.Reader.local_readU8.bind fun _ =>
        Wire.Reader.local_readU16.bind fun _ => Wire.Reader.local_readU16.bind fun _ =>
          Wire.Reader.local_readU16.bind fun _ => Wire.Reader.local_pure _

def withoutPayload (segment : Segment) : Segment := { segment with payload := [] }

/-- Two strings that agree up to the data offset, and in whether their sums come out, are read as
segments that differ in the payload only, or are refused for the same reason. -/
theorem parse_local {bytes' : List Byte} {header : Header}
    (hheader : (readHeader (Wire.Reader.new bytes)).1 = .ok header)
    (hmin : minDataOffset ≤ header.words) (hlong : header.words * 4 ≤ bytes.length)
    (hlong' : header.words * 4 ≤ bytes'.length)
    (hsame : bytes'.take (header.words * 4) = bytes.take (header.words * 4))
    (hsum : transport source destination tcp bytes' =
      transport source destination tcp bytes) :
    (parse bytes' source destination).map withoutPayload =
      (parse bytes source destination).map withoutPayload := by
  have hoffset : headerSize ≤ header.words * 4 := by
    unfold minDataOffset headerSize at *
    omega
  have hheader' : (readHeader (Wire.Reader.new bytes')).1 = .ok header := by
    obtain ⟨value, hrun, hrun'⟩ := local_readHeader (bytes.take (header.words * 4))
      (bytes.drop (header.words * 4)) (bytes'.drop (header.words * 4)) 0
      (by rw [length_take]; omega)
    rw [take_append_drop] at hrun
    rw [← hsame, take_append_drop] at hrun'
    unfold Wire.Reader.new at hheader ⊢
    rw [hrun] at hheader
    rw [hrun']
    exact hheader
  unfold parse
  rw [hheader, hheader']
  split
  · rfl
  rw [if_neg (by omega), if_neg (by omega)]
  dsimp only
  unfold parseBehind
  split
  · rfl
  rw [if_neg (by omega), if_neg (by omega), hsum, hsame]
  split
  · rfl
  split
  · rfl
  split
  · rfl
  · rfl

/-- Every segment that announces a size only with its `SYN` is read back from the bytes `write`
put down; the options are read no further than the data offset; and what `parse` accepts can be
written again, and is then read as the same segment. -/
theorem codec_round_trip :
    (∀ (segment : Segment) (source destination : IpAddr) (writer after : Wire.Writer),
      (segment.maxSegmentSize.isSome → segment.flags.has syn) →
      segment.write source destination writer = (.ok (), after) →
      parse (after.written.drop writer.position) source destination = .ok segment) ∧
    (∀ (bytes bytes' : List Byte) (source destination : IpAddr) (header : Header),
      (readHeader (Wire.Reader.new bytes)).1 = .ok header → minDataOffset ≤ header.words →
      header.words * 4 ≤ bytes.length → header.words * 4 ≤ bytes'.length →
      bytes'.take (header.words * 4) = bytes.take (header.words * 4) →
      transport source destination tcp bytes' =
        transport source destination tcp bytes →
      (parse bytes' source destination).map withoutPayload =
        (parse bytes source destination).map withoutPayload) ∧
    (∀ (bytes : List Byte) (source destination : IpAddr) (segment : Segment),
      parse bytes source destination = .ok segment →
      ∀ writer : Wire.Writer, segment.wireLen ≤ writer.remaining →
        ∃ after, segment.write source destination writer = (.ok (), after) ∧
          parse (after.written.drop writer.position) source destination = .ok segment) := by
  refine ⟨fun segment source destination writer after hsyn h => parse_written hsyn h,
    fun bytes bytes' source destination header hheader hmin hlong hlong' hsame hsum =>
      parse_local hheader hmin hlong hlong' hsame hsum,
    fun bytes source destination segment hparse writer hroom => ?_⟩
  have haccepted := parse_accepted hparse
  have hwrite := write_run haccepted.version hroom
  have hlimit : (segment.encode 0).length < lengthLimit source := by
    rw [length_encode]
    exact lt_of_le_of_lt haccepted.length haccepted.limit
  rw [transport_eq haccepted.version, if_pos hlimit] at hwrite
  exact ⟨_, hwrite, parse_written haccepted.syn hwrite⟩

/-- An opening segment with four bytes in a given order. -/
def opening (payload : List Byte) : Segment where
  sourcePort := 1000
  destinationPort := 80
  seq := 7
  ack := 0
  flags := syn
  window := 4096
  maxSegmentSize := some 1460
  payload := payload

/-- The opening segment goes into a buffer behind three bytes, is read back, and goes again; with
the two words of its payload exchanged only the payload differs. -/
theorem codec_round_trip_opening :
    parse (((opening [1, 2, 3, 4]).write (.v4 1) (.v4 2) ⟨replicate 40 0, 3⟩).2.written.drop 3)
      (.v4 1) (.v4 2) = .ok (opening [1, 2, 3, 4]) ∧
    (∃ after, (opening [1, 2, 3, 4]).write (.v4 1) (.v4 2) ⟨replicate 28 0, 0⟩ =
      (.ok (), after) ∧
      parse (after.written.drop 0) (.v4 1) (.v4 2) = .ok (opening [1, 2, 3, 4])) ∧
    (parse ((opening [3, 4, 1, 2]).encode 0x7FDB) (.v4 1) (.v4 2)).map withoutPayload =
      (parse ((opening [1, 2, 3, 4]).encode 0x7FDB) (.v4 1) (.v4 2)).map withoutPayload := by
  obtain ⟨hwritten, hlocal, hagain⟩ := codec_round_trip
  have hfirst := hwritten (opening [1, 2, 3, 4]) (.v4 1) (.v4 2) ⟨replicate 40 0, 3⟩ _
    (fun _ => by decide) (Prod.ext (by decide +kernel) rfl)
  refine ⟨hfirst, hagain _ _ _ _ hfirst ⟨replicate 28 0, 0⟩ (by decide), ?_⟩
  exact hlocal _ _ _ _ ((opening [1, 2, 3, 4]).headerOf 0x7FDB) rfl (by decide) (by decide)
    (by decide) (by decide) (by decide +kernel)

end Segment

end Audhsos.Tcp
