import Audhsos.Lib.Prog
import Audhsos.Wire.Checksum

/-!
A reader and a writer over a byte buffer, each with the position it has reached; a call either
completes and moves the position by what it took, or fails and changes nothing.
-/

namespace Audhsos.Wire

open Lib List

inductive WireError where
  | outOfBounds (needed available : Nat)
  | length (length : Nat)
  | mixedFamilies
deriving DecidableEq

abbrev DoubleWord := BitVec 32

def fromWords (high low : Word) : DoubleWord := high ++ low

variable (word : DoubleWord)

def highWord : Word := word.extractLsb' 16 16
def lowWord : Word := word.extractLsb' 0 16

/-- The bytes of a word, most significant first. -/
def wordBytes (word : Word) : List Byte := [highByte word, lowByte word]

def doubleWordBytes : List Byte :=
  wordBytes (highWord word) ++ wordBytes (lowWord word)

theorem fromWords_words : fromWords (highWord word) (lowWord word) = word := by
  apply BitVec.eq_of_toNat_eq
  unfold fromWords highWord lowWord
  rw [BitVec.toNat_append, ← Nat.shiftLeft_add_eq_or_of_lt (BitVec.isLt _), Nat.shiftLeft_eq]
  simp only [BitVec.extractLsb'_toNat, Nat.shiftRight_eq_div_pow]
  have hlt := word.isLt
  omega

/-! ## Reading -/

structure Reader where
  bytes : List Byte
  position : Nat

namespace Reader

def new (bytes : List Byte) : Reader := ⟨bytes, 0⟩

def remaining (reader : Reader) : Nat := reader.bytes.length - reader.position

/-- What has not been read. -/
def rest (reader : Reader) : List Byte := reader.bytes.drop reader.position

/-- The next `len` bytes. -/
def readBytes (len : Nat) : Prog WireError Reader (List Byte) := fun reader =>
  if reader.position + len ≤ reader.bytes.length then
    (.ok (reader.rest.take len), { reader with position := reader.position + len })
  else (.error (.outOfBounds len reader.remaining), reader)

def readU8 : Prog WireError Reader Byte := do
  let data ← readBytes 1
  pure (data.getD 0 0)

def readU16 : Prog WireError Reader Word := do
  let data ← readBytes 2
  pure (fromBytes (data.getD 0 0) (data.getD 1 0))

def readU32 : Prog WireError Reader DoubleWord := do
  let data ← readBytes 4
  pure (fromWords (fromBytes (data.getD 0 0) (data.getD 1 0))
    (fromBytes (data.getD 2 0) (data.getD 3 0)))

/-- `m` reads the bytes `data` as `value`: wherever they come next, it answers the value and stands
behind them. -/
def Takes {ε α : Type} (m : Prog ε Reader α) (data : List Byte) (value : α) : Prop :=
  ∀ bytes front back : List Byte, bytes = front ++ (data ++ back) →
    m ⟨bytes, front.length⟩ = (.ok value, ⟨bytes, front.length + data.length⟩)

theorem takes_readBytes (data : List Byte) : Takes (readBytes data.length) data data := by
  rintro bytes front back rfl
  unfold readBytes rest
  rw [if_pos (by simp)]
  simp

section

variable {ε α β : Type} {m : Prog ε Reader α} {f : α → Prog ε Reader β} {value : α}

theorem Takes.bind {data data' : List Byte} {value' : β} (hm : Takes m data value)
    (hf : Takes (f value) data' value') : Takes (m >>= f) (data ++ data') value' := by
  intro bytes front back hbytes
  have hfirst := hm bytes front (data' ++ back) (by rw [hbytes, append_assoc])
  have hsecond := hf bytes (front ++ data) back (by simp [hbytes])
  rw [Prog.run_bind_ok hfirst]
  simpa [add_assoc] using hsecond

theorem takes_pure (value : α) : Takes (pure value : Prog ε Reader α) [] value := by
  rintro bytes front back -
  rfl

variable {data : List Byte}

theorem Takes.guard {c : Prop} [Decidable c] {error : ε} (hc : c) (hm : Takes m data value) :
    Takes (Prog.require c error >>= fun _ => m) data value := by
  intro bytes front back hbytes
  rw [Prog.run_bind_ok (Prog.run_require hc error _)]
  exact hm bytes front back hbytes

theorem Takes.map
    (hm : Takes m data value) (g : α → β) : Takes (do let a ← m; pure (g a)) data (g value) := by
  have h := hm.bind (f := fun a => pure (g a)) (takes_pure (g value))
  rwa [append_nil] at h

end

variable {α β : Type} {m : Prog WireError Reader α} {f : α → Prog WireError Reader β} {value : α}
  {data : List Byte}

theorem takes_readU8 (byte : Byte) : Takes readU8 [byte] byte :=
  (takes_readBytes [byte]).map fun data => data.getD 0 0

theorem takes_readU16 (word : Word) : Takes readU16 (wordBytes word) word := by
  have h := (takes_readBytes (wordBytes word)).map
    fun data => fromBytes (data.getD 0 0) (data.getD 1 0)
  simpa [wordBytes, fromBytes_bytes, readU16] using h

theorem takes_readU32 (word : DoubleWord) : Takes readU32 (doubleWordBytes word) word := by
  have h := (takes_readBytes (doubleWordBytes word)).map fun data =>
    fromWords (fromBytes (data.getD 0 0) (data.getD 1 0))
      (fromBytes (data.getD 2 0) (data.getD 3 0))
  simpa [doubleWordBytes, wordBytes, fromBytes_bytes, fromWords_words, readU32] using h

/-- `m` reads `len` bytes and nothing behind them. -/
def Local {α : Type} (m : Prog WireError Reader α) (len : Nat) : Prop :=
  ∀ (front back back' : List Byte) (position : Nat), position + len ≤ front.length →
    ∃ value, m ⟨front ++ back, position⟩ = (.ok value, ⟨front ++ back, position + len⟩) ∧
      m ⟨front ++ back', position⟩ = (.ok value, ⟨front ++ back', position + len⟩)

theorem local_readBytes (len : Nat) : Local (readBytes len) len := by
  intro front back back' position hlen
  have hrun : ∀ tail : List Byte, readBytes len ⟨front ++ tail, position⟩ =
      (.ok ((front.drop position).take len), ⟨front ++ tail, position + len⟩) := by
    intro tail
    unfold readBytes rest
    rw [if_pos (by simp only [length_append]; omega)]
    dsimp only
    rw [drop_append_of_le_length (by omega), take_append_of_le_length (by simp; omega)]
  exact ⟨_, hrun back, hrun back'⟩

theorem Local.bind {len len' : Nat} (hm : Local m len) (hf : ∀ value, Local (f value) len') :
    Local (m >>= f) (len + len') := by
  intro front back back' position hlen
  obtain ⟨value, hfirst, hfirst'⟩ := hm front back back' position (by omega)
  obtain ⟨value', hsecond, hsecond'⟩ := hf value front back back' (position + len) (by omega)
  refine ⟨value', ?_, ?_⟩
  · rw [Prog.run_bind_ok hfirst, hsecond, add_assoc]
  · rw [Prog.run_bind_ok hfirst', hsecond', add_assoc]

theorem local_pure {α : Type} (value : α) : Local (pure value) 0 := fun _ _ _ _ _ =>
  ⟨value, rfl, rfl⟩

theorem local_readU8 : Local readU8 1 := (local_readBytes 1).bind fun _ => local_pure _

theorem local_readU16 : Local readU16 2 := (local_readBytes 2).bind fun _ => local_pure _

theorem local_readU32 : Local readU32 4 := (local_readBytes 4).bind fun _ => local_pure _

end Reader

/-! ## Writing -/

structure Writer where
  bytes : List Byte
  position : Nat

namespace Writer

def remaining (writer : Writer) : Nat := writer.bytes.length - writer.position

def written (writer : Writer) : List Byte := writer.bytes.take writer.position

/-- The writer with `data` put where it stands. -/
def put (writer : Writer) (data : List Byte) : Writer :=
  ⟨writer.bytes.take writer.position ++ data ++ writer.bytes.drop (writer.position + data.length),
    writer.position + data.length⟩

def writeBytes (data : List Byte) : Prog WireError Writer Unit := fun writer =>
  if writer.position + data.length ≤ writer.bytes.length then (.ok (), writer.put data)
  else (.error (.outOfBounds data.length writer.remaining), writer)

def writeU8 (byte : Byte) : Prog WireError Writer Unit := writeBytes [byte]

def writeU16 (word : Word) : Prog WireError Writer Unit := writeBytes (wordBytes word)

def writeU32 : Prog WireError Writer Unit := writeBytes (doubleWordBytes word)

/-- Puts two bytes at `at_`, without moving the position. -/
def patchU16 (at_ : Nat) (word : Word) : Prog WireError Writer Unit := fun writer =>
  if writer.position < at_ + 2 then
    (.error (.outOfBounds 2 (writer.position - at_)), writer)
  else if writer.bytes.length < at_ + 2 then
    (.error (.outOfBounds 2 (writer.bytes.length - at_)), writer)
  else
    (.ok (), { writer with
      bytes := writer.bytes.take at_ ++ wordBytes word ++ writer.bytes.drop (at_ + 2) })

/-- `m` writes the bytes `data`: wherever there is room for them, it puts them there. -/
def Puts {ε : Type} (m : Prog ε Writer Unit) (data : List Byte) : Prop :=
  ∀ writer : Writer, writer.position + data.length ≤ writer.bytes.length →
    m writer = (.ok (), writer.put data)

theorem puts_writeBytes (data : List Byte) : Puts (writeBytes data) data := fun _ hroom =>
  if_pos hroom

theorem put_put (writer : Writer) {first second : List Byte}
    (hroom : writer.position + (first ++ second).length ≤ writer.bytes.length) :
    (writer.put first).put second = writer.put (first ++ second) := by
  have hlen : (writer.bytes.take writer.position ++ first).length =
      writer.position + first.length := by
    rw [length_append, length_take, Nat.min_eq_left (by omega)]
  unfold put
  simp only [length_append, add_assoc]
  congr 1
  rw [← hlen, take_left, ← add_assoc, ← hlen, drop_append, drop_eq_nil_of_le
    (by omega), drop_drop, hlen]
  simp only [nil_append, append_assoc]
  congr 4
  omega

theorem length_put (writer : Writer) (hroom : writer.position + data.length ≤ writer.bytes.length) :
    (writer.put data).bytes.length = writer.bytes.length := by
  unfold put
  simp only [length_append, length_take, length_drop]
  omega

theorem Puts.bind {ε : Type} {m m' : Prog ε Writer Unit} {data data' : List Byte}
    (hm : Puts m data) (hm' : Puts m' data') : Puts (m >>= fun _ => m') (data ++ data') := by
  intro writer hroom
  have hroom' := hroom
  rw [length_append] at hroom'
  rw [Prog.run_bind_ok (hm writer (by omega)), ← put_put writer hroom]
  apply hm'
  rw [length_put writer (by omega)]
  change writer.position + data.length + data'.length ≤ _
  omega

/-- What was put is what was written since. -/
theorem written_put (writer : Writer)
    (hroom : writer.position + data.length ≤ writer.bytes.length) :
    (writer.put data).written.drop writer.position = data := by
  have hlen : (writer.bytes.take writer.position).length = writer.position :=
    length_take_of_le (by omega)
  unfold put written
  dsimp only
  rw [take_append_of_le_length (by simp [hlen]), take_of_length_le (by simp [hlen])]
  conv_lhs => rw [← hlen]
  simp

/-- Two bytes of what was put are put again. -/
theorem patchU16_put (word : Word) (writer : Writer) {front back : List Byte} {old : Word}
    (hroom : writer.position + (front ++ wordBytes old ++ back).length ≤ writer.bytes.length) :
    patchU16 (writer.position + front.length) word (writer.put (front ++ wordBytes old ++ back)) =
      (.ok (), writer.put (front ++ wordBytes word ++ back)) := by
  have hlen := length_put writer hroom
  simp only [length_append, wordBytes, length_cons, length_nil] at hroom
  have htake : (writer.bytes.take writer.position).length = writer.position :=
    length_take_of_le (by omega)
  unfold patchU16
  rw [if_neg (by simp [put, wordBytes]; omega), if_neg (by rw [hlen]; omega)]
  unfold put
  simp only [length_append, wordBytes, length_cons, length_nil]
  congr 2
  have hsplit : ∀ w : Word, writer.bytes.take writer.position ++
      (front ++ [highByte w, lowByte w] ++ back) ++
      writer.bytes.drop (writer.position + (front.length + (0 + 1 + 1) + back.length)) =
      (writer.bytes.take writer.position ++ front) ++ ([highByte w, lowByte w] ++ (back ++
      writer.bytes.drop (writer.position + (front.length + (0 + 1 + 1) + back.length)))) := by
    intro w
    simp only [append_assoc]
  have hfront : (writer.bytes.take writer.position ++ front).length =
      writer.position + front.length := by
    rw [length_append, htake]
  rw [hsplit, hsplit, ← hfront, take_left, ← drop_drop, drop_left]
  simp

end Writer

end Audhsos.Wire
