import Audhsos.Abi
import Audhsos.Lib.Ones

/-!
The internet checksum: the complement of the one's complement sum of the words of two bytes, the
first byte more significant. The sum is fed in pieces, and an odd piece leaves a byte that pairs
with the first one of the next.
-/

namespace Audhsos.Wire

open Lib List

abbrev Word := BitVec 16

variable {front : List Byte}

def fromBytes (high low : Byte) : Word := high ++ low

variable (word : Word)

def highByte : Byte := word.extractLsb' 8 8
def lowByte : Byte := word.extractLsb' 0 8

/-- The sum of everything fed so far, and the odd byte the last piece ended on. -/
structure Checksum where
  sum : Word
  pending : Option Byte
deriving DecidableEq

namespace Checksum

def new : Checksum := ⟨0, none⟩

variable (c : Checksum)

/-- Adds a complete word with the end-around carry. -/
def addCompleteWord (word : Word) : Checksum :=
  let total := c.sum + word
  let carry := 2 ^ 16 ≤ c.sum.toNat + word.toNat
  { c with sum := if carry then BitVec.ofNat 16 (min (total.toNat + 1) 0xFFFF) else total }

/-- Adds one word; a pending byte pairs with its high byte. -/
def addWord (word : Word) : Checksum :=
  match c.pending with
  | some high =>
    addCompleteWord { c with pending := some (lowByte word) } (fromBytes high (highByte word))
  | none => c.addCompleteWord word

/-- The complete words of `data`, and the odd byte behind them held back. -/
def addChunks (c : Checksum) : List Byte → Checksum
  | first :: second :: rest => addChunks (c.addWord (fromBytes first second)) rest
  | [odd] => { c with pending := some odd }
  | [] => c

def addBytes (data : List Byte) : Checksum :=
  match c.pending, data with
  | some high, low :: tail =>
    (({ c with pending := none } : Checksum).addWord (fromBytes high low)).addChunks tail
  | _, data => c.addChunks data

/-- The sum completed, then complemented; a byte held back pairs with a zero. -/
def finish : Word :=
  match c.pending with
  | some high => ~~~ (({ c with pending := none } : Checksum).addWord (fromBytes high 0)).sum
  | none => ~~~ c.sum

end Checksum

variable (data : List Byte)

def checksum : Word := (Checksum.new.addBytes data).finish

/-- The data carries a correct checksum. -/
def isValid : Bool := checksum data = 0

/-! ## The sum of a whole string -/

/-- The words of a string, padded with a zero byte. -/
def words : List Byte → List Nat
  | first :: second :: rest => (first.toNat * 256 + second.toNat) :: words rest
  | [odd] => [odd.toNat * 256]
  | [] => []

/-- The one's complement sum of a string. -/
def onesSum : Nat := wrapAround 65535 (words data).sum

theorem onesSum_le : onesSum data ≤ 65535 := wrapAround_le (by decide) _

theorem words_append (h : front.length % 2 = 0) (back : List Byte) :
    words (front ++ back) = words front ++ words back := by
  induction front using words.induct with
  | case1 first second rest ih =>
    have hrest : rest.length % 2 = 0 := by
      simp only [length_cons] at h
      omega
    simp only [cons_append, words, ih hrest]
  | case2 odd => simp at h
  | case3 => rfl

/-! ## Words -/

theorem toNat_fromBytes (high low : Byte) :
    (fromBytes high low).toNat = high.toNat * 256 + low.toNat := by
  unfold fromBytes
  rw [BitVec.toNat_append, Nat.shiftLeft_eq, ← Nat.shiftLeft_eq, ← Nat.shiftLeft_add_eq_or_of_lt
    low.isLt, Nat.shiftLeft_eq]

theorem fromBytes_bytes : fromBytes (highByte word) (lowByte word) = word := by
  apply BitVec.eq_of_toNat_eq
  rw [toNat_fromBytes]
  unfold highByte lowByte
  simp only [BitVec.extractLsb'_toNat, Nat.shiftRight_eq_div_pow]
  have hlt := word.isLt
  omega

theorem toNat_bytes : (highByte word).toNat * 256 + (lowByte word).toNat = word.toNat := by
  rw [← toNat_fromBytes, fromBytes_bytes]

theorem toNat_not : (~~~ word).toNat = 65535 - word.toNat := by
  rw [BitVec.toNat_not]

theorem sum_addCompleteWord (c : Checksum) (word : Word) :
    (c.addCompleteWord word).sum.toNat = wrapAround 65535 (c.sum.toNat + word.toNat) := by
  rw [wrapAround_carry (by omega) (by omega)]
  unfold Checksum.addCompleteWord
  simp only [BitVec.toNat_add]
  by_cases hcarry : 2 ^ 16 ≤ c.sum.toNat + word.toNat
  · rw [if_pos hcarry, if_pos (by omega), BitVec.toNat_ofNat]
    omega
  · rw [if_neg hcarry, if_neg (by omega), BitVec.toNat_add]
    omega

/-! ## What has been fed -/

/-- `c` has been fed the bytes `data`: it has summed the complete words, and holds the odd byte. -/
def Fed (c : Checksum) (data : List Byte) : Prop :=
  ∃ full : List Byte, data = full ++ c.pending.toList ∧ full.length % 2 = 0 ∧
    c.sum.toNat = onesSum full

theorem fed_new : Fed Checksum.new [] := ⟨[], rfl, rfl, rfl⟩

variable {c : Checksum} {data : List Byte}

theorem sum_complete {full : List Byte} (heven : full.length % 2 = 0)
    (hsum : c.sum.toNat = onesSum full) (high low : Byte) :
    (c.addCompleteWord (fromBytes high low)).sum.toNat = onesSum (full ++ [high, low]) := by
  rw [sum_addCompleteWord, hsum, toNat_fromBytes]
  unfold onesSum
  rw [wrapAround_add, words_append heven]
  simp [words]

theorem Fed.addWord (h : Fed c data) (word : Word) :
    Fed (c.addWord word) (data ++ [highByte word, lowByte word]) := by
  obtain ⟨full, rfl, heven, hsum⟩ := h
  cases hpending : c.pending with
  | none =>
    refine ⟨full ++ [highByte word, lowByte word], ?_, by simp; omega, ?_⟩
    · simp [Checksum.addWord, Checksum.addCompleteWord, hpending]
    · simp only [Checksum.addWord, hpending]
      have hstep := sum_complete heven hsum (highByte word) (lowByte word)
      rwa [fromBytes_bytes] at hstep
  | some high =>
    refine ⟨full ++ [high, highByte word], ?_, by simp; omega, ?_⟩
    · simp [Checksum.addWord, Checksum.addCompleteWord, hpending]
    · simp only [Checksum.addWord, hpending]
      exact sum_complete (c := { c with pending := some (lowByte word) }) heven hsum high _

theorem bytes_fromBytes (high low : Byte) :
    highByte (fromBytes high low) = high ∧ lowByte (fromBytes high low) = low := by
  have hlow := low.isLt
  have hnat := toNat_fromBytes high low
  have hsplit := toNat_bytes (fromBytes high low)
  constructor <;> apply BitVec.eq_of_toNat_eq <;> omega

section

variable {c : Checksum} {data : List Byte} (h : Fed c data)
include h

theorem Fed.addChunks
    (hnone : c.pending = none) (rest : List Byte) : Fed (c.addChunks rest) (data ++ rest) := by
  induction rest using words.induct generalizing c data with
  | case1 first second rest ih =>
    have hstep := h.addWord (fromBytes first second)
    rw [(bytes_fromBytes first second).1, (bytes_fromBytes first second).2] at hstep
    have hpending : (c.addWord (fromBytes first second)).pending = none := by
      simp [Checksum.addWord, Checksum.addCompleteWord, hnone]
    have hrest := ih hstep hpending
    rwa [append_assoc] at hrest
  | case2 odd =>
    obtain ⟨full, rfl, heven, hsum⟩ := h
    exact ⟨full, by simp [Checksum.addChunks, hnone], heven, hsum⟩
  | case3 => simpa [Checksum.addChunks] using h

theorem Fed.addBytes (piece : List Byte) : Fed (c.addBytes piece) (data ++ piece) := by
  cases hpending : c.pending with
  | none =>
    have heq : c.addBytes piece = c.addChunks piece := by simp [Checksum.addBytes, hpending]
    rw [heq]
    exact h.addChunks hpending piece
  | some high =>
    cases piece with
    | nil => simpa [Checksum.addBytes, Checksum.addChunks, hpending] using h
    | cons low tail =>
      obtain ⟨full, rfl, heven, hsum⟩ := h
      -- the byte held back and the first one of the piece are the next complete word
      have hfull : Fed { c with pending := none } full := ⟨full, by simp, heven, hsum⟩
      have hstep := hfull.addWord (fromBytes high low)
      rw [(bytes_fromBytes high low).1, (bytes_fromBytes high low).2] at hstep
      have hrest := hstep.addChunks rfl tail
      simpa [Checksum.addBytes, hpending] using hrest

theorem Fed.finish : c.finish.toNat = 65535 - onesSum data := by
  obtain ⟨full, rfl, heven, hsum⟩ := h
  cases hpending : c.pending with
  | none => simp [Checksum.finish, hpending, hsum]
  | some high =>
    simp only [Checksum.finish, hpending, toNat_not]
    have hpad := sum_complete (c := { c with pending := none }) heven hsum high 0
    have hwords : onesSum (full ++ [high, 0]) = onesSum (full ++ [high]) := by
      unfold onesSum
      rw [words_append heven, words_append heven]
      simp [words]
    rw [hwords] at hpad
    simp only [Checksum.addWord, hpad, Option.toList_some]

end

theorem checksum_toNat (data : List Byte) : (checksum data).toNat = 65535 - onesSum data := by
  have hfed := fed_new.addBytes data
  exact hfed.finish

theorem isValid_iff (data : List Byte) : isValid data = true ↔ onesSum data = 65535 := by
  have hnat := checksum_toNat data
  have hle := onesSum_le data
  unfold isValid
  rw [decide_eq_true_iff, ← BitVec.toNat_inj, hnat]
  simp only [BitVec.ofNat_eq_ofNat, BitVec.toNat_ofNat]
  omega

/-! ## The checksum in its field -/

theorem words_field (heven : front.length % 2 = 0) (high low : Byte)
    (back : List Byte) : (words (front ++ high :: low :: back)).sum =
      (words (front ++ 0 :: 0 :: back)).sum + (high.toNat * 256 + low.toNat) := by
  rw [words_append heven, words_append heven]
  simp only [words, sum_append, sum_cons]
  simp
  ring

theorem isValid_stored (heven : front.length % 2 = 0) (back : List Byte) :
    isValid (front ++ highByte (checksum (front ++ 0 :: 0 :: back)) ::
      lowByte (checksum (front ++ 0 :: 0 :: back)) :: back) = true := by
  rw [isValid_iff]
  unfold onesSum
  rw [words_field heven, toNat_bytes, checksum_toNat]
  exact wrapAround_complete (by decide) _

theorem not_isValid_changed {changed : List Byte} {k word : Nat} (hk : k < (words data).length)
    (hchanged : words changed = (words data).set k word)
    (hword : ¬ word ≡ (words data)[k] [MOD 65535]) (hvalid : isValid data = true) :
    isValid changed = false := by
  rw [isValid_iff, onesSum, wrapAround_eq_max (by decide)] at hvalid
  rw [← Bool.not_eq_true, isValid_iff, onesSum, wrapAround_eq_max (by decide), hchanged]
  rintro ⟨-, hdvd⟩
  apply hword
  have hsplit : (words data).sum =
      ((words data).take k).sum + ((words data)[k] + ((words data).drop (k + 1)).sum) := by
    rw [← sum_cons, getElem_cons_drop hk, ← sum_append, take_append_drop]
  have hset : ((words data).set k word).sum =
      ((words data).take k).sum + (word + ((words data).drop (k + 1)).sum) := by
    rw [set_eq_take_append_cons_drop, if_pos hk, sum_append, sum_cons]
  have hboth : ((words data).set k word).sum ≡ (words data).sum [MOD 65535] :=
    (Nat.modEq_zero_iff_dvd.mpr hdvd).trans (Nat.modEq_zero_iff_dvd.mpr hvalid.2).symm
  rw [hset, hsplit] at hboth
  exact Nat.ModEq.add_right_cancel' _ (Nat.ModEq.add_left_cancel' _ hboth)

/-! ## Feeding in pieces -/

/-- One call that feeds a sum. -/
inductive Piece where
  | bytes (data : List Byte)
  | word (value : Word)

def Piece.content : Piece → List Byte
  | .bytes data => data
  | .word value => [highByte value, lowByte value]

def Piece.feed (c : Checksum) : Piece → Checksum
  | .bytes data => c.addBytes data
  | .word value => c.addWord value

variable (pieces : List Piece)

def feed : Checksum := pieces.foldl Piece.feed Checksum.new

theorem fed_foldl (h : Fed c data) :
    Fed (pieces.foldl Piece.feed c) (data ++ pieces.flatMap Piece.content) := by
  induction pieces generalizing c data with
  | nil => simpa using h
  | cons piece rest ih =>
    have hpiece : Fed (piece.feed c) (data ++ piece.content) := by
      cases piece with
      | bytes piece => exact h.addBytes piece
      | word value => exact h.addWord value
    have hrest := ih hpiece
    rwa [append_assoc, ← flatMap_cons] at hrest

/-- However a string is cut into pieces, the checksum is the complement of the sum of its words;
stored in an even field that was zero it makes the sum of the whole zero, and no change of one word
of a valid block to one that is not congruent to it goes unnoticed. -/
theorem checksum_sound :
    (feed pieces).finish = ~~~ BitVec.ofNat 16 (onesSum (pieces.flatMap Piece.content)) ∧
    (∀ front back : List Byte, front.length % 2 = 0 →
      isValid (front ++ highByte (checksum (front ++ 0 :: 0 :: back)) ::
        lowByte (checksum (front ++ 0 :: 0 :: back)) :: back) = true) ∧
    ∀ (data changed : List Byte) (k word : Nat) (hk : k < (words data).length),
      words changed = (words data).set k word → ¬ word ≡ (words data)[k] [MOD 65535] →
      isValid data = true → isValid changed = false := by
  refine ⟨?_, fun front back heven => isValid_stored heven back,
    fun data changed k word hk hchanged hword => not_isValid_changed hk hchanged hword⟩
  have hfed := (fed_foldl pieces fed_new).finish
  have hle := onesSum_le (pieces.flatMap Piece.content)
  apply BitVec.eq_of_toNat_eq
  rw [toNat_not, BitVec.toNat_ofNat, Nat.mod_eq_of_lt (by omega)]
  simpa [feed] using hfed

/-- Three bytes and their checksum, with the last word of the block changed. -/
theorem checksum_sound_three_bytes :
    isValid [0x12, 0x34, 0x97, 0xCB, 0x56] = true ∧
    isValid [0x12, 0x34, 0x97, 0xCB, 0x57] = false := by
  obtain ⟨-, hstored, hchanged⟩ := checksum_sound []
  have hvalid : isValid [0x12, 0x34, 0x97, 0xCB, 0x56] = true := by
    have hfield := hstored [0x12, 0x34] [0x56] rfl
    exact hfield
  exact ⟨hvalid, hchanged [0x12, 0x34, 0x97, 0xCB, 0x56] [0x12, 0x34, 0x97, 0xCB, 0x57] 2 0x5700
    (by decide) (by decide) (by decide) hvalid⟩

end Audhsos.Wire
