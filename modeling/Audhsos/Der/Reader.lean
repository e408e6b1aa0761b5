import Mathlib.Data.Nat.Digits.Defs
import Mathlib.Tactic.Positivity
import Audhsos.Abi
import Audhsos.Lib.Prog

/-!
The reader of the distinguished encoding rules. It holds the bytes it has not consumed and the
depth it sits at. Every typed read takes a value by its header and then judges the content.
-/

namespace Audhsos.Der

open Lib Prog


inductive DerError where
  | truncated | endOfInput | unexpectedTag | highTagNumber | wrongForm | indefiniteLength
  | nonMinimalLength | lengthOutOfRange | trailingData | tooDeep | badInteger | badBoolean
  | badBitString | badObjectIdentifier | badNull | badTime
deriving DecidableEq

/-! ## Tags -/

structure Tag where
  octet : Byte
deriving DecidableEq

namespace Tag

def boolean : Tag := ⟨0x01⟩
def integer : Tag := ⟨0x02⟩
def bitString : Tag := ⟨0x03⟩
def octetString : Tag := ⟨0x04⟩
def null : Tag := ⟨0x05⟩
def objectIdentifier : Tag := ⟨0x06⟩
def utcTime : Tag := ⟨0x17⟩
def generalizedTime : Tag := ⟨0x18⟩
def sequence : Tag := ⟨0x30⟩
def set : Tag := ⟨0x31⟩

def context (number : Byte) (constructed : Bool) : Option Tag :=
  if 0x1F ≤ number then none
  else some ⟨0x80 ||| (if constructed then 0x20 else 0) ||| number⟩

def isConstructed (tag : Tag) : Bool := tag.octet &&& 0x20 != 0

def isHighForm (tag : Tag) : Bool := tag.octet &&& 0x1F == 0x1F

end Tag

/-! ## Times -/

structure CivilTime where
  year : Int
  month : Nat
  day : Nat
  hour : Nat
  minute : Nat
  second : Nat
deriving DecidableEq

namespace CivilTime

def isLeapYear (year : Int) : Bool := year % 4 = 0 ∧ (year % 100 ≠ 0 ∨ year % 400 = 0)

def daysInMonth (year : Int) (month : Nat) : Option Nat :=
  if year < 0 ∨ 9999 < year then none
  else if month ∈ [1, 3, 5, 7, 8, 10, 12] then some 31
  else if month ∈ [4, 6, 9, 11] then some 30
  else if month = 2 then some (if isLeapYear year then 29 else 28)
  else none

def validate (time : CivilTime) : Bool :=
  match daysInMonth time.year time.month with
  | none => false
  | some length => 1 ≤ time.day ∧ time.day ≤ length ∧ time.hour ≤ 23 ∧ time.minute ≤ 59 ∧
      time.second ≤ 59

end CivilTime

def digit (byte : Byte) : Except DerError Nat :=
  if 0x30 ≤ byte ∧ byte ≤ 0x39 then .ok (byte - 0x30).toNat else .error .badTime

def twoDigits : List Byte → Except DerError (Nat × List Byte)
  | high :: low :: rest => do
    let high ← digit high
    let low ← digit low
    pure (high * 10 + low, rest)
  | _ => .error .badTime

/-- The fields after the year: month, day, hour, minute, second and the letter Z. -/
def fromFields (year : Int) (rest : List Byte) : Except DerError CivilTime := do
  let (month, rest) ← twoDigits rest
  let (day, rest) ← twoDigits rest
  let (hour, rest) ← twoDigits rest
  let (minute, rest) ← twoDigits rest
  let (second, rest) ← twoDigits rest
  let time : CivilTime := ⟨year, month, day, hour, minute, second⟩
  if rest = [0x5A] ∧ time.validate then .ok time else .error .badTime

variable (bytes : List Byte)

def fromUtcTime : Except DerError CivilTime :=
  if bytes.length ≠ 13 then .error .badTime
  else do
    let (year, rest) ← twoDigits bytes
    fromFields (if 50 ≤ year then year + 1900 else year + 2000) rest

def fromGeneralizedTime : Except DerError CivilTime :=
  if bytes.length ≠ 15 then .error .badTime
  else do
    let (century, rest) ← twoDigits bytes
    let (year, rest) ← twoDigits rest
    fromFields (century * 100 + year) rest

/-! ## Values -/

structure BitString where
  bytes : List Byte
  unused : Byte
deriving DecidableEq

/-- The bytes of a non-negative value without a padding zero. -/
def integerOf : List Byte → Except DerError (List Byte)
  | [] => .error .badInteger
  | first :: rest =>
    if first &&& 0x80 ≠ 0 then .error .badInteger
    else match rest with
      | [] => .ok [first]
      | second :: _ =>
        if first = 0 ∧ second &&& 0x80 = 0 then .error .badInteger
        else if first = 0 then .ok rest else .ok (first :: rest)

def booleanOf : List Byte → Except DerError Bool
  | [0x00] => .ok false
  | [0xFF] => .ok true
  | _ => .error .badBoolean

def nullOf : List Byte → Except DerError Unit
  | [] => .ok ()
  | _ => .error .badNull

def maskOf (unused : Byte) : Byte :=
  if unused = 0 then 0 else (0xFF : Byte) >>> ((8 - unused).toNat % 8)

def bitStringOf : List Byte → Except DerError BitString
  | [] => .error .badBitString
  | unused :: bytes =>
    if 7 < unused then .error .badBitString
    else match bytes.getLast? with
      | none => if unused ≠ 0 then .error .badBitString else .ok ⟨bytes, unused⟩
      | some last =>
        if last &&& maskOf unused ≠ 0 then .error .badBitString else .ok ⟨bytes, unused⟩

/-- No component starts with a padding byte. -/
def componentsMinimal (starting : Bool) : List Byte → Bool
  | [] => true
  | byte :: rest => !(starting && byte == 0x80) && componentsMinimal (byte &&& 0x80 == 0) rest

variable (content : List Byte)

def objectIdentifierOf : Except DerError (List Byte) :=
  match content.getLast? with
  | none => .error .badObjectIdentifier
  | some last =>
    if last &&& 0x80 = 0 ∧ componentsMinimal true content then .ok content
    else .error .badObjectIdentifier

/-! ## The reader -/

def maxDepth : Nat := 16

def maxLengthBytes : Nat := 4

structure Reader where
  bytes : List Byte
  depth : Nat
deriving DecidableEq

/-- The next digit of a length, in sixty-four bits. -/
def addDigit (length : Nat) (byte : Byte) : Nat := (length <<< 8 ||| byte.toNat) % 2 ^ 64

def readLength : List Byte → Except DerError (Nat × List Byte)
  | [] => .error .truncated
  | first :: rest =>
    if first &&& 0x80 = 0 then .ok (first.toNat, rest)
    else
      let count := (first &&& 0x7F).toNat
      if count = 0 then .error .indefiniteLength
      else if maxLengthBytes < count then .error .lengthOutOfRange
      else if rest.length < count then .error .truncated
      else
        let digits := rest.take count
        if digits.head? = some 0 then .error .nonMinimalLength
        else
          let length := digits.foldl addDigit 0
          if length < 0x80 then .error .nonMinimalLength else .ok (length, rest.drop count)

namespace Reader

def new : Reader := ⟨bytes, 0⟩

def peek (reader : Reader) : Option Tag := reader.bytes.head?.map Tag.mk

end Reader

abbrev Read (α : Type) : Type := Prog DerError Reader α

def readAny : Read (Tag × List Byte) := fun reader =>
  match reader.bytes with
  | [] => (.error .endOfInput, reader)
  | identifier :: afterTag =>
    if (Tag.mk identifier).isHighForm then (.error .highTagNumber, reader)
    else match readLength afterTag with
      | .error e => (.error e, reader)
      | .ok (length, afterLength) =>
        if afterLength.length < length then (.error .lengthOutOfRange, reader)
        else (.ok (⟨identifier⟩, afterLength.take length),
          { reader with bytes := afterLength.drop length })

variable (tag : Tag)

/-- The lookahead of the source is a copy, so a tag that differs changes nothing. -/
def readTagged : Read (List Byte) := fun reader =>
  match readAny reader with
  | (.error e, _) => (.error e, reader)
  | (.ok (found, content), lookahead) =>
    if found ≠ tag then (.error .unexpectedTag, reader)
    else (.ok content, { reader with bytes := lookahead.bytes })

def readConstructed : Read Reader := do
  require tag.isConstructed .wrongForm
  let reader ← get
  require (reader.depth + 1 < maxDepth) .tooDeep
  let content ← readTagged tag
  pure ⟨content, reader.depth + 1⟩

def readSequence : Read Reader := readConstructed .sequence

def readSet : Read Reader := readConstructed .set

def readContext (number : Byte) : Read Reader := do
  let tag ← ofOption (Tag.context number true) .highTagNumber
  readConstructed tag

def readOptional : Read (Option (List Byte)) := do
  let reader ← get
  if reader.peek = some tag then
    let content ← readTagged tag
    pure (some content)
  else pure none

/-- Takes the value under its tag, then judges its content. -/
def readJudged {α : Type} (tag : Tag) (judge : List Byte → Except DerError α) : Read α := do
  let content ← readTagged tag
  ofExcept (judge content)

def readInteger : Read (List Byte) := readJudged .integer integerOf

def readBoolean : Read Bool := readJudged .boolean booleanOf

def readNull : Read Unit := readJudged .null nullOf

def readOctetString : Read (List Byte) := readTagged .octetString

def readBitString : Read BitString := readJudged .bitString bitStringOf

def readObjectIdentifier : Read (List Byte) := readJudged .objectIdentifier objectIdentifierOf

def readTime : Read CivilTime := do
  let reader ← get
  match reader.peek with
  | none => throw .endOfInput
  | some tag =>
    if tag = .utcTime then readJudged .utcTime fromUtcTime
    else if tag = .generalizedTime then readJudged .generalizedTime fromGeneralizedTime
    else throw .unexpectedTag

/-! ## Values -/

/-- The octets that state a length: one below 128, or how many digits follow, the first of which is
not zero. -/
inductive States : List Byte → Nat → Prop where
  | short (first : Byte) (hsmall : first &&& 0x80 = 0) : States [first] first.toNat
  | long (digits : List Byte) (hsome : digits ≠ []) (hfew : digits.length ≤ maxLengthBytes)
      (hhead : digits.head? ≠ some 0)
      (hlarge : 0x80 ≤ Nat.ofDigits 256 (digits.reverse.map BitVec.toNat)) :
      States ((0x80 ||| .ofNat 8 digits.length) :: digits)
        (Nat.ofDigits 256 (digits.reverse.map BitVec.toNat))

/-- A complete value stands in front: its tag, its length and its content. -/
def Front (bytes : List Byte) (tag : Tag) (content : List Byte) : Prop :=
  ∃ octets rest, States octets content.length ∧ bytes = tag.octet :: (octets ++ (content ++ rest))

theorem foldl_addDigit (digits : List Byte) (length : Nat)
    (h : (length + 1) * 256 ^ digits.length ≤ 2 ^ 64) :
    digits.foldl addDigit length =
      Nat.ofDigits 256 (digits.reverse.map BitVec.toNat ++ [length]) := by
  induction digits generalizing length with
  | nil => simp
  | cons byte digits ih =>
    have hbyte := byte.isLt
    have hle : (length + 1) * 256 ≤ 2 ^ 64 := by
      refine le_trans ?_ h
      rw [List.length_cons, pow_succ, ← Nat.mul_assoc]
      exact Nat.mul_le_mul_right _ (Nat.le_mul_of_pos_right _ (by positivity))
    have hdigit : addDigit length byte = length * 256 + byte.toNat := by
      rw [addDigit, ← Nat.shiftLeft_add_eq_or_of_lt hbyte, Nat.shiftLeft_eq]
      omega
    rw [List.foldl_cons, hdigit, ih]
    · simp only [List.reverse_cons, List.map_append, List.map_cons, List.map_nil,
        List.append_assoc, List.singleton_append, Nat.ofDigits_append, Nat.ofDigits_cons,
        Nat.ofDigits_nil]
      push_cast
      ring
    · rw [List.length_cons, pow_succ, Nat.mul_comm _ 256, ← Nat.mul_assoc] at h
      exact le_trans (Nat.mul_le_mul_right _ (by omega)) h

theorem foldl_addDigit_few {digits : List Byte} (h : digits.length ≤ maxLengthBytes) :
    digits.foldl addDigit 0 = Nat.ofDigits 256 (digits.reverse.map BitVec.toNat) := by
  rw [foldl_addDigit, Nat.ofDigits_append]
  · simp
  · rw [Nat.zero_add, Nat.one_mul]
    exact le_trans (Nat.pow_le_pow_right (by decide) h) (by decide)

theorem readLength_eq_ok {length : Nat} {rest : List Byte} :
    readLength bytes = .ok (length, rest) ↔
      ∃ octets, States octets length ∧ bytes = octets ++ rest := by
  constructor
  · intro h
    cases bytes with
    | nil => cases h
    | cons first tail =>
      unfold readLength at h
      dsimp only at h
      by_cases hsmall : first &&& 0x80 = 0
      · rw [if_pos hsmall] at h
        cases h
        exact ⟨_, .short first hsmall, rfl⟩
      rw [if_neg hsmall] at h
      split_ifs at h with hsome hfew hthere hhead hlarge
      cases h
      have hlen : (tail.take (first &&& 0x7F).toNat).length = (first &&& 0x7F).toNat := by
        rw [List.length_take]
        omega
      have hdigits := foldl_addDigit_few (hlen.trans_le (Nat.le_of_not_lt hfew))
      have hfirst : ∀ b : Byte, b &&& 0x80 ≠ 0 →
          b = 0x80 ||| .ofNat 8 (b &&& 0x7F).toNat := by decide
      rw [hdigits] at hlarge ⊢
      refine ⟨_, .long _ ?_ (hlen.trans_le (Nat.le_of_not_lt hfew)) hhead
        (Nat.le_of_not_lt hlarge), ?_⟩
      · intro hnil
        rw [hnil] at hlen
        exact hsome hlen.symm
      · rw [hlen, ← hfirst first hsmall, List.cons_append, List.take_append_drop]
  · rintro ⟨octets, hstates, rfl⟩
    cases hstates with
    | short first hsmall => exact if_pos hsmall
    | long digits hsome hfew hhead hlarge =>
      have hcount : ∀ k : Fin (maxLengthBytes + 1),
          (0x80 ||| BitVec.ofNat 8 k) &&& 0x80 ≠ 0 ∧
            ((0x80 ||| BitVec.ofNat 8 k) &&& 0x7F).toNat = k := by decide
      obtain ⟨hbig, hnumber⟩ := hcount ⟨digits.length, Nat.lt_succ_of_le hfew⟩
      dsimp only at hbig hnumber
      have hpos := List.length_pos_iff.mpr hsome
      rw [← foldl_addDigit_few hfew] at hlarge ⊢
      simp only [List.cons_append, readLength, if_neg hbig, hnumber, List.take_left',
        List.drop_left', hhead, if_neg (Nat.not_lt.mpr hlarge), if_false]
      rw [if_neg (by omega), if_neg (by omega), if_neg (by simp)]

variable {tag} in
/-- The value in front is taken, and nothing else is. -/
theorem readTagged_eq_ok (htag : tag.isHighForm = false) (reader after : Reader) :
    readTagged tag reader = (.ok content, after) ↔
      ∃ octets, States octets content.length ∧ after.depth = reader.depth ∧
        reader.bytes = tag.octet :: (octets ++ (content ++ after.bytes)) := by
  obtain ⟨bytes, depth⟩ := reader
  obtain ⟨left, depth'⟩ := after
  unfold readTagged readAny
  cases bytes with
  | nil => simp
  | cons identifier tail =>
    dsimp only
    by_cases hid : identifier = tag.octet
    swap
    · simp only [List.cons.injEq, hid, false_and, and_false, exists_false, iff_false]
      intro h
      split at h
      · cases h
      · rename_i found _ _ hany
        have hfound : found = ⟨identifier⟩ := by
          split at hany
          · cases hany
          split at hany
          · cases hany
          split at hany <;> cases hany
          rfl
        rw [if_pos (by rw [hfound]; rintro rfl; exact hid rfl)] at h
        cases h
    obtain rfl : tag = ⟨identifier⟩ := by rw [hid]
    rw [if_neg (by simp [htag])]
    constructor
    · intro h
      cases hread : readLength tail with
      | error e => simp [hread] at h
      | ok answer =>
        obtain ⟨length, rest⟩ := answer
        obtain ⟨octets, hstates, rfl⟩ := (readLength_eq_ok _).mp hread
        rw [hread] at h
        dsimp only at h
        split_ifs at h with hroom
        · cases h
        simp only [ne_eq, not_true_eq_false, if_false, Prod.mk.injEq, Except.ok.injEq,
          Reader.mk.injEq] at h
        obtain ⟨rfl, rfl, rfl⟩ := h
        have hlen : (rest.take length).length = length := by
          rw [List.length_take]
          omega
        exact ⟨octets, hlen.symm ▸ hstates, rfl, by rw [List.take_append_drop]⟩
    · rintro ⟨octets, hstates, rfl, heq⟩
      obtain rfl := (List.cons.inj heq).2
      rw [(readLength_eq_ok _).mpr ⟨octets, hstates, rfl⟩]
      simp

/-! ## What a refused read leaves -/

section

variable {α β : Type} {m : Read α} {f : α → Read β} {e : DerError} {tag : Tag}

/-- A refused read changes nothing. -/
def Atomic (m : Read α) : Prop :=
  ∀ reader after e, m reader = (.error e, after) → after = reader

theorem atomic_readAny : Atomic readAny := by
  intro reader after e h
  unfold readAny at h
  repeat' split at h
  all_goals cases h
  all_goals rfl

theorem atomic_readTagged (tag : Tag) : Atomic (readTagged tag) := by
  intro reader after e h
  unfold readTagged at h
  repeat' split at h
  all_goals cases h
  all_goals rfl

/-- A check only reads the state. -/
def Checks (m : Read α) : Prop := ∀ reader, (m reader).2 = reader

theorem checks_require {c : Prop} [Decidable c] : Checks (require c e) := by
  intro reader
  unfold require
  split <;> rfl

theorem Checks.atomic_bind (hm : Checks m) (hf : ∀ a, Atomic (f a)) : Atomic (m >>= f) := by
  intro reader after e h
  have hcheck := hm reader
  rcases hrun : m reader with ⟨e' | a, after'⟩
  · rw [run_bind_error hrun] at h
    rw [hrun] at hcheck
    cases h
    exact hcheck
  · rw [run_bind_ok hrun] at h
    rw [hrun] at hcheck
    obtain rfl : after' = reader := hcheck
    exact hf a _ _ _ h

theorem Atomic.then_pure (hm : Atomic m) (g : α → β) : Atomic (m >>= fun a => pure (g a)) := by
  intro reader after e h
  rcases hrun : m reader with ⟨e' | a, after'⟩
  · rw [run_bind_error hrun] at h
    cases h
    exact hm _ _ _ hrun
  · rw [run_bind_ok hrun] at h
    cases h

theorem atomic_readConstructed (tag : Tag) : Atomic (readConstructed tag) :=
  checks_require.atomic_bind fun _ => Checks.atomic_bind (fun _ => rfl) fun _ =>
    checks_require.atomic_bind fun _ => (atomic_readTagged tag).then_pure _

theorem atomic_readContext (number : Byte) : Atomic (readContext number) := by
  unfold readContext
  refine Checks.atomic_bind (fun reader => ?_) atomic_readConstructed
  cases Tag.context number true <;> rfl

theorem atomic_readOptional (tag : Tag) : Atomic (readOptional tag) := by
  refine Checks.atomic_bind (fun _ => rfl) fun reader => ?_
  split
  · exact (atomic_readTagged tag).then_pure _
  · exact nofun

/-- The content of a value under this tag is judged and refused. -/
def Refuses (judged : Tag) (judge : List Byte → Except DerError α) (tag : Tag)
    (content : List Byte) : Prop :=
  tag = judged ∧ ∃ e, judge content = .error e

variable {refuses : Tag → List Byte → Prop}

/-- A refusal leaves the reader as it was exactly when no value stands in front that the read
refuses for its content. -/
def Exact (m : Read α) (refuses : Tag → List Byte → Prop) (reader : Reader) : Prop :=
  (∀ e after, m reader = (.error e, after) → after = reader) ↔
    ∀ tag content, Front reader.bytes tag content → ¬ refuses tag content

theorem Atomic.exact (h : Atomic m) (reader : Reader) : Exact m (fun _ _ => False) reader :=
  iff_of_true (fun e after => h reader after e) fun _ _ _ => id

theorem exact_readJudged (htag : tag.isHighForm = false) (judge : List Byte → Except DerError α)
    (reader : Reader) : Exact (readJudged tag judge) (Refuses tag judge) reader := by
  unfold Exact readJudged
  rcases hread : readTagged tag reader with ⟨e | content, after⟩
  · obtain rfl := atomic_readTagged tag _ _ _ hread
    refine iff_of_true (fun e' last h => ?_) ?_
    · rw [run_bind_error hread] at h
      cases h
      rfl
    · rintro _ content ⟨octets, rest, hstates, hbytes⟩ ⟨rfl, -⟩
      have hok := (readTagged_eq_ok content htag after ⟨rest, after.depth⟩).mpr
        ⟨octets, hstates, rfl, hbytes⟩
      cases hread.symm.trans hok
  obtain ⟨octets, hstates, hdepth, hbytes⟩ := (readTagged_eq_ok content htag _ _).mp hread
  simp only [run_bind_ok hread]
  constructor
  · rintro h _ other ⟨octets', rest, hstates', hbytes'⟩ ⟨rfl, e, he⟩
    have hok := (readTagged_eq_ok other htag reader ⟨rest, reader.depth⟩).mpr
      ⟨octets', hstates', rfl, hbytes'⟩
    cases hread.symm.trans hok
    -- the value was taken, so the bytes are fewer
    have hsame : rest = reader.bytes := congrArg Reader.bytes (h e _ (Prod.ext he rfl))
    have hlength := congrArg List.length (hsame.trans hbytes')
    simp only [List.length_cons, List.length_append] at hlength
    omega
  · intro h e last hrun
    obtain ⟨he, -⟩ := Prod.mk.inj hrun
    exact (h tag content ⟨octets, _, hstates, hbytes⟩ ⟨rfl, e, he⟩).elim

theorem exact_readTime (reader : Reader) : Exact readTime (fun tag content =>
    Refuses .utcTime fromUtcTime tag content ∨
      Refuses .generalizedTime fromGeneralizedTime tag content) reader := by
  have hget : readTime reader = (match reader.peek with
    | none => throw .endOfInput
    | some tag =>
      if tag = .utcTime then readJudged .utcTime fromUtcTime
      else if tag = .generalizedTime then readJudged .generalizedTime fromGeneralizedTime
      else throw .unexpectedTag : Read CivilTime) reader := rfl
  -- the tag in front is the one that is seen
  have hpeek : ∀ tag content, Front reader.bytes tag content → reader.peek = some tag := by
    rintro tag content ⟨octets, rest, -, hbytes⟩
    simp [Reader.peek, hbytes]
  unfold Exact
  rw [hget]
  cases hseen : reader.peek with
  | none =>
    refine iff_of_true (by rintro e after ⟨⟩; rfl) fun tag content hfront => ?_
    rw [hpeek tag content hfront] at hseen
    cases hseen
  | some tag =>
    dsimp only
    have hfront : ∀ t content, Front reader.bytes t content → t = tag := fun t content h =>
      Option.some.inj ((hpeek t content h).symm.trans hseen)
    split
    · next hutc =>
      refine (exact_readJudged rfl fromUtcTime reader).trans (forall₃_congr fun t content h => ?_)
      rw [hfront t content h, hutc]
      simp [Refuses, show Tag.utcTime ≠ .generalizedTime by decide]
    split
    · next hutc hgeneral =>
      refine (exact_readJudged rfl fromGeneralizedTime reader).trans
        (forall₃_congr fun t content h => ?_)
      rw [hfront t content h, hgeneral]
      simp [Refuses, show Tag.generalizedTime ≠ .utcTime by decide]
    · next hutc hgeneral =>
      refine iff_of_true (by rintro e after ⟨⟩; rfl) fun t content h => ?_
      rw [hfront t content h]
      simp [Refuses, hutc, hgeneral]

end

/-! ## Every typed read -/

/-- A typed read, whatever it answers, and the contents that it refuses under a tag. -/
inductive TypedRead : {α : Type} → Read α → (Tag → List Byte → Prop) → Prop where
  | any : TypedRead readAny fun _ _ => False
  | tagged (tag : Tag) : TypedRead (readTagged tag) fun _ _ => False
  | constructed (tag : Tag) : TypedRead (readConstructed tag) fun _ _ => False
  | sequence : TypedRead readSequence fun _ _ => False
  | set : TypedRead readSet fun _ _ => False
  | context (number : Byte) : TypedRead (readContext number) fun _ _ => False
  | optional (tag : Tag) : TypedRead (readOptional tag) fun _ _ => False
  | integer : TypedRead readInteger (Refuses .integer integerOf)
  | boolean : TypedRead readBoolean (Refuses .boolean booleanOf)
  | null : TypedRead readNull (Refuses .null nullOf)
  | octetString : TypedRead readOctetString fun _ _ => False
  | bitString : TypedRead readBitString (Refuses .bitString bitStringOf)
  | objectIdentifier :
      TypedRead readObjectIdentifier (Refuses .objectIdentifier objectIdentifierOf)
  | time : TypedRead readTime fun tag content => Refuses .utcTime fromUtcTime tag content ∨
      Refuses .generalizedTime fromGeneralizedTime tag content

/-- A typed read that is refused leaves the reader as it was, exactly when the reader does not
begin with a complete value whose content the read refuses. -/
theorem refused_read_unchanged_iff {α : Type} {m : Read α} {refuses : Tag → List Byte → Prop}
    (hm : TypedRead m refuses) (reader : Reader) :
    (∀ e after, m reader = (.error e, after) → after = reader) ↔
      ∀ tag content, Front reader.bytes tag content → ¬ refuses tag content := by
  refine (?_ : Exact m refuses reader)
  cases hm with
  | any => exact atomic_readAny.exact reader
  | tagged tag => exact (atomic_readTagged tag).exact reader
  | constructed tag => exact (atomic_readConstructed tag).exact reader
  | sequence | set => exact (atomic_readConstructed _).exact reader
  | context number => exact (atomic_readContext number).exact reader
  | optional tag => exact (atomic_readOptional tag).exact reader
  | octetString => exact (atomic_readTagged _).exact reader
  | time => exact exact_readTime reader
  | integer | boolean | null | bitString | objectIdentifier =>
    exact exact_readJudged rfl _ reader

/-- A sequence where an integer was expected stays. -/
theorem refused_read_unchanged_iff_tag :
    readInteger (.new [0x30, 0x00]) = (.error .unexpectedTag, .new [0x30, 0x00]) ∧
      ∀ tag content, Front [0x30, 0x00] tag content → ¬ Refuses .integer integerOf tag content :=
  ⟨by decide, (refused_read_unchanged_iff .integer (.new [0x30, 0x00])).mp fun _ _ h =>
    (congrArg Prod.snd h).symm.trans (by decide)⟩

/-- The boolean `01` is refused and gone. -/
theorem refused_boolean_consumed :
    readBoolean (.new [0x01, 0x01, 0x01]) = (.error .badBoolean, .new []) := by
  decide

end Audhsos.Der
