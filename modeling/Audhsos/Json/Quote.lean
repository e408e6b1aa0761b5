import Audhsos.Lib.Prog
import Mathlib.Data.BitVec

/-!
JSON strings in UTF-16 units: what the parser reads between quotation marks, and what `quote`
writes. A surrogate is written as it is only beside its other half, so the text is well formed even
where the units are not.
-/

namespace Audhsos.Json

open Lib Prog List

abbrev CodeUnit := BitVec 16

inductive Error where
  | invalid (position : Nat)
  | limit
deriving DecidableEq

/-! ## Reading a string -/

/-- The parser, with the limit of decoded units and the work that is left. -/
structure Parser where
  input : List CodeUnit
  position : Nat
  strings : Nat
  limit : Nat
  work : Nat

namespace Parser

def bump : Prog Error Parser CodeUnit := fun p =>
  match p.input[p.position]? with
  | none => (.error (.invalid p.position), p)
  | some unit =>
    if p.work = 0 then (.error .limit, p)
    else (.ok unit, { p with position := p.position + 1, work := p.work - 1 })

variable (unit : CodeUnit)

def eat : Prog Error Parser Bool := fun p =>
  if p.input[p.position]? = some unit then (do let _ ← bump; pure true) p else (.ok false, p)

def need : Prog Error Parser Unit := do
  if ← eat unit then pure () else fun p => (.error (.invalid p.position), p)

/-- The unit that was just read does not belong there. -/
def refuse {α : Type} : Prog Error Parser α := fun p => (.error (.invalid (p.position - 1)), p)

def hexDigit : Option CodeUnit :=
  if 48 ≤ unit.toNat ∧ unit.toNat ≤ 57 then some (unit - 48)
  else if 65 ≤ unit.toNat ∧ unit.toNat ≤ 70 then some (unit - 55)
  else if 97 ≤ unit.toNat ∧ unit.toNat ≤ 102 then some (unit - 87)
  else none

def hexadecimal : Nat → CodeUnit → Prog Error Parser CodeUnit
  | 0, n => pure n
  | rounds + 1, n => do
    match hexDigit (← bump) with
    | some digit => hexadecimal rounds (n * 16 + digit)
    | none => refuse

/-- The unit that a backslash and one letter stand for. -/
def shortEscape : Nat → Option CodeUnit
  | 34 => some 34
  | 92 => some 92
  | 47 => some 47
  | 98 => some 8
  | 102 => some 12
  | 110 => some 10
  | 114 => some 13
  | 116 => some 9
  | _ => none

/-- The next unit of the string, or nothing at its end. -/
def next : Prog Error Parser (Option CodeUnit) := do
  let unit ← bump
  if unit = 34 then pure none
  else if unit = 92 then do
    let code ← bump
    match shortEscape code.toNat with
    | some unit => pure (some unit)
    | none => if code = 117 then do pure (some (← hexadecimal 4 0)) else refuse
  else if unit.toNat ≤ 31 then refuse
  else pure (some unit)

/-- The loop over the units. Every round reads one at least, so the rounds end with the input. -/
def units : Nat → List CodeUnit → Prog Error Parser (List CodeUnit)
  | 0, _ => fun p => (.error (.invalid p.position), p)
  | rounds + 1, read => do
    match ← next with
    | none => pure read
    | some unit => do
      let p ← Prog.get
      require (p.strings + 1 ≤ p.limit) .limit
      Prog.modify fun p => { p with strings := p.strings + 1 }
      units rounds (read ++ [unit])

def string : Prog Error Parser (List CodeUnit) := do
  need 34
  let p ← Prog.get
  units (p.input.length - p.position + 1) []

end Parser

/-! ## Writing a string -/

structure Output where
  out : List CodeUnit
  work : Nat

def append (limit : Nat) (units : List CodeUnit) : Prog Error Output Unit := fun s =>
  if limit < s.out.length + units.length then (.error .limit, s)
  else if s.work < units.length then (.error .limit, s)
  else (.ok (), ⟨s.out ++ units, s.work - units.length⟩)

def escape : Nat → Option CodeUnit
  | 34 => some 34
  | 92 => some 92
  | 8 => some 98
  | 9 => some 116
  | 10 => some 110
  | 12 => some 102
  | 13 => some 114
  | _ => none

variable (unit : CodeUnit)

def isHigh : Bool := 0xd800 ≤ unit.toNat ∧ unit.toNat ≤ 0xdbff
def isLow : Bool := 0xdc00 ≤ unit.toNat ∧ unit.toNat ≤ 0xdfff

def lone (units : List CodeUnit) (index : Nat) (unit : CodeUnit) : Bool :=
  if isHigh unit then !(units[index + 1]?.any isLow)
  else if isLow unit then !(index ≠ 0 ∧ units[index - 1]?.any isHigh)
  else false

def nibble (shift : Nat) : CodeUnit := unit >>> shift &&& 15

def hexUnit (digit : CodeUnit) : CodeUnit := if digit.toNat < 10 then 48 + digit else 87 + digit

def hexText : List CodeUnit :=
  92 :: 117 :: [12, 8, 4, 0].map fun shift => hexUnit (nibble unit shift)

def written (alone : Bool) (unit : CodeUnit) : List CodeUnit :=
  match escape unit.toNat with
  | some code => [92, code]
  | none => if unit.toNat < 32 ∨ alone then hexText unit else [unit]

def quoteFrom (limit : Nat) (units : List CodeUnit) :
    Nat → List CodeUnit → Prog Error Output Unit
  | _, [] => pure ()
  | index, unit :: rest => do
    append limit (written (lone units index unit) unit)
    quoteFrom limit units (index + 1) rest

def quote (limit : Nat) (units : List CodeUnit) : Prog Error Output Unit := do
  append limit [34]
  quoteFrom limit units 0 units
  append limit [34]

/-! ## The grammar -/

/-- The characters of a JSON string, and the units they stand for. -/
inductive Chars : List CodeUnit → List CodeUnit → Prop where
  | nil : Chars [] []
  | plain {unit : CodeUnit} {text units : List CodeUnit} (h : 32 ≤ unit.toNat) (hquote : unit ≠ 34)
      (hslash : unit ≠ 92) (rest : Chars text units) : Chars (unit :: text) (unit :: units)
  | short {code unit : CodeUnit} {text units : List CodeUnit}
      (h : Parser.shortEscape code.toNat = some unit) (rest : Chars text units) :
      Chars (92 :: code :: text) (unit :: units)
  | hex {a b c d a' b' c' d' : CodeUnit} {text units : List CodeUnit}
      (ha : Parser.hexDigit a = some a') (hb : Parser.hexDigit b = some b')
      (hc : Parser.hexDigit c = some c') (hd : Parser.hexDigit d = some d')
      (rest : Chars text units) : Chars (92 :: 117 :: a :: b :: c :: d :: text)
        ((((a' * 16 + b') * 16 + c') * 16 + d') :: units)

/-- Every high surrogate stands before a low one, and every low one behind a high one. -/
def Paired : List CodeUnit → Prop
  | [] => True
  | [unit] => ¬ isHigh unit ∧ ¬ isLow unit
  | unit :: next :: rest =>
    if isHigh unit then isLow next ∧ Paired rest else ¬ isLow unit ∧ Paired (next :: rest)

namespace Parser

/-- The parser after reading `n` units, `decoded` of which it counted. -/
def took (p : Parser) (n decoded : Nat) : Parser :=
  { p with position := p.position + n, strings := p.strings + decoded, work := p.work - n }

/-- What is left to read, with the work to read it. -/
structure Ahead (p : Parser) (text : List CodeUnit) : Prop where
  rest : p.input.drop p.position = text
  work : text.length ≤ p.work

variable {p : Parser} {text : List CodeUnit} {unit : CodeUnit}

theorem Ahead.took (front : List CodeUnit) (h : Ahead p (front ++ text)) (decoded : Nat) :
    Ahead (p.took front.length decoded) text := by
  refine ⟨?_, ?_⟩
  · rw [Parser.took, ← drop_drop, h.rest, drop_left]
  · have := h.work
    simp only [length_append, Parser.took] at *
    omega

theorem Ahead.bump (h : Ahead p (unit :: text)) :
    bump p = (.ok unit, p.took 1 0) ∧ Ahead (p.took 1 0) text := by
  have hunit : p.input[p.position]? = some unit := by
    rw [← head?_drop, h.rest]
    rfl
  have hwork := h.work
  rw [length_cons] at hwork
  refine ⟨?_, h.took [unit] 0⟩
  simp [Parser.bump, hunit, Parser.took, show p.work ≠ 0 by omega]

theorem took_took (p : Parser) (a b c d : Nat) :
    (p.took a b).took c d = p.took (a + c) (b + d) := by
  simp only [took, add_assoc, Nat.sub_sub]

theorem Ahead.hexadecimal {a a' n : CodeUnit} (h : Ahead p (a :: text)) (ha : hexDigit a = some a')
    (rounds : Nat) :
    hexadecimal (rounds + 1) n p = hexadecimal rounds (n * 16 + a') (p.took 1 0) := by
  rw [Parser.hexadecimal, run_bind_ok h.bump.1, ha]

theorem units_step {q : Parser} (h : next p = (.ok (some unit), q))
    (hlimit : q.strings + 1 ≤ q.limit) (rounds : Nat) (read : List CodeUnit) :
    units (rounds + 1) read p = units rounds (read ++ [unit]) (q.took 0 1) := by
  rw [units, run_bind_ok h]
  simp only [run_bind, Prog.get, require, if_pos hlimit, Prog.modify]
  rfl

/-- The loop reads these characters, in front of the closing mark, as these units. -/
def Reads (text units : List CodeUnit) : Prop :=
  ∀ behind p rounds read, Ahead p (text ++ 34 :: behind) → p.strings + units.length ≤ p.limit →
    text.length < rounds → Parser.units rounds read p =
      (.ok (read ++ units), p.took (text.length + 1) units.length)

variable {units : List CodeUnit}

theorem Reads.more (front : List CodeUnit) (hne : front ≠ [])
    (hnext : ∀ p behind, Ahead p (front ++ behind) →
      next p = (.ok (some unit), p.took front.length 0))
    (ih : Reads text units) : Reads (front ++ text) (unit :: units) := by
  intro behind p rounds read h hlimit hrounds
  rw [append_assoc] at h
  have hpos := length_pos_iff.mpr hne
  simp only [length_append, length_cons] at hlimit hrounds ⊢
  obtain ⟨rounds, rfl⟩ : ∃ k, rounds = k + 1 := ⟨rounds - 1, by omega⟩
  rw [units_step (hnext p _ h) (by simp only [took]; omega), took_took, add_zero, zero_add,
    ih behind _ _ _ (h.took front 1) (by simp only [took]; omega) (by omega), took_took,
    append_assoc, add_assoc, add_comm 1]
  rfl

theorem reads_chars (h : Chars text units) : Reads text units := by
  induction h with
  | nil =>
    intro behind p rounds read h _ hrounds
    obtain ⟨rounds, rfl⟩ := Nat.exists_eq_add_of_lt hrounds
    have hnext : next p = (.ok none, p.took 1 0) := run_bind_ok h.bump.1
    rw [Parser.units, run_bind_ok hnext, append_nil]
    rfl
  | @plain unit _ _ hlow hquote hslash _ ih =>
    refine Reads.more [unit] (by simp) (fun p behind h => ?_) ih
    rw [next, run_bind_ok h.bump.1, if_neg hquote, if_neg hslash, if_neg (by omega)]
    rfl
  | @short code unit _ _ hcode _ ih =>
    refine Reads.more [92, code] (by simp) (fun p behind h => ?_) ih
    obtain ⟨hfirst, h₁⟩ := h.bump
    rw [next, run_bind_ok hfirst, if_neg (by decide), if_pos rfl, run_bind_ok h₁.bump.1, hcode]
    rfl
  | @hex a b c d _ _ _ _ _ _ ha hb hc hd _ ih =>
    refine Reads.more [92, 117, a, b, c, d] (by simp) (fun p behind h => ?_) ih
    obtain ⟨hfirst, h₁⟩ := h.bump
    obtain ⟨hsecond, h₂⟩ := h₁.bump
    obtain ⟨-, h₃⟩ := h₂.bump
    obtain ⟨-, h₄⟩ := h₃.bump
    obtain ⟨-, h₅⟩ := h₄.bump
    rw [next, run_bind_ok hfirst, if_neg (by decide), if_pos rfl, run_bind_ok hsecond]
    change (do let unit ← hexadecimal 4 0; pure (some unit) : Prog Error Parser _) _ = _
    rw [run_bind, h₂.hexadecimal ha, h₃.hexadecimal hb, h₄.hexadecimal hc, h₅.hexadecimal hd,
      hexadecimal, run_pure]
    simp only [took_took, zero_mul, zero_add]
    rfl

theorem string_chars {units behind : List CodeUnit} (h : Chars text units)
    (hahead : Ahead p (34 :: (text ++ 34 :: behind)))
    (hlimit : p.strings + units.length ≤ p.limit) :
    string p = (.ok units, p.took (text.length + 2) units.length) := by
  obtain ⟨hbump, h₁⟩ := hahead.bump
  have hunit : p.input[p.position]? = some 34 := by
    rw [← head?_drop, hahead.rest]
    rfl
  have hneed : need 34 p = (.ok (), p.took 1 0) := by
    rw [need, run_bind, eat, if_pos hunit, run_bind_ok hbump]
    rfl
  have hlength := congrArg List.length h₁.rest
  rw [length_drop, length_append] at hlength
  rw [string, run_bind_ok hneed]
  refine (reads_chars h behind _ _ [] h₁ hlimit (by omega)).trans ?_
  rw [took_took, add_comm 1, zero_add]
  rfl

end Parser

/-! ## What is written -/

/-- A surrogate without its other half, by the units before and behind it. -/
def alone (previous next : Option CodeUnit) (unit : CodeUnit) : Bool :=
  if isHigh unit then !(next.any isLow)
  else if isLow unit then !(previous.any isHigh)
  else false

def body : Option CodeUnit → List CodeUnit → List CodeUnit
  | _, [] => []
  | previous, unit :: rest => written (alone previous rest.head? unit) unit ++ body (some unit) rest

theorem lone_eq (before : List CodeUnit) (unit : CodeUnit) (rest : List CodeUnit) :
    lone (before ++ unit :: rest) before.length unit =
      alone before.getLast? rest.head? unit := by
  have hnext : (before ++ unit :: rest)[before.length + 1]? = rest.head? := by cases rest <;> simp
  unfold lone alone
  rw [hnext]
  cases before using reverseRecOn with
  | nil => simp
  | append_singleton before last => simp

variable {s s' : Output} {limit : Nat} {text : List CodeUnit} {unit : CodeUnit}

theorem out_of_append (h : append limit units s = (.ok (), s')) : s'.out = s.out ++ units := by
  unfold append at h
  split at h
  · cases h
  · split at h
    · cases h
    · cases h
      rfl

theorem out_of_quoteFrom (before rest : List CodeUnit)
    (h : quoteFrom limit (before ++ rest) before.length rest s = (.ok (), s')) :
    s'.out = s.out ++ body before.getLast? rest := by
  induction rest generalizing before s with
  | nil =>
    cases h
    exact (append_nil _).symm
  | cons unit rest ih =>
    obtain ⟨_, t, hfirst, hrest⟩ := ok_of_bind h
    rw [lone_eq] at hfirst
    have hrest := ih (before ++ [unit]) (by simpa using hrest)
    rw [hrest, out_of_append hfirst, getLast?_concat, append_assoc, body]

theorem toNat_nibble (unit : CodeUnit) (shift : Nat) :
    (nibble unit shift).toNat = unit.toNat / 2 ^ shift % 16 := by
  rw [nibble, BitVec.toNat_and, BitVec.toNat_ushiftRight, Nat.shiftRight_eq_div_pow]
  exact Nat.and_two_pow_sub_one_eq_mod _ 4

theorem nibble_cases {P : CodeUnit → Prop} (h : ∀ k < 16, P (.ofNat 16 k)) (unit : CodeUnit)
    (shift : Nat) : P (nibble unit shift) := by
  have hnibble := h (nibble unit shift).toNat (by rw [toNat_nibble]; exact Nat.mod_lt _ (by decide))
  rwa [BitVec.ofNat_toNat, BitVec.setWidth_eq] at hnibble

theorem hexDigit_nibble (unit : CodeUnit) (shift : Nat) :
    Parser.hexDigit (hexUnit (nibble unit shift)) = some (nibble unit shift) :=
  nibble_cases (P := fun d => Parser.hexDigit (hexUnit d) = some d) (by decide) unit shift

theorem shortEscape_of_escape {n : Nat} {code : CodeUnit} (h : escape n = some code) :
    Parser.shortEscape code.toNat = some (.ofNat 16 n) := by
  unfold escape at h
  split at h <;> cases h <;> rfl

theorem chars_written (single : Bool) (unit : CodeUnit) {units : List CodeUnit}
    (rest : Chars text units) : Chars (written single unit ++ text) (unit :: units) := by
  unfold written
  split
  next code hcode =>
    have hunit := shortEscape_of_escape hcode
    rw [BitVec.ofNat_toNat, BitVec.setWidth_eq] at hunit
    exact .short hunit rest
  next hnone =>
    split
    next =>
      have hchars := Chars.hex (hexDigit_nibble unit 12) (hexDigit_nibble unit 8)
        (hexDigit_nibble unit 4) (hexDigit_nibble unit 0) rest
      have hunit : ((nibble unit 12 * 16 + nibble unit 8) * 16 + nibble unit 4) * 16 +
          nibble unit 0 = unit := by
        have hlt := unit.isLt
        apply BitVec.eq_of_toNat_eq
        simp only [BitVec.toNat_add, BitVec.toNat_mul, toNat_nibble, BitVec.ofNat_eq_ofNat,
          BitVec.toNat_ofNat]
        omega
      rwa [hunit] at hchars
    next hplain => refine .plain (by omega) ?_ ?_ rest <;> rintro rfl <;> cases hnone

variable (previous : Option CodeUnit) (units : List CodeUnit)

theorem chars_body : Chars (body previous units) units := by
  induction units generalizing previous with
  | nil => exact .nil
  | cons unit units ih => exact chars_written _ unit (ih _)

/-- No surrogate. -/
def plain (unit : CodeUnit) : Prop := isHigh unit = false ∧ isLow unit = false

theorem paired_append (front : List CodeUnit)
    (hplain : ∀ unit ∈ front, plain unit) (h : Paired text) : Paired (front ++ text) := by
  induction front with
  | nil => exact h
  | cons unit front ih =>
    obtain ⟨hhigh, hlow⟩ := hplain unit mem_cons_self
    rw [cons_append]
    cases hfront : front ++ text <;> simp_all [Paired]

theorem plain_hexText (unit : CodeUnit) : ∀ other ∈ hexText unit, plain other := by
  have hdigit := fun shift =>
    nibble_cases (P := fun d => plain (hexUnit d)) (by unfold plain; decide) unit shift
  simp only [hexText, map_cons, map_nil, forall_mem_cons, hdigit,
    not_mem_nil, false_imp_iff, implies_true, and_true]
  exact ⟨⟨rfl, rfl⟩, rfl, rfl⟩

theorem plain_written (h : plain unit) : ∀ other ∈ written false unit, plain other := by
  unfold written
  split
  next code hcode =>
    unfold escape at hcode
    split at hcode <;> cases hcode <;> simp [plain, isHigh, isLow]
  next =>
    split
    · exact plain_hexText unit
    · simpa using h

theorem written_surrogate (h : 0xd800 ≤ unit.toNat) (single : Bool) :
    written single unit = if single then hexText unit else [unit] := by
  have hnone : escape unit.toNat = none := by
    unfold escape
    split <;> first | omega | rfl
  have hlarge : ¬ unit.toNat < 32 := by omega
  simp [written, hnone, hlarge]

/-- A high surrogate written as it is waits for the low one, with which the rest begins. -/
theorem paired_body :
    if previous.any isHigh ∧ units.head?.any isLow then
      ∃ low text, body previous units ++ [34] = low :: text ∧ isLow low ∧ Paired text
    else Paired (body previous units ++ [34]) := by
  induction units generalizing previous with
  | nil =>
    rw [if_neg (by simp)]
    exact ⟨by decide, by decide⟩
  | cons unit rest ih =>
    have hnext := ih (some unit)
    simp only [Option.any_some, head?_cons, body, append_assoc]
    simp only [Option.any_some] at hnext
    cases hhigh : isHigh unit with
    | true =>
      have hlarge : 0xd800 ≤ unit.toNat ∧ isLow unit = false := by
        simp only [isHigh, isLow, decide_eq_true_eq, decide_eq_false_iff_not] at hhigh ⊢
        omega
      rw [hlarge.2, if_neg (by simp), written_surrogate hlarge.1, alone, if_pos hhigh]
      cases hlow : rest.head?.any isLow with
      | true =>
        rw [if_pos ⟨hhigh, hlow⟩] at hnext
        obtain ⟨low, text, heq, hpair, htext⟩ := hnext
        rw [heq]
        simp [Paired, hhigh, hpair, htext]
      | false =>
        rw [if_neg (by simp [hlow])] at hnext
        exact paired_append _ (plain_hexText unit) hnext
    | false =>
      rw [if_neg (by simp [hhigh])] at hnext
      cases hlow : isLow unit with
      | true =>
        have hlarge : 0xd800 ≤ unit.toNat := by
          simp only [isLow, decide_eq_true_eq] at hlow
          omega
        rw [written_surrogate hlarge, alone, hhigh, if_neg Bool.false_ne_true, if_pos hlow]
        cases hbefore : previous.any isHigh with
        | true =>
          rw [if_pos ⟨rfl, rfl⟩]
          exact ⟨unit, _, rfl, hlow, hnext⟩
        | false =>
          rw [if_neg (by simp)]
          exact paired_append _ (plain_hexText unit) hnext
      | false =>
        rw [if_neg (by simp), alone, hhigh, hlow]
        exact paired_append _ (plain_written ⟨hhigh, hlow⟩) hnext

/-- What `quote` appends is a JSON string without a lone surrogate, the parser reads it back as the
units, and what stood in the output stays in front of it. -/
theorem quote_round_trip (limit : Nat) (units : List CodeUnit) (s s' : Output)
    (h : quote limit units s = (.ok (), s')) :
    ∃ text, s'.out = s.out ++ 34 :: text ++ [34] ∧ Chars text units ∧
      Paired (34 :: text ++ [34]) ∧
      ∀ strings work, units.length ≤ strings → text.length + 2 ≤ work →
        Parser.string ⟨34 :: text ++ [34], 0, 0, strings, work⟩ =
          (.ok units, ⟨34 :: text ++ [34], text.length + 2, units.length, strings,
            work - (text.length + 2)⟩) := by
  obtain ⟨_, t, hopen, h⟩ := ok_of_bind h
  obtain ⟨_, u, hunits, hclose⟩ := ok_of_bind h
  have hchars := chars_body none units
  refine ⟨body none units, ?_, hchars, ?_, fun strings work hstrings hwork => ?_⟩
  · rw [out_of_append hclose, out_of_quoteFrom [] units hunits, out_of_append hopen]
    simp
  · have hpaired := paired_body none units
    rw [if_neg (by simp)] at hpaired
    exact paired_append [34] (by simp [plain, isHigh, isLow]) hpaired
  · have hread := Parser.string_chars (p := ⟨34 :: body none units ++ [34], 0, 0, strings, work⟩)
      hchars ⟨rfl, by rw [length_cons, length_append]; exact hwork⟩
      ((zero_add _).trans_le hstrings)
    rw [hread]
    simp [Parser.took]

/-- A low surrogate before a high one: both are lone. -/
theorem quote_mismatched :
    (quote 20 [0xde00, 0xd83d] ⟨[9], 20⟩).1 = .ok () ∧
      ∃ text, (quote 20 [0xde00, 0xd83d] ⟨[9], 20⟩).2.out = 9 :: 34 :: text ++ [34] ∧
        Chars text [0xde00, 0xd83d] :=
  ⟨rfl, (quote_round_trip 20 [0xde00, 0xd83d] ⟨[9], 20⟩ _ rfl).imp fun _ h => ⟨h.1, h.2.1⟩⟩

end Audhsos.Json
