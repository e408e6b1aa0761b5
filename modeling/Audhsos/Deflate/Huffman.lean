import Audhsos.Deflate.Bits
import Mathlib.Tactic.FieldSimp
import Mathlib.Tactic.Positivity

/-!
Code lengths in, codes out, and the other way round. Shorter codes come before longer ones, and
codes of one length in the order of their symbols. The writer hands them out one after the other;
the reader walks down the lengths, with the first code of each and how many there are.
-/

namespace Audhsos.Deflate

open Lib Function List

/-- The longest code the format allows. -/
def maxBits : Nat := 15

variable (n : Nat)

def sat16 : Nat := min n 65535

variable (counts : Nat → Nat)

/-- One more code of a length. A length the format does not have counts for none. -/
def countOne (length : Nat) : Nat → Nat :=
  if length = 0 ∨ maxBits < length then counts
  else update counts length (sat16 (counts length + 1))

variable (lengths : List Nat)

def countsOf : Nat → Nat := lengths.foldl countOne fun _ => 0

/-- How many codes of a length the shorter ones leave unused, if there are enough. -/
def unusedAt (counts : Nat → Nat) : Nat → Option Int
  | 0 => some 1
  | bits + 1 => (unusedAt counts bits).bind fun left =>
    if left * 2 - counts (bits + 1) < 0 then none else some (left * 2 - counts (bits + 1))

def unused : Option Int := unusedAt counts maxBits

/-! ## Writing -/

/-- The first code of each length. -/
def nextCode (counts : Nat → Nat) : Nat → Nat
  | 0 => 0
  | bits + 1 => sat16 (sat16 (nextCode counts bits + counts bits) * 2)

/-- Hands the codes out, with the next code of each length. -/
def assign : (Nat → Nat) → List Nat → List Nat
  | _, [] => []
  | next, length :: lengths =>
    if length = 0 ∨ maxBits < length then 0 :: assign next lengths
    else next length :: assign (update next length (sat16 (next length + 1))) lengths

structure Codes where
  code : List Nat
  length : List Nat

def Codes.new :
    Codes := ⟨assign (nextCode (countsOf lengths)) lengths, lengths⟩

/-! ## Reading -/

/-- How many codes there are of each length, and the symbols by length and then by symbol. -/
structure Tree where
  counts : Nat → Nat
  symbols : List Nat

/-- Where the symbols of a length begin. -/
def offset (counts : Nat → Nat) : Nat → Nat
  | 0 => 0
  | bits + 1 => offset counts bits + counts bits

def symbol16 (symbol : Nat) : Nat := if symbol < 65536 then symbol else 0

/-- Puts the symbols from one on in their places, with the next place of each length. -/
def place : Nat → (Nat → Nat) → List Nat → List Nat → List Nat
  | _, _, [], symbols => symbols
  | symbol, offsets, length :: lengths, symbols =>
    if length = 0 ∨ maxBits < length then place (symbol + 1) offsets lengths symbols
    else place (symbol + 1) (update offsets length (offsets length + 1)) lengths
      (symbols.set (offsets length) (symbol16 symbol))

namespace Tree

/-- The tree of `n` symbols; `lone` allows one code of length one. -/
def build (lone : Bool) : Except Error Tree :=
  let counts := countsOf lengths
  match unused counts with
  | none => .error .input
  | some left =>
    let total := (List.range (maxBits + 1)).foldl (fun sum bits => sat16 (sum + counts bits)) 0
    if 0 < left ∧ 0 < total ∧ ¬ (lone ∧ total = 1 ∧ counts 1 = 1) then .error .input
    else .ok ⟨counts, place 0 (offset counts) lengths (replicate n 0)⟩

def new : Except Error Tree := build n lengths false

def distances : Except Error Tree := build n lengths true

/-- Reads a bit at a time, until the code is one of those of the length read so far. A code is even
before its next bit goes in, and never below the first of its length. -/
def walk (tree : Tree) : Nat → Nat → Nat → Nat → Nat → Prog Error Reader Nat
  | 0, _, _, _, _ => Prog.throw .input
  | rounds + 1, bits, code, first, index => do
    let bit ← Reader.bit
    if code + bit < first + tree.counts bits then
      Prog.ofOption tree.symbols[index + (code + bit - first)]? .input
    else
      tree.walk rounds (bits + 1) ((code + bit) * 2) ((first + tree.counts bits) * 2)
        (index + tree.counts bits)

def decode (tree : Tree) : Prog Error Reader Nat := tree.walk maxBits 1 0 0 0

end Tree

/-! ## The weight of the codes -/

section Weight

variable {counts : Nat → Nat} {n m b : Nat}

/-- How much of the codes of a length the codes up to it take up. -/
def weight (counts : Nat → Nat) : Nat → Nat
  | 0 => counts 0
  | n + 1 => 2 * weight counts n + counts (n + 1)

variable (counts)

/-- The first code of each length, without a bound. -/
def firstCode : Nat → Nat
  | 0 => 0
  | n + 1 => 2 * weight counts n

theorem firstCode_add (n : Nat) : firstCode counts n + counts n = weight counts n := by
  cases n with
  | zero => exact zero_add _
  | succ n => rfl

theorem weight_shift (n m : Nat) :
    2 ^ (m + 1) * weight counts n ≤ firstCode counts (n + m + 1) := by
  induction m with
  | zero => exact le_rfl
  | succ m ih =>
    have hnext : 2 * weight counts (n + m + 1) = firstCode counts (n + (m + 1) + 1) := rfl
    have hsum := firstCode_add counts (n + m + 1)
    rw [pow_succ, mul_assoc, mul_comm 2, ← mul_assoc]
    omega

variable {counts}

theorem weight_le (hnm : n ≤ m) : 2 ^ (m - n) * weight counts n ≤ weight counts m := by
  obtain ⟨k, rfl⟩ := Nat.exists_eq_add_of_le hnm
  cases k with
  | zero => simp
  | succ k =>
    have hshift := weight_shift counts n k
    have hsum := firstCode_add counts (n + k + 1)
    rw [show n + (k + 1) - n = k + 1 by omega]
    exact hshift.trans (by rw [← add_assoc]; omega)

theorem counts_le_weight (hb : b ≤ n) : counts b ≤ weight counts n := by
  have hle := @weight_le counts b n hb
  have hsum := firstCode_add counts b
  have hone := Nat.le_mul_of_pos_left (weight counts b) (Nat.two_pow_pos (n - b))
  omega

theorem weight_fits (hfit : weight counts m ≤ 2 ^ m) (hnm : n ≤ m) : weight counts n ≤ 2 ^ n := by
  have hle := (@weight_le counts n m hnm).trans hfit
  rw [← Nat.sub_add_cancel hnm, Nat.pow_add] at hle
  rw [Nat.sub_add_cancel hnm] at hle
  exact Nat.le_of_mul_le_mul_left hle (Nat.two_pow_pos _)

theorem unusedAt_eq (hzero : counts 0 = 0) (n : Nat) : unusedAt counts n =
    if weight counts n ≤ 2 ^ n then some (2 ^ n - weight counts n : Int) else none := by
  induction n with
  | zero => simp [unusedAt, weight, hzero]
  | succ n ih =>
    unfold unusedAt
    rw [ih]
    by_cases hfit : weight counts n ≤ 2 ^ n
    · rw [if_pos hfit, Option.bind_some]
      have hcast : ((2 ^ n : Nat) : Int) = 2 ^ n := by norm_num
      have hweight : weight counts (n + 1) = 2 * weight counts n + counts (n + 1) := rfl
      by_cases hnext : weight counts (n + 1) ≤ 2 ^ (n + 1)
      · rw [if_pos hnext, if_neg (by omega)]
        congr 1
        omega
      · rw [if_neg hnext, if_pos (by omega)]
    · rw [if_neg hfit, if_neg fun h => hfit (weight_fits h (Nat.le_succ n))]
      rfl

theorem weight_add_one (hb : b ≠ 0) (n : Nat) :
    weight (fun i => counts i + if i = b then 1 else 0) n =
      weight counts n + if b ≤ n then 2 ^ (n - b) else 0 := by
  induction n with
  | zero => simp [weight, hb, Ne.symm hb]
  | succ n ih =>
    simp only [weight, ih]
    rcases Nat.lt_trichotomy b (n + 1) with hlt | rfl | hgt
    · rw [if_pos (by omega), if_neg (by omega), if_pos (by omega),
        show n + 1 - b = n - b + 1 by omega, pow_succ]
      ring
    · rw [if_neg (by omega), if_pos rfl, if_pos (le_rfl), tsub_self]
      ring
    · rw [if_neg (by omega), if_neg (by omega), if_neg (by omega)]
      ring

end Weight

/-! ## The counts -/

theorem countsOf_foldl (lengths : List Nat) (counts : Nat → Nat) (hle : ∀ b, counts b ≤ 65535)
    (b : Nat) : lengths.foldl countOne counts b =
      if b = 0 ∨ maxBits < b then counts b else sat16 (counts b + lengths.count b) := by
  induction lengths generalizing counts with
  | nil =>
    have hb := hle b
    simp [sat16, hb]
  | cons length lengths ih =>
    rw [foldl_cons]
    by_cases hlength : length = 0 ∨ maxBits < length
    · rw [show countOne counts length = counts from if_pos hlength, ih counts hle]
      by_cases hb : b = 0 ∨ maxBits < b
      · rw [if_pos hb, if_pos hb]
      · rw [if_neg hb, if_neg hb, count_cons_of_ne (by omega)]
    rw [show countOne counts length = _ from if_neg hlength, ih]
    · by_cases hb : b = 0 ∨ maxBits < b
      · rw [if_pos hb, if_pos hb, update_of_ne (by omega)]
      rw [if_neg hb, if_neg hb]
      by_cases heq : b = length
      · subst heq
        have hcount := hle b
        rw [update_self, count_cons_self]
        unfold sat16
        omega
      · rw [update_of_ne heq, count_cons_of_ne (Ne.symm heq)]
    · intro i
      by_cases hi : i = length
      · rw [hi, update_self]
        exact Nat.min_le_right _ _
      · rw [update_of_ne hi]
        exact hle i

/-- The codes of each length, without a bound. -/
def trueCounts (lengths : List Nat) (b : Nat) : Nat := if b = 0 then 0 else lengths.count b

section Counts

variable {lengths : List Nat}

theorem trueCounts_cons_zero (lengths : List Nat) :
    trueCounts (0 :: lengths) = trueCounts lengths := by
  funext b
  unfold trueCounts
  by_cases hb : b = 0
  · rw [if_pos hb, if_pos hb]
  · rw [if_neg hb, if_neg hb, count_cons_of_ne (Ne.symm hb)]

theorem trueCounts_cons {l : Nat} (hl : l ≠ 0) (lengths : List Nat) :
    trueCounts (l :: lengths) = fun i => trueCounts lengths i + if i = l then 1 else 0 := by
  funext b
  unfold trueCounts
  by_cases hb : b = l
  · subst hb
    simp [hl]
  · rw [if_neg hb, count_cons_of_ne (Ne.symm hb), add_zero]

theorem countsOf_zero (lengths : List Nat) : countsOf lengths 0 = 0 := by
  rw [countsOf, countsOf_foldl _ _ fun _ => Nat.zero_le _]
  rfl

theorem countsOf_eq_sat (hbits : ∀ l ∈ lengths, l ≤ maxBits) (b : Nat) :
    countsOf lengths b = sat16 (trueCounts lengths b) := by
  rw [countsOf, countsOf_foldl _ _ fun _ => Nat.zero_le _]
  unfold trueCounts
  by_cases hzero : b = 0
  · rw [if_pos (.inl hzero), if_pos hzero]
    rfl
  rw [if_neg hzero, zero_add]
  by_cases hlong : maxBits < b
  · rw [if_pos (.inr hlong), count_eq_zero_of_not_mem fun hmem => by
      have := hbits b hmem
      omega]
    rfl
  · rw [if_neg (by omega)]

theorem countsOf_eq (hbits : ∀ l ∈ lengths, l ≤ maxBits)
    (hfit : weight (countsOf lengths) maxBits ≤ 2 ^ maxBits ∨
      weight (trueCounts lengths) maxBits ≤ 2 ^ maxBits) :
    countsOf lengths = trueCounts lengths := by
  funext b
  have hsat := countsOf_eq_sat hbits b
  rw [hsat]
  by_cases hb : b ≤ maxBits
  · have hsmall : sat16 (trueCounts lengths b) ≤ 2 ^ maxBits ∨
        trueCounts lengths b ≤ 2 ^ maxBits := by
      refine hfit.imp (fun h => ?_) (counts_le_weight hb).trans
      rw [← hsat]
      exact (counts_le_weight hb).trans h
    unfold sat16 maxBits at *
    omega
  · have hzero : trueCounts lengths b = 0 := by
      unfold trueCounts
      rw [count_eq_zero_of_not_mem fun hmem => hb (hbits b hmem)]
      split <;> rfl
    rw [hzero]
    rfl

/-- The sum of `2 ^ -l` over the codes, where `l` is the length of a code. -/
def kraftSum (lengths : List Nat) : ℚ := ((lengths.filter (· ≠ 0)).map fun l => 1 / 2 ^ l).sum

theorem weight_eq_kraftSum (hbits : ∀ l ∈ lengths, l ≤ maxBits) :
    (weight (trueCounts lengths) maxBits : ℚ) = kraftSum lengths * 2 ^ maxBits := by
  induction lengths with
  | nil =>
    have hnone : weight (trueCounts []) maxBits = 0 := by decide
    rw [hnone]
    simp [kraftSum]
  | cons l lengths ih =>
    have hrest := ih fun k hk => hbits k (mem_cons_of_mem _ hk)
    have hl := hbits l mem_cons_self
    by_cases hzero : l = 0
    · subst hzero
      rw [trueCounts_cons_zero, hrest]
      simp [kraftSum]
    rw [trueCounts_cons hzero, weight_add_one hzero, if_pos hl]
    push_cast
    rw [hrest]
    have hpow : (2 : ℚ) ^ maxBits = 2 ^ (maxBits - l) * 2 ^ l := by
      rw [← pow_add, Nat.sub_add_cancel hl]
    simp only [kraftSum, filter_cons, decide_eq_true_eq]
    rw [if_pos hzero, map_cons, sum_cons, add_mul, hpow]
    field_simp
    ring

end Counts

end Audhsos.Deflate
