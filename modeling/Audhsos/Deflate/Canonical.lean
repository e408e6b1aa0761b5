import Audhsos.Deflate.Huffman

/-!
The code that the lengths stand for: what the writer hands out is free of prefixes, and the
reader's walk finds it again.
-/

namespace Audhsos.Deflate

open Lib Deflate.Tree Function List Nat Prog

/-! ## Ranks -/

section Rank

variable {lengths : List Nat} {s t l r : Nat}

/-- How many symbols before this one have codes of a length. -/
def rank (lengths : List Nat) (l s : Nat) : Nat := (lengths.take s).count l

section

variable (hs : lengths[s]? = some l)
include hs

theorem rank_lt (hst : s < t) : rank lengths l s < rank lengths l t := by
  obtain ⟨hlt, rfl⟩ := List.getElem?_eq_some_iff.mp hs
  have hnext : rank lengths lengths[s] (s + 1) = rank lengths lengths[s] s + 1 := by
    unfold rank
    rw [take_succ_eq_append_getElem hlt, count_append]
    simp
  have hle : rank lengths lengths[s] (s + 1) ≤ rank lengths lengths[s] t :=
    ((take_sublist_take_left (show s + 1 ≤ t from hst))).count_le _
  omega

theorem rank_inj (ht : lengths[t]? = some l) (h : rank lengths l s = rank lengths l t) : s = t := by
  rcases Nat.lt_trichotomy s t with hlt | heq | hgt
  · have := rank_lt hs hlt
    omega
  · exact heq
  · have := rank_lt ht hgt
    omega

theorem rank_lt_count : rank lengths l s < lengths.count l := by
  obtain ⟨hlt, -⟩ := List.getElem?_eq_some_iff.mp hs
  have hlast := rank_lt hs hlt
  unfold rank at hlast ⊢
  rwa [take_length] at hlast

end

theorem count_cons_eq (k : Nat) (lengths : List Nat) (l : Nat) :
    (k :: lengths).count l = lengths.count l + if k = l then 1 else 0 := by
  rw [count_cons]
  simp

theorem rank_cons (k : Nat) (lengths : List Nat) (l s : Nat) :
    rank (k :: lengths) l (s + 1) = rank lengths l s + if k = l then 1 else 0 := by
  unfold rank
  rw [take_succ_cons, count_cons_eq]

theorem exists_rank (hr : r < lengths.count l) :
    ∃ s, lengths[s]? = some l ∧ rank lengths l s = r := by
  induction lengths generalizing r with
  | nil => exact absurd hr (Nat.not_lt_zero r)
  | cons k lengths ih =>
    by_cases hk : k = l
    · subst hk
      cases r with
      | zero => exact ⟨0, rfl, rfl⟩
      | succ r =>
        rw [count_cons_self] at hr
        obtain ⟨s, hs, hrank⟩ := ih (lt_of_succ_lt_succ hr)
        refine ⟨s + 1, hs, ?_⟩
        rw [rank_cons, if_pos rfl, hrank]
    · rw [count_cons_of_ne hk] at hr
      obtain ⟨s, hs, hrank⟩ := ih hr
      refine ⟨s + 1, hs, ?_⟩
      rw [rank_cons, if_neg hk, hrank, add_zero]

end Rank

/-! ## The codes the writer hands out -/

section Codes

variable {lengths : List Nat} {counts next : Nat → Nat} {s l n : Nat}

theorem nextCode_eq (hfit : ∀ b ≤ maxBits, weight counts b ≤ 2 ^ b) (hn : n ≤ maxBits) :
    nextCode counts n = firstCode counts n := by
  induction n with
  | zero => rfl
  | succ n ih =>
    have hsum := firstCode_add counts n
    have hweight := hfit n (by omega)
    have hpow : 2 ^ n ≤ 2 ^ 14 := Nat.pow_le_pow_right (by decide) (by unfold maxBits at hn; omega)
    change sat16 (sat16 (nextCode counts n + counts n) * 2) = 2 * weight counts n
    unfold sat16
    omega

theorem assign_getElem? (hroom : next l + lengths.count l ≤ 65536) (hl : l ≠ 0)
    (hbits : l ≤ maxBits) (hs : lengths[s]? = some l) :
    (assign next lengths)[s]? = some (next l + rank lengths l s) := by
  induction lengths generalizing next s with
  | nil => cases hs
  | cons k lengths ih =>
    unfold assign
    cases s with
    | zero =>
      cases hs
      rw [if_neg (by omega)]
      rfl
    | succ s =>
      rw [count_cons] at hroom
      by_cases hk : k = 0 ∨ maxBits < k
      · have hne : k ≠ l := by omega
        rw [if_pos hk, getElem?_cons_succ, ih (by omega) hs, rank_cons, if_neg hne]
        rfl
      rw [if_neg hk, getElem?_cons_succ]
      by_cases heq : k = l
      · subst heq
        simp only [beq_self_eq_true, if_true] at hroom
        have hpos : 0 < lengths.count k := count_pos_iff.mpr (mem_of_getElem? hs)
        have hstep : sat16 (next k + 1) = next k + 1 := by
          unfold sat16
          omega
        rw [ih (by rw [update_self, hstep]; omega) hs, update_self, hstep, rank_cons, if_pos rfl]
        congr 1
        omega
      · rw [ih (by rw [update_of_ne (Ne.symm heq)]; omega) hs,
          update_of_ne (Ne.symm heq), rank_cons, if_neg heq]
        rfl

end Codes

/-! ## The places of the symbols -/

section Places

variable {lengths symbols : List Nat} {offsets : Nat → Nat} {s l q first : Nat}

theorem update_succ (offsets : Nat → Nat) (k b : Nat) :
    update offsets k (offsets k + 1) b = offsets b + if k = b then 1 else 0 := by
  by_cases heq : k = b
  · rw [if_pos heq, ← heq, update_self]
  · rw [if_neg heq, update_of_ne (Ne.symm heq), add_zero]

theorem place_frame (hq : ∀ l, l ≠ 0 → l ≤ maxBits → q < offsets l ∨ offsets l + lengths.count l ≤ q) :
    (place first offsets lengths symbols)[q]? = symbols[q]? := by
  induction lengths generalizing first offsets symbols with
  | nil => rfl
  | cons k lengths ih =>
    unfold place
    by_cases hk : k = 0 ∨ maxBits < k
    · rw [if_pos hk]
      refine ih fun l hl hbits => ?_
      have := hq l hl hbits
      rw [count_cons_eq] at this
      omega
    · have hhere := hq k (by omega) (by omega)
      rw [count_cons_eq, if_pos rfl] at hhere
      rw [if_neg hk, ih, getElem?_set_ne (by omega)]
      intro l hl hbits
      have hother := hq l hl hbits
      rw [count_cons_eq] at hother
      rw [update_succ]
      omega

/-- Every symbol is in its place: behind the shorter codes, and the symbols before it. -/
theorem place_getElem? (hapart : ∀ a b, a ≠ 0 → a < b → b ≤ maxBits →
      offsets a + lengths.count a ≤ offsets b)
    (hroom : ∀ l, l ≠ 0 → l ≤ maxBits → offsets l + lengths.count l ≤ symbols.length)
    (hl : l ≠ 0) (hbits : l ≤ maxBits) (hs : lengths[s]? = some l) :
    (place first offsets lengths symbols)[offsets l + rank lengths l s]? =
      some (symbol16 (first + s)) := by
  induction lengths generalizing first offsets symbols s with
  | nil => cases hs
  | cons k lengths ih =>
    unfold place
    cases s with
    | zero =>
      cases hs
      have hhere := hroom l hl hbits
      rw [count_cons_eq, if_pos rfl] at hhere
      rw [if_neg (by omega), place_frame, show offsets l + rank (l :: lengths) l 0 = offsets l from rfl,
        getElem?_set_self (by omega)]
      · rfl
      intro b hb hle
      change offsets l < _ ∨ _ ≤ offsets l
      rw [update_succ]
      rcases Nat.lt_trichotomy b l with hlt | rfl | hgt
      · have := hapart b l hb hlt hbits
        rw [count_cons_eq] at this
        omega
      · rw [if_pos rfl]
        omega
      · have := hapart l b hl hgt hle
        rw [count_cons_eq, if_pos rfl] at this
        omega
    | succ s =>
      have hsymbol : first + (s + 1) = first + 1 + s := by omega
      by_cases hk : k = 0 ∨ maxBits < k
      · have hne : k ≠ l := by omega
        rw [if_pos hk, rank_cons, if_neg hne, hsymbol]
        refine ih (fun a b ha hab hb => ?_) (fun b hb hle => ?_) hs
        · have := hapart a b ha hab hb
          rw [count_cons_eq] at this
          omega
        · have := hroom b hb hle
          rw [count_cons_eq] at this
          omega
      · rw [if_neg hk, rank_cons, hsymbol]
        have hplace : offsets l + (rank lengths l s + if k = l then 1 else 0) =
            update offsets k (offsets k + 1) l + rank lengths l s := by
          rw [update_succ]
          omega
        rw [hplace]
        refine ih (fun a b ha hab hb => ?_) (fun b hb hle => ?_) hs
        · have := hapart a b ha hab hb
          rw [count_cons_eq] at this
          rw [update_succ, update_succ]
          omega
        · have := hroom b hb hle
          rw [count_cons_eq] at this
          rw [update_succ, length_set]
          omega

end Places

/-! ## The bits of a code -/

/-- The low bits of a code, the most significant first. -/
def codeBits (code : Nat) : Nat → List Bool
  | 0 => []
  | n + 1 => code.testBit n :: codeBits code n

section Bits

variable {v w n : Nat}

theorem length_codeBits (v n : Nat) : (codeBits v n).length = n := by
  induction n with
  | zero => rfl
  | succ n ih => rw [codeBits, length_cons, ih]

theorem take_codeBits (v n m : Nat) : (codeBits v (n + m)).take n = codeBits (v >>> m) n := by
  induction n with
  | zero => rfl
  | succ n ih =>
    rw [Nat.add_right_comm, codeBits, codeBits, take_succ_cons, ih, testBit_shiftRight,
      add_comm m n]

theorem codeBits_snoc (v : Nat) (x : Bool) (n : Nat) :
    codeBits (v * 2 + x.toNat) (n + 1) = codeBits v n ++ [x] := by
  induction n with
  | zero => cases x <;> simp [codeBits]
  | succ n ih =>
    rw [codeBits, ih, codeBits, cons_append]
    congr 1
    rw [testBit_succ]
    congr 1
    have hbit := x.toNat_le
    omega

theorem codeBits_inj (hv : v < 2 ^ n) (hw : w < 2 ^ n) (h : codeBits v n = codeBits w n) :
    v = w := by
  have hbits : ∀ n, codeBits v n = codeBits w n → ∀ i < n, v.testBit i = w.testBit i := by
    intro n
    induction n with
    | zero => exact fun _ i hi => absurd hi (Nat.not_lt_zero i)
    | succ n ih =>
      intro heq i hi
      obtain ⟨hhead, htail⟩ := List.cons.inj heq
      rcases Nat.lt_succ_iff_lt_or_eq.mp hi with hlt | rfl
      · exact ih htail i hlt
      · exact hhead
  apply eq_of_testBit_eq
  intro i
  by_cases hi : i < n
  · exact hbits n h i hi
  · have hpow := Nat.pow_le_pow_right (show 0 < 2 by decide) (le_of_not_gt hi)
    rw [testBit_lt_two_pow (by omega), testBit_lt_two_pow (by omega)]

theorem shiftRight_step (v n : Nat) : (v >>> (n + 1)) * 2 + (v.testBit n).toNat = v >>> n := by
  rw [shiftRight_succ, testBit_eq_decide_div_mod_eq, ← shiftRight_eq_div_pow]
  rcases mod_two_eq_zero_or_one (v >>> n) with h | h <;> simp [h] <;> omega

end Bits

/-! ## The walk -/

section Walk

variable {tree : Tree} {v l : Nat} {reader : Reader} {tail : List Bool}

/-- The walk over the bits of a code ends behind them, at the place of its symbol. -/
theorem walk_code (hlow : firstCode tree.counts l ≤ v)
    (hhigh : v < firstCode tree.counts l + tree.counts l) (n b rounds : Nat) (hb : b + n = l)
    (hrounds : n ≤ rounds) (hrest : reader.rest = codeBits v (n + 1) ++ tail) :
    ∃ reader', reader'.rest = tail ∧
      tree.walk (rounds + 1) b ((v >>> (n + 1)) * 2) (firstCode tree.counts b)
        (offset tree.counts b) reader =
      (tree.symbols[offset tree.counts l + (v - firstCode tree.counts l)]?.elim (.error .input) .ok,
        reader') := by
  induction n generalizing b rounds reader with
  | zero =>
    obtain rfl : b = l := hb
    obtain ⟨reader', hafter, hbit⟩ := Reader.bit_cons hrest
    refine ⟨reader', hafter, ?_⟩
    unfold walk
    rw [run_bind_ok hbit, run_ite, shiftRight_step, shiftRight_zero, if_pos hhigh]
    rfl
  | succ n ih =>
    obtain ⟨reader', hafter, hbit⟩ := Reader.bit_cons hrest
    -- the codes of this length end before the code read so far
    have hbeyond : ¬ v >>> (n + 1) < firstCode tree.counts b + tree.counts b := by
      rw [firstCode_add, not_lt, shiftRight_eq_div_pow,
        Nat.le_div_iff_mul_le (Nat.two_pow_pos _), mul_comm]
      have hshift := weight_shift tree.counts b n
      rw [add_assoc, hb] at hshift
      exact hshift.trans hlow
    obtain ⟨rounds, rfl⟩ := exists_eq_succ_of_ne_zero (show rounds ≠ 0 by omega)
    obtain ⟨reader'', hend, hwalk⟩ := ih (b + 1) rounds (by omega) (by omega) hafter
    refine ⟨reader'', hend, ?_⟩
    unfold walk
    rw [run_bind_ok hbit, run_ite, shiftRight_step, if_neg hbeyond, firstCode_add,
      mul_comm (weight _ _)]
    exact hwalk

theorem walk_cases (rounds k u : Nat) (reader : Reader) (hu : weight tree.counts k ≤ u) :
    (∃ l v tail, k < l ∧ l ≤ k + rounds ∧ firstCode tree.counts l ≤ v ∧
      v < firstCode tree.counts l + tree.counts l ∧
      codeBits u k ++ reader.rest = codeBits v l ++ tail) ∨
    ∃ reader', tree.walk rounds (k + 1) (u * 2) (firstCode tree.counts (k + 1))
      (offset tree.counts (k + 1)) reader = (.error .input, reader') := by
  induction rounds generalizing k u reader with
  | zero => exact .inr ⟨reader, rfl⟩
  | succ rounds ih =>
    cases hrest : reader.rest with
    | nil =>
      obtain ⟨reader', -, hbit⟩ := Reader.bit_nil hrest
      exact .inr ⟨reader', run_bind_error hbit⟩
    | cons x tail =>
      obtain ⟨reader', hafter, hbit⟩ := Reader.bit_cons hrest
      have hsplit : codeBits u k ++ x :: tail = codeBits (u * 2 + x.toNat) (k + 1) ++ tail := by
        rw [codeBits_snoc, append_assoc]
        rfl
      have hfirst : firstCode tree.counts (k + 1) = 2 * weight tree.counts k := rfl
      by_cases hfound : u * 2 + x.toNat <
          firstCode tree.counts (k + 1) + tree.counts (k + 1)
      · exact .inl ⟨k + 1, _, tail, by omega, by omega, by omega, hfound, hsplit⟩
      have hweight := firstCode_add tree.counts (k + 1)
      unfold walk
      rw [run_bind_ok hbit, run_ite, if_neg hfound, hweight, mul_comm (weight _ _)]
      have hlater := ih (k + 1) (u * 2 + x.toNat) reader' (by omega)
      rw [hafter, ← hsplit] at hlater
      refine hlater.imp_left ?_
      rintro ⟨l, v, rest, hlow, hhigh, hcode⟩
      exact ⟨l, v, rest, by omega, by omega, hcode⟩

end Walk

/-! ## What is accepted -/

section Accepted

variable {lengths : List Nat} {n l : Nat} (counts : Nat → Nat)

theorem offset_add_one (b n : Nat) :
    offset (fun i => counts i + if i = b then 1 else 0) n =
      offset counts n + if b < n then 1 else 0 := by
  induction n with
  | zero => rfl
  | succ n ih =>
    simp only [offset, ih]
    split <;> split <;> split <;> omega

theorem offset_maxBits (hbits : ∀ l ∈ lengths, l ≤ maxBits) :
    offset (trueCounts lengths) (maxBits + 1) = (lengths.filter (· ≠ 0)).length := by
  induction lengths with
  | nil => decide
  | cons l lengths ih =>
    have hrest := ih fun k hk => hbits k (mem_cons_of_mem _ hk)
    have hl := hbits l mem_cons_self
    by_cases hzero : l = 0
    · subst hzero
      rw [trueCounts_cons_zero, hrest]
      simp
    · rw [trueCounts_cons hzero, offset_add_one, hrest, if_pos (by omega)]
      simp [hzero]

theorem offset_mono {a b : Nat} (h : a ≤ b) : offset counts a ≤ offset counts b := by
  induction h with
  | refl => exact le_rfl
  | step _ ih => exact ih.trans (Nat.le_add_right _ _)

theorem total_eq (n : Nat) :
    (List.range n).foldl (fun sum bits => sat16 (sum + counts bits)) 0 =
      sat16 (offset counts n) := by
  induction n with
  | zero => rfl
  | succ n ih =>
    rw [range_succ, foldl_append, ih]
    simp only [foldl_cons, foldl_nil, offset, sat16]
    omega

theorem lone_iff : (lengths.filter (· ≠ 0)).length = 1 ∧ trueCounts lengths 1 = 1 ↔
    lengths.filter (· ≠ 0) = [1] := by
  have hcount : trueCounts lengths 1 = (lengths.filter (· ≠ 0)).count 1 := by
    unfold trueCounts
    rw [if_neg (by decide), count_filter (by decide)]
  rw [hcount]
  constructor
  · rintro ⟨hlength, hone⟩
    obtain ⟨x, hx⟩ := length_eq_one_iff.mp hlength
    have hmem : 1 ∈ lengths.filter (· ≠ 0) := count_pos_iff.mp (by omega)
    rw [hx, mem_singleton] at hmem
    rw [hx, hmem]
  · intro h
    rw [h]
    exact ⟨rfl, rfl⟩

section

variable (hbits : ∀ l ∈ lengths, l ≤ maxBits)
include hbits

/-- The tree of lengths whose codes are complete, or none, or the lone one. -/
theorem build_eq (n : Nat) (lone : Bool) :
    build n lengths lone =
      if weight (trueCounts lengths) maxBits ≤ 2 ^ maxBits ∧
        (weight (trueCounts lengths) maxBits = 2 ^ maxBits ∨ lengths.filter (· ≠ 0) = [] ∨
          lone = true ∧ lengths.filter (· ≠ 0) = [1]) then
        .ok ⟨trueCounts lengths,
          place 0 (offset (trueCounts lengths)) lengths (replicate n 0)⟩
      else .error .input := by
  have hunused : unused (countsOf lengths) = _ := unusedAt_eq (countsOf_zero lengths) maxBits
  unfold build
  dsimp only
  rw [hunused]
  by_cases hfit : weight (trueCounts lengths) maxBits ≤ 2 ^ maxBits
  · have hcounts := countsOf_eq hbits (.inr hfit)
    have htotal : 0 < sat16 (lengths.filter (· ≠ 0)).length ↔ lengths.filter (· ≠ 0) ≠ [] := by
      rw [← length_pos_iff]
      unfold sat16
      omega
    have hone : sat16 (lengths.filter (· ≠ 0)).length = 1 ↔
        (lengths.filter (· ≠ 0)).length = 1 := by
      unfold sat16
      omega
    have hleft : (0 : Int) < 2 ^ maxBits - weight (trueCounts lengths) maxBits ↔
        weight (trueCounts lengths) maxBits ≠ 2 ^ maxBits := by
      unfold maxBits at hfit ⊢
      omega
    rw [hcounts, if_pos hfit]
    dsimp only
    rw [total_eq, offset_maxBits hbits]
    by_cases hall : weight (trueCounts lengths) maxBits = 2 ^ maxBits ∨
        lengths.filter (· ≠ 0) = [] ∨ lone = true ∧ lengths.filter (· ≠ 0) = [1]
    · refine (if_neg ?_).trans (if_pos ⟨hfit, hall⟩).symm
      rw [htotal, hone, lone_iff, hleft]
      tauto
    · refine (if_pos ?_).trans (if_neg fun h => hall h.2).symm
      rw [htotal, hone, lone_iff, hleft]
      tauto
  · have hcounts : ¬ weight (countsOf lengths) maxBits ≤ 2 ^ maxBits := by
      intro h
      rw [countsOf_eq hbits (.inl h)] at h
      exact hfit h
    rw [if_neg hcounts, if_neg fun h => hfit h.1]

theorem weight_eq_iff :
    weight (trueCounts lengths) maxBits = 2 ^ maxBits ↔ kraftSum lengths = 1 := by
  have hsum := weight_eq_kraftSum hbits
  have hpos : (2 : ℚ) ^ maxBits ≠ 0 := by positivity
  constructor
  · intro h
    rw [h] at hsum
    push_cast at hsum
    exact mul_right_cancel₀ hpos (by rw [← hsum, one_mul])
  · intro h
    rw [h, one_mul] at hsum
    exact_mod_cast hsum

theorem weight_small (h : lengths.filter (· ≠ 0) = [] ∨ lengths.filter (· ≠ 0) = [1]) :
    weight (trueCounts lengths) maxBits ≤ 2 ^ maxBits := by
  have hsum := weight_eq_kraftSum hbits
  have hle : kraftSum lengths ≤ 1 := by
    unfold kraftSum
    rcases h with h | h
    · rw [h]
      norm_num
    · rw [h]
      norm_num
  have hcast : (weight (trueCounts lengths) maxBits : ℚ) ≤ ((2 ^ maxBits : Nat) : ℚ) := by
    rw [hsum]
    push_cast
    exact mul_le_of_le_one_left (by positivity) hle
  exact_mod_cast hcast

theorem accepts_iff (n : Nat) (lone : Bool) :
    (∃ tree, build n lengths lone = .ok tree) ↔
      kraftSum lengths = 1 ∨ (∀ l ∈ lengths, l = 0) ∨
        lone = true ∧ lengths.filter (· ≠ 0) = [1] := by
  have hnone : lengths.filter (· ≠ 0) = [] ↔ ∀ l ∈ lengths, l = 0 := by simp [filter_eq_nil_iff]
  rw [build_eq hbits, ← weight_eq_iff hbits, ← hnone]
  constructor
  · rintro ⟨tree, htree⟩
    split at htree
    · next h => exact h.2
    · cases htree
  · intro h
    refine ⟨_, if_pos ⟨?_, h⟩⟩
    rcases h with h | h | h
    · exact le_of_eq h
    · exact weight_small hbits (.inl h)
    · exact weight_small hbits (.inr h.2)

end

end Accepted

/-! ## The code -/

variable (lengths : List Nat)

/-- A symbol that has a code. -/
def Coded (s : Nat) : Prop := ∃ l, lengths[s]? = some l ∧ l ≠ 0

/-- The bits of the code a symbol is written as, the most significant first. -/
def bitsOf (s : Nat) : List Bool :=
  codeBits ((Codes.new lengths).code.getD s 0) ((Codes.new lengths).length.getD s 0)

section Code

variable {lengths : List Nat} {n s t l : Nat} {lone : Bool} {tree : Tree}

theorem build_ok (hbits : ∀ l ∈ lengths, l ≤ maxBits) (h : build n lengths lone = .ok tree) :
    tree = ⟨trueCounts lengths,
      place 0 (offset (trueCounts lengths)) lengths (replicate n 0)⟩ ∧
    ∀ b ≤ maxBits, weight (trueCounts lengths) b ≤ 2 ^ b := by
  rw [build_eq hbits] at h
  split at h
  next hfit => exact ⟨(Except.ok.inj h).symm, fun b hb => weight_fits hfit.1 hb⟩
  · cases h

/-- The code of a symbol: behind those of its length that were handed out before. -/
theorem bitsOf_eq (hbits : ∀ l ∈ lengths, l ≤ maxBits)
    (hfit : ∀ b ≤ maxBits, weight (trueCounts lengths) b ≤ 2 ^ b) (hs : lengths[s]? = some l)
    (hl : l ≠ 0) :
    bitsOf lengths s = codeBits (firstCode (trueCounts lengths) l + rank lengths l s) l := by
  have hle := hbits l (mem_of_getElem? hs)
  have hcounts := countsOf_eq hbits (.inr (hfit maxBits (le_rfl)))
  have hfirst := nextCode_eq hfit hle
  have hsum := firstCode_add (trueCounts lengths) l
  have hcount : trueCounts lengths l = lengths.count l := if_neg hl
  have hroom : nextCode (trueCounts lengths) l + lengths.count l ≤ 65536 := by
    have hpow : 2 ^ l ≤ 2 ^ 15 := Nat.pow_le_pow_right (by decide) hle
    have := hfit l hle
    omega
  unfold bitsOf Codes.new
  rw [hcounts, getD_eq_getElem?_getD, getD_eq_getElem?_getD,
    assign_getElem? hroom hl hle hs, hs, hfirst]
  rfl

theorem rank_bounds (hs : lengths[s]? = some l) (hl : l ≠ 0) :
    rank lengths l s < trueCounts lengths l := by
  rw [show trueCounts lengths l = lengths.count l from if_neg hl]
  exact rank_lt_count hs

section

variable (hbits : ∀ l ∈ lengths, l ≤ maxBits)
include hbits

/-- A code that begins with another is that one. -/
theorem prefix_free
    (hfit : ∀ b ≤ maxBits, weight (trueCounts lengths) b ≤ 2 ^ b) (hs : Coded lengths s)
    (ht : Coded lengths t) (h : bitsOf lengths s <+: bitsOf lengths t) : s = t := by
  obtain ⟨l, hsl, hl⟩ := hs
  obtain ⟨k, htk, hk⟩ := ht
  have hlmax := hbits l (mem_of_getElem? hsl)
  have hkmax := hbits k (mem_of_getElem? htk)
  have hslt := rank_bounds hsl hl
  have htlt := rank_bounds htk hk
  have hlsum := firstCode_add (trueCounts lengths) l
  have hksum := firstCode_add (trueCounts lengths) k
  have hlfit := hfit l hlmax
  have hkfit := hfit k hkmax
  rw [bitsOf_eq hbits hfit hsl hl, bitsOf_eq hbits hfit htk hk] at h
  have hle : l ≤ k := by
    have := h.length_le
    rwa [length_codeBits, length_codeBits] at this
  obtain ⟨m, rfl⟩ := Nat.exists_eq_add_of_le hle
  rw [prefix_iff_eq_take, length_codeBits, take_codeBits] at h
  have hshift : (firstCode (trueCounts lengths) (l + m) + rank lengths (l + m) t) >>> m < 2 ^ l := by
    rw [shiftRight_eq_div_pow, Nat.div_lt_iff_lt_mul (Nat.two_pow_pos m), ← Nat.pow_add]
    omega
  have hcode := codeBits_inj (by omega) hshift h
  cases m with
  | zero => exact rank_inj hsl htk (Nat.add_left_cancel hcode)
  | succ m =>
    -- a longer code lies behind all codes of this length
    exfalso
    have hbeyond : weight (trueCounts lengths) l ≤
        (firstCode (trueCounts lengths) (l + (m + 1)) + rank lengths (l + (m + 1)) t) >>> (m + 1) := by
      rw [shiftRight_eq_div_pow, Nat.le_div_iff_mul_le (Nat.two_pow_pos _), mul_comm]
      exact (weight_shift (trueCounts lengths) l m).trans (Nat.le_add_right _ _)
    omega

section

variable {size : Nat} (h : build size lengths lone = .ok tree)
include h

theorem decode_code (hsize : lengths.length ≤ size) (hs : Coded lengths s)
    {reader : Reader} {tail : List Bool} (hrest : reader.rest = bitsOf lengths s ++ tail) :
    ∃ reader', reader'.rest = tail ∧ tree.decode reader = (.ok (symbol16 s), reader') := by
  obtain ⟨rfl, hfit⟩ := build_ok hbits h
  obtain ⟨l, hsl, hl⟩ := hs
  have hlmax := hbits l (mem_of_getElem? hsl)
  have hslt := rank_bounds hsl hl
  have hcounted : ∀ b, b ≠ 0 → trueCounts lengths b = lengths.count b := fun b hb => if_neg hb
  rw [bitsOf_eq hbits hfit hsl hl] at hrest
  obtain ⟨k, rfl⟩ : ∃ k, l = k + 1 := ⟨l - 1, by omega⟩
  have hplace := @place_getElem? lengths (replicate size 0)
    (offset (trueCounts lengths)) s (k + 1) 0
    (fun a b ha hab _ => by
      rw [← hcounted a ha]
      exact offset_mono (trueCounts lengths) (show a + 1 ≤ b from hab))
    (fun b hb hle => by
      rw [← hcounted b hb, length_replicate]
      have hall := offset_mono (trueCounts lengths) (show b + 1 ≤ maxBits + 1 by omega)
      rw [offset_maxBits hbits] at hall
      exact hall.trans ((length_filter_le _ _).trans hsize)) hl hlmax hsl
  have hsmall : (firstCode (trueCounts lengths) (k + 1) + rank lengths (k + 1) s) >>> (k + 1) = 0 := by
    have hsum := firstCode_add (trueCounts lengths) (k + 1)
    have := hfit (k + 1) hlmax
    rw [shiftRight_eq_div_pow]
    exact div_eq_of_lt (by omega)
  obtain ⟨reader', hend, hwalk⟩ := @walk_code ⟨trueCounts lengths,
    place 0 (offset (trueCounts lengths)) lengths (replicate size 0)⟩ _ (k + 1) reader
    tail (Nat.le_add_right _ _) (Nat.add_lt_add_left hslt _) k 1 14 (by omega)
    (by unfold maxBits at hlmax; omega) hrest
  refine ⟨reader', hend, ?_⟩
  rw [hsmall, Nat.add_sub_cancel_left, hplace, zero_add] at hwalk
  exact hwalk

theorem decode_cases (reader : Reader) :
    (∃! s, Coded lengths s ∧ bitsOf lengths s <+: reader.rest) ∨
      ∃ reader', tree.decode reader = (.error .input, reader') := by
  obtain ⟨htree, hfit⟩ := build_ok hbits h
  have hcounts : tree.counts = trueCounts lengths := by rw [htree]
  have hdecode : tree.decode = tree.walk maxBits (0 + 1) (0 * 2) (firstCode tree.counts (0 + 1))
      (offset tree.counts (0 + 1)) := by
    rw [htree]
    rfl
  rw [hdecode]
  refine (@walk_cases tree maxBits 0 0 reader (by rw [hcounts]; exact le_refl 0)).imp_left ?_
  rintro ⟨l, v, tail, hpos, hle, hlow, hhigh, hcode⟩
  rw [hcounts] at hlow hhigh
  have hl : l ≠ 0 := by omega
  obtain ⟨s, hs, hrank⟩ := @exists_rank lengths l (v - firstCode (trueCounts lengths) l) (by
    rw [← show trueCounts lengths l = lengths.count l from if_neg hl]
    omega)
  have hthis : bitsOf lengths s = codeBits v l := by
    rw [bitsOf_eq hbits hfit hs hl, hrank, Nat.add_sub_cancel' hlow]
  have hfront : reader.rest = codeBits v l ++ tail := hcode
  refine ⟨s, ⟨⟨l, hs, hl⟩, hthis ▸ hfront ▸ prefix_append _ _⟩, ?_⟩
  rintro t ⟨ht, hprefix⟩
  rw [hfront, ← hthis] at hprefix
  rcases prefix_or_prefix_of_prefix hprefix (prefix_append _ tail) with hts | hst
  · exact prefix_free hbits hfit ht ⟨l, hs, hl⟩ hts
  · exact (prefix_free hbits hfit ⟨l, hs, hl⟩ ht hst).symm

end

end

end Code

/-- The codes of lengths that a tree with a place for each accepts are free of prefixes, the tree
reads them back, and bits that begin with none are an error; and a tree accepts the lengths of complete codes, of no
code at all and, for distances, of one code of one bit. -/
theorem canonical_code (size : Nat) (lengths : List Nat) (hsize : lengths.length ≤ size)
    (hbits : ∀ l ∈ lengths, l ≤ maxBits) :
    (∀ lone tree, build size lengths lone = .ok tree →
      (∀ s t, Coded lengths s → Coded lengths t → bitsOf lengths s <+: bitsOf lengths t → s = t) ∧
      (lengths.length ≤ 65536 → ∀ s reader tail, Coded lengths s →
        reader.rest = bitsOf lengths s ++ tail →
        ∃ reader', reader'.rest = tail ∧ tree.decode reader = (.ok s, reader')) ∧
      ∀ reader, (∃! s, Coded lengths s ∧ bitsOf lengths s <+: reader.rest) ∨
        ∃ reader', tree.decode reader = (.error .input, reader')) ∧
    ((∃ tree, new size lengths = .ok tree) ↔
      kraftSum lengths = 1 ∨ ∀ l ∈ lengths, l = 0) ∧
    ((∃ tree, distances size lengths = .ok tree) ↔
      kraftSum lengths = 1 ∨ (∀ l ∈ lengths, l = 0) ∨ lengths.filter (· ≠ 0) = [1]) := by
  refine ⟨fun lone tree h => ⟨fun s t hs ht => prefix_free hbits (build_ok hbits h).2 hs ht,
    fun hfew s reader tail hs hrest => ?_, decode_cases hbits h⟩, ?_, ?_⟩
  · obtain ⟨reader', hend, hdecode⟩ := decode_code hbits h hsize hs hrest
    obtain ⟨l, hsl, -⟩ := hs
    obtain ⟨hlt, -⟩ := List.getElem?_eq_some_iff.mp hsl
    rw [symbol16, if_pos (by omega)] at hdecode
    exact ⟨reader', hend, hdecode⟩
  · unfold new
    rw [accepts_iff hbits]
    simp
  · unfold distances
    rw [accepts_iff hbits]
    simp

theorem canonical_code_three : ∃ tree, new 288 [2, 1, 2] = .ok tree ∧
    ∃ reader', reader'.rest = [false] ∧
      tree.decode ⟨[], 0, [true, true, false]⟩ = (.ok 2, reader') := by
  have hall := canonical_code 288 [2, 1, 2] (by decide) (by decide)
  obtain ⟨tree, htree⟩ := hall.2.1.mpr (.inl (by norm_num [kraftSum]))
  exact ⟨tree, htree, (hall.1 false tree htree).2.1 (by decide) 2 _ _ ⟨2, rfl, by decide⟩ rfl⟩

/-- Two codes of one bit, for the first symbol and the last. -/
def sparse (n : Nat) : List Nat := 1 :: replicate n 0 ++ [1]

theorem sparse_decode (n : Nat) : ∃ tree reader reader',
    new (sparse n).length (sparse n) = .ok tree ∧ Coded (sparse n) (n + 1) ∧
    reader.rest = bitsOf (sparse n) (n + 1) ∧
    tree.decode reader = (.ok (symbol16 (n + 1)), reader') := by
  have hbits : ∀ l ∈ sparse n, l ≤ maxBits := by
    intro l hl
    simp only [sparse, cons_append, mem_cons, mem_append, mem_replicate,
      not_mem_nil, or_false] at hl
    unfold maxBits
    omega
  have hlast : (sparse n)[n + 1]? = some 1 := by
    unfold sparse
    simp
  have hsum : kraftSum (sparse n) = 1 := by
    unfold sparse kraftSum
    norm_num
  obtain ⟨tree, htree⟩ := (accepts_iff hbits _ false).mpr (.inl hsum)
  obtain ⟨reader', -, hdecode⟩ := @decode_code _ _ _ _ hbits _ htree le_rfl ⟨1, hlast, by decide⟩
    ⟨[], 0, bitsOf (sparse n) (n + 1)⟩ [] rfl
  exact ⟨tree, _, reader', htree, ⟨1, hlast, by decide⟩, append_nil _, hdecode⟩

/-- A symbol beyond sixteen bits is read as the symbol zero. -/
theorem large_symbol_lost : ∃ tree reader reader',
    new (sparse 65535).length (sparse 65535) = .ok tree ∧ Coded (sparse 65535) 65536 ∧
    reader.rest = bitsOf (sparse 65535) 65536 ∧ tree.decode reader = (.ok 0, reader') :=
  sparse_decode 65535

end Audhsos.Deflate
