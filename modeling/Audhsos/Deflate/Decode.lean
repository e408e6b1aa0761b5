import Audhsos.Deflate.Huffman

/-!
A stream in, the bytes it stands for out. What is decoded goes into a buffer the caller owns, and a
back reference is copied out of what has been written there.
-/

namespace Audhsos.Deflate

open Lib List
open Prog (require throw)

/-! ## Tables -/

/-- The codes of lengths: how many extra bits follow, and the shortest length. -/
def lengthCodes : List (Nat × Nat) :=
  [(0, 3), (0, 4), (0, 5), (0, 6), (0, 7), (0, 8), (0, 9), (0, 10), (1, 11), (1, 13), (1, 15),
    (1, 17), (2, 19), (2, 23), (2, 27), (2, 31), (3, 35), (3, 43), (3, 51), (3, 59), (4, 67),
    (4, 83), (4, 99), (4, 115), (5, 131), (5, 163), (5, 195), (5, 227), (0, 258)]

/-- The codes of distances: how many extra bits follow, and the shortest distance. -/
def distanceCodes : List (Nat × Nat) :=
  [(0, 1), (0, 2), (0, 3), (0, 4), (1, 5), (1, 7), (2, 9), (2, 13), (3, 17), (3, 25), (4, 33),
    (4, 49), (5, 65), (5, 97), (6, 129), (6, 193), (7, 257), (7, 385), (8, 513), (8, 769),
    (9, 1025), (9, 1537), (10, 2049), (10, 3073), (11, 4097), (11, 6145), (12, 8193), (12, 12289),
    (13, 16385), (13, 24577)]

def endOfBlock : Nat := 256

def firstLength : Nat := 257

/-- What a length code stands for; the codes are numbered from the first one on. -/
def lengthOf (code : Nat) : Option (Nat × Nat) :=
  if code < firstLength then none else lengthCodes[code - firstLength]?

def distanceOf (code : Nat) : Option (Nat × Nat) := distanceCodes[code]?

def fixedLiteralLengths : List Nat :=
  replicate 144 8 ++ replicate 112 9 ++ replicate 24 7 ++ replicate 8 8

def fixedDistanceLengths : List Nat := replicate 32 5

/-- The order the code lengths of the code length alphabet are written in. -/
def order : List Nat := [16, 17, 18, 0, 8, 7, 9, 6, 10, 5, 11, 4, 12, 3, 13, 2, 14, 1, 15]

/-! ## The code tables of a block -/

/-- The lengths of the code length alphabet. -/
def readCodeLengths : List Nat → List Nat → Prog Error Reader (List Nat)
  | [], lengths => pure lengths
  | place :: places, lengths => do
    let length ← Reader.bits 3
    readCodeLengths places (lengths.set place length)

/-- How many times a repeat code repeats: what it says, plus its base. -/
def repeats (bits base : Nat) : Prog Error Reader Nat := do
  let extra ← Reader.bits bits
  pure (base + extra)

/-- What a symbol of the code length alphabet says: a length, and how often. -/
def lengthRun (symbol : Nat) (read : List Nat) : Prog Error Reader (Nat × Nat) :=
  if symbol ≤ 15 then pure (symbol, 1)
  else if symbol = 16 then do
    let previous ← Prog.ofOption read.getLast? .input
    let times ← repeats 2 3
    pure (previous, times)
  else if symbol = 17 then do
    let times ← repeats 3 3
    pure (0, times)
  else if symbol = 18 then do
    let times ← repeats 7 11
    pure (0, times)
  else throw .input

/-- Reads the lengths of both alphabets behind those that were read; the array has 320 places. -/
def readLengths (tree : Tree) (total : Nat) : Nat → List Nat → Prog Error Reader (List Nat)
  | 0, _ => throw .rounds
  | rounds + 1, read =>
    if read.length < total then do
      let symbol ← tree.decode
      let run ← lengthRun symbol read
      require (read.length + run.2 ≤ 320) .input
      readLengths tree total rounds (read ++ replicate run.2 run.1)
    else do
      require (read.length = total) .input
      pure read

/-- The two code tables a block carries, with so many rounds to read their lengths. -/
def tables (rounds : Nat) : Prog Error Reader (Tree × Tree) := do
  let literals ← Reader.bits 5
  let distances ← Reader.bits 5
  let codes ← Reader.bits 4
  let lengths ← readCodeLengths (order.take (codes + 4)) (replicate 19 0)
  let tree ← Prog.ofExcept (Tree.new 19 lengths)
  let total := (literals + 257) + (distances + 1)
  let lengths ← readLengths tree total rounds []
  let literalTree ← Prog.ofExcept (Tree.new 288 (lengths.take (literals + 257)))
  let distanceTree ← Prog.ofExcept (Tree.distances 32 (lengths.drop (literals + 257)))
  pure (literalTree, distanceTree)

/-! ## Blocks -/

/-- The reader, the buffer, and how much of it is written. -/
structure Inflater where
  reader : Reader
  out : List Byte
  written : Nat

variable {α β : Type}

def reading (m : Prog Error Reader α) : Prog Error Inflater α := fun s =>
  ((m s.reader).1, { s with reader := (m s.reader).2 })

def put (byte : Byte) : Prog Error Inflater Unit := fun s =>
  if s.written < s.out.length then
    (.ok (), { s with out := s.out.set s.written byte, written := s.written + 1 })
  else (.error .output, s)

def putAll : List Byte → Prog Error Inflater Unit
  | [] => pure ()
  | byte :: data => do
    put byte
    putAll data

variable (data : List Byte)

def copyIn : Prog Error Inflater Unit := fun s =>
  if s.written + data.length ≤ s.out.length then putAll data s else (.error .output, s)

def word : Prog Error Reader Nat := do
  let data ← Reader.bytes 2
  pure (ofBits (data.flatMap byteBits))

/-- A block that carries its bytes unchanged. -/
def stored : Prog Error Inflater Unit := do
  reading Reader.align
  let length ← reading word
  let complement ← reading word
  require (length = 65535 - complement) .input
  let data ← reading (Reader.bytes length)
  copyIn data

def fetch (source : Nat) : Prog Error Inflater Byte := fun s =>
  (s.out[source]?.elim (.error .input) .ok, s)

def copyRun : Nat → Nat → Prog Error Inflater Unit
  | 0, _ => pure ()
  | length + 1, source => do
    let byte ← fetch source
    put byte
    copyRun length (source + 1)

def copyBack (length distance : Nat) : Prog Error Inflater Unit := fun s =>
  if s.written < distance then (.error .input, s) else copyRun length (s.written - distance) s

/-- The extra bits of a code, on top of the shortest length or distance it stands for. -/
def extended (code : Option (Nat × Nat)) : Prog Error Reader Nat := do
  let (extra, base) ← Prog.ofOption code .input
  let more ← Reader.bits extra
  pure (base + more)

/-- One symbol of a block; answers whether it ends the block. -/
def element (literals distances : Tree) : Prog Error Inflater Bool := do
  let symbol ← reading literals.decode
  if symbol = endOfBlock then pure true
  else if symbol < endOfBlock then do
    put (BitVec.ofNat 8 symbol)
    pure false
  else do
    let length ← reading (extended (lengthOf symbol))
    let code ← reading distances.decode
    let distance ← reading (extended (distanceOf code))
    copyBack length distance
    pure false

/-- A block of coded symbols, in so many rounds. -/
def block (literals distances : Tree) : Nat → Prog Error Inflater Unit
  | 0 => throw .rounds
  | rounds + 1 => do
    let ended ← element literals distances
    if ended then pure () else block literals distances rounds

def anyBlock (kind rounds : Nat) : Prog Error Inflater Unit :=
  if kind = 0 then stored
  else if kind = 1 then do
    let literals ← Prog.ofExcept (Tree.new 288 fixedLiteralLengths)
    let distances ← Prog.ofExcept (Tree.distances 32 fixedDistanceLengths)
    block literals distances rounds
  else if kind = 2 then do
    let trees ← reading (tables rounds)
    block trees.1 trees.2 rounds
  else throw .input

/-- Block after block, in so many rounds; every one reads a bit at least. -/
def inflateLoop : Nat → Prog Error Inflater Unit
  | 0 => throw .rounds
  | rounds + 1 => do
    let last ← reading Reader.bit
    let kind ← reading (Reader.bits 2)
    anyBlock kind rounds
    if last = 1 then pure () else inflateLoop rounds

variable (input out : List Byte)

def inflate : Except Error Unit × Inflater :=
  inflateLoop (8 * input.length + 1) ⟨.new input, out, 0⟩

/-- Reads a stream into the buffer, and says how many bytes it stands for. -/
def decompress : Except Error Nat × List Byte :=
  ((inflate input out).1.map fun _ => (inflate input out).2.written, (inflate input out).2.out)

/-! ## Rounds -/

/-- The program does not run out of rounds while fewer than `k` bits are left; it gives no bits
back, and takes `d` of them when it answers. -/
def Ends {σ : Type} (left : σ → Nat) (k d : Nat) (m : Prog Error σ α) : Prop :=
  ∀ s, left s < k → (m s).1 ≠ .error .rounds ∧ left (m s).2 ≤ left s ∧
    ∀ a, (m s).1 = .ok a → left (m s).2 + d ≤ left s

section Ends

variable {σ : Type} {left : σ → Nat} {k d : Nat} {m : Prog Error σ α} {f : α → Prog Error σ β}

theorem Ends.bind (hm : Ends left k d m)
    (hf : ∀ a s, (m s).1 = .ok a → Ends left (k - d) 0 (f a)) : Ends left k d (m >>= f) := by
  intro s hs
  obtain ⟨hrounds, hle, hok⟩ := hm s hs
  have hf' := fun a => hf a s
  rw [Prog.run_bind]
  generalize m s = answer at hrounds hle hok hf' ⊢
  obtain ⟨e | a, s'⟩ := answer
  · exact ⟨fun h => hrounds (by cases h; rfl), hle, nofun⟩
  · have htaken : left s' + d ≤ left s := hok a rfl
    obtain ⟨hrounds', hle', -⟩ := hf' a rfl s' (by omega)
    exact ⟨hrounds', hle'.trans hle, fun _ _ => (Nat.add_le_add_right hle' d).trans htaken⟩

theorem Ends.weaken (hm : Ends left k d m) : Ends left k 0 m :=
  fun s hs => ⟨(hm s hs).1, (hm s hs).2.1, fun _ _ => (hm s hs).2.1⟩

theorem Ends.andThen (hm : Ends left k d m) (hf : ∀ a s, (m s).1 = .ok a → Ends left k 0 (f a)) :
    Ends left k 0 (m >>= f) :=
  (hm.bind fun a s ha s' hs' => hf a s ha s' (by omega)).weaken

theorem ends_still (h : ∀ s, (m s).1 ≠ .error .rounds ∧ left (m s).2 = left s) : Ends left k 0 m :=
  fun s _ => ⟨(h s).1, (h s).2.le, fun _ _ => (h s).2.le⟩

theorem ends_pure (a : α) : Ends left k 0 (pure a : Prog Error σ α) :=
  ends_still fun _ => ⟨nofun, rfl⟩

theorem ends_input : Ends left k d (throw .input : Prog Error σ α) :=
  fun _ _ => ⟨nofun, le_rfl, nofun⟩

theorem ends_ofOption (a : Option α) : Ends left k 0 (Prog.ofOption a .input : Prog Error σ α) :=
  ends_still fun _ => ⟨by cases a <;> exact nofun, rfl⟩

theorem ends_require (c : Prop) [Decidable c] :
    Ends left k 0 (require c .input : Prog Error σ Unit) :=
  ends_still fun _ => ⟨by unfold require; split <;> exact nofun, rfl⟩

theorem ends_tree (n : Nat) (lengths : List Nat) (lone : Bool) :
    Ends left k 0 (Prog.ofExcept (Tree.build n lengths lone) : Prog Error σ Tree) := by
  refine ends_still fun _ => ⟨?_, rfl⟩
  unfold Prog.ofExcept Tree.build
  dsimp only
  split
  · exact nofun
  · split <;> exact nofun

end Ends

def Reader.left (r : Reader) : Nat := r.rest.length

section Reading

variable {k : Nat} {r : Reader}

theorem ends_bits (count : Nat) : Ends Reader.left k count (Reader.bits count) := by
  intro r _
  unfold Reader.left
  by_cases hle : count ≤ r.rest.length
  · obtain ⟨r', hrest, hrun⟩ := (Reader.bits_spec count r).1 hle
    rw [hrun, hrest, length_drop]
    exact ⟨nofun, by omega, fun _ _ => by omega⟩
  · obtain ⟨r', hrest, hrun⟩ := (Reader.bits_spec count r).2 (by omega)
    rw [hrun, hrest]
    exact ⟨nofun, le_rfl, nofun⟩

theorem length_flatMap_byteBits : (data.flatMap byteBits).length = 8 * data.length := by
  simp [byteBits, length_flatMap, mul_comm]

theorem ends_bytes (count : Nat) : Ends Reader.left k 0 (Reader.bytes count) := by
  intro r _
  unfold Reader.bytes
  split
  · have hle : Reader.left { r with taken := r.taken + count } ≤ Reader.left r := by
      unfold Reader.left Reader.rest
      simp only [length_append, length_flatMap_byteBits, length_drop]
      omega
    exact ⟨nofun, hle, fun _ _ => hle⟩
  · exact ⟨nofun, le_rfl, nofun⟩

theorem ends_align : Ends Reader.left k 0 Reader.align := by
  intro r _
  have hle : Reader.left { r with held := [] } ≤ Reader.left r := by
    unfold Reader.left Reader.rest
    rw [length_append, length_append]
    exact Nat.add_le_add_right (Nat.zero_le _) _
  exact ⟨nofun, hle, fun _ _ => hle⟩

theorem ends_decode (tree : Tree) : Ends Reader.left k 1 tree.decode := by
  have hwalk : ∀ rounds k bits code first index,
      Ends Reader.left k 0 (tree.walk rounds bits code first index) := by
    intro rounds
    induction rounds with
    | zero => exact fun _ _ _ _ _ => ends_input
    | succ rounds ih =>
      intro k bits code first index
      refine (ends_bits 1).andThen fun bit _ _ => ?_
      split
      · exact ends_ofOption _
      · exact ih _ _ _ _ _
  refine (ends_bits 1).bind fun bit _ _ => ?_
  split
  · exact ends_ofOption _
  · exact hwalk _ _ _ _ _ _

theorem ends_readCodeLengths (places lengths : List Nat) :
    Ends Reader.left k 0 (readCodeLengths places lengths) := by
  induction places generalizing lengths with
  | nil => exact ends_pure _
  | cons place places ih => exact (ends_bits 3).andThen fun _ _ _ => ih _

theorem ends_repeats (bits base : Nat) : Ends Reader.left k 0 (repeats bits base) :=
  (ends_bits bits).andThen fun _ _ _ => ends_pure _

theorem ends_lengthRun (symbol : Nat) (read : List Nat) :
    Ends Reader.left k 0 (lengthRun symbol read) := by
  unfold lengthRun
  split
  · exact ends_pure _
  split
  · exact (ends_ofOption _).andThen fun _ _ _ => (ends_repeats _ _).andThen fun _ _ _ => ends_pure _
  split
  · exact (ends_repeats _ _).andThen fun _ _ _ => ends_pure _
  split
  · exact (ends_repeats _ _).andThen fun _ _ _ => ends_pure _
  · exact ends_input

theorem ends_readLengths (tree : Tree) (total rounds : Nat) (read : List Nat) :
    Ends Reader.left rounds 0 (readLengths tree total rounds read) := by
  induction rounds generalizing read with
  | zero => exact fun _ hlt => absurd hlt (Nat.not_lt_zero _)
  | succ rounds ih =>
    unfold readLengths
    split
    · refine ((ends_decode tree).bind fun symbol _ _ => ?_).weaken
      refine (ends_lengthRun symbol read).andThen fun run _ _ => ?_
      exact (ends_require _).andThen fun _ _ _ => ih _
    · exact (ends_require _).andThen fun _ _ _ => ends_pure _

theorem ends_tables (rounds : Nat) : Ends Reader.left rounds 0 (tables rounds) :=
  (ends_bits 5).andThen fun _ _ _ => (ends_bits 5).andThen fun _ _ _ =>
    (ends_bits 4).andThen fun _ _ _ => (ends_readCodeLengths _ _).andThen fun _ _ _ =>
    (ends_tree _ _ _).andThen fun _ _ _ => (ends_readLengths _ _ _ _).andThen fun _ _ _ =>
    (ends_tree _ _ _).andThen fun _ _ _ => (ends_tree _ _ _).andThen fun _ _ _ => ends_pure _

theorem ends_word : Ends Reader.left k 0 word := (ends_bytes 2).andThen fun _ _ _ => ends_pure _

theorem ends_extended (code : Option (Nat × Nat)) : Ends Reader.left k 0 (extended code) :=
  (ends_ofOption code).andThen fun _ _ _ => (ends_bits _).andThen fun _ _ _ => ends_pure _

theorem distance_pos {code distance : Nat}
    (h : (extended (distanceOf code) r).1 = .ok distance) : 0 < distance := by
  obtain ⟨entry, r₁, hentry, hrest⟩ := Prog.ok_of_bind (Prod.ext h rfl)
  obtain ⟨more, r₂, -, hsum⟩ := Prog.ok_of_bind hrest
  have hall : ∀ entry ∈ distanceCodes, 0 < entry.2 := by decide
  have hbase : 0 < entry.2 := by
    unfold Prog.ofOption Prog.ofExcept distanceOf at hentry
    cases hcode : distanceCodes[code]? with
    | none =>
      rw [hcode] at hentry
      cases hentry
    | some found =>
      rw [hcode] at hentry
      cases hentry
      exact hall _ (mem_of_getElem? hcode)
  cases hsum
  exact Nat.lt_add_right _ hbase

end Reading

/-! ## Two runs -/

/-- Two inflaters that have read and written the same, the second with a buffer as long at
least. -/
structure Similar (s t : Inflater) : Prop where
  reader : s.reader = t.reader
  written : s.written = t.written
  le : s.written ≤ s.out.length
  length : s.out.length ≤ t.out.length
  same : ∀ i < s.written, s.out[i]? = t.out[i]?

def Inflater.left (s : Inflater) : Nat := s.reader.left

/-- What a program does, run in two such inflaters: it ends, writes between the places where it
began and where it ended, and does the same in both unless the first has no room. -/
structure After (d : Nat) (s t : Inflater) (x y : Except Error α × Inflater) : Prop where
  rounds : x.1 ≠ .error .rounds
  bits : x.2.left ≤ s.left
  taken : ∀ a, x.1 = .ok a → x.2.left + d ≤ s.left
  length : x.2.out.length = s.out.length
  grows : s.written ≤ x.2.written
  kept : ∀ i, x.2.written ≤ i → x.2.out[i]? = s.out[i]?
  same : x.1 = .error .output ∨ x.1 = y.1 ∧ Similar x.2 y.2

def Good (k d : Nat) (m : Prog Error Inflater α) : Prop :=
  ∀ s t, Similar s t → s.left < k → After d s t (m s) (m t)

section Good

variable {k d : Nat} {s t : Inflater} {m : Prog Error Inflater α} {f : α → Prog Error Inflater β}

theorem After.bind (hm : After d s t (m s) (m t))
    (hf : ∀ a, (m s).1 = .ok a → Similar (m s).2 (m t).2 →
      After 0 (m s).2 (m t).2 (f a (m s).2) (f a (m t).2)) :
    After d s t ((m >>= f) s) ((m >>= f) t) := by
  rw [Prog.run_bind, Prog.run_bind]
  generalize m s = x at hm hf ⊢
  generalize m t = y at hm hf ⊢
  obtain ⟨e | a, s'⟩ := x
  · refine ⟨fun h => hm.rounds (by cases h; rfl), hm.bits, nofun, hm.length, hm.grows, hm.kept, ?_⟩
    rcases hm.same with h | ⟨h, hsimilar⟩
    · exact .inl (by cases h; rfl)
    · obtain ⟨e' | b, t'⟩ := y
      · cases h
        exact .inr ⟨rfl, hsimilar⟩
      · cases h
  · obtain h | ⟨h, hsimilar⟩ := hm.same
    · cases h
    obtain ⟨e' | b, t'⟩ := y
    · cases h
    cases h
    have hlater := hf a rfl hsimilar
    have htaken := hm.taken a rfl
    exact ⟨hlater.rounds, hlater.bits.trans hm.bits,
      fun _ _ => (Nat.add_le_add_right hlater.bits d).trans htaken,
      hlater.length.trans hm.length, hm.grows.trans hlater.grows,
      fun i hi => (hlater.kept i hi).trans (hm.kept i (hlater.grows.trans hi)), hlater.same⟩

theorem Good.bind (hm : Good k d m) (hf : ∀ a s, (m s).1 = .ok a → Good (k - d) 0 (f a)) :
    Good k d (m >>= f) := by
  intro s t hsimilar hk
  have hfirst := hm s t hsimilar hk
  refine hfirst.bind fun a ha hnext => hf a s ha _ _ hnext ?_
  have htaken := hfirst.taken a ha
  omega

theorem Good.mono (hm : Good k d m) {k' : Nat} (hk : k' ≤ k) : Good k' 0 m := by
  intro s t hsimilar hlt
  have hafter := hm s t hsimilar (by omega)
  exact { hafter with taken := fun _ _ => hafter.bits }

theorem good_reading {m : Prog Error Reader α} (hm : Ends Reader.left k d m) :
    Good k d (reading m) := by
  intro s t h hk
  obtain ⟨hrounds, hle, hok⟩ := hm s.reader hk
  refine ⟨hrounds, hle, hok, rfl, le_rfl, fun _ _ => rfl, .inr ⟨?_, ?_⟩⟩
  · unfold reading
    rw [h.reader]
  · exact ⟨congrArg (fun r => (m r).2) h.reader, h.written, h.le, h.length, h.same⟩

theorem after_still (h : Similar s t) {x : Except Error α} (hx : x ≠ .error .rounds) :
    After 0 s t (x, s) (x, t) :=
  ⟨hx, le_rfl, fun _ _ => le_rfl, rfl, le_rfl, fun _ _ => rfl, .inr ⟨rfl, h⟩⟩

theorem after_full {y : Except Error α × Inflater} : After 0 s t (.error .output, s) y :=
  ⟨nofun, le_rfl, nofun, rfl, le_rfl, fun _ _ => rfl, .inl rfl⟩

theorem after_put (byte : Byte) (h : Similar s t) : After 0 s t (put byte s) (put byte t) := by
  have hlength := h.length
  unfold put
  by_cases hroom : s.written < s.out.length
  · rw [if_pos hroom, if_pos (by rw [← h.written]; omega)]
    refine ⟨nofun, le_rfl, fun _ _ => le_rfl, length_set, Nat.le_succ _,
      fun i hi => getElem?_set_ne (show s.written ≠ i by dsimp only at hi; omega),
      .inr ⟨rfl, h.reader, congrArg (· + 1) h.written, ?_, ?_, fun i hi => ?_⟩⟩
    · rw [length_set]
      exact hroom
    · rw [length_set, length_set]
      exact hlength
    · dsimp only at hi ⊢
      rw [← h.written, getElem?_set, getElem?_set]
      by_cases heq : s.written = i
      · rw [if_pos heq, if_pos heq, if_pos (by omega), if_pos (by omega)]
      · rw [if_neg heq, if_neg heq]
        exact h.same i (by omega)
  · rw [if_neg hroom]
    exact after_full

theorem good_put (byte : Byte) : Good k 0 (put byte) := fun _ _ h _ => after_put byte h

theorem good_putAll (data : List Byte) : Good k 0 (putAll data) := by
  induction data with
  | nil => exact good_reading (ends_pure ())
  | cons byte data ih => exact (good_put byte).bind fun _ _ _ => ih

theorem good_copyIn (data : List Byte) : Good k 0 (copyIn data) := by
  intro s t h hk
  have hlength := h.length
  unfold copyIn
  by_cases hroom : s.written + data.length ≤ s.out.length
  · rw [if_pos hroom, if_pos (by rw [← h.written]; omega)]
    exact good_putAll data s t h hk
  · rw [if_neg hroom]
    exact after_full

theorem after_copyRun (length source : Nat) (h : Similar s t) (hsource : source < s.written) :
    After 0 s t (copyRun length source s) (copyRun length source t) := by
  induction length generalizing source s t with
  | zero => exact after_still h nofun
  | succ length ih =>
    have hle := h.le
    have hbyte := getElem?_eq_getElem (show source < s.out.length by omega)
    have hfetch : fetch source s = (.ok s.out[source], s) := by
      unfold fetch
      rw [hbyte]
      rfl
    have hfetch' : fetch source t = (.ok s.out[source], t) := by
      unfold fetch
      rw [← h.same source hsource, hbyte]
      rfl
    unfold copyRun
    rw [Prog.run_bind_ok hfetch, Prog.run_bind_ok hfetch']
    refine (after_put _ h).bind fun _ hput hnext => ih (source + 1) hnext ?_
    unfold put at hput ⊢
    split at hput
    next hroom =>
      rw [if_pos hroom]
      exact Nat.succ_lt_succ hsource
    · cases hput

theorem good_copyBack (length : Nat) {distance : Nat} (hpos : 0 < distance) :
    Good k 0 (copyBack length distance) := by
  intro s t h _
  unfold copyBack
  rw [← h.written]
  split
  · exact after_still h nofun
  · exact after_copyRun length _ h (by omega)

theorem good_stored : Good k 0 stored :=
  (good_reading ends_align).bind fun _ _ _ => (good_reading ends_word).bind fun _ _ _ =>
    (good_reading ends_word).bind fun _ _ _ => (good_reading (ends_require _)).bind fun _ _ _ =>
    (good_reading (ends_bytes _)).bind fun _ _ _ => good_copyIn _

variable (literals distances : Tree)

theorem good_element : Good k 1 (element literals distances) := by
  refine (good_reading (ends_decode literals)).bind fun symbol _ _ => ?_
  split
  · exact good_reading (ends_pure _)
  split
  · exact (good_put _).bind fun _ _ _ => good_reading (ends_pure _)
  refine (good_reading (ends_extended _)).bind fun length _ _ => ?_
  refine ((good_reading (ends_decode distances)).bind fun code _ _ => ?_).mono (le_rfl)
  refine (good_reading (ends_extended _)).bind fun distance s hdistance => ?_
  exact (good_copyBack length (distance_pos hdistance)).bind fun _ _ _ => good_reading (ends_pure _)

theorem good_block (rounds : Nat) : Good rounds 0 (block literals distances rounds) := by
  induction rounds with
  | zero => exact fun s t _ hlt => absurd hlt (Nat.not_lt_zero _)
  | succ rounds ih =>
    refine ((good_element literals distances).bind fun ended _ _ => ?_).mono (le_rfl)
    split
    · exact good_reading (ends_pure _)
    · exact ih

theorem good_anyBlock (kind rounds : Nat) : Good rounds 0 (anyBlock kind rounds) := by
  unfold anyBlock
  generalize fixedLiteralLengths = literalLengths
  generalize fixedDistanceLengths = distanceLengths
  split
  · exact good_stored
  split
  · refine (good_reading (ends_tree 288 literalLengths false)).bind fun literals _ _ => ?_
    refine (good_reading (ends_tree 32 distanceLengths true)).bind fun distances _ _ => ?_
    exact good_block literals distances rounds
  split
  · exact (good_reading (ends_tables rounds)).bind fun trees _ _ => good_block trees.1 trees.2 rounds
  · exact good_reading ends_input

theorem good_inflateLoop (rounds : Nat) : Good rounds 0 (inflateLoop rounds) := by
  induction rounds with
  | zero => exact fun s t _ hlt => absurd hlt (Nat.not_lt_zero _)
  | succ rounds ih =>
    refine ((good_reading (ends_bits 1)).bind fun last _ _ => ?_).mono (le_rfl)
    refine ((good_reading (ends_bits 2)).bind fun kind _ _ => ?_).mono (le_rfl)
    refine ((good_anyBlock kind rounds).mono (by omega)).bind fun _ _ _ => ?_
    split
    · exact good_reading (ends_pure _)
    · exact ih.mono (by omega)

end Good

/-- A call answered as another, with the same bytes if it reports any. -/
def SameResult (x y : Except Error Nat × List Byte) : Prop :=
  y.1 = x.1 ∧ ∀ n, x.1 = .ok n → y.2.take n = x.2.take n

section Decompress

variable {input : List Byte}

theorem after_inflate {small large : List Byte} (hle : small.length ≤ large.length) :
    After 0 ⟨.new input, small, 0⟩ ⟨.new input, large, 0⟩ (inflate input small)
      (inflate input large) := by
  refine good_inflateLoop _ _ _ ⟨rfl, rfl, Nat.zero_le _, hle,
    fun i hi => absurd hi (Nat.not_lt_zero i)⟩ ?_
  change ([] ++ (input.drop 0).flatMap byteBits).length < _
  rw [nil_append, drop_zero, length_flatMap_byteBits]
  exact Nat.lt_succ_self _

theorem decompress_ok {out : List Byte} {n : Nat} (h : (decompress input out).1 = .ok n) :
    (inflate input out).1 = .ok () ∧ (inflate input out).2.written = n := by
  unfold decompress at h
  cases hanswer : (inflate input out).1 with
  | error e =>
    rw [hanswer] at h
    cases h
  | ok u =>
    rw [hanswer] at h
    exact ⟨rfl, Except.ok.inj h⟩

theorem sameResult_of_le {small large : List Byte} (hle : small.length ≤ large.length) :
    (decompress input small).1 = .error .output ∨
      SameResult (decompress input small) (decompress input large) := by
  refine (@after_inflate input _ _ hle).same.imp (fun hfull => ?_)
    fun ⟨hanswer, hsimilar⟩ => ⟨?_, ?_⟩
  · unfold decompress
    rw [hfull]
    rfl
  · unfold decompress
    rw [hanswer, hsimilar.written]
  · intro n hn
    obtain ⟨-, hwritten⟩ := decompress_ok hn
    apply ext_getElem?
    intro i
    by_cases hi : i < n
    · rw [getElem?_take_of_lt hi, getElem?_take_of_lt hi]
      exact (hsimilar.same i (by rw [hwritten]; exact hi)).symm
    · rw [getElem?_take_eq_none (by omega), getElem?_take_eq_none (by omega)]

end Decompress

/-- Reading a stream ends; on success nothing at or behind the reported position was written; the
result does not depend on what the buffer held; and a longer buffer only turns the answer that there
is no room into another one. -/
theorem decompress_trusts_nothing (input out : List Byte) :
    (decompress input out).1 ≠ .error .rounds ∧
    (∀ n, (decompress input out).1 = .ok n → n ≤ out.length ∧
      (decompress input out).2.length = out.length ∧
      ∀ i, n ≤ i → (decompress input out).2[i]? = out[i]?) ∧
    (∀ other : List Byte, other.length = out.length →
      SameResult (decompress input out) (decompress input other)) ∧
    ∀ larger : List Byte, out.length ≤ larger.length →
      (decompress input out).1 = .error .output ∨
        SameResult (decompress input out) (decompress input larger) := by
  have hself := @after_inflate input out out (le_rfl)
  refine ⟨fun hrounds => hself.rounds ?_, fun n hn => ?_, fun other hlength => ?_,
    fun larger hle => sameResult_of_le hle⟩
  · unfold decompress at hrounds
    cases hanswer : (inflate input out).1 with
    | error e =>
      rw [hanswer] at hrounds
      cases hrounds
      rfl
    | ok u =>
      rw [hanswer] at hrounds
      cases hrounds
  · obtain ⟨hok, hwritten⟩ := decompress_ok hn
    obtain hfull | ⟨-, hsimilar⟩ := hself.same
    · cases hfull.symm.trans hok
    · have hle := hsimilar.le
      rw [hwritten, hself.length] at hle
      exact ⟨hle, hself.length, fun i hi => hself.kept i (by rw [hwritten]; exact hi)⟩
  · obtain hout | hsame := @sameResult_of_le input out other hlength.ge
    · refine ⟨?_, fun n hn => by cases hout.symm.trans hn⟩
      obtain hother | hsame := @sameResult_of_le input other out hlength.le
      · exact hother.trans hout.symm
      · exact hsame.1.symm
    · exact hsame

end Audhsos.Deflate
