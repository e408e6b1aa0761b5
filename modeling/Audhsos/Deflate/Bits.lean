import Audhsos.Wire.Cursor

/-!
The bits of a stream, the least significant of a byte first. What is left to a reader is one list
of bits, and every read takes them from its front.
-/

namespace Audhsos.Deflate

open Lib List

/-- What ends a program early. The last is no error of the source: it is a loop of the model that
ran out of rounds. -/
inductive Error where
  | input
  | output
  | rounds
deriving DecidableEq

def byteBits (byte : Byte) : List Bool := (List.range 8).map byte.getLsbD

/-- The number that bits stand for, the least significant first. -/
def ofBits : List Bool → Nat
  | [] => 0
  | bit :: bits => bit.toNat + 2 * ofBits bits

/-- The bytes taken, and the bits of them that are held: the source has these in the low end of a
word beside their count, which stays below the thirty-two bits of the word. -/
structure Reader where
  input : List Byte
  taken : Nat
  held : List Bool

namespace Reader

def new (input : List Byte) : Reader := ⟨input, 0, []⟩

/-- Takes bytes until so many bits are held, in so many rounds. -/
def load (count : Nat) : Nat → Prog Error Reader Unit
  | 0 => pure ()
  | rounds + 1 => fun r =>
    if r.held.length < count then
      match r.input[r.taken]? with
      | none => (.error .input, r)
      | some byte =>
        load count rounds { r with taken := r.taken + 1, held := r.held ++ byteBits byte }
    else (.ok (), r)

variable (count : Nat)

/-- Takes bits that are held. -/
def shift : Prog Error Reader Nat := fun r =>
  (.ok (ofBits (r.held.take count)), { r with held := r.held.drop count })

/-- Reads bits, the least significant first. A round of loading brings eight. -/
def bits : Prog Error Reader Nat := do
  load count count
  shift count

def bit : Prog Error Reader Nat := bits 1

def align : Prog Error Reader Unit := fun r => (.ok (), { r with held := [] })

def bytes : Prog Error Reader (List Byte) := fun r =>
  if r.taken + count ≤ r.input.length then
    (.ok ((r.input.drop r.taken).take count), { r with taken := r.taken + count })
  else (.error .input, r)

def rest (r : Reader) : List Bool := r.held ++ (r.input.drop r.taken).flatMap byteBits

theorem load_spec (count rounds : Nat) (r : Reader) (hrounds : count ≤ r.held.length + 8 * rounds) :
    ∃ r', r'.rest = r.rest ∧
      (count ≤ r.rest.length → load count rounds r = (.ok (), r') ∧ count ≤ r'.held.length) ∧
      (r.rest.length < count → load count rounds r = (.error .input, r')) := by
  induction rounds generalizing r with
  | zero =>
    have hheld : r.held.length ≤ r.rest.length := by simp [rest]
    exact ⟨r, rfl, fun _ => ⟨rfl, by omega⟩, fun h => by omega⟩
  | succ rounds ih =>
    unfold load
    by_cases hlt : r.held.length < count
    · simp only [if_pos hlt]
      by_cases hinput : r.taken < r.input.length
      · rw [getElem?_eq_getElem hinput]
        have hrest : Reader.rest { r with
            taken := r.taken + 1
            held := r.held ++ byteBits r.input[r.taken] } = r.rest := by
          unfold rest
          rw [drop_eq_getElem_cons hinput, flatMap_cons, append_assoc]
        have hlater := ih { r with
          taken := r.taken + 1
          held := r.held ++ byteBits r.input[r.taken] } (by simp [byteBits]; omega)
        rw [hrest] at hlater
        exact hlater
      · have hend : r.rest = r.held := by
          unfold rest
          rw [drop_eq_nil_of_le (by omega), flatMap_nil, append_nil]
        rw [getElem?_eq_none (by omega), hend]
        exact ⟨r, hend, fun h => by omega, fun _ => rfl⟩
    · have hheld : r.held.length ≤ r.rest.length := by simp [rest]
      simp only [if_neg hlt]
      exact ⟨r, rfl, fun _ => ⟨rfl, by omega⟩, fun h => by omega⟩

theorem bits_spec (r : Reader) :
    (count ≤ r.rest.length → ∃ r', r'.rest = r.rest.drop count ∧
      bits count r = (.ok (ofBits (r.rest.take count)), r')) ∧
    (r.rest.length < count → ∃ r', r'.rest = r.rest ∧ bits count r = (.error .input, r')) := by
  obtain ⟨r', hrest, henough, hshort⟩ := load_spec count count r (by omega)
  refine ⟨fun hle => ?_, fun hlt => ⟨r', hrest, Prog.run_bind_error (hshort hlt)⟩⟩
  obtain ⟨hload, hheld⟩ := henough hle
  refine ⟨{ r' with held := r'.held.drop count }, ?_, ?_⟩
  · rw [← hrest, rest, rest, drop_append_of_le_length hheld]
  · unfold bits
    rw [Prog.run_bind_ok hload, ← hrest, rest, take_append_of_le_length hheld]
    rfl

theorem bit_cons {r : Reader} {b : Bool} {tail : List Bool} (h : r.rest = b :: tail) :
    ∃ r', r'.rest = tail ∧ bit r = (.ok b.toNat, r') := by
  obtain ⟨r', hrest, hrun⟩ := (bits_spec 1 r).1 (by rw [h, length_cons]; omega)
  rw [h] at hrest hrun
  exact ⟨r', hrest, hrun⟩

theorem bit_nil {r : Reader} (h : r.rest = []) :
    ∃ r', r'.rest = [] ∧ bit r = (.error .input, r') := by
  obtain ⟨r', hrest, hrun⟩ := (bits_spec 1 r).2 (by rw [h, length_nil]; omega)
  exact ⟨r', hrest.trans h, hrun⟩

end Reader

end Audhsos.Deflate
