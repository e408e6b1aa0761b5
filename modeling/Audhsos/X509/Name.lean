import Audhsos.Der.Reader

/-!
Whether a host name that a certificate presents stands for the one that was asked for. A wildcard
is the whole leftmost label and is meant to stand for exactly one label.
-/

namespace Audhsos.X509

open Der List

variable {name label rest presented reference : List Byte}

def dot : Byte := 0x2E

def star : Byte := 0x2A

/-! ## Comparing names -/

def toAsciiLowercase (byte : Byte) : Byte :=
  if 0x41 ≤ byte ∧ byte ≤ 0x5A then byte ||| 0x20 else byte

def eqIgnoreAsciiCase (a b : Byte) : Bool := toAsciiLowercase a == toAsciiLowercase b

variable (left right : List Byte)

def equalIgnoringCase : Bool :=
  left.length == right.length && (left.zip right).all fun (a, b) => eqIgnoreAsciiCase a b

/-- Two names are the same but for the case of their letters. -/
def SameName : Prop :=
  left.map toAsciiLowercase = right.map toAsciiLowercase

theorem equalIgnoringCase_iff : equalIgnoringCase left right = true ↔ SameName left right := by
  unfold equalIgnoringCase SameName
  induction left generalizing right with
  | nil => cases right <;> simp
  | cons a left ih =>
    cases right with
    | nil => simp
    | cons b right =>
      simp only [length_cons, zip_cons_cons, all_cons, map_cons, cons.injEq,
        Bool.and_eq_true, beq_iff_eq, Nat.add_right_cancel_iff, eqIgnoreAsciiCase, ← ih]
      tauto

theorem SameName.ne_nil {left right : List Byte} (h : SameName left right) (hleft : left ≠ []) :
    right ≠ [] := by
  rintro rfl
  exact hleft (map_eq_nil_iff.mp h)

/-! ## Matching -/

/-- The name without a trailing dot, which is the same name. -/
def withoutTrailingDot (name : List Byte) : List Byte :=
  if name.getLast? = some dot then name.dropLast else name

/-- What follows the wildcard, when the name begins with one. -/
def stripWildcard : List Byte → Option (List Byte)
  | first :: second :: rest => if first = star ∧ second = dot ∧ rest ≠ [] then some rest else none
  | _ => none

def matchesDns (presented reference : List Byte) : Bool :=
  let presented := withoutTrailingDot presented
  let reference := withoutTrailingDot reference
  if presented = [] ∨ reference = [] then false
  else match stripWildcard presented with
    | some rest =>
      match reference.findIdx? (· == dot) with
      | none => false
      | some position =>
        let after := reference.drop (position + 1)
        !after.isEmpty && equalIgnoringCase rest after
    | none => if star ∈ presented then false else equalIgnoringCase presented reference

theorem stripWildcard_eq_some :
    stripWildcard name = some rest ↔ name = star :: dot :: rest ∧ rest ≠ [] := by
  unfold stripWildcard
  split
  · rename_i first second tail
    by_cases h : first = star ∧ second = dot ∧ tail ≠ []
    · obtain ⟨rfl, rfl, htail⟩ := h
      simp only [true_and, htail, ne_eq, not_false_eq_true, if_true, Option.some.injEq, cons.injEq]
      exact ⟨fun h => ⟨h, h ▸ htail⟩, fun h => h.1⟩
    · simp only [h, if_false, reduceCtorEq, false_iff, cons.injEq]
      rintro ⟨⟨rfl, rfl, rfl⟩, hrest⟩
      exact h ⟨rfl, rfl, hrest⟩
  · rename_i hshort
    simp only [reduceCtorEq, false_iff]
    rintro ⟨rfl, -⟩
    exact hshort _ _ _ rfl

/-- Where the first dot is: what is in front of it has none. -/
theorem findIdx_dot {position : Nat} (h : name.findIdx? (· == dot) = some position) :
    ∃ label, dot ∉ label ∧ name = label ++ dot :: name.drop (position + 1) := by
  obtain ⟨hlt, hdot, hbefore⟩ := findIdx?_eq_some_iff_getElem.mp h
  refine ⟨name.take position, fun hmem => ?_, ?_⟩
  · obtain ⟨i, hi, heq⟩ := mem_iff_getElem.mp hmem
    rw [length_take] at hi
    have hne := hbefore i (by omega)
    rw [getElem_take] at heq
    simp [heq] at hne
  · conv_lhs => rw [← take_append_drop position name, drop_eq_getElem_cons hlt]
    rw [show name[position] = dot by simpa using hdot]

theorem findIdx_label (h : dot ∉ label) (rest : List Byte) :
    (label ++ dot :: rest).findIdx? (· == dot) = some label.length := by
  rw [findIdx?_append, findIdx?_eq_none_iff.mpr]
  · simp [findIdx?_cons]
  · intro byte hbyte
    simp only [beq_eq_false_iff_ne]
    rintro rfl
    exact h hbyte

/-- The wildcard branch: any label in front of the first dot, an empty one too. -/
theorem wildcard_iff (hrest : rest ≠ []) :
    (match reference.findIdx? (· == dot) with
      | none => false
      | some position => !(reference.drop (position + 1)).isEmpty &&
          equalIgnoringCase rest (reference.drop (position + 1))) = true ↔
    ∃ label tail, dot ∉ label ∧ reference = label ++ dot :: tail ∧ SameName rest tail := by
  constructor
  · cases hfind : reference.findIdx? (· == dot) with
    | none => simp
    | some position =>
      intro h
      simp only [Bool.and_eq_true, equalIgnoringCase_iff] at h
      obtain ⟨label, hlabel, heq⟩ := findIdx_dot hfind
      exact ⟨label, _, hlabel, heq, h.2⟩
  · rintro ⟨label, tail, hlabel, rfl, hsame⟩
    have htail := hsame.ne_nil hrest
    simp [findIdx_label hlabel, htail, equalIgnoringCase_iff, hsame]

/-! ## What a presented name stands for -/

/-- A presented name stands for a reference: as itself, or with a star for one label. -/
def StandsFor (presented reference : List Byte) : Prop :=
  (presented ≠ [] ∧ star ∉ presented ∧ SameName presented reference) ∨
  ∃ rest label tail, presented = star :: dot :: rest ∧ rest ≠ [] ∧ star ∉ rest ∧
    label ≠ [] ∧ dot ∉ label ∧ reference = label ++ dot :: tail ∧ SameName rest tail

/-- What follows the wildcard is what follows the first dot of the reference, but it has a star
itself, or the label in front of that dot is empty. -/
def Overreaches (presented reference : List Byte) : Prop :=
  ∃ rest label tail, presented = star :: dot :: rest ∧ rest ≠ [] ∧ dot ∉ label ∧
    reference = label ++ dot :: tail ∧ SameName rest tail ∧ (star ∈ rest ∨ label = [])

/-- What the comparison takes for the reference, once the trailing dots are dropped. -/
theorem matchesDns_cases : matchesDns presented reference = true ↔
    (withoutTrailingDot presented ≠ [] ∧ star ∉ withoutTrailingDot presented ∧
      SameName (withoutTrailingDot presented) (withoutTrailingDot reference)) ∨
    ∃ rest label tail, withoutTrailingDot presented = star :: dot :: rest ∧ rest ≠ [] ∧
      dot ∉ label ∧ withoutTrailingDot reference = label ++ dot :: tail ∧ SameName rest tail := by
  unfold matchesDns
  dsimp only
  generalize withoutTrailingDot presented = p
  generalize withoutTrailingDot reference = r
  by_cases hempty : p = [] ∨ r = []
  · rw [if_pos hempty]
    refine ⟨nofun, ?_⟩
    rintro (⟨hp, -, hsame⟩ | ⟨rest, label, tail, rfl, -, -, rfl, -⟩)
    · exact absurd hempty (not_or.mpr ⟨hp, hsame.ne_nil hp⟩)
    · simp at hempty
  rw [if_neg hempty]
  obtain ⟨hp, hr⟩ := not_or.mp hempty
  cases hstrip : stripWildcard p with
  | some rest =>
    obtain ⟨rfl, hrest⟩ := stripWildcard_eq_some.mp hstrip
    rw [wildcard_iff hrest]
    constructor
    · rintro ⟨label, tail, hlabel, rfl, hsame⟩
      exact .inr ⟨rest, label, tail, rfl, hrest, hlabel, rfl, hsame⟩
    · rintro (⟨-, hno, -⟩ | ⟨rest', label, tail, heq, -, hlabel, rfl, hsame⟩)
      · simp at hno
      · obtain rfl : rest = rest' := by simpa using heq
        exact ⟨label, tail, hlabel, rfl, hsame⟩
  | none =>
    have hno : ∀ rest, p = star :: dot :: rest → rest = [] := by
      intro rest hrest
      by_contra hne
      rw [stripWildcard_eq_some.mpr ⟨hrest, hne⟩] at hstrip
      cases hstrip
    by_cases hstar : star ∈ p
    · simp only [hstar, if_true, not_true_eq_false, false_and, and_false, false_or,
        Bool.false_eq_true, false_iff]
      rintro ⟨rest, -, -, heq, hrest, -⟩
      exact hrest (hno rest heq)
    · simp only [hstar, if_false, equalIgnoringCase_iff, hp, ne_eq, not_false_eq_true, true_and]
      refine ⟨.inl, ?_⟩
      rintro (hsame | ⟨rest, -, -, rfl, -⟩)
      · exact hsame
      · simp at hstar

/-- The comparison answers what it should, unless a wildcard reaches beyond one label. -/
theorem matchesDns_iff (presented reference : List Byte) :
    (matchesDns presented reference = true ↔
      StandsFor (withoutTrailingDot presented) (withoutTrailingDot reference)) ↔
    ¬ Overreaches (withoutTrailingDot presented) (withoutTrailingDot reference) := by
  rw [matchesDns_cases]
  generalize withoutTrailingDot presented = p
  generalize withoutTrailingDot reference = r
  constructor
  · rintro h ⟨rest, label, tail, rfl, hrest, hlabel, rfl, hsame, hover⟩
    obtain ⟨-, hno, -⟩ | ⟨rest', label', tail', heq, -, hstar, hne, hlabel', hsplit, -⟩ :=
      h.mp (.inr ⟨rest, label, tail, rfl, hrest, hlabel, rfl, hsame⟩)
    · simp at hno
    obtain rfl : rest = rest' := by simpa using heq
    obtain rfl : label = label' := by
      have hlength := congrArg (findIdx? (· == dot)) hsplit
      rw [findIdx_label hlabel, findIdx_label hlabel', Option.some.injEq] at hlength
      exact (append_inj hsplit hlength).1
    exact hover.elim hstar hne
  · intro h
    refine or_congr_right ⟨?_, ?_⟩
    · rintro ⟨rest, label, tail, rfl, hrest, hlabel, rfl, hsame⟩
      have hover : ¬ (star ∈ rest ∨ label = []) := fun hover =>
        h ⟨rest, label, tail, rfl, hrest, hlabel, rfl, hsame, hover⟩
      obtain ⟨hstar, hne⟩ := not_or.mp hover
      exact ⟨rest, label, tail, rfl, hrest, hstar, hne, hlabel, rfl, hsame⟩
    · rintro ⟨rest, label, tail, hp, hrest, -, -, hlabel, hr, hsame⟩
      exact ⟨rest, label, tail, hp, hrest, hlabel, hr, hsame⟩

/-- `*.*` is taken for `a.*`, and `*.a` for the name `.a` with an empty first label. -/
theorem matchesDns_beyond_one_label :
    (matchesDns [star, dot, star] [0x61, dot, star] = true ∧
      ¬ StandsFor (withoutTrailingDot [star, dot, star]) (withoutTrailingDot [0x61, dot, star])) ∧
    matchesDns [star, dot, 0x61] [dot, 0x61] = true ∧
      ¬ StandsFor (withoutTrailingDot [star, dot, 0x61]) (withoutTrailingDot [dot, 0x61]) := by
  refine ⟨⟨by decide, ?_⟩, by decide, ?_⟩
  · rintro (⟨-, hno, -⟩ | ⟨rest, label, tail, heq, -, hno, -⟩)
    · exact hno (by decide)
    · obtain rfl : [star] = rest := by simpa [withoutTrailingDot, dot, star] using heq
      exact hno (by decide)
  · rintro (⟨-, hno, -⟩ | ⟨rest, label, tail, -, -, -, hlabel, hdot, heq, -⟩)
    · exact hno (by decide)
    cases label with
    | nil => exact hlabel rfl
    | cons first label =>
      obtain rfl : dot = first := by
        have h : [dot, 0x61] = first :: (label ++ dot :: tail) := heq
        exact (cons.inj h).1
      exact hdot mem_cons_self

end Audhsos.X509
