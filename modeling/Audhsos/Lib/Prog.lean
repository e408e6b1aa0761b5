import Mathlib.Algebra.Ring.Nat
import Mathlib.Data.Finset.Basic

/-!
Programs over an explicit state that answer a value or an error. An error does not take back what
the program did to the state before it, as in a function that works on a mutable reference and
returns early.

`wp m Q s` says that `m` run in `s` ends with an answer and a state in `Q`. The rules decompose
it along the program; `wp.mono` is how a proof cites what is known about a program it calls.
-/

namespace Audhsos.Lib

theorem bind_eq_ok {ε α β : Type} {x : Except ε α} {f : α → Except ε β} {b : β}
    (h : (x >>= f) = .ok b) : ∃ a, x = .ok a ∧ f a = .ok b := by
  cases x with
  | error e => cases h
  | ok a => exact ⟨a, rfl, h⟩

/-- A program over the state `σ` that answers an `α` or fails with an `ε`. -/
def Prog (ε σ α : Type) : Type := σ → Except ε α × σ

namespace Prog

variable {ε ε' σ τ α β : Type} {m : Prog ε σ α} {f : α → Prog ε σ β} {e : ε}

instance : Monad (Prog ε σ) where
  pure a := fun s => (.ok a, s)
  bind m f := fun s =>
    match m s with
    | (.ok a, s') => f a s'
    | (.error e, s') => (.error e, s')

def throw (e : ε) : Prog ε σ α := fun s => (.error e, s)

def get : Prog ε σ σ := fun s => (.ok s, s)

def gets (f : σ → α) : Prog ε σ α := fun s => (.ok (f s), s)

def modify (f : σ → σ) : Prog ε σ Unit := fun s => (.ok (), f s)

def ofExcept (r : Except ε α) : Prog ε σ α := fun s => (r, s)

/-- Fails with `e` unless `c` holds. -/
def require (c : Prop) [Decidable c] (e : ε) : Prog ε σ Unit :=
  fun s => (if c then .ok () else .error e, s)

/-- The value of an option, or the failure `e`. -/
def ofOption (a : Option α) (e : ε) : Prog ε σ α := ofExcept (a.elim (.error e) .ok)

variable (m)

/-- Runs `m` and answers what it answered, its error included. -/
def attempt : Prog ε' σ (Except ε α) := fun s => (.ok (m s).1, (m s).2)

/-- Runs `m` and drops its answer, an error included. -/
def ignore : Prog ε σ Unit := fun s => (.ok (), (m s).2)

/-- Runs `m`; when it fails, runs `undo` and fails all the same. -/
def orUndo (undo : Prog ε σ Unit) : Prog ε σ α := fun s =>
  match m s with
  | (.ok a, s') => (.ok a, s')
  | (.error e, s') => (.error e, (undo s').2)

/-- Runs a program of a part of the state. -/
def zoom (part : σ → τ) (put : τ → σ → σ) (err : ε → ε') (m : Prog ε τ α) : Prog ε' σ α :=
  fun s => ((m (part s)).1.mapError err, put (m (part s)).2 s)

/-! ## Running a program -/

theorem run_bind (f : α → Prog ε σ β) (s : σ) :
    (m >>= f) s = match m s with
      | (.ok a, s') => f a s'
      | (.error e, s') => (.error e, s') :=
  rfl

variable {m}

theorem run_bind_ok {s s' : σ} {a : α} (h : m s = (.ok a, s')) : (m >>= f) s = f a s' := by
  rw [run_bind, h]

theorem run_bind_error {s s' : σ} (h : m s = (.error e, s')) : (m >>= f) s = (.error e, s') := by
  rw [run_bind, h]

theorem ok_of_bind {s s' : σ} {b : β} (h : (m >>= f) s = (.ok b, s')) :
    ∃ a s₁, m s = (.ok a, s₁) ∧ f a s₁ = (.ok b, s') := by
  rw [run_bind] at h
  split at h
  next a s₁ hm => exact ⟨a, s₁, hm, h⟩
  · cases h

theorem bind_assoc {γ : Type} (m : Prog ε σ α) (f : α → Prog ε σ β) (g : β → Prog ε σ γ) :
    m >>= f >>= g = m >>= fun a => f a >>= g := by
  funext s
  rw [run_bind, run_bind, run_bind]
  rcases m s with ⟨e | a, s'⟩ <;> rfl

theorem run_attempt_bind (m : Prog ε σ α) (f : Except ε α → Prog ε' σ β) (s : σ) :
    (attempt m >>= f) s = f (m s).1 (m s).2 :=
  rfl

theorem run_pure (a : α) (s : σ) : (pure a : Prog ε σ α) s = (.ok a, s) :=
  rfl

theorem run_get (s : σ) : (get : Prog ε σ σ) s = (.ok s, s) :=
  rfl

variable {c : Prop}

theorem run_require [Decidable c] (h : c) (e : ε) (s : σ) :
    (require c e : Prog ε σ Unit) s = (.ok (), s) := by
  rw [require, if_pos h]

theorem run_require_not [Decidable c] (h : ¬ c) (e : ε) (s : σ) :
    (require c e : Prog ε σ Unit) s = (.error e, s) := by
  rw [require, if_neg h]

theorem of_require [Decidable c] {s s' : σ} {u : Unit}
    (h : (require c e : Prog ε σ Unit) s = (.ok u, s')) : c ∧ s' = s := by
  unfold require at h
  split at h
  next hc => exact ⟨hc, (Prod.mk.inj h).2.symm⟩
  · cases h

theorem run_ite [Decidable c] (m m' : Prog ε σ α) (s : σ) :
    (if c then m else m') s = if c then m s else m' s := by
  split <;> rfl

/-- A step that is only taken under a condition, in front of the others. -/
theorem run_ite_bind [Decidable c] {m : Prog ε σ Unit} {f : Unit → Prog ε σ α} {s s' : σ}
    (h : (if c then m else Pure.pure ()) s = (.ok (), s')) :
    (if c then m >>= f else f ()) s = f () s' := by
  by_cases hc : c
  · rw [if_pos hc] at h ⊢
    exact run_bind_ok h
  · rw [if_neg hc] at h ⊢
    obtain rfl : s = s' := congrArg Prod.snd h
    rfl

/-! ## Weakest preconditions -/

/-- Run in `s`, the program `m` ends with an answer and a state in `Q`. -/
def wp (m : Prog ε σ α) (Q : Except ε α → σ → Prop) (s : σ) : Prop := Q (m s).1 (m s).2

variable {m : Prog ε σ α} {f : α → Prog ε σ β} {Q R : Except ε α → σ → Prop} {s : σ} {g : σ → σ}

theorem wp.mono (h : wp m Q s) (hQR : ∀ r s', Q r s' → R r s') : wp m R s :=
  hQR _ _ h

@[simp] theorem wp_pure {a : α} : wp (pure a : Prog ε σ α) Q s ↔ Q (.ok a) s :=
  Iff.rfl

@[simp] theorem wp_modify {Q : Except ε Unit → σ → Prop} : wp (modify g) Q s ↔ Q (.ok ()) (g s) :=
  Iff.rfl

@[simp] theorem wp_ofExcept {r : Except ε α} : wp (ofExcept r : Prog ε σ α) Q s ↔ Q r s :=
  Iff.rfl

@[simp] theorem wp_require [Decidable c] {Q : Except ε Unit → σ → Prop} :
    wp (require c e) Q s ↔ (c → Q (.ok ()) s) ∧ (¬ c → Q (.error e) s) := by
  unfold wp require
  split <;> simp_all

variable {Q : Except ε β → σ → Prop}

/-- After `m` either its answer goes to the rest or its error is the end. -/
theorem wp_bind :
    wp (m >>= f) Q s ↔
      wp m (fun r s' => (∀ a, r = .ok a → wp (f a) Q s') ∧
        (∀ e, r = .error e → Q (.error e) s')) s := by
  change Q (match m s with | (.ok a, s') => f a s' | (.error e, s') => (.error e, s')).1
      (match m s with | (.ok a, s') => f a s' | (.error e, s') => (.error e, s')).2 ↔ _
  unfold wp
  rcases m s with ⟨r | r, s'⟩ <;> simp

@[simp] theorem wp_get {Q : Except ε σ → σ → Prop} : wp get Q s ↔ Q (.ok s) s :=
  Iff.rfl

/-! A first step that cannot fail, and one that only can refuse. -/

theorem wp_get_bind {f : σ → Prog ε σ β} : wp (get >>= f) Q s ↔ wp (f s) Q s :=
  Iff.rfl

theorem wp_modify_bind {f : Unit → Prog ε σ β} : wp (modify g >>= f) Q s ↔ wp (f ()) Q (g s) :=
  Iff.rfl

theorem wp_require_bind [Decidable c] {f : Unit → Prog ε σ β} :
    wp (require c e >>= f) Q s ↔ (c → wp (f ()) Q s) ∧ (¬ c → Q (.error e) s) := by
  rw [wp_bind, wp_require]
  constructor
  · exact fun h => ⟨fun hc => (h.1 hc).1 () rfl, fun hc => (h.2 hc).2 e rfl⟩
  · exact fun h => ⟨fun hc => ⟨fun _ _ => h.1 hc, nofun⟩,
      fun hc => ⟨nofun, fun _ he => Except.error.inj he ▸ h.2 hc⟩⟩

theorem wp_attempt {Q : Except ε' (Except ε α) → σ → Prop} :
    wp (attempt m) Q s ↔ wp m (fun r s' => Q (.ok r) s') s :=
  Iff.rfl

/-! ## Programs that keep a view of the state -/

/-- `m` does not change what `view` shows of the state, whatever it answers. -/
def Keeps {β : Type} (view : σ → β) (m : Prog ε σ α) : Prop := ∀ s, view (m s).2 = view s

namespace Keeps

variable {γ : Type} {view : σ → γ}

theorem pure (a : α) : Keeps view (Pure.pure a : Prog ε σ α) := fun _ => rfl

theorem get : Keeps view (Prog.get : Prog ε σ σ) := fun _ => rfl

theorem gets (g : σ → α) : Keeps view (Prog.gets g : Prog ε σ α) := fun _ => rfl

theorem ofExcept (r : Except ε α) : Keeps view (Prog.ofExcept r : Prog ε σ α) := fun _ => rfl

theorem ofOption (a : Option α) (e : ε) : Keeps view (Prog.ofOption a e : Prog ε σ α) :=
  fun _ => rfl

theorem require (c : Prop) [Decidable c] (e : ε) :
    Keeps view (Prog.require c e : Prog ε σ Unit) := fun _ => rfl

theorem bind (hm : Keeps view m) (hf : ∀ a, Keeps view (f a)) : Keeps view (m >>= f) := by
  intro s
  have hs := hm s
  rw [run_bind]
  generalize m s = answer at hs ⊢
  rcases answer with ⟨e | a, s'⟩
  · exact hs
  · exact (hf a s').trans hs

theorem ite [Decidable c] {m' : Prog ε σ α} (hm : Keeps view m)
    (hm' : Keeps view m') : Keeps view (if c then m else m') := by
  split
  · exact hm
  · exact hm'

theorem attempt (hm : Keeps view m) : Keeps view (Prog.attempt m : Prog ε' σ (Except ε α)) :=
  fun s => hm s

theorem wp_bind (hm : Keeps view m)
    (hok : ∀ a s', m s = (.ok a, s') → view s' = view s → Prog.wp (f a) Q s')
    (herror : ∀ e s', m s = (.error e, s') → view s' = view s → Q (.error e) s') :
    Prog.wp (m >>= f) Q s := by
  have hs := hm s
  rw [Prog.wp_bind, Prog.wp]
  generalize heq : m s = answer at hs hok herror ⊢
  rcases answer with ⟨e | a, s'⟩
  · exact ⟨nofun, fun e' he => by cases he; exact herror e s' rfl hs⟩
  · exact ⟨fun a' ha => by cases ha; exact hok a s' rfl hs, nofun⟩

end Keeps

/-- The program does not change the state. -/
abbrev Reads (m : Prog ε σ α) : Prop := m.Keeps id

theorem Reads.wp_bind (hm : Reads m)
    (hok : ∀ a, m s = (.ok a, s) → wp (f a) Q s) (herror : ∀ e, Q (.error e) s) :
    wp (m >>= f) Q s :=
  Keeps.wp_bind hm
    (fun a s' heq hs => by cases (show s' = s from hs); exact hok a heq)
    (fun e s' _ hs => by cases (show s' = s from hs); exact herror e)

end Prog

end Audhsos.Lib
