import Audhsos.Sched.Queues

/-!
Deadlines and time slices change no queue. `SameClock` relates two thread pools that agree on
everything but the deadlines, their places in the heap and the time slices; the operations of the
heap stay in this relation, and so does what is read off the rest of a thread.
-/

namespace Audhsos

open Lib

def Thread.eraseClock (thread : Thread) : Thread := (thread.setDeadline none none).setTimeSlice 0

@[simp] theorem Thread.eraseClock_setTimeSlice (thread : Thread) (ticks : Nat) :
    (thread.setTimeSlice ticks).eraseClock = thread.eraseClock := rfl

namespace Threads

variable {n : Nat} {a b c : Threads n}

def clockless (threads : Threads n) (id : ThreadId) : Option (Nat × Thread) :=
  (threads.find id).map fun o => (o.refs, o.value.eraseClock)

/-- The pools agree but for deadlines and time slices. -/
def SameClock (a b : Threads n) : Prop := ∀ id, b.clockless id = a.clockless id

theorem SameClock.refl (a : Threads n) : SameClock a a := fun _ => rfl

theorem SameClock.trans (hab : SameClock a b) (hbc : SameClock b c) : SameClock a c :=
  fun id => (hbc id).trans (hab id)

theorem SameClock.modify (a : Threads n) (id : ThreadId) {f : Thread → Thread}
    (hf : ∀ thread, (f thread).eraseClock = thread.eraseClock) : SameClock a (a.modify id f) := by
  intro j
  simp only [clockless, Pool.find_modify]
  by_cases hj : j = id
  · subst hj
    cases a.find j <;> simp [hf]
  · simp [hj]

/-- Anything read off a thread but its clock is the same in both pools. -/
theorem SameClock.get?_map (h : SameClock a b) {α : Type} (f : Thread → α)
    (hf : ∀ thread, f thread = f thread.eraseClock) (id : ThreadId) :
    (b.get? id).map f = (a.get? id).map f := by
  have heq := congrArg (Option.map fun o => f o.2) (h id)
  simp only [clockless, Option.map_map, Function.comp_def, ← hf] at heq
  simpa [Threads.get?, Function.comp_def] using heq

end Threads

open Threads

/-! ## The heap of deadlines -/

namespace Deadlines

variable {n : Nat}

theorem sameClock_recordIndex (heap : Deadlines) (threads : Threads n) (index : Nat) :
    SameClock threads (heap.recordIndex threads index) :=
  SameClock.modify threads _ fun _ => rfl

theorem sameClock_swap (heap : Deadlines) (threads : Threads n) (left right : Nat) :
    SameClock threads (heap.swap threads left right).2 :=
  (sameClock_recordIndex _ _ _).trans (sameClock_recordIndex _ _ _)

theorem sameClock_siftUp (fuel : Nat) (heap : Deadlines) (threads : Threads n) (position : Nat) :
    SameClock threads (siftUp fuel heap threads position).2.2 := by
  induction fuel generalizing heap threads position with
  | zero => exact SameClock.refl threads
  | succ fuel ih =>
    unfold siftUp
    split
    · exact SameClock.refl threads
    · dsimp only
      split
      · exact SameClock.refl threads
      · exact (sameClock_swap heap threads position _).trans (ih _ _ _)

theorem sameClock_siftDown (fuel : Nat) (heap : Deadlines) (threads : Threads n) (position : Nat) :
    SameClock threads (siftDown fuel heap threads position).2 := by
  induction fuel generalizing heap threads position with
  | zero => exact SameClock.refl threads
  | succ fuel ih =>
    unfold siftDown
    split
    · exact SameClock.refl threads
    dsimp only
    generalize (if position * 2 + 1 + 1 < heap.len ∧
      heap.before (position * 2 + 1 + 1) (position * 2 + 1) then position * 2 + 1 + 1
      else position * 2 + 1) = child
    split
    · exact SameClock.refl threads
    · exact (sameClock_swap heap threads position _).trans (ih _ _ _)

section

variable (heap : Deadlines) (threads : Threads n)
include heap

theorem sameClock_removeAt (index : Nat) : SameClock threads (heap.removeAt threads index).2 := by
  have hclear : SameClock threads
      (threads.modify (heap.entries index).id (·.setDeadline none none)) :=
    SameClock.modify threads _ fun _ => rfl
  unfold removeAt
  dsimp only
  split
  · exact ((hclear.trans (sameClock_recordIndex _ _ _)).trans (sameClock_siftUp _ _ _ _)).trans
      (sameClock_siftDown _ _ _ _)
  · exact hclear

theorem sameClock_remove (id : ThreadId) : SameClock threads (heap.remove threads id).2 := by
  unfold remove
  split
  · exact SameClock.refl threads
  split
  · exact SameClock.refl threads
  · split
    · exact sameClock_removeAt heap threads _
    · exact SameClock.refl threads

theorem sameClock_insert (id : ThreadId)
    (deadline : Nat) : SameClock threads (heap.insert threads id deadline).2.2 := by
  unfold insert
  split
  · exact SameClock.refl threads
  · refine (SameClock.modify threads id (f := (·.setDeadline (some deadline) (some heap.len)))
      fun _ => rfl).trans ?_
    exact sameClock_siftUp _ _ _ _

theorem sameClock_expired (now : Nat) : SameClock threads (heap.expired threads now).2.2 := by
  unfold expired
  generalize heap.len + 1 = fuel
  induction fuel generalizing heap threads with
  | zero => exact SameClock.refl threads
  | succ fuel ih =>
    unfold expiredLoop
    split
    · exact SameClock.refl threads
    dsimp only
    split
    · exact (sameClock_removeAt heap threads 0).trans (ih _ _)
    · split
      · exact SameClock.refl threads
      · exact sameClock_removeAt heap threads 0

end

end Deadlines

end Audhsos
