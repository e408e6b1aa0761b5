import Audhsos.Sched.DeadlineHeap

/-!
The heap lies in an array of `deadlineCapacity` places, and the model has a place for every number.
`past` changes what lies behind the array, which no operation reads or writes.
-/

namespace Audhsos

open Function

namespace Deadlines

variable {n : Nat} {heap : Deadlines} {threads : Threads n} {id : ThreadId}
  {junk : Nat → DeadlineEntry} {i j index : Nat}

/-- An array with other things behind its end. -/
def pastEnd (junk entries : Nat → DeadlineEntry) (i : Nat) : DeadlineEntry :=
  if i < deadlineCapacity then entries i else junk i

def past (junk : Nat → DeadlineEntry) (heap : Deadlines) : Deadlines :=
  ⟨pastEnd junk heap.entries, heap.len, heap.order⟩

section

variable (hi : i < deadlineCapacity)
include hi

theorem past_entries : (heap.past junk).entries i = heap.entries i :=
  if_pos hi

theorem update_pastEnd (e : DeadlineEntry)
    (entries : Nat → DeadlineEntry) : update (pastEnd junk entries) i e =
      pastEnd junk (update entries i e) := by
  funext j
  unfold pastEnd
  by_cases hj : j = i
  · rw [hj, update_self, if_pos hi, update_self]
  · rw [update_of_ne hj, update_of_ne hj]

theorem past_before (hj : j < deadlineCapacity) :
    (heap.past junk).before i j = heap.before i j := by
  unfold before
  rw [past_entries hi, past_entries hj]

theorem past_recordIndex : (heap.past junk).recordIndex threads i = heap.recordIndex threads i := by
  unfold recordIndex
  rw [past_entries hi]

theorem past_swap (hj : j < deadlineCapacity) :
    (heap.past junk).swap threads i j =
      ((heap.swap threads i j).1.past junk, (heap.swap threads i j).2) := by
  let swapped : Deadlines := ⟨update (update heap.entries i (heap.entries j)) j
    (heap.entries i), heap.len, heap.order⟩
  unfold swap
  rw [past_entries hi, past_entries hj, show (heap.past junk).entries = pastEnd junk heap.entries
    from rfl, update_pastEnd hi, update_pastEnd hj]
  change (past junk swapped, (past junk swapped).recordIndex ((past junk swapped).recordIndex
    threads i) j) = (past junk swapped, swapped.recordIndex (swapped.recordIndex threads i) j)
  rw [past_recordIndex hi, past_recordIndex hj]

end

variable (junk)

theorem past_siftUp (fuel : Nat) :
    ∀ (heap : Deadlines) (threads : Threads n) (position : Nat),
    position < deadlineCapacity →
    let after := siftUp fuel heap threads position
    siftUp fuel (heap.past junk) threads position =
      (after.1, after.2.1.past junk, after.2.2) ∧ after.1 ≤ position ∧
        after.2.1.len = heap.len := by
  induction fuel with
  | zero => exact fun heap threads position _ => ⟨rfl, le_refl _, rfl⟩
  | succ fuel ih =>
    intro heap threads position hposition
    have hparent : (position - 1) / 2 < deadlineCapacity := by omega
    unfold siftUp
    dsimp only
    by_cases h0 : position = 0
    · rw [if_pos h0, if_pos h0]
      exact ⟨rfl, le_refl _, rfl⟩
    rw [if_neg h0, if_neg h0, past_before hposition hparent]
    by_cases hbefore : heap.before position ((position - 1) / 2) = true
    · rw [if_neg (not_not.mpr hbefore), if_neg (not_not.mpr hbefore), past_swap hposition hparent]
      obtain ⟨heq, hle, hlen⟩ := ih (heap.swap threads position ((position - 1) / 2)).1
        (heap.swap threads position ((position - 1) / 2)).2 _ hparent
      exact ⟨heq, by omega, hlen⟩
    · rw [if_pos hbefore, if_pos hbefore]
      exact ⟨rfl, le_refl _, rfl⟩

theorem past_siftDown (fuel : Nat) :
    ∀ (heap : Deadlines) (threads : Threads n) (position : Nat),
    heap.len ≤ deadlineCapacity →
    let after := siftDown fuel heap threads position
    siftDown fuel (heap.past junk) threads position = (after.1.past junk, after.2) ∧
      after.1.len = heap.len := by
  induction fuel with
  | zero => exact fun heap threads position _ => ⟨rfl, rfl⟩
  | succ fuel ih =>
    intro heap threads position hlen
    unfold siftDown
    dsimp only
    rw [show (heap.past junk).len = heap.len from rfl]
    by_cases hleaf : position < heap.len / 2
    · have hright : (position * 2 + 1 + 1 < heap.len ∧
          (heap.past junk).before (position * 2 + 1 + 1) (position * 2 + 1) = true) ↔
          position * 2 + 1 + 1 < heap.len ∧
            heap.before (position * 2 + 1 + 1) (position * 2 + 1) = true :=
        and_congr_right fun hlt => by rw [past_before (by omega) (by omega)]
      rw [if_neg (not_not.mpr hleaf), if_neg (not_not.mpr hleaf)]
      simp only [hright]
      generalize hchild : (if position * 2 + 1 + 1 < heap.len ∧ heap.before (position * 2 + 1 + 1)
        (position * 2 + 1) = true then position * 2 + 1 + 1 else position * 2 + 1) = child
      have hlt : child < heap.len := by split at hchild <;> omega
      rw [past_before (by omega) (by omega)]
      by_cases hbefore : heap.before child position = true
      · rw [if_neg (not_not.mpr hbefore), if_neg (not_not.mpr hbefore),
          past_swap (by omega) (by omega)]
        exact ih (heap.swap threads position child).1 (heap.swap threads position child).2 child hlen
      · rw [if_pos hbefore, if_pos hbefore]
        exact ⟨rfl, rfl⟩
    · rw [if_pos hleaf, if_pos hleaf]
      exact ⟨rfl, rfl⟩

variable {junk}

theorem past_insert (hlen : heap.len ≤ deadlineCapacity) (deadline : Nat) :
    let after := heap.insert threads id deadline
    (heap.past junk).insert threads id deadline = (after.1, after.2.1.past junk, after.2.2) := by
  unfold insert
  rw [show (heap.past junk).canInsert threads id = heap.canInsert threads id from rfl]
  cases hcan : heap.canInsert threads id with
  | error e => rfl
  | ok _ =>
    obtain ⟨-, -, -, -, hroom⟩ := canInsert_ok hcan
    have hlt : heap.len < deadlineCapacity := lt_of_le_of_ne hlen hroom
    dsimp only
    rw [show (heap.past junk).entries = pastEnd junk heap.entries from rfl,
      show (heap.past junk).len = heap.len from rfl,
      show (heap.past junk).order = heap.order from rfl, update_pastEnd hlt]
    have hsift := (past_siftUp junk (heap.len + 1) ⟨update heap.entries heap.len
      ⟨deadline, heap.order, id⟩, heap.len + 1, heap.order + 1⟩
      (threads.modify id (·.setDeadline (some deadline) (some heap.len))) heap.len hlt).1
    exact congrArg (fun r => (Except.ok (), r.2)) hsift

theorem past_filled (hlen : heap.len ≤ deadlineCapacity) (hi : index < heap.len) :
    (heap.past junk).filled index = (heap.filled index).past junk := by
  unfold filled
  rw [show (heap.past junk).len = heap.len from rfl, past_entries (by omega),
    show (heap.past junk).entries = pastEnd junk heap.entries from rfl,
    update_pastEnd (by omega)]
  rfl

theorem past_trimmed (hlen : heap.len < deadlineCapacity) :
    (heap.past junk).trimmed = heap.trimmed.past junk := by
  unfold trimmed
  rw [show (heap.past junk).entries = pastEnd junk heap.entries from rfl,
    show (heap.past junk).len = heap.len from rfl, update_pastEnd hlen]
  rfl

theorem past_removeAt (junk : Nat → DeadlineEntry) (threads : Threads n)
    (hlen : heap.len ≤ deadlineCapacity) (hi : index < heap.len) :
    let after := heap.removeAt threads index
    (heap.past junk).removeAt threads index = (after.1.past junk, after.2) ∧
    after.1.len = heap.len - 1 := by
  dsimp only
  have hat : (heap.past junk).entries index = heap.entries index := past_entries (by omega)
  have hfilled : (heap.filled index).len < deadlineCapacity := by
    change heap.len - 1 < deadlineCapacity
    omega
  by_cases hlast : index = heap.len - 1
  · rw [removeAt_last heap threads hlast, removeAt_last (heap.past junk) threads hlast, hat,
      past_filled hlen hi, past_trimmed hfilled]
    exact ⟨rfl, rfl⟩
  let threads₁ : Threads n := (heap.filled index).recordIndex
    (threads.modify (heap.entries index).id (·.setDeadline none none)) index
  let after := siftUp (index + 1) (heap.filled index) threads₁ index
  obtain ⟨hup, hle, hlen₃⟩ := past_siftUp junk (index + 1) (heap.filled index) threads₁
    index (by omega)
  obtain ⟨hdown, hlen₄⟩ := past_siftDown junk (after.2.1.len + 1) after.2.1 after.2.2 after.1
    (hlen₃ ▸ hfilled.le)
  rw [removeAt_move heap hlast rfl rfl, removeAt_move (heap.past junk) hlast
    (by rw [past_filled hlen hi, hat, past_recordIndex (by omega)]; exact hup) hdown,
    past_trimmed (by rw [hlen₄, hlen₃]; exact hfilled)]
  exact ⟨rfl, hlen₄.trans hlen₃⟩

theorem past_expiredLoop (now fuel : Nat) : ∀ (heap : Deadlines) (threads : Threads n),
    heap.len ≤ deadlineCapacity →
    let after := expiredLoop now fuel heap threads
    expiredLoop now fuel (heap.past junk) threads = (after.1, after.2.1.past junk, after.2.2) := by
  induction fuel with
  | zero => exact fun _ _ _ => rfl
  | succ fuel ih =>
    intro heap threads hlen
    unfold expiredLoop
    rw [show (heap.past junk).len = heap.len from rfl]
    by_cases h0 : heap.len = 0
    · rw [if_pos h0, if_pos h0]
    obtain ⟨hremove, hlen'⟩ := past_removeAt junk threads hlen
      (Nat.pos_of_ne_zero h0)
    rw [if_neg h0, if_neg h0]
    dsimp only
    rw [past_entries (by decide), hremove]
    dsimp only
    rw [ih _ _ (by omega)]
    split
    · rfl
    · split <;> rfl

theorem past_remove (hlen : heap.len ≤ deadlineCapacity) :
    (heap.past junk).remove threads id =
      ((heap.remove threads id).1.past junk, (heap.remove threads id).2) := by
  unfold remove
  cases threads.get? id with
  | none => rfl
  | some t =>
    dsimp only
    cases t.deadlineIndex with
    | none => rfl
    | some index =>
      dsimp only
      rw [show (heap.past junk).len = heap.len from rfl]
      by_cases hi : index < heap.len
      · rw [past_entries (by omega), (past_removeAt junk threads hlen hi).1]
        split <;> rfl
      · rw [if_neg fun h => hi h.1, if_neg fun h => hi h.1]

end Deadlines

end Audhsos
