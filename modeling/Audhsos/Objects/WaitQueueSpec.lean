import Audhsos.Objects.WaitQueue
import Audhsos.Sched.Reachable

/-!
A wait queue as a list of threads. `Stands s l` says that the queue of `s` is the doubly linked list
`l`; each operation does to the list what it is named after, and touches no link but those next to
the place where it works. Other queues may be linked through the same pool: `unlink` of a thread
that waits in one of them is the one call that goes wrong.
-/

namespace Audhsos

open Lib Prog Threads List Option Thread SchedCall

namespace WaitQueue

variable {n : Nat} {s : WaitState n} {l l₁ l₂ : List ThreadId} {id j : ThreadId} {t : Thread}
  {threads threads' : Threads n} {previous next : Option ThreadId} {wanted : Nat → Bool}

section

variable (threads : Threads n) (id : ThreadId)

def nextOf : Option ThreadId :=
  (threads.get? id).bind (·.waitLinks.next)

def prevOf : Option ThreadId :=
  (threads.get? id).bind (·.waitLinks.previous)

/-- The priority of a thread; of an id that names none, zero. -/
def priorityOf : Nat :=
  (threads.get? id).elim 0 (·.priority)

end

/-- The queue is the list `l`, in whatever order. -/
structure Stands (s : WaitState n) (l : List ThreadId) : Prop where
  linked : Linked (nextOf s.threads) (prevOf s.threads) l
  head_eq : s.queue.head = l.head?
  tail_eq : s.queue.tail = l.getLast?
  len_eq : s.queue.len = l.length
  live : ∀ id ∈ l, s.threads.get? id ≠ none

/-! ## Walking -/

theorem iterFrom_eq (h : Chain (nextOf threads) l none) (hlive : ∀ id ∈ l, threads.get? id ≠ none) :
    iterFrom threads l.length l.head? = l := by
  induction l with
  | nil => rfl
  | cons a l ih =>
    have hnext : (threads.get? a).bind (·.waitLinks.next) = l.head? := by
      have := h.1
      rwa [or_none] at this
    rw [length_cons, head?_cons, iterFrom, hnext,
      ih h.2 fun id hid => hlive id (mem_cons_of_mem a hid)]

theorem Stands.iter_eq (h : Stands s l) : s.queue.iter s.threads = l := by
  unfold iter
  rw [h.len_eq, h.head_eq]
  exact iterFrom_eq h.linked.forward h.live

theorem find?_eq_head?_dropWhile {α : Type} (p : α → Bool) (l : List α) :
    l.find? p = (l.dropWhile fun a => !p a).head? := by
  induction l with
  | nil => rfl
  | cons a l ih =>
    by_cases ha : p a = true
    · simp [ha]
    · simp [ha, ih]

theorem Stands.findByPriority_eq (h : Stands s l) (wanted : Nat → Bool) :
    s.queue.findByPriority s.threads wanted =
      (l.dropWhile fun id => !wanted (priorityOf s.threads id)).head? := by
  unfold findByPriority
  rw [h.iter_eq, ← find?_eq_head?_dropWhile]
  have hlive := h.live
  clear h
  induction l with
  | nil => rfl
  | cons a l ih =>
    obtain ⟨t, ht⟩ := ne_none_iff_exists'.mp (hlive a mem_cons_self)
    have hany : ((s.threads.get? a).any fun thread => wanted thread.priority) =
        wanted (priorityOf s.threads a) := by
      rw [priorityOf, ht]
      rfl
    rw [find?_cons, find?_cons, hany, ih fun id hid => hlive id (mem_cons_of_mem a hid)]

/-! ## Linking -/

/-- `id` was put between two neighbours, and no other link changed. -/
def Inserted (threads threads' : Threads n) (id : ThreadId) (previous next : Option ThreadId) :
    Prop :=
  ∀ j, threads'.get? j =
    if j = id then (threads.get? id).map (·.setWaitLinks ⟨next, previous⟩)
    else (threads.get? j).map fun u => u.setWaitLinks
      ⟨if previous = some j then some id else u.waitLinks.next,
        if next = some j then some id else u.waitLinks.previous⟩

section

variable (h : Inserted threads threads' id previous next)
include h

theorem Inserted.get? (hj : j ≠ id)
    (hprev : previous ≠ some j) (hnext : next ≠ some j) : threads'.get? j = threads.get? j := by
  rw [h, if_neg hj]
  cases threads.get? j with
  | none => rfl
  | some u => simp [hprev, hnext, setWaitLinks]

theorem Inserted.priorityOf (j : ThreadId) :
    WaitQueue.priorityOf threads' j = WaitQueue.priorityOf threads j := by
  unfold WaitQueue.priorityOf
  rw [h]
  by_cases hj : j = id
  · rw [if_pos hj, hj]
    cases threads.get? id <;> rfl
  · rw [if_neg hj]
    cases threads.get? j <;> rfl

theorem Inserted.isSome (j : ThreadId) : threads'.get? j ≠ none ↔ threads.get? j ≠ none := by
  rw [h]
  by_cases hj : j = id
  · rw [if_pos hj, hj]
    cases threads.get? id <;> simp
  · rw [if_neg hj]
    cases threads.get? j <;> simp

end

theorem Inserted.linked (h : Inserted threads threads' id l₁.getLast? l₂.head?)
    (hl : Linked (nextOf threads) (prevOf threads) (l₁ ++ l₂)) (hid : id ∉ l₁ ++ l₂)
    (ht : threads.get? id = some t) (hlive : ∀ j ∈ l₁ ++ l₂, threads.get? j ≠ none) :
    Linked (nextOf threads') (prevOf threads') (l₁ ++ id :: l₂) := by
  have hother : ∀ j ∈ l₁ ++ l₂, j ≠ id := fun j hj heq => hid (heq ▸ hj)
  refine hl.insert hid ?_ ?_ (fun j hj => ?_) fun j hj => ?_
  · simp [nextOf, h id, ht]
  · simp [prevOf, h id, ht]
  · obtain ⟨u, hu⟩ := ne_none_iff_exists'.mp (hlive j hj)
    simp [nextOf, h j, hother j hj, hu]
  · obtain ⟨u, hu⟩ := ne_none_iff_exists'.mp (hlive j hj)
    simp [prevOf, h j, hother j hj, hu]

theorem getThread_eq (ht : s.threads.get? id = some t) : getThread id s = (.ok t, s) := by
  unfold getThread
  rw [ht]
  rfl

theorem getThread_mk (queue : WaitQueue) (ht : threads.get? id = some t) :
    getThread id ⟨queue, threads⟩ = (.ok t, ⟨queue, threads⟩) :=
  getThread_eq ht

theorem get?_modify_ne_none (threads : Threads n) (id j : ThreadId) (f : Thread → Thread) :
    get? (threads.modify id f) j ≠ none ↔ threads.get? j ≠ none := by
  rw [get?_modify]
  by_cases hj : j = id
  · rw [if_pos hj, hj]
    cases threads.get? id <;> simp
  · rw [if_neg hj]

theorem exists_get?_modify {threads : Threads n} (h : threads.get? j ≠ none) (id : ThreadId)
    (f : Thread → Thread) : ∃ u, get? (threads.modify id f) j = some u :=
  ne_none_iff_exists'.mp ((get?_modify_ne_none threads id j f).mpr h)

def modifyAt (threads : Threads n) (neighbour : Option ThreadId) (f : Thread → Thread) :
    Threads n :=
  match neighbour with
  | some j => threads.modify j f
  | none => threads

theorem get?_modifyAt (threads : Threads n) (neighbour : Option ThreadId) (f : Thread → Thread)
    (j : ThreadId) :
    (modifyAt threads neighbour f).get? j =
      if neighbour = some j then (threads.get? j).map f else threads.get? j := by
  cases neighbour with
  | none => rfl
  | some k => exact Scheduler.get?_elim_modify threads (some k) f j

def inserted (threads : Threads n) (id : ThreadId) (previous next : Option ThreadId) : Threads n :=
  modifyAt (modifyAt (threads.modify id (·.setWaitLinks ⟨next, previous⟩)) next
      fun after => after.setWaitLinks { after.waitLinks with previous := some id })
    previous fun before => before.setWaitLinks { before.waitLinks with next := some id }

theorem inserted_inserted (threads : Threads n) (hprev : previous ≠ some id)
    (hnext : next ≠ some id) :
    Inserted threads (inserted threads id previous next) id previous next := by
  intro j
  unfold inserted
  rw [get?_modifyAt, get?_modifyAt, get?_modify]
  by_cases hj : j = id
  · rw [hj, if_neg hprev, if_neg hnext, if_pos rfl, if_pos rfl]
  rw [if_neg hj, if_neg hj]
  cases threads.get? j with
  | none => simp
  | some u =>
    by_cases hp : previous = some j <;> by_cases hn : next = some j <;>
      simp [hp, hn, setWaitLinks]

theorem modifyThread_bind {α : Type} (f : Thread → Thread) (k : Unit → Prog Error (WaitState n) α) :
    (modifyThread id f >>= k) s = k () ⟨s.queue, s.threads.modify id f⟩ := rfl

theorem append_eq (ht : s.threads.get? id = some t)
    (htail : ∀ j, s.queue.tail = some j → s.threads.get? j ≠ none) :
    append id s = (.ok (), ⟨{ s.queue with
        head := if s.queue.tail = none then some id else s.queue.head, tail := some id },
        inserted s.threads id s.queue.tail none⟩) := by
  unfold append inserted modifyAt
  rw [run_bind_ok (show Prog.gets (·.queue) s = (.ok s.queue, s) from rfl),
    run_bind_ok (getThread_eq ht)]
  cases hq : s.queue.tail with
  | none => rfl
  | some previous =>
    obtain ⟨u, hu⟩ := exists_get?_modify (htail previous hq) id
      (·.setWaitLinks { next := none, previous := some previous })
    dsimp only
    rw [modifyThread_bind, run_bind_ok (getThread_mk s.queue hu)]
    rfl

/-- `linkBefore` puts the thread between a member and the one before it. -/
theorem linkBefore_eq {after : ThreadId} {u : Thread} (ht : s.threads.get? id = some t)
    (hu : s.threads.get? after = some u)
    (hprev : ∀ j, u.waitLinks.previous = some j → s.threads.get? j ≠ none) :
    linkBefore id after s = (.ok (), ⟨{ s.queue with
        head := if u.waitLinks.previous = none then some id else s.queue.head },
        inserted s.threads id u.waitLinks.previous (some after)⟩) := by
  unfold linkBefore inserted modifyAt
  rw [run_bind_ok (getThread_eq hu), run_bind_ok (getThread_eq ht)]
  obtain ⟨v, hv⟩ := exists_get?_modify (show s.threads.get? after ≠ none by rw [hu]; simp) id
    (·.setWaitLinks { next := some after, previous := u.waitLinks.previous })
  rw [modifyThread_bind, run_bind_ok (getThread_mk s.queue hv)]
  cases hq : u.waitLinks.previous with
  | none => rfl
  | some previous =>
    obtain ⟨w, hw⟩ := exists_get?_modify (hprev previous hq) id
      (·.setWaitLinks { next := some after, previous := some previous })
    obtain ⟨x, hx⟩ := exists_get?_modify (by rw [hw]; simp) after
      fun after => after.setWaitLinks { after.waitLinks with previous := some id }
    rw [modifyThread_bind]
    dsimp only
    rw [run_bind_ok (getThread_mk s.queue hx)]
    rfl

section

variable (wanted : Nat → Bool) (threads : Threads n)

/-- The list with `id` in front of the first thread whose priority is wanted. -/
def placedAt (id : ThreadId) (l : List ThreadId) : List ThreadId :=
  (l.takeWhile fun j => !wanted (priorityOf threads j)) ++
    id :: l.dropWhile fun j => !wanted (priorityOf threads j)

/-- The threads in front of the first one whose priority is wanted. -/
def ahead (l : List ThreadId) : List ThreadId :=
  l.takeWhile fun j => !wanted (priorityOf threads j)

/-- The first thread whose priority is wanted, and what stands behind it. -/
def behind (l : List ThreadId) : List ThreadId :=
  l.dropWhile fun j => !wanted (priorityOf threads j)

end

section

variable (wanted : Nat → Bool)

theorem ahead_append_behind (threads : Threads n) (l : List ThreadId) :
    ahead wanted threads l ++ behind wanted threads l = l := takeWhile_append_dropWhile

theorem placedAt_eq (threads : Threads n) (id : ThreadId) (l : List ThreadId) :
    placedAt wanted threads id l = ahead wanted threads l ++ id :: behind wanted threads l := rfl

theorem wanted_of_mem_dropWhile (hdown : ∀ p q, wanted p = true → q ≤ p → wanted q = true)
    (hsorted : l.Pairwise fun a b => priorityOf threads b ≤ priorityOf threads a) :
    ∀ j ∈ behind wanted threads l, wanted (priorityOf threads j) = true := by
  induction l with
  | nil => exact fun j hj => absurd hj not_mem_nil
  | cons a l ih =>
    obtain ⟨hhead, hrest⟩ := pairwise_cons.mp hsorted
    intro j hj
    rw [behind, dropWhile_cons] at hj
    by_cases ha : wanted (priorityOf threads a) = true
    · rw [if_neg (by simp [ha])] at hj
      rcases mem_cons.mp hj with rfl | hj
      · exact ha
      · exact hdown _ _ ha (hhead j hj)
    · rw [if_pos (by simp [ha])] at hj
      exact ih hrest j hj

theorem not_wanted_of_mem_takeWhile :
    ∀ j ∈ ahead wanted threads l, wanted (priorityOf threads j) = false := by
  intro j hj
  have hall := all_eq_true.mp all_takeWhile j hj
  simpa using hall

end

theorem Stands.not_mem (h : Stands s l) (ht : s.threads.get? id = some t)
    (hlinks : t.waitLinks.isUnlinked = true) (hhead : s.queue.head ≠ some id) : id ∉ l := by
  intro hid
  simp only [Links.isUnlinked, Bool.and_eq_true, isNone_iff_eq_none] at hlinks
  have hprev : prevOf s.threads id = none := by simp [prevOf, ht, hlinks.2]
  exact hhead (h.head_eq.trans (h.linked.head_of_prev_none hid hprev))

theorem mem_middle : j ∈ l₁ ++ id :: l₂ ↔ j = id ∨ j ∈ l₁ ++ l₂ := by
  simp only [mem_append, mem_cons]
  exact or_left_comm

theorem length_le_of_live (hnodup : l.Nodup) (hlive : ∀ id ∈ l, threads.get? id ≠ none) :
    l.length ≤ n := by
  have hfind : ∀ id ∈ l, id.index < n ∧ (threads.slots id.index).generation = id.generation := by
    intro id hid
    obtain ⟨t, ht⟩ := ne_none_iff_exists'.mp (hlive id hid)
    obtain ⟨o, ho, -⟩ := map_eq_some_iff.mp ht
    obtain ⟨hn, hg, -⟩ := PoolSlots.find_eq_some.mp ho
    exact ⟨hn, hg⟩
  have hmap : (l.map (·.index)).Nodup := by
    refine hnodup.map_on fun a ha b hb hab => ObjectId.ext hab ?_
    rw [← (hfind a ha).2, ← (hfind b hb).2, hab]
  have hsub : l.map (·.index) ⊆ List.range n := by
    intro i hi
    obtain ⟨id, hid, rfl⟩ := mem_map.mp hi
    exact mem_range.mpr (hfind id hid).1
  have hlen := (hmap.subperm hsub).length_le
  rwa [length_map, length_range] at hlen

theorem Stands.insert (h : Stands s l) (ht : s.threads.get? id = some t)
    (hid : id ∉ l) {threads' : Threads n} (hinserted : Inserted s.threads threads' id
      (ahead wanted s.threads l).getLast? (behind wanted s.threads l).head?) :
    Stands ⟨⟨(placedAt wanted s.threads id l).head?, (placedAt wanted s.threads id l).getLast?,
      satAdd32 s.queue.len 1⟩, threads'⟩ (placedAt wanted s.threads id l) := by
  have hsplit := ahead_append_behind wanted s.threads l
  have hlinked := h.linked
  have hlive := h.live
  have hlen := h.len_eq
  simp only [placedAt_eq]
  generalize ahead wanted s.threads l = l₁ at *
  generalize behind wanted s.threads l = l₂ at *
  subst hsplit
  have hlinked' := hinserted.linked hlinked hid ht hlive
  have hlive' : ∀ j ∈ l₁ ++ id :: l₂, threads'.get? j ≠ none := by
    intro j hj
    refine (hinserted.isSome j).mpr ?_
    rcases mem_middle.mp hj with rfl | hj
    · rw [ht]
      exact some_ne_none t
    · exact hlive j hj
  refine ⟨hlinked', rfl, rfl, ?_, hlive'⟩
  have hle := length_le_of_live hlinked'.nodup hlive'
  have hsize := s.threads.valid.size_lt
  rw [length_append, length_cons] at hle
  rw [length_append] at hlen
  rw [length_append, length_cons]
  change satAdd32 s.queue.len 1 = _
  rw [satAdd32_eq (by omega)]
  omega

/-- Highest priority first. -/
def Sorted (threads : Threads n) (l : List ThreadId) : Prop :=
  l.Pairwise fun a b => priorityOf threads b ≤ priorityOf threads a

theorem Sorted.placedAt (h : Sorted threads l)
    (hdown : ∀ p q, wanted p = true → q ≤ p → wanted q = true)
    (hbelow : ∀ p, wanted p = true → p ≤ priorityOf threads id)
    (habove : ∀ p, wanted p = false → priorityOf threads id ≤ p) :
    Sorted threads (placedAt wanted threads id l) := by
  have hback := wanted_of_mem_dropWhile wanted hdown h
  have hfront : ∀ j ∈ ahead wanted threads l, wanted (priorityOf threads j) = false :=
    not_wanted_of_mem_takeWhile wanted
  have hsplit := ahead_append_behind wanted threads l
  unfold Sorted at h ⊢
  rw [← hsplit] at h
  obtain ⟨h₁, h₂, h₁₂⟩ := pairwise_append.mp h
  rw [placedAt_eq]
  refine pairwise_append.mpr ⟨h₁, pairwise_cons.mpr ⟨fun b hb => ?_, h₂⟩, fun a ha b hb => ?_⟩
  · exact hbelow _ (hback b hb)
  · rcases mem_cons.mp hb with rfl | hb
    · exact habove _ (hfront a ha)
    · exact h₁₂ a ha b hb

theorem Stands.link_eq (h : Stands s l) (wanted : Nat → Bool) (ht : s.threads.get? id = some t)
    (hid : id ∉ l) :
    (match (behind wanted s.threads l).head? with
      | some next => linkBefore id next
      | none => append id) s =
      (.ok (), ⟨⟨(placedAt wanted s.threads id l).head?, (placedAt wanted s.threads id l).getLast?,
        s.queue.len⟩, inserted s.threads id
          (ahead wanted s.threads l).getLast? (behind wanted s.threads l).head?⟩) := by
  have hsplit := ahead_append_behind wanted s.threads l
  simp only [placedAt_eq]
  generalize ahead wanted s.threads l = l₁ at *
  generalize behind wanted s.threads l = l₂ at *
  subst hsplit
  cases l₂ with
  | nil =>
    have htail := h.tail_eq
    rw [head?_nil]
    dsimp only
    rw [append_eq ht fun j hj => h.live j (mem_of_getLast? (htail.symm.trans hj)), htail,
      h.head_eq, getLast?_append, head?_append]
    cases hl : l₁ with
    | nil => rfl
    | cons a l => simp [getLast?_cons]
  | cons next l₂ =>
    obtain ⟨u, hu⟩ := ne_none_iff_exists'.mp (h.live next (by simp))
    have hprev : u.waitLinks.previous = l₁.getLast? := by
      have := h.linked.prev_mid
      rwa [prevOf, hu] at this
    have hlive : ∀ j, u.waitLinks.previous = some j → s.threads.get? j ≠ none := by
      intro j hj
      exact h.live j (mem_append_left _ (mem_of_getLast? (hprev.symm.trans hj)))
    rw [head?_cons]
    dsimp only
    rw [linkBefore_eq ht hu hlive, hprev, h.head_eq]
    dsimp only
    rw [h.tail_eq]
    cases l₁ with
    | nil => simp [getLast?_cons]
    | cons a l => simp [getLast?_cons]

/-- A thread may be queued when it waits on nothing and is in no queue. -/
def Free (s : WaitState n) (id : ThreadId) (t : Thread) : Prop :=
  t.wait = .nothing ∧ t.waitLinks.isUnlinked ∧ s.queue.head ≠ some id

variable {place : WaitQueue → Threads n → Nat → Option ThreadId}

theorem Stands.enqueueAt
    (h : Stands s l) (wanted : Nat → Bool) (ht : s.threads.get? id = some t) (hfree : Free s id t)
    (hplace : place s.queue s.threads t.priority = s.queue.findByPriority s.threads wanted) :
    ∃ s', enqueueAt place id s = (.ok (), s') ∧ id ∉ l ∧
      Stands s' (placedAt wanted s.threads id l) ∧ Inserted s.threads s'.threads id
        (ahead wanted s.threads l).getLast? (behind wanted s.threads l).head? := by
  have hid := h.not_mem ht hfree.2.1 hfree.2.2
  have hsplit := ahead_append_behind wanted s.threads l
  have hprev : (ahead wanted s.threads l).getLast? ≠ some id :=
    fun heq => hid (hsplit ▸ mem_append_left _ (mem_of_getLast? heq))
  have hnext : (behind wanted s.threads l).head? ≠ some id :=
    fun heq => hid (hsplit ▸ mem_append_right _ (mem_of_head? heq))
  have hinserted := inserted_inserted s.threads hprev hnext
  refine ⟨_, ?_, hid, h.insert ht hid hinserted, hinserted⟩
  unfold WaitQueue.enqueueAt
  rw [run_bind_ok (getThread_eq ht), run_bind_ok (run_get s),
    run_bind_ok (show require _ Error.invalidState s = (.ok (), s) from by
      unfold Free at hfree
      rw [require, if_pos hfree]), hplace, h.findByPriority_eq, ← behind]
  have hlink := h.link_eq wanted ht hid
  generalize (behind wanted s.threads l).head? = found at hlink ⊢
  cases found with
  | none => exact (run_bind_ok hlink).trans rfl
  | some next => exact (run_bind_ok hlink).trans rfl

variable (place)

theorem enqueueAt_refused (id : ThreadId)
    (hfree : ∀ t, s.threads.get? id = some t → ¬ Free s id t) :
    ∃ e, enqueueAt place id s = (.error e, s) := by
  unfold enqueueAt
  cases ht : s.threads.get? id with
  | none =>
    refine ⟨.invalidHandle, run_bind_error ?_⟩
    unfold getThread
    rw [ht]
    rfl
  | some t =>
    rw [run_bind_ok (getThread_eq ht), run_bind_ok (run_get s)]
    refine ⟨.invalidState, run_bind_error ?_⟩
    have hrefused := hfree t ht
    unfold Free at hrefused
    rw [require, if_neg hrefused]

theorem Stands.enqueueAt_cases (h : Stands s l) (wanted : Nat → Nat → Bool)
    (hplace : ∀ p, place s.queue s.threads p = s.queue.findByPriority s.threads (wanted p))
    (id : ThreadId) :
    (∃ e, WaitQueue.enqueueAt place id s = (.error e, s)) ∨
    ∃ s', id ∉ l ∧ WaitQueue.enqueueAt place id s = (.ok (), s') ∧
      Stands s' (placedAt (wanted (priorityOf s.threads id)) s.threads id l) ∧
      (∀ j, priorityOf s'.threads j = priorityOf s.threads j) ∧
      ∀ j, j ≠ id → j ∉ l → s'.threads.get? j = s.threads.get? j := by
  by_cases hfree : ∃ t, s.threads.get? id = some t ∧ Free s id t
  · obtain ⟨t, ht, hfree⟩ := hfree
    have hprio : priorityOf s.threads id = t.priority := by rw [priorityOf, ht]; rfl
    obtain ⟨s', heq, hid, hstands, hinserted⟩ :=
      h.enqueueAt (wanted t.priority) ht hfree (hplace t.priority)
    refine .inr ⟨s', hid, heq, hprio ▸ hstands, hinserted.priorityOf, fun j hj hjl => ?_⟩
    have hsplit := ahead_append_behind (wanted t.priority) s.threads l
    refine hinserted.get? hj (fun heq => hjl ?_) fun heq => hjl ?_
    · exact hsplit ▸ mem_append_left _ (mem_of_getLast? heq)
    · exact hsplit ▸ mem_append_right _ (mem_of_head? heq)
  · exact .inl (enqueueAt_refused place id fun t ht hf => hfree ⟨t, ht, hf⟩)

/-! ## Unlinking -/

def removed (threads : Threads n) (id : ThreadId) (links : Links) : Threads n :=
  (modifyAt (modifyAt threads links.previous fun before =>
      before.setWaitLinks { before.waitLinks with next := links.next })
    links.next fun after =>
      after.setWaitLinks { after.waitLinks with previous := links.previous }).modify id
    (·.setWaitLinks .unlinked)

theorem removed_get? (threads : Threads n) (links : Links) (hprev : links.previous ≠ some id)
    (hnext : links.next ≠ some id) (j : ThreadId) :
    (removed threads id links).get? j =
      if j = id then (threads.get? id).map (·.setWaitLinks .unlinked)
      else (threads.get? j).map fun u => u.setWaitLinks
        ⟨if links.previous = some j then links.next else u.waitLinks.next,
          if links.next = some j then links.previous else u.waitLinks.previous⟩ := by
  unfold removed
  rw [get?_modify, get?_modifyAt, get?_modifyAt, get?_modifyAt, get?_modifyAt,
    if_neg hprev, if_neg hnext]
  by_cases hj : j = id
  · rw [if_pos hj, if_pos hj]
  cases threads.get? j with
  | none => simp
  | some u =>
    by_cases hp : links.previous = some j <;> by_cases hn : links.next = some j <;>
      simp [hp, hn, setWaitLinks]

/-- Taking a member out leaves the rest of the list. Of the threads only links change: the member
has none, and those that were next to it are next to each other. -/
theorem Stands.unlink_mem (h : Stands s l) (hid : id ∈ l) :
    ∃ s' t, s.threads.get? id = some t ∧ unlink id s = (.ok true, s') ∧ Stands s' (l.erase id) ∧
      s'.threads.get? id = some (t.setWaitLinks .unlinked) ∧
      (∀ j, priorityOf s'.threads j = priorityOf s.threads j) ∧
      ∀ j, j ∉ l → s'.threads.get? j = s.threads.get? j := by
  obtain ⟨t, ht⟩ := ne_none_iff_exists'.mp (h.live id hid)
  have hnextOf : nextOf s.threads id = t.waitLinks.next := by simp [nextOf, ht]
  have hprevOf : prevOf s.threads id = t.waitLinks.previous := by simp [prevOf, ht]
  have hself : t.waitLinks.previous ≠ some id ∧ t.waitLinks.next ≠ some id := by
    obtain ⟨l₁, l₂, rfl⟩ := append_of_mem hid
    obtain ⟨-, hnodup, hdisjoint⟩ := nodup_append.mp h.linked.nodup
    constructor
    · intro heq
      rw [← hprevOf, h.linked.prev_mid] at heq
      exact hdisjoint id (mem_of_getLast? heq) id mem_cons_self rfl
    · intro heq
      rw [← hnextOf, h.linked.next_mid] at heq
      exact (nodup_cons.mp hnodup).1 (mem_of_head? heq)
  have hmember : ¬ (t.waitLinks.isUnlinked = true ∧ s.queue.head ≠ some id) :=
    fun hboth => h.not_mem ht hboth.1 hboth.2 hid
  have hget := removed_get? s.threads t.waitLinks hself.1 hself.2
  have hlive : ∀ j, (removed s.threads id t.waitLinks).get? j ≠ none ↔
      s.threads.get? j ≠ none := by
    intro j
    rw [hget]
    by_cases hj : j = id
    · rw [if_pos hj, hj]
      cases s.threads.get? id <;> simp
    · rw [if_neg hj]
      cases s.threads.get? j <;> simp
  have hprio : ∀ j, priorityOf (removed s.threads id t.waitLinks) j = priorityOf s.threads j := by
    intro j
    unfold priorityOf
    rw [hget]
    by_cases hj : j = id
    · rw [if_pos hj, hj]
      cases s.threads.get? id <;> rfl
    · rw [if_neg hj]
      cases s.threads.get? j <;> rfl
  have hother : ∀ j, j ∉ l →
      (removed s.threads id t.waitLinks).get? j = s.threads.get? j := by
    intro j hj
    have hne : j ≠ id := fun heq => hj (heq ▸ hid)
    have hp : t.waitLinks.previous ≠ some j :=
      fun heq => hj (h.linked.prev_mem hid (hprevOf.trans heq))
    have hn : t.waitLinks.next ≠ some j := fun heq => hj (h.linked.next_mem hid (hnextOf.trans heq))
    rw [hget, if_neg hne]
    cases s.threads.get? j <;> simp [hp, hn, setWaitLinks]
  refine ⟨⟨⟨if s.queue.head = some id then t.waitLinks.next else s.queue.head,
    if s.queue.tail = some id then t.waitLinks.previous else s.queue.tail, s.queue.len - 1⟩,
    removed s.threads id t.waitLinks⟩, t, ht, ?_, ?_, ?_, hprio, hother⟩
  · unfold unlink
    rw [ht]
    dsimp only
    rw [if_neg hmember]
    rfl
  · have hsub : l.erase id ⊆ l := erase_subset
    refine ⟨?_, ?_, ?_, ?_, fun j hj => (hlive j).mpr (h.live j (hsub hj))⟩
    · refine h.linked.remove hid (fun j hj hne => ?_) fun j hj hne => ?_
      · obtain ⟨u, hu⟩ := ne_none_iff_exists'.mp (h.live j hj)
        rw [hprevOf, hnextOf]
        simp [nextOf, hget, hne, hu]
      · obtain ⟨u, hu⟩ := ne_none_iff_exists'.mp (h.live j hj)
        rw [hprevOf, hnextOf]
        simp [prevOf, hget, hne, hu]
    · rw [h.linked.head_erase hid, hprevOf, hnextOf]
      change (if s.queue.head = some id then t.waitLinks.next else s.queue.head) = _
      rw [h.head_eq]
      by_cases hp : t.waitLinks.previous = none
      · rw [if_pos hp, if_pos (h.linked.head_of_prev_none hid (hprevOf.trans hp))]
      · rw [if_neg hp, if_neg fun heq => hp (hprevOf.symm.trans (h.linked.prev_head heq))]
    · rw [h.linked.last_erase hid, hprevOf, hnextOf]
      change (if s.queue.tail = some id then t.waitLinks.previous else s.queue.tail) = _
      rw [h.tail_eq]
      by_cases hn : t.waitLinks.next = none
      · have hlast : l.getLast? = some id := by
          obtain ⟨l₁, l₂, rfl⟩ := append_of_mem hid
          rw [← hnextOf, h.linked.next_mid, head?_eq_none_iff] at hn
          rw [hn]
          exact getLast?_concat
        rw [if_pos hn, if_pos hlast]
      · rw [if_neg hn, if_neg fun heq => hn (hnextOf.symm.trans (h.linked.next_last heq))]
    · rw [length_erase_of_mem hid, ← h.len_eq]
  · have hgone := hget id
    rw [if_pos rfl, ht] at hgone
    exact hgone

/-- The id names no thread, or one without links. -/
def Unlinked (threads : Threads n) (id : ThreadId) : Prop :=
  ∀ t, threads.get? id = some t → t.waitLinks.isUnlinked = true

section

variable (h : Stands s l)
include h

theorem Stands.unlink_not_mem (hid : id ∉ l) (hlinks : Unlinked s.threads id) :
    unlink id s = (.ok false, s) := by
  unfold unlink
  cases ht : s.threads.get? id with
  | none => rfl
  | some t =>
    have hhead : s.queue.head ≠ some id := fun heq => hid (mem_of_head? (h.head_eq.symm.trans heq))
    dsimp only
    rw [if_pos ⟨hlinks t ht, hhead⟩]

theorem Stands.dequeueFront :
    ∃ s', dequeueFront s = (.ok l.head?, s') ∧ Stands s' l.tail ∧
      (∀ id, l.head? = some id → ∃ t, s'.threads.get? id = some t ∧ t.waitLinks = .unlinked) ∧
      (∀ j, priorityOf s'.threads j = priorityOf s.threads j) ∧
      ∀ j, j ∉ l → s'.threads.get? j = s.threads.get? j := by
  unfold WaitQueue.dequeueFront
  rw [run_bind_ok (show Prog.gets (·.queue) s = (.ok s.queue, s) from rfl), h.head_eq]
  cases l with
  | nil => exact ⟨s, rfl, h, by simp, fun _ => rfl, fun _ _ => rfl⟩
  | cons id l =>
    obtain ⟨s', t, -, heq, hstands, hgone, hprio, hother⟩ := h.unlink_mem mem_cons_self
    rw [erase_cons_head] at hstands
    refine ⟨s', (run_bind_ok heq).trans rfl, hstands, fun j hj => ?_, hprio, hother⟩
    obtain rfl := some.inj hj
    exact ⟨_, hgone, rfl⟩

/-- The links of a thread of another queue go, and with them those of its neighbours. -/
theorem Stands.unlink_untouched_iff (id : ThreadId) :
    (∀ j, j ∉ l → (unlink id s).2.threads.get? j = s.threads.get? j) ↔
      id ∈ l ∨ Unlinked s.threads id := by
  constructor
  · intro hall
    by_contra hnot
    obtain ⟨hid, hlinked⟩ := not_or.mp hnot
    unfold Unlinked at hlinked
    push Not at hlinked
    obtain ⟨t, ht, hlinks⟩ := hlinked
    have hsame := hall id hid
    unfold unlink at hsame
    rw [ht] at hsame
    dsimp only at hsame
    rw [if_neg fun hboth => hlinks hboth.1, get?_modify, if_pos rfl] at hsame
    obtain ⟨u, -, rfl⟩ := map_eq_some_iff.mp hsame
    exact hlinks rfl
  · rintro (hid | hlinks)
    · obtain ⟨s', t, -, heq, -, -, -, hother⟩ := h.unlink_mem hid
      rw [heq]
      exact hother
    · by_cases hid : id ∈ l
      · obtain ⟨s', t, -, heq, -, -, -, hother⟩ := h.unlink_mem hid
        rw [heq]
        exact hother
      · rw [h.unlink_not_mem hid hlinks]
        exact fun _ _ => rfl

end

/-! ## Runs -/

inductive Call where
  | enqueue (id : ThreadId)
  | requeue (id : ThreadId)
  | unlink (id : ThreadId)
  | dequeueFront

namespace Call

variable (s)

def run : Call → WaitState n
  | .enqueue id => (WaitQueue.enqueue id s).2
  | .requeue id => (WaitQueue.requeue id s).2
  | .unlink id => (WaitQueue.unlink id s).2
  | .dequeueFront => (WaitQueue.dequeueFront s).2

/-- What the call does to the list of waiting threads: `enqueue` puts a thread behind those of its
own priority and `requeue` in front of them. -/
def list (l : List ThreadId) : Call → List ThreadId
  | .enqueue id =>
    match (WaitQueue.enqueue id s).1 with
    | .ok () => placedAt (· < priorityOf s.threads id) s.threads id l
    | .error _ => l
  | .requeue id =>
    match (WaitQueue.requeue id s).1 with
    | .ok () => placedAt (· ≤ priorityOf s.threads id) s.threads id l
    | .error _ => l
  | .unlink id => l.erase id
  | .dequeueFront => l.tail

/-- `unlink` is for threads of the queue and for threads that are in no queue. -/
def Own (l : List ThreadId) : Call → Prop
  | .unlink id => id ∈ l ∨ Unlinked s.threads id
  | _ => True

end Call

/-- Other parts of the kernel write to the pool, and leave the links of waiting threads alone. -/
def KeepsLinks (l : List ThreadId) (threads threads' : Threads n) : Prop :=
  ∀ id ∈ l, (threads'.get? id).map (·.waitLinks) = (threads.get? id).map (·.waitLinks)

/-- They leave the priorities of waiting threads alone too. -/
def KeepsWaiting (l : List ThreadId) (threads threads' : Threads n) : Prop :=
  KeepsLinks l threads threads' ∧ ∀ id ∈ l, priorityOf threads' id = priorityOf threads id

/-- The states that calls lead to from an empty queue over any pool, with the list of waiting
threads; `between` says what happens to the pool between two calls. -/
inductive Reached (between : List ThreadId → Threads n → Threads n → Prop) :
    WaitState n → List ThreadId → Prop where
  | start (threads : Threads n) : Reached between ⟨.empty, threads⟩ []
  | call (s : WaitState n) (l : List ThreadId) (call : Call) (h : Reached between s l)
    (hown : call.Own s l) : Reached between (call.run s) (call.list s l)
  | elsewhere (s : WaitState n) (l : List ThreadId) (threads' : Threads n)
    (h : Reached between s l) (hbetween : between l s.threads threads') :
    Reached between { s with threads := threads' } l

/-- A call keeps the list, and no priority changes. -/
theorem Stands.run (h : Stands s l) (call : Call) (hown : call.Own s l) :
    Stands (call.run s) (call.list s l) ∧
      ∀ j, priorityOf (call.run s).threads j = priorityOf s.threads j := by
  unfold Call.run Call.list
  cases call with
  | enqueue id =>
    rcases h.enqueueAt_cases firstBelow (fun p q => q < p) (fun _ => rfl) id with
      ⟨e, heq⟩ | ⟨s', -, heq, hstands, hprio, -⟩
    · simp only [enqueue, heq]
      exact ⟨h, fun _ => trivial⟩
    · simp only [enqueue, heq]
      exact ⟨hstands, hprio⟩
  | requeue id =>
    rcases h.enqueueAt_cases firstAtOrBelow (fun p q => q ≤ p) (fun _ => rfl) id with
      ⟨e, heq⟩ | ⟨s', -, heq, hstands, hprio, -⟩
    · simp only [requeue, heq]
      exact ⟨h, fun _ => trivial⟩
    · simp only [requeue, heq]
      exact ⟨hstands, hprio⟩
  | unlink id =>
    by_cases hid : id ∈ l
    · obtain ⟨s', t, -, heq, hstands, -, hprio, -⟩ := h.unlink_mem hid
      simp only [heq]
      exact ⟨hstands, hprio⟩
    · simp only [h.unlink_not_mem hid (hown.resolve_left hid), erase_of_not_mem hid]
      exact ⟨h, fun _ => trivial⟩
  | dequeueFront =>
    obtain ⟨s', heq, hstands, -, hprio, -⟩ := h.dequeueFront
    simp only [heq]
    exact ⟨hstands, hprio⟩

theorem Sorted.list (h : Sorted s.threads l) (call : Call) : Sorted s.threads (call.list s l) := by
  unfold Call.list
  cases call with
  | enqueue id =>
    dsimp only
    split
    · refine h.placedAt (fun p q hp hq => ?_) (fun p hp => ?_) fun p hp => ?_
      all_goals simp at hp ⊢
      all_goals omega
    · exact h
  | requeue id =>
    dsimp only
    split
    · refine h.placedAt (fun p q hp hq => ?_) (fun p hp => ?_) fun p hp => ?_
      all_goals simp at hp ⊢
      all_goals omega
    · exact h
  | unlink id => exact h.sublist erase_sublist
  | dequeueFront => exact h.sublist (tail_sublist l)

theorem Stands.keepsLinks (h : Stands s l) (hkeeps : KeepsLinks l s.threads threads') :
    Stands { s with threads := threads' } l := by
  have hlinks : ∀ id ∈ l, nextOf threads' id = nextOf s.threads id ∧
      prevOf threads' id = prevOf s.threads id ∧ threads'.get? id ≠ none := by
    intro id hid
    have hsame := hkeeps id hid
    obtain ⟨t, ht⟩ := ne_none_iff_exists'.mp (h.live id hid)
    rw [ht, map_some] at hsame
    obtain ⟨t', ht', hlinks⟩ := map_eq_some_iff.mp hsame
    simp [nextOf, prevOf, ht, ht', hlinks]
  exact ⟨h.linked.congr (fun id hid => (hlinks id hid).1) fun id hid => (hlinks id hid).2.1,
    h.head_eq, h.tail_eq, h.len_eq, fun id hid => (hlinks id hid).2.2⟩

variable {between : List ThreadId → Threads n → Threads n → Prop}

theorem stands_of_reached (hbetween : ∀ l a b, between l a b → KeepsLinks l a b)
    (h : Reached between s l) : Stands s l := by
  induction h with
  | start threads =>
    exact ⟨linked_nil, rfl, rfl, rfl, fun _ hid => absurd hid not_mem_nil⟩
  | call s l call _ hown ih => exact (ih.run call hown).1
  | elsewhere s l threads' _ hother ih => exact ih.keepsLinks (hbetween _ _ _ hother)

theorem Sorted.congr (h : Sorted threads l)
    (hprio : ∀ id ∈ l, priorityOf threads' id = priorityOf threads id) : Sorted threads' l := by
  refine h.imp_of_mem fun {a b} ha hb hab => ?_
  rw [hprio a ha, hprio b hb]
  exact hab

theorem sorted_of_reached (h : Reached KeepsWaiting s l) : Sorted s.threads l := by
  induction h with
  | start threads => exact Pairwise.nil
  | call s l call hreached hown ih =>
    have hstands := stands_of_reached (fun _ _ _ => And.left) hreached
    exact (ih.list call).congr fun id _ => (hstands.run call hown).2 id
  | elsewhere s l threads' _ hother ih => exact ih.congr hother.2

end WaitQueue

end Audhsos
