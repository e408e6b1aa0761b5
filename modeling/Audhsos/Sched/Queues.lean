import Audhsos.Sched.Scheduler

/-!
The queues of one scheduler as lists. `Queues s m` says that the queue of every priority `p` is the
doubly linked list `m p`; `link` puts a thread into one of them, `dequeue` takes it out, and neither
touches the links of a thread outside it.
-/

namespace Audhsos

open Lib Function List Option Links

@[simp] theorem Threads.get?_modify {n : Nat} (threads : Threads n) (id : ThreadId)
    (f : Thread → Thread) (j : ThreadId) :
    Threads.get? (threads.modify id f) j =
      if j = id then (threads.get? id).map f else threads.get? j := by
  unfold Threads.get?
  rw [Pool.find_modify]
  by_cases hj : j = id <;> simp [hj, comp_def]

namespace Scheduler

variable {n : Nat} {s s' : SchedState n} {m : Nat → List ThreadId} {id j : ThreadId}
  {p : Nat} {t : Thread} {placement : Placement}

variable (threads : Threads n)

def nextOf (id : ThreadId) : Option ThreadId :=
  (threads.get? id).bind (·.queueLinks.next)

def prevOf (id : ThreadId) : Option ThreadId :=
  (threads.get? id).bind (·.queueLinks.previous)

/-- The queue of every priority `p` is the list `m p`, and the bitmap shows which are empty. -/
structure Queues (s : SchedState n) (m : Nat → List ThreadId) : Prop where
  linked : ∀ p < priorityCount, Linked (nextOf s.threads) (prevOf s.threads) (m p)
  head_eq : ∀ p < priorityCount, (s.scheduler.queues p).head = (m p).head?
  tail_eq : ∀ p < priorityCount, (s.scheduler.queues p).tail = (m p).getLast?
  ready_iff : ∀ p < priorityCount, s.scheduler.ready.getLsbD p = true ↔ m p ≠ []
  live : ∀ p < priorityCount, ∀ id ∈ m p, s.threads.get? id ≠ none
  disjoint : ∀ p < priorityCount, ∀ q < priorityCount, ∀ id ∈ m p, id ∈ m q → p = q

variable (self : Scheduler)

theorem queue_of_lt (hp : p < priorityCount) : self.queue p = self.queues p :=
  if_pos hp

theorem getThread_of_get? (h : s.threads.get? id = some t) : getThread id s = (.ok t, s) := by
  simp [getThread, h]

/-! ## Linking -/

section

variable (placement : Placement) (queue : RunQueue)

def endLinks : Links :=
  match placement with
  | .tail => { next := none, previous := queue.tail }
  | .head => { next := queue.head, previous := none }

def endOf : Option ThreadId :=
  match placement with
  | .tail => queue.tail
  | .head => queue.head

def pointTo (id : ThreadId) (entry : Thread) : Thread :=
  entry.setQueueLinks (match placement with
    | .tail => { entry.queueLinks with next := some id }
    | .head => { entry.queueLinks with previous := some id })

def endsWith (id : ThreadId) (queue : RunQueue) : RunQueue :=
  match placement with
  | .tail => { head := if queue.tail = none then some id else queue.head, tail := some id }
  | .head => { head := some id, tail := if queue.head = none then some id else queue.tail }

def placed (id : ThreadId) (l : List ThreadId) : List ThreadId :=
  match placement with
  | .tail => l ++ [id]
  | .head => id :: l

end

def linkedState (s : SchedState n) (id : ThreadId) (placement : Placement) (p : Nat) :
    SchedState n :=
  let queue := s.scheduler.queues p
  let threads := s.threads.modify id (·.setQueueLinks (endLinks placement queue))
  { scheduler := ({ s.scheduler with
      queues := update s.scheduler.queues p (endsWith placement id queue) }).markReady p true
    threads := (endOf placement queue).elim threads fun neighbour =>
      threads.modify neighbour (pointTo placement id) }

theorem link_eq (hidle : s.scheduler.idle ≠ some id) (ht : s.threads.get? id = some t)
    (hp : t.priority < priorityCount) (hlinks : t.queueLinks = .unlinked)
    (hhead : (s.scheduler.queues t.priority).head ≠ some id) (placement : Placement)
    (hend : ∀ neighbour, endOf placement (s.scheduler.queues t.priority) = some neighbour →
      s.threads.get? neighbour ≠ none) :
    link id placement s = (.ok (), linkedState s id placement t.priority) := by
  have hunlinked : t.queueLinks.isUnlinked = true := by simp [hlinks, unlinked, isUnlinked]
  unfold link linkedState
  simp only [bind, Prog.gets, Prog.require, hidle, ne_eq, not_false_eq_true, if_true,
    getThread_of_get? ht, hp, hunlinked, queue_of_lt _ hp, hhead]
  cases hq : endOf placement (s.scheduler.queues t.priority) with
  | none =>
    cases placement <;> simp only [endOf] at hq <;>
      simp [modifyThread, modifySelf, Prog.modify, modifyQueue, endLinks, endsWith, hp, hq]
  | some neighbour =>
    obtain ⟨entry, hentry⟩ := ne_none_iff_exists'.mp (hend neighbour hq)
    cases placement <;> simp only [endOf] at hq <;>
      simp [getThread_of_get? hentry, modifyThread, modifySelf, Prog.modify, modifyQueue, endLinks,
        endsWith, hp, hq] <;> rfl

theorem markReady_getLsbD (hp : p < priorityCount) (ready : Bool) (q : Nat)
    (hq : q < priorityCount) :
    (self.markReady p ready).ready.getLsbD q = if q = p then ready else self.ready.getLsbD q := by
  unfold priorityCount at hp hq
  have hbit : (1#32 <<< p).getLsbD q = decide (q = p) := by
    by_cases hqp : q = p
    · simp [hqp, hp]
    · by_cases hlt : q < p
      · simp [hqp, hlt]
      · have : q - p ≠ 0 := by omega
        simp [hqp, this]
  unfold markReady priorityCount
  rw [if_neg (by omega)]
  cases ready with
  | true =>
    simp only [if_true, BitVec.getLsbD_or, hbit]
    by_cases hqp : q = p <;> simp [hqp]
  | false =>
    simp only [Bool.false_eq_true, if_false, BitVec.getLsbD_and, BitVec.getLsbD_not, hbit, hq]
    by_cases hqp : q = p <;> simp [hqp]

@[simp] theorem markReady_rest (p : Nat) (ready : Bool) :
    (self.markReady p ready).queues = self.queues ∧
    (self.markReady p ready).current = self.current ∧
    (self.markReady p ready).idle = self.idle ∧
    (self.markReady p ready).ended = self.ended ∧
    (self.markReady p ready).deadlines = self.deadlines := by
  unfold markReady
  split <;> exact ⟨rfl, rfl, rfl, rfl, rfl⟩

theorem get?_elim_modify (at? : Option ThreadId) (f : Thread → Thread) (j : ThreadId) :
    (at?.elim threads fun i => threads.modify i f).get? j =
      if at? = some j then (threads.get? j).map f else threads.get? j := by
  cases at? with
  | none => rfl
  | some i => by_cases hj : j = i <;> simp [hj, eq_comm]

/-- The threads after `link`: only the links of `id` and of its new neighbour change. -/
theorem linkedState_get? (placement : Placement) (j : ThreadId)
    (hend : endOf placement (s.scheduler.queues p) ≠ some id) :
    (linkedState s id placement p).threads.get? j =
      if j = id then
        (s.threads.get? id).map (·.setQueueLinks (endLinks placement (s.scheduler.queues p)))
      else if endOf placement (s.scheduler.queues p) = some j then
        (s.threads.get? j).map (pointTo placement id)
      else s.threads.get? j := by
  unfold linkedState
  dsimp only
  rw [get?_elim_modify, Threads.get?_modify]
  by_cases hj : j = id
  · subst hj
    rw [if_neg hend, if_pos rfl, if_pos rfl]
  · rw [if_neg hj, if_neg hj]

theorem Queues.endOf_eq (h : Queues s m) (hp : p < priorityCount) (placement : Placement) :
    endOf placement (s.scheduler.queues p) =
      match placement with
      | .tail => (m p).getLast?
      | .head => (m p).head? := by
  cases placement
  · exact h.tail_eq p hp
  · exact h.head_eq p hp

theorem Queues.endOf_mem (h : Queues s m) (hp : p < priorityCount)
    (hj : endOf placement (s.scheduler.queues p) = some j) : j ∈ m p := by
  rw [h.endOf_eq hp] at hj
  cases placement
  · exact mem_of_getLast? hj
  · exact mem_of_head? hj

theorem mem_placed {l : List ThreadId} : j ∈ placed placement id l ↔ j = id ∨ j ∈ l := by
  cases placement
  · simp [placed, or_comm]
  · simp [placed]

section

variable (h : Queues s m) (hp : p < priorityCount)
include h hp

theorem Queues.linked_placed
    (hfresh : id ∉ m p) (ht : s.threads.get? id = some t) (placement : Placement) :
    Linked (nextOf (linkedState s id placement p).threads)
      (prevOf (linkedState s id placement p).threads) (placed placement id (m p)) := by
  have hend : endOf placement (s.scheduler.queues p) ≠ some id :=
    fun heq => hfresh (h.endOf_mem hp heq)
  have hget := fun j => linkedState_get? placement j hend
  have hl := h.linked p hp
  have hlive := h.live p hp
  have hne : ∀ a ∈ m p, a ≠ id := fun a ha heq => hfresh (heq ▸ ha)
  cases placement with
  | tail =>
    have htail : endOf .tail (s.scheduler.queues p) = (m p).getLast? := h.endOf_eq hp .tail
    have hlinked : Linked (nextOf s.threads) (prevOf s.threads) (m p ++ []) := by simpa using hl
    refine hlinked.insert (by simpa using hfresh) ?_ ?_ (fun a ha => ?_) fun a ha => ?_
    · simp [nextOf, hget, ht, endLinks]
    · simp [prevOf, hget, ht, endLinks, h.tail_eq p hp]
    · rw [append_nil] at ha
      obtain ⟨u, hu⟩ := ne_none_iff_exists'.mp (hlive a ha)
      simp only [nextOf, hget, hne a ha, if_false, htail, hu]
      split <;> simp [pointTo]
    · rw [append_nil] at ha
      obtain ⟨u, hu⟩ := ne_none_iff_exists'.mp (hlive a ha)
      simp only [prevOf, hget, hne a ha, if_false, htail, hu]
      split <;> simp [pointTo]
  | head =>
    have hhead : endOf .head (s.scheduler.queues p) = (m p).head? := h.endOf_eq hp .head
    have hlinked : Linked (nextOf s.threads) (prevOf s.threads) ([] ++ m p) := hl
    refine hlinked.insert (by simpa using hfresh) ?_ ?_ (fun a ha => ?_) fun a ha => ?_
    · simp [nextOf, hget, ht, endLinks, h.head_eq p hp]
    · simp [prevOf, hget, ht, endLinks]
    · rw [nil_append] at ha
      obtain ⟨u, hu⟩ := ne_none_iff_exists'.mp (hlive a ha)
      simp only [nextOf, hget, hne a ha, if_false, hhead, hu]
      split <;> simp [pointTo]
    · rw [nil_append] at ha
      obtain ⟨u, hu⟩ := ne_none_iff_exists'.mp (hlive a ha)
      simp only [prevOf, hget, hne a ha, if_false, hhead, hu]
      split <;> simp [pointTo]

theorem Queues.linkedState_other (placement : Placement)
    (hj : j ≠ id) (hjm : j ∉ m p) (hfresh : id ∉ m p) :
    (linkedState s id placement p).threads.get? j = s.threads.get? j := by
  rw [linkedState_get? placement j fun heq => hfresh (h.endOf_mem hp heq), if_neg hj, if_neg]
  exact fun heq => hjm (h.endOf_mem hp heq)

theorem Queues.set_list (id : ThreadId) {s' : SchedState n}
    {l : List ThreadId} (hlinked : Linked (nextOf s'.threads) (prevOf s'.threads) l)
    (hqueues : ∀ q, s'.scheduler.queues q =
      if q = p then ⟨l.head?, l.getLast?⟩ else s.scheduler.queues q)
    (hready : ∀ q < priorityCount, s'.scheduler.ready.getLsbD q =
      if q = p then l.head?.isSome else s.scheduler.ready.getLsbD q)
    (hfresh : ∀ q < priorityCount, q ≠ p → id ∉ m q) (hsub : ∀ j ∈ l, j = id ∨ j ∈ m p)
    (hother : ∀ j ≠ id, j ∉ m p → s'.threads.get? j = s.threads.get? j)
    (hlive : ∀ j, j = id ∨ s.threads.get? j ≠ none → s'.threads.get? j ≠ none) :
    Queues s' (update m p l) := by
  have hkept : ∀ q < priorityCount, q ≠ p → ∀ j ∈ m q, s'.threads.get? j = s.threads.get? j :=
    fun q hq hqp j hj => hother j (fun heq => hfresh q hq hqp (heq ▸ hj)) fun hjp =>
      hqp (h.disjoint q hq p hp j hj hjp)
  have hcases : ∀ q, ∀ j ∈ update m p l q, (j = id ∧ q = p) ∨ j ∈ m q := by
    intro q j hj
    by_cases hqp : q = p
    · subst hqp
      rw [update_self] at hj
      exact (hsub j hj).imp_left fun h => ⟨h, rfl⟩
    · rw [update_of_ne hqp] at hj
      exact .inr hj
  constructor
  · intro q hq
    by_cases hqp : q = p
    · subst hqp
      rwa [update_self]
    · rw [update_of_ne hqp]
      refine (h.linked q hq).congr (fun j hj => ?_) fun j hj => ?_
      · simp only [nextOf, hkept q hq hqp j hj]
      · simp only [prevOf, hkept q hq hqp j hj]
  · intro q hq
    rw [hqueues]
    by_cases hqp : q = p
    · simp [hqp]
    · simpa [hqp] using h.head_eq q hq
  · intro q hq
    rw [hqueues]
    by_cases hqp : q = p
    · simp [hqp]
    · simpa [hqp] using h.tail_eq q hq
  · intro q hq
    rw [hready q hq]
    by_cases hqp : q = p
    · subst hqp
      cases l <;> simp
    · simpa [hqp] using h.ready_iff q hq
  · exact fun q hq j hj => hlive j ((hcases q j hj).imp And.left (h.live q hq j))
  · intro q hq r hr j hjq hjr
    by_contra hne
    rcases hcases q j hjq with ⟨rfl, rfl⟩ | hjq' <;> rcases hcases r j hjr with ⟨hji, rfl⟩ | hjr'
    · exact hne rfl
    · exact hfresh r hr (Ne.symm hne) hjr'
    · exact hfresh q hq hne (hji ▸ hjq')
    · exact hne (h.disjoint q hq r hr j hjq' hjr')

theorem Queues.link (hfresh : ∀ q < priorityCount, id ∉ m q) (ht : s.threads.get? id = some t)
    (placement : Placement) :
    Queues (linkedState s id placement p)
      (update m p (placed placement id (m p))) := by
  have hhead := h.head_eq p hp
  have htail := h.tail_eq p hp
  have hends : endsWith placement id (s.scheduler.queues p) =
      ⟨(placed placement id (m p)).head?, (placed placement id (m p)).getLast?⟩ := by
    cases placement <;> cases hm : m p <;> simp_all [endsWith, placed, getLast?_cons]
  refine h.set_list hp id (h.linked_placed hp (hfresh p hp) ht placement) (fun q => ?_)
    (fun q hq => ?_) (fun q hq _ => hfresh q hq) (fun j hj => mem_placed.mp hj)
    (fun j hj hjm => h.linkedState_other hp placement hj hjm (hfresh p hp)) fun j hj => ?_
  · simp only [linkedState, (markReady_rest _ _ _).1, update_apply, hends]
  · simp only [linkedState]
    rw [markReady_getLsbD _ hp true q hq]
    cases placement <;> simp [placed]
  · rw [linkedState_get? placement j fun heq => hfresh p hp (h.endOf_mem hp heq)]
    by_cases hji : j = id
    · simp [hji, ht]
    · rw [if_neg hji]
      split
      · simpa using hj.resolve_left hji
      · exact hj.resolve_left hji

end

/-! ## Unlinking -/

/-- What `dequeue` leaves behind when it takes `id` out of the queue `p`. -/
def dequeuedState (s : SchedState n) (id : ThreadId) (links : Links) (p : Nat) : SchedState n :=
  let threads := links.previous.elim s.threads fun previous =>
    s.threads.modify previous fun before =>
      before.setQueueLinks { before.queueLinks with next := links.next }
  let threads := links.next.elim threads fun next =>
    threads.modify next fun after =>
      after.setQueueLinks { after.queueLinks with previous := links.previous }
  let scheduler := s.scheduler.modifyQueue p fun queue =>
    { head := if queue.head = some id then links.next else queue.head
      tail := if queue.tail = some id then links.previous else queue.tail }
  { scheduler := scheduler.markReady p (scheduler.queue p).head.isSome
    threads := threads.modify id (·.setQueueLinks .unlinked) }

theorem dequeue_unlinked (ht : s.threads.get? id = some t) (hlinks : t.queueLinks = .unlinked)
    (hhead : (s.scheduler.queue t.priority).head ≠ some id) : dequeue id s = (.ok (), s) := by
  have hunlinked : t.queueLinks.isUnlinked = true := by simp [hlinks, unlinked, isUnlinked]
  simp [dequeue, bind, getThread_of_get? ht, Prog.gets, hunlinked, hhead, pure]

theorem dequeue_eq (ht : s.threads.get? id = some t)
    (hin : ¬ (t.queueLinks.isUnlinked = true ∧ (s.scheduler.queue t.priority).head ≠ some id))
    (hprev : ∀ j, t.queueLinks.previous = some j → s.threads.get? j ≠ none)
    (hnext : ∀ j, t.queueLinks.next = some j → s.threads.get? j ≠ none) :
    dequeue id s = (.ok (), dequeuedState s id t.queueLinks t.priority) := by
  simp only [dequeue, bind, getThread_of_get? ht, Prog.gets, hin, if_false, modifySelf,
    modifyThread, Prog.modify]
  unfold dequeuedState
  cases hp : t.queueLinks.previous with
  | none =>
    cases hn : t.queueLinks.next with
    | none => simp
    | some next =>
      obtain ⟨u, hu⟩ := ne_none_iff_exists'.mp (hnext next hn)
      simp [getThread_of_get? hu]
  | some previous =>
    obtain ⟨u, hu⟩ := ne_none_iff_exists'.mp (hprev previous hp)
    cases hn : t.queueLinks.next with
    | none => simp [getThread_of_get? hu]
    | some next =>
      obtain ⟨v, hv⟩ := ne_none_iff_exists'.mp (hnext next hn)
      by_cases heq : next = previous
      · subst heq
        simp [getThread, hu]
      · simp [getThread, hu, hv, heq]

theorem dequeuedState_get? {links : Links} (hprev : links.previous ≠ some id)
    (hnext : links.next ≠ some id) (j : ThreadId) :
    (dequeuedState s id links p).threads.get? j =
      if j = id then (s.threads.get? id).map (·.setQueueLinks .unlinked)
      else (s.threads.get? j).map fun u => u.setQueueLinks
        { next := if links.previous = some j then links.next else u.queueLinks.next
          previous := if links.next = some j then links.previous else u.queueLinks.previous } := by
  unfold dequeuedState
  dsimp only
  rw [Threads.get?_modify, get?_elim_modify, get?_elim_modify, get?_elim_modify, get?_elim_modify,
    if_neg hprev, if_neg hnext]
  by_cases hj : j = id
  · rw [if_pos hj, if_pos hj]
  rw [if_neg hj, if_neg hj]
  cases s.threads.get? j with
  | none => simp
  | some u =>
    by_cases hp : links.previous = some j <;> by_cases hn : links.next = some j <;>
      simp [hp, hn, Thread.setQueueLinks]

section Dequeue

variable (h : Queues s m) (ht : s.threads.get? id = some t) (hp : p < priorityCount)
  (hid : id ∈ m p)

include h ht hp hid

theorem Queues.links_of_mem :
    nextOf s.threads id = t.queueLinks.next ∧ prevOf s.threads id = t.queueLinks.previous ∧
    t.queueLinks.previous ≠ some id ∧ t.queueLinks.next ≠ some id := by
  have hnext : nextOf s.threads id = t.queueLinks.next := by simp [nextOf, ht]
  have hprev : prevOf s.threads id = t.queueLinks.previous := by simp [prevOf, ht]
  have hl := h.linked p hp
  obtain ⟨l₁, l₂, heq⟩ := append_of_mem hid
  rw [heq] at hl
  have hnodup := nodup_middle.mp hl.nodup
  rw [nodup_cons, mem_append, not_or] at hnodup
  refine ⟨hnext, hprev, ?_, ?_⟩
  · rw [← hprev, hl.prev_mid]
    exact fun hlast => hnodup.1.1 (mem_of_getLast? hlast)
  · rw [← hnext, hl.next_mid]
    exact fun hhead => hnodup.1.2 (mem_of_head? hhead)

theorem Queues.dequeue_mem (hprio : t.priority = p) :
    dequeue id s = (.ok (), dequeuedState s id t.queueLinks p) := by
  subst hprio
  obtain ⟨hnext, hprev, -, -⟩ := h.links_of_mem ht hp hid
  have hl := h.linked _ hp
  refine dequeue_eq ht ?_ (fun j hj => ?_) fun j hj => ?_
  · rintro ⟨hunlinked, hhead⟩
    simp only [isUnlinked, Bool.and_eq_true, isNone_iff_eq_none] at hunlinked
    rw [queue_of_lt _ hp, h.head_eq _ hp] at hhead
    exact hhead (hl.head_of_prev_none hid (hprev.trans hunlinked.2))
  · exact h.live _ hp j (hl.prev_mem hid (hprev.trans hj))
  · exact h.live _ hp j (hl.next_mem hid (hnext.trans hj))

theorem Queues.dequeuedState_other (hj : j ∉ m p) :
    (dequeuedState s id t.queueLinks p).threads.get? j = s.threads.get? j := by
  obtain ⟨hnext, hprev, hpi, hni⟩ := h.links_of_mem ht hp hid
  have hl := h.linked p hp
  have hji : j ≠ id := fun heq => hj (heq ▸ hid)
  have hjp : t.queueLinks.previous ≠ some j := fun heq => hj (hl.prev_mem hid (hprev.trans heq))
  have hjn : t.queueLinks.next ≠ some j := fun heq => hj (hl.next_mem hid (hnext.trans heq))
  rw [dequeuedState_get? hpi hni, if_neg hji]
  cases s.threads.get? j <;> simp [hjp, hjn, Thread.setQueueLinks]

theorem Queues.dequeuedState_queues (q : Nat) :
    (dequeuedState s id t.queueLinks p).scheduler.queues q =
      if q = p then ⟨((m p).erase id).head?, ((m p).erase id).getLast?⟩
      else s.scheduler.queues q := by
  obtain ⟨hnext, hprev, -, -⟩ := h.links_of_mem ht hp hid
  have hl := h.linked p hp
  have hhead : (if (s.scheduler.queues p).head = some id then t.queueLinks.next
      else (s.scheduler.queues p).head) = ((m p).erase id).head? := by
    rw [hl.head_erase hid, h.head_eq p hp, hnext]
    by_cases hh : (m p).head? = some id
    · simp [hh, hl.prev_head hh]
    · have : prevOf s.threads id ≠ none := fun hnone => hh (hl.head_of_prev_none hid hnone)
      simp [hh, this]
  have htail : (if (s.scheduler.queues p).tail = some id then t.queueLinks.previous
      else (s.scheduler.queues p).tail) = ((m p).erase id).getLast? := by
    rw [hl.last_erase hid, h.tail_eq p hp, hprev]
    by_cases hh : (m p).getLast? = some id
    · simp [hh, hl.next_last hh]
    have : nextOf s.threads id ≠ none := by
      intro hnone
      obtain ⟨l₁, l₂, heq⟩ := append_of_mem hid
      rw [heq] at hl hh
      rw [hl.next_mid, head?_eq_none_iff] at hnone
      simp [hnone] at hh
    simp [hh, this]
  simp only [dequeuedState, (markReady_rest _ _ _).1, modifyQueue, hp, if_true, update_apply]
  rw [hhead, htail]

theorem Queues.dequeue :
    Queues (dequeuedState s id t.queueLinks p) (update m p ((m p).erase id)) := by
  obtain ⟨hnext, hprev, hpi, hni⟩ := h.links_of_mem ht hp hid
  have hl := h.linked p hp
  have hget := dequeuedState_get? (s := s) (p := p) hpi hni
  have hqueues := h.dequeuedState_queues ht hp hid
  refine h.set_list hp id ?_ hqueues (fun q hq => ?_)
    (fun q hq hqp hin => hqp (h.disjoint q hq p hp id hin hid))
    (fun j hj => .inr (mem_of_mem_erase hj))
    (fun j _ hjm => h.dequeuedState_other ht hp hid hjm) fun j hj => ?_
  · refine hl.remove hid (fun a ha hai => ?_) fun a ha hai => ?_
    · obtain ⟨u, hu⟩ := ne_none_iff_exists'.mp (h.live p hp a ha)
      rw [hprev, hnext]
      simp only [nextOf, hget, hai, if_false, hu, map_some, bind_some,
        Thread.setQueueLinks_queueLinks]
    · obtain ⟨u, hu⟩ := ne_none_iff_exists'.mp (h.live p hp a ha)
      rw [hprev, hnext]
      simp only [prevOf, hget, hai, if_false, hu, map_some, bind_some,
        Thread.setQueueLinks_queueLinks]
  · have hhead := hqueues p
    rw [if_pos rfl] at hhead
    simp only [dequeuedState, (markReady_rest _ _ _).1] at hhead ⊢
    rw [markReady_getLsbD _ hp _ q hq, queue_of_lt _ hp, hhead]
    simp [modifyQueue, hp]
  · rw [hget]
    by_cases hji : j = id
    · simp [hji, ht]
    · simpa [hji] using hj.resolve_left hji

end Dequeue

end Scheduler

end Audhsos
