import Audhsos.Sched.Clock
import Audhsos.Sched.Processors

/-!
The run queues of all processors. `Lists` is about the links alone and holds in the middle of a
call too. `RunQueues` holds between calls: a thread is in a queue exactly when it is ready, and then
in that of its priority at home, and a running thread is the current one of its home.
-/

namespace Audhsos

open Lib Scheduler Threads Function Option

variable {n : Nat}

/-- What decides the queue of a thread: its state, its home and its priority. -/
def Threads.key (threads : Threads n) (id : ThreadId) : Option (ThreadState × Nat × Nat) :=
  (threads.get? id).map fun t => (t.state, t.cpu, t.priority)

/-- The queue `p` of processor `c` is the list `m c p`; a thread in no list has no links. -/
structure Lists (queues : Nat → Scheduler) (threads : Threads n)
    (m : Nat → Nat → List ThreadId) : Prop where
  queues : ∀ c < cpus, Queues ⟨queues c, threads⟩ (m c)
  apart : ∀ c < cpus, ∀ c' < cpus, ∀ p < priorityCount, ∀ p' < priorityCount,
    ∀ id ∈ m c p, id ∈ m c' p' → c = c'
  outside : ∀ id t, threads.get? id = some t →
    (∀ c < cpus, ∀ p < priorityCount, id ∉ m c p) → t.queueLinks = .unlinked

namespace Lists

variable {queues queues' : Nat → Scheduler} {threads threads' : Threads n}
  {m : Nat → Nat → List ThreadId} {c p : Nat} {id : ThreadId} {t : Thread}

theorem queues_congr {s s' : SchedState n} {l : Nat → List ThreadId} (h : Queues s l)
    (hqueues : s'.scheduler.queues = s.scheduler.queues)
    (hready : s'.scheduler.ready = s.scheduler.ready) (hlinks : ∀ p < priorityCount, ∀ id ∈ l p,
      (s'.threads.get? id).map (·.queueLinks) = (s.threads.get? id).map (·.queueLinks)) :
    Queues s' l := by
  have hget : ∀ p < priorityCount, ∀ id ∈ l p, ∃ t t', s.threads.get? id = some t ∧
      s'.threads.get? id = some t' ∧ t'.queueLinks = t.queueLinks := by
    intro p hp id hid
    obtain ⟨t, ht⟩ := ne_none_iff_exists'.mp (h.live p hp id hid)
    have heq := hlinks p hp id hid
    rw [ht] at heq
    obtain ⟨t', ht', heq'⟩ := map_eq_some_iff.mp heq
    exact ⟨t, t', ht, ht', heq'⟩
  constructor
  · intro p hp
    refine (h.linked p hp).congr (fun id hid => ?_) fun id hid => ?_
    · obtain ⟨t, t', ht, ht', heq⟩ := hget p hp id hid
      simp [nextOf, ht, ht', heq]
    · obtain ⟨t, t', ht, ht', heq⟩ := hget p hp id hid
      simp [prevOf, ht, ht', heq]
  · rw [hqueues]
    exact h.head_eq
  · rw [hqueues]
    exact h.tail_eq
  · rw [hready]
    exact h.ready_iff
  · intro p hp id hid
    obtain ⟨t, t', -, ht', -⟩ := hget p hp id hid
    simp [ht']
  · exact h.disjoint

section

variable (h : Lists queues threads m)
include h

theorem congr (hqueues : ∀ c < cpus, (queues' c).queues = (queues c).queues ∧
      (queues' c).ready = (queues c).ready)
    (hlinks : ∀ id, (threads'.get? id).map (·.queueLinks) =
      (threads.get? id).map (·.queueLinks)) : Lists queues' threads' m where
  queues := fun c hc =>
    queues_congr (h.queues c hc) (hqueues c hc).1 (hqueues c hc).2 fun _ _ id _ => hlinks id
  apart := h.apart
  outside := by
    intro id t' ht' hout
    have heq := hlinks id
    rw [ht', map_some] at heq
    obtain ⟨t, ht, htl⟩ := map_eq_some_iff.mp heq.symm
    rw [← htl]
    exact h.outside id t ht hout

/-- One list of processor `c` gains or loses a thread that no other processor has in a list. -/
theorem set_list (id : ThreadId) (hc : c < cpus) (hp : p < priorityCount)
    {s : SchedState n} {l : List ThreadId}
    (hhere : ∀ c' < cpus, c' ≠ c → ∀ p' < priorityCount, id ∉ m c' p')
    (hmem : ∀ j ≠ id, j ∈ l ↔ j ∈ m c p)
    (hget : ∀ j ≠ id, j ∉ m c p → s.threads.get? j = threads.get? j)
    (hq : Queues s (update (m c) p l))
    (hself : id ∉ l → ∀ u, s.threads.get? id = some u → u.queueLinks = .unlinked) :
    Lists (update queues c s.scheduler) s.threads
      (update m c (update (m c) p l)) := by
  have hsame : ∀ c' p', ∀ j ≠ id,
      j ∈ update m c (update (m c) p l) c' p' ↔ j ∈ m c' p' := by
    intro c' p' j hj
    by_cases hcc : c' = c
    · subst hcc
      by_cases hpp : p' = p
      · subst hpp
        rw [update_self, update_self, hmem j hj]
      · rw [update_self, update_of_ne hpp]
    · rw [update_of_ne hcc]
  have honly : ∀ c' < cpus, ∀ p' < priorityCount,
      id ∈ update m c (update (m c) p l) c' p' → c' = c := by
    intro c' hc' p' hp' hid
    by_contra hcc
    rw [update_of_ne hcc] at hid
    exact hhere c' hc' hcc p' hp' hid
  refine ⟨fun c' hc' => ?_, ?_, ?_⟩
  · by_cases hcc : c' = c
    · subst hcc
      simp only [update_self]
      exact hq
    · simp only [update_of_ne hcc]
      refine queues_congr (h.queues c' hc') rfl rfl fun q hq' j hj => ?_
      rw [hget j]
      · exact fun heq => hhere c' hc' hcc q hq' (heq ▸ hj)
      · exact fun hjp => hcc (h.apart c' hc' c hc q hq' p hp j hj hjp)
  · intro c₁ hc₁ c₂ hc₂ p₁ hp₁ p₂ hp₂ j hj₁ hj₂
    by_cases hj : j = id
    · subst hj
      rw [honly c₁ hc₁ p₁ hp₁ hj₁, honly c₂ hc₂ p₂ hp₂ hj₂]
    · exact h.apart c₁ hc₁ c₂ hc₂ p₁ hp₁ p₂ hp₂ j ((hsame _ _ j hj).mp hj₁)
        ((hsame _ _ j hj).mp hj₂)
  · intro j u hu hout
    by_cases hj : j = id
    · subst hj
      have hnot := hout c hc p hp
      rw [update_self, update_self] at hnot
      exact hself hnot u hu
    · have hnot : ∀ c' < cpus, ∀ p' < priorityCount, j ∉ m c' p' :=
        fun c' hc' p' hp' hin => hout c' hc' p' hp' ((hsame c' p' j hj).mpr hin)
      rw [hget j hj (hnot c hc p hp)] at hu
      exact h.outside j u hu hnot

/-- Putting a thread that is in no list into the list `p` of processor `c`. -/
theorem link (hc : c < cpus) (hp : p < priorityCount)
    (hfresh : ∀ c < cpus, ∀ p < priorityCount, id ∉ m c p) (ht : threads.get? id = some t)
    (placement : Placement) :
    Lists (update queues c (linkedState ⟨queues c, threads⟩ id placement p).scheduler)
      (linkedState ⟨queues c, threads⟩ id placement p).threads
      (update m c (update (m c) p (placed placement id (m c p)))) := by
  have hq := h.queues c hc
  refine h.set_list id hc hp (fun c' hc' _ => hfresh c' hc') (fun j hj => ?_)
    (fun j hj hjm => hq.linkedState_other hp placement hj hjm (hfresh c hc p hp))
    (hq.link hp (hfresh c hc) ht placement) fun hnot => absurd ?_ hnot
  · rw [mem_placed, or_iff_right hj]
  · exact mem_placed.mpr (.inl rfl)

theorem dequeue (hc : c < cpus) (hp : p < priorityCount)
    (ht : threads.get? id = some t) (hid : id ∈ m c p) :
    Lists (update queues c (dequeuedState ⟨queues c, threads⟩ id t.queueLinks p).scheduler)
      (dequeuedState ⟨queues c, threads⟩ id t.queueLinks p).threads
      (update m c (update (m c) p ((m c p).erase id))) := by
  have hq := h.queues c hc
  refine h.set_list id hc hp ?_ (fun j hj => List.mem_erase_of_ne hj)
    (fun j _ hjm => hq.dequeuedState_other ht hp hid hjm) (hq.dequeue ht hp hid) fun _ u hu => ?_
  · exact fun c' hc' hcc p' hp' hin => hcc (h.apart c' hc' c hc p' hp' p hp id hin hid)
  · obtain ⟨-, -, hpi, hni⟩ := hq.links_of_mem ht hp hid
    rw [dequeuedState_get? hpi hni, if_pos rfl, ht] at hu
    obtain rfl := some.inj hu
    rfl

end

end Lists

/-- The lists hold the ready threads, and what runs is what its home says it runs. -/
structure RunQueues (isIdle : ThreadId → Prop) (queues : Nat → Scheduler) (threads : Threads n)
    (m : Nat → Nat → List ThreadId) : Prop where
  lists : Lists queues threads m
  mem_iff : ∀ c < cpus, ∀ p < priorityCount, ∀ id,
    id ∈ m c p ↔ threads.key id = some (.ready, c, p)
  priority : ∀ id st c p, threads.key id = some (st, c, p) → p < priorityCount
  ready : ∀ id c p, threads.key id = some (.ready, c, p) → c < cpus ∧ ¬ isIdle id
  running : ∀ id c p, threads.key id = some (.running, c, p) →
    c < cpus ∧ ¬ isIdle id ∧ (queues c).current = some id
  current : ∀ c < cpus, ∀ id, (queues c).current = some id → isIdle id ∨
    ∃ p, threads.key id = some (.running, c, p) ∨ threads.key id = some (.ready, c, p)
  idle : ∀ c < cpus, ∀ id, (queues c).idle = some id → isIdle id

section

variable {threads : Threads n} {id : ThreadId}

theorem Threads.key_eq_some {k : ThreadState × Nat × Nat} :
    threads.key id = some k ↔
      ∃ t, threads.get? id = some t ∧ (t.state, t.cpu, t.priority) = k := by
  unfold key
  exact map_eq_some_iff

theorem Threads.key_of_get? {t : Thread}
    (ht : threads.get? id = some t) : threads.key id = some (t.state, t.cpu, t.priority) := by
  simp [key, ht]

end

/-- A step that concerns one thread: the others keep their key and their lists. -/
theorem RunQueues.step {isIdle : ThreadId → Prop} {queues queues' : Nat → Scheduler}
    {threads threads' : Threads n} {m m' : Nat → Nat → List ThreadId}
    (h : RunQueues isIdle queues threads m) (id : ThreadId) (hl : Lists queues' threads' m')
    (hkey : ∀ j ≠ id, threads'.key j = threads.key j)
    (hmem : ∀ c < cpus, ∀ p < priorityCount, ∀ j ≠ id, j ∈ m' c p ↔ j ∈ m c p)
    (hidle : ∀ c < cpus, (queues' c).idle = (queues c).idle)
    (hcurrent : ∀ c < cpus, ∀ j ≠ id, ∀ p, threads.key j = some (.running, c, p) →
      (queues c).current = some j → (queues' c).current = some j)
    (hback : ∀ c < cpus, ∀ j ≠ id, (queues' c).current = some j →
      (queues c).current = some j ∨ isIdle j)
    (hself : ∀ st c p, threads'.key id = some (st, c, p) → p < priorityCount ∧
      (st = .ready → c < cpus ∧ ¬ isIdle id) ∧
      (st = .running → c < cpus ∧ ¬ isIdle id ∧ (queues' c).current = some id))
    (hselfCurrent : ∀ c < cpus, (queues' c).current = some id → isIdle id ∨
      ∃ p, threads'.key id = some (.running, c, p) ∨ threads'.key id = some (.ready, c, p))
    (hselfMem : ∀ c < cpus, ∀ p < priorityCount,
      id ∈ m' c p ↔ threads'.key id = some (.ready, c, p)) :
    RunQueues isIdle queues' threads' m' where
  lists := hl
  mem_iff := by
    intro c hc p hp j
    by_cases hj : j = id
    · rw [hj]
      exact hselfMem c hc p hp
    · rw [hmem c hc p hp j hj, hkey j hj]
      exact h.mem_iff c hc p hp j
  priority := by
    intro j st c p hk
    by_cases hj : j = id
    · exact (hself st c p (hj ▸ hk)).1
    · exact h.priority j st c p (hkey j hj ▸ hk)
  ready := by
    intro j c p hk
    by_cases hj : j = id
    · subst hj
      exact (hself _ c p hk).2.1 rfl
    · exact h.ready j c p (hkey j hj ▸ hk)
  running := by
    intro j c p hk
    by_cases hj : j = id
    · subst hj
      exact (hself _ c p hk).2.2 rfl
    · rw [hkey j hj] at hk
      obtain ⟨hc, hji, hcur⟩ := h.running j c p hk
      exact ⟨hc, hji, hcurrent c hc j hj p hk hcur⟩
  current := by
    intro c hc j hcur
    by_cases hj : j = id
    · subst hj
      exact hselfCurrent c hc hcur
    · rcases hback c hc j hj hcur with hcur | hidle
      · rw [hkey j hj]
        exact h.current c hc j hcur
      · exact Or.inl hidle
  idle := fun c hc j hj => h.idle c hc j (hidle c hc ▸ hj)

namespace RunQueues

variable {isIdle : ThreadId → Prop} {queues queues' : Nat → Scheduler}
  {threads threads' : Threads n} {m : Nat → Nat → List ThreadId} {c p : Nat} {id : ThreadId}
  {t : Thread}

section

variable (h : RunQueues isIdle queues threads m)
include h

theorem congr (hqueues : ∀ c < cpus, (queues' c).queues = (queues c).queues ∧
      (queues' c).ready = (queues c).ready ∧ (queues' c).current = (queues c).current ∧
      (queues' c).idle = (queues c).idle)
    (hlinks : ∀ id, (threads'.get? id).map (·.queueLinks) = (threads.get? id).map (·.queueLinks))
    (hkey : ∀ id, threads'.key id = threads.key id) : RunQueues isIdle queues' threads' m where
  lists := h.lists.congr (fun c hc => ⟨(hqueues c hc).1, (hqueues c hc).2.1⟩) hlinks
  mem_iff := fun c hc p hp id => by rw [hkey]; exact h.mem_iff c hc p hp id
  priority := fun id st c p hk => h.priority id st c p (hkey id ▸ hk)
  ready := fun id c p hk => h.ready id c p (hkey id ▸ hk)
  running := fun id c p hk => by
    obtain ⟨hc, hid, hcur⟩ := h.running id c p (hkey id ▸ hk)
    exact ⟨hc, hid, (hqueues c hc).2.2.1.trans hcur⟩
  current := fun c hc id hcur => by
    rw [hkey]
    exact h.current c hc id ((hqueues c hc).2.2.1 ▸ hcur)
  idle := fun c hc id hid => h.idle c hc id ((hqueues c hc).2.2.2 ▸ hid)

theorem not_mem (ht : threads.get? id = some t)
    (hstate : t.state ≠ .ready) : ∀ c < cpus, ∀ p < priorityCount, id ∉ m c p := by
  intro c hc p hp hid
  rw [h.mem_iff c hc p hp, key_of_get? ht, some.injEq, Prod.mk.injEq] at hid
  exact hstate hid.1

theorem priority_lt (ht : threads.get? id = some t) : t.priority < priorityCount :=
  h.priority id _ _ _ (key_of_get? ht)

end

end RunQueues

end Audhsos
