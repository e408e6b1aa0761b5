import Mathlib.Data.Prod.Lex
import Audhsos.Lib.Heap
import Audhsos.Sched.Timers

/-!
The deadlines of a processor as a binary heap, first by deadline and then by arrival. `Timed` says
that the heap is in order and the threads know their places in it; inserting, removing and expiring
keep it, and do to the set of entries what they are named after.
-/

namespace Audhsos

open Lib Function Option Nat Threads

variable {n : Nat}

def DeadlineEntry.key (entry : DeadlineEntry) : ℕ ×ₗ ℕ := toLex (entry.deadline, entry.order)

namespace Deadlines

variable {heap heap' heap'' : Deadlines} {threads threads' threads'' : Threads n} {i j : Nat}
  {id : ThreadId} {e : DeadlineEntry} {timer : Timer} {here : ThreadId → Bool}

variable (heap)

def keyAt (i : Nat) : ℕ ×ₗ ℕ := (heap.entries i).key

theorem before_iff (i j : Nat) : heap.before i j = true ↔ heap.keyAt i < heap.keyAt j := by
  simp [before, keyAt, DeadlineEntry.key, Prod.Lex.toLex_lt_toLex]

def Member (e : DeadlineEntry) : Prop := ∃ i < heap.len, heap.entries i = e

/-- Entries name different threads, and a thread that is alive records its entry. -/
structure Recorded (heap : Deadlines) (threads : Threads n) : Prop where
  distinct : ∀ i < heap.len, ∀ j < heap.len, (heap.entries i).id = (heap.entries j).id → i = j
  recorded : ∀ i < heap.len, ∀ timer, threads.timers (heap.entries i).id = some timer →
    timer.deadline = some (heap.entries i).deadline ∧ timer.index = some i

/-! ## Sifting -/

/-- What sifting does: entries change places, and of the threads only their indices change. -/
structure Sifted (heap : Deadlines) (threads : Threads n) (heap' : Deadlines)
    (threads' : Threads n) : Prop where
  len_eq : heap'.len = heap.len
  order_eq : heap'.order = heap.order
  perm : ∃ σ : Equiv.Perm Nat, heap'.entries = heap.entries ∘ σ ∧ ∀ i, heap.len ≤ i → σ i = i
  timers : ∀ j, (threads'.timers j).map (fun t => (t.deadline, t.state)) =
    (threads.timers j).map fun t => (t.deadline, t.state)
  outside : ∀ j, (∀ i < heap.len, (heap.entries i).id ≠ j) → threads'.timers j = threads.timers j
  recorded : Recorded heap threads → Recorded heap' threads'

theorem perm_lt {len : Nat} {σ : Equiv.Perm Nat} (hσ : ∀ i, len ≤ i → σ i = i) (hi : i < len) :
    σ i < len := by
  by_contra hge
  have hfix := hσ (σ i) (Nat.le_of_not_lt hge)
  have := σ.injective hfix
  omega

theorem Sifted.refl (threads : Threads n) : Sifted heap threads heap threads :=
  ⟨rfl, rfl, ⟨Equiv.refl Nat, rfl, fun _ _ => rfl⟩, fun _ => rfl, fun _ _ => rfl, fun h => h⟩

variable {heap}

theorem Sifted.trans (h : Sifted heap threads heap' threads')
    (h' : Sifted heap' threads' heap'' threads'') : Sifted heap threads heap'' threads'' := by
  obtain ⟨σ, hentries, hσ⟩ := h.perm
  obtain ⟨τ, hentries', hτ⟩ := h'.perm
  rw [h.len_eq] at hτ
  refine ⟨h'.len_eq.trans h.len_eq, h'.order_eq.trans h.order_eq, ⟨τ.trans σ, ?_, fun i hi => ?_⟩,
    fun j => (h'.timers j).trans (h.timers j), fun j hj => ?_, fun hr => h'.recorded (h.recorded hr)⟩
  · rw [hentries', hentries]
    rfl
  · rw [Equiv.trans_apply, hτ i hi, hσ i hi]
  · refine (h'.outside j fun i hi => ?_).trans (h.outside j hj)
    rw [hentries]
    rw [h.len_eq] at hi
    exact hj _ (perm_lt hσ hi)

theorem Sifted.member_iff (h : Sifted heap threads heap' threads') (e : DeadlineEntry) :
    heap'.Member e ↔ heap.Member e := by
  obtain ⟨σ, hentries, hσ⟩ := h.perm
  unfold Member
  rw [h.len_eq, hentries]
  constructor
  · rintro ⟨i, hi, rfl⟩
    exact ⟨σ i, perm_lt hσ hi, rfl⟩
  · rintro ⟨i, hi, rfl⟩
    refine ⟨σ.symm i, ?_, congrArg heap.entries (σ.apply_symm_apply i)⟩
    refine perm_lt (fun k hk => ?_) hi
    rw [Equiv.symm_apply_eq, hσ k hk]

section

variable (heap threads)

theorem timers_recordIndex (index : Nat) (j : ThreadId) :
    (heap.recordIndex threads index).timers j =
      if j = (heap.entries index).id then
        (threads.timers j).map fun t => { t with index := some index }
      else threads.timers j := by
  unfold recordIndex
  rw [timers_modify threads _ (g := fun t => { t with index := some index }) fun _ => rfl]
  by_cases hj : j = (heap.entries index).id
  · rw [if_pos hj, if_pos hj, hj]
  · rw [if_neg hj, if_neg hj]

theorem swap_entries (i j : Nat) :
    (heap.swap threads i j).1.entries = heap.entries ∘ Equiv.swap i j := by
  rw [Equiv.swap_comm, Equiv.comp_swap_eq_update]
  rfl

theorem swap_keyAt (i j : Nat) : (heap.swap threads i j).1.keyAt = heap.keyAt ∘ Equiv.swap i j := by
  funext k
  unfold keyAt
  rw [swap_entries]
  rfl

theorem swap_timers (i j : Nat) (k : ThreadId) :
    (heap.swap threads i j).2.timers k =
      if k = (heap.entries i).id then
        (threads.timers k).map fun t => { t with index := some j }
      else if k = (heap.entries j).id then
        (threads.timers k).map fun t => { t with index := some i }
      else threads.timers k := by
  have hleft : (heap.swap threads i j).1.entries i = heap.entries j := by
    rw [swap_entries, comp_apply, Equiv.swap_apply_left]
  have hright : (heap.swap threads i j).1.entries j = heap.entries i := by
    rw [swap_entries, comp_apply, Equiv.swap_apply_right]
  change ((heap.swap threads i j).1.recordIndex
    ((heap.swap threads i j).1.recordIndex threads i) j).timers k = _
  rw [timers_recordIndex, timers_recordIndex, hleft, hright]
  by_cases hi : k = (heap.entries i).id
  · rw [if_pos hi, if_pos hi]
    by_cases hj : k = (heap.entries j).id
    · rw [if_pos hj, map_map]
      rfl
    · rw [if_neg hj]
  · rw [if_neg hi, if_neg hi]

theorem sifted_swap (hi : i < heap.len) (hj : j < heap.len) (hij : i ≠ j) :
    Sifted heap threads (heap.swap threads i j).1 (heap.swap threads i j).2 := by
  have hfix : ∀ k, heap.len ≤ k → Equiv.swap i j k = k := fun k hk =>
    Equiv.swap_apply_of_ne_of_ne (by omega) (by omega)
  refine ⟨rfl, rfl, ⟨Equiv.swap i j, swap_entries heap threads i j, hfix⟩, fun k => ?_,
    fun k hk => ?_, fun hr => ⟨fun a ha b hb hab => ?_, fun a ha timer htimer => ?_⟩⟩
  · rw [swap_timers]
    by_cases hki : k = (heap.entries i).id
    · rw [if_pos hki, map_map]
      rfl
    rw [if_neg hki]
    by_cases hkj : k = (heap.entries j).id
    · rw [if_pos hkj, map_map]
      rfl
    · rw [if_neg hkj]
  · rw [swap_timers, if_neg fun heq => hk i hi heq.symm, if_neg fun heq => hk j hj heq.symm]
  · rw [swap_entries] at hab
    exact (Equiv.swap i j).injective (hr.distinct _ (perm_lt hfix ha) _ (perm_lt hfix hb) hab)
  · have hne : (heap.entries i).id ≠ (heap.entries j).id := fun heq =>
      hij (hr.distinct i hi j hj heq)
    have hentry : (heap.swap threads i j).1.entries a =
        if a = i then heap.entries j else if a = j then heap.entries i else heap.entries a := by
      rw [swap_entries]
      exact swap_apply heap.entries i j a
    rw [hentry, swap_timers] at htimer
    rw [hentry]
    by_cases hai : a = i
    · rw [if_pos hai] at htimer ⊢
      rw [if_neg hne.symm, if_pos rfl] at htimer
      obtain ⟨old, hold, rfl⟩ := map_eq_some_iff.mp htimer
      exact ⟨(hr.recorded j hj old hold).1, by rw [hai]⟩
    rw [if_neg hai] at htimer ⊢
    by_cases haj : a = j
    · rw [if_pos haj] at htimer ⊢
      rw [if_pos rfl] at htimer
      obtain ⟨old, hold, rfl⟩ := map_eq_some_iff.mp htimer
      exact ⟨(hr.recorded i hi old hold).1, by rw [haj]⟩
    · rw [if_neg haj] at htimer ⊢
      rw [if_neg fun heq => hai (hr.distinct a ha i hi heq),
        if_neg fun heq => haj (hr.distinct a ha j hj heq)] at htimer
      exact hr.recorded a ha timer htimer

end

/-- Sifting up from a place the order holds around ends at one whose parent is not above it. -/
theorem siftUp_spec (fuel : Nat) : ∀ (heap : Deadlines) (threads : Threads n) (position : Nat),
    position < fuel → position < heap.len → Around heap.keyAt heap.len position →
    ∃ p heap' threads', siftUp fuel heap threads position = (p, heap', threads') ∧
      Sifted heap threads heap' threads' ∧ p < heap.len ∧ Around heap'.keyAt heap.len p ∧
      AboveOk heap'.keyAt p ∧
      (BelowOk heap.keyAt heap.len position → BelowOk heap'.keyAt heap.len p) := by
  induction fuel with
  | zero => exact fun _ _ _ hfuel => absurd hfuel (Nat.not_lt_zero _)
  | succ fuel ih =>
    intro heap threads position hfuel hlen haround
    by_cases h0 : position = 0
    · refine ⟨position, heap, threads, ?_, .refl heap threads, hlen, haround,
        fun hpos => absurd h0 (Nat.pos_iff_ne_zero.mp hpos), fun h => h⟩
      rw [siftUp, if_pos h0]
    have hpos := Nat.pos_of_ne_zero h0
    by_cases hbefore : heap.before position (parent position) = true
    · -- the entry changes places with its parent, and the step is repeated there
      have hlt := (before_iff _ _ _).mp hbefore
      have hp := parent_lt hpos
      obtain ⟨hup, hbelow⟩ := haround.up hpos hlt
      have hsift := sifted_swap heap threads hlen (hp.trans hlen) hp.ne'
      rw [← swap_keyAt heap threads] at hup hbelow
      obtain ⟨p, heap', threads', heq, hsifted, hlt', harnd, habove, hsettled⟩ :=
        ih (heap.swap threads position (parent position)).1
          (heap.swap threads position (parent position)).2 (parent position) (by omega)
          (hp.trans hlen) hup
      refine ⟨p, heap', threads', ?_, hsift.trans hsifted, hlt', harnd, habove,
        fun _ => hsettled hbelow⟩
      rw [siftUp, if_neg h0]
      change (if ¬ heap.before position (parent position) = true then _ else _) = _
      rw [if_neg (not_not_intro hbefore)]
      exact heq
    · refine ⟨position, heap, threads, ?_, .refl heap threads, hlen, haround, fun _ => ?_,
        fun h => h⟩
      · rw [siftUp, if_neg h0]
        change (if ¬ heap.before position (parent position) = true then _ else _) = _
        rw [if_pos hbefore]
      · exact not_lt.mp fun hlt => hbefore ((before_iff _ _ _).mpr hlt)

/-- Sifting down from a place that is not below its parent ends with the heap in order. -/
theorem siftDown_spec (fuel : Nat) : ∀ (heap : Deadlines) (threads : Threads n) (position : Nat),
    heap.len < position + fuel → position < heap.len → Around heap.keyAt heap.len position →
    AboveOk heap.keyAt position →
    ∃ heap' threads', siftDown fuel heap threads position = (heap', threads') ∧
      Sifted heap threads heap' threads' ∧ Heaped heap'.keyAt heap.len := by
  induction fuel with
  | zero => exact fun _ _ _ hfuel hlen => absurd hfuel (by omega)
  | succ fuel ih =>
    intro heap threads position hfuel hlen haround habove
    by_cases hleaf : position < heap.len / 2
    · -- the lesser child
      obtain ⟨child, hchild⟩ : ∃ child, child = if position * 2 + 1 + 1 < heap.len ∧
          heap.before (position * 2 + 1 + 1) (position * 2 + 1) = true then position * 2 + 1 + 1
        else position * 2 + 1 := ⟨_, rfl⟩
      have hcases : child = 2 * position + 1 ∨ child = 2 * position + 2 := by
        rw [hchild]
        split <;> omega
      have hc : child < heap.len := by
        rw [hchild]
        split <;> omega
      have hc0 : 0 < child := by omega
      have hpc : parent child = position := (parent_eq_iff hc0).mpr hcases
      have hleast : ∀ i, 0 < i → i < heap.len → parent i = position →
          heap.keyAt child ≤ heap.keyAt i := by
        intro i hi hil hpi
        rw [hchild]
        by_cases hright : position * 2 + 1 + 1 < heap.len ∧
            heap.before (position * 2 + 1 + 1) (position * 2 + 1) = true
        · rw [if_pos hright]
          have hlt := (before_iff _ _ _).mp hright.2
          rcases (parent_eq_iff hi).mp hpi with rfl | rfl
          · rw [Nat.mul_comm 2]
            exact hlt.le
          · exact le_of_eq (congrArg heap.keyAt (by omega))
        · rw [if_neg hright]
          rcases (parent_eq_iff hi).mp hpi with rfl | rfl
          · exact le_of_eq (congrArg heap.keyAt (by omega))
          · refine not_lt.mp fun hlt => hright ⟨by omega, (before_iff _ _ _).mpr ?_⟩
            rwa [Nat.mul_comm 2] at hlt
      by_cases hbefore : heap.before child position = true
      · have hlt := (before_iff _ _ _).mp hbefore
        obtain ⟨hdown, hok⟩ := haround.down habove hc hpc hc0 hleast hlt
        have hpos : position < child := hpc ▸ parent_lt hc0
        have hsift := sifted_swap heap threads hlen hc hpos.ne
        rw [← swap_keyAt heap threads] at hdown hok
        have hfuel' : heap.len < child + fuel := by omega
        obtain ⟨heap', threads', heq, hsifted, hheaped⟩ :=
          ih (heap.swap threads position child).1 (heap.swap threads position child).2 child
            hfuel' hc hdown hok
        refine ⟨heap', threads', ?_, hsift.trans hsifted, hheaped⟩
        rw [siftDown, if_neg (not_not_intro hleaf)]
        dsimp only
        rw [← hchild, if_neg (not_not_intro hbefore)]
        exact heq
      · refine ⟨heap, threads, ?_, .refl heap threads, haround.heaped habove fun i hi hil hpi => ?_⟩
        · rw [siftDown, if_neg (not_not_intro hleaf)]
          dsimp only
          rw [← hchild, if_pos hbefore]
        · exact (not_lt.mp fun hlt => hbefore ((before_iff _ _ _).mpr hlt)).trans
            (hleast i hi hil hpi)
    · refine ⟨heap, threads, ?_, .refl heap threads, haround.heaped habove fun i hi hil hpi => ?_⟩
      · rw [siftDown, if_pos hleaf]
      · have := (parent_eq_iff hi).mp hpi
        omega

/-! ## The invariant -/

/-- A thread of this scheduler that records a deadline or an index is named by an entry. -/
def Known (here : ThreadId → Bool) (heap : Deadlines) (threads : Threads n) : Prop :=
  ∀ id timer, here id → threads.timers id = some timer →
    timer.deadline ≠ none ∨ timer.index ≠ none → ∃ e, heap.Member e ∧ e.id = id

/-- What holds of the entries wherever they lie. -/
structure Placed (here : ThreadId → Bool) (heap : Deadlines) (threads : Threads n) : Prop where
  recorded : Recorded heap threads
  known : Known here heap threads
  len_le : heap.len ≤ deadlineCapacity
  order_lt : ∀ e, heap.Member e → e.order < heap.order
  order_inj : ∀ i < heap.len, ∀ j < heap.len,
    (heap.entries i).order = (heap.entries j).order → i = j

/-- The heap is in order, and nothing lies behind its end. -/
structure Timed (here : ThreadId → Bool) (heap : Deadlines) (threads : Threads n) : Prop
    extends Placed here heap threads where
  heaped : Heaped heap.keyAt heap.len
  rest : ∀ i, heap.len ≤ i → heap.entries i = .empty

theorem timed_new (threads : Threads n) (h : ∀ id timer, here id → threads.timers id = some timer →
      timer.deadline = none ∧ timer.index = none) : Timed here .new threads := by
  refine ⟨⟨⟨fun i hi => absurd hi (Nat.not_lt_zero i), fun i hi => absurd hi (Nat.not_lt_zero i)⟩,
    fun id timer hhere htimer hset => ?_, Nat.zero_le _, ?_, fun i hi => absurd hi (Nat.not_lt_zero i)⟩,
    fun i _ hi => absurd hi (Nat.not_lt_zero i), fun _ _ => rfl⟩
  · obtain ⟨hd, hi⟩ := h id timer hhere htimer
    rcases hset with hset | hset
    · exact absurd hd hset
    · exact absurd hi hset
  · rintro e ⟨i, hi, -⟩
    exact absurd hi (Nat.not_lt_zero i)

theorem Recorded.member_ext {e' : DeadlineEntry} (h : Recorded heap threads) (he : heap.Member e)
    (he' : heap.Member e') (hid : e.id = e'.id) : e = e' := by
  obtain ⟨i, hi, rfl⟩ := he
  obtain ⟨j, hj, rfl⟩ := he'
  rw [h.distinct i hi j hj hid]

theorem Recorded.deadline_of_member (h : Recorded heap threads) (he : heap.Member e)
    (ht : threads.timers e.id = some timer) :
    timer.deadline = some e.deadline ∧ ∃ i < heap.len, timer.index = some i := by
  obtain ⟨i, hi, rfl⟩ := he
  obtain ⟨hd, hindex⟩ := h.recorded i hi timer ht
  exact ⟨hd, i, hi, hindex⟩

section

variable (h : Sifted heap threads heap' threads')
include h

theorem Sifted.known (hk : Known here heap threads) : Known here heap' threads' := by
  intro id timer hhere htimer hset
  by_cases hin : ∃ i < heap.len, (heap.entries i).id = id
  · obtain ⟨i, hi, hid⟩ := hin
    exact ⟨heap.entries i, (h.member_iff _).mpr ⟨i, hi, rfl⟩, hid⟩
  · rw [h.outside id fun i hi hid => hin ⟨i, hi, hid⟩] at htimer
    obtain ⟨e, he, hid⟩ := hk id timer hhere htimer hset
    exact ⟨e, (h.member_iff e).mpr he, hid⟩

theorem Sifted.placed (hp : Placed here heap threads) : Placed here heap' threads' := by
  obtain ⟨σ, hentries, hσ⟩ := h.perm
  refine ⟨h.recorded hp.recorded, h.known hp.known, h.len_eq ▸ hp.len_le, fun e he => ?_,
    fun i hi j hj heq => ?_⟩
  · rw [h.order_eq]
    exact hp.order_lt e ((h.member_iff e).mp he)
  · rw [h.len_eq] at hi hj
    rw [hentries] at heq
    exact σ.injective (hp.order_inj _ (perm_lt hσ hi) _ (perm_lt hσ hj) heq)

theorem Sifted.rest (hi : heap.len ≤ i) : heap'.entries i = heap.entries i := by
  obtain ⟨σ, hentries, hσ⟩ := h.perm
  rw [hentries, comp_apply, hσ i hi]

end

def SameStates (threads threads' : Threads n) : Prop :=
  ∀ j, (threads'.timers j).map (·.state) = (threads.timers j).map (·.state)

theorem Sifted.states (h : Sifted heap threads heap' threads') : SameStates threads threads' := by
  intro j
  have hboth := congrArg (Option.map Prod.snd) (h.timers j)
  rwa [map_map, map_map] at hboth

/-! ## Inserting -/

theorem timers_setDeadline (threads : Threads n) (id j : ThreadId) (d index : Option Nat) :
    timers (threads.modify id (·.setDeadline d index)) j =
      if j = id then (threads.timers id).map fun t => ⟨d, index, t.state⟩
      else threads.timers j :=
  threads.timers_modify id (g := fun t => ⟨d, index, t.state⟩) (fun _ => rfl) j

theorem canInsert_ok (hcan : heap.canInsert threads id = .ok ()) :
    ∃ timer, threads.timers id = some timer ∧ timer.deadline = none ∧ timer.index = none ∧
      heap.len ≠ deadlineCapacity := by
  rw [canInsert] at hcan
  unfold timers
  cases ht : threads.get? id with
  | none =>
    rw [ht] at hcan
    cases hcan
  | some t =>
    rw [ht] at hcan
    dsimp only at hcan
    split at hcan
    · cases hcan
    split at hcan
    · cases hcan
    · next hset hfull =>
      simp only [Bool.or_eq_true, isSome_iff_ne_none, not_or, not_not] at hset
      exact ⟨t.timer, rfl, hset.2, hset.1, hfull⟩

/-- The heap with one more entry at its end, which is not sifted yet. -/
def pushed (heap : Deadlines) (new : DeadlineEntry) : Deadlines :=
  ⟨update heap.entries heap.len new, heap.len + 1, heap.order + 1⟩

section Pushed

variable {new : DeadlineEntry}

theorem pushed_old (hi : i < heap.len) : (heap.pushed new).entries i = heap.entries i :=
  update_of_ne hi.ne _ _

theorem pushed_last : (heap.pushed new).entries heap.len = new := update_self _ _ _

theorem forall_pushed {P : Nat → Prop} (hold : ∀ i < heap.len, P i) (hnew : P heap.len) :
    ∀ i < (heap.pushed new).len, P i :=
  Nat.forall_lt_succ_right.mpr ⟨hold, hnew⟩

theorem member_pushed : (heap.pushed new).Member e ↔ e = new ∨ heap.Member e := by
  constructor
  · rintro ⟨i, hi, rfl⟩
    revert i
    refine forall_pushed (fun i hi => ?_) (.inl pushed_last)
    exact .inr ⟨i, hi, (pushed_old hi).symm⟩
  · rintro (rfl | ⟨i, hi, rfl⟩)
    · exact ⟨heap.len, lt_succ_self _, pushed_last⟩
    · exact ⟨i, lt_succ_of_lt hi, pushed_old hi⟩

/-- What tells the entries apart still does when the new one has a value of its own. -/
theorem pushed_inj {γ : Type} {f : DeadlineEntry → γ}
    (hinj : ∀ i < heap.len, ∀ j < heap.len, f (heap.entries i) = f (heap.entries j) → i = j)
    (hnew : ∀ i < heap.len, f (heap.entries i) ≠ f new) :
    ∀ i < (heap.pushed new).len, ∀ j < (heap.pushed new).len,
      f ((heap.pushed new).entries i) = f ((heap.pushed new).entries j) → i = j := by
  refine forall_pushed (fun i hi => forall_pushed (fun j hj heq => ?_) fun heq => ?_)
    (forall_pushed (fun j hj heq => ?_) fun _ => rfl)
  · rw [pushed_old hi, pushed_old hj] at heq
    exact hinj i hi j hj heq
  · rw [pushed_old hi, pushed_last] at heq
    exact absurd heq (hnew i hi)
  · rw [pushed_old hj, pushed_last] at heq
    exact absurd heq.symm (hnew j hj)

theorem parent_ne_last (hi : 0 < i) (hil : i < (heap.pushed new).len) : parent i ≠ heap.len := by
  have := parent_lt hi
  change i < heap.len + 1 at hil
  omega

theorem around_pushed (h : Heaped heap.keyAt heap.len) :
    Around (heap.pushed new).keyAt (heap.pushed new).len heap.len := by
  have hkey : ∀ i < heap.len, (heap.pushed new).keyAt i = heap.keyAt i := fun i hi =>
    congrArg DeadlineEntry.key (pushed_old hi)
  constructor
  · intro i hi hil hne _
    change i < heap.len + 1 at hil
    have hlt : i < heap.len := by omega
    rw [hkey i hlt, hkey _ ((parent_lt hi).trans hlt)]
    exact h i hi hlt
  · exact fun i hi hil hpi => absurd hpi (parent_ne_last hi hil)

theorem belowOk_pushed : BelowOk (heap.pushed new).keyAt (heap.pushed new).len heap.len :=
  fun _ hi hil hpi => absurd hpi (parent_ne_last hi hil)

/-- The new entry is the last by its order, and its thread, which had no entry, records it. -/
theorem Placed.pushed (h : Placed here heap threads) (hroom : heap.len ≠ deadlineCapacity)
    (hid : ∀ i < heap.len, (heap.entries i).id ≠ new.id) (horder : new.order = heap.order)
    {st : ThreadState} (htimers : ∀ j, threads'.timers j = if j = new.id then
      some ⟨some new.deadline, some heap.len, st⟩ else threads.timers j) :
    Placed here (heap.pushed new) threads' := by
  refine ⟨⟨pushed_inj h.recorded.distinct hid, forall_pushed (fun i hi t ht => ?_) fun t ht => ?_⟩,
    fun j t hhere ht hset => ?_, ?_, fun e he => ?_, pushed_inj h.order_inj fun i hi => ?_⟩
  · rw [pushed_old hi, htimers, if_neg (hid i hi)] at ht
    rw [pushed_old hi]
    exact h.recorded.recorded i hi t ht
  · rw [pushed_last, htimers, if_pos rfl] at ht
    obtain rfl := some.inj ht
    rw [pushed_last]
    exact ⟨rfl, rfl⟩
  · by_cases hj : j = new.id
    · exact ⟨new, member_pushed.mpr (.inl rfl), hj.symm⟩
    · rw [htimers, if_neg hj] at ht
      obtain ⟨e, he, hid⟩ := h.known j t hhere ht hset
      exact ⟨e, member_pushed.mpr (.inr he), hid⟩
  · have hlen := h.len_le
    change heap.len + 1 ≤ deadlineCapacity
    omega
  · change e.order < heap.order + 1
    rcases member_pushed.mp he with rfl | he
    · exact lt_succ_of_le horder.le
    · exact lt_succ_of_lt (h.order_lt e he)
  · rw [horder]
    exact (h.order_lt _ ⟨i, hi, rfl⟩).ne

end Pushed

/-- An entry is put into the heap. It comes after every entry that was there before. -/
theorem Timed.insert (h : Timed here heap threads) (deadline : Nat)
    (hcan : heap.canInsert threads id = .ok ()) :
    ∃ heap' threads', heap.insert threads id deadline = (.ok (), heap', threads') ∧
      Timed here heap' threads' ∧
      (∀ e, heap'.Member e ↔ e = ⟨deadline, heap.order, id⟩ ∨ heap.Member e) ∧
      SameStates threads threads' := by
  obtain ⟨timer, htimer, hnone, hindex, hroom⟩ := canInsert_ok hcan
  -- the thread has no entry yet, not even a stale one
  have hfresh : ∀ i < heap.len, (heap.entries i).id ≠ id := by
    intro i hi heq
    have := (h.recorded.recorded i hi timer (heq ▸ htimer)).1
    rw [hnone] at this
    cases this
  let heap₁ := heap.pushed ⟨deadline, heap.order, id⟩
  let threads₁ : Threads n := threads.modify id (·.setDeadline (some deadline) (some heap.len))
  have htimers : ∀ j, threads₁.timers j = if j = id then
      some ⟨some deadline, some heap.len, timer.state⟩ else threads.timers j := by
    intro j
    refine (timers_setDeadline threads id j _ _).trans ?_
    rw [htimer]
    rfl
  obtain ⟨p, heap', threads', heq, hsifted, -, harnd, habove, hsettled⟩ :=
    siftUp_spec (heap.len + 1) heap₁ threads₁ heap.len (lt_succ_self _) (lt_succ_self _)
      (around_pushed h.heaped)
  refine ⟨heap', threads', ?_,
    ⟨hsifted.placed (h.toPlaced.pushed hroom hfresh rfl htimers), ?_, fun i hi => ?_⟩,
    fun e => (hsifted.member_iff e).trans member_pushed, fun j => (hsifted.states j).trans ?_⟩
  · unfold Deadlines.insert
    rw [hcan]
    change (Except.ok (), (siftUp (heap.len + 1) heap₁ threads₁ heap.len).2.1,
      (siftUp (heap.len + 1) heap₁ threads₁ heap.len).2.2) = _
    rw [heq]
  · rw [hsifted.len_eq]
    exact harnd.heaped habove (hsettled belowOk_pushed)
  · rw [hsifted.len_eq] at hi
    change heap.len + 1 ≤ i at hi
    rw [hsifted.rest hi]
    exact (update_of_ne (by omega) _ _).trans (h.rest i (by omega))
  · rw [htimers]
    by_cases hj : j = id
    · rw [if_pos hj, hj, htimer]
      rfl
    · rw [if_neg hj]

/-! ## Removing -/

variable (heap)

/-- The heap in which the last entry took the place of the one at `index`. -/
def filled (index : Nat) : Deadlines :=
  ⟨update heap.entries index (heap.entries (heap.len - 1)), heap.len - 1, heap.order⟩

theorem filled_entries (index i : Nat) :
    (heap.filled index).entries i = heap.entries (if i = index then heap.len - 1 else i) := by
  unfold filled
  by_cases hi : i = index
  · rw [if_pos hi, hi]
    exact update_self _ _ _
  · rw [if_neg hi]
    exact update_of_ne hi _ _

/-- The last step of a removal: the place that became free is cleared, and an empty heap counts
from zero again. -/
def trimmed : Deadlines :=
  ⟨update heap.entries heap.len .empty, heap.len, if heap.len = 0 then 0 else heap.order⟩

theorem trimmed_entries (hi : i < heap.len) : heap.trimmed.entries i = heap.entries i :=
  update_of_ne hi.ne _ _

theorem member_trimmed (e : DeadlineEntry) : heap.trimmed.Member e ↔ heap.Member e := by
  constructor
  · rintro ⟨i, hi, rfl⟩
    exact ⟨i, hi, (trimmed_entries heap hi).symm⟩
  · rintro ⟨i, hi, rfl⟩
    exact ⟨i, hi, trimmed_entries heap hi⟩

variable {heap}

theorem Placed.trimmed (h : Placed here heap threads) (hheaped : Heaped heap.keyAt heap.len)
    (hrest : ∀ i, heap.len < i → heap.entries i = .empty) : Timed here heap.trimmed threads := by
  have hentry := fun {i} (hi : i < heap.len) => trimmed_entries heap hi
  refine ⟨⟨⟨fun i hi j hj heq => ?_, fun i hi t ht => ?_⟩, fun j t hhere ht hset => ?_, h.len_le,
    fun e he => ?_, fun i hi j hj heq => ?_⟩, fun i hi hil => ?_, fun i hi => ?_⟩
  · rw [hentry hi, hentry hj] at heq
    exact h.recorded.distinct i hi j hj heq
  · rw [hentry hi] at ht ⊢
    exact h.recorded.recorded i hi t ht
  · obtain ⟨e, he, hid⟩ := h.known j t hhere ht hset
    exact ⟨e, (member_trimmed heap e).mpr he, hid⟩
  · have hmem := (member_trimmed heap e).mp he
    have hne : heap.len ≠ 0 := by
      obtain ⟨i, hi, -⟩ := hmem
      omega
    change e.order < if heap.len = 0 then 0 else heap.order
    rw [if_neg hne]
    exact h.order_lt e hmem
  · rw [hentry hi, hentry hj] at heq
    exact h.order_inj i hi j hj heq
  · unfold keyAt
    rw [hentry hil, hentry ((parent_lt hi).trans hil)]
    exact hheaped i hi hil
  · by_cases hil : i = heap.len
    · rw [hil]
      exact update_self _ _ _
    · exact (update_of_ne hil _ _).trans (hrest i (lt_of_le_of_ne hi (Ne.symm hil)))

section Removal

variable {index : Nat}

/-- The threads after the entry at `index` went and the last one was recorded in its place. -/
def Unrecorded (heap : Deadlines) (threads threads' : Threads n) (index : Nat) : Prop :=
  ∀ j, threads'.timers j =
    if j = (heap.entries index).id then (threads.timers j).map fun t => ⟨none, none, t.state⟩
    else if j = (heap.entries (heap.len - 1)).id then
      (threads.timers j).map fun t => { t with index := some index }
    else threads.timers j

theorem member_filled (h : Recorded heap threads) (hi : index < heap.len) (e : DeadlineEntry) :
    (heap.filled index).Member e ↔ heap.Member e ∧ e ≠ heap.entries index := by
  constructor
  · rintro ⟨i, hil, rfl⟩
    change i < heap.len - 1 at hil
    rw [filled_entries]
    have hlt : (if i = index then heap.len - 1 else i) < heap.len := by split <;> omega
    refine ⟨⟨_, hlt, rfl⟩, fun heq => ?_⟩
    have := h.distinct _ hlt index hi (congrArg DeadlineEntry.id heq)
    split at this <;> omega
  · rintro ⟨⟨i, hil, rfl⟩, hne⟩
    have hii : i ≠ index := fun heq => hne (heq ▸ rfl)
    by_cases hlast : i = heap.len - 1
    · refine ⟨index, show index < heap.len - 1 by omega, ?_⟩
      rw [filled_entries, if_pos rfl, hlast]
    · refine ⟨i, show i < heap.len - 1 by omega, ?_⟩
      rw [filled_entries, if_neg hii]

theorem Timed.filled (h : Timed here heap threads) (hi : index < heap.len)
    (ht : Unrecorded heap threads threads' index) : Placed here (heap.filled index) threads' := by
  have hmember := member_filled h.recorded hi
  -- the place an entry had before
  have hfrom : ∀ i < heap.len - 1, (if i = index then heap.len - 1 else i) < heap.len ∧
      (if i = index then heap.len - 1 else i) ≠ index := by
    intro i hil
    split <;> omega
  have hinj : ∀ i < heap.len - 1, ∀ j < heap.len - 1,
      (if i = index then heap.len - 1 else i) = (if j = index then heap.len - 1 else j) → i = j := by
    intro i hil j hjl heq
    split at heq <;> split at heq <;> omega
  refine ⟨⟨fun i hil j hjl heq => ?_, fun i hil t htimer => ?_⟩, fun j t hhere htimer hset => ?_,
    (sub_le _ _).trans h.len_le, fun e he => h.order_lt e ((hmember e).mp he).1,
    fun i hil j hjl heq => ?_⟩
  · rw [filled_entries, filled_entries] at heq
    exact hinj i hil j hjl (h.recorded.distinct _ (hfrom i hil).1 _ (hfrom j hjl).1 heq)
  · rw [filled_entries] at htimer ⊢
    have hne : (heap.entries (if i = index then heap.len - 1 else i)).id ≠
        (heap.entries index).id := fun heq =>
      (hfrom i hil).2 (h.recorded.distinct _ (hfrom i hil).1 _ hi heq)
    rw [ht, if_neg hne] at htimer
    by_cases hii : i = index
    · rw [if_pos hii] at htimer ⊢
      rw [if_pos rfl] at htimer
      obtain ⟨old, hold, rfl⟩ := map_eq_some_iff.mp htimer
      exact ⟨(h.recorded.recorded _ (by omega) old hold).1, by rw [hii]⟩
    · rw [if_neg hii] at htimer ⊢
      change i < heap.len - 1 at hil
      rw [if_neg fun heq => by
        have := h.recorded.distinct i (by omega) (heap.len - 1) (by omega) heq
        omega] at htimer
      exact h.recorded.recorded i (by omega) t htimer
  · rw [ht] at htimer
    by_cases hj : j = (heap.entries index).id
    · rw [if_pos hj] at htimer
      obtain ⟨old, -, rfl⟩ := map_eq_some_iff.mp htimer
      rcases hset with hset | hset
      · exact absurd rfl hset
      · exact absurd rfl hset
    · rw [if_neg hj] at htimer
      obtain ⟨e, he, hid⟩ : ∃ e, heap.Member e ∧ e.id = j := by
        by_cases hl : j = (heap.entries (heap.len - 1)).id
        · exact ⟨_, ⟨heap.len - 1, by omega, rfl⟩, hl.symm⟩
        · rw [if_neg hl] at htimer
          exact h.known j t hhere htimer hset
      exact ⟨e, (hmember e).mpr ⟨he, fun heq => hj (by rw [← hid, heq])⟩, hid⟩
  · rw [filled_entries, filled_entries] at heq
    exact hinj i hil j hjl (h.order_inj _ (hfrom i hil).1 _ (hfrom j hjl).1 heq)

theorem around_filled (h : Heaped heap.keyAt heap.len) :
    Around (heap.filled index).keyAt (heap.len - 1) index := by
  have hkey : ∀ i, i ≠ index → (heap.filled index).keyAt i = heap.keyAt i := fun i hi =>
    congrArg DeadlineEntry.key ((filled_entries heap index i).trans (by rw [if_neg hi]))
  constructor
  · intro i hi hil hne hpar
    rw [hkey i hne, hkey _ hpar]
    exact h i hi (by omega)
  · intro i hi hil hpi h0
    have hlt := parent_lt hi
    rw [hkey i (by omega), hkey _ (parent_lt h0).ne]
    exact (h index h0 (by omega)).trans (hpi ▸ h i hi (by omega))

theorem removeAt_last (heap : Deadlines) (threads : Threads n) (hlast : index = heap.len - 1) :
    heap.removeAt threads index = ((heap.filled index).trimmed,
      threads.modify (heap.entries index).id (·.setDeadline none none)) := by
  have hsame : heap.filled index = { heap with len := heap.len - 1 } := by
    unfold Deadlines.filled
    rw [← hlast, update_eq_self]
  unfold Deadlines.removeAt
  dsimp only
  rw [if_neg (not_not_intro hlast), hsame]
  unfold Deadlines.trimmed
  dsimp only
  split <;> rfl

theorem removeAt_move (heap : Deadlines) {p : Nat} {heap₃ heap₄ : Deadlines}
    {threads₃ threads₄ : Threads n} (hlast : index ≠ heap.len - 1)
    (hup : siftUp (index + 1) (heap.filled index) ((heap.filled index).recordIndex
      (threads.modify (heap.entries index).id (·.setDeadline none none)) index) index =
        (p, heap₃, threads₃))
    (hdown : siftDown (heap₃.len + 1) heap₃ threads₃ p = (heap₄, threads₄)) :
    heap.removeAt threads index = (heap₄.trimmed, threads₄) := by
  unfold Deadlines.removeAt
  dsimp only
  rw [if_pos hlast]
  erw [hup]
  dsimp only
  rw [hdown]
  unfold Deadlines.trimmed
  dsimp only
  split <;> rfl

theorem Timed.removeAt (h : Timed here heap threads) (hi : index < heap.len) :
    ∃ heap' threads', heap.removeAt threads index = (heap', threads') ∧ Timed here heap' threads' ∧
      (∀ e, heap'.Member e ↔ heap.Member e ∧ e ≠ heap.entries index) ∧
      heap'.len = heap.len - 1 ∧
      SameStates threads threads' := by
  let threads₁ : Threads n := threads.modify (heap.entries index).id (·.setDeadline none none)
  have htimers₁ : ∀ j, threads₁.timers j = if j = (heap.entries index).id then
      (threads.timers j).map (fun t => ⟨none, none, t.state⟩) else threads.timers j := by
    intro j
    refine (timers_setDeadline threads _ j none none).trans ?_
    by_cases hj : j = (heap.entries index).id
    · rw [if_pos hj, if_pos hj, hj]
    · rw [if_neg hj, if_neg hj]
  have hrest : ∀ i, (heap.filled index).len < i → (heap.filled index).entries i = .empty := by
    intro i hil
    change heap.len - 1 < i at hil
    rw [filled_entries, if_neg (by omega)]
    exact h.rest i (by omega)
  have hstates : ∀ threads₂ : Threads n, Unrecorded heap threads threads₂ index →
      SameStates threads threads₂ := by
    intro threads₂ ht j
    rw [ht]
    split
    · rw [map_map]
      rfl
    · split
      · rw [map_map]
        rfl
      · rfl
  by_cases hlast : index = heap.len - 1
  · -- the last entry goes, and nothing has to move
    have hunrec : Unrecorded heap threads threads₁ index := by
      intro j
      rw [htimers₁]
      by_cases hj : j = (heap.entries index).id
      · rw [if_pos hj, if_pos hj]
      · rw [if_neg hj, if_neg hj, if_neg (hlast ▸ hj)]
    have hheaped : Heaped (heap.filled index).keyAt (heap.filled index).len := by
      unfold Deadlines.filled keyAt
      rw [← hlast, update_eq_self]
      exact fun i hi hil => h.heaped i hi (Nat.lt_of_lt_of_le hil (hlast ▸ sub_le _ _))
    exact ⟨(heap.filled index).trimmed, threads₁, removeAt_last heap threads hlast,
      (h.filled hi hunrec).trimmed hheaped hrest,
      fun e => (member_trimmed _ e).trans (member_filled h.recorded hi e), rfl, hstates _ hunrec⟩
  · let threads₂ : Threads n := (heap.filled index).recordIndex threads₁ index
    have hunrec : Unrecorded heap threads threads₂ index := by
      intro j
      have hne : (heap.entries (heap.len - 1)).id ≠ (heap.entries index).id := fun heq =>
        hlast (h.recorded.distinct _ (by omega) _ hi heq).symm
      refine (timers_recordIndex _ threads₁ index j).trans ?_
      rw [filled_entries, if_pos rfl, htimers₁]
      by_cases hj : j = (heap.entries index).id
      · rw [if_pos hj, if_pos hj, if_neg fun heq => hne (heq.symm.trans hj)]
      · rw [if_neg hj, if_neg hj]
    obtain ⟨p, heap₃, threads₃, hup, hsift₃, hp, haround, habove, -⟩ :=
      siftUp_spec (index + 1) (heap.filled index) threads₂ index (lt_succ_self _)
        (show index < heap.len - 1 by omega) (around_filled h.heaped)
    rw [← hsift₃.len_eq] at haround hp
    obtain ⟨heap₄, threads₄, hdown, hsift₄, hheaped⟩ :=
      siftDown_spec (heap₃.len + 1) heap₃ threads₃ p (by omega) hp haround habove
    have hsift := hsift₃.trans hsift₄
    rw [← hsift₄.len_eq] at hheaped
    refine ⟨heap₄.trimmed, threads₄, removeAt_move heap hlast hup hdown,
      (hsift.placed (h.filled hi hunrec)).trimmed hheaped (fun i hil => ?_),
      fun e => (member_trimmed _ e).trans
        ((hsift.member_iff e).trans (member_filled h.recorded hi e)), hsift.len_eq,
      fun j => (hsift.states j).trans (hstates _ hunrec j)⟩
    rw [hsift.len_eq] at hil
    rw [hsift.rest hil.le]
    exact hrest i hil

end Removal

def Live (threads : Threads n) (e : DeadlineEntry) : Prop := threads.timers e.id ≠ none

theorem live_congr (h : SameStates threads threads')
    (e : DeadlineEntry) : Live threads' e ↔ Live threads e := by
  unfold Live
  have hj := h e.id
  cases h' : threads'.timers e.id <;> cases ht : threads.timers e.id <;> simp_all

theorem get?_of_timers (ht : threads.timers id = some timer) :
    ∃ t, threads.get? id = some t ∧ t.timer = timer :=
  map_eq_some_iff.mp ht

theorem Timed.remove (h : Timed here heap threads) (hlive : threads.timers id = some timer) :
    ∃ heap' threads', heap.remove threads id = (heap', threads') ∧ Timed here heap' threads' ∧
      (∀ e, heap'.Member e ↔ heap.Member e ∧ e.id ≠ id) ∧
      SameStates threads threads' := by
  obtain ⟨t, ht, rfl⟩ := get?_of_timers hlive
  unfold Deadlines.remove
  rw [ht]
  dsimp only
  cases hindex : t.deadlineIndex with
  | none =>
    refine ⟨heap, threads, rfl, h, fun e => ⟨fun he => ⟨he, fun hid => ?_⟩, And.left⟩, fun _ => rfl⟩
    obtain ⟨-, i, -, hi⟩ := h.recorded.deadline_of_member he (hid ▸ hlive)
    exact absurd (hindex.symm.trans hi) (by simp)
  | some index =>
    dsimp only
    by_cases hat : index < heap.len ∧ (heap.entries index).id = id
    · obtain ⟨hi, hid⟩ := hat
      obtain ⟨heap', threads', heq, htimed, hmember, -, hstates⟩ := h.removeAt hi
      refine ⟨heap', threads', ?_, htimed, fun e => (hmember e).trans ?_, hstates⟩
      · rw [if_pos ⟨hi, hid⟩]
        exact heq
      · refine and_congr_right fun he => not_congr ⟨fun heq => heq ▸ hid, fun heq => ?_⟩
        exact h.recorded.member_ext he ⟨_, hi, rfl⟩ (heq.trans hid.symm)
    · -- the index is one of another heap
      rw [if_neg hat]
      refine ⟨heap, threads, rfl, h, fun e => ⟨fun he => ⟨he, fun hid => ?_⟩, And.left⟩,
        fun _ => rfl⟩
      obtain ⟨i, hi, rfl⟩ := he
      have hrecorded : t.deadlineIndex = some i :=
        (h.recorded.recorded i hi t.timer (hid ▸ hlive)).2
      obtain rfl := mem_unique hindex hrecorded
      exact hat ⟨hi, hid⟩

/-! ## Expiring -/

/-- What `expired` answers: nobody, when every thread that waits does so for later, or the thread
of the first entry, which goes. Entries of threads that are gone are dropped on the way. -/
def Expires (now : Nat) (heap : Deadlines) (threads : Threads n) (heap' : Deadlines) :
    Option ThreadId → Prop
  | none => (∀ e, Live threads e → (heap'.Member e ↔ heap.Member e)) ∧
    ∀ e, heap.Member e → Live threads e → now < e.deadline
  | some id => ∃ e, heap.Member e ∧ Live threads e ∧ e.id = id ∧ e.deadline ≤ now ∧
    (∀ e', heap.Member e' → Live threads e' → e.key ≤ e'.key) ∧
    heap'.len < heap.len ∧ ∀ e', Live threads e' → (heap'.Member e' ↔ heap.Member e' ∧ e' ≠ e)

theorem deadline_eq (threads : Threads n) (id : ThreadId) :
    (threads.get? id).bind (·.deadline) = (threads.timers id).bind (·.deadline) := by
  unfold timers
  cases threads.get? id <;> rfl

theorem Timed.root_le (h : Timed here heap threads) (he : heap.Member e) :
    (heap.entries 0).key ≤ e.key := by
  obtain ⟨i, hi, rfl⟩ := he
  exact h.heaped.root_le i hi

theorem Timed.expiredLoop (now fuel : Nat) : ∀ (heap : Deadlines) (threads : Threads n),
    Timed here heap threads → heap.len < fuel →
    ∃ answer heap' threads', expiredLoop now fuel heap threads = (answer, heap', threads') ∧
      Timed here heap' threads' ∧ (∀ e, heap'.Member e → heap.Member e) ∧
      Expires now heap threads heap' answer ∧
      SameStates threads threads' := by
  induction fuel with
  | zero => exact fun _ _ _ hfuel => absurd hfuel (Nat.not_lt_zero _)
  | succ fuel ih =>
    intro heap threads h hfuel
    unfold Deadlines.expiredLoop
    by_cases h0 : heap.len = 0
    · rw [if_pos h0]
      refine ⟨none, heap, threads, rfl, h, fun _ => id, ⟨fun _ _ => Iff.rfl, ?_⟩, fun _ => rfl⟩
      rintro e ⟨i, hi, -⟩
      omega
    have hpos := Nat.pos_of_ne_zero h0
    have hroot : heap.Member (heap.entries 0) := ⟨0, hpos, rfl⟩
    obtain ⟨heap₁, threads₁, hremove, htimed₁, hmember₁, hlen₁, hstates₁⟩ := h.removeAt hpos
    rw [if_neg h0]
    dsimp only
    rw [deadline_eq]
    by_cases hlive : Live threads (heap.entries 0)
    · obtain ⟨timer, htimer⟩ := ne_none_iff_exists'.mp hlive
      have hdeadline := (h.recorded.deadline_of_member hroot htimer).1
      rw [if_neg (by rw [htimer]; simpa using hdeadline)]
      by_cases hlater : now < (heap.entries 0).deadline
      · rw [if_pos hlater]
        refine ⟨none, heap, threads, rfl, h, fun _ => id, ⟨fun _ _ => Iff.rfl, fun e he _ => ?_⟩,
          fun _ => rfl⟩
        have hle : (heap.entries 0).deadline ≤ e.deadline := by
          have := h.root_le he
          unfold DeadlineEntry.key at this
          rw [Prod.Lex.toLex_le_toLex] at this
          rcases this with hlt | ⟨heq, -⟩
          · exact hlt.le
          · exact heq.le
        omega
      · rw [if_neg hlater, hremove]
        refine ⟨_, heap₁, threads₁, rfl, htimed₁, fun e he => ((hmember₁ e).mp he).1,
          ⟨heap.entries 0, hroot, hlive, rfl, Nat.le_of_not_lt hlater, fun e' he' _ => h.root_le he',
            by omega,
          fun e' _ => hmember₁ e'⟩, hstates₁⟩
    · -- a stale entry is dropped, and the search goes on
      rw [if_pos (by
        rw [Live, not_not] at hlive
        rw [hlive]
        simp), hremove]
      dsimp only
      obtain ⟨answer, heap₂, threads₂, heq, htimed₂, hsub₂, hexpires, hstates₂⟩ :=
        ih heap₁ threads₁ htimed₁ (by omega)
      have hsame : ∀ e, Live threads e → (heap₁.Member e ↔ heap.Member e) := by
        intro e he
        rw [hmember₁]
        exact ⟨And.left, fun hm => ⟨hm, fun heq => hlive (heq ▸ he)⟩⟩
      have hlives := live_congr hstates₁
      refine ⟨answer, heap₂, threads₂, heq, htimed₂, fun e he => ((hmember₁ e).mp (hsub₂ e he)).1,
        ?_, fun j => (hstates₂ j).trans (hstates₁ j)⟩
      cases answer with
      | none =>
        refine ⟨fun e he => (hexpires.1 e ((hlives e).mpr he)).trans (hsame e he),
          fun e hm he => hexpires.2 e ((hsame e he).mpr hm) ((hlives e).mpr he)⟩
      | some id =>
        obtain ⟨e, hm, he, hid, hle, hleast, hlt, hrest⟩ := hexpires
        have he' := (hlives e).mp he
        refine ⟨e, (hsame e he').mp hm, he', hid, hle, fun e₁ hm₁ he₁ =>
          hleast e₁ ((hsame e₁ he₁).mpr hm₁) ((hlives e₁).mpr he₁), by omega, fun e₁ he₁ => ?_⟩
        rw [hrest e₁ ((hlives e₁).mpr he₁), hsame e₁ he₁]

theorem Timed.expired (h : Timed here heap threads) (now : Nat) :
    ∃ answer heap' threads', heap.expired threads now = (answer, heap', threads') ∧
      Timed here heap' threads' ∧ (∀ e, heap'.Member e → heap.Member e) ∧
      Expires now heap threads heap' answer ∧
      SameStates threads threads' :=
  Timed.expiredLoop now (heap.len + 1) heap threads h (lt_succ_self _)

end Deadlines

end Audhsos
