import Audhsos.User.MemoryStoreSpec

/-!
The invariant of the free list, and the operations on it. The list stays sorted by address, and with
the objects not in it shares out the adopted bytes. A piece in hand is one of those until it is
inserted.
-/

namespace Audhsos.MemoryServer

open Lib List Prog

variable {freeRoom liveRoom : Nat}

/-- The free list is sorted, has room, and with `others` shares out the adopted bytes. -/
structure FreeInv (adopted : Nat → Prop) (others : List Object)
    (state : State freeRoom liveRoom) : Prop where
  sorted : state.store.free.Pairwise fun a b => a.start ≤ b.start
  owns : Owns state.pages (others ++ state.store.free) adopted
  room : state.store.free.length ≤ freeRoom

namespace FreeInv

variable {adopted : Nat → Prop} {others : List Object} {state after : State freeRoom liveRoom}

theorem perm {others' : List Object} (h : FreeInv adopted others state)
    (hperm : others.Perm others') : FreeInv adopted others' state :=
  ⟨h.sorted, h.owns.perm (hperm.append_right _), h.room⟩

theorem later (h : FreeInv adopted others state) (hfree : after.store.free = state.store.free)
    (hlater : Later state.pages after.pages) : FreeInv adopted others after := by
  refine ⟨?_, ?_, ?_⟩ <;> rw [hfree]
  · exact h.sorted
  · exact h.owns.later hlater
  · exact h.room

end FreeInv

namespace Store

variable {adopted : Nat → Prop} {others : List Object} {state : State freeRoom liveRoom}

/-! ## Inserting -/

/-- A list is cut where the first member that satisfies `p` stands. -/
theorem insertIdx_first (p : Object → Bool) (object : Object) (free : List Object) :
    ∃ front back, free = front ++ back ∧
      free.insertIdx ((free.findIdx? p).getD free.length) object = front ++ object :: back ∧
      (∀ other ∈ front, p other = false) ∧ ∀ other, back.head? = some other → p other = true := by
  induction free with
  | nil => exact ⟨[], [], rfl, rfl, by simp, by simp⟩
  | cons first free ih =>
    cases hp : p first with
    | true => exact ⟨[], first :: free, rfl, by simp [findIdx?_cons, hp], by simp, by simpa⟩
    | false =>
      obtain ⟨front, back, hsplit, hinsert, hfront, hback⟩ := ih
      refine ⟨first :: front, back, by rw [hsplit, cons_append], ?_, ?_, hback⟩
      · rw [findIdx?_cons, hp]
        cases hfind : free.findIdx? p with
        | none =>
          rw [hfind] at hinsert
          simpa using hinsert
        | some index =>
          rw [hfind] at hinsert
          simpa using hinsert
      · intro other hmem
        rcases mem_cons.mp hmem with rfl | hmem
        · exact hp
        · exact hfront other hmem

/-- A free object is inserted where its address belongs, unless the list is full. -/
theorem insertFree_spec (object : Object) (h : FreeInv adopted (object :: others) state) :
    (insertFree object).wp (fun answer after => match answer with
      | .ok () => FreeInv adopted others after ∧ after.store.live = state.store.live ∧
          after.store.free.length = state.store.free.length + 1 ∧
          after.store.quota = state.store.quota ∧ after.pages = state.pages
      | .error _ => after = state ∧ freeRoom ≤ state.store.free.length) state := by
  unfold insertFree
  refine wp_get_bind.mpr ?_
  refine wp_require_bind.mpr ⟨fun hroom => ?_, fun hfull => ⟨rfl, not_lt.mp hfull⟩⟩
  obtain ⟨front, back, hsplit, hinsert, hfront, hback⟩ :=
    insertIdx_first (fun other => object.start < other.start) object state.store.free
  refine wp_modify.mpr ⟨⟨?_, ?_, ?_⟩, rfl, ?_, rfl, rfl⟩
  · have hsorted := h.sorted
    rw [hsplit] at hsorted
    obtain ⟨hf, hb, hcross⟩ := pairwise_append.mp hsorted
    rw [hinsert]
    refine pairwise_append.mpr ⟨hf, pairwise_cons.mpr ⟨fun other hmem => ?_, hb⟩,
      fun a ha b hb => ?_⟩
    · cases back with
      | nil => simp at hmem
      | cons first back =>
        have hlt := hback first rfl
        simp only [decide_eq_true_eq] at hlt
        rcases mem_cons.mp hmem with rfl | hmem
        · exact hlt.le
        · exact hlt.le.trans ((pairwise_cons.mp hb).1 other hmem)
    · rcases mem_cons.mp hb with rfl | hb
      · have := hfront a ha
        simp only [decide_eq_false_iff_not] at this
        omega
      · exact hcross a ha b hb
  · change Owns _ (others ++ insertIdx _ _ _) _
    rw [hinsert]
    refine h.owns.perm ?_
    have hperm : (others ++ front ++ object :: back).Perm (object :: (others ++ front ++ back)) :=
      perm_middle
    rw [hsplit]
    simpa using hperm.symm
  · change (insertIdx _ _ _).length ≤ _
    rw [hinsert]
    rw [hsplit] at hroom
    simp at hroom ⊢
    omega
  · change (insertIdx _ _ _).length = _
    rw [hinsert, hsplit]
    simp
    omega

/-! ## Joining -/

/-- What joining leaves: the invariant, what is held, and no more free objects than before. -/
structure Joined (adopted : Nat → Prop) (others : List Object)
    (before after : State freeRoom liveRoom) : Prop where
  inv : FreeInv adopted others after
  live : after.store.live = before.store.live
  quota : after.store.quota = before.store.quota
  length_le : after.store.free.length ≤ before.store.free.length
  later : Later before.pages after.pages

theorem Joined.trans {a b c : State freeRoom liveRoom} (hab : Joined adopted others a b)
    (hbc : Joined adopted others b c) : Joined adopted others a c :=
  ⟨hbc.inv, hbc.live.trans hab.live, hbc.quota.trans hab.quota, hbc.length_le.trans hab.length_le,
    hab.later.trans hbc.later⟩

theorem Joined.refl (h : FreeInv adopted others state) : Joined adopted others state state :=
  ⟨h, rfl, rfl, le_rfl, .refl _⟩

theorem split_two {free : List Object} {index : Nat} {lower upper : Object}
    (hlower : free[index]? = some lower) (hupper : free[index + 1]? = some upper) :
    ∃ front back, free = front ++ lower :: upper :: back ∧ front.length = index := by
  induction free generalizing index with
  | nil => simp at hlower
  | cons first free ih =>
    cases index with
    | zero =>
      obtain rfl : first = lower := by simpa using hlower
      cases free with
      | nil => simp at hupper
      | cons second free =>
        obtain rfl : second = upper := by simpa using hupper
        exact ⟨[], free, rfl, rfl⟩
    | succ index =>
      obtain ⟨front, back, rfl, rfl⟩ := ih (by simpa using hlower) (by simpa using hupper)
      exact ⟨first :: front, back, rfl, rfl⟩

theorem join_two (front back : List Object) (lower upper joined : Object) :
    ((((front ++ lower :: upper :: back).eraseIdx (front.length + 1)).eraseIdx
      front.length).insertIdx front.length joined) = front ++ joined :: back := by
  induction front with
  | nil => rfl
  | cons first front ih => simpa using ih

theorem joinAt_spec (index : Nat) (h : FreeInv adopted others state) :
    (joinAt index).wp (fun answer after => answer = .ok () ∧ Joined adopted others state after)
      state := by
  have hsame := Joined.refl h
  unfold joinAt
  refine wp_get_bind.mpr ?_
  dsimp only
  cases hlower : state.store.free[index]? with
  | none => exact ⟨rfl, hsame⟩
  | some lower =>
    cases hupper : state.store.free[index + 1]? with
    | none => exact ⟨rfl, hsame⟩
    | some upper =>
      dsimp only
      split
      swap
      · exact ⟨rfl, hsame⟩
      rename_i htouch
      refine wp_bind.mpr (wp_attempt.mpr ((quiet_merge _ _).wp state |>.mono
        fun answer after hquiet => ⟨fun answer' hanswer => ?_, nofun⟩))
      obtain rfl : answer = answer' := Except.ok.inj hanswer
      obtain ⟨hstore, hlater⟩ := hquiet
      have hafter : FreeInv adopted others after := h.later (by rw [hstore]) hlater
      have hkept : Joined adopted others state after :=
        ⟨hafter, by rw [hstore], by rw [hstore], by rw [hstore], hlater⟩
      cases answer with
      | error e => exact ⟨rfl, hkept⟩
      | ok =>
        obtain ⟨front, back, hfree, rfl⟩ := split_two hlower hupper
        have hmem : lower ∈ others ++ state.store.free ∧ upper ∈ others ++ state.store.free := by
          simp [hfree]
        have hknown := (h.owns.known lower hmem.1).later hlater
        have hknown' := (h.owns.known upper hmem.2).later hlater
        have hend := hknown'.end_lt
        rw [hknown.end_eq] at htouch
        have hlen : min (lower.len + upper.len) (u64Size - 1) = lower.len + upper.len := by omega
        refine ⟨rfl, ?_⟩
        change Joined adopted others state { after with store := { after.store with free := _ } }
        rw [hfree, join_two, hlen]
        refine ⟨⟨?_, ?_, ?_⟩, hkept.live, hkept.quota, ?_, hlater⟩
        · have hsorted := h.sorted
          rw [hfree] at hsorted
          obtain ⟨hf, hb, hcross⟩ := pairwise_append.mp hsorted
          obtain ⟨hl, hb⟩ := pairwise_cons.mp hb
          refine pairwise_append.mpr ⟨hf, pairwise_cons.mpr
            ⟨fun other hmem => hl other (mem_cons_of_mem _ hmem),
              (pairwise_cons.mp hb).2⟩, fun a ha b hb => ?_⟩
          rcases mem_cons.mp hb with rfl | hb
          · exact hcross a ha lower mem_cons_self
          · exact hcross a ha b (mem_cons_of_mem _ (mem_cons_of_mem _ hb))
        · have howns := h.owns.later hlater
          rw [hfree] at howns
          have hperm : (others ++ (front ++ lower :: upper :: back)).Perm
              (lower :: upper :: (others ++ (front ++ back))) := by
            rw [← append_assoc, ← append_assoc]
            exact perm_middle.trans (perm_middle.cons _)
          obtain ⟨joined, hjoined⟩ : ∃ joined : Object,
              joined = ⟨lower.handle, lower.start, lower.len + upper.len⟩ := ⟨_, rfl⟩
          have hperm' : (joined :: (others ++ (front ++ back))).Perm
              (others ++ (front ++ joined :: back)) := by
            rw [← append_assoc, ← append_assoc]
            exact perm_middle.symm
          have hbytes : ∀ byte, joined.Has byte ↔ lower.Has byte ∨ upper.Has byte := by
            intro byte
            rw [hjoined]
            simp only [Object.Has]
            omega
          have hnew : joined.Known after.pages := by
            rw [hjoined]
            exact ⟨by simp only; omega, hknown.base, hknown.old⟩
          rw [← hjoined]
          exact ((howns.perm hperm).join hbytes hnew).perm hperm'
        · have hroom := h.room
          rw [hfree] at hroom
          simp only [length_append, length_cons] at hroom ⊢
          omega
        · simp only [hfree, length_append, length_cons]
          omega

theorem joinAround_spec (start : Nat) (h : FreeInv adopted others state) :
    (joinAround start).wp (fun answer after => answer = .ok () ∧
      Joined adopted others state after) state := by
  unfold joinAround
  refine wp_get_bind.mpr ?_
  cases state.store.free.findIdx? (·.start = start) with
  | none => exact ⟨rfl, Joined.refl h⟩
  | some index =>
    refine wp_bind.mpr ((joinAt_spec index h).mono fun answer after hjoined =>
      ⟨fun _ _ => ?_, fun e he => ?_⟩)
    · split
      · exact ⟨rfl, hjoined.2⟩
      · exact (joinAt_spec _ hjoined.2.inv).mono fun _ _ hnext => ⟨hnext.1, hjoined.2.trans hnext.2⟩
    · rw [hjoined.1] at he
      cases he

theorem putFree_spec (object : Object) (h : FreeInv adopted (object :: others) state) :
    (putFree object).wp (fun answer after => match answer with
      | .ok () => FreeInv adopted others after ∧ after.store.live = state.store.live ∧
          after.store.quota = state.store.quota ∧ Later state.pages after.pages
      | .error _ => after = state ∧ freeRoom ≤ state.store.free.length) state := by
  unfold putFree
  refine wp_bind.mpr ((insertFree_spec object h).mono fun answer after hinsert =>
    ⟨fun _ hanswer => ?_, fun e he => ?_⟩)
  · subst hanswer
    obtain ⟨hinv, hlive, -, hquota, hpages⟩ := hinsert
    refine (joinAround_spec object.start hinv).mono fun answer' after' hjoined => ?_
    obtain ⟨rfl, hjoined⟩ := hjoined
    exact ⟨hjoined.inv, hjoined.live.trans hlive, hjoined.quota.trans hquota,
      hpages ▸ hjoined.later⟩
  · subst he
    exact hinsert

theorem restore_spec (piece : Object) (h : FreeInv adopted (piece :: others) state)
    (hroom : state.store.free.length < freeRoom) :
    FreeInv adopted others (restore piece state).2 ∧
      (restore piece state).2.store.live = state.store.live ∧
      (restore piece state).2.store.quota = state.store.quota := by
  have hput := putFree_spec piece h
  unfold wp at hput
  unfold restore Prog.ignore
  generalize putFree piece state = answer at hput ⊢
  obtain ⟨e | _, after⟩ := answer
  · exact absurd hput.2 (by omega)
  · exact ⟨hput.1, hput.2.1, hput.2.2.1⟩

end Store

end Audhsos.MemoryServer
