import Mathlib.Data.List.Pairwise
import Audhsos.Virtio.QueueChain

/-!
The virtqueue against a device that stores what it likes in the used ring.

- `Driver.Sound`: the chains of the published heads share out the descriptors that are not free.
- `Driver.add_spec`, `Driver.nextUsed_spec`: the two calls keep it.
- `Call.step`: a call with the record of what is outstanding, kept from the answers alone.
-/

namespace Audhsos.Virtio

open Lib Prog BitSet List Bytes

variable {words : Nat}

namespace Driver

variable {driver : Driver words} {body : List Nat} {buffers : List Buffer} {start : Driver words}
  {i size head : Nat}

/-! ## add -/

/-- What a refused call leaves as it was: the queue, the rings, and the descriptors in use. -/
structure Untouched (start after : Driver words) : Prop where
  queue : after.queue = start.queue
  steps : ∀ i, start.queue.free.test i ≠ some true →
    Descriptor.stepOf after.memory.descriptorTable i =
      Descriptor.stepOf start.memory.descriptorTable i
  size : after.memory.descriptorTable.size = start.memory.descriptorTable.size
  availableRing : after.memory.availableRing = start.memory.availableRing
  usedRing : after.memory.usedRing = start.memory.usedRing

theorem Untouched.refl (driver : Driver words) : Untouched driver driver :=
  ⟨rfl, fun _ _ => rfl, rfl, rfl, rfl⟩

theorem Building.untouched {now next : Driver words} (h : Building start now body buffers)
    (hqueue : next.queue = start.queue) (hmemory : next.memory = now.memory) :
    Untouched start next := by
  refine ⟨hqueue, fun i hi => ?_, ?_, ?_, ?_⟩ <;> rw [hmemory]
  · exact h.frame i fun hmem => hi (h.free i hmem)
  · exact h.size
  · exact h.availableRing
  · exact h.usedRing

/-- The loop of `add` builds the whole chain, or takes apart what it has built. -/
theorem addLoop_spec (hready : start.Ready)
    (hheads : ∀ i, start.queue.free.test i = some true → start.queue.heads.test i ≠ some true)
    (needed : Nat) (todo : List Buffer) :
    ∀ (now : Driver words) (body : List Nat) (done : List Buffer), Building start now body done →
      writableBytes (done ++ todo) < u32Size →
      match addLoop needed todo body.head? body.getLast? now with
      | (.ok head, after) => ∃ body', Building start after body' (done ++ todo) ∧
          body'.head? = head
      | (.error _, after) => Untouched start after := by
  induction todo with
  | nil =>
    intro now body done h _
    rw [append_nil]
    exact ⟨body, h, rfl⟩
  | cons buffer todo ih =>
    intro now body done h hbytes
    have hqueue := h.queue
    have hfree : ∀ i, now.queue.free.test i = some true → i < now.queue.size := by
      intro i hi
      rw [hqueue] at hi ⊢
      exact hready.free_lt i ((test_clearMany _ _ _).mp hi).2
    have hsize : now.queue.size < u16Size := by
      rw [hqueue]
      exact hready.size_lt
    unfold addLoop
    rcases takeFree_cases hfree hsize with ⟨htake, -⟩ | ⟨index, hindex, htake⟩
    · rw [run_bind_ok htake]
      dsimp only
      cases hhead : body.head? with
      | none =>
        obtain rfl : body = [] := head?_eq_none_iff.mp hhead
        refine h.untouched ?_ rfl
        rw [hqueue]
        rfl
      | some started =>
        have hmem := mem_of_head? hhead
        have hdone : writableBytes done < u32Size := by
          simp only [writableBytes, map_append, sum_append] at hbytes ⊢
          omega
        obtain ⟨writable, next, hrun, hback, hmemory⟩ :=
          h.undo hready hhead (hheads started (h.free started hmem)) hdone
        have := h.untouched hback hmemory
        dsimp only
        rw [run_bind_ok hrun]
        exact this
    · obtain ⟨next, hnext, hplace⟩ := h.take hready buffer hindex
      rw [run_bind_ok htake]
      dsimp only
      rw [run_bind_ok hplace]
      have hhead : (body.head?.or (some index)) = (body ++ [index]).head? := by cases body <;> rfl
      have hstep := ih next (body ++ [index]) (done ++ [buffer]) hnext (by simpa using hbytes)
      rw [getLast?_append, append_assoc, singleton_append] at hstep
      rw [hhead]
      exact hstep

/-- The driver with another available ring. -/
def withAvailable (driver : Driver words) (ring : Bytes) : Driver words :=
  { driver with memory := { driver.memory with availableRing := ring } }

theorem writeAvailable_store {start : Nat} (value : Nat)
    (h : start + 2 ≤ driver.memory.availableRing.size) :
    writeAvailable (·.writeU16 .availableRing start value) driver =
      (.ok (), driver.withAvailable (driver.memory.availableRing.store start 2 value)) := by
  simp only [writeAvailable, writeU16, write_eq h]
  rfl

theorem publish_cases (driver : Driver words) (head : Nat) :
    (∃ ring, publish head driver = (.ok (), ⟨{ driver.queue with
        heads := (driver.queue.heads.set head).2
        availIdx := (driver.queue.availIdx + 1) % u16Size
        inFlight := min (driver.queue.inFlight + 1) (u16Size - 1) },
      { driver.memory with availableRing := ring }⟩)) ∨
    ∃ e, publish head driver = (.error e, driver) := by
  have hget : (Prog.get : Prog QueueError (Driver words) _) driver = (.ok driver, driver) := rfl
  obtain ⟨slot, hslot⟩ : ∃ slot,
      slot = availableElementAt (driver.queue.availIdx &&& driver.queue.mask) := ⟨_, rfl⟩
  rcases Nat.lt_or_ge driver.memory.availableRing.size (slot + 2) with h | h
  · refine .inr ⟨.region .availableRing (slot + 2) driver.memory.availableRing.size,
      (run_bind_ok hget).trans (run_bind_error ?_)⟩
    rw [← hslot]
    simp only [writeAvailable, writeU16, write, if_neg (not_le.mpr h)]
  -- the entry of the ring lies behind the index, so the index can be written too
  have hindex : indexAt + 2 ≤ (driver.withAvailable
      (driver.memory.availableRing.store slot 2 head)).memory.availableRing.size := by
    simp only [withAvailable, indexAt, size_store, hslot, availableElementAt,
      ringHeaderBytes] at h ⊢
    omega
  refine .inl ⟨(driver.memory.availableRing.store slot 2 head).store indexAt 2
    ((driver.queue.availIdx + 1) % u16Size), (run_bind_ok hget).trans ?_⟩
  rw [← hslot]
  refine (run_bind_ok (writeAvailable_store _ h)).trans ?_
  exact (run_bind_ok (writeAvailable_store _ hindex)).trans rfl

/-! ## The invariant -/

/-- A chain that has been published: its descriptors and its buffers. -/
structure Published where
  body : List Nat
  buffers : List Buffer

variable {out : List Published}

/-- The published chains share out the descriptors that are not free. -/
structure Sound (driver : Driver words) (out : List Published) : Prop where
  size_lt : driver.queue.size < u16Size
  size_le : driver.queue.size ≤ 64 * words
  chained : ∀ chain ∈ out, chain.body ≠ [] ∧
    Chained driver.memory.descriptorTable chain.body chain.buffers
  bytes : ∀ chain ∈ out, writableBytes chain.buffers < u32Size
  nodup : (out.flatMap (·.body)).Nodup
  lt : ∀ i ∈ out.flatMap (·.body), i < driver.queue.size
  free : ∀ i, driver.queue.free.test i = some true ↔
    i < driver.queue.size ∧ i ∉ out.flatMap (·.body)
  heads : ∀ i, driver.queue.heads.test i = some true ↔
    ∃ chain ∈ out, chain.body.head? = some i
  inFlight : driver.queue.inFlight = out.length

variable {chain : Published}

theorem mem_bodies (hmem : chain ∈ out) (hi : i ∈ chain.body) : i ∈ out.flatMap (·.body) :=
  mem_flatMap.mpr ⟨chain, hmem, hi⟩

/-- Chains of descriptors below `size` that share none are at most `size` together. -/
theorem bodies_length_le
    (hnodup : (out.flatMap (·.body)).Nodup) (hlt : ∀ i ∈ out.flatMap (·.body), i < size) :
    (out.flatMap (·.body)).length ≤ size := by
  have hsub : out.flatMap (·.body) ⊆ List.range size := fun i hi => mem_range.mpr (hlt i hi)
  have := (subperm_of_subset hnodup hsub).length_le
  rwa [length_range] at this

theorem length_le_bodies (out : List Published) (h : ∀ chain ∈ out, chain.body ≠ []) :
    out.length ≤ (out.flatMap (·.body)).length := by
  induction out with
  | nil => simp
  | cons chain out ih =>
    have hpos := length_pos_of_ne_nil (h chain mem_cons_self)
    have := ih fun other hmem => h other (mem_cons_of_mem _ hmem)
    simp only [flatMap_cons, length_append, length_cons]
    omega

/-- A call that leaves the descriptors in use as they were keeps the invariant. -/
theorem Sound.untouched {after : Driver words}
    (h : Sound start out) (hsame : Untouched start after) : Sound after out := by
  obtain ⟨hqueue, hsteps, -, -, -⟩ := hsame
  refine ⟨hqueue ▸ h.size_lt, hqueue ▸ h.size_le, fun chain hmem => ?_, h.bytes, h.nodup,
    hqueue ▸ h.lt, hqueue ▸ h.free, hqueue ▸ h.heads, hqueue ▸ h.inFlight⟩
  refine ⟨(h.chained chain hmem).1, (h.chained chain hmem).2.congr fun i hi => hsteps i ?_⟩
  exact fun hfree => ((h.free i).mp hfree).2 (mem_bodies hmem hi)

theorem Sound.head_not_free (h : Sound driver out) (hi : driver.queue.free.test i = some true) :
    driver.queue.heads.test i ≠ some true := by
  intro hhead
  obtain ⟨chain, hmem, hchain⟩ := (h.heads i).mp hhead
  exact ((h.free i).mp hi).2 (mem_bodies hmem (mem_of_head? hchain))

/-- The sum that `add` bounds is not below what the device may write. -/
theorem writable_le_bytes (buffers : List Buffer) (total : Nat)
    (h : buffers.foldl (fun total buffer => min (total + buffer.length) (u64Size - 1)) total <
      u32Size) : total + writableBytes buffers < u32Size := by
  induction buffers generalizing total with
  | nil => simpa [writableBytes] using h
  | cons buffer buffers ih =>
    have hrest := ih (min (total + buffer.length) (u64Size - 1)) h
    have hu : u32Size ≤ u64Size - 1 := by decide
    have hsum : writableBytes (buffer :: buffers) ≤ buffer.length + writableBytes buffers := by
      simp only [writableBytes, map_cons, sum_cons]
      split <;> omega
    omega

section

variable {start now : Driver words} {out : List Published} {body : List Nat} {buffers : List Buffer}
  {head : Nat} (h : Sound start out)
include h

theorem Sound.publish (hbuilt : Building start now body buffers) (hhead : body.head? = some head)
    (hbytes : writableBytes buffers < u32Size) (ring : Bytes) (next : Nat) :
    Sound ⟨{ now.queue with
        heads := (now.queue.heads.set head).2
        availIdx := next
        inFlight := min (now.queue.inFlight + 1) (u16Size - 1) },
      { now.memory with availableRing := ring }⟩ (⟨body, buffers⟩ :: out) := by
  have hlt : ∀ i ∈ body, i < start.queue.size := fun i hi => ((h.free i).mp (hbuilt.free i hi)).1
  have hnot : ∀ i ∈ body, i ∉ out.flatMap (·.body) :=
    fun i hi => ((h.free i).mp (hbuilt.free i hi)).2
  have hmem := mem_of_head? hhead
  have hnodup : ((⟨body, buffers⟩ :: out : List Published).flatMap (·.body)).Nodup := by
    rw [flatMap_cons, nodup_append]
    exact ⟨hbuilt.nodup, h.nodup, fun a ha b hb hab => hnot a ha (hab ▸ hb)⟩
  have hall : ∀ i ∈ (⟨body, buffers⟩ :: out : List Published).flatMap (·.body),
      i < start.queue.size := by
    intro i hi
    rw [flatMap_cons, mem_append] at hi
    exact hi.elim (hlt i) (h.lt i)
  have hlength : out.length + 1 ≤ start.queue.size :=
    (length_le_bodies (⟨body, buffers⟩ :: out) fun chain hchain => by
      rcases mem_cons.mp hchain with rfl | hchain
      · exact ne_nil_of_mem hmem
      · exact (h.chained chain hchain).1).trans (bodies_length_le hnodup hall)
  have hsize := h.size_lt
  simp only [hbuilt.queue]
  refine ⟨h.size_lt, h.size_le, fun chain hchain => ?_, fun chain hchain => ?_, hnodup, hall,
    fun i => ?_, fun i => ?_, ?_⟩
  · rcases mem_cons.mp hchain with rfl | hchain
    · exact ⟨ne_nil_of_mem hmem, hbuilt.chained⟩
    · refine ⟨(h.chained chain hchain).1, (h.chained chain hchain).2.congr fun i hi =>
        hbuilt.frame i fun hbody => hnot i hbody (mem_bodies hchain hi)⟩
  · rcases mem_cons.mp hchain with rfl | hchain
    · exact hbytes
    · exact h.bytes chain hchain
  · rw [test_clearMany, h.free, flatMap_cons, mem_append]
    tauto
  · rw [test_set]
    have hcap : head < 64 * words := (hlt head hmem).trans_le h.size_le
    by_cases hi : i = head
    · subst hi
      simp [hcap, hhead]
    · rw [if_neg fun e => hi e.1, h.heads]
      simp only [mem_cons, exists_eq_or_imp, hhead, Option.some.injEq]
      exact ⟨fun hex => .inr hex, fun hor => hor.resolve_left fun e => hi e.symm⟩
  · change min (start.queue.inFlight + 1) (u16Size - 1) = _
    rw [h.inFlight, length_cons]
    omega

theorem publishOrFree_spec (hready : start.Ready)
    (hbuilt : Building start now body buffers) (hhead : body.head? = some head)
    (hbytes : writableBytes buffers < u32Size) :
    (publishOrFree head).wp (fun answer after => match answer with
      | .ok head => ∃ body, body.head? = some head ∧ Sound after (⟨body, buffers⟩ :: out)
      | .error _ => Untouched start after) now := by
  unfold wp publishOrFree
  rcases publish_cases now head with ⟨ring, hpublish⟩ | ⟨e, hpublish⟩ <;> rw [hpublish]
  · exact ⟨body, hhead, h.publish hbuilt hhead hbytes ring _⟩
  have hfree := hbuilt.free head (mem_of_head? hhead)
  obtain ⟨writable, next, hrun, hback, hmemory⟩ :=
    hbuilt.undo hready hhead (h.head_not_free hfree) hbytes
  dsimp only
  rw [hrun]
  exact hbuilt.untouched hback hmemory

end

/-- `add` publishes a chain of the buffers, or leaves the queue as it was. -/
theorem add_spec (h : Sound driver out) (device : Phase) (buffers : List Buffer) :
    (add device buffers).wp (fun answer after => match answer with
      | .ok head => ∃ body, body.head? = some head ∧ Sound after (⟨body, buffers⟩ :: out)
      | .error _ => Untouched driver after) driver := by
  have hsame := Untouched.refl driver
  unfold add
  refine wp_require_bind.mpr ⟨fun _ => ?_, fun _ => hsame⟩
  refine wp_get_bind.mpr ?_
  refine wp_require_bind.mpr ⟨fun _ => ?_, fun _ => hsame⟩
  refine wp_require_bind.mpr ⟨fun _ => ?_, fun _ => hsame⟩
  refine wp_require_bind.mpr ⟨fun hbytes => ?_, fun _ => hsame⟩
  refine wp_bind.mpr (wp_ofExcept.mpr ⟨fun _ hcheck => ?_, fun _ _ => hsame⟩)
  have hready : driver.Ready := by
    refine ⟨h.size_lt, h.size_le, fun i hi => ((h.free i).mp hi).1, ?_⟩
    by_contra hshort
    rw [checkTable, if_pos (by simpa using hshort)] at hcheck
    cases hcheck
  have hwritable : writableBytes buffers < u32Size := by
    simpa using writable_le_bytes buffers 0 hbytes
  have hloop := addLoop_spec hready (fun i => h.head_not_free) buffers.length buffers driver [] []
    (Building.refl driver) hwritable
  rw [head?_nil, getLast?_nil, nil_append] at hloop
  refine wp_bind.mpr ?_
  unfold wp
  generalize addLoop buffers.length buffers none none driver = answer at hloop ⊢
  obtain ⟨e | head, now⟩ := answer
  · exact ⟨by simp, fun _ _ => hloop⟩
  obtain ⟨body, hbuilt, hhead⟩ := hloop
  refine ⟨fun head' hhead' => ?_, nofun⟩
  obtain rfl : head = head' := Except.ok.inj hhead'
  cases head with
  | none =>
    obtain rfl : body = [] := head?_eq_none_iff.mp hhead
    have hqueue : now.queue = driver.queue := hbuilt.queue
    exact hbuilt.untouched hqueue rfl
  | some head => exact publishOrFree_spec h hready hbuilt hhead hwritable

/-! ## nextUsed -/

variable {front back : List Published}

theorem Sound.take (h : Sound driver (front ++ chain :: back)) (hhead : chain.body.head? = some head)
    (last : Nat) :
    ∃ after, freeChain head { driver with queue := { driver.queue with
        lastUsed := last
        inFlight := driver.queue.inFlight - 1 } } = (.ok (writableBytes chain.buffers), after) ∧
      Sound after (front ++ back) := by
  have hmem : chain ∈ front ++ chain :: back := by simp
  have hbodies : (front ++ chain :: back).flatMap (·.body) =
      front.flatMap (·.body) ++ (chain.body ++ back.flatMap (·.body)) := by simp
  have hrest : (front ++ back).flatMap (·.body) =
      front.flatMap (·.body) ++ back.flatMap (·.body) := by simp
  have hnodup := h.nodup
  rw [hbodies] at hnodup
  obtain ⟨hfront, hmid, hcross⟩ := nodup_append.mp hnodup
  obtain ⟨hbody, hback, hcross'⟩ := nodup_append.mp hmid
  have hin : ∀ i, i ∈ (front ++ chain :: back).flatMap (·.body) ↔
      i ∈ chain.body ∨ i ∈ (front ++ back).flatMap (·.body) := by
    intro i
    rw [hbodies, hrest]
    simp only [mem_append]
    tauto
  have hout : ∀ i ∈ chain.body, i ∉ (front ++ back).flatMap (·.body) := by
    intro i hi hother
    rw [hrest, mem_append] at hother
    rcases hother with hother | hother
    · exact hcross i hother i (mem_append_left _ hi) rfl
    · exact hcross' i hi i hother rfl
  have hlt : ∀ i ∈ chain.body, i < driver.queue.size := fun i hi => h.lt i ((hin i).mpr (.inl hi))
  have huse : ∀ i ∈ chain.body, i < driver.queue.size ∧
      driver.queue.free.test i = some false := by
    intro i hi
    refine ⟨hlt i hi, test_eq_false ((hlt i hi).trans_le h.size_le) fun hfree => ?_⟩
    exact ((h.free i).mp hfree).2 ((hin i).mpr (.inl hi))
  have hlength : chain.body.length ≤ driver.queue.size + 1 := by
    have := bodies_length_le h.nodup h.lt
    rw [hbodies] at this
    simp only [length_append] at this
    omega
  refine ⟨_, freeChain_chained hhead (h.chained chain hmem).2 hbody huse hlength
    (h.bytes chain hmem), ?_⟩
  have hsub : ∀ other ∈ front ++ back, other ∈ front ++ chain :: back := by
    intro other hother
    rw [mem_append] at hother
    rw [mem_append, mem_cons]
    tauto
  refine ⟨h.size_lt, h.size_le, fun other hother => h.chained other (hsub other hother),
    fun other hother => h.bytes other (hsub other hother), ?_,
    fun i hi => h.lt i ((hin i).mpr (.inr hi)), fun i => ?_, fun i => ?_, ?_⟩
  · rw [hrest]
    exact nodup_append.mpr ⟨hfront, hback, fun a ha b hb => hcross a ha b (mem_append_right _ hb)⟩
  · change (driver.queue.free.setMany chain.body).test i = some true ↔ _
    rw [test_setMany (fun i hi => (hlt i hi).trans_le h.size_le), h.free, hin]
    constructor
    · rintro (hi | ⟨hsize, hnot⟩)
      · exact ⟨hlt i hi, hout i hi⟩
      · exact ⟨hsize, fun hother => hnot (.inr hother)⟩
    · rintro ⟨hsize, hnot⟩
      by_cases hi : i ∈ chain.body
      · exact .inl hi
      · exact .inr ⟨hsize, not_or.mpr ⟨hi, hnot⟩⟩
  · change (driver.queue.heads.clear head).2.test i = some true ↔ _
    rw [test_clear, h.heads]
    constructor
    · rintro ⟨⟨other, hother, hbodyHead⟩, hne⟩
      refine ⟨other, ?_, hbodyHead⟩
      rw [mem_append, mem_cons] at hother
      rw [mem_append]
      rcases hother with hother | rfl | hother
      · exact .inl hother
      · exact absurd (Option.mem_unique hbodyHead hhead) hne
      · exact .inr hother
    · rintro ⟨other, hother, hbodyHead⟩
      refine ⟨⟨other, hsub other hother, hbodyHead⟩, ?_⟩
      rintro rfl
      exact hout i (mem_of_head? hhead) (mem_bodies hother (mem_of_head? hbodyHead))
  · change driver.queue.inFlight - 1 = _
    rw [h.inFlight]
    simp

theorem readUsed_cases (memory : QueueMemory) (start count value : Nat) :
    readUsed memory start count value = .ok value ∨
      readUsed memory start count value =
        .error (.region .usedRing (start + count) memory.usedRing) := by
  unfold readUsed
  split
  · exact .inl rfl
  · exact .inr rfl

/-- What `nextUsed` answers, whatever the device has stored: nothing changed, or the chain of a
published head has gone back. -/
theorem nextUsed_spec (h : Sound driver out) (device : Phase) (reads : UsedReads) :
    (nextUsed device reads).wp (fun answer after => match answer with
      | .ok none => after = driver
      | .ok (some completion) => ∃ front chain back, out = front ++ chain :: back ∧
          chain.body.head? = some completion.head ∧
          completion.length ≤ writableBytes chain.buffers ∧ Sound after (front ++ back)
      | .error (.usedLength head _ _) => ∃ front chain back, out = front ++ chain :: back ∧
          chain.body.head? = some head ∧ Sound after (front ++ back)
      | .error _ => after = driver) driver := by
  unfold nextUsed
  refine wp_require_bind.mpr ⟨fun _ => ?_, fun _ => rfl⟩
  refine wp_get_bind.mpr ?_
  have hread : ∀ {start count value : Nat} {e : QueueError},
      readUsed driver.memory start count value = .error e →
      e = .region .usedRing (start + count) driver.memory.usedRing := by
    intro start count value e he
    rcases readUsed_cases driver.memory start count value with hr | hr <;> rw [hr] at he <;>
      cases he
    rfl
  refine wp_bind.mpr (wp_ofExcept.mpr ⟨fun index _ => ?_, fun e he => by rw [hread he]⟩)
  by_cases hpending : (index + u16Size - driver.queue.lastUsed) % u16Size = 0
  · rw [if_pos hpending]
    rfl
  rw [if_neg hpending]
  refine wp_require_bind.mpr ⟨fun _ => ?_, fun _ => rfl⟩
  refine wp_bind.mpr (wp_ofExcept.mpr ⟨fun id _ => ?_, fun e he => by rw [hread he]⟩)
  refine wp_bind.mpr (wp_ofExcept.mpr ⟨fun length _ => ?_, fun e he => by rw [hread he]⟩)
  refine wp_require_bind.mpr ⟨fun hknown => ?_, fun _ => rfl⟩
  obtain ⟨head, hhead⟩ : ∃ head, head = if id < u16Size then id else u16Size - 1 := ⟨_, rfl⟩
  rw [← hhead] at hknown ⊢
  have htest : driver.queue.heads.test head = some true := by
    cases hbit : driver.queue.heads.test head with
    | none => simp [hbit] at hknown
    | some bit => simpa [hbit] using hknown.2
  obtain ⟨chain, hmem, hchain⟩ := (h.heads head).mp htest
  obtain ⟨front, back, rfl⟩ := append_of_mem hmem
  obtain ⟨after, hrun, hafter⟩ := h.take hchain ((driver.queue.lastUsed + 1) % u16Size)
  refine wp_modify_bind.mpr ?_
  refine wp_bind.mpr ?_
  rw [wp, hrun]
  refine ⟨fun writable hwritable => ?_, by simp⟩
  obtain rfl : writableBytes chain.buffers = writable := Except.ok.inj hwritable
  refine wp_require_bind.mpr ⟨fun hle => ?_, fun _ => ?_⟩
  · exact ⟨front, chain, back, rfl, hchain, hle, hafter⟩
  · exact ⟨front, chain, back, rfl, hchain, hafter⟩

/-! ## A new queue -/

theorem setAll_ok {count : Nat} {set after : BitSet words}
    (h : setAll size count set = .ok after) : count ≤ 64 * words ∧
      ∀ i, after.test i = some true ↔ i < count ∨ set.test i = some true := by
  induction count generalizing after with
  | zero =>
    cases h
    simp
  | succ count ih =>
    obtain ⟨before, hbefore, h⟩ := bind_eq_ok h
    obtain ⟨-, hmembers⟩ := ih hbefore
    have htest := before.test_set count
    have hwas : (before.set count).1 = before.test count := rfl
    generalize before.set count = answer at h htest hwas
    obtain ⟨_ | was, next⟩ := answer
    · cases h
    cases h
    have hlt := test_lt hwas.symm
    refine ⟨hlt, fun i => ?_⟩
    rw [htest]
    by_cases hi : i = count
    · subst hi
      simp [hlt]
    · rw [if_neg fun e => hi e.1, hmembers]
      have : i < count ↔ i < count + 1 := by omega
      rw [this]

theorem new_sound {memory : QueueMemory} {used : Nat}
    (hsize : size < u16Size) (h : Queue.new memory size used = .ok driver) : Sound driver [] := by
  unfold Queue.new at h
  split at h
  · cases h
  obtain ⟨free, hset, h⟩ := bind_eq_ok h
  obtain ⟨hle, hfree⟩ := setAll_ok hset
  obtain ⟨read, -, h⟩ := bind_eq_ok h
  split at h
  · cases h
  obtain ⟨ring, -, h⟩ := bind_eq_ok h
  obtain ⟨ring', -, h⟩ := bind_eq_ok h
  cases h
  refine ⟨hsize, hle, by simp, by simp, by simp, by simp, fun i => ?_, fun i => ?_, rfl⟩
  · simp [hfree, test_new]
  · simp [test_new]

/-! ## What is outstanding -/

/-- The descriptors of the chain that begins at `index`, as the table links them. -/
def chainFrom (table : Bytes) : Nat → Nat → List Nat
  | 0, _ => []
  | fuel + 1, index =>
    match Descriptor.stepOf table index with
    | .error _ => [index]
    | .ok (_, flags, next) =>
      if flags &&& descFNext = 0 then [index] else index :: chainFrom table fuel next

/-- The chain of a head; no chain is longer than the queue. -/
def chainOf (driver : Driver words) (head : Nat) : List Nat :=
  chainFrom driver.memory.descriptorTable driver.queue.size head

theorem chainFrom_chained {table : Bytes}
    {fuel : Nat} (hhead : body.head? = some head) (hchained : Chained table body buffers)
    (hfuel : body.length ≤ fuel) : chainFrom table fuel head = body := by
  induction body generalizing buffers fuel head with
  | nil => simp at hhead
  | cons index behind ih =>
    cases buffers with
    | nil => exact hchained.elim
    | cons buffer buffers =>
      obtain rfl : index = head := by simpa using hhead
      obtain ⟨fuel, rfl⟩ : ∃ k, fuel = k + 1 := ⟨fuel - 1, by simp at hfuel; omega⟩
      obtain ⟨hstep, hbehind⟩ := hchained
      simp only [chainFrom, hstep, flag_next]
      cases behind with
      | nil => simp
      | cons next behind => exact congrArg (index :: ·) (ih rfl hbehind (by simp at hfuel ⊢; omega))

end Driver

/-- A queue with the record of what is outstanding: for each chain that an `add` answered and
that has not come back since, its head and the buffers of that `add`. -/
structure Record (words : Nat) where
  driver : Driver words
  outstanding : List (Nat × List Buffer)

/-- A call of the driver. What the device has stored in the used ring is an argument. -/
inductive Call where
  | add (device : Phase) (buffers : List Buffer)
  | nextUsed (device : Phase) (reads : UsedReads)

/-- The record without the chain of `head`. -/
def Record.without (outstanding : List (Nat × List Buffer)) (head : Nat) :
    List (Nat × List Buffer) :=
  outstanding.eraseP fun entry => entry.1 = head

variable (record : Record words)

/-- A call, with the record kept from its answer. An element with too large a length is consumed
all the same, so its chain is outstanding no longer. -/
def Call.step : Call → Record words
  | .add device buffers =>
    match Driver.add device buffers record.driver with
    | (.ok head, driver) => ⟨driver, (head, buffers) :: record.outstanding⟩
    | (.error _, driver) => ⟨driver, record.outstanding⟩
  | .nextUsed device reads =>
    match Driver.nextUsed device reads record.driver with
    | (.ok (some completion), driver) => ⟨driver, Record.without record.outstanding completion.head⟩
    | (.error (.usedLength head _ _), driver) => ⟨driver, Record.without record.outstanding head⟩
    | (_, driver) => ⟨driver, record.outstanding⟩

namespace Record

open Driver

/-- What the queue says agrees with the record: every descriptor is free or in the chain of
exactly one outstanding head, and the counters count them. -/
structure Accounted (record : Record words) : Prop where
  heads_nodup : (record.outstanding.map (·.1)).Nodup
  free_iff : ∀ i < record.driver.queue.size, record.driver.queue.free.test i = some true ↔
    ∀ entry ∈ record.outstanding, i ∉ record.driver.chainOf entry.1
  one_chain : ∀ entry ∈ record.outstanding, ∀ other ∈ record.outstanding, ∀ i,
    i ∈ record.driver.chainOf entry.1 → i ∈ record.driver.chainOf other.1 → entry = other
  inFlight : record.driver.queue.inFlight = record.outstanding.length
  freeCount : record.driver.queue.freeCount +
    (record.outstanding.map fun entry => (record.driver.chainOf entry.1).length).sum =
      record.driver.queue.size

/-- The record holds the heads and the buffers of the published chains. -/
def Tracks (out : List Published) : Prop :=
  Sound record.driver out ∧
    record.outstanding = out.map fun chain => (chain.body.head?.getD 0, chain.buffers)

theorem head_eq {record : Record words} {out : List Published} (h : Sound record.driver out)
    (hmem : chain ∈ out) : chain.body.head? = some (chain.body.head?.getD 0) := by
  have hne := (h.chained chain hmem).1
  cases hbody : chain.body with
  | nil => exact absurd hbody hne
  | cons => rfl

theorem head_ne {driver : Driver words} {chain other : Published}
    {head : Nat} (h : Sound driver (front ++ chain :: back)) (hother : other ∈ front)
    (hhead : chain.body.head? = some head) : other.body.head? ≠ some head := by
  intro hsame
  have hnodup := h.nodup
  rw [flatMap_append, nodup_append] at hnodup
  refine hnodup.2.2 head (mem_bodies hother (mem_of_head? hsame)) head ?_ rfl
  exact mem_bodies mem_cons_self (mem_of_head? hhead)

section

variable {record : Record words} {out : List Published}

theorem without_mid {head : Nat} (h : record.Tracks (front ++ chain :: back))
    (hhead : chain.body.head? = some head) :
    without record.outstanding head =
      (front ++ back).map fun chain => (chain.body.head?.getD 0, chain.buffers) := by
  rw [without, h.2, map_append, eraseP_append_right]
  · simp [hhead]
  intro entry hentry
  obtain ⟨other, hother, rfl⟩ := mem_map.mp hentry
  have hne := head_ne h.1 hother hhead
  rw [head_eq h.1 (mem_append_left _ hother)] at hne
  simpa using hne

theorem tracks_step (h : record.Tracks out)
    (call : Call) : ∃ out', (call.step record).Tracks out' := by
  cases call with
  | add device buffers =>
    have hadd := add_spec h.1 device buffers
    unfold wp at hadd
    unfold Call.step
    dsimp only
    generalize Driver.add device buffers record.driver = answer at hadd ⊢
    obtain ⟨e | head, driver⟩ := answer
    · exact ⟨out, h.1.untouched hadd, h.2⟩
    · obtain ⟨body, hhead, hsound⟩ := hadd
      refine ⟨_, hsound, ?_⟩
      simp [hhead, h.2]
  | nextUsed device reads =>
    have hnext := nextUsed_spec h.1 device reads
    unfold wp at hnext
    unfold Call.step
    dsimp only
    generalize Driver.nextUsed device reads record.driver = answer at hnext ⊢
    obtain ⟨e | completion, driver⟩ := answer
    · cases e with
      | usedLength head reported writable =>
        obtain ⟨front, chain, back, rfl, hhead, hsound⟩ := hnext
        exact ⟨_, hsound, without_mid h hhead⟩
      | _ =>
        obtain rfl : driver = record.driver := hnext
        exact ⟨out, h⟩
    · cases completion with
      | none =>
        obtain rfl : driver = record.driver := hnext
        exact ⟨out, h⟩
      | some completion =>
        obtain ⟨front, chain, back, rfl, hhead, -, hsound⟩ := hnext
        exact ⟨_, hsound, without_mid h hhead⟩

theorem tracks_run (h : record.Tracks out)
    (calls : List Call) : ∃ out', (calls.foldl Call.step record).Tracks out' := by
  induction calls generalizing record out with
  | nil => exact ⟨out, h⟩
  | cons call calls ih =>
    obtain ⟨out', h'⟩ := tracks_step h call
    exact ih h'

theorem chainOf_eq (h : Sound record.driver out) (hmem : chain ∈ out) :
    record.driver.chainOf (chain.body.head?.getD 0) = chain.body := by
  refine chainFrom_chained (head_eq h hmem) (h.chained chain hmem).2 ?_
  obtain ⟨front, back, rfl⟩ := append_of_mem hmem
  have := bodies_length_le h.nodup h.lt
  simp only [flatMap_append, flatMap_cons, length_append] at this
  omega

theorem Tracks.accounted (h : record.Tracks out) : record.Accounted := by
  obtain ⟨hsound, hout⟩ := h
  obtain ⟨-, hdisjoint⟩ := nodup_flatMap.mp hsound.nodup
  have hlengths : (record.outstanding.map fun entry =>
      (record.driver.chainOf entry.1).length).sum = (out.flatMap (·.body)).length := by
    rw [hout, map_map, length_flatMap]
    refine congrArg List.sum (map_congr_left fun chain hmem => ?_)
    exact congrArg List.length (chainOf_eq hsound hmem)
  refine ⟨?_, fun i hi => ?_, ?_, ?_, ?_⟩
  · rw [hout, map_map, Nodup, pairwise_map]
    refine hdisjoint.imp_of_mem fun {a b} ha hb hab hsame => ?_
    have hhead := mem_of_head? (head_eq hsound hb)
    rw [← show a.body.head?.getD 0 = b.body.head?.getD 0 from hsame] at hhead
    exact hab (mem_of_head? (head_eq hsound ha)) hhead
  · rw [hsound.free, hout]
    simp only [hi, true_and, mem_flatMap, not_exists, not_and, mem_map,
      forall_exists_index, and_imp, forall_apply_eq_imp_iff₂]
    exact forall₂_congr fun chain hmem => by rw [chainOf_eq hsound hmem]
  · intro entry hentry other hother i hi hi'
    rw [hout] at hentry hother
    obtain ⟨chain, hmem, rfl⟩ := mem_map.mp hentry
    obtain ⟨chain', hmem', rfl⟩ := mem_map.mp hother
    rw [chainOf_eq hsound hmem] at hi
    rw [chainOf_eq hsound hmem'] at hi'
    by_contra hne
    have : Std.Symm (Function.onFun List.Disjoint fun chain : Published => chain.body) :=
      ⟨fun _ _ h => h.symm⟩
    exact hdisjoint.forall hmem hmem' (fun e => hne (by rw [e])) hi hi'
  · rw [hsound.inFlight, hout, length_map]
  · have hcard : record.driver.queue.free.count =
        record.driver.queue.size - (out.flatMap (·.body)).length := by
      rw [count_eq (Finset.range record.driver.queue.size \
        (out.flatMap (·.body)).toFinset), Finset.card_sdiff_of_subset, Finset.card_range,
        toFinset_card_of_nodup hsound.nodup]
      · intro i hi
        exact Finset.mem_range.mpr (hsound.lt i (mem_toFinset.mp hi))
      · intro i
        rw [hsound.free, Finset.mem_sdiff, Finset.mem_range, mem_toFinset]
    have hle := bodies_length_le hsound.nodup hsound.lt
    have hsize := hsound.size_lt
    rw [hlengths, Queue.freeCount, hcard]
    omega

end

/-- Whatever the device stores in the used ring between the calls, after any sequence of `add` and
`nextUsed` on a queue that `new` has accepted: the descriptors are shared out between the free set
and the outstanding chains, a refused `add` has changed none of it, and a completion names an
outstanding head and no more bytes than the device was given to write by that `add`. -/
theorem holds_against_device {memory : QueueMemory} {size used : Nat} {driver : Driver words}
    (hsize : size < u16Size) (hnew : Queue.new memory size used = .ok driver) (calls : List Call) :
    let record := calls.foldl Call.step ⟨driver, []⟩
    record.Accounted ∧
    (∀ device buffers e after, Driver.add device buffers record.driver = (.error e, after) →
      after.queue = record.driver.queue ∧
        after.memory.availableRing = record.driver.memory.availableRing) ∧
    ∀ device reads completion after,
      Driver.nextUsed device reads record.driver = (.ok (some completion), after) →
      ∃ buffers, (completion.head, buffers) ∈ record.outstanding ∧
        completion.length ≤ writableBytes buffers := by
  intro record
  have hstart : Tracks (⟨driver, []⟩ : Record words) [] := ⟨new_sound hsize hnew, rfl⟩
  obtain ⟨out, htracks⟩ := tracks_run hstart calls
  refine ⟨htracks.accounted, fun device buffers e after hadd => ?_,
    fun device reads completion after hnext => ?_⟩
  · have hspec := add_spec htracks.1 device buffers
    rw [wp, hadd] at hspec
    exact ⟨hspec.queue, hspec.availableRing⟩
  · have hspec := nextUsed_spec htracks.1 device reads
    rw [wp, hnext] at hspec
    obtain ⟨front, chain, back, rfl, hhead, hle, -⟩ := hspec
    refine ⟨chain.buffers, ?_, hle⟩
    rw [htracks.2]
    exact mem_map.mpr ⟨chain, by simp, by simp [hhead]⟩

/-- A queue of four descriptors, with a chain of two buffers added and none given back. -/
theorem holds_against_device_four :
    ∃ driver : Driver 1,
      Queue.new ⟨⟨64, fun _ => 0⟩, ⟨14, fun _ => 0⟩, 38⟩ 4 0 = .ok driver ∧
      Record.Accounted ([Call.add .live [⟨0, 16, .driverToDevice, by decide⟩,
        ⟨4096, 512, .deviceToDriver, by decide⟩]].foldl Call.step ⟨driver, []⟩) := by
  obtain ⟨driver, hnew⟩ : ∃ driver : Driver 1,
      Queue.new ⟨⟨64, fun _ => 0⟩, ⟨14, fun _ => 0⟩, 38⟩ 4 0 = .ok driver := ⟨_, rfl⟩
  exact ⟨driver, hnew, (holds_against_device (by decide) hnew _).1⟩

end Record

end Audhsos.Virtio
