import Audhsos.User.MemoryStoreRun

/-!
The requests of the memory server, and what holds after any sequence of them.
-/

namespace Audhsos.MemoryServer

open Lib Prog List Function

variable {freeRoom liveRoom : Nat}

namespace Store

variable {limit : Quota} {adopted : Nat → Prop} {state : State freeRoom liveRoom}

/-! ## The requests -/

theorem Inv.relabel {live : List Held} (h : Inv limit adopted state)
    (hsame : live.map (fun held => (held.object, held.owner)) =
      state.store.live.map fun held => (held.object, held.owner)) :
    Inv limit adopted
      ({ state with store := { state.store with live } } : State freeRoom liveRoom) := by
  have hobjects : live.map (·.object) = state.store.live.map (·.object) := by
    have := congrArg (List.map Prod.fst) hsame
    simpa only [map_map, comp_def] using this
  have hmine : ∀ owner, (live.filter fun held => held.owner = owner).map (·.object) =
      (state.store.mine owner).map (·.object) := by
    intro owner
    have := congrArg (fun pairs => (pairs.filter fun pair => pair.2 = owner).map Prod.fst) hsame
    simpa only [mine, filter_map, map_map, comp_def] using this
  refine ⟨?_, h.fixed, fun owner => ?_⟩
  · dsimp only
    rw [hobjects]
    exact ⟨h.free.sorted, h.free.owns, h.free.room⟩
  · have hquota := h.quota owner
    have hlen := congrArg List.length (hmine owner)
    have hsum := congrArg (fun objects => (objects.map Object.len).sum) (hmine owner)
    simp only [length_map, map_map, comp_def] at hlen hsum
    simp only [mine] at hlen hsum hquota ⊢
    omega

theorem allocate_spec (h : Inv limit adopted state) (owner len align : Nat) :
    (allocate owner len align).wp (fun answer after => Inv limit adopted after ∧
      ∀ piece, answer = .ok piece → Given state after owner len align piece) state := by
  have hfail : ∀ (e : Error) (after : State freeRoom liveRoom), Inv limit adopted after →
      Inv limit adopted after ∧ ∀ piece, (.error e : Except Error Object) = .ok piece →
        Given state after owner len align piece :=
    fun e after hafter => ⟨hafter, fun _ hanswer => by cases hanswer⟩
  unfold allocate
  refine wp_require_bind.mpr ⟨fun hargs => ?_, fun _ => hfail _ _ h⟩
  refine wp_bind.mpr (wp_ofExcept.mpr ⟨fun wanted hwanted => ?_, fun e _ => hfail e _ h⟩)
  have hrounded : wanted = (len + pageSize - 1) / pageSize * pageSize := by
    unfold checkedNextMultipleOf at hwanted
    dsimp only at hwanted
    split at hwanted
    · exact (Except.ok.inj hwanted).symm
    · cases hwanted
  refine wp_get_bind.mpr ?_
  dsimp only
  generalize decide (liveRoom ≤ state.store.live.length ∨
    ¬ state.store.admits owner wanted = true) = reclaimed
  have hrest : ∀ after, Reclaimed limit adopted state after → (do
      let state ← Prog.get
      require (state.store.admits owner wanted) .quotaExceeded
      require (state.store.live.length < liveRoom) .poolExhausted
      let place ← findPlace reclaimed wanted align
      handOut owner place.1 place.2.1 wanted place.2.2 : Prog Error (State freeRoom liveRoom) Object).wp
        (fun answer after => Inv limit adopted after ∧
          ∀ piece, answer = .ok piece → Given state after owner len align piece) after := by
    intro after hafter
    refine wp_get_bind.mpr ?_
    refine wp_require_bind.mpr ⟨fun hadmits => ?_, fun _ => hfail _ _ hafter.inv⟩
    refine wp_require_bind.mpr ⟨fun _ => ?_, fun _ => hfail _ _ hafter.inv⟩
    refine wp_bind.mpr ((findPlace_spec hafter.inv reclaimed wanted align).mono
      fun answer found hfound => ⟨fun place hplace => ?_, fun e _ => hfail e _ hfound.1.inv⟩)
    obtain ⟨index, start, object⟩ := place
    obtain ⟨hreclaimed, hplaced⟩ := hfound
    have hadmits' := hreclaimed.admits hafter.inv hadmits
    refine (handOut_spec hreclaimed.inv (by omega) (hplaced _ _ _ hplace) hadmits').mono
      fun answer' last hlast => ⟨hlast.1, fun piece hpiece => ?_⟩
    obtain ⟨haligned, hlen, hrecorded, hcleared⟩ := hlast.2 piece hpiece
    exact ⟨haligned, hlen.trans hrounded, hrecorded, fun byte hbyte =>
      (hafter.later.clock.trans hreclaimed.later.clock).trans_lt (hcleared byte hbyte)⟩
  split
  · exact wp_bind.mpr ((reclaim_spec h).mono fun _ after hafter =>
      ⟨fun _ _ => hrest after hafter, fun e _ => hfail e _ hafter.inv⟩)
  · exact hrest state (.refl h)

theorem quiet_refuse {α : Type} (handle : ObjectHandle) (e : Error) :
    Quiet (refuse handle e : Prog Error (State freeRoom liveRoom) α) := by
  unfold refuse
  refine .bind .get fun state => ?_
  split
  · exact .throw _
  · exact .bind (.ignore (quiet_close _)) fun _ => .throw _

section

variable (h : Inv limit adopted state)
include h

theorem release_spec (owner : Nat) (returned : Object) :
    (release owner returned).wp (fun _ after => Inv limit adopted after) state := by
  have hrefuse : ∀ e : Error, (refuse returned.handle e :
      Prog Error (State freeRoom liveRoom) Object).wp (fun _ after => Inv limit adopted after) state :=
    fun e => ((quiet_refuse returned.handle e).wp state).mono fun _ _ hquiet =>
      h.later hquiet.1 hquiet.2
  unfold release
  refine wp_get_bind.mpr ?_
  split
  · exact hrefuse _
  rename_i index hindex
  cases hheld : state.store.live[index]? with
  | none => exact hrefuse _
  | some held =>
    dsimp only
    split
    · exact hrefuse _
    split
    · exact hrefuse _
    refine wp_modify_bind.mpr ?_
    have hretired : Inv limit adopted ({ state with store := { state.store with
        live := state.store.live.set index { held with retired := true } } } :
          State freeRoom liveRoom) := by
      refine h.relabel ?_
      obtain ⟨hlt, rfl⟩ := List.getElem?_eq_some_iff.mp hheld
      rw [map_set]
      refine ext_getElem (by simp) fun k hk _ => ?_
      rw [getElem_set]
      split
      · subst_vars
        simp
      · rfl
    have hrest : ∀ (closed : Except Error Unit) (after : State freeRoom liveRoom),
        Inv limit adopted after → (do
          reclaim
          ofExcept closed
          pure held.object : Prog Error (State freeRoom liveRoom) Object).wp
            (fun _ after => Inv limit adopted after) after := fun closed after hafter =>
      wp_bind.mpr ((reclaim_spec hafter).mono fun _ last hlast =>
        ⟨fun _ _ => wp_bind.mpr (wp_ofExcept.mpr
          ⟨fun _ _ => hlast.inv, fun _ _ => hlast.inv⟩), fun _ _ => hlast.inv⟩)
    split
    · exact hrest _ _ hretired
    · exact wp_bind.mpr (wp_attempt.mpr (((quiet_close returned.handle).wp _).mono
        fun _ after hquiet => ⟨fun closed _ => hrest closed _ (hretired.later hquiet.1 hquiet.2),
          by simp⟩))

theorem forgetClient_spec (owner : Nat) :
    (forgetClient owner).wp (fun _ after => Inv limit adopted after) state := by
  unfold forgetClient
  refine wp_get_bind.mpr ?_
  refine wp_modify_bind.mpr ?_
  refine wp_bind.mpr ((reclaim_spec (h.relabel ?_)).mono fun _ after hafter =>
    ⟨fun _ _ => hafter.inv, fun _ _ => hafter.inv⟩)
  rw [map_map]
  refine map_congr_left fun held _ => ?_
  rw [comp_apply]
  split <;> rfl

theorem adopt_spec {object : Object} (hknown : object.Known state.pages)
    (hapart : ∀ other ∈ state.store.live.map (·.object) ++ state.store.free,
      object.Apart other) :
    (adopt object).wp (fun answer after => match answer with
      | .ok () => Inv limit (fun byte => adopted byte ∨ object.Has byte) after
      | .error _ => Inv limit adopted after) state := by
  unfold adopt
  refine wp_bind.mpr (((quiet_wipe object).wp state).mono fun _ cleared hquiet =>
    ⟨fun _ _ => ?_, fun e _ => h.later hquiet.1 hquiet.2⟩)
  have hcleared := h.later hquiet.1 hquiet.2
  have hinv : FreeInv (fun byte => adopted byte ∨ object.Has byte)
      (object :: cleared.store.live.map (·.object)) cleared := by
    refine ⟨hcleared.free.sorted, ⟨?_, fun byte => ?_, ?_⟩, hcleared.free.room⟩
    · rw [cons_append]
      refine pairwise_cons.mpr ⟨?_, hcleared.free.owns.apart⟩
      rw [hquiet.1]
      exact hapart
    · rw [← hcleared.free.owns.union byte, or_comm]
      simp only [cons_append, mem_cons, exists_eq_or_imp]
    · rw [cons_append]
      refine forall_mem_cons.mpr ⟨hknown.later hquiet.2, hcleared.free.owns.known⟩
  refine (putFree_spec object hinv).mono fun answer after hput => ?_
  obtain e | _ := answer
  · rw [hput.1]
    exact hcleared
  obtain ⟨hput, hlive, hquota, -⟩ := hput
  refine ⟨by rw [hlive]; exact hput, hquota.trans hcleared.fixed, ?_⟩
  unfold mine
  rw [hlive]
  exact hcleared.quota

end

end Store

/-! ## Runs -/

/-- What the server is asked to do. -/
inductive Request where
  | adopt (object : Object)
  | allocate (owner len align : Nat)
  | release (owner : Nat) (returned : Object)
  | reclaim
  | forgetClient (owner : Nat)
deriving DecidableEq, Repr

namespace Request

/-- Serves a request; an object that was adopted is noted. -/
def serve (run : State freeRoom liveRoom × List Object) :
    Request → State freeRoom liveRoom × List Object
  | adopt object =>
    match Store.adopt object run.1 with
    | (.ok (), after) => (after, run.2 ++ [object])
    | (.error _, after) => (after, run.2)
  | allocate owner len align => ((Store.allocate owner len align run.1).2, run.2)
  | release owner returned => ((Store.release owner returned run.1).2, run.2)
  | reclaim => ((Store.reclaim run.1).2, run.2)
  | forgetClient owner => ((Store.forgetClient owner run.1).2, run.2)

/-- Only whole objects that are none of the server's yet are adopted. An object ends below the
largest address, so its end can be said, and its handle names the memory it describes. -/
def Allowed (state : State freeRoom liveRoom) : Request → Prop
  | adopt object => object.Known state.pages ∧
      ∀ other ∈ state.store.live.map (·.object) ++ state.store.free, object.Apart other
  | _ => True

/-- Every request of the run is allowed where it stands. -/
def AllAllowed : State freeRoom liveRoom × List Object → List Request → Prop
  | _, [] => True
  | run, request :: requests => request.Allowed run.1 ∧ AllAllowed (request.serve run) requests

/-- The store, before anything was adopted. -/
def start (freeRoom liveRoom : Nat) (quota : Quota) (pages : Pages) :
    State freeRoom liveRoom × List Object :=
  (⟨⟨[], [], quota⟩, pages⟩, [])

/-- The bytes of the adopted objects. -/
def Covers (objects : List Object) (byte : Nat) : Prop := ∃ object ∈ objects, object.Has byte

variable {limit : Quota} {run : State freeRoom liveRoom × List Object}

theorem serve_inv (request : Request) (h : Store.Inv limit (Covers run.2) run.1)
    (hallowed : request.Allowed run.1) :
    Store.Inv limit (Covers (request.serve run).2) (request.serve run).1 := by
  cases request with
  | adopt object =>
    have hadopt := Store.adopt_spec h hallowed.1 hallowed.2
    unfold wp at hadopt
    unfold serve
    dsimp only
    generalize Store.adopt object run.1 = answer at hadopt ⊢
    obtain ⟨e | _, after⟩ := answer
    · exact hadopt
    have hcovers : Covers (run.2 ++ [object]) =
        fun byte => Covers run.2 byte ∨ object.Has byte := by
      funext byte
      simp [Covers, or_and_right, exists_or]
    rw [hcovers]
    exact hadopt
  | allocate owner len align => exact (Store.allocate_spec h owner len align).1
  | release owner returned => exact Store.release_spec h owner returned
  | reclaim => exact (Store.reclaim_spec h).inv
  | forgetClient owner => exact Store.forgetClient_spec h owner

theorem foldl_inv (requests : List Request) : ∀ run : State freeRoom liveRoom × List Object,
    Store.Inv limit (Covers run.2) run.1 → AllAllowed run requests →
      Store.Inv limit (Covers (requests.foldl serve run).2) (requests.foldl serve run).1 := by
  induction requests with
  | nil => exact fun _ h _ => h
  | cons request requests ih =>
    exact fun run h hallowed => ih _ (serve_inv request h hallowed.1) hallowed.2

theorem start_inv (quota : Quota) (pages : Pages) :
    Store.Inv quota (Covers (start freeRoom liveRoom quota pages).2)
      (start freeRoom liveRoom quota pages).1 :=
  ⟨⟨.nil, ⟨.nil, fun _ => Iff.rfl, by simp [start]⟩, Nat.zero_le _⟩, rfl, fun _ => by
    simp [start, Store.mine]⟩

/-- After any requests, with any operations of the kernel failing, the free list is sorted, the
free and the held objects share out the adopted bytes, every client is within the quota, and an
object that is then handed out is aligned, of whole pages and cleared since the request came. -/
theorem store_keeps_account (quota : Quota) (pages : Pages) (requests : List Request)
    (hallowed : AllAllowed (start freeRoom liveRoom quota pages) requests) :
    let run := requests.foldl serve (start freeRoom liveRoom quota pages)
    let objects := run.1.store.live.map (·.object) ++ run.1.store.free
    run.1.store.free.Pairwise (fun lower upper => lower.start ≤ upper.start) ∧
    objects.Pairwise Object.Apart ∧
    (∀ byte, Covers objects byte ↔ Covers run.2 byte) ∧
    (∀ owner, (run.1.store.mine owner).length ≤ quota.objects ∧
      ((run.1.store.mine owner).map (·.object.len)).sum ≤ quota.bytes) ∧
    ∀ owner len align piece after,
      Store.allocate owner len align run.1 = (.ok piece, after) →
        Store.Given run.1 after owner len align piece := by
  intro run objects
  have h := foldl_inv requests _ (start_inv quota pages) hallowed
  refine ⟨h.free.sorted, h.free.owns.apart, h.free.owns.union, h.quota, ?_⟩
  intro owner len align piece after hanswer
  have hspec := (Store.allocate_spec h owner len align).2 piece
  rw [hanswer] at hspec
  exact hspec rfl

/-- A kernel that fails no operation and counts one reference. -/
def willing (base : Nat) : Pages :=
  { clock := 0, fails := fun _ => none, references := fun _ => 1, base := fun _ => base,
    zeroedAt := fun _ => 0 }

/-- A page is handed out of four that were adopted, with a split on either side. -/
theorem store_keeps_account_four_pages :
    let run := [adopt ⟨.given 0, 4096, 16384⟩].foldl serve
      (start 4 4 ⟨2, 8192⟩ (willing 4096))
    ∃ piece after, Store.allocate 1 100 8192 run.1 = (.ok piece, after) ∧
      piece.start = 8192 ∧ piece.len = 4096 ∧
      after.store.free.map (fun object => (object.start, object.len)) =
        [(4096, 4096), (12288, 8192)] ∧
      Store.Given run.1 after 1 100 8192 piece := by
  have hallowed : AllAllowed (start 4 4 ⟨2, 8192⟩ (willing 4096))
      [adopt ⟨.given 0, 4096, 16384⟩] :=
    ⟨⟨⟨by decide, rfl, fun _ h => by cases h⟩, by simp [start]⟩, trivial⟩
  obtain ⟨piece, after, hanswer, hpiece⟩ : ∃ piece after,
      Store.allocate 1 100 8192 ([adopt ⟨.given 0, 4096, 16384⟩].foldl serve
        (start 4 4 ⟨2, 8192⟩ (willing 4096))).1 = (.ok piece, after) ∧
      piece.start = 8192 ∧ piece.len = 4096 ∧
      after.store.free.map (fun object => (object.start, object.len)) =
        [(4096, 4096), (12288, 8192)] := ⟨_, _, rfl, by decide +kernel⟩
  exact ⟨piece, after, hanswer, hpiece.1, hpiece.2.1, hpiece.2.2,
    (store_keeps_account _ _ _ hallowed).2.2.2.2 _ _ _ _ _ hanswer⟩

/-- The end of an object that reaches the last address stops one short of it, so the last byte is
lost when the object is cut. -/
theorem store_loses_last_byte :
    let object : Object := ⟨.given 0, u64Size - 8192, 8192⟩
    let run := [adopt object, allocate 1 4096 4096].foldl serve
      (start 4 4 ⟨2, 8192⟩ (willing (u64Size - 8192)))
    run.2 = [object] ∧ object.Has (u64Size - 1) ∧
      ∀ other ∈ run.1.store.live.map (·.object) ++ run.1.store.free,
        ¬ other.Has (u64Size - 1) := by
  intro object run
  have hstore : run.1.store.live.map (·.object) ++ run.1.store.free =
      [⟨.given 0, u64Size - 8192, 4096⟩, ⟨.made 3, u64Size - 4096, 4095⟩] := by decide +kernel
  refine ⟨by decide +kernel, by unfold Object.Has; decide, ?_⟩
  rw [hstore]
  unfold Object.Has
  decide

end Request

end Audhsos.MemoryServer
