import Audhsos.Ip.Fragment

/-!
Fragmentation and reassembly together: the datagrams `fragment` emits are delivered to a
reassembler in any order and with any repetitions.
-/

namespace Audhsos.Ip

open Wire Lib Fragments Piece
open List (length_map length_replicate mem_map_of_mem replicate)
open Tcp (Instant Duration)

variable {slots bytes : Nat}

variable {header : Header} {payload : List Byte} {per : Nat} {cuts : List (Nat × Nat × Bool)}
  {c d : Nat × Nat × Bool} {arrived : Nat × Nat × Bool → Prop} {r : Reassembler slots bytes}

variable (r)

def Reassembler.deliver (datagram : List Byte) (now : Instant) :
    Except IpError (Option (List Byte)) × Reassembler slots bytes :=
  match Datagram.parse datagram with
  | .error error => (.error error, r)
  | .ok datagram => r.accept datagram now

def Reassembler.deliverAll (order : List (List Byte × Instant)) : Reassembler slots bytes :=
  order.foldl (fun r delivery => (r.deliver delivery.1 delivery.2).2) r

variable {r}

/-- Whatever was delivered of the datagrams before, in any order and with any repetitions: the
delivery of one more answers the payload if then none is missing, and nothing otherwise. -/
def RoundTrip (slots bytes : Nat) (timeout : Duration) (emitted : List (List Byte))
    (payload : List Byte) : Prop :=
  ∀ (order : List (List Byte × Instant)) (last : List Byte) (now : Instant),
    (∀ delivery ∈ order, delivery.1 ∈ emitted) → last ∈ emitted →
    let answer := (((Reassembler.withTimeout timeout : Reassembler slots bytes).deliverAll
      order).deliver last now).1
    ((∀ datagram ∈ emitted, datagram = last ∨ ∃ delivery ∈ order, delivery.1 = datagram) →
      answer = .ok (some payload)) ∧
    (¬ (∀ datagram ∈ emitted, datagram = last ∨ ∃ delivery ∈ order, delivery.1 = datagram) →
      answer = .ok none)

/-- The last piece begins where the thirteen bits of the offset field reach. -/
def OffsetsFit (length mtu : Nat) : Prop :=
  (length - 1) / perFragment mtu * perFragment mtu ≤ 65528

section Pieces

variable (header) (payload) (c)

/-- The piece a delivered datagram is taken as. -/
def pieceOf : Piece :=
  of ((header.forPiece c).datagram (slice payload c))

theorem pieceOf_fields :
    (pieceOf header payload c).offset = carriedOffset c.1 ∧
    (pieceOf header payload c).more = c.2.2 ∧
    (pieceOf header payload c).payload = slice payload c := by
  obtain ⟨hoffset, hmore⟩ := datagram_fields (header.forPiece c) (slice payload c)
  exact ⟨hoffset, hmore, rfl⟩

variable {c}

theorem key_pieceOf (c d : Nat × Nat × Bool) :
    (pieceOf header payload c).key = (pieceOf header payload d).key := rfl

variable {payload} {header}

theorem deliver_datagramOf (hinside : c.1 + c.2.1 ≤ payload.length)
    (htotal : minHeaderLen + c.2.1 < 2 ^ 16) (r : Reassembler slots bytes) (now : Instant) :
    r.deliver (datagramOf header payload c) now =
      if c.2.2 = true ∨ carriedOffset c.1 ≠ 0 then r.acceptPiece (pieceOf header payload c) now
      else (.ok (some (slice payload c)), r) := by
  obtain ⟨hoffset, hmore⟩ := datagram_fields (header.forPiece c) (slice payload c)
  unfold Reassembler.deliver datagramOf
  rw [Header.parse_encoded (header.forPiece c) (length_slice hinside) htotal]
  dsimp only
  unfold Reassembler.accept Datagram.isFragment
  rw [hoffset, hmore]
  simp only [Bool.or_eq_true, bne_iff_ne, ne_eq]
  rfl

end Pieces

/-! ## Offsets that fit -/

/-- The pieces of a payload, each at an offset that the header carries. -/
structure Carried (payload : List Byte) (per : Nat) (cuts : List (Nat × Nat × Bool)) : Prop where
  tiles : Tiles per payload.length 0 cuts
  offset : ∀ c ∈ cuts, carriedOffset c.1 = c.1

namespace Carried

section

variable (h : Carried payload per cuts)
include h

theorem range_pieceOf (header : Header) (hc : c ∈ cuts) :
    (pieceOf header payload c).offset = c.1 ∧ (pieceOf header payload c).stop = c.1 + c.2.1 := by
  obtain ⟨hoffset, -, hpayload⟩ := pieceOf_fields header payload c
  rw [h.offset c hc] at hoffset
  refine ⟨hoffset, ?_⟩
  unfold stop
  rw [hoffset, hpayload, length_slice (h.tiles.inside c hc).2.1]

theorem eq_of_touches (hc : c ∈ cuts) (hd : d ∈ cuts)
    (htouch : (pieceOf header payload c).touches (pieceOf header payload d) = true) : c = d := by
  obtain ⟨hcs, hce⟩ := h.range_pieceOf header hc
  obtain ⟨hds, hde⟩ := h.range_pieceOf header hd
  unfold touches Buffer.meets range at htouch
  simp only [decide_eq_true_eq, hcs, hce, hds, hde] at htouch
  exact h.tiles.eq_of_meet hc hd htouch

theorem touches_self (hc : c ∈ cuts) :
    (pieceOf header payload c).touches (pieceOf header payload c) = true := by
  obtain ⟨hcs, hce⟩ := h.range_pieceOf header hc
  have hpos := (h.tiles.inside c hc).2.2.1
  unfold touches Buffer.meets range
  simp only [decide_eq_true_eq, hcs, hce]
  omega

theorem eq_of_pieceOf (header : Header) (hc : c ∈ cuts)
    (hd : d ∈ cuts) (heq : pieceOf header payload c = pieceOf header payload d) : c = d := by
  have htouch : (pieceOf header payload c).touches (pieceOf header payload d) = true := by
    rw [← heq]
    exact h.touches_self hc
  exact h.eq_of_touches hc hd htouch

theorem agrees (hc : c ∈ cuts) {stored : List Piece}
    (hstored : ∀ p ∈ stored, ∃ d ∈ cuts, d ≠ c ∧ p = pieceOf header payload d) :
    Agrees stored (pieceOf header payload c) := by
  obtain ⟨-, hce⟩ := h.range_pieceOf header hc
  obtain ⟨-, hmore, -⟩ := pieceOf_fields header payload c
  obtain ⟨-, hcle, hcpos, -, -, hciff⟩ := h.tiles.inside c hc
  refine ⟨fun q hq hlast => ?_, fun hlast q hq => ?_⟩
  · obtain ⟨d, hd, hne, rfl⟩ := hstored q hq
    obtain ⟨-, hde⟩ := h.range_pieceOf header hd
    obtain ⟨-, hdmore, -⟩ := pieceOf_fields header payload d
    obtain ⟨-, hdle, hdpos, -, -, hdiff⟩ := h.tiles.inside d hd
    have hdend : d.1 + d.2.1 = payload.length := by
      by_contra hlt
      have hyes := hdiff.mpr (by omega)
      rw [hdmore, hyes] at hlast
      cases hlast
    refine ⟨?_, by omega⟩
    rw [hmore, hciff]
    -- two pieces that end where the payload ends would meet
    by_contra hend
    exact hne (h.tiles.eq_of_meet hd hc ⟨by omega, by omega⟩)
  · obtain ⟨d, hd, -, rfl⟩ := hstored q hq
    obtain ⟨-, hde⟩ := h.range_pieceOf header hd
    have hdle := (h.tiles.inside d hd).2.1
    have hend : ¬ c.1 + c.2.1 < payload.length := by
      intro hlt
      have hyes := hciff.mpr hlt
      rw [hmore, hyes] at hlast
      cases hlast
    omega

end

end Carried

/-- A buffer that holds those of the pieces that have arrived. -/
structure Holding (header : Header) (payload : List Byte) (cuts : List (Nat × Nat × Bool))
    (buffer : Buffer bytes) (stored : List Piece) (arrived : Nat × Nat × Bool → Prop) : Prop where
  keeps : Keeps buffer stored
  nodup : stored.Nodup
  mem : ∀ p, p ∈ stored ↔ ∃ c ∈ cuts, arrived c ∧ p = pieceOf header payload c

namespace Holding

variable {buffer : Buffer bytes} {stored : List Piece}

section

variable (hcarried : Carried payload per cuts)
include hcarried

theorem insert (hcount : cuts.length ≤ maxRanges)
    (h : Holding header payload cuts buffer stored arrived) (hc : c ∈ cuts)
    (hend : (pieceOf header payload c).stop ≤ bytes) :
    (buffer.insert (pieceOf header payload c) hend).1 = .ok () ∧
    ∃ stored', Holding header payload cuts (buffer.insert (pieceOf header payload c) hend).2 stored'
      fun d => d = c ∨ arrived d := by
  have hfrom : ∀ q ∈ stored, (pieceOf header payload c).touches q = true →
      arrived c ∧ q = pieceOf header payload c := by
    intro q hq htouch
    obtain ⟨d, hd, harrived, rfl⟩ := (h.mem q).mp hq
    obtain rfl := hcarried.eq_of_touches hc hd htouch
    exact ⟨harrived, rfl⟩
  obtain ⟨hinsert, ⟨q, hq, htouch⟩, -⟩ | ⟨-, q, hq, hconflict⟩ |
    ⟨hapart, hdata, -, ⟨-, hok, hfilled, htotal⟩ | ⟨hfull, -⟩⟩ := insert_cases h.keeps hend
  · rw [hinsert]
    have harrived := (hfrom q hq htouch).1
    refine ⟨rfl, stored, h.keeps, h.nodup, fun p => ?_⟩
    rw [h.mem p]
    constructor
    · rintro ⟨d, hd, hthere, rfl⟩
      exact ⟨d, hd, .inr hthere, rfl⟩
    · rintro ⟨d, hd, rfl | hthere, rfl⟩
      · exact ⟨d, hd, harrived, rfl⟩
      · exact ⟨d, hd, hthere, rfl⟩
  · -- a piece that touches this one is this one, and does not conflict with it
    unfold conflicts at hconflict
    rw [decide_eq_true_eq] at hconflict
    obtain ⟨-, rfl⟩ := hfrom q hq hconflict.1
    exact absurd ⟨rfl, rfl, rfl⟩ hconflict.2
  · have hnew : pieceOf header payload c ∉ stored := by
      intro hthere
      have hnot := hapart _ hthere
      rw [hcarried.touches_self hc] at hnot
      cases hnot
    have hothers : ∀ p ∈ stored, ∃ d ∈ cuts, d ≠ c ∧ p = pieceOf header payload d := by
      intro p hp
      obtain ⟨d, hd, -, rfl⟩ := (h.mem p).mp hp
      exact ⟨d, hd, fun heq => hnew (heq ▸ hp), rfl⟩
    refine ⟨hok, stored ++ [pieceOf header payload c],
      h.keeps.added hend hapart (hcarried.agrees hc hothers) hdata hfilled htotal, ?_, fun p => ?_⟩
    · exact List.nodup_append.mpr ⟨h.nodup, List.nodup_singleton _, fun p hp q hq => by
        rw [List.mem_singleton.mp hq]
        exact fun heq => hnew (heq ▸ hp)⟩
    · rw [List.mem_append, h.mem p, List.mem_singleton]
      constructor
      · rintro (⟨d, hd, hthere, rfl⟩ | rfl)
        · exact ⟨d, hd, .inr hthere, rfl⟩
        · exact ⟨c, hc, .inl rfl, rfl⟩
      · rintro ⟨d, hd, rfl | hthere, rfl⟩
        · exact .inr rfl
        · exact .inl ⟨d, hd, hthere, rfl⟩
  · -- there are not more pieces than ranges that are remembered
    exfalso
    have hnew : pieceOf header payload c ∉ stored := by
      intro hthere
      have hnot := hapart _ hthere
      rw [hcarried.touches_self hc] at hnot
      cases hnot
    have hsub : pieceOf header payload c :: stored ⊆ cuts.map (pieceOf header payload) := by
      intro p hp
      rcases List.mem_cons.mp hp with rfl | hp
      · exact mem_map_of_mem hc
      · obtain ⟨d, hd, -, rfl⟩ := (h.mem p).mp hp
        exact mem_map_of_mem hd
    have hle := (List.subperm_of_subset (List.nodup_cons.mpr ⟨hnew, h.nodup⟩) hsub).length_le
    rw [h.keeps.filled, length_map] at hfull
    rw [List.length_cons, length_map] at hle
    omega

theorem total_eq (h : Holding header payload cuts buffer stored arrived) {total : Nat}
    (htotal : buffer.total = some total) : total = payload.length := by
  obtain ⟨⟨p, hfilter, hstop⟩, -⟩ := h.keeps.ended total htotal
  obtain ⟨hp, hlast⟩ := List.mem_filter.mp (hfilter ▸ List.mem_singleton_self p)
  obtain ⟨c, hc, -, rfl⟩ := (h.mem p).mp hp
  obtain ⟨-, hce⟩ := hcarried.range_pieceOf header hc
  obtain ⟨-, hmore, -⟩ := pieceOf_fields header payload c
  obtain ⟨-, hle, -, -, -, hiff⟩ := hcarried.tiles.inside c hc
  by_contra hne
  rw [hmore, hiff.mpr (by omega)] at hlast
  cases hlast

theorem isComplete_iff (hn : 0 < payload.length)
    (h : Holding header payload cuts buffer stored arrived) :
    buffer.isComplete = true ↔ ∀ c ∈ cuts, arrived c := by
  constructor
  · intro hcomplete c hc
    obtain ⟨total, htotal⟩ := Buffer.total_of_isComplete hcomplete
    obtain rfl := h.total_eq hcarried htotal
    obtain ⟨-, hle, hpos, -⟩ := hcarried.tiles.inside c hc
    obtain ⟨range, hrange, hin⟩ := (Buffer.isComplete_iff htotal).mp hcomplete c.1 (by omega)
    rw [h.keeps.filled] at hrange
    obtain ⟨p, hp, rfl⟩ := List.mem_map.mp hrange
    obtain ⟨d, hd, harrived, rfl⟩ := (h.mem p).mp hp
    obtain ⟨hds, hde⟩ := hcarried.range_pieceOf header hd
    unfold range at hin
    dsimp only at hin
    rw [hds, hde] at hin
    obtain rfl := hcarried.tiles.eq_of_meet hc hd ⟨hin.2, by omega⟩
    exact harrived
  · intro hall
    obtain ⟨last, hlast, hmore, hend⟩ := hcarried.tiles.exists_last hn
    cases htotal : buffer.total with
    | none =>
      have hopen := h.keeps.unended htotal (pieceOf header payload last)
        ((h.mem _).mpr ⟨last, hlast, hall last hlast, rfl⟩)
      rw [(pieceOf_fields header payload last).2.1, hmore] at hopen
      cases hopen
    | some total =>
      obtain rfl := h.total_eq hcarried htotal
      refine (Buffer.isComplete_iff htotal).mpr fun i hi => ?_
      obtain ⟨c, hc, hcover⟩ := hcarried.tiles.cover i (Nat.zero_le _) hi
      obtain ⟨hcs, hce⟩ := hcarried.range_pieceOf header hc
      refine ⟨(pieceOf header payload c).range, ?_, ?_⟩
      · rw [h.keeps.filled]
        exact mem_map_of_mem ((h.mem _).mpr ⟨c, hc, hall c hc, rfl⟩)
      · unfold range
        rw [hcs, hce]
        exact hcover

theorem data_eq (hbytes : payload.length ≤ bytes)
    (h : Holding header payload cuts buffer stored arrived) (hcomplete : buffer.isComplete = true) :
    buffer.total = some payload.length ∧ buffer.data.take payload.length = payload := by
  obtain ⟨total, htotal⟩ := Buffer.total_of_isComplete hcomplete
  obtain rfl := h.total_eq hcarried htotal
  refine ⟨htotal, ?_⟩
  have hassembled := h.keeps.assembled htotal hbytes hcomplete
  have hlength : (buffer.data.take payload.length).length = payload.length := by
    rw [List.length_take, buffer.length_data]
    omega
  apply List.ext_getElem?
  intro i
  by_cases hi : i < payload.length
  · obtain ⟨p, hfilter, hbyte⟩ := hassembled.once i (by omega)
    obtain ⟨hp, hcovers⟩ := List.mem_filter.mp (hfilter ▸ List.mem_singleton_self p)
    obtain ⟨c, hc, -, rfl⟩ := (h.mem p).mp hp
    obtain ⟨hcs, hce⟩ := hcarried.range_pieceOf header hc
    unfold covers at hcovers
    rw [decide_eq_true_eq, hcs, hce] at hcovers
    rw [hbyte, hcs, (pieceOf_fields header payload c).2.2, slice,
      List.getElem?_take_of_lt (by omega), List.getElem?_drop]
    congr 1
    omega
  · rw [List.getElem?_eq_none (by omega), List.getElem?_eq_none (by omega)]

end

end Holding

/-- A reassembler that holds those of the pieces that have arrived, and no other datagram. -/
def Held (header : Header) (payload : List Byte) (cuts : List (Nat × Nat × Bool))
    (r : Reassembler slots bytes) (arrived : Nat × Nat × Bool → Prop) : Prop :=
  (r.buffers = [] ∧ ∀ c ∈ cuts, ¬ arrived c) ∨
  ∃ buffer stored, r.buffers = [buffer] ∧ (∀ c, (pieceOf header payload c).key = buffer.key) ∧
    Holding header payload cuts buffer stored arrived

namespace Held

theorem congr (h : Held header payload cuts r arrived) {arrived' : Nat × Nat × Bool → Prop}
    (hiff : ∀ c ∈ cuts, arrived c ↔ arrived' c) : Held header payload cuts r arrived' := by
  obtain ⟨hempty, hnone⟩ | ⟨buffer, stored, hone, hkey, hholding⟩ := h
  · exact .inl ⟨hempty, fun c hc harrived => hnone c hc ((hiff c hc).mpr harrived)⟩
  refine .inr ⟨buffer, stored, hone, hkey, hholding.keeps, hholding.nodup, fun p => ?_⟩
  rw [hholding.mem p]
  constructor
  · rintro ⟨c, hc, harrived, rfl⟩
    exact ⟨c, hc, (hiff c hc).mp harrived, rfl⟩
  · rintro ⟨c, hc, harrived, rfl⟩
    exact ⟨c, hc, (hiff c hc).mpr harrived, rfl⟩

theorem slotFor (h : Held header payload cuts r arrived) (hslots : 0 < slots)
    (c : Nat × Nat × Bool) (deadline : Instant) :
    ∃ r₁ buffer stored, r.slotFor (pieceOf header payload c).key deadline = (.ok 0, r₁) ∧
      r₁.buffers = [buffer] ∧ (∀ c, (pieceOf header payload c).key = buffer.key) ∧
      Holding header payload cuts buffer stored arrived := by
  unfold Reassembler.slotFor
  obtain ⟨hempty, hnone⟩ | ⟨buffer, stored, hone, hkey, hholding⟩ := h
  · rw [hempty]
    simp only [List.findIdx?_nil, List.length_nil]
    rw [if_neg (by omega)]
    dsimp only
    rw [List.length_nil, if_pos hslots]
    refine ⟨_, _, [], rfl, rfl, fun d => key_pieceOf header payload d c, keeps_fresh _ _,
      List.nodup_nil, fun p => ⟨nofun, ?_⟩⟩
    rintro ⟨d, hd, harrived, -⟩
    exact absurd harrived (hnone d hd)
  · refine ⟨r, buffer, stored, ?_, hone, hkey, hholding⟩
    rw [hone, hkey c]
    simp

/-- One more delivery: the payload if none is missing, and nothing otherwise. -/
theorem acceptPiece (hcarried : Carried payload per cuts) (hcount : cuts.length ≤ maxRanges)
    (hn : 0 < payload.length) (hslots : 0 < slots) (hbytes : payload.length ≤ bytes)
    (h : Held header payload cuts r arrived) (hc : c ∈ cuts) (now : Instant) :
    let after := r.acceptPiece (pieceOf header payload c) now
    Held header payload cuts after.2 (fun d => d = c ∨ arrived d) ∧
    ((∀ d ∈ cuts, d = c ∨ arrived d) → after.1 = .ok (some payload)) ∧
    (¬ (∀ d ∈ cuts, d = c ∨ arrived d) → after.1 = .ok none) := by
  dsimp only
  have hend : (pieceOf header payload c).stop ≤ bytes := by
    rw [(hcarried.range_pieceOf header hc).2]
    exact le_trans (hcarried.tiles.inside c hc).2.1 hbytes
  obtain ⟨r₁, buffer, stored, hslot, hone, hkey, hholding⟩ :=
    h.slotFor hslots c (now.saturatingAdd r.timeout)
  obtain ⟨hok, stored', hholding'⟩ := hholding.insert hcarried hcount hc hend
  obtain ⟨hafter, hanswer⟩ := Reassembler.acceptPiece_slot hend hslot (by rw [hone]; rfl)
  rw [hok] at hanswer
  dsimp only at hanswer
  refine ⟨.inr ⟨_, stored', ?_, fun d => ?_, hholding'⟩, fun hall => ?_, fun hmissing => ?_⟩
  · rw [hafter]
    dsimp only
    rw [hone]
    rfl
  · rw [Reassembler.key_insert]
    exact hkey d
  · have hcomplete := (hholding'.isComplete_iff hcarried hn).mpr hall
    obtain ⟨htotal, hdata⟩ := hholding'.data_eq hcarried hbytes hcomplete
    rw [hanswer, if_pos hcomplete, htotal, Option.getD_some, if_pos hbytes, hdata]
  · rw [hanswer, if_neg fun hcomplete =>
      hmissing ((hholding'.isComplete_iff hcarried hn).mp hcomplete)]

end Held

theorem Carried.eq_of_datagramOf {per : Nat}
    {cuts : List (Nat × Nat × Bool)} {c d : Nat × Nat × Bool} (h : Carried payload per cuts)
    (htotal : ∀ c ∈ cuts, minHeaderLen + c.2.1 < 2 ^ 16) (hc : c ∈ cuts) (hd : d ∈ cuts)
    (heq : datagramOf header payload c = datagramOf header payload d) : c = d := by
  have hparse := Header.parse_encoded (header.forPiece c)
    (length_slice (h.tiles.inside c hc).2.1) (htotal c hc)
  have hparse' := Header.parse_encoded (header.forPiece d)
    (length_slice (h.tiles.inside d hd).2.1) (htotal d hd)
  unfold datagramOf at heq
  rw [heq, hparse'] at hparse
  exact (h.eq_of_pieceOf header hd hc (congrArg of (Except.ok.inj hparse))).symm

section Fits

/-- The pieces of a payload that does not fit one, and a reassembler with room for them. -/
structure Cut (slots bytes : Nat) (payload : List Byte) (cuts : List (Nat × Nat × Bool)) :
    Prop where
  total : ∀ c ∈ cuts, minHeaderLen + c.2.1 < 2 ^ 16
  split : ∀ c ∈ cuts, c.2.2 = true ∨ carriedOffset c.1 ≠ 0
  count : cuts.length ≤ maxRanges
  pos : 0 < payload.length
  slots_pos : 0 < slots
  room : payload.length ≤ bytes

section

variable (hcarried : Carried payload per cuts) (hcut : Cut slots bytes payload cuts)
  (h : Held header payload cuts r arrived)
include hcarried hcut h

theorem Held.deliver (hc : c ∈ cuts) (now : Instant) :
    let after := r.deliver (datagramOf header payload c) now
    Held header payload cuts after.2 (fun d => d = c ∨ arrived d) ∧
    ((∀ d ∈ cuts, d = c ∨ arrived d) → after.1 = .ok (some payload)) ∧
    (¬ (∀ d ∈ cuts, d = c ∨ arrived d) → after.1 = .ok none) := by
  rw [deliver_datagramOf (hcarried.tiles.inside c hc).2.1 (hcut.total c hc),
    if_pos (hcut.split c hc)]
  exact h.acceptPiece hcarried hcut.count hcut.pos hcut.slots_pos hcut.room hc now

theorem Held.deliverAll (order : List (List Byte × Instant))
    (horder : ∀ delivery ∈ order, delivery.1 ∈ cuts.map (datagramOf header payload)) :
    Held header payload cuts (r.deliverAll order) fun d =>
      (∃ delivery ∈ order, delivery.1 = datagramOf header payload d) ∨ arrived d := by
  induction order generalizing r arrived with
  | nil => exact h.congr fun c _ => ⟨.inr, fun h => h.resolve_left fun ⟨_, hmem, _⟩ => nomatch hmem⟩
  | cons delivery order ih =>
    obtain ⟨c, hc, heq⟩ := List.mem_map.mp (horder delivery List.mem_cons_self)
    have hnext := (h.deliver hcarried hcut hc delivery.2).1
    rw [heq] at hnext
    refine (ih hnext fun d hd => horder d (List.mem_cons_of_mem _ hd)).congr fun d hd => ?_
    constructor
    · rintro (⟨other, hother, hsame⟩ | rfl | harrived)
      · exact .inl ⟨other, List.mem_cons_of_mem _ hother, hsame⟩
      · exact .inl ⟨delivery, List.mem_cons_self, heq.symm⟩
      · exact .inr harrived
    · rintro (⟨other, hother, hsame⟩ | harrived)
      · rcases List.mem_cons.mp hother with rfl | hother
        · exact .inr (.inl (hcarried.eq_of_datagramOf hcut.total hd hc (hsame.symm.trans heq.symm)))
        · exact .inl ⟨other, hother, hsame⟩
      · exact .inr (.inr harrived)

end

theorem roundTrip_of_carried (hcarried : Carried payload per cuts)
    (hcut : Cut slots bytes payload cuts) (timeout : Duration) :
    RoundTrip slots bytes timeout (cuts.map (datagramOf header payload)) payload := by
  intro order last now horder hlast
  obtain ⟨c, hc, rfl⟩ := List.mem_map.mp hlast
  have hstart : Held header payload cuts
      (Reassembler.withTimeout timeout : Reassembler slots bytes) fun _ => False :=
    .inl ⟨rfl, fun _ _ => id⟩
  have hheld := hstart.deliverAll hcarried hcut order horder
  obtain ⟨-, hall, hmissing⟩ := hheld.deliver hcarried hcut hc now
  have hiff : (∀ datagram ∈ cuts.map (datagramOf header payload),
      datagram = datagramOf header payload c ∨ ∃ delivery ∈ order, delivery.1 = datagram) ↔
      ∀ d ∈ cuts, d = c ∨
        ((∃ delivery ∈ order, delivery.1 = datagramOf header payload d) ∨ False) := by
    constructor
    · intro hevery d hd
      rcases hevery _ (mem_map_of_mem hd) with hsame | hthere
      · exact .inl (hcarried.eq_of_datagramOf hcut.total hd hc hsame)
      · exact .inr (.inl hthere)
    · intro hevery datagram hdatagram
      obtain ⟨d, hd, rfl⟩ := List.mem_map.mp hdatagram
      rcases hevery d hd with rfl | hthere | hfalse
      · exact .inl rfl
      · exact .inr hthere
      · exact hfalse.elim
  exact ⟨fun hevery => hall (hiff.mp hevery), fun hnot => hmissing fun hevery =>
    hnot (hiff.mpr hevery)⟩

end Fits

/-! ## Offsets that do not fit -/

section Short

variable {n : Nat} {piece : Piece} {now : Instant}

/-- Every datagram that is being put back together is taken to end before `n`. -/
structure Short (n : Nat) (r : Reassembler slots bytes) : Prop where
  distinct : Reassembler.Distinct r.buffers
  total : ∀ buffer ∈ r.buffers, ∀ total, buffer.total = some total → total < n

theorem total_insert (buffer : Buffer bytes) (hend : piece.stop ≤ bytes) :
    (buffer.insert piece hend).2.total = buffer.total ∨
      piece.more = false ∧ (buffer.insert piece hend).2.total = some piece.stop := by
  unfold Buffer.insert
  split
  · split <;> exact .inl rfl
  dsimp only
  split
  · cases hmore : piece.more with
    | true => exact .inl rfl
    | false => exact .inr ⟨rfl, rfl⟩
  · exact .inl rfl

theorem Short.acceptPiece (h : Short n r) (hpiece : piece.more = false → piece.stop < n) :
    Short n (r.acceptPiece piece now).2 ∧
      ∀ answer, (r.acceptPiece piece now).1 = .ok (some answer) → answer.length < n := by
  obtain ⟨error, herror, hkept, -⟩ | ⟨hend, b, -, hwhere, htook⟩ :=
    Reassembler.acceptPiece_cases h.distinct piece now
  · rw [herror]
    exact ⟨⟨h.distinct.sublist hkept, fun c hc => h.total c (hkept.subset hc)⟩, nofun⟩
  have htotal : ∀ total, (b.insert piece hend).2.total = some total → total < n := by
    intro total htotal
    rcases total_insert b hend with hsame | ⟨hmore, hstop⟩
    · rw [hsame] at htotal
      rcases hwhere with hold | ⟨-, rfl⟩
      · exact h.total b hold total htotal
      · cases htotal
    · rw [hstop] at htotal
      exact Option.some.inj htotal ▸ hpiece hmore
  refine ⟨⟨htook.distinct, fun c hc => ?_⟩, fun answer hanswer => ?_⟩
  · rcases htook.others c hc with rfl | hold
    · exact htotal
    · exact h.total c hold.1
  · obtain ⟨-, -, total, hsome, -, rfl⟩ := htook.answer answer hanswer
    exact lt_of_le_of_lt (List.length_take_le _ _) (htotal total hsome)

end Short

section Overflow

section

variable (htiles : Tiles per payload.length 0 cuts) (hper : per < payload.length)
  (htotal : ∀ c ∈ cuts, minHeaderLen + c.2.1 < 2 ^ 16)
  (hover : 65528 < (payload.length - 1) / per * per)
include htiles hper htotal hover

/-- What is delivered of a payload whose last offset does not fit: nothing that is whole, and no
piece that ends where the payload does. -/
theorem Short.deliver (h : Short payload.length r) (hc : c ∈ cuts) (now : Instant) :
    Short payload.length (r.deliver (datagramOf header payload c) now).2 ∧
      ∀ answer, (r.deliver (datagramOf header payload c) now).1 = .ok (some answer) →
        answer.length < payload.length := by
  obtain ⟨-, hinside, -, hlength, -, hmore⟩ := htiles.inside c hc
  rw [deliver_datagramOf hinside (htotal c hc)]
  split
  · refine h.acceptPiece fun hlast => ?_
    obtain ⟨hoffset, hpieceMore, hpayload⟩ := pieceOf_fields header payload c
    have hend : c.1 + c.2.1 = payload.length := by
      by_contra hlt
      rw [hpieceMore, hmore.mpr (by omega)] at hlast
      cases hlast
    have hstart := htiles.start_last hc hend
    have hcarried := carriedOffset_le c.1
    unfold stop
    rw [hoffset, hpayload, length_slice hinside]
    omega
  · refine ⟨h, fun answer heq => ?_⟩
    cases heq
    rw [length_slice hinside]
    omega

theorem Short.deliverAll (h : Short payload.length r) (order : List (List Byte × Instant))
    (horder : ∀ delivery ∈ order, delivery.1 ∈ cuts.map (datagramOf header payload)) :
    Short payload.length (r.deliverAll order) := by
  induction order generalizing r with
  | nil => exact h
  | cons delivery order ih =>
    obtain ⟨c, hc, heq⟩ := List.mem_map.mp (horder delivery List.mem_cons_self)
    have hnext : Short payload.length
        (r.deliver (datagramOf header payload c) delivery.2).2 :=
      (h.deliver htiles hper htotal hover hc delivery.2).1
    rw [heq] at hnext
    exact ih hnext fun d hd => horder d (List.mem_cons_of_mem _ hd)

theorem not_roundTrip (timeout : Duration) :
    ¬ RoundTrip slots bytes timeout (cuts.map (datagramOf header payload)) payload := by
  intro htrip
  obtain ⟨last, hlast, -⟩ := htiles.exists_last (by omega)
  -- every datagram once, and the last once more
  have horder : ∀ delivery ∈ (cuts.map (datagramOf header payload)).map fun bytes =>
      (bytes, (0 : Instant)), delivery.1 ∈ cuts.map (datagramOf header payload) := by
    intro delivery hdelivery
    obtain ⟨datagram, hdatagram, rfl⟩ := List.mem_map.mp hdelivery
    exact hdatagram
  have hanswer := (htrip _ _ 0 horder (mem_map_of_mem hlast)).1 fun datagram hdatagram =>
    .inr ⟨(datagram, 0), mem_map_of_mem hdatagram, rfl⟩
  have hstart : Short payload.length (Reassembler.withTimeout timeout : Reassembler slots bytes) :=
    ⟨List.Pairwise.nil, fun _ hmem => nomatch hmem⟩
  have hshort := hstart.deliverAll htiles hper htotal hover _ horder
  exact lt_irrefl _ ((hshort.deliver htiles hper htotal hover hlast 0).2 payload hanswer)

end

end Overflow

/-! ## The condition -/

theorem offsetsFit_of_whole {length mtu : Nat} (hper : 0 < perFragment mtu)
    (hwhole : length ≤ perFragment mtu) : OffsetsFit length mtu := by
  unfold OffsetsFit
  rw [Nat.div_eq_of_lt (by omega)]
  omega

theorem roundTrip_whole (htotal : minHeaderLen + payload.length < 2 ^ 16) (timeout : Duration) :
    RoundTrip slots bytes timeout [datagramOf header payload (0, payload.length, false)]
      payload := by
  intro order last now horder hlast
  obtain rfl := List.mem_singleton.mp hlast
  have hanswer : ((Reassembler.withTimeout timeout : Reassembler slots bytes).deliverAll
      order).deliver (datagramOf header payload (0, payload.length, false)) now =
      (.ok (some payload), (Reassembler.withTimeout timeout).deliverAll order) := by
    rw [deliver_datagramOf (le_of_eq (zero_add _)) htotal, if_neg (by simp [carriedOffset])]
    unfold slice
    rw [List.drop_zero, List.take_length]
  refine ⟨fun _ => by rw [hanswer], fun hmissing => ?_⟩
  refine absurd (fun datagram hdatagram => ?_) hmissing
  exact .inl (List.mem_singleton.mp hdatagram)

theorem perFragment_dvd (mtu : Nat) : fragmentUnit ∣ perFragment mtu := Nat.dvd_mul_left _ _

variable {mtu : Nat}

theorem fragment_ok {emitted : List (List Byte)} {buffer buffer' : List Byte}
    (h : fragment header payload mtu buffer = (.ok emitted, buffer')) :
    0 < perFragment mtu ∧
    emitted = (all ⟨perFragment mtu, payload.length, 0⟩).map
      (datagramOf header payload) ∧
    ∀ c ∈ all ⟨perFragment mtu, payload.length, 0⟩, minHeaderLen + c.2.1 < 2 ^ 16 := by
  unfold fragment at h
  cases hnew : new payload.length mtu with
  | error error =>
    rw [hnew] at h
    cases h
  | ok pieces =>
    rw [hnew] at h
    dsimp only at h
    obtain ⟨hper, rfl⟩ := fragments_new hnew
    split at h
    · cases h
    · obtain ⟨hemitted, hcuts⟩ := emitAll_ok h
      exact ⟨hper, hemitted, fun c hc => (hcuts c hc).2⟩

theorem carried_all (hper : 0 < perFragment mtu)
    (hsplit : perFragment mtu < payload.length) (hfit : OffsetsFit payload.length mtu)
    (htotal : ∀ c ∈ all ⟨perFragment mtu, payload.length, 0⟩,
      minHeaderLen + c.2.1 < 2 ^ 16)
    (hcount : (all ⟨perFragment mtu, payload.length, 0⟩).length ≤ maxRanges)
    (hslots : 0 < slots) (hbytes : payload.length ≤ bytes) :
    Carried payload (perFragment mtu) (all ⟨perFragment mtu, payload.length, 0⟩) ∧
      Cut slots bytes payload (all ⟨perFragment mtu, payload.length, 0⟩) := by
  have htiles := tiles_all hper (show 0 < payload.length by omega)
  have hoffset : ∀ c ∈ all ⟨perFragment mtu, payload.length, 0⟩,
      carriedOffset c.1 = c.1 := by
    intro c hc
    obtain ⟨-, -, -, -, hdvd, -⟩ := htiles.inside c hc
    exact carriedOffset_eq (Nat.mod_eq_zero_of_dvd ((perFragment_dvd mtu).trans hdvd))
      ((htiles.start_le hper hc).trans hfit)
  refine ⟨⟨htiles, hoffset⟩, htotal, fun c hc => ?_, hcount, by omega, hslots, hbytes⟩
  obtain ⟨-, hle, -, hlength, -, hmore⟩ := htiles.inside c hc
  rw [hoffset c hc, hmore]
  omega

theorem fragment_run {buffer : List Byte}
    (hmay : header.dontFragment = false) (hmtu : minHeaderLen ≤ mtu) (hper : 0 < perFragment mtu)
    (hcuts : ∀ c ∈ all ⟨perFragment mtu, payload.length, 0⟩,
      c.1 + c.2.1 ≤ payload.length ∧ minHeaderLen + c.2.1 < 2 ^ 16 ∧
        minHeaderLen + c.2.1 ≤ buffer.length) :
    ∃ buffer', fragment header payload mtu buffer =
      (.ok ((all ⟨perFragment mtu, payload.length, 0⟩).map (datagramOf header payload)),
        buffer') := by
  have hnew : new payload.length mtu = .ok ⟨perFragment mtu, payload.length, 0⟩ := by
    unfold new withHeader
    rw [if_neg (by omega)]
    exact if_neg (Nat.ne_of_gt hper)
  obtain ⟨buffer', hrun⟩ := @emitAll_run header payload buffer _ hcuts
  refine ⟨buffer', ?_⟩
  unfold fragment
  rw [hnew]
  dsimp only
  rw [if_neg (by simp [hmay])]
  exact hrun

/-- Whatever `fragment` emits in at most sixty-four pieces is put back together, in every order and
with every repetition, exactly when the offset of the last piece fits its field. -/
theorem round_trip_iff {header : Header} {payload : List Byte} {mtu : Nat}
    {emitted : List (List Byte)} {buffer buffer' : List Byte}
    (hemit : fragment header payload mtu buffer = (.ok emitted, buffer'))
    (hcount : emitted.length ≤ 64) (hslots : 0 < slots) (hbytes : payload.length ≤ bytes)
    (timeout : Duration) :
    RoundTrip slots bytes timeout emitted payload ↔ OffsetsFit payload.length mtu := by
  obtain ⟨hper, rfl, htotal⟩ := fragment_ok hemit
  by_cases hwhole : payload.length ≤ perFragment mtu
  · rw [all_whole hwhole] at htotal ⊢
    have hlength := htotal _ (List.mem_singleton_self _)
    exact iff_of_true (roundTrip_whole hlength timeout) (offsetsFit_of_whole hper hwhole)
  have hsplit : perFragment mtu < payload.length := by omega
  constructor
  · intro htrip
    by_contra hover
    unfold OffsetsFit at hover
    exact not_roundTrip (tiles_all hper (by omega)) hsplit htotal (by omega) timeout htrip
  · intro hfit
    rw [length_map] at hcount
    obtain ⟨hcarried, hcut⟩ := carried_all hper hsplit hfit htotal hcount hslots hbytes
    exact roundTrip_of_carried hcarried hcut timeout

/-- A header of a datagram that may be cut up. -/
def plainHeader : Header where
  source := 0x0A000001
  destination := 0x0A000002
  protocol := Protocol.tcp
  ttl := 64
  identification := 1
  dontFragment := false
  moreFragments := false
  fragmentOffset := 0
  payloadLen := 0

theorem round_trip_iff_two_pieces : ∃ emitted buffer',
    fragment plainHeader (replicate 9 7) 28 (replicate 28 0) = (.ok emitted, buffer') ∧
    emitted.length = 2 ∧ RoundTrip 1 9 30 emitted (replicate 9 7) := by
  have hall : all ⟨perFragment 28, 9, 0⟩ = [(0, 8, true), (8, 1, false)] := by decide +kernel
  obtain ⟨buffer', hrun⟩ := @fragment_run plainHeader (replicate 9 7) 28 (replicate 28 0)
    rfl (by decide) (by decide) (by rw [length_replicate, length_replicate, hall]; decide)
  refine ⟨_, buffer', hrun, ?_, (round_trip_iff hrun ?_ (by decide) (by simp) 30).mpr (by
    rw [length_replicate]
    unfold OffsetsFit
    decide)⟩
  · rw [length_map, length_replicate, hall]
    rfl
  · rw [length_map, length_replicate, hall]
    decide

/-- Three pieces, the last of which begins beyond the reach of the offset field. -/
theorem long_payload_not_round_trip : ∃ emitted buffer',
    fragment plainHeader (replicate 131025 7) 65532 (replicate 65532 0) =
      (.ok emitted, buffer') ∧
    emitted.length = 3 ∧ ¬ RoundTrip 1 131025 30 emitted (replicate 131025 7) := by
  have hall : all ⟨perFragment 65532, 131025, 0⟩ =
      [(0, 65512, true), (65512, 65512, true), (131024, 1, false)] := by
    decide +kernel
  have hper : perFragment 65532 = 65512 := by decide +kernel
  have hlength : (replicate 131025 (7 : Byte)).length = 131025 := length_replicate
  obtain ⟨buffer', hrun⟩ := @fragment_run plainHeader (replicate 131025 7) 65532
    (replicate 65532 0) rfl (by decide +kernel) (by rw [hper]; decide +kernel) (by
      rw [hlength, length_replicate, hall]
      decide +kernel)
  have htiles : Tiles (perFragment 65532) 131025 0 (all ⟨perFragment 65532, 131025, 0⟩) :=
    tiles_all (by rw [hper]; decide +kernel) (by decide +kernel)
  refine ⟨_, buffer', hrun, ?_, ?_⟩
  · rw [length_map, hlength, hall]
    rfl
  · refine not_roundTrip (hlength ▸ htiles) ?_ (fragment_ok hrun).2.2 ?_ 30
    · rw [hlength, hper]
      decide +kernel
    · rw [hlength, hper]
      decide +kernel

end Audhsos.Ip
