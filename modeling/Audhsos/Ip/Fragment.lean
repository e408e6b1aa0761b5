import Audhsos.Ip.Header
import Audhsos.Ip.Hostile

/-!
Cutting a datagram up. The offset field counts in units of eight bytes, so every piece but the last
carries a multiple of eight; it has thirteen bits, which the writer of the header does not look at.
-/

namespace Audhsos.Ip

open Wire Lib Header List Writer
open Tcp (Instant Duration)

/-- How a payload is cut: what a piece may carry, the length, and where the next piece begins. -/
structure Fragments where
  perFragment : Nat
  payloadLen : Nat
  offset : Nat

namespace Fragments

def withHeader (payloadLen mtu headerLen : Nat) : Except IpError Fragments :=
  if mtu < headerLen then .error (.wouldFragment payloadLen mtu)
  else
    let perFragment := (mtu - headerLen) / fragmentUnit * fragmentUnit
    if perFragment = 0 then .error (.wouldFragment payloadLen mtu)
    else .ok ⟨perFragment, payloadLen, 0⟩

def new (payloadLen mtu : Nat) : Except IpError Fragments := withHeader payloadLen mtu minHeaderLen

variable (pieces : Fragments)

def isWhole : Bool := pieces.payloadLen ≤ pieces.perFragment

/-- The next piece: where it begins, how long it is, and whether another follows. An empty payload
makes one piece, so the walk goes on by at least one byte. -/
def next : Option ((Nat × Nat × Bool) × Fragments) :=
  if pieces.payloadLen < pieces.offset then none
  else if pieces.offset = pieces.payloadLen ∧ 0 < pieces.offset then none
  else
    let remaining := pieces.payloadLen - pieces.offset
    let length := if remaining < pieces.perFragment then remaining else pieces.perFragment
    let step := if length = 0 then 1 else length
    some ((pieces.offset, length, length < remaining),
      { pieces with offset := pieces.offset + step })

/-- The pieces that are left, in so many steps. -/
def walk : Nat → Fragments → List (Nat × Nat × Bool)
  | 0, _ => []
  | steps + 1, pieces =>
    match pieces.next with
    | none => []
    | some (piece, pieces) => piece :: walk steps pieces

/-- All of them. A step goes on by at least one byte. -/
def all : List (Nat × Nat × Bool) := walk (pieces.payloadLen + 2) pieces

end Fragments

variable (header : Header)

def Header.forPiece (piece : Nat × Nat × Bool) : Header :=
  { header with
    payloadLen := piece.2.1
    moreFragments := piece.2.2
    fragmentOffset := piece.1 }

variable (payload : List Byte)

def slice (c : Nat × Nat × Bool) : List Byte := (payload.drop c.1).take c.2.1

/-- Writes one piece into the buffer and answers the datagram that stands there. -/
def emitPiece (piece : Nat × Nat × Bool) :
    Prog IpError (List Byte) (List Byte) := fun buffer =>
  if payload.length < piece.1 + piece.2.1 then (.error (.tooLarge payload.length), buffer)
  else
    let write : Prog IpError Writer Unit := do
      (header.forPiece piece).write
      wired (writeBytes (slice payload piece))
    match write ⟨buffer, 0⟩ with
    | (.ok (), writer) => (.ok writer.written, writer.bytes)
    | (.error error, writer) => (.error error, writer.bytes)

/-- Writes the pieces one after the other into the same buffer. -/
def emitAll (header : Header) (payload : List Byte) :
    List (Nat × Nat × Bool) → Prog IpError (List Byte) (List (List Byte))
  | [] => pure []
  | piece :: rest => do
    let datagram ← emitPiece header payload piece
    let datagrams ← emitAll header payload rest
    pure (datagram :: datagrams)

/-- Writes one datagram, cut into as many pieces as the unit requires. The receiver of the pieces
is one that keeps them all. -/
def fragment (mtu : Nat) :
    Prog IpError (List Byte) (List (List Byte)) := fun buffer =>
  match Fragments.new payload.length mtu with
  | .error error => (.error error, buffer)
  | .ok pieces =>
    if header.dontFragment ∧ pieces.isWhole = false then
      (.error (.wouldFragment payload.length mtu), buffer)
    else emitAll header payload pieces.all buffer

/-! ## The cuts -/

/-- The pieces lie one behind the other, from a place to the end of the payload. -/
structure Tiles (per n from_ : Nat) (cuts : List (Nat × Nat × Bool)) : Prop where
  inside : ∀ c ∈ cuts, from_ ≤ c.1 ∧ c.1 + c.2.1 ≤ n ∧ 0 < c.2.1 ∧ c.2.1 ≤ per ∧ per ∣ c.1 ∧
    (c.2.2 = true ↔ c.1 + c.2.1 < n)
  apart : cuts.Pairwise fun c d => c.1 + c.2.1 ≤ d.1
  cover : ∀ i, from_ ≤ i → i < n → ∃ c ∈ cuts, c.1 ≤ i ∧ i < c.1 + c.2.1

theorem tiles_walk {per n : Nat} (hper : 0 < per) (hn : 0 < n) (steps from_ : Nat)
    (hsteps : n - from_ < steps) (hle : from_ ≤ n) (hfrom : from_ = n ∨ per ∣ from_) :
    Tiles per n from_ (Fragments.walk steps ⟨per, n, from_⟩) := by
  induction steps generalizing from_ with
  | zero => omega
  | succ steps ih =>
    unfold Fragments.walk Fragments.next
    dsimp only
    rw [if_neg (by omega)]
    by_cases hend : from_ = n
    · rw [if_pos ⟨hend, by omega⟩]
      refine ⟨nofun, .nil, fun i hlow hhigh => ?_⟩
      omega
    rw [if_neg (by omega)]
    generalize hdef : (if n - from_ < per then n - from_ else per) = length
    have hlength : 0 < length ∧ length ≤ per ∧ from_ + length ≤ n := by
      split at hdef <;> omega
    have haligned : from_ + length = n ∨ per ∣ from_ + length := by
      split at hdef
      · left
        omega
      · exact .inr (Nat.dvd_add (hfrom.resolve_left hend) hdef.dvd)
    dsimp only
    rw [if_neg (by omega)]
    have hrest := ih (from_ + length) (by omega) hlength.2.2 haligned
    refine ⟨fun c hc => ?_, ?_, fun i hlow hhigh => ?_⟩
    · rcases mem_cons.mp hc with rfl | hc
      · refine ⟨le_rfl, hlength.2.2, hlength.1, hlength.2.1, hfrom.resolve_left hend, ?_⟩
        simp only [decide_eq_true_eq]
        omega
      · obtain ⟨hlow, hrest⟩ := hrest.inside c hc
        exact ⟨by omega, hrest⟩
    · exact pairwise_cons.mpr ⟨fun d hd => (hrest.inside d hd).1, hrest.apart⟩
    · by_cases hin : i < from_ + length
      · exact ⟨_, mem_cons_self, hlow, hin⟩
      · obtain ⟨c, hc, hcover⟩ := hrest.cover i (by omega) hhigh
        exact ⟨c, mem_cons_of_mem _ hc, hcover⟩

def perFragment (mtu : Nat) : Nat := (mtu - minHeaderLen) / fragmentUnit * fragmentUnit

/-- What `Fragments.new` answers: pieces of a positive multiple of eight bytes. -/
theorem fragments_new {n mtu : Nat} {pieces : Fragments} (h : Fragments.new n mtu = .ok pieces) :
    0 < perFragment mtu ∧ pieces = ⟨perFragment mtu, n, 0⟩ := by
  unfold Fragments.new Fragments.withHeader at h
  split at h
  · cases h
  dsimp only at h
  split at h
  · cases h
  next hper =>
    cases h
    exact ⟨Nat.pos_of_ne_zero hper, rfl⟩

theorem tiles_all {per n : Nat} (hper : 0 < per) (hn : 0 < n) :
    Tiles per n 0 (Fragments.all ⟨per, n, 0⟩) :=
  tiles_walk hper hn (n + 2) 0 (by omega) (Nat.zero_le _) (.inr (Nat.dvd_zero per))

theorem all_whole {per n : Nat} (hwhole : n ≤ per) :
    Fragments.all ⟨per, n, 0⟩ = [(0, n, false)] := by
  have hlength : (if n < per then n else per) = n := by split <;> omega
  unfold Fragments.all Fragments.walk Fragments.next
  dsimp only
  rw [if_neg (by omega), if_neg (by omega), Nat.sub_zero, hlength, zero_add]
  dsimp only
  have hend : Fragments.walk (n + 1) ⟨per, n, if n = 0 then 1 else n⟩ = [] := by
    unfold Fragments.walk Fragments.next
    dsimp only
    by_cases hzero : n = 0
    · rw [if_pos hzero, if_pos (by omega)]
    · rw [if_neg hzero, if_neg (by omega), if_pos (by omega)]
  rw [hend]
  simp

namespace Tiles

variable {per n : Nat} {cuts : List (Nat × Nat × Bool)} {c d : Nat × Nat × Bool}

section

variable (h : Tiles per n 0 cuts)
include h

theorem eq_of_meet (hc : c ∈ cuts) (hd : d ∈ cuts)
    (hmeet : c.1 < d.1 + d.2.1 ∧ d.1 < c.1 + c.2.1) : c = d := by
  by_contra hne
  have hsymm : Std.Symm fun c d : Nat × Nat × Bool => c.1 + c.2.1 ≤ d.1 ∨ d.1 + d.2.1 ≤ c.1 :=
    ⟨fun _ _ => Or.symm⟩
  have hpairs : cuts.Pairwise fun c d => c.1 + c.2.1 ≤ d.1 ∨ d.1 + d.2.1 ≤ c.1 := h.apart.imp Or.inl
  have hapart := Pairwise.forall hpairs hc hd hne
  omega

theorem exists_last (hn : 0 < n) : ∃ c ∈ cuts, c.2.2 = false ∧ c.1 + c.2.1 = n := by
  obtain ⟨c, hc, hcover⟩ := h.cover (n - 1) (Nat.zero_le _) (by omega)
  obtain ⟨-, hle, -, -, -, hmore⟩ := h.inside c hc
  refine ⟨c, hc, ?_, by omega⟩
  by_contra hnot
  have hlt := hmore.mp (by simpa using hnot)
  omega

theorem start_le (hper : 0 < per) (hc : c ∈ cuts) : c.1 ≤ (n - 1) / per * per := by
  obtain ⟨-, hle, hpos, -, ⟨k, hk⟩, -⟩ := h.inside c hc
  have hdiv : k ≤ (n - 1) / per := by
    rw [Nat.le_div_iff_mul_le hper, mul_comm]
    omega
  rw [hk, mul_comm]
  exact Nat.mul_le_mul_right per hdiv

theorem start_last (hc : c ∈ cuts) (hlast : c.1 + c.2.1 = n) : c.1 = (n - 1) / per * per := by
  obtain ⟨-, -, hpos, hlen, ⟨k, hk⟩, -⟩ := h.inside c hc
  have hdiv : (n - 1) / per = k := by
    refine Nat.div_eq_of_lt_le ?_ ?_
    · rw [mul_comm, ← hk]
      omega
    · rw [Nat.add_mul, one_mul, mul_comm k per, ← hk]
      omega
  rw [hdiv, hk, mul_comm]

end

end Tiles

/-! ## The datagrams -/

/-- The datagram that carries one piece. -/
def datagramOf (header : Header) (payload : List Byte) (c : Nat × Nat × Bool) : List Byte :=
  (header.forPiece c).encoded ++ slice payload c

theorem length_slice {payload : List Byte} {c : Nat × Nat × Bool}
    (h : c.1 + c.2.1 ≤ payload.length) : (slice payload c).length = c.2.1 := by
  unfold slice
  rw [length_take, length_drop]
  omega

section

variable {header : Header} {payload : List Byte} {c : Nat × Nat × Bool} {buffer : List Byte}

theorem emitPiece_run (hinside : c.1 + c.2.1 ≤ payload.length)
    (htotal : minHeaderLen + c.2.1 < 2 ^ 16) (hroom : minHeaderLen + c.2.1 ≤ buffer.length) :
    ∃ buffer', buffer'.length = buffer.length ∧
      emitPiece header payload c buffer = (.ok (datagramOf header payload c), buffer') := by
  let writer : Writer := ⟨buffer, 0⟩
  have hspace : minHeaderLen ≤ writer.remaining := by
    change minHeaderLen ≤ buffer.length - 0
    omega
  have hrun := write_run (header.forPiece c) htotal hspace
  have hlength : (datagramOf header payload c).length = minHeaderLen + c.2.1 := by
    unfold datagramOf
    rw [length_append, length_slice hinside]
    exact congrArg (· + c.2.1) (length_encode _ _)
  have hboth : writer.position + (datagramOf header payload c).length ≤ writer.bytes.length := by
    rw [hlength, zero_add]
    exact hroom
  have hencoded : (header.forPiece c).encoded.length = minHeaderLen := length_encode _ _
  have hput : writer.position + (header.forPiece c).encoded.length ≤ writer.bytes.length := by
    omega
  have hbytes := puts_bytes (slice payload c) (writer.put (header.forPiece c).encoded) (by
      rw [length_put _ hput, length_slice hinside]
      change 0 + (header.forPiece c).encoded.length + c.2.1 ≤ buffer.length
      omega)
  rw [put_put _ hboth] at hbytes
  have hwritten := written_put writer hboth
  rw [drop_zero] at hwritten
  refine ⟨_, length_put _ hboth, ?_⟩
  unfold emitPiece
  rw [if_neg (by omega)]
  dsimp only
  rw [Prog.run_bind_ok hrun, hbytes]
  exact congrArg (fun data => (Except.ok data, _)) hwritten

theorem emitPiece_ok {buffer' datagram : List Byte}
    (h : emitPiece header payload c buffer = (.ok datagram, buffer')) :
    datagram = datagramOf header payload c ∧ c.1 + c.2.1 ≤ payload.length ∧
      minHeaderLen + c.2.1 < 2 ^ 16 := by
  have hanswer := h
  unfold emitPiece at h
  split at h
  · cases h
  next hout =>
    have hinside : c.1 + c.2.1 ≤ payload.length := le_of_not_gt hout
    dsimp only at h
    split at h
    next writer hwrite =>
      obtain ⟨_, middle, hheader, hbytes⟩ := Prog.ok_of_bind hwrite
      obtain ⟨htotal, hroom⟩ := write_ok hheader
      have hrun := write_run (header.forPiece c) htotal hroom
      have hencoded : (header.forPiece c).encoded.length = minHeaderLen := length_encode _ _
      have hspace : minHeaderLen ≤ buffer.length := hroom
      rw [hrun] at hheader
      obtain rfl := (Prod.mk.inj hheader).2
      have hfits : minHeaderLen + c.2.1 ≤ buffer.length := by
        unfold wired Prog.zoom writeBytes at hbytes
        rw [id_eq, length_put _ (by rw [hencoded, zero_add]; exact hspace),
          length_slice hinside] at hbytes
        by_contra hlong
        rw [if_neg (by
          change ¬ (0 + (header.forPiece c).encoded.length + c.2.1 ≤ buffer.length)
          omega)] at hbytes
        cases hbytes
      obtain ⟨after, -, hemit⟩ := @emitPiece_run header payload c buffer hinside htotal hfits
      rw [hemit] at hanswer
      cases hanswer
      exact ⟨rfl, hinside, htotal⟩
    · cases h

variable {cuts : List (Nat × Nat × Bool)}

theorem emitAll_run (hcuts : ∀ c ∈ cuts, c.1 + c.2.1 ≤ payload.length ∧
      minHeaderLen + c.2.1 < 2 ^ 16 ∧ minHeaderLen + c.2.1 ≤ buffer.length) :
    ∃ buffer', emitAll header payload cuts buffer =
      (.ok (cuts.map (datagramOf header payload)), buffer') := by
  induction cuts generalizing buffer with
  | nil => exact ⟨buffer, rfl⟩
  | cons c rest ih =>
    obtain ⟨hinside, htotal, hroom⟩ := hcuts c mem_cons_self
    obtain ⟨buffer₁, hlength, hpiece⟩ := @emitPiece_run header payload c buffer hinside htotal hroom
    obtain ⟨buffer₂, hrest⟩ := @ih buffer₁ fun d hd => by
      rw [hlength]
      exact hcuts d (mem_cons_of_mem _ hd)
    refine ⟨buffer₂, ?_⟩
    unfold emitAll
    rw [Prog.run_bind_ok hpiece, Prog.run_bind_ok hrest]
    rfl

theorem emitAll_ok {buffer' : List Byte} {datagrams : List (List Byte)}
    (h : emitAll header payload cuts buffer = (.ok datagrams, buffer')) :
    datagrams = cuts.map (datagramOf header payload) ∧
      ∀ c ∈ cuts, c.1 + c.2.1 ≤ payload.length ∧ minHeaderLen + c.2.1 < 2 ^ 16 := by
  induction cuts generalizing buffer buffer' datagrams with
  | nil =>
    cases h
    exact ⟨rfl, nofun⟩
  | cons c rest ih =>
    unfold emitAll at h
    obtain ⟨datagram, _, hpiece, hlater⟩ := Prog.ok_of_bind h
    obtain ⟨others, _, hrest, hdone⟩ := Prog.ok_of_bind hlater
    obtain ⟨hfirst, hinside⟩ := emitPiece_ok hpiece
    obtain ⟨hothers, hall⟩ := ih hrest
    cases hdone
    refine ⟨by rw [hfirst, hothers]; rfl, fun d hd => ?_⟩
    rcases mem_cons.mp hd with rfl | hd
    · exact hinside
    · exact hall d hd

end

/-! ## The offset field -/

/-- The offset a header carries, in bytes: the units beyond thirteen bits are cut off. -/
def carriedOffset (offset : Nat) : Nat :=
  (if offset / fragmentUnit < 2 ^ 16 then offset / fragmentUnit % 2 ^ 13 else 2 ^ 13 - 1) *
    fragmentUnit

theorem and_offsetMask_flags (x : Word) (dont more : Bool) :
    let held := if dont then x &&& offsetMask ||| flagDontFragment else x &&& offsetMask
    let word := if more then held ||| flagMoreFragments else held
    word &&& offsetMask = x &&& offsetMask ∧ (word &&& flagMoreFragments ≠ 0 ↔ more = true) := by
  have hzero : offsetMask &&& flagMoreFragments = 0 := by decide
  have hdont : flagDontFragment &&& offsetMask = 0 := by decide
  have hmore : flagMoreFragments &&& offsetMask = 0 := by decide
  have hself : offsetMask &&& offsetMask = offsetMask := by decide
  have hother : flagDontFragment &&& flagMoreFragments = 0 := by decide
  have hflag : flagMoreFragments &&& flagMoreFragments = flagMoreFragments := by decide
  have hset : ¬ flagMoreFragments = 0#16 := by decide
  cases dont <;> cases more <;>
    simp [BitVec.and_or_distrib_right, BitVec.and_assoc, hzero, hdont, hmore, hself, hother, hflag,
      hset]

theorem toNat_and_offsetMask (x : Word) :
    ((x &&& offsetMask) * 8).toNat = x.toNat % 2 ^ 13 * 8 := by
  have hmask : offsetMask.toNat = 2 ^ 13 - 1 := by decide
  rw [BitVec.toNat_mul, BitVec.toNat_and, hmask, Nat.and_two_pow_sub_one_eq_mod]
  change x.toNat % 2 ^ 13 * 8 % 2 ^ 16 = _
  omega

theorem datagram_fields (header : Header) (payload : List Byte) :
    (header.datagram payload).fragmentOffset = carriedOffset header.fragmentOffset ∧
    (header.datagram payload).moreFragments = header.moreFragments := by
  obtain ⟨hoffset, hmore⟩ := and_offsetMask_flags
    (if header.fragmentOffset / fragmentUnit < 2 ^ 16 then
      BitVec.ofNat 16 (header.fragmentOffset / fragmentUnit) else offsetMask)
    header.dontFragment header.moreFragments
  refine ⟨?_, ?_⟩
  · unfold Datagram.fragmentOffset datagram flagsAndOffset
    dsimp only
    rw [hoffset, toNat_and_offsetMask]
    unfold carriedOffset
    by_cases hunits : header.fragmentOffset / fragmentUnit < 2 ^ 16
    · rw [if_pos hunits, if_pos hunits, BitVec.toNat_ofNat, Nat.mod_eq_of_lt hunits]
      rfl
    · rw [if_neg hunits, if_neg hunits]
      rfl
  · unfold Datagram.moreFragments datagram flagsAndOffset
    dsimp only
    rw [Bool.eq_iff_iff, decide_eq_true_eq]
    exact hmore

theorem carriedOffset_eq {offset : Nat} (hunit : offset % fragmentUnit = 0)
    (hle : offset ≤ 65528) : carriedOffset offset = offset := by
  unfold carriedOffset fragmentUnit at *
  rw [if_pos (by omega)]
  omega

theorem carriedOffset_le (offset : Nat) : carriedOffset offset ≤ 65528 := by
  unfold carriedOffset fragmentUnit
  split <;> omega

end Audhsos.Ip
