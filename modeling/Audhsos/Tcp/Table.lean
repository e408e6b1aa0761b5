import Audhsos.Tcp.Codec
import Audhsos.Tcp.Frames

/-!
The connection table: which of a fixed number of connections a segment belongs to. A segment finds
the connection that joins its two ends, or failing that the one that listens on its local end,
address and port.
-/

namespace Audhsos.Tcp

open Segment Config List Flags

/-- The reset that answers a segment nobody wants; a reset is never answered. -/
def resetFor (segment : Segment) : Option Segment :=
  if segment.flags.has rst then none
  else
    let answer := new segment.destinationPort segment.sourcePort rst
    some (if segment.flags.has ack then { answer with seq := segment.ack }
      else { answer with
        flags := rst.with_ ack
        ack := segment.seq.add segment.sequenceLen })

inductive Delivery where
  | delivered (id : Nat)
  | refused (reset : Segment)
  | dropped
  | malformed (error : TcpError)

variable (c : Connection)

def joins (near far : Endpoint) : Bool :=
  c.state.isOpen && c.state ≠ .listen && c.localEnd = near && c.remote = far

def listensAt (near : Endpoint) : Bool := c.state = .listen && c.localEnd = near

/-- A table of connections; an entry is `none` while nothing holds it. -/
structure Connections where
  entries : List (Option Connection)

namespace Connections

variable {segment : Segment}

def new (size : Nat) : Connections := ⟨replicate size none⟩

section

variable (table : Connections) (id : Nat)

def get : Option Connection := (table.entries[id]?).join

def put (c : Connection) : Connections :=
  ⟨table.entries.set id (some c)⟩

variable (near far : Endpoint)

def holds : Bool :=
  table.entries.any fun slot => slot.any fun c => joins c near far

def listensOn (port : Port) : Bool :=
  table.entries.any fun slot => slot.any fun c => c.state = .listen && c.localEnd.port = port

def place (near : Endpoint) (config : Config) (send recv : Ring) :
    Except TcpError (Nat × Connection) :=
  match table.entries.findIdx? Option.isNone with
  | none => .error .noConnection
  | some id => .ok (id, Connection.new near config send recv)

/-- Opens a fresh connection in its slot; where the opening fails, the connection stays there. -/
def openIn (opened : Except TcpError Unit × Connection) : Except TcpError Nat × Connections :=
  match opened with
  | (.ok (), c) => (.ok id, table.put id c)
  | (.error error, c) => (.error error, table.put id c)

def listen (near : Endpoint) (config : Config) (drawn : Option SeqNumber)
    (send recv : Ring) : Except TcpError Nat × Connections :=
  if table.listensOn near.port then (.error (.portInUse near.port), table)
  else
    match table.place near config send recv with
    | .error error => (.error error, table)
    | .ok (id, c) => table.openIn id (c.listen drawn)

def connect (config : Config)
    (drawn : Option SeqNumber) (send recv : Ring) : Except TcpError Nat × Connections :=
  if table.holds near far then (.error (.portInUse near.port), table)
  else
    match table.place near config send recv with
    | .error error => (.error error, table)
    | .ok (id, c) => table.openIn id (c.connect far drawn)

/-- Takes a connection out of the table and gives its two buffers back. -/
def close : Except TcpError (Ring × Ring) × Connections :=
  match table.get id with
  | none => (.error .unknownConnection, table)
  | some c => (.ok (c.send.ring, c.recv.ring), ⟨table.entries.set id none⟩)

/-- The connection that joins the two ends, or failing that the one listening on the near one. -/
def lookup : Option Nat :=
  match table.entries.findIdx? fun slot => slot.any fun c => joins c near far with
  | some id => some id
  | none => table.entries.findIdx? fun slot => slot.any fun c => listensAt c near

def receive (source destination : IpAddr) (bytes : List Byte)
    (now : Instant) : Delivery × Connections :=
  match parse bytes source destination with
  | .error error => (.malformed error, table)
  | .ok segment =>
    match table.lookup ⟨destination, segment.destinationPort⟩ ⟨source, segment.sourcePort⟩ with
    | none => ((resetFor segment).elim .dropped .refused, table)
    | some id =>
      match table.get id with
      | none => ((resetFor segment).elim .dropped .refused, table)
      | some c => (.delivered id, table.put id (c.onSegment source segment now))

end

/-! ## Runs -/

/-- What the owner of a connection does with it between segments. -/
inductive Use where
  | write (data : List Byte)
  | read (count : Nat)
  | consume (count : Nat)
  | close
  | abort
  | poll (now : Instant)

def Use.apply : Use → Connection
  | .write data => (c.write data).2
  | .read count => (c.read count).2
  | .consume count => c.consume count
  | .close => c.close.2
  | .abort => c.abort
  | .poll now => (c.poll now).2

inductive Event where
  | listen (near : Endpoint) (config : Config) (drawn : Option SeqNumber) (send recv : Ring)
  | connect (near far : Endpoint) (config : Config) (drawn : Option SeqNumber) (send recv : Ring)
  | receive (source destination : IpAddr) (bytes : List Byte) (now : Instant)
  | close (id : Nat)
  | use (id : Nat) (action : Use)

variable (table : Connections)

def Event.apply : Event → Connections
  | .listen near config drawn send recv => (table.listen near config drawn send recv).2
  | .connect near far config drawn send recv => (table.connect near far config drawn send recv).2
  | .receive source destination bytes now => (table.receive source destination bytes now).2
  | .close id => (table.close id).2
  | .use id action => (table.get id).elim table fun c => table.put id (action.apply c)

def run (events : List Event) : Connections := events.foldl Event.apply table

/-! ## Slots -/

variable {table : Connections} {near far : Endpoint} {id i j : Nat} {c d : Connection}
  {p : Connection → Bool} {source : IpAddr} {config : Config} {recv send : Ring}

theorem get_eq_some : table.get i = some c ↔ table.entries[i]? = some (some c) := by
  unfold get
  cases table.entries[i]? with
  | none => simp
  | some slot => simp

theorem get_put : (table.put id c).get i =
    if i = id ∧ id < table.entries.length then some c else table.get i := by
  unfold get put
  dsimp only
  rw [getElem?_set]
  by_cases hi : id = i
  · subst hi
    by_cases hlt : id < table.entries.length
    · simp [hlt]
    · simp [hlt]
  · rw [if_neg hi, if_neg (fun h => hi h.1.symm)]

theorem findIdx_some (h : table.entries.findIdx? (fun slot => slot.any p) = some i) :
    ∃ c, table.get i = some c ∧ p c = true := by
  obtain ⟨hlt, hp, -⟩ := findIdx?_eq_some_iff_getElem.mp h
  cases hslot : table.entries[i] with
  | none =>
    rw [hslot] at hp
    cases hp
  | some c =>
    rw [hslot] at hp
    exact ⟨c, get_eq_some.mpr (by rw [getElem?_eq_getElem hlt, hslot]), hp⟩

theorem findIdx_none
    (h : table.entries.findIdx? (fun slot => slot.any p) = none) (hget : table.get i = some c) :
    p c = false := by
  have hmem : some c ∈ table.entries := mem_of_getElem? (get_eq_some.mp hget)
  simpa using findIdx?_eq_none_iff.mp h _ hmem

/-! ## One connection -/

theorem joins_iff : joins c near far = true ↔
    c.state ≠ .closed ∧ c.state ≠ .listen ∧ c.localEnd = near ∧ c.remote = far := by
  unfold joins State.isOpen
  simp [and_assoc]

theorem joins_onSegment {now : Instant}
    (h : joins (c.onSegment source segment now) near far = true) :
    joins c near far = true ∨
      c.state = .listen ∧ c.localEnd = near ∧ far = ⟨source, segment.sourcePort⟩ := by
  unfold Connection.onSegment at h
  split at h
  · exact .inl h
  next hlisten =>
    right
    obtain ⟨hopen, hjoined, hlocal, hremote⟩ := joins_iff.mp h
    unfold Connection.onSegmentListen at hopen hjoined hlocal hremote
    split at hjoined
    · exact absurd hlisten hjoined
    split at hjoined
    · exact absurd hlisten hjoined
    split at hjoined
    · exact absurd hlisten hjoined
    next hrst hack hsyn =>
      rw [if_neg hrst, if_neg hack, if_neg hsyn] at hlocal hremote
      exact ⟨hlisten, hlocal, hremote.symm⟩
  next hstate =>
    left
    have hends := Connection.ends_onSegmentSynSent c segment now
    obtain ⟨-, -, hlocal, hremote⟩ := joins_iff.mp h
    exact joins_iff.mpr ⟨by simp [hstate], by simp [hstate], hends.1 ▸ hlocal, hends.2 ▸ hremote⟩
  next hclosed hlisten hsyn =>
    left
    have hends := Connection.ends_onSegmentOpen c segment now
    obtain ⟨-, -, hlocal, hremote⟩ := joins_iff.mp h
    have hlocalEnd : (c.onSegmentOpen segment now).localEnd = c.localEnd := congrArg (·.1) hends
    have hremoteEnd : (c.onSegmentOpen segment now).remote = c.remote := congrArg (·.2.1) hends
    exact joins_iff.mpr ⟨hclosed, hlisten, hlocalEnd ▸ hlocal, hremoteEnd ▸ hremote⟩

theorem state_poll (now : Instant) (h : c.state = .closed ∨ c.state = .listen) :
    (c.poll now).2.state = c.state := by
  have hne : c.state ≠ .timeWait := by rcases h with h | h <;> simp [h]
  have hsilent : (!c.state.isOpen || c.state = .listen) = true := by
    rcases h with h | h <;> simp [h, State.isOpen]
  unfold Connection.poll Connection.decide
  cases hreset : c.resetPending with
  | none =>
    rw [Connection.endTimeWait_of_ne hne]
    unfold Connection.decideStanding
    rw [if_pos hsilent]
  | some reset =>
    obtain ⟨dest, seq, ack⟩ := reset
    obtain heq | heq := Connection.transmit_cases { c with resetPending := none }
      (.reset dest seq ack) now
    · exact congrArg (·.2.state) heq
    · exact congrArg (·.2.state) heq

theorem joins_use {action : Use} (h : joins (action.apply c) near far = true) :
    joins c near far = true := by
  obtain ⟨hopen, hjoined, hlocal, hremote⟩ := joins_iff.mp h
  have hends : (action.apply c).ends = c.ends := by
    cases action with
    | write data => exact Connection.ends_of_fixed (Connection.follows_write c data).fixed
    | read count => rfl
    | consume count => rfl
    | close => exact Connection.ends_of_fixed (Connection.follows_close c).fixed
    | abort => exact Connection.ends_of_fixed (Connection.follows_abort c).fixed
    | poll now => exact Connection.ends_of_fixed (Connection.follows_poll c now).fixed
  have hfixed : (action.apply c).localEnd = c.localEnd ∧ (action.apply c).remote = c.remote :=
    ⟨congrArg (·.1) hends, congrArg (·.2.1) hends⟩
  have hstate : c.state = .closed ∨ c.state = .listen →
      (action.apply c).state = .closed ∨ (action.apply c).state = .listen := by
    intro hc
    cases action with
    | write data =>
      have hsend : c.state.canSend = false := by rcases hc with hc | hc <;> simp [hc, State.canSend]
      simpa [Use.apply, Connection.write, hsend] using hc
    | read count => exact hc
    | consume count => exact hc
    | close => rcases hc with hc | hc <;> simp [Use.apply, Connection.close, hc]
    | abort =>
      left
      simp only [Use.apply, Connection.abort]
    | poll now =>
      change (c.poll now).2.state = .closed ∨ (c.poll now).2.state = .listen
      rw [state_poll now hc]
      exact hc
  have hbefore : ¬ (c.state = .closed ∨ c.state = .listen) := fun hc =>
    (hstate hc).elim hopen hjoined
  rw [not_or] at hbefore
  exact joins_iff.mpr ⟨hbefore.1, hbefore.2, hfixed.1 ▸ hlocal, hfixed.2 ▸ hremote⟩

/-! ## No two connections join the same ends -/

def Unique (table : Connections) : Prop :=
  ∀ (i j : Nat) (c d : Connection) (near far : Endpoint), table.get i = some c →
    table.get j = some d → joins c near far = true → joins d near far = true → i = j

theorem unique_new (size : Nat) : (new size).Unique := by
  intro i j c d near far hi
  have hentry := get_eq_some.mp hi
  simp [new, getElem?_replicate] at hentry

theorem Unique.put (h : table.Unique) {c : Connection} (hc : ∀ near far, joins c near far = true →
      (∃ d, table.get id = some d ∧ joins d near far = true) ∨
      ∀ j d, table.get j = some d → joins d near far = false) : (table.put id c).Unique := by
  have hfresh : ∀ (j : Nat) (d : Connection) (near far : Endpoint), j ≠ id →
      table.get j = some d → joins c near far = true → joins d near far = false := by
    intro j d near far hj hget hjoins
    by_contra hd
    rcases hc near far hjoins with ⟨b, hb, hbj⟩ | hnone
    · exact hj (h j id d b near far hget hb (by simpa using hd) hbj)
    · exact hd (hnone j d hget)
  intro i j c₁ c₂ near far hi hj h₁ h₂
  rw [get_put] at hi hj
  by_cases hi' : i = id ∧ id < table.entries.length
  · rw [if_pos hi'] at hi
    cases hi
    by_cases hj' : j = id ∧ id < table.entries.length
    · exact hi'.1.trans hj'.1.symm
    · rw [if_neg hj'] at hj
      have hne : j ≠ id := fun hjid => hj' ⟨hjid, hi'.2⟩
      rw [hfresh j c₂ near far hne hj h₁] at h₂
      cases h₂
  · rw [if_neg hi'] at hi
    by_cases hj' : j = id ∧ id < table.entries.length
    · rw [if_pos hj'] at hj
      cases hj
      have hne : i ≠ id := fun hiid => hi' ⟨hiid, hj'.2⟩
      rw [hfresh i c₁ near far hne hi h₂] at h₁
      cases h₁
    · rw [if_neg hj'] at hj
      exact h i j c₁ c₂ near far hi hj h₁ h₂

theorem joins_closed (h : c.state = .closed ∨ c.state = .listen) : joins c near far = false := by
  rw [← Bool.not_eq_true, joins_iff]
  rintro ⟨hopen, hjoined, -⟩
  exact h.elim hopen hjoined

theorem place_ok {fresh : Nat × Connection} (h : table.place near config send recv = .ok fresh) :
    (table.get fresh.1 = none ∧ fresh.1 < table.entries.length) ∧
      fresh.2 = Connection.new near config send recv := by
  unfold place at h
  split at h
  · cases h
  next id hfind =>
    cases h
    obtain ⟨hlt, hnone, -⟩ := findIdx?_eq_some_iff_getElem.mp hfind
    refine ⟨⟨?_, hlt⟩, rfl⟩
    unfold get
    rw [getElem?_eq_getElem hlt, Option.isNone_iff_eq_none.mp hnone]
    rfl

theorem place_error {error : TcpError}
    (h : table.place near config send recv = .error error) : error = .noConnection := by
  unfold place at h
  split at h
  · cases h
    rfl
  · cases h

theorem listen_cases (table : Connections) (near : Endpoint) (config : Config)
    (drawn : Option SeqNumber) (send recv : Ring) :
    let after := table.listen near config drawn send recv
    (after = (.error (.portInUse near.port), table) ∧ table.listensOn near.port = true) ∨
    after = (.error .noConnection, table) ∨
    ∃ id, (table.get id = none ∧ id < table.entries.length) ∧
      (drawn = none ∧
        after = (.error .rng, table.put id (Connection.new near config send recv)) ∨
      ∃ c : Connection, drawn ≠ none ∧ c.state = .listen ∧
        after = (.ok id, table.put id c)) := by
  dsimp only
  unfold listen
  split
  next hused => exact .inl ⟨rfl, hused⟩
  right
  split
  next error hplace => exact .inl (by rw [place_error hplace])
  next id c hplace =>
    right
    obtain ⟨hfree, hnew⟩ := place_ok hplace
    subst hnew
    refine ⟨id, hfree, ?_⟩
    cases drawn with
    | none => exact .inl ⟨rfl, rfl⟩
    | some iss => exact .inr ⟨_, nofun, rfl, rfl⟩

theorem connect_cases (table : Connections) (near far : Endpoint) (config : Config)
    (drawn : Option SeqNumber) (send recv : Ring) :
    let after := table.connect near far config drawn send recv
    (after = (.error (.portInUse near.port), table) ∧ table.holds near far = true) ∨
    after = (.error .noConnection, table) ∨
    ∃ id c, (table.get id = none ∧ id < table.entries.length) ∧
      table.holds near far = false ∧ after.2 = table.put id c ∧
      ((drawn = none ∨ far.address.version ≠ near.address.version) ∧ c.state = .closed ∧
        (after.1 = .error .rng ∨ after.1 = .error .mixedFamilies) ∨
      c.localEnd = near ∧ c.remote = far ∧ after.1 = .ok id) := by
  dsimp only
  unfold connect
  split
  next hused => exact .inl ⟨rfl, hused⟩
  next hunused =>
  right
  split
  next error hplace => exact .inl (by rw [place_error hplace])
  next id c hplace =>
    right
    obtain ⟨hfree, hnew : c = _⟩ := place_ok hplace
    have hholds : table.holds near far = false := by simpa using hunused
    by_cases hversion : far.address.version = near.address.version
    · cases drawn with
      | none =>
        have hopen : c.connect far none = (.error .rng, { c with remote := far }) := by
          simp [Connection.connect, Connection.new, hnew, hversion]
        rw [hopen, hnew]
        exact ⟨id, _, hfree, hholds, rfl, .inl ⟨.inl rfl, rfl, .inl rfl⟩⟩
      | some iss =>
        have hopen : c.connect far (some iss) = (.ok (),
            { c.setInitialSequence iss with remote := far, state := .synSent }) := by
          simp [Connection.connect, Connection.new, hnew, hversion]
        rw [hopen, hnew]
        exact ⟨id, _, hfree, hholds, rfl, .inr ⟨rfl, rfl, rfl⟩⟩
    · have hopen : c.connect far drawn = (.error .mixedFamilies, c) := by
        simp [Connection.connect, Connection.new, hnew, hversion]
      rw [hopen, hnew]
      exact ⟨id, _, hfree, hholds, rfl, .inl ⟨.inr hversion, rfl, .inr rfl⟩⟩

theorem joins_of_holds (h : table.holds near far = false) (hget : table.get j = some d) :
    joins d near far = false := by
  have hmem : some d ∈ table.entries := mem_of_getElem? (get_eq_some.mp hget)
  simpa using any_eq_false.mp h _ hmem

theorem receive_cases (table : Connections) (source destination : IpAddr) (bytes : List Byte)
    (now : Instant) (hparse : parse bytes source destination = .ok segment) :
    let near : Endpoint := ⟨destination, segment.destinationPort⟩
    let after := table.receive source destination bytes now
    (∃ id c, table.get id = some c ∧ joins c near ⟨source, segment.sourcePort⟩ = true ∧
      after = (.delivered id, table.put id (c.onSegment source segment now))) ∨
    (∀ j d, table.get j = some d → joins d near ⟨source, segment.sourcePort⟩ = false) ∧
    ((∃ id c, table.get id = some c ∧ listensAt c near = true ∧
      after = (.delivered id, table.put id (c.onSegment source segment now))) ∨
    (∀ j d, table.get j = some d → listensAt d near = false) ∧
      after = ((resetFor segment).elim .dropped .refused, table)) := by
  dsimp only
  unfold receive lookup
  rw [hparse]
  dsimp only
  cases hexact : table.entries.findIdx? fun slot => slot.any fun c =>
      joins c ⟨destination, segment.destinationPort⟩ ⟨source, segment.sourcePort⟩ with
  | some id =>
    obtain ⟨c, hget, hjoins⟩ := findIdx_some hexact
    dsimp only
    rw [hget]
    exact .inl ⟨id, c, hget, hjoins, rfl⟩
  | none =>
    refine .inr ⟨fun j d hget => findIdx_none hexact hget, ?_⟩
    dsimp only
    cases hlisten : table.entries.findIdx? fun slot => slot.any fun c =>
        listensAt c ⟨destination, segment.destinationPort⟩ with
    | some id =>
      obtain ⟨c, hget, hlistens⟩ := findIdx_some hlisten
      dsimp only
      rw [hget]
      exact .inl ⟨id, c, hget, hlistens, rfl⟩
    | none => exact .inr ⟨fun j d hget => findIdx_none hlisten hget, rfl⟩

theorem Unique.event (h : table.Unique) (event : Event) : (event.apply table).Unique := by
  cases event with
  | listen near config drawn send recv =>
    obtain ⟨heq, -⟩ | heq | ⟨id, -, ⟨-, heq⟩ | ⟨c, -, hc, heq⟩⟩ :=
      listen_cases table near config drawn send recv <;> simp only [Event.apply, heq]
    · exact h
    · exact h
    · refine h.put fun n f hjoins => ?_
      rw [joins_closed (.inl rfl)] at hjoins
      cases hjoins
    · refine h.put fun n f hjoins => ?_
      rw [joins_closed (.inr hc)] at hjoins
      cases hjoins
  | connect near far config drawn send recv =>
    obtain ⟨heq, -⟩ | heq | ⟨id, c, -, hholds, heq, hc⟩ :=
      connect_cases table near far config drawn send recv <;> simp only [Event.apply, heq]
    · exact h
    · exact h
    refine h.put fun n f hjoins => ?_
    rcases hc with ⟨-, hclosed, -⟩ | ⟨hlocal, hremote, -⟩
    · rw [joins_closed (.inl hclosed)] at hjoins
      cases hjoins
    · obtain ⟨-, -, rfl, rfl⟩ := joins_iff.mp hjoins
      rw [hlocal, hremote]
      exact .inr fun j d hget => joins_of_holds hholds hget
  | receive source destination bytes now =>
    cases hparse : parse bytes source destination with
    | error error =>
      simp only [Event.apply, Connections.receive, hparse]
      exact h
    | ok segment =>
      obtain ⟨id, c, hget, hjoined, heq⟩ | ⟨hnone, ⟨id, c, hget, hlistens, heq⟩ | ⟨-, heq⟩⟩ :=
        receive_cases table source destination bytes now hparse <;> simp only [Event.apply, heq]
      · refine h.put fun n f hjoins => .inl ⟨c, hget, ?_⟩
        rcases joins_onSegment hjoins with hbefore | ⟨hlisten, -⟩
        · exact hbefore
        · rw [joins_closed (.inr hlisten)] at hjoined
          cases hjoined
      · refine h.put fun n f hjoins => ?_
        rcases joins_onSegment hjoins with hbefore | ⟨-, hlocal, rfl⟩
        · exact .inl ⟨c, hget, hbefore⟩
        have hnear : c.localEnd = ⟨destination, segment.destinationPort⟩ := by
          simp only [listensAt, Bool.and_eq_true, decide_eq_true_eq] at hlistens
          exact hlistens.2
        rw [← hlocal, hnear]
        exact .inr hnone
      · exact h
  | close id =>
    simp only [Event.apply, Connections.close]
    split
    · exact h
    have hsub : ∀ i c, (⟨table.entries.set id none⟩ : Connections).get i = some c →
        table.get i = some c := by
      intro i c hget
      have hentry := get_eq_some.mp hget
      rw [getElem?_set] at hentry
      split at hentry
      · split at hentry <;> cases hentry
      · exact get_eq_some.mpr hentry
    exact fun i j c d n f hi hj => h i j c d n f (hsub i c hi) (hsub j d hj)
  | use id action =>
    simp only [Event.apply]
    cases hget : table.get id with
    | none => exact h
    | some c => exact h.put fun n f hjoins => .inl ⟨c, hget, joins_use hjoins⟩

theorem unique_run (events : List Event) (h : table.Unique) : (table.run events).Unique := by
  induction events generalizing table with
  | nil => exact h
  | cons event rest ih => exact ih (h.event event)

/-! ## The table -/

/-- A segment that no connection joins is handed to a connection that listens on its port, if there
is one. -/
def Handed (table : Connections) (source destination : IpAddr) (bytes : List Byte)
    (now : Instant) (segment : Segment) : Prop :=
  table.listensOn segment.destinationPort = true →
    ∃ id c, table.get id = some c ∧ c.state = .listen ∧
      c.localEnd.port = segment.destinationPort ∧
      table.receive source destination bytes now =
        (.delivered id, table.put id (c.onSegment source segment now))

section

variable {destination : IpAddr} {bytes : List Byte} (now : Instant)
  (hparse : parse bytes source destination = .ok segment)
include hparse

theorem Unique.receive_joined (h : table.Unique) (hget : table.get id = some c)
    (hjoins : joins c ⟨destination, segment.destinationPort⟩ ⟨source, segment.sourcePort⟩ = true) :
    table.receive source destination bytes now =
      (.delivered id, table.put id (c.onSegment source segment now)) := by
  obtain ⟨i, d, hd, hdj, heq⟩ | ⟨hnone, -⟩ :=
    receive_cases table source destination bytes now hparse
  · obtain rfl := h id i c d _ _ hget hd hjoins hdj
    rw [hget] at hd
    cases hd
    exact heq
  · rw [hnone id c hget] at hjoins
    cases hjoins

theorem handed_iff (hnone : table.holds ⟨destination, segment.destinationPort⟩
      ⟨source, segment.sourcePort⟩ = false) :
    table.Handed source destination bytes now segment ↔
      (table.listensOn segment.destinationPort = true → ∃ id c, table.get id = some c ∧
        listensAt c ⟨destination, segment.destinationPort⟩ = true) := by
  obtain ⟨id, c, hget, hjoins, -⟩ | ⟨-, ⟨id, c, hget, hlistens, heq⟩ | ⟨hno, heq⟩⟩ :=
    receive_cases table source destination bytes now hparse
  · rw [joins_of_holds hnone hget] at hjoins
    cases hjoins
  · refine ⟨fun _ _ => ⟨id, c, hget, hlistens⟩, fun _ _ => ⟨id, c, hget, ?_⟩⟩
    simp only [listensAt, Bool.and_eq_true, decide_eq_true_eq] at hlistens
    exact ⟨hlistens.1, congrArg Endpoint.port hlistens.2, heq⟩
  · refine ⟨fun hhanded hport => ?_, fun hat hport => ?_⟩
    · obtain ⟨id, c, -, -, -, hreceive⟩ := hhanded hport
      have hboth := congrArg Prod.fst (heq.symm.trans hreceive)
      cases hreset : resetFor segment <;> rw [hreset] at hboth <;> cases hboth
    · obtain ⟨id, c, hget, hlistens⟩ := hat hport
      rw [hno id c hget] at hlistens
      cases hlistens

end

theorem put_ne (hget : table.get id = none) (hlt : id < table.entries.length) :
    table.put id c ≠ table := by
  intro heq
  have hput : (table.put id c).get id = _ := get_put
  rw [heq, hget, if_pos ⟨rfl, hlt⟩] at hput
  cases hput

/-- A listener and a connection to another host. -/
def listenAndConnect : List Event :=
  [.listen ⟨.v4 2, 80⟩ default (some 7) ⟨8, fun _ => 0⟩ ⟨8, fun _ => 0⟩,
    .connect ⟨.v4 2, 1000⟩ ⟨.v4 1, 80⟩ default (some 7) ⟨8, fun _ => 0⟩ ⟨8, fun _ => 0⟩]

theorem parse_opening (destination : BitVec 32) (sum : BitVec 16)
    (hsum : Wire.transport (.v4 1) (.v4 destination) Wire.Protocol.tcp
      ((opening [1, 2, 3, 4]).encode sum) = .ok 0) :
    parse ((opening [1, 2, 3, 4]).encode sum) (.v4 1) (.v4 destination) =
      .ok (opening [1, 2, 3, 4]) := by
  refine parse_encode ?_ (fun _ => by decide) hsum
  unfold IpAddr.version
  rfl

end Connections

end Audhsos.Tcp
