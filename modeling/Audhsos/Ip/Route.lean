import Mathlib.Data.List.MinMax
import Audhsos.Ip.Reassembler

/-!
The routing table. A prefix is kept with its host bits and two prefixes are compared as they were
written, while `contains` reads only the bits under the mask.
-/

namespace Audhsos.Ip

open List Function
open Tcp (IpAddr)

/-! ## Prefixes -/

/-- `Ipv4Cidr` and `Ipv6Cidr`, by the width of an address. -/
structure Cidr (w : Nat) where
  address : BitVec w
  prefixLen : Nat
  le : prefixLen ≤ w
deriving DecidableEq

namespace Cidr

variable {w : Nat}

def maskBits (c : Cidr w) : BitVec w :=
  -- `checked_shr` refuses a shift by the whole width
  if c.prefixLen < w then ~~~(BitVec.allOnes w >>> c.prefixLen) else BitVec.allOnes w

def contains (c : Cidr w) (address : BitVec w) : Bool :=
  address &&& c.maskBits == c.address &&& c.maskBits

theorem contains_eq {c d : Cidr w} {address : BitVec w} (hlen : c.prefixLen = d.prefixLen)
    (hc : c.contains address) (hd : d.contains address) : c.contains = d.contains := by
  have hmask : c.maskBits = d.maskBits := by simp only [maskBits, hlen]
  simp only [contains, beq_iff_eq, hmask] at hc hd
  funext other
  rw [contains, contains, hmask, ← hc, ← hd]

end Cidr

inductive IpCidr where
  | v4 (cidr : Cidr 32)
  | v6 (cidr : Cidr 128)
deriving DecidableEq

namespace IpCidr

def prefixLen : IpCidr → Nat
  | v4 cidr => cidr.prefixLen
  | v6 cidr => cidr.prefixLen

def contains : IpCidr → IpAddr → Bool
  | v4 cidr, .v4 address => cidr.contains address
  | v6 cidr, .v6 address => cidr.contains address
  | _, _ => false

/-- Two prefixes of one length that share an address cover the same addresses. -/
theorem contains_eq {c d : IpCidr} {address : IpAddr} (hlen : c.prefixLen = d.prefixLen)
    (hc : c.contains address) (hd : d.contains address) : c.contains = d.contains := by
  cases c <;> cases d <;> cases address <;> try contradiction
  all_goals
    funext other
    cases other <;> try rfl
    exact congrFun (Cidr.contains_eq hlen hc hd) _

end IpCidr

/-! ## The table -/

inductive NextHop where
  | onLink (address : IpAddr)
  | gateway (address : IpAddr)
deriving DecidableEq

structure Route where
  destination : IpCidr
  gateway : Option IpAddr
deriving DecidableEq

namespace Route

/-- The set of addresses a route is for. -/
abbrev covers (route : Route) : IpAddr → Bool := route.destination.contains

def hop (route : Route) (destination : IpAddr) : NextHop :=
  match route.gateway with
  | some gateway => .gateway gateway
  | none => .onLink destination

end Route

structure RoutingTable (N : Nat) where
  routes : List Route
  le : routes.length ≤ N

namespace RoutingTable

variable {N : Nat}

def new : RoutingTable N := ⟨[], N.zero_le⟩

def replacing (route existing : Route) : Option Route :=
  if existing.destination = route.destination then some route else none

variable (t : RoutingTable N)

def add (route : Route) : Except IpError (RoutingTable N) :=
  if ∃ existing ∈ t.routes, existing.destination = route.destination then
    .ok ⟨t.routes.replaceF (replacing route), by simpa using t.le⟩
  else if h : t.routes.length < N then .ok ⟨t.routes ++ [route], by simpa⟩
  else .error .noRoute

def remove (destination : IpCidr) : RoutingTable N × Bool :=
  (⟨t.routes.eraseP (·.destination = destination), length_eraseP_le.trans t.le⟩,
    t.routes.any (·.destination = destination))

def clear (_ : RoutingTable N) : RoutingTable N := new

variable (destination : IpAddr)

def lookup : Except IpError NextHop :=
  -- `max_by_key` answers the last of the longest
  match (t.routes.filter (·.covers destination)).reverse.argmax (·.destination.prefixLen) with
  | some best => .ok (best.hop destination)
  | none => .error .noRoute

/-- The answer is the hop of a longest prefix that contains the destination. -/
theorem lookup_cases :
    (t.lookup destination = .error .noRoute ∧ ∀ route ∈ t.routes, ¬route.covers destination) ∨
      ∃ best ∈ t.routes, best.covers destination ∧
        t.lookup destination = .ok (best.hop destination) ∧
        ∀ route ∈ t.routes, route.covers destination →
          route.destination.prefixLen ≤ best.destination.prefixLen := by
  unfold lookup
  split
  case h_1 best hbest =>
    have hmem := argmax_mem hbest
    rw [mem_reverse, mem_filter] at hmem
    exact .inr ⟨best, hmem.1, hmem.2, rfl, fun route hroute hc => le_of_mem_argmax
      (f := fun r : Route => r.destination.prefixLen) (by simp [hroute, hc]) hbest⟩
  case h_2 hnone => exact .inl ⟨rfl, by simpa using hnone⟩

end RoutingTable

/-! ## What the calls asked for -/

inductive RouteCall where
  | add (route : Route)
  | remove (destination : IpCidr)
  | clear

def RouteCall.Given (given : IpCidr → Prop) : RouteCall → Prop
  | add route => given route.destination
  | remove destination => given destination
  | clear => True

namespace RoutingTable

variable {N : Nat} (t : RoutingTable N)

def step : RouteCall → RoutingTable N
  | .add route => match t.add route with | .ok added => added | .error _ => t
  | .remove destination => (t.remove destination).1
  | .clear => t.clear

def run (calls : List RouteCall) : RoutingTable N := calls.foldl step t

/-- The routes asked for: of all that were added for one set of addresses, the last. -/
def note (asked : Set Route) : RouteCall → Set Route
  | .add route => match t.add route with
    | .ok _ => insert route {r ∈ asked | r.covers ≠ route.covers}
    | .error _ => asked
  | .remove destination => {r ∈ asked | r.covers ≠ destination.contains}
  | .clear => ∅

def noted (t : RoutingTable N) (asked : Set Route) : List RouteCall → Set Route
  | [] => asked
  | call :: calls => noted (t.step call) (t.note asked call) calls

end RoutingTable

/-- The routes held are those asked for, each for addresses of its own. -/
structure Holds (given : IpCidr → Prop) (routes : List Route) (asked : Set Route) : Prop where
  given : ∀ route ∈ routes, given route.destination
  nodup : (routes.map Route.covers).Nodup
  mem_iff : ∀ route, route ∈ routes ↔ route ∈ asked

namespace Holds

variable {given : IpCidr → Prop} {routes as bs : List Route} {route old : Route} {asked : Set Route}
  {key : IpAddr → Bool}

theorem absent (h : Holds given routes asked) (hne : ∀ r ∈ routes, r.covers ≠ key) :
    Holds given routes {r ∈ asked | r.covers ≠ key} :=
  ⟨h.given, h.nodup, fun r => by simpa [← h.mem_iff] using hne r⟩

theorem erase (h : Holds given (as ++ old :: bs) asked) :
    Holds given (as ++ bs) {r ∈ asked | r.covers ≠ old.covers} := by
  obtain ⟨hall, hnodup, hmem⟩ := h
  rw [map_append, map_cons, nodup_middle, nodup_cons, ← map_append] at hnodup
  refine ⟨by grind, hnodup.2, fun r => ?_⟩
  have hout : r ∈ as ++ bs → r.covers ≠ old.covers :=
    fun hr heq => hnodup.1 (heq ▸ mem_map_of_mem hr)
  grind

theorem insert (h : Holds given (as ++ bs) asked) (hroute : given route.destination)
    (hne : ∀ r ∈ asked, r.covers ≠ route.covers) :
    Holds given (as ++ route :: bs) (insert route asked) := by
  obtain ⟨hall, hnodup, hmem⟩ := h
  refine ⟨by grind, ?_, fun r => by grind⟩
  rw [map_append, map_cons, nodup_middle, nodup_cons, ← map_append]
  refine ⟨fun hin => ?_, hnodup⟩
  obtain ⟨r, hr, heq⟩ := mem_map.1 hin
  exact hne r ((hmem r).1 hr) heq

end Holds

namespace RoutingTable

variable {given : IpCidr → Prop} {N : Nat} {t : RoutingTable N} {asked : Set Route}
  (hgiven : ∀ c d, given c → given d → c.contains = d.contains → c = d)

include hgiven

/-- A prefix that is given and not held covers other addresses than every route held. -/
theorem covers_ne (h : Holds given t.routes asked) {destination : IpCidr} (hd : given destination)
    (hfind : ¬∃ route ∈ t.routes, route.destination = destination) :
    ∀ route ∈ t.routes, route.covers ≠ destination.contains := fun route hroute heq =>
  hfind ⟨route, hroute, hgiven _ _ (h.given route hroute) hd heq⟩

theorem holds_step (h : Holds given t.routes asked) (call : RouteCall)
    (hcall : call.Given given) : Holds given (t.step call).routes (t.note asked call) := by
  cases call with
  | add route =>
    by_cases hfind : ∃ existing ∈ t.routes, existing.destination = route.destination
    · simp only [note, step, add, if_pos hfind]
      obtain ⟨r, hr, hrd⟩ := hfind
      obtain ⟨old, new, as, bs, -, hput, hroutes, hset⟩ :=
        exists_of_replaceF (p := replacing route) hr (if_pos hrd)
      obtain ⟨hold, ⟨⟩⟩ := Option.ite_none_right_eq_some.1 hput
      have hcov : old.covers = route.covers := congrArg IpCidr.contains hold
      rw [hroutes] at h
      rw [hset, ← hcov]
      exact h.erase.insert hcall fun r hr => hcov ▸ hr.2
    by_cases hroom : t.routes.length < N
    · have hput := h.absent (covers_ne hgiven h hcall hfind)
      rw [← append_nil t.routes] at hput
      simpa [note, step, add, hfind, hroom] using hput.insert hcall fun r hr => hr.2
    simpa [note, step, add, hfind, hroom] using h
  | remove destination =>
    simp only [note, step, remove]
    by_cases hfind : ∃ route ∈ t.routes, route.destination = destination
    · obtain ⟨r, hr, hrd⟩ := hfind
      obtain ⟨old, as, bs, -, hold, hroutes, herase⟩ :=
        exists_of_eraseP (p := (·.destination = destination)) hr (by simpa using hrd)
      rw [herase, ← of_decide_eq_true hold]
      rw [hroutes] at h
      exact h.erase
    · rw [eraseP_of_forall_not (by simpa using hfind)]
      exact h.absent (covers_ne hgiven h hcall hfind)
  | clear => exact ⟨nofun, nodup_nil, fun r => by simp [step, clear, new, note]⟩

variable (calls : List RouteCall)

theorem holds_run (hcalls : ∀ call ∈ calls, call.Given given)
    (h : Holds given t.routes asked) : Holds given (t.run calls).routes (t.noted asked calls) := by
  induction calls generalizing t asked with
  | nil => exact h
  | cons call calls ih =>
    rw [forall_mem_cons] at hcalls
    exact ih hcalls.2 (holds_step hgiven h call hcalls.1)

/-- Where no prefix is given in two spellings, the table holds one route for a set of addresses,
the one added last, and looks up the longest prefix. -/
theorem lookup_run (hcalls : ∀ call ∈ calls, call.Given given) :
    let t : RoutingTable N := new.run calls
    let asked := (new : RoutingTable N).noted ∅ calls
    (t.routes.map Route.covers).Nodup ∧ (∀ route, route ∈ t.routes ↔ route ∈ asked) ∧
      (∀ route, given route.destination → t.add route = .error .noRoute →
        ∀ held ∈ t.routes, held.covers ≠ route.covers) ∧
      ∀ destination,
        (t.lookup destination = .error .noRoute ↔ ∀ route ∈ asked, ¬route.covers destination) ∧
        ∀ route ∈ asked, route.covers destination →
          (∀ other ∈ asked, other.covers destination →
            other.destination.prefixLen ≤ route.destination.prefixLen) →
          t.lookup destination = .ok (route.hop destination) := by
  intro t asked
  have h : Holds given t.routes asked :=
    holds_run hgiven calls hcalls ⟨nofun, nodup_nil, by simp [new]⟩
  refine ⟨h.nodup, h.mem_iff, fun route hroute hadd => ?_, fun destination => ?_⟩
  · refine covers_ne hgiven h hroute fun hfind => ?_
    simp [add, hfind] at hadd
  simp only [← h.mem_iff]
  obtain ⟨hnone, hall⟩ | ⟨best, hbest, hc, hlook, hmax⟩ := t.lookup_cases destination
  · exact ⟨iff_of_true hnone hall, fun route hroute hc => absurd hc (hall route hroute)⟩
  refine ⟨iff_of_false (by simp [hlook]) fun hall => hall best hbest hc, ?_⟩
  intro route hroute hrc hlongest
  have hlen := (hmax route hroute hrc).antisymm (hlongest best hbest hc)
  -- both of them contain the destination, so they cover the same addresses
  have hcov : route.covers = best.covers := IpCidr.contains_eq hlen hrc hc
  rw [hlook, inj_on_of_nodup_map h.nodup hroute hbest hcov]

omit hgiven

/-- The prefix of length eight around an address. -/
def eight (address : BitVec 32) : IpCidr := .v4 ⟨address, 8, by decide⟩

/-- One route to 10.0.0.0/8, replaced by another one. -/
theorem lookup_run_replaced :
    let calls : List RouteCall := [.add ⟨eight 0x0A000000, none⟩,
      .add ⟨eight 0x0A000000, some (.v4 1)⟩]
    ((new : RoutingTable 2).run calls).lookup (.v4 0x0A000009) = .ok (.gateway (.v4 1)) ∧
      (((new : RoutingTable 2).run calls).routes.map Route.covers).Nodup := by
  intro calls
  exact ⟨by decide +kernel, (@lookup_run (· = eight 0x0A000000) 2
    (fun _ _ hc hd _ => hc.trans hd.symm) calls (by simp [calls, RouteCall.Given])).1⟩

/-- 10.0.0.1/8 and 10.0.0.2/8 are one set of addresses and two routes, and the route added last
is not the one that answers. -/
theorem stale_duplicate :
    let t := (new : RoutingTable 2).run [.add ⟨eight 0x0A000001, some (.v4 1)⟩,
      .add ⟨eight 0x0A000002, some (.v4 2)⟩, .add ⟨eight 0x0A000001, some (.v4 3)⟩]
    ¬(t.routes.map Route.covers).Nodup ∧
      t.lookup (.v4 0x0A000009) = .ok (.gateway (.v4 2)) := by
  have hcov : (eight 0x0A000001).contains = (eight 0x0A000002).contains :=
    @IpCidr.contains_eq _ _ (.v4 0x0A000001) rfl (by decide) (by decide)
  refine ⟨?_, by decide +kernel⟩
  rw [show ((new : RoutingTable 2).run _).routes = [⟨eight 0x0A000001, some (.v4 3)⟩,
    ⟨eight 0x0A000002, some (.v4 2)⟩] by decide +kernel]
  simpa [Route.covers] using hcov

end RoutingTable

end Audhsos.Ip
