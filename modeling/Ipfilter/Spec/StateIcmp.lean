import Ipfilter.Spec.StateLookup

/-!
# The packet counters of a state entry

`ipf_allowstateicmp` lets ICMP errors about the packets of an entry through as long as not more of them came than packets. This
file has an entry with its counters, and what a packet or an ICMP error that reaches it does to them: the end of
`ipf_checkicmpmatchingstate` and of `ipf_state_check`. Byte counters, queues and logs are left out.
-/

namespace Ipfilter.State

open Masks

/-- A counter of 64 bits after `++`. -/
def inc64 (n : ℕ) : ℕ := (n + 1) % 2 ^ 64

/-- `is_pkts[inout]++` with `inout = (fin_rev << 1) + fin_out`. -/
def Icmpstate.count (x : Icmpstate) (rev out : Bool) : Icmpstate :=
  { x with isPkts := put2 x.isPkts rev out (inc64 (x.isPkts rev out)) }

/-- `is_icmppkts[i]++` with `i = (!backward << 1) + fin_out`. -/
def Icmpstate.countError (x : Icmpstate) (backward out : Bool) : Icmpstate :=
  { x with isIcmppkts := put2 x.isIcmppkts (!backward) out (inc64 (x.isIcmppkts (!backward) out)) }

/-- A state entry with its counters. -/
structure Entry where
  is : Ipstate
  icmp : Icmpstate

/-- What reaches an entry. `tcp` says that the packet that is matched has a TCP or UDP header, and `notag` that the NAT tag of
the rule is not that of the packet, so that `ipf_state_check` stops before it counts. -/
inductive Arrival where
  /-- A packet of the session, which `ipf_state_lookup` is content with. -/
  | packet (fin : FrInfo) (tcp notag : Bool)
  /-- An ICMP error that quotes a packet; `headblock` is what the rules of `fr_icmpgrp` say of it. -/
  | error (fin : FrInfo) (q : Quoted) (tcp headblock notag : Bool)
  /-- The other fields of the entry change: a search that comes to nothing, a clone, a new interface. -/
  | touch (is : Ipstate)

/-- The quoted packet went the other way: `ofin.fin_out = !fin->fin_out`. -/
def Quoted.towards (q : Quoted) (fin : FrInfo) : FrInfo := { q.ofin with finOut := !fin.finOut }

/-- An ICMP error comes to the entry, which the packet that it quotes matches: the entry, and the direction of the quoted
packet as `ipf_matchsrcdst` has it. -/
def Entry.quoted (M : Machine) (e : Entry) (fin : FrInfo) (q : Quoted) (tcp : Bool) : Option (Ipstate × Bool) :=
  matchSelf M (q.towards fin) e.is q.src q.dst tcp FI_ICMPCMP

/-- `backward`: the direction of the quoted packet as `ipf_allowstateicmp` has it. -/
def backward (i : Ipstate) (q : Quoted) : Bool := !ip6Eq i.isSrc q.src

/-- The entry afterwards. -/
def Entry.step (M : Machine) (e : Entry) : Arrival → Entry
  | .packet fin tcp notag =>
    match matchSelf M fin e.is fin.finSrc fin.finDst tcp FI_CMP with
    | none => e
    | some (i, rev) => ⟨i, if notag then e.icmp else e.icmp.count rev fin.finOut⟩
  | .error fin q tcp headblock notag =>
    match e.quoted M fin q tcp with
    | none => e
    | some (i, _) =>
      if ipfAllowstateicmp fin { e.icmp with headblock := headblock } i q.src then
        let icmp := e.icmp.countError (backward i q) fin.finOut
        -- `fin_rev` is `!backward` now
        ⟨i, if notag then icmp else icmp.count (!backward i q) fin.finOut⟩
      else ⟨i, e.icmp⟩
  | .touch is => ⟨is, e.icmp⟩

/-- The direction and side of the packet that an ICMP error is about, if it is accepted. -/
def Entry.accepts (M : Machine) (e : Entry) : Arrival → Option (Bool × Bool)
  | .error fin q tcp headblock _ => do
    let (i, rev) ← e.quoted M fin q tcp
    if ipfAllowstateicmp fin { e.icmp with headblock := headblock } i q.src then some (rev, !fin.finOut) else none
  | _ => none

/-- The direction and side of a packet of the session, if it is counted. -/
def Entry.counts (M : Machine) (e : Entry) : Arrival → Option (Bool × Bool)
  | .packet fin tcp false => (matchSelf M fin e.is fin.finSrc fin.finDst tcp FI_CMP).map fun p => (p.2, fin.finOut)
  | _ => none

/-- One more of a kind. -/
def more (f : Bool → Bool → ℕ) : Option (Bool × Bool) → Bool → Bool → ℕ
  | none => f
  | some (rev, out) => put2 f rev out (f rev out + 1)

/-- **What an entry goes through,** with events that all meet `C`. `accepted` are the ICMP errors that were accepted, by the
direction and side of the packets they were about; `session` are the packets of the session that were counted. -/
inductive Counting (M : Machine) (C : Entry → Arrival → Prop) (e₀ : Entry) :
    Entry → (Bool → Bool → ℕ) → (Bool → Bool → ℕ) → Prop
  | start : Counting M C e₀ e₀ (fun _ _ => 0) e₀.icmp.isPkts
  | step {e : Entry} {accepted session : Bool → Bool → ℕ} (ev : Arrival) : Counting M C e₀ e accepted session →
      C e ev →
      Counting M C e₀ (e.step M ev) (more accepted (e.accepts M ev)) (more session (e.counts M ev))

end Ipfilter.State
