import Ipfilter.Spec.NatAdd

/-!
# Undoing a new NAT session

`ipf_nat_uncreate` of `ip_nat.c` is given the packet for which `ipf_nat_checkin` or `ipf_nat_checkout` made a session,
after its translation, and is to find the session again and delete it. A packet that came in is looked up as one that
goes out, with its addresses exchanged; one that went out is looked up as one that comes in, with its addresses as
they are. The ports are not exchanged for either.

Only a packet with `FI_NEWNAT` in `fin_flx` is passed to it; nothing sets that flag.
-/

namespace Ipfilter.NatAdd

open Chain Masks NatTab
open State hiding FrInfo

/-! ## `ipf_nat_uncreate` -/

/-- `nflags` of `ipf_nat_uncreate` -/
def uncreateFlags (p : ℕ) : Flags :=
  if p = IPPROTO_TCP then IPN_TCP else if p = IPPROTO_UDP then IPN_UDP else 0

/-- The lookup for the session of a translated packet. -/
def uncreateProbe (fin : FrInfo) : Lookup where
  out := !fin.finOut
  fin := fin
  flags := uncreateFlags fin.finP
  p := fin.finP
  src := if fin.finOut then fin.finSaddr else fin.finDaddr
  dst := if fin.finOut then fin.finDaddr else fin.finSaddr
  new := none
  ifps _ := none

section

variable (M : Machine) (proxyMatch : FrInfo → NatT → Bool)

/-- `ipf_nat_uncreate` -/
def ipfNatUncreate (s : Sys) (fin : FrInfo) : Option Sys := do
  let (s, nat) ← s.lookup M proxyMatch (uncreateProbe fin)
  match nat with
  | none => some s
  | some e => ipfNatDelete s e true

/-! ## The packets it is given -/

/-- `nflags` as `ipf_nat_checkin` and `ipf_nat_checkout` set it up. -/
def checkFlags (fin : FrInfo) : Flags :=
  if has fin.finFlx FI_SHORT = false ∧ fin.finOff = 0 then
    if fin.finP = IPPROTO_TCP then IPN_TCP
    else if fin.finP = IPPROTO_UDP then IPN_UDP
    else if fin.finP = IPPROTO_ICMP ∧ has fin.finFlx FI_ICMPQUERY then IPN_ICMPQUERY
    else 0
  else 0

/-- **A call of `ipf_nat_add` by `ipf_nat_checkin` or `ipf_nat_checkout`:** for a packet that is no later fragment. -/
structure Call.Checks (c : Call) : Prop where
  first : c.fin.finOff = 0
  flags : c.flags = checkFlags c.fin
  dir : c.dir = if c.fin.finOut then .outbound else .inbound
  natsave : c.natsave = none

/-- **The states of the system:** what any sequence of calls and of packets that are undone leads to. -/
inductive Runs (s₀ : Sys) : Sys → Prop
  | start : Runs s₀ s₀
  | call {s s' : Sys} (op : Op) : Runs s₀ s → Legal s₀ s op → step M proxyMatch s op = some s' → Runs s₀ s'
  | uncreate {s s' : Sys} (fin : FrInfo) : Runs s₀ s → ipfNatUncreate M proxyMatch s fin = some s' → Runs s₀ s'

/-- A rule that diverts: a packet that goes the way of the session is put into another one. Of what the lookups read,
only the addresses of a packet that goes out change then. A packet that comes the other way is taken out of its
carrier, and may be any. -/
structure Diverted (fin : FrInfo) (nat : NatT) (q : FrInfo) : Prop where
  out : q.finOut = fin.finOut
  proto : nat.forward = fin.finOut → q.finP = fin.finP ∧ q.finData = fin.finData
  addrs : nat.forward = fin.finOut → q.finSaddr = (if fin.finOut then nat.natNsrcaddr else fin.finSaddr) ∧
    q.finDaddr = if fin.finOut then nat.natNdstaddr else fin.finDaddr

/-- **The session `e` was just made for the packet of `c`, which was then translated to `t`.** `ipf_nat_checkout` looks at
the interface that the filter rule sends the packet to, and then puts that of the packet back, so that `t` may have
another interface than `c`. -/
structure Created (s₀ s : Sys) (fuel : ℕ) (c : Call) (e : ℕ) (s' : Sys) (t : FrInfo) : Prop where
  run : Runs M proxyMatch s₀ s
  legal : Legal s₀ s (.add fuel c)
  checks : c.Checks
  new : c.new = some e
  add : ipfNatAdd M proxyMatch fuel s c = some (s', some e)
  xlate : ∃ ifp q, (if has (s.ipn c.np).inRedir NAT_DIVERTUDP then Diverted c.fin (s'.tab.nat e) q
      else NatTab.translate M c.fin.finOut c.fin (s'.tab.nat e) c.flags = some q) ∧
    t = { q with finIfp := ifp } ∧ (c.fin.finOut = false → ifp = c.fin.finIfp)

end

/-- **The entry `e`, and no other, has left** the list of all entries and the chains of both tables. -/
structure Removes (w w' : Softn) (e : ℕ) : Prop where
  mem : ∀ L, Rep w.list L → e ∈ L ()
  list : ∀ L, Rep w.list L → Rep w'.list fun u => (L u).erase e
  side : ∀ i L, Rep (w.side i).table L → Rep (w'.side i).table fun b => (L b).erase e

/-! ## When it works -/

/-- The ports of the translated packet are those of its reply, or its id is that of the packet it was. Where they are
not written they are those of the packet as it was. -/
def PortsBack (nat : NatT) (fin : FrInfo) : Prop :=
  if has nat.natFlags IPN_TCPUDP then
    if (if fin.finOut then nat.natNsport else nat.natOdport) ≠ 0 then nat.natNsport = nat.natNdport
    else nat.natOsport = nat.natNdport ∧ nat.natOdport = nat.natNsport
  else fin.finP = IPPROTO_ICMP → nat.natNicmpid = fin.finData true

/-- The addresses and ports of a translated packet are those of its reply. A packet that goes out has the same new
address at both ends, and the session is not delivered locally. An ICMP error that comes in has the source that the
session would give it. -/
def TupleBack (nat : NatT) (fin : FrInfo) : Prop :=
  (if fin.finOut then nat.natDlocal = false ∧ nat.natNsrcaddr = nat.natNdstaddr
    else has fin.finFlx FI_ICMPERR = true → nat.natNsrcaddr = fin.finSaddr) ∧ PortsBack nat fin

/-- A diverted packet is one of UDP, as its carrier is. What was put into another packet keeps its ports and has the
addresses of the carrier if it goes out, its own if it comes in; what was taken out is one that the session expects. -/
def DivertBack (M : Machine) (nat : NatT) (fin t : FrInfo) : Prop :=
  t.finP = IPPROTO_UDP ∧
    if nat.forward = fin.finOut then
      (if fin.finOut then nat.natDlocal = false ∧ nat.natNsrcaddr = nat.natNdstaddr
        else nat.natNsrcaddr = fin.finSaddr ∧ nat.natNdstaddr = fin.finDaddr) ∧
      (has nat.natFlags IPN_TCPUDP = true → nat.natOsport = nat.natNdport ∧ nat.natOdport = nat.natNsport)
    else
      nat.natOsrcaddr = (uncreateProbe t).src ∧ nat.natOdstaddr = (uncreateProbe t).dst ∧
      (has nat.natFlags IPN_TCPUDP = true →
        nat.natOsport = M.htons (t.finData false) ∧ nat.natOdport = M.htons (t.finData true))

/-- **When the session of a packet is found again.** `fin` is the packet as it was, `t` as it is after its translation
or, with `divert`, in or out of another one.

* The other interface of the session is that of the packet, or not given.
* The addresses and ports are alike.
* The lookup, which hashes them in its own order, comes to the bucket of the session.
* A proxy does not refuse it. -/
structure Undoable (M : Machine) (proxyMatch : FrInfo → NatT → Bool) (w : Softn) (divert : Bool) (nat : NatT)
    (fin t : FrInfo) : Prop where
  admits : nat.admits (!fin.finOut) t.finIfp = true
  tuple : if divert then DivertBack M nat fin t else TupleBack nat fin
  bucket : (uncreateProbe t).bucket M w = w.bucket (nat.natHv fin.finOut)
  accepts : nat.accepts proxyMatch (!fin.finOut) t = true

end Ipfilter.NatAdd
