import Ipfilter.Spec.NatUncreate

/-!
# Rules for `ipf_nat_newmap`

What `SIOCADNAT` makes of the rule that a program hands to it: the flags and addresses are masked in `ipf_nat_ioctl`,
`ipf_nat_rule_init` sets the fields that `ipf_nat_add` starts from, and `ipf_nat_siocaddnat` resolves names and links the
rule. `in_ppip`, `in_ippip`, `in_spmin` and `in_spmax` stay as they came, and `ipf_nat_newmap` divides by them: `Sound` says
what a rule must never lead to, and `Ipnat.Fits` which rules are safe.

The rules are those for IPv4. That a rule is refused because it is there already, for want of memory or of the permission to
write does not depend on what is in it and is not followed.
-/

namespace Ipfilter.NatAdd

open Chain Masks NatTab
open State hiding FrInfo

/-! ## Flags -/

def IPN_FILTER : Flags := 0x00020
def IPN_DIPRANGE : Flags := 0x00200
def IPN_NOTSRC : Flags := 0x00400
def IPN_NOTDST : Flags := 0x00800
def IPN_NO : Flags := 0x01000
def IPN_FRAG : Flags := 0x20000
def IPN_PURGE : Flags := 0x800000

def IPN_USERFLAGS : Flags :=
  IPN_TCPUDP ||| IPN_AUTOPORTMAP ||| IPN_SIPRANGE ||| IPN_SPLIT ||| IPN_ROUNDR ||| IPN_FILTER ||| IPN_NOTSRC |||
    IPN_NOTDST ||| IPN_NO ||| IPN_FRAG ||| IPN_STICKY ||| IPN_FIXEDDPORT ||| IPN_ICMPQUERY ||| IPN_DIPRANGE |||
    IPN_SEQUENTIAL ||| IPN_PURGE

/-! ## Data -/

/-- `nat_addr_t`; a range has its last address in `mask`. -/
structure NatAddr where
  addr : Word
  mask : Word
  atype : Atype
  nextip : Word

/-- The addresses of a rule. -/
inductive End
  | osrc
  | odst
  | nsrc
  | ndst
  deriving DecidableEq, Repr

/-- The rule as a program hands it to `SIOCADNAT`: an `ipnat_t` for IPv4, with what is read of it until it is loaded. -/
structure Natd where
  inFlags : Flags
  inRedir : Flags
  inAddr : End → NatAddr
  inSpnext : BitVec 16
  inSpmin : BitVec 16
  inSpmax : BitVec 16
  inDpnext : BitVec 16
  inDpmin : BitVec 16
  inDpmax : BitVec 16
  inOdport : BitVec 16
  inDtop : BitVec 16
  inPpip : BitVec 16
  inIppip : BitVec 16
  inAge : Bool → Word
  inMssclamp : Word
  inDlocal : Bool
  inUse : ℤ

/-- What the rest of the system answers while the rule is loaded: the interfaces of its names, `inNamed`, the proxy of its label
(`none` if there is no such proxy), whether the table of an address exists, the address and mask of an interface for an
address, whether the destination of a divert rule is local, and whether the template of a divert rule can be built. -/
structure Resolved where
  ifps : Bool → Option ℕ
  named : Bool
  apr : Option (Option ℕ)
  table : End → Bool
  ifpaddr : End → Option (Word × Word)
  deliverlocal : Bool
  divertmp : Bool

section

variable (M : Machine) (r : Resolved)

/-! ## Loading a rule -/

/-- The address is masked, as `ipf_nat_ioctl` does it with those of `types`. -/
def NatAddr.masked (na : NatAddr) (types : List Atype) : NatAddr :=
  if na.atype ∈ types then { na with addr := na.addr &&& na.mask } else na

/-- The flags and addresses after `ipf_nat_ioctl`. -/
def Natd.user (nat : Natd) : Natd :=
  let nat := { nat with inFlags := nat.inFlags &&& IPN_USERFLAGS }
  if has nat.inRedir NAT_MAPBLK then nat
  else
    { nat with
      inAddr := fun e => match e with
        | .osrc | .odst => (nat.inAddr e).masked [.normal, .none]
        | .nsrc | .ndst =>
          if has nat.inFlags (IPN_SPLIT ||| IPN_SIPRANGE) then nat.inAddr e else (nat.inAddr e).masked [.normal] }

/-- `ipf_nat_nextaddrinit` for a rule that is loaded -/
def ipfNatNextaddrinit (e : End) (na : NatAddr) : Option NatAddr :=
  match na.atype with
  | .lookup _ => if r.table e then some na else none
  | .dynamic | .broadcast | .network | .netmasked | .peeraddr =>
    match r.ifpaddr e with
    | some (addr, mask) => some { na with addr := addr, mask := mask }
    | none => some na
  | .split | .range => some { na with nextip := M.ntohl na.addr }
  | .none => some { na with addr := na.addr &&& na.mask }
  | .normal =>
    let na := { na with addr := na.addr &&& na.mask }
    if na.addr = 0 ∧ (na.mask = 0xffffffff ∨ na.mask = 0) then some na
    else some { na with nextip := if na.mask = 0xffffffff then M.ntohl na.addr else M.ntohl na.addr + 1 }

/-- `ipf_nat_ruleaddrinit` -/
def ipfNatRuleaddrinit (n : Natd) : Option Natd := do
  if (n.inAddr .ndst).atype = .lookup false ∨ (n.inAddr .nsrc).atype = .lookup false then none
  let from' (e : End) (other : End) : NatAddr :=
    { n.inAddr e with addr := (n.inAddr other).addr, mask := (n.inAddr other).mask }
  let addrs : End → NatAddr := fun e => match e with
    | .ndst => if n.inRedir = NAT_BIMAP then from' .ndst .osrc else n.inAddr .ndst
    | .odst => if n.inRedir = NAT_BIMAP then from' .odst .nsrc else n.inAddr .odst
    | _ => n.inAddr e
  let osrc ← ipfNatNextaddrinit M r .osrc (addrs .osrc)
  let odst ← ipfNatNextaddrinit M r .odst (addrs .odst)
  let nsrc ← ipfNatNextaddrinit M r .nsrc (addrs .nsrc)
  let ndst ← ipfNatNextaddrinit M r .ndst (addrs .ndst)
  if has n.inRedir NAT_DIVERTUDP ∧ r.divertmp = false then none
  else some { n with inAddr := fun e => match e with
    | .osrc => osrc
    | .odst => odst
    | .nsrc => nsrc
    | .ndst => ndst }

/-- The address of an end gets another type. -/
def Natd.setType (n : Natd) (e : End) (atype : Atype) : Natd :=
  { n with inAddr := Function.update n.inAddr e { n.inAddr e with atype := atype } }

/-- The types of the new addresses that flags stand for. -/
def Natd.types (n : Natd) : Natd :=
  let n := if has n.inFlags IPN_SIPRANGE then n.setType .nsrc .range else n
  let n := if has n.inFlags IPN_DIPRANGE then n.setType .ndst .range else n
  if has n.inFlags IPN_SPLIT then n.setType .ndst .split else n

/-- The ports that the rule starts from. -/
def Natd.startPorts (n : Natd) : Natd :=
  { n with
    inSpnext := if has n.inRedir (NAT_MAP ||| NAT_REWRITE ||| NAT_DIVERTUDP) then n.inSpmin else n.inSpnext
    inDpnext := if has n.inRedir (NAT_REWRITE ||| NAT_DIVERTUDP) ∨ n.inRedir = NAT_REDIRECT then n.inDpmin else n.inDpnext }

/-- `ipf_nat_rule_init` -/
def ipfNatRuleInit (n : Natd) : Option Natd := do
  let n ← ipfNatRuleaddrinit M r n.types.startPorts
  return if n.inRedir = NAT_DIVERTUDP ||| NAT_MAP then { n with inDlocal := r.deliverlocal } else n

/-- `ipf_nat_siocaddnat`; `in_stepnext` was cleared by `ipf_nat_rule_init`. -/
def ipfNatSiocaddnat (n : Natd) : Option Ipnat := do
  let apr ← r.apr
  if n.inAge false = 0 ∧ n.inAge true ≠ 0 then none
  let flags := if has n.inRedir NAT_REDIRECT then n.inFlags &&& ~~~IPN_NOTDST else n.inFlags
  let flags := if has n.inRedir (NAT_MAP ||| NAT_MAPBLK) then flags &&& ~~~IPN_NOTSRC else flags
  return {
    inFlags := flags
    inRedir := n.inRedir
    inIfps := r.ifps
    inNamed := r.named
    inOsrcmsk := (n.inAddr .osrc).mask
    inOdstmsk := (n.inAddr .odst).mask
    inNsrcaddr := (n.inAddr .nsrc).addr
    inNsrcmsk := (n.inAddr .nsrc).mask
    inNsrcatype := (n.inAddr .nsrc).atype
    inSnip := (n.inAddr .nsrc).nextip
    inNdstaddr := (n.inAddr .ndst).addr
    inNdstmsk := (n.inAddr .ndst).mask
    inNdstatype := (n.inAddr .ndst).atype
    inDnip := (n.inAddr .ndst).nextip
    inSpnext := n.inSpnext
    inSpmin := n.inSpmin
    inSpmax := n.inSpmax
    inDpnext := n.inDpnext
    inDpmin := n.inDpmin
    inDpmax := n.inDpmax
    inOdport := n.inOdport
    inDtop := n.inDtop
    inPpip := n.inPpip
    inIppip := n.inIppip
    inStepnext := 0
    inMssclamp := n.inMssclamp
    inDlocal := if n.inRedir = NAT_DIVERTUDP ||| NAT_MAP then r.deliverlocal else n.inDlocal
    inApr := apr
    inUse := n.inUse + 1 }

/-- The ioctl `SIOCADNAT`: the rule as it is loaded. -/
def siocadnat (nat : Natd) : Option Ipnat := do
  let n ← ipfNatRuleInit M r nat.user
  ipfNatSiocaddnat r n

end

/-! ## The search of `ipf_nat_newmap` -/

section

variable (M : Machine) (proxyMatch : FrInfo → NatT → Bool)

/-- **Round `l` of the search starts** in the state `s` with the host map `hm`: the rounds before it have each found a
translation that is taken, and the search has not come back to its start. -/
inductive Rounds (c : Call) (stIp : Word) (stPort : BitVec 16) (s₀ : Sys) : ℕ → Sys → Option ℕ → Prop
  | first : Rounds c stIp stPort s₀ 0 s₀ none
  | next {l : ℕ} {s t u : Sys} {hm hm' : Option ℕ} {addr a : Word} {p : BitVec 16} {np np' : Ipnat} {x : ℕ} :
      Rounds c stIp stPort s₀ l s hm → mapHm M s c l hm = some (t, hm', addr) → t.rule? c.np = some np →
      mapPick M np c l hm'.isSome (M.ntohl addr) = .ok (np', a, p) →
      (t.updRule c.np fun _ => np').lookup M proxyMatch (mapProbe M c a p) = some (u, some x) →
      ¬(np'.inSpnext ≠ 0 ∧ stPort = np'.inSpnext ∧ np'.inSnip ≠ 0 ∧ stIp = np'.inSnip) →
      Rounds c stIp stPort s₀ (l + 1) u hm'

/-- **`ipf_nat_newmap` divides by 0** in a round that its search comes to. -/
def Divides (s : Sys) (c : Call) : Prop :=
  ∃ l t u hm hm' addr np, Rounds M proxyMatch c (s.ipn c.np).inSnip (s.ipn c.np).inSpnext s l t hm ∧
    mapHm M t c l hm = some (u, hm', addr) ∧ u.rule? c.np = some np ∧
    mapPick M np c l hm'.isSome (M.ntohl addr) = .error .fault

/-! ## What a rule must not lead to -/

/-- A rule for `ipf_nat_newmap`: it is in `ipf_nat_map_rules`, and is not one of those that have `ipf_nat_checkout` stop or
`ipf_nat_add` call another function. -/
def Ipnat.Mapped (np : Ipnat) : Prop :=
  has np.inRedir (NAT_MAP ||| NAT_MAPBLK) = true ∧ has np.inRedir (NAT_REWRITE ||| NAT_DIVERTUDP) = false ∧
    has np.inFlags IPN_NO = false

/-- A `map-block` rule, or one with `portmap .. auto`: the inside addresses that share an address have a block of ports
each. -/
def Ipnat.Blocks (np : Ipnat) : Prop := has np.inRedir NAT_MAPBLK = true ∨ has np.inFlags IPN_AUTOPORTMAP = true

/-- **A packet that goes out and is given a rule with the content `np`,** in any state that calls lead to. -/
structure Asked (np : Ipnat) (s₀ s : Sys) (c : Call) : Prop where
  mapped : np.Mapped
  start : Start s₀
  rule : ∃ use, s₀.ipn c.np = { np with inUse := use }
  run : Runs M proxyMatch s₀ s
  legal : ∀ fuel, Legal s₀ s (.add fuel c)
  checks : c.Checks
  out : c.dir = .outbound

/-- `ipf_nat_newmap` chooses the session `nat` for such a packet. -/
def Maps (np : Ipnat) (s₀ : Sys) (c : Call) (nat : NatT) : Prop :=
  ∃ s fuel m, Asked M proxyMatch np s₀ s c ∧ ipfNatNewmap M proxyMatch fuel s c = some m ∧ m.nat = some nat

/-- The number of an inside address: the part that `in_osrcmsk` leaves of it in a `map-block` rule, else the address. -/
def Ipnat.inside (np : Ipnat) (addr : Word) : Word :=
  if has np.inRedir NAT_MAPBLK then M.ntohl addr &&& M.ntohl (~~~np.inOsrcmsk) else M.ntohl addr

/-- The block of an inside address. -/
def Ipnat.block (np : Ipnat) (k : Word) : ℕ := k.toNat / np.inIppip.toNat

/-- Its place in the block. -/
def Ipnat.hostIndex (np : Ipnat) (k : Word) : ℕ := k.toNat % np.inIppip.toNat

/-- **The rule never makes `ipf_nat_newmap` divide by 0, and its blocks of ports are apart** from the ports below 1024 and
from each other. -/
structure Sound (np : Ipnat) : Prop where
  divides : ∀ s₀ s c, Asked M proxyMatch np s₀ s c → ¬Divides M proxyMatch s c
  range : ∀ s₀ c nat, Maps M proxyMatch np s₀ c nat → np.Blocks → has c.flags IPN_TCPUDP = true →
    1024 ≤ (M.htons nat.natNsport).toNat
  apart : ∀ s₀ c c' nat nat', Maps M proxyMatch np s₀ c nat → Maps M proxyMatch np s₀ c' nat' → np.Blocks →
    has c.flags IPN_TCPUDP = true → has c'.flags IPN_TCPUDP = true →
    np.block (np.inside M c.fin.finSaddr) = np.block (np.inside M c'.fin.finSaddr) →
    np.hostIndex (np.inside M c.fin.finSaddr) ≠ np.hostIndex (np.inside M c'.fin.finSaddr) →
    (nat.natNsrcaddr, nat.natNsport) ≠ (nat'.natNsrcaddr, nat'.natNsport)

/-! ## Safe rules -/

/-- **No divisor of the rule is 0:** those of a block, or the number of ports to choose from. -/
structure Ipnat.NoZero (np : Ipnat) : Prop where
  mapblk : has np.inRedir NAT_MAPBLK = true → np.inPpip ≠ 0 → np.inIppip ≠ 0
  auto : has np.inRedir NAT_MAPBLK = false → has np.inFlags IPN_AUTOPORTMAP = true → np.inPpip ≠ 0 ∧ np.inIppip ≠ 0
  range : has np.inRedir NAT_MAPBLK = false → has np.inFlags IPN_SEQUENTIAL = false →
    np.inSpmin.toNat ≠ np.inSpmax.toNat + 1

/-- The numbers that `Ipnat.inside` gives. -/
def Ipnat.Inside (np : Ipnat) (k : Word) : Prop :=
  has np.inRedir NAT_MAPBLK = true → k &&& M.ntohl (~~~np.inOsrcmsk) = k

/-- **The block of every inside address ends by port 65535.** -/
def Ipnat.PortsFit (np : Ipnat) : Prop :=
  np.Blocks → ∀ k, np.Inside M k → 1024 + np.inPpip.toNat * (np.hostIndex k + 1) ≤ 65536

/-- The inside addresses are numbered from 0 on, as with every network mask. -/
def Ipnat.Contiguous (np : Ipnat) : Prop := ∀ j k : Word, j ≤ k → np.Inside M k → np.Inside M j

/-- **A safe rule.** -/
def Ipnat.Fits (np : Ipnat) : Prop := np.Mapped → np.NoZero ∧ np.PortsFit M

end

end Ipfilter.NatAdd
