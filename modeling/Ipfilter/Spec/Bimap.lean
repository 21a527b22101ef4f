import Ipfilter.Spec.NatAdd

/-!
# Rules that map block to block

What becomes of the addresses of a bimap rule when it is loaded (`ipf_nat_ruleaddrinit`, `ipf_nat6_ruleaddrinit` with
`ipf_nat_nextaddrinit` and `ipf_nat6_nextaddrinit`), and the choice of addresses in `ipf_nat6_newmap` and `ipf_nat6_newrdr`. For
IPv4 the choice is that of `NatAdd`. The addresses of the rule are networks (`FRI_NORMAL`); map-block rules are not compiled in
for IPv6.
-/

namespace Ipfilter.NatAdd

open NatTab Masks

/-! ## Loading a rule -/

/-- `in_osrc`, `in_odst`, `in_nsrc` and `in_ndst` of a rule: addresses with their masks. -/
structure RuleAddrs (A : Type) where
  inOsrc : A × A
  inOdst : A × A
  inNsrc : A × A
  inNdst : A × A

/-- The addresses of a rule for `NAT_BIMAP` after `ipf_nat_ruleaddrinit` and its IPv6 counterpart: the redirect goes the
other way, and each address is cut to its network. -/
def RuleAddrs.bimapInit {A : Type} (and : A → A → A) (r : RuleAddrs A) : RuleAddrs A :=
  let cut := fun a : A × A => (and a.1 a.2, a.2)
  ⟨cut r.inOsrc, cut r.inNsrc, cut r.inNsrc, cut r.inOsrc⟩

/-- The addresses in an IPv4 rule. -/
def Ipnat.withAddrs (np : Ipnat) (r : RuleAddrs Word) : Ipnat :=
  { np with
    inRedir := NAT_BIMAP
    inOsrcmsk := r.inOsrc.2
    inOdstmsk := r.inOdst.2
    inNsrcaddr := r.inNsrc.1
    inNsrcmsk := r.inNsrc.2
    inNdstaddr := r.inNdst.1
    inNdstmsk := r.inNdst.2 }

/-! ## IPv6 addresses -/

def I6addr.ones : I6addr := ⟨0xffffffff, 0xffffffff, 0xffffffff, 0xffffffff⟩

/-- `IP6_AND` -/
def ip6And (a b : I6addr) : I6addr := ⟨a.i60 &&& b.i60, a.i61 &&& b.i61, a.i62 &&& b.i62, a.i63 &&& b.i63⟩

/-- `IP6_MERGE`, with `a` as it was. -/
def ip6Merge (a b c : I6addr) : I6addr :=
  ⟨a.i60 ||| b.i60 &&& ~~~c.i60, a.i61 ||| b.i61 &&& ~~~c.i61, a.i62 ||| b.i62 &&& ~~~c.i62, a.i63 ||| b.i63 &&& ~~~c.i63⟩

/-- `IP6_INC` -/
def ip6Inc (M : Machine) (a : I6addr) : I6addr :=
  let inc := fun w : Word => M.htonl (M.ntohl w + 1)
  let i63 := inc a.i63
  let i62 := if i63 = 0 then inc a.i62 else a.i62
  let i61 := if i63 = 0 ∧ i62 = 0 then inc a.i61 else a.i61
  let i60 := if i63 = 0 ∧ i62 = 0 ∧ i61 = 0 then inc a.i60 else a.i60
  ⟨i60, i61, i62, i63⟩

/-! ## The choice of addresses for IPv6 -/

/-- `ipnat_t`, what the choice of an IPv6 address reads. -/
structure Ipnat6 where
  inRedir : Flags
  addrs : RuleAddrs I6addr
  inSnip6 : I6addr
  inSpnext : BitVec 16

/-- A packet as far as its addresses go, and what `ipf_ifpaddr` finds. -/
structure Addrs6 where
  finSrc6 : I6addr
  finDst6 : I6addr
  ifpaddr : Option I6addr

/-- `temp` in both functions: the word behind the second is taken with the mask of the first. -/
def hostPart (a mask : I6addr) : I6addr :=
  ⟨a.i60 &&& ~~~mask.i60, a.i61 &&& ~~~mask.i61, a.i62 &&& ~~~mask.i60, a.i63 &&& ~~~mask.i63⟩

/-- The choice of the address in round `l` of `ipf_nat6_newmap`, as `mapAddr` for IPv4. `none` is a refusal. -/
def mapAddr6 (M : Machine) (np : Ipnat6) (c : Addrs6) (l : ℕ) (held : Bool) (addr : I6addr) : Option (Ipnat6 × I6addr) :=
  let (osrc, osrcmsk) := np.addrs.inOsrc
  let (nsrc, nsrcmsk) := np.addrs.inNsrc
  if nsrcmsk = I6addr.ones ∧ np.inSpnext = 0 ∧ l > 0 then none
  else if np.inRedir = NAT_BIMAP ∧ osrcmsk = nsrcmsk then
    -- merged by the address of the inside network, not by its mask
    some (np, ip6Merge nsrc (hostPart c.finSrc6 osrcmsk) osrc)
  else if nsrc = I6addr.zero ∧ nsrcmsk = I6addr.ones then
    if l > 0 then none else c.ifpaddr.map fun a => (np, a)
  else if nsrc = I6addr.zero ∧ nsrcmsk = I6addr.zero then
    if l > 0 then none else some (np, c.finSrc6)
  else if nsrcmsk ≠ I6addr.ones ∧ np.inSpnext = 0 ∧ (l > 0 ∨ held = false) then
    some ({ np with inSnip6 := ip6Inc M np.inSnip6 }, addr)
  else some (np, addr)

/-- The address of a rule with one in `ipf_nat6_newrdr`, as `rdrAddr` for IPv4. -/
def rdrAddr6 (np : Ipnat6) (c : Addrs6) : Option I6addr :=
  let (ndst, ndstmsk) := np.addrs.inNdst
  if ndst = I6addr.zero ∧ ndstmsk = I6addr.ones then c.ifpaddr
  else if ndst = I6addr.zero ∧ ndstmsk = I6addr.zero then some c.finDst6
  else if np.inRedir = NAT_BIMAP ∧ ndstmsk = np.addrs.inOdst.2 then
    some (ip6Merge ndst (hostPart c.finDst6 np.addrs.inOsrc.2) ndstmsk)
  else some ndst

/-- The test for :: behind it, as `rdrTarget` for IPv4; `same` is whether the port stays. -/
def rdrTarget6 (c : Addrs6) (same : Bool) (addr : I6addr) : Option I6addr :=
  if addr = I6addr.zero then
    if same then none else some c.finDst6
  else some addr

end Ipfilter.NatAdd
