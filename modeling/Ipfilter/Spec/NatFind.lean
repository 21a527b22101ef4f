import Ipfilter.Spec.NatTable

/-!
# What a lookup in the NAT table should find

The packets that an entry of the table expects in each direction, and where `ipf_nat_insert` and the lookups look for
it. The two compute their hash values in different orders: `ipf_nat_insert` starts with the source of the tuple,
`ipf_nat_inlookup` with the destination of the packet, and each step is reduced modulo `0xffffffff`, the last of
`ipf_nat_outlookup` by the size of the table instead. The reduction adds 1 to a sum of `0xffffffff` and leaves others
alone, so the two agree unless such a sum comes up.
-/

namespace Ipfilter.NatTab

open Chain Masks State

/-! ## Entries and the packets they expect -/

/-- The flags of an entry fit its protocol: TCP or UDP, an ICMP query, or another protocol. -/
structure NatT.Kinded (nat : NatT) : Prop where
  pr : nat.natPr true = nat.natPr false
  ports : has nat.natFlags IPN_TCPUDP = true ↔ nat.natPr false = IPPROTO_TCP ∨ nat.natPr false = IPPROTO_UDP
  query : has nat.natFlags IPN_ICMPQUERY = true ↔ nat.natPr false = IPPROTO_ICMP

/-- The addresses of the packets that an entry expects to go out (`out`) or come in, and what the lookups take as their
ports: the id of an ICMP packet is in the place of the destination port. -/
def NatT.expects (nat : NatT) (out : Bool) (p : ℕ) : Word × Word × BitVec 16 × BitVec 16 :=
  let ports := p = IPPROTO_TCP ∨ p = IPPROTO_UDP
  if out = nat.forward then
    (nat.natOsrcaddr, nat.natOdstaddr, if ports then nat.natOsport else 0,
      if ports then nat.natOdport else if p = IPPROTO_ICMP then nat.natOicmpid else 0)
  else
    (nat.natNdstaddr, nat.natNsrcaddr, if ports then nat.natNdport else 0,
      if ports then nat.natNsport else if p = IPPROTO_ICMP then nat.natNicmpid else 0)

section

variable (M : Machine) (proxyMatch : FrInfo → NatT → Bool)

/-- The addresses and ports of a packet, as the lookups take them. -/
def Lookup.tuple (l : Lookup) : Word × Word × BitVec 16 × BitVec 16 :=
  (l.src, l.dst, lookupPorts M l.fin l.flags l.p)

/-- **A packet that matches the entry:** it has the protocol, addresses and ports that the entry expects, on an
interface that the entry lets through, and no proxy refuses it. An entry whose packets are delivered locally expects
none to come in. -/
structure NatT.Matched (nat : NatT) (l : Lookup) : Prop where
  proto : l.p = nat.natPr false
  flags : has l.flags SI_WILDP = false
  query : has l.flags IPN_ICMPERR = false
  tuple : l.tuple M = nat.expects l.out l.p
  admits : nat.admits l.out l.fin.finIfp = true
  accepts : nat.accepts proxyMatch l.out l.fin = true
  remote : l.out = false → nat.natDir = .outbound → nat.natDlocal = false

/-- The test of the first loop of a lookup. -/
def Lookup.passes (l : Lookup) (nat : NatT) : Bool :=
  nat.matches l.out l.fin.finIfp l.p l.src l.dst (lookupPorts M l.fin l.flags l.p).1
    (lookupPorts M l.fin l.flags l.p).2 && nat.accepts proxyMatch l.out l.fin

/-- The bucket of the first loop. -/
def Lookup.bucket (w : Softn) (l : Lookup) : ℕ :=
  lookupBucket w l.out l.src l.dst (lookupPorts M l.fin l.flags l.p).1 (lookupPorts M l.fin l.flags l.p).2

/-- **The lookup reaches the bucket of the entry and returns an entry with that tuple.** -/
def Finds (w : Softn) (l : Lookup) (e : ℕ) : Prop :=
  l.bucket M w = w.bucket ((w.nat e).natHv (!l.out)) ∧
    ∃ w' x, ipfNatLookup M proxyMatch w l = some (w', some x) ∧ (w.nat x).expects l.out l.p = l.tuple M

/-! ## When it does -/

def ONES : Word := 0xffffffff

/-- A word as the hash function takes it. -/
def spread (k : Word) : Word := k + (k >>> 12)

/-- The first sum of `ipf_nat_insert`, for the side that a lookup searches. -/
def NatT.firstSum (nat : NatT) (out : Bool) : Word :=
  if out = nat.forward then
    spread nat.natOsrcaddr + (nat.hashPorts nat.natOsport nat.natOdport nat.natOicmpid).1
  else spread nat.natNsrcaddr + (nat.hashPorts nat.natNsport nat.natNdport nat.natNicmpid).1

/-- The first sum of a lookup. -/
def Lookup.firstSum (l : Lookup) : Word :=
  if l.out then spread l.src + word (lookupPorts M l.fin l.flags l.p).1
  else spread l.dst + word (lookupPorts M l.fin l.flags l.p).2

/-- The sum of the addresses and ports. -/
def Lookup.sum (l : Lookup) : Word :=
  spread l.src + spread l.dst + word (lookupPorts M l.fin l.flags l.p).1 + word (lookupPorts M l.fin l.flags l.p).2

/-- **When the two orders end in the same bucket.** `s` is the sum of addresses and ports, `f` the first sum of the
insertion and `g` that of the lookup. If both or neither of `f` and `g` are all ones, only the last step of
`ipf_nat_outlookup` can differ; else the hash values are 1 apart but for the two largest sums. -/
def Meets (out : Bool) (size s f g : Word) : Prop :=
  if f = ONES ↔ g = ONES then
    out = true → (s + if f = ONES then 1 else 0) = ONES → size.toNat ∣ ONES.toNat
  else if s = ONES then out = true → f = ONES → size.toNat ∣ ONES.toNat
  else if s + 1 = ONES then
    if out = true ∧ g = ONES then size = 1 else size.toNat ∣ ONES.toNat - 1
  else size = 1

/-- **No entry that passes without the tuple comes first:** entries whose flags do not fit their protocol are compared
without their ports. -/
def Clear (w : Softn) (l : Lookup) : Prop :=
  ∀ L, Rep (w.side (!l.out)).table L → ∀ l₁ x l₂, L (l.bucket M w) = l₁ ++ x :: l₂ →
    l.passes M proxyMatch (w.nat x) = true → (w.nat x).expects l.out l.p ≠ l.tuple M →
    ∃ y ∈ l₁, l.passes M proxyMatch (w.nat y) = true ∧ (w.nat y).expects l.out l.p = l.tuple M

/-! ## Runs -/

/-- The call does not delete the entry. -/
def Op.spares (e : ℕ) : Op → Prop
  | .delete x _ => x ≠ e
  | .deref x => x ≠ e
  | _ => True

/-- **The states in which `e` is where `ipf_nat_insert` put it.** A new IPv4 entry without wildcards was inserted in a
state of the table, whatever counters the caller changed then, and was not deleted since. -/
inductive Placed (w₀ : Softn) (e : ℕ) : Softn → Prop
  | insert {w w' : Softn} (nat : NatT) (ifps : Bool → Option ℕ) (wilds : ℤ) (proto : ℕ → ℤ)
      (saved : ℕ → Option ℕ) :
      Reach M proxyMatch w₀ w → w.alloc e = false → has nat.natFlags SI_WILDP = false → (∀ i, nat.natV i = 4) →
      nat.Kinded → ipfNatInsert (w.malloc e nat) e ifps = (w', true) →
      Placed w₀ e { w' with wilds := wilds, proto := proto, saved := saved }
  | call {w w' : Softn} (op : Op) : Placed w₀ e w → Legal w op → op.spares e → step M proxyMatch w op = some w' →
      Placed w₀ e w'

end

end Ipfilter.NatTab
