import Ipfilter.Spec.Nat6

/-!
# The translation of IPv6 packets

`ipf_nat6_out` and `ipf_nat6_in` of `ip_nat6.c` for the packets of sessions that `ipf_nat6_newmap`, `ipf_nat6_newrdr` and
`ipf_nat6_newrewrite` make, and what the lookups and the translations of a session should give. Proxies, diverted packets, the
fragment cache and the synchronisation with other hosts are left out.
-/

namespace Ipfilter.NatTab

open Chain Masks State

/-! ## Translation -/

/-- `fr_info_t` with whole addresses, and the addresses of the header at `fin_ip6`. -/
structure FrInfo6 extends FrInfo where
  finSrc6 : I6addr
  finDst6 : I6addr
  ip6Src : I6addr
  ip6Dst : I6addr

/-- The addresses that `ipf_nat6_out` writes. -/
def out6Addrs (fin : FrInfo6) (nat : Nat6) : FrInfo6 :=
  match nat.natDir with
  | .outbound =>
    { fin with
      ip6Src := nat.natNsrc6
      finSrc6 := nat.natNsrc6
      ip6Dst := nat.natNdst6
      finDst6 := nat.natNdst6 }
  | .inbound =>
    { fin with
      ip6Src := nat.natOdst6
      finSrc6 := nat.natNdst6
      ip6Dst := nat.natOsrc6
      finDst6 := nat.natNsrc6 }

/-- The addresses that `ipf_nat6_in` writes: the source of an ICMPv6 error is left as it is. -/
def in6Addrs (fin : FrInfo6) (nat : Nat6) : FrInfo6 :=
  let err := has fin.finFlx FI_ICMPERR
  match nat.natDir with
  | .inbound =>
    { fin with
      ip6Src := if err then fin.ip6Src else nat.natNsrc6
      finSrc6 := if err then fin.finSrc6 else nat.natNsrc6
      ip6Dst := nat.natNdst6
      finDst6 := nat.natNdst6 }
  | .outbound =>
    { fin with
      ip6Src := if err then fin.ip6Src else nat.natOdst6
      finSrc6 := if err then fin.finSrc6 else nat.natOdst6
      ip6Dst := nat.natOsrc6
      finDst6 := nat.natOsrc6 }

section

variable (M : Machine)

/-- The ports and the id that `ipf_nat6_out` writes. -/
def out6Ports (fin : FrInfo) (nat : NatT) (nflags : Flags) : FrInfo :=
  let fin := if nat.natNsport ≠ 0 ∧ has nflags IPN_TCPUDP then
      match nat.natDir with
      | .outbound => fin.setPorts M nat.natNsport nat.natNdport
      | .inbound => fin.setPorts M nat.natOdport nat.natOsport
    else fin
  if nat.natNicmpid ≠ 0 ∧ has nflags IPN_ICMPQUERY then
    match nat.natDir with
    | .outbound => fin.setId nat.natNicmpid
    | .inbound => fin.setId nat.natOicmpid
  else fin

/-- The ports and the id that `ipf_nat6_in` writes. -/
def in6Ports (fin : FrInfo) (nat : NatT) (nflags : Flags) : FrInfo :=
  let fin := if nat.natOdport ≠ 0 ∧ has nflags IPN_TCPUDP then
      match nat.natDir with
      | .inbound => fin.setPorts M nat.natNsport nat.natNdport
      | .outbound => fin.setPorts M nat.natOdport nat.natOsport
    else fin
  if nat.natNicmpid ≠ 0 ∧ has nflags IPN_ICMPQUERY then
    match nat.natDir with
    | .inbound => fin.setId nat.natNicmpid
    | .outbound => fin.setId nat.natOicmpid
  else fin

/-- `ipf_nat_proto` with its case for ICMPv6. -/
def ipfNat6Proto (fin : FrInfo) (nat : NatT) (nflags : Flags) : Option (FrInfo × Bool) :=
  if fin.finP = IPPROTO_ICMPV6 then
    some ({ fin with finRev := if fin.finOut then nat.natDir = .inbound else nat.natDir = .outbound },
      has nflags IPN_ICMPQUERY ∧ fin.finDp.sum ≠ 0)
  else ipfNatProto M fin nat nflags

/-- `ipf_nat6_out` -/
def ipfNat6Out (fin : FrInfo6) (nat : Nat6) (nflags : Flags) : Option FrInfo6 := do
  let fin := out6Addrs fin nat
  let base ← if has fin.finFlx FI_SHORT = false ∧ fin.finOff = 0 then do
      let (base, csump) ← ipfNat6Proto M (out6Ports M fin.toFrInfo nat.toNatT nflags) nat.toNatT nflags
      let part := nat.natSumd true + base.finDlen
      let sum := if csump = false then base.finDp.sum
        else match nat.natDir with
          | .outbound => ipfFixOutcksum M base.finCksum base.finDp.sum (nat.natSumd false) part
          | .inbound => ipfFixIncksum M base.finCksum base.finDp.sum (nat.natSumd false) part
      pure { base with finDp := { base.finDp with sum := sum } }
    else pure fin.toFrInfo
  pure { fin with toFrInfo := { base with finFlx := base.finFlx ||| FI_NATED } }

/-- `ipf_nat6_in` -/
def ipfNat6In (fin : FrInfo6) (nat : Nat6) (nflags : Flags) : Option FrInfo6 := do
  let fin := in6Addrs fin nat
  let base ← if has fin.finFlx FI_SHORT = false ∧ fin.finOff = 0 then do
      let (base, csump) ← ipfNat6Proto M (in6Ports M fin.toFrInfo nat.toNatT nflags) nat.toNatT nflags
      let sum := if csump = false then base.finDp.sum
        else match nat.natDir with
          | .outbound => ipfFixIncksum M 0 base.finDp.sum (nat.natSumd false) 0
          | .inbound => ipfFixOutcksum M 0 base.finDp.sum (nat.natSumd false) 0
      pure { base with finDp := { base.finDp with sum := sum } }
    else pure fin.toFrInfo
  pure { fin with toFrInfo := { base with finFlx := base.finFlx ||| FI_NATED } }

/-- The translation of a packet that goes out (`out`) or comes in. -/
def translate6 (out : Bool) (fin : FrInfo6) (nat : Nat6) (nflags : Flags) : Option FrInfo6 :=
  if out then ipfNat6Out M fin nat nflags else ipfNat6In M fin nat nflags

end

/-! ## The packets of a session -/

def Kind.proto6 : Kind → ℕ
  | .tcp => IPPROTO_TCP
  | .udp => IPPROTO_UDP
  | .icmp => IPPROTO_ICMPV6

/-- The addresses of a packet with its ports, or its id; what the kind does not have is 0. -/
structure Tuple6 where
  src : I6addr
  dst : I6addr
  sport : BitVec 16
  dport : BitVec 16
  id : BitVec 16
  deriving DecidableEq

/-- The tuple of the reply. -/
def Tuple6.reply (t : Tuple6) : Tuple6 := ⟨t.dst, t.src, t.dport, t.sport, t.id⟩

def Kind.tuple6 (k : Kind) (src dst : I6addr) (sport dport id : BitVec 16) : Tuple6 :=
  match k with
  | .icmp => ⟨src, dst, 0, 0, id⟩
  | _ => ⟨src, dst, sport, dport, 0⟩

/-- What the headers of a packet say. -/
def FrInfo6.tuple (k : Kind) (fin : FrInfo6) : Tuple6 :=
  k.tuple6 fin.ip6Src fin.ip6Dst fin.finDp.thSport fin.finDp.thDport fin.finDp.icmpId

/-- The packets that start a session. -/
def Nat6.old (k : Kind) (nat : Nat6) : Tuple6 :=
  k.tuple6 nat.natOsrc6 nat.natOdst6 nat.natOsport nat.natOdport nat.natOicmpid

/-- What they are translated to. -/
def Nat6.new (k : Kind) (nat : Nat6) : Tuple6 :=
  k.tuple6 nat.natNsrc6 nat.natNdst6 nat.natNsport nat.natNdport nat.natNicmpid

section

variable (M : Machine) (proxyMatch : FrInfo → NatT → Bool) (k : Kind)

/-- The copies of the addresses and of the ports in `fr_info_t` are those of the headers. -/
def FrInfo6.Agrees (fin : FrInfo6) : Prop :=
  fin.finSrc6 = fin.ip6Src ∧ fin.finDst6 = fin.ip6Dst ∧
    (k ≠ .icmp → fin.finData false = M.htons fin.finDp.thSport ∧ fin.finData true = M.htons fin.finDp.thDport)

/-- **A packet of kind `k`** with the tuple `t`, complete and not a fragment, as `ipf_makefrip` sets up `fr_info_t` for it. -/
structure Carries6 (t : Tuple6) (fin : FrInfo6) : Prop where
  proto : fin.finP = k.proto6
  long : has fin.finFlx FI_SHORT = false
  first : fin.finOff = 0
  query : has fin.finFlx FI_ICMPERR = false
  tuple : fin.tuple k = t
  agrees : fin.Agrees M k
  data : k = .icmp → fin.finData true = fin.finDp.icmpId

/-- **An entry for packets of kind `k`.** -/
structure Nat6.For (nat : Nat6) : Prop where
  pr : ∀ i, nat.natPr i = k.proto6
  flags : k.Fits nat.natFlags

/-- The lookup of a packet, as `ipf_nat6_checkout` and `ipf_nat6_checkin` call it. -/
def FrInfo6.lookup (fin : FrInfo6) (out : Bool) (new : Option ℕ) (ifps : Bool → Option ℕ) : Lookup6 where
  out := out
  fin := fin.toFrInfo
  flags := k.flag ||| NAT_SEARCH
  p := fin.finP
  src := fin.finSrc6
  dst := fin.finDst6
  new := new
  ifps := ifps

/-- The packets of a session: those that start it go one way, their replies the other. -/
def Nat6.arrives (nat : Nat6) (out : Bool) : Tuple6 := if out = nat.forward then nat.old k else (nat.new k).reply

/-- **A packet of the session:** its interface is one that the entry lets through, and no proxy refuses it. -/
structure Nat6.Takes (nat : Nat6) (out : Bool) (fin : FrInfo6) : Prop where
  carries : Carries6 M k (nat.arrives k out) fin
  admits : nat.admits out fin.finIfp = true
  accepts : nat.accepts proxyMatch out fin.toFrInfo = true

/-- **The lookup finds the entry.** -/
def Finds6 (w : Softn6) (l : Lookup6) (e : ℕ) : Prop := ∃ w', ipfNat6Lookup M proxyMatch w l = some (w', some e)

/-- **The two translations of a session**, as `NatT.Trip`. -/
def Nat6.Trip (nat : Nat6) (nflags : Flags) (fin r : FrInfo6) : Prop :=
  ∃ t b, translate6 M nat.forward fin nat nflags = some t ∧ t.tuple k = nat.new k ∧ t.Agrees M k ∧
    translate6 M (!nat.forward) r nat nflags = some b ∧ b.tuple k = (nat.old k).reply ∧ b.Agrees M k

/-! ## When they are found and translated -/

/-- The sessions that are translated both ways: as `NatT.Both`, but an id is written unless the new one is 0. -/
def Nat6.Both (nat : Nat6) : Prop :=
  (nat.natDir = .inbound → nat.natOsrc6 = nat.natNsrc6 ∧ nat.natOdst6 = nat.natNdst6) ∧
    match k with
    | .icmp => nat.natNicmpid = 0 → nat.natOicmpid = 0
    | _ => (nat.natNsport = 0 → nat.natOsport = 0 ∧ nat.natOdport = nat.natNdport) ∧
        (nat.natOdport = 0 → nat.natNdport = 0 ∧ nat.natOsport = nat.natNsport)

end

/-- An address as the hash function takes it. -/
def spread6 (a : I6addr) : Word := spread a.i60 + spread a.i61 + spread a.i62 + spread a.i63

/-- The first sum of `ipf_nat6_insert`, for the side that a lookup searches. -/
def Nat6.firstSum (nat : Nat6) (out : Bool) : Word :=
  if out = nat.forward then spread6 nat.natOsrc6 + (nat.hashPorts nat.natOsport nat.natOdport nat.natOicmpid).1
  else spread6 nat.natNsrc6 + (nat.hashPorts nat.natNsport nat.natNdport nat.natNicmpid).1

/-- The first sum of a lookup for the tuple. -/
def firstSum6 (out : Bool) (src dst : I6addr) (sport dport : BitVec 16) : Word :=
  if out then spread6 src + word sport else spread6 dst + word dport

/-- The sum of a tuple. -/
def sum6 (src dst : I6addr) (sport dport : BitVec 16) : Word := spread6 src + spread6 dst + word sport + word dport

/-- A sum after the first step: a first sum of all ones adds 1. -/
def carried (sum first : Word) : Word := sum + if first = ONES then 1 else 0

/-- `e` is the first entry on the chain `b` that passes the test, if it is on that chain. -/
def FirstOn (w : Softn6) (i : Bool) (b : Word) (test : Nat6 → Bool) (e : ℕ) : Prop :=
  ∀ L, Rep (w.tab.side i).table L → ∀ l₁ l₂, L b.toNat = l₁ ++ e :: l₂ → ∀ y ∈ l₁, test (w.nat6 y) = false

/-- No entry on the chain `b` passes the test. -/
def NoneOn (w : Softn6) (i : Bool) (b : Word) (test : Nat6 → Bool) : Prop :=
  ∀ L, Rep (w.tab.side i).table L → ∀ y ∈ L b.toNat, test (w.nat6 y) = false

section

variable (M : Machine) (proxyMatch : FrInfo → NatT → Bool)

/-- The sum of the addresses and ports of a packet. -/
def Lookup6.sum (l : Lookup6) : Word :=
  sum6 l.src l.dst (lookup6Ports M l.fin l.flags l.p).1 (lookup6Ports M l.fin l.flags l.p).2

/-- **The chain of the entry**, which was put there when the table had the size `s`. -/
def chain6 (w : Softn6) (l : Lookup6) (e : ℕ) (s : Word) : Word :=
  carried (l.sum M) ((w.nat6 e).firstSum l.out) % s % w.tab.size

/-- **The first loop finds the entry:** it searches its chain, and no entry on it comes first. -/
def FoundFirst (w : Softn6) (l : Lookup6) (e : ℕ) (s : Word) : Prop :=
  chain6 M w l e s = carried (l.sum M) (firstSum6 l.out l.src l.dst (lookup6Ports M l.fin l.flags l.p).1
    (lookup6Ports M l.fin l.flags l.p).2) % w.tab.size ∧
  FirstOn w (!l.out) (l.bucket M w.tab.size) (l.passes M proxyMatch) e

/-- **The second loop finds an entry** that the first one did not: without ports the packet has the chain of the entry. An entry
that is to be cloned is not returned, and one whose hash values are too large for the table cannot be moved. -/
def FoundSecond (w : Softn6) (l : Lookup6) (e : ℕ) (s : Word) : Prop :=
  NoneOn w (!l.out) (l.bucket M w.tab.size) (l.passes M proxyMatch) ∧ l.searches w = true ∧
    l.wildPasses M (w.nat6 e) = true ∧
    chain6 M w l e s = carried (sum6 l.src l.dst 0 0) (firstSum6 l.out l.src l.dst 0 0) % w.tab.size ∧
    FirstOn w (!l.out) (l.wildBucket w.tab.size) (l.wildPasses M) e ∧
    (has l.fin.finFlx FI_IGNORE = true ∨ has (w.nat6 e).natFlags SI_CLONE = false ∧
      ∀ i, ((w.nat6 e).natDir.hv ((w.nat6 e).hv0 s) ((w.nat6 e).hv1 s) i).toNat < w.tab.size.toNat)

end

end Ipfilter.NatTab
