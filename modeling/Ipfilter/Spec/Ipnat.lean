import Ipfilter.Inet.Ones
import Ipfilter.Spec.StateMatch

/-!
# NAT sessions and the packets they rewrite

The NAT entry `nat_t` of `ip_nat.h` and the code of `ip_nat.c` that rewrites an IPv4 packet from one:
`ipf_nat_finalise` computes the checksum differences of an entry, `ipf_nat_out` and `ipf_nat_in` write
the new addresses and ports into the packet and into `fr_info_t`, and adjust the checksums with
`ipf_fix_outcksum` and `ipf_fix_incksum`.

Addresses and ports are as they are in memory, in network byte order; `fin_data` has the ports in host
byte order and an ICMP id as it is in memory. The members of the unions `nat_unold` and `nat_unnew` are
kept apart. The IP checksum is updated as in the builds where it is (all but BSD kernels). Proxies,
entries that divert packets, the fragment cache and the synchronisation with other hosts are left out.
-/

namespace Ipfilter.NatTab

open Masks State

/-! ## Flags -/

def IPN_TCP : Flags := 0x00001
def IPN_UDP : Flags := 0x00002
def IPN_TCPUDP : Flags := IPN_TCP ||| IPN_UDP
def IPN_ICMPERR : Flags := 0x00004
def IPN_ICMPQUERY : Flags := 0x00008
def IPN_TCPUDPICMP : Flags := IPN_TCP ||| IPN_UDP ||| IPN_ICMPQUERY

def FI_TCPUDP : Flags := 0x0001
def FI_SHORT : Flags := 0x0008
def FI_NATED : Flags := 0x0010
def FI_ICMPERR : Flags := 0x1000
def FI_ICMPQUERY : Flags := 0x80000

def FI_CK_BAD : ℤ := -1
def FI_CK_NEEDED : ℤ := 0
def FI_CK_SUMOK : ℤ := 1
def FI_CK_L4PART : ℤ := 2

/-! ## Data -/

/-- `nat_dir` -/
inductive Dir
  | inbound
  | outbound
  deriving DecidableEq, Repr

/-- `nat_t`, without its links. Index `false` is 0, `true` is 1. -/
structure NatT where
  natFlags : Flags
  natDir : Dir
  natPr : Bool → ℕ
  natV : Bool → ℕ
  natOsrcaddr : Word
  natOdstaddr : Word
  natNsrcaddr : Word
  natNdstaddr : Word
  natOsport : BitVec 16
  natOdport : BitVec 16
  natNsport : BitVec 16
  natNdport : BitVec 16
  natOicmpid : BitVec 16
  natNicmpid : BitVec 16
  natSumd : Bool → Word
  natIpsumd : Word
  natMssclamp : Word
  natHv : Bool → Word
  natIfps : Bool → Option ℕ
  natDlocal : Bool
  natRef : ℤ
  natMe : Option ℕ
  natHm : Option ℕ
  natPtr : Option ℕ
  natAps : Option ℕ
  natRev : Bool

/-- An entry after `bzero`. -/
def NatT.zero : NatT where
  natFlags := 0
  natDir := .inbound
  natPr _ := 0
  natV _ := 0
  natOsrcaddr := 0
  natOdstaddr := 0
  natNsrcaddr := 0
  natNdstaddr := 0
  natOsport := 0
  natOdport := 0
  natNsport := 0
  natNdport := 0
  natOicmpid := 0
  natNicmpid := 0
  natSumd _ := 0
  natIpsumd := 0
  natMssclamp := 0
  natHv _ := 0
  natIfps _ := none
  natDlocal := false
  natRef := 0
  natMe := none
  natHm := none
  natPtr := none
  natAps := none
  natRev := false

/-- The IP header at `fin_ip`; `ipRest` are its other words, as they are sent. -/
structure Ip where
  ipSrc : Word
  ipDst : Word
  ipSum : BitVec 16
  ipRest : List (BitVec 16)

/-- The header at `fin_dp`, and the data: the ports of TCP and UDP, the id of ICMP, the checksum, the
SYN flag and the options of TCP, and the other words, as they are sent. -/
structure L4 where
  thSport : BitVec 16
  thDport : BitVec 16
  icmpId : BitVec 16
  sum : BitVec 16
  thSyn : Bool
  thOpts : List (BitVec 8)
  rest : List (BitVec 16)

/-- The fields of `fr_info_t` that the NAT code reads, with the headers it points to. -/
structure FrInfo where
  finP : ℕ
  finOut : Bool
  finRev : Bool
  finFlx : Flags
  finOff : BitVec 16
  finCksum : ℤ
  finDlen : Word
  finIfp : Option ℕ
  finSaddr : Word
  finDaddr : Word
  finData : Bool → BitVec 16
  finIp : Ip
  finDp : L4

section

variable (M : Machine)

/-- `htons` of a port, as the 32-bit operand of an addition. -/
def port32 (p : BitVec 16) : Word := (M.htons p).setWidth 32

/-! ## Checksum differences -/

/-- `LONG_SUM` -/
def LONG_SUM (i : Word) : Word := Inet.fold i

/-- `CALC_SUMD`: what it leaves in `s2`, and in `sd`. -/
def CALC_SUMD (s1 s2 : Word) : Word × Word :=
  let s1 := Inet.fold (Inet.fold s1)
  let s2 := Inet.fold (Inet.fold s2)
  -- the source: "Because ~1 == -2, We really need ~1 == -1"
  let s2 := if s1 > s2 then s2 - 1 else s2
  (s2, Inet.fold (s2 - s1))

/-- `ipf_fix_outcksum`: the checksum at `sp` after it. -/
def ipfFixOutcksum (cksum : ℤ) (sp : BitVec 16) (n part : Word) : BitVec 16 :=
  if n = 0 then sp
  else if cksum = 4 then 0
  else if cksum = 2 then M.htons ((Inet.fold part).setWidth 16)
  else
    let sum1 := (~~~(M.htons sp)).setWidth 32 + n
    let sum1 := Inet.fold (Inet.fold sum1)
    M.htons (~~~(sum1.setWidth 16))

/-- `ipf_fix_incksum`: only the low 16 bits of `n` are taken. -/
def ipfFixIncksum (cksum : ℤ) (sp : BitVec 16) (n part : Word) : BitVec 16 :=
  if n = 0 then sp
  else if cksum = 4 then 0
  else if cksum = 2 then M.htons ((Inet.fold part).setWidth 16)
  else
    let sum1 := (~~~(M.htons sp)).setWidth 32 + (~~~n &&& 0xffff#32)
    let sum1 := Inet.fold (Inet.fold sum1)
    M.htons (~~~(sum1.setWidth 16))

/-- `(sumd & 0xffff) + (sumd >> 16)` for the difference from `s1` to `s2`. -/
def sumd (s1 s2 : Word) : Word := Inet.fold (CALC_SUMD s1 s2).2

/-- `nat_sumd[0]`: the difference for the transport checksum. -/
def NatT.sumd0 (nat : NatT) : Word :=
  if nat.natPr false = IPPROTO_ICMP then
    sumd (LONG_SUM (port32 M nat.natOicmpid)) (LONG_SUM (port32 M nat.natNicmpid))
  else
    sumd (LONG_SUM (M.ntohl nat.natOsrcaddr + port32 M nat.natOsport))
        (LONG_SUM (M.ntohl nat.natNsrcaddr + port32 M nat.natNsport)) +
      sumd (LONG_SUM (M.ntohl nat.natOdstaddr + port32 M nat.natOdport))
        (LONG_SUM (M.ntohl nat.natNdstaddr + port32 M nat.natNdport))

/-- `nat_sumd[1]`: the partial checksum of the addresses and the protocol. -/
def NatT.sumd1 (nat : NatT) : Word :=
  let sum1 := match nat.natDir with
    | .outbound => LONG_SUM (M.ntohl nat.natNsrcaddr) + LONG_SUM (M.ntohl nat.natNdstaddr)
    | .inbound => LONG_SUM (M.ntohl nat.natOsrcaddr) + LONG_SUM (M.ntohl nat.natOdstaddr)
  Inet.fold (sum1 + BitVec.ofNat 32 (nat.natPr true))

/-- `nat_ipsumd`: the difference for the header checksum. -/
def NatT.ipsumd (nat : NatT) : Word :=
  sumd (LONG_SUM (M.ntohl nat.natOsrcaddr)) (LONG_SUM (M.ntohl nat.natNsrcaddr)) +
    sumd (LONG_SUM (M.ntohl nat.natOdstaddr)) (LONG_SUM (M.ntohl nat.natNdstaddr))

/-- The part of `ipf_nat_finalise` before the entry is inserted. -/
def NatT.finalise (nat : NatT) : NatT :=
  { nat with
    natSumd := fun i => if i then nat.sumd1 M else nat.sumd0 M
    natIpsumd := nat.ipsumd M
    natV := fun _ => 4 }

/-! ## The transport header -/

/-- The loop of `ipf_nat_mssclamp`. The options are walked from the front; the result is the options, the
checksum, and whether an option was above the clamp. -/
def mssclampLoop (maxmss : Word) (sum : BitVec 16) : List (BitVec 8) → List (BitVec 8) × BitVec 16 × Bool
  | [] => ([], sum, false)
  | [opt] =>
    -- a NOP is stepped over, anything else has no length byte
    ([opt], sum, false)
  | opt :: adv :: cp =>
    if opt = 0 then (opt :: adv :: cp, sum, false)
    else if opt = 1 then
      let (cp', sum', hit) := mssclampLoop maxmss sum (adv :: cp)
      (opt :: cp', sum', hit)
    else if cp.length + 2 < adv.toNat ∨ adv = 0 then (opt :: adv :: cp, sum, false)
    else if opt = 2 ∧ adv = 4 then
      match cp with
      | hi :: lo :: cp =>
        let mss : Word := (hi ++ lo).setWidth 32
        if mss > maxmss then
          let d := CALC_SUMD mss maxmss
          let (cp', sum', _) := mssclampLoop d.1 (ipfFixOutcksum M 0 sum d.2 0) cp
          (opt :: adv :: (maxmss.extractLsb' 8 8) :: (maxmss.extractLsb' 0 8) :: cp', sum', true)
        else
          let (cp', sum', hit) := mssclampLoop maxmss sum cp
          (opt :: adv :: hi :: lo :: cp', sum', hit)
      | _ => (opt :: adv :: cp, sum, false)
    else
      let (cp', sum', hit) := mssclampLoop maxmss sum ((opt :: adv :: cp).drop adv.toNat)
      ((opt :: adv :: cp).take adv.toNat ++ cp', sum', hit)
termination_by l => l.length
decreasing_by
  all_goals simp_all only [List.length_cons, List.length_drop]
  all_goals first | omega | skip
  rename_i h1 _ _
  have hpos : adv.toNat ≠ 0 := fun h0 => by
    have h : adv = 0 := BitVec.eq_of_toNat_eq h0
    simp_all
  omega

/-- A TCP option of the packet is above the clamp of the entry. -/
def FrInfo.clamped (fin : FrInfo) (nat : NatT) : Bool :=
  fin.finP = IPPROTO_TCP ∧ nat.natMssclamp ≠ 0 ∧ fin.finDp.thSyn ∧
    (mssclampLoop M nat.natMssclamp fin.finDp.sum fin.finDp.thOpts).2.2

/-- `ipf_nat_proto`: the packet, and whether there is a checksum to update. `none` is a write through a
NULL checksum pointer. -/
def ipfNatProto (fin : FrInfo) (nat : NatT) (nflags : Flags) : Option (FrInfo × Bool) :=
  let fin := { fin with finRev := if fin.finOut then nat.natDir = .inbound else nat.natDir = .outbound }
  if fin.finP = IPPROTO_TCP then
    let csump := has nflags IPN_TCP
    if nat.natMssclamp ≠ 0 ∧ fin.finDp.thSyn then
      let (opts, sum, hit) := mssclampLoop M nat.natMssclamp fin.finDp.sum fin.finDp.thOpts
      if hit = true ∧ csump = false then none
      else some ({ fin with finDp := { fin.finDp with thOpts := opts, sum := sum } }, csump)
    else some (fin, csump)
  else if fin.finP = IPPROTO_UDP then some (fin, has nflags IPN_UDP ∧ fin.finDp.sum ≠ 0)
  else if fin.finP = IPPROTO_ICMP then some (fin, has nflags IPN_ICMPQUERY ∧ fin.finDp.sum ≠ 0)
  else some (fin, false)

/-- `th_sport`, `th_dport` and the ports in `fin_data` are set. -/
def FrInfo.setPorts (fin : FrInfo) (sport dport : BitVec 16) : FrInfo :=
  { fin with
    finDp := { fin.finDp with thSport := sport, thDport := dport }
    finData := fun i => if i then M.htons dport else M.htons sport }

/-- `icmp_id` is set; `fin_data` is left as it is. -/
def FrInfo.setId (fin : FrInfo) (id : BitVec 16) : FrInfo :=
  { fin with finDp := { fin.finDp with icmpId := id } }

/-! ## Translation -/

/-- The checksum difference when the packet is an ICMP error: from the addresses it has to those it gets. -/
def icmperrSumd (fin : FrInfo) (nat : NatT) : Word :=
  match nat.natDir with
  | .outbound =>
    (CALC_SUMD (LONG_SUM (M.ntohl fin.finSaddr)) (LONG_SUM (M.ntohl nat.natNsrcaddr))).2 +
      (CALC_SUMD (LONG_SUM (M.ntohl fin.finDaddr)) (LONG_SUM (M.ntohl nat.natNdstaddr))).2
  | .inbound =>
    (CALC_SUMD (LONG_SUM (M.ntohl fin.finSaddr)) (LONG_SUM (M.ntohl nat.natOdstaddr))).2 +
      (CALC_SUMD (LONG_SUM (M.ntohl fin.finDaddr)) (LONG_SUM (M.ntohl nat.natOsrcaddr))).2

/-- `fin_cksum & FI_CK_L4PART` -/
def l4part (cksum : ℤ) : ℤ := if cksum = FI_CK_BAD ∨ cksum = FI_CK_L4PART then 2 else 0

/-- The IP checksum that `ipf_nat_out` leaves. -/
def outIpSum (fin : FrInfo) (nat : NatT) (nflags : Flags) : BitVec 16 :=
  if nflags = IPN_ICMPERR then ipfFixOutcksum M 0 fin.finIp.ipSum (icmperrSumd M fin nat) 0
  else match nat.natDir with
    | .outbound => ipfFixOutcksum M (l4part fin.finCksum) fin.finIp.ipSum nat.natIpsumd 0
    | .inbound => ipfFixIncksum M (l4part fin.finCksum) fin.finIp.ipSum nat.natIpsumd 0

/-- The addresses that `ipf_nat_out` writes. -/
def outAddrs (fin : FrInfo) (nat : NatT) : FrInfo :=
  match nat.natDir with
  | .outbound =>
    { fin with
      finIp := { fin.finIp with ipSrc := nat.natNsrcaddr, ipDst := nat.natNdstaddr }
      finSaddr := nat.natNsrcaddr
      finDaddr := nat.natNdstaddr }
  | .inbound =>
    { fin with
      finIp := { fin.finIp with ipSrc := nat.natOdstaddr, ipDst := nat.natOsrcaddr }
      finSaddr := nat.natNdstaddr
      finDaddr := nat.natNsrcaddr }

/-- The ports and the ICMP id that `ipf_nat_out` writes. -/
def outPorts (fin : FrInfo) (nat : NatT) (nflags : Flags) : FrInfo :=
  let fin := if nat.natNsport ≠ 0 ∧ has nflags IPN_TCPUDP then
      match nat.natDir with
      | .outbound => fin.setPorts M nat.natNsport nat.natNdport
      | .inbound => fin.setPorts M nat.natOdport nat.natOsport
    else fin
  if nat.natOicmpid ≠ 0 ∧ has nflags IPN_ICMPQUERY then
    match nat.natDir with
    | .outbound => fin.setId nat.natNicmpid
    | .inbound => fin.setId nat.natOicmpid
  else fin

/-- `ipf_nat_out` -/
def ipfNatOut (fin : FrInfo) (nat : NatT) (nflags : Flags) : Option FrInfo := do
  let fin := { fin with finIp := { fin.finIp with ipSum := outIpSum M fin nat nflags } }
  let fin := outAddrs fin nat
  let fin ← if has fin.finFlx FI_SHORT = false ∧ fin.finOff = 0 then do
      let (fin, csump) ← ipfNatProto M (outPorts M fin nat nflags) nat nflags
      let part := nat.natSumd true + fin.finDlen
      let sum := if csump = false then fin.finDp.sum
        else match nat.natDir with
          | .outbound => ipfFixOutcksum M fin.finCksum fin.finDp.sum (nat.natSumd false) part
          | .inbound => ipfFixIncksum M fin.finCksum fin.finDp.sum (nat.natSumd false) part
      pure { fin with finDp := { fin.finDp with sum := sum } }
    else pure fin
  pure { fin with finFlx := fin.finFlx ||| FI_NATED }

/-- The addresses that `ipf_nat_in` writes, and the difference it takes for the IP checksum: the source of
an ICMP error is left as it is. -/
def inAddrs (fin : FrInfo) (nat : NatT) : FrInfo × Word :=
  let err := has fin.finFlx FI_ICMPERR
  match nat.natDir with
  | .inbound =>
    let src := if err then fin.finIp.ipSrc else nat.natNsrcaddr
    ({ fin with
        finIp := { fin.finIp with ipSrc := src, ipDst := nat.natNdstaddr }
        finSaddr := if err then fin.finSaddr else nat.natNsrcaddr
        finDaddr := nat.natNdstaddr },
      if err then nat.natIpsumd - (CALC_SUMD nat.natOsrcaddr nat.natNsrcaddr).2 else nat.natIpsumd)
  | .outbound =>
    let src := if err then fin.finIp.ipSrc else nat.natOdstaddr
    ({ fin with
        finIp := { fin.finIp with ipSrc := src, ipDst := nat.natOsrcaddr }
        finSaddr := if err then fin.finSaddr else nat.natOdstaddr
        finDaddr := nat.natOsrcaddr },
      if err then nat.natIpsumd - (CALC_SUMD nat.natOdstaddr nat.natNdstaddr).2 else nat.natIpsumd)

/-- The IP checksum that `ipf_nat_in` leaves. -/
def inIpSum (sum : BitVec 16) (dir : Dir) (ipsumd : Word) : BitVec 16 :=
  match dir with
  | .inbound => ipfFixOutcksum M 0 sum ipsumd 0
  | .outbound => ipfFixIncksum M 0 sum ipsumd 0

/-- The ports and the ICMP id that `ipf_nat_in` writes. -/
def inPorts (fin : FrInfo) (nat : NatT) (nflags : Flags) : FrInfo :=
  let fin := if nat.natOdport ≠ 0 ∧ has nflags IPN_TCPUDP then
      match nat.natDir with
      | .inbound => fin.setPorts M nat.natNsport nat.natNdport
      | .outbound => fin.setPorts M nat.natOdport nat.natOsport
    else fin
  if nat.natOicmpid ≠ 0 ∧ has nflags IPN_ICMPQUERY then
    match nat.natDir with
    | .inbound => fin.setId nat.natNicmpid
    | .outbound => fin.setId nat.natOicmpid
  else fin

/-- `ipf_nat_in` -/
def ipfNatIn (fin : FrInfo) (nat : NatT) (nflags : Flags) : Option FrInfo := do
  let q := inAddrs fin nat
  let fin := { q.1 with finIp := { q.1.finIp with ipSum := inIpSum M q.1.finIp.ipSum nat.natDir q.2 } }
  let fin ← if has fin.finFlx FI_SHORT = false ∧ fin.finOff = 0 then do
      let (fin, csump) ← ipfNatProto M (inPorts M fin nat nflags) nat nflags
      let sum := if csump = false then fin.finDp.sum
        else match nat.natDir with
          | .outbound => ipfFixIncksum M 0 fin.finDp.sum (nat.natSumd false) 0
          | .inbound => ipfFixOutcksum M 0 fin.finDp.sum (nat.natSumd false) 0
      pure { fin with finDp := { fin.finDp with sum := sum } }
    else pure fin
  pure { fin with finFlx := fin.finFlx ||| FI_NATED }

/-- The translation of a packet that goes out (`out`) or comes in. -/
def translate (out : Bool) (fin : FrInfo) (nat : NatT) (nflags : Flags) : Option FrInfo :=
  if out then ipfNatOut M fin nat nflags else ipfNatIn M fin nat nflags

end

/-! ## The packets of a session -/

/-- The kinds of packets whose ports or id are translated. -/
inductive Kind
  | tcp
  | udp
  | icmp
  deriving DecidableEq, Repr

def Kind.proto : Kind → ℕ
  | .tcp => IPPROTO_TCP
  | .udp => IPPROTO_UDP
  | .icmp => IPPROTO_ICMP

/-- The bit of `nat_flags` for a kind. -/
def Kind.flag : Kind → Flags
  | .tcp => IPN_TCP
  | .udp => IPN_UDP
  | .icmp => IPN_ICMPQUERY

/-- The addresses of a packet with its ports, or its ICMP id; what the kind does not have is 0. -/
structure Tuple where
  src : Word
  dst : Word
  sport : BitVec 16
  dport : BitVec 16
  id : BitVec 16
  deriving DecidableEq

/-- The tuple of the reply. -/
def Tuple.reply (t : Tuple) : Tuple := ⟨t.dst, t.src, t.dport, t.sport, t.id⟩

/-- A tuple of kind `k` from its parts. -/
def Kind.tuple (k : Kind) (src dst : Word) (sport dport id : BitVec 16) : Tuple :=
  match k with
  | .icmp => ⟨src, dst, 0, 0, id⟩
  | _ => ⟨src, dst, sport, dport, 0⟩

/-- What the headers of a packet say. -/
def FrInfo.tuple (k : Kind) (fin : FrInfo) : Tuple :=
  k.tuple fin.finIp.ipSrc fin.finIp.ipDst fin.finDp.thSport fin.finDp.thDport fin.finDp.icmpId

/-- The packets that start a session. -/
def NatT.old (k : Kind) (nat : NatT) : Tuple :=
  k.tuple nat.natOsrcaddr nat.natOdstaddr nat.natOsport nat.natOdport nat.natOicmpid

/-- What they are translated to. -/
def NatT.new (k : Kind) (nat : NatT) : Tuple :=
  k.tuple nat.natNsrcaddr nat.natNdstaddr nat.natNsport nat.natNdport nat.natNicmpid

section

variable (M : Machine) (k : Kind)

/-- The copies of the addresses and of the ports in `fr_info_t` are those of the headers. -/
def FrInfo.Agrees (fin : FrInfo) : Prop :=
  fin.finSaddr = fin.finIp.ipSrc ∧ fin.finDaddr = fin.finIp.ipDst ∧
    (k ≠ .icmp → fin.finData false = M.htons fin.finDp.thSport ∧
      fin.finData true = M.htons fin.finDp.thDport)

/-- **A packet of kind `k`** with the tuple `t`, complete and not a fragment, as `ipf_makefrip` sets up
`fr_info_t` for it. -/
structure Carries (t : Tuple) (fin : FrInfo) : Prop where
  proto : fin.finP = k.proto
  long : has fin.finFlx FI_SHORT = false
  first : fin.finOff = 0
  query : has fin.finFlx FI_ICMPERR = false
  tuple : fin.tuple k = t
  agrees : fin.Agrees M k
  data : k = .icmp → fin.finData true = fin.finDp.icmpId

/-- The flags of a packet of kind `k`, or of an entry made for one. -/
def Kind.Fits (nflags : Flags) : Prop :=
  nflags &&& (IPN_TCPUDP ||| IPN_ICMPERR ||| IPN_ICMPQUERY) = k.flag

instance (nflags : Flags) : Decidable (k.Fits nflags) := inferInstanceAs (Decidable (_ = _))

/-- Whether packets that start the session go out. -/
def NatT.forward (nat : NatT) : Bool := nat.natDir = .outbound

/-- **The two translations of a session.** The packet `fin` comes out with the new tuple, its reply `r` with
the reply of the old one, and what `fr_info_t` says is what the headers say. -/
def NatT.Trip (nat : NatT) (nflags : Flags) (fin r : FrInfo) : Prop :=
  ∃ t b, translate M nat.forward fin nat nflags = some t ∧ t.tuple k = nat.new k ∧ t.Agrees M k ∧
    translate M (!nat.forward) r nat nflags = some b ∧ b.tuple k = (nat.old k).reply ∧ b.Agrees M k

/-- The sessions that are translated both ways. A port of 0 keeps both ports from being written: `nat_nsport`
when a packet goes out, `nat_odport` when it comes in; an id of 0 keeps the id from being written. The packets
of a redirect that go out leave the new addresses in `fr_info_t`, not those of their headers. -/
def NatT.Both (nat : NatT) : Prop :=
  (nat.natDir = .inbound → nat.natOsrcaddr = nat.natNsrcaddr ∧ nat.natOdstaddr = nat.natNdstaddr) ∧
    match k with
    | .icmp => nat.natOicmpid = 0 → nat.natNicmpid = 0
    | _ => (nat.natNsport = 0 → nat.natOsport = 0 ∧ nat.natOdport = nat.natNdport) ∧
        (nat.natOdport = 0 → nat.natNdport = 0 ∧ nat.natOsport = nat.natNsport)

/-! ## Checksums of a packet -/

/-- The two halves of an address, as they are sent. -/
def halves (a : Word) : List (BitVec 16) := [(M.ntohl a).extractLsb' 16 16, (M.ntohl a).extractLsb' 0 16]

/-- The words that the IP checksum covers. -/
def Ip.words (ip : Ip) : List (BitVec 16) :=
  M.htons ip.ipSum :: (halves M ip.ipSrc ++ halves M ip.ipDst ++ ip.ipRest)

/-- Bytes in pairs; a last byte is followed by 0. -/
def byteWords : List (BitVec 8) → List (BitVec 16)
  | [] => []
  | [a] => [a ++ 0#8]
  | a :: b :: l => (a ++ b) :: byteWords l

/-- The words that the transport checksum covers: for TCP and UDP, with the addresses, the protocol and the
length. -/
def FrInfo.l4words (fin : FrInfo) : List (BitVec 16) :=
  match k with
  | .icmp => M.htons fin.finDp.sum :: M.htons fin.finDp.icmpId :: fin.finDp.rest
  | _ =>
    M.htons fin.finDp.sum :: M.htons fin.finDp.thSport :: M.htons fin.finDp.thDport ::
      (halves M fin.finIp.ipSrc ++ halves M fin.finIp.ipDst ++
        BitVec.ofNat 16 k.proto :: fin.finDlen.setWidth 16 :: (byteWords fin.finDp.thOpts ++ fin.finDp.rest))

/-- **Both checksums of the packet are right**; the header has at least a version. -/
structure FrInfo.Sound (fin : FrInfo) : Prop where
  ip : Inet.Valid (fin.finIp.words M)
  version : Inet.total fin.finIp.ipRest ≠ 0
  l4 : Inet.Valid (fin.l4words M k)

/-- The packets of a session: those that start it go one way, their replies the other. -/
def NatT.arrives (nat : NatT) (out : Bool) : Tuple :=
  if out = nat.forward then nat.old k else (nat.new k).reply

/-- What the entry asks for: the new tuple, or the reply of the old one. -/
def NatT.target (nat : NatT) (out : Bool) : Tuple :=
  if out = nat.forward then nat.new k else (nat.old k).reply

/-- The ports or the id of the entry are written into the packet. -/
def NatT.writes (nat : NatT) (out : Bool) : Bool :=
  match k with
  | .icmp => nat.natOicmpid ≠ 0
  | _ => if out then nat.natNsport ≠ 0 else nat.natOdport ≠ 0

/-- An address and a port, added in 32 bits, overflow. -/
def wrap (a : Word) (p : BitVec 16) : ℕ := ((M.ntohl a).toNat + (M.htons p).toNat) / 2 ^ 32

/-- The overflows in the sums for the old addresses and ports. -/
def NatT.oldWraps (nat : NatT) : ℕ := wrap M nat.natOsrcaddr nat.natOsport + wrap M nat.natOdstaddr nat.natOdport

/-- The overflows in the sums for the new addresses and ports. -/
def NatT.newWraps (nat : NatT) : ℕ := wrap M nat.natNsrcaddr nat.natNsport + wrap M nat.natNdstaddr nat.natNdport

/-- The old port numbers. -/
def NatT.oldPorts (nat : NatT) : ℕ := (M.htons nat.natOsport).toNat + (M.htons nat.natOdport).toNat

/-- The new port numbers. -/
def NatT.newPorts (nat : NatT) : ℕ := (M.htons nat.natNsport).toNat + (M.htons nat.natNdport).toNat

/-- **When the checksums come out right.** Towards the new tuple, the sums of old and new addresses and ports
must overflow alike. Back from it, the two differences must not have a carry, since `ipf_fix_incksum` drops
it. Ports or an id that are not written must not have been counted. -/
def NatT.Exact (nat : NatT) (out : Bool) (rest : List (BitVec 16)) : Prop :=
  (out ≠ nat.forward → (nat.ipsumd M).toNat < 2 ^ 16) ∧
    match k with
    | .icmp =>
      (nat.natOicmpid = 0 → nat.natNicmpid = 0 ∨ nat.natNicmpid = 0xffff#16) ∧
      -- a message of zeros with the checksum 0 is no valid message
      ¬ (out = nat.forward ∧ Inet.total rest = 0 ∧ nat.natOicmpid ≠ nat.natNicmpid ∧
        (nat.natOicmpid = 0 ∨ nat.natNicmpid = 0))
    | _ =>
      if out = nat.forward then
        if nat.writes k out then nat.newWraps M = nat.oldWraps M
        else (nat.oldPorts M + nat.newWraps M) % 65535 = (nat.newPorts M + nat.oldWraps M) % 65535
      else
        let carry := (nat.sumd0 M).toNat / 2 ^ 16
        if nat.writes k out then nat.oldWraps M = nat.newWraps M + carry
        else (nat.newPorts M + nat.oldWraps M) % 65535 = (nat.oldPorts M + nat.newWraps M + carry) % 65535

end

end Ipfilter.NatTab
