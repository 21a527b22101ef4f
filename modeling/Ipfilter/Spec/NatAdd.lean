import Ipfilter.Spec.NatFind

/-!
# New NAT sessions

`ipf_nat_add` of `ip_nat.c` with the functions that choose the new addresses and ports of a session:
`ipf_nat_newmap` for packets that go out, `ipf_nat_newrdr` for packets that come in, `ipf_nat_newrewrite` for
rules that change both ends and `ipf_nat_newdivert` for rules that put packets into others. They read and change the rule
(`ipnat_t`), the host maps (`hostmap_t`), which remember the translation that a pair of hosts was given, and the NAT table.

A host map is found by its addresses, which fix its hash bucket, and a new one goes to the front of its bucket: the
list of all host maps, the newest first, stands for the buckets. The order of the rules in the rule tables, which
round robin changes, is not part of the state: a packet may be given any rule. The bytes that are written into the
packet are left out, and so are counters of events. `none` is a step into something
that was freed, a division by 0, or a loop that has not come to its end within `fuel` rounds.
-/

namespace Ipfilter.NatAdd

open Chain Masks NatTab
open State hiding FrInfo

/-! ## Flags -/

def IPN_AUTOPORTMAP : Flags := 0x00010
def IPN_SPLIT : Flags := 0x00040
def IPN_ROUNDR : Flags := 0x00080
def IPN_SIPRANGE : Flags := 0x00100
def IPN_STICKY : Flags := 0x10000
def IPN_FIXEDSPORT : Flags := 0x40000
def IPN_FIXEDDPORT : Flags := 0x80000
def IPN_SEQUENTIAL : Flags := 0x400000

def NAT_SLAVE : Flags := 0x0020
def NAT_NOTRULEPORT : Flags := 0x0040
def NAT_FROMRULE : Flags := IPN_TCP ||| IPN_UDP

def NAT_MAP : Flags := 0x01
def NAT_REDIRECT : Flags := 0x02
def NAT_BIMAP : Flags := NAT_MAP ||| NAT_REDIRECT
def NAT_MAPBLK : Flags := 0x04
def NAT_REWRITE : Flags := 0x08
def NAT_DIVERTUDP : Flags := 0x20

def MAPBLK_MINPORT : BitVec 16 := 1024

/-! ## Data -/

/-- `na_atype`; for `FRI_LOOKUP`, whether the table is a destination list. -/
inductive Atype
  | none
  | normal
  | dynamic
  | lookup (dstlist : Bool)
  | range
  | network
  | broadcast
  | peeraddr
  | netmasked
  | split
  deriving DecidableEq, Repr

/-- `ipnat_t`, the fields that `ipf_nat_add` reads. Addresses and masks are in network byte order, the next address
to try and the ports in host byte order. `inNamed` says that the second of `in_ifnames` is a name of more than one
letter that does not start with `-` or `*`. -/
structure Ipnat where
  inFlags : Flags
  inRedir : Flags
  inIfps : Bool → Option ℕ
  inNamed : Bool
  inOsrcmsk : Word
  inOdstmsk : Word
  inNsrcaddr : Word
  inNsrcmsk : Word
  inNsrcatype : Atype
  inSnip : Word
  inNdstaddr : Word
  inNdstmsk : Word
  inNdstatype : Atype
  inDnip : Word
  inSpnext : BitVec 16
  inSpmin : BitVec 16
  inSpmax : BitVec 16
  inDpnext : BitVec 16
  inDpmin : BitVec 16
  inDpmax : BitVec 16
  inOdport : BitVec 16
  inDtop : BitVec 16
  inPpip : BitVec 16
  inIppip : BitVec 16
  inStepnext : ℕ
  inMssclamp : Word
  inDlocal : Bool
  inApr : Option ℕ
  inUse : ℤ

/-- `hostmap_t` -/
structure Hostmap where
  hmIpnat : ℕ
  hmOsrcip : Word
  hmOdstip : Word
  hmNsrcip : Word
  hmNdstip : Word
  hmRef : ℤ
  hmPort : Word

/-- The NAT table, the host maps and the rules. `maplist` is `ipf_hm_maplist`, `live` says which rules are
allocated. -/
structure Sys where
  tab : Softn
  maplist : List ℕ
  hm : ℕ → Hostmap
  ipn : ℕ → Ipnat
  live : ℕ → Bool

/-- Change the fields of one rule. -/
def Sys.updRule (s : Sys) (n : ℕ) (f : Ipnat → Ipnat) : Sys :=
  { s with ipn := Function.update s.ipn n (f (s.ipn n)) }

/-- Change the fields of one host map. -/
def Sys.updHm (s : Sys) (h : ℕ) (f : Hostmap → Hostmap) : Sys :=
  { s with hm := Function.update s.hm h (f (s.hm h)) }

/-- `in_use` goes up by `k`. -/
def Ipnat.addUse (k : ℤ) (np : Ipnat) : Ipnat := { np with inUse := np.inUse + k }

/-- `hm_ref` goes up by `k`. -/
def Hostmap.addRef (k : ℤ) (hm : Hostmap) : Hostmap := { hm with hmRef := hm.hmRef + k }

/-- A rule that is allocated. -/
def Sys.rule? (s : Sys) (n : ℕ) : Option Ipnat := if s.live n then some (s.ipn n) else none

/-! ## Rules and host maps -/

/-- `ipf_nat_rule_deref` -/
def ipfNatRuleDeref (s : Sys) (n : ℕ) : Option Sys :=
  if s.live n = false then none
  else
    let s := s.updRule n (.addUse (-1))
    if (s.ipn n).inUse > 0 then some s else some { s with live := Function.update s.live n false }

/-- The test of `ipf_nat_hostmap` on a host map. -/
def Hostmap.fits (hm : Hostmap) (np : Option ℕ) (src dst port : Word) : Bool :=
  hm.hmOsrcip = src ∧ hm.hmOdstip = dst ∧ (np = none ∨ np = some hm.hmIpnat) ∧ (port = 0 ∨ port = hm.hmPort)

/-- `ipf_nat_hostmap`: a host map found counts one more reference, and where there is none it is made for the rule
`np`. `new` is what `KMALLOC` returns. -/
def ipfNatHostmap (s : Sys) (np : Option ℕ) (src dst map port : Word) (new : Option ℕ) : Sys × Option ℕ :=
  match s.maplist.find? fun h => (s.hm h).fits np src dst port with
  | some h => (s.updHm h (.addRef 1), some h)
  | none =>
    match np, new with
    | some n, some h =>
      ({ s.updRule n (.addUse 1) with
        maplist := h :: s.maplist
        hm := Function.update s.hm h ⟨n, src, dst, map, 0, 1, port⟩ }, some h)
    | _, _ => (s, none)

/-- `ipf_nat_hostmapdel` -/
def ipfNatHostmapdel (s : Sys) (h : ℕ) : Option Sys :=
  if h ∉ s.maplist then none
  else
    let s := s.updHm h (.addRef (-1))
    if (s.hm h).hmRef = 0 then do
      let s ← ipfNatRuleDeref s (s.hm h).hmIpnat
      return { s with maplist := s.maplist.erase h }
    else some s

/-- The release of a host map pointer that may be NULL. -/
def dropHm (s : Sys) : Option ℕ → Option Sys
  | none => some s
  | some h => ipfNatHostmapdel s h

/-- The release of a rule pointer that may be NULL. -/
def dropRule (s : Sys) : Option ℕ → Option Sys
  | none => some s
  | some n => ipfNatRuleDeref s n

/-! ## Calls -/

/-- A call of `ipf_nat_add`, with what the rest of the system returns during it: `new` and `hmNew` are the results of
`KMALLOC` for the entry and for a first and second host map, `random` those of `ipf_random`, `ifpaddr` the address
that `ipf_ifpaddr` finds for `fin_ifp`, `dstlist` what `ipf_dstlist_select_node` chooses in a round, and `proxy` what
`ipf_proxy_new` does: `none` is its return value -1, else the proxy session that it stores in the entry, if any. -/
structure Call where
  fin : FrInfo
  np : ℕ
  natsave : Option ℕ
  flags : Flags
  dir : Dir
  new : Option ℕ
  hmNew : Bool → Option ℕ
  random : ℕ → Word
  ifpaddr : Option Word
  dstlist : Bool → ℕ → Option Word
  proxy : NatT → Option (Option ℕ)

/-- Why a choice of address and port ends without one: the function returns -1, or divides by 0. -/
inductive Stop
  | refused
  | fault

section

variable (M : Machine)

/-- The source port as `ipf_nat_newmap` has it. -/
def Call.mapSport (c : Call) : BitVec 16 :=
  if has c.flags IPN_ICMPQUERY then c.fin.finData true else M.htons (c.fin.finData false)

/-- The destination port as `ipf_nat_newmap` has it. -/
def Call.mapDport (c : Call) : BitVec 16 :=
  if has c.flags IPN_ICMPQUERY then 0 else M.htons (c.fin.finData true)

/-- The source port as `ipf_nat_newrdr` has it. -/
def Call.rdrSport (c : Call) : BitVec 16 :=
  if has c.flags IPN_ICMPQUERY then 0 else M.htons (c.fin.finData false)

/-- The destination port as `ipf_nat_newrdr` has it. -/
def Call.rdrDport (c : Call) : BitVec 16 :=
  if has c.flags IPN_ICMPQUERY then c.fin.finData true else M.htons (c.fin.finData true)

/-- The entry as `ipf_nat_add` sets it up. -/
def Call.blank (c : Call) : NatT :=
  { NatT.zero with natFlags := c.flags, natDir := c.dir, natPr := fun _ => c.fin.finP }

/-- The flags of the lookups for a translation that is in use. -/
def Call.probeFlags (c : Call) : Flags := c.flags &&& ~~~(SI_WILDP ||| NAT_SEARCH)

/-- The packet with other ports. -/
def withData (fin : FrInfo) (d0 d1 : BitVec 16) : FrInfo := { fin with finData := fun i => if i then d1 else d0 }

/-! ## `ipf_nat_newmap` -/

/-- The port of a block: port `sport` of the `k`th address that shares an address. -/
def blockPort (np : Ipnat) (sport : BitVec 16) (k : Word) : BitVec 16 :=
  M.htons (sport % np.inPpip + np.inPpip * (k % np.inIppip.setWidth 32).setWidth 16 + MAPBLK_MINPORT)

/-- The choice of the address in round `l`: `addr` is that of the host map, if there is one (`held`), or the next of
the rule. A rule for blocks chooses a port, too. -/
def mapAddr (np : Ipnat) (c : Call) (l : ℕ) (held : Bool) (addr : Word) : Except Stop (Ipnat × Word × BitVec 16) :=
  if np.inNsrcmsk = 0xffffffff ∧ np.inSpnext = 0 ∧ l > 0 then .error .refused
  else if np.inRedir = NAT_BIMAP ∧ np.inOsrcmsk = np.inNsrcmsk then
    .ok (np, M.ntohl (np.inNsrcaddr ||| c.fin.finSaddr &&& ~~~np.inOsrcmsk), 0)
  else if has np.inRedir NAT_MAPBLK then
    if l ≥ np.inPpip.toNat ∨ l > 0 ∧ has c.flags IPN_TCPUDP = false then .error .refused
    else if np.inIppip = 0 then .error .fault
    else
      let inb := M.ntohl c.fin.finSaddr &&& M.ntohl (~~~np.inOsrcmsk)
      let addr := (inb / np.inIppip.setWidth 32 &&& M.ntohl (~~~np.inNsrcmsk)) + M.ntohl np.inNsrcaddr
      .ok (np, addr, if has c.flags IPN_TCPUDP ∧ np.inPpip ≠ 0 then
        blockPort M np (M.htons (c.mapSport M) + BitVec.ofNat 16 l) inb else 0)
  else if np.inNsrcaddr = 0 ∧ np.inNsrcmsk = 0xffffffff then
    match c.ifpaddr with
    | none => .error .refused
    | some a => if l > 0 then .error .refused else .ok (np, M.ntohl a, 0)
  else if np.inNsrcaddr = 0 ∧ np.inNsrcmsk = 0 then
    if l > 0 then .error .refused else .ok (np, M.ntohl c.fin.finSaddr, 0)
  else if np.inNsrcmsk ≠ 0xffffffff ∧ np.inSpnext = 0 ∧ (l > 0 ∨ held = false) then
    .ok ({ np with inSnip := np.inSnip + 1 }, addr, 0)
  else .ok (np, addr, 0)

/-- The choice of the port in round `l`. -/
def mapPort (np : Ipnat) (c : Call) (l : ℕ) (port : BitVec 16) : Except Stop (Ipnat × BitVec 16) :=
  if has c.flags IPN_TCPUDP ∧ has np.inRedir NAT_MAPBLK = false ∧ has np.inFlags IPN_AUTOPORTMAP then
    if np.inPpip = 0 then if l > 0 then .error .fault else .ok (np, port)
    else if np.inIppip = 0 then .error .fault
    else
      let ppip := np.inPpip.toNat
      let next := l > 0 ∧ l % ppip = 0 ∧ l > ppip ∧ np.inNsrcmsk ≠ 0xffffffff
      .ok (if next then { np with inSnip := np.inSnip + 1 } else np,
        blockPort M np (M.htons (c.mapSport M) + BitVec.ofNat 16 (l % ppip)) (M.ntohl c.fin.finSaddr))
  else if has np.inRedir NAT_MAPBLK = false ∧ has c.flags IPN_TCPUDPICMP ∧ np.inSpnext ≠ 0 then
    let range : Word := np.inSpmax.setWidth 32 - np.inSpmin.setWidth 32 + 1
    if has np.inFlags IPN_SEQUENTIAL = false ∧ range = 0 then .error .fault
    else
      let port := if has np.inFlags IPN_SEQUENTIAL then np.inSpnext
        else (c.random l % range).setWidth 16 + np.inSpmin
      let np := { np with inSpnext := np.inSpnext + 1 }
      let np := if np.inSpnext > np.inSpmax then
          { np with
            inSpnext := np.inSpmin
            inSnip := if np.inNsrcmsk ≠ 0xffffffff then np.inSnip + 1 else np.inSnip }
        else np
      .ok (np, M.htons port)
  else .ok (np, port)

/-- The next address goes back to the first when it leaves the range or the network of the rule. -/
def mapWrap (np : Ipnat) : Ipnat :=
  if has np.inFlags IPN_SIPRANGE then
    if np.inSnip > M.ntohl np.inNsrcmsk then { np with inSnip := M.ntohl np.inNsrcaddr } else np
  else if np.inNsrcmsk ≠ 0xffffffff ∧ (np.inSnip + 1) &&& M.ntohl np.inNsrcmsk > M.ntohl np.inNsrcaddr then
    { np with inSnip := M.ntohl np.inNsrcaddr + 1 }
  else np

/-- What round `l` of `ipf_nat_newmap` tries, and the rule after it. -/
def mapPick (np : Ipnat) (c : Call) (l : ℕ) (held : Bool) (addr : Word) :
    Except Stop (Ipnat × Word × BitVec 16) := do
  let (np, addr, port) ← mapAddr M np c l held addr
  let (np, port) ← mapPort M np c l port
  let port := if port = 0 ∧ has c.flags (IPN_TCPUDPICMP ||| IPN_ICMPERR) then c.mapSport M else port
  return (mapWrap M np, addr, port)

/-- The lookup of the connection as seen from the outside. -/
def mapProbe (c : Call) (addr : Word) (port : BitVec 16) : Lookup where
  out := false
  fin := withData c.fin (c.fin.finData true) (M.htons port)
  flags := c.probeFlags
  p := c.fin.finP
  src := c.fin.finDaddr
  dst := M.htonl addr
  new := none
  ifps _ := none

end

/-- What an `ipf_nat_new` function leaves: the host map in the entry, the rule in `nai_np`, the entry unless the
result is -1, and whether a round-robin rule moves. -/
structure Made where
  sys : Sys
  hm : Option ℕ
  np : ℕ
  nat : Option NatT
  move : Bool

section

variable (M : Machine) (proxyMatch : FrInfo → NatT → Bool)

/-- A lookup in the table of the system. -/
def Sys.lookup (s : Sys) (l : Lookup) : Option (Sys × Option ℕ) := do
  let (tab, natl) ← ipfNatLookup M proxyMatch s.tab l
  return ({ s with tab := tab }, natl)

/-- The host map at the start of round `l`, and the address to start from. -/
def mapHm (s : Sys) (c : Call) (l : ℕ) (hm : Option ℕ) : Option (Sys × Option ℕ × Word) :=
  let addr := M.htonl (s.ipn c.np).inSnip
  if l = 0 then
    let (s, hm) := ipfNatHostmap s (some c.np) c.fin.finSaddr c.fin.finDaddr addr 0 (c.hmNew false)
    some (s, hm, match hm with
      | none => addr
      | some h => (s.hm h).hmNsrcip)
  else if l = 1 then do
    let s ← dropHm s hm
    return (s, none, addr)
  else some (s, hm, addr)

/-- The loop of `ipf_nat_newmap`: the host map, and the address and port unless the result is -1. -/
def newmapLoop (c : Call) (stIp : Word) (stPort : BitVec 16) :
    ℕ → ℕ → Sys → Option ℕ → Option (Sys × Option ℕ × Option (Word × BitVec 16))
  | 0, _, _, _ => none
  | fuel + 1, l, s, hm => do
    let (s, hm, addr) ← mapHm M s c l hm
    let np ← s.rule? c.np
    match mapPick M np c l hm.isSome (M.ntohl addr) with
    | .error .fault => none
    | .error .refused => some (s, hm, none)
    | .ok (np, addr, port) =>
      let (s, natl) ← (s.updRule c.np fun _ => np).lookup M proxyMatch (mapProbe M c addr port)
      match natl with
      | none => some (s, hm, some (addr, port))
      | some _ =>
        -- the search has come back to the start
        if np.inSpnext ≠ 0 ∧ stPort = np.inSpnext ∧ np.inSnip ≠ 0 ∧ stIp = np.inSnip then some (s, hm, none)
        else newmapLoop c stIp stPort fuel (l + 1) s hm

/-- The entry that `ipf_nat_newmap` fills in. -/
def mapNat (c : Call) (addr : Word) (port : BitVec 16) : NatT :=
  let nat := { c.blank with
    natOsrcaddr := c.fin.finSaddr
    natNsrcaddr := M.htonl addr
    natOdstaddr := c.fin.finDaddr
    natNdstaddr := c.fin.finDaddr }
  if has c.flags IPN_TCPUDP then
    { nat with
      natOsport := c.mapSport M
      natNsport := port
      natOdport := c.mapDport M
      natNdport := c.mapDport M }
  else if has c.flags IPN_ICMPQUERY then { nat with natOicmpid := c.fin.finData true, natNicmpid := port }
  else nat

/-- `ipf_nat_newmap` -/
def ipfNatNewmap (fuel : ℕ) (s : Sys) (c : Call) : Option Made := do
  let np ← s.rule? c.np
  let (s, hm, pick) ← newmapLoop M proxyMatch c np.inSnip np.inSpnext fuel 0 s none
  match pick with
  | none => return ⟨s, hm, c.np, none, false⟩
  | some (addr, port) =>
    let (s, hm) := match hm with
      | some _ => (s, hm)
      | none => ipfNatHostmap s (some c.np) c.fin.finSaddr c.fin.finDaddr (M.htonl addr) 0 (c.hmNew true)
    return ⟨s, hm, c.np, some (mapNat M c addr port), false⟩

/-! ## `ipf_nat_newrdr` -/

/-- The rule that a host map remembers, and whether there is one: the reference that the search counts is given back
at once. -/
def rdrSticky (s : Sys) (c : Call) (np : Ipnat) : Option (Sys × ℕ × Bool) :=
  if has np.inFlags (IPN_ROUNDR ||| IPN_SPLIT) ∧ has np.inFlags IPN_STICKY then
    match ipfNatHostmap s none c.fin.finSaddr c.fin.finDaddr 0 (word (c.rdrDport M)) none with
    | (s, none) => some (s, c.np, false)
    | (s, some h) => do
      let n := (s.hm h).hmIpnat
      let s ← ipfNatHostmapdel s h
      return (s, n, true)
  else some (s, c.np, false)

/-- The address of a rule with two: the one that is next, and the other is next then. The last result says that the
rule stays in its place. -/
def rdrSplit (s : Sys) (c : Call) (n : ℕ) : Option (Sys × Word × Bool) := do
  let np ← s.rule? n
  let (s, hm) := if np.inFlags &&& (IPN_ROUNDR ||| IPN_STICKY) = IPN_STICKY then
      ipfNatHostmap s none c.fin.finSaddr c.fin.finDaddr (M.htonl np.inDnip) (word (c.rdrDport M)) none
    else (s, none)
  let addr := match hm with
    | none => np.inDnip
    | some h => (s.hm h).hmNdstip
  let turn : Bool := match hm with
    | none => true
    | some h => (s.hm h).hmRef = 1
  let first : Bool := np.inNdstaddr = M.htonl addr
  let s := if turn then
      s.updRule n fun np => { np with inDnip := M.ntohl (if first then np.inNdstmsk else np.inNdstaddr) }
    else s
  let s ← dropHm s hm
  return (s, addr, hm.isSome || turn && first)

/-- The address of a rule with one; `none` is an interface without an address. -/
def rdrAddr (c : Call) (np : Ipnat) : Option Word :=
  if np.inNdstaddr = 0 ∧ np.inNdstmsk = 0xffffffff then c.ifpaddr.map M.ntohl
  else if np.inNdstaddr = 0 ∧ np.inNdstmsk = 0 then some (M.ntohl c.fin.finDaddr)
  else if np.inRedir = NAT_BIMAP ∧ np.inNdstmsk = np.inOdstmsk then
    some (M.ntohl (np.inNdstaddr ||| c.fin.finDaddr &&& ~~~np.inNdstmsk))
  else some (M.ntohl np.inNdstaddr)

/-- The new port, and the rule after the choice. -/
def rdrPort (c : Call) (np : Ipnat) : Ipnat × BitVec 16 :=
  let dport := c.rdrDport M
  if np.inDpnext = 0 ∨ has c.flags NAT_NOTRULEPORT then (np, dport)
  else if has np.inFlags IPN_FIXEDDPORT = false ∧ np.inOdport ≠ np.inDtop then
    (np, M.htons (M.htons dport - np.inOdport + np.inDpmax))
  else
    let next := np.inDpnext + 1
    ({ np with inDpnext := if next > np.inDpmax then np.inDpmin else next }, M.htons np.inDpnext)

/-- The lookup for a redirect that exists. -/
def rdrProbe (c : Call) (addr : Word) (nport : BitVec 16) : Lookup where
  out := true
  fin := withData c.fin (M.htons nport) (c.fin.finData false)
  flags := c.probeFlags
  p := c.fin.finP
  src := M.htonl addr
  dst := c.fin.finSaddr
  new := none
  ifps _ := none

/-- The entry that `ipf_nat_newrdr` fills in. -/
def rdrNat (c : Call) (addr : Word) (nport : BitVec 16) : NatT :=
  let nat := { c.blank with
    natNdstaddr := M.htonl addr
    natOdstaddr := c.fin.finDaddr
    natNsrcaddr := c.fin.finSaddr
    natOsrcaddr := c.fin.finSaddr }
  if has c.flags IPN_TCPUDP then
    { nat with
      natOdport := c.rdrDport M
      natNdport := nport
      natOsport := c.rdrSport M
      natNsport := c.rdrSport M }
  else if has c.flags IPN_ICMPQUERY then { nat with natOicmpid := c.fin.finData true, natNicmpid := nport }
  else nat

/-- A redirect to 0.0.0.0 is one to the address the packet has, and none at all if the port stays, too. -/
def rdrTarget (c : Call) (addr : Word) (nport : BitVec 16) : Option Word :=
  if addr = 0 then
    if nport = c.rdrDport M then none else some (M.ntohl c.fin.finDaddr)
  else some addr

/-- The rest of `ipf_nat_newrdr`, from the choice of the port on, with the rule `n` and the address `addr`. -/
def rdrFinish (s : Sys) (c : Call) (n : ℕ) (addr : Word) (move : Bool) : Option Made := do
  let np ← s.rule? n
  let (np, nport) := rdrPort M c np
  let s := s.updRule n fun _ => np
  match rdrTarget M c addr nport with
  | none => return ⟨s, none, n, none, false⟩
  | some addr =>
    let (s, natl) ← s.lookup M proxyMatch (rdrProbe M c addr nport)
    match natl with
    | some _ => return ⟨s, none, n, none, false⟩
    | none =>
      let (s, hm) := if has np.inFlags IPN_STICKY then
          ipfNatHostmap s (some n) c.fin.finSaddr c.fin.finDaddr (M.htonl addr) (word (c.rdrDport M)) (c.hmNew false)
        else (s, none)
      return ⟨s, hm, n, some (rdrNat M c addr nport), move⟩

/-- `ipf_nat_newrdr` -/
def ipfNatNewrdr (s : Sys) (c : Call) : Option Made := do
  let np ← s.rule? c.np
  let (s, n, stuck) ← rdrSticky M s c np
  let np ← s.rule? n
  if has np.inFlags IPN_SPLIT then
    let (s, addr, stays) ← rdrSplit M s c n
    rdrFinish M proxyMatch s c n addr (!stuck && !stays)
  else
    match rdrAddr M c np with
    | none => return ⟨s, none, n, none, false⟩
    | some addr => rdrFinish M proxyMatch s c n addr (!stuck)

/-! ## `ipf_nat_newrewrite` -/

/-- `ipf_nat_nextaddr`, for one end of a rule: `none` is the return value -1. -/
def ipfNatNextaddr (c : Call) (atype : Atype) (addr mask next old : Word) (dstlist : Option Word) : Option Word :=
  match atype with
  | .lookup true => dstlist
  | .normal =>
    if addr = 0 ∧ mask = 0 then some old
    else if addr = 0 ∧ mask = 0xffffffff then c.ifpaddr
    else some (M.htonl next)
  | _ => none

/-- What the loop of `ipf_nat_newrewrite` changes: the rule, `frnat`, and `src_search` and `dst_search`. -/
structure Rewrite where
  np : Ipnat
  frnat : FrInfo
  srcSearch : Bool
  dstSearch : Bool

/-- `in_stepnext &= 0x3` -/
def Ipnat.maskStep (np : Ipnat) : Ipnat := { np with inStepnext := np.inStepnext % 4 }

/-- The source of a round; `again` is `natl != NULL`. The last result is `changed != -1`. -/
def rewriteSrc (c : Call) (l : ℕ) (again : Bool) (r : Rewrite) : Option (Rewrite × Bool) := do
  let np := r.np
  let saddr ← ipfNatNextaddr M c np.inNsrcatype np.inNsrcaddr np.inNsrcmsk np.inSnip r.frnat.finSaddr (c.dstlist false l)
  let fixed : Bool := np.inNsrcaddr = 0 ∧ np.inNsrcmsk = 0 ∨ np.inNsrcmsk = 0xffffffff
  let changed : Bool := fixed = false ∧ np.inStepnext = 0
  let np := if np.inStepnext ≠ 0 then np
    else if fixed then { np with inStepnext := 1 }
    else { np with inSnip := np.inSnip + 1, inStepnext := 1 }
  let frnat := { r.frnat with finSaddr := saddr }
  let r := { r with srcSearch := r.srcSearch && !fixed }
  if has c.flags IPN_TCPUDPICMP then
    let frnat := if np.inSpnext ≠ 0 then withData frnat np.inSpnext (frnat.finData true) else frnat
    if has c.flags IPN_FIXEDSPORT then return ({ r with np := { np with inStepnext := 2 }, frnat := frnat }, changed)
    else if np.inStepnext = 1 ∧ changed = false ∧ again then
      let next := np.inSpnext + 1
      return ({ r with
        np := { np with inSpnext := if next > np.inSpmax then np.inSpmin else next, inStepnext := 2 }
        frnat := frnat }, true)
    else return ({ r with np := np.maskStep, frnat := frnat }, changed)
  else return ({ r with np := { np with inStepnext := 2 }, frnat := frnat }, changed)

/-- The destination of a round. -/
def rewriteDst (c : Call) (l : ℕ) (again changed : Bool) (r : Rewrite) : Option Rewrite := do
  let np := r.np
  let daddr ← ipfNatNextaddr M c np.inNdstatype np.inNdstaddr np.inNdstmsk np.inDnip r.frnat.finDaddr (c.dstlist true l)
  let fixed : Bool := np.inNdstaddr = 0 ∧ np.inNdstmsk = 0 ∨ np.inNdstmsk = 0xffffffff
  let moved : Bool := fixed = false ∧ np.inStepnext = 2 ∧ changed = false ∧ again
  let np := if moved then { np with inDnip := np.inDnip + 1, inStepnext := 3 }
    else if fixed ∧ np.inStepnext = 2 then { np with inStepnext := 3 }
    else np
  let frnat := { r.frnat with finDaddr := daddr }
  let r := { r with dstSearch := r.dstSearch && !fixed }
  if has c.flags IPN_TCPUDPICMP then
    let frnat := if np.inDpnext ≠ 0 then withData frnat (frnat.finData false) np.inDpnext else frnat
    if has c.flags IPN_FIXEDDPORT then return { r with np := { np with inStepnext := 0 }, frnat := frnat }
    else if np.inStepnext = 3 ∧ changed = false ∧ moved = false then
      let next := np.inDpnext + 1
      return { r with
        np := { np with inDpnext := if next > np.inDpmax then np.inDpmin else next, inStepnext := 4 }
        frnat := frnat }
    else return { r with np := np, frnat := frnat }
  else return { r with np := if np.inStepnext = 3 then { np with inStepnext := 0 } else np, frnat := frnat }

/-- The lookup for a translation that exists, with the ports of TCP and UDP exchanged. -/
def rewriteProbe (c : Call) (frnat : FrInfo) : Lookup where
  out := !c.fin.finOut
  fin := if has c.flags IPN_TCPUDP then withData frnat (frnat.finData true) (frnat.finData false) else frnat
  flags := c.probeFlags
  p := frnat.finP
  src := frnat.finDaddr
  dst := frnat.finSaddr
  new := none
  ifps _ := none

/-- The end of a round: the result is -1, the translation is free, or it is taken. -/
inductive Round
  | refused (s : Sys)
  | free (s : Sys) (frnat : FrInfo)
  | taken (s : Sys) (r : Rewrite)

/-- Round `l` of `ipf_nat_newrewrite`. The rule keeps what a round that ends early has changed. -/
def rewriteRound (c : Call) (l : ℕ) (again : Bool) (s : Sys) (r : Rewrite) : Option Round :=
  if r.srcSearch = false ∧ r.np.inSpnext = 0 ∧ r.dstSearch = false ∧ r.np.inDpnext = 0 ∧ l > 0 then some (.refused s)
  else
    match rewriteSrc M c l again r with
    | none => some (.refused s)
    | some (r, changed) =>
      match rewriteDst M c l again changed r with
      | none => some (.refused (s.updRule c.np fun _ => r.np))
      | some r => do
        let (s, natl) ← (s.updRule c.np fun _ => r.np).lookup M proxyMatch (rewriteProbe c r.frnat)
        match natl with
        | none => some (.free (s.updRule c.np fun _ => r.np.maskStep) r.frnat)
        | some _ => some (.taken s r)

/-- The loop of `ipf_nat_newrewrite`, with the rounds that are left after this one: the tenth that fails is the
last. -/
def rewriteLoop (c : Call) : ℕ → Bool → Sys → Rewrite → Option (Sys × Option FrInfo)
  | 0, again, s, r => do
    match ← rewriteRound M proxyMatch c 9 again s r with
    | .refused s => some (s, none)
    | .free s frnat => some (s, some frnat)
    | .taken s _ => some (s, none)
  | k + 1, again, s, r => do
    match ← rewriteRound M proxyMatch c (8 - k) again s r with
    | .refused s => some (s, none)
    | .free s frnat => some (s, some frnat)
    | .taken s r => rewriteLoop c k true (s.updRule c.np fun _ => r.np.maskStep) { r with np := r.np.maskStep }

/-- The entry that `ipf_nat_newrewrite` fills in. -/
def rewriteNat (c : Call) (frnat : FrInfo) : NatT :=
  let nat := { c.blank with
    natOsrcaddr := c.fin.finSaddr
    natOdstaddr := c.fin.finDaddr
    natNsrcaddr := frnat.finSaddr
    natNdstaddr := frnat.finDaddr }
  if has c.flags IPN_TCPUDP then
    { nat with
      natOsport := M.htons (c.fin.finData false)
      natOdport := M.htons (c.fin.finData true)
      natNsport := M.htons (frnat.finData false)
      natNdport := M.htons (frnat.finData true) }
  else if has c.flags IPN_ICMPQUERY then
    { nat with natOicmpid := c.fin.finData true, natNicmpid := frnat.finData true }
  else nat

/-- `ipf_nat_newrewrite` -/
def ipfNatNewrewrite (s : Sys) (c : Call) : Option Made := do
  let np ← s.rule? c.np
  let (s, o) ← rewriteLoop M proxyMatch c 9 false s ⟨np, c.fin, true, true⟩
  return ⟨s, none, c.np, o.map (rewriteNat M c), false⟩

/-! ## `ipf_nat_newdivert` -/

/-- The packet that carries a diverted one. -/
def divertFin (c : Call) (np : Ipnat) : FrInfo :=
  withData { c.fin with
    finSaddr := M.htonl np.inSnip
    finDaddr := M.htonl np.inDnip
    finFlx := c.fin.finFlx ||| FI_TCPUDP } np.inSpnext np.inDpnext

/-- The lookup for a session that the carrier belongs to. -/
def divertProbe (c : Call) (np : Ipnat) : Lookup where
  out := !c.fin.finOut
  fin := divertFin M c np
  flags := 0
  p := IPPROTO_UDP
  src := M.htonl np.inDnip
  dst := M.htonl np.inSnip
  new := none
  ifps _ := none

/-- The entry that `ipf_nat_newdivert` fills in. `natDir` is the last bit of `NAT_DIVERTIN` or `NAT_DIVERTOUT`, which
is what the tables and the lookups go by. -/
def divertNat (c : Call) (np : Ipnat) : NatT :=
  let nat := { c.blank with
    natOsrcaddr := c.fin.finSaddr
    natOdstaddr := c.fin.finDaddr
    natNsrcaddr := M.htonl np.inSnip
    natNdstaddr := M.htonl np.inDnip
    natPr := fun i => if i = c.fin.finOut then c.fin.finP else IPPROTO_UDP
    natDir := if has np.inRedir NAT_REDIRECT then .inbound else .outbound }
  if has c.flags IPN_TCPUDP then
    { nat with
      natOsport := M.htons (c.fin.finData false)
      natOdport := M.htons (c.fin.finData true)
      natNsport := M.htons np.inSpnext
      natNdport := M.htons np.inDpnext }
  else if has c.flags IPN_ICMPQUERY then { nat with natOicmpid := c.fin.finData true, natNicmpid := np.inDpnext }
  else nat

/-- `ipf_nat_newdivert`, for the rules that `ipf_nat_add` calls it for -/
def ipfNatNewdivert (s : Sys) (c : Call) : Option Made := do
  let np ← s.rule? c.np
  let (s, natl) ← s.lookup M proxyMatch (divertProbe M c np)
  match natl with
  | some _ => return ⟨s, none, c.np, none, false⟩
  | none => return ⟨s, none, c.np, some (divertNat M c np), false⟩

/-! ## `ipf_nat_add` -/

/-- The lookup for the connection itself; `nflags` has TCP and UDP only. -/
def Call.known (c : Call) (np : Ipnat) : Lookup where
  out := c.dir = .outbound
  fin := c.fin
  flags := np.inFlags &&& c.flags &&& NAT_FROMRULE
  p := c.fin.finP
  src := c.fin.finSaddr
  dst := c.fin.finDaddr
  new := none
  ifps _ := none

/-- The interfaces of a new entry: those of the rule, the first of them for both if the second is named and there is
none of that name. -/
def Ipnat.ifps (np : Ipnat) (i : Bool) : Option ℕ :=
  if i ∧ np.inIfps true = none ∧ np.inNamed then np.inIfps false else np.inIfps i

/-- `*natsave = nat` -/
def Sys.save (s : Sys) (c : Call) (nat : Option ℕ) : Sys :=
  match c.natsave with
  | none => s
  | some m => { s with tab := { s.tab with saved := Function.update s.tab.saved m nat } }

/-- The label `badnat`. -/
def badnat (s : Sys) (c : Call) (hm : Option ℕ) : Option (Sys × Option ℕ) := do
  let s ← dropHm s hm
  return (s.save c none, none)

/-- The entry from the rule, once its addresses and ports are chosen. -/
def Call.entry (c : Call) (m : Made) (np : Ipnat) (nat : NatT) : NatT :=
  { nat with
    natMssclamp := np.inMssclamp
    natMe := c.natsave
    natRev := c.fin.finRev
    natPtr := some m.np
    natDlocal := np.inDlocal
    natHm := m.hm }

/-- `ipf_nat_add` after one of the `ipf_nat_new` functions has filled in the entry. -/
def finish (c : Call) (e : ℕ) (m : Made) (nat : NatT) : Option (Sys × Option ℕ) := do
  let np ← m.sys.rule? m.np
  let nat := c.entry m np nat
  let aps := if np.inApr ≠ none ∧ has nat.natFlags NAT_SLAVE = false then c.proxy nat else some none
  match aps with
  | none => badnat m.sys c m.hm
  | some aps =>
    let nat := { nat with natAps := aps }
    match ipfNatInsert (m.sys.tab.malloc e (nat.finalise M)) e np.ifps with
    | (tab, false) => badnat { m.sys with tab := tab.free e } c m.hm
    | (tab, true) =>
      let s := { m.sys with tab := { tab with
        wilds := if has c.flags SI_WILDP then tab.wilds + 1 else tab.wilds
        proto := Function.update tab.proto (nat.natPr false) (tab.proto (nat.natPr false) + 1) } }
      return ((s.updRule m.np (.addUse 1)).save c (some e), some e)

/-- The search for the connection itself; it is not made for a rule that diverts or rewrites both ends. -/
def findKnown (s : Sys) (c : Call) (np : Ipnat) : Option (Sys × Option ℕ) :=
  if has np.inRedir NAT_DIVERTUDP ∨ has np.inRedir NAT_REWRITE then some (s, none)
  else s.lookup M proxyMatch (c.known np)

/-- The choice of the translation. -/
def choose (fuel : ℕ) (s : Sys) (c : Call) (np : Ipnat) : Option Made :=
  if has np.inRedir NAT_DIVERTUDP then ipfNatNewdivert M proxyMatch s c
  else if has np.inRedir NAT_REWRITE then ipfNatNewrewrite M proxyMatch s c
  else match c.dir with
    | .outbound => ipfNatNewmap M proxyMatch fuel s c
    | .inbound => ipfNatNewrdr M proxyMatch s c

/-- `ipf_nat_add`; the second result is what it returns. -/
def ipfNatAdd (fuel : ℕ) (s : Sys) (c : Call) : Option (Sys × Option ℕ) := do
  if s.tab.active ≥ s.tab.max then return (s, none)
  match c.new with
  | none =>
    if s.tab.max > s.tab.size.toNat ∧ s.tab.active > 100 then
      return ({ s with tab := { s.tab with max := s.tab.active - 100 } }, none)
    else return (s, none)
  | some e =>
    let np ← s.rule? c.np
    let (s, natl) ← findKnown M proxyMatch s c np
    match natl with
    | some x => return (s.save c (some x), some x)
    | none =>
      let m ← choose M proxyMatch fuel s c np
      match m.nat with
      | none => badnat m.sys c m.hm
      | some nat => finish M c e m nat

end

/-! ## Deletion -/

/-- What an entry refers to is given back when it is freed. -/
def giveBack (s : Sys) (nat : NatT) : Option Sys := do
  let s ← dropHm s nat.natHm
  dropRule s nat.natPtr

/-- `ipf_nat_delete` -/
def ipfNatDelete (s : Sys) (e : ℕ) (destroy : Bool) : Option Sys := do
  let tab ← NatTab.ipfNatDelete s.tab e destroy
  if tab.alloc e then return { s with tab := tab } else giveBack { s with tab := tab } (s.tab.nat e)

/-- `ipf_nat_deref` -/
def ipfNatDeref (s : Sys) (e : ℕ) : Option Sys := do
  let tab ← NatTab.ipfNatDeref s.tab e
  if tab.alloc e then return { s with tab := tab } else giveBack { s with tab := tab } (s.tab.nat e)

/-! ## Runs -/

/-- **A system at its start:** an empty NAT table, no host maps, and rules that are in use where they are loaded. -/
structure Start (s : Sys) : Prop where
  tab : ∃ size max maxbucket, 0 < BitVec.toNat size ∧ s.tab = Softn.init size max maxbucket
  maplist : s.maplist = []
  rules : ∀ n, s.live n = true → 0 < (s.ipn n).inUse

/-- A call. `hold` is what the rest of the filter does with a session it goes on using: it counts a reference, to be
dropped with `deref`. -/
inductive Op
  | add (fuel : ℕ) (c : Call)
  | delete (e : ℕ) (destroy : Bool)
  | hold (e : ℕ)
  | deref (e : ℕ)

/-- One call. -/
def step (M : Machine) (proxyMatch : FrInfo → NatT → Bool) (s : Sys) : Op → Option Sys
  | .add fuel c => (ipfNatAdd M proxyMatch fuel s c).map Prod.fst
  | .delete e destroy => ipfNatDelete s e destroy
  | .hold e => some { s with tab := s.tab.upd e fun nat => { nat with natRef := nat.natRef + 1 } }
  | .deref e => ipfNatDeref s e

/-- What the callers promise: a packet is given a rule that was loaded (`s₀`), new objects are new, and the sessions
they name exist. -/
def Legal (s₀ s : Sys) : Op → Prop
  | .add _ c => s₀.live c.np = true ∧ (∀ e, c.new = some e → s.tab.alloc e = false) ∧
      ∀ i h, c.hmNew i = some h → h ∉ s.maplist
  | .delete e _ => s.tab.alloc e = true
  | .hold e => s.tab.alloc e = true
  | .deref e => s.tab.alloc e = true

end Ipfilter.NatAdd
