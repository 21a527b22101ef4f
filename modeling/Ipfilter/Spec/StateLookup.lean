import Ipfilter.Spec.StateMatch

/-!
# Finding the state entry of a packet

`ipf_state_lookup` and `ipf_checkicmp6matchingstate` of `ip_state.c`. Each of them goes through one chain after the other
until an entry matches; a `Try` is such a search. `fin_rev` is passed on from entry to entry.

What `ipf_state_tcp` does to an entry is left out, and so are the entry's sequence numbers: whether it
accepts the packet is given with the packet.
-/

namespace Ipfilter

def FR_NOICMPERR : Flags := 0x800000
def FI_ICMPERR : Flags := 0x1000
def FI_ICMPCMP : Flags := 0x0003

namespace State

open Chain Queue Masks Tcp

/-! ## ICMP -/

def ICMP_ECHOREPLY : ℕ := 0
def ICMP_ECHO : ℕ := 8
def ICMP_TSTAMP : ℕ := 13
def ICMP_TSTAMPREPLY : ℕ := 14
def ICMP_IREQ : ℕ := 15
def ICMP_IREQREPLY : ℕ := 16
def ICMP_MASKREQ : ℕ := 17
def ICMP_MASKREPLY : ℕ := 18
def ICMP6_ECHO_REQUEST : ℕ := 128
def ICMP6_ECHO_REPLY : ℕ := 129
def ICMP6_MEMBERSHIP_QUERY : ℕ := 130
def ICMP6_MEMBERSHIP_REPORT : ℕ := 131
def ND_ROUTER_SOLICIT : ℕ := 133
def ND_ROUTER_ADVERT : ℕ := 134
def ND_NEIGHBOR_SOLICIT : ℕ := 135
def ND_NEIGHBOR_ADVERT : ℕ := 136
def ICMP6_NI_QUERY : ℕ := 139
def ICMP6_NI_REPLY : ℕ := 140
def ICMP6_INFOMSG_MASK : ℕ := 0x80

/-- `icmpreplytype4`, with `none` for -1. -/
def icmpreplytype4 (type : ℕ) : Option ℕ :=
  if type = ICMP_ECHO then some ICMP_ECHOREPLY
  else if type = ICMP_TSTAMP then some ICMP_TSTAMPREPLY
  else if type = ICMP_IREQ then some ICMP_IREQREPLY
  else if type = ICMP_MASKREQ then some ICMP_MASKREPLY
  else none

/-- `icmpreplytype6` -/
def icmpreplytype6 (type : ℕ) : Option ℕ :=
  if type = ICMP6_ECHO_REQUEST then some ICMP6_ECHO_REPLY
  else if type = ICMP6_MEMBERSHIP_QUERY then some ICMP6_MEMBERSHIP_REPORT
  else if type = ICMP6_NI_QUERY then some ICMP6_NI_REPLY
  else if type = ND_ROUTER_SOLICIT then some ND_ROUTER_ADVERT
  else if type = ND_NEIGHBOR_SOLICIT then some ND_NEIGHBOR_ADVERT
  else none

/-- `ipf_matchicmpqueryreply`, for the ICMP header of a packet. -/
def ipfMatchicmpqueryreply (i : Ipstate) (fin : FrInfo) (rev : Bool) : Bool :=
  if fin.finV = 4 then
    ((rev = false ∧ fin.icmpType = i.iciType) ∨ (rev = true ∧ icmpreplytype4 i.iciType = some fin.icmpType)) ∧
      (fin.icmpType ≠ ICMP_ECHOREPLY ∨ fin.icmpId = i.iciId)
  else if fin.finV = 6 then
    ((rev = false ∧ fin.icmpType = i.iciType) ∨ (rev = true ∧ icmpreplytype6 i.iciType = some fin.icmpType)) ∧
      (fin.icmpType ≠ ICMP6_ECHO_REPLY ∨ fin.icmpId = i.iciId)
  else false

/-! ## Searches -/

/-- One search: the hash value, whether it is made at all, the entries it looks at, the arguments of
`ipf_matchsrcdst`, what an entry that matches must meet besides, and the hash value it is moved to then. -/
structure Try where
  hv : Word
  ready : Softs → Bool
  fits : ℕ → Ipstate → Bool
  fin : FrInfo
  src : I6addr
  dst : I6addr
  tcp : Bool
  cmask : Flags
  accept : Ipstate → Bool → ℕ → Bool
  move : Ipstate → Option Word

/-- An entry that is looked at; with `fin_rev`. `room` is what an attempt to clone meets in some state. -/
def attempt (M : Machine) (room : Softs → Room) (t : Try) (w : Softs) (rev : Bool) (e : ℕ) :
    Option (Softs × Bool × Option ℕ) := do
  let (w, found) ← ipfMatchsrcdst M { t.fin with finRev := rev } w e t.src t.dst t.tcp t.cmask (room w)
  match found with
  | none => return (w, rev, none)
  | some (is, rev) => return (w, rev, if t.accept (w.is is) rev is then some is else none)

/-- The loop over a chain from `is` on. What is next is read when the entry was looked at. -/
def searchChain (M : Machine) (room : Softs → Room) (t : Try) :
    ℕ → Softs → Bool → Option ℕ → Option (Softs × Bool × Option ℕ)
  | _, w, rev, none => some (w, rev, none)
  | 0, _, _, some _ => none
  | n + 1, w, rev, some is =>
    if t.fits is (w.is is) = false then searchChain M room t n w rev (w.table.next is)
    else do
      let (w, rev, found) ← attempt M room t w rev is
      match found with
      | some found => return (w, rev, some found)
      | none => searchChain M room t n w rev (w.table.next is)

/-- The searches one after the other. -/
def search (M : Machine) (seed : ℕ → ℕ) (room : Softs → Room) :
    List Try → Softs → Bool → Option (Softs × Bool × Option ℕ)
  | [], w, rev => some (w, rev, none)
  | t :: ts, w, rev =>
    if t.ready w = false then search M seed room ts w rev
    else do
      let hvm := doubleHash seed w.size t.hv.toNat
      let (w, rev, found) ← searchChain M room t (w.active.toNat + 1) w rev (w.table.head hvm)
      match found with
      | none => search M seed room ts w rev
      | some is =>
        match t.move (w.is is) with
        | none => return (w, rev, some is)
        | some hv =>
          let w ← ipfIpsmove w seed is hv.toNat
          return (w, rev, some is)

/-- The searches find the entry. -/
def Finds (M : Machine) (seed : ℕ → ℕ) (room : Softs → Room) (ts : List Try) (w : Softs) (rev : Bool) (e : ℕ) :
    Prop :=
  ∃ w' rev', search M seed room ts w rev = some (w', rev', some e)

/-- The entry after a match with it and the direction, if there is one without a clone. -/
def matchSelf (M : Machine) (fin : FrInfo) (i : Ipstate) (src dst : I6addr) (tcp : Bool) (cmask : Flags) :
    Option (Ipstate × Bool) :=
  let rev := matchRev M fin i dst tcp
  let flags := matchFlags i tcp
  let i' := fillAddr M fin i flags rev
  if matchIfp fin i rev = false ∨ matchBoth M fin i src dst tcp rev = false ∨ matchOpts fin i' cmask rev = false then none
  else if fin.finFlx &&& FI_IGNORE ≠ 0 then some (i', rev)
  else if flags &&& SI_WILDP = 0 then some (fillRest fin i' cmask rev, rev)
  else if flags &&& SI_CLONE ≠ 0 then none
  else some (fillRest fin (fillPort M fin i' flags rev tcp) cmask rev, rev)

/-- **The search accepts the entry**, when it comes to it. -/
def Try.hits (M : Machine) (t : Try) (w : Softs) (e : ℕ) : Bool :=
  t.fits e (w.is e) && decide (w.tq.tqeIfq e ≠ some .delete) &&
    match matchSelf M t.fin (w.is e) t.src t.dst t.tcp t.cmask with
    | some (i, rev) => t.accept i rev e
    | none => false

/-- **The search leaves the entry alone**: it is not looked at, about to be deleted, or the first tests of
`ipf_matchsrcdst` fail, for the interface, the addresses and the ports. -/
def Try.misses (M : Machine) (t : Try) (w : Softs) (e : ℕ) : Bool :=
  let rev := matchRev M t.fin (w.is e) t.dst t.tcp
  !t.fits e (w.is e) || decide (w.tq.tqeIfq e = some .delete) || !matchIfp t.fin (w.is e) rev ||
    !matchBoth M t.fin (w.is e) t.src t.dst t.tcp rev

/-- A match goes to a copy of the entry. -/
def Try.copies (t : Try) (i : Ipstate) : Bool :=
  matchFlags i t.tcp &&& SI_WILDP ≠ 0 ∧ matchFlags i t.tcp &&& SI_CLONE ≠ 0

/-- **The search goes on behind the entry**, which it leaves alone, or may fill in but neither accepts nor copies. -/
def Try.declines (M : Machine) (t : Try) (w : Softs) (e : ℕ) : Bool :=
  t.misses M w e || !t.copies (w.is e) && !t.hits M w e

/-- **The searches come to the entry in a table of `n` buckets**, filled as `ipf_state_rehash` fills it: one that is made
accepts it and has a hash value that leads to its bucket; those before it leave the entries of their buckets alone; and
it goes on behind the entries of the bucket that come before it there, which are those behind it on the list. -/
def Refound (M : Machine) (seed : ℕ → ℕ) (ts : List Try) (w : Softs) (n e : ℕ) : Prop :=
  ∃ pre t post, ts = pre ++ t :: post ∧ t.ready w = true ∧ t.hits M w e = true ∧
    doubleHash seed n t.hv.toNat = (w.is e).isHv % n ∧
    (∀ t' ∈ pre, t'.ready w = true → ∀ c, w.alloc c = true → (w.is c).isHv % n = doubleHash seed n t'.hv.toNat →
      t'.misses M w c = true) ∧
    ∀ L, Rep w.list L → ∀ l₁ l₂, L () = l₁ ++ e :: l₂ →
      ∀ c ∈ l₂, (w.is c).isHv % n = (w.is e).isHv % n →
      t.declines M w c = true

/-- **One search is made**, and what it does on its way does not matter for it: there is no other one and no entry is
copied for a packet without ports, or the others are not made and there are no wildcards. -/
def Single (ts : List Try) (w : Softs) : Prop :=
  ∃ t post, ts = t :: post ∧ (post = [] ∧ t.tcp = false ∨ (∀ t' ∈ post, t'.ready w = false) ∧
    ∀ c, w.alloc c = true → (w.is c).isFlags &&& (SI_WILDP ||| SI_WILDA) = 0)

/-! ## `ipf_checkicmp6matchingstate` -/

/-- What else `ipstate_t` has that is read for ICMP errors: the packet counters by `fin_rev` and `fin_out`.
`headblock` is what the rules of `fr_icmpgrp` say of the packet. -/
structure Icmpstate where
  isPass : Flags
  iciSeq : BitVec 16
  isPkts : Bool → Bool → ℕ
  isIcmppkts : Bool → Bool → ℕ
  headblock : Bool

/-- The packet that an ICMP error quotes: `ofin` is made of it by `ipf_makefrip`, and `nxt` is `ip_p` or
`ip6_nxt`. `short` says that one of the checks of lengths fails. -/
structure Quoted where
  short : Bool
  ofin : FrInfo
  nxt : ℕ
  src : I6addr
  dst : I6addr
  thSport : BitVec 16
  thDport : BitVec 16
  icmpSeq : BitVec 16

/-- `ipf_allowstateicmp` returning 0. -/
def ipfAllowstateicmp (fin : FrInfo) (x : Icmpstate) (i : Ipstate) (src : I6addr) : Bool :=
  let backward := !ip6Eq i.isSrc src
  x.headblock = false ∧ x.isPass &&& FR_NOICMPERR = 0 ∧
    x.isIcmppkts (!backward) fin.finOut ≤ x.isPkts backward (!fin.finOut)

section Tries

variable (M : Machine) (icmp : ℕ → Icmpstate) (fin : FrInfo)

/-- The sum of a protocol and the first words of two addresses. -/
def hash4 (p : ℕ) (src dst : I6addr) : Word := BitVec.ofNat 32 p + src.i60 + dst.i60

/-- The other words of an address. -/
def rest6 (a : I6addr) : Word := a.i61 + a.i62 + a.i63

/-- An ICMP error for a TCP or UDP packet, or for an ICMP query. -/
def errorTry (q : Quoted) (hv : Word) (fits : ℕ → Ipstate → Bool) (tcp : Bool) (accept : Ipstate → Bool) : Try where
  hv := hv
  ready _ := true
  fits := fits
  fin := q.ofin
  src := q.src
  dst := q.dst
  tcp := tcp
  cmask := FI_ICMPCMP
  accept i _ e := accept i && ipfAllowstateicmp fin (icmp e) i q.src
  move _ := none

/-- `ipf_checkicmp6matchingstate`. For a query it has only the first words of the addresses in the hash
value, and the sequence number; and it takes the type of the entry to be that of the reply. -/
def ipfCheckicmp6matchingstate (q : Quoted) : List Try :=
  if fin.finV ≠ 6 ∨ q.short ∨ fin.finFlx &&& FI_ICMPERR = 0 ∨ q.ofin.finFlx &&& FI_ICMPERR ≠ 0 then []
  else
    let hv := hash4 q.nxt q.src q.dst
    if q.nxt = IPPROTO_ICMPV6 then
      if q.ofin.icmpType &&& ICMP6_INFOMSG_MASK = 0 then []
      else
        [errorTry icmp fin q (hv + q.ofin.icmpId.setWidth 32 + q.icmpSeq.setWidth 32)
          (fun e i => i.isP = q.nxt ∧ (icmp e).isPass &&& FR_NOICMPERR = 0 ∧ q.ofin.icmpId = i.iciId ∧
            q.icmpSeq = (icmp e).iciSeq) false
          fun i => (i.iciType = ICMP6_ECHO_REPLY ∧ q.ofin.icmpType = ICMP6_ECHO_REQUEST) ∨
            i.iciType = q.ofin.icmpType + 1]
    else
      let hv := hv + rest6 q.src + rest6 q.dst
      let tcp : Bool := q.nxt = IPPROTO_TCP ∨ q.nxt = IPPROTO_UDP
      [errorTry icmp fin q (if tcp then hv + q.thDport.setWidth 32 + q.thSport.setWidth 32 else hv)
        (fun e i => i.isP = q.nxt ∧ i.isV = 6 ∧ (icmp e).isPass &&& FR_NOICMPERR = 0) tcp fun _ => true]

/-! ## `ipf_state_lookup` -/

/-- The hash value before it depends on the protocol. -/
def FrInfo.lookupHv : Word :=
  let hv := hash4 fin.finP fin.finSrc fin.finDst
  let hv :=
    if fin.finV = 6 then
      let hv := hv + rest6 fin.finSrc
      if fin.finP = IPPROTO_ICMPV6 ∧ M.multicast6 fin.finDst then hv - fin.finDst.i60 else hv + rest6 fin.finDst
    else hv
  if fin.finV = 4 ∧ fin.finFlx &&& (FI_MULTICAST ||| FI_BROADCAST ||| FI_MBCAST) ≠ 0 then
    if fin.finOut = false then hv - fin.finSrc.i60 else hv - fin.finDst.i60
  else hv

/-- A search for the packet itself; `wild` says that it is one for wildcards. -/
def lookupTry (hv : Word) (wild : Bool) (tcp : Bool) (accept : Ipstate → Bool → ℕ → Bool)
    (move : Ipstate → Option Word) :
    Try where
  hv := hv
  ready w := wild = true → w.wild ≠ 0 ∧ fin.finFlx &&& FI_NOWILD = 0
  fits _ i := i.isP = fin.finP ∧ i.isV = fin.finV
  fin := if tcp then { fin with finFlx := fin.finFlx &&& ~~~FI_OOW } else fin
  src := fin.finSrc
  dst := fin.finDst
  tcp := tcp
  cmask := FI_CMP
  accept := accept
  move := move

/-- The searches of `ipf_state_lookup`. `window` says whether `ipf_state_tcp` accepts the packet for an
entry, and `q` is what the packet quotes as an ICMP error. -/
def ipfStateLookup (window : ℕ → Bool → Bool) (q : Quoted) : List Try :=
  let hv := fin.lookupHv M
  if fin.finP = IPPROTO_ICMPV6 then
    let echo := fin.finV = 6 ∧ (fin.icmpType = ICMP6_ECHO_REQUEST ∨ fin.icmpType = ICMP6_ECHO_REPLY)
    let hv := if echo then hv + fin.icmpId.setWidth 32 else hv
    let accept := fun i rev (_ : ℕ) => ipfMatchicmpqueryreply i fin rev
    let again := fin.finV = 6 ∧ M.multicast6 fin.finSrc = false
    lookupTry fin hv false false accept (fun _ => none) ::
      (if again then [lookupTry fin (hv - fin.finSrc.i60 - rest6 fin.finSrc) true false accept
        fun i => if i.isFlags &&& SI_W_DADDR = 0 then some hv else none] else []) ++
      ipfCheckicmp6matchingstate icmp fin q
  else if fin.finP = IPPROTO_ICMP then
    [lookupTry fin (if fin.finV = 4 then hv + fin.icmpId.setWidth 32 else hv) false false
      (fun i rev _ => fin.icmpId = i.iciId && ipfMatchicmpqueryreply i fin rev) fun _ => none]
  else if fin.finP = IPPROTO_TCP ∨ fin.finP = IPPROTO_UDP then
    let ports := (M.htons (fin.finData false)).setWidth 32 + (M.htons (fin.finData true)).setWidth 32
    let accept := fun (_ : Ipstate) rev e => fin.finP = IPPROTO_UDP || window e rev
    let move := fun (hv : Word) (i : Ipstate) =>
      if i.isFlags &&& (SI_CLONE ||| SI_WILDP ||| SI_WILDA) = 0 then some hv else none
    -- as if this were a reply to a packet that went to many
    let alone := BitVec.ofNat 32 fin.finP + (if fin.finOut = false then fin.finSrc.i60 else fin.finDst.i60) + ports
    [lookupTry fin (hv + ports) false true accept fun _ => none,
      lookupTry fin hv true true accept (move (hv + ports)),
      lookupTry fin alone true true accept (move (alone + ports))]
  else [lookupTry fin hv false false (fun _ _ _ => true) fun _ => none]

end Tries

/-! ## Runs with packets -/

/-- `KMALLOC` returns memory that is not in use. -/
def Free (room : Softs → Room) : Prop := ∀ w c, (room w).clone = some c → w.alloc c = false

/-- The tables one gets to from `w₀`, with edits of the table and with searches. -/
inductive Reached (M : Machine) (seed : ℕ → ℕ) (room : Softs → Room) (legal : Softs → Op → Prop) (w₀ : Softs) :
    Softs → Prop
  | init : Reached M seed room legal w₀ w₀
  | edit {w w' : Softs} (op : Op) : Reached M seed room legal w₀ w → legal w op → step seed w op = some w' →
      Reached M seed room legal w₀ w'
  | packet {w w' : Softs} {rev' : Bool} {r : Option ℕ} (ts : List Try) (rev : Bool) : Reached M seed room legal w₀ w →
      search M seed room ts w rev = some (w', rev', r) → Reached M seed room legal w₀ w'

end State

end Ipfilter
