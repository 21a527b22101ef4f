import Ipfilter.Spec.NatFind

/-!
# IPv6 entries of the NAT table

The code of `ip_nat6.c` that puts IPv6 sessions into the table of `ip_nat.c` and finds them there: `ipf_nat6_insert`, the end of
`ipf_nat6_add`, `ipf_nat6_inlookup`, `ipf_nat6_outlookup` and `ipf_nat6_tabmove`. The table, its lists and the calls that do not
depend on the version are those of `NatTable`; an IPv6 address is a union with the IPv4 one, which is its first word.
-/

namespace Ipfilter.NatTab

open Chain Masks State

/-! ## Data -/

/-- The words of an address behind the first. -/
structure Tail6 where
  i61 : Word
  i62 : Word
  i63 : Word
  deriving DecidableEq

def Tail6.addr (t : Tail6) (w : Word) : I6addr := ⟨w, t.i61, t.i62, t.i63⟩

/-- What an entry has of its addresses besides `NatT`. -/
structure Tails where
  osrcTail : Tail6
  odstTail : Tail6
  nsrcTail : Tail6
  ndstTail : Tail6

def Tails.zero : Tails := ⟨⟨0, 0, 0⟩, ⟨0, 0, 0⟩, ⟨0, 0, 0⟩, ⟨0, 0, 0⟩⟩

/-- `nat_t` with whole addresses. -/
structure Nat6 extends NatT, Tails

def Nat6.natOsrc6 (nat : Nat6) : I6addr := nat.osrcTail.addr nat.natOsrcaddr
def Nat6.natOdst6 (nat : Nat6) : I6addr := nat.odstTail.addr nat.natOdstaddr
def Nat6.natNsrc6 (nat : Nat6) : I6addr := nat.nsrcTail.addr nat.natNsrcaddr
def Nat6.natNdst6 (nat : Nat6) : I6addr := nat.ndstTail.addr nat.natNdstaddr

/-- The table, with the rest of the addresses of its entries. -/
structure Softn6 where
  tab : Softn
  tails : ℕ → Tails

def Softn6.nat6 (w : Softn6) (e : ℕ) : Nat6 := { toNatT := w.tab.nat e, toTails := w.tails e }

def Softn6.init (size : Word) (max maxbucket : ℤ) : Softn6 :=
  ⟨.init size max maxbucket, fun _ => .zero⟩

/-! ## Hash values -/

/-- `NAT_HASH_FN6`, in 32 bits. -/
def NAT_HASH_FN6 (k : I6addr) (l m : Word) : Word :=
  (k.i63 + (k.i63 >>> 12) + k.i62 + (k.i62 >>> 12) + k.i61 + (k.i61 >>> 12) + k.i60 + (k.i60 >>> 12) + l) % m

/-- The two steps of `ipf_nat6_insert` and `ipf_nat6_tabmove`. -/
def nat6Hash (size : Word) (src dst : I6addr) (sp dp : Word) : Word :=
  NAT_HASH_FN6 dst (NAT_HASH_FN6 src sp 0xffffffff + dp) size

/-- `hv0` of `ipf_nat6_insert`. -/
def Nat6.hv0 (nat : Nat6) (size : Word) : Word :=
  let (sp, dp) := nat.hashPorts nat.natOsport nat.natOdport nat.natOicmpid
  nat6Hash size nat.natOsrc6 nat.natOdst6 sp dp

/-- `hv1` of `ipf_nat6_insert`. -/
def Nat6.hv1 (nat : Nat6) (size : Word) : Word :=
  let (sp, dp) := nat.hashPorts nat.natNsport nat.natNdport nat.natNicmpid
  nat6Hash size nat.natNsrc6 nat.natNdst6 sp dp

/-! ## Insert -/

/-- The fields that `ipf_nat6_insert` sets. `nat_hv` is reduced by the size of the table already. -/
def Nat6.insert (nat : Nat6) (size : Word) (ifps : Bool → Option ℕ) : NatT :=
  { nat.toNatT with
    natHv := nat.natDir.hv (nat.hv0 size) (nat.hv1 size)
    natRef := if nat.natMe = none then 1 else 2
    natIfps := ifps }

/-- A new entry with the contents `nat`. -/
def Softn6.malloc (w : Softn6) (e : ℕ) (nat : Nat6) : Softn6 :=
  ⟨w.tab.malloc e nat.toNatT, Function.update w.tails e nat.toTails⟩

/-- `ipf_nat6_insert` -/
def ipfNat6Insert (w : Softn6) (e : ℕ) (ifps : Bool → Option ℕ) : Softn6 × Bool :=
  let r := ipfNatHashtabAdd (w.tab.upd e fun _ => (w.nat6 e).insert w.tab.size ifps) e
  (⟨r.1, w.tails⟩, r.2)

section

variable (M : Machine)

/-- `LONG_SUM6` -/
def LONG_SUM6 (a : I6addr) : Word :=
  LONG_SUM (M.ntohl a.i60) + LONG_SUM (M.ntohl a.i61) + LONG_SUM (M.ntohl a.i62) + LONG_SUM (M.ntohl a.i63)

/-- `nat_sumd[0]` -/
def Nat6.sumd0 (nat : Nat6) : Word :=
  let (os, od, ns, nd) := if nat.natPr false = IPPROTO_ICMPV6 then (port32 M nat.natOicmpid, 0, port32 M nat.natNicmpid, 0)
    else if nat.natPr false = IPPROTO_TCP ∨ nat.natPr false = IPPROTO_UDP then
      (port32 M nat.natOsport, port32 M nat.natOdport, port32 M nat.natNsport, port32 M nat.natNdport)
    else (0, 0, 0, 0)
  sumd (LONG_SUM6 M nat.natOsrc6 + os) (LONG_SUM6 M nat.natNsrc6 + ns) +
    sumd (LONG_SUM6 M nat.natOdst6 + od) (LONG_SUM6 M nat.natNdst6 + nd)

/-- `nat_sumd[1]` -/
def Nat6.sumd1 (nat : Nat6) : Word :=
  let sum1 := match nat.natDir with
    | .outbound => LONG_SUM6 M nat.natNsrc6 + LONG_SUM6 M nat.natNdst6
    | .inbound => LONG_SUM6 M nat.natOsrc6 + LONG_SUM6 M nat.natOdst6
  Inet.fold (sum1 + BitVec.ofNat 32 (nat.natPr true))

/-- The part of `ipf_nat6_finalise` before the entry is inserted. -/
def Nat6.finalise (nat : Nat6) : Nat6 :=
  { nat with
    natSumd := fun i => if i then nat.sumd1 M else nat.sumd0 M
    natV := fun _ => 6 }

/-- The end of `ipf_nat6_add`, as `ipfNatAdd`. -/
def ipfNat6Add (w : Softn6) (e : ℕ) (nat : Nat6) (natsave : Option ℕ) (ifps : Bool → Option ℕ) : Softn6 × Bool :=
  let done (w : Softn) (r : Option ℕ) : Softn :=
    match natsave with
    | none => w
    | some m => { w with saved := Function.update w.saved m r }
  if w.tab.active ≥ w.tab.max then (w, false)
  else
    let nat := { nat with natMe := natsave }
    match ipfNat6Insert (w.malloc e (nat.finalise M)) e ifps with
    | (w, false) => (⟨done (w.tab.free e) none, w.tails⟩, false)
    | (w, true) =>
      (⟨done { w.tab with
        wilds := if has nat.natFlags SI_WILDP then w.tab.wilds + 1 else w.tab.wilds
        proto := Function.update w.tab.proto (nat.natPr false) (w.tab.proto (nat.natPr false) + 1) } (some e), w.tails⟩, true)

/-! ## Lookup -/

/-- `sport` and `dport` of the lookups. -/
def lookup6Ports (fin : FrInfo) (flags : Flags) (p : ℕ) : BitVec 16 × BitVec 16 :=
  if p = IPPROTO_TCP ∨ p = IPPROTO_UDP then (M.htons (fin.finData false), M.htons (fin.finData true))
  else if p = IPPROTO_ICMPV6 then
    if has flags IPN_ICMPERR then (fin.finData true, 0) else (0, fin.finData true)
  else (0, 0)

end

/-- The ports of an entry are compared if it is for TCP or UDP, the id if the packet is an ICMPv6 one. -/
def NatT.samePorts6 (nat : NatT) (p : ℕ) (esport edport eid sport dport : BitVec 16) : Bool :=
  if has nat.natFlags IPN_TCPUDP then esport = sport ∧ edport = dport
  else p = IPPROTO_ICMPV6 → eid = dport

/-- The addresses that an entry expects of packets that go out (`out`) or come in. -/
def Nat6.sameAddrs (nat : Nat6) (out : Bool) (src dst : I6addr) : Bool :=
  if out = nat.forward then nat.natV false = 6 ∧ nat.natOsrc6 = src ∧ nat.natOdst6 = dst
  else nat.natV true = 6 ∧ nat.natNdst6 = src ∧ nat.natNsrc6 = dst

/-- The tests of `ipf_nat6_outlookup` (`out`) and `ipf_nat6_inlookup` on an entry, up to the proxy. -/
def Nat6.matches (nat : Nat6) (out : Bool) (ifp : Option ℕ) (p : ℕ) (src dst : I6addr) (sport dport : BitVec 16) : Bool :=
  nat.admits out ifp && decide (nat.natPr out = p) && nat.sameAddrs out src dst &&
    if out = nat.forward then nat.samePorts6 p nat.natOsport nat.natOdport nat.natOicmpid sport dport
    else nat.samePorts6 p nat.natNdport nat.natNsport nat.natNicmpid sport dport

/-- The tests of the loops that look for entries with wildcards. -/
def Nat6.wildMatches (nat : Nat6) (out : Bool) (ifp : Option ℕ) (p : ℕ) (src dst : I6addr) : Bool :=
  nat.admits out ifp && decide (nat.natPr out = p) && nat.sameAddrs out src dst && has nat.natFlags (NAT_TCPUDP ||| SI_WILDP)

/-- The first entry on a chain that passes a test. -/
def Softn6.find (w : Softn6) (i : Bool) (hv : ℕ) (test : Nat6 → Bool) : Option ℕ :=
  let m := (w.tab.side i).table
  m.get (m.seek (fun e => !test (w.nat6 e)) w.tab.active.toNat (.head hv))

/-- The bucket of the first search. -/
def lookup6Bucket (size : Word) (out : Bool) (src dst : I6addr) (sport dport : BitVec 16) : Word :=
  if out then NAT_HASH_FN6 dst (NAT_HASH_FN6 src (word sport) 0xffffffff + word dport) size
  else NAT_HASH_FN6 src (NAT_HASH_FN6 dst (word dport) 0xffffffff + word sport) size

/-- The hash values that `ipf_nat6_tabmove` computes. -/
def Nat6.movedHv (nat : Nat6) (size : Word) : Bool → Word :=
  nat.natDir.hv (nat6Hash size nat.natOsrc6 nat.natOdst6 (word nat.natOsport) (word nat.natOdport))
    (nat6Hash size nat.natNsrc6 nat.natNdst6 (word nat.natNsport) (word nat.natNdport))

/-- `ipf_nat6_tabmove`. It counts the old chain as `nat_hv` says, without reducing it: behind the end of `ns_bucketlen` that is
undefined. -/
def ipfNat6Tabmove (w : Softn6) (e : ℕ) : Option Softn6 :=
  let nat := w.nat6 e
  let w₁ := w.tab
  if has nat.natFlags SI_CLONE then some w
  else if ∀ i, (nat.natHv i).toNat < w₁.size.toNat then do
    let move i := moveSide (w₁.side i) e (nat.natHv i).toNat (w₁.bucket (nat.movedHv w₁.size i))
    let t0 ← move false
    let t1 ← move true
    return ⟨{ w₁.upd e (fun n => { n with natHv := nat.movedHv w₁.size }) with side := fun i => if i then t1 else t0 },
      w.tails⟩
  else none

/-- What a lookup is given: `ipf_nat6_outlookup` if `out`, else `ipf_nat6_inlookup`. -/
structure Lookup6 where
  out : Bool
  fin : FrInfo
  flags : Flags
  p : ℕ
  src : I6addr
  dst : I6addr
  new : Option ℕ
  ifps : Bool → Option ℕ

section

variable (M : Machine) (proxyMatch : FrInfo → NatT → Bool)

/-- The test of the first loop. -/
def Lookup6.passes (l : Lookup6) (nat : Nat6) : Bool :=
  nat.matches l.out l.fin.finIfp l.p l.src l.dst (lookup6Ports M l.fin l.flags l.p).1 (lookup6Ports M l.fin l.flags l.p).2 &&
    nat.accepts proxyMatch l.out l.fin

/-- The bucket of the first loop. -/
def Lookup6.bucket (l : Lookup6) (size : Word) : Word :=
  lookup6Bucket size l.out l.src l.dst (lookup6Ports M l.fin l.flags l.p).1 (lookup6Ports M l.fin l.flags l.p).2

/-- The test of the second loop. -/
def Lookup6.wildPasses (l : Lookup6) (nat : Nat6) : Bool :=
  nat.wildMatches l.out l.fin.finIfp l.fin.finP l.src l.dst &&
    ipfNatWildok nat.toNatT l.out (lookup6Ports M l.fin l.flags l.p).1 (lookup6Ports M l.fin l.flags l.p).2

/-- The bucket of the second loop. -/
def Lookup6.wildBucket (l : Lookup6) (size : Word) : Word := lookup6Bucket size l.out l.src l.dst 0 0

/-- The second loop is run. -/
def Lookup6.searches (l : Lookup6) (w : Softn6) : Bool :=
  has l.flags NAT_TCPUDP && has l.flags NAT_SEARCH && decide (w.tab.wilds ≠ 0) && !has l.fin.finFlx FI_NOWILD

def exact6Found (w : Softn6) (l : Lookup6) : Option ℕ :=
  w.find (!l.out) (l.bucket M w.tab.size).toNat (l.passes M proxyMatch)

def wild6Found (w : Softn6) (l : Lookup6) : Option ℕ :=
  if l.searches w then w.find (!l.out) (l.wildBucket w.tab.size).toNat (l.wildPasses M) else none

/-- The tails that `ipf_nat_clone` copies. -/
def Softn6.copyTails (w : Softn6) (new : Option ℕ) (e : ℕ) : ℕ → Tails :=
  match new with
  | none => w.tails
  | some c => Function.update w.tails c (w.tails e)

/-- The entry found gets the ports of the packet and moves to their bucket. `ipf_nat_clone` puts a clone where an IPv4 entry
would be. -/
def resolve6 (w : Softn6) (l : Lookup6) (e : ℕ) : Option (Softn6 × Option ℕ) :=
  let (sport, dport) := lookup6Ports M l.fin l.flags l.p
  let (w, o) := if has (w.nat6 e).natFlags SI_CLONE then
      let r := ipfNatClone w.tab l.fin e l.new l.ifps
      ((⟨r.1, w.copyTails l.new e⟩ : Softn6), r.2)
    else (⟨{ w.tab with wilds := w.tab.wilds - 1 }, w.tails⟩, some e)
  match o with
  | none => some (w, none)
  | some e => do
    let w ← ipfNat6Tabmove ⟨w.tab.upd e fun nat => nat.resolve l.out sport dport l.fin.finIfp, w.tails⟩ e
    return (w, some e)

/-- `ipf_nat6_inlookup` and `ipf_nat6_outlookup`: what they return, and the table after them. -/
def ipfNat6Lookup (w : Softn6) (l : Lookup6) : Option (Softn6 × Option ℕ) :=
  match if has l.flags SI_WILDP then none else exact6Found M proxyMatch w l with
  | some e => some (⟨w.tab.upd e fun nat => nat.setIfp l.out l.fin.finIfp, w.tails⟩, some e)
  | none =>
    match wild6Found M w l with
    | none => some (w, none)
    | some e => if has l.fin.finFlx FI_IGNORE then some (w, some e) else resolve6 M w l e

/-! ## Runs -/

/-- A call: one for IPv4 packets or for both versions, or one of `ip_nat6.c`. -/
inductive Op6
  | shared (op : Op)
  | add (e : ℕ) (nat : Nat6) (natsave : Option ℕ) (ifps : Bool → Option ℕ)
  | lookup (l : Lookup6)

def step6 (w : Softn6) : Op6 → Option Softn6
  | .shared op => (step M proxyMatch w.tab op).map fun tab => ⟨tab, w.tails⟩
  | .add e nat natsave ifps => some (ipfNat6Add M w e nat natsave ifps).1
  | .lookup l => (ipfNat6Lookup M proxyMatch w l).map Prod.fst

def Legal6 (w : Softn6) : Op6 → Prop
  | .shared op => Legal w.tab op
  | .add e _ _ _ => w.tab.alloc e = false
  | .lookup l => ∀ c, l.new = some c → w.tab.alloc c = false

def Op6.spares (e : ℕ) : Op6 → Prop
  | .shared op => op.spares e
  | _ => True

/-- The call finds the entry in its second loop and moves it. -/
def Op6.moves (w : Softn6) (e : ℕ) : Op6 → Bool
  | .lookup l =>
    (has l.flags SI_WILDP ∨ exact6Found M proxyMatch w l = none) ∧ wild6Found M w l = some e ∧
      has l.fin.finFlx FI_IGNORE = false ∧ has (w.nat6 e).natFlags SI_CLONE = false
  | _ => false

/-- **The states of the table.** -/
inductive Reach6 (w₀ : Softn6) : Softn6 → Prop
  | start : Reach6 w₀ w₀
  | call {w w' : Softn6} (op : Op6) : Reach6 w₀ w → Legal6 w op → step6 M proxyMatch w op = some w' → Reach6 w₀ w'

/-- **The states in which `e` is where `ipf_nat6_insert` put it**, with the size of the table at that time, or when
`ipf_nat6_tabmove` moved it. -/
inductive Placed6 (w₀ : Softn6) (e : ℕ) : Word → Softn6 → Prop
  | insert {w w' : Softn6} (nat : Nat6) (ifps : Bool → Option ℕ) (wilds : ℤ) (proto : ℕ → ℤ)
      (saved : ℕ → Option ℕ) :
      Reach6 M proxyMatch w₀ w → w.tab.alloc e = false → has nat.natFlags SI_WILDP = false → (∀ i, nat.natV i = 6) →
      ipfNat6Insert (w.malloc e nat) e ifps = (w', true) →
      Placed6 w₀ e w.tab.size ⟨{ w'.tab with wilds := wilds, proto := proto, saved := saved }, w'.tails⟩
  | call {s : Word} {w w' : Softn6} (op : Op6) : Placed6 w₀ e s w → Legal6 w op → op.spares e →
      step6 M proxyMatch w op = some w' → Placed6 w₀ e (if op.moves M proxyMatch w e then w.tab.size else s) w'

end

end Ipfilter.NatTab
