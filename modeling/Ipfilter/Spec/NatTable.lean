import Ipfilter.Chain.Buckets
import Ipfilter.Spec.Ipnat
import Mathlib.Data.Nat.Size

/-!
# The NAT table

The table of `ip_nat.c`: an entry is on the list of all entries (`nat_next`, `nat_pnext`) and on one chain of
each of two hash tables (`nat_hnext[i]`, `nat_phnext[i]`): table 0 is searched for packets that go out, table
1 for packets that come in. Entries are named by their address. An entry that was deleted while something
still refers to it is an orphan: it is on no list until its last reference is dropped. `none` is a step
through a NULL pointer or into an entry that was freed.

Timeout queues, logging, locks and the counters of events are left out here, and so are the rules and host
maps that an entry refers to.
-/

namespace Ipfilter.NatTab

open Chain Masks State

/-! ## Data -/

def NAT_TCPUDP : Flags := IPN_TCP ||| IPN_UDP
def NAT_SEARCH : Flags := 0x0010

def FI_NOWILD : Flags := 0x40000000
def FI_IGNORE : Flags := 0x80000000

/-- `ipf_nat_softc_t`, with the memory it points to: `side` holds each hash table with its counters in
`ns_side`, `saved` the pointers that `nat_me` points to, `alloc` says which entries are allocated. -/
structure Softn where
  list : Mem Unit ℕ
  side : Bool → Buckets ℕ
  size : Word
  max : ℤ
  maxbucket : ℤ
  active : ℤ
  orphans : ℤ
  wilds : ℤ
  proto : ℕ → ℤ
  nat : ℕ → NatT
  alloc : ℕ → Bool
  saved : ℕ → Option ℕ

/-- Change the fields of one entry. -/
def Softn.upd (w : Softn) (e : ℕ) (f : NatT → NatT) : Softn :=
  { w with nat := Function.update w.nat e (f (w.nat e)) }

/-- A new entry with the contents `nat`. -/
def Softn.malloc (w : Softn) (e : ℕ) (nat : NatT) : Softn :=
  { w with nat := Function.update w.nat e nat, alloc := Function.update w.alloc e true }

/-- `KFREE` -/
def Softn.free (w : Softn) (e : ℕ) : Softn := { w with alloc := Function.update w.alloc e false }

/-- The bucket of a hash value. -/
def Softn.bucket (w : Softn) (hv : Word) : ℕ := (hv % w.size).toNat

/-! ## Hash values -/

/-- `NAT_HASH_FN`, in 32 bits. -/
def NAT_HASH_FN (k l m : Word) : Word := (k + (k >>> 12) + l) % m

/-- The two steps of `ipf_nat_insert` and `ipf_nat_tabmove`. -/
def natHash (src dst sp dp : Word) : Word :=
  NAT_HASH_FN dst (NAT_HASH_FN src sp 0xffffffff + dp) 0xffffffff

/-- A port as an operand of the hash function. -/
def word (p : BitVec 16) : Word := p.setWidth 32

/-- `sp` and `dp` in `ipf_nat_insert`, from the ports and the ICMP id of a tuple. -/
def NatT.hashPorts (nat : NatT) (sport dport icmpid : BitVec 16) : Word × Word :=
  if has nat.natFlags SI_WILDP then (0, 0)
  else if has nat.natFlags IPN_TCPUDP then (word sport, word dport)
  else if has nat.natFlags IPN_ICMPQUERY then (0, word icmpid)
  else (0, 0)

/-- `hv0` of `ipf_nat_insert`: the hash of the tuple before translation. -/
def NatT.hv0 (nat : NatT) : Word :=
  let (sp, dp) := nat.hashPorts nat.natOsport nat.natOdport nat.natOicmpid
  natHash nat.natOsrcaddr nat.natOdstaddr sp dp

/-- `hv1` of `ipf_nat_insert`: the hash of the tuple after translation. -/
def NatT.hv1 (nat : NatT) : Word :=
  let (sp, dp) := nat.hashPorts nat.natNsport nat.natNdport nat.natNicmpid
  natHash nat.natNsrcaddr nat.natNdstaddr sp dp

/-- `nat_hv[0]` and `nat_hv[1]` from the two hash values. -/
def Dir.hv (dir : Dir) (hv0 hv1 : Word) (i : Bool) : Word :=
  match dir with
  | .outbound => if i then hv1 else hv0
  | .inbound => if i then hv0 else hv1

/-! ## Insert -/

/-- An entry joins the chain `hv` of one side. -/
def enterSide (t : Buckets ℕ) (e hv : ℕ) : Buckets ℕ where
  table := t.table.link e (.head hv)
  inuse := if t.table.head hv = none then t.inuse + 1 else t.inuse
  bucketlen := Function.update t.bucketlen hv (t.bucketlen hv + 1)

/-- `ipf_nat_hashtab_add`; `false` is the return value -1. -/
def ipfNatHashtabAdd (w : Softn) (e : ℕ) : Softn × Bool :=
  let hv i := w.bucket ((w.nat e).natHv i)
  if (w.side false).bucketlen (hv false) ≥ w.maxbucket then (w, false)
  else if (w.side true).bucketlen (hv true) ≥ w.maxbucket then (w, false)
  else
    ({ w with
      list := w.list.link e (.head ())
      side := fun i => enterSide (w.side i) e (hv i)
      active := w.active + 1 }, true)

/-- The fields that `ipf_nat_insert` sets. -/
def NatT.insert (nat : NatT) (ifps : Bool → Option ℕ) : NatT :=
  { nat with
    natHv := nat.natDir.hv nat.hv0 nat.hv1
    natRef := if nat.natMe = none then 1 else 2
    natIfps := ifps }

/-- `ipf_nat_insert`; `ifps` are the interfaces that `ipf_resolvenic` finds for the names in the entry. -/
def ipfNatInsert (w : Softn) (e : ℕ) (ifps : Bool → Option ℕ) : Softn × Bool :=
  ipfNatHashtabAdd (w.upd e fun nat => nat.insert ifps) e

/-- `ipf_nat_add` from the place on where `nat` is the entry that one of the `ipf_nat_new` functions has
filled in, with the check of `ns_active` before it. The result `false` is a NULL return; the entry is freed. -/
def ipfNatAdd (M : Machine) (w : Softn) (e : ℕ) (nat : NatT) (natsave : Option ℕ) (ifps : Bool → Option ℕ) :
    Softn × Bool :=
  let done (w : Softn) (r : Option ℕ) : Softn :=
    match natsave with
    | none => w
    | some m => { w with saved := Function.update w.saved m r }
  if w.active ≥ w.max then (w, false)
  else
    let nat := { nat with natMe := natsave }
    match ipfNatInsert (w.malloc e (nat.finalise M)) e ifps with
    | (w, false) => (done (w.free e) none, false)
    | (w, true) =>
      (done { w with
        wilds := if has nat.natFlags SI_WILDP then w.wilds + 1 else w.wilds
        proto := Function.update w.proto (nat.natPr false) (w.proto (nat.natPr false) + 1) } (some e), true)

/-! ## Delete -/

/-- An entry leaves the chain `hv` of one side, in `ipf_nat_delete`. -/
def leaveSide (t : Buckets ℕ) (e hv : ℕ) : Buckets ℕ where
  bucketlen := Function.update t.bucketlen hv (t.bucketlen hv - 1)
  inuse := if t.bucketlen hv - 1 = 0 then t.inuse - 1 else t.inuse
  table := t.table.cut e

/-- The first part of `ipf_nat_delete`, for an entry that is on the list. -/
def unlink (w : Softn) (e : ℕ) : Softn :=
  { w with
    list := w.list.cut e
    side := fun i => leaveSide (w.side i) e (w.bucket ((w.nat e).natHv i))
    wilds := if has (w.nat e).natFlags SI_WILDP then w.wilds - 1 else w.wilds }

/-- The reference of `nat_me`. -/
def unme (w : Softn) (e : ℕ) : Softn :=
  match (w.nat e).natMe with
  | none => w
  | some m =>
    { w.upd e (fun nat => { nat with natMe := none, natRef := nat.natRef - 1 }) with
      saved := Function.update w.saved m none }

/-- The rest of `ipf_nat_delete` when nothing refers to the entry any more. -/
def release (w : Softn) (e : ℕ) (madeorphan : Bool) : Softn :=
  let nat := w.nat e
  { w with
    orphans := if madeorphan then w.orphans else w.orphans - 1
    wilds := if has nat.natFlags SI_WILDP then w.wilds - 1 else w.wilds
    proto := Function.update w.proto (nat.natPr false) (w.proto (nat.natPr false) - 1)
    active := w.active - 1
    nat := Function.update w.nat e { nat with natRef := 0, natHm := none, natPtr := none, natAps := none }
    alloc := Function.update w.alloc e false }

/-- The references that `ipf_nat_delete` drops when others are left: two of a packet that destroys the session
(`NL_DESTROY`), else one. -/
def drops (destroy : Bool) : ℤ := if destroy then 2 else 1

/-- `ipf_nat_delete`; `destroy` is `logtype == NL_DESTROY`. -/
def ipfNatDelete (w : Softn) (e : ℕ) (destroy : Bool) : Option Softn :=
  if w.alloc e = false then none
  else
    let removed := w.list.pnext e ≠ none
    let w := if removed then unlink w e else w
    let w := unme w e
    if (w.nat e).natRef > drops destroy then
      some { w.upd e (fun nat => { nat with natRef := nat.natRef - drops destroy }) with
        orphans := if removed then w.orphans + 1 else w.orphans }
    else some (release w e removed)

/-- `ipf_nat_deref` -/
def ipfNatDeref (w : Softn) (e : ℕ) : Option Softn :=
  if w.alloc e = false then none
  else if (w.nat e).natRef > 1 then some (w.upd e fun nat => { nat with natRef := nat.natRef - 1 })
  else ipfNatDelete w e false

/-! ## Lookup -/

section

variable (M : Machine)

/-- `sport` and `dport` of the lookups. -/
def lookupPorts (fin : FrInfo) (flags : Flags) (p : ℕ) : BitVec 16 × BitVec 16 :=
  if p = IPPROTO_TCP ∨ p = IPPROTO_UDP then (M.htons (fin.finData false), M.htons (fin.finData true))
  else if p = IPPROTO_ICMP then
    if has flags IPN_ICMPERR then (fin.finData true, 0) else (0, fin.finData true)
  else (0, 0)

end

/-- The interface `i` of the entry lets a packet of the interface `ifp` through. -/
def NatT.admits (nat : NatT) (i : Bool) (ifp : Option ℕ) : Bool :=
  nat.natIfps i = none ∨ ifp = none ∨ ifp = nat.natIfps i

/-- The ports of an entry are compared if it is for TCP or UDP, the id if the packet is an ICMP one. -/
def NatT.samePorts (nat : NatT) (p : ℕ) (esport edport eid sport dport : BitVec 16) : Bool :=
  if has nat.natFlags IPN_TCPUDP then esport = sport ∧ edport = dport
  else p = IPPROTO_ICMP → eid = dport

/-- The test of `ipf_nat_inlookup` on an entry, up to the proxy. -/
def NatT.inMatches (nat : NatT) (ifp : Option ℕ) (p : ℕ) (src dst : Word) (sport dport : BitVec 16) : Bool :=
  nat.admits false ifp && decide (nat.natPr false = p) &&
    match nat.natDir with
    | .inbound =>
      decide (nat.natV false = 4 ∧ nat.natOsrcaddr = src ∧ nat.natOdstaddr = dst) &&
        nat.samePorts p nat.natOsport nat.natOdport nat.natOicmpid sport dport
    | .outbound =>
      decide (nat.natV true = 4 ∧ nat.natDlocal = false ∧ nat.natNdstaddr = src ∧ nat.natNsrcaddr = dst) &&
        nat.samePorts p nat.natNdport nat.natNsport nat.natNicmpid sport dport

/-- The test of `ipf_nat_outlookup` on an entry, up to the proxy. -/
def NatT.outMatches (nat : NatT) (ifp : Option ℕ) (p : ℕ) (src dst : Word) (sport dport : BitVec 16) : Bool :=
  nat.admits true ifp && decide (nat.natPr true = p) &&
    match nat.natDir with
    | .inbound =>
      decide (nat.natV true = 4 ∧ nat.natNdstaddr = src ∧ nat.natNsrcaddr = dst) &&
        nat.samePorts p nat.natNdport nat.natNsport nat.natNicmpid sport dport
    | .outbound =>
      decide (nat.natV false = 4 ∧ nat.natOsrcaddr = src ∧ nat.natOdstaddr = dst) &&
        nat.samePorts p nat.natOsport nat.natOdport nat.natOicmpid sport dport

/-- The two tests. -/
def NatT.matches (nat : NatT) (out : Bool) (ifp : Option ℕ) (p : ℕ) (src dst : Word) (sport dport : BitVec 16) :
    Bool :=
  if out then nat.outMatches ifp p src dst sport dport else nat.inMatches ifp p src dst sport dport

/-- An entry with a proxy is asked whether the packet is for it; `ipf_nat_inlookup` asks for TCP and UDP
entries only. -/
def NatT.accepts (proxyMatch : FrInfo → NatT → Bool) (nat : NatT) (out : Bool) (fin : FrInfo) : Bool :=
  if (out ∨ has nat.natFlags IPN_TCPUDP) ∧ nat.natPtr ≠ none ∧ nat.natAps ≠ none then proxyMatch fin nat
  else true

/-- The test of the loops that look for entries with wildcards: as above but for the ports. -/
def NatT.wildMatches (nat : NatT) (out : Bool) (ifp : Option ℕ) (p : ℕ) (src dst : Word) : Bool :=
  nat.admits out ifp ∧ nat.natPr out = p ∧
    (if out = true ↔ nat.natDir = .outbound then
      nat.natV false = 4 ∧ nat.natOsrcaddr = src ∧ nat.natOdstaddr = dst
    else nat.natV true = 4 ∧ nat.natNdstaddr = src ∧ nat.natNsrcaddr = dst) ∧
    has nat.natFlags (NAT_TCPUDP ||| SI_WILDP)

/-- `ipf_nat_wildok`: the ports of a packet as the entry's own direction has them, then the comparison. -/
def ipfNatWildok (nat : NatT) (out : Bool) (sport dport : BitVec 16) : Bool :=
  let (s, d) := if out = true ↔ nat.natDir = .outbound then (sport, dport) else (dport, sport)
  (nat.natOsport = s ∨ has nat.natFlags SI_W_SPORT) ∧ (nat.natOdport = d ∨ has nat.natFlags SI_W_DPORT)

/-- The first entry on a chain that passes a test. -/
def Softn.find (w : Softn) (i : Bool) (hv : ℕ) (test : NatT → Bool) : Option ℕ :=
  let m := (w.side i).table
  m.get (m.seek (fun e => !test (w.nat e)) w.active.toNat (.head hv))

/-- An entry found without an interface takes that of the packet. -/
def NatT.setIfp (nat : NatT) (i : Bool) (ifp : Option ℕ) : NatT :=
  if nat.natIfps i = none then { nat with natIfps := Function.update nat.natIfps i ifp } else nat

/-- The bucket of the first search. `ipf_nat_outlookup` reduces its second sum by the size at once. -/
def lookupBucket (w : Softn) (out : Bool) (src dst : Word) (sport dport : BitVec 16) : ℕ :=
  if out then
    (NAT_HASH_FN dst (NAT_HASH_FN src (word sport) 0xffffffff + word dport) w.size).toNat
  else w.bucket (NAT_HASH_FN src (NAT_HASH_FN dst (word dport) 0xffffffff + word sport) 0xffffffff)

/-- The bucket of the search for wildcards. -/
def wildBucket (w : Softn) (out : Bool) (src dst : Word) : ℕ :=
  if out then (NAT_HASH_FN dst (NAT_HASH_FN src 0 0xffffffff) w.size).toNat
  else (NAT_HASH_FN src (NAT_HASH_FN dst 0 0xffffffff) w.size).toNat

/-- The fields of a clone. -/
def NatT.clone (nat : NatT) (fin : FrInfo) : NatT :=
  { nat with
    natRev := fin.finRev
    natAps := none
    natFlags := nat.natFlags &&& ~~~SI_CLONE ||| SI_CLONED }

/-- `ipf_nat_clone`; `new` is what `KMALLOC` returns. -/
def ipfNatClone (w : Softn) (fin : FrInfo) (e : ℕ) (new : Option ℕ) (ifps : Bool → Option ℕ) :
    Softn × Option ℕ :=
  match new with
  | none => (w, none)
  | some c =>
    match ipfNatInsert (w.malloc c ((w.nat e).clone fin)) c ifps with
    | (w, true) => (w, some c)
    | (w, false) => (w.free c, none)

/-- An entry goes from the chain `hv` of one side to `hv'`, in `ipf_nat_tabmove`. -/
def moveSide (t : Buckets ℕ) (e hv hv' : ℕ) : Option (Buckets ℕ) := do
  let k ← t.table.pnext e
  let table := (t.table.setP? (t.table.next e) (some k)).set k (t.table.next e)
  let bucketlen := Function.update t.bucketlen hv (t.bucketlen hv - 1)
  return { t with
    table := table.link e (.head hv')
    bucketlen := Function.update bucketlen hv' (bucketlen hv' + 1) }

/-- The hash values that `ipf_nat_tabmove` computes. -/
def NatT.movedHv (nat : NatT) : Bool → Word :=
  nat.natDir.hv (natHash nat.natOsrcaddr nat.natOdstaddr (word nat.natOsport) (word nat.natOdport))
    (natHash nat.natNsrcaddr nat.natNdstaddr (word nat.natNsport) (word nat.natNdport))

/-- `ipf_nat_tabmove` -/
def ipfNatTabmove (w : Softn) (e : ℕ) : Option Softn :=
  let nat := w.nat e
  if has nat.natFlags SI_CLONE then some w
  else do
    let move i := moveSide (w.side i) e (w.bucket (nat.natHv i)) (w.bucket (nat.movedHv i))
    let t0 ← move false
    let t1 ← move true
    return { w.upd e (fun nat => { nat with natHv := nat.movedHv }) with
      side := fun i => if i then t1 else t0 }

/-- The ports of the packet go into an entry that has none; its wildcard flags go. -/
def NatT.resolve (nat : NatT) (out : Bool) (sport dport : BitVec 16) (ifp : Option ℕ) : NatT :=
  let (s, d) := if out = true ↔ nat.natDir = .outbound then (sport, dport) else (dport, sport)
  let nat := if nat.natOsport = 0 then { nat with natOsport := s, natNsport := s } else nat
  let nat := if nat.natOdport = 0 then { nat with natOdport := d, natNdport := d } else nat
  let nat := nat.setIfp out ifp
  { nat with natFlags := nat.natFlags &&& ~~~SI_WILDP }

/-- What a lookup is given: `ipf_nat_outlookup` if `out`, else `ipf_nat_inlookup`. `new` and `ifps` are for an
entry that is cloned. -/
structure Lookup where
  out : Bool
  fin : FrInfo
  flags : Flags
  p : ℕ
  src : Word
  dst : Word
  new : Option ℕ
  ifps : Bool → Option ℕ

section

variable (M : Machine) (proxyMatch : FrInfo → NatT → Bool)

/-- What the first loop finds. -/
def exactFound (w : Softn) (l : Lookup) : Option ℕ :=
  let (sport, dport) := lookupPorts M l.fin l.flags l.p
  w.find (!l.out) (lookupBucket w l.out l.src l.dst sport dport) fun nat =>
    nat.matches l.out l.fin.finIfp l.p l.src l.dst sport dport && nat.accepts proxyMatch l.out l.fin

/-- What the second loop finds, if it is run. -/
def wildFound (w : Softn) (l : Lookup) : Option ℕ :=
  let (sport, dport) := lookupPorts M l.fin l.flags l.p
  if has l.flags NAT_TCPUDP = false ∨ has l.flags NAT_SEARCH = false then none
  else if w.wilds = 0 ∨ has l.fin.finFlx FI_NOWILD then none
  else
    w.find (!l.out) (wildBucket w l.out l.src l.dst) fun nat =>
      nat.wildMatches l.out l.fin.finIfp l.fin.finP l.src l.dst && ipfNatWildok nat l.out sport dport

/-- The entry found gets the ports of the packet and moves to their bucket; one with `SI_CLONE` stays and
its clone does. -/
def resolve (w : Softn) (l : Lookup) (e : ℕ) : Option (Softn × Option ℕ) :=
  let (sport, dport) := lookupPorts M l.fin l.flags l.p
  let (w, o) := if has (w.nat e).natFlags SI_CLONE then ipfNatClone w l.fin e l.new l.ifps
    else ({ w with wilds := w.wilds - 1 }, some e)
  match o with
  | none => some (w, none)
  | some e => do
    let w ← ipfNatTabmove (w.upd e fun nat => nat.resolve l.out sport dport l.fin.finIfp) e
    return (w, some e)

/-- `ipf_nat_inlookup` and `ipf_nat_outlookup`: what they return, and the table after them. -/
def ipfNatLookup (w : Softn) (l : Lookup) : Option (Softn × Option ℕ) :=
  match if has l.flags SI_WILDP then none else exactFound M proxyMatch w l with
  | some e => some (w.upd e fun nat => nat.setIfp l.out l.fin.finIfp, some e)
  | none =>
    match wildFound M w l with
    | none => some (w, none)
    | some e => if has l.fin.finFlx FI_IGNORE then some (w, some e) else resolve M w l e

end

/-! ## Resizing -/

/-- The links of an entry are cleared and it joins the chain `hv` of the new table of one side. -/
def reenterSide (t : Buckets ℕ) (e hv : ℕ) : Buckets ℕ :=
  enterSide { t with table := (t.table.set (.next e) none).setP e none } e hv

/-- The walk of `ipf_nat_rehash` through the list of all entries. -/
def rehashLoop : ℕ → Option ℕ → Softn → Softn
  | _, none, w => w
  | 0, some _, w => w
  | n + 1, some e, w =>
    rehashLoop n (w.list.next e)
      { w with side := fun i => reenterSide (w.side i) e (w.bucket ((w.nat e).natHv i)) }

/-- `ipf_nat_rehash`; `notab` is a table that cannot be allocated, `nolen` an array of lengths. The checks for
the tables test the array that holds the two pointers, so a NULL pointer is used. -/
def ipfNatRehash (w : Softn) (newsize : Word) (notab nolen : Bool) : Option Softn :=
  if newsize = w.size then some w
  else if nolen then some w
  else if notab then none
  else some (rehashLoop w.active.toNat (w.list.head ())
    { w with
      side := fun i => ⟨{ (w.side i).table with head := fun _ => none }, fun _ => 0, 0⟩
      maxbucket := 2 * Nat.size newsize.toNat
      size := newsize })

/-! ## Runs -/

/-- An empty table. -/
def Softn.init (size : Word) (max maxbucket : ℤ) : Softn where
  list := Mem.empty
  side _ := Buckets.empty
  size := size
  max := max
  maxbucket := maxbucket
  active := 0
  orphans := 0
  wilds := 0
  proto _ := 0
  nat _ := NatT.zero
  alloc _ := false
  saved _ := none

/-- A call that edits the table. `hold` is what the rest of the filter does with an entry it goes on using: it
counts a reference, to be dropped with `deref`. -/
inductive Op
  | add (e : ℕ) (nat : NatT) (natsave : Option ℕ) (ifps : Bool → Option ℕ)
  | lookup (l : Lookup)
  | delete (e : ℕ) (destroy : Bool)
  | hold (e : ℕ)
  | deref (e : ℕ)
  | rehash (newsize : Word) (notab nolen : Bool)

/-- One call. -/
def step (M : Machine) (proxyMatch : FrInfo → NatT → Bool) (w : Softn) : Op → Option Softn
  | .add e nat natsave ifps => some (ipfNatAdd M w e nat natsave ifps).1
  | .lookup l => (ipfNatLookup M proxyMatch w l).map Prod.fst
  | .delete e destroy => ipfNatDelete w e destroy
  | .hold e => some (w.upd e fun nat => { nat with natRef := nat.natRef + 1 })
  | .deref e => ipfNatDeref w e
  | .rehash newsize notab nolen => ipfNatRehash w newsize notab nolen

/-- What the callers promise: new entries are new, the entries they name exist, and a size is at least 1, as the
tuneable demands. -/
def Legal (w : Softn) : Op → Prop
  | .add e _ _ _ => w.alloc e = false
  | .lookup l => ∀ c, l.new = some c → w.alloc c = false
  | .delete e _ => w.alloc e = true
  | .hold e => w.alloc e = true
  | .deref e => w.alloc e = true
  | .rehash newsize _ _ => 0 < newsize.toNat

/-- **The states of the table:** what any sequence of calls leads to. -/
inductive Reach (M : Machine) (proxyMatch : FrInfo → NatT → Bool) (w₀ : Softn) : Softn → Prop
  | start : Reach M proxyMatch w₀ w₀
  | call {w w' : Softn} (op : Op) : Reach M proxyMatch w₀ w → Legal w op → step M proxyMatch w op = some w' →
      Reach M proxyMatch w₀ w'

end Ipfilter.NatTab
