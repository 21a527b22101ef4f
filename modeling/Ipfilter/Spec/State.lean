import Ipfilter.Spec.Masks
import Ipfilter.Spec.Tcp

/-!
# The state table

The table of `ip_state.c`: entries are on the list of all entries (`is_next`, `is_pnext`), on the
chain of their bucket (`is_hnext`, `is_phnext`) and on a timeout queue (`is_sti`), and are freed when
their last reference is dropped. Entries are named by their address. `none` is a step through a NULL
pointer or into an entry that was freed.

Counters of single rules, of protocols and of events, logging, locks and the synchronisation with
other hosts are left out.
-/

namespace Ipfilter.State

open Chain Queue Masks Tcp

/-! ## Data -/

def SI_W_SPORT : Flags := 0x00000100
def SI_W_DPORT : Flags := 0x00000200
def SI_WILDP : Flags := SI_W_SPORT ||| SI_W_DPORT
def SI_W_SADDR : Flags := 0x00000400
def SI_W_DADDR : Flags := 0x00000800
def SI_WILDA : Flags := SI_W_SADDR ||| SI_W_DADDR
def SI_NEWFR : Flags := 0x00001000
def SI_CLONE : Flags := 0x00002000
def SI_CLONED : Flags := 0x00004000

def IPPROTO_ICMP : ℕ := 1
def IPPROTO_TCP : ℕ := 6
def IPPROTO_UDP : ℕ := 17
def IPPROTO_ICMPV6 : ℕ := 58

/-- The timeout queues of the table; those of rules (`ipf_state_usertq`) by their address. -/
inductive Tqid
  | tcp (state : ℕ)
  | udp
  | udpack
  | icmp
  | icmpack
  | ip
  | delete
  | pending
  | user (addr : ℕ)
deriving DecidableEq

/-- `ipstate_t`, without its links. Index `false` is 0, `true` is 1; `isFlx` and `isIfp` are by
`fin_out` and `fin_rev`. -/
structure Ipstate where
  isSrc : I6addr
  isDst : I6addr
  isV : ℕ
  isP : ℕ
  isHv : ℕ
  isFlags : Flags
  isRef : ℤ
  isMe : Option ℕ
  isTqehead : Bool → Option Tqid
  tqeFlags : Flags
  isState : Bool → ℕ
  isSport : BitVec 16
  isDport : BitVec 16
  iciType : ℕ
  iciId : BitVec 16
  isFlx : Bool → Bool → Flags
  isOpt : Bool → Flags
  isOptmsk : Bool → Flags
  isSec : BitVec 16
  isSecmsk : BitVec 16
  isAuth : BitVec 16
  isAuthmsk : BitVec 16
  isIfp : Bool → Bool → Option ℕ
  isIfname : Bool → Bool → List Char

/-- An entry after `bzero`. -/
def Ipstate.zero : Ipstate where
  isSrc := I6addr.zero
  isDst := I6addr.zero
  isV := 0
  isP := 0
  isHv := 0
  isFlags := 0
  isRef := 0
  isMe := none
  isTqehead _ := none
  tqeFlags := 0
  isState _ := 0
  isSport := 0
  isDport := 0
  iciType := 0
  iciId := 0
  isFlx _ _ := 0
  isOpt _ := 0
  isOptmsk _ := 0
  isSec := 0
  isSecmsk := 0
  isAuth := 0
  isAuthmsk := 0
  isIfp _ _ := none
  isIfname _ _ := []

/-- `ipf_state_softc_t`, with the memory it points to: `saved` holds the pointers that `is_me` points
to, `alloc` and `ifqAlloc` say which entries and which user queues are allocated. -/
structure Softs where
  list : Mem Unit ℕ
  table : Mem ℕ ℕ
  size : ℕ
  bucketlen : ℕ → ℤ
  inuse : ℤ
  active : ℤ
  orphan : ℤ
  wild : ℤ
  is : ℕ → Ipstate
  alloc : ℕ → Bool
  saved : ℕ → Option ℕ
  tq : Tq Tqid ℕ
  userHead : Option Tqid
  userNext : Tqid → Option Tqid
  userifqs : ℕ
  ifqAlloc : Tqid → Bool

/-- Change the fields of one entry. -/
def Softs.upd (w : Softs) (e : ℕ) (f : Ipstate → Ipstate) : Softs :=
  { w with is := Function.update w.is e (f (w.is e)) }

/-- Count one more, or less, in a bucket. -/
def Softs.count (w : Softs) (hv : ℕ) (d : ℤ) : ℕ → ℤ :=
  Function.update w.bucketlen hv (w.bucketlen hv + d)

/-! ## Timeout queues of rules -/

def IPF_HZ_DIVIDE : ℕ := 2

/-- The loop of `ipf_addtimeoutqueue` over the queues from `q` on. -/
def findTtl (w : Softs) (period : ℕ) : ℕ → Option Tqid → Option Tqid
  | _, none => none
  | 0, some _ => none
  | i + 1, some q =>
    if w.tq.ifqTtl q = period then some q else findTtl w period i (w.userNext q)

/-- `ipf_addtimeoutqueue`; `new` is what `KMALLOC` returns. `IPFTQ_INIT` sets `ifq_ref` to 1, and the
function counts its caller on top of that. -/
def ipfAddtimeoutqueue (w : Softs) (seconds : ℕ) (new : Option ℕ) : Softs × Option Tqid :=
  let period := u32 (seconds * IPF_HZ_DIVIDE)
  match findTtl w period w.userifqs w.userHead with
  | some q =>
    ({ w with tq := { w.tq with
        ifqFlags := Function.update w.tq.ifqFlags q
          (w.tq.ifqFlags q - (w.tq.ifqFlags q &&& IFQF_DELETE))
        ifqRef := Function.update w.tq.ifqRef q (w.tq.ifqRef q + 1) } }, some q)
  | none =>
    match new with
    | none => (w, none)
    | some a =>
      let q := Tqid.user a
      ({ w with
        tq := { w.tq with
          mem := { w.tq.mem with head := Function.update w.tq.mem.head q none }
          ifqTail := Function.update w.tq.ifqTail q (.head q)
          ifqTtl := Function.update w.tq.ifqTtl q period
          ifqFlags := Function.update w.tq.ifqFlags q IFQF_USER
          ifqRef := Function.update w.tq.ifqRef q 2 }
        -- the `ifq_pnext` of the old head still points to the head of the list
        userHead := some q
        userNext := Function.update w.userNext q w.userHead
        userifqs := w.userifqs + 1
        ifqAlloc := Function.update w.ifqAlloc q true }, some q)

/-- `ipf_freetimeoutqueue`. Every `ifq_pnext` points to the head of the list, so it is the head that
takes the next of the queue freed. -/
def ipfFreetimeoutqueue (w : Softs) (q : Tqid) : Softs :=
  if w.tq.ifqFlags q &&& IFQF_DELETE = 0 ∨ w.tq.ifqRef q ≠ 0 ∨
      w.tq.ifqFlags q &&& IFQF_USER = 0 then w
  else
    { w with
      userHead := w.userNext q
      userNext := Function.update w.userNext q none
      userifqs := w.userifqs - 1
      ifqAlloc := Function.update w.ifqAlloc q false }

/-- `if (ipf_deletetimeoutqueue(q) == 0) ipf_freetimeoutqueue(q)`, for a queue that is not NULL. -/
def Softs.dropTq (w : Softs) : Option Tqid → Softs
  | none => w
  | some q =>
    let w := { w with tq := ipfDeletetimeoutqueue w.tq q }
    if w.tq.ifqRef q = 0 then ipfFreetimeoutqueue w q else w

/-! ## Insert and delete -/

/-- The queue `ipf_state_setqueue` chooses. -/
def setqueueTarget (i : Ipstate) (rev : Bool) : Tqid :=
  match if i.tqeFlags &&& TQE_RULEBASED ≠ 0 then i.isTqehead rev else none with
  | some q => q
  | none =>
    if i.isP = IPPROTO_ICMPV6 ∨ i.isP = IPPROTO_ICMP then if rev then .icmpack else .icmp
    else if i.isP = IPPROTO_TCP then .tcp (i.isState rev)
    else if i.isP = IPPROTO_UDP then if rev then .udpack else .udp
    else .ip

/-- `ipf_state_setqueue` -/
def ipfStateSetqueue (w : Softs) (e : ℕ) (rev : Bool) (ticks : ℕ) : Option Softs :=
  let nifq := setqueueTarget (w.is e) rev
  match w.tq.tqeIfq e with
  | some oifq => do
    let tq ← ipfMovequeue w.tq ticks e oifq nifq
    return { w with tq := tq }
  | none => some { w with tq := ipfQueueappend w.tq ticks e nifq e }

/-- The part of `ipf_state_insert` that puts the entry on the list and on its chain. -/
def enter (w : Softs) (e hv : ℕ) : Softs :=
  { w with
    wild := if (w.is e).isFlags &&& (SI_WILDP ||| SI_WILDA) ≠ 0 then w.wild + 1 else w.wild
    list := w.list.link e (.head ())
    inuse := if w.table.head hv ≠ none then w.inuse else w.inuse + 1
    table := w.table.link e (.head hv)
    bucketlen := w.count hv 1
    active := w.active + 1 }

/-- `ipf_state_insert`; `full` is `ipf_ht_node_add` refusing the source for the entry's rule. The result
`false` is the return value -1. -/
def ipfStateInsert (w : Softs) (e : ℕ) (rev full : Bool) (ticks : ℕ) : Option (Softs × Bool) :=
  let hv := (w.is e).isHv % w.size
  let w := w.upd e fun i => { i with isHv := hv }
  if full then some (w, false)
  else (ipfStateSetqueue (enter w e hv) e rev ticks).map fun w => (w, true)

/-- The first part of `ipf_state_del`: out of the table, where it can be found. The flag says that the
entry was an orphan already. -/
def unhash (w : Softs) (e : ℕ) : Softs × Bool :=
  match w.table.pnext e with
  | none => (w, true)
  | some _ =>
    let table := w.table.cut e
    let hv := (w.is e).isHv
    ({ w with
      table := table
      inuse := if table.head hv = none then w.inuse - 1 else w.inuse
      bucketlen := w.count hv (-1) }, false)

/-- The wildcard flags go, and with them the entry's part in `iss_wild`. -/
def unwild (w : Softs) (e : ℕ) : Softs :=
  let flags := (w.is e).isFlags
  if flags &&& (SI_WILDP ||| SI_WILDA) ≠ 0 then
    let w := if flags &&& SI_CLONED = 0 then { w with wild := w.wild - 1 } else w
    w.upd e fun i => { i with isFlags := flags &&& ~~~(SI_WILDP ||| SI_WILDA) }
  else w

/-- Off its timeout queue. -/
def unqueue (w : Softs) (e : ℕ) : Option Softs :=
  match w.tq.tqeIfq e with
  | none => some w
  | some _ => do
    let tq ← ipfDeletequeueentry w.tq e
    return { w with tq := tq }

/-- The references of `is_me` and of the caller. -/
def unref (w : Softs) (e : ℕ) : Softs :=
  let w := match (w.is e).isMe with
    | none => w
    | some m =>
      { w.upd e (fun i => { i with isMe := none, isRef := i.isRef - 1 }) with
        saved := Function.update w.saved m none }
  w.upd e fun i => { i with isRef := i.isRef - 1 }

/-- The rest of `ipf_state_del` once nothing refers to the entry. -/
def release (w : Softs) (e : ℕ) (orphan : Bool) : Softs :=
  let w := w.dropTq ((w.is e).isTqehead false)
  let w := w.dropTq ((w.is e).isTqehead true)
  { w with
    list := w.list.cut e
    orphan := if orphan then w.orphan - 1 else w.orphan
    alloc := Function.update w.alloc e false
    active := w.active - 1 }

/-- `ipf_state_del`, with the number of references left. -/
def ipfStateDel (w : Softs) (e : ℕ) : Option (Softs × ℤ) :=
  if w.alloc e = false then none
  else do
    let (w, orphan) := unhash w e
    let w ← unqueue (unwild w e) e
    let w := unref w e
    let ref := (w.is e).isRef
    if ref > 0 then
      return ({ w with orphan := if orphan then w.orphan else w.orphan + 1 }, ref)
    else return (release w e orphan, 0)

/-- `ipf_state_deref` -/
def ipfStateDeref (w : Softs) (e : ℕ) : Option Softs :=
  if w.alloc e = false then none
  else if (w.is e).isRef > 1 then some (w.upd e fun i => { i with isRef := i.isRef - 1 })
  else (ipfStateDel w e).map Prod.fst

/-! ## Moving entries between buckets -/

/-- `DOUBLE_HASH`: the sum is a `u_long`. The seeds were made for the size the table had at first;
`seed` at a later index is the memory behind them. -/
def doubleHash (seed : ℕ → ℕ) (size hv : ℕ) : ℕ := (hv + seed (hv % size)) % 2 ^ 64 % size

/-- `ipf_ipsmove` -/
def ipfIpsmove (w : Softs) (seed : ℕ → ℕ) (e hv : ℕ) : Option Softs := do
  let hvm := (w.is e).isHv
  let isp ← w.table.pnext e
  let table := (w.table.setP? (w.table.next e) (some isp)).set isp (w.table.next e)
  let w := { w with
    table := table
    inuse := if table.head hvm = none then w.inuse - 1 else w.inuse
    bucketlen := w.count hvm (-1) }
  let hvm := doubleHash seed w.size hv
  let w := w.upd e fun i => { i with isHv := hvm }
  return { w with
    inuse := if w.table.head hvm ≠ none then w.inuse else w.inuse + 1
    bucketlen := w.count hvm 1
    table := w.table.link e (.head hvm) }

/-- The walk of `ipf_state_rehash` through the list of all entries. -/
def rehashLoop : ℕ → Option ℕ → Softs → Softs
  | _, none, w => w
  | 0, some _, w => w
  | i + 1, some e, w =>
    let table := (w.table.set (.next e) none).setP e none
    let hv := (w.is e).isHv % w.size
    rehashLoop i (w.list.next e)
      { w with
        inuse := if table.head hv ≠ none then w.inuse else w.inuse + 1
        table := table.link e (.head hv)
        bucketlen := w.count hv 1 }

/-- `ipf_state_rehash`; `nomem` is one of its allocations failing. -/
def ipfStateRehash (w : Softs) (newsize : ℕ) (nomem : Bool) : Softs :=
  if newsize = w.size ∨ nomem then w
  else
    rehashLoop w.active.toNat (w.list.head ())
      { w with
        table := { w.table with head := fun _ => none }
        bucketlen := fun _ => 0
        size := newsize
        inuse := 0 }

/-! ## Runs of the table -/

/-- An empty table with the given number of buckets. -/
def Softs.init (size : ℕ) (is : ℕ → Ipstate) (tq : Tq Tqid ℕ) : Softs where
  list := Mem.empty
  table := Mem.empty
  size := size
  bucketlen _ := 0
  inuse := 0
  active := 0
  orphan := 0
  wild := 0
  is := is
  alloc _ := false
  saved _ := none
  tq := tq
  userHead := none
  userNext _ := none
  userifqs := 0
  ifqAlloc _ := false

/-- A new entry with the contents `i`, on no timeout queue. -/
def Softs.malloc (w : Softs) (e : ℕ) (i : Ipstate) : Softs :=
  { w with
    is := Function.update w.is e i
    alloc := Function.update w.alloc e true
    tq := { w.tq with tqeIfq := Function.update w.tq.tqeIfq e none } }

/-- A call that edits the table. `hold` and `deref` are what other parts of the filter do with an entry
they use: they count a reference and drop it again. -/
inductive Op
  | insert (e : ℕ) (i : Ipstate) (rev full : Bool) (ticks : ℕ)
  | del (e : ℕ)
  | move (e hv : ℕ)
  | rehash (newsize : ℕ) (nomem : Bool)
  | hold (e : ℕ)
  | deref (e : ℕ)

/-- One call. An entry that could not be inserted is freed by the caller. -/
def step (seed : ℕ → ℕ) (w : Softs) : Op → Option Softs
  | .insert e i rev full ticks => do
    let (w, ok) ← ipfStateInsert (w.malloc e i) e rev full ticks
    return if ok then w else { w with alloc := Function.update w.alloc e false }
  | .del e => (ipfStateDel w e).map Prod.fst
  | .move e hv => ipfIpsmove w seed e hv
  | .rehash newsize nomem => some (ipfStateRehash w newsize nomem)
  | .hold e => some (w.upd e fun i => { i with isRef := i.isRef + 1 })
  | .deref e => ipfStateDeref w e

end Ipfilter.State
