import Ipfilter.Chain.Lists
import Ipfilter.Spec.Masks

/-!
# Host maps

`ipf_nat_hostmap` of `ip_nat.c` and `ipf_nat6_hostmap` of `ip_nat6.c`, which find or make the host map (`hostmap_t`) of a rule
and a pair of addresses, with `ipf_nat_hostmapdel` and `ipf_nat_hostmap_rehash`. Both versions share one hash table, and
one list of all host maps.

A function that looks for a host map also gives the host maps that its loop looked at. `none` is a loop without end, or a step
outside of the memory that the code may use. Counters of events are left out.
-/

namespace Ipfilter.Hostmaps

open Chain
open Masks (Word I6addr ip6Eq)

/-! ## Data -/

/-- `HOSTMAP_SIZE`, which depends on whether `LARGE_NAT` is defined. -/
def HOSTMAP_SIZE (largeNat : Bool) : ℕ := if largeNat then 8191 else 2047

/-- `hostmap_t`. An IPv4 address is the first word of a union. -/
structure Hostmap where
  hmIpnat : ℕ
  hmOsrcip6 : I6addr
  hmOdstip6 : I6addr
  hmNsrcip6 : I6addr
  hmNdstip6 : I6addr
  hmPort : Word
  hmRef : ℤ
  hmHv : Word
  hmV : ℕ
  deriving DecidableEq

/-- The first word is stored, the other ones of the union stay. -/
def setIn4 (a : I6addr) (x : Word) : I6addr := { a with i60 := x }

/-- `ipf_nat_softc_t`: the table and the list of host maps, the host maps themselves (`alloc` are those that are allocated),
and the rules, of which only the reference count matters here. -/
structure Softn where
  largeNat : Bool
  maptable : Mem ℕ ℕ
  maplist : Mem Unit ℕ
  hostmapSz : ℕ
  hm : ℕ → Hostmap
  alloc : List ℕ
  inUse : ℕ → ℤ
  live : ℕ → Bool

def Softn.updHm (w : Softn) (x : ℕ) (f : Hostmap → Hostmap) : Softn := { w with hm := Function.update w.hm x (f (w.hm x)) }

/-- `hm_ref` goes up by `k`. -/
def Hostmap.addRef (k : ℤ) (hm : Hostmap) : Hostmap := { hm with hmRef := hm.hmRef + k }

/-- `in_use` of a rule goes up by `k`. -/
def Softn.addUse (w : Softn) (n : ℕ) (k : ℤ) : Softn := { w with inUse := Function.update w.inUse n (w.inUse n + k) }

/-- What a function is asked for: the rule, which may be NULL, the addresses and the port. `new` is what `KMALLOC` returns,
and what this memory holds. -/
structure Request (α : Type) where
  np : Option ℕ
  src : α
  dst : α
  map : α
  port : Word
  new : Option (ℕ × Hostmap)

/-! ## The loops of both versions -/

/-- The hash value of `ipf_nat_hostmap`. -/
def hash4 (src dst : Word) : Word := (src ^^^ dst) + src + dst

/-- The hash value of `ipf_nat6_hostmap`, before it is reduced. -/
def hash6 (src dst : I6addr) : Word :=
  (src.i63 ^^^ dst.i63) + (src.i62 ^^^ dst.i62) + (src.i61 ^^^ dst.i61) + (src.i60 ^^^ dst.i60) +
    src.i63 + src.i62 + src.i61 + src.i60 + dst.i63 + dst.i62 + dst.i61 + dst.i60

/-- The part of the tests that both versions share. -/
def Hostmap.serves (hm : Hostmap) (np : Option ℕ) (port : Word) : Bool :=
  (np = none ∨ np = some hm.hmIpnat) ∧ (port = 0 ∨ port = hm.hmPort)

/-- The test of `ipf_nat_hostmap`. -/
def Hostmap.fits4 (hm : Hostmap) (r : Request Word) : Bool :=
  decide (hm.hmOsrcip6.i60 = r.src) && decide (hm.hmOdstip6.i60 = r.dst) && hm.serves r.np r.port

/-- The test of `ipf_nat6_hostmap`. -/
def Hostmap.fits6 (hm : Hostmap) (r : Request I6addr) : Bool :=
  ip6Eq hm.hmOsrcip6 r.src && ip6Eq hm.hmOdstip6 r.dst && hm.serves r.np r.port

/-- A loop over host maps that follows the pointers `next`: those that it looks at, and the first one that fits. -/
def walk (next : ℕ → Option ℕ) (fits : ℕ → Bool) : ℕ → Option ℕ → Option (List ℕ × Option ℕ)
  | _, none => some ([], none)
  | 0, some _ => none
  | i + 1, some x => if fits x then some ([x], some x) else (walk next fits i (next x)).map fun r => (x :: r.1, r.2)

/-- A new host map: it goes to the front of the list and of the bucket `hv`, and holds its rule. -/
def Softn.create (w : Softn) (hv n x : ℕ) (hm : Hostmap) : Softn :=
  { w.addUse n 1 with
    maplist := w.maplist.link x (.head ())
    maptable := w.maptable.link x (.head hv)
    hm := Function.update w.hm x hm
    alloc := x :: w.alloc }

/-- What both versions do with the bucket `hv`: `next` is the pointer that the loop follows, `fill` what is stored in a new
host map. -/
def Softn.request {α : Type} (w : Softn) (r : Request α) (hv : ℕ) (next : ℕ → Option ℕ) (fits : Hostmap → Bool)
    (fill : ℕ → Hostmap → Hostmap) : Option (Softn × List ℕ × Option ℕ) :=
  if w.hostmapSz ≤ hv then none
  else
    match walk next (fun x => fits (w.hm x)) w.alloc.length (w.maptable.head hv) with
    | none => none
    | some (visited, some x) => some (w.updHm x (.addRef 1), visited, some x)
    | some (visited, none) =>
      match r.np, r.new with
      | some n, some (x, old) => some (w.create hv n x (fill n old), visited, some x)
      | _, _ => some (w, visited, none)

/-! ## The functions -/

/-- `ipf_nat_hostmap` -/
def ipfNatHostmap (w : Softn) (r : Request Word) : Option (Softn × List ℕ × Option ℕ) :=
  let rhv := hash4 r.src r.dst
  let hv := rhv.toNat % w.hostmapSz
  w.request r hv w.maptable.next (·.fits4 r) fun n old =>
    { hmIpnat := n
      hmOsrcip6 := setIn4 old.hmOsrcip6 r.src
      hmOdstip6 := setIn4 old.hmOdstip6 r.dst
      hmNsrcip6 := setIn4 old.hmNsrcip6 r.map
      hmNdstip6 := setIn4 old.hmNdstip6 0
      hmPort := r.port
      hmRef := 1
      hmHv := rhv
      hmV := 4 }

/-- `ipf_nat6_hostmap`: the hash value is reduced by the constant, and the loop follows the list of all host maps. -/
def ipfNat6Hostmap (w : Softn) (r : Request I6addr) : Option (Softn × List ℕ × Option ℕ) :=
  let hv := (hash6 r.src r.dst).toNat % HOSTMAP_SIZE w.largeNat
  w.request r hv w.maplist.next (·.fits6 r) fun n _ =>
    { hmIpnat := n
      hmOsrcip6 := r.src
      hmOdstip6 := r.dst
      hmNsrcip6 := r.map
      hmNdstip6 := .zero
      hmPort := r.port
      hmRef := 1
      hmHv := hv
      hmV := 6 }

/-- `ipf_nat_rule_deref`, as far as host maps see it. -/
def ipfNatRuleDeref (w : Softn) (n : ℕ) : Option Softn :=
  if w.live n = false then none
  else
    let w := w.addUse n (-1)
    if w.inUse n > 0 then some w else some { w with live := Function.update w.live n false }

/-- Take a node out without touching its own fields: `if (x->next) x->next->pnext = x->pnext; *x->pnext = x->next`. -/
def bypass {H : Type} [DecidableEq H] (m : Mem H ℕ) (x : ℕ) : Option (Mem H ℕ) :=
  (m.pnext x).map fun k => (m.setP? (m.next x) (some k)).set k (m.next x)

/-- `ipf_nat_hostmapdel` -/
def ipfNatHostmapdel (w : Softn) (x : ℕ) : Option Softn :=
  if x ∉ w.alloc then none
  else
    let w := w.updHm x (.addRef (-1))
    if (w.hm x).hmRef = 0 then do
      let w ← ipfNatRuleDeref w (w.hm x).hmIpnat
      let maptable ← bypass w.maptable x
      let maplist ← bypass w.maplist x
      return { w with maptable := maptable, maplist := maplist, alloc := w.alloc.erase x }
    else some w

/-- The loop of `ipf_nat_hostmap_rehash`. -/
def rehashLoop : ℕ → Option ℕ → Softn → Option Softn
  | _, none, w => some w
  | 0, some _, _ => none
  | i + 1, some x, w =>
    let hv := (w.hm x).hmHv.toNat % w.hostmapSz
    rehashLoop i (w.maplist.next x) { w with maptable := w.maptable.link x (.head hv) }

/-- `ipf_nat_hostmap_rehash`. `nomem` is whether there is no memory for the new table. -/
def ipfNatHostmapRehash (w : Softn) (newsize : ℕ) (nomem : Bool) : Option Softn :=
  if newsize = w.hostmapSz ∨ nomem then some w
  else rehashLoop w.alloc.length (w.maplist.head ())
    { w with maptable := { w.maptable with head := fun _ => none }, hostmapSz := newsize }

/-! ## Steps -/

/-- What is done: the four functions, and what else is done to a rule. A rule is loaded, a reference to it is taken, and one
is given back. -/
inductive Op where
  | hostmap (r : Request Word)
  | hostmap6 (r : Request I6addr)
  | hostmapdel (x : ℕ)
  | rehash (newsize : ℕ) (nomem : Bool)
  | load (n : ℕ)
  | hold (n : ℕ)
  | release (n : ℕ)

/-- A step, with the host maps that its loop looked at and the one that it returned. -/
def step (w : Softn) : Op → Option (Softn × List ℕ × Option ℕ)
  | .hostmap r => ipfNatHostmap w r
  | .hostmap6 r => ipfNat6Hostmap w r
  | .hostmapdel x => (ipfNatHostmapdel w x).map fun w => (w, [], none)
  | .rehash newsize nomem => (ipfNatHostmapRehash w newsize nomem).map fun w => (w, [], none)
  | .load n => some ({ w with inUse := Function.update w.inUse n 1, live := Function.update w.live n true }, [], none)
  | .hold n => some (w.addUse n 1, [], none)
  | .release n => (ipfNatRuleDeref w n).map fun w => (w, [], none)

/-- No host maps and no rules. -/
def init (largeNat : Bool) (size : ℕ) (hm : ℕ → Hostmap) : Softn :=
  ⟨largeNat, .empty, .empty, size, hm, [], fun _ => 0, fun _ => false⟩

end Ipfilter.Hostmaps
