import Ipfilter.Chain.Mem
import Ipfilter.Spec.Flags
import Ipfilter.Spec.Masks

/-!
# The fragment cache

The tables of `ip_frag.c`: for the packet filter, for NAT and for IP ids. Each table has a list of its entries, in the
order in which they were added, and a hash table.

`KMALLOC` does not clear memory, so a new entry starts with anything in its fields.
-/

namespace Ipfilter.Frag

open Chain
open Masks (Word I6addr)

def FR_LOGFIRST : Flags := 0x20000
def FR_FRSTRICT : Flags := 0x100000
def FI_FRAG : Flags := 0x0004
def FI_SHORT : Flags := 0x0008
def IPF_OPTCOPY : Word := 0x07ff00

/-- The three tables. -/
inductive Tab where
  | pkt
  | nat
  | ipid
  deriving DecidableEq

/-- The fields from `ipfr_ifp` up to `ipfr_pass`, which are compared with `bcmp`. -/
structure Key where
  ifp : ℕ
  source : I6addr
  dest : I6addr
  optmsk : Word
  secmsk : BitVec 16
  auth : BitVec 16
  id : Word
  deriving DecidableEq

/-- `ipfr_t`, without its links. -/
structure Ipfr where
  data : ℕ
  rule : Option ℕ
  ttl : ℕ
  pkts : ℕ
  bytes : ℕ
  badorder : ℕ
  ref : ℤ
  off : BitVec 16
  firstend : BitVec 16
  seen0 : Bool
  key : Key
  pass : Flags
  v : BitVec 8

/-- What is known of a packet. `finStart` is where the fragment begins in the packet: `fin_dp - fin_ip`, or behind
`fin_fraghdr` for IPv6. -/
structure FrInfo where
  finV : BitVec 8
  finP : BitVec 8
  finId : Word
  finSrc : I6addr
  finDst : I6addr
  finIfp : ℕ
  finOptmsk : Word
  finSecmsk : BitVec 16
  finAuth : BitVec 16
  finOff : BitVec 16
  finPlen : ℕ
  finDlen : ℕ
  finStart : ℕ
  finFlx : Flags
  finFr : Option ℕ

/-- `ipf_frag_softc_t`, with the clock, the entries that are allocated, `nat_data` of the NAT sessions, the flags and the
reference counts of the rules. -/
structure Softf where
  size : ℕ
  lock : Bool
  ttl : ℕ
  ticks : ℕ
  inuse : ℤ
  list : Mem Tab ℕ
  tail : Tab → Link Tab ℕ
  hash : Mem (Tab × ℕ) ℕ
  ent : ℕ → Ipfr
  alloc : ℕ → Bool
  natData : ℕ → Option ℕ
  frFlags : ℕ → Flags
  frRef : ℕ → ℤ

def Softf.upd (s : Softf) (x : ℕ) (f : Ipfr → Ipfr) : Softf := { s with ent := Function.update s.ent x (f (s.ent x)) }

/-- `KMALLOC`. -/
def Softf.malloc (s : Softf) (x : ℕ) (junk : Ipfr) : Softf :=
  { s with ent := Function.update s.ent x junk, alloc := Function.update s.alloc x true }

/-- `KFREE`. -/
def Softf.kfree (s : Softf) (x : ℕ) : Softf := { s with alloc := Function.update s.alloc x false }

/-- The fields of the packet that are compared. -/
def FrInfo.key (fin : FrInfo) : Key :=
  ⟨fin.finIfp, fin.finSrc, fin.finDst, fin.finOptmsk &&& IPF_OPTCOPY, fin.finSecmsk, fin.finAuth, fin.finId⟩

/-- The hash value. -/
def FrInfo.idx (fin : FrInfo) (size : ℕ) : ℕ :=
  (((fin.finV.setWidth 32 + fin.finP.setWidth 32 + fin.finId + fin.finSrc.i60 + fin.finDst.i60) * 127#32).toNat) % size

/-- The offset in units of 8 bytes. -/
def FrInfo.off (fin : FrInfo) : BitVec 16 := fin.finOff >>> 3

/-- The end of the fragment in bytes, from its start. -/
def FrInfo.fragEnd (fin : FrInfo) : ℤ := (fin.finPlen : ℤ) - fin.finStart

/-- `ipfr_firstend`. -/
def FrInfo.firstend (fin : FrInfo) : BitVec 16 := if fin.off = 0 then BitVec.ofInt 16 (fin.fragEnd / 8) else 0

/-- The offset where the next fragment is expected. -/
def FrInfo.next (fin : FrInfo) : BitVec 16 := fin.off + BitVec.ofNat 16 (fin.finDlen / 8)

/-! ## New entries -/

/-- The entry with the same fields in a chain, if there is one. -/
def Softf.find (s : Softf) (t : Tab) (fin : FrInfo) : Option ℕ :=
  s.hash.get (s.hash.seek (fun x => (s.ent x).key ≠ fin.key) s.inuse.toNat (.head (t, fin.idx s.size)))

/-- The checks before the memory is allocated. -/
def refuses (s : Softf) (fin : FrInfo) (pass : Flags) : Bool :=
  decide (s.size ≤ s.inuse) || decide (fin.finFlx &&& (FI_FRAG ||| FI_BAD) ≠ FI_FRAG) ||
    (has pass FR_FRSTRICT && decide (fin.finOff ≠ 0))

/-- `ipfr_frag_new`, with the memory that `KMALLOC` gives. -/
def ipfrFragNew (s : Softf) (t : Tab) (fin : FrInfo) (pass : Flags) (new : Option ℕ) (junk : Ipfr) : Softf × Option ℕ :=
  if refuses s fin pass then (s, none)
  else
    match new with
    | none => (s, none)
    | some fran =>
      let s := s.malloc fran junk
      match s.find t fin with
      | some fra => (s.kfree fra, none)
      | none =>
        let s := match fin.finFr with
          | none => s
          | some fr => { s with frRef := Function.update s.frRef fr (s.frRef fr + 1) }
        let s := { s with hash := s.hash.link fran (.head (t, fin.idx s.size)) }
        let s := s.upd fran fun e =>
          { e with
            data := 0, rule := fin.finFr, key := fin.key, v := fin.finV, ttl := s.ticks + s.ttl
            firstend := fin.firstend, seen0 := if fin.off = 0 then true else e.seen0, off := fin.next, pass := pass
            ref := 1, pkts := 1, bytes := fin.finPlen }
        ({ s with inuse := s.inuse + 1 }, some fran)

/-- The entry joins the list of its table at the end. -/
def Softf.append (s : Softf) (t : Tab) (fra : ℕ) : Softf :=
  { s with
    list := ((s.list.set (s.tail t) (some fra)).setP fra (some (s.tail t))).set (.next fra) none
    tail := Function.update s.tail t (.next fra) }

/-- `ipf_frag_new`: whether there is a new entry. -/
def ipfFragNew (s : Softf) (fin : FrInfo) (pass : Flags) (new : Option ℕ) (junk : Ipfr) : Softf × Bool :=
  if s.lock then (s, false)
  else
    match ipfrFragNew s .pkt fin pass new junk with
    | (s, none) => (s, false)
    | (s, some fra) => (s.append .pkt fra, true)

/-- `ipf_frag_natnew`. -/
def ipfFragNatnew (s : Softf) (fin : FrInfo) (pass : Flags) (nat : ℕ) (new : Option ℕ) (junk : Ipfr) : Softf × Bool :=
  if s.lock then (s, true)
  else
    match ipfrFragNew s .nat fin pass new junk with
    | (s, none) => (s, false)
    | (s, some fra) =>
      let s := s.upd fra fun e => { e with data := nat }
      (({ s with natData := Function.update s.natData nat (some fra) }).append .nat fra, true)

/-- `ipf_frag_ipidnew`. -/
def ipfFragIpidnew (s : Softf) (fin : FrInfo) (ipid : Word) (new : Option ℕ) (junk : Ipfr) : Softf × Bool :=
  if s.lock then (s, true)
  else
    match ipfrFragNew s .ipid fin 0 new junk with
    | (s, none) => (s, false)
    | (s, some fra) => ((s.upd fra fun e => { e with data := ipid.toNat }).append .ipid fra, true)

/-! ## Lookups -/

/-- What a lookup does with an entry that has the same fields. -/
inductive Offer where
  | hit
  | skip
  | bad
  deriving DecidableEq

/-- The entry goes to the front of its chain. -/
def Softf.front (s : Softf) (b : Tab × ℕ) (f : ℕ) : Softf :=
  if s.hash.head b = some f then s
  else
    match s.hash.pnext f with
    | none => s
    | some fp =>
      let m := (s.hash.set fp (s.hash.next f)).setP? (s.hash.next f) (some fp)
      let m := (m.set (.next f) (m.head b)).setP? (m.head b) (some (.next f))
      { s with hash := (m.setP f (some (.head b))).set (.head b) (some f) }

/-- An entry with the same fields as the packet. -/
def offer (s : Softf) (b : Tab × ℕ) (fin : FrInfo) (f : ℕ) : Softf × Offer :=
  let e := s.ent f
  if e.seen0 && decide (fin.off = 0) then (s, .skip)
  else if e.seen0 && decide (e.firstend ≠ 0) && decide (fin.off < e.firstend) then (s, .bad)
  else
    let s := if !e.seen0 && decide (fin.off = 0) then s.upd f fun e => { e with seen0 := true } else s
    let s := s.front b f
    if fin.off = e.off then
      (s.upd f fun e => { e with off := fin.next, pkts := e.pkts + 1, bytes := e.bytes + fin.finPlen }, .hit)
    else
      let s := s.upd f fun e => { e with badorder := e.badorder + 1 }
      if has e.pass FR_FRSTRICT then (s, .skip)
      else (s.upd f fun e => { e with pkts := e.pkts + 1, bytes := e.bytes + fin.finPlen }, .hit)

/-- What is left after a lookup. -/
structure Looked where
  softf : Softf
  fin : FrInfo
  found : Option ℕ

/-- The loop of `ipf_frag_lookup`. -/
def lookupLoop (b : Tab × ℕ) (fin : FrInfo) : ℕ → Softf → Option ℕ → Looked
  | 0, s, _ => ⟨s, fin, none⟩
  | _ + 1, s, none => ⟨s, fin, none⟩
  | fuel + 1, s, some f =>
    if (s.ent f).key = fin.key then
      match offer s b fin f with
      | (s, .hit) => ⟨s, fin, some f⟩
      | (s, .skip) => lookupLoop b fin fuel s (s.hash.next f)
      | (s, .bad) => ⟨s, { fin with finFlx := fin.finFlx ||| FI_BAD }, none⟩
    else lookupLoop b fin fuel s (s.hash.next f)

/-- `ipf_frag_lookup`. An entry that was moved to the front is followed by the chain from its start, so the loop makes at
most two rounds. -/
def ipfFragLookup (s : Softf) (t : Tab) (fin : FrInfo) : Looked :=
  if has fin.finFlx FI_SHORT || has fin.finFlx FI_BAD then ⟨s, fin, none⟩
  else
    let b := (t, fin.idx s.size)
    lookupLoop b fin (2 * s.inuse.toNat + 1) s (s.hash.head b)

/-- What `ipf_frag_known` returns: the rule, which may be none, and the flags for `passp`. -/
structure Known where
  softf : Softf
  fin : FrInfo
  fr : Option ℕ
  pass : Option Flags

/-- The flags of the rule, as `ipf_frag_known` passes them on. -/
def knownPass (pass : Flags) : Flags :=
  let pass := if has pass FR_KEEPSTATE then pass &&& ~~~FR_KEEPSTATE else pass
  if has pass FR_LOGFIRST then pass &&& ~~~(FR_LOGFIRST ||| FR_LOG) else pass

/-- `ipf_frag_known`. A lookup that marks the packet as bad finds nothing, so the branch for `ipfr_block` is never
taken. -/
def ipfFragKnown (s : Softf) (fin : FrInfo) : Known :=
  if s.lock || decide (s.list.head .pkt = none) then ⟨s, fin, none, none⟩
  else
    let l := ipfFragLookup s .pkt fin
    match l.found with
    | none => ⟨l.softf, l.fin, none, none⟩
    | some fra =>
      match (l.softf.ent fra).rule with
      | none => ⟨l.softf, { l.fin with finFr := none }, none, none⟩
      | some fr =>
        let flags := l.softf.frFlags fr
        let flx := if has flags FR_KEEPSTATE then l.fin.finFlx ||| FI_STATE else l.fin.finFlx
        ⟨l.softf, { l.fin with finFr := some fr, finFlx := flx }, some fr, some (knownPass flags)⟩

/-- `ipf_frag_natknown`: the session, or 0. -/
def ipfFragNatknown (s : Softf) (fin : FrInfo) : Softf × ℕ :=
  if s.lock || decide (s.list.head .nat = none) then (s, 0)
  else
    let l := ipfFragLookup s .nat fin
    match l.found with
    | none => (l.softf, 0)
    | some fra =>
      let nat := (l.softf.ent fra).data
      if (l.softf.ent fra).ttl = l.softf.ticks + 1 ∧ nat ≠ 0 then
        (({ l.softf with natData := Function.update l.softf.natData nat none }).upd fra fun e => { e with data := 0 }, nat)
      else (l.softf, nat)

/-- `ipf_frag_ipidknown`. -/
def ipfFragIpidknown (s : Softf) (fin : FrInfo) : Softf × Word :=
  if s.lock || decide (s.list.head .ipid = none) then (s, 0xffffffff)
  else
    let l := ipfFragLookup s .ipid fin
    match l.found with
    | none => (l.softf, 0xffffffff)
    | some fra => (l.softf, BitVec.ofNat 32 (l.softf.ent fra).data)

/-! ## Entries leave -/

/-- `ipf_frag_free`. -/
def ipfFragFree (s : Softf) (fra : ℕ) : Softf := { s.kfree fra with inuse := s.inuse - 1 }

/-- The entry leaves the list of its table. -/
def Softf.unlist (s : Softf) (t : Tab) (fra : ℕ) : Softf :=
  match s.list.pnext fra with
  | none => s
  | some k =>
    { s with
      list := (s.list.setP? (s.list.next fra) (some k)).set k (s.list.next fra)
      tail := if s.tail t = .next fra then Function.update s.tail t k else s.tail }

/-- The entry leaves its hash chain. -/
def Softf.unhash (s : Softf) (fra : ℕ) : Softf :=
  match s.hash.pnext fra with
  | none => s
  | some k => { s with hash := (s.hash.setP? (s.hash.next fra) (some k)).set k (s.hash.next fra) }

/-- `ipf_derefrule` on `ipfr_rule`, which is cleared. -/
def Softf.derefrule (s : Softf) (fra : ℕ) : Softf :=
  match (s.ent fra).rule with
  | none => s
  | some fr => ({ s with frRef := Function.update s.frRef fr (s.frRef fr - 1) }).upd fra fun e => { e with rule := none }

/-- `ipf_frag_delete`. -/
def ipfFragDelete (s : Softf) (t : Tab) (fra : ℕ) : Softf :=
  let s := ((s.unlist t fra).unhash fra).derefrule fra
  if (s.ent fra).ref ≤ 0 then ipfFragFree s fra else s

/-- The first entry of a list is dropped. For NAT, the session forgets the entry first. -/
def Softf.drop (s : Softf) (t : Tab) (fra : ℕ) : Softf :=
  let nat := (s.ent fra).data
  let s := if t = .nat ∧ nat ≠ 0 ∧
      s.natData nat = some fra then { s with natData := Function.update s.natData nat none } else s
  ipfFragDelete (s.upd fra fun e => { e with ref := e.ref - 1 }) t fra

/-- The entries at the start of a list are dropped, as long as `p` holds of them. -/
def reap (p : Ipfr → Bool) (t : Tab) : ℕ → Softf → Softf
  | 0, s => s
  | fuel + 1, s =>
    match s.list.head t with
    | none => s
    | some fra => if p (s.ent fra) then reap p t fuel (s.drop t fra) else s

/-- `ipf_frag_clear`. The table for IP ids is left alone. -/
def ipfFragClear (s : Softf) : Softf :=
  let s := reap (fun _ => true) .pkt s.inuse.toNat s
  let s := { s with tail := Function.update s.tail .pkt (.head .pkt) }
  let s := reap (fun _ => true) .nat s.inuse.toNat s
  { s with tail := Function.update s.tail .nat (.head .nat) }

/-- `ipf_frag_expire`. -/
def ipfFragExpire (s : Softf) : Softf :=
  if s.lock then s
  else
    let p := fun e : Ipfr => decide (e.ttl ≤ s.ticks)
    let s := reap p .pkt s.inuse.toNat s
    let s := reap p .ipid s.inuse.toNat s
    if s.list.head .nat = none then s else reap p .nat s.inuse.toNat s

/-- The loop of `ipf_frag_natforget`. -/
def forgetLoop (ptr : ℕ) : ℕ → Softf → Option ℕ → Softf
  | 0, s, _ => s
  | _ + 1, s, none => s
  | fuel + 1, s, some fr =>
    let s := if (s.ent fr).data = ptr then s.upd fr fun e => { e with data := 0 } else s
    forgetLoop ptr fuel s (s.list.next fr)

/-- `ipf_frag_natforget`. -/
def ipfFragNatforget (s : Softf) (ptr : ℕ) : Softf := forgetLoop ptr s.inuse.toNat s (s.list.head .nat)

/-! ## Iterators -/

/-- `ipf_frag_deref`, called with the soft context of the fragment cache. -/
def ipfFragDeref (s : Softf) (fra : ℕ) : Softf :=
  let s := s.upd fra fun e => { e with ref := e.ref - 1 }
  if (s.ent fra).ref ≤ 0 then ipfFragFree s fra else s

/-- `ipf_frag_deref` as `ipf_frag_next` calls it: with the main soft context in place of the one of the fragment cache, so
the entry is freed and the count is taken off somewhere else. -/
def ipfFragDerefMain (s : Softf) (fra : ℕ) : Softf :=
  let s := s.upd fra fun e => { e with ref := e.ref - 1 }
  if (s.ent fra).ref ≤ 0 then s.kfree fra else s

/-- A cache with its iterators: what `ipt_data` of a token for a table points at, and whether it is complete. -/
structure Sys where
  softf : Softf
  tok : Tab × ℕ → Option ℕ
  done : Tab × ℕ → Bool

/-- The request of an iterator. -/
structure Geniter where
  data : Bool
  nitems : ℕ
  copyout : Bool

/-- `ipf_frag_next`: the new state and the error. -/
def ipfFragNext (w : Sys) (t : Tab) (i : ℕ) (itp : Geniter) : Sys × ℕ :=
  if !itp.data then (w, EFAULT)
  else if itp.nitems ≠ 1 then (w, EFAULT)
  else
    let frag := w.tok (t, i)
    let next := match frag with
      | none => w.softf.list.head t
      | some f => w.softf.list.next f
    let s := match next with
      | none => w.softf
      | some n => w.softf.upd n fun e => { e with ref := e.ref + 1 }
    let last := match next with
      | none => true
      | some n => decide (s.list.next n = none)
    let done := if last then Function.update w.done (t, i) true else w.done
    let s := match frag with
      | none => s
      | some f => ipfFragDerefMain s f
    (⟨s, Function.update w.tok (t, i) next, done⟩, if itp.copyout then 0 else EFAULT)

/-- A token goes away: `ipf_frag_pkt_deref` or `ipf_frag_nat_deref`, if it points at an entry. -/
def closeToken (w : Sys) (t : Tab) (i : ℕ) : Sys :=
  match w.tok (t, i) with
  | none => w
  | some f => { w with softf := ipfFragDeref w.softf f, tok := Function.update w.tok (t, i) none }

/-! ## Runs -/

/-- An empty cache. -/
def init (size ttl : ℕ) (ent : ℕ → Ipfr) (frFlags : ℕ → Flags) : Sys where
  softf :=
    { size := size, lock := false, ttl := ttl, ticks := 0, inuse := 0, list := Mem.empty, tail := .head, hash := Mem.empty
      ent := ent, alloc := fun _ => false, natData := fun _ => none, frFlags := frFlags, frRef := fun _ => 0 }
  tok _ := none
  done _ := false

/-- A call. -/
inductive Op where
  | new (fin : FrInfo) (pass : Flags) (new : Option ℕ) (junk : Ipfr)
  | natnew (fin : FrInfo) (pass : Flags) (nat : ℕ) (new : Option ℕ) (junk : Ipfr)
  | ipidnew (fin : FrInfo) (ipid : Word) (new : Option ℕ) (junk : Ipfr)
  | known (fin : FrInfo)
  | natknown (fin : FrInfo)
  | ipidknown (fin : FrInfo)
  | natforget (ptr : ℕ)
  | clear
  | expire
  | setlock (lock : Bool)
  | tick
  | next (t : Tab) (i : ℕ) (itp : Geniter)
  | close (t : Tab) (i : ℕ)

def step (w : Sys) : Op → Sys
  | .new fin pass new junk => { w with softf := (ipfFragNew w.softf fin pass new junk).1 }
  | .natnew fin pass nat new junk => { w with softf := (ipfFragNatnew w.softf fin pass nat new junk).1 }
  | .ipidnew fin ipid new junk => { w with softf := (ipfFragIpidnew w.softf fin ipid new junk).1 }
  | .known fin => { w with softf := (ipfFragKnown w.softf fin).softf }
  | .natknown fin => { w with softf := (ipfFragNatknown w.softf fin).1 }
  | .ipidknown fin => { w with softf := (ipfFragIpidknown w.softf fin).1 }
  | .natforget ptr => { w with softf := ipfFragNatforget w.softf ptr }
  | .clear => { w with softf := ipfFragClear w.softf }
  | .expire => { w with softf := ipfFragExpire w.softf }
  | .setlock lock => { w with softf := { w.softf with lock := lock } }
  | .tick => { w with softf := { w.softf with ticks := w.softf.ticks + 1 } }
  | .next t i itp => (ipfFragNext w t i itp).1
  | .close t i => closeToken w t i

end Ipfilter.Frag
