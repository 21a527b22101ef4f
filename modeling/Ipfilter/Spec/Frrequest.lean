import Ipfilter.Spec.Rules

/-!
# `frrequest`

The whole of `frrequest` in `fil.c`, with what it calls: `ipf_group_add`, `ipf_group_del`,
`ipf_funcinit`, `ipf_findlookup`, `ipf_synclist`, `ipf_resolvedest` and `ipf_derefrule`. The part
under the write lock is `Rules.frLocked`.

Groups and lookup objects are memory: `group` and `tab` give what is stored at an address, and
nothing is stored at an address that is not in use.
-/

namespace Ipfilter.Frrequest

open Chain Rules

/-! ## Lookup objects -/

abbrev Obj := ℕ

/-- The devices whose ioctls come here, and the one for accounting rules. -/
inductive Dev where
  | logipf
  | logauth
  | logcount
  deriving DecidableEq, Repr

/-- The backends of `ip_lookup.c`. -/
inductive LookupType where
  | pool
  | hash
  | dstlist
  deriving DecidableEq, Repr

/-- A pool, a hash table or a destination list, of this device or of one (`none`) that no rules are loaded for. It has a
reference for being configured, so that there is always one. `delete` is `IPOOL_DELETE` or `IPHASH_DELETE`; a pool that is to be
deleted is still there for being in use. -/
structure Table where
  unit : Option Dev
  type : LookupType
  name : List Char
  inout : Flags
  delete : Bool
  ref : ℕ
  ref_pos : 0 < ref
  ref_delete : type = .pool → delete = true → 1 < ref

/-- All tables, in the order in which they are searched. -/
structure Lookups where
  objs : List Obj
  tab : Obj → Option Table

/-- `IPLT_*`, of those for which there is a backend. -/
def backend : ℕ → Option LookupType
  | 1 => some .pool
  | 2 => some .hash
  | 3 => some .dstlist
  | _ => none

/-- `ipf_pool_exists`, `ipf_htable_exists` and `ipf_dstlist_table_find`: the first table of this name, on any device if `unit`
is `none`. -/
def Lookups.exist (l : Lookups) (type : LookupType) (unit : Option Dev) (name : List Char) : Option Obj :=
  l.objs.find? fun o => (l.tab o).any fun t =>
    t.type = type ∧ (unit = none ∨ t.unit = unit) ∧ t.name.take 16 = name.take 16

/-- A table that is not marked for deletion. -/
def Lookups.live (l : Lookups) (o : Obj) : Bool := (l.tab o).any fun t => !t.delete

/-- `ipf_pool_find` -/
def ipfPoolFind (l : Lookups) (unit : Option Dev) (name : List Char) : Option Obj := (l.exist .pool unit name).filter l.live

/-- `ipf_htable_find` -/
def ipfHtableFind (l : Lookups) (unit : Option Dev) (name : List Char) : Option Obj := (l.exist .hash unit name).filter l.live

/-- What `ipf_pool_select_add_ref`, `ipf_htable_select_add_ref` and `ipf_dstlist_select_ref` find. Pools are looked for on any
device first. A hash table is found when it is to be deleted, too. -/
def Lookups.find (l : Lookups) (type : LookupType) (unit : Dev) (name : List Char) : Option Obj :=
  match type with
  | .pool => ipfPoolFind l none name <|> ipfPoolFind l (some unit) name
  | .hash => l.exist .hash (some unit) name
  | .dstlist => l.exist .dstlist (some unit) name

def Table.incr (t : Table) : Table := { t with
  ref := t.ref + 1
  ref_pos := Nat.succ_pos _
  ref_delete := fun ht hd => Nat.lt_succ_of_lt (t.ref_delete ht hd) }

/-- A table goes away with its last reference, a pool that is to be deleted with the last but one. -/
def Table.decr (t : Table) : Option Table :=
  if h : 1 < t.ref ∧ (t.type = .pool → t.delete = true → 2 < t.ref) then some { t with
    ref := t.ref - 1
    ref_pos := by omega
    ref_delete := fun ht hd => by have := h.2 ht hd; omega }
  else none

def Lookups.addRef (l : Lookups) (o : Obj) : Lookups :=
  { l with tab := Function.update l.tab o ((l.tab o).map Table.incr) }

/-- `ipf_lookup_deref` -/
def ipfLookupDeref (l : Lookups) (type : ℕ) (ptr : Option Obj) : Lookups :=
  match ptr, backend type with
  | some o, some _ => { l with tab := Function.update l.tab o ((l.tab o).bind Table.decr) }
  | _, _ => l

/-- `ipf_lookup_res_name`; the last result is whether `*funcptr` is set afterwards. -/
def ipfLookupResName (l : Lookups) (unit : Dev) (type : ℕ) (name : List Char) (func : Bool) :
    Lookups × Option Obj × Bool :=
  match backend type with
  | none => (l, none, false)
  | some b =>
    match l.find b unit name with
    | none => (l, none, func)
    | some o => (l.addRef o, some o, true)

/-! ## Rules as they come in -/

/-- `fr_satype` and `fr_datype` -/
inductive Satype where
  | normal
  | lookup
  | ifaddr
  | other
  deriving DecidableEq, Repr

/-- The source or the destination part of `fripf_t`. `func` is whether the place of the search
function holds something. -/
structure Side where
  satype : Satype
  ifpidx : ℤ
  subtype : ℕ
  type : ℕ
  num : ℕ
  name : ℤ
  func : Bool
  ptr : Option Obj
  deriving DecidableEq, Repr

inductive FrType where
  | none
  | ipf
  | callfunc
  | compipf
  | ipfexpr
  | other
  deriving DecidableEq, Repr

inductive Family where
  | unspec
  | inet
  | inet6
  | other
  deriving DecidableEq, Repr

/-- `frdest_t`; `ptr` is whether `fd_ptr` is set. -/
structure Frdest where
  fdName : ℤ
  dstlist : Bool
  ptr : Bool
  deriving DecidableEq, Repr

/-- The fields of a rule that a request looks at. `uptr` is whether `fr_data` is set, and `view`
what it shows before the data is copied, if it can be read at all. -/
structure Rule where
  c : Frentry
  frType : FrType
  builtin : Bool
  frFamily : Family
  uptr : Bool
  view : Option (Side × Side)
  frArg : ℤ
  frFlx : Flags
  frIcmphead : ℤ
  frGrhead : ℤ
  frGroup : ℤ
  frNames : List Char
  src : Side
  dst : Side
  tif : Frdest
  rif : Frdest
  dif : Frdest
  frGrp : Option ℕ

/-- What the rest of the kernel answers: copying in and out, and memory. -/
structure Env where
  inobj : Option ℕ
  fp : Option Addr
  inobjsz : Option ℕ
  fg : Option ℕ
  fgIcmp : Option ℕ
  fgHead : Option ℕ
  data : Bool
  copyin : Bool
  sizeofFripf : ℕ
  exprOk : Bool
  new : Option Addr
  outobj : Option ℕ

/-! ## Groups -/

/-- `frgroup_t`. `fg_start` is the head `.group` of the rule lists. -/
structure Frgroup where
  unit : Dev
  set : Fin 2
  fgName : List Char
  fgFlags : Flags
  fgRef : ℤ
  fgHead : Option Addr
  deriving DecidableEq, Repr

/-- What a loaded rule holds references to. -/
structure Held where
  func : Option Obj
  dests : List (Option Obj)
  src : Option (ℕ × Obj)
  dst : Option (ℕ × Obj)
  groups : List ℕ
  deriving DecidableEq, Repr

structure Softc where
  rules : Rules.Softc
  groups : Dev → Fin 2 → List ℕ
  group : ℕ → Option Frgroup
  lookups : Lookups
  held : Addr → Held

/-- `ipf_findgroup` -/
def ipfFindgroup (s : Softc) (group : List Char) (unit : Dev) (set : Fin 2) : Option ℕ :=
  (s.groups unit set).find? fun id => (s.group id).any fun fg => group.take 16 = fg.fgName.take 16

/-- A list of groups after an edit. -/
def Softc.setGroups (s : Softc) (unit : Dev) (set : Fin 2) (l : List ℕ) : Softc :=
  { s with groups := Function.update s.groups unit (Function.update (s.groups unit) set l) }

/-- `ipf_group_add`; `new` is memory for a group. -/
def ipfGroupAdd (s : Softc) (group : List Char) (head : Option Addr) (flags : Flags) (unit : Dev) (set : Fin 2)
    (new : Option ℕ) : Softc × Option ℕ :=
  if unit = .logipf ∧ group = [] then (s, none)
  else
    let gflags := flags &&& FR_INOUT
    match ipfFindgroup s group unit set with
    | some id =>
      match s.group id with
      | none => (s, none)
      | some fg =>
        let fg := { fg with fgHead := fg.fgHead <|> head }
        if fg.fgFlags = 0 then
          ({ s with group := Function.update s.group id (some { fg with fgFlags := gflags, fgRef := fg.fgRef + 1 }) },
            some id)
        else if gflags ≠ fg.fgFlags then ({ s with group := Function.update s.group id (some fg) }, none)
        else ({ s with group := Function.update s.group id (some { fg with fgRef := fg.fgRef + 1 }) }, some id)
    | none =>
      match new with
      | none => (s, none)
      | some id =>
        ({ s.setGroups unit set (s.groups unit set ++ [id]) with
          group := Function.update s.group id (some ⟨unit, set, group, gflags, 1, head⟩) }, some id)

/-- `ipf_group_del`, with `ipf_group_free` -/
def ipfGroupDel (s : Softc) (id : ℕ) (fr : Addr) : Softc :=
  match s.group id with
  | none => s
  | some fg =>
    let fg := { fg with fgHead := if fg.fgHead = some fr then none else fg.fgHead, fgRef := fg.fgRef - 1 }
    if fg.fgRef = 0 ∧ s.rules.mem.head (.group id) = none then
      { s.setGroups fg.unit fg.set ((s.groups fg.unit fg.set).erase id) with
        group := Function.update s.group id none }
    else { s with group := Function.update s.group id (some fg) }

/-! ## The steps of `frrequest` -/

/-- How a request ends: with or without an error, by following a NULL group, or by another bad
pointer. -/
inductive Outcome where
  | ok (s : Softc)
  | err (e : ℕ) (s : Softc)
  | nullGroup
  | fault

def adds : Req → Bool
  | .add | .insert => true
  | _ => false

/-- `ipf_availfuncs` -/
def ipfSrcgrpmap : ℕ := 1
def ipfDstgrpmap : ℕ := 2

/-- `(ipfunc_t)-1` -/
def BADFUNC : ℕ := 0xffffffffffffffff

def NUL : Char := Char.ofNat 0

/-- `FR_NAME` -/
def frName (names : List Char) (i : ℤ) : List Char := (names.drop i.toNat).takeWhile (· ≠ NUL)

/-- A name `0` stands for none. -/
def zeroName (names : List Char) (i : ℤ) : List Char :=
  if i ≠ -1 ∧ frName names i = ['0'] then names.set i.toNat NUL else names

/-- A place of a name that is neither unused nor inside the names. -/
def badName (names : List Char) (i : ℤ) : Bool := i ≠ -1 ∧ (i < 0 ∨ (names.length : ℤ) ≤ i)

/-- The checks up to the function of the rule. -/
def check1 (r : Rule) (makecopy : Bool) : Option ℕ :=
  if (r.c.frDsize = 0 ∧ r.uptr = true) ∨ (r.c.frDsize ≠ 0 ∧ r.uptr = false) then some EINVAL
  else if r.frFamily = .other then some EINVAL
  else if makecopy ∧ r.c.frFunc ≠ 0 ∧ r.c.frFunc ≠ ipfSrcgrpmap ∧ r.c.frFunc ≠ ipfDstgrpmap then some ESRCH
  else none

/-- `ipf_grpmapinit` -/
def ipfGrpmapinit (l : Lookups) (r : Rule) : Except ℕ (Lookups × Option Obj) :=
  match ipfHtableFind l (some .logipf) (toString r.frArg).toList with
  | none => .error ESRCH
  | some o =>
    match l.tab o with
    | none => .error ESRCH
    | some t => if t.inout &&& FR_INOUT ≠ r.c.frFlags &&& FR_INOUT then .error ESRCH else .ok (l.addRef o, some o)

/-- Calling `ipf_funcinit`. Both functions there are have the same init function. -/
def funcPart (l : Lookups) (req : Req) (r : Rule) (makecopy : Bool) : Except ℕ (Lookups × Option Obj) :=
  if makecopy ∧ r.c.frFunc ≠ 0 ∧ adds req then ipfGrpmapinit l r else .ok (l, none)

/-- The checks from there to the group. -/
def check2 (r : Rule) : Option ℕ :=
  if has r.c.frFlags FR_CALLNOW ∧ (r.c.frFunc = 0 ∨ r.c.frFunc = BADFUNC) then some ESRCH
  else if r.c.frFlags &&& FR_CMDMASK = FR_CALL ∧ (r.c.frFunc = 0 ∨ r.c.frFunc = BADFUNC) then some ESRCH
  else if badName r.frNames r.frIcmphead ∨ badName r.frNames r.frGrhead ∨ badName r.frNames r.frGroup then some EINVAL
  else none

def names (r : Rule) : List Char := zeroName (zeroName r.frNames r.frIcmphead) r.frGrhead

/-- `FR_ISACCOUNT` changes the device. -/
def ruleUnit (unit : Dev) (r : Rule) : Dev := if isAccount r.c.frFlags then .logcount else unit

/-- What the part for the group of a rule ends with: its state, `fr_grp` and `fg`. -/
inductive GroupPart where
  | ok (s : Softc) (grp fg : Option ℕ)
  | err (s : Softc) (grp : Option ℕ) (e : ℕ)
  | nullGroup

/-- `fg_flags` of a group must be that of the rule. A group without takes it over. -/
def groupFlags (s : Softc) (r : Rule) (grp : Option ℕ) (id : ℕ) : GroupPart :=
  match s.group id with
  | none => .nullGroup
  | some fg =>
    if fg.fgFlags = 0 then
      .ok { s with group := Function.update s.group id (some { fg with fgFlags := r.c.frFlags &&& FR_INOUT }) }
        grp (some id)
    else if fg.fgFlags ≠ r.c.frFlags &&& FR_INOUT then .err s grp ESRCH
    else .ok s grp (some id)

/-- The part for the group of a rule; the result of `ipf_group_add` is followed as it is. -/
def groupPart (s : Softc) (unit : Dev) (req : Req) (r : Rule) (set : Fin 2) (grp : Option ℕ) (new : Option ℕ) :
    GroupPart :=
  if r.frGroup = -1 then
    if r.c.frFlags &&& FR_INOUT = 0 then .err s grp EINVAL else .ok s grp none
  else if req = .zero then .ok s grp none
  else if adds req then
    match ipfGroupAdd s (frName (names r) r.frGroup) none r.c.frFlags unit set new with
    | (_, none) => .nullGroup
    | (s, some id) => groupFlags s r (some id) id
  else
    match ipfFindgroup s (frName (names r) r.frGroup) unit set with
    | none => .err s grp ESRCH
    | some id => groupFlags s r grp id

/-- The list the request is for, before that of a group is taken instead. -/
def listHead (unit : Dev) (r : Rule) (set : Fin 2) : Except ℕ Head :=
  let out : Fin 2 := if has r.c.frFlags FR_INQUE then 0 else 1
  if unit = .logauth then
    if r.tif.ptr ∨ r.rif.ptr ∨ r.dif.ptr ∨ has r.c.frFlags FR_FASTROUTE then .error EINVAL else .ok .auth
  else if isAccount r.c.frFlags then .ok (.acct out set)
  else if r.c.frFlags &&& FR_INOUT ≠ 0 then .ok (.rules out set)
  else .error ESRCH

/-- Copying the data of the rule. -/
def copyPart (r : Rule) (makecopy : Bool) (env : Env) : Option ℕ :=
  if r.c.frDsize ≠ 0 ∧ makecopy then
    if env.data = false then some ENOMEM else if env.copyin = false then some EFAULT else none
  else none

/-- `ipf_findlookup` -/
def ipfFindlookup (l : Lookups) (unit : Dev) (names : List Char) (d : Side) : Lookups × Side :=
  match d.subtype with
  | 0 =>
    let f := ipfLookupResName l unit d.type (toString d.num).toList d.func
    (f.1, { d with ptr := f.2.1, func := f.2.2 })
  | 1 =>
    if d.name < 0 ∨ (names.length : ℤ) ≤ d.name then (l, { d with ptr := none })
    else
      let f := ipfLookupResName l unit d.type (frName names d.name) d.func
      (f.1, { d with ptr := f.2.1, func := f.2.2 })
  | _ => (l, { d with ptr := none })

/-- The check of `fr_satype` or `fr_datype`. -/
def sidePart (l : Lookups) (unit : Dev) (names : List Char) (d : Side) : Lookups × Side × Option ℕ :=
  match d.satype with
  | .ifaddr => (l, d, if d.ifpidx < 0 then some EINVAL else none)
  | .lookup =>
    let f := ipfFindlookup l unit names d
    (f.1, f.2, if f.2.func then none else some ESRCH)
  | .normal => (l, d, none)
  | .other => (l, d, some EINVAL)

/-- The pointer of a lookup is cleared before anything can fail. -/
def Side.clear (d : Side) : Side := if d.satype = .lookup then { d with ptr := none } else d

/-- What the checks by rule type end with: the lookups, what `fr_data` shows, and an error. -/
inductive TypePart where
  | ok (l : Lookups) (view : Option (Side × Side)) (e : Option ℕ)
  | fault

/-- The checks by rule type. -/
def typePart (l : Lookups) (unit : Dev) (r : Rule) (env : Env) : TypePart :=
  match r.frType with
  | .ipf =>
    if r.c.frDsize = 0 then .fault
    else
      let src := r.src.clear
      let dst := r.dst.clear
      if r.c.frDsize ≠ env.sizeofFripf then .ok l (some (src, dst)) (some EINVAL)
      else if has r.c.frFlags FR_KEEPSTATE ∧ has r.frFlx FI_OOW then .ok l (some (src, dst)) (some EINVAL)
      else
        match sidePart l unit (names r) src with
        | (l, src, some e) => .ok l (some (src, dst)) (some e)
        | (l, src, none) =>
          match sidePart l unit (names r) dst with
          | (l, dst, e) => .ok l (some (src, dst)) e
  | .none | .callfunc | .compipf => .ok l none none
  | .ipfexpr => if r.c.frDsize = 0 then .fault else .ok l none (if env.exprOk then none else some EINVAL)
  | .other => .ok l none (some EINVAL)

/-- The names of the destinations. -/
def nameCheck (r : Rule) : Option ℕ :=
  if badName r.frNames r.tif.fdName ∨ badName r.frNames r.dif.fdName ∨ badName r.frNames r.rif.fdName then some EINVAL
  else none

/-- `ipf_resolvedest` -/
def ipfResolvedest (l : Lookups) (names : List Char) (d : Frdest) : Except ℕ (Lookups × Option Obj) :=
  if d.fdName ≠ -1 ∧ d.dstlist then
    match ipfLookupResName l .logipf 3 (frName names d.fdName) false with
    | (_, none, _) => .error ESRCH
    | (l, some o, _) => .ok (l, some o)
  else .ok (l, none)

/-- `ipf_synclist` for one rule: the lookups with the references that were taken, and an error.
What the unwinding loop goes over is what comes before the rule, which is nothing. The second
attempt at lookups without a pointer passes the type of the lookup as the device and the device as
the type, for which there is no backend. -/
def ipfSynclist (l : Lookups) (r : Rule) : Lookups × List (Option Obj) × Option ℕ :=
  match ipfResolvedest l (names r) r.tif with
  | .error e => (l, [], some e)
  | .ok (l, o₁) =>
    match ipfResolvedest l (names r) r.rif with
    | .error e => (l, [o₁], some e)
    | .ok (l, o₂) =>
      match ipfResolvedest l (names r) r.dif with
      | .error e => (l, [o₁, o₂], some e)
      | .ok (l, o₃) => (l, [o₁, o₂, o₃], none)

/-- Giving back the lookups that `fr_data` shows. -/
def derefSides (l : Lookups) (v : Side × Side) : Lookups :=
  let l := if v.1.satype = .lookup then ipfLookupDeref l v.1.type v.1.ptr else l
  if v.2.satype = .lookup then ipfLookupDeref l v.2.type v.2.ptr else l

/-- What the common end does on an error; `none` when `fr_data` cannot be read. -/
def cleanup (s : Softc) (r : Rule) (view : Option (Side × Side)) (grp : Option ℕ) (fp : Addr) : Option Softc :=
  let drop (s : Softc) : Softc := match grp with
    | none => s
    | some id => ipfGroupDel s id fp
  if r.frType = .ipf then view.map fun v => drop { s with lookups := derefSides s.lookups v } else some (drop s)

/-- `donenolock`, with an error. -/
def donenolock (s : Softc) (r : Rule) (view : Option (Side × Side)) (grp : Option ℕ) (fp : Addr) (e : ℕ) : Outcome :=
  match cleanup s r view grp fp with
  | none => .fault
  | some s => .err e s

/-- The references a rule gives back when it is freed by `ipf_derefrule`. -/
def ipfDerefrule (s : Softc) (f : Addr) : Softc :=
  if (s.rules.fr f).frRef ≠ 0 then s
  else
    let h := s.held f
    let l := ipfLookupDeref s.lookups 2 h.func
    let l := h.dests.foldl (fun l o => ipfLookupDeref l 3 o) l
    let l := match h.src with | some (type, o) => ipfLookupDeref l type (some o) | none => l
    let l := match h.dst with | some (type, o) => ipfLookupDeref l type (some o) | none => l
    h.groups.foldl (fun s id => ipfGroupDel s id f) { s with lookups := l }

/-- The rule as it is compared, at its address. -/
def prepareRule (s : Rules.Softc) (fp : Addr) (c : Frentry) (makecopy : Bool) : Rules.Softc :=
  if makecopy then prepare s fp c
  else { s with fr := Function.update s.fr fp { c with
    frFlags := c.frFlags &&& ~~~FR_COPIED
    htParent := if c.htMaxNodes ≠ 0 then some fp else c.htParent
    frCksum := u32 (c.frData.getD []).sum } }

/-- The groups a rule that was added is the head of. -/
def headGroups (s : Softc) (unit : Dev) (r : Rule) (set : Fin 2) (fp : Addr) (env : Env) : Softc × List ℕ :=
  let i := if r.frIcmphead = -1 then (s, none)
    else ipfGroupAdd s (frName (names r) r.frIcmphead) (some fp) 0 unit set env.fgIcmp
  let h := if r.frGrhead = -1 then (i.1, none)
    else ipfGroupAdd i.1 (frName (names r) r.frGrhead) (some fp) r.c.frFlags unit set env.fgHead
  (h.1, h.2.toList ++ i.2.toList)

def Side.held (d : Side) : Option (ℕ × Obj) := if d.satype = .lookup then d.ptr.map (d.type, ·) else none

/-- From the lock on. -/
def lockedPart (s : Softc) (unit : Dev) (req : Req) (r : Rule) (set : Fin 2) (makecopy : Bool) (env : Env) (fp : Addr)
    (h : Head) (view : Option (Side × Side)) (grp : Option ℕ) (func : Option Obj) (dests : List (Option Obj)) :
    Outcome :=
  let rules := prepareRule s.rules fp r.c makecopy
  match frLocked rules req (unit = .logauth) h fp set makecopy env.new, req with
  | .error .fault, _ => .fault
  | .error (.errno e), .zero => .err e s
  | .error (.errno e), _ => donenolock s r view grp fp e
  | .ok rules', .zero =>
    match env.outobj with
    | some e => .err e s
    | none => .ok { s with rules := rules' }
  | .ok rules', .remove =>
    if unit = .logauth then .ok { s with rules := rules' }
    else
      let s := match rules.mem.get (ruleFind rules h fp).2 with
        | none => { s with rules := rules' }
        | some f => ipfDerefrule { s with rules := rules' } f
      if makecopy then
        match cleanup s r view grp fp with
        | none => .fault
        | some s => .ok s
      else .ok s
  | .ok rules', _ =>
    if unit = .logauth then .ok { s with rules := rules' }
    else
      let (s, gs) := headGroups { s with rules := rules' } unit r set fp env
      let hd : Held :=
        ⟨func, dests, (view.map (·.1)).bind Side.held, (view.map (·.2)).bind Side.held, grp.toList ++ gs⟩
      .ok { s with held := Function.update s.held fp hd }

/-- From the data of the rule on: the checks by type, the names, `ipf_synclist` and the lock. -/
def dataPart (s : Softc) (unit : Dev) (req : Req) (r : Rule) (set : Fin 2) (makecopy : Bool) (env : Env) (fp : Addr)
    (h : Head) (grp : Option ℕ) (func : Option Obj) : Outcome :=
  match typePart s.lookups unit r env with
  | .fault => .fault
  | .ok l view (some e) => donenolock { s with lookups := l } r view grp fp e
  | .ok l view none =>
    let s := { s with lookups := l }
    match nameCheck r with
    | some e => donenolock s r view grp fp e
    | none =>
      match ipfSynclist s.lookups r with
      | (l, _, some e) => donenolock { s with lookups := l } r view grp fp e
      | (l, dests, none) => lockedPart { s with lookups := l } unit req r set makecopy env fp h view grp func dests

/-- From the group on. -/
def listPart (s : Softc) (unit : Dev) (req : Req) (r : Rule) (set : Fin 2) (makecopy : Bool) (env : Env) (fp : Addr)
    (func : Option Obj) : Outcome :=
  let grp := if makecopy then none else r.frGrp
  match groupPart s unit req r set grp env.fg with
  | .nullGroup => .nullGroup
  | .err s grp e => donenolock s r r.view grp fp e
  | .ok s grp fg =>
    match listHead unit r set with
    | .error e => donenolock s r r.view grp fp e
    | .ok h =>
      match copyPart r makecopy env with
      | some e => donenolock s r r.view grp fp e
      | none => dataPart s unit req r set makecopy env fp ((fg.map Head.group).getD h) grp func

/-- `frrequest`. A rule that is not copied in is already at its address. -/
def frrequest (s : Softc) (unit : Dev) (req : Req) (r : Rule) (set : Fin 2) (makecopy : Bool) (env : Env) : Outcome :=
  match if makecopy then env.inobj else none with
  | some e => .err e s
  | none =>
    if makecopy = r.builtin then .err EINVAL s
    else
      match env.fp, if makecopy then env.inobjsz else none with
      | none, _ => .err ENOMEM s
      | _, some e => .err e s
      | some fp, none =>
        let grp := if makecopy then none else r.frGrp
        match check1 r makecopy with
        | some e => donenolock s r r.view grp fp e
        | none =>
          match funcPart s.lookups req r makecopy with
          | .error e => donenolock s r r.view grp fp e
          | .ok (l, func) =>
            let s := { s with lookups := l }
            match check2 r with
            | some e => donenolock s r r.view grp fp e
            | none => listPart s (ruleUnit unit r) req r set makecopy env fp func

/-! ## Runs -/

/-- A call of `frrequest`. -/
structure Call where
  unit : Dev
  req : Req
  r : Rule
  set : Fin 2
  makecopy : Bool
  env : Env

def Call.outcome (q : Call) (s : Softc) : Outcome := frrequest s q.unit q.req q.r q.set q.makecopy q.env

/-- The state after a call that returns. -/
def Outcome.state? : Outcome → Option Softc
  | .ok s => some s
  | .err _ s => some s
  | _ => none

/-- One call after the other. -/
def run (s : Softc) : List Call → Option Softc
  | [] => some s
  | q :: qs => (q.outcome s).state?.bind fun s' => run s' qs

/-- Those of the calls that return no error. -/
def succeeding (s : Softc) : List Call → List Call
  | [] => []
  | q :: qs =>
    match q.outcome s with
    | .ok s' => q :: succeeding s' qs
    | .err _ s' => succeeding s' qs
    | _ => [q]

/-- `P` holds of each call of a run, at the state it is made in. -/
def Along (P : Softc → Call → Prop) (s : Softc) : List Call → Prop
  | [] => True
  | q :: qs => P s q ∧ ∀ s', (q.outcome s).state? = some s' → Along P s' qs

/-- No rules and no groups yet. -/
def Softc.init (lookups : Lookups) (fr : Addr → Frentry) : Softc where
  rules := .init 0 fr
  groups := fun _ _ => []
  group := fun _ => none
  lookups := lookups
  held := fun _ => ⟨none, [], none, none, []⟩

end Ipfilter.Frrequest
