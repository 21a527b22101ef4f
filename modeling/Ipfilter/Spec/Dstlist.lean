import Ipfilter.Chain.Mem
import Ipfilter.Spec.Flags

/-!
# Destination lists

`ip_dstlist.c`: destination lists (`ippool_dst_t`), their nodes, the selection of a node, and iterators over nodes.

A list has an array of pointers to its nodes. The nodes are also linked, and the head of that chain is the first slot of the
array. So the heads of the memory are arrays, and `slots` are the slots behind the first one.
-/

namespace Ipfilter.Dstlist

open Chain

def AF_INET : ℕ := 2
def AF_INET6 : ℕ := 10
def IPL_LOGMAX : ℤ := 7
def IPLT_ALL : ℤ := -1

/-- `frdest_t`. -/
structure Frdest where
  fdPtr : ℕ
  adfFamily : ℕ
  fdIp6 : BitVec 128
  fdType : ℕ
  fdName : ℤ
  fdLocal : ℤ
  deriving DecidableEq

/-- The sizes of `frdest_t` and `ipf_dstnode_t`: a node contains a destination and two pointers. -/
structure Layout where
  frdest : ℕ
  dstnode : ℕ
  contains : frdest + 16 ≤ dstnode

/-- `ipf_dstnode_t`, without its links. `deleted` is the flag `IPDST_DELETE`, and `states` is an `int`, which wraps. -/
structure Dstnode where
  dest : Frdest
  deleted : Bool
  size : ℤ
  states : BitVec 32
  ref : ℤ
  uid : ℤ
  names : List (BitVec 8)

/-- `ippool_policy_t`; `other` is `IPLDP_NONE` and every number that is none of these. -/
inductive Policy where
  | roundrobin
  | connection
  | random
  | hashed
  | srchash
  | dsthash
  | other (policy : ℕ)
  deriving DecidableEq

/-- `ippool_dst_t`. -/
structure Dst (Name : Type) where
  unit : ℤ
  name : Name
  policy : Policy
  ref : ℤ
  deleted : Bool
  nodes : ℕ
  maxnodes : ℕ
  dests : Option ℕ
  selected : Option ℕ

/-- `ipf_dstl_softc_t`, the memory of lists, arrays and nodes, and what the tokens of iterators point at. `tables` are the lists
that can be found. `made` is the number of nodes that were ever made, a bound for the loops. -/
structure Softd (Name : Type) where
  tables : List ℕ
  tab : ℕ → Dst Name
  mem : Mem ℕ ℕ
  slots : ℕ → ℕ → Option ℕ
  node : ℕ → Dstnode
  allocTab : ℕ → Bool
  allocArr : ℕ → Bool
  allocNode : ℕ → Bool
  numlists : ℤ
  numdereflists : ℤ
  numnodes : ℤ
  numderefnodes : ℤ
  nomem : ℕ
  made : ℕ
  tok : ℕ → Option ℕ

variable {Name : Type}

def Softd.updTab (w : Softd Name) (d : ℕ) (f : Dst Name → Dst Name) : Softd Name :=
  { w with tab := Function.update w.tab d (f (w.tab d)) }

def Softd.updNode (w : Softd Name) (x : ℕ) (f : Dstnode → Dstnode) : Softd Name :=
  { w with node := Function.update w.node x (f (w.node x)) }

/-- The slot `i` of the array `a`. -/
def Softd.slot (w : Softd Name) (a i : ℕ) : Option ℕ := if i = 0 then w.mem.head a else w.slots a i

def Softd.setSlot (w : Softd Name) (a i : ℕ) (v : Option ℕ) : Softd Name :=
  if i = 0 then { w with mem := w.mem.set (.head a) v }
  else { w with slots := Function.update w.slots a (Function.update (w.slots a) i v) }

/-! ## Nodes -/

/-- `ipf_dstlist_node_deref`. -/
def ipfDstlistNodeDeref (w : Softd Name) (x : ℕ) : Softd Name :=
  let w := w.updNode x fun n => { n with ref := n.ref - 1 }
  if 0 < (w.node x).ref then w
  else { w with
    numderefnodes := if (w.node x).deleted then w.numderefnodes - 1 else w.numderefnodes
    allocNode := Function.update w.allocNode x false
    numnodes := w.numnodes - 1 }

/-- The first loop of `ipf_dstlist_node_free`: the slot of the node, or the number of nodes. -/
def Softd.index (w : Softd Name) (a n x : ℕ) : ℕ := ((List.range n).find? fun i => w.slot a i = some x).getD n

/-- The nodes behind slot `i` go to the slots before, if there are such nodes. -/
def Softd.compact (w : Softd Name) (a n i : ℕ) : Softd Name :=
  if 1 < (n : ℤ) - i then { w with
    mem := if i = 0 then w.mem.set (.head a) (w.slot a 1) else w.mem
    slots := Function.update w.slots a fun j => if i ≤ j ∧ j + 1 < n then w.slot a (j + 1) else w.slots a j }
  else w

/-- A node leaves its chain. -/
def unlink (m : Mem ℕ ℕ) (x : ℕ) : Mem ℕ ℕ :=
  let m₁ := match m.pnext x with
    | none => m
    | some k => m.set k (m.next x)
  ((m₁.setP? (m.next x) (m.pnext x)).setP x none).set (.next x) none

/-- `ipf_dstlist_node_free`, for a node of the list `d` with the array `a`. -/
def ipfDstlistNodeFree (w : Softd Name) (d a x : ℕ) : Softd Name :=
  let n := (w.tab d).nodes
  let w := w.compact a n (w.index a n x)
  let w := w.updTab d fun t => { t with nodes := t.nodes - 1 }
  let w := { w with mem := unlink w.mem x }
  let w := if (w.node x).deleted then w
    else { w.updNode x fun n => { n with deleted := true } with numderefnodes := w.numderefnodes + 1 }
  ipfDstlistNodeDeref w x

/-! ## Adding a node -/

/-- The array gets a slot more: a new array, into which the slots are copied. The first node is told where the head of the
chain is now; there is no result if there is no first node. -/
def Softd.grow (w : Softd Name) (d a : ℕ) : Option (Softd Name) :=
  let t := w.tab d
  let enter := fun w : Softd Name => { w.updTab d fun t => { t with dests := some a, maxnodes := t.maxnodes + 1 } with
    allocArr := Function.update w.allocArr a true }
  match t.dests with
  | none => some (enter w)
  | some old =>
    let w := { w with
      mem := if t.maxnodes = 0 then w.mem else w.mem.set (.head a) (w.mem.head old)
      slots := Function.update w.slots a fun i => if i < t.maxnodes then w.slots old i else w.slots a i
      allocArr := Function.update w.allocArr old false }
    match w.mem.head a with
    | none => none
    | some x => some (enter { w with mem := w.mem.setP x (some (.head a)) })

/-- The place `ipfd_pnext`, and the node there. -/
def Softd.plug (w : Softd Name) (x : ℕ) (k : Link ℕ ℕ) : Softd Name :=
  { w with mem := (w.mem.setP x (some k)).set k (some x) }

/-- A node goes into the next slot and to the end of the chain. There is no result if a pointer is followed that is `NULL`. -/
def Softd.append (w : Softd Name) (d x : ℕ) : Option (Softd Name) :=
  let n := (w.tab d).nodes
  match (w.tab d).dests with
  | none => none
  | some a =>
    let w := (w.setSlot a n (some x)).updTab d fun t => { t with nodes := t.nodes + 1 }
    if n = 0 then some (w.plug x (.head a))
    else
      match w.slot a (n - 1) with
      | none => none
      | some y => some (w.plug x (.next y))

/-- A request to add a node: the size that the user gives is large enough, the destination and the name as they are copied in,
the memory for the node and for an array, and what `ipf_resolvedest` finds. -/
structure AddOp (Name : Type) where
  unit : ℤ
  name : Name
  uid : ℤ
  sized : Bool
  dest : Option Frdest
  names : Option (List (BitVec 8))
  node : Option ℕ
  nodes : Option ℕ
  resolved : ℕ × ℤ

/-- A node for a destination, as it is before it is put into a list. -/
def newNode (y : Layout) (dest : Frdest) (names : List (BitVec 8)) : Dstnode :=
  { dest := { dest with fdName := if 0 < dest.fdName then 0 else -1 }
    deleted := false
    size := y.dstnode + dest.fdName
    states := 0
    ref := 0
    uid := 0
    names := if 0 < dest.fdName then names else [] }

/-- The end of `ipf_dstlist_node_add`: owner, reference and interface of the new node. -/
def Softd.finish (w : Softd Name) (x : ℕ) (uid : ℤ) (resolved : ℕ × ℤ) : Softd Name :=
  { w.updNode x fun n => { n with
      uid := uid
      ref := 1
      dest := if n.dest.fdName = 0 then { n.dest with fdPtr := resolved.1, fdLocal := resolved.2 } else n.dest } with
    numnodes := w.numnodes + 1 }

/-- `ipf_dstlist_table_find`. -/
def ipfDstlistTableFind [DecidableEq Name] (w : Softd Name) (unit : ℤ) (name : Name) : Option ℕ :=
  w.tables.find? fun d => (w.tab d).unit = unit ∧ (w.tab d).name = name

/-- A new node with an array that has room for it, or the error. -/
def Softd.addNode (w : Softd Name) (y : Layout) (d x : ℕ) (dest : Frdest) (names : List (BitVec 8)) (op : AddOp Name) :
    Option (Softd Name × ℕ) :=
  let w := { w with
    node := Function.update w.node x (newNode y dest names)
    mem := (w.mem.set (.next x) none).setP x none }
  let link := fun w : Softd Name => (w.append d x).map fun w => ({ w.finish x op.uid op.resolved with
    allocNode := Function.update w.allocNode x true
    made := w.made + 1 }, 0)
  if (w.tab d).nodes = (w.tab d).maxnodes then
    match op.nodes with
    | none => some ({ w with nomem := w.nomem + 1 }, ENOMEM)
    | some a => (w.grow d a).bind link
  else link w

/-- `ipf_dstlist_node_add`: the error. There is no result if a pointer is followed that is `NULL`. -/
def ipfDstlistNodeAdd [DecidableEq Name] (y : Layout) (w : Softd Name) (op : AddOp Name) : Option (Softd Name × ℕ) :=
  if !op.sized then some (w, EINVAL)
  else
    match op.dest with
    | none => some (w, EFAULT)
    | some dest =>
      match ipfDstlistTableFind w op.unit op.name with
      | none => some (w, ESRCH)
      | some d =>
        if dest.adfFamily ≠ AF_INET ∧ dest.adfFamily ≠ AF_INET6 then some (w, EINVAL)
        else if dest.fdName < -1 ∨ 128 < dest.fdName then some (w, EINVAL)
        else
          match op.node with
          | none => some ({ w with nomem := w.nomem + 1 }, ENOMEM)
          | some x =>
            if 0 < dest.fdName then
              match op.names with
              | none => some (w, EFAULT)
              | some names => w.addNode y d x dest names op
            else w.addNode y d x dest [] op

/-! ## Deleting a node -/

/-- A request to delete a node: the destination as it is copied in, whether there is memory for a copy with the name, the name
as it is copied in there, and, for each node, whether the memory behind its destination is like the memory behind the first
copy. -/
structure DelOp (Name : Type) where
  unit : ℤ
  name : Name
  uid : ℤ
  dest : Option Frdest
  temp : Bool
  names : Option (List (BitVec 8))
  behind : ℕ → Bool

/-- `bcmp` from `fd_ip6` on, for a size that takes in the rest of `frdest_t`. -/
def sameFrom (a b : Frdest) (behind : Bool) : Bool :=
  decide (a.fdIp6 = b.fdIp6) && decide (a.fdType = b.fdType) && decide (a.fdName = b.fdName) &&
    decide (a.fdLocal = b.fdLocal) && behind

/-- The conditions in the loop of `ipf_dstlist_node_del`. -/
def Softd.hits (w : Softd Name) (y : Layout) (op : DelOp Name) (frd : Frdest) (x : ℕ) : Bool :=
  (decide (op.uid = 0) || decide ((w.node x).uid = op.uid)) && decide ((w.node x).size = y.frdest + frd.fdName) &&
    sameFrom (w.node x).dest frd (op.behind x)

/-- `ipf_dstlist_node_del`: the error. There is no result if a pointer is followed that is `NULL`. -/
def ipfDstlistNodeDel [DecidableEq Name] (y : Layout) (w : Softd Name) (op : DelOp Name) : Option (Softd Name × ℕ) :=
  match ipfDstlistTableFind w op.unit op.name with
  | none => some (w, ESRCH)
  | some d =>
    match op.dest with
    | none => some (w, EFAULT)
    | some frd =>
      if !op.temp then some ({ w with nomem := w.nomem + 1 }, ENOMEM)
      else if op.names = none then some (w, EFAULT)
      else
        match (w.tab d).dests with
        | none => none
        | some a =>
          match w.mem.get (w.mem.seek (fun x => !w.hits y op frd x) w.made (.head a)) with
          | none => some (w, ESRCH)
          | some x => some (ipfDstlistNodeFree w d a x, 0)

/-! ## Tables -/

/-- `ipf_dstlist_table_add`, with the memory for the list: the error. There is no result for the last unit:
`ipf_dstlist_soft_create` sets `tails[0]` to `tails[IPL_LOGMAX]`, and the list of a unit goes to `tails[unit + 1]`. -/
def ipfDstlistTableAdd [DecidableEq Name] (w : Softd Name) (unit : ℤ) (name : Name) (policy : Option Policy)
    (new : Option ℕ) :
    Option (Softd Name × ℕ) :=
  match ipfDstlistTableFind w unit name with
  | some _ => some (w, EEXIST)
  | none =>
    match policy with
    | none => some (w, EFAULT)
    | some policy =>
      match new with
      | none => some ({ w with nomem := w.nomem + 1 }, ENOMEM)
      | some d =>
        if IPL_LOGMAX < unit + 1 then none
        else some ({ w with
          tables := w.tables ++ [d]
          tab := Function.update w.tab d ⟨unit, name, policy, 1, false, 0, 0, none, none⟩
          allocTab := Function.update w.allocTab d true
          numlists := w.numlists + 1 }, 0)

/-- `ipf_lookup_addtable` for a destination list. -/
def ipfLookupAddtable [DecidableEq Name] (w : Softd Name) (unit : ℤ) (name : Name) (policy : Option Policy)
    (new : Option ℕ) :
    Option (Softd Name × ℕ) :=
  if (unit < 0 ∨ IPL_LOGMAX < unit) ∧ unit ≠ IPLT_ALL then some (w, EINVAL) else ipfDstlistTableAdd w unit name policy new

/-- The loop of `ipf_dstlist_table_clearnodes`. -/
def clearLoop (d a : ℕ) : ℕ → Softd Name → Softd Name
  | 0, w => w
  | i + 1, w =>
    match w.mem.head a with
    | none => w
    | some x => clearLoop d a i (ipfDstlistNodeFree w d a x)

/-- `ipf_dstlist_table_clearnodes`. -/
def ipfDstlistTableClearnodes (w : Softd Name) (d : ℕ) : Softd Name :=
  match (w.tab d).dests with
  | none => w
  | some a => clearLoop d a w.made w

/-- `ipf_dstlist_table_free`. -/
def ipfDstlistTableFree (w : Softd Name) (d : ℕ) : Softd Name :=
  { w with
    numdereflists := if (w.tab d).deleted then w.numdereflists - 1 else w.numdereflists
    numlists := w.numlists - 1
    allocArr := match (w.tab d).dests with
      | none => w.allocArr
      | some a => Function.update w.allocArr a false
    allocTab := Function.update w.allocTab d false }

/-- `ipf_dstlist_table_deref`. -/
def ipfDstlistTableDeref (w : Softd Name) (d : ℕ) : Softd Name :=
  let w := w.updTab d fun t => { t with ref := t.ref - 1 }
  if 0 < (w.tab d).ref then w else ipfDstlistTableFree w d

/-- `ipf_dstlist_table_remove`. -/
def ipfDstlistTableRemove (w : Softd Name) (d : ℕ) : Softd Name :=
  let w := { w with tables := w.tables.erase d }
  let w := ipfDstlistTableClearnodes w d
  let w := { w.updTab d fun t => { t with deleted := true } with numdereflists := w.numdereflists + 1 }
  ipfDstlistTableDeref w d

/-- `ipf_dstlist_table_del`: the error. -/
def ipfDstlistTableDel [DecidableEq Name] (w : Softd Name) (unit : ℤ) (name : Name) : Softd Name × ℕ :=
  match ipfDstlistTableFind w unit name with
  | none => (w, ESRCH)
  | some d => if (w.tab d).dests ≠ none then (w, EBUSY) else (ipfDstlistTableRemove w d, 0)

/-- `ipf_dstlist_flush` for the lists of a unit, or of all, with a name, or with any. -/
def ipfDstlistFlush [DecidableEq Name] (w : Softd Name) (unit : Option ℤ) (name : Option Name) : Softd Name :=
  (w.tables.filter fun d => (unit = none ∨ unit = some (w.tab d).unit) ∧ (name = none ∨ name = some (w.tab d).name)).foldl
    ipfDstlistTableRemove w

/-- `ipf_dstlist_select_ref`. -/
def ipfDstlistSelectRef [DecidableEq Name] (w : Softd Name) (unit : ℤ) (name : Name) : Softd Name :=
  match ipfDstlistTableFind w unit name with
  | none => w
  | some d => w.updTab d fun t => { t with ref := t.ref + 1 }

/-! ## Selection -/

/-- The node after another one, from the end back to the first one. -/
def Softd.around (w : Softd Name) (a x : ℕ) : Option ℕ :=
  match w.mem.next x with
  | none => w.mem.head a
  | some y => some y

/-- The loop for `IPLDP_CONNECTION`. There is no result if it does not end, or follows a pointer that is `NULL`. -/
def connLoop (w : Softd Name) (a selected : ℕ) : ℕ → Option ℕ → ℕ → ℤ → Option ℕ
  | 0, _, _, _ => none
  | _ + 1, none, _, _ => none
  | i + 1, some node, sel, connects =>
    if node = selected then some sel
    else if (w.node node).states.toInt = 0 then some node
    else if (w.node node).states.toInt < connects then
      connLoop w a selected i (w.around a node) node (w.node node).states.toInt
    else connLoop w a selected i (w.around a node) sel connects

/-- The node that the policy chooses; `x` is what `ipf_random` or the hash gives. There is no result without a node. -/
def Softd.choose (w : Softd Name) (d a x : ℕ) : Option ℕ :=
  match (w.tab d).policy with
  | .roundrobin =>
    match (w.tab d).selected with
    | none => w.mem.head a
    | some sel => w.around a sel
  | .connection =>
    match (w.tab d).selected with
    | none => w.mem.head a
    | some sel => connLoop w a sel (w.made + 1) (w.around a sel) sel 0x7fffffff
  | .other _ => none
  | _ => w.slot a (x % (w.tab d).nodes)

/-- `ipf_dstlist_select`: the node. There is no result if a pointer is followed that is `NULL`. -/
def ipfDstlistSelect (w : Softd Name) (d family x : ℕ) : Option (Softd Name × Option ℕ) :=
  match (w.tab d).dests with
  | none => some (w, none)
  | some a =>
    if w.mem.head a = none then some (w, none)
    else
      (w.choose d a x).map fun node =>
        let sel := if (w.node node).dest.adfFamily ≠ family then none else some node
        (w.updTab d fun t => { t with selected := sel }, sel)

/-- `ipf_dstlist_select_node` with the interface of the packet: 0 or -1. -/
def ipfDstlistSelectNode (w : Softd Name) (d family x finIfp : ℕ) : Option (Softd Name × ℤ) :=
  (ipfDstlistSelect w d family x).map fun r =>
    match r.2 with
    | none => (r.1, -1)
    | some node => (r.1.updNode node fun n => { n with
        dest := if n.dest.fdPtr = 0 then { n.dest with fdPtr := finIfp } else n.dest
        states := n.states + 1 }, 0)

/-! ## Iterators -/

/-- The end of `ipf_dstlist_iter_next`: the token goes to the next node, and the one before is given back. -/
def Softd.advance (w : Softd Name) (q : ℕ) (node nextnode : Option ℕ) : Softd Name :=
  let w := match nextnode with
    | none => w
    | some n => w.updNode n fun n => { n with ref := n.ref + 1 }
  let w := { w with tok := Function.update w.tok q nextnode }
  match node with
  | none => w
  | some x => ipfDstlistNodeDeref w x

/-- `ipf_dstlist_iter_next` for the nodes of a list. -/
def ipfDstlistIterNext [DecidableEq Name] (w : Softd Name) (q : ℕ) (unit : ℤ) (name : Name) : Softd Name × ℕ :=
  match w.tok q with
  | some x => (w.advance q (some x) (w.mem.next x), 0)
  | none =>
    match ipfDstlistTableFind w unit name with
    | none => (w, ESRCH)
    | some d =>
      match (w.tab d).dests with
      | none => (w.advance q none none, 0)
      | some a => (w.advance q none (w.mem.head a), 0)

/-- `ipf_dstlist_iter_deref`, when the token goes. -/
def ipfDstlistIterDeref (w : Softd Name) (q : ℕ) : Softd Name :=
  match w.tok q with
  | none => w
  | some x => ipfDstlistNodeDeref { w with tok := Function.update w.tok q none } x

/-! ## Runs -/

/-- No lists. -/
def init (tab : ℕ → Dst Name) (mem : Mem ℕ ℕ) (slots : ℕ → ℕ → Option ℕ) (node : ℕ → Dstnode) :
    Softd Name where
  tables := []
  tab := tab
  mem := mem
  slots := slots
  node := node
  allocTab _ := false
  allocArr _ := false
  allocNode _ := false
  numlists := 0
  numdereflists := 0
  numnodes := 0
  numderefnodes := 0
  nomem := 0
  made := 0
  tok _ := none

/-- A call. `deref` is a rule that gives its reference to a list back. -/
inductive Op (Name : Type) where
  | tableAdd (unit : ℤ) (name : Name) (policy : Option Policy) (new : Option ℕ)
  | tableDel (unit : ℤ) (name : Name)
  | flush (unit : Option ℤ) (name : Option Name)
  | selectRef (unit : ℤ) (name : Name)
  | deref (d : ℕ)
  | nodeAdd (op : AddOp Name)
  | nodeDel (op : DelOp Name)
  | select (d family x finIfp : ℕ)
  | iterNext (q : ℕ) (unit : ℤ) (name : Name)
  | iterDeref (q : ℕ)

/-- There is no result if a pointer is followed that is `NULL`. -/
def step [DecidableEq Name] (y : Layout) (w : Softd Name) : Op Name → Option (Softd Name)
  | .tableAdd unit name policy new => (ipfLookupAddtable w unit name policy new).map Prod.fst
  | .tableDel unit name => some (ipfDstlistTableDel w unit name).1
  | .flush unit name => some (ipfDstlistFlush w unit name)
  | .selectRef unit name => some (ipfDstlistSelectRef w unit name)
  | .deref d => some (ipfDstlistTableDeref w d)
  | .nodeAdd op => (ipfDstlistNodeAdd y w op).map Prod.fst
  | .nodeDel op => (ipfDstlistNodeDel y w op).map Prod.fst
  | .select d family x finIfp => (ipfDstlistSelectNode w d family x finIfp).map Prod.fst
  | .iterNext q unit name => some (ipfDstlistIterNext w q unit name).1
  | .iterDeref q => some (ipfDstlistIterDeref w q)

end Ipfilter.Dstlist
