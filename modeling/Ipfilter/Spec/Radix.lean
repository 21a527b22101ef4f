import Ipfilter.Chain.Mem

/-!
# The radix tree

`radix_ipf.c`: `count_mask_bits`, `buildnodes`, `ipf_rx_find_addr`, `ipf_rx_lookup`, `ipf_rx_attach_mask`,
`ipf_rx_insert`, `ipf_rx_addroute`, `ipf_rx_delete`, `ipf_rx_walktree` and `ipf_rx_inithead`.

A structure with addresses has the two nodes of the tree in it, a leaf and an inner node, so that
a node is an entry and a number. `masks` of the nodes and `next` of the mask structures are one
chain memory. Words of addresses are in host order, and `adf_addr` is the second word of an
`addrfamily_t`, as where `sa_family_t` is a byte.

A loop that does not end, a NULL pointer that is followed and a mask that is read after it was freed
are all `none`.
-/

namespace Ipfilter.Radix

open Chain

scoped instance neZeroTwo : NeZero 2 := ⟨by decide⟩

scoped instance neZeroThree : NeZero 3 := ⟨by decide⟩

abbrev Word := BitVec 32

/-- What is in memory from the start of an `addrfamily_t` on, as far as one looks. -/
abbrev Key := ℕ → Word

/-- `addrfamily_t`. `len` is the number of words of the address, which `adf_len` has in bytes. -/
structure Adf where
  len : ℕ
  word : Key

/-- Where an `addrfamily_t` is: one of the two of `radix_softc_t`, or another. -/
inductive Obj where
  | zeros
  | ones
  | at (n : ℕ)
  deriving DecidableEq, Repr

/-- Where a node is: one of the head, or one of the two of an entry. -/
inductive Ptr where
  | root (i : Fin 3)
  | nodes (e : ℕ) (i : Fin 2)
  deriving DecidableEq, Repr

/-- `ipf_rdx_node_t` without `masks`. `addroff` is the distance from `addrkey`. -/
structure Node where
  left : Option Ptr
  right : Option Ptr
  parent : Option Ptr
  dupkey : Option Ptr
  mymask : Option ℕ
  addrkey : Option Obj
  maskkey : Option Obj
  addroff : ℕ
  lastmask : Word
  bitmask : Word
  offset : ℕ
  index : ℤ
  maskbitcount : ℕ
  root : Bool

/-- `bzero` -/
def Node.zero : Node := ⟨none, none, none, none, none, none, none, 0, 0, 0, 0, 0, 0, false⟩

/-- `ipf_rdx_mask_t` without `next`. -/
structure Mask where
  node : Ptr
  mask : Obj
  maskbitcount : ℕ
  deriving DecidableEq, Repr

/-- `ipf_rdx_head_t` with all memory. `mask` is what is allocated, and `stored` keeps track of the
entries in the tree. -/
structure Head where
  node : Ptr → Node
  masks : Mem Ptr ℕ
  mask : ℕ → Option Mask
  stored : List ℕ

def Head.upd (h : Head) (p : Ptr) (f : Node → Node) : Head := { h with node := Function.update h.node p (f (h.node p)) }

def Head.setLeft (h : Head) (p q : Ptr) : Head := h.upd p fun n => { n with left := some q }

def Head.setRight (h : Head) (p q : Ptr) : Head := h.upd p fun n => { n with right := some q }

def Head.setParent (h : Head) (p q : Ptr) : Head := h.upd p fun n => { n with parent := some q }

def Head.setDupkey (h : Head) (p : Ptr) (q : Option Ptr) : Head := h.upd p fun n => { n with dupkey := q }

/-- A bound for the steps of a loop. -/
def Head.fuel (h : Head) : ℕ := 2 * h.stored.length + 4

/-- `p + 1` -/
def Ptr.succ : Ptr → Option Ptr
  | .root 0 => some (.root 1)
  | .root 1 => some (.root 2)
  | .nodes e 0 => some (.nodes e 1)
  | _ => none

/-- `p - 1` -/
def Ptr.pred : Ptr → Option Ptr
  | .root 1 => some (.root 0)
  | .root 2 => some (.root 1)
  | .nodes e 1 => some (.nodes e 0)
  | _ => none

/-- `ADF_OFF_BITS` -/
def ADF_OFF_BITS : ℕ := 32

/-- `0x80000000`, also after `htonl`. -/
def TOPBIT : Word := 0x80000000

/-! ## Words and bits -/

/-- Counting the ones a word starts with. -/
def leadingOnes : ℕ → Word → ℕ
  | 0, _ => 0
  | i + 1, m => if m &&& TOPBIT ≠ 0 then leadingOnes i (m <<< 1) + 1 else 0

/-- `count_mask_bits`, from the word `mp` on; also the last word with a bit set. -/
def countMaskBits (mask : Key) : ℕ → ℕ → ℕ × Option ℕ
  | 0, _ => (0, none)
  | mlen + 1, mp =>
    if mask mp = 0 then (0, none)
    else
      let r := countMaskBits mask mlen (mp + 1)
      (leadingOnes 32 (mask mp) + r.1, some (r.2.getD mp))

/-- The first loop of `ipf_rx_insert`: the first word that is different, or the one after the end. -/
def diffWord (key data : Key) : ℕ → ℕ → ℕ
  | 0, i => i
  | n + 1, i => if key i ≠ data i then i else diffWord key data n (i + 1)

/-- The second loop of `ipf_rx_insert`: the number of zeros a word starts with, and none if there is
nothing else. -/
def leadingZeros : ℕ → Word → ℕ
  | 0, _ => 0
  | i + 1, bits => if bits = 0 then 0 else if bits &&& TOPBIT ≠ 0 then 0 else leadingZeros i (bits <<< 1) + 1

/-! ## The tree -/

section Memory

variable (mem : ℕ → Adf)

/-- What is stored at an object. The ones come after the zeros. -/
def word : Obj → Key
  | .zeros => fun i => if 5 ≤ i ∧ i < 10 then BitVec.allOnes 32 else 0
  | .ones => fun i => if i < 5 then BitVec.allOnes 32 else 0
  | .at n => (mem n).word

/-- `buildnodes` -/
def buildnodes (h : Head) (e addr mask : ℕ) : Head :=
  let m := countMaskBits (mem mask).word (mem mask).len 1
  let masklen := m.2.getD 0
  let lastmask := (m.2.map (mem mask).word).getD 0
  { h with
    node := Function.update (Function.update h.node (.nodes e 0) { Node.zero with
      maskbitcount := m.1
      index := -1 - (ADF_OFF_BITS + m.1 : ℕ)
      addrkey := some (.at addr)
      maskkey := some (.at mask)
      addroff := masklen
      parent := some (.nodes e 1)
      offset := masklen
      lastmask }) (.nodes e 1) { Node.zero with
      offset := masklen
      left := some (.nodes e 0)
      maskbitcount := m.1 }
    masks := (h.masks.set (.head (.nodes e 0)) none).set (.head (.nodes e 1)) none }

/-- One step down. -/
def Node.side (n : Node) (addr : Key) : Option Ptr := if n.bitmask &&& addr n.offset ≠ 0 then n.right else n.left

/-- `ipf_rx_find_addr` -/
def ipfRxFindAddr (h : Head) (addr : Key) : ℕ → Ptr → Option Ptr
  | 0, _ => none
  | i + 1, cur => if 0 ≤ (h.node cur).index then ((h.node cur).side addr).bind (ipfRxFindAddr h addr i) else some cur

/-! ## Masks -/

/-- Going on while masks have at least as many bits. -/
def maskPlace (h : Head) (nodebits : ℕ) : ℕ → Link Ptr ℕ → Option (Link Ptr ℕ)
  | n, pm =>
    match h.masks.get pm with
    | none => some pm
    | some m =>
      match n with
      | 0 => none
      | n + 1 => do
        let k ← h.mask m
        if k.maskbitcount < nodebits then return pm else maskPlace h nodebits n (.next m)

/-- Linking the mask `m` at a place. -/
def Head.linkMask (h : Head) (m : ℕ) (pm : Link Ptr ℕ) : Head :=
  { h with masks := (h.masks.set (.next m) (h.masks.get pm)).set pm (some m) }

/-- `ipf_rx_attach_mask` -/
def ipfRxAttachMask (h : Head) (node : Ptr) (m : ℕ) : Option Head := do
  let k ← h.mask m
  let pm ← maskPlace h k.maskbitcount h.fuel (.head node)
  return h.linkMask m pm

/-- The loops of `ipf_rx_insert` that move masks to the new leaf. -/
def moveMasks (node : Ptr) (nodebits : ℕ) : ℕ → Head → Link Ptr ℕ → Option Head
  | n, h, pmask =>
    match h.masks.get pmask with
    | none => some h
    | some m =>
      match n with
      | 0 => none
      | n + 1 => do
        let k ← h.mask m
        if k.maskbitcount < nodebits then
          let h ← ipfRxAttachMask { h with masks := h.masks.set pmask (h.masks.next m) } node m
          moveMasks node nodebits n h pmask
        else moveMasks node nodebits n h (.next m)

/-! ## Adding -/

/-- The loop that goes down to the place of the new node; the index of a leaf is negative, and large
as an unsigned number. -/
def insertPlace (h : Head) (key : Key) (nlen : ℕ) : ℕ → Ptr → Option (Ptr × Ptr)
  | 0, _ => none
  | n + 1, prev => do
    let cur ← if key (h.node prev).offset &&& (h.node prev).bitmask ≠ 0 then (h.node prev).right else (h.node prev).left
    if (h.node cur).index % 2 ^ 32 < nlen then insertPlace h key nlen n cur else return (prev, cur)

/-- The loop that goes up: the last node whose own entry has more bits and is in the range. -/
def hoist (h : Head) (nodeoff : ℕ) (nodemask nodekey : Word) (nodebits : ℕ) : ℕ → Option Ptr → Ptr →
    Option (Option Ptr)
  | 0, _, _ => none
  | n + 1, prev, cur =>
    if (h.node cur).root then some prev
    else if (h.node cur).maskbitcount ≤ nodebits then some prev
    else do
      let own ← cur.pred
      let data ← (h.node own).addrkey
      if word mem data nodeoff &&& nodemask ≠ nodekey then return prev
      else (h.node cur).parent.bind (hoist h nodeoff nodemask nodekey nodebits n (some cur))

/-- The number of the first bit that is different, as `ipf_rx_insert` finds it. -/
def diffBit (len : ℕ) (key data : Key) : ℕ :=
  let w := diffWord key data len 1
  ADF_OFF_BITS + 32 * (w - 1) + leadingZeros 32 (data w ^^^ key w)

/-- Linking the new nodes into the tree below `prev` and above `cur`. -/
def linkNodes (h : Head) (e : ℕ) (key : Key) (nlen : ℕ) (prev cur : Ptr) : Head :=
  let n0 : Ptr := .nodes e 0
  let n1 : Ptr := .nodes e 1
  let h := if key (h.node prev).offset &&& (h.node prev).bitmask = 0 then h.setLeft prev n1 else h.setRight prev n1
  let h := (h.setParent cur n1).setParent n1 prev
  if key (nlen / 32) &&& (TOPBIT >>> (nlen % 32)) = 0 then h.setRight n1 cur else (h.setRight n1 n0).setLeft n1 cur

/-- The end of `ipf_rx_insert`: the mask `m` of the new leaf, and masks that move to it. -/
def insertMasks (h : Head) (e m : ℕ) (nodebits : ℕ) (mask : Obj) (prev : Option Ptr) : Option Head := do
  let n0 : Ptr := .nodes e 0
  let h := { h with mask := Function.update h.mask m (some ⟨n0, mask, nodebits⟩) }
  let h := h.upd n0 fun n => { n with mymask := some m }
  let pmask ← match prev with
    | some p => maskPlace h nodebits h.fuel (.head p)
    | none => some (.head n0)
  let h := h.linkMask m pmask
  let right ← (h.node (.nodes e 1)).right
  let h ← if (h.node right).root then some h else moveMasks n0 nodebits h.fuel h (.head right)
  let left ← (h.node (.nodes e 1)).left
  if (h.node left).root = false ∧ left ≠ n0 then moveMasks n0 nodebits h.fuel h (.head left) else return h

/-- `ipf_rx_insert`, for the entry `e` with the address at `addr`, and `m` memory for a mask. The second
result is `dup`. Whether the keys are the same is asked of the pointers into the two addresses. -/
def ipfRxInsert (h : Head) (e addr m : ℕ) : Option (Head × Ptr × Bool) := do
  let key := (mem addr).word
  let n0 : Ptr := .nodes e 0
  let node ← ipfRxFindAddr h key h.fuel (.root 1)
  let data ← (h.node node).addrkey
  if diffWord key (word mem data) (mem addr).len 1 = (mem addr).len + 1 ∧ data = .at addr then return (h, node, true)
  else
    let nlen := diffBit (mem addr).len key (word mem data)
    let h := h.upd (.nodes e 1) fun n => { n with
      index := nlen, bitmask := TOPBIT >>> (nlen % 32), offset := nlen / 32 }
    let h := h.upd n0 fun n => { n with offset := nlen / 32 }
    let (prev, cur) ← insertPlace h key nlen h.fuel (.root 1)
    let h := linkNodes h e key nlen prev cur
    let nodebits := (h.node n0).maskbitcount
    let mask ← (h.node n0).maskkey
    let up ← hoist mem h (nlen / 32) (h.node n0).lastmask (key (nlen / 32)) nodebits h.fuel none prev
    let h ← insertMasks h e m nodebits mask up
    return (h, n0, false)

/-- The search on the `dupkey` list of `ipf_rx_addroute`: the last entry with more bits, and what comes
after it. -/
def dupPlace (h : Head) (bits : ℕ) : ℕ → Option Ptr → Option Ptr → Option (Option Ptr × Option Ptr)
  | _, prev, none => some (prev, none)
  | 0, _, some _ => none
  | n + 1, prev, some x =>
    if bits < (h.node x).maskbitcount then dupPlace h bits n (some x) (h.node x).dupkey else some (prev, some x)

/-- `ipf_rx_addroute`; the second result is what it returns. -/
def ipfRxAddroute (h : Head) (e addr mask m : ℕ) : Option (Head × Option Ptr) := do
  let n0 : Ptr := .nodes e 0
  let (h, x, dup) ← ipfRxInsert mem (buildnodes mem h e addr mask) e addr m
  if dup = false then return ({ h with stored := e :: h.stored }, some n0)
  else
    match ← dupPlace h (h.node n0).maskbitcount h.fuel none (some x) with
    | (some prev, none) =>
      let h := ((h.setDupkey n0 none).setDupkey prev (some n0)).setParent n0 prev
      return ({ h with stored := e :: h.stored }, some n0)
    | (some prev, some x) =>
      if (h.node x).maskbitcount = (h.node n0).maskbitcount then return (h, none)
      else
        let h := (((h.setDupkey n0 (some x)).setDupkey prev (some n0)).setParent n0 prev).setParent x n0
        return ({ h with stored := e :: h.stored }, some n0)
    | (none, none) => none
    | (none, some x) =>
      if (h.node x).maskbitcount = (h.node n0).maskbitcount then return (h, none)
      else
        let h := h.setDupkey n0 (h.node x).dupkey
        let prev ← (h.node x).parent
        let h := (h.setParent n0 prev).setParent x n0
        let h := if (h.node prev).left = some x then h.setLeft prev n0 else h.setRight prev n0
        return ({ h with stored := e :: h.stored }, some n0)

/-! ## Deleting -/

/-- The search on the `dupkey` list of `ipf_rx_delete`. -/
def dupFind (h : Head) (count : ℕ) : ℕ → Option Ptr → Option (Option Ptr)
  | _, none => some none
  | 0, some _ => none
  | n + 1, some node =>
    if (h.node node).maskbitcount ≠ count then dupFind h count n (h.node node).dupkey else some (some node)

/-- `parent` instead of `prev` below `top`. -/
def replaceChild (h : Head) (top prev parent : Ptr) : Head :=
  if (h.node top).right = some prev then h.setRight top parent else h.setLeft top parent

/-- The other side of `parent` goes below `cur`. -/
def spliceOut (h : Head) (found parent cur : Ptr) : Option Head :=
  if (h.node cur).right = some parent then do
    let s ← if (h.node parent).left = some found then (h.node parent).right
      else if (h.node parent).left ≠ parent.pred then (h.node parent).left else parent.pred
    return (h.setRight cur s).setParent s cur
  else do
    let s ← if (h.node parent).right = some found then (h.node parent).left
      else if (h.node parent).right ≠ parent.pred then (h.node parent).right else parent.pred
    return (h.setLeft cur s).setParent s cur

/-- `parent` takes over from `prev`. -/
def takePlace (h : Head) (parent prev : Ptr) : Option Head := do
  let h := h.upd parent fun n => { n with left := (h.node prev).left }
  let h := if (h.node prev).right ≠ some parent then h.upd parent fun n => { n with right := (h.node prev).right } else h
  let l ← (h.node parent).left
  let h := h.setParent l parent
  let r ← (h.node parent).right
  let h := h.setParent r parent
  return h.upd parent fun n => { n with
    parent := (h.node prev).parent
    bitmask := (h.node prev).bitmask
    offset := (h.node prev).offset
    index := (h.node prev).index }

/-- Taking a leaf from the tree whose parent is not its own inner node: the parent goes where that is. -/
def unlinkMoved (h : Head) (found parent prev : Ptr) : Option Head := do
  let cur ← (h.node parent).parent
  let top ← (h.node prev).parent
  let h ← spliceOut (replaceChild h top prev parent) found parent cur
  takePlace h parent prev

/-- Taking a leaf from the tree whose parent is its own inner node. -/
def unlinkEdge (h : Head) (found parent : Ptr) : Option Head := do
  let cur ← (h.node parent).parent
  let l ← (h.node parent).left
  let r ← (h.node parent).right
  if (h.node cur).left = some parent then
    if l = found then return (h.setLeft cur r).setParent r cur else return (h.setLeft cur l).setParent l cur
  else
    if r ≠ found then return (h.setRight cur r).setParent r cur else return (h.setRight cur l).setParent l cur

/-- The loop that looks for the mask of `cur` on its own list. -/
def dropMask (h : Head) (cur : Ptr) : ℕ → Link Ptr ℕ → Option Head
  | n, pm =>
    match h.masks.get pm with
    | none => some h
    | some m =>
      match n with
      | 0 => none
      | n + 1 => do
        let k ← h.mask m
        if k.node = cur then return { h with masks := h.masks.set pm (h.masks.next m) } else dropMask h cur n (.next m)

/-- The loop of `ipf_rx_delete` that goes up to remove the mask. -/
def dropMasks (found : Ptr) : ℕ → Head → Ptr → Option Head
  | 0, _, _ => none
  | n + 1, h, cur =>
    if (h.node cur).root then some h
    else if (h.node cur).maskbitcount ≤ (h.node found).maskbitcount then some h
    else do
      let own ← cur.pred
      let data ← (h.node own).addrkey
      let key ← (h.node found).addrkey
      if word mem data (h.node found).offset &&& (h.node found).bitmask ≠ word mem key (h.node found).offset then return h
      else
        let h ← dropMask h cur h.fuel (.head cur)
        (h.node cur).parent.bind (dropMasks found n h)

/-- The loop of `ipf_rx_delete` that sends masks down. -/
def sendMasks (found parent : Ptr) : ℕ → Head → Option Head
  | n, h =>
    match h.masks.head parent with
    | none => some h
    | some m =>
      match n with
      | 0 => none
      | n + 1 => do
        let k ← h.mask m
        let h := { h with masks := h.masks.set (.head parent) (h.masks.next m) }
        if k.node = found then sendMasks found parent n h
        else
          let key ← (h.node found).addrkey
          if word mem key (h.node k.node).offset &&& (h.node k.node).lastmask ≠ 0 then do
            let right ← (h.node parent).right
            let h ← ipfRxAttachMask h right m
            sendMasks found parent n h
          else if (h.node parent).left ≠ some found then do
            let left ← (h.node parent).left
            let h ← ipfRxAttachMask h left m
            sendMasks found parent n h
          else sendMasks found parent n h

/-- The end of `ipf_rx_delete`, with `KFREE` of the mask. -/
def deleteMasks (h : Head) (found parent : Ptr) : Option Head := do
  let h ← dropMasks mem found h.fuel h parent
  let h := match (h.node found).mymask with
    | some m => { h with mask := Function.update h.mask m none }
    | none => h
  sendMasks mem found parent h.fuel h

/-- The entry a leaf is in. -/
def Ptr.entry : Ptr → Option ℕ
  | .nodes e 0 => some e
  | _ => none

def Head.forget (h : Head) (p : Ptr) : Head := { h with stored := h.stored.filter fun e => p.entry ≠ some e }

/-- `ipf_rx_delete`; the second result is what it returns. -/
def ipfRxDelete (h : Head) (addr mask : ℕ) : Option (Head × Option Ptr) := do
  let found ← ipfRxFindAddr h (mem addr).word h.fuel (.root 1)
  if (h.node found).root then return (h, none)
  else
    let count := (countMaskBits (mem mask).word (mem mask).len 1).1
    let parent ← (h.node found).parent
    if (h.node found).dupkey ≠ none then
      match ← dupFind h count h.fuel (some found) with
      | none => return (h, none)
      | some node =>
        if node ≠ found then
          let parent ← (h.node node).parent
          let next ← (h.node node).dupkey
          let h ← deleteMasks mem ((h.setDupkey parent (some next)).setParent next parent) found parent
          return (h.forget node, some found)
        else
          let node ← (h.node found).dupkey
          let l ← (h.node found).left
          let r ← (h.node found).right
          let h := ((h.setParent node parent).setRight node r).setLeft node l
          let h := (h.setParent r node).setParent l node
          let h := if (h.node parent).left = some found then h.setLeft parent node else h.setRight parent node
          let h ← deleteMasks mem h found parent
          return (h.forget found, some found)
    else if count ≠ (h.node found).maskbitcount then return (h, none)
    else
      let prev ← found.succ
      let h ← if parent ≠ prev then unlinkMoved h found parent prev else unlinkEdge h found parent
      let h ← deleteMasks mem h found parent
      return (h.forget found, some found)

/-! ## Looking up -/

/-- `ipf_rx_lookup`. Only the word at `offset` is compared. -/
def ipfRxLookup (h : Head) (addr mask : ℕ) : Option (Option Ptr) := do
  let found ← ipfRxFindAddr h (mem addr).word h.fuel (.root 1)
  if (h.node found).root then return none
  else
    let count := (countMaskBits (mem mask).word (mem mask).len 1).1
    if count ≠ (h.node found).maskbitcount ∧ (h.node found).dupkey = none then return none
    else
      let data ← (h.node found).addrkey
      let own ← (h.node found).maskkey
      let i := (h.node found).offset
      if word mem data i &&& word mem own i ≠ (mem addr).word i then return none
      else if (h.node found).dupkey ≠ none then dupFind h count h.fuel (some found)
      else return some found

end Memory

/-! ## Walking -/

/-- Down to the left. -/
def walkDown (h : Head) : ℕ → Ptr → Option Ptr
  | 0, _ => none
  | n + 1, node => if 0 ≤ (h.node node).index then (h.node node).left.bind (walkDown h n) else some node

/-- Up as long as one comes from the right. -/
def walkUp (h : Head) : ℕ → Ptr → Option Ptr
  | 0, _ => none
  | n + 1, node => do
    let parent ← (h.node node).parent
    if (h.node parent).right = some node ∧ (h.node node).root = false then walkUp h n parent else return node

/-- The calls for a leaf and its `dupkey` list. -/
def walkDup (h : Head) : ℕ → Option Ptr → Option (List Ptr)
  | _, none => some []
  | 0, some _ => none
  | n + 1, some node => do
    let rest ← walkDup h n (h.node node).dupkey
    return if (h.node node).root then rest else node :: rest

/-- The loop of `ipf_rx_walktree`; the result are the nodes `walker` is called for. -/
def walkLoop (h : Head) : ℕ → Ptr → Option (List Ptr)
  | 0, _ => none
  | n + 1, base => do
    let node ← walkUp h h.fuel base
    let parent ← (h.node node).parent
    let right ← (h.node parent).right
    let next ← walkDown h h.fuel right
    let calls ← walkDup h h.fuel (some base)
    if (h.node next).root then return calls
    else
      let rest ← walkLoop h n next
      return calls ++ rest

/-- `ipf_rx_walktree`, for a `walker` that leaves the tree alone. -/
def ipfRxWalktree (h : Head) : Option (List Ptr) := do
  let node ← walkDown h h.fuel (.root 1)
  walkLoop h h.fuel node

/-- `ipf_rx_inithead` -/
def ipfRxInithead : Head where
  node
    | .root 0 => { Node.zero with
      index := -1 - (ADF_OFF_BITS : ℕ), parent := some (.root 1), root := true, offset := 1, addrkey := some .zeros }
    | .root 1 => { Node.zero with
      index := ADF_OFF_BITS, parent := some (.root 1), root := true, offset := 1, bitmask := TOPBIT,
      left := some (.root 0), right := some (.root 2) }
    | .root 2 => { Node.zero with
      index := -1 - (ADF_OFF_BITS : ℕ), parent := some (.root 1), root := true, offset := 1, addrkey := some .ones }
    | .nodes _ _ => Node.zero
  masks := Mem.empty
  mask := fun _ => none
  stored := []

end Ipfilter.Radix
