import Mathlib.Data.Int.Notation
import Ipfilter.RedBlack.Tree

/-!
# The red-black tree of `ipf_rb.h`

`RBI_CODE` makes the operations of a tree of structures `_t` with a link field and a comparison. Here `D` is the rest of
the structure. A leaf is a pointer to the shared sentinel `_rb_zero`, and the root hangs on the right of `head->top`,
which is also its parent.

Where the source has a piece of code twice, for the left and for the right, the piece is written once for a side, and the
differences between the two are kept: `insert` names the node above in two ways, and only one of the two last rotations
of `deleteblack` is followed by a `break`.
-/

namespace Ipfilter.Rb

open RedBlack

/-- A pointer: to the sentinel, to `head->top`, or to a node. -/
inductive Ref where
  | zero
  | top
  | node (i : ℕ)
  deriving DecidableEq

/-- A structure in memory: `left` is `link false`, and `right` is `link true`. -/
structure Node (D : Type) where
  link : Bool → Ref
  parent : Ref
  colour : Colour
  data : D

/-- The head of a tree, with the memory. -/
structure Head (D : Type) where
  cell : Ref → Node D
  count : ℤ

variable {D : Type}

/-- `x->left = r` or `x->right = r`. -/
def Head.setLink (h : Head D) (x : Ref) (d : Bool) (r : Ref) : Head D :=
  { h with cell := Function.update h.cell x { h.cell x with link := Function.update (h.cell x).link d r } }

/-- `x->parent = r`. -/
def Head.setParent (h : Head D) (x r : Ref) : Head D :=
  { h with cell := Function.update h.cell x { h.cell x with parent := r } }

/-- `x->colour = c`. -/
def Head.setColour (h : Head D) (x : Ref) (c : Colour) : Head D :=
  { h with cell := Function.update h.cell x { h.cell x with colour := c } }

/-- `*x = n`. -/
def Head.setNode (h : Head D) (x : Ref) (n : Node D) : Head D := { h with cell := Function.update h.cell x n }

/-- The fields of a structure other than the link field. -/
def Head.setData (h : Head D) (x : Ref) (k : D) : Head D :=
  { h with cell := Function.update h.cell x { h.cell x with data := k } }

/-- `_rb_init`. The nodes that are not in the tree hold anything. -/
def init (blank : D) (cells : ℕ → Node D) : Head D where
  cell
    | .zero => ⟨fun _ => .zero, .zero, .black, blank⟩
    | .top => ⟨fun _ => .zero, .top, .black, blank⟩
    | .node i => cells i
  count := 0

/-! ## Rotations -/

/-- The node goes down on its side `d`. -/
def rotate (d : Bool) (h : Head D) (node : Ref) : Head D :=
  let parent := (h.cell node).parent
  let tmp1 := (h.cell node).link (!d)
  let tmp2 := (h.cell tmp1).link d
  let h := h.setLink node (!d) tmp2
  let h := if tmp2 ≠ .zero then h.setParent tmp2 node else h
  let h :=
    if parent = .zero then h.setLink .top true tmp1
    else if (h.cell parent).link true = node then h.setLink parent true tmp1
    else h.setLink parent false tmp1
  let h := h.setLink tmp1 d node
  let h := h.setParent tmp1 parent
  h.setParent node tmp1

def rotateLeft (h : Head D) (node : Ref) : Head D := rotate false h node

def rotateRight (h : Head D) (node : Ref) : Head D := rotate true h node

/-! ## Insertion -/

/-- The way down: `p` is the link `d` of `parent`. -/
def descend (cmp : D → D → ℤ) (h : Head D) (node : Ref) : ℕ → Ref → Bool → Option (Ref × Bool)
  | 0, _, _ => none
  | fuel + 1, parent, d =>
    let n := (h.cell parent).link d
    if n = .zero then some (parent, d)
    else descend cmp h node fuel n (!decide (cmp (h.cell node).data (h.cell n).data < 0))

/-- A pass of the loop that paints, when `parent` is on the side `d` of `gparent`, and the next `node`. -/
def insertPass (d : Bool) (h : Head D) (node parent gparent : Ref) : Head D × Ref :=
  let tmp1 := (h.cell gparent).link (!d)
  if (h.cell tmp1).colour = .red then
    (((h.setColour parent .black).setColour tmp1 .black).setColour gparent .red, gparent)
  else
    let turned :=
      if node = (h.cell parent).link (!d) then
        let h := rotate d h parent
        (h, parent, (h.cell parent).parent)
      else (h, node, parent)
    let h := turned.1
    let node := turned.2.1
    let parent := turned.2.2
    let h := (h.setColour parent .black).setColour gparent .red
    -- `rotate_right(head, gparent)` on the left, `rotate_left(head, parent->_f.parent)` on the right
    (rotate (!d) h (if d then (h.cell parent).parent else gparent), node)

/-- The loop that paints. -/
def insertLoop : ℕ → Head D → Ref → Ref → Option (Head D)
  | 0, _, _, _ => none
  | fuel + 1, h, node, parent =>
    if node ≠ .zero ∧ (h.cell parent).colour = .red then
      let gparent := (h.cell parent).parent
      let r := insertPass (!decide (parent = (h.cell gparent).link false)) h node parent gparent
      insertLoop fuel r.1 r.2 (r.1.cell r.2).parent
    else some h

/-- `_rb_insert`. -/
def insert (cmp : D → D → ℤ) (fuel : ℕ) (h : Head D) (node : Ref) : Option (Head D) := do
  let h := (h.setLink node false .zero).setLink node true .zero
  let p ← descend cmp h node fuel .top true
  let h := ((h.setLink p.1 p.2 node).setColour node .red).setParent node p.1
  let h ← insertLoop fuel h node p.1
  let h := h.setColour ((h.cell .top).link true) .black
  some { h with count := h.count + 1 }

/-! ## Deletion -/

/-- `r == &_rb_zero || r->colour == C_BLACK`. -/
def Head.isBlack (h : Head D) (r : Ref) : Bool := decide (r = .zero ∨ (h.cell r).colour = .black)

/-- What a pass of the loop of `deleteblack` leaves. -/
structure Pass (D : Type) where
  head : Head D
  node : Ref
  parent : Ref
  /-- The pass ends with `break`. -/
  stop : Bool

/-- A red `tmp` is rotated away. -/
def deleteRed (d : Bool) (h : Head D) (parent : Ref) : Head D :=
  let tmp := (h.cell parent).link (!d)
  if (h.cell tmp).colour = .red then rotate d ((h.setColour tmp .black).setColour parent .red) parent else h

/-- A red node on the near side of `tmp` is rotated to the far side. -/
def deleteNear (d : Bool) (h : Head D) (tmp : Ref) : Head D :=
  if h.isBlack ((h.cell tmp).link (!d)) then
    let tmp2 := (h.cell tmp).link d
    let h := if tmp2 ≠ .zero then h.setColour tmp2 .black else h
    rotate (!d) (h.setColour tmp .red) tmp
  else h

/-- The last rotation. -/
def deleteFar (d : Bool) (h : Head D) (parent tmp : Ref) : Head D :=
  let h := h.setColour tmp (h.cell parent).colour
  let h := h.setColour parent .black
  let h := if (h.cell tmp).link (!d) ≠ .zero then h.setColour ((h.cell tmp).link (!d)) .black else h
  rotate d h parent

/-- A pass of the loop of `deleteblack` when `node` is taken to be on the side `d` of `parent`. -/
def deletePass (d : Bool) (h : Head D) (parent : Ref) : Pass D :=
  let h := deleteRed d h parent
  let tmp := (h.cell parent).link (!d)
  if h.isBlack ((h.cell tmp).link false) && h.isBlack ((h.cell tmp).link true) then
    let h := h.setColour tmp .red
    ⟨h, parent, (h.cell parent).parent, false⟩
  else
    let h := deleteNear d h tmp
    let h := deleteFar d h parent ((h.cell parent).link (!d))
    -- there is no `break` in the branch for the left
    ⟨h, (h.cell .top).link true, parent, d⟩

/-- The loop of `deleteblack`. -/
def deleteLoop : ℕ → Head D → Ref → Ref → Option (Head D × Ref)
  | 0, _, _, _ => none
  | fuel + 1, h, parent, node =>
    if h.isBlack node = true ∧ node ≠ .top then
      let r := deletePass (!decide ((h.cell parent).link false = node)) h parent
      if r.stop then some (r.head, r.node) else deleteLoop fuel r.head r.parent r.node
    else some (h, node)

/-- `deleteblack`. -/
def deleteblack (fuel : ℕ) (h : Head D) (parent node : Ref) : Option (Head D) := do
  let r ← deleteLoop fuel h parent node
  some (if r.2 ≠ .zero then r.1.setColour r.2 .black else r.1)

/-- The last node on the way `left`. -/
def leftmost (h : Head D) : ℕ → Ref → Option Ref
  | 0, _ => none
  | fuel + 1, node => if (h.cell node).link false = .zero then some node else leftmost h fuel ((h.cell node).link false)

/-- `child` takes the place of `node` below `parent`. -/
def Head.splice (h : Head D) (node child parent : Ref) : Head D :=
  let h := if child ≠ .zero then h.setParent child parent else h
  if parent ≠ .zero then
    if (h.cell parent).link false = node then h.setLink parent false child else h.setLink parent true child
  else h.setLink .top true child

/-- The code at the label `colour`. -/
def Head.rebalance (h : Head D) (fuel : ℕ) (color : Colour) (parent node : Ref) : Option (Head D) := do
  let h ← match color with
    | .black => deleteblack fuel h parent node
    | .red => some h
  some { h with count := h.count - 1 }

/-- The branch of `_rb_delete` for a node with two children: the next node is taken out, and is made a copy of `old`. -/
def deleteTwo (fuel : ℕ) (h : Head D) (old : Ref) : Option (Head D) := do
  let node ← leftmost h fuel ((h.cell old).link true)
  let child := (h.cell node).link true
  let parent := (h.cell node).parent
  let color := (h.cell node).colour
  let h := h.splice node child parent
  let parent := if (h.cell node).parent = old then node else parent
  let h := h.setNode node (h.cell old)
  let above := (h.cell old).parent
  let h :=
    if above ≠ .zero then
      if (h.cell above).link false = old then h.setLink above false node else h.setLink above true node
    else h.setLink .top true child
  let h := h.setParent ((h.cell old).link false) node
  let h := if (h.cell old).link true ≠ .zero then h.setParent ((h.cell old).link true) node else h
  h.rebalance fuel color parent node

/-- The branch for a node with at most one child. -/
def deleteOne (fuel : ℕ) (h : Head D) (node child : Ref) : Option (Head D) :=
  let parent := (h.cell node).parent
  let color := (h.cell node).colour
  let h := h.splice node child parent
  h.rebalance fuel color parent node

/-- `_rb_delete`. -/
def delete (fuel : ℕ) (h : Head D) (node : Ref) : Option (Head D) :=
  if (h.cell node).link false = .zero then deleteOne fuel h node ((h.cell node).link true)
  else if (h.cell node).link true = .zero then deleteOne fuel h node ((h.cell node).link false)
  else deleteTwo fuel h node

/-! ## Walks and searches -/

/-- `while (node != &_rb_zero) node = node->left`. -/
def walkLeft (h : Head D) : ℕ → Ref → Option Ref
  | 0, _ => none
  | fuel + 1, node => if node = .zero then some node else walkLeft h fuel ((h.cell node).link false)

/-- Up from right children. The result is `prev`. -/
def walkUp (h : Head D) : ℕ → Ref → Ref → Option Ref
  | 0, _, _ => none
  | fuel + 1, prev, node =>
    if (h.cell (h.cell node).parent).link true = node ∧ node ≠ .zero then walkUp h fuel node (h.cell node).parent
    else some prev

/-- Down to the left. The result is `node` and `prev`. -/
def walkDown (h : Head D) : ℕ → Ref → Ref → Option (Ref × Ref)
  | 0, _, _ => none
  | fuel + 1, prev, node => if node ≠ .zero then walkDown h fuel node ((h.cell node).link false) else some (node, prev)

/-- The endless loop of `_rb_walktree`. `calls` are the nodes that `func` was called for. -/
def walkLoop (h : Head D) : ℕ → Ref → List Ref → Option (List Ref)
  | 0, _, _ => none
  | fuel + 1, node, calls => do
    let prev ← walkUp h fuel node node
    let r ← walkDown h fuel prev ((h.cell (h.cell prev).parent).link true)
    let calls := if r.1 ≠ .zero then calls ++ [r.1] else calls
    if r.2 = .zero then some calls else walkLoop h fuel r.2 calls

/-- `_rb_walktree`: the nodes that `func` is called for. -/
def walktree (fuel : ℕ) (h : Head D) : Option (List Ref) := do
  let node ← walkLeft h fuel ((h.cell .top).link true)
  walkLoop h fuel node []

/-- The loop of `_rb_search`. -/
def searchLoop (cmp : D → D → ℤ) (h : Head D) (key : D) : ℕ → Ref → Option (Option Ref)
  | 0, _ => none
  | fuel + 1, node =>
    if node = .zero then some none
    else
      let found := cmp key (h.cell node).data
      if found = 0 then some (some node)
      else searchLoop cmp h key fuel ((h.cell node).link (!decide (found < 0)))

/-- `_rb_search`: `some none` is `NULL`. -/
def search (cmp : D → D → ℤ) (fuel : ℕ) (h : Head D) (key : D) : Option (Option Ref) :=
  searchLoop cmp h key fuel ((h.cell .top).link true)

/-! ## Runs -/

/-- A call: the insertion of the node `i` with the data `k`, or the deletion of the node `i`. -/
inductive Op (D : Type) where
  | insert (i : ℕ) (k : D)
  | delete (i : ℕ)

/-- A call, with a bound on the passes of its loops. -/
def step (cmp : D → D → ℤ) (fuel : ℕ) (h : Head D) : Op D → Option (Head D)
  | .insert i k => Rb.insert cmp fuel (h.setData (.node i) k) (.node i)
  | .delete i => Rb.delete fuel h (.node i)

end Ipfilter.Rb
