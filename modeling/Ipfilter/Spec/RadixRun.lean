import Ipfilter.Spec.Radix

/-!
# Runs of the radix tree

Calls of `ipf_rx_addroute` and `ipf_rx_delete` on one head, with a list of what they are to have stored.
-/

namespace Ipfilter.Radix

open Chain

/-! ## Prefixes -/

/-- The bits of a key, from the first one of the structure on. -/
def bitsOf (k : Key) (d : ℕ) : Bool := (k (d / 32)).getMsbD (d % 32)

/-- A mask of `n` words whose first `b` bits are set. -/
structure Contiguous (n b : ℕ) (mask : Key) : Prop where
  le : b ≤ 32 * n
  bit : ∀ d < 32 * n, bitsOf mask (32 + d) = decide (d < b)

/-- The address is masked already. -/
def Masked (n : ℕ) (key mask : Key) : Prop := ∀ i, 1 ≤ i → i ≤ n → key i &&& mask i = key i

section Memory

variable (mem : ℕ → Adf)

/-- `count_mask_bits` of a mask. -/
def maskBits (mask : ℕ) : ℕ := (countMaskBits (mem mask).word (mem mask).len 1).1

/-- An address with a netmask: an `addrfamily_t` has room for four words, and a netmask has no gaps. -/
structure Pair (addr mask : ℕ) : Prop where
  len : (mem addr).len ≤ 4
  mask_len : (mem mask).len = (mem addr).len
  contiguous : ∃ b, Contiguous (mem addr).len b (mem mask).word

/-- The same address. -/
def sameKey (a b : Adf) : Bool := a.len = b.len ∧ ∀ i < a.len, a.word (i + 1) = b.word (i + 1)

/-- An entry that was added, with its address and netmask. -/
structure Stored where
  entry : ℕ
  addr : ℕ
  mask : ℕ
  deriving DecidableEq, Repr

/-- It has this address and netmask. -/
def Stored.has (x : Stored) (addr mask : ℕ) : Bool :=
  sameKey (mem x.addr) (mem addr) ∧ maskBits mem x.mask = maskBits mem mask

/-! ## Calls -/

/-- The calls. `m` is the memory that the new mask is given. -/
inductive Op
  | add (e addr mask m : ℕ)
  | delete (addr mask : ℕ)

/-- One call. -/
def step (h : Head) : Op → Option (Head × Option Ptr)
  | .add e addr mask m => ipfRxAddroute mem h e addr mask m
  | .delete addr mask => ipfRxDelete mem h addr mask

/-- What is stored after a call that returned `r`. -/
def Op.after (S : List Stored) (r : Option Ptr) : Op → List Stored
  | .add e addr mask _ => if r = none then S else ⟨e, addr, mask⟩ :: S
  | .delete addr mask => S.filter fun x => x.has mem addr mask = false

/-- A new entry has its own address, and new memory is not in use. -/
def Op.Legal (h : Head) (S : List Stored) : Op → Prop
  | .add e addr mask m => Pair mem addr mask ∧ (∀ x ∈ S, x.entry ≠ e ∧ x.addr ≠ addr) ∧ h.mask m = none
  | .delete addr mask => Pair mem addr mask

/-- The runs whose calls all meet `ok`. -/
inductive Run (ok : Head → Op → Prop) : List Stored → Head → Prop
  | init : Run ok [] ipfRxInithead
  | step {S : List Stored} {h h' : Head} {r : Option Ptr} (op : Op) : Run ok S h → op.Legal mem h S → ok h op →
      step mem h op = some (h', r) → Run ok (op.after mem S r) h'

/-! ## When the tree stays right -/

/-- The leaf an address leads to. -/
def leadsTo (h : Head) (addr : ℕ) : Option Ptr := ipfRxFindAddr h (mem addr).word h.fuel (.root 1)

/-- The masks of a node, one after the other. -/
def maskAt (h : Head) (p : Ptr) : ℕ → Option ℕ
  | 0 => h.masks.head p
  | n + 1 => (maskAt h p n).bind h.masks.next

/-- `ipf_rx_delete` of the leaf `p` sends the mask to the right. -/
def sentRight (h : Head) (p : Ptr) (m : ℕ) : Prop :=
  ∃ k a, h.mask m = some k ∧ (h.node p).addrkey = some a ∧
    word mem a (h.node k.node).offset &&& (h.node k.node).lastmask ≠ 0

/-- All addresses have `n` words. A masked address may be added that is not in the tree, also not as one of
the two of the head. A deletion may find an entry with the address it is for, as long as the mask of that is
on its own leaf, and no mask is sent to this leaf. -/
def Op.Keeps (n : ℕ) (h : Head) : Op → Prop
  | .add _ addr mask _ => (mem addr).len = n ∧ Masked n (mem addr).word (mem mask).word ∧
      ∀ p data, leadsTo mem h addr = some p → (h.node p).addrkey = some data →
        ∃ i, 1 ≤ i ∧ i ≤ n ∧ (mem addr).word i ≠ word mem data i
  | .delete addr mask => (mem addr).len = n ∧ ∀ p, leadsTo mem h addr = some p → (h.node p).root = false →
      (h.node p).maskbitcount = maskBits mem mask →
        (∃ a, (h.node p).addrkey = some (.at a) ∧ sameKey (mem a) (mem addr) = true) ∧
        (∃ m i, (h.node p).mymask = some m ∧ maskAt h p i = some m) ∧
        ∀ parent i m, (h.node p).parent = some parent → p.succ = some parent → (h.node parent).right = some p →
          maskAt h parent i = some m → ¬sentRight mem h p m

/-- `ipf_rx_lookup` is asked for an address that differs in the word it compares from the one it finds, or
not at all. -/
def Asks (n : ℕ) (h : Head) (addr mask : ℕ) : Prop :=
  (mem addr).len = n ∧ ∀ p a, leadsTo mem h addr = some p → (h.node p).addrkey = some (.at a) →
    (h.node p).maskbitcount = maskBits mem mask →
      (mem a).word (h.node p).offset = (mem addr).word (h.node p).offset → sameKey (mem a) (mem addr) = true

end Memory

/-! ## The pointers -/

/-- The nodes of the tree: those of the head and two for each entry. -/
def InTree (S : List Stored) : Ptr → Prop
  | .root _ => True
  | .nodes e _ => ∃ x ∈ S, x.entry = e

/-- **The pointers of the tree are consistent.** An inner node has two nodes below it that have it above, and
what is above another node than the first has that node on one side. -/
structure Consistent (S : List Stored) (h : Head) : Prop where
  child : ∀ p, InTree S p → 0 ≤ (h.node p).index → ∃ l r, l ≠ r ∧ InTree S l ∧ InTree S r ∧
    (h.node p).left = some l ∧ (h.node p).right = some r ∧ (h.node l).parent = some p ∧ (h.node r).parent = some p
  parent : ∀ p, InTree S p → p ≠ .root 1 → ∃ q, InTree S q ∧ 0 ≤ (h.node q).index ∧
    (h.node p).parent = some q ∧
    ((h.node q).left = some p ∨ (h.node q).right = some p)

end Ipfilter.Radix
