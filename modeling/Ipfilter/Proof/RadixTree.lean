import Ipfilter.Patricia.Heap
import Ipfilter.Proof.RadixBits

/-!
# The tree of `radix_ipf.c`

The nodes of a head are a Patricia tree over the bits of the addresses, between a leaf of zeros and
a leaf of ones.

* `Shape`: this tree, in memory.
* `Shape.find`, `Shape.insertPlace`: `ipf_rx_find_addr` and the way down of `ipf_rx_insert`.
* `Shape.link`: linking new nodes adds a leaf.
* `Shape.unlink`: taking a leaf out, whichever way.
-/

namespace Ipfilter.Radix

open Chain Patricia List
open Option (map_some mem_unique)

variable {mem : ℕ → Adf} {h h' : Head} {t t' : Trie Ptr} {n p q : Ptr} {x : Key} {i d fuel : ℕ}

@[simp] theorem node_upd {f : Node → Node} : (h.upd p f).node q = if q = p then f (h.node p) else h.node q := by
  simp [Head.upd, Function.update_apply]

/-- A node as a cell. -/
def Node.cell (n : Node) : Cell Ptr := ⟨n.left, n.right, n.parent, if 0 ≤ n.index then some n.index.toNat else none⟩

def Head.cells (h : Head) (p : Ptr) : Cell Ptr := (h.node p).cell

/-- The key of a leaf. -/
def Head.key (mem : ℕ → Adf) (h : Head) (p : Ptr) : Key := ((h.node p).addrkey.map (word mem)).getD fun _ => 0

/-- The node tests the bit its index says. -/
structure Tests (n : Node) : Prop where
  nonneg : 0 ≤ n.index
  small : n.index < 2 ^ 31
  bitmask : n.bitmask = TOPBIT >>> (n.index.toNat % 32)
  offset : n.offset = n.index.toNat / 32

/-- **The tree of a head.** -/
structure Shape (mem : ℕ → Adf) (h : Head) (t : Trie Ptr) : Prop where
  linked : Linked h.cells (.root 1) t
  nodup : t.all.Nodup
  top : ∃ l r, t = .node (.root 1) 32 l r
  sound : Sound (fun p => bitsOf (h.key mem p)) 32 t
  tests : ∀ p ∈ t.inner, Tests (h.node p)
  leaf : ∀ p ∈ t.leaves, (h.node p).index < 0 ∧ -2 ^ 31 ≤ (h.node p).index

/-! ## Going down -/

theorem Tests.bit (ht : Tests (h.node p)) : (h.cells p).bit = some (h.node p).index.toNat := by
  simp [Head.cells, Node.cell, ht.nonneg]

/-- The test of a node. -/
theorem Tests.and (ht : Tests (h.node p)) :
    x (h.node p).offset &&& (h.node p).bitmask ≠ 0 ↔ bitsOf x (h.node p).index.toNat = true := by
  rw [ht.bitmask, ht.offset, and_bitmask (by omega)]
  rfl

theorem find_linked (hl : Linked h.cells p t) (ht : ∀ p ∈ t.inner, Tests (h.node p))
    (hle : ∀ p ∈ t.leaves, (h.node p).index < 0) (hf : (t.path (bitsOf x)).length < fuel) :
    ipfRxFindAddr h x fuel t.top = some (t.find (bitsOf x)) := by
  induction t generalizing p fuel with
  | leaf c =>
    obtain ⟨fuel, rfl⟩ : ∃ f, fuel = f + 1 := ⟨fuel - 1, by simp [Trie.path] at hf; omega⟩
    have := hle c (by simp [Trie.leaves])
    change ipfRxFindAddr h x (fuel + 1) c = some c
    unfold ipfRxFindAddr
    rw [if_neg (by omega)]
  | node c i l r ihl ihr =>
    obtain ⟨fuel, rfl⟩ : ∃ f, fuel = f + 1 := ⟨fuel - 1, by simp [Trie.path] at hf; omega⟩
    have hc := ht c (by simp [Trie.inner])
    obtain ⟨-, h2, h3, h4, h5, h6⟩ := hl
    obtain rfl : (h.node c).index.toNat = i := mem_unique hc.bit h2
    replace h3 : (h.node c).left = some l.top := h3
    replace h4 : (h.node c).right = some r.top := h4
    simp only [Trie.path, length_cons] at hf
    change ipfRxFindAddr h x (fuel + 1) c = _
    unfold ipfRxFindAddr Node.side Trie.find
    rw [if_pos hc.nonneg, BitVec.and_comm]
    by_cases hx : bitsOf x (h.node c).index.toNat = true
    · rw [if_pos (hc.and.2 hx), if_pos hx, h4]
      rw [if_pos hx] at hf
      exact ihr h6 (fun p hp => ht p (by simp [Trie.inner, hp])) (fun p hp => hle p (by simp [Trie.leaves, hp])) (by omega)
    · rw [if_neg (fun e => hx (hc.and.1 e)), if_neg hx, h3]
      rw [if_neg hx] at hf
      exact ihl h5 (fun p hp => ht p (by simp [Trie.inner, hp])) (fun p hp => hle p (by simp [Trie.leaves, hp])) (by omega)

/-- **`ipf_rx_find_addr` finds the leaf.** -/
theorem Shape.find (hs : Shape mem h t) (x : Key) (hf : t.inner.length < fuel) :
    ipfRxFindAddr h x fuel (.root 1) = some (t.find (bitsOf x)) := by
  have htop : t.top = .root 1 := by
    obtain ⟨l, r, rfl⟩ := hs.top
    rfl
  have := path_length (bitsOf x) t
  rw [← htop]
  exact find_linked hs.linked hs.tests (fun p hp => (hs.leaf p hp).1) (by omega)

/-- The loop of `ipf_rx_insert` that goes down, from a node that tests a bit in front of `d`. -/
theorem place_linked (hl : Linked h.cells p t) (ht : ∀ p ∈ t.inner, Tests (h.node p))
    (hle : ∀ p ∈ t.leaves, (h.node p).index < 0 ∧ -2 ^ 31 ≤ (h.node p).index)
    (hi : ∃ i, (h.cells t.top).bit = some i ∧ i < d) (hd : d < 2 ^ 31) (hf : (t.path (bitsOf x)).length < fuel) :
    insertPlace h x d fuel t.top = some ((t.spot (bitsOf x) d p).1, (t.spot (bitsOf x) d p).2.top) := by
  induction t generalizing p fuel with
  | leaf a =>
    obtain ⟨i, hi, -⟩ := hi
    rw [show (Trie.leaf a).top = a from rfl, hl.2] at hi
    cases hi
  | node c j l r ihl ihr =>
    obtain ⟨fuel, rfl⟩ : ∃ f, fuel = f + 1 := ⟨fuel - 1, by omega⟩
    have hc := ht c (by simp [Trie.inner])
    obtain ⟨-, h2, h3, h4, h5, h6⟩ := hl
    obtain ⟨i, hi', hi⟩ := hi
    obtain rfl : j = i := mem_unique h2 hi'
    obtain rfl : (h.node c).index.toNat = j := mem_unique hc.bit h2
    replace h3 : (h.node c).left = some l.top := h3
    replace h4 : (h.node c).right = some r.top := h4
    simp only [Trie.path, length_cons] at hf
    -- what the loop does at the next node
    have hnext : ∀ s : Trie Ptr, (∀ q ∈ s.inner, Tests (h.node q)) →
        (∀ q ∈ s.leaves, (h.node q).index < 0 ∧ -2 ^ 31 ≤ (h.node q).index) → Linked h.cells c s →
        ((∃ i, (h.cells s.top).bit = some i ∧ i < d) → insertPlace h x d fuel s.top =
          some ((s.spot (bitsOf x) d c).1, (s.spot (bitsOf x) d c).2.top)) →
        (if (h.node s.top).index % 2 ^ 32 < d then insertPlace h x d fuel s.top else some (c, s.top)) =
          some ((s.spot (bitsOf x) d c).1, (s.spot (bitsOf x) d c).2.top) := by
      intro s hin hlv hs ih
      cases s with
      | leaf a =>
        obtain ⟨ha, ha'⟩ := hlv a (by simp [Trie.leaves])
        change (if (h.node a).index % 2 ^ 32 < d then _ else some (c, a)) = some (c, a)
        rw [if_neg (by omega)]
      | node c' i' l' r' =>
        have hc' := hin c' (by simp [Trie.inner])
        obtain ⟨-, g2, -⟩ := hs
        have hi' : (h.node c').index.toNat = i' := mem_unique hc'.bit g2
        have hn := hc'.nonneg
        have hsm := hc'.small
        have hd' : (h.node c').index % 2 ^ 32 = (i' : ℤ) := by omega
        change (if (h.node c').index % 2 ^ 32 < d then insertPlace h x d fuel c' else some (c, c')) = _
        rw [hd']
        by_cases hlt : i' < d
        · rw [if_pos (by omega)]
          exact ih ⟨i', g2, hlt⟩
        · rw [if_neg (by omega)]
          simp [Trie.spot, hlt, Trie.top]
    change insertPlace h x d (fuel + 1) c = _
    unfold insertPlace
    by_cases hx : bitsOf x (h.node c).index.toNat = true
    · rw [if_pos hx] at hf
      have htr : ∀ q ∈ r.inner, Tests (h.node q) := fun q hq => ht q (by simp [Trie.inner, hq])
      have hlr : ∀ q ∈ r.leaves, (h.node q).index < 0 ∧ -2 ^ 31 ≤ (h.node q).index :=
        fun q hq => hle q (by simp [Trie.leaves, hq])
      have := hnext r htr hlr h6 fun hi => ihr h6 htr hlr hi (by omega)
      rw [if_pos (hc.and.2 hx), h4]
      simpa [Trie.spot, hi, hx] using this
    · rw [if_neg hx] at hf
      have htl : ∀ q ∈ l.inner, Tests (h.node q) := fun q hq => ht q (by simp [Trie.inner, hq])
      have hll : ∀ q ∈ l.leaves, (h.node q).index < 0 ∧ -2 ^ 31 ≤ (h.node q).index :=
        fun q hq => hle q (by simp [Trie.leaves, hq])
      have := hnext l htl hll h5 fun hi => ihl h5 htl hll hi (by omega)
      rw [if_neg (fun e => hx (hc.and.1 e)), h3]
      simpa [Trie.spot, hi, hx] using this

/-- **`ipf_rx_insert` finds the place.** -/
theorem Shape.place (hs : Shape mem h t) (hd : 32 < d) (hd' : d < 2 ^ 31) (hf : t.inner.length < fuel) :
    insertPlace h x d fuel (.root 1) =
      some ((t.spot (bitsOf x) d (.root 1)).1, (t.spot (bitsOf x) d (.root 1)).2.top) := by
  have htop : t.top = .root 1 ∧ (h.cells t.top).bit = some 32 := by
    have hl := hs.linked
    obtain ⟨l, r, rfl⟩ := hs.top
    exact ⟨rfl, hl.2.1⟩
  have := path_length (bitsOf x) t
  rw [← htop.1]
  exact place_linked (htop.1 ▸ hs.linked) hs.tests hs.leaf ⟨32, htop.2, hd⟩ hd' (by omega)

/-! ## New nodes -/

/-- What is not a pointer of the tree. -/
def Node.rest (n : Node) : Node := { n with left := none, right := none, parent := none }

@[simp] theorem rest_setLeft : ((h.setLeft p q).node n).rest = (h.node n).rest := by
  simp only [Head.setLeft, node_upd]
  split
  · rename_i e
    rw [e]
    rfl
  · rfl

@[simp] theorem rest_setRight : ((h.setRight p q).node n).rest = (h.node n).rest := by
  simp only [Head.setRight, node_upd]
  split
  · rename_i e
    rw [e]
    rfl
  · rfl

@[simp] theorem rest_setParent : ((h.setParent p q).node n).rest = (h.node n).rest := by
  simp only [Head.setParent, node_upd]
  split
  · rename_i e
    rw [e]
    rfl
  · rfl

theorem rest_linkNodes {e : ℕ} {prev cur : Ptr} : ((linkNodes h e x d prev cur).node n).rest = (h.node n).rest := by
  unfold linkNodes
  dsimp only
  split <;> split <;> simp

/-- Fields that are not pointers of the tree. -/
theorem rest_field {α : Type} (f : Node → α) (hr : (h'.node p).rest = (h.node p).rest) :
    f (h'.node p).rest = f (h.node p).rest := congrArg f hr

theorem key_eq (hr : (h'.node p).rest = (h.node p).rest) : h'.key mem p = h.key mem p := by
  have : (h'.node p).addrkey = (h.node p).addrkey := rest_field Node.addrkey hr
  unfold Head.key
  rw [this]

theorem tests_eq (hr : (h'.node p).rest = (h.node p).rest) (ht : Tests (h.node p)) : Tests (h'.node p) := by
  have h1 : (h'.node p).index = (h.node p).index := rest_field Node.index hr
  have h2 : (h'.node p).bitmask = (h.node p).bitmask := rest_field Node.bitmask hr
  have h3 : (h'.node p).offset = (h.node p).offset := rest_field Node.offset hr
  exact ⟨h1 ▸ ht.nonneg, h1 ▸ ht.small, by rw [h1, h2]; exact ht.bitmask, by rw [h1, h3]; exact ht.offset⟩

/-- What linking the new nodes does to each node. -/
theorem node_linkNodes {e : ℕ} {prev cur : Ptr} (h1 : prev ≠ cur) (h2 : prev ≠ .nodes e 1) (h3 : cur ≠ .nodes e 1) :
    (linkNodes h e x d prev cur).node q = if q = .nodes e 1 then { h.node (.nodes e 1) with
        parent := some prev
        left := if x (d / 32) &&& TOPBIT >>> (d % 32) = 0 then (h.node (.nodes e 1)).left else some cur
        right := if x (d / 32) &&& TOPBIT >>> (d % 32) = 0 then some cur else some (.nodes e 0) }
      else if q = cur then { h.node cur with parent := some (.nodes e 1) }
      else if q = prev then
        if x (h.node prev).offset &&& (h.node prev).bitmask = 0 then { h.node prev with left := some (.nodes e 1) }
        else { h.node prev with right := some (.nodes e 1) }
      else h.node q := by
  have h2' := h2.symm
  have h3' := h3.symm
  have h1' := h1.symm
  unfold linkNodes
  dsimp only
  by_cases c1 : x (h.node prev).offset &&& (h.node prev).bitmask = 0 <;>
    by_cases c2 : x (d / 32) &&& TOPBIT >>> (d % 32) = 0 <;>
    by_cases q1 : q = .nodes e 1 <;> by_cases q2 : q = cur <;> by_cases q3 : q = prev <;>
    simp_all [Head.setLeft, Head.setRight, Head.setParent]

/-- The two new nodes in front of linking them, for the key `x` and the bit `d`. -/
structure Fresh (mem : ℕ → Adf) (h : Head) (t : Trie Ptr) (e : ℕ) (x : Key) (d : ℕ) : Prop where
  leaf_new : .nodes e 0 ∉ t.all
  node_new : .nodes e 1 ∉ t.all
  key : h.key mem (.nodes e 0) = x
  leaf : (h.node (.nodes e 0)).index < 0 ∧ -2 ^ 31 ≤ (h.node (.nodes e 0)).index
  parent : (h.node (.nodes e 0)).parent = some (.nodes e 1)
  left : (h.node (.nodes e 1)).left = some (.nodes e 0)
  tests : Tests (h.node (.nodes e 1))
  index : (h.node (.nodes e 1)).index = d

/-- **Linking new nodes adds a leaf.** -/
theorem Shape.link (hs : Shape mem h t) {e : ℕ} (hf : Fresh mem h t e x d) (hd : 32 < d)
    (hdiff : Differs (fun p => bitsOf (h.key mem p)) 32 t (bitsOf x) d) :
    Shape mem (linkNodes h e x d (t.spot (bitsOf x) d (.root 1)).1 (t.spot (bitsOf x) d (.root 1)).2.top)
      (t.insert (bitsOf x) d (.nodes e 0) (.nodes e 1)) := by
  obtain ⟨l, r, ht⟩ := hs.top
  have hspot := spot_lt (p := .root 1) (x := bitsOf x) (.nodes e 0) (.nodes e 1) hd (ht ▸ hs.nodup)
  rw [← ht] at hspot
  obtain ⟨habove, -, hbelow⟩ := hspot
  have hcur := spot_mem (bitsOf x) d (.root 1) t
  have hne := spot_ne (x := bitsOf x) (d := d) (p := .root 1) hs.nodup fun h => absurd h hbelow
  generalize hprev : (t.spot (bitsOf x) d (.root 1)).1 = prev at habove hne
  generalize hcur' : (t.spot (bitsOf x) d (.root 1)).2.top = cur at hcur hne
  have hall : prev ∈ t.all := mem_all.2 (.inr habove)
  have hn1 : prev ≠ .nodes e 1 := fun e => hf.node_new (e ▸ hall)
  have hn2 : cur ≠ .nodes e 1 := fun e => hf.node_new (e ▸ hcur)
  have hn3 : prev ≠ .nodes e 0 := fun e => hf.leaf_new (e ▸ hall)
  have hn4 : cur ≠ .nodes e 0 := fun e => hf.leaf_new (e ▸ hcur)
  have hnode := fun q => node_linkNodes (h := h) (x := x) (d := d) (q := q) hne hn1 hn2
  have hrest : ∀ q, ((linkNodes h e x d prev cur).node q).rest = (h.node q).rest := fun q => rest_linkNodes
  generalize linkNodes h e x d prev cur = h' at hnode hrest
  -- the bit of the key decides the side of the new leaf
  have hx : (x (d / 32) &&& TOPBIT >>> (d % 32) = 0) ↔ ¬ bitsOf x d = true := by
    rw [← not_iff_not, not_not, ← ne_eq, and_bitmask (by omega)]
    rfl
  -- the cells: the new leaf, the new node, the node below it and the one above
  have hg : Grown h.cells h'.cells (bitsOf x) d (.nodes e 0) (.nodes e 1) (.root 1) t := by
    have hat : ∀ q, q ≠ .nodes e 1 → q ≠ cur → q ≠ prev → h'.node q = h.node q := by
      intro q q1 q2 q3
      rw [hnode q, if_neg q1, if_neg q2, if_neg q3]
    have hcell : ∀ q n, h'.node q = n → h'.cells q = n.cell := fun q n e => congrArg Node.cell e
    have hn01 : (Ptr.nodes e 0) ≠ .nodes e 1 := by simp
    refine ⟨?_, ?_, ?_, ?_, ?_⟩
    · have := hat (.nodes e 0) hn01 hn4.symm hn3.symm
      rw [hcell _ _ this]
      have hlt := hf.leaf.1
      exact ⟨hf.parent, if_neg (by omega)⟩
    · have := hnode (.nodes e 1)
      rw [if_pos rfl] at this
      rw [hcell _ _ this, hprev, hcur']
      have hpos : (0 : ℤ) ≤ d := by omega
      simp only [Node.cell, hf.left, hf.index, hpos, if_true, Int.toNat_natCast, Cell.mk.injEq, and_true]
      by_cases hb : bitsOf x d = true
      · rw [if_neg (fun h => hx.1 h hb), if_neg (fun h => hx.1 h hb), if_pos hb, if_pos hb]
        exact ⟨rfl, rfl⟩
      · rw [if_pos (hx.2 hb), if_pos (hx.2 hb), if_neg hb, if_neg hb]
        exact ⟨rfl, rfl⟩
    · have := hnode cur
      rw [if_neg hn2, if_pos rfl] at this
      rw [hcur', hcell _ _ this]
      rfl
    · intro _ i hi
      have := hnode prev
      rw [if_neg hn1, if_neg hne, if_pos rfl] at this
      rw [hprev] at hi ⊢
      have htest := hs.tests prev habove
      obtain rfl : (h.node prev).index.toNat = i := mem_unique htest.bit hi
      rw [hcell _ _ this]
      by_cases hb : bitsOf x (h.node prev).index.toNat = true
      · rw [if_pos hb, if_neg (htest.and.2 hb)]
        rfl
      · have hz : x (h.node prev).offset &&& (h.node prev).bitmask = 0 := by
          by_contra hz
          exact hb (htest.and.1 hz)
        rw [if_neg hb, if_pos hz]
        rfl
    · intro q hq q1 q2
      rw [hprev] at q1
      rw [hcur'] at q2
      rw [hcell _ _ (hat q (fun e => hf.node_new (e ▸ hq)) q2 q1)]
      rfl
  refine ⟨?_, ?_, ?_, ?_, ?_, ?_⟩
  · exact hs.linked.insert hs.nodup (fun h => absurd h hbelow) hg
  · refine all_insert.nodup_iff.2 ?_
    simp only [nodup_cons, mem_cons, not_or]
    exact ⟨⟨by simp, hf.node_new⟩, hf.leaf_new, hs.nodup⟩
  · rw [ht]
    unfold Trie.insert
    rw [if_pos hd]
    split
    · exact ⟨_, _, rfl⟩
    · exact ⟨_, _, rfl⟩
  · refine hs.sound.insert hdiff ?_ ?_
    · rw [key_eq (hrest _), hf.key]
    · intro c _
      rw [key_eq (hrest c)]
  · intro p hp
    refine tests_eq (hrest p) ?_
    rcases mem_inner_insert.1 hp with rfl | hp
    · exact hf.tests
    · exact hs.tests p hp
  · intro p hp
    have hi : (h'.node p).index = (h.node p).index := rest_field Node.index (hrest p)
    rw [hi]
    rcases mem_leaves_insert.1 hp with rfl | hp
    · exact hf.leaf
    · exact hs.leaf p hp

/-! ## A leaf goes away -/

theorem upd_comm {f f' : Node → Node} (hne : p ≠ q) : (h.upd p f).upd q f' = (h.upd q f').upd p f := by
  unfold Head.upd
  simp only [Function.update_of_ne hne.symm, Function.update_of_ne hne, Function.update_comm hne]

/-- `s` instead of `c` below `g`. -/
def cutHeap (h : Head) (g c s : Ptr) : Head :=
  (if (h.node g).right = some c then h.setRight g s else h.setLeft g s).setParent s g

variable {a b c g s u v : Ptr}

theorem node_cutHeap (hne : g ≠ s) : (cutHeap h g c s).node q = if q = s then { h.node s with parent := some g }
    else if q = g then
      if (h.node g).right = some c then { h.node g with right := some s } else { h.node g with left := some s }
    else h.node q := by
  have hne' := hne.symm
  unfold cutHeap
  by_cases h1 : (h.node g).right = some c <;> by_cases h2 : q = s <;> by_cases h3 : q = g <;>
    simp_all [Head.setLeft, Head.setRight, Head.setParent]

theorem rest_cutHeap : ((cutHeap h g c s).node q).rest = (h.node q).rest := by
  unfold cutHeap
  split <;> simp

/-- The other side, as the code finds it. -/
theorem spliceOut_eq (hb : Beside h.cells a c g s) (hsa : s ≠ a) : spliceOut h a c g = some (cutHeap h g c s) := by
  have hsides : ((h.node c).left = some a ∧ (h.node c).right = some s) ∨
      ((h.node c).right = some a ∧ (h.node c).left = some s) := hb.sides
  have hsa' : some s ≠ some a := by simpa using hsa
  unfold spliceOut cutHeap
  by_cases hr : (h.node g).right = some c
  · rw [if_pos hr, if_pos hr]
    rcases hsides with ⟨h1, h2⟩ | ⟨h1, h2⟩
    · rw [if_pos h1, h2]
      rfl
    · rw [h2, if_neg hsa']
      by_cases hp : some s = c.pred
      · rw [if_neg (not_not.2 hp), ← hp]
        rfl
      · rw [if_pos hp]
        rfl
  · rw [if_neg hr, if_neg hr]
    rcases hsides with ⟨h1, h2⟩ | ⟨h1, h2⟩
    · rw [h2, if_neg hsa']
      by_cases hp : some s = c.pred
      · rw [if_neg (not_not.2 hp), ← hp]
        rfl
      · rw [if_pos hp]
        rfl
    · rw [if_pos h1, h2]
      rfl

theorem unlinkEdge_eq (hb : Beside h.cells a c g s) (hsa : s ≠ a)
    (hg : (h.node g).left = some c ∨ (h.node g).right = some c) (hne : (h.node g).left ≠ (h.node g).right) :
      unlinkEdge h a c = some (cutHeap h g c s) := by
  have hsides : ((h.node c).left = some a ∧ (h.node c).right = some s) ∨
      ((h.node c).right = some a ∧ (h.node c).left = some s) := hb.sides
  have habove : (h.node c).parent = some g := hb.above
  unfold unlinkEdge cutHeap
  by_cases hl : (h.node g).left = some c
  · have hr : (h.node g).right ≠ some c := fun e => hne (hl.trans e.symm)
    rcases hsides with ⟨h1, h2⟩ | ⟨h1, h2⟩
    · simp [habove, h1, h2, hl, hr]
    · simp [habove, h1, h2, hl, hr, hsa]
  · have hr := hg.resolve_left hl
    rcases hsides with ⟨h1, h2⟩ | ⟨h1, h2⟩
    · simp [habove, h1, h2, hl, hr, hsa]
    · simp [habove, h1, h2, hl, hr]

/-- `c` has taken over from `b`, with the sides `u` and `v`. -/
def placeHeap (h : Head) (c b u v : Ptr) : Head :=
  let h := (h.setLeft c u).setRight c v
  let h := (h.setParent u c).setParent v c
  h.upd c fun n => { n with
    parent := (h.node b).parent
    bitmask := (h.node b).bitmask
    offset := (h.node b).offset
    index := (h.node b).index }

theorem takePlace_eq (hl : (h.node b).left = some u) (hr : (h.node b).right = some v) (hbc : b ≠ c) (hvc : v ≠ c)
    (huc : u ≠ c) : takePlace h c b = some (placeHeap h c b u v) := by
  have h1 : (h.upd c fun n => { n with left := (h.node b).left }) = h.setLeft c u := by
    rw [hl]
    rfl
  have h2 : ((h.setLeft c u).node b).right = some v := by simp [Head.setLeft, hbc, hr]
  have h3 : (((h.setLeft c u).setRight c v).node c).left = some u := by simp [Head.setLeft, Head.setRight]
  have h4 : ((((h.setLeft c u).setRight c v).setParent u c).node c).right = some v := by
    simp [Head.setLeft, Head.setRight, Head.setParent, huc.symm]
  have h5 : ((h.setLeft c u).upd c fun n => { n with right := some v }) = (h.setLeft c u).setRight c v := rfl
  unfold takePlace
  rw [h1]
  dsimp only
  rw [h2, if_pos (by simpa using hvc), h5, h3]
  change (Option.bind (((((h.setLeft c u).setRight c v).setParent u c).node c).right) _) = _
  rw [h4]
  rfl

/-- What taking over the place of `b` does to each node. -/
theorem node_placeHeap (hbc : b ≠ c) (hub : u ≠ b) (hvb : v ≠ b) (huc : u ≠ c) (hvc : v ≠ c) :
    (placeHeap h c b u v).node q = if q = c then { h.node c with
        left := some u, right := some v, parent := (h.node b).parent
        bitmask := (h.node b).bitmask, offset := (h.node b).offset, index := (h.node b).index }
      else if q = u ∨ q = v then { h.node q with parent := some c } else h.node q := by
  have hbu := hub.symm
  have hbv := hvb.symm
  have hcu := huc.symm
  have hcv := hvc.symm
  unfold placeHeap
  by_cases h1 : q = c <;> by_cases h2 : q = u <;> by_cases h3 : q = v <;> by_cases h4 : u = v <;>
    simp_all [Head.setLeft, Head.setRight, Head.setParent]

/-- What does not change while nodes move. -/
def Node.still (n : Node) : Node := { n.rest with index := 0, bitmask := 0, offset := 0 }

theorem Node.still_of_rest {m n : Node} (h : m.rest = n.rest) : m.still = n.still := by
  unfold Node.still
  rw [h]

/-- A leaf that can go away: `c` is above it, `s` beside it and `g` above both. -/
structure Leaving (h : Head) (t t' : Trie Ptr) (a c g s : Ptr) : Prop where
  spliced : Spliced a c t t'
  beside : Beside h.cells a c g s
  parent : (h.node a).parent = some c
  sibling : (h.node s).parent = some c
  sibling_mem : s ∈ t'.all
  above_mem : g ∈ t'.inner
  above_ne : g ≠ s
  top : c ≠ .root 1

/-- Every leaf can that has its own inner node on its way. -/
theorem Shape.leaving (hs : Shape mem h t) (ha : a ∈ t.leaves) (hb : (b, i) ∈ t.path (bitsOf (h.key mem a)))
    (hb1 : b ≠ .root 1) : ∃ c g s t', Leaving h t t' a c g s := by
  obtain ⟨l, r, ht⟩ := hs.top
  obtain ⟨c, t', hsp⟩ := exists_spliced ha (by rw [ht]; simp)
  have htop : t.top = .root 1 := by rw [ht]; rfl
  have hc : c ≠ t.top := by
    intro hc
    have := hsp.path_top hs.sound hs.nodup hc hb
    exact hb1 (this.trans (hc.trans htop))
  obtain ⟨g, s, h1, h2, h3, h4, h5⟩ := hsp.exists_beside hs.linked hs.nodup
  obtain ⟨h6, h7⟩ := h5 hc
  exact ⟨c, g, s, t', hsp, h1, h2, h3, h4, h6, h7, fun e => hc (e.trans htop.symm)⟩

theorem Leaving.above_inner (hv : Leaving h t t' a c g s) : g ∈ t.inner := hv.spliced.mem_inner.2 (.inr hv.above_mem)

section Leaving

variable (hs : Shape mem h t) (hv : Leaving h t t' a c g s)

include hs hv

theorem Leaving.nodup : (c :: a :: t'.all).Nodup := hv.spliced.all.nodup_iff.1 hs.nodup

theorem Leaving.notMem : c ∉ t'.all ∧ a ∉ t'.all := by
  have := hv.nodup hs
  simp only [nodup_cons, mem_cons, not_or] at this
  exact ⟨this.1.2, this.2.1⟩

/-- The node above points to the one that goes away, on one side. -/
theorem Leaving.above_child : ((h.node g).left = some c ∨ (h.node g).right = some c) ∧
    (h.node g).left ≠ (h.node g).right := by
  refine ⟨?_, hs.linked.left_ne_right hs.nodup hv.above_inner⟩
  have hc : c ∈ t.all := mem_all.2 (.inr hv.spliced.node_mem)
  have habove : (h.cells c).parent = some g := hv.beside.above
  rcases hs.linked.parent_cases hc with ⟨e, -⟩ | ⟨m, -, e, e'⟩
  · obtain ⟨l, r, ht⟩ := hs.top
    exact absurd (e.trans (by rw [ht]; rfl)) hv.top
  · obtain rfl : m = g := mem_unique e habove
    exact e'

theorem Leaving.cut_linked : Linked (cutHeap h g c s).cells (.root 1) t' := by
  obtain ⟨hg, hne⟩ := hv.above_child hs
  refine hs.linked.splice hv.spliced hs.nodup (fun hc => ?_) ⟨hv.beside, ?_, fun _ => ?_, ?_⟩
  · obtain ⟨l, r, ht⟩ := hs.top
    exact absurd (hc.trans (by rw [ht]; rfl)) hv.top
  · have := node_cutHeap (h := h) (c := c) (q := s) hv.above_ne
    rw [if_pos rfl] at this
    exact congrArg Node.cell this
  · have := node_cutHeap (h := h) (c := c) (q := g) hv.above_ne
    rw [if_neg hv.above_ne, if_pos rfl] at this
    refine (congrArg Node.cell this).trans ?_
    by_cases hr : (h.node g).right = some c
    · have hl : (h.node g).left ≠ some c := fun e => hne (e.trans hr.symm)
      simp [Head.cells, Node.cell, hr, hl]
    · have hl := hg.resolve_right hr
      simp [Head.cells, Node.cell, hr, hl]
  · intro q _ _ _ q1 q2
    have := node_cutHeap (h := h) (c := c) (q := q) hv.above_ne
    rw [if_neg q2, if_neg q1] at this
    exact congrArg Node.cell this

/-- **The leaf goes away with the node above it.** -/
theorem Leaving.cut : Shape mem (cutHeap h g c s) t' := by
  have hnd := hv.nodup hs
  simp only [nodup_cons] at hnd
  have hin : ∀ q ∈ t'.inner, q ∈ t.inner := fun q hq => hv.spliced.mem_inner.2 (.inr hq)
  have hle : ∀ q ∈ t'.leaves, q ∈ t.leaves := fun q hq => hv.spliced.mem_leaves.2 (.inr hq)
  refine ⟨hv.cut_linked hs, hnd.2.2, ?_, ?_, ?_, ?_⟩
  · obtain ⟨l, r, ht⟩ := hs.top
    have hsp := hv.spliced
    have htop := hv.top
    rw [ht] at hsp
    cases hsp with
    | left => exact absurd rfl htop
    | right => exact absurd rfl htop
    | inLeft _ => exact ⟨_, _, rfl⟩
    | inRight _ => exact ⟨_, _, rfl⟩
  · refine (hv.spliced.sound hs.sound).congr fun q _ => ?_
    rw [key_eq (rest_cutHeap)]
  · intro q hq
    exact tests_eq (rest_cutHeap) (hs.tests q (hin q hq))
  · intro q hq
    have hi : ((cutHeap h g c s).node q).index = (h.node q).index := rest_field Node.index (rest_cutHeap)
    rw [hi]
    exact hs.leaf q (hle q hq)

end Leaving

/-! ## Another node takes over -/

/-- `c` instead of `b`. -/
def instead (b c q : Ptr) : Ptr := if q = b then c else q

theorem instead_self : instead b c b = c := if_pos rfl

theorem instead_ne (hq : q ≠ b) : instead b c q = q := if_neg hq

/-- The pointers in front of a take over. -/
structure Around (h : Head) (t : Trie Ptr) (b pp u v : Ptr) : Prop where
  mem : b ∈ t.inner
  top : b ≠ .root 1
  parent : (h.node b).parent = some pp
  left : (h.node b).left = some u
  right : (h.node b).right = some v
  above_mem : pp ∈ t.inner
  left_mem : u ∈ t.all
  right_mem : v ∈ t.all
  left_parent : (h.node u).parent = some b
  right_parent : (h.node v).parent = some b
  above_ne : pp ≠ b
  above_lt : (h.node pp).index < (h.node b).index

theorem Shape.around (hs : Shape mem h t) (hb : b ∈ t.inner) (hb1 : b ≠ .root 1) : ∃ pp u v, Around h t b pp u v := by
  have htop : t.top = .root 1 := by
    obtain ⟨l, r, rfl⟩ := hs.top
    rfl
  obtain ⟨pp, j, h1, h2, h3, h4⟩ := hs.linked.parent_lt hs.sound (mem_all.2 (.inr hb)) (fun e => hb1 (e.trans htop))
  obtain ⟨u, v, i, g1, g2, g3, g4, g5, g6, g7⟩ := hs.linked.children hb
  have hlt := h4 i g3
  have hbi : (h.node b).index.toNat = i := Option.some.inj ((hs.tests b hb).bit.symm.trans g3)
  have hpj : (h.node pp).index.toNat = j := Option.some.inj ((hs.tests pp h2).bit.symm.trans h3)
  have n1 := (hs.tests b hb).nonneg
  have n2 := (hs.tests pp h2).nonneg
  refine ⟨pp, u, v, hb, hb1, h1, g1, g2, h2, g4, g5, g6, g7, ?_, by omega⟩
  rintro rfl
  omega

section Takeover

variable {pp : Ptr} (hs : Shape mem h t) (hr : Around h t b pp u v) (hc : c ∉ t.all)

include hr hc

theorem Around.ne : b ≠ c ∧ u ≠ b ∧ v ≠ b ∧ u ≠ c ∧ v ≠ c ∧ pp ≠ c := by
  refine ⟨?_, ?_, ?_, ?_, ?_, ?_⟩
  · rintro rfl
    exact hc (mem_all.2 (.inr hr.mem))
  · rintro rfl
    exact hr.above_ne (mem_unique hr.parent hr.left_parent)
  · rintro rfl
    exact hr.above_ne (mem_unique hr.parent hr.right_parent)
  · rintro rfl
    exact hc hr.left_mem
  · rintro rfl
    exact hc hr.right_mem
  · rintro rfl
    exact hc (mem_all.2 (.inr hr.above_mem))

/-- The heap afterwards, node by node. -/
theorem Around.node : (placeHeap (replaceChild h pp b c) c b u v).node q = if q = c then { h.node c with
      left := some u, right := some v, parent := some pp
      bitmask := (h.node b).bitmask, offset := (h.node b).offset, index := (h.node b).index }
    else { h.node q with
      parent := if q = u ∨ q = v then some c else (h.node q).parent
      left := if q = pp ∧ (h.node pp).right ≠ some b then some c else (h.node q).left
      right := if q = pp ∧ (h.node pp).right = some b then some c else (h.node q).right } := by
  obtain ⟨n1, n2, n3, n4, n5, n6⟩ := hr.ne hc
  have hpar := hr.parent
  have hab := hr.above_ne
  have hab' := hab.symm
  have n6' := n6.symm
  rw [node_placeHeap n1 n2 n3 n4 n5]
  unfold replaceChild
  by_cases c1 : (h.node pp).right = some b <;> by_cases c2 : q = c <;> by_cases c3 : q = u ∨ q = v <;>
    by_cases c4 : q = pp <;> simp_all [Head.setLeft, Head.setRight]

include hs

theorem Around.linked : Linked (placeHeap (replaceChild h pp b c) c b u v).cells (.root 1) (t.map (instead b c)) := by
  have hnode := fun q => hr.node hc (q := q)
  obtain ⟨n1, n2, n3, n4, n5, n6⟩ := hr.ne hc
  have hbot := hs.linked.left_ne_right hs.nodup hr.above_mem
  have hroot : instead b c (.root 1) = .root 1 := instead_ne hr.top.symm
  rw [← hroot]
  have hmem : ∀ q ∈ t.all, q ≠ c := fun q hq e => hc (e ▸ hq)
  -- who has `b` above it or below it
  have hup : ∀ q ∈ t.all, (h.node q).parent = some b → q = u ∨ q = v := by
    intro q hq e
    rcases hs.linked.parent_cases hq with ⟨-, e'⟩ | ⟨m, -, e', e''⟩
    · exact absurd (mem_unique e e') hr.top
    · obtain rfl : b = m := mem_unique e e'
      rcases e'' with e'' | e''
      · exact .inl (mem_unique e'' hr.left)
      · exact .inr (mem_unique e'' hr.right)
  have hdown : ∀ q ∈ t.inner, (h.node q).left = some b ∨ (h.node q).right = some b → q = pp := by
    intro q hq e
    obtain ⟨u', v', -, g1, g2, -, -, -, g3, g4⟩ := hs.linked.children hq
    rcases e with e | e
    · obtain rfl : u' = b := mem_unique g1 e
      exact mem_unique g3 hr.parent
    · obtain rfl : v' = b := mem_unique g2 e
      exact mem_unique g4 hr.parent
  refine hs.linked.map (fun q hq => ?_) (fun q hq => ?_)
  · by_cases hqb : q = b
    · subst hqb
      have := hnode c
      rw [if_pos rfl] at this
      rw [instead_self]
      have hpp : instead q c pp = pp := instead_ne hr.above_ne
      simp only [Head.cells, Node.cell, this, hr.parent, map_some, hpp, and_true]
    · have := hnode q
      rw [if_neg (hmem q hq)] at this
      rw [instead_ne hqb]
      simp only [Head.cells, Node.cell, this, and_true]
      by_cases hch : q = u ∨ q = v
      · have hpar : (h.node q).parent = some b := by
          rcases hch with rfl | rfl
          · exact hr.left_parent
          · exact hr.right_parent
        rw [if_pos hch, hpar, map_some, instead_self]
      · rw [if_neg hch]
        have hne : (h.node q).parent ≠ some b := fun e => hch (hup q hq e)
        cases hpar : (h.node q).parent with
        | none => rfl
        | some m =>
          rw [hpar] at hne
          rw [map_some, instead_ne (by simpa using hne)]
  · have hqa : q ∈ t.all := mem_all.2 (.inr hq)
    have hfix : ∀ o : Option Ptr, o ≠ some b → o.map (instead b c) = o := by
      intro o ho
      cases o with
      | none => rfl
      | some m => rw [map_some, instead_ne (by simpa using ho)]
    by_cases hqb : q = b
    · subst hqb
      have := hnode c
      rw [if_pos rfl] at this
      rw [instead_self]
      simp only [Head.cells, Node.cell, this, hr.left, hr.right, map_some, instead_ne n2, instead_ne n3, and_self]
    · have := hnode q
      rw [if_neg (hmem q hqa)] at this
      rw [instead_ne hqb]
      simp only [Head.cells, Node.cell, this]
      by_cases hqp : q = pp
      · subst hqp
        have hch := hs.linked.parent_cases (mem_all.2 (.inr hr.mem))
        by_cases c1 : (h.node q).right = some b
        · have c2 : (h.node q).left ≠ some b := fun e => hbot (e.trans c1.symm)
          simp only [c1, ne_eq, not_true_eq_false, and_false, if_false, and_self, if_true, map_some, instead_self,
            hfix _ c2]
        · have c2 : (h.node q).left = some b := by
            rcases hch with ⟨e, -⟩ | ⟨m, -, e, e'⟩
            · obtain ⟨l, r, ht⟩ := hs.top
              exact absurd (e.trans (by rw [ht]; rfl)) hr.top
            · obtain rfl : q = m := mem_unique hr.parent e
              exact e'.resolve_right c1
          simp only [c1, c2, ne_eq, not_false_eq_true, and_self, if_true, and_false, if_false, map_some, instead_self,
            hfix _ c1]
      · have c1 : (h.node q).left ≠ some b := fun e => hqp (hdown q hq (.inl e))
        have c2 : (h.node q).right ≠ some b := fun e => hqp (hdown q hq (.inr e))
        simp only [hqp, false_and, if_false, hfix _ c1, hfix _ c2, and_self]

/-- **Another node takes over.** -/
theorem Around.shape : Shape mem (placeHeap (replaceChild h pp b c) c b u v) (t.map (instead b c)) := by
  have hnode := fun q => hr.node hc (q := q)
  have hlinked := hr.linked hs hc
  generalize placeHeap (replaceChild h pp b c) c b u v = h' at hnode hlinked
  have hrest : ∀ q ∈ t.all, (h'.node q).rest = (h.node q).rest := by
    intro q hq
    have hne : q ≠ c := fun e => hc (e ▸ hq)
    rw [hnode q, if_neg hne]
    rfl
  have hleaf : ∀ q ∈ t.leaves, instead b c q = q := by
    intro q hq
    refine instead_ne ?_
    rintro rfl
    exact leaf_notMem_inner hs.nodup hq hr.mem
  refine ⟨hlinked, ?_, ?_, ?_, ?_, ?_⟩
  · rw [map_all]
    refine hs.nodup.map_on fun p hp q hq e => ?_
    unfold instead at e
    split at e <;> split at e
    · simp_all
    · exact absurd (e ▸ hq) hc
    · exact absurd (e ▸ hp) hc
    · exact e
  · obtain ⟨l, r, ht⟩ := hs.top
    refine ⟨l.map (instead b c), r.map (instead b c), ?_⟩
    rw [ht, Trie.map, instead_ne hr.top.symm]
  · refine (hs.sound.map fun q hq => ?_).congr fun q hq => ?_
    · rw [hleaf q hq]
    · rw [map_leaves, mem_map] at hq
      obtain ⟨p, hp, rfl⟩ := hq
      rw [hleaf p hp, key_eq (hrest p (mem_all.2 (.inl hp)))]
  · intro q hq
    rw [map_inner, mem_map] at hq
    obtain ⟨p, hp, rfl⟩ := hq
    by_cases hpb : p = b
    · rw [hpb, instead_self, hnode c, if_pos rfl]
      have ht := hs.tests b hr.mem
      exact ⟨ht.nonneg, ht.small, ht.bitmask, ht.offset⟩
    · rw [instead_ne hpb]
      exact tests_eq (hrest p (mem_all.2 (.inr hp))) (hs.tests p hp)
  · intro q hq
    rw [map_leaves, mem_map] at hq
    obtain ⟨p, hp, rfl⟩ := hq
    have hi : (h'.node p).index = (h.node p).index := rest_field Node.index (hrest p (mem_all.2 (.inl hp)))
    rw [hleaf p hp, hi]
    exact hs.leaf p hp

end Takeover

/-! ## Taking a leaf out -/

theorem Leaving.sibling_ne (hv : Leaving h t t' a c g s) (hs : Shape mem h t) : s ≠ a ∧ s ≠ c := by
  obtain ⟨hc, ha⟩ := hv.notMem hs
  exact ⟨fun e => ha (e ▸ hv.sibling_mem), fun e => hc (e ▸ hv.sibling_mem)⟩

/-- What no way of taking a leaf out changes: only the node `c` moves. -/
structure Unlinked (h h' : Head) (c : Ptr) : Prop where
  masks : h'.masks = h.masks
  mask : h'.mask = h.mask
  stored : h'.stored = h.stored
  still : ∀ q, (h'.node q).still = (h.node q).still
  rest : ∀ q ≠ c, (h'.node q).rest = (h.node q).rest

theorem cut_unlinked (h : Head) (g c s : Ptr) : Unlinked h (cutHeap h g c s) c := by
  refine ⟨?_, ?_, ?_, fun q => Node.still_of_rest rest_cutHeap, fun q _ => rest_cutHeap⟩
  all_goals
    unfold cutHeap
    split <;> rfl

/-- The node that is to take over is below the one it takes over from. -/
theorem Leaving.below (hv : Leaving h t t' a c g s) (hs : Shape mem h t)
    (hb : (b, i) ∈ t.path (bitsOf (h.key mem a))) (hbc : b ≠ c) :
    (h.node b).index ≤ (h.node g).index ∧ (h.node g).index < (h.node c).index := by
  have htop : t.top = .root 1 := by
    obtain ⟨l, r, rfl⟩ := hs.top
    rfl
  have hct : c ≠ t.top := fun e => hv.top (e.trans htop)
  have hg := hs.tests g hv.above_inner
  have hbt := hs.tests b (mem_inner_of_path hb)
  have hci : c ∈ t.inner := hv.spliced.node_mem
  have hctest := hs.tests c hci
  have hle := hv.spliced.path_le hs.linked hs.sound hs.nodup hv.beside hb hbc hg.bit hct
  have hbi : (h.node b).index.toNat = i := Option.some.inj (hbt.bit.symm.trans (hs.linked.bit_path hb))
  obtain ⟨m, j, h1, -, h2, h3⟩ := hs.linked.parent_lt hs.sound (mem_all.2 (.inr hci)) hct
  obtain rfl : m = g := mem_unique h1 hv.beside.above
  have hlt := h3 _ hctest.bit
  have hgj : (h.node m).index.toNat = j := mem_unique hg.bit h2
  have n1 := hbt.nonneg
  have n2 := hg.nonneg
  have n3 := hctest.nonneg
  omega

/-- What is beside the leaf is further down. -/
theorem Leaving.sibling_lt (hv : Leaving h t t' a c g s) (hs : Shape mem h t) (hi : s ∈ t.inner) :
    (h.node c).index < (h.node s).index := by
  have hct := hs.tests c hv.spliced.node_mem
  have hst := hs.tests s hi
  have hne : s ≠ t.top := by
    intro e
    have htop := hs.linked.top_parent
    rw [← e] at htop
    exact hv.top (mem_unique hv.sibling htop)
  obtain ⟨m, j, h1, -, h2, h3⟩ := hs.linked.parent_lt hs.sound (mem_all.2 (.inr hi)) hne
  obtain rfl : m = c := mem_unique h1 hv.sibling
  have hlt := h3 _ hst.bit
  have hj : (h.node m).index.toNat = j := mem_unique hct.bit h2
  have n1 := hct.nonneg
  omega

theorem node_replaceChild {top prev parent : Ptr} (hq : q ≠ top) :
    (replaceChild h top prev parent).node q = h.node q := by
  unfold replaceChild
  split <;> simp [Head.setLeft, Head.setRight, hq]

/-- Edits in different places. -/
theorem cut_replace {pp : Ptr} (h1 : pp ≠ g) (h2 : pp ≠ s) :
    cutHeap (replaceChild h pp b c) g c s = replaceChild (cutHeap h g c s) pp b c := by
  have hg : (replaceChild h pp b c).node g = h.node g := node_replaceChild h1.symm
  have hpp : (cutHeap h g c s).node pp = h.node pp := by
    unfold cutHeap
    split <;> simp [Head.setLeft, Head.setRight, Head.setParent, h1, h2]
  unfold cutHeap at hpp ⊢
  unfold replaceChild at hg ⊢
  rw [hg, hpp]
  split <;> split <;>
    simp only [Head.setLeft, Head.setRight, Head.setParent, upd_comm h1, upd_comm h2]

/-- **Taking a leaf out**, with another node in the place of its own. -/
theorem unlinkMoved_eq (hs : Shape mem h t) (hv : Leaving h t t' a c g s)
    (hb : (b, i) ∈ t.path (bitsOf (h.key mem a))) (hbc : b ≠ c) {pp : Ptr}
    (hr : Around (cutHeap h g c s) t' b pp u v) :
    unlinkMoved h a c b = some (placeHeap (replaceChild (cutHeap h g c s) pp b c) c b u v) := by
  obtain ⟨hle, hlt⟩ := hv.below hs hb hbc
  have hcn := (hv.notMem hs).1
  have hindex : ∀ q, ((cutHeap h g c s).node q).index = (h.node q).index :=
    fun q => rest_field Node.index rest_cutHeap
  have habove := hr.above_lt
  rw [hindex, hindex] at habove
  have hin : ∀ q ∈ t'.inner, q ∈ t.inner := fun q hq => hv.spliced.mem_inner.2 (.inr hq)
  have hbs : b ≠ s := by
    rintro rfl
    have := hv.sibling_lt hs (mem_inner_of_path hb)
    omega
  have hpg : pp ≠ g := by
    rintro rfl
    omega
  have hps : pp ≠ s := by
    rintro rfl
    have := hv.sibling_lt hs (hin pp hr.above_mem)
    omega
  obtain ⟨n1, n2, n3, n4, n5, n6⟩ := hr.ne hcn
  have hbpar : (h.node b).parent = some pp := by
    have hpar := hr.parent
    rw [node_cutHeap hv.above_ne, if_neg hbs] at hpar
    split at hpar
    · rename_i e
      rw [e]
      split at hpar <;> exact hpar
    · exact hpar
  have hbeside : Beside (replaceChild h pp b c).cells a c g s := by
    have hc : (replaceChild h pp b c).cells c = h.cells c := by
      unfold Head.cells
      rw [node_replaceChild n6.symm]
    exact ⟨by rw [hc]; exact hv.beside.sides, by rw [hc]; exact hv.beside.above⟩
  have habv : (h.node c).parent = some g := hv.beside.above
  have hbnode : (replaceChild (cutHeap h g c s) pp b c).node b = (cutHeap h g c s).node b :=
    node_replaceChild hr.above_ne.symm
  unfold unlinkMoved
  rw [habv, hbpar]
  change (spliceOut (replaceChild h pp b c) a c g).bind (fun h => takePlace h c b) = _
  rw [spliceOut_eq hbeside (hv.sibling_ne hs).1, cut_replace hpg hps]
  exact takePlace_eq (by rw [hbnode]; exact hr.left) (by rw [hbnode]; exact hr.right) n1 n5 n4

/-- Around the node that went with the leaf, or took the place of the leaf's own node. -/
structure Left (h h' : Head) (t : Trie Ptr) (a b c l r : Ptr) (up : List Ptr) : Prop where
  left : (h'.node c).left = some l
  right : (h'.node c).right = some r
  left_mem : l ∈ t.all
  right_mem : r ∈ t.all
  left_ne : l ≠ c
  right_ne : r ≠ c
  right_leaf : r = a → c = b ∧ (h.node c).right = some a
  index : (h'.node c).index = (h.node c).index ∨ (h'.node c).index = (h.node b).index
  ups : Ups h'.cells c up (.root 1)
  ups_length : up.length ≤ t.inner.length
  ups_mem : ∀ m ∈ up, m ∈ t.inner

theorem Leaving.inner_length (hv : Leaving h t t' a c g s) (hs : Shape mem h t) : t'.inner.length ≤ t.inner.length := by
  have hnd : t'.inner.Nodup := (inner_sublist t').nodup (hv.cut hs).nodup
  exact (subperm_of_subset hnd fun q hq => hv.spliced.mem_inner.2 (.inr hq)).length_le

/-- The leaf was right below its own node. -/
theorem Leaving.left (hv : Leaving h t t' a c g s) (hs : Shape mem h t) :
    ∃ l r up, Left h (cutHeap h g c s) t a c c l r up := by
  obtain ⟨hc', ha'⟩ := hv.notMem hs
  have ha : a ∈ t.all := mem_all.2 (.inl hv.spliced.leaf_mem)
  have hsa : s ∈ t.all := hv.spliced.mem_all hv.sibling_mem
  have hac : a ≠ c := by
    intro e
    have := hv.nodup hs
    simp [e] at this
  have hnode : (cutHeap h g c s).node c = h.node c := by
    rw [node_cutHeap hv.above_ne, if_neg (hv.sibling_ne hs).2.symm, if_neg]
    rintro rfl
    exact hc' (mem_all.2 (.inr hv.above_mem))
  obtain ⟨up, hups, hlen, hmem⟩ := (hv.cut hs).linked.climb hv.above_mem
  have hle := hv.inner_length hs
  have hpar : ((cutHeap h g c s).node c).parent = some g := by
    rw [hnode]
    exact hv.beside.above
  have hin : ∀ m ∈ g :: up, m ∈ t.inner := by
    intro m hm
    refine hv.spliced.mem_inner.2 (.inr ?_)
    rcases List.mem_cons.1 hm with rfl | hm
    · exact hv.above_mem
    · exact hmem m hm
  rcases hv.beside.sides with ⟨h1, h2⟩ | ⟨h1, h2⟩
  · refine ⟨a, s, g :: up, ⟨by rw [hnode]; exact h1, by rw [hnode]; exact h2, ha, hsa, hac, (hv.sibling_ne hs).2,
      fun e => absurd e (hv.sibling_ne hs).1, .inl (by rw [hnode]), ⟨hpar, hups⟩, ?_, hin⟩⟩
    rw [length_cons]
    omega
  · refine ⟨s, a, g :: up, ⟨by rw [hnode]; exact h2, by rw [hnode]; exact h1, hsa, ha, (hv.sibling_ne hs).2, hac,
      fun _ => ⟨rfl, h1⟩, .inl (by rw [hnode]), ⟨hpar, hups⟩, ?_, hin⟩⟩
    rw [length_cons]
    omega

/-- **A leaf goes away**, whichever way it is done. -/
theorem Shape.unlink (hs : Shape mem h t) (ha : a ∈ t.leaves) (hb : (b, i) ∈ t.path (bitsOf (h.key mem a)))
    (hb1 : b ≠ .root 1) : ∃ c g s t' h', Leaving h t t' a c g s ∧
      (if c ≠ b then unlinkMoved h a c b else unlinkEdge h a c) = some h' ∧
      Shape mem h' (t'.map (instead b c)) ∧ Unlinked h h' c ∧ ∃ l r up, Left h h' t a b c l r up := by
  obtain ⟨c, g, s, t', hv⟩ := hs.leaving ha hb hb1
  have hcut := hv.cut hs
  obtain ⟨hc', ha'⟩ := hv.notMem hs
  by_cases hcb : c = b
  · -- the leaf is right below its own node
    subst hcb
    obtain ⟨hg, hne⟩ := hv.above_child hs
    have hid : t'.map (instead c c) = t' := map_id_of fun q _ => by
      unfold instead
      split
      · rename_i e
        exact e.symm
      · rfl
    refine ⟨c, g, s, t', cutHeap h g c s, hv, ?_, by rw [hid]; exact hcut, cut_unlinked h g c s, hv.left hs⟩
    rw [if_neg (not_not.2 rfl)]
    exact unlinkEdge_eq hv.beside (hv.sibling_ne hs).1 hg hne
  · have hbc : b ≠ c := fun e => hcb e.symm
    have hbin : b ∈ t'.inner := (hv.spliced.mem_inner.1 (mem_inner_of_path hb)).resolve_left hbc
    obtain ⟨pp, u, v, hr⟩ := hcut.around hbin hb1
    have hcu := cut_unlinked h g c s
    have hnode := fun q => hr.node hc' (q := q)
    have hshape := hr.shape hcut hc'
    have hall : ∀ q ∈ t'.all, q ∈ t.all := fun q hq => hv.spliced.mem_all hq
    refine ⟨c, g, s, t', _, hv, ?_, hshape, ?_, u, v, ?_⟩
    · rw [if_pos hcb]
      exact unlinkMoved_eq hs hv hb hbc hr
    · refine ⟨?_, ?_, ?_, fun q => ?_, fun q hq => ?_⟩
      · rw [← hcu.masks]
        unfold placeHeap replaceChild
        split <;> rfl
      · rw [← hcu.mask]
        unfold placeHeap replaceChild
        split <;> rfl
      · rw [← hcu.stored]
        unfold placeHeap replaceChild
        split <;> rfl
      · rw [← hcu.still q, hnode q]
        split
        · rename_i e
          rw [e]
          rfl
        · rfl
      · rw [← hcu.rest q hq, hnode q, if_neg hq]
        rfl
    · have hcin : c ∈ (t'.map (instead b c)).inner := by
        rw [map_inner, mem_map]
        exact ⟨b, hbin, instead_self⟩
      obtain ⟨up, hups, hlen, hmem⟩ := hshape.linked.climb hcin
      rw [map_inner, length_map] at hlen
      have hle := hv.inner_length hs
      have hindex : ((cutHeap h g c s).node b).index = (h.node b).index := rest_field Node.index rest_cutHeap
      refine ⟨up, ⟨by rw [hnode c, if_pos rfl], by rw [hnode c, if_pos rfl], hall u hr.left_mem, hall v hr.right_mem,
        fun e => hc' (e ▸ hr.left_mem), fun e => hc' (e ▸ hr.right_mem), fun e => absurd (e ▸ hr.right_mem) ha',
        .inr (by rw [hnode c, if_pos rfl]; exact hindex), hups, by omega, fun m hm => ?_⟩⟩
      have := hmem m hm
      rw [map_inner, mem_map] at this
      obtain ⟨q, hq, rfl⟩ := this
      by_cases hqb : q = b
      · rw [hqb, instead_self]
        exact hv.spliced.node_mem
      · rw [instead_ne hqb]
        exact hv.spliced.mem_inner.2 (.inr hq)

end Ipfilter.Radix
