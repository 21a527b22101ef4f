import Ipfilter.Proof.RadixMasks
import Ipfilter.Proof.RadixTree

/-!
# Calls of the radix tree

* `Base`: the tree and the lists of a head, with what is stored.
* `Base.add`, `Base.delete`: the two calls keep it, under `Op.Keeps`.
-/

namespace Ipfilter.Radix

open Chain Patricia List
open Function (update update_of_ne update_self)
open Option (bind_eq_bind bind_some mem_unique)

variable {mem : ℕ → Adf} {h h' : Head} {t t' : Trie Ptr} {L : Ptr → List ℕ} {S : List Stored} {p q n : Ptr}
  {w e addr mask m : ℕ} {x : Stored}

/-- The nodes of an entry that is in the tree. -/
structure Entry (mem : ℕ → Adf) (h : Head) (x : Stored) : Prop where
  pair : Pair mem x.addr x.mask
  masked : Masked (mem x.addr).len (mem x.addr).word (mem x.mask).word
  addrkey : (h.node (.nodes x.entry 0)).addrkey = some (.at x.addr)
  maskkey : (h.node (.nodes x.entry 0)).maskkey = some (.at x.mask)
  addroff : (h.node (.nodes x.entry 0)).addroff = (countMaskBits (mem x.mask).word (mem x.mask).len 1).2.getD 0
  dupkey : (h.node (.nodes x.entry 0)).dupkey = none
  bits : (h.node (.nodes x.entry 0)).maskbitcount = maskBits mem x.mask
  inner_bits : (h.node (.nodes x.entry 1)).maskbitcount = maskBits mem x.mask
  offset : 1 ≤ (h.node (.nodes x.entry 0)).offset ∧ (h.node (.nodes x.entry 0)).offset ≤ (mem x.addr).len
  mymask : ∃ m, (h.node (.nodes x.entry 0)).mymask = some m ∧
    h.mask m = some ⟨.nodes x.entry 0, .at x.mask, maskBits mem x.mask⟩

/-- **The tree and the lists of a head**, for addresses of `w` words. -/
structure Base (mem : ℕ → Adf) (w : ℕ) (h : Head) (t : Trie Ptr) (L : Ptr → List ℕ) (S : List Stored) : Prop where
  shape : Shape mem h t
  stored : h.stored = S.map Stored.entry
  nodup : (S.map Stored.entry).Nodup
  leaves : ∀ p, p ∈ t.leaves ↔ p = .root 0 ∨ p = .root 2 ∨ ∃ x ∈ S, p = .nodes x.entry 0
  inner : ∀ p ∈ t.inner, p = .root 1 ∨ ∃ x ∈ S, p = .nodes x.entry 1
  own : ∀ x ∈ S, ∃ i, (.nodes x.entry 1, i) ∈ t.path (bitsOf (mem x.addr).word)
  entry : ∀ x ∈ S, Entry mem h x
  root : ∀ i, (h.node (.root i)).root = true
  node : ∀ e i, (h.node (.nodes e i)).root = false
  zeros : (h.node (.root 0)).addrkey = some .zeros
  ones : (h.node (.root 2)).addrkey = some .ones
  first : (h.node (.root 0)).dupkey = none
  len : ∀ x ∈ S, (mem x.addr).len = w
  small : ∀ p ∈ t.inner, (h.node p).index < 32 * (w + 1)
  lists : Lists h.masks t.all L
  listed : ∀ p, ∀ m ∈ L p, ∃ x ∈ S, (h.node (.nodes x.entry 0)).mymask = some m

/-- The masks of the entries. -/
def Head.mine (h : Head) (S : List Stored) : List ℕ := S.filterMap fun x => (h.node (.nodes x.entry 0)).mymask

namespace Base

variable (hb : Base mem w h t L S)

include hb

theorem fuel : h.fuel = 2 * S.length + 4 := by
  unfold Head.fuel
  rw [hb.stored, length_map]

theorem mem_mine (hm : m ∈ L p) : m ∈ h.mine S := by
  obtain ⟨x, hx, hxm⟩ := hb.listed p m hm
  exact mem_filterMap.2 ⟨x, hx, hxm⟩

theorem alive : Alive h t.all L (h.mine S) where
  lists := hb.lists
  alive p m hm := by
    obtain ⟨x, hx, hxm⟩ := hb.listed p m hm
    obtain ⟨m', h1, h2⟩ := (hb.entry x hx).mymask
    obtain rfl : m' = m := mem_unique h1 hxm
    exact ⟨_, h2⟩
  known p m hm := hb.mem_mine hm
  few := by
    have := length_filterMap_le (fun x : Stored => (h.node (.nodes x.entry 0)).mymask) S
    rw [hb.fuel]
    unfold Head.mine
    omega

/-- The inner nodes are not too many for the loops. -/
theorem inner_length : t.inner.length ≤ S.length + 1 := by
  have hnd : t.inner.Nodup := (inner_sublist t).nodup hb.shape.nodup
  have hsub : t.inner ⊆ .root 1 :: S.map fun x => Ptr.nodes x.entry 1 := by
    intro p hp
    rcases hb.inner p hp with rfl | ⟨x, hx, rfl⟩
    · exact mem_cons_self
    · exact mem_cons_of_mem _ (mem_map.2 ⟨x, hx, rfl⟩)
  have := (subperm_of_subset hnd hsub).length_le
  simpa using this

theorem find (k : Key) : ipfRxFindAddr h k h.fuel (.root 1) = some (t.find (bitsOf k)) := by
  have := hb.inner_length
  refine hb.shape.find k ?_
  rw [hb.fuel]
  omega

/-- Every leaf has an address. -/
theorem leaf_key (hp : p ∈ t.leaves) : ∃ data, (h.node p).addrkey = some data ∧ h.key mem p = word mem data := by
  have hkey : ∀ {q : Ptr} {data}, (h.node q).addrkey = some data → h.key mem q = word mem data := by
    intro q data hd
    unfold Head.key
    rw [hd]
    rfl
  rcases (hb.leaves p).1 hp with rfl | rfl | ⟨x, hx, rfl⟩
  · exact ⟨_, hb.zeros, hkey hb.zeros⟩
  · exact ⟨_, hb.ones, hkey hb.ones⟩
  · exact ⟨_, (hb.entry x hx).addrkey, hkey (hb.entry x hx).addrkey⟩

theorem key_entry (hx : x ∈ S) : h.key mem (.nodes x.entry 0) = (mem x.addr).word := by
  unfold Head.key
  rw [(hb.entry x hx).addrkey]
  rfl

theorem leaf_mem (hx : x ∈ S) : .nodes x.entry 0 ∈ t.leaves := (hb.leaves _).2 (.inr (.inr ⟨x, hx, rfl⟩))

theorem inner_mem (hx : x ∈ S) : .nodes x.entry 1 ∈ t.inner := by
  obtain ⟨i, hi⟩ := hb.own x hx
  exact mem_inner_of_path hi

theorem find_entry (hx : x ∈ S) : t.find (bitsOf (mem x.addr).word) = .nodes x.entry 0 := by
  have := hb.shape.sound.find_key (hb.leaf_mem hx)
  rwa [hb.key_entry hx] at this

/-- Entries are told apart by their numbers. -/
theorem entry_inj {y : Stored} (hx : x ∈ S) (hy : y ∈ S) (he : x.entry = y.entry) : x = y :=
  inj_on_of_nodup_map hb.nodup hx hy he

/-- Entries have different masks. -/
theorem mymask_inj {y : Stored} (hx : x ∈ S) (hy : y ∈ S) (hxm : (h.node (.nodes x.entry 0)).mymask = some m)
    (hym : (h.node (.nodes y.entry 0)).mymask = some m) : x = y := by
  obtain ⟨mx, h1, h2⟩ := (hb.entry x hx).mymask
  obtain ⟨my, h3, h4⟩ := (hb.entry y hy).mymask
  obtain rfl : mx = m := mem_unique h1 hxm
  obtain rfl : my = mx := mem_unique h3 hym
  rw [h2, Option.some.injEq, Mask.mk.injEq, Ptr.nodes.injEq] at h4
  exact hb.entry_inj hx hy h4.1.1

end Base

/-! ## Frames -/

/-- The tree does not look at `mymask`. -/
theorem Shape.frame (hs : Shape mem h t) (hn : ∀ q ∈ t.all, h'.node q = { h.node q with mymask := (h'.node q).mymask }) :
    Shape mem h' t := by
  have hin : ∀ q ∈ t.inner, q ∈ t.all := fun q hq => mem_all.2 (.inr hq)
  have hle : ∀ q ∈ t.leaves, q ∈ t.all := fun q hq => mem_all.2 (.inl hq)
  refine ⟨hs.linked.frame fun q hq => ?_, hs.nodup, hs.top, hs.sound.congr fun q hq => ?_, fun q hq => ?_, fun q hq => ?_⟩
  · unfold Head.cells
    rw [hn q hq]
    rfl
  · unfold Head.key
    rw [hn q (hle q hq)]
  · rw [hn q (hin q hq)]
    have ht := hs.tests q hq
    exact ⟨ht.nonneg, ht.small, ht.bitmask, ht.offset⟩
  · rw [hn q (hle q hq)]
    exact hs.leaf q hq

theorem Entry.congr (he : Entry mem h x) (h0 : (h'.node (.nodes x.entry 0)).rest = (h.node (.nodes x.entry 0)).rest)
    (h1 : (h'.node (.nodes x.entry 1)).still = (h.node (.nodes x.entry 1)).still)
    (hm : ∀ m k, (h.node (.nodes x.entry 0)).mymask = some m → h.mask m = some k → h'.mask m = some k) :
    Entry mem h' x := by
  have e1 : (h'.node (.nodes x.entry 0)).addrkey = (h.node (.nodes x.entry 0)).addrkey := rest_field Node.addrkey h0
  have e2 : (h'.node (.nodes x.entry 0)).maskkey = (h.node (.nodes x.entry 0)).maskkey := rest_field Node.maskkey h0
  have e3 : (h'.node (.nodes x.entry 0)).dupkey = (h.node (.nodes x.entry 0)).dupkey := rest_field Node.dupkey h0
  have e8 : (h'.node (.nodes x.entry 0)).addroff = (h.node (.nodes x.entry 0)).addroff := rest_field Node.addroff h0
  have e4 : (h'.node (.nodes x.entry 0)).maskbitcount = (h.node (.nodes x.entry 0)).maskbitcount :=
    rest_field Node.maskbitcount h0
  have e5 : (h'.node (.nodes x.entry 1)).maskbitcount = (h.node (.nodes x.entry 1)).maskbitcount := by
    have := congrArg Node.maskbitcount h1
    exact this
  have e6 : (h'.node (.nodes x.entry 0)).offset = (h.node (.nodes x.entry 0)).offset := rest_field Node.offset h0
  have e7 : (h'.node (.nodes x.entry 0)).mymask = (h.node (.nodes x.entry 0)).mymask := rest_field Node.mymask h0
  refine ⟨he.pair, he.masked, e1.trans he.addrkey, e2.trans he.maskkey, e8.trans he.addroff, e3.trans he.dupkey,
    e4.trans he.bits, e5.trans he.inner_bits, by rw [e6]; exact he.offset, ?_⟩
  obtain ⟨m, g1, g2⟩ := he.mymask
  exact ⟨m, e7.trans g1, hm m _ g1 g2⟩

/-! ## New nodes -/

/-- The new nodes, ready to be linked in for the bit `d`. -/
def prepared (mem : ℕ → Adf) (h : Head) (e addr mask d : ℕ) : Head :=
  ((buildnodes mem h e addr mask).upd (.nodes e 1) fun n => { n with
    index := d, bitmask := TOPBIT >>> (d % 32), offset := d / 32 }).upd (.nodes e 0) fun n => { n with offset := d / 32 }

variable {d : ℕ}

theorem buildnodes_ne (h0 : q ≠ .nodes e 0) (h1 : q ≠ .nodes e 1) : (buildnodes mem h e addr mask).node q = h.node q := by
  simp [buildnodes, update_of_ne h0, update_of_ne h1]

theorem prepared_ne (h0 : q ≠ .nodes e 0) (h1 : q ≠ .nodes e 1) : (prepared mem h e addr mask d).node q = h.node q := by
  unfold prepared
  rw [node_upd, if_neg h0, node_upd, if_neg h1, buildnodes_ne h0 h1]

theorem prepared_leaf : (prepared mem h e addr mask d).node (.nodes e 0) = { Node.zero with
    maskbitcount := maskBits mem mask
    index := -1 - (ADF_OFF_BITS + maskBits mem mask : ℕ)
    addrkey := some (.at addr)
    maskkey := some (.at mask)
    addroff := (countMaskBits (mem mask).word (mem mask).len 1).2.getD 0
    parent := some (.nodes e 1)
    offset := d / 32
    lastmask := ((countMaskBits (mem mask).word (mem mask).len 1).2.map (mem mask).word).getD 0 } := by
  simp [prepared, buildnodes, maskBits]

theorem prepared_inner : (prepared mem h e addr mask d).node (.nodes e 1) = { Node.zero with
    maskbitcount := maskBits mem mask
    left := some (.nodes e 0)
    index := d
    bitmask := TOPBIT >>> (d % 32)
    offset := d / 32 } := by
  simp [prepared, buildnodes, maskBits]

theorem prepared_head (h0 : q ≠ .nodes e 0) (h1 : q ≠ .nodes e 1) :
    (prepared mem h e addr mask d).masks.head q = h.masks.head q := by
  have h0' := h0.symm
  have h1' := h1.symm
  simp [prepared, buildnodes, Head.upd, h0', h1']

theorem prepared_head_new (hq : q = .nodes e 0 ∨ q = .nodes e 1) :
    (prepared mem h e addr mask d).masks.head q = none := by
  rcases hq with rfl | rfl <;> simp [prepared, buildnodes, Head.upd]

theorem prepared_next : (prepared mem h e addr mask d).masks.next = h.masks.next := by
  funext x
  simp [prepared, buildnodes, Head.upd]

/-- **`ipf_rx_insert` for an address that is not in the tree**, from its parts; `g` is the heap with the nodes linked in. -/
theorem insert_eq {data : Obj} {prev cur : Ptr} {up : Option Ptr} {g h₃ : Head} {k : Key} (hk : k = (mem addr).word)
    (hfind : ipfRxFindAddr (buildnodes mem h e addr mask) k h.fuel (.root 1) = some p)
    (hdata : ((buildnodes mem h e addr mask).node p).addrkey = some data)
    (hdiff : ∃ i, 1 ≤ i ∧ i ≤ (mem addr).len ∧ k i ≠ word mem data i)
    (hd : d = diffBit (mem addr).len k (word mem data))
    (hplace : insertPlace (prepared mem h e addr mask d) k d h.fuel (.root 1) = some (prev, cur))
    (hg : linkNodes (prepared mem h e addr mask d) e k d prev cur = g)
    (hmask : (g.node (.nodes e 0)).maskkey = some (.at mask)) (hbits : (g.node (.nodes e 0)).maskbitcount = maskBits mem mask)
    (hup : hoist mem g (d / 32) (g.node (.nodes e 0)).lastmask (k (d / 32)) (maskBits mem mask) h.fuel none prev = some up)
    (hins : insertMasks g e m (maskBits mem mask) (.at mask) up = some h₃) :
    ipfRxInsert mem (buildnodes mem h e addr mask) e addr m = some (h₃, .nodes e 0, false) := by
  have hfuel : ∀ g : Head, g.stored = h.stored → g.fuel = h.fuel := fun g hg => by
    unfold Head.fuel
    rw [hg]
  have hstored : g.stored = h.stored := by
    rw [← hg]
    unfold linkNodes
    dsimp only
    split <;> split <;> rfl
  have hne : ¬(diffWord k (word mem data) (mem addr).len 1 = (mem addr).len + 1 ∧ data = .at addr) := by
    rintro ⟨hw, -⟩
    obtain ⟨i, h1, h2, h3⟩ := hdiff
    have hspec := diffWord_spec k (word mem data) (mem addr).len 1
    exact h3 (hspec.2.2.1 i h1 (by omega))
  rw [← hfuel (prepared mem h e addr mask d) rfl] at hplace
  rw [← hbits, ← hfuel g hstored] at hup
  rw [← hbits] at hins
  subst hg
  unfold ipfRxInsert
  dsimp only
  rw [← hk, hfuel (buildnodes mem h e addr mask) rfl, hfind]
  simp only [bind_eq_bind, bind_some, hdata]
  rw [if_neg hne, ← hd]
  refine Option.bind_eq_some_iff.2 ⟨_, hplace, Option.bind_eq_some_iff.2 ⟨_, hmask, ?_⟩⟩
  exact Option.bind_eq_some_iff.2 ⟨_, hup, Option.bind_eq_some_iff.2 ⟨_, hins, rfl⟩⟩

/-- The way up of `ipf_rx_insert` ends, at a node it went through if anywhere. -/
theorem hoist_up (mem : ℕ → Adf) (off bits : ℕ) (nodemask nodekey : Word) (hroot : (h.node (.root 1)).root = true)
    {l : List Ptr} :
    ∀ (prev : Option Ptr) {n : Ptr} {fuel : ℕ}, Ups h.cells n l (.root 1) →
      (∀ x ∈ n :: l, (h.node x).root = false → ∃ own data, x.pred = some own ∧ (h.node own).addrkey = some data) →
      l.length + 1 < fuel →
      ∃ up, hoist mem h off nodemask nodekey bits fuel prev n = some up ∧
        (up = prev ∨ ∃ x ∈ n :: l, up = some x) := by
  induction l with
  | nil =>
    intro prev n fuel hu hown hf
    -- above `n` there is the root alone, which ends the way
    obtain ⟨fuel, rfl⟩ : ∃ f, fuel = f + 2 := ⟨fuel - 2, by simp at hf; omega⟩
    have hpar : (h.node n).parent = some (.root 1) := hu
    unfold hoist
    split
    · exact ⟨prev, rfl, .inl rfl⟩
    · rename_i hr
      split
      · exact ⟨prev, rfl, .inl rfl⟩
      · obtain ⟨own, data, h1, h2⟩ := hown n mem_cons_self (by simpa using hr)
        simp only [h1, h2, bind_eq_bind, bind_some]
        split
        · exact ⟨prev, rfl, .inl rfl⟩
        · refine ⟨some n, ?_, .inr ⟨n, mem_cons_self, rfl⟩⟩
          rw [hpar]
          simp [hoist, hroot]
  | cons a l ih =>
    intro prev n fuel hu hown hf
    obtain ⟨fuel, rfl⟩ : ∃ f, fuel = f + 1 := ⟨fuel - 1, by simp at hf; omega⟩
    obtain ⟨hpar, hu⟩ := hu
    replace hpar : (h.node n).parent = some a := hpar
    unfold hoist
    split
    · exact ⟨prev, rfl, .inl rfl⟩
    · rename_i hr
      split
      · exact ⟨prev, rfl, .inl rfl⟩
      · obtain ⟨own, data, h1, h2⟩ := hown n mem_cons_self (by simpa using hr)
        simp only [h1, h2, bind_eq_bind, bind_some]
        split
        · exact ⟨prev, rfl, .inl rfl⟩
        · rw [hpar]
          -- `n` may take the mask, and its parent is asked next
          obtain ⟨up, hup, hcase⟩ := ih (some n) hu (fun x hx => hown x (mem_cons_of_mem _ hx))
            (show l.length + 1 < fuel by simp at hf; omega)
          refine ⟨up, hup, .inr ?_⟩
          rcases hcase with rfl | ⟨x, hx, rfl⟩
          · exact ⟨n, mem_cons_self, rfl⟩
          · exact ⟨x, mem_cons_of_mem _ hx, rfl⟩

/-! ## Adding -/

/-- The tree with the new leaf. -/
abbrev grown (mem : ℕ → Adf) (t : Trie Ptr) (e addr d : ℕ) : Trie Ptr :=
  t.insert (bitsOf (mem addr).word) d (.nodes e 0) (.nodes e 1)

/-- The new nodes are linked in between `prev` and `cur`; `above` are the nodes over `prev`. -/
structure Placed (mem : ℕ → Adf) (h : Head) (t : Trie Ptr) (e addr mask d : ℕ) (prev cur : Ptr) (above : List Ptr)
    (h₂ : Head) : Prop where
  shape : Shape mem h₂ (grown mem t e addr d)
  rest : ∀ q, (h₂.node q).rest = ((prepared mem h e addr mask d).node q).rest
  sides : ((h₂.node (.nodes e 1)).left = some (.nodes e 0) ∧ (h₂.node (.nodes e 1)).right = some cur) ∨
    ((h₂.node (.nodes e 1)).left = some cur ∧ (h₂.node (.nodes e 1)).right = some (.nodes e 0))
  ups : Ups h₂.cells prev above (.root 1)
  path : (((t.path (bitsOf (mem addr).word)).filter (·.2 < d)).map (·.1)).reverse = prev :: above
  cur_mem : cur ∈ t.all
  cur_bit : ∀ i, (h.cells cur).bit = some i → d ≤ i
  masks : h₂.masks = (prepared mem h e addr mask d).masks
  mask : h₂.mask = h.mask
  stored : h₂.stored = h.stored

theorem Pair.bits_le (hp : Pair mem addr mask) : maskBits mem mask ≤ 128 := by
  obtain ⟨b, hc⟩ := hp.contiguous
  have hlen := hp.len
  unfold maskBits
  rw [hp.mask_len, countMaskBits_contiguous hc]
  have := hc.le
  dsimp only
  omega

section Add

variable (hb : Base mem w h t L S)

include hb

theorem Base.notMem (hnew : ∀ x ∈ S, x.entry ≠ e) : Ptr.nodes e 0 ∉ t.all ∧ Ptr.nodes e 1 ∉ t.all := by
  constructor
  · intro hm
    rcases mem_all.1 hm with hm | hm
    · rcases (hb.leaves _).1 hm with hc | hc | ⟨x, hx, hc⟩
      · cases hc
      · cases hc
      · rw [Ptr.nodes.injEq] at hc
        exact hnew x hx hc.1.symm
    · rcases hb.inner _ hm with hc | ⟨x, -, hc⟩ <;> simp at hc
  · intro hm
    rcases mem_all.1 hm with hm | hm
    · rcases (hb.leaves _).1 hm with hc | hc | ⟨x, hx, hc⟩ <;> simp at hc
    · rcases hb.inner _ hm with hc | ⟨x, hx, hc⟩
      · cases hc
      · rw [Ptr.nodes.injEq] at hc
        exact hnew x hx hc.1.symm

/-- The bit where a new address differs from the leaf it leads to. -/
theorem Base.differs (hk : Op.Keeps mem w h (.add e addr mask m)) :
    ∃ data d, (h.node (t.find (bitsOf (mem addr).word))).addrkey = some data ∧
      (∃ i, 1 ≤ i ∧ i ≤ (mem addr).len ∧ (mem addr).word i ≠ word mem data i) ∧
      d = diffBit (mem addr).len (mem addr).word (word mem data) ∧ 32 < d ∧ d < 32 * ((mem addr).len + 1) ∧
      Differs (fun p => bitsOf (h.key mem p)) 32 t (bitsOf (mem addr).word) d := by
  obtain ⟨data, hdata, hkey⟩ := hb.leaf_key (find_mem (bitsOf (mem addr).word) t)
  have hdiff := hk.2.2 _ data (hb.find _) hdata
  rw [← hk.1] at hdiff
  obtain ⟨h1, h2, h3, h4⟩ := diffBit_spec hdiff
  have hd : Differs (fun p => bitsOf (h.key mem p)) 32 t (bitsOf (mem addr).word)
      (diffBit (mem addr).len (mem addr).word (word mem data)) :=
    ⟨h1, by rw [hkey]; exact h3, by rw [hkey]; exact h4⟩
  refine ⟨data, _, hdata, hdiff, rfl, ?_, h2, hd⟩
  -- the root tests bit 32, so keys part behind it
  obtain ⟨l, r, ht⟩ := hb.shape.top
  have hs := hb.shape.sound
  rw [ht] at hs hd
  have := hd.ne_bit hs
  omega

theorem Base.prepared_shape (addr mask d : ℕ) (hnew : ∀ x ∈ S, x.entry ≠ e) :
    Shape mem (prepared mem h e addr mask d) t := by
  obtain ⟨h0, h1⟩ := hb.notMem hnew
  refine hb.shape.frame fun q hq => ?_
  rw [prepared_ne (fun c => h0 (c ▸ hq)) fun c => h1 (c ▸ hq)]

theorem Base.fresh (hp : Pair mem addr mask) (hnew : ∀ x ∈ S, x.entry ≠ e) (hd : d < 160) :
    Fresh mem (prepared mem h e addr mask d) t e (mem addr).word d := by
  obtain ⟨h0, h1⟩ := hb.notMem hnew
  have hbits := hp.bits_le
  refine ⟨h0, h1, ?_, ?_, ?_, ?_, ?_, ?_⟩
  · unfold Head.key
    rw [prepared_leaf]
    rfl
  · rw [prepared_leaf]
    dsimp only
    unfold ADF_OFF_BITS
    omega
  · rw [prepared_leaf]
  · rw [prepared_inner]
  · rw [prepared_inner]
    refine ⟨?_, ?_, rfl, rfl⟩
    · dsimp only
      omega
    · dsimp only
      omega
  · rw [prepared_inner]

/-- **The new nodes are linked in.** -/
theorem Base.placed (hp : Pair mem addr mask) (hnew : ∀ x ∈ S, x.entry ≠ e) (hd : 32 < d) (hd' : d < 160)
    (hdiff : Differs (fun p => bitsOf (h.key mem p)) 32 t (bitsOf (mem addr).word) d) :
    ∃ prev cur above, insertPlace (prepared mem h e addr mask d) (mem addr).word d h.fuel (.root 1) =
        some (prev, cur) ∧ Placed mem h t e addr mask d prev cur above
        (linkNodes (prepared mem h e addr mask d) e (mem addr).word d prev cur) := by
  have hs₁ := hb.prepared_shape addr mask d hnew
  have hfresh := hb.fresh hp hnew hd'
  have hlen := hb.inner_length
  obtain ⟨h0, h1⟩ := hb.notMem hnew
  have hne : ∀ q ∈ t.all, (prepared mem h e addr mask d).node q = h.node q := fun q hq =>
    prepared_ne (fun c => h0 (c ▸ hq)) fun c => h1 (c ▸ hq)
  -- the new nodes are not in the tree yet, so the keys are as before
  have hdiff₁ : Differs (fun p => bitsOf ((prepared mem h e addr mask d).key mem p)) 32 t
      (bitsOf (mem addr).word) d := by
    have hkey : (prepared mem h e addr mask d).key mem (t.find (bitsOf (mem addr).word)) =
        h.key mem (t.find (bitsOf (mem addr).word)) := by
      unfold Head.key
      rw [hne _ (mem_all.2 (.inl (find_mem _ t)))]
    exact ⟨hdiff.le, by rw [hkey]; exact hdiff.agree, by rw [hkey]; exact hdiff.ne⟩
  have hfuel := hb.fuel
  have hplace := hs₁.place (x := (mem addr).word) hd (by omega) (show t.inner.length < h.fuel by omega)
  have hshape := hs₁.link hfresh hd hdiff₁
  have hcur := spot_mem (bitsOf (mem addr).word) d (.root 1) t
  have hbit : ∀ i, (h.cells (t.spot (bitsOf (mem addr).word) d (.root 1)).2.top).bit = some i → d ≤ i :=
    fun i hi => hb.shape.linked.spot_bit hi
  have hspot : (t.spot (bitsOf (mem addr).word) d (.root 1)).1 ∈ t.inner := by
    obtain ⟨l, r, ht⟩ := hb.shape.top
    have := spot_lt (p := .root 1) (x := bitsOf (mem addr).word) (.nodes e 0) (.nodes e 1) hd (ht ▸ hb.shape.nodup)
    rw [← ht] at this
    exact this.1
  -- the new node goes between two nodes
  have hspot_ne : (t.spot (bitsOf (mem addr).word) d (.root 1)).1 ≠ (t.spot (bitsOf (mem addr).word) d (.root 1)).2.top := by
    obtain ⟨l, r, ht⟩ := hb.shape.top
    refine spot_ne hb.shape.nodup fun hc => ?_
    have := spot_lt (p := .root 1) (x := bitsOf (mem addr).word) (.nodes e 0) (.nodes e 1) hd (ht ▸ hb.shape.nodup)
    rw [← ht] at this
    exact absurd hc this.2.2
  generalize (t.spot (bitsOf (mem addr).word) d (.root 1)).1 = prev at *
  generalize (t.spot (bitsOf (mem addr).word) d (.root 1)).2.top = cur at *
  have hprev1 : prev ≠ .nodes e 1 := fun c => h1 (c ▸ mem_all.2 (.inr hspot))
  have hcur1 : cur ≠ .nodes e 1 := fun c => h1 (c ▸ hcur)
  have hnode := node_linkNodes (h := prepared mem h e addr mask d) (x := (mem addr).word) (d := d)
    (q := .nodes e 1) hspot_ne hprev1 hcur1
  rw [if_pos rfl, prepared_inner] at hnode
  -- up from the new leaf there are the nodes on its way
  obtain ⟨hfself, hpself⟩ := hs₁.sound.insert_self (a := .nodes e 0) (b := .nodes e 1) hdiff₁
  have hups := hshape.linked.ups (x := bitsOf (mem addr).word)
  rw [hfself, hpself] at hups
  simp only [map_append, map_cons, map_nil, reverse_append, reverse_cons, reverse_nil,
    nil_append, cons_append] at hups
  obtain ⟨-, hups⟩ := hups
  have hpar : ((linkNodes (prepared mem h e addr mask d) e (mem addr).word d prev cur).node (.nodes e 1)).parent =
      some prev := by rw [hnode]
  obtain ⟨above, habove⟩ : ∃ above,
      (((t.path (bitsOf (mem addr).word)).filter (·.2 < d)).map (·.1)).reverse = prev :: above := by
    cases hl : (((t.path (bitsOf (mem addr).word)).filter (·.2 < d)).map (·.1)).reverse with
    | nil =>
      exfalso
      obtain ⟨l, r, ht⟩ := hb.shape.top
      rw [reverse_eq_nil_iff, map_eq_nil_iff, filter_eq_nil_iff] at hl
      exact hl (.root 1, 32) (by rw [ht]; simp [Trie.path]) (by simpa using hd)
    | cons a above =>
      rw [hl] at hups
      obtain rfl : a = prev := mem_unique hups.1 hpar
      exact ⟨above, rfl⟩
  rw [habove] at hups
  refine ⟨prev, cur, above, hplace, hshape, fun q => rest_linkNodes, ?_, hups.2, habove, hcur, hbit, ?_, ?_, ?_⟩
  · rw [hnode]
    dsimp only
    split
    · exact .inl ⟨rfl, rfl⟩
    · exact .inr ⟨rfl, rfl⟩
  all_goals
    unfold linkNodes
    dsimp only
    split <;> split <;> rfl

/-- The lists of masks, with the new nodes. -/
theorem Base.placed_alive (hnew : ∀ x ∈ S, x.entry ≠ e) {prev cur : Ptr} {above : List Ptr} {h₂ : Head}
    (hpl : Placed mem h t e addr mask d prev cur above h₂) : Alive h₂ (grown mem t e addr d).all L (h.mine S) := by
  obtain ⟨h0, h1⟩ := hb.notMem hnew
  have ha := hb.alive
  refine ⟨?_, fun p m hm => ?_, ha.known, ?_⟩
  · rw [hpl.masks]
    have hl : Lists (prepared mem h e addr mask d).masks t.all L := by
      refine hb.lists.congr (fun q hq => ?_) fun _ _ _ => by rw [prepared_next]
      exact prepared_head (fun c => h0 (c ▸ hq)) fun c => h1 (c ▸ hq)
    refine hl.extend (fun q hq => ?_) fun q hq hq' => ?_
    · exact all_insert.mem_iff.2 (mem_cons_of_mem _ (mem_cons_of_mem _ hq))
    · have := all_insert.mem_iff.1 hq
      simp only [mem_cons] at this
      exact prepared_head_new (by tauto)
  · rw [hpl.mask]
    exact ha.alive p m hm
  · unfold Head.fuel
    rw [hpl.stored]
    exact ha.few

/-- Where the mask of the new leaf may go. -/
theorem Base.placed_up (hnew : ∀ x ∈ S, x.entry ≠ e) {prev cur : Ptr} {above : List Ptr} {h₂ : Head}
    (hpl : Placed mem h t e addr mask d prev cur above h₂) {q : Ptr} (hq : q ∈ prev :: above) :
    q ∈ t.inner ∧ q ≠ cur ∧ q ≠ .nodes e 0 := by
  have hmem : q ∈ (((t.path (bitsOf (mem addr).word)).filter (·.2 < d)).map (·.1)).reverse := by
    rw [hpl.path]
    exact hq
  rw [mem_reverse, mem_map] at hmem
  obtain ⟨⟨q', i⟩, hm, rfl⟩ := hmem
  rw [mem_filter, decide_eq_true_eq] at hm
  have hin := mem_inner_of_path hm.1
  refine ⟨hin, ?_, ?_⟩
  · rintro rfl
    have := hpl.cur_bit i (hb.shape.linked.bit_path hm.1)
    dsimp only at hm
    omega
  · rintro rfl
    exact (hb.notMem hnew).1 (mem_all.2 (.inr hin))

/-- The entry of an inner node has an address. -/
theorem Base.own_key (hq : q ∈ t.inner) (hr : (h.node q).root = false) :
    ∃ x ∈ S, q = .nodes x.entry 1 ∧ q.pred = some (.nodes x.entry 0) ∧
      (h.node (.nodes x.entry 0)).addrkey = some (.at x.addr) := by
  rcases hb.inner q hq with rfl | ⟨x, hx, rfl⟩
  · rw [hb.root] at hr
    cases hr
  · exact ⟨x, hx, rfl, rfl, (hb.entry x hx).addrkey⟩

end Add

/-- Nothing but the leaf's `mymask` and that mask changed once the new nodes were linked in. -/
structure Marked (h₂ h' : Head) (e m : ℕ) (k : Mask) : Prop where
  other : ∀ q, q ≠ .nodes e 0 → h'.node q = h₂.node q
  leaf : h'.node (.nodes e 0) = { h₂.node (.nodes e 0) with mymask := some m }
  mask : h'.mask m = some k
  masks : ∀ m', m' ≠ m → h'.mask m' = h₂.mask m'

section Grown

variable {prev cur : Ptr} {above : List Ptr} {h₂ : Head} {L' : Ptr → List ℕ}
  (hb : Base mem w h t L S) (hnew : ∀ x ∈ S, x.entry ≠ e) (hpl : Placed mem h t e addr mask d prev cur above h₂)

include hb hpl

theorem Placed.root_eq (q : Ptr) : (h₂.node q).root = (h.node q).root := by
  have hr : (h₂.node q).root = ((prepared mem h e addr mask d).node q).root := rest_field Node.root (hpl.rest q)
  rw [hr]
  by_cases h0 : q = .nodes e 0
  · rw [h0, prepared_leaf, hb.node]
    rfl
  · by_cases h1 : q = .nodes e 1
    · rw [h1, prepared_inner, hb.node]
      rfl
    · rw [prepared_ne h0 h1]

include hnew

theorem Placed.rest_old (hq : q ∈ t.all) : (h₂.node q).rest = (h.node q).rest := by
  obtain ⟨h0, h1⟩ := hb.notMem hnew
  rw [hpl.rest q, prepared_ne (fun c => h0 (c ▸ hq)) fun c => h1 (c ▸ hq)]

/-- The way up ends. -/
theorem Placed.hoisted (off : ℕ) (nodemask nodekey : Word) (bits : ℕ) :
    ∃ up, hoist mem h₂ off nodemask nodekey bits h.fuel none prev = some up ∧ ∀ q, up = some q →
      q ∈ prev :: above := by
  have hroot : (h₂.node (.root 1)).root = true := by
    rw [hpl.root_eq hb]
    exact hb.root 1
  have hlen : above.length + 1 < h.fuel := by
    have h1 := congrArg length hpl.path
    have h2 := length_filter_le (fun q : Ptr × ℕ => decide (q.2 < d)) (t.path (bitsOf (mem addr).word))
    have h3 := path_length (bitsOf (mem addr).word) t
    have h4 := hb.inner_length
    rw [length_reverse, length_map, length_cons] at h1
    rw [hb.fuel]
    omega
  have hown : ∀ x ∈ prev :: above, (h₂.node x).root = false →
      ∃ own data, x.pred = some own ∧ (h₂.node own).addrkey = some data := by
    intro x hx hr
    have hin := (hb.placed_up hnew hpl hx).1
    rw [hpl.root_eq hb] at hr
    obtain ⟨y, hy, -, hpred, hkey⟩ := hb.own_key hin hr
    refine ⟨_, .at y.addr, hpred, ?_⟩
    have := hpl.rest_old hb hnew (mem_all.2 (.inl (hb.leaf_mem hy)))
    rw [← hkey]
    exact rest_field Node.addrkey this
  obtain ⟨up, hup, hcase⟩ := hoist_up mem off bits nodemask nodekey hroot none hpl.ups hown hlen
  refine ⟨up, hup, fun q hq => ?_⟩
  rcases hcase with rfl | ⟨x, hx, rfl⟩
  · cases hq
  · cases hq
    exact hx

variable {k : Mask} (hmk : Marked h₂ h' e m k)

include hmk

theorem Placed.rest_kept (hq : q ∈ t.all) : (h'.node q).rest = (h.node q).rest := by
  rw [hmk.other q fun c => (hb.notMem hnew).1 (c ▸ hq)]
  exact hpl.rest_old hb hnew hq

theorem Placed.entry_old (hm : h.mask m = none) (hx : x ∈ S) : Entry mem h' x := by
  have hx0 := hpl.rest_kept hb hnew hmk (mem_all.2 (.inl (hb.leaf_mem hx)))
  have hx1 := hpl.rest_kept hb hnew hmk (mem_all.2 (.inr (hb.inner_mem hx)))
  -- the mask of an entry is in use, and `m` is not
  refine (hb.entry x hx).congr hx0 (Node.still_of_rest hx1) fun m' k' _ hk' => ?_
  have hmm : m' ≠ m := by
    rintro rfl
    rw [hm] at hk'
    cases hk'
  rw [hmk.masks m' hmm, hpl.mask, hk']

omit hb hnew in
theorem Placed.entry_new (hp : Pair mem addr mask) (hmasked : Masked (mem addr).len (mem addr).word (mem mask).word)
    (hd : 32 < d) (hdlt : d < 32 * ((mem addr).len + 1)) (hk : k = ⟨.nodes e 0, .at mask, maskBits mem mask⟩) :
    Entry mem h' ⟨e, addr, mask⟩ := by
  have hl0 := hpl.rest (.nodes e 0)
  have hl1 := hpl.rest (.nodes e 1)
  rw [prepared_leaf] at hl0
  rw [prepared_inner] at hl1
  have e1 : (h₂.node (.nodes e 0)).addrkey = some (.at addr) := congrArg Node.addrkey hl0
  have e2 : (h₂.node (.nodes e 0)).maskkey = some (.at mask) := congrArg Node.maskkey hl0
  have e3 : (h₂.node (.nodes e 0)).dupkey = none := congrArg Node.dupkey hl0
  have e4 : (h₂.node (.nodes e 0)).maskbitcount = maskBits mem mask := congrArg Node.maskbitcount hl0
  have e5 : (h₂.node (.nodes e 1)).maskbitcount = maskBits mem mask := congrArg Node.maskbitcount hl1
  have e6 : (h₂.node (.nodes e 0)).offset = d / 32 := congrArg Node.offset hl0
  have e7 : (h₂.node (.nodes e 0)).addroff = (countMaskBits (mem mask).word (mem mask).len 1).2.getD 0 :=
    congrArg Node.addroff hl0
  refine ⟨hp, hmasked, ?_, ?_, ?_, ?_, ?_, ?_, ?_, m, ?_, ?_⟩
  · rw [hmk.leaf, ← e1]
  · rw [hmk.leaf, ← e2]
  · rw [hmk.leaf, ← e7]
  · rw [hmk.leaf, ← e3]
  · rw [hmk.leaf, ← e4]
  · rw [hmk.other _ (by simp), e5]
  · rw [hmk.leaf]
    dsimp only
    rw [e6]
    omega
  · rw [hmk.leaf]
  · rw [hmk.mask, hk]

omit hb hnew in
theorem Placed.shape_marked : Shape mem h' (grown mem t e addr d) := by
  refine hpl.shape.frame fun q _ => ?_
  by_cases hq : q = .nodes e 0
  · rw [hq, hmk.leaf]
  · rw [hmk.other q hq]

/-- The inner node of an entry stays on the way to its leaf. -/
theorem Placed.own (hm : h.mask m = none)
    (hdiff : Differs (fun p => bitsOf (h.key mem p)) 32 t (bitsOf (mem addr).word) d) :
    ∀ x ∈ (⟨e, addr, mask⟩ : Stored) :: S, ∃ i, (.nodes x.entry 1, i) ∈
      (grown mem t e addr d).path (bitsOf (mem x.addr).word) := by
  intro x hx
  rcases mem_cons.1 hx with rfl | hx
  · refine ⟨d, ?_⟩
    rw [(hb.shape.sound.insert_self hdiff).2]
    simp
  · obtain ⟨i, hi⟩ := hb.own x hx
    have hfind : (grown mem t e addr d).find (bitsOf (mem x.addr).word) = .nodes x.entry 0 := by
      have hkey : h'.key mem (.nodes x.entry 0) = (mem x.addr).word := by
        unfold Head.key
        rw [(hpl.entry_old hb hnew hmk hm hx).addrkey]
        rfl
      have hfound := (hpl.shape_marked hmk).sound.find_key (mem_leaves_insert.2 (.inr (hb.leaf_mem hx)))
      rwa [hkey] at hfound
    -- the search either ends at the new leaf, or passes what it passed before
    rcases hb.shape.sound.insert_other (x := bitsOf (mem addr).word) (d := d) (a := .nodes e 0) (b := .nodes e 1)
      (bitsOf (mem x.addr).word) with ⟨hc, -⟩ | ⟨-, hc⟩
    · rw [hfind, Ptr.nodes.injEq] at hc
      exact absurd hc.1 (hnew x hx)
    · exact ⟨i, hc _ hi⟩

/-- **The tree with the new entry.** -/
theorem Placed.base (hp : Pair mem addr mask) (hw : (mem addr).len = w)
    (hmasked : Masked (mem addr).len (mem addr).word (mem mask).word) (hm : h.mask m = none) (hd : 32 < d)
    (hdlt : d < 32 * ((mem addr).len + 1)) (hdiff : Differs (fun p => bitsOf (h.key mem p)) 32 t (bitsOf (mem addr).word) d)
    (hk : k = ⟨.nodes e 0, .at mask, maskBits mem mask⟩) (hstored : h'.stored = e :: h₂.stored)
    (hlists : Lists h'.masks (grown mem t e addr d).all L') (hlisted : ∀ q, ∀ x ∈ L' q, x = m ∨ ∃ q', x ∈ L q') :
    Base mem w h' (grown mem t e addr d) L' (⟨e, addr, mask⟩ :: S) := by
  have hlen := hp.len
  have hold := fun {q : Ptr} => hpl.rest_kept hb hnew hmk (q := q)
  have hroot : ∀ q, (h'.node q).root = (h.node q).root := by
    intro q
    rw [← hpl.root_eq hb]
    by_cases hq : q = .nodes e 0
    · rw [hq, hmk.leaf]
    · rw [hmk.other q hq]
  have hmem0 : Ptr.root 0 ∈ t.all := mem_all.2 (.inl ((hb.leaves _).2 (.inl rfl)))
  have hmem2 : Ptr.root 2 ∈ t.all := mem_all.2 (.inl ((hb.leaves _).2 (.inr (.inl rfl))))
  have hl1 := hpl.rest (.nodes e 1)
  rw [prepared_inner] at hl1
  refine ⟨hpl.shape_marked hmk, ?_, ?_, fun p => ?_, fun p hp => ?_, hpl.own hb hnew hmk hm hdiff, fun x hx => ?_,
    fun i => ?_, fun e i => ?_, ?_, ?_, ?_, fun x hx => ?_, fun p hp => ?_, hlists, fun q x hx => ?_⟩
  · rw [hstored, hpl.stored, hb.stored]
    rfl
  · rw [map_cons, nodup_cons]
    refine ⟨fun hc => ?_, hb.nodup⟩
    obtain ⟨x, hx, hxe⟩ := mem_map.1 hc
    exact hnew x hx hxe
  · rw [mem_leaves_insert, hb.leaves]
    simp only [mem_cons, exists_eq_or_imp]
    tauto
  · rcases mem_inner_insert.1 hp with rfl | hp
    · exact .inr ⟨_, mem_cons_self, rfl⟩
    · exact (hb.inner p hp).imp_right fun ⟨x, hx, hc⟩ => ⟨x, mem_cons_of_mem _ hx, hc⟩
  · rcases mem_cons.1 hx with rfl | hx
    · exact hpl.entry_new hmk hp hmasked hd hdlt hk
    · exact hpl.entry_old hb hnew hmk hm hx
  · rw [hroot]
    exact hb.root i
  · rw [hroot]
    exact hb.node e i
  · rw [← hb.zeros]
    exact rest_field Node.addrkey (hold hmem0)
  · rw [← hb.ones]
    exact rest_field Node.addrkey (hold hmem2)
  · rw [← hb.first]
    exact rest_field Node.dupkey (hold hmem0)
  · rcases mem_cons.1 hx with rfl | hx
    · exact hw
    · exact hb.len x hx
  · rcases mem_inner_insert.1 hp with rfl | hp
    · have hi : (h₂.node (.nodes e 1)).index = d := congrArg Node.index hl1
      rw [hmk.other _ (by simp), hi]
      omega
    · have hi : (h'.node p).index = (h.node p).index := rest_field Node.index (hold (mem_all.2 (.inr hp)))
      rw [hi]
      exact hb.small p hp
  · rcases hlisted q x hx with rfl | ⟨q', hx'⟩
    · exact ⟨_, mem_cons_self, by rw [hmk.leaf]⟩
    · obtain ⟨y, hy, hym⟩ := hb.listed q' x hx'
      refine ⟨y, mem_cons_of_mem _ hy, ?_⟩
      rw [← hym]
      exact rest_field Node.mymask (hold (mem_all.2 (.inl (hb.leaf_mem hy))))

end Grown

/-- What `ipf_rx_addroute` does to the lists: the new mask goes to `up`, or to its leaf. -/
structure Listed (h h' : Head) (L L' : Ptr → List ℕ) (e m bits : ℕ) (cur : Ptr) (up : Option Ptr) : Prop where
  other : ∀ q, q ≠ .nodes e 0 → q ≠ cur → L' q = if q = up.getD (.nodes e 0) then h'.put bits m (L q) else L q
  cur_sub : ∀ x ∈ L' cur, x ∈ L cur
  cur_eq : (∀ x ∈ L cur, bits ≤ h.bits x) → L' cur = L cur
  bits_new : h'.bits m = bits
  bits_old : ∀ x, x ≠ m → h'.bits x = h.bits x

/-- **`ipf_rx_addroute` for an address that is not in the tree.** -/
theorem Base.add (hb : Base mem w h t L S) (hl : Op.Legal mem h S (.add e addr mask m))
    (hk : Op.Keeps mem w h (.add e addr mask m)) :
    ∃ d prev cur above h₂ up h' L', Placed mem h t e addr mask d prev cur above h₂ ∧
      Differs (fun p => bitsOf (h.key mem p)) 32 t (bitsOf (mem addr).word) d ∧
      hoist mem h₂ (d / 32) (h₂.node (.nodes e 0)).lastmask ((mem addr).word (d / 32)) (maskBits mem mask) h.fuel
        none prev = some up ∧ (∀ q, up = some q → q ∈ prev :: above) ∧
      ipfRxAddroute mem h e addr mask m = some (h', some (.nodes e 0)) ∧
      Base mem w h' (grown mem t e addr d) L' (⟨e, addr, mask⟩ :: S) ∧
      Listed h h' L L' e m (maskBits mem mask) cur up := by
  obtain ⟨hp, hnew', hm⟩ := hl
  have hnew : ∀ x ∈ S, x.entry ≠ e := fun x hx => (hnew' x hx).1
  obtain ⟨h0, h1⟩ := hb.notMem hnew
  obtain ⟨data, d, hdata, hdiffw, hdeq, hd, hdlt, hdiff⟩ := hb.differs hk
  have hlen := hp.len
  -- the new nodes are linked in
  obtain ⟨prev, cur, above, hplace, hpl⟩ := hb.placed hp hnew hd (by omega) hdiff
  have ha := hb.placed_alive hnew hpl
  generalize hh₂ : linkNodes (prepared mem h e addr mask d) e (mem addr).word d prev cur = h₂ at hpl ha
  -- the node whose list takes the mask
  obtain ⟨up, hup, hupmem⟩ := hpl.hoisted hb hnew (d / 32) (h₂.node (.nodes e 0)).lastmask ((mem addr).word (d / 32))
    (maskBits mem mask)
  have hl0 := hpl.rest (.nodes e 0)
  rw [prepared_leaf] at hl0
  have hmaskkey : (h₂.node (.nodes e 0)).maskkey = some (.at mask) := congrArg Node.maskkey hl0
  have hbits : (h₂.node (.nodes e 0)).maskbitcount = maskBits mem mask := congrArg Node.maskbitcount hl0
  have hroot : (h₂.node (.nodes e 0)).root = false := congrArg Node.root hl0
  have hn0 : Ptr.nodes e 0 ∈ (grown mem t e addr d).all :=
    all_insert.mem_iff.2 (by simp)
  have hsub : ∀ q ∈ t.all, q ∈ (grown mem t e addr d).all :=
    fun q hq => all_insert.mem_iff.2 (by simp [hq])
  have hfuel : h₂.fuel = h.fuel := by
    unfold Head.fuel
    rw [hpl.stored]
  -- that is not the list the mask is taken from
  have hdst : up.getD (.nodes e 0) ∈ (grown mem t e addr d).all ∧
      up.getD (.nodes e 0) ≠ cur := by
    cases hu : up with
    | none =>
      refine ⟨hn0, fun (c : Ptr.nodes e 0 = cur) => ?_⟩
      rw [c] at h0
      exact h0 hpl.cur_mem
    | some q =>
      have hq := hb.placed_up hnew hpl (hupmem q hu)
      exact ⟨hsub q (mem_all.2 (.inr hq.1)), hq.2.1⟩
  have hmine : (h.mine S).length < h₂.fuel := by
    have := length_filterMap_le (fun x : Stored => (h.node (.nodes x.entry 0)).mymask) S
    rw [hfuel, hb.fuel]
    unfold Head.mine
    omega
  have hm₂ : h₂.mask m = none := by rw [hpl.mask, hm]
  obtain ⟨M, L', hins, ha', h3, h4, h5, h6⟩ := insertMasks_lists (b := maskBits mem mask) rfl ha hm₂ hmine hn0
    (hb.lists.eq_nil h0) rfl hdst.1 (hsub cur hpl.cur_mem) (fun c => h0 (c ▸ hpl.cur_mem)) hdst.2 hpl.sides hroot
  -- the heap afterwards
  have hbase : Base mem w { h₂.withMask e m ⟨.nodes e 0, .at mask, maskBits mem mask⟩ with
      masks := M, stored := e :: h₂.stored } (grown mem t e addr d) L'
      (⟨e, addr, mask⟩ :: S) :=
    hpl.base hb hnew ⟨fun _ hq => update_of_ne hq .., update_self .., update_self .., fun _ hm' => update_of_ne hm' ..⟩
      hp hk.1 (by rw [hk.1]; exact hk.2.1) hm hd hdlt hdiff rfl rfl ha'.lists h4
  refine ⟨d, prev, cur, above, h₂, up, _, L', hpl, hdiff, hup, hupmem, ?_, hbase, ?_⟩
  · have hfind : ipfRxFindAddr (buildnodes mem h e addr mask) (mem addr).word h.fuel (.root 1) =
        some (t.find (bitsOf (mem addr).word)) := by
      have hs : Shape mem (buildnodes mem h e addr mask) t := by
        refine hb.shape.frame fun q hq => ?_
        rw [buildnodes_ne (fun c => h0 (c ▸ hq)) fun c => h1 (c ▸ hq)]
      have := hb.inner_length
      refine hs.find _ ?_
      rw [hb.fuel]
      omega
    have hdata' : ((buildnodes mem h e addr mask).node (t.find (bitsOf (mem addr).word))).addrkey = some data := by
      have hq : t.find (bitsOf (mem addr).word) ∈ t.all := mem_all.2 (.inl (find_mem _ t))
      rw [buildnodes_ne (fun c => h0 (c ▸ hq)) fun c => h1 (c ▸ hq), hdata]
    have hinsert := insert_eq rfl hfind hdata' hdiffw hdeq hplace hh₂ hmaskkey hbits hup hins
    unfold ipfRxAddroute
    dsimp only
    rw [hinsert]
    rfl
  · refine ⟨h3, h5, fun hall => h6 fun x hx => ?_, ?_, fun x hx => ?_⟩
    · have hb₂ : h₂.bits x = h.bits x := by
        unfold Head.bits
        rw [hpl.mask]
      rw [hb₂]
      exact hall x hx
    · refine (bits_of (k := ⟨.nodes e 0, .at mask, maskBits mem mask⟩) ?_)
      exact update_self ..
    · unfold Head.bits
      change ((update h₂.mask m _ x).map _).getD 0 = _
      rw [update_of_ne hx, hpl.mask]

/-! ## Deleting -/

theorem sameKey_iff {a b : Adf} : sameKey a b = true ↔ a.len = b.len ∧ ∀ i, 1 ≤ i → i ≤ a.len →
    a.word i = b.word i := by
  unfold sameKey
  rw [decide_eq_true_eq]
  refine and_congr_right fun _ => ⟨fun h i h1 h2 => ?_, fun h i hi => h (i + 1) (by omega) (by omega)⟩
  have := h (i - 1) (by omega)
  rwa [show i - 1 + 1 = i by omega] at this

/-- The bits that are tested are of the address. -/
theorem Base.path_range (hb : Base mem w h t L S) {x : ℕ → Bool} {c : Ptr × ℕ} (hc : c ∈ t.path x) :
    32 ≤ c.2 ∧ c.2 < 32 * (w + 1) := by
  have hin := mem_inner_of_path (n := c.1) (i := c.2) hc
  have hbit := hb.shape.linked.bit_path (n := c.1) (i := c.2) hc
  have hlt := hb.small c.1 hin
  have hn := (hb.shape.tests c.1 hin).nonneg
  have hi : (h.node c.1).index.toNat = c.2 := Option.some.inj ((hb.shape.tests c.1 hin).bit.symm.trans hbit)
  exact ⟨hb.shape.sound.le_of_path (n := c.1) (i := c.2) hc, by omega⟩

/-- The same address leads to the same leaf. -/
theorem Base.find_same (hb : Base mem w h t L S) (hx : x ∈ S) (hsame : sameKey (mem x.addr) (mem addr) = true) :
    t.find (bitsOf (mem addr).word) = .nodes x.entry 0 := by
  rw [← hb.find_entry hx]
  obtain ⟨-, hw⟩ := sameKey_iff.1 hsame
  refine find_congr fun q hq => ?_
  obtain ⟨hle, hlt⟩ := hb.path_range hq
  have hlen := hb.len x hx
  unfold bitsOf
  rw [hw (q.2 / 32) (by omega) (by omega)]

/-- The loop that goes up to remove the mask finds none. -/
theorem dropMasks_up {T : List Ptr} {B : List ℕ} {found : Ptr} {key : Obj} (ha : Alive h T L B)
    (hroot : (h.node (.root 1)).root = true) (hkey : (h.node found).addrkey = some key) {l : List Ptr} :
    ∀ {n : Ptr} {fuel : ℕ}, Ups h.cells n l (.root 1) →
      (∀ x ∈ n :: l, x ∈ T ∧ (∀ y ∈ L x, ∀ k, h.mask y = some k → k.node ≠ x) ∧
        ((h.node x).root = false → ∃ own data, x.pred = some own ∧ (h.node own).addrkey = some data)) →
      l.length + 1 < fuel → dropMasks mem found fuel h n = some h := by
  -- one node, with what is above it
  have hone : ∀ {n q : Ptr} {fuel : ℕ}, (h.node n).parent = some q → dropMasks mem found fuel h q = some h →
      n ∈ T → (∀ y ∈ L n, ∀ k, h.mask y = some k → k.node ≠ n) →
      ((h.node n).root = false → ∃ own data, n.pred = some own ∧ (h.node own).addrkey = some data) →
      dropMasks mem found (fuel + 1) h n = some h := by
    intro n q fuel hpar hrec hT hL hown
    unfold dropMasks
    split
    · rfl
    · rename_i hr
      split
      · rfl
      · obtain ⟨own, data, h1, h2⟩ := hown (by simpa using hr)
        simp only [h1, h2, hkey, bind_eq_bind, bind_some]
        split
        · rfl
        · have hd := dropMask_none ha hT hL (show L n = [] ++ L n from rfl) (ha.length_le n)
          change dropMask h n h.fuel (.head n) = some h at hd
          rw [hd]
          change (h.node n).parent.bind (dropMasks mem found fuel h) = some h
          rw [hpar]
          exact hrec
  induction l with
  | nil =>
    intro n fuel hu hall hf
    obtain ⟨fuel, rfl⟩ : ∃ f, fuel = f + 2 := ⟨fuel - 2, by simp at hf; omega⟩
    obtain ⟨h1, h2, h3⟩ := hall n mem_cons_self
    refine hone (show (h.node n).parent = some (.root 1) from hu) ?_ h1 h2 h3
    simp [dropMasks, hroot]
  | cons a l ih =>
    intro n fuel hu hall hf
    obtain ⟨fuel, rfl⟩ : ∃ f, fuel = f + 1 := ⟨fuel - 1, by simp at hf; omega⟩
    obtain ⟨h1, h2, h3⟩ := hall n mem_cons_self
    refine hone (show (h.node n).parent = some a from hu.1) ?_ h1 h2 h3
    exact ih hu.2 (fun x hx => hall x (mem_cons_of_mem _ hx)) (by simp at hf; omega)

section Gone

variable {a b c g s : Ptr} (hb : Base mem w h t L S) (hx : x ∈ S) (ha : a = .nodes x.entry 0) (hbe : b = .nodes x.entry 1)
  (hv : Leaving h t t' a c g s)

include hb hx ha hv

/-- The node above a leaf is the last one on its way. -/
theorem Leaving.above_path : ∃ i, (c, i) ∈ t.path (bitsOf (mem x.addr).word) := by
  have hups := hb.shape.linked.ups (x := bitsOf (mem x.addr).word)
  rw [hb.find_entry hx, ← ha] at hups
  have hpar : (h.cells a).parent = some c := hv.parent
  cases hl : ((t.path (bitsOf (mem x.addr).word)).map (·.1)).reverse with
  | nil =>
    rw [hl] at hups
    exact absurd (mem_unique hpar hups) hv.top
  | cons q l =>
    rw [hl] at hups
    obtain rfl : c = q := mem_unique hpar hups.1
    have hmem : c ∈ ((t.path (bitsOf (mem x.addr).word)).map (·.1)).reverse := by
      rw [hl]
      exact mem_cons_self
    rw [mem_reverse, mem_map] at hmem
    obtain ⟨⟨c', i⟩, hm, rfl⟩ := hmem
    exact ⟨i, hm⟩

theorem Leaving.leaves_iff : q ∈ t'.leaves ↔ q = .root 0 ∨ q = .root 2 ∨ ∃ y ∈ S, y ≠ x ∧
    q = .nodes y.entry 0 := by
  have hout := (hv.notMem hb.shape).2
  have hiff : q ∈ t'.leaves ↔ q ∈ t.leaves ∧ q ≠ a := by
    rw [hv.spliced.mem_leaves]
    constructor
    · intro hq
      exact ⟨.inr hq, fun c => hout (c ▸ mem_all.2 (.inl hq))⟩
    · rintro ⟨hq, hne⟩
      exact hq.resolve_left hne
  rw [hiff, hb.leaves, ha]
  constructor
  · rintro ⟨hq | hq | ⟨y, hy, hq⟩, hne⟩
    · exact .inl hq
    · exact .inr (.inl hq)
    · refine .inr (.inr ⟨y, hy, ?_, hq⟩)
      rintro rfl
      exact hne hq
  · rintro (rfl | rfl | ⟨y, hy, hne, rfl⟩)
    · exact ⟨.inl rfl, by simp⟩
    · exact ⟨.inr (.inl rfl), by simp⟩
    · refine ⟨.inr (.inr ⟨y, hy, rfl⟩), fun hc => ?_⟩
      rw [Ptr.nodes.injEq] at hc
      exact hne (hb.entry_inj hy hx hc.1)

include hbe

theorem Leaving.leaf_ne (hq : q ∈ t'.leaves) : q ≠ b := by
  rw [hbe]
  rcases (hv.leaves_iff hb hx ha).1 hq with rfl | rfl | ⟨y, -, -, rfl⟩ <;> simp

/-- The tree afterwards has the same leaves. -/
theorem Leaving.map_leaves : (t'.map (instead b c)).leaves = t'.leaves := by
  rw [Patricia.map_leaves]
  have hid : ∀ q ∈ t'.leaves, instead b c q = id q := fun q hq => instead_ne (hv.leaf_ne hb hx ha hbe hq)
  rw [map_congr_left hid, map_id]

/-- The inner nodes afterwards. -/
theorem Leaving.map_inner (hq : q ∈ (t'.map (instead b c)).inner) :
    q ∈ t.inner ∧ (q = .root 1 ∨ ∃ y ∈ S, y ≠ x ∧ q = .nodes y.entry 1) := by
  have hout := (hv.notMem hb.shape).1
  rw [Patricia.map_inner, mem_map] at hq
  obtain ⟨q', hq', rfl⟩ := hq
  have hsub : ∀ p ∈ t'.inner, p ∈ t.inner := fun p hp => hv.spliced.mem_inner.2 (.inr hp)
  have hin : instead b c q' ∈ t.inner ∧ instead b c q' ≠ b := by
    by_cases hqb : q' = b
    · rw [hqb, instead_self]
      refine ⟨hv.spliced.node_mem, fun hc => hout ?_⟩
      rw [hc, ← hqb]
      exact mem_all.2 (.inr hq')
    · rw [instead_ne hqb]
      exact ⟨hsub q' hq', hqb⟩
  refine ⟨hin.1, (hb.inner _ hin.1).imp_right ?_⟩
  rintro ⟨y, hy, hye⟩
  refine ⟨y, hy, ?_, hye⟩
  rintro rfl
  exact hin.2 (hye.trans hbe.symm)

/-- The inner nodes of other entries are still on their ways. -/
theorem Leaving.own {y : Stored} (hy : y ∈ S) (hne : y ≠ x) :
    ∃ i, (.nodes y.entry 1, i) ∈ (t'.map (instead b c)).path (bitsOf (mem y.addr).word) := by
  obtain ⟨i, hi⟩ := hb.own y hy
  have hyb : Ptr.nodes y.entry 1 ≠ b := by
    rw [hbe]
    intro hc
    rw [Ptr.nodes.injEq] at hc
    exact hne (hb.entry_inj hy hx hc.1)
  rw [map_path]
  by_cases hyc : Ptr.nodes y.entry 1 = c
  · -- the node has moved up to where the deleted entry had its own
    have hcb : b ≠ c := fun e => hyb (hyc.trans e.symm)
    obtain ⟨j, hj⟩ := hb.own x hx
    rw [← hbe] at hj
    obtain ⟨i', hi'⟩ := hv.above_path hb hx ha
    rw [hyc] at hi
    have hkx := hb.key_entry hx
    have hky := hb.key_entry hy
    have hbelow := hv.below hb.shape (show (b, j) ∈ t.path (bitsOf (h.key mem a)) by rw [ha, hkx]; exact hj) hcb
    have hbit : ∀ {n : Ptr} {i : ℕ} {z : Stored}, (n, i) ∈ t.path (bitsOf (mem z.addr).word) →
        (h.node n).index = i := by
      intro n i z hn
      have ht := hb.shape.tests n (mem_inner_of_path hn)
      have := Option.some.inj (ht.bit.symm.trans (hb.shape.linked.bit_path hn))
      have hn0 := ht.nonneg
      omega
    have hjb := hbit hj
    have hic := hbit hi
    have hic' := hbit hi'
    obtain rfl : i = i' := by omega
    have hagree := hb.shape.sound.agree ((inner_sublist t).nodup hb.shape.nodup) (hb.leaf_mem hx) (hb.leaf_mem hy)
      (show (c, i) ∈ t.path (bitsOf (h.key mem (.nodes x.entry 0))) by rw [hkx]; exact hi')
      (show (c, i) ∈ t.path (bitsOf (h.key mem (.nodes y.entry 0))) by rw [hky]; exact hi)
    rw [hkx, hky] at hagree
    have hmem : (b, j) ∈ t.path (bitsOf (mem y.addr).word) := by
      refine hb.shape.sound.path_congr hj fun q hq hlt => ?_
      have hle := hb.shape.sound.le_of_path (n := q.1) (i := q.2) hq
      exact (hagree q.2 hle (by omega)).symm
    refine ⟨j, mem_map.2 ⟨(b, j), hv.spliced.path hmem hcb, ?_⟩⟩
    rw [hyc, instead_self]
  · exact ⟨i, mem_map.2 ⟨_, hv.spliced.path hi hyc, by rw [instead_ne hyb]⟩⟩

/-- **The tree without the entry.** -/
theorem Leaving.base {h₁ : Head} {S' : List Stored} {L' : Ptr → List ℕ} {l r : Ptr} {up : List Ptr}
    (hshape : Shape mem h₁ (t'.map (instead b c))) (hun : Unlinked h h₁ c) (hleft : Left h h₁ t a b c l r up)
    (hnode : h'.node = h₁.node)
    (hmask : ∀ y ∈ S, y ≠ x → ∀ m k, (h.node (.nodes y.entry 0)).mymask = some m → h.mask m = some k →
      h'.mask m = some k)
    (hstored : h'.stored = S'.map Stored.entry) (hnodup : (S'.map Stored.entry).Nodup)
    (hS : ∀ y, y ∈ S' ↔ y ∈ S ∧ y ≠ x) (hlists : Lists h'.masks (t'.map (instead b c)).all L')
    (hlisted : ∀ q, ∀ m ∈ L' q, ∃ y ∈ S, y ≠ x ∧ (h.node (.nodes y.entry 0)).mymask = some m) :
    Base mem w h' (t'.map (instead b c)) L' S' := by
  have hcin : c ∈ t.inner := hv.spliced.node_mem
  -- leaves keep their nodes: `c` is an inner one
  have hleafc : ∀ q ∈ t.leaves, q ≠ c := fun q hq e => leaf_notMem_inner hb.shape.nodup hq (e ▸ hcin)
  have hrest : ∀ q, q ≠ c → (h'.node q).rest = (h.node q).rest := fun q hq => by rw [hnode]; exact hun.rest q hq
  have hstill : ∀ q, (h'.node q).still = (h.node q).still := fun q => by rw [hnode]; exact hun.still q
  have hroot : ∀ q, (h'.node q).root = (h.node q).root := by
    intro q
    have := congrArg Node.root (hstill q)
    exact this
  have hsent : ∀ i : Fin 3, Ptr.root i ∈ t.leaves → (h'.node (.root i)).addrkey = (h.node (.root i)).addrkey :=
    fun i hi => rest_field Node.addrkey (hrest _ (hleafc _ hi))
  refine ⟨?_, hstored, hnodup, fun p => ?_, fun p hp => ?_, fun y hy => ?_, fun y hy => ?_, fun i => ?_, fun e i => ?_, ?_,
    ?_, ?_, fun y hy => ?_, fun p hp => ?_, hlists, fun q m hm => ?_⟩
  · exact hshape.frame fun q _ => by rw [hnode]
  · rw [hv.map_leaves hb hx ha hbe, hv.leaves_iff hb hx ha]
    refine or_congr_right (or_congr_right ⟨?_, ?_⟩)
    · rintro ⟨y, hy, hne, hq⟩
      exact ⟨y, (hS y).2 ⟨hy, hne⟩, hq⟩
    · rintro ⟨y, hy, hq⟩
      obtain ⟨hy, hne⟩ := (hS y).1 hy
      exact ⟨y, hy, hne, hq⟩
  · refine (hv.map_inner hb hx ha hbe hp).2.imp_right ?_
    rintro ⟨y, hy, hne, hq⟩
    exact ⟨y, (hS y).2 ⟨hy, hne⟩, hq⟩
  · obtain ⟨hy, hne⟩ := (hS y).1 hy
    exact hv.own hb hx ha hbe hy hne
  · obtain ⟨hy, hne⟩ := (hS y).1 hy
    exact (hb.entry y hy).congr (hrest _ (hleafc _ (hb.leaf_mem hy))) (hstill _) (hmask y hy hne)
  · rw [hroot]
    exact hb.root i
  · rw [hroot]
    exact hb.node e i
  · rw [hsent 0 ((hb.leaves _).2 (.inl rfl))]
    exact hb.zeros
  · rw [hsent 2 ((hb.leaves _).2 (.inr (.inl rfl)))]
    exact hb.ones
  · rw [← hb.first]
    exact rest_field Node.dupkey (hrest _ (hleafc _ ((hb.leaves _).2 (.inl rfl))))
  · exact hb.len y ((hS y).1 hy).1
  · have hin := (hv.map_inner hb hx ha hbe hp).1
    -- `c` tests its own bit or that of the deleted node
    by_cases hpc : p = c
    · rw [hnode, hpc]
      have hbin : b ∈ t.inner := hbe ▸ hb.inner_mem hx
      rcases hleft.index with hi | hi
      · rw [hi]
        exact hb.small c hcin
      · rw [hi]
        exact hb.small b hbin
    · have hi : (h'.node p).index = (h.node p).index := rest_field Node.index (hrest p hpc)
      rw [hi]
      exact hb.small p hin
  · obtain ⟨y, hy, hne, hym⟩ := hlisted q m hm
    refine ⟨y, (hS y).2 ⟨hy, hne⟩, ?_⟩
    rw [← hym]
    exact rest_field Node.mymask (hrest _ (hleafc _ (hb.leaf_mem hy)))

/-- The nodes that stay. -/
theorem Leaving.all_sub (hq : q ∈ (t'.map (instead b c)).all) : q ∈ t.all ∧ q ≠ a := by
  have hout := (hv.notMem hb.shape).2
  rcases mem_all.1 hq with hq | hq
  · rw [hv.map_leaves hb hx ha hbe] at hq
    exact ⟨mem_all.2 (.inl (hv.spliced.mem_leaves.2 (.inr hq))), fun e => hout (e ▸ mem_all.2 (.inl hq))⟩
  · have hin := (hv.map_inner hb hx ha hbe hq).1
    refine ⟨mem_all.2 (.inr hin), fun e => ?_⟩
    exact leaf_notMem_inner hb.shape.nodup (ha ▸ hb.leaf_mem hx) (e ▸ hin)

omit hbe hx ha in
/-- A mask on a list is that of a leaf of an entry. -/
theorem Leaving.mask_node {h₁ : Head} (hun : Unlinked h h₁ c) (hm : m ∈ L q) :
    ∃ y ∈ S, (h.node (.nodes y.entry 0)).mymask = some m ∧
      h.mask m = some ⟨.nodes y.entry 0, .at y.mask, maskBits mem y.mask⟩ ∧
      (h₁.node (.nodes y.entry 0)).rest = (h.node (.nodes y.entry 0)).rest := by
  obtain ⟨y, hy, hym⟩ := hb.listed q m hm
  obtain ⟨m', h1, h2⟩ := (hb.entry y hy).mymask
  obtain rfl : m' = m := mem_unique h1 hym
  refine ⟨y, hy, hym, h2, hun.rest _ ?_⟩
  intro e
  exact leaf_notMem_inner hb.shape.nodup (hb.leaf_mem hy) (e ▸ hv.spliced.node_mem)

/-- **The end of `ipf_rx_delete`.** -/
theorem Leaving.deleteMasks {h₁ : Head} {l r : Ptr} {up : List Ptr} {m₀ : ℕ} (hun : Unlinked h h₁ c)
    (hleft : Left h h₁ t a b c l r up) (hm₀ : (h.node a).mymask = some m₀) (hown : m₀ ∈ L a)
    (hsent : c = b → (h.node c).right = some a → ∀ m ∈ L c, ¬sentRight mem h a m) :
    ∃ M L', deleteMasks mem h₁ a c = some { h₁ with mask := update h₁.mask m₀ none, masks := M } ∧
      Lists M (t'.map (instead b c)).all L' ∧
      ∀ q, ∀ m ∈ L' q, ∃ y ∈ S, y ≠ x ∧ (h.node (.nodes y.entry 0)).mymask = some m := by
  have haleaf : a ∈ t.leaves := ha ▸ hb.leaf_mem hx
  have hcin : c ∈ t.inner := hv.spliced.node_mem
  have hac : a ≠ c := fun e => leaf_notMem_inner hb.shape.nodup haleaf (e ▸ hcin)
  have hal := hb.alive
  have hfuel : h₁.fuel = h.fuel := by
    unfold Head.fuel
    rw [hun.stored]
  have ha₁ : Alive h₁ t.all L (h.mine S) :=
    ⟨by rw [hun.masks]; exact hal.lists, by rw [hun.mask]; exact hal.alive, hal.known, by rw [hfuel]; exact hal.few⟩
  have harest := hun.rest a hac
  have hakey : (h₁.node a).addrkey = some (.at x.addr) := by
    have h1 : (h₁.node a).addrkey = (h.node a).addrkey := rest_field Node.addrkey harest
    rw [h1, ha]
    exact (hb.entry x hx).addrkey
  have hamask : (h₁.node a).mymask = some m₀ := by
    have h1 : (h₁.node a).mymask = (h.node a).mymask := rest_field Node.mymask harest
    rw [h1, hm₀]
  have hroot : ∀ q, (h₁.node q).root = (h.node q).root := fun q => by
    have := congrArg Node.root (hun.still q)
    exact this
  -- masks name leaves, so nothing on the way up is dropped
  have hdrop : dropMasks mem a h₁.fuel h₁ c = some h₁ := by
    refine dropMasks_up ha₁ (by rw [hroot]; exact hb.root 1) hakey hleft.ups (fun y hy => ?_) ?_
    · have hyin : y ∈ t.inner := by
        rcases mem_cons.1 hy with rfl | hy
        · exact hcin
        · exact hleft.ups_mem y hy
      refine ⟨mem_all.2 (.inr hyin), fun m hm k hk => ?_, fun hr => ?_⟩
      · obtain ⟨z, hz, -, hzm, -⟩ := hv.mask_node hb hun hm
        rw [hun.mask, hzm] at hk
        cases hk
        rintro rfl
        exact leaf_notMem_inner hb.shape.nodup (hb.leaf_mem hz) hyin
      · rw [hroot] at hr
        obtain ⟨z, hz, -, hpred, hkey⟩ := hb.own_key hyin hr
        refine ⟨_, .at z.addr, hpred, ?_⟩
        rw [← hkey]
        exact rest_field Node.addrkey (hun.rest _ fun e => leaf_notMem_inner hb.shape.nodup (hb.leaf_mem hz) (e ▸ hcin))
    · have := hleft.ups_length
      have hlen := hb.inner_length
      rw [hfuel, hb.fuel]
      omega
  -- the lists of the nodes other than the leaf have no mask of it
  have hT : ∀ q, q ∈ t.all.filter (· ≠ a) ↔ q ∈ t.all ∧ q ≠ a := fun q => by simp [mem_filter]
  have hne : ∀ q, q ≠ a → ∀ m ∈ L q, m ≠ m₀ := by
    rintro q hq m hm rfl
    exact hb.lists.disjoint hq hm hown
  have ha₂ : Alive { h₁ with mask := update h₁.mask m₀ none } (t.all.filter (· ≠ a))
      (fun q => if q ∈ t.all.filter (· ≠ a) then L q else []) (h.mine S) := by
    refine ⟨ha₁.lists.restrict fun q hq => ((hT q).1 hq).1, fun q m hm => ?_, fun q m hm => ?_, ha₁.few⟩
    · split at hm
      · rename_i hq
        obtain ⟨k, hk⟩ := ha₁.alive q m hm
        refine ⟨k, ?_⟩
        change update h₁.mask m₀ none m = some k
        rw [update_of_ne (hne q ((hT q).1 hq).2 m hm), hk]
      · cases hm
    · split at hm
      · exact ha₁.known q m hm
      · cases hm
  have hcT : c ∈ t.all.filter (· ≠ a) := (hT c).2 ⟨mem_all.2 (.inr hcin), hac.symm⟩
  -- a mask goes right only where the right node stays
  have hright : ∀ m ∈ L c, ∀ k, update h₁.mask m₀ none m = some k →
      word mem (.at x.addr) (h₁.node k.node).offset &&& (h₁.node k.node).lastmask ≠ 0 →
        r ∈ t.all.filter (· ≠ a) := by
    intro m hm k hk htest
    refine (hT r).2 ⟨hleft.right_mem, fun e => ?_⟩
    obtain ⟨hcb, hr⟩ := hleft.right_leaf e
    refine hsent hcb hr m hm ⟨k, .at x.addr, ?_, ?_, ?_⟩
    · rw [update_of_ne (hne c hac.symm m hm), hun.mask] at hk
      exact hk
    · rw [ha]
      exact (hb.entry x hx).addrkey
    · obtain ⟨z, -, -, hzm, hzr⟩ := hv.mask_node hb hun hm
      rw [update_of_ne (hne c hac.symm m hm), hun.mask, hzm] at hk
      cases hk
      have e1 : (h₁.node (.nodes z.entry 0)).offset = (h.node (.nodes z.entry 0)).offset := rest_field Node.offset hzr
      have e2 : (h₁.node (.nodes z.entry 0)).lastmask = (h.node (.nodes z.entry 0)).lastmask := rest_field Node.lastmask hzr
      rw [← e1, ← e2]
      exact htest
  obtain ⟨M, L', hsend, ha', hsub⟩ := sendMasks_lists hcT
    (fun hl => (hT l).2 ⟨hleft.left_mem, hl⟩) hleft.left_ne hleft.right_ne ha₂ hleft.left hleft.right hakey hright
    (if_pos hcT) (ha₁.length_le c)
  refine ⟨M, _, ?_, ha'.lists.restrict fun q hq => (hT q).2 (hv.all_sub hb hx ha hbe hq), fun q m hm => ?_⟩
  · unfold Radix.deleteMasks
    rw [hdrop]
    simp only [bind_eq_bind, bind_some, hamask]
    exact hsend
  · split at hm
    · obtain ⟨q', hq'⟩ := hsub q m hm
      split at hq'
      · rename_i hqT
        obtain ⟨y, hy, hym⟩ := hb.listed q' m hq'
        refine ⟨y, hy, ?_, hym⟩
        rintro rfl
        rw [← ha, hm₀] at hym
        exact hne q' ((hT q').1 hqT).2 m hq' (Option.some.inj hym).symm
      · cases hq'
    · cases hm

end Gone

theorem Stored.has_iff : x.has mem addr mask = true ↔
    sameKey (mem x.addr) (mem addr) = true ∧ maskBits mem x.mask = maskBits mem mask := by
  unfold Stored.has
  rw [decide_eq_true_eq]

/-- Only the entry an address leads to can have it. -/
theorem Base.has_entry (hb : Base mem w h t L S) {y : Stored} (hx : x ∈ S) (hy : y ∈ S)
    (hfind : t.find (bitsOf (mem addr).word) = .nodes x.entry 0) (hhas : y.has mem addr mask = true) : y = x := by
  have := hb.find_same hy (Stored.has_iff.1 hhas).1
  rw [hfind, Ptr.nodes.injEq] at this
  exact hb.entry_inj hy hx this.1.symm

/-- No entry has an address that leads to a node of the head. -/
theorem Base.has_root (hb : Base mem w h t L S) {i : Fin 3} (hfind : t.find (bitsOf (mem addr).word) = .root i)
    (hx : x ∈ S) : x.has mem addr mask = false := by
  by_contra hc
  rw [Bool.not_eq_false] at hc
  have := hb.find_same hx (Stored.has_iff.1 hc).1
  rw [hfind] at this
  cases this

/-- **`ipf_rx_delete`.** -/
theorem Base.delete (hb : Base mem w h t L S) (hk : Op.Keeps mem w h (.delete addr mask)) :
    ∃ h' r t' L', ipfRxDelete mem h addr mask = some (h', r) ∧
      Base mem w h' t' L' (S.filter fun x => x.has mem addr mask = false) := by
  have hfind := hb.find (mem addr).word
  have hkeep := hk.2 _ hfind
  -- nothing has the address and the mask
  have hnone : (∀ x ∈ S, x.has mem addr mask = false) → ipfRxDelete mem h addr mask = some (h, none) →
      ∃ h' r t' L', ipfRxDelete mem h addr mask = some (h', r) ∧
        Base mem w h' t' L' (S.filter fun x => x.has mem addr mask = false) := by
    intro hno hdel
    refine ⟨h, none, t, L, hdel, ?_⟩
    rw [filter_eq_self.2 fun x hx => by simpa using hno x hx]
    exact hb
  have hsent : (h.node (t.find (bitsOf (mem addr).word))).root = true → ipfRxDelete mem h addr mask = some (h, none) := by
    intro hr
    unfold ipfRxDelete
    rw [hfind]
    simp [hr]
  rcases (hb.leaves _).1 (find_mem (bitsOf (mem addr).word) t) with hl | hl | ⟨x, hx, hl⟩
  · exact hnone (fun x hx => hb.has_root hl hx) (hsent (by rw [hl]; exact hb.root 0))
  · exact hnone (fun x hx => hb.has_root hl hx) (hsent (by rw [hl]; exact hb.root 2))
  have he := hb.entry x hx
  obtain ⟨i, hi⟩ := hb.own x hx
  obtain ⟨c, g, s, t', h₁, hv, hun, hshape, hunl, l, r, up, hleft⟩ := hb.shape.unlink (a := .nodes x.entry 0)
    (b := .nodes x.entry 1) (hb.leaf_mem hx) (by rw [hb.key_entry hx]; exact hi) (by simp)
  have hroot := hb.node x.entry 0
  rw [hl] at hfind hkeep
  by_cases hbits : maskBits mem x.mask = maskBits mem mask
  swap
  · -- the address is there with another mask
    refine hnone (fun y hy => ?_) ?_
    · by_contra hc
      rw [Bool.not_eq_false] at hc
      obtain rfl := hb.has_entry hx hy hl hc
      exact hbits (Stored.has_iff.1 hc).2
    · unfold ipfRxDelete
      rw [hfind]
      have hne : (countMaskBits (mem mask).word (mem mask).len 1).1 ≠ maskBits mem x.mask := fun e => hbits e.symm
      simp [hroot, hv.parent, he.dupkey, he.bits, hne]
  obtain ⟨⟨a, hkey, hsame⟩, ⟨m₀, j, hm₀, hat⟩, hright⟩ := hkeep hroot (he.bits.trans hbits)
  obtain rfl : x.addr = a := by
    rw [he.addrkey] at hkey
    cases hkey
    rfl
  -- the entry is found, and its mask is on its own list
  have hall : Ptr.nodes x.entry 0 ∈ t.all := mem_all.2 (.inl (hb.leaf_mem hx))
  have hcall : c ∈ t.all := mem_all.2 (.inr hv.spliced.node_mem)
  have hown : m₀ ∈ L (.nodes x.entry 0) := by
    rw [maskAt_eq hb.lists hall] at hat
    exact mem_of_getElem? hat
  have hsentr : c = .nodes x.entry 1 → (h.node c).right = some (.nodes x.entry 0) →
      ∀ m ∈ L c, ¬sentRight mem h (.nodes x.entry 0) m := by
    intro hc hr m hm
    obtain ⟨k, hk⟩ := mem_iff_getElem?.1 hm
    rw [← maskAt_eq hb.lists hcall] at hk
    exact hright c k m hv.parent (by rw [hc]; rfl) hr hk
  -- the nodes are unlinked, and the masks go
  obtain ⟨M, L', hdel, hlists, hlisted⟩ := hv.deleteMasks hb hx rfl rfl hunl hleft hm₀ hown hsentr
  have hS : ∀ y, y ∈ S.filter (fun y => y.has mem addr mask = false) ↔ y ∈ S ∧ y ≠ x := by
    intro y
    rw [mem_filter, decide_eq_true_eq]
    refine and_congr_right fun hy => ⟨?_, fun hne => ?_⟩
    · rintro hf rfl
      rw [Stored.has_iff.2 ⟨hsame, hbits⟩] at hf
      cases hf
    · by_contra hc
      exact hne (hb.has_entry hx hy hl (Bool.not_eq_false _ ▸ hc))
  have hstored : h.stored.filter (fun e => (Ptr.nodes x.entry 0).entry ≠ some e) =
      (S.filter fun y => y.has mem addr mask = false).map Stored.entry := by
    rw [hb.stored, filter_map]
    congr 1
    refine filter_congr fun y hy => ?_
    have hiff := hS y
    rw [mem_filter] at hiff
    have hent : ¬x.entry = y.entry ↔ y ≠ x := not_congr ⟨fun e => (hb.entry_inj hx hy e).symm, fun e => by rw [e]⟩
    simp only [Function.comp_apply, Ptr.entry, ne_eq, Option.some.injEq, decide_not]
    rw [Bool.eq_iff_iff]
    simp only [Bool.not_eq_eq_eq_not, Bool.not_true, decide_eq_false_iff_not, decide_eq_true_eq, hent]
    simp only [hy, true_and, decide_eq_true_eq] at hiff
    exact hiff.symm
  generalize hh₂ : ({ h₁ with mask := update h₁.mask m₀ none, masks := M } : Head) = h₂ at hdel
  refine ⟨h₂.forget (.nodes x.entry 0), some (.nodes x.entry 0), _, L', ?_, hv.base hb hx rfl rfl hshape hunl hleft
    (by rw [← hh₂]; rfl) ?_ ?_ ?_ hS (by rw [← hh₂]; exact hlists) hlisted⟩
  · unfold ipfRxDelete
    rw [hfind]
    have hcount : (countMaskBits (mem mask).word (mem mask).len 1).1 = maskBits mem x.mask := hbits.symm
    simp only [bind_eq_bind, bind_some, hroot, Bool.false_eq_true, if_false, hv.parent, he.dupkey, ne_eq,
      not_true_eq_false, hcount, he.bits, Ptr.succ]
    split at hun
    · rename_i hcb
      rw [if_pos hcb, hun]
      simp only [bind_some]
      rw [hdel]
      rfl
    · rename_i hcb
      rw [if_neg hcb, hun]
      simp only [bind_some]
      rw [hdel]
      rfl
  · intro y hy hne m k hym hk
    rw [← hh₂]
    change update h₁.mask m₀ none m = some k
    have hmm : m ≠ m₀ := by
      rintro rfl
      exact hne (hb.mymask_inj hy hx hym hm₀)
    rw [update_of_ne hmm, hunl.mask, hk]
  · rw [← hh₂]
    change h₁.stored.filter _ = _
    rw [hunl.stored, hstored]
  · exact hb.nodup.sublist ((filter_sublist).map _)

/-! ## The start -/

theorem zeros_bit (mem : ℕ → Adf) {d : ℕ} (hd : d < 160) : bitsOf (word mem .zeros) d = false := by
  unfold bitsOf word
  dsimp only
  rw [if_neg (by omega)]
  exact BitVec.getMsbD_zero

theorem ones_bit (mem : ℕ → Adf) {d : ℕ} (hd : d < 160) : bitsOf (word mem .ones) d = true := by
  unfold bitsOf word
  dsimp only
  rw [if_pos (by omega), BitVec.getMsbD_allOnes, decide_eq_true_eq]
  omega

/-- The three nodes of `ipf_rx_inithead`. -/
def initTree : Trie Ptr := .node (.root 1) 32 (.leaf (.root 0)) (.leaf (.root 2))

theorem init_shape : Shape mem ipfRxInithead initTree where
  linked := by
    refine ⟨rfl, rfl, rfl, rfl, ⟨rfl, rfl⟩, rfl, rfl⟩
  nodup := by decide
  top := ⟨_, _, rfl⟩
  sound := by
    refine ⟨le_refl 32, fun a _ b _ d h1 h2 => ?_, fun a ha => ?_, fun a ha => ?_, trivial, trivial⟩
    · omega
    · obtain rfl : a = .root 0 := by simpa [Trie.leaves] using ha
      exact zeros_bit mem (by omega)
    · obtain rfl : a = .root 2 := by simpa [Trie.leaves] using ha
      exact ones_bit mem (by omega)
  tests p hp := by
    obtain rfl : p = .root 1 := by simpa [initTree, Trie.inner] using hp
    exact ⟨by decide, by decide, by decide, by decide⟩
  leaf p hp := by
    have hp : p = .root 0 ∨ p = .root 2 := by simpa [initTree, Trie.leaves] using hp
    rcases hp with rfl | rfl
    · exact ⟨by decide, by decide⟩
    · exact ⟨by decide, by decide⟩

theorem init_base (hw : 1 ≤ w) : Base mem w ipfRxInithead initTree (fun _ => []) [] where
  shape := init_shape
  stored := rfl
  nodup := nodup_nil
  leaves p := by simp [initTree, Trie.leaves]
  inner p hp := .inl (by simpa [initTree, Trie.inner] using hp)
  own x hx := by cases hx
  entry x hx := by cases hx
  root i := (by decide : ∀ i, (ipfRxInithead.node (.root i)).root = true) i
  node e i := rfl
  zeros := rfl
  ones := rfl
  first := rfl
  len x hx := by cases hx
  small p hp := by
    obtain rfl : p = .root 1 := by simpa [initTree, Trie.inner] using hp
    change (ADF_OFF_BITS : ℤ) < _
    unfold ADF_OFF_BITS
    omega
  lists := ⟨fun _ => none, fun q => ⟨trivial, ite_self none⟩⟩
  listed p m hm := by cases hm

end Ipfilter.Radix
