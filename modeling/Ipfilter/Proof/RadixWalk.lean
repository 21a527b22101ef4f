import Ipfilter.Proof.RadixBase

/-!
# The structure of the radix tree

* `Base.consistent`: the pointers are consistent.
* `Base.lookup`: `ipf_rx_lookup` finds what is stored, under `Asks`.
* `Base.walk`: `ipf_rx_walktree` ends, with one call for each entry.
* `run_tree` (every run under `Op.Keeps`): **all of these.**
-/

namespace Ipfilter.Radix

open Chain Patricia List
open Option (bind_eq_bind bind_some mem_unique)

variable {mem : ℕ → Adf} {h h' : Head} {t : Trie Ptr} {L : Ptr → List ℕ} {S : List Stored} {p q a b : Ptr}
  {w e addr mask m : ℕ} {x : Stored}

/-! ## Pointers -/

section Base

variable (hb : Base mem w h t L S)

include hb

theorem Base.inTree (hp : p ∈ t.all) : InTree S p := by
  rcases mem_all.1 hp with hp | hp
  · rcases (hb.leaves p).1 hp with rfl | rfl | ⟨x, hx, rfl⟩
    · trivial
    · trivial
    · exact ⟨x, hx, rfl⟩
  · rcases hb.inner p hp with rfl | ⟨x, hx, rfl⟩
    · trivial
    · exact ⟨x, hx, rfl⟩

/-- The nodes of the head and of the entries are all in the tree. -/
theorem Base.mem_tree (hp : InTree S p) : p ∈ t.all := by
  cases p with
  | root i =>
    obtain ⟨l, r, ht⟩ := hb.shape.top
    match i with
    | 0 => exact mem_all.2 (.inl ((hb.leaves _).2 (.inl rfl)))
    | 1 => rw [ht]; exact mem_cons_self
    | 2 => exact mem_all.2 (.inl ((hb.leaves _).2 (.inr (.inl rfl))))
  | nodes e i =>
    obtain ⟨x, hx, rfl⟩ := hp
    match i with
    | 0 => exact mem_all.2 (.inl (hb.leaf_mem hx))
    | 1 => exact mem_all.2 (.inr (hb.inner_mem hx))

theorem Base.index_iff (hp : p ∈ t.all) : 0 ≤ (h.node p).index ↔ p ∈ t.inner := by
  constructor
  · intro hi
    refine (mem_all.1 hp).resolve_left fun hl => ?_
    have := (hb.shape.leaf p hl).1
    omega
  · exact fun hi => (hb.shape.tests p hi).nonneg

theorem Base.consistent : Consistent S h where
  child p hp hi := by
    have hin := (hb.index_iff (hb.mem_tree hp)).1 hi
    obtain ⟨l, r, i, h1, h2, -, h3, h4, h5, h6⟩ := hb.shape.linked.children hin
    refine ⟨l, r, ?_, hb.inTree h3, hb.inTree h4, h1, h2, h5, h6⟩
    rintro rfl
    exact hb.shape.linked.left_ne_right hb.shape.nodup hin (h1.trans h2.symm)
  parent p hp hne := by
    obtain ⟨l, r, ht⟩ := hb.shape.top
    rcases hb.shape.linked.parent_cases (hb.mem_tree hp) with ⟨htop, -⟩ | ⟨q, hq, h1, h2⟩
    · rw [ht] at htop
      exact absurd htop hne
    · exact ⟨q, hb.inTree (mem_all.2 (.inr hq)), (hb.shape.tests q hq).nonneg, h1, h2⟩

/-! ## Looking up -/

/-- **`ipf_rx_lookup` finds the entry with the address and the mask.** -/
theorem Base.lookup (ha : Asks mem w h addr mask) : ∃ r, ipfRxLookup mem h addr mask = some r ∧
      ∀ p, r = some p ↔ ∃ x ∈ S, x.has mem addr mask = true ∧ p = .nodes x.entry 0 := by
  have hfind := hb.find (mem addr).word
  -- what is returned when nothing has the address and the mask
  have hnone : (∀ x ∈ S, x.has mem addr mask = false) → ∀ p, (none : Option Ptr) = some p ↔
      ∃ x ∈ S, x.has mem addr mask = true ∧ p = .nodes x.entry 0 := by
    intro hno p
    constructor
    · rintro ⟨⟩
    · rintro ⟨x, hx, hc, -⟩
      rw [hno x hx] at hc
      cases hc
  have hsent : ∀ i, t.find (bitsOf (mem addr).word) = .root i → ∃ r, ipfRxLookup mem h addr mask = some r ∧
      ∀ p, r = some p ↔ ∃ x ∈ S, x.has mem addr mask = true ∧ p = .nodes x.entry 0 := by
    intro i hi
    refine ⟨none, ?_, hnone fun x hx => hb.has_root hi hx⟩
    unfold ipfRxLookup
    rw [hfind, hi]
    simp [hb.root]
  rcases (hb.leaves _).1 (find_mem (bitsOf (mem addr).word) t) with hl | hl | ⟨x, hx, hl⟩
  · exact hsent 0 hl
  · exact hsent 2 hl
  have he := hb.entry x hx
  have hroot := hb.node x.entry 0
  rw [hl] at hfind
  have hask := ha.2 _ x.addr hfind he.addrkey
  have hword : word mem (.at x.addr) (h.node (.nodes x.entry 0)).offset &&&
      word mem (.at x.mask) (h.node (.nodes x.entry 0)).offset = (mem x.addr).word (h.node (.nodes x.entry 0)).offset :=
    he.masked _ he.offset.1 he.offset.2
  have hlook : ipfRxLookup mem h addr mask =
      if maskBits mem x.mask = maskBits mem mask ∧ (mem x.addr).word (h.node (.nodes x.entry 0)).offset =
        (mem addr).word (h.node (.nodes x.entry 0)).offset then some (some (.nodes x.entry 0)) else some none := by
    unfold ipfRxLookup
    rw [hfind]
    have hcount : (countMaskBits (mem mask).word (mem mask).len 1).1 = maskBits mem mask := rfl
    simp only [bind_eq_bind, bind_some, hroot, Bool.false_eq_true, if_false, he.dupkey, he.bits, he.addrkey,
      he.maskkey, hword, hcount]
    by_cases h1 : maskBits mem x.mask = maskBits mem mask
    · by_cases h2 : (mem x.addr).word (h.node (.nodes x.entry 0)).offset =
        (mem addr).word (h.node (.nodes x.entry 0)).offset
      · simp [h1, h2]
      · simp [h1, h2]
    · simp [h1, Ne.symm h1]
  rw [hlook]
  by_cases hc : maskBits mem x.mask = maskBits mem mask ∧ (mem x.addr).word (h.node (.nodes x.entry 0)).offset =
      (mem addr).word (h.node (.nodes x.entry 0)).offset
  · rw [if_pos hc]
    have hhas : x.has mem addr mask = true := Stored.has_iff.2 ⟨hask (he.bits.trans hc.1) hc.2, hc.1⟩
    refine ⟨_, rfl, fun p => ⟨fun hp => ?_, ?_⟩⟩
    · exact ⟨x, hx, hhas, (Option.some.inj hp).symm⟩
    · rintro ⟨y, hy, hyh, rfl⟩
      rw [hb.has_entry hx hy hl hyh]
  · rw [if_neg hc]
    refine ⟨none, rfl, hnone fun y hy => ?_⟩
    by_contra hyh
    rw [Bool.not_eq_false] at hyh
    obtain rfl := hb.has_entry hx hy hl hyh
    obtain ⟨hsame, hbits⟩ := Stored.has_iff.1 hyh
    exact hc ⟨hbits, (sameKey_iff.1 hsame).2 _ he.offset.1 he.offset.2⟩

end Base

/-! ## Walking -/

theorem walkDown_eq {k : ℕ} : ∀ {p : Ptr} {fuel : ℕ}, ToLeft h.cells k p q → (h.node q).index < 0 → k < fuel →
    walkDown h fuel p = some q := by
  induction k with
  | zero =>
    intro p fuel hto hq hf
    obtain ⟨fuel, rfl⟩ : ∃ f, fuel = f + 1 := ⟨fuel - 1, by omega⟩
    obtain rfl : p = q := hto
    unfold walkDown
    rw [if_neg (by omega)]
  | succ k ih =>
    intro p fuel hto hq hf
    obtain ⟨fuel, rfl⟩ : ∃ f, fuel = f + 1 := ⟨fuel - 1, by omega⟩
    obtain ⟨i, c, hi, hc, hto⟩ := hto
    have hpos : 0 ≤ (h.node p).index := by
      by_contra hneg
      simp [Head.cells, Node.cell, hneg] at hi
    have hleft : (h.node p).left = some c := hc
    unfold walkDown
    rw [if_pos hpos, hleft]
    exact ih hto hq (by omega)

theorem walkUp_eq {l : List Ptr} (hp : (h.node q).parent = some p) (hr : (h.node p).right ≠ some q) :
    ∀ {a : Ptr} {fuel : ℕ}, FromRight h.cells a l q → (∀ n ∈ l, (h.node n).root = false) → l.length < fuel →
      walkUp h fuel a = some q := by
  induction l with
  | nil =>
    intro a fuel hup _ hf
    obtain ⟨fuel, rfl⟩ : ∃ f, fuel = f + 1 := ⟨fuel - 1, by simp at hf; omega⟩
    obtain rfl : a = q := hup
    simp [walkUp, hp, hr]
  | cons n l ih =>
    intro a fuel hup hroot hf
    obtain ⟨fuel, rfl⟩ : ∃ f, fuel = f + 1 := ⟨fuel - 1, by simp at hf; omega⟩
    obtain ⟨rfl, c, hpar, hright, hup⟩ := hup
    replace hpar : (h.node a).parent = some c := hpar
    replace hright : (h.node c).right = some a := hright
    have ha := hroot a mem_cons_self
    simp only [walkUp, hpar, bind_eq_bind, bind_some, hright, ha, and_self, if_true]
    exact ih hup (fun n hn => hroot n (mem_cons_of_mem _ hn)) (by simp at hf; omega)

section Walk

variable (hb : Base mem w h t L S)

include hb

/-- The leaf of zeros is the first one, and that of ones the last. -/
theorem Base.leaves_eq (hw : w ≤ 4) : ∃ mid, t.leaves = .root 0 :: (mid ++ [.root 2]) := by
  have hpath : ∀ (k : Key), ∀ y ∈ t.path (bitsOf k), y.2 < 160 := by
    rintro k ⟨n, i⟩ hn
    have hin := mem_inner_of_path hn
    have hbit := hb.shape.linked.bit_path hn
    have hlt := hb.small n hin
    have ht := hb.shape.tests n hin
    have hnn := ht.nonneg
    have hi : (h.node n).index.toNat = i := mem_unique ht.bit hbit
    dsimp only
    omega
  have h0 : t.find (fun _ => false) = .root 0 := by
    have hfind := hb.shape.sound.find_key ((hb.leaves (.root 0)).2 (.inl rfl))
    have hkey : h.key mem (.root 0) = word mem .zeros := by
      unfold Head.key
      rw [hb.zeros]
      rfl
    rw [hkey] at hfind
    rw [← hfind]
    exact find_congr fun q hq => (zeros_bit mem (hpath _ q hq)).symm
  have h2 : t.find (fun _ => true) = .root 2 := by
    have hfind := hb.shape.sound.find_key ((hb.leaves (.root 2)).2 (.inr (.inl rfl)))
    have hkey : h.key mem (.root 2) = word mem .ones := by
      unfold Head.key
      rw [hb.ones]
      rfl
    rw [hkey] at hfind
    rw [← hfind]
    exact find_congr fun q hq => (ones_bit mem (hpath _ q hq)).symm
  obtain ⟨l, hl⟩ := leaves_first t
  obtain ⟨l', hl'⟩ := leaves_last t
  rw [h0] at hl
  rw [h2] at hl'
  cases l' with
  | nil =>
    rw [hl] at hl'
    simp at hl'
  | cons c l' =>
    rw [hl, cons_append, List.cons.injEq] at hl'
    refine ⟨l', ?_⟩
    rw [hl, hl'.2]

/-- The first leaf is not on the right. -/
theorem Base.first_ne_right {l : List Ptr} (e : t.leaves = a :: l) (hpar : (h.cells a).parent = some q) :
    (h.cells q).right ≠ some a := by
  intro hright
  have ha : a ∈ t.leaves := by
    rw [e]
    exact mem_cons_self
  rcases hb.shape.linked.first_left e with htop | ⟨c, hc, hleft⟩
  · obtain ⟨l, r, ht⟩ := hb.shape.top
    refine leaf_notMem_inner hb.shape.nodup ha ?_
    rw [htop, ht]
    simp [Trie.inner, Trie.top]
  · obtain ⟨u, v, i, h1, -, -, -, -, h2, -⟩ := hb.shape.linked.children hc
    obtain rfl : a = u := mem_unique hleft h1
    obtain rfl : q = c := mem_unique hpar h2
    exact hb.shape.linked.left_ne_right hb.shape.nodup hc (hleft.trans hright.symm)

/-- The top is not on the right. -/
theorem Base.top_ne_right (hpar : (h.cells (.root 1)).parent = some q) : (h.cells q).right ≠ some (.root 1) := by
  obtain ⟨l, r, ht⟩ := hb.shape.top
  have hl := hb.shape.linked
  have hn := hb.shape.nodup
  rw [ht] at hl hn
  obtain ⟨h1, -, -, h4, -, -⟩ := hl
  obtain rfl : q = .root 1 := mem_unique hpar h1
  intro hc
  have htop : r.top = .root 1 := mem_unique h4 hc
  rw [Trie.all, nodup_cons] at hn
  exact hn.1 (mem_append_right _ (htop ▸ top_mem r))

/-- **One step of the walk**: from a leaf to the next one. -/
theorem Base.walk_next {l₁ l₂ : List Ptr} (e : t.leaves = l₁ ++ a :: b :: l₂)
    (ha : (h.node a).root = false ∨ l₁ = []) :
    ∃ node parent right, walkUp h h.fuel a = some node ∧ (h.node node).parent = some parent ∧
      (h.node parent).right = some right ∧ walkDown h h.fuel right = some b := by
  obtain ⟨l, node, parent, right, k, hx⟩ := hb.shape.linked.next e
  have hlen := hb.inner_length
  have hfuel := hb.fuel
  have hul := hx.up_length
  have hdl := hx.down_length
  have hbl : b ∈ t.leaves := by
    rw [e]
    simp
  have hne := hb.shape.linked.left_ne_right hb.shape.nodup hx.mem
  have hr : (h.node parent).right ≠ some node := fun hc => hne (hx.left.trans hc.symm)
  have hroot : ∀ n ∈ l, (h.node n).root = false := by
    intro n hn
    obtain ⟨q, hpar, hright⟩ := hx.up.right hn
    rcases (hx.up_mem n hn).2 with rfl | hin
    · refine ha.resolve_right ?_
      rintro rfl
      exact hb.first_ne_right e hpar hright
    · rcases hb.inner n hin with rfl | ⟨x, -, rfl⟩
      · exact absurd hright (hb.top_ne_right hpar)
      · exact hb.node _ _
  refine ⟨node, parent, right, walkUp_eq hx.parent hr hx.up hroot (by omega), hx.parent, hx.right, ?_⟩
  exact walkDown_eq hx.down (hb.shape.leaf b hbl).1 (by omega)

/-- The calls for one leaf. -/
theorem Base.walk_dup (ha : a ∈ t.leaves) (hne : a ≠ .root 2) :
    walkDup h h.fuel (some a) = some (if (h.node a).root then [] else [a]) := by
  have hdup : (h.node a).dupkey = none := by
    rcases (hb.leaves a).1 ha with rfl | rfl | ⟨x, hx, rfl⟩
    · exact hb.first
    · exact absurd rfl hne
    · exact (hb.entry x hx).dupkey
  rw [hb.fuel]
  simp [walkDup, hdup]

/-- A leaf comes only once. -/
theorem Base.leaf_before {l₁ l₂ : List Ptr} (e : t.leaves = l₁ ++ a :: l₂) (hq : q ∈ l₂) : a ≠ q := by
  rintro rfl
  have hn := (leaves_sublist t).nodup hb.shape.nodup
  rw [e, nodup_append] at hn
  exact (List.nodup_cons.1 hn.2.1).1 hq

/-- **The walk from a leaf on.** -/
theorem Base.walk_from {mid : List Ptr} : ∀ {l₁ : List Ptr} {a : Ptr} {fuel : ℕ},
    t.leaves = l₁ ++ a :: (mid ++ [.root 2]) → ((h.node a).root = false ∨ l₁ = []) →
      (∀ p ∈ mid, (h.node p).root = false) →
      mid.length < fuel → walkLoop h fuel a = some ((if (h.node a).root then [] else [a]) ++ mid) := by
  induction mid with
  | nil =>
    intro l₁ a fuel e ha hmid hf
    obtain ⟨fuel, rfl⟩ : ∃ f, fuel = f + 1 := ⟨fuel - 1, by omega⟩
    obtain ⟨node, parent, right, h1, h2, h3, h4⟩ := hb.walk_next e ha
    have hdup := hb.walk_dup (by rw [e]; simp) (hb.leaf_before e (by simp))
    simp only [walkLoop, bind_eq_bind, h1, h2, h3, h4, hdup, bind_some, hb.root, if_true, append_nil]
    rfl
  | cons b mid ih =>
    intro l₁ a fuel e ha hmid hf
    obtain ⟨fuel, rfl⟩ : ∃ f, fuel = f + 1 := ⟨fuel - 1, by simp at hf; omega⟩
    obtain ⟨node, parent, right, h1, h2, h3, h4⟩ := hb.walk_next e ha
    have hdup := hb.walk_dup (by rw [e]; simp) (hb.leaf_before e (by simp))
    have hbr := hmid b mem_cons_self
    have hrest := ih (show t.leaves = (l₁ ++ [a]) ++ b :: (mid ++ [.root 2]) by rw [e]; simp) (.inl hbr)
      (fun p hp => hmid p (mem_cons_of_mem _ hp)) (show mid.length < fuel by simp at hf; omega)
    simp only [walkLoop, bind_eq_bind, h1, h2, h3, h4, hdup, bind_some, hbr, hrest, Bool.false_eq_true, if_false]
    rfl

/-- **`ipf_rx_walktree` ends, and has one call for each entry.** -/
theorem Base.walk (hw : w ≤ 4) : ∃ l, ipfRxWalktree h = some l ∧ l.Perm (S.map fun x => .nodes x.entry 0) := by
  obtain ⟨mid, e⟩ := hb.leaves_eq hw
  have hn := (leaves_sublist t).nodup hb.shape.nodup
  rw [e, nodup_cons, nodup_append] at hn
  obtain ⟨h0, hmid, -, h2⟩ := hn
  have hmem : ∀ p, p ∈ mid ↔ ∃ x ∈ S, p = .nodes x.entry 0 := by
    intro p
    have hp := hb.leaves p
    rw [e] at hp
    simp only [mem_cons, mem_append, not_mem_nil, or_false] at hp
    constructor
    · intro hpm
      rcases hp.1 (.inr (.inl hpm)) with rfl | rfl | hx
      · exact absurd (mem_append_left _ hpm) h0
      · exact absurd rfl (h2 _ hpm _ mem_cons_self)
      · exact hx
    · rintro ⟨x, hx, rfl⟩
      rcases hp.2 (.inr (.inr ⟨x, hx, rfl⟩)) with hc | hc | hc
      · cases hc
      · exact hc
      · cases hc
  have hlen : mid.length ≤ S.length := by
    have hsub : mid ⊆ S.map fun x => Ptr.nodes x.entry 0 := by
      intro p hp
      obtain ⟨x, hx, rfl⟩ := (hmem p).1 hp
      exact List.mem_map.2 ⟨x, hx, rfl⟩
    have := (subperm_of_subset hmid hsub).length_le
    simpa using this
  have hroot : ∀ p ∈ mid, (h.node p).root = false := by
    intro p hp
    obtain ⟨x, -, rfl⟩ := (hmem p).1 hp
    exact hb.node _ _
  refine ⟨mid, ?_, ?_⟩
  · obtain ⟨k, hk, hto⟩ := hb.shape.linked.first e
    obtain ⟨l, r, ht⟩ := hb.shape.top
    have htop : t.top = .root 1 := by rw [ht]; rfl
    rw [htop] at hto
    have hlt := hb.inner_length
    have hdown := walkDown_eq hto (hb.shape.leaf _ ((hb.leaves _).2 (.inl rfl))).1 (show k < h.fuel by rw [hb.fuel]; omega)
    have hloop := hb.walk_from (show t.leaves = [] ++ .root 0 :: (mid ++ [.root 2]) from e) (.inr rfl) hroot
      (show mid.length < h.fuel by rw [hb.fuel]; omega)
    rw [hb.root, if_pos rfl] at hloop
    unfold ipfRxWalktree
    rw [hdown]
    exact hloop
  · refine (perm_ext_iff_of_nodup hmid ?_).2 fun p => ?_
    · rw [show S.map (fun x => Ptr.nodes x.entry 0) = (S.map Stored.entry).map fun e => Ptr.nodes e 0 by simp]
      refine hb.nodup.map fun a b hab => ?_
      exact (Ptr.nodes.inj hab).1
    · rw [hmem, mem_map]
      exact exists_congr fun x => and_congr_right fun _ => eq_comm

end Walk

/-! ## Runs -/

/-- A call that is kept. -/
theorem Base.step (hb : Base mem w h t L S) {op : Op} (hl : op.Legal mem h S) (hk : op.Keeps mem w h) :
    ∃ h' r t' L', step mem h op = some (h', r) ∧ Base mem w h' t' L' (op.after mem S r) := by
  cases op with
  | add e addr mask m =>
    obtain ⟨d, prev, cur, above, h₂, up, h', L', -, -, -, -, hadd, hb', -⟩ := hb.add hl hk
    exact ⟨h', _, _, L', hadd, hb'⟩
  | delete addr mask =>
    obtain ⟨h', r, t', L', hdel, hb'⟩ := hb.delete hk
    exact ⟨h', r, t', L', hdel, hb'⟩

theorem run_base (hw : 1 ≤ w) (hr : Run mem (Op.Keeps mem w) S h) : ∃ t L, Base mem w h t L S := by
  induction hr with
  | init => exact ⟨_, _, init_base hw⟩
  | step op _ hl hk hs ih =>
    obtain ⟨t, L, hb⟩ := ih
    obtain ⟨h', r, t', L', hs', hb'⟩ := hb.step hl hk
    rw [hs, Option.some.injEq, Prod.mk.injEq] at hs'
    obtain ⟨rfl, rfl⟩ := hs'
    exact ⟨t', L', hb'⟩

/-- What is added is not there yet. -/
theorem Base.absent (hb : Base mem w h t L S) (hk : Op.Keeps mem w h (.add e addr mask m)) (hx : x ∈ S) :
    x.has mem addr mask = false := by
  by_contra hc
  rw [Bool.not_eq_false] at hc
  obtain ⟨hsame, -⟩ := Stored.has_iff.1 hc
  have hfind := hb.find (mem addr).word
  rw [hb.find_same hx hsame] at hfind
  obtain ⟨i, h1, h2, h3⟩ := hk.2.2 _ _ hfind (hb.entry x hx).addrkey
  have hlen := (sameKey_iff.1 hsame).1
  exact h3 ((sameKey_iff.1 hsame).2 i h1 (by rw [hlen, hk.1]; exact h2)).symm

/-- 10.0.0.0/8 at 0 and 1, 192.168.0.0/16 at 2 and 3. -/
def nets : ℕ → Adf
  | 0 => ⟨1, fun i => if i = 1 then 0x0a000000 else 0⟩
  | 1 => ⟨1, fun i => if i = 1 then 0xff000000 else 0⟩
  | 2 => ⟨1, fun i => if i = 1 then 0xc0a80000 else 0⟩
  | _ => ⟨1, fun i => if i = 1 then 0xffff0000 else 0⟩

/-- The head after a call, and what the call returned. -/
def after (h : Head) (op : Op) : Head × Option Ptr := (step nets h op).getD (h, none)

def netsOne : Head := (after ipfRxInithead (.add 0 0 1 0)).1
def netsTwo : Head := (after netsOne (.add 1 2 3 1)).1

theorem step_after (h : Head) (op : Op) (hs : (step nets h op).isSome = true) : step nets h op = some (after h op) := by
  obtain ⟨x, hx⟩ := Option.isSome_iff_exists.1 hs
  unfold after
  rw [hx]
  rfl

/-- 10.0.0.0/8 at 0 and 1, and again at 2 and 3. -/
def tenTwice : ℕ → Adf
  | 0 | 2 => ⟨1, fun i => if i = 1 then 0x0a000000 else 0⟩
  | _ => ⟨1, fun i => if i = 1 then 0xff000000 else 0⟩

theorem tenTwice_contiguous : Contiguous 1 8 (fun i => if i = 1 then 0xff000000 else 0 : Key) := by
  refine ⟨by omega, ?_⟩
  decide

theorem tenTwice_legal : Op.Legal tenTwice ipfRxInithead [] (.add 0 0 1 0) :=
  ⟨⟨by decide, rfl, 8, tenTwice_contiguous⟩, by simp, rfl⟩

theorem tenTwice_keeps : Op.Keeps tenTwice 1 ipfRxInithead (.add 0 0 1 0) := by
  refine ⟨rfl, fun i h1 h2 => ?_, fun p data hp hd => ⟨1, by omega, by omega, ?_⟩⟩
  · obtain rfl : i = 1 := by omega
    decide
  · have hlead : leadsTo tenTwice ipfRxInithead 0 = some (.root 0) := by decide
    obtain rfl : p = .root 0 := mem_unique hp hlead
    obtain rfl : data = .zeros := mem_unique hd rfl
    decide

end Ipfilter.Radix
