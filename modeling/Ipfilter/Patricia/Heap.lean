import Ipfilter.Patricia.Tree

/-!
# Patricia trees in memory

The nodes of a tree as cells with pointers to the two sides and to the node above.

* `Linked`: the cells spell out a tree below a node.
* `Linked.parent_cases`, `Linked.left_parent`: pointers down and up fit together.
* `Linked.ups`: following the pointers up from a leaf, the nodes on the way to it.
* `Linked.insert`, `Linked.splice`, `Linked.map`: the edits of a tree, on cells.
-/

namespace Patricia

open List Option

/-- A node in memory. A leaf tests no bit. -/
structure Cell (A : Type) where
  left : Option A
  right : Option A
  parent : Option A
  bit : Option ℕ

variable {A : Type}

/-- **The cells spell out the tree below `p`.** -/
def Linked (h : A → Cell A) : A → Trie A → Prop
  | p, .leaf a => (h a).parent = some p ∧ (h a).bit = none
  | p, .node a i l r => (h a).parent = some p ∧ (h a).bit = some i ∧ (h a).left = some l.top ∧
    (h a).right = some r.top ∧ Linked h a l ∧ Linked h a r

variable {t t' l r : Trie A} {a b c n p q : A} {i d : ℕ} {x y : ℕ → Bool} {h h' : A → Cell A}

theorem Linked.frame (hl : Linked h p t) (hh : ∀ n ∈ t.all, h' n = h n) : Linked h' p t := by
  induction t generalizing p with
  | leaf c =>
    have := hh c (by simp [Trie.all])
    simpa [Linked, this] using hl
  | node c i l r ihl ihr =>
    obtain ⟨h1, h2, h3, h4, h5, h6⟩ := hl
    have hc := hh c (by simp [Trie.all])
    simp only [Linked, hc]
    exact ⟨h1, h2, h3, h4, ihl h5 fun n hn => hh n (by simp [Trie.all, hn]),
      ihr h6 fun n hn => hh n (by simp [Trie.all, hn])⟩

/-- A tree below another node. -/
theorem Linked.reparent (hl : Linked h p t) (hn : t.all.Nodup) (hh : ∀ n ∈ t.all, n ≠ t.top → h' n = h n)
    (ht : h' t.top = { h t.top with parent := some q }) : Linked h' q t := by
  cases t with
  | leaf c =>
    obtain ⟨-, h2⟩ := hl
    simp only [Trie.top] at ht
    simp [Linked, ht, h2]
  | node c i l r =>
    obtain ⟨-, h2, h3, h4, h5, h6⟩ := hl
    simp only [Trie.top] at ht hh
    simp only [Trie.all, nodup_cons, mem_append, not_or] at hn
    obtain ⟨⟨hcl, hcr⟩, -⟩ := hn
    simp only [Linked, ht]
    refine ⟨trivial, h2, h3, h4, h5.frame fun n hn => ?_, h6.frame fun n hn => ?_⟩
    · exact hh n (by simp [Trie.all, hn]) (fun hc => hcl (hc ▸ hn))
    · exact hh n (by simp [Trie.all, hn]) (fun hc => hcr (hc ▸ hn))

theorem Linked.top_parent (hl : Linked h p t) : (h t.top).parent = some p := by
  cases t with
  | leaf c => exact hl.1
  | node c i l r => exact hl.1

theorem Linked.bit_leaf (hl : Linked h p t) (ha : a ∈ t.leaves) : (h a).bit = none := by
  induction t generalizing p with
  | leaf c =>
    obtain rfl : a = c := by simpa [Trie.leaves] using ha
    exact hl.2
  | node c i l r ihl ihr =>
    obtain ⟨-, -, -, -, h5, h6⟩ := hl
    rcases mem_append.1 ha with ha | ha
    · exact ihl h5 ha
    · exact ihr h6 ha

/-- What an inner node points to points back. -/
theorem Linked.children (hl : Linked h p t) (hn : n ∈ t.inner) :
    ∃ u v i, (h n).left = some u ∧ (h n).right = some v ∧ (h n).bit = some i ∧ u ∈ t.all ∧ v ∈ t.all ∧
      (h u).parent = some n ∧ (h v).parent = some n := by
  induction t generalizing p with
  | leaf c => simp [Trie.inner] at hn
  | node c i l r ihl ihr =>
    obtain ⟨-, h2, h3, h4, h5, h6⟩ := hl
    simp only [Trie.inner, mem_cons, mem_append] at hn
    have hleft : ∀ u, u ∈ l.all → u ∈ (Trie.node c i l r).all := fun u hu => by simp [Trie.all, hu]
    have hright : ∀ u, u ∈ r.all → u ∈ (Trie.node c i l r).all := fun u hu => by simp [Trie.all, hu]
    rcases hn with rfl | hn | hn
    · exact ⟨l.top, r.top, i, h3, h4, h2, hleft _ (top_mem l), hright _ (top_mem r), h5.top_parent, h6.top_parent⟩
    · obtain ⟨u, v, j, e1, e2, e3, hu, hv, e4⟩ := ihl h5 hn
      exact ⟨u, v, j, e1, e2, e3, hleft u hu, hleft v hv, e4⟩
    · obtain ⟨u, v, j, e1, e2, e3, hu, hv, e4⟩ := ihr h6 hn
      exact ⟨u, v, j, e1, e2, e3, hright u hu, hright v hv, e4⟩

/-- What a node has above it points to it. -/
theorem Linked.parent_cases (hl : Linked h p t) (hn : n ∈ t.all) : (n = t.top ∧ (h n).parent = some p) ∨
      ∃ m ∈ t.inner, (h n).parent = some m ∧ ((h m).left = some n ∨ (h m).right = some n) := by
  induction t generalizing p with
  | leaf c =>
    obtain rfl : n = c := by simpa [Trie.all] using hn
    exact .inl ⟨rfl, hl.1⟩
  | node c i l r ihl ihr =>
    obtain ⟨h1, -, h3, h4, h5, h6⟩ := hl
    have hc : c ∈ (Trie.node c i l r).inner := by simp [Trie.inner]
    simp only [Trie.all, mem_cons, mem_append] at hn
    rcases hn with rfl | hn | hn
    · exact .inl ⟨rfl, h1⟩
    · rcases ihl h5 hn with ⟨rfl, e⟩ | ⟨m, hm, e⟩
      · exact .inr ⟨c, hc, e, .inl h3⟩
      · exact .inr ⟨m, by simp [Trie.inner, hm], e⟩
    · rcases ihr h6 hn with ⟨rfl, e⟩ | ⟨m, hm, e⟩
      · exact .inr ⟨c, hc, e, .inr h4⟩
      · exact .inr ⟨m, by simp [Trie.inner, hm], e⟩

/-- The two sides of a node are not the same. -/
theorem Linked.left_ne_right (hl : Linked h p t) (hd : t.all.Nodup) (hn : n ∈ t.inner) : (h n).left ≠ (h n).right := by
  induction t generalizing p with
  | leaf c => simp [Trie.inner] at hn
  | node c i l r ihl ihr =>
    obtain ⟨-, -, h3, h4, h5, h6⟩ := hl
    simp only [Trie.all, nodup_cons, nodup_append] at hd
    simp only [Trie.inner, mem_cons, mem_append] at hn
    rcases hn with rfl | hn | hn
    · rw [h3, h4]
      intro e
      exact hd.2.2.2 _ (top_mem l) _ (top_mem r) (some.inj e)
    · exact ihl h5 hd.2.1 hn
    · exact ihr h6 hd.2.2.1 hn

variable {key : A → ℕ → Bool} {lo : ℕ}

/-- Inner nodes have bits from `lo` on. -/
theorem Linked.bit_le (hl : Linked h p t) (hs : Sound key lo t) (hn : n ∈ t.inner) (hi : (h n).bit = some i) : lo ≤ i := by
  induction t generalizing p lo with
  | leaf c => simp [Trie.inner] at hn
  | node c j l r ihl ihr =>
    obtain ⟨-, h2, -, -, h5, h6⟩ := hl
    obtain ⟨hlo, -, -, -, hsl, hsr⟩ := hs
    simp only [Trie.inner, mem_cons, mem_append] at hn
    rcases hn with rfl | hn | hn
    · obtain rfl : j = i := mem_unique h2 hi
      exact hlo
    · have := ihl h5 hsl hn
      omega
    · have := ihr h6 hsr hn
      omega

/-- Nodes on the way to a key have the bits they are listed with. -/
theorem Linked.bit_path (hl : Linked h p t) (hm : (n, i) ∈ t.path x) : (h n).bit = some i := by
  induction t generalizing p with
  | leaf c => simp [Trie.path] at hm
  | node c j l r ihl ihr =>
    obtain ⟨-, h2, -, -, h5, h6⟩ := hl
    simp only [Trie.path, mem_cons, Prod.mk.injEq] at hm
    rcases hm with ⟨rfl, rfl⟩ | hm
    · exact h2
    · split at hm
      · exact ihr h6 hm
      · exact ihl h5 hm

/-- The node above a node tests an earlier bit. -/
theorem Linked.parent_lt (hl : Linked h p t) (hs : Sound key lo t) (hn : n ∈ t.all) (hne : n ≠ t.top) :
    ∃ m j, (h n).parent = some m ∧ m ∈ t.inner ∧ (h m).bit = some j ∧ ∀ i, (h n).bit = some i → j < i := by
  induction t generalizing p lo with
  | leaf c =>
    obtain rfl : n = c := by simpa [Trie.all] using hn
    exact absurd rfl hne
  | node c j l r ihl ihr =>
    obtain ⟨-, h2, -, -, h5, h6⟩ := hl
    obtain ⟨-, -, -, -, hsl, hsr⟩ := hs
    have hc : c ∈ (Trie.node c j l r).inner := by simp [Trie.inner]
    -- a side of `c`: its root, or further down
    have hside : ∀ s : Trie A, Linked h c s → Sound key (j + 1) s → n ∈ s.all →
        (∀ m ∈ s.inner, m ∈ (Trie.node c j l r).inner) →
        (n ≠ s.top → ∃ m j, (h n).parent = some m ∧ m ∈ s.inner ∧ (h m).bit = some j ∧
          ∀ i, (h n).bit = some i → j < i) →
        ∃ m j', (h n).parent = some m ∧ m ∈ (Trie.node c j l r).inner ∧ (h m).bit = some j' ∧
          ∀ i, (h n).bit = some i → j' < i := by
      intro s hls hss hm hin ih
      by_cases ht : n = s.top
      · refine ⟨c, j, ht ▸ hls.top_parent, hc, h2, fun i hi => ?_⟩
        rcases mem_all.1 hm with hm | hm
        · rw [hls.bit_leaf hm] at hi
          cases hi
        · exact hls.bit_le hss hm hi
      · obtain ⟨m, j', e1, e2, e3⟩ := ih ht
        exact ⟨m, j', e1, hin m e2, e3⟩
    simp only [Trie.all, mem_cons, mem_append] at hn
    rcases hn with rfl | hn | hn
    · exact absurd rfl hne
    · exact hside l h5 hsl hn (fun m hm => by simp [Trie.inner, hm]) (ihl h5 hsl hn)
    · exact hside r h6 hsr hn (fun m hm => by simp [Trie.inner, hm]) (ihr h6 hsr hn)

/-! ## Going up -/

/-- The pointers up from `n` go through `l` and end at `q`. -/
def Ups (h : A → Cell A) : A → List A → A → Prop
  | n, [], q => (h n).parent = some q
  | n, m :: l, q => (h n).parent = some m ∧ Ups h m l q

theorem ups_concat {l : List A} : Ups h n (l ++ [a]) q ↔ Ups h n l a ∧ (h a).parent = some q := by
  induction l generalizing n with
  | nil => rfl
  | cons m l ih => simp only [cons_append, Ups, ih, and_assoc]

/-- **Up from the leaf a key leads to are the nodes on the way.** -/
theorem Linked.ups (hl : Linked h p t) : Ups h (t.find x) ((t.path x).map (·.1)).reverse p := by
  induction t generalizing p with
  | leaf c => exact hl.1
  | node c i l r ihl ihr =>
    obtain ⟨h1, -, -, -, h5, h6⟩ := hl
    simp only [Trie.find, Trie.path, map_cons, reverse_cons]
    refine ups_concat.2 ⟨?_, h1⟩
    split
    · exact ihr h6
    · exact ihl h5

/-- Up from an inner node are inner nodes. -/
theorem Linked.climb (hl : Linked h p t) (hn : n ∈ t.inner) :
    ∃ l, Ups h n l p ∧ l.length < t.inner.length ∧ ∀ m ∈ l, m ∈ t.inner := by
  induction t generalizing p with
  | leaf c => simp [Trie.inner] at hn
  | node c i l r ihl ihr =>
    obtain ⟨h1, -, -, -, h5, h6⟩ := hl
    simp only [Trie.inner, length_cons, length_append, mem_cons, mem_append] at hn ⊢
    rcases hn with rfl | hn | hn
    · exact ⟨[], h1, by simp, by simp⟩
    · obtain ⟨l', hu, hlen, hin⟩ := ihl h5 hn
      refine ⟨l' ++ [c], ups_concat.2 ⟨hu, h1⟩, by rw [length_append, length_singleton]; omega, ?_⟩
      intro m hm
      rcases mem_append.1 hm with hm | hm
      · exact .inr (.inl (hin m hm))
      · exact .inl (mem_singleton.1 hm)
    · obtain ⟨l', hu, hlen, hin⟩ := ihr h6 hn
      refine ⟨l' ++ [c], ups_concat.2 ⟨hu, h1⟩, by rw [length_append, length_singleton]; omega, ?_⟩
      intro m hm
      rcases mem_append.1 hm with hm | hm
      · exact .inr (.inr (hin m hm))
      · exact .inl (mem_singleton.1 hm)

/-! ## From leaf to leaf -/

/-- Down to the left from `a`, `k` times, is `b`. -/
def ToLeft (h : A → Cell A) : ℕ → A → A → Prop
  | 0, a, b => a = b
  | k + 1, a, b => ∃ i c, (h a).bit = some i ∧ (h a).left = some c ∧ ToLeft h k c b

/-- Up from `a` is `m`, always from the right; `l` are the nodes that are left behind. -/
def FromRight (h : A → Cell A) : A → List A → A → Prop
  | a, [], m => a = m
  | a, n :: l, m => a = n ∧ ∃ q, (h a).parent = some q ∧ (h q).right = some a ∧ FromRight h q l m

theorem fromRight_concat {l : List A} {m : A} (hl : FromRight h a l m) (hp : (h m).parent = some q)
    (hr : (h q).right = some m) : FromRight h a (l ++ [m]) q := by
  induction l generalizing a with
  | nil =>
    obtain rfl : a = m := hl
    exact ⟨rfl, q, hp, hr, rfl⟩
  | cons n l ih =>
    obtain ⟨rfl, q', h1, h2, h3⟩ := hl
    exact ⟨rfl, q', h1, h2, ih h3⟩

/-- What is left behind is on the right. -/
theorem FromRight.right {l : List A} {m : A} (hl : FromRight h a l m) (hn : n ∈ l) :
    ∃ q, (h n).parent = some q ∧ (h q).right = some n := by
  induction l generalizing a with
  | nil => cases hn
  | cons c l ih =>
    obtain ⟨rfl, q, h1, h2, h3⟩ := hl
    rcases mem_cons.1 hn with rfl | hn
    · exact ⟨q, h1, h2⟩
    · exact ih h3 hn

theorem leaves_ne_nil (t : Trie A) : t.leaves ≠ [] := by
  cases t with
  | leaf c => simp [Trie.leaves]
  | node c i l r =>
    have := find_mem (fun _ => false) (Trie.node c i l r)
    intro e
    rw [e] at this
    cases this

/-- Down to the left is the first leaf. -/
theorem Linked.first (hl : Linked h p t) {l' : List A} (e : t.leaves = a :: l') :
    ∃ k ≤ t.inner.length, ToLeft h k t.top a := by
  induction t generalizing p l' with
  | leaf c =>
    obtain ⟨rfl, -⟩ : c = a ∧ [] = l' := by simpa [Trie.leaves] using e
    exact ⟨0, Nat.zero_le _, rfl⟩
  | node c i l r ihl ihr =>
    obtain ⟨-, h2, h3, -, h5, -⟩ := hl
    obtain ⟨b, l'', hb⟩ := exists_cons_of_ne_nil (leaves_ne_nil l)
    rw [Trie.leaves, hb, cons_append, cons.injEq] at e
    obtain ⟨rfl, -⟩ := e
    obtain ⟨k, hk, hto⟩ := ihl h5 hb
    refine ⟨k + 1, ?_, i, l.top, h2, h3, hto⟩
    simp only [Trie.inner, length_cons, length_append]
    omega

/-- The first leaf is on the left. -/
theorem Linked.first_left (hl : Linked h p t) {l' : List A} (e : t.leaves = a :: l') :
    a = t.top ∨ ∃ q ∈ t.inner, (h q).left = some a := by
  induction t generalizing p l' with
  | leaf c => exact .inl (by simpa [Trie.leaves, Trie.top, eq_comm] using congrArg head? e)
  | node c i l r ihl ihr =>
    obtain ⟨-, -, h3, -, h5, -⟩ := hl
    obtain ⟨b, l'', hb⟩ := exists_cons_of_ne_nil (leaves_ne_nil l)
    rw [Trie.leaves, hb, cons_append, cons.injEq] at e
    obtain ⟨rfl, -⟩ := e
    rcases ihl h5 hb with rfl | ⟨q, hq, hql⟩
    · exact .inr ⟨c, by simp [Trie.inner], h3⟩
    · exact .inr ⟨q, by simp [Trie.inner, hq], hql⟩

/-- Up from the last leaf one comes from the right. -/
theorem Linked.last (hl : Linked h p t) {l' : List A} (e : t.leaves = l' ++ [a]) :
    ∃ l, FromRight h a l t.top ∧ l.length ≤ t.inner.length ∧ ∀ n ∈ l, n ∈ t.all ∧
      (n = a ∨ n ∈ t.inner) := by
  induction t generalizing p l' with
  | leaf c =>
    obtain ⟨-, rfl⟩ : l' = [] ∧ a = c := by
      have := append_inj' (show [] ++ [c] = l' ++ [a] from e) rfl
      simpa [eq_comm] using this
    exact ⟨[], rfl, Nat.zero_le _, by simp⟩
  | node c i l r ihl ihr =>
    obtain ⟨-, -, -, h4, -, h6⟩ := hl
    obtain ⟨l'', b, hb⟩ := eq_nil_or_concat r.leaves |>.resolve_left (leaves_ne_nil r)
    rw [concat_eq_append] at hb
    rw [Trie.leaves, hb, ← append_assoc] at e
    obtain ⟨-, e'⟩ := append_inj' e rfl
    obtain rfl : b = a := by simpa using e'
    obtain ⟨up, hup, hlen, hin⟩ := ihr h6 hb
    refine ⟨up ++ [r.top], fromRight_concat hup h6.top_parent h4, ?_, fun n hn => ?_⟩
    · simp only [Trie.inner, length_cons, length_append, length_nil]
      omega
    · simp only [Trie.all, Trie.inner, mem_cons, mem_append]
      rcases mem_append.1 hn with hn | hn
      · obtain ⟨g1, g2⟩ := hin n hn
        exact ⟨.inr (.inr g1), g2.imp_right fun g => .inr (.inr g)⟩
      · obtain rfl := mem_singleton.1 hn
        refine ⟨.inr (.inr (top_mem r)), ?_⟩
        cases r with
        | leaf d =>
          simp only [Trie.leaves] at hb
          have := append_inj' (show [] ++ [d] = l'' ++ [b] from hb) rfl
          exact .inl (by simpa [Trie.top] using this.2)
        | node d j l r => exact .inr (.inr (.inr (by simp [Trie.inner, Trie.top])))

/-- The way from a leaf to the next one. -/
structure Next (h : A → Cell A) (t : Trie A) (a b : A) (l : List A) (m q c : A) (k : ℕ) : Prop where
  up : FromRight h a l m
  up_length : l.length ≤ t.inner.length
  up_mem : ∀ n ∈ l, n ∈ t.all ∧ (n = a ∨ n ∈ t.inner)
  parent : (h m).parent = some q
  left : (h q).left = some m
  right : (h q).right = some c
  mem : q ∈ t.inner
  down : ToLeft h k c b
  down_length : k ≤ t.inner.length

/-- A way on one side. -/
theorem Next.mono {l : List A} {m : A} {k : ℕ} (hx : Next h t a b l m q c k) (hlen : t.inner.length ≤ t'.inner.length)
    (hall : ∀ n ∈ t.all, n ∈ t'.all) (hin : ∀ n ∈ t.inner, n ∈ t'.inner) : Next h t' a b l m q c k where
  up := hx.up
  up_length := hx.up_length.trans hlen
  up_mem n hn := ⟨hall n (hx.up_mem n hn).1, (hx.up_mem n hn).2.imp_right (hin n)⟩
  parent := hx.parent
  left := hx.left
  right := hx.right
  mem := hin q hx.mem
  down := hx.down
  down_length := hx.down_length.trans hlen

/-- **The next leaf**: up as long as one comes from the right, over to the right, and down to the left. -/
theorem Linked.next (hl : Linked h p t) {l₁ l₂ : List A} (e : t.leaves = l₁ ++ a :: b :: l₂) :
    ∃ l m q c k, Next h t a b l m q c k := by
  induction t generalizing p l₁ l₂ with
  | leaf c =>
    have := congrArg length e
    simp [Trie.leaves] at this
    omega
  | node c i l r ihl ihr =>
    obtain ⟨-, -, h3, h4, h5, h6⟩ := hl
    have hleft : ∀ {n}, n ∈ l.all → n ∈ (Trie.node c i l r).all := fun hn => by simp [Trie.all, hn]
    have hright : ∀ {n}, n ∈ r.all → n ∈ (Trie.node c i l r).all := fun hn => by simp [Trie.all, hn]
    have hleft' : ∀ {n}, n ∈ l.inner → n ∈ (Trie.node c i l r).inner := fun hn => by simp [Trie.inner, hn]
    have hright' : ∀ {n}, n ∈ r.inner → n ∈ (Trie.node c i l r).inner := fun hn => by simp [Trie.inner, hn]
    have hlen : (Trie.node c i l r).inner.length = l.inner.length + r.inner.length + 1 := by simp [Trie.inner]
    rw [Trie.leaves] at e
    rcases append_eq_append_iff.1 e with ⟨w, e1, e2⟩ | ⟨w, e1, e2⟩
    · -- both are on the right
      obtain ⟨up, m, q, d, k, hx⟩ := ihr h6 e2
      exact ⟨up, m, q, d, k, hx.mono (by omega) (fun n => hright) fun n => hright'⟩
    · cases w with
      | nil =>
        obtain ⟨up, m, q, d, k, hx⟩ := ihr h6 (show r.leaves = [] ++ a :: b :: l₂ by simpa using e2.symm)
        exact ⟨up, m, q, d, k, hx.mono (by omega) (fun n => hright) fun n => hright'⟩
      | cons a' w =>
        rw [cons_append, cons.injEq] at e2
        obtain ⟨rfl, e2⟩ := e2
        cases w with
        | nil =>
          -- the last one on the left and the first one on the right
          obtain ⟨up, hup, hul, hum⟩ := h5.last e1
          obtain ⟨k, hk, hdown⟩ := h6.first (by simpa using e2.symm)
          exact ⟨up, l.top, c, r.top, k, hup, by omega,
            fun n hn => ⟨hleft (hum n hn).1, (hum n hn).2.imp_right hleft'⟩, h5.top_parent, h3, h4,
            by simp [Trie.inner], hdown, by omega⟩
        | cons b' w =>
          rw [cons_append, cons.injEq] at e2
          obtain ⟨rfl, -⟩ := e2
          obtain ⟨up, m, q, d, k, hx⟩ := ihl h5 e1
          exact ⟨up, m, q, d, k, hx.mono (by omega) (fun n => hleft) fun n => hleft'⟩

/-! ## New labels -/

theorem Linked.map {ρ : A → A} (hl : Linked h p t)
    (hh : ∀ n ∈ t.all, (h' (ρ n)).parent = (h n).parent.map ρ ∧ (h' (ρ n)).bit = (h n).bit)
    (hi : ∀ n ∈ t.inner, (h' (ρ n)).left = (h n).left.map ρ ∧ (h' (ρ n)).right = (h n).right.map ρ) :
    Linked h' (ρ p) (t.map ρ) := by
  induction t generalizing p with
  | leaf c =>
    obtain ⟨h1, h2⟩ := hl
    obtain ⟨e1, e2⟩ := hh c (by simp [Trie.all])
    exact ⟨by rw [e1, h1]; rfl, by rw [e2, h2]⟩
  | node c i l r ihl ihr =>
    obtain ⟨h1, h2, h3, h4, h5, h6⟩ := hl
    obtain ⟨e1, e2⟩ := hh c (by simp [Trie.all])
    obtain ⟨e3, e4⟩ := hi c (by simp [Trie.inner])
    refine ⟨by rw [e1, h1]; rfl, by rw [e2, h2], by rw [e3, h3, map_top]; rfl, by rw [e4, h4, map_top]; rfl, ?_, ?_⟩
    · exact ihl h5 (fun n hn => hh n (by simp [Trie.all, hn])) fun n hn => hi n (by simp [Trie.inner, hn])
    · exact ihr h6 (fun n hn => hh n (by simp [Trie.all, hn])) fun n hn => hi n (by simp [Trie.inner, hn])

/-! ## A new leaf -/

/-- Where a new leaf goes below `p`: the node it goes below and the tree the new node is put above. -/
def Trie.spot (x : ℕ → Bool) (d : ℕ) : A → Trie A → A × Trie A
  | p, .leaf c => (p, .leaf c)
  | p, .node c i l r => if i < d then (if x i then r.spot x d c else l.spot x d c) else (p, .node c i l r)

/-- It goes on top, or somewhere below. -/
theorem spot_cases (x : ℕ → Bool) (d : ℕ) (a b p : A) (t : Trie A) :
    (t.spot x d p = (p, t) ∧ t.insert x d a b = join x d a b t) ∨
      ((t.spot x d p).1 ∈ t.inner ∧ (t.insert x d a b).top = t.top) := by
  induction t generalizing p with
  | leaf c => exact .inl ⟨rfl, rfl⟩
  | node c i l r ihl ihr =>
    by_cases hi : i < d
    · refine .inr ⟨?_, ?_⟩
      · simp only [Trie.spot, if_pos hi, Trie.inner, mem_cons, mem_append]
        split
        · rcases ihr c with ⟨e, -⟩ | ⟨e, -⟩
          · exact .inl (by rw [e])
          · exact .inr (.inr e)
        · rcases ihl c with ⟨e, -⟩ | ⟨e, -⟩
          · exact .inl (by rw [e])
          · exact .inr (.inl e)
      · simp only [Trie.insert, if_pos hi]
        split <;> rfl
    · exact .inl ⟨by simp [Trie.spot, hi], by simp [Trie.insert, hi]⟩

theorem spot_mem (x : ℕ → Bool) (d : ℕ) (p : A) (t : Trie A) : (t.spot x d p).2.top ∈ t.all := by
  induction t generalizing p with
  | leaf c => simp [Trie.spot, Trie.top, Trie.all]
  | node c i l r ihl ihr =>
    simp only [Trie.spot]
    split
    · split
      · exact mem_cons_of_mem _ (mem_append_right _ (ihr c))
      · exact mem_cons_of_mem _ (mem_append_left _ (ihl c))
    · exact top_mem _

/-- Below a node that tests a bit in front. -/
theorem spot_lt (a b : A) (hi : i < d) (hn : (Trie.node c i l r).all.Nodup) :
    ((Trie.node c i l r).spot x d p).1 ∈ (Trie.node c i l r).inner ∧
      ((Trie.node c i l r).insert x d a b).top = c ∧ (Trie.node c i l r).spot x d p ≠ (p, .node c i l r) := by
  have hne : (Trie.node c i l r).spot x d p ≠ (p, .node c i l r) := by
    intro e
    simp only [Trie.all, nodup_cons, mem_append, not_or] at hn
    simp only [Trie.spot, if_pos hi] at e
    split at e
    · have := spot_mem x d c r
      rw [e] at this
      exact hn.1.2 this
    · have := spot_mem x d c l
      rw [e] at this
      exact hn.1.1 this
  rcases spot_cases x d a b p (.node c i l r) with ⟨h, -⟩ | ⟨h1, h2⟩
  · exact absurd h hne
  · exact ⟨h1, h2, hne⟩

theorem nodup_node : (Trie.node c i l r).all.Nodup ↔
    (c ∉ l.all ∧ c ∉ r.all) ∧ l.all.Nodup ∧ r.all.Nodup ∧ ∀ a ∈ l.all, ∀ b ∈ r.all, a ≠ b := by
  simp only [Trie.all, nodup_cons, nodup_append, mem_append, not_or]

theorem spot_ne (hn : t.all.Nodup) (hp : t.spot x d p = (p, t) → p ∉ t.all) :
    (t.spot x d p).1 ≠ (t.spot x d p).2.top := by
  induction t generalizing p with
  | leaf c =>
    have := hp rfl
    simpa [Trie.spot, Trie.top, Trie.all] using this
  | node c i l r ihl ihr =>
    by_cases hi : i < d
    · rw [nodup_node] at hn
      simp only [Trie.spot, if_pos hi]
      split
      · exact ihr hn.2.2.1 fun _ => hn.1.2
      · exact ihl hn.2.1 fun _ => hn.1.1
    · have hs : (Trie.node c i l r).spot x d p = (p, .node c i l r) := by simp [Trie.spot, hi]
      rw [hs]
      intro (e : p = c)
      exact hp hs (by simp [Trie.all, e])

/-- What the new node is put above tests a later bit. -/
theorem Linked.spot_bit (hl : Linked h p t) (hi : (h (t.spot x d p).2.top).bit = some i) : d ≤ i := by
  induction t generalizing p with
  | leaf c =>
    simp only [Trie.spot, Trie.top] at hi
    rw [hl.2] at hi
    cases hi
  | node c j l r ihl ihr =>
    obtain ⟨-, h2, -, -, h5, h6⟩ := hl
    simp only [Trie.spot] at hi
    split at hi
    · split at hi
      · exact ihr h6 hi
      · exact ihl h5 hi
    · rename_i hj
      obtain rfl : j = i := mem_unique h2 hi
      omega

theorem join_top : (join x d a b t).top = b := by
  unfold join
  split <;> rfl

/-- What adding the leaf `a` below the new node `b` does to the cells. -/
structure Grown (h h' : A → Cell A) (x : ℕ → Bool) (d : ℕ) (a b p : A) (t : Trie A) : Prop where
  leaf : (h' a).parent = some b ∧ (h' a).bit = none
  node : h' b = ⟨if x d then some (t.spot x d p).2.top else some a, if x d then some a else some (t.spot x d p).2.top,
    some (t.spot x d p).1, some d⟩
  below : h' (t.spot x d p).2.top = { h (t.spot x d p).2.top with parent := some b }
  above : (t.spot x d p).1 ∈ t.inner → ∀ i, (h (t.spot x d p).1).bit = some i →
    h' (t.spot x d p).1 = if x i then { h (t.spot x d p).1 with right := some b } else
      { h (t.spot x d p).1 with left := some b }
  other : ∀ n ∈ t.all, n ≠ (t.spot x d p).1 → n ≠ (t.spot x d p).2.top → h' n = h n

theorem Grown.join (hg : Grown h h' x d a b p t) (hl : Linked h p t) (hn : t.all.Nodup) (hp : p ∉ t.all)
    (hs : t.spot x d p = (p, t)) : Linked h' p (join x d a b t) := by
  obtain ⟨h1, h2, h3, -, h5⟩ := hg
  rw [hs] at h2 h3 h5
  have ht : Linked h' b t := by
    refine hl.reparent hn (fun n hm hne => h5 n hm ?_ hne) h3
    rintro rfl
    exact hp hm
  unfold Patricia.join
  cases hx : x d with
  | true =>
    simp only [hx, if_true] at h2
    exact ⟨by rw [h2], by rw [h2], by rw [h2], by rw [h2]; rfl, ht, h1⟩
  | false =>
    simp only [hx, Bool.false_eq_true, if_false] at h2
    exact ⟨by rw [h2], by rw [h2], by rw [h2]; rfl, by rw [h2], h1, ht⟩

/-- **A new leaf in memory.** -/
theorem Linked.insert (hl : Linked h p t) (hn : t.all.Nodup) (hp : t.spot x d p = (p, t) → p ∉ t.all)
    (hg : Grown h h' x d a b p t) : Linked h' p (t.insert x d a b) := by
  induction t generalizing p with
  | leaf c => exact hg.join hl hn (hp rfl) rfl
  | node c i l r ihl ihr =>
    by_cases hi : i < d
    · obtain ⟨h1, h2, h3, h4, h5, h6⟩ := hl
      have hn' := hn
      rw [nodup_node] at hn'
      obtain ⟨⟨hcl, hcr⟩, hnl, hnr, hdis⟩ := hn'
      have hin : ∀ u : Trie A, ∀ m ∈ u.inner, m ∈ u.all := fun u m hm => mem_all.2 (.inr hm)
      cases hx : x i with
      | true =>
        have hs : (Trie.node c i l r).spot x d p = r.spot x d c := by simp [Trie.spot, hi, hx]
        obtain ⟨g1, g2, g3, g4, g5⟩ := hg
        rw [hs] at g2 g3 g4 g5
        have hgr : Grown h h' x d a b c r := by
          refine ⟨g1, g2, g3, fun hm => g4 (by simp [Trie.inner, hm]), fun n hm => g5 n (by simp [Trie.all, hm])⟩
        have hbelow : (r.spot x d c).2.top ∈ r.all := spot_mem x d c r
        simp only [Trie.insert, if_pos hi, hx, if_true]
        have hfl : Linked h' c l := by
          refine h5.frame fun n hm => g5 n (by simp [Trie.all, hm]) ?_ ?_
          · rcases spot_cases x d a b c r with ⟨e, -⟩ | ⟨e, -⟩
            · rw [e]
              rintro rfl
              exact hcl hm
            · exact fun e' => hdis n hm _ (hin r _ e) e'
          · exact fun e' => hdis n hm _ hbelow e'
        refine ⟨?_, ?_, ?_, ?_, hfl, ihr h6 hnr (fun _ => hcr) hgr⟩
        all_goals
          rcases spot_cases x d a b c r with ⟨e, e'⟩ | ⟨e, e'⟩
          · have hc' := g4 (by rw [e]; simp [Trie.inner]) i (by rw [e]; exact h2)
            rw [e, if_pos hx] at hc'
            simp [hc', h1, h2, h3, e', join_top]
          · have hc' : h' c = h c := by
              refine g5 c (by simp [Trie.all]) ?_ ?_
              · intro hc'
                exact hcr (hc' ▸ hin r _ e)
              · intro hc'
                exact hcr (hc' ▸ hbelow)
            simp [hc', h1, h2, h3, h4, e']
      | false =>
        have hs : (Trie.node c i l r).spot x d p = l.spot x d c := by simp [Trie.spot, hi, hx]
        obtain ⟨g1, g2, g3, g4, g5⟩ := hg
        rw [hs] at g2 g3 g4 g5
        have hgl : Grown h h' x d a b c l := by
          refine ⟨g1, g2, g3, fun hm => g4 (by simp [Trie.inner, hm]), fun n hm => g5 n (by simp [Trie.all, hm])⟩
        have hbelow : (l.spot x d c).2.top ∈ l.all := spot_mem x d c l
        simp only [Trie.insert, if_pos hi, hx, Bool.false_eq_true, if_false]
        have hfr : Linked h' c r := by
          refine h6.frame fun n hm => g5 n (by simp [Trie.all, hm]) ?_ ?_
          · rcases spot_cases x d a b c l with ⟨e, -⟩ | ⟨e, -⟩
            · rw [e]
              rintro rfl
              exact hcr hm
            · exact fun e' => hdis _ (hin l _ e) n hm e'.symm
          · exact fun e' => hdis _ hbelow n hm e'.symm
        refine ⟨?_, ?_, ?_, ?_, ihl h5 hnl (fun _ => hcl) hgl, hfr⟩
        all_goals
          rcases spot_cases x d a b c l with ⟨e, e'⟩ | ⟨e, e'⟩
          · have hc' := g4 (by rw [e]; simp [Trie.inner]) i (by rw [e]; exact h2)
            rw [e, if_neg (by simp [hx])] at hc'
            simp [hc', h1, h2, h4, e', join_top]
          · have hc' : h' c = h c := by
              refine g5 c (by simp [Trie.all]) ?_ ?_
              · intro hc'
                exact hcl (hc' ▸ hin l _ e)
              · intro hc'
                exact hcl (hc' ▸ hbelow)
            simp [hc', h1, h2, h3, h4, e']
    · have hs : (Trie.node c i l r).spot x d p = (p, .node c i l r) := by simp [Trie.spot, hi]
      have he : (Trie.node c i l r).insert x d a b = Patricia.join x d a b (.node c i l r) := by simp [Trie.insert, hi]
      rw [he]
      exact hg.join hl hn (hp hs) hs

/-! ## A leaf goes away -/

/-- The leaf `a` is below `c`, next to `s`, and `g` is above. -/
structure Beside (h : A → Cell A) (a c g s : A) : Prop where
  sides : ((h c).left = some a ∧ (h c).right = some s) ∨ ((h c).right = some a ∧ (h c).left = some s)
  above : (h c).parent = some g

theorem Spliced.mem_all (hs : Spliced a c t t') (hm : n ∈ t'.all) : n ∈ t.all :=
  hs.all.mem_iff.2 (mem_cons_of_mem _ (mem_cons_of_mem _ hm))

theorem Spliced.leaf_mem (hs : Spliced a c t t') : a ∈ t.leaves := hs.mem_leaves.2 (.inl rfl)

theorem Spliced.node_mem (hs : Spliced a c t t') : c ∈ t.inner := hs.mem_inner.2 (.inl rfl)

/-- The node next to a leaf that goes away is what takes the place of both. -/
theorem Spliced.beside {g s : A} (hs : Spliced a c t t') (hl : Linked h p t) (hn : t.all.Nodup) (hb : Beside h a c g s) :
    s ∈ t.all ∧ ((c = t.top ∧ g = p ∧ t'.top = s) ∨ (c ≠ t.top ∧ g ∈ t.inner ∧ t'.top = t.top)) := by
  have hin : ∀ {u : Trie A} {m}, m ∈ u.inner → m ∈ u.all := fun hm => Patricia.mem_all.2 (.inr hm)
  induction hs generalizing p with
  | @left i r =>
    obtain ⟨h1, -, h3, h4, -, -⟩ := hl
    simp only [Trie.all, nodup_cons, mem_append, mem_singleton, not_or] at hn
    obtain rfl : p = g := mem_unique h1 hb.above
    rcases hb.sides with ⟨-, e⟩ | ⟨e, -⟩
    · obtain rfl : r.top = s := mem_unique h4 e
      exact ⟨by simp [Trie.all, top_mem r], .inl ⟨rfl, rfl, rfl⟩⟩
    · obtain rfl : r.top = a := mem_unique h4 e
      simp [top_mem r] at hn
  | @right i l =>
    obtain ⟨h1, -, h3, h4, -, -⟩ := hl
    obtain rfl : p = g := mem_unique h1 hb.above
    rcases hb.sides with ⟨e, -⟩ | ⟨-, e⟩
    · obtain rfl : l.top = a := mem_unique h3 e
      have := top_mem l
      simp only [Trie.all, nodup_cons, nodup_append, mem_singleton] at hn
      exact absurd rfl (hn.2.2.2 _ this _ rfl)
    · obtain rfl : l.top = s := mem_unique h3 e
      exact ⟨by simp [Trie.all, top_mem l], .inl ⟨rfl, rfl, rfl⟩⟩
  | @inLeft m i l l' r hsp ih =>
    obtain ⟨h1, -, h3, h4, h5, h6⟩ := hl
    rw [nodup_node] at hn
    obtain ⟨hs', hc⟩ := ih h5 hn.2.1
    refine ⟨by simp [Trie.all, hs'], .inr ⟨?_, ?_, rfl⟩⟩
    · rintro rfl
      exact hn.1.1 (hin hsp.node_mem)
    · rcases hc with ⟨-, rfl, -⟩ | ⟨-, hg, -⟩
      · simp [Trie.inner]
      · simp [Trie.inner, hg]
  | @inRight m i l r r' hsp ih =>
    obtain ⟨h1, -, h3, h4, h5, h6⟩ := hl
    rw [nodup_node] at hn
    obtain ⟨hs', hc⟩ := ih h6 hn.2.2.1
    refine ⟨by simp [Trie.all, hs'], .inr ⟨?_, ?_, rfl⟩⟩
    · rintro rfl
      exact hn.1.2 (hin hsp.node_mem)
    · rcases hc with ⟨-, rfl, -⟩ | ⟨-, hg, -⟩
      · simp [Trie.inner]
      · simp [Trie.inner, hg]

/-- What is next to a leaf that goes away. -/
theorem Spliced.exists_beside (hs : Spliced a c t t') (hl : Linked h p t) (hn : t.all.Nodup) :
    ∃ g s, Beside h a c g s ∧ (h a).parent = some c ∧ (h s).parent = some c ∧ s ∈ t'.all ∧
      (c ≠ t.top → g ∈ t'.inner ∧ g ≠ s) := by
  induction hs generalizing p with
  | @left i r =>
    obtain ⟨h1, -, h3, h4, h5, h6⟩ := hl
    exact ⟨p, r.top, ⟨.inl ⟨h3, h4⟩, h1⟩, h5.1, h6.top_parent, top_mem r, fun hc => absurd rfl hc⟩
  | @right i l =>
    obtain ⟨h1, -, h3, h4, h5, h6⟩ := hl
    exact ⟨p, l.top, ⟨.inr ⟨h4, h3⟩, h1⟩, h6.1, h5.top_parent, top_mem l, fun hc => absurd rfl hc⟩
  | @inLeft m i l l' r hsp ih =>
    obtain ⟨h1, -, h3, h4, h5, h6⟩ := hl
    rw [nodup_node] at hn
    obtain ⟨g, s, hb, h7, h8, h9, h10⟩ := ih h5 hn.2.1
    refine ⟨g, s, hb, h7, h8, by simp [Trie.all, h9], fun _ => ?_⟩
    by_cases hc : c = l.top
    · obtain rfl : g = m := some.inj (hb.above.symm.trans (hc ▸ h5.top_parent))
      refine ⟨by simp [Trie.inner], ?_⟩
      rintro rfl
      exact hn.1.1 (hsp.mem_all h9)
    · obtain ⟨h11, h12⟩ := h10 hc
      exact ⟨by simp [Trie.inner, h11], h12⟩
  | @inRight m i l r r' hsp ih =>
    obtain ⟨h1, -, h3, h4, h5, h6⟩ := hl
    rw [nodup_node] at hn
    obtain ⟨g, s, hb, h7, h8, h9, h10⟩ := ih h6 hn.2.2.1
    refine ⟨g, s, hb, h7, h8, by simp [Trie.all, h9], fun _ => ?_⟩
    by_cases hc : c = r.top
    · obtain rfl : g = m := some.inj (hb.above.symm.trans (hc ▸ h6.top_parent))
      refine ⟨by simp [Trie.inner], ?_⟩
      rintro rfl
      exact hn.1.2 (hsp.mem_all h9)
    · obtain ⟨h11, h12⟩ := h10 hc
      exact ⟨by simp [Trie.inner, h11], h12⟩

/-- Right above the leaf there is nothing else on its way. -/
theorem Spliced.path_top (hs : Spliced a c t t') (hso : Sound key lo t) (hn : t.all.Nodup) (hc : c = t.top)
    (hm : (n, i) ∈ t.path (key a)) : n = c := by
  cases hs with
  | left =>
    obtain ⟨-, -, hl, -⟩ := hso
    simpa [Trie.path, hl a (by simp [Trie.leaves])] using (mem_map_of_mem (f := Prod.fst) hm)
  | right =>
    obtain ⟨-, -, -, hr, -⟩ := hso
    simpa [Trie.path, hr a (by simp [Trie.leaves])] using (mem_map_of_mem (f := Prod.fst) hm)
  | inLeft hsp =>
    simp only [Trie.all, nodup_cons, mem_append, not_or] at hn
    obtain rfl : c = _ := hc
    exact absurd (Patricia.mem_all.2 (.inr hsp.node_mem)) hn.1.1
  | inRight hsp =>
    simp only [Trie.all, nodup_cons, mem_append, not_or] at hn
    obtain rfl : c = _ := hc
    exact absurd (Patricia.mem_all.2 (.inr hsp.node_mem)) hn.1.2

/-- The node above is the next one on the way to the leaf. -/
theorem Spliced.path_le {g s : A} {j : ℕ} (hs : Spliced a c t t') (hl : Linked h p t) (hso : Sound key lo t)
    (hn : t.all.Nodup) (hb : Beside h a c g s) (hm : (n, i) ∈ t.path (key a)) (hne : n ≠ c)
    (hj : (h g).bit = some j) (hc : c ≠ t.top) : i ≤ j := by
  induction hs generalizing p lo with
  | left => exact absurd rfl hc
  | right => exact absurd rfl hc
  | @inLeft m i0 l l' r hsp ih =>
    obtain ⟨h1, h2, h3, h4, h5, h6⟩ := hl
    obtain ⟨-, -, hal, -, hsl, -⟩ := hso
    rw [nodup_node] at hn
    have ha := hal a hsp.leaf_mem
    simp only [Trie.path, ha, Bool.false_eq_true, if_false, mem_cons, Prod.mk.injEq] at hm
    by_cases hcl : c = l.top
    · obtain rfl : g = m := some.inj (hb.above.symm.trans (hcl ▸ h5.top_parent))
      obtain rfl : i0 = j := mem_unique h2 hj
      rcases hm with ⟨-, rfl⟩ | hm
      · exact le_rfl
      · exact absurd (hsp.path_top hsl hn.2.1 hcl hm) hne
    · rcases hm with ⟨-, rfl⟩ | hm
      · obtain ⟨-, hg⟩ := hsp.beside h5 hn.2.1 hb
        have := h5.bit_le hsl (hg.resolve_left fun h => hcl h.1).2.1 hj
        omega
      · exact ih h5 hsl hn.2.1 hm hcl
  | @inRight m i0 l r r' hsp ih =>
    obtain ⟨h1, h2, h3, h4, h5, h6⟩ := hl
    obtain ⟨-, -, -, har, -, hsr⟩ := hso
    rw [nodup_node] at hn
    have ha := har a hsp.leaf_mem
    simp only [Trie.path, ha, if_true, mem_cons, Prod.mk.injEq] at hm
    by_cases hcr : c = r.top
    · obtain rfl : g = m := some.inj (hb.above.symm.trans (hcr ▸ h6.top_parent))
      obtain rfl : i0 = j := mem_unique h2 hj
      rcases hm with ⟨-, rfl⟩ | hm
      · exact le_rfl
      · exact absurd (hsp.path_top hsr hn.2.2.1 hcr hm) hne
    · rcases hm with ⟨-, rfl⟩ | hm
      · obtain ⟨-, hg⟩ := hsp.beside h6 hn.2.2.1 hb
        have := h6.bit_le hsr (hg.resolve_left fun h => hcr h.1).2.1 hj
        omega
      · exact ih h6 hsr hn.2.2.1 hm hcr

section Decidable

variable [DecidableEq A]

/-- What taking the leaf `a` and the node `c` away does to the cells. -/
structure Shrunk (h h' : A → Cell A) (a c g s : A) (t : Trie A) : Prop where
  beside : Beside h a c g s
  sibling : h' s = { h s with parent := some g }
  above : g ∈ t.inner → h' g = { h g with
    left := if (h g).left = some c then some s else (h g).left
    right := if (h g).right = some c then some s else (h g).right }
  other : ∀ n ∈ t.all, n ≠ a → n ≠ c → n ≠ g → n ≠ s → h' n = h n

/-- **A leaf goes away in memory.** -/
theorem Linked.splice {g s : A} (hs : Spliced a c t t') (hl : Linked h p t) (hn : t.all.Nodup)
    (hp : c = t.top → p ∉ t.all) (hh : Shrunk h h' a c g s t) : Linked h' p t' := by
  have hin : ∀ {u : Trie A} {m}, m ∈ u.inner → m ∈ u.all := fun hm => Patricia.mem_all.2 (.inr hm)
  have hle : ∀ {u : Trie A} {m}, m ∈ u.leaves → m ∈ u.all := fun hm => Patricia.mem_all.2 (.inl hm)
  obtain ⟨hb, h1, h2, h3⟩ := hh
  induction hs generalizing p with
  | @left i r =>
    have hbe := Spliced.left.beside hl hn hb
    obtain ⟨-, ⟨-, rfl, rfl⟩ | ⟨hne, -⟩⟩ := hbe
    · obtain ⟨-, -, -, -, -, h6⟩ := hl
      replace hp := hp rfl
      simp only [Trie.all, singleton_append, nodup_cons, mem_cons, not_or] at hn hp
      obtain ⟨⟨-, hcr⟩, har, hnr⟩ := hn
      refine h6.reparent hnr (fun n hm hne => h3 n (by simp [Trie.all, hm]) ?_ ?_ ?_ hne) h1
      · rintro rfl
        exact har hm
      · rintro rfl
        exact hcr hm
      · rintro rfl
        exact hp.2.2 hm
    · exact absurd rfl hne
  | @right i l =>
    have hbe := Spliced.right.beside hl hn hb
    obtain ⟨-, ⟨-, rfl, rfl⟩ | ⟨hne, -⟩⟩ := hbe
    · obtain ⟨-, -, -, -, h5, -⟩ := hl
      simp only [Trie.all, nodup_cons, nodup_append, mem_append, mem_singleton, not_or] at hn
      replace hp := hp rfl
      simp only [Trie.all, mem_cons, mem_append, not_or] at hp
      obtain ⟨⟨hcl, -⟩, hnl, -, hdis⟩ := hn
      refine h5.reparent hnl (fun n hm hne => h3 n (by simp [Trie.all, hm]) ?_ ?_ ?_ hne) h1
      · exact hdis n hm a rfl
      · rintro rfl
        exact hcl hm
      · rintro rfl
        exact hp.2.1 hm
    · exact absurd rfl hne
  | @inLeft m i l l' r hsp ih =>
    obtain ⟨e1, e2, e3, e4, e5, e6⟩ := hl
    rw [nodup_node] at hn
    obtain ⟨⟨hml, hmr⟩, hnl, hnr, hdis⟩ := hn
    obtain ⟨hs', hc⟩ := hsp.beside e5 hnl hb
    have hcl : c ∈ l.all := hin hsp.node_mem
    have hal : a ∈ l.all := hle hsp.leaf_mem
    have hg : g = m ∨ g ∈ l.all := by
      rcases hc with ⟨-, hg, -⟩ | ⟨-, hg, -⟩
      · exact .inl hg
      · exact .inr (hin hg)
    have hl' : Linked h' m l' := by
      refine ih e5 hnl (fun _ => hml) (fun hm => h2 (by simp [Trie.inner, hm])) fun n hm => h3 n (by simp [Trie.all, hm])
    have hr' : Linked h' m r := by
      refine e6.frame fun n hm => h3 n (by simp [Trie.all, hm]) ?_ ?_ ?_ ?_
      · exact fun e => hdis a hal n hm e.symm
      · exact fun e => hdis c hcl n hm e.symm
      · rcases hg with rfl | hg
        · rintro rfl
          exact hmr hm
        · exact fun e => hdis g hg n hm e.symm
      · exact fun e => hdis s hs' n hm e.symm
    -- the pointer of `m` to the left side changes if the node that goes away was there
    have hmc : r.top ≠ c := fun e => hdis c hcl r.top (top_mem r) e.symm
    refine ⟨?_, ?_, ?_, ?_, hl', hr'⟩
    all_goals
      rcases hc with ⟨rfl, rfl, ht⟩ | ⟨hne, hg', ht⟩
      · have hm := h2 (by simp [Trie.inner])
        simp [hm, e1, e2, e3, e4, ht, hmc]
      · have hm : h' m = h m := by
          refine h3 m (by simp [Trie.all]) ?_ ?_ ?_ ?_
          · exact fun e => hml (e ▸ hal)
          · exact fun e => hml (e ▸ hcl)
          · exact fun e => hml (e ▸ hin hg')
          · exact fun e => hml (e ▸ hs')
        simp [hm, e1, e2, e3, e4, ht]
  | @inRight m i l r r' hsp ih =>
    obtain ⟨e1, e2, e3, e4, e5, e6⟩ := hl
    rw [nodup_node] at hn
    obtain ⟨⟨hml, hmr⟩, hnl, hnr, hdis⟩ := hn
    obtain ⟨hs', hc⟩ := hsp.beside e6 hnr hb
    have hcr : c ∈ r.all := hin hsp.node_mem
    have har : a ∈ r.all := hle hsp.leaf_mem
    have hg : g = m ∨ g ∈ r.all := by
      rcases hc with ⟨-, hg, -⟩ | ⟨-, hg, -⟩
      · exact .inl hg
      · exact .inr (hin hg)
    have hr' : Linked h' m r' := by
      refine ih e6 hnr (fun _ => hmr) (fun hm => h2 (by simp [Trie.inner, hm])) fun n hm => h3 n (by simp [Trie.all, hm])
    have hl' : Linked h' m l := by
      refine e5.frame fun n hm => h3 n (by simp [Trie.all, hm]) ?_ ?_ ?_ ?_
      · exact hdis n hm a har
      · exact hdis n hm c hcr
      · rcases hg with rfl | hg
        · rintro rfl
          exact hml hm
        · exact hdis n hm g hg
      · exact hdis n hm s hs'
    have hmc : l.top ≠ c := hdis l.top (top_mem l) c hcr
    refine ⟨?_, ?_, ?_, ?_, hl', hr'⟩
    all_goals
      rcases hc with ⟨rfl, rfl, ht⟩ | ⟨hne, hg', ht⟩
      · have hm := h2 (by simp [Trie.inner])
        simp [hm, e1, e2, e3, e4, ht, hmc]
      · have hm : h' m = h m := by
          refine h3 m (by simp [Trie.all]) ?_ ?_ ?_ ?_
          · exact fun e => hmr (e ▸ har)
          · exact fun e => hmr (e ▸ hcr)
          · exact fun e => hmr (e ▸ hin hg')
          · exact fun e => hmr (e ▸ hs')
        simp [hm, e1, e2, e3, e4, ht]

end Decidable

end Patricia
