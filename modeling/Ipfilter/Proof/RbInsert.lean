import Ipfilter.Proof.RbLinks
import Mathlib.Order.Lattice

/-!
# Insertion

* `Holds.descend`: the way down ends at the place where the key belongs.
* `insertPass_red`, `insertPass_black`: the two kinds of passes of the loop that paints.
* `insertLoop_spec`: the loop mends the balance.
* `insert_spec`: insertion.
-/

namespace Ipfilter.Rb

open RedBlack RedBlack.RbTree List

variable {D K : Type} [LinearOrder K] {h h' : Head D} {x y p r node parent gparent : Ref} {d e : Bool}
  {c c' : Colour} {k : D} {s t u : RbTree ℕ} {i j n : ℕ} {fs gs : List (Frame ℕ)} {f g : Frame ℕ}

/-! ## The order of the keys -/

/-- The comparison agrees with the order of the keys on two structures. -/
structure Agrees (cmp : D → D → ℤ) (key : D → K) (a b : D) : Prop where
  lt : cmp a b < 0 ↔ key a < key b
  eq : cmp a b = 0 ↔ key a = key b

/-- The keys of the tree go up from left to right. -/
def Sorted (h : Head D) (key : D → K) (t : RbTree ℕ) : Prop :=
  t.all.Pairwise fun i j => key (h.cell (.node i)).data < key (h.cell (.node j)).data

/-- A place where the key `a` belongs. -/
def Belongs (h : Head D) (key : D → K) (a : K) (fs : List (Frame ℕ)) : Prop :=
  (∀ i ∈ beside false fs, key (h.cell (.node i)).data < a) ∧ ∀ i ∈ beside true fs, a < key (h.cell (.node i)).data

variable {cmp : D → D → ℤ} {key : D → K}

theorem descend_mono {fuel m : ℕ} {q : Ref × Bool} (heq : descend cmp h node fuel p d = some q) (hm : fuel ≤ m) :
    descend cmp h node m p d = some q := by
  induction fuel generalizing m p d with
  | zero => cases heq
  | succ fuel ih =>
    obtain ⟨m, rfl⟩ : ∃ m', m = m' + 1 := ⟨m - 1, by omega⟩
    unfold descend at heq ⊢
    dsimp only at heq ⊢
    by_cases hz : (h.cell p).link d = .zero
    · rw [if_pos hz] at heq ⊢
      exact heq
    · rw [if_neg hz] at heq ⊢
      exact ih heq (by omega)

/-- One step down, to the side of `j` where the key is. -/
theorem Belongs.step {a : K} (hb : Belongs h key a fs) (hsort : Sorted h key (fill fs (bin d c s j u)))
    (hside : if d then key (h.cell (.node j)).data < a else a < key (h.cell (.node j)).data) :
    Belongs h key a (⟨d, c, j, u⟩ :: fs) := by
  rw [Sorted, all_fill] at hsort
  have hmid := (pairwise_append.1 (pairwise_append.1 hsort).1).2.1
  cases d with
  | false =>
    obtain ⟨-, hju, -⟩ := pairwise_append.1 hmid
    refine ⟨by simpa [beside] using hb.1, fun i hi => ?_⟩
    simp only [beside, Bool.false_eq_true, if_false, if_true, mem_append, mem_cons] at hi
    rcases hi with (rfl | hi) | hi
    · exact hside
    · exact lt_trans hside ((pairwise_cons.1 hju).1 i hi)
    · exact hb.2 i hi
  | true =>
    obtain ⟨-, -, huj⟩ := pairwise_append.1 hmid
    refine ⟨fun i hi => ?_, by simpa [beside] using hb.2⟩
    simp only [beside, Bool.true_eq_false, if_false, Bool.false_eq_true, mem_append, mem_singleton] at hi
    rcases hi with (hi | hi) | rfl
    · exact hb.1 i hi
    · exact lt_trans (huj i hi j (by simp)) hside
    · exact hside

/-- **The way down** ends at a leaf, where the key belongs. -/
theorem Holds.descend (ht : Holds h (fill fs t)) (hsort : Sorted h key (fill fs t))
    (hb : Belongs h key (key (h.cell node).data) fs)
    (hcmp : ∀ i ∈ t.all, Agrees cmp key (h.cell node).data (h.cell (.node i)).data)
    (hnew : ∀ i ∈ t.all, key (h.cell (.node i)).data ≠ key (h.cell node).data) :
    ∃ fuel gs, Rb.descend cmp h node fuel (up fs) (upSide fs) = some (up gs, upSide gs) ∧ fill gs .leaf = fill fs t ∧
      Belongs h key (key (h.cell node).data) gs := by
  have hlink : (h.cell (up fs)).link (upSide fs) = ref t := ht.at.2.link
  induction t generalizing fs with
  | leaf => exact ⟨1, fs, by simp [Rb.descend, hlink, ref], rfl, hb⟩
  | node c l j r ihl ihr =>
    have hj : j ∈ (RbTree.node c l j r).all := by simp [RbTree.all]
    have hstep : ∀ fuel, Rb.descend cmp h node (fuel + 1) (up fs) (upSide fs) =
        Rb.descend cmp h node fuel (.node j) (!decide (cmp (h.cell node).data (h.cell (.node j)).data < 0)) := fun fuel => by
      rw [Rb.descend]
      simp [hlink, ref]
    by_cases hlt : cmp (h.cell node).data (h.cell (.node j)).data < 0
    · have hfs : fill (⟨false, c, j, r⟩ :: fs) l = fill fs (.node c l j r) := rfl
      have hb' : Belongs h key (key (h.cell node).data) (⟨false, c, j, r⟩ :: fs) :=
        hb.step (s := l) hsort ((hcmp j hj).lt.1 hlt)
      have ht' : Holds h (fill (⟨false, c, j, r⟩ :: fs) l) := ht
      obtain ⟨fuel, gs, hd, hgs, hbg⟩ := ihl ht' (hfs ▸ hsort) hb' (fun i hi => hcmp i (by simp [RbTree.all, hi]))
        (fun i hi => hnew i (by simp [RbTree.all, hi])) ht'.at.2.link
      refine ⟨fuel + 1, gs, ?_, hgs.trans hfs, hbg⟩
      rw [hstep, decide_eq_true hlt]
      exact hd
    · have hfs : fill (⟨true, c, j, l⟩ :: fs) r = fill fs (.node c l j r) := rfl
      have hgt : key (h.cell (.node j)).data < key (h.cell node).data :=
        lt_of_le_of_ne (not_lt.1 fun hk => hlt ((hcmp j hj).lt.2 hk)) (hnew j hj)
      have hb' : Belongs h key (key (h.cell node).data) (⟨true, c, j, l⟩ :: fs) :=
        hb.step (s := r) hsort hgt
      have ht' : Holds h (fill (⟨true, c, j, l⟩ :: fs) r) := ht
      obtain ⟨fuel, gs, hd, hgs, hbg⟩ := ihr ht' (hfs ▸ hsort) hb' (fun i hi => hcmp i (by simp [RbTree.all, hi]))
        (fun i hi => hnew i (by simp [RbTree.all, hi])) ht'.at.2.link
      refine ⟨fuel + 1, gs, ?_, hgs.trans hfs, hbg⟩
      rw [hstep, decide_eq_false hlt]
      exact hd

/-! ## The new node -/

/-- Edits of nodes that are not in the tree. -/
theorem Holds.frame (ht : Holds h t) (hs : ∀ y, (∀ i, y = .node i → i ∈ t.all) → Same h h' y) : Holds h' t := by
  have htop := hs .top (by simp)
  have hzero := hs .zero (by simp)
  have hnodes : ∀ i ∈ t.all, Same h h' (.node i) := fun i hi => hs (.node i) fun j hj => by cases hj; exact hi
  exact ⟨ht.spells.congr hnodes, (htop.link _).trans ht.root, ht.nodup, (htop.link _).trans ht.topLeft,
    htop.colour.trans ht.topColour, fun e => (hzero.link e).trans (ht.zeroLink e), hzero.parent.trans ht.zeroParent,
    hzero.colour.trans ht.zeroColour⟩

/-- **The node is hung at a place.** -/
theorem Holds.hang (ht : Holds h (fill fs .leaf)) (hi : i ∉ (fill fs .leaf).all)
    (hlinks : ∀ e, (h.cell (.node i)).link e = .zero) :
    Holds (((h.setLink (up fs) (upSide fs) (.node i)).setColour (.node i) .red).setParent (.node i) (up fs))
      (fill fs (.node .red .leaf i .leaf)) := by
  have haround := ht.at.2
  have hn := nodup_fill.1 ht.nodup
  have hif : i ∉ around fs := fun hmem => hi ((all_fill_perm fs .leaf).mem_iff.2 (mem_append_right _ hmem))
  have hup : Ref.node i ≠ up fs := by
    cases fs with
    | nil => simp [up]
    | cons f fs =>
      rintro ⟨⟩
      exact hif (by simp [around])
  refine ht.edit ⟨?_, by simp, by simp, by simp, fun e => ?_⟩ (nodup_fill.2 ⟨by simp [RbTree.all], hn.2.1, ?_⟩)
    ⟨by simp, by simp, ?_, ?_, trivial, trivial⟩ (haround.refill hn.2.1 (fun k hk hku => ?_) ⟨?_, ?_⟩ (by simp [ref])
    (by simp) fun hne => ?_)
  · cases fs <;> simp [up, upSide]
  · simp [(up_ne_zero : up fs ≠ .zero).symm]
  · simpa [RbTree.all] using hif
  · simpa [hup, ref] using hlinks false
  · simpa [hup, ref] using hlinks true
  · have hki : k ≠ i := ne_of_mem_of_not_mem hk hif
    exact ⟨by simp [hki], by simp [hki], by simp [hku]⟩
  · simp [hup.symm]
  · simp [hup.symm]
  · cases fs with
    | nil => exact absurd rfl hne
    | cons f fs => simp [up]

/-! ## The loop that paints -/

@[simp] theorem insertPass_data : ((insertPass d h node parent gparent).1.cell y).data = (h.cell y).data := by
  unfold insertPass
  dsimp only
  split_ifs <;> simp

@[simp] theorem insertPass_count : (insertPass d h node parent gparent).1.count = h.count := by
  unfold insertPass
  dsimp only
  split_ifs <;> simp

theorem insertLoop_mono {fuel m : ℕ} (heq : insertLoop fuel h node parent = some h') (hm : fuel ≤ m) :
    insertLoop m h node parent = some h' := by
  induction fuel generalizing m h node parent with
  | zero => cases heq
  | succ fuel ih =>
    obtain ⟨m, rfl⟩ : ∃ m', m = m' + 1 := ⟨m - 1, by omega⟩
    unfold insertLoop at heq ⊢
    by_cases hc : node ≠ .zero ∧ (h.cell parent).colour = .red
    · rw [if_pos hc] at heq ⊢
      exact ih heq (by omega)
    · rw [if_neg hc] at heq ⊢
      exact heq

/-- The loop leaves alone what the nodes hold. -/
theorem insertLoop_data {fuel : ℕ} (heq : insertLoop fuel h node parent = some h') :
    (∀ y, (h'.cell y).data = (h.cell y).data) ∧ h'.count = h.count := by
  induction fuel generalizing h node parent with
  | zero => cases heq
  | succ fuel ih =>
    unfold insertLoop at heq
    by_cases hc : node ≠ .zero ∧ (h.cell parent).colour = .red
    · rw [if_pos hc] at heq
      obtain ⟨hdata, hcount⟩ := ih heq
      exact ⟨fun y => (hdata y).trans insertPass_data, hcount.trans insertPass_count⟩
    · rw [if_neg hc] at heq
      cases heq
      exact ⟨fun _ => rfl, rfl⟩

/-- **A red uncle:** the red moves up to the grandparent. -/
theorem insertPass_red (node : Ref) (ht : Holds h (fill (f :: g :: gs) t)) (hu : g.sib.colour = .red) :
    ∃ u, insertPass g.side h node (.node f.a) (.node g.a) = (u, .node g.a) ∧
      Holds u (fill gs (bin g.side .red (bin f.side .black t f.a f.sib) g.a (g.sib.paint .black))) := by
  obtain ⟨c, u₁, k, u₂, hsib⟩ := exists_bin false (t := g.sib) (by rintro hl; rw [hl] at hu; cases hu)
  obtain rfl : c = .red := by rw [hsib, colour_bin] at hu; exact hu
  have hg : Holds h (fill gs (bin g.side g.colour (bin f.side f.colour t f.a f.sib) g.a g.sib)) := ht
  have hlink : (h.cell (.node g.a)).link (!g.side) = .node k := by rw [hg.node.2.2.2, hsib, ref_bin]
  have hcol : (h.cell (.node k)).colour = .red := by
    rw [hsib, holds_far] at hg
    exact hg.node.2.1
  refine ⟨_, by rw [insertPass, hlink, if_pos hcol], ?_⟩
  -- the parent, the uncle and the grandparent
  have h1 : Holds h (fill (g :: gs) (bin f.side f.colour t f.a f.sib)) := ht
  have h2 := h1.paint .black
  rw [fill, hsib, holds_far] at h2
  have h3 := h2.paint .black
  rw [← holds_far] at h3
  rw [hsib, paint_bin]
  exact h3.paint .red

/-- The last rotation, when the red nodes are on the outer side. -/
theorem insert_finish {a q : ℕ} (ht : Holds h (fill gs (bin d .black (bin d .red s q t) a u))) :
    Holds (rotate (!d) ((h.setColour (.node q) .black).setColour (.node a) .red)
      (if d then (((h.setColour (.node q) .black).setColour (.node a) .red).cell (.node q)).parent else .node a))
      (fill gs (bin d .black s q (bin d .red t a u))) := by
  have h1 : Holds h (fill (⟨d, .black, a, u⟩ :: gs) (bin d .red s q t)) := ht
  have h2 : Holds (h.setColour (.node q) .black) (fill gs (bin d .black (bin d .black s q t) a u)) := h1.paint .black
  have h3 : Holds ((h.setColour (.node q) .black).setColour (.node a) .red)
      (fill (⟨d, .red, a, u⟩ :: gs) (bin d .black s q t)) := h2.paint .red
  have hnode : (if d then (((h.setColour (.node q) .black).setColour (.node a) .red).cell (.node q)).parent
      else .node a) = Ref.node a := by
    rw [h3.node.1]
    exact ite_self _
  rw [hnode]
  rw [fill, bin_flip, bin_flip d .black] at h3
  have h4 := h3.rotate
  rw [bin_flip, Bool.not_not, bin_flip (!d), Bool.not_not] at h4
  exact h4

/-- **A black uncle:** at most two rotations, and the loop ends. -/
theorem insertPass_black (ht : Holds h (fill (f :: g :: gs) (bin e .red s i t))) (hf : f.colour = .red)
    (hg : g.colour = .black) (hu : g.sib.colour = .black) :
    ∃ h' node' T, insertPass g.side h (.node i) (.node f.a) (.node g.a) = (h', node') ∧ Holds h' (fill gs T) ∧
      T.all = (bin g.side g.colour (bin f.side f.colour (bin e .red s i t) f.a f.sib) g.a g.sib).all ∧
      (h'.cell (h'.cell node').parent).colour = .black ∧ T.colour = .black ∧
      ∀ n, Balanced (bin e .red s i t) n → Balanced f.sib n → f.sib.colour = .black → Balanced g.sib n →
        Balanced T (n + 1) := by
  have hside := ht.side (!g.side)
  have hfg : Holds h (fill gs (bin g.side g.colour (bin f.side f.colour (bin e .red s i t) f.a f.sib) g.a g.sib)) := ht
  have hlink : (h.cell (.node g.a)).link (!g.side) = ref g.sib := hfg.node.2.2.2
  have hcol : ¬(h.cell (ref g.sib)).colour = .red := by
    rw [holds_far] at hfg
    rw [hfg.colour_ref, hu]
    simp
  by_cases htest : .node i = (h.cell (.node f.a)).link (!g.side)
  · -- the node is on the inner side: it is rotated to the outer side first
    have hfs : f.side = !g.side := hside.1 htest.symm
    obtain ⟨c, s', i', t', hbin⟩ := exists_bin g.side (t := bin e .red s i t) bin_ne_leaf
    obtain rfl : c = .red := by have := congrArg colour hbin; simpa using this.symm
    obtain rfl : i' = i := by have := congrArg ref hbin; simpa using this.symm
    have h1 : Holds h (fill (g :: gs) (bin g.side .red f.sib f.a (bin g.side .red s' i' t'))) := by
      have h0 : Holds h (fill (g :: gs) (bin f.side f.colour (bin e .red s i' t) f.a f.sib)) := ht
      rw [bin_flip, hfs, hf, hbin, Bool.not_not] at h0
      exact h0
    have h2 : Holds (rotate g.side h (.node f.a))
        (fill (⟨g.side, .red, i', t'⟩ :: g :: gs) (bin g.side .red f.sib f.a s')) := h1.rotate
    have hparent : ((rotate g.side h (.node f.a)).cell (.node f.a)).parent = .node i' := h2.node.1
    have h3 : Holds (rotate g.side h (.node f.a))
        (fill gs (bin g.side .black (bin g.side .red (bin g.side .red f.sib f.a s') i' t') g.a g.sib)) := by
      rw [← hg]
      exact h2
    have h4 := insert_finish h3
    refine ⟨_, .node f.a, _, ?_, h4, ?_, ?_, by simp, fun n hX hsib hsc hg => ?_⟩
    · rw [insertPass, hlink, if_neg hcol, if_pos htest]
      simp only [hparent]
    · rw [hfs, ← bin_flip, hbin]
      cases g.side <;> simp [bin, RbTree.all]
    · rw [(holds_near.1 h4).node.1]
      exact h4.node.2.1
    · rw [hbin] at hX
      obtain ⟨hs', ht', hsc', htc'⟩ := balanced_red.1 hX
      exact balanced_black.2 ⟨balanced_red.2 ⟨hsib, hs', hsc, hsc'⟩, balanced_red.2 ⟨ht', hg, htc', hu⟩⟩
  · have hfs : f.side = g.side := by
      have hne : ¬f.side = !g.side := fun heq => htest (hside.2 heq).symm
      simpa [Bool.eq_not] using hne
    rw [hf, hg, hfs] at hfg
    have h1 := insert_finish hfg
    refine ⟨_, .node i, _, ?_, h1, ?_, ?_, by simp, fun n hX hsib hsc hg => ?_⟩
    · rw [insertPass, hlink, if_neg hcol, if_neg htest]
    · rw [hfs]
      exact all_rotate.symm
    · rw [(holds_near.1 h1).node.1]
      exact h1.node.2.1
    · exact balanced_black.2 ⟨hX, balanced_red.2 ⟨hsib, hg, hsc, hu⟩⟩

theorem Holds.hue (ht : Holds h (fill fs t)) : (h.cell (up fs)).colour = RedBlack.hue fs := by
  cases fs with
  | nil => exact ht.topColour
  | cons f fs => exact ht.at.2.2.1

theorem insertLoop_done (hc : (h.cell parent).colour = .black) : insertLoop 1 h node parent = some h := by
  rw [insertLoop, if_neg (by simp [hc])]

/-- One pass, when the node above is red. -/
theorem insertLoop_pass (ht : Holds h (fill (f :: g :: gs) t)) (hf : f.colour = .red) (fuel : ℕ) :
    insertLoop (fuel + 1) h (.node i) (.node f.a) =
      insertLoop fuel (insertPass g.side h (.node i) (.node f.a) (.node g.a)).1
        (insertPass g.side h (.node i) (.node f.a) (.node g.a)).2
        ((insertPass g.side h (.node i) (.node f.a) (.node g.a)).1.cell
          (insertPass g.side h (.node i) (.node f.a) (.node g.a)).2).parent := by
  have hg : Holds h (fill (g :: gs) (bin f.side f.colour t f.a f.sib)) := ht
  have hside : (!decide (Ref.node f.a = (h.cell (.node g.a)).link false)) = g.side := by
    rw [decide_eq_decide.2 eq_comm]
    exact hg.side_test
  rw [insertLoop, if_pos ⟨by simp, hg.node.2.1.trans hf⟩]
  simp only [hg.node.1, up, hside]

/-- **The loop mends the balance**, except that the root may be red. -/
theorem insertLoop_spec (ht : Holds h (fill fs (bin e .red s i t))) (hb : Balanced (bin e .red s i t) n) (hf : Fit fs n) :
    ∃ fuel h' T, insertLoop fuel h (.node i) (up fs) = some h' ∧ Holds h' T ∧
      T.all = (fill fs (bin e .red s i t)).all ∧ ∃ m, Balanced (T.paint .black) m := by
  induction hk : fs.length using Nat.strongRecOn generalizing h fs e s i t n with
  | ind k ih =>
    cases hhue : hue fs with
    | black =>
      refine ⟨1, h, _, insertLoop_done (ht.hue.trans hhue), ht, rfl, ?_⟩
      cases fs with
      | nil => exact ⟨_, hb.blacken colour_bin⟩
      | cons f fs =>
        obtain ⟨m, hm⟩ := hf.fill hb (fun hr => absurd (hhue.symm.trans hr) (by simp))
        refine ⟨m, ?_⟩
        rw [← hf.colour (by simp) (bin e .red s i t), paint_colour]
        exact hm
    | red =>
      -- there is a parent, which is red, and above it a grandparent, which is black
      obtain ⟨f, g, gs, rfl, hfc, hgc⟩ : ∃ f g gs, fs = f :: g :: gs ∧ f.colour = .red ∧ g.colour = .black := by
        match fs, hf with
        | f :: [], hf => exact absurd rfl (hf.2.1 hhue).2.2
        | f :: g :: gs, hf => exact ⟨f, g, gs, rfl, hhue, (hf.2.1 hhue).2.1⟩
      obtain ⟨hfsib, hfred, hgsib, -, hgs⟩ := hf
      rw [hfc] at hgsib hgs
      rw [hgc] at hgs
      cases hu : g.sib.colour with
      | red =>
        obtain ⟨u, hpass, hu'⟩ := insertPass_red (.node i) ht hu
        have hbal : Balanced (bin g.side .red (bin f.side .black (bin e .red s i t) f.a f.sib) g.a (g.sib.paint .black))
            (n + 1) := by
          refine balanced_red.2 ⟨balanced_black.2 ⟨hb, hfsib⟩, hgsib.blacken hu, colour_bin, ?_⟩
          cases g.sib <;> rfl
        obtain ⟨fuel, h', T, hloop, hT, hall, hm⟩ := ih gs.length (by simp at hk; omega) hu' hbal hgs rfl
        refine ⟨fuel + 1, h', T, ?_, hT, hall.trans (all_fill_congr ?_), hm⟩
        · rw [up, insertLoop_pass ht hfc, hpass]
          dsimp only
          rw [hu'.node.1]
          exact hloop
        · cases g.side <;> cases f.side <;> simp [bin, RbTree.all]
      | black =>
        obtain ⟨h', node', T, hpass, hT, hall, hpar, hTc, hbal⟩ := insertPass_black ht hfc hgc hu
        have hTb := hbal n hb hfsib (hfred hfc).1 hgsib
        obtain ⟨m, hm⟩ := hgs.fill hTb fun _ => hTc
        refine ⟨2, h', _, ?_, hT, all_fill_congr hall, m, ?_⟩
        · rw [up, insertLoop_pass ht hfc, hpass]
          exact insertLoop_done hpar
        · have hroot : (fill gs T).colour = .black := by
            cases gs with
            | nil => exact hTc
            | cons g' gs => exact hgs.colour (by simp) T
          rw [← hroot, paint_colour]
          exact hm

/-! ## The whole of it -/

/-- **A good tree:** a balanced search tree that the head holds and counts. -/
structure Good (h : Head D) (key : D → K) (t : RbTree ℕ) : Prop where
  holds : Holds h t
  sorted : Sorted h key t
  balanced : ∃ m, Balanced t m
  root : t.colour = .black
  count : h.count = t.all.length

theorem Sorted.congr (hs : Sorted h key t) (hall : s.all = t.all)
    (hdata : ∀ i ∈ t.all, key (h'.cell (.node i)).data = key (h.cell (.node i)).data) : Sorted h' key s := by
  rw [Sorted, hall]
  refine List.Pairwise.imp_of_mem (fun hi hj hlt => ?_) hs
  rw [hdata _ hi, hdata _ hj]
  exact hlt

/-- A key is put where it belongs. -/
theorem Sorted.put (hs : Sorted h key (fill fs .leaf)) (hb : Belongs h key (key (h.cell (.node i)).data) fs) :
    Sorted h key (fill fs (.node c .leaf i .leaf)) := by
  rw [Sorted, all_fill] at hs ⊢
  simp only [RbTree.all, append_nil, nil_append] at hs ⊢
  rw [append_assoc]
  obtain ⟨hl, hr, hlr⟩ := pairwise_append.1 hs
  refine pairwise_append.2 ⟨hl, pairwise_append.2 ⟨pairwise_singleton _ _, hr, ?_⟩, ?_⟩
  · intro a ha j hj
    rw [mem_singleton.1 ha]
    exact hb.2 j hj
  · intro j hj a ha
    rcases mem_append.1 ha with ha | ha
    · rw [mem_singleton.1 ha]
      exact hb.1 j hj
    · exact hlr j hj a ha

/-- The last assignment: the root is black. -/
theorem Holds.blacken (ht : Holds h t) (hne : t ≠ .leaf) :
    Holds (h.setColour ((h.cell .top).link true) .black) (t.paint .black) := by
  obtain ⟨c, s, i, u, rfl⟩ := exists_bin false hne
  have h0 : Holds h (fill [] (bin false c s i u)) := ht
  rw [ht.root, ref_bin, paint_bin]
  exact h0.paint .black

theorem insert_mono {fuel m : ℕ} (heq : insert cmp fuel h node = some h') (hm : fuel ≤ m) :
    insert cmp m h node = some h' := by
  obtain ⟨q, hq, heq⟩ := Option.bind_eq_some_iff.1 heq
  obtain ⟨h₁, hloop, heq⟩ := Option.bind_eq_some_iff.1 heq
  exact Option.bind_eq_some_iff.2 ⟨q, descend_mono hq hm,
    Option.bind_eq_some_iff.2 ⟨h₁, insertLoop_mono hloop hm, heq⟩⟩

/-- **Insertion** of a node with a new key. -/
theorem insert_spec (hg : Good h key t) (hi : i ∉ t.all)
    (hcmp : ∀ j ∈ t.all, Agrees cmp key (h.cell (.node i)).data (h.cell (.node j)).data)
    (hnew : ∀ j ∈ t.all, key (h.cell (.node j)).data ≠ key (h.cell (.node i)).data) :
    ∃ fuel h' T, insert cmp fuel h (.node i) = some h' ∧ Good h' key T ∧ T.all.Perm (i :: t.all) ∧
      ∀ y, (h'.cell y).data = (h.cell y).data := by
  let h₁ := (h.setLink (.node i) false .zero).setLink (.node i) true .zero
  have hdata₁ : ∀ y, (h₁.cell y).data = (h.cell y).data := by simp [h₁]
  have hold₁ : Holds h₁ t := by
    refine hg.holds.frame fun y hy => ?_
    have hne : y ≠ .node i := fun heq => hi (hy i heq)
    exact ⟨by simp [h₁], by simp [h₁], by simp [h₁, hne]⟩
  have hsort₁ : Sorted h₁ key t := hg.sorted.congr rfl fun j _ => by rw [hdata₁]
  have hroot : Holds h₁ (fill [] t) := hold₁
  obtain ⟨f₁, gs, hd, hgs, hbel⟩ := hroot.descend hsort₁ ⟨by simp [beside], by simp [beside]⟩
    (fun j hj => by rw [hdata₁, hdata₁]; exact hcmp j hj) fun j hj => by rw [hdata₁, hdata₁]; exact hnew j hj
  have hfill : fill gs .leaf = t := hgs
  rw [← hfill] at hold₁ hsort₁ hi
  -- the new node is red
  let h₂ := ((h₁.setLink (up gs) (upSide gs) (.node i)).setColour (.node i) .red).setParent (.node i) (up gs)
  have hdata₂ : ∀ y, (h₂.cell y).data = (h₁.cell y).data := by simp [h₂]
  have hold₂ : Holds h₂ (fill gs (bin false .red .leaf i .leaf)) := by
    refine hold₁.hang hi fun e => ?_
    cases e <;> simp [h₁]
  obtain ⟨m, hm⟩ := hg.balanced
  rw [← hfill] at hm
  obtain ⟨n, hfit, hleaf, -⟩ := fit_of_balanced hm (hfill ▸ hg.root)
  obtain rfl := balanced_leaf.1 hleaf
  obtain ⟨f₂, h₃, T, hloop, hold₃, hall, k, hbal⟩ :=
    insertLoop_spec hold₂ (balanced_red.2 ⟨.leaf, .leaf, rfl, rfl⟩) hfit
  have hdata₃ := insertLoop_data hloop
  have hsort₂ : Sorted h₁ key (fill gs (.node .red .leaf i .leaf)) := hsort₁.put hbel
  have hperm : T.all.Perm (i :: t.all) := by
    rw [hall, ← hfill]
    exact (all_fill_perm gs _).trans ((all_fill_perm gs .leaf).symm.cons i)
  have hne : T ≠ .leaf := by
    rintro rfl
    exact absurd hperm.length_eq (by simp [RbTree.all])
  refine ⟨max f₁ f₂, { h₃.setColour ((h₃.cell .top).link true) .black with count := h₃.count + 1 },
    T.paint .black, ?_, ⟨?_, ?_, ⟨k, hbal⟩, ?_, ?_⟩, ?_, fun y => ?_⟩
  · refine Option.bind_eq_some_iff.2 ⟨(up gs, upSide gs), descend_mono hd (le_max_left _ _), ?_⟩
    exact Option.bind_eq_some_iff.2 ⟨h₃, insertLoop_mono hloop (le_max_right _ _), rfl⟩
  · exact (hold₃.blacken hne).frame fun y _ => ⟨rfl, rfl, fun _ => rfl⟩
  · refine hsort₂.congr (all_paint.trans hall) fun j _ => ?_
    exact congrArg key (setColour_data.trans ((hdata₃.1 _).trans (hdata₂ _)))
  · cases T with
    | leaf => exact absurd rfl hne
    | node c l j r => rfl
  · rw [all_paint, hperm.length_eq]
    have hcount : h₃.count = t.all.length := hdata₃.2.trans hg.count
    simp [hcount]
  · rwa [all_paint]
  · exact setColour_data.trans ((hdata₃.1 _).trans ((hdata₂ _).trans (hdata₁ _)))

end Ipfilter.Rb
