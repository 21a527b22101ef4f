import Ipfilter.Proof.RbInsert

/-!
# Deletion

A node with at most one child is taken out, and if it was black, `deleteblack` mends the balance. It is given the node
that was taken out, not the child in its place, so its first pass takes the place to be on the right. It does not stop at
the root, where it paints the sentinel red, and it does not stop after the last rotation on the left.

* `Mends`: the way up from a place on which none of this happens.
* `deletePass_spec`: a pass of the loop.
* `deleteLoop_spec`: the loop.
* `delete_spec`: deletion.
-/

namespace Ipfilter.Rb

open RedBlack RedBlack.RbTree
open Option (bind_eq_some_iff)

variable {D K : Type} [LinearOrder K] {h h' : Head D} {x y p r node parent : Ref} {d e : Bool}
  {c c' : Colour} {k : D} {s t u : RbTree ℕ} {i j n : ℕ} {fs gs : List (Frame ℕ)} {f g : Frame ℕ}
  {cmp : D → D → ℤ} {key : D → K} {fuel m : ℕ}

/-! ## What `deleteblack` can do -/

/-- The child of a node on one side. -/
def child (d : Bool) : RbTree ℕ → RbTree ℕ
  | .leaf => .leaf
  | .node _ l _ r => if d then r else l

/-- The node across a place, after a red one was rotated away. -/
def across (f : Frame ℕ) : RbTree ℕ := if f.sib.colour = .red then child f.side f.sib else f.sib

/-- **The way up on which `deleteblack` mends the balance:** it ends, before the root, at a red node, or with a rotation
on the right. -/
def Mends : List (Frame ℕ) → Prop
  | [] => False
  | f :: fs =>
    if (child false (across f)).colour = .black ∧ (child true (across f)).colour = .black then
      f.sib.colour = .red ∨ f.colour = .red ∨ Mends fs
    else f.side = true

@[simp] theorem child_near : child d (bin d c s i t) = s := by cases d <;> rfl

@[simp] theorem child_far : child (!d) (bin d c s i t) = t := by cases d <;> rfl

theorem children_black : ((child false t).colour = .black ∧ (child true t).colour = .black) ↔
    (child d t).colour = .black ∧ (child (!d) t).colour = .black := by
  cases d
  · rfl
  · exact and_comm

/-! ## Passes -/

theorem Holds.isBlack (ht : Holds h (fill fs t)) : h.isBlack (ref t) = true ↔ t.colour = .black := by
  rw [Head.isBlack, decide_eq_true_iff]
  cases t with
  | leaf => simp [ref, colour]
  | node c l i r =>
    have hc : (h.cell (.node i)).colour = c := ht.colour_ref
    simp [ref, colour, hc]

@[simp] theorem deleteRed_data : ((deleteRed d h parent).cell y).data = (h.cell y).data := by
  unfold deleteRed
  dsimp only
  split_ifs <;> simp

@[simp] theorem deleteRed_count : (deleteRed d h parent).count = h.count := by
  unfold deleteRed
  dsimp only
  split_ifs <;> simp

@[simp] theorem deletePass_data : ((deletePass d h parent).head.cell y).data = (h.cell y).data := by
  unfold deletePass deleteNear deleteFar
  dsimp only
  split_ifs <;> simp

@[simp] theorem deletePass_count : (deletePass d h parent).head.count = h.count := by
  unfold deletePass deleteNear deleteFar
  dsimp only
  split_ifs <;> simp

/-- **A red node across** is rotated away. -/
theorem deleteRed_spec (ht : Holds h (fill (f :: fs) t)) (hf : Fit (f :: fs) (n + 1)) :
    ∃ g gs, Holds (deleteRed f.side h (.node f.a)) (fill (g :: gs) t) ∧ Fit (g :: gs) (n + 1) ∧
      (fill (g :: gs) t).all = (fill (f :: fs) t).all ∧ g.side = f.side ∧ g.a = f.a ∧ g.sib = across f ∧
      g.sib.colour = .black ∧ (f.sib.colour = .red ∧ g.colour = .red ∨ f.sib.colour = .black ∧ g = f ∧ gs = fs) := by
  have hf' : Holds h (fill fs (bin f.side f.colour t f.a f.sib)) := ht
  have hlink := hf'.node.2.2.2
  have hcol : (h.cell (ref f.sib)).colour = f.sib.colour := (holds_far.1 hf').colour_ref
  obtain ⟨hsib, hred, hfs⟩ := hf
  cases hc : f.sib.colour with
  | black =>
    refine ⟨f, fs, ?_, ⟨hsib, hred, hfs⟩, rfl, rfl, rfl, ?_, hc, .inr ⟨rfl, rfl, rfl⟩⟩
    · unfold deleteRed
      rw [hlink, if_neg (by simp [hcol, hc])]
      exact ht
    · simp [across, hc]
  | red =>
    obtain ⟨c, s, k, u, hs⟩ := exists_bin f.side (t := f.sib) (hsib.ne_leaf)
    obtain rfl : c = .red := by rw [hs, colour_bin] at hc; exact hc
    rw [hs] at hsib
    obtain ⟨hbs, hbu, hsc, huc⟩ := balanced_red.1 hsib
    have hfc : f.colour = .black := by
      cases hfc : f.colour with
      | black => rfl
      | red => exact absurd ((hred hfc).1.symm.trans hc) (by simp)
    rw [hfc] at hf' hfs
    -- the two nodes change colours, and the upper one goes down
    have h1 : Holds h (fill fs (bin f.side .black t f.a (bin f.side .red s k u))) := by rw [← hs]; exact hf'
    have h2 := (holds_far.1 h1).paint .black
    have h3 := (holds_far.2 h2).paint .red
    refine ⟨⟨f.side, .red, f.a, s⟩, ⟨f.side, .black, k, u⟩ :: fs, ?_, ?_, ?_, rfl, rfl, ?_, hsc,
      .inl ⟨rfl, rfl⟩⟩
    · unfold deleteRed
      rw [hlink, if_pos (by rw [hcol, hc]), hs, ref_bin]
      exact h3.rotate
    · exact ⟨hbs, fun _ => ⟨hsc, rfl, by simp⟩, hbu, by simp, hfs⟩
    · change (fill fs (bin f.side .black (bin f.side .red t f.a s) k u)).all =
        (fill fs (bin f.side f.colour t f.a f.sib)).all
      rw [hs]
      exact all_fill_congr all_rotate
    · rw [across, if_pos hc, hs, child_near]

/-- **A red node on the near side** is rotated to the far side. -/
theorem deleteNear_spec (ht : Holds h (fill (f :: fs) t)) (hsib : f.sib = bin f.side .black s j u)
    (hred : ¬(s.colour = .black ∧ u.colour = .black)) :
    ∃ s' j' u', Holds (deleteNear f.side h (.node j))
      (fill (⟨f.side, f.colour, f.a, bin f.side .black s' j' u'⟩ :: fs) t) ∧
      (bin f.side .black s' j' u').all = f.sib.all ∧ u'.colour = .red ∧
      ∀ n, Balanced f.sib (n + 1) → Balanced s' n ∧ Balanced u' n := by
  have hf' : Holds h (fill fs (bin f.side f.colour t f.a (bin f.side .black s j u))) := by rw [← hsib]; exact ht
  have hj := holds_far.1 hf'
  have hblack := (holds_far.1 hj).isBlack
  unfold deleteNear
  rw [hj.node.2.2.2, hj.node.2.2.1]
  cases huc : u.colour with
  | red =>
    refine ⟨s, j, u, ?_, by rw [hsib], huc, fun n hn => ?_⟩
    · rw [if_neg (by rw [hblack, huc]; simp)]
      exact hf'
    · rw [hsib] at hn
      exact balanced_black.1 hn
  | black =>
    have hsc : s.colour = .red := by
      cases hsc : s.colour with
      | red => rfl
      | black => exact absurd ⟨hsc, huc⟩ hred
    obtain ⟨c, s₁, k, s₂, hs⟩ := exists_bin f.side (t := s) (by rintro rfl; cases hsc)
    obtain rfl : c = .red := by rw [hs, colour_bin] at hsc; exact hsc
    rw [if_pos (hblack.2 huc), hs, ref_bin]
    dsimp only
    rw [if_pos (by simp)]
    rw [hs] at hj
    have h1 := (holds_near.1 hj).paint .black
    have h2 := (holds_near.2 h1).paint .red
    rw [bin_flip, bin_flip f.side .black s₁] at h2
    have h3 := h2.rotate
    rw [bin_flip, Bool.not_not, bin_flip (!f.side), Bool.not_not] at h3
    refine ⟨s₁, k, bin f.side .red s₂ j u, holds_near.1 (holds_far.2 h3), ?_, colour_bin, fun n hn => ?_⟩
    · rw [hsib, hs]
      exact all_rotate.symm
    · rw [hsib, hs] at hn
      obtain ⟨hbs, hbu⟩ := balanced_black.1 hn
      obtain ⟨h₁, h₂, hc₁, hc₂⟩ := balanced_red.1 hbs
      exact ⟨h₁, balanced_red.2 ⟨h₂, hbu, hc₂, huc⟩⟩

/-- **The last rotation.** -/
theorem deleteFar_spec (ht : Holds h (fill (f :: fs) t)) (hsib : f.sib = bin f.side c s j u) (huc : u.colour = .red) :
    Holds (deleteFar f.side h (.node f.a) (.node j))
      (fill fs (bin f.side f.colour (bin f.side .black t f.a s) j (u.paint .black))) := by
  have hf' : Holds h (fill fs (bin f.side f.colour t f.a (bin f.side c s j u))) := by rw [← hsib]; exact ht
  obtain ⟨c', u₁, k, u₂, hu⟩ := exists_bin f.side (t := u) (by rintro rfl; cases huc)
  obtain rfl : c' = .red := by rw [hu, colour_bin] at huc; exact huc
  rw [hu] at hf' ⊢
  have hcol : (h.cell (.node f.a)).colour = f.colour := hf'.node.2.1
  have h1 := (holds_far.1 hf').paint f.colour
  have h2 := (holds_far.2 h1).paint .black
  have h3 := holds_far.1 (holds_far.1 h2)
  have hlink := (holds_far.1 h2).node.2.2.2
  have h4 := holds_far.2 (holds_far.2 (h3.paint .black))
  unfold deleteFar
  dsimp only
  rw [hcol, hlink, ref_bin, if_pos (by simp), paint_bin]
  exact h4.rotate

/-- **A red node two steps across:** the rotations mend the balance. -/
theorem deleteTurn_spec (ht : Holds h (fill (f :: fs) t)) (hb : Balanced t n) (hf : Fit (f :: fs) (n + 1))
    (hsib : f.sib = bin f.side .black s j u) (hred : ¬(s.colour = .black ∧ u.colour = .black)) :
    ∃ T, Holds (deleteFar f.side (deleteNear f.side h (.node j)) (.node f.a)
        (((deleteNear f.side h (.node j)).cell (.node f.a)).link (!f.side))) T ∧
      T.all = (fill (f :: fs) t).all ∧ (∃ m, Balanced T m) ∧ T.colour = .black := by
  obtain ⟨s', j', u', hnear, hall, huc, hbal⟩ := deleteNear_spec ht hsib hred
  obtain ⟨hbs, hbu⟩ := hbal n hf.1
  have hlink := (holds_near.2 hnear).node.2.2.2
  rw [ref_bin] at hlink
  have hfar := deleteFar_spec hnear rfl huc
  rw [hlink]
  have hT : Balanced (bin f.side f.colour (bin f.side .black t f.a s') j' (u'.paint .black)) (f.colour.weigh (n + 1)) := by
    refine balanced_bin.2 ⟨n + 1, rfl, balanced_black.2 ⟨hb, hbs⟩, hbu.blacken huc, fun _ => ⟨colour_bin, ?_⟩⟩
    cases u' <;> rfl
  refine ⟨_, hfar, ?_, hf.2.2.fill hT fun hhue => ?_, ?_⟩
  · change (fill fs _).all = (fill fs (bin f.side f.colour t f.a f.sib)).all
    refine all_fill_congr ?_
    calc (bin f.side f.colour (bin f.side .black t f.a s') j' (u'.paint .black)).all
        = (bin f.side f.colour t f.a (bin f.side .black s' j' (u'.paint .black))).all := all_rotate
      _ = (bin f.side f.colour t f.a f.sib).all := all_bin_congr rfl ((all_bin_congr rfl all_paint).trans hall)
  · rw [colour_bin]
    cases hc : f.colour with
    | black => rfl
    | red => exact absurd (hhue.symm.trans (hf.2.1 hc).2.1) (by simp)
  · cases fs with
    | nil =>
      rw [fill, colour_bin]
      cases hc : f.colour with
      | black => rfl
      | red => exact absurd rfl (hf.2.1 hc).2.2
    | cons g gs => exact hf.2.2.colour (by simp) _

/-- **What is left after a pass:** the tree `T` is mended, or the place above is short of a black node. -/
inductive Passed (h' : Head D) (f : Frame ℕ) (fs : List (Frame ℕ)) (t : RbTree ℕ) (n : ℕ) : Pass D → Prop
  /-- The node above is red, and will be painted black. -/
  | red (p : Ref) (T : RbTree ℕ) : (h'.cell (.node f.a)).colour = .red → Holds (h'.setColour (.node f.a) .black) T →
      T.all = (fill (f :: fs) t).all → (∃ m, Balanced T m) → T.colour = .black →
        Passed h' f fs t n ⟨h', .node f.a, p, false⟩
  /-- A rotation. -/
  | turn (p : Ref) (T : RbTree ℕ) :
      ¬((child false (across f)).colour = .black ∧ (child true (across f)).colour = .black) →
      Holds h' T → T.all = (fill (f :: fs) t).all → (∃ m, Balanced T m) → T.colour = .black →
      Passed h' f fs t n ⟨h', (h'.cell .top).link true, p, f.side⟩
  /-- Both sides have one black node less. -/
  | up (u : RbTree ℕ) : (child false (across f)).colour = .black ∧ (child true (across f)).colour = .black →
      f.colour = .black → f.sib.colour = .black → u.all = f.sib.all →
      Holds h' (fill fs (bin f.side .black t f.a u)) → Balanced (bin f.side .black t f.a u) (n + 1) → Fit fs (n + 2) →
      Passed h' f fs t n ⟨h', .node f.a, up fs, false⟩

/-- **A pass.** -/
theorem deletePass_spec (ht : Holds h (fill (f :: fs) t)) (hb : Balanced t n) (hf : Fit (f :: fs) (n + 1)) :
    Passed (deletePass f.side h (.node f.a)).head f fs t n (deletePass f.side h (.node f.a)) := by
  obtain ⟨⟨gd, gc, ga, gsib⟩, gs, hg, hfit, hall, hside, ha, hacross, hblack, hcases⟩ := deleteRed_spec ht hf
  dsimp only at hside ha hacross hblack hcases
  subst hside ha
  have hfit' := hfit
  obtain ⟨hsib, hred, hgs⟩ := hfit
  obtain ⟨c, s, j, u, rfl⟩ := exists_bin f.side (t := gsib) hsib.ne_leaf
  obtain rfl : c = .black := by rw [colour_bin] at hblack; exact hblack
  have hkids : ((child false (across f)).colour = .black ∧ (child true (across f)).colour = .black) ↔
      s.colour = .black ∧ u.colour = .black := by
    rw [← hacross, children_black, child_near, child_far]
  have hj := holds_far.1 (holds_near.2 hg)
  obtain ⟨hbs, hbu⟩ := balanced_black.1 hsib
  have hlink : ((deleteRed f.side h (.node f.a)).cell (.node f.a)).link (!f.side) = .node j := by
    have hl := (holds_near.2 hg).node.2.2.2
    rw [ref_bin] at hl
    exact hl
  have htest : ((deleteRed f.side h (.node f.a)).isBlack (((deleteRed f.side h (.node f.a)).cell (.node j)).link false) &&
      (deleteRed f.side h (.node f.a)).isBlack (((deleteRed f.side h (.node f.a)).cell (.node j)).link true)) = true ↔
      s.colour = .black ∧ u.colour = .black := by
    rw [Bool.and_eq_true, ← (holds_near.1 hj).isBlack, ← (holds_far.1 hj).isBlack, ← hj.node.2.2.1, ← hj.node.2.2.2]
    cases f.side
    · rfl
    · exact and_comm
  unfold deletePass
  dsimp only
  rw [hlink]
  by_cases hsu : s.colour = .black ∧ u.colour = .black
  · rw [if_pos (htest.2 hsu)]
    have hpaint := holds_far.2 (hj.paint .red)
    have hbal : Balanced (bin f.side .black t f.a (bin f.side .red s j u)) (n + 1) :=
      balanced_black.2 ⟨hb, balanced_red.2 ⟨hbs, hbu, hsu⟩⟩
    cases hgc : gc with
    | red =>
      rw [hgc] at hpaint hgs
      refine .red _ (fill gs (bin f.side .black t f.a (bin f.side .red s j u))) hpaint.node.2.1 (hpaint.paint .black) ?_
        (hgs.fill hbal fun _ => colour_bin) (hgs.colour (hred hgc).2.2 _)
      rw [← hall]
      exact all_fill_congr (all_bin_congr rfl (all_bin_congr rfl rfl))
    | black =>
      rw [hgc] at hpaint hgs
      obtain ⟨-, hr⟩ | ⟨hfb, hgf, rfl⟩ := hcases
      · exact absurd (hgc.symm.trans hr) (by simp)
      · have hfc : f.colour = .black := (congrArg Frame.colour hgf).symm.trans hgc
        have hfs : f.sib = bin f.side .black s j u := (congrArg Frame.sib hgf).symm
        rw [hpaint.node.1]
        exact .up _ (hkids.2 hsu) hfc hfb (hfs ▸ all_bin_congr rfl rfl) hpaint hbal hgs
  · rw [if_neg (fun hb => hsu (htest.1 hb))]
    obtain ⟨T, hT, hallT, hbal, hroot⟩ := deleteTurn_spec hg hb hfit' rfl hsu
    exact .turn _ T (hkids.not.2 hsu) hT (hallT.trans hall) hbal hroot

/-! ## The loop -/

theorem deleteLoop_mono {q : Head D × Ref} (heq : deleteLoop fuel h parent node = some q) (hm : fuel ≤ m) :
    deleteLoop m h parent node = some q := by
  induction fuel generalizing m h node parent with
  | zero => cases heq
  | succ fuel ih =>
    obtain ⟨m, rfl⟩ : ∃ m', m = m' + 1 := ⟨m - 1, by omega⟩
    unfold deleteLoop at heq ⊢
    dsimp only at heq ⊢
    split_ifs at heq ⊢ with h₁ h₂
    · exact heq
    · exact ih heq (by omega)
    · exact heq

/-- The loop leaves alone what the nodes hold. -/
theorem deleteLoop_data {fuel : ℕ} {q : Head D × Ref} (heq : deleteLoop fuel h parent node = some q) :
    (∀ y, (q.1.cell y).data = (h.cell y).data) ∧ q.1.count = h.count := by
  induction fuel generalizing h node parent with
  | zero => cases heq
  | succ fuel ih =>
    unfold deleteLoop at heq
    dsimp only at heq
    split_ifs at heq with h₁ h₂
    · cases heq
      exact ⟨fun y => deletePass_data, deletePass_count⟩
    · obtain ⟨hdata, hcount⟩ := ih heq
      exact ⟨fun y => (hdata y).trans deletePass_data, hcount.trans deletePass_count⟩
    · cases heq
      exact ⟨fun _ => rfl, rfl⟩

/-- The last assignment of `deleteblack`. -/
def finish (q : Head D × Ref) : Head D := if q.2 ≠ .zero then q.1.setColour q.2 .black else q.1

/-- **The loop mends the balance** of a place that is short of a black node. -/
theorem deleteLoop_spec (hm : Mends fs) (ht : Holds h (fill fs t)) (hb : Balanced t n) (hf : Fit fs (n + 1))
    (hnode : h.isBlack node = true ∧ node ≠ .top) (hside : (!decide ((h.cell (up fs)).link false = node)) = upSide fs) :
    ∃ fuel q T, deleteLoop fuel h (up fs) node = some q ∧ Holds (finish q) T ∧ T.all = (fill fs t).all ∧
      (∃ m, Balanced T m) ∧ T.colour = .black := by
  induction fs generalizing h t n node with
  | nil => exact hm.elim
  | cons f fs ih =>
    have hstep : ∀ fuel, deleteLoop (fuel + 1) h (up (f :: fs)) node =
        if (deletePass f.side h (.node f.a)).stop then
          some ((deletePass f.side h (.node f.a)).head, (deletePass f.side h (.node f.a)).node)
        else deleteLoop fuel (deletePass f.side h (.node f.a)).head (deletePass f.side h (.node f.a)).parent
          (deletePass f.side h (.node f.a)).node := fun fuel => by
      rw [deleteLoop, if_pos hnode, hside]
      rfl
    have hpass := deletePass_spec ht hb hf
    generalize deletePass f.side h (.node f.a) = r at hstep hpass
    generalize hr : r.head = h' at hpass
    cases hpass with
    | red p T hred hT hall hbal hroot =>
      refine ⟨2, (h', .node f.a), T, ?_, ?_, hall, hbal, hroot⟩
      · rw [hstep, if_neg (by simp)]
        dsimp only
        rw [deleteLoop, if_neg]
        simp [Head.isBlack, hred]
      · rw [finish, if_pos (by simp)]
        exact hT
    | turn p T hkids hT hall hbal hroot =>
      have hright : f.side = true := by
        rw [Mends, if_neg hkids] at hm
        exact hm
      refine ⟨1, (h', (h'.cell .top).link true), T, ?_, ?_, hall, hbal, hroot⟩
      · rw [hstep, if_pos hright]
      · have hne : T ≠ .leaf := by
          rintro rfl
          have hlen := (all_fill_perm (f :: fs) t).length_eq
          rw [← hall] at hlen
          simp [RbTree.all, around] at hlen
        have hpaint := hT.blacken hne
        rw [← hroot, paint_colour] at hpaint
        rw [finish, if_pos (by rw [hT.root]; exact fun hz => hne (ref_eq_zero.1 hz)), ← hroot]
        exact hpaint
    | up u hkids hfc hsc hall hT hbal hfit =>
      have hmends : Mends fs := by
        rw [Mends, if_pos hkids] at hm
        rcases hm with hm | hm | hm
        · exact absurd (hsc.symm.trans hm) (by simp)
        · exact absurd (hfc.symm.trans hm) (by simp)
        · exact hm
      have hblack : h'.isBlack (.node f.a) = true := by
        have hb' := hT.isBlack
        rw [ref_bin, colour_bin] at hb'
        exact hb'.2 rfl
      obtain ⟨fuel, q, T, hloop, hT', hall', hbal', hroot⟩ := ih hmends hT hbal hfit ⟨hblack, by simp⟩ hT.side_test
      refine ⟨fuel + 1, q, T, ?_, hT', hall'.trans ?_, hbal', hroot⟩
      · rw [hstep, if_neg (by simp)]
        exact hloop
      · exact all_fill_congr (all_bin_congr rfl hall)

theorem deleteblack_mono (heq : deleteblack fuel h parent node = some h') (hm : fuel ≤ m) :
    deleteblack m h parent node = some h' := by
  obtain ⟨q, hq, heq⟩ := bind_eq_some_iff.1 heq
  exact bind_eq_some_iff.2 ⟨q, deleteLoop_mono hq hm, heq⟩

theorem deleteblack_data {fuel : ℕ} (heq : deleteblack fuel h parent node = some h') :
    (∀ y, (h'.cell y).data = (h.cell y).data) ∧ h'.count = h.count := by
  obtain ⟨q, hq, heq⟩ := bind_eq_some_iff.1 heq
  obtain ⟨hdata, hcount⟩ := deleteLoop_data hq
  cases heq
  by_cases hz : q.2 ≠ .zero
  · simp only [if_pos hz, setColour_data, setColour_count]
    exact ⟨hdata, hcount⟩
  · simp only [if_neg hz]
    exact ⟨hdata, hcount⟩

/-! ## Taking a node out -/

@[simp] theorem splice_data {child : Ref} : ((h.splice node child parent).cell y).data = (h.cell y).data := by
  unfold Head.splice
  dsimp only
  split_ifs <;> simp

@[simp] theorem splice_colour {child : Ref} : ((h.splice node child parent).cell y).colour = (h.cell y).colour := by
  unfold Head.splice
  dsimp only
  split_ifs <;> simp

@[simp] theorem splice_count {child : Ref} : (h.splice node child parent).count = h.count := by
  unfold Head.splice
  dsimp only
  split_ifs <;> simp

/-- **The only child takes the place of the node.** -/
theorem Holds.splice (ht : Holds h (fill fs (bin d c s i .leaf))) :
    Holds (h.splice (.node i) (ref s) (up fs)) (fill fs s) := by
  obtain ⟨hspells, haround⟩ := ht.at
  obtain ⟨-, -, -, -, hs, -⟩ := spells_bin.1 hspells
  rw [ref_bin] at haround
  obtain ⟨hnt, hnf, hdis⟩ := nodup_fill.1 ht.nodup
  obtain ⟨his, -, hns, -, -⟩ := nodup_bin.1 hnt
  have hdis' : ∀ k ∈ s.all, k ∉ around fs := fun k hk => hdis k (mem_bin.2 (.inr (.inl hk)))
  have hup : ref s ≠ up fs := by
    cases fs with
    | nil => exact ref_ne_top
    | cons f fs => exact fun heq => hdis' f.a (mem_of_ref heq) (by simp [around])
  have hparent : ∀ y, ((h.splice (.node i) (ref s) (up fs)).cell y).parent =
      if y = ref s ∧ ref s ≠ .zero then up fs else (h.cell y).parent := by
    intro y
    unfold Head.splice
    by_cases hz : ref s = .zero <;> simp only [hz, ne_eq, not_true, if_false, if_true, not_false_iff] <;>
      split_ifs <;> simp_all
  have hlink : ∀ y e, ((h.splice (.node i) (ref s) (up fs)).cell y).link e =
      if y = up fs ∧ e = upSide fs then ref s else (h.cell y).link e := by
    intro y e
    have htest := ht.side false
    unfold Head.splice
    cases hus : upSide fs <;> by_cases hz : ref s = .zero <;> simp [hz, htest, hus, up_ne_zero]
  have hsame : ∀ k, Ref.node k ≠ ref s → Ref.node k ≠ up fs →
      Same h (h.splice (.node i) (ref s) (up fs)) (.node k) := fun k hks hku =>
    ⟨by simp [hparent, hks], splice_colour, fun e => by simp [hlink, hku]⟩
  have hnup : ∀ k, k ∉ around fs → Ref.node k ≠ up fs := by
    intro k hk
    cases fs with
    | nil => simp [up]
    | cons f fs =>
      rintro ⟨⟩
      exact hk (by simp [around])
  refine ht.edit ⟨?_, splice_colour, ?_, splice_colour, fun e => ?_⟩ (nodup_fill.2 ⟨hns, hnf, hdis'⟩)
    (hs.rehang hns (fun k hk hks => hsame k hks (hnup k (hdis' k hk))) fun hz => ⟨?_, splice_colour, fun e => ?_⟩)
    (haround.refill hnf (fun k hk hku => hsame k ?_ hku) ⟨?_, splice_colour⟩ ?_ ?_ fun hne => ?_)
  · rw [hlink]
    cases fs <;> simp [up, upSide]
  · rw [hparent]
    simp [eq_comm]
  · rw [hlink]
    simp [(up_ne_zero : up fs ≠ .zero).symm]
  · simp [hparent, hz]
  · simp [hlink, hup]
  · exact fun heq => hdis' k (mem_of_ref heq.symm) hk
  · simp [hparent, hup.symm]
  · simp [hlink]
  · simp [hlink]
  · rw [hlink]
    cases fs with
    | nil => exact absurd rfl hne
    | cons f fs => simp [up]

/-! ## The whole of it -/

/-- **When a deletion mends the balance:** the node has at most one child, and it is red, or it is on the right of a
node and `Mends` holds for its place. -/
def Mendable (h : Head D) (i : ℕ) : Prop :=
  ∃ fs d c s, Holds h (fill fs (bin d c s i .leaf)) ∧ (c = .red ∨ fs ≠ [] ∧ upSide fs = true ∧ Mends fs)

theorem Spells.unique (ht : Spells h p t) (hs : Spells h r s) (href : ref t = ref s) : t = s := by
  induction t generalizing p r s with
  | leaf => exact (ref_eq_zero.1 href.symm).symm
  | node c l i u ihl ihu =>
    cases s with
    | leaf => cases href
    | node c' l' i' u' =>
      cases href
      obtain ⟨-, rfl, hl, hu, hsl, hsu⟩ := ht
      obtain ⟨-, rfl, hl', hu', hsl', hsu'⟩ := hs
      rw [ihl hsl hsl' (hl.symm.trans hl'), ihu hsu hsu' (hu.symm.trans hu')]

/-- The head holds one tree. -/
theorem Holds.unique (ht : Holds h t) (hs : Holds h s) : t = s := ht.spells.unique hs.spells (ht.root.symm.trans hs.root)

theorem rebalance_mono (heq : h.rebalance fuel c parent node = some h') (hm : fuel ≤ m) :
    h.rebalance m c parent node = some h' := by
  cases c with
  | red => exact heq
  | black =>
    obtain ⟨h₁, hq, heq⟩ := bind_eq_some_iff.1 heq
    exact bind_eq_some_iff.2 ⟨h₁, deleteblack_mono hq hm, heq⟩

theorem leftmost_mono (heq : leftmost h fuel node = some x) (hm : fuel ≤ m) : leftmost h m node = some x := by
  induction fuel generalizing m node with
  | zero => cases heq
  | succ fuel ih =>
    obtain ⟨m, rfl⟩ : ∃ m', m = m' + 1 := ⟨m - 1, by omega⟩
    unfold leftmost at heq ⊢
    split_ifs at heq ⊢
    · exact heq
    · exact ih heq (by omega)

theorem delete_mono (heq : delete fuel h node = some h') (hm : fuel ≤ m) : delete m h node = some h' := by
  unfold delete at heq ⊢
  split_ifs at heq ⊢
  · exact rebalance_mono heq hm
  · exact rebalance_mono heq hm
  · obtain ⟨x, hx, heq⟩ := bind_eq_some_iff.1 heq
    exact bind_eq_some_iff.2 ⟨x, leftmost_mono hx hm, rebalance_mono heq hm⟩

/-- The branch that is taken for a node with at most one child. -/
theorem delete_eq (ht : Holds h (fill fs (bin d c s i .leaf))) (fuel : ℕ) :
    delete fuel h (.node i) = deleteOne fuel h (.node i) (ref s) := by
  obtain ⟨-, -, hl, hr⟩ := ht.node
  unfold delete
  cases d with
  | false =>
    rw [Bool.not_false] at hr
    have hr' : (h.cell (.node i)).link true = .zero := hr
    rw [hl, hr', if_pos rfl]
    by_cases hz : ref s = .zero
    · rw [if_pos hz, hz]
    · rw [if_neg hz]
  | true =>
    have hr' : (h.cell (.node i)).link false = .zero := hr
    rw [hr', hl, if_pos rfl]

/-- **Deletion** of a node that mends the balance. -/
theorem delete_spec (hg : Good h key t) (hm : Mendable h i) :
    ∃ fuel h' T, delete fuel h (.node i) = some h' ∧ Good h' key T ∧ t.all.Perm (i :: T.all) ∧
      ∀ y, (h'.cell y).data = (h.cell y).data := by
  obtain ⟨fs, d, c, s, hold, hc⟩ := hm
  obtain rfl := hg.holds.unique hold
  obtain ⟨m, hbal⟩ := hg.balanced
  obtain ⟨n, hfit, hbin, hhue⟩ := fit_of_balanced hbal hg.root
  have hspl := hold.splice
  have hnode := hold.node
  have hperm : (fill fs (bin d c s i .leaf)).all.Perm (i :: (fill fs s).all) := by
    refine (all_fill_perm fs _).trans (.trans ?_ ((all_fill_perm fs s).symm.cons i))
    cases d with
    | false => simp [bin, RbTree.all]
    | true => simp [bin, RbTree.all]
  -- the order and the count, whatever is done to the balance
  have hgood : ∀ {h' : Head D} {T : RbTree ℕ}, Holds h' T → T.all = (fill fs s).all → (∃ m, Balanced T m) →
      T.colour = .black → (∀ y, (h'.cell y).data = (h.cell y).data) → h'.count = h.count →
      Good { h' with count := h'.count - 1 } key T := by
    intro h' T hT hall hbT hroot hdata hcount
    refine ⟨hT.frame fun y _ => ⟨rfl, rfl, fun _ => rfl⟩, ?_, hbT, hroot, ?_⟩
    · rw [Sorted, hall]
      have hsub : List.Sublist (fill fs s).all (fill fs (bin d c s i .leaf)).all := by
        rw [all_fill, all_fill]
        refine (List.Sublist.append_left ?_ _).append_right _
        cases d <;> simp [bin, RbTree.all]
      refine (List.Pairwise.sublist hsub hg.sorted).imp fun hlt => ?_
      dsimp only
      rw [hdata, hdata]
      exact hlt
    · have hlen := hperm.length_eq
      have hcnt := hg.count
      rw [← hall] at hlen
      simp only [List.length_cons] at hlen
      dsimp only
      rw [hcount, hcnt, hlen]
      simp
  cases c with
  | red =>
    obtain ⟨hbs, hbl, hsc, -⟩ := balanced_red.1 hbin
    refine ⟨0, { h.splice (.node i) (ref s) (up fs) with count := (h.splice (.node i) (ref s) (up fs)).count - 1 },
      fill fs s, ?_, hgood hspl rfl (hfit.fill hbs fun _ => hsc) ?_ (fun _ => splice_data) splice_count, hperm,
      fun _ => splice_data⟩
    · rw [delete_eq hold, deleteOne, hnode.1, hnode.2.1]
      rfl
    · cases fs with
      | nil => exact absurd hg.root (by simp [fill])
      | cons f fs => exact hfit.colour (by simp) s
  | black =>
    obtain ⟨hne, hside, hmends⟩ : fs ≠ [] ∧ upSide fs = true ∧ Mends fs := hc.resolve_left (by simp)
    obtain ⟨n', hn, hbs, hbl, -⟩ := balanced_bin.1 hbin
    obtain rfl : n = n' + 1 := hn
    -- the node is not in the tree any more, and is taken to be on the right
    have hnot : ((h.splice (.node i) (ref s) (up fs)).cell (up fs)).link false ≠ .node i := by
      have hnd := hperm.nodup_iff.1 hold.nodup
      exact hspl.absent (List.nodup_cons.1 hnd).1 false
    have hblack : (h.splice (.node i) (ref s) (up fs)).isBlack (.node i) = true := by
      simp [Head.isBlack, hnode.2.1]
    obtain ⟨fuel, q, T, hloop, hT, hall, hbT, hroot⟩ :=
      deleteLoop_spec hmends hspl hbs hfit ⟨hblack, by simp⟩ (by rw [hside]; simp [hnot])
    have hdel : deleteblack fuel (h.splice (.node i) (ref s) (up fs)) (up fs) (.node i) = some (finish q) :=
      bind_eq_some_iff.2 ⟨q, hloop, rfl⟩
    obtain ⟨hdata', hcount'⟩ := deleteblack_data hdel
    refine ⟨fuel, { finish q with count := (finish q).count - 1 }, T, ?_,
      hgood hT hall hbT hroot (fun y => (hdata' y).trans splice_data) (hcount'.trans splice_count), ?_,
      fun y => (hdata' y).trans splice_data⟩
    · rw [delete_eq hold, deleteOne, hnode.1, hnode.2.1]
      exact bind_eq_some_iff.2 ⟨_, hdel, rfl⟩
    · rw [hall]
      exact hperm

end Ipfilter.Rb
