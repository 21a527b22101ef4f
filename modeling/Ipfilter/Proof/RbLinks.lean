import Ipfilter.Spec.Rb

/-!
# The tree in memory

* `Spells`: the cells spell out a tree below a node. `Around`: they spell out the nodes above a place.
* `Holds`: the head holds a tree.
* `Holds.paint`, `Holds.rotate`: the two edits that all the others are made of.
-/

namespace Ipfilter.Rb

open RedBlack RedBlack.RbTree List

variable {D : Type} {h h' : Head D} {x y p r : Ref} {d e : Bool} {c c' : Colour} {k : D}

/-! ## Edits of one field -/

@[simp] theorem setLink_link : ((h.setLink x d r).cell y).link e = if y = x ∧ e = d then r else (h.cell y).link e := by
  unfold Head.setLink
  by_cases hy : y = x
  · by_cases he : e = d <;> simp [hy, he]
  · simp [hy]

@[simp] theorem setLink_parent : ((h.setLink x d r).cell y).parent = (h.cell y).parent := by
  unfold Head.setLink
  by_cases hy : y = x <;> simp [hy]

@[simp] theorem setLink_colour : ((h.setLink x d r).cell y).colour = (h.cell y).colour := by
  unfold Head.setLink
  by_cases hy : y = x <;> simp [hy]

@[simp] theorem setLink_data : ((h.setLink x d r).cell y).data = (h.cell y).data := by
  unfold Head.setLink
  by_cases hy : y = x <;> simp [hy]

@[simp] theorem setParent_link : ((h.setParent x r).cell y).link = (h.cell y).link := by
  unfold Head.setParent
  by_cases hy : y = x <;> simp [hy]

@[simp] theorem setParent_parent : ((h.setParent x r).cell y).parent = if y = x then r else (h.cell y).parent := by
  unfold Head.setParent
  by_cases hy : y = x <;> simp [hy]

@[simp] theorem setParent_colour : ((h.setParent x r).cell y).colour = (h.cell y).colour := by
  unfold Head.setParent
  by_cases hy : y = x <;> simp [hy]

@[simp] theorem setParent_data : ((h.setParent x r).cell y).data = (h.cell y).data := by
  unfold Head.setParent
  by_cases hy : y = x <;> simp [hy]

@[simp] theorem setColour_link : ((h.setColour x c).cell y).link = (h.cell y).link := by
  unfold Head.setColour
  by_cases hy : y = x <;> simp [hy]

@[simp] theorem setColour_parent : ((h.setColour x c).cell y).parent = (h.cell y).parent := by
  unfold Head.setColour
  by_cases hy : y = x <;> simp [hy]

@[simp] theorem setColour_colour : ((h.setColour x c).cell y).colour = if y = x then c else (h.cell y).colour := by
  unfold Head.setColour
  by_cases hy : y = x <;> simp [hy]

@[simp] theorem setColour_data : ((h.setColour x c).cell y).data = (h.cell y).data := by
  unfold Head.setColour
  by_cases hy : y = x <;> simp [hy]

@[simp] theorem setData_link : ((h.setData x k).cell y).link = (h.cell y).link := by
  unfold Head.setData
  by_cases hy : y = x <;> simp [hy]

@[simp] theorem setData_parent : ((h.setData x k).cell y).parent = (h.cell y).parent := by
  unfold Head.setData
  by_cases hy : y = x <;> simp [hy]

@[simp] theorem setData_colour : ((h.setData x k).cell y).colour = (h.cell y).colour := by
  unfold Head.setData
  by_cases hy : y = x <;> simp [hy]

@[simp] theorem setData_data : ((h.setData x k).cell y).data = if y = x then k else (h.cell y).data := by
  unfold Head.setData
  by_cases hy : y = x <;> simp [hy]

@[simp] theorem setLink_count : (h.setLink x d r).count = h.count := rfl

@[simp] theorem setParent_count : (h.setParent x r).count = h.count := rfl

@[simp] theorem setColour_count : (h.setColour x c).count = h.count := rfl

@[simp] theorem setData_count : (h.setData x k).count = h.count := rfl

/-- A rotation moves nodes, and leaves alone what they hold. -/
@[simp] theorem rotate_data : ((rotate d h x).cell y).data = (h.cell y).data := by
  unfold rotate
  dsimp only
  split_ifs <;> simp

@[simp] theorem rotate_colour : ((rotate d h x).cell y).colour = (h.cell y).colour := by
  unfold rotate
  dsimp only
  split_ifs <;> simp

@[simp] theorem rotate_count : (rotate d h x).count = h.count := by
  unfold rotate
  dsimp only
  split_ifs <;> simp

/-! ## Trees and places -/

/-- The pointer to a tree. -/
def ref : RbTree ℕ → Ref
  | .leaf => .zero
  | .node _ _ i _ => .node i

/-- **The cells spell out the tree below `p`.** -/
def Spells (h : Head D) : Ref → RbTree ℕ → Prop
  | _, .leaf => True
  | p, .node c l i r => (h.cell (.node i)).parent = p ∧ (h.cell (.node i)).colour = c ∧
      (h.cell (.node i)).link false = ref l ∧ (h.cell (.node i)).link true = ref r ∧
      Spells h (.node i) l ∧ Spells h (.node i) r

/-- The pointer to the node above a place. -/
def up : List (Frame ℕ) → Ref
  | [] => .top
  | f :: _ => .node f.a

/-- The side of that node where the place is. -/
def upSide : List (Frame ℕ) → Bool
  | [] => true
  | f :: _ => f.side

/-- **The cells spell out the nodes above a place**, with the pointer `r` to the place. -/
def Around (h : Head D) : Ref → List (Frame ℕ) → Prop
  | r, [] => (h.cell .top).link true = r
  | r, f :: fs => (h.cell (.node f.a)).parent = up fs ∧ (h.cell (.node f.a)).colour = f.colour ∧
      (h.cell (.node f.a)).link f.side = r ∧ (h.cell (.node f.a)).link (!f.side) = ref f.sib ∧
      Spells h (.node f.a) f.sib ∧ Around h (.node f.a) fs

variable {s t u : RbTree ℕ} {i j : ℕ} {fs : List (Frame ℕ)} {f : Frame ℕ}

@[simp] theorem ref_bin : ref (bin d c s i t) = .node i := by cases d <;> rfl

theorem ref_eq_zero : ref t = .zero ↔ t = .leaf := by cases t <;> simp [ref]

theorem ref_ne_top : ref t ≠ .top := by cases t <;> simp [ref]

theorem up_ne_zero : up fs ≠ .zero := by cases fs <;> simp [up]

theorem mem_of_ref (hi : ref t = .node i) : i ∈ t.all := by
  cases t with
  | leaf => cases hi
  | node c l j r =>
    cases hi
    simp [RbTree.all]

theorem spells_bin : Spells h p (bin d c s i t) ↔ (h.cell (.node i)).parent = p ∧ (h.cell (.node i)).colour = c ∧
    (h.cell (.node i)).link d = ref s ∧ (h.cell (.node i)).link (!d) = ref t ∧
    Spells h (.node i) s ∧ Spells h (.node i) t := by
  cases d <;> simp only [bin, Spells, Bool.not_false, Bool.not_true, if_true, Bool.false_eq_true, if_false]
  tauto

/-- **A tree is what is at a place, and what is around it.** -/
theorem spells_fill : Spells h .top (fill fs t) ∧ (h.cell .top).link true = ref (fill fs t) ↔
    Spells h (up fs) t ∧ Around h (ref t) fs := by
  induction fs generalizing t with
  | nil => rfl
  | cons f fs ih =>
    rw [fill, ih, spells_bin, ref_bin, Around, up]
    tauto

/-- The same link field. -/
structure Same (h h' : Head D) (x : Ref) : Prop where
  parent : (h'.cell x).parent = (h.cell x).parent
  colour : (h'.cell x).colour = (h.cell x).colour
  link : ∀ e, (h'.cell x).link e = (h.cell x).link e

theorem Spells.congr (ht : Spells h p t) (hs : ∀ i ∈ t.all, Same h h' (.node i)) : Spells h' p t := by
  induction t generalizing p with
  | leaf => trivial
  | node c l j r ihl ihr =>
    obtain ⟨h1, h2, h3, h4, h5, h6⟩ := ht
    have hj := hs j (by simp [RbTree.all])
    refine ⟨hj.parent.trans h1, hj.colour.trans h2, (hj.link _).trans h3, (hj.link _).trans h4, ihl h5 fun i hi => ?_,
      ihr h6 fun i hi => ?_⟩
    · exact hs i (by simp [RbTree.all, hi])
    · exact hs i (by simp [RbTree.all, hi])

/-- A tree is hung below another node. -/
theorem Spells.rehang (ht : Spells h p t) (hn : t.all.Nodup)
    (hs : ∀ i ∈ t.all, Ref.node i ≠ ref t → Same h h' (.node i))
    (hroot : ref t ≠ .zero → (h'.cell (ref t)).parent = r ∧ (h'.cell (ref t)).colour = (h.cell (ref t)).colour ∧
      ∀ e, (h'.cell (ref t)).link e = (h.cell (ref t)).link e) : Spells h' r t := by
  cases t with
  | leaf => trivial
  | node c l j u =>
    obtain ⟨-, h2, h3, h4, h5, h6⟩ := ht
    obtain ⟨hp, hc, hl⟩ := hroot (by simp [ref])
    simp only [RbTree.all, nodup_append, nodup_cons] at hn
    refine ⟨hp, hc.trans h2, (hl _).trans h3, (hl _).trans h4, h5.congr fun i hi => ?_, h6.congr fun i hi => ?_⟩
    · refine hs i (by simp [RbTree.all, hi]) fun hij => ?_
      cases hij
      exact hn.2.2 j hi j (by simp) rfl
    · refine hs i (by simp [RbTree.all, hi]) fun hij => ?_
      cases hij
      exact hn.2.1.1 hi

/-- The nodes around a place. -/
def around : List (Frame ℕ) → List ℕ
  | [] => []
  | f :: fs => f.a :: f.sib.all ++ around fs

theorem all_fill_perm (fs : List (Frame ℕ)) (t : RbTree ℕ) : (fill fs t).all.Perm (t.all ++ around fs) := by
  induction fs generalizing t with
  | nil => simp [fill, around]
  | cons f fs ih =>
    rw [fill, around]
    refine (ih _).trans ?_
    cases hd : f.side
    · simp only [bin, RbTree.all, Bool.false_eq_true, if_false, append_assoc, cons_append]
      exact List.Perm.refl _
    · simp only [bin, RbTree.all, if_true]
      have hswap : (f.sib.all ++ f.a :: t.all).Perm (t.all ++ f.a :: f.sib.all) := by
        refine List.perm_append_comm.trans ?_
        rw [cons_append]
        exact (perm_middle).symm
      simpa using hswap.append_right (around fs)

/-- The nodes at the place and around it are different. -/
theorem nodup_fill : (fill fs t).all.Nodup ↔ t.all.Nodup ∧ (around fs).Nodup ∧ ∀ i ∈ t.all, i ∉ around fs := by
  rw [(all_fill_perm fs t).nodup_iff, nodup_append]
  refine and_congr_right fun _ => and_congr_right fun _ => ?_
  constructor
  · intro hd i hi hi'
    exact hd i hi i hi' rfl
  · rintro hd i hi j hj rfl
    exact hd i hi hj

/-- The pointer to the place changes. -/
theorem Around.refill (ha : Around h p fs) (hn : (around fs).Nodup)
    (hs : ∀ i ∈ around fs, Ref.node i ≠ up fs → Same h h' (.node i))
    (hup : (h'.cell (up fs)).parent = (h.cell (up fs)).parent ∧ (h'.cell (up fs)).colour = (h.cell (up fs)).colour)
    (hlink : (h'.cell (up fs)).link (upSide fs) = r)
    (hother : (h'.cell (up fs)).link (!upSide fs) = (h.cell (up fs)).link (!upSide fs))
    (htop : fs ≠ [] → (h'.cell .top).link true = (h.cell .top).link true) : Around h' r fs := by
  cases fs with
  | nil => exact hlink
  | cons f fs =>
    obtain ⟨h1, h2, -, h4, h5, h6⟩ := ha
    simp only [around, nodup_cons, cons_append, nodup_append, mem_append, not_or] at hn
    obtain ⟨⟨hfs, hfr⟩, -, hfsn, hdis⟩ := hn
    -- above the first node nothing changes
    have habove : ∀ {q : Ref} {gs : List (Frame ℕ)}, Around h q gs →
        (∀ i ∈ around gs, Same h h' (.node i)) → Around h' q gs := by
      intro q gs hq hsame
      induction gs generalizing q with
      | nil => exact (htop (by simp)).trans hq
      | cons g gs ih =>
        obtain ⟨g1, g2, g3, g4, g5, g6⟩ := hq
        have hg := hsame g.a (by simp [around])
        refine ⟨hg.parent.trans g1, hg.colour.trans g2, (hg.link _).trans g3, (hg.link _).trans g4, g5.congr fun i hi => ?_,
          ih g6 fun i hi => ?_⟩
        · exact hsame i (by simp [around, hi])
        · exact hsame i (by simp [around, hi])
    refine ⟨hup.1.trans h1, hup.2.trans h2, hlink, hother.trans h4, h5.congr fun i hi => ?_, habove h6 fun i hi => ?_⟩
    · refine hs i (by simp [around, hi]) fun heq => ?_
      cases heq
      exact hfs hi
    · refine hs i (by simp [around, hi]) fun heq => ?_
      cases heq
      exact hfr hi

theorem Around.link (ha : Around h r fs) : (h.cell (up fs)).link (upSide fs) = r := by
  cases fs with
  | nil => exact ha
  | cons f fs => exact ha.2.2.1

/-! ## The head -/

/-- **The head holds the tree `t`.** The sentinel and `head->top` are as `_rb_init` leaves them. -/
structure Holds (h : Head D) (t : RbTree ℕ) : Prop where
  spells : Spells h .top t
  root : (h.cell .top).link true = ref t
  nodup : t.all.Nodup
  topLeft : (h.cell .top).link false = .zero
  topColour : (h.cell .top).colour = .black
  zeroLink : ∀ e, (h.cell .zero).link e = .zero
  zeroParent : (h.cell .zero).parent = .zero
  zeroColour : (h.cell .zero).colour = .black

theorem Holds.at (ht : Holds h (fill fs t)) : Spells h (up fs) t ∧ Around h (ref t) fs :=
  spells_fill.1 ⟨ht.spells, ht.root⟩

/-- What the cell of a node at a place holds. -/
theorem Holds.node (ht : Holds h (fill fs (bin d c s i t))) : (h.cell (.node i)).parent = up fs ∧
    (h.cell (.node i)).colour = c ∧ (h.cell (.node i)).link d = ref s ∧ (h.cell (.node i)).link (!d) = ref t := by
  obtain ⟨h1, h2, h3, h4, -, -⟩ := spells_bin.1 ht.at.1
  exact ⟨h1, h2, h3, h4⟩

/-- The child of a node, as a place. -/
theorem holds_near : Holds h (fill fs (bin d c s i t)) ↔ Holds h (fill (⟨d, c, i, t⟩ :: fs) s) := Iff.rfl

/-- The other child. -/
theorem holds_far : Holds h (fill fs (bin d c s i t)) ↔ Holds h (fill (⟨!d, c, i, s⟩ :: fs) t) := by
  rw [bin_flip]
  rfl

theorem Holds.colour_ref (ht : Holds h (fill fs t)) : (h.cell (ref t)).colour = t.colour := by
  cases t with
  | leaf => exact ht.zeroColour
  | node c l i r => exact ht.at.1.2.1

/-- The sentinel and `head->top` stay as they are. -/
structure Quiet (h h' : Head D) : Prop where
  topLeft : (h'.cell .top).link false = (h.cell .top).link false
  topColour : (h'.cell .top).colour = (h.cell .top).colour
  zero : Same h h' .zero

theorem Holds.edit (ht : Holds h s) (hq : Quiet h h') (hn : (fill fs t).all.Nodup) (hspells : Spells h' (up fs) t)
    (haround : Around h' (ref t) fs) : Holds h' (fill fs t) := by
  obtain ⟨h1, h2⟩ := spells_fill.2 ⟨hspells, haround⟩
  exact ⟨h1, h2, hn, hq.topLeft.trans ht.topLeft, hq.topColour.trans ht.topColour,
    fun e => (hq.zero.link e).trans (ht.zeroLink e), hq.zero.parent.trans ht.zeroParent,
    hq.zero.colour.trans ht.zeroColour⟩

/-- **A node is painted.** -/
theorem Holds.paint (ht : Holds h (fill fs (bin d c s i t))) (c' : Colour) :
    Holds (h.setColour (.node i) c') (fill fs (bin d c' s i t)) := by
  obtain ⟨hspells, haround⟩ := ht.at
  obtain ⟨h1, -, h3, h4, h5, h6⟩ := spells_bin.1 hspells
  have hn := ht.nodup
  have hall : (bin d c' s i t).all = (bin d c s i t).all := by cases d <;> rfl
  rw [nodup_fill] at hn
  obtain ⟨hnt, hnf, hdis⟩ := hn
  obtain ⟨his, hit, -, -, -⟩ := nodup_bin.1 hnt
  have hif : i ∉ around fs := hdis i (mem_bin.2 (.inl rfl))
  have hsame : ∀ j, j ≠ i → Same h (h.setColour (.node i) c') (.node j) :=
    fun j hj => ⟨by simp, by simp [hj], by simp⟩
  refine ht.edit ⟨by simp, by simp, ⟨by simp, by simp, by simp⟩⟩ (nodup_fill.2 ⟨hall ▸ hnt, hnf, hall ▸ hdis⟩)
    (spells_bin.2 ⟨by simpa using h1, by simp, by simpa using h3, by simpa using h4, h5.congr fun j hj => ?_,
      h6.congr fun j hj => ?_⟩) ?_
  · exact hsame j (ne_of_mem_of_not_mem hj his)
  · exact hsame j (ne_of_mem_of_not_mem hj hit)
  · rw [ref_bin] at haround ⊢
    refine haround.refill hnf (fun j hj _ => hsame j (ne_of_mem_of_not_mem hj hif)) ⟨by simp, ?_⟩
      (by simpa using haround.link) (by simp) (by simp)
    cases fs with
    | nil => simp [up]
    | cons f fs =>
      have hf : f.a ≠ i := fun hf => hif (by simp [around, hf])
      simp [up, hf]

/-- **The tests of a link find out the side.** -/
theorem Holds.side (ht : Holds h (fill fs (bin d c s i t))) (e : Bool) :
    (h.cell (up fs)).link e = .node i ↔ upSide fs = e := by
  have haround := ht.at.2
  have hif : i ∉ around fs := (nodup_fill.1 ht.nodup).2.2 i (mem_bin.2 (.inl rfl))
  rw [ref_bin] at haround
  constructor
  · intro hl
    by_contra hne
    cases fs with
    | nil =>
      obtain rfl : e = false := by simpa [upSide] using Ne.symm hne
      exact absurd (ht.topLeft.symm.trans hl) (by simp)
    | cons f fs =>
      obtain rfl : e = !f.side := by simpa [upSide, Bool.eq_not] using Ne.symm hne
      have hmem := mem_of_ref (haround.2.2.2.1.symm.trans hl)
      exact hif (by simp [around, hmem])
  · rintro rfl
    exact haround.link

/-- There is no link to a node that is not in the tree. -/
theorem Holds.absent (ht : Holds h (fill fs t)) (hi : i ∉ (fill fs t).all) (e : Bool) :
    (h.cell (up fs)).link e ≠ .node i := by
  rw [(all_fill_perm fs t).mem_iff, mem_append, not_or] at hi
  intro hl
  by_cases he : upSide fs = e
  · rw [← he, ht.at.2.link] at hl
    exact hi.1 (mem_of_ref hl)
  · cases fs with
    | nil =>
      obtain rfl : e = false := by simpa [upSide] using Ne.symm he
      exact absurd (ht.topLeft.symm.trans hl) (by simp)
    | cons f fs =>
      obtain rfl : e = !f.side := by simpa [upSide, Bool.eq_not] using Ne.symm he
      have hmem := mem_of_ref (ht.at.2.2.2.2.1.symm.trans hl)
      exact hi.2 (by simp [around, hmem])

/-- What the test of the parent's `left` finds out. -/
theorem Holds.side_test (ht : Holds h (fill fs (bin d c s i t))) :
    (!decide ((h.cell (up fs)).link false = .node i)) = upSide fs := by
  simp only [ht.side false]
  cases hs : upSide fs <;> simp

/-- The links after a rotation. -/
theorem Holds.rotate_fields (ht : Holds h (fill fs (bin d c s i (bin d c' t j u)))) (y : Ref) :
    ((Rb.rotate d h (.node i)).cell y).parent = (if y = .node i then .node j else if y = .node j then up fs
      else if y = ref t ∧ ref t ≠ .zero then .node i else (h.cell y).parent) ∧
    ∀ e, ((Rb.rotate d h (.node i)).cell y).link e = if y = .node j ∧ e = d then .node i
      else if y = up fs ∧ e = upSide fs then .node j else if y = .node i ∧ e = !d then ref t
      else (h.cell y).link e := by
  obtain ⟨h1, -, h3, h4, -, hj⟩ := spells_bin.1 ht.at.1
  obtain ⟨-, -, hj3, -, -, -⟩ := spells_bin.1 hj
  have haround := ht.at.2
  rw [ref_bin] at haround h4
  have hif : i ∉ around fs := (nodup_fill.1 ht.nodup).2.2 i (mem_bin.2 (.inl rfl))
  have hup : up fs ≠ .node i := by
    cases fs with
    | nil => simp [up]
    | cons f fs =>
      have hf : f.a ≠ i := fun hf => hif (by simp [around, hf])
      simp [up, hf]
  have hside := ht.side true
  have hparent : (h.cell (.node i)).parent = up fs := h1
  unfold Rb.rotate
  simp only [hparent, h4, hj3, up_ne_zero, if_false]
  by_cases hz : ref t = .zero <;> by_cases hs : upSide fs = true <;>
    simp [hz, hs, hup, hside]

/-- **A node is rotated down.** -/
theorem Holds.rotate (ht : Holds h (fill fs (bin d c s i (bin d c' t j u)))) :
    Holds (Rb.rotate d h (.node i)) (fill fs (bin d c' (bin d c s i t) j u)) := by
  have hfields := ht.rotate_fields
  obtain ⟨hspells, haround⟩ := ht.at
  obtain ⟨-, hi2, hi3, -, hs, hj⟩ := spells_bin.1 hspells
  obtain ⟨-, hj2, -, hj4, hst, hsu⟩ := spells_bin.1 hj
  rw [ref_bin] at haround
  have hn := ht.nodup
  have hn' : (fill fs (bin d c' (bin d c s i t) j u)).all.Nodup := by rw [all_fill_congr all_rotate]; exact hn
  rw [nodup_fill] at hn
  obtain ⟨hnt, hnf, hdis⟩ := hn
  simp only [nodup_bin, mem_bin, not_or] at hnt hdis
  obtain ⟨his, ⟨hij, hit, hiu⟩, hns, ⟨hjt, hju, hnt, hnu, htu⟩, hsd⟩ := hnt
  have hif : i ∉ around fs := hdis i (.inl rfl)
  have hjf : j ∉ around fs := hdis j (.inr (.inr (.inl rfl)))
  -- the node above is not one of those at the place
  have hup : ∀ k, k ∉ around fs → Ref.node k ≠ up fs := by
    intro k hk
    cases fs with
    | nil => simp [up]
    | cons f fs =>
      rintro ⟨⟩
      exact hk (by simp [around])
  have hupt : up fs ≠ ref t := by
    cases t with
    | leaf => exact up_ne_zero
    | node e l k r => exact fun heq => hup k (hdis k (.inr (.inr (.inr (.inl (by simp [RbTree.all])))))) heq.symm
  have hsame : ∀ k, k ≠ i → k ≠ j → Ref.node k ≠ ref t → Ref.node k ≠ up fs →
      Same h (Rb.rotate d h (.node i)) (.node k) := by
    intro k hki hkj hkt hku
    obtain ⟨hp, hl⟩ := hfields (.node k)
    refine ⟨?_, rotate_colour, fun e => ?_⟩
    · rw [hp]
      simp [hki, hkj, hkt]
    · rw [hl]
      simp [hki, hkj, hku]
  have hquiet : Quiet h (Rb.rotate d h (.node i)) := by
    refine ⟨?_, rotate_colour, ?_, rotate_colour, fun e => ?_⟩
    · rw [(hfields .top).2]
      cases fs <;> simp [up, upSide]
    · rw [(hfields .zero).1]
      simp [eq_comm]
    · rw [(hfields .zero).2]
      simp [(up_ne_zero : up fs ≠ .zero).symm]
  have hti : ref t ≠ .node i := fun heq => hit (mem_of_ref heq)
  have htj : ref t ≠ .node j := fun heq => hjt (mem_of_ref heq)
  have hrefs : ∀ k, k ∉ t.all → Ref.node k ≠ ref t := fun k hk heq => hk (mem_of_ref heq.symm)
  refine ht.edit hquiet hn' (spells_bin.2 ⟨?_, rotate_colour.trans hj2, ?_, ?_, spells_bin.2 ⟨?_, rotate_colour.trans hi2,
    ?_, ?_, hs.congr fun k hk => ?_, hst.rehang hnt (fun k hk hkt => ?_) fun hz => ⟨?_, rotate_colour, fun e => ?_⟩⟩,
    hsu.congr fun k hk => ?_⟩) ?_
  · rw [(hfields _).1]
    simp [Ne.symm hij]
  · rw [(hfields _).2]
    simp
  · rw [(hfields _).2, ← hj4]
    simp [Ne.symm hij, hup j hjf]
  · rw [(hfields _).1]
    simp
  · rw [(hfields _).2, ← hi3]
    simp [hij, hup i hif]
  · rw [(hfields _).2]
    simp [hij, hup i hif]
  · obtain ⟨hkj, hkt, -⟩ := hsd k hk
    exact hsame k (ne_of_mem_of_not_mem hk his) hkj (hrefs k hkt) (hup k (hdis k (.inr (.inl hk))))
  · exact hsame k (ne_of_mem_of_not_mem hk hit) (ne_of_mem_of_not_mem hk hjt) hkt
      (hup k (hdis k (.inr (.inr (.inr (.inl hk))))))
  · rw [(hfields _).1]
    simp [hti, htj, hz]
  · rw [(hfields _).2]
    simp [hti, htj, hupt.symm]
  · exact hsame k (ne_of_mem_of_not_mem hk hiu) (ne_of_mem_of_not_mem hk hju) (hrefs k fun hkt => htu k hkt hk)
      (hup k (hdis k (.inr (.inr (.inr (.inr hk))))))
  · rw [ref_bin]
    refine haround.refill hnf (fun k hk hku => ?_) ⟨?_, rotate_colour⟩ ?_ ?_ fun hne => ?_
    · exact hsame k (ne_of_mem_of_not_mem hk hif) (ne_of_mem_of_not_mem hk hjf)
        (hrefs k fun hkt => hdis k (.inr (.inr (.inr (.inl hkt)))) hk) hku
    · rw [(hfields _).1]
      simp [(hup i hif).symm, (hup j hjf).symm, hupt]
    · rw [(hfields _).2]
      simp [(hup j hjf).symm]
    · rw [(hfields _).2]
      simp [(hup i hif).symm, (hup j hjf).symm]
    · rw [(hfields _).2]
      cases fs with
      | nil => exact absurd rfl hne
      | cons f fs => simp [up]

end Ipfilter.Rb
