import Mathlib.Data.List.Perm.Basic

/-!
# Red-black trees

Trees with coloured nodes, and the places in them. Everything comes in two mirror images, left and right: a side is a
`Bool` (`true` is the right), and `bin d` is a node seen from its side `d`.

* `RbTree.all`: the nodes from left to right, which no rotation changes (`all_rotate`).
* `Balanced`: no red node has a red child, and every way down meets the same number of black nodes.
* `Frame`, `fill`: the way from a place up to the root, and the tree with something at the place.
* `Fit`: what a place asks of the tree that is put there (`Fit.fill`, `fit_of_balanced`).
-/

namespace RedBlack

/-- The colour of a node. -/
inductive Colour where
  | black
  | red
  deriving DecidableEq

/-- A tree with the nodes `A`. -/
inductive RbTree (A : Type) where
  | leaf
  | node (c : Colour) (l : RbTree A) (a : A) (r : RbTree A)
  deriving DecidableEq

variable {A : Type}

namespace RbTree

/-- The nodes from left to right. -/
def all : RbTree A → List A
  | leaf => []
  | node _ l a r => l.all ++ a :: r.all

/-- The colour of the root. There is no node at a leaf, and it counts as black. -/
def colour : RbTree A → Colour
  | leaf => .black
  | node c _ _ _ => c

/-- The root is painted. -/
def paint (c : Colour) : RbTree A → RbTree A
  | leaf => leaf
  | node _ l a r => node c l a r

/-- A node with `s` on its side `d`, and `t` on the other. -/
def bin (d : Bool) (c : Colour) (s : RbTree A) (a : A) (t : RbTree A) : RbTree A := if d then node c t a s else node c s a t

@[simp] theorem all_node (c : Colour) (l : RbTree A) (a : A) (r : RbTree A) : (node c l a r).all = l.all ++ a :: r.all := rfl

@[simp] theorem bin_false (c : Colour) (s : RbTree A) (a : A) (t : RbTree A) : bin false c s a t = node c s a t := rfl

@[simp] theorem bin_true (c : Colour) (s : RbTree A) (a : A) (t : RbTree A) : bin true c s a t = node c t a s := rfl

end RbTree

open RbTree

variable {d e : Bool} {c c' : Colour} {s t u v : RbTree A} {a b : A} {m n : ℕ}

theorem bin_flip (d : Bool) (c : Colour) (s : RbTree A) (a : A) (t : RbTree A) : bin d c s a t = bin (!d) c t a s := by
  cases d <;> rfl

theorem exists_bin (d : Bool) (ht : t ≠ .leaf) : ∃ c s a u, t = bin d c s a u := by
  cases t with
  | leaf => exact absurd rfl ht
  | node c l a r =>
    cases d with
    | false => exact ⟨c, l, a, r, rfl⟩
    | true => exact ⟨c, r, a, l, rfl⟩

@[simp] theorem bin_ne_leaf : bin d c s a t ≠ .leaf := by cases d <;> simp

@[simp] theorem colour_bin : (bin d c s a t).colour = c := by cases d <;> rfl

@[simp] theorem paint_bin : (bin d c s a t).paint c' = bin d c' s a t := by cases d <;> rfl

@[simp] theorem all_paint : (t.paint c).all = t.all := by cases t <;> rfl

theorem paint_colour : t.paint t.colour = t := by cases t <;> rfl

/-- **A rotation keeps the order of the nodes.** -/
theorem all_rotate {c₁ c₂ : Colour} : (bin d c₁ (bin d c₂ s a t) b u).all = (bin d c s a (bin d c' t b u)).all := by
  cases d <;> simp

/-- Colours do not matter to the order. -/
theorem all_bin_congr (hs : s.all = u.all) (ht : t.all = v.all) : (bin d c s a t).all = (bin d c' u a v).all := by
  cases d <;> simp [hs, ht]

theorem mem_bin {x : A} : x ∈ (bin d c s a t).all ↔ x = a ∨ x ∈ s.all ∨ x ∈ t.all := by
  cases d <;> simp <;> tauto

theorem nodup_bin : (bin d c s a t).all.Nodup ↔
    a ∉ s.all ∧ a ∉ t.all ∧ s.all.Nodup ∧ t.all.Nodup ∧ ∀ x ∈ s.all, x ∉ t.all := by
  cases d <;> simp only [bin_false, bin_true, all_node, List.nodup_append, List.nodup_cons,
    List.mem_cons] <;> grind

/-! ## Balance -/

/-- **Balance:** no red node has a red child, and every way down meets `n` black nodes. -/
inductive Balanced : RbTree A → ℕ → Prop
  | leaf : Balanced .leaf 0
  | red {l r : RbTree A} {a : A} {n : ℕ} : Balanced l n → Balanced r n → l.colour = .black → r.colour = .black →
      Balanced (.node .red l a r) n
  | black {l r : RbTree A} {a : A} {n : ℕ} : Balanced l n → Balanced r n → Balanced (.node .black l a r) (n + 1)

/-- What a node adds to the number of black nodes. -/
def Colour.weigh : Colour → ℕ → ℕ
  | .black, n => n + 1
  | .red, n => n

@[simp] theorem balanced_leaf : Balanced (.leaf : RbTree A) n ↔ n = 0 := by
  constructor
  · intro h
    cases h
    rfl
  · rintro rfl
    exact .leaf

theorem balanced_red : Balanced (bin d .red s a t) n ↔
    Balanced s n ∧ Balanced t n ∧ s.colour = .black ∧ t.colour = .black := by
  constructor
  · intro h
    cases d <;> cases h with
    | red hl hr hlc hrc => simp_all
  · rintro ⟨hs, ht, hsc, htc⟩
    cases d with
    | false => exact .red hs ht hsc htc
    | true => exact .red ht hs htc hsc

theorem balanced_black : Balanced (bin d .black s a t) (n + 1) ↔ Balanced s n ∧ Balanced t n := by
  constructor
  · intro h
    cases d <;> cases h with
    | black hl hr => exact ⟨‹_›, ‹_›⟩
  · rintro ⟨hs, ht⟩
    cases d with
    | false => exact .black hs ht
    | true => exact .black ht hs

theorem not_balanced_black_zero : ¬Balanced (bin d .black s a t) 0 := by
  intro h
  cases d <;> cases h

/-- A node of either colour. -/
theorem balanced_bin : Balanced (bin d c s a t) m ↔
    ∃ n, m = c.weigh n ∧ Balanced s n ∧ Balanced t n ∧ (c = .red → s.colour = .black ∧ t.colour = .black) := by
  cases c with
  | red => simp [balanced_red, Colour.weigh]
  | black =>
    cases m with
    | zero => simp [not_balanced_black_zero, Colour.weigh]
    | succ m => simp [balanced_black, Colour.weigh]

/-- A black root adds one to the height of a red one. -/
theorem Balanced.blacken (ht : Balanced t n) (hc : t.colour = .red) : Balanced (t.paint .black) (n + 1) := by
  cases ht with
  | leaf => cases hc
  | red hl hr _ _ => exact .black hl hr
  | black _ _ => cases hc

theorem Balanced.ne_leaf (ht : Balanced t (n + 1)) : t ≠ .leaf := by
  rintro rfl
  cases ht

/-! ## Places -/

/-- A node above a place: the place is on its side `side`, and `sib` on the other. -/
structure Frame (A : Type) where
  side : Bool
  colour : Colour
  a : A
  sib : RbTree A

/-- **The tree with `t` at a place.** The nodes above the place are listed upwards. -/
def fill : List (Frame A) → RbTree A → RbTree A
  | [], t => t
  | f :: fs, t => fill fs (bin f.side f.colour t f.a f.sib)

/-- The colour of the node above a place. Above the root there is nothing red. -/
def hue : List (Frame A) → Colour
  | [] => .black
  | f :: _ => f.colour

/-- The nodes of the tree that are not at the place, those on the left and those on the right. -/
def beside (d : Bool) : List (Frame A) → List A
  | [] => []
  | f :: fs => if f.side = d then beside d fs
    else if d then f.a :: f.sib.all ++ beside d fs else beside d fs ++ f.sib.all ++ [f.a]

variable {fs : List (Frame A)} {f : Frame A}

theorem all_fill (fs : List (Frame A)) (t : RbTree A) : (fill fs t).all = beside false fs ++ t.all ++ beside true fs := by
  induction fs generalizing t with
  | nil => simp [fill, beside]
  | cons f fs ih =>
    rw [fill, ih]
    cases hd : f.side <;> simp [beside, hd]

/-- **The order of the nodes depends only on the order at the place.** -/
theorem all_fill_congr (h : s.all = t.all) : (fill fs s).all = (fill fs t).all := by rw [all_fill, all_fill, h]

/-- **What a place asks:** a tree with `n` black nodes on every way down. The root is black. -/
def Fit : List (Frame A) → ℕ → Prop
  | [], _ => True
  | f :: fs, n => Balanced f.sib n ∧ (f.colour = .red → f.sib.colour = .black ∧ hue fs = .black ∧ fs ≠ []) ∧
      Fit fs (f.colour.weigh n)

/-- A tree that is put at a place. -/
theorem Fit.fill (hf : Fit fs n) (ht : Balanced t n) (hc : hue fs = .red → t.colour = .black) :
    ∃ m, Balanced (fill fs t) m := by
  induction fs generalizing t n with
  | nil => exact ⟨n, ht⟩
  | cons f fs ih =>
    obtain ⟨hsib, hred, hfs⟩ := hf
    refine ih hfs (balanced_bin.2 ⟨n, rfl, ht, hsib, fun hr => ⟨hc hr, (hred hr).1⟩⟩) fun hr => ?_
    rw [colour_bin]
    cases hcol : f.colour with
    | black => rfl
    | red => exact absurd (hr.symm.trans (hred hcol).2.1) (by simp)

theorem Fit.colour (hf : Fit fs n) (hne : fs ≠ []) (t : RbTree A) : (RedBlack.fill fs t).colour = .black := by
  induction fs generalizing t n with
  | nil => exact absurd rfl hne
  | cons f fs ih =>
    obtain ⟨-, hred, hfs⟩ := hf
    cases fs with
    | nil =>
      rw [RedBlack.fill, RedBlack.fill, colour_bin]
      cases hcol : f.colour with
      | black => rfl
      | red => exact absurd rfl (hred hcol).2.2
    | cons g gs => exact ih hfs (by simp) _

/-- **The places of a balanced tree** with a black root. -/
theorem fit_of_balanced (h : Balanced (fill fs t) m) (hc : (fill fs t).colour = .black) :
    ∃ n, Fit fs n ∧ Balanced t n ∧ (hue fs = .red → t.colour = .black) := by
  induction fs generalizing t with
  | nil => exact ⟨m, trivial, h, fun hr => by cases hr⟩
  | cons f fs ih =>
    obtain ⟨k, hfit, hbin, hhue⟩ := ih h hc
    obtain ⟨n, rfl, ht, hsib, hred⟩ := balanced_bin.1 hbin
    refine ⟨n, ⟨hsib, fun hr => ⟨(hred hr).2, ?_, ?_⟩, hfit⟩, ht, fun hr => (hred hr).1⟩
    · cases hh : hue fs with
      | black => rfl
      | red =>
        rw [colour_bin] at hhue
        exact absurd ((hhue hh).symm.trans hr) (by simp)
    · rintro rfl
      rw [fill, fill, colour_bin] at hc
      exact absurd (hc.symm.trans hr) (by simp)

end RedBlack
