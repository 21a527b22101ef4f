import Ipfilter.Proof.RbDelete

/-!
# Runs of the red-black tree

* `search_spec`: a search finds the node with the key, if there is one.
* `walk_ends`: a walk calls its function for no node: its last loop ends at the sentinel, and the call is made only if it
  does not.
* `run_right`: whole runs of insertions, and of deletions that mend the balance.
* `two_children`: a deletion of a node with two children loses the key of the next node.
-/

namespace Ipfilter.Rb

open RedBlack RedBlack.RbTree List

variable {D K : Type} [LinearOrder K] {h h₀ h' : Head D} {x y p r node parent : Ref} {d e : Bool}
  {c c' : Colour} {k : D} {s t u : RbTree ℕ} {i j n : ℕ} {fs gs : List (Frame ℕ)} {f g : Frame ℕ}
  {cmp : D → D → ℤ} {key : D → K} {fuel m : ℕ} {P : List (ℕ × D)}

/-! ## Searches -/

/-- **What a search should find.** -/
def Found (h : Head D) (key : D → K) (t : RbTree ℕ) (k : D) (r : Option Ref) : Prop :=
  (∃ i ∈ t.all, key (h.cell (.node i)).data = key k ∧ r = some (.node i)) ∨
    (∀ i ∈ t.all, key (h.cell (.node i)).data ≠ key k) ∧ r = none

theorem searchLoop_mono {q : Option Ref} (heq : searchLoop cmp h k fuel node = some q) (hm : fuel ≤ m) :
    searchLoop cmp h k m node = some q := by
  induction fuel generalizing m node with
  | zero => cases heq
  | succ fuel ih =>
    obtain ⟨m, rfl⟩ : ∃ m', m = m' + 1 := ⟨m - 1, by omega⟩
    unfold searchLoop at heq ⊢
    dsimp only at heq ⊢
    split_ifs at heq ⊢
    · exact heq
    · exact heq
    · exact ih heq (by omega)

/-- The search below a node. -/
theorem Spells.search (ht : Spells h p t) (hs : Sorted h key t)
    (hcmp : ∀ i ∈ t.all, Agrees cmp key k (h.cell (.node i)).data) :
    ∃ fuel r, searchLoop cmp h k fuel (ref t) = some r ∧ Found h key t k r := by
  induction t generalizing p with
  | leaf => exact ⟨1, none, by simp [searchLoop, ref], .inr ⟨by simp [RbTree.all], rfl⟩⟩
  | node c l j u ihl ihu =>
    obtain ⟨-, -, hl, hu, hsl, hsu⟩ := ht
    obtain ⟨hsortl, hsortju, hlju⟩ := pairwise_append.1 hs
    obtain ⟨hju, hsortu⟩ := pairwise_cons.1 hsortju
    have hj := hcmp j (by simp [RbTree.all])
    have hstep : ∀ fuel, searchLoop cmp h k (fuel + 1) (.node j) =
        if cmp k (h.cell (.node j)).data = 0 then some (some (.node j))
        else searchLoop cmp h k fuel ((h.cell (.node j)).link (!decide (cmp k (h.cell (.node j)).data < 0))) := fun fuel => by
      rw [searchLoop, if_neg (by simp)]
    rcases lt_trichotomy (key k) (key (h.cell (.node j)).data) with hlt | heq | hgt
    · obtain ⟨fuel, r, hr, hfound⟩ := ihl hsl hsortl fun i hi => hcmp i (by simp [RbTree.all, hi])
      refine ⟨fuel + 1, r, ?_, ?_⟩
      · rw [ref, hstep, if_neg fun h0 => hlt.ne (hj.eq.1 h0), decide_eq_true (hj.lt.2 hlt), Bool.not_true, hl]
        exact hr
      · refine hfound.imp (.imp fun i => .imp_left fun hi => by simp [RbTree.all, hi]) (.imp_left fun hno i hi => ?_)
        simp only [RbTree.all, mem_append, mem_cons] at hi
        rcases hi with hi | rfl | hi
        · exact hno i hi
        · exact hlt.ne'
        · exact (hlt.trans (hju i hi)).ne'
    · refine ⟨1, some (.node j), ?_, .inl ⟨j, by simp [RbTree.all], heq.symm, rfl⟩⟩
      rw [ref, hstep, if_pos (hj.eq.2 heq)]
    · obtain ⟨fuel, r, hr, hfound⟩ := ihu hsu hsortu fun i hi => hcmp i (by simp [RbTree.all, hi])
      refine ⟨fuel + 1, r, ?_, ?_⟩
      · rw [ref, hstep, if_neg fun h0 => hgt.ne' (hj.eq.1 h0), decide_eq_false fun hn => lt_asymm hgt (hj.lt.1 hn),
          Bool.not_false, hu]
        exact hr
      · refine hfound.imp (.imp fun i => .imp_left fun hi => by simp [RbTree.all, hi]) (.imp_left fun hno i hi => ?_)
        simp only [RbTree.all, mem_append, mem_cons] at hi
        rcases hi with hi | rfl | hi
        · exact ((hlju i hi j (by simp)).trans hgt).ne
        · exact hgt.ne
        · exact hno i hi

/-- **Searches** in a good tree. -/
theorem search_spec (hg : Good h key t) (hcmp : ∀ i ∈ t.all, Agrees cmp key k (h.cell (.node i)).data) :
    ∃ fuel r, search cmp fuel h k = some r ∧ Found h key t k r := by
  rw [show search cmp = fun fuel h key => searchLoop cmp h key fuel ((h.cell .top).link true) from rfl]
  dsimp only
  rw [hg.holds.root]
  exact hg.holds.spells.search hg.sorted hcmp

/-! ## Walks -/

theorem Spells.walkLeft (ht : Spells h p t) : ∃ fuel, Rb.walkLeft h fuel (ref t) = some .zero := by
  induction t generalizing p with
  | leaf => exact ⟨1, by simp [Rb.walkLeft, ref]⟩
  | node c l j u ihl _ =>
    obtain ⟨-, -, hl, -, hsl, -⟩ := ht
    obtain ⟨fuel, hf⟩ := ihl hsl
    refine ⟨fuel + 1, ?_⟩
    rw [Rb.walkLeft, ref, if_neg (by simp), hl]
    exact hf

theorem walkLeft_mono (heq : walkLeft h fuel node = some x) (hm : fuel ≤ m) : walkLeft h m node = some x := by
  induction fuel generalizing m node with
  | zero => cases heq
  | succ fuel ih =>
    obtain ⟨m, rfl⟩ : ∃ m', m = m' + 1 := ⟨m - 1, by omega⟩
    unfold walkLeft at heq ⊢
    split_ifs at heq ⊢
    · exact heq
    · exact ih heq (by omega)

/-- **A walk ends.** -/
theorem walk_ends (ht : Holds h t) : ∃ fuel, walktree fuel h = some [] := by
  obtain ⟨fuel, hf⟩ := ht.spells.walkLeft
  refine ⟨max fuel 2, Option.bind_eq_some_iff.2 ⟨.zero, ?_, ?_⟩⟩
  · rw [ht.root]
    exact walkLeft_mono hf (le_max_left _ _)
  · -- the walk starts at the sentinel, whose links lead back to it
    obtain ⟨m, hm⟩ : ∃ m, max fuel 2 = m + 2 := ⟨max fuel 2 - 2, by omega⟩
    simp [hm, walkLoop, walkUp, walkDown, ht.zeroParent, ht.zeroLink]

/-! ## Runs -/

/-- **Runs:** insertions of new nodes with new keys, and deletions of nodes that are there and for which `ok` holds. The
list holds the nodes that are there, with what they were inserted with. -/
inductive Run (cmp : D → D → ℤ) (key : D → K) (ok : Head D → ℕ → Prop) (h₀ : Head D) :
    Head D → List (ℕ × D) → Prop
  | start : Run cmp key ok h₀ h₀ []
  | insert {h h' : Head D} {P : List (ℕ × D)} (i : ℕ) (k : D) (fuel : ℕ) : Run cmp key ok h₀ h P →
      i ∉ P.map Prod.fst →
      (∀ q ∈ P, key q.2 ≠ key k) → step cmp fuel h (.insert i k) = some h' → Run cmp key ok h₀ h' ((i, k) :: P)
  | delete {h h' : Head D} {P : List (ℕ × D)} (i : ℕ) (k : D) (fuel : ℕ) : Run cmp key ok h₀ h ((i, k) :: P) →
      ok h i →
      step cmp fuel h (.delete i) = some h' → Run cmp key ok h₀ h' P
  | perm {h : Head D} {P Q : List (ℕ × D)} : Run cmp key ok h₀ h P → P.Perm Q → Run cmp key ok h₀ h Q

/-- **What is claimed of a state**, without the walks: a balanced search tree over the nodes that are there, with what
they were inserted with, and searches that find them. -/
structure Right (cmp : D → D → ℤ) (key : D → K) (h : Head D) (P : List (ℕ × D)) (t : RbTree ℕ) : Prop where
  good : Good h key t
  nodes : t.all.Perm (P.map Prod.fst)
  data : ∀ q ∈ P, (h.cell (.node q.1)).data = q.2
  search : ∀ k, ∃ fuel r, search cmp fuel h k = some r ∧ ((∃ q ∈ P, key q.2 = key k ∧ r = some (.node q.1)) ∨
    (∀ q ∈ P, key q.2 ≠ key k) ∧ r = none)

/-- A good tree with the right nodes is right. -/
theorem Good.right (hcmp : ∀ a b, Agrees cmp key a b) (hg : Good h key t)
    (hnodes : t.all.Perm (P.map Prod.fst)) (hdata : ∀ q ∈ P, (h.cell (.node q.1)).data = q.2) : Right cmp key h P t := by
  have hmem : ∀ q ∈ P, q.1 ∈ t.all := fun q hq => hnodes.mem_iff.2 (mem_map_of_mem hq)
  refine ⟨hg, hnodes, hdata, fun k => ?_⟩
  obtain ⟨fuel, r, hr, ⟨i, hi, hk, rfl⟩ | ⟨hno, rfl⟩⟩ := search_spec hg fun i _ => hcmp k _
  · obtain ⟨q, hq, rfl⟩ := mem_map.1 (hnodes.mem_iff.1 hi)
    exact ⟨fuel, _, hr, .inl ⟨q, hq, by rw [← hdata q hq]; exact hk, rfl⟩⟩
  · exact ⟨fuel, _, hr, .inr ⟨fun q hq => by rw [← hdata q hq]; exact hno q.1 (hmem q hq), rfl⟩⟩

theorem init_good (blank : D) (cells : ℕ → Node D) (key : D → K) : Good (init blank cells) key .leaf :=
  ⟨⟨trivial, rfl, nodup_nil, rfl, rfl, fun _ => rfl, rfl, rfl⟩, List.Pairwise.nil, ⟨0, .leaf⟩, rfl, rfl⟩

/-- **One insertion.** -/
theorem Right.insert (hcmp : ∀ a b, Agrees cmp key a b) (hr : Right cmp key h P t)
    (hi : i ∉ P.map Prod.fst) (hk : ∀ q ∈ P, key q.2 ≠ key k) :
    ∃ fuel h' T, step cmp fuel h (.insert i k) = some h' ∧ Right cmp key h' ((i, k) :: P) T := by
  have hi' : i ∉ t.all := fun hmem => hi (hr.nodes.mem_iff.1 hmem)
  have hother : ∀ j ∈ t.all, ((h.setData (.node i) k).cell (.node j)).data = (h.cell (.node j)).data := fun j hj => by
    simp [ne_of_mem_of_not_mem hj hi']
  have hself : ((h.setData (.node i) k).cell (.node i)).data = k := by simp
  have hg : Good (h.setData (.node i) k) key t :=
    ⟨hr.good.holds.frame fun y _ => ⟨by simp, by simp, by simp⟩, hr.good.sorted.congr rfl fun j hj => by rw [hother j hj],
      hr.good.balanced, hr.good.root, hr.good.count⟩
  obtain ⟨fuel, h', T, heq, hg', hall, hdata⟩ := insert_spec hg hi' (fun j _ => hcmp _ _) fun j hj => by
    obtain ⟨q, hq, rfl⟩ := mem_map.1 (hr.nodes.mem_iff.1 hj)
    rw [hother _ hj, hself, hr.data q hq]
    exact hk q hq
  refine ⟨fuel, h', T, heq, hg'.right hcmp (hall.trans (hr.nodes.cons i)) fun q hq => ?_⟩
  rcases mem_cons.1 hq with rfl | hq
  · rw [hdata, hself]
  · rw [hdata, hother q.1 (hr.nodes.mem_iff.2 (mem_map_of_mem hq))]
    exact hr.data q hq

/-- **One deletion.** -/
theorem Right.delete (hcmp : ∀ a b, Agrees cmp key a b) (hr : Right cmp key h ((i, k) :: P) t)
    (hm : Mendable h i) : ∃ fuel h' T, step cmp fuel h (.delete i) = some h' ∧ Right cmp key h' P T := by
  obtain ⟨fuel, h', T, heq, hg', hall, hdata⟩ := delete_spec hr.good hm
  refine ⟨fuel, h', T, heq, hg'.right hcmp ((hall.symm.trans hr.nodes).cons_inv) fun q hq => ?_⟩
  rw [hdata]
  exact hr.data q (mem_cons_of_mem _ hq)

theorem step_mono {op : Op D} (heq : step cmp fuel h op = some h') (hm : fuel ≤ m) : step cmp m h op = some h' := by
  cases op with
  | insert i k => exact insert_mono heq hm
  | delete i => exact delete_mono heq hm

/-- The result of a call does not depend on the bound. -/
theorem step_unique {op : Op D} {h₁ h₂ : Head D} (heq₁ : step cmp fuel h op = some h₁)
    (heq₂ : step cmp m h op = some h₂) : h₁ = h₂ :=
  Option.some.inj ((step_mono heq₁ (le_max_left _ _)).symm.trans (step_mono heq₂ (le_max_right _ _)))

/-- **Whole runs** of insertions, and of deletions that mend the balance: every state is right, every call returns, and
a walk ends but is right only in an empty tree. -/
theorem run_right (hcmp : ∀ a b, Agrees cmp key a b) {blank : D} {cells : ℕ → Node D} {P : List (ℕ × D)}
    (hr : Run cmp key Mendable (init blank cells) h P) :
    (∃ t, Right cmp key h P t) ∧
      (∀ i k, i ∉ P.map Prod.fst → (∀ q ∈ P, key q.2 ≠ key k) →
        ∃ fuel, (step cmp fuel h (.insert i k)).isSome = true) ∧
      (∀ i ∈ P.map Prod.fst, Mendable h i → ∃ fuel, (step cmp fuel h (.delete i)).isSome = true) ∧
      ∃ fuel calls, walktree fuel h = some calls ∧ (calls.Perm (P.map fun q => .node q.1) ↔ P = []) := by
  have hright : ∃ t, Right cmp key h P t := by
    induction hr with
    | start => exact ⟨.leaf, (init_good blank cells key).right hcmp (List.Perm.refl _) (by simp)⟩
    | insert i k fuel _ hi hk heq ih =>
      obtain ⟨t, ht⟩ := ih
      obtain ⟨fuel', h', T, heq', hT⟩ := ht.insert hcmp hi hk
      exact ⟨T, step_unique heq' heq ▸ hT⟩
    | delete i k fuel _ hm heq ih =>
      obtain ⟨t, ht⟩ := ih
      obtain ⟨fuel', h', T, heq', hT⟩ := ht.delete hcmp hm
      exact ⟨T, step_unique heq' heq ▸ hT⟩
    | perm _ hperm ih =>
      obtain ⟨t, ht⟩ := ih
      exact ⟨t, ht.good.right hcmp (ht.nodes.trans (hperm.map _)) fun q hq => ht.data q (hperm.mem_iff.2 hq)⟩
  refine ⟨hright, fun i k hi hk => ?_, fun i hi hm => ?_, ?_⟩
  · obtain ⟨t, ht⟩ := hright
    obtain ⟨fuel, h', T, heq, -⟩ := ht.insert hcmp hi hk
    exact ⟨fuel, by rw [heq]; rfl⟩
  · obtain ⟨t, ht⟩ := hright
    obtain ⟨fuel, h', T, heq, -⟩ := delete_spec ht.good hm
    exact ⟨fuel, by rw [step, heq]; rfl⟩
  · obtain ⟨t, ht⟩ := hright
    obtain ⟨fuel, heq⟩ := walk_ends ht.good.holds
    refine ⟨fuel, [], heq, fun hp => ?_, fun hp => by simp [hp]⟩
    simpa using hp.nil_eq.symm

/-! ## Three numbers -/

/-- Numbers are compared by subtraction. -/
def minus (a b : ℕ) : ℤ := a - b

theorem minus_agrees (a b : ℕ) : Agrees minus id a b := by
  constructor <;> simp only [minus, id] <;> omega

/-- An empty tree. -/
def empty : Head ℕ := init 0 fun _ => ⟨fun _ => .zero, .zero, .black, 0⟩

/-- The state after a call. -/
def next (h : Head ℕ) (op : Op ℕ) : Head ℕ := (step minus 9 h op).getD h

theorem step_next {h : Head ℕ} {op : Op ℕ} (hs : (step minus 9 h op).isSome = true) :
    step minus 9 h op = some (next h op) := by
  obtain ⟨r, hr⟩ := Option.isSome_iff_exists.1 hs
  rw [next, hr]
  rfl

/-- The node 0 with the key 2 above the nodes 1 and 2 with the keys 1 and 3. -/
def three : Head ℕ := next (next (next empty (.insert 0 2)) (.insert 1 1)) (.insert 2 3)

theorem three_run (ok : Head ℕ → ℕ → Prop) : Run minus id ok empty three [(2, 3), (1, 1), (0, 2)] := by
  refine .insert 2 3 9 (.insert 1 1 9 (.insert 0 2 9 .start (by decide) (by decide) (step_next (by decide))) (by decide)
    (by decide) (step_next (by decide))) (by decide) (by decide) (step_next (by decide))

/-- A fourth node, with the key 0, makes the nodes 1 and 2 black. -/
def four : Head ℕ := next three (.insert 3 0)

theorem four_run (ok : Head ℕ → ℕ → Prop) : Run minus id ok empty four [(3, 0), (2, 3), (1, 1), (0, 2)] :=
  .insert 3 0 9 (three_run ok) (by decide) (by decide) (step_next (by decide))

/-- The node 2 is black, and the node across has a red child. -/
theorem four_mendable : Mendable four 2 := by
  refine ⟨[⟨true, .black, 0, .node .black (.node .red .leaf 3 .leaf) 1 .leaf⟩], true, .black, .leaf,
    ⟨?_, ?_, ?_, ?_, ?_, ?_, ?_, ?_⟩, .inr ⟨by simp, rfl, ?_⟩⟩
  · refine ⟨by decide, by decide, by decide, by decide,
      ⟨by decide, by decide, by decide, by decide,
        ⟨by decide, by decide, by decide, by decide, trivial, trivial⟩, trivial⟩,
      ⟨by decide, by decide, by decide, by decide, trivial, trivial⟩⟩
  · decide
  · decide
  · decide
  · decide
  · intro e
    cases e <;> decide
  · decide
  · decide
  · rw [Mends, if_neg (by decide)]

/-- The black node 2 is taken out, and a rotation mends the balance. -/
theorem run_right_four : Run minus id Mendable empty (next four (.delete 2)) [(3, 0), (1, 1), (0, 2)] ∧
    ∃ t, Right minus id (next four (.delete 2)) [(3, 0), (1, 1), (0, 2)] t := by
  have hrun : Run minus id Mendable empty (next four (.delete 2)) [(3, 0), (1, 1), (0, 2)] :=
    .delete 2 3 9 (.perm (four_run Mendable) (List.Perm.swap _ _ _)) four_mendable (step_next (by decide))
  exact ⟨hrun, (run_right minus_agrees hrun).1⟩

/-- **The key of the next node is lost:** the node 0 with the key 2 is deleted, and then it is the key 3 that is not found,
and 2 is. Before that, a walk calls its function for none of the three nodes. -/
theorem two_children : Run minus id (fun _ _ => True) empty three [(2, 3), (1, 1), (0, 2)] ∧
    walktree 9 three = some [] ∧
    Run minus id (fun _ _ => True) empty (next three (.delete 0)) [(2, 3), (1, 1)] ∧
    search minus 9 (next three (.delete 0)) 3 = some none ∧
    search minus 9 (next three (.delete 0)) 2 = some (some (.node 2)) ∧
    ¬∃ t, Right minus id (next three (.delete 0)) [(2, 3), (1, 1)] t := by
  refine ⟨three_run _, by decide, .delete 0 2 9 (.perm (three_run _) (by decide)) trivial (step_next (by decide)), by decide,
    by decide, fun ⟨t, ht⟩ => ?_⟩
  obtain ⟨fuel, r, hr, hfound⟩ := ht.search 3
  have hnone : searchLoop minus (next three (.delete 0)) 3 9 (((next three (.delete 0)).cell .top).link true) = some none := by
    decide
  obtain rfl : r = none := Option.some.inj
    ((searchLoop_mono hr (Nat.le_max_left _ 9)).symm.trans (searchLoop_mono hnone (Nat.le_max_right fuel _)))
  rcases hfound with ⟨q, -, -, hq⟩ | ⟨hno, -⟩
  · cases hq
  · exact hno (2, 3) (by simp) rfl

end Ipfilter.Rb
