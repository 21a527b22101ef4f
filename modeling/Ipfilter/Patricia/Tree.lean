import Mathlib.Data.List.Sort

/-!
# Patricia trees

Binary trees whose inner nodes test one bit of a key each, further down always a later bit. Keys are
at the leaves and differ from each other only where a node tests.

* `Trie.find`, `Trie.path`: the leaf a key leads to and the inner nodes on the way.
* `Sound`: the leaves below a node agree in front of its bit and are sorted by it.
* `Trie.insert`: a new leaf goes below a new inner node for the first bit where it differs.
* `Spliced`: a leaf goes away together with the node above it.

Labels of leaves and inner nodes are of any type.
-/

namespace Patricia

open List
open Prod (mk.injEq)

inductive Trie (A : Type) where
  | leaf (a : A)
  | node (a : A) (i : ℕ) (l r : Trie A)
  deriving Repr

variable {A : Type}

namespace Trie

/-- The label of the root. -/
def top : Trie A → A
  | leaf a => a
  | node a _ _ _ => a

def leaves : Trie A → List A
  | leaf a => [a]
  | node _ _ l r => l.leaves ++ r.leaves

def inner : Trie A → List A
  | leaf _ => []
  | node a _ l r => a :: (l.inner ++ r.inner)

/-- All labels. -/
def all : Trie A → List A
  | leaf a => [a]
  | node a _ l r => a :: (l.all ++ r.all)

/-- The leaf the bits `x` lead to. -/
def find (x : ℕ → Bool) : Trie A → A
  | leaf a => a
  | node _ i l r => if x i then r.find x else l.find x

/-- The inner nodes on the way, with the bits they test, from the root on. -/
def path (x : ℕ → Bool) : Trie A → List (A × ℕ)
  | leaf _ => []
  | node a i l r => (a, i) :: if x i then r.path x else l.path x

def map (ρ : A → A) : Trie A → Trie A
  | leaf a => leaf (ρ a)
  | node a i l r => node (ρ a) i (l.map ρ) (r.map ρ)

section

variable (a : A) (i : ℕ) (l r : Trie A) (x : ℕ → Bool)

@[simp] theorem top_leaf : (leaf a).top = a := rfl

@[simp] theorem top_node : (node a i l r).top = a := rfl

@[simp] theorem leaves_leaf : (leaf a).leaves = [a] := rfl

@[simp] theorem leaves_node : (node a i l r).leaves = l.leaves ++ r.leaves := rfl

@[simp] theorem inner_leaf : (leaf a).inner = [] := rfl

@[simp] theorem inner_node : (node a i l r).inner = a :: (l.inner ++ r.inner) := rfl

@[simp] theorem all_leaf : (leaf a).all = [a] := rfl

@[simp] theorem all_node : (node a i l r).all = a :: (l.all ++ r.all) := rfl

@[simp] theorem find_leaf : (leaf a).find x = a := rfl

@[simp] theorem find_node : (node a i l r).find x = if x i then r.find x else l.find x := rfl

@[simp] theorem path_leaf : (leaf a).path x = [] := rfl

@[simp] theorem path_node : (node a i l r).path x = (a, i) :: if x i then r.path x else l.path x := rfl

@[simp] theorem map_leaf (ρ : A → A) : (leaf a).map ρ = leaf (ρ a) := rfl

@[simp] theorem map_node (ρ : A → A) : (node a i l r).map ρ = node (ρ a) i (l.map ρ) (r.map ρ) := rfl

end

end Trie

variable {t t' l r : Trie A} {a b c n : A} {i d lo : ℕ} {x y : ℕ → Bool} {key key' : A → ℕ → Bool}

theorem mem_all : a ∈ t.all ↔ a ∈ t.leaves ∨ a ∈ t.inner := by
  induction t with
  | leaf c => simp
  | node c i l r ihl ihr =>
    simp only [Trie.all_node, Trie.leaves_node, Trie.inner_node, mem_cons, mem_append, ihl, ihr]
    tauto

theorem inner_sublist (t : Trie A) : t.inner.Sublist t.all := by
  induction t with
  | leaf c => exact nil_sublist _
  | node c i l r ihl ihr => exact (ihl.append ihr).cons_cons c

theorem leaves_sublist (t : Trie A) : t.leaves.Sublist t.all := by
  induction t with
  | leaf c => exact List.Sublist.refl _
  | node c i l r ihl ihr => exact (ihl.append ihr).cons c

theorem top_mem (t : Trie A) : t.top ∈ t.all := by
  cases t <;> simp

theorem find_mem (x : ℕ → Bool) (t : Trie A) : t.find x ∈ t.leaves := by
  induction t with
  | leaf c => simp
  | node c i l r ihl ihr =>
    simp only [Trie.find_node, Trie.leaves_node, mem_append]
    split
    · exact .inr ihr
    · exact .inl ihl

/-- The leaf depends on the bits tested on the way. -/
theorem find_congr (h : ∀ q ∈ t.path x, y q.2 = x q.2) : t.find y = t.find x := by
  induction t with
  | leaf c => rfl
  | node c i l r ihl ihr =>
    simp only [Trie.path_node, mem_cons, forall_eq_or_imp] at h
    obtain ⟨hi, h⟩ := h
    simp only [Trie.find_node, hi]
    split
    · rename_i hx
      rw [if_pos hx] at h
      exact ihr h
    · rename_i hx
      rw [if_neg hx] at h
      exact ihl h

/-- The first leaf is the one of zeros. -/
theorem leaves_first (t : Trie A) : ∃ l, t.leaves = t.find (fun _ => false) :: l := by
  induction t with
  | leaf c => exact ⟨[], rfl⟩
  | node c i l r ihl ihr =>
    obtain ⟨l', h⟩ := ihl
    exact ⟨l' ++ r.leaves, by simp [h]⟩

/-- The last leaf is the one of ones. -/
theorem leaves_last (t : Trie A) : ∃ l, t.leaves = l ++ [t.find fun _ => true] := by
  induction t with
  | leaf c => exact ⟨[], rfl⟩
  | node c i l r ihl ihr =>
    obtain ⟨l', h⟩ := ihr
    exact ⟨l.leaves ++ l', by simp [h]⟩

theorem mem_inner_of_path (h : (n, i) ∈ t.path x) : n ∈ t.inner := by
  induction t with
  | leaf c => simp at h
  | node c j l r ihl ihr =>
    simp only [Trie.path_node, mem_cons, mk.injEq] at h
    simp only [Trie.inner_node, mem_cons, mem_append]
    rcases h with ⟨rfl, -⟩ | h
    · exact .inl rfl
    · split at h
      · exact .inr (.inr (ihr h))
      · exact .inr (.inl (ihl h))

theorem leaf_notMem_inner (hn : t.all.Nodup) (ha : a ∈ t.leaves) : a ∉ t.inner := by
  induction t with
  | leaf c => simp
  | node c i l r ihl ihr =>
    simp only [Trie.all_node, nodup_cons, nodup_append, mem_append, not_or] at hn
    obtain ⟨⟨hcl, hcr⟩, hnl, hnr, hdis⟩ := hn
    simp only [Trie.inner_node, mem_cons, mem_append, not_or]
    rcases mem_append.1 ha with hal | har
    · have hm : a ∈ l.all := mem_all.2 (.inl hal)
      exact ⟨fun e => hcl (e ▸ hm), ihl hnl hal, fun h => hdis a hm a (mem_all.2 (.inr h)) rfl⟩
    · have hm : a ∈ r.all := mem_all.2 (.inl har)
      exact ⟨fun e => hcr (e ▸ hm), fun h => hdis a (mem_all.2 (.inr h)) a hm rfl, ihr hnr har⟩

theorem path_length (x : ℕ → Bool) (t : Trie A) : (t.path x).length ≤ t.inner.length := by
  induction t with
  | leaf c => exact le_refl 0
  | node c i l r ihl ihr =>
    simp only [Trie.path_node, Trie.inner_node, length_cons, length_append]
    split <;> omega

/-! ## Sound trees -/

/-- The bits from `lo` up to `hi` are the same. -/
def Agree (x y : ℕ → Bool) (lo hi : ℕ) : Prop := ∀ e, lo ≤ e → e < hi → x e = y e

theorem Agree.symm {hi : ℕ} (h : Agree x y lo hi) : Agree y x lo hi := fun e h1 h2 => (h e h1 h2).symm

theorem Agree.trans {z : ℕ → Bool} {hi : ℕ} (h : Agree x y lo hi) (h' : Agree y z lo hi) : Agree x z lo hi :=
  fun e h1 h2 => (h e h1 h2).trans (h' e h1 h2)

theorem Agree.mono {hi hi' : ℕ} (h : Agree x y lo hi) (hh : hi' ≤ hi) : Agree x y lo hi' :=
  fun e h1 h2 => h e h1 (by omega)

/-- One bit more, and then more. -/
theorem Agree.step {hi : ℕ} (h : Agree x y lo i) (hi' : x i = y i) (h' : Agree x y (i + 1) hi) : Agree x y lo hi := by
  intro e h1 h2
  rcases Nat.lt_trichotomy e i with he | rfl | he
  · exact h e h1 he
  · exact hi'
  · exact h' e he h2

/-- **Sound.** The leaves below a node agree from `lo` up to its bit, and this bit tells the sides. -/
def Sound (key : A → ℕ → Bool) : ℕ → Trie A → Prop
  | _, .leaf _ => True
  | lo, .node _ i l r =>
    lo ≤ i ∧ (∀ a ∈ l.leaves ++ r.leaves, ∀ b ∈ l.leaves ++ r.leaves, Agree (key a) (key b) lo i) ∧
    (∀ a ∈ l.leaves, key a i = false) ∧ (∀ a ∈ r.leaves, key a i = true) ∧ Sound key (i + 1) l ∧
      Sound key (i + 1) r

/-- A leaf is found by its own key. -/
theorem Sound.find_key (hs : Sound key lo t) (ha : a ∈ t.leaves) : t.find (key a) = a := by
  induction t generalizing lo with
  | leaf c => simpa [Trie.find, Trie.leaves, eq_comm] using ha
  | node c i l r ihl ihr =>
    obtain ⟨-, -, hl, hr, hsl, hsr⟩ := hs
    simp only [Trie.leaves_node, mem_append] at ha
    rcases ha with ha | ha
    · simp [hl a ha, ihl hsl ha]
    · simp [hr a ha, ihr hsr ha]

/-- Nodes test later bits further down. -/
theorem Sound.le_of_path (hs : Sound key lo t) (h : (n, i) ∈ t.path x) : lo ≤ i := by
  induction t generalizing lo with
  | leaf c => simp at h
  | node c j l r ihl ihr =>
    obtain ⟨hlo, -, -, -, hsl, hsr⟩ := hs
    simp only [Trie.path_node, mem_cons, mk.injEq] at h
    rcases h with ⟨-, rfl⟩ | h
    · exact hlo
    · split at h
      · have := ihr hsr h
        omega
      · have := ihl hsl h
        omega

theorem Sound.path_sorted (hs : Sound key lo t) (x : ℕ → Bool) : (t.path x).Pairwise (·.2 < ·.2) := by
  induction t generalizing lo with
  | leaf c => exact List.Pairwise.nil
  | node c i l r ihl ihr =>
    obtain ⟨-, -, -, -, hsl, hsr⟩ := hs
    refine pairwise_cons.2 ⟨?_, ?_⟩
    · rintro ⟨n, j⟩ h
      split at h
      · exact hsr.le_of_path h
      · exact hsl.le_of_path h
    · split
      · exact ihr hsr
      · exact ihl hsl

/-- Two keys that are the same where the nodes above `n` test both pass `n`. -/
theorem Sound.path_congr (hs : Sound key lo t) (h : (n, i) ∈ t.path x)
    (hy : ∀ q ∈ t.path x, q.2 < i → y q.2 = x q.2) : (n, i) ∈ t.path y := by
  induction t generalizing lo with
  | leaf c => simp at h
  | node c j l r ihl ihr =>
    obtain ⟨-, -, -, -, hsl, hsr⟩ := hs
    simp only [Trie.path_node, mem_cons, mk.injEq] at h hy ⊢
    rcases h with h | h
    · exact .inl h
    · refine .inr ?_
      have hji : j < i := by
        split at h
        · exact hsr.le_of_path h
        · exact hsl.le_of_path h
      rw [hy (c, j) (.inl rfl) hji]
      split at h
      · rename_i hx
        rw [if_pos hx]
        exact ihr hsr h fun q hq => hy q (.inr (by rwa [if_pos hx]))
      · rename_i hx
        rw [if_neg hx]
        exact ihl hsl h fun q hq => hy q (.inr (by rwa [if_neg hx]))

/-- **The leaves below a node agree in front of its bit.** -/
theorem Sound.agree (hs : Sound key lo t) (hn : t.inner.Nodup) (ha : a ∈ t.leaves) (hb : b ∈ t.leaves)
    (hpa : (n, i) ∈ t.path (key a)) (hpb : (n, i) ∈ t.path (key b)) : Agree (key a) (key b) lo i := by
  induction t generalizing lo with
  | leaf c => simp at hpa
  | node c j l r ihl ihr =>
    obtain ⟨-, hag, hl, hr, hsl, hsr⟩ := hs
    simp only [Trie.inner_node, nodup_cons, nodup_append, mem_append, not_or] at hn
    obtain ⟨-, hnl, hnr, hdis⟩ := hn
    have hab := hag a (by simpa [Trie.leaves] using ha) b (by simpa [Trie.leaves] using hb)
    simp only [Trie.path_node, mem_cons, mk.injEq, Trie.leaves_node, mem_append] at hpa hpb ha hb
    rcases hpa with ⟨-, rfl⟩ | hpa
    · exact hab
    rcases hpb with ⟨-, rfl⟩ | hpb
    · exact hab
    -- the node is on one side, and both leaves with it
    rcases ha with ha | ha <;> rcases hb with hb | hb
    · rw [if_neg (by simp [hl a ha])] at hpa
      rw [if_neg (by simp [hl b hb])] at hpb
      exact hab.step (by rw [hl a ha, hl b hb]) (ihl hsl hnl ha hb hpa hpb)
    · rw [if_neg (by simp [hl a ha])] at hpa
      rw [if_pos (hr b hb)] at hpb
      exact absurd rfl (hdis n (mem_inner_of_path hpa) n (mem_inner_of_path hpb))
    · rw [if_pos (hr a ha)] at hpa
      rw [if_neg (by simp [hl b hb])] at hpb
      exact absurd rfl (hdis n (mem_inner_of_path hpb) n (mem_inner_of_path hpa))
    · rw [if_pos (hr a ha)] at hpa
      rw [if_pos (hr b hb)] at hpb
      exact hab.step (by rw [hr a ha, hr b hb]) (ihr hsr hnr ha hb hpa hpb)

/-! ## A new leaf -/

/-- The new inner node `b` for the bit `d`, above `t` and the new leaf `a`. -/
def join (x : ℕ → Bool) (d : ℕ) (a b : A) (t : Trie A) : Trie A :=
  if x d then .node b d t (.leaf a) else .node b d (.leaf a) t

/-- Going down as long as nodes test bits in front of `d`. -/
def Trie.insert (x : ℕ → Bool) (d : ℕ) (a b : A) : Trie A → Trie A
  | .leaf c => join x d a b (.leaf c)
  | .node c i l r =>
    if i < d then
      if x i then .node c i l (r.insert x d a b) else .node c i (l.insert x d a b) r
    else join x d a b (.node c i l r)

/-- `d` is the first bit from `lo` on where `x` is not the key of the leaf it leads to. -/
structure Differs (key : A → ℕ → Bool) (lo : ℕ) (t : Trie A) (x : ℕ → Bool) (d : ℕ) : Prop where
  le : lo ≤ d
  agree : Agree x (key (t.find x)) lo d
  ne : x d ≠ key (t.find x) d

theorem all_join : (join x d a b t).all.Perm (b :: a :: t.all) := by
  unfold join
  split
  · refine List.Perm.cons b ?_
    exact perm_append_comm
  · exact List.Perm.refl _

theorem all_insert : (t.insert x d a b).all.Perm (b :: a :: t.all) := by
  induction t with
  | leaf c => exact all_join
  | node c i l r ihl ihr =>
    unfold Trie.insert
    split
    · split
      · have h : (c :: (l.all ++ (r.insert x d a b).all)).Perm (c :: (l.all ++ b :: a :: r.all)) :=
          (ihr.append_left l.all).cons c
        refine h.trans ?_
        refine ((List.perm_middle.trans (List.perm_middle.cons b)).cons c).trans ?_
        exact (List.Perm.swap b c _).trans ((List.Perm.swap a c _).cons b)
      · have h : (c :: ((l.insert x d a b).all ++ r.all)).Perm (c :: (b :: a :: (l.all ++ r.all))) :=
          (ihl.append_right r.all).cons c
        exact h.trans ((List.Perm.swap b c _).trans ((List.Perm.swap a c _).cons b))
    · exact all_join

theorem mem_leaves_join : n ∈ (join x d a b t).leaves ↔ n = a ∨ n ∈ t.leaves := by
  unfold join
  split <;> simp [or_comm]

theorem mem_leaves_insert : n ∈ (t.insert x d a b).leaves ↔ n = a ∨ n ∈ t.leaves := by
  induction t with
  | leaf c => exact mem_leaves_join
  | node c i l r ihl ihr =>
    unfold Trie.insert
    split
    · split
      · simp only [Trie.leaves_node, mem_append, ihr]
        tauto
      · simp only [Trie.leaves_node, mem_append, ihl]
        tauto
    · exact mem_leaves_join

theorem mem_inner_join : n ∈ (join x d a b t).inner ↔ n = b ∨ n ∈ t.inner := by
  unfold join
  split <;> simp

theorem mem_inner_insert : n ∈ (t.insert x d a b).inner ↔ n = b ∨ n ∈ t.inner := by
  induction t with
  | leaf c => exact mem_inner_join
  | node c i l r ihl ihr =>
    unfold Trie.insert
    split
    · split
      · simp only [Trie.inner_node, mem_cons, mem_append, ihr]
        tauto
      · simp only [Trie.inner_node, mem_cons, mem_append, ihl]
        tauto
    · exact mem_inner_join

/-- The way on from a node in front of the bit. -/
theorem Differs.right (h : Differs key lo (.node c i l r) x d) (hlo : lo ≤ i) (hi : i < d) (hx : x i = true) :
    Differs key (i + 1) r x d := by
  have hf : (Trie.node c i l r).find x = r.find x := by simp [hx]
  refine ⟨hi, fun e h1 h2 => ?_, ?_⟩
  · rw [← hf]
    exact h.agree e (by omega) h2
  · rw [← hf]
    exact h.ne

theorem Differs.left (h : Differs key lo (.node c i l r) x d) (hlo : lo ≤ i) (hi : i < d) (hx : ¬ x i = true) :
    Differs key (i + 1) l x d := by
  have hf : (Trie.node c i l r).find x = l.find x := by simp [hx]
  refine ⟨hi, fun e h1 h2 => ?_, ?_⟩
  · rw [← hf]
    exact h.agree e (by omega) h2
  · rw [← hf]
    exact h.ne

/-- No node tests the bit itself: it would have led to the other side. -/
theorem Differs.ne_bit (h : Differs key lo (.node c i l r) x d) (hs : Sound key lo (.node c i l r)) : i ≠ d := by
  rintro rfl
  obtain ⟨-, -, hl, hr, -, -⟩ := hs
  have hne := h.ne
  simp only [Trie.find_node] at hne
  split at hne
  · rename_i hx
    exact hne (hx.trans (hr _ (find_mem x r)).symm)
  · rename_i hx
    have hx' : x i = false := by simpa using hx
    exact hne (hx'.trans (hl _ (find_mem x l)).symm)

/-- The leaves of the tree the new node is put above agree with the found one. -/
theorem Sound.agree_find (hs : Sound key lo (.node c i l r)) (hi : d < i) (ha : a ∈ (Trie.node c i l r).leaves) :
    Agree (key a) (key ((Trie.node c i l r).find x)) lo (d + 1) := by
  obtain ⟨-, hag, -⟩ := hs
  exact (hag a ha _ (find_mem x (Trie.node c i l r))).mono hi

theorem Sound.congr (hs : Sound key lo t) (hk : ∀ c ∈ t.leaves, key' c = key c) : Sound key' lo t := by
  induction t generalizing lo with
  | leaf c => trivial
  | node c i l r ihl ihr =>
    obtain ⟨hlo, hag, hl, hr, hsl, hsr⟩ := hs
    have hkl : ∀ c ∈ l.leaves, key' c = key c := fun c hc => hk c (mem_append_left _ hc)
    have hkr : ∀ c ∈ r.leaves, key' c = key c := fun c hc => hk c (mem_append_right _ hc)
    refine ⟨hlo, ?_, ?_, ?_, ihl hsl hkl, ihr hsr hkr⟩
    · intro p hp q hq
      rw [hk p hp, hk q hq]
      exact hag p hp q hq
    · intro p hp
      rw [hkl p hp]
      exact hl p hp
    · intro p hp
      rw [hkr p hp]
      exact hr p hp

theorem join_sound (h : Differs key lo t x d)
    (hag : ∀ c ∈ t.leaves, Agree (key c) (key (t.find x)) lo (d + 1)) (hs' : Sound key' (d + 1) t)
    (ha : key' a = x) (hk : ∀ c ∈ t.leaves, key' c = key c) : Sound key' lo (join x d a b t) := by
  have hle := h.le
  have hleaf : ∀ c ∈ t.leaves, Agree (key' c) x lo d := by
    intro c hc
    rw [hk c hc]
    exact ((hag c hc).mono (by omega)).trans h.agree.symm
  have hbit : ∀ c ∈ t.leaves, key' c d = !x d := by
    intro c hc
    have hne := h.ne
    rw [hk c hc, hag c hc d hle (by omega)]
    cases hxd : x d <;> cases hkd : key (t.find x) d <;> simp_all
  have hall : ∀ c, c = a ∨ c ∈ t.leaves → Agree (key' c) x lo d := by
    rintro c (rfl | hc)
    · rw [ha]
      exact fun _ _ _ => rfl
    · exact hleaf c hc
  have hbitx : key' a d = x d := by rw [ha]
  unfold Patricia.join
  cases hxd : x d with
  | true =>
    rw [if_pos rfl]
    refine ⟨hle, ?_, ?_, ?_, hs', trivial⟩
    · intro p hp q hq
      simp only [Trie.leaves_leaf, mem_append, mem_singleton] at hp hq
      exact (hall p hp.symm).trans (hall q hq.symm).symm
    · intro p hp
      rw [hbit p hp, hxd]
      rfl
    · intro p hp
      obtain rfl : p = a := by simpa [Trie.leaves] using hp
      rw [hbitx, hxd]
  | false =>
    rw [if_neg (by simp)]
    refine ⟨hle, ?_, ?_, ?_, trivial, hs'⟩
    · intro p hp q hq
      simp only [Trie.leaves_leaf, mem_append, mem_singleton] at hp hq
      exact (hall p hp).trans (hall q hq).symm
    · intro p hp
      obtain rfl : p = a := by simpa [Trie.leaves] using hp
      rw [hbitx, hxd]
    · intro p hp
      rw [hbit p hp, hxd]
      rfl

/-- **A new leaf keeps the tree sound.** -/
theorem Sound.insert (hs : Sound key lo t) (h : Differs key lo t x d) (ha : key' a = x)
    (hk : ∀ c ∈ t.leaves, key' c = key c) : Sound key' lo (t.insert x d a b) := by
  induction t generalizing lo with
  | leaf c =>
    refine join_sound h ?_ trivial ha hk
    intro p hp
    obtain rfl : p = c := by simpa [Trie.leaves] using hp
    exact fun _ _ _ => rfl
  | node c i l r ihl ihr =>
    have hs0 := hs
    obtain ⟨hlo, hag, hl, hr, hsl, hsr⟩ := hs
    have hkl : ∀ c ∈ l.leaves, key' c = key c := fun c hc => hk c (mem_append_left _ hc)
    have hkr : ∀ c ∈ r.leaves, key' c = key c := fun c hc => hk c (mem_append_right _ hc)
    unfold Trie.insert
    split
    · rename_i hi
      -- the new leaf agrees with the others in front of this node, as the found one does
      have hnew : ∀ p, p = a ∨ p ∈ (Trie.node c i l r).leaves →
          Agree (key' p) (key ((Trie.node c i l r).find x)) lo i := by
        rintro p (rfl | hp)
        · rw [ha]
          exact h.agree.mono (by omega)
        · rw [hk p hp]
          exact hag p hp _ (find_mem x (Trie.node c i l r))
      split
      · rename_i hx
        refine ⟨hlo, ?_, ?_, ?_, hsl.congr hkl, ihr hsr (h.right hlo hi hx) hkr⟩
        · intro p hp q hq
          simp only [mem_append, mem_leaves_insert] at hp hq
          exact (hnew p (by simp only [Trie.leaves_node, mem_append]; tauto)).trans
            (hnew q (by simp only [Trie.leaves_node, mem_append]; tauto)).symm
        · intro p hp
          rw [hkl p hp]
          exact hl p hp
        · intro p hp
          rcases mem_leaves_insert.1 hp with rfl | hp
          · rw [ha, hx]
          · rw [hkr p hp]
            exact hr p hp
      · rename_i hx
        refine ⟨hlo, ?_, ?_, ?_, ihl hsl (h.left hlo hi hx) hkl, hsr.congr hkr⟩
        · intro p hp q hq
          simp only [mem_append, mem_leaves_insert] at hp hq
          exact (hnew p (by simp only [Trie.leaves_node, mem_append]; tauto)).trans
            (hnew q (by simp only [Trie.leaves_node, mem_append]; tauto)).symm
        · intro p hp
          rcases mem_leaves_insert.1 hp with rfl | hp
          · rw [ha]
            simpa using hx
          · rw [hkl p hp]
            exact hl p hp
        · intro p hp
          rw [hkr p hp]
          exact hr p hp
    · rename_i hi
      have hne := h.ne_bit hs0
      have hdi : d < i := by omega
      have hs' : Sound key (d + 1) (.node c i l r) := by
        refine ⟨hdi, ?_, hl, hr, hsl, hsr⟩
        intro p hp q hq e h1 h2
        have hle := h.le
        exact hag p hp q hq e (by omega) h2
      exact join_sound h (fun p hp => hs0.agree_find hdi hp) (hs'.congr hk) ha hk

/-- The way of the new key itself. -/
theorem Sound.insert_self (hs : Sound key lo t) (h : Differs key lo t x d) :
    (t.insert x d a b).find x = a ∧ (t.insert x d a b).path x = (t.path x).filter (·.2 < d) ++ [(b, d)] := by
  have hjoin : ∀ u : Trie A, (join x d a b u).find x = a ∧ (join x d a b u).path x = [(b, d)] := by
    intro u
    unfold join
    cases hxd : x d <;> simp [hxd]
  induction t generalizing lo with
  | leaf c => simpa [Trie.insert, Trie.path] using hjoin (.leaf c)
  | node c i l r ihl ihr =>
    have hs0 := hs
    obtain ⟨hlo, -, -, -, hsl, hsr⟩ := hs
    unfold Trie.insert
    split
    · rename_i hi
      split
      · rename_i hx
        obtain ⟨h1, h2⟩ := ihr hsr (h.right hlo hi hx)
        simp [hx, hi, h1, h2]
      · rename_i hx
        obtain ⟨h1, h2⟩ := ihl hsl (h.left hlo hi hx)
        simp [hx, hi, h1, h2]
    · rename_i hi
      -- all nodes from here on test later bits
      have hnil : ((Trie.node c i l r).path x).filter (·.2 < d) = [] := by
        rw [filter_eq_nil_iff]
        rintro ⟨n, j⟩ hm
        simp only [Trie.path_node, mem_cons, mk.injEq] at hm
        have hij : i ≤ j := by
          rcases hm with ⟨-, rfl⟩ | hm
          · omega
          · split at hm
            · have := hsr.le_of_path hm
              omega
            · have := hsl.le_of_path hm
              omega
        simp only [decide_eq_true_eq]
        omega
      rw [hnil]
      simpa using hjoin (.node c i l r)

/-- **Other keys** go to the new leaf or go on as before. -/
theorem Sound.insert_other (hs : Sound key lo t) (y : ℕ → Bool) :
    ((t.insert x d a b).find y = a ∧ y d = x d ∧ (∀ q ∈ t.path x, q.2 < d → y q.2 = x q.2)) ∨
      ((t.insert x d a b).find y = t.find y ∧ ∀ q ∈ t.path y, q ∈ (t.insert x d a b).path y) := by
  have hjoin : ∀ u : Trie A, ((join x d a b u).find y = a ∧ y d = x d) ∨
      ((join x d a b u).find y = u.find y ∧ ∀ q ∈ u.path y, q ∈ (join x d a b u).path y) := by
    intro u
    unfold join
    cases hxd : x d <;> cases hyd : y d <;> simp [hyd] <;> tauto
  induction t generalizing lo with
  | leaf c =>
    rcases hjoin (.leaf c) with h | h
    · exact .inl ⟨h.1, h.2, by simp⟩
    · exact .inr h
  | node c i l r ihl ihr =>
    have hs0 := hs
    obtain ⟨hlo, -, -, -, hsl, hsr⟩ := hs
    unfold Trie.insert
    split
    · rename_i hi
      split
      · rename_i hx
        cases hy : y i with
        | true =>
          simp only [Trie.find_node, Trie.path_node, hx, hy, if_true, mem_cons, forall_eq_or_imp]
          rcases ihr hsr with ⟨h1, h2, h3⟩ | ⟨h1, h2⟩
          · exact .inl ⟨h1, h2, fun _ => trivial, h3⟩
          · exact .inr ⟨h1, .inl trivial, fun q hq => .inr (h2 q hq)⟩
        | false =>
          simp only [Trie.find_node, Trie.path_node, hy, Bool.false_eq_true, if_false]
          exact .inr ⟨trivial, fun q hq => hq⟩
      · rename_i hx
        have hx' : x i = false := by simpa using hx
        cases hy : y i with
        | true =>
          simp only [Trie.find_node, Trie.path_node, hy, if_true]
          exact .inr ⟨trivial, fun q hq => hq⟩
        | false =>
          simp only [Trie.find_node, Trie.path_node, hx', hy, Bool.false_eq_true, if_false, mem_cons, forall_eq_or_imp]
          rcases ihl hsl with ⟨h1, h2, h3⟩ | ⟨h1, h2⟩
          · exact .inl ⟨h1, h2, fun _ => trivial, h3⟩
          · exact .inr ⟨h1, .inl trivial, fun q hq => .inr (h2 q hq)⟩
    · rename_i hi
      rcases hjoin (.node c i l r) with h | h
      · refine .inl ⟨h.1, h.2, ?_⟩
        rintro ⟨n, j⟩ hq hj
        have := (hs0.path_sorted x)
        simp only [Trie.path_node, pairwise_cons] at this
        simp only [Trie.path_node, mem_cons, mk.injEq] at hq
        rcases hq with ⟨-, rfl⟩ | hq
        · omega
        · have := this.1 _ hq
          simp only at this hj
          omega
      · exact .inr h

/-! ## A leaf goes away -/

/-- The leaf `a` goes away together with the node `c` above it. -/
inductive Spliced (a c : A) : Trie A → Trie A → Prop where
  | left {i : ℕ} {r : Trie A} : Spliced a c (.node c i (.leaf a) r) r
  | right {i : ℕ} {l : Trie A} : Spliced a c (.node c i l (.leaf a)) l
  | inLeft {n : A} {i : ℕ} {l l' r : Trie A} : Spliced a c l l' → Spliced a c (.node n i l r) (.node n i l' r)
  | inRight {n : A} {i : ℕ} {l r r' : Trie A} : Spliced a c r r' → Spliced a c (.node n i l r) (.node n i l r')

/-- Every leaf of a tree with more than one can go away. -/
theorem exists_spliced (ha : a ∈ t.leaves) (ht : t ≠ .leaf a) : ∃ c t', Spliced a c t t' := by
  induction t with
  | leaf c =>
    obtain rfl : a = c := by simpa [Trie.leaves] using ha
    exact absurd rfl ht
  | node n i l r ihl ihr =>
    rcases mem_append.1 ha with h | h
    · by_cases hl : l = .leaf a
      · subst hl
        exact ⟨n, r, .left⟩
      · obtain ⟨c, l', hc⟩ := ihl h hl
        exact ⟨c, _, .inLeft hc⟩
    · by_cases hr : r = .leaf a
      · subst hr
        exact ⟨n, l, .right⟩
      · obtain ⟨c, r', hc⟩ := ihr h hr
        exact ⟨c, _, .inRight hc⟩

theorem Spliced.all (h : Spliced a c t t') : t.all.Perm (c :: a :: t'.all) := by
  induction h with
  | left => exact List.Perm.refl _
  | right => exact List.perm_append_comm.cons c
  | @inLeft n i l l' r _ ih =>
    have h : (n :: (l.all ++ r.all)).Perm (n :: (c :: a :: (l'.all ++ r.all))) := (ih.append_right r.all).cons n
    exact h.trans ((List.Perm.swap c n _).trans ((List.Perm.swap a n _).cons c))
  | @inRight n i l r r' _ ih =>
    have h : (n :: (l.all ++ r.all)).Perm (n :: (l.all ++ c :: a :: r'.all)) := (ih.append_left l.all).cons n
    refine h.trans ?_
    refine ((List.perm_middle.trans (List.perm_middle.cons c)).cons n).trans ?_
    exact (List.Perm.swap c n _).trans ((List.Perm.swap a n _).cons c)

theorem Spliced.mem_leaves (h : Spliced a c t t') : n ∈ t.leaves ↔ n = a ∨ n ∈ t'.leaves := by
  induction h with
  | left => simp
  | right => simp [or_comm]
  | inLeft _ ih =>
    simp only [Trie.leaves_node, mem_append, ih]
    tauto
  | inRight _ ih =>
    simp only [Trie.leaves_node, mem_append, ih]
    tauto

theorem Spliced.mem_inner (h : Spliced a c t t') : n ∈ t.inner ↔ n = c ∨ n ∈ t'.inner := by
  induction h with
  | left => simp
  | right => simp
  | inLeft _ ih =>
    simp only [Trie.inner_node, mem_cons, mem_append, ih]
    tauto
  | inRight _ ih =>
    simp only [Trie.inner_node, mem_cons, mem_append, ih]
    tauto

/-- One side of a node, in its place. -/
theorem Sound.lower {bit : Bool} (hs : Sound key (i + 1) t) (hlo : lo ≤ i)
    (hag : ∀ a ∈ t.leaves, ∀ b ∈ t.leaves, Agree (key a) (key b) lo i) (hb : ∀ a ∈ t.leaves, key a i = bit) :
    Sound key lo t := by
  cases t with
  | leaf c => trivial
  | node c j l r =>
    obtain ⟨hij, hag', hl, hr, hsl, hsr⟩ := hs
    refine ⟨by omega, fun p hp q hq => ?_, hl, hr, hsl, hsr⟩
    exact (hag p hp q hq).step ((hb p hp).trans (hb q hq).symm) (hag' p hp q hq)

theorem Spliced.sound (h : Spliced a c t t') (hs : Sound key lo t) : Sound key lo t' := by
  induction h generalizing lo with
  | left =>
    obtain ⟨hlo, hag, -, hr, -, hsr⟩ := hs
    exact hsr.lower hlo (fun p hp q hq => hag p (mem_append_right _ hp) q (mem_append_right _ hq)) hr
  | right =>
    obtain ⟨hlo, hag, hl, -, hsl, -⟩ := hs
    exact hsl.lower hlo (fun p hp q hq => hag p (mem_append_left _ hp) q (mem_append_left _ hq)) hl
  | inLeft h ih =>
    obtain ⟨hlo, hag, hl, hr, hsl, hsr⟩ := hs
    have hmem := fun p => (h.mem_leaves (n := p)).2
    refine ⟨hlo, ?_, fun p hp => hl p (hmem p (.inr hp)), hr, ih hsl, hsr⟩
    intro p hp q hq
    refine hag p ?_ q ?_
    · exact (mem_append.1 hp).elim (fun hp => mem_append_left _ (hmem p (.inr hp))) (mem_append_right _)
    · exact (mem_append.1 hq).elim (fun hq => mem_append_left _ (hmem q (.inr hq))) (mem_append_right _)
  | inRight h ih =>
    obtain ⟨hlo, hag, hl, hr, hsl, hsr⟩ := hs
    have hmem := fun p => (h.mem_leaves (n := p)).2
    refine ⟨hlo, ?_, hl, fun p hp => hr p (hmem p (.inr hp)), hsl, ih hsr⟩
    intro p hp q hq
    refine hag p ?_ q ?_
    · exact (mem_append.1 hp).elim (mem_append_left _) (fun hp => mem_append_right _ (hmem p (.inr hp)))
    · exact (mem_append.1 hq).elim (mem_append_left _) (fun hq => mem_append_right _ (hmem q (.inr hq)))

/-- All nodes but the removed one stay on every way. -/
theorem Spliced.path (h : Spliced a c t t') (hm : (n, i) ∈ t.path x) (hn : n ≠ c) : (n, i) ∈ t'.path x := by
  induction h with
  | left =>
    simp only [Trie.path_node, mem_cons, mk.injEq, hn, false_and, false_or] at hm
    split at hm
    · exact hm
    · cases hm
  | right =>
    simp only [Trie.path_node, mem_cons, mk.injEq, hn, false_and, false_or] at hm
    split at hm
    · cases hm
    · exact hm
  | inLeft _ ih =>
    simp only [Trie.path_node, mem_cons, mk.injEq] at hm ⊢
    refine hm.imp id fun hm => ?_
    split
    · rename_i hx
      rwa [if_pos hx] at hm
    · rename_i hx
      rw [if_neg hx] at hm
      exact ih hm
  | inRight _ ih =>
    simp only [Trie.path_node, mem_cons, mk.injEq] at hm ⊢
    refine hm.imp id fun hm => ?_
    split
    · rename_i hx
      rw [if_pos hx] at hm
      exact ih hm
    · rename_i hx
      rwa [if_neg hx] at hm

/-! ## New labels -/

variable {ρ : A → A}

theorem map_id_of (hρ : ∀ n ∈ t.all, ρ n = n) : t.map ρ = t := by
  induction t with
  | leaf c => simp [hρ c (by simp [Trie.all_leaf])]
  | node c i l r ihl ihr =>
    simp only [Trie.map_node, hρ c (by simp), ihl fun n hn => hρ n (by simp [hn]),
      ihr fun n hn => hρ n (by simp [hn])]

theorem map_top : (t.map ρ).top = ρ t.top := by cases t <;> rfl

theorem map_leaves : (t.map ρ).leaves = t.leaves.map ρ := by
  induction t with
  | leaf c => rfl
  | node c i l r ihl ihr => simp [ihl, ihr]

theorem map_inner : (t.map ρ).inner = t.inner.map ρ := by
  induction t with
  | leaf c => rfl
  | node c i l r ihl ihr => simp [ihl, ihr]

theorem map_all : (t.map ρ).all = t.all.map ρ := by
  induction t with
  | leaf c => rfl
  | node c i l r ihl ihr => simp [ihl, ihr]

theorem map_path : (t.map ρ).path x = (t.path x).map fun q => (ρ q.1, q.2) := by
  induction t with
  | leaf c => rfl
  | node c i l r ihl ihr =>
    simp only [Trie.map_node, Trie.path_node, map_cons]
    split
    · rw [ihr]
    · rw [ihl]

theorem Sound.map (hs : Sound key lo t) (hk : ∀ c ∈ t.leaves, key (ρ c) = key c) : Sound key lo (t.map ρ) := by
  induction t generalizing lo with
  | leaf c => trivial
  | node c i l r ihl ihr =>
    obtain ⟨hlo, hag, hl, hr, hsl, hsr⟩ := hs
    simp only [Trie.leaves_node] at hk
    refine ⟨hlo, ?_, ?_, ?_, ihl hsl fun c hc => hk c (mem_append_left _ hc),
      ihr hsr fun c hc => hk c (mem_append_right _ hc)⟩
    · rw [map_leaves, map_leaves, ← map_append]
      intro _ hp' _ hq'
      obtain ⟨p, hp, rfl⟩ := mem_map.1 hp'
      obtain ⟨q, hq, rfl⟩ := mem_map.1 hq'
      rw [hk p hp, hk q hq]
      exact hag p hp q hq
    · rw [map_leaves]
      intro _ hp'
      obtain ⟨p, hp, rfl⟩ := mem_map.1 hp'
      rw [hk p (mem_append_left _ hp)]
      exact hl p hp
    · rw [map_leaves]
      intro _ hp'
      obtain ⟨p, hp, rfl⟩ := mem_map.1 hp'
      rw [hk p (mem_append_right _ hp)]
      exact hr p hp

end Patricia
