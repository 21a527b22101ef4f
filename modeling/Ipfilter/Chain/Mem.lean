import Mathlib.Data.List.Induction
import Mathlib.Data.List.Nodup
import Mathlib.Algebra.Ring.Int.Defs
import Mathlib.Algebra.Ring.Nat

/-!
# Chains with back links

Intrusive lists in the style of BSD kernels: a node has a forward pointer `next`
and a back pointer `pnext` that holds the *place* of the forward pointer that
points to it (a list head, or the `next` field of the node before it). Removing a
node needs nothing but the node.

* `Mem`: the link fields of a memory, over any type of heads and nodes.
* `Path`, `Seg`: the forward pointers from a place spell out a list, and each back
  pointer is the place that points to its node.
* `Rep`: every head spells out its list.
* `Rep.unique`: a node is on at most one list, and once.
* `Rep.remove`, `Rep.insert`: the two edits, as edits of one list.
* `Mem.link`, `Mem.cut`: the usual code for them.
* `Mem.seek`, `Seg.seek`: a cursor that walks over the nodes with a property.
-/

namespace Chain

open List
open Function (update update_apply update_of_ne update_self)

/-- The place of a forward pointer: a list head, or the `next` field of a node. -/
inductive Link (H N : Type) where
  | head (h : H)
  | next (n : N)
  deriving DecidableEq, Repr

/-- The link fields of a memory. -/
@[ext] structure Mem (H N : Type) where
  head : H → Option N
  next : N → Option N
  pnext : N → Option (Link H N)

variable {H N : Type}

/-- No node is linked anywhere. -/
def Mem.empty : Mem H N := ⟨fun _ => none, fun _ => none, fun _ => none⟩

/-- The forward pointer stored at a place. -/
def Mem.get (m : Mem H N) : Link H N → Option N
  | .head h => m.head h
  | .next n => m.next n

variable {m m' : Mem H N} {k k' : Link H N} {n : N} {l l₁ l₂ : List N}

@[simp] theorem next_get : m.get (.next n) = m.next n := rfl

@[simp] theorem head_get (h : H) : m.get (.head h) = m.head h := rfl

/-! ## What a chain spells out -/

/-- The place after the list `l` that starts at `k`. -/
def lastLink (k : Link H N) : List N → Link H N
  | [] => k
  | n :: l => lastLink (.next n) l

/-- The forward pointers from `k` go through `l`, and back pointers agree. -/
def Path (m : Mem H N) : Link H N → List N → Prop
  | _, [] => True
  | k, n :: l => m.get k = some n ∧ m.pnext n = some k ∧ Path m (.next n) l

/-- The chain at `k` is exactly `l`. -/
def Seg (m : Mem H N) (k : Link H N) (l : List N) : Prop :=
  Path m k l ∧ m.get (lastLink k l) = none

/-- **Every head spells out its list.** -/
def Rep (m : Mem H N) (L : H → List N) : Prop := ∀ h, Seg m (.head h) (L h)

/-- The places a path reads. -/
def links (k : Link H N) : List N → List (Link H N)
  | [] => []
  | n :: l => k :: links (.next n) l

theorem lastLink_append (l₁ l₂ : List N) : lastLink k (l₁ ++ l₂) = lastLink (lastLink k l₁) l₂ := by
  induction l₁ generalizing k with
  | nil => rfl
  | cons x xs ih => exact ih

theorem lastLink_concat (l : List N) : lastLink k (l ++ [n]) = .next n := by
  rw [lastLink_append]; rfl

theorem path_append (l₁ l₂ : List N) : Path m k (l₁ ++ l₂) ↔ Path m k l₁ ∧ Path m (lastLink k l₁) l₂ := by
  induction l₁ generalizing k with
  | nil => simp [Path, lastLink]
  | cons x xs ih => simp only [cons_append, Path, lastLink, ih, and_assoc]

theorem seg_cons (l : List N) : Seg m k (n :: l) ↔ m.get k = some n ∧ m.pnext n = some k ∧ Seg m (.next n) l := by
  simp only [Seg, Path, lastLink, and_assoc]

theorem seg_append (l₁ l₂ : List N) : Seg m k (l₁ ++ l₂) ↔ Path m k l₁ ∧ Seg m (lastLink k l₁) l₂ := by
  simp only [Seg, path_append, lastLink_append, and_assoc]

/-- The place after a list is its start or the `next` field of one of its nodes. -/
theorem lastLink_cases (l : List N) : lastLink k l = k ∨ ∃ x ∈ l, lastLink k l = .next x := by
  induction l generalizing k with
  | nil => exact .inl rfl
  | cons x xs ih =>
    refine .inr ?_
    rcases ih (k := .next x) with h | ⟨y, hy, h⟩
    · exact ⟨x, mem_cons_self, h⟩
    · exact ⟨y, mem_cons_of_mem _ hy, h⟩

theorem mem_links (h : k' ∈ links k l) : k' = k ∨ ∃ x ∈ l, k' = .next x := by
  induction l generalizing k with
  | nil => simp [links] at h
  | cons x xs ih =>
    rcases mem_cons.1 h with h | h
    · exact .inl h
    · rcases ih h with h | ⟨y, hy, h⟩
      · exact .inr ⟨x, mem_cons_self, h⟩
      · exact .inr ⟨y, mem_cons_of_mem _ hy, h⟩

/-- **Frame.** A path only reads its own places and the back pointers of its nodes. -/
theorem Path.frame (hp : Path m k l) (hg : ∀ x ∈ links k l, m'.get x = m.get x)
    (hn : ∀ x ∈ l, m'.pnext x = m.pnext x) : Path m' k l := by
  induction l generalizing k with
  | nil => trivial
  | cons x xs ih =>
    obtain ⟨h1, h2, h3⟩ := hp
    refine ⟨(hg k mem_cons_self).trans h1, (hn x mem_cons_self).trans h2, ?_⟩
    exact ih h3 (fun y hy => hg y (mem_cons_of_mem _ hy))
      (fun y hy => hn y (mem_cons_of_mem _ hy))

/-- The first node of a chain is what its start points to. -/
theorem Seg.head? (h : Seg m k l) : m.get k = l.head? := by
  cases l with
  | nil => exact h.2
  | cons x xs => exact h.1.1

/-- A place spells out one list only. -/
theorem Seg.unique {l l' : List N} (h : Seg m k l) (h' : Seg m k l') : l = l' := by
  induction l generalizing k l' with
  | nil =>
    have hnone : l'.head? = none := by rw [← h'.head?, h.head?]; rfl
    exact (head?_eq_none_iff.1 hnone).symm
  | cons x l ih =>
    cases l' with
    | nil =>
      have hx := h.head?.symm.trans h'.head?
      exact absurd hx (by simp)
    | cons y l' =>
      obtain ⟨hx, -, hl⟩ := (seg_cons _).1 h
      obtain ⟨hy, -, hl'⟩ := (seg_cons _).1 h'
      obtain rfl : x = y := Option.mem_unique hx hy
      rw [ih hl hl']

/-- A path determines the place of each of its nodes. -/
theorem Path.pnext_mem (h : Path m k (l₁ ++ n :: l₂)) :
    m.pnext n = some (lastLink k l₁) := ((path_append _ _).1 h).2.2.1

/-! ## A node is on at most one list, and once -/

/-- **Back pointers fix the position.** If a node is on two chains of a memory,
then on the same one and after the same nodes. -/
theorem Rep.unique {L : H → List N} (hr : Rep m L) :
    ∀ (l₁ : List N) {h h' : H} {n : N} {l₂ l₁' l₂' : List N}, L h = l₁ ++ n :: l₂ →
      L h' = l₁' ++ n :: l₂' → h = h' ∧ l₁ = l₁' := by
  intro l₁
  induction l₁ using reverseRecOn with
  | nil =>
    intro h h' n l₂ l₁' l₂' e e'
    have p := (e ▸ (hr h).1 : Path m _ ([] ++ n :: l₂)).pnext_mem
    have p' := (e' ▸ (hr h').1 : Path m _ (l₁' ++ n :: l₂')).pnext_mem
    rw [p] at p'
    rcases eq_nil_or_concat l₁' with rfl | ⟨l, x, rfl⟩
    · simpa [lastLink] using p'
    · rw [concat_eq_append, lastLink_concat] at p'; simp [lastLink] at p'
  | append_singleton l x ih =>
    intro h h' n l₂ l₁' l₂' e e'
    have p := (e ▸ (hr h).1 : Path m _ ((l ++ [x]) ++ n :: l₂)).pnext_mem
    have p' := (e' ▸ (hr h').1 : Path m _ (l₁' ++ n :: l₂')).pnext_mem
    rw [p, lastLink_concat] at p'
    rcases eq_nil_or_concat l₁' with rfl | ⟨l', y, rfl⟩
    · simp [lastLink] at p'
    · rw [concat_eq_append, lastLink_concat] at p'
      obtain rfl : x = y := by simpa using p'
      -- the nodes before `n` are the same node, so their prefixes agree too
      have e2 : L h = l ++ x :: (n :: l₂) := by rw [e]; simp
      have e2' : L h' = l' ++ x :: (n :: l₂') := by rw [e']; simp
      obtain ⟨h1, h2⟩ := ih e2 e2'
      exact ⟨h1, by rw [h2, concat_eq_append]⟩

variable {L : H → List N} {h h' : H}

/-- What points to a node. -/
theorem Rep.pnext (hr : Rep m L) (e : L h = l₁ ++ n :: l₂) : m.pnext n = some (lastLink (.head h) l₁) :=
  (e ▸ (hr h).1 : Path m _ (l₁ ++ n :: l₂)).pnext_mem

/-- What a node points to. -/
theorem Seg.next (hs : Seg m k (l₁ ++ n :: l₂)) : m.next n = l₂.head? :=
  ((seg_cons _).1 ((seg_append _ _).1 hs).2).2.2.head?

theorem Rep.next (hr : Rep m L) (e : L h = l₁ ++ n :: l₂) : m.next n = l₂.head? :=
  (e ▸ hr h : Seg m _ (l₁ ++ n :: l₂)).next

theorem Rep.nodup (hr : Rep m L) (h : H) : (L h).Nodup := by
  rw [nodup_iff_sublist]
  intro a hs
  obtain ⟨l₁, l₂, e, h1, h2⟩ := cons_sublist_iff.1 hs
  obtain ⟨s, t, e'⟩ := append_of_mem (singleton_sublist.1 h2)
  obtain ⟨s', t', e''⟩ := append_of_mem h1
  have e1 : L h = s' ++ a :: (t' ++ l₂) := by rw [e, e'']; simp
  have e2 : L h = (l₁ ++ s) ++ a :: t := by rw [e, e']; simp
  have hl := congrArg length (hr.unique s' e1 e2).2
  rw [e''] at hl
  simp at hl

theorem Rep.disjoint (hr : Rep m L) (hne : h ≠ h') (hn : n ∈ L h) : n ∉ L h' := by
  intro hn'
  obtain ⟨l₁, l₂, e⟩ := append_of_mem hn
  obtain ⟨l₁', l₂', e'⟩ := append_of_mem hn'
  exact hne (hr.unique l₁ e e').1

/-- A chain only reads its start and the fields of its nodes. -/
theorem Seg.frame (hs : Seg m k l) (hk : m'.get k = m.get k)
    (hg : ∀ x ∈ l, m'.next x = m.next x) (hn : ∀ x ∈ l, m'.pnext x = m.pnext x) : Seg m' k l := by
  refine ⟨hs.1.frame (fun x hx => ?_) hn, ?_⟩
  · rcases mem_links hx with rfl | ⟨y, hy, rfl⟩
    · exact hk
    · exact hg y hy
  · rcases lastLink_cases (k := k) l with e | ⟨y, hy, e⟩
    · rw [e, hk, ← e]; exact hs.2
    · have h2 := hs.2
      rw [e] at h2 ⊢
      exact (hg y hy).trans h2

/-- The place after a list without repetition is not one of the places it reads. -/
theorem lastLink_notMem_links (hl : l.Nodup) (hk : ∀ x ∈ l, k ≠ .next x) : lastLink k l ∉ links k l := by
  induction l generalizing k with
  | nil => simp [links]
  | cons x xs ih =>
    rw [nodup_cons] at hl
    simp only [lastLink, links, mem_cons, not_or]
    refine ⟨?_, ih hl.2 (fun y hy e => ?_)⟩
    · rcases lastLink_cases (k := Link.next (H := H) x) xs with e | ⟨y, hy, e⟩
      · rw [e]; exact (hk x mem_cons_self).symm
      · rw [e]; exact (hk y (mem_cons_of_mem _ hy)).symm
    · obtain rfl : x = y := by simpa using e
      exact hl.1 hy

/-- The place before a node is no field of a node after it. -/
theorem Rep.lastLink_ne (hr : Rep m L) (e : L h = l₁ ++ l₂) {x : N} (hx : x ∈ l₂) :
    lastLink (.head h) l₁ ≠ .next x := by
  have hd := hr.nodup h
  rw [e, nodup_append'] at hd
  rcases lastLink_cases (k := Link.head (N := N) h) l₁ with c | ⟨y, hy, c⟩
  · rw [c]; simp
  · rw [c]
    rintro ⟨⟩
    exact hd.2.2 hy hx

/-- The place after a prefix of a chain is no place of another chain. -/
theorem Rep.lastLink_ne_other (hr : Rep m L) (e : L h = l₁ ++ l₂) (hne : h' ≠ h) :
    lastLink (.head h) l₁ ≠ .head h' ∧ ∀ x ∈ L h', lastLink (.head h) l₁ ≠ .next x := by
  rcases lastLink_cases (k := Link.head (N := N) h) l₁ with c | ⟨y, hy, c⟩
  · rw [c]; exact ⟨fun h => hne (by simpa using h.symm), fun x _ h => by simp at h⟩
  · rw [c]
    refine ⟨by simp, fun x hx h => ?_⟩
    obtain rfl : y = x := by simpa using h
    exact hr.disjoint hne hx (by rw [e]; exact mem_append_left _ hy)

/-- The part of a chain before a place does not see edits at that place. -/
theorem Rep.path_frame (hr : Rep m L) (e : L h = l₁ ++ l₂)
    (hg : ∀ x, x ≠ lastLink (.head h) l₁ → (∀ y ∉ l₁, x ≠ .next y) → m'.get x = m.get x)
    (hn : ∀ x ∈ l₁, m'.pnext x = m.pnext x) : Path m' (.head h) l₁ := by
  have hd := hr.nodup h
  have hs := hr h
  rw [e] at hd hs
  rw [nodup_append'] at hd
  have hl := lastLink_notMem_links (k := Link.head (N := N) h) hd.1 (by simp)
  refine ((seg_append _ _).1 hs).1.frame (fun x hx => hg x (fun c => hl (c ▸ hx)) ?_) hn
  rintro y hy rfl
  rcases mem_links hx with c | ⟨z, hz, c⟩
  · simp at c
  · exact hy (by simpa using (by simpa using c : y = z) ▸ hz)

/-! ## Edits -/

section Edit

variable [DecidableEq N] {n' : N} {o v : Option N} {p : Option (Link H N)}

/-- Store a back pointer: `n->pnext = p`. -/
def Mem.setP (m : Mem H N) (n : N) (p : Option (Link H N)) : Mem H N :=
  { m with pnext := update m.pnext n p }

/-- Store a back pointer in the node behind a pointer, if there is one:
`if (o != NULL) o->pnext = p`. -/
def Mem.setP? (m : Mem H N) (o : Option N) (p : Option (Link H N)) : Mem H N :=
  match o with
  | none => m
  | some n => m.setP n p

@[simp] theorem next_setP : (m.setP n p).next = m.next := rfl

@[simp] theorem head_setP : (m.setP n p).head = m.head := rfl

@[simp] theorem get_setP : (m.setP n p).get k = m.get k := by cases k <;> rfl

@[simp] theorem next_setP? : (m.setP? o p).next = m.next := by cases o <;> rfl

@[simp] theorem head_setP? : (m.setP? o p).head = m.head := by cases o <;> rfl

@[simp] theorem get_setP? : (m.setP? o p).get k = m.get k := by cases o <;> simp [Mem.setP?]

@[simp] theorem pnext_setP : (m.setP n p).pnext n' = if n' = n then p else m.pnext n' := by
  simp [Mem.setP, update_apply]

@[simp] theorem pnext_setP? : (m.setP? o p).pnext n' = if o = some n' then p else m.pnext n' := by
  cases o with
  | none => simp [Mem.setP?]
  | some x => simp [Mem.setP?, eq_comm]

variable [DecidableEq H]

/-- Store a forward pointer at a place: `*k = v`. -/
def Mem.set (m : Mem H N) (k : Link H N) (v : Option N) : Mem H N :=
  match k with
  | .head h => { m with head := update m.head h v }
  | .next n => { m with next := update m.next n v }

@[simp] theorem get_set : (m.set k v).get k' = if k' = k then v else m.get k' := by
  cases k <;> cases k' <;> simp [Mem.set, Mem.get, update_apply]

@[simp] theorem next_set : (m.set k v).next n = if k = .next n then v else m.next n := by
  rw [← next_get, get_set, next_get]; simp only [eq_comm]

@[simp] theorem head_set : (m.set k v).head h = if k = .head h then v else m.head h := by
  rw [← head_get, get_set, head_get]; simp only [eq_comm]

@[simp] theorem pnext_set : (m.set k v).pnext = m.pnext := by cases k <;> rfl

end Edit

/-- `m'` is `m` with the node `n` taken out of the place `k`; the fields of `n` itself
are left open. -/
structure Removed (m m' : Mem H N) (n : N) (k : Link H N) : Prop where
  place : k ≠ .next n → m'.get k = m.next n
  get : ∀ x, x ≠ k → x ≠ .next n → m'.get x = m.get x
  succ : ∀ y, m.next n = some y → y ≠ n → m'.pnext y = some k
  pnext : ∀ x, m.next n ≠ some x → x ≠ n → m'.pnext x = m.pnext x

/-- `m'` is `m` with the node `n` put in at the place `k`. -/
structure Inserted (m m' : Mem H N) (n : N) (k : Link H N) : Prop where
  place : m'.get k = some n
  next : k ≠ .next n → m'.next n = m.get k
  back : m'.pnext n = some k
  get : ∀ x, x ≠ k → x ≠ .next n → m'.get x = m.get x
  succ : ∀ y, m.get k = some y → y ≠ n → m'.pnext y = some (.next n)
  pnext : ∀ x, m.get k ≠ some x → x ≠ n → m'.pnext x = m.pnext x

variable [DecidableEq H]

/-- A node leaves a list, or comes in: `b` instead of `a` between two parts, where only the node `n` is in one of them. -/
theorem Rep.splice (hr : Rep m L) {l₁ a b l₂ : List N} (e : L h = l₁ ++ (a ++ l₂)) (h1 : n ∉ l₁) (h2 : n ∉ l₂)
    (hne : ∀ h' ≠ h, n ∉ L h') (hget : ∀ x, x ≠ lastLink (.head h) l₁ → x ≠ .next n → m'.get x = m.get x)
    (hpnext : ∀ x, l₂.head? ≠ some x → x ≠ n → m'.pnext x = m.pnext x)
    (hsucc : ∀ y, l₂.head? = some y → m'.pnext y = some (lastLink (lastLink (.head h) l₁) b))
    (hb : Path m' (lastLink (.head h) l₁) b) (hend : m'.get (lastLink (lastLink (.head h) l₁) b) = l₂.head?) :
    Rep m' (update L h (l₁ ++ (b ++ l₂))) := by
  have hs := hr h
  have hd := hr.nodup h
  rw [e] at hs hd
  rw [nodup_append'] at hd
  obtain ⟨-, hd2, hdd⟩ := hd
  have hs2 := ((seg_append _ _).1 ((seg_append _ _).1 hs).2).2
  intro h'
  by_cases hh : h' = h
  · subst hh
    rw [update_self, seg_append, seg_append]
    refine ⟨hr.path_frame e (fun x hx hx' => hget x hx (hx' n h1)) (fun x hx => ?_), hb, ?_⟩
    · refine hpnext x (fun c => ?_) fun c => h1 (c ▸ hx)
      exact hdd hx (mem_append_right _ (mem_of_head? c))
    · cases l₂ with
      | nil => exact ⟨trivial, hend⟩
      | cons y l₃ =>
        obtain ⟨-, -, h3⟩ := (seg_cons _).1 hs2
        have hne : ∀ x ∈ y :: l₃, lastLink (.head h') l₁ ≠ .next x :=
          fun x hx => hr.lastLink_ne e (mem_append_right _ hx)
        have hnx : ∀ x ∈ y :: l₃, x ≠ n := fun x hx c => h2 (c ▸ hx)
        have hy := (nodup_cons.1 (nodup_append'.1 hd2).2.1).1
        refine (seg_cons _).2 ⟨hend, hsucc y rfl, h3.frame ?_ ?_ ?_⟩
        · have := hnx y mem_cons_self
          exact hget _ (hne y mem_cons_self).symm (by simpa using this)
        · intro x hx
          have := hnx x (mem_cons_of_mem _ hx)
          exact hget (.next x) (hne x (mem_cons_of_mem _ hx)).symm (by simpa using this)
        · intro x hx
          have : y ≠ x := fun c => hy (c ▸ hx)
          exact hpnext x (by simpa using this) (hnx x (mem_cons_of_mem _ hx))
  · rw [update_of_ne hh]
    obtain ⟨g1, g2⟩ := hr.lastLink_ne_other e hh
    have hnx : ∀ x ∈ L h', x ≠ n := fun x hx c => hne h' hh (c ▸ hx)
    refine (hr h').frame (hget _ g1.symm (by simp)) (fun x hx => ?_) fun x hx => ?_
    · exact hget (.next x) (g2 x hx).symm (by simpa using hnx x hx)
    · refine hpnext x (fun c => ?_) (hnx x hx)
      exact hr.disjoint hh hx (by rw [e]; simp [mem_of_head? c])

/-- **Removal.** Writing a node's `next` over the place that points to it, and the
place into the next node's back pointer, takes exactly this node out of its list. -/
theorem Rep.remove (hr : Rep m L) (e : L h = l₁ ++ n :: l₂) {k : Link H N}
    (hk : k = lastLink (.head h) l₁) (hm : Removed m m' n k) : Rep m' (update L h (l₁ ++ l₂)) := by
  subst hk
  have hs := hr h
  have hd := hr.nodup h
  rw [e] at hs hd
  have hy : m.next n = l₂.head? := hs.next
  rw [nodup_append', nodup_cons] at hd
  obtain ⟨-, ⟨hn2, -⟩, hdd⟩ := hd
  have hout : ∀ h' ≠ h, n ∉ L h' := fun h' hh hc => hr.disjoint hh hc (by rw [e]; simp)
  refine hr.splice (a := [n]) (b := []) e (fun c => hdd c mem_cons_self) hn2 hout hm.get
    (fun x hx => hm.pnext x (by rwa [hy])) ?_ trivial ?_
  · intro y hy'
    exact hm.succ y (hy.trans hy') fun c => hn2 (c ▸ mem_of_head? hy')
  · exact (hm.place (hr.lastLink_ne e mem_cons_self)).trans hy

/-- **Insertion.** Linking a fresh node in at a place puts it there in the list. -/
theorem Rep.insert (hr : Rep m L) (e : L h = l₁ ++ l₂) (hf : ∀ h, n ∉ L h)
    {k : Link H N} (hk : k = lastLink (.head h) l₁) (hm : Inserted m m' n k) :
    Rep m' (update L h (l₁ ++ n :: l₂)) := by
  subst hk
  have hs := hr h
  rw [e] at hs
  have hy : m.get (lastLink (.head h) l₁) = l₂.head? := ((seg_append _ _).1 hs).2.head?
  have hn : n ∉ l₁ ∧ n ∉ l₂ := by
    have := hf h
    rwa [e, mem_append, not_or] at this
  have hkn : lastLink (.head h) l₁ ≠ .next n := by
    rcases lastLink_cases (k := Link.head (N := N) h) l₁ with c | ⟨y, hy, c⟩
    · rw [c]; simp
    · rw [c]
      rintro ⟨⟩
      exact hn.1 hy
  refine hr.splice (a := []) (b := [n]) e hn.1 hn.2 (fun h' _ => hf h') hm.get (fun x hx => hm.pnext x (by rwa [hy])) ?_
    ⟨hm.place, hm.back, trivial⟩ ((hm.next hkn).trans hy)
  intro y hy'
  exact hm.succ y (hy.trans hy') fun c => hn.2 (c ▸ mem_of_head? hy')

/-- Taking a node out of its list is taking it out everywhere. -/
theorem Rep.update_eq_filter [DecidableEq N] (hr : Rep m L) (e : L h = l₁ ++ n :: l₂) :
    update L h (l₁ ++ l₂) = fun h' => (L h').filter (· ≠ n) := by
  funext h'
  by_cases hh : h' = h
  · subst hh
    have hd := hr.nodup h'
    rw [e, nodup_middle, nodup_cons, mem_append, not_or] at hd
    have h1 : ∀ x ∈ l₁, x ≠ n := fun x hx c => hd.1.1 (c ▸ hx)
    have h2 : ∀ x ∈ l₂, x ≠ n := fun x hx c => hd.1.2 (c ▸ hx)
    rw [update_self, e, filter_append, filter_cons_of_neg (by simp),
      filter_eq_self.2 (by simpa using h1), filter_eq_self.2 (by simpa using h2)]
  · rw [update_of_ne hh, eq_comm, filter_eq_self]
    intro x hx
    have : x ≠ n := fun c => hr.disjoint hh (c ▸ hx) (by rw [e]; simp)
    simpa using this

omit [DecidableEq H] in
/-- Edits that leave the fields of the listed nodes alone leave the lists alone. -/
theorem Rep.congr (hr : Rep m L) (hh : m'.head = m.head) (hn : ∀ h, ∀ n ∈ L h, m'.next n = m.next n)
    (hp : ∀ h, ∀ n ∈ L h, m'.pnext n = m.pnext n) : Rep m' L := by
  intro h
  refine (hr h).frame ?_ (hn h) (hp h)
  rw [head_get, head_get, hh]

/-! ## The usual code -/

variable [DecidableEq N]

/-- Link `n` in at the place `k`: `n->pnext = k; n->next = *k; if (n->next != NULL)
n->next->pnext = &n->next; *k = n`. -/
def Mem.link (m : Mem H N) (n : N) (k : Link H N) : Mem H N :=
  (((m.setP n (some k)).set (.next n) (m.get k)).setP? (m.get k) (some (.next n))).set k (some n)

/-- A place that points to nothing fresh is linked in properly. -/
theorem Mem.link_inserted (m : Mem H N) {n : N} {k : Link H N} (hk : k ≠ .next n)
    (hg : m.get k ≠ some n) : Inserted m (m.link n k) n k := by
  unfold Mem.link
  refine ⟨by simp, fun _ => ?_, ?_, ?_, ?_, ?_⟩
  · simp [hk]
  · simp [hg]
  · intro x h1 h2
    simp [h1, h2]
  · intro y hy _
    simp [hy]
  · intro x h1 h2
    simp [h1, h2]

/-- **A fresh node at a head.** -/
theorem Rep.push (hr : Rep m L) (hf : ∀ h, n ∉ L h) (h : H) : Rep (m.link n (.head h)) (update L h (n :: L h)) := by
  refine hr.insert (nil_append (L h)).symm hf rfl (Mem.link_inserted _ (by simp) ?_)
  rw [(hr h).head?]
  exact fun hh => hf h (mem_of_head? hh)

/-- The fields of a node on no list may change. -/
theorem Rep.forget (hr : Rep m L) (hf : ∀ h, n ∉ L h) (v : Option N) (p : Option (Link H N)) :
    Rep ((m.set (.next n) v).setP n p) L := by
  have hne : ∀ h, ∀ x ∈ L h, x ≠ n := fun h x hx hxn => hf h (hxn ▸ hx)
  refine hr.congr ?_ (fun h x hx => ?_) (fun h x hx => ?_)
  · simp [Mem.set]
  · simp [(hne h x hx).symm]
  · simp [hne h x hx]

/-- Take `n` out of the place it is at: `*n->pnext = n->next; if (n->next != NULL)
n->next->pnext = n->pnext; n->pnext = NULL; n->next = NULL`, if it is at a place. -/
def Mem.cut (m : Mem H N) (n : N) : Mem H N :=
  match m.pnext n with
  | none => m
  | some k => (((m.set k (m.next n)).setP? (m.next n) (some k)).setP n none).set (.next n) none

theorem Mem.cut_removed (m : Mem H N) {n : N} {k : Link H N} (hk : m.pnext n = some k) : Removed m (m.cut n) n k := by
  unfold Mem.cut
  simp only [hk]
  refine ⟨?_, ?_, ?_, ?_⟩
  · intro hkn
    simp [hkn]
  · intro x h1 h2
    simp [h1, h2]
  · intro y hy hyn
    simp [hy, hyn]
  · intro x h1 h2
    simp [h1, h2]

/-- Taking a node out without touching its own fields. -/
theorem Mem.bypass_removed (m : Mem H N) {n : N} {k : Link H N} :
    Removed m ((m.setP? (m.next n) (some k)).set k (m.next n)) n k := by
  refine ⟨?_, ?_, ?_, ?_⟩
  · intro _
    simp
  · intro x h1 _
    simp [h1]
  · intro y hy _
    simp [hy]
  · intro x h1 _
    simp [h1]

/-- Nodes that are on no list can be cut without effect on the lists, if they say so. -/
theorem Mem.cut_none {n : N} (hk : m.pnext n = none) : m.cut n = m := by
  unfold Mem.cut
  rw [hk]

/-! ## Cursors -/

/-- Walk on from a place, over at most `i` nodes, as long as they satisfy `p`. -/
def Mem.seek (m : Mem H N) (p : N → Bool) : ℕ → Link H N → Link H N
  | 0, k => k
  | i + 1, k =>
    match m.get k with
    | none => k
    | some x => if p x then m.seek p i (.next x) else k

omit [DecidableEq N] [DecidableEq H] in
/-- **A cursor stops after the nodes that satisfy its condition.** -/
theorem Seg.seek_take (p : N → Bool) : ∀ (i : ℕ) {k : Link H N} {l : List N}, Seg m k l →
    m.seek p i k = lastLink k ((l.take i).takeWhile p)
  | 0, _, _, _ => rfl
  | i + 1, k, [], hs => by
    have hg : m.get k = none := hs.2
    simp [Mem.seek, hg, lastLink]
  | i + 1, k, x :: l, hs => by
    obtain ⟨hg, -, hs'⟩ := (seg_cons _).1 hs
    rw [Mem.seek]
    simp only [hg, take_succ_cons, takeWhile_cons]
    split
    · rw [Seg.seek_take p i hs']
      rfl
    · rfl

omit [DecidableEq N] [DecidableEq H] in
theorem Seg.seek (hs : Seg m k l) (p : N → Bool) {i : ℕ} (hi : l.length ≤ i) :
    m.seek p i k = lastLink k (l.takeWhile p) := by
  rw [Seg.seek_take p i hs, take_of_length_le hi]

omit [DecidableEq N] [DecidableEq H] in
/-- What a cursor finds is the first node without its property. -/
theorem Seg.get_seek (hs : Seg m k l) (p : N → Bool) {i : ℕ} (hi : l.length ≤ i) :
    m.get (m.seek p i k) = l.find? (fun x => !p x) := by
  induction l generalizing k i with
  | nil =>
    rw [hs.seek p hi]
    exact hs.2
  | cons x l ih =>
    obtain ⟨hg, -, hs'⟩ := (seg_cons _).1 hs
    obtain ⟨j, rfl⟩ : ∃ j, i = j + 1 := ⟨i - 1, by simp at hi; omega⟩
    rw [Mem.seek]
    simp only [hg, find?_cons]
    by_cases hx : p x
    · rw [if_pos hx, ih hs' (by simpa using hi)]
      simp [hx]
    · rw [if_neg hx, hg]
      simp [hx]

omit [DecidableEq N] [DecidableEq H] in
/-- The rest of a chain from a place inside it. -/
theorem Seg.rest (hs : Seg m k (l₁ ++ l₂)) : Seg m (lastLink k l₁) l₂ :=
  ((seg_append _ _).1 hs).2

end Chain
