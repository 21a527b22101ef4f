import Ipfilter.Chain.Lists
import Ipfilter.Spec.RadixRun
import Mathlib.Data.List.Perm.Subperm

/-!
# The lists of masks

Nodes have lists of masks, those with more bits first. `T` are the nodes whose lists are looked at, and
`L` are the lists.

* `maskPlace_eq`: where a mask goes.
* `attach_lists`: `ipf_rx_attach_mask`.
* `moveMasks_lists`: masks that move to a new leaf.
* `sendMasks_lists`: masks that are sent down.
-/

namespace Ipfilter.Radix

open Chain List Option
open Function (update update_apply update_of_ne update_self)

variable {mem : ℕ → Adf} {h : Head} {T : List Ptr} {L : Ptr → List ℕ} {p q : Ptr} {m b : ℕ}

/-- The bits of a mask. -/
def Head.bits (h : Head) (m : ℕ) : ℕ := ((h.mask m).map Mask.maskbitcount).getD 0

/-- The masks in a list that are to be in front of one with `b` bits. -/
def Head.before (h : Head) (b : ℕ) (l : List ℕ) : List ℕ := l.takeWhile fun m => b ≤ h.bits m

def Head.behind (h : Head) (b : ℕ) (l : List ℕ) : List ℕ := l.dropWhile fun m => b ≤ h.bits m

/-- A list with `m` in it. -/
def Head.put (h : Head) (b m : ℕ) (l : List ℕ) : List ℕ := h.before b l ++ m :: h.behind b l

theorem before_behind (h : Head) (b : ℕ) (l : List ℕ) : h.before b l ++ h.behind b l = l :=
  takeWhile_append_dropWhile

theorem mem_put {x : ℕ} {l : List ℕ} : x ∈ h.put b m l ↔ x = m ∨ x ∈ l := by
  unfold Head.put
  rw [mem_append, mem_cons, or_left_comm, ← mem_append, before_behind]

/-- No list has a mask that was freed, and there are not too many. -/
structure Alive (h : Head) (T : List Ptr) (L : Ptr → List ℕ) (B : List ℕ) : Prop where
  lists : Lists h.masks T L
  alive : ∀ p, ∀ m ∈ L p, ∃ k, h.mask m = some k
  known : ∀ p, ∀ m ∈ L p, m ∈ B
  few : B.length ≤ h.fuel

variable {B : List ℕ}

theorem Alive.length_le (ha : Alive h T L B) (p : Ptr) : (L p).length ≤ h.fuel :=
  le_trans (subperm_of_subset (ha.lists.nodup p) (ha.known p)).length_le ha.few

theorem bits_of {k : Mask} (hk : h.mask m = some k) : h.bits m = k.maskbitcount := by
  unfold Head.bits
  rw [hk]
  rfl

/-- The walk along a list, from some place on. -/
theorem maskPlace_from (ha : Alive h T L B) (hp : p ∈ T) (b : ℕ) :
    ∀ {l₂ l₁ : List ℕ} {n : ℕ}, L p = l₁ ++ l₂ →
    l₂.length ≤ n → maskPlace h b n (lastLink (.head p) l₁) = some (lastLink (.head p) (l₁ ++ h.before b l₂)) := by
  intro l₂
  induction l₂ with
  | nil =>
    intro l₁ n e _
    have hg := ha.lists.get hp e
    unfold maskPlace
    rw [hg]
    simp [Head.before]
  | cons x l₂ ih =>
    intro l₁ n e hn
    obtain ⟨n, rfl⟩ : ∃ i, n = i + 1 := ⟨n - 1, by simp at hn; omega⟩
    have hg := ha.lists.get hp e
    obtain ⟨k, hk⟩ := ha.alive p x (by rw [e]; simp)
    unfold maskPlace
    rw [hg]
    change (do
      let k ← h.mask x
      if k.maskbitcount < b then return lastLink (.head p) l₁ else maskPlace h b n (.next x)) = _
    rw [hk]
    unfold Head.before
    rw [takeWhile_cons, bits_of hk]
    by_cases hb : k.maskbitcount < b
    · have hb' : ¬b ≤ k.maskbitcount := by omega
      simp [hb, hb']
    · have hb' : b ≤ k.maskbitcount := by omega
      have := ih (show L p = (l₁ ++ [x]) ++ l₂ by rw [e]; simp) (show l₂.length ≤ n by simpa using hn)
      rw [lastLink_concat] at this
      simpa [hb, hb', Head.before] using this

/-- **Where a mask goes.** -/
theorem maskPlace_eq (ha : Alive h T L B) (hp : p ∈ T) (b : ℕ) :
    maskPlace h b h.fuel (.head p) = some (lastLink (.head p) (h.before b (L p))) :=
  maskPlace_from ha hp b (show L p = [] ++ L p from rfl) (ha.length_le p)

/-- Linking a mask in at its place. -/
theorem link_lists (ha : Alive h T L B) (hp : p ∈ T) (hm : ∀ q, m ∉ L q) (hB : m ∈ B) (hk : ∃ k, h.mask m = some k)
    (b : ℕ) : Alive (h.linkMask m (lastLink (.head p) (h.before b (L p)))) T (update L p (h.put b m (L p))) B where
  lists := ha.lists.insert hp (before_behind h b (L p)).symm hm rfl
  alive q x hx := by
    by_cases hq : q = p
    · subst hq
      rw [update_self, mem_put] at hx
      rcases hx with rfl | hx
      · exact hk
      · exact ha.alive q x hx
    · rw [update_of_ne hq] at hx
      exact ha.alive q x hx
  known q x hx := by
    by_cases hq : q = p
    · subst hq
      rw [update_self, mem_put] at hx
      rcases hx with rfl | hx
      · exact hB
      · exact ha.known q x hx
    · rw [update_of_ne hq] at hx
      exact ha.known q x hx
  few := ha.few

/-- **`ipf_rx_attach_mask`** puts a mask on a list. -/
theorem attach_lists (ha : Alive h T L B) (hp : p ∈ T) (hm : ∀ q, m ∉ L q) (hB : m ∈ B)
    (hk : ∃ k, h.mask m = some k) : ∃ M, ipfRxAttachMask h p m = some { h with masks := M } ∧
      Alive { h with masks := M } T (update L p (h.put (h.bits m) m (L p))) B := by
  refine ⟨_, ?_, link_lists ha hp hm hB hk (h.bits m)⟩
  obtain ⟨k, hk⟩ := hk
  unfold ipfRxAttachMask
  rw [bits_of hk, hk]
  change (do
    let pm ← maskPlace h k.maskbitcount h.fuel (.head p)
    return h.linkMask m pm) = _
  rw [maskPlace_eq ha hp]
  rfl

/-- Taking a mask off a list. -/
theorem unlink_lists (ha : Alive h T L B) (hp : p ∈ T) {l₁ l₂ : List ℕ} (e : L p = l₁ ++ m :: l₂) :
    Alive { h with masks := h.masks.set (lastLink (.head p) l₁) (h.masks.next m) } T
        (update L p (l₁ ++ l₂)) B ∧ ∀ q, m ∉ update L p (l₁ ++ l₂) q := by
  have hsub : ∀ q, ∀ x ∈ update L p (l₁ ++ l₂) q, x ∈ L q := by
    intro q x hx
    by_cases hq : q = p
    · subst hq
      rw [update_self] at hx
      rw [e]
      simp only [mem_append, mem_cons] at hx ⊢
      tauto
    · rwa [update_of_ne hq] at hx
  refine ⟨⟨ha.lists.remove hp e rfl, fun q x hx => ha.alive q x (hsub q x hx), fun q x hx => ha.known q x (hsub q x hx),
    ha.few⟩, fun q hq => ?_⟩
  by_cases hqp : q = p
  · subst hqp
    have hnd := ha.lists.nodup q
    rw [e, nodup_middle, nodup_cons] at hnd
    rw [update_self] at hq
    exact hnd.1 hq
  · rw [update_of_ne hqp] at hq
    exact ha.lists.disjoint (Ne.symm hqp) (by rw [e]; simp) hq

theorem maskAt_eq (hl : Lists h.masks T L) (hp : p ∈ T) (i : ℕ) : maskAt h p i = (L p)[i]? := by
  induction i with
  | zero =>
    have := hl.get hp (show L p = [] ++ L p from rfl)
    rw [← head?_eq_getElem?]
    exact this
  | succ i ih =>
    unfold maskAt
    rw [ih]
    by_cases hi : i < (L p).length
    · have hsplit : L p = (L p).take i ++ (L p)[i] :: (L p).drop (i + 1) := by
        rw [← drop_eq_getElem_cons hi, take_append_drop]
      have hget := hl.get hp (show L p = ((L p).take i ++ [(L p)[i]]) ++ (L p).drop (i + 1) by
        rw [append_assoc]; exact hsplit)
      rw [lastLink_concat, next_get, head?_drop] at hget
      rw [getElem?_eq_getElem hi]
      exact hget
    · rw [getElem?_eq_none (by omega), getElem?_eq_none (by omega)]
      rfl

/-! ## Masks that move -/

/-- Nothing moves if all masks have enough bits. -/
theorem moveMasks_none (ha : Alive h T L B) (hp : p ∈ T) (dst : Ptr) {b : ℕ} (hb : ∀ x ∈ L p, b ≤ h.bits x) :
    ∀ {l₂ l₁ : List ℕ} {n : ℕ}, L p = l₁ ++ l₂ → l₂.length ≤ n →
      moveMasks dst b n h (lastLink (.head p) l₁) = some h := by
  intro l₂
  induction l₂ with
  | nil =>
    intro l₁ n e _
    unfold moveMasks
    rw [ha.lists.get hp e]
    rfl
  | cons x l₂ ih =>
    intro l₁ n e hn
    obtain ⟨n, rfl⟩ : ∃ i, n = i + 1 := ⟨n - 1, by simp at hn; omega⟩
    obtain ⟨k, hk⟩ := ha.alive p x (by rw [e]; simp)
    have hbx := hb x (by rw [e]; simp)
    rw [bits_of hk] at hbx
    have hrest := ih (show L p = (l₁ ++ [x]) ++ l₂ by rw [e]; simp) (show l₂.length ≤ n by simpa using hn)
    rw [lastLink_concat] at hrest
    unfold moveMasks
    rw [ha.lists.get hp e]
    simp only [head?_cons, hk, bind_eq_bind, bind_some]
    rw [if_neg (by omega), hrest]

/-- **Masks with fewer bits move to another node.** -/
theorem moveMasks_from {src dst : Ptr} (hsrc : src ∈ T) (hdst : dst ∈ T) (hne : src ≠ dst) (b : ℕ) :
    ∀ {l₂ l₁ : List ℕ} {n : ℕ} {h : Head} {L : Ptr → List ℕ}, Alive h T L B → L src = l₁ ++ l₂ →
      l₂.length ≤ n →
      ∃ M L', moveMasks dst b n h (lastLink (.head src) l₁) = some { h with masks := M } ∧
        Alive { h with masks := M } T L' B ∧ L' src = l₁ ++ l₂.filter (fun x => b ≤ h.bits x) ∧
        (∀ x, x ∈ L' dst ↔ x ∈ L dst ∨ (x ∈ l₂ ∧ h.bits x < b)) ∧ ∀ q, q ≠ src → q ≠ dst →
          L' q = L q := by
  intro l₂
  induction l₂ with
  | nil =>
    intro l₁ n h L ha e _
    refine ⟨h.masks, L, ?_, ha, by rw [e]; simp, by simp, fun _ _ _ => rfl⟩
    unfold moveMasks
    rw [ha.lists.get hsrc e]
    rfl
  | cons x l₂ ih =>
    intro l₁ n h L ha e hn
    obtain ⟨n, rfl⟩ : ∃ i, n = i + 1 := ⟨n - 1, by simp at hn; omega⟩
    have hx : x ∈ L src := by rw [e]; simp
    obtain ⟨k, hk⟩ := ha.alive src x hx
    have hlen : l₂.length ≤ n := by simpa using hn
    unfold moveMasks
    rw [ha.lists.get hsrc e]
    simp only [head?_cons, hk, bind_eq_bind, bind_some]
    by_cases hb : k.maskbitcount < b
    · rw [if_pos hb]
      obtain ⟨ha₁, hout⟩ := unlink_lists ha hsrc e
      obtain ⟨M, hatt, ha₂⟩ := attach_lists (p := dst) ha₁ hdst hout (ha.known src x hx) ⟨k, hk⟩
      rw [update_of_ne (Ne.symm hne)] at ha₂
      have hsrc₂ : update (update L src (l₁ ++ l₂)) dst (h.put (h.bits x) x (L dst)) src = l₁ ++ l₂ := by
        rw [update_of_ne hne, update_self]
      obtain ⟨M', L', hmove, ha', h1, h2, h3⟩ := ih ha₂ hsrc₂ hlen
      refine ⟨M', L', ?_, ha', ?_, fun y => ?_, fun q hq1 hq2 => ?_⟩
      · rw [hatt]
        exact hmove
      · rw [h1, filter_cons_of_neg (by rw [bits_of hk]; simpa using hb)]
        rfl
      · rw [h2 y, update_self, mem_put]
        have hbx : h.bits x < b := by rw [bits_of hk]; exact hb
        constructor
        · rintro ((rfl | hy) | ⟨hy, hyb⟩)
          · exact .inr ⟨mem_cons_self, hbx⟩
          · exact .inl hy
          · exact .inr ⟨mem_cons_of_mem _ hy, hyb⟩
        · rintro (hy | ⟨hy, hyb⟩)
          · exact .inl (.inr hy)
          · rcases mem_cons.1 hy with rfl | hy
            · exact .inl (.inl rfl)
            · exact .inr ⟨hy, hyb⟩
      · rw [h3 q hq1 hq2, update_of_ne hq2, update_of_ne hq1]
    · rw [if_neg hb]
      obtain ⟨M', L', hmove, ha', h1, h2, h3⟩ :=
        ih ha (show L src = (l₁ ++ [x]) ++ l₂ by rw [e]; simp) hlen
      rw [lastLink_concat] at hmove
      have hbx : ¬h.bits x < b := by rw [bits_of hk]; exact hb
      refine ⟨M', L', hmove, ha', ?_, fun y => ?_, h3⟩
      · rw [h1, filter_cons_of_pos (by simpa using hbx), append_assoc]
        rfl
      · rw [h2 y]
        refine or_congr_right ⟨fun hy => ⟨mem_cons_of_mem _ hy.1, hy.2⟩, fun hy => ?_⟩
        rcases mem_cons.1 hy.1 with rfl | hy'
        · exact absurd hy.2 hbx
        · exact ⟨hy', hy.2⟩

/-! ## Masks that go -/

/-- No mask is on the list of the inner node of its own entry under that node's name. -/
theorem dropMask_none (ha : Alive h T L B) (hp : p ∈ T) (hn : ∀ x ∈ L p, ∀ k, h.mask x = some k → k.node ≠ p) :
    ∀ {l₂ l₁ : List ℕ} {n : ℕ}, L p = l₁ ++ l₂ → l₂.length ≤ n →
      dropMask h p n (lastLink (.head p) l₁) = some h := by
  intro l₂
  induction l₂ with
  | nil =>
    intro l₁ n e _
    unfold dropMask
    rw [ha.lists.get hp e]
    rfl
  | cons x l₂ ih =>
    intro l₁ n e hlen
    obtain ⟨n, rfl⟩ : ∃ i, n = i + 1 := ⟨n - 1, by simp at hlen; omega⟩
    have hx : x ∈ L p := by rw [e]; simp
    obtain ⟨k, hk⟩ := ha.alive p x hx
    have hrest := ih (show L p = (l₁ ++ [x]) ++ l₂ by rw [e]; simp) (show l₂.length ≤ n by simpa using hlen)
    rw [lastLink_concat] at hrest
    unfold dropMask
    rw [ha.lists.get hp e]
    simp only [head?_cons, hk, bind_eq_bind, bind_some]
    rw [if_neg (hn x hx k hk), hrest]

/-- **Masks that are sent down** go to lists, or away. -/
theorem sendMasks_lists {found parent l r : Ptr} (hp : parent ∈ T) (hl : l ≠ found → l ∈ T) (hlp : l ≠ parent)
    (hrp : r ≠ parent) {key : Obj} : ∀ {l₂ : List ℕ} {n : ℕ} {h : Head} {L : Ptr → List ℕ}, Alive h T L B →
      (h.node parent).left = some l → (h.node parent).right = some r → (h.node found).addrkey = some key →
      (∀ x ∈ l₂, ∀ k, h.mask x = some k →
        word mem key (h.node k.node).offset &&& (h.node k.node).lastmask ≠ 0 → r ∈ T) →
      L parent = l₂ → l₂.length ≤ n →
      ∃ M L', sendMasks mem found parent n h = some { h with masks := M } ∧ Alive { h with masks := M } T L' B ∧
        ∀ q, ∀ x ∈ L' q, ∃ q', x ∈ L q' := by
  intro l₂
  induction l₂ with
  | nil =>
    intro n h L ha _ _ _ _ e _
    refine ⟨h.masks, L, ?_, ha, fun q x hx => ⟨q, hx⟩⟩
    have hg : h.masks.head parent = none := ha.lists.get hp (show L parent = [] ++ [] from e)
    unfold sendMasks
    rw [hg]
  | cons x l₂ ih =>
    intro n h L ha hleft hright hkey hsent e hn
    obtain ⟨n, rfl⟩ : ∃ i, n = i + 1 := ⟨n - 1, by simp at hn; omega⟩
    have hx : x ∈ L parent := by rw [e]; simp
    obtain ⟨k, hk⟩ := ha.alive parent x hx
    have hlen : l₂.length ≤ n := by simpa using hn
    have hg : h.masks.head parent = some x := ha.lists.get hp (show L parent = [] ++ x :: l₂ from e)
    obtain ⟨ha₁, hout⟩ := unlink_lists ha hp (show L parent = [] ++ x :: l₂ from e)
    rw [nil_append] at ha₁ hout
    change Alive { h with masks := h.masks.set (.head parent) (h.masks.next x) } T _ B at ha₁
    have hself : update L parent l₂ parent = l₂ := update_self ..
    have hsent' : ∀ y ∈ l₂, ∀ k, h.mask y = some k →
        word mem key (h.node k.node).offset &&& (h.node k.node).lastmask ≠ 0 → r ∈ T :=
      fun y hy => hsent y (mem_cons_of_mem _ hy)
    have hsub : ∀ q, ∀ y ∈ update L parent l₂ q, y ∈ L q := by
      intro q y hy
      by_cases hq : q = parent
      · subst hq
        rw [update_self] at hy
        rw [e]
        exact mem_cons_of_mem _ hy
      · rwa [update_of_ne hq] at hy
    -- the mask goes away
    have hgone : ∃ M L', sendMasks mem found parent n { h with masks := h.masks.set (.head parent) (h.masks.next x) } =
        some { h with masks := M } ∧ Alive { h with masks := M } T L' B ∧ ∀ q, ∀ y ∈ L' q, ∃ q', y ∈ L q' := by
      obtain ⟨M, L', h1, h2, h3⟩ := ih ha₁ hleft hright hkey hsent' hself hlen
      refine ⟨M, L', h1, h2, fun q y hy => ?_⟩
      obtain ⟨q', hq'⟩ := h3 q y hy
      exact ⟨q', hsub q' y hq'⟩
    -- the mask goes to a child
    have hchild : ∀ c, c ∈ T → c ≠ parent → ∃ M L',
        (ipfRxAttachMask { h with masks := h.masks.set (.head parent) (h.masks.next x) } c x).bind
          (sendMasks mem found parent n) = some { h with masks := M } ∧ Alive { h with masks := M } T L' B ∧
            ∀ q, ∀ y ∈ L' q, ∃ q', y ∈ L q' := by
      intro c hc hcp
      obtain ⟨M, hatt, ha₂⟩ := attach_lists (p := c) ha₁ hc hout (ha.known parent x hx) ⟨k, hk⟩
      generalize hL₂ : update (update L parent l₂) c _ = L₂ at ha₂
      have hself₂ : L₂ parent = l₂ := by
        rw [← hL₂, update_of_ne (Ne.symm hcp), update_self]
      obtain ⟨M', L', h1, h2, h3⟩ := ih ha₂ hleft hright hkey hsent' hself₂ hlen
      refine ⟨M', L', by rw [hatt]; exact h1, h2, fun q y hy => ?_⟩
      obtain ⟨q', hq'⟩ := h3 q y hy
      rw [← hL₂] at hq'
      by_cases hqc : q' = c
      · subst hqc
        rw [update_self, mem_put] at hq'
        rcases hq' with rfl | hq'
        · exact ⟨parent, hx⟩
        · exact ⟨q', hsub q' y hq'⟩
      · rw [update_of_ne hqc] at hq'
        exact ⟨q', hsub q' y hq'⟩
    unfold sendMasks
    rw [hg]
    simp only [hk, bind_eq_bind, bind_some, hkey, hleft, hright]
    split
    · exact hgone
    · split
      · rename_i hs
        exact hchild r (hsent x mem_cons_self k hk hs) hrp
      · split
        · rename_i hlf
          exact hchild l (hl (by simpa using hlf)) hlp
        · exact hgone

/-! ## The mask of a new leaf -/

/-- The mask is allocated and known to its leaf. -/
def Head.withMask (h : Head) (e m : ℕ) (k : Mask) : Head :=
  { h with mask := update h.mask m (some k) }.upd (.nodes e 0) fun n => { n with mymask := some m }

theorem withMask_side {f : Node → Option Ptr} {e : ℕ} {k : Mask} (hf : ∀ n m, f { n with mymask := m } = f n) :
    f ((h.withMask e m k).node p) = f (h.node p) := by
  unfold Head.withMask Head.upd
  dsimp only
  rw [update_apply]
  split
  · rename_i e
    rw [e, hf]
  · rfl

theorem Alive.withMask (ha : Alive h T L B) (hm : h.mask m = none) (hB : B.length < h.fuel) (e : ℕ) (k : Mask) :
    Alive (h.withMask e m k) T L (m :: B) ∧ (∀ q, m ∉ L q) ∧ (h.withMask e m k).mask m = some k := by
  have hout : ∀ q, m ∉ L q := by
    intro q hq
    obtain ⟨k', hk'⟩ := ha.alive q m hq
    rw [hm] at hk'
    cases hk'
  refine ⟨⟨ha.lists, fun q x hx => ?_, fun q x hx => mem_cons_of_mem _ (ha.known q x hx), ?_⟩, hout, ?_⟩
  · obtain ⟨k', hk'⟩ := ha.alive q x hx
    refine ⟨k', ?_⟩
    change update h.mask m (some k) x = some k'
    rw [update_of_ne, hk']
    rintro rfl
    exact hout q hx
  · rw [length_cons]
    exact hB
  · exact update_self ..

/-- The two loops at the end of `ipf_rx_insert`. -/
def moveSides (h : Head) (e b : ℕ) : Option Head := do
  let right ← (h.node (.nodes e 1)).right
  let h ← if (h.node right).root then some h else moveMasks (.nodes e 0) b h.fuel h (.head right)
  let left ← (h.node (.nodes e 1)).left
  if (h.node left).root = false ∧ left ≠ .nodes e 0 then moveMasks (.nodes e 0) b h.fuel h (.head left) else return h

/-- The place of the new mask. -/
def insertAt (h : Head) (e b : ℕ) : Option Ptr → Option (Link Ptr ℕ)
  | some p => maskPlace h b h.fuel (.head p)
  | none => some (.head (.nodes e 0))

theorem insertMasks_eq {e : ℕ} {mask : Obj} {up : Option Ptr} {pm : Link Ptr ℕ}
    (hpm : insertAt (h.withMask e m ⟨.nodes e 0, mask, b⟩) e b up = some pm) :
    insertMasks h e m b mask up = moveSides ((h.withMask e m ⟨.nodes e 0, mask, b⟩).linkMask m pm) e b := by
  cases up with
  | some p =>
    have hpm' : maskPlace (h.withMask e m ⟨.nodes e 0, mask, b⟩) b h.fuel (.head p) = some pm := hpm
    change (maskPlace (h.withMask e m ⟨.nodes e 0, mask, b⟩) b h.fuel (.head p)).bind _ = _
    rw [hpm']
    rfl
  | none =>
    cases hpm
    rfl

section Sides

variable {e : ℕ} {cur : Ptr} (ha : Alive h T L B) (hn0 : .nodes e 0 ∈ T) (hcur : cur ∈ T) (hne : cur ≠ .nodes e 0)
  (hown : ∀ x ∈ L (.nodes e 0), b ≤ h.bits x)

include ha hn0 hcur hne

/-- The loop over the masks of the node that is not the new leaf. -/
theorem moveCur_lists :
    ∃ M L', (if (h.node cur).root = true then some h else moveMasks (.nodes e 0) b h.fuel h (.head cur)) =
        some { h with masks := M } ∧ Alive { h with masks := M } T L' B ∧
      (∀ q, q ≠ .nodes e 0 → q ≠ cur → L' q = L q) ∧
      (∀ x ∈ L' (.nodes e 0), x ∈ L (.nodes e 0) ∨ x ∈ L cur) ∧
      (∀ x ∈ L' cur, x ∈ L cur) ∧ ((∀ x ∈ L cur, b ≤ h.bits x) → L' cur = L cur) := by
  by_cases hr : (h.node cur).root = true
  · rw [if_pos hr]
    exact ⟨h.masks, L, rfl, ha, fun _ _ _ => rfl, fun x hx => .inl hx, fun x hx => hx, fun _ => rfl⟩
  · obtain ⟨M, L', hmv, ha', h1, h2, h3⟩ :=
      moveMasks_from hcur hn0 hne b ha (show L cur = [] ++ L cur from rfl) (ha.length_le cur)
    rw [nil_append] at h1
    rw [if_neg hr]
    refine ⟨M, L', hmv, ha', fun q hq hq' => h3 q hq' hq, fun x hx => ((h2 x).1 hx).imp_right And.left,
      fun x hx => ?_, fun hall => ?_⟩
    · rw [h1] at hx
      exact mem_of_mem_filter hx
    · rw [h1, filter_eq_self]
      exact fun x hx => by simpa using hall x hx

include hown

/-- **Masks with fewer bits move to the new leaf**, whichever side it is on. -/
theorem moveSides_lists (hroot : (h.node (.nodes e 0)).root = false)
    (hsides : ((h.node (.nodes e 1)).left = some (.nodes e 0) ∧ (h.node (.nodes e 1)).right = some cur) ∨
      ((h.node (.nodes e 1)).left = some cur ∧ (h.node (.nodes e 1)).right = some (.nodes e 0))) :
    ∃ M L', moveSides h e b = some { h with masks := M } ∧ Alive { h with masks := M } T L' B ∧
      (∀ q, q ≠ .nodes e 0 → q ≠ cur → L' q = L q) ∧
      (∀ x ∈ L' (.nodes e 0), x ∈ L (.nodes e 0) ∨ x ∈ L cur) ∧
      (∀ x ∈ L' cur, x ∈ L cur) ∧ ((∀ x ∈ L cur, b ≤ h.bits x) → L' cur = L cur) := by
  obtain ⟨M, L', hmv, hrest⟩ := moveCur_lists (b := b) ha hn0 hcur hne
  refine ⟨M, L', ?_, hrest⟩
  unfold moveSides
  rcases hsides with ⟨hl, hr⟩ | ⟨hl, hr⟩
  · rw [hr]
    cases hc : (h.node cur).root with
    | true =>
      rw [hc, if_pos rfl] at hmv
      rw [← hmv]
      simp [hc, hl]
    | false =>
      rw [hc, if_neg Bool.false_ne_true] at hmv
      simp [hc, hmv, hl]
  · -- the leaf itself has no mask with fewer bits
    have hself := moveMasks_none ha hn0 (.nodes e 0) hown (show L (.nodes e 0) = [] ++ L (.nodes e 0) from rfl)
      (ha.length_le _)
    change moveMasks (.nodes e 0) b h.fuel h (.head (.nodes e 0)) = some h at hself
    rw [hr]
    simp only [bind_eq_bind, bind_some, hroot, Bool.false_eq_true, if_false, hself, hl]
    rw [← hmv]
    cases hc : (h.node cur).root with
    | true => simp
    | false => simp [hne]

end Sides

/-- **The end of `ipf_rx_insert`.** The new mask goes to the list of `up`, or of its leaf if there is none, and
masks with fewer bits move from `cur` to the leaf. -/
theorem insertMasks_lists {e : ℕ} {mask : Obj} {up : Option Ptr} {cur dst : Ptr} {k : Mask}
    (hk : k = ⟨.nodes e 0, mask, b⟩) (ha : Alive h T L B)
    (hm : h.mask m = none) (hB : B.length < h.fuel) (hn0 : .nodes e 0 ∈ T) (hnil : L (.nodes e 0) = [])
    (hup : dst = up.getD (.nodes e 0)) (hdst : dst ∈ T) (hcur : cur ∈ T) (hcur0 : cur ≠ .nodes e 0) (hcd : dst ≠ cur)
    (hsides : ((h.node (.nodes e 1)).left = some (.nodes e 0) ∧ (h.node (.nodes e 1)).right = some cur) ∨
      ((h.node (.nodes e 1)).left = some cur ∧ (h.node (.nodes e 1)).right = some (.nodes e 0)))
    (hroot : (h.node (.nodes e 0)).root = false) :
    ∃ M L', insertMasks h e m b mask up = some { h.withMask e m k with masks := M } ∧
      Alive { h.withMask e m k with masks := M } T L' (m :: B) ∧
      (∀ q, q ≠ .nodes e 0 → q ≠ cur → L' q = if q = dst then (h.withMask e m k).put b m (L q) else L q) ∧
      (∀ q, ∀ x ∈ L' q, x = m ∨ ∃ q', x ∈ L q') ∧ (∀ x ∈ L' cur, x ∈ L cur) ∧
      ((∀ x ∈ L cur, b ≤ h.bits x) → L' cur = L cur) := by
  obtain ⟨ha₁, hout, hmask⟩ := ha.withMask hm hB e k
  have hleft : ((h.withMask e m k).node (.nodes e 1)).left = (h.node (.nodes e 1)).left := withMask_side fun _ _ => rfl
  have hright : ((h.withMask e m k).node (.nodes e 1)).right = (h.node (.nodes e 1)).right := withMask_side fun _ _ => rfl
  rw [← hleft, ← hright] at hsides
  have hroot₁ : ((h.withMask e m k).node (.nodes e 0)).root = false := by
    simp [Head.withMask, Head.upd, hroot]
  have hbits : ∀ x ∈ L cur, (h.withMask e m k).bits x = h.bits x := by
    intro x hx
    have hne : x ≠ m := by
      rintro rfl
      exact hout cur hx
    unfold Head.bits
    change ((update h.mask m _ x).map _).getD 0 = _
    rw [update_of_ne hne]
  have hbm : (h.withMask e m k).bits m = b := (bits_of hmask).trans (by rw [hk])
  -- the mask goes into the list of `dst`
  have hplace : insertAt (h.withMask e m ⟨.nodes e 0, mask, b⟩) e b up =
      some (lastLink (.head dst) ((h.withMask e m k).before b (L dst))) := by
    cases up with
    | some p =>
      obtain rfl : dst = p := hup
      rw [← hk]
      exact maskPlace_eq ha₁ hdst b
    | none =>
      obtain rfl : dst = .nodes e 0 := hup
      rw [hnil]
      rfl
  have ha₂ := link_lists ha₁ hdst hout mem_cons_self ⟨_, hmask⟩ b
  rw [insertMasks_eq hplace, ← hk]
  generalize h.withMask e m k = h₁ at *
  have hcurL : update L dst (h₁.put b m (L dst)) cur = L cur := update_of_ne (Ne.symm hcd) ..
  have hown : ∀ x ∈ update L dst (h₁.put b m (L dst)) (.nodes e 0), x = m := by
    intro x hx
    rw [update_apply] at hx
    split at hx
    · rename_i hd
      rw [mem_put, ← hd, hnil] at hx
      exact hx.resolve_right (by simp)
    · rw [hnil] at hx
      cases hx
  -- then those of the node below are moved
  obtain ⟨M, L', hmv, ha', h1, h2, h3, h4⟩ := moveSides_lists (b := b) ha₂ hn0 hcur hcur0
    (fun x hx => by rw [hown x hx]; exact le_of_eq hbm.symm) hroot₁ hsides
  rw [hcurL] at h2 h3 h4
  refine ⟨M, L', hmv, ha', fun q hq hq' => ?_, fun q x hx => ?_, h3, fun hall => h4 fun x hx => ?_⟩
  · rw [h1 q hq hq', update_apply]
    split
    · rename_i hd
      rw [hd]
    · rfl
  · by_cases hq : q = .nodes e 0
    · subst hq
      exact (h2 x hx).imp (hown x) fun hx => ⟨cur, hx⟩
    · by_cases hq' : q = cur
      · subst hq'
        exact .inr ⟨q, h3 x hx⟩
      · rw [h1 q hq hq', update_apply] at hx
        split at hx
        · rw [mem_put] at hx
          exact hx.imp_right fun hx => ⟨dst, hx⟩
        · exact .inr ⟨q, hx⟩
  · have := hall x hx
    rw [← hbits x hx] at this
    exact this

end Ipfilter.Radix
