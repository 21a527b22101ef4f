import Ipfilter.Spec.Rules
import Mathlib.Data.List.TakeWhile
import Mathlib.Data.List.Pairwise
import Mathlib.Data.List.Perm.Subperm

/-!
# The order of rule lists

* `compare_eq_zero`: two rules compare equal when everything that is compared is equal.
* `ruleFind_spec`: the two searching loops find a rule that compares equal, if there is one.
* `addPlace_spec`, `insertPlace_spec`: where a new rule goes.
* `run_ordered`: after any requests the lists are ordered, without duplicates and with correct
  back pointers; an added rule stands after its equals; removing it again restores the list
  exactly for rules without source tracking.
-/

namespace Ipfilter.Rules

open Chain List
open Function (update update_eq_self update_idem update_of_ne update_self)

variable {s s' : Softc} {L : Head → List Addr} {h : Head} {fp f : Addr} {c : Frentry} {a b : List Addr} {k : Link Head Addr}
  {set : Fin 2} {mk : Bool} {new : Option Addr} {req : Req}

/-! ## Comparing rules -/

/-- What `ipf_rule_compare` looks at. -/
def Frentry.key (c : Frentry) : ℕ × ℕ × FrBlock × Option (List ℕ) := (c.frCksum, c.frSize, c.toFrBlock, c.frData)

theorem compare_eq_zero (a b : Frentry) : ipfRuleCompare a b = 0 ↔ a.key = b.key := by
  unfold ipfRuleCompare Frentry.key
  simp only [Prod.mk.injEq]
  constructor
  · intro h
    split_ifs at h
    grind
  · rintro ⟨h1, h2, h3, h4⟩
    simp only [h1, h2, h3, h4, ne_eq, not_true_eq_false, if_false]
    cases b.frData <;> simp

theorem compare_comm {a b : Frentry} (h : ipfRuleCompare a b ≠ 0) : ipfRuleCompare b a ≠ 0 := by
  rw [ne_eq, compare_eq_zero] at h ⊢
  exact fun e => h e.symm

theorem collect_of_compare {a b : Frentry} (h : ipfRuleCompare a b = 0) : a.frCollect = b.frCollect := by
  have e : a.toFrBlock = b.toFrBlock := by
    rw [compare_eq_zero, Frentry.key, Frentry.key] at h
    simp only [Prod.mk.injEq] at h
    exact h.2.2.1
  rw [e]

/-! ## The searching loops -/

/-- The first loop, from `ftail` after the rules `l₀`, all of them smaller, with `fprev` there or
one rule behind. -/
theorem collectFind_spec {m : Mem Head Addr} (collect : Addr → ℕ) (x : ℕ) (k : Link Head Addr) {l : List Addr} :
    ∀ (i : ℕ) (l₀ l₁ : List Addr) {l₂ : List Addr}, l = l₀ ++ l₁ ++ l₂ →
      Seg m (lastLink k (l₀ ++ l₁)) l₂ → l₂.length ≤ i →
    (∀ g ∈ l₀ ++ l₁, collect g < x) → ∃ a b, l = a ++ b ∧ (∀ g ∈ a, collect g < x) ∧
      ((collectFind m collect x i (lastLink k l₀) (lastLink k (l₀ ++ l₁)) = (lastLink k a, lastLink k a)) ∨
        (collectFind m collect x i (lastLink k l₀) (lastLink k (l₀ ++ l₁)) = (lastLink k a, lastLink k l) ∧
          ∀ g ∈ l, collect g < x)) := by
  intro i
  induction i with
  | zero =>
    intro l₀ l₁ l₂ e _ hi hlt
    obtain rfl : l₂ = [] := by simpa using hi
    rw [append_nil] at e
    subst e
    exact ⟨l₀, l₁, rfl, fun g hg => hlt g (mem_append_left _ hg), .inr ⟨rfl, hlt⟩⟩
  | succ i ih =>
    intro l₀ l₁ l₂ e hs hi hlt
    rw [collectFind]
    cases l₂ with
    | nil =>
      have hg := hs.2
      rw [lastLink] at hg
      simp only [hg]
      rw [append_nil] at e
      subst e
      exact ⟨l₀, l₁, rfl, fun g hg => hlt g (mem_append_left _ hg), .inr ⟨rfl, hlt⟩⟩
    | cons f l₂ =>
      obtain ⟨hg, -, hs'⟩ := (seg_cons _).1 hs
      simp only [hg]
      by_cases hx : x ≤ collect f
      · -- `ftail` goes back to `fprev`
        rw [if_pos hx]
        exact ⟨l₀, l₁ ++ f :: l₂, by rw [e, append_assoc],
          fun g hg => hlt g (mem_append_left _ hg), .inl rfl⟩
      · rw [if_neg hx]
        have hl : lastLink k (l₀ ++ l₁ ++ [f]) = .next f := lastLink_concat _
        rw [← hl] at hs' ⊢
        refine ih (l₀ ++ l₁) [f] (by rw [e]; simp) hs' (by simpa using hi) (fun g hg => ?_)
        rcases mem_append.1 hg with h | h
        · exact hlt g h
        · rw [mem_singleton.1 h]
          omega

/-! ## The invariant -/

/-- **The rules as lists.** `L` gives the rules of each list. They are linked up properly, they are
the loaded ones, each list is ordered by collection number, no two rules of a list compare equal,
and where sources are tracked the top of the tree is its own parent. -/
structure Ordered (s : Softc) (L : Head → List Addr) : Prop where
  rep : Rep s.mem L
  loaded : ∀ f, (∃ h, f ∈ L h) ↔ f ∈ s.loaded.map (·.addr)
  sorted : ∀ h, (L h).Pairwise (fun f g => (s.fr f).frCollect ≤ (s.fr g).frCollect)
  distinct : ∀ h, (L h).Pairwise (fun f g => ipfRuleCompare (s.fr f) (s.fr g) ≠ 0)
  track : ∀ h, ∀ f ∈ L h, (s.fr f).htMaxNodes ≠ 0 → (s.fr f).htParent = some f

theorem Ordered.length_le (ho : Ordered s L) (h : Head) : (L h).length ≤ s.loaded.length := by
  have hs : L h ⊆ s.loaded.map (·.addr) := fun f hf => (ho.loaded f).1 ⟨h, hf⟩
  have := (subperm_of_subset (ho.rep.nodup h) hs).length_le
  simpa using this

/-- What is left of an ordered list behind a downward closed prefix is above it. -/
theorem mem_dropWhile {v : Addr → ℕ} {l : List Addr} (p : ℕ → Bool) (hp : ∀ x y, x ≤ y → p y → p x)
    (hl : l.Pairwise (fun f g => v f ≤ v g)) : ∀ g ∈ l.dropWhile (fun f => p (v f)), ¬ p (v g) := by
  induction l with
  | nil => simp
  | cons x l ih =>
    obtain ⟨hx, hl⟩ := pairwise_cons.1 hl
    by_cases h : p (v x)
    · rw [dropWhile_cons, if_pos h]
      exact ih hl
    · rw [dropWhile_cons, if_neg h]
      intro g hg hg'
      rcases mem_cons.1 hg with rfl | hg
      · exact h hg'
      · exact h (hp _ _ (hx g hg) hg')

/-- The two searching loops end with `fprev` after rules that are all smaller, and at the rule
that compares equal, if there is one. -/
theorem Ordered.ruleFind_spec (ho : Ordered s L) (h : Head) (fp : Addr) :
    ∃ a b, L h = a ++ b ∧ (ruleFind s h fp).1 = lastLink (.head h) a ∧
      (∀ g ∈ a, (s.fr g).frCollect < (s.fr fp).frCollect) ∧
      s.mem.get (ruleFind s h fp).2 = (L h).find? (fun g => ipfRuleCompare (s.fr fp) (s.fr g) = 0) := by
  have hn := ho.length_le h
  obtain ⟨a, b, e, hlt, hr⟩ := collectFind_spec (fun f => (s.fr f).frCollect) (s.fr fp).frCollect (.head h)
    s.loaded.length [] [] (nil_append (L h)).symm (ho.rep h) hn (by simp)
  have hne : ∀ g, (s.fr g).frCollect < (s.fr fp).frCollect → ipfRuleCompare (s.fr fp) (s.fr g) ≠ 0 := by
    intro g hg hc
    have := collect_of_compare hc
    omega
  refine ⟨a, b, e, ?_, hlt, ?_⟩
  · rcases hr with hr | ⟨hr, -⟩ <;> simp only [ruleFind] <;> exact congrArg Prod.fst hr
  · have hb : (L h).length = a.length + b.length := by rw [e, length_append]
    rcases hr with hr | ⟨hr, hall⟩ <;> simp only [append_nil, lastLink] at hr <;>
      simp only [ruleFind, hr]
    · -- from `fprev` on, what is before it being smaller
      have hs : Seg s.mem (lastLink (.head h) a) b := Seg.rest (by rw [← e]; exact ho.rep h)
      rw [hs.get_seek _ (by omega), e, find?_append]
      have ha : a.find? (fun g => ipfRuleCompare (s.fr fp) (s.fr g) = 0) = none := by
        rw [find?_eq_none]
        intro g hg
        simpa using hne g (hlt g hg)
      rw [ha]
      simp
    · -- from the end, all rules being smaller
      have hs : Seg s.mem (lastLink (.head h) (L h)) [] := ⟨trivial, (ho.rep h).2⟩
      rw [hs.get_seek _ (by simp), eq_comm, find?_nil, find?_eq_none]
      intro g hg
      simpa using hne g (hall g hg)

/-- Linking in with `SIOCADAFR`: after every rule that is not greater. -/
theorem Ordered.addPlace_spec (ho : Ordered s L) (h : Head) (fp : Addr) :
    ∃ a b, L h = a ++ b ∧ addPlace s fp (ruleFind s h fp).1 = lastLink (.head h) a ∧
      (∀ g ∈ a, (s.fr g).frCollect ≤ (s.fr fp).frCollect) ∧ ∀ g ∈ b, (s.fr fp).frCollect < (s.fr g).frCollect := by
  obtain ⟨a, b, e, hp, hlt, -⟩ := ho.ruleFind_spec h fp
  have hn := ho.length_le h
  rw [e, length_append] at hn
  have hs : Seg s.mem (lastLink (.head h) a) b := Seg.rest (by rw [← e]; exact ho.rep h)
  have hb : b.Pairwise (fun f g => (s.fr f).frCollect ≤ (s.fr g).frCollect) := by
    have := ho.sorted h
    rw [e] at this
    exact (pairwise_append.1 this).2.1
  refine ⟨a ++ b.takeWhile (fun f => (s.fr f).frCollect ≤ (s.fr fp).frCollect),
    b.dropWhile (fun f => (s.fr f).frCollect ≤ (s.fr fp).frCollect), ?_, ?_, ?_, ?_⟩
  · rw [e, append_assoc, takeWhile_append_dropWhile]
  · rw [addPlace, hp, hs.seek _ (by omega), lastLink_append]
  · intro g hg
    rcases mem_append.1 hg with hg | hg
    · exact le_of_lt (hlt g hg)
    · simpa using mem_takeWhile_imp hg
  · intro g hg
    have := mem_dropWhile (fun n => decide (n ≤ (s.fr fp).frCollect)) (fun x y hxy hy => by simp at hy ⊢; omega)
      hb g hg
    simpa using this

/-- Linking in with `SIOCINAFR`: somewhere among its equals. -/
theorem Ordered.insertPlace_spec (ho : Ordered s L) (h : Head) (fp : Addr) :
    ∃ a b, L h = a ++ b ∧ insertPlace s fp (ruleFind s h fp).1 = lastLink (.head h) a ∧
      (∀ g ∈ a, (s.fr g).frCollect ≤ (s.fr fp).frCollect) ∧
        ∀ g ∈ b, (s.fr fp).frCollect ≤ (s.fr g).frCollect := by
  obtain ⟨a, b, e, hp, hlt, -⟩ := ho.ruleFind_spec h fp
  have hn := ho.length_le h
  rw [e, length_append] at hn
  have hs : Seg s.mem (lastLink (.head h) a) b := Seg.rest (by rw [← e]; exact ho.rep h)
  have hb : b.Pairwise (fun f g => (s.fr f).frCollect ≤ (s.fr g).frCollect) := by
    have := ho.sorted h
    rw [e] at this
    exact (pairwise_append.1 this).2.1
  generalize hp₁ : (fun f => decide ((s.fr f).frCollect < (s.fr fp).frCollect)) = p₁
  generalize hp₂ : (fun f => decide ((s.fr f).frCollect = (s.fr fp).frCollect)) = p₂
  -- first over the smaller rules, then over the first `fr_hits` of the equal ones
  have hb₂ : Seg s.mem (lastLink (.head h) (a ++ b.takeWhile p₁)) (b.dropWhile p₁) := by
    refine Seg.rest ?_
    rw [append_assoc, takeWhile_append_dropWhile, ← e]
    exact ho.rep h
  have hge : ∀ g ∈ b.dropWhile p₁, (s.fr fp).frCollect ≤ (s.fr g).frCollect := by
    intro g hg
    rw [← hp₁] at hg
    have := mem_dropWhile (fun n => decide (n < (s.fr fp).frCollect)) (fun x y hxy hy => by simp at hy ⊢; omega)
      hb g hg
    simpa using this
  obtain ⟨d, hd⟩ : ∃ d, b.dropWhile p₁ = ((b.dropWhile p₁).take (s.fr fp).frHits).takeWhile p₂ ++ d := by
    obtain ⟨d, hd⟩ := ( takeWhile_prefix p₂).trans ( take_prefix (s.fr fp).frHits (b.dropWhile p₁))
    exact ⟨d, hd.symm⟩
  refine ⟨a ++ b.takeWhile p₁ ++ ((b.dropWhile p₁).take (s.fr fp).frHits).takeWhile p₂, d, ?_, ?_, ?_, ?_⟩
  · rw [append_assoc, ← hd, append_assoc, takeWhile_append_dropWhile, e]
  · rw [insertPlace]
    simp only [hp₁, hp₂]
    rw [hp, hs.seek _ (by omega), ← lastLink_append, hb₂.seek_take, ← lastLink_append]
  · intro g hg
    rcases mem_append.1 hg with hg | hg
    · rcases mem_append.1 hg with hg | hg
      · exact le_of_lt (hlt g hg)
      · have := mem_takeWhile_imp hg
        rw [← hp₁] at this
        simp at this
        omega
    · have := mem_takeWhile_imp hg
      rw [← hp₂] at this
      simp at this
      omega
  · intro g hg
    exact hge g (by rw [hd]; exact mem_append_right _ hg)

/-! ## What a step does to the lists -/

/-- Everything that is compared stays, for the rules on the lists. -/
theorem Ordered.congr (ho : Ordered s L) (hr : Rep s'.mem L) (hl : s'.loaded.map (·.addr) = s.loaded.map (·.addr))
    (hk : ∀ h, ∀ f ∈ L h, (s'.fr f).key = (s.fr f).key) : Ordered s' L := by
  have hb : ∀ h, ∀ f ∈ L h, (s'.fr f).toFrBlock = (s.fr f).toFrBlock := by
    intro h f hf
    exact congrArg (fun k => k.2.2.1) (hk h f hf)
  refine ⟨hr, ?_, ?_, ?_, ?_⟩
  · intro f
    rw [hl]
    exact ho.loaded f
  · intro h
    refine (ho.sorted h).imp_of_mem (fun {f g} hf hg hc => ?_)
    rw [hb h f hf, hb h g hg]
    exact hc
  · intro h
    refine (ho.distinct h).imp_of_mem (fun {f g} hf hg hc => ?_)
    rw [ne_eq, compare_eq_zero, hk h f hf, hk h g hg, ← compare_eq_zero]
    exact hc
  · intro h f hf
    rw [hb h f hf]
    exact ho.track h f hf

theorem Ordered.fresh (ho : Ordered s L) (hf : ∀ p ∈ s.loaded, p.addr ≠ fp) (h : Head) : fp ∉ L h := by
  intro hc
  obtain ⟨p, hp, e⟩ := mem_map.1 ((ho.loaded fp).1 ⟨h, hc⟩)
  exact hf p hp e

/-- Copying a rule to fresh memory leaves the lists alone. -/
theorem Ordered.prepare (ho : Ordered s L) (hf : ∀ p ∈ s.loaded, p.addr ≠ fp) (c : Frentry) :
    Ordered (prepare s fp c) L := by
  have hn : ∀ h, ∀ f ∈ L h, f ≠ fp := fun h f hm e => ho.fresh hf h (e ▸ hm)
  refine ho.congr (ho.rep.congr ?_ ?_ ?_) rfl ?_
  · funext h
    simp [Rules.prepare]
  · intro h f hm
    simp [Rules.prepare, (hn h f hm).symm]
  · intro h f hm
    simp [Rules.prepare, hn h f hm]
  · intro h f hm
    simp [Rules.prepare, hn h f hm]

theorem Ordered.insert (ho : Ordered s L) (hf : ∀ h, fp ∉ L h) (e : L h = a ++ b)
    (hm : Inserted s.mem s'.mem fp (lastLink (.head h) a))
    (hl : s'.loaded.map (·.addr) = fp :: s.loaded.map (·.addr)) (hk : ∀ f, (s'.fr f).key = (s.fr f).key)
    (ha : ∀ g ∈ a, (s.fr g).frCollect ≤ (s.fr fp).frCollect)
    (hb : ∀ g ∈ b, (s.fr fp).frCollect ≤ (s.fr g).frCollect)
    (hne : ∀ g ∈ L h, ipfRuleCompare (s.fr fp) (s.fr g) ≠ 0)
    (ht : (s.fr fp).htMaxNodes ≠ 0 → (s.fr fp).htParent = some fp) : Ordered s' (update L h (a ++ fp :: b)) := by
  have hbl : ∀ f, (s'.fr f).toFrBlock = (s.fr f).toFrBlock := fun f => congrArg (fun k => k.2.2.1) (hk f)
  have hcmp : ∀ f g, ipfRuleCompare (s'.fr f) (s'.fr g) = 0 ↔ ipfRuleCompare (s.fr f) (s.fr g) = 0 := by
    intro f g
    rw [compare_eq_zero, compare_eq_zero, hk, hk]
  have hmem : ∀ g, g ∈ a ++ fp :: b ↔ g = fp ∨ g ∈ L h := by
    intro g
    rw [e]
    simp only [mem_append, mem_cons]
    tauto
  refine ⟨ho.rep.insert e hf rfl hm, ?_, ?_, ?_, ?_⟩
  · intro f
    rw [hl, mem_cons, ← ho.loaded f]
    constructor
    · rintro ⟨h', hm'⟩
      by_cases hh : h' = h
      · rw [hh, update_self, hmem] at hm'
        exact hm'.imp id (fun x => ⟨h, x⟩)
      · rw [update_of_ne hh] at hm'
        exact .inr ⟨h', hm'⟩
    · rintro (rfl | ⟨h', hm'⟩)
      · exact ⟨h, by rw [update_self, hmem]; exact .inl rfl⟩
      · refine ⟨h', ?_⟩
        by_cases hh : h' = h
        · rw [hh, update_self, hmem]
          exact .inr (hh ▸ hm')
        · rw [update_of_ne hh]
          exact hm'
  · intro h'
    simp only [hbl]
    by_cases hh : h' = h
    · have hs := ho.sorted h
      rw [e, pairwise_append] at hs
      obtain ⟨h1, h2, h3⟩ := hs
      rw [hh, update_self, pairwise_append, pairwise_cons]
      refine ⟨h1, ⟨hb, h2⟩, ?_⟩
      intro f hfa g hg
      rcases mem_cons.1 hg with rfl | hg
      · exact ha f hfa
      · exact h3 f hfa g hg
    · rw [update_of_ne hh]
      exact ho.sorted h'
  · intro h'
    simp only [ne_eq, hcmp]
    by_cases hh : h' = h
    · have hs := ho.distinct h
      rw [e] at hne
      rw [e, pairwise_append] at hs
      obtain ⟨h1, h2, h3⟩ := hs
      rw [hh, update_self, pairwise_append, pairwise_cons]
      refine ⟨h1, ⟨fun g hg => hne g (mem_append_right _ hg), h2⟩, ?_⟩
      intro f hfa g hg
      rcases mem_cons.1 hg with rfl | hg
      · exact compare_comm (hne f (mem_append_left _ hfa))
      · exact h3 f hfa g hg
    · rw [update_of_ne hh]
      exact ho.distinct h'
  · intro h' f hm'
    rw [hbl]
    by_cases hh : h' = h
    · rw [hh, update_self, hmem] at hm'
      rcases hm' with rfl | hm'
      · exact ht
      · exact ho.track h f hm'
    · rw [update_of_ne hh] at hm'
      exact ho.track h' f hm'

/-- Where a rule is at a place, `ipf_rule_delete` takes it out as any chain does. -/
theorem unlinkRule_eq {m : Mem Head Addr} (hk : m.pnext f = some k) : unlinkRule m f = m.cut f := by
  simp only [unlinkRule, Mem.cut, hk]

/-- **`ipf_rule_delete` takes exactly this rule off its list.** -/
theorem Ordered.remove (ho : Ordered s L) (e : L h = a ++ f :: b) :
    Ordered (ipfRuleDelete s f) (update L h (a ++ b)) := by
  have hp : s.mem.pnext f = some (lastLink (.head h) a) := (e ▸ (ho.rep h).1 : Path _ _ (a ++ f :: b)).pnext_mem
  have hk : ∀ g, ((ipfRuleDelete s f).fr g).key = (s.fr g).key := by
    intro g
    by_cases hg : g = f
    · subst hg
      simp [ipfRuleDelete, Frentry.key]
    · simp [ipfRuleDelete, hg]
  have hb : ∀ g, ((ipfRuleDelete s f).fr g).toFrBlock = (s.fr g).toFrBlock := fun g =>
    congrArg (fun k => k.2.2.1) (hk g)
  have hsub : ∀ h', List.Sublist (update L h (a ++ b) h') (L h') := by
    intro h'
    by_cases hh : h' = h
    · rw [hh, update_self, e]
      exact List.Sublist.append (List.Sublist.refl a) (sublist_cons_self f b)
    · rw [update_of_ne hh]
  have hnot : ∀ h', f ∉ update L h (a ++ b) h' := by
    intro h' hm
    by_cases hh : h' = h
    · have hd := ho.rep.nodup h
      rw [e, nodup_middle, nodup_cons] at hd
      rw [hh, update_self] at hm
      exact hd.1 hm
    · rw [update_of_ne hh] at hm
      exact ho.rep.disjoint hh hm (by rw [e]; simp)
  refine ⟨?_, ?_, ?_, ?_, ?_⟩
  · refine ho.rep.remove e rfl ?_
    simp only [ipfRuleDelete, unlinkRule_eq hp]
    exact s.mem.cut_removed hp
  · intro g
    have hg : g ∈ (ipfRuleDelete s f).loaded.map (·.addr) ↔ g ∈ s.loaded.map (·.addr) ∧ g ≠ f := by
      simp only [ipfRuleDelete, mem_map, mem_filter]
      constructor
      · rintro ⟨p, ⟨hp, hne⟩, rfl⟩
        exact ⟨⟨p, hp, rfl⟩, by simpa using hne⟩
      · rintro ⟨⟨p, hp, rfl⟩, hne⟩
        exact ⟨p, ⟨hp, by simpa using hne⟩, rfl⟩
    rw [hg, ← ho.loaded g]
    constructor
    · rintro ⟨h', hm⟩
      exact ⟨⟨h', (hsub h').subset hm⟩, fun c => hnot h' (c ▸ hm)⟩
    · rintro ⟨⟨h', hm⟩, hne⟩
      refine ⟨h', ?_⟩
      by_cases hh : h' = h
      · rw [hh, e] at hm
        rw [hh, update_self]
        simp only [mem_append, mem_cons] at hm ⊢
        tauto
      · rw [update_of_ne hh]
        exact hm
  · intro h'
    simp only [hb]
    exact (ho.sorted h').sublist (hsub h')
  · intro h'
    simp only [ne_eq, compare_eq_zero, hk]
    simp only [← compare_eq_zero]
    exact (ho.distinct h').sublist (hsub h')
  · intro h' g hg
    rw [hb]
    exact ho.track h' g ((hsub h').subset hg)

/-- `ipf_rule_expire_insert` sets the time and edits the list of expiring rules. -/
theorem expireInsert_eq (hi : ipfRuleExpireInsert s f set = some s') :
    ∃ d die, s' = { s with fr := update s.fr f { s.fr f with frDie := die }, dmem := d } := by
  unfold ipfRuleExpireInsert at hi
  simp only [Option.bind_eq_bind, Option.bind_eq_some_iff] at hi
  obtain ⟨pl, -, hi⟩ := hi
  cases pl <;> simp only [pure, Option.some.injEq] at hi <;> exact ⟨_, _, hi.symm⟩

theorem ruleLink_eq (hs : ruleLink s fp k set mk = .ok s') : ∃ d die, s' = { s with
      dmem := d
      fr := update s.fr fp
        { s.fr fp with frDie := die, frHits := 0, frRef := if mk then 1 else (s.fr fp).frRef }
      mem := s.mem.link fp k
      loaded := ⟨fp, set, (s.fr fp).frDie ≠ 0⟩ :: s.loaded } := by
  unfold ruleLink at hs
  by_cases hd : (s.fr fp).frDie ≠ 0
  · rw [if_pos hd] at hs
    cases hi : ipfRuleExpireInsert s fp set with
    | none => simp [hi] at hs
    | some s₁ =>
      obtain ⟨d, die, rfl⟩ := expireInsert_eq hi
      simp only [hi, Except.ok.injEq] at hs
      refine ⟨d, die, ?_⟩
      rw [← hs]
      simp
  · rw [if_neg hd] at hs
    simp only [Except.ok.injEq] at hs
    exact ⟨s.dmem, (s.fr fp).frDie, hs.symm⟩

/-- **A rule linked in at a place that fits keeps the order.** -/
theorem Ordered.ruleLink (ho : Ordered s L) (hf : ∀ h, fp ∉ L h) (e : L h = a ++ b) (hk : k = lastLink (.head h) a)
    (ha : ∀ g ∈ a, (s.fr g).frCollect ≤ (s.fr fp).frCollect)
    (hb : ∀ g ∈ b, (s.fr fp).frCollect ≤ (s.fr g).frCollect)
    (hne : ∀ g ∈ L h, ipfRuleCompare (s.fr fp) (s.fr g) ≠ 0)
    (ht : (s.fr fp).htMaxNodes ≠ 0 → (s.fr fp).htParent = some fp) (hs : ruleLink s fp k set mk = .ok s') :
    Ordered s' (update L h (a ++ fp :: b)) := by
  subst hk
  obtain ⟨d, die, rfl⟩ := ruleLink_eq hs
  refine ho.insert hf e (Mem.link_inserted _ ?_ ?_) rfl ?_ ha hb hne ht
  · rcases lastLink_cases (k := Link.head h) a with c | ⟨y, hy, c⟩
    · rw [c]
      simp
    · rw [c]
      rintro ⟨⟩
      exact hf h (by rw [e]; exact mem_append_left _ hy)
  · have hs' : Seg s.mem (lastLink (.head h) a) b := Seg.rest (by rw [← e]; exact ho.rep h)
    rw [hs'.head?]
    intro c
    exact hf h (by rw [e]; exact mem_append_right _ (mem_of_head? c))
  · intro g
    by_cases hg : g = fp
    · subst hg
      simp [Frentry.key]
    · simp [hg]

/-! ## Requests -/

/-- What a successful request does that is not for the authentication device. -/
theorem frLocked_cases (hs : frLocked s req false h fp set mk new = .ok s') :
    (∃ f, s.mem.get (ruleFind s h fp).2 = some f ∧ req = .zero ∧
      s' = { s with fr := update s.fr f { s.fr f with frHits := 0, frBytes := 0 } }) ∨
    (∃ f, s.mem.get (ruleFind s h fp).2 = some f ∧ req = .remove ∧ s' = ipfRuleDelete s f) ∨
    (s.mem.get (ruleFind s h fp).2 = none ∧ req = .add ∧
      ruleLink s fp (addPlace s fp (ruleFind s h fp).1) set mk = .ok s') ∨
    (s.mem.get (ruleFind s h fp).2 = none ∧ req = .insert ∧
      ruleLink s fp (insertPlace s fp (ruleFind s h fp).1) set mk = .ok s') := by
  unfold frLocked at hs
  cases hg : s.mem.get (ruleFind s h fp).2 with
  | none => cases req <;> simp_all
  | some f =>
    cases req <;> simp only [hg, Bool.false_eq_true, if_false] at hs <;> try contradiction
    · split_ifs at hs
      refine .inr (.inl ⟨f, rfl, rfl, ?_⟩)
      exact (Except.ok.inj hs).symm
    · exact .inl ⟨f, rfl, rfl, (Except.ok.inj hs).symm⟩

/-- What the lists are after a request. -/
inductive Edit (s : Softc) (L : Head → List Addr) (h : Head) (fp : Addr) : Req → (Head → List Addr) → Prop where
  | zero : Edit s L h fp .zero L
  | remove {a b : List Addr} {f : Addr} : L h = a ++ f :: b → ipfRuleCompare (s.fr fp) (s.fr f) = 0 →
    Edit s L h fp .remove (update L h (a ++ b))
  | add {a b : List Addr} : L h = a ++ b → (∀ g ∈ a, (s.fr g).frCollect ≤ (s.fr fp).frCollect) →
    (∀ g ∈ b, (s.fr fp).frCollect < (s.fr g).frCollect) →
    Edit s L h fp .add (update L h (a ++ fp :: b))
  | insert {a b : List Addr} : L h = a ++ b → (∀ g ∈ a, (s.fr g).frCollect ≤ (s.fr fp).frCollect) →
    (∀ g ∈ b, (s.fr fp).frCollect ≤ (s.fr g).frCollect) →
    Edit s L h fp .insert (update L h (a ++ fp :: b))

/-- **Every successful request keeps the lists ordered.** -/
theorem Ordered.frLocked (ho : Ordered s L) (hf : ∀ h, fp ∉ L h)
    (ht : (s.fr fp).htMaxNodes ≠ 0 → (s.fr fp).htParent = some fp)
    (hs : frLocked s req false h fp set mk new = .ok s') : ∃ L', Edit s L h fp req L' ∧ Ordered s' L' := by
  obtain ⟨-, -, -, -, -, hfind⟩ := ho.ruleFind_spec h fp
  have hnone : s.mem.get (ruleFind s h fp).2 = none → ∀ g ∈ L h, ipfRuleCompare (s.fr fp) (s.fr g) ≠ 0 := by
    intro hn g hg
    rw [hfind, find?_eq_none] at hn
    simpa using hn g hg
  rcases frLocked_cases hs with ⟨f, -, rfl, rfl⟩ | ⟨f, hg, rfl, rfl⟩ | ⟨hg, rfl, hl⟩ | ⟨hg, rfl, hl⟩
  · refine ⟨L, .zero, ho.congr ho.rep rfl (fun _ g _ => ?_)⟩
    by_cases hgf : g = f
    · subst hgf
      simp [Frentry.key]
    · simp [hgf]
  · rw [hfind] at hg
    obtain ⟨a, b, e⟩ := append_of_mem (mem_of_find?_eq_some hg)
    have hc := find?_some hg
    exact ⟨_, .remove e (by simpa using hc), ho.remove e⟩
  · obtain ⟨a, b, e, hk, ha, hb⟩ := ho.addPlace_spec h fp
    exact ⟨_, .add e ha hb, ho.ruleLink hf e hk ha (fun g hg => le_of_lt (hb g hg)) (hnone hg) ht hl⟩
  · obtain ⟨a, b, e, hk, ha, hb⟩ := ho.insertPlace_spec h fp
    exact ⟨_, .insert e ha hb, ho.ruleLink hf e hk ha hb (hnone hg) ht hl⟩

theorem prepare_track (s : Softc) (fp : Addr) (c : Frentry) :
    ((prepare s fp c).fr fp).htMaxNodes ≠ 0 → ((prepare s fp c).fr fp).htParent = some fp := by
  intro hm
  have hc : c.htMaxNodes ≠ 0 := by simpa [prepare] using hm
  simp [prepare, hc]

theorem Ordered.request (ho : Ordered s L) (hf : ∀ p ∈ s.loaded, p.addr ≠ fp)
    (hs : request s req false h fp c set new = .ok s') :
    ∃ L', Edit (Rules.prepare s fp c) L h fp req L' ∧ Ordered s' L' :=
  (ho.prepare hf c).frLocked (ho.fresh hf) (prepare_track s fp c) hs

/-! ## Adding a rule and removing it again -/

/-- Two copies of one rule compare equal exactly when sources are not tracked: the tree of tracked
sources holds its own address. -/
theorem prepare_compare (s t : Softc) {fp fp' : Addr} (hne : fp' ≠ fp) (c : Frentry) :
    ipfRuleCompare ((prepare s fp' c).fr fp') ((prepare t fp c).fr fp) = 0 ↔ c.htMaxNodes = 0 := by
  rw [compare_eq_zero]
  by_cases hc : c.htMaxNodes = 0
  · simp [prepare, Frentry.key, hc]
  · simp [prepare, Frentry.key, hc, hne]

/-- The rule as it stands on the list after it was added. -/
theorem add_fr (hs : request s .add false h fp c set new = .ok s') :
    (s'.fr fp).key = ((prepare s fp c).fr fp).key ∧ (s'.fr fp).frRef = 1 := by
  rcases frLocked_cases hs with ⟨f, -, hr, -⟩ | ⟨f, -, hr, -⟩ | ⟨-, -, hl⟩ | ⟨-, hr, -⟩ <;> try contradiction
  obtain ⟨d, die, rfl⟩ := ruleLink_eq hl
  simp [Frentry.key]

theorem copied (s : Softc) (fp : Addr) (c : Frentry) : has ((prepare s fp c).fr fp).frFlags FR_COPIED = true := by
  have : (c.frFlags ||| FR_COPIED) &&& FR_COPIED = FR_COPIED := by
    ext i
    simp only [BitVec.getElem_and, BitVec.getElem_or]
    cases c.frFlags[i] <;> simp
  simp only [prepare, update_self, has, this]
  decide

/-- Removing it again finds it, and nothing else. -/
theorem Ordered.remove_added (ho : Ordered s L) (hf : ∀ p ∈ s.loaded, p.addr ≠ fp)
    (hs : Rules.request s .add false h fp c set new = .ok s') {fp' : Addr}
    (hf' : ∀ p ∈ s'.loaded, p.addr ≠ fp') (hc : c.htMaxNodes = 0) (set' : Fin 2) (new' : Option Addr) :
    ∃ s'', Rules.request s' .remove false h fp' c set' new' = .ok s'' ∧ Ordered s'' L := by
  obtain ⟨L', hL, ho'⟩ := ho.request hf hs
  obtain ⟨hkey, href⟩ := add_fr hs
  cases hL with
  | add e ha hb =>
    rename_i a b
    have hfp : fp ∈ update L h (a ++ fp :: b) h := by
      rw [update_self]
      simp
    have hne : fp ≠ fp' := fun c => ho'.fresh hf' h (c ▸ hfp)
    have hp := ho'.prepare hf' c
    obtain ⟨-, -, -, -, -, hfind⟩ := hp.ruleFind_spec h fp'
    -- the added rule compares equal, so that something is found
    have hfr : (Rules.prepare s' fp' c).fr fp = s'.fr fp := by simp [Rules.prepare, hne]
    have heq : ipfRuleCompare ((Rules.prepare s' fp' c).fr fp') ((Rules.prepare s' fp' c).fr fp) = 0 := by
      rw [hfr, compare_eq_zero, hkey, ← compare_eq_zero, prepare_compare s' s hne.symm c]
      exact hc
    obtain ⟨g, hg⟩ : ∃ g, (Rules.prepare s' fp' c).mem.get (ruleFind (Rules.prepare s' fp' c) h fp').2 = some g := by
      rw [hfind, ← Option.isSome_iff_exists, find?_isSome]
      exact ⟨fp, hfp, by simpa using heq⟩
    -- and what is found is it, since no two rules of the list compare equal
    obtain rfl : g = fp := by
      rw [hfind] at hg
      have hgm := mem_of_find?_eq_some hg
      have hgc : ipfRuleCompare ((Rules.prepare s' fp' c).fr fp') ((Rules.prepare s' fp' c).fr g) = 0 := by
        simpa using find?_some hg
      rw [compare_eq_zero] at heq hgc
      by_contra hgf
      have : Std.Symm (fun f g => ipfRuleCompare ((Rules.prepare s' fp' c).fr f) ((Rules.prepare s' fp' c).fr g) ≠ 0) :=
        ⟨fun _ _ => compare_comm⟩
      refine (hp.distinct h).forall hgm hfp hgf ?_
      rw [compare_eq_zero, ← hgc, heq]
    have hcop : has (s'.fr g).frFlags FR_COPIED = true := by
      have hb : (s'.fr g).toFrBlock = ((Rules.prepare s g c).fr g).toFrBlock :=
        congrArg (fun k => k.2.2.1) hkey
      rw [hb]
      exact copied s g c
    refine ⟨ipfRuleDelete (Rules.prepare s' fp' c) g, ?_, ?_⟩
    · simp only [Rules.request, Rules.frLocked, hg, hfr, hcop, href]
      simp
    · have hr := hp.remove (f := g) (h := h) (a := a) (b := b) (by rw [update_self])
      rw [update_idem, ← e, update_eq_self] at hr
      exact hr

/-- With tracked sources the copy of the rule is not found. -/
theorem Ordered.remove_tracked (ho : Ordered s L) {fp' : Addr} (hf' : ∀ p ∈ s.loaded, p.addr ≠ fp')
    (hc : c.htMaxNodes ≠ 0) (h : Head) (set' : Fin 2) (new' : Option Addr) :
    Rules.request s .remove false h fp' c set' new' = .error (.errno ESRCH) := by
  have hp := ho.prepare hf' c
  obtain ⟨-, -, -, -, -, hfind⟩ := hp.ruleFind_spec h fp'
  have hnone : (Rules.prepare s fp' c).mem.get (ruleFind (Rules.prepare s fp' c) h fp').2 = none := by
    rw [hfind, find?_eq_none]
    intro g hg
    simp only [decide_eq_true_eq]
    intro hcmp
    have hb : ((Rules.prepare s fp' c).fr fp').toFrBlock = ((Rules.prepare s fp' c).fr g).toFrBlock := by
      rw [compare_eq_zero] at hcmp
      exact congrArg (fun k => k.2.2.1) hcmp
    have hm : ((Rules.prepare s fp' c).fr g).htMaxNodes ≠ 0 := by
      rw [← hb]
      simpa [Rules.prepare] using hc
    have hpar := hp.track h g hg hm
    rw [← hb, prepare_track s fp' c (by rw [hb]; exact hm)] at hpar
    obtain rfl : fp' = g := by simpa using hpar
    exact ho.fresh hf' h hg
  simp only [Rules.request, Rules.frLocked, hnone]

/-! ## Runs -/

theorem init_ordered (ticks : ℕ) (fr : Addr → Frentry) : Ordered (Softc.init ticks fr) (fun _ => []) := by
  refine ⟨fun h => ⟨trivial, rfl⟩, ?_, ?_, ?_, ?_⟩ <;> simp [Softc.init]

theorem request_of_step {auth : Bool}
    (hs : step s (.request req auth h fp c set new) = some s') : request s req auth h fp c set new = .ok s' := by
  rw [step] at hs
  cases hr : request s req auth h fp c set new with
  | error e => simp [hr, Except.toOption] at hs
  | ok t =>
    rw [hr] at hs
    exact congrArg Except.ok (Option.some.inj hs)

/-- Requests, none of them for the authentication device. -/
def Requests (_ : Softc) : Op → Prop
  | .request _ auth _ _ _ _ _ => auth = false
  | _ => False

/-- **After any requests every list is ordered.** Each list is sorted by `fr_collect`, no two rules
compare equal, and each `fr_pnext` is the link that points to its rule. A rule that is added then
stands after all rules with an equal `fr_collect`, and removing it again restores the lists if and
only if it does not track sources. -/
theorem run_ordered {ticks : ℕ} {fr : Addr → Frentry} {s : Softc} (hr : Run Requests (Softc.init ticks fr) s) :
    ∃ L, Ordered s L ∧
      ∀ (h : Head) (fp : Addr) (c : Frentry) (set : Fin 2) (new : Option Addr) (s' : Softc),
        Legal s (.request .add false h fp c set new) → request s .add false h fp c set new = .ok s' →
        (∃ a b, L h = a ++ b ∧ Ordered s' (update L h (a ++ fp :: b)) ∧
          (∀ g ∈ a, (s.fr g).frCollect ≤ c.frCollect) ∧ ∀ g ∈ b, c.frCollect < (s.fr g).frCollect) ∧
        ∀ (fp' : Addr) (new' : Option Addr), Legal s' (.request .remove false h fp' c set new') →
          ((∃ s'', request s' .remove false h fp' c set new' = .ok s'' ∧ Ordered s'' L) ↔ c.htMaxNodes = 0) := by
  have hL : ∃ L, Ordered s L := by
    induction hr with
    | init => exact ⟨_, init_ordered ticks fr⟩
    | step op _ hl hok hs ih =>
      obtain ⟨L, ho⟩ := ih
      cases op with
      | request req auth h fp c set new =>
        obtain rfl : auth = false := hok
        obtain ⟨L', -, ho'⟩ := ho.request hl.1 (request_of_step hs)
        exact ⟨L', ho'⟩
      | _ => exact hok.elim
  obtain ⟨L, ho⟩ := hL
  refine ⟨L, ho, ?_⟩
  intro h fp c set new s' hl hs
  obtain ⟨L', hL, ho'⟩ := ho.request hl.1 hs
  refine ⟨?_, ?_⟩
  · cases hL with
    | add e ha hb =>
      have hfr : ∀ g ∈ L h, (prepare s fp c).fr g = s.fr g := by
        intro g hg
        have : g ≠ fp := fun x => ho.fresh hl.1 h (x ▸ hg)
        simp [prepare, this]
      have hfp : ((prepare s fp c).fr fp).frCollect = c.frCollect := by simp [prepare]
      refine ⟨_, _, e, ho', ?_, ?_⟩
      · intro g hg
        rw [← hfr g (by rw [e]; exact mem_append_left _ hg), ← hfp]
        exact ha g hg
      · intro g hg
        rw [← hfr g (by rw [e]; exact mem_append_right _ hg), ← hfp]
        exact hb g hg
  · intro fp' new' hl'
    constructor
    · rintro ⟨s'', hs'', -⟩
      by_contra hc
      rw [ho'.remove_tracked hl'.1 hc] at hs''
      cases hs''
    · intro hc
      exact ho.remove_added hl.1 hs hl'.1 hc set new'

/-- A rule with a collection number, a limit on tracked sources and a time to live. -/
def rule (frCollect htMaxNodes frDie : ℕ) (frRest : List ℕ) : Frentry :=
  { frFunc := 0, frDsize := 0, frFlags := FR_PASS, frCollect, htMaxNodes, htParent := none, frRest,
    frRef := 0, frDie, frHits := 0, frBytes := 0, frSize := 600, frCksum := 0, frData := none }

/-- Two rules with collection numbers 5 and 3, loaded in this order, and a third one with 3 that is
added and removed again. -/
theorem run_ordered_three : ∃ s s' s'' : Softc, ∃ L, Ordered s L ∧ s.mem.head (.rules 0 0) = some 2 ∧
    s.mem.next 2 = some 1 ∧ request s .add false (.rules 0 0) 3 (rule 3 0 0 [1]) 0 none = .ok s' ∧
    s'.mem.next 2 = some 3 ∧ request s' .remove false (.rules 0 0) 4 (rule 3 0 0 [1]) 0 none = .ok s'' ∧
    Ordered s'' L := by
  have hr : Run Requests (Softc.init 0 fun _ => rule 0 0 0 []) _ :=
    .step (.request .add false (.rules 0 0) 2 (rule 3 0 0 []) 0 none)
      (.step (.request .add false (.rules 0 0) 1 (rule 5 0 0 []) 0 none) .init ⟨by simp [Softc.init], by simp⟩
        (by simp [Requests]) rfl)
      ⟨by decide, by simp⟩ (by simp [Requests]) rfl
  obtain ⟨L, ho, hadd⟩ := run_ordered hr
  obtain ⟨-, hrem⟩ := hadd (.rules 0 0) 3 (rule 3 0 0 [1]) 0 none _ ⟨by decide, by simp⟩ rfl
  obtain ⟨s'', hs'', ho''⟩ := (hrem 4 none ⟨by decide, by simp⟩).2 rfl
  exact ⟨_, _, s'', L, ho, rfl, rfl, rfl, rfl, hs'', ho''⟩

/-- **A rule with `max-srcs` cannot be removed, and the authentication device links without back
pointers.** The copy of the rule that is to be removed has the address of its own tree in the
compared block. A rule that goes to `ipf_auth_ip` keeps the cleared `fr_pnext` of the copy. -/
theorem run_not_ordered_tracked :
    (∃ s', request (Softc.init 0 fun _ => rule 0 0 0 []) .add false (.rules 0 0) 1 (rule 0 4 0 []) 0 none = .ok s' ∧
      s'.mem.head (.rules 0 0) = some 1 ∧ Legal s' (.request .remove false (.rules 0 0) 2 (rule 0 4 0 []) 0 none) ∧
      request s' .remove false (.rules 0 0) 2 (rule 0 4 0 []) 0 none = .error (.errno ESRCH)) ∧
    ∃ s', request (Softc.init 0 fun _ => rule 0 0 0 []) .add true .auth 1 (rule 0 0 0 []) 0 (some 2) = .ok s' ∧
      Legal (Softc.init 0 fun _ => rule 0 0 0 []) (.request .add true .auth 1 (rule 0 0 0 []) 0 (some 2)) ∧
      s'.mem.head .auth = some 2 ∧ ¬ ∃ L, Rep s'.mem L := by
  refine ⟨⟨_, rfl, rfl, ⟨by decide, by simp⟩, rfl⟩, _, rfl, ⟨by simp [Softc.init], by simp [Softc.init]⟩, rfl,
    ?_⟩
  rintro ⟨L, hr⟩
  have h1 := (hr .auth).head?
  have h2 := (hr .auth).1
  cases hl : L .auth with
  | nil =>
    rw [hl] at h1
    cases h1
  | cons x l =>
    rw [hl] at h1 h2
    obtain rfl : 2 = x := Option.some.inj h1
    cases h2.2.1

end Ipfilter.Rules
