import Ipfilter.Proof.Rules

/-!
# Expiring rules

* `Timed`: the expire lists hold exactly the loaded rules with an expiry time, ordered by it.
* `Timed.expireInsert`: loading a rule that expires last keeps this.
* `Timed.delete`: so does deleting any rule.
* `expireLoop_spec`: the loop of `ipf_rule_expire` takes off the rules that are due.
* `run_timed`: the invariant over whole runs, and what `ipf_rule_expire` then does.
-/

namespace Ipfilter.Rules

open Chain List
open Function (update update_of_ne update_self)

variable {s s' : Softc} {L : Head → List Addr} {D : Fin 2 → List Addr} {set : Fin 2} {h : Head} {fp f : Addr}
  {c : Frentry}

/-- **The expire lists.** Each is linked up properly, it holds the loaded rules of its set that have an
expiry time and no others, and it is ordered by this time. A rule without one is on neither. -/
structure Timed (s : Softc) (D : Fin 2 → List Addr) : Prop where
  rep : Rep s.dmem D
  once : (s.loaded.map (·.addr)).Nodup
  exact : ∀ set f, f ∈ D set ↔ ⟨f, set, true⟩ ∈ s.loaded
  sorted : ∀ set, (D set).Pairwise (fun f g => (s.fr f).frDie ≤ (s.fr g).frDie)
  rest : ∀ p ∈ s.loaded, p.expires = false → s.dmem.pnext p.addr = none

/-- An address is loaded once. -/
theorem Timed.load_inj (ht : Timed s D) {p q : Load} (hp : p ∈ s.loaded) (hq : q ∈ s.loaded)
    (e : p.addr = q.addr) : p = q := inj_on_of_nodup_map ht.once hp hq e

theorem Timed.mem_loaded (ht : Timed s D) (hf : f ∈ D set) : f ∈ s.loaded.map (·.addr) :=
  mem_map_of_mem (f := (·.addr)) ((ht.exact set f).1 hf)

theorem Timed.length_le (ht : Timed s D) (set : Fin 2) : (D set).length ≤ s.loaded.length := by
  have hs : D set ⊆ s.loaded.map (·.addr) := fun f hf => ht.mem_loaded hf
  have := (subperm_of_subset (ht.rep.nodup set) hs).length_le
  simpa using this

theorem Timed.fresh (ht : Timed s D) (hf : ∀ p ∈ s.loaded, p.addr ≠ fp) (set : Fin 2) : fp ∉ D set := by
  intro hc
  exact hf _ ((ht.exact set fp).1 hc) rfl

theorem init_timed (ticks : ℕ) (fr : Addr → Frentry) : Timed (Softc.init ticks fr) (fun _ => []) := by
  refine ⟨fun h => ⟨trivial, rfl⟩, ?_, ?_, ?_, ?_⟩ <;> simp [Softc.init]

/-! ## Steps that leave the expire lists alone -/

/-- The expiry times of the loaded rules stay. -/
theorem Timed.congr (ht : Timed s D) (hl : s'.loaded = s.loaded) (hr : Rep s'.dmem D)
    (hd : ∀ p ∈ s.loaded, (s'.fr p.addr).frDie = (s.fr p.addr).frDie)
    (hp : ∀ p ∈ s.loaded, s'.dmem.pnext p.addr = s.dmem.pnext p.addr) : Timed s' D := by
  refine ⟨hr, ?_, ?_, ?_, ?_⟩
  · rw [hl]
    exact ht.once
  · rw [hl]
    exact ht.exact
  · intro set
    refine (ht.sorted set).imp_of_mem (fun {f g} hf hg hc => ?_)
    rw [hd _ ((ht.exact set f).1 hf), hd _ ((ht.exact set g).1 hg)]
    exact hc
  · rw [hl]
    intro p hm he
    rw [hp p hm]
    exact ht.rest p hm he

theorem Timed.prepare (ht : Timed s D) (hf : ∀ p ∈ s.loaded, p.addr ≠ fp) (c : Frentry) :
    Timed (prepare s fp c) D := by
  refine ht.congr rfl (ht.rep.congr ?_ ?_ ?_) ?_ ?_
  · funext set
    simp [Rules.prepare]
  · intro set f hm
    have : fp ≠ f := fun e => ht.fresh hf set (e ▸ hm)
    simp [Rules.prepare, this]
  · intro set f hm
    have : f ≠ fp := fun e => ht.fresh hf set (e ▸ hm)
    simp [Rules.prepare, this]
  · intro p hp
    simp [Rules.prepare, hf p hp]
  · intro p hp
    simp [Rules.prepare, hf p hp]

/-! ## Loading a rule -/

/-- The loop of `ipf_rule_expire_insert` when no rule on the list expires later: it ends at the
last one. -/
theorem expireFind_spec {m : Mem (Fin 2) Addr} (frDie : Addr → ℕ) {die : ℕ} : ∀ (i : ℕ) {k : Link (Fin 2) Addr}
    {l : List Addr}, Seg m k l → l.length ≤ i → (∀ g ∈ l, frDie g ≤ die) →
    (l = [] ∧ expireFind m frDie die i (m.get k) = some .empty) ∨
      ∃ x, lastLink k l = .next x ∧ expireFind m frDie die i (m.get k) = some (.after x)
  | i, k, [], hs, _, _ => by
    have hg : m.get k = none := hs.2
    rw [hg]
    exact .inl ⟨rfl, by cases i <;> rfl⟩
  | 0, _, _ :: _, _, hi, _ => by simp at hi
  | i + 1, k, f :: l, hs, hi, hd => by
    obtain ⟨hg, -, hs'⟩ := (seg_cons _).1 hs
    have hf : ¬ die < frDie f := by
      have := hd f mem_cons_self
      omega
    refine .inr ?_
    rw [hg]
    have ih := expireFind_spec frDie i hs' (by simpa using hi) (fun g hg => hd g (mem_cons_of_mem _ hg))
    rw [next_get] at ih
    rcases ih with ⟨rfl, -⟩ | ⟨x, hx, he⟩
    · -- `f` is the last rule
      have hn : m.next f = none := hs'.2
      exact ⟨f, rfl, by simp [expireFind, hf, hn]⟩
    · refine ⟨x, hx, ?_⟩
      cases hn : m.next f with
      | none =>
        rw [hn] at he
        cases i <;> simp [expireFind] at he
      | some g =>
        rw [hn] at he
        simp only [expireFind, hf, hn, if_false]
        exact he

/-- The time at which a rule with time to live `die` expires. -/
def expiry (s : Softc) (die : ℕ) : ℕ := u32 (s.ticks + ipfTtlval die)

/-- A rule that no rule of its set outlives is linked in at the end of the list. -/
theorem Timed.expireInsert_eq (ht : Timed s D) (hf : ∀ p ∈ s.loaded, p.addr ≠ f)
    (hd : ∀ g ∈ D set, (s.fr g).frDie ≤ expiry s (s.fr f).frDie) : ipfRuleExpireInsert s f set = some { s with
      fr := update s.fr f { s.fr f with frDie := expiry s (s.fr f).frDie }
      dmem := (s.dmem.set (lastLink (.head set) (D set)) (some f)).setP f (some (lastLink (.head set) (D set))) } := by
  unfold ipfRuleExpireInsert
  simp only [Option.bind_eq_bind]
  have hlen := ht.length_le set
  have hdie : ∀ g ∈ D set, ((update s.fr f { s.fr f with frDie := expiry s (s.fr f).frDie }) g).frDie ≤
      expiry s (s.fr f).frDie := by
    intro g hg
    have : g ≠ f := fun e => ht.fresh hf set (e ▸ hg)
    rw [update_of_ne this]
    exact hd g hg
  rcases expireFind_spec _ (s.loaded.length + 1) (ht.rep set) (by omega) hdie with ⟨hl, he⟩ | ⟨x, hx, he⟩
  · rw [head_get] at he
    unfold expiry at he
    rw [he, hl]
    rfl
  · rw [head_get] at he
    unfold expiry at he
    rw [he, hx]
    rfl

theorem Timed.once_cons (ht : Timed s D) (hf : ∀ p ∈ s.loaded, p.addr ≠ fp) : (fp :: s.loaded.map (·.addr)).Nodup := by
  refine nodup_cons.2 ⟨fun hm => ?_, ht.once⟩
  obtain ⟨p, hp, e⟩ := mem_map.1 hm
  exact hf p hp e

theorem Timed.sorted_congr (ht : Timed s D) (hf : ∀ p ∈ s.loaded, p.addr ≠ fp)
    (hfr : ∀ g, g ≠ fp → (s'.fr g).frDie = (s.fr g).frDie) (set : Fin 2) :
    (D set).Pairwise (fun f g => (s'.fr f).frDie ≤ (s'.fr g).frDie) := by
  refine (ht.sorted set).imp_of_mem (fun {f g} hm hm' hc => ?_)
  rw [hfr f (fun e => ht.fresh hf set (e ▸ hm)), hfr g (fun e => ht.fresh hf set (e ▸ hm'))]
  exact hc

/-- A rule without expiry time. -/
theorem Timed.load (ht : Timed s D) (set : Fin 2) (hf : ∀ p ∈ s.loaded, p.addr ≠ fp) (hp : s.dmem.pnext fp = none)
    (hl : s'.loaded = ⟨fp, set, false⟩ :: s.loaded) (hm : s'.dmem = s.dmem)
    (hfr : ∀ g, g ≠ fp → (s'.fr g).frDie = (s.fr g).frDie) : Timed s' D := by
  refine ⟨hm ▸ ht.rep, ?_, ?_, ht.sorted_congr hf hfr, ?_⟩
  · rw [hl]
    exact ht.once_cons hf
  · intro set' g
    rw [ht.exact set' g, hl]
    simp
  · rw [hl, hm]
    intro p hpm he
    rcases mem_cons.1 hpm with rfl | hpm
    · exact hp
    · exact ht.rest p hpm he

/-- A rule that expires last, at the end of its list. -/
theorem Timed.append (ht : Timed s D) (set : Fin 2) (hf : ∀ p ∈ s.loaded, p.addr ≠ fp)
    (hl : s'.loaded = ⟨fp, set, true⟩ :: s.loaded) (hm : Inserted s.dmem s'.dmem fp (lastLink (.head set) (D set)))
    (hfr : ∀ g, g ≠ fp → (s'.fr g).frDie = (s.fr g).frDie) (hd : ∀ g ∈ D set, (s.fr g).frDie ≤ (s'.fr fp).frDie) :
    Timed s' (update D set (D set ++ [fp])) := by
  refine ⟨ht.rep.insert (append_nil _).symm (ht.fresh hf) rfl hm, ?_, ?_, ?_, ?_⟩
  · rw [hl]
    exact ht.once_cons hf
  · intro set' g
    rw [hl, mem_cons, Load.mk.injEq]
    by_cases hset : set' = set
    · subst hset
      rw [update_self, mem_append, mem_singleton, ht.exact set' g]
      simp only [and_true]
      exact or_comm
    · rw [update_of_ne hset, ht.exact set' g]
      simp [hset]
  · intro set'
    by_cases hset : set' = set
    · subst hset
      rw [update_self, pairwise_append]
      refine ⟨ht.sorted_congr hf hfr set', pairwise_singleton _ _, ?_⟩
      intro g hg x hx
      rw [mem_singleton.1 hx, hfr g (fun e => ht.fresh hf set' (e ▸ hg))]
      exact hd g hg
    · rw [update_of_ne hset]
      exact ht.sorted_congr hf hfr set'
  · rw [hl]
    intro p hpm he
    rcases mem_cons.1 hpm with rfl | hpm
    · cases he
    · have hlast : s.dmem.get (lastLink (.head set) (D set)) = none := (ht.rep set).2
      rw [hm.pnext p.addr (by rw [hlast]; simp) (hf p hpm)]
      exact ht.rest p hpm he

/-- **Loading a rule keeps the expire lists**, if it has no expiry time, or if no rule of its set
has a later one. -/
theorem Timed.ruleLink (ht : Timed s D) (hf : ∀ p ∈ s.loaded, p.addr ≠ fp) (hn : s.dmem.next fp = none)
    (hp : s.dmem.pnext fp = none) (hd : (s.fr fp).frDie ≠ 0 → ∀ g ∈ D set, (s.fr g).frDie ≤ expiry s (s.fr fp).frDie)
    {k : Link Head Addr} {mk : Bool} (hs : ruleLink s fp k set mk = .ok s') : ∃ D', Timed s' D' := by
  unfold Rules.ruleLink at hs
  by_cases hz : (s.fr fp).frDie ≠ 0
  · rw [if_pos hz, ht.expireInsert_eq hf (hd hz)] at hs
    cases hs
    refine ⟨_, ht.append set hf (by simp [hz]) ?_ ?_ ?_⟩
    · -- nothing is pointed to yet at the end of the list
      have hlast : s.dmem.get (lastLink (.head set) (D set)) = none := (ht.rep set).2
      have hk : lastLink (.head set) (D set) ≠ .next fp := by
        rcases lastLink_cases (k := Link.head (N := Addr) set) (D set) with e | ⟨x, hx, e⟩
        · rw [e]
          simp
        · rw [e]
          rintro ⟨⟩
          exact ht.fresh hf set hx
      refine ⟨by simp, fun _ => ?_, by simp, ?_, ?_, ?_⟩
      · simp [hk, hn, hlast]
      · intro x h1 _
        simp [h1]
      · intro y hy
        rw [hlast] at hy
        cases hy
      · intro x _ h2
        simp [h2]
    · intro g hg
      simp [hg]
    · intro g hg
      simpa using hd hz g hg
  · rw [if_neg hz] at hs
    cases hs
    refine ⟨D, ht.load set hf hp (by simp [hz]) rfl ?_⟩
    intro g hg
    simp [hg]

/-! ## Deleting a rule -/

theorem mem_delete {p : Load} : p ∈ (ipfRuleDelete s f).loaded ↔ p ∈ s.loaded ∧ p.addr ≠ f := by
  simp [ipfRuleDelete]

theorem delete_die (g : Addr) : ((ipfRuleDelete s f).fr g).frDie = (s.fr g).frDie := by
  by_cases hg : g = f
  · subst hg
    simp [ipfRuleDelete]
  · simp [ipfRuleDelete, hg]

/-- **Deleting a loaded rule takes it off its expire list**, if it is on one. -/
theorem Timed.delete (ht : Timed s D) (hf : f ∈ s.loaded.map (·.addr)) :
    Timed (ipfRuleDelete s f) (fun set => (D set).filter (· ≠ f)) := by
  obtain ⟨p, hp, rfl⟩ := mem_map.1 hf
  have hrest : ∀ q ∈ s.loaded, q.expires = false → ∀ set, q.addr ∉ D set := by
    intro q hq he set hm
    have := ht.load_inj hq ((ht.exact set q.addr).1 hm) rfl
    rw [this] at he
    cases he
  have hmem : Rep (s.dmem.cut p.addr) (fun set => (D set).filter (· ≠ p.addr)) ∧
      ∀ q ∈ s.loaded, q.expires = false → q.addr ≠ p.addr → (s.dmem.cut p.addr).pnext q.addr = none := by
    cases he : p.expires with
    | true =>
      have hD : p.addr ∈ D p.set := (ht.exact p.set p.addr).2 (by rw [← he]; exact hp)
      obtain ⟨a, b, e⟩ := append_of_mem hD
      have hpn : s.dmem.pnext p.addr = some (lastLink (.head p.set) a) := ht.rep.pnext e
      have hcut := s.dmem.cut_removed hpn
      refine ⟨?_, ?_⟩
      · rw [← ht.rep.update_eq_filter e]
        exact ht.rep.remove e rfl hcut
      · intro q hq hqe hne
        rw [hcut.pnext q.addr ?_ hne]
        · exact ht.rest q hq hqe
        · -- the rule behind it is on the list too
          rw [ht.rep.next e]
          intro hc
          refine hrest q hq hqe p.set ?_
          rw [e]
          exact mem_append_right _ (mem_cons_of_mem _ (mem_of_head? hc))
    | false =>
      rw [Mem.cut_none (ht.rest p hp he)]
      refine ⟨?_, fun q hq hqe _ => ht.rest q hq hqe⟩
      have : (fun set => (D set).filter (· ≠ p.addr)) = D := by
        funext set
        rw [filter_eq_self]
        intro g hg
        have : g ≠ p.addr := fun c => hrest p hp he set (c ▸ hg)
        simpa using this
      rw [this]
      exact ht.rep
  refine ⟨hmem.1, ?_, ?_, ?_, ?_⟩
  · exact ht.once.sublist (List.filter_sublist.map _)
  · intro set g
    rw [mem_delete, mem_filter, ht.exact set g]
    simp
  · intro set
    simp only [delete_die]
    exact (ht.sorted set).sublist filter_sublist
  · intro q hq he
    rw [mem_delete] at hq
    exact hmem.2 q hq.1 he hq.2

/-- The same for the rule lists. -/
theorem Ordered.delete (ho : Ordered s L) (hf : f ∈ s.loaded.map (·.addr)) :
    Ordered (ipfRuleDelete s f) (fun h => (L h).filter (· ≠ f)) := by
  obtain ⟨h, hm⟩ := (ho.loaded f).2 hf
  obtain ⟨a, b, e⟩ := append_of_mem hm
  rw [← ho.rep.update_eq_filter e]
  exact ho.remove e

/-! ## `ipf_rule_expire` -/

/-- A loaded rule of the set whose time has come. -/
def Due (s : Softc) (set : Fin 2) (p : Load) : Prop :=
  p.set = set ∧ p.expires = true ∧ (s.fr p.addr).frDie ≤ s.ticks

/-- From `s` with the rules `L`, the rules in `gone` were deleted, and nothing else. -/
structure Swept (s : Softc) (L : Head → List Addr) (gone : Load → Prop) (s' : Softc) : Prop where
  ordered : Ordered s' (fun h => (L h).filter (fun f => f ∈ s'.loaded.map (·.addr)))
  timed : ∃ D, Timed s' D
  ticks : s'.ticks = s.ticks
  die : ∀ f, (s'.fr f).frDie = (s.fr f).frDie
  loaded : ∀ p, p ∈ s'.loaded ↔ p ∈ s.loaded ∧ ¬ gone p

theorem swept_none (ho : Ordered s L) (ht : Timed s D) {gone : Load → Prop} (hg : ∀ p ∈ s.loaded, ¬ gone p) :
    Swept s L gone s := by
  refine ⟨?_, ⟨D, ht⟩, rfl, fun _ => rfl, fun p => ⟨fun hp => ⟨hp, hg p hp⟩, fun hp => hp.1⟩⟩
  have : (fun h => (L h).filter (fun f => f ∈ s.loaded.map (·.addr))) = L := by
    funext h
    rw [filter_eq_self]
    intro f hf
    simpa using (ho.loaded f).1 ⟨h, hf⟩
  rw [this]
  exact ho

/-- One sweep after another. -/
theorem Swept.trans {s₁ s₂ : Softc} {gone gone' : Load → Prop} (h₁ : Swept s L gone s₁)
    (h₂ : Swept s₁ (fun h => (L h).filter (fun f => f ∈ s₁.loaded.map (·.addr))) gone' s₂) :
    Swept s L (fun p => gone p ∨ gone' p) s₂ := by
  refine ⟨?_, h₂.timed, h₂.ticks.trans h₁.ticks, fun f => (h₂.die f).trans (h₁.die f), ?_⟩
  · have ho := h₂.ordered
    simp only [filter_filter] at ho
    have hsub : ∀ f, f ∈ s₂.loaded.map (·.addr) → f ∈ s₁.loaded.map (·.addr) := by
      intro f hf
      obtain ⟨p, hp, rfl⟩ := mem_map.1 hf
      exact mem_map_of_mem (f := (·.addr)) ((h₂.loaded p).1 hp).1
    have heq : (fun h => (L h).filter (fun f => f ∈ s₂.loaded.map (·.addr))) = fun h => (L h).filter
        (fun f => decide (f ∈ s₂.loaded.map (·.addr)) && decide (f ∈ s₁.loaded.map (·.addr))) := by
      funext h
      refine filter_congr (fun f _ => ?_)
      by_cases hf : f ∈ s₂.loaded.map (·.addr)
      · simp only [hf, hsub f hf, decide_true, Bool.and_self]
      · simp only [hf, decide_false, Bool.false_and]
    rw [heq]
    exact ho
  · intro p
    rw [h₂.loaded p, h₁.loaded p]
    tauto

/-- Deleting one rule. -/
theorem swept_delete (ho : Ordered s L) (ht : Timed s D) {p : Load} (hp : p ∈ s.loaded) :
    Swept s L (· = p) (ipfRuleDelete s p.addr) := by
  have hf : p.addr ∈ s.loaded.map (·.addr) := mem_map_of_mem (f := (·.addr)) hp
  refine ⟨?_, ⟨_, ht.delete hf⟩, rfl, delete_die, ?_⟩
  · have heq : (fun h => (L h).filter (fun f => f ∈ (ipfRuleDelete s p.addr).loaded.map (·.addr))) =
        fun h => (L h).filter (· ≠ p.addr) := by
      funext h
      refine filter_congr (fun f hm => ?_)
      have hfl := (ho.loaded f).1 ⟨h, hm⟩
      rw [decide_eq_decide]
      constructor
      · intro hd
        obtain ⟨q, hq, rfl⟩ := mem_map.1 hd
        exact (mem_delete.1 hq).2
      · intro hne
        obtain ⟨q, hq, rfl⟩ := mem_map.1 hfl
        exact mem_map_of_mem (f := (·.addr)) (mem_delete.2 ⟨hq, hne⟩)
    rw [heq]
    exact ho.delete hf
  · intro q
    rw [mem_delete]
    constructor
    · rintro ⟨hq, hne⟩
      exact ⟨hq, fun e => hne (by rw [e])⟩
    · rintro ⟨hq, hne⟩
      exact ⟨hq, fun e => hne (ht.load_inj hq hp e)⟩

theorem Swept.congr {gone gone' : Load → Prop} (hs : Swept s L gone s') (h : ∀ p ∈ s.loaded, gone p ↔ gone' p) :
    Swept s L gone' s' := by
  refine ⟨hs.ordered, hs.timed, hs.ticks, hs.die, fun p => ?_⟩
  rw [hs.loaded p]
  constructor
  · rintro ⟨hp, hn⟩
    exact ⟨hp, fun hg => hn ((h p hp).2 hg)⟩
  · rintro ⟨hp, hn⟩
    exact ⟨hp, fun hg => hn ((h p hp).1 hg)⟩

/-- **One loop of `ipf_rule_expire` deletes the rules of its set that are due, and no others.** -/
theorem expireLoop_spec (set : Fin 2) : ∀ (i : ℕ) {s : Softc} {L : Head → List Addr} {D : Fin 2 → List Addr},
    Ordered s L → Timed s D → (D set).length ≤ i → ∃ s', expireLoop set i s = some s' ∧
      Swept s L (Due s set) s' := by
  intro i
  induction i with
  | zero =>
    intro s L D ho ht hi
    have hD : D set = [] := by simpa using hi
    have hh : s.dmem.head set = none := by
      have := (ht.rep set).head?
      rw [hD] at this
      exact this
    refine ⟨s, by simp [expireLoop, hh], swept_none ho ht ?_⟩
    rintro ⟨f, set', e⟩ hp ⟨rfl, rfl, -⟩
    have := (ht.exact _ _).2 hp
    rw [hD] at this
    simp at this
  | succ i ih =>
    intro s L D ho ht hi
    have hh := (ht.rep set).head?
    rw [head_get] at hh
    rw [expireLoop]
    cases hD : D set with
    | nil =>
      rw [hD] at hh
      refine ⟨s, by simp [hh], swept_none ho ht ?_⟩
      rintro ⟨f, set', e⟩ hp ⟨rfl, rfl, -⟩
      have := (ht.exact _ _).2 hp
      rw [hD] at this
      simp at this
    | cons x l =>
      rw [hD] at hh hi
      simp only [hh, head?_cons]
      have hx : ⟨x, set, true⟩ ∈ s.loaded := (ht.exact set x).1 (by rw [hD]; exact mem_cons_self)
      by_cases hd : s.ticks < (s.fr x).frDie
      · -- the first rule is not due, so that none is
        rw [if_pos hd]
        refine ⟨s, rfl, swept_none ho ht ?_⟩
        rintro ⟨f, set', e⟩ hp ⟨rfl, rfl, hdue⟩
        have hm := (ht.exact _ _).2 hp
        have hsort := ht.sorted set'
        rw [hD] at hm hsort
        rcases mem_cons.1 hm with rfl | hm
        · exact absurd hdue (by simpa using hd)
        · have := (pairwise_cons.1 hsort).1 f hm
          simp only at hdue
          omega
      · rw [if_neg hd]
        have hdel := swept_delete ho ht hx
        have hlen : ((D set).filter (· ≠ x)).length ≤ i := by
          rw [hD, filter_cons_of_neg (by simp)]
          have := length_filter_le (fun g => decide (g ≠ x)) l
          simp at hi
          omega
        obtain ⟨s', hs', hsw⟩ := ih hdel.ordered (ht.delete (mem_map_of_mem (f := (·.addr)) hx)) hlen
        refine ⟨s', hs', (hdel.trans hsw).congr (fun p hp => ?_)⟩
        have hdue : Due (ipfRuleDelete s x) set p ↔ Due s set p := by
          unfold Due
          rw [delete_die]
          rfl
        rw [hdue]
        constructor
        · rintro (rfl | h)
          · exact ⟨rfl, rfl, by simpa using hd⟩
          · exact h
        · exact .inr

/-- **`ipf_rule_expire` returns, having deleted every rule whose time has come and no other.** -/
theorem ipfRuleExpire_spec (ho : Ordered s L) (ht : Timed s D) : ∃ s', ipfRuleExpire s = some s' ∧
    Swept s L (fun p => p.expires = true ∧ (s.fr p.addr).frDie ≤ s.ticks) s' := by
  obtain ⟨s₁, h₁, hsw₁⟩ := expireLoop_spec 0 s.loaded.length ho ht (ht.length_le 0)
  obtain ⟨D₁, ht₁⟩ := hsw₁.timed
  obtain ⟨s₂, h₂, hsw₂⟩ := expireLoop_spec 1 s₁.loaded.length hsw₁.ordered ht₁ (ht₁.length_le 1)
  refine ⟨s₂, by simp [ipfRuleExpire, h₁, h₂], (hsw₁.trans hsw₂).congr (fun p _ => ?_)⟩
  unfold Due
  rw [hsw₁.die, hsw₁.ticks]
  have hset : p.set = 0 ∨ p.set = 1 := by
    have := p.set.isLt
    omega
  tauto

/-- Only the first rule of each list is looked at. -/
theorem ipfRuleExpire_head (hh : ∀ set f, s.dmem.head set = some f → s.ticks < (s.fr f).frDie) :
    ipfRuleExpire s = some s := by
  have hloop : ∀ set i, expireLoop set i s = some s := by
    intro set i
    cases hd : s.dmem.head set with
    | none => cases i <;> simp [expireLoop, hd]
    | some f => cases i <;> simp [expireLoop, hd, hh set f hd]
  simp [ipfRuleExpire, hloop]

/-! ## Runs -/

/-- No request is for the authentication device, and a rule with a time to live is only loaded when
no loaded rule of its set expires later. -/
def Latest (s : Softc) : Op → Prop
  | .request req auth _ _ c set _ => auth = false ∧ (req = .add ∨ req = .insert → c.frDie ≠ 0 →
      ∀ p ∈ s.loaded, p.set = set → p.expires = true → (s.fr p.addr).frDie ≤ expiry s c.frDie)
  | _ => True

/-- A request keeps the expire lists. -/
theorem Timed.request (ho : Ordered s L) (ht : Timed s D) {req : Req} {new : Option Addr}
    (hl : Legal s (.request req false h fp c set new)) (hok : Latest s (.request req false h fp c set new))
    (hs : request s req false h fp c set new = .ok s') : ∃ D', Timed s' D' := by
  have hp := ht.prepare hl.1 c
  have hn : (Rules.prepare s fp c).dmem.next fp = none := by simp [Rules.prepare]
  have hpn : (Rules.prepare s fp c).dmem.pnext fp = none := by simp [Rules.prepare]
  have hlink : (req = .add ∨ req = .insert) → ∀ k : Link Head Addr,
      Rules.ruleLink (Rules.prepare s fp c) fp k set true = .ok s' → ∃ D', Timed s' D' := by
    intro hr k hk
    refine hp.ruleLink hl.1 hn hpn (fun hz g hg => ?_) hk
    have hload : ⟨g, set, true⟩ ∈ s.loaded := (ht.exact set g).1 hg
    have hc : ((Rules.prepare s fp c).fr fp).frDie = c.frDie := by simp [Rules.prepare]
    have hg' : (Rules.prepare s fp c).fr g = s.fr g := by simp [Rules.prepare, hl.1 _ hload]
    rw [hc] at hz ⊢
    rw [hg']
    exact hok.2 hr hz _ hload rfl rfl
  rcases frLocked_cases hs with ⟨f, -, rfl, rfl⟩ | ⟨f, hg, rfl, rfl⟩ | ⟨-, rfl, hk⟩ | ⟨-, rfl, hk⟩
  · refine ⟨D, hp.congr rfl hp.rep (fun p _ => ?_) (fun p _ => rfl)⟩
    by_cases hf : p.addr = f
    · rw [hf]
      simp
    · simp [hf]
  · -- what is found is a loaded rule
    obtain ⟨-, -, -, -, -, hfind⟩ := (ho.prepare hl.1 c).ruleFind_spec h fp
    rw [hfind] at hg
    exact ⟨_, hp.delete ((ho.loaded f).1 ⟨h, mem_of_find?_eq_some hg⟩)⟩
  · exact hlink (.inl rfl) _ hk
  · exact hlink (.inr rfl) _ hk

/-- **The expire lists over whole runs.** As long as rules are loaded in the order they expire in,
each expire list holds exactly the loaded rules of its set with an expiry time, in order and with
correct back pointers, and `ipf_rule_expire` returns and takes exactly the rules off their lists
whose time has come. -/
theorem run_timed {ticks : ℕ} {fr : Addr → Frentry} {s : Softc} (hr : Run Latest (Softc.init ticks fr) s) :
    ∃ L D, Ordered s L ∧ Timed s D ∧ ∃ s', ipfRuleExpire s = some s' ∧
      Swept s L (fun p => p.expires = true ∧ (s.fr p.addr).frDie ≤ s.ticks) s' := by
  have hL : ∃ L D, Ordered s L ∧ Timed s D := by
    induction hr with
    | init => exact ⟨_, _, init_ordered ticks fr, init_timed ticks fr⟩
    | step op _ hl hok hs ih =>
      obtain ⟨L, D, ho, ht⟩ := ih
      cases op with
      | request req auth h fp c set new =>
        obtain rfl : auth = false := hok.1
        have hs' := request_of_step hs
        obtain ⟨L', -, ho'⟩ := ho.request hl.1 hs'
        obtain ⟨D', ht'⟩ := Timed.request ho ht hl hok hs'
        exact ⟨L', D', ho', ht'⟩
      | delete f =>
        obtain ⟨p, hp, rfl⟩ := hl
        cases hs
        exact ⟨_, _, ho.delete (mem_map_of_mem (f := (·.addr)) hp),
          ht.delete (mem_map_of_mem (f := (·.addr)) hp)⟩
      | expire =>
        obtain ⟨s₁, hs₁, hsw⟩ := ipfRuleExpire_spec ho ht
        rw [step, hs₁] at hs
        cases hs
        obtain ⟨D', ht'⟩ := hsw.timed
        exact ⟨_, D', hsw.ordered, ht'⟩
      | tick t =>
        cases hs
        exact ⟨L, D, ho.congr ho.rep rfl (fun _ _ _ => rfl),
          ht.congr rfl ht.rep (fun _ _ => rfl) (fun _ _ => rfl)⟩
  obtain ⟨L, D, ho, ht⟩ := hL
  exact ⟨L, D, ho, ht, ipfRuleExpire_spec ho ht⟩

/-- Two rules that expire at 2 and at 10, and what is left of them at 4. -/
theorem run_timed_two : ∃ s s' : Softc, ipfRuleExpire s = some s' ∧ s.ticks = 4 ∧
    s.loaded = [⟨2, 0, true⟩, ⟨1, 0, true⟩] ∧ ∀ p, p ∈ s'.loaded ↔ p = ⟨2, 0, true⟩ := by
  have hr : Run Latest (Softc.init 0 fun _ => rule 0 0 0 []) _ :=
    .step (.tick 4)
      (.step (.request .add false (.rules 0 0) 2 (rule 0 0 5 [2]) 0 none)
        (.step (.request .add false (.rules 0 0) 1 (rule 0 0 1 [1]) 0 none) .init ⟨by simp [Softc.init], by simp⟩
          ⟨by simp, by simp [Softc.init]⟩ rfl)
        ⟨by decide, by simp⟩ ⟨by simp, fun _ _ => by decide⟩ rfl)
      (Nat.zero_le 4) trivial rfl
  obtain ⟨L, D, -, -, s', hs', hsw⟩ := run_timed hr
  refine ⟨_, s', hs', rfl, rfl, fun p => ?_⟩
  have hl := hsw.loaded p
  constructor
  · intro hp
    obtain ⟨hm, hn⟩ := hl.1 hp
    rcases List.mem_cons.1 hm with rfl | hm
    · rfl
    · obtain rfl : p = ⟨1, 0, true⟩ := by
        rcases List.mem_cons.1 hm with rfl | hm
        · rfl
        · cases hm
      exact absurd ⟨rfl, by decide⟩ hn
  · rintro rfl
    exact hl.2 ⟨mem_cons_self, by decide⟩

/-- **A rule that expires before another one gets lost.** The first rule expires at 20 and the second
at 2, and the head still points to the first: at time 4 nothing is deleted. -/
theorem run_not_timed_before : ∃ s : Softc, Run (fun _ _ => True) (Softc.init 0 fun _ => rule 0 0 0 []) s ∧
    s.loaded = [⟨2, 0, true⟩, ⟨1, 0, true⟩] ∧ (s.fr 2).frDie = 2 ∧ s.ticks = 4 ∧
    (¬ ∃ D, Timed s D) ∧ ipfRuleExpire s = some s := by
  have hrun : ((step (Softc.init 0 fun _ => rule 0 0 0 [])
        (.request .add false (.rules 0 0) 1 (rule 0 0 10 [1]) 0 none)).bind fun s₁ =>
      (step s₁ (.request .add false (.rules 0 0) 2 (rule 0 0 1 [2]) 0 none)).map fun s₂ =>
        (s₁.loaded, s₂.loaded, (s₂.fr 1).frDie, (s₂.fr 2).frDie, s₂.ticks, s₂.dmem.head 0, s₂.dmem.head 1)) =
      some ([⟨1, 0, true⟩], [⟨2, 0, true⟩, ⟨1, 0, true⟩], 20, 2, 0, some 1, none) := by
    rfl
  rw [Option.bind_eq_some_iff] at hrun
  obtain ⟨s₁, h₁, hrun⟩ := hrun
  rw [Option.map_eq_some_iff] at hrun
  obtain ⟨s₂, h₂, hv⟩ := hrun
  simp only [Prod.mk.injEq] at hv
  obtain ⟨hl₁, hl₂, hd₁, hd₂, ht, hh₀, hh₁⟩ := hv
  refine ⟨{ s₂ with ticks := 4 }, .step (.tick 4)
      (.step (.request .add false (.rules 0 0) 2 (rule 0 0 1 [2]) 0 none)
        (.step (.request .add false (.rules 0 0) 1 (rule 0 0 10 [1]) 0 none) .init ⟨by simp [Softc.init], by simp⟩
          trivial h₁)
        ⟨by simp [hl₁], by simp⟩ trivial h₂)
      (by simp [Legal, ht]) trivial rfl, hl₂, hd₂, rfl, ?_, ipfRuleExpire_head ?_⟩
  · rintro ⟨D, ht⟩
    -- the list starts with the first rule, and the second one is not before it
    have h1 := (ht.rep 0).head?
    have h2 := (ht.exact 0 2).2 (by simp [hl₂])
    have h3 := ht.sorted 0
    rw [head_get] at h1
    simp only [hh₀] at h1
    cases hD : D 0 with
    | nil => simp [hD] at h1
    | cons x l =>
      rw [hD] at h1 h2 h3
      obtain rfl : 1 = x := by simpa using h1
      rcases List.mem_cons.1 h2 with h2 | h2
      · cases h2
      · have := (List.pairwise_cons.1 h3).1 2 h2
        simp only [hd₁, hd₂] at this
        omega
  · intro set f hf
    rcases Fin.exists_fin_two.1 ⟨set, rfl⟩ with rfl | rfl
    · obtain rfl : 1 = f := by simpa [hh₀] using hf
      simp [hd₁]
    · simp [hh₁] at hf

end Ipfilter.Rules
