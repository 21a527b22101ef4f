import Ipfilter.Spec.Token
import Mathlib.Algebra.Order.BigOperators.Group.List
import Mathlib.Tactic.Linarith

/-!
# Reference counts of iterator tokens

* `Inv.step`: one call of an interleaving in which the list gives its reference up once.
* `run_safe`: in such an interleaving no token is freed while an ioctl holds it, no call
  touches freed memory, and an expiry pass takes at most one reference from a token.
* `run_not_safe_expire`: an expiry pass frees a token that an ioctl still holds.
* `run_expire`: **an expiry frees what has expired**, and nothing else.
-/

namespace Ipfilter.Token

open List Option
open Function (update update_eq_self update_of_ne update_self)

/-! ## One dereference -/

section Deref

variable {s s' : Softc} {it j : ℕ}

/-- A token with another reference stays. -/
theorem ipfTokenDeref_of_more (hm : it ∈ s.live) (hr : 1 < (s.tok it).iptRef) : ipfTokenDeref s it =
      some { s with tok := update s.tok it (s.tok it).drop } := by
  have hp : (s.tok it).drop.iptRef > 0 := by unfold Ipftoken.drop; dsimp only; omega
  unfold ipfTokenDeref
  rw [if_pos hm]
  exact if_pos hp

/-- The last reference takes the token off the list. -/
theorem ipfTokenDeref_of_last (hm : it ∈ s.live) (hr : (s.tok it).iptRef ≤ 1) : ∃ d, ipfTokenDeref s it =
      some { s with
        live := s.live.erase it
        tok := update s.tok it (s.tok it).drop
        derefs := d } := by
  have hp : ¬ (s.tok it).drop.iptRef > 0 := by unfold Ipftoken.drop; dsimp only; omega
  unfold ipfTokenDeref
  rw [if_pos hm]
  simp only [if_neg hp]
  split
  · exact ⟨_, rfl⟩
  · exact ⟨_, rfl⟩

/-- Each dereference of the first token takes something off the weight of the list. -/
theorem weight_deref_lt {l : List ℕ} (hl : s.live = it :: l) (hd : ipfTokenDeref s it = some s') :
    s'.weight < s.weight := by
  have hm : it ∈ s.live := by rw [hl]; exact mem_cons_self
  have hle : ∀ j, (update s.tok it (s.tok it).drop j).iptRef.toNat + 1 ≤ (s.tok j).iptRef.toNat + 1 := by
    intro j
    by_cases hj : j = it
    · subst hj; rw [update_self]; unfold Ipftoken.drop; dsimp only; omega
    · rw [update_of_ne hj]
  have hsum := sum_le_sum (l := l) fun j _ => hle j
  by_cases hr : 1 < (s.tok it).iptRef
  · rw [ipfTokenDeref_of_more hm hr, some.injEq] at hd
    subst hd
    unfold Softc.weight
    simp only [hl, map_cons, sum_cons, update_self, Ipftoken.drop]
    simp only [Ipftoken.drop] at hsum
    omega
  · obtain ⟨d, hd'⟩ := ipfTokenDeref_of_last hm (by omega)
    rw [hd', some.injEq] at hd
    subst hd
    unfold Softc.weight
    simp only [hl, erase_cons_head, map_cons, sum_cons]
    omega

end Deref

/-! ## The expiry loop -/

/-- Tokens have left the list, or time has passed. -/
structure Thins (s s' : Softc) : Prop where
  live : s'.live <+ s.live
  die : ∀ it, (s'.tok it).iptDie = (s.tok it).iptDie
  ticks : s.ticks ≤ s'.ticks

theorem Thins.trans {s s' s'' : Softc} (h : Thins s s') (h' : Thins s' s'') : Thins s s'' :=
  ⟨h'.live.trans h.live, fun it => (h'.die it).trans (h.die it), h.ticks.trans h'.ticks⟩

theorem deref_thins {s s' : Softc} {it : ℕ} (hd : ipfTokenDeref s it = some s') :
    Thins s s' ∧ s'.ticks = s.ticks ∧ (s'.live = s.live ∨ s'.live = s.live.erase it) := by
  have hdie : ∀ j, (update s.tok it (s.tok it).drop j).iptDie = (s.tok j).iptDie := by
    intro j
    by_cases hj : j = it
    · subst hj
      rw [update_self, Ipftoken.drop]
    · rw [update_of_ne hj]
  by_cases hm : it ∈ s.live
  · by_cases hr : 1 < (s.tok it).iptRef
    · cases (ipfTokenDeref_of_more hm hr).symm.trans hd
      exact ⟨⟨.refl _, hdie, le_rfl⟩, rfl, .inl rfl⟩
    · obtain ⟨d, hd'⟩ := ipfTokenDeref_of_last hm (by omega)
      cases hd'.symm.trans hd
      exact ⟨⟨erase_sublist, hdie, le_rfl⟩, rfl, .inr rfl⟩
  · unfold ipfTokenDeref at hd
    rw [if_neg hm] at hd
    cases hd

/-- The tokens are listed in the order in which they expire. -/
structure Sorted (s : Softc) : Prop where
  nodup : s.live.Nodup
  order : s.live.Pairwise fun i j => (s.tok i).iptDie ≤ (s.tok j).iptDie
  bound : ∀ it ∈ s.live, (s.tok it).iptDie ≤ s.ticks + 20

theorem Sorted.thin {s s' : Softc} (h : Sorted s) (ht : Thins s s') : Sorted s' where
  nodup := ht.live.nodup h.nodup
  order := by simpa only [ht.die] using h.order.sublist ht.live
  bound it hm := by
    rw [ht.die]
    exact (h.bound it (ht.live.subset hm)).trans (Nat.add_le_add_right ht.ticks 20)

/-- A token that is found goes last. -/
theorem Sorted.keep {s : Softc} {it : ℕ} (h : Sorted s) (hn : it ∉ s.live) : Sorted (s.keep it) := by
  have hne : ∀ j ∈ s.live, j ≠ it := fun j hj hji => hn (hji ▸ hj)
  refine ⟨?_, ?_, fun j hj => ?_⟩
  · exact nodup_append.2 ⟨h.nodup, pairwise_singleton _ it, fun j hj k hk => mem_singleton.1 hk ▸ hne j hj⟩
  · refine pairwise_append.2 ⟨h.order.imp_of_mem fun hi hj hij => ?_, pairwise_singleton _ _, fun j hj k hk => ?_⟩
    · simpa only [Softc.keep, update_of_ne (hne _ hi), update_of_ne (hne _ hj)] using hij
    · obtain rfl := mem_singleton.1 hk
      simpa only [Softc.keep, update_of_ne (hne j hj), update_self] using h.bound j hj
  · rcases mem_append.1 hj with hj | hj
    · simpa only [Softc.keep, update_of_ne (hne j hj)] using h.bound j hj
    · obtain rfl := mem_singleton.1 hj
      simp [Softc.keep]

/-- **The expiry loop stops at the first token that has not expired,** behind which there is none that has. -/
theorem expireLoop_live : ∀ (n : ℕ) {s : Softc}, Sorted s → s.weight ≤ n → ∃ s', expireLoop n s = some s' ∧
    Thins s s' ∧
    s'.live = s.live.filter fun it => s.ticks < (s.tok it).iptDie
  | 0, s, _, hw => by
    cases hl : s.live with
    | nil => exact ⟨s, rfl, ⟨.refl _, fun _ => rfl, le_rfl⟩, hl⟩
    | cons it l => simp [Softc.weight, hl] at hw
  | n + 1, s, h, hw => by
    rw [expireLoop]
    cases hl : s.live with
    | nil => exact ⟨s, rfl, ⟨.refl _, fun _ => rfl, le_rfl⟩, hl⟩
    | cons it l =>
      dsimp only
      by_cases ht : s.ticks < (s.tok it).iptDie
      · refine ⟨s, if_pos ht, ⟨.refl _, fun _ => rfl, le_rfl⟩, ?_⟩
        have hle := (pairwise_cons.1 (hl ▸ h.order)).1
        rw [hl, eq_comm, filter_eq_self]
        intro j hj
        rcases mem_cons.1 hj with rfl | hj
        · simpa using ht
        · simpa using ht.trans_le (hle j hj)
      · rw [if_neg ht, filter_cons_of_neg (by simpa using ht)]
        have hm : it ∈ s.live := by rw [hl]; exact mem_cons_self
        obtain ⟨s₁, hd⟩ : ∃ s₁, ipfTokenDeref s it = some s₁ := by
          by_cases hr : 1 < (s.tok it).iptRef
          · exact ⟨_, ipfTokenDeref_of_more hm hr⟩
          · obtain ⟨d, hd⟩ := ipfTokenDeref_of_last hm (by omega)
            exact ⟨_, hd⟩
        obtain ⟨hthin, htick, hlive⟩ := deref_thins hd
        have hlt := weight_deref_lt hl hd
        obtain ⟨s', heq, hthin', hlive'⟩ := expireLoop_live n (h.thin hthin) (by omega)
        refine ⟨s', by rw [hd]; exact heq, hthin.trans hthin', hlive'.trans ?_⟩
        simp only [hthin.die, htick]
        -- a token that others hold is met again
        rcases hlive with hlive | hlive
        · rw [hlive, hl, filter_cons_of_neg (by simpa using ht)]
        · rw [hlive, hl, erase_cons_head]

/-! ## The invariant -/

/-- A listed token has a reference for each ioctl that holds it, and one for the list unless
that has been dropped; a held token is listed. -/
structure Inv (s : Sys) : Prop where
  nodup : s.sc.live.Nodup
  ref : ∀ it ∈ s.sc.live, (s.sc.tok it).iptRef = s.out it + if s.cut it then 0 else 1
  cut : ∀ it ∈ s.sc.live, s.cut it = true → 0 < s.out it
  held : ∀ it, 0 < s.out it → it ∈ s.sc.live

variable {s s' : Sys} {it : ℕ} {sc : Softc} {type uid : ℤ}

theorem Inv.init (ticks : ℕ) (tok : ℕ → Ipftoken) : Inv (Sys.init ticks tok) :=
  ⟨nodup_nil, fun _ h => by simp [Sys.init] at h, fun _ h => by simp [Sys.init] at h,
    fun _ h => by simp [Sys.init] at h⟩

theorem Inv.safe (hi : Inv s) : Safe s := by
  intro it ho
  have hm := hi.held it ho
  have hr := hi.ref it hm
  refine ⟨hm, ?_⟩
  split at hr <;> omega

/-- Changes that leave the counts and the list alone keep the invariant. -/
theorem Inv.congr (hi : Inv s) (hl : sc.live = s.sc.live)
    (ht : ∀ it, (sc.tok it).iptRef = (s.sc.tok it).iptRef) : Inv { s with sc := sc } := by
  refine ⟨?_, ?_, ?_, ?_⟩
  · simpa only [hl] using hi.nodup
  · intro it hm
    rw [ht it]
    exact hi.ref it (hl ▸ hm)
  · intro it hm
    exact hi.cut it (hl ▸ hm)
  · intro it ho
    show it ∈ sc.live
    rw [hl]
    exact hi.held it ho

/-- The general shape of a dereference: one reference less in the token and in the books
that account for it. -/
theorem Inv.deref (hi : Inv s) (hm : it ∈ s.sc.live) {o : ℕ} {c : Bool}
    (hr : (s.sc.tok it).iptRef - 1 = o + if c then 0 else 1) :
    ∃ sc, ipfTokenDeref s.sc it = some sc ∧ Inv ⟨sc, update s.out it o, update s.cut it c⟩ ∧
      ∀ j, j ≠ it → (j ∈ sc.live ↔ j ∈ s.sc.live) := by
  by_cases h1 : 1 < (s.sc.tok it).iptRef
  · refine ⟨_, ipfTokenDeref_of_more hm h1, ⟨hi.nodup, ?_, ?_, ?_⟩, fun j _ => Iff.rfl⟩
    · intro j hj
      by_cases hji : j = it
      · subst hji
        simpa only [update_self, Ipftoken.drop] using hr
      · simpa only [update_of_ne hji] using hi.ref j hj
    · intro j hj
      by_cases hji : j = it
      · subst hji
        simp only [update_self]
        intro hc
        rw [if_pos hc] at hr
        omega
      · simpa only [update_of_ne hji] using hi.cut j hj
    · intro j hj
      by_cases hji : j = it
      · exact hji ▸ hm
      · exact hi.held j (by simpa only [update_of_ne hji] using hj)
  · -- the token goes, so nothing may hold it any more
    obtain ⟨d, hd⟩ := ipfTokenDeref_of_last hm (by omega)
    have hne : ∀ j, j ∈ s.sc.live.erase it → j ≠ it := fun j hj => (hi.nodup.mem_erase_iff.mp hj).1
    refine ⟨_, hd, ⟨hi.nodup.erase it, ?_, ?_, ?_⟩, ?_⟩
    · intro j hj
      simpa only [update_of_ne (hne j hj)] using hi.ref j (mem_of_mem_erase hj)
    · intro j hj
      simpa only [update_of_ne (hne j hj)] using hi.cut j (mem_of_mem_erase hj)
    · intro j hj
      have hji : j ≠ it := by
        rintro rfl
        simp only [update_self] at hj
        split at hr <;> omega
      exact (mem_erase_of_ne hji).mpr (hi.held j (by simpa only [update_of_ne hji] using hj))
    · intro j hji
      exact mem_erase_of_ne hji

/-- The list's own reference is dropped. -/
theorem Inv.derefCut (hi : Inv s) (hm : it ∈ s.sc.live) (hc : s.cut it = false) :
    ∃ sc, ipfTokenDeref s.sc it = some sc ∧ Inv ⟨sc, s.out, update s.cut it true⟩ ∧
      ∀ j, j ≠ it → (j ∈ sc.live ↔ j ∈ s.sc.live) := by
  have hr := hi.ref it hm
  rw [hc] at hr
  have := hi.deref (o := s.out it) (c := true) hm (by simp only [if_true]; simp at hr; omega)
  rwa [update_eq_self] at this

/-! ## One call -/

/-- A token that a key names is listed. -/
theorem lookup_mem {p : Ipftoken → Bool} {ptr : ℕ} (h : sc.lookup p type uid ptr = some it) : it ∈ sc.live :=
  mem_of_find?_eq_some h

/-- `ipf_token_find` gives an address that was free or a listed token, last on the list and
with one reference more than it had or, if new, with two. -/
theorem ipfTokenFind_cases (sc : Softc) (new : Option ℕ) (type uid : ℤ) (ptr : ℕ) :
    ipfTokenFind sc new type uid ptr = (sc, none) ∨
    (∃ it ∈ sc.live, ipfTokenFind sc new type uid ptr = ((sc.free it).keep it, some it)) ∨
    ∃ it t, it ∈ new ∧ t.iptRef = 1 ∧ ipfTokenFind sc new type uid ptr =
      (({ sc with tok := update sc.tok it t } : Softc).keep it, some it) := by
  unfold ipfTokenFind
  cases hf : sc.lookup (fun t => t.iptComplete < 2) type uid ptr with
  | none =>
    cases new with
    | none => exact .inl rfl
    | some it => exact .inr (.inr ⟨it, _, rfl, rfl, rfl⟩)
  | some it =>
    by_cases hc : (sc.tok it).iptComplete > 0
    · exact .inl (by simp only [if_pos hc])
    · exact .inr (.inl ⟨it, lookup_mem hf, by simp only [if_neg hc]⟩)

/-- Both kinds of found token: the books of the others stay, and this one is held once more. -/
theorem Inv.keep (hi : Inv s) (sc : Softc) {o : ℕ} {c : ℕ → Bool}
    (hn : it ∉ sc.live) (hnd : sc.live.Nodup) (hl : ∀ j, j ≠ it → (j ∈ sc.live ↔ j ∈ s.sc.live))
    (ht : ∀ j, j ≠ it → sc.tok j = s.sc.tok j) (hc : ∀ j, j ≠ it → c j = s.cut j)
    (hr : (sc.tok it).iptRef = o + if c it then 0 else 1) : Inv ⟨sc.keep it, update s.out it (o + 1), c⟩ := by
  have hmem : ∀ j, j ∈ (sc.keep it).live → j ≠ it → j ∈ s.sc.live := by
    intro j hj hji
    rcases mem_append.mp hj with h | h
    · exact (hl j hji).mp h
    · exact absurd (mem_singleton.mp h) hji
  refine ⟨?_, ?_, ?_, ?_⟩
  · show (sc.live ++ [it]).Nodup
    rw [nodup_append]
    refine ⟨hnd, pairwise_singleton _ it, fun a ha b hb => ?_⟩
    rintro rfl
    exact hn (mem_singleton.mp hb ▸ ha)
  · intro j hj
    by_cases hji : j = it
    · subst hji
      simp only [Softc.keep, update_self]
      push_cast
      omega
    · simp only [Softc.keep, update_of_ne hji, ht j hji, hc j hji]
      exact hi.ref j (hmem j hj hji)
  · intro j hj hcj
    by_cases hji : j = it
    · subst hji
      simp only [update_self]
      omega
    · simp only [update_of_ne hji]
      exact hi.cut j (hmem j hj hji) (by rw [← hc j hji]; exact hcj)
  · intro j hj
    by_cases hji : j = it
    · subst hji
      exact mem_append_right _ (mem_singleton_self j)
    · simp only [update_of_ne hji] at hj
      exact mem_append_left _ ((hl j hji).mpr (hi.held j hj))

/-- A find keeps the invariant. -/
theorem Inv.find (hi : Inv s) {new : Option ℕ} {ptr : ℕ} (hok : Legal s (.find new type uid ptr)) :
    ∃ s', step s (.find new type uid ptr) = some s' ∧ Inv s' := by
  rcases ipfTokenFind_cases s.sc new type uid ptr with h | ⟨it, hm, h⟩ | ⟨it, t, hn, ht, h⟩
  · refine ⟨s, ?_, hi⟩
    simp only [step, h]
  · refine ⟨_, by simp only [step, h]; rfl, ?_⟩
    rw [if_pos hm]
    refine hi.keep (s.sc.free it) ?_ (hi.nodup.erase it) ?_ (fun _ _ => rfl) (fun _ _ => rfl) ?_
    · exact fun hin => (hi.nodup.mem_erase_iff.mp hin).1 rfl
    · exact fun j hji => mem_erase_of_ne hji
    · exact hi.ref it hm
  · obtain ⟨hfree, hout⟩ := hok it hn
    refine ⟨_, by simp only [step, h]; rfl, ?_⟩
    rw [if_neg hfree]
    refine hi.keep { s.sc with tok := update s.sc.tok it t } hfree hi.nodup (fun _ _ => Iff.rfl) ?_ ?_ ?_
    · exact fun j hji => update_of_ne hji _ _
    · exact fun j hji => update_of_ne hji _ _
    · simp [ht, hout]

/-- The ioctl that found the token gives it back. -/
theorem Inv.done (hi : Inv s) (ho : 0 < s.out it) : ∃ s', step s (.done it) = some s' ∧ Inv s' := by
  have hm := hi.held it ho
  have hr := hi.ref it hm
  obtain ⟨sc, hd, hi', -⟩ := hi.deref (o := s.out it - 1) (c := s.cut it) hm (by omega)
  rw [update_eq_self] at hi'
  exact ⟨_, by simp only [step, hd, map_some], hi'⟩

/-- A first delete drops the list's reference. -/
theorem Inv.del (hi : Inv s) {ptr : ℕ} (hok : Once s (.del type uid ptr)) :
    ∃ s', step s (.del type uid ptr) = some s' ∧ Inv s' := by
  cases hf : s.sc.lookup (fun _ => true) type uid ptr with
  | none => exact ⟨s, by simp only [step, ipfTokenDel, hf, map_some], hi⟩
  | some it =>
    have hi₁ : Inv { s with sc := { s.sc with tok := update s.sc.tok it { s.sc.tok it with iptComplete := 2 } } } := by
      refine hi.congr rfl fun j => ?_
      by_cases hj : j = it
      · subst hj; simp only [update_self]
      · simp only [update_of_ne hj]
    have hm : it ∈ s.sc.live := lookup_mem hf
    obtain ⟨sc, hd, hi₂, -⟩ := hi₁.derefCut hm (hok it hf)
    refine ⟨_, ?_, hi₂⟩
    simp only [step, ipfTokenDel, hf]
    rw [hd]
    rfl

/-- A flush over tokens none of which was cut before. -/
theorem Inv.flushLoop : ∀ (l : List ℕ) {s : Sys}, Inv s → l.Nodup → (∀ it ∈ l, it ∈ s.sc.live) →
    (∀ it ∈ l, s.cut it = false) →
    ∃ sc, l.foldlM ipfTokenDeref s.sc = some sc ∧ Inv ⟨sc, s.out, fun it => it ∈ l || s.cut it⟩
  | [], s, hi, _, _, _ => ⟨s.sc, rfl, by simpa using hi⟩
  | it :: l, s, hi, hnd, hl, hc => by
    obtain ⟨hnl, hnd'⟩ := nodup_cons.mp hnd
    have hne : ∀ j ∈ l, j ≠ it := fun j hj hji => hnl (hji ▸ hj)
    obtain ⟨sc, hd, hi₁, hlive⟩ := hi.derefCut (hl it mem_cons_self) (hc it mem_cons_self)
    obtain ⟨sc', hd', hi₂⟩ := Inv.flushLoop l hi₁ hnd'
      (fun j hj => (hlive j (hne j hj)).mpr (hl j (mem_cons_of_mem _ hj)))
      (fun j hj => by
        show update s.cut it true j = false
        rw [update_of_ne (hne j hj)]
        exact hc j (mem_cons_of_mem _ hj))
    refine ⟨sc', ?_, ?_⟩
    · rw [foldlM_cons, hd]
      exact hd'
    · -- the two ways to write the tokens that have been cut so far
      have hcut : (fun j => decide (j ∈ l) || update s.cut it true j) =
          fun j => decide (j ∈ it :: l) || s.cut j := by
        funext j
        by_cases hj : j = it
        · subst hj; simp
        · simp [hj]
      rwa [hcut] at hi₂

/-- What the books say about a token that is not listed does not matter. -/
theorem Inv.recut {o : ℕ → ℕ} {c c' : ℕ → Bool} (hi : Inv ⟨sc, o, c⟩)
    (h : ∀ j ∈ sc.live, c j = c' j) : Inv ⟨sc, o, c'⟩ :=
  ⟨hi.nodup, fun j hj => by simpa only [h j hj] using hi.ref j hj,
    fun j hj => by simpa only [h j hj] using hi.cut j hj, hi.held⟩

theorem takeWhile_congr {α : Type} {p q : α → Bool} : ∀ {l : List α}, (∀ a ∈ l, p a = q a) →
    l.takeWhile p = l.takeWhile q
  | [], _ => rfl
  | a :: l, h => by
    rw [takeWhile_cons, takeWhile_cons, h a mem_cons_self,
      takeWhile_congr fun b hb => h b (mem_cons_of_mem _ hb)]

/-- An idle token has the list's reference and no other. -/
theorem Inv.ref_idle (hi : Inv s) (hm : it ∈ s.sc.live) (ho : s.out it = 0) :
    s.cut it = false ∧ (s.sc.tok it).iptRef = 1 := by
  have hc : s.cut it = false := by
    by_contra hc
    have := hi.cut it hm (by simpa using hc)
    omega
  have hr := hi.ref it hm
  rw [ho, hc] at hr
  exact ⟨hc, by simpa using hr⟩

/-- The first token, expired and idle, is freed; the rest of the list stays as it was. -/
theorem Inv.expireHead (hi : Inv s) {l : List ℕ} (hl : s.sc.live = it :: l) (ho : s.out it = 0) :
    ∃ sc, ipfTokenDeref s.sc it = some sc ∧ Inv { s with sc := sc } ∧ sc.live = l ∧
      sc.ticks = s.sc.ticks ∧ ∀ j ∈ l, sc.tok j = s.sc.tok j := by
  have hm : it ∈ s.sc.live := by rw [hl]; exact mem_cons_self
  have hnl : it ∉ l := (nodup_cons.mp (hl ▸ hi.nodup)).1
  obtain ⟨hc, hr⟩ := hi.ref_idle hm ho
  obtain ⟨d, hd⟩ := ipfTokenDeref_of_last hm (le_of_eq hr)
  obtain ⟨sc, hd', hi', -⟩ := hi.derefCut hm hc
  have hlive : sc.live = l := by
    rw [hd, some.injEq] at hd'
    rw [← hd']
    simp only [hl, erase_cons_head]
  refine ⟨sc, hd', hi'.recut fun j hj => ?_, hlive, ?_, ?_⟩
  · have hj' : j ∈ l := hlive ▸ hj
    exact update_of_ne (fun h : j = it => hnl (h ▸ hj')) _ _
  · rw [hd, some.injEq] at hd'
    rw [← hd']
  · intro j hj
    rw [hd, some.injEq] at hd'
    rw [← hd']
    exact update_of_ne (fun h : j = it => hnl (h ▸ hj)) _ _

/-- An expiry pass over idle tokens frees each of them, with its one reference. -/
theorem Inv.expireLoop : ∀ (n : ℕ) {s : Sys}, Inv s → (∀ it ∈ s.sc.expired, s.out it = 0) →
    ∃ sc, expireLoop n s.sc = some sc ∧ Inv { s with sc := sc } ∧ sc.live ⊆ s.sc.live ∧
      ∀ it ∈ s.sc.live, (it ∈ sc.live → sc.tok it = s.sc.tok it) ∧
        (it ∉ sc.live → (s.sc.tok it).iptRef = 1)
  | 0, s, hi, _ => ⟨s.sc, rfl, hi, Subset.refl _, fun it hm => ⟨fun _ => rfl, fun h => absurd hm h⟩⟩
  | n + 1, s, hi, hx => by
    cases hl : s.sc.live with
    | nil => exact ⟨s.sc, by simp only [Token.expireLoop, hl], hi, by rw [hl]; exact Subset.refl _,
        fun it hm => absurd hm not_mem_nil⟩
    | cons it l =>
      by_cases ht : s.sc.ticks < (s.sc.tok it).iptDie
      · exact ⟨s.sc, by simp only [Token.expireLoop, hl, if_pos ht], hi, by rw [hl]; exact Subset.refl _,
          fun j hm => ⟨fun _ => rfl, fun h => absurd (hl ▸ hm) h⟩⟩
      have hex : s.sc.expired = it :: l.takeWhile fun j => (s.sc.tok j).iptDie ≤ s.sc.ticks := by
        unfold Softc.expired
        rw [hl, takeWhile_cons_of_pos (by simpa using ht)]
      have ho : s.out it = 0 := hx it (by rw [hex]; exact mem_cons_self)
      obtain ⟨sc₁, hd, hi₁, hl₁, htick, htok⟩ := hi.expireHead hl ho
      have hsame : sc₁.expired = l.takeWhile fun j => (s.sc.tok j).iptDie ≤ s.sc.ticks := by
        unfold Softc.expired
        rw [hl₁, htick]
        exact takeWhile_congr fun j hj => by rw [htok j hj]
      obtain ⟨sc, he, hi', hsub, hlast⟩ := Inv.expireLoop n hi₁ fun j hj => hx j (by
        rw [hex]
        exact mem_cons_of_mem _ (hsame ▸ hj))
      have hsub' : sc.live ⊆ l := by simpa only [hl₁] using hsub
      refine ⟨sc, ?_, hi', subset_cons_of_subset it hsub', ?_⟩
      · simp only [Token.expireLoop, hl, if_neg ht, hd]
        exact he
      · intro j hj
        rcases mem_cons.mp hj with rfl | hj'
        · refine ⟨fun hin => ?_, fun _ => (hi.ref_idle (by rw [hl]; exact mem_cons_self) ho).2⟩
          exact absurd (hsub' hin) (nodup_cons.mp (hl ▸ hi.nodup)).1
        · have := hlast j (by simpa only [hl₁] using hj')
          simpa only [htok j hj'] using this

/-- **One call keeps the books**, when the list gives its reference up once. -/
theorem Inv.step (hi : Inv s) (op : Op) (hl : Legal s op) (hok : Once s op) : ∃ s', step s op = some s' ∧ Inv s' := by
  cases op with
  | find new type uid ptr => exact hi.find hl
  | done it => exact hi.done hl
  | use it data =>
    refine ⟨_, rfl, hi.congr rfl fun j => ?_⟩
    by_cases hj : j = it
    · subst hj; simp only [Softc.setData, update_self]
    · simp only [Softc.setData, update_of_ne hj]
  | mark it =>
    refine ⟨_, rfl, ?_⟩
    unfold ipfTokenMarkComplete
    split
    · refine hi.congr rfl fun j => ?_
      by_cases hj : j = it
      · subst hj; simp only [update_self]
      · simp only [update_of_ne hj]
    · exact hi
  | del type uid ptr => exact hi.del hok
  | expire =>
    obtain ⟨sc, he, hi', -⟩ := Inv.expireLoop s.sc.weight hi hok
    refine ⟨_, ?_, hi'⟩
    simp only [Token.step, ipfTokenExpire, he, map_some]
  | flush =>
    obtain ⟨sc, hf, hi'⟩ := Inv.flushLoop s.sc.live hi hi.nodup (fun _ h => h) hok
    refine ⟨_, ?_, hi'⟩
    simp only [Token.step, ipfTokenFlush, hf, map_some]
  | tick ticks => exact ⟨_, rfl, hi.congr rfl fun _ => rfl⟩

/-- An expiry pass takes at most one reference from a token. -/
theorem Inv.dropped_le_one (hi : Inv s) (hok : Once s .expire)
    (h : ipfTokenExpire s.sc = some sc) (hm : it ∈ s.sc.live) : dropped s.sc sc it ≤ 1 := by
  obtain ⟨sc', he, -, -, hlast⟩ := Inv.expireLoop s.sc.weight hi hok
  have : sc' = sc := mem_unique he h
  subst this
  unfold dropped
  by_cases hin : it ∈ sc'.live
  · rw [if_pos hin, (hlast it hm).1 hin]
    omega
  · rw [if_neg hin, (hlast it hm).2 hin]

/-! ## Interleavings -/

theorem Run.inv {ticks : ℕ} {tok : ℕ → Ipftoken} (h : Run Once (Sys.init ticks tok) s) : Inv s := by
  induction h with
  | init => exact Inv.init ticks tok
  | step op _ hl hok hs ih =>
    obtain ⟨s₁, hs₁, hi⟩ := ih.step op hl hok
    rw [hs, some.injEq] at hs₁
    exact hs₁ ▸ hi

/-- **Held tokens stay.** In every interleaving in which a delete and a flush only meet tokens
that no delete or flush has met before, and an expiry only tokens that no ioctl holds, a
held token is listed with a reference for each find that is out, the next such call does
not touch freed memory, and an expiry pass takes at most one reference from each token. -/
theorem run_safe {ticks : ℕ} {tok : ℕ → Ipftoken} (h : Run Once (Sys.init ticks tok) s) :
    Safe s ∧ (∀ op, Legal s op → Once s op → step s op ≠ none) ∧
      ∀ sc, Once s .expire → ipfTokenExpire s.sc = some sc → ∀ it ∈ s.sc.live, dropped s.sc sc it ≤ 1 := by
  have hi := h.inv
  refine ⟨hi.safe, ?_, ?_⟩
  · intro op hl hok hn
    obtain ⟨s', hs', -⟩ := hi.step op hl hok
    rw [hn] at hs'
    exact absurd hs' (by simp)
  · intro sc hok he it hm
    exact hi.dropped_le_one hok he hm

/-- Before the first ioctl, with memory that was never written. -/
def boot : Sys := Sys.init 0 fun _ => ⟨0, 0, 0, 0, 0, 0, 0⟩

/-- An ioctl has found a token, at address 7, and not given it back; the clock is at `ticks`. -/
def walking (ticks : ℕ) : Sys :=
  { sc := { (ipfTokenFind boot.sc (some 7) 0 0 1).1 with ticks := ticks }
    out := update boot.out 7 1
    cut := update boot.cut 7 false }

theorem run_walking {ok : Sys → Op → Prop} (hf : ok boot (.find (some 7) 0 0 1)) (ht : ok (walking 0) (.tick 20)) :
    Run ok boot (walking 20) := by
  have hfound : Run ok boot (walking 0) :=
    Run.step (.find (some 7) 0 0 1) Run.init (fun it _ => ⟨not_mem_nil, rfl⟩) hf rfl
  exact Run.step (.tick 20) hfound trivial ht rfl

/-- Three tokens are found. The first one is given back and deleted, the second one is given back and expires, and the
list is flushed: the third one, which is still held, is safe. -/
theorem run_safe_round : ∃ s, s.sc.live = [9] ∧ 0 < s.out 9 ∧ Safe s := by
  have h₁ : Run Once boot _ := .step (.find (some 7) 0 0 1) .init (fun it _ => ⟨not_mem_nil, rfl⟩) trivial rfl
  have h₂ : Run Once boot _ :=
    .step (.find (some 8) 0 0 2) h₁ (fun it hit => by cases hit; exact ⟨by decide, rfl⟩) trivial rfl
  have h₃ : Run Once boot _ := .step (.done 7) h₂ Nat.one_pos trivial rfl
  have h₄ : Run Once boot _ := .step (.del 0 0 1) h₃ trivial (fun it hit => by cases hit; rfl) rfl
  have h₅ : Run Once boot _ := .step (.tick 10) h₄ trivial trivial rfl
  have h₆ : Run Once boot _ :=
    .step (.find (some 9) 0 0 3) h₅ (fun it hit => by cases hit; exact ⟨by decide, rfl⟩) trivial rfl
  have h₇ : Run Once boot _ := .step (.done 8) h₆ Nat.one_pos trivial rfl
  have h₈ : Run Once boot _ := .step (.tick 20) h₇ trivial trivial rfl
  -- 8 was found at 0 and is not held any more, 9 was found at 10
  have h₉ : Run Once boot _ := .step .expire h₈ trivial (fun it hit => by rw [mem_singleton.1 hit]; rfl) rfl
  have h : Run Once boot _ := .step .flush h₉ trivial (fun it hit => by rw [mem_singleton.1 hit]; rfl) rfl
  exact ⟨_, rfl, Nat.one_pos, (run_safe h).1⟩

/-- The state after an expiry pass 20 ticks later. -/
def walkingExpired : Sys :=
  { walking 20 with sc := { (walking 20).sc with
      live := []
      tok := update (update (walking 20).sc.tok 7 ((walking 20).sc.tok 7).drop) 7
        ((walking 20).sc.tok 7).drop.drop } }

/-- **An expiry pass frees a token in use.** The token found at tick 0 has two references;
the pass at tick 20 sees it first on the list twice, drops both and frees it while the
ioctl holds it. -/
theorem run_not_safe_expire :
    Run (fun _ _ => True) boot (walking 20) ∧ ipfTokenExpire (walking 20).sc = some walkingExpired.sc ∧
      dropped (walking 20).sc walkingExpired.sc 7 = 2 ∧
      Run (fun _ _ => True) boot walkingExpired ∧ ¬ Safe walkingExpired := by
  have hr : Run (fun _ _ => True) boot (walking 20) := run_walking trivial trivial
  have he : ipfTokenExpire (walking 20).sc = some walkingExpired.sc := rfl
  refine ⟨hr, he, by decide, Run.step .expire hr trivial trivial (by simp only [step, he]; rfl), ?_⟩
  intro hs
  exact absurd (hs 7 (by decide)).1 (by decide)

/-! ## What an expiry leaves -/

/-- The clock is not set back. -/
def Forward (s : Sys) : Op → Prop
  | .tick ticks => s.sc.ticks ≤ ticks
  | _ => True

theorem flush_thins : ∀ {l : List ℕ} {s s' : Softc}, l.foldlM ipfTokenDeref s = some s' → Thins s s'
  | [], s, s', h => by
    cases h
    exact ⟨.refl _, fun _ => rfl, le_rfl⟩
  | it :: l, s, s', h => by
    rw [foldlM_cons] at h
    obtain ⟨s₁, hd, hrest⟩ := bind_eq_some_iff.1 h
    exact (deref_thins hd).1.trans (flush_thins hrest)

/-- A token changes, but not its time. -/
theorem update_thins {s : Softc} {it : ℕ} {t : Ipftoken} (ht : t.iptDie = (s.tok it).iptDie) :
    Thins s { s with tok := update s.tok it t } := by
  refine ⟨.refl _, fun j => ?_, le_rfl⟩
  by_cases hj : j = it
  · subst hj
    simpa only [update_self] using ht
  · simp only [update_of_ne hj]

/-- **One call keeps the order.** -/
theorem Sorted.step {op : Op} (h : Sorted s.sc) (hl : Legal s op) (hf : Forward s op) (hs : step s op = some s') :
    Sorted s'.sc := by
  cases op with
  | find new type uid ptr =>
    rcases ipfTokenFind_cases s.sc new type uid ptr with heq | ⟨it, -, heq⟩ | ⟨it, t, hnew, -, heq⟩
    · simp only [Token.step, heq, some.injEq] at hs
      subst hs
      exact h
    · simp only [Token.step, heq, some.injEq] at hs
      subst hs
      have hfree : Sorted (s.sc.free it) := h.thin ⟨erase_sublist, fun _ => rfl, le_rfl⟩
      exact hfree.keep h.nodup.not_mem_erase
    · simp only [Token.step, heq, some.injEq] at hs
      subst hs
      have hfree := (hl it hnew).1
      have hne : ∀ j ∈ s.sc.live, j ≠ it := fun j hj hji => hfree (hji ▸ hj)
      refine Sorted.keep ⟨h.nodup, h.order.imp_of_mem fun hi hj hij => ?_, fun j hj => ?_⟩ hfree
      · simpa only [update_of_ne (hne _ hi), update_of_ne (hne _ hj)] using hij
      · simpa only [update_of_ne (hne j hj)] using h.bound j hj
  | done it =>
    obtain ⟨sc, hd, rfl⟩ := map_eq_some_iff.1 hs
    exact h.thin (deref_thins hd).1
  | use it data =>
    cases hs
    exact h.thin (update_thins rfl)
  | mark it =>
    cases hs
    dsimp only
    unfold ipfTokenMarkComplete
    split
    · exact h.thin (update_thins rfl)
    · exact h
  | del type uid ptr =>
    obtain ⟨⟨sc, r⟩, hd, rfl⟩ := map_eq_some_iff.1 hs
    unfold ipfTokenDel at hd
    split at hd
    · cases hd
      exact h
    · obtain ⟨sc', hd', hr⟩ := bind_eq_some_iff.1 hd
      cases hr
      exact Sorted.thin (h.thin (update_thins (by rfl))) (deref_thins hd').1
  | expire =>
    obtain ⟨sc, he, rfl⟩ := map_eq_some_iff.1 hs
    obtain ⟨sc', he', hthin, -⟩ := expireLoop_live _ h le_rfl
    cases he'.symm.trans he
    exact h.thin hthin
  | flush =>
    obtain ⟨sc, he, rfl⟩ := map_eq_some_iff.1 hs
    exact h.thin (flush_thins he)
  | tick ticks =>
    cases hs
    exact h.thin ⟨.refl _, fun _ => rfl, hf⟩

/-- **An expiry frees all tokens that have expired, and no other,** in every interleaving in which the clock is not set back. -/
theorem run_expire {ticks : ℕ} {tok : ℕ → Ipftoken} (h : Run Forward (Sys.init ticks tok) s) :
    ∃ sc, ipfTokenExpire s.sc = some sc ∧ sc.live = s.sc.live.filter fun it => s.sc.ticks < (s.sc.tok it).iptDie := by
  have hs : Sorted s.sc := by
    induction h with
    | init => exact ⟨nodup_nil, .nil, fun _ hm => absurd hm not_mem_nil⟩
    | step op _ hl hf hs ih => exact ih.step hl hf hs
  obtain ⟨sc, heq, -, hlive⟩ := expireLoop_live _ hs le_rfl
  exact ⟨sc, heq, hlive⟩

/-- Of two tokens, found at 0 and at 10, the second one is left after 20 ticks. -/
theorem run_expire_twenty : ∃ (s : Sys) (sc : Softc), s.sc.live = [1, 2] ∧ ipfTokenExpire s.sc = some sc ∧
    sc.live = [2] := by
  have h₁ : Run Forward boot _ := .step (.find (some 1) 0 0 1) .init (fun it _ => ⟨not_mem_nil, rfl⟩) trivial rfl
  have h₂ : Run Forward boot _ := .step (.tick 10) h₁ trivial (Nat.zero_le _) rfl
  have h₃ : Run Forward boot _ :=
    .step (.find (some 2) 0 0 2) h₂ (fun it hit => by cases hit; exact ⟨by decide, rfl⟩) trivial rfl
  have h : Run Forward boot _ := .step (.tick 20) h₃ trivial (show 10 ≤ 20 by decide) rfl
  obtain ⟨sc, heq, hlive⟩ := run_expire h
  exact ⟨_, sc, rfl, heq, hlive⟩

end Ipfilter.Token
