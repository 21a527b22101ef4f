import Ipfilter.Proof.AuthQueue

/-!
# The slots that were never used

`ipf_auth_soft_init` leaves `fra_index` at 0 in all slots, which is not the index of a free one. Such a slot has no packet and
no age, and lies outside of the ring until a packet is put into it, so that no call takes notice of it but a reply.

`Unused s a` says that `s` would have the slots `a` if those that were never used were free. One lemma for each call says that
the call leaves it so, and does the same to both.
-/

namespace Ipfilter.Auth

open Cyclic List
open Function (update update_of_ne update_self update_eq_self update_idem)

variable {C : Type} {s s' : Softa C} {a : ℕ → Frauth C} {i : ℕ}

/-- The ring with other slots. -/
def Softa.withSlots (s : Softa C) (a : ℕ → Frauth C) : Softa C := { s with auth := a }

/-- A slot that was never used. -/
structure Softa.NeverUsed (s : Softa C) (i : ℕ) : Prop where
  outside : i ∉ arc s.size s.start s.stop
  age : (s.auth i).age ≤ 0
  pkts : s.pkts i = none

/-- **The slots with those free that were never used.** -/
def Unused (s : Softa C) (a : ℕ → Frauth C) : Prop :=
  ∀ i, a i = s.auth i ∨ s.NeverUsed i ∧ a i = { s.auth i with index := -1 }

theorem Unused.eq_of_mem (h : Unused s a) (hi : i ∈ arc s.size s.start s.stop) : a i = s.auth i :=
  (h i).resolve_right fun hu => hu.1.outside hi

/-- One slot changes in both, and the ring becomes no longer. -/
theorem Unused.set (h : Unused s a) {x : Frauth C} (hauth : s'.auth = update s.auth i x)
    (hpkts : ∀ j, j ≠ i → s'.pkts j = s.pkts j)
    (harc : ∀ j, j ≠ i → j ∈ arc s'.size s'.start s'.stop → j ∈ arc s.size s.start s.stop) :
      Unused s' (update a i x) := by
  intro j
  by_cases hji : j = i
  · subst hji
    left
    rw [hauth, update_self, update_self]
  · rw [hauth, update_of_ne hji, update_of_ne hji]
    refine (h j).imp id fun hu => ⟨⟨fun hj => hu.1.outside (harc j hji hj), ?_, ?_⟩, hu.2⟩
    · rw [hauth, update_of_ne hji]
      exact hu.1.age
    · rw [hpkts j hji]
      exact hu.1.pkts

/-- The ring becomes no longer. -/
theorem Unused.bounds (h : Unused s a) (hauth : s'.auth = s.auth) (hpkts : s'.pkts = s.pkts)
    (harc : ∀ j ∈ arc s'.size s'.start s'.stop, j ∈ arc s.size s.start s.stop) : Unused s' a := by
  intro j
  rw [hauth]
  exact (h j).imp id fun hu =>
    ⟨⟨fun hj => hu.1.outside (harc j hj), by rw [hauth]; exact hu.1.age, by rw [hpkts]; exact hu.1.pkts⟩,
    hu.2⟩

/-! ## The calls -/

section

variable {m : ℕ} {fin : FrInfo C}

theorem Unused.put (h : Unused s a) (hstart : s.start < s.size) (hstop : s.stop < s.size) (m : ℕ) (fin : FrInfo C) :
    ∃ a', Unused (ipfAuthNew s m fin).1 a' ∧
      ipfAuthNew (s.withSlots a) m fin = ((ipfAuthNew s m fin).1.withSlots a', (ipfAuthNew s m fin).2) := by
  unfold ipfAuthNew Softa.withSlots
  dsimp only
  by_cases hlock : s.lock = true
  · rw [if_pos hlock, if_pos hlock]
    exact ⟨a, h, rfl⟩
  rw [if_neg hlock, if_neg hlock]
  by_cases hfull : (s.stop + 1) % s.size = s.start
  · rw [if_pos hfull, if_pos hfull]
    exact ⟨a, h, rfl⟩
  rw [if_neg hfull, if_neg hfull]
  rw [mod_inc hstop] at hfull
  refine ⟨_, h.set (i := s.stop) rfl (fun j hj => ?_) (fun j hj hmem => ?_), rfl⟩
  · simp [Softa.setPkt, Softa.setAuth, hj]
  · have hmem' : j ∈ arc s.size s.start (inc s.size s.stop) := hmem
    rw [arc_concat hstart hstop hfull, mem_append, mem_singleton] at hmem'
    exact hmem'.resolve_right hj

/-- The start moves on in both. -/
theorem Unused.advance (h : Unused s a) (hstart : s.start < s.size) (hstop : s.stop < s.size) {p q : ℕ → Bool}
    (hi : i ∈ arc s.size s.start s.stop) (hpq : ∀ j ∈ arc s.size s.start s.stop, q j = p j) : Unused (s.advance p i) a ∧
      (s.withSlots a).advance q i = (s.advance p i).withSlots a := by
  unfold Softa.advance Softa.withSlots
  dsimp only
  by_cases his : i = s.start
  swap
  · rw [if_neg his, if_neg his]
    exact ⟨h, rfl⟩
  rw [if_pos his, if_pos his, his]
  have hne : s.start ≠ s.stop := fun heq => by
    rw [heq, arc_self] at hi
    cases hi
  rw [skip_congr hstop s.size hstart hne hpq]
  obtain ⟨hend, -⟩ := skip_spec (p := p) hstop s.size hstart hne (le_of_lt (gap_le hstart hstop))
  by_cases hst : skip s.size s.stop p s.size s.start = s.stop
  · rw [if_pos hst, if_pos hst]
    refine ⟨h.bounds rfl rfl fun j hj => ?_, rfl⟩
    rw [arc_self] at hj
    cases hj
  · rw [if_neg hst, if_neg hst]
    exact ⟨h.bounds rfl rfl fun j hj => mem_of_mem_arc hstart hstop (.inl (hend.resolve_left hst).1) hj, rfl⟩

end

theorem Unused.expireSlot (h : Unused s a) (i : ℕ) : ∃ a', Unused (expireSlot s i) a' ∧
    Auth.expireSlot (s.withSlots a) i = (Auth.expireSlot s i).withSlots a' := by
  rcases h i with heq | ⟨hu, heq⟩
  · -- the slot is the same in both
    unfold Auth.expireSlot Softa.withSlots Softa.setAuth Softa.setPkt
    simp only [update_self, heq]
    by_cases hexp : (s.auth i).age - 1 = 0 ∧ (s.auth i).index ≠ -1
    swap
    · simp only [if_neg hexp]
      exact ⟨_, h.set rfl (fun j hj => rfl) fun _ _ hj => hj, rfl⟩
    simp only [if_pos hexp]
    have hset : ∀ {s' : Softa C} {x y : Frauth C}, s'.auth = update (update s.auth i y) i x →
        (∀ j, j ≠ i → s'.pkts j = s.pkts j) →
        (∀ j, j ≠ i → j ∈ arc s'.size s'.start s'.stop → j ∈ arc s.size s.start s.stop) →
          Unused s' (update (update a i y) i x) :=
      fun hauth hpkts harc => by
        rw [update_idem] at hauth ⊢
        exact h.set hauth hpkts harc
    cases hp : s.pkts i with
    | some m => exact ⟨_, hset rfl (fun j hj => update_of_ne hj _ _) fun _ _ hj => hj, by simp⟩
    | none =>
      by_cases hans : (s.auth i).index = -2
      · simp only [if_pos hans]
        exact ⟨_, hset rfl (fun j hj => rfl) fun _ _ hj => hj, by simp⟩
      · simp only [if_neg hans]
        exact ⟨_, hset rfl (fun j hj => rfl) fun _ _ hj => hj, by simp⟩
  · -- it has no age, so it only grows older
    have hage := hu.age
    refine ⟨update a i { s.auth i with age := (s.auth i).age - 1, index := -1 }, ?_, ?_⟩
    · unfold Auth.expireSlot Softa.setAuth
      simp only [update_self]
      rw [if_neg (by omega)]
      intro j
      by_cases hji : j = i
      · subst hji
        simp only [update_self]
        exact .inr ⟨⟨hu.outside, by simp only [update_self]; omega, hu.pkts⟩, trivial⟩
      · simp only [update_of_ne hji]
        refine (h j).imp id fun hj => ⟨⟨hj.1.outside, ?_, hj.1.pkts⟩, hj.2⟩
        simp only [update_of_ne hji]
        exact hj.1.age
    · unfold Auth.expireSlot Softa.setAuth Softa.withSlots
      simp only [update_self, heq]
      rw [if_neg (by omega), if_neg (by omega)]

theorem Unused.flushSlot (h : Unused s a) (i : ℕ) : ∃ a', Unused (flushSlot s i) a' ∧
    Auth.flushSlot (s.withSlots a) i = (Auth.flushSlot s i).withSlots a' := by
  unfold Auth.flushSlot Softa.withSlots Softa.setAuth Softa.setPkt
  dsimp only
  rcases h i with heq | ⟨hu, heq⟩
  · by_cases hne : (s.auth i).index ≠ -1
    · rw [if_pos hne, if_pos (show (a i).index ≠ -1 by rwa [heq])]
      exact ⟨_, h.set rfl (fun j hj => update_of_ne hj _ _) fun _ _ hj => hj, by rw [heq]⟩
    · rw [if_neg hne, if_neg (show ¬(a i).index ≠ -1 by rwa [heq])]
      exact ⟨a, h, rfl⟩
  · -- it becomes free
    rw [if_neg (show ¬(a i).index ≠ -1 by simp [heq])]
    have hpkts : update s.pkts i none = s.pkts := by rw [← hu.pkts, update_eq_self]
    have hsame : update a i { s.auth i with index := -1 } = a := by rw [← heq, update_eq_self]
    split
    · rw [hpkts]
      refine ⟨a, ?_, rfl⟩
      rw [← hsame]
      exact h.set rfl (fun j hj => rfl) fun _ _ hj => hj
    · exact ⟨a, h, rfl⟩

/-- A loop over the slots. -/
theorem Unused.foldl {f : Softa C → ℕ → Softa C} (hf : ∀ s a, Unused s a → ∀ i, ∃ a', Unused (f s i) a' ∧
      f (s.withSlots a) i = (f s i).withSlots a') : ∀ (l : List ℕ) {s : Softa C} {a : ℕ → Frauth C}, Unused s a →
    ∃ a', Unused (l.foldl f s) a' ∧ l.foldl f (s.withSlots a) = (l.foldl f s).withSlots a'
  | [], s, a, h => ⟨a, h, rfl⟩
  | i :: l, s, a, h => by
    obtain ⟨b, hb, heq⟩ := hf s a h i
    obtain ⟨c, hc, heq'⟩ := Unused.foldl hf l hb
    exact ⟨c, hc, by rw [foldl_cons, foldl_cons, heq, heq']⟩

theorem Unused.expire (h : Unused s a) : ∃ a', Unused (ipfAuthExpire s) a' ∧
    ipfAuthExpire (s.withSlots a) = (ipfAuthExpire s).withSlots a' := by
  unfold ipfAuthExpire
  by_cases hlock : s.lock = true
  · rw [if_pos hlock, if_pos (show (s.withSlots a).lock = true from hlock)]
    exact ⟨a, h, rfl⟩
  · rw [if_neg hlock, if_neg (show ¬(s.withSlots a).lock = true from hlock)]
    obtain ⟨a', h', heq⟩ := Unused.foldl (fun s a h => h.expireSlot) (range s.size) h
    refine ⟨a', h'.bounds rfl rfl fun _ hj => hj, ?_⟩
    rw [show (s.withSlots a).size = s.size from rfl, heq]
    rfl

theorem Unused.flush (h : Unused s a) : ∃ a', Unused (ipfAuthFlush s) a' ∧
    ipfAuthFlush (s.withSlots a) = (ipfAuthFlush s).withSlots a' := by
  unfold ipfAuthFlush
  by_cases hlock : s.lock = true
  · rw [if_pos hlock, if_pos (show (s.withSlots a).lock = true from hlock)]
    exact ⟨a, h, rfl⟩
  · rw [if_neg hlock, if_neg (show ¬(s.withSlots a).lock = true from hlock)]
    obtain ⟨a', h', heq⟩ := Unused.foldl (fun s a h => h.flushSlot) (range s.size) h
    refine ⟨a', h'.bounds rfl rfl fun j hj => ?_, ?_⟩
    · rw [arc_self] at hj
      cases hj
    · rw [show (s.withSlots a).size = s.size from rfl, heq]
      rfl

variable {inobj outobj copy inject : Bool} {au : Reply} {fuel : ℕ}

theorem accepts_withSlots (hinfo : ∀ i, (a i).info = (s.auth i).info) :
    (s.withSlots a).accepts inobj au = s.accepts inobj au := by
  unfold Softa.accepts Softa.withSlots
  simp only [hinfo]

theorem Unused.info (h : Unused s a) (i : ℕ) : (a i).info = (s.auth i).info := by
  rcases h i with heq | ⟨-, heq⟩ <;> rw [heq]

theorem Unused.same_age (h : Unused s a) (i : ℕ) : (a i).age = (s.auth i).age := by
  rcases h i with heq | ⟨-, heq⟩ <;> rw [heq]

theorem Unused.fits (h : Unused s a) (hring : Line (s.withSlots a)) (hf : s.Fits i inject) : (s.withSlots a).Fits i inject := by
  obtain ⟨hi, hwait, hlast⟩ := hf
  have hmem : i ∈ arc s.size s.start s.stop := by
    have hsplit : arc s.size s.start s.stop = arc s.size s.start s.next ++ arc s.size s.next s.stop := hring.split
    rw [hsplit]
    exact mem_append_left _ hi
  refine ⟨hi, ?_, hlast.imp id fun hl => hl.imp id fun hl j hj hji => ?_⟩
  · change 0 ≤ (a i).index
    rw [h.eq_of_mem hmem]
    exact hwait
  · change (a j).index = -1
    rw [h.eq_of_mem hj]
    exact hl j hj hji

theorem Unused.reply (h : Unused s a) (hline : Line (s.withSlots a))
    (hfit : ∀ i, s.accepts inobj au = some i → s.Fits i inject) : ∃ a', Unused (ipfAuthReply s inobj au inject).1 a' ∧
      (ipfAuthReply (s.withSlots a) inobj au inject).1 = (ipfAuthReply s inobj au inject).1.withSlots a' := by
  have hacc' : (s.withSlots a).accepts inobj au = s.accepts inobj au := accepts_withSlots h.info
  rcases reply_cases s inobj au inject with ⟨hacc, heq⟩ | ⟨i, hacc, -, hcases⟩
  · rcases reply_cases (s.withSlots a) inobj au inject with ⟨-, heq'⟩ | ⟨i, hi, -⟩
    · rw [heq, heq']
      exact ⟨a, h, rfl⟩
    · rw [hacc', hacc] at hi
      cases hi
  · obtain ⟨hin, -, -⟩ := h.fits hline (hfit i hacc)
    have hmem : i ∈ arc s.size s.start s.stop := by
      have hsplit : arc s.size s.start s.stop = arc s.size s.start s.next ++ arc s.size s.next s.stop := hline.split
      rw [hsplit]
      exact mem_append_left _ hin
    have hself := h.eq_of_mem hmem
    rcases reply_cases (s.withSlots a) inobj au inject with ⟨hno, -⟩ | ⟨k, hk, -, hcases'⟩
    · rw [hacc', hacc] at hno
      cases hno
    rw [hacc', hacc] at hk
    obtain rfl := Option.some.inj hk
    rcases hcases with ⟨hwhich, heq⟩ | ⟨hpkt, hinj, s₁, hs₁, heq⟩ <;>
      rcases hcases' with ⟨hwhich', heq'⟩ | ⟨hpkt', hinj', t₁, ht₁, heq'⟩
    · rw [heq, heq']
      refine ⟨update a i { s.auth i with index := -2, pass := au.pass }, h.set rfl (fun j hj => by simp [Softa.answered, hj])
        fun _ _ hj => hj, ?_⟩
      simp [Softa.answered, Softa.withSlots, hself]
    · exact absurd hwhich (by simp [hinj', show s.pkts i ≠ none from hpkt'])
    · exact absurd hwhich' (by simp [hinj, show (s.withSlots a).pkts i ≠ none from hpkt])
    · have hset : Unused s₁ (update a i { s.auth i with index := -1, pass := 0 }) := by
        rw [hs₁]
        exact h.set rfl (fun j hj => by simp [Softa.answered, hj]) fun _ _ hj => hj
      have ht : t₁ = s₁.withSlots (update a i { s.auth i with index := -1, pass := 0 }) := by
        rw [ht₁, hs₁]
        simp [Softa.answered, Softa.withSlots, hself]
      obtain ⟨hun, hsame⟩ := hset.advance (p := fun _ => true) (q := fun _ => true) (by rw [hs₁]; exact hline.start)
        (by rw [hs₁]; exact hline.stop) (by rw [hs₁]; exact hmem) fun _ _ => rfl
      rw [heq, heq', ht]
      exact ⟨_, hun, hsame⟩

theorem wait_withSlots (s : Softa C) (a : ℕ → Frauth C) : ipfAuthWait fuel (s.withSlots a) inobj outobj copy =
    (ipfAuthWait fuel s inobj outobj copy).map fun r => (r.1.withSlots a, r.2) := by
  unfold ipfAuthWait Softa.withSlots
  dsimp only
  split
  · rfl
  · split
    · cases hunt s.size (fun i => (s.pkts i).isSome) fuel s.next with
      | none => rfl
      | some i =>
        dsimp only
        split <;> rfl
    · rfl

theorem Unused.wait (h : Unused s a) {r : Softa C × Waited} (heq : ipfAuthWait fuel s inobj outobj copy = some r) :
    Unused r.1 a := by
  rcases wait_cases heq with rfl | rfl | ⟨i, -, rfl | rfl⟩ <;> exact h.bounds rfl rfl fun _ hj => hj

variable [DecidableEq C] {fin : FrInfo C} {ipId : BitVec 16} {new : Option ℕ}

theorem Unused.answer (h : Unused s a) (hstart : s.start < s.size) (hstop : s.stop < s.size) :
    (s.withSlots a).answer fin ipId = s.answer fin ipId := by
  have hlen := le_of_lt (gap_le hstart hstop)
  refine (seek_eq hstop s.size hstart hlen).trans (Eq.trans ?_ (seek_eq hstop s.size hstart hlen).symm)
  have hall : ∀ l : List ℕ, (∀ i ∈ l, i ∈ arc s.size s.start s.stop) →
      l.find? (fun i => decide ((a i).index = -2) && same fin ipId (a i).info) =
        l.find? fun i => decide ((s.auth i).index = -2) && same fin ipId (s.auth i).info := by
    intro l hl
    induction l with
    | nil => rfl
    | cons i l ih => rw [find?_cons, find?_cons, h.eq_of_mem (hl i mem_cons_self), ih fun j hj => hl j (mem_cons_of_mem _ hj)]
  exact hall _ fun _ hi => hi

theorem Unused.check (h : Unused s a) (hline : Line (s.withSlots a)) (fin : FrInfo C) (ipId : BitVec 16) (new : Option ℕ) :
    ∃ a', Unused (ipfAuthCheck s fin ipId new).softa a' ∧ ipfAuthCheck (s.withSlots a) fin ipId new =
      { ipfAuthCheck s fin ipId new with softa := (ipfAuthCheck s fin ipId new).softa.withSlots a' } := by
  have hstart : s.start < s.size := hline.start
  have hstop : s.stop < s.size := hline.stop
  have hans : (s.withSlots a).answer fin ipId = s.answer fin ipId := h.answer hstart hstop
  unfold ipfAuthCheck
  by_cases hskip : (s.lock || decide (s.used = 0)) = true
  · rw [if_pos hskip, if_pos (show ((s.withSlots a).lock || decide ((s.withSlots a).used = 0)) = true from hskip)]
    exact ⟨a, h, rfl⟩
  rw [if_neg hskip, if_neg (show ¬((s.withSlots a).lock || decide ((s.withSlots a).used = 0)) = true from hskip), hans]
  cases hi : s.answer fin ipId with
  | none => exact ⟨a, h, rfl⟩
  | some i =>
    have hmem : i ∈ arc s.size s.start s.stop := mem_of_find?_eq_some
      ((seek_eq hstop s.size hstart (le_of_lt (gap_le hstart hstop))).symm.trans hi)
    have hself := h.eq_of_mem hmem
    dsimp only
    rw [show (s.withSlots a).auth i = s.auth i from hself]
    -- what is freed before the start moves on
    have hstep : ∀ t : Softa C, t.auth = s.auth → t.pkts = s.pkts → t.size = s.size → t.start = s.start →
        t.stop = s.stop →
        let u : Softa C := { t.setAuth i (fun a => { a with index := -1 }) with used := t.used - 1, replies := t.replies - 1 }
        let v : Softa C := { (t.withSlots a).setAuth i (fun a => { a with index := -1 }) with
          used := t.used - 1, replies := t.replies - 1 }
        ∃ a', Unused (u.advance u.free i) a' ∧ v.advance v.free i = (u.advance u.free i).withSlots a' := by
      intro t hauth hpkts hsize hst hsp u v
      have hun : Unused u (update a i { s.auth i with index := -1 }) := by
        refine Unused.set h (by simp [u, Softa.setAuth, hauth]) (fun j _ => congrFun hpkts j) fun j _ hj => ?_
        rw [← hsize, ← hst, ← hsp]
        exact hj
      have hv : v = u.withSlots (update a i { s.auth i with index := -1 }) := by
        simp [u, v, Softa.setAuth, Softa.withSlots, hself]
      obtain ⟨h1, h2⟩ := hun.advance (i := i) (p := u.free) (q := v.free) (hsize ▸ hst ▸ hstart)
          (hsize ▸ hsp ▸ hstop)
        (by rw [show u.size = s.size from hsize, show u.start = s.start from hst, show u.stop = s.stop from hsp]; exact hmem)
        fun j hj => by
          rw [Softa.free, Softa.free, hv, show (u.withSlots (update a i { s.auth i with index := -1 })).auth j = u.auth j from
            hun.eq_of_mem hj]
      exact ⟨_, h1, by rw [← h2, hv]⟩
    generalize (if (has (verdict (s.auth i).pass) FR_KEEPSTATE || (has (verdict (s.auth i).pass) FR_KEEPFRAG &&
      has fin.finFlx FI_FRAG)) = true then new else none) = o
    cases o with
    | none =>
      obtain ⟨a', h1, h2⟩ := hstep s rfl rfl rfl rfl rfl
      exact ⟨a', h1, congrArg (Checked.mk · _ _ _ _) h2⟩
    | some n =>
      obtain ⟨a', h1, h2⟩ := hstep { s with
        rules := n :: s.rules, frFlags := update s.frFlags n (verdict (s.auth i).pass), frRef := update s.frRef n 1 } rfl rfl
          rfl rfl rfl
      exact ⟨a', h1, congrArg (Checked.mk · _ _ _ _) h2⟩

end Ipfilter.Auth
