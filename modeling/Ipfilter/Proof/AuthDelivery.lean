import Ipfilter.Proof.AuthInit

/-!
# Packets are handed over and answered

`run_delivers`: in runs from `ipf_auth_soft_init` in which `ipf_auth_wait` is called when there is a packet in the queue, and
replies are for packets that were handed over, every packet is handed over at most once and in order, and every answer is used
at most once, for the same packet.
-/

namespace Ipfilter.Auth

open Cyclic List
open Function (update update_of_ne update_self)

variable {C : Type} [DecidableEq C] {s s' : Softa C} {m : ℕ} {fin : FrInfo C} {ipId : BitVec 16} {new : Option ℕ}

/-! ## What happens -/

/-- A packet that came back and was let through by an answer. -/
structure Applied (C : Type) where
  reply : ℕ
  fin : FrInfo C
  ipId : BitVec 16
  pass : Flags

/-- **What has happened:** the packets that came, those that were handed over, the answers with the packet they are for, the
number of the answer in each slot, and the answers that were used. -/
structure Log (C : Type) where
  arrived : List (ℕ × FrInfo C)
  handed : List ℕ
  replies : List (FrInfo C × Flags)
  slots : ℕ → ℕ
  applied : List (Applied C)

/-- What a call adds. -/
def Log.next (g : Log C) (s : Softa C) : Op C → Log C
  | .new m fin => if (ipfAuthNew s m fin).2 then { g with arrived := g.arrived ++ [(m, fin)] } else g
  | .wait fuel inobj outobj copy =>
    match ipfAuthWait fuel s inobj outobj copy with
    | some (_, .handed i) => { g with handed := g.handed ++ (s.pkts i).toList }
    | _ => g
  | .reply inobj au _ =>
    match s.accepts inobj au with
    | none => g
    | some i => { g with
        replies := g.replies ++ [((s.auth i).info, au.pass)], slots := update g.slots i g.replies.length }
  | .check fin ipId new =>
    match (ipfAuthCheck s fin ipId new).slot, (ipfAuthCheck s fin ipId new).pass with
    | some i, some pass => { g with applied := g.applied ++ [⟨g.slots i, fin, ipId, pass⟩] }
    | _, _ => g
  | _ => g

/-- **Packets in order, and each answer once.** -/
structure Told (s : Softa C) (g : Log C) : Prop where
  order : (g.handed ++ s.queue).Sublist (g.arrived.map Prod.fst)
  waits : ∀ i < s.size, 0 ≤ (s.auth i).index →
    ∃ m fin, s.pkts i = some m ∧ (m, fin) ∈ g.arrived ∧ (s.auth i).info = stored fin
  answers : ∀ r ∈ g.replies, ∃ q ∈ g.arrived, r.1 = stored q.2
  held : ∀ i < s.size, (s.auth i).index = -2 → g.replies[g.slots i]? = some ((s.auth i).info, (s.auth i).pass) ∧
    ∀ a ∈ g.applied, a.reply ≠ g.slots i
  apart : ∀ i < s.size, ∀ j < s.size, (s.auth i).index = -2 → (s.auth j).index = -2 → g.slots i = g.slots j → i = j
  once : (g.applied.map Applied.reply).Nodup
  right : ∀ a ∈ g.applied, ∃ info v, g.replies[a.reply]? = some (info, v) ∧ same a.fin a.ipId info = true ∧
    a.pass = verdict v

variable {g : Log C}

/-- Slots may become free, and packets may be handed over. -/
theorem Told.fade (h : Told s g) (hsize : s'.size = s.size) (hslots : ∀ i < s.size, (s'.auth i).index = -1 ∨
      (s'.auth i).index = (s.auth i).index ∧ (s'.auth i).info = (s.auth i).info ∧ (s'.auth i).pass = (s.auth i).pass ∧
        s'.pkts i = s.pkts i) {l : List ℕ} (horder : (l ++ s'.queue).Sublist (g.arrived.map Prod.fst)) :
    Told s' { g with handed := l } := by
  have hans : ∀ i < s.size, (s'.auth i).index = -2 → (s.auth i).index = -2 ∧ (s'.auth i).info = (s.auth i).info ∧
      (s'.auth i).pass = (s.auth i).pass := by
    intro i hi h2
    rcases hslots i hi with h1 | ⟨h1, h3, h4, -⟩
    · omega
    · exact ⟨h1 ▸ h2, h3, h4⟩
  refine ⟨horder, fun i hi hpos => ?_, h.answers, fun i hi h2 => ?_, fun i hi j hj hi2 hj2 heq => ?_, h.once, h.right⟩
  · rcases hslots i (hsize ▸ hi) with h1 | ⟨h1, h3, -, h5⟩
    · omega
    · rw [h3, h5]
      exact h.waits i (hsize ▸ hi) (h1 ▸ hpos)
  · obtain ⟨h1, h3, h4⟩ := hans i (hsize ▸ hi) h2
    rw [h3, h4]
    exact h.held i (hsize ▸ hi) h1
  · exact h.apart i (hsize ▸ hi) j (hsize ▸ hj) (hans i (hsize ▸ hi) hi2).1 (hans j (hsize ▸ hj) hj2).1 heq

omit [DecidableEq C] in
theorem advance_slots (s : Softa C) (p : ℕ → Bool) (i : ℕ) : (s.advance p i).size = s.size ∧
    (s.advance p i).auth = s.auth ∧ (s.advance p i).pkts = s.pkts := by
  rw [advance_keeps]
  exact ⟨rfl, rfl, rfl⟩

/-- **A packet more.** -/
theorem Told.put (h : Told s g) (hl : Line s) (hlock : s.lock = false) (hfull : inc s.size s.stop ≠ s.start) (m : ℕ)
    (fin : FrInfo C) : Told (ipfAuthNew s m fin).1 { g with arrived := g.arrived ++ [(m, fin)] } := by
  have hqueue := (hl.put hlock hfull m fin).2
  have hfields := put_fields hl.stop hlock hfull m fin
  generalize (ipfAuthNew s m fin).1 = s' at hqueue hfields ⊢
  obtain ⟨⟨hsize, -⟩, -, hindex, hinfo, hpkt, hother⟩ := hfields
  have hans : ∀ i, (s'.auth i).index = -2 → s'.auth i = s.auth i := fun i h2 => by
    by_cases his : i = s.stop
    · rw [his, hindex] at h2
      omega
    · exact (hother i his).1
  refine ⟨?_, fun i hi hpos => ?_, fun r hr => ?_, fun i hi h2 => ?_, fun i hi j hj hi2 hj2 heq => ?_, h.once, h.right⟩
  · rw [hqueue, ← append_assoc, map_append]
    exact h.order.append (List.Sublist.refl _)
  · by_cases his : i = s.stop
    · subst his
      exact ⟨m, fin, hpkt, by simp, hinfo⟩
    · rw [(hother i his).1] at hpos ⊢
      obtain ⟨m', fin', hm, hmem, hinfo'⟩ := h.waits i (hsize ▸ hi) hpos
      exact ⟨m', fin', by rw [(hother i his).2, hm], by simp [hmem], hinfo'⟩
  · obtain ⟨q, hq, heq⟩ := h.answers r hr
    exact ⟨q, by simp [hq], heq⟩
  · have hsame := hans i h2
    rw [hsame] at h2 ⊢
    exact h.held i (hsize ▸ hi) h2
  · rw [hans i hi2] at hi2
    rw [hans j hj2] at hj2
    exact h.apart i (hsize ▸ hi) j (hsize ▸ hj) hi2 hj2 heq

/-- **An answer more.** -/
theorem Told.answered (h : Told s g) {i : ℕ} (hi : i < s.size) (hwait : 0 ≤ (s.auth i).index) {pass : Flags}
    (hsize : s'.size = s.size) (hqueue : s'.queue = s.queue)
    (hother : ∀ j, j ≠ i → s'.auth j = s.auth j ∧ s'.pkts j = s.pkts j)
    (hself : (s'.auth i).index = -1 ∨ (s'.auth i).index = -2 ∧ (s'.auth i).info = (s.auth i).info ∧
      (s'.auth i).pass = pass) :
    Told s' { g with
      replies := g.replies ++ [((s.auth i).info, pass)], slots := update g.slots i g.replies.length } := by
  have hlen : ∀ k r, g.replies[k]? = some r → k < g.replies.length := fun k r hk => (List.getElem?_eq_some_iff.1 hk).1
  have hkeep : ∀ k r, g.replies[k]? = some r → (g.replies ++ [((s.auth i).info, pass)])[k]? = some r := fun k r hk => by
    rw [List.getElem?_append_left (hlen k r hk), hk]
  have hold : ∀ j, j ≠ i → j < s.size → (s'.auth j).index = -2 → g.slots j < g.replies.length := fun j hj hjs h2 => by
    rw [(hother j hj).1] at h2
    exact hlen _ _ (h.held j hjs h2).1
  refine ⟨by rw [hqueue]; exact h.order, fun j hj hpos => ?_, fun r hr => ?_, fun j hj h2 => ?_,
    fun j hj k hk hj2 hk2 heq => ?_, h.once, fun a ha => ?_⟩
  · by_cases hji : j = i
    · subst hji
      omega
    · rw [(hother j hji).1] at hpos ⊢
      rw [(hother j hji).2]
      exact h.waits j (hsize ▸ hj) hpos
  · rcases mem_append.1 hr with hr | hr
    · exact h.answers r hr
    · obtain ⟨m, fin, -, hmem, hinfo⟩ := h.waits i hi hwait
      rw [mem_singleton.1 hr]
      exact ⟨(m, fin), hmem, hinfo⟩
  · by_cases hji : j = i
    · subst hji
      rcases hself with h1 | ⟨-, h3, h4⟩
      · omega
      · dsimp only
        rw [update_self, h3, h4]
        refine ⟨by simp, fun a ha => ?_⟩
        obtain ⟨info, v, hk, -, -⟩ := h.right a ha
        have := hlen _ _ hk
        omega
    · have hj2 := h2
      rw [(hother j hji).1] at h2 ⊢
      dsimp only
      rw [update_of_ne hji]
      obtain ⟨h3, h4⟩ := h.held j (hsize ▸ hj) h2
      exact ⟨hkeep _ _ h3, h4⟩
  · dsimp only at heq
    by_cases hji : j = i <;> by_cases hki : k = i
    · rw [hji, hki]
    · rw [hji, update_self, update_of_ne hki] at heq
      have := hold k hki (hsize ▸ hk) hk2
      omega
    · rw [hki, update_self, update_of_ne hji] at heq
      have := hold j hji (hsize ▸ hj) hj2
      omega
    · rw [update_of_ne hji, update_of_ne hki] at heq
      rw [(hother j hji).1] at hj2
      rw [(hother k hki).1] at hk2
      exact h.apart j (hsize ▸ hj) k (hsize ▸ hk) hj2 hk2 heq
  · obtain ⟨info, v, hk, hsame, hpass⟩ := h.right a ha
    exact ⟨info, v, hkeep _ _ hk, hsame, hpass⟩

/-- **An answer is used.** -/
theorem Told.taken (h : Told s g) {i : ℕ} (hi : i < s.size) (hans : (s.auth i).index = -2)
    (hsame : same fin ipId (s.auth i).info = true) (hsize : s'.size = s.size) (hqueue : s'.queue = s.queue)
    (hother : ∀ j, j ≠ i → s'.auth j = s.auth j ∧ s'.pkts j = s.pkts j) (hself : (s'.auth i).index = -1) :
    Told s' { g with applied := g.applied ++ [⟨g.slots i, fin, ipId, verdict (s.auth i).pass⟩] } := by
  obtain ⟨hrep, hnew⟩ := h.held i hi hans
  have hne : ∀ j, (s'.auth j).index = -2 → j ≠ i := fun j hj hji => by
    rw [hji] at hj
    omega
  refine ⟨by rw [hqueue]; exact h.order, fun j hj hpos => ?_, h.answers, fun j hj h2 => ?_,
    fun j hj k hk hj2 hk2 heq => ?_, ?_, fun a ha => ?_⟩
  · have hji : j ≠ i := fun hji => by
      rw [hji] at hpos
      omega
    rw [(hother j hji).1] at hpos ⊢
    rw [(hother j hji).2]
    exact h.waits j (hsize ▸ hj) hpos
  · have hji := hne j h2
    rw [(hother j hji).1] at h2 ⊢
    obtain ⟨h3, h4⟩ := h.held j (hsize ▸ hj) h2
    refine ⟨h3, fun a ha => ?_⟩
    rcases mem_append.1 ha with ha | ha
    · exact h4 a ha
    · rw [mem_singleton.1 ha]
      exact fun heq => hji (h.apart j (hsize ▸ hj) i hi h2 hans heq.symm)
  · rw [(hother j (hne j hj2)).1] at hj2
    rw [(hother k (hne k hk2)).1] at hk2
    exact h.apart j (hsize ▸ hj) k (hsize ▸ hk) hj2 hk2 heq
  · dsimp only
    rw [map_append, nodup_append']
    refine ⟨h.once, by simp, ?_⟩
    rw [disjoint_left]
    intro k hk hk'
    obtain ⟨a, ha, rfl⟩ := mem_map.1 hk
    exact hnew a ha (by simpa using hk')
  · rcases mem_append.1 ha with ha | ha
    · exact h.right a ha
    · rw [mem_singleton.1 ha]
      exact ⟨_, _, hrep, hsame, rfl⟩

omit [DecidableEq C] in
theorem expire_slots (s : Softa C) : (ipfAuthExpire s).size = s.size ∧
    ∀ i < s.size, ((ipfAuthExpire s).auth i).index = -1 ∨ ((ipfAuthExpire s).auth i).index = (s.auth i).index ∧
      ((ipfAuthExpire s).auth i).info = (s.auth i).info ∧ ((ipfAuthExpire s).auth i).pass = (s.auth i).pass ∧
      (ipfAuthExpire s).pkts i = s.pkts i := by
  unfold ipfAuthExpire
  split
  · exact ⟨rfl, fun i _ => .inr ⟨rfl, rfl, rfl, rfl⟩⟩
  · obtain ⟨⟨hsize, -⟩, hall⟩ := expire_fold (range s.size) s nodup_range
    refine ⟨hsize, fun i hi => ?_⟩
    obtain ⟨-, hb, hc, hd, he⟩ := hall i
    simp only [mem_range.2 hi, true_and] at hb he
    by_cases hexp : (s.auth i).age = 1 ∧ (s.auth i).index ≠ -1
    · rw [if_pos hexp] at hb
      exact .inl hb
    · rw [if_neg hexp] at hb he
      exact .inr ⟨hb, hc, hd, he⟩

omit [DecidableEq C] in
theorem flush_slots (s : Softa C) : (ipfAuthFlush s).size = s.size ∧
    ∀ i < s.size, ((ipfAuthFlush s).auth i).index = -1 ∨ ((ipfAuthFlush s).auth i).index = (s.auth i).index ∧
      ((ipfAuthFlush s).auth i).info = (s.auth i).info ∧ ((ipfAuthFlush s).auth i).pass = (s.auth i).pass ∧
      (ipfAuthFlush s).pkts i = s.pkts i := by
  unfold ipfAuthFlush
  split
  · exact ⟨rfl, fun i _ => .inr ⟨rfl, rfl, rfl, rfl⟩⟩
  · obtain ⟨hsize, hall⟩ := flush_fold (range s.size) s
    refine ⟨hsize, fun i hi => .inl ?_⟩
    have hindex := (hall i).1
    rwa [if_pos (mem_range.2 hi)] at hindex

theorem filterMap_sublist {α β : Type} {f f' : α → Option β} (h : ∀ x, f' x = f x ∨ f' x = none) :
    ∀ l : List α, (l.filterMap f').Sublist (l.filterMap f)
  | [] => List.Sublist.refl _
  | x :: l => by
    have ih := filterMap_sublist h l
    rw [filterMap_cons, filterMap_cons]
    rcases h x with hx | hx
    · rw [hx]
      cases f x with
      | none => exact ih
      | some y => exact ih.cons_cons y
    · rw [hx]
      cases f x with
      | none => exact ih
      | some y => exact ih.cons y

/-! ## Runs -/

/-- **Waiting for packets that are there, and answers to packets that were handed over.** -/
def Fair (s : Softa C) : Op C → Prop
  | .wait _ inobj _ _ => inobj = true → 0 < s.used → s.queue ≠ []
  | .reply inobj au inject => ∀ i, s.accepts inobj au = some i → s.Fits i inject
  | _ => True

section Calls

variable (h : Line s) (ht : Told s g)

include h ht

theorem Line.step_new (m : ℕ) (fin : FrInfo C) :
    Line (ipfAuthNew s m fin).1 ∧ Told (ipfAuthNew s m fin).1 (g.next s (.new m fin)) ∧
    ∃ l, g.handed ++ s.queue ++ l = (g.next s (.new m fin)).handed ++ (ipfAuthNew s m fin).1.queue := by
  rcases h.toRing.new_cases m fin with ⟨hno, -⟩ | ⟨hlock, hfull, hyes⟩
  · have hg : g.next s (.new m fin) = g := by rw [Log.next, hno]; rfl
    rw [hg, hno]
    exact ⟨h, ht, [], by simp⟩
  · have hg : g.next s (.new m fin) = { g with arrived := g.arrived ++ [(m, fin)] } := by rw [Log.next, if_pos hyes]
    obtain ⟨hline, hqueue⟩ := h.put hlock hfull m fin
    rw [hg]
    refine ⟨hline, ht.put h hlock hfull m fin, [m], ?_⟩
    rw [hqueue]
    simp

theorem Line.step_wait {fuel : ℕ} {inobj outobj copy : Bool} {r : Waited}
    (hf : inobj = true → 0 < s.used → s.queue ≠ []) (hw : ipfAuthWait fuel s inobj outobj copy = some (s', r)) :
    Line s' ∧ Told s' (g.next s (.wait fuel inobj outobj copy)) ∧
      ∃ l, g.handed ++ s.queue ++ l = (g.next s (.wait fuel inobj outobj copy)).handed ++ s'.queue := by
  obtain ⟨hline, hres⟩ := h.wait hf hw
  obtain ⟨hsize, hauth, hpkts⟩ : s'.size = s.size ∧ s'.auth = s.auth ∧ s'.pkts = s.pkts := by
    rcases wait_cases hw with hr | hr | ⟨i, -, hr | hr⟩ <;> cases hr <;> exact ⟨rfl, rfl, rfl⟩
  have hslots : ∀ i < s.size, (s'.auth i).index = -1 ∨ (s'.auth i).index = (s.auth i).index ∧
      (s'.auth i).info = (s.auth i).info ∧ (s'.auth i).pass = (s.auth i).pass ∧ s'.pkts i = s.pkts i := fun i _ => by
    rw [hauth, hpkts]
    exact .inr ⟨rfl, rfl, rfl, rfl⟩
  rcases hres with ⟨hno, hqueue⟩ | ⟨i, m, hi, hm, hqueue⟩
  · have hg : g.next s (.wait fuel inobj outobj copy) = g := by
      rw [Log.next, hw]
      cases r with
      | handed i => exact absurd rfl (hno i)
      | error => rfl
      | sleeps => rfl
    rw [hg]
    dsimp only at hqueue hline
    refine ⟨hline, ht.fade hsize hslots (l := g.handed) ?_, [], by rw [hqueue]; simp⟩
    rw [hqueue]
    exact ht.order
  · dsimp only at hi hqueue hline
    subst hi
    have hg : g.next s (.wait fuel inobj outobj copy) = { g with handed := g.handed ++ [m] } := by
      rw [Log.next, hw]
      simp [hm]
    rw [hg]
    refine ⟨hline, ht.fade hsize hslots ?_, [], by rw [hqueue]; simp⟩
    rw [append_assoc, singleton_append, ← hqueue]
    exact ht.order

theorem Line.step_reply {inobj inject : Bool} {au : Reply} (hf : ∀ i, s.accepts inobj au = some i → s.Fits i inject) :
    Line (ipfAuthReply s inobj au inject).1 ∧
      Told (ipfAuthReply s inobj au inject).1 (g.next s (.reply inobj au inject)) := by
  obtain ⟨hline, hqueue⟩ := h.reply hf
  refine ⟨hline, ?_⟩
  rcases reply_cases s inobj au inject with ⟨hacc, hr⟩ | ⟨i, hacc, hi, hr⟩
  · have hg : g.next s (.reply inobj au inject) = g := by rw [Log.next, hacc]
    rw [hg, hr]
    exact ht
  · have hg : g.next s (.reply inobj au inject) = { g with
        replies := g.replies ++ [((s.auth i).info, au.pass)]
        slots := update g.slots i g.replies.length } := by rw [Log.next, hacc]
    rw [hg]
    rcases hr with ⟨-, hr⟩ | ⟨-, -, s₁, hs₁, hr⟩
    · rw [hr] at hqueue ⊢
      exact ht.answered hi (hf i hacc).2.1 rfl hqueue (fun j hj => by simp [Softa.answered, hj])
        (.inr (by simp [Softa.answered]))
    · obtain ⟨h1, h2, h3⟩ := advance_slots s₁ (fun _ => true) i
      rw [hr] at hqueue ⊢
      refine ht.answered hi (hf i hacc).2.1 (h1.trans (by rw [hs₁]; rfl)) hqueue (fun j hj => ?_) (.inl ?_)
      · rw [h2, h3, hs₁]
        simp [Softa.answered, hj]
      · rw [h2, hs₁]
        simp

theorem Line.step_check (fin : FrInfo C) (ipId : BitVec 16) (new : Option ℕ) : Line (ipfAuthCheck s fin ipId new).softa ∧
    Told (ipfAuthCheck s fin ipId new).softa (g.next s (.check fin ipId new)) := by
  obtain ⟨hline, hqueue⟩ := h.check fin ipId new
  refine ⟨hline, ?_⟩
  rcases h.toRing.check_cases fin ipId new with hno | ⟨i, rules, frFlags, frRef, hi, hans, hsame, hpass, hslot, hs'⟩
  · have hg : g.next s (.check fin ipId new) = g := by rw [Log.next, hno]
    rw [hg, hno]
    exact ht
  · have hg : g.next s (.check fin ipId new) =
        { g with applied := g.applied ++ [⟨g.slots i, fin, ipId, verdict (s.auth i).pass⟩] } := by
      rw [Log.next, hslot, hpass]
    obtain ⟨h1, h2, h3⟩ := advance_slots (s.taken i rules frFlags frRef) (s.taken i rules frFlags frRef).free i
    rw [hg]
    rw [hs'] at hqueue ⊢
    refine ht.taken (h.lt hi) hans hsame h1 hqueue (fun j hj => ?_) ?_
    · rw [h2, h3]
      simp [Softa.taken, hj]
    · rw [h2]
      simp [Softa.taken]

theorem Line.step_expire : Told (ipfAuthExpire s) g := by
  have hsub : (ipfAuthExpire s).queue.Sublist s.queue := by
    rcases h.expire.2 with ⟨-, hsame⟩ | hqueue
    · rw [hsame]
    · rw [hqueue]
      refine filterMap_sublist (fun i => ?_) _
      split
      · exact .inr rfl
      · exact .inl rfl
  obtain ⟨hsize, hslots⟩ := expire_slots s
  exact ht.fade hsize hslots (l := g.handed) ((List.Sublist.append_left hsub _).trans ht.order)

theorem Line.step_flush : Told (ipfAuthFlush s) g := by
  have hsub : (ipfAuthFlush s).queue.Sublist s.queue := by
    rcases h.flush.2 with ⟨-, hsame⟩ | hqueue
    · rw [hsame]
    · rw [hqueue]
      exact nil_sublist _
  obtain ⟨hsize, hslots⟩ := flush_slots s
  exact ht.fade hsize hslots (l := g.handed) ((List.Sublist.append_left hsub _).trans ht.order)

end Calls

/-- **Every call** keeps the ring in order. What was handed over and the queue form a line, in which packets only join at the
end; expiry and a flush take packets out of the queue. -/
theorem Line.step (h : Line s) (ht : Told s g) {op : Op C} (hf : Fair s op) (heq : Auth.step s op = some s') :
    Line s' ∧ Told s' (g.next s op) ∧
      (op ≠ .expire → op ≠ .flush → ∃ l, g.handed ++ s.queue ++ l = (g.next s op).handed ++ s'.queue) := by
  cases op with
  | new m fin =>
    cases heq
    obtain ⟨hline, htold, hl⟩ := h.step_new ht m fin
    exact ⟨hline, htold, fun _ _ => hl⟩
  | wait fuel inobj outobj copy =>
    obtain ⟨⟨s', r⟩, hw, rfl⟩ := Option.map_eq_some_iff.1 heq
    obtain ⟨hline, htold, hl⟩ := h.step_wait ht hf hw
    exact ⟨hline, htold, fun _ _ => hl⟩
  | reply inobj au inject =>
    cases heq
    obtain ⟨hline, htold⟩ := h.step_reply ht hf
    refine ⟨hline, htold, fun _ _ => ⟨[], ?_⟩⟩
    rw [(h.reply hf).2, append_nil]
    congr 1
    rw [Log.next]
    split <;> rfl
  | check fin ipId new =>
    cases heq
    obtain ⟨hline, htold⟩ := h.step_check ht fin ipId new
    refine ⟨hline, htold, fun _ _ => ⟨[], ?_⟩⟩
    rw [(h.check fin ipId new).2, append_nil]
    congr 1
    rw [Log.next]
    split <;> rfl
  | expire =>
    cases heq
    exact ⟨h.expire.1, h.step_expire ht, fun hno => absurd rfl hno⟩
  | flush =>
    cases heq
    exact ⟨h.flush.1, h.step_flush ht, fun _ hno => absurd rfl hno⟩
  | setlock lock =>
    cases heq
    refine ⟨⟨⟨h.start, h.stop, h.next, h.index, h.pkts, h.outside, h.used⟩, h.within, h.ages, h.young, h.live, h.gone,
      h.asked, h.aging⟩, ⟨ht.order, ht.waits, ht.answers, ht.held, ht.apart, ht.once, ht.right⟩,
        fun _ _ => ⟨[], by simp; rfl⟩⟩

/-- **Every call** does the same if the slots that were never used are taken to be free. -/
theorem Unused.step {a : ℕ → Frauth C} (h : Unused s a) (hl : Line (s.withSlots a)) {op : Op C} (hf : Fair s op)
    (heq : Auth.step s op = some s') : Fair (s.withSlots a) op ∧ g.next (s.withSlots a) op = g.next s op ∧
      ∃ a', Unused s' a' ∧ Auth.step (s.withSlots a) op = some (s'.withSlots a') := by
  cases op with
  | new m fin =>
    cases heq
    obtain ⟨a', hun, hsame⟩ := h.put hl.start hl.stop m fin
    refine ⟨trivial, ?_, a', hun, ?_⟩
    · rw [Log.next, Log.next, hsame]
    · rw [Auth.step, hsame]
  | wait fuel inobj outobj copy =>
    obtain ⟨⟨t, w⟩, hw, rfl⟩ := Option.map_eq_some_iff.1 heq
    have hsame := (wait_withSlots s a).trans (congrArg _ hw)
    refine ⟨hf, ?_, a, h.wait hw, ?_⟩
    · rw [Log.next, Log.next, hsame, hw]
      cases w <;> rfl
    · rw [Auth.step, hsame]
      rfl
  | reply inobj au inject =>
    cases heq
    have hacc : (s.withSlots a).accepts inobj au = s.accepts inobj au := accepts_withSlots h.info
    obtain ⟨a', hun, hsame⟩ := h.reply hl hf
    refine ⟨fun i hi => h.fits hl (hf i (hacc ▸ hi)), ?_, a', hun, ?_⟩
    · rw [Log.next, Log.next, hacc]
      cases s.accepts inobj au with
      | none => rfl
      | some i => simp only [show ((s.withSlots a).auth i).info = (s.auth i).info from h.info i]
    · rw [Auth.step, hsame]
  | check fin ipId new =>
    cases heq
    obtain ⟨a', hun, hsame⟩ := h.check hl fin ipId new
    refine ⟨trivial, ?_, a', hun, ?_⟩
    · rw [Log.next, Log.next, hsame]
    · rw [Auth.step, hsame]
  | expire =>
    cases heq
    obtain ⟨a', hun, hsame⟩ := h.expire
    exact ⟨trivial, rfl, a', hun, congrArg some hsame⟩
  | flush =>
    cases heq
    obtain ⟨a', hun, hsame⟩ := h.flush
    exact ⟨trivial, rfl, a', hun, congrArg some hsame⟩
  | setlock lock =>
    cases heq
    exact ⟨trivial, rfl, a, h.bounds rfl rfl fun _ hj => hj, rfl⟩

/-- Nothing has happened. -/
def Log.empty : Log C := ⟨[], [], [], fun _ => 0, []⟩

/-- **Runs**, with what has happened. -/
inductive Delivery (ok : Softa C → Op C → Prop) (s₀ : Softa C) : Softa C → Log C → Prop
  | start : Delivery ok s₀ s₀ Log.empty
  | call {s s' : Softa C} {g : Log C} (op : Op C) : Delivery ok s₀ s g → ok s op → step s op = some s' →
      Delivery ok s₀ s' (g.next s op)

/-- After `ipf_auth_soft_init` no slot was used. -/
theorem softInit_line {size : ℕ} (hsize : 0 < size) {defaultage : ℤ} (hage : 0 < defaultage) (zero : C)
    (frFlags : ℕ → Flags) (frRef : ℕ → ℤ) : ∃ a, Unused (ipfAuthSoftInit size defaultage zero frFlags frRef) a ∧
      Line ((ipfAuthSoftInit size defaultage zero frFlags frRef).withSlots a) ∧
      Told ((ipfAuthSoftInit size defaultage zero frFlags frRef).withSlots a) Log.empty := by
  have hnil : arc size 0 0 = [] := arc_self _ _
  have hfree : tally size (fun _ => decide ((-1 : ℤ) ≠ -1)) = 0 := tally_zero fun _ _ => rfl
  refine ⟨fun _ => ⟨0, -1, 0, ⟨none, false, 0, zero, 0⟩, 0⟩, fun i => .inr ⟨⟨?_, Int.le_refl 0, rfl⟩, rfl⟩,
    ⟨⟨hsize, hsize, hsize, fun i _ => .inl rfl, fun i _ => ?_, fun i _ _ => rfl, congrArg Int.ofNat hfree.symm⟩,
      .inr rfl, ?_, ?_, ?_, ?_, ?_, hage⟩, ?_, fun i _ hpos => ?_, ?_, fun i _ h2 => ?_, fun i _ j _ h2 => ?_, ?_, ?_⟩
  · simp [ipfAuthSoftInit, hnil]
  · simp [Softa.withSlots, ipfAuthSoftInit]
  · simp [Softa.withSlots, ipfAuthSoftInit, hnil]
  · simp [Softa.withSlots, ipfAuthSoftInit, hnil]
  · simp [Softa.withSlots, ipfAuthSoftInit, hnil]
  · simp [Softa.withSlots, ipfAuthSoftInit, hnil]
  · simp [Softa.withSlots, ipfAuthSoftInit, hnil]
  · simp [Softa.queue, Softa.withSlots, ipfAuthSoftInit, hnil, Log.empty]
  · simp [Softa.withSlots] at hpos
  · simp [Log.empty]
  · simp [Softa.withSlots] at h2
  · simp [Softa.withSlots] at h2
  · simp [Log.empty]
  · simp [Log.empty]

omit [DecidableEq C] in
/-- As long as there is a packet in the queue, the first one is handed over. -/
theorem Line.serves (h : Line s) (hne : s.queue ≠ []) :
    ∃ fuel s' i, ipfAuthWait fuel s true true true = some (s', .handed i) ∧
    s.pkts i = s.queue.head? ∧ s'.queue = s.queue.tail := by
  obtain ⟨i, hi, hsome, -, ⟨fuel, hfuel⟩, -⟩ := h.hunt hne
  have hlt := h.lt (h.mem_arc hi)
  have hused : 0 < s.used := by
    have hin := (h.pkts i hlt).1 hsome
    have := tally_pos (p := fun i => decide ((s.auth i).index ≠ -1)) hlt (by simp; omega)
    rw [h.used]
    omega
  have heq : ipfAuthWait fuel s true true true = some ({ s with next := inc s.size i }, .handed i) := by
    unfold ipfAuthWait
    rw [if_neg (by simp), if_pos hused, hfuel]
    rfl
  obtain ⟨-, ⟨hno, -⟩ | ⟨k, m, hk, hm, hqueue⟩⟩ := h.wait (fun _ _ => hne) heq
  · exact absurd rfl (hno i)
  · cases hk
    refine ⟨fuel, _, i, heq, ?_, ?_⟩
    · rw [hm, hqueue]
      rfl
    · rw [hqueue]
      rfl

theorem verdict_ne (pass : Flags) : verdict pass ≠ 0 ∧ isAuth (verdict pass) = false := by
  unfold verdict
  split
  · decide
  · rename_i h
    rw [not_or] at h
    exact ⟨h.1, by simpa using h.2⟩

omit [DecidableEq C] in
/-- The search for a packet ends. -/
theorem Line.ends (h : Line s) {inobj : Bool} (outobj copy : Bool) (hne : inobj = true → 0 < s.used → s.queue ≠ []) :
    ∃ fuel, (ipfAuthWait fuel s inobj outobj copy).isSome = true := by
  unfold ipfAuthWait
  by_cases hin : (!inobj) = true
  · exact ⟨0, by rw [if_pos hin]; rfl⟩
  by_cases hused : 0 < s.used
  · obtain ⟨i, -, -, -, ⟨fuel, hfuel⟩, -⟩ := h.hunt (hne (by simpa using hin) hused)
    refine ⟨fuel, ?_⟩
    rw [if_neg hin, if_pos hused, hfuel]
    dsimp only
    split <;> rfl
  · exact ⟨0, by rw [if_neg hin, if_neg hused]; rfl⟩

/-- **Delivery:** in every run from `ipf_auth_soft_init` in which `ipf_auth_wait` is called when there is a packet to hand
over, and replies are for packets that were handed over, the search for a packet ends; packets are handed over in the order in
which they came, each at most once, and one is left out only if it expires or is flushed; every answer is used at most once,
and for the packet it is for; and it is neither zero nor `FR_AUTH`. -/
theorem run_delivers {size : ℕ} (hsize : 0 < size) {defaultage : ℤ} (hage : 0 < defaultage)
    {zero : C} {frFlags : ℕ → Flags} {frRef : ℕ → ℤ}
    (hr : Delivery Fair (ipfAuthSoftInit size defaultage zero frFlags frRef) s g) :
    (∀ inobj outobj copy, (inobj = true → 0 < s.used → s.queue ≠ []) →
      ∃ fuel, (ipfAuthWait fuel s inobj outobj copy).isSome = true) ∧
    (s.queue ≠ [] → ∃ fuel s' i, ipfAuthWait fuel s true true true = some (s', .handed i) ∧ s.pkts i = s.queue.head? ∧
      s'.queue = s.queue.tail) ∧
    (g.handed ++ s.queue).Sublist (g.arrived.map Prod.fst) ∧
    (∀ op s', Fair s op → step s op = some s' → op ≠ .expire → op ≠ .flush →
      ∃ l, g.handed ++ s.queue ++ l = (g.next s op).handed ++ s'.queue) ∧
    (s.lock = true ∧ ipfAuthExpire s = s ∨ (ipfAuthExpire s).queue =
      (arc s.size s.next s.stop).filterMap fun i => if (s.auth i).age = 1 then none else s.pkts i) ∧
    (g.applied.map Applied.reply).Nodup ∧
    ∀ a ∈ g.applied, ∃ q ∈ g.arrived, ∃ v, g.replies[a.reply]? = some (stored q.2, v) ∧
      same a.fin a.ipId (stored q.2) = true ∧ a.pass = verdict v ∧ a.pass ≠ 0 ∧ isAuth a.pass = false := by
  obtain ⟨a, hun, h, ht⟩ : ∃ a, Unused s a ∧ Line (s.withSlots a) ∧ Told (s.withSlots a) g := by
    induction hr with
    | start => exact softInit_line hsize hage zero frFlags frRef
    | call op _ hf heq ih =>
      obtain ⟨a, hun, hline, htold⟩ := ih
      obtain ⟨hf', hg, a', hun', heq'⟩ := hun.step hline hf heq
      obtain ⟨hline', htold', -⟩ := hline.step htold hf' heq'
      exact ⟨a', hun', hline', hg ▸ htold'⟩
  refine ⟨fun inobj outobj copy hne => ?_, fun hne => ?_, ht.order, fun op s' hf heq hex hfl => ?_, ?_, ht.once,
    fun x hx => ?_⟩
  · obtain ⟨fuel, hends⟩ := h.ends outobj copy hne
    rw [wait_withSlots, Option.isSome_map] at hends
    exact ⟨fuel, hends⟩
  · obtain ⟨fuel, t, i, hw, hi, hq⟩ := h.serves hne
    rw [wait_withSlots] at hw
    obtain ⟨⟨s', w⟩, hw', hr⟩ := Option.map_eq_some_iff.1 hw
    cases hr
    exact ⟨fuel, s', i, hw', hi, hq⟩
  · obtain ⟨hf', hg, a', -, heq'⟩ := hun.step (g := g) h hf heq
    have hl := (h.step ht hf' heq').2.2 hex hfl
    rwa [hg] at hl
  · obtain ⟨a', -, heq⟩ := hun.expire
    rcases h.expire.2 with ⟨hlock, -⟩ | hq
    · exact .inl ⟨hlock, by rw [ipfAuthExpire, if_pos (show s.lock = true from hlock)]⟩
    · right
      rw [heq] at hq
      refine Eq.trans hq (filterMap_congr fun i _ => ?_)
      rw [show ((s.withSlots a).auth i).age = (s.auth i).age from hun.same_age i]
      rfl
  · obtain ⟨info, v, hrep, hsame, hpass⟩ := ht.right x hx
    obtain ⟨q, hq, hinfo⟩ := ht.answers _ (mem_of_getElem? hrep)
    dsimp only at hinfo
    rw [hinfo] at hrep hsame
    obtain ⟨hz, hauth⟩ := verdict_ne v
    exact ⟨q, hq, v, hrep, hsame, hpass, by rw [hpass]; exact hz, by rw [hpass]; exact hauth⟩

/-! ## One packet -/

/-- Four slots that were never used. -/
def boot : Softa Unit := ipfAuthSoftInit 4 600 () (fun _ => 0) fun _ => 1

/-- One packet waits. -/
def one : Softa Unit := after boot (.new 0 (packet 1))

/-- It is handed over. -/
def told : Softa Unit := after one (.wait 4 true true true)

/-- What has happened then. -/
def toldLog : Log Unit := (Log.empty.next boot (.new 0 (packet 1))).next one (.wait 4 true true true)

theorem told_run (ok : Softa Unit → Op Unit → Prop) (h : ok boot (.new 0 (packet 1)))
    (h' : ok one (.wait 4 true true true)) : Delivery ok boot told toldLog :=
  .call _ (.call _ .start h (step_after (by decide))) h' (step_after (by decide))

/-- It is answered. -/
def replied : Softa Unit := after told (.reply true ⟨0, 1, FR_PASS⟩ true)

/-- What has happened when it comes back. -/
def backLog : Log Unit := (toldLog.next told (.reply true ⟨0, 1, FR_PASS⟩ true)).next replied (.check (packet 1) 1 none)

/-- The packet is handed over, answered, and comes back: the answer is used. -/
theorem run_delivers_one : Delivery Fair boot (after replied (.check (packet 1) 1 none)) backLog ∧
    backLog.applied.length = 1 ∧ (backLog.applied.map Applied.reply).Nodup := by
  have hrun : Delivery Fair boot (after replied (.check (packet 1) 1 none)) backLog := by
    refine .call (.check (packet 1) 1 none) (.call (.reply true ⟨0, 1, FR_PASS⟩ true) (told_run Fair trivial ?_) ?_
      (step_after (by decide))) trivial (step_after (by decide))
    · intro _ _
      decide
    · intro i hi
      obtain rfl : i = 0 := Option.some.inj (hi.symm.trans (by decide))
      exact ⟨by decide, by decide, .inl rfl⟩
  obtain ⟨-, -, -, -, -, honce, -⟩ := run_delivers (by decide) (by decide) hrun
  exact ⟨hrun, by decide, honce⟩

/-- **A packet is handed over twice, and a search does not end.** The packet stays in its slot until it is answered, and
`ipf_auth_used` counts it until it comes back: another call finds it again, and after the answer finds nothing and goes on for
ever. -/
theorem handed_twice :
    (∃ s g, Delivery (fun _ _ => True) boot s g ∧ g.arrived.map Prod.fst = [0] ∧ g.handed = [0, 0]) ∧
    ∃ s g, Delivery (fun _ _ => True) boot s g ∧ 0 < s.used ∧ ∀ fuel, ipfAuthWait fuel s true true true = none := by
  refine ⟨⟨_, _, .call (.wait 4 true true true) (told_run _ trivial trivial) trivial (step_after (by decide)), by decide,
    by decide⟩, _, _, .call (.reply true ⟨0, 1, FR_PASS⟩ true) (told_run _ trivial trivial) trivial
      (step_after (by decide)),
    by decide, fun fuel => ?_⟩
  have hnone : ∀ i, replied.pkts i = none := by
    intro i
    change Function.update (Function.update (fun _ => none) 0 (some 0)) 0 none i = none
    by_cases hi : i = 0 <;> simp [hi]
  change ipfAuthWait fuel replied true true true = none
  unfold ipfAuthWait
  rw [if_neg (by simp), if_pos (by decide), hunt_none (fun i => congrArg Option.isSome (hnone i))]

end Ipfilter.Auth
