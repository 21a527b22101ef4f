import Ipfilter.Spec.Queue
import Mathlib.Tactic.Ring

/-!
# Timeout queues keep their representation

* `Ok`: the queues spell out lists, `ifq_tail` is the place after the last entry,
  `tqe_ifq` names the queue an entry is on, and `ifq_ref` counts the entries.
* `step_ok`: each legal call succeeds and edits the lists.
* `run_ok`: so every run keeps `Ok`.
* `run_sorted`: when no stored sum of ticks and ttl wraps, a queue that
  `ipf_queuefront` never touched is sorted by `tqe_die`.
-/

namespace Ipfilter.Queue

open Chain List
open Function (update update_eq_self update_eq_self_iff update_idem update_of_ne update_self)

variable {Q E : Type}

/-- **The representation.** `r` holds the reference counts of the empty queues. -/
structure Ok (r : Q → ℤ) (s : Tq Q E) (L : Q → List E) : Prop where
  rep : Rep s.mem L
  tail : ∀ q, s.ifqTail q = lastLink (.head q) (L q)
  ifq : ∀ e q, s.tqeIfq e = some q ↔ e ∈ L q
  ref : ∀ q, s.ifqRef q = r q + (L q).length

variable {r : Q → ℤ} {s s' : Tq Q E} {L : Q → List E} {q : Q} {e : E}

theorem init_ok (ttl flags : Q → ℕ) (r : Q → ℤ) : Ok r (Tq.init (E := E) ttl flags r) (fun _ => []) where
  rep _ := ⟨trivial, rfl⟩
  tail _ := rfl
  ifq := by simp [Tq.init]
  ref := by simp [Tq.init]

theorem Ok.split (h : Ok r s L) (he : s.tqeIfq e = some q) :
    ∃ l₁ l₂, L q = l₁ ++ e :: l₂ ∧ s.mem.pnext e = some (lastLink (.head q) l₁) ∧
      s.mem.next e = l₂.head? := by
  obtain ⟨l₁, l₂, hl⟩ := append_of_mem ((h.ifq e q).1 he)
  exact ⟨l₁, l₂, hl, h.rep.pnext hl, h.rep.next hl⟩

theorem Ok.fresh (h : Ok r s L) (he : s.tqeIfq e = none) (q : Q) : e ∉ L q := by
  intro hm
  rw [(h.ifq e q).2 hm] at he
  simp at he

/-- An entry is only on the queue its `tqe_ifq` names. -/
theorem Ok.only (h : Ok r s L) (he : s.tqeIfq e = some q) {q' : Q} (hm : e ∈ L q') : q' = q := by
  have := (h.ifq e q').2 hm
  rw [he] at this
  simpa using this.symm

/-! ## The two list edits of the code -/

variable [DecidableEq Q]

/-- The lists after an entry moved from `q` to the end of `nq`. -/
def moveList (L : Q → List E) (q nq : Q) (e : E) (l : List E) : Q → List E :=
  update (update L q l) nq (update L q l nq ++ [e])

theorem moveList_self (l : List E) : moveList L q q e l = update L q (l ++ [e]) := by
  unfold moveList; rw [update_self, update_idem]

/-- A move from `q` to `nq` leaves each queue with its entries counted. -/
theorem length_moved {l₁ l₂ : List E} {nq : Q} (h : Ok r s L) (hl : L q = l₁ ++ e :: l₂) (hne : q ≠ nq)
    (q' : Q) : update (update s.ifqRef q (s.ifqRef q - 1)) nq (s.ifqRef nq + 1) q' =
      r q' + (moveList L q nq e (l₁ ++ l₂) q').length := by
  have := h.ref q'
  unfold moveList
  by_cases hq : q' = nq
  · subst hq
    simp only [update_self, update_of_ne (Ne.symm hne), this, length_append,
      length_singleton]
    push_cast; ring
  · rw [update_of_ne hq, update_of_ne hq]
    by_cases hq' : q' = q
    · subst hq'
      simp only [update_self, this, hl, length_append, length_cons]
      push_cast; ring
    · simp only [update_of_ne hq', this]

variable [DecidableEq E]

/-- `unlink` takes the entry out of its list and keeps `ifq_tail`. -/
theorem unlink_spec {l₁ l₂ : List E} (hr : Rep s.mem L) (ht : ∀ q, s.ifqTail q = lastLink (.head q) (L q))
    (hl : L q = l₁ ++ e :: l₂) : Removed s.mem (s.unlink q e (lastLink (.head q) l₁)).mem e (lastLink (.head q) l₁) ∧
      ∀ q', (s.unlink q e (lastLink (.head q) l₁)).ifqTail q' = lastLink (.head q') (update L q (l₁ ++ l₂) q') := by
  have hn : s.mem.next e = l₂.head? := hr.next hl
  have hn' : (s.mem.set (lastLink (.head q) l₁) (s.mem.next e)).next e = s.mem.next e := by
    rw [next_set]; split <;> rfl
  refine ⟨⟨?_, ?_, ?_, ?_⟩, ?_⟩
  · intro _; simp [Tq.unlink]
  · intro x hx _; simp [Tq.unlink, hx]
  · intro y hy _; simp [Tq.unlink, hy]
  · intro x hx _; simp [Tq.unlink, hx]
  · intro q'
    simp only [Tq.unlink, hn']
    by_cases hq : q' = q
    · subst hq
      rw [update_self]
      cases l₂ with
      | nil => simp [hn]
      | cons y l₃ => simp [hn, ht, hl, lastLink_append, lastLink]
    · rw [update_of_ne hq, ← ht q']
      split
      · rw [update_of_ne hq]
      · rfl

/-- `linkTail` on an entry whose `tqe_next` is NULL (or is cleared afterwards) puts a
fresh entry last. -/
theorem linkTail_spec {m : Mem Q E} (hr : Rep s.mem L) (ht : ∀ q, s.ifqTail q = lastLink (.head q) (L q))
    (hf : ∀ q, e ∉ L q) (hg : ∀ x, m.get x = if x = .next e then none else (s.linkTail q e).mem.get x)
    (hp : m.pnext = (s.linkTail q e).mem.pnext) : Rep m (update L q (L q ++ [e])) ∧
      ∀ q', (s.linkTail q e).ifqTail q' = lastLink (.head q') (update L q (L q ++ [e]) q') := by
  have hk := ht q
  have hke : s.ifqTail q ≠ .next e := by
    rw [hk]
    rcases lastLink_cases (k := Link.head (N := E) q) (L q) with c | ⟨y, hy, c⟩
    · rw [c]; simp
    · rw [c]
      rintro ⟨⟩
      exact hf q hy
  have hend : s.mem.get (s.ifqTail q) = none := by rw [hk]; exact (hr q).2
  refine ⟨hr.insert (show L q = L q ++ [] by simp) hf hk ⟨?_, ?_, ?_, ?_, ?_, ?_⟩, ?_⟩
  · rw [hg, if_neg hke]; simp [Tq.linkTail]
  · intro _; rw [← next_get, hg, if_pos rfl, hend]
  · rw [hp]; simp [Tq.linkTail]
  · intro x hx hx'; rw [hg, if_neg hx']; simp [Tq.linkTail, hx]
  · intro y hy; rw [hend] at hy; simp at hy
  · intro x _ hx; rw [hp]; simp [Tq.linkTail, hx]
  · intro q'
    by_cases hq : q' = q
    · subst hq; simp [Tq.linkTail, lastLink_concat]
    · simp [Tq.linkTail, hq, ht]

/-- Taking an entry out of one queue and putting it last on another (or the same). -/
theorem relink_spec {l₁ l₂ : List E} (s₁ : Tq Q E) (nq : Q) (h : Ok r s L) (he : s.tqeIfq e = some q)
    (hl : L q = l₁ ++ e :: l₂) (hm : s₁.mem = (s.unlink q e (lastLink (.head q) l₁)).mem.set (.next e) none)
    (ht : s₁.ifqTail = (s.unlink q e (lastLink (.head q) l₁)).ifqTail) :
    Rep (s₁.linkTail nq e).mem (moveList L q nq e (l₁ ++ l₂)) ∧
      ∀ q', (s₁.linkTail nq e).ifqTail q' = lastLink (.head q') (moveList L q nq e (l₁ ++ l₂) q') := by
  obtain ⟨h1, h2⟩ := unlink_spec h.rep h.tail hl
  have hfr : ∀ q', e ∉ update L q (l₁ ++ l₂) q' := by
    intro q'
    have hnd := h.rep.nodup q
    rw [hl, nodup_middle, nodup_cons] at hnd
    by_cases hq : q' = q
    · subst hq; simpa using hnd.1
    · rw [update_of_ne hq]
      exact fun c => hq (h.only he c)
  have hrep : Rep s₁.mem (update L q (l₁ ++ l₂)) := by
    refine h.rep.remove hl rfl ⟨fun hk => ?_, fun x hx hx' => ?_, fun y hy hne => ?_, fun x hx hne => ?_⟩
    · simpa [hm, hk] using h1.place hk
    · simpa [hm, hx'] using h1.get x hx hx'
    · simpa [hm] using h1.succ y hy hne
    · simpa [hm] using h1.pnext x hx hne
  have htail : ∀ q', s₁.ifqTail q' = lastLink (.head q') (update L q (l₁ ++ l₂) q') := by
    intro q'; rw [ht]; exact h2 q'
  have hke : s₁.ifqTail nq ≠ .next e := by
    rw [htail]
    rcases lastLink_cases (k := Link.head (N := E) nq) (update L q (l₁ ++ l₂) nq) with c | ⟨y, hy, c⟩
    · rw [c]; simp
    · rw [c]
      rintro ⟨⟩
      exact hfr nq hy
  exact linkTail_spec (q := nq) (m := (s₁.linkTail nq e).mem) hrep htail hfr (fun x => by
    by_cases hx : x = .next e
    · subst hx; simp [Tq.linkTail, hm, hke]
    · rw [if_neg hx]) rfl

/-- Membership after a move, read off the queue an entry names. -/
theorem mem_moved {l₁ l₂ : List E} (nq : Q) (h : Ok r s L) (he : s.tqeIfq e = some q)
    (hl : L q = l₁ ++ e :: l₂) (x : E) (q' : Q) :
    update s.tqeIfq e (some nq) x = some q' ↔ x ∈ moveList L q nq e (l₁ ++ l₂) q' := by
  have hx := h.ifq x q'
  have hnd := h.rep.nodup q
  rw [hl, nodup_middle, nodup_cons] at hnd
  unfold moveList
  by_cases hxe : x = e
  · subst hxe
    rw [update_self]
    by_cases hq : q' = nq
    · subst hq; simp
    · rw [update_of_ne hq]
      by_cases hq' : q' = q
      · subst hq'; simpa [Ne.symm hq] using hnd.1
      · have : x ∉ L q' := fun c => hq' (h.only he c)
        simp [update_of_ne hq', this, Ne.symm hq]
  · have hx' : x ∈ update L q (l₁ ++ l₂) q' ↔ x ∈ L q' := by
      by_cases hq' : q' = q
      · subst hq'; simp [hl, hxe]
      · rw [update_of_ne hq']
    rw [update_of_ne hxe, hx, ← hx']
    by_cases hq : q' = nq
    · subst hq; simp [hxe]
    · rw [update_of_ne hq]

/-! ## One lemma for each function -/

section Delete

omit [DecidableEq E]

@[simp] theorem deletetimeoutqueue_mem : (ipfDeletetimeoutqueue s q).mem = s.mem := by
  unfold ipfDeletetimeoutqueue; dsimp only; split <;> rfl

@[simp] theorem deletetimeoutqueue_tail : (ipfDeletetimeoutqueue s q).ifqTail = s.ifqTail := by
  unfold ipfDeletetimeoutqueue; dsimp only; split <;> rfl

@[simp] theorem deletetimeoutqueue_ttl : (ipfDeletetimeoutqueue s q).ifqTtl = s.ifqTtl := by
  unfold ipfDeletetimeoutqueue; dsimp only; split <;> rfl

@[simp] theorem deletetimeoutqueue_ifq : (ipfDeletetimeoutqueue s q).tqeIfq = s.tqeIfq := by
  unfold ipfDeletetimeoutqueue; dsimp only; split <;> rfl

@[simp] theorem deletetimeoutqueue_die : (ipfDeletetimeoutqueue s q).tqeDie = s.tqeDie := by
  unfold ipfDeletetimeoutqueue; dsimp only; split <;> rfl

@[simp] theorem deletetimeoutqueue_ref : (ipfDeletetimeoutqueue s q).ifqRef = update s.ifqRef q (s.ifqRef q - 1) := by
  unfold ipfDeletetimeoutqueue; dsimp only; split <;> rfl

end Delete

/-- `ipf_queueappend` of an entry on no queue puts it last. -/
theorem queueappend_ok (h : Ok r s L) (he : s.tqeIfq e = none) (t p : ℕ) :
    Ok r (ipfQueueappend s t e q p) (update L q (L q ++ [e])) := by
  obtain ⟨h1, h2⟩ := linkTail_spec (q := q) (m := (ipfQueueappend s t e q p).mem) h.rep h.tail (h.fresh he)
    (by intro x; simp [ipfQueueappend, Tq.stamp, Tq.linkTail]) (by simp [ipfQueueappend, Tq.stamp, Tq.linkTail])
  refine ⟨h1, h2, fun x q' => ?_, fun q' => ?_⟩
  · have hx := h.ifq x q'
    by_cases hq : q' = q
    · subst hq
      by_cases hxe : x = e <;> simp [ipfQueueappend, Tq.stamp, Tq.linkTail, hxe, hx]
    · by_cases hxe : x = e
      · subst hxe
        simp [ipfQueueappend, Tq.stamp, Tq.linkTail, update_of_ne hq, h.fresh he, Ne.symm hq]
      · simp [ipfQueueappend, Tq.stamp, Tq.linkTail, update_of_ne hq, hxe, hx]
  · have := h.ref q'
    by_cases hq : q' = q
    · subst hq
      simp [ipfQueueappend, Tq.stamp, Tq.linkTail, this]; ring
    · simp [ipfQueueappend, Tq.stamp, Tq.linkTail, update_of_ne hq, this]

/-- `ipf_deletequeueentry` takes the entry out and drops its reference. -/
theorem deletequeueentry_ok (h : Ok r s L) {l₁ l₂ : List E} (he : s.tqeIfq e = some q) (hl : L q = l₁ ++ e :: l₂) :
    ∃ s', ipfDeletequeueentry s e = some s' ∧ Ok r s' (update L q (l₁ ++ l₂)) ∧
      s'.tqeDie = s.tqeDie ∧ s'.ifqTtl = s.ifqTtl := by
  have hp : s.mem.pnext e = some (lastLink (.head q) l₁) := h.rep.pnext hl
  obtain ⟨h1, h2⟩ := unlink_spec h.rep h.tail hl
  refine ⟨_, by simp only [ipfDeletequeueentry, he, hp]; rfl, ⟨?_, ?_, ?_, ?_⟩, ?_, ?_⟩
  · refine h.rep.remove hl rfl ⟨fun hk => ?_, fun x hx hx' => ?_, fun y hy hne => ?_, fun x hx hne => ?_⟩
    · simpa using h1.place hk
    · simpa using h1.get x hx hx'
    · simpa [hne] using h1.succ y hy hne
    · simpa [hne] using h1.pnext x hx hne
  · intro q'; simpa using h2 q'
  · intro x q'
    have hx := h.ifq x q'
    have hnd := h.rep.nodup q
    rw [hl, nodup_middle, nodup_cons] at hnd
    by_cases hxe : x = e
    · subst hxe
      by_cases hq : q' = q
      · subst hq
        simpa using hnd.1
      · have : x ∉ L q' := fun c => hq (h.only he c)
        simp [update_of_ne hq, this]
    · by_cases hq : q' = q
      · subst hq
        simp only [deletetimeoutqueue_ifq, Tq.unlink, update_of_ne hxe, hx, hl, update_self]
        simp [hxe]
      · simp only [deletetimeoutqueue_ifq, Tq.unlink, update_of_ne hxe, update_of_ne hq, hx]
  · intro q'
    have := h.ref q'
    by_cases hq : q' = q
    · subst hq
      simp [Tq.unlink, this, hl]; ring
    · simp [Tq.unlink, update_of_ne hq, this]
  · simp [Tq.unlink]
  · simp [Tq.unlink]

/-- `ipf_queuefront` puts the entry first on its queue. -/
theorem queuefront_ok (h : Ok r s L) {l₁ l₂ : List E} (he : s.tqeIfq e = some q) (hl : L q = l₁ ++ e :: l₂) :
    ∃ s', ipfQueuefront s e = some s' ∧ Ok r s' (update L q (e :: (l₁ ++ l₂))) ∧
      s'.tqeDie = s.tqeDie ∧ s'.ifqTtl = s.ifqTtl := by
  have hhd : s.mem.head q = (L q).head? := (h.rep q).head?
  cases l₁ with
  | nil =>
    have hh : s.mem.head q = some e := by rw [hhd, hl]; rfl
    refine ⟨s, by simp [ipfQueuefront, he, hh], ?_, rfl, rfl⟩
    have : update L q (e :: ([] ++ l₂)) = L := by rw [nil_append, ← nil_append (e :: l₂), ← hl]; simp
    rw [this]; exact h
  | cons y l₁' =>
    have hnd := h.rep.nodup q
    rw [hl, nodup_middle, nodup_cons] at hnd
    have hh : s.mem.head q ≠ some e := by
      rw [hhd, hl]
      rintro ⟨⟩
      simp at hnd
    have hp : s.mem.pnext e = some (lastLink (.head q) (y :: l₁')) := h.rep.pnext hl
    -- taken out, and put in front again
    obtain ⟨h1, h2⟩ := unlink_spec h.rep h.tail hl
    have hr1 := h.rep.remove hl rfl h1
    have hf1 : ∀ q', e ∉ update L q ((y :: l₁') ++ l₂) q' := by
      intro q'
      by_cases hq : q' = q
      · subst hq; simpa using hnd.1
      · rw [update_of_ne hq]; exact fun c => hq (h.only he c)
    have hy1 : (s.unlink q e (lastLink (.head q) (y :: l₁'))).mem.head q = some y := by
      have := (hr1 q).head?
      simpa using this
    have hye : y ≠ e := by rintro rfl; simp at hnd
    set s₁ := s.unlink q e (lastLink (.head q) (y :: l₁'))
    have hins : Inserted s₁.mem ((((s₁.mem.set (.next e) (some y)).setP y (some (.next e))).set (.head q)
        (some e)).setP e (some (.head q))) e (.head q) := by
      refine ⟨by simp, by simp [hy1], by simp, fun x hx hx' => by simp [hx, hx'], fun z hz hne => ?_,
        fun x hx hne => ?_⟩
      · obtain rfl : y = z := by simpa [hy1] using hz
        simp [hne]
      · have : x ≠ y := by rintro rfl; exact hx hy1
        simp [hne, this]
    refine ⟨{ s₁ with mem := (((s₁.mem.set (.next e) (some y)).setP y (some (.next e))).set (.head q)
        (some e)).setP e (some (.head q)) }, by simp [ipfQueuefront, he, hh, hp, s₁, hy1], ⟨?_, ?_, ?_, ?_⟩,
        rfl, rfl⟩
    · have := hr1.insert (show _ = [] ++ ((y :: l₁') ++ l₂) by simp) hf1 rfl hins
      simpa using this
    · intro q'
      have := h2 q'
      by_cases hq : q' = q
      · subst hq
        rw [update_self] at this ⊢
        exact this
      · rw [update_of_ne hq] at this ⊢
        exact this
    · intro x q'
      have hx := h.ifq x q'
      by_cases hq : q' = q
      · subst hq
        rw [update_self]
        refine hx.trans ?_
        rw [hl]
        simp only [mem_append, mem_cons]
        tauto
      · rw [update_of_ne hq]; exact hx
    · intro q'
      have := h.ref q'
      by_cases hq : q' = q
      · subst hq
        rw [update_self]
        refine this.trans ?_
        rw [hl]
        simp only [length_append, length_cons]
        push_cast; ring
      · rw [update_of_ne hq]; exact this

/-- `ipf_queueback` puts the entry last on its queue, with a new time to die. -/
theorem queueback_ok (h : Ok r s L) {l₁ l₂ : List E} (he : s.tqeIfq e = some q) (hl : L q = l₁ ++ e :: l₂) (t : ℕ) :
    ∃ s', ipfQueueback s t e = some s' ∧ Ok r s' (update L q (l₁ ++ l₂ ++ [e])) ∧
      s'.tqeDie = update s.tqeDie e (u32 (t + s.ifqTtl q)) ∧ s'.ifqTtl = s.ifqTtl := by
  have hn : s.mem.next e = l₂.head? := h.rep.next hl
  have hp : s.mem.pnext e = some (lastLink (.head q) l₁) := h.rep.pnext hl
  have hid : update s.tqeIfq e (some q) = s.tqeIfq := update_eq_self_iff.2 he.symm
  cases l₂ with
  | nil =>
    have hL : update L q (l₁ ++ [] ++ [e]) = L := by
      rw [append_nil, ← hl]; simp
    refine ⟨s.stamp t e q, by simp [ipfQueueback, he, Tq.stamp, hn], ?_, rfl, rfl⟩
    rw [hL]
    exact ⟨h.rep, h.tail, h.ifq, h.ref⟩
  | cons y l₃ =>
    rw [head?_cons] at hn
    set k := lastLink (.head q) l₁
    set s₁ : Tq Q E := { s.stamp t e q with
      mem := ((s.mem.set k (some y)).setP y (some k)).set (.next e) none }
    obtain ⟨h1, h2⟩ := relink_spec s₁ q h he hl (by simp [s₁, Tq.unlink, hn, Mem.setP?, k])
      (by simp [s₁, Tq.unlink, hn, Tq.stamp])
    refine ⟨s₁.linkTail q e, by simp [ipfQueueback, he, hp, Tq.stamp, hn, s₁, k], ?_, rfl, rfl⟩
    rw [← moveList_self]
    refine ⟨h1, h2, fun x q' => ?_, fun q' => ?_⟩
    · have := mem_moved q h he hl x q'
      rwa [hid] at this
    · have := h.ref q'
      rw [moveList_self]
      by_cases hq : q' = q
      · subst hq
        rw [update_self]
        refine this.trans ?_
        rw [hl]
        simp only [length_append, length_cons, length_nil]
        push_cast; ring
      · rw [update_of_ne hq]; exact this

/-- `ipf_movequeue`: it changes nothing, or only the time to die of an entry whose
successor (if any) dies at the same tick, or it puts the entry last on the new queue. -/
theorem movequeue_ok (h : Ok r s L) {l₁ l₂ : List E} (nq : Q) (he : s.tqeIfq e = some q)
    (hl : L q = l₁ ++ e :: l₂) (t : ℕ) : ∃ s', ipfMovequeue s t e q nq = some s' ∧ s'.ifqTtl = s.ifqTtl ∧
    (s' = s ∨
       (q = nq ∧ Ok r s' L ∧ s'.tqeDie = update s.tqeDie e (u32 (t + s.ifqTtl q)) ∧
          ∀ y ∈ l₂.head?, s.tqeDie y = u32 (t + s.ifqTtl q)) ∨ (Ok r s' (moveList L q nq e (l₁ ++ l₂)) ∧
          s'.tqeDie = update s.tqeDie e (u32 (t + s.ifqTtl nq)))) := by
  have hn : s.mem.next e = l₂.head? := h.rep.next hl
  have hp : s.mem.pnext e = some (lastLink (.head q) l₁) := h.rep.pnext hl
  have hid : update s.tqeIfq e (some q) = s.tqeIfq := update_eq_self_iff.2 he.symm
  have hnd := h.rep.nodup q
  rw [hl, nodup_middle, nodup_cons] at hnd
  unfold ipfMovequeue
  split
  · exact ⟨s, rfl, rfl, .inl rfl⟩
  dsimp only
  split
  · rename_i hno
    refine ⟨_, rfl, rfl, .inr (.inl ⟨hno.1, ⟨h.rep, h.tail, h.ifq, h.ref⟩, by rw [hno.1]; rfl, ?_⟩)⟩
    intro y hy
    have hye : y ≠ e := by
      rintro rfl
      exact hnd.1 (mem_append_right _ (mem_of_head? hy))
    have := hno.2 y (by rw [← hn] at hy; exact hy)
    rw [hno.1]
    simpa [Tq.stamp, hye] using this
  · set k := lastLink (.head q) l₁
    by_cases hq : q = nq
    · subst hq
      set s₁ : Tq Q E := { (s.stamp t e q).unlink q e k with
        mem := ((s.stamp t e q).unlink q e k).mem.set (.next e) none }
      obtain ⟨h1, h2⟩ := relink_spec s₁ q h he hl rfl rfl
      refine ⟨s₁.linkTail q e, by simp [Tq.stamp, hp, s₁, k], rfl, .inr (.inr ⟨⟨h1, h2, ?_, ?_⟩, rfl⟩)⟩
      · intro x q'
        have := mem_moved q h he hl x q'
        rwa [hid] at this
      · intro q'
        have := h.ref q'
        rw [moveList_self]
        by_cases hq : q' = q
        · subst hq
          rw [update_self]
          refine this.trans ?_
          rw [hl]
          simp only [length_append, length_cons, length_nil]
          push_cast; ring
        · rw [update_of_ne hq]; exact this
    · set s₁ : Tq Q E := { (s.stamp t e nq).unlink q e k with
        mem := ((s.stamp t e nq).unlink q e k).mem.set (.next e) none }
      set s₂ : Tq Q E := ipfDeletetimeoutqueue { s₁ with tqeIfq := update s₁.tqeIfq e none } q
      set s₃ : Tq Q E := { s₂ with
        tqeIfq := update s₂.tqeIfq e (some nq)
        ifqRef := update s₂.ifqRef nq (s₂.ifqRef nq + 1) }
      obtain ⟨h1, h2⟩ := relink_spec s₃ nq h he hl (by simp [s₃, s₂, s₁, Tq.unlink, Tq.stamp, k])
        (by simp [s₃, s₂, s₁, Tq.unlink, Tq.stamp, k])
      refine ⟨s₃.linkTail nq e, by simp [Tq.stamp, hp, hq, s₃, s₂, s₁, k], ?_,
        .inr (.inr ⟨⟨h1, h2, ?_, ?_⟩, ?_⟩)⟩
      · simp [Tq.linkTail, s₃, s₂, s₁, Tq.unlink, Tq.stamp]
      · intro x q'
        have := mem_moved nq h he hl x q'
        simpa [Tq.linkTail, s₃, s₂, s₁, Tq.unlink, Tq.stamp] using this
      · intro q'
        have := length_moved h hl hq q'
        simpa [Tq.linkTail, s₃, s₂, s₁, Tq.unlink, Tq.stamp, Ne.symm hq] using this
      · simp [Tq.linkTail, s₃, s₂, s₁, Tq.unlink, Tq.stamp]

/-! ## Order -/

/-- `l` is sorted by `d`, with no value above `b`. -/
def Sorted (d : E → ℕ) (b : ℕ) (l : List E) : Prop :=
  l.Pairwise (fun x y => d x ≤ d y) ∧ ∀ x ∈ l, d x ≤ b

section Order

variable {d : E → ℕ} {b v : ℕ} {l l₁ l₂ : List E}

omit [DecidableEq E] in
theorem Sorted.sub (h : Sorted d b l) (hs : l₁.Sublist l) (hb : b ≤ v) : Sorted d v l₁ :=
  ⟨h.1.sublist hs, fun x hx => le_trans (h.2 x (hs.subset hx)) hb⟩

theorem Sorted.upd (h : Sorted d b l) (he : e ∉ l) (v : ℕ) : Sorted (update d e v) b l := by
  have hne : ∀ x ∈ l, update d e v x = d x := fun x hx =>
    update_of_ne (fun (c : x = e) => he (c ▸ hx)) _ _
  refine ⟨h.1.imp_of_mem fun {x y} hx hy hxy => ?_, fun x hx => ?_⟩
  · rw [hne x hx, hne y hy]; exact hxy
  · rw [hne x hx]; exact h.2 x hx

/-- A value at least as large as all others goes last. -/
theorem Sorted.snoc (h : Sorted d b l) (he : e ∉ l) (hb : b ≤ v) : Sorted (update d e v) v (l ++ [e]) := by
  have hu := h.upd he v
  refine ⟨pairwise_append.2 ⟨hu.1, pairwise_singleton _ _, ?_⟩, ?_⟩
  · intro x hx y hy
    rw [mem_singleton] at hy
    subst hy
    rw [update_self]
    exact le_trans (hu.2 x hx) hb
  · intro x hx
    rcases mem_append.1 hx with hx | hx
    · exact le_trans (hu.2 x hx) hb
    · rw [mem_singleton] at hx
      subst hx
      rw [update_self]

/-- A value may grow in place when the next one, if any, is already as large. -/
theorem Sorted.raise (h : Sorted d b (l₁ ++ e :: l₂)) (hn : (l₁ ++ e :: l₂).Nodup) (hb : b ≤ v)
    (hy : ∀ y ∈ l₂.head?, d y = v) : Sorted (update d e v) v (l₁ ++ e :: l₂) := by
  rw [nodup_middle, nodup_cons, mem_append, not_or] at hn
  have hp := pairwise_append.1 h.1
  have hc := pairwise_cons.1 hp.2.1
  have h1 := (Sorted.sub (v := b) h (sublist_append_left _ _) le_rfl).upd hn.1.1 v
  have h2 := (Sorted.sub (v := b) h (sublist_append_of_sublist_right (sublist_cons_self _ _)) le_rfl).upd
    hn.1.2 v
  -- everything behind `e` is at least its first element, which has the new value
  have hge : ∀ y ∈ l₂, v ≤ update d e v y := by
    cases l₂ with
    | nil => simp
    | cons z l₃ =>
      have hz : update d e v z = v := by
        have hze : z ≠ e := fun c => hn.1.2 (c ▸ mem_cons_self)
        rw [update_of_ne hze]; exact hy z rfl
      intro y hy
      rcases mem_cons.1 hy with rfl | hy
      · rw [hz]
      · exact hz.symm.le.trans ((pairwise_cons.1 h2.1).1 y hy)
  refine ⟨pairwise_append.2 ⟨h1.1, pairwise_cons.2 ⟨?_, h2.1⟩, ?_⟩, ?_⟩
  · intro y hy; rw [update_self]; exact hge y hy
  · intro x hx y hy
    rcases mem_cons.1 hy with rfl | hy
    · rw [update_self]; exact le_trans (h1.2 x hx) hb
    · exact le_trans (le_trans (h1.2 x hx) hb) (hge y hy)
  · intro x hx
    rcases mem_append.1 hx with hx | hx
    · exact le_trans (h1.2 x hx) hb
    · rcases mem_cons.1 hx with rfl | hx
      · rw [update_self]
      · exact le_trans (h2.2 x hx) hb

end Order

/-! ## Runs -/

variable {op : Op Q E} {t now : ℕ} {fr : Q → Prop}

/-- The queues on which `ipf_queuefront` was not used are sorted, and their entries die
within the ttl from `now`. -/
def Timed (s : Tq Q E) (L : Q → List E) (now : ℕ) (fr : Q → Prop) : Prop :=
  ∀ q, ¬ fr q → Sorted s.tqeDie (now + s.ifqTtl q) (L q)

omit [DecidableEq Q] [DecidableEq E] in
theorem Timed.mono (h : Timed s L now fr) (hn : now ≤ t) : Timed s L t fr :=
  fun q hq => (h q hq).sub (List.Sublist.refl _) (by omega)

theorem u32_of_lt {n : ℕ} (h : n < 2 ^ 32) : u32 n = n := Nat.mod_eq_of_lt h

/-- An entry that gets a new time to die goes last on the queue `nq`. -/
theorem timed_move {l : List E} (nq : Q) (s' : Tq Q E) (hT : Timed s L t fr) (hs : l.Sublist (L q))
    (hf : ∀ q', e ∉ update L q l q') (hfit : t + s.ifqTtl nq < 2 ^ 32)
    (hd : s'.tqeDie = update s.tqeDie e (u32 (t + s.ifqTtl nq))) (ht : s'.ifqTtl = s.ifqTtl) :
    Timed s' (moveList L q nq e l) t fr := by
  intro q' hq'
  rw [hd, ht, u32_of_lt hfit]
  have hsub : (update L q l q').Sublist (L q') := by
    by_cases hq : q' = q
    · subst hq; rw [update_self]; exact hs
    · rw [update_of_ne hq]
  have h1 := (hT q' hq').sub hsub le_rfl
  unfold moveList
  by_cases hq : q' = nq
  · subst hq
    rw [update_self]
    exact h1.snoc (hf q') le_rfl
  · rw [update_of_ne hq]
    exact h1.upd (hf q') _

omit [DecidableEq E] in
theorem Ok.notMem_update (h : Ok r s L) {l₁ l₂ : List E} (he : s.tqeIfq e = some q)
    (hl : L q = l₁ ++ e :: l₂) (q' : Q) : e ∉ update L q (l₁ ++ l₂) q' := by
  have hnd := h.rep.nodup q
  rw [hl, nodup_middle, nodup_cons] at hnd
  by_cases hq : q' = q
  · subst hq; simpa using hnd.1
  · rw [update_of_ne hq]; exact fun c => hq (h.only he c)

/-- **One call.** A legal call succeeds, keeps the representation and the ttls, and, when
the sum it stores fits, keeps the order. -/
theorem step_ok (fr : Q → Prop) (h : Ok r s L) (hl : Legal s op) (t : ℕ) :
    ∃ s' L', step s t op = some s' ∧ Ok r s' L' ∧ s'.ifqTtl = s.ifqTtl ∧
      (Fits s t op → Timed s L t fr → Timed s' L' t (fun q => fr q ∨ fronted s op = some q)) := by
  cases op with
  | append e q p =>
    have he : s.tqeIfq e = none := hl
    refine ⟨_, _, rfl, queueappend_ok h he t p, rfl, fun hfit hT => ?_⟩
    have hm : moveList L q q e (L q) = update L q (L q ++ [e]) := moveList_self _
    have hid : update L q (L q) = L := update_eq_self _ _
    rw [← hm]
    have := timed_move (q := q) (e := e) q (ipfQueueappend s t e q p) hT (List.Sublist.refl _)
      (by rw [hid]; exact h.fresh he) (hfit q rfl) rfl rfl
    simpa [fronted] using this
  | move e q nq =>
    have he : s.tqeIfq e = some q := hl
    obtain ⟨l₁, l₂, hl', -, -⟩ := h.split he
    obtain ⟨s', h1, h2, h3⟩ := movequeue_ok h nq he hl' t
    rcases h3 with rfl | ⟨rfl, h4, h5, h6⟩ | ⟨h4, h5⟩
    · exact ⟨_, L, h1, h, h2, fun _ hT => by simpa [fronted] using hT⟩
    · refine ⟨s', L, h1, h4, h2, fun hfit hT => ?_⟩
      have hfit' : t + s.ifqTtl q < 2 ^ 32 := hfit q rfl
      rw [u32_of_lt hfit'] at h5 h6
      intro q' hq'
      have hq'' : ¬ fr q' := by simpa [fronted] using hq'
      rw [h5, h2]
      by_cases hq : q' = q
      · subst hq
        have hs := hT q' hq''
        have hn := h.rep.nodup q'
        rw [hl'] at hs hn ⊢
        exact hs.raise hn le_rfl h6
      · exact (hT q' hq'').upd (fun c => hq (h.only he c)) _
    · refine ⟨s', _, h1, h4, h2, fun hfit hT => ?_⟩
      have := timed_move (e := e) (l := l₁ ++ l₂) (q := q) nq s' hT (by rw [hl']; simp) (h.notMem_update he hl')
        (hfit nq rfl) h5 h2
      simpa [fronted] using this
  | back e =>
    cases he : s.tqeIfq e with
    | none => exact ⟨s, L, by simp [step, ipfQueueback, he], h, rfl, fun _ hT => by simpa [fronted] using hT⟩
    | some q =>
      obtain ⟨l₁, l₂, hl', -, -⟩ := h.split he
      obtain ⟨s', h1, h2, h3, h4⟩ := queueback_ok h he hl' t
      refine ⟨s', _, h1, h2, h4, fun hfit hT => ?_⟩
      rw [← moveList_self]
      have := timed_move (e := e) (l := l₁ ++ l₂) (q := q) q s' hT (by rw [hl']; simp) (h.notMem_update he hl')
        (hfit q he) h3 h4
      simpa [fronted] using this
  | front e =>
    cases he : s.tqeIfq e with
    | none =>
      exact ⟨s, L, by simp [step, ipfQueuefront, he], h, rfl, fun _ hT => by simpa [fronted, he] using hT⟩
    | some q =>
      obtain ⟨l₁, l₂, hl', -, -⟩ := h.split he
      obtain ⟨s', h1, h2, h3, h4⟩ := queuefront_ok h he hl'
      refine ⟨s', _, h1, h2, h4, fun _ hT q' hq' => ?_⟩
      simp only [fronted, he, not_or, Option.some.injEq] at hq'
      rw [update_of_ne (Ne.symm hq'.2), h3, h4]
      exact hT q' hq'.1
  | delete e =>
    obtain ⟨q, he⟩ := Option.ne_none_iff_exists'.1 (show s.tqeIfq e ≠ none from hl)
    obtain ⟨l₁, l₂, hl', -, -⟩ := h.split he
    obtain ⟨s', h1, h2, h3, h4⟩ := deletequeueentry_ok h he hl'
    refine ⟨s', _, h1, h2, h4, fun _ hT q' hq' => ?_⟩
    have hq'' : ¬ fr q' := by simpa [fronted] using hq'
    rw [h3, h4]
    by_cases hq : q' = q
    · subst hq
      rw [update_self]
      exact (hT q' hq'').sub (by rw [hl']; simp) le_rfl
    · rw [update_of_ne hq]; exact hT q' hq''

/-- **Every run keeps the representation**, whatever its steps. -/
theorem run_ok {ok : Tq Q E → ℕ → Op Q E → Prop} {s₀ : Tq Q E} (h0 : Ok r s₀ (fun _ => []))
    (hr : Run ok s₀ now fr s) : ∃ L, Ok r s L ∧ ((∀ s t op, ok s t op → Fits s t op) → Timed s L now fr) := by
  induction hr with
  | init => exact ⟨_, h0, fun _ q _ => ⟨List.Pairwise.nil, by simp⟩⟩
  | step t op hr hn hleg hok hs ih =>
    obtain ⟨L, hL, hT⟩ := ih
    obtain ⟨s', L', h1, h2, h3, h4⟩ := step_ok _ hL hleg t
    rw [hs] at h1
    cases h1
    exact ⟨L', h2, fun hf => h4 (hf _ _ _ hok) ((hT hf).mono hn)⟩

/-- **The timeout queues are in order.** Each entry is once on the queue its `tqe_ifq`
names and on no other; links, back links and `ifq_tail` agree with the lists;
`ifq_ref` is its initial value `r` plus the number of entries; and the queues on which
`ipf_queuefront` was not used are sorted by `tqe_die`. -/
def InOrder (r : Q → ℤ) (fr : Q → Prop) (s : Tq Q E) : Prop :=
  ∃ L : Q → List E, (∀ e q, s.tqeIfq e = some q ↔ e ∈ L q) ∧ (∀ q, (L q).Nodup) ∧ Rep s.mem L ∧
    (∀ q, s.ifqTail q = lastLink (.head q) (L q)) ∧ (∀ q, s.ifqRef q = r q + (L q).length) ∧
    ∀ q, ¬ fr q → (L q).Pairwise (fun x y => s.tqeDie x ≤ s.tqeDie y)

/-- **In every run whose stored sums of ticks and ttl fit, the queues are in order in every
state reached, and no legal call goes through a NULL pointer.** -/
theorem run_inOrder {ttl flags : Q → ℕ} {r : Q → ℤ} {now : ℕ} {fr : Q → Prop} {s : Tq Q E}
    (hr : Run Fits (Tq.init ttl flags r) now fr s) :
    InOrder r fr s ∧ ∀ op t, Legal s op → ∃ s', step s t op = some s' := by
  obtain ⟨L, hL, hT⟩ := run_ok (init_ok ttl flags r) hr
  have hT' := hT fun _ _ _ h => h
  refine ⟨⟨L, hL.ifq, hL.rep.nodup, hL.rep, hL.tail, hL.ref, fun q hq => (hT' q hq).1⟩, ?_⟩
  intro op t hop
  obtain ⟨s', -, h, -⟩ := step_ok fr hL hop t
  exact ⟨s', h⟩

/-- Two entries on a queue of ten minutes; the first is touched again and goes last. -/
theorem run_inOrder_two :
    ∃ (s : Tq Unit Bool) (fr : Unit → Prop), s.mem.head () = some true ∧ InOrder (fun _ => 1) fr s := by
  have h0 : Run Fits (Tq.init (E := Bool) (fun _ : Unit => 1200) (fun _ => 0) (fun _ => 1)) 0
      (fun _ => False) _ := Run.init
  have h1 := Run.step 3 (.append false () 0) h0 (by decide) rfl (fun _ _ => by show _ + 1200 < _; decide) rfl
  have h2 := Run.step 3 (.append true () 0) h1 le_rfl rfl (fun _ _ => by show _ + 1200 < _; decide) rfl
  have h3 := Run.step 7 (.move false () ()) h2 (by decide) rfl (fun _ _ => by show _ + 1200 < _; decide) rfl
  exact ⟨_, _, rfl, (run_inOrder h3).1⟩

/-- On a user queue with an age of `2147483647` seconds, the entry of tick 1 dies at
`4294967295` and the entry of tick 2, behind it, at 0. -/
theorem run_not_inOrder_wrap :
    ∃ (now : ℕ) (fr : Unit → Prop) (s : Tq Unit Bool),
      Run (fun _ _ _ => True) (Tq.init (fun _ : Unit => 2147483647 * 2) (fun _ => IFQF_USER) (fun _ => 2))
        now fr s ∧ ¬ InOrder (fun _ => 2) fr s := by
  have h0 : Run (fun _ _ _ => True)
      (Tq.init (E := Bool) (fun _ : Unit => 2147483647 * 2) (fun _ => IFQF_USER) (fun _ => 2)) 0
      (fun _ => False) _ := Run.init
  have h1 := Run.step 1 (.append false () 0) h0 (by decide) rfl trivial rfl
  have h2 := Run.step 2 (.append true () 0) h1 (by decide) rfl trivial rfl
  refine ⟨2, _, _, h2, ?_⟩
  rintro ⟨L, -, -, hrep, -, -, hs⟩
  have hL := hrep ()
  have hord := hs () (by simp [fronted])
  -- the memory fixes the list
  cases hl : L () with
  | nil => rw [hl] at hL; exact absurd hL.2 (by decide)
  | cons x l =>
    rw [hl, seg_cons] at hL
    obtain ⟨hx, -, hL⟩ := hL
    obtain rfl : false = x := Option.some.inj hx
    cases l with
    | nil => exact absurd hL.2 (by decide)
    | cons y l =>
      rw [seg_cons] at hL
      obtain rfl : true = y := Option.some.inj hL.1
      rw [hl] at hord
      exact absurd ((List.pairwise_cons.1 hord).1 true mem_cons_self) (by decide)

end Ipfilter.Queue
