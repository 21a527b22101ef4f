import Ipfilter.Spec.StateLife
import Ipfilter.Proof.StateTable

/-!
# The lifetime of state entries

`Life refs` says what `is_ref` counts: one for the chain, one for `is_me`, and one for each reference of
`refs`. An entry that is on no chain is an orphan, and is there only because somebody refers to it.

* `del_life`: `ipf_state_del` of an entry that is on its chain, or for its last reference.
* `flushLoop_life`, `matchflushLoop_life`, `queueLoop_life`: the walks that delete.
* `next_life`: every event, when no walk and no ioctl deletes an orphan.
* `events_life`: whole runs.
-/

namespace Ipfilter.State

open Chain Queue List
open Function (update update_of_ne update_self)
open Option (bind_eq_bind bind_some some.injEq)

variable {w w' : Softs} {A : List ℕ} {H : ℕ → List ℕ} {e : ℕ} {refs refs' late late' : ℕ → ℕ}
  {r : Tqid → ℤ} {L : Tqid → List ℕ}

/-! ## What the references are -/

/-- **Every reference is accounted for.** Those of `late` are about to be given back by a call that found
no other. -/
structure Life (refs late : ℕ → ℕ) (w : Softs) (A : List ℕ) (H : ℕ → List ℕ) (r : Tqid → ℤ)
    (L : Tqid → List ℕ) : Prop extends Good (fun e => w.table.pnext e = none) w A H where
  ok : Ok r w.tq L
  queued : ∀ q, ∀ e ∈ L q, e ∈ A ∧ w.table.pnext e ≠ none ∧ w.tq.tqeParent e = e
  ref : ∀ e ∈ A, (w.is e).isRef = (if w.table.pnext e = none then 0 else 1) +
    (if (w.is e).isMe = none then 0 else 1) + refs e
  held : ∀ e ∈ A, w.table.pnext e = none → (w.is e).isMe = none ∧ 0 < refs e
  out : ∀ e ∉ A, refs e = 0
  le : ∀ e, late e ≤ refs e
  late : ∀ e, 0 < late e → w.table.pnext e = none
  orphan : w.orphan = A.countP fun e => w.table.pnext e = none

theorem Good.dead_iff {dead : ℕ → Prop} (h : Good dead w A H) (he : e ∈ A) : dead e ↔ w.table.pnext e = none := by
  refine ⟨h.gone e he, fun hp => ?_⟩
  by_contra hd
  exact h.toAcc.notMem_of_pnext hp _ (h.live e he hd)

/-- The deleted entries that are still listed are those on no chain. -/
theorem Good.self {dead : ℕ → Prop} (h : Good dead w A H) : Good (fun e => w.table.pnext e = none) w A H :=
  h.congr fun _ he => h.dead_iff he

/-- Counting orphans when one entry becomes one, or is taken out of the list. -/
theorem count_orphans (hA : A.Nodup) (he : e ∈ A)
    {p q : ℕ → Bool} (hp : ∀ x ∈ A, q x = true ↔ x = e ∨ p x = true) :
    ((A.countP q : ℕ) : ℤ) = A.countP p + 1 - (if p e then 1 else 0) ∧
      (((A.filter (· ≠ e)).countP q : ℕ) : ℤ) = A.countP p - (if p e then 1 else 0) := by
  obtain ⟨l₁, l₂, rfl⟩ := append_of_mem he
  obtain ⟨hout, -⟩ := nodup_cons.1 (nodup_middle.1 hA)
  have hother : ∀ l : List ℕ, (∀ x ∈ l, x ∈ l₁ ++ l₂) → l.countP q = l.countP p := by
    intro l hl
    have hne : ∀ x ∈ l, x ≠ e := fun x hx hxe => hout (hxe ▸ hl x hx)
    refine countP_congr fun x hx => ?_
    have hxA : x ∈ l₁ ++ e :: l₂ := by
      have := hl x hx
      simp only [mem_append, mem_cons] at this ⊢
      tauto
    rw [hp x hxA]
    simp [hne x hx]
  have h1 := hother l₁ (by simp +contextual)
  have h2 := hother l₂ (by simp +contextual)
  have hpe : q e = true := (hp e he).2 (.inl rfl)
  rw [filter_middle hA]
  simp only [countP_append, countP_cons, hpe, h1, h2, if_true]
  constructor
  · split <;> push_cast <;> ring
  · split <;> push_cast <;> ring

/-- **`ipf_state_del`**, called by who gives a reference back or for an entry on its chain. Here `refs'`
are the references left. -/
theorem del_life (h : Life refs late w A H r L) (he : e ∈ A) (hne : ∀ x ≠ e, refs' x = refs x)
    (hself : refs' e + (if w.table.pnext e = none then 1 else 0) = refs e)
    (hle : ∀ x, late' x ≤ refs' x) (hlate : ∀ x, 0 < late' x → 0 < late x) :
    ∃ w' n A' H' r' L', ipfStateDel w e = some (w', n) ∧ Life refs' late' w' A' H' r' L' ∧
      (n = 0 ↔ ¬0 < refs' e) ∧ A' = (if 0 < refs' e then A else A.filter (· ≠ e)) ∧
      (∀ q, L' q = (L q).filter (· ≠ e)) ∧
      (∀ x ∈ A', w'.table.pnext x = none ↔ x = e ∨ w.table.pnext x = none) ∧ Deleted w e w' := by
  obtain ⟨w', n, H', L', hdel, hn, hgood, hok, hL, hd⟩ := del_spec h.toGood h.ok he
  -- what is left are the references of others
  have hleft : (w.is e).left = refs' e := by
    have href := h.ref e he
    unfold Ipstate.left
    by_cases hp : w.table.pnext e = none
    · rw [if_pos hp] at href hself
      omega
    · rw [if_neg hp] at href hself
      omega
  have hpos : 0 < (w.is e).left ↔ 0 < refs' e := by rw [hleft]; exact Int.natCast_pos
  simp only [hpos] at hgood
  -- the entry joins those that left the list
  have horph : ∀ x ∈ (if 0 < refs' e then A else A.filter (· ≠ e)),
      w'.table.pnext x = none ↔ x = e ∨ w.table.pnext x = none :=
    fun x hx => (hgood.dead_iff hx).symm
  have hmem : ∀ x, x ∈ (if 0 < refs' e then A else A.filter (· ≠ e)) ↔
      x ∈ A ∧ (x = e → 0 < refs' e) := by
    intro x
    split
    · rename_i hc
      simp [hc]
    · rename_i hc
      simp only [mem_filter, decide_not, Bool.not_eq_eq_eq_not, Bool.not_true, decide_eq_false_iff_not]
      exact and_congr_right fun _ => ⟨fun hx hxe => absurd hxe hx, fun hx hxe => hc (hx hxe)⟩
  refine ⟨w', n, _, H', _, L', hdel, ⟨hgood.self, hok, fun q x hx => ?_, fun x hx => ?_,
    fun x hx hp => ?_, fun x hx => ?_, hle, fun x hx => ?_, ?_⟩, by rw [hn, hpos], rfl, hL, horph, hd⟩
  · rw [hL q, mem_filter] at hx
    have hxe : x ≠ e := by simpa using hx.2
    obtain ⟨hxA, hxp, hpar⟩ := h.queued q x hx.1
    have hxA' := (hmem x).2 ⟨hxA, fun hc => absurd hc hxe⟩
    refine ⟨hxA', fun hc => ?_, by rw [hd.kept.parent]; exact hpar⟩
    exact ((horph x hxA').1 hc).elim hxe hxp
  · obtain ⟨hxA, hxe⟩ := (hmem x).1 hx
    by_cases hx' : x = e
    · subst hx'
      obtain ⟨hr, hm⟩ := hd.ref (hpos.2 (hxe rfl))
      rw [if_pos ((horph x hx).2 (.inl rfl)), hm, if_pos rfl, hr, hleft]
      ring
    · have hiff : w'.table.pnext x = none ↔ w.table.pnext x = none := by
        rw [horph x hx]
        exact or_iff_right hx'
      simp only [hd.is x hx', hiff, hne x hx']
      exact h.ref x hxA
  · obtain ⟨hxA, hxe⟩ := (hmem x).1 hx
    by_cases hx' : x = e
    · subst hx'
      exact ⟨(hd.ref (hpos.2 (hxe rfl))).2, hxe rfl⟩
    · rw [hd.is x hx', hne x hx']
      exact h.held x hxA (((horph x hx).1 hp).resolve_left hx')
  · by_cases hx' : x = e
    · subst hx'
      by_contra hc
      exact hx ((hmem x).2 ⟨he, fun _ => by omega⟩)
    · rw [hne x hx']
      exact h.out x fun hxA => hx ((hmem x).2 ⟨hxA, fun hc => absurd hc hx'⟩)
  · have hold := hlate x hx
    have hxA : x ∈ A := by
      by_contra hxA
      have := h.le x
      rw [h.out x hxA] at this
      omega
    have hxA' := (hmem x).2 ⟨hxA, fun hxe => by subst hxe; exact lt_of_lt_of_le hx (hle x)⟩
    exact (horph x hxA').2 (.inr (h.late x hold))
  · rw [hd.orphan, h.orphan]
    simp only [hpos]
    -- the entry is an orphan now, unless it is freed
    have hcount := count_orphans (p := fun x => w.table.pnext x = none)
      (q := fun x => (x = e ∨ w.table.pnext x = none)) h.toAcc.nodup he (by simp)
    have hsame : ∀ B : List ℕ, (∀ x ∈ B, w'.table.pnext x = none ↔ x = e ∨ w.table.pnext x = none) →
        B.countP (fun x => decide (w'.table.pnext x = none)) =
          B.countP (fun x => decide (x = e ∨ w.table.pnext x = none)) :=
      fun B hB => countP_congr fun x hx => by simpa using hB x hx
    rw [hsame _ horph]
    simp only [decide_eq_true_eq] at hcount
    by_cases hc : 0 < refs' e
    · rw [if_pos hc, if_pos hc, hcount.1]
    · rw [if_neg hc, if_neg hc, hcount.2]
      ring

/-! ## The walks -/

/-- An entry on its chain is deleted: nobody's reference is given back. -/
theorem del_linked (h : Life refs late w A H r L) (he : e ∈ A) (hp : w.table.pnext e ≠ none) :
    ∃ w' n A' H' r' L', ipfStateDel w e = some (w', n) ∧ Life refs late w' A' H' r' L' ∧
      (n = 0 ↔ ¬0 < refs e) ∧ A' = (if 0 < refs e then A else A.filter (· ≠ e)) ∧
      (∀ q, L' q = (L q).filter (· ≠ e)) ∧
      (∀ x ∈ A', w'.table.pnext x = none ↔ x = e ∨ w.table.pnext x = none) ∧ Deleted w e w' :=
  del_life h he (fun _ _ => rfl) (by rw [if_neg hp, add_zero]) h.le fun _ hx => hx

/-- What a walk has not reached yet is as the walk found it. -/
structure Ahead (w₀ w : Softs) (l : List ℕ) : Prop where
  listed : ∀ x ∈ l, w₀.alloc x = true
  is : ∀ x ∈ l, w.is x = w₀.is x
  touched : ∀ x ∈ l, w.tq.tqeTouched x = w₀.tq.tqeTouched x
  linked : ∀ x ∈ l, w.table.pnext x = none → w₀.table.pnext x = none

theorem Ahead.tail {w₀ : Softs} {l : List ℕ} (h : Ahead w₀ w (e :: l)) : Ahead w₀ w l :=
  ⟨fun x hx => h.listed x (mem_cons_of_mem _ hx), fun x hx => h.is x (mem_cons_of_mem _ hx),
    fun x hx => h.touched x (mem_cons_of_mem _ hx),
    fun x hx => h.linked x (mem_cons_of_mem _ hx)⟩

/-- Deleting an entry leaves what comes after it alone. -/
theorem Ahead.del {w₀ : Softs} {l : List ℕ} (h : Ahead w₀ w (e :: l)) (hd : Deleted w e w')
    (he : e ∉ l) (hp : ∀ x ∈ l, w'.table.pnext x = none → x = e ∨ w.table.pnext x = none) : Ahead w₀ w' l := by
  have hne : ∀ x ∈ l, x ≠ e := fun x hx hxe => he (hxe ▸ hx)
  refine ⟨h.tail.listed, fun x hx => ?_, fun x hx => ?_, fun x hx hx' => ?_⟩
  · rw [hd.is x (hne x hx)]
    exact h.is x (mem_cons_of_mem _ hx)
  · rw [hd.kept.touched]
    exact h.touched x (mem_cons_of_mem _ hx)
  · exact h.linked x (mem_cons_of_mem _ hx) ((hp x hx hx').resolve_left (hne x hx))

/-- A walk through the list of all entries deletes the next one: `l₁` are the entries that stayed, `l₂`
those to come. -/
theorem del_walk {w₀ : Softs} {l₁ l₂ : List ℕ} (h : Life refs late w (l₁ ++ e :: l₂) H r L)
    (hahead : Ahead w₀ w (e :: l₂)) (hp : w.table.pnext e ≠ none) : ∃ w' n H' r' L', ipfStateDel w e = some (w', n) ∧
      Life refs late w' ((if n = 0 then l₁ else l₁ ++ [e]) ++ l₂) H' r' L' ∧ Ahead w₀ w' l₂ := by
  obtain ⟨w', n, A', H', r', L', hdel, hlife, hn, hA', -, horph, hd⟩ := del_linked h (by simp) hp
  have hnd := h.toAcc.nodup
  have hmem : ∀ x ∈ l₂, x ≠ e := by
    intro x hx hxe
    obtain ⟨hout, -⟩ := nodup_cons.1 (nodup_middle.1 hnd)
    exact hout (by rw [← hxe]; simp [hx])
  refine ⟨w', n, H', r', L', hdel, ?_, ?_⟩
  · by_cases hc : 0 < refs e
    · rw [if_pos hc] at hA'
      rw [if_neg fun hn0 => hn.1 hn0 hc, append_assoc]
      exact hA' ▸ hlife
    · rw [if_neg hc, filter_middle hnd] at hA'
      rw [if_pos (hn.2 hc)]
      exact hA' ▸ hlife
  · refine hahead.del hd (fun hx => hmem e hx rfl) fun x hx => (horph x ?_).1
    rw [hA']
    split
    · simp [hx]
    · simp [hx, hmem x hx]

section Walks

variable {w₀ : Softs} {sel : Softs → ℕ → Bool}
  (hsel : ∀ w e l, Ahead w₀ w (e :: l) → w.table.pnext e = none → sel w e = false)

include hsel

/-- **The loops of `ipf_state_flush`.** -/
theorem flushLoop_life : ∀ {l₂ : List ℕ} {i : ℕ} {w : Softs} {l₁ : List ℕ} {H : ℕ → List ℕ}
    {r : Tqid → ℤ} {L : Tqid → List ℕ}, Life refs late w (l₁ ++ l₂) H r L → Ahead w₀ w l₂ →
      l₂.length ≤ i →
    ∃ w' A' H' r' L', flushLoop sel i (lastLink (.head ()) l₁) w = some w' ∧ Life refs late w' A' H' r' L' := by
  intro l₂
  induction l₂ with
  | nil =>
    intro i w l₁ H r L h _ _
    have hg : w.list.get (lastLink (.head ()) l₁) = none := by
      have := (h.list ()).2
      rwa [append_nil] at this
    refine ⟨w, _, H, r, L, ?_, h⟩
    cases i <;> simp [flushLoop, hg]
  | cons e l₂ ih =>
    intro i w l₁ H r L h hahead hlen
    obtain ⟨i, rfl⟩ : ∃ j, i = j + 1 := ⟨i - 1, by simp at hlen; omega⟩
    have hlen' : l₂.length ≤ i := by simp at hlen; omega
    have hget := ((seg_cons l₂).1 ((seg_append l₁ (e :: l₂)).1 (h.list ())).2).1
    have hnext : lastLink (.head ()) (l₁ ++ [e]) = Link.next e := lastLink_concat l₁
    simp only [flushLoop, hget]
    by_cases hs : sel w e = true
    · have hp : w.table.pnext e ≠ none := fun hp => by
        rw [hsel w e l₂ hahead hp] at hs
        exact absurd hs (by simp)
      obtain ⟨w', n, H', r', L', hdel, hlife, hahead'⟩ := del_walk h hahead hp
      simp only [hs, if_true, hdel, bind_eq_bind, bind_some]
      by_cases hn : n = 0
      · rw [if_pos hn] at hlife ⊢
        exact ih hlife hahead' hlen'
      · -- the entry stays in the list
        rw [if_neg hn] at hlife ⊢
        rw [← hnext]
        exact ih hlife hahead' hlen'
    · rw [if_neg hs, ← hnext]
      rw [append_cons] at h
      exact ih h hahead.tail hlen'

/-- **The loop of `ipf_state_matchflush`.** -/
theorem matchflushLoop_life : ∀ {l₂ : List ℕ} {i : ℕ} {w : Softs} {l₁ : List ℕ} {H : ℕ → List ℕ}
    {r : Tqid → ℤ} {L : Tqid → List ℕ}, Life refs late w (l₁ ++ l₂) H r L → Ahead w₀ w l₂ →
      l₂.length ≤ i →
    ∃ w' A' H' r' L', matchflushLoop sel i l₂.head? w = some w' ∧ Life refs late w' A' H' r' L' := by
  intro l₂
  induction l₂ with
  | nil =>
    intro i w l₁ H r L h _ _
    refine ⟨w, _, H, r, L, ?_, h⟩
    cases i <;> rfl
  | cons e l₂ ih =>
    intro i w l₁ H r L h hahead hlen
    obtain ⟨i, rfl⟩ : ∃ j, i = j + 1 := ⟨i - 1, by simp at hlen; omega⟩
    have hlen' : l₂.length ≤ i := by simp at hlen; omega
    have hnext : w.list.next e = l₂.head? := (h.list ()).next
    simp only [head?_cons, matchflushLoop, hnext]
    by_cases hs : sel w e = true
    · have hp : w.table.pnext e ≠ none := fun hp => by
        rw [hsel w e l₂ hahead hp] at hs
        exact absurd hs (by simp)
      obtain ⟨w', n, H', r', L', hdel, hlife, hahead'⟩ := del_walk h hahead hp
      simp only [hs, if_true, hdel, bind_eq_bind, bind_some]
      exact ih hlife hahead' hlen'
    · rw [if_neg hs]
      rw [append_cons] at h
      exact ih h hahead.tail hlen'

end Walks

/-- **The loops over a timeout queue.** What is on a queue is on its chain, so these never meet an
orphan. -/
theorem queueLoop_life {visit : Softs → ℕ → Visit} {q : Tqid} : ∀ {l₂ : List ℕ} {i : ℕ} {w : Softs}
    {l₁ A : List ℕ} {H : ℕ → List ℕ} {r : Tqid → ℤ} {L : Tqid → List ℕ}, Life refs late w A H r L →
    L q = l₁ ++ l₂ → l₂.length ≤ i →
    ∃ w' A' H' r' L', queueLoop visit i l₂.head? w = some w' ∧ Life refs late w' A' H' r' L' := by
  intro l₂
  induction l₂ with
  | nil =>
    intro i w l₁ A H r L h _ _
    refine ⟨w, A, H, r, L, ?_, h⟩
    cases i <;> rfl
  | cons e l₂ ih =>
    intro i w l₁ A H r L h hq hlen
    obtain ⟨i, rfl⟩ : ∃ j, i = j + 1 := ⟨i - 1, by simp at hlen; omega⟩
    have hlen' : l₂.length ≤ i := by simp at hlen; omega
    obtain ⟨heA, hp, hpar⟩ := h.queued q e (by rw [hq]; simp)
    have hnext : w.tq.mem.next e = l₂.head? := h.ok.rep.next hq
    simp only [head?_cons, queueLoop, hnext, hpar]
    cases visit w e with
    | stop => exact ⟨w, A, H, r, L, rfl, h⟩
    | skip =>
      rw [append_cons] at hq
      exact ih h hq hlen'
    | del =>
      obtain ⟨w', n, A', H', r', L', hdel, hlife, -, -, hL', -⟩ := del_linked h heA hp
      simp only [hdel, bind_eq_bind, bind_some]
      have hq' : L' q = l₁ ++ l₂ := by
        rw [hL' q, hq]
        refine filter_middle ?_
        rw [← hq]
        exact h.ok.rep.nodup q
      exact ih hlife hq' hlen'

/-- A pass over one queue. -/
theorem queuePass_life (h : Life refs late w A H r L) (visit : Softs → ℕ → Visit) (q : Tqid) :
    ∃ w' A' H' r' L', queuePass visit w q = some w' ∧ Life refs late w' A' H' r' L' := by
  have hhead : w.tq.mem.head q = (L q).head? := (h.ok.rep q).head?
  have hlen : (L q).length ≤ w.active.toNat := by
    have hsub : L q ⊆ A := fun e he => (h.queued q e he).1
    have := (subperm_of_subset (h.ok.rep.nodup q) hsub).length_le
    rw [h.active]
    simpa using this
  unfold queuePass
  rw [hhead]
  exact queueLoop_life h (nil_append _).symm hlen

/-! ## Events that do not delete -/

/-- The table, its lists and the references stay; fields and queues may change. -/
theorem Life.frame (h : Life refs late w A H r L) (hs : Same w w')
    (his : ∀ x ∈ A, (w'.is x).isRef = (w.is x).isRef ∧ (w'.is x).isMe = (w.is x).isMe)
    {r' : Tqid → ℤ} {L' : Tqid → List ℕ} (hok : Ok r' w'.tq L')
    (hq : ∀ q, ∀ x ∈ L' q, x ∈ A ∧ w.table.pnext x ≠ none ∧ w'.tq.tqeParent x = x)
    (ho : w'.orphan = w.orphan) : Life refs late w' A H r' L' := by
  refine ⟨(h.toGood.same hs).self, hok, ?_, fun x hx => ?_, fun x hx hp => ?_, h.out, h.le, ?_, ?_⟩
  · rw [hs.table]
    exact hq
  · rw [hs.table, (his x hx).1, (his x hx).2]
    exact h.ref x hx
  · rw [hs.table] at hp
    rw [(his x hx).2]
    exact h.held x hx hp
  · rw [hs.table]
    exact h.late
  · rw [hs.table, ho]
    exact h.orphan

/-- **A reference is taken, or one of several is given back.** -/
theorem Life.recount (h : Life refs late w A H r L) (he : e ∈ A) {d : ℤ} (hne : ∀ x ≠ e, refs' x = refs x)
    (hself : (refs' e : ℤ) = refs e + d) (hp : w.table.pnext e = none → 0 < refs' e) (hle : late e ≤ refs' e) :
    Life refs' late (w.upd e fun i => { i with isRef := i.isRef + d }) A H r L := by
  have hs := same_upd w e (fun i => { i with isRef := i.isRef + d }) fun _ => rfl
  refine ⟨(h.toGood.same hs).self, h.ok, h.queued, fun x hx => ?_, fun x hx hx' => ?_,
    fun x hx => ?_, fun x => ?_, h.late, h.orphan⟩
  · have href := h.ref x hx
    by_cases hxe : x = e
    · subst hxe
      rw [upd_is_self]
      change (w.is x).isRef + d = (if w.table.pnext x = none then 0 else 1) +
        (if (w.is x).isMe = none then 0 else 1) + refs' x
      rw [href, hself]
      ring
    · rw [upd_is_ne _ _ hxe, hne x hxe]
      exact href
  · have hheld := h.held x hx hx'
    by_cases hxe : x = e
    · subst hxe
      rw [upd_is_self]
      exact ⟨hheld.1, hp hx'⟩
    · rw [upd_is_ne _ _ hxe, hne x hxe]
      exact hheld
  · rw [hne x fun hxe => hx (hxe ▸ he)]
    exact h.out x hx
  · by_cases hxe : x = e
    · subst hxe
      exact hle
    · rw [hne x hxe]
      exact h.le x

/-- Who refers to what may be counted differently. -/
theorem Life.congr (h : Life refs late w A H r L) (hr : ∀ x, refs' x = refs x)
    (hle : ∀ x, late' x ≤ refs x) (hl : ∀ x, 0 < late' x → w.table.pnext x = none) : Life refs' late' w A H r L := by
  have hfun : refs' = refs := funext hr
  subst hfun
  exact { h with le := hle, late := hl }

theorem Life.mem_of_refs (h : Life refs late w A H r L) (he : 0 < refs e) : e ∈ A := by
  by_contra hA
  rw [h.out e hA] at he
  exact absurd he (by omega)

theorem movequeue_parent {s s' : Tq Tqid ℕ} {t : ℕ} {q q' : Tqid} (h : ipfMovequeue s t e q q' = some s') :
    s'.tqeParent = s.tqeParent := by
  unfold ipfMovequeue at h
  split at h
  · cases h
    rfl
  · dsimp only at h
    split at h
    · cases h
      rfl
    · cases hp : (s.stamp t e q').mem.pnext e with
      | none => simp [hp] at h
      | some k =>
        simp only [hp, bind_eq_bind, bind_some, Option.pure_def, some.injEq] at h
        rw [← h]
        split
        · exact (deletetimeoutqueue_kept _ q).parent
        · rfl

/-- Moving an entry between queues, or putting it on one. -/
theorem toQueue_ok (h : Ok r w.tq L) (e : ℕ) (q : Tqid) (t : ℕ) :
    ∃ tq L', toQueue w e q t = some { w with tq := tq } ∧ Ok r tq L' ∧
      (∀ q', ∀ x ∈ L' q', (x = e ∧ q' = q) ∨ x ∈ L q') ∧
      (∀ x, w.tq.tqeParent x = x → tq.tqeParent x = x) ∧
      (w.tq.tqeIfq e = none → tq.tqeParent e = e) := by
  unfold toQueue
  cases hifq : w.tq.tqeIfq e with
  | none =>
    have hpar : (ipfQueueappend w.tq t e q e).tqeParent = update w.tq.tqeParent e e := rfl
    refine ⟨_, _, rfl, queueappend_ok (q := q) h hifq t e, fun q' x hx => ?_, fun x hx => ?_,
      fun _ => ?_⟩
    · by_cases hq : q' = q
      · subst hq
        rw [update_self, mem_append, mem_singleton] at hx
        exact hx.symm.imp_left fun hxe => ⟨hxe, rfl⟩
      · rw [update_of_ne hq] at hx
        exact .inr hx
    · rw [hpar]
      by_cases hxe : x = e
      · simp [hxe]
      · rwa [update_of_ne hxe]
    · rw [hpar, update_self]
  | some o =>
    obtain ⟨l₁, l₂, hl, -, -⟩ := h.split hifq
    obtain ⟨tq, h1, -, h3⟩ := movequeue_ok h q hifq hl t
    have hpar := movequeue_parent h1
    have hkeep : ∀ x, w.tq.tqeParent x = x → tq.tqeParent x = x := fun x hx => by rwa [hpar]
    simp only [h1]
    rcases h3 with rfl | ⟨-, h4, -⟩ | ⟨h4, -⟩
    · exact ⟨_, L, rfl, h, fun _ _ hx => .inr hx, hkeep, fun hc => absurd hc (by simp)⟩
    · exact ⟨tq, L, rfl, h4, fun _ _ hx => .inr hx, hkeep, fun hc => absurd hc (by simp)⟩
    · refine ⟨tq, _, rfl, h4, fun q' x hx => ?_, hkeep, fun hc => absurd hc (by simp)⟩
      have hmoved := (mem_moved q h hifq hl x q').2 hx
      by_cases hxe : x = e
      · rw [hxe, update_self, some.injEq] at hmoved
        exact .inl ⟨hxe, hmoved.symm⟩
      · rw [update_of_ne hxe, h.ifq x q'] at hmoved
        exact .inr hmoved

/-- A packet moves its entry to another queue. -/
theorem toQueue_life (h : Life refs late w A H r L) (he : e ∈ A) (hp : w.table.pnext e ≠ none) (q : Tqid) (t : ℕ) :
    ∃ w' L', toQueue w e q t = some w' ∧ Life refs late w' A H r L' := by
  obtain ⟨tq, L', heq, hok, hmem, hpar, hpar'⟩ := toQueue_ok h.ok e q t
  refine ⟨_, L', heq, h.frame (same_tq w tq) (fun _ _ => ⟨rfl, rfl⟩) hok (fun q' x hx => ?_) rfl⟩
  rcases hmem q' x hx with ⟨rfl, -⟩ | hx
  · refine ⟨he, hp, ?_⟩
    cases hifq : w.tq.tqeIfq x with
    | none => exact hpar' hifq
    | some o => exact hpar x (h.queued o x ((h.ok.ifq x o).1 hifq)).2.2
  · obtain ⟨hxA, hxp, hxpar⟩ := h.queued q' x hx
    exact ⟨hxA, hxp, hpar x hxpar⟩

/-- A new entry that is refused gives its queues back and is freed. -/
theorem refused_life (h : Life refs late w A H r L) (he : w.alloc e = false) (hf : Fresh w e w')
    (ho : w'.orphan = w.orphan) {o₁ o₂ : Option Tqid} {w'' : Softs} (hw : (w'.dropTq o₁).dropTq o₂ = w'') :
    ∃ r', Life refs late { w'' with alloc := update w''.alloc e false } A H r' L := by
  have heA : e ∉ A := fun hA => by
    rw [(h.alloc e).2 hA] at he
    exact absurd he (by simp)
  have hok₁ : Ok r w'.tq L := by rw [hf.tq]; exact h.ok
  have hok := dropTq_ok (dropTq_ok hok₁ o₁) o₂
  have hs := (same_dropTq w' o₁).trans (same_dropTq (w'.dropTq o₁) o₂)
  have hkept := (dropTq_kept w' o₁).trans (dropTq_kept (w'.dropTq o₁) o₂)
  have his : w''.is = w'.is := by rw [← hw, dropTq_is, dropTq_is]
  have horph : w''.orphan = w'.orphan := by rw [← hw, dropTq_orphan, dropTq_orphan]
  rw [hw] at hok hs hkept
  have hsame := hf.dropped he hs his
  refine ⟨_, h.frame hsame (fun x hx => ?_) hok (fun q x hx => ?_) (horph.trans ho)⟩
  · have hxe : x ≠ e := fun hxe => heA (hxe ▸ hx)
    simp only [his, hf.is x hxe, and_self]
  · obtain ⟨hxA, hxp, hxpar⟩ := h.queued q x hx
    refine ⟨hxA, hxp, ?_⟩
    simp only [hkept.parent, hf.tq]
    exact hxpar

/-- A new entry is entered with one reference, and one more if a pointer to it is saved. -/
theorem entered_life (h : Life refs late w A H r L) (heA : e ∉ A) (hnone : w.tq.tqeIfq e = none)
    (hf : Fresh w e w') (ho : w'.orphan = w.orphan)
    (href : (w'.is e).isRef = 1 + if (w'.is e).isMe = none then 0 else 1) (q : Tqid) (t : ℕ)
    (hlt : (w'.is e).isHv < w.size) : ∃ w'' H' L', toQueue (enter w' e (w'.is e).isHv) e q t = some w'' ∧
      Life refs late w'' (e :: A) H' r L' := by
  set w₁ := enter w' e (w'.is e).isHv with hw₁
  have hgood := enter_good h.toGood heA hf hlt rfl
  have hok₁ : Ok r w₁.tq L := by
    change Ok r w'.tq L
    rw [hf.tq]
    exact h.ok
  obtain ⟨tq, L', hset, hok', hmem, hpar, hpar'⟩ := toQueue_ok hok₁ e q t
  have hgood' := hgood.same (same_tq w₁ tq)
  have horph : ∀ x ∈ e :: A, w₁.table.pnext x = none ↔ x ≠ e ∧ w.table.pnext x = none :=
    fun x hx => (hgood.dead_iff hx).symm
  have hnew : w₁.table.pnext e ≠ none := fun hc => ((horph e (by simp)).1 hc).1 rfl
  have hne : ∀ x ∈ A, x ≠ e := fun x hx hxe => heA (hxe ▸ hx)
  have hold : ∀ x ∈ A, (w₁.table.pnext x = none ↔ w.table.pnext x = none) := by
    intro x hx
    rw [horph x (mem_cons_of_mem _ hx)]
    exact and_iff_right (hne x hx)
  have his : ∀ x ∈ A, w₁.is x = w.is x := fun x hx => hf.is x (hne x hx)
  refine ⟨_, _, L', hset, hgood'.self, hok', fun q x hx => ?_, fun x hx => ?_, fun x hx hp => ?_,
    fun x hx => ?_, h.le, fun x hx => ?_, ?_⟩
  · rcases hmem q x hx with ⟨rfl, -⟩ | hx
    · refine ⟨mem_cons_self, hnew, hpar' ?_⟩
      change w'.tq.tqeIfq x = none
      rw [hf.tq]
      exact hnone
    · obtain ⟨hxA, hxp, hxpar⟩ := h.queued q x hx
      refine ⟨mem_cons_of_mem _ hxA, fun hc => hxp ((hold x hxA).1 hc), hpar x ?_⟩
      change w'.tq.tqeParent x = x
      rw [hf.tq]
      exact hxpar
  · change (w₁.is x).isRef = (if w₁.table.pnext x = none then 0 else 1) +
      (if (w₁.is x).isMe = none then 0 else 1) + (refs x : ℤ)
    rcases mem_cons.1 hx with rfl | hx
    · rw [if_neg hnew, h.out x heA]
      change (w'.is x).isRef = 1 + (if (w'.is x).isMe = none then 0 else 1) + 0
      rw [href, add_zero]
    · simp only [his x hx, hold x hx]
      exact h.ref x hx
  · rcases mem_cons.1 hx with rfl | hx
    · exact absurd hp hnew
    · change (w₁.is x).isMe = none ∧ 0 < refs x
      rw [his x hx]
      exact h.held x hx ((hold x hx).1 hp)
  · exact h.out x fun hxA => hx (mem_cons_of_mem _ hxA)
  · exact (hold x (h.mem_of_refs (lt_of_lt_of_le hx (h.le x)))).2 (h.late x hx)
  · change w'.orphan = ((e :: A).countP fun x => w₁.table.pnext x = none : ℕ)
    rw [ho, h.orphan, countP_cons, decide_eq_false hnew]
    simp only [Bool.false_eq_true, if_false, add_zero, Nat.cast_inj]
    refine countP_congr fun x hx => ?_
    simpa using (hold x hx).symm

/-- **A new entry**, whether it could be inserted or not. -/
theorem add_life (h : Life refs late w A H r L) (he : w.alloc e = false) (i : Ipstate)
    (stsave : Option ℕ) (rev full : Bool) (t : ℕ) :
    ∃ w' ok A' H' r' L', addInsert (w.malloc e (i.owned stsave)) e rev full t = some (w', ok) ∧
      Life refs late w' A' H' r' L' := by
  have heA : e ∉ A := fun hA => by
    rw [(h.alloc e).2 hA] at he
    exact absurd he (by simp)
  have hnone : w.tq.tqeIfq e = none := by
    by_contra hne
    obtain ⟨q, hq⟩ := Option.ne_none_iff_exists'.1 hne
    exact heA (h.queued q e ((h.ok.ifq e q).1 hq)).1
  set hv := ((w.malloc e (i.owned stsave)).is e).isHv % (w.malloc e (i.owned stsave)).size
  set w₁ := (w.malloc e (i.owned stsave)).upd e (fun i => { i with isHv := hv }) with hw₁
  have hfresh : Fresh w e w₁ := (fresh_malloc w hnone _).upd _
  have hself : w₁.is e = { i.owned stsave with isHv := hv } := by
    rw [hw₁, upd_is_self]
    simp [Softs.malloc]
  unfold addInsert
  cases full with
  | true =>
    set w₂ := w₁.dropTq ((w₁.is e).isTqehead false) with hw₂
    have hdrops : (w₁.dropTq ((w₁.is e).isTqehead false)).dropTq ((w₂.is e).isTqehead true) =
        w₂.dropTq ((w₂.is e).isTqehead true) := by rw [hw₂]
    obtain ⟨r', hlife⟩ := refused_life h he hfresh rfl hdrops
    exact ⟨_, false, A, H, r', L, rfl, hlife⟩
  | false =>
    have href : (w₁.is e).isRef = 1 + if (w₁.is e).isMe = none then 0 else 1 := by
      rw [hself]
      cases stsave <;> rfl
    have hhv : (w₁.is e).isHv = hv := congrArg Ipstate.isHv hself
    obtain ⟨w', H', L', hset, hlife⟩ := entered_life h heA hnone hfresh rfl href
      (setqueueTarget ((enter w₁ e hv).is e) rev) t (by rw [hhv]; exact Nat.mod_lt _ h.pos)
    rw [hhv] at hset
    have hins : ipfStateInsert (w.malloc e (i.owned stsave)) e rev false t = some (w', true) := by
      change (toQueue (enter w₁ e hv) e _ t).map _ = _
      rw [hset]
      rfl
    rw [hins]
    exact ⟨w', true, e :: A, H', r, L', rfl, hlife⟩

/-! ## Every event -/

/-- The references of a system are accounted for. -/
def Sys.Live (s : Sys) : Prop := ∃ A H r L, Life s.refs s.late s.sc A H r L

variable {s : Sys} {token : ℕ}

/-- An event that changes the table only. -/
theorem Sys.Live.table {o : Option Softs} (h : ∃ w' A' H' r' L', o = some w' ∧ Life s.refs s.late w' A' H' r' L') :
    ∃ s', s.table o = some s' ∧ s'.Live := by
  obtain ⟨w', A', H', r', L', rfl, hlife⟩ := h
  exact ⟨{ s with sc := w' }, rfl, A', H', r', L', hlife⟩

theorem Life.ahead (h : Life refs late w A H r L) : Ahead w w A :=
  ⟨fun x hx => (h.alloc x).2 hx, fun _ _ => rfl, fun _ _ => rfl, fun _ _ hp => hp⟩

theorem Life.fuel (h : Life refs late w A H r L) : A.length ≤ w.active.toNat := by
  rw [h.active]
  simp

/-- A flush that selects no orphan. -/
theorem flush_life (h : Life refs late w A H r L) {sel : Softs → ℕ → Bool}
    (hsel : ∀ w' e l, Ahead w w' (e :: l) → w'.table.pnext e = none → sel w' e = false) :
    ∃ w' A' H' r' L', flushLoop sel w.active.toNat (.head ()) w = some w' ∧ Life refs late w' A' H' r' L' := by
  have hlife : Life refs late w ([] ++ A) H r L := by
    rw [nil_append]
    exact h
  exact flushLoop_life hsel hlife h.ahead h.fuel

/-- `ipf_state_remove` finds a listed entry. -/
theorem removeLoop_mem {same : Softs → ℕ → Bool} : ∀ {l : List ℕ} {i : ℕ} {k : Link Unit ℕ},
    Seg w.list k l → removeLoop same w i (w.list.get k) = some e → e ∈ l := by
  intro l
  induction l with
  | nil =>
    intro i k hs h
    have hg : w.list.get k = none := hs.2
    rw [hg] at h
    cases i <;> simp [removeLoop] at h
  | cons x l ih =>
    intro i k hs h
    obtain ⟨hk, -, hrest⟩ := (seg_cons l).1 hs
    rw [hk] at h
    cases i with
    | zero => simp [removeLoop] at h
    | succ i =>
      simp only [removeLoop] at h
      split at h
      · cases h
        exact mem_cons_self
      · exact mem_cons_of_mem _ (ih hrest h)

/-- A token moves on, or is freed, and the call takes over what it held. -/
theorem handOver_refs {is : Option ℕ} (h : s.iptData[token]? = some is) (next : Option ℕ)
    (x : ℕ) : (s.handOver token is next).refs x = s.refs x + if next = some x then 1 else 0 := by
  obtain ⟨hn, hget⟩ := List.getElem?_eq_some_iff.1 h
  have hv : (next == some x) = decide (next = some x) := by
    by_cases hv : next = some x <;> simp [hv]
  unfold Sys.handOver Sys.refs
  dsimp only
  rw [count_set hn, hget, hv]
  simp only [decide_eq_true_eq]
  cases is with
  | none =>
    simp
    omega
  | some e =>
    by_cases hx : x = e
    · subst hx
      have hpos : 0 < s.iptData.count (some x) := count_pos_iff.2 (hget ▸ getElem_mem hn)
      simp
      omega
    · have hne : e ≠ x := Ne.symm hx
      simp [hx, hne]
      omega

/-- What follows a listed entry is listed. -/
theorem Acc.next_mem (h : Acc w A H) (he : e ∈ A) {n : ℕ} (hn : w.list.next e = some n) : n ∈ A := by
  obtain ⟨l₁, l₂, hl⟩ := append_of_mem he
  rw [h.list.next (h := ()) hl] at hn
  rw [hl]
  simp [mem_of_head? hn]

theorem Life.mem_of_token (h : Life s.refs s.late w A H r L) (he : s.iptData[token]? = some (some e)) : e ∈ A := by
  have hpos : 0 < s.iptData.count (some e) := count_pos_iff.2 (mem_of_getElem? he)
  refine h.mem_of_refs ?_
  unfold Sys.refs
  omega

/-- An iterator goes to an entry that is listed. -/
theorem iterNext_spec (h : Life s.refs s.late s.sc A H r L) {is : Option ℕ} (his : s.iptData[token]? = some is) :
    ∃ next, iterNext s.sc is = some next ∧ ∀ n, next = some n → n ∈ A := by
  cases is with
  | none =>
    refine ⟨_, rfl, fun n hn => ?_⟩
    have hhead : s.sc.list.head () = A.head? := (h.list ()).head?
    rw [hhead] at hn
    exact mem_of_head? hn
  | some e =>
    have he : e ∈ A := h.mem_of_token his
    refine ⟨s.sc.list.next e, ?_, fun n hn => h.toAcc.next_mem he hn⟩
    simp [iterNext, (h.alloc e).2 he]

/-- **`ipf_state_iter`**, the part under the lock. -/
theorem iter_live (h : s.Live) (hl : token < s.iptData.length) : ∃ s', ipfStateIter s token = some s' ∧ s'.Live := by
  obtain ⟨A, H, r, L, hlife⟩ := h
  obtain ⟨is, his⟩ : ∃ is, s.iptData[token]? = some is := ⟨_, List.getElem?_eq_getElem hl⟩
  obtain ⟨next, hnext, hmem⟩ := iterNext_spec hlife his
  have hrefs : ∀ x, (({ s with sc := s.sc.take next } : Sys).handOver token is next).refs x =
      s.refs x + if next = some x then 1 else 0 := handOver_refs his next
  refine ⟨({ s with sc := s.sc.take next } : Sys).handOver token is next,
    by simp [ipfStateIter, his, hnext], A, H, r, L, ?_⟩
  cases next with
  | none =>
    refine hlife.congr (fun x => ?_) hlife.le hlife.late
    rw [hrefs x, if_neg (by simp), add_zero]
  | some n =>
    have hn := hrefs n
    rw [if_pos rfl] at hn
    refine hlife.recount (hmem n rfl) (fun x hx => ?_) ?_ (fun _ => ?_) ?_
    · rw [hrefs x, if_neg (by simpa using Ne.symm hx), add_zero]
    · rw [hn]
      push_cast
      ring
    · omega
    · have := hlife.le n
      omega

/-- **`ipf_token_deref`** frees a token. -/
theorem close_live (h : s.Live) (hl : token < s.iptData.length) : ∃ s', closeToken s token = some s' ∧ s'.Live := by
  obtain ⟨A, H, r, L, hlife⟩ := h
  obtain ⟨is, his⟩ : ∃ is, s.iptData[token]? = some is := ⟨_, List.getElem?_eq_getElem hl⟩
  refine ⟨_, by simp only [closeToken, his]; rfl, A, H, r, L, ?_⟩
  refine hlife.congr (fun x => ?_) hlife.le hlife.late
  rw [handOver_refs his none x, if_neg (by simp), add_zero]

/-- **`ipf_state_deref`**, the part under the lock of the entry. A call that finds no other reference has
an orphan. -/
theorem test_live (h : s.Live) (hl : 0 < s.held e) : ∃ s', derefTest s e = some s' ∧ s'.Live := by
  obtain ⟨A, H, r, L, hlife⟩ := h
  have hself : s.refs e = s.iptData.count (some e) + s.held e + s.late e := rfl
  have he : e ∈ A := hlife.mem_of_refs (by omega)
  have href := hlife.ref e he
  unfold derefTest
  rw [if_neg (by simp [(hlife.alloc e).2 he])]
  dsimp only
  by_cases hr : (s.sc.is e).isRef > 1
  · rw [if_pos hr]
    refine ⟨_, rfl, A, H, r, L, hlife.recount (d := -1) he (fun x hx => ?_) ?_ (fun hp => ?_) ?_⟩
    · simp [Sys.refs, hx]
    · simp only [Sys.refs, update_self]
      omega
    · simp only [Sys.refs, update_self]
      rw [if_pos hp, (hlife.held e he hp).1, if_pos rfl] at href
      omega
    · simp only [Sys.refs, update_self]
      omega
  · rw [if_neg hr]
    have hp : s.sc.table.pnext e = none := by
      by_contra hp
      rw [if_neg hp] at href
      split at href <;> omega
    refine ⟨_, rfl, A, H, r, L, hlife.congr (fun x => ?_) (fun x => ?_) (fun x hx => ?_)⟩
    · by_cases hx : x = e
      · subst hx
        simp only [Sys.refs, update_self]
        omega
      · simp [Sys.refs, hx]
    · have hle := hlife.le x
      by_cases hx : x = e
      · subst hx
        simp only [update_self]
        omega
      · simpa [hx] using hle
    · by_cases hxe : x = e
      · rw [hxe]
        exact hp
      · have hx' : 0 < update s.late e (s.late e + 1) x := hx
        rw [update_of_ne hxe] at hx'
        exact hlife.late x hx'

/-- **`ipf_state_deref`**, the rest. -/
theorem reap_live (h : s.Live) (hl : 0 < s.late e) : ∃ s', derefDel s e = some s' ∧ s'.Live := by
  obtain ⟨A, H, r, L, hlife⟩ := h
  have hself : s.refs e = s.iptData.count (some e) + s.held e + s.late e := rfl
  have he : e ∈ A := hlife.mem_of_refs (by omega)
  set late' := update s.late e (s.late e - 1) with hlate'
  set refs' := (Sys.mk s.sc s.iptData s.held late').refs with hrefs
  have hrefs' : ∀ x, refs' x = s.iptData.count (some x) + s.held x + late' x := fun _ => rfl
  have hother : ∀ x ≠ e, refs' x = s.refs x := by
    intro x hx
    rw [hrefs' x, hlate', update_of_ne hx]
    rfl
  have hdown : refs' e + (if s.sc.table.pnext e = none then 1 else 0) = s.refs e := by
    rw [hrefs' e, hlate', update_self, if_pos (hlife.late e hl)]
    omega
  have hle : ∀ x, late' x ≤ refs' x := by
    intro x
    rw [hrefs' x]
    omega
  have hlate : ∀ x, 0 < late' x → 0 < s.late x := by
    intro x hx
    by_cases hxe : x = e
    · rw [hxe]
      exact hl
    · rw [hlate', update_of_ne hxe] at hx
      exact hx
  obtain ⟨w', n, A', H', r', L', hdel, hlife', -⟩ := del_life hlife he hother hdown hle hlate
  exact ⟨_, by simp only [derefDel, hdel]; rfl, A', H', r', L', hlife'⟩

/-- **Every event** that may happen succeeds and keeps the references accounted for, when no walk deletes
an orphan. -/
theorem next_live (h : s.Live) {ev : Event} (hl : ev.Legal s) (hs : ev.Spares s) :
    ∃ s', s.next ev = some s' ∧ s'.Live := by
  have hlive := h
  obtain ⟨A, H, r, L, hlife⟩ := h
  cases ev with
  | add e i stsave rev full t =>
    obtain ⟨w', ok, A', H', r', L', heq, hlife'⟩ := add_life hlife hl i stsave rev full t
    exact Sys.Live.table ⟨w', A', H', r', L', by rw [heq]; rfl, hlife'⟩
  | remove st ps =>
    refine Sys.Live.table ?_
    unfold ipfStateRemove
    cases htgt : removeTarget s.sc st ps with
    | none => exact ⟨s.sc, A, H, r, L, rfl, hlife⟩
    | some e =>
      have he : e ∈ A := removeLoop_mem (hlife.list ()) htgt
      obtain ⟨w', n, A', H', r', L', hdel, hlife', -⟩ := del_linked hlife he (hs e htgt)
      exact ⟨w', A', H', r', L', by simp [hdel], hlife'⟩
  | flushAll proto =>
    refine Sys.Live.table (flush_life hlife fun w e l ha hp => ?_)
    have hx := mem_cons_self (a := e) (l := l)
    obtain ⟨h1, h2⟩ := hs e (ha.listed e hx) (ha.linked e hx hp)
    simp [ha.is e hx, h1, h2]
  | flushIdle which proto t =>
    refine Sys.Live.table (flush_life hlife fun w e l ha hp => ?_)
    have hx := mem_cons_self (a := e) (l := l)
    have hsp := hs e (ha.listed e hx) (ha.linked e hx hp)
    rw [← ha.is e hx, ← ha.touched e hx] at hsp
    simp only [decide_eq_false_iff_not, not_and, not_lt]
    intro hsel
    exact hsp.resolve_left fun hc => hsel.elim hc.1 hc.2
  | matchflush array =>
    refine Sys.Live.table ?_
    have hhead : s.sc.list.head () = A.head? := (hlife.list ()).head?
    unfold ipfStateMatchflush
    rw [hhead]
    have hlife' : Life s.refs s.late s.sc ([] ++ A) H r L := hlife
    refine matchflushLoop_life (fun w e l ha hp => ?_) hlife' hlife.ahead hlife.fuel
    have hx := mem_cons_self (a := e) (l := l)
    rw [ha.is e hx, ha.touched e hx]
    exact hs e (ha.listed e hx) (ha.linked e hx hp)
  | expire q t => exact Sys.Live.table (queuePass_life hlife _ q)
  | closing q => exact Sys.Live.table (queuePass_life hlife _ q)
  | closingUser q => exact Sys.Live.table (queuePass_life hlife _ q)
  | flushState which => exact Sys.Live.table (queuePass_life hlife _ _)
  | idle q since => exact Sys.Live.table (queuePass_life hlife _ q)
  | packet e q t =>
    obtain ⟨w', L', heq, hlife'⟩ := toQueue_life hlife ((hlife.alloc e).1 hl.1) hl.2 q t
    exact Sys.Live.table ⟨w', A, H, r, L', heq, hlife'⟩
  | hold e =>
    refine ⟨_, rfl, A, H, r, L, hlife.recount ((hlife.alloc e).1 hl.1) (fun x hx => ?_) ?_ (fun _ => ?_)
      ?_⟩
    · simp [Sys.refs, hx]
    · simp only [Sys.refs, update_self]
      push_cast
      ring
    · simp only [Sys.refs, update_self]
      omega
    · simp only [Sys.refs, update_self]
      omega
  | newToken =>
    refine ⟨_, rfl, A, H, r, L, hlife.congr (fun x => ?_) hlife.le hlife.late⟩
    simp [Sys.refs]
  | iter token => exact iter_live hlive hl
  | close token => exact close_live hlive hl
  | test e => exact test_live hlive hl
  | reap e => exact reap_live hlive hl

/-! ## Whole runs -/

/-- **Entries live as long as they are used.** An entry that somebody holds is not freed, one that is on
no chain and that nobody holds is, and `iss_orphan` counts those on no chain that are held. -/
def Lifetime (s : Sys) : Prop :=
  (∀ e, 0 < s.refs e → s.sc.alloc e = true) ∧
  (∀ e, s.sc.alloc e = true → s.sc.table.pnext e = none → 0 < s.refs e) ∧
  ∃ O : List ℕ, O.Nodup ∧
    (∀ e, e ∈ O ↔ s.sc.alloc e = true ∧ s.sc.table.pnext e = none ∧ 0 < s.refs e) ∧
    s.sc.orphan = O.length

theorem Sys.Live.lifetime (h : s.Live) : Lifetime s := by
  obtain ⟨A, H, r, L, hlife⟩ := h
  refine ⟨fun e he => (hlife.alloc e).2 (hlife.mem_of_refs he),
    fun e ha hp => (hlife.held e ((hlife.alloc e).1 ha) hp).2,
    A.filter (fun e => s.sc.table.pnext e = none), hlife.toAcc.nodup.filter _, fun e => ?_, ?_⟩
  · rw [mem_filter, hlife.alloc e, decide_eq_true_eq]
    exact ⟨fun he => ⟨he.1, he.2, (hlife.held e he.1 he.2).2⟩, fun he => ⟨he.1, he.2.1⟩⟩
  · rw [hlife.orphan, countP_eq_length_filter]

theorem init_live {size : ℕ} (hs : 0 < size) (is : ℕ → Ipstate) (ttl flags : Tqid → ℕ) (ref : Tqid → ℤ) :
    (Sys.init (Softs.init size is (Tq.init ttl flags ref))).Live := by
  refine ⟨[], fun _ => [], ref, fun _ => [], (init_good hs is _).self, init_ok ttl flags ref, by simp,
    by simp, by simp, fun e _ => ?_, fun e => ?_, fun e he => ?_, rfl⟩
  · simp [Sys.init, Sys.refs]
  · simp [Sys.init]
  · exact absurd he (lt_irrefl 0)

theorem events_live {s₀ : Sys} (h : s₀.Live) (hrun : Events Event.Spares s₀ s) : s.Live := by
  induction hrun with
  | init => exact h
  | step ev _ hl hs hnext ih =>
    obtain ⟨s', hnext', hlive⟩ := next_live ih hl hs
    rw [hnext] at hnext'
    cases hnext'
    exact hlive

/-- **Lifetimes over whole runs.** As long as no `SIOCDELST` and no flush of the list deletes an orphan,
entries live as long as they are used, and no event touches an entry that was freed. -/
theorem events_lifetime (is : ℕ → Ipstate) (ttl flags : Tqid → ℕ) (ref : Tqid → ℤ) {size : ℕ}
    (hs : 0 < size)
    (hrun : Events Event.Spares (Sys.init (Softs.init size is (Tq.init ttl flags ref))) s) :
    Lifetime s ∧ ∀ ev : Event, ev.Legal s → ev.Spares s → (s.next ev).isSome := by
  have hlive := events_live (init_live hs is ttl flags ref) hrun
  refine ⟨hlive.lifetime, fun ev hl hsp => ?_⟩
  obtain ⟨s', hnext, -⟩ := next_live hlive hl hsp
  rw [hnext]
  rfl

theorem events_lifetime_held :
    ∃ s, Events Event.Spares (Sys.init eightBuckets) s ∧ Lifetime s ∧ s.refs 0 = 1 ∧ s.sc.orphan = 1 := by
  have h₁ : Events Event.Spares (Sys.init eightBuckets) _ :=
    Events.step (.add 0 Ipstate.zero none false false 0) .init rfl trivial rfl
  have h₂ := Events.step .newToken h₁ trivial trivial rfl
  have h₃ := Events.step (.iter 0) h₂ (by decide : (0 : ℕ) < 1) trivial rfl
  have h₄ := Events.step (.flushAll 0) h₃ trivial ?_ rfl
  · exact ⟨_, h₄, (events_lifetime _ _ _ _ (by decide) h₄).1, rfl, rfl⟩
  · intro e he hp
    obtain rfl := eq_of_alloc he
    exact absurd hp (by decide)

/-- **The second flush frees an entry that the iterator still holds.** The first one left it in the list
as an orphan, and the second one drops the iterator's reference. -/
theorem events_not_lifetime :
    ∃ s, Events (fun _ _ => True) (Sys.init eightBuckets) s ∧ ¬Lifetime s := by
  have h₁ : Events (fun _ _ => True) (Sys.init eightBuckets) _ :=
    Events.step (.add 0 Ipstate.zero none false false 0) .init rfl trivial rfl
  have h₂ := Events.step .newToken h₁ trivial trivial rfl
  have h₃ := Events.step (.iter 0) h₂ (by decide : (0 : ℕ) < 1) trivial rfl
  have h₄ := Events.step (.flushAll 0) h₃ trivial trivial rfl
  have h₅ := Events.step (.flushAll 0) h₄ trivial trivial rfl
  refine ⟨_, h₅, fun hlt => ?_⟩
  have hfreed := hlt.1 0 (by decide)
  exact absurd hfreed (by decide)

end Ipfilter.State
