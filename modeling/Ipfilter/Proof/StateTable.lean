import Ipfilter.Chain.Buckets
import Ipfilter.Spec.State
import Ipfilter.Proof.Queue

/-!
# The accounts of the state table

`Acc w A H` says that the list of all entries is `A`, the chains of the buckets are `H`, and the
counters count them. Every edit of the table is one of the two edits of a chain, so the lemmas are

* `Acc.push`, `Acc.pull`: an entry joins a chain, or leaves it, with its counters;
* `Acc.enlist`, `Acc.unlist`: an entry joins the list of all entries, or leaves it;
* `Same`: the parts of a call that leave all this alone.

`run_accounted` puts them together for every run whose resizes find no orphan and no hash value
beyond the new size.
-/

namespace Ipfilter.State

open Chain Queue List
open Function (update update_eq_self_iff update_idem update_of_ne update_self)

/-! ## The invariant -/

/-- **The accounts of the table.** -/
structure Acc (w : Softs) (A : List ℕ) (H : ℕ → List ℕ) : Prop where
  list : Rep w.list (fun _ => A)
  table : Rep w.table H
  alloc : ∀ e, w.alloc e = true ↔ e ∈ A
  sub : ∀ h, ∀ e ∈ H h, e ∈ A
  hv : ∀ h, ∀ e ∈ H h, (w.is e).isHv = h
  lt : ∀ h, H h ≠ [] → h < w.size
  len : ∀ h, w.bucketlen h = (H h).length
  inuse : w.inuse = used w.size H
  active : w.active = A.length

/-- `w'` has the same table, list and counters as `w`. -/
structure Same (w w' : Softs) : Prop where
  list : w'.list = w.list
  table : w'.table = w.table
  size : w'.size = w.size
  bucketlen : w'.bucketlen = w.bucketlen
  inuse : w'.inuse = w.inuse
  active : w'.active = w.active
  alloc : w'.alloc = w.alloc
  hv : ∀ e, w.alloc e = true → (w'.is e).isHv = (w.is e).isHv

variable {w w' : Softs} {A : List ℕ} {H : ℕ → List ℕ} {e b : ℕ}

theorem Same.refl (w : Softs) : Same w w := ⟨rfl, rfl, rfl, rfl, rfl, rfl, rfl, fun _ _ => rfl⟩

theorem Same.trans {w'' : Softs} (h : Same w w') (h' : Same w' w'') : Same w w'' where
  list := h'.list.trans h.list
  table := h'.table.trans h.table
  size := h'.size.trans h.size
  bucketlen := h'.bucketlen.trans h.bucketlen
  inuse := h'.inuse.trans h.inuse
  active := h'.active.trans h.active
  alloc := h'.alloc.trans h.alloc
  hv e he := (h'.hv e (by rw [h.alloc]; exact he)).trans (h.hv e he)

theorem Acc.same (h : Acc w A H) (hs : Same w w') : Acc w' A H where
  list := by rw [hs.list]; exact h.list
  table := by rw [hs.table]; exact h.table
  alloc e := by rw [hs.alloc]; exact h.alloc e
  sub := h.sub
  hv b e he := (hs.hv e ((h.alloc e).2 (h.sub b e he))).trans (h.hv b e he)
  lt b hb := by rw [hs.size]; exact h.lt b hb
  len b := by rw [hs.bucketlen]; exact h.len b
  inuse := by rw [hs.inuse, hs.size]; exact h.inuse
  active := by rw [hs.active]; exact h.active

theorem same_tq (w : Softs) (tq : Tq Tqid ℕ) : Same w { w with tq := tq } :=
  ⟨rfl, rfl, rfl, rfl, rfl, rfl, rfl, fun _ _ => rfl⟩

/-- Changing fields of an entry other than its hash value. -/
theorem same_upd (w : Softs) (e : ℕ) (f : Ipstate → Ipstate)
    (hf : ∀ i, (f i).isHv = i.isHv) : Same w (w.upd e f) where
  list := rfl
  table := rfl
  size := rfl
  bucketlen := rfl
  inuse := rfl
  active := rfl
  alloc := rfl
  hv x _ := by
    by_cases hx : x = e
    · simp [Softs.upd, hx, hf]
    · simp [Softs.upd, hx]

/-! ## The edits of a chain -/

theorem Acc.notMem_of_pnext (h : Acc w A H) (hp : w.table.pnext e = none) (b : ℕ) : e ∉ H b := by
  intro he
  obtain ⟨l₁, l₂, hl⟩ := append_of_mem he
  have := h.table.pnext hl
  rw [hp] at this
  exact absurd this (by simp)

/-- An entry on a chain is on the chain of its hash value only. -/
theorem Acc.chain (h : Acc w A H) (he : e ∈ H b) (b' : ℕ) (he' : e ∈ H b') : b' = b := by
  rw [← h.hv b e he, ← h.hv b' e he']

/-- The counters when the chain at `b` becomes `l`. -/
theorem Acc.recount (h : Acc w A H) (hb : b < w.size) {l : List ℕ} {d : ℤ} (hd : (l.length : ℤ) = (H b).length + d) :
    (∀ x, w.count b d x = (update H b l x).length) ∧ used w.size (update H b l) =
        w.inuse - (if H b = [] then 0 else 1) + if l = [] then 0 else 1 := by
  constructor
  · intro x
    by_cases hx : x = b
    · rw [hx, Softs.count, update_self, update_self, h.len b, hd]
    · rw [Softs.count, update_of_ne hx, update_of_ne hx, h.len x]
  · rw [used_update hb, h.inuse]

/-- **An entry joins the front of a chain.** -/
theorem Acc.push (h : Acc w A H) (hb : b < w.size) (heA : e ∈ A) (he : ∀ b, e ∉ H b) (hhv : (w.is e).isHv = b) :
    Acc { w with
      inuse := if w.table.head b ≠ none then w.inuse else w.inuse + 1
      table := w.table.link e (.head b)
      bucketlen := w.count b 1 } A (update H b (e :: H b)) := by
  have hhead : w.table.head b = (H b).head? := by
    rw [← head_get]
    exact (h.table b).head?
  have hlink := h.table.push he b
  obtain ⟨hlen, hused⟩ := h.recount (l := e :: H b) (d := 1) hb (by simp)
  have hcases : ∀ x, ∀ y ∈ update H b (e :: H b) x, (y = e ∧ x = b) ∨ y ∈ H x := by
    intro x y hy
    by_cases hx : x = b
    · rw [hx, update_self] at hy
      rcases mem_cons.1 hy with hy | hy
      · exact .inl ⟨hy, hx⟩
      · exact .inr (hx ▸ hy)
    · rw [update_of_ne hx] at hy
      exact .inr hy
  refine ⟨h.list, hlink, h.alloc, ?_, ?_, ?_, hlen, ?_, h.active⟩
  · intro x y hy
    rcases hcases x y hy with ⟨rfl, -⟩ | hy
    · exact heA
    · exact h.sub x y hy
  · intro x y hy
    rcases hcases x y hy with ⟨rfl, rfl⟩ | hy
    · exact hhv
    · exact h.hv x y hy
  · intro x hx
    by_cases hxb : x = b
    · rw [hxb]
      exact hb
    · rw [update_of_ne hxb] at hx
      exact h.lt x hx
  · change (if w.table.head b ≠ none then w.inuse else w.inuse + 1) = used w.size _
    rw [hused, hhead]
    cases hH : H b <;> simp

/-- **An entry leaves its chain.** -/
theorem Acc.pull (h : Acc w A H) (he : e ∈ H b) {k : Link ℕ ℕ}
    (hk : w.table.pnext e = some k) {table : Mem ℕ ℕ} (ht : Removed w.table table e k) : Acc { w with
      inuse := if table.head b = none then w.inuse - 1 else w.inuse
      table := table
      bucketlen := w.count b (-1) } A (update H b ((H b).filter (· ≠ e))) := by
  obtain ⟨l₁, l₂, hl⟩ := append_of_mem he
  have hpl := h.table.pnext hl
  rw [hk, Option.some.injEq] at hpl
  have hrep := h.table.remove hl hpl ht
  have hfilter : (H b).filter (· ≠ e) = l₁ ++ l₂ := by
    have := congrFun (h.table.update_eq_filter hl) b
    rw [update_self] at this
    exact this.symm
  rw [hfilter]
  have hne : H b ≠ [] := ne_nil_of_mem he
  have hb := h.lt b hne
  obtain ⟨hlen, hused⟩ := h.recount (l := l₁ ++ l₂) (d := -1) hb (by rw [hl]; simp; ring)
  have hmem : ∀ x, ∀ y ∈ update H b (l₁ ++ l₂) x, y ∈ H x := by
    intro x y hy
    by_cases hx : x = b
    · rw [hx, update_self] at hy
      rw [hx, hl]
      simp only [mem_append, mem_cons] at hy ⊢
      tauto
    · rwa [update_of_ne hx] at hy
  have hhead : table.head b = (l₁ ++ l₂).head? := by
    have := (hrep b).head?
    rwa [update_self, head_get] at this
  refine ⟨h.list, hrep, h.alloc, fun x y hy => h.sub x y (hmem x y hy),
    fun x y hy => h.hv x y (hmem x y hy), ?_, hlen, ?_, h.active⟩
  · intro x hx
    obtain ⟨y, hy⟩ := exists_mem_of_ne_nil _ hx
    exact h.lt x (ne_nil_of_mem (hmem x y hy))
  · change (if table.head b = none then w.inuse - 1 else w.inuse) = used w.size _
    rw [hused, if_neg hne, hhead]
    cases l₁ ++ l₂ <;> simp

/-- What is on a chain after an entry left its own. -/
theorem Acc.mem_pulled (h : Acc w A H) (he : e ∈ H b) (x y : ℕ) :
    y ∈ update H b ((H b).filter (· ≠ e)) x ↔ y ≠ e ∧ y ∈ H x := by
  by_cases hx : x = b
  · simp [hx, and_comm]
  · rw [update_of_ne hx]
    refine ⟨fun hy => ⟨fun hye => ?_, hy⟩, fun hy => hy.2⟩
    rw [hye] at hy
    exact hx (h.chain he x hy)

/-- What follows an entry on its chain is on the chain too. -/
theorem Acc.next_ne (h : Acc w A H) {b x : ℕ} (he : e ∈ H b) (hx : ∀ b, x ∉ H b) : w.table.next e ≠ some x := by
  obtain ⟨l₁, l₂, hl⟩ := append_of_mem he
  rw [h.table.next hl]
  intro hh
  apply hx b
  rw [hl]
  simp [mem_of_head? hh]

/-! ## The edits of the list of all entries -/

theorem Acc.nodup (h : Acc w A H) : A.Nodup := h.list.nodup ()

theorem update_unit (l l' : List ℕ) : update (fun _ : Unit => l) () l' = fun _ => l' := by
  funext u
  cases u
  rw [update_self]

theorem filter_middle {l₁ l₂ : List ℕ} (hnd : (l₁ ++ e :: l₂).Nodup) :
    (l₁ ++ e :: l₂).filter (· ≠ e) = l₁ ++ l₂ := by
  obtain ⟨hout, -⟩ := nodup_cons.1 (nodup_middle.1 hnd)
  rw [mem_append, not_or] at hout
  have hself : ∀ l : List ℕ, e ∉ l → l.filter (· ≠ e) = l := by
    intro l hl
    refine filter_eq_self.2 fun x hx => ?_
    have hxe : x ≠ e := fun hxe => hl (hxe ▸ hx)
    simpa using hxe
  rw [filter_append, filter_cons, hself l₁ hout.1, hself l₂ hout.2]
  simp

/-- The list of all entries is `A`. -/
structure Listed (w : Softs) (A : List ℕ) : Prop where
  list : Rep w.list (fun _ => A)
  alloc : ∀ e, w.alloc e = true ↔ e ∈ A
  active : w.active = A.length

theorem Acc.listed (h : Acc w A H) : Listed w A := ⟨h.list, h.alloc, h.active⟩

/-- Other parts may change. -/
theorem Listed.congr (h : Listed w A) (h1 : w'.list = w.list) (h2 : w'.alloc = w.alloc) (h3 : w'.active = w.active) :
    Listed w' A := by
  refine ⟨?_, ?_, ?_⟩
  · rw [h1]
    exact h.list
  · rw [h2]
    exact h.alloc
  · rw [h3]
    exact h.active

/-- **A new entry joins the list.** -/
theorem Listed.enlist (h : Listed w A) (he : e ∉ A) (h1 : w'.list = w.list.link e (.head ()))
    (h2 : w'.alloc = update w.alloc e true) (h3 : w'.active = w.active + 1) : Listed w' (e :: A) := by
  have hlink := h.list.push (fun _ => he) ()
  rw [update_unit] at hlink
  refine ⟨?_, fun x => ?_, ?_⟩
  · rw [h1]
    exact hlink
  · rw [h2]
    by_cases hx : x = e
    · simp [hx]
    · simp [hx, h.alloc x]
  · rw [h3, h.active]
    simp

/-- **An entry leaves the list.** -/
theorem Listed.unlist (h : Listed w A) (heA : e ∈ A) (h1 : w'.list = w.list.cut e)
    (h2 : w'.alloc = update w.alloc e false) (h3 : w'.active = w.active - 1) : Listed w' (A.filter (· ≠ e)) := by
  obtain ⟨l₁, l₂, hl⟩ := append_of_mem heA
  have hrep := h.list.remove (h := ()) hl rfl (Mem.cut_removed _ (h.list.pnext (h := ()) hl))
  have hfilter := congrFun (h.list.update_eq_filter (h := ()) hl) ()
  rw [update_self] at hfilter
  rw [update_unit, hfilter] at hrep
  refine ⟨?_, fun x => ?_, ?_⟩
  · rw [h1]
    exact hrep
  · rw [h2]
    by_cases hx : x = e
    · simp [hx]
    · simp [hx, h.alloc x]
  · rw [h3, h.active, ← hfilter, hl]
    simp
    ring

/-- A new entry joins the list, on no chain. -/
theorem Acc.enlist (h : Acc w A H) (he : e ∉ A) {is : ℕ → Ipstate} (his : ∀ x ≠ e, is x = w.is x) : Acc { w with
      is := is
      alloc := update w.alloc e true
      list := w.list.link e (.head ())
      active := w.active + 1 } (e :: A) H := by
  have hl : Listed { w with
      is := is
      alloc := update w.alloc e true
      list := w.list.link e (.head ())
      active := w.active + 1 } (e :: A) := h.listed.enlist he rfl rfl rfl
  refine ⟨hl.list, h.table, hl.alloc, fun b x hx => mem_cons_of_mem _ (h.sub b x hx), ?_, h.lt, h.len, h.inuse,
    hl.active⟩
  intro b x hx
  have hxe : x ≠ e := fun hxe => he (hxe ▸ h.sub b x hx)
  change (is x).isHv = b
  rw [his x hxe]
  exact h.hv b x hx

/-- An entry on no chain leaves the list. -/
theorem Acc.unlist (h : Acc w A H) (heA : e ∈ A) (he : ∀ b, e ∉ H b) : Acc { w with
      list := w.list.cut e
      alloc := update w.alloc e false
      active := w.active - 1 } (A.filter (· ≠ e)) H := by
  have hl : Listed { w with
      list := w.list.cut e
      alloc := update w.alloc e false
      active := w.active - 1 } (A.filter (· ≠ e)) := h.listed.unlist heA rfl rfl rfl
  refine ⟨hl.list, h.table, hl.alloc, fun b x hx => ?_, h.hv, h.lt, h.len, h.inuse, hl.active⟩
  have hxe : x ≠ e := fun hxe => he b (hxe ▸ hx)
  simp [h.sub b x hx, hxe]

/-! ## The timeout queues -/

section Queues

variable {r : Tqid → ℤ} {L L' : Tqid → List ℕ}

/-- An entry that is on the same lists has the same `tqe_ifq`. -/
theorem ifq_eq {r' : Tqid → ℤ} {s s' : Tq Tqid ℕ} {x : ℕ} (h : Ok r s L) (h' : Ok r' s' L')
    (hx : ∀ q, x ∈ L' q ↔ x ∈ L q) : s'.tqeIfq x = s.tqeIfq x := by
  apply Option.ext
  intro q
  rw [h'.ifq x q, hx q, ← h.ifq x q]

/-- What is left alone when an entry is taken off its queue or a queue is dropped. -/
structure Kept (s s' : Tq Tqid ℕ) : Prop where
  parent : s'.tqeParent = s.tqeParent
  touched : s'.tqeTouched = s.tqeTouched

theorem Kept.trans {s s' s'' : Tq Tqid ℕ} (h : Kept s s') (h' : Kept s' s'') : Kept s s'' :=
  ⟨h'.parent.trans h.parent, h'.touched.trans h.touched⟩

theorem deletetimeoutqueue_kept (s : Tq Tqid ℕ) (q : Tqid) : Kept s (ipfDeletetimeoutqueue s q) := by
  unfold ipfDeletetimeoutqueue
  dsimp only
  split <;> exact ⟨rfl, rfl⟩

theorem deletequeueentry_kept {s s' : Tq Tqid ℕ} {e : ℕ} (h : ipfDeletequeueentry s e = some s') : Kept s s' := by
  unfold ipfDeletequeueentry at h
  cases hifq : s.tqeIfq e with
  | none => simp [hifq] at h
  | some q =>
    simp only [hifq, Option.some.injEq] at h
    rw [← h]
    refine Kept.trans ?_ (deletetimeoutqueue_kept _ q)
    cases s.mem.pnext e <;> exact ⟨rfl, rfl⟩

/-- An entry leaves its timeout queue, if it is on one. -/
theorem unqueue_ok (h : Ok r w.tq L) (e : ℕ) : ∃ tq L', unqueue w e = some { w with tq := tq } ∧
    Ok r tq L' ∧ tq.tqeIfq e = none ∧ (∀ x ≠ e, tq.tqeIfq x = w.tq.tqeIfq x) ∧
    (∀ q, L' q = (L q).filter (· ≠ e)) ∧ Kept w.tq tq := by
  cases hifq : w.tq.tqeIfq e with
  | none =>
    refine ⟨w.tq, L, by simp [unqueue, hifq], h, hifq, fun _ _ => rfl, fun q => ?_, ⟨rfl, rfl⟩⟩
    have hfresh := h.fresh hifq q
    rw [filter_eq_self.2]
    intro x hx
    have hxe : x ≠ e := fun hxe => hfresh (hxe ▸ hx)
    simpa using hxe
  | some q =>
    obtain ⟨l₁, l₂, hl, -, -⟩ := h.split hifq
    obtain ⟨tq, h1, h2, -, -⟩ := deletequeueentry_ok h hifq hl
    rw [h.rep.update_eq_filter hl] at h2
    refine ⟨tq, _, by simp [unqueue, hifq, h1], h2, ?_, fun x hx => ?_, fun _ => rfl,
      deletequeueentry_kept h1⟩
    · cases htq : tq.tqeIfq e with
      | none => rfl
      | some q' =>
        have := (h2.ifq e q').1 htq
        simp at this
    · refine ifq_eq h h2 fun q' => ?_
      simp [hx]

/-- `ipf_state_setqueue` of an entry leaves it on the queue it chose. -/
theorem setqueue_ok (h : Ok r w.tq L) (e : ℕ) (rev : Bool) (t : ℕ) :
    ∃ tq L', ipfStateSetqueue w e rev t = some { w with tq := tq } ∧ Ok r tq L' ∧
      (∀ x ≠ e, tq.tqeIfq x = w.tq.tqeIfq x) := by
  unfold ipfStateSetqueue
  cases hifq : w.tq.tqeIfq e with
  | none =>
    have hok := queueappend_ok (q := setqueueTarget (w.is e) rev) h hifq t e
    refine ⟨_, _, rfl, hok, fun x hx => ?_⟩
    simp [ipfQueueappend, Tq.stamp, Tq.linkTail, hx]
  | some q =>
    obtain ⟨l₁, l₂, hl, -, -⟩ := h.split hifq
    obtain ⟨tq, h1, -, h3⟩ := movequeue_ok h (setqueueTarget (w.is e) rev) hifq hl t
    simp only [h1]
    rcases h3 with rfl | ⟨-, h4, -⟩ | ⟨h4, -⟩
    · exact ⟨_, L, rfl, h, fun _ _ => rfl⟩
    · exact ⟨tq, L, rfl, h4, fun x _ => ifq_eq h h4 fun _ => Iff.rfl⟩
    · refine ⟨tq, _, rfl, h4, fun x hx => ifq_eq h h4 fun q' => ?_⟩
      have := mem_moved (setqueueTarget (w.is e) rev) h hifq hl x q'
      rw [update_of_ne hx, h.ifq x q'] at this
      exact this.symm

/-- Dropping one reference to a queue. -/
theorem deletetimeoutqueue_ok {s : Tq Tqid ℕ} (h : Ok r s L) (q : Tqid) :
    Ok (update r q (r q - 1)) (ipfDeletetimeoutqueue s q) L := by
  refine ⟨?_, fun q' => ?_, fun x q' => ?_, fun q' => ?_⟩
  · simp only [deletetimeoutqueue_mem]
    exact h.rep
  · simp only [deletetimeoutqueue_tail]
    exact h.tail q'
  · simp only [deletetimeoutqueue_ifq]
    exact h.ifq x q'
  · rw [deletetimeoutqueue_ref]
    by_cases hq : q' = q
    · rw [hq, update_self, update_self, h.ref q]
      ring
    · rw [update_of_ne hq, update_of_ne hq, h.ref q']

end Queues

/-! ## The parts of `ipf_state_del` -/

theorem Same.upd (h : Same w w') {f : Ipstate → Ipstate} (hf : ∀ i, (f i).isHv = i.isHv) : Same w (w'.upd e f) :=
  h.trans (same_upd w' e f hf)

theorem same_unwild (w : Softs) (e : ℕ) : Same w (unwild w e) := by
  unfold unwild
  dsimp only
  split
  · refine Same.upd ?_ ?_
    · split <;> exact ⟨rfl, rfl, rfl, rfl, rfl, rfl, rfl, fun _ _ => rfl⟩
    · exact fun _ => rfl
  · exact Same.refl w

theorem same_unref (w : Softs) (e : ℕ) : Same w (unref w e) := by
  unfold unref
  cases hme : (w.is e).isMe with
  | none => exact same_upd w e _ fun _ => rfl
  | some m =>
    have h := same_upd w e (fun i => { i with isMe := none, isRef := i.isRef - 1 }) fun _ => rfl
    dsimp only
    refine Same.upd ?_ ?_
    · exact ⟨h.list, h.table, h.size, h.bucketlen, h.inuse, h.active, h.alloc, h.hv⟩
    · exact fun _ => rfl

theorem same_dropTq (w : Softs) (o : Option Tqid) : Same w (w.dropTq o) := by
  cases o with
  | none => exact Same.refl w
  | some q =>
    simp only [Softs.dropTq]
    split
    · unfold ipfFreetimeoutqueue
      split <;> exact ⟨rfl, rfl, rfl, rfl, rfl, rfl, rfl, fun _ _ => rfl⟩
    · exact ⟨rfl, rfl, rfl, rfl, rfl, rfl, rfl, fun _ _ => rfl⟩

theorem unwild_tq (w : Softs) (e : ℕ) : (unwild w e).tq = w.tq := by
  unfold unwild
  dsimp only
  split
  · split <;> rfl
  · rfl

theorem unref_tq (w : Softs) (e : ℕ) : (unref w e).tq = w.tq := by
  unfold unref
  dsimp only
  cases (w.is e).isMe <;> rfl

theorem unhash_tq (w : Softs) (e : ℕ) : (unhash w e).1.tq = w.tq := by
  unfold unhash
  cases w.table.pnext e <;> rfl

theorem dropTq_tq (w : Softs) (q : Tqid) : (w.dropTq (some q)).tq = ipfDeletetimeoutqueue w.tq q := by
  simp only [Softs.dropTq]
  split
  · unfold ipfFreetimeoutqueue
    split <;> rfl
  · rfl

theorem dropTq_kept (w : Softs) (o : Option Tqid) : Kept w.tq (w.dropTq o).tq := by
  cases o with
  | none => exact ⟨rfl, rfl⟩
  | some q =>
    rw [dropTq_tq]
    exact deletetimeoutqueue_kept w.tq q

/-- Dropping the reference of a slot changes no list of a queue. -/
theorem dropTq_ok {r : Tqid → ℤ} {L : Tqid → List ℕ} (h : Ok r w.tq L) (o : Option Tqid) :
    Ok (fun q => r q - if o = some q then 1 else 0) (w.dropTq o).tq L := by
  cases o with
  | none => simpa [Softs.dropTq] using h
  | some q =>
    have hr : (fun q' => r q' - if some q = some q' then 1 else 0) =
        update r q (r q - 1) := by
      funext q'
      by_cases hq : q' = q
      · simp [hq]
      · simp [hq, Ne.symm hq]
    rw [dropTq_tq, hr]
    exact deletetimeoutqueue_ok h q

theorem upd_is_ne (w : Softs) (f : Ipstate → Ipstate) {x : ℕ} (hx : x ≠ e) : (w.upd e f).is x = w.is x := by
  simp [Softs.upd, hx]

theorem upd_is_self (w : Softs) (f : Ipstate → Ipstate) : (w.upd e f).is e = f (w.is e) := by
  simp [Softs.upd]

theorem unwild_is_ne (w : Softs) {x : ℕ} (hx : x ≠ e) : (unwild w e).is x = w.is x := by
  unfold unwild
  dsimp only
  split
  · rw [upd_is_ne _ _ hx]
    split <;> rfl
  · rfl

/-- What `ipf_state_del` takes from `iss_wild` for an entry. -/
def Ipstate.wildCount (i : Ipstate) : ℤ :=
  if i.isFlags &&& (SI_WILDP ||| SI_WILDA) ≠ 0 ∧ i.isFlags &&& SI_CLONED = 0 then 1 else 0

theorem unwild_is_self (w : Softs) (e : ℕ) : ∃ flags, (unwild w e).is e = { w.is e with isFlags := flags } ∧
      flags &&& (SI_WILDP ||| SI_WILDA) = 0 := by
  unfold unwild
  dsimp only
  split
  · have hclear : (w.is e).isFlags &&& ~~~(SI_WILDP ||| SI_WILDA) &&& (SI_WILDP ||| SI_WILDA) = 0 := by
      rw [BitVec.and_assoc, BitVec.not_and_self]
      exact BitVec.and_zero
    rw [upd_is_self]
    split <;> exact ⟨_, rfl, hclear⟩
  · rename_i h
    exact ⟨_, rfl, not_not.1 h⟩

theorem unwild_wild (w : Softs) (e : ℕ) : (unwild w e).wild = w.wild - (w.is e).wildCount := by
  unfold unwild Ipstate.wildCount
  dsimp only
  by_cases hw : (w.is e).isFlags &&& (SI_WILDP ||| SI_WILDA) ≠ 0
  · by_cases hc : (w.is e).isFlags &&& SI_CLONED = 0
    · rw [if_pos hw, if_pos hc, if_pos ⟨hw, hc⟩]
      rfl
    · rw [if_pos hw, if_neg hc, if_neg fun h => hc h.2, sub_zero]
      rfl
  · rw [if_neg hw, if_neg fun h => hw h.1, sub_zero]

theorem unwild_orphan (w : Softs) (e : ℕ) : (unwild w e).orphan = w.orphan := by
  unfold unwild
  dsimp only
  split
  · split <;> rfl
  · rfl

theorem unhash_is (w : Softs) (e : ℕ) : (unhash w e).1.is = w.is := by
  unfold unhash
  cases w.table.pnext e <;> rfl

theorem unhash_wild (w : Softs) (e : ℕ) : (unhash w e).1.wild = w.wild := by
  unfold unhash
  cases w.table.pnext e <;> rfl

theorem unhash_orphan (w : Softs) (e : ℕ) :
    (unhash w e).1.orphan = w.orphan ∧ ((unhash w e).2 = true ↔ w.table.pnext e = none) := by
  unfold unhash
  cases w.table.pnext e <;> simp

theorem unref_is_ne (w : Softs) {x : ℕ} (hx : x ≠ e) : (unref w e).is x = w.is x := by
  unfold unref
  dsimp only
  rw [upd_is_ne _ _ hx]
  cases (w.is e).isMe with
  | none => rfl
  | some m => exact upd_is_ne w (fun i => { i with isMe := none, isRef := i.isRef - 1 }) hx

theorem unref_wild (w : Softs) (e : ℕ) : (unref w e).wild = w.wild := by
  unfold unref
  dsimp only
  cases (w.is e).isMe <;> rfl

theorem unref_orphan (w : Softs) (e : ℕ) : (unref w e).orphan = w.orphan := by
  unfold unref
  dsimp only
  cases (w.is e).isMe <;> rfl

/-- The references left when `ipf_state_del` has dropped those of the table and of `is_me`. -/
def Ipstate.left (i : Ipstate) : ℤ := i.isRef - (if i.isMe = none then 0 else 1) - 1

theorem unref_is_self (w : Softs) (e : ℕ) :
    (unref w e).is e = { w.is e with isMe := none, isRef := (w.is e).left } := by
  unfold unref Ipstate.left
  dsimp only
  rw [upd_is_self]
  cases hme : (w.is e).isMe with
  | none =>
    dsimp only
    rw [if_pos rfl, sub_zero, ← hme]
  | some m =>
    dsimp only
    rw [upd_is_self, if_neg (by simp)]

theorem dropTq_is (w : Softs) (o : Option Tqid) : (w.dropTq o).is = w.is := by
  cases o with
  | none => rfl
  | some q =>
    simp only [Softs.dropTq]
    split
    · unfold ipfFreetimeoutqueue
      split <;> rfl
    · rfl

theorem dropTq_wild (w : Softs) (o : Option Tqid) : (w.dropTq o).wild = w.wild := by
  cases o with
  | none => rfl
  | some q =>
    simp only [Softs.dropTq]
    split
    · unfold ipfFreetimeoutqueue
      split <;> rfl
    · rfl

theorem dropTq_orphan (w : Softs) (o : Option Tqid) : (w.dropTq o).orphan = w.orphan := by
  cases o with
  | none => rfl
  | some q =>
    simp only [Softs.dropTq]
    split
    · unfold ipfFreetimeoutqueue
      split <;> rfl
    · rfl

/-- The table just before `ipf_state_del` looks at the references left. -/
def Softs.doomed (w : Softs) (e : ℕ) (tq : Tq Tqid ℕ) : Softs :=
  unref { unwild (unhash w e).1 e with tq := tq } e

theorem same_doomed (w : Softs) (e : ℕ) (tq : Tq Tqid ℕ) : Same (unhash w e).1 (w.doomed e tq) := by
  have h1 := same_unwild (unhash w e).1 e
  have h2 : Same (unwild (unhash w e).1 e) { unwild (unhash w e).1 e with tq := tq } :=
    ⟨rfl, rfl, rfl, rfl, rfl, rfl, rfl, fun _ _ => rfl⟩
  exact (h1.trans h2).trans (same_unref _ e)

/-- **`ipf_state_del`**, with the queue part done. -/
theorem del_eq {r : Tqid → ℤ} {L : Tqid → List ℕ} (h : Ok r w.tq L) (ha : w.alloc e = true) :
    ∃ tq L', Ok r tq L' ∧ tq.tqeIfq e = none ∧ (∀ x ≠ e, tq.tqeIfq x = w.tq.tqeIfq x) ∧
      (∀ q, L' q = (L q).filter (· ≠ e)) ∧ Kept w.tq tq ∧ ipfStateDel w e = if ((w.doomed e tq).is e).isRef > 0 then
          some ({ w.doomed e tq with orphan := if (unhash w e).2 then (w.doomed e tq).orphan
              else (w.doomed e tq).orphan + 1 }, ((w.doomed e tq).is e).isRef)
        else some (release (w.doomed e tq) e (unhash w e).2, 0) := by
  have htq : (unwild (unhash w e).1 e).tq = w.tq := by rw [unwild_tq, unhash_tq]
  obtain ⟨tq, L', h1, h2, h3, h4, h5, h6⟩ :=
    unqueue_ok (w := unwild (unhash w e).1 e) (htq ▸ h) e
  rw [htq] at h4 h6
  refine ⟨tq, L', h2, h3, h4, h5, h6, ?_⟩
  unfold ipfStateDel
  rw [if_neg (by simp [ha])]
  simp only [h1, Option.bind_eq_bind, Option.bind_some]
  unfold Softs.doomed
  split <;> rfl

/-! ## Runs -/

/-- What callers see to: an entry is inserted once, the others are in the table, and one that is moved
was found on its chain. The tuneable keeps the new size positive. -/
def Legal (w : Softs) : Op → Prop
  | .insert e _ _ _ _ => w.alloc e = false
  | .del e | .hold e | .deref e => w.alloc e = true
  | .move e _ => w.alloc e = true ∧ w.table.pnext e ≠ none
  | .rehash newsize _ => 0 < newsize

/-- The entries that `ipf_state_del` was called for since they were inserted. -/
def deadAfter (w : Softs) (dead : ℕ → Prop) : Op → ℕ → Prop
  | .insert e _ _ _ _, x => x ≠ e ∧ dead x
  | .del e, x => x = e ∨ dead x
  | .deref e, x => (x = e ∧ (w.is e).isRef ≤ 1) ∨ dead x
  | _, x => dead x

/-- A resize that leaves the accounts right: no deleted entry is still listed, and every stored hash
value is below the new size. -/
def Clean (w : Softs) (dead : ℕ → Prop) : Op → Prop
  | .rehash newsize nomem => newsize = w.size ∨ nomem = true ∨
      ∀ e, w.alloc e = true → ¬dead e ∧ (w.is e).isHv < newsize
  | _ => True

/-- The runs from `w₀` whose steps all meet `ok`. -/
inductive Run (ok : Softs → (ℕ → Prop) → Op → Prop) (seed : ℕ → ℕ) (w₀ : Softs) :
    (ℕ → Prop) → Softs → Prop
  | init : Run ok seed w₀ (fun _ => False) w₀
  | step {dead : ℕ → Prop} {w w' : Softs} (op : Op) : Run ok seed w₀ dead w → Legal w op →
      ok w dead op → step seed w op = some w' → Run ok seed w₀ (deadAfter w dead op) w'

/-- The accounts, with the entries that `dead` names on no chain. -/
structure Good (dead : ℕ → Prop) (w : Softs) (A : List ℕ) (H : ℕ → List ℕ) : Prop
    extends Acc w A H where
  live : ∀ e ∈ A, ¬dead e → e ∈ H (w.is e).isHv
  gone : ∀ e ∈ A, dead e → w.table.pnext e = none
  pos : 0 < w.size

/-- The timeout queues are in order, and only entries in the table are on them. -/
def Queued (w : Softs) : Prop :=
  ∃ r L, Ok r w.tq L ∧ ∀ e, w.tq.tqeIfq e ≠ none → w.alloc e = true

variable {dead : ℕ → Prop}

theorem Good.same (h : Good dead w A H) (hs : Same w w') : Good dead w' A H where
  toAcc := h.toAcc.same hs
  live e he hd := by rw [hs.hv e ((h.alloc e).2 he)]; exact h.live e he hd
  gone e he hd := by rw [hs.table]; exact h.gone e he hd
  pos := by rw [hs.size]; exact h.pos

theorem Good.congr {dead' : ℕ → Prop} (h : Good dead w A H) (hd : ∀ e ∈ A, dead e ↔ dead' e) : Good dead' w A H :=
  ⟨h.toAcc, fun e he hde => h.live e he fun hd' => hde ((hd e he).1 hd'),
    fun e he hde => h.gone e he ((hd e he).2 hde), h.pos⟩

theorem Good.notMem (h : Good dead w A H) (he : e ∈ A) (hd : dead e) (b : ℕ) : e ∉ H b :=
  h.toAcc.notMem_of_pnext (h.gone e he hd) b

/-- Taking an entry off its chain, if it is on one. -/
theorem unhash_acc (h : Good dead w A H) (he : e ∈ A) :
    ∃ H', Acc (unhash w e).1 A H' ∧ (∀ b, e ∉ H' b) ∧ (∀ x ≠ e, ∀ b, x ∈ H' b ↔ x ∈ H b) ∧
      (unhash w e).1.table.pnext e = none ∧
      (∀ x, (∀ b, x ∉ H b) → x ≠ e → (unhash w e).1.table.pnext x = w.table.pnext x) := by
  cases hp : w.table.pnext e with
  | none =>
    refine ⟨H, ?_, h.toAcc.notMem_of_pnext hp, fun _ _ _ => Iff.rfl, ?_, fun _ _ _ => ?_⟩
    · simpa [unhash, hp] using h.toAcc
    · simp [unhash, hp]
    · simp [unhash, hp]
  | some k =>
    have hnd : ¬dead e := fun hd => by
      rw [h.gone e he hd] at hp
      exact absurd hp (by simp)
    have hmem := h.live e he hnd
    have hcut := Mem.cut_removed w.table hp
    have hpulled := h.toAcc.mem_pulled hmem
    refine ⟨update H (w.is e).isHv ((H (w.is e).isHv).filter (· ≠ e)), ?_,
      fun b hb => ((hpulled b e).1 hb).1 rfl, fun x hx b => ?_, ?_, fun x hx hxe => ?_⟩
    · simpa [unhash, hp] using h.toAcc.pull hmem hp hcut
    · rw [hpulled b x]
      exact and_iff_right hx
    · simp [unhash, hp, Mem.cut]
    · simpa [unhash, hp] using hcut.pnext x (h.toAcc.next_ne hmem hx) hxe

theorem unhash_size (w : Softs) (e : ℕ) : (unhash w e).1.size = w.size := by
  unfold unhash
  cases w.table.pnext e <;> rfl

/-- An entry on its way out is on no chain. -/
theorem doomed_good (h : Good dead w A H) (he : e ∈ A) (tq : Tq Tqid ℕ) :
    ∃ H', Good (fun x => x = e ∨ dead x) (w.doomed e tq) A H' ∧ ∀ b, e ∉ H' b := by
  obtain ⟨H', hacc, hout, hin, hpn, hpo⟩ := unhash_acc h he
  have hsame := same_doomed w e tq
  refine ⟨H', ⟨hacc.same hsame, fun x hx hd => ?_, fun x hx hd => ?_, ?_⟩, hout⟩
  · rw [hsame.hv x ((hacc.alloc x).2 hx), unhash_is, hin x (fun hxe => hd (.inl hxe))]
    exact h.live x hx fun hdx => hd (.inr hdx)
  · rw [hsame.table]
    by_cases hxe : x = e
    · rw [hxe]
      exact hpn
    · have hdx := hd.resolve_left hxe
      rw [hpo x (h.notMem hx hdx) hxe]
      exact h.gone x hx hdx
  · rw [hsame.size, unhash_size]
    exact h.pos

/-- Freeing an entry that is on no chain. -/
theorem release_good (h : Good dead w A H) (he : e ∈ A) (hout : ∀ b, e ∉ H b) (orphan : Bool) :
    Good dead (release w e orphan) (A.filter (· ≠ e)) H := by
  set w₁ := w.dropTq ((w.is e).isTqehead false)
  set w₂ := w₁.dropTq ((w₁.is e).isTqehead true)
  have hg : Good dead w₂ A H := (h.same (same_dropTq _ _)).same (same_dropTq _ _)
  have hul := hg.toAcc.unlist he hout
  have hs : Same { w₂ with
        list := w₂.list.cut e
        alloc := update w₂.alloc e false
        active := w₂.active - 1 } (release w e orphan) :=
    ⟨rfl, rfl, rfl, rfl, rfl, rfl, rfl, fun _ _ => rfl⟩
  refine Good.same ⟨hul, fun x hx hd => ?_, fun x hx hd => ?_, hg.pos⟩ hs
  · exact hg.live x (mem_of_mem_filter hx) hd
  · exact hg.gone x (mem_of_mem_filter hx) hd

/-- What `ipf_state_del` does beside the accounts. -/
structure Deleted (w : Softs) (e : ℕ) (w' : Softs) : Prop where
  is : ∀ x ≠ e, w'.is x = w.is x
  ref : 0 < (w.is e).left → (w'.is e).isRef = (w.is e).left ∧ (w'.is e).isMe = none
  slots : (w'.is e).isTqehead = (w.is e).isTqehead
  flags : (w'.is e).isFlags &&& (SI_WILDP ||| SI_WILDA) = 0
  wild : w'.wild = w.wild - (w.is e).wildCount
  orphan : w'.orphan = w.orphan + (if 0 < (w.is e).left then 1 else 0) -
    (if w.table.pnext e = none then 1 else 0)
  kept : Kept w.tq w'.tq

/-- How often an entry's slots refer to a queue. -/
def Ipstate.slots (i : Ipstate) (q : Tqid) : ℤ :=
  (if i.isTqehead false = some q then 1 else 0) + if i.isTqehead true = some q then 1 else 0

theorem doomed_is (w : Softs) (e : ℕ) (tq : Tq Tqid ℕ) : (∀ x ≠ e, (w.doomed e tq).is x = w.is x) ∧
      ((w.doomed e tq).is e).isRef = (w.is e).left ∧ ((w.doomed e tq).is e).isMe = none ∧
      ((w.doomed e tq).is e).isTqehead = (w.is e).isTqehead ∧
      ((w.doomed e tq).is e).isFlags &&& (SI_WILDP ||| SI_WILDA) = 0 := by
  obtain ⟨flags, hflags, hwild⟩ := unwild_is_self (unhash w e).1 e
  rw [unhash_is] at hflags
  unfold Softs.doomed
  refine ⟨fun x hx => ?_, ?_, ?_, ?_, ?_⟩
  · rw [unref_is_ne _ hx]
    change (unwild (unhash w e).1 e).is x = w.is x
    rw [unwild_is_ne _ hx, unhash_is]
  · rw [unref_is_self]
    change ((unwild (unhash w e).1 e).is e).left = _
    rw [hflags]
    rfl
  · rw [unref_is_self]
  · rw [unref_is_self]
    change ((unwild (unhash w e).1 e).is e).isTqehead = _
    rw [hflags]
  · rw [unref_is_self]
    change ((unwild (unhash w e).1 e).is e).isFlags &&& _ = 0
    rw [hflags]
    exact hwild

theorem doomed_orphan (w : Softs) (e : ℕ) (tq : Tq Tqid ℕ) : (w.doomed e tq).orphan = w.orphan := by
  unfold Softs.doomed
  rw [unref_orphan]
  change (unwild (unhash w e).1 e).orphan = _
  rw [unwild_orphan, (unhash_orphan w e).1]

theorem doomed_wild (w : Softs) (e : ℕ) (tq : Tq Tqid ℕ) : (w.doomed e tq).wild = w.wild - (w.is e).wildCount := by
  unfold Softs.doomed
  rw [unref_wild]
  change (unwild (unhash w e).1 e).wild = _
  rw [unwild_wild, unhash_wild, unhash_is]

theorem doomed_tq (w : Softs) (e : ℕ) (tq : Tq Tqid ℕ) : (w.doomed e tq).tq = tq := by
  unfold Softs.doomed
  rw [unref_tq]

/-- The queues after an entry is freed: its slots no longer count. -/
theorem release_ok {r : Tqid → ℤ} {L : Tqid → List ℕ} (h : Ok r w'.tq L) {i : Ipstate}
    (hslots : (w'.is e).isTqehead = i.isTqehead) {orphan : Bool} :
    Ok (fun q => r q - i.slots q) (release w' e orphan).tq L := by
  have h₂ := dropTq_ok (dropTq_ok h ((w'.is e).isTqehead false))
    (((w'.dropTq ((w'.is e).isTqehead false)).is e).isTqehead true)
  rw [dropTq_is, hslots] at h₂
  have hfun : (fun q => r q - i.slots q) = fun q => (r q - if i.isTqehead false = some q then 1 else 0) -
      if i.isTqehead true = some q then 1 else 0 := by
    funext q
    rw [Ipstate.slots]
    ring
  rw [hfun]
  simp only [release, dropTq_is, hslots]
  exact h₂

/-- **`ipf_state_del`**: the entry is on no chain and no queue any more, and is freed if that was its
last reference. -/
theorem del_spec {r : Tqid → ℤ} {L : Tqid → List ℕ} (h : Good dead w A H) (hok : Ok r w.tq L) (he : e ∈ A) :
    ∃ w' n H' L', ipfStateDel w e = some (w', n) ∧ (n = 0 ↔ ¬0 < (w.is e).left) ∧
      Good (fun x => x = e ∨ dead x) w' (if 0 < (w.is e).left then A else A.filter (· ≠ e)) H' ∧
      Ok (fun q => r q - if 0 < (w.is e).left then 0 else (w.is e).slots q) w'.tq L' ∧
      (∀ q, L' q = (L q).filter (· ≠ e)) ∧ Deleted w e w' := by
  obtain ⟨tq, L', hok', -, -, hL, hkept, heq⟩ := del_eq hok ((h.alloc e).2 he)
  obtain ⟨H', hgood, hout⟩ := doomed_good h he tq
  obtain ⟨his, href, hme, hslots, hflags⟩ := doomed_is w e tq
  have hwild := doomed_wild w e tq
  obtain ⟨-, horph⟩ := unhash_orphan w e
  have htq := doomed_tq w e tq
  rw [← htq] at hok' hkept
  rw [heq, href]
  by_cases hleft : 0 < (w.is e).left
  · -- references are left: the entry stays in the list as an orphan
    rw [if_pos hleft]
    simp only [if_pos hleft, sub_zero]
    refine ⟨_, _, H', L', rfl, by omega, ?_, hok', hL, his, fun _ => ⟨href, hme⟩, hslots,
      hflags, hwild, ?_, hkept⟩
    · exact hgood.same ⟨rfl, rfl, rfl, rfl, rfl, rfl, rfl, fun _ _ => rfl⟩
    · change (if (unhash w e).2 then (w.doomed e tq).orphan else (w.doomed e tq).orphan + 1) = _
      rw [doomed_orphan, if_pos hleft]
      by_cases hp : w.table.pnext e = none
      · rw [if_pos (horph.2 hp), if_pos hp]
        ring
      · rw [if_neg fun hc => hp (horph.1 hc), if_neg hp]
        ring
  · -- the last reference: the entry is freed
    rw [if_neg hleft]
    simp only [if_neg hleft]
    refine ⟨_, _, H', L', rfl, by omega, release_good hgood he hout _, release_ok hok' hslots, hL,
      fun x hx => ?_, fun hc => absurd hc hleft, ?_, ?_, ?_, ?_, ?_⟩
    · change ((Softs.dropTq _ _).is) x = _
      rw [dropTq_is, dropTq_is]
      exact his x hx
    · change ((Softs.dropTq _ _).is e).isTqehead = _
      rw [dropTq_is, dropTq_is]
      exact hslots
    · change ((Softs.dropTq _ _).is e).isFlags &&& _ = 0
      rw [dropTq_is, dropTq_is]
      exact hflags
    · change (Softs.dropTq _ _).wild = _
      rw [dropTq_wild, dropTq_wild]
      exact hwild
    · change (if (unhash w e).2 then (Softs.dropTq _ _).orphan - 1 else (Softs.dropTq _ _).orphan) = _
      rw [dropTq_orphan, dropTq_orphan, doomed_orphan, if_neg hleft]
      by_cases hp : w.table.pnext e = none
      · rw [if_pos (horph.2 hp), if_pos hp]
        ring
      · rw [if_neg fun hc => hp (horph.1 hc), if_neg hp]
        ring
    · exact (hkept.trans (dropTq_kept _ _)).trans (dropTq_kept _ _)

/-- **`ipf_state_del`** keeps the accounts. -/
theorem del_good (h : Good dead w A H) (hq : Queued w) (he : e ∈ A) : ∃ w' n A' H', ipfStateDel w e = some (w', n) ∧
      Good (fun x => x = e ∨ dead x) w' A' H' ∧ Queued w' := by
  obtain ⟨r, L, hok, hifq⟩ := hq
  obtain ⟨w', n, H', L', hdel, -, hgood, hok', hL, -⟩ := del_spec h hok he
  refine ⟨w', n, _, H', hdel, hgood, _, L', hok', fun x hx => ?_⟩
  obtain ⟨q, hq⟩ := Option.ne_none_iff_exists'.1 hx
  have hxL := (hok'.ifq x q).1 hq
  rw [hL q, mem_filter] at hxL
  have hxe : x ≠ e := by simpa using hxL.2
  have hxA := (h.alloc x).1 (hifq x (by rw [(hok.ifq x q).2 hxL.1]; simp))
  rw [hgood.alloc x]
  split
  · exact hxA
  · simp [hxA, hxe]

/-- The table with a new entry that is on no chain and on no list yet. -/
structure Fresh (w : Softs) (e : ℕ) (w' : Softs) : Prop where
  list : w'.list = w.list
  table : w'.table = w.table
  size : w'.size = w.size
  bucketlen : w'.bucketlen = w.bucketlen
  inuse : w'.inuse = w.inuse
  active : w'.active = w.active
  alloc : w'.alloc = update w.alloc e true
  is : ∀ x ≠ e, w'.is x = w.is x
  tq : w'.tq = w.tq

theorem fresh_malloc (w : Softs) (hnone : w.tq.tqeIfq e = none) (i : Ipstate) : Fresh w e (w.malloc e i) where
  list := rfl
  table := rfl
  size := rfl
  bucketlen := rfl
  inuse := rfl
  active := rfl
  alloc := rfl
  is x hx := by simp [Softs.malloc, hx]
  tq := by
    simp only [Softs.malloc]
    rw [update_eq_self_iff.2 hnone.symm]

theorem Fresh.upd (h : Fresh w e w') (f : Ipstate → Ipstate) : Fresh w e (w'.upd e f) :=
  ⟨h.list, h.table, h.size, h.bucketlen, h.inuse, h.active, h.alloc,
    fun x hx => (upd_is_ne w' f hx).trans (h.is x hx), h.tq⟩

/-- Freeing a new entry before it was entered leaves the table as it was. -/
theorem Fresh.drop (hf : Fresh w e w') (he : w.alloc e = false) :
    Same w { w' with alloc := update w'.alloc e false } := by
  refine ⟨hf.list, hf.table, hf.size, hf.bucketlen, hf.inuse, hf.active, ?_, fun x hx => ?_⟩
  · simp only [hf.alloc, update_idem]
    rw [update_eq_self_iff.2 he.symm]
  · have hxe : x ≠ e := fun hxe => by
      rw [hxe, he] at hx
      exact absurd hx (by simp)
    simp only [hf.is x hxe]

/-- The same when queues were given back in between. -/
theorem Fresh.dropped {w'' : Softs} (hf : Fresh w e w') (he : w.alloc e = false) (hs : Same w' w'')
    (his : w''.is = w'.is) : Same w { w'' with alloc := update w''.alloc e false } := by
  have hd := hf.drop he
  refine ⟨hs.list.trans hd.list, hs.table.trans hd.table, hs.size.trans hd.size,
    hs.bucketlen.trans hd.bucketlen, hs.inuse.trans hd.inuse, hs.active.trans hd.active, ?_,
    fun x hx => ?_⟩
  · simp only [hs.alloc]
    exact hd.alloc
  · simp only [his]
    exact hd.hv x hx

/-- **An entry joins the chain of its hash value**, and is no longer dead. -/
theorem push_good (h : Acc w A H) (hlive : ∀ x ∈ A, x ≠ e → ¬dead x → x ∈ H (w.is x).isHv)
    (hgone : ∀ x ∈ A, x ≠ e → dead x → w.table.pnext x = none) (hb : b < w.size)
    (heA : e ∈ A) (he : ∀ b, e ∉ H b) (hhv : (w.is e).isHv = b) : Good (fun x => x ≠ e ∧ dead x) { w with
      inuse := if w.table.head b ≠ none then w.inuse else w.inuse + 1
      table := w.table.link e (.head b)
      bucketlen := w.count b 1 } A (update H b (e :: H b)) := by
  have hfirst : ∀ x, (∀ b, x ∉ H b) → w.table.get (.head b) ≠ some x := by
    intro x hx hh
    rw [(h.table b).head?] at hh
    exact hx b (mem_of_head? hh)
  refine ⟨h.push hb heA he hhv, fun x hx hd => ?_, fun x hx hd => ?_, Nat.zero_lt_of_lt hb⟩
  · change x ∈ update H b (e :: H b) (w.is x).isHv
    by_cases hxe : x = e
    · rw [hxe, hhv, update_self]
      exact mem_cons_self
    · have hmem := hlive x hx hxe fun hdx => hd ⟨hxe, hdx⟩
      by_cases hxb : (w.is x).isHv = b
      · rw [hxb, update_self]
        rw [hxb] at hmem
        exact mem_cons_of_mem _ hmem
      · rw [update_of_ne hxb]
        exact hmem
  · have hnone := hgone x hx hd.1 hd.2
    have hin := Mem.link_inserted w.table (n := e) (k := .head b) (by simp) (hfirst e he)
    change (w.table.link e (.head b)).pnext x = none
    rw [hin.pnext x (hfirst x (h.notMem_of_pnext hnone)) hd.1]
    exact hnone

/-- **A new entry is entered.** -/
theorem enter_good (h : Good dead w A H) (he : e ∉ A) (hf : Fresh w e w') {hv : ℕ}
    (hlt : hv < w.size) (hhv : (w'.is e).isHv = hv) :
    Good (fun x => x ≠ e ∧ dead x) (enter w' e hv) (e :: A) (update H hv (e :: H hv)) := by
  have heH : ∀ b, e ∉ H b := fun b hb => he (h.sub b e hb)
  have hacc : Acc { w' with list := w'.list.link e (.head ()), active := w'.active + 1 }
      (e :: A) H := by
    have hen := h.toAcc.enlist he hf.is
    refine hen.same ⟨?_, hf.table, hf.size, hf.bucketlen, hf.inuse, ?_, hf.alloc, fun _ _ => rfl⟩
    · simp only [hf.list]
    · simp only [hf.active]
  have hold : ∀ x ∈ e :: A, x ≠ e → x ∈ A := fun x hx hxe => (mem_cons.1 hx).resolve_left hxe
  refine Good.same (push_good (e := e) hacc (fun x hx hxe hd => ?_) (fun x hx hxe hd => ?_) ?_
    mem_cons_self heH hhv) ⟨rfl, rfl, rfl, rfl, rfl, rfl, rfl, fun _ _ => rfl⟩
  · change x ∈ H (w'.is x).isHv
    rw [hf.is x hxe]
    exact h.live x (hold x hx hxe) hd
  · change w'.table.pnext x = none
    rw [hf.table]
    exact h.gone x (hold x hx hxe) hd
  · change hv < w'.size
    rw [hf.size]
    exact hlt

/-- What `ipf_state_insert` of a new entry with the contents `i` does beside the accounts. -/
structure Entered (w : Softs) (e : ℕ) (i : Ipstate) (wild : ℤ) (w' : Softs) : Prop where
  is : ∀ x ≠ e, w'.is x = w.is x
  self : w'.is e = { i with isHv := i.isHv % w.size }
  wild : w'.wild = wild

/-- New memory is on no list and no queue. -/
theorem Good.new (h : Good dead w A H) (hq : Queued w) (he : w.alloc e = false) : e ∉ A ∧ w.tq.tqeIfq e = none := by
  obtain ⟨r, L, -, hifq⟩ := hq
  constructor
  · intro hA
    rw [(h.alloc e).2 hA] at he
    exact absurd he (by simp)
  · by_contra hne
    rw [hifq e hne] at he
    exact absurd he (by simp)

/-- **`ipf_state_insert` refuses a new entry**: the caller frees it, and nothing has changed. -/
theorem insert_refused (h : Good dead w A H) (hq : Queued w) (he : w.alloc e = false) (i : Ipstate)
    (rev : Bool) (t : ℕ) :
    ∃ w', ipfStateInsert (w.malloc e i) e rev true t = some (w', false) ∧ Entered w e i w.wild w' ∧
      Good dead { w' with alloc := update w'.alloc e false } A H ∧
      Queued { w' with alloc := update w'.alloc e false } := by
  obtain ⟨heA, hnone⟩ := h.new hq he
  obtain ⟨r, L, hok, hifq⟩ := hq
  set w₁ := (w.malloc e i).upd e
    (fun i' => { i' with isHv := ((w.malloc e i).is e).isHv % (w.malloc e i).size }) with hw₁
  have hfresh : Fresh w e w₁ := (fresh_malloc w hnone i).upd _
  refine ⟨w₁, rfl, ⟨hfresh.is, ?_, rfl⟩, h.same (hfresh.drop he), r, L, ?_, fun x hx => ?_⟩
  · rw [hw₁, upd_is_self]
    simp [Softs.malloc]
  · change Ok r w₁.tq L
    rw [hfresh.tq]
    exact hok
  · rw [(hfresh.drop he).alloc]
    refine hifq x ?_
    rw [← hfresh.tq]
    exact hx

/-- **`ipf_state_insert` of a new entry.** -/
theorem insert_entered (h : Good dead w A H) (hq : Queued w) (he : w.alloc e = false) (i : Ipstate)
    (rev : Bool) (t : ℕ) : ∃ w' H', ipfStateInsert (w.malloc e i) e rev false t = some (w', true) ∧
      Entered w e i (if i.isFlags &&& (SI_WILDP ||| SI_WILDA) ≠ 0 then w.wild + 1 else w.wild) w' ∧
      Good (fun x => x ≠ e ∧ dead x) w' (e :: A) H' ∧ Queued w' := by
  obtain ⟨heA, hnone⟩ := h.new hq he
  obtain ⟨r, L, hok, hifq⟩ := hq
  set hv := ((w.malloc e i).is e).isHv % (w.malloc e i).size with hhv'
  set w₁ := (w.malloc e i).upd e (fun i => { i with isHv := hv }) with hw₁
  have hfresh : Fresh w e w₁ := (fresh_malloc w hnone i).upd _
  have hself : w₁.is e = { i with isHv := i.isHv % w.size } := by
    rw [hw₁, upd_is_self, hhv']
    simp [Softs.malloc]
  have hhv : (w₁.is e).isHv = hv := by rw [hw₁, upd_is_self]
  have hlt : hv < w.size := Nat.mod_lt _ h.pos
  have hgood := enter_good h heA hfresh hlt hhv
  have htq : (enter w₁ e hv).tq = w.tq := hfresh.tq
  obtain ⟨tq, L', hset, hok', hother⟩ := setqueue_ok (w := enter w₁ e hv) (htq ▸ hok) e rev t
  refine ⟨{ enter w₁ e hv with tq := tq }, update H hv (e :: H hv), ?_,
    ⟨hfresh.is, hself, ?_⟩, ?_, r, L', hok', fun x hx => ?_⟩
  · change (ipfStateSetqueue (enter w₁ e hv) e rev t).map _ = _
    rw [hset]
    rfl
  · change (if (w₁.is e).isFlags &&& (SI_WILDP ||| SI_WILDA) ≠ 0 then w.wild + 1 else w.wild) = _
    rw [hself]
  · exact hgood.same (same_tq _ tq)
  · change (enter w₁ e hv).alloc x = true
    rw [hgood.alloc x]
    by_cases hxe : x = e
    · rw [hxe]
      exact mem_cons_self
    · have hxt : w.tq.tqeIfq x ≠ none := by
        rw [← htq, ← hother x hxe]
        exact hx
      exact mem_cons_of_mem _ ((h.alloc x).1 (hifq x hxt))

/-- **`ipf_state_insert`** of a new entry, whether it succeeds or not. -/
theorem insert_good (h : Good dead w A H) (hq : Queued w) (he : w.alloc e = false) (i : Ipstate)
    (rev full : Bool) (t : ℕ) (seed : ℕ → ℕ) : ∃ w' A' H', step seed w (.insert e i rev full t) = some w' ∧
      Good (fun x => x ≠ e ∧ dead x) w' A' H' ∧ Queued w' := by
  cases full with
  | true =>
    obtain ⟨w', hins, -, hgood, hq'⟩ := insert_refused h hq he i rev t
    refine ⟨_, A, H, by simp only [step, hins]; rfl, hgood.congr fun x hx => ?_, hq'⟩
    have hxe : x ≠ e := fun hxe => (h.new hq he).1 (hxe ▸ hx)
    exact ⟨fun hd => ⟨hxe, hd⟩, fun hd => hd.2⟩
  | false =>
    obtain ⟨w', H', hins, -, hgood, hq'⟩ := insert_entered h hq he i rev t
    exact ⟨w', e :: A, H', by simp only [step, hins]; rfl, hgood, hq'⟩

/-! ## Moving an entry -/

/-- The hash value of an entry that is on no chain may change. -/
theorem Acc.rehv (h : Acc w A H) (he : ∀ b, e ∉ H b) (f : Ipstate → Ipstate) : Acc (w.upd e f) A H := by
  refine ⟨h.list, h.table, h.alloc, h.sub, fun b x hx => ?_, h.lt, h.len, h.inuse, h.active⟩
  have hxe : x ≠ e := fun hxe => he b (hxe ▸ hx)
  simpa [Softs.upd, hxe] using h.hv b x hx

theorem doubleHash_lt (seed : ℕ → ℕ) {size : ℕ} (hs : 0 < size) (hv : ℕ) :
    doubleHash seed size hv < size := Nat.mod_lt _ hs

/-- **`ipf_ipsmove`** of an entry that is on its chain. -/
theorem move_good (h : Good dead w A H) (hq : Queued w) (he : e ∈ A)
    (hp : w.table.pnext e ≠ none) (seed : ℕ → ℕ) (hv : ℕ) :
    ∃ w' A' H', ipfIpsmove w seed e hv = some w' ∧ Good dead w' A' H' ∧ Queued w' := by
  obtain ⟨k, hk⟩ := Option.ne_none_iff_exists'.1 hp
  have hnd : ¬dead e := fun hd => hp (h.gone e he hd)
  have hmem := h.live e he hnd
  set b := (w.is e).isHv
  set b' := doubleHash seed w.size hv
  set t := (w.table.setP? (w.table.next e) (some k)).set k (w.table.next e) with ht
  have hrm : Removed w.table t e k := Mem.bypass_removed w.table
  have hpull := h.toAcc.pull hmem hk hrm
  have hpulled := h.toAcc.mem_pulled hmem
  have hout : ∀ x, e ∉ update H b ((H b).filter (· ≠ e)) x :=
    fun x hx => ((hpulled x e).1 hx).1 rfl
  have hacc := hpull.rehv hout fun i => { i with isHv := b' }
  have hgood := push_good (e := e) (b := b') hacc (fun x hx hxe (hd : ¬dead x) => ?_)
    (fun x hx hxe hd => ?_) (doubleHash_lt seed h.pos hv) he hout (by simp [Softs.upd])
  · refine ⟨_, A, _, by simp only [ipfIpsmove, hk]; rfl, hgood.congr fun x _ => ?_, ?_⟩
    · exact ⟨fun hd => hd.2, fun hd => ⟨fun hxe => hnd (hxe ▸ hd), hd⟩⟩
    · obtain ⟨r, L, hok, hifq⟩ := hq
      exact ⟨r, L, hok, hifq⟩
  · have hlive := (hpulled _ x).2 ⟨hxe, h.live x hx hd⟩
    simpa [Softs.upd, hxe] using hlive
  · change t.pnext x = none
    rw [hrm.pnext x (h.toAcc.next_ne hmem (h.notMem hx hd)) hxe]
    exact h.gone x hx hd

/-! ## Resizing -/

/-- The pointers of an entry that is on no chain may change. -/
theorem Acc.forget (h : Acc w A H) (he : ∀ b, e ∉ H b) :
    Acc { w with table := (w.table.set (.next e) none).setP e none } A H :=
  ⟨h.list, h.table.forget he none none, h.alloc, h.sub, h.hv, h.lt, h.len, h.inuse, h.active⟩

/-- **The walk of `ipf_state_rehash`** puts the entries of the rest `l` of the list on the chains of
their hash values. -/
theorem rehashLoop_acc {l : List ℕ} : ∀ {i : ℕ} {w : Softs} {H : ℕ → List ℕ} {k : Link Unit ℕ},
    Acc w A H → Seg w.list k l → l.length ≤ i → l.Nodup →
      (∀ e ∈ l, e ∈ A ∧ (w.is e).isHv < w.size ∧ ∀ b, e ∉ H b) →
    ∃ H', Acc (rehashLoop i (w.list.get k) w) A H' ∧ (∀ e ∈ l, e ∈ H' (w.is e).isHv) ∧
      (∀ b, ∀ e ∈ H b, e ∈ H' b) ∧
      ∃ t c n, rehashLoop i (w.list.get k) w = { w with table := t, bucketlen := c, inuse := n } := by
  induction l with
  | nil =>
    intro i w H k h hs _ _ _
    have hg : w.list.get k = none := hs.2
    rw [hg]
    have hloop : rehashLoop i none w = w := by cases i <;> rfl
    rw [hloop]
    exact ⟨H, h, fun e he => absurd he (by simp), fun _ _ he => he, _, _, _, rfl⟩
  | cons e l ih =>
    intro i w H k h hs hlen hnd hl
    obtain ⟨i, rfl⟩ : ∃ j, i = j + 1 := ⟨i - 1, by simp at hlen; omega⟩
    obtain ⟨hk, -, hrest⟩ := (seg_cons l).1 hs
    obtain ⟨heA, hlt, hout⟩ := hl e mem_cons_self
    obtain ⟨hel, hnd'⟩ := nodup_cons.1 hnd
    have hpush := (h.forget hout).push hlt heA hout rfl
    have hrest' : ∀ x ∈ l, x ∈ A ∧ (w.is x).isHv < w.size ∧
        ∀ b, x ∉ update H (w.is e).isHv (e :: H (w.is e).isHv) b := by
      intro x hx
      obtain ⟨hxA, hxlt, hxout⟩ := hl x (mem_cons_of_mem _ hx)
      have hxe : x ≠ e := fun hxe => hel (hxe ▸ hx)
      refine ⟨hxA, hxlt, fun b hb => ?_⟩
      by_cases hbe : b = (w.is e).isHv
      · subst hbe
        rw [update_self] at hb
        exact hxout _ ((mem_cons.1 hb).resolve_left hxe)
      · rw [update_of_ne hbe] at hb
        exact hxout b hb
    rw [hk]
    simp only [rehashLoop, Nat.mod_eq_of_lt hlt]
    obtain ⟨H', hacc, hin, hold, t, c, n, heq⟩ := ih (i := i) (k := .next e) hpush hrest
      (by simp at hlen; omega) hnd' hrest'
    refine ⟨H', hacc, fun x hx => ?_, fun b x hx => hold b x ?_, t, c, n, heq⟩
    · rcases mem_cons.1 hx with rfl | hx
      · refine hold _ _ ?_
        rw [update_self]
        exact mem_cons_self
      · exact hin x hx
    · by_cases hb : b = (w.is e).isHv
      · subst hb
        rw [update_self]
        exact mem_cons_of_mem _ hx
      · rwa [update_of_ne hb]

/-- **`ipf_state_rehash`** when no deleted entry is still listed and the hash values fit. -/
theorem rehash_good (h : Good dead w A H) (hq : Queued w) {n : ℕ} (hn : 0 < n) {nomem : Bool}
    (hc : Clean w dead (.rehash n nomem)) :
    ∃ A' H', Good dead (ipfStateRehash w n nomem) A' H' ∧ Queued (ipfStateRehash w n nomem) := by
  unfold ipfStateRehash
  split
  · exact ⟨A, H, h, hq⟩
  · rename_i hskip
    have hall : ∀ e ∈ A, ¬dead e ∧ (w.is e).isHv < n := by
      intro e he
      rcases hc with hc | hc | hc
      · exact absurd (.inl hc) hskip
      · exact absurd (.inr hc) hskip
      · exact hc e ((h.alloc e).2 he)
    -- the new table is empty
    have hempty : Acc { w with
        table := { w.table with head := fun _ => none }
        bucketlen := fun _ => 0
        size := n
        inuse := 0 } A (fun _ => []) := by
      refine ⟨h.list, fun b => ⟨trivial, rfl⟩, h.alloc, by simp, by simp, by simp, by simp, ?_,
        h.active⟩
      exact (used_empty n).symm
    obtain ⟨H', hacc, hin, -, t, c, m, heq⟩ := rehashLoop_acc (i := w.active.toNat) (k := .head ())
      hempty (h.list ()) (by simp [h.active]) h.toAcc.nodup fun e he => ⟨he, (hall e he).2, by simp⟩
    have hhead : w.list.get (.head ()) = w.list.head () := rfl
    simp only [hhead] at hacc heq
    rw [heq] at hacc ⊢
    refine ⟨A, H', ⟨hacc, fun e he _ => hin e he, fun e he hd => absurd hd (hall e he).1, hn⟩, ?_⟩
    obtain ⟨r, L, hok, hifq⟩ := hq
    exact ⟨r, L, hok, hifq⟩

/-! ## Whole runs -/

/-- **The accounts of the table are right.** `A` is the list of all entries and `H` the chains: an
entry is on the chain of its hash value and no other, unless it was deleted and is still referenced;
then it is on no chain. The counters say how many there are. -/
def Accounted (dead : ℕ → Prop) (w : Softs) : Prop :=
  ∃ (A : List ℕ) (H : ℕ → List ℕ), Rep w.list (fun _ => A) ∧ Rep w.table H ∧
    (∀ e, w.alloc e = true ↔ e ∈ A) ∧
    (∀ e b, e ∈ H b ↔ e ∈ A ∧ ¬dead e ∧ (w.is e).isHv = b) ∧
    (∀ b, w.bucketlen b = (H b).length) ∧
    (∀ b, H b ≠ [] → b < w.size) ∧
    w.inuse = ((Finset.range w.size).filter (fun b => H b ≠ [])).card ∧
    w.active = A.length

theorem Good.accounted (h : Good dead w A H) : Accounted dead w := by
  refine ⟨A, H, h.list, h.table, h.alloc, fun e b => ⟨fun he => ?_, fun he => ?_⟩, h.len, h.lt, ?_,
    h.active⟩
  · have heA := h.sub b e he
    exact ⟨heA, fun hd => h.notMem heA hd b he, h.hv b e he⟩
  · obtain ⟨heA, hd, rfl⟩ := he
    exact h.live e heA hd
  · rw [h.inuse, used_eq_card]
    simp

/-- **One call.** Every call that the callers may make returns, and keeps the accounts. -/
theorem step_good (h : Good dead w A H) (hq : Queued w) (seed : ℕ → ℕ) {op : Op} (hl : Legal w op)
    (hc : Clean w dead op) :
    ∃ w' A' H', step seed w op = some w' ∧ Good (deadAfter w dead op) w' A' H' ∧ Queued w' := by
  cases op with
  | insert e i rev full t => exact insert_good h hq hl i rev full t seed
  | del e =>
    obtain ⟨w', n, A', H', hdel, hgood, hq'⟩ := del_good h hq ((h.alloc e).1 hl)
    exact ⟨w', A', H', by simp [step, hdel], hgood, hq'⟩
  | move e hv => exact move_good h hq ((h.alloc e).1 hl.1) hl.2 seed hv
  | rehash n nomem =>
    obtain ⟨A', H', hgood, hq'⟩ := rehash_good h hq hl hc
    exact ⟨_, A', H', rfl, hgood, hq'⟩
  | hold e => exact ⟨_, A, H, rfl, h.same (same_upd w e _ fun _ => rfl), hq⟩
  | deref e =>
    have ha : w.alloc e = true := hl
    simp only [step, ipfStateDeref, ha, Bool.true_eq_false, if_false]
    by_cases href : (w.is e).isRef > 1
    · -- only the count changes
      rw [if_pos href]
      have hsame := same_upd w e (fun i => { i with isRef := i.isRef - 1 }) fun _ => rfl
      refine ⟨_, A, H, rfl, (h.same hsame).congr fun x _ => ?_, hq⟩
      exact ⟨.inr, fun hd => hd.resolve_left fun hx => absurd hx.2 (by omega)⟩
    · rw [if_neg href]
      obtain ⟨w', n, A', H', hdel, hgood, hq'⟩ := del_good h hq ((h.alloc e).1 ha)
      refine ⟨w', A', H', by simp [hdel], hgood.congr fun x _ => ?_, hq'⟩
      exact or_congr_left ⟨fun hx => ⟨hx, by omega⟩, fun hx => hx.1⟩

theorem init_good {size : ℕ} (hs : 0 < size) (is : ℕ → Ipstate) (tq : Tq Tqid ℕ) :
    Good (fun _ => False) (Softs.init size is tq) [] (fun _ => []) where
  list _ := ⟨trivial, rfl⟩
  table _ := ⟨trivial, rfl⟩
  alloc := by simp [Softs.init]
  sub := by simp
  hv := by simp
  lt := by simp
  len := by simp [Softs.init]
  inuse := (used_empty size).symm
  active := rfl
  live := by simp
  gone := by simp
  pos := hs

theorem run_good {seed ttl flags size : _} {ref : Tqid → ℤ} {is : ℕ → Ipstate} (hs : 0 < size)
    (hrun : Run Clean seed (Softs.init size is (Tq.init ttl flags ref)) dead w) :
    ∃ A H, Good dead w A H ∧ Queued w := by
  induction hrun with
  | init =>
    refine ⟨[], fun _ => [], init_good hs is _, ref, fun _ => [], init_ok ttl flags ref, ?_⟩
    simp [Softs.init, Tq.init]
  | step op _ hl hc hstep ih =>
    obtain ⟨A, H, hgood, hq⟩ := ih
    obtain ⟨w', A', H', hstep', hgood', hq'⟩ := step_good hgood hq seed hl hc
    rw [hstep] at hstep'
    cases hstep'
    exact ⟨A', H', hgood', hq'⟩

/-- **The accounts are right in every run** whose resizes find no deleted entry in the list and no
hash value beyond the new size, and no call of such a run fails. -/
theorem run_accounted (seed : ℕ → ℕ) (ttl flags : Tqid → ℕ) (ref : Tqid → ℤ) (is : ℕ → Ipstate)
    {size : ℕ} (hs : 0 < size)
    (hrun : Run Clean seed (Softs.init size is (Tq.init ttl flags ref)) dead w) :
    Accounted dead w ∧ ∀ op, Legal w op → Clean w dead op → (step seed w op).isSome := by
  obtain ⟨A, H, hgood, hq⟩ := run_good hs hrun
  refine ⟨hgood.accounted, fun op hl hc => ?_⟩
  obtain ⟨w', -, -, hstep, -⟩ := step_good hgood hq seed hl hc
  rw [hstep]
  rfl

/-- A table of eight buckets with one entry, in bucket 5. -/
def oneEntry : Op := .insert 0 { Ipstate.zero with isHv := 5, isRef := 1 } false false 0

def eightBuckets : Softs :=
  Softs.init 8 (fun _ => Ipstate.zero) (Tq.init (fun _ => 60) (fun _ => 0) fun _ => 1)

/-- In a table with one entry, that is the one allocated. -/
theorem eq_of_alloc (h : update (fun _ => false) 0 true e = true) : e = 0 := by
  by_contra h0
  rw [update_of_ne h0] at h
  exact absurd h (by decide)

/-- Another one, in bucket 3. -/
def otherEntry : Op := .insert 1 { Ipstate.zero with isHv := 3, isRef := 1 } false false 0

/-- Two entries are inserted, the table grows, and the second one is deleted. -/
theorem run_accounted_grow :
    ∃ dead w, Run Clean (fun _ => 0) eightBuckets dead w ∧ w.size = 16 ∧ Accounted dead w := by
  have h₁ : Run Clean (fun _ => 0) eightBuckets _ _ := Run.step oneEntry .init rfl trivial rfl
  have h₂ : Run Clean (fun _ => 0) eightBuckets _ _ := Run.step otherEntry h₁ rfl trivial rfl
  have h₃ := Run.step (.rehash 16 false) h₂ (by decide : (0 : ℕ) < 16) (.inr (.inr ?_)) rfl
  · have h₄ : Run Clean (fun _ => 0) eightBuckets _ _ := Run.step (.del 1) h₃ rfl trivial rfl
    exact ⟨_, _, h₄, rfl, (run_accounted _ _ _ _ _ (by decide) h₄).1⟩
  · intro e he
    have hcases : e = 0 ∨ e = 1 := by
      by_contra hno
      have he' : update (update (fun _ => false) 0 true) 1 true e = true := he
      rw [update_of_ne (fun h => hno (.inr h)), update_of_ne (fun h => hno (.inl h))] at he'
      exact absurd he' (by decide)
    rcases hcases with rfl | rfl
    · exact ⟨fun hd => hd.2.2, by decide⟩
    · exact ⟨fun hd => hd.2.2, by decide⟩

/-- **A smaller table leaves entries on the wrong chain.** The resize puts the entry on chain
`5 % 2`, and its hash value stays 5. -/
theorem run_not_accounted :
    ∃ dead w, Run (fun _ _ _ => True) (fun _ => 0) eightBuckets dead w ∧ ¬Accounted dead w := by
  have h₁ : Run (fun _ _ _ => True) (fun _ => 0) eightBuckets _ _ :=
    Run.step oneEntry .init rfl trivial rfl
  have h₂ := Run.step (.rehash 2 false) h₁ (by decide : (0 : ℕ) < 2) trivial rfl
  refine ⟨_, _, h₂, ?_⟩
  rintro ⟨A, H, -, htable, halloc, hmem, -⟩
  have hA : 0 ∈ A := (halloc 0).1 rfl
  have h5 : 0 ∈ H 5 := (hmem 0 5).2 ⟨hA, fun hd => hd.2, rfl⟩
  have hhead : none = (H 5).head? := (htable 5).head?
  rw [eq_comm, List.head?_eq_none_iff] at hhead
  rw [hhead] at h5
  exact absurd h5 (by simp)

end Ipfilter.State
