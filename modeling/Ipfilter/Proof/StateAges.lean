import Ipfilter.Spec.StateAges
import Ipfilter.Proof.StateLife
import Mathlib.Algebra.Order.BigOperators.Group.List

/-!
# What `ifq_ref` of a rule's queue counts

`Aged` says that a queue of a rule is referred to by the list it is on, by the slots of the entries and
by the entries queued on it.

* `addtimeoutqueue_spec`: a queue is found or made, and its caller counted.
* `del_aged`, `add_aged`, `clone_aged`: the calls.
* `calls_ref`: whole runs in which no clone copies a slot.
-/

namespace Ipfilter.State

open Chain Queue List Option
open Function (update update_of_ne update_self)

variable {w w' : Softs} {A : List ℕ} {H : ℕ → List ℕ} {e : ℕ} {r : Tqid → ℤ} {L : Tqid → List ℕ}
  {U : List Tqid} {dead : ℕ → Prop} {i : Ipstate}

/-! ## The list of queues -/

/-- The queues from `o` on are `U`. -/
def UserChain (next : Tqid → Option Tqid) : Option Tqid → List Tqid → Prop
  | o, [] => o = none
  | o, q :: U => o = some q ∧ UserChain next (next q) U

/-- **The queues of rules** are those on the list. -/
structure Users (w : Softs) (U : List Tqid) : Prop where
  chain : UserChain w.userNext w.userHead U
  alloc : ∀ q, q.isUser = true → (w.ifqAlloc q = true ↔ q ∈ U)
  user : ∀ q ∈ U, q.isUser = true

/-- `w'` has the same queues of rules as `w`. -/
structure SameUsers (w w' : Softs) : Prop where
  head : w'.userHead = w.userHead
  next : w'.userNext = w.userNext
  alloc : w'.ifqAlloc = w.ifqAlloc

theorem SameUsers.refl (w : Softs) : SameUsers w w := ⟨rfl, rfl, rfl⟩

theorem SameUsers.trans {w'' : Softs} (h : SameUsers w w') (h' : SameUsers w' w'') : SameUsers w w'' :=
  ⟨h'.head.trans h.head, h'.next.trans h.next, h'.alloc.trans h.alloc⟩

theorem Users.same (h : Users w U) (hs : SameUsers w w') : Users w' U where
  chain := by rw [hs.head, hs.next]; exact h.chain
  alloc q hq := by rw [hs.alloc]; exact h.alloc q hq
  user := h.user

theorem findTtl_mem {period : ℕ} : ∀ {U : List Tqid} {i : ℕ} {o : Option Tqid} {q : Tqid},
    UserChain w.userNext o U → findTtl w period i o = some q → q ∈ U := by
  intro U
  induction U with
  | nil =>
    intro i o q hc h
    obtain rfl : o = none := hc
    cases i <;> simp [findTtl] at h
  | cons q' U ih =>
    intro i o q hc h
    obtain ⟨rfl, hrest⟩ := hc
    cases i with
    | zero => simp [findTtl] at h
    | succ i =>
      simp only [findTtl] at h
      split at h
      · cases h
        exact mem_cons_self
      · exact mem_cons_of_mem _ (ih hrest h)

theorem userChain_congr {next next' : Tqid → Option Tqid} : ∀ {U : List Tqid} {o : Option Tqid},
    UserChain next o U → (∀ q ∈ U, next' q = next q) → UserChain next' o U := by
  intro U
  induction U with
  | nil => exact fun h _ => h
  | cons q U ih =>
    intro o h hn
    refine ⟨h.1, ?_⟩
    rw [hn q mem_cons_self]
    exact ih h.2 fun q' hq' => hn q' (mem_cons_of_mem _ hq')

/-- What `ipf_addtimeoutqueue` leaves alone. -/
structure Queues (w w' : Softs) : Prop where
  rest : w' = { w with
    tq := w'.tq
    userHead := w'.userHead
    userNext := w'.userNext
    userifqs := w'.userifqs
    ifqAlloc := w'.ifqAlloc }
  ifq : w'.tq.tqeIfq = w.tq.tqeIfq

/-- **`ipf_addtimeoutqueue`** finds a queue or makes one, or fails and changes nothing. A new queue is
counted once for the list and once for the caller. -/
theorem addtimeoutqueue_spec (hu : Users w U) (hok : Ok r w.tq L) {seconds : ℕ} {new : Option ℕ}
    {o : Option Tqid} (h : ipfAddtimeoutqueue w seconds new = (w', o))
    (hnew : ∀ a, new = some a → w.ifqAlloc (.user a) = false) (hempty : ∀ q, q.isUser = true → q ∉ U → L q = []) :
    ∃ U' r', Users w' U' ∧ Ok r' w'.tq L ∧ (∀ q ∈ U, q ∈ U') ∧ (∀ q, o = some q → q ∈ U') ∧
      (∀ q ∈ U', r' q = (if q ∈ U then r q else 1) + if o = some q then 1 else 0) ∧
      (∀ q ∈ U', q ∉ U → ∃ a, new = some a ∧ q = .user a) ∧ Queues w w' := by
  unfold ipfAddtimeoutqueue at h
  dsimp only at h
  cases hfind : findTtl w (u32 (seconds * IPF_HZ_DIVIDE)) w.userifqs w.userHead with
  | some q =>
    have hq := findTtl_mem hu.chain hfind
    simp only [hfind, Prod.mk.injEq] at h
    obtain ⟨rfl, rfl⟩ := h
    refine ⟨U, update r q (r q + 1), ⟨hu.chain, hu.alloc, hu.user⟩, ⟨hok.rep, hok.tail, hok.ifq,
      fun q' => ?_⟩, fun _ h => h, fun q' h => ?_, fun q' hq' => ?_, fun q' h h' => absurd h h',
      ⟨rfl, rfl⟩⟩
    · by_cases hqq : q' = q
      · subst hqq
        simp only [update_self]
        rw [hok.ref q']
        ring
      · simp only [update_of_ne hqq]
        exact hok.ref q'
    · cases h
      exact hq
    · by_cases hqq : q' = q
      · subst hqq
        simp [hq']
      · simp [hq', hqq, Ne.symm hqq]
  | none =>
    cases new with
    | none =>
      simp only [hfind, Prod.mk.injEq] at h
      obtain ⟨rfl, rfl⟩ := h
      refine ⟨U, r, hu, hok, fun _ h => h, fun q h => absurd h (by simp), fun q hq => by simp [hq],
        fun q h h' => absurd h h', ⟨rfl, rfl⟩⟩
    | some a =>
      simp only [hfind, Prod.mk.injEq] at h
      obtain ⟨rfl, rfl⟩ := h
      have hna := hnew a rfl
      have hfresh : Tqid.user a ∉ U := fun hq => by
        rw [(hu.alloc _ rfl).2 hq] at hna
        exact absurd hna (by simp)
      have hne : ∀ q ∈ U, q ≠ Tqid.user a := fun q hq hqa => hfresh (hqa ▸ hq)
      have hL : L (.user a) = [] := hempty _ rfl hfresh
      refine ⟨.user a :: U, update r (.user a) 2, ⟨⟨rfl, ?_⟩, fun q hq => ?_, fun q hq => ?_⟩,
        ⟨fun q => ?_, fun q => ?_, hok.ifq, fun q => ?_⟩, fun _ h => mem_cons_of_mem _ h,
        fun q h => ?_, fun q hq => ?_, fun q hq hq' => ?_, ⟨rfl, rfl⟩⟩
      · simp only [update_self]
        exact userChain_congr hu.chain fun q hq => update_of_ne (hne q hq) _ _
      · by_cases hqa : q = .user a
        · simp [hqa]
        · simp [hqa, hu.alloc q hq]
      · rcases mem_cons.1 hq with rfl | hq
        · rfl
        · exact hu.user q hq
      · by_cases hqa : q = .user a
        · subst hqa
          rw [hL]
          exact ⟨trivial, by simp [lastLink]⟩
        · refine (hok.rep q).frame ?_ (fun _ _ => rfl) (fun _ _ => rfl)
          simp [hqa]
      · by_cases hqa : q = .user a
        · subst hqa
          simp [hL, lastLink]
        · simp only [update_of_ne hqa]
          exact hok.tail q
      · by_cases hqa : q = .user a
        · subst hqa
          simp [hL]
        · simp only [update_of_ne hqa]
          exact hok.ref q
      · cases h
        exact mem_cons_self
      · rcases mem_cons.1 hq with rfl | hq
        · simp [hfresh]
        · have hqa := hne q hq
          simp [hq, hqa, Ne.symm hqa]
      · exact ⟨a, rfl, (mem_cons.1 hq).resolve_right hq'⟩

/-! ## Slots -/

theorem slots_nonneg (i : Ipstate) (q : Tqid) : 0 ≤ i.slots q := by
  unfold Ipstate.slots
  split <;> split <;> decide

/-- The slots of the entries `A` that refer to a queue. -/
def slotSum (w : Softs) (A : List ℕ) (q : Tqid) : ℤ := (A.map fun e => (w.is e).slots q).sum

theorem slotSum_congr {q : Tqid} (h : ∀ e ∈ A, (w'.is e).isTqehead = (w.is e).isTqehead) :
    slotSum w' A q = slotSum w A q := by
  unfold slotSum
  congr 1
  refine map_congr_left fun e he => ?_
  rw [Ipstate.slots, Ipstate.slots, h e he]

theorem slotSum_filter (hA : A.Nodup) (he : e ∈ A) (q : Tqid) :
    slotSum w (A.filter (· ≠ e)) q = slotSum w A q - (w.is e).slots q := by
  obtain ⟨l₁, l₂, rfl⟩ := append_of_mem he
  rw [filter_middle hA]
  simp only [slotSum, map_append, map_cons, sum_append, sum_cons]
  ring

theorem slots_le_slotSum (he : e ∈ A) (q : Tqid) : (w.is e).slots q ≤ slotSum w A q := by
  refine single_le_sum (fun x hx => ?_) _ (mem_map_of_mem he)
  obtain ⟨y, -, rfl⟩ := mem_map.1 hx
  exact slots_nonneg _ q

theorem slotSum_nonneg (w : Softs) (A : List ℕ) (q : Tqid) : 0 ≤ slotSum w A q := by
  refine sum_nonneg fun x hx => ?_
  obtain ⟨y, -, rfl⟩ := mem_map.1 hx
  exact slots_nonneg _ q

/-- **What refers to the queues of rules.** -/
structure Aged (dead : ℕ → Prop) (w : Softs) (A : List ℕ) (H : ℕ → List ℕ) (U : List Tqid)
    (r : Tqid → ℤ) (L : Tqid → List ℕ) : Prop extends Good dead w A H where
  users : Users w U
  ok : Ok r w.tq L
  queued : ∀ q, ∀ e ∈ L q, e ∈ A ∧ (q.isUser = true → q ∈ U)
  ref : ∀ q ∈ U, r q = 1 + slotSum w A q
  slot : ∀ e ∈ A, ∀ rev q, (w.is e).isTqehead rev = some q → q ∈ U

/-! ## Deleting -/

/-- Dropping a slot of a queue that is still referred to frees nothing. -/
theorem dropTq_users (h : Ok r w.tq L) {o : Option Tqid} (hr : ∀ q, o = some q → 2 ≤ r q) :
    SameUsers w (w.dropTq o) := by
  cases o with
  | none => exact SameUsers.refl w
  | some q =>
    have href : (ipfDeletetimeoutqueue w.tq q).ifqRef q ≠ 0 := by
      rw [deletetimeoutqueue_ref, update_self, h.ref q]
      have := hr q rfl
      omega
    simp only [Softs.dropTq]
    rw [if_neg href]
    exact ⟨rfl, rfl, rfl⟩

/-- Dropping both slots of an entry. -/
theorem dropTqs_users (h : Ok r w.tq L) (hr : ∀ rev q, i.isTqehead rev = some q → 1 + i.slots q ≤ r q) :
    SameUsers w ((w.dropTq (i.isTqehead false)).dropTq (i.isTqehead true)) := by
  refine (dropTq_users h fun q hq => ?_).trans (dropTq_users (dropTq_ok h _) fun q hq => ?_)
  · have := hr false q hq
    rw [Ipstate.slots, if_pos hq] at this
    split at this <;> omega
  · have := hr true q hq
    rw [Ipstate.slots, if_pos hq] at this
    by_cases hf : i.isTqehead false = some q
    · rw [if_pos hf] at this ⊢
      omega
    · rw [if_neg hf] at this ⊢
      omega

theorem unwild_users (w : Softs) (e : ℕ) : SameUsers w (unwild w e) := by
  unfold unwild
  dsimp only
  split
  · split <;> exact ⟨rfl, rfl, rfl⟩
  · exact SameUsers.refl w

theorem unhash_users (w : Softs) (e : ℕ) : SameUsers w (unhash w e).1 := by
  unfold unhash
  cases w.table.pnext e <;> exact ⟨rfl, rfl, rfl⟩

theorem unref_users (w : Softs) (e : ℕ) : SameUsers w (unref w e) := by
  unfold unref
  dsimp only
  cases (w.is e).isMe <;> exact ⟨rfl, rfl, rfl⟩

theorem doomed_users (w : Softs) (e : ℕ) (tq : Tq Tqid ℕ) : SameUsers w (w.doomed e tq) := by
  have h : SameUsers w { unwild (unhash w e).1 e with tq := tq } := by
    have := (unhash_users w e).trans (unwild_users (unhash w e).1 e)
    exact ⟨this.head, this.next, this.alloc⟩
  exact h.trans (unref_users _ e)

/-- `ipf_state_del` frees no queue that is still referred to. -/
theorem del_users (hok : Ok r w.tq L) (ha : w.alloc e = true)
    (hr : ∀ rev q, (w.is e).isTqehead rev = some q → 1 + (w.is e).slots q ≤ r q) {n : ℤ}
    (h : ipfStateDel w e = some (w', n)) : SameUsers w w' := by
  obtain ⟨tq, L', hok', -, -, -, -, heq⟩ := del_eq hok ha
  obtain ⟨-, -, -, hslots, -⟩ := doomed_is w e tq
  have hd := doomed_users w e tq
  rw [← doomed_tq w e tq] at hok'
  rw [heq] at h
  split at h
  · cases h
    exact ⟨hd.head, hd.next, hd.alloc⟩
  · cases h
    have hdrop := dropTqs_users (i := (w.doomed e tq).is e) hok' fun rev q hq => by
      rw [hslots] at hq
      rw [Ipstate.slots, hslots]
      exact hr rev q hq
    have htail : SameUsers w _ := hd.trans hdrop
    unfold release
    dsimp only
    rw [dropTq_is]
    exact ⟨htail.head, htail.next, htail.alloc⟩

/-- **`ipf_state_del`**: the slots of the entry count until it is freed. -/
theorem del_aged (h : Aged dead w A H U r L) (he : e ∈ A) : ∃ w' n A' H' r' L', ipfStateDel w e = some (w', n) ∧
      Aged (fun x => x = e ∨ dead x) w' A' H' U r' L' ∧ w'.ifqAlloc = w.ifqAlloc := by
  obtain ⟨w', n, H', L', hdel, -, hgood, hok', hL, hd⟩ := del_spec h.toGood h.ok he
  have husers := del_users h.ok ((h.alloc e).2 he) (fun rev q hq => by
    rw [h.ref q (h.slot e he rev q hq)]
    have := slots_le_slotSum (w := w) he q
    omega) hdel
  have hslots : ∀ x ∈ A, (w'.is x).isTqehead = (w.is x).isTqehead := by
    intro x _
    by_cases hxe : x = e
    · rw [hxe]
      exact hd.slots
    · rw [hd.is x hxe]
  have hsub : ∀ x ∈ (if 0 < (w.is e).left then A else A.filter (· ≠ e)), x ∈ A := by
    intro x hx
    split at hx
    · exact hx
    · exact mem_of_mem_filter hx
  refine ⟨w', n, _, H', _, L', hdel, ⟨hgood, h.users.same husers, hok', fun q x hx => ?_, fun q hq => ?_,
    fun x hx rev q hq => ?_⟩, husers.alloc⟩
  · rw [hL q, mem_filter] at hx
    have hxe : x ≠ e := by simpa using hx.2
    obtain ⟨hxA, hxU⟩ := h.queued q x hx.1
    refine ⟨?_, hxU⟩
    split
    · exact hxA
    · simp [hxA, hxe]
  · rw [h.ref q hq]
    split
    · rw [slotSum_congr hslots]
      ring
    · rw [slotSum_congr fun x hx => hslots x (mem_of_mem_filter hx),
        slotSum_filter h.toAcc.nodup he]
      ring
  · rw [hslots x (hsub x hx)] at hq
    exact h.slot x (hsub x hx) rev q hq

/-! ## Adding -/

theorem slotSum_eq_zero {q : Tqid} (h : ∀ x ∈ A, ∀ rev, (w.is x).isTqehead rev ≠ some q) : slotSum w A q = 0 := by
  unfold slotSum
  refine sum_eq_zero fun n hn => ?_
  obtain ⟨x, hx, rfl⟩ := mem_map.1 hn
  rw [Ipstate.slots, if_neg (h x hx false), if_neg (h x hx true), add_zero]

/-- The table `w'` is `w` with the queues and the entry that `ipf_state_add` is about to insert. -/
structure Starting (w : Softs) (A : List ℕ) (e : ℕ) (w' : Softs) (U : List Tqid) (r : Tqid → ℤ)
    (L : Tqid → List ℕ) : Prop where
  fresh : Fresh { w with tq := w'.tq } e w'
  users : Users w' U
  ok : Ok r w'.tq L
  queued : ∀ q, ∀ e ∈ L q, e ∈ A ∧ (q.isUser = true → q ∈ U)
  ref : ∀ q ∈ U, r q = 1 + slotSum w A q + (w'.is e).slots q
  slot : ∀ x ∈ A, ∀ rev q, (w.is x).isTqehead rev = some q → q ∈ U
  own : ∀ rev q, (w'.is e).isTqehead rev = some q → q ∈ U

/-- The slots of an entry when one that was empty is filled. -/
theorem slots_update {rev : Bool} (hi : i.isTqehead rev = none) (o : Option Tqid) (f : Flags) (q : Tqid) :
    ({ i with isTqehead := update i.isTqehead rev o, tqeFlags := f } : Ipstate).slots q =
      i.slots q + if o = some q then 1 else 0 := by
  cases rev with
  | false => simp [Ipstate.slots, hi, add_comm]
  | true => simp [Ipstate.slots, hi]

/-- **A slot of the new entry** takes its queue. -/
theorem addAge_starting (h : Starting w A e w' U r L) {rev : Bool} (hrev : (w'.is e).isTqehead rev = none)
    (age : ℕ) {new : Option ℕ} (hnew : ∀ a, new = some a → w'.ifqAlloc (.user a) = false) :
    ∃ U' r', Starting w A e (addAge w' e rev age new) U' r' L ∧ (∀ q ∈ U, q ∈ U') ∧
      (∀ q ∈ U', q ∉ U → ∃ a, new = some a ∧ q = .user a) ∧
      ∀ rev' ≠ rev, ((addAge w' e rev age new).is e).isTqehead rev' = (w'.is e).isTqehead rev' := by
  unfold addAge
  by_cases hage : age = 0
  · rw [if_pos hage]
    exact ⟨U, r, h, fun _ hq => hq, fun q hq hq' => absurd hq hq', fun _ _ => rfl⟩
  · rw [if_neg hage]
    rcases hadd : ipfAddtimeoutqueue w' age new with ⟨w₂, o⟩
    obtain ⟨U', r', hu, hok, hsub, ho, href, hnewU, hrest, hifq⟩ :=
      addtimeoutqueue_spec h.users h.ok hadd hnew (fun q hq hqU => by
        rw [eq_nil_iff_forall_not_mem]
        exact fun x hx => hqU ((h.queued q x hx).2 hq))
    dsimp only
    have his : w₂.is = w'.is := by rw [hrest]
    refine ⟨U', r', ⟨?_, ⟨hu.chain, hu.alloc, hu.user⟩, hok, fun q x hx => ?_, fun q hq => ?_,
      fun x hx rev' q hq => hsub q (h.slot x hx rev' q hq), fun rev' q hq => ?_⟩, hsub, hnewU,
      fun rev' hr => ?_⟩
    · have hf : Fresh { w with tq := w₂.tq } e w₂ := by
        refine ⟨?_, ?_, ?_, ?_, ?_, ?_, ?_, fun x hx => ?_, rfl⟩
        · rw [hrest]
          exact h.fresh.list
        · rw [hrest]
          exact h.fresh.table
        · rw [hrest]
          exact h.fresh.size
        · rw [hrest]
          exact h.fresh.bucketlen
        · rw [hrest]
          exact h.fresh.inuse
        · rw [hrest]
          exact h.fresh.active
        · rw [hrest]
          exact h.fresh.alloc
        · rw [his]
          exact h.fresh.is x hx
      exact hf.upd _
    · obtain ⟨hxA, hxU⟩ := h.queued q x hx
      exact ⟨hxA, fun hq => hsub q (hxU hq)⟩
    · rw [upd_is_self, his, slots_update hrev, href q hq]
      split
      · rename_i hqU
        rw [h.ref q hqU]
        ring
      · rename_i hqU
        have hnone : (w'.is e).slots q = 0 := by
          rw [Ipstate.slots, if_neg fun hc => hqU (h.own _ q hc), if_neg fun hc => hqU (h.own _ q hc)]
          rfl
        rw [slotSum_eq_zero fun x hx rev' hc => hqU (h.slot x hx rev' q hc), hnone]
        ring
    · rw [upd_is_self, his] at hq
      dsimp only at hq
      by_cases hr : rev' = rev
      · rw [hr, update_self] at hq
        exact ho q hq
      · rw [update_of_ne hr] at hq
        exact hsub q (h.own rev' q hq)
    · rw [upd_is_self, his]
      exact update_of_ne hr _ _

/-- The queue of a rule that `ipf_state_setqueue` chooses is one of the entry's slots. -/
theorem setqueueTarget_slot {rev : Bool} (h : (setqueueTarget i rev).isUser = true) :
    i.isTqehead rev = some (setqueueTarget i rev) := by
  unfold setqueueTarget at h ⊢
  split
  · rename_i q hq
    split at hq
    · exact hq
    · exact absurd hq (by simp)
  · rename_i hq
    rw [hq] at h
    dsimp only at h
    split at h
    · split at h <;> exact absurd h (by decide)
    · split at h
      · exact absurd h (by simp [Tqid.isUser])
      · split at h
        · split at h <;> exact absurd h (by decide)
        · exact absurd h (by decide)

/-- The hash value is cut to the size of the table. -/
theorem Starting.rehv (h : Starting w A e w' U r L) (hv : ℕ) :
    Starting w A e (w'.upd e fun i => { i with isHv := hv }) U r L := by
  refine ⟨h.fresh.upd _, ⟨h.users.chain, h.users.alloc, h.users.user⟩, h.ok, h.queued, fun q hq => ?_,
    h.slot, fun rev q hq => ?_⟩
  · rw [upd_is_self]
    exact h.ref q hq
  · rw [upd_is_self] at hq
    exact h.own rev q hq

/-- A new entry is entered. -/
theorem entered_aged (h : Starting w A e w' U r L) (hg : Good dead w A H) (he : e ∉ A)
    (hlt : (w'.is e).isHv < w.size) (rev : Bool) (t : ℕ) :
    ∃ w'' H' L', ipfStateSetqueue (enter w' e (w'.is e).isHv) e rev t = some w'' ∧
      Aged (fun x => x ≠ e ∧ dead x) w'' (e :: A) H' U r L' ∧ w''.ifqAlloc = w'.ifqAlloc := by
  have hgood := enter_good (hg.same (same_tq w w'.tq)) he h.fresh hlt rfl
  have hok : Ok r (enter w' e (w'.is e).isHv).tq L := h.ok
  set q := setqueueTarget ((enter w' e (w'.is e).isHv).is e) rev with hq
  obtain ⟨tq, L', hset, hok', hmem, -⟩ := toQueue_ok hok e q t
  have hgood' := hgood.same (same_tq _ tq)
  have his : ∀ x ∈ A, w'.is x = w.is x := fun x hx => h.fresh.is x fun hxe => he (hxe ▸ hx)
  refine ⟨_, _, L', hset, ⟨hgood', ⟨h.users.chain, h.users.alloc, h.users.user⟩, hok', fun q' x hx => ?_,
    fun q' hq' => ?_, fun x hx rev' q' hq' => ?_⟩, rfl⟩
  · rcases hmem q' x hx with ⟨rfl, rfl⟩ | hx
    · refine ⟨mem_cons_self, fun hu => h.own rev _ ?_⟩
      exact setqueueTarget_slot hu
    · obtain ⟨hxA, hxU⟩ := h.queued q' x hx
      exact ⟨mem_cons_of_mem _ hxA, hxU⟩
  · rw [h.ref q' hq']
    have hsum : slotSum w' A q' = slotSum w A q' := slotSum_congr fun x hx => by rw [his x hx]
    change _ = 1 + ((w'.is e).slots q' + slotSum w' A q')
    rw [hsum]
    ring
  · change (w'.is x).isTqehead rev' = some q' at hq'
    rcases mem_cons.1 hx with rfl | hx
    · exact h.own rev' q' hq'
    · rw [his x hx] at hq'
      exact h.slot x hx rev' q' hq'

/-- A new entry that is refused gives its queues back and is freed. -/
theorem refused_aged (h : Starting w A e w' U r L) (hg : Good dead w A H) (he : w.alloc e = false)
    {w'' : Softs} (hw : (w'.dropTq ((w'.is e).isTqehead false)).dropTq ((w'.is e).isTqehead true) = w'') :
    ∃ r', Aged dead { w'' with alloc := update w''.alloc e false } A H U r' L ∧
      w''.ifqAlloc = w'.ifqAlloc := by
  have heA : e ∉ A := fun hA => by
    rw [(hg.alloc e).2 hA] at he
    exact absurd he (by simp)
  have hs := (same_dropTq w' ((w'.is e).isTqehead false)).trans
    (same_dropTq (w'.dropTq ((w'.is e).isTqehead false)) ((w'.is e).isTqehead true))
  have husers := dropTqs_users (i := w'.is e) h.ok fun rev q hq => by
    rw [h.ref q (h.own rev q hq)]
    have := slotSum_nonneg w A q
    omega
  have hok := dropTq_ok (dropTq_ok h.ok ((w'.is e).isTqehead false)) ((w'.is e).isTqehead true)
  have his : w''.is = w'.is := by rw [← hw, dropTq_is, dropTq_is]
  rw [hw] at hs husers hok
  have hsame := (same_tq w w'.tq).trans (h.fresh.dropped he hs his)
  have hslots : ∀ x ∈ A, (w''.is x).isTqehead = (w.is x).isTqehead := by
    intro x hx
    have hx' := h.fresh.is x fun hxe => heA (hxe ▸ hx)
    rw [his, hx']
  have hu := h.users.same husers
  refine ⟨_, ⟨hg.same hsame, ⟨hu.chain, hu.alloc, hu.user⟩, hok, h.queued, fun q hq => ?_,
    fun x hx rev q hq => ?_⟩, husers.alloc⟩
  · rw [h.ref q hq]
    have hsum : slotSum w'' A q = slotSum w A q := slotSum_congr hslots
    change _ = 1 + slotSum w'' A q
    rw [hsum, Ipstate.slots]
    ring
  · exact h.slot x hx rev q (by rw [← hslots x hx]; exact hq)

theorem Aged.starting (h : Aged dead w A H U r L) (he : w.alloc e = false) (hi : ∀ rev, i.isTqehead rev = none) :
    e ∉ A ∧ Starting w A e (w.malloc e i) U r L := by
  have heA : e ∉ A := fun hA => by
    rw [(h.alloc e).2 hA] at he
    exact absurd he (by simp)
  have hnone : w.tq.tqeIfq e = none := by
    by_contra hne
    obtain ⟨q, hq⟩ := ne_none_iff_exists'.1 hne
    exact heA (h.queued q e ((h.ok.ifq e q).1 hq)).1
  have hf := fresh_malloc w hnone i
  have hself : (w.malloc e i).is e = i := by simp [Softs.malloc]
  refine ⟨heA, ⟨?_, ⟨h.users.chain, h.users.alloc, h.users.user⟩, ?_, h.queued, fun q hq => ?_, h.slot,
    fun rev q hq => ?_⟩⟩
  · exact ⟨hf.list, hf.table, hf.size, hf.bucketlen, hf.inuse, hf.active, hf.alloc, hf.is, rfl⟩
  · rw [hf.tq]
    exact h.ok
  · rw [hself, h.ref q hq, Ipstate.slots, hi, hi]
    simp
  · rw [hself, hi] at hq
    exact absurd hq (by simp)

/-- The end of an insertion, whether it succeeds or is refused. -/
theorem addInsert_aged (h : Starting w A e w' U r L) (hg : Good dead w A H) (he : w.alloc e = false)
    (heA : e ∉ A) (hsize : w'.size = w.size) (rev full : Bool) (t : ℕ) :
    ∃ w'' ok dead' A' H' r' L', addInsert w' e rev full t = some (w'', ok) ∧
      Aged dead' w'' A' H' U r' L' ∧ w''.ifqAlloc = w'.ifqAlloc := by
  set hv := (w'.is e).isHv % w'.size
  set w₁ := w'.upd e (fun i => { i with isHv := hv }) with hw₁
  have hstart : Starting w A e w₁ U r L := h.rehv hv
  have hhv : (w₁.is e).isHv = hv := by rw [hw₁, upd_is_self]
  unfold addInsert
  cases full with
  | true =>
    set w₂ := w₁.dropTq ((w₁.is e).isTqehead false) with hw₂
    have hdrops : (w₁.dropTq ((w₁.is e).isTqehead false)).dropTq ((w₁.is e).isTqehead true) =
        w₂.dropTq ((w₂.is e).isTqehead true) := by
      rw [hw₂, dropTq_is]
    obtain ⟨r', haged, halloc⟩ := refused_aged hstart hg he hdrops
    exact ⟨_, false, dead, A, H, r', L, rfl, haged, halloc⟩
  | false =>
    have hlt : (w₁.is e).isHv < w.size := by
      rw [hhv, ← hsize]
      exact Nat.mod_lt _ (hsize ▸ hg.pos)
    obtain ⟨w'', H', L', hset, haged, halloc⟩ := entered_aged hstart hg heA hlt rev t
    rw [hhv] at hset
    have hins : ipfStateInsert w' e rev false t = some (w'', true) := by
      change (ipfStateSetqueue (enter w₁ e hv) e rev t).map _ = _
      rw [hset]
      rfl
    rw [hins]
    exact ⟨w'', true, _, e :: A, H', r, L', rfl, haged, halloc⟩

/-- Queues are only added. -/
theorem Users.mono {U' : List Tqid} (h : Users w U) (h' : Users w' U') (hsub : ∀ q ∈ U, q ∈ U') :
    ∀ q, q.isUser = true → w.ifqAlloc q = true → w'.ifqAlloc q = true :=
  fun q hq ha => (h'.alloc q hq).2 (hsub q ((h.alloc q hq).1 ha))

/-- **`ipf_state_add`** with a rule that gives ages. -/
theorem add_aged (h : Aged dead w A H U r L) (he : w.alloc e = false) (i : Ipstate)
    (stsave : Option ℕ) (age : Bool → ℕ) {new : Bool → Option ℕ}
    (hnew : ∀ rev a, new rev = some a → w.ifqAlloc (.user a) = false)
    (hne : ∀ a, new false = some a → new true ≠ some a) (rev full : Bool) (t : ℕ) :
    ∃ w' ok dead' A' H' U' r' L', addTail w e i stsave age new rev full t = some (w', ok) ∧
      Aged dead' w' A' H' U' r' L' ∧ ∀ q, q.isUser = true → w.ifqAlloc q = true → w'.ifqAlloc q = true := by
  set i₀ : Ipstate := { i.owned stsave with isTqehead := fun _ => none } with hi₀
  obtain ⟨heA, h₀⟩ := h.starting he (i := i₀) fun _ => rfl
  have hself : (w.malloc e i₀).is e = i₀ := by simp [Softs.malloc]
  -- the slot for the forward direction
  have hnone₁ : ((w.malloc e i₀).is e).isTqehead false = none := by rw [hself]
  obtain ⟨U₁, r₁, h₁, hsub₁, hnew₁, hkeep₁⟩ := addAge_starting h₀ hnone₁ (age false) (hnew false)
  -- the slot for the other
  have hnew₂ : ∀ a, new true = some a →
      (addAge (w.malloc e i₀) e false (age false) (new false)).ifqAlloc (.user a) = false := by
    intro a ha
    rw [← Bool.not_eq_true, h₁.users.alloc _ rfl]
    intro hmem
    by_cases hU : Tqid.user a ∈ U
    · have hold := hnew true a ha
      rw [(h.users.alloc _ rfl).2 hU] at hold
      exact absurd hold (by simp)
    · obtain ⟨b, hb, hab⟩ := hnew₁ _ hmem hU
      cases hab
      exact hne a hb ha
  have hnone₂ := hkeep₁ true (by decide)
  rw [hself] at hnone₂
  obtain ⟨U₂, r₂, h₂, hsub₂, -, -⟩ := addAge_starting h₁ hnone₂ (age true) hnew₂
  have hsize := h₂.fresh.size
  obtain ⟨w', ok, dead', A', H', r', L', heq, haged, halloc⟩ :=
    addInsert_aged h₂ h.toGood he heA hsize rev full t
  refine ⟨w', ok, dead', A', H', U₂, r', L', heq, haged, ?_⟩
  exact h.users.mono haged.users fun q hq => hsub₂ q (hsub₁ q hq)

/-- Fields that no queue depends on may change. -/
theorem Aged.upd (h : Aged dead w A H U r L) {f : Ipstate → Ipstate} (hv : ∀ i, (f i).isHv = i.isHv)
    (hf : ∀ i, (f i).isTqehead = i.isTqehead) : Aged dead (w.upd e f) A H U r L := by
  have hslots : ∀ x, ((w.upd e f).is x).isTqehead = (w.is x).isTqehead := by
    intro x
    by_cases hx : x = e
    · rw [hx, upd_is_self, hf]
    · rw [upd_is_ne _ _ hx]
  refine ⟨h.toGood.same (same_upd w e f hv), ⟨h.users.chain, h.users.alloc, h.users.user⟩, h.ok, h.queued,
    fun q hq => ?_, fun x hx rev q hq => ?_⟩
  · rw [h.ref q hq, slotSum_congr fun x _ => hslots x]
  · rw [hslots x] at hq
    exact h.slot x hx rev q hq

/-- An entry that was refused has the slots it came with. -/
theorem insert_false_slots {rev full : Bool} {t : ℕ} (h : ipfStateInsert w e rev full t = some (w', false))
    (hnone : ∀ rev, (w.is e).isTqehead rev = none) : ∀ rev, (w'.is e).isTqehead rev = none := by
  unfold ipfStateInsert at h
  dsimp only at h
  split at h
  · cases h
    intro rev'
    rw [upd_is_self]
    exact hnone rev'
  · simp at h

/-- **`ipf_state_clone`** of an entry without slots. -/
theorem clone_aged (h : Aged dead w A H U r L) {c : ℕ} (hc : w.alloc c = false)
    (hcopy : ∀ rev, (w.is e).isTqehead rev = none) (rev full : Bool) (t : ℕ) :
    ∃ w' ok dead' A' H' r' L', ipfStateClone w e c rev full t = some (w', ok) ∧
      Aged dead' w' A' H' U r' L' ∧ w'.ifqAlloc = w.ifqAlloc := by
  set i : Ipstate := { w.is e with
    isState := fun _ => 0
    isFlags := ((w.is e).isFlags &&& ~~~SI_CLONE) ||| SI_CLONED } with hi
  obtain ⟨hcA, hstart⟩ := h.starting hc (i := i) hcopy
  obtain ⟨w', ok, dead', A', H', r', L', hins, haged, halloc⟩ :=
    addInsert_aged hstart h.toGood hc hcA rfl rev full t
  have heq : ipfStateClone w e c rev full t =
      some (if ok then w'.upd c fun i => { i with isRef := 1 } else w', ok) := by
    unfold addInsert at hins
    unfold ipfStateClone
    simp only [← hi]
    cases hi' : ipfStateInsert (w.malloc c i) c rev full t with
    | none => simp [hi'] at hins
    | some p =>
      obtain ⟨w₁, ok₁⟩ := p
      cases ok₁ with
      | true =>
        simp only [hi', bind_eq_bind, bind_some] at hins ⊢
        cases hins
        rfl
      | false =>
        -- the copy has no slots to give back
        have hnone := insert_false_slots hi' fun rev => by simpa [Softs.malloc] using hcopy rev
        simp only [hi', bind_eq_bind, bind_some, hnone, Softs.dropTq] at hins ⊢
        cases hins
        rfl
  rw [heq]
  refine ⟨_, ok, dead', A', H', r', L', rfl, ?_, ?_⟩
  · split
    · exact haged.upd (fun _ => rfl) fun _ => rfl
    · exact haged
  · split
    · exact halloc
    · exact halloc

/-! ## Whole runs -/

/-- **One call** that copies no slot returns, keeps the count, and frees no queue. -/
theorem call_aged (h : Aged dead w A H U r L) {c : Call} (hl : c.Legal w) (hc : c.NoCopy w) :
    ∃ w' dead' A' H' U' r' L', c.run w = some w' ∧ Aged dead' w' A' H' U' r' L' ∧
      ∀ q, q.isUser = true → w.ifqAlloc q = true → w'.ifqAlloc q = true := by
  have hdel : ∀ e, w.alloc e = true → ∃ w' dead' A' H' U' r' L',
      (ipfStateDel w e).map Prod.fst = some w' ∧ Aged dead' w' A' H' U' r' L' ∧
      ∀ q, q.isUser = true → w.ifqAlloc q = true → w'.ifqAlloc q = true := by
    intro e he
    obtain ⟨w', n, A', H', r', L', heq, haged, halloc⟩ := del_aged h ((h.alloc e).1 he)
    exact ⟨w', _, A', H', U, r', L', by simp [heq], haged, fun q _ hq => by rw [halloc]; exact hq⟩
  cases c with
  | add e i stsave age new rev full t =>
    obtain ⟨w', ok, dead', A', H', U', r', L', heq, haged, halloc⟩ :=
      add_aged h hl.1 i stsave age hl.2.1 hl.2.2 rev full t
    exact ⟨w', dead', A', H', U', r', L', by simp [Call.run, heq], haged, halloc⟩
  | clone e c rev full t =>
    obtain ⟨w', ok, dead', A', H', r', L', heq, haged, halloc⟩ := clone_aged h hl.2.2 hc rev full t
    exact ⟨w', dead', A', H', U, r', L', by simp [Call.run, heq], haged,
      fun q _ hq => by rw [halloc]; exact hq⟩
  | del e => exact hdel e hl
  | hold e => exact ⟨_, dead, A, H, U, r, L, rfl, h.upd (fun _ => rfl) fun _ => rfl, fun _ _ hq => hq⟩
  | deref e =>
    have ha : w.alloc e = true := hl
    simp only [Call.run, ipfStateDeref, ha, Bool.true_eq_false, if_false]
    split
    · exact ⟨_, dead, A, H, U, r, L, rfl, h.upd (fun _ => rfl) fun _ => rfl, fun _ _ hq => hq⟩
    · exact hdel e ha
  | packet e q t =>
    obtain ⟨tq, L', heq, hok, hmem, -⟩ := toQueue_ok h.ok e q t
    have heA := (h.alloc e).1 hl.1
    refine ⟨_, dead, A, H, U, r, L', heq, ⟨h.toGood.same (same_tq w tq), ⟨h.users.chain, h.users.alloc,
      h.users.user⟩, hok, fun q' x hx => ?_, h.ref, h.slot⟩, fun _ _ hq => hq⟩
    rcases hmem q' x hx with ⟨rfl, rfl⟩ | hx
    · refine ⟨heA, fun hu => ?_⟩
      obtain ⟨rev, hrev⟩ := hl.2.2 hu
      exact h.slot x heA rev q' hrev
    · exact h.queued q' x hx

theorem init_aged {size : ℕ} (hs : 0 < size) (is : ℕ → Ipstate) (ttl flags : Tqid → ℕ) (ref : Tqid → ℤ) :
    Aged (fun _ => False) (Softs.init size is (Tq.init ttl flags ref)) [] (fun _ => []) [] ref (fun _ => []) where
  toGood := init_good hs is _
  users := ⟨rfl, by simp [Softs.init], by simp⟩
  ok := init_ok ttl flags ref
  queued := by simp
  ref := by simp
  slot := by simp

theorem calls_aged {w₀ : Softs} (h : ∃ dead A H U r L, Aged dead w₀ A H U r L)
    (hrun : Calls Call.NoCopy w₀ w) : ∃ dead A H U r L, Aged dead w A H U r L := by
  induction hrun with
  | init => exact h
  | step c _ hl hc hrun ih =>
    obtain ⟨dead, A, H, U, r, L, haged⟩ := ih
    obtain ⟨w', dead', A', H', U', r', L', hrun', haged', -⟩ := call_aged haged hl hc
    rw [hrun] at hrun'
    cases hrun'
    exact ⟨dead', A', H', U', r', L', haged'⟩

/-- **What `ifq_ref` counts.** `A` are the entries in memory: a queue of a rule that is allocated is
referred to once by the list it is on, by their slots and by those queued on it, and no slot and no
queued entry refers to one that is not allocated. -/
def Counted (w : Softs) : Prop :=
  ∃ A : List ℕ, A.Nodup ∧ (∀ e, w.alloc e = true ↔ e ∈ A) ∧
    (∀ q, q.isUser = true → w.ifqAlloc q = true → w.tq.ifqRef q =
      1 + (A.map fun e => (w.is e).slots q).sum + A.countP (fun e => w.tq.tqeIfq e = some q)) ∧
    (∀ e ∈ A, ∀ rev q, (w.is e).isTqehead rev = some q → w.ifqAlloc q = true) ∧
    ∀ e q, w.tq.tqeIfq e = some q → e ∈ A ∧ (q.isUser = true → w.ifqAlloc q = true)

theorem Aged.counted (h : Aged dead w A H U r L) : Counted w := by
  have halloc : ∀ q ∈ U, w.ifqAlloc q = true := fun q hq => (h.users.alloc q (h.users.user q hq)).2 hq
  refine ⟨A, h.toAcc.nodup, h.alloc, fun q hq ha => ?_, fun e he rev q hq => halloc q (h.slot e he rev q hq),
    fun e q heq => ?_⟩
  · have hqU := (h.users.alloc q hq).1 ha
    rw [h.ok.ref q, h.ref q hqU]
    have hlen : (L q).length = A.countP (fun e => w.tq.tqeIfq e = some q) := by
      rw [countP_eq_length_filter]
      refine List.Perm.length_eq ((perm_ext_iff_of_nodup (h.ok.rep.nodup q)
        (h.toAcc.nodup.filter _)).2 fun e => ?_)
      rw [mem_filter, decide_eq_true_eq, h.ok.ifq e q]
      exact ⟨fun he => ⟨(h.queued q e he).1, he⟩, fun he => he.2⟩
    rw [hlen]
    rfl
  · obtain ⟨heA, heU⟩ := h.queued q e ((h.ok.ifq e q).1 heq)
    exact ⟨heA, fun hu => halloc q (heU hu)⟩

/-- **Over whole runs** in which no clone copies a slot, `ifq_ref` of every queue of a rule is one more
than its slots and entries; no call fails, and no call frees a queue. -/
theorem calls_ref (is : ℕ → Ipstate) (ttl flags : Tqid → ℕ) (ref : Tqid → ℤ) {size : ℕ} (hs : 0 < size)
    (hrun : Calls Call.NoCopy (Softs.init size is (Tq.init ttl flags ref)) w) :
    Counted w ∧ ∀ c : Call, c.Legal w → c.NoCopy w → ∃ w', c.run w = some w' ∧
      ∀ q, q.isUser = true → w.ifqAlloc q = true → w'.ifqAlloc q = true := by
  obtain ⟨dead, A, H, U, r, L, haged⟩ :=
    calls_aged ⟨_, _, _, _, _, _, init_aged hs is ttl flags ref⟩ hrun
  refine ⟨haged.counted, fun c hl hc => ?_⟩
  obtain ⟨w', -, -, -, -, -, -, hrun', -, halloc⟩ := call_aged haged hl hc
  exact ⟨w', hrun', halloc⟩

/-- An entry for a rule with an age of ten seconds in the forward direction; the queue is new. -/
def agedEntry : Call :=
  .add 0 Ipstate.zero none (fun rev => if rev then 0 else 10) (fun rev => if rev then none else some 7)
    false false 0

theorem agedEntry_legal : agedEntry.Legal eightBuckets :=
  ⟨rfl, fun _ _ _ => rfl, fun _ _ => by simp⟩

/-- Another entry for the rule, which shares the queue. -/
def agedOther : Call :=
  .add 1 Ipstate.zero none (fun rev => if rev then 0 else 10) (fun _ => none) false false 0

/-- Two entries share a queue, and the first one is deleted. -/
theorem calls_ref_two :
    ∃ w, Calls Call.NoCopy eightBuckets w ∧ Counted w ∧ w.ifqAlloc (.user 7) = true ∧
      w.tq.ifqRef (.user 7) = 3 := by
  have h₁ : Calls Call.NoCopy eightBuckets _ := Calls.step agedEntry .init agedEntry_legal trivial rfl
  have h₂ : Calls Call.NoCopy eightBuckets _ := Calls.step agedOther h₁ ⟨rfl, nofun, nofun⟩ trivial rfl
  have h₃ : Calls Call.NoCopy eightBuckets _ := Calls.step (.del 0) h₂ rfl trivial rfl
  exact ⟨_, h₃, (calls_ref _ _ _ _ (by decide) h₃).1, by decide, by decide⟩

/-- `ifq_ref` without the reference of the list. -/
def Balanced (w : Softs) : Prop :=
  ∃ A : List ℕ, A.Nodup ∧ (∀ e, w.alloc e = true ↔ e ∈ A) ∧
    ∀ q, q.isUser = true → w.ifqAlloc q = true → w.tq.ifqRef q =
      (A.map fun e => (w.is e).slots q).sum + A.countP (fun e => w.tq.tqeIfq e = some q)

/-- **A queue outlives its last user.** The only entry is deleted, and its queue is still allocated with
one reference. -/
theorem calls_not_balanced :
    ∃ w, Calls (fun _ _ => True) eightBuckets w ∧ ¬Balanced w := by
  have h₁ : Calls (fun _ _ => True) eightBuckets _ :=
    Calls.step agedEntry .init agedEntry_legal trivial rfl
  have h₂ := Calls.step (.del 0) h₁ rfl trivial rfl
  refine ⟨_, h₂, ?_⟩
  rintro ⟨A, -, hA, href⟩
  have hnil : A = [] := by
    rw [eq_nil_iff_forall_not_mem]
    intro e he
    have halloc := (hA e).2 he
    by_cases h0 : e = 0
    · subst h0
      exact absurd halloc (by decide)
    · have hf : update (update (fun _ => false) 0 true) 0 false e = true := halloc
      rw [update_of_ne h0, update_of_ne h0] at hf
      exact absurd hf (by decide)
  have h7 := href (.user 7) rfl (by decide)
  rw [hnil] at h7
  exact absurd h7 (by decide)

end Ipfilter.State
