import Ipfilter.Spec.Rpcb
import Mathlib.Data.List.Perm.Subperm

/-!
# Transactions of the RPCBIND proxy are accounted for

* `Good`: the invariant, with the number of transactions that were freed with their sessions;
* `Good.enter`, `Good.give`, `Good.flush` — a new transaction, a reference given back, a session deleted;
* `rpcbcnt_eq` — **`rpcbcnt` is the number of transactions and of those that were freed with their sessions;**
* `rpcb_accounts` — as long as no session is deleted with transactions that wait, these are accounted for;
  `deleted_leaks` is a session that is deleted with one.
-/

namespace Ipfilter.Rpcb

open Chain List Option
open Function (update update_eq_self update_idem update_of_ne update_self)

variable {w w' : World} {L : ℕ → List ℕ} {lost a rs : ℕ}

theorem addRef_self (w : World) (a : ℕ) (k : BitVec 32) :
    (w.addRef a k).rx a = { w.rx a with rxRef := (w.rx a).rxRef + k } := update_self ..

theorem addRef_ne (w : World) {a b : ℕ} (k : BitVec 32) (h : b ≠ a) : (w.addRef a k).rx b = w.rx b :=
  update_of_ne h ..

/-- **What holds after every event.** -/
structure Good (w : World) (L : ℕ → List ℕ) (lost : ℕ) : Prop where
  linked : Linked w.rxlist w.sessions L
  mem : ∀ a, a ∈ w.xacts ↔ ∃ rs, a ∈ L rs
  nodup : w.xacts.Nodup
  sessions : w.sessions.Nodup
  ref : ∀ a ∈ w.xacts, (w.rx a).rxRef ≠ 0
  count : w.rpcbcnt = w.xacts.length + lost

theorem Good.session (h : Good w L lost) (ha : a ∈ L rs) : rs ∈ w.sessions := by
  by_contra hc
  rw [h.linked.lists.eq_nil hc] at ha
  cases ha

/-- A list is not longer than memory. -/
theorem Good.length_le (h : Good w L lost) (rs : ℕ) : (L rs).length ≤ w.xacts.length := by
  have hsub : (L rs).Subperm w.xacts := (h.linked.lists.nodup rs).subperm fun a ha => (h.mem a).mpr ⟨rs, ha⟩
  exact hsub.length_le

/-- What a search finds is on the list of the session. -/
theorem Good.lookup (h : Good w L lost) (hs : rs ∈ w.sessions) (xid : BitVec 32) :
    ipfPRpcbLookup w rs xid = (L rs).find? fun a => (w.rx a).rxXid == xid := by
  unfold ipfPRpcbLookup
  rw [h.linked.lists.find hs _ (h.length_le rs)]
  congr 1
  funext a
  simp [bne]

theorem Good.lookup_mem (h : Good w L lost) (hs : rs ∈ w.sessions) {xid : BitVec 32} (hl : ipfPRpcbLookup w rs xid = some a) :
    a ∈ L rs ∧ a ∈ w.xacts := by
  rw [h.lookup hs] at hl
  have hm := mem_of_find?_eq_some hl
  exact ⟨hm, (h.mem a).mpr ⟨rs, hm⟩⟩

theorem good_load (rxlist : Mem ℕ ℕ) (rx : ℕ → RpcbXact) : Good (load rxlist rx) (fun _ => []) 0 where
  linked := .of_seg (fun _ hh => by cases hh) fun _ _ => rfl
  mem := by simp [load]
  nodup := nodup_nil
  sessions := nodup_nil
  ref := by simp [load]
  count := by simp [load]

/-- A new session. -/
theorem Good.new (h : Good w L lost) (hs : rs ∉ w.sessions) : Good (ipfPRpcbNew w rs) L lost := by
  refine ⟨?_, h.mem, h.nodup, nodup_cons.mpr ⟨hs, h.sessions⟩, h.ref, h.count⟩
  apply Linked.join _ hs (by simp [ipfPRpcbNew])
  refine h.linked.congr ?_ ?_ ?_
  · intro g hg
    have hne : rs ≠ g := fun hc => hs (hc ▸ hg)
    simp [ipfPRpcbNew, hne]
  · intro _ n _
    simp [ipfPRpcbNew]
  · intro _ n _
    simp [ipfPRpcbNew]

/-- A transaction keeps its place when only its count changes, and the count is not 0. -/
theorem Good.recount (h : Good w L lost) {k : BitVec 32} (hk : (w.rx a).rxRef + k ≠ 0) : Good (w.addRef a k) L lost := by
  refine ⟨h.linked, h.mem, h.nodup, h.sessions, ?_, h.count⟩
  intro b hb
  by_cases hba : b = a
  · rw [hba, addRef_self]
    exact hk
  · rw [addRef_ne w k hba]
    exact h.ref b hb

/-- **A new transaction** at the front of its list. -/
theorem Good.enter (h : Good w L lost) (hs : rs ∈ w.sessions) (ha : a ∉ w.xacts) (rx : RpcbXact) : Good { w with
      rxlist := (((w.rxlist.setP? (w.rxlist.head rs) (some (.next a))).setP a (some (.head rs))).set (.next a)
        (w.rxlist.head rs)).set (.head rs) (some a)
      rx := update w.rx a { rx with rxRef := 1 }
      xacts := a :: w.xacts
      rpcbcnt := w.rpcbcnt + 1 } (update L rs (a :: L rs)) lost := by
  have hf : ∀ g, a ∉ L g := fun g hg => ha ((h.mem a).mpr ⟨g, hg⟩)
  have hne : w.rxlist.get (.head rs) ≠ some a := by
    rw [(h.linked.seg hs).head?]
    exact fun hc => hf rs (mem_of_head? hc)
  have hin : Inserted w.rxlist ((((w.rxlist.setP? (w.rxlist.head rs) (some (.next a))).setP a (some (.head rs))).set
      (.next a) (w.rxlist.head rs)).set (.head rs) (some a)) a (.head rs) := by
    refine ⟨by simp, fun _ => by simp, by simp, ?_, ?_, ?_⟩
    · intro x h1 h2
      simp [h1, h2]
    · intro y hy hya
      have hy' : w.rxlist.head rs = some y := hy
      simp [hy', hya]
    · intro x h1 h2
      have h1' : ¬w.rxlist.head rs = some x := h1
      simp [h1', h2]
  refine ⟨?_, ?_, nodup_cons.mpr ⟨ha, h.nodup⟩, h.sessions, ?_, ?_⟩
  · exact h.linked.insert hs (nil_append (L rs)).symm hf rfl hin
  · intro x
    rw [mem_cons, h.mem]
    have hadd := fun g => mem_added (L := L) (n := a) (x := x) (g := g) (nil_append (L rs)).symm
    simp only [nil_append] at hadd
    simp only [hadd]
    constructor
    · rintro (rfl | ⟨g, hg⟩)
      · exact ⟨rs, .inr ⟨rfl, rfl⟩⟩
      · exact ⟨g, .inl hg⟩
    · rintro ⟨g, hg | ⟨rfl, _⟩⟩
      · exact .inr ⟨g, hg⟩
      · exact .inl rfl
  · intro b hb
    dsimp only
    by_cases hba : b = a
    · rw [hba, update_self]
      exact (by decide : (1 : BitVec 32) ≠ 0)
    · rw [update_of_ne hba]
      exact h.ref b ((mem_cons.mp hb).resolve_left hba)
  · have := h.count
    simp only [length_cons]
    push_cast
    omega

/-- The last reference: the transaction leaves its list and is freed. -/
theorem deref_last {k : Link ℕ ℕ} (ha : a ∈ w.xacts) (hr : ((w.addRef a (-1)).rx a).rxRef = 0)
    (hk : w.rxlist.pnext a = some k) : ipfPRpcbDeref w a = some { w with
      rpcbcnt := w.rpcbcnt - 1
      rxlist := (w.rxlist.setP? (w.rxlist.next a) (some k)).set k (w.rxlist.next a)
      rx := (w.addRef a (-1)).rx
      xacts := w.xacts.erase a } := by
  have hk' : (w.addRef a (-1)).rxlist.pnext a = some k := hk
  have ha' : a ∈ (w.addRef a (-1)).xacts := ha
  unfold ipfPRpcbDeref
  rw [if_neg (by simpa using ha)]
  simp only [hr, ne_eq, not_true_eq_false, if_false, hk', bind_eq_bind, bind_some, World.kfree]
  rw [if_pos ha']
  rfl

/-- **A reference is given back:** the transaction keeps another one, or it is freed. -/
theorem Good.give (h : Good w L lost) (ha : a ∈ w.xacts) : ∃ w' L', ipfPRpcbDeref w a = some w' ∧ Good w' L' lost := by
  by_cases hr : ((w.addRef a (-1)).rx a).rxRef = 0
  · obtain ⟨rs, hrs⟩ := (h.mem a).mp ha
    have hs := h.session hrs
    obtain ⟨l₁, l₂, e⟩ := append_of_mem hrs
    have hrem := fun x g => h.linked.lists.mem_removed e (x := x) (g := g)
    refine ⟨_, update L rs (l₁ ++ l₂), deref_last ha hr (h.linked.pnext e), ?_⟩
    · refine ⟨?_, ?_, h.nodup.erase a, h.sessions, ?_, ?_⟩
      · exact h.linked.remove hs e rfl (Mem.bypass_removed _)
      · intro x
        change x ∈ w.xacts.erase a ↔ _
        rw [h.nodup.mem_erase_iff, h.mem]
        simp only [hrem]
        constructor
        · rintro ⟨h1, g, h2⟩
          exact ⟨g, h2, h1⟩
        · rintro ⟨g, h2, h1⟩
          exact ⟨h1, g, h2⟩
      · intro b hb
        have hb' := (h.nodup.mem_erase_iff).mp hb
        change ((update w.rx a _) b).rxRef ≠ 0
        rw [update_of_ne hb'.1]
        exact h.ref b hb'.2
      · have := h.count
        have hlen : (w.xacts.erase a).length + 1 = w.xacts.length := by
          have := length_erase_add_one ha
          omega
        change w.rpcbcnt - 1 = ((w.xacts.erase a).length : ℤ) + lost
        omega
  · refine ⟨w.addRef a (-1), L, ?_, h.recount ?_⟩
    · unfold ipfPRpcbDeref
      rw [if_neg (by simpa using ha)]
      exact if_pos hr
    · simpa [addRef_self] using hr

/-! ## Replies -/

/-- A reference that is taken and given back at once. -/
theorem take_give (ha : a ∈ w.xacts) (hr : (w.rx a).rxRef ≠ 0) : ipfPRpcbDeref (w.addRef a 1) a = some w := by
  have hback : ((w.addRef a 1).addRef a (-1)) = w := by
    have hr : (w.rx a).rxRef + 1 + -1 = (w.rx a).rxRef := by
      rw [BitVec.add_assoc]
      exact BitVec.add_zero _
    unfold World.addRef
    simp only [update_self, update_idem, hr, update_eq_self]
  unfold ipfPRpcbDeref
  rw [if_neg (by simpa [World.addRef] using ha), hback]
  exact if_pos hr

/-- **A reply,** whatever it says. -/
theorem Good.reply (h : Good w L lost) (hs : rs ∈ w.sessions) (xid : BitVec 32) (decode : RpcbXact → Decoded) :
    ∃ w' L', ipfPRpcbOut w rs xid decode = some w' ∧ Good w' L' lost := by
  unfold ipfPRpcbOut
  cases hl : ipfPRpcbLookup w rs xid with
  | none => exact ⟨w, L, rfl, h⟩
  | some a =>
    obtain ⟨-, ha⟩ := h.lookup_mem hs hl
    have htg := take_give ha (h.ref a ha)
    dsimp only
    cases decode ((w.addRef a 1).rx a) with
    | bad => exact ⟨w, L, htg, h⟩
    | negative => simpa only [htg, bind_some] using h.give ha
    | positive => simpa only [htg, bind_some] using h.give ha

/-! ## Requests -/

theorem Good.request (h : Good w L lost) (hs : rs ∈ w.sessions) {rx : Option RpcbXact} {malloc : Option ℕ}
    (hm : ∀ a ∈ malloc, a ∉ w.xacts) (hw : Unwrapped w (.request rs rx malloc)) :
    ∃ L', Good (ipfPRpcbIn w rs rx malloc) L' lost := by
  cases rx with
  | none => exact ⟨L, h⟩
  | some rx =>
    unfold ipfPRpcbIn ipfPRpcbInsert
    dsimp only
    cases hl : ipfPRpcbLookup w rs rx.rxXid with
    | some a =>
      refine ⟨L, h.recount ?_⟩
      have hne := hw a hl
      intro hc
      apply hne
      bv_omega
    | none =>
      dsimp only
      split
      · exact ⟨L, h⟩
      · cases malloc with
        | none => exact ⟨L, h⟩
        | some a => exact ⟨_, h.enter hs (hm a rfl) rx⟩

/-! ## Deletions -/

/-- **The loop of a deletion** frees the rest of a list. -/
theorem flushLoop_eq {l : List ℕ} : ∀ {n : ℕ} {w : World} {k : Link ℕ ℕ}, Seg w.rxlist k l → l.Nodup →
    (∀ a ∈ l, a ∈ w.xacts) →
    l.length ≤ n → w.xacts.Nodup → ∃ xs, flushLoop n w (w.rxlist.get k) = some { w with xacts := xs } ∧ xs.Nodup ∧
      (∀ a, a ∈ xs ↔ a ∈ w.xacts ∧ a ∉ l) ∧ w.xacts.length = xs.length + l.length := by
  induction l with
  | nil =>
    intro n w k hs _ _ _ hx
    have hget : w.rxlist.get k = none := hs.head?
    refine ⟨w.xacts, ?_, hx, by simp, by simp⟩
    rw [hget]
    cases n <;> rfl
  | cons a l ih =>
    intro n w k hs hnd hin hn hx
    obtain ⟨hget, -, hs'⟩ := (seg_cons _).1 hs
    obtain ⟨hal, hnd⟩ := nodup_cons.mp hnd
    obtain ⟨n, rfl⟩ : ∃ m, n = m + 1 := ⟨n - 1, by simp at hn; omega⟩
    have ha : a ∈ w.xacts := hin a (by simp)
    have hin' : ∀ b ∈ l, b ∈ w.xacts.erase a := by
      intro b hb
      rw [hx.mem_erase_iff]
      exact ⟨fun hc => hal (hc ▸ hb), hin b (by simp [hb])⟩
    obtain ⟨xs, h1, h2, h3, h4⟩ :=
      ih (w := { w with xacts := w.xacts.erase a }) hs' hnd hin' (by simpa using hn) (hx.erase a)
    refine ⟨xs, ?_, h2, ?_, ?_⟩
    · rw [hget]
      unfold flushLoop World.kfree
      rw [if_pos ha, bind_some]
      exact h1
    · intro b
      rw [h3]
      simp only [hx.mem_erase_iff, mem_cons, not_or]
      tauto
    · have hlen := length_erase_add_one ha
      simp only at h4
      simp only [length_cons]
      omega

/-- **A session is deleted** with its transactions, which `rpcbcnt` still counts. -/
theorem Good.flush (h : Good w L lost) (hs : rs ∈ w.sessions) : ∃ w', ipfPRpcbDel w rs = some w' ∧
    Good w' (update L rs []) (lost + (L rs).length) ∧ w.xacts.length = w'.xacts.length + (L rs).length := by
  obtain ⟨xs, h1, h2, h3, h4⟩ := flushLoop_eq (h.linked.seg hs) (h.linked.lists.nodup rs)
    (fun a ha => (h.mem a).mpr ⟨rs, ha⟩) (h.length_le rs) h.nodup
  refine ⟨{ w with xacts := xs, sessions := w.sessions.erase rs }, ?_, ⟨?_, ?_, h2, h.sessions.erase rs, ?_, ?_⟩, h4⟩
  · unfold ipfPRpcbDel ipfPRpcbFlush
    rw [head_get] at h1
    rw [h1]
    rfl
  · refine .of_seg (fun g hg => ?_) fun g hg => ?_
    · have hg' := (h.sessions.mem_erase_iff).mp hg
      rw [update_of_ne hg'.1]
      exact h.linked.seg hg'.2
    · by_cases hgr : g = rs
      · rw [hgr, update_self]
      · rw [update_of_ne hgr]
        exact h.linked.lists.eq_nil fun hc => hg ((h.sessions.mem_erase_iff).mpr ⟨hgr, hc⟩)
  · intro a
    change a ∈ xs ↔ _
    rw [h3, h.mem]
    constructor
    · rintro ⟨⟨g, hg⟩, hn⟩
      have hgr : g ≠ rs := fun hc => hn (hc ▸ hg)
      exact ⟨g, by rwa [update_of_ne hgr]⟩
    · rintro ⟨g, hg⟩
      by_cases hgr : g = rs
      · rw [hgr, update_self] at hg
        cases hg
      · rw [update_of_ne hgr] at hg
        exact ⟨⟨g, hg⟩, h.linked.lists.disjoint hgr hg⟩
  · intro a ha
    exact h.ref a ((h3 a).mp ha).1
  · have := h.count
    change w.rpcbcnt = (xs.length : ℤ) + ((lost + (L rs).length : ℕ) : ℤ)
    push_cast
    omega

/-! ## Runs -/

/-- **One event.** -/
theorem Good.step (h : Good w L lost) {e : Event} (hl : Legal w e) (hu : Unwrapped w e) :
    ∃ w' L', Rpcb.step w e = some w' ∧ Good w' L' (lost + flushed w w' e) := by
  cases e with
  | new rs => exact ⟨_, L, rfl, h.new hl⟩
  | request rs rx malloc =>
    obtain ⟨L', h'⟩ := h.request hl.1 hl.2 hu
    exact ⟨_, L', rfl, h'⟩
  | reply rs xid decode => exact h.reply hl xid decode
  | del rs =>
    obtain ⟨w', h1, h2, h3⟩ := h.flush hl
    refine ⟨w', update L rs [], h1, ?_⟩
    have hf : flushed w w' (.del rs) = (L rs).length := by
      change w.xacts.length - w'.xacts.length = _
      omega
    rwa [hf]

theorem Run.good {C : World → Event → Prop} (hC : ∀ w e, C w e → Unwrapped w e) (h : Run C w lost) :
    ∃ L, Good w L lost := by
  induction h with
  | start rxlist rx => exact ⟨_, good_load rxlist rx⟩
  | step e _ hl hc hstep ih =>
    obtain ⟨L, hg⟩ := ih
    obtain ⟨w'', L', h1, h2⟩ := hg.step hl (hC _ _ hc)
    obtain rfl := mem_unique h1 hstep
    exact ⟨L', h2⟩

/-- **`rpcbcnt` counts** the transactions that are outstanding, and those that were freed with their sessions. -/
theorem rpcbcnt_eq (h : Run Unwrapped w lost) : w.rpcbcnt = w.xacts.length + lost := by
  obtain ⟨L, hg⟩ := h.good fun _ _ hu => hu
  exact hg.count

theorem Calm.unwrapped {e : Event} (h : Calm w e) : Unwrapped w e := by
  cases e with
  | del rs => trivial
  | _ => exact h

/-- No transaction is freed with its session when sessions are deleted without any. -/
theorem Run.calm (h : Run Calm w lost) : lost = 0 := by
  induction h with
  | start => rfl
  | @step w w' n e hr hl hc hstep ih =>
    rw [ih, zero_add]
    cases e with
    | del rs =>
      obtain ⟨L, hg⟩ := hr.good fun _ _ hu => hu.unwrapped
      obtain ⟨w'', h1, -, h3⟩ := hg.flush hl
      obtain rfl := mem_unique h1 hstep
      have hnil : (L rs).head? = none := by
        rw [← (hg.linked.seg hl).head?]
        exact hc
      rw [head?_eq_none_iff.1 hnil] at h3
      change w.xacts.length - w''.xacts.length = 0
      simp at h3
      omega
    | _ => rfl

theorem Good.right (h : Good w L 0) : Right w := by
  refine ⟨by simpa using h.count, ⟨L, h.linked, ?_, ?_, h.nodup⟩, ?_, ?_⟩
  · intro a
    rw [h.mem]
    constructor
    · rintro ⟨rs, hrs⟩
      exact ⟨rs, h.session hrs, hrs⟩
    · rintro ⟨rs, -, hrs⟩
      exact ⟨rs, hrs⟩
  · intro a ha
    obtain ⟨rs, hrs⟩ := (h.mem a).mp ha
    refine ⟨rs, hrs, ?_⟩
    intro g hg
    by_contra hne
    exact h.linked.lists.disjoint hne hg hrs
  · intro e hl
    cases e with
    | new rs => rfl
    | request rs rx malloc => rfl
    | reply rs xid decode =>
      obtain ⟨w', -, h1, -⟩ := h.reply hl xid decode
      simp [Rpcb.step, h1]
    | del rs =>
      obtain ⟨w', h1, -⟩ := h.flush hl
      simp [Rpcb.step, h1]
  · intro rs hs rx a hf
    have hc := h.count
    unfold ipfPRpcbInsert at hf
    cases hl : ipfPRpcbLookup w rs rx.rxXid with
    | some b => simp [hl] at hf
    | none =>
      by_cases hm : w.rpcbcnt = RPCB_MAXREQS
      · rw [← hm, hc]
        simp
      · simp [hl, hm] at hf

/-- **Transactions are accounted for** as long as no session is deleted with one that waits. -/
theorem rpcb_accounts (h : Run Calm w lost) : Right w := by
  obtain ⟨L, hg⟩ := h.good fun _ _ hu => hu.unwrapped
  rw [h.calm] at hg
  exact hg.right

/-! ## A session that is deleted too early -/

/-- A request with number 7. -/
def request : RpcbXact := ⟨7, 0, 0, 17⟩

/-- Session 1 has sent it, and waits. -/
def waiting : World :=
  (ipfPRpcbInsert (ipfPRpcbNew (load Mem.empty fun _ => request) 1) 1 request (some 5)).1

theorem waiting_run (C : World → Event → Prop) (hC : ∀ w e, Calm w e → C w e) : Run C waiting 0 := by
  have h₀ : Run C (load Mem.empty fun _ => request) 0 := .start _ _
  have hl : ipfPRpcbLookup (ipfPRpcbNew (load Mem.empty fun _ => request) 1) 1 request.rxXid = none := rfl
  have h₁ : Run C (ipfPRpcbNew (load Mem.empty fun _ => request) 1) 0 :=
    h₀.step (.new 1) (by simp [Legal, load]) (hC _ _ trivial) rfl
  refine h₁.step (.request 1 (some request) (some 5)) (by simp [Legal, ipfPRpcbNew, load]) (hC _ _ ?_) rfl
  intro a ha
  rw [hl] at ha
  cases ha

theorem waiting_session : 1 ∈ waiting.sessions := by decide

theorem rpcbcnt_eq_deleted : ∃ (w : World) (lost : ℕ), w.xacts = [] ∧ w.rpcbcnt = w.xacts.length + lost := by
  have hd : (step waiting (.del 1)).map World.xacts = some [] := by decide
  obtain ⟨w, hw, h0⟩ := map_eq_some_iff.mp hd
  exact ⟨w, _, h0, rpcbcnt_eq ((waiting_run Unwrapped fun w e h => h.unwrapped).step (.del 1) waiting_session trivial hw)⟩

/-- After its reply no transaction is outstanding, and none is counted. -/
theorem rpcb_accounts_reply : ∃ w, Run Calm w 0 ∧ w.rpcbcnt = 0 ∧ Right w := by
  have hr : (step waiting (.reply 1 7 fun _ => .positive)).map World.rpcbcnt = some 0 := by decide
  obtain ⟨w, hw, h0⟩ := Option.map_eq_some_iff.mp hr
  have hrun : Run Calm w 0 :=
    (waiting_run Calm fun _ _ h => h).step (.reply 1 7 fun _ => .positive) waiting_session trivial hw
  exact ⟨w, hrun, h0, rpcb_accounts hrun⟩

/-- **A session that is deleted while it waits** leaves its transaction in the count. -/
theorem deleted_leaks : ¬∀ w lost, Run (fun _ _ => True) w lost → Right w := by
  intro h
  have hd : (step waiting (.del 1)).map (fun w => (w.rpcbcnt, w.xacts)) = some (1, []) := by decide
  obtain ⟨w, hw, h0⟩ := Option.map_eq_some_iff.mp hd
  have hrun := (waiting_run (fun _ _ => True) fun _ _ _ => trivial).step (.del 1) waiting_session trivial hw
  have hc := (h _ _ hrun).count
  rw [Prod.mk.injEq] at h0
  rw [h0.1, h0.2] at hc
  exact absurd hc (by decide)

end Ipfilter.Rpcb
