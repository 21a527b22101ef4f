import Ipfilter.Spec.StateIcmp
import Ipfilter.Proof.StateLookup

/-!
# ICMP errors stay within the packets they are about

An entry should not accept more ICMP errors about the packets of a direction and side than there were such packets.
`errors_within` says in which runs this holds. `ipf_allowstateicmp` compares with `>` before it counts, so it accepts one error
too many; it has its own way to find the direction of a packet; and an error that was accepted is counted as a packet itself.
-/

namespace Ipfilter.State

open Masks

variable {M : Machine} {e e₀ : Entry} {ev : Arrival} {accepted session : Bool → Bool → ℕ}

/-! ## One counter of four -/

theorem put2_apply {α : Type} (f : Bool → Bool → α) (x y : Bool) (a : α) (d s : Bool) :
    put2 f x y a d s = if d = x ∧ s = y then a else f d s := by
  unfold put2
  by_cases hd : d = x
  · subst hd
    rw [Function.update_self]
    by_cases hs : s = y
    · rw [hs, Function.update_self, if_pos ⟨rfl, rfl⟩]
    · rw [Function.update_of_ne hs, if_neg fun h => hs h.2]
  · rw [Function.update_of_ne hd, if_neg fun h => hd h.1]

theorem inc64_of_lt {n m : ℕ} (h : n < m) (hm : m < 2 ^ 64) : inc64 n = n + 1 := Nat.mod_eq_of_lt (by omega)

/-- The counters fit in 64 bits. -/
def Entry.Sized (e : Entry) : Prop := ∀ d s, e.icmp.isPkts d s < 2 ^ 64 ∧ e.icmp.isIcmppkts d s < 2 ^ 64

/-- No counter of packets is at its end. -/
def Entry.Room (e : Entry) : Prop := ∀ d s, e.icmp.isPkts d s + 1 ≠ 2 ^ 64

theorem Entry.Sized.inc (h : e.Sized) (hr : e.Room) (d s : Bool) : inc64 (e.icmp.isPkts d s) = e.icmp.isPkts d s + 1 := by
  have h1 := (h d s).1
  have h2 := hr d s
  exact Nat.mod_eq_of_lt (by omega)

/-! ## Conditions -/

/-- **An ICMP error comes in time:** as many errors as packets have not been accepted yet, and the packet that is quoted goes
the way that its source address says. -/
def Below (M : Machine) (e : Entry) (ev : Arrival) : Prop :=
  e.Room ∧ match ev with
    | .error fin q tcp _ _ => ∀ i rev, e.quoted M fin q tcp = some (i, rev) →
      backward i q = rev ∧ e.icmp.isIcmppkts (!rev) fin.finOut ≠ e.icmp.isPkts rev (!fin.finOut)
    | _ => True

/-- **It comes in time for the packets of the session:** the errors that may have been counted among the packets are left
out. -/
def Clear (M : Machine) (e : Entry) (ev : Arrival) : Prop :=
  Below M e ev ∧ match ev with
    | .error fin q tcp _ _ => ∀ i rev, e.quoted M fin q tcp = some (i, rev) →
      e.icmp.isIcmppkts (!rev) fin.finOut + e.icmp.isIcmppkts rev (!fin.finOut) < e.icmp.isPkts rev (!fin.finOut)
    | _ => True

/-! ## What a step can do -/

/-- **Any step:** nothing is counted; or a packet is; or an error is accepted about a packet that went `rev` on the side of `s`,
and may be counted as a packet that goes the other way. -/
theorem step_cases (hb : Below M e ev) :
    ((e.step M ev).icmp = e.icmp ∧ e.accepts M ev = none ∧ e.counts M ev = none) ∨
    (∃ rev s, (e.step M ev).icmp = e.icmp.count rev s ∧ e.accepts M ev = none ∧ e.counts M ev = some (rev, s)) ∨
    (∃ rev s, e.icmp.isIcmppkts (!rev) (!s) < e.icmp.isPkts rev s ∧ e.accepts M ev = some (rev, s) ∧
      e.counts M ev = none ∧
      (Clear M e ev → e.icmp.isIcmppkts (!rev) (!s) + e.icmp.isIcmppkts rev s < e.icmp.isPkts rev s) ∧
      ((e.step M ev).icmp = e.icmp.countError rev (!s) ∨
        (e.step M ev).icmp = (e.icmp.countError rev (!s)).count (!rev) (!s))) := by
  cases ev with
  | touch i => exact .inl ⟨rfl, rfl, rfl⟩
  | packet fin tcp notag =>
    cases hm : matchSelf M fin e.is fin.finSrc fin.finDst tcp FI_CMP with
    | none =>
      left
      cases notag <;> simp [Entry.step, Entry.accepts, Entry.counts, hm]
    | some p =>
      obtain ⟨i, rev⟩ := p
      cases notag with
      | true =>
        left
        simp [Entry.step, Entry.accepts, Entry.counts, hm]
      | false =>
        refine .inr (.inl ⟨rev, fin.finOut, ?_⟩)
        simp [Entry.step, Entry.accepts, Entry.counts, hm]
  | error fin q tcp headblock notag =>
    cases hm : e.quoted M fin q tcp with
    | none =>
      left
      simp [Entry.step, Entry.accepts, Entry.counts, hm]
    | some p =>
      obtain ⟨i, rev⟩ := p
      obtain ⟨hback, hne⟩ := hb.2 i rev hm
      by_cases hallow : ipfAllowstateicmp fin { e.icmp with headblock := headblock } i q.src = true
      · -- accepted: the count was not above the packets, and not the same
        right; right
        have hle : e.icmp.isIcmppkts (!rev) fin.finOut ≤ e.icmp.isPkts rev (!fin.finOut) := by
          unfold ipfAllowstateicmp at hallow
          rw [decide_eq_true_eq] at hallow
          have h := hallow.2.2
          change e.icmp.isIcmppkts (!backward i q) fin.finOut ≤ e.icmp.isPkts (backward i q) (!fin.finOut) at h
          rwa [hback] at h
        refine ⟨rev, !fin.finOut, ?_, ?_, rfl, fun hc => ?_, ?_⟩
        · rw [Bool.not_not]
          omega
        · simp [Entry.accepts, hm, hallow]
        · rw [Bool.not_not]
          exact hc.2 i rev hm
        · rw [Bool.not_not]
          cases notag
          · right
            simp [Entry.step, hm, hallow, hback]
          · left
            simp [Entry.step, hm, hallow, hback]
      · left
        simp [Entry.step, Entry.accepts, Entry.counts, hm, hallow]

/-! ## Runs -/

/-- **What holds of an entry and what it has gone through.** -/
structure Budget (e : Entry) (accepted session : Bool → Bool → ℕ) : Prop where
  sized : e.Sized
  errors : ∀ d s, accepted d s ≤ e.icmp.isIcmppkts (!d) (!s)
  packets : ∀ d s, accepted d s ≤ e.icmp.isPkts d s
  counted : ∀ d s, e.icmp.isPkts d s ≤ session d s + e.icmp.isIcmppkts d s

variable {session' accepted' : Bool → Bool → ℕ}

theorem count_isPkts (x : Icmpstate) (rev out d s : Bool) :
    (x.count rev out).isPkts d s = if d = rev ∧ s = out then inc64 (x.isPkts rev out) else x.isPkts d s :=
  put2_apply _ _ _ _ _ _

theorem countError_isIcmppkts (x : Icmpstate) (rev out d s : Bool) : (x.countError rev out).isIcmppkts d s =
    if d = !rev ∧ s = out then inc64 (x.isIcmppkts (!rev) out) else x.isIcmppkts d s :=
  put2_apply _ _ _ _ _ _

theorem more_some (f : Bool → Bool → ℕ) (rev out d s : Bool) :
    more f (some (rev, out)) d s = if d = rev ∧ s = out then f rev out + 1 else f d s :=
  put2_apply _ _ _ _ _ _

/-- **A packet is counted,** of the session or an error. -/
theorem Budget.count (h : Budget e accepted session) (hr : e.Room) (rev out : Bool) {e' : Entry}
    (he : e'.icmp = e.icmp.count rev out) : e'.Sized ∧ (∀ d s, accepted d s ≤ e'.icmp.isIcmppkts (!d) (!s)) ∧
      (∀ d s, accepted d s ≤ e'.icmp.isPkts d s) ∧
      ∀ d s, e'.icmp.isPkts d s ≤ more session (some (rev, out)) d s + e'.icmp.isIcmppkts d s := by
  have hpkts : ∀ d s, e'.icmp.isPkts d s = if d = rev ∧ s = out then e.icmp.isPkts rev out + 1 else e.icmp.isPkts d s := by
    intro d s
    rw [he, count_isPkts, h.sized.inc hr]
  have herr : e'.icmp.isIcmppkts = e.icmp.isIcmppkts := by rw [he]; rfl
  refine ⟨fun d s => ?_, fun d s => ?_, fun d s => ?_, fun d s => ?_⟩
  · rw [hpkts, herr]
    have h1 := h.sized d s
    have h2 := hr rev out
    have h3 := h.sized rev out
    split <;> omega
  · rw [herr]
    exact h.errors d s
  · rw [hpkts]
    have h1 := h.packets d s
    split
    · rename_i heq
      rw [heq.1, heq.2] at h1 ⊢
      omega
    · exact h1
  · rw [hpkts, herr, more_some]
    have h1 := h.counted d s
    split
    · rename_i heq
      rw [heq.1, heq.2] at h1 ⊢
      omega
    · exact h1

/-- **An error is accepted** when fewer of them were accepted than there were packets. -/
theorem Budget.countError (h : Budget e accepted session)
    {rev s : Bool} (hlt : e.icmp.isIcmppkts (!rev) (!s) < e.icmp.isPkts rev s) {e' : Entry}
    (he : e'.icmp = e.icmp.countError rev (!s)) : Budget e' (more accepted (some (rev, s))) session := by
  have hsized := h.sized rev s
  have herr : ∀ d t, e'.icmp.isIcmppkts d t =
      if d = !rev ∧ t = !s then e.icmp.isIcmppkts (!rev) (!s) + 1 else e.icmp.isIcmppkts d t := by
    intro d t
    rw [he, countError_isIcmppkts, inc64_of_lt hlt hsized.1]
  have hpkts : e'.icmp.isPkts = e.icmp.isPkts := by rw [he]; rfl
  have hat := h.errors rev s
  refine ⟨fun d t => ?_, fun d t => ?_, fun d t => ?_, fun d t => ?_⟩
  · rw [herr, hpkts]
    have h1 := h.sized d t
    split <;> omega
  · rw [herr, more_some]
    have h1 := h.errors d t
    by_cases hk : d = rev ∧ t = s
    · rw [if_pos hk, if_pos ⟨by rw [hk.1], by rw [hk.2]⟩]
      omega
    · rw [if_neg hk, if_neg fun hc => hk ⟨Bool.not_inj hc.1, Bool.not_inj hc.2⟩]
      exact h1
  · rw [hpkts, more_some]
    have h1 := h.packets d t
    split
    · rename_i hk
      rw [hk.1, hk.2]
      omega
    · exact h1
  · rw [hpkts, herr]
    have h1 := h.counted d t
    split
    · rename_i hk
      rw [hk.1, hk.2] at h1 ⊢
      omega
    · exact h1

/-- **One step** keeps the budget. -/
theorem Budget.step (h : Budget e accepted session) (hb : Below M e ev) :
    Budget (e.step M ev) (more accepted (e.accepts M ev)) (more session (e.counts M ev)) := by
  rcases step_cases hb with ⟨hicmp, hacc, hcnt⟩ | ⟨rev, s, hicmp, hacc, hcnt⟩ | ⟨rev, s, hlt, hacc, hcnt, -, hicmp⟩
  · rw [hacc, hcnt]
    refine ⟨fun d s => ?_, ?_, ?_, ?_⟩
    · rw [hicmp]
      exact h.sized d s
    · rw [hicmp]
      exact h.errors
    · rw [hicmp]
      exact h.packets
    · rw [hicmp]
      exact h.counted
  · rw [hacc, hcnt]
    obtain ⟨h1, h2, h3, h4⟩ := h.count hb.1 rev s hicmp
    exact ⟨h1, h2, h3, h4⟩
  · rw [hacc, hcnt]
    change Budget _ _ session
    have herr : Budget ⟨e.is, e.icmp.countError rev (!s)⟩ (more accepted (some (rev, s))) session := h.countError hlt rfl
    rcases hicmp with hicmp | hicmp
    · refine ⟨fun d t => ?_, ?_, ?_, ?_⟩
      · rw [hicmp]
        exact herr.sized d t
      · rw [hicmp]
        exact herr.errors
      · rw [hicmp]
        exact herr.packets
      · rw [hicmp]
        exact herr.counted
    · -- the error is counted among the packets that go its way
      obtain ⟨h1, h2, h3, h4⟩ := herr.count hb.1 (!rev) (!s) hicmp
      refine ⟨h1, h2, h3, fun d t => ?_⟩
      have h5 := h4 d t
      rw [more_some] at h5
      split at h5
      · rename_i hk
        rw [hk.1, hk.2]
        have h6 := h.counted (!rev) (!s)
        have h7 : (e.step M ev).icmp.isIcmppkts (!rev) (!s) = e.icmp.isIcmppkts (!rev) (!s) + 1 := by
          rw [hicmp]
          change (e.icmp.countError rev (!s)).isIcmppkts (!rev) (!s) = _
          rw [countError_isIcmppkts, if_pos ⟨rfl, rfl⟩, inc64_of_lt hlt (h.sized rev s).1]
        have h8 : (e.step M ev).icmp.isPkts (!rev) (!s) = e.icmp.isPkts (!rev) (!s) + 1 := by
          rw [hicmp, count_isPkts, if_pos ⟨rfl, rfl⟩]
          exact h.sized.inc hb.1 _ _
        omega
      · exact h5

theorem Counting.budget {C : Entry → Arrival → Prop} (hC : ∀ e ev, C e ev → Below M e ev) (h0 : e₀.Sized)
    (hr : Counting M C e₀ e accepted session) : Budget e accepted session := by
  induction hr with
  | start => exact ⟨h0, fun _ _ => Nat.zero_le _, fun _ _ => Nat.zero_le _, fun _ _ => Nat.le_add_right _ _⟩
  | step ev _ hc ih => exact ih.step (hC _ ev hc)

/-- **The packets of the session alone** are a bound if errors come in time for them. -/
theorem Counting.within_session (h0 : e₀.Sized) (hr : Counting M (Clear M) e₀ e accepted session) :
    ∀ d s, accepted d s ≤ session d s := by
  induction hr with
  | start => exact fun _ _ => Nat.zero_le _
  | @step e accepted session ev hr hc ih =>
    have hbud := hr.budget (fun _ _ h => h.1) h0
    intro d s
    have hle := ih d s
    have hmore : session d s ≤ more session (e.counts M ev) d s := by
      cases e.counts M ev with
      | none => exact le_rfl
      | some p =>
        rw [more_some]
        split
        · rename_i hk
          rw [hk.1, hk.2]
          exact Nat.le_succ _
        · exact le_rfl
    rcases step_cases hc.1 with ⟨-, hacc, -⟩ | ⟨rev, t, -, hacc, -⟩ | ⟨rev, t, -, hacc, -, hclear, -⟩
    · rw [hacc]
      exact hle.trans hmore
    · rw [hacc]
      exact hle.trans hmore
    · rw [hacc, more_some]
      split
      · rename_i hk
        have h1 := hclear hc
        have h2 := hbud.errors rev t
        have h3 := hbud.counted rev t
        rw [hk.1, hk.2] at hmore ⊢
        omega
      · exact hle.trans hmore

/-! ## The bound -/

/-- **ICMP errors stay within the packets they are about,** of any direction and side: within what is counted in `is_pkts` when
each error comes in time, and within the packets of the session alone when each comes in time for those. -/
theorem errors_within (h0 : e₀.Sized) :
    (Counting M (Below M) e₀ e accepted session → ∀ d s, accepted d s ≤ e.icmp.isPkts d s) ∧
      (Counting M (Clear M) e₀ e accepted session → ∀ d s, accepted d s ≤ session d s) := by
  constructor
  · intro hr
    exact (hr.budget (fun _ _ h => h) h0).packets
  · intro hr
    exact hr.within_session h0

/-- The address 10.0.0.`n`. -/
def host (n : ℕ) : I6addr := ⟨BitVec.ofNat 32 (0x0a000000 + n), 0, 0, 0⟩

/-- The entry of a UDP packet that went out from port 10 of one host to port 53 of another one. -/
def asking : Entry where
  is := { Ipstate.zero with isSrc := host 1, isDst := host 2, isV := 4, isP := IPPROTO_UDP, isSport := 10, isDport := 53 }
  icmp := ⟨0, 0, fun rev out => if rev = false ∧ out = true then 1 else 0, fun _ _ => 0, false⟩

/-- A UDP packet like that. -/
def question : FrInfo :=
  ⟨4, IPPROTO_UDP, host 1, host 2, true, false, 0, none, [], fun b => if b then 53 else 10, 0, 0, 0, 0, 0⟩

/-- The other host says that the port is unreachable. -/
def unreachable : Arrival :=
  .error { question with finP := IPPROTO_ICMP, finSrc := host 2, finDst := host 1, finOut := false, finFlx := FI_ICMPERR }
    ⟨false, question, IPPROTO_UDP, host 1, host 2, 10, 53, 0⟩ true false false

/-- A machine that has the first byte of a number last. -/
def big : Machine := ⟨false, 0⟩

theorem asking_sized : asking.Sized := by
  intro d s
  cases d <;> cases s <;> decide

/-- One error about the packet. -/
theorem errors_within_one : (asking.accepts big unreachable = some (false, true)) ∧
    more (fun _ _ => 0) (asking.accepts big unreachable) false true ≤ (asking.step big unreachable).icmp.isPkts false
      true := by
  refine ⟨by decide, (errors_within asking_sized).1 (.step unreachable .start ⟨?_, ?_⟩) false true⟩
  · intro d s
    cases d <;> cases s <;> decide
  · intro i rev h
    have hrev := congrArg
        (Option.map fun p => (backward p.1 ⟨false, question, IPPROTO_UDP, host 1, host 2, 10, 53, 0⟩, p.2)) h
    obtain ⟨hback, rfl⟩ := Prod.mk.inj (Option.some.inj hrev)
    exact ⟨hback.symm, by decide⟩

/-- **Two errors about one packet** are accepted. -/
theorem error_too_many : ¬∀ (M : Machine) (e₀ e : Entry) (accepted session : Bool → Bool → ℕ), e₀.Sized →
    Counting M (fun _ _ => True) e₀ e accepted session → ∀ d s, accepted d s ≤ e.icmp.isPkts d s := by
  intro hall
  have hone : Counting big (fun _ _ => True) asking _ _ _ := .step unreachable .start trivial
  have h := hall big _ _ _ _ asking_sized (.step unreachable hone trivial) false true
  revert h
  decide

end Ipfilter.State
