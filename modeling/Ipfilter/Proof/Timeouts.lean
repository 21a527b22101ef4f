import Ipfilter.Spec.Timeouts

/-!
# Do new timeouts take effect?

* `Name.applied`: the queues that a timeout is applied to, which are not always those that are initialised with it.
* `settimeout_eq`: what `ipf_settimeout` leaves.
* `setTimeout_meets_iff`: **when a request takes effect on the value and the queues of both tables, and a failed one on
  nothing.**
-/

namespace Ipfilter.Tune

variable {s s' : Timeouts} {t : Name} {value : Ulong} {error : ℕ}

/-- **What is expected of a request**: if it succeeds, the timeout has the value and its queues in both tables have that time to
live, and others keep theirs. If it fails, nothing changes. -/
def Effective (s s' : Timeouts) (t : Name) (p : Word) (error : ℕ) : Prop :=
  if error = 0 then
    s'.pint t = p ∧ ∀ k : Key,
      (s'.stateq k).ifqTtl = (if k.tuneable = t then IPF_TTLVAL p else (s.stateq k).ifqTtl) ∧
        (s'.natq k).ifqTtl = if k.tuneable = t then IPF_TTLVAL p else (s.natq k).ifqTtl
  else s'.pint t = s.pint t ∧ ∀ k : Key,
    (s'.stateq k).ifqTtl = (s.stateq k).ifqTtl ∧ (s'.natq k).ifqTtl = (s.natq k).ifqTtl

/-- The queues that `ipf_settimeout` applies a timeout to. -/
def Name.applied : Name → List Key
  | .tcp t => ((tcpApplied t).getD []).map .tcp
  | .udpTimeout => [.udp]
  | .udpAckTimeout => [.udpAck]
  | .icmpTimeout => [.icmp]
  | .icmpAckTimeout => [.icmpAck]
  | .ipTimeout => [.ip]
  | .other => []

/-- The names after which `ipf_state_settimeout` returns early. -/
def Name.isTcp : Name → Bool
  | .tcp _ => true
  | _ => false

/-- What the functions leave: the value is not stored for TCP, and the state table is left alone when the value is the old
one. -/
theorem settimeout_eq (s : Timeouts) (ht : t ∈ timeoutTuneables) (p : Word) : (ipfSettimeout s t p).1 =
    { pint := if s.pint t = p ∨ t.isTcp then s.pint else Function.update s.pint t p
      stateq := if s.pint t = p then s.stateq else applyTo t.applied p s.stateq
      natq := applyTo t.applied p s.natq } := by
  simp only [timeoutTuneables, List.mem_cons, List.not_mem_nil, or_false] at ht
  by_cases hp : s.pint t = p
  · rcases ht with rfl | rfl | rfl | rfl | rfl | rfl | rfl | rfl | rfl | rfl | rfl | rfl | rfl | rfl <;>
      simp [ipfSettimeout, ipfStateSettimeout, ipfNatSettimeout, ipfSettimeoutTcp, tcpApplied, Name.applied, hp]
  · rcases ht with rfl | rfl | rfl | rfl | rfl | rfl | rfl | rfl | rfl | rfl | rfl | rfl | rfl | rfl <;>
      simp [ipfSettimeout, ipfStateSettimeout, ipfNatSettimeout, ipfSettimeoutTcp, tcpApplied, Name.applied, Name.isTcp, hp]

theorem ttl_applyTo (keys : List Key) (p : Word) (tab : Key → Ipftq) (k : Key) :
    (applyTo keys p tab k).ifqTtl = if k ∈ keys then IPF_TTLVAL p else (tab k).ifqTtl := by
  unfold applyTo
  split <;> rfl

/-- Other timeouts than those of TCP are applied to the queue that is initialised with them. -/
theorem applied_iff (htcp : t.isTcp = false) (k : Key) : k ∈ t.applied ↔ k.tuneable = t := by
  cases t with
  | tcp t => cases htcp
  | _ => cases k <;> simp [Name.applied, Key.tuneable]

/-- **When a request takes effect.** The queues of a table have the time to live already where it is not set, or is set by
mistake. -/
def Set (s : Timeouts) (t : Name) (p : Word) (error : ℕ) : Prop :=
  if error = 0 then
    (t.isTcp = true → s.pint t = p) ∧
      (s.pint t = p → ∀ k : Key, k.tuneable = t → (s.stateq k).ifqTtl = IPF_TTLVAL p) ∧
      ∀ k : Key, ¬(k ∈ t.applied ↔ k.tuneable = t) → (s.natq k).ifqTtl = IPF_TTLVAL p
  else
    (t.isTcp = false → s.pint t = p) ∧
      (s.pint t ≠ p → ∀ k ∈ t.applied, (s.stateq k).ifqTtl = IPF_TTLVAL p) ∧
      ∀ k ∈ t.applied, (s.natq k).ifqTtl = IPF_TTLVAL p

/-- A queue that is set by one rule and should be by another. -/
theorem ttl_agree_iff {a b : Prop} [Decidable a] [Decidable b] {v w : Word} :
    (if a then v else w) = (if b then v else w) ↔ (¬(a ↔ b) → w = v) := by
  by_cases ha : a <;> by_cases hb : b <;> simp [ha, hb, eq_comm]

theorem ttl_kept_iff {a : Prop} [Decidable a] {v w : Word} : (if a then v else w) = w ↔ (a → w = v) := by
  by_cases ha : a <;> simp [ha, eq_comm]

section

variable (ht : t ∈ timeoutTuneables)

include ht

/-- A request that succeeds. -/
theorem settimeout_effective_iff (s : Timeouts) (p : Word) :
    Effective s (ipfSettimeout s t p).1 t p 0 ↔ Set s t p 0 := by
  rw [settimeout_eq s ht]
  simp only [Effective, Set, if_true]
  by_cases hp : s.pint t = p
  · simp only [hp, true_or, if_true, ttl_applyTo, ttl_agree_iff, true_and, implies_true, true_implies]
    constructor
    · intro h
      refine ⟨fun k hk => ?_, fun k => (h k).2⟩
      have hstate := (h k).1
      rwa [if_pos hk] at hstate
    · intro h k
      refine ⟨?_, h.2 k⟩
      split
      · rename_i hk
        exact h.1 k hk
      · rfl
  · simp only [hp, false_or, if_false, ttl_applyTo, ttl_agree_iff, false_implies, imp_false, true_and]
    cases htcp : t.isTcp with
    | true => simp [hp]
    | false =>
      -- the queues are the ones that should be set
      simp [applied_iff htcp]

/-- A request that fails in the end. -/
theorem settimeout_kept_iff (s : Timeouts) (p : Word) {error : ℕ} (he : error ≠ 0) :
    Effective s (ipfSettimeout s t p).1 t p error ↔ Set s t p error := by
  rw [settimeout_eq s ht]
  simp only [Effective, Set, he, if_false]
  by_cases hp : s.pint t = p
  · simp only [hp, true_or, if_true, ttl_applyTo, ttl_kept_iff, true_and, ne_eq, not_true_eq_false, false_implies,
      implies_true]
  · simp only [hp, false_or, if_false, ttl_applyTo, ttl_kept_iff, imp_false, ne_eq, not_false_eq_true, true_implies,
      forall_and]
    refine and_congr_left fun _ => ?_
    cases htcp : t.isTcp with
    | true => simp
    | false => simp [Ne.symm hp]

/-- **When a request to set a timeout takes effect on the value and the queues of both tables, and a failed one on nothing.** -/
theorem setTimeout_meets_iff (s : Timeouts) (value : Ulong) (outobj : ℕ) :
    Effective s (setTimeout s t value outobj).1 t (value.setWidth 32) (setTimeout s t value outobj).2 ↔
      (1 ≤ value ∧ value ≤ 0x7fffffff → Set s t (value.setWidth 32) outobj) := by
  unfold setTimeout
  by_cases hrange : value < 1 ∨ value > 0x7fffffff
  · rw [if_pos hrange]
    have hout : ¬(1 ≤ value ∧ value ≤ 0x7fffffff) := by
      rintro ⟨h1, h2⟩
      rcases hrange with h | h
      · exact absurd h1 (BitVec.not_le.2 h)
      · exact absurd h2 (BitVec.not_le.2 h)
    -- nothing is set
    refine ⟨fun _ h => absurd h hout, fun _ => ?_⟩
    simp [Effective, EINVAL]
  · rw [if_neg hrange]
    have hin : 1 ≤ value ∧ value ≤ 0x7fffffff :=
      ⟨BitVec.not_lt.1 fun h => hrange (.inl h), BitVec.not_lt.1 fun h => hrange (.inr h)⟩
    rw [forall_prop_of_true hin]
    by_cases he : outobj = 0
    · subst he
      exact settimeout_effective_iff ht s _
    · exact settimeout_kept_iff ht s _ he

end

/-- All values and times to live are 0. -/
def zeroTimeouts : Timeouts := ⟨fun _ => 0, fun _ => ⟨0, []⟩, fun _ => ⟨0, []⟩⟩

theorem setTimeout_meets_udp : Effective zeroTimeouts (setTimeout zeroTimeouts .udpTimeout 60 0).1 .udpTimeout 60 0 :=
  (setTimeout_meets_iff (by decide) zeroTimeouts 60 0).2 fun _ =>
    ⟨nofun, fun h => absurd h (by decide), fun k hk => absurd (applied_iff rfl k) hk⟩

/-- **A TCP timeout does not have the value that it was given.** -/
theorem setTimeout_not_meets :
    ¬Effective zeroTimeouts (setTimeout zeroTimeouts (.tcp .tcpIdleTimeout) 60 0).1 (.tcp .tcpIdleTimeout) 60 0 := by
  intro h
  have hset := (setTimeout_meets_iff (by decide) zeroTimeouts 60 0).1 h (by decide)
  exact absurd (hset.1 rfl) (by decide)

end Ipfilter.Tune
