import Ipfilter.Spec.Ppsrate
import Mathlib.Data.List.Induction
import Mathlib.Order.Lattice

/-!
# How many packets a rule lets through

The counter starts again with the first packet that comes a second after the one with which it started before.
* `passed_second`: **in any second fewer than twice `fr_pps`**.
* `few_pass`: **no packet is stopped** if fewer than `fr_pps` came in the second before it.
-/

namespace Ipfilter.Ppsrate

open List

/-- Microseconds. -/
def Timeval.usecs (tv : Timeval) : ℤ := tv.tvSec * 1000000 + tv.tvUsec

/-- **Packets, as they come:** the clock is not set back, and fewer than 2^31 of them come in a second. -/
structure Stream (l : List Timeval) : Prop where
  valid : ∀ tv ∈ l, (0 ≤ tv.tvUsec ∧ tv.tvUsec < 1000000) ∧ 0 < tv.usecs
  order : l.Pairwise fun x y => x.usecs ≤ y.usecs
  slow : ∀ t, (l.filter fun x => t ≤ x.usecs ∧ x.usecs < t + 1000000).length < 2 ^ 31

/-- The packets that were counted since the counter started. -/
structure Counts (s : Rate) (b : List Timeval) : Prop where
  usec : 0 ≤ s.lasttime.tvUsec ∧ s.lasttime.tvUsec < 1000000
  count : s.curpps = b.length
  second : ∀ x ∈ b, s.lasttime.usecs ≤ x.usecs ∧ x.usecs < s.lasttime.usecs + 1000000
  some : s.lasttime.usecs ≠ 0 → b ≠ []

variable {maxpps t : ℤ} {s : Rate} {tv : Timeval} {l l' a b : List Timeval}

theorem Stream.sublist (h : Stream l') (hl : l <+ l') : Stream l :=
  ⟨fun tv hm => h.valid tv (hl.subset hm), h.order.sublist hl, fun t => ((hl.filter _).length_le).trans_lt (h.slow t)⟩

/-- A second has passed. -/
theorem delta_iff (hu : 0 ≤ s.lasttime.tvUsec ∧ s.lasttime.tvUsec < 1000000)
    (hv : 0 ≤ tv.tvUsec ∧ tv.tvUsec < 1000000) :
    1 ≤ (tv.delta s.lasttime).tvSec ↔ s.lasttime.usecs + 1000000 ≤ tv.usecs := by
  unfold Timeval.delta Timeval.usecs
  dsimp only
  split <;> dsimp only <;> omega

/-- **One packet:** the counter starts again with it, or it is counted. -/
theorem Counts.packet (h : Counts s b) (maxpps : ℤ) (hs : Stream (a ++ b ++ [tv])) :
    (ppsratecheck maxpps s tv = (⟨tv, 1⟩, true) ∧ (s.lasttime.usecs = 0 ∨ s.lasttime.usecs + 1000000 ≤ tv.usecs) ∧
      Counts ⟨tv, 1⟩ [tv]) ∨
    (ppsratecheck maxpps s tv = (⟨s.lasttime, s.curpps + 1⟩, decide (maxpps < 0 ∨ s.curpps < maxpps)) ∧
      s.lasttime.usecs ≠ 0 ∧ tv.usecs < s.lasttime.usecs + 1000000 ∧
        Counts ⟨s.lasttime, s.curpps + 1⟩ (b ++ [tv])) := by
  have hu := h.usec
  have hv := (hs.valid tv (by simp)).1
  unfold ppsratecheck
  by_cases hstart : (s.lasttime.tvSec = 0 ∧ s.lasttime.tvUsec = 0) ∨ 1 ≤ (tv.delta s.lasttime).tvSec
  · rw [if_pos hstart]
    rw [delta_iff hu hv] at hstart
    exact .inl ⟨rfl, hstart.imp_left fun h => by unfold Timeval.usecs; omega, hv, rfl,
      forall_mem_singleton.2 ⟨le_refl _, by dsimp only; omega⟩, fun _ => by simp⟩
  · rw [if_neg hstart]
    rw [not_or, delta_iff hu hv] at hstart
    have h0 : s.lasttime.usecs ≠ 0 := by
      unfold Timeval.usecs
      omega
    -- it came after the one with which the counter started
    obtain ⟨x, hx⟩ := exists_mem_of_ne_nil _ (h.some h0)
    have hle : x.usecs ≤ tv.usecs := (pairwise_append.1 hs.order).2.2 x (mem_append_right a hx) tv (by simp)
    have hsecond : ∀ y ∈ b ++ [tv], s.lasttime.usecs ≤ y.usecs ∧ y.usecs < s.lasttime.usecs + 1000000 :=
      forall_mem_append.2 ⟨h.second, by have := h.second x hx; simp; omega⟩
    have hlen : (b ++ [tv]).length < 2 ^ 31 := by
      have hslow := (hs.sublist (append_assoc a b [tv] ▸ sublist_append_right a (b ++ [tv]))).slow s.lasttime.usecs
      rwa [filter_eq_self.2 fun y hy => decide_eq_true (hsecond y hy)] at hslow
    rw [length_append, length_singleton] at hlen
    have hcur : Int.bmod (s.curpps + 1) (2 ^ 32) = s.curpps + 1 :=
      Int.bmod_eq_of_le_mul_two (by rw [h.count]; omega) (by rw [h.count]; omega)
    refine .inr ⟨?_, h0, by omega, hu, by simp [h.count], hsecond, fun _ => by simp⟩
    by_cases hneg : maxpps < 0
    · rw [if_pos hneg, decide_eq_true (.inl hneg), ← hcur]
    · rw [if_neg hneg]
      by_cases hlt : s.curpps < maxpps
      · rw [if_pos hlt, decide_eq_true (.inr hlt), ← hcur]
      · rw [if_neg hlt, decide_eq_false (not_or.2 ⟨hneg, hlt⟩), ← hcur]

theorem after_append (tv : Timeval) : after maxpps (l ++ [tv]) = (ppsratecheck maxpps (after maxpps l) tv).1 := by
  unfold after
  rw [foldl_append, foldl_cons, foldl_nil]

/-- The last packets were counted. -/
theorem counts_after (maxpps : ℤ) (hs : Stream l) : ∃ a b, l = a ++ b ∧ Counts (after maxpps l) b := by
  induction l using reverseRecOn with
  | nil => exact ⟨[], [], rfl, ⟨le_refl _, Int.one_pos.trans (by decide)⟩, rfl, by simp, fun h => absurd rfl h⟩
  | append_singleton l tv ih =>
    obtain ⟨a, b, rfl, h⟩ := ih (hs.sublist (sublist_append_left ..))
    rw [after_append]
    rcases h.packet maxpps hs with ⟨heq, -, hc⟩ | ⟨heq, -, -, hc⟩ <;> rw [heq]
    · exact ⟨a ++ b, [tv], rfl, hc⟩
    · exact ⟨a, b ++ [tv], append_assoc .., hc⟩

/-- Within a second the counter starts again once at most, and until then no more are let through than it lacks. -/
theorem passed_le (hm : 0 < maxpps) (hsec : ∀ tv ∈ l, t ≤ tv.usecs ∧ tv.usecs < t + 1000000) :
    ∀ {s : Rate} {a b : List Timeval},
    Counts s b → Stream (a ++ b ++ l) → (passed maxpps s l : ℤ) ≤
      max 0 (maxpps - max 1 s.curpps) + if s.lasttime.usecs = 0 ∨ s.lasttime.usecs < t then maxpps else 0 := by
  induction l with
  | nil =>
    intro s _ _ _ _
    rw [passed]
    split <;> omega
  | cons tv l ih =>
    intro s a b h hs
    obtain ⟨⟨hlow, hhigh⟩, hsec⟩ := forall_mem_cons.1 hsec
    rw [append_cons] at hs
    have hpos := (hs.valid tv (by simp)).2
    rw [passed]
    rcases h.packet maxpps (hs.sublist (sublist_append_left ..)) with ⟨heq, hstart, hc⟩ | ⟨heq, h0, -, hc⟩ <;>
      rw [heq]
    · have ih := ih hsec hc hs
      rw [if_neg (by dsimp only; omega)] at ih
      rw [if_pos rfl, if_pos (show s.lasttime.usecs = 0 ∨ s.lasttime.usecs < t by omega)]
      dsimp only at ih ⊢
      omega
    · have ih := ih hsec hc (append_assoc a b [tv] ▸ hs)
      have hone := length_pos_iff.2 (h.some h0)
      rw [h.count] at ih ⊢
      dsimp only at ih ⊢
      split <;> rename_i hpass <;> rw [decide_eq_true_eq] at hpass <;> omega

theorem stream_four : Stream ([⟨1, 0⟩] ++ [⟨1, 900000⟩, ⟨2, 0⟩, ⟨2, 0⟩]) :=
  ⟨by simp [Timeval.usecs], by simp [Timeval.usecs], fun t => ((filter_sublist ..).length_le).trans_lt (by decide)⟩

/-- **In any second** fewer than twice as many are let through as the rule allows, whatever came before. -/
theorem passed_second (hm : 0 < maxpps) (hs : Stream (l ++ l'))
    (hsec : ∀ tv ∈ l', t ≤ tv.usecs ∧ tv.usecs < t + 1000000) :
    (passed maxpps (after maxpps l) l' : ℤ) < 2 * maxpps := by
  obtain ⟨a, b, rfl, h⟩ := counts_after maxpps (hs.sublist (sublist_append_left ..))
  have hle := passed_le hm hsec h hs
  split at hle <;> omega

/-- Three of two a second. -/
theorem passed_second_three : passed 2 (after 2 [⟨1, 0⟩]) [⟨1, 900000⟩, ⟨2, 0⟩, ⟨2, 0⟩] = 3 ∧
    (passed 2 (after 2 [⟨1, 0⟩]) [⟨1, 900000⟩, ⟨2, 0⟩, ⟨2, 0⟩] : ℤ) < 2 * 2 :=
  ⟨by decide, passed_second (t := 1900000) (by decide) stream_four (by simp [Timeval.usecs])⟩

/-- **No packet is stopped** if fewer than the rule allows came in the second before it. -/
theorem few_pass (hs : Stream (l ++ [tv])) (hfew : (l.filter fun x => tv.usecs < x.usecs + 1000000).length < maxpps) :
    (ppsratecheck maxpps (after maxpps l) tv).2 = true := by
  obtain ⟨a, b, rfl, h⟩ := counts_after maxpps (hs.sublist (sublist_append_left ..))
  rcases h.packet maxpps hs with ⟨heq, -⟩ | ⟨heq, -, hlt, -⟩ <;> rw [heq]
  have hb : (b.filter fun x => tv.usecs < x.usecs + 1000000) = b :=
    filter_eq_self.2 fun x hx => decide_eq_true (by have := h.second x hx; omega)
  rw [filter_append, hb, length_append] at hfew
  exact decide_eq_true (.inr (by rw [h.count]; omega))

theorem few_pass_two : (ppsratecheck 2 (after 2 [⟨1, 0⟩]) ⟨1, 900000⟩).2 = true :=
  few_pass (stream_four.sublist (sublist_append_left ([⟨1, 0⟩, ⟨1, 900000⟩] : List Timeval) _)) (by decide)

end Ipfilter.Ppsrate
