import Ipfilter.Patricia.Tree
import Ipfilter.Spec.RadixRun

/-!
# Bits of addresses

* `and_bitmask`: the test of a node is for one bit.
* `diffBit_spec`: `ipf_rx_insert` finds the first bit where two keys differ.
* `countMaskBits_contiguous`: `count_mask_bits` of a contiguous mask.
-/

namespace Ipfilter.Radix

open Patricia BitVec

variable {k x key data mask : Key} {w : Word} {n b d i j : ℕ}

theorem bitsOf_word (hj : j < 32) : bitsOf k (32 * i + j) = (k i).getMsbD j := by
  unfold bitsOf
  rw [show (32 * i + j) / 32 = i by omega, show (32 * i + j) % 32 = j by omega]

/-! ## Single bits -/

theorem getMsbD_topbit (hi : i < 32) : TOPBIT.getMsbD i = decide (i = 0) := by
  have h : ∀ i : Fin 32, TOPBIT.getMsbD i = decide (i.1 = 0) := by decide
  exact h ⟨i, hi⟩

/-- A word is zero if it has no bit. -/
theorem ne_zero_iff : w ≠ 0 ↔ ∃ i < 32, w.getMsbD i = true := by
  constructor
  · intro h
    by_contra hc
    push Not at hc
    refine h (eq_of_getMsbD_eq fun i hi => ?_)
    have := hc i hi
    simp only [ne_eq, Bool.not_eq_true] at this
    simp [this]
  · rintro ⟨i, -, h⟩ rfl
    simp at h

/-- **The test of a node is for one bit.** -/
theorem and_bitmask (h : j < 32) : w &&& TOPBIT >>> j ≠ 0 ↔ w.getMsbD j = true := by
  rw [ne_zero_iff]
  constructor
  · rintro ⟨i, hi, h'⟩
    simp only [getMsbD_and, getMsbD_ushiftRight, Bool.and_eq_true, decide_eq_true_eq,
      Bool.not_eq_true', decide_eq_false_iff_not] at h'
    obtain ⟨hw, -, hij, ht⟩ := h'
    rw [getMsbD_topbit (by omega), decide_eq_true_eq] at ht
    have : i = j := by omega
    exact this ▸ hw
  · intro h'
    refine ⟨j, h, ?_⟩
    simp [getMsbD_and, getMsbD_ushiftRight, getMsbD_topbit, h', h]

theorem and_topbit : w &&& TOPBIT ≠ 0 ↔ w.getMsbD 0 = true := by
  have h : TOPBIT >>> 0 = TOPBIT := by decide
  rw [← and_bitmask (by decide), h]

/-! ## The first difference -/

theorem leadingZeros_spec (h : ∃ j < i, w.getMsbD j = true) (hi : i ≤ 32) :
    leadingZeros i w < i ∧ w.getMsbD (leadingZeros i w) = true ∧ ∀ j < leadingZeros i w, w.getMsbD j = false := by
  induction i generalizing w with
  | zero =>
    obtain ⟨j, hj, -⟩ := h
    omega
  | succ i ih =>
    have hw : w ≠ 0 := by
      obtain ⟨j, hj, h⟩ := h
      exact ne_zero_iff.2 ⟨j, by omega, h⟩
    unfold leadingZeros
    rw [if_neg hw]
    by_cases h0 : w &&& TOPBIT ≠ 0
    · rw [if_pos h0]
      exact ⟨by omega, and_topbit.1 h0, by omega⟩
    · rw [if_neg h0]
      rw [and_topbit, Bool.not_eq_true] at h0
      have hsh : ∀ j, (w <<< 1).getMsbD j = w.getMsbD (j + 1) := by
        intro j
        rw [getMsbD_shiftLeft]
      obtain ⟨j, hj, h⟩ := h
      have hj0 : j ≠ 0 := by
        rintro rfl
        rw [h0] at h
        cases h
      obtain ⟨h1, h2, h3⟩ := ih ⟨j - 1, by omega, by rw [hsh, show j - 1 + 1 = j by omega]; exact h⟩ (by omega)
      rw [hsh] at h2
      refine ⟨by omega, h2, fun l hl => ?_⟩
      rcases Nat.eq_zero_or_pos l with rfl | hl'
      · exact h0
      · have := h3 (l - 1) (by omega)
        rwa [hsh, show l - 1 + 1 = l by omega] at this

theorem diffWord_spec (key data : Key) (n i : ℕ) : i ≤ diffWord key data n i ∧ diffWord key data n i ≤ i + n ∧
    (∀ j, i ≤ j → j < diffWord key data n i → key j = data j) ∧
    (diffWord key data n i < i + n → key (diffWord key data n i) ≠ data (diffWord key data n i)) := by
  induction n generalizing i with
  | zero =>
    refine ⟨le_rfl, le_rfl, fun j h1 h2 => ?_, fun h => ?_⟩
    · simp only [diffWord] at h2
      omega
    · simp only [diffWord] at h
      omega
  | succ n ih =>
    unfold diffWord
    split
    · rename_i hne
      exact ⟨le_rfl, by omega, fun j h1 h2 => by omega, fun _ => hne⟩
    · rename_i heq
      obtain ⟨h1, h2, h3, h4⟩ := ih (i + 1)
      refine ⟨by omega, by omega, fun j hj1 hj2 => ?_, fun h => h4 (by omega)⟩
      rcases lt_or_ge i j with h | h
      · exact h3 j h hj2
      · obtain rfl : j = i := by omega
        exact not_ne_iff.1 heq

/-- **`ipf_rx_insert` finds the first bit where two keys differ**, if they do. -/
theorem diffBit_spec (h : ∃ i, 1 ≤ i ∧ i ≤ n ∧ key i ≠ data i) :
    32 ≤ diffBit n key data ∧ diffBit n key data < 32 * (n + 1) ∧
      Agree (bitsOf key) (bitsOf data) 32 (diffBit n key data) ∧
      bitsOf key (diffBit n key data) ≠ bitsOf data (diffBit n key data) := by
  obtain ⟨h1, h2, h3, h4⟩ := diffWord_spec key data n 1
  have hd : diffBit n key data = 32 + 32 * (diffWord key data n 1 - 1) +
      leadingZeros 32 (data (diffWord key data n 1) ^^^ key (diffWord key data n 1)) := rfl
  generalize diffWord key data n 1 = w at h1 h2 h3 h4 hd
  have hw : w < 1 + n := by
    by_contra hc
    obtain ⟨i, hi1, hi2, hne⟩ := h
    exact hne (h3 i hi1 (by omega))
  have hne := h4 hw
  have hx : data w ^^^ key w ≠ 0 := by
    intro h
    exact hne (BitVec.xor_eq_zero_iff.1 h).symm
  obtain ⟨z1, z2, z3⟩ := leadingZeros_spec (ne_zero_iff.1 hx) (le_refl 32)
  generalize leadingZeros 32 (data w ^^^ key w) = z at z1 z2 z3 hd
  have hdz : diffBit n key data = 32 * w + z := by omega
  rw [hdz]
  refine ⟨by omega, by omega, fun e e1 e2 => ?_, ?_⟩
  · rcases lt_or_ge e (32 * w) with he | he
    · unfold bitsOf
      rw [h3 (e / 32) (by omega) (by omega)]
    · obtain ⟨j, rfl⟩ : ∃ j, e = 32 * w + j := ⟨e - 32 * w, by omega⟩
      have := z3 j (by omega)
      rw [bitsOf_word (by omega), bitsOf_word (by omega)]
      rw [getMsbD_xor] at this
      cases hk : (key w).getMsbD j <;> cases hdt : (data w).getMsbD j <;> simp_all
  · rw [bitsOf_word (by omega), bitsOf_word (by omega)]
    rw [getMsbD_xor] at z2
    cases hk : (key w).getMsbD z <;> cases hdt : (data w).getMsbD z <;> simp_all

/-! ## Masks -/

theorem leadingOnes_spec (hb : b ≤ i) (hi : i ≤ 32) (h1 : ∀ j < b, w.getMsbD j = true)
    (h0 : b < i → w.getMsbD b = false) : leadingOnes i w = b := by
  induction i generalizing w b with
  | zero =>
    obtain rfl : b = 0 := by omega
    rfl
  | succ i ih =>
    have hsh : ∀ j, (w <<< 1).getMsbD j = w.getMsbD (j + 1) := by
      intro j
      rw [getMsbD_shiftLeft]
    unfold leadingOnes
    cases b with
    | zero =>
      rw [if_neg]
      rw [and_topbit, h0 (by omega)]
      simp
    | succ b =>
      rw [if_pos (and_topbit.2 (h1 0 (by omega)))]
      rw [ih (b := b) (by omega) (by omega) (fun j hj => by rw [hsh]; exact h1 (j + 1) (by omega))
        (fun h => by rw [hsh]; exact h0 (by omega))]

/-- `count_mask_bits` from some word on. -/
theorem countMaskBits_from (hb : b ≤ 32 * n) (h : ∀ d < 32 * n, bitsOf mask (32 * i + d) = decide (d < b)) :
    countMaskBits mask n i = (b, if b = 0 then none else some (i + (b - 1) / 32)) := by
  induction n generalizing i b with
  | zero =>
    obtain rfl : b = 0 := by omega
    rfl
  | succ n ih =>
    have hbit : ∀ j < 32, (mask i).getMsbD j = decide (j < b) := by
      intro j hj
      rw [← bitsOf_word hj]
      exact h j (by omega)
    unfold countMaskBits
    rcases Nat.eq_zero_or_pos b with rfl | hpos
    · have : mask i = 0 := by
        refine eq_of_getMsbD_eq fun j hj => ?_
        rw [hbit j hj]
        simp
      rw [if_pos this]
      rfl
    · have hne : mask i ≠ 0 := ne_zero_iff.2 ⟨0, by omega, by rw [hbit 0 (by omega)]; simpa using hpos⟩
      rw [if_neg hne]
      have hones : leadingOnes 32 (mask i) = min b 32 := by
        refine leadingOnes_spec (min_le_right b 32) (le_refl 32) (fun j hj => ?_) (fun hlt => ?_)
        · rw [hbit j (by omega), decide_eq_true_eq]
          omega
        · rw [hbit _ hlt, decide_eq_false_iff_not]
          omega
      have hrest := ih (i := i + 1) (b := b - 32) (by omega) (fun d hd => by
        rw [show 32 * (i + 1) + d = 32 * i + (32 + d) by omega, h (32 + d) (by omega)]
        simp only [decide_eq_decide]
        omega)
      have hb0 : ¬ b = 0 := by omega
      rw [hones, hrest, if_neg hb0]
      rcases lt_or_ge 32 b with hlt | hge
      · have hb1 : ¬ b - 32 = 0 := by omega
        rw [if_neg hb1]
        simp only [Option.getD_some, Prod.mk.injEq, Option.some.injEq]
        omega
      · have hb1 : b - 32 = 0 := by omega
        rw [if_pos hb1]
        simp only [Option.getD_none, Prod.mk.injEq, Option.some.injEq]
        omega

/-- **`count_mask_bits` of a contiguous mask.** -/
theorem countMaskBits_contiguous (h : Contiguous n b mask) :
    countMaskBits mask n 1 = (b, if b = 0 then none else some (1 + (b - 1) / 32)) :=
  countMaskBits_from h.le h.bit

end Ipfilter.Radix
