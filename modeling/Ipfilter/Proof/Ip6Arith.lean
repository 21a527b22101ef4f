import Ipfilter.Proof.Masks
import Ipfilter.Spec.Ip6Arith

/-!
# Do the macros compute with IPv6 addresses?

* `lt_first`: `IP6_LT` and the numbers are decided by the first words that differ.
* `val_inc`: `IP6_INC` adds 1.
* `add_iff`: when `IP6_ADD` adds.
* `arith_iff`: **for which addresses the macros are right.** `arith_not`: one after `::1` is not `::2`, and `::100` is below
  `::2`.
-/

namespace Ipfilter.NatAdd

open Masks

variable {M : Machine} {a b d : I6addr} {n x y : Word}

/-! ## Words -/

theorem ntohl_ntohl (M : Machine) (x : Word) : M.ntohl (M.ntohl x) = x := ntohl_htonl M x

theorem ntohl_eq_iff : M.ntohl x = M.ntohl y ↔ x = y := ⟨htonl_inj, congrArg _⟩

theorem ntohl_nladd (M : Machine) (n x : Word) : M.ntohl (nladd M n x) = M.ntohl n + x := ntohl_htonl M _

theorem ntohl_zero (M : Machine) : M.ntohl 0 = 0 := by
  unfold Machine.ntohl
  split
  · decide
  · rfl

theorem ntohl_ones (M : Machine) : M.ntohl 0xffffffff = 0xffffffff := by
  unfold Machine.ntohl
  split
  · decide
  · rfl

theorem num_lt (M : Machine) (w : Word) : num M w < 2 ^ 32 := BitVec.isLt _

theorem ntohl_lt_iff : M.ntohl x < M.ntohl y ↔ num M x < num M y := BitVec.lt_def

theorem num_inj : num M x = num M y ↔ x = y := BitVec.toNat_inj.trans ntohl_eq_iff

theorem num_zero_iff (M : Machine) (x : Word) : x = 0 ↔ num M x = 0 := by
  rw [← @num_inj M x 0]
  unfold num
  rw [ntohl_zero]
  rfl

theorem num_ones_iff (M : Machine) (x : Word) : x = 0xffffffff ↔ num M x = 2 ^ 32 - 1 := by
  rw [← @num_inj M x 0xffffffff]
  unfold num
  rw [ntohl_ones]
  rfl

/-! ## The order -/

theorem ip6Gt_eq (M : Machine) (a b : I6addr) : ip6Gt M a b = ip6Lt M b a := by
  unfold ip6Gt ip6Lt
  simp only [gt_iff_lt, eq_comm]

/-- The first words that differ decide. -/
theorem lt_first (h : firstDiff a b = some (x, y)) :
    x ≠ y ∧ (ip6Lt M a b = true ↔ x < y) ∧ (number M a < number M b ↔ M.ntohl x < M.ntohl y) := by
  unfold firstDiff at h
  unfold ip6Lt number
  simp only [ntohl_ntohl, ntohl_eq_iff, decide_eq_true_eq, ntohl_lt_iff]
  have hlt := num_lt M
  have ha := And.intro (hlt a.i61) (And.intro (hlt a.i62) (hlt a.i63))
  have hb := And.intro (hlt b.i61) (And.intro (hlt b.i62) (hlt b.i63))
  split_ifs at h with e0 e1 e2 e3
  · cases h
    have n0 := mt (@num_inj M _ _).1 e0
    refine ⟨e0, by simp [e0], ?_⟩
    omega
  · cases h
    rw [not_not] at e0
    have n0 := congrArg (num M) e0
    have n1 := mt (@num_inj M _ _).1 e1
    refine ⟨e1, by simp [e0, e1], ?_⟩
    omega
  · cases h
    rw [not_not] at e0 e1
    have n0 := congrArg (num M) e0
    have n1 := congrArg (num M) e1
    have n2 := mt (@num_inj M _ _).1 e2
    refine ⟨e2, by simp [e0, e1, e2], ?_⟩
    omega
  · cases h
    rw [not_not] at e0 e1 e2
    have n0 := congrArg (num M) e0
    have n1 := congrArg (num M) e1
    have n2 := congrArg (num M) e2
    refine ⟨e3, by simp [e0, e1, e2], ?_⟩
    omega

/-- The other way round, the same words decide. -/
theorem firstDiff_symm (a b : I6addr) : firstDiff b a = (firstDiff a b).map Prod.swap := by
  unfold firstDiff
  simp only [ne_comm, apply_ite (Option.map Prod.swap), Option.map_some, Option.map_none, Prod.swap_prod_mk]

theorem firstDiff_none (h : firstDiff a b = none) : a = b := by
  unfold firstDiff at h
  split_ifs at h with e0 e1 e2 e3
  rw [not_not] at e0 e1 e2 e3
  cases a
  cases b
  simp_all

/-- When `IP6_GT` and `IP6_LT` compare numbers. -/
theorem order_iff : ((ip6Gt M a b = true ↔ number M b < number M a) ∧ (ip6Lt M a b = true ↔ number M a < number M b)) ↔
    SameOrder M a b := by
  unfold SameOrder
  rw [ip6Gt_eq]
  cases hd : firstDiff a b with
  | none =>
    obtain rfl := firstDiff_none hd
    have hlt : ip6Lt M a a = false := by
      unfold ip6Lt
      simp
    simp [hlt]
  | some p =>
    obtain ⟨x, y⟩ := p
    have hswap : firstDiff b a = some (y, x) := by
      rw [firstDiff_symm, hd]
      rfl
    obtain ⟨hne, h1, h2⟩ := @lt_first M a b x y hd
    obtain ⟨-, h3, h4⟩ := @lt_first M b a y x hswap
    rw [h1, h2, h3, h4]
    -- different words are different numbers
    have hx := mt (@num_inj M x y).1 hne
    have hy : ¬x.toNat = y.toNat := mt BitVec.eq_of_toNat_eq hne
    simp only [ntohl_lt_iff]
    simp only [BitVec.lt_def]
    constructor
    · rintro ⟨-, h⟩ x' y' heq
      cases heq
      exact h
    · intro h
      have hxy := h x y rfl
      omega

/-! ## Sums -/

theorem inc_toNat (M : Machine) (x : Word) : num M (nladd M x 1) = (num M x + 1) % 2 ^ 32 := by
  unfold num
  rw [ntohl_nladd, BitVec.toNat_add]
  rfl

/-- **`IP6_INC` adds 1.** -/
theorem val_inc (M : Machine) (a : I6addr) : number M (ip6Inc M a) = (number M a + 1) % 2 ^ 128 := by
  have h3 := inc_toNat M a.i63
  have h2 := inc_toNat M a.i62
  have h1 := inc_toNat M a.i61
  have h0 := inc_toNat M a.i60
  have hlt := num_lt M
  have ha := And.intro (And.intro (hlt a.i60) (hlt a.i61)) (And.intro (hlt a.i62) (hlt a.i63))
  have z3 := num_zero_iff M (nladd M a.i63 1)
  have z2 := num_zero_iff M (nladd M a.i62 1)
  have z1 := num_zero_iff M (nladd M a.i61 1)
  have hinc : ip6Inc M a =
      if nladd M a.i63 1 = 0 then
        if nladd M a.i62 1 = 0 then
          if nladd M a.i61 1 = 0 then ⟨nladd M a.i60 1, nladd M a.i61 1, nladd M a.i62 1, nladd M a.i63 1⟩
          else ⟨a.i60, nladd M a.i61 1, nladd M a.i62 1, nladd M a.i63 1⟩
        else ⟨a.i60, a.i61, nladd M a.i62 1, nladd M a.i63 1⟩
      else ⟨a.i60, a.i61, a.i62, nladd M a.i63 1⟩ := by
    unfold ip6Inc nladd
    split_ifs <;> simp_all
  rw [hinc]
  unfold number
  split_ifs with e3 e2 e1
  · have n3 := z3.1 e3
    have n2 := z2.1 e2
    have n1 := z1.1 e1
    dsimp only
    omega
  · have n3 := z3.1 e3
    have n2 := z2.1 e2
    have n1 := mt z1.2 e1
    dsimp only
    omega
  · have n3 := z3.1 e3
    have n2 := mt z2.2 e2
    dsimp only
    omega
  · have n3 := mt z3.2 e3
    dsimp only
    omega

/-- The first word of a sum is stored right when it is what is carried into it. -/
theorem first_word {A T N s S : ℕ} (hA : A < 2 ^ 32) (hT : T < 2 ^ 96) (hS : S < 2 ^ 96) (hN : N < 2 ^ 32)
    (hs : s = (A + N) % 2 ^ 32) (h : s * 2 ^ 96 + S = (A * 2 ^ 96 + T + N) % 2 ^ 128) :
    (N = 0 ∧ S = T) ∨ (N = 1 ∧ T + 1 = 2 ^ 96 ∧ S = 0) := by
  by_cases hc : T + N < 2 ^ 96
  · have hlt : A * 2 ^ 96 + T + N < 2 ^ 128 := by omega
    rw [Nat.mod_eq_of_lt hlt] at h
    have he : s = A := by omega
    omega
  · by_cases hm : A = 2 ^ 32 - 1
    · have he : s = 0 := by omega
      omega
    · have hlt : A * 2 ^ 96 + T + N < 2 ^ 128 := by omega
      rw [Nat.mod_eq_of_lt hlt] at h
      have he : s = A + 1 := by omega
      omega

/-- The words that `IP6_ADD` stores are those of the sum in two cases only. -/
theorem words_iff {A₀ A₁ A₂ A₃ D₁ D₂ D₃ N s₀ s₁ s₂ s₃ : ℕ} (hA₀ : A₀ < 2 ^ 32)
    (hA₁ : A₁ < 2 ^ 32) (hA₂ : A₂ < 2 ^ 32) (hA₃ : A₃ < 2 ^ 32) (hD₁ : D₁ < 2 ^ 32) (hD₂ : D₂ < 2 ^ 32)
    (hD₃ : D₃ < 2 ^ 32) (hN : N < 2 ^ 32) (h₀ : s₀ = (A₀ + N) % 2 ^ 32)
    (h₁ : s₁ = if s₀ < A₀ then (D₁ + 1) % 2 ^ 32 else D₁)
    (h₂ : s₂ = if s₀ < A₀ ∧ s₁ < A₁ then (D₂ + 1) % 2 ^ 32 else D₂)
    (h₃ : s₃ = if (s₀ < A₀ ∧ s₁ < A₁) ∧ s₂ < A₂ then (D₃ + 1) % 2 ^ 32 else D₃) :
    s₀ * 2 ^ 96 + s₁ * 2 ^ 64 + s₂ * 2 ^ 32 + s₃ =
      (A₀ * 2 ^ 96 + A₁ * 2 ^ 64 + A₂ * 2 ^ 32 + A₃ + N) % 2 ^ 128 ↔
      (N = 0 ∧ D₁ = A₁ ∧ D₂ = A₂ ∧ D₃ = A₃) ∨
      (N = 1 ∧ A₁ = 2 ^ 32 - 1 ∧ A₂ = 2 ^ 32 - 1 ∧ A₃ = 2 ^ 32 - 1 ∧
          ((A₀ = 2 ^ 32 - 1 ∧ D₁ = 2 ^ 32 - 1 ∧ D₂ = 2 ^ 32 - 1 ∧ D₃ = 2 ^ 32 - 1) ∨
            (A₀ ≠ 2 ^ 32 - 1 ∧ D₁ = 0 ∧ D₂ = 0 ∧ D₃ = 0))) := by
  have hs₁ : s₁ < 2 ^ 32 := by split_ifs at h₁ <;> omega
  have hs₂ : s₂ < 2 ^ 32 := by split_ifs at h₂ <;> omega
  have hs₃ : s₃ < 2 ^ 32 := by split_ifs at h₃ <;> omega
  constructor
  · intro h
    have hf := @first_word A₀ (A₁ * 2 ^ 64 + A₂ * 2 ^ 32 + A₃) N s₀ (s₁ * 2 ^ 64 + s₂ * 2 ^ 32 + s₃) hA₀
        (by omega) (by omega) hN h₀
      (by simpa only [add_assoc] using h)
    clear h
    rcases hf with ⟨rfl, hS⟩ | ⟨rfl, hT, hS⟩
    · rw [if_neg (by omega)] at h₁
      rw [if_neg (by omega)] at h₂
      rw [if_neg (by omega)] at h₃
      omega
    · by_cases hm : A₀ = 2 ^ 32 - 1
      · have he : s₀ < A₀ := by omega
        rw [if_pos he] at h₁
        rw [if_pos ⟨he, by omega⟩] at h₂
        rw [if_pos ⟨⟨he, by omega⟩, by omega⟩] at h₃
        omega
      · rw [if_neg (by omega)] at h₁
        rw [if_neg (by omega)] at h₂
        rw [if_neg (by omega)] at h₃
        omega
  · rintro (⟨rfl, rfl, rfl, rfl⟩ | ⟨rfl, rfl, rfl, rfl, ⟨rfl, rfl, rfl, rfl⟩ | ⟨hm, rfl, rfl, rfl⟩⟩)
    · rw [if_neg (by omega)] at h₁
      rw [if_neg (by omega)] at h₂
      rw [if_neg (by omega)] at h₃
      omega
    · rw [if_pos (by omega)] at h₁
      rw [if_pos (by omega)] at h₂
      rw [if_pos (by omega)] at h₃
      omega
    · rw [if_neg (by omega)] at h₁
      rw [if_neg (by omega)] at h₂
      rw [if_neg (by omega)] at h₃
      omega

theorem add_iff (M : Machine) (a d : I6addr) (n : Word) :
    number M (ip6Add M a n d) = (number M a + n.toNat) % 2 ^ 128 ↔ Carried a n d := by
  have hnext := fun w : Word => inc_toNat M w
  have h₀ : num M (ip6Add M a n d).i60 = (num M a.i60 + n.toNat) % 2 ^ 32 := by
    unfold ip6Add num
    dsimp only
    rw [ntohl_nladd, BitVec.toNat_add]
  have h₁ : num M (ip6Add M a n d).i61 = if num M (ip6Add M a n d).i60 < num M a.i60 then (num M d.i61 + 1) % 2 ^ 32
      else num M d.i61 := by
    simp only [← hnext, ip6Add, ntohl_lt_iff, decide_eq_true_eq, apply_ite (num M)]
  have h₂ : num M (ip6Add M a n d).i62 = if num M (ip6Add M a n d).i60 < num M a.i60 ∧
      num M (ip6Add M a n d).i61 < num M a.i61 then (num M d.i62 + 1) % 2 ^ 32 else num M d.i62 := by
    simp only [← hnext, ip6Add, ntohl_lt_iff, decide_eq_true_eq, apply_ite (num M)]
  have h₃ : num M (ip6Add M a n d).i63 = if (num M (ip6Add M a n d).i60 < num M a.i60 ∧
      num M (ip6Add M a n d).i61 < num M a.i61) ∧ num M (ip6Add M a n d).i62 < num M a.i62 then (num M d.i63 + 1) % 2 ^ 32
      else num M d.i63 := by
    simp only [← hnext, ip6Add, ntohl_lt_iff, decide_eq_true_eq, apply_ite (num M)]
  refine (words_iff (num_lt M _) (num_lt M _) (num_lt M _) (num_lt M _) (num_lt M _) (num_lt M _)
    (num_lt M _) n.isLt h₀ h₁ h₂ h₃).trans ?_
  unfold Carried
  rw [← @num_inj M d.i61, ← @num_inj M d.i62, ← @num_inj M d.i63, num_ones_iff M a.i61, num_ones_iff M a.i62,
    num_ones_iff M a.i63]
  refine or_congr (and_congr_left fun _ => ?_)
    (and_congr ?_ (and_congr_right fun _ => and_congr_right fun _ => and_congr_right fun _ => ?_))
  · rw [← BitVec.toNat_inj]
    rfl
  · rw [← BitVec.toNat_inj]
    rfl
  · have hm := num_ones_iff M a.i60
    by_cases hones : a.i60 = 0xffffffff
    · have hA := hm.1 hones
      dsimp only
      rw [if_pos hones, num_ones_iff M d.i61, num_ones_iff M d.i62, num_ones_iff M d.i63]
      omega
    · have hA := mt hm.2 hones
      dsimp only
      rw [if_neg hones, num_zero_iff M d.i61, num_zero_iff M d.i62, num_zero_iff M d.i63]
      omega

/-- **For which addresses the macros are right.** -/
theorem arith_iff (M : Machine) (a b d : I6addr) (n : Word) : Arith M a b d n ↔ SameOrder M a b ∧ Carried a n d := by
  rw [← order_iff, ← add_iff M]
  constructor
  · intro h
    exact ⟨⟨h.gt, h.lt⟩, h.add⟩
  · rintro ⟨⟨hgt, hlt⟩, hadd⟩
    exact ⟨hgt, hlt, val_inc M a, hadd⟩

/-- On a little-endian machine: 1 added to `::100` does not give `::101`, and `::100` counts as lower than `::2`. -/
theorem arith_not : ¬∀ (M : Machine) (a b d : I6addr) (n : Word), Arith M a b d n := by
  intro h
  have hlt := (h ⟨true, 0⟩ ⟨0, 0, 0, 0x00010000⟩ ⟨0, 0, 0, 0x02000000⟩ I6addr.zero 1).lt
  exact absurd (hlt.1 (by decide)) (by decide)

end Ipfilter.NatAdd
