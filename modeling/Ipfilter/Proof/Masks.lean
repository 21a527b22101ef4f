import Ipfilter.Spec.Masks
import Mathlib.Data.List.GetD
import Mathlib.Data.List.Range
import Mathlib.Tactic.IntervalCases

/-!
# The active masks are those in use

A table is described by the list of lengths in use, longest first. The array is that list turned
into masks and filled up with zeros, so the mask of length 0 never has a place of its own: it is
the first zero behind the others, and only `max` says whether it is there.

* `place_row`, `remove_row`: the two loops insert into, and take out of, the descending list.
* `Kept`: the invariant of one table; `Kept.add_first`, `Kept.del_last` and their siblings keep it.
* `run_exact`: what holds of both tables in every state of a run.
-/

namespace Ipfilter.Masks

open List
open Function (update update_apply update_eq_self update_of_ne update_self)

/-! ## The loops -/

section Loops

variable {W : Type*}

theorem openGap_apply (i j : ℕ) (a : ℕ → W) (k : ℕ) :
    openGap i j a k = if i < k ∧ k ≤ j then a (k - 1) else a k := by
  induction j generalizing a with
  | zero =>
    have h : ¬(i < k ∧ k ≤ 0) := by omega
    rw [openGap, if_neg h]
  | succ j ih =>
    rw [openGap]
    split
    next hi =>
      rw [ih]
      rcases lt_trichotomy k (j + 1) with h | rfl | h
      · have h1 : k ≠ j + 1 := by omega
        have h2 : k - 1 ≠ j + 1 := by omega
        have h3 : (i < k ∧ k ≤ j) ↔ (i < k ∧ k ≤ j + 1) := by omega
        simp only [update_of_ne h1, update_of_ne h2, h3]
      · simp [hi]
      · have h1 : k ≠ j + 1 := by omega
        have h2 : ¬(i < k ∧ k ≤ j) := by omega
        have h3 : ¬(i < k ∧ k ≤ j + 1) := by omega
        rw [if_neg h2, if_neg h3, update_of_ne h1]
    next hi =>
      have h : ¬(i < k ∧ k ≤ j + 1) := by omega
      rw [if_neg h]

/-- A loop that may stop early still closes the whole gap, when what it stops at fills the rest. -/
theorem closeGap_apply (stop : W → Bool) (k j : ℕ) (a : ℕ → W) (hj : 0 < j)
    (hz : ∀ s, j ≤ s → s < j + k → stop (a s) = true → ∀ r, s ≤ r → r < j + k → a r = a s) (r : ℕ) :
    closeGap stop k j a r = if j ≤ r + 1 ∧ r + 1 < j + k then a (r + 1) else a r := by
  induction k generalizing j a with
  | zero =>
    have h : ¬(j ≤ r + 1 ∧ r + 1 < j + 0) := by omega
    rw [closeGap, if_neg h]
  | succ k ih =>
    simp only [closeGap, update_self]
    have hne : ∀ s, j ≤ s → s ≠ j - 1 := fun s hs => by omega
    split
    next hstop =>
      have hsame := hz j le_rfl (by omega) hstop
      rcases lt_trichotomy (r + 1) j with h | h | h
      · have h1 : r ≠ j - 1 := by omega
        have h2 : ¬(j ≤ r + 1 ∧ r + 1 < j + (k + 1)) := by omega
        rw [update_of_ne h1, if_neg h2]
      · have h1 : r = j - 1 := by omega
        have h2 : j ≤ r + 1 ∧ r + 1 < j + (k + 1) := by omega
        rw [h1, update_self, ← h1, if_pos h2, h]
      · rw [update_of_ne (hne r (by omega))]
        split
        next hr => rw [hsame r (by omega) (by omega), hsame (r + 1) (by omega) hr.2]
        next => rfl
    next hstop =>
      rw [ih (j + 1) _ (by omega)]
      · rcases lt_trichotomy (r + 1) j with h | h | h
        · have h1 : r ≠ j - 1 := by omega
          have h2 : ¬(j + 1 ≤ r + 1 ∧ r + 1 < j + 1 + k) := by omega
          have h3 : ¬(j ≤ r + 1 ∧ r + 1 < j + (k + 1)) := by omega
          rw [if_neg h2, if_neg h3, update_of_ne h1]
        · have h1 : r = j - 1 := by omega
          have h2 : ¬(j + 1 ≤ r + 1 ∧ r + 1 < j + 1 + k) := by omega
          have h3 : j ≤ r + 1 ∧ r + 1 < j + (k + 1) := by omega
          rw [if_neg h2, if_pos h3, h1, update_self, ← h1, h]
        · have h3 : (j + 1 ≤ r + 1 ∧ r + 1 < j + 1 + k) ↔ (j ≤ r + 1 ∧ r + 1 < j + (k + 1)) := by
            omega
          simp only [h3, update_of_ne (hne (r + 1) (by omega)),
            update_of_ne (hne r (by omega))]
      · intro s hs hsk hst t hst' htk
        rw [update_of_ne (hne s (by omega))] at hst ⊢
        rw [update_of_ne (hne t (by omega))]
        exact hz s (by omega) (by omega) hst t hst' (by omega)

/-- Nothing changes when what is taken out fills the array from there on. -/
theorem remove_same {n : ℕ} { here stop : W → Bool} {a : ℕ → W}
    (h : ∀ i < n, here (a i) = true → ∀ k, i ≤ k → k < n → a k = a i) :
      ∀ k < n, remove n here stop a k = a k := by
  intro k hk
  unfold remove
  cases hf : (range n).find? (fun i => here (a i)) with
  | none => rfl
  | some i =>
    obtain ⟨hi, hin, -⟩ := find?_range_eq_some.1 hf
    have hin := mem_range.1 hin
    have hfill := h i hin hi
    simp only
    rw [closeGap_apply _ _ _ _ (by omega)]
    · split
      next hr => rw [hfill (k + 1) (by omega) (by omega), hfill k (by omega) hk]
      next => rfl
    · intro s hs hsn _ r hr hrn
      rw [hfill r (by omega) (by omega), hfill s (by omega) (by omega)]

end Loops

/-! ## The lengths in use -/

/-- The lengths below `n` with a positive count, longest first. -/
def lengths (n : ℕ) (c : ℕ → ℤ) : List ℕ := (range n).reverse.filter fun b => 0 < c b

/-- The same without length 0. -/
def inUse (n : ℕ) (c : ℕ → ℤ) : List ℕ := (range n).reverse.filter fun b => 0 < b ∧ 0 < c b

theorem range_reverse_split {n b : ℕ} (hb : b < n) : (range n).reverse =
      (range' (b + 1) (n - b - 1)).reverse ++ b :: (range b).reverse := by
  have h : range n = range b ++ b :: range' (b + 1) (n - b - 1) := by
    rw [range_eq_range', range_eq_range', ← List.range'_succ]
    have hn : n = b + (n - b - 1 + 1) := by omega
    conv_lhs => rw [hn, ← List.range'_append_1]
    rw [zero_add]
  rw [h]
  simp

/-- Counting a positive length differently only decides whether it stands between the longer and
the shorter ones. -/
theorem inUse_split {n b : ℕ} (hb : b < n) (h0 : 0 < b) (c : ℕ → ℤ) :
    ∃ A B, (∀ x ∈ A, b < x ∧ x < n) ∧ (∀ x ∈ B, 0 < x ∧ x < b) ∧
      ∀ v, inUse n (update c b v) = A ++ if 0 < v then b :: B else B := by
  refine ⟨(range' (b + 1) (n - b - 1)).reverse.filter fun x => 0 < x ∧ 0 < c x,
    (range b).reverse.filter fun x => 0 < x ∧ 0 < c x, ?_, ?_, fun v => ?_⟩
  · intro x hx
    have hx := mem_range'_1.1 (mem_reverse.1 (mem_of_mem_filter hx))
    omega
  · intro x hx
    obtain ⟨hx, hp⟩ := mem_filter.1 hx
    have hx := mem_range.1 (mem_reverse.1 hx)
    exact ⟨(of_decide_eq_true hp).1, hx⟩
  · have hup : ∀ l : List ℕ, (∀ x ∈ l, x ≠ b) →
        (l.filter fun x => 0 < x ∧ 0 < update c b v x) =
          l.filter fun x => 0 < x ∧ 0 < c x := by
      intro l hl
      apply filter_congr
      intro x hx
      rw [update_of_ne (hl x hx)]
    unfold inUse
    rw [range_reverse_split hb, filter_append, filter_cons, hup, hup]
    · by_cases hv : 0 < v <;> simp [hv, h0]
    · intro x hx
      have hx := mem_range.1 (mem_reverse.1 hx)
      omega
    · intro x hx
      have hx := mem_range'_1.1 (mem_reverse.1 hx)
      omega

theorem inUse_congr {n : ℕ} {c c' : ℕ → ℤ} (h : ∀ b, 0 < b → (0 < c' b ↔ 0 < c b)) : inUse n c' = inUse n c := by
  apply filter_congr
  intro b _
  by_cases hb : 0 < b
  · simp [hb, h b hb]
  · simp [hb]

theorem lengths_eq {n : ℕ} (hn : 0 < n) (c : ℕ → ℤ) : lengths n c = inUse n c ++ if 0 < c 0 then [0] else [] := by
  have h : ∀ x ∈ (range' (0 + 1) (n - 0 - 1)).reverse,
      decide (0 < c x) = decide (0 < x ∧ 0 < c x) := by
    intro x hx
    have hx := mem_range'_1.1 (mem_reverse.1 hx)
    have hpos : 0 < x := by omega
    simp [hpos]
  unfold lengths inUse
  rw [range_reverse_split hn, filter_append, filter_append, filter_congr h]
  by_cases h0 : 0 < c 0 <;> simp [h0]

theorem inUse_length_lt {n : ℕ} (hn : 0 < n) (c : ℕ → ℤ) : (inUse n c).length < n := by
  unfold inUse
  rw [range_reverse_split hn, filter_append]
  have h := length_filter_le (fun b => decide (0 < b ∧ 0 < c b))
    (range' (0 + 1) (n - 0 - 1)).reverse
  simp only [length_reverse, length_range'] at h
  simp only [filter_cons, lt_irrefl, false_and, decide_false, range_zero,
    reverse_nil, filter_nil, append_nil, Bool.false_eq_true, if_false]
  omega

theorem mem_inUse {n b : ℕ} {c : ℕ → ℤ} (h : b ∈ inUse n c) : b < n ∧ 0 < b ∧ 0 < c b := by
  obtain ⟨hb, hp⟩ := mem_filter.1 h
  exact ⟨mem_range.1 (mem_reverse.1 hb), of_decide_eq_true hp⟩

/-! ## The array of a table -/

section Rows

variable {W : Type*} {n : ℕ} {lt : W → W → Bool} {mask : ℕ → W} {here stop : W → Bool}

/-- The comparison of the table agrees with the lengths of the masks. -/
def Ordered (n : ℕ) (lt : W → W → Bool) (mask : ℕ → W) : Prop :=
  ∀ b < n, ∀ c < n, (lt (mask b) (mask c) = true ↔ b < c)

theorem Ordered.inj (ho : Ordered n lt mask) {b c : ℕ} (hb : b < n) (hc : c < n) (h : mask b = mask c) : b = c := by
  have h1 := ho b hb c hc
  have h2 := ho c hc c hc
  have h3 := ho c hc b hb
  have h4 := ho b hb b hb
  rw [h] at h1 h4
  rw [h] at h3
  have h5 : ¬c < c := by omega
  have h6 : ¬b < c := fun hlt => h5 (h2.1 (h1.2 hlt))
  have h7 : ¬c < b := fun hlt => h5 (h2.1 (h3.2 hlt))
  omega

/-- The array is the masks of `P`, filled up with the mask of length 0. -/
def Row (n : ℕ) (mask : ℕ → W) (a : ℕ → W) (P : List ℕ) : Prop :=
  ∀ i < n, a i = mask (P.getD i 0)

theorem getD_lt {P : List ℕ} (hn : 0 < n) (hP : ∀ x ∈ P, x < n) (i : ℕ) : P.getD i 0 < n := by
  by_cases hi : i < P.length
  · rw [getD_eq_getElem _ _ hi]
    exact hP _ (getElem_mem hi)
  · rw [getD_eq_default _ _ (by omega)]
    exact hn

/-- **A mask takes its place** between the longer and the shorter ones. -/
theorem place_row (ho : Ordered n lt mask) {a : ℕ → W} {A B : List ℕ} {b : ℕ} (hb : b < n)
    (hA : ∀ x ∈ A, b < x ∧ x < n) (hB : ∀ x ∈ B, 0 < x ∧ x < b) (h0 : 0 < b)
    (hlen : (A ++ B).length < n) (hrow : Row n mask a (A ++ B)) :
    Row n mask (place n (fun w => lt w (mask b)) (mask b) a) (A ++ b :: B) := by
  have hAn : A.length < n := by
    rw [length_append] at hlen
    omega
  have hlow : (A ++ B).getD A.length 0 < b := by
    rw [getD_append_right _ _ _ _ le_rfl, Nat.sub_self]
    cases B with
    | nil => exact h0
    | cons x B => exact (hB x (by simp)).2
  have hfind : (range n).find? (fun i => lt (a i) (mask b)) = some A.length := by
    refine find?_range_eq_some.2 ⟨?_, mem_range.2 hAn, fun j hj => ?_⟩
    · rw [hrow A.length hAn, ho _ (by omega) _ hb]
      exact hlow
    · have hjA := hA _ (getElem_mem hj)
      rw [hrow j (by omega), getD_append _ _ _ _ hj, getD_eq_getElem _ _ hj]
      have hno := mt (ho _ hjA.2 b hb).1 (by omega)
      simpa using hno
  intro r hr
  unfold place
  rw [hfind]
  simp only
  rcases lt_trichotomy r A.length with h | rfl | h
  · have h1 : ¬(A.length < r ∧ r ≤ n - 1) := by omega
    rw [update_of_ne (by omega), openGap_apply, if_neg h1, hrow r hr,
      getD_append _ _ _ _ h, getD_append _ _ _ _ h]
  · rw [update_self, getD_append_right _ _ _ _ le_rfl, Nat.sub_self]
    rfl
  · have h1 : A.length < r ∧ r ≤ n - 1 := by omega
    obtain ⟨d, rfl⟩ : ∃ d, r = A.length + (d + 1) := ⟨r - A.length - 1, by omega⟩
    rw [update_of_ne (by omega), openGap_apply, if_pos h1, hrow _ (by omega),
      getD_append_right _ _ _ _ (by omega), getD_append_right _ _ _ _ (by omega)]
    have h2 : A.length + (d + 1) - 1 - A.length = d := by omega
    have h3 : A.length + (d + 1) - A.length = d + 1 := by omega
    rw [h2, h3]
    rfl

/-- **A mask leaves its place** and those behind it move up. -/
theorem remove_row (ho : Ordered n lt mask) {a : ℕ → W} {A B : List ℕ} {b : ℕ} (hb : b < n)
    (hA : ∀ x ∈ A, b < x ∧ x < n) (hB : ∀ x ∈ B, 0 < x ∧ x < b) (h0 : 0 < b)
    (hlen : (A ++ b :: B).length < n) (hrow : Row n mask a (A ++ b :: B))
    (hhere : ∀ w, here w = true ↔ w = mask b) (hstop : ∀ w, stop w = true → w = mask 0) :
    Row n mask (remove n here stop a) (A ++ B) := by
  have hAn : A.length < n := by
    rw [length_append] at hlen
    omega
  have hall : ∀ x ∈ A ++ b :: B, 0 < x ∧ x < n := by
    intro x hx
    rcases mem_append.1 hx with hx | hx
    · have := hA x hx
      omega
    · rcases mem_cons.1 hx with rfl | hx
      · exact ⟨h0, hb⟩
      · have := hB x hx
        omega
  have hfind : (range n).find? (fun i => here (a i)) = some A.length := by
    refine find?_range_eq_some.2 ⟨?_, mem_range.2 hAn, fun j hj => ?_⟩
    · rw [hhere, hrow A.length hAn, getD_append_right _ _ _ _ le_rfl, Nat.sub_self]
      rfl
    · have hjA := hA _ (getElem_mem hj)
      have hno : ¬here (a j) = true := by
        rw [hhere, hrow j (by omega), getD_append _ _ _ _ hj, getD_eq_getElem _ _ hj]
        intro he
        have := ho.inj hjA.2 hb he
        omega
      simpa using hno
  -- only the filling is equal to the mask of length 0
  have hfill : ∀ s < n, a s = mask 0 → (A ++ b :: B).length ≤ s := by
    intro s hs he
    by_contra hlt
    rw [hrow s hs, getD_eq_getElem _ _ (by omega)] at he
    have hx := hall _ (getElem_mem (show s < (A ++ b :: B).length by omega))
    have := ho.inj hx.2 (by omega) he
    omega
  intro r hr
  unfold remove
  rw [hfind]
  simp only
  rw [closeGap_apply _ _ _ _ (by omega)]
  · by_cases h1 : A.length + 1 ≤ r + 1 ∧ r + 1 < A.length + 1 + (n - (A.length + 1))
    · obtain ⟨d, rfl⟩ : ∃ d, r = A.length + d := ⟨r - A.length, by omega⟩
      rw [if_pos h1, hrow _ (by omega), getD_append_right _ _ _ _ (by omega),
        getD_append_right _ _ _ _ (by omega)]
      have h2 : A.length + d + 1 - A.length = d + 1 := by omega
      have h3 : A.length + d - A.length = d := by omega
      rw [h2, h3]
      rfl
    · rw [if_neg h1, hrow r hr]
      by_cases h2 : r < A.length
      · rw [getD_append _ _ _ _ h2, getD_append _ _ _ _ h2]
      · have h3 : (A ++ b :: B).length = (A ++ B).length + 1 := by simp; omega
        rw [getD_eq_default _ _ (by omega), getD_eq_default _ _ (by omega)]
  · intro s hs hsn hst t hst' htn
    have hz := hfill s (by omega) (hstop _ hst)
    rw [hrow s (by omega), hrow t (by omega), getD_eq_default _ _ (by omega),
      getD_eq_default _ _ (by omega)]

/-! ## One table -/

/-- The invariant of a table. -/
structure Kept (n : ℕ) (mask : ℕ → W) (active : ℕ → W) (masks : ℕ → ℤ) (max : ℤ) : Prop where
  row : Row n mask active (inUse n masks)
  max : max = (lengths n masks).length
  nonneg : ∀ b < n, 0 ≤ masks b

/-- **The property of a table**: its first `max` places hold the masks of the lengths in use, each
once and longest first. -/
def Exact (n : ℕ) (mask : ℕ → W) (active : ℕ → W) (masks : ℕ → ℤ) (max : ℤ) : Prop :=
  max = (lengths n masks).length ∧
    ∀ i (h : i < (lengths n masks).length), active i = mask (lengths n masks)[i]

variable {active : ℕ → W} {masks : ℕ → ℤ} {max : ℤ} {b : ℕ}

theorem Kept.exact (hn : 0 < n) (h : Kept n mask active masks max) : Exact n mask active masks max := by
  refine ⟨h.max, fun i hi => ?_⟩
  have heq := lengths_eq hn masks
  have hlt := inUse_length_lt hn masks
  have hin : i < n := by
    rw [heq, length_append] at hi
    by_cases h0 : 0 < masks 0 <;> simp [h0] at hi <;> omega
  rw [h.row i hin, ← getD_eq_getElem _ 0 hi, heq]
  by_cases hi' : i < (inUse n masks).length
  · rw [getD_append _ _ _ _ hi']
  · -- the first place behind the others is that of length 0
    rw [getD_eq_default _ _ (by omega), getD_append_right _ _ _ _ (by omega)]
    by_cases h0 : 0 < masks 0
    · rw [if_pos h0]
      cases i - (inUse n masks).length <;> simp
    · rw [if_neg h0]
      simp

theorem nonneg_update (h : ∀ b < n, 0 ≤ masks b) {v : ℤ} (hv : 0 ≤ v) : ∀ c < n, 0 ≤ update masks b v c := by
  intro c hc
  by_cases hcb : c = b
  · rw [hcb, update_self]
    exact hv
  · rw [update_of_ne hcb]
    exact h c hc

/-- A count that stays positive changes nothing but itself. -/
theorem Kept.recount (hn : 0 < n) (h : Kept n mask active masks max) {v : ℤ} (hv : 0 < v)
    (hb : 0 < masks b) : Kept n mask active (update masks b v) max := by
  have hiff : ∀ c, 0 < update masks b v c ↔ 0 < masks c := by
    intro c
    by_cases hcb : c = b
    · rw [hcb, update_self]
      exact ⟨fun _ => hb, fun _ => hv⟩
    · rw [update_of_ne hcb]
  have huse : inUse n (update masks b v) = inUse n masks :=
    inUse_congr fun c _ => hiff c
  refine ⟨by rw [huse]; exact h.row, ?_, nonneg_update h.nonneg (by omega)⟩
  rw [lengths_eq hn, huse, h.max, lengths_eq hn]
  simp only [hiff]

theorem lengths_update_length (hn : 0 < n) (hb : b < n) (c : ℕ → ℤ) :
    (lengths n (update c b 1)).length = (lengths n (update c b 0)).length + 1 := by
  rw [lengths_eq hn, lengths_eq hn]
  rcases eq_zero_or_pos b with rfl | h0
  · have huse : inUse n (update c 0 1) = inUse n (update c 0 0) := by
      apply inUse_congr
      intro x hx
      rw [update_of_ne (by omega), update_of_ne (by omega)]
    simp [huse]
  · obtain ⟨A, B, -, -, hAB⟩ := inUse_split hb h0 c
    have hne : 0 ≠ b := by omega
    simp only [hAB, update_of_ne hne]
    simp
    omega

/-- **The first rule of a length** brings its mask in. -/
theorem Kept.add_first (hn : 0 < n) (ho : Ordered n lt mask) (h : Kept n mask active masks max)
    (hb : b < n) (hc : masks b = 0) :
    Kept n mask (place n (fun w => lt w (mask b)) (mask b) active) (update masks b 1) (max + 1) := by
  have hself : update masks b 0 = masks := by rw [← hc, update_eq_self]
  have hlen := lengths_update_length hn hb masks
  rw [hself] at hlen
  refine ⟨?_, by rw [h.max, hlen]; simp, nonneg_update h.nonneg (by omega)⟩
  have hrow := h.row
  have hlt := inUse_length_lt hn masks
  rcases eq_zero_or_pos b with rfl | h0
  · -- nothing is below the mask of length 0: it falls behind the array
    have hfind : (range n).find? (fun i => lt (active i) (mask 0)) = none := by
      refine find?_eq_none.2 fun i hi => ?_
      rw [hrow i (mem_range.1 hi), ho _ (getD_lt hn (fun x hx => (mem_inUse hx).1) i) 0 hn]
      omega
    have huse : inUse n (update masks 0 1) = inUse n masks := by
      apply inUse_congr
      intro x hx
      rw [update_of_ne (by omega)]
    unfold place
    rw [hfind, huse]
    exact hrow
  · obtain ⟨A, B, hA, hB, hAB⟩ := inUse_split hb h0 masks
    have hold := hAB 0
    rw [hself, if_neg (by omega)] at hold
    rw [hAB 1, if_pos (by omega)]
    rw [hold] at hrow hlt
    exact place_row ho hb hA hB h0 hlt hrow

/-- **The last rule of a positive length** takes its mask out. -/
theorem Kept.del_last (hn : 0 < n) (ho : Ordered n lt mask) (h : Kept n mask active masks max)
    (hb : b < n) (h0 : 0 < b) (hc : masks b = 1)
    (hhere : ∀ w, here w = true ↔ w = mask b) (hstop : ∀ w, stop w = true → w = mask 0) :
    Kept n mask (remove n here stop active) (update masks b 0) (max - 1) := by
  have hself : update masks b 1 = masks := by rw [← hc, update_eq_self]
  have hlen := lengths_update_length hn hb masks
  rw [hself] at hlen
  refine ⟨?_, by rw [h.max, hlen]; simp, nonneg_update h.nonneg (by omega)⟩
  have hrow := h.row
  have hlt := inUse_length_lt hn masks
  obtain ⟨A, B, hA, hB, hAB⟩ := inUse_split hb h0 masks
  have hold := hAB 1
  rw [hself, if_pos (by omega)] at hold
  rw [hAB 0, if_neg (by omega)]
  rw [hold] at hrow hlt
  exact remove_row ho hb hA hB h0 hlt hrow hhere hstop

/-- The last rule of length 0 leaves the array alone, unless it takes out another mask. -/
theorem Kept.del_last_zero (hn : 0 < n) (h : Kept n mask active masks max) (hc : masks 0 = 1)
    (hhere : ∀ c ∈ inUse n masks, here (mask c) = false) :
    Kept n mask (remove n here stop active) (update masks 0 0) (max - 1) := by
  have hself : update masks 0 1 = masks := by rw [← hc, update_eq_self]
  have hlen := lengths_update_length hn hn masks
  rw [hself] at hlen
  refine ⟨?_, by rw [h.max, hlen]; simp, nonneg_update h.nonneg (by omega)⟩
  have huse : inUse n (update masks 0 0) = inUse n masks := by
    apply inUse_congr
    intro x hx
    rw [update_of_ne (by omega)]
  rw [huse]
  intro r hr
  rw [remove_same _ r hr]
  · exact h.row r hr
  intro i hi hit k hik hk
  have hlen : (inUse n masks).length ≤ i := by
    by_contra hlt
    rw [h.row i hi, getD_eq_getElem _ _ (by omega)] at hit
    rw [hhere _ (getElem_mem _)] at hit
    exact absurd hit (by simp)
  rw [h.row i hi, h.row k hk, getD_eq_default _ _ (by omega),
    getD_eq_default _ _ (by omega)]

end Rows

/-! ## The masks of the two families -/

/-- The IPv4 mask of a length, in host order. -/
def hostMask (b : ℕ) : Word := if b = 0 then 0 else 0xffffffff <<< (32 - b)

/-- The IPv4 mask of a length, as the table holds it. -/
def mask4 (M : Machine) (b : ℕ) : Word := M.htonl (hostMask b)

/-- The IPv6 mask of a length, as the table holds it. -/
def mask6 (M : Machine) (b : ℕ) : I6addr :=
  ⟨mask4 M (min 32 b), mask4 M (min 32 (b - 32)), mask4 M (min 32 (b - 64)),
    mask4 M (min 32 (b - 96))⟩

theorem bswap_bswap (x : Word) : bswap (bswap x) = x := by
  apply BitVec.eq_of_getLsbD_eq
  intro i hi
  simp only [bswap, BitVec.getLsbD_append, BitVec.getLsbD_extractLsb']
  interval_cases i <;> simp

theorem ntohl_htonl (M : Machine) (x : Word) : M.ntohl (M.htonl x) = x := by
  unfold Machine.ntohl Machine.htonl
  split
  · exact bswap_bswap x
  · rfl

theorem htonl_inj {M : Machine} {x y : Word} (h : M.htonl x = M.htonl y) : x = y := by
  rw [← ntohl_htonl M x, h, ntohl_htonl]

/-- Words that grow step by step are in the order of their numbers. -/
theorem lt_iff_of_succ {n : ℕ} {f : ℕ → Word} (h : ∀ b < n, f b < f (b + 1)) :
    ∀ b < n + 1, ∀ c < n + 1, (f b < f c ↔ b < c) := by
  have hlt : ∀ b d, b + d < n → f b < f (b + d + 1) := by
    intro b d
    induction d with
    | zero => exact h b
    | succ d ih =>
      intro hd
      exact BitVec.lt_trans (ih (by omega)) (h (b + d + 1) hd)
  have hmono : ∀ b c, b < c → c < n + 1 → f b < f c := by
    intro b c hbc hc
    have hlast := hlt b (c - b - 1) (by omega)
    rwa [show b + (c - b - 1) + 1 = c by omega] at hlast
  intro b hb c hc
  constructor
  · intro hf
    by_contra hbc
    obtain rfl | hcb := Nat.eq_or_lt_of_not_lt hbc
    · exact BitVec.lt_irrefl _ hf
    · exact BitVec.lt_irrefl _ (BitVec.lt_trans hf (hmono c b hcb hb))
  · intro hbc
    exact hmono b c hbc hc

theorem hostMask_lt : ∀ b < 33, ∀ c < 33, (hostMask b < hostMask c ↔ b < c) :=
  lt_iff_of_succ (n := 32) (by decide)

/-- Swapping the bytes of the masks does not change how they compare: a longer mask has its
further ones in a byte that then counts for more. -/
theorem bswap_hostMask_lt : ∀ b < 33, ∀ c < 33, (bswap (hostMask b) < bswap (hostMask c) ↔ b < c) :=
  lt_iff_of_succ (n := 32) (f := fun b => bswap (hostMask b)) (by decide)

theorem ordered4 (M : Machine) : Ordered 33 (fun w m => decide (M.ntohl w < M.ntohl m)) (mask4 M) := by
  intro b hb c hc
  rw [decide_eq_true_iff, mask4, mask4, ntohl_htonl, ntohl_htonl]
  exact hostMask_lt b hb c hc

theorem mask4_lt (M : Machine) {b c : ℕ} (hb : b < 33) (hc : c < 33) :
    M.ntohl (M.ntohl (mask4 M b)) < M.ntohl (M.ntohl (mask4 M c)) ↔ b < c := by
  rw [mask4, mask4, ntohl_htonl, ntohl_htonl]
  unfold Machine.ntohl
  split
  · exact bswap_hostMask_lt b hb c hc
  · exact hostMask_lt b hb c hc

theorem mask4_eq (M : Machine) {b c : ℕ} (hb : b < 33) (hc : c < 33) :
    M.ntohl (mask4 M b) = M.ntohl (mask4 M c) ↔ b = c := by
  rw [mask4, mask4, ntohl_htonl, ntohl_htonl]
  constructor
  · intro h
    have h1 := hostMask_lt b hb c hc
    have h2 := hostMask_lt c hc b hb
    rw [h] at h1 h2
    have h3 : ¬hostMask c < hostMask c := BitVec.lt_irrefl _
    have h4 := mt h1.2 h3
    have h5 := mt h2.2 h3
    omega
  · intro h
    rw [h]

theorem ordered6 (M : Machine) : Ordered 129 (ip6Lt M) (mask6 M) := by
  intro b hb c hc
  have hmin : ∀ x, min 32 x < 33 := fun x => by omega
  simp only [ip6Lt, mask6, decide_eq_true_iff, mask4_lt M (hmin _) (hmin _),
    mask4_eq M (hmin _) (hmin _)]
  omega

theorem ip6Eq_iff (a b : I6addr) : ip6Eq a b = true ↔ a = b := by
  cases a
  cases b
  simp only [ip6Eq, decide_eq_true_iff, I6addr.mk.injEq]
  tauto

/-! ## Runs -/

/-- How often a length was added to, and deleted from, the IPv4 and the IPv6 table. -/
def adds4 (b : ℕ) (ops : List Op) : ℕ := ops.countP fun op => match op with
  | .add4 b' => b' = b
  | _ => false

def dels4 (b : ℕ) (ops : List Op) : ℕ := ops.countP fun op => match op with
  | .del4 b' => b' = b
  | _ => false

def adds6 (b : ℕ) (ops : List Op) : ℕ := ops.countP fun op => match op with
  | .add6 b' _ => b' = b
  | _ => false

def dels6 (b : ℕ) (ops : List Op) : ℕ := ops.countP fun op => match op with
  | .del6 b' _ => b' = b
  | _ => false

/-- A call that may follow the calls `pre`: lengths are in range, the IPv6 mask handed in is the
one of its length, and a delete undoes an earlier add. -/
def Allowed (M : Machine) (pre : List Op) : Op → Prop
  | .add4 bits => bits ≤ 32
  | .del4 bits => dels4 bits pre < adds4 bits pre
  | .add6 bits mask => bits ≤ 128 ∧ (0 < bits → mask = mask6 M bits)
  | .del6 bits mask => dels6 bits pre < adds6 bits pre ∧ (0 < bits → mask = mask6 M bits)

/-- The calls `ops` are allowed one after the other, behind `pre`. -/
def Legal (M : Machine) : List Op → List Op → Prop
  | _, [] => True
  | pre, op :: ops => Allowed M pre op ∧ Legal M (pre ++ [op]) ops

/-- Where `ipf_inet_mask_del` does what it is for: if it takes out the last mask of length 0, the
word its shift by 32 leaves is not the mask of a positive length in use. -/
def Clear (M : Machine) (t : Tabs) : Op → Prop
  | .del4 bits => bits = 0 → t.v4.masks 0 = 1 → ∀ b ∈ inUse 33 t.v4.masks, M.shl 32 ≠ hostMask b
  | _ => True

/-- All calls of `ops` are clear where they are made. -/
def Clears (M : Machine) : Tabs → List Op → Prop
  | _, [] => True
  | t, op :: ops => Clear M t op ∧ Clears M (step M t op) ops

section Steps

variable {M : Machine} {b : ℕ}

/-- The invariant of `Kept` for the tables as they are. -/
abbrev Kept4 (M : Machine) (t : V4Masktab) : Prop := Kept 33 (mask4 M) t.active t.masks t.max

abbrev Kept6 (M : Machine) (t : V6Masktab) : Prop := Kept 129 (mask6 M) t.active t.masks t.max

@[simp] theorem ipfInetMaskAdd_masks (t : V4Masktab) :
    (ipfInetMaskAdd M b t).masks = update t.masks b (t.masks b + 1) := by
  simp only [ipfInetMaskAdd, apply_ite V4Masktab.masks, ite_self]

@[simp] theorem ipfInetMaskDel_masks (t : V4Masktab) :
    (ipfInetMaskDel M b t).masks = update t.masks b (t.masks b - 1) := by
  simp only [ipfInetMaskDel, apply_ite V4Masktab.masks, ite_self]

@[simp] theorem ipfInet6MaskAdd_masks (m : I6addr) (t : V6Masktab) :
    (ipfInet6MaskAdd M b m t).masks = update t.masks b (t.masks b + 1) := by
  simp only [ipfInet6MaskAdd, apply_ite V6Masktab.masks, ite_self]

@[simp] theorem ipfInet6MaskDel_masks (m : I6addr) (t : V6Masktab) :
    (ipfInet6MaskDel b m t).masks = update t.masks b (t.masks b - 1) := by
  simp only [ipfInet6MaskDel, apply_ite V6Masktab.masks, ite_self]

theorem shl_eq_hostMask (h0 : 0 < b) : M.shl (32 - b) = hostMask b := by
  have h1 : 32 - b < 32 := by omega
  have h2 : b ≠ 0 := by omega
  rw [Machine.shl, if_pos h1, hostMask, if_neg h2]

theorem kept_add4 {t : V4Masktab} (h : Kept4 M t) (hb : b < 33) : Kept4 M (ipfInetMaskAdd M b t) := by
  have hpos := h.nonneg b hb
  unfold ipfInetMaskAdd
  simp only [update_self]
  split
  · exact h.recount (by omega) (by omega) (by omega)
  · have hc : t.masks b = 0 := by omega
    have hmask : (if b = 0 then 0 else M.shl (32 - b)) = hostMask b := by
      split
      next h0 => rw [hostMask, if_pos h0]
      next h0 => exact shl_eq_hostMask (by omega)
    have hk := h.add_first (by omega) (ordered4 M) hb hc
    simp only [mask4, ntohl_htonl] at hk
    rw [hmask, hc]
    exact hk

theorem kept_del4 {t : V4Masktab} (h : Kept4 M t) (hb : b < 33) (hpos : 0 < t.masks b)
    (hclear : b = 0 → t.masks 0 = 1 → ∀ c ∈ inUse 33 t.masks, M.shl 32 ≠ hostMask c) :
    Kept4 M (ipfInetMaskDel M b t) := by
  unfold ipfInetMaskDel
  simp only [update_self]
  split
  · exact h.recount (by omega) (by omega) hpos
  · have hc : t.masks b = 1 := by omega
    rw [hc, Int.sub_self]
    dsimp only [Kept4, Kept6]
    rcases eq_zero_or_pos b with rfl | h0
    · refine h.del_last_zero (by omega) hc fun c hcu => ?_
      have hne : mask4 M c ≠ M.htonl (M.shl (32 - 0)) := fun he =>
        hclear rfl hc c hcu (htonl_inj he).symm
      simpa using hne
    · refine h.del_last (by omega) (ordered4 M) hb h0 hc (fun w => ?_) (fun w hw => ?_)
      · rw [decide_eq_true_iff, shl_eq_hostMask h0, mask4]
      · exact absurd hw (by simp)

theorem mask6_zero : mask6 M 0 = I6addr.zero := by
  cases hl : M.little <;> simp [mask6, mask4, hostMask, Machine.htonl, I6addr.zero, bswap, hl]

theorem kept_add6 {t : V6Masktab} {m : I6addr} (h : Kept6 M t) (hb : b < 129)
    (hm : 0 < b → m = mask6 M b) : Kept6 M (ipfInet6MaskAdd M b m t) := by
  have hpos := h.nonneg b hb
  unfold ipfInet6MaskAdd
  simp only [update_self]
  split
  · exact h.recount (by omega) (by omega) (by omega)
  · have hc : t.masks b = 0 := by omega
    have hmask : (if b = 0 then I6addr.zero else m) = mask6 M b := by
      split
      next h0 => rw [h0, mask6_zero]
      next h0 => exact hm (by omega)
    have hk := h.add_first (by omega) (ordered6 M) hb hc
    rw [hmask, hc]
    exact hk

theorem kept_del6 {t : V6Masktab} {m : I6addr} (h : Kept6 M t) (hb : b < 129)
    (hpos : 0 < t.masks b) (hm : 0 < b → m = mask6 M b) : Kept6 M (ipfInet6MaskDel b m t) := by
  unfold ipfInet6MaskDel
  simp only [update_self]
  split
  · exact h.recount (by omega) (by omega) hpos
  · have hc : t.masks b = 1 := by omega
    rw [hc, Int.sub_self]
    dsimp only [Kept4, Kept6]
    rcases eq_zero_or_pos b with rfl | h0
    · refine h.del_last_zero (by omega) hc fun c hcu => ?_
      obtain ⟨hcn, hc0, -⟩ := mem_inUse hcu
      have hne : ¬ip6Eq (mask6 M c) (if 0 = 0 then I6addr.zero else m) = true := by
        rw [ip6Eq_iff, if_pos rfl, ← mask6_zero (M := M)]
        intro he
        have := (ordered6 M).inj hcn (by omega) he
        omega
      simpa using hne
    · refine h.del_last (by omega) (ordered6 M) hb h0 hc (fun w => ?_) (fun w hw => ?_)
      · have hne : b ≠ 0 := by omega
        rw [ip6Eq_iff, if_neg hne, hm h0]
      · rw [mask6_zero]
        exact (ip6Eq_iff w _).1 hw

end Steps

/-- The invariant of a run that has made the calls `pre`: the tables are kept, and their counters
are the adds less the deletes. -/
structure Inv (M : Machine) (pre : List Op) (t : Tabs) : Prop where
  kept4 : Kept4 M t.v4
  kept6 : Kept6 M t.v6
  count4 : ∀ b, t.v4.masks b = adds4 b pre - dels4 b pre
  count6 : ∀ b, t.v6.masks b = adds6 b pre - dels6 b pre
  range4 : ∀ b, 0 < adds4 b pre → b < 33
  range6 : ∀ b, 0 < adds6 b pre → b < 129

theorem inv_zero (M : Machine) : Inv M [] Tabs.zero := by
  have h4 : inUse 33 (fun _ => (0 : ℤ)) = [] := by simp [inUse]
  have h6 : inUse 129 (fun _ => (0 : ℤ)) = [] := by simp [inUse]
  refine ⟨⟨?_, ?_, ?_⟩, ⟨?_, ?_, ?_⟩, ?_, ?_, ?_, ?_⟩
  · intro i _
    cases hl : M.little <;>
      simp [Tabs.zero, V4Masktab.zero, h4, mask4, hostMask, Machine.htonl, bswap, hl]
  · simp [Tabs.zero, V4Masktab.zero, lengths]
  · intro b _
    simp [Tabs.zero, V4Masktab.zero]
  · intro i _
    simp [Tabs.zero, V6Masktab.zero, h6, mask6_zero]
  · simp [Tabs.zero, V6Masktab.zero, lengths]
  · intro b _
    simp [Tabs.zero, V6Masktab.zero]
  · intro b
    simp [Tabs.zero, V4Masktab.zero, adds4, dels4]
  · intro b
    simp [Tabs.zero, V6Masktab.zero, adds6, dels6]
  · intro b
    simp [adds4]
  · intro b
    simp [adds6]

/-- **One call** keeps the invariant. -/
theorem inv_step {M : Machine} {pre : List Op} {t : Tabs} {op : Op} (h : Inv M pre t)
    (ha : Allowed M pre op) (hc : Clear M t op) : Inv M (pre ++ [op]) (step M t op) := by
  have hcount4 : ∀ c d (b : ℕ), update t.v4.masks c d b =
      if b = c then d else (adds4 b pre - dels4 b pre : ℤ) := by
    intro c d b
    rw [update_apply, h.count4 b]
  have hcount6 : ∀ c d (b : ℕ), update t.v6.masks c d b =
      if b = c then d else (adds6 b pre - dels6 b pre : ℤ) := by
    intro c d b
    rw [update_apply, h.count6 b]
  -- each request changes one counter of one table
  cases op with
  | add4 c =>
    have hc33 : c < 33 := by
      have : c ≤ 32 := ha
      omega
    refine ⟨kept_add4 h.kept4 hc33, h.kept6, fun b => ?_, fun b => ?_, fun b hb => ?_,
      fun b hb => ?_⟩
    · simp only [step, ipfInetMaskAdd_masks, hcount4, h.count4]
      rcases eq_or_ne b c with rfl | hbc
      · simp [adds4, dels4, countP_append]
        omega
      · simp [adds4, dels4, countP_append, hbc, hbc.symm]
    · simp [step, h.count6, adds6, dels6, countP_append]
    · by_cases hbc : c = b
      · omega
      · exact h.range4 b (by simpa [adds4, countP_append, hbc] using hb)
    · exact h.range6 b (by simpa [adds6, countP_append] using hb)
  | del4 c =>
    have hlt : dels4 c pre < adds4 c pre := ha
    have hpos : 0 < t.v4.masks c := by
      rw [h.count4]
      omega
    refine ⟨kept_del4 h.kept4 (h.range4 c (by omega)) hpos hc, h.kept6, fun b => ?_, fun b => ?_,
      fun b hb => ?_, fun b hb => ?_⟩
    · simp only [step, ipfInetMaskDel_masks, hcount4, h.count4]
      rcases eq_or_ne b c with rfl | hbc
      · simp [adds4, dels4, countP_append]
        omega
      · simp [adds4, dels4, countP_append, hbc, hbc.symm]
    · simp [step, h.count6, adds6, dels6, countP_append]
    · exact h.range4 b (by simpa [adds4, countP_append] using hb)
    · exact h.range6 b (by simpa [adds6, countP_append] using hb)
  | add6 c m =>
    have hc129 : c < 129 := by
      have := ha.1
      omega
    refine ⟨h.kept4, kept_add6 h.kept6 hc129 ha.2, fun b => ?_, fun b => ?_, fun b hb => ?_,
      fun b hb => ?_⟩
    · simp [step, h.count4, adds4, dels4, countP_append]
    · simp only [step, ipfInet6MaskAdd_masks, hcount6, h.count6]
      rcases eq_or_ne b c with rfl | hbc
      · simp [adds6, dels6, countP_append]
        omega
      · simp [adds6, dels6, countP_append, hbc, hbc.symm]
    · exact h.range4 b (by simpa [adds4, countP_append] using hb)
    · by_cases hbc : c = b
      · omega
      · exact h.range6 b (by simpa [adds6, countP_append, hbc] using hb)
  | del6 c m =>
    have hlt : dels6 c pre < adds6 c pre := ha.1
    have hpos : 0 < t.v6.masks c := by
      rw [h.count6]
      omega
    refine ⟨h.kept4, kept_del6 h.kept6 (h.range6 c (by omega)) hpos ha.2, fun b => ?_,
      fun b => ?_, fun b hb => ?_, fun b hb => ?_⟩
    · simp [step, h.count4, adds4, dels4, countP_append]
    · simp only [step, ipfInet6MaskDel_masks, hcount6, h.count6]
      rcases eq_or_ne b c with rfl | hbc
      · simp [adds6, dels6, countP_append]
        omega
      · simp [adds6, dels6, countP_append, hbc, hbc.symm]
    · exact h.range4 b (by simpa [adds4, countP_append] using hb)
    · exact h.range6 b (by simpa [adds6, countP_append] using hb)

/-- Every state of a run keeps the invariant. -/
theorem inv_run {M : Machine} {ops pre : List Op} {t : Tabs} (h : Inv M pre t)
    (hl : Legal M pre ops) (hc : Clears M t ops) :
    ∀ done, done <+: ops → Inv M (pre ++ done) (done.foldl (step M) t) := by
  induction ops generalizing pre t with
  | nil =>
    intro done hd
    rw [prefix_nil.1 hd, append_nil]
    exact h
  | cons op ops ih =>
    intro done hd
    cases done with
    | nil =>
      rw [append_nil]
      exact h
    | cons op' done =>
      obtain ⟨rfl, hrest⟩ := cons_prefix_cons.1 hd
      have := ih (inv_step h hl.1 hc.1) hl.2 hc.2 done hrest
      rwa [append_assoc] at this

/-- **The active masks are those in use.** In every state of a run whose deletes undo earlier adds,
both tables hold exactly the masks with a positive count, longest first, and count them; the run
must not take out the last IPv4 mask of length 0 while the word left by the shift by 32 is the
mask of a length in use. -/
theorem run_exact (M : Machine) (ops : List Op) (hl : Legal M [] ops)
    (hc : Clears M Tabs.zero ops) :
    ∀ done, done <+: ops →
      Exact 33 (mask4 M) (run M done).v4.active (run M done).v4.masks (run M done).v4.max ∧
      Exact 129 (mask6 M) (run M done).v6.active (run M done).v6.masks (run M done).v6.max ∧
      (∀ b, (run M done).v4.masks b = adds4 b done - dels4 b done) ∧
      ∀ b, (run M done).v6.masks b = adds6 b done - dels6 b done := by
  intro done hd
  have h := inv_run (inv_zero M) hl hc done hd
  rw [nil_append] at h
  exact ⟨h.kept4.exact (by omega), h.kept6.exact (by omega), h.count4, h.count6⟩

/-- A little-endian machine that takes shift counts modulo 32. -/
def shortShift : Machine := ⟨true, 0xffffffff⟩

/-- A run that has masks of length 0, 8 and 24, and loses the first and the last again. -/
theorem run_exact_three :
    let ops : List Op := [.add4 24, .add4 0, .add4 8, .add6 64 (mask6 shortShift 64), .del4 0,
      .del4 24]
    Legal shortShift [] ops ∧ Clears shortShift Tabs.zero ops ∧
      Exact 33 (mask4 shortShift) (run shortShift ops).v4.active (run shortShift ops).v4.masks
        (run shortShift ops).v4.max := by
  intro ops
  have hl : Legal shortShift [] ops := by
    simp [ops, Legal, Allowed, adds4, dels4]
  have hc : Clears shortShift Tabs.zero ops := by
    refine ⟨trivial, trivial, trivial, trivial, ?_, ?_, trivial⟩
    · rintro - -
      decide
    · intro h0
      exact absurd h0 (by omega)
  exact ⟨hl, hc, (run_exact shortShift ops hl hc ops (prefix_refl ops)).1⟩

/-- **Deleting the mask of length 0 can delete that of length 32**: the shift by 32 leaves
`0xffffffff`, which is then taken out although it is still counted. -/
theorem del_zero_takes_host_mask :
    let ops : List Op := [.add4 32, .add4 0, .del4 0]
    Legal shortShift [] ops ∧
      ¬Exact 33 (mask4 shortShift) (run shortShift ops).v4.active (run shortShift ops).v4.masks
        (run shortShift ops).v4.max := by
  intro ops
  refine ⟨by simp [ops, Legal, Allowed, adds4, dels4], fun h => ?_⟩
  have hlen : 0 < (lengths 33 (run shortShift ops).v4.masks).length := by decide
  have h0 := h.2 0 hlen
  rw [← getD_eq_getElem _ 0 hlen] at h0
  revert h0
  decide

end Ipfilter.Masks
