import Mathlib.Data.List.Nodup

/-!
# Circular arrays

The slots of an array of `n` elements, taken in a circle.

* `inc`: the next slot;
* `arc`: the slots from one to another, in order; `mem_arc` says which these are, `arc_split`, `arc_cons` and `arc_concat`
  take it apart;
* `tally`: how many slots have a property, and what a change at one slot changes.
-/

namespace Ipfilter.Cyclic

open List

/-! ## Arcs -/

/-- The next slot. -/
def inc (n i : ℕ) : ℕ := if i + 1 = n then 0 else i + 1

/-- The number of slots from `a` up to `b`. -/
def gap (n a b : ℕ) : ℕ := if a ≤ b then b - a else n + b - a

/-- An index that has run over the end once. -/
def wrap (n i : ℕ) : ℕ := if i < n then i else i - n

/-- **The slots from `a` up to `b`**, without `b`. -/
def arc (n a b : ℕ) : List ℕ := (range (gap n a b)).map fun k => wrap n (a + k)

variable {n a b c i : ℕ}

theorem inc_lt (hi : i < n) : inc n i < n := by
  unfold inc
  split <;> omega

theorem gap_le (ha : a < n) (hb : b < n) : gap n a b < n := by
  unfold gap
  split <;> omega

theorem mem_arc (ha : a < n) (hb : b < n) :
    i ∈ arc n a b ↔ i < n ∧ (a ≤ b → a ≤ i ∧ i < b) ∧ (b < a → a ≤ i ∨ i < b) := by
  unfold arc
  rw [mem_map]
  constructor
  · rintro ⟨k, hk, rfl⟩
    rw [mem_range] at hk
    unfold gap at hk
    unfold wrap
    split at hk <;> split <;> omega
  · rintro ⟨hi, h1, h2⟩
    by_cases hai : a ≤ i
    · refine ⟨i - a, ?_, ?_⟩
      · rw [mem_range]
        unfold gap
        split <;> omega
      · unfold wrap
        rw [if_pos (by omega)]
        omega
    · refine ⟨n + i - a, ?_, ?_⟩
      · rw [mem_range]
        unfold gap
        split <;> omega
      · unfold wrap
        rw [if_neg (by omega)]
        omega

theorem nodup_arc (ha : a < n) (hb : b < n) : (arc n a b).Nodup := by
  refine List.Nodup.map_on (fun k hk m hm heq => ?_) nodup_range
  rw [mem_range] at hk hm
  have := gap_le ha hb
  unfold wrap at heq
  split at heq <;> split at heq <;> omega

theorem arc_self (n a : ℕ) : arc n a a = [] := by simp [arc, gap]

/-- **An arc is cut** at one of its slots, or at its end. -/
theorem arc_split (ha : a < n) (hb : b < n) (hc : c ∈ arc n a b ∨ c = b) : arc n a b = arc n a c ++ arc n c b := by
  rw [mem_arc ha hb] at hc
  have hlen : gap n a b = gap n a c + gap n c b := by
    unfold gap
    split <;> split <;> split <;> omega
  unfold arc
  rw [hlen, range_add, map_append, map_map]
  congr 1
  refine map_congr_left fun k hk => ?_
  rw [mem_range] at hk
  simp only [Function.comp]
  unfold gap at hk ⊢
  unfold wrap
  split at hk <;> split <;> split <;> split <;> omega

theorem arc_one (ha : a < n) (hn : n ≠ 1) : arc n a (inc n a) = [a] := by
  have hgap : gap n a (inc n a) = 1 := by
    unfold gap inc
    split <;> split <;> omega
  unfold arc
  rw [hgap]
  simp [wrap, ha]

/-- The first slot of an arc. -/
theorem arc_cons (ha : a < n) (hb : b < n) (hab : a ≠ b) : arc n a b = a :: arc n (inc n a) b := by
  have hmem : inc n a ∈ arc n a b ∨ inc n a = b := by
    rw [mem_arc ha hb]
    unfold inc
    split <;> omega
  rw [arc_split ha hb hmem, arc_one ha (by omega)]
  rfl

/-- An arc with one slot more. -/
theorem arc_concat (ha : a < n) (hb : b < n) (hab : inc n b ≠ a) : arc n a (inc n b) = arc n a b ++ [b] := by
  have hne : n ≠ 1 := by
    unfold inc at hab
    split at hab <;> omega
  have hmem : b ∈ arc n a (inc n b) ∨ b = inc n b := by
    rw [mem_arc ha (inc_lt hb)]
    unfold inc at hab ⊢
    split <;> split at hab <;> omega
  rw [arc_split ha (inc_lt hb) hmem, arc_one hb hne]

/-- An arc of all slots but one. -/
theorem mem_arc_full (ha : a < n) (hb : b < n) (hab : inc n b = a) (hi : i < n) (hib : i ≠ b) : i ∈ arc n a b := by
  rw [mem_arc ha hb]
  unfold inc at hab
  split at hab <;> omega

theorem notMem_arc_end (ha : a < n) (hb : b < n) : b ∉ arc n a b := by
  rw [mem_arc ha hb]
  omega

/-- The slot behind the end is not in the arc, unless the arc is full. -/
theorem inc_end_ne (ha : a < n) (hb : b < n) (hab : inc n b ≠ a) (hc : c ∈ arc n a b ∨ c = b) : inc n b ≠ c := by
  rw [mem_arc ha hb] at hc
  unfold inc at hab ⊢
  split <;> split at hab <;> omega

theorem inc_mem (ha : a < n) (hb : b < n) (hc : c ∈ arc n a b) : inc n c ∈ arc n a b ∨ inc n c = b := by
  rw [mem_arc ha hb] at hc ⊢
  unfold inc
  split <;> omega

/-- The last part of an arc. -/
theorem mem_of_mem_arc (ha : a < n) (hb : b < n) (hc : c ∈ arc n a b ∨ c = b) (hi : i ∈ arc n c b) : i ∈ arc n a b := by
  rw [arc_split ha hb hc]
  exact mem_append_right _ hi

theorem length_arc (n a b : ℕ) : (arc n a b).length = gap n a b := by simp [arc]

/-! ## Loops over the slots -/

/-- Look for a slot that satisfies `p`, from `i` on and before `b`. -/
def seek (n b : ℕ) (p : ℕ → Bool) : ℕ → ℕ → Option ℕ
  | 0, _ => none
  | fuel + 1, i => if i = b then none else if p i then some i else seek n b p fuel (inc n i)

/-- Look for a slot that satisfies `p`, from `i` on. -/
def hunt (n : ℕ) (p : ℕ → Bool) : ℕ → ℕ → Option ℕ
  | 0, _ => none
  | fuel + 1, i => if p i then some i else hunt n p fuel (inc n i)

/-- Go on from `i` as long as `p` holds, but not beyond `b`. -/
def skip (n b : ℕ) (p : ℕ → Bool) : ℕ → ℕ → ℕ
  | 0, i => i
  | fuel + 1, i => if p i then (if inc n i = b then b else skip n b p fuel (inc n i)) else i

variable {p : ℕ → Bool}

theorem seek_eq (hb : b < n) : ∀ (fuel : ℕ) {a : ℕ}, a < n → gap n a b ≤ fuel →
    seek n b p fuel a = (arc n a b).find? p
  | 0, a, ha, hlen => by
    have hnil : arc n a b = [] := length_eq_zero_iff.1 (by rw [length_arc]; omega)
    rw [hnil]
    rfl
  | fuel + 1, a, ha, hlen => by
    rw [seek]
    by_cases hab : a = b
    · rw [if_pos hab, hab, arc_self]
      rfl
    · rw [if_neg hab, arc_cons ha hb hab, find?_cons]
      have hlen' : gap n (inc n a) b ≤ fuel := by
        have := congrArg length (arc_cons ha hb hab)
        rw [length_cons, length_arc, length_arc] at this
        omega
      cases hp : p a with
      | true => simp
      | false => simpa using seek_eq hb fuel (inc_lt ha) hlen'

/-- If there is a slot before `b`, the search ends with the first one. -/
theorem hunt_eq (hb : b < n) : ∀ (fuel : ℕ) {a : ℕ}, a < n → gap n a b ≤ fuel → (arc n a b).find? p = some i →
    hunt n p fuel a = some i
  | 0, a, ha, hlen, hf => by
    have hnil : arc n a b = [] := length_eq_zero_iff.1 (by rw [length_arc]; omega)
    rw [hnil] at hf
    cases hf
  | fuel + 1, a, ha, hlen, hf => by
    by_cases hab : a = b
    · rw [hab, arc_self] at hf
      cases hf
    · have hlen' : gap n (inc n a) b ≤ fuel := by
        have := congrArg length (arc_cons ha hb hab)
        rw [length_cons, length_arc, length_arc] at this
        omega
      rw [arc_cons ha hb hab, find?_cons] at hf
      rw [hunt]
      cases hp : p a with
      | true => simpa [hp] using hf
      | false =>
        rw [hp] at hf
        simpa using hunt_eq hb fuel (inc_lt ha) hlen' hf

/-- Without such a slot there is no end. -/
theorem hunt_none (hp : ∀ i, p i = false) : ∀ fuel a, hunt n p fuel a = none
  | 0, _ => rfl
  | fuel + 1, a => by
    rw [hunt, if_neg (by simp [hp a])]
    exact hunt_none hp fuel _

theorem hunt_mono {m : ℕ} : ∀ {fuel a : ℕ}, hunt n p fuel a = some i → fuel ≤ m → hunt n p m a = some i := by
  induction m with
  | zero =>
    intro fuel a h hm
    obtain rfl : fuel = 0 := by omega
    exact h
  | succ m ih =>
    intro fuel a h hm
    cases fuel with
    | zero => cases h
    | succ fuel =>
      rw [hunt] at h ⊢
      split at h
      · rename_i hp
        rw [if_pos hp]
        exact h
      · rename_i hp
        rw [if_neg hp]
        exact ih h (by omega)

/-- **What is skipped** has the property, and the slot that is reached has not, or is the end. -/
theorem skip_spec (hb : b < n) : ∀ (fuel : ℕ) {a : ℕ}, a < n → a ≠ b → gap n a b ≤ fuel →
    (skip n b p fuel a = b ∨ skip n b p fuel a ∈ arc n a b ∧ p (skip n b p fuel a) = false) ∧
      ∀ i ∈ arc n a (skip n b p fuel a), p i = true
  | 0, a, ha, hab, hlen => by
    have hnil : arc n a b = [] := length_eq_zero_iff.1 (by rw [length_arc]; omega)
    rw [arc_cons ha hb hab] at hnil
    cases hnil
  | fuel + 1, a, ha, hab, hlen => by
    have hcons := arc_cons ha hb hab
    have hlen' : gap n (inc n a) b ≤ fuel := by
      have := congrArg length hcons
      rw [length_cons, length_arc, length_arc] at this
      omega
    rw [skip]
    by_cases hp : p a = true
    · rw [if_pos hp]
      by_cases hinc : inc n a = b
      · rw [if_pos hinc]
        refine ⟨.inl rfl, fun i hi => ?_⟩
        rw [hcons, hinc, arc_self, mem_singleton] at hi
        rw [hi, hp]
      · rw [if_neg hinc]
        obtain ⟨hend, hall⟩ := skip_spec hb fuel (inc_lt ha) hinc hlen'
        set st := skip n b p fuel (inc n a)
        have hst : st ∈ arc n a b ∨ st = b := by
          rcases hend with h | ⟨h, -⟩
          · exact .inr h
          · exact .inl (by rw [hcons]; exact mem_cons_of_mem _ h)
        refine ⟨?_, fun i hi => ?_⟩
        · rcases hend with h | ⟨h, hn⟩
          · exact .inl h
          · exact .inr ⟨by rw [hcons]; exact mem_cons_of_mem _ h, hn⟩
        · have hst' : st ∈ arc n (inc n a) b ∨ st = b := by
            rcases hend with h | ⟨h, -⟩
            · exact .inr h
            · exact .inl h
          have hstn : st < n := by
            rcases hst with h | h
            · exact ((mem_arc ha hb).1 h).1
            · omega
          have hne : a ≠ st := by
            rcases hst' with h | h
            · have hnd := nodup_arc ha hb
              rw [hcons, nodup_cons] at hnd
              exact fun hast => hnd.1 (hast ▸ h)
            · exact fun hast => hab (hast.trans h)
          rw [arc_cons ha hstn hne, mem_cons] at hi
          rcases hi with rfl | hi
          · exact hp
          · exact hall i hi
    · rw [if_neg hp]
      refine ⟨.inr ⟨by rw [hcons]; exact mem_cons_self, by simpa using hp⟩, fun i hi => ?_⟩
      rw [arc_self] at hi
      cases hi

/-- Only the slots before `b` matter. -/
theorem skip_congr {q : ℕ → Bool} (hb : b < n) : ∀ (fuel : ℕ) {a : ℕ}, a < n → a ≠ b →
    (∀ i ∈ arc n a b, q i = p i) →
    skip n b q fuel a = skip n b p fuel a
  | 0, a, ha, hab, h => rfl
  | fuel + 1, a, ha, hab, h => by
    rw [arc_cons ha hb hab] at h
    rw [skip, skip, h a mem_cons_self]
    by_cases hinc : inc n a = b
    · simp [hinc]
    · rw [if_neg hinc, if_neg hinc, skip_congr hb fuel (inc_lt ha) hinc fun i hi => h i (mem_cons_of_mem _ hi)]

/-! ## Counts -/

/-- How many of the slots satisfy `p`. -/
def tally (n : ℕ) (p : ℕ → Bool) : ℕ := (range n).countP p

variable {q : ℕ → Bool}

theorem tally_congr (h : ∀ i < n, q i = p i) : tally n q = tally n p :=
  countP_congr fun i hi => by rw [h i (mem_range.1 hi)]

theorem tally_zero (h : ∀ i < n, p i = false) : tally n p = 0 := by
  unfold tally
  rw [countP_eq_zero]
  intro i hi
  simp [h i (mem_range.1 hi)]

theorem tally_pos (hi : i < n) (hp : p i = true) : 0 < tally n p := countP_pos_iff.2 ⟨i, mem_range.2 hi, hp⟩

/-- **One slot changes.** -/
theorem tally_change (hi : i < n) (h : ∀ j, j ≠ i → q j = p j) :
    tally n q + (if p i then 1 else 0) = tally n p + if q i then 1 else 0 := by
  unfold tally
  induction n with
  | zero => omega
  | succ n ih =>
    rw [range_succ, countP_append, countP_append, countP_singleton, countP_singleton]
    by_cases hin : i = n
    · subst hin
      have hsame := tally_congr (n := i) (p := p) (q := q) fun j hj => h j (by omega)
      unfold tally at hsame
      omega
    · have := ih (by omega)
      rw [h n (Ne.symm hin)]
      omega

end Ipfilter.Cyclic
