import Ipfilter.Spec.DnsPxy

/-!
# Reading a name of a DNS message

* `Called`: what `ipf_p_dns_inout` hands to `ipf_p_dns_get_name`.
* `Safe`: what a call should keep to.
* `Labels`, `Stops`: the bytes of a name, and where it ends.
* `getName_safe_iff`: **for which bytes a call is safe.** `getName_not_safe`: the empty name.
-/

namespace Ipfilter.DnsPxy

open List

variable {order : Order} {softd softd' : Softc} {di : DnsInfo} {dp data s rest t t' : List Byte} {o : Option (List Byte)}
  {c : Byte} {k m n : ℕ} {dlen slen blen : ℤ}

/-! ## Calls -/

/-- **The calls for a packet** with the bytes `dp` from its UDP header on: where they start, and `dlen`. -/
inductive Called (order : Order) (dp : List Byte) : List Byte → ℤ → Prop where
  | first (h : 12 ≤ dp.length) : Called order dp (dp.drop 20) ((dp.length : ℤ) - 12 - 8)
  | next {data : List Byte} {dlen : ℤ} {softd softd' : Softc} {di di' : DnsInfo} {len : ℕ} (h : Called order dp data dlen)
      (hlen : 0 < dlen) (hget : ipfPDnsGetName order softd di data dlen = some (softd', di', len)) :
        Called order dp (data.drop len) (dlen - len)

/-- Where the buffer is written to: what the loop copies, and the end of the string. -/
def places (t : List Byte) (o : Option (List Byte)) : List ℤ :=
  (List.range t.length).map Nat.cast ++ if o.isSome then [(t.length : ℤ) - 1] else []

/-- **A call returns,** reads what it was given, writes to the buffer only, and leaves a string there. -/
def Safe (order : Order) (softd : Softc) (di : DnsInfo) (start : List Byte) (len : ℤ) : Prop :=
  (∃ softd' t o, getNameLoop softd (start.length + 1) start len (512 - 1) [] = some (softd', t, o) ∧ ∀ p ∈ places t o,
    0 ≤ p ∧ p < 512) ∧
    ∃ r, ipfPDnsGetName order softd di start len = some r ∧ (r.2.2 ≠ 0 → 0 ∈ r.2.1.dnsiBuffer.take 512)

/-- `k` labels of `m` bytes, each behind a byte with its length, and what follows them. -/
inductive Labels : List Byte → ℕ → ℕ → List Byte → Prop where
  | nil (s : List Byte) : Labels s 0 0 s
  | cons {c : Byte} {label s rest : List Byte} {k m : ℕ} (hpos : 0 < c.toInt) (hc : c.toNat = label.length)
      (h : Labels s k m rest) :
      Labels (c :: (label ++ s)) (k + 1) (m + label.length) rest

/-- **The name ends in time:** before 511 bytes are written there is a 0 behind some label, a byte that begins a compressed
name, or the length of a label that is more than is left of the packet (less the lengths before it), or of the buffer. -/
def Stops (start : List Byte) : Prop :=
  ∃ k m c rest, Labels start k m (c :: rest) ∧ m + k ≤ 511 ∧
    ((c = 0 ∧ 0 < m + k) ∨ c &&& 0xc0 = 0xc0 ∨
      (0 < c.toInt ∧ (start.length < m + c.toNat ∨ 511 < m + k + (c.toNat + 1))))

/-! ## The loop -/

theorem toInt_of_pos (h : 0 < c.toInt) : c.toInt = c.toNat := by
  rw [BitVec.toInt_eq_toNat_cond] at h ⊢
  split_ifs at h ⊢ with hc
  · rfl
  · have := c.isLt
    omega

theorem pos_plain (h : 0 < c.toInt) : c ≠ 0 ∧ c &&& 0xc0 ≠ 0xc0 := by
  revert c
  decide

/-- What the loop came to. -/
theorem labels_of_loop (hs : 0 ≤ slen) (hb : 0 ≤ blen) (h : getNameLoop softd n s slen blen t = some (softd', t', o)) :
    ∃ k m c rest, Labels s k m (c :: rest) ∧ t'.length = t.length + m + k ∧ (m + k : ℤ) ≤ blen ∧
      ((c = 0 ∧ o.isSome) ∨ c &&& 0xc0 = 0xc0 ∨
        (0 < c.toInt ∧ (slen < m + c.toNat ∨ blen < m + k + (c.toNat + 1)))) := by
  induction n generalizing s slen blen t with
  | zero => cases h
  | succ n ih =>
    cases s with
    | nil => cases h
    | cons c s =>
      -- the loop returns here, for the reason `hend`
      have hstop : ∀ {softd₁ : Softc} {o₁ : Option (List Byte)}, some (softd₁, t, o₁) = some (softd', t', o) →
          ((c = 0 ∧ o₁.isSome) ∨ c &&& 0xc0 = 0xc0 ∨
            (0 < c.toInt ∧ (slen < (0 : ℕ) + c.toNat ∨ blen < (0 : ℕ) + (0 : ℕ) + (c.toNat + 1)))) →
          ∃ k m c' rest, Labels (c :: s) k m (c' :: rest) ∧ t'.length = t.length + m + k ∧ (m + k : ℤ) ≤ blen ∧
            ((c' = 0 ∧ o.isSome) ∨
            c' &&& 0xc0 = 0xc0 ∨ (0 < c'.toInt ∧ (slen < m + c'.toNat ∨ blen < m + k + (c'.toNat + 1)))) := by
        intro softd₁ o₁ heq hend
        obtain ⟨-, h2⟩ := Prod.mk.inj (Option.some.inj heq)
        cases h2
        exact ⟨0, 0, c, s, .nil _, rfl, hb, hend⟩
      unfold getNameLoop at h
      by_cases hzero : c = 0
      · rw [if_pos hzero] at h
        exact hstop h (.inl ⟨hzero, rfl⟩)
      rw [if_neg hzero] at h
      by_cases hcompr : c &&& 0xc0 = 0xc0
      · rw [if_pos hcompr] at h
        exact hstop h (.inr (.inl hcompr))
      rw [if_neg hcompr] at h
      have hnonzero : c.toInt ≠ 0 := fun hc => hzero (BitVec.eq_of_toInt_eq hc)
      by_cases hlong : c.toInt > slen
      · rw [if_pos hlong] at h
        have hpos : 0 < c.toInt := by omega
        have hnat := toInt_of_pos hpos
        refine hstop h (.inr (.inr ⟨hpos, .inl ?_⟩))
        omega
      rw [if_neg hlong] at h
      by_cases hspace : c.toInt + 1 > blen
      · rw [if_pos hspace] at h
        have hpos : 0 < c.toInt := by omega
        have hnat := toInt_of_pos hpos
        refine hstop h (.inr (.inr ⟨hpos, .inr ?_⟩))
        omega
      rw [if_neg hspace] at h
      by_cases hout : c.toInt < 0 ∨ (s.length : ℤ) < c.toInt
      · rw [if_pos hout] at h
        cases h
      rw [if_neg hout] at h
      have hpos : 0 < c.toInt := by omega
      have hnat := toInt_of_pos hpos
      have htake : (s.take c.toNat).length = c.toNat := by
        rw [length_take]
        omega
      obtain ⟨k, m, c', rest, hlabels, hlen, hle, hend⟩ := ih (by omega) (by omega) h
      have hmore : Labels (c :: s) (k + 1) (m + (s.take c.toNat).length) (c' :: rest) := by
        have hcons := Labels.cons hpos htake.symm hlabels
        rwa [take_append_drop] at hcons
      refine ⟨k + 1, m + (s.take c.toNat).length, c', rest, hmore, ?_, ?_,
        hend.imp_right (Or.imp_right fun hx => ⟨hx.1, ?_⟩)⟩
      · rw [hlen, length_append, length_append, length_singleton]
        omega
      · omega
      · omega

/-- The loop stops where the name does. -/
theorem loop_of_labels (h : Labels s k m (c :: rest)) (hn : s.length ≤ n) (hs : (s.length : ℤ) ≤ slen)
    (hb : (m + k : ℤ) ≤ blen)
    (hc : c = 0 ∨ c &&& 0xc0 = 0xc0 ∨ (0 < c.toInt ∧ (slen < m + c.toNat ∨ blen < m + k + (c.toNat + 1)))) :
    ∃ softd' t' o, getNameLoop softd n s slen blen t = some (softd', t', o) ∧ t'.length = t.length + m + k ∧
      (o.isSome → c = 0) := by
  generalize hl : c :: rest = l at h
  induction h generalizing n slen blen t with
  | nil s =>
    subst hl
    obtain ⟨n, rfl⟩ := Nat.exists_eq_succ_of_ne_zero (ne_of_gt (lt_of_lt_of_le (Nat.succ_pos _) hn))
    unfold getNameLoop
    by_cases hzero : c = 0
    · rw [if_pos hzero]
      exact ⟨_, _, _, rfl, rfl, fun _ => hzero⟩
    rw [if_neg hzero]
    by_cases hcompr : c &&& 0xc0 = 0xc0
    · rw [if_pos hcompr]
      exact ⟨_, _, _, rfl, rfl, nofun⟩
    rw [if_neg hcompr]
    obtain ⟨hpos, hlong⟩ := (hc.resolve_left hzero).resolve_left hcompr
    have hnat := toInt_of_pos hpos
    by_cases htoolong : c.toInt > slen
    · rw [if_pos htoolong]
      exact ⟨_, _, _, rfl, rfl, nofun⟩
    rw [if_neg htoolong, if_pos (by omega)]
    exact ⟨_, _, _, rfl, rfl, nofun⟩
  | @cons c₁ label s rest₁ k m hpos hlabel h ih =>
    obtain ⟨n, rfl⟩ := Nat.exists_eq_succ_of_ne_zero (ne_of_gt (lt_of_lt_of_le (Nat.succ_pos _) hn))
    obtain ⟨hzero, hplain⟩ := pos_plain hpos
    have hnat := toInt_of_pos hpos
    rw [length_cons, length_append] at hn hs
    obtain ⟨softd', t', o, heq, hlen, ho⟩ :=
      @ih (t ++ label ++ [0x2e]) n (slen - c₁.toInt) (blen - (c₁.toInt + 1)) (by omega) (by omega)
      (by omega) (hc.imp_right (Or.imp_right fun hx => ⟨hx.1, by omega⟩)) hl
    refine ⟨softd', t', o, ?_, ?_, ho⟩
    · unfold getNameLoop
      rw [if_neg hzero, if_neg hplain, if_neg (by omega), if_neg (by omega), if_neg (by rw [length_append]; omega), hlabel,
        drop_left, take_left]
      exact heq
    · rw [hlen, length_append, length_append, length_singleton]
      omega

/-! ## Every call -/

/-- The length is that of what is left of the packet. -/
theorem Called.length (h : Called order dp data dlen) (hpos : 0 < dlen) : dlen = data.length := by
  induction h with
  | first h =>
    rw [length_drop]
    omega
  | @next data dlen softd softd' di di' len h hlen hget ih =>
    have hdlen := ih hlen
    rw [length_drop]
    omega

/-- **For which bytes a call is safe.** -/
theorem getName_safe_iff (h : Called order dp data dlen) (hpos : 0 < dlen) (softd : Softc) (di : DnsInfo) :
    Safe order softd di data dlen ↔ Stops data := by
  rw [h.length hpos]
  constructor
  · rintro ⟨⟨softd', t, o, hloop, hplaces⟩, -⟩
    obtain ⟨k, m, c, rest, hlabels, hlen, hle, hend⟩ := labels_of_loop (Int.natCast_nonneg _) (by decide) hloop
    rw [length_nil] at hlen
    refine ⟨k, m, c, rest, hlabels, by omega, ?_⟩
    rcases hend with ⟨hc, ho⟩ | hend
    · have hlast := (hplaces _ (mem_append_right _ (by rw [if_pos ho]; exact mem_singleton_self _))).1
      exact Or.inl ⟨hc, by omega⟩
    · exact Or.inr (hend.imp_right fun hx => ⟨hx.1, by omega⟩)
  · rintro ⟨k, m, c, rest, hlabels, hle, hend⟩
    obtain ⟨softd', t, o, hloop, hlen, ho⟩ :=
      @loop_of_labels softd data rest [] c k m (data.length + 1) data.length (512 - 1) hlabels
      (Nat.le_succ _) (Int.le_refl _) (by omega) (hend.imp And.left (Or.imp_right fun hx => ⟨hx.1, by omega⟩))
    rw [length_nil] at hlen
    -- something was written if the name ends with a 0
    have hne : o.isSome → 0 < t.length := by
      intro hsome
      rcases hend with ⟨-, hmk⟩ | hplain | ⟨hc, -⟩
      · omega
      · rw [ho hsome] at hplain
        exact absurd hplain (by decide)
      · rw [ho hsome] at hc
        exact absurd hc (by decide)
    refine ⟨⟨softd', t, o, hloop, fun p hp => ?_⟩, ?_⟩
    · rcases List.mem_append.1 hp with hp | hp
      · obtain ⟨i, hi, rfl⟩ := List.mem_map.1 hp
        have hlt := List.mem_range.1 hi
        omega
      · split at hp
        · rename_i hsome
          have hlt := hne hsome
          rw [List.mem_singleton.1 hp]
          omega
        · cases hp
    · unfold ipfPDnsGetName
      rw [hloop]
      cases o with
      | none => exact ⟨_, rfl, fun hr => absurd rfl hr⟩
      | some s =>
        refine ⟨_, rfl, fun _ => ?_⟩
        have hlt := hne rfl
        have htnil : t ≠ [] := ne_nil_of_length_pos hlt
        dsimp only
        unfold DnsInfo.close
        rw [if_neg htnil]
        unfold DnsInfo.write
        dsimp only
        rw [append_assoc, take_append, mem_append, singleton_append]
        refine Or.inr ?_
        rw [length_dropLast, take_cons (by omega)]
        exact mem_cons_self

/-- A question with a name of one letter. -/
theorem getName_safe_a : Stops [1, 0x61, 0] ∧
    Safe .little ⟨0, 0, 0⟩ ⟨1, []⟩ [1, 0x61, 0] ((23 : ℕ) - 12 - 8) := by
  have hstops : Stops [1, 0x61, 0] :=
    ⟨1, 1, 0, [], @Labels.cons 1 [0x61] [0] [0] 0 0 (by decide) rfl (.nil _), by decide, Or.inl ⟨rfl, by decide⟩⟩
  have hcalled : Called .little (List.replicate 20 0 ++ [1, 0x61, 0]) [1, 0x61, 0] ((23 : ℕ) - 12 - 8) :=
    @Called.first .little (List.replicate 20 0 ++ [1, 0x61, 0]) (by decide)
  exact ⟨hstops, (getName_safe_iff hcalled (by decide) _ _).2 hstops⟩

/-- **The empty name:** the byte before the buffer is written to. -/
theorem getName_not_safe : ¬∀ (order : Order) (softd : Softc) (di : DnsInfo) (dp data : List Byte) (dlen : ℤ),
    Called order dp data dlen → 0 < dlen → Safe order softd di data dlen := by
  intro h
  have hcalled : Called .little (List.replicate 20 0 ++ [0]) [0] ((21 : ℕ) - 12 - 8) := .first (by decide)
  obtain ⟨⟨softd', t, o, hloop, hplaces⟩, -⟩ := h .little ⟨0, 0, 0⟩ ⟨1, []⟩ _ _ _ hcalled (by decide)
  obtain ⟨-, h2⟩ := Prod.mk.inj (Option.some.inj hloop)
  cases h2
  have hbefore := (hplaces (-1) (by decide)).1
  omega

end Ipfilter.DnsPxy
