import Ipfilter.Proof.FrInfo

/-!
# The options of an IPv4 header

* `optWalk_spec` — the walk over the options ends and reads nothing outside the header, nor do those over the tags of a CIPSO
  option and over the tables;
* `ipOptions_bit` — which options have their bit set;
* `ipv4hdr_optmsk_iff` — **a bit tells that its option is there** for the first entries of the table, if one of the options is
  longer than 4 bytes; `ipv4hdr_optmsk_record` — a packet with a record of its route; `ipv4hdr_optmsk_visa` — one with an
  option that has no bit.
-/

namespace Ipfilter.Makefrip

open Masks Tcp List
open Option (bind_eq_bind bind_some)

variable {b : Buf} {hlen s t ol n : ℕ} {o : Optinfo}

/-! ## What is there -/

/-- At `s` there is an option of `ol` bytes, and it ends in the header. -/
def WellFormed (b : Buf) (hlen s ol : ℕ) : Prop :=
  s < hlen ∧ b.byte s ≠ 0 ∧
    if (b.byte s).toNat = IPOPT_NOP then ol = 1
    else s + 1 < hlen ∧ ol = (b.byte (s + 1)).toNat ∧ 2 ≤ ol ∧ s + ol ≤ hlen

/-- An option, or the end of the options, at `t` is reached from `s` on by the lengths of the options. -/
inductive Reaches (b : Buf) (hlen : ℕ) : ℕ → ℕ → Prop
  | here (s : ℕ) : Reaches b hlen s s
  | behind {s ol t : ℕ} : WellFormed b hlen s ol → Reaches b hlen (s + ol) t → Reaches b hlen s t

/-- An option with this type and length is among those of the header. -/
def Occurs (b : Buf) (hlen opt ol : ℕ) : Prop :=
  ∃ s, Reaches b hlen 20 s ∧ WellFormed b hlen s ol ∧ (b.byte s).toNat = opt

theorem WellFormed.pos (h : WellFormed b hlen s ol) : 1 ≤ ol := by
  obtain ⟨-, -, h⟩ := h
  split at h
  · omega
  · omega

theorem WellFormed.le (h : WellFormed b hlen s ol) : s + ol ≤ hlen := by
  obtain ⟨hs, -, h⟩ := h
  split at h
  · omega
  · omega

theorem WellFormed.unique {ol' : ℕ} (h : WellFormed b hlen s ol) (h' : WellFormed b hlen s ol') : ol = ol' := by
  obtain ⟨-, -, h⟩ := h
  obtain ⟨-, -, h'⟩ := h'
  split at h
  · rename_i hnop
    rw [if_pos hnop] at h'
    omega
  · rename_i hnop
    rw [if_neg hnop] at h'
    omega

theorem optByte_lt {i : ℕ} (h : i < hlen) : optByte b hlen i = some (b.byte i) := if_pos h

/-- **The length of an option**, and where the walk stops. -/
theorem optLen_spec (hs : s < hlen) : (∃ ol, optLen b hlen s (hlen - s) = some (some ol) ∧ WellFormed b hlen s ol) ∨
      (optLen b hlen s (hlen - s) = some none ∧ ∀ ol, ¬WellFormed b hlen s ol) := by
  unfold optLen
  rw [optByte_lt hs]
  simp only [bind_eq_bind, bind_some]
  by_cases h0 : b.byte s = 0
  · right
    rw [if_pos h0]
    exact ⟨rfl, fun ol h => h.2.1 h0⟩
  rw [if_neg h0]
  by_cases hnop : (b.byte s).toNat = IPOPT_NOP
  · left
    rw [if_pos hnop]
    exact ⟨1, rfl, hs, h0, by rw [if_pos hnop]⟩
  rw [if_neg hnop]
  by_cases hrest : hlen - s < 2
  · right
    rw [if_pos hrest]
    refine ⟨rfl, fun ol h => ?_⟩
    have h2 := h.2.2
    rw [if_neg hnop] at h2
    omega
  rw [if_neg hrest, optByte_lt (by omega)]
  simp only [bind_some]
  by_cases hol : (b.byte (s + 1)).toNat < 2 ∨ (b.byte (s + 1)).toNat > hlen - s
  · right
    rw [if_pos hol]
    refine ⟨rfl, fun ol h => ?_⟩
    have h2 := h.2.2
    rw [if_neg hnop] at h2
    omega
  · left
    rw [if_neg hol]
    refine ⟨(b.byte (s + 1)).toNat, rfl, hs, h0, ?_⟩
    rw [if_neg hnop]
    refine ⟨by omega, rfl, by omega, by omega⟩

/-! ## Security options -/

/-- How far a search strays from where it starts. -/
def stray : ℕ → ℕ
  | 0 => 0
  | k + 1 => stray k + k

theorem optAt_some {l : List Optlist} {j : ℤ} (h0 : 0 ≤ j) (h : j < l.length) : ∃ op, optAt l j = some op := by
  unfold optAt
  rw [if_neg (by omega)]
  exact ⟨_, List.getElem?_eq_getElem (by omega)⟩

theorem ripsoLoop_some (hs : s + 5 ≤ hlen) (sec : ℕ) : ∀ {k : ℕ} {j : ℤ}, stray k ≤ j → j + stray k < 8 →
    ∃ r, ripsoLoop b hlen s sec k j = some r := by
  intro k
  induction k with
  | zero =>
    intro j _ _
    exact ⟨(0, 0), rfl⟩
  | succ k ih =>
    intro j hlo hhi
    unfold stray at hlo hhi
    push_cast at hlo hhi
    obtain ⟨op, hop⟩ := optAt_some (l := secopt) (j := j) (by omega) (by change j < 8; omega)
    unfold ripsoLoop
    rw [hop]
    simp only [bind_eq_bind, bind_some]
    split
    · rw [optByte_lt (by omega), optByte_lt (by omega)]
      exact ⟨_, rfl⟩
    · split
      · apply ih
        · omega
        · omega
      · apply ih
        · omega
        · omega

theorem ipfCheckripso_some (hs : s + 5 ≤ hlen) : ∃ r, ipfCheckripso b hlen s = some r := by
  unfold ipfCheckripso
  rw [optByte_lt (by omega)]
  simp only [bind_eq_bind, bind_some]
  apply ripsoLoop_some hs
  · decide
  · decide

theorem cipsoTag_some (ht : t + 4 ≤ hlen) : ∃ r, cipsoTag b hlen t = some r := by
  unfold cipsoTag
  rw [optByte_lt (by omega)]
  simp only [bind_eq_bind, bind_some]
  split
  · rw [optByte_lt (by omega)]
    simp only [bind_some]
    split
    · exact ⟨_, rfl⟩
    · rw [optByte_lt (by omega)]
      exact ⟨_, rfl⟩
  · split
    · exact ⟨_, rfl⟩
    · exact ⟨_, rfl⟩

/-- **The tags of a CIPSO option:** every tag that the loop goes behind has 4 bytes at least. -/
theorem cipsoLoop_some : ∀ {n t len : ℕ} {o : Optinfo}, t + len ≤ hlen → len ≤ n →
    ∃ r, cipsoLoop b hlen n t len o = some r ∧ r.1.optmsk = o.optmsk := by
  intro n
  induction n with
  | zero =>
    intro t len o _ hn
    refine ⟨(o, false), ?_, rfl⟩
    unfold cipsoLoop
    rw [if_pos (by omega)]
  | succ n ih =>
    intro t len o ht hn
    unfold cipsoLoop
    split
    · exact ⟨_, rfl, rfl⟩
    · rw [optByte_lt (by omega)]
      simp only [bind_eq_bind, bind_some]
      split
      · exact ⟨_, rfl, rfl⟩
      · have htag : t + 4 ≤ hlen := by omega
        obtain ⟨r, hr⟩ := cipsoTag_some (b := b) htag
        rw [hr]
        simp only [bind_some]
        cases r with
        | none => exact ih (by omega) (by omega)
        | some x => exact ih (by omega) (by omega)

theorem ipfCheckcipso_some (hs : s + ol ≤ hlen) (o : Optinfo) :
    ∃ r, ipfCheckcipso b hlen s ol o = some r ∧ r.1.optmsk = o.optmsk := by
  unfold ipfCheckcipso cipsoDoi
  split
  · exact ⟨_, rfl, rfl⟩
  · rw [optByte_lt (by omega)]
    have hroom : s + 6 + (ol - 6) ≤ hlen := by omega
    obtain ⟨r, hr, hmsk⟩ := cipsoLoop_some (b := b) (o := { o with fiSensitivity := 0 }) hroom (Nat.sub_le ol 6)
    simp only [bind_eq_bind, bind_some, hr]
    exact ⟨_, rfl, hmsk⟩

/-- An option that is found sets its bit. -/
theorem optFound_some (hs : s + ol ≤ hlen) (hol : 4 < ol) (opt : ℕ) (op : Optlist) (o : Optinfo) :
    ∃ o', optFound b hlen s opt ol op o = some o' ∧ o'.optmsk = o.optmsk ||| op.olBit.truncate 16 := by
  have hroom : s + 5 ≤ hlen := by omega
  obtain ⟨r, hr⟩ := ipfCheckripso_some (b := b) hroom
  obtain ⟨c, hc, hmsk⟩ := ipfCheckcipso_some (b := b) hs o
  unfold optFound
  dsimp only
  split
  · split
    · exact ⟨_, rfl, rfl⟩
    · rw [hr]
      exact ⟨_, rfl, rfl⟩
  split
  · split
    · exact ⟨_, rfl, rfl⟩
    · rw [hc]
      exact ⟨_, rfl, by change c.1.optmsk ||| _ = _; rw [hmsk]⟩
  · exact ⟨_, rfl, rfl⟩

/-! ## The search in the table -/

/-- The entries that the search for a type looks at. -/
def optPath (opt : ℕ) : ℕ → ℤ → Option (List Optlist)
  | 0, _ => some []
  | mv + 1, i => do
    let op ← optAt ipopts i
    let l ← optPath opt mv (if opt < op.olVal then i - mv else i + mv)
    return op :: l

/-- The entry of a type that the search finds: those of two types are not in order, and it does not come to them. -/
def optHits (opt : ℕ) : List Optlist :=
  ipopts.filter fun op => op.olVal = opt ∧ op.olVal ≠ IPOPT_ADDEXT ∧ op.olVal ≠ IPOPT_VISA

/-- A search finds these entries and no others, some of them more than once. -/
def Finds (opt : ℕ) (l : List Optlist) : Bool :=
  let hits := l.filter fun op => op.olVal = opt
  (hits.all fun op => op ∈ optHits opt) && (optHits opt).all fun op => op ∈ hits

/-- **The search stays in the table**, and comes to the entry of the type. -/
theorem optPath_hits : ∀ opt : Fin 256, opt.val ≠ 0 → (optPath opt 5 9).any (Finds opt) := by
  decide +kernel

theorem finds_iff {opt : ℕ} {l : List Optlist} (h : Finds opt l) {p : Optlist → Prop} :
    (∃ op ∈ l.filter fun op => op.olVal = opt, p op) ↔ ∃ op ∈ optHits opt, p op := by
  simp only [Finds, Bool.and_eq_true, all_eq_true, decide_eq_true_eq] at h
  constructor
  · rintro ⟨op, hop, hp⟩
    exact ⟨op, h.1 op hop, hp⟩
  · rintro ⟨op, hop, hp⟩
    exact ⟨op, h.2 op hop, hp⟩

/-- A search is a walk over the entries that it looks at. -/
theorem optSearch_path (b : Buf) (hlen s opt : ℕ) (hol : 4 < ol) : ∀ {k : ℕ} {i : ℤ} {l : List Optlist} (o : Optinfo),
    optPath opt k i = some l → optSearch b hlen s opt ol k i o =
        (l.filter fun op => op.olVal = opt).foldlM (fun o op => optFound b hlen s opt ol op o) o := by
  intro k
  induction k with
  | zero =>
    intro i l o h
    cases h
    rfl
  | succ k ih =>
    intro i l o h
    unfold optPath at h
    simp only [bind_eq_bind, Option.bind_eq_some_iff] at h
    obtain ⟨op, hop, l', hl', hcons⟩ := h
    cases hcons
    unfold optSearch
    rw [hop]
    simp only [bind_eq_bind, bind_some]
    by_cases heq : opt = op.olVal
    · rw [if_pos ⟨heq, hol⟩, filter_cons_of_pos (by simp [heq]), foldlM_cons]
      congr 1
      funext o'
      exact ih o' hl'
    · rw [if_neg fun h => heq h.1, filter_cons_of_neg (by simp [eq_comm, heq])]
      exact ih o hl'

/-- A short option is not looked for. -/
theorem optSearch_short (b : Buf) (hlen s opt : ℕ) (hol : ¬4 < ol) :
    ∀ {k : ℕ} {i : ℤ} {l : List Optlist} (o : Optinfo),
    optPath opt k i = some l → optSearch b hlen s opt ol k i o = some o := by
  intro k
  induction k with
  | zero =>
    intro i l o _
    rfl
  | succ k ih =>
    intro i l o h
    unfold optPath at h
    simp only [bind_eq_bind, Option.bind_eq_some_iff] at h
    obtain ⟨op, hop, l', hl', -⟩ := h
    unfold optSearch
    rw [hop]
    simp only [bind_eq_bind, bind_some]
    rw [if_neg fun h => hol h.2]
    exact ih o hl'

/-- The bits of `m` that an option at `t` sets. -/
def Sets (b : Buf) (m : BitVec 16) (t ol : ℕ) : Prop :=
  4 < ol ∧ ∃ op ∈ optHits (b.byte t).toNat, op.olBit.truncate 16 &&& m ≠ 0

theorem or_and_ne_zero (x y m : BitVec 16) : (x ||| y) &&& m ≠ 0 ↔ x &&& m ≠ 0 ∨ y &&& m ≠ 0 := by
  have hdistrib : (x ||| y) &&& m = x &&& m ||| y &&& m := by
    rw [BitVec.and_comm, BitVec.and_or_distrib_left, BitVec.and_comm m x, BitVec.and_comm m y]
  rw [hdistrib, ← not_and_or]
  exact not_congr BitVec.or_eq_zero_iff

theorem foldFound_spec (hs : s + ol ≤ hlen) (hol : 4 < ol) (opt : ℕ) : ∀ (l : List Optlist) (o : Optinfo),
    ∃ o', l.foldlM (fun o op => optFound b hlen s opt ol op o) o = some o' ∧
      ∀ m : BitVec 16, o'.optmsk &&& m ≠ 0 ↔ o.optmsk &&& m ≠ 0 ∨ ∃ op ∈ l, op.olBit.truncate 16 &&& m ≠ 0 := by
  intro l
  induction l with
  | nil =>
    intro o
    exact ⟨o, rfl, fun m => by simp⟩
  | cons op l ih =>
    intro o
    obtain ⟨o₁, ho₁, hmsk⟩ := optFound_some (b := b) hs hol opt op o
    obtain ⟨o', ho', hbits⟩ := ih o₁
    refine ⟨o', ?_, fun m => ?_⟩
    · rw [foldlM_cons, ho₁]
      exact ho'
    · rw [hbits, hmsk, or_and_ne_zero, exists_mem_cons_iff, or_assoc]

/-- **One option of the walk.** -/
theorem optSearch_spec (h : WellFormed b hlen s ol) (o : Optinfo) :
    ∃ o', optSearch b hlen s (b.byte s).toNat ol 5 9 o = some o' ∧
      ∀ m, o'.optmsk &&& m ≠ 0 ↔ o.optmsk &&& m ≠ 0 ∨ Sets b m s ol := by
  have hne : (b.byte s).toNat ≠ 0 := fun h0 => h.2.1 (BitVec.eq_of_toNat_eq h0)
  have hpath := optPath_hits ⟨(b.byte s).toNat, (b.byte s).isLt⟩ hne
  obtain ⟨l, hl, hfinds⟩ := (Option.any_eq_true _ _).1 hpath
  by_cases hol : 4 < ol
  · obtain ⟨o', ho', hbits⟩ := foldFound_spec h.le hol (b.byte s).toNat
      (l.filter fun op => op.olVal = (b.byte s).toNat) o
    refine ⟨o', ?_, fun m => ?_⟩
    · rw [optSearch_path b hlen s _ hol o hl]
      exact ho'
    · rw [hbits, finds_iff hfinds]
      exact or_congr_right ⟨fun h => ⟨hol, h⟩, fun h => h.2⟩
  · exact ⟨o, optSearch_short b hlen s _ hol o hl, fun m => ⟨.inl, fun h => h.resolve_right fun hs => hol hs.1⟩⟩

/-! ## The walk -/

/-- **The walk over the options** ends, reads nothing outside the header, and puts down the options of the prefix. -/
theorem optWalk_spec (b : Buf) (hlen : ℕ) : ∀ {n s : ℕ} (o : Optinfo), hlen - s ≤ n →
    ∃ o', optWalk b hlen n s o = some o' ∧
      ∀ m, o'.optmsk &&& m ≠ 0 ↔ o.optmsk &&& m ≠ 0 ∨ ∃ t ol, Reaches b hlen s t ∧ WellFormed b hlen t ol ∧
        Sets b m t ol := by
  intro n
  induction n with
  | zero =>
    intro s o hn
    have hs : ¬s < hlen := by omega
    refine ⟨o, if_neg hs, fun m => ⟨.inl, ?_⟩⟩
    rintro (h | ⟨t, ol, hreach, hwf, -⟩)
    · exact h
    · -- nothing is reached from the end
      cases hreach with
      | here => exact absurd hwf.1 hs
      | behind h => exact absurd h.1 hs
  | succ n ih =>
    intro s o hn
    unfold optWalk
    by_cases hs : s < hlen
    · rw [if_pos hs]
      obtain ⟨ol, hol, hwf⟩ | ⟨hol, hno⟩ := optLen_spec (b := b) hs
      · obtain ⟨o₁, ho₁, hbits₁⟩ := optSearch_spec hwf o
        have hpos := hwf.pos
        obtain ⟨o', ho', hbits⟩ := ih (s := s + ol) o₁ (by omega)
        refine ⟨o', ?_, fun m => ?_⟩
        · rw [hol, optByte_lt hs]
          simp only [bind_eq_bind, bind_some, ho₁, ho']
        · rw [hbits, hbits₁, or_assoc]
          apply or_congr_right
          constructor
          · rintro (h | ⟨t, ol', hreach, hwf', h⟩)
            · exact ⟨s, ol, .here s, hwf, h⟩
            · exact ⟨t, ol', .behind hwf hreach, hwf', h⟩
          · rintro ⟨t, ol', hreach, hwf', h⟩
            cases hreach with
            | here =>
              rw [hwf.unique hwf']
              exact .inl h
            | behind hwf₁ hreach =>
              rw [hwf₁.unique hwf] at hreach
              exact .inr ⟨t, ol', hreach, hwf', h⟩
      · refine ⟨o, ?_, fun m => ⟨.inl, ?_⟩⟩
        · rw [hol]
          rfl
        · rintro (h | ⟨t, ol, hreach, hwf, -⟩)
          · exact h
          · cases hreach with
            | here => exact absurd hwf (hno ol)
            | behind h => exact absurd h (hno _)
    · refine ⟨o, if_neg hs, fun m => ⟨.inl, ?_⟩⟩
      rintro (h | ⟨t, ol, hreach, hwf, -⟩)
      · exact h
      · cases hreach with
        | here => exact absurd hwf.1 hs
        | behind h => exact absurd h.1 hs

/-! ## The mask -/

/-- The entries that share a bit with an entry of the table, of those that a search finds. -/
theorem optHits_bits : ∀ op ∈ ipopts, op.olVal ≠ IPOPT_ADDEXT → op.olVal ≠ IPOPT_VISA → ∀ k : Fin 20,
    (op.olBit.truncate 16 &&& (ipopts.get k).olBit.truncate 16 ≠ (0 : BitVec 16) ↔ op.olVal = (ipopts.get k).olVal ∧
      k.val ≤ 13) := by
  decide

/-- The first entries are in order. -/
theorem ipopts_first : ∀ k : Fin 20, k.val ≤ 13 →
    (ipopts.get k).olVal ≠ IPOPT_ADDEXT ∧ (ipopts.get k).olVal ≠ IPOPT_VISA := by
  decide

/-- The options that set the bit of an entry. -/
theorem sets_iff (b : Buf) (k : Fin 20) (t ol : ℕ) :
    Sets b ((ipopts.get k).olBit.truncate 16) t ol ↔ 4 < ol ∧ k.val ≤ 13 ∧ (b.byte t).toNat = (ipopts.get k).olVal := by
  constructor
  · rintro ⟨hol, op, hop, hbit⟩
    simp only [optHits, mem_filter, decide_eq_true_eq] at hop
    obtain ⟨hmem, hval, haddext, hvisa⟩ := hop
    obtain ⟨heq, hk⟩ := (optHits_bits op hmem haddext hvisa k).1 hbit
    exact ⟨hol, hk, hval.symm.trans heq⟩
  · rintro ⟨hol, hk, hval⟩
    obtain ⟨haddext, hvisa⟩ := ipopts_first k hk
    have hmem : ipopts.get k ∈ ipopts := get_mem ipopts k
    refine ⟨hol, ipopts.get k, ?_, (optHits_bits _ hmem haddext hvisa k).2 ⟨rfl, hk⟩⟩
    simp only [optHits, mem_filter, decide_eq_true_eq]
    exact ⟨hmem, hval.symm, haddext, hvisa⟩

/-- **The walk over the options** ends, and sets the bits of the first entries whose options are longer than 4 bytes. -/
theorem ipOptions_bit (b : Buf) (hlen : ℕ) (f : FrInfo) : ∃ o, ipOptions b hlen f = some o ∧ ∀ k : Fin 20,
      (o.optmsk &&& (ipopts.get k).olBit.truncate 16 ≠ 0 ↔ k.val ≤ 13 ∧ ∃ ol, 4 < ol ∧
        Occurs b hlen (ipopts.get k).olVal ol) := by
  obtain ⟨o, ho, hbits⟩ := optWalk_spec b hlen (n := hlen) (s := 20) ⟨0, 0, 0, f.fiSensitivity, false⟩ (by omega)
  refine ⟨o, ho, fun k => ?_⟩
  rw [hbits]
  constructor
  · rintro (h | ⟨t, ol, hreach, hwf, hsets⟩)
    · exact absurd BitVec.zero_and h
    · obtain ⟨hol, hk, hval⟩ := (sets_iff b k t ol).1 hsets
      exact ⟨hk, ol, hol, t, hreach, hwf, hval⟩
  · rintro ⟨hk, ol, hol, t, hreach, hwf, hval⟩
    exact .inr ⟨t, ol, hreach, hwf, (sets_iff b k t ol).2 ⟨hol, hk, hval⟩⟩

/-- The bits of a mask that has lost its upper half. -/
theorem zeroExtend_and (x : BitVec 16) (m : Flags) : x.zeroExtend 32 &&& m ≠ 0 ↔ x &&& m.truncate 16 ≠ 0 := by
  have hext : x.zeroExtend 32 &&& m = (x &&& m.truncate 16).zeroExtend 32 := by
    apply BitVec.eq_of_getLsbD_eq
    intro i hi
    simp only [BitVec.getLsbD_and, BitVec.truncate_eq_setWidth, BitVec.getLsbD_setWidth]
    by_cases h : i < 16
    · rw [decide_eq_true h, decide_eq_true hi, Bool.true_and, Bool.true_and, Bool.true_and]
    · rw [BitVec.getLsbD_of_ge x i (by omega), Bool.and_false, Bool.false_and, Bool.false_and, Bool.and_false]
  rw [hext]
  generalize x &&& m.truncate 16 = y
  apply not_congr
  constructor
  · intro h
    apply BitVec.eq_of_toNat_eq
    have hnat := congrArg BitVec.toNat h
    have hlt := y.isLt
    rw [BitVec.zeroExtend, BitVec.toNat_setWidth, Nat.mod_eq_of_lt (by omega)] at hnat
    exact hnat
  · intro h
    rw [h]
    rfl

/-! ## The header -/

/-- The length of the data of an IPv4 packet. -/
def dlen4 (b : Buf) (hlen : ℕ) : ℤ := ((b.be16 2).toNat : ℤ) - hlen

/-- The packet information of an IPv4 packet at the start of `ipf_pr_ipv4hdr`. -/
def start4 (b : Buf) (hlen : ℕ) (f : FrInfo) : FrInfo :=
  { f.init hlen with finPlen := (b.be16 2).toNat, finDlen := dlen4 b hlen }

theorem fragment4_header (b : Buf) (f : FrInfo) : SameHeader f (f.fragment4 b) := by
  unfold FrInfo.fragment4
  dsimp only
  split
  · split
    · have hflags : ∀ c, SameHeader f (((f.flag FI_FRAG).flag FI_FRAGBODY).flagIf c FI_BAD) := fun c =>
        (((Stays.flag f FI_FRAG).trans (.flag _ FI_FRAGBODY)).trans (.flagIf _ c FI_BAD)).header
      exact ⟨(hflags _).hlen, (hflags _).plen, (hflags _).depth, (hflags _).optmsk⟩
    · exact ⟨rfl, rfl, rfl, rfl⟩
  · exact ⟨rfl, rfl, rfl, rfl⟩

theorem header4_header (b : Buf) (f : FrInfo) : SameHeader f (f.header4 b) := by
  have h := (Stays.flagIf { f with
    finP := (b.byte 9).toNat
    fiTos := b.byte 1
    finId := (b.raw16 4).zeroExtend 32
    fiTtl := b.byte 8
    finSrc := ⟨b.raw32 12, 0, 0, 0⟩
    finDst := ⟨b.raw32 16, 0, 0, 0⟩
    finCrc := (b.byte 9).zeroExtend 32 + b.raw32 12 + b.raw32 16 } ((b.byte 16).toNat >>> 4 = 14)
      (FI_MULTICAST ||| FI_MBCAST)).header
  exact ⟨h.hlen, h.plen, h.depth, h.optmsk⟩

theorem ah_header (b : Buf) (f : FrInfo) : SameHeader f (ipfPrAh b f).1 := by
  have h := (Stays.flag f FI_AH).trans (.short _ 12)
  unfold ipfPrAh
  dsimp only
  generalize ipfPrShort (f.flag FI_AH) 12 = g at h ⊢
  split
  · exact h.header
  split
  · exact (h.trans (.pullup b g 12)).header
  have h' := h.trans (.short g (ahLen b g.finDp))
  split
  · exact (h'.trans (.pullup b _ (ahLen b g.finDp))).header
  · exact ⟨h'.hlen, h'.plen, h'.depth, h'.optmsk⟩

/-- The layers below the options leave the header as it is. -/
theorem upToOptions_header (b : Buf) (minmtu : ℕ) (f : FrInfo) : SameHeader f (upToOptions b minmtu f) := by
  have hfragment := (header4_header b f).trans (fragment4_header b (f.header4 b))
  have hskip : SameHeader f (skipAh b ((f.header4 b).fragment4 b)).1 := by
    unfold skipAh
    split
    · exact hfragment.trans (ah_header b _)
    · exact hfragment
  exact hskip.trans (Stays.layer4 b minmtu _ _).header

/-- The options leave the place in the packet, and the flags that are set, as they are. -/
theorem makefrip4_upTo {minmtu : ℕ} {f r : FrInfo} (h : ipfMakefrip4 b minmtu hlen f = some r) :
    r.finDp = (upToOptions b minmtu (start4 b hlen f)).finDp ∧
      r.finDlen = (upToOptions b minmtu (start4 b hlen f)).finDlen ∧
      r.finOff = (upToOptions b minmtu (start4 b hlen f)).finOff ∧
      ∀ m, has (upToOptions b minmtu (start4 b hlen f)).finFlx m = true → has r.finFlx m = true := by
  change ipfPrIpv4hdr b minmtu (start4 b hlen f) = some r at h
  unfold ipfPrIpv4hdr at h
  dsimp only at h
  generalize upToOptions b minmtu (start4 b hlen f) = u at h ⊢
  split at h
  · cases h
    exact ⟨rfl, rfl, rfl, fun _ h => h⟩
  split at h
  · cases h
    exact ⟨rfl, rfl, rfl, fun _ h => h⟩
  · obtain ⟨o, -, ho⟩ := Option.map_eq_some_iff.1 h
    have hflags := (Stays.flag u FI_OPTIONS).trans (.flagIf _ o.bad FI_BAD)
    rw [← ho]
    exact ⟨hflags.dp, hflags.dlen, hflags.off, hflags.flx⟩

/-- The length of an IPv4 packet is that of its header, and it is scanned at depth 0. -/
theorem makefrip4_header {minmtu : ℕ} {f r : FrInfo} (h : ipfMakefrip4 b minmtu hlen f = some r) :
    r.finPlen = (b.be16 2).toNat ∧ r.finDepth = 0 := by
  have hu := upToOptions_header b minmtu (start4 b hlen f)
  have hplen : (upToOptions b minmtu (start4 b hlen f)).finPlen = (b.be16 2).toNat := hu.plen
  have hdepth : (upToOptions b minmtu (start4 b hlen f)).finDepth = 0 := hu.depth
  change ipfPrIpv4hdr b minmtu (start4 b hlen f) = some r at h
  unfold ipfPrIpv4hdr at h
  dsimp only at h
  generalize upToOptions b minmtu (start4 b hlen f) = u at h hplen hdepth
  split at h
  · cases h
    exact ⟨hplen, hdepth⟩
  split at h
  · cases h
    exact ⟨hplen, hdepth⟩
  · obtain ⟨o, -, ho⟩ := Option.map_eq_some_iff.1 h
    have hflags := (Stays.flag u FI_OPTIONS).trans (.flagIf _ o.bad FI_BAD)
    rw [← ho]
    exact ⟨hflags.plen.trans hplen, hflags.depth.trans hdepth⟩

/-- The analysis of an IPv4 packet ends. -/
theorem makefrip4_some (b : Buf) (minmtu hlen : ℕ) (f : FrInfo) : ∃ r, ipfMakefrip4 b minmtu hlen f = some r := by
  change ∃ r, ipfPrIpv4hdr b minmtu (start4 b hlen f) = some r
  unfold ipfPrIpv4hdr
  dsimp only
  generalize upToOptions b minmtu (start4 b hlen f) = u
  split
  · exact ⟨u, rfl⟩
  split
  · exact ⟨_, rfl⟩
  · obtain ⟨o, ho, -⟩ := ipOptions_bit b u.finHlen u
    rw [ho]
    exact ⟨_, rfl⟩

/-- In a header without options there are none. -/
theorem not_occurs {opt : ℕ} (h : hlen = 20) : ¬Occurs b hlen opt ol := by
  rintro ⟨t, hreach, hwf, -⟩
  cases hreach with
  | here => exact absurd hwf.1 (by omega)
  | behind hwf' => exact absurd hwf'.1 (by omega)

/-- **The mask of the options.** The walks end and read nothing outside the header. Unless the packet is freed on the way, the
bit of an entry tells whether one of the options has its type, if and only if such an option is not missed: the entry is one of
the first 14, and one of the options is longer than 4 bytes. The two entries behind these are out of order and not found, and
the bits of the last three are more than the mask has. -/
theorem ipv4hdr_optmsk_iff (b : Buf) (minmtu hlen : ℕ) (f : FrInfo) :
    ∃ r, ipfMakefrip4 b minmtu hlen f = some r ∧ (f.finM = true → r.finM = false → r.finOptmsk = f.finOptmsk) ∧
      ((f.finM = true → r.finM = true) → ∀ k : Fin ipopts.length,
        ((r.finOptmsk &&& (ipopts.get k).olBit ≠ 0 ↔ ∃ ol, Occurs b hlen (ipopts.get k).olVal ol) ↔
          ((∃ ol, Occurs b hlen (ipopts.get k).olVal ol) → k.val ≤ 13 ∧ ∃ ol, 4 < ol ∧
            Occurs b hlen (ipopts.get k).olVal ol))) := by
  have logic : ∀ {p q r : Prop}, (p ↔ r) → (r → q) → ((p ↔ q) ↔ (q → r)) := by tauto
  change ∃ r, ipfPrIpv4hdr b minmtu (start4 b hlen f) = some r ∧ _
  unfold ipfPrIpv4hdr
  dsimp only
  have hh := (upToOptions_header b minmtu (start4 b hlen f)).hlen
  have ho := (upToOptions_header b minmtu (start4 b hlen f)).optmsk
  generalize upToOptions b minmtu (start4 b hlen f) = u at hh ho
  change u.finHlen = hlen at hh
  change u.finOptmsk = f.finOptmsk at ho
  have hf : (start4 b hlen f).finM = f.finM := rfl
  rw [hf]
  by_cases hm : f.finM = true ∧ u.finM = false
  · rw [if_pos hm]
    refine ⟨u, rfl, fun _ _ => ho, fun h => ?_⟩
    rw [hm.2] at h
    cases h hm.1
  rw [if_neg hm]
  by_cases h20 : u.finHlen = 20
  · rw [if_pos h20]
    refine ⟨_, rfl, fun hf h => absurd ⟨hf, h⟩ hm, fun _ k => ?_⟩
    have hno : ∀ opt ol, ¬Occurs b hlen opt ol := fun opt ol => not_occurs (hh.symm.trans h20)
    simp [hno]
  rw [if_neg h20]
  obtain ⟨o, hopt, hbits⟩ := ipOptions_bit b u.finHlen u
  refine ⟨u.options o, by rw [hopt]; rfl, ?_, fun _ k => ?_⟩
  · intro hf h
    have hflag : (u.options o).finM = u.finM := by
      unfold FrInfo.options FrInfo.flagIf
      split
      · rfl
      · rfl
    exact absurd ⟨hf, hflag.symm.trans h⟩ hm
  · have hk := hbits k
    rw [← zeroExtend_and, hh] at hk
    exact logic hk fun h => h.2.imp fun ol h => h.2

/-- An IPv4 packet with options from 0.0.0.0 to 0.0.0.0. -/
def ipv4 (p : BitVec 8) (ipOff : BitVec 16) (opts data : List (BitVec 8)) : Buf :=
  .ofList ([0x45 + BitVec.ofNat 8 (opts.length / 4), 0, 0, BitVec.ofNat 8 (20 + opts.length + data.length), 0, 0,
    (ipOff >>> 8).truncate 8, ipOff.truncate 8, 64, p, 0, 0, 0, 0, 0, 0, 0, 0, 0, 0] ++ opts ++ data)

theorem ipv4hdr_optmsk_record :
    ∃ r, ipfMakefrip4 (ipv4 4 0 [7, 7, 4, 0, 0, 0, 0, 0] []) 68 28 .zero = some r ∧ r.finOptmsk &&& 0x000002 ≠ 0 := by
  obtain ⟨r, hr, -, hmask⟩ := ipv4hdr_optmsk_iff (ipv4 4 0 [7, 7, 4, 0, 0, 0, 0, 0] []) 68 28 .zero
  have hm : (ipfMakefrip4 (ipv4 4 0 [7, 7, 4, 0, 0, 0, 0, 0] []) 68 28 .zero).map FrInfo.finM = some true := rfl
  rw [hr] at hm
  have hoccurs : Occurs (ipv4 4 0 [7, 7, 4, 0, 0, 0, 0, 0] []) 28 IPOPT_RR 7 :=
    ⟨20, .here 20, ⟨by decide, by decide, by decide⟩, rfl⟩
  have hiff := (hmask (fun _ => Option.some.inj hm) ⟨1, by decide⟩).2 fun _ => ⟨by decide, 7, by decide, hoccurs⟩
  exact ⟨r, hr, hiff.2 ⟨7, hoccurs⟩⟩

/-- An option for experimental access control, which is not found in the table: its bit is not set. -/
theorem ipv4hdr_optmsk_visa :
    ∃ r, ipfMakefrip4 (ipv4 4 0 [142, 8, 0, 0, 0, 0, 0, 0] []) 68 28 .zero = some r ∧ r.finM = true ∧
      Occurs (ipv4 4 0 [142, 8, 0, 0, 0, 0, 0, 0] []) 28 IPOPT_VISA 8 ∧
        ipopts.get ⟨15, by decide⟩ = ⟨IPOPT_VISA, 0x008000⟩ ∧
      r.finOptmsk &&& 0x008000 = 0 :=
  ⟨_, rfl, rfl, ⟨20, .here 20, ⟨by decide, by decide, by decide⟩, rfl⟩, rfl, by decide⟩

end Ipfilter.Makefrip
