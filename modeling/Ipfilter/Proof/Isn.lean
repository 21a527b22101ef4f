import Ipfilter.Proof.Masks
import Ipfilter.Proof.NatCksum
import Ipfilter.Spec.Isn

/-!
# Sequence numbers that are rewritten

An offset is kept with the difference of the checksum that it made in the first packet. Both are for numbers of 32 bits: where
the sum of a number and the offset has a carry, the checksum has one less. The difference is right for the packets that carry as
the first one did.

* `offsets_checked` — an offset and its difference come from the first packet of their direction;
* `addSeq_valid`, `subAck_valid` — a packet that is rewritten;
* `isn_transparent` — **which streams are rewritten transparently**: numbers come back, and checksums stay right or wrong, iff
  packets are rewritten both ways and carry as the first one did. `isn_transparent_two` — a session with both offsets;
  `isn_wraps` — a session whose numbers wrap, after which no checksum is right.
-/

namespace Ipfilter.Isn

open Masks NatTab Inet Option

variable {M : Machine} {is : Ipstate} {fin : FrInfo} {tcp : Tcphdr} {i : Bool}

/-! ## Offsets -/

/-- Packets with the numbers that were chosen for them go through `ipf_checknewisn`. -/
def checked (M : Machine) (calls : List (FrInfo × Word)) (is : Ipstate) : Ipstate :=
  calls.foldl (fun is c => ipfChecknewisn M (fun _ => c.2) c.1 is) is

/-- The numbers of the first packet of a direction: its own and the one chosen for it. -/
def first (M : Machine) (calls : List (FrInfo × Word)) (i : Bool) : Option (Word × Word) :=
  (calls.find? fun c => c.1.finRev = i).map fun c => (M.ntohl c.1.finDp.thSeq, c.2)

/-- Each direction has no flag, or the offset and the difference of its two numbers. -/
def Offsets (f : Bool → Option (Word × Word)) (is : Ipstate) : Prop :=
  ∀ i, (is.isFlags &&& isnFlag i ≠ 0 ↔ f i ≠ none) ∧
    ∀ old new, f i = some (old, new) → is.isIsninc i = new - old ∧ is.isSumd i = (sumd old new).setWidth 16

theorem isnFlag_or (flags : Flags) (i j : Bool) :
    (flags ||| isnFlag i) &&& isnFlag j ≠ 0 ↔ i = j ∨ flags &&& isnFlag j ≠ 0 := by
  have hself : isnFlag i &&& isnFlag j = if i = j then isnFlag j else 0 := by cases i <;> cases j <;> decide
  have hne : isnFlag j ≠ 0 := by cases j <;> decide
  rw [BitVec.and_or_distrib_right, hself]
  split
  · rename_i h
    refine iff_of_true ?_ (.inl h)
    intro h0
    exact hne (BitVec.or_eq_zero_iff.1 h0).2
  · rename_i h
    rw [show flags &&& isnFlag j ||| 0 = flags &&& isnFlag j from BitVec.or_zero]
    exact ⟨fun h => .inr h, fun h' => h'.resolve_left h⟩

/-- The first packet of a direction sets its offset. -/
theorem ipfChecknewisn_eq (newisn : FrInfo → Word) :
    ipfChecknewisn M newisn fin is = if is.isFlags &&& isnFlag fin.finRev = 0 then
      { isFlags := is.isFlags ||| isnFlag fin.finRev
        isIsninc := Function.update is.isIsninc fin.finRev (newisn fin - M.ntohl fin.finDp.thSeq)
        isSumd := Function.update is.isSumd fin.finRev ((sumd (M.ntohl fin.finDp.thSeq) (newisn fin)).setWidth 16) }
    else is := by
  unfold ipfChecknewisn
  cases hrev : fin.finRev with
  | false => simp only [true_and, Bool.false_eq_true, false_and, or_false, isnFlag, if_false]
  | true => simp only [true_and, Bool.true_eq_false, false_and, false_or, isnFlag, if_true]

/-- **A packet** with its number is one more. -/
theorem Offsets.checked {calls : List (FrInfo × Word)} (h : Offsets (first M calls) is) (c : FrInfo × Word) :
    Offsets (first M (calls ++ [c])) (ipfChecknewisn M (fun _ => c.2) c.1 is) := by
  have hfirst : ∀ j, first M (calls ++ [c]) j =
      (first M calls j).or (if c.1.finRev = j then some (M.ntohl c.1.finDp.thSeq, c.2) else none) := by
    intro j
    unfold first
    rw [List.find?_append]
    cases calls.find? fun c => c.1.finRev = j with
    | some c' => rfl
    | none =>
      rw [none_or, List.find?_singleton]
      simp only [decide_eq_true_eq, map_none, none_or]
      split <;> rfl
  rw [ipfChecknewisn_eq]
  intro j
  obtain ⟨hflag, hval⟩ := h j
  rw [hfirst]
  by_cases hj : c.1.finRev = j
  · subst hj
    rw [if_pos rfl]
    by_cases h0 : is.isFlags &&& isnFlag c.1.finRev = 0
    · have hnone : first M calls c.1.finRev = none := by
        by_contra hsome
        exact hflag.2 hsome h0
      rw [if_pos h0, hnone, none_or]
      refine ⟨iff_of_true ((isnFlag_or _ _ _).2 (.inl rfl)) (some_ne_none _), ?_⟩
      rintro old new heq
      cases heq
      exact ⟨Function.update_self .., Function.update_self ..⟩
    · obtain ⟨x, hx⟩ := ne_none_iff_exists'.1 (hflag.1 h0)
      rw [if_neg h0, hx, some_or, ← hx]
      exact ⟨hflag, hval⟩
  · rw [if_neg hj, or_none]
    split
    · refine ⟨((isnFlag_or _ _ _).trans (or_iff_right hj)).trans hflag, ?_⟩
      rintro old new heq
      dsimp only
      rw [Function.update_of_ne (Ne.symm hj), Function.update_of_ne (Ne.symm hj)]
      exact hval old new heq
    · exact ⟨hflag, hval⟩

/-- **Where the offsets come from:** the first packet of each direction. -/
theorem offsets_checked (hnew : ∀ i, is.isFlags &&& isnFlag i = 0) (calls : List (FrInfo × Word)) :
    Offsets (first M calls) (checked M calls is) := by
  induction calls using List.reverseRecOn with
  | nil => exact fun i => ⟨iff_of_false (fun h => h (hnew i)) (fun h => h rfl), nofun⟩
  | append_singleton calls c ih =>
    unfold checked
    rw [List.foldl_concat]
    exact ih.checked c

/-! ## Numbers

An offset that is added and taken away, and one that is not. -/

theorem add_offset_sub (x d k : Word) : x + d + k - d = x + k := by bv_omega

theorem add_sub_self (x a : Word) : a = x + (a - x) := by bv_omega

theorem offset_zero_of_add {x a old new : Word} (h : a = x + (a - (x + (new - old)))) : old = new := by bv_omega

theorem offset_zero_of_sub {x a old new : Word} (h : a - (new - old) = x + (a - x)) : old = new := by bv_omega

theorem add_zero_offset (x d k : Word) : x + (d - d) + k = x + k := by bv_omega

theorem sub_zero_offset (x d : Word) : x - (d - d) = x := by bv_omega

/-- The sum of a number and the offset has a carry. -/
def carry (x inc : Word) : ℕ := (x.toNat + inc.toNat) / 2 ^ 32

theorem carry_le (x inc : Word) : carry x inc ≤ 1 := by
  have hx := x.isLt
  have hinc := inc.isLt
  unfold carry
  omega

/-- The sum, with its carry. -/
theorem add_carry (x inc : Word) : (x + inc).toNat + 2 ^ 32 * carry x inc = x.toNat + inc.toNat := by
  unfold carry
  rw [BitVec.toNat_add]
  exact Nat.mod_add_div _ _

theorem sub_carry (x inc : Word) : x.toNat + 2 ^ 32 * carry (x - inc) inc = (x - inc).toNat + inc.toNat := by
  rw [← add_carry, BitVec.sub_add_cancel]

/-! ## A packet that is rewritten -/

/-- An offset has a carry with the number it was made for. -/
theorem sumd_offset (old new : Word) : ((sumd old new).setWidth 16).toNat = (sumd old new).toNat ∧
      ((sumd old new).toNat + carry old (new - old)) % 65535 = (new - old).toNat % 65535 := by
  obtain ⟨hle, hmod⟩ := sumd_toNat old new
  have h1 := old.isLt
  have h2 := new.isLt
  refine ⟨?_, ?_⟩
  · rw [BitVec.toNat_setWidth]
    omega
  · have hsum := add_carry old (new - old)
    have hnew : old + (new - old) = new := (add_sub_self old new).symm
    rw [hnew] at hsum
    omega

/-- The checksum is right iff the words sum to a multiple of `2 ^ 16 - 1`: not all of them are 0. -/
theorem Tcphdr.valid_words : Valid (tcp.words M) ↔ total (tcp.words M) % 65535 = 0 := by
  have hpos : total (tcp.words M) ≠ 0 := by
    unfold Tcphdr.words
    rw [total_cons, total_append, total_append, total_cons]
    have h6 : (6#16).toNat = 6 := rfl
    omega
  rw [valid_iff]
  exact and_iff_left hpos

/-- The sum of the words. -/
theorem Tcphdr.total_words : total (tcp.words M) % 65535 =
    ((M.htons tcp.thSum).toNat + (M.ntohl tcp.thSeq).toNat + (M.ntohl tcp.thAck).toNat + 6 + total tcp.rest) % 65535 := by
  have hseq := total_halves (M := M) (a := tcp.thSeq)
  have hack := total_halves (M := M) (a := tcp.thAck)
  unfold Tcphdr.words
  rw [total_cons, total_append, total_append, total_cons]
  have h6 : (6#16).toNat = 6 := rfl
  omega

/-- The difference of the direction is that of the offset but for the carry `c`. -/
def Ipstate.Differs (is : Ipstate) (i : Bool) (c : ℕ) : Prop :=
  ((is.isSumd i).toNat + c) % 65535 = (is.isIsninc i).toNat % 65535

/-- **A sequence number:** the sum of the words is one less for its carry, one more for that of the first packet. -/
theorem addSeq_words {c : ℕ} (h : is.Differs i c) :
    (total ((tcp.addSeq M is i).words M) + carry (M.ntohl tcp.thSeq) (is.isIsninc i)) % 65535 =
    (total (tcp.words M) + c) % 65535 := by
  have hn : ((is.isSumd i).setWidth 32).toNat = (is.isSumd i).toNat := by
    have hlt := (is.isSumd i).isLt
    rw [BitVec.toNat_setWidth]
    omega
  have hfix := (ipfFixOutcksum_toNat M tcp.thSum (n := (is.isSumd i).setWidth 32) (by have := (is.isSumd i).isLt; omega)).1
  have hbefore := tcp.total_words (M := M)
  have hafter := (tcp.addSeq M is i).total_words (M := M)
  have hsum := add_carry (M.ntohl tcp.thSeq) (is.isIsninc i)
  unfold Ipstate.Differs at h
  unfold Tcphdr.addSeq at hafter ⊢
  dsimp only at hafter
  rw [ntohl_htonl] at hafter
  rw [hn] at hfix
  omega

/-- **An acknowledgement:** the sum is one more for its carry. -/
theorem subAck_words {c : ℕ} (h : is.Differs i c) : (total ((tcp.subAck M is i).words M) + c) % 65535 =
      (total (tcp.words M) + carry (M.ntohl tcp.thAck - is.isIsninc i) (is.isIsninc i)) % 65535 := by
  have hn : ((is.isSumd i).setWidth 32).toNat % 65536 = (is.isSumd i).toNat := by
    have hlt := (is.isSumd i).isLt
    rw [BitVec.toNat_setWidth]
    omega
  have hfix := ipfFixIncksum_toNat M tcp.thSum ((is.isSumd i).setWidth 32)
  have hbefore := tcp.total_words (M := M)
  have hafter := (tcp.subAck M is i).total_words (M := M)
  have hsum := sub_carry (M.ntohl tcp.thAck) (is.isIsninc i)
  unfold Ipstate.Differs at h
  unfold Tcphdr.subAck at hafter ⊢
  dsimp only at hafter
  rw [ntohl_htonl] at hafter
  rw [hn] at hfix
  omega

/-! ## Streams -/

/-- The packet is rewritten for the offset. -/
def Fixed (is : Ipstate) (i : Bool) (fin : FrInfo) : Prop := is.isFlags &&& isnFlag i ≠ 0 ∧ fin.finCksum < FI_CK_L4PART

instance (is : Ipstate) (i : Bool) (fin : FrInfo) : Decidable (Fixed is i fin) := inferInstanceAs (Decidable (_ ∧ _))

theorem ipfFixoutisn_eq (M : Machine) (fin : FrInfo) (is : Ipstate) :
    ipfFixoutisn M fin is = if Fixed is fin.finRev fin then fin.finDp.addSeq M is fin.finRev else fin.finDp := by
  unfold ipfFixoutisn Fixed isnFlag
  cases fin.finRev with
  | false => simp only [true_and, Bool.false_eq_true, false_and, if_false, ite_and, ite_self]
  | true => simp only [true_and, Bool.true_eq_false, false_and, if_false, if_true, ite_and, ite_self]

theorem ipfFixinisn_eq (M : Machine) (fin : FrInfo) (is : Ipstate) :
    ipfFixinisn M fin is = if Fixed is (!fin.finRev) fin then fin.finDp.subAck M is (!fin.finRev) else fin.finDp := by
  unfold ipfFixinisn Fixed isnFlag
  cases fin.finRev with
  | false => simp only [true_and, Bool.false_eq_true, false_and, if_false, if_true, ite_and, ite_self, Bool.not_false]
  | true => simp only [true_and, Bool.true_eq_false, Bool.false_eq_true, false_and, if_false, ite_and, ite_self, Bool.not_true]

/-- **Rewriting is transparent:** checksums stay what they are, right or wrong, and what acknowledges a byte comes back as the
byte. -/
structure Transparent (M : Machine) (is : Ipstate) (outs ins : List FrInfo) : Prop where
  out : ∀ p ∈ outs, Valid ((ipfFixoutisn M p is).words M) ↔ Valid (p.finDp.words M)
  inn : ∀ q ∈ ins, Valid ((ipfFixinisn M q is).words M) ↔ Valid (q.finDp.words M)
  back : ∀ p ∈ outs, ∀ q ∈ ins, q.finRev = !p.finRev → ∀ k : Word,
    M.ntohl q.finDp.thAck = M.ntohl (ipfFixoutisn M p is).thSeq + k →
      M.ntohl (ipfFixinisn M q is).thAck = M.ntohl p.finDp.thSeq + k

/-- A sum that gets `v` and loses `w` is a multiple of `2 ^ 16 - 1` still, or neither was nor is one. -/
def Harmless (v w sum : ℕ) : Prop := v = w ∨ (sum % 65535 ≠ 0 ∧ (sum + v) % 65535 ≠ w)

/-- **Every packet carries as the first one of its direction did**, unless its checksum is wrong anyway; and packets are
rewritten both ways or not at all. -/
structure Even (M : Machine) (f : Bool → Option (Word × Word)) (outs ins : List FrInfo) : Prop where
  out : ∀ p ∈ outs, p.finCksum < FI_CK_L4PART → ∀ old new, f p.finRev = some (old, new) →
    Harmless (carry old (new - old)) (carry (M.ntohl p.finDp.thSeq) (new - old)) (total (p.finDp.words M))
  inn : ∀ q ∈ ins, q.finCksum < FI_CK_L4PART → ∀ old new, f (!q.finRev) = some (old, new) →
    Harmless (carry (M.ntohl q.finDp.thAck - (new - old)) (new - old)) (carry old (new - old)) (total (q.finDp.words M))
  both : ∀ p ∈ outs, ∀ q ∈ ins, q.finRev = !p.finRev → ∀ old new, f p.finRev = some (old, new) → old ≠ new →
    (p.finCksum < FI_CK_L4PART ↔ q.finCksum < FI_CK_L4PART)

variable {f : Bool → Option (Word × Word)}

theorem harmless_iff {v w a b : ℕ} (hv : v ≤ 1) (hw : w ≤ 1) (h : (b + w) % 65535 = (a + v) % 65535) :
    (b % 65535 = 0 ↔ a % 65535 = 0) ↔ Harmless v w a := by
  unfold Harmless
  omega

theorem Offsets.differs (h : Offsets f is) {old new : Word} (hf : f i = some (old, new)) :
    is.Differs i (carry old (is.isIsninc i)) := by
  obtain ⟨hinc, hsumd⟩ := (h i).2 old new hf
  obtain ⟨hw, hmod⟩ := sumd_offset old new
  unfold Ipstate.Differs
  rw [hinc, hsumd, hw]
  exact hmod

theorem Offsets.fixed_iff (h : Offsets f is) : Fixed is i fin ↔ fin.finCksum < FI_CK_L4PART ∧
    ∃ old new, f i = some (old, new) := by
  unfold Fixed
  rw [(h i).1, and_comm, ne_none_iff_exists', Prod.exists]

/-- The checksum of a packet that goes out. -/
theorem fixout_valid (h : Offsets f is) : (Valid ((ipfFixoutisn M fin is).words M) ↔ Valid (fin.finDp.words M)) ↔
    (fin.finCksum < FI_CK_L4PART → ∀ old new, f fin.finRev = some (old, new) →
      Harmless (carry old (new - old)) (carry (M.ntohl fin.finDp.thSeq) (new - old)) (total (fin.finDp.words M))) := by
  rw [ipfFixoutisn_eq]
  by_cases hfix : Fixed is fin.finRev fin
  · obtain ⟨hck, old, new, hf⟩ := h.fixed_iff.1 hfix
    have hmod := @addSeq_words M is fin.finDp _ _ (h.differs hf)
    rw [((h _).2 old new hf).1] at hmod
    rw [if_pos hfix, Tcphdr.valid_words, Tcphdr.valid_words, harmless_iff (carry_le _ _) (carry_le _ _) hmod]
    constructor
    · intro hh _ old' new' hf'
      cases mem_unique hf hf'
      exact hh
    · exact fun hh => hh hck old new hf
  · rw [if_neg hfix]
    exact iff_of_true Iff.rfl fun hck old new hf => absurd (h.fixed_iff.2 ⟨hck, old, new, hf⟩) hfix

/-- The checksum of a packet that comes in. -/
theorem fixin_valid (h : Offsets f is) : (Valid ((ipfFixinisn M fin is).words M) ↔ Valid (fin.finDp.words M)) ↔
    (fin.finCksum < FI_CK_L4PART → ∀ old new, f (!fin.finRev) = some (old, new) →
      Harmless (carry (M.ntohl fin.finDp.thAck - (new - old)) (new - old)) (carry old (new - old))
        (total (fin.finDp.words M))) := by
  rw [ipfFixinisn_eq]
  by_cases hfix : Fixed is (!fin.finRev) fin
  · obtain ⟨hck, old, new, hf⟩ := h.fixed_iff.1 hfix
    have hmod := @subAck_words M is fin.finDp _ _ (h.differs hf)
    rw [((h _).2 old new hf).1] at hmod
    rw [if_pos hfix, Tcphdr.valid_words, Tcphdr.valid_words, harmless_iff (carry_le _ _) (carry_le _ _) hmod]
    constructor
    · intro hh _ old' new' hf'
      cases mem_unique hf hf'
      exact hh
    · exact fun hh => hh hck old new hf
  · rw [if_neg hfix]
    exact iff_of_true Iff.rfl fun hck old new hf => absurd (h.fixed_iff.2 ⟨hck, old, new, hf⟩) hfix

/-- A number comes back iff it is rewritten both ways, or the offset is 0. -/
theorem back_iff (h : Offsets f is) {p q : FrInfo} (hrev : q.finRev = !p.finRev) :
    (∀ k : Word, M.ntohl q.finDp.thAck = M.ntohl (ipfFixoutisn M p is).thSeq + k →
      M.ntohl (ipfFixinisn M q is).thAck = M.ntohl p.finDp.thSeq + k) ↔
    ∀ old new, f p.finRev = some (old, new) → old ≠ new →
      (p.finCksum < FI_CK_L4PART ↔ q.finCksum < FI_CK_L4PART) := by
  have hq : (!q.finRev) = p.finRev := by rw [hrev, Bool.not_not]
  rw [ipfFixoutisn_eq, ipfFixinisn_eq, hq]
  cases hf : f p.finRev with
  | none =>
    have hno : ∀ fin, ¬Fixed is p.finRev fin := by
      intro fin hfix
      obtain ⟨-, old, new, hsome⟩ := h.fixed_iff.1 hfix
      rw [hf] at hsome
      cases hsome
    rw [if_neg (hno p), if_neg (hno q)]
    exact iff_of_true (fun k hk => hk) nofun
  | some x =>
    obtain ⟨old, new⟩ := x
    have hiff : ∀ fin, Fixed is p.finRev fin ↔ fin.finCksum < FI_CK_L4PART :=
      fun fin => h.fixed_iff.trans (and_iff_left ⟨old, new, hf⟩)
    have hinc := ((h p.finRev).2 old new hf).1
    by_cases hp : p.finCksum < FI_CK_L4PART
    · rw [if_pos ((hiff p).2 hp), show M.ntohl (p.finDp.addSeq M is p.finRev).thSeq = M.ntohl p.finDp.thSeq + (new - old) from
        (ntohl_htonl M _).trans (by rw [hinc])]
      by_cases hq' : q.finCksum < FI_CK_L4PART
      · rw [if_pos ((hiff q).2 hq'), show M.ntohl (q.finDp.subAck M is p.finRev).thAck =
          M.ntohl q.finDp.thAck - (new - old) from
          (ntohl_htonl M _).trans (by rw [hinc])]
        exact iff_of_true (fun k hk => by rw [hk, add_offset_sub]) fun _ _ _ _ => iff_of_true hp hq'
      · -- what was added stays
        rw [if_neg (mt (hiff q).1 hq')]
        constructor
        · rintro hback old' new' heq hne
          cases heq
          exact absurd (offset_zero_of_add (hback _ (add_sub_self _ _))) hne
        · intro heven k hk
          have heq : old = new := by
            by_contra hne
            exact hq' ((heven old new rfl hne).1 hp)
          rw [hk, heq, add_zero_offset]
    · rw [if_neg (mt (hiff p).1 hp)]
      by_cases hq' : q.finCksum < FI_CK_L4PART
      · -- what was not added is taken away
        rw [if_pos ((hiff q).2 hq'), show M.ntohl (q.finDp.subAck M is p.finRev).thAck =
          M.ntohl q.finDp.thAck - (new - old) from
          (ntohl_htonl M _).trans (by rw [hinc])]
        constructor
        · rintro hback old' new' heq hne
          cases heq
          exact absurd (offset_zero_of_sub (hback _ (add_sub_self _ _))) hne
        · intro heven k hk
          have heq : old = new := by
            by_contra hne
            exact hp ((heven old new rfl hne).2 hq')
          rw [hk, heq, sub_zero_offset]
      · rw [if_neg (mt (hiff q).1 hq')]
        exact iff_of_true (fun k hk => hk) fun _ _ _ _ => iff_of_false hp hq'

/-- **Which streams are rewritten transparently**, for an entry whose offsets come from any packets. -/
theorem isn_transparent (M : Machine) (is : Ipstate) (hnew : ∀ i, is.isFlags &&& isnFlag i = 0)
    (calls : List (FrInfo × Word)) (outs ins : List FrInfo) : Transparent M (checked M calls is) outs ins ↔
      Even M (first M calls) outs ins := by
  have h := offsets_checked (M := M) hnew calls
  constructor
  · intro ht
    exact ⟨fun p hp => (fixout_valid h).1 (ht.out p hp), fun q hq => (fixin_valid h).1 (ht.inn q hq),
      fun p hp q hq hrev => (back_iff h hrev).1 (ht.back p hp q hq hrev)⟩
  · intro he
    exact ⟨fun p hp => (fixout_valid h).2 (he.out p hp), fun q hq => (fixin_valid h).2 (he.inn q hq),
      fun p hp q hq hrev => (back_iff h hrev).2 (he.both p hp q hq hrev)⟩

/-- A packet with these numbers. -/
def packet (rev : Bool) (seq ack : Word) (sum : BitVec 16) : FrInfo :=
  { finRev := rev
    finCksum := 0
    finDp := { thSeq := host.htonl seq, thAck := host.htonl ack, thSum := host.htons sum, rest := [] } }

/-- A SYN with 100 is sent with 5000, its SYN-ACK with 7 is sent with 9. -/
def handshake : List (FrInfo × Word) := [(packet false 100 0 0, 5000), (packet true 7 5001 0, 9)]

theorem isn_transparent_two :
    Transparent host (checked host handshake ⟨0, fun _ => 0, fun _ => 0⟩) [packet false 101 10 0xff8a]
      [packet true 8 5001 0] := by
  have hf : ∀ i, first host handshake i = some (if i then (7, 9) else (100, 5000)) := by decide
  refine (isn_transparent host ⟨0, fun _ => 0, fun _ => 0⟩ (by decide) handshake _ _).2 ⟨?_, ?_, ?_⟩
  · rintro p hp - old new heq
    obtain rfl := List.mem_singleton.1 hp
    cases (hf _).symm.trans heq
    exact .inl (by decide)
  · rintro q hq - old new heq
    obtain rfl := List.mem_singleton.1 hq
    cases (hf _).symm.trans heq
    exact .inl (by decide)
  · rintro p hp q hq - old new - -
    obtain rfl := List.mem_singleton.1 hp
    obtain rfl := List.mem_singleton.1 hq
    exact Iff.rfl

/-- The session starts 16 bytes before its new numbers wrap. The checksum of the next packet, with 17, is right, and is wrong
after it is rewritten. -/
theorem isn_wraps :
    ¬Transparent host (checked host [(packet false 0 0 0, 0xfffffff0)] ⟨0, fun _ => 0, fun _ => 0⟩)
      [packet false 17 10 0xffde] [] := by
  intro h
  have hout := h.out _ (List.mem_singleton.2 rfl)
  revert hout
  decide

end Ipfilter.Isn
