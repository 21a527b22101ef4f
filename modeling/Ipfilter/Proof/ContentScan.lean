import Ipfilter.Spec.ContentScan
import Mathlib.Data.BitVec
import Mathlib.Tactic

/-!
# What content scanning selects

* `ipfScanMatchstr_fits` — comparing all of a text is asking whether the bytes are those of the pattern under its mask;
* `arrive_cases` — the buffers hold the first bytes of the streams, however these are cut;
* `KnownInv.step`, `ListInv.step` — what one segment keeps, with a known pattern and without one;
* `scan_selects` — **while the careful branches are taken, flags are set only for bytes that were all seen and fit, and the
  selected pattern does not depend on the segments**; `first_byte_marks` is a pattern of two bytes that is marked after one.
-/

namespace Ipfilter.ContentScan


/-! ### Bits of what was seen -/

theorem ones_pow (k : ℕ) : ones (2 ^ k - 1) = k := by
  induction k with
  | zero => unfold ones; rfl
  | succ k ih =>
    have hp : 0 < 2 ^ k := Nat.two_pow_pos k
    have hodd : (2 ^ (k + 1) - 1) % 2 = 1 := by omega
    have hhalf : (2 ^ (k + 1) - 1) / 2 = 2 ^ k - 1 := by omega
    rw [ones, if_pos hodd, hhalf, ih]

/-- The mask of `d` bytes. -/
theorem mask_eq {d : ℕ} (hd : d ≤ 16) : 65535 &&& 65535 >>> (16 - d) = 2 ^ d - 1 := by
  interval_cases d <;> rfl

/-- The bytes that come are put behind those that were seen. -/
theorem mask_append (off d : ℕ) : 2 ^ off - 1 ||| (2 ^ d - 1) <<< off = 2 ^ (off + d) - 1 := by
  apply Nat.eq_of_testBit_eq
  intro i
  rw [Nat.testBit_or, Nat.testBit_shiftLeft, Nat.testBit_two_pow_sub_one, Nat.testBit_two_pow_sub_one,
    Nat.testBit_two_pow_sub_one]
  by_cases h : i < off
  · simp [h, show i < off + d by omega, show ¬off ≤ i by omega]
  · simp only [h, decide_false, Bool.false_or, show off ≤ i by omega, decide_true, Bool.true_and, decide_eq_decide]
    omega

/-! ### Comparing -/

theorem unlike_eq_false {s t up : Byte} : unlike s t up = false ↔ Like s t up := by
  unfold unlike Like
  by_cases h1 : t = 0x2e#8
  · have h2 : t ≠ 0x3f#8 := by
      rw [h1]
      decide
    simp only [h1, if_true, bne_eq_false_iff_eq, forall_const]
    constructor
    · intro h
      exact ⟨h.symm, fun h3 => absurd (h1.trans h3) h2⟩
    · intro h
      exact h.1.symm
  · by_cases h2 : t = 0x3f#8
    · rw [if_neg h1, if_pos h2]
      simp only [Bool.or_eq_false_iff, Bool.not_eq_false', bne_eq_false_iff_eq]
      constructor
      · intro h
        exact ⟨fun h3 => absurd h3 h1, fun _ => ⟨h.1, h.2.symm⟩⟩
      · intro h
        exact ⟨(h.2 h2).1, (h.2 h2).2.symm⟩
    · simp [h1, h2]

variable {sp : Sinfo} {str : ℕ → Byte} {n : ℕ}

theorem matchstrLoop_eq_false {i p : ℕ} :
    matchstrLoop sp str i p = false ↔ ∀ q, p ≤ q → q < p + i → Like (sp.sTxt q) (sp.sMsk q) (str q) := by
  induction i generalizing p with
  | zero =>
    simp only [matchstrLoop, true_iff]
    intro q h1 h2
    omega
  | succ i ih =>
    by_cases h : unlike (sp.sTxt p) (sp.sMsk p) (str p) = true
    · have hl : ¬Like (sp.sTxt p) (sp.sMsk p) (str p) := by simp [← unlike_eq_false, h]
      simp only [matchstrLoop, h, if_true, Bool.true_eq_false, false_iff]
      intro hall
      exact hl (hall p le_rfl (by omega))
    · have hl : Like (sp.sTxt p) (sp.sMsk p) (str p) := unlike_eq_false.mp (by simpa using h)
      rw [matchstrLoop, if_neg h, ih]
      constructor
      · intro hall q h1 h2
        rcases Nat.eq_or_lt_of_le h1 with rfl | h1
        · exact hl
        · exact hall q h1 (by omega)
      · intro hall q h1 h2
        exact hall q (by omega) (by omega)

theorem ipfScanMatchstr_eq_false :
    ipfScanMatchstr sp str n = false ↔ ∀ q < min n sp.sLen, Like (sp.sTxt q) (sp.sMsk q) (str q) := by
  rw [ipfScanMatchstr, matchstrLoop_eq_false]
  simp

/-- **Comparing all of a text** is asking whether the bytes fit. -/
theorem ipfScanMatchstr_fits : ipfScanMatchstr sp str sp.sLen = false ↔ sp.Fits str := by
  rw [ipfScanMatchstr_eq_false, min_self]
  rfl

/-- Only the bytes that are compared matter. -/
theorem ipfScanMatchstr_congr {str str' : ℕ → Byte}
    (h : ∀ q < min n sp.sLen, str q = str' q) : ipfScanMatchstr sp str n = ipfScanMatchstr sp str' n := by
  rw [Bool.eq_iff_iff, ← not_iff_not]
  simp only [Bool.not_eq_true, ipfScanMatchstr_eq_false]
  constructor
  · intro hall q hq
    rw [← h q hq]
    exact hall q hq
  · intro hall q hq
    rw [h q hq]
    exact hall q hq

theorem Sinfo.Fits.congr {str str' : ℕ → Byte} (h : ∀ q < sp.sLen, str q = str' q) : sp.Fits str ↔ sp.Fits str' := by
  rw [← ipfScanMatchstr_fits, ← ipfScanMatchstr_fits, ipfScanMatchstr_congr (by simpa using h)]

/-- More than the text is never compared. -/
theorem ipfScanMatchstr_cap (h : sp.sLen ≤ n) : ipfScanMatchstr sp str n = ipfScanMatchstr sp str sp.sLen := by
  rw [ipfScanMatchstr, ipfScanMatchstr, min_eq_right h, min_self]

/-! ### The buffers -/

@[simp] theorem set2_self {α : Type} (a : Bool → α) (i : Bool) (x : α) : set2 a i x i = x := by simp [set2]

theorem set2_ne {α : Type} {a : Bool → α} {i j : Bool} {x : α} (h : j ≠ i) : set2 a i x j = a j := by simp [set2, h]

/-- How many bytes of a side there are when so many were sent. -/
def got (s0 : Bool → BitVec 32) (sent : Bool → ℕ) (rv : Bool) : ℕ := if s0 rv = 0 then 0 else min (sent rv) 16

/-- The first bytes of the streams are in the buffers. -/
structure Copied (streams : Bool → ℕ → Byte) (sent : Bool → ℕ) (is : Ipstate) : Prop where
  smsk : ∀ rv, is.isSmsk rv = 2 ^ got is.isS0 sent rv - 1
  sbuf : ∀ rv, ∀ q < got is.isS0 sent rv, is.isSbuf rv q = streams rv q

theorem Copied.seen {streams : Bool → ℕ → Byte} {sent : Bool → ℕ} {is : Ipstate} (h : Copied streams sent is)
    (rv : Bool) : is.seen rv = got is.isS0 sent rv := by
  rw [Ipstate.seen, h.smsk, ones_pow]

theorem cut_getD {stream : ℕ → Byte} {start n q : ℕ} (h : q < n) :
    (cut stream start n).getD q 0 = stream (start + q) := by
  simp [cut, List.getD, h]

/-- The distance from the first byte. -/
theorem off_eq {s0 : BitVec 32} {k : ℕ} (hk : k < 2 ^ 31) : (s0 + BitVec.ofNat 32 k - s0).toInt = k := by
  have h : s0 + BitVec.ofNat 32 k - s0 = BitVec.ofNat 32 k := by simp
  rw [h, BitVec.toInt_eq_toNat_of_lt (by simp; omega), BitVec.toNat_ofNat, Nat.mod_eq_of_lt (by omega)]

@[simp] theorem cut_length {stream : ℕ → Byte} {start n : ℕ} : (cut stream start n).length = n := by simp [cut]

/-- What is copied of bytes that lie `off` from the first. -/
theorem collect_some {rv : Bool} {seq : BitVec 32} {data : List Byte} {is : Ipstate} {off : ℕ} (hs : is.isS0 rv ≠ 0)
    (ho : (seq - is.isS0 rv).toInt = off) (hoff : off ≤ 15) (hn : data.length ≠ 0) :
    collect rv seq data is = some { is with
      isSbuf := set2 is.isSbuf rv (copydata (is.isSbuf rv) off (min data.length (16 - off)) data)
      isSmsk := set2 is.isSmsk rv (is.isSmsk rv ||| (2 ^ min data.length (16 - off) - 1) <<< off) } := by
  have hd : ∀ dlen, dlen = (if 16 < data.length then 16 else data.length) →
      (if 16 < off + dlen then 16 - off else dlen) = min data.length (16 - off) := by
    intro dlen hdlen
    split <;> split at hdlen <;> omega
  unfold collect
  rw [if_neg hs, if_neg (by rw [ho]; omega), if_neg hn]
  simp only [ho, Int.toNat_natCast]
  rw [hd _ rfl, mask_eq (by omega)]

/-- What copying bytes leaves alone. -/
structure SameFlags (is is' : Ipstate) : Prop where
  isIsc : is'.isIsc = is.isIsc
  search : is'.search = is.search
  matched : is'.matched = is.matched
  isS0 : is'.isS0 = is.isS0

/-- **A segment comes:** either it has nothing of interest, or its bytes are put behind those that are there. -/
theorem arrive_cases {streams : Bool → ℕ → Byte} {sent : Bool → ℕ} {is : Ipstate} (g : Segment)
    (h : Copied streams sent is) (hb : sent g.rv + g.n < 2 ^ 31) : (g.arrive streams sent is = none ∧
      ∀ rv, got is.isS0 (set2 sent g.rv (sent g.rv + g.n)) rv = got is.isS0 sent rv) ∨
    ∃ is', g.arrive streams sent is = some is' ∧ SameFlags is is' ∧
      Copied streams (set2 sent g.rv (sent g.rv + g.n)) is' ∧
      0 < got is.isS0 (set2 sent g.rv (sent g.rv + g.n)) g.rv := by
  have hother : ∀ rv, rv ≠ g.rv → got is.isS0 (set2 sent g.rv (sent g.rv + g.n)) rv = got is.isS0 sent rv := by
    intro rv hrv
    simp [got, set2_ne hrv]
  have hoff : (is.isS0 g.rv + BitVec.ofNat 32 (sent g.rv) - is.isS0 g.rv).toInt = sent g.rv := off_eq (by omega)
  by_cases hin : is.isS0 g.rv = 0 ∨ 15 < sent g.rv ∨ g.n = 0
  · refine .inl ⟨?_, ?_⟩
    · unfold Segment.arrive collect
      simp only [hoff, cut_length]
      rcases hin with hin | hin | hin
      · rw [if_pos hin]
      · rw [if_pos (Or.inl (by exact_mod_cast hin))]
        split <;> rfl
      · rw [if_pos hin]
        split
        · rfl
        · split <;> rfl
    · intro rv
      by_cases hrv : rv = g.rv
      · subst hrv
        unfold got
        rw [set2_self]
        rcases hin with hin | hin | hin
        · rw [if_pos hin, if_pos hin]
        · split <;> omega
        · rw [hin, add_zero]
      · exact hother rv hrv
  · simp only [not_or] at hin
    obtain ⟨hs, hlt, hn⟩ := hin
    have hgot : got is.isS0 sent g.rv = sent g.rv := by
      rw [got, if_neg hs]
      omega
    have hgot' : got is.isS0 (set2 sent g.rv (sent g.rv + g.n)) g.rv = sent g.rv + min g.n (16 - sent g.rv) := by
      rw [got, if_neg hs, set2_self]
      omega
    refine .inr ⟨_, collect_some hs hoff (by omega) (by simpa using hn), ⟨rfl, rfl, rfl, rfl⟩, ⟨?_, ?_⟩, by omega⟩
    · intro rv
      by_cases hrv : rv = g.rv
      · subst hrv
        have := h.smsk g.rv
        simp only [set2_self, cut_length, hgot', this, hgot]
        exact mask_append _ _
      · simp only [set2_ne hrv, hother rv hrv]
        exact h.smsk rv
    · intro rv q hq
      by_cases hrv : rv = g.rv
      · subst hrv
        simp only [hgot'] at hq
        simp only [set2_self, cut_length, copydata]
        split
        · -- one of the new bytes
          rw [cut_getD (by omega)]
          congr 1
          omega
        · exact h.sbuf g.rv q (by omega)
      · simp only [set2_ne hrv]
        exact h.sbuf rv q (by simpa only [hother rv hrv] using hq)

theorem got_mono {s0 : Bool → BitVec 32} {sent : Bool → ℕ} {i : Bool} (rv : Bool) :
    got s0 sent rv ≤ got s0 (set2 sent i (sent i + n)) rv := by
  unfold got
  by_cases h : rv = i
  · subst h
    rw [set2_self]
    split <;> omega
  · rw [set2_ne h]

theorem got_le {s0 : Bool → BitVec 32} {sent : Bool → ℕ} (rv : Bool) : got s0 sent rv ≤ sent rv := by
  unfold got
  split <;> omega

variable {list : List Ipscan} {streams : Bool → ℕ → Byte} {sent : Bool → ℕ} {is is' : Ipstate}

/-- The bytes in a buffer fit when those of the stream do. -/
theorem Copied.fits (h : Copied streams sent is) {rv : Bool} (hl : sp.sLen ≤ got is.isS0 sent rv) :
    sp.Fits (is.isSbuf rv) ↔ sp.Fits (streams rv) :=
  Sinfo.Fits.congr fun q hq => h.sbuf rv q (by omega)

theorem Copied.whole (h : Copied streams sent is) {rv : Bool} :
    is.Whole sp rv ↔ sp.sLen ≤ got is.isS0 sent rv ∧ sp.Fits (streams rv) := by
  unfold Ipstate.Whole
  rw [h.seen rv, ipfScanMatchstr_fits]
  exact and_congr_right fun hl => h.fits hl

/-- A packet of no interest changes nothing. -/
theorem scan_ignored {g : Segment} (h : g.arrive streams sent is = none) :
    g.scan list streams sent is = (none, { is with tdEnd := g.tdEnd }) := by
  unfold Segment.arrive at h
  simp only [Segment.scan, ipfScanPacket, h]

theorem scan_copied {g : Segment} (h : g.arrive streams sent is = some is') (hs : is'.seen g.rv ≠ 0) :
    g.scan list streams sent is = ipfScanMatch list is' := by
  unfold Segment.arrive at h
  simp only [Segment.scan, ipfScanPacket, h]
  exact if_neg hs

/-! ### What a pattern is told -/

/-- The bytes of one side begin with a text, as far as they are compared. -/
def Tells (sp : Sinfo) (str : ℕ → Byte) (searching : Bool) (seen upto : ℕ) : Prop :=
  searching = true ∧ 0 < seen ∧ 0 < upto ∧ ipfScanMatchstr sp str upto = false

theorem matchstr_min : ipfScanMatchstr sp str (min n sp.sLen) = ipfScanMatchstr sp str n := by
  simp [ipfScanMatchstr]

/-- A side that begins with the text, and is not shorter than the best. -/
theorem matchSide_told {searching : Bool} {seen upto : ℕ} {maxm : Option (ℕ × ℕ)} {j : ℕ}
    (h0 : sp.sLen ≠ 0) (ht : Tells sp str searching seen upto) (hm : ∀ m ∈ maxm, m.2 ≤ min upto sp.sLen) :
    matchSide sp str searching seen upto maxm j = (true, if j < min upto sp.sLen then min upto sp.sLen else j) := by
  obtain ⟨h1, h2, h3, h4⟩ := ht
  unfold matchSide
  rw [if_neg h0, if_pos ⟨h1, by omega, h0⟩]
  exact if_pos ⟨by omega, hm, matchstr_min.trans h4⟩

theorem matchSide_silent {searching : Bool} {seen upto : ℕ} {maxm : Option (ℕ × ℕ)} {j : ℕ}
    (h0 : sp.sLen ≠ 0) (ht : ¬(Tells sp str searching seen upto ∧ ∀ m ∈ maxm, m.2 ≤ min upto sp.sLen)) :
    matchSide sp str searching seen upto maxm j = (false, j) := by
  unfold matchSide
  rw [if_neg h0]
  split
  · rename_i hs
    apply if_neg
    intro hc
    exact ht ⟨⟨hs.1, by omega, by omega, matchstr_min.symm.trans hc.2.2⟩, hc.2.1⟩
  · rfl

theorem speaks_iff {isc : Ipscan} {rv : Bool} : is.Speaks isc rv ↔ (isc.ipscSi rv).sLen = 0 ∨
    Tells (isc.ipscSi rv) (is.isSbuf rv) (is.search rv && !is.matched rv) (is.seen rv) is.cl := by
  simp only [Ipstate.Speaks, Ipstate.Opens, Tells, Bool.and_eq_true, Bool.not_eq_true', and_assoc]

/-- With no other pattern, a side of a known pattern is told just when it speaks. -/
theorem matchSide_none {isc : Ipscan} {rv : Bool} :
    (matchSide (isc.ipscSi rv) (is.isSbuf rv) (is.search rv && !is.matched rv) (is.seen rv) is.cl none 0).1 = true ↔
      is.Speaks isc rv := by
  rw [speaks_iff]
  by_cases h0 : (isc.ipscSi rv).sLen = 0
  · simp [matchSide, h0]
  · by_cases ht : Tells (isc.ipscSi rv) (is.isSbuf rv) (is.search rv && !is.matched rv) (is.seen rv) is.cl
    · rw [matchSide_told h0 ht (by simp)]
      simp [ht]
    · rw [matchSide_silent h0 (fun h => ht h.1)]
      simp [ht, h0]

/-! ### A known pattern -/

section Known

variable {isc : Ipscan} {s0 : Bool → BitVec 32} {selected : Option Ipscan}

/-- Only flags change. -/
theorem settle_eq (is : Ipstate) (rv hit : Bool) (seen len : ℕ) :
    ∃ s m, settle is rv hit seen len = { is with search := s, matched := m } := by
  unfold settle
  cases hit <;> by_cases hl : len ≤ seen <;> exact ⟨_, _, by simp only [hl]; rfl⟩

theorem scanKnown_eq (isc : Ipscan) (is : Ipstate) :
    ∃ s m, scanKnown isc is = { is with search := s, matched := m } := by
  unfold scanKnown
  obtain ⟨s, m, h⟩ := settle_eq is false (ipfScanMatchisc isc is is.cl is.sl none).1.1 is.cl isc.clen
  obtain ⟨s', m', h'⟩ := settle_eq { is with search := s, matched := m } true (ipfScanMatchisc isc is is.cl is.sl none).1.2
    is.sl isc.slen
  exact ⟨s', m', by simp only [h]; exact h'⟩

/-- The end of `ipf_scan_match` takes search flags away, and does what the pattern asks for. -/
theorem scanDone_eq (isc : Ipscan) (is : Ipstate) : ∃ pass, scanDone isc is =
    { is with search := fun rv => is.search rv && !(is.isS0 rv + 15 < is.tdEnd rv), isPass := pass } := by
  refine ⟨(scanDone isc is).isPass, ?_⟩
  unfold scanDone
  dsimp only
  split_ifs <;> rfl

theorem settle_search {rv r hit : Bool} {seen len : ℕ} :
    (settle is rv hit seen len).search r = true ↔ is.search r = true ∧ (r = rv → hit = false ∧ ¬len ≤ seen) := by
  unfold settle
  by_cases hr : r = rv
  · subst hr
    cases hit <;> by_cases hl : len ≤ seen <;> simp [hl]
  · cases hit <;> by_cases hl : len ≤ seen <;> simp [hl, hr, set2_ne hr]

theorem settle_matched {rv r hit : Bool} {seen len : ℕ} :
    (settle is rv hit seen len).matched r = true ↔ is.matched r = true ∨ r = rv ∧ hit = true := by
  unfold settle
  by_cases hr : r = rv
  · subst hr
    cases hit <;> by_cases hl : len ≤ seen <;> simp [hl]
  · cases hit <;> by_cases hl : len ≤ seen <;> simp [hl, hr, set2_ne hr]

/-- **The flags after a known pattern was looked for.** -/
theorem scanKnown_search {rv : Bool} : (scanKnown isc is).search rv = true ↔
    is.search rv = true ∧ ¬is.Speaks isc rv ∧ ¬(isc.ipscSi rv).sLen ≤ is.seen rv := by
  have hc : ((ipfScanMatchisc isc is is.cl is.sl none).1.1 = true) ↔ is.Speaks isc false := matchSide_none
  have hs : ((ipfScanMatchisc isc is is.cl is.sl none).1.2 = true) ↔ is.Speaks isc true := matchSide_none
  simp only [scanKnown, settle_search]
  cases rv
  · simp [Ipstate.cl, Ipstate.seen, Ipscan.clen, ← hc]
  · simp [Ipstate.sl, Ipstate.seen, Ipscan.slen, ← hs]

theorem scanKnown_matched {rv : Bool} : (scanKnown isc is).matched rv = true ↔
    is.matched rv = true ∨ is.Speaks isc rv := by
  have hc : ((ipfScanMatchisc isc is is.cl is.sl none).1.1 = true) ↔ is.Speaks isc false := matchSide_none
  have hs : ((ipfScanMatchisc isc is is.cl is.sl none).1.2 = true) ↔ is.Speaks isc true := matchSide_none
  simp only [scanKnown, settle_matched]
  cases rv
  · simp [← hc]
  · simp [← hs]

/-- **What holds of an entry with a known pattern.** Its flags say how far each side is. -/
structure KnownInv (isc : Ipscan) (streams : Bool → ℕ → Byte) (s0 : Bool → BitVec 32) (sent : Bool → ℕ)
    (is : Ipstate) (selected : Option Ipscan) : Prop where
  about : is.isIsc = some isc
  isS0 : is.isS0 = s0
  copied : Copied streams sent is
  search : ∀ rv, is.search rv = true ↔ got is.isS0 sent rv < (isc.ipscSi rv).sLen
  matched : ∀ rv, is.matched rv = true ↔
    (isc.ipscSi rv).sLen ≤ got is.isS0 sent rv ∧ (isc.ipscSi rv).Fits (streams rv)
  selected : selected = if (∃ rv, 0 < got is.isS0 sent rv) ∧ is.matched false = true ∧ is.matched true = true
    then some isc else none

theorem KnownInv.start {is : Ipstate} (h : Fresh is) (hi : is.isIsc = some isc) :
    KnownInv isc streams is.isS0 (fun _ => 0) is none := by
  have hg : ∀ rv, got is.isS0 (fun _ => 0) rv = 0 := by simp [got]
  refine ⟨hi, rfl, ⟨fun rv => by simp [h.smsk rv, hg], fun rv q hq => by simp [hg] at hq⟩, ?_, ?_, by simp [hg]⟩
  · intro rv
    rw [(h.known isc hi rv).1, hg]
    simp [Nat.pos_iff_ne_zero]
  · intro rv
    rw [(h.known isc hi rv).2, hg]
    simp only [decide_eq_true_eq, Nat.le_zero]
    exact ⟨fun h0 => ⟨h0, fun p hp => by omega⟩, fun h0 => h0.1⟩

/-- A side of a known pattern speaks, or is marked already, just when all of it is there and fits. -/
theorem KnownInv.speaks {sent' : Bool → ℕ} (h : KnownInv isc streams s0 sent is selected) (hf : SameFlags is is')
    (hc : Copied streams sent' is') (hm : ∀ rv, got is.isS0 sent rv ≤ got is.isS0 sent' rv)
    (hC : Careful list streams is') (rv : Bool) : (is'.matched rv = true ∨ is'.Speaks isc rv) ↔
      (isc.ipscSi rv).sLen ≤ got is.isS0 sent' rv ∧ (isc.ipscSi rv).Fits (streams rv) := by
  have hw : is'.Whole (isc.ipscSi rv) rv ↔ _ := hc.whole
  simp only [Careful, hf.isIsc, h.about] at hC
  rw [hf.isS0] at hw
  by_cases h0 : (isc.ipscSi rv).sLen = 0
  · constructor
    · intro _
      exact ⟨by omega, fun p hp => by omega⟩
    · intro _
      exact .inr (.inl h0)
  · by_cases hs : is.search rv = true
    · -- still looked for, so it is not marked
      have hlt := (h.search rv).mp hs
      have hnm : is.matched rv = false := by
        rw [Bool.eq_false_iff, ne_eq, h.matched rv]
        omega
      rw [← hf.search] at hs
      rw [← hf.matched] at hnm
      have ho := (hC rv hs).1
      rw [hw] at ho
      rw [← ho]
      simp [Ipstate.Speaks, h0, hs, hnm]
    · have hge : (isc.ipscSi rv).sLen ≤ got is.isS0 sent rv := by
        rw [h.search rv] at hs
        omega
      have hge' := hm rv
      rw [← hf.search] at hs
      have hns : ¬is'.Speaks isc rv := by simp [Ipstate.Speaks, h0, hs]
      rw [or_iff_left hns, hf.matched, h.matched rv]
      exact ⟨fun hx => ⟨by omega, hx.2⟩, fun hx => ⟨hge, hx.2⟩⟩

/-- The same number of bytes is there. -/
theorem KnownInv.same {sent' : Bool → ℕ} (h : KnownInv isc streams s0 sent is selected) (td : Bool → BitVec 32)
    (hg : ∀ rv, got is.isS0 sent' rv = got is.isS0 sent rv) :
    KnownInv isc streams s0 sent' { is with tdEnd := td } selected := by
  refine ⟨h.about, h.isS0, ⟨?_, ?_⟩, ?_, ?_, ?_⟩
  · intro rv
    simp only [hg]
    exact h.copied.smsk rv
  · intro rv
    simp only [hg]
    exact h.copied.sbuf rv
  · intro rv
    simp only [hg]
    exact h.search rv
  · intro rv
    simp only [hg]
    exact h.matched rv
  · simp only [hg]
    exact h.selected

/-- **One segment, a known pattern.** -/
theorem KnownInv.step (h : KnownInv isc streams s0 sent is selected) (g : Segment) (hb : sent g.rv + g.n < 2 ^ 31)
    (hC : ∀ is' ∈ g.arrive streams sent is, Careful list streams is') :
    KnownInv isc streams s0 (set2 sent g.rv (sent g.rv + g.n)) (g.scan list streams sent is).2
      (selected <|> if (g.scan list streams sent is).2.matched false && (g.scan list streams sent is).2.matched true
        then (g.scan list streams sent is).1 else none) := by
  have hm : ∀ rv, got is.isS0 sent rv ≤ got is.isS0 (set2 sent g.rv (sent g.rv + g.n)) rv := fun rv => got_mono rv
  rcases arrive_cases g h.copied hb with ⟨ha, hgot⟩ | ⟨is', ha, hf, hcop, hpos⟩
  · rw [scan_ignored ha]
    have hsel : (selected <|> if is.matched false && is.matched true then (none : Option Ipscan) else none) = selected := by
      simp
    simp only [hsel]
    exact h.same g.tdEnd hgot
  · have hseen : ∀ rv, is'.seen rv = got is.isS0 (set2 sent g.rv (sent g.rv + g.n)) rv := by
      intro rv
      rw [hcop.seen, hf.isS0]
    have hCa := hC is' ha
    have hsp := h.speaks hf hcop hm hCa
    have hscan : g.scan list streams sent is = (some isc, scanDone isc (scanKnown isc is')) := by
      rw [scan_copied ha (by rw [hseen]; exact Nat.pos_iff_ne_zero.mp hpos)]
      simp only [ipfScanMatch, hf.isIsc, h.about]
    obtain ⟨s, m, hk⟩ := scanKnown_eq isc is'
    obtain ⟨pass, hd⟩ := scanDone_eq isc (scanKnown isc is')
    have hmatched : ∀ rv, (scanKnown isc is').matched rv = true ↔ (isc.ipscSi rv).sLen ≤
        got is.isS0 (set2 sent g.rv (sent g.rv + g.n)) rv ∧ (isc.ipscSi rv).Fits (streams rv) := by
      intro rv
      rw [scanKnown_matched]
      exact hsp rv
    have hsearch : ∀ rv, (scanKnown isc is').search rv = true ↔
        got is.isS0 (set2 sent g.rv (sent g.rv + g.n)) rv < (isc.ipscSi rv).sLen := by
      intro rv
      rw [scanKnown_search, hf.search, h.search rv, hseen rv]
      constructor
      · intro hx
        omega
      · intro hx
        have := hm rv
        have hns : ¬is'.Speaks isc rv := by
          intro hs
          have := ((hsp rv).mp (.inr hs)).1
          omega
        exact ⟨by omega, hns, by omega⟩
    rw [hscan, hd, hk]
    rw [hk] at hmatched hsearch
    refine ⟨?_, ?_, ⟨?_, ?_⟩, ?_, ?_, ?_⟩
    · exact hf.isIsc.trans h.about
    · exact hf.isS0.trans h.isS0
    · exact hcop.smsk
    · exact hcop.sbuf
    · intro rv
      simp only [hf.isS0, Bool.and_eq_true, Bool.not_eq_true', decide_eq_false_iff_not]
      rw [hsearch rv]
      apply and_iff_left_of_imp
      intro hlt hpast
      -- `td_end` moves past the first bytes only when all of the pattern is there
      have hsr : is'.search rv = true := by
        have := hm rv
        rw [hf.search, h.search rv]
        omega
      simp only [Careful, hf.isIsc, h.about] at hCa
      have := (hCa rv hsr).2 (by rw [hf.isS0]; exact hpast)
      rw [hseen] at this
      omega
    · intro rv
      simp only [hf.isS0]
      exact hmatched rv
    · -- what was marked before is marked still
      have hmono : ∀ rv, is.matched rv = true → m rv = true := by
        intro rv hrv
        have := (h.matched rv).mp hrv
        have := hm rv
        exact (hmatched rv).mpr ⟨by omega, by tauto⟩
      have hex : ∃ rv, 0 < got is.isS0 (set2 sent g.rv (sent g.rv + g.n)) rv := ⟨_, hpos⟩
      simp only [hf.isS0, hex, true_and]
      rw [h.selected]
      by_cases hboth : m false = true ∧ m true = true
      · split <;> simp [hboth.1, hboth.2]
      · have hold : ¬((∃ rv, 0 < got is.isS0 sent rv) ∧ is.matched false = true ∧ is.matched true = true) := by
          rintro ⟨_, h1, h2⟩
          exact hboth ⟨hmono _ h1, hmono _ h2⟩
        rw [if_neg hold, if_neg (by simpa using hboth), if_neg hboth]
        rfl

end Known

/-! ### The search through all patterns -/

section Search

variable {isc : Ipscan} {rv : Bool} {m : ℕ × ℕ}

/-- A side that speaks for a pattern has all of it, and so many bytes came from the client. -/
def Ready (is : Ipstate) (isc : Ipscan) : Prop :=
  ∀ rv, is.Speaks isc rv → (isc.ipscSi rv).sLen ≤ is.seen rv ∧ (isc.ipscSi rv).sLen ≤ is.cl

/-- One side of a pattern that is ready, in a search. -/
theorem matchSide_ready {j : ℕ} (h : Ready is isc) (hs : is.Speaks isc rv)
    (h0 : (isc.ipscSi rv).sLen ≠ 0) (hm : m.2 ≤ (isc.ipscSi rv).sLen) :
    matchSide (isc.ipscSi rv) (is.isSbuf rv) (is.search rv && !is.matched rv) (is.seen rv) is.cl (some m) j =
      (true, if j < (isc.ipscSi rv).sLen then (isc.ipscSi rv).sLen else j) := by
  have ht := (speaks_iff.mp hs).resolve_left h0
  have hmin : min is.cl (isc.ipscSi rv).sLen = (isc.ipscSi rv).sLen := min_eq_right (h rv hs).2
  rw [matchSide_told h0 ht (by simpa [hmin] using hm), hmin]

theorem matchSide_unready {j : ℕ} (h0 : (isc.ipscSi rv).sLen ≠ 0)
    (hn : ¬(is.Speaks isc rv ∧ m.2 ≤ (isc.ipscSi rv).sLen)) :
    matchSide (isc.ipscSi rv) (is.isSbuf rv) (is.search rv && !is.matched rv) (is.seen rv) is.cl (some m) j = (false, j) := by
  apply matchSide_silent h0
  rintro ⟨ht, hm⟩
  have hs : is.Speaks isc rv := speaks_iff.mpr (.inr ht)
  have := hm m rfl
  exact hn ⟨hs, by omega⟩

/-- What a side that is ready says does not depend on how many bytes there are beyond it. -/
theorem matchSide_congr {j : ℕ} (h : Ready is isc) (h' : Ready is' isc) (he : is.Speaks isc rv ↔ is'.Speaks isc rv) :
    matchSide (isc.ipscSi rv) (is.isSbuf rv) (is.search rv && !is.matched rv) (is.seen rv) is.cl (some m) j =
      matchSide (isc.ipscSi rv) (is'.isSbuf rv) (is'.search rv && !is'.matched rv) (is'.seen rv) is'.cl (some m) j := by
  by_cases h0 : (isc.ipscSi rv).sLen = 0
  · simp [matchSide, h0]
  · by_cases hs : is.Speaks isc rv ∧ m.2 ≤ (isc.ipscSi rv).sLen
    · rw [matchSide_ready h hs.1 h0 hs.2, matchSide_ready h' (he.mp hs.1) h0 hs.2]
    · rw [matchSide_unready h0 hs, matchSide_unready h0 (by rwa [← he])]

theorem matchisc_congr (h : Ready is isc) (h' : Ready is' isc) (he : ∀ rv, is.Speaks isc rv ↔ is'.Speaks isc rv) :
    ipfScanMatchisc isc is is.cl is.sl (some m) = ipfScanMatchisc isc is' is'.cl is'.sl (some m) := by
  have hc : ∀ j, matchSide (isc.ipscSi false) (is.isSbuf false) (is.search false && !is.matched false) is.cl is.cl
      (some m) j =
      matchSide (isc.ipscSi false) (is'.isSbuf false) (is'.search false && !is'.matched false) is'.cl is'.cl (some m) j :=
    fun j => matchSide_congr h h' (he false)
  have hs : ∀ j, matchSide (isc.ipscSi true) (is.isSbuf true) (is.search true && !is.matched true) is.sl is.cl (some m) j =
      matchSide (isc.ipscSi true) (is'.isSbuf true) (is'.search true && !is'.matched true) is'.sl is'.cl (some m) j :=
    fun j => matchSide_congr h h' (he true)
  simp only [ipfScanMatchisc, Option.getD_some, hc, hs]

/-- A side whose bit is set speaks for the pattern. -/
theorem matchSide_speaks {maxm : Option (ℕ × ℕ)} {j : ℕ}
    (h : (matchSide (isc.ipscSi rv) (is.isSbuf rv) (is.search rv && !is.matched rv) (is.seen rv) is.cl maxm j).1 = true) :
    is.Speaks isc rv := by
  by_cases h0 : (isc.ipscSi rv).sLen = 0
  · exact .inl h0
  · rw [speaks_iff]
    right
    by_contra hn
    rw [matchSide_silent h0 (fun hc => hn hc.1)] at h
    exact Bool.false_ne_true h

theorem matchisc_speaks {maxm : Option (ℕ × ℕ)} :
    ((ipfScanMatchisc isc is is.cl is.sl maxm).1.1 = true → is.Speaks isc false) ∧
    ((ipfScanMatchisc isc is is.cl is.sl maxm).1.2 = true → is.Speaks isc true) := by
  unfold ipfScanMatchisc
  split
  · simp
  · exact ⟨fun h => matchSide_speaks h, fun h => matchSide_speaks h⟩

/-- A pattern both sides speak for wins while none before it did. -/
theorem matchisc_both (h : Ready is isc) (hc : is.Speaks isc false) (hs : is.Speaks isc true) :
    (ipfScanMatchisc isc is is.cl is.sl (some (0, 0))).1 = (true, true) := by
  have hone : ∀ rv, is.Speaks isc rv → ∀ j, (matchSide (isc.ipscSi rv) (is.isSbuf rv) (is.search rv && !is.matched rv)
      (is.seen rv) is.cl (some (0, 0)) j).1 = true := by
    intro rv hrv j
    by_cases h0 : (isc.ipscSi rv).sLen = 0
    · simp [matchSide, h0]
    · rw [matchSide_ready h hrv h0 (Nat.zero_le _)]
  have h1 := hone false hc 0
  have h2 := hone true hs 0
  unfold ipfScanMatchisc
  rw [if_neg (by simp)]
  exact Prod.ext h1 h2

theorem matchisc_maxm (h : (ipfScanMatchisc isc is is.cl is.sl (some m)).1 ≠ (true, true)) :
    (ipfScanMatchisc isc is is.cl is.sl (some m)).2 = some m := by
  unfold ipfScanMatchisc at h ⊢
  split
  · rfl
  · rename_i hn
    rw [if_neg hn] at h
    apply if_neg
    intro hb
    exact h (Prod.ext hb.1 hb.2)

/-- What stays true of the best pattern while the patterns of a list are offered. -/
theorem foldl_keeps {P : Best → Prop} {l : List Ipscan} {b : Best} (hb : P b)
    (h : ∀ b, P b → ∀ isc ∈ l, P (b.offer is isc)) : P (l.foldl (Best.offer is) b) := by
  induction l generalizing b with
  | nil => exact hb
  | cons isc l ih =>
    apply ih (h b hb isc (by simp))
    intro b hb isc' hmem
    exact h b hb isc' (by simp [hmem])

/-- When no side speaks for any pattern, none is found. -/
theorem best_silent (h : ∀ isc ∈ list, ∀ rv, ¬is.Speaks isc rv) :
    best list is = ⟨(false, false), 0, none, (0, 0)⟩ := by
  apply foldl_keeps (P := fun b => b = ⟨(false, false), 0, none, (0, 0)⟩) rfl
  intro b hb isc hmem
  have hr : (ipfScanMatchisc isc is is.cl is.sl (some (0, 0))).1 = (false, false) := by
    apply Prod.ext
    · rw [Bool.eq_false_iff]
      exact fun hc => h isc hmem false (matchisc_speaks.1 hc)
    · rw [Bool.eq_false_iff]
      exact fun hc => h isc hmem true (matchisc_speaks.2 hc)
  have hx : (ipfScanMatchisc isc is is.cl is.sl (some (0, 0))).2 = some (0, 0) := matchisc_maxm (by simp [hr])
  subst hb
  simp only [Best.offer, hr, hx, true_or, if_true, Option.getD_some]

/-- The pattern that is found is one of the list, and the sides speak for it as it says. -/
theorem best_lm (list : List Ipscan) (is : Ipstate) : (best list is).j = (false, false) ∧ (best list is).lm = none ∨
    ∃ isc ∈ list, (best list is).lm = some isc ∧ ((best list is).j.1 = true → is.Speaks isc false) ∧
      ((best list is).j.2 = true → is.Speaks isc true) := by
  apply foldl_keeps (P := fun b => b.j = (false, false) ∧ b.lm = none ∨
    ∃ isc ∈ list, b.lm = some isc ∧ (b.j.1 = true → is.Speaks isc false) ∧ (b.j.2 = true → is.Speaks isc true))
  · exact .inl ⟨rfl, rfl⟩
  · intro b hb isc hmem
    unfold Best.offer
    dsimp only
    split
    · exact hb
    · exact .inr ⟨isc, hmem, rfl, matchisc_speaks.1, matchisc_speaks.2⟩

/-- A match of both sides is kept, whatever comes after it. -/
theorem offer_j {b : Best} : (b.offer is isc).j = (true, true) ↔
    b.j = (true, true) ∨ (ipfScanMatchisc isc is is.cl is.sl (some b.maxm)).1 = (true, true) := by
  unfold Best.offer
  dsimp only
  by_cases hb : b.j = (true, true) <;>
    by_cases hr : (ipfScanMatchisc isc is is.cl is.sl (some b.maxm)).1 = (true, true)
  · simp [hb, hr]
  · simp [hb, hr]
  · simp [hb, hr]
  · by_cases h0 : (ipfScanMatchisc isc is is.cl is.sl (some b.maxm)).1 = (false, false)
    · simp [hb, h0]
    · simp [hb, hr, h0]

theorem offer_maxm {b : Best} (h : (b.offer is isc).j ≠ (true, true)) : (b.offer is isc).maxm = b.maxm := by
  have hr := matchisc_maxm (fun hr => h (offer_j.mpr (.inr hr)))
  unfold Best.offer
  dsimp only
  rw [hr]
  split <;> rfl

/-- **If both sides speak for a pattern, a search ends with one of these.** -/
theorem best_both (h : ∀ isc ∈ list, Ready is isc) (hj : (best list is).j ≠ (true, true)) :
    ∀ isc ∈ list, ¬(is.Speaks isc false ∧ is.Speaks isc true) := by
  have key : ∀ l : List Ipscan, (∀ isc ∈ l, Ready is isc) → ∀ b : Best, b.j = (true, true) ∨ b.maxm = (0, 0) →
      (l.foldl (Best.offer is) b).j ≠ (true, true) →
      b.j ≠ (true, true) ∧ ∀ isc ∈ l, ¬(is.Speaks isc false ∧ is.Speaks isc true) := by
    intro l
    induction l with
    | nil =>
      intro _ b _ hne
      exact ⟨hne, by simp⟩
    | cons isc l ih =>
      intro hl b hb hne
      have hnext : (b.offer is isc).j = (true, true) ∨ (b.offer is isc).maxm = (0, 0) := by
        by_cases hn : (b.offer is isc).j = (true, true)
        · exact .inl hn
        · have hbj : b.j ≠ (true, true) := fun h => hn (offer_j.mpr (.inl h))
          exact .inr ((offer_maxm hn).trans (hb.resolve_left hbj))
      obtain ⟨h1, h2⟩ := ih (fun isc' hm => hl isc' (by simp [hm])) (b.offer is isc) hnext hne
      rw [ne_eq, offer_j, not_or] at h1
      refine ⟨h1.1, ?_⟩
      intro isc' hm
      rcases List.mem_cons.mp hm with rfl | hm
      · rintro ⟨hc, hs⟩
        apply h1.2
        rw [hb.resolve_left h1.1]
        exact matchisc_both (hl isc' (by simp)) hc hs
      · exact h2 isc' hm
  exact (key list h _ (.inr rfl) hj).2

theorem best_congr (h : ∀ isc ∈ list, Ready is isc) (h' : ∀ isc ∈ list, Ready is' isc)
    (he : ∀ isc ∈ list, ∀ rv, is.Speaks isc rv ↔ is'.Speaks isc rv) : best list is = best list is' := by
  unfold best
  apply List.foldl_ext
  intro b isc hmem
  simp only [Best.offer, matchisc_congr (h isc hmem) (h' isc hmem) (he isc hmem)]

theorem ipfScanMatch_found {e : Ipstate} (h : is.isIsc = none) (hs : scanList list is = some (isc, e)) :
    ipfScanMatch list is = (some isc, scanDone isc e) := by
  unfold ipfScanMatch
  rw [h]
  simp only [hs]

/-- What the search does to an entry without a known pattern: nothing, or it takes search flags away, and marks both sides when
both spoke for the one pattern that is left. -/
theorem ipfScanMatch_list (list : List Ipscan) (h : is.isIsc = none) :
    ((best list is).k ≠ 1 ∨ (best list is).lm = none) ∧ ipfScanMatch list is = (none, is) ∨
    ∃ isc s pass, (best list is).k = 1 ∧ (best list is).lm = some isc ∧ (∀ rv, s rv = true → is.search rv = true) ∧
      ipfScanMatch list is = (some isc, { is with
        search := s
        matched := if (best list is).j = (true, true) then fun _ => true else is.matched
        isPass := pass }) := by
  by_cases hk : (best list is).k = 1
  · cases hl : (best list is).lm with
    | none =>
      refine .inl ⟨.inr rfl, ?_⟩
      have hs : scanList list is = none := by simp [scanList, hk, hl]
      simp only [ipfScanMatch, h, hs]
    | some isc =>
      right
      obtain ⟨s, hs, hsub⟩ : ∃ s, scanList list is = some (isc, { is with
          search := s
          matched := if (best list is).j = (true, true) then fun _ => true else is.matched }) ∧
          ∀ rv, s rv = true → is.search rv = true := by
        obtain ⟨⟨j1, j2⟩, hj⟩ : ∃ j, (best list is).j = j := ⟨_, rfl⟩
        cases j1 <;> cases j2 <;>
          refine ⟨_, by simp [scanList, hk, hl, hj]; rfl, ?_⟩ <;> intro rv <;> cases rv <;> simp [set2]
      obtain ⟨pass, hd⟩ := scanDone_eq isc { is with
        search := s, matched := if (best list is).j = (true, true) then fun _ => true else is.matched }
      refine ⟨isc, _, pass, hk, rfl, ?_, by rw [ipfScanMatch_found h hs, hd]⟩
      intro rv hrv
      exact hsub rv (Bool.and_eq_true_iff.mp hrv).1
  · refine .inl ⟨.inl hk, ?_⟩
    have hs : scanList list is = none := by simp [scanList, hk]
    simp only [ipfScanMatch, h, hs]

/-! ### All bytes of both sides -/

theorem full_seen (rv : Bool) : (full streams is).seen rv = if is.isS0 rv = 0 then 0 else 16 := by
  unfold full Ipstate.seen
  dsimp only
  split
  · exact ones_pow 0
  · exact ones_pow 16

/-- What speaks in the end. -/
theorem full_speaks : (full streams is).Speaks isc rv ↔ (isc.ipscSi rv).sLen = 0 ∨
    is.search rv = true ∧ is.matched rv = false ∧ is.isS0 rv ≠ 0 ∧ is.isS0 false ≠ 0 ∧
      (isc.ipscSi rv).Fits (streams rv) := by
  have hcl : (full streams is).cl = if is.isS0 false = 0 then 0 else 16 := full_seen false
  simp only [Ipstate.Speaks, Ipstate.Opens, full_seen, hcl]
  apply or_congr_right
  refine and_congr_right fun _ => and_congr_right fun _ => ?_
  by_cases hr : is.isS0 rv = 0
  · simp [hr]
  · by_cases hc : is.isS0 false = 0
    · simp [hc]
    · have hle : (isc.ipscSi rv).sLen ≤ 16 := (isc.ipscSi rv).le
      simp only [hr, hc, if_false, Nat.ofNat_pos, ne_eq, not_false_eq_true, true_and]
      have hbuf : (full streams is).isSbuf rv = streams rv := if_neg hr
      rw [ipfScanMatchstr_cap hle, ipfScanMatchstr_fits, hbuf]

theorem full_ready : Ready (full streams is) isc := by
  intro rv hs
  have hcl : (full streams is).cl = if is.isS0 false = 0 then 0 else 16 := full_seen false
  have hle : (isc.ipscSi rv).sLen ≤ 16 := (isc.ipscSi rv).le
  rw [full_seen, hcl]
  rcases full_speaks.mp hs with h0 | ⟨_, _, h1, h2, _⟩
  · omega
  · rw [if_neg h1, if_neg h2]
    exact ⟨hle, hle⟩

/-- Once all bytes are there, a side speaks for what it speaks for in the end. -/
theorem Copied.speaks_full (h : Copied streams sent is) (hall : ∀ rv, is.isS0 rv ≠ 0 → got is.isS0 sent rv = 16)
    : is.Speaks isc rv ↔ (full streams is).Speaks isc rv := by
  have hseen : ∀ r, is.seen r = if is.isS0 r = 0 then 0 else 16 := by
    intro r
    rw [h.seen]
    split
    · simp_all [got]
    · exact hall r (by assumption)
  have hcl : is.cl = if is.isS0 false = 0 then 0 else 16 := hseen false
  rw [full_speaks]
  simp only [Ipstate.Speaks, Ipstate.Opens, hseen, hcl]
  apply or_congr_right
  refine and_congr_right fun _ => and_congr_right fun _ => ?_
  by_cases hr : is.isS0 rv = 0
  · simp [hr]
  · by_cases hc : is.isS0 false = 0
    · simp [hc]
    · have hle : (isc.ipscSi rv).sLen ≤ 16 := (isc.ipscSi rv).le
      simp only [hr, hc, if_false, Nat.ofNat_pos, ne_eq, not_false_eq_true, true_and]
      rw [ipfScanMatchstr_cap hle, ipfScanMatchstr_fits]
      exact h.fits (by rw [hall rv hr]; exact hle)

/-- The pattern that is selected when all bytes are there at once. -/
def picks (list : List Ipscan) (streams : Bool → ℕ → Byte) (is : Ipstate) : Option Ipscan :=
  let b := best list (full streams is)
  if b.k = 1 ∧ b.j = (true, true) then b.lm else none

/-- Only the flags and the streams matter for what speaks in the end. -/
theorem full_speaks_congr {is₀ : Ipstate} (hs : is.search = is₀.search)
    (hm : ∀ r, is.matched r = is₀.matched r) (h0 : is.isS0 = is₀.isS0) :
    (full streams is).Speaks isc rv ↔ (full streams is₀).Speaks isc rv := by
  rw [full_speaks, full_speaks, hs, hm, h0]

/-- All bytes that are looked at are there. -/
def Complete (sent : Bool → ℕ) (is : Ipstate) : Prop := ∀ rv, is.isS0 rv ≠ 0 → got is.isS0 sent rv = 16

/-- Nothing spoke for any pattern, or for too many. -/
structure Undecided (list : List Ipscan) (streams : Bool → ℕ → Byte) (is₀ : Ipstate) (sent : Bool → ℕ)
    (is : Ipstate) (selected : Option Ipscan) : Prop where
  search : is.search = is₀.search
  matched : ∀ rv, is.matched rv = false
  selected : selected = none
  complete : Complete sent is → (∃ rv, is.isS0 rv ≠ 0) → picks list streams is₀ = none

/-- A side is no longer searched for, and nothing can match. -/
structure Failed (list : List Ipscan) (streams : Bool → ℕ → Byte) (is₀ is : Ipstate) (selected : Option Ipscan) :
    Prop where
  search : ∀ rv, is.search rv = true → is₀.search rv = true
  matched : ∀ rv, is.matched rv = false
  selected : selected = none
  picks : picks list streams is₀ = none
  started : ∃ rv, is.isS0 rv ≠ 0
  hopeless : ∀ isc ∈ list, ¬((full streams is₀).Speaks isc false ∧ (full streams is₀).Speaks isc true)

/-- A pattern is found. -/
structure Found (list : List Ipscan) (streams : Bool → ℕ → Byte) (is₀ : Ipstate) (sent : Bool → ℕ) (is : Ipstate)
    (selected : Option Ipscan) (isc : Ipscan) : Prop where
  matched : ∀ rv, is.matched rv = true
  selected : selected = some isc
  picks : ContentScan.picks list streams is₀ = some isc
  started : ∃ rv, is.isS0 rv ≠ 0
  fits : ∀ rv, (isc.ipscSi rv).sLen ≤ got is.isS0 sent rv ∧ (isc.ipscSi rv).Fits (streams rv)

/-- **What holds of an entry without a known pattern.** -/
structure ListInv (list : List Ipscan) (streams : Bool → ℕ → Byte) (is₀ : Ipstate) (sent : Bool → ℕ) (is : Ipstate)
    (selected : Option Ipscan) : Prop where
  about : is.isIsc = none
  copied : Copied streams sent is
  isS0 : is.isS0 = is₀.isS0
  phase : Undecided list streams is₀ sent is selected ∨ Failed list streams is₀ is selected ∨
    ∃ isc, Found list streams is₀ sent is selected isc

variable {is₀ : Ipstate} {selected : Option Ipscan} {sent' : Bool → ℕ}

theorem ListInv.start (h : Fresh is₀) (hi : is₀.isIsc = none) : ListInv list streams is₀ (fun _ => 0) is₀ none := by
  have hg : ∀ rv, got is₀.isS0 (fun _ => 0) rv = 0 := by simp [got]
  refine ⟨hi, ⟨fun rv => by simp [h.smsk rv, hg], fun rv q hq => by simp [hg] at hq⟩, rfl,
    .inl ⟨rfl, h.unknown hi, rfl, ?_⟩⟩
  rintro hall ⟨rv, hrv⟩
  have := hall rv hrv
  rw [hg] at this
  omega

/-- The same number of bytes is there. -/
theorem ListInv.same (h : ListInv list streams is₀ sent is selected) (td : Bool → BitVec 32)
    (hg : ∀ rv, got is.isS0 sent' rv = got is.isS0 sent rv) :
    ListInv list streams is₀ sent' { is with tdEnd := td } selected := by
  refine ⟨h.about, ⟨?_, ?_⟩, h.isS0, ?_⟩
  · intro rv
    simp only [hg]
    exact h.copied.smsk rv
  · intro rv
    simp only [hg]
    exact h.copied.sbuf rv
  · rcases h.phase with hu | hf | ⟨isc, hf⟩
    · refine .inl ⟨hu.search, hu.matched, hu.selected, ?_⟩
      intro hall
      exact hu.complete fun rv hrv => (hg rv).symm.trans (hall rv hrv)
    · exact .inr (.inl ⟨hf.search, hf.matched, hf.selected, hf.picks, hf.started, hf.hopeless⟩)
    · refine .inr (.inr ⟨isc, hf.matched, hf.selected, hf.picks, hf.started, ?_⟩)
      intro rv
      simp only [hg]
      exact hf.fits rv

/-- What was found of a pattern was all of it. -/
theorem Ready.fits (h : Ready is' isc) (hc : Copied streams sent' is') (hs : is'.Speaks isc rv) :
    (isc.ipscSi rv).sLen ≤ got is'.isS0 sent' rv ∧ (isc.ipscSi rv).Fits (streams rv) := by
  obtain ⟨h1, h2⟩ := h rv hs
  rw [← hc.whole]
  refine ⟨h1, ?_⟩
  rcases hs with h0 | ⟨_, _, _, _, ho⟩
  · rw [ipfScanMatchstr_fits]
    intro p hp
    omega
  · rwa [ipfScanMatchstr_cap h2] at ho

/-- **One segment, nothing known and nothing decided.** -/
theorem Undecided.step (h : Undecided list streams is₀ sent is selected) (hn : is.isIsc = none)
    (hi : is.isS0 = is₀.isS0) (hm0 : ∀ rv, is₀.matched rv = false) (hf : SameFlags is is')
    (hcop : Copied streams sent' is') (hst : ∃ rv, is'.isS0 rv ≠ 0) (hC : Careful list streams is') :
    let r := ipfScanMatch list is'
    let sel := if r.2.matched false && r.2.matched true then r.1 else none
    Undecided list streams is₀ sent' r.2 sel ∨ Failed list streams is₀ r.2 sel ∨
      ∃ isc, Found list streams is₀ sent' r.2 sel isc := by
  have hn' : is'.isIsc = none := hf.isIsc.trans hn
  have hm' : ∀ rv, is'.matched rv = false := by
    intro rv
    rw [hf.matched, h.matched]
  have hsearch : is'.search = is₀.search := hf.search.trans h.search
  simp only [Careful, hn', hm', Bool.and_self, forall_const] at hC
  obtain ⟨hready, hend⟩ := hC
  have hfull : ∀ isc : Ipscan, ∀ rv, (full streams is').Speaks isc rv ↔ (full streams is₀).Speaks isc rv := by
    intro isc rv
    apply full_speaks_congr hsearch
    · intro r
      rw [hm', hm0]
    · exact hf.isS0.trans hi
  -- what the search finds now, unless it is silent, is what it finds in the end
  have hbest : (∃ isc ∈ list, ∃ rv, is'.Speaks isc rv) ∨ Complete sent' is' →
      best list is' = best list (full streams is₀) := by
    intro hor
    apply best_congr hready fun isc _ => full_ready
    intro isc hmem rv
    rw [← hfull isc rv]
    rcases hor with hex | hall
    · exact hend hex isc hmem rv
    · exact hcop.speaks_full hall
  simp only
  rcases ipfScanMatch_list list hn' with ⟨hno, he⟩ | ⟨isc, s, pass, hk, hl, hsub, he⟩
  · rw [he]
    refine .inl ⟨hsearch, hm', by simp, ?_⟩
    intro hall _
    rw [hbest (.inr hall)] at hno
    unfold picks
    rcases hno with hno | hno
    · simp [hno]
    · simp [hno]
  · have hspoken : ∃ isc ∈ list, ∃ rv, is'.Speaks isc rv := by
      by_contra hsil
      push Not at hsil
      rw [best_silent hsil] at hl
      exact absurd hl (by simp)
    have hb := hbest (.inl hspoken)
    rw [he]
    by_cases hj : (best list is').j = (true, true)
    · -- both sides spoke for the pattern
      obtain ⟨isc', hmem, hl', hc, hs⟩ := (best_lm list is').resolve_left (by rw [hj]; simp)
      obtain rfl : isc = isc' := by simpa [hl] using hl'
      have hrdy : Ready is' isc := hready isc hmem
      refine .inr (.inr ⟨isc, ?_, ?_, ?_, hst, ?_⟩)
      · simp [hj]
      · simp [hj]
      · unfold picks
        rw [← hb]
        simp [hk, hj, hl]
      · intro rv
        cases rv
        · exact hrdy.fits hcop (hc (by rw [hj]))
        · exact hrdy.fits hcop (hs (by rw [hj]))
    · refine .inr (.inl ⟨?_, ?_, ?_, ?_, hst, ?_⟩)
      · intro rv hrv
        rw [← hsearch]
        exact hsub rv hrv
      · simpa [hj] using hm'
      · simp [hj, hm']
      · unfold picks
        rw [← hb]
        simp [hj]
      · rw [hb] at hj
        exact best_both (fun _ _ => full_ready) hj

/-- After a side was given up, nothing matches. -/
theorem Failed.step (h : Failed list streams is₀ is selected) (hn : is.isIsc = none) (hi : is.isS0 = is₀.isS0)
    (hm0 : ∀ rv, is₀.matched rv = false) (hf : SameFlags is is') (hC : Careful list streams is') :
    let r := ipfScanMatch list is'
    Failed list streams is₀ r.2 (if r.2.matched false && r.2.matched true then r.1 else none) := by
  have hn' : is'.isIsc = none := hf.isIsc.trans hn
  have hm' : ∀ rv, is'.matched rv = false := by
    intro rv
    rw [hf.matched, h.matched]
  simp only [Careful, hn', hm', Bool.and_self, forall_const] at hC
  obtain ⟨hready, hend⟩ := hC
  have hj : (best list is').j ≠ (true, true) := by
    intro hj
    obtain ⟨isc, hmem, _, hc, hs⟩ := (best_lm list is').resolve_left (by rw [hj]; simp)
    have hc' := hc (by rw [hj])
    have hs' := hs (by rw [hj])
    have hto : ∀ rv, is'.Speaks isc rv → (full streams is₀).Speaks isc rv := by
      intro rv hrv
      have := full_speaks.mp ((hend ⟨isc, hmem, rv, hrv⟩ isc hmem rv).mp hrv)
      rw [full_speaks]
      refine this.imp_right ?_
      rintro ⟨h1, _, h3, h4, h5⟩
      rw [hf.isS0, hi] at h3 h4
      rw [hf.search] at h1
      exact ⟨h.search rv h1, hm0 rv, h3, h4, h5⟩
    exact h.hopeless isc hmem ⟨hto _ hc', hto _ hs'⟩
  have hst : ∃ rv, is'.isS0 rv ≠ 0 := by
    rw [hf.isS0]
    exact h.started
  simp only
  rcases ipfScanMatch_list list hn' with ⟨_, he⟩ | ⟨isc, s, pass, _, _, hsub, he⟩
  · rw [he]
    refine ⟨?_, hm', by simp, h.picks, hst, h.hopeless⟩
    intro rv hrv
    rw [hf.search] at hrv
    exact h.search rv hrv
  · rw [he]
    refine ⟨?_, ?_, ?_, h.picks, hst, h.hopeless⟩
    · intro rv hrv
      have := hsub rv hrv
      rw [hf.search] at this
      exact h.search rv this
    · simpa [hj] using hm'
    · simp [hj, hm']

/-- A pattern that was found stays. -/
theorem Found.step (h : Found list streams is₀ sent is selected isc) (hn : is.isIsc = none)
    (hf : SameFlags is is') (hm : ∀ rv, got is.isS0 sent rv ≤ got is.isS0 sent' rv) (x : Option Ipscan) :
    Found list streams is₀ sent' (ipfScanMatch list is').2 (selected <|> x) isc := by
  have hn' : is'.isIsc = none := hf.isIsc.trans hn
  have hm' : ∀ rv, is'.matched rv = true := by
    intro rv
    rw [hf.matched, h.matched]
  have hst : ∃ rv, is'.isS0 rv ≠ 0 := by
    rw [hf.isS0]
    exact h.started
  have hfits : ∀ rv, (isc.ipscSi rv).sLen ≤ got is'.isS0 sent' rv ∧ (isc.ipscSi rv).Fits (streams rv) := by
    intro rv
    have := hm rv
    have := h.fits rv
    rw [hf.isS0]
    exact ⟨by omega, this.2⟩
  have hsel : (selected <|> x) = some isc := by simp [h.selected]
  rcases ipfScanMatch_list list hn' with ⟨_, he⟩ | ⟨isc', s, pass, _, _, hsub, he⟩
  · rw [he]
    exact ⟨hm', hsel, h.picks, hst, hfits⟩
  · rw [he]
    refine ⟨?_, hsel, h.picks, hst, hfits⟩
    intro rv
    dsimp only
    split
    · rfl
    · exact hm' rv

/-- **One segment, no known pattern.** -/
theorem ListInv.step (h : ListInv list streams is₀ sent is selected) (hm0 : ∀ rv, is₀.matched rv = false) (g : Segment)
    (hb : sent g.rv + g.n < 2 ^ 31) (hC : ∀ is' ∈ g.arrive streams sent is, Careful list streams is') :
    ListInv list streams is₀ (set2 sent g.rv (sent g.rv + g.n)) (g.scan list streams sent is).2
      (selected <|> if (g.scan list streams sent is).2.matched false && (g.scan list streams sent is).2.matched true
        then (g.scan list streams sent is).1 else none) := by
  rcases arrive_cases g h.copied hb with ⟨ha, hgot⟩ | ⟨is', ha, hf, hcop, hpos⟩
  · rw [scan_ignored ha]
    have hsel : (selected <|> if is.matched false && is.matched true then (none : Option Ipscan) else none) = selected := by
      simp
    simp only [hsel]
    exact h.same g.tdEnd hgot
  · have hCa := hC is' ha
    have hn' : is'.isIsc = none := hf.isIsc.trans h.about
    have hst : ∃ rv, is'.isS0 rv ≠ 0 := by
      refine ⟨g.rv, ?_⟩
      intro h0
      rw [hf.isS0] at h0
      simp [got, h0] at hpos
    rw [scan_copied ha (by rw [hcop.seen, hf.isS0]; exact Nat.pos_iff_ne_zero.mp hpos)]
    obtain ⟨s, m, pass, he⟩ : ∃ s m pass, (ipfScanMatch list is').2 =
        { is' with search := s, matched := m, isPass := pass } := by
      rcases ipfScanMatch_list list hn' with ⟨_, he⟩ | ⟨isc, s, pass, _, _, _, he⟩ <;> rw [he] <;>
        exact ⟨_, _, _, rfl⟩
    refine ⟨?_, ?_, ?_, ?_⟩
    · rw [he]
      exact hn'
    · rw [he]
      exact ⟨hcop.smsk, hcop.sbuf⟩
    · rw [he]
      exact hf.isS0.trans h.isS0
    · rcases h.phase with hu | hx | ⟨isc, hx⟩
      · rw [hu.selected]
        exact hu.step h.about h.isS0 hm0 hf hcop hst hCa
      · rw [hx.selected]
        exact .inr (.inl (hx.step h.about h.isS0 hm0 hf hCa))
      · exact .inr (.inr ⟨isc, hx.step h.about hf (fun rv => got_mono rv) _⟩)

end Search

/-! ### Whole connections -/

section Connections

variable {isc : Ipscan} {is₀ : Ipstate} {selected : Option Ipscan}

theorem Run.known (hf : Fresh is₀) (hi : is₀.isIsc = some isc)
    (h : Run list streams (Careful list streams) is₀ is sent selected) :
    KnownInv isc streams is₀.isS0 sent is selected := by
  induction h with
  | start => exact KnownInv.start hf hi
  | segment g _ hb hC ih => exact ih.step g hb hC

theorem Run.unknown (hf : Fresh is₀) (hi : is₀.isIsc = none)
    (h : Run list streams (Careful list streams) is₀ is sent selected) : ListInv list streams is₀ sent is selected := by
  induction h with
  | start => exact ListInv.start hf hi
  | segment g _ hb hC ih => exact ih.step (hf.unknown hi) g hb hC

/-- **Flags are set for bytes that were all seen and fit.** -/
theorem marks (hf : Fresh is₀) : Marks list streams (Careful list streams) is₀ := by
  intro is sent selected h rv hrv
  unfold Ipstate.about
  cases hi : is₀.isIsc with
  | some isc =>
    obtain ⟨h1, h2⟩ := ((h.known hf hi).matched rv).mp hrv
    exact ⟨isc, rfl, h1.trans (got_le rv), h2⟩
  | none =>
    rcases (h.unknown hf hi).phase with hu | hx | ⟨isc, hx⟩
    · rw [hu.matched] at hrv
      exact absurd hrv (by simp)
    · rw [hx.matched] at hrv
      exact absurd hrv (by simp)
    · exact ⟨isc, by rw [hx.selected]; rfl, (hx.fits rv).1.trans (got_le rv), (hx.fits rv).2⟩

/-- With 16 bytes of both sides, all that are looked at are there. -/
theorem got_all {s0 : Bool → BitVec 32} (h : ∀ rv, 16 ≤ sent rv) (rv : Bool) :
    got s0 sent rv = if s0 rv = 0 then 0 else 16 := by
  unfold got
  rw [min_eq_right (h rv)]

/-- **The same pattern for every segmentation.** -/
theorem agrees (hf : Fresh is₀) : Agrees list streams (Careful list streams) is₀ := by
  intro is is' sent sent' selected selected' h h' hs hs'
  cases hi : is₀.isIsc with
  | some isc =>
    have hk := h.known hf hi
    have hk' := h'.known hf hi
    have hm : ∀ rv, is.matched rv = true ↔ is'.matched rv = true := by
      intro rv
      rw [hk.matched, hk'.matched, hk.isS0, hk'.isS0, got_all hs, got_all hs']
    rw [hk.selected, hk'.selected]
    simp only [hm, hk.isS0, hk'.isS0, got_all hs, got_all hs']
  | none =>
    have hl := h.unknown hf hi
    have hl' := h'.unknown hf hi
    by_cases hst : ∃ rv, is₀.isS0 rv ≠ 0
    · have hend : ∀ {is : Ipstate} {sent : Bool → ℕ} {selected : Option Ipscan}, (∀ rv, 16 ≤ sent rv) →
          ListInv list streams is₀ sent is selected → selected = picks list streams is₀ := by
        intro is sent selected hs hl
        rcases hl.phase with hu | hx | ⟨isc, hx⟩
        · rw [hu.selected, hu.complete _ (by rw [hl.isS0]; exact hst)]
          intro rv hrv
          rw [got_all hs, if_neg hrv]
        · rw [hx.selected, hx.picks]
        · rw [hx.selected, hx.picks]
      rw [hend hs hl, hend hs' hl']
    · have hend : ∀ {is : Ipstate} {sent : Bool → ℕ} {selected : Option Ipscan},
          ListInv list streams is₀ sent is selected → selected = none := by
        intro is sent selected hl
        rcases hl.phase with hu | hx | ⟨isc, hx⟩
        · exact hu.selected
        · exact hx.selected
        · exact absurd (hl.isS0 ▸ hx.started) hst
      rw [hend hl, hend hl']

/-- **Content scanning,** while the careful branches are taken: no flag is set too early or for other bytes, and the pattern
that is selected is the same for all ways to cut the streams. -/
theorem scan_selects (hf : Fresh is₀) : Marks list streams (Careful list streams) is₀ ∧
    Agrees list streams (Careful list streams) is₀ :=
  ⟨marks hf, agrees hf⟩

end Connections

/-! ### A pattern of two bytes -/

/-- A text that is compared as it is. -/
def textOf (l : List Byte) (h : l.length ≤ ISC_TLEN) : Sinfo := ⟨fun i => l.getD i 0, fun _ => 0x2e#8, l.length, h⟩

/-- `AB` from the client, nothing from the server. -/
def twoBytes : Ipscan :=
  ⟨fun rv => if rv then textOf [] (by decide) else textOf [0x41#8, 0x42#8] (by decide), .close, .none⟩

/-- A connection that was just made. -/
def newConn : Ipstate where
  isIsc := some twoBytes
  search rv := !rv
  matched rv := rv
  isS0 _ := 1000#32
  isSmsk _ := 0
  isSbuf _ _ := 0
  tdEnd _ := 1000#32
  isPass := 0

/-- The client sends `AB`, and more. -/
def abStreams : Bool → ℕ → Byte := fun _ i => if i = 0 then 0x41#8 else 0x42#8

/-- The first `n` bytes of the client. -/
def abSegment (n : ℕ) : Segment := ⟨false, n, fun _ => 1000#32 + BitVec.ofNat 32 n⟩

theorem newConn_fresh : Fresh newConn := by
  refine ⟨fun rv => rfl, ?_, fun h => absurd h (by simp [newConn])⟩
  intro isc hi rv
  obtain rfl : twoBytes = isc := by simpa [newConn] using hi
  cases rv <;> simp [newConn, twoBytes, textOf]

theorem newConn_copied : Copied abStreams (fun _ => 0) newConn := by
  refine ⟨fun rv => ?_, fun rv q hq => ?_⟩
  · simp [got, newConn]
  · simp [got] at hq

/-- **The first one or two bytes** begin the pattern, and mark the client's side. -/
theorem abSegment_marks (h1 : 1 ≤ n) (h2 : n ≤ 2) :
    ∃ is', (abSegment n).arrive abStreams (fun _ => 0) newConn = some is' ∧ is'.isIsc = some twoBytes ∧
      is'.search = newConn.search ∧ is'.Opens (twoBytes.ipscSi false) false ∧ is'.seen false = n ∧
      ((abSegment n).scan [] abStreams (fun _ => 0) newConn).1 = some twoBytes ∧
      ∀ rv, ((abSegment n).scan [] abStreams (fun _ => 0) newConn).2.matched rv = true := by
  have hgot : got newConn.isS0 (set2 (fun _ => 0) false n) false = n := by
    simp only [got, newConn, set2_self]
    rw [if_neg (by decide)]
    omega
  rcases arrive_cases (abSegment n) newConn_copied
    (by simp only [abSegment]; omega) with ⟨_, hg⟩ | ⟨is', ha, hf, hcop, hpos⟩
  · have := hg false
    simp only [abSegment, zero_add, hgot] at this
    simp [got] at this
    omega
  · simp only [abSegment, zero_add] at hcop hpos
    have hseen : is'.seen false = n := by rw [hcop.seen, hf.isS0, hgot]
    have hopens : is'.Opens (twoBytes.ipscSi false) false := by
      have hcl : is'.cl = n := hseen
      refine ⟨by omega, by omega, ?_⟩
      rw [hcl, ipfScanMatchstr_eq_false]
      intro q hq
      have hq2 : q < 2 := lt_of_lt_of_le hq (min_le_right _ _)
      rw [hcop.sbuf false q (by rw [hf.isS0, hgot]; omega)]
      interval_cases q <;> simp [Like, twoBytes, textOf, abStreams]
    have hisc : is'.isIsc = some twoBytes := hf.isIsc
    have hscan : (abSegment n).scan [] abStreams (fun _ => 0) newConn =
        (some twoBytes, scanDone twoBytes (scanKnown twoBytes is')) := by
      rw [scan_copied ha (by simp only [abSegment]; omega)]
      simp only [ipfScanMatch, hisc]
    refine ⟨is', ha, hisc, hf.search, hopens, hseen, by rw [hscan], ?_⟩
    intro rv
    obtain ⟨pass, hd⟩ := scanDone_eq twoBytes (scanKnown twoBytes is')
    rw [hscan, hd]
    change (scanKnown twoBytes is').matched rv = true
    rw [scanKnown_matched]
    cases rv
    · right
      right
      exact ⟨by rw [hf.search]; rfl, by rw [hf.matched]; rfl, hopens⟩
    · left
      rw [hf.matched]
      rfl

/-- **One byte is taken for two:** flags are set for a pattern that was not seen as a whole. -/
theorem first_byte_marks : ¬∀ (list : List Ipscan) (streams : Bool → ℕ → Byte) (is₀ : Ipstate), Fresh is₀ →
    Marks list streams (fun _ => True) is₀ ∧ Agrees list streams (fun _ => True) is₀ := by
  intro h
  have hrun : Run [] abStreams (fun _ => True) newConn newConn (fun _ => 0) none := .start
  obtain ⟨is', ha, _, _, _, _, _, hm⟩ := abSegment_marks le_rfl (by decide : 1 ≤ 2)
  have hrun' := hrun.segment (abSegment 1) (by decide) (fun _ _ => trivial)
  obtain ⟨isc, h1, h2, _⟩ := (h [] abStreams newConn newConn_fresh).1 hrun' false (hm false)
  obtain rfl : twoBytes = isc := by simpa [Ipstate.about, newConn] using h1
  simp [abSegment, twoBytes, textOf] at h2

/-- A connection whose client sends both bytes at once is marked, for both of them. -/
theorem scan_selects_two : ∃ is, Run [] abStreams (Careful [] abStreams) newConn is (set2 (fun _ => 0) false 2)
      (some twoBytes) ∧ is.matched false = true ∧
      (∃ isc, newConn.about (some twoBytes) = some isc ∧ (isc.ipscSi false).sLen ≤ 2 ∧
        (isc.ipscSi false).Fits (abStreams false)) ∧
      Agrees [] abStreams (Careful [] abStreams) newConn := by
  obtain ⟨is', ha, hisc, hsearch, hopens, hseen, hsel, hm⟩ := abSegment_marks one_le_two le_rfl
  have hcare : Careful [] abStreams is' := by
    simp only [Careful, hisc]
    intro rv hrv
    rw [hsearch] at hrv
    cases rv
    · refine ⟨iff_of_true hopens ⟨by rw [hseen]; rfl, ?_⟩, fun _ => by rw [hseen]; rfl⟩
      have hcl : is'.cl = 2 := hseen
      have := hopens.2.2
      rwa [hcl] at this
    · exact absurd hrv (by decide)
  have hstart : Run [] abStreams (Careful [] abStreams) newConn newConn (fun _ => 0) none := .start
  have hrun := hstart.segment (abSegment 2) (by decide)
      (fun e he => by rw [ha] at he; obtain rfl := Option.some.inj he; exact hcare)
  rw [hsel, hm, hm] at hrun
  have hboth : Marks [] abStreams (Careful [] abStreams) newConn ∧ Agrees [] abStreams (Careful [] abStreams) newConn :=
    scan_selects newConn_fresh
  refine ⟨_, hrun, hm false, ?_, hboth.2⟩
  exact hboth.1 hrun false (hm false)

end Ipfilter.ContentScan
