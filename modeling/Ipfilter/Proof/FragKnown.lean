import Ipfilter.Proof.Frag

/-!
# The fragments of one packet

Once there is an entry for a packet, its fragments come in any order. A fragment should get the rule of the first one,
unless it is a second one at offset 0, or starts below the end of the one at offset 0, or is out of order and the rule is
strict. `known_right` says for which fragments this is so.
-/

namespace Ipfilter.Frag

open Chain

variable {s : Softf} {t : Tab} {b : Tab × ℕ} {fin first : FrInfo} {pass : Flags} {junk e : Ipfr}
  {L : Tab → List ℕ} {B : Tab × ℕ → List ℕ} {tok : Tab × ℕ → Option ℕ} {x f r : ℕ}

/-! ## What should happen -/

/-- What has been seen of a packet: where the fragment at offset 0 ends, and where the next fragment in order starts. -/
structure Seen where
  end0 : Option ℤ
  expect : BitVec 16

/-- After the fragment that made the entry. -/
def Seen.start (fin : FrInfo) : Seen := ⟨if fin.off = 0 then some fin.fragEnd else none, fin.next⟩

/-- The fragment should get the rule. -/
def Seen.allows (g : Seen) (strict : Bool) (fin : FrInfo) : Bool :=
  (match g.end0 with
    | none => true
    | some z => decide (fin.off ≠ 0) && decide (z ≤ 8 * (fin.off.toNat : ℤ))) &&
  (!strict || decide (fin.off = g.expect))

/-- After a fragment that should get the rule. -/
def Seen.more (g : Seen) (fin : FrInfo) : Seen where
  end0 := if fin.off = 0 then some fin.fragEnd else g.end0
  expect := if fin.off = g.expect then fin.next else g.expect

/-- After a fragment. -/
def Seen.step (g : Seen) (strict : Bool) (fin : FrInfo) : Seen := if g.allows strict fin then g.more fin else g

/-- **Every fragment gets what it should:** the rule `r`, or nothing. -/
def Right (r : ℕ) (strict : Bool) : Softf → Seen → List FrInfo → Prop
  | _, _, [] => True
  | s, g, fin :: l => (ipfFragKnown s fin).fr = (if g.allows strict fin then some r else none) ∧
    Right r strict (ipfFragKnown s fin).softf (g.step strict fin) l

/-- **The fragments for which the code gets it right.** If the entry was made by the fragment at offset 0, `ipfr_firstend` is
its end, rounded down. Otherwise `ipfr_firstend` is never set, and `ipfr_seen0` is what was in the memory. -/
def Sound (first : FrInfo) (junk : Ipfr) (strict : Bool) (g : Seen) (fin : FrInfo) : Prop :=
  if first.off = 0 then
    ∀ z, g.end0 = some z → fin.off ≠ 0 → (strict = true → fin.off = g.expect) →
      z ≤ 8 * (fin.off.toNat : ℤ) ∨ 8 * (fin.off.toNat : ℤ) + 8 ≤ z
  else
    (fin.off = 0 → g.end0 = none → junk.seen0 = false) ∧
    ∀ z, g.end0 = some z → fin.off ≠ 0 → z ≤ 8 * (fin.off.toNat : ℤ)

/-- All fragments are such. -/
def AllSound (first : FrInfo) (junk : Ipfr) (strict : Bool) : Seen → List FrInfo → Prop
  | _, [] => True
  | g, fin :: l => Sound first junk strict g fin ∧ AllSound first junk strict (g.step strict fin) l

/-- A fragment of the same packet, for which the cache is asked. -/
structure FrInfo.Of (fin first : FrInfo) : Prop where
  key : fin.key = first.key
  v : fin.finV = first.finV
  p : fin.finP = first.finP
  flx : (has fin.finFlx FI_SHORT || has fin.finFlx FI_BAD) = false

/-! ## What the code does -/

/-- What a lookup does with an entry. -/
def decides (e : Ipfr) (fin : FrInfo) : Offer :=
  if e.seen0 && decide (fin.off = 0) then .skip
  else if e.seen0 && decide (e.firstend ≠ 0) && decide (fin.off < e.firstend) then .bad
  else if fin.off = e.off then .hit
  else if has e.pass FR_FRSTRICT then .skip
  else .hit

theorem front_ent (s : Softf) (b : Tab × ℕ) (f : ℕ) : (s.front b f).ent = s.ent := by
  unfold Softf.front
  split
  · rfl
  · split <;> rfl

theorem offer_decides (s : Softf) (b : Tab × ℕ) (fin : FrInfo) (f : ℕ) :
    (offer s b fin f).2 = decides (s.ent f) fin := by
  unfold offer decides
  dsimp only
  split
  · rfl
  · split
    · rfl
    · split
      · rfl
      · split <;> rfl

/-- The entry after a hit. -/
theorem offer_hit (s : Softf) (b : Tab × ℕ) (fin : FrInfo) (f : ℕ) (h : decides (s.ent f) fin = .hit) :
    let e := s.ent f
    let e' := (offer s b fin f).1.ent f
    e'.key = e.key ∧ e'.rule = e.rule ∧ e'.pass = e.pass ∧ e'.firstend = e.firstend ∧
      e'.seen0 = (e.seen0 || decide (fin.off = 0)) ∧ e'.off = if fin.off = e.off then fin.next else e.off := by
  unfold decides at h
  unfold offer
  dsimp only
  by_cases h1 : ((s.ent f).seen0 && decide (fin.off = 0)) = true
  · rw [if_pos h1] at h
    cases h
  rw [if_neg h1] at h ⊢
  by_cases h2 : ((s.ent f).seen0 && decide ((s.ent f).firstend ≠ 0) && decide (fin.off < (s.ent f).firstend)) = true
  · rw [if_pos h2] at h
    cases h
  rw [if_neg h2] at h ⊢
  -- `ipfr_seen0` is set by the fragment at offset 0
  generalize hs₁ : (if (!(s.ent f).seen0 && decide (fin.off = 0)) = true then
    s.upd f fun e => { e with seen0 := true } else s) = s₁
  have hent : s₁.ent f = { s.ent f with seen0 := (s.ent f).seen0 || decide (fin.off = 0) } := by
    rw [← hs₁]
    by_cases h0 : (!(s.ent f).seen0 && decide (fin.off = 0)) = true
    · rw [if_pos h0]
      have hz : fin.off = 0 := by simp_all
      simp [Softf.upd, hz]
    · rw [if_neg h0]
      have hkeep : ((s.ent f).seen0 || decide (fin.off = 0)) = (s.ent f).seen0 := by
        cases hs : (s.ent f).seen0 <;> simp_all
      rw [hkeep]
  split
  · simp [Softf.upd, front_ent, hent]
  · rename_i hoff
    rw [if_neg hoff] at h
    split
    · rename_i hstrict
      rw [if_pos hstrict] at h
      cases h
    · simp [Softf.upd, front_ent, hent]

/-- The entry stays as it is, but for a count, if the fragment is not let through. -/
theorem offer_miss (s : Softf) (b : Tab × ℕ) (fin : FrInfo) (f : ℕ) (h : decides (s.ent f) fin ≠ .hit)
    (hz : (s.ent f).seen0 = false → fin.off = 0 → has (s.ent f).pass FR_FRSTRICT = false) : let e := s.ent f
    let e' := (offer s b fin f).1.ent f
    e'.key = e.key ∧ e'.rule = e.rule ∧ e'.pass = e.pass ∧ e'.firstend = e.firstend ∧ e'.seen0 = e.seen0 ∧
      e'.off = e.off := by
  unfold decides at h
  unfold offer
  dsimp only
  by_cases h1 : ((s.ent f).seen0 && decide (fin.off = 0)) = true
  · rw [if_pos h1]
    exact ⟨rfl, rfl, rfl, rfl, rfl, rfl⟩
  rw [if_neg h1] at h ⊢
  by_cases h2 : ((s.ent f).seen0 && decide ((s.ent f).firstend ≠ 0) && decide (fin.off < (s.ent f).firstend)) = true
  · rw [if_pos h2]
    exact ⟨rfl, rfl, rfl, rfl, rfl, rfl⟩
  rw [if_neg h2] at h ⊢
  by_cases hoff : fin.off = (s.ent f).off
  · rw [if_pos hoff] at h
    exact absurd rfl h
  rw [if_neg hoff] at h ⊢
  by_cases hstrict : has (s.ent f).pass FR_FRSTRICT = true
  · have hnz : (!(s.ent f).seen0 && decide (fin.off = 0)) = false := by
      cases hs : (s.ent f).seen0
      · have := hz hs
        simp_all
      · simp
    rw [if_pos hstrict, hnz]
    simp [Softf.upd, front_ent]
  · rw [if_neg hstrict] at h
    exact absurd rfl h

/-! ## The entry follows what has been seen -/

/-- **The entry** made by the fragment `first` after the fragments seen. -/
structure Tracks (first : FrInfo) (junk : Ipfr) (pass : Flags) (r : ℕ) (e : Ipfr) (g : Seen) : Prop where
  key : e.key = first.key
  rule : e.rule = some r
  flags : e.pass = pass
  firstend : e.firstend = first.firstend
  seen0 : e.seen0 = (decide (first.off = 0) || junk.seen0 || g.end0.isSome)
  off : e.off = g.expect
  end0 : first.off = 0 → g.end0 = some first.fragEnd
  strict : has pass FR_FRSTRICT = true → first.off = 0

/-- The end of a packet of at most 2^16 bytes, rounded down, fits in 16 bits. -/
theorem toNat_firstend (hoff : first.off = 0) (hpos : 0 ≤ first.fragEnd) (hlen : first.fragEnd < 2 ^ 17) :
    (first.firstend.toNat : ℤ) = first.fragEnd / 8 := by
  rw [FrInfo.firstend, if_pos hoff, BitVec.toNat_ofInt]
  omega

theorem decides_hit (e : Ipfr) (fin : FrInfo) : decides e fin = .hit ↔
    ¬(e.seen0 = true ∧ fin.off = 0) ∧ ¬(e.seen0 = true ∧ e.firstend ≠ 0 ∧ fin.off < e.firstend) ∧
      (has e.pass FR_FRSTRICT = true → fin.off = e.off) := by
  unfold decides
  by_cases h1 : e.seen0 = true ∧ fin.off = 0
  · rw [if_pos (by simpa using h1)]
    simp [h1]
  rw [if_neg (by simpa using h1)]
  by_cases h2 : e.seen0 = true ∧ e.firstend ≠ 0 ∧ fin.off < e.firstend
  · rw [if_pos (by simpa [and_assoc] using h2)]
    exact ⟨fun h => absurd h (by simp), fun h => absurd h2 h.2.1⟩
  rw [if_neg (by simpa [and_assoc] using h2)]
  by_cases h3 : fin.off = e.off
  · rw [if_pos h3]
    exact ⟨fun _ => ⟨h1, h2, fun _ => h3⟩, fun _ => rfl⟩
  rw [if_neg h3]
  by_cases h4 : has e.pass FR_FRSTRICT = true
  · rw [if_pos h4]
    exact ⟨fun h => absurd h (by simp), fun h => absurd (h.2.2 h4) h3⟩
  · rw [if_neg h4]
    exact ⟨fun _ => ⟨h1, h2, fun h => absurd h h4⟩, fun _ => rfl⟩

theorem Seen.allows_iff (g : Seen) (strict : Bool) (fin : FrInfo) : g.allows strict fin = true ↔
    (∀ z, g.end0 = some z → fin.off ≠ 0 ∧ z ≤ 8 * (fin.off.toNat : ℤ)) ∧
    (strict = true → fin.off = g.expect) := by
  unfold Seen.allows
  rw [Bool.and_eq_true]
  apply and_congr
  · cases g.end0 <;> simp
  · cases strict <;> simp

/-- **One fragment:** the lookup lets through what it should exactly if the fragment is sound. -/
theorem Tracks.decides_iff {g : Seen} (h : Tracks first junk pass r e g) (fin : FrInfo) (hpos : 0 ≤ first.fragEnd)
    (hlen : first.fragEnd < 2 ^ 17) : ((decides e fin = .hit ↔ g.allows (has pass FR_FRSTRICT) fin = true) ↔
      Sound first junk (has pass FR_FRSTRICT) g fin) := by
  rw [decides_hit, Seen.allows_iff]
  unfold Sound
  rw [h.off, h.flags, h.firstend]
  by_cases h0 : first.off = 0
  · -- made by the fragment at offset 0
    have hend := h.end0 h0
    have hseen : e.seen0 = true := by simp [h.seen0, h0]
    have hfirst := toNat_firstend h0 hpos hlen
    have hlt : first.firstend ≠ 0 ∧ fin.off < first.firstend ↔ 8 * (fin.off.toNat : ℤ) + 8 ≤ first.fragEnd := by
      have hlt' : fin.off < first.firstend ↔ 8 * (fin.off.toNat : ℤ) + 8 ≤ first.fragEnd := by
        rw [BitVec.lt_def]
        omega
      rw [hlt', and_iff_right_iff_imp]
      intro hle hz
      rw [hz] at hfirst
      have : ((0 : BitVec 16).toNat : ℤ) = 0 := rfl
      omega
    rw [if_pos h0, hend, hlt]
    simp only [hseen, true_and, Option.some.injEq, forall_eq']
    have hover : 8 * (fin.off.toNat : ℤ) + 8 ≤ first.fragEnd → ¬first.fragEnd ≤ 8 * (fin.off.toNat : ℤ) := by omega
    generalize (8 * (fin.off.toNat : ℤ) + 8 ≤ first.fragEnd) = low at *
    generalize (first.fragEnd ≤ 8 * (fin.off.toNat : ℤ)) = clear at *
    tauto
  · -- made by another one: `ipfr_firstend` is 0, and the rule is not strict
    have hstrict : has pass FR_FRSTRICT ≠ true := fun hs => h0 (h.strict hs)
    have hzero : first.firstend = 0 := by rw [FrInfo.firstend, if_neg h0]
    rw [if_neg h0, hzero, h.seen0]
    cases hend : g.end0 with
    | none =>
      simp only [h0, decide_false, Bool.false_or, Option.isSome_none, Bool.or_false, ne_eq, not_true_eq_false, false_and,
        and_false, not_false_eq_true, hstrict, false_implies, and_true, reduceCtorEq, implies_true, iff_true, true_implies]
      cases junk.seen0 <;> simp
    | some z =>
      simp only [h0, decide_false, Bool.false_or, Option.isSome_some, Bool.or_true, true_and, ne_eq, not_true_eq_false,
        false_and, not_false_eq_true, hstrict, false_implies, and_true, Option.some.injEq, forall_eq', reduceCtorEq,
        implies_true]
      tauto

/-! ## One packet -/

/-- **The entry of a packet** is in its chain, and follows what has been seen. -/
structure Follows (first : FrInfo) (junk : Ipfr) (pass : Flags) (r x : ℕ) (tok : Tab × ℕ → Option ℕ)
    (L : Tab → List ℕ) (s : Softf) (g : Seen) : Prop where
  good : ∃ B, Good s tok L B ∧ x ∈ B (.pkt, first.idx s.size)
  lock : s.lock = false
  tracks : Tracks first junk pass r (s.ent x) g

theorem FrInfo.Of.idx (h : fin.Of first) (size : ℕ) : fin.idx size = first.idx size := by
  have hkey := h.key
  unfold FrInfo.key at hkey
  simp only [Key.mk.injEq] at hkey
  obtain ⟨-, hsrc, hdst, -, -, -, hid⟩ := hkey
  unfold FrInfo.idx
  rw [h.v, h.p, hsrc, hdst, hid]

/-- The answer of `ipf_frag_known`, and the entry it leaves. -/
theorem Follows.known {g : Seen} (h : Follows first junk pass r x tok L s g) (hof : fin.Of first) :
    (ipfFragKnown s fin).fr = (if decides (s.ent x) fin = .hit then some r else none) ∧
      (ipfFragKnown s fin).softf = (offer s (.pkt, first.idx s.size) fin x).1 := by
  obtain ⟨B, hg, hx⟩ := h.good
  have hne : s.list.head .pkt ≠ none := by
    have hmem : x ∈ L .pkt := (hg.place .pkt x).2 ⟨_, hx⟩
    rw [← head_get, (hg.list .pkt).head?]
    intro hnil
    rw [List.head?_eq_none_iff.1 hnil] at hmem
    simp at hmem
  have hkey : (s.ent x).key = fin.key := h.tracks.key.trans hof.key.symm
  -- the lookup meets the entry
  have hlook : ipfFragLookup s .pkt fin = Looked.of fin x (offer s (.pkt, first.idx s.size) fin x) := by
    rcases hg.lookup .pkt fin with ⟨hflx, -⟩ | ⟨-, ⟨hno, -⟩ | ⟨f, hf, hfkey, heq⟩⟩
    · exact absurd (hof.flx.symm.trans hflx) (by simp)
    · rw [hof.idx] at hno
      exact absurd hkey (hno x hx)
    · rw [hof.idx] at hf heq
      obtain rfl := hg.uniq _ f hf x hx (hfkey.trans hkey.symm)
      exact heq
  unfold ipfFragKnown
  rw [if_neg (by simp [h.lock, hne]), hlook]
  have hdec := offer_decides s (.pkt, first.idx s.size) fin x
  cases hd : decides (s.ent x) fin with
  | hit =>
    have hhit := (offer_hit s (.pkt, first.idx s.size) fin x hd).2.1
    rw [h.tracks.rule] at hhit
    rcases hoff : offer s (.pkt, first.idx s.size) fin x with ⟨s', o⟩
    rw [hoff] at hdec hhit
    dsimp only at hdec hhit
    rw [hdec, hd]
    simp [Looked.of, hhit]
  | skip | bad =>
    rcases hoff : offer s (.pkt, first.idx s.size) fin x with ⟨s', o⟩
    rw [hoff] at hdec
    dsimp only at hdec
    rw [hdec, hd]
    simp [Looked.of]

/-- **The entry goes on following** what has been seen, if the fragment got what it should. -/
theorem Follows.step {g : Seen} (h : Follows first junk pass r x tok L s g) (hof : fin.Of first)
    (hright : decides (s.ent x) fin = .hit ↔ g.allows (has pass FR_FRSTRICT) fin = true) :
    Follows first junk pass r x tok L (ipfFragKnown s fin).softf (g.step (has pass FR_FRSTRICT) fin) := by
  obtain ⟨B, hg, hx⟩ := h.good
  have heq := (h.known hof).2
  obtain ⟨B', hstir⟩ := hg.known fin
  have hrest := hstir.rest
  refine ⟨⟨B', hg.stir hstir, ?_⟩, ?_, ?_⟩
  · rw [hrest]
    exact (hstir.perm _).mem_iff.2 hx
  · rw [hrest]
    exact h.lock
  · rw [heq]
    have ht := h.tracks
    unfold Seen.step
    by_cases hd : decides (s.ent x) fin = .hit
    · obtain ⟨hkey, hrule, hpass, hfe, hseen, hoff⟩ := offer_hit s (.pkt, first.idx s.size) fin x hd
      rw [if_pos (hright.1 hd)]
      refine ⟨hkey.trans ht.key, hrule.trans ht.rule, hpass.trans ht.flags, hfe.trans ht.firstend, ?_, ?_, fun h0 => ?_,
        ht.strict⟩
      · rw [hseen, ht.seen0, Seen.more]
        by_cases hz : fin.off = 0
        · simp [hz]
        · rw [if_neg hz, decide_eq_false hz, Bool.or_false]
      · rw [hoff, ht.off]
        rfl
      · -- a second fragment at offset 0 is not let through
        have hnz : fin.off ≠ 0 := (((g.allows_iff _ _).1 (hright.1 hd)).1 _ (ht.end0 h0)).1
        rw [Seen.more, if_neg hnz]
        exact ht.end0 h0
    · rw [if_neg (hright.not.1 hd)]
      obtain ⟨hkey, hrule, hpass, hfe, hseen, hoff⟩ := offer_miss s (.pkt, first.idx s.size) fin x hd fun hs hz => by
        rw [ht.flags]
        cases hstrict : has pass FR_FRSTRICT with
        | false => rfl
        | true =>
          rw [ht.seen0, ht.strict hstrict] at hs
          simp at hs
      exact ⟨hkey.trans ht.key, hrule.trans ht.rule, hpass.trans ht.flags, hfe.trans ht.firstend, hseen.trans ht.seen0,
        hoff.trans ht.off, ht.end0, ht.strict⟩

/-- **All fragments**, from any state that follows what has been seen. -/
theorem Follows.right_iff (hpos : 0 ≤ first.fragEnd) (hlen : first.fragEnd < 2 ^ 17) :
    ∀ (fins : List FrInfo) {s : Softf} {g : Seen}, Follows first junk pass r x tok L s g →
      (∀ fin ∈ fins, fin.Of first) →
      (Right r (has pass FR_FRSTRICT) s g fins ↔ AllSound first junk (has pass FR_FRSTRICT) g fins)
  | [], _, _, _, _ => Iff.rfl
  | fin :: l, s, g, h, hof => by
    have hfin := hof fin (by simp)
    have hiff := h.tracks.decides_iff fin hpos hlen
    have hfr : (ipfFragKnown s fin).fr = (if g.allows (has pass FR_FRSTRICT) fin then some r else none) ↔
        (decides (s.ent x) fin = .hit ↔ g.allows (has pass FR_FRSTRICT) fin = true) := by
      rw [(h.known hfin).1]
      by_cases hd : decides (s.ent x) fin = .hit <;> cases g.allows (has pass FR_FRSTRICT) fin <;> simp [hd]
    rw [Right, AllSound, hfr, hiff]
    refine and_congr_right fun hs => ?_
    exact Follows.right_iff hpos hlen l (h.step hfin (hiff.2 hs)) fun fin' hfin' => hof fin' (by simp [hfin'])

/-- The entry is made. -/
theorem Good.follows (hg : Good s tok L B) (hlock : s.lock = false) (hx : s.alloc x = false)
    (href : refuses s first pass = false) (hfind : s.find .pkt first = none) (hr : first.finFr = some r) :
    Follows first junk pass r x tok (Function.update L .pkt (L .pkt ++ [x])) (ipfFragNew s first pass (some x) junk).1
      (Seen.start first) := by
  have heq : ipfFragNew s first pass (some x) junk = ((made s .pkt first pass x junk).append .pkt x, true) := by
    rw [ipfFragNew, if_neg (by simp [hlock]), hg.new_eq hx href hfind]
  rw [heq]
  have hj := made_joined s .pkt first pass x junk s.natData 0
  have hdata : { (made s .pkt first pass x junk).upd x fun e => { e with data := 0 } with natData := s.natData } =
      made s .pkt first pass x junk := by simp [made, Softf.upd, entry]
  rw [hdata] at hj
  have hent : ((made s .pkt first pass x junk).append .pkt x).ent x = entry s first pass junk := Function.update_self ..
  rw [hg.find_eq, List.find?_eq_none] at hfind
  refine ⟨⟨_, hg.join hx (by simpa using hfind) hj, ?_⟩, hlock, ?_⟩
  · simp [Softf.append, made]
  · rw [hent]
    refine ⟨rfl, hr, rfl, rfl, ?_, rfl, fun h0 => if_pos h0, fun hs => ?_⟩
    · unfold entry Seen.start
      by_cases h0 : first.off = 0
      · simp [h0]
      · simp only [if_neg h0, decide_eq_false h0, Bool.false_or, Option.isSome_none, Bool.or_false]
    · -- a strict entry is made at offset 0 only
      have hoff : first.finOff = 0 := by
        unfold refuses at href
        simp only [Bool.or_eq_false_iff, Bool.and_eq_false_iff] at href
        rcases href.2 with h | h
        · exact absurd (hs.symm.trans h) (by simp)
        · simpa using h
      rw [FrInfo.off, hoff]
      rfl

/-- **The fragments of one packet** get what they should, exactly if all of them are sound. -/
theorem known_right (hg : Good s tok L B) (hlock : s.lock = false) (hx : s.alloc x = false)
    (href : refuses s first pass = false) (hfind : s.find .pkt first = none) (hr : first.finFr = some r)
    (hpos : 0 ≤ first.fragEnd) (hlen : first.fragEnd < 2 ^ 17) {fins : List FrInfo} (hof : ∀ fin ∈ fins, fin.Of first) :
    Right r (has pass FR_FRSTRICT) (ipfFragNew s first pass (some x) junk).1 (Seen.start first) fins ↔
      AllSound first junk (has pass FR_FRSTRICT) (Seen.start first) fins :=
  (hg.follows hlock hx href hfind hr).right_iff hpos hlen fins hof

/-- The second fragment of `lead`, in order. -/
def second : FrInfo := { lead with finOff := 24, finPlen := 36, finDlen := 16 }

/-- The third one. -/
def third : FrInfo := { lead with finOff := 40, finPlen := 28, finDlen := 8 }

/-- Three fragments in order. -/
theorem known_right_three :
    Right 1 (has 0 FR_FRSTRICT) (ipfFragNew four.softf lead 0 (some 0) blank).1 (Seen.start lead) [second, third] := by
  have hof : ∀ fin ∈ [second, third], fin.Of lead := by
    intro fin hfin
    simp only [List.mem_cons, List.not_mem_nil, or_false] at hfin
    rcases hfin with rfl | rfl <;> exact ⟨by decide, by decide, by decide, by decide⟩
  apply Iff.mpr (known_right (init_good 4 2 (fun _ => blank) fun _ => 0) (by decide) (by decide) (by decide) (by decide)
    (by decide) (by decide) (by decide) hof)
  refine ⟨?_, ?_, trivial⟩
  · unfold Sound
    rw [if_pos (by decide)]
    rintro z ⟨⟩ - -
    decide
  · unfold Sound
    rw [if_pos (by decide)]
    rintro z ⟨⟩ - -
    decide

/-- A fragment that starts inside `lead`. -/
def inside : FrInfo := { lead with finOff := 8, finPlen := 28, finDlen := 8 }

/-- **The fragment at offset 0 comes second:** `ipfr_firstend` is not set, and a fragment that overlaps it gets the rule. -/
theorem overlap_passes :
    (ipfFragKnown (ipfFragNew four.softf second 0 (some 0) blank).1 lead).fr = some 1 ∧
    (ipfFragKnown (ipfFragKnown (ipfFragNew four.softf second 0 (some 0) blank).1 lead).softf inside).fr = some 1 ∧
    ¬Right 1 false (ipfFragNew four.softf second 0 (some 0) blank).1 (Seen.start second) [lead, inside] := by
  refine ⟨by decide, by decide, fun h => ?_⟩
  exact absurd h.2.1 (by decide)

end Ipfilter.Frag
