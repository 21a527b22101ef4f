import Ipfilter.Proof.FrInfo

/-!
# The walk over the headers of an IPv6 packet

* `exthdr_fits`, `exthdr_not_fits` — what an extension header does;
* `step_moves` — one turn of the loop moves on behind a header, by at least 8 bytes unless it is the last but one;
* `ipv6hdr_walk` — **the loop ends, and it never leaves the packet:** at every turn the bytes behind and those ahead are those
  of the payload.
-/

namespace Ipfilter.Makefrip

open Masks Tcp

variable {b : Buf} {f f' f'' : FrInfo} {k k' : ℕ} {proto : ℕ} {multiple : Bool}

/-! ## Moving on -/

/-- `f'` is `k` bytes ahead of `f`, and still in the packet; no flag and no header that was put down is gone. -/
structure Moves (k : ℕ) (f f' : FrInfo) : Prop where
  dp : f'.finDp = f.finDp + k
  dlen : f'.finDlen = f.finDlen - k
  room : 0 ≤ f.finDlen → 0 ≤ f'.finDlen
  plen : f'.finPlen = f.finPlen
  depth : f'.finDepth = f.finDepth
  eights : 8 ∣ k
  flx : ∀ m, has f.finFlx m = true → has f'.finFlx m = true
  optmsk : ∀ m, has f.finOptmsk m = true → has f'.finOptmsk m = true

theorem Moves.stays (h : Moves k f f') (h' : Stays f' f'') : Moves k f f'' where
  dp := h'.dp.trans h.dp
  dlen := h'.dlen.trans h.dlen
  room hf := by
    rw [h'.dlen]
    exact h.room hf
  plen := h'.plen.trans h.plen
  depth := h'.depth.trans h.depth
  eights := h.eights
  flx m hm := h'.flx m (h.flx m hm)
  optmsk m hm := by
    rw [h'.optmsk]
    exact h.optmsk m hm

theorem Stays.moves (h : Stays f f') (h' : Moves k f' f'') : Moves k f f'' where
  dp := by rw [h'.dp, h.dp]
  dlen := by rw [h'.dlen, h.dlen]
  room hf := h'.room (by rw [h.dlen]; exact hf)
  plen := by rw [h'.plen, h.plen]
  depth := by rw [h'.depth, h.depth]
  eights := h'.eights
  flx m hm := h'.flx m (h.flx m hm)
  optmsk m hm := h'.optmsk m (by rw [h.optmsk]; exact hm)

theorem Stays.moves_zero (h : Stays f f') : Moves 0 f f' where
  dp := h.dp
  dlen := by
    rw [h.dlen]
    simp
  room hf := by
    rw [h.dlen]
    exact hf
  plen := h.plen
  depth := h.depth
  eights := Nat.dvd_zero 8
  flx := h.flx
  optmsk m hm := by
    rw [h.optmsk]
    exact hm

/-! ## Extension headers -/

/-- Room for an extension header. -/
def fits (b : Buf) (f : FrInfo) (proto : ℕ) : Bool :=
  8 ≤ f.finDlen ∧ pulls b f 8 = true ∧ (extShift b proto f.finDp : ℤ) ≤ f.finDlen

/-- The packet behind an extension header. -/
def FrInfo.skip (f : FrInfo) (k : ℕ) : FrInfo := { f with finDp := f.finDp + k, finDlen := f.finDlen - k }

theorem exthdr_fits (h : fits b f proto = true) : ipfPrIpv6exthdr b f multiple proto =
      (((f.flag FI_V6EXTHDR).skip (extShift b proto f.finDp)).notePresence multiple proto, some f.finDp) := by
  obtain ⟨hlen, hpull, hshift⟩ := of_decide_eq_true h
  have hlen' : ¬(f.flag FI_V6EXTHDR).finDlen - 8 < 0 := by
    change ¬f.finDlen - 8 < 0
    omega
  have hpull' : ¬pulls b (f.flag FI_V6EXTHDR) 8 = false := by
    rw [Bool.not_eq_false]
    exact hpull
  have hshift' : ¬(extShift b proto (f.flag FI_V6EXTHDR).finDp : ℤ) > (f.flag FI_V6EXTHDR).finDlen := by
    change ¬(extShift b proto f.finDp : ℤ) > f.finDlen
    omega
  unfold ipfPrIpv6exthdr
  dsimp only
  rw [if_neg hlen', if_neg hpull', if_neg hshift']
  rfl

theorem exthdr_not_fits (h : fits b f proto = false) :
    (ipfPrIpv6exthdr b f multiple proto).2 = none ∧ Stays f (ipfPrIpv6exthdr b f multiple proto).1 := by
  have hflag := Stays.flag f FI_V6EXTHDR
  unfold ipfPrIpv6exthdr
  dsimp only
  split
  · exact ⟨rfl, hflag.trans (.flag _ _)⟩
  split
  · exact ⟨rfl, hflag.trans (.pullup _ _ _)⟩
  split
  · exact ⟨rfl, hflag.trans (.flag _ _)⟩
  · rename_i hlen hpull hshift
    refine absurd (decide_eq_true ⟨?_, Bool.not_eq_false _ ▸ hpull, ?_⟩) (Bool.eq_false_iff.1 h)
    · change ¬f.finDlen - 8 < 0 at hlen
      omega
    · change ¬(extShift b proto f.finDp : ℤ) > f.finDlen at hshift
      omega

theorem eight_le_extShift (b : Buf) (proto dp : ℕ) : 8 ≤ extShift b proto dp := by
  unfold extShift
  split
  · exact le_refl 8
  · exact Nat.le_add_right _ _

theorem eight_dvd_extShift (b : Buf) (proto dp : ℕ) : 8 ∣ extShift b proto dp := by
  unfold extShift
  split
  · exact Nat.dvd_refl 8
  · rw [Nat.shiftLeft_eq]
    omega

/-- What is put down about an extension header is not where the packet is. -/
theorem notePresence_moves (h : Moves k f f') : Moves k f (f'.notePresence multiple proto) := by
  unfold FrInfo.notePresence
  split
  · exact h
  split
  · exact h
  split
  · exact h.stays (.flag _ _)
  · refine ⟨h.dp, h.dlen, h.room, h.plen, h.depth, h.eights, h.flx, fun m hm => ?_⟩
    change has (f'.finOptmsk ||| _) m = true
    rw [has_or, h.optmsk m hm, Bool.true_or]

/-- An extension header that fits moves on behind it. -/
theorem exthdr_fits_moves (h : fits b f proto = true) :
    Moves (extShift b proto f.finDp) f (ipfPrIpv6exthdr b f multiple proto).1 := by
  obtain ⟨-, -, hshift⟩ := of_decide_eq_true h
  rw [exthdr_fits h]
  apply notePresence_moves
  apply (Stays.flag f FI_V6EXTHDR).moves
  refine ⟨rfl, rfl, fun _ => ?_, rfl, rfl, eight_dvd_extShift _ _ _, fun _ h => h, fun _ h => h⟩
  change 0 ≤ f.finDlen - (extShift b proto f.finDp : ℤ)
  omega

/-- An extension header moves on behind it. -/
theorem exthdr_moves (b : Buf) (f : FrInfo) (multiple : Bool) (proto : ℕ) :
    ((ipfPrIpv6exthdr b f multiple proto).2 = none ∧ Moves 0 f (ipfPrIpv6exthdr b f multiple proto).1) ∨
      ∃ k, 8 ≤ k ∧ Moves k f (ipfPrIpv6exthdr b f multiple proto).1 := by
  cases h : fits b f proto with
  | true =>
    exact .inr ⟨extShift b proto f.finDp, eight_le_extShift _ _ _, exthdr_fits_moves h⟩
  | false =>
    obtain ⟨hnone, hstays⟩ : (ipfPrIpv6exthdr b f multiple proto).2 = none ∧
        Stays f (ipfPrIpv6exthdr b f multiple proto).1 :=
      exthdr_not_fits h
    exact .inl ⟨hnone, hstays.moves_zero⟩

/-- A handler of an extension header: it moves on, or says that there is no next header. -/
def Handles (f : FrInfo) (r : FrInfo × ℕ) : Prop :=
  (r.2 = IPPROTO_NONE ∧ Moves 0 f r.1) ∨ ∃ k, 8 ≤ k ∧ Moves k f r.1

/-- A handler that gives up where there is no header, and goes on from the header otherwise. -/
theorem Handles.of_exthdr {r : FrInfo × ℕ}
    (hnone : (ipfPrIpv6exthdr b f multiple proto).2 = none → r.2 = IPPROTO_NONE)
    (hmoves : ∀ k, Moves k f (ipfPrIpv6exthdr b f multiple proto).1 → Moves k f r.1) : Handles f r := by
  obtain ⟨h, h'⟩ | ⟨k, hk, h'⟩ := exthdr_moves b f multiple proto
  · exact .inl ⟨hnone h, hmoves 0 h'⟩
  · exact .inr ⟨k, hk, hmoves k h'⟩

theorem exthdrNext_handles (b : Buf) (proto : ℕ) (f : FrInfo) : Handles f (exthdrNext b proto f) := by
  unfold exthdrNext
  dsimp only
  apply Handles.of_exthdr
  · intro h
    rw [h]
  · intro k h
    split
    · exact h
    · exact h

theorem routing6_handles (b : Buf) (f : FrInfo) : Handles f (ipfPrRouting6 b f) := by
  unfold ipfPrRouting6
  dsimp only
  apply Handles.of_exthdr
  · intro h
    rw [h]
  · intro k h
    split
    · exact h
    · split
      · exact h.stays (.flag _ _)
      · exact h

theorem fragment_moves (hdr : ℕ) (h : Moves k f f') : Moves k f (f'.fragment b hdr) := by
  have hmore := h.stays (.flagIf f' (moreFrag b hdr ∧ f'.finPlen % 8 ≠ 0) FI_BAD)
  have hoff : Moves k f { f'.flagIf (moreFrag b hdr ∧ f'.finPlen % 8 ≠ 0) FI_BAD with
      finFraghdr := some hdr, finId := b.raw32 (hdr + 4), finOff := fragOff b hdr } :=
    ⟨hmore.dp, hmore.dlen, hmore.room, hmore.plen, hmore.depth, hmore.eights, hmore.flx, hmore.optmsk⟩
  unfold FrInfo.fragment
  exact (hoff.stays (.flagIf _ _ _)).stays (.flagIf _ _ _)

theorem fragment6_handles (b : Buf) (f : FrInfo) : Handles f (ipfPrFragment6 b f) := by
  have hflag := Stays.flag f FI_FRAG
  have h : Handles (f.flag FI_FRAG) (ipfPrFragment6 b f) := by
    unfold ipfPrFragment6
    dsimp only
    apply Handles.of_exthdr
    · intro h
      rw [h]
    · intro k h
      split
      · exact h
      · exact fragment_moves _ h
  obtain ⟨hp, h⟩ | ⟨k, hk, h⟩ := h
  · exact .inl ⟨hp, hflag.moves h⟩
  · exact .inr ⟨k, hk, hflag.moves h⟩

theorem ah6_handles (b : Buf) (f : FrInfo) : Handles f (ipfPrAh6 b f) := by
  have hflag := Stays.flag f FI_AH
  have h : Handles (f.flag FI_AH) (ipfPrAh6 b f) := by
    unfold ipfPrAh6
    dsimp only
    apply Handles.of_exthdr
    · intro h
      rw [h]
    · intro k h
      split
      · exact h
      · exact h.stays (.short6 _ _)
  obtain ⟨hp, h⟩ | ⟨k, hk, h⟩ := h
  · exact .inl ⟨hp, hflag.moves h⟩
  · exact .inr ⟨k, hk, hflag.moves h⟩

/-! ## One turn -/

variable {s s₀ s' : Walk} {n : ℕ} {ps : List ℕ}

/-- What the `switch` does: it ends the walk, with the packet where it is, or handles an extension header. -/
def Turns (s s' : Walk) : Prop := (s'.go = false ∧ Moves 0 s.fin s'.fin) ∨ Handles s.fin (s'.fin, s'.p)

theorem Turns.last (h : Stays s.fin f) : Turns s (s.last f) := .inl ⟨rfl, h.moves_zero⟩

theorem Turns.next {r : FrInfo × ℕ} (h : Handles s.fin r) : Turns s (s.next r) := .inr h

theorem flagExt_stays (f : FrInfo) (proto : ℕ) : Stays f (f.flagExt proto) := by
  unfold FrInfo.flagExt
  split
  · apply Stays.flag
  · apply Stays.refl

theorem switch_turns (b : Buf) (s : Walk) : Turns s (s.switch b) := by
  unfold Walk.switch
  refine iteInduction (motive := Turns s) (fun _ => .last (.udp6 b s.fin)) fun _ => ?_
  refine iteInduction (motive := Turns s) (fun _ => .last (.tcp6 b s.fin)) fun _ => ?_
  refine iteInduction (motive := Turns s) (fun _ => .last (.icmp6 b s.fin)) fun _ => ?_
  refine iteInduction (motive := Turns s) (fun _ => .last (.gre6 b s.fin)) fun _ => ?_
  refine iteInduction (motive := Turns s) (fun _ => .next (exthdrNext_handles b _ s.fin)) fun _ => ?_
  refine iteInduction (motive := Turns s) (fun _ => .next (exthdrNext_handles b _ s.fin)) fun _ => ?_
  refine iteInduction (motive := Turns s) (fun _ => .next (exthdrNext_handles b _ s.fin)) fun _ => ?_
  refine iteInduction (motive := Turns s) (fun _ => .next (routing6_handles b s.fin)) fun _ => ?_
  refine iteInduction (motive := Turns s) (fun _ => .next (ah6_handles b s.fin)) fun _ => ?_
  refine iteInduction (motive := Turns s) (fun _ => .last (.esp6 b s.fin)) fun _ => ?_
  refine iteInduction (motive := Turns s) (fun _ => .last (flagExt_stays s.fin s.p)) fun _ => ?_
  refine iteInduction (motive := Turns s) (fun _ => .last (.refl s.fin)) fun _ => ?_
  refine iteInduction (motive := Turns s) (fun _ => .inr (fragment6_handles b s.fin)) fun _ => ?_
  exact .last (.refl s.fin)

/-- **One turn of the loop** moves on behind an extension header, or is the last or the last but one. -/
theorem step_moves (b : Buf) (s : Walk) :
    ∃ k, Moves k s.fin (s.step b).fin ∧ ((s.step b).more = true → (s.step b).p = IPPROTO_NONE ∨ 8 ≤ k) := by
  have hsettle : Stays (s.switch b).fin (s.step b).fin := by
    unfold Walk.step Walk.settle
    split
    · apply Stays.pullup
    · apply Stays.refl
  have hmore : (s.step b).more = true → (s.switch b).go = true ∧ (s.step b).p = (s.switch b).p := by
    intro h
    unfold Walk.step Walk.settle at h ⊢
    split at h
    · simp [Walk.more] at h
    · rename_i hno
      rw [if_neg hno]
      unfold Walk.more at h
      rw [Bool.and_eq_true, Bool.and_eq_true] at h
      exact ⟨h.1.1, rfl⟩
  obtain ⟨hgo, h⟩ | ⟨hp, h⟩ | ⟨k, hk, h⟩ := switch_turns b s
  · refine ⟨0, h.stays hsettle, fun hm => ?_⟩
    rw [(hmore hm).1] at hgo
    cases hgo
  · exact ⟨0, h.stays hsettle, fun hm => .inl ((hmore hm).2.trans hp)⟩
  · exact ⟨k, h.stays hsettle, fun _ => .inr hk⟩

/-- Without a next header the loop ends. -/
theorem step_none (h : s.p = IPPROTO_NONE) : (s.step b).more = false := by
  have hswitch : (s.switch b).go = false := by
    unfold Walk.switch
    rw [h]
    rfl
  unfold Walk.step Walk.settle Walk.more
  rw [if_neg (by simp [hswitch]), hswitch]
  rfl

/-- Where the `switch` ends the walk, this is the last turn. -/
theorem step_last (h : (s.switch b).go = false) : s.step b = s.switch b ∧ (s.step b).more = false := by
  have hstep : s.step b = s.switch b := by
    unfold Walk.step Walk.settle
    rw [if_neg (by simp [h])]
  refine ⟨hstep, ?_⟩
  rw [hstep]
  unfold Walk.more
  rw [h]
  rfl

/-- The end of the analysis adds no flag, unless there was no header of layer 4. -/
theorem finish_last (h : s.go = false) : Stays s.fin s.finish ∧ s.finish.finFlx = s.fin.finFlx := by
  unfold Walk.finish
  split
  · exact ⟨.refl _, rfl⟩
  · rw [h]
    exact ⟨⟨rfl, rfl, rfl, rfl, rfl, rfl, rfl, fun _ h => h⟩, rfl⟩

/-! ## The walk -/

/-- The turns from `s₀` on, with the headers that they are about. -/
inductive Steps (b : Buf) (s₀ : Walk) : List ℕ → Walk → Prop
  | start : Steps b s₀ [] s₀
  | step {ps : List ℕ} {s : Walk} : Steps b s₀ ps s → s.more = true → Steps b s₀ (ps ++ [s.p]) (s.step b)

/-- The packet's place is behind the fixed header, which has `hlen` bytes, and the bytes between them and those ahead are the
`len` bytes of the payload. -/
structure Within (hlen len : ℕ) (s : Walk) : Prop where
  room : 0 ≤ s.fin.finDlen
  start : hlen ≤ s.fin.finDp
  total : s.fin.finDp + s.fin.finDlen = hlen + len

theorem Steps.within {hlen len : ℕ} (h : Steps b s₀ ps s) (h₀ : Within hlen len s₀) : Within hlen len s := by
  induction h with
  | start => exact h₀
  | step _ _ ih =>
    rename_i s _ _
    obtain ⟨j, hmoves, -⟩ := step_moves b s
    have htotal := ih.total
    have hstart := ih.start
    refine ⟨hmoves.room ih.room, ?_, ?_⟩
    · rw [hmoves.dp]
      omega
    · rw [hmoves.dp, hmoves.dlen]
      push_cast
      omega

/-- **The loop ends** when there is room for one turn for every 8 bytes and two more. -/
theorem walkLoop_some : ∀ {n : ℕ} {s : Walk}, 0 ≤ s.fin.finDlen →
    (s.p = IPPROTO_NONE ∨ s.fin.finDlen < 8 * ((n : ℤ) - 1)) → 1 ≤ n → ∃ s', walkLoop b n s = some s' := by
  intro n
  induction n with
  | zero =>
    intro s _ _ hn
    omega
  | succ n ih =>
    intro s hlen henough _
    unfold walkLoop
    cases hm : s.more with
    | false => exact ⟨s, rfl⟩
    | true =>
      obtain ⟨k, hmoves, hnext⟩ := step_moves b s
      have hlen' := hmoves.room hlen
      have hdlen := hmoves.dlen
      cases hm' : (s.step b).more with
      | false =>
        refine ⟨s.step b, ?_⟩
        cases n with
        | zero => simp [walkLoop, hm']
        | succ n => simp [walkLoop, hm']
      | true =>
        obtain hp | hlt := henough
        · rw [step_none hp] at hm'
          cases hm'
        · push_cast at hlt
          apply ih hlen'
          · obtain hp | hk := hnext hm'
            · exact .inl hp
            · right
              rw [hdlen]
              omega
          · omega

/-- More room changes nothing. -/
theorem walkLoop_mono : ∀ {n : ℕ} {s : Walk}, walkLoop b n s = some s' → walkLoop b (n + 1) s = some s' := by
  intro n
  induction n with
  | zero =>
    intro s h
    unfold walkLoop at h ⊢
    split at h
    · cases h
    · rename_i hm
      rw [if_neg hm]
      exact h
  | succ n ih =>
    intro s h
    unfold walkLoop at h ⊢
    split at h
    · rename_i hm
      rw [if_pos hm]
      exact ih h
    · rename_i hm
      rw [if_neg hm]
      exact h

/-- The loop ends in a state that its turns reach. -/
theorem walkLoop_steps : ∀ {n : ℕ} {s : Walk} {ps : List ℕ}, Steps b s₀ ps s → walkLoop b n s = some s' →
    ∃ ps', Steps b s₀ ps' s' ∧ s'.more = false := by
  intro n
  induction n with
  | zero =>
    intro s ps hs h
    unfold walkLoop at h
    split at h
    · cases h
    · rename_i hm
      cases h
      exact ⟨ps, hs, Bool.eq_false_iff.2 hm⟩
  | succ n ih =>
    intro s ps hs h
    unfold walkLoop at h
    split at h
    · rename_i hm
      exact ih (.step hs hm) h
    · rename_i hm
      cases h
      exact ⟨ps, hs, Bool.eq_false_iff.2 hm⟩

theorem walkLoop_end (h : s.more = false) (n : ℕ) : walkLoop b n s = some s := by
  cases n with
  | zero => simp [walkLoop, h]
  | succ n => simp [walkLoop, h]

/-- The turns that a state is reached by take so much room. -/
theorem Steps.loop (h : Steps b s₀ ps s) : ∀ n, walkLoop b (ps.length + n) s₀ = walkLoop b n s := by
  induction h with
  | start =>
    intro n
    rw [List.length_nil, zero_add]
  | step _ hm ih =>
    rename_i ps s _
    intro n
    have hroom := ih (n + 1)
    rw [List.length_append, List.length_singleton, add_assoc, add_comm 1 n, hroom]
    unfold walkLoop
    rw [if_pos hm]
    cases n with
    | zero => rfl
    | succ n => rfl

/-- There is one end. -/
theorem Steps.end_unique {ps ps' : List ℕ} (h : Steps b s₀ ps s) (hend : s.more = false) (h' : Steps b s₀ ps' s')
    (hend' : s'.more = false) : s = s' := by
  have hloop := h.loop ps'.length
  have hloop' := h'.loop ps.length
  rw [walkLoop_end hend] at hloop
  rw [walkLoop_end hend', add_comm, hloop] at hloop'
  exact Option.some.inj hloop'

/-- The length of the packet and the depth stay, and what is gone behind are headers of full 8 bytes. -/
theorem Steps.eights (h : Steps b s₀ ps s) :
    s.fin.finPlen = s₀.fin.finPlen ∧ s.fin.finDepth = s₀.fin.finDepth ∧
      (8 : ℤ) ∣ s₀.fin.finDlen - s.fin.finDlen := by
  induction h with
  | start => exact ⟨rfl, rfl, by simp⟩
  | step _ _ ih =>
    rename_i s _ _
    obtain ⟨k, hmoves, -⟩ := step_moves b s
    have hsofar := ih.2.2
    have hturn := hmoves.eights
    refine ⟨hmoves.plen.trans ih.1, hmoves.depth.trans ih.2.1, ?_⟩
    rw [hmoves.dlen]
    omega

/-- The payload length of an IPv6 header. -/
def payload (b : Buf) : ℕ := (b.be16 4).toNat

/-- The loop for a packet, at its start. -/
def start6 (b : Buf) (hlen : ℕ) (f : FrInfo) : Walk :=
  .start b { f.init hlen with finPlen := (payload b : ℤ) + hlen, finDlen := payload b }

theorem start6_within (b : Buf) (hlen : ℕ) (f : FrInfo) : Within hlen (payload b) (start6 b hlen f) :=
  ⟨Int.natCast_nonneg _, le_rfl, rfl⟩

/-- The end of the walk is what the analysis makes of the packet. -/
theorem makefrip6_end (b : Buf) (hlen : ℕ) (f : FrInfo) : ∃ ps s, Steps b (start6 b hlen f) ps s ∧ s.more = false ∧
      ∀ n, payload b / 8 + 2 ≤ n → ipfMakefrip6 b n hlen f = some s.finish := by
  have hlt : (start6 b hlen f).fin.finDlen < 8 * (((payload b / 8 + 2 : ℕ) : ℤ) - 1) := by
    change (payload b : ℤ) < _
    omega
  obtain ⟨s, hs⟩ := walkLoop_some (start6_within b hlen f).room (.inr hlt) (by omega) (b := b)
  obtain ⟨ps, hsteps, hend⟩ := walkLoop_steps .start hs
  refine ⟨ps, s, hsteps, hend, ?_⟩
  intro n hn
  have hloop : walkLoop b n (start6 b hlen f) = some s := by
    induction hn with
    | refl => exact hs
    | step _ ih => exact walkLoop_mono ih
  exact congrArg (Option.map Walk.finish) hloop

/-- The length of an IPv6 packet is that of its header, and it is scanned at depth 0. -/
theorem makefrip6_header {hlen : ℕ} {f r : FrInfo} (h : ipfMakefrip6 b (payload b / 8 + 2) hlen f = some r) :
    r.finPlen = payload b + hlen ∧ r.finDepth = 0 := by
  obtain ⟨ps, s, hsteps, -, hrun⟩ := makefrip6_end b hlen f
  rw [hrun _ le_rfl] at h
  cases h
  obtain ⟨hplen, hdepth, -⟩ := hsteps.eights
  have hfinish : s.finish.finPlen = s.fin.finPlen ∧ s.finish.finDepth = s.fin.finDepth := by
    unfold Walk.finish
    split
    · exact ⟨rfl, rfl⟩
    · exact ⟨(Stays.flagIf _ _ _).plen, (Stays.flagIf _ _ _).depth⟩
  exact ⟨hfinish.1.trans hplen, hfinish.2.trans hdepth⟩

/-- A turn that is the last one. -/
theorem makefrip6_last {hlen : ℕ} {f : FrInfo} (h : Steps b (start6 b hlen f) ps s) (hm : s.more = true)
    (hend : (s.step b).more = false) (hn : payload b / 8 + 2 ≤ n) : ipfMakefrip6 b n hlen f = some (s.step b).finish := by
  obtain ⟨ps', s', hsteps, hend', hrun⟩ := makefrip6_end b hlen f
  rw [hrun n hn, hsteps.end_unique hend' (.step h hm) hend]

/-- **The walk over the headers of an IPv6 packet** ends after one turn for every 8 bytes of the payload and at most two more,
whatever the headers are. At every turn the bytes between the fixed header and the packet's place, and those ahead, which are
not fewer than none, are the payload. -/
theorem ipv6hdr_walk (b : Buf) (hlen : ℕ) (f : FrInfo) :
    (∃ ps s, Steps b (start6 b hlen f) ps s ∧ s.more = false ∧
        ∀ n, payload b / 8 + 2 ≤ n → ipfMakefrip6 b n hlen f = some s.finish) ∧
      ∀ ps s, Steps b (start6 b hlen f) ps s →
        0 ≤ s.fin.finDlen ∧ hlen ≤ s.fin.finDp ∧ ((s.fin.finDp : ℤ) - hlen) + s.fin.finDlen = payload b := by
  refine ⟨makefrip6_end b hlen f, ?_⟩
  intro ps s hs
  have hw := hs.within (start6_within b hlen f)
  have htotal := hw.total
  exact ⟨hw.room, hw.start, by omega⟩

/-- An IPv6 packet from `::` to `::`. -/
def ipv6 (nxt : BitVec 8) (data : List (BitVec 8)) : Buf :=
  .ofList ([0x60, 0, 0, 0, 0, BitVec.ofNat 8 data.length, nxt, 64] ++ List.replicate 32 0 ++ data)

theorem ipv6hdr_walk_hop :
    ∃ ps s, Steps (ipv6 0 [59, 0, 0, 0, 0, 0, 0, 0]) (start6 (ipv6 0 [59, 0, 0, 0, 0, 0, 0, 0]) 40 .zero) ps s ∧
      ipfMakefrip6 (ipv6 0 [59, 0, 0, 0, 0, 0, 0, 0]) 3 40 .zero = some s.finish ∧ 0 ≤ s.fin.finDlen := by
  obtain ⟨⟨ps, s, hs, -, hrun⟩, hw⟩ := ipv6hdr_walk (ipv6 0 [59, 0, 0, 0, 0, 0, 0, 0]) 40 .zero
  exact ⟨ps, s, hs, hrun 3 (by decide), (hw ps s hs).1⟩

end Ipfilter.Makefrip
