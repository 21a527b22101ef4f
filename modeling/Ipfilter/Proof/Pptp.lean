import Ipfilter.Spec.Pptp

/-!
# Messages that come in segments of their own

* `turn_message`: one turn of the loop reads a whole message.
* `run_handed`: **each control message is handed over once, byte for byte**, in both directions.
* `stuck`: **a message of another type is handed over without end**, as soon as there is a byte behind it.
-/

namespace Ipfilter.Pptp

open Function (update update_eq_self update_idem update_self update_of_ne)
open BitVec (add_assoc ofNat ofNat_add)

/-- The byte at `i`. -/
def byte (msg : List Byte) (i : ℕ) : Byte := msg.getD i 0

/-- A message that fits into the buffer. -/
structure Message (msg : List Byte) : Prop where
  header : 8 ≤ msg.length
  fits : msg.length ≤ 512
  size : ntohs (byte msg) 0 = msg.length
  cookie : ntohs (byte msg) 4 * 65536 + ntohs (byte msg) 6 = 0x1a2b3c4d

/-- A message that `ipf_p_pptp_message` takes. -/
structure Control (msg : List Byte) : Prop extends Message msg where
  type : ntohs (byte msg) 2 = PPTP_MSGTYPE_CTL

/-- The data of the segment is the message, and `k` bytes behind it. -/
structure Carries (t : Seg) (msg : List Byte) (k : ℕ) : Prop where
  dlen : t.finDlen = t.tcpOff + (msg.length + k)
  data : ∀ i < msg.length, t.m (t.off + i) = byte msg i

/-- A side that waits for a message. -/
structure Side.Ready (s : Side) (next : Word) : Prop where
  gothdr : s.pptpsGothdr = false
  bytes : s.pptpsBytes = 0
  wptr : s.pptpsWptr = 0
  next : s.pptpsNext = next

/-- A side with a whole message, of a type that is refused. -/
structure Side.Stuck (s : Side) : Prop where
  gothdr : s.pptpsGothdr = true
  bytes : s.pptpsBytes = s.pptpsLen
  type : ntohs s.pptpsBuffer 2 ≠ PPTP_MSGTYPE_CTL

/-- A session whose segments each carry one message, in order on each side; `first` are the first numbers, and `told` the
messages. -/
inductive Run (first : Bool → Word) : (Bool → List (List Byte)) → PptpPxy → Prop
  | start {p : PptpPxy} : (∀ rev, (p.pptpSide rev).Ready (first rev)) → (∀ rev, p.handed rev = []) →
    Run first (fun _ => []) p
  | segment {told p p' rev msg r} {t : Seg} : Run first told p → Control msg → Carries t msg 0 →
      t.thSeq = first rev + ofNat 32 (told rev).flatten.length →
      ipfPPptpNextmessage msg.length p rev t = some (p', r) → Run first (update told rev (told rev ++ [msg])) p'

variable {m : ℕ → Byte} {p : PptpPxy} {rev : Bool} {s : Side} {msg : List Byte} {off k : ℕ} {t : Seg} {next : Word}

theorem ntohs_congr {b b' : ℕ → Byte} {i : ℕ} (h0 : b i = b' i) (h1 : b (i + 1) = b' (i + 1)) :
    ntohs b i = ntohs b' i := by
  unfold ntohs
  rw [h0, h1]

theorem message_eq (hs : p.pptpSide rev = s) : ipfPPptpMessage p rev =
    ({ p with handed := update p.handed rev (p.handed rev ++ [(List.range s.pptpsLen).map s.pptpsBuffer]) },
      if ntohs s.pptpsBuffer 2 = PPTP_MSGTYPE_CTL then 0 else EINVAL) := by
  subst hs
  rfl

/-- A header is read. -/
theorem readhdr_message (hs : s.Ready next) (hc : Message msg) (hm : ∀ i < msg.length, m (off + i) = byte msg i) :
    ∃ s', readhdr m s off (msg.length + k) = .ok (s', off + 8, msg.length - 8 + k) ∧ s'.pptpsBytes = 8 ∧
      s'.pptpsWptr = 8 ∧
      s'.pptpsGothdr = true ∧ s'.pptpsLen = msg.length ∧ s'.pptpsNext = next + 8 ∧
        ∀ i < 8, s'.pptpsBuffer i = byte msg i := by
  obtain ⟨hg, hb, hw, hn⟩ := hs
  have hlong := hc.header
  have hlen : ushort (min (8 - (0 : ℕ) : ℤ) (msg.length + k : ℕ)) = 8 := by
    unfold ushort
    omega
  have hbuf : ∀ i < 8, (s.copydata m off 8).pptpsBuffer i = byte msg i := by
    intro i hi
    unfold Side.copydata
    dsimp only
    rw [hw, if_pos ⟨Nat.zero_le _, by omega⟩, Nat.sub_zero, hm i (by omega)]
  have hhdr : ∀ i < 7, ntohs (s.copydata m off 8).pptpsBuffer i = ntohs (byte msg) i :=
    fun i hi => ntohs_congr (hbuf i (by omega)) (hbuf (i + 1) (by omega))
  have h8 : (s.copydata m off 8).pptpsBytes = 8 := by simp [Side.copydata, hb]
  unfold readhdr
  rw [hb, hlen]
  dsimp only
  rw [if_pos h8, hhdr 4 (by omega), hhdr 6 (by omega), hhdr 0 (by omega), hc.cookie, hc.size]
  dsimp only
  rw [if_neg (by simp), if_neg (by have := hc.fits; omega), Nat.sub_add_comm hlong]
  exact ⟨_, rfl, h8, by simp [Side.copydata, hw], rfl, rfl, by simp [Side.copydata, hn], hbuf⟩

/-- **One turn reads a whole message**, and hands it over. -/
theorem turn_message (hs : (p.pptpSide rev).Ready next) (hc : Message msg)
    (hm : ∀ i < msg.length, m (off + i) = byte msg i) : ∃ (s : Side) (off' : ℕ), turn m rev p off (msg.length + k) =
        .ok (⟨update p.pptpSide rev (if ntohs (byte msg) 2 = PPTP_MSGTYPE_CTL then s.clear else s),
          update p.handed rev (p.handed rev ++ [msg])⟩, off', k) ∧
      s.pptpsNext = next + ofNat 32 msg.length ∧ s.pptpsGothdr = true ∧ s.pptpsBytes = s.pptpsLen ∧
      ntohs s.pptpsBuffer 2 = ntohs (byte msg) 2 := by
  obtain ⟨s, hread, hb, hw, hg, hl, hn, hbuf⟩ := readhdr_message (k := k) hs hc hm
  have hlong := hc.header
  have hfits := hc.fits
  have hlen : ushort (min (msg.length - (8 : ℕ) : ℤ) (msg.length - 8 + k : ℕ)) = msg.length - 8 := by
    unfold ushort
    omega
  obtain ⟨g, hg'⟩ : ∃ g, g = { s.copydata m (off + 8) (msg.length - 8) with
    pptpsNext := s.pptpsNext + ofNat 32 (msg.length - 8) } := ⟨_, rfl⟩
  have hall : ∀ i < msg.length, g.pptpsBuffer i = byte msg i := by
    intro i hi
    rw [hg']
    unfold Side.copydata
    dsimp only
    rw [hw]
    by_cases h8 : 8 ≤ i
    · rw [if_pos ⟨h8, by omega⟩, ← hm i hi]
      congr 1
      omega
    · rw [if_neg (by omega), hbuf i (by omega)]
  have hgl : g.pptpsLen = msg.length := by rw [hg', ← hl]; rfl
  have hgb : g.pptpsBytes = msg.length := by
    simp only [hg', Side.copydata, hb]
    omega
  have hdone : ¬g.pptpsBytes < g.pptpsLen := by omega
  have hmsg : (List.range g.pptpsLen).map g.pptpsBuffer = msg := by
    rw [hgl]
    refine List.ext_getElem (by simp) fun i h1 h2 => ?_
    rw [List.getElem_map, List.getElem_range, hall i h2]
    simp [byte, h2]
  have htype : ntohs g.pptpsBuffer 2 = ntohs (byte msg) 2 := ntohs_congr (hall 2 (by omega)) (hall 3 (by omega))
  refine ⟨g, off + 8, ?_, ?_, by rw [hg', ← hg]; rfl, hgb.trans hgl.symm, htype⟩
  · unfold turn
    dsimp only
    rw [hs.gothdr, hs.bytes, Nat.add_zero, if_neg Bool.false_ne_true, hread]
    dsimp only
    rw [hl, hb, hlen, if_neg (by rw [hg'] at hdone; exact hdone), ← hg']
    rw [message_eq (update_self ..), hmsg, htype, Nat.add_sub_cancel_left]
    by_cases hctl : ntohs (byte msg) 2 = PPTP_MSGTYPE_CTL
    · rw [if_pos hctl, if_pos rfl, if_pos hctl]
      simp only [PptpPxy.upd, update_idem]
    · rw [if_neg hctl, if_neg (show ¬EINVAL = 0 by decide), if_neg hctl]
      rfl
  · rw [hg', hn, add_assoc, show (8 : Word) = ofNat 32 8 from rfl, ← ofNat_add, Nat.add_sub_cancel' hlong]

/-- A segment with the next number. -/
theorem nextmessage_turns {d : ℕ} (hn : (p.pptpSide rev).pptpsNext = t.thSeq) (hd : t.finDlen = t.tcpOff + (d + 1))
    (n : ℕ) :
    ipfPPptpNextmessage n p rev t = turns t.m rev n p t.off (d + 1) := by
  have hlen : ((t.finDlen : ℤ) - t.tcpOff) = (d + 1 : ℕ) := by
    rw [hd]
    omega
  unfold ipfPPptpNextmessage
  dsimp only
  rw [hlen, if_neg (by omega), hn, if_neg (fun h => absurd h.2 (BitVec.lt_irrefl _)), if_neg (not_not.2 rfl), Int.toNat_natCast]

/-- A segment that begins with a whole message. -/
theorem nextmessage_message (hs : (p.pptpSide rev).Ready t.thSeq) (hc : Message msg) (ht : Carries t msg k) (n : ℕ) :
    ∃ (s : Side) (off : ℕ), ipfPPptpNextmessage (n + 1) p rev t = turns t.m rev n
        ⟨update p.pptpSide rev (if ntohs (byte msg) 2 = PPTP_MSGTYPE_CTL then s.clear else s),
          update p.handed rev (p.handed rev ++ [msg])⟩ off k ∧
      s.pptpsNext = t.thSeq + ofNat 32 msg.length ∧ s.pptpsGothdr = true ∧ s.pptpsBytes = s.pptpsLen ∧
      ntohs s.pptpsBuffer 2 = ntohs (byte msg) 2 := by
  obtain ⟨s, off, hturn, hrest⟩ := turn_message (m := t.m) (k := k) hs hc ht.data
  have hlong := hc.header
  obtain ⟨j, hj⟩ : ∃ j, msg.length + k = j + 1 := ⟨msg.length + k - 1, by omega⟩
  refine ⟨s, off, ?_, hrest⟩
  rw [hj] at hturn
  rw [nextmessage_turns hs.next (d := j) (by rw [ht.dlen]; omega), turns, hturn]

/-- A segment with a control message. -/
theorem nextmessage_control (hs : (p.pptpSide rev).Ready t.thSeq) (hc : Control msg) (ht : Carries t msg 0) :
    ∃ s, ipfPPptpNextmessage msg.length p rev t =
        some (⟨update p.pptpSide rev s, update p.handed rev (p.handed rev ++ [msg])⟩, 0) ∧
      s.Ready (t.thSeq + ofNat 32 msg.length) := by
  have hlong := hc.header
  obtain ⟨s, off, heq, hnext, -⟩ := nextmessage_message hs hc.toMessage ht (msg.length - 1)
  rw [Nat.sub_add_cancel (by omega), if_pos hc.type, turns] at heq
  exact ⟨s.clear, heq, rfl, rfl, rfl, hnext⟩

/-- A turn of a side that is stuck only hands the message over. -/
theorem Side.Stuck.turn (hs : (p.pptpSide rev).Stuck) (m : ℕ → Byte) (off d : ℕ) :
    ∃ h off', Pptp.turn m rev p off (d + 1) =
    .ok ({ p with handed := h }, off', d + 1) := by
  have hlen : ushort (min ((p.pptpSide rev).pptpsLen - (p.pptpSide rev).pptpsLen : ℤ) (d + 1 : ℕ)) = 0 := by
    unfold ushort
    omega
  have hcopy : ∀ off, (p.pptpSide rev).copydata m off 0 = p.pptpSide rev := by
    intro off
    unfold Side.copydata
    congr 1
    funext i
    exact if_neg (by omega)
  unfold Pptp.turn
  dsimp only
  rw [hs.gothdr, if_pos rfl]
  dsimp only
  rw [show ((p.pptpSide rev).pptpsBytes : ℤ) =
    (p.pptpSide rev).pptpsLen by rw [hs.bytes], hlen, hcopy, if_neg (by rw [hs.bytes]; omega)]
  have hsame : p.upd rev { p.pptpSide rev with pptpsNext := (p.pptpSide rev).pptpsNext + ofNat 32 0 } = p := by
    rw [show ofNat 32 0 = 0#32 from rfl, BitVec.add_zero]
    exact congrArg (fun f => { p with pptpSide := f }) (update_eq_self rev p.pptpSide)
  rw [hsame, message_eq rfl, if_neg hs.type, if_neg (show ¬EINVAL = 0 by decide)]
  exact ⟨_, _, rfl⟩

/-- **The loop never ends.** -/
theorem turns_stuck : ∀ (n : ℕ) {p : PptpPxy} {off d : ℕ}, (p.pptpSide rev).Stuck → turns m rev n p off (d + 1) = none
  | 0, _, _, _, _ => rfl
  | n + 1, p, off, d, hs => by
    obtain ⟨h, off', hturn⟩ := hs.turn m off d
    rw [turns, hturn]
    exact turns_stuck n hs

/-- **Each control message is handed over once, byte for byte**; the next number is the one behind it, and the next message is
taken. -/
theorem run_handed {first : Bool → Word} {told : Bool → List (List Byte)} (h : Run first told p) : p.handed = told ∧
    ∀ rev, (p.pptpSide rev).Ready (first rev + ofNat 32 (told rev).flatten.length) ∧ ∀ msg t, Control msg →
      Carries t msg 0 →
      t.thSeq = first rev + ofNat 32 (told rev).flatten.length →
        ∃ p', ipfPPptpNextmessage msg.length p rev t = some (p', 0) := by
  have hr : p.handed = told ∧ ∀ rev, (p.pptpSide rev).Ready (first rev + ofNat 32 (told rev).flatten.length) := by
    induction h with
    | start hs hn => exact ⟨funext hn, fun rev => by simpa using hs rev⟩
    | @segment told p p' rev msg r t _ hc ht hseq heq ih =>
      obtain ⟨hh, hr⟩ := ih
      obtain ⟨s, hs, hready⟩ := nextmessage_control (hseq ▸ hr rev) hc ht
      cases hs.symm.trans heq
      refine ⟨by rw [hh], fun rev' => ?_⟩
      by_cases hrr : rev' = rev
      · subst hrr
        dsimp only
        rw [update_self, update_self, List.flatten_append, List.length_append, ofNat_add, ← add_assoc, ← hseq]
        simpa using hready
      · dsimp only
        rw [update_of_ne hrr, update_of_ne hrr]
        exact hr rev'
  refine ⟨hr.1, fun rev => ⟨hr.2 rev, fun msg t hc ht hseq => ?_⟩⟩
  obtain ⟨s, hs, -⟩ := nextmessage_control (hseq ▸ hr.2 rev) hc ht
  exact ⟨_, hs⟩

/-- **A message of another type is never done with:** the loop hands it over without end if there is a byte behind it, or else
when the next segment comes. -/
theorem stuck (hs : (p.pptpSide rev).Ready t.thSeq) (hc : Message msg) (htype : ntohs (byte msg) 2 ≠ PPTP_MSGTYPE_CTL)
    (ht : Carries t msg k) : (0 < k → ∀ n, ipfPPptpNextmessage n p rev t = none) ∧
      (k = 0 → ∃ p', ipfPPptpNextmessage msg.length p rev t = some (p', 0) ∧ ∀ t', t'.tcpOff < t'.finDlen →
        t'.thSeq = t.thSeq + ofNat 32 msg.length → ∀ n, ipfPPptpNextmessage n p' rev t' = none) := by
  have hlong := hc.header
  constructor
  · rintro hk (_ | n)
    · exact nextmessage_turns hs.next (d := msg.length + k - 1) (by rw [ht.dlen]; omega) 0
    · obtain ⟨s, off, heq, -, hg, hb, hty⟩ := nextmessage_message hs hc ht n
      cases k with
      | zero => exact absurd hk (Nat.lt_irrefl 0)
      | succ j =>
        rw [heq, if_neg htype]
        refine turns_stuck n ?_
        dsimp only
        rw [update_self]
        exact ⟨hg, hb, hty.trans_ne htype⟩
  · rintro rfl
    obtain ⟨s, off, heq, hnext, hg, hb, hty⟩ := nextmessage_message hs hc ht (msg.length - 1)
    rw [Nat.sub_add_cancel (by omega), if_neg htype, turns] at heq
    refine ⟨_, heq, fun t' hd hseq n => ?_⟩
    rw [nextmessage_turns (d := t'.finDlen - t'.tcpOff - 1) ?_ (by omega)]
    · refine turns_stuck n ?_
      dsimp only
      rw [update_self]
      exact ⟨hg, hb, hty.trans_ne htype⟩
    · dsimp only
      rw [update_self, hnext, hseq]

/-- A message of the shortest length. -/
def hello (type : Byte) : List Byte := [0, 8, 0, type, 0x1a, 0x2b, 0x3c, 0x4d]

def idle : PptpPxy := ⟨fun _ => ⟨0, 0, false, 0, 0, 0, fun _ => 0⟩, fun _ => []⟩

theorem carries_hello (type : Byte) (seq : Word) (k : ℕ) : Carries ⟨8 + k, 0, seq, 0, byte (hello type)⟩ (hello type) k :=
  ⟨(Nat.zero_add _).symm, fun i _ => congrArg _ (Nat.zero_add i)⟩

/-- Two messages in one direction, and one in the other. -/
theorem run_handed_hellos :
    ∃ p : PptpPxy, p.handed false = [hello 1, hello 1] ∧ p.handed true = [hello 1] := by
  have hc : Control (hello 1) := ⟨⟨by decide, by decide, by decide, by decide⟩, by decide⟩
  have h₀ : Run (fun _ => 0) (fun _ => []) idle := .start (fun _ => ⟨rfl, rfl, rfl, rfl⟩) fun _ => rfl
  obtain ⟨p₁, hp₁⟩ := ((run_handed h₀).2 false).2 _ _ hc (carries_hello 1 0 0) rfl
  have h₁ : Run (fun _ => 0) _ p₁ := h₀.segment hc (carries_hello 1 0 0) rfl hp₁
  obtain ⟨p₂, hp₂⟩ := ((run_handed h₁).2 true).2 _ _ hc (carries_hello 1 0 0) rfl
  have h₂ : Run (fun _ => 0) _ p₂ := h₁.segment hc (carries_hello 1 0 0) rfl hp₂
  -- the second message is behind the 8 bytes of the first one
  obtain ⟨p₃, hp₃⟩ := ((run_handed h₂).2 false).2 _ _ hc (carries_hello 1 8 0) rfl
  have h₃ : Run (fun _ => 0) _ p₃ := h₂.segment hc (carries_hello 1 8 0) rfl hp₃
  have hhanded := (run_handed h₃).1
  exact ⟨p₃, congrFun hhanded false, congrFun hhanded true⟩

theorem stuck_hello : ipfPPptpNextmessage 1000 idle false ⟨9, 0, 0, 0, byte (hello 2)⟩ = none :=
  (stuck ⟨rfl, rfl, rfl, rfl⟩ ⟨by decide, by decide, by decide, by decide⟩ (by decide) (carries_hello 2 0 1)).1
    Nat.one_pos 1000

end Ipfilter.Pptp
