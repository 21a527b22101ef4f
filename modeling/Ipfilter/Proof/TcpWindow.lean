import Ipfilter.Spec.TcpWindow

/-!
# The TCP window

* `tcpinwindow_rejected_iff` — **a rejected packet leaves both records alone** only if it neither ends the window of a `SYN`
  nor opens a side that has not sent yet: both come before the tests;
* `tcpinwindow_shift` — **where the numbers of the two sides start does not matter** for packets without `RST` and a sender
  that has sent before, and what is accepted moves no end back, but for an acknowledgement half the numbers behind.
-/

namespace Ipfilter.TcpWindow

open Tcp Serial

variable {p : Packet} {fdata tdata : Tcpdata} {c e : BitVec 32}

/-! ## What comes before the tests -/

/-- The record of the sender at the tests. -/
def Packet.before (p : Packet) (fdata : Tcpdata) : Tcpdata := p.open_ (p.win fdata) (p.clearFirst fdata)

theorem tcpinwindow_eq (p : Packet) (fdata tdata : Tcpdata) : ipfStateTcpinwindow p fdata tdata =
      if p.flags &&& IS_STRICT ≠ 0 ∧ p.thSeq ≠ (p.before fdata).tdEnd then ⟨0, p.before fdata, tdata, true⟩
      else if p.inseq (p.before fdata) tdata then
        ⟨1, (p.update (p.win fdata) (p.before fdata) tdata).1, (p.update (p.win fdata) (p.before fdata) tdata).2, false⟩
      else ⟨0, p.before fdata, tdata, true⟩ := rfl

/-- One packet: it is accepted and the records are brought up to date, or only what comes before the tests is kept. -/
theorem tcpinwindow_cases (p : Packet) (fdata tdata : Tcpdata) : ipfStateTcpinwindow p fdata tdata =
        ⟨1, (p.update (p.win fdata) (p.before fdata) tdata).1, (p.update (p.win fdata) (p.before fdata) tdata).2, false⟩ ∨
      ipfStateTcpinwindow p fdata tdata = ⟨0, p.before fdata, tdata, true⟩ := by
  rw [tcpinwindow_eq]
  split
  · exact .inr rfl
  · split
    · exact .inl rfl
    · exact .inr rfl

theorem tcpinwindow_rejected (h : (ipfStateTcpinwindow p fdata tdata).ret = 0) :
    ipfStateTcpinwindow p fdata tdata = ⟨0, p.before fdata, tdata, true⟩ := by
  obtain hacc | hrej := tcpinwindow_cases p fdata tdata
  · rw [hacc] at h
    cases h
  · exact hrej

@[simp] theorem Packet.open_winflags (win : BitVec 32) : (p.open_ win fdata).tdWinflags = fdata.tdWinflags := by
  unfold Packet.open_
  split <;> rfl

/-- What the sender of a packet opens with is what its record has. -/
def Packet.Opened (p : Packet) (fdata : Tcpdata) : Prop :=
  p.end_ = 1 ∧ fdata.tdMaxwin = 1 ∧ fdata.tdMaxend = p.end_ + p.win fdata

theorem before_iff (p : Packet) (fdata : Tcpdata) : p.before fdata = fdata ↔
      (p.sets TH_SYN = true ∨ has fdata.tdWinflags TCP_WSCALE_FIRST = false) ∧
      (p.opens fdata = true → p.Opened fdata) := by
  by_cases hfirst : p.sets TH_SYN = true ∨ has fdata.tdWinflags TCP_WSCALE_FIRST = false
  · have hclear : p.clearFirst fdata = fdata := by
      unfold Packet.clearFirst
      rw [if_neg]
      rintro ⟨hsyn, hhas⟩
      obtain h | h := hfirst
      · rw [h] at hsyn
        cases hsyn
      · rw [h] at hhas
        cases hhas
    unfold Packet.before Packet.open_ Packet.Opened
    rw [hclear]
    split
    · rename_i hop
      have hend : fdata.tdEnd = 0 := by
        unfold Packet.opens at hop
        exact (of_decide_eq_true hop).1
      constructor
      · intro heq
        refine ⟨hfirst, fun _ => ⟨?_, ?_, ?_⟩⟩
        · have h := congrArg Tcpdata.tdEnd heq
          rw [hend] at h
          exact (sub_eq_zero).1 h
        · exact (congrArg Tcpdata.tdMaxwin heq).symm
        · exact (congrArg Tcpdata.tdMaxend heq).symm
      · intro h
        obtain ⟨h1, h2, h3⟩ := h.2 hop
        have hend' : p.end_ - 1 = fdata.tdEnd := by rw [h1, hend]; exact BitVec.sub_self 1
        rw [hend', ← h2, ← h3]
    · rename_i hop
      constructor
      · intro _
        exact ⟨hfirst, fun h => absurd h hop⟩
      · intro _
        rfl
  · constructor
    · intro heq
      -- the flag that ends the first window is gone
      have hflags := congrArg Tcpdata.tdWinflags heq
      rw [not_or, Bool.not_eq_true, Bool.not_eq_false] at hfirst
      unfold Packet.before at hflags
      rw [Packet.open_winflags, Packet.clearFirst, if_pos (by simp [hfirst])] at hflags
      exact absurd hflags (and_not_ne (of_decide_eq_true hfirst.2))
    · intro h
      exact absurd h.1 hfirst

/-- **A rejected packet leaves both records alone** exactly if it has a `SYN` or the window of the `SYN` has ended before, and
it does not open a side that has not sent yet with anything but what its record has. -/
theorem tcpinwindow_rejected_iff (p : Packet) (fdata tdata : Tcpdata) (h : (ipfStateTcpinwindow p fdata tdata).ret = 0) :
    ((ipfStateTcpinwindow p fdata tdata).fdata = fdata ∧ (ipfStateTcpinwindow p fdata tdata).tdata = tdata) ↔
      (p.sets TH_SYN = true ∨ has fdata.tdWinflags TCP_WSCALE_FIRST = false) ∧
      (p.opens fdata = true → p.Opened fdata) := by
  rw [tcpinwindow_rejected h, ← before_iff]
  exact and_iff_left rfl

/-- A session with window scaling, whose server has sent its `SYN` only. -/
def scaled : Tcpdata := ⟨1000, 2000, 100, 2, TCP_WSCALE_SEEN ||| TCP_WSCALE_FIRST⟩

def peer : Tcpdata := ⟨5000, 6000, 1000, 2, 0⟩

/-- A packet far outside the window. -/
def forged : Packet := ⟨120, 0x40000000, 5000, 0xffff, 5, TH_ACK, 0⟩

theorem tcpinwindow_rejected_forged :
    (ipfStateTcpinwindow { forged with thFlags := TH_SYN } scaled peer).fdata = scaled ∧
      (ipfStateTcpinwindow { forged with thFlags := TH_SYN } scaled peer).tdata = peer :=
  (tcpinwindow_rejected_iff { forged with thFlags := TH_SYN } scaled peer (by decide)).2
    ⟨.inl (by decide), fun h => absurd h (by decide)⟩

/-- A rejected packet sets the window of its sender. -/
theorem tcpinwindow_widens :
    (ipfStateTcpinwindow forged scaled peer).ret = 0 ∧ (ipfStateTcpinwindow forged scaled peer).fdata ≠ scaled ∧
      scaled.tdMaxwin < (ipfStateTcpinwindow forged scaled peer).fdata.tdMaxwin := by
  decide

/-! ## Where the numbers start -/

/-- The record of a side whose numbers start `c` later. -/
def Tcpdata.shift (c : BitVec 32) (d : Tcpdata) : Tcpdata := { d with tdEnd := d.tdEnd + c, tdMaxend := d.tdMaxend + c }

/-- A packet whose sender starts `c` later, and its peer `e` later. -/
def Packet.shift (c e : BitVec 32) (p : Packet) : Packet := { p with thSeq := p.thSeq + c, thAck := p.thAck + e }

def Outcome.shift (c e : BitVec 32) (r : Outcome) : Outcome := { r with fdata := r.fdata.shift c, tdata := r.tdata.shift e }

theorem clearFirst_shift : (p.shift c e).clearFirst (fdata.shift c) = (p.clearFirst fdata).shift c := by
  unfold Packet.clearFirst
  rw [apply_ite (Tcpdata.shift c)]
  rfl

@[simp] theorem clearFirst_tdEnd : (p.clearFirst fdata).tdEnd = fdata.tdEnd := by
  unfold Packet.clearFirst
  split <;> rfl

@[simp] theorem clearFirst_tdMaxend : (p.clearFirst fdata).tdMaxend = fdata.tdMaxend := by
  unfold Packet.clearFirst
  split <;> rfl

/-- A side that has sent before does not open. -/
theorem before_of_ne (h : fdata.tdEnd ≠ 0) : p.before fdata = p.clearFirst fdata := by
  unfold Packet.before Packet.open_
  rw [if_neg]
  intro hop
  unfold Packet.opens at hop
  rw [clearFirst_tdEnd] at hop
  exact h (of_decide_eq_true hop).1

theorem before_shift (h : fdata.tdEnd ≠ 0) (h' : fdata.tdEnd + c ≠ 0) :
    (p.shift c e).before (fdata.shift c) = (p.before fdata).shift c := by
  rw [before_of_ne h, before_of_ne h', clearFirst_shift]

theorem end_shift : (p.shift c e).end_ = p.end_ + c := by
  calc p.thSeq + c + BitVec.ofInt 32 p.dsize = p.thSeq + BitVec.ofInt 32 p.dsize + c := by ac_rfl

/-- The hack for an acknowledgement of 0 is for a `RST` only. -/
theorem not_hack (hrst : p.sets TH_RST = false) : p.thFlags &&& (TH_ACK ||| TH_RST) ≠ TH_ACK ||| TH_RST := by
  intro h
  have hzero : p.thFlags &&& TH_RST = 0 := not_not.1 (of_decide_eq_false hrst)
  have hrst' := and_part h (t := TH_RST) (by decide)
  rw [hzero] at hrst'
  exact absurd hrst' (by decide)

theorem ack_of_not_rst (hrst : p.sets TH_RST = false) :
    p.ack tdata = if !p.sets TH_ACK then tdata.tdEnd else p.thAck := by
  unfold Packet.ack
  have hno : ¬(p.thFlags &&& (TH_ACK ||| TH_RST) = TH_ACK ||| TH_RST ∧ p.thAck = 0) := fun h => not_hack hrst h.1
  rw [if_neg hno]

theorem ack_shift (hrst : p.sets TH_RST = false) : (p.shift c e).ack (tdata.shift e) = p.ack tdata + e := by
  rw [ack_of_not_rst hrst, ack_of_not_rst (p := p.shift c e) hrst]
  exact (apply_ite (· + e) _ _ _).symm

theorem ackskew_shift (hrst : p.sets TH_RST = false) : (p.shift c e).ackskew (tdata.shift e) = p.ackskew tdata := by
  unfold Packet.ackskew
  rw [ack_shift hrst]
  apply add_sub_add

theorem inWindow_shift (hrst : p.sets TH_RST = false) :
    (p.shift c e).inWindow (fdata.shift c) (tdata.shift e) = p.inWindow fdata tdata := by
  unfold Packet.inWindow
  rw [ackskew_shift hrst, end_shift]
  simp only [Tcpdata.shift, Packet.shift, add_sub_right_comm, seqGe_add]

theorem guess_shift (hrst : p.sets TH_RST = false) :
    (p.shift c e).guess (fdata.shift c) (tdata.shift e) = p.guess fdata tdata := by
  have hcomm : p.thSeq + c + tdata.tdMaxwin = p.thSeq + tdata.tdMaxwin + c := by ac_rfl
  unfold Packet.guess
  rw [ackskew_shift hrst]
  simp only [Tcpdata.shift, Packet.shift, hcomm, add_sub_right_comm, seqGe_add, add_eq_add]

theorem inseq_shift (hrst : p.sets TH_RST = false) :
    (p.shift c e).inseq (fdata.shift c) (tdata.shift e) = p.inseq fdata tdata := by
  -- only a RST may have a sequence number of 0 for none
  have hno : ∀ q q' : Prop, ¬(q ∧ p.thFlags = TH_RST ||| TH_ACK ∧ q') := by
    rintro q q' ⟨-, h, -⟩
    unfold Packet.sets at hrst
    rw [h] at hrst
    cases hrst
  unfold Packet.inseq
  rw [inWindow_shift hrst, guess_shift hrst, ackskew_shift hrst]
  simp only [Packet.shift, Tcpdata.shift, add_eq_add, hno, if_false]

theorem update_shift (hrst : p.sets TH_RST = false) (win : BitVec 32) :
    (p.shift c e).update win (fdata.shift c) (tdata.shift e) =
      ((p.update win fdata tdata).1.shift c, (p.update win fdata tdata).2.shift e) := by
  have hcomm : p.ack tdata + e + win = p.ack tdata + win + e := by ac_rfl
  unfold Packet.update
  rw [ackskew_shift hrst, ack_shift hrst, end_shift]
  simp only [Tcpdata.shift, hcomm, seqGe_add, seqGt_add, Prod.mk.injEq, Tcpdata.mk.injEq, true_and, and_true]
  refine ⟨⟨?_, rfl⟩, ?_, ?_⟩
  · exact (apply_ite (· + c) _ _ _).symm
  · exact (apply_ite (· + e) _ _ _).symm
  · exact (apply_ite (· + e) _ _ _).symm

theorem ipfStateTcpinwindow_shift (hrst : p.sets TH_RST = false) (h : fdata.tdEnd ≠ 0) (h' : fdata.tdEnd + c ≠ 0) :
    ipfStateTcpinwindow (p.shift c e) (fdata.shift c) (tdata.shift e) = (ipfStateTcpinwindow p fdata tdata).shift c e := by
  have hbefore : (p.shift c e).before (fdata.shift c) = (p.before fdata).shift c := before_shift h h'
  have hseq : (p.shift c e).thSeq ≠ ((p.before fdata).shift c).tdEnd ↔ p.thSeq ≠ (p.before fdata).tdEnd :=
    not_congr (add_eq_add c)
  rw [tcpinwindow_eq, tcpinwindow_eq, hbefore, inseq_shift hrst, apply_ite (Outcome.shift c e), apply_ite (Outcome.shift c e)]
  have hwin : (p.shift c e).win (fdata.shift c) = p.win fdata := rfl
  rw [hwin, update_shift hrst]
  simp only [hseq]
  rfl

/-! ## What is accepted -/

/-- The ends of both sides are not behind where they were. -/
structure Forward (fdata tdata : Tcpdata) (r : Outcome) : Prop where
  fend : SeqGe r.fdata.tdEnd fdata.tdEnd
  fmaxend : SeqGe r.fdata.tdMaxend fdata.tdMaxend
  tend : SeqGe r.tdata.tdEnd tdata.tdEnd
  tmaxend : SeqGe r.tdata.tdMaxend tdata.tdMaxend

theorem ackskew_end (p : Packet) (tdata : Tcpdata) :
    SeqGe (if (p.ackskew tdata).toInt < 0 then p.ack tdata else tdata.tdEnd) tdata.tdEnd ↔ p.ackskew tdata ≠ half 32 := by
  split
  · rename_i h
    exact seqGe_of_neg h
  · rename_i h
    refine iff_of_true (seqGe_refl _) ?_
    intro heq
    rw [heq] at h
    exact h (by decide)

/-- A packet that is accepted from a side that has sent before. -/
theorem accepted_forward_iff (h : fdata.tdEnd ≠ 0) (hacc : (ipfStateTcpinwindow p fdata tdata).ret = 1) :
    Forward fdata tdata (ipfStateTcpinwindow p fdata tdata) ↔ p.ackskew tdata ≠ half 32 := by
  obtain heq | hrej := tcpinwindow_cases p fdata tdata
  · rw [heq, ← ackskew_end]
    constructor
    · intro hf
      exact hf.tend
    · intro hend
      rw [before_of_ne h]
      refine ⟨?_, ?_, hend, ?_⟩
      · change SeqGe (if SeqGt p.end_ (p.clearFirst fdata).tdEnd then p.end_ else (p.clearFirst fdata).tdEnd) fdata.tdEnd
        rw [clearFirst_tdEnd]
        apply seqGe_ite
      · change SeqGe (p.clearFirst fdata).tdMaxend fdata.tdMaxend
        rw [clearFirst_tdMaxend]
        apply seqGe_refl
      · apply seqGe_ite'
  · rw [hrej] at hacc
    cases hacc

/-- **Where the numbers of the two sides start does not matter** to a packet without `RST` from a side that has sent before. If
it is accepted, no end moves back exactly if its acknowledgement is not half the numbers behind what the peer sent. -/
theorem tcpinwindow_shift (p : Packet) (fdata tdata : Tcpdata) (c e : BitVec 32) (hrst : p.sets TH_RST = false)
    (h : fdata.tdEnd ≠ 0) (h' : fdata.tdEnd + c ≠ 0) :
    ipfStateTcpinwindow (p.shift c e) (fdata.shift c) (tdata.shift e) = (ipfStateTcpinwindow p fdata tdata).shift c e ∧
      ((ipfStateTcpinwindow p fdata tdata).ret = 1 →
        (Forward fdata tdata (ipfStateTcpinwindow p fdata tdata) ↔ p.ackskew tdata ≠ half 32)) :=
  ⟨ipfStateTcpinwindow_shift hrst h h', accepted_forward_iff h⟩

/-- A session that was picked up on its way. -/
def sender : Tcpdata := ⟨1000, 1000, 1, 0, 0⟩

def receiver : Tcpdata := ⟨5000, 5000, 5000, 0, 0⟩

/-- A packet that acknowledges what was sent half the numbers ago. -/
def stale : Packet := ⟨120, 1000, 5000 + 0x80000000, 100, 5, TH_ACK, 0⟩

theorem tcpinwindow_shift_wrap :
    ipfStateTcpinwindow ({ stale with thAck := 5000 }.shift 0xfffffff0 7) (sender.shift 0xfffffff0) (receiver.shift 7) =
        (ipfStateTcpinwindow { stale with thAck := 5000 } sender receiver).shift 0xfffffff0 7 ∧
      ((ipfStateTcpinwindow { stale with thAck := 5000 } sender receiver).ret = 1 →
        (Forward sender receiver (ipfStateTcpinwindow { stale with thAck := 5000 } sender receiver) ↔
          { stale with thAck := 5000 }.ackskew receiver ≠ half 32)) :=
  tcpinwindow_shift { stale with thAck := 5000 } sender receiver 0xfffffff0 7 (by decide) (by decide) (by decide)

/-- A packet is accepted and moves the end of what its peer sent back. -/
theorem tcpinwindow_back :
    (ipfStateTcpinwindow stale sender receiver).ret = 1 ∧
      ¬SeqGe (ipfStateTcpinwindow stale sender receiver).tdata.tdEnd receiver.tdEnd := by
  decide

end Ipfilter.TcpWindow
