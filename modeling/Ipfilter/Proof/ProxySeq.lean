import Ipfilter.Spec.ProxySeq
import Mathlib.Algebra.BigOperators.Group.List.Basic

/-!
# The renumbering of proxied TCP sessions

A `Line` is one direction of a session: the segments of the stream, with the size that the proxy gives them. It says what the
numbers of the stream should be after the change of sizes: `Line.orig` and `Line.tran` are the start of a segment before and
after.

* `Dir`: the offsets and least numbers of one direction; `fixseqack_out`, `fixseqack_in` take the function apart.
* `OutTracks`, `InTracks`: the sets hold the last resized segments of the line.
* `OutTracks.seq`, `OutTracks.ack`, `InTracks.seq`, `InTracks.ack`: the steps of each direction.
* `renumbered`: **translated segments are contiguous, retransmissions get the same number, and acknowledgements are mapped
  back,** in all sessions whose packets are `Calm`.
* `retransmission_shifts`: other sessions.
-/

namespace Ipfilter.ProxySeq

open List
open Masks (Word)
open Function (update update_of_ne update_self)

/-! ## Words -/

theorem u32_add (a b : ℤ) : u32 (a + b) = u32 a + u32 b := BitVec.ofInt_add ..

theorem u32_zero : u32 0 = 0#32 := rfl

theorem short_eq {z : ℤ} (h₁ : -2 ^ 15 ≤ z) (h₂ : z < 2 ^ 15) : short z = z := by
  unfold short
  exact Int.bmod_eq_of_le (by omega) (by omega)

/-! ## What the numbers should be -/

/-- A segment: how many bytes it has, and how many more it gets. -/
structure Seg where
  len : ℕ
  inc : ℤ
  deriving DecidableEq

/-- The size of a segment after the change. -/
def Seg.nlen (s : Seg) : ℤ := s.len + s.inc

/-- **One direction of a session:** the first number, the segments in the order of the stream, and the numbers that they were
given the first time. `cur` is the number of segments up to the last resized one, `old` the same for the other set, and
`pending` is whether nothing behind the last resized segment has been seen yet. -/
structure Line where
  iss : Word
  segs : List Seg
  sent : List Word
  cur : ℕ
  old : ℕ
  pending : Bool

variable {l : Line} {j k m : ℕ} {s : Seg}

/-- How much the first `j` segments grow. -/
def Line.off (l : Line) (j : ℕ) : ℤ := ((l.segs.take j).map Seg.inc).sum

/-- The bytes in the first `j` segments. -/
def Line.lens (l : Line) (j : ℕ) : ℤ := ((l.segs.take j).map fun s => (s.len : ℤ)).sum

/-- The number behind the first `j` segments. -/
def Line.orig (l : Line) (j : ℕ) : Word := l.iss + u32 (l.lens j)

/-- The same after the change of sizes. -/
def Line.tran (l : Line) (j : ℕ) : Word := l.iss + u32 (l.lens j + l.off j)

/-- The least number of a set that holds the first `m` segments. -/
def Line.least (l : Line) (m : ℕ) : Word := if m = 0 then 0 else l.tran m - 1

@[simp] theorem off_zero : l.off 0 = 0 := by simp [Line.off]

theorem tran_eq : l.tran j = l.orig j + u32 (l.off j) := by
  unfold Line.tran Line.orig
  rw [u32_add, BitVec.add_assoc]

theorem least_pos (hm : m ≠ 0) : l.least m = l.tran m - 1 := if_neg hm

theorem lens_succ (hk : l.segs[k]? = some s) : l.lens (k + 1) = l.lens k + s.len := by
  unfold Line.lens
  rw [take_add_one, hk, map_append, sum_append]
  simp

theorem off_succ (hk : l.segs[k]? = some s) : l.off (k + 1) = l.off k + s.inc := by
  unfold Line.off
  rw [take_add_one, hk, map_append, sum_append]
  simp

/-- **The translated segments are contiguous.** -/
theorem tran_succ (hk : l.segs[k]? = some s) : l.tran (k + 1) = l.tran k + u32 s.nlen := by
  have hsum : l.lens k + s.len + (l.off k + s.inc) = l.lens k + l.off k + s.nlen := by
    unfold Seg.nlen
    omega
  unfold Line.tran
  rw [lens_succ hk, off_succ hk, hsum, u32_add (l.lens k + l.off k), BitVec.add_assoc]

/-! ## What is seen of a stream -/

/-- A number behind the first `j` segments is seen. -/
def Line.reach (l : Line) (j : ℕ) : Line := { l with pending := l.pending && decide (j < l.cur) }

/-- The next segment comes, with the number that it is given. -/
def Line.push (l : Line) (s : Seg) (seq : Word) : Line :=
  if s.inc = 0 then { l with segs := l.segs ++ [s], sent := l.sent ++ [seq] }
  else { l with
    segs := l.segs ++ [s], sent := l.sent ++ [seq], cur := l.segs.length + 1, old := l.cur, pending := true }

/-- Segment `k` comes, for the first time or once more, and is given the number `seq`. A segment that was resized and comes once
more may be stored in the other set. -/
def Line.data (l : Line) (k : ℕ) (s : Seg) (seq : Word) : Line :=
  let l := l.reach k
  if k = l.segs.length then l.push s seq
  else if l.pending = false ∧ s.inc ≠ 0 ∧ l.least l.old < l.tran k then { l with old := k + 1 } else l

/-- **The marks of a line:** nothing was resized behind `cur`, nor between `old` and `cur` while the latter is pending. -/
structure Line.Ok (l : Line) : Prop where
  cur : l.cur ≤ l.segs.length
  old : l.old ≤ l.segs.length
  flat : ∀ j, l.cur ≤ j → j ≤ l.segs.length → l.off j = l.off l.cur
  before : l.pending = true → l.old < l.cur
  mid : l.pending = true → ∀ j, l.old ≤ j → j < l.cur → l.off j = l.off l.old

theorem Line.Ok.reach (h : l.Ok) (j : ℕ) : (l.reach j).Ok where
  cur := h.cur
  old := h.old
  flat := h.flat
  before hp := h.before (Bool.and_eq_true_iff.1 hp).1
  mid hp := h.mid (Bool.and_eq_true_iff.1 hp).1

section Push

variable {seq : Word}

theorem data_new (hk : k = l.segs.length) : l.data k s seq = (l.reach k).push s seq := if_pos hk

theorem data_again (hk : k < l.segs.length) : l.data k s seq =
    if (l.reach k).pending = false ∧ s.inc ≠ 0 ∧
      l.least l.old < l.tran k then { l.reach k with old := k + 1 } else l.reach k :=
  if_neg (ne_of_lt hk)

theorem push_segs : (l.push s seq).segs = l.segs ++ [s] := by
  unfold Line.push
  split <;> rfl

theorem push_iss : (l.push s seq).iss = l.iss := by
  unfold Line.push
  split <;> rfl

theorem push_sent : (l.push s seq).sent = l.sent ++ [seq] := by
  unfold Line.push
  split <;> rfl

theorem push_off (hj : j ≤ l.segs.length) : (l.push s seq).off j = l.off j := by
  unfold Line.off
  rw [push_segs, take_append_of_le_length hj]

theorem push_lens (hj : j ≤ l.segs.length) : (l.push s seq).lens j = l.lens j := by
  unfold Line.lens
  rw [push_segs, take_append_of_le_length hj]

theorem push_tran (hj : j ≤ l.segs.length) : (l.push s seq).tran j = l.tran j := by
  unfold Line.tran
  rw [push_lens hj, push_off hj, push_iss]

theorem push_least (hj : j ≤ l.segs.length) : (l.push s seq).least j = l.least j := by
  unfold Line.least
  rw [push_tran hj]

theorem push_last : (l.push s seq).segs[l.segs.length]? = some s := by
  rw [push_segs, getElem?_append_right (Nat.le_refl _), Nat.sub_self]
  rfl

theorem push_tran_last : (l.push s seq).tran (l.segs.length + 1) = l.tran l.segs.length + u32 s.nlen := by
  rw [tran_succ push_last, push_tran le_rfl]

theorem push_off_last : (l.push s seq).off (l.segs.length + 1) = l.off l.segs.length + s.inc := by
  rw [off_succ push_last, push_off le_rfl]

theorem Line.Ok.push (h : l.Ok) (hpend : l.pending = false) : (l.push s seq).Ok := by
  have hlen : (l.push s seq).segs.length = l.segs.length + 1 := by simp [push_segs]
  have hflat := h.flat l.segs.length h.cur le_rfl
  by_cases hinc : s.inc = 0
  · have hcur : (l.push s seq).cur = l.cur := by simp [Line.push, hinc]
    have hold : (l.push s seq).old = l.old := by simp [Line.push, hinc]
    have hp : ¬(l.push s seq).pending = true := by simp [Line.push, hinc, hpend]
    refine ⟨?_, ?_, fun j h1 h2 => ?_, fun hc => absurd hc hp, fun hc => absurd hc hp⟩
    · have := h.cur
      omega
    · have := h.old
      omega
    · rw [hcur] at h1 ⊢
      rw [push_off h.cur]
      rcases lt_or_ge j (l.segs.length + 1) with hj | hj
      · rw [push_off (by omega)]
        exact h.flat j h1 (by omega)
      · obtain rfl : j = l.segs.length + 1 := by omega
        rw [push_off_last, hinc, hflat, add_zero]
  · have hcur : (l.push s seq).cur = l.segs.length + 1 := by simp [Line.push, hinc]
    have hold : (l.push s seq).old = l.cur := by simp [Line.push, hinc]
    have hle := h.cur
    refine ⟨by omega, by omega, fun j h1 h2 => ?_, fun _ => by omega, fun _ j h1 h2 => ?_⟩
    · obtain rfl : j = l.segs.length + 1 := by omega
      rw [hcur]
    · rw [hold] at h1 ⊢
      rw [push_off (by omega), push_off hle]
      exact h.flat j h1 (by omega)

end Push

/-! ## The code, one direction at a time -/

/-- The sets of one direction, and which one is in use. -/
structure Dir where
  off : Bool → ℤ
  min : Bool → Word
  sel : Bool

/-- The numbers of the data that goes out. -/
def ApTcp.outgoing (aps : ApTcp) : Dir := ⟨aps.seqoff, aps.seqmin, aps.sel true⟩

/-- The numbers of the data that comes in. -/
def ApTcp.incoming (aps : ApTcp) : Dir := ⟨aps.ackoff, aps.ackmin, aps.sel false⟩

def Dir.switched (d : Dir) (x : Word) : Dir := { d with sel := switch d.min d.sel x }

/-- The number that a segment is given. -/
def Dir.seq (d : Dir) (x : Word) : Word := (shiftSeq (d.off (d.switched x).sel) (d.min (d.switched x).sel) x).1

/-- A set is stored: `flip` is whether it is the one that is not in use. -/
def Dir.store (d : Dir) (flip : Bool) (seq1 : Word) (nlen inc : ℤ) : Dir :=
  if inc ≠ 0 ∧ seq1 > d.min (!d.sel) then
    { d with
      off := update d.off (flip ^^ d.sel) (short (d.off d.sel + inc))
      min := update d.min (flip ^^ d.sel) (seq1 + u32 nlen - 1) }
  else d

/-- A segment comes. -/
def Dir.data (d : Dir) (flip : Bool) (x : Word) (nlen inc : ℤ) : Dir := (d.switched x).store flip (d.seq x) nlen inc

/-- What an acknowledgement is mapped to. -/
def Dir.ack (d : Dir) (x : Word) : Word := (shiftAck (d.off (d.switched x).sel) (d.min (d.switched x).sel) x).1

variable {a : ApTcp} {f : FrInfo} {i : ℤ}

/-- **A packet that goes out.** -/
theorem fixseqack_out (hout : f.finOut = true) : (ipfProxyFixseqack a f i).1.outgoing =
        a.outgoing.data false f.thSeq (f.finDlen - 4 * f.thOff) (short i) ∧
      (ipfProxyFixseqack a f i).2.1 = a.outgoing.seq f.thSeq ∧
      (ipfProxyFixseqack a f i).1.incoming = a.incoming.switched f.thAck ∧
      (ipfProxyFixseqack a f i).2.2.1 = a.incoming.ack f.thAck := by
  unfold ipfProxyFixseqack
  rw [if_pos hout]
  simp only [ApTcp.outgoing, ApTcp.incoming, Dir.switched, Dir.seq, Dir.ack, Dir.data, Dir.store, Bool.false_xor]
  split
  · simp
  · simp

/-- **A packet that comes in.** -/
theorem fixseqack_in (hout : f.finOut = false) : (ipfProxyFixseqack a f i).1.incoming =
        a.incoming.data true f.thSeq (f.finDlen - 4 * f.thOff) (short i) ∧
      (ipfProxyFixseqack a f i).2.1 = a.incoming.seq f.thSeq ∧
      (ipfProxyFixseqack a f i).1.outgoing = a.outgoing.switched f.thAck ∧
      (ipfProxyFixseqack a f i).2.2.1 = a.outgoing.ack f.thAck := by
  unfold ipfProxyFixseqack
  rw [if_neg (by simp [hout])]
  simp only [ApTcp.outgoing, ApTcp.incoming, Dir.switched, Dir.seq, Dir.ack, Dir.data, Dir.store, Bool.true_xor]
  split
  · simp
  · simp

/-! ## A set that holds a mark -/

variable {d : Dir} {c : Bool} {x y : Word}

/-- A set says what has been resized in the first `m` segments. -/
structure Dir.Holds (d : Dir) (l : Line) (c : Bool) (m : ℕ) : Prop where
  off : d.off c = l.off m
  min : d.min c = l.least m

/-- As 32-bit numbers, the starts of the segments `m` and `k` are in the order of the stream, if that matters. -/
def Line.SeqOrdered (l : Line) (m k : ℕ) : Prop := l.off m ≠ 0 → (l.orig m - 1 < l.orig k ↔ m ≤ k)

/-- The same for the translated numbers. -/
def Line.AckOrdered (l : Line) (m j : ℕ) : Prop := l.off m ≠ 0 → (l.tran m - 1 < l.tran j ↔ m ≤ j)

theorem Dir.Holds.least (h : d.Holds l c m) (hoff : l.off m ≠ 0) : d.min c = l.tran m - 1 := by
  have hm : m ≠ 0 := by
    rintro rfl
    exact hoff off_zero
  rw [h.min, least_pos hm]

/-- **A segment is translated.** -/
theorem Dir.Holds.seq (h : d.Holds l c m) (hord : l.SeqOrdered m k) (hflat : m ≤ k → l.off k = l.off m)
    (hlow : k < m → l.off k = 0) : (shiftSeq (d.off c) (d.min c) (l.orig k)).1 = l.tran k := by
  unfold shiftSeq
  rw [h.off, tran_eq]
  by_cases hoff : l.off m = 0
  · have hk : l.off k = 0 := by
      rcases lt_or_ge k m with hkm | hkm
      · exact hlow hkm
      · rw [hflat hkm, hoff]
    rw [if_neg (by simp [hoff]), hk, u32_zero, BitVec.add_zero]
  · -- the least number without the offset is the end of the last resized segment
    have hmin : d.min c - u32 (l.off m) = l.orig m - 1 := by
      rw [h.least hoff, tran_eq]
      generalize l.orig m = a
      generalize u32 (l.off m) = b
      bv_omega
    rw [hmin]
    by_cases hkm : m ≤ k
    · rw [if_pos ⟨hoff, (hord hoff).2 hkm⟩, hflat hkm]
    · rw [if_neg fun hc => hkm ((hord hoff).1 hc.2), hlow (by omega), u32_zero, BitVec.add_zero]

/-- **An acknowledgement is mapped back.** -/
theorem Dir.Holds.ack (h : d.Holds l c m) (hord : l.AckOrdered m j) (hflat : m ≤ j → l.off j = l.off m)
    (hlow : j < m → l.off j = 0) : (shiftAck (d.off c) (d.min c) (l.tran j)).1 = l.orig j := by
  have hback : l.tran j - u32 (l.off j) = l.orig j := by
    rw [tran_eq]
    generalize l.orig j = a
    generalize u32 (l.off j) = b
    bv_omega
  have hsame : l.off j = 0 → l.tran j = l.orig j := by
    intro hj
    rw [tran_eq, hj, u32_zero, BitVec.add_zero]
  unfold shiftAck
  rw [h.off]
  by_cases hoff : l.off m = 0
  · have hj : l.off j = 0 := by
      rcases lt_or_ge j m with hjm | hjm
      · exact hlow hjm
      · rw [hflat hjm, hoff]
    rw [if_neg (by simp [hoff])]
    exact hsame hj
  · rw [h.least hoff]
    by_cases hjm : m ≤ j
    · rw [if_pos ⟨hoff, (hord hoff).2 hjm⟩, ← hflat hjm]
      exact hback
    · rw [if_neg fun hc => hjm ((hord hoff).1 hc.2)]
      exact hsame (hlow (by omega))

theorem Dir.Holds.reach (h : d.Holds l c m) (j : ℕ) : d.Holds (l.reach j) c m := ⟨h.off, h.min⟩

theorem Dir.Holds.push (h : d.Holds l c m) (hm : m ≤ l.segs.length) : d.Holds (l.push s y) c m :=
  ⟨by rw [push_off hm, h.off], by rw [push_least hm, h.min]⟩

/-! ## Data that goes out -/

/-- **The set 0 holds the last resized segment,** and the set 1 is never used. -/
structure OutTracks (d : Dir) (l : Line) : Prop where
  sel : d.sel = false
  set : d.Holds l false l.cur
  other : d.min true = 0

theorem OutTracks.switched (h : OutTracks d l) (x : Word) (j : ℕ) : d.switched x = d ∧ OutTracks d (l.reach j) := by
  have hsw : switch d.min d.sel x = d.sel := by
    unfold switch
    rw [h.sel]
    refine if_neg ?_
    rintro ⟨hc, -⟩
    change d.min false < d.min true at hc
    rw [h.other] at hc
    bv_omega
  refine ⟨?_, h.sel, ⟨h.set.off, h.set.min⟩, h.other⟩
  unfold Dir.switched
  rw [hsw]

/-- What must hold of a segment that goes out: it is compared with the last resized one in the order of the stream; nothing was
resized before it if it is not behind the last resized one; and if it is resized, it is a new one, and not at 0. -/
structure CalmOut (l : Line) (k : ℕ) (s : Seg) : Prop where
  order : l.SeqOrdered l.cur k
  low : k < l.cur → l.off k = 0
  fresh : s.inc ≠ 0 → k = l.segs.length ∧ 0 < l.tran k

/-- What a proxy may do with a segment: sizes stay in range, and a retransmission is resized as before. -/
structure Line.Legal (l : Line) (k : ℕ) (s : Seg) : Prop where
  le : k ≤ l.segs.length
  again : k < l.segs.length → l.segs[k]? = some s
  size : 0 ≤ s.nlen
  inc : -2 ^ 15 < s.inc ∧ s.inc < 2 ^ 15
  total : -2 ^ 15 < l.off k + s.inc ∧ l.off k + s.inc < 2 ^ 15

/-- **A segment goes out.** -/
theorem OutTracks.seq (h : OutTracks d l) (hok : l.Ok) (hlegal : l.Legal k s) (hc : CalmOut l k s) :
    d.seq (l.orig k) = l.tran k ∧ OutTracks (d.data false (l.orig k) s.nlen (short s.inc)) (l.data k s (l.tran k)) := by
  have hsw := (h.switched (l.orig k) k).1
  have hseq : d.seq (l.orig k) = l.tran k := by
    unfold Dir.seq
    rw [hsw, h.sel]
    exact h.set.seq hc.order (fun hk => hok.flat k hk hlegal.le) hc.low
  have hshort : short s.inc = s.inc := short_eq (by have := hlegal.inc; omega) hlegal.inc.2
  refine ⟨hseq, ?_⟩
  unfold Dir.data Dir.store
  rw [hsw, hseq, hshort, h.sel]
  by_cases hinc : s.inc = 0
  · -- nothing is stored
    rw [if_neg (by simp [hinc])]
    rcases lt_or_ge k l.segs.length with hk | hk
    · rw [data_again hk, if_neg (by simp [hinc])]
      exact (h.switched (l.orig k) k).2
    · have hpush := (h.set.reach k).push (s := s) (y := l.tran k) hok.cur
      have hcur : ((l.reach k).push s (l.tran k)).cur = l.cur := by simp [Line.push, hinc, Line.reach]
      rw [data_new (le_antisymm hlegal.le hk)]
      refine ⟨h.sel, ?_, h.other⟩
      rw [hcur]
      exact hpush
  · obtain ⟨hk, hpos⟩ := hc.fresh hinc
    have hother : d.min (!false) = 0 := h.other
    rw [if_pos ⟨hinc, by rw [hother]; exact hpos⟩, data_new hk]
    have hcur : ((l.reach k).push s (l.tran k)).cur = l.segs.length + 1 := by simp [Line.push, hinc, Line.reach]
    have hoff : d.off false = l.off k := by
      rw [h.set.off]
      exact (hok.flat k (by rw [hk]; exact hok.cur) hlegal.le).symm
    have hnew : short (d.off false + s.inc) = l.off k + s.inc := by
      rw [hoff]
      exact short_eq (by have := hlegal.total; omega) hlegal.total.2
    refine ⟨rfl, ⟨?_, ?_⟩, ?_⟩
    · rw [hcur]
      change update d.off false (short (d.off false + s.inc)) false = _
      rw [update_self, hnew, hk]
      exact (push_off_last (l := l.reach l.segs.length)).symm
    · rw [hcur, least_pos (by omega)]
      change update d.min false (l.tran k + u32 s.nlen - 1) false = _
      rw [update_self, hk]
      exact congrArg (· - 1) (push_tran_last (l := l.reach l.segs.length)).symm
    · change update d.min false (l.tran k + u32 s.nlen - 1) true = 0
      rw [update_of_ne (by decide)]
      exact h.other

/-- What must hold of an acknowledgement for data that went out. -/
structure CalmOutAck (l : Line) (j : ℕ) : Prop where
  order : l.AckOrdered l.cur j
  low : j < l.cur → l.off j = 0

/-- **An acknowledgement comes in.** -/
theorem OutTracks.ack (h : OutTracks d l) (hok : l.Ok) (hj : j ≤ l.segs.length) (hc : CalmOutAck l j) :
    d.ack (l.tran j) = l.orig j ∧ OutTracks (d.switched (l.tran j)) (l.reach j) := by
  obtain ⟨hsw, htr⟩ := h.switched (l.tran j) j
  unfold Dir.ack
  rw [hsw, h.sel]
  exact ⟨h.set.ack hc.order (fun hk => hok.flat j hk hj) hc.low, htr⟩

/-! ## Data that comes in -/

/-- **The set in use holds the last resized segment,** or the one before it as long as the last one is pending; the other set is
for later numbers only while it is pending. -/
structure InTracks (d : Dir) (l : Line) : Prop where
  wait : l.pending = true → d.Holds l d.sel l.old ∧ d.Holds l (!d.sel) l.cur ∧ l.least l.old < l.least l.cur
  rest : l.pending = false → d.Holds l d.sel l.cur ∧ d.min (!d.sel) = l.least l.old ∧ ¬l.least l.cur < l.least l.old

/-- The mark that counts for a number behind `j` segments. -/
def Line.mark (l : Line) (j : ℕ) : ℕ := if l.pending && decide (j < l.cur) then l.old else l.cur

theorem mark_flat (hok : l.Ok) (hj : j ≤ l.segs.length) (hm : l.mark j ≤ j) : l.off j = l.off (l.mark j) := by
  unfold Line.mark at hm ⊢
  split at hm
  · rename_i hp
    rw [if_pos hp]
    obtain ⟨hp, hlt⟩ := Bool.and_eq_true_iff.1 hp
    exact hok.mid hp j hm (by simpa using hlt)
  · rename_i hp
    rw [if_neg hp]
    exact hok.flat j hm hj

/-- **The set for a number is chosen.** -/
theorem InTracks.switched (h : InTracks d l) (hseen : l.pending = true → (l.least l.cur < x ↔ l.cur ≤ j)) :
    InTracks (d.switched x) (l.reach j) ∧ (d.switched x).Holds l (d.switched x).sel (l.mark j) := by
  cases hp : l.pending with
  | false =>
    obtain ⟨hset, hmin, hle⟩ := h.rest hp
    have hsw : d.switched x = d := by
      unfold Dir.switched switch
      rw [if_neg fun hc => ?_]
      have hc' := hc.1
      rw [hmin, hset.min] at hc'
      exact hle hc'
    have hmark : l.mark j = l.cur := by simp [Line.mark, hp]
    rw [hsw, hmark]
    refine ⟨⟨fun hc => ?_, fun _ => ⟨hset.reach j, hmin, hle⟩⟩, hset⟩
    simp [Line.reach, hp] at hc
  | true =>
    obtain ⟨hset, hnext, hlt⟩ := h.wait hp
    by_cases hj : l.cur ≤ j
    · -- the other set is taken, and nothing is pending
      have hsw : d.switched x = { d with sel := !d.sel } := by
        unfold Dir.switched switch
        rw [if_pos ⟨by rw [hnext.min, hset.min]; exact hlt, by rw [hnext.min]; exact (hseen hp).2 hj⟩]
      have hge : ¬j < l.cur := by omega
      have hmark : l.mark j = l.cur := by simp [Line.mark, hge]
      rw [hsw, hmark]
      refine ⟨⟨fun hc => ?_, fun _ => ⟨⟨hnext.off, hnext.min⟩, ?_, ?_⟩⟩, ⟨hnext.off, hnext.min⟩⟩
      · simp [Line.reach, hge] at hc
      · change d.min (!!d.sel) = _
        rw [Bool.not_not]
        exact hset.min
      · change ¬l.least l.cur < l.least l.old
        bv_omega
    · have hsw : d.switched x = d := by
        unfold Dir.switched switch
        rw [if_neg fun hc => ?_]
        have hc' := hc.2
        rw [hnext.min] at hc'
        exact hj ((hseen hp).1 hc')
      have hmark : l.mark j = l.old := by
        have hlt' : j < l.cur := by omega
        simp [Line.mark, hp, hlt']
      rw [hsw, hmark]
      refine ⟨⟨fun _ => ⟨hset.reach j, hnext.reach j, hlt⟩, fun hc => ?_⟩, hset⟩
      have hlt' : j < l.cur := by omega
      simp [Line.reach, hp, hlt'] at hc

/-- What must hold of a segment that comes in. While a resized segment is pending its end is in the order of the stream with
this one, as 32-bit numbers; then the mark that counts for this one is; nothing was resized before this one if it is not behind
the mark. If this one is resized and new, it begins behind what the other set holds, and its end is behind what the set in use
holds; if it is resized and comes again, the other set does not get ahead. -/
structure CalmIn (l : Line) (k : ℕ) (s : Seg) : Prop where
  seen : l.pending = true → (l.least l.cur < l.orig k ↔ l.cur ≤ k)
  order : l.SeqOrdered (l.mark k) k
  low : k < l.mark k → l.off k = 0
  fresh : s.inc ≠ 0 → k = l.segs.length → l.least l.old < l.tran k ∧ l.least l.cur < l.tran k + u32 s.nlen - 1
  again : s.inc ≠ 0 → k < l.segs.length →
    if (l.reach k).pending then ¬l.least l.cur < l.tran k else l.least l.old < l.tran k → ¬l.least l.cur < l.least (k + 1)

/-- **A segment comes in.** -/
theorem InTracks.seq (h : InTracks d l) (hok : l.Ok) (hlegal : l.Legal k s) (hc : CalmIn l k s) :
    d.seq (l.orig k) = l.tran k ∧ InTracks (d.data true (l.orig k) s.nlen (short s.inc)) (l.data k s (l.tran k)) := by
  obtain ⟨htr, hset⟩ := h.switched hc.seen
  have hseq : d.seq (l.orig k) = l.tran k := hset.seq hc.order (mark_flat hok hlegal.le) hc.low
  have hshort : short s.inc = s.inc := short_eq (by have := hlegal.inc; omega) hlegal.inc.2
  refine ⟨hseq, ?_⟩
  unfold Dir.data
  rw [hseq, hshort]
  generalize d.switched (l.orig k) = e at htr hset
  unfold Dir.store
  -- sent again, or new
  rcases lt_or_ge k l.segs.length with hk | hk
  · rw [data_again hk]
    cases hp : (l.reach k).pending with
    | true =>
      obtain ⟨-, hnext, -⟩ := htr.wait hp
      rw [if_neg fun hs => ?_, if_neg (by simp)]
      · exact htr
      · have hno := hc.again hs.1 hk
        rw [if_pos hp] at hno
        have hs' := hs.2
        rw [hnext.min] at hs'
        exact hno hs'
    | false =>
      obtain ⟨hcur, hmin, hle⟩ := htr.rest hp
      -- another increment is stored only behind the last one
      by_cases hs : s.inc ≠ 0 ∧ l.tran k > e.min (!e.sel)
      · have hs' := hs.2
        rw [hmin] at hs'
        have hno := hc.again hs.1 hk
        rw [if_neg (by simp [hp])] at hno
        rw [if_pos hs, if_pos ⟨rfl, hs.1, hs'⟩]
        refine ⟨fun hc => by simp [hp] at hc, fun _ => ⟨⟨?_, ?_⟩, ?_, hno hs'⟩⟩
        · change update e.off (true ^^ e.sel) _ e.sel = _
          rw [update_of_ne (by simp)]
          exact hcur.off
        · change update e.min (true ^^ e.sel) _ e.sel = _
          rw [update_of_ne (by simp)]
          exact hcur.min
        · change update e.min (true ^^ e.sel) (l.tran k + u32 s.nlen - 1) (!e.sel) = l.least (k + 1)
          rw [Bool.true_xor, update_self, least_pos (by omega), tran_succ (hlegal.again hk)]
      · rw [if_neg hs, if_neg fun hs' => hs ⟨hs'.2.1, by rw [hmin]; exact hs'.2.2⟩]
        exact htr
  · have hkl := le_antisymm hlegal.le hk
    have hp : (l.reach k).pending = false := by
      have hcur := hok.cur
      simp only [Line.reach, Bool.and_eq_false_imp, decide_eq_false_iff_not]
      omega
    obtain ⟨hcur, hmin, hle⟩ := htr.rest hp
    rw [data_new hkl]
    -- without an increment the tracked offsets stay
    by_cases hinc : s.inc = 0
    · have hcur' : ((l.reach k).push s (l.tran k)).cur = l.cur := by simp [Line.push, hinc, Line.reach]
      have hold' : ((l.reach k).push s (l.tran k)).old = l.old := by simp [Line.push, hinc, Line.reach]
      have hp' : ((l.reach k).push s (l.tran k)).pending = false := by simp [Line.push, hinc, hp]
      have hl1 : ((l.reach k).push s (l.tran k)).least l.cur = l.least l.cur := push_least (l := l.reach k) hok.cur
      have hl2 : ((l.reach k).push s (l.tran k)).least l.old = l.least l.old := push_least (l := l.reach k) hok.old
      rw [if_neg (by simp [hinc])]
      refine ⟨fun hc => by simp [hp'] at hc, fun _ => ?_⟩
      rw [hcur', hold', hl1, hl2]
      exact ⟨hcur.push hok.cur, hmin, hle⟩
    · obtain ⟨h1, h2⟩ := hc.fresh hinc hkl
      rw [if_pos ⟨hinc, by rw [hmin]; exact h1⟩]
      have hcur' : ((l.reach k).push s (l.tran k)).cur = l.segs.length + 1 := by simp [Line.push, hinc, Line.reach]
      have hold' : ((l.reach k).push s (l.tran k)).old = l.cur := by simp [Line.push, hinc, Line.reach]
      have hp' : ((l.reach k).push s (l.tran k)).pending = true := by simp [Line.push, hinc]
      have hoff : e.off e.sel = l.off k := by
        rw [hcur.off]
        exact (hok.flat k (by rw [hkl]; exact hok.cur) hlegal.le).symm
      have hnew : short (e.off e.sel + s.inc) = l.off k + s.inc := by
        rw [hoff]
        exact short_eq (by have := hlegal.total; omega) hlegal.total.2
      have hkeep := hcur.push (s := s) (y := l.tran k) hok.cur
      have hlast : ((l.reach k).push s (l.tran k)).least (l.segs.length + 1) = l.tran k + u32 s.nlen - 1 := by
        rw [least_pos (by omega), hkl]
        exact congrArg (· - 1) (push_tran_last (l := l.reach l.segs.length))
      refine ⟨fun _ => ?_, fun hc => by simp [hp'] at hc⟩
      rw [hcur', hold']
      refine ⟨⟨?_, ?_⟩, ⟨?_, ?_⟩, ?_⟩
      · change update e.off (true ^^ e.sel) _ e.sel = _
        rw [update_of_ne (by simp)]
        exact hkeep.off
      · change update e.min (true ^^ e.sel) _ e.sel = _
        rw [update_of_ne (by simp)]
        exact hkeep.min
      · change update e.off (true ^^ e.sel) (short (e.off e.sel + s.inc)) (!e.sel) = _
        rw [Bool.true_xor, update_self, hnew, hkl]
        exact (push_off_last (l := l.reach l.segs.length)).symm
      · change update e.min (true ^^ e.sel) (l.tran k + u32 s.nlen - 1) (!e.sel) = _
        rw [Bool.true_xor, update_self, hlast]
      · have hkeep' : ((l.reach k).push s (l.tran k)).least l.cur = l.least l.cur := push_least (l := l.reach k) hok.cur
        rw [hkeep', hlast]
        exact h2

/-- What must hold of an acknowledgement for data that came in. -/
structure CalmInAck (l : Line) (j : ℕ) : Prop where
  seen : l.pending = true → (l.least l.cur < l.tran j ↔ l.cur ≤ j)
  order : l.AckOrdered (l.mark j) j
  low : j < l.mark j → l.off j = 0

/-- **An acknowledgement goes out.** -/
theorem InTracks.ack (h : InTracks d l) (hok : l.Ok) (hj : j ≤ l.segs.length) (hc : CalmInAck l j) :
    d.ack (l.tran j) = l.orig j ∧ InTracks (d.switched (l.tran j)) (l.reach j) := by
  obtain ⟨htr, hset⟩ := h.switched hc.seen
  exact ⟨hset.ack hc.order (mark_flat hok hj) hc.low, htr⟩

/-! ## Sessions -/

theorem Line.Ok.data (h : l.Ok) (hk : k ≤ l.segs.length) : (l.data k s y).Ok := by
  have hreach := h.reach k
  rcases lt_or_ge k l.segs.length with hlt | hge
  · rw [data_again hlt]
    split
    · rename_i hs
      refine ⟨hreach.cur, hlt, hreach.flat, fun hc => ?_, fun hc => ?_⟩
      · exact absurd (hs.1.symm.trans hc) (by decide)
      · exact absurd (hs.1.symm.trans hc) (by decide)
    · exact hreach
  · rw [data_new (le_antisymm hk hge)]
    apply hreach.push
    have hcur := h.cur
    simp only [Line.reach, Bool.and_eq_false_imp, decide_eq_false_iff_not]
    omega

/-- The numbers that segments were given the first time are the right ones. -/
structure Line.Numbered (l : Line) : Prop where
  length : l.sent.length = l.segs.length
  sent : ∀ k, k < l.segs.length → l.sent[k]? = some (l.tran k)

theorem Line.Numbered.data (h : l.Numbered) (hk : k ≤ l.segs.length) : (l.data k s (l.tran k)).Numbered := by
  rcases lt_or_ge k l.segs.length with hlt | hge
  · rw [data_again hlt]
    split
    · exact ⟨h.length, h.sent⟩
    · exact ⟨h.length, h.sent⟩
  · have hkl := le_antisymm hk hge
    rw [data_new hkl]
    have hsegs : ((l.reach k).push s (l.tran k)).segs.length = l.segs.length + 1 := by
      rw [push_segs, length_append]
      rfl
    refine ⟨?_, fun i hi => ?_⟩
    · rw [hsegs, push_sent, length_append]
      exact congrArg (· + 1) h.length
    · rw [push_sent]
      change (l.sent ++ [l.tran k])[i]? = _
      have htran : ((l.reach k).push s (l.tran k)).tran i = l.tran i := push_tran (l := l.reach k) (by
        change i ≤ l.segs.length
        omega)
      rw [htran]
      rcases lt_or_ge i l.segs.length with hi' | hi'
      · rw [getElem?_append_left (by rw [h.length]; exact hi')]
        exact h.sent i hi'
      · obtain rfl : i = l.segs.length := by omega
        rw [hkl, ← h.length, getElem?_append_right (Nat.le_refl _), Nat.sub_self]
        rfl

/-- The end of the first `j` segments as the peer sees it: the end of the last one of them that it was sent. -/
def Line.ending (l : Line) : ℕ → Word
  | 0 => l.iss
  | j + 1 => l.sent.getD j 0 + u32 (l.segs.getD j ⟨0, 0⟩).nlen

theorem Line.Numbered.ending (h : l.Numbered) (hj : j ≤ l.segs.length) : l.ending j = l.tran j := by
  cases j with
  | zero =>
    change l.iss = l.iss + u32 (l.lens 0 + l.off 0)
    have hzero : l.lens 0 + l.off 0 = 0 := by simp [Line.lens]
    rw [hzero, u32_zero, BitVec.add_zero]
  | succ j =>
    have hlt : j < l.segs.length := hj
    have hseg : l.segs[j]? = some l.segs[j] := getElem?_eq_getElem hlt
    rw [tran_succ hseg]
    change l.sent.getD j 0 + u32 (l.segs.getD j ⟨0, 0⟩).nlen = _
    rw [getD_eq_getElem?_getD, getD_eq_getElem?_getD, h.sent j hlt, hseg]
    rfl

/-- A session: what the proxy keeps, and both directions; `true` is the data that goes out. -/
structure Session where
  aps : ApTcp
  line : Bool → Line

/-- A packet: its direction, its segment and the size that the proxy gives it, and how many segments of the other direction it
acknowledges. A packet without data has a segment of length 0. -/
structure Packet where
  out : Bool
  k : ℕ
  seg : Seg
  j : ℕ
  thOff : ℕ

/-- The packet as it comes to `ipf_proxy_fixseqack`, which is after its size was changed. -/
def Session.info (t : Session) (p : Packet) : FrInfo :=
  ⟨p.out, p.seg.nlen + 4 * p.thOff, p.thOff, (t.line p.out).orig p.k, (t.line !p.out).ending p.j⟩

/-- What `ipf_proxy_fixseqack` does with a packet: the numbers that it is given. -/
def Session.reply (t : Session) (p : Packet) : ApTcp × Word × Word × ℕ := ipfProxyFixseqack t.aps (t.info p) p.seg.inc

/-- **A packet comes.** -/
def Session.step (t : Session) (p : Packet) : Session where
  aps := (t.reply p).1
  line := fun o => if o = p.out then (t.line o).data p.k p.seg (t.reply p).2.1 else (t.line o).reach p.j

/-- Nothing was sent yet. -/
def Session.start (iss : Bool → Word) : Session := ⟨.zero, fun o => ⟨iss o, [], [], 0, 0, false⟩⟩

/-- A packet of an in-order stream, or one that is sent again. -/
structure Session.Legal (t : Session) (p : Packet) : Prop where
  data : (t.line p.out).Legal p.k p.seg
  ack : p.j ≤ (t.line !p.out).segs.length

/-- **The packets that go right.** -/
structure Session.Calm (t : Session) (p : Packet) : Prop where
  out : p.out = true → CalmOut (t.line true) p.k p.seg ∧ CalmInAck (t.line false) p.j
  inc : p.out = false → CalmIn (t.line false) p.k p.seg ∧ CalmOutAck (t.line true) p.j

/-- **What should happen to a packet:** a new segment begins where the one before it ended, a retransmission is given the same
number as the first time, and an acknowledgement is mapped to the end of the original segment. -/
structure Session.Right (t : Session) (p : Packet) : Prop where
  new : p.k = (t.line p.out).segs.length → (t.reply p).2.1 = (t.line p.out).ending p.k
  again : p.k < (t.line p.out).segs.length → (t.line p.out).sent[p.k]? = some (t.reply p).2.1
  ack : (t.reply p).2.2.1 = (t.line !p.out).orig p.j

inductive Run (C : Session → Packet → Prop) (iss : Bool → Word) : Session → Prop
  | start : Run C iss (.start iss)
  | step {t : Session} {p : Packet} : Run C iss t → t.Legal p → C t p → Run C iss (t.step p)

/-- The sets follow the streams. -/
structure Session.Good (t : Session) : Prop where
  ok : ∀ o, (t.line o).Ok
  numbered : ∀ o, (t.line o).Numbered
  out : OutTracks t.aps.outgoing (t.line true)
  inc : InTracks t.aps.incoming (t.line false)

variable {t : Session} {p : Packet}

/-- **A packet that goes right.** -/
theorem Session.Good.step (h : t.Good) (hl : t.Legal p) (hc : t.Calm p) :
    ((t.reply p).2.1 = (t.line p.out).tran p.k ∧ (t.reply p).2.2.1 = (t.line !p.out).orig p.j) ∧ (t.step p).Good := by
  have hsize : (t.info p).finDlen - 4 * (t.info p).thOff = p.seg.nlen := by
    change p.seg.nlen + 4 * p.thOff - 4 * p.thOff = _
    omega
  have hack : (t.info p).thAck = (t.line !p.out).tran p.j := (h.numbered _).ending hl.ack
  have hseq : (t.info p).thSeq = (t.line p.out).orig p.k := rfl
  -- what is left are the two directions
  have hgood : (t.reply p).2.1 = (t.line p.out).tran p.k → OutTracks (t.reply p).1.outgoing ((t.step p).line true) →
      InTracks (t.reply p).1.incoming ((t.step p).line false) → (t.step p).Good := by
    intro hnum hout hin
    refine ⟨fun o => ?_, fun o => ?_, hout, hin⟩
    · unfold Session.step
      dsimp only
      split
      · rename_i ho
        rw [ho]
        exact (h.ok _).data hl.data.le
      · exact (h.ok o).reach p.j
    · unfold Session.step
      dsimp only
      split
      · rename_i ho
        rw [ho, hnum]
        exact (h.numbered _).data hl.data.le
      · exact ⟨(h.numbered o).length, (h.numbered o).sent⟩
  have hldata := hl.data
  have hlack := hl.ack
  cases hp : p.out with
  | true =>
    obtain ⟨hc1, hc2⟩ := hc.out hp
    rw [hp] at hldata hlack hack hseq
    obtain ⟨h1, h2, h3, h4⟩ := fixseqack_out (a := t.aps) (f := t.info p) (i := p.seg.inc) hp
    rw [hsize, hseq] at h1
    rw [hseq] at h2
    rw [hack] at h3 h4
    obtain ⟨ho1, ho2⟩ := h.out.seq (h.ok true) hldata hc1
    obtain ⟨hi1, hi2⟩ := h.inc.ack (h.ok false) hlack hc2
    have hnum : (t.reply p).2.1 = (t.line true).tran p.k := h2.trans ho1
    refine ⟨⟨hnum, h4.trans hi1⟩, hgood (by rw [hp]; exact hnum) ?_ ?_⟩
    · have hline : (t.step p).line true = (t.line true).data p.k p.seg ((t.line true).tran p.k) := by
        unfold Session.step
        dsimp only
        rw [if_pos hp.symm, hnum]
      rw [hline]
      change OutTracks (ipfProxyFixseqack t.aps (t.info p) p.seg.inc).1.outgoing _
      rw [h1]
      exact ho2
    · have hline : (t.step p).line false = (t.line false).reach p.j := by
        unfold Session.step
        dsimp only
        rw [if_neg (by simp [hp])]
      rw [hline]
      change InTracks (ipfProxyFixseqack t.aps (t.info p) p.seg.inc).1.incoming _
      rw [h3]
      exact hi2
  | false =>
    obtain ⟨hc1, hc2⟩ := hc.inc hp
    rw [hp] at hldata hlack hack hseq
    obtain ⟨h1, h2, h3, h4⟩ := fixseqack_in (a := t.aps) (f := t.info p) (i := p.seg.inc) hp
    rw [hsize, hseq] at h1
    rw [hseq] at h2
    rw [hack] at h3 h4
    obtain ⟨hi1, hi2⟩ := h.inc.seq (h.ok false) hldata hc1
    obtain ⟨ho1, ho2⟩ := h.out.ack (h.ok true) hlack hc2
    have hnum : (t.reply p).2.1 = (t.line false).tran p.k := h2.trans hi1
    refine ⟨⟨hnum, h4.trans ho1⟩, hgood (by rw [hp]; exact hnum) ?_ ?_⟩
    · have hline : (t.step p).line true = (t.line true).reach p.j := by
        unfold Session.step
        dsimp only
        rw [if_neg (by simp [hp])]
      rw [hline]
      change OutTracks (ipfProxyFixseqack t.aps (t.info p) p.seg.inc).1.outgoing _
      rw [h3]
      exact ho2
    · have hline : (t.step p).line false = (t.line false).data p.k p.seg ((t.line false).tran p.k) := by
        unfold Session.step
        dsimp only
        rw [if_pos hp.symm, hnum]
      rw [hline]
      change InTracks (ipfProxyFixseqack t.aps (t.info p) p.seg.inc).1.incoming _
      rw [h1]
      exact hi2

theorem good_start (iss : Bool → Word) : (Session.start iss).Good := by
  refine ⟨fun o => ⟨le_rfl, le_rfl, fun j _ hj => ?_, nofun, nofun⟩,
    fun o => ⟨rfl, fun k hk => absurd hk (Nat.not_lt_zero k)⟩, ⟨rfl, ⟨?_, rfl⟩, rfl⟩,
      ⟨nofun, fun _ => ⟨⟨?_, rfl⟩, rfl, ?_⟩⟩⟩
  · obtain rfl : j = 0 := Nat.le_zero.1 hj
    rfl
  · exact off_zero.symm
  · exact off_zero.symm
  · exact BitVec.lt_irrefl _

/-- **The sets follow the streams** in every session of calm packets. -/
theorem run_good {iss : Bool → Word} (hr : Run Session.Calm iss t) : t.Good := by
  induction hr with
  | start => exact good_start iss
  | step _ hl hc ih => exact (ih.step hl hc).2

/-- **Sequence numbers are renumbered consistently** in every session of calm packets. -/
theorem renumbered (iss : Bool → Word) (t : Session) (hr : Run Session.Calm iss t) (p : Packet) (hl : t.Legal p)
    (hc : t.Calm p) : t.Right p := by
  have hg := run_good hr
  obtain ⟨⟨hseq, hack⟩, -⟩ := hg.step hl hc
  refine ⟨fun _ => ?_, fun hk => ?_, hack⟩
  · rw [hseq, (hg.numbered _).ending hl.data.le]
  · rw [hseq, (hg.numbered _).sent p.k hk]

/-! ## Some packets -/

/-- Both directions begin at 1000. -/
def fresh : Session := .start fun _ => 1000

/-- The first segment that goes out, with 10 bytes, gets 5 more. -/
def grown : Packet := ⟨true, 0, ⟨10, 5⟩, 0, 5⟩

/-- The next one, with 20 bytes, stays as it is. -/
def next : Packet := ⟨true, 1, ⟨20, 0⟩, 0, 5⟩

theorem grown_legal : fresh.Legal grown :=
  ⟨⟨by decide, fun h => absurd h (by decide), by decide, by decide, by decide⟩, by decide⟩

theorem grown_calm : fresh.Calm grown :=
  ⟨fun _ => ⟨⟨fun h => absurd rfl h, by decide, fun _ => by decide⟩, ⟨nofun, fun h => absurd rfl h, by decide⟩⟩,
    nofun⟩

theorem next_legal : (fresh.step grown).Legal next :=
  ⟨⟨by decide, fun h => absurd h (by decide), by decide, by decide, by decide⟩, by decide⟩

theorem next_calm : (fresh.step grown).Calm next :=
  ⟨fun _ => ⟨⟨fun _ => by decide, by decide, by decide⟩, ⟨by decide, fun h => absurd rfl h, by decide⟩⟩, nofun⟩

/-- The segment after one that was resized. -/
theorem renumbered_next : (fresh.step grown).Right next :=
  renumbered (fun _ => 1000) (fresh.step grown) (.step .start grown_legal grown_calm) next next_legal next_calm

/-- **A retransmission shifts the stream.** The first segment grows by 5 bytes and is sent once more; the offset is counted
twice, and the next segment does not begin where this one ended. -/
theorem retransmission_shifts : ¬∀ (iss : Bool → Word) (t : Session), Run (fun _ _ => True) iss t →
    ∀ p : Packet, t.Legal p →
    t.Right p := by
  intro hall
  have hagain : (fresh.step grown).Legal grown :=
    ⟨⟨by decide, fun _ => rfl, by decide, by decide, by decide⟩, by decide⟩
  have hnext : ((fresh.step grown).step grown).Legal next :=
    ⟨⟨by decide, fun h => absurd h (by decide), by decide, by decide, by decide⟩, by decide⟩
  have hright := hall (fun _ => 1000) _ (.step (.step .start grown_legal trivial) hagain trivial) next hnext
  exact absurd (hright.new (by decide)) (by decide)

end Ipfilter.ProxySeq
