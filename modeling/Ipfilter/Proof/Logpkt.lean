import Ipfilter.Proof.Log
import Ipfilter.Spec.Logpkt

/-!
# Do log records say how long they are?

* `logPkt_record`: what is in the record of a packet.
* `lengths_kept`: when the lengths survive being stored in 8 bits.
* `logPkt_describes_iff`: **which records have the length that is given in them**, and no more than the packet.
-/

namespace Ipfilter.IpLog

open Sync (Byte Half Layout)
open Masks (Word)

variable {B : Type} {inet6 logall : Bool} {layout : Layout Ipflog} {w w' : Softl B} {fin : PktInfo B} {flags : Flags} {x : ℕ}

/-- **A record describes itself**: its length is that of the two structures and of what they say follows, which is not more
than the packet has. -/
def Describes (layout : Layout Ipflog) (r : Iplog) (plen : ℤ) : Prop :=
  let ipfl := layout.get (r.data.take layout.size)
  r.dsize = sizeofIplog + layout.size + ipfl.flHlen.toNat + ipfl.flPlen.toNat ∧
    (ipfl.flHlen.toNat + ipfl.flPlen.toNat : ℤ) ≤ plen

/-- **Headers and body fit into 8 bits**, and the headers into the packet. The body counts only where all of it is logged. -/
def Small (inet6 logall : Bool) (flags : Flags) (fin : PktInfo B) : Prop :=
  fin.finDp + fin.hdrPart inet6 < 256 ∧ (fin.finDp + fin.hdrPart inet6 : ℤ) ≤ fin.finPlen ∧
    (logall = true → has flags FR_LOGBODY = true → fin.finPlen < fin.finDp + fin.hdrPart inet6 + 256)

section

variable [Zero B] [DecidableEq B]

/-- What is in the record of a packet. -/
theorem logPkt_record (h : ipfLogPkt inet6 logall layout w fin flags (some x) = (w', 0)) :
    (w'.ipl x).dsize = sizeofIplog + (layout.size + (fin.finDp + fin.hdrPart inet6 +
        (fin.mlen logall flags (fin.finDp + fin.hdrPart inet6)).toNat)) ∧
      layout.get ((w'.ipl x).data.take layout.size) =
        fin.ipflog flags (fin.finDp + fin.hdrPart inet6) (fin.mlen logall flags (fin.finDp + fin.hdrPart inet6)) := by
  unfold ipfLogPkt at h
  cases hm : fin.finM with
  | none => simp [hm] at h
  | some m =>
    simp only [hm] at h
    set hlen := fin.finDp + fin.hdrPart inet6
    set mlen := fin.mlen logall flags hlen
    set items := [layout.put (fin.ipflog flags hlen mlen), (List.range (hlen + mlen.toNat)).map m] with hitems
    have hlike : (w'.ipl x).like ((w.fill x items).ipl x) := by
      obtain ⟨-, hfail⟩ | ⟨y, hy, -, ⟨-, hmerge⟩ | ⟨-, hnew⟩⟩ :=
        items_cases w (some fin.toFrInfo) items (some x)
      · rw [hfail] at h
        simp at h
      · cases hy
        rw [hmerge] at h
        obtain rfl := (Prod.mk.inj h).1
        exact again_like (w.fill x items) x
      · cases hy
        rw [hnew] at h
        obtain rfl := (Prod.mk.inj h).1
        exact ⟨rfl, rfl, rfl⟩
    obtain ⟨-, hsize, hdata⟩ := hlike
    rw [hsize, hdata]
    have hput := layout.length_put (fin.ipflog flags hlen mlen)
    constructor
    · simp [Softl.fill, hitems, hput]
    · simp only [Softl.fill, Function.update_self, hitems, List.flatten_cons, List.flatten_nil, List.append_nil]
      rw [← hput, List.take_left, layout.get_put]

/-- A record is made if there is room for it. -/
theorem logPkt_succeeds {m : ℕ → Byte} (hm : fin.finM = some m)
    (hroom : w.used + (sizeofIplog + (layout.size + (fin.finDp + fin.hdrPart inet6 +
      (fin.mlen logall flags (fin.finDp + fin.hdrPart inet6)).toNat)) : ℕ) ≤ w.logsize) :
    (ipfLogPkt inet6 logall layout w fin flags (some x)).2 = 0 := by
  simp only [ipfLogPkt, hm]
  set items := [layout.put (fin.ipflog flags (fin.finDp + fin.hdrPart inet6)
    (fin.mlen logall flags (fin.finDp + fin.hdrPart inet6))), (List.range (fin.finDp + fin.hdrPart inet6 +
    (fin.mlen logall flags (fin.finDp + fin.hdrPart inet6)).toNat)).map m] with hitems
  have hlen : items.flatten.length = layout.size + (fin.finDp + fin.hdrPart inet6 +
      (fin.mlen logall flags (fin.finDp + fin.hdrPart inet6)).toNat) := by
    simp [hitems, layout.length_put]
  obtain ⟨hfull | hnone, -⟩ | ⟨y, -, -, ⟨-, hmerge⟩ | ⟨-, hnew⟩⟩ :=
    items_cases w (some fin.toFrInfo) items (some x)
  · rw [hlen] at hfull
    omega
  · cases hnone
  · rw [hmerge]
  · rw [hnew]

omit [Zero B] [DecidableEq B]

instance (inet6 logall : Bool) (flags : Flags) (fin : PktInfo B) : Decidable (Small inet6 logall flags fin) := by
  unfold Small
  infer_instance

theorem mlen_nonneg (fin : PktInfo B) (logall : Bool) (flags : Flags) (hlen : ℕ) : 0 ≤ fin.mlen logall flags hlen := by
  unfold PktInfo.mlen
  dsimp only
  split <;> omega

/-- When the body that is logged fits into 8 bits. -/
theorem mlen_small_iff (fin : PktInfo B) (logall : Bool) (flags : Flags) (hlen : ℕ) :
    fin.mlen logall flags hlen < 256 ↔ (logall = true → has flags FR_LOGBODY = true → fin.finPlen < hlen + 256) := by
  unfold PktInfo.mlen
  cases logall <;> cases has flags FR_LOGBODY <;> simp <;> omega

/-- What is logged is not more than the packet has, if its headers are not. -/
theorem mlen_le (fin : PktInfo B) (logall : Bool) (flags : Flags) (hlen : ℕ) :
    hlen + fin.mlen logall flags hlen ≤ fin.finPlen ↔ (hlen : ℤ) ≤ fin.finPlen := by
  unfold PktInfo.mlen
  cases logall <;> cases has flags FR_LOGBODY <;> simp <;> split <;> omega

/-- **Lengths survive in 8 bits** if they are below 256. -/
theorem lengths_kept (fin : PktInfo B) (flags : Flags) {hlen : ℕ} {mlen : ℤ} (hm : 0 ≤ mlen) :
    (fin.ipflog flags hlen mlen).flHlen.toNat + (fin.ipflog flags hlen mlen).flPlen.toNat = hlen + mlen.toNat ↔
      hlen < 256 ∧ mlen < 256 := by
  obtain ⟨n, rfl⟩ := Int.eq_ofNat_of_zero_le hm
  simp only [PktInfo.ipflog, BitVec.toNat_ofNat, BitVec.ofInt_natCast, BitVec.toNat_setWidth, Int.toNat_natCast]
  omega

end

section

variable [Zero B] [DecidableEq B]

/-- **Which records describe themselves.** -/
theorem logPkt_describes_iff (h : ipfLogPkt inet6 logall layout w fin flags (some x) = (w', 0)) :
    Describes layout (w'.ipl x) fin.finPlen ↔ Small inet6 logall flags fin := by
  obtain ⟨hsize, hipfl⟩ := logPkt_record h
  unfold Describes Small
  simp only [hsize, hipfl]
  have hm := mlen_nonneg fin logall flags (fin.finDp + fin.hdrPart inet6)
  have hkept := @lengths_kept B fin flags (fin.finDp + fin.hdrPart inet6) _ hm
  have hle := mlen_le fin logall flags (fin.finDp + fin.hdrPart inet6)
  have hsmall := mlen_small_iff fin logall flags (fin.finDp + fin.hdrPart inet6)
  push_cast at hle hsmall
  rw [← hle, ← hsmall]
  generalize fin.mlen logall flags (fin.finDp + fin.hdrPart inet6) = mlen at *
  generalize (fin.ipflog flags (fin.finDp + fin.hdrPart inet6) mlen).flHlen.toNat = flHlen at *
  generalize (fin.ipflog flags (fin.finDp + fin.hdrPart inet6) mlen).flPlen.toNat = flPlen at *
  generalize fin.hdrPart inet6 = part at *
  constructor
  · rintro ⟨hdsize, hlen⟩
    have hboth := hkept.1 (by omega)
    exact ⟨hboth.1, by omega, hboth.2⟩
  · rintro ⟨h1, h2, h3⟩
    have hsame := hkept.2 ⟨h1, h3⟩
    exact ⟨by omega, by omega⟩

end

/-- A UDP packet without options. -/
def udpPkt (plen : ℤ) : PktInfo ℕ where
  finOff := 0
  finCrc := 0
  bytes := 0
  finM := some fun _ => 0
  finDp := 20
  finP := IPPROTO_UDP
  finDlen := plen - 20
  finPlen := plen
  icmpType := 0
  finRule := 1
  finGroup := 0
  finFr := none
  finReason := 0
  finOut := 0
  finFlx := 0
  finFamily := 2

/-- There is room for its record. -/
theorem udpPkt_logged (plen : ℤ) (hplen : plen = 100 ∨ plen = 340) :
    ∃ w', ipfLogPkt true true ipflogLayout (init 32768 false fun _ => ⟨0, 0, 0, []⟩) (udpPkt plen) FR_LOGBODY (some 1) =
      (w', 0) := by
  generalize hr : ipfLogPkt true true ipflogLayout (init 32768 false fun _ => ⟨0, 0, 0, []⟩) (udpPkt plen) FR_LOGBODY
    (some 1) = r
  have hok : r.2 = 0 := by
    rw [← hr]
    refine logPkt_succeeds rfl ?_
    rcases hplen with rfl | rfl <;> decide
  exact ⟨r.1, Prod.ext rfl hok⟩

theorem logPkt_describes_short : ∃ w', ipfLogPkt true true ipflogLayout (init 32768 false fun _ => ⟨0, 0, 0, []⟩)
    (udpPkt 100)
    FR_LOGBODY (some 1) = (w', 0) ∧ Describes ipflogLayout (w'.ipl 1) 100 := by
  obtain ⟨w', h⟩ := udpPkt_logged 100 (.inl rfl)
  exact ⟨w', h, (logPkt_describes_iff h).2 (by decide)⟩

/-- **The record of a packet with 340 bytes says that 56 of its 312 bytes of body follow.** -/
theorem logPkt_not_describes : ∃ w', ipfLogPkt true true ipflogLayout (init 32768 false fun _ => ⟨0, 0, 0, []⟩)
    (udpPkt 340)
    FR_LOGBODY (some 1) = (w', 0) ∧ ¬Describes ipflogLayout (w'.ipl 1) 340 := by
  obtain ⟨w', h⟩ := udpPkt_logged 340 (.inr rfl)
  exact ⟨w', h, fun hd => absurd ((logPkt_describes_iff h).1 hd) (by decide)⟩

end Ipfilter.IpLog
