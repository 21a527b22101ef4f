import Ipfilter.Proof.Masks
import Ipfilter.Spec.SyncAbi

/-!
# Byte order there and back

* `tcporder_iff`: a TCP side comes back from `ipf_sync_tcporder` both ways if its window has 16 bits.
* `smsk_lost`: the mask of the scanner comes back as 0, being sent with `htons` and received with `ntohl`.
* `natorder_round_trip`, `storder_iff`: the same for NAT sessions, and for states.
* `order_round_trip_iff`: **which entries come back as they were.**
-/

namespace Ipfilter.Sync

open BitVec
open Masks (Word Machine bswap ntohl_htonl)

variable {A : Abi}

theorem ntohs_htons (M : Machine) (x : Half) : ntohs M (htons M x) = x := by
  unfold ntohs htons
  split
  · apply eq_of_getLsbD_eq
    intro i hi
    simp only [bswap16, getLsbD_append, getLsbD_extractLsb']
    interval_cases i <;> simp
  · rfl

/-- The low half of what `ntohl` makes of a half word. -/
theorem smsk_lost (hlittle : A.M.little = true) (x : Half) : (A.M.ntohl (x.setWidth 32)).setWidth 16 = 0 := by
  unfold Machine.ntohl
  rw [if_pos hlittle]
  apply eq_of_getLsbD_eq
  intro i hi
  simp only [bswap, getLsbD_setWidth, getLsbD_append, getLsbD_extractLsb']
  interval_cases i <;> simp

/-- A window is cut to 16 bits on its way out. -/
theorem tcporder_back (td : Tcpdata) :
    ipfSyncTcporder A false (ipfSyncTcporder A true td) = { td with tdMaxwin := (td.tdMaxwin.setWidth 16).setWidth 32 } := by
  simp [ipfSyncTcporder, ntohl_htonl, ntohs_htons]

theorem tcporder_iff (td : Tcpdata) :
    ipfSyncTcporder A false (ipfSyncTcporder A true td) = td ↔ td.tdMaxwin.toNat < 2 ^ 16 := by
  rw [tcporder_back]
  obtain ⟨tend, maxend, maxwin⟩ := td
  simp only [Tcpdata.mk.injEq, true_and]
  constructor
  · intro h
    have hval := congrArg BitVec.toNat h
    simp only [toNat_setWidth] at hval
    omega
  · intro h
    apply eq_of_toNat_eq
    have hlt := maxwin.isLt
    simp only [toNat_setWidth]
    omega

/-- A NAT session comes back as it was. -/
theorem natorder_round_trip (n : NatData) : ipfSyncNatorder A false (ipfSyncNatorder A true n) = n := by
  simp [ipfSyncNatorder, ntohl_htonl]

/-- What comes back of a state. -/
theorem storder_back (hlittle : A.M.little = true) (ips : IpsData) :
    ipfSyncStorder A false (ipfSyncStorder A true ips) = { ips with
      tsData := (ipfSyncTcporder A false (ipfSyncTcporder A true ips.tsData.1),
        ipfSyncTcporder A false (ipfSyncTcporder A true ips.tsData.2))
      isSmsk := (0, 0) } := by
  simp [ipfSyncStorder, ntohl_htonl, ntohs_htons, smsk_lost hlittle]

theorem storder_iff (hlittle : A.M.little = true) (ips : IpsData) :
    ipfSyncStorder A false (ipfSyncStorder A true ips) = ips ↔
      ips.tsData.1.tdMaxwin.toNat < 2 ^ 16 ∧ ips.tsData.2.tdMaxwin.toNat < 2 ^ 16 ∧ ips.isSmsk = (0, 0) := by
  rw [storder_back hlittle, ← tcporder_iff (A := A), ← tcporder_iff (A := A)]
  generalize ipfSyncTcporder A false (ipfSyncTcporder A true ips.tsData.1) = td1
  generalize ipfSyncTcporder A false (ipfSyncTcporder A true ips.tsData.2) = td2
  constructor
  · intro h
    have hdata := congrArg IpsData.tsData h
    have hsmsk := congrArg IpsData.isSmsk h
    exact ⟨congrArg Prod.fst hdata, congrArg Prod.snd hdata, hsmsk.symm⟩
  · rintro ⟨h1, h2, h3⟩
    rw [h1, h2, ← h3]

/-- **Which entries come back as they were**, from the byte order of the network on a little endian machine. -/
theorem order_round_trip_iff (hlittle : A.M.little = true) (ips : IpsData) (n : NatData) :
    ipfSyncStorder A false (ipfSyncStorder A true ips) = ips ∧ ipfSyncNatorder A false (ipfSyncNatorder A true n) = n ↔
      ips.tsData.1.tdMaxwin.toNat < 2 ^ 16 ∧ ips.tsData.2.tdMaxwin.toNat < 2 ^ 16 ∧ ips.isSmsk = (0, 0) := by
  rw [← storder_iff hlittle]
  exact and_iff_left (natorder_round_trip n)

/-- A state with windows of a size, and some bytes seen by the scanner. -/
def scannedState (maxwin : Word) (smsk : Half) : IpsData where
  isDie := 1200
  isState := (4, 4)
  isPass := 2
  isHv := 77
  isOpt := (0, 0)
  isOptmsk := (0, 0)
  isSec := 0
  isSecmsk := 0
  isAuth := 0
  isAuthmsk := 0
  tsData := (⟨1000, 2000, maxwin⟩, ⟨3000, 4000, 5840⟩)
  isFlags := 0x10000
  isRulen := 1
  isS0 := (100, 200)
  isSmsk := (smsk, 0)
  isGroup := 0

theorem order_round_trip_small :
    ipfSyncStorder (lp64 0 0) false (ipfSyncStorder (lp64 0 0) true (scannedState 65535 0)) = scannedState 65535 0 ∧
      ipfSyncNatorder (lp64 0 0) false (ipfSyncNatorder (lp64 0 0) true ⟨240, 1, 0x1234, 1, 1, 0⟩) =
        ⟨240, 1, 0x1234, 1, 1, 0⟩ :=
  (order_round_trip_iff rfl (scannedState 65535 0) ⟨240, 1, 0x1234, 1, 1, 0⟩).2 ⟨by decide, by decide, rfl⟩

/-- **A scaled window loses its high half, and the scanner its mask.** -/
theorem order_not_round_trip :
    ipfSyncStorder (lp64 0 0) false (ipfSyncStorder (lp64 0 0) true (scannedState 65536 0)) ≠ scannedState 65536 0 ∧
      ipfSyncStorder (lp64 0 0) false (ipfSyncStorder (lp64 0 0) true (scannedState 5840 15)) ≠ scannedState 5840 15 := by
  constructor
  · intro h
    exact absurd ((storder_iff rfl _).1 h).1 (by decide)
  · intro h
    exact absurd ((storder_iff rfl _).1 h).2.2 (by decide)

end Ipfilter.Sync
