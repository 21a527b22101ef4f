import Ipfilter.Spec.Sync

/-!
# A machine for synchronisation

Layouts of structures, field by field, and the byte order, padding and pointer size of a little endian machine with 64 bit
pointers. The sizes of `ipstate_t` and `nat_t` depend on what the kernel puts into them (locks, statistics), so they are left
open.
-/

namespace Ipfilter.Sync

open Masks (Word Machine)

variable {α β : Type}

/-! ## Building layouts -/

namespace Layout

/-- `u_char` -/
def byte : Layout Byte where
  size := 1
  put x := [x]
  get l := l.headD 0
  length_put _ := rfl
  get_put _ := rfl

/-- One field after the other. -/
def pair (a : Layout α) (b : Layout β) : Layout (α × β) where
  size := a.size + b.size
  put x := a.put x.1 ++ b.put x.2
  get l := (a.get (l.take a.size), b.get (l.drop a.size))
  length_put x := by rw [List.length_append, a.length_put, b.length_put]
  get_put x := by
    have h := a.length_put x.1
    rw [← h, List.take_left, List.drop_left, a.get_put, b.get_put]

/-- The same bytes for another type. -/
def via (a : Layout α) (f : β → α) (g : α → β) (h : ∀ x, g (f x) = x) : Layout β where
  size := a.size
  put x := a.put (f x)
  get l := g (a.get l)
  length_put x := a.length_put (f x)
  get_put x := by rw [a.get_put, h]

/-- Fields that are not looked at, before and after. -/
def pad (a : Layout α) (before after : ℕ) : Layout α where
  size := before + a.size + after
  put x := List.replicate before 0 ++ a.put x ++ List.replicate after 0
  get l := a.get ((l.drop before).take a.size)
  length_put x := by rw [List.length_append, List.length_append, a.length_put, List.length_replicate, List.length_replicate]
  get_put x := by
    have h := a.length_put x
    have hb : (List.replicate before (0 : Byte)).length = before := List.length_replicate
    rw [List.append_assoc, List.drop_left' hb, List.take_left' h, a.get_put]

/-- `u_short`, the low byte first -/
def half : Layout Half :=
  (byte.pair byte).via (fun x => (x.extractLsb' 0 8, x.extractLsb' 8 8)) (fun p => p.2 ++ p.1) fun x => by
    ext i hi
    simp only [BitVec.getElem_append, BitVec.getElem_extractLsb']
    split
    · simp [BitVec.getLsbD_eq_getElem hi]
    · rename_i h8
      have h : 8 + (i - 8) = i := by omega
      rw [h, BitVec.getLsbD_eq_getElem hi]

/-- `u_int`, the low half first -/
def word : Layout Word :=
  (half.pair half).via (fun x => (x.extractLsb' 0 16, x.extractLsb' 16 16)) (fun p => p.2 ++ p.1) fun x => by
    ext i hi
    simp only [BitVec.getElem_append, BitVec.getElem_extractLsb']
    split
    · simp [BitVec.getLsbD_eq_getElem hi]
    · rename_i h16
      have h : 16 + (i - 16) = i := by omega
      rw [h, BitVec.getLsbD_eq_getElem hi]

/-- `char[16]` -/
def group : Layout (BitVec 128) :=
  ((word.pair word).pair (word.pair word)).via
    (fun x => ((x.extractLsb' 0 32, x.extractLsb' 32 32), (x.extractLsb' 64 32, x.extractLsb' 96 32)))
    (fun p => (p.2.2 ++ p.2.1) ++ (p.1.2 ++ p.1.1)) fun x => by
    ext i hi
    simp only [BitVec.getElem_append, BitVec.getElem_extractLsb']
    split
    · split
      · simp [BitVec.getLsbD_eq_getElem hi]
      · rename_i h1 h2
        have h : 32 + (i - 32) = i := by omega
        rw [h, BitVec.getLsbD_eq_getElem hi]
    · split
      · rename_i h1 h2
        have h : 64 + (i - 64) = i := by omega
        rw [h, BitVec.getLsbD_eq_getElem hi]
      · rename_i h1 h2
        have h : 96 + (i - 64 - 32) = i := by omega
        rw [h, BitVec.getLsbD_eq_getElem hi]

end Layout

open Layout

/-! ## The structures -/

/-- `synchdr_t`: the pointer at its end is aligned. -/
def synchdrLayout : Layout Synchdr :=
  ((word.pair ((byte.pair byte).pair (byte.pair byte))).pair (word.pair (word.pair (word.pad 0 12)))).via
    (fun h => ((h.smMagic, ((h.smV, h.smP), (h.smCmd, h.smTable))), (h.smNum, (h.smRev, h.smLen))))
    (fun p => ⟨p.1.1, p.1.2.1.1, p.1.2.1.2, p.1.2.2.1, p.1.2.2.2, p.2.1, p.2.2.1, p.2.2.2⟩) fun _ => rfl

/-- `tcpdata_t` -/
def tcpdataLayout : Layout Tcpdata :=
  (word.pair (word.pair (word.pad 0 12))).via (fun t => (t.tdEnd, (t.tdMaxend, t.tdMaxwin)))
  (fun p => ⟨p.1, p.2.1, p.2.2⟩) fun _ => rfl

/-- `synctcp_update_t` -/
def synctcpLayout : Layout SynctcpUpdate :=
  ((word.pad 0 4).pair ((tcpdataLayout.pair tcpdataLayout).pair (word.pair word))).via
    (fun u => (u.stuAge, (u.stuData, u.stuState))) (fun p => ⟨p.1, p.2.1, p.2.2⟩) fun _ => rfl

/-- `ipstate_t`, of which the fields that are modelled come one after the other -/
def ipstateLayout (before after : ℕ) : Layout IpsData :=
  (((word.pair (word.pair word)).pair (word.pair (word.pair ((word.pair word).pair ((word.pair word).pair
    ((half.pair half).pair (half.pair half))))))).pair ((tcpdataLayout.pair tcpdataLayout).pair (word.pair (word.pair
    ((word.pair word).pair ((half.pair half).pair group)))))).pad before after |>.via
    (fun d => (((d.isDie, d.isState), (d.isPass, (d.isHv, (d.isOpt, (d.isOptmsk, ((d.isSec, d.isSecmsk),
      (d.isAuth, d.isAuthmsk))))))), (d.tsData, (d.isFlags, (d.isRulen, (d.isS0, (d.isSmsk, d.isGroup)))))))
    (fun p => {
      isDie := p.1.1.1
      isState := p.1.1.2
      isPass := p.1.2.1
      isHv := p.1.2.2.1
      isOpt := p.1.2.2.2.1
      isOptmsk := p.1.2.2.2.2.1
      isSec := p.1.2.2.2.2.2.1.1
      isSecmsk := p.1.2.2.2.2.2.1.2
      isAuth := p.1.2.2.2.2.2.2.1
      isAuthmsk := p.1.2.2.2.2.2.2.2
      tsData := p.2.1
      isFlags := p.2.2.1
      isRulen := p.2.2.2.1
      isS0 := p.2.2.2.2.1
      isSmsk := p.2.2.2.2.2.1
      isGroup := p.2.2.2.2.2.2 }) fun _ => rfl

/-- `nat_t`, likewise -/
def natLayout (before after : ℕ) : Layout NatData :=
  (((word.pair word).pair word).pair ((word.pair word).pair word)).pad before after |>.via
    (fun n => (((n.natAge, n.natFlags), n.natIpsumd), ((n.natUse, n.natDir), n.natRev)))
    (fun p => ⟨p.1.1.1, p.1.1.2, p.1.2, p.2.1.1, p.2.1.2, p.2.2⟩) fun _ => rfl

/-- A little endian machine with 64 bit pointers, where entries have some more fields, and a kernel that changes nothing
else. -/
def lp64 (state nat : ℕ) : Abi where
  M := ⟨true, 0⟩
  hdr := synchdrLayout
  state := ipstateLayout 16 state
  nat := natLayout 16 nat
  tcp := synctcpLayout
  residSigned := true
  getrulen _ _ := none
  stateInsert is _ := is
  stateSetqueue is _ := is
  natInsert n := n
  natSetqueue n := n
  stateInsert_kept _ _ := rfl
  stateSetqueue_kept _ _ := rfl
  natInsert_sync _ := rfl
  natSetqueue_sync _ := rfl

end Ipfilter.Sync
