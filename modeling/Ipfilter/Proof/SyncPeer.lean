import Ipfilter.Proof.SyncTold
import Ipfilter.Spec.SyncAbi

/-!
# Sync replication

* `Mirror`: what the master still has to send and what the peer has make up all that was written.
* `Mirror.takeLog`, `Mirror.takeUpd`: a record goes over.
* `Mirror.sync`: so does what is read at once.
* `Right`: **what should hold in each state.**
* `replicated`: so it is in all runs of `Steady` steps.
* `padding_parsed`: other runs.
-/

namespace Ipfilter.Sync

open Chain List Option
open Masks (Word Machine ntohl_htonl)
open Function (update update_idem update_of_ne update_self)

variable {A : Abi} {w : Pair} {L P : Tab × ℕ → List ℕ} {t t' : Tab} {b i j n o o' e e' sl : ℕ} {num : Word}
  {mem : List (Option ℕ × Option ℕ)} {h hdr : Synchdr}

/-! ## Headers -/

/-- The structures have sizes, and fit into the message buffer of the peer. -/
structure Abi.Fits (A : Abi) : Prop where
  size : ∀ t, 0 < A.size t ∧ A.size t ≤ DATA_SIZE
  tcp : 0 < A.tcp.size ∧ A.tcp.size ≤ DATA_SIZE

/-- The header of a creation as it is in the log. -/
def logHdr (A : Abi) (h : Synchdr) : Synchdr := { h with smNum := A.M.htonl h.smNum, smLen := A.M.htonl h.smLen }

/-- The header of an entry that was made here. A record of the log is as long as the header says when the structure is the
larger of the two. -/
structure Sound (A : Abi) (t : Tab) (h : Synchdr) : Prop where
  magic : h.smMagic = A.M.htonl SYNHDRMAGIC
  version : h.smV = 4 ∨ h.smV = 6
  cmd : h.smCmd = SMC_CREATE
  table : h.smTable = t.code
  len : h.smLen = BitVec.ofNat 32 (A.size t)
  whole : A.size t = max A.state.size A.nat.size

theorem host_log (hs : Sound A t h) : A.host (logHdr A h) = { h with smMagic := SYNHDRMAGIC } := by
  unfold Abi.host logHdr
  dsimp only
  rw [hs.magic, ntohl_htonl, ntohl_htonl, ntohl_htonl]

theorem host_update (h : Synchdr) (t : Tab) (rev : Word) : A.host (h.update A t rev) = { h with
    smMagic := SYNHDRMAGIC
    smCmd := SMC_UPDATE
    smTable := t.code
    smLen := BitVec.ofNat 32 A.tcp.size
    smRev := rev } := by
  unfold Abi.host Synchdr.update
  dsimp only
  rw [ntohl_htonl, ntohl_htonl, ntohl_htonl]

theorem sane_of (hm : h.smMagic = SYNHDRMAGIC) (hv : h.smV = 4 ∨ h.smV = 6)
    (hc : h.smCmd = SMC_CREATE ∨ h.smCmd = SMC_UPDATE) (ht : h.smTable = t.code) : h.sane = true := by
  unfold Synchdr.sane
  have hcmd : decide (h.smCmd ≤ SMC_MAXCMD) = true := by
    rcases hc with hc | hc <;> rw [hc] <;> decide
  have htab : decide (h.smTable ≤ SMC_MAXTBL) = true := by
    rw [ht]
    cases t <;> decide
  have hver : (h.smV == 4 || h.smV == 6) = true := by
    rcases hv with hv | hv <;> rw [hv] <;> decide
  rw [hm, hcmd, htab, hver]
  decide

theorem toInt_small (hn : n ≤ DATA_SIZE) : (BitVec.ofNat 32 n).toInt = n := by
  unfold DATA_SIZE at hn
  have hnat : (BitVec.ofNat 32 n).toNat = n := by
    rw [BitVec.toNat_ofNat]
    omega
  rw [BitVec.toInt_eq_toNat_of_lt (by rw [hnat]; omega), hnat]

theorem whole_log (hA : A.Fits) (hs : Sound A t h) {un : List Byte} (hun : un.length = max A.state.size A.nat.size) :
    Whole A (logHdr A h, un) := by
  obtain ⟨h1, h2⟩ := hA.size t
  refine ⟨?_, ?_, ?_⟩
  · rw [host_log hs]
    exact sane_of rfl hs.version (.inl hs.cmd) hs.table
  · rw [host_log hs]
    dsimp only
    rw [hs.len, toInt_small h2, hun, hs.whole]
  · rw [← length_pos_iff]
    dsimp only
    rw [hun, ← hs.whole]
    exact h1

theorem whole_update (hA : A.Fits) (hs : Sound A t h) (rev : Word) (su : SynctcpUpdate) :
    Whole A (h.update A t rev, A.tcp.put su) := by
  obtain ⟨h1, h2⟩ := hA.tcp
  refine ⟨?_, ?_, ?_⟩
  · rw [host_update]
    exact sane_of rfl hs.version (.inr rfl) rfl
  · rw [host_update]
    dsimp only
    rw [toInt_small h2, A.tcp.length_put]
  · rw [← length_pos_iff]
    dsimp only
    rw [A.tcp.length_put]
    exact h1

/-! ## The invariant -/

/-- A record of the log that is not read yet. -/
def Softs.Waits (s : Softs) (j : ℕ) : Prop := s.slTail ≤ j ∧ j < s.slIdx

/-- An update that is not read yet. -/
def Softs.Moves (s : Softs) (i : ℕ) : Prop := s.suTail ≤ i ∧ i < s.suIdx

/-- The master: its tables, and the log. -/
structure Master (A : Abi) (s : Softs) (L : Tab × ℕ → List ℕ) : Prop where
  base : Base s L
  numbers : Numbers s s.alloc L
  slots : Slots s L
  tail : s.slTail ≤ s.slIdx
  width : ∀ i, (s.synclog i).sleUn.length = max A.state.size A.nat.size
  sound : ∀ t b, ∀ e ∈ L (t, b), Sound A t (s.ent e).slHdr
  once : ∀ j k, s.Waits j → s.Waits k → (s.synclog j).sleHdr = (s.synclog k).sleHdr → j = k

/-- What is in a slot of the buffer of updates. -/
structure Moved (A : Abi) (s : Softs) (L : Tab × ℕ → List ℕ) (last : ℕ → Option Conn) (i : ℕ) (t : Tab)
    (e : ℕ) : Prop where
  listed : ∃ b, e ∈ L (t, b)
  owner : (s.syncupd i).supSl = some e
  hdr : ∃ rev, (s.syncupd i).supHdr = (s.ent e).slHdr.update A t rev
  proto : (s.ent e).slHdr.smP = IPPROTO_TCP
  num : t = .nat → A.M.ntohl (s.num e) = s.num e
  conn : t = .state → ∀ o, s.sync .state o = some e →
    last o = some ((s.syncupd i).supTcp.stuData, (s.syncupd i).supTcp.stuState)

theorem Moved.congr {s s' : Softs} {L' : Tab × ℕ → List ℕ} {last last' : ℕ → Option Conn}
    (h : Moved A s L last i t e) (hL : ∀ b, e ∈ L (t, b) → e ∈ L' (t, b)) (hupd : s'.syncupd i = s.syncupd i)
    (hhdr : (s'.ent e).slHdr = (s.ent e).slHdr)
    (hlast : t = .state → ∀ o, s'.sync .state o = some e → s.sync .state o = some e ∧ last' o = last o) :
    Moved A s' L' last' i t e where
  listed := h.listed.imp hL
  owner := by rw [hupd]; exact h.owner
  hdr := by rw [hupd, hhdr]; exact h.hdr
  proto := by rw [hhdr]; exact h.proto
  num := by unfold Softs.num; rw [hhdr]; exact h.num
  conn ht o ho := by
    obtain ⟨h1, h2⟩ := hlast ht o ho
    rw [h2, hupd]
    exact h.conn ht o h1

/-- **What the peer has, and what it still gets.** -/
structure Mirror (A : Abi) (w : Pair) (L P : Tab × ℕ → List ℕ) : Prop where
  master : Master A w.master L
  peer : Peer A w.peer P w.told
  logs : ∀ j, w.master.Waits j → ∃ t b, ∃ e ∈ L (t, b), (w.master.synclog j).sleHdr =
    logHdr A (w.master.ent e).slHdr ∧
    ∀ e', ¬Created w.told t (w.master.num e) e'
  sent : ∀ t b, ∀ e ∈ L (t, b),
    (∃ j, w.master.Waits j ∧ (w.master.synclog j).sleHdr = logHdr A (w.master.ent e).slHdr) ∨
    ∃ e', Created w.told t (w.master.num e) e'
  moves : ∀ i, w.master.Moves i → ∃ t e, Moved A w.master L w.last i t e
  values : ∀ o sl v, w.master.sync .state o = some sl → (w.master.ent sl).slIdx = none → w.last o = some v →
    ∃ e', Created w.told .state (w.master.num sl) e' ∧ Holds w.peer e' v
  known : ∀ t num e', Created w.told t num e' → ∃ b, ∃ e ∈ L (t, b), w.master.num e = num
  lasts : ∀ o v, w.last o = some v → ∃ sl, w.master.sync .state o = some sl
  accepted : ∀ x ∈ w.told, x.err = 0
  found : ∀ l₁ x l₂, w.told = l₁ ++ x :: l₂ → x.hdr.smCmd = SMC_UPDATE →
    ∃ t e, x.hdr.smTable = t.code ∧ x.entry = some e ∧ Created l₁ t x.hdr.smNum e

/-- What the log says, and of whom, stays. -/
structure Still (s s' : Softs) : Prop where
  quiet : Quiet s s'
  log : s'.synclog = s.synclog
  waits : ∀ j, s'.Waits j ↔ s.Waits j

theorem Still.nums {s s' : Softs} (hc : Still s s') (e : ℕ) : s'.num e = s.num e := congrArg Synchdr.smNum (hc.quiet.hdr e)

theorem Master.still {s s' : Softs} (h : Master A s L) (hc : Still s s') (hslots : Slots s' L)
    (htail : s'.slTail ≤ s'.slIdx) :
    Master A s' L where
  base := h.base.quiet hc.quiet
  numbers := by
    rw [hc.quiet.alloc]
    exact h.numbers.less (fun _ e he ha => ⟨he, ha, hc.nums e⟩) hc.quiet.num hc.quiet.wrap
  slots := hslots
  tail := htail
  width := by
    rw [hc.log]
    exact h.width
  sound t b e he := by
    rw [hc.quiet.hdr]
    exact h.sound t b e he
  once j k hj hk := by
    rw [hc.log]
    exact h.once j k ((hc.waits j).1 hj) ((hc.waits k).1 hk)

/-- What is left to show when the log stays and no creation goes over. -/
theorem Mirror.still {w' : Pair} (h : Mirror A w L P) (hc : Still w.master w'.master) (hm : Master A w'.master L)
    (hp : Peer A w'.peer P w'.told) (hcr : ∀ {t num e}, Created w'.told t num e ↔ Created w.told t num e)
    (hmoves : ∀ i, w'.master.Moves i → ∃ t e, Moved A w'.master L w'.last i t e)
    (hvalues : ∀ o sl v, w.master.sync .state o = some sl → (w'.master.ent sl).slIdx = none → w'.last o = some v →
      ∃ e', Created w.told .state (w.master.num sl) e' ∧ Holds w'.peer e' v)
    (hlasts : ∀ o v, w'.last o = some v → ∃ sl, w.master.sync .state o = some sl)
    (haccepted : ∀ x ∈ w'.told, x.err = 0)
    (hfound : ∀ l₁ x l₂, w'.told = l₁ ++ x :: l₂ → x.hdr.smCmd = SMC_UPDATE →
      ∃ t e, x.hdr.smTable = t.code ∧ x.entry = some e ∧ Created l₁ t x.hdr.smNum e) : Mirror A w' L P where
  master := hm
  peer := hp
  logs j hj := by
    obtain ⟨t, b, e, he, hhdr, hnot⟩ := h.logs j ((hc.waits j).1 hj)
    rw [hc.log]
    refine ⟨t, b, e, he, ?_, fun e' hcre => ?_⟩
    · rw [hc.quiet.hdr]
      exact hhdr
    · rw [hc.nums] at hcre
      exact hnot e' (hcr.1 hcre)
  sent t b e he := by
    rw [hc.log, hc.quiet.hdr, hc.nums]
    rcases h.sent t b e he with ⟨j, hj, hhdr⟩ | ⟨e', hcre⟩
    · exact .inl ⟨j, (hc.waits j).2 hj, hhdr⟩
    · exact .inr ⟨e', hcr.2 hcre⟩
  moves := hmoves
  values o sl v hs hi hv := by
    rw [hc.quiet.sync] at hs
    obtain ⟨e', hcre, hholds⟩ := hvalues o sl v hs hi hv
    rw [hc.nums]
    exact ⟨e', hcr.2 hcre, hholds⟩
  known t num e' hcre := by
    obtain ⟨b, e, he, hn⟩ := h.known t num e' (hcr.1 hcre)
    exact ⟨b, e, he, (hc.nums e).trans hn⟩
  lasts o v hv := by
    rw [hc.quiet.sync]
    exact hlasts o v hv
  accepted := haccepted
  found := hfound

/-- The messages of one command. -/
def toldOf (l : List Told) (cmd : Byte) : List Synchdr := (l.filter fun x => x.hdr.smCmd == cmd).map Told.hdr

/-- **Nothing is lost:** what was told and what waits is what was written, in order. -/
structure Complete (A : Abi) (w : Pair) : Prop where
  made : w.made.map A.host = toldOf w.told SMC_CREATE ++
    (range' w.master.slTail (w.master.slIdx - w.master.slTail)).map fun j => A.host (w.master.synclog j).sleHdr
  moved : w.moved.map A.host = toldOf w.told SMC_UPDATE ++
    (range' w.master.suTail (w.master.suIdx - w.master.suTail)).map fun i => A.host (w.master.syncupd i).supHdr

/-- **The peer follows the master.** -/
structure Follows (A : Abi) (w : Pair) (L P : Tab × ℕ → List ℕ) : Prop where
  mirror : Mirror A w L P
  complete : Complete A w

/-- What is said of each message and those before it, with a message more. -/
theorem before_snoc {Q : Told → List Told → Prop} {l : List Told} {y : Told}
    (hl : ∀ l₁ x l₂, l = l₁ ++ x :: l₂ → Q x l₁) (hy : Q y l) :
    ∀ l₁ x l₂, l ++ [y] = l₁ ++ x :: l₂ → Q x l₁ := by
  intro l₁ x l₂ heq
  rcases eq_nil_or_concat l₂ with rfl | ⟨l₃, z, rfl⟩
  · obtain ⟨rfl, hxy⟩ := append_inj' heq rfl
    rw [← singleton_inj.1 hxy]
    exact hy
  · rw [concat_eq_append, ← cons_append, ← append_assoc] at heq
    obtain ⟨hl₃, -⟩ := append_inj' heq rfl
    exact hl l₁ x l₃ hl₃

theorem toldOf_snoc (l : List Told) (x : Told) (cmd : Byte) :
    toldOf (l ++ [x]) cmd = toldOf l cmd ++ if x.hdr.smCmd = cmd then [x.hdr] else [] := by
  unfold toldOf
  rw [filter_append, map_append]
  by_cases hx : x.hdr.smCmd = cmd
  · simp [hx]
  · simp [hx]

theorem range_cons {i n : ℕ} (hi : i < n) : range' i (n - i) = i :: range' (i + 1) (n - (i + 1)) := by
  obtain ⟨k, rfl⟩ := Nat.exists_eq_add_of_lt hi
  rw [show i + k + 1 - i = k + 1 by omega, show i + k + 1 - (i + 1) = k by omega, List.range'_succ]

variable {s : Softs} {x : Option ℕ × Option ℕ} {fin : FrInfo} {last : ℕ → Option Conn}

/-- Entries of a table with one number are one. -/
theorem Master.apart (h : Master A s L) {b' : ℕ} (he : e ∈ L (t, b)) (he' : e' ∈ L (t, b')) (hn : s.num e = s.num e') :
    e = e' :=
  h.numbers.apart t b b' e he e' he' (h.base.alloc _ e he) (h.base.alloc _ e' he') hn

/-- Entries with one header in the log are one. -/
theorem Master.logged (h : Master A s L) {b' : ℕ} (he : e ∈ L (t, b)) (he' : e' ∈ L (t', b'))
    (hh : logHdr A (s.ent e).slHdr = logHdr A (s.ent e').slHdr) : t = t' ∧ e = e' := by
  have htab : (logHdr A (s.ent e).slHdr).smTable = (logHdr A (s.ent e').slHdr).smTable := congrArg Synchdr.smTable hh
  have hnum : s.num e = s.num e' := Masks.htonl_inj (congrArg Synchdr.smNum hh)
  obtain rfl := code_inj ((h.sound t b e he).table.symm.trans (htab.trans (h.sound t' b' e' he').table))
  exact ⟨rfl, h.apart he he' hnum⟩

/-- The pair after a record went over. -/
def Pair.over (w : Pair) (master peer : Softs) (x : Told) : Pair :=
  { w with master := master, peer := peer, told := w.told ++ [x] }

theorem Master.nextLog (h : Master A s L) (hlt : s.slTail < s.slIdx) : Master A { s with slTail := s.slTail + 1 } L where
  base := h.base.quiet ⟨rfl, rfl, rfl, rfl, fun _ => rfl, fun _ => rfl, rfl, rfl, rfl⟩
  numbers := h.numbers.less (fun _ _ he ha => ⟨he, ha, rfl⟩) rfl rfl
  slots := h.slots.congr rfl rfl rfl (fun _ _ _ => rfl) fun _ => rfl
  tail := hlt
  width := h.width
  sound := h.sound
  once j k hj hk := h.once j k ⟨Nat.le_of_succ_le hj.1, hj.2⟩ ⟨Nat.le_of_succ_le hk.1, hk.2⟩

/-- **A creation goes over.** -/
theorem Mirror.takeLog (h : Mirror A w L P) (hA : A.Fits) (hc : Complete A w) (hlt : w.master.slTail < w.master.slIdx)
    {sle : Synclogent} (hsle : w.master.synclog w.master.slTail = sle) (hmem : Memory w.peer (x :: mem)) :
    ∃ p' P', Whole A (sle.sleHdr, sle.sleUn) ∧
      (∀ junk, ∃ k, writeMessage A w.peer (A.host sle.sleHdr) (sle.sleUn ++ junk) x = (p', 0, k)) ∧ Memory p' mem ∧
      Follows A (w.over { w.master with slTail := w.master.slTail + 1 } p' ⟨A.host sle.sleHdr,
        w.peer.entry (A.host sle.sleHdr) x, 0⟩) L P' := by
  obtain ⟨t, b, e, he, hhdr, hnot⟩ := h.logs w.master.slTail ⟨le_rfl, hlt⟩
  obtain ⟨o, sl, rfl, hfree, hfresh⟩ := hmem.free x mem_cons_self
  -- the record is the header of `e`, in host order at the peer
  have hs := h.master.sound t b e he
  have hun := h.master.width w.master.slTail
  rw [hsle] at hhdr hun
  have hsh : A.host sle.sleHdr = { (w.master.ent e).slHdr with smMagic := SYNHDRMAGIC } := by
    rw [hhdr, host_log hs]
  have hcmd : (A.host sle.sleHdr).smCmd = SMC_CREATE := by
    rw [hsh]
    exact hs.cmd
  have htab : (A.host sle.sleHdr).smTable = t.code := by
    rw [hsh]
    exact hs.table
  have hnum : (A.host sle.sleHdr).smNum = w.master.num e := by
    rw [hsh]
    rfl
  have hentry : w.peer.entry (A.host sle.sleHdr) (some o, some sl) = some sl := if_pos hcmd
  have hlen : A.size t ≤ sle.sleUn.length := by
    rw [hun, hs.whole]
  -- nobody was told of the number, so the peer makes an entry
  obtain ⟨p', P', hmsg, hpeer, hsync, halloc, hkeep⟩ :=
    h.peer.create hcmd htab (hfree t) hfresh (by rw [hnum]; exact hnot) hlen
  have hwhole : Whole A (sle.sleHdr, sle.sleUn) := by
    rw [hhdr]
    exact whole_log hA hs hun
  have hmem' : Memory p' mem := by
    refine hmem.tail (fun t' o' ho' => ?_) fun sl' hsl' => ?_
    · rw [hsync, if_neg]
      rintro ⟨-, rfl⟩
      exact ho' rfl
    · rw [halloc, mem_cons] at hsl'
      exact hsl'.symm.imp_right fun heq => by rw [heq]
  refine ⟨p', P', hwhole, hmsg, hmem', ?_, ?_⟩
  · rw [hentry]
    -- the peer knows one entry more
    have hcreated : ∀ {t' num e'}, Created (w.told ++ [⟨A.host sle.sleHdr, some sl, 0⟩]) t' num e' ↔
        Created w.told t' num e' ∨ t = t' ∧ w.master.num e = num ∧ sl = e' := by
      intro t' num e'
      rw [created_append]
      dsimp only
      rw [htab, hnum, some.injEq, and_iff_right hcmd]
      exact or_congr_right (and_congr_left fun _ => ⟨code_inj, fun heq => heq ▸ rfl⟩)
    refine ⟨h.master.nextLog hlt, hpeer, fun j hj => ?_, fun t' b' e' he' => ?_, fun i hi => ?_, fun o' sl' v hs' hi hv => ?_,
      fun t' num e' hcr => ?_, h.lasts, fun y hy => ?_, ?_⟩
    · obtain ⟨t', b', e', he', hhdr', hnot'⟩ := h.logs j ⟨Nat.le_of_succ_le hj.1, hj.2⟩
      refine ⟨t', b', e', he', hhdr', fun e'' hcr => ?_⟩
      rcases hcreated.1 hcr with hcr | ⟨rfl, hn, -⟩
      · exact hnot' e'' hcr
      · -- one record for each entry
        obtain rfl := h.master.apart he he' hn
        have hjt := h.master.once j w.master.slTail ⟨Nat.le_of_succ_le hj.1, hj.2⟩ ⟨le_rfl, hlt⟩
            (hhdr'.trans (hsle ▸ hhdr.symm))
        have hjl := hj.1
        change w.master.slTail + 1 ≤ j at hjl
        omega
    · rcases h.sent t' b' e' he' with ⟨j, hj, hhdr'⟩ | ⟨e'', hcr⟩
      · -- the record that goes over, or a later one
        by_cases hjt : j = w.master.slTail
        · rw [hjt, hsle, hhdr] at hhdr'
          obtain ⟨rfl, rfl⟩ := h.master.logged he he' hhdr'
          exact .inr ⟨sl, hcreated.2 (.inr ⟨rfl, rfl, rfl⟩)⟩
        · have hjl := hj.1
          refine .inl ⟨j, ⟨?_, hj.2⟩, hhdr'⟩
          change w.master.slTail + 1 ≤ j
          omega
      · exact .inr ⟨e'', hcreated.2 (.inl hcr)⟩
    · obtain ⟨t', e', hm⟩ := h.moves i hi
      exact ⟨t', e', hm.congr (fun _ => id) rfl rfl fun _ _ ho' => ⟨ho', rfl⟩⟩
    · obtain ⟨e', hcr, hholds⟩ := h.values o' sl' v hs' hi hv
      exact ⟨e', hcreated.2 (.inl hcr), hkeep e' v (h.peer.base.alloc _ e' (h.peer.entry _ _ _ hcr).1) hholds⟩
    · rcases hcreated.1 hcr with hcr | ⟨rfl, rfl, -⟩
      · exact h.known t' num e' hcr
      · exact ⟨b, e, he, rfl⟩
    · rcases mem_append.1 hy with hy | hy
      · exact h.accepted y hy
      · rw [mem_singleton.1 hy]
    · refine before_snoc h.found fun hupd => ?_
      exact absurd (hcmd.symm.trans hupd) (by decide)
  · refine ⟨?_, ?_⟩
    · change w.made.map A.host = toldOf (w.told ++ [_]) SMC_CREATE ++
        (range' (w.master.slTail + 1) (w.master.slIdx - (w.master.slTail + 1))).map fun j => A.host (w.master.synclog j).sleHdr
      rw [hc.made, range_cons hlt, toldOf_snoc, map_cons, hsle]
      dsimp only
      rw [if_pos hcmd, append_assoc]
      rfl
    · change w.moved.map A.host = toldOf (w.told ++ [_]) SMC_UPDATE ++ _
      rw [hc.moved, toldOf_snoc]
      dsimp only
      rw [if_neg (by rw [hcmd]; decide), append_nil]
      rfl

/-- The master after the next update was read. -/
def Softs.nextUpd (s : Softs) : Softs := { s with suTail := s.suTail + 1 }.untie (s.syncupd s.suTail)

theorem nextUpd_eq (s : Softs) : s.nextUpd = { s with suTail := s.suTail + 1, ent := s.nextUpd.ent } := untie_eq ..

theorem nextUpd_ent (s : Softs) (e : ℕ) : (s.nextUpd.ent e).slHdr = (s.ent e).slHdr ∧
    (s.nextUpd.ent e).slPtr = (s.ent e).slPtr ∧
    (s.nextUpd.ent e).slIdx = if (s.syncupd s.suTail).supSl = some e then none else (s.ent e).slIdx := untie_ent ..

theorem nextUpd_still (s : Softs) : Still s s.nextUpd := by
  refine ⟨⟨?_, ?_, ?_, ?_, fun e => (nextUpd_ent s e).1, fun e => (nextUpd_ent s e).2.1, ?_, ?_, ?_⟩, ?_,
    fun j => ?_⟩ <;> rw [nextUpd_eq]
  exact Iff.rfl

theorem nextUpd_moves (h : s.nextUpd.Moves i) : s.Moves i ∧ i ≠ s.suTail := by
  rw [nextUpd_eq] at h
  obtain ⟨h1, h2⟩ := h
  change s.suTail + 1 ≤ i at h1
  exact ⟨⟨by omega, h2⟩, by omega⟩

theorem Master.nextUpd (h : Master A s L) (hlt : s.suTail < s.suIdx) : Master A s.nextUpd L := by
  refine h.still (nextUpd_still s) (h.slots.next hlt ?_ ?_ ?_ (fun e => (nextUpd_ent s e).2.2) fun i => ?_) ?_ <;>
    rw [nextUpd_eq]
  exact h.tail

/-- An update of either table: the peer's entry takes the values, and the others keep theirs. -/
theorem Peer.update {p : Softs} {told : List Told} (hp : Peer A p P told) {hdr : Synchdr} (hcmd : hdr.smCmd = SMC_UPDATE)
    (htab : hdr.smTable = t.code) (hcr : Created told t hdr.smNum e') (hproto : hdr.smP = IPPROTO_TCP)
    (hnum : t = .nat → A.M.ntohl hdr.smNum = hdr.smNum) (tcp : SynctcpUpdate) (x : Option ℕ × Option ℕ) :
    ∃ p', (∀ junk, ∃ k, writeMessage A p hdr (A.tcp.put tcp ++ junk) x = (p', 0, k)) ∧ p.entry hdr x = some e' ∧
      Peer A p' P (told ++ [⟨hdr, some e', 0⟩]) ∧ (∀ t o, p'.sync t o = p.sync t o) ∧ p'.alloc = p.alloc ∧
      (t = .state → Holds p' e' (tcp.stuData, tcp.stuState)) ∧
      ∀ e'' v, (t = .state → e'' ≠ e') → Holds p e'' v → Holds p' e'' v := by
  cases t with
  | state =>
    obtain ⟨p', h1, h2, h3, h4, h5, h6, h7⟩ := hp.updateState hcmd htab hcr hproto tcp x
    exact ⟨p', h1, h2, h3, h4, h5, fun _ => h6, fun e'' v hne => h7 e'' v (hne rfl)⟩
  | nat =>
    obtain ⟨p', h1, h2, h3, h4, h5, h6⟩ := hp.updateNat hcmd htab hcr (hnum rfl) (A.tcp.put tcp) x
    exact ⟨p', h1, h2, h3, h4, h5, nofun, fun e'' v _ => h6 e'' v⟩

theorem Complete.takeUpd (hc : Complete A w) (hlt : w.master.suTail < w.master.suIdx) {slu : Syncupdent}
    (hslu : w.master.syncupd w.master.suTail = slu) (hcmd : (A.host slu.supHdr).smCmd = SMC_UPDATE) (p' : Softs)
    (entry : Option ℕ) : Complete A (w.over w.master.nextUpd p' ⟨A.host slu.supHdr, entry, 0⟩) := by
  refine ⟨?_, ?_⟩
  · change w.made.map A.host = toldOf (w.told ++ [_]) SMC_CREATE ++ (range' w.master.nextUpd.slTail
      (w.master.nextUpd.slIdx - w.master.nextUpd.slTail)).map fun j => A.host (w.master.nextUpd.synclog j).sleHdr
    rw [hc.made, toldOf_snoc, nextUpd_eq]
    dsimp only
    rw [if_neg (by rw [hcmd]; decide), append_nil]
  · change w.moved.map A.host = toldOf (w.told ++ [_]) SMC_UPDATE ++ (range' w.master.nextUpd.suTail
      (w.master.nextUpd.suIdx - w.master.nextUpd.suTail)).map fun i => A.host (w.master.nextUpd.syncupd i).supHdr
    rw [hc.moved, range_cons hlt, toldOf_snoc, nextUpd_eq, map_cons, hslu]
    dsimp only
    rw [if_pos hcmd, append_assoc]
    rfl

/-- **An update goes over** whose entry is there. -/
theorem Mirror.takeUpd (h : Mirror A w L P) (hA : A.Fits) (hc : Complete A w) (hlt : w.master.suTail < w.master.suIdx)
    {slu : Syncupdent} (hslu : w.master.syncupd w.master.suTail = slu)
    (hord : ∀ j, w.master.Waits j → (w.master.synclog j).sleHdr.smTable = slu.supHdr.smTable →
      (w.master.synclog j).sleHdr.smNum ≠ slu.supHdr.smNum) (hmem : Memory w.peer (x :: mem)) :
    ∃ p', Whole A (slu.supHdr, A.tcp.put slu.supTcp) ∧
      (∀ junk, ∃ k, writeMessage A w.peer (A.host slu.supHdr) (A.tcp.put slu.supTcp ++ junk) x = (p', 0, k)) ∧
        Memory p' mem ∧
      Follows A (w.over w.master.nextUpd p' ⟨A.host slu.supHdr, w.peer.entry (A.host slu.supHdr) x, 0⟩) L P := by
  obtain ⟨t, e, hm⟩ := h.moves w.master.suTail ⟨le_rfl, hlt⟩
  obtain ⟨b, he⟩ := hm.listed
  obtain ⟨rev, hhdr⟩ := hm.hdr
  rw [hslu] at hhdr
  have hs := h.master.sound t b e he
  have hwhole : Whole A (slu.supHdr, A.tcp.put slu.supTcp) := by
    rw [hhdr]
    exact whole_update hA hs rev _
  -- the creation of its entry is not in the log any more
  have hcreated : ∃ e', Created w.told t (w.master.num e) e' := by
    rcases h.sent t b e he with ⟨j, hj, hlog⟩ | hcr
    · refine absurd ?_ (hord j hj ?_)
      · rw [hlog, hhdr]
        rfl
      · rw [hlog, hhdr]
        exact hs.table
    · exact hcr
  obtain ⟨e', hcr⟩ := hcreated
  -- the peer reads the header that the entry had
  have hsh : A.host slu.supHdr = { (w.master.ent e).slHdr with
      smMagic := SYNHDRMAGIC
      smCmd := SMC_UPDATE
      smTable := t.code
      smLen := BitVec.ofNat 32 A.tcp.size
      smRev := rev } := by
    rw [hhdr, host_update]
  have hcmd : (A.host slu.supHdr).smCmd = SMC_UPDATE := by rw [hsh]
  have htab : (A.host slu.supHdr).smTable = t.code := by rw [hsh]
  have hnum : (A.host slu.supHdr).smNum = w.master.num e := by
    rw [hsh]
    rfl
  have hp : (A.host slu.supHdr).smP = IPPROTO_TCP := by
    rw [hsh]
    exact hm.proto
  obtain ⟨p', hmsg, hentry, hpeer', hsync, halloc, hholds, hkeep⟩ :=
    h.peer.update hcmd htab (hnum ▸ hcr) hp (fun ht => by rw [hnum]; exact hm.num ht) slu.supTcp x
  refine ⟨p', hwhole, hmsg, hmem.tail (fun t o _ => hsync t o) fun sl hsl => .inl (halloc ▸ hsl), ?_, ?_⟩
  · rw [hentry]
    have hcr' : ∀ {t' num e''}, Created (w.told ++ [⟨A.host slu.supHdr, some e', 0⟩]) t' num e'' ↔
        Created w.told t' num e'' := created_update hcmd
    refine h.still (nextUpd_still w.master) (h.master.nextUpd hlt) hpeer' hcr' (fun i hi => ?_)
      (fun o' sl' v hs' hi hv => ?_) h.lasts
      (fun y hy => ?_) ?_
    · obtain ⟨hi', -⟩ := nextUpd_moves hi
      obtain ⟨t', e'', hm'⟩ := h.moves i hi'
      refine ⟨t', e'', hm'.congr (fun _ => id) ?_ (nextUpd_ent _ _).1 fun _ o' ho' =>
        ⟨((nextUpd_still w.master).quiet.sync .state o').symm.trans ho', rfl⟩⟩
      change w.master.nextUpd.syncupd i = _
      rw [nextUpd_eq]
    · change (w.master.nextUpd.ent sl').slIdx = none at hi
      rw [(nextUpd_ent _ _).2.2, hm.owner] at hi
      obtain ⟨b', hb', -⟩ := h.master.base.listed _ _ _ hs'
      -- the owner of the slot has its values at the peer now
      by_cases hes : e = sl'
      · subst hes
        obtain ⟨rfl, -⟩ := h.master.base.unique he hb'
        have hlast := hm.conn rfl o' hs'
        rw [hslu] at hlast
        have hvv := mem_unique hv hlast
        exact ⟨e', hcr, hvv ▸ hholds rfl⟩
      · rw [if_neg fun hc => hes (some.inj hc)] at hi
        obtain ⟨e₃, hc₃, hh₃⟩ := h.values o' sl' v hs' hi hv
        refine ⟨e₃, hc₃, hkeep e₃ v (fun ht => ?_) hh₃⟩
        rintro rfl
        -- entries with one number are one
        subst ht
        have h1 := (h.peer.entry _ _ _ hcr).2
        have h2 := (h.peer.entry _ _ _ hc₃).2
        exact hes (h.master.apart he hb' (h1.symm.trans h2))
    · rcases mem_append.1 hy with hy | hy
      · exact h.accepted y hy
      · rw [mem_singleton.1 hy]
    · refine before_snoc h.found fun _ => ⟨t, e', htab, rfl, ?_⟩
      rw [hnum]
      exact hcr
  · exact hc.takeUpd hlt hslu hcmd p' _

/-! ## What is read at once -/

/-- The pair after some messages. -/
def Pair.overs (w : Pair) (master peer : Softs) (l : List Told) : Pair :=
  { w with master := master, peer := peer, told := w.told ++ l }

theorem over_overs (w : Pair) (s p s' p' : Softs) (x : Told) (l : List Told) :
    (w.over s p x).overs s' p' l = w.overs s' p' (x :: l) := by
  unfold Pair.over Pair.overs
  dsimp only
  rw [append_assoc]
  rfl

theorem overs_nil (w : Pair) : w.overs w.master w.peer [] = w := by
  unfold Pair.overs
  rw [append_nil]

/-- **A stretch of what is read** went over: the records, the memory that they took, and the room that is left. -/
structure Stretch (A : Abi) (w : Pair) (L : Tab × ℕ → List ℕ) (mem : List (Option ℕ × Option ℕ)) (u v : Uio)
    (size k : ℕ) (s' : Softs) : Prop where
  fault : v.fault = none
  room : v.resid + k * size = u.resid
  left : 0 < u.resid → 0 < v.resid
  peer : ∃ rs p' P' m₁ m₂ l, mem = m₁ ++ m₂ ∧ m₁.length = k ∧ rs.length = k ∧
    v.out = u.out ++ rs.flatMap A.recBytes ∧
    Feed A w.peer rs m₁ p' l ∧ Memory p' m₂ ∧ Follows A (w.overs s' p' l) L P'

theorem Stretch.nil (h : Mirror A w L P) (hc : Complete A w) (hmem : Memory w.peer mem) {u : Uio} (hu : u.fault = none)
    (size : ℕ) :
    Stretch A w L mem u u size 0 w.master := by
  refine ⟨hu, by omega, id, [], w.peer, P, [], mem, [], rfl, rfl, rfl, ?_, .nil, hmem, ?_, ?_⟩
  · simp
  · rwa [overs_nil]
  · rwa [overs_nil]

/-- A record more at the front of a stretch. -/
theorem Stretch.cons {s₁ s' p₁ : Softs} {y : Told} {r : Rec} {u v : Uio} {size k : ℕ} (hw : Whole A r)
    (hmsg : ∀ junk, ∃ i, writeMessage A w.peer (A.host r.1) (r.2 ++ junk) x = (p₁, 0, i))
    (hy : y = ⟨A.host r.1, w.peer.entry (A.host r.1) x, 0⟩) (hlt : size < u.resid)
    (h : Stretch A (w.over s₁ p₁ y) L mem { u with resid := u.resid - size, out := u.out ++ A.recBytes r } v size k s') :
    Stretch A w L (x :: mem) u v size (k + 1) s' := by
  obtain ⟨hf, hroom, hleft, rs, p', P', m₁, m₂, l, rfl, hm₁, hrs, hout, hfeed, hmem, hmir, hcom⟩ := h
  subst hy
  rw [over_overs] at hmir hcom
  refine ⟨hf, ?_, fun _ => hleft (Nat.sub_pos_of_lt hlt), r :: rs, p', P', x :: m₁, m₂, _ :: l, rfl, ?_, ?_, ?_,
    .cons hw hmsg hfeed, hmem, hmir, hcom⟩
  · change v.resid + k * size = u.resid - size at hroom
    rw [Nat.succ_mul]
    omega
  · rw [length_cons, hm₁]
  · rw [length_cons, hrs]
  · rw [hout, flatMap_cons, append_assoc]

theorem logBytes_length (h : Master A w.master L) (j : ℕ) :
    (A.recBytes ((w.master.synclog j).sleHdr, (w.master.synclog j).sleUn)).length = A.logSize := by
  unfold Abi.recBytes Abi.logSize
  rw [length_append, A.hdr.length_put, h.width]

/-- **The log is read,** by induction over what is left of it. -/
theorem Mirror.readLog (hA : A.Fits) :
    ∀ (n : ℕ) {w : Pair} {P : Tab × ℕ → List ℕ} {mem : List (Option ℕ × Option ℕ)} (u : Uio),
    Mirror A w L P → Complete A w → u.fault = none → Memory w.peer mem → n ≤ mem.length →
      w.master.slTail + n = w.master.slIdx →
    ∃ k v τ, k ≤ n ∧ readLog A n w.master u = ({ w.master with slTail := w.master.slTail + k }, some v, τ) ∧
      Stretch A w L mem u v A.logSize k { w.master with slTail := w.master.slTail + k } ∧ (k < n → v.resid ≤ A.logSize)
  | 0, w, P, mem, u, h, hc, hu, hmem, _,
    _ => ⟨0, u, [], le_rfl, rfl, .nil h hc hmem hu _, fun hk => absurd hk (lt_irrefl 0)⟩
  | n + 1, w, P, mem, u, h, hc, hu, hmem, hn, hidx => by
    unfold Sync.readLog
    by_cases hlt : w.master.slTail < w.master.slIdx ∧ A.logSize < u.resid
    · cases mem with
      | nil => exact absurd hn (Nat.not_succ_le_zero n)
      | cons x mem =>
        -- one record goes over, and the rest by induction
        obtain ⟨p₁, P₁, hwhole, hmsg, hmem₁, hmir, hcom⟩ := h.takeLog hA hc hlt.1 rfl hmem
        have hlen := logBytes_length h.master w.master.slTail
        have hmove : u.move (.log w.master.slTail) (A.logBytes (w.master.synclog w.master.slTail)) = some { u with
            resid := u.resid - A.logSize
            out := u.out ++ A.recBytes ((w.master.synclog w.master.slTail).sleHdr, (w.master.synclog w.master.slTail).sleUn)
              } := by
          unfold Uio.move
          rw [if_neg (by rw [hu]; simp), ← hlen]
          rfl
        obtain ⟨k, v, τ, hk, hread, hst, hstop⟩ := Mirror.readLog hA n { u with
          resid := u.resid - A.logSize
          out := u.out ++ A.recBytes ((w.master.synclog w.master.slTail).sleHdr, (w.master.synclog w.master.slTail).sleUn) }
          hmir hcom hu hmem₁ (Nat.le_of_succ_le_succ hn) (by change w.master.slTail + 1 + n = w.master.slIdx; omega)
        have hstate : ({ ({ w.master with slTail := w.master.slTail + 1 } : Softs) with slTail := w.master.slTail + 1 + k } :
            Softs) =
            { w.master with slTail := w.master.slTail + (k + 1) } := by
          rw [add_assoc, add_comm 1 k]
        have hread' : Sync.readLog A n { w.master with slTail := w.master.slTail + 1 } { u with
            resid := u.resid - A.logSize
            out := u.out ++ A.recBytes ((w.master.synclog w.master.slTail).sleHdr, (w.master.synclog w.master.slTail).sleUn)
              } = _ := hread
        refine ⟨k + 1, v, .synclog w.master.slTail :: τ, Nat.succ_le_succ hk, ?_, ?_,
          fun hk' => hstop (Nat.lt_of_succ_lt_succ hk')⟩
        · rw [if_pos hlt]
          dsimp only
          rw [hmove]
          dsimp only
          rw [hread', ← hstate]
          rfl
        · rw [← hstate]
          exact hst.cons hwhole hmsg rfl hlt.2
    · -- the loop stops: the log is empty or the room is used up
      rw [if_neg hlt]
      refine ⟨0, u, [], Nat.zero_le _, rfl, .nil h hc hmem hu _, fun _ => ?_⟩
      by_contra hroom
      exact hlt ⟨by omega, by omega⟩

/-- **The updates are read,** when none comes before the creation of its entry. -/
theorem Mirror.readUpd (hA : A.Fits) :
    ∀ (n : ℕ) {w : Pair} {P : Tab × ℕ → List ℕ} {mem : List (Option ℕ × Option ℕ)} (u : Uio),
    Mirror A w L P → Complete A w → u.fault = none → Memory w.peer mem → n ≤ mem.length →
      w.master.suTail + n = w.master.suIdx →
    (∀ i j, w.master.Moves i → w.master.Waits j →
      (w.master.synclog j).sleHdr.smTable = (w.master.syncupd i).supHdr.smTable →
      (w.master.synclog j).sleHdr.smNum = (w.master.syncupd i).supHdr.smNum →
        u.resid ≤ (i + 1 - w.master.suTail) * A.updSize) →
    ∃ k v τ s', Sync.readUpd A n w.master u = (s', some v, τ) ∧ Stretch A w L mem u v A.updSize k s'
  | 0, w, P, mem, u, h, hc, hu, hmem, _, _, _ => ⟨0, u, [], w.master, rfl, .nil h hc hmem hu _⟩
  | n + 1, w, P, mem, u, h, hc, hu, hmem, hn, hidx, hord => by
    unfold Sync.readUpd
    by_cases hlt : w.master.suTail < w.master.suIdx ∧ A.updSize < u.resid
    · cases mem with
      | nil => exact absurd hn (Nat.not_succ_le_zero n)
      | cons x mem =>
        -- no creation with its number waits behind the first update
        have hfirst : ∀ j, w.master.Waits j →
            (w.master.synclog j).sleHdr.smTable = (w.master.syncupd w.master.suTail).supHdr.smTable →
            (w.master.synclog j).sleHdr.smNum ≠ (w.master.syncupd w.master.suTail).supHdr.smNum := by
          intro j hj ht hnum
          have hroom := hord w.master.suTail j ⟨le_rfl, hlt.1⟩ hj ht hnum
          rw [Nat.add_sub_cancel_left, Nat.one_mul] at hroom
          omega
        obtain ⟨p₁, hwhole, hmsg, hmem₁, hmir, hcom⟩ := h.takeUpd hA hc hlt.1 rfl hfirst hmem
        have hlen : (A.updBytes (w.master.syncupd w.master.suTail)).length = A.updSize := by
          unfold Abi.updBytes Abi.updSize
          rw [length_append, A.hdr.length_put, A.tcp.length_put]
        have hmove : u.move (.upd w.master.suTail) (A.updBytes (w.master.syncupd w.master.suTail)) = some { u with
            resid := u.resid - A.updSize
            out := u.out ++ A.recBytes
              ((w.master.syncupd w.master.suTail).supHdr, A.tcp.put (w.master.syncupd w.master.suTail).supTcp) } := by
          unfold Uio.move
          rw [if_neg (by rw [hu]; simp), hlen]
          rfl
        have hidx' : w.master.nextUpd.suTail + n = w.master.nextUpd.suIdx := by
          rw [nextUpd_eq]
          change w.master.suTail + 1 + n = w.master.suIdx
          omega
        obtain ⟨k, v, τ, s', hread, hst⟩ := Mirror.readUpd hA n { u with
          resid := u.resid - A.updSize
          out := u.out ++ A.recBytes
            ((w.master.syncupd w.master.suTail).supHdr, A.tcp.put (w.master.syncupd w.master.suTail).supTcp) }
          hmir hcom hu hmem₁ (Nat.le_of_succ_le_succ hn) hidx' (by
            intro i j hi hj ht hnum
            -- a slot less is left, and its size less room
            obtain ⟨hi', hne⟩ := nextUpd_moves hi
            change (w.master.nextUpd.synclog j).sleHdr.smTable = (w.master.nextUpd.syncupd i).supHdr.smTable at ht
            change (w.master.nextUpd.synclog j).sleHdr.smNum = (w.master.nextUpd.syncupd i).supHdr.smNum at hnum
            change u.resid - A.updSize ≤ (i + 1 - w.master.nextUpd.suTail) * A.updSize
            rw [nextUpd_eq] at ht hnum ⊢
            have hroom := hord i j hi' (((nextUpd_still _).waits j).1 hj) ht hnum
            dsimp only
            have hil := hi'.1
            rw [show i + 1 - w.master.suTail = (i + 1 - (w.master.suTail + 1)) + 1 by omega, Nat.succ_mul] at hroom
            omega)
        have hread' : Sync.readUpd A n
            ({ w.master with suTail := w.master.suTail + 1 }.untie (w.master.syncupd w.master.suTail)) { u with
            resid := u.resid - A.updSize
            out := u.out ++ A.recBytes
              ((w.master.syncupd w.master.suTail).supHdr, A.tcp.put (w.master.syncupd w.master.suTail).supTcp) } = _ :=
          hread
        refine ⟨k + 1, v, .syncupd w.master.suTail :: τ, s', ?_, hst.cons hwhole hmsg rfl hlt.2⟩
        rw [if_pos hlt]
        dsimp only
        rw [hmove]
        dsimp only
        rw [hread']
    · rw [if_neg hlt]
      exact ⟨0, u, [], w.master, rfl, .nil h hc hmem hu _⟩

theorem rewind_fields (s : Softs) : s.rewind.ent = s.ent ∧ s.rewind.synclog = s.synclog ∧ s.rewind.syncupd = s.syncupd :=
  rewind_rule (P := fun s₁ => s₁.ent = s.ent ∧ s₁.synclog = s.synclog ∧ s₁.syncupd = s.syncupd) ⟨rfl, rfl, rfl⟩
    (fun _ => ⟨rfl, rfl, rfl⟩) fun _ h _ => h

/-- Indices go back only when nothing waits. -/
theorem rewind_log (s : Softs) : s.rewind.slTail = s.slTail ∧ s.rewind.slIdx = s.slIdx ∨
    s.slTail = s.slIdx ∧ s.rewind.slTail = 0 ∧ s.rewind.slIdx = 0 :=
  rewind_rule (P := fun s₁ => s₁.slTail = s.slTail ∧ s₁.slIdx = s.slIdx ∨ s.slTail = s.slIdx ∧ s₁.slTail = 0 ∧
    s₁.slIdx = 0)
    (.inl ⟨rfl, rfl⟩) (fun heq => .inr ⟨heq, rfl, rfl⟩) fun _ h _ => h

theorem rewind_upd (s : Softs) : s.rewind.suTail = s.suTail ∧ s.rewind.suIdx = s.suIdx ∨
    s.suTail = s.suIdx ∧ s.rewind.suTail = 0 ∧ s.rewind.suIdx = 0 :=
  rewind_rule (P := fun s₁ => s₁.suTail = s.suTail ∧ s₁.suIdx = s.suIdx ∨ s.suTail = s.suIdx ∧ s₁.suTail = 0 ∧
    s₁.suIdx = 0)
    (.inl ⟨rfl, rfl⟩) (fun _ => .inl ⟨rfl, rfl⟩) fun _ h heq => .inr ⟨by omega, rfl, rfl⟩

/-- What waits is the same after the indices went back. -/
theorem span_same {tail idx tail' idx' : ℕ} (h : tail' = tail ∧ idx' = idx ∨ tail = idx ∧ tail' = 0 ∧ idx' = 0) :
    (∀ j, tail' ≤ j ∧ j < idx' ↔ tail ≤ j ∧ j < idx) ∧
      range' tail' (idx' - tail') = range' tail (idx - tail) := by
  rcases h with ⟨rfl, rfl⟩ | ⟨rfl, rfl, rfl⟩
  · exact ⟨fun _ => Iff.rfl, rfl⟩
  · refine ⟨fun j => by omega, ?_⟩
    rw [Nat.sub_self, Nat.sub_self]
    rfl

/-- The pair after the indices of the master went back. -/
theorem Mirror.rewind (h : Mirror A w L P) (hc : Complete A w) :
    Follows A { w with master := w.master.rewind } L P := by
  obtain ⟨hent, hlog, hupd⟩ := rewind_fields w.master
  obtain ⟨hslots, hq⟩ := h.master.slots.rewind
  obtain ⟨hwaits, hrange⟩ := span_same (rewind_log w.master)
  obtain ⟨hmoves, hrange'⟩ := span_same (rewind_upd w.master)
  have hstill : Still w.master w.master.rewind := ⟨hq, hlog, hwaits⟩
  constructor
  · refine h.still hstill (h.master.still hstill hslots ?_) h.peer Iff.rfl (fun i hi => ?_)
      (fun o sl v hs hi hv => ?_) h.lasts h.accepted
      h.found
    · have htail := h.master.tail
      rcases rewind_log w.master with ⟨h1, h2⟩ | ⟨-, h1, h2⟩
      · rw [h1, h2]
        exact htail
      · rw [h1, h2]
    · obtain ⟨t, e, hm⟩ := h.moves i ((hmoves i).1 hi)
      exact ⟨t, e, hm.congr (fun _ => id) (by rw [hupd]) (hq.hdr e) fun _ o ho =>
        ⟨(hq.sync .state o).symm.trans ho, rfl⟩⟩
    · change (w.master.rewind.ent sl).slIdx = none at hi
      rw [hent] at hi
      exact h.values o sl v hs hi hv
  · refine ⟨?_, ?_⟩
    · rw [hc.made]
      dsimp only
      rw [hrange, hlog]
    · rw [hc.moved]
      dsimp only
      rw [hrange', hupd]

/-- **No update is read before the creation of its entry:** where the one does not fit any more, neither does the other. -/
def Softs.Ordered (A : Abi) (s : Softs) (resid : ℕ) : Prop :=
  ∀ i j, s.Moves i → s.Waits j → (s.synclog j).sleHdr.smTable = (s.syncupd i).supHdr.smTable →
    (s.synclog j).sleHdr.smNum = (s.syncupd i).supHdr.smNum → resid ≤ (j + 1 - s.slTail) * A.logSize →
      resid - (resid - 1) / A.logSize * A.logSize ≤ (i + 1 - s.suTail) * A.updSize

/-- **What is read at once goes over.** -/
theorem Mirror.sync (h : Mirror A w L P) (hc : Complete A w) (hA : A.Fits)
    {resid : ℕ} {fault : Option Slot} (hfault : fault = none) (hmem : Memory w.peer mem)
    (hn : w.master.slIdx - w.master.slTail + (w.master.suIdx - w.master.suTail) ≤ mem.length)
    (hord : w.master.Ordered A resid) (buf : List Byte) : ∃ P', Follows A (act A w (.sync resid fault mem buf)) L P' := by
  subst hfault
  unfold act ipfSyncRead
  dsimp only
  by_cases hsize : resid % 4 ≠ 0 ∨ resid < 8
  · rw [if_pos hsize]
    exact ⟨P, h, hc⟩
  rw [if_neg hsize]
  by_cases hidle : w.master.slTail = w.master.slIdx ∧ w.master.suTail = w.master.suIdx
  · rw [if_pos hidle]
    exact ⟨P, h, hc⟩
  rw [if_neg hidle]
  have htail := h.master.tail
  have hutail := h.master.slots.tail
  -- first the log
  obtain ⟨k, v, τ, hk, hread, hst, hstop⟩ :=
    h.readLog hA (w.master.slIdx - w.master.slTail) ⟨resid, none, []⟩ hc rfl hmem (by omega)
    (by omega)
  obtain ⟨hf, hroom, hleft, rs, p₁, P₁, m₁, m₂, l₁, rfl, hm₁, -, hout, hfeed, hmem₁, hmir, hcom⟩ := hst
  rw [hread]
  dsimp only at hroom hleft ⊢
  rw [length_append] at hn
  -- what is left of the room, when something is left in the log
  have hord₁ : ∀ i j, (w.overs { w.master with slTail := w.master.slTail + k } p₁ l₁).master.Moves i →
      (w.overs { w.master with slTail := w.master.slTail + k } p₁ l₁).master.Waits j →
      (w.master.synclog j).sleHdr.smTable = (w.master.syncupd i).supHdr.smTable →
      (w.master.synclog j).sleHdr.smNum = (w.master.syncupd i).supHdr.smNum →
        v.resid ≤ (i + 1 - w.master.suTail) * A.updSize := by
    intro i j hi hj ht hnum
    have hj1 : w.master.slTail + k ≤ j := hj.1
    have hj2 : j < w.master.slIdx := hj.2
    have hlow := hstop (by omega)
    have hpos := hleft (by omega)
    -- as many records went over as fit
    have hdiv : (resid - 1) / A.logSize = k := by
      apply Nat.div_eq_of_lt_le
      · omega
      · rw [Nat.succ_mul]
        omega
    -- a record that is left did not fit
    have hlate : resid ≤ (j + 1 - w.master.slTail) * A.logSize := by
      have hmul : (k + 1) * A.logSize ≤ (j + 1 - w.master.slTail) * A.logSize := Nat.mul_le_mul_right _ (by omega)
      rw [Nat.succ_mul] at hmul
      omega
    have hres := hord i j hi ⟨by omega, hj2⟩ ht hnum hlate
    rw [hdiv] at hres
    omega
  -- then the updates, in what room is left
  obtain ⟨k', v', τ', s', hread', hst'⟩ := hmir.readUpd hA (w.master.suIdx - w.master.suTail) v hcom hf hmem₁ (by omega)
    (by change w.master.suTail + (w.master.suIdx - w.master.suTail) = w.master.suIdx; omega) hord₁
  obtain ⟨-, -, -, rs', p₂, P₂, m₁', m₂', l₂, rfl, -, -, hout', hfeed', -, hmir', hcom'⟩ := hst'
  have hread₁ : Sync.readUpd A (w.master.suIdx - w.master.suTail) { w.master with slTail := w.master.slTail + k } v = _ :=
    hread'
  rw [hread₁]
  dsimp only
  -- the peer is fed both at once
  have hfeed₂ := hfeed.trans hfeed'
  have hbytes : v'.out = (rs ++ rs').flatMap A.recBytes := by
    rw [hout', hout, flatMap_append, nil_append]
  obtain ⟨hwrite, htold⟩ := hfeed₂.write m₂' buf 0 hfeed₂.length_le
  unfold ipfSyncWrite
  rw [← append_assoc, hbytes, hwrite, htold]
  obtain ⟨hrew, hcrew⟩ := hmir'.rewind hcom'
  have hlast : (w.overs { w.master with slTail := w.master.slTail + k } p₁ l₁).overs s' p₂ l₂ =
      w.overs s' p₂ (l₁ ++ l₂) := by
    unfold Pair.overs
    dsimp only
    rw [append_assoc]
  rw [hlast] at hrew hcrew
  exact ⟨P₂, hrew, hcrew⟩

/-! ## What the master does alone -/

/-- **States and NAT entries change,** but not what they say about their entries. -/
theorem Mirror.owners (h : Mirror A w L P) (hc : Complete A w) (ips : ℕ → Ipstate) (ipn : ℕ → NatT)
    (hips : ∀ o, (ips o).isSync = (w.master.ips o).isSync) (hipn : ∀ o, (ipn o).natSync = (w.master.ipn o).natSync) :
    Follows A { w with master := { w.master with ips := ips, ipn := ipn } } L P := by
  have hsync : ∀ t o, ({ w.master with ips := ips, ipn := ipn } : Softs).sync t o = w.master.sync t o := by
    intro t o
    cases t
    · exact hipn o
    · exact hips o
  refine ⟨⟨⟨h.master.base.owners rfl rfl rfl hsync, ?_, ?_, h.master.tail, h.master.width, h.master.sound,
    h.master.once⟩, h.peer, h.logs,
    h.sent, fun i hi => ?_, fun o sl v hs => ?_, h.known, fun o v hv => ?_, h.accepted, h.found⟩, ⟨hc.made, hc.moved⟩⟩
  · exact h.master.numbers.less (fun _ _ he ha => ⟨he, ha, rfl⟩) rfl rfl
  · exact h.master.slots.congr rfl rfl rfl (fun _ _ _ => rfl) fun _ => rfl
  · obtain ⟨t, e, hm⟩ := h.moves i hi
    exact ⟨t, e, hm.congr (fun _ => id) rfl rfl fun _ o ho => ⟨(hsync .state o).symm.trans ho, rfl⟩⟩
  · exact h.values o sl v ((hsync .state o).symm.trans hs)
  · obtain ⟨sl, hsl⟩ := h.lasts o v hv
    exact ⟨sl, (hsync .state o).trans hsl⟩

/-- What an update puts into its slot. -/
def Softs.say (A : Abi) (s : Softs) (t : Tab) (o : ℕ) (old : SynctcpUpdate) : SynctcpUpdate :=
  match t with
  | .state => (s.ips o).tcpUpdate A
  | .nat => { old with stuAge := A.M.htonl (s.ipn o).natAge }

theorem wakeup_same {s s₁ : Softs} (h : s = s₁) (ticks : Word) :
    ∃ k z, ipfSyncWakeup s ticks = { s₁ with ipfSyncEvents := k, ipfSyncLastwakeup := z } := h ▸ wakeup_eq s ticks

theorem say_slot (A : Abi) (s : Softs) (t : Tab) (o : ℕ) (slu : Syncupdent) :
    { slu with supTcp := s.say A t o slu.supTcp } = { slu with
    supTcp := match t, some o with
      | .state, some o => (s.ips o).tcpUpdate A
      | .nat, some o => { slu.supTcp with stuAge := A.M.htonl (s.ipn o).natAge }
      | _, none => slu.supTcp } := by
  cases t <;> rfl

/-- An update of an entry with a slot. -/
theorem update_again (hout : fin.finOut = true) (hp : fin.finP = IPPROTO_TCP) (hidx : (s.ent sl).slIdx = some i)
    (hptr : (s.ent sl).slPtr = some o) (ticks : Word) : ∃ k z, (ipfSyncUpdate A s t fin (some sl) ticks).1 = { s with
        syncupd := update s.syncupd i { s.syncupd i with supTcp := s.say A t o (s.syncupd i).supTcp }
        ipfSyncEvents := k
        ipfSyncLastwakeup := z } := by
  unfold ipfSyncUpdate
  dsimp only
  rw [if_neg (by rw [hout]; simp), if_pos hp, hidx]
  dsimp only [getD_some]
  rw [hptr]
  have hstate : (s.updSlot i fun slu => { slu with supTcp := s.say A t o slu.supTcp }) =
      { s with syncupd := update s.syncupd i { s.syncupd i with supTcp := s.say A t o (s.syncupd i).supTcp } } := rfl
  rw [funext (say_slot A s t o)] at hstate
  exact wakeup_same hstate ticks

/-- An update of an entry without one. -/
theorem update_first (hout : fin.finOut = true) (hp : fin.finP = IPPROTO_TCP) (hidx : (s.ent sl).slIdx = none)
    (hptr : (s.ent sl).slPtr = some o) (ticks : Word) : ∃ k z, (ipfSyncUpdate A s t fin (some sl) ticks).1 = { s with
        ent := update s.ent sl { s.ent sl with slIdx := some s.suIdx }
        suIdx := s.suIdx + 1
        syncupd := update s.syncupd s.suIdx { s.syncupd s.suIdx with
          supHdr := (s.ent sl).slHdr.update A t fin.finRev
          supSl := some sl
          supTcp := s.say A t o (s.syncupd s.suIdx).supTcp }
        ipfSyncEvents := k
        ipfSyncLastwakeup := z } := by
  unfold ipfSyncUpdate
  dsimp only
  rw [if_neg (by rw [hout]; simp), if_pos hp, hidx]
  dsimp only [getD_none]
  unfold Softs.updSlot Softs.updEnt
  dsimp only
  rw [update_self, update_idem, hptr]
  cases t with
  | nat => exact wakeup_eq { s with
      ent := update s.ent sl ⟨some s.suIdx, (s.ent sl).slHdr, some o⟩
      suIdx := s.suIdx + 1
      syncupd := update s.syncupd s.suIdx { s.syncupd s.suIdx with
        supHdr := (s.ent sl).slHdr.update A .nat fin.finRev
        supSl := some sl
        supTcp := s.say A .nat o (s.syncupd s.suIdx).supTcp } } ticks
  | state => exact wakeup_eq { s with
      ent := update s.ent sl ⟨some s.suIdx, (s.ent sl).slHdr, some o⟩
      suIdx := s.suIdx + 1
      syncupd := update s.syncupd s.suIdx { s.syncupd s.suIdx with
        supHdr := (s.ent sl).slHdr.update A .state fin.finRev
        supSl := some sl
        supTcp := s.say A .state o (s.syncupd s.suIdx).supTcp } } ticks

/-- What the connections were as of the last update, after an update. -/
theorem lastConn_other (ho : o' ≠ o) : s.lastConn t fin o last o' = last o' := by
  unfold Softs.lastConn
  split
  · exact update_of_ne ho ..
  · rfl

theorem lastConn_self (hout : fin.finOut = true) (hs : s.sync .state o = some sl) :
    s.lastConn .state fin o last o = some ((s.ips o).tsData, (s.ips o).isState) := by
  unfold Softs.lastConn
  rw [if_pos ⟨rfl, hout, by rw [hs]; nofun⟩, update_self]

theorem lastConn_nat : s.lastConn .nat fin o last = last := by
  unfold Softs.lastConn
  rw [if_neg nofun]

/-- Other owners have other entries. -/
theorem owner_ne (ho : s.sync t o = some sl) (he : s.sync t o' = some e) (hne : e ≠ sl) : o' ≠ o := by
  rintro rfl
  exact hne (mem_unique he ho)

/-- Whose connection is known after an update has an entry. -/
theorem Mirror.lastConn (h : Mirror A w L P) (fin : FrInfo) {v : Conn} (hv : w.master.lastConn t fin o w.last o' = some v) :
    ∃ sl, w.master.sync .state o' = some sl := by
  by_cases ho : o' = o
  · unfold Softs.lastConn at hv
    split at hv
    · rename_i hc
      obtain ⟨sl, hsl⟩ := ne_none_iff_exists'.1 hc.2.2
      rw [hc.1] at hsl
      exact ⟨sl, ho ▸ hsl⟩
    · exact h.lasts o' v hv
  · rw [lastConn_other ho] at hv
    exact h.lasts o' v hv

/-- **An entry is updated** that has a slot. -/
theorem Mirror.updateAgain (h : Mirror A w L P) (hc : Complete A w) (hout : fin.finOut = true)
    (ho : w.master.sync t o = some sl) (hidx : (w.master.ent sl).slIdx = some i) (k : ℕ) (z : Word) :
    Follows A { w with
      master := { w.master with
        syncupd := update w.master.syncupd i { w.master.syncupd i with
          supTcp := w.master.say A t o (w.master.syncupd i).supTcp }
        ipfSyncEvents := k
        ipfSyncLastwakeup := z }
      last := w.master.lastConn t fin o w.last } L P := by
  obtain ⟨b, hb, hptr⟩ := h.master.base.listed t o sl ho
  obtain ⟨hi1, hi2, hown⟩ := h.master.slots.slot _ sl hb i hidx
  have hq : Quiet w.master { w.master with
      syncupd := update w.master.syncupd i { w.master.syncupd i with
        supTcp := w.master.say A t o (w.master.syncupd i).supTcp }
      ipfSyncEvents := k
      ipfSyncLastwakeup := z } := ⟨rfl, rfl, rfl, rfl, fun _ => rfl, fun _ => rfl, rfl, rfl, rfl⟩
  have hself : update w.master.syncupd i { w.master.syncupd i with
      supTcp := w.master.say A t o (w.master.syncupd i).supTcp } i = { w.master.syncupd i with
        supTcp := w.master.say A t o (w.master.syncupd i).supTcp } := update_self ..
  have hother : ∀ j, j ≠ i → update w.master.syncupd i { w.master.syncupd i with
      supTcp := w.master.say A t o (w.master.syncupd i).supTcp } j = w.master.syncupd j := fun j hj => update_of_ne hj ..
  constructor
  · refine ⟨⟨h.master.base.quiet hq, ?_, ?_, h.master.tail, h.master.width, h.master.sound, h.master.once⟩, h.peer,
      h.logs, h.sent,
      fun j hj => ?_, fun o' sl' v hs hi hv => ?_, h.known, fun o' v hv => h.lastConn fin hv, h.accepted, h.found⟩
    · exact h.master.numbers.less (fun _ _ he ha => ⟨he, ha, rfl⟩) rfl rfl
    · refine h.master.slots.congr rfl rfl rfl (fun _ _ _ => rfl) fun j => ?_
      by_cases hj : j = i
      · subst hj
        have howner := congrArg Syncupdent.supSl hself
        exact howner
      · exact congrArg Syncupdent.supSl (hother j hj)
    · -- the slot of the entry has new values, the others their own
      obtain ⟨t', e, hm⟩ := h.moves j hj
      obtain ⟨b', he⟩ := hm.listed
      by_cases hji : j = i
      · subst hji
        obtain rfl := mem_unique hown hm.owner
        obtain ⟨rfl, -⟩ := h.master.base.unique hb he
        refine ⟨t, sl, ⟨hm.listed, ?_, ?_, hm.proto, hm.num, fun ht o' ho' => ?_⟩⟩
        · exact (congrArg Syncupdent.supSl hself).trans hown
        · obtain ⟨rev, hrev⟩ := hm.hdr
          exact ⟨rev, (congrArg Syncupdent.supHdr hself).trans hrev⟩
        · subst ht
          change w.master.sync .state o' = some sl at ho'
          obtain ⟨b₂, hb₂, hptr₂⟩ := h.master.base.listed .state o' sl ho'
          obtain rfl := mem_unique hptr hptr₂
          refine (lastConn_self hout ho').trans ?_
          have hslot := congrArg (fun su : Syncupdent => (su.supTcp.stuData, su.supTcp.stuState)) hself
          exact congrArg some hslot.symm
      · refine ⟨t', e, hm.congr (fun _ => id) (hother j hji) rfl fun ht o' ho' => ⟨ho', ?_⟩⟩
        by_cases htt : t = .state
        · refine lastConn_other ?_
          subst ht
          subst htt
          refine owner_ne ho ho' ?_
          rintro rfl
          have hback := (h.master.slots.back j hj.1 hj.2 e hm.owner).2
          exact hji (mem_unique hback hidx)
        · have ht' : t = .nat := by
            cases t
            · rfl
            · exact absurd rfl htt
          rw [ht', lastConn_nat]
    · -- the entry waits, so nothing is claimed of its values
      by_cases ho' : o' = o ∧ t = .state
      · obtain ⟨rfl, rfl⟩ := ho'
        obtain rfl := mem_unique ho hs
        exact absurd (hi.symm.trans hidx) nofun
      · refine h.values o' sl' v hs hi ?_
        rw [← hv]
        by_cases htt : t = .state
        · exact (lastConn_other fun hoo => ho' ⟨hoo, htt⟩).symm
        · have ht' : t = .nat := by
            cases t
            · rfl
            · exact absurd rfl htt
          rw [ht', lastConn_nat]
  · refine ⟨hc.made, hc.moved.trans ?_⟩
    refine congrArg (toldOf w.told SMC_UPDATE ++ ·) (map_congr_left fun j _ => ?_)
    by_cases hj : j = i
    · subst hj
      have hhdr := congrArg (fun su : Syncupdent => A.host su.supHdr) hself
      exact hhdr.symm
    · exact congrArg (fun su : Syncupdent => A.host su.supHdr) (hother j hj).symm

theorem range_snoc {i n : ℕ} (hi : i ≤ n) : range' i (n + 1 - i) = range' i (n - i) ++ [n] := by
  obtain ⟨k, rfl⟩ := Nat.exists_eq_add_of_le hi
  rw [show i + k + 1 - i = k + 1 by omega, show i + k - i = k by omega, List.range'_concat, one_mul]

theorem Complete.takeSlot (hc : Complete A w) {s' : Softs} {hdr : Synchdr}
    (hlog : s'.slTail = w.master.slTail ∧ s'.slIdx = w.master.slIdx ∧ s'.synclog = w.master.synclog)
    (hupd : s'.suTail = w.master.suTail ∧ s'.suIdx = w.master.suIdx + 1) (htail : w.master.suTail ≤ w.master.suIdx)
    (hother : ∀ j, j ≠ w.master.suIdx → s'.syncupd j = w.master.syncupd j)
    (hself : (s'.syncupd w.master.suIdx).supHdr = hdr) (last : ℕ → Option Conn) :
    Complete A { w with master := s', moved := w.moved ++ [hdr], last := last } := by
  refine ⟨?_, ?_⟩
  · rw [hc.made]
    dsimp only
    rw [hlog.1, hlog.2.1, hlog.2.2]
  · dsimp only
    rw [map_append, hc.moved, hupd.1, hupd.2, range_snoc htail, map_append, append_assoc]
    refine congrArg (toldOf w.told SMC_UPDATE ++ ·) ?_
    -- the slots that wait are not written over
    have hold : ∀ j ∈ range' w.master.suTail (w.master.suIdx - w.master.suTail), s'.syncupd j = w.master.syncupd j := by
      intro j hj
      rw [mem_range'_1] at hj
      exact hother j (by omega)
    rw [map_congr_left fun j hj => congrArg (fun su : Syncupdent => A.host su.supHdr) (hold j hj), ← hself]
    rfl

/-- **An entry is updated** that takes a slot. -/
theorem Mirror.updateFirst (h : Mirror A w L P) (hc : Complete A w) (hout : fin.finOut = true)
    (ho : w.master.sync t o = some sl) (hidx : (w.master.ent sl).slIdx = none) (hroom : w.master.suIdx < w.master.ipfSyncLogSz)
    (hproto : (w.master.ent sl).slHdr.smP = IPPROTO_TCP) (hnum : t = .nat → A.M.ntohl (w.master.num sl) = w.master.num sl)
    {s' : Softs} (hs' : ∃ k z, s' = { w.master with
      ent := update w.master.ent sl { w.master.ent sl with slIdx := some w.master.suIdx }
      suIdx := w.master.suIdx + 1
      syncupd := update w.master.syncupd w.master.suIdx { w.master.syncupd w.master.suIdx with
        supHdr := (w.master.ent sl).slHdr.update A t fin.finRev
        supSl := some sl
        supTcp := w.master.say A t o (w.master.syncupd w.master.suIdx).supTcp }
      ipfSyncEvents := k
      ipfSyncLastwakeup := z }) :
    Follows A { w with
      master := s'
      moved := w.moved ++ [(w.master.ent sl).slHdr.update A t fin.finRev]
      last := w.master.lastConn t fin o w.last } L P := by
  obtain ⟨b, hb, hptr⟩ := h.master.base.listed t o sl ho
  have hent : ∀ e, (s'.ent e).slHdr = (w.master.ent e).slHdr ∧ (s'.ent e).slPtr = (w.master.ent e).slPtr ∧
      (s'.ent e).slIdx = if e = sl then some w.master.suIdx else (w.master.ent e).slIdx := by
    obtain ⟨k, z, rfl⟩ := hs'
    intro e
    dsimp only
    by_cases he : e = sl
    · rw [he, update_self, if_pos rfl]
      exact ⟨rfl, rfl, rfl⟩
    · rw [update_of_ne he, if_neg he]
      exact ⟨rfl, rfl, rfl⟩
  have hself : s'.syncupd w.master.suIdx = { w.master.syncupd w.master.suIdx with
      supHdr := (w.master.ent sl).slHdr.update A t fin.finRev
      supSl := some sl
      supTcp := w.master.say A t o (w.master.syncupd w.master.suIdx).supTcp } := by
    obtain ⟨k, z, rfl⟩ := hs'
    exact update_self ..
  have hother : ∀ j, j ≠ w.master.suIdx → s'.syncupd j = w.master.syncupd j := by
    obtain ⟨k, z, rfl⟩ := hs'
    exact fun j hj => update_of_ne hj ..
  -- but for the slot, the entry stays as it was
  have hq : Quiet w.master s' := by
    refine ⟨?_, ?_, ?_, ?_, fun e => (hent e).1, fun e => (hent e).2.1, ?_, ?_, ?_⟩ <;> obtain ⟨k, z, rfl⟩ :=
      hs' <;> rfl
  obtain ⟨hlog, hlt, hli, hut, hui⟩ : s'.synclog = w.master.synclog ∧ s'.slTail = w.master.slTail ∧
      s'.slIdx = w.master.slIdx ∧
      s'.suTail = w.master.suTail ∧ s'.suIdx = w.master.suIdx + 1 := by
    obtain ⟨k, z, rfl⟩ := hs'
    exact ⟨rfl, rfl, rfl, rfl, rfl⟩
  clear hs'
  have hstill : Still w.master s' := by
    refine ⟨hq, hlog, fun j => ?_⟩
    unfold Softs.Waits
    rw [hlt, hli]
  have hlast : ∀ o', t = .nat ∨ o' ≠ o → w.master.lastConn t fin o w.last o' = w.last o' := by
    rintro o' (rfl | hoo)
    · rw [lastConn_nat]
    · exact lastConn_other hoo
  have hutail := h.master.slots.tail
  constructor
  · refine h.still hstill (h.master.still hstill ?_ ?_) h.peer Iff.rfl (fun j hj => ?_) (fun o' sl' v hs hi hv => ?_)
      (fun o' v hv => h.lastConn fin hv) h.accepted h.found
    · refine h.master.slots.take hb hidx hroom hut hui hq.size (fun e => (hent e).2.2) fun j => ?_
      by_cases hj : j = w.master.suIdx
      · rw [hj, hself, if_pos rfl]
      · rw [hother j hj, if_neg hj]
    · rw [hlt, hli]
      exact h.master.tail
    · -- the new slot holds what the entry says
      by_cases hji : j = w.master.suIdx
      · subst hji
        refine ⟨t, sl, ⟨b, hb⟩, congrArg Syncupdent.supSl hself, ⟨fin.finRev, ?_⟩, ?_, fun ht => ?_,
          fun ht o' ho' => ?_⟩
        · rw [(hent sl).1]
          exact congrArg Syncupdent.supHdr hself
        · rw [(hent sl).1]
          exact hproto
        · rw [hstill.nums]
          exact hnum ht
        · subst ht
          have ho₂ := (hq.sync .state o').symm.trans ho'
          obtain ⟨b₂, hb₂, hptr₂⟩ := h.master.base.listed .state o' sl ho₂
          obtain rfl := mem_unique hptr hptr₂
          refine (lastConn_self hout ho₂).trans ?_
          have hslot := congrArg (fun su : Syncupdent => (su.supTcp.stuData, su.supTcp.stuState)) hself
          exact congrArg some hslot.symm
      · have hj' : w.master.Moves j := by
          obtain ⟨h1, h2⟩ := hj
          change s'.suTail ≤ j at h1
          change j < s'.suIdx at h2
          rw [hut] at h1
          rw [hui] at h2
          exact ⟨h1, by omega⟩
        obtain ⟨t', e, hm⟩ := h.moves j hj'
        refine ⟨t', e, hm.congr (fun _ => id) (hother j hji) (hent e).1 fun ht o' ho' => ?_⟩
        have ho₂ := (hq.sync .state o').symm.trans ho'
        refine ⟨ho₂, hlast o' ?_⟩
        cases t with
        | nat => exact .inl rfl
        | state =>
          refine .inr (owner_ne ho ho₂ ?_)
          rintro rfl
          have hback := (h.master.slots.back j hj'.1 hj'.2 e hm.owner).2
          exact absurd (hidx.symm.trans hback) nofun
    · change (s'.ent sl').slIdx = none at hi
      rw [(hent sl').2.2] at hi
      -- the entry waits now
      by_cases hsl : sl' = sl
      · rw [if_pos hsl] at hi
        cases hi
      · rw [if_neg hsl] at hi
        refine h.values o' sl' v hs hi ?_
        rw [← hv]
        refine (hlast o' ?_).symm
        cases t with
        | nat => exact .inl rfl
        | state => exact .inr (owner_ne ho hs hsl)
  · exact hc.takeSlot ⟨hlt, hli, hlog⟩ ⟨hut, hui⟩ hutail hother (congrArg Syncupdent.supHdr hself) _

theorem newHdr_sound (hv : fin.finV = 4 ∨ fin.finV = 6) (hsize : A.size t = max A.state.size A.nat.size) (num : Word) :
    Sound A t (newHdr A t fin num) := by
  refine ⟨rfl, hv, rfl, rfl, ?_, hsize⟩
  cases t <;> rfl

theorem newLog_width (hsize : A.size t = max A.state.size A.nat.size) (hdr : Synchdr) {old : List Byte}
    (hold : old.length = max A.state.size A.nat.size) :
    (newLog A s t o hdr old).sleUn.length = max A.state.size A.nat.size := by
  unfold newLog
  dsimp only
  rw [length_append, length_drop]
  cases t with
  | nat =>
    have hput := A.nat.length_put (ipfSyncNatorder A true (s.ipn o).toNatData)
    dsimp only
    rw [hput]
    change A.nat.size = _ at hsize
    omega
  | state =>
    have hput := A.state.length_put (ipfSyncStorder A true (s.ips o).toIpsData)
    dsimp only
    rw [hput]
    change A.state.size = _ at hsize
    omega

/-! ## An entry is made -/

/-- The lists once an entry is made. -/
def Softs.grown (s : Softs) (t : Tab) (sl : ℕ) (L : Tab × ℕ → List ℕ) : Tab × ℕ → List ℕ :=
  update L (t, bucket (s.newNum t)) ([] ++ sl :: L (t, bucket (s.newNum t)))

theorem mem_grown {p : Tab × ℕ} : e ∈ s.grown t sl L p ↔ e ∈ L p ∨ e = sl ∧ p = (t, bucket (s.newNum t)) :=
  mem_added (nil_append _).symm

/-- **What a creation does to the master.** -/
structure Entered (A : Abi) (s s' : Softs) (t : Tab) (fin : FrInfo) (o sl : ℕ) : Prop where
  sync : ∀ t' o', s'.sync t' o' = if t' = t ∧ o' = o then some sl else s.sync t' o'
  lists : ∀ {L}, Lists s.chain heads L → (∀ p, sl ∉ L p) → Lists s'.chain heads (s.grown t sl L)
  ent : ∀ e, e ≠ sl → s'.ent e = s.ent e
  self : s'.ent sl = ⟨none, newHdr A t fin (s.newNum t), some o⟩
  log : s'.synclog s.slIdx = newLog A s t o (newHdr A t fin (s.newNum t)) (s.synclog s.slIdx).sleUn
  logs : ∀ j, j ≠ s.slIdx → s'.synclog j = s.synclog j
  slTail : s'.slTail = s.slTail
  slIdx : s'.slIdx = s.slIdx + 1
  suTail : s'.suTail = s.suTail
  suIdx : s'.suIdx = s.suIdx
  syncupd : s'.syncupd = s.syncupd
  size : s'.ipfSyncLogSz = s.ipfSyncLogSz
  alloc : s'.alloc = sl :: s.alloc
  number : s'.ipfSyncNum = s.newNum t
  wrap : s'.ipfSyncWrap = s.nextWrap

theorem entered (ticks : Word) :
    Entered A s ((ipfSyncWakeup (ipfSyncEnter A s t fin o sl) ticks).setSync t o (some sl)) t fin o sl := by
  obtain ⟨k, z, he⟩ := wakeup_eq (ipfSyncEnter A s t fin o sl) ticks
  have hsync : ∀ t' o', ((ipfSyncWakeup (ipfSyncEnter A s t fin o sl) ticks).setSync t o (some sl)).sync t' o' =
      if t' = t ∧ o' = o then some sl else s.sync t' o' := by
    intro t' o'
    rw [sync_setSync, he]
    rfl
  have hst := setSync_eq (ipfSyncWakeup (ipfSyncEnter A s t fin o sl) ticks) t o (some sl)
  generalize (ipfSyncWakeup (ipfSyncEnter A s t fin o sl) ticks).setSync t o (some sl) = s' at hsync hst ⊢
  rw [he] at hst
  -- the entry goes to the head of its chain, whoever else is on it
  have hlists : ∀ {L}, Lists s.chain heads L → (∀ p, sl ∉ L p) → Lists s'.chain heads (s.grown t sl L) := by
    intro L hl hnot
    rw [hst]
    refine (hl.insert (mem_heads.2 (bucket_lt _)) (nil_append _).symm hnot rfl).congr (fun p _ => ?_) fun p n _ => ?_
    · unfold ipfSyncEnter
      simp [lastLink]
    · unfold ipfSyncEnter
      simp [lastLink]
  have hent : ∀ e, e ≠ sl → s'.ent e = s.ent e := by
    intro e hesl
    rw [hst]
    exact update_of_ne hesl ..
  have hself : s'.ent sl = ⟨none, newHdr A t fin (s.newNum t), some o⟩ := by
    rw [hst]
    exact update_self ..
  have hlog : s'.synclog s.slIdx = newLog A s t o (newHdr A t fin (s.newNum t)) (s.synclog s.slIdx).sleUn := by
    rw [hst]
    exact update_self ..
  have hlogs : ∀ j, j ≠ s.slIdx → s'.synclog j = s.synclog j := by
    intro j hj
    rw [hst]
    exact update_of_ne hj ..
  obtain ⟨h1, h2, h3, h4, h5, h6, h7, h8, h9⟩ : s'.slTail = s.slTail ∧ s'.slIdx = s.slIdx + 1 ∧
      s'.suTail = s.suTail ∧ s'.suIdx = s.suIdx ∧ s'.syncupd = s.syncupd ∧ s'.ipfSyncLogSz = s.ipfSyncLogSz ∧
      s'.alloc = sl :: s.alloc ∧ s'.ipfSyncNum = s.newNum t ∧ s'.ipfSyncWrap = s.nextWrap := by
    rw [hst]
    exact ⟨rfl, rfl, rfl, rfl, rfl, rfl, rfl, rfl, rfl⟩
  exact ⟨hsync, hlists, hent, hself, hlog, hlogs, h1, h2, h3, h4, h5, h6, h7, h8, h9⟩

section Creation

variable {s' : Softs} (hn : Entered A s s' t fin o sl)
include hn

theorem Entered.numOf : s'.num sl = s.newNum t := congrArg (fun y : Synclist => y.slHdr.smNum) hn.self

theorem Entered.nums (he : e ≠ sl) : s'.num e = s.num e := congrArg (fun y : Synclist => y.slHdr.smNum) (hn.ent e he)

theorem Entered.sleHdr : (s'.synclog s.slIdx).sleHdr = logHdr A (s'.ent sl).slHdr := by
  rw [hn.log, hn.self]
  rfl

theorem Entered.waits (hj : s'.Waits j) : s.Waits j ∨ j = s.slIdx := by
  obtain ⟨h1, h2⟩ := hj
  rw [hn.slTail] at h1
  rw [hn.slIdx] at h2
  by_cases hjs : j = s.slIdx
  · exact .inr hjs
  · exact .inl ⟨h1, by omega⟩

theorem Entered.waiting (hj : s.Waits j) : s'.Waits j := by
  obtain ⟨h1, h2⟩ := hj
  refine ⟨?_, ?_⟩
  · rw [hn.slTail]
    exact h1
  · rw [hn.slIdx]
    omega

/-- What waits is not written over. -/
theorem Entered.logged (hj : s.Waits j) : s'.synclog j = s.synclog j := hn.logs j (by
  have := hj.2
  omega)

theorem Entered.slots (h : Slots s L) (hnot : ∀ p, sl ∉ L p) : Slots s' (s.grown t sl L) := by
  have hne : ∀ {p e}, e ∈ L p → e ≠ sl := fun hp hc => hnot _ (hc ▸ hp)
  refine h.enter (fun q x hx => mem_grown.2 (.inl hx)) (fun q x hx => ?_) (fun q x hx => by rw [hn.ent x (hne hx)])
    hn.suTail hn.suIdx hn.size hn.syncupd
  rcases mem_grown.1 hx with hx | ⟨rfl, -⟩
  · exact .inl hx
  · exact .inr (by rw [hn.self])

theorem Entered.base (h : Base s L) (hfresh : sl ∉ s.alloc) (hnone : s.sync t o = none) : Base s' (s.grown t sl L) := by
  have hnot : ∀ p, sl ∉ L p := fun p hp => hfresh (h.alloc p sl hp)
  refine h.enter hfresh hnone (hn.lists h.lists hnot) hn.alloc hn.sync hn.ent (by rw [hn.self]) fun ht => ?_
  rw [hn.self, ht]
  rfl

theorem Entered.numbers (h : Master A s L) (hfresh : sl ∉ s.alloc) (hspare : s.spare t) :
    Numbers s' s'.alloc (s.grown t sl L) := by
  rw [hn.alloc]
  exact h.numbers.enter h.base hspare (fun p hp => hfresh (h.base.alloc p sl hp)) hn.numOf (fun _ => hn.nums) hn.number hn.wrap

/-- The new number is in nobody's record. -/
theorem Entered.other (h : Master A s L) (hfresh : sl ∉ s.alloc) (hnone : s.sync t o = none) (hspare : s.spare t)
    (he : e ∈ L (t, b)) : s.num e ≠ s.newNum t := by
  intro hnum
  have hne : e ≠ sl := fun hc => hfresh (h.base.alloc _ sl (hc ▸ he))
  have hb := hn.base h.base hfresh hnone
  have hin : e ∈ s.grown t sl L (t, b) := mem_grown.2 (.inl he)
  have hsl : sl ∈ s.grown t sl L (t, bucket (s.newNum t)) := mem_grown.2 (.inr ⟨rfl, rfl⟩)
  refine hne ((hn.numbers h hfresh hspare).apart t b _ e hin sl hsl (hb.alloc _ e hin) (hb.alloc _ sl hsl) ?_)
  rw [hn.nums hne, hn.numOf, hnum]

theorem Entered.master (h : Master A s L) (hfresh : sl ∉ s.alloc) (hnone : s.sync t o = none) (hspare : s.spare t)
    (hv : fin.finV = 4 ∨ fin.finV = 6) (hsize : A.size t = max A.state.size A.nat.size)
    (hlogs : ∀ j, s.Waits j → ∃ t b, ∃ e ∈ L (t, b), (s.synclog j).sleHdr = logHdr A (s.ent e).slHdr) :
    Master A s' (s.grown t sl L) := by
  have hnot : ∀ p, sl ∉ L p := fun p hp => hfresh (h.base.alloc p sl hp)
  -- the record just written is told from those that wait by its number
  have hdiff : ∀ j, s.Waits j → (s'.synclog j).sleHdr ≠ (s'.synclog s.slIdx).sleHdr := by
    intro j hj heq
    obtain ⟨t', b, e, hin, hh⟩ := hlogs j hj
    rw [hn.logged hj, hh, hn.sleHdr, hn.self] at heq
    have htab : (logHdr A (s.ent e).slHdr).smTable = (logHdr A (newHdr A t fin (s.newNum t))).smTable :=
      congrArg Synchdr.smTable heq
    have hnum : s.num e = s.newNum t := Masks.htonl_inj (congrArg Synchdr.smNum heq)
    obtain rfl := code_inj ((h.sound t' b e hin).table.symm.trans htab)
    exact hn.other h hfresh hnone hspare hin hnum
  refine ⟨hn.base h.base hfresh hnone, hn.numbers h hfresh hspare, hn.slots h.slots hnot, ?_, fun j => ?_,
    fun t' b e hin => ?_, fun i j hi hj hij => ?_⟩
  · have htail := h.tail
    rw [hn.slTail, hn.slIdx]
    omega
  · by_cases hj : j = s.slIdx
    · rw [hj, hn.log]
      exact newLog_width hsize _ (h.width _)
    · rw [hn.logs j hj]
      exact h.width j
  · rcases mem_grown.1 hin with hin | ⟨rfl, hp⟩
    · rw [hn.ent e fun hc => hnot _ (hc ▸ hin)]
      exact h.sound t' b e hin
    · cases hp
      rw [hn.self]
      exact newHdr_sound hv hsize _
  · rcases hn.waits hi with hi | rfl
    · rcases hn.waits hj with hj | rfl
      · rw [hn.logged hi, hn.logged hj] at hij
        exact h.once i j hi hj hij
      · exact absurd hij (hdiff i hi)
    · rcases hn.waits hj with hj | rfl
      · exact absurd hij.symm (hdiff j hj)
      · rfl

end Creation

variable {s' : Softs}

theorem Mirror.entered (h : Mirror A w L P) (hn : Entered A w.master s' t fin o sl) (hfresh : sl ∉ w.master.alloc)
    (hnone : w.master.sync t o = none) (hspare : w.master.spare t) (hm : Master A s' (w.master.grown t sl L))
    (made : List Synchdr) :
    Mirror A { w with master := s', made := made } (w.master.grown t sl L) P := by
  have hne : ∀ {p e}, e ∈ L p → e ≠ sl := fun hp hc => hfresh (h.master.base.alloc _ sl (hc ▸ hp))
  refine ⟨hm, h.peer, fun j hj => ?_, fun t' b e hin => ?_, fun i hi => ?_, fun o' sl' v hs hi hv => ?_,
    fun t' num e' hcr => ?_, fun o' v hv => ?_, h.accepted, h.found⟩
  · rcases hn.waits hj with hj | rfl
    · obtain ⟨t', b, e, hin, hh, hcr⟩ := h.logs j hj
      refine ⟨t', b, e, mem_grown.2 (.inl hin), ?_, fun e' => ?_⟩
      · dsimp only
        rw [hn.logged hj, hn.ent e (hne hin)]
        exact hh
      · dsimp only
        rw [hn.nums (hne hin)]
        exact hcr e'
    · refine ⟨t, _, sl, mem_grown.2 (.inr ⟨rfl, rfl⟩), hn.sleHdr, fun e' hcr => ?_⟩
      dsimp only at hcr
      rw [hn.numOf] at hcr
      obtain ⟨b, e, hin, hnn⟩ := h.known t _ e' hcr
      exact hn.other h.master hfresh hnone hspare hin hnn
  · rcases mem_grown.1 hin with hin | ⟨rfl, hp⟩
    · rcases h.sent t' b e hin with ⟨j, hj, hh⟩ | ⟨e', hcr⟩
      · refine .inl ⟨j, hn.waiting hj, ?_⟩
        dsimp only
        rw [hn.logged hj, hn.ent e (hne hin)]
        exact hh
      · refine .inr ⟨e', ?_⟩
        dsimp only
        rw [hn.nums (hne hin)]
        exact hcr
    · cases hp
      have htail := h.master.tail
      refine .inl ⟨w.master.slIdx, ⟨?_, ?_⟩, hn.sleHdr⟩
      · dsimp only
        rw [hn.slTail]
        exact htail
      · dsimp only
        rw [hn.slIdx]
        omega
  · obtain ⟨h1, h2⟩ := hi
    dsimp only at h1 h2
    rw [hn.suTail] at h1
    rw [hn.suIdx] at h2
    obtain ⟨t', e, hmv⟩ := h.moves i ⟨h1, h2⟩
    obtain ⟨b, hin⟩ := hmv.listed
    refine ⟨t', e, hmv.congr (fun _ hx => mem_grown.2 (.inl hx)) (by rw [hn.syncupd]) (by rw [hn.ent e (hne hin)])
      fun _ o' ho' => ⟨?_, rfl⟩⟩
    rw [hn.sync] at ho'
    split at ho'
    · exact absurd (some.inj ho').symm (hne hin)
    · exact ho'
  · dsimp only at hs hi
    rw [hn.sync] at hs
    split at hs
    · -- nobody asked about the owner before
      rename_i hto
      obtain ⟨sl₂, hsl₂⟩ := h.lasts o' v hv
      rw [hto.1, hto.2, hnone] at hsl₂
      cases hsl₂
    · obtain ⟨b, hin, -⟩ := h.master.base.listed _ _ _ hs
      rw [hn.ent sl' (hne hin)] at hi
      dsimp only
      rw [hn.nums (hne hin)]
      exact h.values o' sl' v hs hi hv
  · obtain ⟨b, e, hin, hnn⟩ := h.known t' num e' hcr
    exact ⟨b, e, mem_grown.2 (.inl hin), (hn.nums (hne hin)).trans hnn⟩
  · obtain ⟨sl₂, hsl₂⟩ := h.lasts o' v hv
    refine ⟨sl₂, ?_⟩
    dsimp only
    rw [hn.sync, if_neg]
    · exact hsl₂
    · rintro ⟨rfl, rfl⟩
      rw [hnone] at hsl₂
      cases hsl₂

theorem Complete.entered (hc : Complete A w) (hn : Entered A w.master s' t fin o sl)
    (htail : w.master.slTail ≤ w.master.slIdx) :
    Complete A { w with master := s', made := w.made ++ [logHdr A (newHdr A t fin (w.master.newNum t))] } := by
  refine ⟨?_, ?_⟩
  · dsimp only
    rw [map_append, hc.made, hn.slTail, hn.slIdx, range_snoc htail, map_append, append_assoc]
    refine congrArg (toldOf w.told SMC_CREATE ++ ·) ?_
    -- the records that waited are as they were, and the new one comes last
    have hold : ∀ j ∈ range' w.master.slTail (w.master.slIdx - w.master.slTail), s'.synclog j = w.master.synclog j := by
      intro j hj
      rw [mem_range'_1] at hj
      exact hn.logs j (by omega)
    rw [map_congr_left fun j hj => congrArg (fun e : Synclogent => A.host e.sleHdr) (hold j hj), map_singleton,
      map_singleton, hn.log]
    rfl
  · rw [hc.moved]
    dsimp only
    rw [hn.suTail, hn.suIdx, hn.syncupd]

/-- **An entry is made.** -/
theorem Mirror.enter (h : Mirror A w L P) (hc : Complete A w) (hv : fin.finV = 4 ∨ fin.finV = 6)
    (hsize : A.size t = max A.state.size A.nat.size) (hspare : w.master.spare t) (hnone : w.master.sync t o = none)
    (hfresh : sl ∉ w.master.alloc) (ticks : Word) : Follows A { w with
      master := (ipfSyncWakeup (ipfSyncEnter A w.master t fin o sl) ticks).setSync t o (some sl)
      made := w.made ++ [logHdr A (newHdr A t fin (w.master.newNum t))] } (w.master.grown t sl L) P := by
  have hn : Entered A w.master _ t fin o sl := Sync.entered ticks
  have hm := hn.master h.master hfresh hnone hspare hv hsize fun j hj => by
    obtain ⟨t', b, e, hin, hh, -⟩ := h.logs j hj
    exact ⟨t', b, e, hin, hh⟩
  exact ⟨h.entered hn hfresh hnone hspare hm _, hc.entered hn h.master.tail⟩

/-! ## Runs -/

/-- A machine whose tables are empty, in a memory with any content. -/
def Empty (s : Softs) : Prop :=
  ∃ ent log upd ips ipn fr interval, s = init ent log upd ips ipn fr interval ∧ (∀ o, (ips o).isSync = none) ∧
    ∀ o, (ipn o).natSync = none

/-- What callers promise: new memory is not in use, packets are of IPv4 or IPv6, updates are for packets of TCP connections, and
there is memory for what the master has. -/
def Permitted (w : Pair) : Act → Prop
  | .new t fin o _ mem =>
    w.master.sync t o = none ∧ (∀ sl, mem = some sl → sl ∉ w.master.alloc) ∧ (fin.finV = 4 ∨ fin.finV = 6)
  | .update t fin o _ =>
    fin.finP = IPPROTO_TCP ∧ ∀ sl, w.master.sync t o = some sl → (w.master.ent sl).slHdr.smP = IPPROTO_TCP
  | .sync _ _ mem _ => Memory w.peer mem ∧
      w.master.slIdx - w.master.slTail + (w.master.suIdx - w.master.suTail) ≤ mem.length
  | _ => True

/-- **What keeps the two in step:** entries are made only for the table with the larger structure, while a number is left; an
update that takes a slot finds one, and the number of a NAT entry is the same in both byte orders; a read copies out what it
takes, and takes no update before the creation of its entry. -/
def Steady (A : Abi) (w : Pair) : Act → Prop
  | .new t _ _ _ mem => w.master.slIdx ≠ w.master.ipfSyncLogSz → mem ≠ none →
      A.size t = max A.state.size A.nat.size ∧ w.master.spare t
  | .update t fin o _ => ∀ sl, w.master.sync t o = some sl → fin.finOut = true → (w.master.ent sl).slIdx = none →
      w.master.suIdx < w.master.ipfSyncLogSz ∧ (t = .nat → A.M.ntohl (w.master.num sl) = w.master.num sl)
  | .sync resid fault _ _ => fault = none ∧ w.master.Ordered A resid
  | _ => True

/-- **Runs** of the two machines whose steps satisfy `C`. -/
inductive Replay (A : Abi) (C : Pair → Act → Prop) : Pair → Prop where
  | start (s p : Softs) (hs : Empty s) (hp : Empty p) (hw : ∀ i, (s.synclog i).sleUn.length = max A.state.size A.nat.size) :
      Replay A C ⟨s, p, [], [], [], fun _ => none⟩
  | step {w : Pair} (a : Act) (h : Replay A C w) (hl : Permitted w a) (hc : C w a) : Replay A C (act A w a)

/-- **Replication:** every message is accepted, with the header that the master wrote, and none is lost; an update finds the
entry that was made for its number; and when all is read, each state of the peer is that of the last update. -/
structure Replicated (A : Abi) (w : Pair) : Prop where
  accepted : ∀ x ∈ w.told, x.err = 0
  complete : Complete A w
  found : ∀ l₁ x l₂, w.told = l₁ ++ x :: l₂ → x.hdr.smCmd = SMC_UPDATE →
    ∃ t e, x.hdr.smTable = t.code ∧ x.entry = some e ∧ Created l₁ t x.hdr.smNum e
  values : w.master.slTail = w.master.slIdx → w.master.suTail = w.master.suIdx →
    ∀ o sl v, w.master.sync .state o = some sl →
    w.last o = some v → ∃ e', Created w.told .state (w.master.num sl) e' ∧ Holds w.peer e' v

theorem Empty.base (h : Empty s) : Base s fun _ => [] := by
  obtain ⟨ent, log, upd, ips, ipn, fr, interval, rfl, hips, hipn⟩ := h
  refine ⟨Lists.nil fun _ _ => rfl, nofun, nofun, fun t o e he => ?_, nofun⟩
  cases t with
  | nat => exact absurd (he.symm.trans (hipn o)) nofun
  | state => exact absurd (he.symm.trans (hips o)) nofun

theorem mirror_start {s p : Softs} (hs : Empty s) (hp : Empty p)
    (hw : ∀ i, (s.synclog i).sleUn.length = max A.state.size A.nat.size) :
    Follows A ⟨s, p, [], [], [], fun _ => none⟩ (fun _ => []) (fun _ => []) := by
  have hbase := hs.base
  have hcr : ∀ {t num e}, ¬Created [] t num e := by
    rintro t num e ⟨x, hx, -⟩
    cases hx
  obtain ⟨ent, log, upd, ips, ipn, fr, interval, rfl, -, -⟩ := hs
  refine ⟨⟨⟨hbase, ⟨nofun, nofun, nofun, nofun⟩,
    ⟨Nat.le_refl _, Nat.zero_le _, nofun, fun i _ hi => absurd hi (Nat.not_lt_zero i)⟩,
    Nat.le_refl _, hw, nofun, fun j _ hj => absurd hj.2 (Nat.not_lt_zero j)⟩,
      ⟨hp.base, fun _ _ _ hc => absurd hc hcr, nofun,
    fun _ _ _ _ hc => absurd hc hcr⟩, fun j hj => absurd hj.2 (Nat.not_lt_zero j), nofun,
      fun i hi => absurd hi.2 (Nat.not_lt_zero i),
    nofun, fun _ _ _ hc => absurd hc hcr, nofun, nofun, fun l₁ x l₂ hl => ?_⟩, ⟨rfl, rfl⟩⟩
  exact absurd hl (by simp)

/-- **What a step keeps.** -/
theorem Mirror.step (h : Mirror A w L P) (hc : Complete A w) (hA : A.Fits) {a : Act} (hl : Permitted w a) (hs : Steady A w a) :
    ∃ L' P', Follows A (act A w a) L' P' := by
  cases a with
  | new t fin o ticks mem =>
    obtain ⟨hnone, hfresh, hv⟩ := hl
    have hnothing : ipfSyncNew A w.master t fin o ticks mem = (w.master, none, []) →
        ∃ L' P', Follows A (act A w (.new t fin o ticks mem)) L' P' := by
      intro hnew
      have hact : act A w (.new t fin o ticks mem) = w := by
        unfold act
        dsimp only
        rw [hnew]
        dsimp only
        rw [setSync_same hnone, if_pos rfl, append_nil]
      rw [hact]
      exact ⟨L, P, h, hc⟩
    by_cases hlog : w.master.slIdx = w.master.ipfSyncLogSz
    · exact hnothing (if_pos hlog)
    · cases mem with
      | none => exact hnothing (if_neg hlog)
      | some sl =>
        obtain ⟨hsize, hspare⟩ := hs hlog nofun
        have hnew : ipfSyncNew A w.master t fin o ticks (some sl) =
            (ipfSyncWakeup (ipfSyncEnter A w.master t fin o sl) ticks, some sl, [.synclog w.master.slIdx]) := if_neg hlog
        have hrec : ((ipfSyncWakeup (ipfSyncEnter A w.master t fin o sl) ticks).synclog w.master.slIdx).sleHdr =
            logHdr A (newHdr A t fin (w.master.newNum t)) := by
          obtain ⟨k, z, he⟩ := wakeup_eq (ipfSyncEnter A w.master t fin o sl) ticks
          rw [he]
          exact congrArg Synclogent.sleHdr (update_self w.master.slIdx _ w.master.synclog)
        unfold act
        dsimp only
        rw [hnew]
        dsimp only
        rw [if_neg nofun, hrec]
        exact ⟨_, P, h.enter hc hv hsize hspare hnone (hfresh sl rfl) ticks⟩
  | update t fin o ticks =>
    obtain ⟨hp, hproto⟩ := hl
    cases ho : w.master.sync t o with
    | none =>
      have hact : act A w (.update t fin o ticks) = w := by
        unfold act ipfSyncUpdate Softs.newSlot Softs.lastConn
        dsimp only
        rw [ho, append_nil, if_neg fun hn => hn.2.2 rfl]
      rw [hact]
      exact ⟨L, P, h, hc⟩
    | some sl =>
      by_cases hout : fin.finOut = true
      · obtain ⟨b, hb, hptr⟩ := h.master.base.listed t o sl ho
        cases hidx : (w.master.ent sl).slIdx with
        | some i =>
          obtain ⟨k, z, heq⟩ := update_again (A := A) (t := t) hout hp hidx hptr ticks
          unfold act Softs.newSlot
          dsimp only
          rw [ho]
          dsimp only
          rw [heq, hidx, if_neg (fun hn => nomatch hn.2), append_nil]
          exact ⟨L, P, h.updateAgain hc hout ho hidx k z⟩
        | none =>
          obtain ⟨hroom, hnum⟩ := hs sl ho hout hidx
          have heq := update_first (A := A) (t := t) hout hp hidx hptr ticks
          unfold act Softs.newSlot
          dsimp only
          rw [ho]
          dsimp only
          rw [if_pos ⟨hout, hidx⟩]
          exact ⟨L, P, h.updateFirst hc hout ho hidx hroom (hproto sl ho) hnum heq⟩
      · have hact : act A w (.update t fin o ticks) = w := by
          unfold act ipfSyncUpdate Softs.newSlot Softs.lastConn
          dsimp only
          rw [ho]
          dsimp only
          rw [if_pos (by simpa using hout), if_neg fun hn => hout hn.1, append_nil, if_neg fun hn => hout hn.2.1]
        rw [hact]
        exact ⟨L, P, h, hc⟩
  | state o d =>
    refine ⟨L, P, h.owners hc _ w.master.ipn (fun o' => ?_) fun _ => rfl⟩
    by_cases ho : o' = o
    · rw [ho, update_self]
    · rw [update_of_ne ho]
  | nat o d =>
    refine ⟨L, P, h.owners hc w.master.ips _ (fun _ => rfl) fun o' => ?_⟩
    by_cases ho : o' = o
    · rw [ho, update_self]
    · rw [update_of_ne ho]
  | sync resid fault mem buf =>
    obtain ⟨P', hm, hcom⟩ := h.sync hc hA hs.1 hl.1 hl.2 hs.2 buf
    exact ⟨L, P', hm, hcom⟩

theorem Replay.mirror (hA : A.Fits) (h : Replay A (Steady A) w) : ∃ L P, Follows A w L P := by
  induction h with
  | start s p hs hp hw => exact ⟨_, _, mirror_start hs hp hw⟩
  | step a _ hl hc ih =>
    obtain ⟨L, P, hm, hcom⟩ := ih
    exact hm.step hcom hA hl hc

/-- **Sync replication.** In a run whose steps are steady the peer follows the master. -/
theorem replicated (hA : A.Fits) (h : Replay A (Steady A) w) : Replicated A w := by
  obtain ⟨L, P, hm, hcom⟩ := h.mirror hA
  refine ⟨hm.accepted, hcom, hm.found, fun hlog hupd o sl v hs hv => ?_⟩
  have hidx : (w.master.ent sl).slIdx = none := by
    cases hi : (w.master.ent sl).slIdx with
    | none => rfl
    | some i =>
      obtain ⟨b, hb, -⟩ := hm.master.base.listed _ _ _ hs
      obtain ⟨h1, h2, -⟩ := hm.master.slots.slot _ sl hb i hi
      omega
  exact hm.values o sl v hs hidx hv

/-! Two machines on which `ipstate_t` is the larger structure: an entry, its first update, and a read. -/

def larger : Abi := lp64 0 0

theorem larger_fits : larger.Fits := by
  refine ⟨fun t => ?_, by decide⟩
  cases t <;> decide

def blank : Softs :=
  init (fun _ => ⟨none, hdr₀ .nat 0, none⟩) (fun _ => ⟨hdr₀ .nat 0, replicate 144 0⟩)
    (fun _ => ⟨hdr₀ .nat 0, none, ⟨0, (⟨0, 0, 0⟩, ⟨0, 0, 0⟩), (0, 0)⟩⟩) (fun _ => ips₀) (fun _ => ipn₀)
    (fun _ => ⟨0, 0⟩) 0

theorem blank_empty : Empty blank := ⟨_, _, _, _, _, _, _, rfl, fun _ => rfl, fun _ => rfl⟩

def both : Pair := ⟨blank, blank, [], [], [], fun _ => none⟩

theorem both_run (C : Pair → Act → Prop) : Replay larger C both :=
  .start blank blank blank_empty blank_empty fun _ => length_replicate

def made (t : Tab) : Pair := act larger both (.new t fin₀ 7 0 (some 1))

theorem made_run {C : Pair → Act → Prop} (t : Tab) (hC : C both (.new t fin₀ 7 0 (some 1))) :
    Replay larger C (made t) := by
  have hl : Permitted both (.new t fin₀ 7 0 (some 1)) := by
    refine ⟨?_, fun _ _ hin => (not_mem_nil hin).elim, .inl rfl⟩
    cases t <;> rfl
  exact (both_run C).step _ hl hC

def moved (t : Tab) : Pair := act larger (made t) (.update t fin₀ 7 0)

theorem made_sync (t : Tab) : (made t).master.sync t 7 = some 1 := by
  cases t <;> rfl

theorem moved_run {C : Pair → Act → Prop} (t : Tab) (hr : Replay larger C (made t))
    (hC : C (made t) (.update t fin₀ 7 0)) :
    Replay larger C (moved t) := by
  have hl : Permitted (made t) (.update t fin₀ 7 0) := by
    refine ⟨rfl, fun sl hsl => ?_⟩
    rw [made_sync, some.injEq] at hsl
    subst hsl
    cases t <;> rfl
  exact hr.step _ hl hC

def given : List (Option ℕ × Option ℕ) := [(some 3, some 4), (some 5, some 6)]

theorem permits {w : Pair} (hpeer : w.peer = blank)
    (hlen : w.master.slIdx - w.master.slTail + (w.master.suIdx - w.master.suTail) ≤ 2) :
      Permitted w (.sync 1000 none given []) := by
  refine ⟨⟨fun x hx => ?_, by decide, by decide⟩, hlen⟩
  have hnone : ∀ t' o, w.peer.sync t' o = none := by
    intro t' o
    rw [hpeer]
    cases t' <;> rfl
  have halloc : ∀ sl, sl ∉ w.peer.alloc := fun _ => by
    rw [hpeer]
    exact not_mem_nil
  rcases mem_cons.1 hx with rfl | hx
  · exact ⟨3, 4, rfl, fun t' => hnone t' 3, halloc 4⟩
  · rw [mem_singleton.1 hx]
    exact ⟨5, 6, rfl, fun t' => hnone t' 5, halloc 6⟩

theorem replicated_one : Replicated larger (act larger (moved .state) (.sync 1000 none given [])) := by
  have h1 : Replay larger (Steady larger) (made .state) :=
    made_run .state fun _ _ => ⟨rfl, fun hc => absurd hc (by decide), fun hc => absurd rfl hc⟩
  have h2 : Replay larger (Steady larger) (moved .state) := by
    refine moved_run .state h1 fun sl hsl _ _ => ⟨by decide, nofun⟩
  have hord : (moved .state).master.Ordered larger 1000 := by
    intro i j _ hj _ _ hlate
    have hj2 : j < 1 := hj.2
    have hsize : larger.logSize = 176 := rfl
    rw [hsize] at hlate
    omega
  exact replicated larger_fits (h2.step _ (permits rfl (by decide)) ⟨rfl, hord⟩)

/-- **The record of a NAT entry is longer than its message.** The peer takes the rest of it for a header, which it refuses: it
ends with `EINVAL`, and the update behind it is lost. -/
theorem padding_parsed : ¬∀ (A : Abi) (w : Pair), A.Fits → Replay A (fun _ _ => True) w → Replicated A w := by
  intro hall
  have hm : Replay larger (fun _ _ => True) (moved .nat) := moved_run .nat (made_run .nat trivial) trivial
  have hr := hm.step _ (permits rfl (by decide)) trivial
  have hcom := congrArg length (hall larger _ larger_fits hr).complete.moved
  have hmoved : (act larger (moved .nat) (.sync 1000 none given [])).moved = (moved .nat).moved := by
    unfold act
    dsimp only
    split <;> rfl
  have hone : (moved .nat).moved.length = 1 := rfl
  have htold : toldOf (act larger (moved .nat) (.sync 1000 none given [])).told SMC_UPDATE = [] := by
    set_option maxRecDepth 4000 in rfl
  have hwaits : (act larger (moved .nat) (.sync 1000 none given [])).master.suIdx = 0 := by
    set_option maxRecDepth 4000 in rfl
  rw [htold, hwaits, length_map, hmoved, hone] at hcom
  simp at hcom

end Ipfilter.Sync
