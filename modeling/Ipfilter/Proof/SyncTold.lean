import Ipfilter.Proof.Masks
import Ipfilter.Proof.SyncLinks
import Ipfilter.Spec.SyncPeer

/-!
# A peer that takes records

* `Feed`: records are handed on one after the other, each without an error; `Feed.write`: so does `ipf_sync_write`.
* `Peer`: the tables of the peer hold exactly the entries whose creations it was told.
* `Peer.create`, `Peer.update`: what the handlers do.
-/

namespace Ipfilter.Sync

open Chain List
open Masks (Word Machine ntohl_htonl)
open Function (update update_of_ne update_self)

variable {A : Abi} {p p' : Softs} {P : Tab × ℕ → List ℕ} {l l' : List Told} {t t' : Tab} {b n o o' e e' sl : ℕ}
  {num : Word} {mem : List (Option ℕ × Option ℕ)} {sh : Synchdr}

/-! ## Records -/

/-- A record: a header, and what follows it. -/
abbrev Rec := Synchdr × List Byte

def Abi.recBytes (A : Abi) (r : Rec) : List Byte := A.hdr.put r.1 ++ r.2

/-- A record that is as long as its header says, and whose header is accepted. -/
structure Whole (A : Abi) (r : Rec) : Prop where
  sane : (A.host r.1).sane = true
  len : (A.host r.1).smLen.toInt = r.2.length
  pos : r.2 ≠ []

/-- **The records are handed on,** with memory for each, and none ends with an error. -/
inductive Feed (A : Abi) : Softs → List Rec → List (Option ℕ × Option ℕ) → Softs → List Told → Prop
  | nil {p : Softs} : Feed A p [] [] p []
  | cons {p p₁ p₂ : Softs} {r : Rec} {rs : List Rec} {x : Option ℕ × Option ℕ}
      {mem : List (Option ℕ × Option ℕ)} {l : List Told} :
      Whole A r → (∀ junk, ∃ k, writeMessage A p (A.host r.1) (r.2 ++ junk) x = (p₁, 0, k)) →
        Feed A p₁ rs mem p₂ l →
      Feed A p (r :: rs) (x :: mem) p₂ (⟨A.host r.1, p.entry (A.host r.1) x, 0⟩ :: l)

theorem Feed.trans {p₁ p₂ : Softs} {rs rs' : List Rec} {mem' : List (Option ℕ × Option ℕ)} (h : Feed A p rs mem p₁ l)
    (h' : Feed A p₁ rs' mem' p₂ l') : Feed A p (rs ++ rs') (mem ++ mem') p₂ (l ++ l') := by
  induction h with
  | nil => exact h'
  | cons hw hm _ ih => exact .cons hw hm (ih h')

/-- The bytes of a record at the front of a stream. -/
theorem Whole.split {r : Rec} (h : Whole A r) (rest : List Byte) :
    A.recBytes r ++ rest ≠ [] ∧ ¬(A.recBytes r ++ rest).length < A.hdr.size ∧
      A.hdr.get ((A.recBytes r ++ rest).take A.hdr.size) = r.1 ∧ (A.recBytes r ++ rest).drop A.hdr.size = r.2 ++ rest := by
  have hlen := A.hdr.length_put r.1
  have hpos := h.pos
  unfold Abi.recBytes
  refine ⟨?_, ?_, ?_, ?_⟩
  · simp [hpos]
  · rw [append_assoc, length_append, hlen]
    omega
  · rw [append_assoc, ← hlen, take_left, A.hdr.get_put]
  · rw [append_assoc, ← hlen, drop_left]

/-- What the header of a record says about its length. -/
theorem Whole.fits {r : Rec} (h : Whole A r) (rest : List Byte) :
    (A.host r.1).smLen ≠ 0 ∧ A.fits (r.2 ++ rest).length (A.host r.1).smLen = true ∧
    (A.host r.1).smLen.toInt.toNat = r.2.length := by
  have hpos := length_pos_iff.2 h.pos
  refine ⟨fun hc => ?_, ?_, ?_⟩
  · have hlen := h.len
    rw [hc] at hlen
    have hzero : (0 : Word).toInt = 0 := rfl
    omega
  · unfold Abi.fits
    rw [h.len, if_neg (by omega), length_append]
    simp
  · rw [h.len]
    simp

theorem writeLoop_rec {r : Rec} (h : Whole A r) (rest : List Byte) (x : Option ℕ × Option ℕ) (buf : List Byte)
    (err : ℕ) :
    (writeLoop A (n + 1) p (A.recBytes r ++ rest) (x :: mem) buf err).1 =
      (writeLoop A n (writeMessage A p (A.host r.1) (r.2 ++ buf.drop r.2.length) x).1 rest mem (r.2 ++ buf.drop r.2.length)
        (writeMessage A p (A.host r.1) (r.2 ++ buf.drop r.2.length) x).2.1).1 := by
  obtain ⟨h0, h1, h2, h3⟩ := h.split rest
  obtain ⟨h4, h5, h6⟩ := h.fits rest
  rw [writeLoop, if_neg h0, if_neg h1]
  dsimp only
  rw [h2, h3, h.sane, h5, h6, if_neg (by simp), if_neg h4, if_neg (by simp)]
  dsimp only
  rw [take_left, drop_left]
  rfl

theorem toldLoop_rec {r : Rec} (h : Whole A r) (rest : List Byte) (x : Option ℕ × Option ℕ) (buf : List Byte) :
    toldLoop A (n + 1) p (A.recBytes r ++ rest) (x :: mem) buf =
      ⟨A.host r.1, p.entry (A.host r.1) x, (writeMessage A p (A.host r.1) (r.2 ++ buf.drop r.2.length) x).2.1⟩ ::
        toldLoop A n (writeMessage A p (A.host r.1) (r.2 ++ buf.drop r.2.length) x).1 rest mem
          (r.2 ++ buf.drop r.2.length) := by
  obtain ⟨h0, h1, h2, h3⟩ := h.split rest
  obtain ⟨h4, h5, h6⟩ := h.fits rest
  rw [toldLoop, if_neg h0, if_neg h1]
  dsimp only
  rw [h2, h3, h.sane, h5, h6, if_neg (by simp), if_neg h4, if_neg (by simp)]
  rw [take_left, drop_left]
  rfl

/-- **`ipf_sync_write` hands the records on,** by induction over them. -/
theorem Feed.write {rs : List Rec} (h : Feed A p rs mem p' l) (more : List (Option ℕ × Option ℕ)) (buf : List Byte)
    (err : ℕ) (hn : rs.length ≤ n) : (writeLoop A n p (rs.flatMap A.recBytes) (mem ++ more) buf err).1 = p' ∧
      toldLoop A n p (rs.flatMap A.recBytes) (mem ++ more) buf = l := by
  induction h generalizing n buf err with
  | nil => cases n <;> exact ⟨rfl, rfl⟩
  | @cons p p₁ p₂ r rs x mem l hw hm _ ih =>
    obtain ⟨m, rfl⟩ := Nat.exists_eq_add_of_lt (lt_of_lt_of_le (Nat.zero_lt_succ _) hn)
    rw [zero_add]
    rw [length_cons] at hn
    obtain ⟨k, hk⟩ := hm (buf.drop r.2.length)
    rw [flatMap_cons, cons_append, writeLoop_rec hw, toldLoop_rec hw, hk]
    dsimp only
    obtain ⟨h1, h2⟩ := ih (r.2 ++ buf.drop r.2.length) 0 (by omega : _ ≤ m)
    rw [h1, h2]
    exact ⟨rfl, rfl⟩

/-- Each record has a byte. -/
theorem Feed.length_le {rs : List Rec} (h : Feed A p rs mem p' l) : rs.length ≤ (rs.flatMap A.recBytes).length := by
  induction h with
  | nil => exact le_rfl
  | @cons p p₁ p₂ r rs x mem l hw _ _ ih =>
    have hpos := length_pos_iff.2 hw.pos
    rw [flatMap_cons, length_append, length_cons]
    unfold Abi.recBytes at ih ⊢
    rw [length_append]
    omega

/-! ## The tables -/

/-- The peer was told that the entry `e` was made for a number of a table. -/
def Created (l : List Told) (t : Tab) (num : Word) (e : ℕ) : Prop :=
  ∃ x ∈ l, x.hdr.smCmd = SMC_CREATE ∧ x.hdr.smTable = t.code ∧ x.hdr.smNum = num ∧ x.entry = some e

/-- The bucket of a number, and what is kept of it: the handler for NAT entries converts it once more. -/
def spot : Tab → Word → ℕ
  | .state, num => bucket num
  | .nat, _ => 0

def Abi.keptNum (A : Abi) : Tab → Word → Word
  | .state, num => num
  | .nat, num => A.M.ntohl num

/-- **The tables of the peer** hold exactly the entries whose creations it was told. -/
structure Peer (A : Abi) (p : Softs) (P : Tab × ℕ → List ℕ) (l : List Told) : Prop where
  base : Base p P
  entry : ∀ t num e, Created l t num e → e ∈ P (t, spot t num) ∧ p.num e = A.keptNum t num
  only : ∀ t b, ∀ e ∈ P (t, b), ∃ num, Created l t num e
  uniq : ∀ t num e e', Created l t num e → Created l t num e' → e = e'

theorem spot_lt (t : Tab) (num : Word) : spot t num < 256 := by
  cases t
  · exact Nat.zero_lt_succ _
  · exact bucket_lt num

theorem keptNum_inj {x y : Word} (h : A.keptNum t x = A.keptNum t y) : x = y := by
  cases t
  · exact Masks.htonl_inj (M := A.M) h
  · exact h

theorem code_inj (h : t.code = t'.code) : t = t' := by
  cases t <;> cases t' <;> first | rfl | cases h

theorem created_append (x : Told) :
    Created (l ++ [x]) t num e ↔ Created l t num e ∨ x.hdr.smCmd = SMC_CREATE ∧ x.hdr.smTable = t.code ∧
      x.hdr.smNum = num ∧ x.entry = some e := by
  unfold Created
  constructor
  · rintro ⟨y, hy, h⟩
    rcases mem_append.1 hy with hy | hy
    · exact .inl ⟨y, hy, h⟩
    · rw [mem_singleton.1 hy] at h
      exact .inr h
  · rintro (⟨y, hy, h⟩ | h)
    · exact ⟨y, mem_append_left _ hy, h⟩
    · exact ⟨x, mem_append_right _ (mem_singleton_self x), h⟩

/-- An entry is found by its number, where the number is kept as it is. -/
theorem Peer.found (h : Peer A p P l) (hc : Created l t num e) (hk : A.keptNum t num = num) :
    p.search t (spot t num) num = some e := by
  obtain ⟨he, hnum⟩ := h.entry t num e hc
  rw [h.base.search (spot_lt t num)]
  obtain ⟨l₁, l₂, hl⟩ := append_of_mem he
  have hnd := h.base.lists.nodup (t, spot t num)
  rw [hl, nodup_middle, nodup_cons, mem_append, not_or] at hnd
  have hfirst : l₁.find? (fun e => (p.ent e).slHdr.smNum == num) = none := by
    rw [find?_eq_none]
    intro e' he' heq
    have hin : e' ∈ P (t, spot t num) := by
      rw [hl]
      exact mem_append_left _ he'
    obtain ⟨num', hc'⟩ := h.only t _ e' hin
    have hnum' := (h.entry t num' e' hc').2
    have hsame : p.num e' = num := eq_of_beq heq
    have hnn : num' = num := keptNum_inj (hnum'.symm.trans (hsame.trans hk.symm))
    rw [hnn] at hc'
    exact hnd.1.1 (h.uniq t num e' e hc' hc ▸ he')
  have hself : ((p.ent e).slHdr.smNum == num) = true := beq_iff_eq.2 (hnum.trans hk)
  rw [hl, find?_append, hfirst, find?_cons, hself]
  rfl

/-! ## Creations -/

/-- `sizeof(ipstate_t)`, `sizeof(nat_t)` -/
def Abi.size (A : Abi) : Tab → ℕ
  | .state => A.state.size
  | .nat => A.nat.size

/-- Memory for records: it is not in use, and no piece comes twice. -/
structure Memory (p : Softs) (mem : List (Option ℕ × Option ℕ)) : Prop where
  free : ∀ x ∈ mem, ∃ o sl, x = (some o, some sl) ∧ (∀ t, p.sync t o = none) ∧ sl ∉ p.alloc
  owners : (mem.map Prod.fst).Nodup
  entries : (mem.map Prod.snd).Nodup

theorem Memory.tail {x : Option ℕ × Option ℕ} (h : Memory p (x :: mem))
    (hsync : ∀ t o, x.1 ≠ some o → p'.sync t o = p.sync t o)
    (halloc : ∀ sl ∈ p'.alloc, sl ∈ p.alloc ∨ x.2 = some sl) : Memory p' mem := by
  have howners := nodup_cons.1 h.owners
  have hentries := nodup_cons.1 h.entries
  refine ⟨fun y hy => ?_, howners.2, hentries.2⟩
  obtain ⟨o, sl, rfl, hnone, hsl⟩ := h.free y (mem_cons_of_mem x hy)
  refine ⟨o, sl, rfl, fun t => ?_, fun hin => ?_⟩
  · rw [hsync t o fun hc => howners.1 (hc ▸ mem_map_of_mem hy)]
    exact hnone t
  · rcases halloc sl hin with hin | hx
    · exact hsl hin
    · exact hentries.1 (hx ▸ mem_map_of_mem hy)

/-- The state entry of `e` has a connection. -/
def Holds (p : Softs) (e : ℕ) (v : Conn) : Prop :=
  ∃ o, (p.ent e).slPtr = some o ∧ p.sync .state o = some e ∧ ((p.ips o).tsData, (p.ips o).isState) = v

/-- An entry comes into the table of the peer. -/
theorem Peer.enter (h : Peer A p P l) {x : Told} (hc : x.hdr.smCmd = SMC_CREATE) (ht : x.hdr.smTable = t.code)
    (hx : x.entry = some sl) (hnone : p.sync t o = none) (hfresh : sl ∉ p.alloc) (hnew : ∀ e, ¬Created l t x.hdr.smNum e)
    (hchain : p'.chain = p.chain.link sl (.head (t, spot t x.hdr.smNum))) (halloc : p'.alloc = sl :: p.alloc)
    (hsync : ∀ t' o', p'.sync t' o' = if t' = t ∧ o' = o then some sl else p.sync t' o')
    (hent : ∀ e, e ≠ sl → p'.ent e = p.ent e) (hptr : (p'.ent sl).slPtr = some o)
    (hname : t = .state → (p'.ent sl).slHdr.smTable = SMC_STATE) (hnum : p'.num sl = A.keptNum t x.hdr.smNum) :
    Peer A p' (update P (t, spot t x.hdr.smNum) ([] ++ sl :: P (t, spot t x.hdr.smNum))) (l ++ [x]) := by
  have hnot : ∀ q, sl ∉ P q := fun q hq => hfresh (h.base.alloc q sl hq)
  have hb : (t, spot t x.hdr.smNum) ∈ heads := mem_heads.2 (spot_lt t _)
  have hlists : Lists p'.chain heads (update P (t, spot t x.hdr.smNum) ([] ++ sl :: P (t, spot t x.hdr.smNum))) := by
    rw [hchain]
    refine (h.base.lists.insert hb (nil_append _).symm hnot rfl).congr (fun q _ => ?_) fun q m _ => ?_
    · unfold Mem.link
      simp [lastLink]
    · unfold Mem.link
      simp [lastLink]
  have hmem := fun {y : ℕ} {g : Tab × ℕ} => mem_added (n := sl) (x := y) (g := g)
      (nil_append (P (t, spot t x.hdr.smNum))).symm
  have hold : ∀ {t num e}, Created l t num e → e ≠ sl := fun hcr hc => hnot _ (hc ▸ (h.entry _ _ _ hcr).1)
  refine ⟨h.base.enter hfresh hnone hlists halloc hsync hent hptr hname, ?_, ?_, ?_⟩
  · intro t' num e hcr
    rcases (created_append x).1 hcr with hcr | ⟨-, htab, rfl, he⟩
    · obtain ⟨h1, h2⟩ := h.entry t' num e hcr
      refine ⟨hmem.2 (.inl h1), ?_⟩
      rw [← h2]
      unfold Softs.num
      rw [hent e (hold hcr)]
    · obtain rfl := code_inj (ht.symm.trans htab)
      rw [hx, Option.some.injEq] at he
      rw [← he]
      exact ⟨hmem.2 (.inr ⟨rfl, rfl⟩), hnum⟩
  · intro t' b e he
    rcases hmem.1 he with he | ⟨rfl, hp⟩
    · obtain ⟨num, hcr⟩ := h.only t' b e he
      exact ⟨num, (created_append x).2 (.inl hcr)⟩
    · cases hp
      exact ⟨x.hdr.smNum, (created_append x).2 (.inr ⟨hc, ht, rfl, hx⟩)⟩
  · intro t' num e e' hcr hcr'
    rcases (created_append x).1 hcr with hcr | ⟨-, htab, rfl, he⟩
    · rcases (created_append x).1 hcr' with hcr' | ⟨-, htab', rfl, -⟩
      · exact h.uniq t' num e e' hcr hcr'
      · obtain rfl := code_inj (ht.symm.trans htab')
        exact absurd hcr (hnew e)
    · rcases (created_append x).1 hcr' with hcr' | ⟨-, -, -, he'⟩
      · obtain rfl := code_inj (ht.symm.trans htab)
        exact absurd hcr' (hnew e')
      · exact Option.mem_unique he he'

theorem message_state (ht : sh.smTable = SMC_STATE) (data : List Byte) (x : Option ℕ × Option ℕ) :
    writeMessage A p sh data x = ipfSyncState A p sh data x := if_pos ht

theorem message_nat (ht : sh.smTable = SMC_NAT) (data : List Byte) (x : Option ℕ × Option ℕ) :
    writeMessage A p sh data x = ipfSyncNat A p sh data x := by
  have hne : sh.smTable ≠ SMC_STATE := by
    rw [ht]
    decide
  exact (if_neg hne).trans (if_pos ht)

/-- **A creation** that is handed on makes an entry, whatever else is in the buffer. -/
theorem Peer.create (h : Peer A p P l) (hc : sh.smCmd = SMC_CREATE) (ht : sh.smTable = t.code) (hnone : p.sync t o = none)
    (hfresh : sl ∉ p.alloc) (hnew : ∀ e, ¬Created l t sh.smNum e) {data : List Byte} (hlen : A.size t ≤ data.length) :
    ∃ p' P', (∀ junk, ∃ k, writeMessage A p sh (data ++ junk) (some o, some sl) = (p', 0, k)) ∧
      Peer A p' P' (l ++ [⟨sh, some sl, 0⟩]) ∧
        (∀ t' o', p'.sync t' o' = if t' = t ∧ o' = o then some sl else p.sync t' o') ∧
      p'.alloc = sl :: p.alloc ∧ ∀ e v, e ∈ p.alloc → Holds p e v → Holds p' e v := by
  have hne : ∀ e ∈ p.alloc, e ≠ sl := fun e he hc => hfresh (hc ▸ he)
  have hup : ∀ y : Synclist, ∀ e, e ≠ sl → update p.ent sl y e = p.ent e := fun y e he => update_of_ne he ..
  have htake : ∀ junk, (data ++ junk).take (A.size t) = data.take (A.size t) := fun junk => take_append_of_le_length hlen
  -- one case for each table, alike but for the insertion
  cases t with
  | state =>
    have hmsg : ∀ junk, ∃ k, writeMessage A p sh (data ++ junk) (some o, some sl) =
        ((ipfSyncStateCreate A p sh data (some o, some sl)).1, 0, k) := by
      intro junk
      rw [message_state ht]
      unfold ipfSyncState
      rw [if_pos hc]
      unfold ipfSyncStateCreate
      dsimp only
      rw [show (data ++ junk).take A.state.size = data.take A.state.size from htake junk]
      exact ⟨_, rfl⟩
    have hsync : ∀ t' o', (ipfSyncStateCreate A p sh data (some o, some sl)).1.sync t' o' =
        if t' = .state ∧ o' = o then some sl else p.sync t' o' := by
      intro t' o'
      cases t' with
      | nat =>
        rw [if_neg (by simp)]
        rfl
      | state =>
        change (update p.ips o _ o').isSync = _
        by_cases ho : o' = o
        · rw [ho, update_self, if_pos ⟨rfl, rfl⟩]
          exact congrArg Prod.fst (A.stateInsert_kept _ _)
        · rw [update_of_ne ho, if_neg fun hc => ho hc.2]
          rfl
    refine ⟨_, _, hmsg, h.enter (t := .state) (o := o) hc ht rfl hnone hfresh hnew rfl rfl hsync (hup _) ?_
      (fun _ => ?_) ?_, hsync, rfl, ?_⟩
    · exact congrArg Synclist.slPtr (update_self sl _ p.ent)
    · exact (congrArg (fun y : Synclist => y.slHdr.smTable) (update_self sl _ p.ent)).trans ht
    · exact congrArg (fun y : Synclist => y.slHdr.smNum) (update_self sl _ p.ent)
    · rintro e v he ⟨o', hptr, hs, hv⟩
      -- the new entry has an owner of its own
      have ho : o' ≠ o := by
        rintro rfl
        rw [hnone] at hs
        cases hs
      refine ⟨o', ?_, ?_, ?_⟩
      · exact (congrArg Synclist.slPtr (hup _ e (hne e he))).trans hptr
      · rw [hsync, if_neg fun hc => ho hc.2, hs]
      · have hips : (ipfSyncStateCreate A p sh data (some o, some sl)).1.ips o' = p.ips o' := update_of_ne ho ..
        rw [hips]
        exact hv
  | nat =>
    have hmsg : ∀ junk, ∃ k, writeMessage A p sh (data ++ junk) (some o, some sl) =
        ((ipfSyncNatCreate A p sh data (some o, some sl)).1, 0, k) := by
      intro junk
      rw [message_nat ht]
      unfold ipfSyncNat
      rw [if_pos hc]
      unfold ipfSyncNatCreate
      dsimp only
      rw [show (data ++ junk).take A.nat.size = data.take A.nat.size from htake junk]
      exact ⟨_, rfl⟩
    have hsync : ∀ t' o', (ipfSyncNatCreate A p sh data (some o, some sl)).1.sync t' o' =
        if t' = .nat ∧ o' = o then some sl else p.sync t' o' := by
      intro t' o'
      cases t' with
      | nat =>
        change (update p.ipn o _ o').natSync = _
        by_cases ho : o' = o
        · rw [ho, update_self, if_pos ⟨rfl, rfl⟩]
          exact A.natInsert_sync _
        · rw [update_of_ne ho, if_neg fun hc => ho hc.2]
          rfl
      | state =>
        rw [if_neg (by simp)]
        rfl
    refine ⟨_, _, hmsg, h.enter (t := .nat) (o := o) hc ht rfl hnone hfresh hnew rfl rfl hsync (hup _) ?_ nofun ?_, hsync,
      rfl, ?_⟩
    · exact congrArg Synclist.slPtr (update_self sl _ p.ent)
    · exact congrArg (fun y : Synclist => y.slHdr.smNum) (update_self sl _ p.ent)
    · rintro e v he ⟨o', hptr, hs, hv⟩
      refine ⟨o', ?_, ?_, hv⟩
      · exact (congrArg Synclist.slPtr (hup _ e (hne e he))).trans hptr
      · rw [hsync, if_neg (by simp), hs]

/-! ## Updates -/

theorem update_ne_create : (SMC_UPDATE : Byte) ≠ SMC_CREATE := by decide

/-- A message that makes nothing. -/
theorem created_update {x : Told} (hx : x.hdr.smCmd = SMC_UPDATE) : Created (l ++ [x]) t num e ↔ Created l t num e := by
  rw [created_append]
  refine or_iff_left fun hc => ?_
  rw [hx] at hc
  exact update_ne_create hc.1

theorem Peer.same (h : Peer A p P l) {x : Told} (hx : x.hdr.smCmd = SMC_UPDATE) (hb : Base p' P) (hent : p'.ent = p.ent) :
    Peer A p' P (l ++ [x]) where
  base := hb
  entry t num e hc := by
    obtain ⟨h1, h2⟩ := h.entry t num e ((created_update hx).1 hc)
    refine ⟨h1, ?_⟩
    rw [← h2]
    unfold Softs.num
    rw [hent]
  only t b e he := by
    obtain ⟨num, hc⟩ := h.only t b e he
    exact ⟨num, (created_update hx).2 hc⟩
  uniq t num e e' hc hc' := h.uniq t num e e' ((created_update hx).1 hc) ((created_update hx).1 hc')

/-- What the owners of entries keep keeps the tables. -/
theorem Base.owners {s s' : Softs} {L : Tab × ℕ → List ℕ} (h : Base s L) (hchain : s'.chain = s.chain)
    (halloc : s'.alloc = s.alloc) (hent : s'.ent = s.ent) (hsync : ∀ t o, s'.sync t o = s.sync t o) : Base s' L where
  lists := by rw [hchain]; exact h.lists
  alloc := by rw [halloc]; exact h.alloc
  owner t b e he := by
    obtain ⟨o, h1, h2⟩ := h.owner t b e he
    exact ⟨o, by rw [hsync]; exact h1, by rw [hent]; exact h2⟩
  listed t o e he := by
    rw [hsync] at he
    obtain ⟨b, h1, h2⟩ := h.listed t o e he
    exact ⟨b, h1, by rw [hent]; exact h2⟩
  named := by rw [hent]; exact h.named

/-- **An update of a state** that is handed on finds the entry, and its connection is that of the message. -/
theorem Peer.updateState (h : Peer A p P l) (hc : sh.smCmd = SMC_UPDATE) (ht : sh.smTable = SMC_STATE)
    (hcr : Created l .state sh.smNum e) (hp : sh.smP = IPPROTO_TCP) (su : SynctcpUpdate) (x : Option ℕ × Option ℕ) :
    ∃ p', (∀ junk, ∃ k, writeMessage A p sh (A.tcp.put su ++ junk) x = (p', 0, k)) ∧ p.entry sh x = some e ∧
      Peer A p' P (l ++ [⟨sh, some e, 0⟩]) ∧ (∀ t o, p'.sync t o = p.sync t o) ∧ p'.alloc = p.alloc ∧
      Holds p' e (su.stuData, su.stuState) ∧ ∀ e' v, e' ≠ e → Holds p e' v → Holds p' e' v := by
  have hfound : p.search .state (bucket sh.smNum) sh.smNum = some e := h.found (t := .state) hcr rfl
  obtain ⟨hin, -⟩ := h.entry _ _ _ hcr
  obtain ⟨o, hs, hptr⟩ := h.base.owner _ _ e hin
  have hget : ∀ junk, A.tcp.get ((A.tcp.put su ++ junk).take A.tcp.size) = su := by
    intro junk
    rw [← A.tcp.length_put su, take_left, A.tcp.get_put]
  have hmsg : ∀ junk, ∃ k, writeMessage A p sh (A.tcp.put su ++ junk) x =
      (p.updIps o fun ips => A.stateSetqueue (ips.take su sh.smP) sh.smRev, 0, k) := by
    intro junk
    rw [message_state ht]
    unfold ipfSyncState
    rw [if_neg (by rw [hc]; exact update_ne_create), if_pos hc]
    unfold ipfSyncStateUpdate
    rw [hfound]
    dsimp only
    rw [hptr]
    dsimp only
    rw [hget]
    exact ⟨_, rfl⟩
  have hkept := A.stateSetqueue_kept ((p.ips o).take su sh.smP) sh.smRev
  have hsync : ∀ t o', (p.updIps o fun ips => A.stateSetqueue (ips.take su sh.smP) sh.smRev).sync t o' = p.sync t o' := by
    intro t o'
    cases t with
    | nat => rfl
    | state =>
      change (update p.ips o _ o').isSync = (p.ips o').isSync
      by_cases ho : o' = o
      · rw [ho, update_self]
        refine (congrArg Prod.fst hkept).trans ?_
        unfold Ipstate.kept Ipstate.take
        rw [if_pos hp]
      · rw [update_of_ne ho]
  refine ⟨_, hmsg, ?_, h.same hc (h.base.owners rfl rfl rfl hsync) rfl, hsync, rfl,
    ⟨o, hptr, (hsync .state o).trans hs, ?_⟩, ?_⟩
  · unfold Softs.entry
    rw [if_neg (by rw [hc]; exact update_ne_create), if_pos ht]
    exact hfound
  · change ((update p.ips o _ o).tsData, (update p.ips o _ o).isState) = _
    rw [update_self]
    refine (congrArg Prod.snd hkept).trans ?_
    unfold Ipstate.kept Ipstate.take
    rw [if_pos hp]
  · rintro e' v hne ⟨o', hptr', hs', hv⟩
    have ho : o' ≠ o := by
      rintro rfl
      exact hne (Option.mem_unique hs' hs)
    refine ⟨o', hptr', (hsync .state o').trans hs', ?_⟩
    have hips : (p.updIps o fun ips => A.stateSetqueue (ips.take su sh.smP) sh.smRev).ips o' = p.ips o' := update_of_ne ho ..
    rw [hips]
    exact hv

/-- **An update of a NAT entry** that is handed on finds the entry, when the number is the same in both byte orders. -/
theorem Peer.updateNat (h : Peer A p P l) (hc : sh.smCmd = SMC_UPDATE) (ht : sh.smTable = SMC_NAT)
    (hcr : Created l .nat sh.smNum e) (hn : A.M.ntohl sh.smNum = sh.smNum) (data : List Byte) (x : Option ℕ × Option ℕ) :
    ∃ p', (∀ junk, ∃ k, writeMessage A p sh (data ++ junk) x = (p', 0, k)) ∧ p.entry sh x = some e ∧
      Peer A p' P (l ++ [⟨sh, some e, 0⟩]) ∧ (∀ t o, p'.sync t o = p.sync t o) ∧ p'.alloc = p.alloc ∧
      ∀ e' v, Holds p e' v → Holds p' e' v := by
  have hfound : p.search .nat 0 sh.smNum = some e := h.found (t := .nat) hcr hn
  obtain ⟨hin, -⟩ := h.entry _ _ _ hcr
  obtain ⟨o, hs, hptr⟩ := h.base.owner _ _ e hin
  have hmsg : ∀ junk, ∃ k, writeMessage A p sh (data ++ junk) x =
      (p.updIpn o fun n => A.natSetqueue { n with natRev := (p.ent e).slHdr.smRev }, 0, k) := by
    intro junk
    rw [message_nat ht]
    unfold ipfSyncNat
    rw [if_neg (by rw [hc]; exact update_ne_create), if_pos hc]
    unfold ipfSyncNatUpdate
    rw [hfound]
    dsimp only
    rw [hptr]
    exact ⟨_, rfl⟩
  have hsync : ∀ t o', (p.updIpn o fun n => A.natSetqueue { n with natRev := (p.ent e).slHdr.smRev }).sync t o' =
      p.sync t o' := by
    intro t o'
    cases t with
    | nat =>
      change (update p.ipn o _ o').natSync = (p.ipn o').natSync
      by_cases ho : o' = o
      · rw [ho, update_self]
        exact A.natSetqueue_sync _
      · rw [update_of_ne ho]
    | state => rfl
  refine ⟨_, hmsg, ?_, h.same hc (h.base.owners rfl rfl rfl hsync) rfl, hsync, rfl, ?_⟩
  · unfold Softs.entry
    rw [if_neg (by rw [hc]; exact update_ne_create), if_neg (by rw [ht]; decide)]
    exact hfound
  · rintro e' v ⟨o', hptr', hs', hv⟩
    exact ⟨o', hptr', (hsync .state o').trans hs', hv⟩

end Ipfilter.Sync
