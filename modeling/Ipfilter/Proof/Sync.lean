import Ipfilter.Proof.SyncLinks
import Ipfilter.Spec.SyncAbi

/-!
# Sync table links

* `Good`: the chains with their back links, the entries on them, their slots and their numbers.
* `Calm`: what must not happen.
* `Tables`: what is asked of the tables in a state.
* `tables_kept`: a run whose steps are calm keeps them in order.
* `back_link_stale`: an entry that is made in a bucket with an entry breaks them.
-/

namespace Ipfilter.Sync

open Chain List
open Masks (Word Machine)
open Function (update update_of_ne update_self)

variable {A : Abi} {s s' : Softs} {loc : List ℕ} {L L' : Tab × ℕ → List ℕ} {t t' : Tab} {b i o o' e e' sl : ℕ}

/-! ## The invariant -/

structure Good (s : Softs) (loc : List ℕ) (L : Tab × ℕ → List ℕ) : Prop where
  linked : Linked s.chain heads L
  base : Base s L
  slots : Slots s L
  numbers : Numbers s loc L

theorem Good.quiet (h : Good s loc L) (hq : Quiet s s') (hs : Slots s' L) : Good s' loc L where
  linked := by rw [hq.chain]; exact h.linked
  base := h.base.quiet hq
  slots := hs
  numbers := h.numbers.less (fun p e he hl => ⟨he, hl, by unfold Softs.num; rw [hq.hdr]⟩) hq.num hq.wrap

/-- **An entry goes,** with its links. -/
theorem Good.drop (h : Good s loc L) {l₁ l₂ : List ℕ} {m : Mem (Tab × ℕ) ℕ} (hl : L (t, b) = l₁ ++ sl :: l₂)
    (ho : s.sync t o = some sl) (hm : Linked m heads (update L (t, b) (l₁ ++ l₂))) :
    Good (s.drop t o sl m) loc (update L (t, b) (l₁ ++ l₂)) := by
  have hmem := fun {x : ℕ} {g : Tab × ℕ} => h.base.lists.mem_removed (x := x) (g := g) hl
  have hsl : sl ∈ L (t, b) := by
    rw [hl]
    exact mem_append_right _ mem_cons_self
  have hent : ∀ e, (s.drop t o sl m).ent e = s.ent e := by
    intro e
    rw [drop_eq]
  refine ⟨hm, h.base.drop hl ho hm.lists, ?_, ?_⟩
  · have hf : Slots (s.forget sl).1 (update L (t, b) (l₁ ++ l₂)) := h.slots.forget hsl fun q x => hmem
    rw [forget_eq] at hf
    exact hf.congr (by rw [drop_eq]) (by rw [drop_eq]) (by rw [drop_eq]) (fun q x _ => by rw [hent]) fun i => rfl
  · refine h.numbers.less (fun p e he hl => ⟨(hmem.1 he).1, hl, by unfold Softs.num; rw [hent]⟩) ?_ ?_
    · rw [drop_eq]
    · rw [drop_eq]

theorem unlinkEnt_removed {m : Mem (Tab × ℕ) ℕ} {k : Link (Tab × ℕ) ℕ} (hk : m.pnext sl = some k) :
    Removed m (unlinkEnt m sl) sl k := by
  unfold unlinkEnt
  simp only [hk]
  refine ⟨fun hne => ?_, fun x h1 h2 => ?_, fun y hy hyn => ?_, fun x h1 h2 => ?_⟩
  · simp
  · simp [h1]
  · simp [hy]
  · simp [h1]

/-- The place of what an owner points at. -/
theorem Good.place (h : Good s loc L) (ho : s.sync t o = some sl) :
    ∃ b l₁ l₂, L (t, b) = l₁ ++ sl :: l₂ ∧ b < 256 ∧ s.chain.pnext sl = some (lastLink (.head (t, b)) l₁) := by
  obtain ⟨b, hb, -⟩ := h.base.listed t o sl ho
  obtain ⟨l₁, l₂, hl⟩ := append_of_mem hb
  exact ⟨b, l₁, l₂, hl, h.base.lt hb, h.linked.pnext hl⟩

/-- **A deletion** takes exactly its entry. -/
theorem Good.del (h : Good s loc L) (ho : s.sync t o = some sl) : ∃ b l₁ l₂, L (t, b) = l₁ ++ sl :: l₂ ∧
    Good (step A s (.del t o)).1 loc (update L (t, b) (l₁ ++ l₂)) := by
  obtain ⟨b, l₁, l₂, hl, hb, hk⟩ := h.place ho
  refine ⟨b, l₁, l₂, hl, ?_⟩
  have hstep : (step A s (.del t o)).1 = s.drop t o sl (unlinkEnt s.chain sl) := by
    rw [← delTab_eq]
    unfold step
    simp only [ho]
  rw [hstep]
  exact h.drop hl ho (h.linked.remove (mem_heads.2 hb) hl rfl (unlinkEnt_removed hk))

/-- **A flush** empties its table, when the entries of the table say that they are in it. -/
theorem Good.flush (h : Good s loc L) (hname : ∀ o sl, s.sync t o = some sl → (s.ent sl).slHdr.smTable = t.code) :
    Good (ipfSyncFlushTable s t).1 loc fun p => if p.1 = t then [] else L p := by
  have hstart : ∀ b, ∀ e ∈ L (t, b), (s.ent e).slHdr.smTable = t.code := by
    intro b e he
    obtain ⟨o, ho, -⟩ := h.base.owner t b e he
    exact hname o e ho
  refine (flush_rule (Q := fun _ => True)
    (P := fun s L => Good s loc L ∧ ∀ b, ∀ e ∈ L (t, b), (s.ent e).slHdr.smTable = t.code) (fun h => h.1.base)
    (fun {s L i sl rest} hg hl => ⟨?_, fun _ _ => trivial⟩) ⟨h, hstart⟩).1.1
  obtain ⟨hg, hn⟩ := hg
  have hsl : sl ∈ L (t, i) := by
    rw [hl]
    exact mem_cons_self
  obtain ⟨o, ho, hp⟩ := hg.base.owner t i sl hsl
  have hcut : L (t, i) = [] ++ sl :: rest := hl
  rw [flushEntry_eq hp (hn i sl hsl), hg.linked.pnext hcut]
  constructor
  · exact hg.drop hcut ho (hg.linked.remove (mem_heads.2 (hg.base.lt hsl)) hcut rfl (Mem.bypass_removed _))
  · intro b e he
    change ((s.setSync t o none).ent e).slHdr.smTable = _
    rw [setSync_eq s t o none]
    exact hn b e ((hg.base.lists.mem_removed hcut).1 he).1

/-- **A new entry** in a bucket that is empty. -/
theorem Good.new (h : Good s loc L) (fin : FrInfo) (ticks : Word) (hnone : s.sync t o = none) (hfresh : sl ∉ s.alloc)
    (hlog : s.slIdx ≠ s.ipfSyncLogSz) (hempty : s.chain.head (t, bucket (s.newNum t)) = none) (hspare : s.spare t) :
    (ipfSyncNew A s t fin o ticks (some sl)).2.1 = some sl ∧
      Good ((ipfSyncNew A s t fin o ticks (some sl)).1.setSync t o (some sl)) (sl :: loc)
        (update L (t, bucket (s.newNum t)) ([] ++ sl :: L (t, bucket (s.newNum t)))) := by
  have hb := bucket_lt (s.newNum t)
  have hnot : ∀ p, sl ∉ L p := fun p hc => hfresh (h.base.alloc p sl hc)
  have hlink : Linked (ipfSyncEnter A s t fin o sl).chain heads
      (update L (t, bucket (s.newNum t)) ([] ++ sl :: L (t, bucket (s.newNum t)))) := by
    unfold ipfSyncEnter
    refine h.linked.insert (mem_heads.2 hb) (nil_append _).symm hnot rfl ⟨?_, fun _ => ?_, ?_, fun x h1 h2 => ?_, ?_, ?_⟩
    · simp [lastLink]
    · simp [lastLink]
    · simp [lastLink]
    · simp only [lastLink] at h1
      simp [h1, h2]
    · intro y hy
      simp only [lastLink, head_get, hempty] at hy
      cases hy
    · intro x _ hx
      simp [hx]
  have hent : ∀ e, e ≠ sl → (ipfSyncEnter A s t fin o sl).ent e = s.ent e := fun e he => update_of_ne he _ _
  have hself : (ipfSyncEnter A s t fin o sl).ent sl = ⟨none, newHdr A t fin (s.newNum t), some o⟩ := update_self _ _ _
  unfold ipfSyncNew
  rw [if_neg hlog]
  dsimp only
  obtain ⟨n, w, hw⟩ := wakeup_eq (ipfSyncEnter A s t fin o sl) ticks
  rw [hw, setSync_eq]
  refine ⟨rfl, hlink, ?_, ?_, ?_⟩
  · refine h.base.enter hfresh hnone hlink.lists rfl (fun t' o' => ?_) hent (by rw [hself]) fun ht => ?_
    · rw [← setSync_eq, sync_setSync]
      rfl
    · rw [hself, ht]
      rfl
  · refine h.slots.enter (fun q x hx => mem_added (nil_append _).symm |>.2 (.inl hx)) (fun q x hx => ?_) (fun q x hx => ?_)
      rfl rfl rfl rfl
    · rcases (mem_added (nil_append _).symm).1 hx with hx | ⟨rfl, -⟩
      · exact .inl hx
      · exact .inr (by rw [hself])
    · rw [hent x fun hc => hnot q (hc ▸ hx)]
  · refine h.numbers.enter h.base hspare hnot ?_ (fun e he => ?_) rfl rfl
    · change ((ipfSyncEnter A s t fin o sl).ent sl).slHdr.smNum = _
      rw [hself]
      rfl
    · change ((ipfSyncEnter A s t fin o sl).ent e).slHdr.smNum = _
      rw [hent e he]
      rfl

/-- **An entry of the peer** comes in at the front of a bucket. -/
theorem Good.peer (h : Good s loc L) (hb : b < 256) (hnone : s.sync t o = none) (hfresh : sl ∉ s.alloc)
    (hchain : s'.chain = s.chain.link sl (.head (t, b))) (halloc : s'.alloc = sl :: s.alloc)
    (hsync : ∀ t' o', s'.sync t' o' = if t' = t ∧ o' = o then some sl else s.sync t' o') {hdr : Synchdr}
    (hent : s'.ent = update s.ent sl ⟨none, hdr, some o⟩) (hname : t = .state → hdr.smTable = SMC_STATE)
    (hn : s'.ipfSyncNum = s.ipfSyncNum) (hw : s'.ipfSyncWrap = s.ipfSyncWrap) (ht : s'.suTail = s.suTail)
    (hi : s'.suIdx = s.suIdx) (hz : s'.ipfSyncLogSz = s.ipfSyncLogSz) (hu : s'.syncupd = s.syncupd) :
    Good s' (loc.filter (· ≠ sl)) (update L (t, b) ([] ++ sl :: L (t, b))) := by
  have hnot : ∀ p, sl ∉ L p := fun p hc => hfresh (h.base.alloc p sl hc)
  have hold : ∀ e, e ≠ sl → s'.ent e = s.ent e := fun e he => by rw [hent, update_of_ne he]
  have hself : s'.ent sl = ⟨none, hdr, some o⟩ := by rw [hent, update_self]
  have hhead : s.chain.get (.head (t, b)) = (L (t, b)).head? := h.base.lists.get (mem_heads.2 hb) (nil_append _).symm
  have hlink : Linked s'.chain heads (update L (t, b) ([] ++ sl :: L (t, b))) := by
    rw [hchain]
    refine h.linked.insert (mem_heads.2 hb) (nil_append _).symm hnot rfl (Mem.link_inserted _ (by simp) ?_)
    rw [hhead]
    exact fun hc => hnot (t, b) (mem_of_head? hc)
  refine ⟨hlink, ?_, ?_, ?_⟩
  · exact h.base.enter hfresh hnone hlink.lists halloc hsync hold (by rw [hself]) fun hts => by rw [hself]; exact hname hts
  · refine h.slots.enter (fun q x hx => mem_added (nil_append _).symm |>.2 (.inl hx)) (fun q x hx => ?_) (fun q x hx => ?_)
      ht hi hz hu
    · rcases (mem_added (nil_append _).symm).1 hx with hx | ⟨rfl, -⟩
      · exact .inl hx
      · exact .inr (by rw [hself])
    · rw [hold x fun hc => hnot q (hc ▸ hx)]
  · refine h.numbers.less (fun p e he hl => ?_) hn hw
    rw [mem_filter, decide_eq_true_eq] at hl
    rcases (mem_added (nil_append _).symm).1 he with he | ⟨rfl, -⟩
    · exact ⟨he, hl.1, by unfold Softs.num; rw [hold e hl.2]⟩
    · exact absurd rfl hl.2

/-! ## Runs -/

/-- **What must not happen:** a new entry in a bucket with an entry, or without a number left for it; an update without a slot
left; an update that is lost between the buffer and its reader; a reset while an entry has a slot; and a flush of entries that
do not say in which table they are. -/
def Calm (s : Softs) : Op → Prop
  | .new t _ _ _ mem =>
    s.slIdx ≠ s.ipfSyncLogSz → mem ≠ none → s.chain.head (t, bucket (s.newNum t)) = none ∧ s.spare t
  | .update t fin o _ =>
    ∀ sl, s.sync t o = some sl → fin.finOut = true → (s.ent sl).slIdx = none → s.suIdx < s.ipfSyncLogSz
  | .read u => ∀ i, u.fault = some (.upd i) → s.suTail ≤ i → i < s.suIdx → (s.syncupd i).supSl = none
  | .rlog => ∀ i, s.suTail ≤ i → i < s.suIdx → (s.syncupd i).supSl = none
  | .flush t => ∀ o sl, s.sync t o = some sl → (s.ent sl).slHdr.smTable = t.code
  | _ => True

theorem Good.step {op : Op} (h : Good s loc L) (hl : Legal s op) (hc : Calm s op) :
    ∃ L', Good (step A s op).1 (locals A s loc op) L' := by
  cases op with
  | new t fin o ticks mem =>
    obtain ⟨hnone, hfresh⟩ := hl
    have hnothing : ipfSyncNew A s t fin o ticks mem = (s, none, []) →
        ∃ L', Good (Sync.step A s (.new t fin o ticks mem)).1 (locals A s loc (.new t fin o ticks mem)) L' := by
      intro hnew
      have hstate : (Sync.step A s (.new t fin o ticks mem)).1 = s := by
        unfold Sync.step
        dsimp only
        rw [hnew]
        exact setSync_same hnone
      have hloc : locals A s loc (.new t fin o ticks mem) = loc := by
        unfold locals
        dsimp only
        rw [hnew]
      rw [hstate, hloc]
      exact ⟨L, h⟩
    by_cases hlog : s.slIdx = s.ipfSyncLogSz
    · exact hnothing (if_pos hlog)
    · cases mem with
      | none => exact hnothing (if_neg hlog)
      | some sl =>
        -- the bucket is empty, and a number is left
        obtain ⟨hempty, hspare⟩ := hc hlog (by simp)
        obtain ⟨h1, h2⟩ := h.new (A := A) fin ticks hnone (hfresh sl rfl) hlog hempty hspare
        unfold Sync.step locals
        dsimp only
        rw [h1]
        exact ⟨_, h2⟩
  | update t fin o ticks =>
    refine ⟨L, h.quiet (update_quiet fin _ ticks) (h.slots.update fin ticks (fun sl hsl => ?_) fun sl hsl => hc sl hsl)⟩
    obtain ⟨b, hb, -⟩ := h.base.listed t o sl hsl
    exact ⟨(t, b), hb⟩
  | del t o =>
    cases ho : s.sync t o with
    | none =>
      unfold Sync.step
      simp only [ho]
      exact ⟨L, h⟩
    | some sl =>
      obtain ⟨b, l₁, l₂, -, hg⟩ := h.del (A := A) ho
      exact ⟨_, hg⟩
  | peer t sp data mem =>
    obtain ⟨hname, hmem⟩ := hl
    obtain ⟨mo, msl⟩ := mem
    cases mo with
    | none =>
      have hstep : (Sync.step A s (.peer t sp data (none, msl))).1 = s := by cases t <;> rfl
      rw [hstep]
      exact ⟨L, h⟩
    | some o =>
      cases msl with
      | none =>
        have hstep : (Sync.step A s (.peer t sp data (some o, none))).1 = s := by cases t <;> rfl
        rw [hstep]
        exact ⟨L, h⟩
      | some sl =>
        obtain ⟨hnone, hfresh⟩ := hmem o sl rfl
        cases t with
        | nat =>
          refine ⟨_, h.peer (t := .nat) (b := 0) (o := o) (by decide) hnone hfresh rfl rfl ?_ rfl (fun hc => by cases hc)
            rfl rfl rfl rfl rfl rfl⟩
          intro t' o'
          cases t' with
          | nat =>
            change (update s.ipn o _ o').natSync = _
            by_cases ho : o' = o
            · rw [ho, update_self, A.natInsert_sync, if_pos ⟨rfl, rfl⟩]
            · rw [update_of_ne ho, if_neg fun hc => ho hc.2]
              rfl
          | state =>
            rw [if_neg (by simp)]
            rfl
        | state =>
          refine ⟨_, h.peer (t := .state) (b := bucket sp.smNum) (o := o) (bucket_lt _) hnone hfresh rfl rfl ?_ rfl
            (fun _ => hname) rfl rfl rfl rfl rfl rfl⟩
          intro t' o'
          cases t' with
          | nat =>
            rw [if_neg (by simp)]
            rfl
          | state =>
            change (update s.ips o _ o').isSync = _
            by_cases ho : o' = o
            · rw [ho, update_self, if_pos ⟨rfl, rfl⟩]
              exact congrArg Prod.fst (A.stateInsert_kept _ _)
            · rw [update_of_ne ho, if_neg fun hc => ho hc.2]
              rfl
  | read u =>
    obtain ⟨hs, hq⟩ := h.slots.read (A := A) u hc
    exact ⟨L, h.quiet hq hs⟩
  | rlog =>
    exact ⟨L, h.quiet ⟨rfl, rfl, rfl, rfl, fun _ => rfl, fun _ => rfl, rfl, rfl, rfl⟩
      (h.slots.restart hc rfl rfl fun _ => rfl)⟩
  | flush t =>
    have hg := h.flush hc
    unfold Sync.step locals
    dsimp only
    exact ⟨_, hg⟩

/-- **What is asked of the tables.** The chains hold what is listed, every entry knows the link that points to it, and a
deletion takes exactly its entry; the numbers of the entries made here are not 0 and differ; an index is that of an unread slot
of the buffer that knows the entry. -/
def Tables (A : Abi) (s : Softs) (loc : List ℕ) : Prop :=
  ∃ L : Tab × ℕ → List ℕ, Linked s.chain heads L ∧
    (∀ t o sl, s.sync t o = some sl → ∃ b l₁ l₂, L (t, b) = l₁ ++ sl :: l₂ ∧
      Linked (step A s (.del t o)).1.chain heads (update L (t, b) (l₁ ++ l₂))) ∧
    (∀ t b b', ∀ e ∈ L (t, b), ∀ e' ∈ L (t, b'), e ∈ loc → e' ∈ loc →
      s.num e ≠ 0 ∧ (s.num e = s.num e' → e = e')) ∧
    ∀ p, ∀ e ∈ L p, ∀ i, (s.ent e).slIdx = some i →
      s.suTail ≤ i ∧ i < s.suIdx ∧ i < s.ipfSyncLogSz ∧ (s.syncupd i).supSl = some e

theorem Run.good (h : Run A Calm s loc) : ∃ L, Good s loc L := by
  induction h with
  | init ent log upd ips ipn fr interval hips hipn =>
    have hnone : ∀ t o, (Sync.init ent log upd ips ipn fr interval).sync t o = none := by
      intro t o
      cases t
      · exact hipn o
      · exact hips o
    have hlink : Linked (Mem.empty : Mem (Tab × ℕ) ℕ) heads fun _ => [] :=
      .of_seg (fun _ _ => ⟨trivial, rfl⟩) fun _ _ => rfl
    refine ⟨fun _ => [], hlink, ⟨hlink.lists, ?_, ?_, ?_, ?_⟩, ⟨Nat.le_refl _, Nat.zero_le _, ?_, ?_⟩,
      ⟨?_, ?_, ?_, ?_⟩⟩
    · exact fun _ _ he => by cases he
    · exact fun _ _ _ he => by cases he
    · intro t o e he
      rw [hnone] at he
      cases he
    · exact fun _ _ he => by cases he
    · exact fun _ _ he => by cases he
    · exact fun i _ hi => absurd hi (Nat.not_lt_zero i)
    · exact fun _ _ _ he => by cases he
    · exact fun _ _ he => by cases he
    · exact fun _ _ _ he => by cases he
    · exact fun _ _ _ _ he => by cases he
  | step op h hl hc ih =>
    obtain ⟨L, hg⟩ := ih
    exact hg.step hl hc

/-- **Sync table links.** A run whose steps are calm keeps the tables in order. -/
theorem tables_kept (h : Run A Calm s loc) : Tables A s loc := by
  obtain ⟨L, hg⟩ := h.good
  refine ⟨L, hg.linked, ?_, ?_, ?_⟩
  · intro t o sl ho
    obtain ⟨b, l₁, l₂, hl, hd⟩ := hg.del (A := A) ho
    exact ⟨b, l₁, l₂, hl, hd.linked⟩
  · intro t b b' e he e' he' hl hl'
    exact ⟨hg.numbers.pos _ e he hl, hg.numbers.apart t b b' e he e' he' hl hl'⟩
  · intro p e he i hi
    obtain ⟨h1, h2, h3⟩ := hg.slots.slot p e he i hi
    have h4 := hg.slots.size
    exact ⟨h1, h2, by omega, h3⟩

/-! ## Runs -/

section Example

/-- An entry of its own, an update of it, and its end. -/
theorem tables_kept_one : Tables (lp64 400 300)
    (step (lp64 400 300) (step (lp64 400 300) (step (lp64 400 300) start (.new .state fin₀ 7 0 (some 1))).1
      (.update .state fin₀ 7 0)).1 (.del .state 7)).1 [1] := by
  have h1 := (run_start (lp64 400 300) Calm).step (.new .state fin₀ 7 0 (some 1)) ⟨rfl, fun _ _ hc => by cases hc⟩
    fun _ _ => ⟨rfl, by decide, fun hc => absurd rfl hc⟩
  have h2 := h1.step (.update .state fin₀ 7 0) trivial fun _ _ _ _ => by decide
  have h3 := h2.step (.del .state 7) trivial trivial
  exact tables_kept h3

/-- An entry of the peer, and one that is made in the same bucket. -/
def shared : Softs := (step (lp64 400 300) (step (lp64 400 300) start (.peer .state (hdr₀ .state 2) [] (some 7, some 0))).1
  (.new .state fin₀ 8 0 (some 1))).1

/-- **The entry that was first keeps the back link to the bucket,** so that its deletion takes both entries. -/
theorem back_link_stale : ¬∀ s loc, Run (lp64 400 300) (fun _ _ => True) s loc → Tables (lp64 400 300) s loc := by
  intro hall
  have h1 := (run_start (lp64 400 300) fun _ _ => True).step (.peer .state (hdr₀ .state 2) [] (some 7, some 0))
    ⟨rfl, fun o sl hm => by cases hm; exact ⟨rfl, fun hc => by cases hc⟩⟩ trivial
  have h2 := h1.step (.new .state fin₀ 8 0 (some 1)) ⟨rfl, fun sl hm => by cases hm; decide⟩ trivial
  obtain ⟨L, hl, -⟩ := hall _ _ h2
  have hh : (Tab.state, 2) ∈ heads := mem_heads.2 (by decide)
  have hhead : (L (.state, 2)).head? = some 1 := (hl.lists.get hh (nil_append _).symm).symm.trans rfl
  obtain ⟨l, hl1⟩ : ∃ l, L (.state, 2) = [1] ++ l := by
    cases hL : L (.state, 2) with
    | nil => rw [hL] at hhead; cases hhead
    | cons x l =>
      rw [hL] at hhead
      cases hhead
      exact ⟨l, rfl⟩
  have hnext : l.head? = some 0 := (hl.lists.get hh hl1).symm.trans rfl
  obtain ⟨l', hl2⟩ : ∃ l', L (.state, 2) = [1] ++ 0 :: l' := by
    cases l with
    | nil => cases hnext
    | cons x l =>
      cases hnext
      exact ⟨l, hl1⟩
  have hback := hl.pnext hl2
  have hstale : shared.chain.pnext 0 = some (.head (.state, 2)) := rfl
  exact absurd (hback.symm.trans hstale) (by simp [lastLink])

end Example

end Ipfilter.Sync
