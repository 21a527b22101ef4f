import Ipfilter.Proof.SyncLinks
import Ipfilter.Spec.SyncAbi

/-!
# Sync buffers

* `Within`: the four indices of the log and of the buffer of updates, and the indices that entries remember.
* `within_step`: an operation keeps them, and touches only slots that exist, unless it takes a slot when none is left.
* `Framed`: the messages of a stream fit into the message buffer, and are as long as their handlers believe.
* `write_framed`: only then a stream is written without an access out of bounds.
* `buffers_bounded`: both.
-/

namespace Ipfilter.Sync

open Chain
open Masks (Word Machine)

variable {A : Abi} {s s' : Softs} {L L' : Tab × ℕ → List ℕ} {t t' : Tab} {b i o o' e e' sl : ℕ}

/-! ## Places that exist -/

/-- The place exists: slots of `n`, and bytes of the message buffer and of the message. -/
def Touch.within (n : ℕ) : Touch → Prop
  | .synclog i => i < n
  | .syncupd i => i < n
  | .data m => m ≤ DATA_SIZE
  | .message m len => (m : ℤ) ≤ len

/-- **The indices** of the two buffers, and those that entries remember. -/
structure Within (s : Softs) (L : Tab × ℕ → List ℕ) : Prop where
  slTail : s.slTail ≤ s.slIdx
  slIdx : s.slIdx ≤ s.ipfSyncLogSz
  suTail : s.suTail ≤ s.suIdx
  suIdx : s.suIdx ≤ s.ipfSyncLogSz
  idx : ∀ p, ∀ e ∈ L p, ∀ i, (s.ent e).slIdx = some i → i < s.ipfSyncLogSz

/-- Entries that were made here, in their tables. -/
structure Own (s : Softs) (L : Tab × ℕ → List ℕ) : Prop where
  base : Base s L
  named : ∀ t b, ∀ e ∈ L (t, b), (s.ent e).slHdr.smTable = t.code
  within : Within s L

/-- Reading the log stays below its index. -/
theorem readLog_within : ∀ (n : ℕ) (s : Softs) (u : Uio), s.slTail ≤ s.slIdx →
    ∃ k, (readLog A n s u).1 = { s with slTail := k } ∧ k ≤ s.slIdx ∧
      ∀ τ ∈ (readLog A n s u).2.2, ∃ i < s.slIdx, τ = .synclog i
  | 0, s, u, h => ⟨s.slTail, rfl, h, fun τ hτ => by cases hτ⟩
  | n + 1, s, u, h => by
    unfold readLog Uio.move
    by_cases hlt : s.slTail < s.slIdx ∧ A.logSize < u.resid
    · rw [if_pos hlt]
      by_cases hf : u.fault = some (.log s.slTail)
      · rw [if_pos hf]
        refine ⟨s.slTail + 1, rfl, hlt.1, fun τ hτ => ⟨s.slTail, hlt.1, ?_⟩⟩
        exact List.mem_singleton.1 hτ
      · rw [if_neg hf]
        obtain ⟨k, h1, h2, h3⟩ := readLog_within n { s with slTail := s.slTail + 1 }
          { u with
            resid := u.resid - (A.logBytes (s.synclog s.slTail)).length
            out := u.out ++ A.logBytes (s.synclog s.slTail) } hlt.1
        refine ⟨k, h1, h2, fun τ hτ => ?_⟩
        rcases List.mem_cons.1 hτ with rfl | hτ
        · exact ⟨s.slTail, hlt.1, rfl⟩
        · exact h3 τ hτ
    · rw [if_neg hlt]
      exact ⟨s.slTail, rfl, h, fun τ hτ => by cases hτ⟩

/-- What reading updates changes: entries forget their slots, and the tail moves on. -/
structure Untied (s s' : Softs) : Prop where
  quiet : Quiet s s'
  idx : ∀ e, (s'.ent e).slIdx = (s.ent e).slIdx ∨ (s'.ent e).slIdx = none
  suIdx : s'.suIdx = s.suIdx
  suTail : s'.suTail ≤ s.suIdx
  slIdx : s'.slIdx = s.slIdx
  slTail : s'.slTail = s.slTail

theorem untie_untied (su : Syncupdent) (hlt : s.suTail < s.suIdx) : Untied s ({ s with suTail := s.suTail + 1 }.untie su) := by
  unfold Softs.untie
  cases su.supSl with
  | none =>
    exact ⟨⟨rfl, rfl, rfl, rfl, fun _ => rfl, fun _ => rfl, rfl, rfl, rfl⟩, fun _ => .inl rfl, rfl, hlt, rfl, rfl⟩
  | some sl =>
    have hent : ∀ e, (Function.update s.ent sl { s.ent sl with slIdx := none } e).slHdr = (s.ent e).slHdr ∧
        (Function.update s.ent sl { s.ent sl with slIdx := none } e).slPtr = (s.ent e).slPtr ∧
        ((Function.update s.ent sl { s.ent sl with slIdx := none } e).slIdx = (s.ent e).slIdx ∨
          (Function.update s.ent sl { s.ent sl with slIdx := none } e).slIdx = none) := by
      intro e
      by_cases he : e = sl
      · rw [he, Function.update_self]
        exact ⟨rfl, rfl, .inr rfl⟩
      · rw [Function.update_of_ne he]
        exact ⟨rfl, rfl, .inl rfl⟩
    exact ⟨⟨rfl, rfl, rfl, rfl, fun e => (hent e).1, fun e => (hent e).2.1, rfl, rfl, rfl⟩, fun e => (hent e).2.2, rfl,
      hlt, rfl, rfl⟩

theorem Untied.trans {s₁ s₂ s₃ : Softs} (h : Untied s₁ s₂) (h' : Untied s₂ s₃) : Untied s₁ s₃ where
  quiet := h.quiet.trans h'.quiet
  idx e := by
    rcases h'.idx e with h1 | h1
    · rw [h1]
      exact h.idx e
    · exact .inr h1
  suIdx := h'.suIdx.trans h.suIdx
  suTail := h.suIdx ▸ h'.suTail
  slIdx := h'.slIdx.trans h.slIdx
  slTail := h'.slTail.trans h.slTail

/-- Reading updates stays below their index. -/
theorem readUpd_within : ∀ (n : ℕ) (s : Softs) (u : Uio), s.suTail ≤ s.suIdx →
    Untied s (readUpd A n s u).1 ∧ ∀ τ ∈ (readUpd A n s u).2.2, ∃ i < s.suIdx, τ = .syncupd i
  | 0, s, u, h => ⟨⟨.refl s, fun _ => .inl rfl, rfl, h, rfl, rfl⟩, fun τ hτ => by cases hτ⟩
  | n + 1, s, u, h => by
    unfold readUpd Uio.move
    by_cases hlt : s.suTail < s.suIdx ∧ A.updSize < u.resid
    · rw [if_pos hlt]
      dsimp only
      by_cases hf : u.fault = some (.upd s.suTail)
      · rw [if_pos hf]
        refine ⟨⟨⟨rfl, rfl, rfl, rfl, fun _ => rfl, fun _ => rfl, rfl, rfl, rfl⟩, fun _ => .inl rfl, rfl, hlt.1, rfl,
          rfl⟩, fun τ hτ => ⟨s.suTail, hlt.1, List.mem_singleton.1 hτ⟩⟩
      · rw [if_neg hf]
        have hu := untie_untied (s.syncupd s.suTail) hlt.1
        have hle : ({ s with suTail := s.suTail + 1 }.untie (s.syncupd s.suTail)).suTail ≤
            ({ s with suTail := s.suTail + 1 }.untie (s.syncupd s.suTail)).suIdx := by
          rw [hu.suIdx]
          exact hu.suTail
        obtain ⟨h1, h2⟩ := readUpd_within n ({ s with suTail := s.suTail + 1 }.untie (s.syncupd s.suTail))
          { u with
            resid := u.resid - (A.updBytes (s.syncupd s.suTail)).length
            out := u.out ++ A.updBytes (s.syncupd s.suTail) } hle
        refine ⟨hu.trans h1, fun τ hτ => ?_⟩
        rcases List.mem_cons.1 hτ with rfl | hτ
        · exact ⟨s.suTail, hlt.1, rfl⟩
        · rw [hu.suIdx] at h2
          exact h2 τ hτ
    · rw [if_neg hlt]
      exact ⟨⟨.refl s, fun _ => .inl rfl, rfl, h, rfl, rfl⟩, fun τ hτ => by cases hτ⟩

theorem Own.quiet (h : Own s L) (hq : Quiet s s') (hw : Within s' L) : Own s' L where
  base := h.base.quiet hq
  named t b e he := by
    rw [hq.hdr]
    exact h.named t b e he
  within := hw

theorem Within.rewind (h : Within s L) : Within s.rewind L ∧ Quiet s s.rewind :=
  rewind_rule (P := fun s₁ => Within s₁ L ∧ Quiet s s₁) ⟨h, .refl s⟩
    (fun _ => ⟨⟨Nat.le_refl _, Nat.zero_le _, h.suTail, h.suIdx, h.idx⟩, rfl, rfl, rfl, rfl, fun _ => rfl, fun _ => rfl,
      rfl, rfl, rfl⟩)
    fun _ ⟨hs, hq⟩ _ => ⟨⟨hs.slTail, hs.slIdx, Nat.le_refl _, Nat.zero_le _, hs.idx⟩,
      hq.chain, hq.alloc, hq.ips, hq.ipn, hq.hdr, hq.ptr, hq.num, hq.wrap, hq.size⟩

/-- **A read** touches slots that exist. -/
theorem Own.read (h : Own s L) (u : Uio) :
    Own (ipfSyncRead A s u).1 L ∧ ∀ τ ∈ (ipfSyncRead A s u).2.2, τ.within s.ipfSyncLogSz := by
  have hw := h.within
  unfold ipfSyncRead
  split
  · exact ⟨h, fun τ hτ => by cases hτ⟩
  · split
    · exact ⟨h, fun τ hτ => by cases hτ⟩
    · obtain ⟨k, hk, hle, htouch⟩ := readLog_within (A := A) (s.slIdx - s.slTail) s u hw.slTail
      have hlog : Within (readLog A (s.slIdx - s.slTail) s u).1 L := by
        rw [hk]
        exact ⟨hle, hw.slIdx, hw.suTail, hw.suIdx, hw.idx⟩
      have hq : Quiet s (readLog A (s.slIdx - s.slTail) s u).1 := by
        rw [hk]
        exact ⟨rfl, rfl, rfl, rfl, fun _ => rfl, fun _ => rfl, rfl, rfl, rfl⟩
      have hin : ∀ τ ∈ (readLog A (s.slIdx - s.slTail) s u).2.2, τ.within s.ipfSyncLogSz := by
        intro τ hτ
        obtain ⟨i, hi, rfl⟩ := htouch τ hτ
        exact lt_of_lt_of_le hi hw.slIdx
      dsimp only
      cases (readLog A (s.slIdx - s.slTail) s u).2.1 with
      | none => exact ⟨h.quiet hq hlog, hin⟩
      | some v =>
        obtain ⟨hu, htouch'⟩ :=
          readUpd_within (A := A) (s.suIdx - s.suTail) (readLog A (s.slIdx - s.slTail) s u).1 v hlog.suTail
        have hsame : (readLog A (s.slIdx - s.slTail) s u).1.suIdx = s.suIdx := by rw [hk]
        have hin' : ∀ τ ∈ (readUpd A (s.suIdx - s.suTail) (readLog A (s.slIdx - s.slTail) s u).1 v).2.2,
            τ.within s.ipfSyncLogSz := by
          intro τ hτ
          obtain ⟨i, hi, rfl⟩ := htouch' τ hτ
          rw [hsame] at hi
          exact lt_of_lt_of_le hi hw.suIdx
        have hupd : Within (readUpd A (s.suIdx - s.suTail) (readLog A (s.slIdx - s.slTail) s u).1 v).1 L := by
          refine ⟨?_, ?_, ?_, ?_, fun p e he i hi => ?_⟩
          · rw [hu.slTail, hu.slIdx]
            exact hlog.slTail
          · rw [hu.slIdx, hu.quiet.size]
            exact hlog.slIdx
          · rw [hu.suIdx]
            exact hu.suTail
          · rw [hu.suIdx, hu.quiet.size]
            exact hlog.suIdx
          · rw [hu.quiet.size]
            rcases hu.idx e with hx | hx
            · rw [hx] at hi
              exact hlog.idx p e he i hi
            · rw [hx] at hi
              cases hi
        have hboth : ∀ τ ∈ (readLog A (s.slIdx - s.slTail) s u).2.2 ++
            (readUpd A (s.suIdx - s.suTail) (readLog A (s.slIdx - s.slTail) s u).1 v).2.2, τ.within s.ipfSyncLogSz := by
          intro τ hτ
          rcases List.mem_append.1 hτ with hτ | hτ
          · exact hin τ hτ
          · exact hin' τ hτ
        dsimp only
        split
        · exact ⟨h.quiet (hq.trans hu.quiet) hupd, hboth⟩
        · obtain ⟨h1, h2⟩ := hupd.rewind
          exact ⟨h.quiet ((hq.trans hu.quiet).trans h2) h1, hboth⟩

/-- An update takes a slot only when one is left. -/
def Room (s : Softs) : Op → Prop
  | .update t fin o _ =>
    ∀ sl, s.sync t o = some sl → fin.finOut = true → (s.ent sl).slIdx = none → s.suIdx < s.ipfSyncLogSz
  | _ => True

/-- **An update** touches a slot that exists. -/
theorem Own.update (h : Own s L) (fin : FrInfo) (ticks : Word) (hroom : Room s (.update t fin o ticks)) :
    Own (ipfSyncUpdate A s t fin (s.sync t o) ticks).1 L ∧
      ∀ τ ∈ (ipfSyncUpdate A s t fin (s.sync t o) ticks).2, τ.within s.ipfSyncLogSz := by
  have hw := h.within
  have hq := update_quiet (A := A) (s := s) (t := t) fin (s.sync t o) ticks
  suffices hs : Within (ipfSyncUpdate A s t fin (s.sync t o) ticks).1 L ∧
      ∀ τ ∈ (ipfSyncUpdate A s t fin (s.sync t o) ticks).2, τ.within s.ipfSyncLogSz from ⟨h.quiet hq hs.1, hs.2⟩
  clear hq
  unfold Room at hroom
  cases ho : s.sync t o with
  | none => exact ⟨hw, fun τ hτ => by cases hτ⟩
  | some sl =>
    obtain ⟨b, hb, -⟩ := h.base.listed t o sl ho
    replace hroom := hroom sl ho
    unfold ipfSyncUpdate
    dsimp only
    by_cases hout : fin.finOut = false
    · rw [if_pos hout]
      exact ⟨hw, fun τ hτ => by cases hτ⟩
    · rw [if_neg hout]
      obtain ⟨n, w, he⟩ := wakeup_eq (if fin.finP = IPPROTO_TCP then _ else _) ticks
      rw [he]
      cases hidx : (s.ent sl).slIdx with
      | some i =>
        have hi := hw.idx _ sl hb i hidx
        dsimp only [Option.getD_some]
        refine ⟨?_, fun τ hτ => by rw [List.mem_singleton.1 hτ]; exact hi⟩
        split
        · exact ⟨hw.slTail, hw.slIdx, hw.suTail, hw.suIdx, hw.idx⟩
        · exact ⟨hw.slTail, hw.slIdx, hw.suTail, hw.suIdx, hw.idx⟩
      | none =>
        have hlt := hroom (by simpa using hout) hidx
        have hent : ∀ p, ∀ e ∈ L p, ∀ i, (Function.update s.ent sl { s.ent sl with slIdx := some s.suIdx } e).slIdx =
            some i →
            i < s.ipfSyncLogSz := by
          intro p e hp i hi
          by_cases hsl : e = sl
          · rw [hsl, Function.update_self] at hi
            cases hi
            exact hlt
          · rw [Function.update_of_ne hsl] at hi
            exact hw.idx p e hp i hi
        dsimp only [Option.getD_none]
        refine ⟨?_, fun τ hτ => by rw [List.mem_singleton.1 hτ]; exact hlt⟩
        split
        · exact ⟨hw.slTail, hw.slIdx, Nat.le_succ_of_le hw.suTail, hlt, hent⟩
        · exact ⟨hw.slTail, hw.slIdx, Nat.le_succ_of_le hw.suTail, hlt, hent⟩

/-- **A new entry** takes a slot of the log that exists. -/
theorem Own.new (h : Own s L) (fin : FrInfo) (ticks : Word) (mem : Option ℕ) (hl : s.sync t o = none)
    (hfresh : ∀ sl, mem = some sl → sl ∉ s.alloc) : (∃ L', Own (step A s (.new t fin o ticks mem)).1 L') ∧
      ∀ τ ∈ (step A s (.new t fin o ticks mem)).2, τ.within s.ipfSyncLogSz := by
  have hw := h.within
  have hnothing : ipfSyncNew A s t fin o ticks mem = (s, none, []) →
      (∃ L', Own (step A s (.new t fin o ticks mem)).1 L') ∧
        ∀ τ ∈ (step A s (.new t fin o ticks mem)).2, τ.within s.ipfSyncLogSz := by
    intro hnew
    unfold step
    dsimp only
    rw [hnew]
    refine ⟨⟨L, ?_⟩, fun τ hτ => by cases hτ⟩
    dsimp only
    rw [setSync_same hl]
    exact h
  by_cases hlog : s.slIdx = s.ipfSyncLogSz
  · exact hnothing (if_pos hlog)
  · cases mem with
    | none => exact hnothing (if_neg hlog)
    | some sl =>
      have hslt : s.slIdx < s.ipfSyncLogSz := by
        have := hw.slIdx
        omega
      have hnot : ∀ p, sl ∉ L p := fun p hc => hfresh sl rfl (h.base.alloc p sl hc)
      have hb : (t, bucket (s.newNum t)) ∈ heads := mem_heads.2 (bucket_lt _)
      have hlists : Lists (ipfSyncEnter A s t fin o sl).chain heads
          (Function.update L (t, bucket (s.newNum t)) ([] ++ sl :: L (t, bucket (s.newNum t)))) := by
        refine (h.base.lists.insert hb (List.nil_append _).symm hnot rfl).congr (fun p _ => ?_) fun p n _ => ?_
        · unfold ipfSyncEnter
          simp [lastLink]
        · unfold ipfSyncEnter
          simp [lastLink]
      have hent : ∀ e, e ≠ sl → (ipfSyncEnter A s t fin o sl).ent e = s.ent e := fun e he => Function.update_of_ne he _ _
      have hself : (ipfSyncEnter A s t fin o sl).ent sl = ⟨none, newHdr A t fin (s.newNum t), some o⟩ :=
        Function.update_self _ _ _
      obtain ⟨n, w, he⟩ := wakeup_eq (ipfSyncEnter A s t fin o sl) ticks
      have hnew : ipfSyncNew A s t fin o ticks (some sl) =
          (ipfSyncWakeup (ipfSyncEnter A s t fin o sl) ticks, some sl, [.synclog s.slIdx]) := if_neg hlog
      unfold step
      dsimp only
      rw [hnew, he]
      dsimp only
      rw [setSync_eq]
      have hmem := fun {x : ℕ} {g : Tab × ℕ} => mem_added (n := sl) (x := x) (g := g)
        (List.nil_append (L (t, bucket (s.newNum t)))).symm
      refine ⟨⟨Function.update L (t, bucket (s.newNum t)) ([] ++ sl :: L (t, bucket (s.newNum t))), ?_, ?_, ?_⟩,
        fun τ hτ => by rw [List.mem_singleton.1 hτ]; exact hslt⟩
      · refine h.base.enter (hfresh sl rfl) hl hlists rfl (fun t' o' => ?_) hent (by rw [hself]) fun ht => ?_
        · rw [← setSync_eq, sync_setSync]
          rfl
        · rw [hself, ht]
          rfl
      · intro t' b e he
        rcases hmem.1 he with he | ⟨rfl, hp⟩
        · rw [hent e fun hc => hnot _ (hc ▸ he)]
          exact h.named t' b e he
        · cases hp
          rw [hself]
          rfl
      · refine ⟨Nat.le_succ_of_le hw.slTail, hslt, hw.suTail, hw.suIdx, fun p e he i hi => ?_⟩
        rcases hmem.1 he with he | ⟨rfl, -⟩
        · rw [hent e fun hc => hnot _ (hc ▸ he)] at hi
          exact hw.idx p e he i hi
        · rw [hself] at hi
          cases hi

/-- One entry of a flush. -/
theorem Own.flushOne (hg : Own s L) {rest : List ℕ} (hl : L (t, i) = sl :: rest) :
    Own (flushEntry s t i sl).1 (Function.update L (t, i) ([] ++ rest)) ∧
      (flushEntry s t i sl).1.ipfSyncLogSz = s.ipfSyncLogSz ∧ ∀ τ ∈ (flushEntry s t i sl).2,
        τ.within s.ipfSyncLogSz := by
  have hsl : sl ∈ L (t, i) := by
    rw [hl]
    exact List.mem_cons_self
  obtain ⟨o, ho, hp⟩ := hg.base.owner t i sl hsl
  have hcut : L (t, i) = [] ++ sl :: rest := hl
  have hmem := fun {x : ℕ} {g : Tab × ℕ} => hg.base.lists.mem_removed (x := x) (g := g) hcut
  have heq := flushEntry_eq (i := i) hp (hg.named t i sl hsl)
  rw [heq]
  refine ⟨⟨?_, ?_, ?_⟩, ?_, fun τ hτ => ?_⟩
  · exact hg.base.drop hcut ho (hg.base.flush_lists hl)
  · intro t' b e he
    rw [drop_eq]
    exact hg.named t' b e (hmem.1 he).1
  · rw [drop_eq]
    exact ⟨hg.within.slTail, hg.within.slIdx, hg.within.suTail, hg.within.suIdx,
      fun p e he => hg.within.idx p e (hmem.1 he).1⟩
  · rw [drop_eq]
  · unfold flushEntry at hτ
    rw [disown_eq hp (hg.named t i sl hsl), setSync_eq] at hτ
    unfold Softs.forget at hτ
    dsimp only at hτ
    cases hidx : (s.ent sl).slIdx with
    | none =>
      rw [hidx] at hτ
      cases hτ
    | some j =>
      rw [hidx] at hτ
      rw [List.mem_singleton.1 hτ]
      exact hg.within.idx _ sl hsl j hidx

/-- **A flush** touches slots that exist. -/
theorem Own.flush (h : Own s L) : (∃ L', Own (ipfSyncFlushTable s t).1 L') ∧
    ∀ τ ∈ (ipfSyncFlushTable s t).2.2, τ.within s.ipfSyncLogSz := by
  have hdrop : ∀ {s₁ : Softs} {L : Tab × ℕ → List ℕ} {i sl : ℕ} {rest : List ℕ},
      Own s₁ L ∧ s₁.ipfSyncLogSz = s.ipfSyncLogSz → L (t, i) = sl :: rest →
      (Own (flushEntry s₁ t i sl).1 (Function.update L (t, i) ([] ++ rest)) ∧
        (flushEntry s₁ t i sl).1.ipfSyncLogSz = s.ipfSyncLogSz) ∧
        ∀ τ ∈ (flushEntry s₁ t i sl).2, τ.within s.ipfSyncLogSz := by
    intro s₁ L i sl rest hg hl
    obtain ⟨h1, h2, h3⟩ := hg.1.flushOne hl
    rw [hg.2] at h2 h3
    exact ⟨⟨h1, h2⟩, h3⟩
  obtain ⟨h1, h2⟩ := flush_rule (Q := fun τ => τ.within s.ipfSyncLogSz)
    (P := fun s' L => Own s' L ∧ s'.ipfSyncLogSz = s.ipfSyncLogSz) (fun h => h.1.base) hdrop ⟨h, rfl⟩
  exact ⟨⟨_, h1.1⟩, h2⟩

/-- The operations on the two buffers. -/
def Op.buffer : Op → Prop
  | .del _ _ => False
  | .peer _ _ _ _ => False
  | _ => True

/-- **An operation** keeps the indices, and touches only slots that exist, when an update that takes a slot finds one. -/
theorem within_step {op : Op} (h : Own s L) (hl : Legal s op) (hb : op.buffer) (hr : Room s op) :
    (∃ L', Own (step A s op).1 L') ∧ ∀ τ ∈ (step A s op).2, τ.within s.ipfSyncLogSz := by
  cases op with
  | new t fin o ticks mem => exact h.new fin ticks mem hl.1 hl.2
  | update t fin o ticks =>
    obtain ⟨h1, h2⟩ := h.update (A := A) fin ticks hr
    exact ⟨⟨L, h1⟩, h2⟩
  | del t o => exact absurd hb id
  | peer t sp data mem => exact absurd hb id
  | read u =>
    obtain ⟨h1, h2⟩ := h.read (A := A) u
    exact ⟨⟨L, h1⟩, h2⟩
  | rlog =>
    refine ⟨⟨L, h.quiet ⟨rfl, rfl, rfl, rfl, fun _ => rfl, fun _ => rfl, rfl, rfl, rfl⟩ ?_⟩,
      fun τ hτ => by cases hτ⟩
    exact ⟨Nat.le_refl _, Nat.zero_le _, Nat.le_refl _, Nat.zero_le _, h.within.idx⟩
  | flush t =>
    have hf := h.flush (t := t)
    unfold step
    dsimp only
    exact hf

/-! ## Messages -/

/-- The bytes of a message that its handler reads, `mem` being what `KMALLOC` gives. -/
def need (sh : Synchdr) (mem : Option ℕ × Option ℕ) : ℕ :=
  if sh.smTable = SMC_STATE then if sh.smCmd = SMC_CREATE then A.state.size else A.tcp.size
  else if sh.smCmd = SMC_CREATE then
    match mem with
    | (some _, some _) => A.nat.size
    | _ => 0
  else A.updSize

/-- The first message of a stream, its header in host order, and what follows it. -/
def nextMessage (A : Abi) (uio : List Byte) : Option (Synchdr × List Byte) :=
  let sh := A.host (A.hdr.get (uio.take A.hdr.size))
  let rest := uio.drop A.hdr.size
  if uio ≠ [] ∧ A.hdr.size ≤ uio.length ∧ sh.sane ∧ sh.smLen ≠ 0 ∧ A.fits rest.length sh.smLen then
    some (sh, rest.drop sh.smLen.toInt.toNat)
  else none

/-- **The messages fit:** each is at most as long as the buffer, and at least as long as its handler believes. -/
def Framed (A : Abi) : ℕ → List Byte → List (Option ℕ × Option ℕ) → Prop
  | 0, _, _ => True
  | n + 1, uio, mem =>
    match nextMessage A uio with
    | none => True
    | some (sh, rest) =>
      sh.smLen.toInt ≤ DATA_SIZE ∧ (need (A := A) sh (mem.headD (none, none)) : ℤ) ≤ sh.smLen.toInt ∧
        Framed A n rest mem.tail

/-- What a handler reads does not depend on what it finds. -/
theorem message_reads (s : Softs) {sh : Synchdr} (hs : sh.sane) (buf : List Byte) (mem : Option ℕ × Option ℕ) :
    (writeMessage A s sh buf mem).2.2 = need (A := A) sh mem := by
  unfold Synchdr.sane at hs
  simp only [Bool.and_eq_true, decide_eq_true_eq] at hs
  obtain ⟨⟨-, hcmd⟩, htab⟩ := hs
  have hcmd' : sh.smCmd = SMC_CREATE ∨ sh.smCmd = SMC_UPDATE := by
    generalize sh.smCmd = c at hcmd
    revert c
    decide
  have htab' : sh.smTable = SMC_STATE ∨ sh.smTable = SMC_NAT := by
    generalize sh.smTable = c at htab
    revert c
    decide
  have hne : (SMC_UPDATE : Byte) ≠ SMC_CREATE := by decide
  have hne' : (SMC_NAT : Byte) ≠ SMC_STATE := by decide
  obtain ⟨mo, msl⟩ := mem
  unfold writeMessage need
  rcases htab' with ht | ht
  · rw [if_pos ht, if_pos ht]
    unfold ipfSyncState
    rcases hcmd' with hc | hc
    · rw [if_pos hc, if_pos hc]
      cases mo <;> cases msl <;> rfl
    · rw [if_neg (by rw [hc]; exact hne), if_pos hc, if_neg (by rw [hc]; exact hne)]
      unfold ipfSyncStateUpdate
      split
      · rfl
      · split <;> rfl
  · rw [if_neg (by rw [ht]; exact hne'), if_pos ht, if_neg (by rw [ht]; exact hne')]
    unfold ipfSyncNat
    rcases hcmd' with hc | hc
    · rw [if_pos hc, if_pos hc]
      cases mo <;> cases msl <;> rfl
    · rw [if_neg (by rw [hc]; exact hne), if_pos hc, if_neg (by rw [hc]; exact hne)]
      unfold ipfSyncNatUpdate
      split
      · rfl
      · split <;> rfl

/-- The loop in terms of messages. -/
theorem writeLoop_touch (n : ℕ) (s : Softs) (uio : List Byte) (mem : List (Option ℕ × Option ℕ)) (buf : List Byte)
    (err : ℕ) :
    ∃ s' buf' err', (writeLoop A (n + 1) s uio mem buf err).2.2 = match nextMessage A uio with
      | none => []
      | some (sh, rest) => .data sh.smLen.toInt.toNat :: .message (need (A := A) sh (mem.headD (none, none))) sh.smLen.toInt ::
          (writeLoop A n s' rest mem.tail buf' err').2.2 := by
  rw [writeLoop]
  unfold nextMessage
  by_cases h0 : uio = []
  · exact ⟨s, buf, err, by rw [if_pos h0]; simp [h0]⟩
  rw [if_neg h0]
  by_cases h1 : uio.length < A.hdr.size
  · refine ⟨s, buf, err, ?_⟩
    rw [if_pos h1, if_neg fun hc => absurd hc.2.1 (by omega)]
  rw [if_neg h1]
  dsimp only
  generalize A.host (A.hdr.get (uio.take A.hdr.size)) = sh
  generalize uio.drop A.hdr.size = rest
  by_cases h2 : sh.sane
  · by_cases h3 : sh.smLen = 0
    · refine ⟨s, buf, err, ?_⟩
      rw [if_neg (by simpa using h2), if_pos h3, if_neg fun hc => hc.2.2.2.1 h3]
    · by_cases h4 : A.fits rest.length sh.smLen
      · let buf' := rest.take sh.smLen.toInt.toNat ++ buf.drop sh.smLen.toInt.toNat
        let a := writeMessage A s sh buf' (mem.headD (none, none))
        refine ⟨a.1, buf', a.2.1, ?_⟩
        rw [if_neg (by simpa using h2), if_neg h3, if_neg (by simpa using h4), if_pos ⟨h0, by omega, h2, h3, h4⟩]
        dsimp only
        rw [message_reads s h2]
      · refine ⟨s, buf, err, ?_⟩
        rw [if_neg (by simpa using h2), if_neg h3, if_pos (by simpa using h4), if_neg fun hc => h4 hc.2.2.2.2]
  · refine ⟨s, buf, err, ?_⟩
    rw [if_pos (by simpa using h2), if_neg fun hc => h2 hc.2.2.1]

/-- **A stream is written without an access out of bounds** exactly when its messages fit. -/
theorem write_framed : ∀ (n : ℕ) (s : Softs) (uio : List Byte) (mem : List (Option ℕ × Option ℕ)) (buf : List Byte)
    (err k : ℕ),
    (∀ τ ∈ (writeLoop A n s uio mem buf err).2.2, τ.within k) ↔ Framed A n uio mem
  | 0, s, uio, mem, buf, err, k => by
    refine ⟨fun _ => trivial, fun _ τ hτ => ?_⟩
    cases hτ
  | n + 1, s, uio, mem, buf, err, k => by
    obtain ⟨s', buf', err', heq⟩ := writeLoop_touch (A := A) n s uio mem buf err
    rw [heq, Framed]
    cases nextMessage A uio with
    | none => simp
    | some m =>
      obtain ⟨sh, rest⟩ := m
      dsimp only
      rw [List.forall_mem_cons, List.forall_mem_cons, write_framed n s' rest mem.tail buf' err' k]
      have hdata : (Touch.data sh.smLen.toInt.toNat).within k ↔ sh.smLen.toInt ≤ DATA_SIZE := Int.toNat_le
      rw [hdata]
      exact Iff.rfl

/-! ## Runs -/

/-- An operation on the two buffers that finds a slot when it takes one. -/
def Tame (s : Softs) (op : Op) : Prop := op.buffer ∧ Room s op

theorem Run.own {loc : List ℕ} (h : Run A Tame s loc) : ∃ L, Own s L := by
  induction h with
  | init ent log upd ips ipn fr interval hips hipn =>
    have hlists : Lists (Mem.empty : Mem (Tab × ℕ) ℕ) heads fun _ => [] := .nil fun _ _ => rfl
    refine ⟨fun _ => [], ⟨hlists, ?_, ?_, ?_, ?_⟩, ?_, ?_⟩
    · exact fun _ _ he => by cases he
    · exact fun _ _ _ he => by cases he
    · intro t o e he
      cases t
      · have hc := (hipn o).symm.trans he
        cases hc
      · have hc := (hips o).symm.trans he
        cases hc
    · exact fun _ _ he => by cases he
    · exact fun _ _ _ he => by cases he
    · exact ⟨Nat.le_refl _, Nat.zero_le _, Nat.le_refl _, Nat.zero_le _, fun _ _ he => by cases he⟩
  | step op h hl hc ih =>
    obtain ⟨L, hg⟩ := ih
    exact (within_step hg hl hc.1 hc.2).1

/-- **Sync buffers stay in bounds** in a run whose updates find a slot when they take one, and a stream is written in bounds
exactly when its messages fit. -/
theorem buffers_bounded {loc : List ℕ} (h : Run A Tame s loc) :
    (s.slTail ≤ s.slIdx ∧ s.slIdx ≤ s.ipfSyncLogSz ∧ s.suTail ≤ s.suIdx ∧ s.suIdx ≤ s.ipfSyncLogSz) ∧
      (∀ op, Legal s op → Tame s op → ∀ τ ∈ (step A s op).2, τ.within s.ipfSyncLogSz) ∧
      ∀ uio mem buf, (∀ τ ∈ (ipfSyncWrite A s uio mem buf).2.2, τ.within s.ipfSyncLogSz) ↔
        Framed A uio.length uio mem := by
  obtain ⟨L, hg⟩ := h.own
  have hw := hg.within
  refine ⟨⟨hw.slTail, hw.slIdx, hw.suTail, hw.suIdx⟩, fun op hl ht => (within_step hg hl ht.1 ht.2).2,
    fun uio mem buf => ?_⟩
  exact write_framed uio.length s uio mem buf 0 _

/-- A new entry and its first update. -/
theorem buffers_bounded_one : (step (lp64 400 300) (step (lp64 400 300) start (.new .state fin₀ 7 0 (some 1))).1
    (.update .state fin₀ 7 0)).1.suIdx ≤ 256 := by
  have h1 := (run_start (lp64 400 300) Tame).step (.new .state fin₀ 7 0 (some 1)) ⟨rfl, fun _ _ hc => by cases hc⟩
    ⟨trivial, trivial⟩
  have h2 := h1.step (.update .state fin₀ 7 0) trivial ⟨trivial, fun _ _ _ _ => by decide⟩
  exact (buffers_bounded h2).1.2.2.2

/-- The update of NAT entry 2, as `ipf_sync_update` writes it. -/
def natUpdate : List Byte :=
  (lp64 400 300).hdr.put
    ⟨(lp64 400 300).M.htonl SYNHDRMAGIC, 4, IPPROTO_TCP, SMC_UPDATE, SMC_NAT, (lp64 400 300).M.htonl 2, 0,
    (lp64 400 300).M.htonl 64⟩ ++ List.replicate 64 0

/-- **The handler of NAT updates reads more than the message:** a whole `syncupdent_t`, where a `synctcp_update_t` was sent. -/
theorem nat_update_overread : ¬∀ s uio mem buf, ∀ τ ∈ (ipfSyncWrite (lp64 400 300) s uio mem buf).2.2,
    τ.within s.ipfSyncLogSz := by
  intro hall
  have hframed := (write_framed _ start natUpdate [] [] 0 _).1 (hall start natUpdate [] [])
  have hmsg : nextMessage (lp64 400 300) natUpdate =
      some (⟨SYNHDRMAGIC, 4, IPPROTO_TCP, SMC_UPDATE, SMC_NAT, 2, 0, 64⟩, []) := by decide
  have hlen : natUpdate.length = 95 + 1 := by decide
  rw [hlen, Framed, hmsg] at hframed
  exact absurd hframed.2.1 (by decide)

end Ipfilter.Sync
