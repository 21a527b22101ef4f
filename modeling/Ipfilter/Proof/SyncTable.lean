import Ipfilter.Spec.Sync
import Mathlib.Data.List.Perm.Subperm

/-!
# The tables of what is in sync

* `Base`: the chains of the two tables hold the entries that exist, and an entry and its owner point at each other.
* `Base.enter`, `Base.leave`: an entry comes in, and goes.
* `Quiet`: steps that leave the tables alone.
* `Softs.drop`: what a deletion and a flush do to one entry.
* `flush_rule`: what a flush of a table preserves.
-/

namespace Ipfilter.Sync

open Chain List
open Masks (Word Machine)
open Function (update update_eq_self update_idem update_of_ne update_self)

variable {A : Abi} {s s' : Softs} {L : Tab × ℕ → List ℕ} {t t' : Tab} {b i o o' e e' sl : ℕ}

/-! ## The chains -/

/-- The heads of the two tables. -/
def heads : List (Tab × ℕ) := (range 256).map (Tab.nat, ·) ++ (range 256).map (Tab.state, ·)

theorem mem_heads : (t, b) ∈ heads ↔ b < 256 := by
  unfold heads
  rw [mem_append, mem_map, mem_map]
  cases t <;> simp

theorem bucket_lt (num : Word) : bucket num < 256 := by
  unfold bucket
  rw [BitVec.toNat_and]
  refine lt_of_le_of_lt Nat.and_le_right ?_
  decide

/-- **The chains hold the entries,** and an entry and its owner point at each other. -/
structure Base (s : Softs) (L : Tab × ℕ → List ℕ) : Prop where
  lists : Lists s.chain heads L
  alloc : ∀ h, ∀ e ∈ L h, e ∈ s.alloc
  owner : ∀ t b, ∀ e ∈ L (t, b), ∃ o, s.sync t o = some e ∧ (s.ent e).slPtr = some o
  listed : ∀ t o e, s.sync t o = some e → ∃ b, e ∈ L (t, b) ∧ (s.ent e).slPtr = some o
  named : ∀ b, ∀ e ∈ L (.state, b), (s.ent e).slHdr.smTable = SMC_STATE

theorem Base.lt (h : Base s L) (he : e ∈ L (t, b)) : b < 256 := by
  by_contra hb
  have hnil : L (t, b) = [] := h.lists.eq_nil fun hm => hb (mem_heads.1 hm)
  rw [hnil] at he
  cases he

/-- An entry is in one table. -/
theorem Base.unique (h : Base s L) (he : e ∈ L (t, b)) (he' : e ∈ L (t', i)) : t = t' ∧ b = i := by
  by_contra hne
  have hpair : (t, b) ≠ (t', i) := by
    intro hc
    cases hc
    exact hne ⟨rfl, rfl⟩
  exact h.lists.disjoint hpair he he'

theorem Base.length (h : Base s L) (p : Tab × ℕ) : (L p).length ≤ s.alloc.length :=
  (subperm_of_subset (h.lists.nodup p) (h.alloc p)).length_le

/-- What a search finds. -/
theorem Base.search (h : Base s L) (hb : b < 256) (num : Word) :
    s.search t b num = (L (t, b)).find? fun e => (s.ent e).slHdr.smNum == num := by
  have hh : (t, b) ∈ heads := mem_heads.2 hb
  unfold Softs.search
  rw [h.lists.find hh _ (h.length (t, b))]
  congr 1
  funext e
  simp [bne]

theorem Base.search_none (h : Base s L) (hb : b < 256) (num : Word) :
    s.search t b num = none ↔ ∀ e ∈ L (t, b), (s.ent e).slHdr.smNum ≠ num := by
  rw [h.search hb]
  simp

/-- **An entry comes in.** -/
theorem Base.enter (h : Base s L) (hfresh : sl ∉ s.alloc) (hnone : s.sync t o = none)
    (hlists : Lists s'.chain heads (update L (t, b) ([] ++ sl :: L (t, b)))) (halloc : s'.alloc = sl :: s.alloc)
    (hsync : ∀ t' o', s'.sync t' o' = if t' = t ∧ o' = o then some sl else s.sync t' o')
    (hent : ∀ e, e ≠ sl → s'.ent e = s.ent e) (hptr : (s'.ent sl).slPtr = some o)
    (hname : t = .state → (s'.ent sl).slHdr.smTable = SMC_STATE) :
    Base s' (update L (t, b) ([] ++ sl :: L (t, b))) := by
  have hold : ∀ {p e}, e ∈ L p → e ≠ sl := by
    rintro p e he rfl
    exact hfresh (h.alloc p e he)
  have hmem := fun {x : ℕ} {g : Tab × ℕ} => mem_added (n := sl) (x := x) (g := g) (nil_append (L (t, b))).symm
  refine ⟨hlists, ?_, ?_, ?_, ?_⟩
  · intro p e he
    rw [halloc, mem_cons]
    rcases hmem.1 he with he | ⟨rfl, -⟩
    · exact .inr (h.alloc p e he)
    · exact .inl rfl
  · intro t' b' e he
    rcases hmem.1 he with he | ⟨rfl, hp⟩
    · obtain ⟨o', h1, h2⟩ := h.owner t' b' e he
      refine ⟨o', ?_, by rw [hent e (hold he)]; exact h2⟩
      rw [hsync, if_neg, h1]
      rintro ⟨rfl, rfl⟩
      rw [hnone] at h1
      cases h1
    · cases hp
      exact ⟨o, by rw [hsync, if_pos ⟨rfl, rfl⟩], hptr⟩
  · intro t' o' e he
    rw [hsync] at he
    split at he
    · rename_i hto
      cases he
      rw [hto.1, hto.2]
      exact ⟨b, hmem.2 (.inr ⟨rfl, rfl⟩), hptr⟩
    · obtain ⟨b', h1, h2⟩ := h.listed t' o' e he
      exact ⟨b', hmem.2 (.inl h1), by rw [hent e (hold h1)]; exact h2⟩
  · intro b' e he
    rcases hmem.1 he with he | ⟨rfl, hp⟩
    · rw [hent e (hold he)]
      exact h.named b' e he
    · cases hp
      exact hname rfl

/-- **An entry goes.** -/
theorem Base.leave (h : Base s L) {l₁ l₂ : List ℕ} (hl : L (t, b) = l₁ ++ sl :: l₂) (ho : s.sync t o = some sl)
    (hlists : Lists s'.chain heads (update L (t, b) (l₁ ++ l₂))) (halloc : s'.alloc = s.alloc.filter (· ≠ sl))
    (hsync : ∀ t' o', s'.sync t' o' = if t' = t ∧ o' = o then none else s.sync t' o')
    (hhdr : ∀ e, (s'.ent e).slHdr = (s.ent e).slHdr) (hptr : ∀ e, (s'.ent e).slPtr = (s.ent e).slPtr) :
    Base s' (update L (t, b) (l₁ ++ l₂)) := by
  have hmem := fun {x : ℕ} {g : Tab × ℕ} => h.lists.mem_removed (x := x) (g := g) hl
  obtain ⟨b₀, hb₀, hp₀⟩ := h.listed t o sl ho
  refine ⟨hlists, ?_, ?_, ?_, ?_⟩
  · intro p e he
    obtain ⟨he, hne⟩ := hmem.1 he
    rw [halloc]
    exact mem_filter.2 ⟨h.alloc p e he, by simpa using hne⟩
  · intro t' b' e he
    obtain ⟨he, hne⟩ := hmem.1 he
    obtain ⟨o', h1, h2⟩ := h.owner t' b' e he
    refine ⟨o', ?_, by rw [hptr]; exact h2⟩
    rw [hsync, if_neg, h1]
    rintro ⟨rfl, rfl⟩
    rw [ho] at h1
    cases h1
    exact hne rfl
  · intro t' o' e he
    rw [hsync] at he
    split at he
    · cases he
    · rename_i hto
      obtain ⟨b', h1, h2⟩ := h.listed t' o' e he
      refine ⟨b', hmem.2 ⟨h1, ?_⟩, by rw [hptr]; exact h2⟩
      rintro rfl
      -- the owner of the entry is told by the entry
      rw [hp₀] at h2
      cases h2
      exact hto ⟨(h.unique h1 hb₀).1, rfl⟩
  · intro b' e he
    rw [hhdr]
    exact h.named b' e (hmem.1 he).1

/-! ## Quiet steps -/

/-- Only the log, the updates and what points at them differ. -/
structure Quiet (s s' : Softs) : Prop where
  chain : s'.chain = s.chain
  alloc : s'.alloc = s.alloc
  ips : s'.ips = s.ips
  ipn : s'.ipn = s.ipn
  hdr : ∀ e, (s'.ent e).slHdr = (s.ent e).slHdr
  ptr : ∀ e, (s'.ent e).slPtr = (s.ent e).slPtr
  num : s'.ipfSyncNum = s.ipfSyncNum
  wrap : s'.ipfSyncWrap = s.ipfSyncWrap
  size : s'.ipfSyncLogSz = s.ipfSyncLogSz

theorem Quiet.refl (s : Softs) : Quiet s s := ⟨rfl, rfl, rfl, rfl, fun _ => rfl, fun _ => rfl, rfl, rfl, rfl⟩

theorem Quiet.trans {s₁ s₂ s₃ : Softs} (h : Quiet s₁ s₂) (h' : Quiet s₂ s₃) : Quiet s₁ s₃ where
  chain := h'.chain.trans h.chain
  alloc := h'.alloc.trans h.alloc
  ips := h'.ips.trans h.ips
  ipn := h'.ipn.trans h.ipn
  hdr e := (h'.hdr e).trans (h.hdr e)
  ptr e := (h'.ptr e).trans (h.ptr e)
  num := h'.num.trans h.num
  wrap := h'.wrap.trans h.wrap
  size := h'.size.trans h.size

theorem Quiet.sync (h : Quiet s s') (t : Tab) (o : ℕ) : s'.sync t o = s.sync t o := by
  cases t
  · exact congrArg (fun m : ℕ → NatT => (m o).natSync) h.ipn
  · exact congrArg (fun m : ℕ → Ipstate => (m o).isSync) h.ips

theorem Base.quiet (h : Base s L) (hq : Quiet s s') : Base s' L where
  lists := by rw [hq.chain]; exact h.lists
  alloc := by rw [hq.alloc]; exact h.alloc
  owner t b e he := by
    obtain ⟨o, h1, h2⟩ := h.owner t b e he
    exact ⟨o, by rw [hq.sync]; exact h1, by rw [hq.ptr]; exact h2⟩
  listed t o e he := by
    rw [hq.sync] at he
    obtain ⟨b, h1, h2⟩ := h.listed t o e he
    exact ⟨b, h1, by rw [hq.ptr]; exact h2⟩
  named b e he := by
    rw [hq.hdr]
    exact h.named b e he

/-- A wakeup only touches its counters. -/
theorem wakeup_eq (s : Softs) (ticks : Word) :
    ∃ n w, ipfSyncWakeup s ticks = { s with ipfSyncEvents := n, ipfSyncLastwakeup := w } := by
  unfold ipfSyncWakeup ipfSyncPollWakeup
  dsimp only
  split
  · exact ⟨_, _, rfl⟩
  · exact ⟨_, _, rfl⟩

/-! ## Entries that go -/

theorem sync_setSync (s : Softs) (t : Tab) (o : ℕ) (v : Option ℕ) (t' : Tab) (o' : ℕ) :
    (s.setSync t o v).sync t' o' = if t' = t ∧ o' = o then v else s.sync t' o' := by
  by_cases ho : o' = o
  · rw [ho]
    cases t <;> cases t' <;> simp [Softs.setSync, Softs.sync, Softs.updIpn, Softs.updIps]
  · cases t <;> cases t' <;> simp [Softs.setSync, Softs.sync, Softs.updIpn, Softs.updIps, ho]

theorem setSync_eq (s : Softs) (t : Tab) (o : ℕ) (v : Option ℕ) :
    s.setSync t o v = { s with ips := (s.setSync t o v).ips, ipn := (s.setSync t o v).ipn } := by
  cases t <;> rfl

/-- An owner without an entry that is told so. -/
theorem setSync_same (h : s.sync t o = none) : s.setSync t o none = s := by
  cases t
  · have hn : ({ s.ipn o with natSync := none } : NatT) = s.ipn o := by rw [← h]; rfl
    unfold Softs.setSync Softs.updIpn
    dsimp only
    rw [hn, update_eq_self]
  · have hn : ({ s.ips o with isSync := none } : Ipstate) = s.ips o := by rw [← h]; rfl
    unfold Softs.setSync Softs.updIps
    dsimp only
    rw [hn, update_eq_self]

theorem forget_eq (s : Softs) (sl : ℕ) : (s.forget sl).1 = { s with syncupd := (s.forget sl).1.syncupd } := by
  unfold Softs.forget
  cases (s.ent sl).slIdx <;> rfl

/-- The owner forgets an entry, its chain is `m` without it, its slot forgets it, and it is freed. -/
def Softs.drop (s : Softs) (t : Tab) (o sl : ℕ) (m : Mem (Tab × ℕ) ℕ) : Softs :=
  { s.setSync t o none with
    chain := m
    syncupd := (s.forget sl).1.syncupd
    alloc := s.alloc.filter (· ≠ sl) }

theorem drop_eq (s : Softs) (t : Tab) (o sl : ℕ) (m : Mem (Tab × ℕ) ℕ) : s.drop t o sl m = { s with
      chain := m
      syncupd := (s.forget sl).1.syncupd
      alloc := s.alloc.filter (· ≠ sl)
      ips := (s.setSync t o none).ips
      ipn := (s.setSync t o none).ipn } := by
  cases t <;> rfl

theorem delTab_eq (s : Softs) (t : Tab) (o sl : ℕ) :
    (ipfSyncDelTab s sl).1.setSync t o none = s.drop t o sl (unlinkEnt s.chain sl) := by
  unfold ipfSyncDelTab ipfSyncDel Softs.drop Softs.forget
  cases hidx : (s.ent sl).slIdx <;> cases t <;> simp only <;> rfl

theorem disown_eq (hp : (s.ent sl).slPtr = some o) (hn : (s.ent sl).slHdr.smTable = t.code) :
    s.disown sl = s.setSync t o none := by
  unfold Softs.disown
  rw [hp, hn]
  cases t <;> rfl

theorem flushEntry_eq (hp : (s.ent sl).slPtr = some o) (hn : (s.ent sl).slHdr.smTable = t.code) :
    (flushEntry s t i sl).1 =
      s.drop t o sl ((s.chain.setP? (s.chain.next sl) (s.chain.pnext sl)).set (.head (t, i)) (s.chain.next sl)) := by
  unfold flushEntry
  rw [disown_eq hp hn, setSync_eq s t o none]
  unfold Softs.drop Softs.forget
  dsimp only
  cases (s.ent sl).slIdx <;> cases t <;> rfl

theorem Base.drop (h : Base s L) {l₁ l₂ : List ℕ} {m : Mem (Tab × ℕ) ℕ} (hl : L (t, b) = l₁ ++ sl :: l₂)
    (ho : s.sync t o = some sl) (hm : Lists m heads (update L (t, b) (l₁ ++ l₂))) :
    Base (s.drop t o sl m) (update L (t, b) (l₁ ++ l₂)) := by
  refine h.leave hl ho hm rfl (fun t' o' => ?_) (fun e => ?_) fun e => ?_
  · rw [← sync_setSync]
    cases t' <;> rfl
  · rw [drop_eq]
  · rw [drop_eq]

/-- A flush takes the first entry of a chain. -/
theorem Base.flush_lists (h : Base s L) {rest : List ℕ} (hl : L (t, i) = sl :: rest) :
    Lists ((s.chain.setP? (s.chain.next sl) (s.chain.pnext sl)).set (.head (t, i)) (s.chain.next sl)) heads
      (update L (t, i) ([] ++ rest)) := by
  have hi : i < 256 := h.lt (e := sl) (by rw [hl]; exact mem_cons_self)
  have hcut : L (t, i) = [] ++ sl :: rest := hl
  refine (h.lists.remove (mem_heads.2 hi) hcut rfl).congr (fun p _ => ?_) fun p n _ => ?_
  · rw [show lastLink (.head (t, i)) ([] : List ℕ) = .head (t, i) from rfl, head_set, head_set, head_setP?]
  · rw [show lastLink (.head (t, i)) ([] : List ℕ) = .head (t, i) from rfl, next_set, next_set, next_setP?]

section Flush

variable {P : Softs → (Tab × ℕ → List ℕ) → Prop} {Q : Touch → Prop} (hP : ∀ {s L}, P s L → Base s L)
  (hdrop : ∀ {s L i sl rest}, P s L → L (t, i) = sl :: rest →
    P (flushEntry s t i sl).1 (update L (t, i) ([] ++ rest)) ∧ ∀ τ ∈ (flushEntry s t i sl).2, Q τ)

include hP hdrop

theorem flushBucket_rule (hi : i < 256) : ∀ (n : ℕ) {s : Softs} {L : Tab × ℕ → List ℕ}, P s L →
    (L (t, i)).length ≤ n →
    P (flushBucket t i n s).1 (update L (t, i) []) ∧ ∀ τ ∈ (flushBucket t i n s).2.2, Q τ
  | 0, s, L, h, hn => by
    have hnil : L (t, i) = [] := eq_nil_of_length_eq_zero (by omega)
    rw [← hnil, update_eq_self]
    exact ⟨h, fun τ hτ => by cases hτ⟩
  | n + 1, s, L, h, hn => by
    have hhead : s.chain.head (t, i) = (L (t, i)).head? := (hP h).lists.get (mem_heads.2 hi) (nil_append _).symm
    unfold flushBucket
    rw [hhead]
    cases hl : L (t, i) with
    | nil =>
      have hsame : update L (t, i) [] = L := by rw [← hl, update_eq_self]
      rw [hsame]
      exact ⟨h, fun τ hτ => by cases hτ⟩
    | cons sl rest =>
      dsimp only [head?_cons]
      obtain ⟨h1, h2⟩ := hdrop h hl
      rw [hl, length_cons] at hn
      have hlen : (update L (t, i) ([] ++ rest) (t, i)).length ≤ n := by
        rw [update_self, nil_append]
        omega
      obtain ⟨h3, h4⟩ := flushBucket_rule hi n h1 hlen
      rw [update_idem] at h3
      refine ⟨h3, fun τ hτ => ?_⟩
      rcases mem_append.1 hτ with hτ | hτ
      · exact h2 τ hτ
      · exact h4 τ hτ

theorem flushBuckets_rule : ∀ (n i : ℕ) {s : Softs} {L : Tab × ℕ → List ℕ}, P s L → i + n ≤ 256 →
    P (flushBuckets t i n s).1 (fun p => if p.1 = t ∧ i ≤ p.2 ∧ p.2 < i + n then [] else L p) ∧
      ∀ τ ∈ (flushBuckets t i n s).2.2, Q τ
  | 0, i, s, L, h, _ => by
    have hsame : (fun p : Tab × ℕ => if p.1 = t ∧ i ≤ p.2 ∧ p.2 < i + 0 then [] else L p) = L := by
      funext p
      rw [if_neg (by omega)]
    rw [hsame]
    exact ⟨h, fun τ hτ => by cases hτ⟩
  | n + 1, i, s, L, h, hn => by
    unfold flushBuckets
    obtain ⟨h1, h2⟩ := flushBucket_rule hP hdrop (by omega) s.alloc.length h ((hP h).length (t, i))
    obtain ⟨h3, h4⟩ := flushBuckets_rule n (i + 1) h1 (by omega)
    have hsame : (fun p : Tab × ℕ => if p.1 = t ∧ i + 1 ≤ p.2 ∧ p.2 < i + 1 + n then []
        else update L (t, i) [] p) = fun p => if p.1 = t ∧ i ≤ p.2 ∧ p.2 < i + (n + 1) then [] else L p := by
      funext p
      obtain ⟨t', b⟩ := p
      dsimp only
      by_cases hp : (t', b) = (t, i)
      · cases hp
        rw [update_self, ite_self, if_pos ⟨rfl, le_rfl, by omega⟩]
      · rw [update_of_ne hp]
        have hne : t' = t → b ≠ i := fun h1 h2 => hp (by rw [h1, h2])
        apply if_congr _ rfl rfl
        constructor
        · rintro ⟨ht, h1, h2⟩
          exact ⟨ht, by omega, by omega⟩
        · rintro ⟨ht, h1, h2⟩
          have := hne ht
          exact ⟨ht, by omega, by omega⟩
    rw [hsame] at h3
    refine ⟨h3, fun τ hτ => ?_⟩
    rcases mem_append.1 hτ with hτ | hτ
    · exact h2 τ hτ
    · exact h4 τ hτ

/-- **What a flush preserves:** what the deletion of one entry after the other preserves. -/
theorem flush_rule (h : P s L) :
    P (ipfSyncFlushTable s t).1 (fun p => if p.1 = t then [] else L p) ∧ ∀ τ ∈ (ipfSyncFlushTable s t).2.2, Q τ := by
  obtain ⟨h1, h2⟩ := flushBuckets_rule hP hdrop 256 0 h le_rfl
  refine ⟨?_, h2⟩
  have hsame : (fun p : Tab × ℕ => if p.1 = t ∧ 0 ≤ p.2 ∧ p.2 < 0 + 256 then [] else L p) =
      fun p => if p.1 = t then [] else L p := by
    funext p
    obtain ⟨t', b⟩ := p
    dsimp only
    by_cases hb : b < 256
    · exact if_congr ⟨fun h1 => h1.1, fun h1 => ⟨h1, Nat.zero_le _, by omega⟩⟩ rfl rfl
    · have hnil : L (t', b) = [] := (hP h).lists.eq_nil fun hm => hb (mem_heads.1 hm)
      rw [hnil, ite_self, ite_self]
  rw [hsame] at h1
  exact h1

end Flush

/-! ## Runs -/

/-- What callers promise: memory that is allocated is not in use, a state or NAT entry that is made has no entry yet, and a
message of the peer is for its table. -/
def Legal (s : Softs) : Op → Prop
  | .new t _ o _ mem => s.sync t o = none ∧ ∀ sl, mem = some sl → sl ∉ s.alloc
  | .peer t sp _ mem => sp.smTable = t.code ∧ ∀ o sl, mem = (some o, some sl) → s.sync t o = none ∧ sl ∉ s.alloc
  | _ => True

/-- The entries that were made here, after an operation. -/
def locals (A : Abi) (s : Softs) (loc : List ℕ) : Op → List ℕ
  | .new t fin o ticks mem =>
    match (ipfSyncNew A s t fin o ticks mem).2.1 with
    | some sl => sl :: loc
    | none => loc
  | .peer _ _ _ (some _, some sl) => loc.filter (· ≠ sl)
  | _ => loc

/-- A run whose steps satisfy `C`, and the entries that were made here. -/
inductive Run (A : Abi) (C : Softs → Op → Prop) : Softs → List ℕ → Prop where
  | init (ent : ℕ → Synclist) (log : ℕ → Synclogent) (upd : ℕ → Syncupdent) (ips : ℕ → Ipstate)
      (ipn : ℕ → NatT) (fr : ℕ → Frentry) (interval : Word) (hips : ∀ o, (ips o).isSync = none)
      (hipn : ∀ o, (ipn o).natSync = none) :
      Run A C (init ent log upd ips ipn fr interval) []
  | step {s : Softs} {loc : List ℕ} (op : Op) (h : Run A C s loc) (hl : Legal s op) (hc : C s op) :
      Run A C (step A s op).1 (locals A s loc op)

/-- A header, and states and NAT entries that are empty. -/
def hdr₀ (tab : Tab) (num : Word) : Synchdr := ⟨SYNHDRMAGIC, 4, IPPROTO_TCP, SMC_CREATE, tab.code, num, 0, 0⟩

def ips₀ : Ipstate :=
  ⟨⟨0, (0, 0), 0, 0, (0, 0), (0, 0), 0, 0, 0, 0, (⟨0, 0, 0⟩, ⟨0, 0, 0⟩), 0, 0, (0, 0), (0, 0), 0⟩, none, none⟩

def ipn₀ : NatT := ⟨⟨0, 0, 0, 0, 0, 0⟩, none⟩

def fin₀ : FrInfo := ⟨4, IPPROTO_TCP, 0, true⟩

def start : Softs :=
  init (fun _ => ⟨none, hdr₀ .nat 0, none⟩) (fun _ => ⟨hdr₀ .nat 0, []⟩)
    (fun _ => ⟨hdr₀ .nat 0, none, ⟨0, (⟨0, 0, 0⟩, ⟨0, 0, 0⟩), (0, 0)⟩⟩) (fun _ => ips₀) (fun _ => ipn₀)
    (fun _ => ⟨0, 0⟩) 0

theorem run_start (A : Abi) (C : Softs → Op → Prop) : Run A C start [] :=
  .init _ _ _ _ _ _ _ (fun _ => rfl) fun _ => rfl

end Ipfilter.Sync
