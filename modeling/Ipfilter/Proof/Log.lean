import Ipfilter.Chain.Lists
import Ipfilter.Spec.Log
import Mathlib.Algebra.BigOperators.Group.List.Basic

/-!
# Records reach the readers

* `Held`: the records on the list and those that are copied out, and the bytes they take.
* `Told`: what was accepted, delivered and cleared, and in which order.
* `run_log`: in runs in which nothing is linked behind a record that is copied out, a record that cannot be copied goes back to
  where it was, and records are copied in order, none is lost, and the end of the list is known except while the last record is
  copied out.
-/

namespace Ipfilter.IpLog

open Chain List
open Function (update update_eq_self update_eq_self_iff update_idem update_of_ne update_self)
open Prod (fst)
open BitVec (ofNat ofNat_add)

variable {B : Type} {w w' : Softl B} {l : List ℕ} {x y q : ℕ} {r : Reading}

/-! ## The list -/

/-- **The records in memory** are those of the list `l` and those that are copied out. -/
structure Held (w : Softl B) (l : List ℕ) : Prop where
  list : Lists w.mem [()] fun _ => l
  used : w.used = (l.map fun x => ((w.ipl x).dsize : ℤ)).sum
  alloc : ∀ x, w.alloc x = true ↔ x ∈ l ∨ ∃ q r, w.reading q = some r ∧ r.ipl = x
  out : ∀ q r, w.reading q = some r → r.ipl ∉ l ∧ r.dlen = (w.ipl r.ipl).dsize
  apart : ∀ q r q' r', w.reading q = some r → w.reading q' = some r' → r'.ipl = r.ipl → q' = q
  made : ∀ L : List ℕ, L.Nodup → (∀ x ∈ L, w.alloc x = true) → L.length ≤ w.made

/-- **The end of the list is known.** -/
def Tidy (w : Softl B) (l : List ℕ) : Prop := w.iplh = lastLink (.head ()) l ∧ w.ipll = l.getLast?

/-- **The last record is copied out:** the list is empty, and new records are linked behind one that is not on it. -/
def Drained (w : Softl B) : Prop :=
  ∃ q r, w.iplt = none ∧ w.reading q = some r ∧ w.iplh = .next r.ipl ∧ w.ipll = some r.ipl

theorem Held.iplt (h : Held w l) : w.iplt = l.head? :=
  h.list.head (mem_singleton_self ())

theorem Held.length (h : Held w l) : l.length ≤ w.made :=
  h.made l (h.list.nodup ()) fun x hx => (h.alloc x).2 (.inl hx)

theorem Held.drained (h : Held w l) (hd : Drained w) : l = [] := by
  obtain ⟨q, r, hnone, -⟩ := hd
  rw [h.iplt] at hnone
  exact head?_eq_none_iff.1 hnone

theorem Held.tidy_iff (h : Held w l) (ht : Tidy w l ∨ Drained w) : Tidy w l ↔ ¬Drained w := by
  refine ⟨fun htidy hd => ?_, fun hno => ht.resolve_right hno⟩
  have hl := h.drained hd
  obtain ⟨q, r, -, -, hplace, -⟩ := hd
  rw [htidy.1, hl, lastLink] at hplace
  cases hplace

/-- What is not looked at may change. -/
theorem Held.congr (h : Held w l) (hlist : Lists w'.mem [()] fun _ => l) (hused : w'.used = w.used)
    (halloc : ∀ x, w'.alloc x = w.alloc x) (hreading : w'.reading = w.reading)
    (hdsize : ∀ x, w.alloc x = true → (w'.ipl x).dsize = (w.ipl x).dsize) (hmade : w'.made = w.made) : Held w' l := by
  have hin : ∀ x ∈ l, w.alloc x = true := fun x hx => (h.alloc x).2 (.inl hx)
  refine ⟨hlist, ?_, fun x => ?_, fun q r hr => ?_, ?_, fun L hL hin' => ?_⟩
  · rw [hused, h.used]
    congr 1
    exact map_congr_left fun x hx => by rw [hdsize x (hin x hx)]
  · rw [halloc, hreading]
    exact h.alloc x
  · rw [hreading] at hr
    rw [hdsize r.ipl ((h.alloc _).2 (.inr ⟨q, r, hr, rfl⟩))]
    exact h.out q r hr
  · rw [hreading]
    exact h.apart
  · rw [hmade]
    exact h.made L hL fun x hx => (halloc x).symm.trans (hin' x hx)

/-- The place behind a list does not depend on its start, unless it is empty. -/
theorem lastLink_cons {k : Link Unit ℕ} (x : ℕ) (hl : l ≠ []) : lastLink k (x :: l) = lastLink k l := by
  cases l with
  | nil => exact absurd rfl hl
  | cons y l => rfl

/-! ## Reading -/

/-- The call that goes on does not matter. -/
theorem readNext_forget (w : Softl B) (q n : ℕ) :
    Softl.readNext { w with reading := update w.reading q none } q n = w.readNext q n := by
  unfold Softl.readNext Softl.readEnd Softl.iplt
  simp only [update_idem]

/-- **The next record is copied out,** or the call ends. -/
theorem Held.readNext (h : Held w l) (ht : l = [] ∨ Tidy w l) (hq : w.reading q = none) (n : ℕ) :
    ∃ l', Held (w.readNext q n) l' ∧ (Tidy (w.readNext q n) l' ∨ Drained (w.readNext q n)) ∧ l'.Sublist l := by
  have hsame : update w.reading q none = w.reading := by
    rw [← hq, update_eq_self]
  have hhead := h.iplt
  unfold Softl.readNext
  cases l with
  | nil =>
    rw [hhead]
    have hnone : w.iplt = none := hhead
    have heq : w.readEnd q = { w with used := 0, iplh := .head (), ipll := none } := by
      unfold Softl.readEnd
      rw [hsame]
      exact if_pos hnone
    dsimp only [head?_nil]
    rw [heq]
    exact ⟨[], ⟨h.list, rfl, h.alloc, h.out, h.apart, h.made⟩, .inl ⟨rfl, rfl⟩, .slnil⟩
  | cons y l =>
    obtain ⟨hplace, hlast⟩ := ht.resolve_left (by simp)
    rw [hhead]
    dsimp only [head?_cons]
    split
    · have heq : w.readEnd q = w := by
        unfold Softl.readEnd
        rw [hsame]
        exact if_neg (by rw [hhead]; simp)
      rw [heq]
      exact ⟨y :: l, h, .inl ⟨hplace, hlast⟩, .refl _⟩
    · have hnd := h.list.nodup ()
      have hyl : y ∉ l := (nodup_cons.1 hnd).1
      have hremove := h.list.remove (n := y) (h := ()) (mem_singleton_self _) (nil_append _).symm rfl
      have hfun : update (fun _ => y :: l) () ([] ++ l) = fun _ => l := by
        funext u
        exact update_self _ _ _
      rw [hfun, lastLink] at hremove
      refine ⟨l, ⟨hremove, ?_, fun x => ?_, fun q' r hr => ?_, fun q' r q'' r' hr hr' he => ?_, ?_⟩, ?_,
        sublist_cons_self _ _⟩
      · dsimp only
        rw [h.used, map_cons, sum_cons]
        omega
      · dsimp only
        rw [h.alloc, mem_cons]
        constructor
        · rintro ((rfl | hx) | ⟨q', r, hr, rfl⟩)
          · exact .inr ⟨q, _, update_self _ _ _, rfl⟩
          · exact .inl hx
          · refine .inr ⟨q', r, ?_, rfl⟩
            rw [update_of_ne]
            · exact hr
            · rintro rfl
              rw [hq] at hr
              cases hr
        · rintro (hx | ⟨q', r, hr, rfl⟩)
          · exact .inl (.inr hx)
          · by_cases hqq : q' = q
            · rw [hqq, update_self] at hr
              cases hr
              exact .inl (.inl rfl)
            · rw [update_of_ne hqq] at hr
              exact .inr ⟨q', r, hr, rfl⟩
      · by_cases hqq : q' = q
        · dsimp only at hr
          rw [hqq, update_self] at hr
          cases hr
          exact ⟨hyl, rfl⟩
        · dsimp only at hr
          rw [update_of_ne hqq] at hr
          exact ⟨fun hc => (h.out q' r hr).1 (mem_cons_of_mem _ hc), (h.out q' r hr).2⟩
      · -- the other calls do not copy a record of the list
        have hother : ∀ p s, p ≠ q → w.reading p = some s → s.ipl ≠ y := by
          rintro p s - hs rfl
          exact (h.out p s hs).1 mem_cons_self
        dsimp only at hr hr'
        by_cases h1 : q' = q
        · by_cases h2 : q'' = q
          · rw [h1, h2]
          · rw [h1, update_self] at hr
            rw [update_of_ne h2] at hr'
            cases hr
            exact absurd he (hother q'' r' h2 hr')
        · rw [update_of_ne h1] at hr
          by_cases h2 : q'' = q
          · rw [h2, update_self] at hr'
            cases hr'
            exact absurd he.symm (hother q' r h1 hr)
          · rw [update_of_ne h2] at hr'
            exact h.apart q' r q'' r' hr hr' he
      · exact h.made
      · cases l with
        | nil =>
          refine .inr ⟨q, _, ?_, update_self _ _ _, hplace, hlast⟩
          exact hremove.head (mem_singleton_self ())
        | cons z l =>
          refine .inl ⟨?_, ?_⟩
          · exact hplace.trans (lastLink_cons y (by simp))
          · exact hlast.trans (getLast?_cons_cons ..)

/-- A copied record is gone. -/
theorem Held.drop (h : Held w l) (hr : w.reading q = some r) :
    Held { w.kfrees r.ipl with reading := update w.reading q none } l := by
  obtain ⟨hout, -⟩ := h.out q r hr
  have hread : ∀ q' r', update w.reading q none q' = some r' → q' ≠ q ∧ w.reading q' = some r' := by
    intro q' r' hr'
    have hqq : q' ≠ q := by
      rintro rfl
      rw [update_self] at hr'
      cases hr'
    rw [update_of_ne hqq] at hr'
    exact ⟨hqq, hr'⟩
  refine ⟨h.list, h.used, fun x => ?_, fun q' r' hr' => h.out q' r' (hread q' r' hr').2, fun q' r' q'' r'' hr' hr'' he => ?_,
    fun L hL hin => h.made L hL fun x hx => ?_⟩
  · change update w.alloc r.ipl false x = true ↔ _
    by_cases hx : x = r.ipl
    · rw [hx, update_self]
      refine iff_of_false (by simp) ?_
      rintro (hc | ⟨q', r', hr', he⟩)
      · exact hout hc
      · obtain ⟨hqq, hr'⟩ := hread q' r' hr'
        exact hqq (h.apart q r q' r' hr hr' he)
    · rw [update_of_ne hx, h.alloc]
      refine or_congr Iff.rfl ⟨?_, ?_⟩
      · rintro ⟨q', r', hr', he⟩
        refine ⟨q', r', ?_, he⟩
        change update w.reading q none q' = _
        rw [update_of_ne]
        · exact hr'
        · rintro rfl
          rw [hr] at hr'
          cases hr'
          exact hx he.symm
      · rintro ⟨q', r', hr', he⟩
        exact ⟨q', r', (hread q' r' hr').2, he⟩
  · exact h.apart q' r' q'' r'' (hread q' r' hr').2 (hread q'' r'' hr'').2 he
  · have halloc : update w.alloc r.ipl false x = true := hin x hx
    by_cases hxr : x = r.ipl
    · rw [hxr, update_self] at halloc
      cases halloc
    · rwa [update_of_ne hxr] at halloc

/-- **A record was copied out.** Whatever was the end of the list, it is known when the list is empty now. -/
theorem Held.copied (h : Held w l) (ht : Tidy w l ∨ Drained w) (q : ℕ) :
    ∃ l', Held (copied w q) l' ∧ (Tidy (copied w q) l' ∨ Drained (copied w q)) ∧ l'.Sublist l := by
  unfold IpLog.copied
  cases hr : w.reading q with
  | none => exact ⟨l, h, ht, .refl _⟩
  | some r =>
    dsimp only
    rw [← readNext_forget]
    refine (h.drop hr).readNext ?_ (update_self _ _ _) _
    by_cases hl : l = []
    · exact .inl hl
    · exact .inr (ht.resolve_right fun hd => hl (h.drained hd))

/-- **A record could not be copied out:** it is the first one again. -/
theorem Held.failed (h : Held w l) (ht : Tidy w l ∨ Drained w) (hr : w.reading q = some r)
    (hend : l ≠ [] ∨ w.iplh = .next r.ipl) : Held (failed w q) (r.ipl :: l) ∧ Tidy (failed w q) (r.ipl :: l) := by
  obtain ⟨hout, hdlen⟩ := h.out q r hr
  have hinsert := h.list.insert (n := r.ipl) (h := ()) (mem_singleton_self _) (nil_append _).symm (fun _ => hout) rfl
  have hfun : update (fun _ => l) () ([] ++ r.ipl :: l) = fun _ => r.ipl :: l := by
    funext u
    exact update_self _ _ _
  rw [hfun, lastLink] at hinsert
  have hcall : IpLog.failed w q = { w with
      mem := (w.mem.set (.next r.ipl) w.iplt).set (.head ()) (some r.ipl)
      used := w.used + r.dlen
      reading := update w.reading q none } := by
    unfold IpLog.failed Softl.readEnd
    rw [hr]
    refine if_neg ?_
    simp [Softl.iplt]
  rw [hcall]
  have hdrop := h.drop hr
  refine ⟨⟨hinsert, ?_, fun x => ?_, fun q' r' hr' => ?_, hdrop.apart, h.made⟩, ?_⟩
  · dsimp only
    rw [h.used, map_cons, sum_cons, hdlen]
    omega
  · have hx := hdrop.alloc x
    change update w.alloc r.ipl false x = true ↔ _ at hx
    change w.alloc x = true ↔ _
    by_cases hxr : x = r.ipl
    · refine iff_of_true ?_ (.inl ?_)
      · exact (h.alloc x).2 (.inr ⟨q, r, hr, hxr.symm⟩)
      · exact hxr ▸ mem_cons_self
    · rw [update_of_ne hxr] at hx
      rw [hx, mem_cons, or_iff_right hxr]
  · obtain ⟨hout', hdlen'⟩ := hdrop.out q' r' hr'
    refine ⟨fun hc => ?_, hdlen'⟩
    rcases mem_cons.1 hc with hc | hc
    · -- another call does not copy this record
      by_cases hqq : q' = q
      · dsimp only at hr'
        rw [hqq, update_self] at hr'
        cases hr'
      · dsimp only at hr'
        rw [update_of_ne hqq] at hr'
        exact hqq (h.apart q r q' r' hr hr' hc)
    · exact hout' hc
  · by_cases hl : l = []
    · have hplace := hend.resolve_left (not_not.2 hl)
      obtain ⟨q', r', -, -, hplace', hlast⟩ := ht.resolve_left fun hc => by
        rw [hl] at hc
        rw [hc.1] at hplace
        cases hplace
      have he : r'.ipl = r.ipl := by
        rw [hplace] at hplace'
        exact (Link.next.inj hplace').symm
      subst hl
      exact ⟨hplace, by rw [← he]; exact hlast⟩
    · obtain ⟨hplace, hlast⟩ := ht.resolve_right fun hd => hl (h.drained hd)
      refine ⟨hplace.trans (lastLink_cons _ hl).symm, hlast.trans ?_⟩
      obtain ⟨y, l, rfl⟩ := exists_cons_of_ne_nil hl
      exact (getLast?_cons_cons ..).symm

/-! ## Writing -/

/-- What is kept of a record when packets like it are counted. -/
def Iplog.like (a b : Iplog) : Prop := a.seqnum = b.seqnum ∧ a.dsize = b.dsize ∧ a.data = b.data

/-- The buffer is filled in. -/
def Softl.fill (w : Softl B) (x : ℕ) (items : List (List (BitVec 8))) : Softl B :=
  { w with
    counter := w.counter + 1
    alloc := update w.alloc x true
    ipl := update w.ipl x ⟨1, w.counter + 1, sizeofIplog + items.flatten.length, items.flatten⟩
    mem := w.mem.set (.next x) none }

section Write

variable [Zero B] [DecidableEq B] {fin : Option (FrInfo B)} {items : List (List (BitVec 8))} {buf : Option ℕ}

/-- **What a call does:** it fails, or the packet is like the last one, or there is a new record. -/
theorem items_cases (w : Softl B) (fin : Option (FrInfo B)) (items : List (List (BitVec 8))) (buf : Option ℕ) :
    ((w.logsize : ℤ) < w.used + (sizeofIplog + items.flatten.length : ℕ) ∨ buf = none) ∧
        ipfLogItems w fin items buf = ({ w with counter := w.counter + 1, logfail := w.logfail + 1 }, -1) ∨
      ∃ x, buf = some x ∧ w.used + (sizeofIplog + items.flatten.length : ℕ) ≤ w.logsize ∧
        (w.merges fin = true ∧ ipfLogItems w fin items buf = ((w.fill x items).again.kfrees x, 0) ∨
          w.merges fin = false ∧ ipfLogItems w fin items buf =
            (Softl.link { w.fill x items with crc := w.remember fin } x (sizeofIplog + items.flatten.length), 0)) := by
  unfold ipfLogItems
  dsimp only
  split
  · rename_i hfull
    exact .inl ⟨.inl hfull, rfl⟩
  · rename_i hroom
    cases buf with
    | none => exact .inl ⟨.inr rfl, rfl⟩
    | some x =>
      refine .inr ⟨x, rfl, by omega, ?_⟩
      dsimp only
      split
      · rename_i hm
        exact .inl ⟨hm, rfl⟩
      · rename_i hm
        exact .inr ⟨by simpa [Softl.merges] using hm, rfl⟩

omit [Zero B] [DecidableEq B]

/-- The counted record stays what it is. -/
theorem again_like (w : Softl B) (y : ℕ) : (w.again.ipl y).like (w.ipl y) := by
  unfold Softl.again
  cases w.ipll with
  | none => exact ⟨rfl, rfl, rfl⟩
  | some x =>
    by_cases hy : y = x
    · subst hy
      simp [Iplog.like]
    · simp [Iplog.like, hy]

theorem fill_like (hx : w.alloc x = false) (hy : w.alloc y = true) : ((w.fill x items).ipl y).like (w.ipl y) := by
  have hyx : y ≠ x := by
    rintro rfl
    rw [hx] at hy
    cases hy
  unfold Softl.fill
  dsimp only
  rw [update_of_ne hyx]
  exact ⟨rfl, rfl, rfl⟩

/-- New memory is not on the list. -/
theorem Held.fresh (h : Held w l) (hx : w.alloc x = false) : x ∉ l := by
  intro hc
  rw [(h.alloc x).2 (.inl hc)] at hx
  cases hx

theorem again_fields (w : Softl B) : w.again = { w with ipl := w.again.ipl } := by
  unfold Softl.again
  split <;> rfl

/-- The memory that is in use, the list and the records are as before when a packet is counted only. -/
theorem again_eq (hx : w.alloc x = false) : (w.fill x items).again.kfrees x =
    { w with counter := w.counter + 1, ipl := (w.fill x items).again.ipl, mem := w.mem.set (.next x) none } := by
  have halloc : update w.alloc x false = w.alloc := update_eq_self_iff.2 hx.symm
  rw [again_fields]
  unfold Softl.kfrees Softl.fill
  dsimp only
  rw [update_idem, halloc]

theorem Held.again (h : Held w l) (hx : w.alloc x = false) : Held ((w.fill x items).again.kfrees x) l := by
  rw [again_eq hx]
  refine h.congr (h.list.congr (fun u _ => by simp) fun u n hn => ?_) rfl (fun _ => rfl) rfl (fun y hy => ?_) rfl
  · have hnx : x ≠ n := fun hc => h.fresh hx (hc ▸ hn)
    simp [hnx]
  · exact (again_like _ y).2.1.trans (fill_like hx hy).2.1

/-- **A new record** goes to the end. -/
theorem Held.link (h : Held w l) (ht : Tidy w l) (hx : w.alloc x = false) (items : List (List (BitVec 8)))
    (c : BitVec 32 × B) :
    Held (Softl.link { w.fill x items with crc := c } x (sizeofIplog + items.flatten.length)) (l ++ [x]) ∧
      Tidy (Softl.link { w.fill x items with crc := c } x (sizeofIplog + items.flatten.length)) (l ++ [x]) := by
  have hfresh := h.fresh hx
  have hinsert := h.list.insert (n := x) (h := ()) (mem_singleton_self _) (append_nil _).symm (fun _ => hfresh) rfl
  have hfun : update (fun _ => l) () (l ++ [x]) = fun _ => l ++ [x] := by
    funext u
    exact update_self _ _ _
  rw [hfun, h.list.get (mem_singleton_self _) (append_nil _).symm, ← ht.1] at hinsert
  have hne : ∀ y, w.alloc y = true → y ≠ x := by
    rintro y hy rfl
    rw [hx] at hy
    cases hy
  have hout : ∀ q r, w.reading q = some r → r.ipl ≠ x := fun q r hr => hne _ ((h.alloc _).2 (.inr ⟨q, r, hr, rfl⟩))
  unfold Softl.link Softl.fill
  refine ⟨⟨hinsert, ?_, fun y => ?_, fun q r hr => ⟨fun hc => ?_, ?_⟩, h.apart, fun L hL hin => ?_⟩, ?_, ?_⟩
  · have hmap : (l.map fun y => ((update w.ipl x
        ⟨1, w.counter + 1, sizeofIplog + items.flatten.length, items.flatten⟩ y).dsize : ℤ)) =
        l.map fun y => ((w.ipl y).dsize : ℤ) := by
      refine map_congr_left fun y hy => ?_
      have hyx : y ≠ x := fun hc => hfresh (hc ▸ hy)
      rw [update_of_ne hyx]
    dsimp only
    rw [map_append, sum_append, hmap, h.used]
    simp
  · dsimp only
    by_cases hyx : y = x
    · rw [hyx, update_self]
      exact iff_of_true rfl (.inl (by simp))
    · rw [update_of_ne hyx, h.alloc]
      simp [hyx]
  · rcases mem_append.1 hc with hc | hc
    · exact (h.out q r hr).1 hc
    · exact hout q r hr (mem_singleton.1 hc)
  · dsimp only
    rw [update_of_ne (hout q r hr)]
    exact (h.out q r hr).2
  · have hle : (L.erase x).length ≤ w.made := by
      refine h.made _ (hL.erase x) fun y hy => ?_
      obtain ⟨hyx, hyL⟩ := hL.mem_erase_iff.1 hy
      have := hin y hyL
      dsimp only at this
      rwa [update_of_ne hyx] at this
    have hlen : L.length ≤ (L.erase x).length + 1 := by
      by_cases hxL : x ∈ L
      · rw [length_erase_of_mem hxL]
        omega
      · rw [erase_of_not_mem hxL]
        omega
    exact le_trans hlen (Nat.succ_le_succ hle)
  · exact (lastLink_concat l).symm
  · exact (getLast?_concat).symm

end Write

/-! ## Clearing -/

theorem clearLoop_spec : ∀ (l : List ℕ) {w : Softl B} {i : ℕ}, Lists w.mem [()] (fun _ => l) → l.length ≤ i →
    ∃ mem : Mem Unit ℕ, mem.head () = none ∧
      clearLoop i w = { w with mem := mem, alloc := fun x => if x ∈ l then false else w.alloc x } := by
  intro l
  induction l with
  | nil =>
    intro w i hl _
    have hnone : w.iplt = none := hl.head (mem_singleton_self ())
    refine ⟨w.mem, hnone, ?_⟩
    simp only [not_mem_nil, if_false]
    cases i with
    | zero => rfl
    | succ i =>
      unfold clearLoop
      rw [hnone]
  | cons y l ih =>
    intro w i hl hi
    obtain ⟨j, rfl⟩ : ∃ j, i = j + 1 := ⟨i - 1, by rw [length_cons] at hi; omega⟩
    have hsome : w.iplt = some y := hl.head (mem_singleton_self ())
    have hremove := hl.remove (n := y) (h := ()) (mem_singleton_self _) (nil_append _).symm rfl
    have hfun : update (fun _ => y :: l) () ([] ++ l) = fun _ => l := by
      funext u
      exact update_self _ _ _
    rw [hfun, lastLink] at hremove
    obtain ⟨mem, hnone, heq⟩ :=
      ih (w := Softl.kfrees { w with mem := w.mem.set (.head ()) (w.mem.next y) } y) (i := j) hremove
      (by rw [length_cons] at hi; omega)
    refine ⟨mem, hnone, ?_⟩
    unfold clearLoop
    rw [hsome]
    dsimp only
    rw [heq]
    unfold Softl.kfrees
    dsimp only
    congr 1
    funext x
    by_cases hxy : x = y
    · subst hxy
      simp
    · simp [hxy]

/-- **Nothing is left** of the list. -/
theorem Held.clear [Zero B] (h : Held w l) : Held (ipfLogClear w).1 [] ∧ Tidy (ipfLogClear w).1 [] ∧
    (∀ x, (ipfLogClear w).1.alloc x = if x ∈ l then false else w.alloc x) ∧ (ipfLogClear w).1.ipl = w.ipl ∧
    (ipfLogClear w).1.counter = w.counter := by
  obtain ⟨mem, hnone, heq⟩ := clearLoop_spec l h.list h.length
  unfold ipfLogClear
  rw [heq]
  have hin : ∀ x, (if x ∈ l then false else w.alloc x) = true ↔ x ∉ l ∧ w.alloc x = true := by
    intro x
    by_cases hx : x ∈ l <;> simp [hx]
  refine ⟨⟨.nil fun _ _ => hnone, rfl, fun x => ?_, fun q r hr => ⟨by simp, (h.out q r hr).2⟩, h.apart,
    fun L hL hL' => ?_⟩, ⟨rfl, rfl⟩, fun _ => rfl, rfl, rfl⟩
  · dsimp only
    rw [hin, h.alloc]
    constructor
    · rintro ⟨hx, hx' | hx'⟩
      · exact absurd hx' hx
      · exact .inr hx'
    · rintro (hx | ⟨q, r, hr, rfl⟩)
      · cases hx
      · exact ⟨(h.out q r hr).1, .inr ⟨q, r, hr, rfl⟩⟩
  · exact h.made L hL fun x hx => ((hin x).1 (hL' x hx)).2

/-! ## What has happened -/

/-- **What has happened:** the number of calls of `ipf_log_items`, which record an address holds, what was accepted, what was
copied out, and what was cleared. A record has the number of the call it came with. -/
structure Tale where
  calls : ℕ
  id : ℕ → ℕ
  accepted : List (ℕ × List (BitVec 8))
  delivered : List (ℕ × Iplog)
  cleared : Set ℕ

/-- What a step adds. A packet like the last one is no new record. -/
def Tale.next [Zero B] [DecidableEq B] (g : Tale) (w : Softl B) : Op B → Tale
  | .items fin items buf =>
    match buf with
    | none => { g with calls := g.calls + 1 }
    | some x =>
      if (ipfLogItems w fin items buf).2 = 0 ∧ w.merges fin = false then { g with
        calls := g.calls + 1
        id := update g.id x (g.calls + 1)
        accepted := g.accepted ++ [(g.calls + 1, items.flatten)] }
      else { g with calls := g.calls + 1 }
  | .copied q =>
    match w.reading q with
    | none => g
    | some r => { g with delivered := g.delivered ++ [(g.id r.ipl, w.ipl r.ipl)] }
  | .clear => { g with
      cleared := g.cleared ∪ {n | ∃ x, w.alloc x = true ∧ (ipfLogClear w).1.alloc x = false ∧ g.id x = n} }
  | _ => g

/-- **Nothing is lost, and nothing is delivered twice or out of order.** -/
structure Told (w : Softl B) (g : Tale) : Prop where
  calls : w.counter = ofNat 32 g.calls
  accepted : (g.accepted.map fst).Pairwise (· < ·)
  before : ∀ a ∈ g.accepted, a.1 ≤ g.calls
  held : ∀ x, w.alloc x = true → (g.id x, (w.ipl x).data) ∈ g.accepted ∧ (w.ipl x).seqnum = ofNat 32 (g.id x) ∧
    (w.ipl x).dsize = sizeofIplog + (w.ipl x).data.length
  ids : ∀ x y, w.alloc x = true → w.alloc y = true → g.id x = g.id y → x = y
  delivered : (g.delivered.map fst).Pairwise (· < ·)
  right : ∀ d ∈ g.delivered, (d.1, d.2.data) ∈ g.accepted ∧ d.2.seqnum = ofNat 32 d.1 ∧
    d.2.dsize = sizeofIplog + d.2.data.length
  order : ∀ d ∈ g.delivered, ∀ x, w.alloc x = true → d.1 < g.id x
  cleared : ∀ n ∈ g.cleared, n ∈ g.accepted.map fst ∧ n ∉ g.delivered.map fst ∧ ∀ x, w.alloc x = true →
    g.id x ≠ n
  all : ∀ n ∈ g.accepted.map fst,
    n ∈ g.delivered.map fst ∨ n ∈ g.cleared ∨ ∃ x, w.alloc x = true ∧ g.id x = n

variable {g : Tale}

/-- The same records, after another number of calls. -/
theorem Told.keep (h : Told w g) {n : ℕ} (hn : g.calls ≤ n) (hcounter : w'.counter = ofNat 32 n)
    (halloc : ∀ x, w'.alloc x = w.alloc x) (hlike : ∀ x, w.alloc x = true → (w'.ipl x).like (w.ipl x)) :
    Told w' { g with calls := n } := by
  refine ⟨hcounter, h.accepted, fun a ha => le_trans (h.before a ha) hn, fun x hx => ?_, fun x y hx hy => ?_, h.delivered,
    h.right, fun d hd x hx => ?_, fun m hm => ?_, fun m hm => ?_⟩
  · rw [halloc] at hx
    obtain ⟨h1, h2, h3⟩ := hlike x hx
    rw [h1, h2, h3]
    exact h.held x hx
  · rw [halloc] at hx hy
    exact h.ids x y hx hy
  · rw [halloc] at hx
    exact h.order d hd x hx
  · obtain ⟨h1, h2, h3⟩ := h.cleared m hm
    refine ⟨h1, h2, fun x hx => ?_⟩
    rw [halloc] at hx
    exact h3 x hx
  · refine (h.all m hm).imp_right (Or.imp_right ?_)
    rintro ⟨x, hx, he⟩
    exact ⟨x, (halloc x).trans hx, he⟩

theorem mem_fst {α β : Type} {L : List (α × β)} {a : α} {b : β} (h : (a, b) ∈ L) : a ∈ L.map fst := mem_map_of_mem h

/-- **A new record** has the greatest number. -/
theorem Told.add (h : Told w g) (hx : w.alloc x = false) (hcounter : w'.counter = w.counter + 1)
    (halloc : w'.alloc = update w.alloc x true) {data : List (BitVec 8)}
    (hnew : w'.ipl x = ⟨1, w.counter + 1, sizeofIplog + data.length, data⟩)
    (hlike : ∀ y, w.alloc y = true → (w'.ipl y).like (w.ipl y)) : Told w' { g with
      calls := g.calls + 1
      id := update g.id x (g.calls + 1)
      accepted := g.accepted ++ [(g.calls + 1, data)] } := by
  have hcalls : w.counter + 1 = ofNat 32 (g.calls + 1) := by
    rw [h.calls, ofNat_add]
    rfl
  -- the new record, or one of before
  have hcases : ∀ y, w'.alloc y = true → y = x ∨ y ≠ x ∧ w.alloc y = true := by
    intro y hy
    by_cases hyx : y = x
    · exact .inl hyx
    · rw [halloc, update_of_ne hyx] at hy
      exact .inr ⟨hyx, hy⟩
  have hbefore : ∀ n ∈ g.accepted.map fst, n ≤ g.calls := by
    intro n hn
    obtain ⟨a, ha, rfl⟩ := mem_map.1 hn
    exact h.before a ha
  -- records in memory have smaller numbers
  have hlive : ∀ y, w.alloc y = true → g.id y ≤ g.calls := fun y hy => hbefore _ (mem_fst (h.held y hy).1)
  have hdelivered : ∀ d ∈ g.delivered, d.1 ≤ g.calls := fun d hd => hbefore _ (mem_fst (h.right d hd).1)
  refine ⟨hcounter.trans hcalls, ?_, fun a ha => ?_, fun y hy => ?_, fun y z hy hz he => ?_, h.delivered, fun d hd => ?_,
    fun d hd y hy => ?_, fun n hn => ?_, fun n hn => ?_⟩
  · rw [map_append, pairwise_append]
    refine ⟨h.accepted, by simp, fun n hn m hm => ?_⟩
    obtain rfl : m = g.calls + 1 := by simpa using hm
    exact Nat.lt_succ_of_le (hbefore n hn)
  · rcases mem_append.1 ha with ha | ha
    · exact Nat.le_succ_of_le (h.before a ha)
    · exact le_of_eq (congrArg fst (mem_singleton.1 ha))
  · dsimp only
    rcases hcases y hy with rfl | ⟨hyx, hy⟩
    · rw [update_self, hnew]
      exact ⟨by simp, hcalls, rfl⟩
    · obtain ⟨h1, h2, h3⟩ := hlike y hy
      rw [update_of_ne hyx, h1, h2, h3]
      exact ⟨mem_append_left _ (h.held y hy).1, (h.held y hy).2⟩
  · dsimp only at he
    rcases hcases y hy with rfl | ⟨hyx, hy⟩
    · rcases hcases z hz with rfl | ⟨hzx, hz⟩
      · rfl
      · rw [update_self, update_of_ne hzx] at he
        have := hlive z hz
        omega
    · rw [update_of_ne hyx] at he
      rcases hcases z hz with rfl | ⟨hzx, hz⟩
      · rw [update_self] at he
        have := hlive y hy
        omega
      · rw [update_of_ne hzx] at he
        exact h.ids y z hy hz he
  · exact ⟨mem_append_left _ (h.right d hd).1, (h.right d hd).2⟩
  · dsimp only
    rcases hcases y hy with rfl | ⟨hyx, hy⟩
    · rw [update_self]
      exact Nat.lt_succ_of_le (hdelivered d hd)
    · rw [update_of_ne hyx]
      exact h.order d hd y hy
  · obtain ⟨h1, h2, h3⟩ := h.cleared n hn
    refine ⟨?_, h2, fun y hy => ?_⟩
    · rw [map_append]
      exact mem_append_left _ h1
    · dsimp only
      rcases hcases y hy with rfl | ⟨hyx, hy⟩
      · rw [update_self]
        have := hbefore n h1
        omega
      · rw [update_of_ne hyx]
        exact h3 y hy
  · dsimp only
    rw [map_append, mem_append] at hn
    rcases hn with hn | hn
    · refine (h.all n hn).imp_right (Or.imp_right ?_)
      rintro ⟨y, hy, he⟩
      have hyx : y ≠ x := by
        rintro rfl
        rw [hx] at hy
        cases hy
      refine ⟨y, ?_, ?_⟩
      · rw [halloc, update_of_ne hyx]
        exact hy
      · rw [update_of_ne hyx]
        exact he
    · obtain rfl : n = g.calls + 1 := by simpa using hn
      refine .inr (.inr ⟨x, ?_, update_self _ _ _⟩)
      rw [halloc, update_self]

/-- **A record is delivered,** when all others that are there came later. -/
theorem Told.deliver (h : Told w g) (hx : w.alloc x = true) (hmin : ∀ y, w.alloc y = true → y ≠ x → g.id x < g.id y)
    (hcounter : w'.counter = w.counter) (halloc : w'.alloc = update w.alloc x false) (hipl : w'.ipl = w.ipl) :
    Told w' { g with delivered := g.delivered ++ [(g.id x, w.ipl x)] } := by
  have hcases : ∀ y, w'.alloc y = true → y ≠ x ∧ w.alloc y = true := by
    intro y hy
    by_cases hyx : y = x
    · rw [hyx, halloc, update_self] at hy
      cases hy
    · rw [halloc, update_of_ne hyx] at hy
      exact ⟨hyx, hy⟩
  refine ⟨hcounter.trans h.calls, h.accepted, h.before, fun y hy => ?_, fun y z hy hz => ?_, ?_, fun d hd => ?_,
    fun d hd y hy => ?_, fun n hn => ?_, fun n hn => ?_⟩
  · rw [hipl]
    exact h.held y (hcases y hy).2
  · exact h.ids y z (hcases y hy).2 (hcases z hz).2
  · rw [map_append, pairwise_append]
    refine ⟨h.delivered, by simp, fun n hn m hm => ?_⟩
    obtain ⟨d, hd, rfl⟩ := mem_map.1 hn
    obtain rfl : m = g.id x := by simpa using hm
    exact h.order d hd x hx
  · rcases mem_append.1 hd with hd | hd
    · exact h.right d hd
    · rw [mem_singleton.1 hd]
      exact h.held x hx
  · obtain ⟨hyx, hy⟩ := hcases y hy
    rcases mem_append.1 hd with hd | hd
    · exact h.order d hd y hy
    · rw [mem_singleton.1 hd]
      exact hmin y hy hyx
  · obtain ⟨h1, h2, h3⟩ := h.cleared n hn
    refine ⟨h1, ?_, fun y hy => h3 y (hcases y hy).2⟩
    rw [map_append, mem_append, not_or]
    refine ⟨h2, fun hc => h3 x hx ?_⟩
    obtain rfl : n = g.id x := by simpa using hc
    rfl
  · dsimp only
    rw [map_append, mem_append]
    rcases h.all n hn with h1 | h1 | ⟨y, hy, rfl⟩
    · exact .inl (.inl h1)
    · exact .inr (.inl h1)
    · by_cases hyx : y = x
      · exact .inl (.inr (by rw [hyx]; exact mem_singleton_self _))
      · refine .inr (.inr ⟨y, ?_, rfl⟩)
        rw [halloc, update_of_ne hyx]
        exact hy

/-- **Records are cleared.** -/
theorem Told.clear (h : Told w g) (hcounter : w'.counter = w.counter)
    (halloc : ∀ x, w'.alloc x = true → w.alloc x = true) (hipl : w'.ipl = w.ipl) :
    Told w' { g with cleared := g.cleared ∪ {n | ∃ x, w.alloc x = true ∧ w'.alloc x = false ∧ g.id x = n} } := by
  refine ⟨hcounter.trans h.calls, h.accepted, h.before, fun y hy => ?_,
    fun y z hy hz => h.ids y z (halloc y hy) (halloc z hz),
    h.delivered, h.right, fun d hd y hy => h.order d hd y (halloc y hy), fun n hn => ?_, fun n hn => ?_⟩
  · rw [hipl]
    exact h.held y (halloc y hy)
  · rcases hn with hn | ⟨x, hx, hx', rfl⟩
    · obtain ⟨h1, h2, h3⟩ := h.cleared n hn
      exact ⟨h1, h2, fun y hy => h3 y (halloc y hy)⟩
    · refine ⟨mem_fst (h.held x hx).1, fun hc => ?_, fun y hy he => ?_⟩
      · obtain ⟨d, hd, he⟩ := mem_map.1 hc
        have := h.order d hd x hx
        omega
      · rw [h.ids y x (halloc y hy) hx he, hx'] at hy
        cases hy
  · rcases h.all n hn with h1 | h1 | ⟨y, hy, rfl⟩
    · exact .inl h1
    · exact .inr (.inl (.inl h1))
    · cases hy' : w'.alloc y with
      | true => exact .inr (.inr ⟨y, hy', rfl⟩)
      | false => exact .inr (.inl (.inr ⟨y, hy, hy', rfl⟩))

/-! ## Runs -/

theorem readEnd_fields (w : Softl B) (q : ℕ) :
    (w.readEnd q).alloc = w.alloc ∧ (w.readEnd q).ipl = w.ipl ∧ (w.readEnd q).counter = w.counter := by
  unfold Softl.readEnd
  dsimp only
  split <;> exact ⟨rfl, rfl, rfl⟩

theorem readNext_fields (w : Softl B) (q n : ℕ) :
    (w.readNext q n).alloc = w.alloc ∧ (w.readNext q n).ipl = w.ipl ∧ (w.readNext q n).counter = w.counter := by
  unfold Softl.readNext
  split
  · exact readEnd_fields w q
  · dsimp only
    split
    · exact readEnd_fields w q
    · exact ⟨rfl, rfl, rfl⟩

/-- The same records, the same story. -/
theorem Told.same (h : Told w g) (hf : w'.alloc = w.alloc ∧ w'.ipl = w.ipl ∧ w'.counter = w.counter) : Told w' g := by
  obtain ⟨halloc, hipl, hcounter⟩ := hf
  refine h.keep le_rfl (hcounter.trans h.calls) (fun x => by rw [halloc]) fun x _ => ?_
  rw [hipl]
  exact ⟨rfl, rfl, rfl⟩

/-- **The queue is right:** the records on the list are in order, and the end of the list is known unless the last record is
copied out. -/
structure Queue (w : Softl B) (g : Tale) (l : List ℕ) : Prop where
  held : Held w l
  tail : Tidy w l ∨ Drained w
  told : Told w g
  sorted : l.Pairwise fun x y => g.id x < g.id y

theorem Queue.read (h : Queue w g l) (hq : w.reading q = none) (n : ℕ) : ∃ l', Queue (ipfLogRead w q n).1 g l' := by
  unfold ipfLogRead
  split
  · exact ⟨l, h⟩
  split
  · exact ⟨l, h⟩
  split
  · exact ⟨l, h⟩
  split
  · exact ⟨l, h⟩
  rename_i y hy
  have htidy : Tidy w l := by
    refine h.tail.resolve_right ?_
    rintro ⟨q', r, hnone, -⟩
    rw [hnone] at hy
    cases hy
  obtain ⟨l', hheld, htail, hsub⟩ := h.held.readNext (.inr htidy) hq n
  exact ⟨l', hheld, htail, h.told.same (readNext_fields w q n), h.sorted.sublist hsub⟩

variable [Zero B] [DecidableEq B]

/-- New memory was not in use, and a call that has not returned does not start. -/
def Legal (w : Softl B) : Op B → Prop
  | .items _ _ buf => ∀ x, buf = some x → w.alloc x = false
  | .read q _ => w.reading q = none
  | _ => True

/-- **Steps that keep the queue in order.** Nothing new is linked while the last record is copied out. A record is copied out
before those that came later. A record that could not be copied comes before the first one on the list; or the list is
empty and still ends in that record. -/
def Calm (w : Softl B) (g : Tale) : Op B → Prop
  | .items fin items buf => buf ≠ none → w.used + (sizeofIplog + items.flatten.length : ℕ) ≤ w.logsize →
    w.merges fin = false → ¬Drained w
  | .copied q => ∀ r, w.reading q = some r → ∀ y, w.alloc y = true → y ≠ r.ipl → g.id r.ipl < g.id y
  | .failed q => ∀ r, w.reading q = some r →
    (∃ y, w.iplt = some y ∧ g.id r.ipl < g.id y) ∨ w.iplt = none ∧ w.iplh = .next r.ipl
  | _ => True

/-- **Runs** in which every step satisfies `ok`, with what has happened. -/
inductive Run (ok : Softl B → Tale → Op B → Prop) (w₀ : Softl B) : Softl B → Tale → Prop
  | start : Run ok w₀ w₀ ⟨0, fun _ => 0, [], [], ∅⟩
  | step {w : Softl B} {g : Tale} (op : Op B) (hr : Run ok w₀ w g) (hlegal : Legal w op) (hok : ok w g op) :
    Run ok w₀ (step w op) (g.next w op)

theorem Queue.copied (h : Queue w g l) (hok : Calm w g (.copied q)) :
    ∃ l', Queue (copied w q) (g.next w (.copied q)) l' := by
  obtain ⟨l', hheld, htail, hsub⟩ := h.held.copied h.tail q
  have hsorted := h.sorted.sublist hsub
  cases hr : w.reading q with
  | none =>
    have hcall : IpLog.copied w q = w := by
      unfold IpLog.copied
      rw [hr]
    have hnext : g.next w (.copied q) = g := by
      unfold Tale.next
      dsimp only
      rw [hr]
    rw [hcall, hnext]
    exact ⟨l, h⟩
  | some r =>
    have hnext : g.next w (.copied q) = { g with delivered := g.delivered ++ [(g.id r.ipl, w.ipl r.ipl)] } := by
      unfold Tale.next
      dsimp only
      rw [hr]
    have hcall : IpLog.copied w q = (w.kfrees r.ipl).readNext q (r.resid - r.dlen) := by
      unfold IpLog.copied
      rw [hr]
    obtain ⟨halloc, hipl, hcounter⟩ := readNext_fields (w.kfrees r.ipl) q (r.resid - r.dlen)
    rw [← hcall] at halloc hipl hcounter
    rw [hnext]
    refine ⟨l', hheld, htail, ?_, hsorted⟩
    exact h.told.deliver ((h.held.alloc _).2 (.inr ⟨q, r, hr, rfl⟩)) (hok r hr) hcounter halloc hipl

omit [Zero B] in
theorem Queue.failed (h : Queue w g l) (hok : Calm w g (.failed q)) : ∃ l', Queue (failed w q) g l' := by
  cases hr : w.reading q with
  | none =>
    have hcall : IpLog.failed w q = w := by
      unfold IpLog.failed
      rw [hr]
    rw [hcall]
    exact ⟨l, h⟩
  | some r =>
    have hfields : (IpLog.failed w q).alloc = w.alloc ∧ (IpLog.failed w q).ipl = w.ipl ∧
        (IpLog.failed w q).counter = w.counter := by
      unfold IpLog.failed
      rw [hr]
      exact readEnd_fields _ q
    have hend : l ≠ [] ∨ w.iplh = .next r.ipl := by
      rcases hok r hr with ⟨y, hy, -⟩ | ⟨-, hplace⟩
      · rw [h.held.iplt] at hy
        refine .inl ?_
        rintro rfl
        cases hy
      · exact .inr hplace
    obtain ⟨hheld, htidy⟩ := h.held.failed h.tail hr hend
    refine ⟨r.ipl :: l, hheld, .inl htidy, h.told.same hfields, pairwise_cons.2 ⟨fun x hx => ?_, h.sorted⟩⟩
    -- the record comes before the first one, and so before all
    cases l with
    | nil => cases hx
    | cons y l =>
      have hy : w.iplt = some y := h.held.iplt
      have hlt : g.id r.ipl < g.id y := by
        rcases hok r hr with ⟨z, hz, hlt⟩ | ⟨hnone, -⟩
        · rw [hy] at hz
          cases hz
          exact hlt
        · rw [hy] at hnone
          cases hnone
      rcases mem_cons.1 hx with rfl | hx
      · exact hlt
      · exact lt_trans hlt ((pairwise_cons.1 h.sorted).1 x hx)

theorem Queue.items (h : Queue w g l) {fin : Option (FrInfo B)} {items : List (List (BitVec 8))} {buf : Option ℕ}
    (hlegal : Legal w (.items fin items buf)) (hok : Calm w g (.items fin items buf)) :
    ∃ l', Queue (ipfLogItems w fin items buf).1 (g.next w (.items fin items buf)) l' := by
  have hcount : w.counter + 1 = ofNat 32 (g.calls + 1) := by
    rw [h.told.calls, ofNat_add]
    rfl
  rcases items_cases w fin items buf with ⟨-, heq⟩ | ⟨x, rfl, hroom, ⟨hm, heq⟩ | ⟨hm, heq⟩⟩
  · -- the call fails
    have hnext : g.next w (.items fin items buf) = { g with calls := g.calls + 1 } := by
      unfold Tale.next
      cases buf with
      | none => rfl
      | some x =>
        dsimp only
        rw [heq]
        exact if_neg fun hc => absurd hc.1 (show (-1 : ℤ) ≠ 0 by decide)
    rw [heq, hnext]
    refine ⟨l, ?_, ?_, ?_, h.sorted⟩
    · exact h.held.congr h.held.list rfl (fun _ => rfl) rfl (fun _ _ => rfl) rfl
    · exact h.tail
    · exact h.told.keep (Nat.le_succ _) hcount (fun _ => rfl) fun _ _ => ⟨rfl, rfl, rfl⟩
  · -- the packet is counted with the last one
    have hx : w.alloc x = false := hlegal x rfl
    have hnext : g.next w (.items fin items (some x)) = { g with calls := g.calls + 1 } := by
      unfold Tale.next
      dsimp only
      refine if_neg fun hc => ?_
      rw [hm] at hc
      cases hc.2
    have hheld : Held ((w.fill x items).again.kfrees x) l := h.held.again hx
    rw [heq, hnext]
    rw [again_eq hx] at hheld ⊢
    refine ⟨l, hheld, ?_, ?_, h.sorted⟩
    · refine h.tail.imp id ?_
      rintro ⟨q, r, hnone, hrest⟩
      refine ⟨q, r, ?_, hrest⟩
      change (w.mem.set (.next x) none).head () = none
      rw [head_set, if_neg (by simp)]
      exact hnone
    · refine h.told.keep (Nat.le_succ _) hcount (fun _ => rfl) fun y hy => ?_
      obtain ⟨h1, h2, h3⟩ := again_like (w.fill x items) y
      obtain ⟨h4, h5, h6⟩ : ((w.fill x items).ipl y).like (w.ipl y) := fill_like hx hy
      exact ⟨h1.trans h4, h2.trans h5, h3.trans h6⟩
  · -- a new record is linked
    have hx : w.alloc x = false := hlegal x rfl
    have hnext : g.next w (.items fin items (some x)) = { g with
        calls := g.calls + 1
        id := update g.id x (g.calls + 1)
        accepted := g.accepted ++ [(g.calls + 1, items.flatten)] } := by
      unfold Tale.next
      dsimp only
      rw [heq]
      exact if_pos ⟨rfl, hm⟩
    have htidy : Tidy w l := h.tail.resolve_right (hok (by simp) hroom hm)
    obtain ⟨hheld, htidy'⟩ := h.held.link htidy hx items (w.remember fin)
    rw [heq, hnext]
    refine ⟨l ++ [x], hheld, .inl htidy', ?_, ?_⟩
    · exact h.told.add hx rfl rfl (update_self _ _ _) fun y hy => fill_like hx hy
    · have hfresh := h.held.fresh hx
      rw [pairwise_append]
      refine ⟨h.sorted.imp_of_mem fun {y z} hy hz hlt => ?_, by simp, fun y hy z hz => ?_⟩
      · have hyx : y ≠ x := fun hc => hfresh (hc ▸ hy)
        have hzx : z ≠ x := fun hc => hfresh (hc ▸ hz)
        dsimp only
        rw [update_of_ne hyx, update_of_ne hzx]
        exact hlt
      · obtain rfl := mem_singleton.1 hz
        have hyx : y ≠ z := fun hc => hfresh (hc ▸ hy)
        dsimp only
        rw [update_self, update_of_ne hyx]
        have hheld := h.told.held y ((h.held.alloc y).2 (.inl hy))
        exact Nat.lt_succ_of_le (h.told.before _ hheld.1)

theorem Queue.clear (h : Queue w g l) : ∃ l', Queue (ipfLogClear w).1 (g.next w .clear) l' := by
  obtain ⟨hheld, htidy, halloc, hipl, hcounter⟩ := h.held.clear
  refine ⟨[], hheld, .inl htidy, ?_, .nil⟩
  refine h.told.clear hcounter (fun x hx => ?_) hipl
  rw [halloc] at hx
  split at hx
  · cases hx
  · exact hx

/-- **One step.** -/
theorem Queue.step (h : Queue w g l) {op : Op B} (hlegal : Legal w op) (hok : Calm w g op) :
    ∃ l', Queue (IpLog.step w op) (g.next w op) l' := by
  cases op with
  | items fin items buf => exact h.items hlegal hok
  | read q resid => exact h.read hlegal resid
  | copied q => exact h.copied hok
  | failed q => exact h.failed hok
  | clear => exact h.clear
  | tune logsize suppress =>
    exact ⟨l, h.held.congr h.held.list rfl (fun _ => rfl) rfl (fun _ _ => rfl) rfl, h.tail, h.told.same ⟨rfl, rfl, rfl⟩,
      h.sorted⟩

omit [DecidableEq B] in
theorem init_queue (logsize : ℕ) (suppress : Bool) (ipl : ℕ → Iplog) :
    Queue (init logsize suppress ipl : Softl B) ⟨0, fun _ => 0, [], [], ∅⟩ [] where
  held := by
    refine ⟨.nil fun _ _ => rfl, rfl, fun x => by simp [init], ?_, ?_, fun L _ hL => ?_⟩
    · rintro q r ⟨⟩
    · rintro q r q' r' ⟨⟩
    · cases L with
      | nil => exact le_rfl
      | cons x L => cases hL x mem_cons_self
  tail := .inl ⟨rfl, rfl⟩
  told := {
    calls := rfl
    accepted := .nil
    before := fun a ha => by cases ha
    held := fun x hx => by cases hx
    ids := fun x y hx => by cases hx
    delivered := .nil
    right := fun d hd => by cases hd
    order := fun d hd => by cases hd
    cleared := fun n hn => by cases hn
    all := fun n hn => by cases hn }
  sorted := .nil

/-- **Records reach the readers:** in every run whose steps keep the queue in order, the bytes that are used are those of the
records on the list; every record that was accepted was delivered once, was cleared, or is still on the list or copied out; they
are delivered with what was accepted, in the order of their numbers; and the end of the list is known exactly when it is not the
last record that is copied out. -/
theorem run_log {logsize : ℕ} {suppress : Bool} {ipl : ℕ → Iplog}
    (hr : Run Calm (init logsize suppress ipl : Softl B) w g) :
    ∃ l, Held w l ∧ Told w g ∧ (l.Pairwise fun x y => g.id x < g.id y) ∧ (Tidy w l ↔ ¬Drained w) := by
  have hinv : ∃ l, Queue w g l := by
    induction hr with
    | start => exact ⟨[], init_queue logsize suppress ipl⟩
    | step op _ hlegal hok ih =>
      obtain ⟨l, h⟩ := ih
      exact h.step hlegal hok
  obtain ⟨l, h⟩ := hinv
  exact ⟨l, h.held, h.told, h.sorted, h.held.tidy_iff h.tail⟩

/-! ## Two records -/

/-- No records, and no suppression. -/
def empty : Softl ℕ := init 1000 false fun _ => ⟨0, 0, 0, []⟩

/-- The state after steps, and what has happened. -/
def after (ops : List (Op ℕ)) : Softl ℕ × Tale :=
  ops.foldl (fun r op => (step r.1 op, r.2.next r.1 op)) (empty, ⟨0, fun _ => 0, [], [], ∅⟩)

/-- One step more. -/
theorem run_snoc {ok : Softl ℕ → Tale → Op ℕ → Prop} {ops : List (Op ℕ)} (op : Op ℕ)
    (hr : Run ok empty (after ops).1 (after ops).2) (hlegal : Legal (after ops).1 op)
    (hok : ok (after ops).1 (after ops).2 op) : Run ok empty (after (ops ++ [op])).1 (after (ops ++ [op])).2 := by
  unfold after at hr hlegal hok ⊢
  rw [foldl_append]
  exact .step op hr hlegal hok

/-- A record of one byte. -/
def put (byte : BitVec 8) (buf : ℕ) : Op ℕ := .items none [[byte]] (some buf)

theorem empty_run (ok : Softl ℕ → Tale → Op ℕ → Prop) : Run ok empty (after []).1 (after []).2 := .start

/-- A record is accepted, copied out, comes back, and is copied out again. -/
theorem run_log_back : ∃ w g l, Run Calm empty w g ∧ g.delivered.map Prod.fst = [1] ∧ Held w l ∧
    (Tidy w l ↔ ¬Drained w) := by
  have h1 := run_snoc (put 7 0) (empty_run Calm) (fun _ _ => rfl) fun _ _ _ => by
    rintro ⟨q, r, -, hr, -⟩
    cases hr
  have h2 := run_snoc (.read 0 100) h1 rfl trivial
  have h3 := run_snoc (.failed 0) h2 trivial fun r hr => by
    obtain rfl : r = ⟨0, 49, 100⟩ := Option.some.inj (hr.symm.trans (by decide))
    exact .inr ⟨by decide, by decide⟩
  have h4 := run_snoc (.read 0 100) h3 rfl trivial
  have h5 := run_snoc (.copied 0) h4 trivial fun r hr y hy hne => by
    obtain rfl : r = ⟨0, 49, 100⟩ := Option.some.inj (hr.symm.trans (by decide))
    change update (fun _ => false) 0 true y = true at hy
    rw [update_of_ne hne] at hy
    cases hy
  obtain ⟨l, hheld, -, -, htail⟩ := run_log h5
  exact ⟨_, _, l, h5, by decide, hheld, htail⟩

/-- **A record is lost,** when it comes while the one before it is copied out and the list is empty: it is linked behind that
one, which is freed. And two readers deliver two records in the wrong order. -/
theorem record_lost :
    (∃ w g, Run (fun _ _ _ => True) empty w g ∧ g.accepted.map Prod.fst = [1, 2] ∧ g.delivered.map Prod.fst = [1] ∧
      g.cleared = ∅ ∧ w.iplt = none ∧ ∀ q, w.reading q = none) ∧
    ∃ w g, Run (fun _ _ _ => True) empty w g ∧ g.delivered.map Prod.fst = [2, 1] := by
  have h1 := run_snoc (put 7 0) (empty_run fun _ _ _ => True) (fun _ _ => rfl) trivial
  have h2 := run_snoc (.read 0 100) h1 rfl trivial
  have h3 := run_snoc (put 8 1) h2 (by rintro x ⟨⟩; decide) trivial
  have h4 := run_snoc (.copied 0) h3 trivial trivial
  have k2 := run_snoc (put 8 1) h1 (by rintro x ⟨⟩; decide) trivial
  have k3 := run_snoc (.read 0 100) k2 rfl trivial
  have k4 := run_snoc (.read 1 100) k3 rfl trivial
  have k5 := run_snoc (.copied 1) k4 trivial trivial
  have k6 := run_snoc (.copied 0) k5 trivial trivial
  refine ⟨⟨_, _, h4, by decide, by decide, rfl, by decide, fun q => ?_⟩, _, _, k6, by decide⟩
  change update (update (fun _ => none) 0 _) 0 none q = none
  by_cases hq : q = 0 <;> simp [hq]

end Ipfilter.IpLog
