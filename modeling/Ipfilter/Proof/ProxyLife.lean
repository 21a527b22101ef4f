import Ipfilter.Refs.Count
import Ipfilter.Spec.ProxyLife

/-!
# The life of proxy sessions

* `Rules`: the references to rules and proxies are counted.
* `Sess`: the list of sessions holds exactly those that an entry owns, and these and their private data are what is allocated.
* `Rules.ruleDeref`, `Sess.new`, `Sess.free`: what the functions do to them.
* `Right`: **what should hold in each state,** and that the next step releases nothing twice.
* `sessions_kept`: so it is in all runs of `Calm` steps.
* `control_leaks`: other runs.
-/

namespace Ipfilter.ProxyLife

open Chain Refs List Option
open Function (update update_of_ne update_self)

variable {Name : Type} {w w' : Soft Name} {hand : ℕ → ℕ} {L : List ℕ} {own : ℕ → Option ℕ} {n e x a : ℕ}

theorem kfree_eq {l : List ℕ} (hx : x ∈ l) : kfree l x = some (l.erase x) := if_pos hx

/-! ## Rules -/

/-- The places that hold a rule: the list of rules, entries, and local variables. -/
noncomputable def Soft.ruleTotal (w : Soft Name) (hand : ℕ → ℕ) (n : ℕ) : ℕ :=
  (if n ∈ w.natList then 1 else 0) + holders {e | e ∈ w.nats} (fun e => (w.nat e).natPtr) n + hand n

/-- **References to rules and proxies are counted.** -/
structure Rules (w : Soft Name) (hand : ℕ → ℕ) : Prop where
  count : Counted (· ∈ w.rules) (fun n => (w.ipn n).inUse) (w.ruleTotal hand)
  nodup : w.rules.Nodup
  listed : w.natList.Nodup
  refs : ∀ a, (w.apr a).aprRef = holders {n | n ∈ w.rules} (fun n => (w.ipn n).inApr) a

/-- A reference more in a local variable. -/
def bump (hand : ℕ → ℕ) (n m : ℕ) : ℕ := hand m + if m = n then 1 else 0

theorem Rules.congr (h : Rules w hand) {hand' : ℕ → ℕ} (hrules : w'.rules = w.rules) (hlist : w'.natList.Nodup)
    (hipn : w'.ipn = w.ipn) (hapr : w'.apr = w.apr) (htotal : ∀ n, w'.ruleTotal hand' n = w.ruleTotal hand n) :
      Rules w' hand' where
  count := by
    rw [hrules, hipn]
    exact h.count.congr (fun _ => Iff.rfl) (fun _ _ => rfl) htotal
  nodup := by
    rw [hrules]
    exact h.nodup
  listed := hlist
  refs := by
    rw [hrules, hipn, hapr]
    exact h.refs

theorem addRef_ref (w : Soft Name) (a b : ℕ) (k : ℤ) :
    ((w.addRef a k).apr b).aprRef = (w.apr b).aprRef + if b = a then k else 0 := by
  unfold Soft.addRef
  dsimp only
  by_cases hb : b = a
  · rw [hb, update_self, if_pos rfl]
  · rw [update_of_ne hb, if_neg hb, add_zero]

theorem addRef_del (w : Soft Name) (a b : ℕ) (k : ℤ) : ((w.addRef a k).apr b).aprDel = (w.apr b).aprDel := by
  unfold Soft.addRef
  dsimp only
  by_cases hb : b = a
  · rw [hb, update_self]
  · rw [update_of_ne hb]

/-- The use of a rule changes only the count. -/
theorem addUse_apr (w : Soft Name) (n m : ℕ) (k : ℤ) : ((w.addUse n k).ipn m).inApr = (w.ipn m).inApr := by
  unfold Soft.addUse
  dsimp only
  by_cases hm : m = n
  · rw [hm, update_self]
  · rw [update_of_ne hm]

theorem addUse_use (w : Soft Name) (n m : ℕ) (k : ℤ) :
    ((w.addUse n k).ipn m).inUse = (w.ipn m).inUse + if m = n then k else 0 := by
  unfold Soft.addUse
  dsimp only
  by_cases hm : m = n
  · rw [hm, update_self, if_pos rfl]
  · rw [update_of_ne hm, if_neg hm, add_zero]

/-- The proxy of a rule loses the reference of the rule. -/
def Soft.dropApr (w : Soft Name) (n : ℕ) : Soft Name :=
  match (w.ipn n).inApr with
  | some a => ipfProxyDeref w a
  | none => w

theorem dropApr_apr (w : Soft Name) (n b : ℕ) : ((w.dropApr n).apr b).aprRef =
    (w.apr b).aprRef - if (w.ipn n).inApr = some b then 1 else 0 := by
  unfold Soft.dropApr
  cases hn : (w.ipn n).inApr with
  | none => simp
  | some a =>
    dsimp only
    unfold ipfProxyDeref
    rw [addRef_ref]
    by_cases hb : b = a
    · simp [hb]
      omega
    · have hab : ¬a = b := Ne.symm hb
      simp [hb, hab]

theorem dropApr_eq (w : Soft Name) (n : ℕ) :
    ∃ apr, w.dropApr n = { w with apr := apr } ∧ ∀ b, (apr b).aprDel = (w.apr b).aprDel := by
  unfold Soft.dropApr
  cases (w.ipn n).inApr with
  | none => exact ⟨w.apr, rfl, fun _ => rfl⟩
  | some a => exact ⟨(w.addRef a (-1)).apr, rfl, fun b => addRef_del w a b (-1)⟩

/-- **A reference to a rule is given back;** with the last one the rule goes, and its reference to its proxy. -/
theorem Rules.ruleDeref (h : Rules w (bump hand n)) : ∃ w', ipfNatRuleDeref w n = some w' ∧ Rules w' hand ∧
    ∃ ipn apr rules, w' = { w with ipn := ipn, apr := apr, rules := rules } ∧ ∀ b, (apr b).aprDel = (w.apr b).aprDel := by
  have hpos : 0 < w.ruleTotal (bump hand n) n := by
    unfold Soft.ruleTotal bump
    rw [if_pos rfl]
    omega
  have hn : n ∈ w.rules := (h.count.pos n).2 hpos
  have hexact := h.count.exact n hn
  have huse : ((w.addUse n (-1)).ipn n).inUse = (w.ipn n).inUse - 1 := by
    rw [addUse_use, if_pos rfl]
    rfl
  have htotal : ∀ m, w.ruleTotal (bump hand n) m = w.ruleTotal hand m + if m = n then 1 else 0 := by
    intro m
    unfold Soft.ruleTotal bump
    omega
  have hcount : ∀ m, ((w.addUse n (-1)).ipn m).inUse = (w.ipn m).inUse - if m = n then 1 else 0 := by
    intro m
    rw [addUse_use]
    split <;> omega
  unfold ipfNatRuleDeref
  rw [if_neg (not_not.2 hn)]
  dsimp only
  by_cases hlast : ((w.addUse n (-1)).ipn n).inUse > 0
  · rw [if_pos hlast]
    refine ⟨_, rfl, ⟨?_, h.nodup, h.listed, ?_⟩, _, _, _, rfl, fun _ => rfl⟩
    · refine h.count.drop htotal (fun m _ => hcount m) fun m => ?_
      change m ∈ w.rules ↔ _
      rw [huse] at hlast
      refine (and_iff_left fun hm => ?_).symm
      omega
    · intro b
      have hsame := holders_congr (S := {m | m ∈ w.rules}) (p := fun m => (w.ipn m).inApr)
        (q := fun m => ((w.addUse n (-1)).ipn m).inApr) fun m _ => addUse_apr w n m (-1)
      change (w.apr b).aprRef = _
      rw [h.refs, ← hsame]
      rfl
  · rw [if_neg hlast]
    rw [huse] at hlast
    change ∃ w', ((kfree ((w.addUse n (-1)).dropApr n).rules n).map fun rules =>
      { (w.addUse n (-1)).dropApr n with rules := rules }) =
      some w' ∧ _
    have hdrop := dropApr_apr (w.addUse n (-1)) n
    obtain ⟨apr, heq, hdel⟩ := dropApr_eq (w.addUse n (-1)) n
    rw [heq] at hdrop ⊢
    have hmem : ∀ m, m ∈ w.rules.erase n ↔ m ∈ w.rules ∧ m ≠ n := fun m => by rw [h.nodup.mem_erase_iff, and_comm]
    have hfree : kfree ({ w.addUse n (-1) with apr := apr } : Soft Name).rules n = some (w.rules.erase n) := kfree_eq hn
    rw [hfree]
    refine ⟨_, rfl, ⟨?_, h.nodup.erase n, h.listed, ?_⟩, _, _, _, rfl, hdel⟩
    · refine h.count.drop htotal (fun m _ => hcount m) fun m => ?_
      rw [hmem]
      refine and_congr_right fun _ => ⟨fun hm hc => absurd hc hm, fun hm hc => ?_⟩
      have hone := hm hc
      omega
    · intro b
      have hset : {m | m ∈ w.rules.erase n} = {m | m ∈ w.rules} \ {n} := by
        ext m
        exact hmem m
      have he := holders_erase (S := {m | m ∈ w.rules}) (p := fun m => (w.ipn m).inApr)
        (q := fun m => ((w.addUse n (-1)).ipn m).inApr) (b := b) w.rules.finite_toSet hn fun m _ _ => addUse_apr w n m (-1)
      have hb := hdrop b
      change (apr b).aprRef = _
      rw [show (apr b).aprRef = _ from hb, addUse_apr]
      change (w.apr b).aprRef - _ =
        ((holders {m | m ∈ w.rules.erase n} (fun m => ((w.addUse n (-1)).ipn m).inApr) b : ℕ) : ℤ)
      rw [h.refs, hset]
      split at he
      · rename_i hc
        rw [if_pos hc]
        omega
      · rename_i hc
        rw [if_neg hc]
        omega

/-! ## Sessions -/

/-- The private data of a session can be freed: it has a size, or `apr_del` frees it. -/
def ApSession.Disposable (s : ApSession) (del : DelHook) : Prop :=
  if del = .frees then s.apsData ≠ none else s.apsData ≠ none → s.apsPsiz ≠ 0

/-- **The sessions:** `L` is the list, and `own` are the sessions of the entries. -/
structure Sess (w : Soft Name) (L : List ℕ) (own : ℕ → Option ℕ) : Prop where
  list : Lists w.sess [()] fun _ => L
  perm : w.sessions.Perm L
  owner : ∀ x, x ∈ L ↔ ∃ e, own e = some x
  back : ∀ e x, own e = some x → (w.aps x).apsNat = e
  data : ∀ d, d ∈ w.data ↔ ∃ x ∈ L, (w.aps x).apsData = some d
  nodup : w.data.Nodup
  single : ∀ x ∈ L, ∀ y ∈ L, ∀ d, (w.aps x).apsData = some d → (w.aps y).apsData = some d → x = y
  disposable : ∀ x ∈ L, (w.aps x).Disposable (w.apr (w.aps x).apsApr).aprDel

theorem Sess.congr (h : Sess w L own) {own' : ℕ → Option ℕ} (hsess : w'.sess = w.sess)
    (haps : ∀ x ∈ L, w'.aps x = w.aps x) (hsessions : w'.sessions = w.sessions) (hdata : w'.data = w.data)
    (hdel : ∀ a, (w'.apr a).aprDel = (w.apr a).aprDel) (hown : ∀ e, own' e = own e) : Sess w' L own' := by
  obtain rfl : own' = own := funext hown
  refine ⟨by rw [hsess]; exact h.list, by rw [hsessions]; exact h.perm, h.owner, fun e x he => ?_, fun d => ?_,
    by rw [hdata]; exact h.nodup, fun x hx y hy d hxd hyd => ?_, fun x hx => ?_⟩
  · rw [haps x ((h.owner x).2 ⟨e, he⟩)]
    exact h.back e x he
  · rw [hdata, h.data]
    exact exists_congr fun x => and_congr_right fun hx => by rw [haps x hx]
  · rw [haps x hx] at hxd
    rw [haps y hy] at hyd
    exact h.single x hx y hy d hxd hyd
  · rw [haps x hx, hdel]
    exact h.disposable x hx

theorem Sess.lnodup (h : Sess w L own) : L.Nodup := h.list.nodup ()

/-- An entry has at most one session, and a session one entry. -/
theorem Sess.inj (h : Sess w L own) {e e' : ℕ} (h₁ : own e = some x) (h₂ : own e' = some x) : e = e' :=
  (h.back e x h₁).symm.trans (h.back e' x h₂)

/-- Only the session fields of a state change. -/
def SameRest (w w' : Soft Name) : Prop :=
  ∃ sess aps sessions data, w' = { w with sess := sess, aps := aps, sessions := sessions, data := data }

/-- **A session is taken off the list.** -/
theorem Sess.unlink (h : Sess w L own) (hx : x ∈ L) :
    ∃ m, w.unlink x = { w with sess := m } ∧ Lists m [()] fun _ => L.erase x := by
  have hlen : L.length ≤ w.sessions.length := by rw [h.perm.length_eq]
  have hnil : (fun _ : Unit => L) () = [] ++ L := rfl
  have hseek := h.list.seek (mem_singleton_self ()) hnil (fun a => decide (a ≠ x)) hlen
  have hget := h.list.find (mem_singleton_self ()) (fun a => decide (a ≠ x)) hlen
  obtain ⟨l₁, l₂, e⟩ := append_of_mem hx
  have hnd := h.lnodup
  rw [e, nodup_middle, nodup_cons, mem_append, not_or] at hnd
  have htake : L.takeWhile (fun a => decide (a ≠ x)) = l₁ := by
    rw [e, takeWhile_append_of_pos fun y hy => ?_]
    · simp
    · have hyx : y ≠ x := fun hc => hnd.1.1 (hc ▸ hy)
      simpa using hyx
  have hfind : L.find? (fun a => !decide (a ≠ x)) = some x := by
    rw [e, find?_append, find?_eq_none.2 fun y hy => ?_]
    · simp
    · have hyx : y ≠ x := fun hc => hnd.1.1 (hc ▸ hy)
      simpa using hyx
  rw [hfind] at hget
  rw [htake] at hseek
  have hrem := h.list.remove (mem_singleton_self ()) e
      (k := w.sess.seek (fun a => decide (a ≠ x)) w.sessions.length (.head ()))
    hseek
  unfold Soft.unlink
  dsimp only
  rw [if_pos hget]
  refine ⟨_, rfl, ?_⟩
  have herase : L.erase x = l₁ ++ l₂ := by
    rw [e, erase_append_right _ hnd.1.1, erase_cons_head]
  rw [herase]
  have hfun : update (fun _ : Unit => L) () (l₁ ++ l₂) = fun _ => l₁ ++ l₂ := by
    funext u
    exact update_self ..
  rwa [hfun] at hrem

theorem dropData_none (h : (w.aps x).apsData = none) : w.dropData x = some w := if_neg fun hc => hc.1 h

/-- **The private data goes** with its session: by `apr_del`, or after it. -/
theorem Sess.dispose (h : Sess w L own) (hx : x ∈ L) (m : Mem Unit ℕ) :
    ∃ w₁ w₂, ({ w with sess := m } : Soft Name).delHook x = some w₁ ∧
      w₁.dropData x = some w₂ ∧
      ∃ aps data, w₂ = { w with sess := m, aps := aps, data := data } ∧ (∀ y, y ≠ x → aps y = w.aps y) ∧
        data.Nodup ∧
        ∀ d, d ∈ data ↔ d ∈ w.data ∧ (w.aps x).apsData ≠ some d := by
  have hdisp := h.disposable x hx
  unfold ApSession.Disposable at hdisp
  have herase : ∀ {d}, (w.aps x).apsData = some d → d ∈ w.data ∧ ∀ d', d' ∈ w.data.erase d ↔
      d' ∈ w.data ∧ some d ≠ some d' := by
    intro d hd
    refine ⟨(h.data d).2 ⟨x, hx, hd⟩, fun d' => ?_⟩
    rw [h.nodup.mem_erase_iff, and_comm]
    refine and_congr_right fun _ => ?_
    rw [ne_eq, ne_eq, some.injEq, eq_comm]
  cases hd : (w.aps x).apsData with
  | none =>
    have hhook : ({ w with sess := m } : Soft Name).delHook x = some { w with sess := m } := by
      unfold Soft.delHook
      dsimp only
      rw [hd] at hdisp
      cases hk : (w.apr (w.aps x).apsApr).aprDel with
      | null => rfl
      | keeps => rfl
      | frees =>
        rw [if_pos hk] at hdisp
        exact absurd rfl hdisp
    refine ⟨_, _, hhook, if_neg fun hc => hc.1 hd, w.aps, w.data, rfl, fun _ _ => rfl, h.nodup, fun d => ?_⟩
    simp
  | some d =>
    obtain ⟨hmem, hin⟩ := herase hd
    by_cases hk : (w.apr (w.aps x).apsApr).aprDel = .frees
    · have hhook : ({ w with sess := m } : Soft Name).delHook x = some { w with
          sess := m
          data := w.data.erase d
          aps := update w.aps x { w.aps x with apsData := none, apsPsiz := 0 } } := by
        unfold Soft.delHook Soft.freeData
        dsimp only
        rw [hk, hd]
        dsimp only
        rw [kfree_eq hmem]
        rfl
      refine ⟨_, _, hhook, if_neg fun hc => ?_, _, _, rfl, fun y hy => update_of_ne hy .., h.nodup.erase d, hin⟩
      have hcleared := hc.1
      dsimp only at hcleared
      rw [update_self] at hcleared
      exact hcleared rfl
    · have hhook : ({ w with sess := m } : Soft Name).delHook x = some { w with sess := m } := by
        unfold Soft.delHook
        dsimp only
        cases hk' : (w.apr (w.aps x).apsApr).aprDel with
        | null => rfl
        | keeps => rfl
        | frees => exact absurd hk' hk
      rw [if_neg hk, hd] at hdisp
      have hfree : ({ w with sess := m } : Soft Name).freeData x = some { w with sess := m, data := w.data.erase d } := by
        unfold Soft.freeData
        dsimp only
        rw [hd]
        dsimp only
        rw [kfree_eq hmem]
        rfl
      refine ⟨_, _, hhook, (if_pos ⟨by rw [hd]; simp, hdisp (by simp)⟩).trans hfree, w.aps, _, rfl, fun _ _ => rfl,
        h.nodup.erase d, hin⟩

/-- **A session is freed.** -/
theorem Sess.free (h : Sess w L own) (he : own e = some x) :
    ∃ w', ipfProxyFree w x = some w' ∧ Sess w' (L.erase x) (update own e none) ∧ SameRest w w' := by
  have hx : x ∈ L := (h.owner x).2 ⟨e, he⟩
  have hxs : x ∈ w.sessions := h.perm.mem_iff.2 hx
  obtain ⟨m, hm, hlist⟩ := h.unlink hx
  obtain ⟨w₁, w₂, h1, h2, aps, data, rfl, haps, hdn, hdm⟩ := h.dispose hx m
  have hfree : ipfProxyFree w x = some { w with sess := m, aps := aps, data := data, sessions := w.sessions.erase x } := by
    unfold ipfProxyFree
    rw [if_neg (not_not.2 hxs), hm, h1]
    dsimp only [bind_eq_bind, bind_some]
    rw [h2]
    dsimp only [bind_some]
    rw [kfree_eq hxs]
    rfl
  have hmem : ∀ y, y ∈ L.erase x ↔ y ∈ L ∧ y ≠ x := fun y => by rw [h.lnodup.mem_erase_iff, and_comm]
  refine ⟨_, hfree, ⟨hlist, h.perm.erase x, fun y => ?_, fun e' y hy => ?_, fun d => ?_, hdn, fun y hy z hz d hyd hzd => ?_,
    fun y hy => ?_⟩, ⟨_, _, _, _, rfl⟩⟩
  · rw [hmem, h.owner]
    constructor
    · rintro ⟨⟨e', he'⟩, hyx⟩
      refine ⟨e', ?_⟩
      rw [update_of_ne ?_]
      · exact he'
      · rintro rfl
        exact hyx (mem_unique he' he)
    · rintro ⟨e', he'⟩
      have hee : e' ≠ e := by
        rintro rfl
        rw [update_self] at he'
        cases he'
      rw [update_of_ne hee] at he'
      refine ⟨⟨e', he'⟩, ?_⟩
      rintro rfl
      exact hee (h.inj he' he)
  · have hee : e' ≠ e := by
      rintro rfl
      rw [update_self] at hy
      cases hy
    rw [update_of_ne hee] at hy
    have hyx : y ≠ x := by
      rintro rfl
      exact hee (h.inj hy he)
    change (aps y).apsNat = e'
    rw [haps y hyx]
    exact h.back e' y hy
  · change d ∈ data ↔ ∃ y ∈ L.erase x, (aps y).apsData = some d
    rw [hdm, h.data]
    constructor
    · rintro ⟨⟨y, hy, hyd⟩, hne⟩
      have hyx : y ≠ x := by
        rintro rfl
        exact hne hyd
      exact ⟨y, (hmem y).2 ⟨hy, hyx⟩, by rw [haps y hyx]; exact hyd⟩
    · rintro ⟨y, hy, hyd⟩
      obtain ⟨hy, hyx⟩ := (hmem y).1 hy
      rw [haps y hyx] at hyd
      exact ⟨⟨y, hy, hyd⟩, fun hc => hyx (h.single y hy x hx d hyd hc)⟩
  · obtain ⟨hy, hyx⟩ := (hmem y).1 hy
    obtain ⟨hz, hzx⟩ := (hmem z).1 hz
    change (aps y).apsData = some d at hyd
    change (aps z).apsData = some d at hzd
    rw [haps y hyx] at hyd
    rw [haps z hzx] at hzd
    exact h.single y hy z hz d hyd hzd
  · obtain ⟨hy, hyx⟩ := (hmem y).1 hy
    change (aps y).Disposable (w.apr (aps y).apsApr).aprDel
    rw [haps y hyx]
    exact h.disposable y hy

/-- `ipf_proxy_new` makes a session. -/
def Soft.Opens (w : Soft Name) (a finP : ℕ) (aps : Option ℕ) (hook : NewHook) : Prop :=
  (w.apr a).aprDelete = false ∧ finP = (w.apr a).aprP ∧ aps ≠ none ∧ (w.hooked a hook).ok = true

/-- What can come in from outside: new memory is new, a proxy that fails leaves no private data, and one that frees it makes
it. -/
structure Fresh (w : Soft Name) (a : ℕ) (aps : Option ℕ) (hook : NewHook) : Prop where
  aps : ∀ x, aps = some x → x ∉ w.sessions
  data : ∀ d, hook.data = some d → d ∉ w.data
  fails : hook.ok = false → hook.data = none
  frees : (w.apr a).aprDel = .frees → (w.apr a).aprNew = true ∧ (hook.ok = true → hook.data ≠ none)

/-- **No session is made:** nothing changes but memory that is not used. -/
theorem Sess.refuse (h : Sess w L own) {finP : ℕ} {aps : Option ℕ} {hook : NewHook} (hptr : (w.nat e).natPtr = some n)
    (haps : (w.nat e).natAps = none) (hapr : (w.ipn n).inApr = some a) (hf : Fresh w a aps hook)
    (hno : ¬w.Opens a finP aps hook) :
    ∃ w', ipfProxyNew w e finP aps hook = some (w', false) ∧ Sess w' L own ∧ SameRest w w' := by
  have hsame : ∃ w', some (w, false) = some (w', false) ∧ Sess w' L own ∧ SameRest w w' :=
    ⟨w, rfl, h, ⟨_, _, _, _, rfl⟩⟩
  unfold ipfProxyNew
  rw [hptr, haps]
  dsimp only
  rw [hapr]
  dsimp only
  by_cases hc : (w.apr a).aprDelete ∨ finP ≠ (w.apr a).aprP
  · rw [if_pos hc]
    exact hsame
  rw [if_neg hc]
  push Not at hc
  cases aps with
  | none => exact hsame
  | some x =>
    have hok : (w.hooked a hook).ok = false := by
      by_contra hok
      exact hno ⟨by simpa using hc.1, hc.2, by simp, by simpa using hok⟩
    have hnone : (w.hooked a hook).data = none := by
      unfold Soft.hooked at hok ⊢
      split
      · rename_i hn
        rw [if_pos hn] at hok
        exact hf.fails hok
      · rfl
    have hx : x ∉ L := fun hx => hf.aps x rfl (h.perm.mem_iff.2 hx)
    dsimp only
    rw [if_neg (by rw [hok]; simp)]
    have hdata : (update w.aps x ⟨a, e, (w.hooked a hook).data, (w.hooked a hook).psiz⟩ x).apsData = none := by
      rw [update_self]
      exact hnone
    rw [dropData_none hdata, hnone]
    dsimp only [bind_eq_bind, bind_some]
    rw [kfree_eq mem_cons_self, erase_cons_head]
    refine ⟨_, rfl, h.congr rfl (fun y hy => ?_) rfl rfl (fun _ => rfl) fun _ => rfl, ⟨_, _, _, _, rfl⟩⟩
    apply update_of_ne
    rintro rfl
    exact hx hy

/-- The private data of a new session is new. -/
theorem Fresh.hooked_data {aps : Option ℕ} {hook : NewHook} {d : ℕ} (hf : Fresh w a aps hook)
    (hd : (w.hooked a hook).data = some d) : d ∉ w.data := by
  unfold Soft.hooked at hd
  split at hd
  · exact hf.data d hd
  · cases hd

theorem Fresh.hooked_frees {aps : Option ℕ} {hook : NewHook} (hf : Fresh w a aps hook) (hok : (w.hooked a hook).ok = true)
    (hk : (w.apr a).aprDel = .frees) : (w.hooked a hook).data ≠ none := by
  obtain ⟨hnew, hsome⟩ := hf.frees hk
  unfold Soft.hooked at hok ⊢
  rw [if_pos hnew] at hok ⊢
  exact hsome hok

theorem new_opens {finP x : ℕ} {hook : NewHook} (hptr : (w.nat e).natPtr = some n) (haps : (w.nat e).natAps = none)
    (hapr : (w.ipn n).inApr = some a) (ho : w.Opens a finP (some x) hook) : ipfProxyNew w e finP (some x) hook = some ({ w with
      sess := (w.sess.set (.next x) (w.sess.head ())).set (.head ()) (some x)
      sessions := x :: w.sessions
      data := (w.hooked a hook).data.toList ++ w.data
      aps := update w.aps x ⟨a, e, (w.hooked a hook).data, (w.hooked a hook).psiz⟩ }.updNat e
        fun nat => { nat with natAps := some x }, true) := by
  obtain ⟨hdel, hp, -, hok⟩ := ho
  unfold ipfProxyNew
  rw [hptr, haps]
  dsimp only
  rw [hapr]
  dsimp only
  rw [if_neg (by simp [hdel, hp]), if_pos hok]
  rfl

/-- **A session is made.** -/
theorem Sess.new (h : Sess w L own) {finP : ℕ} {aps : Option ℕ} {hook : NewHook} (hptr : (w.nat e).natPtr = some n)
    (haps : (w.nat e).natAps = none) (hapr : (w.ipn n).inApr = some a) (hf : Fresh w a aps hook) (ho : w.Opens a finP aps hook)
    (hown : own e = none)
    (hsize : (w.hooked a hook).data ≠ none → (w.hooked a hook).psiz ≠ 0 ∨ (w.apr a).aprDel = .frees) :
    ∃ x w', aps = some x ∧
      ipfProxyNew w e finP aps hook = some (w'.updNat e fun nat => { nat with natAps := some x }, true) ∧
      Sess w' (x :: L) (update own e (some x)) ∧ SameRest w w' := by
  obtain ⟨hdel, hp, hmem, hok⟩ := ho
  obtain ⟨x, rfl⟩ := ne_none_iff_exists'.1 hmem
  have hxs : x ∉ w.sessions := hf.aps x rfl
  have hx : x ∉ L := fun hx => hxs (h.perm.mem_iff.2 hx)
  have hcall := new_opens hptr haps hapr ⟨hdel, hp, hmem, hok⟩
  have hdata := fun d => hf.hooked_data (d := d)
  have hcan := hf.hooked_frees hok
  have hup : ∀ y, y ≠ x → update w.aps x ⟨a, e, (w.hooked a hook).data, (w.hooked a hook).psiz⟩ y = w.aps y :=
    fun y hy => update_of_ne hy ..
  have hne : ∀ y ∈ L, y ≠ x := fun y hy hc => hx (hc ▸ hy)
  have hlist := h.list.insert (n := x) (k := .head ()) (mem_singleton_self ()) (nil_append L).symm (fun _ => hx) rfl
  refine ⟨x, _, rfl, hcall, ?_, ⟨_, _, _, _, rfl⟩⟩
  generalize w.hooked a hook = hk at *
  constructor
  · have hfun : update (fun _ : Unit => L) () ([] ++ x :: L) = fun _ => x :: L := by
      funext u
      exact update_self ..
    rwa [hfun] at hlist
  · exact h.perm.cons x
  · intro y
    rw [mem_cons, h.owner]
    constructor
    · rintro (rfl | ⟨e', he'⟩)
      · exact ⟨e, update_self ..⟩
      · refine ⟨e', ?_⟩
        rw [update_of_ne]
        · exact he'
        · rintro rfl
          rw [hown] at he'
          cases he'
    · rintro ⟨e', he'⟩
      by_cases hee : e' = e
      · rw [hee, update_self, some.injEq] at he'
        exact .inl he'.symm
      · rw [update_of_ne hee] at he'
        exact .inr ⟨e', he'⟩
  · intro e' y hy
    change (update w.aps x _ y).apsNat = e'
    by_cases hee : e' = e
    · rw [hee, update_self, some.injEq] at hy
      rw [← hy, update_self, hee]
    · rw [update_of_ne hee] at hy
      rw [hup y (hne y ((h.owner y).2 ⟨e', hy⟩))]
      exact h.back e' y hy
  · intro d
    change d ∈ hk.data.toList ++ w.data ↔ ∃ y ∈ x :: L, (update w.aps x _ y).apsData = some d
    rw [mem_append, mem_toList, h.data, exists_mem_cons_iff, update_self]
    refine or_congr Iff.rfl (exists_congr fun y => and_congr_right fun hy => ?_)
    rw [hup y (hne y hy)]
  · rw [nodup_append']
    refine ⟨by cases hk.data <;> simp, h.nodup, fun d hd hw => ?_⟩
    exact hdata d (mem_toList.1 hd) hw
  · have hfresh : ∀ d, hk.data = some d → ∀ y ∈ L, (w.aps y).apsData ≠ some d :=
      fun d hd y hy hyd => hdata d hd ((h.data d).2 ⟨y, hy, hyd⟩)
    intro y hy z hz d hyd hzd
    change (update w.aps x _ y).apsData = some d at hyd
    change (update w.aps x _ z).apsData = some d at hzd
    rw [mem_cons] at hy hz
    rcases hy with rfl | hy <;> rcases hz with rfl | hz
    · rfl
    · rw [update_self] at hyd
      rw [hup z (hne z hz)] at hzd
      exact absurd hzd (hfresh d hyd z hz)
    · rw [update_self] at hzd
      rw [hup y (hne y hy)] at hyd
      exact absurd hyd (hfresh d hzd y hy)
    · rw [hup y (hne y hy)] at hyd
      rw [hup z (hne z hz)] at hzd
      exact h.single y hy z hz d hyd hzd
  · intro y hy
    change (update w.aps x _ y).Disposable (w.apr (update w.aps x _ y).apsApr).aprDel
    rw [mem_cons] at hy
    rcases hy with rfl | hy
    · rw [update_self]
      unfold ApSession.Disposable
      dsimp only
      split
      · rename_i hfrees
        exact hcan hfrees
      · rename_i hfrees
        exact fun hd => (hsize hd).resolve_right hfrees
    · rw [hup y (hne y hy)]
      exact h.disposable y hy

/-! ## Entries -/

/-- The session of an entry. -/
def Soft.owned (w : Soft Name) (e : ℕ) : Option ℕ := if e ∈ w.nats then (w.nat e).natAps else none

/-- **What holds in each state,** with `hand` for the rules in local variables. -/
structure Good (w : Soft Name) (hand : ℕ → ℕ) : Prop where
  rules : Rules w hand
  sess : ∃ L, Sess w L w.owned
  nodup : w.nats.Nodup
  instances : ∀ e ∈ w.instances, e ∈ w.nats
  once : w.instances.Nodup

/-- The lists of entries and rules do not change. -/
structure Kept (w w' : Soft Name) : Prop where
  nats : w'.nats = w.nats
  instances : w'.instances = w.instances
  natList : w'.natList = w.natList

theorem updNat_self (w : Soft Name) (e : ℕ) (f : NatT → NatT) : (w.updNat e f).nat e = f (w.nat e) := update_self ..

theorem updNat_ne (w : Soft Name) {e e' : ℕ} (f : NatT → NatT) (h : e' ≠ e) : (w.updNat e f).nat e' = w.nat e' :=
  update_of_ne h ..

/-- A field of entries that the change leaves alone. -/
theorem updNat_field {V : Type} (w : Soft Name) {e : ℕ} {f : NatT → NatT} (v : NatT → V)
    (h : v (f (w.nat e)) = v (w.nat e)) (e' : ℕ) :
    v ((w.updNat e f).nat e') = v (w.nat e') := by
  by_cases he : e' = e
  · rw [he, updNat_self, h]
  · rw [updNat_ne w f he]

/-- A change to an entry that leaves its rule and its session alone. -/
theorem Good.updNat (h : Good w hand) {f : NatT → NatT} (hptr : (f (w.nat e)).natPtr = (w.nat e).natPtr)
    (haps : (f (w.nat e)).natAps = (w.nat e).natAps) : Good (w.updNat e f) hand := by
  obtain ⟨L, hL⟩ := h.sess
  refine ⟨h.rules.congr rfl h.rules.listed rfl rfl fun m => ?_,
    ⟨L, hL.congr rfl (fun _ _ => rfl) rfl rfl (fun _ => rfl) fun e' => ?_⟩,
    h.nodup, h.instances, h.once⟩
  · unfold Soft.ruleTotal
    rw [holders_congr fun e' _ => updNat_field w NatT.natPtr hptr e']
    rfl
  · change (if e' ∈ w.nats then _ else none) = if e' ∈ w.nats then _ else none
    rw [updNat_field w NatT.natAps haps e']

/-- **An entry gives back its rule.** -/
theorem Good.clearPtr (h : Good w hand) (he : e ∈ w.nats) :
    ∃ w', w.clearPtr e = some w' ∧ Good w' hand ∧ Kept w w' ∧ (w'.nat e).natPtr = none := by
  unfold Soft.clearPtr
  cases hn : (w.nat e).natPtr with
  | none => exact ⟨w, rfl, h, ⟨rfl, rfl, rfl⟩, hn⟩
  | some n =>
    have hrules : Rules (w.updNat e fun nat => { nat with natPtr := none }) (bump hand n) := by
      refine h.rules.congr rfl h.rules.listed rfl rfl fun m => ?_
      have hset := holders_set (S := {e | e ∈ w.nats}) (p := fun e => (w.nat e).natPtr)
        (q := fun e' => ((w.updNat e fun nat => { nat with natPtr := none }).nat e').natPtr) (b := m) w.nats.finite_toSet he
        fun e' _ hne => congrArg NatT.natPtr (updNat_ne w _ hne)
      rw [updNat_self, hn, if_neg (by simp : ¬(none : Option ℕ) = some m)] at hset
      have hone : (if some n = some m then 1 else 0) = if m = n then 1 else 0 := by
        simp only [some.injEq, eq_comm]
      rw [hone] at hset
      unfold Soft.ruleTotal bump
      change (if m ∈ w.natList then 1 else 0) + holders {e | e ∈ w.nats} _ m + _ = _
      omega
    obtain ⟨w', hw', hr', ipn, apr, rules, rfl, hdel⟩ := hrules.ruleDeref
    obtain ⟨L, hL⟩ := h.sess
    refine ⟨_, hw', ⟨hr', ⟨L, hL.congr rfl (fun _ _ => rfl) rfl rfl hdel fun e' => ?_⟩, h.nodup, h.instances,
      h.once⟩, ⟨rfl, rfl, rfl⟩, ?_⟩
    · change (if e' ∈ w.nats then _ else none) = if e' ∈ w.nats then _ else none
      have hsame := updNat_field w (e := e) (f := fun nat => { nat with natPtr := none }) NatT.natAps rfl e'
      exact congrArg (fun v => if e' ∈ w.nats then v else none) hsame
    · exact congrArg NatT.natPtr (updNat_self w e fun nat => { nat with natPtr := none })

/-- **An entry gives back its session.** -/
theorem Good.clearAps (h : Good w hand) (he : e ∈ w.nats) :
    ∃ w', w.clearAps e = some w' ∧ Good w' hand ∧ Kept w w' ∧ (w'.nat e).natPtr = (w.nat e).natPtr ∧
      (w'.nat e).natAps = none := by
  unfold Soft.clearAps
  cases hx : (w.nat e).natAps with
  | none => exact ⟨w, rfl, h, ⟨rfl, rfl, rfl⟩, rfl, hx⟩
  | some x =>
    obtain ⟨L, hL⟩ := h.sess
    have hown : w.owned e = some x := (if_pos he).trans hx
    obtain ⟨w', hw', hL', sess, aps, sessions, data, rfl⟩ := hL.free hown
    have hptr : ∀ e', ((w.updNat e fun nat => { nat with natAps := none }).nat e').natPtr = (w.nat e').natPtr :=
      updNat_field w NatT.natPtr rfl
    have hself := congrArg NatT.natAps (updNat_self w e fun nat => { nat with natAps := none })
    have hother : ∀ e', e' ≠ e → ((w.updNat e fun nat => { nat with natAps := none }).nat e').natAps =
        (w.nat e').natAps :=
      fun e' hee => congrArg NatT.natAps (updNat_ne w _ hee)
    dsimp only
    rw [hw']
    refine ⟨_, rfl, ⟨?_, ⟨_, hL'.congr rfl (fun _ _ => rfl) rfl rfl (fun _ => rfl) fun e' => ?_⟩, h.nodup,
      h.instances, h.once⟩, ⟨rfl, rfl, rfl⟩, hptr e, hself⟩
    · refine h.rules.congr rfl h.rules.listed rfl rfl fun m => ?_
      unfold Soft.ruleTotal
      rw [← holders_congr fun e' _ => hptr e']
      rfl
    · by_cases hee : e' = e
      · rw [hee, update_self]
        exact (if_pos he).trans hself
      · rw [update_of_ne hee]
        exact congrArg (fun v => if e' ∈ w.nats then v else none) (hother e' hee)

/-- **The end of an entry.** -/
theorem Good.destroy (h : Good w hand) (he : e ∈ w.nats) (hout : e ∉ w.instances) :
    ∃ w', w.destroyNat e = some w' ∧ Good w' hand ∧ w'.instances = w.instances ∧ w'.nats = w.nats.erase e ∧
      w'.natList = w.natList := by
  obtain ⟨w₁, h₁, hg₁, hk₁, hptr₁⟩ := h.clearPtr he
  have he₁ : e ∈ w₁.nats := by rwa [hk₁.nats]
  obtain ⟨w₂, h₂, hg₂, hk₂, hptr₂, haps₂⟩ := hg₁.clearAps he₁
  have he₂ : e ∈ w₂.nats := by rwa [hk₂.nats]
  have hinst : w₂.instances = w.instances := hk₂.instances.trans hk₁.instances
  have hmem : ∀ e', e' ∈ w₂.nats.erase e ↔ e' ∈ w₂.nats ∧ e' ≠ e :=
    fun e' => by rw [hg₂.nodup.mem_erase_iff, and_comm]
  obtain ⟨L, hL⟩ := hg₂.sess
  unfold Soft.destroyNat
  rw [h₁]
  dsimp only [bind_eq_bind, bind_some]
  rw [h₂]
  dsimp only [bind_some]
  rw [kfree_eq he₂]
  refine ⟨_, rfl, ⟨?_, ⟨L, hL.congr rfl (fun _ _ => rfl) rfl rfl (fun _ => rfl) fun e' => ?_⟩, hg₂.nodup.erase e,
    ?_, ?_⟩, hinst, ?_, hk₂.natList.trans hk₁.natList⟩
  · -- it held no rule any more
    refine hg₂.rules.congr rfl hg₂.rules.listed rfl rfl fun m => ?_
    have hset : {e' | e' ∈ w₂.nats.erase e} = {e' | e' ∈ w₂.nats} \ {e} := by
      ext e'
      exact hmem e'
    have herase := holders_erase (S := {e' | e' ∈ w₂.nats}) (p := fun e => (w₂.nat e).natPtr)
        (b := m) w₂.nats.finite_toSet he₂
      fun _ _ _ => rfl
    rw [← hset] at herase
    have hnot : ¬(w₂.nat e).natPtr = some m := by
      rw [hptr₂, hptr₁]
      nofun
    rw [if_neg hnot, add_zero] at herase
    unfold Soft.ruleTotal
    rw [← herase]
  · change (if e' ∈ w₂.nats.erase e then _ else none) = if e' ∈ w₂.nats then _ else none
    by_cases hee : e' = e
    · rw [hee, haps₂, ite_self, ite_self]
    · simp only [hmem, ne_eq, hee, not_false_eq_true, and_true]
  · intro e' he'
    have hin : e' ∈ w.instances := hinst ▸ he'
    refine (hmem e').2 ⟨hg₂.instances e' he', ?_⟩
    rintro rfl
    exact hout hin
  · exact hg₂.once
  · change w₂.nats.erase e = _
    rw [hk₂.nats, hk₁.nats]

/-- The entry is not in `ipf_nat_instances` any more. -/
theorem Good.unlisted (h : Good w hand) (e : ℕ) : Good { w with instances := w.instances.erase e } hand := by
  obtain ⟨L, hL⟩ := h.sess
  refine ⟨h.rules.congr rfl h.rules.listed rfl rfl fun _ => rfl,
    ⟨L, hL.congr rfl (fun _ _ => rfl) rfl rfl (fun _ => rfl) fun _ => rfl⟩,
    h.nodup, fun e' he' => ?_, h.once.erase e⟩
  exact h.instances e' (mem_of_mem_erase he')

/-- **An entry is deleted,** or loses a reference. -/
theorem Good.delete (h : Good w hand) (he : e ∈ w.nats) (destroy : Bool) :
    ∃ w', ipfNatDelete w e destroy = some w' ∧ Good w' hand ∧ w'.instances = w.instances.erase e ∧
      (∀ e' ∈ w.nats, e' ≠ e → e' ∈ w'.nats) ∧ w'.natList = w.natList := by
  have hout : e ∉ w.instances.erase e := h.once.not_mem_erase
  have hme : ∃ w₁ : Soft Name, (if (w.nat e).natMe then ({ w with instances := w.instances.erase e } : Soft Name).updNat e
      fun nat => { nat with natMe := false, natRef := nat.natRef - 1 } else { w with instances := w.instances.erase e }) =
        w₁ ∧
      Good w₁ hand ∧ w₁.nats = w.nats ∧ w₁.instances = w.instances.erase e ∧ w₁.natList = w.natList := by
    split
    · exact ⟨_, rfl, (h.unlisted e).updNat rfl rfl, rfl, rfl, rfl⟩
    · exact ⟨_, rfl, h.unlisted e, rfl, rfl, rfl⟩
  obtain ⟨w₁, heq, hg, hnats, hinst, hlist⟩ := hme
  have hstay : ∀ e' ∈ w.nats, e' ≠ e → e' ∈ w₁.nats := fun e' he' _ => by rwa [hnats]
  unfold ipfNatDelete
  rw [if_neg (not_not.2 he)]
  dsimp only
  rw [heq]
  by_cases hc : destroy = true ∧ (w₁.nat e).natRef > 2
  · rw [if_pos hc]
    exact ⟨_, rfl, hg.updNat rfl rfl, hinst, hstay, hlist⟩
  rw [if_neg hc]
  by_cases hc' : destroy = false ∧ (w₁.nat e).natRef > 1
  · rw [if_pos hc']
    exact ⟨_, rfl, hg.updNat rfl rfl, hinst, hstay, hlist⟩
  rw [if_neg hc']
  obtain ⟨w', hw', hg', hinst', hnats', hlist'⟩ := hg.destroy (by rwa [hnats]) (by rwa [hinst])
  refine ⟨w', hw', hg', hinst'.trans hinst, fun e' he' hne => ?_, hlist'.trans hlist⟩
  rw [hnats', hnats]
  exact (mem_erase_of_ne hne).2 he'

/-- **The entries of a rule are deleted,** by induction over those that are left of the list as it was. -/
theorem Good.purge {l : List ℕ} (h : Good w hand) (n : ℕ) (hl : l.Nodup) (hin : ∀ e ∈ l, e ∈ w.nats) :
    ∃ w', purgeLoop n l w = some w' ∧ Good w' hand ∧ w'.natList = w.natList := by
  induction l generalizing w with
  | nil => exact ⟨w, rfl, h, rfl⟩
  | cons e l ih =>
    have hnd := nodup_cons.1 hl
    unfold purgeLoop
    by_cases hptr : (w.nat e).natPtr = some n
    · obtain ⟨w₁, hw₁, hg₁, _, hstay, hlist⟩ := h.delete (hin e mem_cons_self) false
      have hin₁ : ∀ e' ∈ l, e' ∈ w₁.nats := fun e' he' =>
        hstay e' (hin e' (mem_cons_of_mem e he')) (ne_of_mem_of_not_mem he' hnd.1)
      obtain ⟨w', hw', hg', hlist'⟩ := ih hg₁ hnd.2 hin₁
      rw [if_pos hptr, hw₁]
      exact ⟨w', hw', hg', hlist'.trans hlist⟩
    · rw [if_neg hptr]
      exact ih h hnd.2 fun e' he' => hin e' (mem_cons_of_mem e he')

/-- A change to a rule that leaves its count and its proxy alone. -/
theorem Good.updRule (h : Good w hand) (n : ℕ) (purge : Bool) :
    Good { w with ipn := update w.ipn n { w.ipn n with inPurge := purge } } hand := by
  have huse : ∀ m, (update w.ipn n { w.ipn n with inPurge := purge } m).inUse = (w.ipn m).inUse := by
    intro m
    by_cases hm : m = n
    · rw [hm, update_self]
    · rw [update_of_ne hm]
  have hapr : ∀ m, (update w.ipn n { w.ipn n with inPurge := purge } m).inApr = (w.ipn m).inApr := by
    intro m
    by_cases hm : m = n
    · rw [hm, update_self]
    · rw [update_of_ne hm]
  obtain ⟨L, hL⟩ := h.sess
  refine ⟨⟨?_, h.rules.nodup, h.rules.listed, fun a => ?_⟩,
    ⟨L, hL.congr rfl (fun _ _ => rfl) rfl rfl (fun _ => rfl) fun _ => rfl⟩,
    h.nodup, h.instances, h.once⟩
  · exact h.rules.count.congr (fun _ => Iff.rfl) (fun m _ => huse m) fun _ => rfl
  · change (w.apr a).aprRef = _
    rw [h.rules.refs, ← holders_congr fun m _ => hapr m]

/-- **A rule is removed.** -/
theorem Good.remove (h : Good w hand) (hn : n ∈ w.natList) (purge : Bool) : ∃ w', ipfNatDelrule w n purge = some w' ∧
    Good w' hand := by
  -- the reference of the list is in a local variable now
  have hrules : Rules { w with natList := w.natList.erase n } (bump hand n) := by
    refine h.rules.congr rfl (h.rules.listed.erase n) rfl rfl fun m => ?_
    unfold Soft.ruleTotal bump
    change (if m ∈ w.natList.erase n then 1 else 0) + holders {e | e ∈ w.nats} (fun e => (w.nat e).natPtr) m + _ = _
    rw [if_congr h.rules.listed.mem_erase_iff rfl rfl]
    by_cases hm : m = n
    · subst hm
      rw [if_neg (fun hc => hc.1 rfl), if_pos rfl, if_pos hn]
      omega
    · simp only [hm, ne_eq, not_false_eq_true, true_and, if_false]
      omega
  obtain ⟨L, hL⟩ := h.sess
  have hgood : Good { w with natList := w.natList.erase n } (bump hand n) :=
    ⟨hrules, ⟨L, hL.congr rfl (fun _ _ => rfl) rfl rfl (fun _ => rfl) fun _ => rfl⟩, h.nodup, h.instances, h.once⟩
  have hpurge : ∃ w', ({ w with natList := w.natList.erase n } : Soft Name).purgeEntries n purge = some w' ∧
      Good w' (bump hand n) := by
    unfold Soft.purgeEntries
    split
    · obtain ⟨w', hw', hg', _⟩ := hgood.purge n h.once h.instances
      exact ⟨w', hw', hg'⟩
    · exact ⟨_, rfl, hgood⟩
  obtain ⟨w₁, hw₁, hg₁⟩ := hpurge
  obtain ⟨w', hw', hr', ipn, apr, rules, rfl, hdel⟩ := hg₁.rules.ruleDeref
  obtain ⟨L₁, hL₁⟩ := hg₁.sess
  refine ⟨_, ?_, hr', ⟨L₁, hL₁.congr rfl (fun _ _ => rfl) rfl rfl hdel fun _ => rfl⟩, hg₁.nodup, hg₁.instances,
    hg₁.once⟩
  unfold ipfNatDelrule
  dsimp only
  rw [hw₁]
  exact hw'

/-- A rule is new: nobody refers to the memory. -/
theorem Rules.unused (h : Rules w hand) (hn : n ∉ w.rules) : w.ruleTotal hand n = 0 := by
  have hpos := mt (h.count.pos n).2 hn
  omega

/-- There is a proxy with the name. -/
def Found (w : Soft Name) (pr : ℕ) (name : Name) : Prop :=
  ∃ a ∈ w.proxies, (w.apr a).aprP = pr ∧ (w.apr a).aprLabel = name

section
variable [DecidableEq Name]

theorem lookup_cases (w : Soft Name) (pr : ℕ) (name : Name) :
    (∃ a, Found w pr name ∧ ipfProxyLookup w pr name = (w.addRef a 1, some a)) ∨
      ¬Found w pr name ∧ ipfProxyLookup w pr name = (w, none) := by
  unfold ipfProxyLookup
  cases hf : w.proxies.find? fun a => (w.apr a).aprP = pr ∧ (w.apr a).aprLabel = name with
  | none =>
    refine .inr ⟨?_, rfl⟩
    rintro ⟨a, ha, hname⟩
    have hnot := find?_eq_none.1 hf a ha
    exact hnot (decide_eq_true hname)
  | some a =>
    have hname := find?_some hf
    exact .inl ⟨a, ⟨a, mem_of_find?_eq_some hf, of_decide_eq_true hname⟩, rfl⟩

/-- **A rule is loaded,** with the reference to its proxy. -/
theorem Good.load (h : Good w hand) {r : Ipnat Name} (hn : n ∉ w.rules) (hr : r.inApr = none) (hu : r.inUse = 0)
    (hc : ∀ label, r.inPlabel = some label → Found w (r.inPr (!r.inRedirect)) label →
      ¬(r.inAge false = 0 ∧ r.inAge true ≠ 0)) :
    Good (ipfNatSiocaddnat w n r) hand := by
  obtain ⟨L, hL⟩ := h.sess
  have hzero := h.rules.unused hn
  have hlisted : n ∉ w.natList := by
    intro hin
    unfold Soft.ruleTotal at hzero
    rw [if_pos hin] at hzero
    omega
  have htotal : ∀ m, ({ w with natList := w.natList ++ [n] } : Soft Name).ruleTotal hand m =
      w.ruleTotal hand m + if m = n then 1 else 0 := by
    intro m
    unfold Soft.ruleTotal
    change (if m ∈ w.natList ++ [n] then 1 else 0) + holders {e | e ∈ w.nats} (fun e => (w.nat e).natPtr) m + _ = _
    by_cases hm : m = n
    · rw [hm, if_pos (by simp), if_neg hlisted, if_pos rfl]
      omega
    · simp only [mem_append, mem_singleton, hm, or_false, if_false]
      omega
  -- the rule in the list, with a proxy or without
  have hgood : ∀ (apr : ℕ → Aproxy Name) (r' : Ipnat Name), r'.inUse = 1 →
      (∀ b, (apr b).aprDel = (w.apr b).aprDel) →
      (∀ b, (apr b).aprRef = (w.apr b).aprRef + if r'.inApr = some b then 1 else 0) →
      Good { w with
        apr := apr
        rules := n :: w.rules
        natList := w.natList ++ [n]
        ipn := update w.ipn n r' } hand := by
    intro apr r' huse hdel href
    have hsame : ∀ m ∈ w.rules, update w.ipn n r' m = w.ipn m := by
      intro m hm
      apply update_of_ne
      rintro rfl
      exact hn hm
    refine ⟨⟨?_, nodup_cons.2 ⟨hn, h.rules.nodup⟩, ?_, fun b => ?_⟩,
      ⟨L, hL.congr rfl (fun _ _ => rfl) rfl rfl hdel fun _ => rfl⟩, h.nodup, h.instances, h.once⟩
    · refine h.rules.count.make hn (fun m => ?_) ?_ (fun m _ hm => congrArg Ipnat.inUse (hsame m hm)) htotal
      · change m ∈ n :: w.rules ↔ m ∈ w.rules ∨ m = n
        rw [mem_cons, or_comm]
      · exact (congrArg Ipnat.inUse (update_self n r' w.ipn)).trans huse
    · rw [nodup_append']
      refine ⟨h.rules.listed, nodup_singleton n, ?_⟩
      rwa [disjoint_singleton]
    · have hset : {m | m ∈ n :: w.rules} = insert n {m | m ∈ w.rules} := by
        ext m
        exact mem_cons
      change (apr b).aprRef = ((holders {m | m ∈ n :: w.rules} _ b : ℕ) : ℤ)
      rw [href, h.rules.refs, hset, holders_insert (p := fun m => (w.ipn m).inApr) w.rules.finite_toSet hn
        fun m hm => congrArg Ipnat.inApr (hsame m hm)]
      rw [update_self]
      push_cast
      rfl
  unfold ipfNatSiocaddnat ipfNatResolverule
  cases hp : r.inPlabel with
  | none =>
    dsimp only
    split
    · exact h
    · refine hgood w.apr { r with inUse := r.inUse + 1 } ?_ (fun _ => rfl) fun b => ?_
      · dsimp only
        rw [hu, zero_add]
      · dsimp only
        rw [hr, if_neg (by simp), add_zero]
  | some label =>
    dsimp only
    rcases lookup_cases w (r.inPr (!r.inRedirect)) label with ⟨a, hfound, hlook⟩ | ⟨_, hlook⟩
    · rw [hlook]
      dsimp only
      rw [if_neg (hc label hp hfound)]
      rw [← hp]
      refine hgood (w.addRef a 1).apr { r with inApr := some a, inUse := r.inUse + 1 } ?_
        (fun b => addRef_del w a b 1) fun b => ?_
      · dsimp only
        rw [hu, zero_add]
      · rw [addRef_ref]
        simp only [some.injEq, eq_comm]
    · rw [hlook]
      exact h

/-- **A proxy is controlled** that does not exist. -/
theorem Good.ctl (h : Good w hand) {pr : ℕ} {name : Name} (hc : ¬Found w pr name) : Good (ipfProxyCtl w pr name) hand := by
  unfold ipfProxyCtl
  rcases lookup_cases w pr name with ⟨_, hfound, _⟩ | ⟨_, hlook⟩
  · exact absurd hfound hc
  · rw [hlook]
    exact h

end

/-- **A packet** does not make the entry lose its session. -/
theorem Good.check (h : Good w hand) (he : e ∈ w.nats) {rv : ℤ}
    (hc : ((w.nat e).natPtr.bind fun n => (w.ipn n).inApr) ≠ none → (w.nat e).natAps ≠ none → rv ≠ 2) :
    ipfProxyCheck w e rv = some w := by
  unfold ipfProxyCheck
  rw [if_neg (not_not.2 he)]
  split
  · rename_i a x ha hx
    obtain ⟨L, hL⟩ := h.sess
    have hown : w.owned e = some x := (if_pos he).trans hx
    have hxs : x ∈ w.sessions := hL.perm.mem_iff.2 ((hL.owner x).2 ⟨e, hown⟩)
    have hrv : rv ≠ 2 := hc (by rw [ha]; nofun) (by rw [hx]; nofun)
    rw [if_neg (not_not.2 hxs), if_neg hrv]
  · rfl

theorem owned_none (he : e ∉ w.nats) : w.owned e = none := if_neg he

/-- An entry that is not in the table yet may change. -/
theorem Good.outside (h : Good w hand) (he : e ∉ w.nats) (f : NatT → NatT) : Good (w.updNat e f) hand := by
  obtain ⟨L, hL⟩ := h.sess
  have hother : ∀ e' ∈ w.nats, (w.updNat e f).nat e' = w.nat e' := fun e' he' => updNat_ne w f (ne_of_mem_of_not_mem he' he)
  refine ⟨h.rules.congr rfl h.rules.listed rfl rfl fun m => ?_,
    ⟨L, hL.congr rfl (fun _ _ => rfl) rfl rfl (fun _ => rfl) fun e' => ?_⟩,
    h.nodup, h.instances, h.once⟩
  · unfold Soft.ruleTotal
    rw [← holders_congr (S := {e | e ∈ w.nats}) (p := fun e => (w.nat e).natPtr) fun e' he' =>
      congrArg NatT.natPtr (hother e' he')]
    rfl
  · change (if e' ∈ w.nats then _ else none) = if e' ∈ w.nats then _ else none
    by_cases he' : e' ∈ w.nats
    · rw [if_pos he', if_pos he', hother e' he']
    · rw [if_neg he', if_neg he']

/-- **An entry comes into the table,** with its reference to its rule and its session. -/
theorem Good.enter (h : Good w hand) (hL : Sess w' L own)
    (hs : ∃ nat sess aps sessions data,
      w' = { w with nat := nat, sess := sess, aps := aps, sessions := sessions, data := data })
    (hnat : ∀ e', e' ≠ e → w'.nat e' = w.nat e') (hown : own e = (w'.nat e).natAps)
    (hothers : ∀ e', e' ≠ e → own e' = w.owned e') (he : e ∉ w.nats) (hptr : (w'.nat e).natPtr = some n)
    (hn : n ∈ w.rules) (f : NatT → NatT) (hf : ∀ nat, (f nat).natPtr = nat.natPtr ∧ (f nat).natAps = nat.natAps) :
    Good { (w'.updNat e f).addUse n 1 with nats := e :: w'.nats, instances := e :: w'.instances } hand := by
  obtain ⟨nat, sess, aps, sessions, data, rfl⟩ := hs
  have hold : ∀ m, ((w.addUse n 1).ipn m).inApr = (w.ipn m).inApr := fun m => addUse_apr w n m 1
  have hup : ∀ e', e' ≠ e → update nat e (f (nat e)) e' = w.nat e' :=
    fun e' hne => (update_of_ne hne ..).trans (hnat e' hne)
  refine ⟨⟨?_, h.rules.nodup, h.rules.listed, fun a => ?_⟩,
    ⟨L, hL.congr rfl (fun _ _ => rfl) rfl rfl (fun _ => rfl) fun e' => ?_⟩,
    nodup_cons.2 ⟨he, h.nodup⟩, fun e' he' => ?_, nodup_cons.2 ⟨fun hc => he (h.instances e hc), h.once⟩⟩
  · refine h.rules.count.take hn (fun _ => Iff.rfl) (fun m _ => addUse_use w n m 1) fun m => ?_
    have hset : {e' | e' ∈ e :: w.nats} = insert e {e' | e' ∈ w.nats} := by
      ext e'
      exact mem_cons
    have hins := holders_insert (S := {e' | e' ∈ w.nats}) (p := fun e => (w.nat e).natPtr)
      (q := fun e' => (update nat e (f (nat e)) e').natPtr) (b := m) w.nats.finite_toSet he
      fun e' he' => congrArg NatT.natPtr (hup e' (ne_of_mem_of_not_mem he' he))
    have hnew : (f (nat e)).natPtr = some n := (hf _).1.trans hptr
    rw [update_self, hnew, ← hset] at hins
    have hone : (if some n = some m then 1 else 0) = if m = n then 1 else 0 := by
      simp only [some.injEq, eq_comm]
    rw [hone] at hins
    unfold Soft.ruleTotal
    change (if m ∈ w.natList then 1 else 0) + holders {e' | e' ∈ e :: w.nats}
      (fun e' => (update nat e (f (nat e)) e').natPtr) m +
      hand m = (if m ∈ w.natList then 1 else 0) + holders {e' | e' ∈ w.nats} (fun e => (w.nat e).natPtr) m + hand m + _
    omega
  · change (w.apr a).aprRef = _
    rw [h.rules.refs, ← holders_congr fun m _ => hold m]
    rfl
  · change (if e' ∈ e :: w.nats then (update nat e (f (nat e)) e').natAps else none) = own e'
    by_cases hee : e' = e
    · rw [hee, update_self, if_pos mem_cons_self, (hf _).2]
      exact hown.symm
    · rw [hup e' hee, hothers e' hee]
      change _ = if e' ∈ w.nats then _ else none
      simp only [mem_cons, hee, false_or]
  · rw [mem_cons] at he' ⊢
    exact he'.imp_right (h.instances e')

/-- What a packet that makes an entry must be like: memory that is new, and a rule that is there. -/
structure Creation.Legal (c : Creation) (w : Soft Name) : Prop where
  entry : c.e ∉ w.nats
  rule : c.n ∈ w.rules
  fresh : ∀ a, (w.ipn c.n).inApr = some a → Fresh w a c.aps c.hook

/-- When a session is made, the entry is not given up, and its private data has a size or is freed by the proxy. -/
def Creation.Calm (c : Creation) (w : Soft Name) : Prop :=
  ∀ a, (w.ipn c.n).inApr = some a → c.slave = false → w.Opens a c.finP c.aps c.hook →
    c.finalised = true ∧ ((w.hooked a c.hook).data ≠ none → (w.hooked a c.hook).psiz ≠ 0 ∨ (w.apr a).aprDel = .frees)

/-- **An entry is made.** -/
theorem Good.create (h : Good w hand) {c : Creation} (hl : c.Legal w) (hc : c.Calm w) :
    ∃ w', ipfNatAdd w c = some w' ∧ Good w' hand := by
  have hg := h.outside hl.entry fun _ => ⟨some c.n, none, 0, c.me⟩
  have hself := updNat_self w c.e fun _ => ⟨some c.n, none, 0, c.me⟩
  have hptr := congrArg NatT.natPtr hself
  have haps := congrArg NatT.natAps hself
  obtain ⟨L, hL⟩ := hg.sess
  have hown := owned_none (w := w.updNat c.e fun _ => ⟨some c.n, none, 0, c.me⟩) hl.entry
  unfold ipfNatAdd Soft.newSession
  dsimp only
  change ∃ w', ((if (w.ipn c.n).inApr ≠ none ∧ c.slave = false then _ else _) : Option (Soft Name × Bool)).bind _ =
    some w' ∧ _
  by_cases hn : (w.ipn c.n).inApr ≠ none ∧ c.slave = false
  · rw [if_pos hn]
    obtain ⟨a, ha⟩ := ne_none_iff_exists'.1 hn.1
    have hfresh : Fresh (w.updNat c.e fun _ => ⟨some c.n, none, 0, c.me⟩) a c.aps c.hook := by
      obtain ⟨h₁, h₂, h₃, h₄⟩ := hl.fresh a ha
      exact ⟨h₁, h₂, h₃, h₄⟩
    by_cases ho : w.Opens a c.finP c.aps c.hook
    · obtain ⟨hfin, hsize⟩ := hc a ha hn.2 ho
      obtain ⟨x, w₁, -, hnew, hL₁, hs₁⟩ := hL.new hptr haps ha hfresh ho hown hsize
      have hsess : Sess (w₁.updNat c.e fun nat => { nat with natAps := some x }) (x :: L) _ :=
        hL₁.congr rfl (fun _ _ => rfl) rfl rfl (fun _ => rfl) fun _ => rfl
      obtain ⟨sess, aps, sessions, data, rfl⟩ := hs₁
      have hdone := hg.enter hsess ⟨_, _, _, _, _, rfl⟩ (fun e' hee => updNat_ne _ _ hee) ?_
          (fun e' hee => update_of_ne hee ..)
        hl.entry ?_ hl.rule (fun nat => { nat with natRef := if c.me then 2 else 1 }) fun _ => ⟨rfl, rfl⟩
      · rw [hnew]
        dsimp only [bind_some]
        rw [hfin]
        exact ⟨_, rfl, hdone⟩
      · rw [update_self, updNat_self]
      · rw [updNat_self]
        exact hptr
    · obtain ⟨w₁, hnew, hL₁, sess, aps, sessions, data, rfl⟩ := hL.refuse hptr haps ha hfresh ho
      rw [hnew]
      refine ⟨_, rfl, ⟨?_, ⟨L, hL₁⟩, hg.nodup, hg.instances, hg.once⟩⟩
      exact hg.rules.congr rfl hg.rules.listed rfl rfl fun _ => rfl
  · rw [if_neg hn]
    cases hfin : c.finalised with
    | false => exact ⟨_, rfl, hg⟩
    | true =>
      have hdone := hg.enter hL ⟨_, _, _, _, _, rfl⟩ (fun _ _ => rfl) (hown.trans haps.symm)
          (fun _ _ => rfl) hl.entry hptr hl.rule
        (fun nat => { nat with natRef := if c.me then 2 else 1 }) fun _ => ⟨rfl, rfl⟩
      exact ⟨_, rfl, hdone⟩

/-! ## Runs -/

/-- What comes in from outside: rules in new memory, and entries that are there. -/
def Legal (w : Soft Name) : Op Name → Prop
  | .load n r => n ∉ w.rules ∧ r.inApr = none ∧ r.inUse = 0
  | .remove n _ => n ∈ w.natList
  | .ctl _ _ => True
  | .create c => c.Legal w
  | .packet e _ => e ∈ w.nats
  | .delete e _ => e ∈ w.nats
  | .hold e => e ∈ w.nats

/-- The step leaks nothing: no rule is refused after its proxy is found, no proxy that exists is controlled, an entry with a
session is finished and the private data can be freed, and no session is abandoned. -/
def Calm (w : Soft Name) : Op Name → Prop
  | .load _ r => ∀ label, r.inPlabel = some label → Found w (r.inPr (!r.inRedirect)) label →
      ¬(r.inAge false = 0 ∧ r.inAge true ≠ 0)
  | .ctl pr label => ¬Found w pr label
  | .create c => c.Calm w
  | .packet e rv => ((w.nat e).natPtr.bind fun n => (w.ipn n).inApr) ≠ none → (w.nat e).natAps ≠ none → rv ≠ 2
  | _ => True

theorem good_init (proxies : List ℕ) (apr : ℕ → Aproxy Name) (ipn : ℕ → Ipnat Name) (nat : ℕ → NatT)
    (aps : ℕ → ApSession) :
    Good (init proxies apr ipn nat aps) fun _ => 0 := by
  refine ⟨⟨⟨nofun, fun n => ?_⟩, nodup_nil, nodup_nil, fun a => ?_⟩,
    ⟨[], Lists.nil fun _ _ => rfl, .refl _, fun x => ⟨nofun, nofun⟩, nofun, fun d => ⟨nofun, nofun⟩, nodup_nil,
      nofun, nofun⟩,
    nodup_nil, nofun, nodup_nil⟩
  · have hnone : holders {e | e ∈ ([] : List ℕ)} (fun e => (nat e).natPtr) n = 0 := by simp [holders]
    unfold Soft.ruleTotal
    change n ∈ [] ↔ 0 < (if n ∈ [] then 1 else 0) + holders {e | e ∈ []} (fun e => (nat e).natPtr) n + 0
    rw [hnone]
    simp
  · change (0 : ℤ) = ((holders {n | n ∈ []} (fun n => (ipn n).inApr) a : ℕ) : ℤ)
    simp [holders]

variable [DecidableEq Name]

/-- **Runs** whose steps are legal and meet a condition `C`. -/
inductive Run (C : Soft Name → Op Name → Prop) (w₀ : Soft Name) : Soft Name → Prop
  | start : Run C w₀ w₀
  | step {w w' : Soft Name} {op : Op Name} : Run C w₀ w → Legal w op → C w op → ProxyLife.step w op = some w' →
      Run C w₀ w'

/-- **What a step does,** when it leaks nothing. -/
theorem Good.step (h : Good w fun _ => 0) {op : Op Name} (hl : Legal w op) (hc : Calm w op) :
    ∃ w', ProxyLife.step w op = some w' ∧ Good w' fun _ => 0 := by
  cases op with
  | load n r =>
    obtain ⟨hn, hr, hu⟩ := hl
    exact ⟨_, rfl, h.load hn hr hu hc⟩
  | remove n purge => exact (h.updRule n purge).remove hl purge
  | ctl pr label => exact ⟨_, rfl, h.ctl hc⟩
  | create c => exact h.create hl hc
  | packet e rv => exact ⟨w, h.check hl hc, h⟩
  | delete e destroy =>
    obtain ⟨w', hw', hg, -⟩ := h.delete hl destroy
    exact ⟨w', hw', hg⟩
  | hold e => exact ⟨_, rfl, h.updNat rfl rfl⟩

/-- **What should hold in each state:** the list has the sessions of entries, these and their private data are what is
allocated, the references to proxies are those of rules, and the next step frees nothing that is not allocated. -/
structure Right (w : Soft Name) (C : Soft Name → Op Name → Prop) : Prop where
  list : ∃ L, Lists w.sess [()] (fun _ => L) ∧ w.sessions.Perm L ∧ ∀ x, x ∈ L ↔
    ∃ e ∈ w.nats, (w.nat e).natAps = some x
  nodup : w.sessions.Nodup
  data : w.data.Nodup ∧ ∀ d, d ∈ w.data ↔ ∃ x ∈ w.sessions, (w.aps x).apsData = some d
  refs : ∀ a, (w.apr a).aprRef = {n | n ∈ w.rules ∧ (w.ipn n).inApr = some a}.ncard
  next : ∀ op, Legal w op → C w op → ∃ w', ProxyLife.step w op = some w'

theorem Good.right (h : Good w fun _ => 0) : Right w Calm := by
  obtain ⟨L, hL⟩ := h.sess
  refine ⟨⟨L, hL.list, hL.perm, fun x => ?_⟩, hL.perm.nodup_iff.2 hL.lnodup, ⟨hL.nodup, fun d => ?_⟩, h.rules.refs,
    fun op hl hc => ?_⟩
  · rw [hL.owner]
    refine exists_congr fun e => ?_
    unfold Soft.owned
    split
    · rename_i he
      exact (and_iff_right he).symm
    · rename_i he
      exact ⟨nofun, fun hc => absurd hc.1 he⟩
  · rw [hL.data]
    exact exists_congr fun x => and_congr_left fun _ => hL.perm.mem_iff.symm
  · obtain ⟨w', hw', -⟩ := h.step hl hc
    exact ⟨w', hw'⟩

/-- **In all runs that leak nothing sessions live as long as their entries,** and proxies have the references of rules. -/
theorem sessions_kept (proxies : List ℕ) (apr : ℕ → Aproxy Name) (ipn : ℕ → Ipnat Name) (nat : ℕ → NatT)
    (aps : ℕ → ApSession) (hr : Run Calm (init proxies apr ipn nat aps) w) : Right w Calm := by
  have hgood : Good w fun _ => 0 := by
    induction hr with
    | start => exact good_init proxies apr ipn nat aps
    | step _ hl hc hs ih =>
      obtain ⟨w', hw', hg⟩ := ih.step hl hc
      rw [hs, Option.some.injEq] at hw'
      rwa [hw']
  exact hgood.right

/-! A proxy with a rule, for which a packet makes a session. -/

def empty : Soft ℕ :=
  init [0] (fun _ => ⟨21, 6, false, 0, true, .keeps⟩) (fun _ => ⟨none, false, fun _ => 0, fun _ => 0, none, 0, false⟩)
    (fun _ => ⟨none, none, 0, false⟩) fun _ => ⟨0, 0, none, 0⟩

def ftp : Ipnat ℕ := ⟨some 21, false, fun _ => 6, fun _ => 0, none, 0, false⟩

def loaded : Soft ℕ := ipfNatSiocaddnat empty 7 ftp

theorem loaded_run : Run Calm empty loaded := by
  have hcalm : Calm empty (.load 7 ftp) := by
    intro _ _ _ hage
    exact hage.2 rfl
  have hlegal : Legal empty (.load 7 ftp) := ⟨by decide, rfl, rfl⟩
  exact .step .start hlegal hcalm rfl

def first : Creation := ⟨5, 7, false, 6, false, some 3, ⟨true, some 4, 8⟩, true⟩

theorem sessions_kept_first : ∃ w, ipfNatAdd loaded first = some w ∧ Right w Calm := by
  have hapr : ∀ a, (loaded.ipn 7).inApr = some a → a = 0 := fun a ha => (Option.some.inj ha).symm
  have hl : first.Legal loaded := by
    refine ⟨by decide, by decide, fun a ha => ?_⟩
    obtain rfl := hapr a ha
    exact ⟨fun _ _ => by decide +revert, fun _ _ => by decide +revert, nofun, nofun⟩
  have hc : first.Calm loaded := by
    intro a ha _ _
    obtain rfl := hapr a ha
    exact ⟨rfl, fun _ => Or.inl (by decide)⟩
  refine ⟨_, rfl, ?_⟩
  have hrun : ∀ w', ProxyLife.step loaded (.create first) = some w' → Run Calm empty w' := fun _ => .step loaded_run hl hc
  exact sessions_kept _ _ _ _ _ (hrun _ rfl)

/-- **A proxy that is controlled keeps a reference** that no rule has. -/
theorem control_leaks : ¬∀ (proxies : List ℕ) (apr : ℕ → Aproxy ℕ) (ipn : ℕ → Ipnat ℕ) (nat : ℕ → NatT)
    (aps : ℕ → ApSession) (w : Soft ℕ), Run (fun _ _ => True) (init proxies apr ipn nat aps) w →
      Right w fun _ _ => True := by
  intro hall
  have hlegal : Legal empty (.ctl 6 21) := trivial
  have hrun : Run (fun _ _ => True) empty (ipfProxyCtl empty 6 21) := .step .start hlegal trivial rfl
  have href := (hall _ _ _ _ _ _ hrun).refs 0
  have hleak : ((ipfProxyCtl empty 6 21).apr 0).aprRef = 1 := by decide
  have hnone : {n | n ∈ (ipfProxyCtl empty 6 21).rules ∧ ((ipfProxyCtl empty 6 21).ipn n).inApr = some 0} = ∅ :=
    Set.eq_empty_of_forall_notMem fun n hn => absurd hn.1 (not_mem_nil)
  rw [hleak, hnone, Set.ncard_empty] at href
  omega

end Ipfilter.ProxyLife
