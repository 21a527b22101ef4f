import Mathlib.Data.List.TakeWhile
import Ipfilter.Chain.Cursor
import Ipfilter.Spec.Ruleiter

/-!
# What an iteration over rules or groups hands out

* `nextruleLoop_eq`, `nextrule_none`, `nextrule_grouped`: which rule `ipf_nextrule` finds.
* `follows_sequence`: the order in which `ipf_getnextrule` goes through the rules.
* `calls_run`: a run of calls hands out a sequence, the token being complete after the last of it.
* `getnextrule_step`, `groupIter_step`: one call.
* `ruleMeets_iff`, `groupMeets_iff`, `iteration_meets`: **when an iteration hands out what was asked for, and leaves no
  reference behind.** Rules are gone through on to the groups after the one asked for. A group token drops no reference.
-/

namespace Ipfilter.Ruleiter

open Chain Rulegroups List

/-! ## Rule sets -/

/-- **A rule set in memory**: what the lists of rules and of groups are. No two groups of a list have the same name, and a
rule knows the name of the group it is in. -/
structure Loaded (s : Softc) (L : Head → List Addr) (G : ℕ × Bool → List Addr) : Prop where
  rules : ∀ h, Spells s.mem.next (s.mem.head h) (L h)
  groups : ∀ h, Spells s.gmem.next (s.gmem.head h) (G h)
  rule : ∀ h, ∀ fr ∈ L h, s.rule fr = true ∧ 0 < (s.fr fr).frRef
  group : ∀ h, ∀ g ∈ G h, s.group g = true ∧ 0 < (s.fg g).fgRef
  names : ∀ h, (G h).Pairwise fun g g' => sameName (s.fg g).fgName (s.fg g').fgName = false
  grouped : ∀ h, ∀ g ∈ G h, ∀ fr ∈ L (.group g), ∃ name, (s.fr fr).frGroup = some name ∧
    sameName name (s.fg g).fgName = true
  ungrouped : ∀ out set fr, fr ∈ L (.rules out set) ∨ fr ∈ L (.acct out set) → (s.fr fr).frGroup = none

/-- The loops have passes enough for the groups and the rules in them. -/
def Enough (passes : ℕ) (L : Head → List Addr) (gs : List Addr) : Prop :=
  gs.length ≤ passes ∧ ∀ g ∈ gs, (L (.group g)).length ≤ passes

variable {s : Softc} {L : Head → List Addr} {G : ℕ × Bool → List Addr} {passes : ℕ} {it : Ipfruleiter} {out : Bool}
  {gs : List Addr}

/-! ## Finding the next rule -/

theorem walk_eq {next : Addr → Option Addr} {p : Addr → Bool} {o : Option Addr} {l : List Addr} {i : ℕ}
    (h : Spells next o l) (hi : l.length ≤ i) : walk next p i o = some (l.find? p) := by
  induction l generalizing o i with
  | nil =>
    obtain rfl : o = none := h
    cases i <;> rfl
  | cons x l ih =>
    obtain ⟨rfl, h⟩ := h
    obtain ⟨j, rfl⟩ : ∃ j, i = j + 1 := ⟨i - 1, by simp at hi; omega⟩
    rw [walk, find?_cons]
    by_cases hx : p x
    · simp [hx]
    · simp only [hx, Bool.false_eq_true, if_false]
      exact ih h (by simpa using hi)

/-- The rules that `ipf_nextrule` goes on to in the groups: of each the rules from the first of the direction on. -/
def onward (s : Softc) (L : Head → List Addr) (out : Bool) (gs : List Addr) : List Addr :=
  gs.flatMap fun g => (L (.group g)).dropWhile fun fr => !dir s out fr

theorem nextruleLoop_eq (hl : Loaded s L G) {o : Option Addr} {i : ℕ} (h : Spells s.gmem.next o gs)
    (hi : gs.length ≤ i) (hr : ∀ g ∈ gs, (L (.group g)).length ≤ passes) :
    nextruleLoop passes s out i o = some (onward s L out gs).head? := by
  induction gs generalizing o i with
  | nil =>
    obtain rfl : o = none := h
    cases i <;> rfl
  | cons g gs ih =>
    obtain ⟨rfl, h⟩ := h
    obtain ⟨j, rfl⟩ : ∃ j, i = j + 1 := ⟨i - 1, by simp at hi; omega⟩
    have hw := walk_eq (p := dir s out) (hl.rules (.group g)) (hr g mem_cons_self)
    have hrest := ih h (by simpa using hi) fun g' hg' => hr g' (mem_cons_of_mem _ hg')
    rw [find?_eq_head?_dropWhile_not] at hw
    simp only [nextruleLoop, hw, onward, flatMap_cons, Option.bind_eq_bind, Option.bind_some]
    cases hd : (L (.group g)).dropWhile fun fr => !dir s out fr with
    | nil => simpa [hd, onward] using hrest
    | cons x l => rfl

theorem sameName_iff {a b : List Char} : sameName a b = true ↔ a.take FR_GROUPLEN = b.take FR_GROUPLEN := by
  simp [sameName]

theorem findgroup_eq (hl : Loaded s L G) (name : List Char) (unit : ℕ) (set : Bool) (hp : (G (unit, set)).length ≤ passes) :
    ipfFindgroup passes s name unit set = some ((G (unit, set)).find? fun g => sameName name (s.fg g).fgName) :=
  walk_eq (hl.groups (unit, set)) hp

/-- The name of a group of a list finds it. -/
theorem find_name (hl : Loaded s L G) {h : ℕ × Bool} {a b : List Addr} {g : Addr} (hG : G h = a ++ g :: b) {name : List Char}
    (hn : sameName name (s.fg g).fgName = true) : (G h).find? (fun g => sameName name (s.fg g).fgName) = some g := by
  have hpair := hl.names h
  rw [hG, pairwise_append] at hpair
  rw [hG, find?_append, find?_eq_none.2, Option.none_or, find?_cons_of_pos (by exact hn)]
  intro g' hg' hsame
  -- the earlier group would have the name of the later one
  have hne := hpair.2.2 g' hg' g mem_cons_self
  have heq : sameName (s.fg g').fgName (s.fg g).fgName = true :=
    sameName_iff.2 ((sameName_iff.1 hsame).symm.trans (sameName_iff.1 hn))
  rw [hne] at heq
  cases heq

section

variable {active : Bool} {unit : ℕ}

/-- From a rule in no group, or none, the groups are gone through from the start. -/
theorem nextrule_none (hl : Loaded s L G) (hp : Enough passes L (G (unit, active))) {fr : Option Addr}
    (hfr : (fr.bind fun a => (s.fr a).frGroup) = none) :
    ipfNextrule passes s active unit fr out = some (onward s L out (G (unit, active))).head? := by
  simp only [ipfNextrule, hfr, Option.pure_def, Option.bind_eq_bind, Option.bind_some]
  exact nextruleLoop_eq hl (hl.groups (unit, active)) hp.1 hp.2

/-- From a rule in a group, the groups after it. -/
theorem nextrule_grouped (hl : Loaded s L G) {a b : List Addr} {g fr : Addr} (hG : G (unit, active) = a ++ g :: b)
    (hp : Enough passes L (G (unit, active))) (hfr : fr ∈ L (.group g)) :
    ipfNextrule passes s active unit (some fr) out = some (onward s L out b).head? := by
  obtain ⟨name, hname, hsame⟩ := hl.grouped (unit, active) g (by rw [hG]; simp) fr hfr
  have hfind := findgroup_eq hl name unit active hp.1
  rw [find_name hl hG hsame] at hfind
  have hrest : Spells s.gmem.next (s.gmem.next g) b := (hG ▸ hl.groups (unit, active)).rest
  have hlen := hp.1
  rw [hG, length_append, length_cons] at hlen
  simp only [ipfNextrule, Option.bind_some, hname, hfind, Option.pure_def, Option.bind_eq_bind]
  refine nextruleLoop_eq hl hrest (by omega) fun g' hg' => hp.2 g' ?_
  rw [hG]
  simp [hg']

end

/-! ## The order of the rules -/

/-- The groups from the one with the name on. -/
def named (s : Softc) (gs : List Addr) (name : List Char) : List Addr := gs.dropWhile fun g => !sameName name (s.fg g).fgName

/-- What the iteration goes through. -/
def sequence (s : Softc) (L : Head → List Addr) (gs : List Addr) (it : Ipfruleiter) : List Addr :=
  if it.iriGroup = [] then L it.head ++ onward s L it.out gs
  else match named s gs it.iriGroup with
    | [] => []
    | g :: post => if L (.group g) = [] then [] else L (.group g) ++ onward s L it.out post

/-- The rule after this one, in its list or in a later group. -/
def nextOf (passes : ℕ) (s : Softc) (it : Ipfruleiter) (fr : Addr) : Option (Option Addr) :=
  match s.mem.next fr with
  | some next => some (some next)
  | none => ipfNextrule passes s it.active it.unit (some fr) it.out

/-- Each rule of the list is the one after the rule before it. -/
abbrev Passed (passes : ℕ) (s : Softc) (it : Ipfruleiter) : List Addr → Prop :=
  Follows fun fr next => nextOf passes s it fr = some next

section

variable (hl : Loaded s L G) (hp : Enough passes L (G (it.unit, it.active)))

include hl

/-- Along a list of rules and, where it ends, on to what `ipf_nextrule` finds from each of them. -/
theorem passed_append {h : Head} {a l tail : List Addr} (hL : L h = a ++ l)
    (hend : ∀ fr ∈ l, ipfNextrule passes s it.active it.unit (some fr) it.out = some tail.head?)
    (htail : Passed passes s it tail) : Passed passes s it (l ++ tail) := by
  induction l generalizing a with
  | nil => exact htail
  | cons x l ih =>
    have hnext : s.mem.next x = l.head? := (hL ▸ hl.rules h).at
    refine ⟨?_, ih (a := a ++ [x]) (by rw [hL, append_assoc]; rfl) fun fr hfr => hend fr (mem_cons_of_mem _ hfr)⟩
    cases l with
    | nil => simpa [nextOf, hnext] using hend x mem_cons_self
    | cons y l => simp [nextOf, hnext]

include hp

theorem passed_onward {a gs : List Addr} (hG : G (it.unit, it.active) = a ++ gs) :
    Passed passes s it (onward s L it.out gs) := by
  induction gs generalizing a with
  | nil => trivial
  | cons g gs ih =>
    obtain ⟨pre', hpre'⟩ := dropWhile_suffix (fun fr => !dir s it.out fr) (l := L (.group g))
    refine passed_append hl hpre'.symm (fun fr hfr => ?_) (ih (a := a ++ [g]) (by rw [hG, append_assoc]; rfl))
    exact nextrule_grouped hl hG hp (hpre' ▸ mem_append_right pre' hfr)

/-- **Each rule is followed by the next one of the sequence.** -/
theorem passed_sequence : Passed passes s it (sequence s L (G (it.unit, it.active)) it) := by
  unfold sequence
  by_cases hgroup : it.iriGroup = []
  · rw [if_pos hgroup]
    refine passed_append hl (a := []) rfl (fun fr hfr => nextrule_none hl hp ?_) (passed_onward hl hp (a := []) rfl)
    refine hl.ungrouped it.out it.active fr ?_
    unfold Ipfruleiter.head at hfr
    by_cases hacct : it.acct
    · exact .inr (by simpa [hacct] using hfr)
    · exact .inl (by simpa [hacct] using hfr)
  · rw [if_neg hgroup]
    obtain ⟨pre, hpre⟩ := dropWhile_suffix (fun g => !sameName it.iriGroup (s.fg g).fgName) (l := G (it.unit, it.active))
    cases hn : named s (G (it.unit, it.active)) it.iriGroup with
    | nil => trivial
    | cons g post =>
      have hG : G (it.unit, it.active) = pre ++ g :: post := by rw [← hpre, ← hn]; rfl
      by_cases hL : L (.group g) = []
      · simp [hL, Follows]
      · simp only [hL, if_false]
        refine passed_append hl (a := []) rfl (fun fr hfr => nextrule_grouped hl hG hp hfr) ?_
        exact passed_onward hl hp (a := pre ++ [g]) (by rw [hG, append_assoc]; rfl)

/-- The first call finds the first of the sequence. -/
theorem findNext_none : findNext passes s it none = some (sequence s L (G (it.unit, it.active)) it).head? := by
  unfold findNext sequence
  by_cases hgroup : it.iriGroup = []
  · have hnext : ipfNextrule passes s it.active it.unit none it.out =
        some (onward s L it.out (G (it.unit, it.active))).head? :=
      nextrule_none hl hp rfl
    have hhead : s.mem.head it.head = (L it.head).head? := (hl.rules it.head).head?
    simp only [hgroup, if_true, hhead]
    cases hL : L it.head with
    | nil => simpa using hnext
    | cons x l => rfl
  · have hfind := findgroup_eq hl it.iriGroup it.unit it.active hp.1
    rw [find?_eq_head?_dropWhile_not] at hfind
    simp only [hgroup, if_false, hfind, named, Option.bind_eq_bind, Option.bind_some, Option.pure_def]
    cases hn : (G (it.unit, it.active)).dropWhile fun g => !sameName it.iriGroup (s.fg g).fgName with
    | nil => rfl
    | cons g post =>
      simp only [head?_cons, (hl.rules (.group g)).head?]
      by_cases hL : L (.group g) = []
      · simp [hL]
      · rw [if_neg hL, head?_append_of_ne_nil _ hL]

end

/-- What comes is a rule of some list. -/
theorem mem_sequence {fr : Addr} (h : fr ∈ sequence s L gs it) : ∃ h, fr ∈ L h := by
  have honward : ∀ {gs : List Addr}, fr ∈ onward s L it.out gs → ∃ h, fr ∈ L h := by
    intro gs hmem
    obtain ⟨g, -, hg⟩ := mem_flatMap.1 hmem
    exact ⟨.group g, (dropWhile_sublist _).mem hg⟩
  unfold sequence at h
  by_cases hgroup : it.iriGroup = []
  · rw [if_pos hgroup, mem_append] at h
    exact h.elim (fun h => ⟨_, h⟩) honward
  · rw [if_neg hgroup] at h
    cases hn : named s gs it.iriGroup with
    | nil =>
      rw [hn] at h
      cases h
    | cons g post =>
      rw [hn] at h
      by_cases hL : L (.group g) = []
      · simp [hL] at h
      · simp only [hL, if_false, mem_append] at h
        exact h.elim (fun h => ⟨_, h⟩) honward

/-! ## References -/

/-- The state while a token holds a reference to a rule. -/
def held (s : Softc) : Option Addr → Softc
  | none => s
  | some fr => s.updFr fr fun f => { f with frRef := f.frRef + 1 }

section

variable {o : Option Addr}

@[simp] theorem mem_held : (held s o).mem = s.mem := by cases o <;> rfl

@[simp] theorem gmem_held : (held s o).gmem = s.gmem := by cases o <;> rfl

@[simp] theorem fg_held : (held s o).fg = s.fg := by cases o <;> rfl

@[simp] theorem rule_held : (held s o).rule = s.rule := by cases o <;> rfl

@[simp] theorem group_held : (held s o).group = s.group := by cases o <;> rfl

@[simp] theorem frFlags_held (fr : Addr) : ((held s o).fr fr).frFlags = (s.fr fr).frFlags := by
  cases o with
  | none => rfl
  | some x => by_cases h : fr = x <;> simp [held, Softc.updFr, h]

@[simp] theorem frGroup_held (fr : Addr) : ((held s o).fr fr).frGroup = (s.fr fr).frGroup := by
  cases o with
  | none => rfl
  | some x => by_cases h : fr = x <;> simp [held, Softc.updFr, h]

theorem frRef_held (fr : Addr) : ((held s o).fr fr).frRef = (s.fr fr).frRef + if o = some fr then 1 else 0 := by
  cases o with
  | none => simp [held]
  | some x => by_cases h : fr = x <;> simp [held, Softc.updFr, h, eq_comm]

theorem dir_held : dir (held s o) out = dir s out := by
  funext fr
  simp [dir]

/-- A reference changes nothing that the order depends on. -/
theorem sequence_held (gs : List Addr) : sequence (held s o) L gs it = sequence s L gs it := by
  simp [sequence, named, onward, dir_held]

theorem Loaded.held (hl : Loaded s L G) (o : Option Addr) : Loaded (held s o) L G := by
  constructor
  case rule =>
    intro h fr hfr
    have hpos := (hl.rule h fr hfr).2
    refine ⟨by simpa using (hl.rule h fr hfr).1, ?_⟩
    rw [frRef_held]
    split <;> omega
  case rules => simpa using hl.rules
  case groups => simpa using hl.groups
  case group => simpa using hl.group
  case names => simpa using hl.names
  case grouped => simpa using hl.grouped
  case ungrouped => simpa using hl.ungrouped

/-- **A rule that is referenced otherwise is not freed** when the reference of a token is dropped. -/
theorem derefrule_held (hl : Loaded s L G) {h : Head} {fr : Addr} (hfr : fr ∈ L h) :
    ipfDerefrule passes (held s (some fr)) fr = some (s, -1) := by
  obtain ⟨hrule, hpos⟩ := hl.rule h fr hfr
  have hback : (Ruleiter.held s (some fr)).updFr fr (fun f => { f with frRef := f.frRef - 1 }) = s := by
    simp [Ruleiter.held, Softc.updFr]
  unfold ipfDerefrule
  simp only [rule_held, hrule, hback]
  rw [if_neg (by simp), if_neg (by omega)]

end

/-! ## One call for a rule -/

section

variable (hl : Loaded s L G) (hp : Enough passes L (G (it.unit, it.active))) (hc : it.check = none)

include hl hp

theorem predict_some {a b : List Addr} {x : Addr} (hS : sequence s L (G (it.unit, it.active)) it = a ++ x :: b) :
    predict passes s it (some x) = some (decide (b ≠ [])) := by
  have hnext := (hS ▸ passed_sequence hl hp).at
  unfold nextOf at hnext
  unfold predict
  cases hm : s.mem.next x with
  | some y =>
    rw [hm] at hnext
    cases b with
    | nil => simp at hnext
    | cons z b => simp [hm]
  | none =>
    rw [hm] at hnext
    simp only [Option.bind_some, hm] at hnext ⊢
    rw [hnext]
    cases b <;> simp

theorem predict_none : predict passes s it none = some (decide (onward s L it.out (G (it.unit, it.active)) ≠ [])) := by
  unfold predict
  simp only [Option.bind_none]
  rw [nextrule_none hl hp rfl]
  cases onward s L it.out (G (it.unit, it.active)) <;> simp

include hc

/-- **A call hands out the next rule.** -/
theorem getnextrule_step {type : ℕ} {a b : List Addr} {x : Addr}
    (hS : sequence s L (G (it.unit, it.active)) it = a ++ x :: b) :
    ipfGetnextrule passes (held s a.getLast?) ⟨type, a.getLast?, 0⟩ it =
      some (held s (some x), ⟨type, some x, if b = [] then 1 else 0⟩, .copy (some x)) := by
  have hl' := hl.held a.getLast?
  have hS' := hS
  rw [← sequence_held (o := a.getLast?)] at hS'
  have hfind : findNext passes (held s a.getLast?) it a.getLast? = some (some x) := by
    rcases eq_nil_or_concat' a with rfl | ⟨a, y, rfl⟩
    · have h := findNext_none hl' hp
      rw [hS'] at h
      exact h
    · -- the rule before is one of the sequence
      have h : nextOf passes (held s (a ++ [y]).getLast?) it y = some (some x) := by
        have hpass := passed_sequence hl' hp
        rw [hS', append_assoc] at hpass
        exact hpass.at
      simp only [getLast?_append_cons, getLast?_singleton] at h ⊢
      unfold findNext
      unfold nextOf at h
      simp only [mem_held] at h ⊢
      cases hm : s.mem.next y <;> simpa [hm] using h
  have hmore := predict_some hl' hp hS'
  have hdrop : ruleDrop passes (held s a.getLast?) a.getLast? = some s := by
    rcases eq_nil_or_concat' a with rfl | ⟨a, y, rfl⟩
    · rfl
    · have hy : y ∈ sequence s L (G (it.unit, it.active)) it := by simp [hS]
      obtain ⟨h, hy⟩ := mem_sequence hy
      simp [ruleDrop, derefrule_held hl hy]
  unfold ipfGetnextrule
  simp only [hc, hfind, hmore, Option.bind_eq_bind, Option.bind_some, hdrop]
  by_cases hb : b = [] <;> simp [hb, Ruleiter.held, ipfTokenMarkComplete]

/-- A call with no rule to hand out. The token is complete unless some group has a rule of the direction. -/
theorem getnextrule_empty {type : ℕ} (hS : sequence s L (G (it.unit, it.active)) it = []) :
    ipfGetnextrule passes s ⟨type, none, 0⟩ it =
      some (s, ⟨type, none, if onward s L it.out (G (it.unit, it.active)) = [] then 1 else 0⟩, .copy none) := by
  have hfind := findNext_none hl hp
  rw [hS] at hfind
  unfold ipfGetnextrule
  simp only [hc, hfind, predict_none hl hp, head?_nil, ruleDrop, Option.bind_eq_bind, Option.bind_some]
  by_cases hb : onward s L it.out (G (it.unit, it.active)) = [] <;> simp [hb, ipfTokenMarkComplete]

end

/-! ## Runs of calls -/

abbrev Call := Softc → Ipftoken → Option (Softc × Ipftoken × Reply)

/-- What is copied out when these are all: one filled with zeroes if there are none. -/
def replies (l : List Addr) : List Reply := if l = [] then [.copy none] else l.map fun a => .copy (some a)

/-- **Calls with one token hand out the list**, and the token is complete with the last of it. -/
def Yields (call : Call) (s : Softc) (t : Ipftoken) (l : List Addr) : Prop :=
  ∀ n, ∃ s' t', calls call n s t = some (s', t', (replies l).take n) ∧ (0 < t'.iptComplete ↔ (replies l).length ≤ n)

/-- **After any number of calls and the end of the token** the references are what they were. -/
def Restores (call : Call) (free : Softc → Ipftoken → Option Softc) (s : Softc) (t : Ipftoken) : Prop :=
  ∀ n, ∃ s' t' r s'', calls call n s t = some (s', t', r) ∧ free s' t' = some s'' ∧
    (∀ fr, (s''.fr fr).frRef = (s.fr fr).frRef) ∧ ∀ g, (s''.fg g).fgRef = (s.fg g).fgRef

theorem replies_injective {l l' : List Addr} (h : replies l = replies l') : l = l' := by
  unfold replies at h
  have hinj : Function.Injective fun a : Addr => Reply.copy (some a) := fun a b hab => by simpa using hab
  by_cases hl : l = [] <;> by_cases hl' : l' = []
  · rw [hl, hl']
  · cases l' <;> simp [hl] at h hl'
  · cases l <;> simp [hl'] at h hl
  · rw [if_neg hl, if_neg hl'] at h
    exact hinj.list_map h

/-- A run hands out one list only. -/
theorem Yields.unique {call : Call} {t : Ipftoken} {l l' : List Addr} (h : Yields call s t l) (h' : Yields call s t l') :
    l = l' := by
  obtain ⟨s₁, t₁, e₁, -⟩ := h ((replies l).length + (replies l').length)
  obtain ⟨s₂, t₂, e₂, -⟩ := h' ((replies l).length + (replies l').length)
  rw [e₁, take_of_length_le (by omega), take_of_length_le (by omega)] at e₂
  exact replies_injective (by simpa using congrArg (fun r => r.map fun r => r.2.2) e₂)

theorem calls_complete {call : Call} {t : Ipftoken} (ht : 0 < t.iptComplete) (n : ℕ) :
    calls call n s t = some (s, t, []) := by
  cases n with
  | zero => rfl
  | succ n => rw [calls, if_pos ht]

section

variable {call : Call} {w : Option Addr → Softc} {type : ℕ} {S : List Addr}
  (hcall : ∀ {a b : List Addr} {x : Addr}, S = a ++ x :: b →
    call (w a.getLast?) ⟨type, a.getLast?, 0⟩ =
      some (w (some x), ⟨type, some x, if b = [] then 1 else 0⟩, .copy (some x)))

include hcall

/-- **A run goes on through the sequence from where the token is.** Each call hands out the next one, and only the last of
the sequence completes the token. -/
theorem calls_run (n : ℕ) {a b : List Addr} {x : Addr} (hS : S = a ++ x :: b) :
    calls call n (w a.getLast?) ⟨type, a.getLast?, 0⟩ =
      some (w (a ++ (x :: b).take n).getLast?, ⟨type, (a ++ (x :: b).take n).getLast?, if b.length < n then 1 else 0⟩,
        ((x :: b).take n).map fun a => .copy (some a)) := by
  induction n generalizing a b x with
  | zero => simp [calls]
  | succ n ih =>
    rw [calls, if_neg (by simp), hcall hS]
    simp only [Option.bind_eq_bind, Option.bind_some]
    cases b with
    | nil =>
      rw [calls_complete (by simp)]
      simp
    | cons y b =>
      have h := ih (a := a ++ [x]) (b := b) (x := y) (by rw [hS, append_assoc]; rfl)
      simp only [getLast?_append_cons, getLast?_singleton, append_assoc] at h
      simp only [reduceCtorEq, if_false, h, Option.bind_some, Option.pure_def, take_succ_cons, map_cons, length_cons,
        Nat.add_lt_add_iff_right]
      rfl

theorem calls_start (hS : S ≠ []) (n : ℕ) : calls call n (w none) (.init type) =
    some (w (S.take n).getLast?, ⟨type, (S.take n).getLast?, if S.length ≤ n then 1 else 0⟩, (replies S).take n) := by
  obtain ⟨x, b, rfl⟩ := exists_cons_of_ne_nil hS
  have h := calls_run hcall n (a := []) rfl
  simp only [getLast?_nil, nil_append] at h
  rw [replies, if_neg hS, ← map_take]
  simp only [length_cons, Nat.add_one_le_iff]
  exact h

/-- What a run of calls hands out, when there is something. -/
theorem yields_run (hS : S ≠ []) : Yields call (w none) (.init type) S := by
  intro n
  refine ⟨_, _, calls_start hcall hS n, ?_⟩
  rw [replies, if_neg hS, length_map]
  by_cases h : S.length ≤ n <;> simp [h]

end

/-! ## Iterating over rules -/

/-- The rules of the direction and the set, and of the group if there is one, in the order of the lists. -/
def requested (s : Softc) (L : Head → List Addr) (gs : List Addr) (it : Ipfruleiter) : List Addr :=
  if it.iriGroup = [] then (L it.head).filter (dir s it.out) ++ gs.flatMap fun g => (L (.group g)).filter (dir s it.out)
  else match gs.find? fun g => sameName it.iriGroup (s.fg g).fgName with
    | some g => (L (.group g)).filter (dir s it.out)
    | none => []

/-- **What is expected of an iteration over rules.** -/
def RuleMeets (passes : ℕ) (free : Softc → Ipftoken → Option Softc) (s : Softc) (L : Head → List Addr) (gs : List Addr)
    (it : Ipfruleiter) : Prop :=
  Yields (fun s t => ipfGetnextrule passes s t it) s (.init IPFGENITER_IPF) (requested s L gs it) ∧
    Restores (fun s t => ipfGetnextrule passes s t it) free s (.init IPFGENITER_IPF)

/-- The rules of a list are all of the direction. -/
def AllDir (s : Softc) (out : Bool) (l : List Addr) : Prop := ∀ fr ∈ l, dir s out fr = true

/-- No rule of these groups is of the direction. -/
def NoDir (s : Softc) (L : Head → List Addr) (out : Bool) (gs : List Addr) : Prop :=
  ∀ g ∈ gs, ∀ fr ∈ L (.group g), dir s out fr = false

/-- **When the order is that of the request.** Without a group, the rules of the list are all of the direction, and in each
group those after the first that is. With a group that has rules, they are all of the direction and no later group has one.
With one that has none or is not there, no group has one. -/
def Alone (s : Softc) (L : Head → List Addr) (gs : List Addr) (it : Ipfruleiter) : Prop :=
  if it.iriGroup = [] then
    AllDir s it.out (L it.head) ∧ ∀ g ∈ gs, AllDir s it.out ((L (.group g)).dropWhile fun fr => !dir s it.out fr)
  else match named s gs it.iriGroup with
    | [] => NoDir s L it.out gs
    | g :: post =>
      if L (.group g) = [] then NoDir s L it.out gs else AllDir s it.out (L (.group g)) ∧ NoDir s L it.out post

theorem filter_eq_self_iff {l : List Addr} : l.filter (dir s out) = l ↔ AllDir s out l := filter_eq_self

/-- What is skipped at the start of a group is not of the direction. -/
theorem filter_dropWhile (l : List Addr) :
    (l.dropWhile fun fr => !dir s out fr).filter (dir s out) = l.filter (dir s out) := by
  induction l with
  | nil => rfl
  | cons x l ih => by_cases hx : dir s out x <;> simp [hx, ih]

/-- The rules of the direction are among those gone through. -/
theorem filter_onward (gs : List Addr) :
    (onward s L out gs).filter (dir s out) = gs.flatMap fun g => (L (.group g)).filter (dir s out) := by
  induction gs with
  | nil => rfl
  | cons g gs ih =>
    simp only [onward, flatMap_cons, filter_append, filter_dropWhile] at ih ⊢
    rw [ih]

theorem onward_eq_nil : onward s L out gs = [] ↔ NoDir s L out gs := by
  simp [onward, NoDir, flatMap_eq_nil_iff, dropWhile_eq_nil_iff]

theorem allDir_onward :
    AllDir s out (onward s L out gs) ↔ ∀ g ∈ gs, AllDir s out ((L (.group g)).dropWhile fun fr => !dir s out fr) := by
  simp only [AllDir, onward, mem_flatMap]
  constructor
  · intro h g hg fr hfr
    exact h fr ⟨g, hg, hfr⟩
  · rintro h fr ⟨g, hg, hfr⟩
    exact h g hg fr hfr

/-- The order is the one of the request, and ends, exactly if no other rule comes in between or after. -/
theorem sequence_eq_requested :
    (sequence s L gs it = requested s L gs it ∧ (sequence s L gs it = [] → onward s L it.out gs = [])) ↔
      Alone s L gs it := by
  unfold sequence requested Alone
  by_cases hgroup : it.iriGroup = []
  · simp only [hgroup, if_true]
    rw [← filter_onward, ← filter_append, eq_comm, filter_eq_self_iff, ← allDir_onward]
    simp only [AllDir, mem_append, append_eq_nil_iff]
    constructor
    · rintro ⟨h, -⟩
      exact ⟨fun fr hfr => h fr (.inl hfr), fun fr hfr => h fr (.inr hfr)⟩
    · rintro ⟨h, h'⟩
      exact ⟨fun fr hfr => hfr.elim (h fr) (h' fr), fun hnil => hnil.2⟩
  · simp only [hgroup, if_false]
    rw [find?_eq_head?_dropWhile_not, ← onward_eq_nil]
    change _ ↔ match named s gs it.iriGroup with | [] => _ | g :: post => _
    rw [show (gs.dropWhile fun g => !sameName it.iriGroup (s.fg g).fgName) = named s gs it.iriGroup from rfl]
    cases named s gs it.iriGroup with
    | nil => simp
    | cons g post =>
      simp only [head?_cons]
      by_cases hL : L (.group g) = []
      · simp [hL]
      · simp only [hL, if_false, append_eq_nil_iff, false_and, false_implies, and_true]
        rw [← filter_eq_self_iff, ← onward_eq_nil]
        constructor
        · intro h
          -- what comes after the group makes the sequence longer
          have hlen := congrArg length h
          have hle := length_filter_le (dir s it.out) (L (.group g))
          rw [length_append] at hlen
          have hnil : onward s L it.out post = [] := eq_nil_of_length_eq_zero (by omega)
          rw [hnil, append_nil] at h
          exact ⟨h.symm, hnil⟩
        · rintro ⟨h, hnil⟩
          rw [hnil, h, append_nil]

section

variable (hl : Loaded s L G) (hp : Enough passes L (G (it.unit, it.active))) (hc : it.check = none)

include hl hp hc

theorem calls_empty (hS : sequence s L (G (it.unit, it.active)) it = []) (n : ℕ) :
    ∃ t r, calls (fun s t => ipfGetnextrule passes s t it) n s (.init IPFGENITER_IPF) = some (s, t, r) ∧
      t.iptData = none ∧
      if onward s L it.out (G (it.unit, it.active)) = [] then r = (replies []).take n ∧ (0 < t.iptComplete ↔ 1 ≤ n)
      else t = .init IPFGENITER_IPF := by
  have hstep := @getnextrule_empty _ _ _ _ _ hl hp hc IPFGENITER_IPF hS
  induction n with
  | zero => exact ⟨_, _, rfl, rfl, by split <;> simp [Ipftoken.init]⟩
  | succ n ih =>
    by_cases hend : onward s L it.out (G (it.unit, it.active)) = []
    · simp only [hend, if_true] at hstep ⊢
      refine ⟨⟨IPFGENITER_IPF, none, 1⟩, [.copy none], ?_, rfl, by simp [replies], by simp⟩
      rw [calls, if_neg (by simp [Ipftoken.init]), Ipftoken.init, hstep]
      simp [calls_complete]
    · simp only [hend, if_false] at hstep ih ⊢
      obtain ⟨t, r, hcalls, hdata, rfl⟩ := ih
      refine ⟨_, .copy none :: r, ?_, rfl, rfl⟩
      rw [calls, if_neg (by simp [Ipftoken.init])]
      simp only [Ipftoken.init] at hcalls ⊢
      simp [hstep, hcalls]

/-- **What a run of calls hands out**, and whether it ends. -/
theorem yields_iff (l : List Addr) : Yields (fun s t => ipfGetnextrule passes s t it) s (.init IPFGENITER_IPF) l ↔
    l = sequence s L (G (it.unit, it.active)) it ∧
      (sequence s L (G (it.unit, it.active)) it = [] → onward s L it.out (G (it.unit, it.active)) = []) := by
  by_cases hS : sequence s L (G (it.unit, it.active)) it = []
  · have hempty := calls_empty hl hp hc hS
    by_cases hend : onward s L it.out (G (it.unit, it.active)) = []
    · have hyields : Yields (fun s t => ipfGetnextrule passes s t it) s (.init IPFGENITER_IPF) [] := by
        intro n
        obtain ⟨t, r, hcalls, -, hr⟩ := hempty n
        rw [if_pos hend] at hr
        exact ⟨s, t, hr.1 ▸ hcalls, by simpa [replies] using hr.2⟩
      rw [hS]
      constructor
      · intro h
        exact ⟨h.unique hyields, fun _ => hend⟩
      · rintro ⟨rfl, -⟩
        exact hyields
    · constructor
      · intro h
        -- the token is never complete
        obtain ⟨s', t', hcalls, hcomplete⟩ := h (replies l).length
        obtain ⟨t, r, hcalls', -, ht⟩ := hempty (replies l).length
        rw [if_neg hend] at ht
        rw [hcalls'] at hcalls
        obtain rfl : t = t' := by simp at hcalls; exact hcalls.2.1
        rw [ht] at hcomplete
        simp [Ipftoken.init] at hcomplete
      · rintro ⟨-, h⟩
        exact absurd (h hS) hend
  · have hyields : Yields (fun s t => ipfGetnextrule passes s t it) s (.init IPFGENITER_IPF)
        (sequence s L (G (it.unit, it.active)) it) :=
      yields_run (w := held s) (fun h => getnextrule_step hl hp hc h) hS
    constructor
    · intro h
      exact ⟨h.unique hyields, fun h => absurd h hS⟩
    · rintro ⟨rfl, -⟩
      exact hyields

/-- **A rule's token gives its reference back.** -/
theorem rule_restores (littleEndian : Bool) (others backends : ℕ → Addr → Softc → Option Softc) :
    Restores (fun s t => ipfGetnextrule passes s t it) (ipfTokenDeref passes littleEndian others backends) s
      (.init IPFGENITER_IPF) := by
  intro n
  by_cases hS : sequence s L (G (it.unit, it.active)) it = []
  · obtain ⟨t, r, hcalls, hdata, -⟩ := calls_empty hl hp hc hS n
    exact ⟨s, t, r, s, hcalls, by simp [ipfTokenDeref, hdata], fun _ => rfl, fun _ => rfl⟩
  · have hcalls := @calls_start (fun s t => ipfGetnextrule passes s t it) (held s) IPFGENITER_IPF _
      (fun h => getnextrule_step hl hp hc h) hS n
    refine ⟨_, _, _, s, hcalls, ?_, fun _ => rfl, fun _ => rfl⟩
    cases ho : ((sequence s L (G (it.unit, it.active)) it).take n).getLast? with
    | none => rfl
    | some fr =>
      obtain ⟨h, hfr⟩ := mem_sequence (mem_of_mem_take (mem_of_getLast? ho))
      simp [ipfTokenDeref, derefrule_held hl hfr]

/-- **When an iteration over rules hands out what was asked for.** -/
theorem ruleMeets_iff (littleEndian : Bool) (others backends : ℕ → Addr → Softc → Option Softc) :
    RuleMeets passes (ipfTokenDeref passes littleEndian others backends) s L (G (it.unit, it.active)) it ↔
      Alone s L (G (it.unit, it.active)) it := by
  rw [RuleMeets, yields_iff hl hp hc, ← sequence_eq_requested, eq_comm]
  exact and_iff_left (rule_restores hl hp hc littleEndian others backends)

end

/-! ## Iterating over groups -/

/-- The state while a token holds a reference to a group. -/
def heldGroup (s : Softc) : Option Addr → Softc
  | none => s
  | some g => s.updFg g fun fg => { fg with fgRef := fg.fgRef + 1 }

/-- **What is expected of an iteration over groups.** -/
def GroupMeets (passes : ℕ) (free : Softc → Ipftoken → Option Softc) (s : Softc) (gs : List Addr) (gi : Groupiter) :
    Prop :=
  Yields (fun s t => ipfGroupIter passes s t gi) s (.init IPFGENITER_GROUP) gs ∧
    Restores (fun s t => ipfGroupIter passes s t gi) free s (.init IPFGENITER_GROUP)

@[simp] theorem gmem_heldGroup (o : Option Addr) : (heldGroup s o).gmem = s.gmem := by cases o <;> rfl

/-- **A group that is referenced otherwise is not freed** when the iterator goes on from it. -/
theorem groupDel_held (hl : Loaded s L G) {h : ℕ × Bool} {y : Addr} (hy : y ∈ G h) (x : Addr) :
    ipfGroupDel passes ((heldGroup s (some y)).updFg x fun fg => { fg with fgRef := fg.fgRef + 1 }) y none =
      some (heldGroup s (some x)) := by
  obtain ⟨hgroup, hpos⟩ := hl.group h y hy
  have hback : ((heldGroup s (some y)).updFg x fun fg => { fg with fgRef := fg.fgRef + 1 }).updFg y (fun fg => { fg with
      fgHead := if fg.fgHead = none then none else fg.fgHead
      fgRef := fg.fgRef - 1 }) = heldGroup s (some x) := by
    simp only [heldGroup, Softc.updFg, Softc.mk.injEq, true_and, and_true]
    funext g
    have hhead : ∀ o : Option Addr, (if o = none then none else o) = o := by
      intro o
      cases o <;> rfl
    -- the reference that is dropped is the one that was taken
    simp only [Function.update_apply, hhead]
    by_cases hgy : g = y
    · subst hgy
      by_cases hgx : g = x <;> simp [hgx]
    · by_cases hgx : g = x
      · subst hgx
        simp [hgy]
      · simp [hgy, hgx]
  have hpos' : ((heldGroup s (some x)).fg y).fgRef ≠ 0 := by
    by_cases hyx : y = x <;> simp [heldGroup, Softc.updFg, hyx] <;> subst_vars <;> omega
  unfold ipfGroupDel
  have hgroup' : ((heldGroup s (some y)).updFg x fun fg => { fg with fgRef := fg.fgRef + 1 }).group y = true := hgroup
  rw [if_neg (by simp [hgroup']), hback]
  simp only [hpos', false_and, if_false]

section

variable {gi : Groupiter} (hl : Loaded s L G) (hc : gi.check = none)

include hl hc

/-- **A call hands out the next group.** -/
theorem groupIter_step {type : ℕ} {a b : List Addr} {x : Addr} (hS : G gi.head = a ++ x :: b) :
    ipfGroupIter passes (heldGroup s a.getLast?) ⟨type, a.getLast?, 0⟩ gi =
      some (heldGroup s (some x), ⟨type, some x, if b = [] then 1 else 0⟩, .copy (some x)) := by
  have hnext : s.gmem.next x = b.head? := (hS ▸ hl.groups gi.head).at
  unfold ipfGroupIter
  rcases eq_nil_or_concat' a with rfl | ⟨a, y, rfl⟩
  · have hhead : s.gmem.head gi.head = some x := by rw [(hl.groups gi.head).head?, hS]; rfl
    simp only [hc, getLast?_nil, gmem_heldGroup, hhead, Option.bind_some, iterDrop, Option.bind_eq_bind]
    cases b <;> simp [heldGroup, Softc.updFg, hnext, ipfTokenMarkComplete]
  · have hy : y ∈ G gi.head := by simp [hS]
    have hnexty : s.gmem.next y = some x := by
      have hspell := hl.groups gi.head
      rw [hS, append_assoc] at hspell
      exact hspell.at
    simp only [hc, getLast?_append_cons, getLast?_singleton, gmem_heldGroup, hnexty, iterDrop,
      groupDel_held hl hy x, Option.bind_eq_bind, Option.bind_some]
    cases b <;> simp [Softc.updFg, hnext, ipfTokenMarkComplete]

/-- **All groups are handed out**, in the order of the list. -/
theorem group_yields : Yields (fun s t => ipfGroupIter passes s t gi) s (.init IPFGENITER_GROUP) (G gi.head) := by
  by_cases hS : G gi.head = []
  · have hhead : s.gmem.head gi.head = none := by rw [(hl.groups gi.head).head?, hS]; rfl
    rw [hS]
    intro n
    cases n with
    | zero => exact ⟨s, _, rfl, by simp [Ipftoken.init, replies]⟩
    | succ n =>
      refine ⟨s, ⟨IPFGENITER_GROUP, none, 1⟩, ?_, by simp [replies]⟩
      rw [calls, if_neg (by simp [Ipftoken.init])]
      simp [ipfGroupIter, hc, Ipftoken.init, hhead, iterDrop, ipfTokenMarkComplete, calls_complete, replies]
  · exact yields_run (w := heldGroup s) (fun h => groupIter_step hl hc h) hS

/-- **A group's token does not give its reference back**: its type is taken for one of the lookup code. -/
theorem group_restores_iff (littleEndian : Bool) (others backends : ℕ → Addr → Softc → Option Softc) :
    Restores (fun s t => ipfGroupIter passes s t gi) (ipfTokenDeref passes littleEndian others backends) s
      (.init IPFGENITER_GROUP) ↔ G gi.head = [] := by
  constructor
  · intro h
    by_contra hS
    obtain ⟨s', t', r, s'', hcalls, hfree, -, href⟩ := h 1
    have hrun := @calls_start (fun s t => ipfGroupIter passes s t gi) (heldGroup s) IPFGENITER_GROUP _
      (fun h => groupIter_step hl hc h) hS 1
    obtain ⟨g, gs, hG⟩ := exists_cons_of_ne_nil hS
    rw [hG] at hrun
    rw [show heldGroup s none = s from rfl, hcalls] at hrun
    obtain ⟨rfl, rfl, -⟩ :
        s' = heldGroup s (some g) ∧ t' = ⟨IPFGENITER_GROUP, some g, if (g :: gs).length ≤ 1 then 1 else 0⟩ ∧
        r = (replies (g :: gs)).take 1 := by simpa using hrun
    -- the first byte of the type is not that of a lookup token
    have hkept : ipfTokenDeref passes littleEndian others backends (heldGroup s (some g))
        ⟨IPFGENITER_GROUP, some g, if (g :: gs).length ≤ 1 then 1 else 0⟩ = some (heldGroup s (some g)) := by
      cases littleEndian <;> simp [ipfTokenDeref, ipfLookupIterderef, ilikIval, IPFGENITER_GROUP, IPFGENITER_IPF,
        IPFGENITER_LOOKUP, IPFGENITER_IPNAT, IPFGENITER_NAT, IPFGENITER_STATE, IPFGENITER_FRAG, IPFGENITER_NATFRAG,
        IPFGENITER_HOSTMAP]
    rw [hkept] at hfree
    cases hfree
    have hkeeps := href g
    simp only [heldGroup, Softc.updFg, Function.update_self] at hkeeps
    omega
  · intro hS n
    have hhead : s.gmem.head gi.head = none := by rw [(hl.groups gi.head).head?, hS]; rfl
    cases n with
    | zero => exact ⟨s, _, [], s, rfl, rfl, fun _ => rfl, fun _ => rfl⟩
    | succ n =>
      refine ⟨s, ⟨IPFGENITER_GROUP, none, 1⟩, [.copy none], s, ?_, rfl, fun _ => rfl, fun _ => rfl⟩
      rw [calls, if_neg (by simp [Ipftoken.init])]
      simp [ipfGroupIter, hc, Ipftoken.init, hhead, iterDrop, ipfTokenMarkComplete, calls_complete]

end

/-- **When iterations over rules and groups hand out what was asked for, and no reference stays behind.** -/
theorem iteration_meets {gi : Groupiter} (littleEndian : Bool) (others backends : ℕ → Addr → Softc → Option Softc)
    (hl : Loaded s L G) (hp : Enough passes L (G (it.unit, it.active))) (hc : it.check = none) (hgc : gi.check = none) :
    RuleMeets passes (ipfTokenDeref passes littleEndian others backends) s L (G (it.unit, it.active)) it ∧
        GroupMeets passes (ipfTokenDeref passes littleEndian others backends) s (G gi.head) gi ↔
      Alone s L (G (it.unit, it.active)) it ∧ G gi.head = [] := by
  rw [ruleMeets_iff hl hp hc]
  refine and_congr_right fun _ => ?_
  rw [GroupMeets, group_restores_iff hl hgc littleEndian others backends]
  exact and_iff_right (group_yields hl hgc)

/-! ## Two groups -/

/-- Other tables that are not asked for anything. -/
def idle : ℕ → Addr → Softc → Option Softc := fun _ _ s => some s

/-- Outgoing rules 0 and 1, in the groups 0 (named `a`) and 1 (named `b`), or all in no group and the groups not there. -/
def twoRules (grouped : Bool) : Softc where
  mem :=
    { head := fun h =>
        if grouped then if h = .group 0 then some 0 else if h = .group 1 then some 1 else none
        else if h = .rules true false then some 0 else none
      next := fun fr => if grouped = false ∧ fr = 0 then some 1 else none
      pnext := fun _ => none }
  fr := fun fr => ⟨FR_OUTQUE, false, 1, if grouped then some [if fr = 0 then 'a' else 'b'] else none, none, none, none⟩
  rule := fun _ => true
  gmem :=
    { head := fun h => if grouped ∧ h = (IPL_LOGIPF, false) then some 0 else none
      next := fun g => if g = 0 then some 1 else none
      pnext := fun _ => none }
  fg := fun g => ⟨[if g = 0 then 'a' else 'b'], FR_OUTQUE, 1, none, (IPL_LOGIPF, false)⟩
  group := fun _ => true
  active := false

def twoRulesLists (grouped : Bool) (h : Head) : List Addr :=
  if grouped then if h = .group 0 then [0] else if h = .group 1 then [1] else []
  else if h = .rules true false then [0, 1] else []

def twoRulesGroups (grouped : Bool) (h : ℕ × Bool) : List Addr := if grouped ∧ h = (IPL_LOGIPF, false) then [0, 1] else []

theorem twoRules_loaded (grouped : Bool) : Loaded (twoRules grouped) (twoRulesLists grouped) (twoRulesGroups grouped) := by
  cases grouped
  · constructor
    case rules =>
      intro h
      by_cases h0 : h = .rules true false <;> simp [twoRules, twoRulesLists, h0, Spells]
    all_goals simp [twoRules, twoRulesGroups, Spells]
  · constructor
    case rules =>
      intro h
      by_cases h0 : h = .group 0
      · simp [twoRules, twoRulesLists, h0, Spells]
      · by_cases h1 : h = .group 1 <;> simp [twoRules, twoRulesLists, h0, h1, Spells]
    case ungrouped => simp [twoRulesLists]
    case rule => simp [twoRules]
    all_goals
      intro h
      by_cases h0 : h = (IPL_LOGIPF, false) <;>
        simp [twoRules, twoRulesLists, twoRulesGroups, h0, Spells, sameName, FR_GROUPLEN]

theorem dir_twoRules (grouped : Bool) (fr : Addr) : dir (twoRules grouped) true fr = true := by
  change has FR_OUTQUE FR_OUTQUE = true
  decide

/-- Two outgoing rules without groups are handed out, and no reference stays behind. -/
theorem iteration_meets_ungrouped :
    RuleMeets 2 (ipfTokenDeref 2 true idle idle) (twoRules false) (twoRulesLists false) [] ⟨1, [], 0, 1, true⟩ ∧
      GroupMeets 2 (ipfTokenDeref 2 true idle idle) (twoRules false) [] ⟨true, 1, 0, 0⟩ := by
  have hp : Enough 2 (twoRulesLists false) (twoRulesGroups false (0, false)) := by simp [Enough, twoRulesGroups]
  have hc : (⟨1, [], 0, 1, true⟩ : Ipfruleiter).check = none := rfl
  have hgc : (⟨true, 1, 0, 0⟩ : Groupiter).check = none := rfl
  refine (iteration_meets true idle idle (twoRules_loaded false) hp hc hgc).2 ⟨?_, rfl⟩
  exact ⟨fun fr _ => dir_twoRules false fr, by simp [twoRulesGroups]⟩

/-- **The rules of the group after the one asked for come too, and a group stays referenced.** -/
theorem iteration_not_meets :
    ¬RuleMeets 2 (ipfTokenDeref 2 true idle idle) (twoRules true) (twoRulesLists true) [0, 1] ⟨1, ['a'], 0, 1, true⟩ ∧
      ¬GroupMeets 2 (ipfTokenDeref 2 true idle idle) (twoRules true) [0, 1] ⟨true, 1, 0, 0⟩ := by
  have hp : Enough 2 (twoRulesLists true) (twoRulesGroups true (0, false)) := by
    simp [Enough, twoRulesGroups, twoRulesLists, IPL_LOGIPF]
  constructor
  · intro h
    have hc : (⟨1, ['a'], 0, 1, true⟩ : Ipfruleiter).check = none := rfl
    have halone := (ruleMeets_iff (twoRules_loaded true) hp hc true idle idle).1 h
    -- rule 1 in the later group is of the direction
    have hlater : NoDir (twoRules true) (twoRulesLists true) true [1] := halone.2
    have hno := hlater 1 (by simp) 1 (by simp [twoRulesLists])
    rw [dir_twoRules] at hno
    cases hno
  · intro h
    have hc : (⟨true, 1, 0, 0⟩ : Groupiter).check = none := rfl
    have hnil := (group_restores_iff (twoRules_loaded true) hc true idle idle).1 h.2
    exact absurd hnil (by decide)

end Ipfilter.Ruleiter
