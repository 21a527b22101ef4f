import Ipfilter.Spec.Frrequest

/-!
# Requests that fail

* `deref_addRef`: giving back a reference undoes taking it.
* `groupPart_undo`: dropping `fr_grp` undoes what was done for the group of a rule.
* `typePart_undo`: the common end undoes the lookups of a rule.
* `frrequest_atomic`: a request that fails leaves everything as it was, under the condition `Tidy`.
-/

namespace Ipfilter.Frrequest

open Chain Rules Option
open Function (update update_apply update_comm update_eq_self update_idem update_of_ne update_self)

variable {s s' : Softc} {l l' : Lookups} {r : Rule} {unit : Dev} {req : Req} {set : Fin 2} {makecopy : Bool} {env : Env}
  {fp : Addr} {o o' : Obj} {d d' : Side} {e id : ℕ} {name : List Char} {grp : Option ℕ}

/-! ## References to lookup objects -/

theorem decr_incr (t : Table) : t.incr.decr = some t := by
  have h : 1 < t.ref + 1 ∧ (t.type = .pool → t.delete = true → 2 < t.ref + 1) := by
    refine ⟨?_, fun ht hd => ?_⟩
    · have := t.ref_pos
      omega
    · have := t.ref_delete ht hd
      omega
  unfold Table.decr Table.incr
  rw [dif_pos h]
  rfl

theorem bind_decr (x : Option Table) : (x.map Table.incr).bind Table.decr = x := by
  cases x with
  | none => rfl
  | some t => exact decr_incr t

/-- Giving back a reference undoes taking it. -/
theorem deref_addRef (l : Lookups) {type : ℕ} (hb : backend type ≠ none) :
    ipfLookupDeref (l.addRef o) type (some o) = l := by
  obtain ⟨b, hb⟩ := ne_none_iff_exists'.1 hb
  simp only [ipfLookupDeref, hb, Lookups.addRef, update_self, bind_decr, update_idem,
    update_eq_self]

/-- Also when another one was taken in between. -/
theorem deref_addRef_addRef (l : Lookups) {type : ℕ} (hb : backend type ≠ none) :
    ipfLookupDeref ((l.addRef o).addRef o') type (some o) = l.addRef o' := by
  obtain ⟨b, hb⟩ := ne_none_iff_exists'.1 hb
  by_cases ho : o = o'
  · subst ho
    simp only [ipfLookupDeref, hb, Lookups.addRef, update_self, bind_decr, update_idem]
  · have ho' : o' ≠ o := fun h => ho h.symm
    simp only [ipfLookupDeref, hb, Lookups.addRef, update_self, update_of_ne ho,
      update_of_ne ho', bind_decr]
    rw [update_comm ho, update_idem, update_comm ho', update_eq_self]

/-- A side that gives nothing back. -/
def Side.Idle (d : Side) : Prop := d.satype = .lookup → d.ptr = none ∨ backend d.type = none

theorem deref_idle (hd : d.Idle) : (if d.satype = .lookup then ipfLookupDeref l d.type d.ptr else l) = l := by
  split
  · rename_i hs
    rcases hd hs with h | h
    · simp [ipfLookupDeref, h]
    · cases hp : d.ptr <;> simp [ipfLookupDeref, h]
  · rfl

/-- What looking up a side does: it takes no reference, or one that the side shows. -/
inductive Took (l : Lookups) : Lookups → Side → Prop where
  | none {d : Side} : d.Idle → Took l l d
  | one {d : Side} {o : Obj} : d.satype = .lookup → d.ptr = some o → backend d.type ≠ none → Took l (l.addRef o) d

theorem sidePart_took {names : List Char} {x : Option ℕ}
    (h : sidePart l unit names d = (l', d', x)) : Took l l' d' := by
  unfold sidePart at h
  cases hs : d.satype with
  | ifaddr | normal | other =>
    simp only [hs, Prod.mk.injEq] at h
    obtain ⟨rfl, rfl, -⟩ := h
    exact .none (fun h => by simp [hs] at h)
  | lookup =>
    simp only [hs, Prod.mk.injEq] at h
    obtain ⟨rfl, rfl, -⟩ := h
    have hres : ∀ name, Took l (ipfLookupResName l unit d.type name d.func).1
        { d with
          ptr := (ipfLookupResName l unit d.type name d.func).2.1
          func := (ipfLookupResName l unit d.type name d.func).2.2 } := by
      intro name
      unfold ipfLookupResName
      cases hb : backend d.type with
      | none => exact .none (fun _ => .inl rfl)
      | some b =>
        cases hf : l.find b unit name with
        | none =>
          simp only [hf]
          exact .none (fun _ => .inl rfl)
        | some o =>
          simp only [hf]
          exact .one hs rfl (by simp [hb])
    unfold ipfFindlookup
    split
    · exact hres _
    · split
      · exact .none (fun _ => .inl rfl)
      · exact hres _
    · exact .none (fun _ => .inl rfl)

/-- The common end gives back what two lookups took. -/
theorem derefSides_took {l₁ l₂ : Lookups} {v : Side × Side} (h₁ : Took l l₁ v.1) (h₂ : Took l₁ l₂ v.2) :
    derefSides l₂ v = l := by
  unfold derefSides
  cases h₁ with
  | none hi =>
    rw [deref_idle hi]
    cases h₂ with
    | none hi' => exact deref_idle hi'
    | one hs hp hb => rw [if_pos hs, hp, deref_addRef l hb]
  | one hs hp hb =>
    rw [if_pos hs, hp]
    cases h₂ with
    | none hi' => rw [deref_addRef l hb, deref_idle hi']
    | one hs' hp' hb' => rw [deref_addRef_addRef l hb, if_pos hs', hp', deref_addRef l hb']

/-! ## The group of a rule -/

/-- Dropping `fr_grp`. -/
def dropGroup (s : Softc) (grp : Option ℕ) (fp : Addr) : Softc :=
  match grp with
  | none => s
  | some id => ipfGroupDel s id fp

theorem cleanup_eq (s : Softc) (r : Rule) (view : Option (Side × Side)) (grp : Option ℕ) (fp : Addr) :
    cleanup s r view grp fp =
      if r.frType = .ipf then view.map fun v => dropGroup { s with lookups := derefSides s.lookups v } grp fp
      else some (dropGroup s grp fp) := rfl

/-- Memory from the allocator is not in use: nothing is stored at the address of a new group, and the
address of the rule is not that of the head of a group. -/
structure Fresh (s : Softc) (env : Env) (fp : Addr) : Prop where
  group : ∀ id ∈ env.fg, s.group id = none ∧ (∀ unit set, id ∉ s.groups unit set) ∧
    s.rules.mem.head (.group id) = none
  rule : ∀ id fg, s.group id = some fg → fg.fgHead ≠ some fp

/-- Dropping `fr_grp` in `s'` gives `s`, up to the lookups. -/
def Undo (s s' : Softc) (grp : Option ℕ) (fp : Addr) : Prop :=
  ∀ l, dropGroup { s' with lookups := l } grp fp = { s with lookups := l }

theorem undo_none (s : Softc) (fp : Addr) : Undo s s none fp := fun _ => rfl

/-- The group of the rule, if there is one already. -/
def Named (s : Softc) (unit : Dev) (r : Rule) (set : Fin 2) (id : ℕ) (fg : Frgroup) : Prop :=
  ipfFindgroup s (frName (names r) r.frGroup) unit set = some id ∧ s.group id = some fg

/-- The group has references or rules. -/
def Alive (s : Softc) (id : ℕ) (fg : Frgroup) : Prop := fg.fgRef ≠ 0 ∨ s.rules.mem.head (.group id) ≠ none

theorem groupAdd_undo (hf : Fresh s env fp) (hlive : ∀ id fg, Named s unit r set id fg → Alive s id fg)
    (hflags : ∀ id fg, Named s unit r set id fg → fg.fgFlags = 0 → r.c.frFlags &&& FR_INOUT = 0)
    (h : ipfGroupAdd s (frName (names r) r.frGroup) none r.c.frFlags unit set env.fg = (s', some id)) :
    Undo s s' (some id) fp ∧ s'.lookups = s.lookups ∧
      ∃ fg, s'.group id = some fg ∧ fg.fgFlags = r.c.frFlags &&& FR_INOUT := by
  unfold ipfGroupAdd at h
  split at h
  · cases h
  dsimp only at h
  cases hfind : ipfFindgroup s (frName (names r) r.frGroup) unit set with
  | some i =>
    simp only [hfind] at h
    cases hg : s.group i with
    | none =>
      simp only [hg] at h
      cases h
    | some fg =>
      have hor : (fg.fgHead <|> (none : Option Addr)) = fg.fgHead := by cases fg.fgHead <;> rfl
      simp only [hg, hor] at h
      have hn : Named s unit r set i fg := ⟨hfind, hg⟩
      have hhead : fg.fgHead ≠ some fp := hf.rule i fg hg
      have hal := hlive i fg hn
      -- the reference is taken and given back, and nothing else changes
      have hundo : ∀ l, dropGroup { s with
          group := update s.group i (some { fg with fgRef := fg.fgRef + 1 })
          lookups := l } (some i) fp = { s with lookups := l } := by
        intro l
        simp only [dropGroup, ipfGroupDel, update_self, if_neg hhead, Int.add_sub_cancel]
        rw [if_neg (fun hc => hal.elim (fun h => h hc.1) (fun h => h hc.2)), update_idem]
        have hfg : update s.group i (some fg) = s.group := by rw [← hg, update_eq_self]
        rw [hfg]
      by_cases hz : fg.fgFlags = 0
      · rw [if_pos hz] at h
        simp only [Prod.mk.injEq, some.injEq] at h
        obtain ⟨rfl, rfl⟩ := h
        have hgf := hflags i fg hn hz
        refine ⟨?_, rfl, _, update_self .., rfl⟩
        intro l
        have := hundo l
        rw [hgf, ← hz]
        exact this
      · rw [if_neg hz] at h
        split at h
        · cases h
        · rename_i hgf
          cases h
          exact ⟨hundo, rfl, _, update_self .., (not_ne_iff.1 hgf).symm⟩
  | none =>
    simp only [hfind] at h
    cases hnew : env.fg with
    | none =>
      simp only [hnew] at h
      cases h
    | some i =>
      simp only [hnew, Prod.mk.injEq, some.injEq] at h
      obtain ⟨rfl, rfl⟩ := h
      obtain ⟨h1, h2, h3⟩ := hf.group i (by rw [hnew]; rfl)
      refine ⟨?_, rfl, _, update_self .., rfl⟩
      intro l
      simp only [dropGroup, ipfGroupDel, Softc.setGroups, update_self]
      rw [if_pos ⟨by simp, h3⟩]
      have hnone : update s.group i none = s.group := by rw [← h1, update_eq_self]
      have hlist : (s.groups unit set ++ [i]).erase i = s.groups unit set := by
        rw [List.erase_append_right _ (h2 unit set)]
        simp
      simp only [update_idem, hnone, hlist, update_eq_self]

/-- A group whose flags are those of the rule, or has none and gets none, is taken as it is. -/
theorem groupFlags_ok (grp : Option ℕ) {fg : Frgroup} (hg : s.group id = some fg)
    (hz : fg.fgFlags = 0 → r.c.frFlags &&& FR_INOUT = 0) :
    groupFlags s r grp id = .ok s grp (some id) ∨ groupFlags s r grp id = .err s grp ESRCH := by
  unfold groupFlags
  simp only [hg]
  by_cases h0 : fg.fgFlags = 0
  · have hsame : update s.group id (some { fg with fgFlags := r.c.frFlags &&& FR_INOUT }) = s.group := by
      rw [hz h0, ← h0, ← hg, update_eq_self]
    rw [if_pos h0, hsame]
    exact .inl rfl
  · rw [if_neg h0]
    split
    · exact .inr rfl
    · exact .inl rfl

theorem findgroup_some (h : ipfFindgroup s name unit set = some id) : ∃ fg, s.group id = some fg := by
  have := List.find?_some h
  cases hg : s.group id with
  | none => simp [hg] at this
  | some fg => exact ⟨fg, rfl⟩

/-- What was done so far is undone by dropping `fr_grp`. -/
def GroupPart.Undone (s : Softc) (fp : Addr) : GroupPart → Prop
  | .ok s' grp _ => Undo s s' grp fp ∧ s'.lookups = s.lookups
  | .err s' grp _ => Undo s s' grp fp ∧ s'.lookups = s.lookups
  | .nullGroup => True

/-- **Dropping `fr_grp` undoes what was done for the group of a rule**, if it was there the group is
alive and its flags were set, and where it was not there memory is fresh. -/
theorem groupPart_undo (req : Req) (hf : Fresh s env fp) (hlive : ∀ id fg, Named s unit r set id fg → Alive s id fg)
    (hflags : r.frGroup ≠ -1 → req ≠ .zero → ∀ id fg, Named s unit r set id fg → fg.fgFlags = 0 →
      r.c.frFlags &&& FR_INOUT = 0) : (groupPart s unit req r set none env.fg).Undone s fp := by
  unfold groupPart
  split
  · split
    · exact ⟨undo_none s fp, rfl⟩
    · exact ⟨undo_none s fp, rfl⟩
  rename_i hgr
  split
  · exact ⟨undo_none s fp, rfl⟩
  rename_i hnz
  replace hflags := hflags hgr hnz
  split
  · cases hadd : ipfGroupAdd s (frName (names r) r.frGroup) none r.c.frFlags unit set env.fg with
    | mk s' i =>
      cases i with
      | none => trivial
      | some id =>
        obtain ⟨hu, hl, fg, hg, hfl⟩ := groupAdd_undo hf hlive hflags hadd
        rcases groupFlags_ok (r := r) (some id) hg (fun h0 => by rw [← hfl, h0]) with h | h
        · simp only [h]
          exact ⟨hu, hl⟩
        · simp only [h]
          exact ⟨hu, hl⟩
  · cases hfind : ipfFindgroup s (frName (names r) r.frGroup) unit set with
    | none => exact ⟨undo_none s fp, rfl⟩
    | some id =>
      obtain ⟨fg, hg⟩ := findgroup_some hfind
      rcases groupFlags_ok (r := r) none hg (hflags id fg ⟨hfind, hg⟩) with h | h
      · simp only [h]
        exact ⟨undo_none s fp, rfl⟩
      · simp only [h]
        exact ⟨undo_none s fp, rfl⟩

theorem groupAdd_some {head : Option Addr} {flags : Flags} {new : Option ℕ}
    (h : ipfGroupAdd s name head flags unit set new = (s', some id)) : ∃ fg, s'.group id = some fg := by
  unfold ipfGroupAdd at h
  split at h
  · cases h
  dsimp only at h
  split at h
  · split at h
    · cases h
    · split at h
      · cases h
        exact ⟨_, update_self ..⟩
      · split at h
        · cases h
        · cases h
          exact ⟨_, update_self ..⟩
  · split at h
    · cases h
    · cases h
      exact ⟨_, update_self ..⟩

theorem groupFlags_ne {fg : Frgroup} (hg : s.group id = some fg) : groupFlags s r grp id ≠ .nullGroup := by
  unfold groupFlags
  simp only [hg]
  split
  · simp
  · split <;> simp

/-- `ipf_group_add` is the only place a NULL group comes from. -/
theorem groupPart_null {grp new : Option ℕ} (h : groupPart s unit req r set grp new = .nullGroup) :
    r.frGroup ≠ -1 ∧ adds req = true ∧
      (ipfGroupAdd s (frName (names r) r.frGroup) none r.c.frFlags unit set new).2 = none := by
  unfold groupPart at h
  split at h
  · split at h <;> cases h
  rename_i hgr
  split at h
  · cases h
  split at h
  · rename_i hadd
    refine ⟨hgr, hadd, ?_⟩
    split at h
    · rename_i hnone
      rw [hnone]
    · rename_i s₁ id hsome
      obtain ⟨fg, hg⟩ := groupAdd_some hsome
      exact absurd h (groupFlags_ne hg)
  · split at h
    · cases h
    · rename_i id hfind
      obtain ⟨fg, hg⟩ := findgroup_some hfind
      exact absurd h (groupFlags_ne hg)

/-! ## The lookups of a rule -/

theorem clear_idle (d : Side) : d.clear.Idle := by
  intro h
  unfold Side.clear at h ⊢
  split
  · exact .inl rfl
  · rename_i hs
    rw [if_neg hs] at h
    exact absurd h hs

/-- What `fr_data` shows gives back what was taken. -/
def Shows (r : Rule) (l l' : Lookups) (view : Option (Side × Side)) : Prop :=
  if r.frType = .ipf then ∀ v ∈ view, derefSides l' v = l else l' = l

variable {view : Option (Side × Side)} {func : Option Obj}

/-- **The common end undoes the lookups of a rule.** -/
theorem typePart_undo {x : Option ℕ} (h : typePart l unit r env = .ok l' view x) : Shows r l l' view := by
  unfold typePart at h
  unfold Shows
  cases ht : r.frType with
  | ipf =>
    simp only [ht] at h
    have hsrc : Took l l r.src.clear := .none (clear_idle _)
    have hdst : ∀ l₁ : Lookups, Took l₁ l₁ r.dst.clear := fun _ => .none (clear_idle _)
    rw [if_pos rfl]
    intro v hv
    split at h
    · cases h
    split at h
    · simp only [TypePart.ok.injEq] at h
      obtain ⟨rfl, rfl, -⟩ := h
      obtain rfl : (r.src.clear, r.dst.clear) = v := by simpa using hv
      exact derefSides_took hsrc (hdst l)
    split at h
    · simp only [TypePart.ok.injEq] at h
      obtain ⟨rfl, rfl, -⟩ := h
      obtain rfl : (r.src.clear, r.dst.clear) = v := by simpa using hv
      exact derefSides_took hsrc (hdst l)
    split at h
    · rename_i l₁ src y hside
      simp only [TypePart.ok.injEq] at h
      obtain ⟨rfl, rfl, -⟩ := h
      obtain rfl : (src, r.dst.clear) = v := by simpa using hv
      exact derefSides_took (sidePart_took hside) (hdst _)
    · rename_i l₁ src hside
      simp only [TypePart.ok.injEq] at h
      obtain ⟨rfl, rfl, -⟩ := h
      obtain rfl : (src, (sidePart l₁ unit (names r) r.dst.clear).2.1) = v := by simpa using hv
      exact derefSides_took (sidePart_took hside) (sidePart_took rfl)
  | ipfexpr =>
    simp only [ht] at h
    split at h
    · cases h
    · simp only [TypePart.ok.injEq] at h
      simp [h.1]
  | none | callfunc | compipf | other =>
    simp only [ht, TypePart.ok.injEq] at h
    simp [h.1]

theorem resolvedest_none {names : List Char} {f : Frdest} (h : ipfResolvedest l names f = .ok (l', none)) : l' = l := by
  unfold ipfResolvedest at h
  split at h
  · split at h <;> cases h
  · simp only [Except.ok.injEq, Prod.mk.injEq] at h
    exact h.1.symm

/-- `ipf_synclist` that takes no reference leaves the lookups alone. -/
theorem synclist_none (h : ∀ o, some o ∉ (ipfSynclist l r).2.1) : (ipfSynclist l r).1 = l := by
  unfold ipfSynclist at h ⊢
  cases h₁ : ipfResolvedest l (names r) r.tif with
  | error e => rfl
  | ok x =>
    obtain ⟨l₁, o₁⟩ := x
    simp only [h₁] at h ⊢
    cases h₂ : ipfResolvedest l₁ (names r) r.rif with
    | error e =>
      simp only [h₂] at h ⊢
      cases o₁ with
      | some o => exact absurd List.mem_cons_self (h o)
      | none => exact resolvedest_none h₁
    | ok y =>
      obtain ⟨l₂, o₂⟩ := y
      simp only [h₂] at h ⊢
      cases h₃ : ipfResolvedest l₂ (names r) r.dif with
      | error e =>
        simp only [h₃] at h ⊢
        cases o₁ with
        | some o => exact absurd List.mem_cons_self (h o)
        | none =>
          cases o₂ with
          | some o => exact absurd (by simp) (h o)
          | none => rw [resolvedest_none h₂, resolvedest_none h₁]
      | ok z =>
        obtain ⟨l₃, o₃⟩ := z
        simp only [h₃] at h ⊢
        cases o₁ with
        | some o => exact absurd List.mem_cons_self (h o)
        | none =>
          cases o₂ with
          | some o => exact absurd (by simp) (h o)
          | none =>
            cases o₃ with
            | some o => exact absurd (by simp) (h o)
            | none => rw [resolvedest_none h₃, resolvedest_none h₂, resolvedest_none h₁]

/-! ## The common end -/

/-- **A failed request leaves everything as it was**, and it follows no NULL group. -/
def Atomic (s : Softc) : Outcome → Prop
  | .err _ s' => s' = s
  | .nullGroup => False
  | _ => True

theorem donenolock_atomic (hu : Undo s s' grp fp)
    (hv : Shows r s.lookups s'.lookups view) (e : ℕ) : Atomic s (donenolock s' r view grp fp e) := by
  unfold donenolock
  rw [cleanup_eq]
  unfold Shows at hv
  by_cases ht : r.frType = .ipf
  · rw [if_pos ht] at hv ⊢
    cases view with
    | none => trivial
    | some v =>
      simp only [map_some, Atomic]
      rw [hu, hv v rfl]
  · rw [if_neg ht] at hv ⊢
    exact (hu s'.lookups).trans (by rw [hv])

/-! ## When a request that fails leaves everything as it was -/

section Condition

variable (s : Softc) (unit : Dev) (req : Req) (r : Rule) (set : Fin 2) (makecopy : Bool) (env : Env) (fp : Addr)

/-- The checks in front of the group pass. -/
structure AtGroup : Prop where
  check1 : check1 r makecopy = none
  func : ∃ x, funcPart s.lookups req r makecopy = .ok x
  check2 : check2 r = none

/-- The checks in front of the copy of the data pass, and there is a copy. -/
structure AtData : Prop extends AtGroup s req r makecopy where
  group : ∃ s' grp fg, groupPart s (ruleUnit unit r) req r set none env.fg = .ok s' grp fg
  list : ∃ h, listHead (ruleUnit unit r) r set = .ok h
  copy : copyPart r makecopy env = none

/-- The checks in front of `ipf_synclist` pass, and these are the lookups then. -/
structure AtSync (l : Lookups) (view : Option (Side × Side)) : Prop extends AtData s unit req r set makecopy env where
  type : typePart s.lookups (ruleUnit unit r) r env = .ok l view none
  name : nameCheck r = none

/-- All checks pass. -/
def Passes : Prop :=
  check1 r makecopy = none ∧ check2 r = none ∧ copyPart r makecopy env = none ∧ nameCheck r = none ∧
    ∃ l₁ func, funcPart s.lookups req r makecopy = .ok (l₁, func) ∧
    ∃ s₂ grp fg, groupPart { s with lookups := l₁ } (ruleUnit unit r) req r set none env.fg = .ok s₂ grp fg ∧
    ∃ h, listHead (ruleUnit unit r) r set = .ok h ∧
    ∃ l₃ view, typePart s₂.lookups (ruleUnit unit r) r env = .ok l₃ view none ∧
    ∃ l₄ dests, ipfSynclist l₃ r = (l₄, dests, none) ∧
    ∃ rules, frLocked (prepareRule s₂.rules fp r.c makecopy) req (ruleUnit unit r = .logauth)
      ((fg.map Head.group).getD h) fp
      set makecopy env.new = .ok rules ∧ (req = .zero → env.outobj = none)

/-- Something is done that no error undoes: a table is taken for the function of the rule, a group
without flags gets those of the rule, a destination list is taken, or statistics are cleared for a
rule with lookups. -/
inductive Leaks : Prop where
  | func {l : Lookups} {o : Obj} : check1 r makecopy = none → funcPart s.lookups req r makecopy = .ok (l, some o) → Leaks
  | flags {id : ℕ} {fg : Frgroup} : AtGroup s req r makecopy → r.frGroup ≠ -1 → req ≠ .zero →
    Named s (ruleUnit unit r) r set id fg → fg.fgFlags = 0 → r.c.frFlags &&& FR_INOUT ≠ 0 → Leaks
  | dest {l : Lookups} {view : Option (Side × Side)} {o : Obj} : AtSync s unit req r set makecopy env l view →
    some o ∈ (ipfSynclist l r).2.1 → Leaks
  | zero {l : Lookups} {view : Option (Side × Side)} : AtSync s unit req r set makecopy env l view → req = .zero →
    l ≠ s.lookups → Leaks

/-- **The condition.** A rule that is not copied in has no group yet; what `fr_data` points to in user
space shows no lookup that could be given back, unless a copy is used by then; `ipf_group_add` gives
a group, and one that is there already is alive; and what no error undoes is only done when all
checks pass. -/
structure Tidy : Prop where
  stale : makecopy = false → r.frGrp = none
  view : (r.frType = .ipf → ∀ v ∈ r.view, v.1.Idle ∧ v.2.Idle) ∨ AtData s unit req r set makecopy env
  null : AtGroup s req r makecopy → r.frGroup ≠ -1 → adds req = true →
    (ipfGroupAdd s (frName (names r) r.frGroup) none r.c.frFlags (ruleUnit unit r) set env.fg).2 ≠ none
  alive : AtGroup s req r makecopy → ∀ id fg, Named s (ruleUnit unit r) r set id fg → Alive s id fg
  leak : Leaks s unit req r set makecopy env → ∀ fp ∈ env.fp, Passes s unit req r set makecopy env fp

end Condition

theorem lockedPart_atomic {s₁ : Softc} {h : Head}
    {dests : List (Option Obj)} (hu : Undo s s₁ grp fp) (hv : Shows r s.lookups s₁.lookups view)
    (hz : req = .zero → s₁ = s) : Atomic s (lockedPart s₁ unit req r set makecopy env fp h view grp func dests) := by
  unfold lockedPart
  dsimp only
  split
  · trivial
  · exact hz rfl
  · exact donenolock_atomic hu hv _
  · split
    · exact hz rfl
    · trivial
  · split
    · trivial
    · split
      · split
        · trivial
        · trivial
      · trivial
  · split
    · trivial
    · trivial

/-- Where the lock finds nothing wrong there is no error. -/
theorem lockedPart_passes {s₁ : Softc} {h : Head} {dests : List (Option Obj)} {rules : Rules.Softc}
    (hl : frLocked (prepareRule s₁.rules fp r.c makecopy) req (unit = .logauth) h fp set makecopy env.new = .ok rules)
    (ho : req = .zero → env.outobj = none) :
    Atomic s (lockedPart s₁ unit req r set makecopy env fp h view grp func dests) := by
  unfold lockedPart
  dsimp only
  rw [hl]
  cases req with
  | zero =>
    simp only [ho rfl]
    trivial
  | remove =>
    dsimp only
    split
    · trivial
    · split
      · split <;> trivial
      · trivial
  | add =>
    dsimp only
    split <;> trivial
  | insert =>
    dsimp only
    split <;> trivial

/-- A request that passes all checks does not fail. -/
theorem listPart_passes {l₁ : Lookups} (hs : makecopy = false → r.frGrp = none)
    (hf : funcPart s.lookups req r makecopy = .ok (l₁, func)) (hp : Passes s unit req r set makecopy env fp) :
    Atomic s (listPart { s with lookups := l₁ } (ruleUnit unit r) req r set makecopy env fp func) := by
  obtain ⟨-, -, hcopy, hname, l, func', hf', s₂, grp, fg, hg, h, hh, l₃, view, ht, l₄, dests, hsync, rules, hl,
      ho⟩ := hp
  rw [hf] at hf'
  cases hf'
  have hgrp : (if makecopy = true then none else r.frGrp) = none := by
    cases makecopy with
    | true => rfl
    | false => exact hs rfl
  unfold listPart dataPart
  simp only [hgrp, hg, hh, hcopy, ht, hname, hsync]
  exact lockedPart_passes (by exact hl) ho

/-- From the data of the rule on, without destination lists. -/
theorem dataPart_atomic {s₁ : Softc} {h : Head} (hu : Undo s s₁ grp fp) (hl : s₁.lookups = s.lookups)
    (hdest : ∀ l view o, typePart s.lookups unit r env = .ok l view none → nameCheck r = none →
      some o ∉ (ipfSynclist l r).2.1)
    (hz : ∀ l view, typePart s.lookups unit r env = .ok l view none → nameCheck r = none → req = .zero →
      { s₁ with lookups := l } = s) :
    Atomic s (dataPart s₁ unit req r set makecopy env fp h grp func) := by
  unfold dataPart
  rw [hl]
  cases ht : typePart s.lookups unit r env with
  | fault => trivial
  | ok l view x =>
    have hv : Shows r s.lookups l view := typePart_undo ht
    have hu' : ∀ l, Undo s { s₁ with lookups := l } grp fp := fun _ => hu
    cases x with
    | some e => exact donenolock_atomic (hu' l) hv e
    | none =>
      cases hn : nameCheck r with
      | some e => exact donenolock_atomic (hu' l) hv e
      | none =>
        have hsync := synclist_none (fun o => hdest l view o ht hn)
        cases hy : ipfSynclist l r with
        | mk l₂ y =>
          obtain rfl : l = l₂ := by
            rw [hy] at hsync
            exact hsync.symm
          obtain ⟨dests, x⟩ := y
          simp only [hy]
          cases x with
          | some e => exact donenolock_atomic (hu' l) hv e
          | none => exact lockedPart_atomic (hu' l) hv (hz l view ht hn)

/-- In front of the copy of the data, where what user space shows gives nothing back. -/
theorem early_atomic (hu : Undo s s' grp fp) (hl : s'.lookups = s.lookups)
    (hv : r.frType = .ipf → ∀ v ∈ r.view, v.1.Idle ∧ v.2.Idle) (e : ℕ) :
    Atomic s (donenolock s' r r.view grp fp e) := by
  refine donenolock_atomic hu ?_ e
  unfold Shows
  split
  · rename_i ht
    intro v hm
    obtain ⟨h₁, h₂⟩ := hv ht v hm
    rw [derefSides, deref_idle h₁, deref_idle h₂]
    exact hl
  · exact hl

theorem groupPart_zero {grp new g fg : Option ℕ} (hz : req = .zero)
    (h : groupPart s unit req r set grp new = .ok s' g fg) : s' = s := by
  unfold groupPart at h
  split at h
  · split at h
    · cases h
    · simp only [GroupPart.ok.injEq] at h
      exact h.1.symm
  · simp only [GroupPart.ok.injEq] at h
    exact h.1.symm

theorem funcPart_none (h : funcPart l req r makecopy = .ok (l', none)) : l' = l := by
  unfold funcPart at h
  split at h
  · unfold ipfGrpmapinit at h
    split at h
    · cases h
    · split at h
      · cases h
      · split at h <;> cases h
  · simp only [Except.ok.injEq, Prod.mk.injEq] at h
    exact h.1.symm

/-- From the group on. -/
theorem listPart_atomic (hf : Fresh s env fp) (hk : Tidy s unit req r set makecopy env)
    (hat : AtGroup s req r makecopy) (hleak : ¬ Leaks s unit req r set makecopy env) :
    Atomic s (listPart s (ruleUnit unit r) req r set makecopy env fp func) := by
  have hgrp : (if makecopy = true then none else r.frGrp) = none := by
    cases makecopy with
    | true => rfl
    | false => exact hk.stale rfl
  have hview : ¬ AtData s unit req r set makecopy env → r.frType = .ipf → ∀ v ∈ r.view, v.1.Idle ∧ v.2.Idle :=
    fun hd => hk.view.resolve_right hd
  unfold listPart
  simp only [hgrp]
  have hund := groupPart_undo req hf (hk.alive hat) (fun hg hz id fg hn h0 => by
    by_contra hne
    exact hleak (.flags hat hg hz hn h0 hne))
  cases hpart : groupPart s (ruleUnit unit r) req r set none env.fg with
  | nullGroup =>
    obtain ⟨hg, ha, hnone⟩ := groupPart_null hpart
    exact absurd hnone (hk.null hat hg ha)
  | err s₁ grp e =>
    rw [hpart] at hund
    refine early_atomic hund.1 hund.2 (hview fun hd => ?_) e
    obtain ⟨s', grp', fg, h⟩ := hd.group
    rw [hpart] at h
    cases h
  | ok s₁ grp fg =>
    rw [hpart] at hund
    obtain ⟨hu, hl⟩ := hund
    dsimp only
    cases hh : listHead (ruleUnit unit r) r set with
    | error e =>
      refine early_atomic hu hl (hview fun hd => ?_) e
      obtain ⟨h, h'⟩ := hd.list
      rw [hh] at h'
      cases h'
    | ok h =>
      dsimp only
      cases hc : copyPart r makecopy env with
      | some e =>
        refine early_atomic hu hl (hview fun hd => ?_) e
        have := hd.copy
        rw [hc] at this
        cases this
      | none =>
        -- from here on a copy of the data is used
        have hd : AtData s unit req r set makecopy env := ⟨hat, ⟨_, _, _, hpart⟩, ⟨h, hh⟩, hc⟩
        refine dataPart_atomic hu hl ?_ ?_
        · intro l view o ht hn ho
          exact hleak (.dest ⟨hd, ht, hn⟩ ho)
        · intro l view ht hn hz
          obtain rfl : l = s.lookups := by
            by_contra hne
            exact hleak (.zero ⟨hd, ht, hn⟩ hz hne)
          rw [groupPart_zero hz hpart]

/-- **`frrequest` is atomic under the condition.** If it fails, then the rule lists, the groups, the
expire lists and all references are as before, and it never follows a NULL group. -/
theorem frrequest_atomic (hf : ∀ fp ∈ env.fp, Fresh s env fp) (hk : Tidy s unit req r set makecopy env) :
    Atomic s (frrequest s unit req r set makecopy env) := by
  have hgrp : (if makecopy = true then none else r.frGrp) = none := by
    cases makecopy with
    | true => rfl
    | false => exact hk.stale rfl
  have hview : ¬ AtData s unit req r set makecopy env → r.frType = .ipf → ∀ v ∈ r.view, v.1.Idle ∧ v.2.Idle :=
    fun hd => hk.view.resolve_right hd
  unfold frrequest
  split
  · rfl
  split
  · rfl
  split
  · rfl
  · rfl
  · rename_i fp hfp hsz
    have hmem : fp ∈ env.fp := hfp
    simp only [hgrp]
    cases h1 : check1 r makecopy with
    | some e =>
      refine early_atomic (undo_none s fp) rfl (hview fun hd => ?_) e
      have := hd.check1
      rw [h1] at this
      cases this
    | none =>
      dsimp only
      cases hfn : funcPart s.lookups req r makecopy with
      | error e =>
        refine early_atomic (undo_none s fp) rfl (hview fun hd => ?_) e
        obtain ⟨x, hx⟩ := hd.func
        rw [hfn] at hx
        cases hx
      | ok x =>
        obtain ⟨l, func⟩ := x
        dsimp only
        by_cases hleak : Leaks s unit req r set makecopy env
        · have hp := hk.leak hleak fp hmem
          rw [hp.2.1]
          exact listPart_passes hk.stale hfn hp
        · obtain rfl : none = func := by
            cases func with
            | none => rfl
            | some o => exact absurd (.func h1 hfn) hleak
          obtain rfl : l = s.lookups := funcPart_none hfn
          cases h2 : check2 r with
          | some e =>
            refine early_atomic (undo_none s fp) rfl (hview fun hd => ?_) e
            have := hd.check2
            rw [h2] at this
            cases this
          | none => exact listPart_atomic (hf fp hmem) hk ⟨h1, ⟨_, hfn⟩, h2⟩ hleak

/-! ## Runs -/

/-- A call with memory from the allocator, under the condition. -/
structure Careful (s : Softc) (q : Call) : Prop where
  fresh : ∀ fp ∈ q.env.fp, Fresh s q.env fp
  tidy : Tidy s q.unit q.req q.r q.set q.makecopy q.env

theorem Careful.atomic {q : Call} (h : Careful s q) : Atomic s (q.outcome s) := frrequest_atomic h.fresh h.tidy

/-- **In a run whose calls all meet the condition, every call that fails leaves everything as it was**
and none follows a NULL group. So the run ends where those calls lead that succeed. -/
theorem run_atomic {qs : List Call} (h : Along Careful s qs) :
    Along (fun t q => Atomic t (q.outcome t)) s qs ∧ run s (succeeding s qs) = run s qs := by
  induction qs generalizing s with
  | nil => exact ⟨trivial, rfl⟩
  | cons q qs ih =>
    obtain ⟨hq, hqs⟩ := h
    have ha := hq.atomic
    refine ⟨⟨ha, fun s' hs' => (ih (hqs s' hs')).1⟩, ?_⟩
    cases ho : q.outcome s with
    | ok s' =>
      have hrest := (ih (hqs s' (by rw [ho]; rfl))).2
      simp only [succeeding, run, ho, Outcome.state?, bind_some, hrest]
    | err e s' =>
      -- the call is left out, which is right as the state after it is the one before it
      rw [ho] at ha
      obtain rfl : s' = s := ha
      have hrest := (ih (hqs s' (by rw [ho]; rfl))).2
      simp only [succeeding, run, ho, Outcome.state?, bind_some, hrest]
    | nullGroup => simp only [succeeding, run, ho, Outcome.state?, bind_none]
    | fault => simp only [succeeding, run, ho, Outcome.state?, bind_none]

/-- A rule that takes nothing but its group: there is only the group to look at. -/
theorem tidy_plain (ht : r.frType ≠ .ipf) (hg : r.frGrp = none) (hz : req ≠ .zero) (hfn : r.c.frFunc = 0)
    (hd : r.tif.dstlist = false ∧ r.rif.dstlist = false ∧ r.dif.dstlist = false)
    (hn : (ipfGroupAdd s (frName (names r) r.frGroup) none r.c.frFlags (ruleUnit unit r) set env.fg).2 ≠ none)
    (hl : ∀ id fg, Named s (ruleUnit unit r) r set id fg → fg.fgRef ≠ 0 ∧ fg.fgFlags ≠ 0) :
    Tidy s unit req r set makecopy env where
  stale := fun _ => hg
  view := .inl fun h => absurd h ht
  null := fun _ _ _ => hn
  alive := fun _ id fg h => .inl (hl id fg h).1
  leak := by
    intro h
    exfalso
    cases h with
    | func _ h =>
      unfold funcPart at h
      simp [hfn] at h
    | flags _ _ _ h h0 _ => exact (hl _ _ h).2 h0
    | dest _ h =>
      unfold ipfSynclist at h
      simp [ipfResolvedest, hd] at h
    | zero _ h => exact hz h

/-- `ipf_group_add` gives a group if there is memory for it and the groups there are have the direction. -/
theorem groupAdd_gives {head : Option Addr} {flags : Flags} {new : Option ℕ} (hn : name ≠ [])
    (hnew : new ≠ none) (hd : ∀ id fg, s.group id = some fg → fg.fgFlags = flags &&& FR_INOUT) :
    (ipfGroupAdd s name head flags unit set new).2 ≠ none := by
  unfold ipfGroupAdd
  rw [if_neg (fun h => hn h.2)]
  dsimp only
  split
  · rename_i id hfind
    obtain ⟨fg, hg⟩ := findgroup_some hfind
    simp only [hg, hd id fg hg]
    split
    · simp
    · simp
  · obtain ⟨i, rfl⟩ := ne_none_iff_exists'.1 hnew
    simp

/-- A rule in the group `g`. -/
def groupRule (frFlags : Flags) : Rule where
  c := ⟨⟨0, 0, frFlags, 0, 0, none, []⟩, 0, 0, 0, 0, 600, 0, none⟩
  frType := .none
  builtin := false
  frFamily := .inet
  uptr := false
  view := none
  frArg := 0
  frFlx := 0
  frIcmphead := -1
  frGrhead := -1
  frGroup := 0
  frNames := ['g', NUL]
  src := ⟨.normal, 0, 0, 0, 0, 0, false, none⟩
  dst := ⟨.normal, 0, 0, 0, 0, 0, false, none⟩
  tif := ⟨-1, false, false⟩
  rif := ⟨-1, false, false⟩
  dif := ⟨-1, false, false⟩
  frGrp := none

/-- Adding a rule, with memory for the rule and a group. -/
def addCall (r : Rule) (mem : ℕ) : Call :=
  ⟨.logipf, .add, r, 0, true, ⟨none, some mem, none, some mem, none, none, true, true, 0, true, none, none⟩⟩

/-- Nothing is loaded, and there are no tables. -/
def empty : Softc := .init ⟨[], fun _ => none⟩ fun _ => (groupRule 0).c

theorem addCall_careful {mem : ℕ} (h1 : s.group mem = none) (h2 : ∀ unit set, mem ∉ s.groups unit set)
    (h3 : s.rules.mem.head (.group mem) = none)
    (h4 : ∀ id fg, s.group id = some fg → fg.fgHead = none ∧ fg.fgRef ≠ 0 ∧ fg.fgFlags = FR_INQUE) :
    Careful s (addCall (groupRule (FR_PASS ||| FR_INQUE)) mem) := by
  have hflags : (FR_PASS ||| FR_INQUE) &&& FR_INOUT = FR_INQUE := by decide
  have hname : frName (names (groupRule (FR_PASS ||| FR_INQUE))) 0 ≠ [] := by decide
  refine ⟨fun fp hfp => ?_, tidy_plain ?_ rfl ?_ rfl ⟨rfl, rfl, rfl⟩ ?_ ?_⟩
  · obtain rfl : mem = fp := some.inj hfp
    refine ⟨fun id hid => ?_, fun id fg h => ?_⟩
    · obtain rfl : mem = id := some.inj hid
      exact ⟨h1, h2, h3⟩
    · simp [(h4 id fg h).1]
  · exact fun h => nomatch h
  · exact fun h => nomatch h
  · exact groupAdd_gives hname (by simp [addCall]) fun id fg h => (h4 id fg h).2.2.trans hflags.symm
  · intro id fg hn
    obtain ⟨-, hr, hf⟩ := h4 id fg hn.2
    rw [hf]
    exact ⟨hr, by decide⟩

/-- A rule is added to a group, which is new, and then once more: the second call fails, and the
group has one reference as before. -/
theorem run_atomic_twice : ∃ s : Softc,
    run empty [addCall (groupRule (FR_PASS ||| FR_INQUE)) 0] = some s ∧ (s.group 0).map (·.fgRef) = some 1 ∧
    (addCall (groupRule (FR_PASS ||| FR_INQUE)) 1).outcome s = .err EEXIST s := by
  obtain ⟨s, hs, hg, hgs, hm, s', hs'⟩ : ∃ s,
      ((addCall (groupRule (FR_PASS ||| FR_INQUE)) 0).outcome empty).state? = some s ∧
      s.group = update (fun _ => none) 0 (some ⟨.logipf, 0, ['g'], FR_INQUE, 1, none⟩) ∧
      (∀ unit set, 1 ∉ s.groups unit set) ∧ s.rules.mem.head (.group 1) = none ∧
      ∃ s', (addCall (groupRule (FR_PASS ||| FR_INQUE)) 1).outcome s = .err EEXIST s' := by
    refine ⟨_, rfl, rfl, ?_, rfl, _, rfl⟩
    rintro (_ | _ | _) <;> decide
  have hrun : Along Careful empty
      [addCall (groupRule (FR_PASS ||| FR_INQUE)) 0, addCall (groupRule (FR_PASS ||| FR_INQUE)) 1] := by
    refine ⟨addCall_careful rfl (by simp [empty, Softc.init]) rfl (fun id fg h => nomatch h), fun t ht => ?_⟩
    obtain rfl : s = t := mem_unique hs ht
    refine ⟨addCall_careful (by rw [hg]; rfl) hgs hm (fun id fg h => ?_), fun _ _ => trivial⟩
    rw [hg, update_apply] at h
    split at h
    · cases h
      exact ⟨rfl, by decide, rfl⟩
    · cases h
  have hat : Atomic s ((addCall (groupRule (FR_PASS ||| FR_INQUE)) 1).outcome s) := ((run_atomic hrun).1.2 s hs).1
  rw [hs'] at hat
  obtain rfl : s' = s := hat
  exact ⟨s', by simp [run, hs], by rw [hg]; rfl, hs'⟩

/-- One hash table of groups, which is called `0`. -/
def mapped : Softc :=
  .init ⟨[0], fun _ => some ⟨some .logipf, .hash, ['0'], FR_INQUE, false, 1, Nat.one_pos, by decide⟩⟩ fun _ =>
    (groupRule 0).c

/-- A rule that calls `srcgrpmap`, of a type there is not. -/
def srcgrpmapRule : Rule :=
  { groupRule 0 with
    c := ⟨⟨ipfSrcgrpmap, 0, FR_CALL ||| FR_INQUE, 0, 0, none, []⟩, 0, 0, 0, 0, 600, 0, none⟩
    frType := .other }

/-- **A group of the other direction, and a table that is not given back.** A rule for outgoing packets
is added to the group that was made for a rule on incoming ones: `ipf_group_add` returns NULL, and
it is followed. A rule that calls `srcgrpmap` has taken its table when its type turns out to be wrong,
and the table has one reference more after the error. -/
theorem run_not_atomic_direction : (∃ s : Softc,
    run empty [addCall (groupRule (FR_PASS ||| FR_INQUE)) 0] = some s ∧
    (addCall (groupRule (FR_PASS ||| FR_OUTQUE)) 1).outcome s = .nullGroup ∧
    ¬ Atomic s ((addCall (groupRule (FR_PASS ||| FR_OUTQUE)) 1).outcome s)) ∧
    ∃ s : Softc, (addCall srcgrpmapRule 0).outcome mapped = .err EINVAL s ∧
      (mapped.lookups.tab 0).map (·.ref) = some 1 ∧ (s.lookups.tab 0).map (·.ref) = some 2 := by
  refine ⟨?_, ?_⟩
  · obtain ⟨s, hs, h⟩ : ∃ s, run empty [addCall (groupRule (FR_PASS ||| FR_INQUE)) 0] = some s ∧
        (addCall (groupRule (FR_PASS ||| FR_OUTQUE)) 1).outcome s = .nullGroup := ⟨_, rfl, rfl⟩
    refine ⟨s, hs, h, ?_⟩
    rw [h]
    exact id
  · exact ⟨_, rfl, rfl, rfl⟩

end Ipfilter.Frrequest
