import Ipfilter.Spec.DnsPolicy

/-!
# When dns-proxy enforces its policy

* `domainsLoop_eq`, `recsLoop_eq`, `aclDetermine_eq` — `acl_determine` finds the first acl that acts on a question, when a
  nomatch ends what an acl has to say about a question;
* `checkQuery_forwards` — a query is sent to a server just when it passes, whatever the action is;
* `policy_enforced_iff` — **the policy is enforced just when no query in time is to be rejected, and those that pass are
  neither blocked nor late;** `blocked_passes` is a query that is to be blocked and is not.
-/

namespace Ipfilter.DnsProxy

open List

variable {acls : List Acl} {i : Inbound} {qip : Qinfo} {tm : Tm} {dest : Bool}

/-! ## `acl_determine` -/

def Counts.zero : Counts := ⟨0, 0, 0, 0⟩

theorem any_zero : Counts.zero.any = false := by decide

theorem any_bump (act : Action) : (Counts.zero.bump act).any = true := by cases act <;> decide

/-- The counters after a question, from what hit it first. -/
def Counts.after : Option Action → Counts
  | none => .zero
  | some act => Counts.zero.bump act

theorem namesLoop_eq (d : Domain) (qr : Qrec) (l : List Name) : namesLoop d qr l .zero =
    .after (((l.filter fun n => nameQrecMatch n qr = 0).map fun _ => d.dPass).head?) := by
  induction l with
  | nil => rfl
  | cons n l ih =>
    by_cases h : nameQrecMatch n qr = 0
    · simp [namesLoop, h, any_bump, Counts.after]
    · simp [namesLoop, h, any_zero, ih]

/-- **The first name that matches** a question decides. -/
theorem domainsLoop_eq (qr : Qrec) (l : List Domain) : domainsLoop qr l .zero = .after ((l.flatMap fun d =>
    (d.dNames.filter fun n => nameQrecMatch n qr = 0).map fun _ => d.dPass).head?) := by
  induction l with
  | nil => rfl
  | cons d l ih =>
    rw [domainsLoop, namesLoop_eq, flatMap_cons]
    cases h : (d.dNames.filter fun n => nameQrecMatch n qr = 0).map fun _ => d.dPass with
    | nil => simpa [Counts.after, any_zero] using ih
    | cons act acts => simp [Counts.after, any_bump]

/-- What an acl does about a question, when a nomatch ends it. -/
def Acl.acts (a : Acl) (qr : Qrec) : Option Action := (a.hits qr).head?.filter fun act => act ≠ .noMatch

/-- The loop over the records returns what the acl does about the first question it does something about. -/
theorem recsLoop_eq (a : Acl) (l : List Qrec) : recsLoop a l .zero =
    match (l.filter fun qr => qr.qirQtype = .question).findSome? a.acts with
    | some act => .inl act
    | none => .inr .zero := by
  induction l with
  | nil => rfl
  | cons qr l ih =>
    by_cases hq : qr.qirQtype = .question
    · have hd : domainsLoop qr a.aclDomains .zero = .after (a.hits qr).head? := domainsLoop_eq qr a.aclDomains
      rw [recsLoop, if_neg (by simpa using hq), hd, filter_cons_of_pos (by simpa using hq), findSome?_cons]
      unfold Acl.acts
      cases (a.hits qr).head? with
      | none => exact ih
      | some act =>
        cases act with
        | noMatch => exact ih
        | allow => rfl
        | block => rfl
        | reject => rfl
    · rw [recsLoop, if_pos hq, filter_cons_of_neg (by simpa using hq)]
      exact ih

theorem acts_findSome (a : Acl) (l : List Qrec) :
    (l.findSome? fun qr => ((a.hits qr).head?.filter fun act => act ≠ .noMatch).map fun act => (a, act)) =
      (l.findSome? a.acts).map fun act => (a, act) := by
  rw [map_findSome?]
  rfl

/-- **What `acl_determine` finds.** -/
theorem aclDetermine_eq : aclDetermine acls i qip = acting acls i qip := by
  unfold aclDetermine acting
  induction acls with
  | nil => rfl
  | cons a l ih =>
    by_cases ha : a.admits i qip = true
    · have hr : recsLoop a qip.qiRecs ⟨0, 0, 0, 0⟩ =
          match qip.questions.findSome? a.acts with
          | some act => .inl act
          | none => .inr .zero := recsLoop_eq a qip.qiRecs
      have hf : (a :: l).filter (fun a => a.admits i qip) = a :: l.filter fun a => a.admits i qip :=
        filter_cons_of_pos ha
      rw [aclsLoop, if_neg (by simpa using ha), hr, hf, findSome?_cons, acts_findSome]
      cases qip.questions.findSome? a.acts with
      | none => exact ih
      | some act => rfl
    · have hf : (a :: l).filter (fun a => a.admits i qip) = l.filter fun a => a.admits i qip :=
        filter_cons_of_neg ha
      rw [aclsLoop, if_pos (by simpa using ha), hf]
      exact ih

/-! ## `check_query` -/

theorem timeOk_eq (a : Acl) : timeOk a.aclTimes tm = .allow ↔ a.InHours tm := by
  unfold timeOk Acl.InHours
  cases a.aclTimes with
  | none => simp
  | some entries =>
    have hcond : (entries.any fun e => e.holds tm) = true ↔ ∃ e ∈ entries, e.teDays tm.tmWday = true ∧
        (e.teStartHour ≤ tm.tmHour ∧ tm.tmHour ≤ e.teEndHour) ∧ e.teStartMin ≤ tm.tmMin ∧
          tm.tmMin ≤ e.teEndMin := by
      simp only [any_eq_true, Timeentry.holds, Bool.and_eq_true, Bool.not_eq_true', decide_eq_false_iff_not, Nat.not_lt,
        gt_iff_lt]
      apply exists_congr
      intro e
      tauto
    simp only [Option.mem_some_iff, forall_eq']
    rw [← hcond]
    split <;> simp_all

theorem timeOk_cases (tset : Option (List Timeentry)) : timeOk tset tm = .allow ∨ timeOk tset tm = .block := by
  unfold timeOk
  cases tset with
  | none => exact .inl rfl
  | some entries =>
    dsimp only
    split
    · exact .inl rfl
    · exact .inr rfl

theorem checkQuestions_eq : checkQuestions qip = if qip.dnsQdcount ≠ 0 ∧ ∀ qr ∈ qip.questions, qr.qirName ≠ []
    then .noMatch else .block := by
  unfold checkQuestions Qinfo.questions
  by_cases h0 : qip.dnsQdcount = 0
  · simp [h0]
  · by_cases hn : ∀ qr ∈ qip.qiRecs, qr.qirQtype = .question → qr.qirName ≠ []
    · have h1 : ¬(qip.qiRecs.any fun qr => qr.qirQtype = .question ∧ qr.qirName = []) = true := by
        simp only [any_eq_true, decide_eq_true_eq, not_exists, not_and]
        exact fun qr hm hq => hn qr hm hq
      rw [if_neg h0, if_neg h1, if_pos ⟨h0, by simpa using hn⟩]
    · have h1 : (qip.qiRecs.any fun qr => qr.qirQtype = .question ∧ qr.qirName = []) = true := by
        push Not at hn
        simpa using hn
      rw [if_neg h0, if_pos h1, if_neg (fun hc => hn (by simpa using hc.2))]

open Classical in
/-- **A query is forwarded or dropped,** and forwarded just when it passes. -/
theorem checkQuery_forwards : checkQuery acls i qip tm dest = if Passes acls i qip tm dest then .forwarded else .dropped := by
  unfold checkQuery Passes
  rw [aclDetermine_eq]
  cases hx : acting acls i qip with
  | none => simp
  | some p =>
    obtain ⟨a, act⟩ := p
    have hin : timeOk a.aclTimes tm = .allow ↔ a.InHours tm := timeOk_eq a
    have hnamed : qip.Named ↔ (qip.dnsQdcount ≠ 0 ∧ ∀ qr ∈ qip.questions, qr.qirName ≠ []) := Iff.rfl
    have hcases : timeOk a.aclTimes tm = .allow ∨ timeOk a.aclTimes tm = .block := timeOk_cases a.aclTimes
    rcases hcases with ht | ht
    · have hih := hin.mp ht
      by_cases hq : qip.Named
      · simp [ht, checkQuestions_eq, ← hnamed, hq, hih]
      · simp [ht, checkQuestions_eq, ← hnamed, hq]
    · have hnih : ¬a.InHours tm := by
        rw [← hin, ht]
        simp
      simp [ht, hnih]

/-- When some acl acts on the query, there is a decision. -/
theorem decision_of_acting (h : (acting acls i qip).isSome) : (decision acls i qip).isSome := by
  unfold acting at h
  unfold decision
  rw [findSome?_isSome_iff] at h ⊢
  obtain ⟨a, ha, h⟩ := h
  refine ⟨a, ha, ?_⟩
  rw [findSome?_isSome_iff] at h ⊢
  obtain ⟨qr, hq, h⟩ := h
  refine ⟨qr, hq, ?_⟩
  rw [Option.isSome_map] at h ⊢
  cases hh : a.hits qr with
  | nil => simp [hh] at h
  | cons act l =>
    have hact : act ≠ .noMatch := by
      rintro rfl
      simp [hh] at h
    simp [hact]

/-- **The policy is enforced** just when no query in time is to be rejected, and none that passes is to be blocked or late. -/
theorem policy_enforced_iff : Enforced (decision acls i qip) tm (checkQuery acls i qip tm dest) ↔
    (∀ a, decision acls i qip = some (a, .reject) → ¬a.OnTime tm) ∧
    ∀ a act, decision acls i qip = some (a, act) → Passes acls i qip tm dest → act ≠ .block ∧ a.OnTime tm := by
  classical
  rw [checkQuery_forwards]
  by_cases hp : Passes acls i qip tm dest
  · rw [if_pos hp]
    constructor
    · intro h
      obtain ⟨a, ha⟩ := h.allowed rfl
      have ht : a.OnTime tm := by
        by_contra hn
        exact absurd (h.late a _ ha hn) (by decide)
      rw [ha]
      refine ⟨fun b hb => absurd hb (by simp), ?_⟩
      intro b act hb _
      obtain ⟨rfl, rfl⟩ : a = b ∧ .allow = act := by simpa using hb
      exact ⟨by decide, ht⟩
    · rintro ⟨h1, h2⟩
      obtain ⟨b, act, hb, -⟩ := hp.2.2
      obtain ⟨⟨a, act⟩, ha⟩ := Option.isSome_iff_exists.mp (decision_of_acting (by rw [hb]; rfl))
      obtain ⟨hblock, ht⟩ := h2 a act ha hp
      have hnr : act ≠ .reject := by
        rintro rfl
        exact h1 a ha ht
      -- an action that was chosen is no nomatch
      have hnm : act ≠ .noMatch := by
        rintro rfl
        obtain ⟨_, _, hf⟩ := exists_of_findSome?_eq_some ha
        obtain ⟨_, _, hf⟩ := exists_of_findSome?_eq_some hf
        obtain ⟨_, hf, he⟩ := Option.map_eq_some_iff.mp hf
        have := List.find?_some hf
        simp_all
      have hallow : act = .allow := by cases act <;> simp_all
      subst hallow
      refine ⟨?_, ?_, ?_, ?_, fun _ => ⟨a, ha⟩⟩
      · intro hn
        rw [ha] at hn
        cases hn
      · intro c hc
        rw [ha] at hc
        simp at hc
      · intro c act' hc hl
        rw [ha] at hc
        obtain ⟨rfl, -⟩ : a = c ∧ _ := by simpa using hc
        exact absurd ht hl
      · intro c hc
        rw [ha] at hc
        simp at hc
  · rw [if_neg hp]
    constructor
    · intro h
      refine ⟨?_, fun _ _ _ hc => absurd hc hp⟩
      intro a ha ht
      exact absurd (h.rejected a ha ht) (by decide)
    · rintro ⟨h1, -⟩
      exact ⟨fun _ => rfl, fun _ _ => rfl, fun _ _ _ _ => rfl, fun a ha ht => absurd ht (h1 a ha),
        fun hc => absurd hc (by decide)⟩

/-! ## A query that is to be blocked -/

/-- `acl all { source(*); port (all); recursion *; policy { block .b; }; }` -/
def blockAcl : Acl where
  aclSources := [⟨0, 0⟩]
  aclPorts := [none]
  aclDomains := [⟨[⟨[0x2e#8, 0x62#8], none⟩], .block⟩]
  aclTimes := none
  aclRecursion := -1

/-- A question for `a.b`. -/
def question : Qinfo := ⟨[⟨[0x61#8, 0x2e#8, 0x62#8], .question, 1⟩], 0, 1⟩

/-- **It is forwarded,** so the policy is not enforced on every query. -/
theorem blocked_passes : ¬∀ (acls : List Acl) (i : Inbound) (qip : Qinfo) (tm : Tm) (dest : Bool),
    Enforced (decision acls i qip) tm (checkQuery acls i qip tm dest) := by
  intro h
  have hb := (h [blockAcl] ⟨0, 0⟩ question ⟨0, 0, 0⟩ true).blocked blockAcl rfl
  exact absurd hb (by decide)

end Ipfilter.DnsProxy
