import Mathlib.Data.Int.Notation
import Mathlib.Data.List.Basic

/-!
# The policy of dns-proxy

`check_query` of `dns-proxy/main.c` and what it calls to decide about a query: `acl_determine` with `name_qrec_match` and
`name_match`, `time_ok` and `check_questions`. A query is given as `qinfo_build` leaves it. Ports and the records of a packet
that nothing here reads are left out; strings have no NUL.
-/

namespace Ipfilter.DnsProxy

abbrev Byte := BitVec 8

/-- `action_t` -/
inductive Action where
  | allow
  | noMatch
  | block
  | reject
  deriving DecidableEq, Repr

/-- `qtype_t` -/
inductive Qtype where
  | question
  | answer
  | nameserver
  | additional
  | matched
  deriving DecidableEq, Repr

/-- `qrec_t` -/
structure Qrec where
  qirName : List Byte
  qirQtype : Qtype
  qirRrtype : ℕ
  deriving DecidableEq

/-- `qinfo_t`, with `dns_qdcount` of its packet. -/
structure Qinfo where
  qiRecs : List Qrec
  qiRecursion : ℤ
  dnsQdcount : ℕ

/-- `name_t`. `n_rrtypes` has 256 bytes; what is behind them is whatever memory has there. -/
structure Name where
  nName : List Byte
  nRrtypes : Option (ℕ → Bool)

/-- `domain_t` -/
structure Domain where
  dNames : List Name
  dPass : Action

/-- `hostlist_t` -/
structure Hostlist where
  hlIpaddr : BitVec 32
  hlMask : BitVec 32

/-- `timeentry_t` -/
structure Timeentry where
  teDays : ℕ → Bool
  teStartHour : ℕ
  teStartMin : ℕ
  teEndHour : ℕ
  teEndMin : ℕ

/-- `acl_t`. A port is the address of an `inbound_t`, `none` is `NULL`: any port. -/
structure Acl where
  aclSources : List Hostlist
  aclPorts : List (Option ℕ)
  aclDomains : List Domain
  aclTimes : Option (List Timeentry)
  aclRecursion : ℤ

/-- `inbound_t`, its address and `i_sender`. -/
structure Inbound where
  port : ℕ
  sender : BitVec 32

/-- `struct tm` -/
structure Tm where
  tmWday : ℕ
  tmHour : ℕ
  tmMin : ℕ

/-! ## Names -/

/-- `tolower` -/
def tolower (c : Byte) : Byte := if 0x41#8 ≤ c ∧ c ≤ 0x5a#8 then c + 0x20#8 else c

/-- `strncasecmp(s, t, n) == 0` -/
def casecmp (s t : List Byte) (n : ℕ) : Bool := (s.take n).map tolower == (t.take n).map tolower

/-- `name_match` -/
def nameMatch (n : Name) (query : List Byte) : ℤ :=
  let base := n.nName
  let blen := base.length
  let qlen := query.length
  if blen > qlen then 1
  else if blen = 1 ∧ base.head? = some 0x2a#8 then 0
  else if blen = qlen ∧ casecmp base query qlen then 0
  else if base.head? = some 0x2a#8 then
    if casecmp base.tail (query.drop (qlen - (blen - 1))) (blen - 1) then 0 else -1
  else if base.head? ≠ some 0x2e#8 then 1
  else if casecmp base (query.drop (qlen - blen)) blen then 0 else -1

/-- `name_qrec_match` -/
def nameQrecMatch (name : Name) (qr : Qrec) : ℤ :=
  match name.nRrtypes with
  | some rrtypes => if rrtypes qr.qirRrtype = false then -1 else nameMatch name qr.qirName
  | none => nameMatch name qr.qirName

/-! ## `acl_determine` -/

/-- The counters of `acl_determine`. -/
structure Counts where
  reject : ℕ
  block : ℕ
  pass : ℕ
  noMatch : ℕ
  deriving DecidableEq

/-- `reject || block || pass || noMatch` -/
def Counts.any (c : Counts) : Bool := c.reject ≠ 0 ∨ c.block ≠ 0 ∨ c.pass ≠ 0 ∨ c.noMatch ≠ 0

/-- The `switch (d->d_pass)`. -/
def Counts.bump (c : Counts) : Action → Counts
  | .reject => { c with reject := c.reject + 1 }
  | .block => { c with block := c.block + 1 }
  | .allow => { c with pass := c.pass + 1 }
  | .noMatch => { c with noMatch := c.noMatch + 1 }

def namesLoop (d : Domain) (qr : Qrec) : List Name → Counts → Counts
  | [], c => c
  | n :: l, c =>
    let c := if nameQrecMatch n qr = 0 then c.bump d.dPass else c
    if c.any then c else namesLoop d qr l c

def domainsLoop (qr : Qrec) : List Domain → Counts → Counts
  | [], c => c
  | d :: l, c =>
    let c := namesLoop d qr d.dNames c
    if c.any then c else domainsLoop qr l c

/-- The loop over the records of the packet: `qi_result` and a return, or the counters for the next acl. -/
def recsLoop (a : Acl) : List Qrec → Counts → Action ⊕ Counts
  | [], c => .inr c
  | qr :: l, c =>
    if qr.qirQtype ≠ .question then recsLoop a l c
    else
      let c := domainsLoop qr a.aclDomains c
      if c.reject > 0 then .inl .reject
      else if c.block > 0 then .inl .block
      else if c.pass > 0 then .inl .allow
      else recsLoop a l (if c.noMatch > 0 then { c with noMatch := 0 } else c)

/-- The conditions of an acl on recursion, port and source. -/
def Acl.admits (a : Acl) (i : Inbound) (qip : Qinfo) : Bool :=
  !(a.aclRecursion ≥ 0 ∧ a.aclRecursion ≠ qip.qiRecursion) &&
  (a.aclPorts.any fun il => il = none ∨ il = some i.port) &&
  a.aclSources.any fun hl => i.sender &&& hl.hlMask = hl.hlIpaddr

def aclsLoop (i : Inbound) (qip : Qinfo) : List Acl → Counts → Option (Acl × Action)
  | [], _ => none
  | a :: l, c =>
    if !a.admits i qip then aclsLoop i qip l c
    else
      match recsLoop a qip.qiRecs c with
      | .inl result => some (a, result)
      | .inr c => aclsLoop i qip l c

/-- `acl_determine`: the acl, and `qi_result`. -/
def aclDetermine (acls : List Acl) (i : Inbound) (qip : Qinfo) : Option (Acl × Action) := aclsLoop i qip acls ⟨0, 0, 0, 0⟩

/-! ## `check_query` -/

/-- The body of the loop of `time_ok`. -/
def Timeentry.holds (e : Timeentry) (tm : Tm) : Bool :=
  e.teDays tm.tmWday && !(tm.tmHour < e.teStartHour) && !(tm.tmMin < e.teStartMin) && !(tm.tmHour > e.teEndHour) &&
    !(tm.tmMin > e.teEndMin)

/-- `time_ok` -/
def timeOk (tset : Option (List Timeentry)) (tm : Tm) : Action :=
  match tset with
  | none => .allow
  | some entries => if entries.any fun e => e.holds tm then .allow else .block

/-- `check_questions` -/
def checkQuestions (qip : Qinfo) : Action :=
  if qip.dnsQdcount = 0 then .block
  else if qip.qiRecs.any fun qr => qr.qirQtype = .question ∧ qr.qirName = [] then .block
  else .noMatch

/-- What becomes of a query: nothing, a name error, or it goes to a server. -/
inductive Outcome where
  | dropped
  | answered
  | forwarded
  deriving DecidableEq, Repr

/-- `check_query`. `dest` is whether `add_query` finds a server to send the query to. -/
def checkQuery (acls : List Acl) (i : Inbound) (qip : Qinfo) (tm : Tm) (dest : Bool) : Outcome :=
  -- `qi_result` is not read again
  let acl := (aclDetermine acls i qip).map Prod.fst
  let rc := match acl with
    | none => .block
    | some a => timeOk a.aclTimes tm
  let rc := if rc = .allow then checkQuestions qip else rc
  match rc with
  | .noMatch | .allow => if dest then .forwarded else .dropped
  | .block => .dropped
  | .reject => .answered

/-! ## What the policy says -/

/-- The actions of the names of an acl that match a question, in the order of the policy. -/
def Acl.hits (a : Acl) (qr : Qrec) : List Action :=
  a.aclDomains.flatMap fun d => (d.dNames.filter fun n => nameQrecMatch n qr = 0).map fun _ => d.dPass

def Qinfo.questions (qip : Qinfo) : List Qrec := qip.qiRecs.filter fun qr => qr.qirQtype = .question

/-- **The decision:** the action of the first match other than nomatch, with its acl. -/
def decision (acls : List Acl) (i : Inbound) (qip : Qinfo) : Option (Acl × Action) :=
  (acls.filter fun a => a.admits i qip).findSome? fun a => qip.questions.findSome? fun qr =>
    ((a.hits qr).find? fun act => act ≠ .noMatch).map fun act => (a, act)

/-- Hours and minutes taken together, in minutes. -/
def minutes (hour min : ℕ) : ℕ := 60 * hour + min

/-- **The times of an acl:** it has none, or now is in one of them. -/
def Acl.OnTime (a : Acl) (tm : Tm) : Prop :=
  ∀ entries ∈ a.aclTimes, ∃ e ∈ entries, e.teDays tm.tmWday = true ∧
    minutes e.teStartHour e.teStartMin ≤ minutes tm.tmHour tm.tmMin ∧
    minutes tm.tmHour tm.tmMin ≤ minutes e.teEndHour e.teEndMin

/-- **The policy is enforced** on a query with a decision. -/
structure Enforced (d : Option (Acl × Action)) (tm : Tm) (o : Outcome) : Prop where
  undecided : d = none → o = .dropped
  blocked : ∀ a, d = some (a, .block) → o = .dropped
  late : ∀ a act, d = some (a, act) → ¬a.OnTime tm → o = .dropped
  rejected : ∀ a, d = some (a, .reject) → a.OnTime tm → o = .answered
  allowed : o = .forwarded → ∃ a, d = some (a, .allow)

/-! ## What lets a query pass -/

/-- The first acl whose policy acts on a question, when a nomatch ends what it has to say about that question. -/
def acting (acls : List Acl) (i : Inbound) (qip : Qinfo) : Option (Acl × Action) :=
  (acls.filter fun a => a.admits i qip).findSome? fun a => qip.questions.findSome? fun qr =>
    ((a.hits qr).head?.filter fun act => act ≠ .noMatch).map fun act => (a, act)

/-- The hour is within the hours of a time of the acl, and the minute within its minutes. -/
def Acl.InHours (a : Acl) (tm : Tm) : Prop :=
  ∀ entries ∈ a.aclTimes, ∃ e ∈ entries, e.teDays tm.tmWday = true ∧
    (e.teStartHour ≤ tm.tmHour ∧ tm.tmHour ≤ e.teEndHour) ∧ e.teStartMin ≤ tm.tmMin ∧ tm.tmMin ≤ e.teEndMin

/-- There are questions, and each has a name. -/
def Qinfo.Named (qip : Qinfo) : Prop := qip.dnsQdcount ≠ 0 ∧ ∀ qr ∈ qip.questions, qr.qirName ≠ []

/-- **The query passes:** some acl acts on it, whatever it does, its hours and its minutes are right, all questions have names
and there is a server. -/
def Passes (acls : List Acl) (i : Inbound) (qip : Qinfo) (tm : Tm) (dest : Bool) : Prop :=
  dest = true ∧ qip.Named ∧ ∃ a act, acting acls i qip = some (a, act) ∧ a.InHours tm

end Ipfilter.DnsProxy
