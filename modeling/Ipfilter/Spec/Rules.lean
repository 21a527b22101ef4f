import Ipfilter.Chain.Mem
import Ipfilter.Spec.Flags

/-!
# Rule lists

The part of `frrequest` in `fil.c` that works on the rule lists with the write lock held,
`ipf_rule_compare`, `ipf_rule_delete`, `ipf_rule_expire_insert`, `ipf_rule_expire` and, for the
list of the authentication device, `ipf_auth_precmd`.

A rule is an address. `fr_next` and `fr_pnext` are one chain memory, over all list heads there
are; `fr_dnext` and `fr_pdnext` are another, over the two heads of `ipf_rule_explist`.
-/

namespace Ipfilter.Rules

open Chain

scoped instance neZeroTwo : NeZero 2 := ⟨by decide⟩

/-- The value of a `u_32_t` field after an assignment. -/
def u32 (n : ℕ) : ℕ := n % 2 ^ 32

abbrev Addr := ℕ

/-- The heads of rule lists: `ipf_auth_ip`, `ipf_rules[out][set]`, `ipf_acct[out][set]` and
`fg_start` of the groups. -/
inductive Head where
  | auth
  | rules (out set : Fin 2)
  | acct (out set : Fin 2)
  | group (fg : ℕ)
  deriving DecidableEq, Repr

/-- The fields of `frentry_t` from `fr_func` on, which are compared as one block. `frRest` is
those that are not named here, and `htParent` is `fr_srctrack.ht_root.top.parent`. -/
structure FrBlock where
  frFunc : ℕ
  frDsize : ℕ
  frFlags : Flags
  frCollect : ℕ
  htMaxNodes : ℕ
  htParent : Option Addr
  frRest : List ℕ
  deriving DecidableEq, Repr

/-- The fields of `frentry_t` outside the lists. -/
structure Frentry extends FrBlock where
  frRef : ℤ
  frDie : ℕ
  frHits : ℕ
  frBytes : ℕ
  frSize : ℕ
  frCksum : ℕ
  frData : Option (List ℕ)
  deriving DecidableEq, Repr

/-- What a call ends with instead of a result: an error number, or no return at all (a NULL
pointer is followed, a loop does not end). -/
inductive Stop where
  | errno (e : ℕ)
  | fault
  deriving DecidableEq, Repr

/-- A rule that is loaded: the set it was loaded into, and whether it came with a time to live. -/
structure Load where
  addr : Addr
  set : Fin 2
  expires : Bool
  deriving DecidableEq, Repr

/-- The part of `ipf_main_softc_t` with the rules. `loaded` keeps track of the rules that are
loaded; `authEntries` is the list from `ipf_auth_entries` on. -/
structure Softc where
  ticks : ℕ
  mem : Mem Head Addr
  dmem : Mem (Fin 2) Addr
  fr : Addr → Frentry
  loaded : List Load
  authEntries : List Addr

/-- `ipf_rule_compare` -/
def ipfRuleCompare (fr1 fr2 : Frentry) : ℕ :=
  if fr1.frCksum ≠ fr2.frCksum then 1
  else if fr1.frSize ≠ fr2.frSize then 2
  else if fr1.frDsize ≠ fr2.frDsize then 3
  else if fr1.toFrBlock ≠ fr2.toFrBlock then 4
  else if fr1.frData.isSome ∧ fr2.frData.isNone then 5
  else if fr1.frData.isNone ∧ fr2.frData.isSome then 6
  else if fr1.frData ≠ fr2.frData then 7
  else 0

/-! ## Expiring rules -/

/-- `IPF_TTLVAL` -/
def ipfTtlval (x : ℕ) : ℕ := x / 1 * 2

/-- Where the loop of `ipf_rule_expire_insert` ends. -/
inductive ExpirePlace where
  | empty
  | before (fr : Addr)
  | after (fr : Addr)
  deriving DecidableEq, Repr

/-- The loop of `ipf_rule_expire_insert`. -/
def expireFind (m : Mem (Fin 2) Addr) (frDie : Addr → ℕ) (die : ℕ) : ℕ → Option Addr → Option ExpirePlace
  | _, none => some .empty
  | 0, some _ => none
  | i + 1, some fr =>
    if die < frDie fr then some (.before fr)
    else
      match m.next fr with
      | none => some (.after fr)
      | some g => expireFind m frDie die i (some g)

/-- `ipf_rule_expire_insert`. In front of an existing rule only the back pointers and the new
rule's own forward pointer are set. -/
def ipfRuleExpireInsert (s : Softc) (f : Addr) (set : Fin 2) : Option Softc := do
  let die := u32 (s.ticks + ipfTtlval (s.fr f).frDie)
  let s := { s with fr := Function.update s.fr f { s.fr f with frDie := die } }
  match ← expireFind s.dmem (fun n => (s.fr n).frDie) die (s.loaded.length + 1) (s.dmem.head set) with
  | .empty => return { s with dmem := (s.dmem.set (.head set) (some f)).setP f (some (.head set)) }
  | .after fr => return { s with dmem := (s.dmem.set (.next fr) (some f)).setP f (some (.next fr)) }
  | .before fr =>
    return { s with dmem := ((s.dmem.set (.next f) (some fr)).setP f (s.dmem.pnext fr)).setP fr (some (.next f)) }

/-- The rule list part of `ipf_rule_delete`. -/
def unlinkRule (m : Mem Head Addr) (f : Addr) : Mem Head Addr :=
  let m₁ := match m.pnext f with
    | none => m
    | some k => m.set k (m.next f)
  ((m₁.setP? (m.next f) (m.pnext f)).setP f none).set (.next f) none

/-- `ipf_rule_delete`; what the last reference to a rule frees is no part of the lists. -/
def ipfRuleDelete (s : Softc) (f : Addr) : Softc :=
  { s with
    dmem := s.dmem.cut f
    mem := unlinkRule s.mem f
    fr := Function.update s.fr f { s.fr f with frRef := (s.fr f).frRef - 1 }
    loaded := s.loaded.filter (·.addr ≠ f) }

/-- One of the loops of `ipf_rule_expire`. -/
def expireLoop (set : Fin 2) : ℕ → Softc → Option Softc
  | i, s =>
    match s.dmem.head set with
    | none => some s
    | some fr =>
      if s.ticks < (s.fr fr).frDie then some s
      else
        match i with
        | 0 => none
        | i + 1 => expireLoop set i (ipfRuleDelete s fr)

/-- `ipf_rule_expire` -/
def ipfRuleExpire (s : Softc) : Option Softc := do
  let s ← expireLoop 0 s.loaded.length s
  expireLoop 1 s.loaded.length s

/-! ## The locked part of `frrequest` -/

/-- `req`, of those that work on rules. `SIOCADAFR` and `SIOCADIFR` are one request here, for
the active and the inactive set, and so are the others. -/
inductive Req where
  | add
  | insert
  | remove
  | zero
  deriving DecidableEq, Repr

/-- The first loop: `fprev` stays one rule behind `ftail`, and `ftail` comes back to it at the
first rule whose collection number is not smaller. -/
def collectFind (m : Mem Head Addr) (collect : Addr → ℕ) (x : ℕ) :
    ℕ → Link Head Addr → Link Head Addr → Link Head Addr × Link Head Addr
  | 0, fprev, ftail => (fprev, ftail)
  | i + 1, fprev, ftail =>
    match m.get ftail with
    | none => (fprev, ftail)
    | some f => if x ≤ collect f then (fprev, fprev) else collectFind m collect x i ftail (.next f)

/-- `fprev` and `ftail` after the two searching loops, for the rule `fp` on the list `h`. -/
def ruleFind (s : Softc) (h : Head) (fp : Addr) : Link Head Addr × Link Head Addr :=
  let n := s.loaded.length
  let r := collectFind s.mem (fun f => (s.fr f).frCollect) (s.fr fp).frCollect n (.head h) (.head h)
  (r.1, s.mem.seek (fun f => ipfRuleCompare (s.fr fp) (s.fr f) ≠ 0) n r.2)

/-- Where `SIOCADAFR` puts a new rule: after those with the same collection number. -/
def addPlace (s : Softc) (fp : Addr) (fprev : Link Head Addr) : Link Head Addr :=
  s.mem.seek (fun f => (s.fr f).frCollect ≤ (s.fr fp).frCollect) s.loaded.length fprev

/-- Where `SIOCINAFR` puts a new rule: after the first `fr_hits` of those with the same
collection number. -/
def insertPlace (s : Softc) (fp : Addr) (fprev : Link Head Addr) : Link Head Addr :=
  let ftail := s.mem.seek (fun f => (s.fr f).frCollect < (s.fr fp).frCollect) s.loaded.length fprev
  s.mem.seek (fun f => (s.fr f).frCollect = (s.fr fp).frCollect) (s.fr fp).frHits ftail

/-- `ipf_auth_precmd`; `new` is the address of the entry it allocates. Of the rule only the
contents are copied, and `ipf_auth_ip` is set to the first entry at the end. -/
def ipfAuthPrecmd (s : Softc) (req : Req) (fr : Addr) (frptr : Link Head Addr) (new : Option Addr) :
    Except Stop Softc :=
  match req with
  | .remove =>
    if fr ∈ s.authEntries then
      let es := s.authEntries.erase fr
      .ok { s with
        authEntries := es
        mem := if s.mem.head .auth = some fr then s.mem.set (.head .auth) es.head? else s.mem
        loaded := s.loaded.filter (·.addr ≠ fr) }
    else .error (.errno ESRCH)
  | .add =>
    match new with
    | none => .error (.errno ENOMEM)
    | some fae =>
      let m := ((s.mem.setP fae (s.mem.pnext fr)).set (.next fae) (s.mem.get frptr)).set frptr (some fae)
      let es := s.authEntries ++ [fae]
      .ok { s with
        fr := Function.update s.fr fae { s.fr fr with frHits := 0 }
        authEntries := es
        mem := m.set (.head .auth) es.head?
        dmem := (s.dmem.setP fae (s.dmem.pnext fr)).set (.next fae) (s.dmem.next fr)
        loaded := ⟨fae, 0, false⟩ :: s.loaded }
  | _ => .error (.errno EIO)

/-- Adding or inserting `fp` at `ftail`. -/
def ruleLink (s : Softc) (fp : Addr) (ftail : Link Head Addr) (set : Fin 2) (makecopy : Bool) : Except Stop Softc :=
  match if (s.fr fp).frDie ≠ 0 then ipfRuleExpireInsert s fp set else some s with
  | none => .error .fault
  | some s' =>
    .ok { s' with
      fr := Function.update s'.fr fp
        { s'.fr fp with frHits := 0, frRef := if makecopy then 1 else (s'.fr fp).frRef }
      mem := s'.mem.link fp ftail
      loaded := ⟨fp, set, (s.fr fp).frDie ≠ 0⟩ :: s'.loaded }

/-- The part of `frrequest` under the lock, for the rule at `fp` on the list `h`. `auth` is whether
the request is for the authentication device, and `new` memory for `ipf_auth_precmd`. -/
def frLocked (s : Softc) (req : Req) (auth : Bool) (h : Head) (fp : Addr) (set : Fin 2) (makecopy : Bool)
    (new : Option Addr) : Except Stop Softc :=
  let r := ruleFind s h fp
  match s.mem.get r.2, req with
  | none, .zero => .error (.errno ESRCH)
  | some f, .zero => .ok { s with fr := Function.update s.fr f { s.fr f with frHits := 0, frBytes := 0 } }
  | none, .remove => .error (.errno ESRCH)
  | some f, .remove =>
    if makecopy ∧ has (s.fr f).frFlags FR_COPIED = false then .error (.errno EPERM)
    else if 1 < (s.fr f).frRef then .error (.errno EBUSY)
    else if auth then ipfAuthPrecmd s req f r.2 new
    else .ok (ipfRuleDelete s f)
  | some _, _ => .error (.errno EEXIST)
  | none, .add =>
    let ftail := addPlace s fp r.1
    if auth then ipfAuthPrecmd s req fp ftail new else ruleLink s fp ftail set makecopy
  | none, .insert =>
    let ftail := insertPlace s fp r.1
    if auth then ipfAuthPrecmd s req fp ftail new else ruleLink s fp ftail set makecopy

/-- The rule as it is compared and linked, copied to `fp`: the list pointers are cleared, the
flag that says where it came from is set, tracking of sources starts with an empty tree whose
top is its own parent, and the checksum is that of the data (the loop over the fixed part
starts behind its end). -/
def prepare (s : Softc) (fp : Addr) (c : Frentry) : Softc :=
  { s with
    fr := Function.update s.fr fp { c with
      frRef := 0
      frFlags := c.frFlags ||| FR_COPIED
      htParent := if c.htMaxNodes ≠ 0 then some fp else c.htParent
      frCksum := u32 (c.frData.getD []).sum }
    mem := (s.mem.set (.next fp) none).setP fp none
    dmem := (s.dmem.set (.next fp) none).setP fp none }

/-- A request from user space for the rule `c` on the list `h`. -/
def request (s : Softc) (req : Req) (auth : Bool) (h : Head) (fp : Addr) (c : Frentry) (set : Fin 2)
    (new : Option Addr) : Except Stop Softc :=
  frLocked (prepare s fp c) req auth h fp set true new

/-! ## Runs -/

/-- What may happen next. -/
inductive Op where
  | request (req : Req) (auth : Bool) (h : Head) (fp : Addr) (c : Frentry) (set : Fin 2) (new : Option Addr)
  | delete (f : Addr)
  | expire
  | tick (ticks : ℕ)

/-- The allocator returns memory that is not in use, only loaded rules are deleted, and the
clock does not go back. -/
def Legal (s : Softc) : Op → Prop
  | .request _ _ _ fp _ _ new =>
    (∀ p ∈ s.loaded, p.addr ≠ fp) ∧ ∀ n ∈ new, n ≠ fp ∧ ∀ p ∈ s.loaded, p.addr ≠ n
  | .delete f => ∃ p ∈ s.loaded, p.addr = f
  | .expire => True
  | .tick ticks => s.ticks ≤ ticks

/-- One call that succeeds. -/
def step (s : Softc) : Op → Option Softc
  | .request req auth h fp c set new => (request s req auth h fp c set new).toOption
  | .delete f => some (ipfRuleDelete s f)
  | .expire => ipfRuleExpire s
  | .tick ticks => some { s with ticks := ticks }

/-- No rules yet. -/
def Softc.init (ticks : ℕ) (fr : Addr → Frentry) : Softc := ⟨ticks, Mem.empty, Mem.empty, fr, [], []⟩

/-- The runs whose steps all meet `ok`. -/
inductive Run (ok : Softc → Op → Prop) (s₀ : Softc) : Softc → Prop where
  | init : Run ok s₀ s₀
  | step {s s' : Softc} (op : Op) : Run ok s₀ s → Legal s op → ok s op → step s op = some s' → Run ok s₀ s'

end Ipfilter.Rules
