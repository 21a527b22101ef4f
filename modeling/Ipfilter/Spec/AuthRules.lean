import Ipfilter.Spec.Rules

/-!
# Rules for pre-authorisation

The entries that `ipf_auth_precmd` adds and removes, that `ipf_auth_expire` lets grow old, and that an iterator walks over.
An entry `frauthent_t` is on the list `ipf_auth_entries`, and the rule in it is in the chain that starts at `ipf_auth_ip`, or
on the list of its group. An entry and its rule have one number.
-/

namespace Ipfilter.AuthRules

open Chain
open Rules (Frentry Head collectFind ipfRuleCompare)

/-- `frauthent_t`, without its links. `fae_age` is an `u_long`. -/
structure Fae where
  fr : Frentry
  age : BitVec 64
  ref : ℤ

/-- The entries: their list, the chain of their rules, the memory that is in use, and what the tokens of iterators point at.
`made` is the number of entries that were ever made, a bound for the loops. -/
structure Sys where
  lock : Bool
  defaultage : BitVec 64
  list : Mem Unit ℕ
  chain : Mem Head ℕ
  ent : ℕ → Fae
  alloc : ℕ → Bool
  made : ℕ
  tok : ℕ → Option ℕ
  done : ℕ → Bool

def Sys.upd (w : Sys) (x : ℕ) (f : Fae → Fae) : Sys := { w with ent := Function.update w.ent x (f (w.ent x)) }

/-- `KFREE`. -/
def Sys.kfree (w : Sys) (x : ℕ) : Sys := { w with alloc := Function.update w.alloc x false }

/-! ## Adding and removing -/

/-- The place in the list where the loop of `ipf_auth_precmd` ends: the one that points to the entry of the rule `fr`, or the
end. -/
def Sys.faep (w : Sys) (fr : Option ℕ) : Link Unit ℕ := w.list.seek (fun x => fr ≠ some x) w.made (.head ())

/-- `ipf_auth_precmd` for `SIOCRMAFR`. -/
def precmdRemove (w : Sys) (fr : ℕ) : Sys × ℕ :=
  let faep := w.faep (some fr)
  match w.list.get faep with
  | none => (w, ESRCH)
  | some fae =>
    let w := { w with list := w.list.set faep (w.list.next fae) }
    let w := if w.chain.head .auth = some fae then { w with chain := w.chain.set (.head .auth) (w.list.head ()) } else w
    (w.kfree fae, 0)

/-- `ipf_auth_precmd` for `SIOCADAFR`, with the memory that `KMALLOC` gives. The entry goes to the end of the list, and its
rule to the place `frptr` of the chain, which then starts at the first entry. -/
def precmdAdd (w : Sys) (fr : Frentry) (frptr : Link Head ℕ) (new : Option ℕ) : Sys × ℕ :=
  let faep := w.faep none
  match new with
  | none => (w, ENOMEM)
  | some fae =>
    let w := { w with
      ent := Function.update w.ent fae ⟨{ fr with frHits := 0 }, w.defaultage, 1⟩
      alloc := Function.update w.alloc fae true
      made := w.made + 1
      chain := (w.chain.set (.next fae) (w.chain.get frptr)).set frptr (some fae)
      list := (w.list.set (.next fae) (w.list.get faep)).set faep (some fae) }
    ({ w with chain := w.chain.set (.head .auth) (w.list.head ()) }, 0)

/-- The list that `frrequest` works on: that of the group `fg` if the rule has one, and only without a group what
`ipf_auth_rulehead` gives. -/
def ruleHead : Option ℕ → Head
  | none => .auth
  | some fg => .group fg

/-- `fprev` and `ftail` of `frrequest` after the two searching loops on the list `h`. -/
def Sys.find (w : Sys) (h : Head) (fp : Frentry) : Link Head ℕ × Link Head ℕ :=
  let r := collectFind w.chain (fun f => (w.ent f).fr.frCollect) fp.frCollect w.made (.head h) (.head h)
  (r.1, w.chain.seek (fun f => ipfRuleCompare fp (w.ent f).fr ≠ 0) w.made r.2)

/-- Where `frrequest` adds the rule: behind those with the same collection number. -/
def Sys.place (w : Sys) (h : Head) (fp : Frentry) : Link Head ℕ :=
  w.chain.seek (fun f => (w.ent f).fr.frCollect ≤ fp.frCollect) w.made (w.find h fp).1

/-- `SIOCADAFR`, from the search in `frrequest` on: the error. `group` is what `ipf_group_add` gave for a rule with a group.
(A rule for accounting is none for `ipf_auth_precmd`.) -/
def siocadafr (w : Sys) (group : Option ℕ) (fp : Frentry) (new : Option ℕ) : Sys × ℕ :=
  let h := ruleHead group
  match w.chain.get (w.find h fp).2 with
  | some _ => (w, EEXIST)
  | none => precmdAdd w fp (w.place h fp) new

/-- `SIOCRMAFR`; `group` is what `ipf_findgroup` gave. -/
def siocrmafr (w : Sys) (group : Option ℕ) (fp : Frentry) : Sys × ℕ :=
  match w.chain.get (w.find (ruleHead group) fp).2 with
  | none => (w, ESRCH)
  | some f =>
    if has (w.ent f).fr.frFlags FR_COPIED = false then (w, EPERM)
    else if 1 < (w.ent f).fr.frRef then (w, EBUSY)
    else precmdRemove w f

/-! ## Time -/

/-- `ipf_auth_deref`. -/
def ipfAuthDeref (w : Sys) (fae : ℕ) : Sys :=
  let w := w.upd fae fun e => { e with ref := e.ref - 1 }
  if (w.ent fae).ref = 0 then w.kfree fae else w

/-- The loop of `ipf_auth_expire` over the entries. An entry whose time is over is dereferenced, but the list goes on to
point at it, so it is met again. -/
def ageLoop : ℕ → Sys → Link Unit ℕ → Sys
  | 0, w, _ => w
  | fuel + 1, w, faep =>
    match w.list.get faep with
    | none => w
    | some fae =>
      let w := w.upd fae fun e => { e with age := e.age - 1 }
      if (w.ent fae).age = 0 then ageLoop fuel (ipfAuthDeref w fae) faep else ageLoop fuel w (.next fae)

/-- `ipf_auth_expire`, the part for these rules. -/
def ipfAuthExpire (w : Sys) : Sys :=
  if w.lock then w
  else
    let w := ageLoop (2 * w.made + 1) w (.head ())
    { w with chain := w.chain.set (.head .auth) (w.list.head ()) }

/-! ## Iterators -/

/-- The request of an iterator: whether there is a buffer, whether the type is right, and whether it can be copied out. -/
structure Geniter where
  data : Bool
  type : Bool
  copyout : Bool

/-- `ipf_auth_geniter`: the error. -/
def ipfAuthGeniter (w : Sys) (q : ℕ) (itp : Geniter) : Sys × ℕ :=
  if !itp.data then (w, EFAULT)
  else if !itp.type then (w, EINVAL)
  else
    let fae := w.tok q
    let next := match fae with
      | none => w.list.head ()
      | some f => w.list.next f
    let w := match next with
      | none => w
      | some n => w.upd n fun e => { e with ref := e.ref + 1 }
    let w := { w with tok := Function.update w.tok q next }
    let w := match fae with
      | none => w
      | some f => ipfAuthDeref w f
    let last := match next with
      | none => true
      | some n => decide (w.list.next n = none)
    let w := if last then { w with done := Function.update w.done q true } else w
    (w, if itp.copyout then 0 else EFAULT)

/-! ## Runs -/

/-- No entries. -/
def init (defaultage : BitVec 64) (ent : ℕ → Fae) : Sys where
  lock := false
  defaultage := defaultage
  list := Mem.empty
  chain := Mem.empty
  ent := ent
  alloc _ := false
  made := 0
  tok _ := none
  done _ := false

/-- A call. -/
inductive Op where
  | add (group : Option ℕ) (fp : Frentry) (new : Option ℕ)
  | remove (group : Option ℕ) (fp : Frentry)
  | expire
  | iterate (q : ℕ) (itp : Geniter)
  | setlock (lock : Bool)

def step (w : Sys) : Op → Sys
  | .add group fp new => (siocadafr w group fp new).1
  | .remove group fp => (siocrmafr w group fp).1
  | .expire => ipfAuthExpire w
  | .iterate q itp => (ipfAuthGeniter w q itp).1
  | .setlock lock => { w with lock := lock }

end Ipfilter.AuthRules
