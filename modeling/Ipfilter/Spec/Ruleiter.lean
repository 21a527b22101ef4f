import Ipfilter.Spec.Rulegroups

/-!
# Iterating over rules and groups

`ipf_getnextrule` hands out the next rule for `SIOCIPFITER`, `ipf_group_iter` the next group for `SIOCGENITER`. The place is
kept in a token (`ipt_data`), which holds a reference to the rule or group. When the token is freed `ipf_token_deref` drops
that reference.

What the two copy in comes checked, but for the checks they make themselves; what they copy out is the rule or group, or one
filled with zeroes.
-/

namespace Ipfilter.Ruleiter

open Chain Rulegroups

/-! ## Tokens -/

def IPFGENITER_IPF : ℕ := 0
def IPFGENITER_NAT : ℕ := 1
def IPFGENITER_IPNAT : ℕ := 2
def IPFGENITER_FRAG : ℕ := 3
def IPFGENITER_STATE : ℕ := 5
def IPFGENITER_NATFRAG : ℕ := 6
def IPFGENITER_HOSTMAP : ℕ := 7
def IPFGENITER_LOOKUP : ℕ := 8
def IPFGENITER_GROUP : ℕ := 9

/-- The part of `ipftoken_t` that an iteration uses. -/
structure Ipftoken where
  iptType : ℕ
  iptData : Option Addr
  iptComplete : ℕ

/-- A token that was just made. -/
def Ipftoken.init (type : ℕ) : Ipftoken := ⟨type, none, 0⟩

/-- `ipf_token_mark_complete` -/
def ipfTokenMarkComplete (t : Ipftoken) : Ipftoken := if t.iptComplete = 0 then { t with iptComplete := 1 } else t

/-- `ilik_ival`, the first byte of the key in memory. -/
def ilikIval (littleEndian : Bool) (type : ℕ) : ℕ := if littleEndian then type % 2 ^ 8 else type / 2 ^ 24 % 2 ^ 8

/-- `ipf_lookup_iterderef`; `backends` is what the lookup code does. -/
def ipfLookupIterderef (littleEndian : Bool) (backends : ℕ → Addr → Softc → Option Softc) (s : Softc) (type : ℕ)
    (data : Addr) :
    Option Softc :=
  if ilikIval littleEndian type ≠ IPFGENITER_LOOKUP then some s else backends type data s

/-- `ipf_token_deref` for the last reference; `others` is what the other tables do with their data. -/
def ipfTokenDeref (passes : ℕ) (littleEndian : Bool) (others backends : ℕ → Addr → Softc → Option Softc) (s : Softc)
    (t : Ipftoken) : Option Softc :=
  match t.iptData with
  | none => some s
  | some data =>
    if t.iptType = IPFGENITER_IPF then (ipfDerefrule passes s data).map Prod.fst
    else if t.iptType ∈ [IPFGENITER_IPNAT, IPFGENITER_NAT, IPFGENITER_STATE, IPFGENITER_FRAG, IPFGENITER_NATFRAG,
        IPFGENITER_HOSTMAP] then others t.iptType data s
    else ipfLookupIterderef littleEndian backends s t.iptType data

def ENOSPC : ℕ := 28

/-- What an ioctl ends with: an error with its number for `IPFERROR`, or what is copied out. -/
inductive Reply where
  | error (ipferror errno : ℕ)
  | copy (obj : Option Addr)
  deriving DecidableEq, Repr

/-- Calls with one token, with what they end with: `ipf_token_find` does not return a token that is complete. -/
def calls (call : Softc → Ipftoken → Option (Softc × Ipftoken × Reply)) : ℕ → Softc → Ipftoken →
    Option (Softc × Ipftoken × List Reply)
  | 0, s, t => some (s, t, [])
  | n + 1, s, t =>
    if t.iptComplete > 0 then some (s, t, [])
    else do
      let (s, t, r) ← call s t
      let (s, t, l) ← calls call n s t
      return (s, t, r :: l)

section

variable (passes : ℕ)

/-! ## Rules -/

/-- The rule is of the direction. -/
def dir (s : Softc) (out : Bool) (fr : Addr) : Bool := has (s.fr fr).frFlags (if out then FR_OUTQUE else FR_INQUE)

/-- The loop of `ipf_nextrule` over the groups. -/
def nextruleLoop (s : Softc) (out : Bool) : ℕ → Option Addr → Option (Option Addr)
  | _, none => some none
  | 0, some _ => none
  | i + 1, some fg => do
    match ← walk s.mem.next (dir s out) passes (s.mem.head (.group fg)) with
    | some next => return some next
    | none => nextruleLoop s out i (s.gmem.next fg)

/-- `ipf_nextrule` -/
def ipfNextrule (s : Softc) (active : Bool) (unit : ℕ) (fr : Option Addr) (out : Bool) : Option (Option Addr) := do
  let fg ← match fr.bind fun a => (s.fr a).frGroup with
    | some name => do
      match ← ipfFindgroup passes s name unit active with
      | some fg => pure (s.gmem.next fg)
      | none => pure none
    | none => pure (s.gmem.head (unit, active))
  nextruleLoop passes s out passes fg

/-- `ipfruleiter_t`; `iriRule` is whether the pointer is set. -/
structure Ipfruleiter where
  iriInout : ℤ
  iriGroup : List Char
  iriActive : ℤ
  iriNrules : ℕ
  iriRule : Bool

/-- The checks of `ipf_getnextrule`. -/
def Ipfruleiter.check (it : Ipfruleiter) : Option Reply :=
  if it.iriInout < 0 ∨ it.iriInout > 3 then some (.error 85 EINVAL)
  else if it.iriActive ≠ 0 ∧ it.iriActive ≠ 1 then some (.error 86 EINVAL)
  else if it.iriNrules = 0 then some (.error 87 ENOSPC)
  else if it.iriRule = false then some (.error 88 EFAULT)
  else none

/-- `(it.iri_inout & F_OUT) != 0` -/
def Ipfruleiter.out (it : Ipfruleiter) : Bool := it.iriInout % 2 = 1

/-- `(it.iri_inout & F_ACIN) != 0` -/
def Ipfruleiter.acct (it : Ipfruleiter) : Bool := it.iriInout / 2 % 2 = 1

def Ipfruleiter.unit (it : Ipfruleiter) : ℕ := if it.acct then IPL_LOGCOUNT else IPL_LOGIPF

def Ipfruleiter.active (it : Ipfruleiter) : Bool := it.iriActive = 1

/-- The list to begin with. -/
def Ipfruleiter.head (it : Ipfruleiter) : Head := if it.acct then .acct it.out it.active else .rules it.out it.active

/-- The rule that comes next in `ipf_getnextrule`. -/
def findNext (s : Softc) (it : Ipfruleiter) (fr : Option Addr) : Option (Option Addr) :=
  match fr with
  | none =>
    if it.iriGroup = [] then
      match s.mem.head it.head with
      | some next => some (some next)
      | none => ipfNextrule passes s it.active it.unit none it.out
    else do
      match ← ipfFindgroup passes s it.iriGroup it.unit it.active with
      | some fg => return s.mem.head (.group fg)
      | none => return none
  | some fr =>
    match s.mem.next fr with
    | some next => some (some next)
    | none => ipfNextrule passes s it.active it.unit (some fr) it.out

/-- `predict`: another rule comes after this one. -/
def predict (s : Softc) (it : Ipfruleiter) (next : Option Addr) : Option Bool :=
  match next.bind s.mem.next with
  | some _ => some true
  | none => (ipfNextrule passes s it.active it.unit next it.out).map Option.isSome

/-- `if (fr != NULL) (void) ipf_derefrule(softc, &fr)` -/
def ruleDrop (s : Softc) : Option Addr → Option Softc
  | none => some s
  | some fr => (ipfDerefrule passes s fr).map Prod.fst

/-- `ipf_getnextrule` -/
def ipfGetnextrule (s : Softc) (t : Ipftoken) (it : Ipfruleiter) : Option (Softc × Ipftoken × Reply) :=
  match it.check with
  | some err => some (s, t, err)
  | none => do
    let next ← findNext passes s it t.iptData
    let more ← predict passes s it next
    let s ← ruleDrop passes s t.iptData
    let s := match next with
      | some next => s.updFr next fun f => { f with frRef := f.frRef + 1 }
      | none => s
    let t := { t with iptData := next }
    return (s, if more then t else ipfTokenMarkComplete t, .copy next)

/-! ## Groups -/

/-- `ipfgeniter_t` and the `frgroupiter_t` it points to; `igiData` is whether the pointer is set. -/
structure Groupiter where
  igiData : Bool
  igiNitems : ℕ
  giUnit : ℤ
  giSet : ℤ

/-- The checks of `ipf_group_iter`. -/
def Groupiter.check (it : Groupiter) : Option Reply :=
  if it.igiData = false then some (.error 146 EFAULT)
  else if it.igiNitems ≠ 1 then some (.error 147 EFAULT)
  else if it.giUnit < 0 ∨ it.giUnit > IPL_LOGMAX then some (.error 149 EINVAL)
  else if it.giSet < 0 ∨ it.giSet > 1 then some (.error 150 EINVAL)
  else none

/-- The list of groups. -/
def Groupiter.head (it : Groupiter) : ℕ × Bool := (it.giUnit.toNat, it.giSet = 1)

/-- `if ((grp != NULL) && (next != &zero)) ipf_group_del(grp, NULL)` -/
def iterDrop (s : Softc) (grp next : Option Addr) : Option Softc :=
  match grp, next with
  | some grp, some _ => ipfGroupDel passes s grp none
  | _, _ => some s

/-- `ipf_group_iter`. A group filled with zeroes has no next one either. -/
def ipfGroupIter (s : Softc) (t : Ipftoken) (it : Groupiter) : Option (Softc × Ipftoken × Reply) :=
  match it.check with
  | some err => some (s, t, err)
  | none => do
    let grp := t.iptData
    let next := match grp with
      | none => s.gmem.head it.head
      | some grp => s.gmem.next grp
    let s := match next with
      | some next => s.updFg next fun fg => { fg with fgRef := fg.fgRef + 1 }
      | none => s
    let t := { t with iptData := next }
    let t := if next.bind s.gmem.next = none then ipfTokenMarkComplete t else t
    let s ← iterDrop passes s grp next
    return (s, t, .copy next)

end

end Ipfilter.Ruleiter
