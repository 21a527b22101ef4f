import Ipfilter.Chain.Mem
import Ipfilter.Spec.Flags

/-!
# Rules and their groups

The rule lists of `fil.c` with the groups: `ipf_rules`, `ipf_acct` and the list `fg_start` of each group, and for each
device and set the list `ipf_groups` of groups. A rule may be in a group (`fr_grp`) and may be the head of one
(`fr_grphead`, `fr_icmpgrp`), and holds a reference to each.

Rules and groups are named by their address; `rule` and `group` say what is allocated. `none` is a step into memory that was
freed, or a loop that needs more passes than it was given. What a rule matches, its lookup objects, its trees of sources and
locks are left out.
-/

namespace Ipfilter.Rulegroups

open Chain

abbrev Addr := ℕ

def IPL_LOGIPF : ℕ := 0
def IPL_LOGCOUNT : ℕ := 7
def IPL_LOGMAX : ℕ := 7
def FR_GROUPLEN : ℕ := 16

/-- The heads of rule lists, by direction (`true` is out) and set. -/
inductive Head where
  | rules (out set : Bool)
  | acct (out set : Bool)
  | group (fg : Addr)
  deriving DecidableEq, Repr

/-- The part of `frentry_t` that has to do with lists; `frBuiltin` is `fr_type & FR_T_BUILTIN`, `frGroup` the name at
`fr_names + fr_group`, unless `fr_group` is -1. -/
structure Frentry where
  frFlags : Flags
  frBuiltin : Bool
  frRef : ℤ
  frGroup : Option (List Char)
  frGrp : Option Addr
  frGrphead : Option Addr
  frIcmpgrp : Option Addr

/-- `frgroup_t`, without its links; `fgSet` is the device and the set of the list it is on. -/
structure Frgroup where
  fgName : List Char
  fgFlags : Flags
  fgRef : ℤ
  fgHead : Option Addr
  fgSet : ℕ × Bool

/-- The rules and groups of `ipf_main_softc_t`. Of the links of the groups only the forward ones are there. -/
structure Softc where
  mem : Mem Head Addr
  fr : Addr → Frentry
  rule : Addr → Bool
  gmem : Mem (ℕ × Bool) Addr
  fg : Addr → Frgroup
  group : Addr → Bool
  active : Bool

/-- Change the fields of a rule. -/
def Softc.updFr (s : Softc) (a : Addr) (f : Frentry → Frentry) : Softc := { s with fr := Function.update s.fr a (f (s.fr a)) }

/-- Change the fields of a group. -/
def Softc.updFg (s : Softc) (g : Addr) (f : Frgroup → Frgroup) : Softc := { s with fg := Function.update s.fg g (f (s.fg g)) }

/-- Walk along a list, up to the first node that satisfies `p`. -/
def walk (next : Addr → Option Addr) (p : Addr → Bool) : ℕ → Option Addr → Option (Option Addr)
  | _, none => some none
  | 0, some _ => none
  | i + 1, some a => if p a then some (some a) else walk next p i (next a)

section

variable (passes : ℕ)

/-- `strncmp(group, fg->fg_name, FR_GROUPLEN) == 0` -/
def sameName (name name' : List Char) : Bool := name.take FR_GROUPLEN = name'.take FR_GROUPLEN

/-- `ipf_findgroup` -/
def ipfFindgroup (s : Softc) (name : List Char) (unit : ℕ) (set : Bool) : Option (Option Addr) :=
  walk s.gmem.next (fun g => sameName name (s.fg g).fgName) passes (s.gmem.head (unit, set))

/-- The loop of `ipf_group_free`. -/
def groupFreeLoop (m : Mem (ℕ × Bool) Addr) (group : Addr) : ℕ → Link (ℕ × Bool) Addr →
    Option (Mem (ℕ × Bool) Addr)
  | 0, _ => none
  | i + 1, gp =>
    match m.get gp with
    | none => some m
    | some g => if g = group then some (m.set gp (m.next group)) else groupFreeLoop m group i (.next g)

/-- `ipf_group_free` -/
def ipfGroupFree (s : Softc) (group : Addr) : Option Softc := do
  let gmem ← groupFreeLoop s.gmem group passes (.head (s.fg group).fgSet)
  return { s with gmem := gmem, group := Function.update s.group group false }

/-- `ipf_group_del`; `fr` is NULL for an iterator. -/
def ipfGroupDel (s : Softc) (group : Addr) (fr : Option Addr) : Option Softc :=
  if s.group group = false then none
  else
    let s := s.updFg group fun fg => { fg with
      fgHead := if fg.fgHead = fr then none else fg.fgHead
      fgRef := fg.fgRef - 1 }
    if (s.fg group).fgRef = 0 ∧ s.mem.head (.group group) = none then ipfGroupFree passes s group else some s

/-- `if (group != NULL) ipf_group_del(group, fr)` -/
def groupDrop (s : Softc) (group : Option Addr) (fr : Addr) : Option Softc :=
  match group with
  | none => some s
  | some g => ipfGroupDel passes s g (some fr)

/-- `ipf_derefrule`: 0 if the rule was freed, 1 if it would have been but is not from user space, else -1. -/
def ipfDerefrule (s : Softc) (fr : Addr) : Option (Softc × ℤ) :=
  if s.rule fr = false then none
  else
    let s := s.updFr fr fun f => { f with frRef := f.frRef - 1 }
    let f := s.fr fr
    if f.frRef = 0 then do
      let s ← groupDrop passes s f.frGrp fr
      let s ← groupDrop passes s f.frGrphead fr
      let s ← groupDrop passes s f.frIcmpgrp fr
      if has f.frFlags FR_COPIED then return ({ s with rule := Function.update s.rule fr false }, 0) else return (s, 1)
    else some (s, -1)

end

end Ipfilter.Rulegroups
