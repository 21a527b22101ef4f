import Ipfilter.Spec.Flags

/-!
# Scanning rule lists

`ipf_scanlist` of `fil.c` with the functions that come back to it: `ipf_decaps` and the
group maps `ipf_srcgrpmap` and `ipf_dstgrpmap`. What it asks the rest of the system for is
a parameter: the packet checks of one rule, the hash tables of the group maps, and which
of its calls of `ipf_log_pkt` and `ipf_state_add` succeed.

A pointer to a rule is the rule with what hangs off it, `fr_next` and the list of
`fr_grphead`. Reason codes, byte counts and interface statistics are left out.
-/

namespace Ipfilter.Scan

/-- A matching rule with these flags gives the verdict. -/
def settles (x : Flags) : Bool := x &&& FR_LOGMASK ≠ FR_LOG ∧ x &&& FR_LOGMASK ≠ FR_DECAPSULATE

/-- `fr_type`, without the builtin bit that changes nothing here. -/
inductive FrType where
  | none
  | ipf
  | bpfopc
  | callfunc
  | ipfexpr
  deriving DecidableEq, Repr

/-- `fr_func`: no function (NULL or -1), or one of `ipf_availfuncs`. -/
inductive FrFunc where
  | none
  | srcgrpmap
  | dstgrpmap
  deriving DecidableEq, Repr

/-- The fields of `frentry_t` that a scan reads; `id` tells rules with equal fields apart. -/
structure Fr where
  id : ℕ
  frFlags : Flags
  frType : FrType
  frFamily : ℕ
  frIfa : Option ℕ
  frNattag : ℕ
  frIcode : ℕ
  frGroup : Option (List Char)
  frFunc : FrFunc
  frPtr : ℕ
  deriving DecidableEq, Repr

/-- A rule pointer: NULL, a rule and its `fr_next`, or a rule that heads a group and both
`fr_grphead->fg_start` and `fr_next`. -/
inductive Rules where
  | null
  | rule (fr : Fr) (frNext : Rules)
  | head (fr : Fr) (fgStart : Rules) (frNext : Rules)
  deriving DecidableEq, Repr

/-- The rule a pointer points to. -/
def Rules.fr? : Rules → Option Fr
  | .null => none
  | .rule fr _ => some fr
  | .head fr _ _ => some fr

/-- `fr->fr_grphead`, as the list it starts. -/
def Rules.grphead? : Rules → Option Rules
  | .null => none
  | .rule _ _ => none
  | .head _ fg _ => some fg

/-- The fields of `fr_info_t` that describe the packet; `body` is its headers and data. -/
structure Pkt (B : Type) where
  finOut : ℕ
  finIfp : ℕ
  finFamily : ℕ
  finNattag : Option ℕ
  body : B

/-- The fields of `fr_info_t` that a scan works with. `hits` is the rules in the order in
which their `fr_hits` went up, `adds` and `logs` count the calls of `ipf_state_add` and
`ipf_log_pkt`. -/
structure Fin (B : Type) where
  pkt : Pkt B
  finFlx : Flags
  finFr : Rules
  finDepth : ℕ
  finRule : ℕ
  finGroup : List Char
  finIcode : ℕ
  hits : List Fr
  adds : ℕ
  logs : ℕ

/-- The rest of the system. The checks of one rule see the packet and `fin_flx`; `callfunc` is
the rule that the compiled function of a rule finds (it is given `&pass` and leaves it
alone); `grpmap` is the group that the hash table of a rule has for the packet's source or
destination; `ipfDecaps` is the inner packet with the `fin_flx` that `ipf_makefrip` leaves, if
there is one and it parses, with the `fr_icode` of `fin_fr` for the protocol inside UDP. The `n`-th `ipf_log_pkt`
and the `n`-th `ipf_state_add` succeed as `ipfLogPkt` and the first part of `ipfStateAdd`
say; `ipf_state_add` also sets `FI_BAD` when it meets bad TCP options. -/
structure Env (B : Type) where
  ipfCheckIpf : Pkt B → Flags → Fr → Bool
  bpfFilter : Pkt B → Fr → Bool
  ipfFrMatcharray : Pkt B → Fr → Bool
  ipfMatchtag : Fr → ℕ → Bool
  callfunc : Fr → Pkt B → Flags → Rules
  grpmap : Fr → Pkt B → Option Rules
  ipfDecaps : Pkt B → Flags → Option ℕ → Option (Pkt B × Flags)
  ipfLogPkt : ℕ → Bool
  ipfStateAdd : ℕ → Bool × Bool

variable {B : Type}

/-- The calls of `ipf_scanlist` inside a scan: for the packet itself, and for the packet that it carries. -/
structure Calls (B : Type) where
  same : Fin B → Flags → Fin B × Flags
  inner : Fin B → Flags → Fin B × Flags

/-! ## One rule -/

/-- The check that goes with the type of a rule; a function is no check. -/
def typeMatch (E : Env B) (p : Pkt B) (flx : Flags) (fr : Fr) : Bool :=
  match fr.frType with
  | .ipf => !E.ipfCheckIpf p flx fr
  | .bpfopc => p.finFamily = fr.frFamily && E.bpfFilter p fr
  | .ipfexpr => p.finFamily = fr.frFamily && E.ipfFrMatcharray p fr
  | .callfunc => true
  | .none => true

/-- The interface check. -/
def ifMatch (p : Pkt B) (fr : Fr) : Bool := fr.frIfa.all (· = p.finIfp)

/-- The NAT tag check. -/
def tagMatch (E : Env B) (p : Pkt B) (fr : Fr) : Bool :=
  if p.finOut = 0 ∧ fr.frNattag ≠ 0 then p.finNattag.any (E.ipfMatchtag fr) else true

/-- `strncpy(dst, src, strlen(src))`: no NUL is written, so the end of a longer old name stays. -/
def overwrite (dst src : List Char) : List Char := src ++ dst.drop src.length

/-- What a matching rule writes to `fin_group`. -/
def setGroup (g : List Char) : Option (List Char) → List Char
  | some name => overwrite g name
  | none => '\x00' :: g.drop 1

/-- `fin->fin_fr = fr` -/
def Fin.setFr (fin : Fin B) (fr : Rules) : Fin B := { fin with finFr := fr }

/-- `fr->fr_hits++` -/
def Fin.count (fin : Fin B) (d : Fr) : Fin B := { fin with hits := fin.hits ++ [d] }

/-- What a match leaves in the packet information. -/
def Fin.mark (fin : Fin B) (rulen : ℕ) (d : Fr) (passt : Flags) : Fin B :=
  { fin with
    finRule := rulen
    finIcode := if has passt (FR_RETICMP ||| FR_FAKEICMP) then d.frIcode else fin.finIcode
    finGroup := setGroup fin.finGroup d.frGroup }

/-- What is put back when no rule of a group matched. -/
def Fin.unmatched (fin : Fin B) (rulen : ℕ) (fr : Rules) (d : Fr) : Fin B :=
  { fin with
    finRule := rulen
    finGroup := match d.frGroup with
      | some name => overwrite fin.finGroup name
      | none => fin.finGroup
    finFr := fr }

/-- A call of `ipf_state_add`. -/
def ipfStateAdd (E : Env B) (fin : Fin B) : Fin B × Bool :=
  let r := E.ipfStateAdd fin.adds
  let flx := if r.2 then fin.finFlx ||| FI_BAD else fin.finFlx
  ({ fin with adds := fin.adds + 1, finFlx := if r.1 then flx ||| FI_STATE else flx }, r.1)

/-- `ipf_log_pkt` for a log rule; a failed one turns a rule with `or-block` into a quick block. -/
def logRule (E : Env B) (fin : Fin B) (passt : Flags) : Fin B × Flags :=
  if isLog passt then
    ({ fin with logs := fin.logs + 1 },
      if !E.ipfLogPkt fin.logs && has passt FR_LOGORBLOCK then
        passt &&& ~~~FR_CMDMASK ||| (FR_BLOCK ||| FR_QUICK)
      else passt)
  else (fin, passt)

/-- What `ipf_makefrip` sets for the inner packet: `fin_depth` starts anew. -/
def Fin.inside (fin : Fin B) (p : Pkt B) (flx : Flags) : Fin B :=
  { fin with
    pkt := p
    finFlx := flx
    finDepth := 0
    finRule := 0xffffffff
    finGroup := '\xff' :: '\x00' :: fin.finGroup.drop 2 }

/-- `ipf_decaps`. Of the copy that the inner packet is scanned with, the results are copied back, the name of the
group up to its NUL. -/
def ipfDecaps (E : Env B) (scan : Calls B) (fin : Fin B) (pass : Flags) : Fin B × Flags :=
  match E.ipfDecaps fin.pkt fin.finFlx (fin.finFr.fr?.map Fr.frIcode) with
  | none => (fin, pass &&& ~~~FR_CMDMASK ||| (FR_BLOCK ||| FR_QUICK))
  | some (p, flx) =>
    let r := scan.inner (fin.inside p flx) pass
    ({ r.1 with
      pkt := fin.pkt
      finDepth := fin.finDepth
      finGroup := r.1.finGroup.takeWhile (· ≠ '\x00') }, r.2)

/-- `ipf_srcgrpmap` and `ipf_dstgrpmap`; the verdict of the scan is dropped. -/
def grpmap (E : Env B) (scan : Calls B) (fin : Fin B) (fr : Fr) (pass : Flags) :
    Fin B × Rules :=
  match E.grpmap fr fin.pkt with
  | none => (fin, .null)
  | some fgStart =>
    let r := scan.same (fin.setFr fgStart) pass
    (r.1, r.1.finFr)

/-- The scan of the group of a rule, for the packet or for what it carries. -/
def scanFg (E : Env B) (scan : Calls B) (passt : Flags) (fin : Fin B) (pass : Flags) :
    Fin B × Flags :=
  if isDecaps passt then ipfDecaps E scan fin pass else scan.same fin pass

/-- The part of the loop's body for a rule that may head a group. -/
def scanGroup (E : Env B) (scan : Calls B) (rulen : ℕ) (fr : Rules) (d : Fr)
    (passt : Flags) (fin : Fin B) (pass : Flags) : Fin B × Flags :=
  match fr.grphead? with
  | none => (fin, pass)
  | some fgStart =>
    let r := scanFg E scan passt (fin.setFr fgStart) pass
    if r.1.finFr = .null then (r.1.unmatched rulen fr d, pass) else r

/-- The end of the loop's body: whether the scan stops here. A quick rule that keeps state
and gets none does not stop it, and gives back the verdict it found. -/
def scanQuick (E : Env B) (fr : Rules) (passo : Flags) (fin : Fin B) (pass : Flags) : Fin B × Flags × Bool :=
  if has pass FR_QUICK then
    if has pass FR_KEEPSTATE && !isAuth pass && !has fin.finFlx FI_STATE then
      let r := ipfStateAdd E (fin.setFr fr)
      if r.2 then (r.1, pass, true) else (r.1, passo, false)
    else (fin, pass, true)
  else (fin, pass, false)

/-- The body of the loop once the rule is known to match, with `passt` for its flags. -/
def scanHit (E : Env B) (scan : Calls B) (rulen : ℕ) (fr : Rules) (d : Fr)
    (passt : Flags) (fin : Fin B) (pass : Flags) : Fin B × Flags × Bool :=
  let l := logRule E (fin.setFr fr) passt
  let g := scanGroup E scan rulen fr d l.2 ((l.1.count d).mark rulen d l.2) (if settles l.2 then l.2 else pass)
  scanQuick E fr pass g.1 g.2

/-- The body of the loop for a rule that passed its checks: a "call now" rule is replaced by
the rule its function comes back with. -/
def scanRule (E : Env B) (scan : Calls B) (rulen : ℕ) (fr : Rules) (d : Fr)
    (fin : Fin B) (pass : Flags) : Fin B × Flags × Bool :=
  if has d.frFlags FR_CALLNOW then
    if d.frFunc = .none then (fin.count d, pass, false)
    else
      let r := grpmap E scan ((fin.count d).setFr fr) d d.frFlags
      match r.2.fr? with
      | none => (r.1.setFr fin.finFr, pass, false)
      | some f => scanHit E scan rulen r.2 f f.frFlags r.1 pass
  else scanHit E scan rulen fr d d.frFlags fin pass

/-- The body of the loop. -/
def scanBody (E : Env B) (scan : Calls B) (rulen : ℕ) (fr : Rules) (d : Fr)
    (fin : Fin B) (pass : Flags) : Fin B × Flags × Bool :=
  if !ifMatch fin.pkt d then (fin, pass, false)
  else if d.frType = .callfunc then
    let fr := E.callfunc d fin.pkt fin.finFlx
    match fr.fr? with
    | none => (fin, pass, false)
    | some f => if tagMatch E fin.pkt f then scanRule E scan rulen fr f fin pass else (fin, pass, false)
  else if typeMatch E fin.pkt fin.finFlx d && tagMatch E fin.pkt d then scanRule E scan rulen fr d fin pass
  else (fin, pass, false)

/-! ## A list -/

/-- The loop of `ipf_scanlist`. -/
def scanLoop (E : Env B) (scan : Calls B) : Rules → ℕ → Fin B → Flags → Fin B × Flags
  | .null, _, fin, pass => (fin, pass)
  | .rule fr frNext, rulen, fin, pass =>
    let r := scanBody E scan rulen (.rule fr frNext) fr fin pass
    if r.2.2 then (r.1, r.2.1) else scanLoop E scan frNext (rulen + 1) r.1 r.2.1
  | .head fr fgStart frNext, rulen, fin, pass =>
    let r := scanBody E scan rulen (.head fr fgStart frNext) fr fin pass
    if r.2.2 then (r.1, r.2.1) else scanLoop E scan frNext (rulen + 1) r.1 r.2.1

/-- `fin->fin_depth++; fin->fin_fr = NULL` -/
def Fin.enter (fin : Fin B) : Fin B := { fin with finDepth := fin.finDepth + 1, finFr := .null }

/-- `fin->fin_depth--` -/
def Fin.leave (fin : Fin B) : Fin B := { fin with finDepth := fin.finDepth - 1 }

/-- `ipf_scanlist` with `scan` for its calls of itself. -/
def scanlist (E : Env B) (scan : Calls B) (fin : Fin B) (pass : Flags) : Fin B × Flags :=
  if 16 ≤ fin.finDepth then (fin, pass)
  else if fin.finFr = .null then (fin, pass)
  else
    let r := scanLoop E scan fin.finFr 0 fin.enter pass
    (r.1.leave, r.2)

/-- `ipf_scanlist` with room for `n` calls of itself inside each other for the packet. -/
def scanlistN (E : Env B) (inner : Fin B → Flags → Fin B × Flags) : ℕ → Fin B → Flags → Fin B × Flags
  | 0 => fun fin pass => (fin, pass)
  | n + 1 => scanlist E ⟨scanlistN E inner n, inner⟩

/-- `ipf_scanlist`, for packets inside each other up to `layers` of them: 16 levels are all that `fin_depth` allows for each. -/
def ipfScanlist (E : Env B) : ℕ → Fin B → Flags → Fin B × Flags
  | 0 => fun fin pass => scanlistN E (fun fin pass => (fin, pass)) (16 - fin.finDepth) fin pass
  | layers + 1 => fun fin pass => scanlistN E (ipfScanlist E layers) (16 - fin.finDepth) fin pass

/-! ## What a scan is for -/

/-- A rule passes the checks. -/
def frMatches (E : Env B) (p : Pkt B) (flx : Flags) (fr : Fr) : Bool :=
  ifMatch p fr && (typeMatch E p flx fr && tagMatch E p fr)

/-- The flags of the last rule, or `pass` when there is none. -/
def verdict (pass : Flags) (l : List Fr) : Flags := (l.getLast?.map Fr.frFlags).getD pass

/-- **The matching rules that are reached**, in the order "rule, then the list of its group".
A list ends after the first matching rule whose verdict is quick: that of the rules its
group reaches, or its own when there are none. -/
def reached (m : Fr → Bool) : Rules → List Fr
  | .null => []
  | .rule fr frNext =>
    if m fr then
      if has fr.frFlags FR_QUICK then [fr] else fr :: reached m frNext
    else reached m frNext
  | .head fr fgStart frNext =>
    if m fr then
      let l := fr :: reached m fgStart
      if has (verdict fr.frFlags l) FR_QUICK then l else l ++ reached m frNext
    else reached m frNext

/-- How many groups are entered inside each other, if the rules that match are those of `m`. -/
def nest (m : Fr → Bool) : Rules → ℕ
  | .null => 0
  | .rule _ frNext => nest m frNext
  | .head fr fgStart frNext =>
    max (if m fr ∧ fgStart ≠ .null then nest m fgStart + 1 else 0) (nest m frNext)

/-- How many groups are entered inside each other from the rules that are reached. -/
def depth (m : Fr → Bool) : Rules → ℕ
  | .null => 0
  | .rule fr frNext => if m fr ∧ has fr.frFlags FR_QUICK then 0 else depth m frNext
  | .head fr fgStart frNext =>
    if m fr then
      let d := if fgStart = .null then 0 else depth m fgStart + 1
      if has (verdict fr.frFlags (reached m fgStart)) FR_QUICK then d else max d (depth m frNext)
    else depth m frNext

/-- All rules of a tree. -/
def Rules.All (P : Fr → Prop) : Rules → Prop
  | .null => True
  | .rule fr frNext => P fr ∧ frNext.All P
  | .head fr fgStart frNext => P fr ∧ fgStart.All P ∧ frNext.All P

/-- A pass, block or count rule without a function. -/
def Plain (fr : Fr) : Prop :=
  (fr.frFlags &&& FR_CMDMASK = FR_PASS ∨ fr.frFlags &&& FR_CMDMASK = FR_BLOCK ∨
    fr.frFlags &&& FR_CMDMASK = FR_ACCOUNT) ∧
  has fr.frFlags FR_CALLNOW = false ∧ fr.frType ≠ .callfunc

/-- The result of a scan and `fin_fr` say the same: nothing matched and `pass` came back, or
`fin_fr` is a rule that matches and its flags came back. -/
def Agrees (E : Env B) (fin : Fin B) (pass : Flags) (r : Fin B × Flags) : Prop :=
  r.1.finFr = .null ∧ r.2 = pass ∨
    ∃ d, r.1.finFr.fr? = some d ∧ frMatches E fin.pkt fin.finFlx d = true ∧ r.2 = d.frFlags

end Ipfilter.Scan
