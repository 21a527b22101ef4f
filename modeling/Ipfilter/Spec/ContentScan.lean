import Mathlib.Algebra.Ring.Int.Defs
import Mathlib.Algebra.Ring.Nat

/-!
# Content scanning

`ip_scan.c` keeps the first 16 bytes of each direction of a TCP connection in its state entry and compares them with a pattern.
This file has `ipf_scan_matchstr`, `ipf_scan_matchisc`, `ipf_scan_match` and `ipf_scan_packet`, and the runs of a connection
whose bytes come in order. Direction `false` is the client, array index 0. The pattern that `isc` points to at the end of
`ipf_scan_match` is returned too; its number is not, no caller uses it. Counters of `ipf_scan_stat` are left out.
-/

namespace Ipfilter.ContentScan

abbrev Byte := BitVec 8

def ISC_TLEN : ℕ := 16

/-- `sinfo_t`: a text and how each byte of it is compared. -/
structure Sinfo where
  sTxt : ℕ → Byte
  sMsk : ℕ → Byte
  sLen : ℕ
  le : sLen ≤ ISC_TLEN

/-- `ISC_A_NONE`, `ISC_A_TRACK`, `ISC_A_CLOSE` and `ISC_A_REDIRECT`. -/
inductive Action where
  | none
  | track
  | close
  | redirect
  deriving DecidableEq, Repr

/-- `ipscan_t` -/
structure Ipscan where
  ipscSi : Bool → Sinfo
  ipscAction : Action
  ipscElse : Action

def Ipscan.clen (isc : Ipscan) : ℕ := (isc.ipscSi false).sLen

def Ipscan.slen (isc : Ipscan) : ℕ := (isc.ipscSi true).sLen

/-- What a state entry has for scanning. `search` are `IS_SC_CLIENT` and `IS_SC_SERVER`, `matched` are `IS_SC_MATCHC` and
`IS_SC_MATCHS`, `tdEnd` is `is_tcp.ts_data[..].td_end`. -/
structure Ipstate where
  isIsc : Option Ipscan
  search : Bool → Bool
  matched : Bool → Bool
  isS0 : Bool → BitVec 32
  isSmsk : Bool → ℕ
  isSbuf : Bool → ℕ → Byte
  tdEnd : Bool → BitVec 32
  isPass : BitVec 32

def FR_RETRST : BitVec 32 := 0x01000

def FR_RETICMP : BitVec 32 := 0x02000

/-- `a[i] = x` for an array of two. -/
def set2 {α : Type} (a : Bool → α) (i : Bool) (x : α) : Bool → α := fun j => if j = i then x else a j

/-! ### Comparing -/

/-- `ISALPHA` -/
def isalpha (c : Byte) : Bool := (0x41#8 ≤ c && c ≤ 0x5a#8) || (0x61#8 ≤ c && c ≤ 0x7a#8)

/-- The `switch` of `ipf_scan_matchstr`: `.` wants the byte itself, `?` a letter of any case, the rest takes anything. -/
def unlike (s t up : Byte) : Bool :=
  if t = 0x2e#8 then s != up
  else if t = 0x3f#8 then !isalpha up || s &&& 0x5f#8 != up &&& 0x5f#8
  else false

/-- The `for` of `ipf_scan_matchstr`, `i` bytes from position `p` on. -/
def matchstrLoop (sp : Sinfo) (str : ℕ → Byte) : ℕ → ℕ → Bool
  | 0, _ => false
  | i + 1, p => if unlike (sp.sTxt p) (sp.sMsk p) (str p) then true else matchstrLoop sp str i (p + 1)

/-- `ipf_scan_matchstr` returns 1, which is `true` here, when the strings differ. -/
def ipfScanMatchstr (sp : Sinfo) (str : ℕ → Byte) (n : ℕ) : Bool := matchstrLoop sp str (min n sp.sLen) 0

/-- One half of `ipf_scan_matchisc`, for a side of which `seen` bytes are there: its bit of `ret`, and its number, `j` or `k`.
No more than `upto` bytes are compared. -/
def matchSide (sp : Sinfo) (str : ℕ → Byte) (searching : Bool) (seen upto : ℕ) (maxm : Option (ℕ × ℕ)) (j : ℕ) :
    Bool × ℕ :=
  if sp.sLen = 0 then (true, j)
  else if searching ∧ seen ≠ 0 ∧ sp.sLen ≠ 0 then
    let n := min upto sp.sLen
    if 0 < n ∧ (∀ m ∈ maxm, m.2 ≤ n) ∧
      ipfScanMatchstr sp str n = false then (true, if j < n then n else j) else (false, j)
  else (false, j)

/-- The bits of `ret` for client and server, and `maxm`. -/
def ipfScanMatchisc (isc : Ipscan) (is : Ipstate) (cl sl : ℕ) (maxm : Option (ℕ × ℕ)) :
    (Bool × Bool) × Option (ℕ × ℕ) :=
  if ∃ m ∈ maxm, isc.clen < m.1 ∨ isc.slen < m.2 then ((false, false), maxm)
  else
    let (j, k) := maxm.getD (0, 0)
    let c := matchSide (isc.ipscSi false) (is.isSbuf false) (is.search false && !is.matched false) cl cl maxm j
    -- `n = MIN(cl, isc->ipsc_slen)`: the length of the other side
    let s := matchSide (isc.ipscSi true) (is.isSbuf true) (is.search true && !is.matched true) sl cl maxm k
    ((c.1, s.1), if c.1 ∧ s.1 then maxm.map fun _ => (c.2, s.2) else maxm)

/-! ### `ipf_scan_match` -/

/-- `for (cl = 0, n = is_smsk; n & 1; n >>= 1) cl++` -/
def ones (n : ℕ) : ℕ := if n % 2 = 1 then ones (n / 2) + 1 else 0
  decreasing_by omega

def Ipstate.cl (is : Ipstate) : ℕ := ones (is.isSmsk false)

def Ipstate.sl (is : Ipstate) : ℕ := ones (is.isSmsk true)

/-- What one side of a known pattern is about: `hit` is its bit of what `ipf_scan_matchisc` returns. -/
def settle (is : Ipstate) (rv hit : Bool) (seen len : ℕ) : Ipstate :=
  if hit then { is with matched := set2 is.matched rv true, search := set2 is.search rv false }
  else if len ≤ seen then { is with search := set2 is.search rv false }
  else is

/-- "Known object to scan for." -/
def scanKnown (isc : Ipscan) (is : Ipstate) : Ipstate :=
  let i := (ipfScanMatchisc isc is is.cl is.sl none).1
  settle (settle is false i.1 is.cl isc.clen) true i.2 is.sl isc.slen

/-- `j`, `k`, `lm` and `maxm` of the search through all patterns. -/
structure Best where
  j : Bool × Bool
  k : ℕ
  lm : Option Ipscan
  maxm : ℕ × ℕ

/-- The body of the `for`. -/
def Best.offer (is : Ipstate) (b : Best) (isc : Ipscan) : Best :=
  let r := ipfScanMatchisc isc is is.cl is.sl (some b.maxm)
  let maxm := r.2.getD b.maxm
  if r.1 = (false, false) ∨ b.j = (true, true) ∧ r.1 ≠ (true, true) then { b with maxm := maxm }
  else ⟨r.1, if r.1 = (true, true) ∧ b.j ≠ (true, true) then 1 else b.k + 1, some isc, maxm⟩

def best (list : List Ipscan) (is : Ipstate) : Best := list.foldl (Best.offer is) ⟨(false, false), 0, none, (0, 0)⟩

/-- The search through `ipf_scan_list`: the pattern that is left and the entry, or nothing when `isc` ends as `NULL`. -/
def scanList (list : List Ipscan) (is : Ipstate) : Option (Ipscan × Ipstate) :=
  let b := best list is
  if b.k = 1 then
    b.lm.map fun isc =>
      let is := if b.j.1 then is else { is with search := set2 is.search false false }
      let is := if b.j.2 then is else { is with search := set2 is.search true false }
      (isc, if b.j = (true, true) ∧ b.k = 1 then { is with search := fun _ => false, matched := fun _ => true } else is)
  else none

/-- The end of `ipf_scan_match`. `IS_SC_MATCHALL` is `IS_SC_MATCHC|IS_SC_MATCHC`, only the client's flag. -/
def scanDone (isc : Ipscan) (is : Ipstate) : Ipstate :=
  -- the acknowledged side has moved past the data
  let is := { is with search := fun rv => is.search rv && !(is.isS0 rv + 15 < is.tdEnd rv) }
  let j :=
    if is.matched false then isc.ipscAction
    else if is.isIsc.isSome ∧ is.search false = false ∧ is.search true = false then isc.ipscElse
    else .none
  if j = .close then { is with isPass := is.isPass &&& ~~~FR_RETICMP ||| FR_RETRST } else is

def ipfScanMatch (list : List Ipscan) (is : Ipstate) : Option Ipscan × Ipstate :=
  match is.isIsc with
  | some isc => (some isc, scanDone isc (scanKnown isc is))
  | none =>
    match scanList list is with
    | none => (none, is)
    | some (isc, is) => (some isc, scanDone isc is)

/-! ### `ipf_scan_packet` -/

/-- `COPYDATA` of the first `n` bytes to `off` in a buffer. -/
def copydata (buf : ℕ → Byte) (off n : ℕ) (data : List Byte) : ℕ → Byte :=
  fun i => if off ≤ i ∧ i < off + n then data.getD (i - off) 0 else buf i

/-- The first part of `ipf_scan_packet`: the bytes go to the entry, unless nothing of the packet is of interest. `data` is what
follows the TCP header. -/
def collect (rv : Bool) (seq : BitVec 32) (data : List Byte) (is : Ipstate) : Option Ipstate :=
  if is.isS0 rv = 0 then none
  else
    let off := (seq - is.isS0 rv).toInt
    if 15 < off ∨ off < 0 then none
    else if data.length = 0 then none
    else
      let off := off.toNat
      let dlen := if 16 < data.length then 16 else data.length
      let dlen := if 16 < off + dlen then 16 - off else dlen
      let i := (65535 &&& 65535 >>> (16 - dlen)) <<< off
      some { is with
        isSbuf := set2 is.isSbuf rv (copydata (is.isSbuf rv) off dlen data)
        isSmsk := set2 is.isSmsk rv (is.isSmsk rv ||| i) }

/-- `ipf_scan_packet`, with the pattern that `isc` points to at the end of `ipf_scan_match`. -/
def ipfScanPacket (list : List Ipscan) (rv : Bool) (seq : BitVec 32) (data : List Byte) (is : Ipstate) :
    Option Ipscan × Ipstate :=
  match collect rv seq data is with
  | none => (none, is)
  | some is => if ones (is.isSmsk rv) = 0 then (none, is) else ipfScanMatch list is

/-! ### Connections -/

/-- An entry as `ipf_scan_attachis` leaves it when its rule names a pattern, else one without a pattern: no byte was seen. -/
structure Fresh (is : Ipstate) : Prop where
  smsk : ∀ rv, is.isSmsk rv = 0
  known : ∀ isc ∈ is.isIsc, ∀ rv, is.search rv = decide ((isc.ipscSi rv).sLen ≠ 0) ∧
    is.matched rv = decide ((isc.ipscSi rv).sLen = 0)
  unknown : is.isIsc = none → ∀ rv, is.matched rv = false

/-- `n` bytes of a stream from `start` on. -/
def cut (stream : ℕ → Byte) (start n : ℕ) : List Byte := (List.range n).map fun i => stream (start + i)

/-- A segment of `n` bytes that follows the `sent` bytes that were sent already, and what `td_end` is when it is looked at. -/
structure Segment where
  rv : Bool
  n : ℕ
  tdEnd : Bool → BitVec 32

/-- The segment comes: its bytes are copied. -/
def Segment.arrive (g : Segment) (streams : Bool → ℕ → Byte) (sent : Bool → ℕ) (is : Ipstate) : Option Ipstate :=
  let is := { is with tdEnd := g.tdEnd }
  collect g.rv (is.isS0 g.rv + BitVec.ofNat 32 (sent g.rv)) (cut (streams g.rv) (sent g.rv) g.n) is

/-- The segment goes through `ipf_scan_packet`. -/
def Segment.scan (g : Segment) (list : List Ipscan) (streams : Bool → ℕ → Byte) (sent : Bool → ℕ) (is : Ipstate) :
    Option Ipscan × Ipstate :=
  let is := { is with tdEnd := g.tdEnd }
  ipfScanPacket list g.rv (is.isS0 g.rv + BitVec.ofNat 32 (sent g.rv)) (cut (streams g.rv) (sent g.rv) g.n) is

/-- **A connection:** its streams come in segments, each direction in order, interleaved in any way. `C` holds of the entry
whenever bytes were copied to it. `selected` is the pattern for which both flags were set first. The first bytes are those whose
number is positive as an `int`. -/
inductive Run (list : List Ipscan) (streams : Bool → ℕ → Byte) (C : Ipstate → Prop) (is₀ : Ipstate) :
    Ipstate → (Bool → ℕ) → Option Ipscan → Prop
  | start : Run list streams C is₀ is₀ (fun _ => 0) none
  | segment {is : Ipstate} {sent : Bool → ℕ} {selected : Option Ipscan} (g : Segment) :
      Run list streams C is₀ is sent selected → sent g.rv + g.n < 2 ^ 31 →
      (∀ is' ∈ g.arrive streams sent is, C is') →
      Run list streams C is₀ (g.scan list streams sent is).2 (set2 sent g.rv (sent g.rv + g.n))
        (selected <|> if (g.scan list streams sent is).2.matched false && (g.scan list streams sent is).2.matched true
          then (g.scan list streams sent is).1 else none)

/-! ### What it is for -/

/-- The byte is what a pattern has at one place. -/
def Like (s t up : Byte) : Prop :=
  (t = 0x2e#8 → up = s) ∧ (t = 0x3f#8 → isalpha up = true ∧ up &&& 0x5f#8 = s &&& 0x5f#8)

/-- The first bytes are those of the pattern under its mask. -/
def Sinfo.Fits (sp : Sinfo) (str : ℕ → Byte) : Prop := ∀ p < sp.sLen, Like (sp.sTxt p) (sp.sMsk p) (str p)

/-- The pattern that the flags of an entry are about. -/
def Ipstate.about (is₀ : Ipstate) (selected : Option Ipscan) : Option Ipscan := is₀.isIsc <|> selected

/-- **A flag is set only for a side whose bytes were all seen, and are those of the pattern.** -/
def Marks (list : List Ipscan) (streams : Bool → ℕ → Byte) (C : Ipstate → Prop) (is₀ : Ipstate) : Prop :=
  ∀ {is : Ipstate} {sent : Bool → ℕ} {selected : Option Ipscan}, Run list streams C is₀ is sent selected →
    ∀ rv, is.matched rv = true → ∃ isc, is₀.about selected = some isc ∧ (isc.ipscSi rv).sLen ≤ sent rv ∧
      (isc.ipscSi rv).Fits (streams rv)

/-- **The same pattern is selected** however the streams are cut, once 16 bytes of both were seen. -/
def Agrees (list : List Ipscan) (streams : Bool → ℕ → Byte) (C : Ipstate → Prop) (is₀ : Ipstate) : Prop :=
  ∀ {is is' : Ipstate} {sent sent' : Bool → ℕ} {selected selected' : Option Ipscan},
    Run list streams C is₀ is sent selected → Run list streams C is₀ is' sent' selected' →
    (∀ rv, 16 ≤ sent rv) → (∀ rv, 16 ≤ sent' rv) → selected = selected'

/-! ### When it is right -/

/-- How many bytes of a side there are. -/
def Ipstate.seen (is : Ipstate) (rv : Bool) : ℕ := ones (is.isSmsk rv)

/-- The bytes of a side that are compared, as many as came from the client, are those the pattern begins with. -/
def Ipstate.Opens (is : Ipstate) (sp : Sinfo) (rv : Bool) : Prop :=
  0 < is.seen rv ∧ 0 < is.cl ∧ ipfScanMatchstr sp (is.isSbuf rv) is.cl = false

/-- The whole pattern is there. -/
def Ipstate.Whole (is : Ipstate) (sp : Sinfo) (rv : Bool) : Prop :=
  sp.sLen ≤ is.seen rv ∧ ipfScanMatchstr sp (is.isSbuf rv) sp.sLen = false

/-- A side speaks for a pattern, when no other pattern was better: it has none, or it is searched for and opens with it. -/
def Ipstate.Speaks (is : Ipstate) (isc : Ipscan) (rv : Bool) : Prop :=
  (isc.ipscSi rv).sLen = 0 ∨ is.search rv = true ∧ is.matched rv = false ∧ is.Opens (isc.ipscSi rv) rv

/-- All 16 bytes of both sides that are looked at. -/
def full (streams : Bool → ℕ → Byte) (is : Ipstate) : Ipstate :=
  { is with
    isSmsk := fun rv => if is.isS0 rv = 0 then 0 else 65535
    isSbuf := fun rv => if is.isS0 rv = 0 then is.isSbuf rv else streams rv }

/-- **The branches that go wrong are not taken.** With a known pattern, the bytes of a side that is searched for are taken for
the pattern exactly when all of it is there, and `td_end` is past the first bytes only when as many are there. Without one, a
side that speaks for a pattern has all bytes of it, and so many came from the client; and as soon as one side speaks for one
pattern, each side speaks for just those it speaks for with all bytes. -/
def Careful (list : List Ipscan) (streams : Bool → ℕ → Byte) (is : Ipstate) : Prop :=
  match is.isIsc with
  | some isc => ∀ rv, is.search rv = true →
      (is.Opens (isc.ipscSi rv) rv ↔ is.Whole (isc.ipscSi rv) rv) ∧
      (is.isS0 rv + 15 < is.tdEnd rv → (isc.ipscSi rv).sLen ≤ is.seen rv)
  | none => (is.matched false && is.matched true) = false →
      (∀ isc ∈ list, ∀ rv, is.Speaks isc rv → (isc.ipscSi rv).sLen ≤ is.seen rv ∧
        (isc.ipscSi rv).sLen ≤ is.cl) ∧
      ((∃ isc ∈ list, ∃ rv, is.Speaks isc rv) →
        ∀ isc ∈ list, ∀ rv, is.Speaks isc rv ↔ (full streams is).Speaks isc rv)

end Ipfilter.ContentScan
