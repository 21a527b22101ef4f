import Ipfilter.Spec.Ipv4hdr

/-!
# Packets in packets

`ipf_decaps` (`fil.c`), and the scans of rule lists that it makes part of each other: `ipf_scanlist` goes into the group of a
rule, `ipf_decaps` scans the group for what the packet carries. Here a scan is a stack of lists that are being gone through;
rules may form any graph, and which rules match is up to their checks.
-/

namespace Ipfilter.Decaps

open Masks Tcp Makefrip

def IPPROTO_IP : ℕ := 0
def IPPROTO_IPIP : ℕ := 4

/-! ## The packet inside -/

/-- The packet from `k` bytes on. -/
def Buf.drop (b : Buf) (k : ℕ) : Buf where
  byte i := b.byte (k + i)
  pull i := b.pull (k + i)
  little := b.little
  frCksum p dp dlen := b.frCksum p (k + dp) dlen

/-- The sum of `n` 16-bit words from `i` on. -/
def wordSum (b : Buf) : ℕ → ℕ → Word
  | 0, _ => 0
  | n + 1, i => (b.raw16 i).zeroExtend 32 + wordSum b n (i + 2)

/-- `ipf_cksum` of the first `len` bytes, an even number. -/
def ipfCksum (b : Buf) (len : ℕ) : BitVec 16 :=
  let sum := wordSum b (len / 2) 0
  let sum := (sum >>> 16) + (sum &&& 0xffff)
  let sum := sum + (sum >>> 16)
  (~~~sum).truncate 16

/-- One of the first bits of a GRE header, as the compiler has them in the first byte. -/
def greBit (b : Buf) (dp i : ℕ) : Bool := (b.byte dp).getLsbD (if b.little then i else 7 - i)

/-- `hlen` behind a GRE header, with `none` for one that has routing. -/
def greHlen (b : Buf) (dp hlen : ℕ) : Option ℕ :=
  if greBit b dp 1 || greBit b dp 4 then none
  else some (hlen + 8 + (if greBit b dp 0 then 4 else 0) + (if greBit b dp 2 then 4 else 0) + if greBit b dp 3 then 4 else 0)

/-- `elen` and `nh`: the bytes before the packet inside, and its protocol; `frIcode` is that of `fin_fr`. -/
def carries (b : Buf) (fin : FrInfo) (frIcode : ℕ) : Option (ℕ × ℕ) :=
  if fin.finP = IPPROTO_UDP then some (fin.finHlen, frIcode)
  else if fin.finP = IPPROTO_GRE then (greHlen b fin.finDp fin.finHlen).map fun elen => (elen, IPPROTO_IP)
  else if fin.finP = IPPROTO_IPIP then some (fin.finHlen, IPPROTO_IP)
  else none

/-- The length of a header by its version, which has to be 4 or 6. -/
def ipHlen (b : Buf) : Option ℕ :=
  let v := (b.byte 0).toNat >>> 4
  if v = 4 then some (((b.byte 0).toNat % 16) <<< 2) else if v = 6 then some 40 else none

/-- `ipf_makefrip`, by `fin_v`. -/
def ipfMakefrip (b : Buf) (v minmtu hlen : ℕ) (fin : FrInfo) : Option FrInfo :=
  if v = 4 then ipfMakefrip4 b minmtu hlen fin else ipfMakefrip6 b ((b.be16 4).toNat / 8 + 2) hlen fin

/-- The checks of `ipf_decaps` between those of the outer packet and `ipf_makefrip`. -/
def innerOk (b : Buf) (plen : ℤ) (hlen : ℕ) : Bool :=
  ¬plen < hlen ∧ ((b.byte 0).toNat >>> 4 = 4 → ipfCksum b hlen = 0)

/-- `ipf_decaps` up to the scan: `elen`, the packet inside, and what `ipf_makefrip` makes of it. -/
def ipfDecaps (b : Buf) (v minmtu : ℕ) (fin : FrInfo) (frIcode : ℕ) : Option (ℕ × Buf × FrInfo) := do
  if ipfCoalesce fin = false then none
  let (elen, nh) ← carries b fin frIcode
  if nh ≠ IPPROTO_IP ∧ nh ≠ IPPROTO_IPV6 then none
  let inner := Buf.drop b elen
  let hlen ← ipHlen inner
  let fin := { fin with finPlen := fin.finPlen - elen }
  if innerOk inner fin.finPlen hlen = false then none
  let fin ← ipfMakefrip inner v minmtu hlen fin
  if fin.finM = false then none
  return (elen, inner, fin)

/-! ## Scans inside each other -/

/-- The rules: pointers to them are in `R`. `fgStart` is `fr_grphead` and its list, `finds` the rule that the function of a
rule returns for a packet, `grpmap` the group that it scans before, and `hit` says that the checks of a rule pass. -/
structure Rules (R : Type) where
  frNext : R → Option R
  fgStart : R → Option (Option R)
  isDecaps : R → Bool
  frIcode : R → ℕ
  hit : R → Buf → FrInfo → Bool
  finds : R → Buf → FrInfo → Option R
  grpmap : R → Buf → FrInfo → Option (Option R)

/-- A call of `ipf_scanlist` that has a list to go through: the rule it is at, `fnext`, and whether it has been in the group of
the rule. -/
structure Frame (R : Type) where
  fr : R
  fnext : Option R
  seen : Bool
deriving DecidableEq

/-- A packet that is being scanned: the bytes that were stripped to get at it, and the calls of `ipf_scanlist` for it, the
innermost first. -/
structure Packet (R : Type) where
  stripped : ℕ
  b : Buf
  fin : FrInfo
  frames : List (Frame R)

/-- What is under way, the innermost packet first. -/
abbrev Scan (R : Type) := List (Packet R)

/-- What a scan may do next. -/
inductive Act (R : Type)
  /-- the loop goes on with the next rule -/
  | next
  /-- a function has found another rule -/
  | found
  /-- the group of the rule is scanned -/
  | group
  /-- the group that its function finds is scanned -/
  | map
  /-- the group of the rule is scanned for the packet inside -/
  | decaps
  /-- the call returns -/
  | ret

variable {R : Type}

/-- The loop at a rule. -/
def Rules.at (g : Rules R) (fr : R) : Frame R := ⟨fr, g.frNext fr, false⟩

/-- `ipf_scanlist` for the packet, with a list that is not empty, unless there are 16 calls already. -/
def Packet.call (g : Rules R) (p : Packet R) (fr : R) : Option (Packet R) :=
  if p.fin.finDepth ≥ 16 then none
  else some { p with fin := { p.fin with finDepth := p.fin.finDepth + 1 }, frames := g.at fr :: p.frames }

/-- The results of the packet inside go to the one that it came in. -/
def Packet.copyBack (p q : Packet R) : Packet R :=
  { p with fin := { p.fin with
      finFlx := q.fin.finFlx
      finRule := q.fin.finRule
      finGroup := q.fin.finGroup
      finM := q.fin.finM } }

/-- The innermost call returns. -/
def ret (p : Packet R) (frs : List (Frame R)) (ps : Scan R) : Scan R :=
  let p := { p with fin := { p.fin with finDepth := p.fin.finDepth - 1 }, frames := frs }
  match frs, ps with
  | [], q :: qs => q.copyBack p :: qs
  | _, _ => p :: ps

/-- The packet inside, at its call of `ipf_scanlist` for the group. -/
def decaps (g : Rules R) (v minmtu : ℕ) (p : Packet R) (fr fgStart : R) : Option (Packet R) := do
  if (g.hit fr p.b p.fin && g.isDecaps fr) = false then none
  let (elen, b, fin) ← ipfDecaps p.b v minmtu p.fin (g.frIcode fgStart)
  Packet.call g ⟨elen, b, fin, []⟩ fgStart

/-- One step; calls that are refused, or have an empty list, return at once and are none. -/
def step (g : Rules R) (v minmtu : ℕ) : Scan R → Act R → Option (Scan R)
  | [], _ => none
  | p :: ps, a =>
    match p.frames, a with
    | [], _ => none
    | fr :: frs, .next => fr.fnext.map fun r => { p with frames := g.at r :: frs } :: ps
    | fr :: frs, .found => (g.finds fr.fr p.b p.fin).map fun f => { p with frames := { fr with fr := f } :: frs } :: ps
    | fr :: frs, .group =>
      match g.fgStart fr.fr with
      | some (some r) =>
        if g.hit fr.fr p.b p.fin && !g.isDecaps fr.fr && !fr.seen then
          (Packet.call g { p with frames := { fr with seen := true } :: frs } r).map (· :: ps)
        else none
      | _ => none
    | fr :: _, .map =>
      match g.grpmap fr.fr p.b p.fin with
      | some (some r) => if g.hit fr.fr p.b p.fin then (p.call g r).map (· :: ps) else none
      | _ => none
    | fr :: frs, .decaps =>
      match g.fgStart fr.fr with
      | some (some r) =>
        if fr.seen then none
        else (decaps g v minmtu p fr.fr r).map (· :: { p with frames := { fr with seen := true } :: frs } :: ps)
      | _ => none
    | _ :: frs, .ret => some (ret p frs ps)

/-- A packet before its scan, with the rules that it is scanned with. -/
def start (g : Rules R) (b : Buf) (fin : FrInfo) (fr : R) : Scan R :=
  [⟨0, b, { fin with finDepth := 1 }, [g.at fr]⟩]

/-- A run from `s₀`, with steps that meet `C`. -/
inductive Run (g : Rules R) (v minmtu : ℕ) (C : Scan R → Act R → Prop) (s₀ : Scan R) : Scan R → Prop
  | start : Run g v minmtu C s₀ s₀
  | step {s s' : Scan R} {a : Act R} : Run g v minmtu C s₀ s → C s a → step g v minmtu s a = some s' →
      Run g v minmtu C s₀ s'

end Ipfilter.Decaps
