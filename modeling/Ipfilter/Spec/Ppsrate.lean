import Mathlib.Algebra.Ring.Nat
import Mathlib.Data.Int.Notation

/-!
# Packets per second

`ppsratecheck` (`fil.c`), which `ipf_firewall` calls with `fr_lastpkt`, `fr_curpps` and `fr_pps` of the rule for a packet.
-/

namespace Ipfilter.Ppsrate

/-- `struct timeval` -/
structure Timeval where
  tvSec : ℤ
  tvUsec : ℤ

/-- `fr_lastpkt` and `fr_curpps` -/
structure Rate where
  lasttime : Timeval
  curpps : ℤ

/-- `delta` -/
def Timeval.delta (tv lasttime : Timeval) : Timeval :=
  let delta : Timeval := ⟨tv.tvSec - lasttime.tvSec, tv.tvUsec - lasttime.tvUsec⟩
  if delta.tvUsec < 0 then ⟨delta.tvSec - 1, delta.tvUsec + 1000000⟩ else delta

/-- `ppsratecheck` of a packet that comes at `tv`. The counter is an `int`. -/
def ppsratecheck (maxpps : ℤ) (s : Rate) (tv : Timeval) : Rate × Bool :=
  let (s, rv) : Rate × Bool :=
    if (s.lasttime.tvSec = 0 ∧ s.lasttime.tvUsec = 0) ∨ 1 ≤ (tv.delta s.lasttime).tvSec then (⟨tv, 0⟩, true)
    else if maxpps < 0 then (s, true)
    else if s.curpps < maxpps then (s, true)
    else (s, false)
  ({ s with curpps := Int.bmod (s.curpps + 1) (2 ^ 32) }, rv)

/-- A rule that was loaded. -/
def Rate.init : Rate := ⟨⟨0, 0⟩, 0⟩

/-- The rule when packets have come at these times. -/
def after (maxpps : ℤ) (l : List Timeval) : Rate := l.foldl (fun s tv => (ppsratecheck maxpps s tv).1) .init

/-- How many more of them are let through. -/
def passed (maxpps : ℤ) : Rate → List Timeval → ℕ
  | _, [] => 0
  | s, tv :: l => (if (ppsratecheck maxpps s tv).2 then 1 else 0) + passed maxpps (ppsratecheck maxpps s tv).1 l

end Ipfilter.Ppsrate
