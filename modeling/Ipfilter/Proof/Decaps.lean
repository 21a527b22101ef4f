import Ipfilter.Proof.Ipoptions
import Ipfilter.Proof.Ipv6hdr
import Ipfilter.Spec.Decaps

/-!
# How deep scans go

* `makefrip_header` — the packet inside is as long as its own header has it, and its scan starts at depth 0;
* `Counted` — `fin_depth` counts the calls for one packet, of which there are 16 at most; `step_counted`, `Run.counted`;
* `step_fits`, `step_deep`, `Run.deep` — which packets fit after a step, and that each call has room for the groups of its
  list;
* `scan_bounded` — **no more than 16 calls are inside each other, and no packet inside another is longer than what is left of
  it,** as long as decapsulations find room for the groups of their rule, and headers inside that fit; in any case there are
  16 calls at most for each packet; `scan_bounded_deep` — 17 calls, the last for a packet of 20 bytes with 1000 in its header.
-/

namespace Ipfilter.Decaps

open Masks Tcp Makefrip List

variable {R : Type} {g : Rules R} {v minmtu : ℕ} {s s' s₀ : Scan R} {a : Act R}

/-! ## The packet inside -/

/-- The length of a packet, as its header has it. -/
def claimed (b : Buf) (v hlen : ℕ) : ℤ := if v = 4 then (b.be16 2).toNat else (b.be16 4).toNat + hlen

/-- **`ipf_makefrip`** believes the header, and starts the depth anew. -/
theorem makefrip_header {b : Buf} {hlen : ℕ} {f r : FrInfo} (h : ipfMakefrip b v minmtu hlen f = some r) :
    r.finPlen = claimed b v hlen ∧ r.finDepth = 0 := by
  unfold ipfMakefrip at h
  unfold claimed
  split at h
  · rename_i hv
    rw [if_pos hv]
    exact makefrip4_header h
  · rename_i hv
    rw [if_neg hv]
    exact makefrip6_header h

/-- What `ipf_decaps` finds. -/
theorem ipfDecaps_some {b inner : Buf} {fin r : FrInfo} {frIcode elen : ℕ}
    (h : ipfDecaps b v minmtu fin frIcode = some (elen, inner, r)) :
    ∃ nh hlen, carries b fin frIcode = some (elen, nh) ∧ inner = Buf.drop b elen ∧ ipHlen inner = some hlen ∧
      r.finPlen = claimed inner v hlen ∧ r.finDepth = 0 := by
  unfold ipfDecaps at h
  split at h
  · cases h
  obtain ⟨⟨elen', nh⟩, hcarries, h⟩ := Option.bind_eq_some_iff.1 h
  dsimp only at h
  split at h
  · cases h
  obtain ⟨hlen, hhlen, h⟩ := Option.bind_eq_some_iff.1 h
  split at h
  · cases h
  obtain ⟨r', hr, h⟩ := Option.bind_eq_some_iff.1 h
  split at h
  · cases h
  cases h
  obtain ⟨hplen, hdepth⟩ := makefrip_header hr
  exact ⟨nh, hlen, hcarries, rfl, hhlen, hplen, hdepth⟩

/-! ## Calls -/

/-- What matters of a packet here: what was stripped, `fin_depth`, `fin_plen`, and the number of calls of `ipf_scanlist`. -/
structure Shape where
  stripped : ℕ
  depth : ℕ
  plen : ℤ
  calls : ℕ

def Packet.shape (p : Packet R) : Shape := ⟨p.stripped, p.fin.finDepth, p.fin.finPlen, p.frames.length⟩

def shapes (s : Scan R) : List Shape := s.map Packet.shape

/-- The calls that are inside each other. -/
def nesting (ds : List Shape) : ℕ := (ds.map Shape.calls).sum

/-- One call more. -/
def Shape.call (d : Shape) : Shape := { d with depth := d.depth + 1, calls := d.calls + 1 }

/-- The packet inside, if the group of a rule is scanned for one, is no longer by its own header than what is left. -/
def InnerFits (g : Rules R) (v : ℕ) (p : Packet R) : Prop :=
  ∀ fr frs r elen nh hlen, p.frames = fr :: frs → g.fgStart fr.fr = some (some r) →
    carries p.b p.fin (g.frIcode r) = some (elen, nh) → ipHlen (Buf.drop p.b elen) = some hlen →
      claimed (Buf.drop p.b elen) v hlen ≤ p.fin.finPlen - elen

theorem call_shape {p p' : Packet R} {fr : R} (h : p.call g fr = some p') :
    p.fin.finDepth < 16 ∧ p'.shape = p.shape.call := by
  unfold Packet.call at h
  split at h
  · cases h
  · rename_i hlt
    cases h
    exact ⟨Nat.lt_of_not_le hlt, rfl⟩

theorem call_frames {p p' : Packet R} {fr : R} (h : p.call g fr = some p') :
    p'.b = p.b ∧ p'.frames = g.at fr :: p.frames := by
  unfold Packet.call at h
  split at h
  · cases h
  · cases h
    exact ⟨rfl, rfl⟩

/-- **The packet inside**, at its first call. -/
theorem decaps_shape {p q : Packet R} {fr : Frame R} {frs : List (Frame R)} {r : R} (hframes : p.frames = fr :: frs)
    (hgroup : g.fgStart fr.fr = some (some r)) (h : decaps g v minmtu p fr.fr r = some q) :
    q.fin.finDepth = 1 ∧ q.frames.length = 1 ∧ (InnerFits g v p ↔ q.fin.finPlen ≤ p.fin.finPlen - q.stripped) := by
  unfold decaps at h
  split at h
  · cases h
  obtain ⟨⟨elen, inner, fin⟩, hinner, h⟩ := Option.bind_eq_some_iff.1 h
  obtain ⟨nh, hlen, hcarries, hdrop, hhlen, hplen, hdepth⟩ := ipfDecaps_some hinner
  have hcall : Packet.call g ⟨elen, inner, fin, []⟩ r = some q := h
  obtain ⟨-, hshape⟩ := call_shape hcall
  have hstripped : q.stripped = elen := congrArg Shape.stripped hshape
  have hqplen : q.fin.finPlen = fin.finPlen := congrArg Shape.plen hshape
  refine ⟨?_, congrArg Shape.calls hshape, ?_⟩
  · rw [show q.fin.finDepth = fin.finDepth + 1 from congrArg Shape.depth hshape, hdepth]
  rw [hqplen, hstripped, hplen, hdrop]
  constructor
  · intro hfits
    exact hfits fr frs r elen nh hlen hframes hgroup hcarries (hdrop ▸ hhlen)
  · intro hle fr' frs' r' elen' nh' hlen' hframes' hgroup' hcarries' hhlen'
    rw [hframes] at hframes'
    cases hframes'
    rw [hgroup] at hgroup'
    cases hgroup'
    rw [hcarries] at hcarries'
    cases hcarries'
    rw [hdrop, hhlen'] at hhlen
    cases hhlen
    exact hle

theorem decaps_frames {p q : Packet R} {fr r : R} (h : decaps g v minmtu p fr r = some q) :
    ∃ elen nh, carries p.b p.fin (g.frIcode r) = some (elen, nh) ∧ q.b = Buf.drop p.b elen ∧ q.frames = [g.at r] := by
  unfold decaps at h
  split at h
  · cases h
  obtain ⟨⟨elen, inner, fin⟩, hinner, h⟩ := Option.bind_eq_some_iff.1 h
  obtain ⟨nh, hlen, hcarries, rfl, -⟩ := ipfDecaps_some hinner
  obtain ⟨hb, hfs⟩ := call_frames (show Packet.call g ⟨elen, _, fin, []⟩ r = some q from h)
  exact ⟨elen, nh, hcarries, hb, hfs⟩

/-- What a step does to the calls. -/
inductive Does (g : Rules R) (v : ℕ) : Scan R → Act R → List Shape → Prop
  /-- another rule of the same list -/
  | stay {s : Scan R} {a : Act R} : a = .next ∨ a = .found → Does g v s a (shapes s)
  /-- a call for the same packet -/
  | call {p : Packet R} {ps : Scan R} {a : Act R} : a = .group ∨ a = .map → p.fin.finDepth < 16 →
      Does g v (p :: ps) a (p.shape.call :: shapes ps)
  /-- a call for the packet inside -/
  | inside {p : Packet R} {ps : Scan R} {elen : ℕ} {plen : ℤ} :
      (InnerFits g v p ↔ plen ≤ p.fin.finPlen - (elen : ℤ)) →
      Does g v (p :: ps) .decaps (⟨elen, 1, plen, 1⟩ :: shapes (p :: ps))
  /-- a return to a call for the same packet, or from the first one of all -/
  | back {p : Packet R} {ps : Scan R} {calls : ℕ} : p.frames.length = calls + 1 →
      Does g v (p :: ps) .ret (⟨p.stripped, p.fin.finDepth - 1, p.fin.finPlen, calls⟩ :: shapes ps)
  /-- a return to the packet outside -/
  | home {p : Packet R} {ps : Scan R} : Does g v (p :: ps) .ret (shapes ps)

/-- **What a step does.** -/
theorem step_does (h : step g v minmtu s a = some s') : Does g v s a (shapes s') := by
  cases s with
  | nil => cases h
  | cons p ps =>
    cases hframes : p.frames with
    | nil =>
      simp only [step, hframes] at h
      cases h
    | cons fr frs =>
      cases a with
      | next =>
        simp only [step, hframes] at h
        obtain ⟨r, -, rfl⟩ := Option.map_eq_some_iff.1 h
        have hsame : shapes ({ p with frames := g.at r :: frs } :: ps) = shapes (p :: ps) := by
          simp [shapes, Packet.shape, hframes]
        rw [hsame]
        exact .stay (.inl rfl)
      | found =>
        simp only [step, hframes] at h
        obtain ⟨f, -, rfl⟩ := Option.map_eq_some_iff.1 h
        have hsame : shapes ({ p with frames := { fr with fr := f } :: frs } :: ps) = shapes (p :: ps) := by
          simp [shapes, Packet.shape, hframes]
        rw [hsame]
        exact .stay (.inr rfl)
      | group =>
        simp only [step, hframes] at h
        split at h
        · split at h
          · obtain ⟨p', hp', rfl⟩ := Option.map_eq_some_iff.1 h
            obtain ⟨hdepth, hshape⟩ := call_shape hp'
            have hsame : Packet.shape { p with frames := { fr with seen := true } :: frs } = p.shape := by
              simp [Packet.shape, hframes]
            rw [hsame] at hshape
            unfold shapes
            rw [map_cons, hshape]
            exact .call (.inl rfl) hdepth
          · cases h
        · cases h
      | map =>
        simp only [step, hframes] at h
        split at h
        · split at h
          · obtain ⟨p', hp', rfl⟩ := Option.map_eq_some_iff.1 h
            obtain ⟨hdepth, hshape⟩ := call_shape hp'
            unfold shapes
            rw [map_cons, hshape]
            exact .call (.inr rfl) hdepth
          · cases h
        · cases h
      | decaps =>
        simp only [step, hframes] at h
        split at h
        · rename_i r hgroup
          split at h
          · cases h
          · obtain ⟨q, hq, rfl⟩ := Option.map_eq_some_iff.1 h
            obtain ⟨hdepth, hcalls, hfits⟩ := decaps_shape hframes hgroup hq
            have hsame : shapes (q :: { p with frames := { fr with seen := true } :: frs } :: ps) =
                ⟨q.stripped, 1, q.fin.finPlen, 1⟩ :: shapes (p :: ps) := by
              simp [shapes, Packet.shape, hframes, hdepth, hcalls]
            rw [hsame]
            exact .inside hfits
        · cases h
      | ret =>
        simp only [step, hframes] at h
        cases h
        unfold ret
        dsimp only
        split
        · exact .home
        · exact .back (by rw [hframes]; rfl)

/-! ## The calls for one packet -/

/-- `fin_depth` counts the calls for each packet, of which there are 16 at most. -/
def Counted (ds : List Shape) : Prop := ∀ d ∈ ds, d.depth = d.calls ∧ d.calls ≤ 16

theorem Counted.nesting_le {ds : List Shape} (h : Counted ds) : nesting ds ≤ 16 * ds.length := by
  induction ds with
  | nil => exact le_rfl
  | cons d ds ih =>
    have hhead := (h d mem_cons_self).2
    have htail := ih fun e he => h e (mem_cons_of_mem _ he)
    have hsum : nesting (d :: ds) = d.calls + nesting ds := sum_cons
    rw [length_cons]
    omega

/-- **One step keeps the count.** -/
theorem step_counted (hs : Counted (shapes s)) (h : step g v minmtu s a = some s') : Counted (shapes s') := by
  have hdoes := step_does h
  generalize shapes s' = ds at hdoes
  cases hdoes with
  | stay => exact hs
  | @call p ps _ _ hdepth =>
    obtain ⟨hp, hps⟩ := forall_mem_cons.1 hs
    have hp' : p.fin.finDepth = p.frames.length := hp.1
    have hroom : p.frames.length < 16 := by omega
    exact forall_mem_cons.2 ⟨⟨congrArg (· + 1) hp.1, hroom⟩, hps⟩
  | inside => exact forall_mem_cons.2 ⟨⟨rfl, show 1 ≤ 16 by decide⟩, hs⟩
  | @back p ps calls hcalls =>
    obtain ⟨hp, hps⟩ := forall_mem_cons.1 hs
    have hdepth : p.fin.finDepth = p.frames.length := hp.1
    have hle : p.frames.length ≤ 16 := hp.2
    exact forall_mem_cons.2 ⟨⟨by dsimp only; omega, by dsimp only; omega⟩, hps⟩
  | home => exact (forall_mem_cons.1 hs).2

/-- **In every run the calls for a packet are counted.** -/
theorem Run.counted {C : Scan R → Act R → Prop} (h : Run g v minmtu C s₀ s) (h₀ : Counted (shapes s₀)) :
    Counted (shapes s) := by
  induction h with
  | start => exact h₀
  | step _ _ hstep ih => exact step_counted ih hstep

theorem start_counted (g : Rules R) (b : Buf) (fin : FrInfo) (fr : R) : Counted (shapes (start g b fin fr)) :=
  fun _ hd => mem_singleton.1 hd ▸ ⟨rfl, show 1 ≤ 16 by decide⟩

/-! ## All calls -/

/-- A packet is no longer than what is left of the one that it came in. -/
def Shape.Fits (q p : Shape) : Prop := q.plen ≤ p.plen - (q.stripped : ℤ)

/-- **What is promised:** no more than 16 calls, and packets that are no longer than what is left of those they came in. -/
structure Bounded (ds : List Shape) : Prop where
  nested : nesting ds ≤ 16
  fits : ds.IsChain Shape.Fits

/-- What is promised for a list of calls does not depend on the number of calls for the first packet. -/
theorem chain_head {d e : Shape} {ds : List Shape} (hplen : e.plen = d.plen) (hstripped : e.stripped = d.stripped)
    (h : (d :: ds).IsChain Shape.Fits) : (e :: ds).IsChain Shape.Fits := by
  cases ds with
  | nil => exact .singleton e
  | cons f ds =>
    obtain ⟨hrel, htail⟩ := isChain_cons_cons.1 h
    refine isChain_cons_cons.2 ⟨?_, htail⟩
    unfold Shape.Fits
    rw [hplen, hstripped]
    exact hrel

/-- **Which packets fit after a step:** all of them, unless the packet inside that is found is longer than what is left. -/
theorem step_fits (hs : (shapes s).IsChain Shape.Fits) (h : step g v minmtu s a = some s') :
    (shapes s').IsChain Shape.Fits ↔ ∀ p ps, s = p :: ps → a = .decaps → InnerFits g v p := by
  have hdoes := step_does h
  generalize shapes s' = ds at hdoes
  cases hdoes with
  | stay ha =>
    obtain rfl | rfl := ha
    all_goals exact iff_of_true hs (fun _ _ _ => nofun)
  | @call p ps _ ha hdepth =>
    obtain rfl | rfl := ha
    all_goals exact iff_of_true (chain_head (d := p.shape) rfl rfl hs) (fun _ _ _ => nofun)
  | @inside p ps elen plen hfits =>
    constructor
    · rintro hb q qs hq -
      cases hq
      exact hfits.2 (isChain_cons_cons.1 hb).1
    · intro hinner
      exact isChain_cons_cons.2 ⟨hfits.1 (hinner p ps rfl rfl), hs⟩
  | @back p ps calls hcalls => exact iff_of_true (chain_head (d := p.shape) rfl rfl hs) (fun _ _ _ => nofun)
  | @home p ps => exact iff_of_true hs.of_cons (fun _ _ _ => nofun)

/-! ## Groups in groups -/

/-- The rules on the list from `r` on. -/
inductive Lists (g : Rules R) (r : R) : R → Prop
  | head : Lists g r r
  | next {x y : R} : Lists g r x → g.frNext x = some y → Lists g r y

/-- The rules that a call comes to which goes through the list from `r` on, for a packet with the bytes `b`: also those that
functions find. -/
inductive Visits (g : Rules R) (b : Buf) (r : R) : R → Prop
  | list {x : R} : Lists g r x → Visits g b r x
  | found {x f : R} {fin : FrInfo} : Visits g b r x → g.finds x b fin = some f → Visits g b r f

/-- From a call for the list at `r` there may be one for the group at `r'`: the checks of its head can pass, for a packet with
these bytes. -/
def Leads (g : Rules R) (b : Buf) (r r' : R) : Prop :=
  ∃ x fin, Visits g b r x ∧ g.hit x b fin = true ∧
    (g.isDecaps x = false ∧ g.fgStart x = some (some r') ∨ g.grpmap x b fin = some (some r'))

/-- **The groups behind the list at `r` are nested less than `n` deep.** -/
def Shallow (g : Rules R) (b : Buf) : ℕ → R → Prop
  | 0, _ => False
  | n + 1, r => ∀ r', Leads g b r r' → Shallow g b n r'

/-- The packet inside, if the group of a rule is scanned for one: with `n` calls under way the groups that the rules have for
it are nested no deeper than 16 calls allow. -/
def Room (g : Rules R) (n : ℕ) (p : Packet R) : Prop :=
  ∀ fr frs r elen nh, p.frames = fr :: frs → g.fgStart fr.fr = some (some r) →
    carries p.b p.fin (g.frIcode r) = some (elen, nh) → Shallow g (Buf.drop p.b elen) (16 - n) r

/-- **The condition** is one on decapsulations: there is room for the groups of the rule, and the packet inside is no longer,
by its own header, than what is left. -/
def Meets (g : Rules R) (v : ℕ) : Scan R → Act R → Prop
  | p :: ps, .decaps => Room g (nesting (shapes (p :: ps))) p ∧ InnerFits g v p
  | _, _ => True

/-- A call is at a rule of the list at `h`, and goes on in this list. -/
structure Frame.On (g : Rules R) (b : Buf) (h : R) (f : Frame R) : Prop where
  visits : Visits g b h f.fr
  next : ∀ y, f.fnext = some y → Lists g h y

/-- **Each call has room** for the groups of its list; `n` calls are under way outside of these. -/
def Within (g : Rules R) (b : Buf) (n : ℕ) : List (Frame R) → Prop
  | [] => True
  | f :: fs => (∃ h, f.On g b h ∧ Shallow g b (16 - (n + fs.length)) h) ∧ Within g b n fs

/-- So it is in all packets inside others. -/
def Deep (g : Rules R) : Scan R → Prop
  | [] => True
  | p :: ps => (ps = [] ∨ Within g p.b (nesting (shapes ps)) p.frames) ∧ Deep g ps

theorem at_on (g : Rules R) (b : Buf) (r : R) : (g.at r).On g b r :=
  ⟨.list .head, fun _ hy => .next .head hy⟩

theorem Frame.On.next_on {b : Buf} {h r : R} {f : Frame R} (hf : f.On g b h) (hr : f.fnext = some r) : (g.at r).On g b h :=
  ⟨.list (hf.next r hr), fun _ hy => .next (hf.next r hr) hy⟩

theorem Frame.On.found_on {b : Buf} {h x : R} {fin : FrInfo} {f : Frame R} (hf : f.On g b h)
    (hx : g.finds f.fr b fin = some x) : ({ f with fr := x } : Frame R).On g b h :=
  ⟨hf.visits.found hx, hf.next⟩

/-- That a call has been in a group does not matter. -/
theorem Within.seen {b : Buf} {n : ℕ} {f : Frame R} {fs : List (Frame R)} (h : Within g b n (f :: fs)) :
    Within g b n ({ f with seen := true } :: fs) := by
  obtain ⟨⟨x, hon, hsh⟩, hfs⟩ := h
  exact ⟨⟨x, ⟨hon.visits, hon.next⟩, hsh⟩, hfs⟩

/-- A call for a group takes one of those that there is room for. -/
theorem Within.call {b : Buf} {n : ℕ} {f : Frame R} {fs : List (Frame R)} {r : R} (h : Within g b n (f :: fs)) {fin : FrInfo}
    (hhit : g.hit f.fr b fin = true)
    (hr : g.isDecaps f.fr = false ∧ g.fgStart f.fr = some (some r) ∨ g.grpmap f.fr b fin = some (some r)) :
    Within g b n (g.at r :: f :: fs) := by
  refine ⟨⟨r, at_on g b r, ?_⟩, h⟩
  obtain ⟨⟨x, hon, hsh⟩, -⟩ := h
  have hlead : Leads g b x r := ⟨f.fr, fin, hon.visits, hhit, hr⟩
  cases hk : 16 - (n + fs.length) with
  | zero =>
    rw [hk] at hsh
    exact hsh.elim
  | succ k =>
    rw [hk] at hsh
    have hk' : 16 - (n + (f :: fs).length) = k := by
      rw [length_cons]
      omega
    rw [hk']
    exact hsh r hlead

/-- **In a scan in which each call has room there are 16 calls at most.** -/
theorem Deep.nesting_le (hd : Deep g s) (hc : Counted (shapes s)) : nesting (shapes s) ≤ 16 := by
  induction s with
  | nil => exact Nat.zero_le _
  | cons p ps ih =>
    obtain ⟨hp, hps⟩ := forall_mem_cons.1 hc
    have hrest := ih hd.2 hps
    have hsum : nesting (shapes (p :: ps)) = p.frames.length + nesting (shapes ps) := sum_cons
    obtain ⟨rfl | hw, -⟩ := hd
    · have hnil : nesting (shapes ([] : Scan R)) = 0 := rfl
      have hle : p.frames.length ≤ 16 := hp.2
      omega
    · cases hframes : p.frames with
      | nil =>
        rw [hframes, length_nil] at hsum
        omega
      | cons f fs =>
        rw [hframes] at hw hsum
        obtain ⟨⟨h, -, hsh⟩, -⟩ := hw
        have hpos : 16 - (nesting (shapes ps) + fs.length) ≠ 0 := fun h0 => by
          rw [h0] at hsh
          exact hsh
        rw [length_cons] at hsum
        omega

/-- What a step does to the innermost call keeps the room of all. -/
theorem Deep.frame {p : Packet R} {ps : Scan R} (hd : Deep g (p :: ps)) (p' : Packet R) (hb : p'.b = p.b)
    (hw : Within g p.b (nesting (shapes ps)) p.frames → Within g p.b (nesting (shapes ps)) p'.frames) :
      Deep g (p' :: ps) := by
  refine ⟨hd.1.imp id fun h => ?_, hd.2⟩
  rw [hb]
  exact hw h

/-- **One step keeps the room**, if there is room for the groups of a packet inside that is found. -/
theorem step_deep (hd : Deep g s) (hm : Meets g v s a) (h : step g v minmtu s a = some s') : Deep g s' := by
  cases s with
  | nil => cases h
  | cons p ps =>
    cases hframes : p.frames with
    | nil =>
      simp only [step, hframes] at h
      cases h
    | cons fr frs =>
      cases a with
      | next =>
        simp only [step, hframes] at h
        obtain ⟨r, hr, rfl⟩ := Option.map_eq_some_iff.1 h
        refine hd.frame { p with frames := g.at r :: frs } rfl fun hw => ?_
        rw [hframes] at hw
        obtain ⟨⟨x, hon, hsh⟩, hfrs⟩ := hw
        exact ⟨⟨x, hon.next_on hr, hsh⟩, hfrs⟩
      | found =>
        simp only [step, hframes] at h
        obtain ⟨f, hf, rfl⟩ := Option.map_eq_some_iff.1 h
        refine hd.frame { p with frames := { fr with fr := f } :: frs } rfl fun hw => ?_
        rw [hframes] at hw
        obtain ⟨⟨x, hon, hsh⟩, hfrs⟩ := hw
        exact ⟨⟨x, hon.found_on hf, hsh⟩, hfrs⟩
      | group =>
        simp only [step, hframes] at h
        split at h
        · rename_i r hgroup
          split at h
          · rename_i hcond
            obtain ⟨p', hp', rfl⟩ := Option.map_eq_some_iff.1 h
            simp only [Bool.and_eq_true, Bool.not_eq_true'] at hcond
            obtain ⟨hb, hfs⟩ := call_frames hp'
            refine hd.frame p' hb fun hw => ?_
            rw [hframes] at hw
            rw [hfs]
            exact hw.seen.call hcond.1.1 (.inl ⟨hcond.1.2, hgroup⟩)
          · cases h
        · cases h
      | map =>
        simp only [step, hframes] at h
        split at h
        · rename_i r hmap
          split at h
          · rename_i hhit
            obtain ⟨p', hp', rfl⟩ := Option.map_eq_some_iff.1 h
            obtain ⟨hb, hfs⟩ := call_frames hp'
            refine hd.frame p' hb fun hw => ?_
            rw [hfs, hframes]
            rw [hframes] at hw
            exact hw.call hhit (.inr hmap)
          · cases h
        · cases h
      | decaps =>
        simp only [step, hframes] at h
        split at h
        · rename_i r hgroup
          split at h
          · cases h
          · obtain ⟨q, hq, rfl⟩ := Option.map_eq_some_iff.1 h
            obtain ⟨elen, nh, hcarries, hb, hfs⟩ := decaps_frames hq
            have hroom := hm.1 fr frs r elen nh hframes hgroup hcarries
            have hsame : nesting (shapes ({ p with frames := { fr with seen := true } :: frs } :: ps)) =
                nesting (shapes (p :: ps)) := by
              simp [nesting, shapes, Packet.shape, hframes]
            refine ⟨.inr ?_, hd.frame { p with frames := { fr with seen := true } :: frs } rfl fun hw => ?_⟩
            · rw [hfs, hb, hsame]
              exact ⟨⟨r, at_on g _ r, hroom⟩, trivial⟩
            · rw [hframes] at hw
              exact hw.seen
        · cases h
      | ret =>
        simp only [step, hframes] at h
        cases h
        unfold ret
        dsimp only
        split
        · -- the packet outside is as it was, but for what is copied back
          rename_i q qs
          exact ⟨hd.2.1, hd.2.2⟩
        · refine hd.frame { p with fin := _, frames := frs } rfl fun hw => ?_
          rw [hframes] at hw
          exact hw.2

theorem start_fits (g : Rules R) (b : Buf) (fin : FrInfo) (fr : R) : (shapes (start g b fin fr)).IsChain Shape.Fits :=
  .singleton _

theorem start_deep (g : Rules R) (b : Buf) (fin : FrInfo) (fr : R) : Deep g (start g b fin fr) := ⟨.inl rfl, trivial⟩

/-- **A run whose steps meet the condition** has room for all calls, and packets that fit. -/
theorem Run.deep (h : Run g v minmtu (Meets g v) s₀ s) (hd : Deep g s₀) (hf : (shapes s₀).IsChain Shape.Fits) :
    Deep g s ∧ (shapes s).IsChain Shape.Fits := by
  induction h with
  | start => exact ⟨hd, hf⟩
  | @step s s' a hrun hmeets hstep ih =>
    refine ⟨step_deep ih.1 hmeets hstep, (step_fits ih.2 hstep).2 ?_⟩
    rintro p ps rfl rfl
    exact hmeets.2

/-- **Where scans inside each other are bounded:** a run whose steps meet the condition has 16 calls at most, and packets that
fit. Any run has 16 calls at most for each packet, and a step of it leaves all packets fitting exactly if it meets the part of
the condition that is about lengths. -/
theorem scan_bounded (g : Rules R) (v minmtu : ℕ) (b : Buf) (fin : FrInfo) (fr : R) (s : Scan R) :
    (Run g v minmtu (Meets g v) (start g b fin fr) s → Bounded (shapes s)) ∧
      (Run g v minmtu (fun _ _ => True) (start g b fin fr) s → nesting (shapes s) ≤ 16 * s.length ∧
        ∀ a s', (shapes s).IsChain Shape.Fits → step g v minmtu s a = some s' →
          ((shapes s').IsChain Shape.Fits ↔ ∀ p ps, s = p :: ps → a = .decaps → InnerFits g v p)) := by
  have hcounted := start_counted g b fin fr
  constructor
  · intro hrun
    obtain ⟨hd, hf⟩ := hrun.deep (start_deep g b fin fr) (start_fits g b fin fr)
    exact ⟨hd.nesting_le (hrun.counted hcounted), hf⟩
  · intro hrun
    refine ⟨?_, fun a s' hf hstep => step_fits hf hstep⟩
    have hle := (hrun.counted hcounted).nesting_le
    rwa [shapes, length_map] at hle

/-! ## A tunnel -/

/-- Two rules that match everything: `false` is the head of the group it is in, and behind it `true` decapsulates, with the
group `true` of its own. -/
def loops : Rules Bool where
  frNext r := if r then none else some true
  fgStart r := some (some r)
  isDecaps r := r
  frIcode _ := 0
  hit _ _ _ := true
  finds _ _ _ := none
  grpmap _ _ _ := none

/-- 20 bytes of IPv4 in IPv4; `len` and `sum` are those of the header inside. -/
def tunnel (len sum : BitVec 16) : Buf :=
  ipv4 4 0 [] [0x45, 0, (len >>> 8).truncate 8, len.truncate 8, 0, 0, 0, 0, 64, 0xfd, (sum >>> 8).truncate 8,
    sum.truncate 8, 0, 0, 0, 0, 0, 0, 0, 0]

/-- The packet, as `ipf_makefrip` has it. -/
def tunnelFin (b : Buf) : FrInfo := (ipfMakefrip b 4 68 20 .zero).getD .zero

/-- A header inside of 1000 bytes, with a correct checksum, and one of the 20 bytes that there are. -/
def longer : Buf := tunnel 1000 0x761a

def fitting : Buf := tunnel 20 0x79ee

def tunnelStart : Scan Bool := start loops longer (tunnelFin longer) false

/-- The steps of a list, one after the other. -/
def steps (g : Rules R) (v minmtu : ℕ) (as : List (Act R)) (s : Scan R) : Option (Scan R) := as.foldlM (step g v minmtu) s

/-- What runs is a run. -/
theorem Run.steps {as : List (Act R)} (hrun : Run g v minmtu (fun _ _ => True) s₀ s) (h : steps g v minmtu as s = some s') :
    Run g v minmtu (fun _ _ => True) s₀ s' := by
  induction as generalizing s with
  | nil => exact Option.some.inj h ▸ hrun
  | cons a as ih =>
    unfold Decaps.steps at h
    rw [foldlM_cons] at h
    obtain ⟨s₁, hs₁, hrest⟩ := Option.bind_eq_some_iff.1 h
    exact ih (hrun.step trivial hs₁) hrest

/-- A rule `true` that decapsulates, and its group, of one rule. -/
def unwraps : Rules Bool where
  frNext _ := none
  fgStart r := if r then some (some false) else none
  isDecaps r := r
  frIcode _ := 0
  hit _ _ _ := true
  finds _ _ _ := none
  grpmap _ _ _ := none

/-- There is room for the group, which has no group of its own, and the packet inside fits. -/
theorem unwraps_meets : Meets unwraps 4 (start unwraps fitting (tunnelFin fitting) true) .decaps := by
  have hcarries : carries fitting (tunnelFin fitting) 0 = some (20, IPPROTO_IP) := rfl
  refine ⟨fun fr frs r elen nh _ _ hc => ?_, fun fr frs r elen nh hlen _ _ hc hlen' => ?_⟩
  · rintro r' ⟨x, fin, -, -, ⟨hd, hx⟩ | hx⟩
    · have hfalse : x = false := hd
      rw [hfalse] at hx
      cases hx
    · cases hx
  · obtain ⟨rfl, rfl⟩ := Prod.mk.inj (Option.some.inj (hcarries.symm.trans hc))
    have h20 : ipHlen (Buf.drop fitting 20) = some 20 := rfl
    obtain rfl := Option.some.inj (h20.symm.trans hlen')
    decide

/-- A packet inside another is scanned. -/
theorem scan_bounded_unwraps : ∃ s : Scan Bool, shapes s = [⟨20, 1, 20, 1⟩, ⟨0, 1, 40, 1⟩] ∧
    Bounded (shapes s) := by
  have hshapes : (step unwraps 4 68 (start unwraps fitting (tunnelFin fitting) true) .decaps).map shapes =
      some [⟨20, 1, 20, 1⟩, ⟨0, 1, 40, 1⟩] := rfl
  obtain ⟨s, hs, hshape⟩ := Option.map_eq_some_iff.1 hshapes
  have hrun : Run unwraps 4 68 (Meets unwraps 4) (start unwraps fitting (tunnelFin fitting) true) s :=
    .step .start unwraps_meets hs
  exact ⟨s, hshape, (scan_bounded unwraps 4 68 fitting (tunnelFin fitting) true s).1 hrun⟩

/-- 16 calls for the packet outside, and one more for the packet inside, which is longer than it can be. -/
theorem scan_bounded_deep :
    ∃ s, Run loops 4 68 (fun _ _ => True) tunnelStart s ∧ shapes s = [⟨20, 1, 1000, 1⟩, ⟨0, 16, 40, 16⟩] ∧
      ¬nesting (shapes s) ≤ 16 ∧ ¬(shapes s).IsChain Shape.Fits := by
  have hrun : (steps loops 4 68 (List.replicate 15 .group ++ [.next, .decaps]) tunnelStart).map shapes =
      some [⟨20, 1, 1000, 1⟩, ⟨0, 16, 40, 16⟩] := rfl
  obtain ⟨s, hs, hshapes⟩ := Option.map_eq_some_iff.1 hrun
  refine ⟨s, Run.start.steps hs, hshapes, ?_, ?_⟩
  · rw [hshapes]
    decide
  · rw [hshapes]
    intro hchain
    -- 1000 bytes inside 20
    exact absurd (List.isChain_cons_cons.1 hchain).1 (show ¬(1000 : ℤ) ≤ 40 - 20 by decide)

end Ipfilter.Decaps
