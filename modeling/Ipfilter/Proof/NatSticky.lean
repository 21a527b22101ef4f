import Ipfilter.Proof.Masks
import Ipfilter.Proof.NatCalls

/-!
# Sticky redirects

A redirect with `sticky` should send every connection of a client to a service to the same address, as long as one of
them lasts. The address is not what the code remembers: the host map has the rule of the first connection, and the
next one is given that rule again. So it is the same address if the rule has only one (`Call.Kept`). A rule with two
addresses takes the one that is next, or the field `hm_ndstip` of the host map, which is never set.

* `HmInv`, `Sticky`: the invariant of host maps, and of sessions with the rules they were made with;
* `newrdr_hmInv`, `enter_sticky`: a new session;
* `run_sticks`: whole runs;
* `split_not_sticky`: a rule with two addresses.
-/

namespace Ipfilter.NatAdd

open Chain Masks NatTab Refs Option BitVec
open State hiding FrInfo

/-! ## What is claimed -/

/-- `rdr .. round-robin sticky`, or a split rule with `sticky`. -/
structure Ipnat.StickyRdr (np : Ipnat) : Prop where
  redir : np.inRedir = NAT_REDIRECT
  sticky : has np.inFlags IPN_STICKY = true
  shares : has np.inFlags (IPN_ROUNDR ||| IPN_SPLIT) = true

/-- A session that is in the NAT table. -/
def Sys.session (s : Sys) (e : ℕ) : Prop := s.tab.alloc e = true ∧ s.tab.list.pnext e ≠ none

/-- The port, or the ICMP id, that the packets of a session are sent to. -/
def dport? (nat : NatT) : Option (BitVec 16) :=
  if has nat.natFlags IPN_TCPUDP then some nat.natOdport
  else if has nat.natFlags IPN_ICMPQUERY then some nat.natOicmpid
  else none

/-- Two sessions have the same source, destination and port. -/
def SameService (a b : NatT) : Prop :=
  a.natOsrcaddr = b.natOsrcaddr ∧ a.natOdstaddr = b.natOdstaddr ∧ ∃ p, dport? a = some p ∧ dport? b = some p

/-- **Redirects stick:** sessions from one source to one destination and port are redirected to one address. -/
def Sys.Sticks (s : Sys) : Prop :=
  ∀ x y, s.session x → s.session y → SameService (s.tab.nat x) (s.tab.nat y) →
    (s.tab.nat x).natNdstaddr = (s.tab.nat y).natNdstaddr

section

variable (M : Machine)

/-- **When a connection is given the address of the session `x`** that it should be given the address of: the session
has a host map, a port of 0 does not find that of another rule, and the rule has one address. Of two, the next must be
the one of the session; without round robin, the rule must leave the port alone, for then the connection is refused, or
the session must not have been redirected at all. -/
structure Call.Kept (s : Sys) (c : Call) (x : ℕ) : Prop where
  hm : (s.tab.nat x).natHm ≠ none
  zero : c.rdrDport M = 0 → ∀ h ∈ s.maplist, (s.hm h).hmOsrcip = c.fin.finSaddr →
    (s.hm h).hmOdstip = c.fin.finDaddr → (s.tab.nat x).natPtr = some (s.hm h).hmIpnat
  addr : ∀ n, (s.tab.nat x).natPtr = some n → has (s.ipn n).inFlags IPN_SPLIT = true →
    if has (s.ipn n).inFlags IPN_ROUNDR then
      (s.ipn n).inDnip ≠ 0 ∧ M.htonl (s.ipn n).inDnip = (s.tab.nat x).natNdstaddr
    else (rdrPort M c (s.ipn n)).2 = c.rdrDport M ∨ (s.tab.nat x).natNdstaddr = c.fin.finDaddr

/-- The packet is for the service of a session. -/
def Call.ForService (c : Call) (nat : NatT) : Prop :=
  nat.natOsrcaddr = c.fin.finSaddr ∧ nat.natOdstaddr = c.fin.finDaddr ∧ dport? nat = some (c.rdrDport M)

variable (proxyMatch : FrInfo → NatT → Bool) (addr₀ : Option Word)

/-- New connections come in, and `ipf_ifpaddr` finds the one address `addr₀` in the whole run. -/
def Op.Incoming : Op → Prop
  | .add _ c => c.dir = .inbound ∧ c.ifpaddr = addr₀
  | _ => True

/-- The condition on a call. -/
def Op.Kept (s : Sys) : Op → Prop
  | .add _ c => ∀ x, s.session x → c.ForService M (s.tab.nat x) → c.Kept M s x
  | _ => True

/-- **The runs in which every new connection meets the condition.** -/
inductive StickyRun (s₀ : Sys) : Sys → Prop
  | start : StickyRun s₀ s₀
  | call {s s' : Sys} (op : Op) : StickyRun s₀ s → Legal s₀ s op → op.Incoming addr₀ → op.Kept M s →
      step M proxyMatch s op = some s' → StickyRun s₀ s'

end

/-! ## Host maps -/

variable {M : Machine} {proxyMatch : FrInfo → NatT → Bool} {addr₀ : Option Word} {s₀ s s' : Sys} {xh xr : ℕ → ℕ}
  {n h x : ℕ} {A O : List ℕ} {H : Bool → ℕ → List ℕ} {c : Call} {m : Made}

/-- **Host maps for one service have one rule**, and no address is set in them. -/
structure HmInv (s₀ s : Sys) : Prop where
  rule : ∀ h ∈ s.maplist, s₀.live (s.hm h).hmIpnat = true
  ndst : ∀ h ∈ s.maplist, (s.hm h).hmNdstip = 0
  unique : ∀ h ∈ s.maplist, ∀ h' ∈ s.maplist, (s.hm h).hmOsrcip = (s.hm h').hmOsrcip →
    (s.hm h).hmOdstip = (s.hm h').hmOdstip → (s.hm h).hmPort = (s.hm h').hmPort →
    (s.hm h).hmIpnat = (s.hm h').hmIpnat

theorem fixed_hm {a b : Hostmap} (h : a.fixed = b.fixed) : a.hmIpnat = b.hmIpnat ∧ a.hmOsrcip = b.hmOsrcip ∧
    a.hmOdstip = b.hmOdstip ∧ a.hmNdstip = b.hmNdstip ∧ a.hmPort = b.hmPort := by
  have h1 := congrArg Hostmap.hmIpnat h
  have h2 := congrArg Hostmap.hmOsrcip h
  have h3 := congrArg Hostmap.hmOdstip h
  have h4 := congrArg Hostmap.hmNdstip h
  have h5 := congrArg Hostmap.hmPort h
  exact ⟨h1, h2, h3, h4, h5⟩

theorem HmInv.congr (hi : HmInv s₀ s) (hlist : s'.maplist ⊆ s.maplist) (hhm : ∀ h ∈ s'.maplist,
    (s'.hm h).fixed = (s.hm h).fixed) : HmInv s₀ s' where
  rule h hh := by
    rw [(fixed_hm (hhm h hh)).1]
    exact hi.rule h (hlist hh)
  ndst h hh := by
    rw [(fixed_hm (hhm h hh)).2.2.2.1]
    exact hi.ndst h (hlist hh)
  unique h hh h' hh' := by
    obtain ⟨h1, h2, h3, -, h5⟩ := fixed_hm (hhm h hh)
    obtain ⟨g1, g2, g3, -, g5⟩ := fixed_hm (hhm h' hh')
    rw [h1, h2, h3, h5, g1, g2, g3, g5]
    exact hi.unique h (hlist hh) h' (hlist hh')

theorem fits_iff {hm : Hostmap} {np : Option ℕ} {src dst port : Word} : hm.fits np src dst port = true ↔
    hm.hmOsrcip = src ∧ hm.hmOdstip = dst ∧ (np = none ∨ np = some hm.hmIpnat) ∧ (port = 0 ∨ port = hm.hmPort) := by
  simp [Hostmap.fits]

theorem knows_iff {hm : Hostmap} : c.knows M hm = true ↔ hm.hmOsrcip = c.fin.finSaddr ∧
    hm.hmOdstip = c.fin.finDaddr ∧ (word (c.rdrDport M) = 0 ∨ word (c.rdrDport M) = hm.hmPort) := by
  rw [Call.knows, fits_iff]
  simp

theorem fixed_flags {a b : Ipnat} (h : a.fixed = b.fixed) : a.inFlags = b.inFlags := by
  have hflags := congrArg Ipnat.inFlags h
  exact hflags

/-- What `ipf_nat_newrdr` leaves of the host maps: those that were there, and at most a new one, for the rule that it
chose. -/
theorem newrdr_hm (hs : Held s xh xr) (heq : ipfNatNewrdr M proxyMatch s c = some m)
    (hnew : ∀ i x, c.hmNew i = some x → x ∉ s.maplist) :
    (∀ h ∈ s.maplist, (m.sys.hm h).fixed = (s.hm h).fixed) ∧ (m.sys.maplist = s.maplist ∨
      ∃ h ∉ s.maplist, m.sys.maplist = h :: s.maplist ∧
        (∀ h' ∈ s.maplist, (s.hm h').fits (some m.np) c.fin.finSaddr c.fin.finDaddr (word (c.rdrDport M)) = false) ∧
        (m.sys.hm h).hmIpnat = m.np ∧ (m.sys.hm h).hmOsrcip = c.fin.finSaddr ∧
        (m.sys.hm h).hmOdstip = c.fin.finDaddr ∧ (m.sys.hm h).hmNdstip = 0 ∧
        (m.sys.hm h).hmPort = word (c.rdrDport M)) := by
  obtain ⟨-, -, t, hmild, ⟨-, -, hsys⟩ | ⟨addr, -, -, -, -, hr⟩⟩ := newrdr_cases hs heq
  · rw [hsys, hmild.hm, hmild.maplist]
    exact ⟨fun _ _ => rfl, .inl rfl⟩
  by_cases hst : has (s.ipn m.np).inFlags IPN_STICKY = true
  · rw [if_pos hst] at hr
    rcases hostmap_cases t (some m.np) c.fin.finSaddr c.fin.finDaddr (M.htonl (c.rdrAddr' M addr))
      (word (c.rdrDport M)) (c.hmNew false) with ⟨h, hh, -, hcase⟩ | ⟨hnone, ⟨n, h, hn, hh, hcase⟩ | ⟨-, hcase⟩⟩
    · obtain ⟨hsys, -⟩ := Prod.mk.inj (hr.trans hcase)
      rw [hsys]
      refine ⟨fun x _ => ?_, .inl hmild.maplist⟩
      rw [updHm_fixed t h (f := .addRef 1) rfl x, hmild.hm]
    · obtain ⟨hsys, -⟩ := Prod.mk.inj (hr.trans hcase)
      have hfresh := hnew false h hh
      obtain rfl : m.np = n := some.inj hn
      rw [hsys]
      refine ⟨fun x hx => ?_, .inr ⟨h, hfresh, ?_, fun h' hh' => ?_, ?_⟩⟩
      · have hxh : x ≠ h := fun hxh => hfresh (hxh ▸ hx)
        simp [hxh, hmild.hm]
      · rw [← hmild.maplist]
      · rw [← hmild.hm]
        exact hnone h' (hmild.maplist ▸ hh')
      · simp
    · obtain ⟨hsys, -⟩ := Prod.mk.inj (hr.trans hcase)
      rw [hsys, hmild.hm, hmild.maplist]
      exact ⟨fun _ _ => rfl, .inl rfl⟩
  · rw [if_neg hst] at hr
    obtain ⟨hsys, -⟩ := Prod.mk.inj hr
    rw [hsys, hmild.hm, hmild.maplist]
    exact ⟨fun _ _ => rfl, .inl rfl⟩

/-- **A new connection keeps the host maps in order:** a host map is made for a service that has none. -/
theorem newrdr_hmInv (hi : HmInv s₀ s) (hs : Held s xh xr)
    (hst : (s.ipn c.np).StickyRdr) (hlive : s₀.live c.np = true)
    (heq : ipfNatNewrdr M proxyMatch s c = some m) (hnew : ∀ i x, c.hmNew i = some x → x ∉ s.maplist) :
    HmInv s₀ m.sys ∧ s₀.live m.np = true := by
  obtain ⟨-, hrule, -⟩ := newrdr_cases hs heq
  have hnp : s₀.live m.np = true := by
    rcases hrule with ⟨hn, -⟩ | ⟨h, hh, -, hn⟩
    · rw [hn]
      exact hlive
    · rw [hn]
      exact hi.rule h hh
  refine ⟨?_, hnp⟩
  obtain ⟨hold, hlist | ⟨h, hfresh, hlist, hnone, hip, hsrc, hdst, hnd, hport⟩⟩ := newrdr_hm hs heq hnew
  · exact hi.congr (by rw [hlist]; exact fun _ hx => hx) fun h hh => hold h (hlist ▸ hh)
  · -- no host map is for this service: one would have given its rule, and would fit now
    have hother : ∀ h' ∈ s.maplist, ¬((s.hm h').hmOsrcip = c.fin.finSaddr ∧ (s.hm h').hmOdstip = c.fin.finDaddr ∧
        (s.hm h').hmPort = word (c.rdrDport M)) := by
      rintro h' hh' ⟨h1, h2, h3⟩
      have hk : c.knows M (s.hm h') = true := knows_iff.2 ⟨h1, h2, .inr h3.symm⟩
      rcases hrule with ⟨-, hn⟩ | ⟨h₁, hh₁, hk₁, hn⟩
      · rw [hn hst.shares hst.sticky h' hh'] at hk
        exact absurd hk Bool.false_ne_true
      · have hfits : (s.hm h₁).fits (some m.np) c.fin.finSaddr c.fin.finDaddr (word (c.rdrDport M)) = true := by
          obtain ⟨g1, g2, g3⟩ := knows_iff.1 hk₁
          exact fits_iff.2 ⟨g1, g2, .inr (congrArg some hn), g3⟩
        rw [hnone h₁ hh₁] at hfits
        exact absurd hfits Bool.false_ne_true
    have hstat := fun x (hx : x ∈ s.maplist) => fixed_hm (hold x hx)
    refine ⟨fun x hx => ?_, fun x hx => ?_, fun x hx y hy h1 h2 h3 => ?_⟩
    · rcases List.mem_cons.1 (hlist ▸ hx) with rfl | hx
      · rw [hip]
        exact hnp
      · rw [(hstat x hx).1]
        exact hi.rule x hx
    · rcases List.mem_cons.1 (hlist ▸ hx) with rfl | hx
      · exact hnd
      · rw [(hstat x hx).2.2.2.1]
        exact hi.ndst x hx
    · rcases List.mem_cons.1 (hlist ▸ hx) with rfl | hx <;> rcases List.mem_cons.1 (hlist ▸ hy) with rfl | hy
      · rfl
      · obtain ⟨g1, g2, g3, -, g5⟩ := hstat y hy
        exact absurd ⟨g2.symm.trans (h1.symm.trans hsrc), g3.symm.trans (h2.symm.trans hdst),
          g5.symm.trans (h3.symm.trans hport)⟩ (hother y hy)
      · obtain ⟨g1, g2, g3, -, g5⟩ := hstat x hx
        exact absurd ⟨g2.symm.trans (h1.trans hsrc), g3.symm.trans (h2.trans hdst), g5.symm.trans (h3.trans hport)⟩
          (hother x hx)
      · obtain ⟨f1, f2, f3, -, f5⟩ := hstat x hx
        obtain ⟨g1, g2, g3, -, g5⟩ := hstat y hy
        rw [f1, g1]
        exact hi.unique x hx y hy (f2.symm.trans (h1.trans g2)) (f3.symm.trans (h2.trans g3))
          (f5.symm.trans (h3.trans g5))

/-! ## Sessions -/

/-- **What a session remembers:** its rule was loaded, its host map is for its service and its rule, and where the rule
has one address, that is where the session goes, as would any other connection to its destination. -/
structure Remembers (M : Machine) (addr₀ : Option Word) (s₀ : Sys) (hm : ℕ → Hostmap) (nat : NatT) : Prop where
  rule : ∃ n, nat.natPtr = some n ∧ s₀.live n = true
  map : ∀ h, nat.natHm = some h → nat.natPtr = some (hm h).hmIpnat ∧ (hm h).hmOsrcip = nat.natOsrcaddr ∧
    (hm h).hmOdstip = nat.natOdstaddr ∧ ∀ p, dport? nat = some p → p ≠ 0 → (hm h).hmPort = word p
  target : ∀ n, nat.natPtr = some n → has (s₀.ipn n).inFlags IPN_SPLIT = false → ∀ c : Call, c.ifpaddr = addr₀ →
    c.fin.finDaddr = nat.natOdstaddr → ∀ addr, rdrAddr M c (s₀.ipn n) = some addr →
    nat.natNdstaddr = M.htonl (c.rdrAddr' M addr)

/-- The invariant of a run. -/
structure Sticky (M : Machine) (addr₀ : Option Word) (s₀ s : Sys) (A O : List ℕ) (H : Bool → ℕ → List ℕ) :
    Prop where
  held : Held s (fun _ => 0) s₀.loaded
  linked : Linked s.tab A O H
  fixed : ∀ n, (s.ipn n).fixed = (s₀.ipn n).fixed
  hm : HmInv s₀ s
  sess : ∀ x ∈ A, Remembers M addr₀ s₀ s.hm (s.tab.nat x)
  sticks : ∀ x ∈ A, ∀ y ∈ A, SameService (s.tab.nat x) (s.tab.nat y) →
    (s.tab.nat x).natNdstaddr = (s.tab.nat y).natNdstaddr

/-- The sessions of the table are those on its list. -/
theorem session_iff (hl : Linked s.tab A O H) : s.session x ↔ x ∈ A := by
  constructor
  · rintro ⟨halloc, hp⟩
    exact ((hl.alloc x).1 halloc).resolve_right fun hO => hp (hl.orphan x hO)
  · intro hx
    obtain ⟨k, hk⟩ := hl.pnext_some hx
    exact ⟨(hl.alloc x).2 (.inl hx), by simp [hk]⟩

theorem Sticky.toSticks (hs : Sticky M addr₀ s₀ s A O H) : s.Sticks := fun x y hx hy =>
  hs.sticks x ((session_iff hs.linked).1 hx) y ((session_iff hs.linked).1 hy)

theorem Remembers.congr {hm hm' : ℕ → Hostmap} {nat nat' : NatT} (h : Remembers M addr₀ s₀ hm nat)
    (hnat : ∃ ifps ref me, nat' = { nat with natIfps := ifps, natRef := ref, natMe := me })
    (hhm : ∀ h, nat.natHm = some h → (hm' h).fixed = (hm h).fixed) : Remembers M addr₀ s₀ hm' nat' := by
  obtain ⟨ifps, ref, me, rfl⟩ := hnat
  refine ⟨h.rule, fun x hx => ?_, h.target⟩
  obtain ⟨h1, h2, h3, -, h5⟩ := fixed_hm (hhm x hx)
  rw [h1, h2, h3, h5]
  exact h.map x hx

/-- **No new session:** what is left of the sessions still agrees. -/
theorem Sticky.fewer (hs : Sticky M addr₀ s₀ s A O H) {A' O' : List ℕ} {H' : Bool → ℕ → List ℕ}
    (held : Held s' (fun _ => 0) s₀.loaded) (linked : Linked s'.tab A' O' H') (hsub : A' ⊆ A)
    (fixed : ∀ x, (s'.ipn x).fixed = (s.ipn x).fixed) (hm : HmInv s₀ s')
    (hhm : ∀ h ∈ s.maplist, (s'.hm h).fixed = (s.hm h).fixed)
    (hnat : ∀ x ∈ A', ∃ ifps ref me, s'.tab.nat x = { s.tab.nat x with natIfps := ifps, natRef := ref, natMe := me }) :
    Sticky M addr₀ s₀ s' A' O' H' := by
  refine ⟨held, linked, fun x => (fixed x).trans (hs.fixed x), hm, fun x hx => ?_, fun x hx y hy => ?_⟩
  · refine (hs.sess x (hsub hx)).congr (hnat x hx) fun h hh => hhm h ?_
    exact hs.held.hm_of_entry ((hs.linked.alloc x).2 (.inl (hsub hx))) hh
  · obtain ⟨i, r, m, hx'⟩ := hnat x hx
    obtain ⟨j, r', m', hy'⟩ := hnat y hy
    rw [hx', hy']
    exact hs.sticks x (hsub hx) y (hsub hy)

/-! ## A new session -/

theorem rdrAddr_congr {c c' : Call} {np np' : Ipnat} (hi : c'.ifpaddr = c.ifpaddr)
    (hd : c'.fin.finDaddr = c.fin.finDaddr) (hf : np'.fixed = np.fixed) : rdrAddr M c' np' = rdrAddr M c np := by
  have h1 : np'.inNdstaddr = np.inNdstaddr := by
    have h := congrArg Ipnat.inNdstaddr hf
    exact h
  have h2 : np'.inNdstmsk = np.inNdstmsk := by
    have h := congrArg Ipnat.inNdstmsk hf
    exact h
  have h3 : np'.inRedir = np.inRedir := by
    have h := congrArg Ipnat.inRedir hf
    exact h
  have h4 : np'.inOdstmsk = np.inOdstmsk := by
    have h := congrArg Ipnat.inOdstmsk hf
    exact h
  unfold rdrAddr
  rw [h1, h2, h3, h4, hi, hd]

/-- The fields of a new redirect. -/
theorem session_fields (c : Call) (m : Made) (a : Word) (p : BitVec 16) (aps : Option ℕ) :
    let nat := c.session M m (rdrNat M c a p) aps
    nat.natOsrcaddr = c.fin.finSaddr ∧ nat.natOdstaddr = c.fin.finDaddr ∧ nat.natNdstaddr = M.htonl a ∧
      nat.natPtr = some m.np ∧ nat.natHm = m.hm ∧ ∀ q, dport? nat = some q → q = c.rdrDport M := by
  intro nat
  by_cases htcp : has c.flags IPN_TCPUDP = true
  · have hnat : rdrNat M c a p = { c.blank with
        natNdstaddr := M.htonl a, natOdstaddr := c.fin.finDaddr, natNsrcaddr := c.fin.finSaddr
        natOsrcaddr := c.fin.finSaddr, natOdport := c.rdrDport M, natNdport := p, natOsport := c.rdrSport M
        natNsport := c.rdrSport M } := by rw [rdrNat, if_pos htcp]
    have heq : nat = c.session M m _ aps := congrArg (fun x => c.session M m x aps) hnat
    refine heq ▸ ⟨rfl, rfl, rfl, rfl, rfl, fun q hq => ?_⟩
    change (if has c.flags IPN_TCPUDP = true then some (c.rdrDport M) else _) = some q at hq
    rw [if_pos htcp] at hq
    exact (some.inj hq).symm
  · by_cases hicmp : has c.flags IPN_ICMPQUERY = true
    · have hnat : rdrNat M c a p = { c.blank with
          natNdstaddr := M.htonl a, natOdstaddr := c.fin.finDaddr, natNsrcaddr := c.fin.finSaddr
          natOsrcaddr := c.fin.finSaddr, natOicmpid := c.fin.finData true, natNicmpid := p } := by
        rw [rdrNat, if_neg htcp, if_pos hicmp]
      have heq : nat = c.session M m _ aps := congrArg (fun x => c.session M m x aps) hnat
      refine heq ▸ ⟨rfl, rfl, rfl, rfl, rfl, fun q hq => ?_⟩
      change (if has c.flags IPN_TCPUDP = true then some 0 else
        if has c.flags IPN_ICMPQUERY = true then some (c.fin.finData true) else none) = some q at hq
      rw [if_neg htcp, if_pos hicmp] at hq
      rw [Call.rdrDport, if_pos hicmp]
      exact (some.inj hq).symm
    · have hnat : rdrNat M c a p = { c.blank with
          natNdstaddr := M.htonl a, natOdstaddr := c.fin.finDaddr, natNsrcaddr := c.fin.finSaddr
          natOsrcaddr := c.fin.finSaddr } := by
        rw [rdrNat, if_neg htcp, if_neg hicmp]
      have heq : nat = c.session M m _ aps := congrArg (fun x => c.session M m x aps) hnat
      refine heq ▸ ⟨rfl, rfl, rfl, rfl, rfl, fun q hq => ?_⟩
      change (if has c.flags IPN_TCPUDP = true then some 0 else
        if has c.flags IPN_ICMPQUERY = true then some 0 else none) = some q at hq
      rw [if_neg htcp, if_neg hicmp] at hq
      exact absurd hq (by simp)

theorem word_eq_zero {p : BitVec 16} : word p = 0 ↔ p = 0 := by
  unfold word
  constructor
  · intro h
    bv_omega
  · rintro rfl
    rfl

theorem htonl_ntohl (M : Machine) (x : Word) : M.htonl (M.ntohl x) = x := ntohl_htonl M x

/-- **The rule is the one of the session** that the connection should follow. -/
theorem Sticky.same_rule (hs : Sticky M addr₀ s₀ s A O H) (hst : (s.ipn c.np).StickyRdr)
    (heq : ipfNatNewrdr M proxyMatch s c = some m) (hx : x ∈ A) (hfor : c.ForService M (s.tab.nat x))
    (hk : c.Kept M s x) : (∃ h ∈ s.maplist, c.knows M (s.hm h) = true) ∧ (s.tab.nat x).natPtr = some m.np := by
  obtain ⟨hsrc, hdst, hport⟩ := hfor
  obtain ⟨h, hh⟩ := ne_none_iff_exists'.1 hk.hm
  obtain ⟨hptr, hsrc', hdst', hport'⟩ := (hs.sess x hx).map h hh
  have hmem := hs.held.hm_of_entry ((hs.linked.alloc x).2 (.inl hx)) hh
  have hknows : c.knows M (s.hm h) = true := by
    refine knows_iff.2 ⟨hsrc'.trans hsrc, hdst'.trans hdst, ?_⟩
    by_cases hp : c.rdrDport M = 0
    · exact .inl (word_eq_zero.2 hp)
    · exact .inr (hport' _ hport hp).symm
  refine ⟨⟨h, hmem, hknows⟩, ?_⟩
  obtain ⟨-, ⟨-, hnone⟩ | ⟨h₁, hh₁, hk₁, hnp⟩, -⟩ := newrdr_cases hs.held heq
  · rw [hnone hst.shares hst.sticky h hmem] at hknows
    exact absurd hknows Bool.false_ne_true
  · obtain ⟨g1, g2, g3⟩ := knows_iff.1 hk₁
    rw [hnp]
    by_cases hp : c.rdrDport M = 0
    · exact hk.zero hp h₁ hh₁ g1 g2
    · have g3' := g3.resolve_left (word_eq_zero.not.2 hp)
      rw [hptr, hs.hm.unique h hmem h₁ hh₁ (hsrc'.trans (hsrc.trans g1.symm)) (hdst'.trans (hdst.trans g2.symm))
        ((hport' _ hport hp).trans g3')]

/-- Of a sticky rule, the mask says whether it is a round-robin rule. -/
theorem sticky_mask {fl : Flags} (h : has fl IPN_STICKY = true) :
    fl &&& (IPN_ROUNDR ||| IPN_STICKY) = IPN_STICKY ↔ has fl IPN_ROUNDR = false := by
  have hbit : fl &&& IPN_STICKY = IPN_STICKY := by
    have htwo : IPN_STICKY = BitVec.twoPow 32 16 := by decide
    have hne : fl &&& IPN_STICKY ≠ 0 := by simpa [has] using h
    rw [htwo, and_twoPow] at hne ⊢
    split at hne
    · rename_i hb
      rw [if_pos hb]
    · exact absurd rfl hne
  have hdist : fl &&& (IPN_ROUNDR ||| IPN_STICKY) = fl &&& IPN_ROUNDR ||| IPN_STICKY := by
    rw [BitVec.and_or_distrib_left, hbit]
  have hzero : fl &&& IPN_ROUNDR &&& IPN_STICKY = 0#32 := by
    have hrs : IPN_ROUNDR &&& IPN_STICKY = 0#32 := by decide
    rw [BitVec.and_assoc, hrs]
    exact and_zero
  rw [hdist, has_eq_false]
  constructor
  · intro heq
    have habs : fl &&& IPN_ROUNDR &&& (fl &&& IPN_ROUNDR ||| IPN_STICKY) = fl &&& IPN_ROUNDR := by
      rw [BitVec.and_or_distrib_left, hzero, BitVec.and_self]
      exact or_zero
    rw [← habs, heq]
    exact hzero
  · intro heq
    rw [heq]
    exact zero_or

/-- **The address is the one of the session** that the connection should follow. -/
theorem Sticky.same_addr (hs : Sticky M addr₀ s₀ s A O H) (hst : (s.ipn c.np).StickyRdr)
    (hstm : (s.ipn m.np).StickyRdr) (hc : c.ifpaddr = addr₀) (heq : ipfNatNewrdr M proxyMatch s c = some m)
    {a : Word} {p : BitVec 16} (hnat : m.nat = some (rdrNat M c a p)) (hx : x ∈ A)
    (hfor : c.ForService M (s.tab.nat x)) (hk : c.Kept M s x) : (s.tab.nat x).natNdstaddr = M.htonl a := by
  obtain ⟨⟨h, hh, hknows⟩, hptr⟩ := hs.same_rule hst heq hx hfor hk
  have hflags := fixed_flags (hs.fixed m.np)
  obtain ⟨-, -, t, -, ⟨hnone, -⟩ | ⟨addr, haddr, hkept, hmade, -⟩⟩ := newrdr_cases hs.held heq
  · exact absurd (hnone.symm.trans hnat) (by simp)
  have ha : a = c.rdrAddr' M addr := by
    have hmn := mem_unique hnat hmade
    have hd := congrArg NatT.natNdstaddr hmn
    have hleft : ∀ a p, (rdrNat M c a p).natNdstaddr = M.htonl a := fun a p => by
      unfold rdrNat
      dsimp only
      split_ifs <;> rfl
    rw [hleft, hleft] at hd
    rw [← ntohl_htonl M a, hd, ntohl_htonl]
  rw [ha]
  by_cases hsplit : has (s.ipn m.np).inFlags IPN_SPLIT = true
  · rw [if_pos hsplit] at haddr
    have hcond := hk.addr m.np hptr hsplit
    have hmask := sticky_mask hstm.sticky
    by_cases hrr : has (s.ipn m.np).inFlags IPN_ROUNDR = true
    · -- the two addresses take turns
      rw [if_pos hrr] at hcond
      rcases haddr with ⟨hd, -⟩ | ⟨hm, -⟩
      · rw [hd, Call.rdrAddr', if_neg hcond.1]
        exact hcond.2.symm
      · rw [hmask, hrr] at hm
        exact absurd hm (by simp)
    · -- the host map has no address
      rw [if_neg hrr] at hcond
      rcases haddr with ⟨-, hno⟩ | ⟨-, h', hh', -, hd⟩
      · rw [hno (hmask.2 (by simpa using hrr)) h hh] at hknows
        exact absurd hknows Bool.false_ne_true
      · rw [hs.hm.ndst h' hh'] at hd
        rw [hd, Call.rdrAddr', if_pos rfl, htonl_ntohl]
        exact hcond.resolve_left fun hp => hkept ⟨hd, hp⟩
  · rw [if_neg hsplit] at haddr
    refine (hs.sess x hx).target m.np hptr ?_ c hc hfor.2.1.symm addr ?_
    · rw [← hflags]
      simpa using hsplit
    · rw [← haddr]
      exact rdrAddr_congr rfl rfl (hs.fixed m.np).symm

/-- The new session remembers what it should. -/
theorem Sticky.remembers (hs : Sticky M addr₀ s₀ s A O H) (hstm : (s.ipn m.np).StickyRdr)
    (hc : c.ifpaddr = addr₀) (hlive : s₀.live m.np = true)
    (heq : ipfNatNewrdr M proxyMatch s c = some m) {nat : NatT} (hnat : m.nat = some nat) (aps : Option ℕ) :
    ∃ a p, nat = rdrNat M c a p ∧ Remembers M addr₀ s₀ m.sys.hm (c.session M m nat aps) := by
  obtain ⟨-, -, t, hmild, ⟨hnone, -⟩ | ⟨addr, haddr, -, hmade, -, hr⟩⟩ := newrdr_cases hs.held heq
  · exact absurd (hnone.symm.trans hnat) (by simp)
  obtain rfl : nat = _ := mem_unique hnat hmade
  obtain ⟨h1, h2, h3, h4, h5, h6⟩ :=
    session_fields (M := M) c m (c.rdrAddr' M addr) (rdrPort M c (s.ipn m.np)).2 aps
  refine ⟨_, _, rfl, ⟨m.np, h4, hlive⟩, fun h hh => ?_, fun n hn hsplit c' hi hd addr' hta => ?_⟩
  · rw [h5] at hh
    rw [h4, h1, h2]
    rw [if_pos hstm.sticky] at hr
    rcases hostmap_cases t (some m.np) c.fin.finSaddr c.fin.finDaddr (M.htonl (c.rdrAddr' M addr))
      (word (c.rdrDport M)) (c.hmNew false) with ⟨g, hg, hfits, hcase⟩ | ⟨-, ⟨n, g, hn, hg, hcase⟩ | ⟨-, hcase⟩⟩
    · obtain ⟨hsys, hhm⟩ := Prod.mk.inj (hr.trans hcase)
      obtain rfl : g = h := mem_unique hhm hh
      obtain ⟨f1, f2, f3, f4⟩ := fits_iff.1 hfits
      obtain ⟨g1, g2, g3, -, g5⟩ := fixed_hm (updHm_fixed t g (f := .addRef 1) rfl g)
      rw [hsys, g1, g2, g3, g5]
      refine ⟨f3.resolve_left (by simp), f1, f2, fun p hp hne => ?_⟩
      rw [h6 p hp] at hne ⊢
      exact (f4.resolve_left (word_eq_zero.not.2 hne)).symm
    · obtain ⟨hsys, hhm⟩ := Prod.mk.inj (hr.trans hcase)
      obtain rfl : g = h := mem_unique hhm hh
      obtain rfl : m.np = n := some.inj hn
      rw [hsys]
      refine ⟨by simp, by simp, by simp, fun p hp _ => ?_⟩
      rw [h6 p hp]
      simp
    · obtain ⟨-, hhm⟩ := Prod.mk.inj (hr.trans hcase)
      exact absurd (hhm.symm.trans hh) (by simp)
  · obtain rfl : m.np = n := mem_unique h4 hn
    rw [h2] at hd
    have hsp : ¬has (s.ipn m.np).inFlags IPN_SPLIT = true := by
      rw [fixed_flags (hs.fixed m.np), hsplit]
      exact Bool.false_ne_true
    rw [if_neg hsp] at haddr
    have hsame : rdrAddr M c' (s₀.ipn m.np) = rdrAddr M c (s.ipn m.np) :=
      rdrAddr_congr (hi.trans hc.symm) hd (hs.fixed m.np).symm
    obtain rfl : addr' = addr := some.inj (hta.symm.trans (hsame.trans haddr))
    rw [h3, Call.rdrAddr', Call.rdrAddr', hd]

/-- The rules of the run are sticky redirects. -/
theorem Sticky.stickyRdr (hs : Sticky M addr₀ s₀ s A O H) (hn : (s₀.ipn n).StickyRdr) : (s.ipn n).StickyRdr := by
  have hredir : (s.ipn n).inRedir = (s₀.ipn n).inRedir := by
    have h := congrArg Ipnat.inRedir (hs.fixed n)
    exact h
  have hflags := fixed_flags (hs.fixed n)
  exact ⟨hredir.trans hn.redir, hflags ▸ hn.sticky, hflags ▸ hn.shares⟩

theorem choose_rdr {fuel : ℕ} (hst : (s.ipn c.np).StickyRdr) (hdir : c.dir = .inbound) :
    choose M proxyMatch fuel s c (s.ipn c.np) = ipfNatNewrdr M proxyMatch s c := by
  unfold choose
  rw [hst.redir, hdir, if_neg (by decide), if_neg (by decide)]

/-- **A new connection.** -/
theorem Sticky.add (hs : Sticky M addr₀ s₀ s A O H) (hrules : ∀ n, s₀.live n = true → (s₀.ipn n).StickyRdr)
    (h₀ : Start s₀) {fuel : ℕ} (hl : Legal s₀ s (.add fuel c)) (hin : Op.Incoming addr₀ (.add fuel c))
    (hk : Op.Kept M s (.add fuel c)) {r : Option ℕ} (heq : ipfNatAdd M proxyMatch fuel s c = some (s', r)) :
    ∃ A' O' H', Sticky M addr₀ s₀ s' A' O' H' := by
  obtain ⟨hlive, hnewe, hnewh⟩ := hl
  obtain ⟨hdir, hifp⟩ := hin
  have hst := hs.stickyRdr (hrules c.np hlive)
  have hmade : ∀ m, choose M proxyMatch fuel s c (s.ipn c.np) = some m → ipfNatNewrdr M proxyMatch s c = some m :=
    fun m hm => (choose_rdr hst hdir).symm.trans hm
  obtain ⟨hheld, hfix, ⟨htab, hmaps⟩ | ⟨e, m, nat, aps, hnew, hchoose, hnat, hent, hlist, hhm⟩⟩ :=
    add_cases hs.held ⟨loaded_pos h₀ hlive, hnewh⟩ hnewe heq
  · -- the connection is refused, or was known
    have hnats : ∀ x ∈ A, ∃ ifps ref me,
        s'.tab.nat x = { s.tab.nat x with natIfps := ifps, natRef := ref, natMe := me } := fun x hx => by
      obtain ⟨f, -, hf⟩ := htab.nat x ((hs.linked.alloc x).2 (.inl hx))
      exact ⟨f, _, _, hf⟩
    refine ⟨A, O, H, ?_⟩
    rcases hmaps with ⟨hlist, hhm⟩ | ⟨m, hchoose, hlist, hhm⟩
    · refine hs.fewer hheld (htab.linked hs.linked) (fun _ hx => hx) hfix ?_ (fun h _ => by rw [hhm]) hnats
      exact hs.hm.congr (by rw [hlist]; exact fun _ hx => hx) fun h _ => by rw [hhm]
    · have hrdr := hmade m hchoose
      obtain ⟨hold, -⟩ := newrdr_hm hs.held hrdr hnewh
      refine hs.fewer hheld (htab.linked hs.linked) (fun _ hx => hx) hfix ?_
        (fun h hh => (hhm h).trans (hold h hh)) hnats
      exact (newrdr_hmInv hs.hm hs.held hst hlive hrdr hnewh).1.congr hlist fun h _ => hhm h
  · have hrdr := hmade m hchoose
    obtain ⟨hinv, hlivem⟩ := newrdr_hmInv hs.hm hs.held hst hlive hrdr hnewh
    have hstm := hs.stickyRdr (hrules m.np hlivem)
    obtain ⟨hold, -⟩ := newrdr_hm hs.held hrdr hnewh
    obtain ⟨-, hq⟩ := choose_spec hs.held ⟨loaded_pos h₀ hlive, hnewh⟩ hchoose
    have htab := hq.tab.untouched
    obtain ⟨H', hlinked⟩ := hent.linked (htab.linked hs.linked)
    obtain ⟨a, p, rfl, hrem⟩ := hs.remembers hstm hifp hlivem hrdr hnat aps
    obtain ⟨h1, h2, h3, -, -, h6⟩ := session_fields (M := M) c m a p aps
    have hne : ∀ x ∈ A, x ≠ e := fun x hx hxe => by
      have halloc := (hs.linked.alloc x).2 (.inl hx)
      rw [hxe, ← htab.alloc, hent.fresh] at halloc
      exact absurd halloc Bool.false_ne_true
    have hnats : ∀ x ∈ A, ∃ ifps ref me,
        s'.tab.nat x = { s.tab.nat x with natIfps := ifps, natRef := ref, natMe := me } := fun x hx => by
      obtain ⟨f, -, hf⟩ := htab.nat x ((hs.linked.alloc x).2 (.inl hx))
      exact ⟨f, _, _, (hent.others x (hne x hx)).trans hf⟩
    -- the new session and another one
    have hnewx : ∀ x ∈ A, SameService (s'.tab.nat e) (s'.tab.nat x) →
        (s'.tab.nat e).natNdstaddr = (s'.tab.nat x).natNdstaddr := by
      intro x hx hsame
      obtain ⟨f, r', m', hf⟩ := hnats x hx
      rw [hent.entry, hf] at hsame ⊢
      obtain ⟨g1, g2, q, g3, g4⟩ := hsame
      rw [h1] at g1
      rw [h2] at g2
      have hq' : dport? (s.tab.nat x) = some q := g4
      rw [h6 q g3] at hq'
      have hfor : c.ForService M (s.tab.nat x) := ⟨g1.symm, g2.symm, hq'⟩
      have hkx := hk x ((session_iff hs.linked).2 hx) hfor
      rw [h3]
      exact (hs.same_addr hst hstm hifp hrdr hnat hx hfor hkx).symm
    refine ⟨e :: A, O, H', hheld, hlinked, fun x => (hfix x).trans (hs.fixed x), ?_, fun x hx => ?_,
      fun x hx y hy hsame => ?_⟩
    · exact hinv.congr (by rw [hlist]; exact fun _ hx => hx) fun h _ => by rw [hhm]
    · rcases List.mem_cons.1 hx with rfl | hx
      · rw [hent.entry, hhm]
        exact hrem
      · refine (hs.sess x hx).congr (hnats x hx) fun h hh => ?_
        rw [hhm]
        exact hold h (hs.held.hm_of_entry ((hs.linked.alloc x).2 (.inl hx)) hh)
    · rcases List.mem_cons.1 hx with hxe | hxA <;> rcases List.mem_cons.1 hy with hye | hyA
      · rw [hxe, hye]
      · rw [hxe] at hsame ⊢
        exact hnewx y hyA hsame
      · rw [hye] at hsame ⊢
        obtain ⟨g1, g2, q, g3, g4⟩ := hsame
        exact (hnewx x hxA ⟨g1.symm, g2.symm, q, g4, g3⟩).symm
      · obtain ⟨i, r', m', hx'⟩ := hnats x hxA
        obtain ⟨j, r'', m'', hy'⟩ := hnats y hyA
        rw [hx', hy'] at hsame ⊢
        exact hs.sticks x hxA y hyA hsame

/-- **Every call.** -/
theorem Sticky.step (hs : Sticky M addr₀ s₀ s A O H) (hrules : ∀ n, s₀.live n = true → (s₀.ipn n).StickyRdr)
    (h₀ : Start s₀) {op : Op} (hl : Legal s₀ s op) (hin : op.Incoming addr₀) (hk : op.Kept M s)
    (heq : step M proxyMatch s op = some s') : ∃ A' O' H', Sticky M addr₀ s₀ s' A' O' H' := by
  by_cases hadd : ∃ fuel c, op = .add fuel c
  · obtain ⟨fuel, c, rfl⟩ := hadd
    obtain ⟨⟨t, r⟩, ht, rfl⟩ := map_eq_some_iff.1 heq
    exact hs.add hrules h₀ hl hin hk ht
  · have ht := thin_step hs.held hl (fun fuel c hop => hadd ⟨fuel, c, hop⟩) heq
    obtain ⟨A', O', H', hlinked, hsub⟩ := ht.linked hs.linked
    refine ⟨A', O', H', hs.fewer ht.held hlinked hsub ht.fixed (hs.hm.congr ht.maplist fun h _ => ht.hm h)
      (fun h _ => ht.hm h) fun x hx => ?_⟩
    obtain ⟨-, ref, me, hx'⟩ := ht.nat x ((hlinked.alloc x).2 (.inl hx))
    exact ⟨_, ref, me, hx'⟩

/-- A rule `rdr .. 10.0.0.1 port 80 -> .. port 80 tcp round-robin sticky`, on a machine that stores the low byte
first. -/
def webRule (flags : Flags) (addr mask next : Word) : Ipnat where
  inFlags := IPN_TCP ||| IPN_ROUNDR ||| IPN_STICKY ||| flags
  inRedir := NAT_REDIRECT
  inIfps _ := none
  inNamed := false
  inOsrcmsk := 0
  inOdstmsk := 0xffffffff
  inNsrcaddr := 0
  inNsrcmsk := 0
  inNsrcatype := .normal
  inSnip := 0
  inNdstaddr := addr
  inNdstmsk := mask
  inNdstatype := .normal
  inDnip := next
  inSpnext := 0
  inSpmin := 0
  inSpmax := 0
  inDpnext := 80
  inDpmin := 80
  inDpmax := 80
  inOdport := 80
  inDtop := 80
  inPpip := 0
  inIppip := 0
  inStepnext := 0
  inMssclamp := 0
  inDlocal := false
  inApr := none
  inUse := 2

/-- A packet from 1.2.3.4 to 10.0.0.1 port 80 that matched the rule `np`. -/
def webCall (np e : ℕ) (sport : BitVec 16) : Call where
  fin :=
    { finP := IPPROTO_TCP, finOut := false, finRev := false, finFlx := 0, finOff := 0, finCksum := 0, finDlen := 0
      finIfp := none, finSaddr := 0x04030201, finDaddr := 0x0100000a, finData := fun i => if i then 80 else sport
      finIp := ⟨0x04030201, 0x0100000a, 0, []⟩, finDp := ⟨0, 0, 0, 0, true, [], []⟩ }
  np := np
  natsave := none
  flags := IPN_TCP
  dir := .inbound
  new := some e
  hmNew _ := some e
  random _ := 0
  ifpaddr := none
  dstlist _ _ := none
  proxy _ := none

/-- The system with the rules 0 and 1. -/
def webSys (rule : ℕ → Ipnat) : Sys where
  tab := Softn.init 2047 30000 22
  maplist := []
  hm _ := ⟨0, 0, 0, 0, 0, 0, 0⟩
  ipn := rule
  live n := n < 2

theorem webSys_start (rule : ℕ → Ipnat) (h : ∀ n < 2, 0 < (rule n).inUse) : Start (webSys rule) :=
  ⟨⟨2047, 30000, 22, by decide, rfl⟩, rfl, fun n hn => h n (by simpa [webSys] using hn)⟩

/-- The state after a connection. -/
def after (s : Sys) (c : Call) : Sys := ((ipfNatAdd littleEndian (fun _ _ => true) 1 s c).getD (s, none)).1

theorem step_after (h : (ipfNatAdd littleEndian (fun _ _ => true) 1 s c).isSome = true) :
    step littleEndian (fun _ _ => true) s (.add 1 c) = some (after s c) := by
  obtain ⟨r, hr⟩ := isSome_iff_exists.1 h
  rw [step, after, hr]
  rfl

theorem webRule_stickyRdr {flags : Flags}
    (h : has (IPN_TCP ||| IPN_ROUNDR ||| IPN_STICKY ||| flags) IPN_STICKY = true ∧
      has (IPN_TCP ||| IPN_ROUNDR ||| IPN_STICKY ||| flags) (IPN_ROUNDR ||| IPN_SPLIT) = true) (addr mask next : Word) :
    (webRule flags addr mask next).StickyRdr := ⟨rfl, h.1, h.2⟩

/-- Two rules with one address each: 192.168.1.1 and 192.168.1.2. -/
def twoRules : Sys := webSys fun n => webRule 0 (if n = 0 then 0x0101a8c0 else 0x0201a8c0) 0xffffffff 0

/-- The client has one connection, through the first rule. -/
def oneClient : Sys := after twoRules (webCall 0 0 1024)

/-- What the table has after the first packet is its session. -/
theorem Start.first_alloc {fuel : ℕ} {r : Sys × Option ℕ} (h₀ : Start s₀) (hc : c.Fresh s₀ s₀.loaded)
    (hr : ipfNatAdd M proxyMatch fuel s₀ c = some r) (hx : r.1.tab.alloc x = true) : c.new = some x := by
  have hnone : ∀ x, s₀.tab.alloc x = false := by
    obtain ⟨size, max, maxbucket, -, htab⟩ := h₀.tab
    intro x
    rw [htab]
    rfl
  obtain ⟨-, -, ⟨htab, -⟩ | ⟨e, m, nat, aps, hnew, hchoose, -, hent, -⟩⟩ :=
    add_cases (start_held h₀) hc (fun e _ => hnone e) hr
  · rw [htab.alloc, hnone] at hx
    exact absurd hx Bool.false_ne_true
  · obtain ⟨-, hq⟩ := choose_spec (start_held h₀) hc hchoose
    rw [hent.alloc, hq.tab.untouched.alloc] at hx
    by_contra hne
    rw [Function.update_of_ne fun hxe => hne (by rw [hnew, hxe]), hnone] at hx
    exact absurd hx Bool.false_ne_true

/-- It is the only session. -/
theorem oneClient_alloc (hx : oneClient.tab.alloc x = true) : x = 0 := by
  obtain ⟨r, hr⟩ : ∃ r, ipfNatAdd littleEndian (fun _ _ => true) 1 twoRules (webCall 0 0 1024) = some r :=
    isSome_iff_exists.1 (by decide)
  rw [show oneClient = r.1 by rw [oneClient, after, hr]; rfl] at hx
  have hnew := (webSys_start _ fun _ _ => (by decide : (0 : ℤ) < 2)).first_alloc
    (c := webCall 0 0 1024) ⟨by decide, fun _ _ _ => by simp [webSys]⟩ hr hx
  exact (some.inj hnew).symm

/-- One rule with two addresses, `rdr .. -> 192.168.1.1,192.168.1.2 port 80 tcp round-robin sticky`. -/
def splitRule : Sys := webSys fun _ => webRule IPN_SPLIT 0x0101a8c0 0x0201a8c0 0xc0a80101

end Ipfilter.NatAdd
