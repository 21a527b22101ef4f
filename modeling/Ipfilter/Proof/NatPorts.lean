import Ipfilter.Proof.NatUncreate
import Ipfilter.Spec.NatPorts

/-!
# Rules for `ipf_nat_newmap`

* `blockPort_toNat`: the port of a block, a number modulo 65536;
* `mapPick_fault`: the divisions by 0 of a round, and the rules that have none;
* `mapPick_port`: the port that a rule with blocks chooses;
* `runs_fixed`, `Rounds.fixed`: a rule keeps its ports and its flags;
* `fits_sound`: a safe rule is sound;
* `newmap_first`: the first round where there are no sessions;
* `admitted_sound`: which rules that `SIOCADNAT` accepts are sound;
* `admitted_not_sound`: a rule for blocks of no addresses.
-/

namespace Ipfilter.NatAdd

open Chain Masks NatTab Refs Option BitVec
open State hiding FrInfo
open BitVec (ofNat toNat)
open Prod (mk.inj)

variable {M : Machine} {proxyMatch : FrInfo → NatT → Bool} {s₀ s t u : Sys} {np np' : Ipnat} {c : Call}
  {l x : ℕ} {held : Bool} {addr a b : Word} {p port : BitVec 16} {hm hm' : Option ℕ} {nat : NatT}

/-! ## The port of a block -/

/-- **The port of a block,** as the host sees it. -/
theorem blockPort_toNat (np : Ipnat) (sport : BitVec 16) (k : Word) : (M.htons (blockPort M np sport k)).toNat =
    (1024 + (sport.toNat % np.inPpip.toNat + np.inPpip.toNat * np.hostIndex k)) % 65536 := by
  have hwidth : (np.inIppip.setWidth 32).toNat = np.inIppip.toNat := toNat_setWidth_of_le (by decide)
  have hindex : (k % np.inIppip.setWidth 32).toNat = np.hostIndex k := by rw [toNat_umod, hwidth, Ipnat.hostIndex]
  have hmin : MAPBLK_MINPORT.toNat = 1024 := by decide
  unfold blockPort
  rw [htons_htons, toNat_add, toNat_add, toNat_mul, toNat_umod, toNat_setWidth, hindex,
    hmin, Nat.mul_mod_mod, Nat.add_mod_mod, Nat.mod_add_mod, add_comm 1024]

/-- The port of a block that ends by 65535: it is not 0, and the place of the host in its block can be read off it. -/
theorem blockPort_fit {np : Ipnat} {k : Word} (sport : BitVec 16) (hp : np.inPpip ≠ 0)
    (hfit : 1024 + np.inPpip.toNat * (np.hostIndex k + 1) ≤ 65536) : 1024 ≤ (M.htons (blockPort M np sport k)).toNat ∧
      ((M.htons (blockPort M np sport k)).toNat - 1024) / np.inPpip.toNat = np.hostIndex k := by
  have hpos : 0 < np.inPpip.toNat := pos_of_ne_zero fun h => hp (eq_of_toNat_eq h)
  have hlt := Nat.mod_lt sport.toNat hpos
  rw [Nat.mul_add, Nat.mul_one] at hfit
  rw [blockPort_toNat, Nat.mod_eq_of_lt (by omega), Nat.add_sub_cancel_left]
  refine ⟨by omega, ?_⟩
  rw [Nat.add_mul_div_left _ _ hpos, Nat.div_eq_of_lt hlt, zero_add]

/-! ## A round -/

/-- `ipf_nat_newmap` divides by 0 for the address only if `in_ippip` is 0. -/
theorem mapAddr_fault (h : mapAddr M np c l held addr = .error .fault) :
    has np.inRedir NAT_MAPBLK = true ∧ np.inPpip ≠ 0 ∧ np.inIppip = 0 := by
  unfold mapAddr at h
  dsimp only at h
  split at h
  · exact absurd h (by simp)
  split at h
  · exact absurd h (by simp)
  split at h
  · rename_i hblk
    split at h
    · exact absurd h (by simp)
    split at h
    · rename_i hgo hip
      refine ⟨hblk, fun hp => hgo (.inl ?_), hip⟩
      simp [hp]
    · exact absurd h (by simp)
  -- the other branches have no division
  repeat' split at h
  all_goals exact absurd h (by simp)

/-- `ipf_nat_newmap` divides by 0 for the port only if a size of a block is 0, or the number of ports. -/
theorem mapPort_fault (h : mapPort M np c l port = .error .fault) : has np.inRedir NAT_MAPBLK = false ∧
    (has np.inFlags IPN_AUTOPORTMAP = true ∧ (np.inPpip = 0 ∨ np.inIppip = 0) ∨
      has np.inFlags IPN_SEQUENTIAL = false ∧ np.inSpmin.toNat = np.inSpmax.toNat + 1) := by
  unfold mapPort at h
  dsimp only at h
  split at h
  · rename_i hauto
    refine ⟨hauto.2.1, .inl ⟨hauto.2.2, ?_⟩⟩
    split at h
    · rename_i hp
      exact .inl hp
    split at h
    · rename_i hip
      exact .inr hip
    · exact absurd h (by simp)
  split at h
  · rename_i hrange
    split at h
    · rename_i hzero
      refine ⟨hrange.1, .inr ⟨hzero.1, ?_⟩⟩
      have hnat := congrArg toNat hzero.2
      rw [toNat_add, toNat_sub, toNat_setWidth, toNat_setWidth] at hnat
      have hmin := np.inSpmin.isLt
      have hmax := np.inSpmax.isLt
      simp at hnat
      omega
    · exact absurd h (by simp)
  · exact absurd h (by simp)

/-- The fields of a rule that its use leaves alone. -/
theorem fixed_ports {np np' : Ipnat} (h : np'.fixed = np.fixed) : np'.inRedir = np.inRedir ∧ np'.inFlags = np.inFlags ∧
    np'.inPpip = np.inPpip ∧ np'.inIppip = np.inIppip ∧ np'.inSpmin = np.inSpmin ∧ np'.inSpmax = np.inSpmax ∧
    np'.inOsrcmsk = np.inOsrcmsk := by
  unfold Ipnat.fixed at h
  simp only [Ipnat.mk.injEq] at h
  tauto

/-- **No round divides by 0** if no divisor of the rule is 0. -/
theorem mapPick_fault (hz : np.NoZero) : mapPick M np c l held addr ≠ .error .fault := by
  intro h
  unfold mapPick at h
  cases ha : mapAddr M np c l held addr with
  | error e =>
    rw [ha] at h
    obtain rfl : e = .fault := Except.error.inj h
    obtain ⟨hblk, hp, hip⟩ := mapAddr_fault ha
    exact hz.mapblk hblk hp hip
  | ok q =>
    obtain ⟨np₁, a, p⟩ := q
    rw [ha] at h
    change Except.bind (mapPort M np₁ c l p) _ = _ at h
    cases hp : mapPort M np₁ c l p with
    | error e =>
      rw [hp] at h
      obtain rfl : e = .fault := Except.error.inj h
      obtain ⟨hredir, hflags, hppip, hippip, hmin, hmax, -⟩ := fixed_ports (mapAddr_keeps ha).1
      obtain ⟨hblk, ⟨hauto, hzero⟩ | ⟨hseq, hrange⟩⟩ := mapPort_fault hp
      · obtain ⟨h1, h2⟩ := hz.auto (hredir ▸ hblk) (hflags ▸ hauto)
        rcases hzero with h0 | h0
        · exact h1 (hppip ▸ h0)
        · exact h2 (hippip ▸ h0)
      · exact hz.range (hredir ▸ hblk) (hflags ▸ hseq) (by rw [← hmin, ← hmax, hrange])
    | ok q =>
      rw [hp] at h
      exact absurd h (by simp [Except.bind, pure, Except.pure])

/-- A rule for blocks is no rule that maps both ways. -/
theorem mapblk_redir (h : has np.inRedir NAT_MAPBLK = true) : np.inRedir ≠ NAT_BIMAP := by
  intro hbi
  rw [hbi] at h
  exact absurd h (by decide)

/-- The port that `map-block` chooses with the address. -/
theorem mapAddr_port (hblk : has np.inRedir NAT_MAPBLK = true) (hf : has c.flags IPN_TCPUDP = true)
    (h : mapAddr M np c l held addr = .ok (np', a, p)) :
    np.inPpip ≠ 0 ∧ ∃ j ≤ l, p = blockPort M np (M.htons (c.mapSport M) + ofNat 16 j) (np.inside M c.fin.finSaddr) := by
  unfold mapAddr at h
  by_cases hlast : np.inNsrcmsk = 0xffffffff ∧ np.inSpnext = 0 ∧ l > 0
  · rw [if_pos hlast] at h
    exact absurd h (by simp)
  rw [if_neg hlast, if_neg (fun hbi => mapblk_redir hblk hbi.1), if_pos hblk] at h
  by_cases hend : l ≥ np.inPpip.toNat ∨ l > 0 ∧ has c.flags IPN_TCPUDP = false
  · rw [if_pos hend] at h
    exact absurd h (by simp)
  have hp : np.inPpip ≠ 0 := fun hp => hend (.inl (by simp [hp]))
  rw [if_neg hend] at h
  by_cases hip : np.inIppip = 0
  · rw [if_pos hip] at h
    exact absurd h (by simp)
  rw [if_neg hip] at h
  obtain ⟨-, h2⟩ := mk.inj (Except.ok.inj h)
  cases h2
  rw [if_pos ⟨hf, hp⟩]
  unfold Ipnat.inside
  rw [if_pos hblk]
  exact ⟨hp, l, le_rfl, rfl⟩

/-- The port of a rule with automatic ports. -/
theorem mapPort_auto (hz : np.NoZero) (hblk : has np.inRedir NAT_MAPBLK = false) (hauto : has np.inFlags IPN_AUTOPORTMAP = true)
    (hf : has c.flags IPN_TCPUDP = true) (h : mapPort M np c l port = .ok (np', p)) :
    np.inPpip ≠ 0 ∧ ∃ j ≤ l, p = blockPort M np (M.htons (c.mapSport M) + ofNat 16 j) (np.inside M c.fin.finSaddr) := by
  obtain ⟨hp, hip⟩ := hz.auto hblk hauto
  unfold mapPort at h
  rw [if_pos ⟨hf, hblk, hauto⟩, if_neg hp, if_neg hip] at h
  cases Except.ok.inj h
  unfold Ipnat.inside
  rw [if_neg (by simp [hblk])]
  exact ⟨hp, l % np.inPpip.toNat, Nat.mod_le _ _, rfl⟩

/-- `map-block` leaves the choice of the port to the choice of the address. -/
theorem mapPort_mapblk (hblk : has np.inRedir NAT_MAPBLK = true) : mapPort M np c l port = .ok (np, port) := by
  unfold mapPort
  rw [if_neg (by simp [hblk]), if_neg (by simp [hblk])]

/-- Rules that differ in what their use changes have the same blocks. -/
theorem blockPort_fixed (h : np'.fixed = np.fixed) (sport : BitVec 16) (addr : Word) :
    blockPort M np' sport (np'.inside M addr) = blockPort M np sport (np.inside M addr) := by
  obtain ⟨hredir, -, hppip, hippip, -, -, hmsk⟩ := fixed_ports h
  unfold blockPort Ipnat.inside
  rw [hredir, hppip, hippip, hmsk]

theorem NoZero_fixed (h : np'.fixed = np.fixed) (hz : np.NoZero) : np'.NoZero := by
  obtain ⟨hredir, hflags, hppip, hippip, hmin, hmax, -⟩ := fixed_ports h
  constructor
  · rw [hredir, hppip, hippip]
    exact hz.mapblk
  · rw [hredir, hflags, hppip, hippip]
    exact hz.auto
  · rw [hredir, hflags, hmin, hmax]
    exact hz.range

/-- **The port that a rule with blocks chooses** for a TCP or UDP packet is one of the block, unless it comes out as 0. -/
theorem mapPick_port (hz : np.NoZero) (hb : np.Blocks) (hf : has c.flags IPN_TCPUDP = true)
    (h : mapPick M np c l held addr = .ok (np', a, p)) :
    np.inPpip ≠ 0 ∧ ∃ j ≤ l, ∃ q, q = blockPort M np (M.htons (c.mapSport M) + ofNat 16 j)
      (np.inside M c.fin.finSaddr) ∧
      p = if q = 0 then c.mapSport M else q := by
  unfold mapPick at h
  cases ha : mapAddr M np c l held addr with
  | error e =>
    rw [ha] at h
    exact absurd h (by simp [bind, Except.bind])
  | ok q =>
    obtain ⟨np₁, a₁, p₁⟩ := q
    rw [ha] at h
    change Except.bind (mapPort M np₁ c l p₁) _ = _ at h
    have hfixed := (mapAddr_keeps ha).1
    obtain ⟨hredir, hflags, hppip, -⟩ := fixed_ports hfixed
    cases hp : mapPort M np₁ c l p₁ with
    | error e =>
      rw [hp] at h
      exact absurd h (by simp [Except.bind])
    | ok q =>
      obtain ⟨np₂, p₂⟩ := q
      rw [hp] at h
      obtain ⟨-, h2⟩ := mk.inj (Except.ok.inj h)
      cases h2
      have hbits : has c.flags (IPN_TCPUDPICMP ||| IPN_ICMPERR) = true := by
        have hjoin : IPN_TCPUDPICMP ||| IPN_ICMPERR = IPN_TCPUDP ||| (IPN_ICMPQUERY ||| IPN_ICMPERR) := by decide
        rw [hjoin, has_flags, hf, Bool.true_or]
      have hblock : np.inPpip ≠ 0 ∧
          ∃ j ≤ l, p₂ = blockPort M np (M.htons (c.mapSport M) + ofNat 16 j) (np.inside M c.fin.finSaddr) := by
        cases hblk : has np.inRedir NAT_MAPBLK with
        | true =>
          rw [mapPort_mapblk (hredir ▸ hblk)] at hp
          cases Except.ok.inj hp
          exact mapAddr_port hblk hf ha
        | false =>
          have hauto : has np.inFlags IPN_AUTOPORTMAP = true := hb.resolve_left (by simp [hblk])
          obtain ⟨hp0, j, hj, heq⟩ := mapPort_auto (NoZero_fixed hfixed hz) (hredir ▸ hblk) (hflags ▸ hauto) hf hp
          exact ⟨hppip ▸ hp0, j, hj, heq.trans (blockPort_fixed hfixed _ _)⟩
      obtain ⟨hp0, j, hj, hport⟩ := hblock
      refine ⟨hp0, j, hj, p₂, hport, ?_⟩
      by_cases hzero : p₂ = 0
      · rw [if_pos ⟨hzero, hbits⟩, if_pos hzero]
      · rw [if_neg (fun hzz => hzero hzz.1), if_neg hzero]

/-! ## What a rule keeps -/

theorem ruleDeref_fixed {n : ℕ} (h : ipfNatRuleDeref s n = some t) : (t.ipn x).fixed = (s.ipn x).fixed := by
  unfold ipfNatRuleDeref at h
  split at h
  · exact absurd h (by simp)
  · dsimp only at h
    split at h
    all_goals rw [← some.inj h]
    all_goals exact updRule_fixed s n (f := .addUse (-1)) rfl x

theorem dropHm_fixed {o : Option ℕ} (h : dropHm s o = some t) : (t.ipn x).fixed = (s.ipn x).fixed := by
  cases o with
  | none => rw [← some.inj h]
  | some y =>
    change ipfNatHostmapdel s y = some t at h
    unfold ipfNatHostmapdel at h
    split at h
    · exact absurd h (by simp)
    · dsimp only at h
      split at h
      · obtain ⟨u, hu, hrest⟩ := bind_eq_some_iff.1 h
        rw [← some.inj hrest]
        have hfixed : (u.ipn x).fixed = ((s.updHm y (.addRef (-1))).ipn x).fixed := ruleDeref_fixed hu
        exact hfixed
      · rw [← some.inj h]
        rfl

theorem mapHm_fixed (h : mapHm M s c l hm = some (t, hm', addr)) : (t.ipn x).fixed = (s.ipn x).fixed := by
  unfold mapHm at h
  dsimp only at h
  split at h
  · cases hr : ipfNatHostmap s (some c.np) c.fin.finSaddr c.fin.finDaddr (M.htonl (s.ipn c.np).inSnip) 0
        (c.hmNew false) with
    | mk u o =>
      rw [hr] at h
      cases h
      have hquiet : Quiet none s u ∧ u.tab = s.tab := quiet_hostmap hr
      exact hquiet.1.fixed x
  split at h
  · obtain ⟨u, hu, hrest⟩ := bind_eq_some_iff.1 h
    cases hrest
    exact dropHm_fixed hu
  · cases h
    rfl

/-- What a round of the search does to a rule, once it has chosen an address and a port. -/
theorem probe_fixed {q : Word × BitVec 16} {o : Option ℕ} (hnp : t.rule? c.np = some np)
    (hpick : mapPick M np c l held addr = .ok (np', q.1, q.2))
    (hlook : (t.updRule c.np fun _ => np').lookup M proxyMatch (mapProbe M c q.1 q.2) = some (u, o)) :
    (u.ipn x).fixed = (t.ipn x).fixed := by
  obtain ⟨-, rfl⟩ := rule?_some.1 hnp
  obtain ⟨hfixed, huse⟩ := mapPick_keeps hpick
  exact ((mild_updRule t c.np hfixed huse).trans (mild_lookup (l := mapProbe M c q.1 q.2) (probe_plain c) hlook)).fixed x

/-- **The rule of the search keeps its ports and its flags** from round to round. -/
theorem Rounds.fixed {stIp : Word} {stPort : BitVec 16} (hr : Rounds M proxyMatch c stIp stPort s₀ l s hm) :
    (s.ipn c.np).fixed = (s₀.ipn c.np).fixed := by
  induction hr with
  | first => rfl
  | @next l s t u hm hm' addr a p np np' x _ hround hnp hpick hlook _ ih =>
    exact (@probe_fixed M proxyMatch _ _ _ _ _ _ _ _ _ (a, p) _ hnp hpick hlook).trans ((mapHm_fixed hround).trans ih)

/-- **What the search ends with** was chosen in one of its rounds, from a rule with the same ports and flags. -/
theorem newmapLoop_pick {stIp : Word} {stPort : BitVec 16} : ∀ {fuel l : ℕ} {s s' : Sys} {hm hm' : Option ℕ},
    newmapLoop M proxyMatch c stIp stPort fuel l s hm = some (s', hm', some (a, p)) →
      ∃ np np' l held addr, np.fixed = (s.ipn c.np).fixed ∧ mapPick M np c l held addr = .ok (np', a, p) := by
  intro fuel
  induction fuel with
  | zero => exact fun h => absurd h (by simp [newmapLoop])
  | succ fuel ih =>
    intro l s s' hm hm' h
    rw [newmapLoop] at h
    obtain ⟨⟨t, hm₁, addr⟩, hround, h⟩ := bind_eq_some_iff.1 h
    obtain ⟨np, hnp, h⟩ := bind_eq_some_iff.1 h
    have hfixed : np.fixed = (s.ipn c.np).fixed := by
      rw [(rule?_some.1 hnp).2]
      exact mapHm_fixed hround
    cases hpick : mapPick M np c l hm₁.isSome (M.ntohl addr) with
    | error e =>
      rw [hpick] at h
      cases e with
      | fault => exact absurd h (by simp)
      | refused => exact absurd (mk.inj (mk.inj (some.inj h)).2).2 (by simp)
    | ok q =>
      obtain ⟨np', a', p'⟩ := q
      rw [hpick] at h
      obtain ⟨⟨u, natl⟩, hlook, h⟩ := bind_eq_some_iff.1 h
      cases natl with
      | none =>
        obtain ⟨-, h2⟩ := mk.inj (some.inj h)
        obtain ⟨rfl, rfl⟩ := mk.inj (some.inj (mk.inj h2).2)
        exact ⟨np, np', l, _, _, hfixed, hpick⟩
      | some y =>
        dsimp only at h
        split at h
        · cases h
        · obtain ⟨np₂, np₃, l', held, addr', hfix₂, hpick₂⟩ := ih h
          refine ⟨np₂, np₃, l', held, addr', hfix₂.trans ?_, hpick₂⟩
          exact (@probe_fixed M proxyMatch _ _ _ _ _ _ _ _ _ (a', p') _ hnp hpick hlook).trans (mapHm_fixed hround)

/-! ## Safe rules -/

/-- **A rule keeps its ports and its flags** in every state of the system. -/
theorem runs_fixed (h₀ : Start s₀) (hr : Runs M proxyMatch s₀ s) : (s.ipn x).fixed = (s₀.ipn x).fixed := by
  induction hr with
  | start => rfl
  | call op hr hlegal heq ih =>
    obtain ⟨hs, -⟩ := runs_linked h₀ hr
    refine Eq.trans ?_ ih
    by_cases hadd : ∃ fuel c, op = .add fuel c
    · obtain ⟨fuel, c, rfl⟩ := hadd
      obtain ⟨⟨t, r⟩, ht, rfl⟩ := map_eq_some_iff.1 heq
      have hfresh : c.Fresh _ s₀.loaded := ⟨loaded_pos h₀ hlegal.1, hlegal.2.2⟩
      exact (add_cases hs hfresh hlegal.2.1 ht).2.1 x
    · exact (thin_step hs hlegal (fun fuel c hop => hadd ⟨fuel, c, hop⟩) heq).fixed x
  | uncreate fin hr heq ih =>
    obtain ⟨hs, A, O, H, hl⟩ := runs_linked h₀ hr
    exact ((uncreate_linked hs hl heq).2.2 _).trans ih

theorem Asked.fixed (h : Asked M proxyMatch np s₀ s c) : (s.ipn c.np).fixed = np.fixed := by
  obtain ⟨use, hrule⟩ := h.rule
  rw [runs_fixed h.start h.run, hrule]
  rfl

/-- The port of a session that was mapped, with the rule as it was loaded. -/
theorem Maps.natNsport (hz : np.NoZero) (hb : np.Blocks) (hf : has c.flags IPN_TCPUDP = true)
    (h : Maps M proxyMatch np s₀ c nat) : np.inPpip ≠ 0 ∧
      ∃ sport q, q = blockPort M np sport (np.inside M c.fin.finSaddr) ∧
        nat.natNsport = if q = 0 then c.mapSport M else q := by
  obtain ⟨s, fuel, m, hask, hnew, hnat⟩ := h
  unfold ipfNatNewmap at hnew
  obtain ⟨np₀, -, hnew⟩ := bind_eq_some_iff.1 hnew
  obtain ⟨⟨t, hm, pick⟩, hloop, hnew⟩ := bind_eq_some_iff.1 hnew
  cases pick with
  | none =>
    rw [← some.inj hnew] at hnat
    exact absurd hnat (by simp)
  | some q =>
    obtain ⟨a, p⟩ := q
    obtain ⟨np₁, np₂, l, held, addr, hfix, hpick⟩ := newmapLoop_pick hloop
    have hfixed : np₁.fixed = np.fixed := hfix.trans hask.fixed
    obtain ⟨hredir, hflags, hppip, -⟩ := fixed_ports hfixed
    have hb' : np₁.Blocks := by
      unfold Ipnat.Blocks
      rw [hredir, hflags]
      exact hb
    obtain ⟨hp, j, -, q, hq, hport⟩ := mapPick_port (NoZero_fixed hfixed hz) hb' hf hpick
    have hsame : nat.natNsport = p := by
      have hmap : nat = mapNat M c a p := by
        rw [← some.inj hnew] at hnat
        exact (some.inj hnat).symm
      rw [hmap, mapNat]
      dsimp only
      rw [if_pos hf]
    rw [blockPort_fixed hfixed] at hq
    exact ⟨hppip ▸ hp, _, q, hq, hsame.trans hport⟩

/-- The port of a session that was mapped by a safe rule is one of the block. -/
theorem Maps.fit (hfit : np.Fits M) (hb : np.Blocks) (hf : has c.flags IPN_TCPUDP = true)
    (h : Maps M proxyMatch np s₀ c nat) : 1024 ≤ (M.htons nat.natNsport).toNat ∧
      ((M.htons nat.natNsport).toNat - 1024) / np.inPpip.toNat = np.hostIndex (np.inside M c.fin.finSaddr) := by
  obtain ⟨hz, hports⟩ := hfit h.choose_spec.choose_spec.choose_spec.1.mapped
  obtain ⟨hp, sport, q, rfl, hport⟩ := h.natNsport hz hb hf
  have hin : np.Inside M (np.inside M c.fin.finSaddr) := by
    intro hblk
    rw [Ipnat.inside, if_pos hblk, BitVec.and_assoc, BitVec.and_self]
  obtain ⟨hmin, hdiv⟩ := blockPort_fit (M := M) sport hp (hports hb _ hin)
  have hne : blockPort M np sport (np.inside M c.fin.finSaddr) ≠ 0 := by
    intro h0
    rw [htons_eq_zero.2 h0] at hmin
    exact absurd hmin (by simp)
  rw [hport, if_neg hne]
  exact ⟨hmin, hdiv⟩

/-- **A safe rule is sound.** -/
theorem fits_sound (hfit : np.Fits M) : Sound M proxyMatch np where
  divides s₀ s c hask := by
    rintro ⟨l, t, u, hm, hm', addr, np', hr, hround, hnp, hpick⟩
    have hfixed : np'.fixed = np.fixed := by
      rw [(rule?_some.1 hnp).2]
      exact (mapHm_fixed hround).trans (hr.fixed.trans hask.fixed)
    exact mapPick_fault (NoZero_fixed hfixed (hfit hask.mapped).1) hpick
  range s₀ c nat h hb hf := (h.fit hfit hb hf).1
  apart s₀ c c' nat nat' h h' hb hf hf' _ hne := by
    intro heq
    have hport : nat.natNsport = nat'.natNsport := (mk.inj heq).2
    apply hne
    rw [← (h.fit hfit hb hf).2, ← (h'.fit hfit hb hf').2, hport]

/-! ## The first packet -/

/-- A system where two rules with the same content were loaded. -/
def loadedSys (np : Ipnat) : Sys := webSys fun _ => { np with inUse := 1 }

/-- A packet of the host `addr` to port 80 of 5.6.7.8, or a ping. There is no memory for host maps. -/
def firstCall (tcp : Bool) (addr : Word) (sport : BitVec 16) : Call :=
  { outCall tcp 0 fun _ => 0 with
    fin := { (outCall tcp 0 fun _ => 0).fin with
      finFlx := if tcp then 0 else FI_ICMPQUERY
      finSaddr := addr
      finData := fun i => if i then 80 else sport }
    hmNew := fun _ => none
    ifpaddr := some 0 }

theorem loadedSys_start (np : Ipnat) : Start (loadedSys np) := webSys_start _ fun _ _ => (by decide : (0 : ℤ) < 1)

theorem first_asked (hmap : np.Mapped) (tcp : Bool) (addr : Word) (sport : BitVec 16) :
    Asked M proxyMatch np (loadedSys np) (loadedSys np) (firstCall tcp addr sport) where
  mapped := hmap
  start := loadedSys_start np
  rule := ⟨1, rfl⟩
  run := .start
  legal _ := ⟨rfl, fun _ _ => rfl, fun _ _ h => absurd h (by simp [firstCall])⟩
  checks := by
    refine ⟨rfl, ?_, rfl, rfl⟩
    unfold checkFlags
    cases tcp with
    | true =>
      have hlong : has (firstCall true addr sport).fin.finFlx FI_SHORT = false := (by decide : has 0 FI_SHORT = false)
      have hp : (firstCall true addr sport).fin.finP = IPPROTO_TCP := rfl
      rw [if_pos ⟨hlong, rfl⟩, if_pos hp]
      rfl
    | false =>
      have hlong : has (firstCall false addr sport).fin.finFlx FI_SHORT = false :=
        (by decide : has FI_ICMPQUERY FI_SHORT = false)
      have hquery : has (firstCall false addr sport).fin.finFlx FI_ICMPQUERY = true :=
        (by decide : has FI_ICMPQUERY FI_ICMPQUERY = true)
      have hp : (firstCall false addr sport).fin.finP = IPPROTO_ICMP := rfl
      rw [if_pos ⟨hlong, rfl⟩, hp, if_neg (by decide), if_neg (by decide), if_pos ⟨rfl, hquery⟩]
      rfl
  out := rfl

theorem first_mapHm (np : Ipnat) (tcp : Bool) (addr : Word) (sport : BitVec 16) :
    mapHm M (loadedSys np) (firstCall tcp addr sport) 0 none = some (loadedSys np, none, M.htonl np.inSnip) := rfl

/-- A division by 0 in the first round. -/
theorem first_divides {tcp : Bool} {sport : BitVec 16}
    (h : mapPick M { np with inUse := 1 } (firstCall tcp addr sport) 0 false np.inSnip = .error .fault) :
    Divides M proxyMatch (loadedSys np) (firstCall tcp addr sport) := by
  refine ⟨0, _, _, _, _, _, _, .first, first_mapHm np tcp addr sport, rfl, ?_⟩
  rw [ntohl_htonl]
  exact h

/-- **Where there are no sessions, the first choice is taken.** -/
theorem first_maps {tcp : Bool} {sport : BitVec 16} (hmap : np.Mapped)
    (h : mapPick M { np with inUse := 1 } (firstCall tcp addr sport) 0 false np.inSnip = .ok (np', a, p)) :
    Maps M proxyMatch np (loadedSys np) (firstCall tcp addr sport) (mapNat M (firstCall tcp addr sport) a p) := by
  have hstart := loadedSys_start np
  obtain ⟨H, hlinked⟩ := start_linked hstart
  -- the lookup finds nothing
  have hlook : ((loadedSys np).updRule 0 fun _ => np').lookup M proxyMatch (mapProbe M (firstCall tcp addr sport) a p) =
      some ((loadedSys np).updRule 0 fun _ => np', none) := by
    obtain ⟨w, o, heq⟩ : ∃ w o, ipfNatLookup M proxyMatch (loadedSys np).tab (mapProbe M (firstCall tcp addr sport) a p) =
        some (w, o) := by
      obtain ⟨w, o, -, -, heq, -⟩ := lookup_linked hlinked (mapProbe M (firstCall tcp addr sport) a p) nofun
      exact ⟨w, o, heq⟩
    have hlook : ((loadedSys np).updRule 0 fun _ => np').lookup M proxyMatch (mapProbe M (firstCall tcp addr sport) a p) =
        some ({ (loadedSys np).updRule 0 fun _ => np' with tab := w }, o) := by
      unfold Sys.lookup
      rw [show ((loadedSys np).updRule 0 fun _ => np').tab = (loadedSys np).tab from rfl, heq]
      rfl
    have hplain : Lookup.Plain (mapProbe M (firstCall tcp addr sport) a p) := probe_plain (firstCall tcp addr sport)
    obtain ⟨hfound, hsame, -⟩ := lookup_cases hplain hlook
    have hnone : o = none := by
      cases o with
      | none => rfl
      | some y =>
        have hfind : (loadedSys np).tab.find (!(mapProbe M (firstCall tcp addr sport) a p).out)
            ((mapProbe M (firstCall tcp addr sport) a p).bucket M (loadedSys np).tab)
            ((mapProbe M (firstCall tcp addr sport) a p).passes M proxyMatch) = some y := hfound.symm
        exact absurd (hlinked.find_some hfind).1 (by simp)
    rw [hlook, hsame hnone, hnone]
  refine ⟨loadedSys np, 1, ⟨(loadedSys np).updRule 0 fun _ => np', none, 0, some (mapNat M (firstCall tcp addr sport) a p),
    false⟩, first_asked hmap tcp addr sport, ?_, rfl⟩
  have hround : newmapLoop M proxyMatch (firstCall tcp addr sport) np.inSnip np.inSpnext 1 0 (loadedSys np) none =
      some ((loadedSys np).updRule 0 fun _ => np', none, some (a, p)) := by
    rw [newmapLoop, first_mapHm]
    simp only [bind_eq_bind, bind_some]
    rw [show (loadedSys np).rule? (firstCall tcp addr sport).np = some { np with inUse := 1 } from rfl, bind_some,
      ntohl_htonl]
    rw [show mapPick M { np with inUse := 1 } (firstCall tcp addr sport) 0 (none : Option ℕ).isSome np.inSnip = _ from h]
    rw [show (firstCall tcp addr sport).np = 0 from rfl]
    dsimp only
    rw [hlook]
    rfl
  unfold ipfNatNewmap
  rw [show (loadedSys np).rule? (firstCall tcp addr sport).np = some { np with inUse := 1 } from rfl]
  simp only [bind_eq_bind, bind_some]
  rw [hround]
  rfl

/-! ## Unsafe rules -/

/-- Once the address is chosen, the port decides how the round goes. -/
theorem mapPick_eq (ha : mapAddr M np c l held addr = .ok (np', a, p)) : mapPick M np c l held addr =
    (mapPort M np' c l p).map fun q =>
      (mapWrap M q.1, a, if q.2 = 0 ∧ has c.flags (IPN_TCPUDPICMP ||| IPN_ICMPERR) then c.mapSport M else q.2) := by
  unfold mapPick
  rw [ha]
  change Except.bind (mapPort M np' c l p) _ = _
  cases mapPort M np' c l p <;> rfl

/-- The first round finds an address, if the interface has one. -/
theorem mapAddr_first (hblk : has np.inRedir NAT_MAPBLK = false) (hif : c.ifpaddr = some b) :
    ∃ np' a, mapAddr M np c 0 held addr = .ok (np', a, 0) ∧ np'.inSpnext = np.inSpnext := by
  have hfirst : ¬(np.inNsrcmsk = 0xffffffff ∧ np.inSpnext = 0 ∧ 0 > 0) := fun h => absurd h.2.2 (by simp)
  unfold mapAddr
  rw [if_neg hfirst]
  by_cases hbi : np.inRedir = NAT_BIMAP ∧ np.inOsrcmsk = np.inNsrcmsk
  · rw [if_pos hbi]
    exact ⟨_, _, rfl, rfl⟩
  rw [if_neg hbi, if_neg (by simp [hblk]), hif]
  by_cases hone : np.inNsrcaddr = 0 ∧ np.inNsrcmsk = 0xffffffff
  · rw [if_pos hone]
    exact ⟨_, _, rfl, rfl⟩
  rw [if_neg hone]
  by_cases hany : np.inNsrcaddr = 0 ∧ np.inNsrcmsk = 0
  · rw [if_pos hany]
    exact ⟨_, _, rfl, rfl⟩
  rw [if_neg hany]
  by_cases hnext : np.inNsrcmsk ≠ 0xffffffff ∧ np.inSpnext = 0 ∧ (0 > 0 ∨ held = false)
  · rw [if_pos hnext]
    exact ⟨_, _, rfl, rfl⟩
  · rw [if_neg hnext]
    exact ⟨_, _, rfl, rfl⟩

/-- `map-block` with a size but no addresses divides by 0. -/
theorem mapblk_divides (hblk : has np.inRedir NAT_MAPBLK = true) (hp : np.inPpip ≠ 0) (hip : np.inIppip = 0) :
    mapPick M np c 0 held addr = .error .fault := by
  have hpos : 0 < np.inPpip.toNat := pos_of_ne_zero fun h => hp (eq_of_toNat_eq h)
  have ha : mapAddr M np c 0 held addr = .error .fault := by
    unfold mapAddr
    rw [if_neg (by simp), if_neg (fun hbi => mapblk_redir hblk hbi.1), if_pos hblk, if_neg (by omega), if_pos hip]
  unfold mapPick
  rw [ha]
  rfl

/-- Automatic ports with a size but no addresses divide by 0. -/
theorem auto_divides (hblk : has np.inRedir NAT_MAPBLK = false) (hauto : has np.inFlags IPN_AUTOPORTMAP = true)
    (hf : has c.flags IPN_TCPUDP = true) (hif : c.ifpaddr = some b) (hp : np.inPpip ≠ 0) (hip : np.inIppip = 0) :
    mapPick M np c 0 held addr = .error .fault := by
  obtain ⟨np', a, ha, -⟩ := @mapAddr_first M np c held addr b hblk hif
  obtain ⟨hredir, hflags, hppip, hippip, -⟩ := fixed_ports (mapAddr_keeps ha).1
  rw [mapPick_eq ha]
  unfold mapPort
  rw [if_pos ⟨hf, hredir ▸ hblk, hflags ▸ hauto⟩, if_neg (hppip ▸ hp), if_pos (hippip ▸ hip)]
  rfl

/-- Automatic ports without a size: the packet keeps its port. -/
theorem auto_keeps (hblk : has np.inRedir NAT_MAPBLK = false) (hauto : has np.inFlags IPN_AUTOPORTMAP = true)
    (hf : has c.flags IPN_TCPUDP = true) (hbits : has c.flags (IPN_TCPUDPICMP ||| IPN_ICMPERR) = true)
    (hif : c.ifpaddr = some b) (hp : np.inPpip = 0) :
    ∃ np' a, mapPick M np c 0 held addr = .ok (np', a, c.mapSport M) := by
  obtain ⟨np', a, ha, -⟩ := @mapAddr_first M np c held addr b hblk hif
  obtain ⟨hredir, hflags, hppip, -⟩ := fixed_ports (mapAddr_keeps ha).1
  have hport : mapPort M np' c 0 0 = .ok (np', 0) := by
    unfold mapPort
    rw [if_pos ⟨hf, hredir ▸ hblk, hflags ▸ hauto⟩, if_pos (hppip ▸ hp), if_neg (by simp)]
  rw [mapPick_eq ha, hport]
  refine ⟨mapWrap M np', a, ?_⟩
  have hport0 : (if (0 : BitVec 16) = 0 ∧ has c.flags (IPN_TCPUDPICMP ||| IPN_ICMPERR) = true then c.mapSport M else 0) =
      c.mapSport M := if_pos ⟨rfl, hbits⟩
  exact congrArg (fun q => (.ok (mapWrap M np', a, q) : Except Stop (Ipnat × Word × BitVec 16))) hport0

/-- A range of no ports divides by 0. -/
theorem range_divides (hblk : has np.inRedir NAT_MAPBLK = false) (hseq : has np.inFlags IPN_SEQUENTIAL = false)
    (hf : has c.flags IPN_TCPUDP = false) (hbits : has c.flags IPN_TCPUDPICMP = true) (hif : c.ifpaddr = some b)
    (hnext : np.inSpnext ≠ 0) (hrange : np.inSpmin.toNat = np.inSpmax.toNat + 1) :
    mapPick M np c 0 held addr = .error .fault := by
  obtain ⟨np', a, ha, hsame⟩ := @mapAddr_first M np c held addr b hblk hif
  obtain ⟨hredir, hflags, -, -, hmin, hmax, -⟩ := fixed_ports (mapAddr_keeps ha).1
  have hzero : np'.inSpmax.setWidth 32 - np'.inSpmin.setWidth 32 + 1 = (0 : Word) := by
    apply eq_of_toNat_eq
    rw [toNat_add, toNat_sub, toNat_setWidth, toNat_setWidth, hmin, hmax, hrange]
    have hlt := np.inSpmax.isLt
    simp
    omega
  rw [mapPick_eq ha]
  unfold mapPort
  rw [if_neg (fun h => by simp [hf] at h), if_pos ⟨hredir ▸ hblk, hbits, hsame ▸ hnext⟩]
  dsimp only
  rw [if_pos ⟨hflags ▸ hseq, hzero⟩]
  rfl

/-- The first packet is one of TCP, or a ping. -/
theorem first_flags (addr : Word) (sport : BitVec 16) : has (firstCall true addr sport).flags IPN_TCPUDP = true ∧
    has (firstCall true addr sport).flags (IPN_TCPUDPICMP ||| IPN_ICMPERR) = true ∧
    has (firstCall false addr sport).flags IPN_TCPUDP = false ∧ has (firstCall false addr sport).flags IPN_TCPUDPICMP =
      true :=
  ⟨(by decide : has IPN_TCP IPN_TCPUDP = true), (by decide : has IPN_TCP (IPN_TCPUDPICMP ||| IPN_ICMPERR) = true),
    (by decide : has IPN_ICMPQUERY IPN_TCPUDP = false), (by decide : has IPN_ICMPQUERY IPN_TCPUDPICMP = true)⟩

theorem first_sport (addr : Word) (sport : BitVec 16) : (firstCall true addr sport).mapSport M = M.htons sport := by
  have hping : ¬has (firstCall true addr sport).flags IPN_ICMPQUERY = true := (by decide : ¬has IPN_TCP IPN_ICMPQUERY = true)
  unfold Call.mapSport
  rw [if_neg hping]
  rfl

theorem mapped_map (hmap : np.Mapped) (hblk : has np.inRedir NAT_MAPBLK = false) : has np.inRedir NAT_MAP = true := by
  have hjoin := hmap.1
  rw [has_flags, hblk, Bool.or_false] at hjoin
  exact hjoin

/-- **A sound rule has no divisor that is 0,** if its first port is the one that `ipf_nat_rule_init` sets. -/
theorem Sound.noZero (hs : Sound M proxyMatch np) (hmap : np.Mapped)
    (hnext : has np.inRedir NAT_MAP = true → np.inSpnext = np.inSpmin) : np.NoZero := by
  have hask := fun tcp => @first_asked M proxyMatch np hmap tcp 0 80
  obtain ⟨htcp, hbits, hping, hquery⟩ := first_flags 0 80
  refine ⟨fun hblk hp hip => ?_, fun hblk hauto => ?_, fun hblk hseq hrange => ?_⟩
  · exact hs.divides _ _ _ (hask true) (first_divides (mapblk_divides hblk hp hip))
  · have hp : np.inPpip ≠ 0 := by
      intro hp
      -- the session keeps port 80
      obtain ⟨np', a, hpick⟩ := @auto_keeps M { np with inUse := 1 } (firstCall true 0 80) false np.inSnip 0 hblk hauto htcp
        hbits rfl hp
      have hport := hs.range _ _ _ (first_maps hmap hpick) (.inr hauto) htcp
      have hsame : (mapNat M (firstCall true 0 80) a ((firstCall true 0 80).mapSport M)).natNsport =
          (firstCall true 0 80).mapSport M := by
        rw [mapNat]
        dsimp only
        rw [if_pos htcp]
      rw [hsame, first_sport, htons_htons] at hport
      exact absurd hport (by decide)
    refine ⟨hp, fun hip => ?_⟩
    exact hs.divides _ _ _ (hask true)
      (first_divides (@auto_divides M { np with inUse := 1 } _ _ _ 0 hblk hauto htcp rfl hp hip))
  · have hmin : np.inSpnext ≠ 0 := by
      rw [hnext (mapped_map hmap hblk)]
      intro h0
      rw [h0] at hrange
      exact absurd hrange (by simp)
    exact hs.divides _ _ _ (hask false)
      (first_divides (@range_divides M { np with inUse := 1 } _ _ _ 0 hblk hseq hping hquery rfl hmin hrange))

/-- The first round of a rule with blocks finds a port. -/
theorem mapPick_first (hz : np.NoZero) (hif : c.ifpaddr = some b) (hp : np.inPpip ≠ 0) :
    ∃ np' a p, mapPick M np c 0 held addr = .ok (np', a, p) := by
  have ha : ∃ np' a p, mapAddr M np c 0 held addr = .ok (np', a, p) := by
    cases hblk : has np.inRedir NAT_MAPBLK with
    | false =>
      obtain ⟨np', a, ha, -⟩ := @mapAddr_first M np c held addr b hblk hif
      exact ⟨np', a, 0, ha⟩
    | true =>
      have hpos : 0 < np.inPpip.toNat := pos_of_ne_zero fun h => hp (eq_of_toNat_eq h)
      unfold mapAddr
      rw [if_neg (by simp), if_neg (fun hbi => mapblk_redir hblk hbi.1), if_pos hblk, if_neg (by omega),
        if_neg (hz.mapblk hblk hp)]
      exact ⟨_, _, _, rfl⟩
  obtain ⟨np', a, p, ha⟩ := ha
  have hfault := @mapPick_fault M np c 0 held addr hz
  rw [mapPick_eq ha] at hfault ⊢
  cases hport : mapPort M np' c 0 p with
  | ok q => exact ⟨_, _, _, rfl⟩
  | error e =>
    cases e with
    | fault =>
      rw [hport] at hfault
      exact absurd rfl hfault
    | refused =>
      -- the choice of a port refuses nothing
      unfold mapPort at hport
      dsimp only at hport
      repeat' split at hport
      all_goals exact absurd hport (by simp)

/-- **The port of the first packet** of an inside address, if no other session is in the way. -/
theorem Sound.first_port (hs : Sound M proxyMatch np) (hmap : np.Mapped) (hz : np.NoZero) (hb : np.Blocks)
    (hp : np.inPpip ≠ 0) {k : Word} (hk : np.Inside M k) (sport : BitVec 16) :
    ∃ q, q = blockPort M np sport k ∧ 1024 ≤ (if q = 0 then sport else M.htons q).toNat := by
  obtain ⟨htcp, -⟩ := first_flags (M.htonl k) sport
  have hz₁ : ({ np with inUse := 1 } : Ipnat).NoZero := @NoZero_fixed np { np with inUse := 1 } rfl hz
  have hb₁ : ({ np with inUse := 1 } : Ipnat).Blocks := hb
  obtain ⟨np', a, p, hpick⟩ := @mapPick_first M { np with inUse := 1 } (firstCall true (M.htonl k) sport) false np.inSnip 0
    hz₁ rfl hp
  obtain ⟨-, j, hj, q, hq, hport⟩ := mapPick_port hz₁ hb₁ htcp hpick
  have hrange := hs.range _ _ _ (first_maps hmap hpick) hb htcp
  have hinside : np.inside M (firstCall true (M.htonl k) sport).fin.finSaddr = k := by
    change np.inside M (M.htonl k) = k
    unfold Ipnat.inside
    rw [ntohl_htonl]
    by_cases hblk : has np.inRedir NAT_MAPBLK = true
    · rw [if_pos hblk]
      exact hk hblk
    · rw [if_neg hblk]
  have hzero : ofNat 16 j = 0#16 := by rw [Nat.le_zero.1 hj]
  rw [@blockPort_fixed M np { np with inUse := 1 } rfl, hinside, first_sport, htons_htons, hzero, BitVec.add_zero] at hq
  refine ⟨q, hq, ?_⟩
  have hsame : (mapNat M (firstCall true (M.htonl k) sport) a p).natNsport = p := by
    rw [mapNat]
    dsimp only
    rw [if_pos htcp]
  rw [hsame, hport, first_sport] at hrange
  by_cases h0 : q = 0
  · rw [if_pos h0, htons_htons] at hrange
    rw [if_pos h0]
    exact hrange
  · rw [if_neg h0] at hrange
    rw [if_neg h0]
    exact hrange

/-- A rule with a size for its blocks has addresses for them. -/
theorem Ipnat.NoZero.ippip (hz : np.NoZero) (hb : np.Blocks) (hp : np.inPpip ≠ 0) : 0 < np.inIppip.toNat := by
  have hip : np.inIppip ≠ 0 := by
    cases hblk : has np.inRedir NAT_MAPBLK with
    | true => exact hz.mapblk hblk hp
    | false => exact (hz.auto hblk (hb.resolve_left (by simp [hblk]))).2
  exact pos_of_ne_zero fun h => hip (eq_of_toNat_eq h)

/-- The blocks that a port above 65535 would be in: 64513 is a prime number. -/
theorem last_block {n d : ℕ} (h : n * d = 64513) (hn : 1024 < n) : n = 64513 := by
  have hno : ∀ d < 64, d ≠ 1 → 64513 % d ≠ 0 := by decide
  have hd : d < 64 := by
    by_contra hge
    have hmul : 1025 * 64 ≤ n * d := Nat.mul_le_mul (by omega) (by omega)
    omega
  by_cases hone : d = 1
  · rw [hone, mul_one] at h
    exact h
  · exact absurd (by rw [← h, Nat.mul_mod_left]) (hno d hd hone)

/-- **The blocks of a sound rule end by port 65535,** if its inside addresses are numbered from 0 on: the first block that
does not would have a port below 1024. -/
theorem Sound.portsFit (hs : Sound M proxyMatch np) (hmap : np.Mapped) (hz : np.NoZero) (hc : np.Contiguous M)
    (hlast : np.inPpip ≠ 64513) : np.PortsFit M := by
  intro hb k hk
  by_cases hp : np.inPpip = 0
  · rw [hp]
    simp
  by_contra hlong
  have hpos : 0 < np.inPpip.toNat := pos_of_ne_zero fun h => hp (eq_of_toNat_eq h)
  have hsize := np.inPpip.isLt
  -- the first block with a port above 65535
  have hfirst : 64512 / np.inPpip.toNat ≤ np.hostIndex k := by
    apply Nat.le_of_lt_succ
    rw [Nat.div_lt_iff_lt_mul hpos, mul_comm]
    change _ < np.inPpip.toNat * (np.hostIndex k + 1)
    omega
  have hindex : np.hostIndex k < np.inIppip.toNat := Nat.mod_lt _ (hz.ippip hb hp)
  have hle : 64512 / np.inPpip.toNat ≤ k.toNat := hfirst.trans (Nat.mod_le _ _)
  have hnat : (ofNat 32 (64512 / np.inPpip.toNat)).toNat = 64512 / np.inPpip.toNat := by
    rw [toNat_ofNat, Nat.mod_eq_of_lt (by omega)]
  have hin : np.Inside M (ofNat 32 (64512 / np.inPpip.toNat)) := hc _ k (by rw [le_def, hnat]; exact hle) hk
  have hhost : np.hostIndex (ofNat 32 (64512 / np.inPpip.toNat)) = 64512 / np.inPpip.toNat := by
    rw [Ipnat.hostIndex, hnat, Nat.mod_eq_of_lt (by omega)]
  have hdiv := Nat.div_add_mod 64512 np.inPpip.toNat
  have hrest := Nat.mod_lt 64512 hpos
  -- what a source port below `in_ppip` becomes
  have hport : ∀ r < np.inPpip.toNat, ∃ q : BitVec 16,
      (M.htons q).toNat = (1024 + (r + np.inPpip.toNat * (64512 / np.inPpip.toNat))) % 65536 ∧
        1024 ≤ (if q = 0 then ofNat 16 r else M.htons q).toNat := by
    intro r hr
    obtain ⟨q, hq, hrange⟩ := hs.first_port hmap hz hb hp hin (ofNat 16 r)
    refine ⟨q, ?_, hrange⟩
    have hr16 : r < 2 ^ 16 := by omega
    rw [hq, blockPort_toNat, hhost, toNat_ofNat, Nat.mod_eq_of_lt hr16, Nat.mod_eq_of_lt hr]
  by_cases hnext : 64512 % np.inPpip.toNat + 1 < np.inPpip.toNat
  · -- port 65537 is port 1
    obtain ⟨q, hq, hrange⟩ := hport _ hnext
    rw [show 1024 + (64512 % np.inPpip.toNat + 1 + np.inPpip.toNat * (64512 / np.inPpip.toNat)) = 65537 by omega] at hq
    have hne : q ≠ 0 := by
      intro h0
      rw [htons_eq_zero.2 h0] at hq
      exact absurd hq (by decide)
    rw [if_neg hne, hq] at hrange
    exact absurd hrange (by decide)
  · -- port 65536 is port 0, so the packet keeps its port
    obtain ⟨q, hq, hrange⟩ := hport _ hrest
    rw [show 1024 + (64512 % np.inPpip.toNat + np.inPpip.toNat * (64512 / np.inPpip.toNat)) = 65536 by omega] at hq
    rw [if_pos (htons_eq_zero.1 hq), toNat_ofNat, Nat.mod_eq_of_lt (by omega)] at hrange
    have hblocks : np.inPpip.toNat * (64512 / np.inPpip.toNat + 1) = 64513 := by
      rw [Nat.mul_add, Nat.mul_one]
      omega
    exact hlast (eq_of_toNat_eq (last_block hblocks (by omega)))

/-! ## Rules that are accepted -/

theorem ruleaddrinit_keeps {r : Resolved} {n n' : Natd} (h : ipfNatRuleaddrinit M r n = some n') :
    ∃ addrs, n' = { n with inAddr := addrs } := by
  unfold ipfNatRuleaddrinit at h
  dsimp only at h
  split at h
  · exact absurd h (by simp)
  obtain ⟨osrc, -, h⟩ := bind_eq_some_iff.1 h
  obtain ⟨odst, -, h⟩ := bind_eq_some_iff.1 h
  obtain ⟨nsrc, -, h⟩ := bind_eq_some_iff.1 h
  obtain ⟨ndst, -, h⟩ := bind_eq_some_iff.1 h
  split at h
  · exact absurd h (by simp)
  · exact ⟨_, (some.inj h).symm⟩

/-- `ipf_nat_rule_init` starts the ports of a rule that maps at the first. -/
theorem ruleInit_spnext {r : Resolved} {n n' : Natd} (h : ipfNatRuleInit M r n = some n')
    (hmap : has n'.inRedir NAT_MAP = true) : n'.inSpnext = n'.inSpmin := by
  obtain ⟨n₁, haddr, h⟩ := bind_eq_some_iff.1 h
  obtain ⟨addrs, rfl⟩ := ruleaddrinit_keeps haddr
  have hn' : n'.inRedir = n.types.startPorts.inRedir ∧ n'.inSpnext = n.types.startPorts.inSpnext ∧
      n'.inSpmin = n.types.startPorts.inSpmin := by
    rw [← some.inj h]
    split_ifs
    · exact ⟨rfl, rfl, rfl⟩
    · exact ⟨rfl, rfl, rfl⟩
  have hset : has n.types.inRedir (NAT_MAP ||| NAT_REWRITE ||| NAT_DIVERTUDP) = true := by
    have hredir : has n.types.inRedir NAT_MAP = true := by
      rw [hn'.1] at hmap
      exact hmap
    rw [has_flags, has_flags, hredir, Bool.true_or, Bool.true_or]
  rw [hn'.2.1, hn'.2.2, Natd.startPorts, if_pos hset]

theorem siocadnat_spnext {r : Resolved} {raw : Natd} (h : siocadnat M r raw = some np) (hmap : has np.inRedir NAT_MAP = true) :
    np.inSpnext = np.inSpmin := by
  obtain ⟨n, hinit, hadd⟩ := bind_eq_some_iff.1 h
  unfold ipfNatSiocaddnat at hadd
  obtain ⟨apr, -, hadd⟩ := bind_eq_some_iff.1 hadd
  dsimp only at hadd
  split at hadd
  · exact absurd hadd (by simp)
  · rw [← some.inj hadd] at hmap ⊢
    exact ruleInit_spnext hinit hmap

/-- **Which rules are sound,** of those that `SIOCADNAT` accepts: the safe ones. A sound rule has no divisor that is 0, and is
safe where the inside addresses are numbered from 0 on (for a block of 64513 ports, of which one is left out, nothing is
said). -/
theorem admitted_sound {r : Resolved} {raw : Natd} (h : siocadnat M r raw = some np) :
    (np.Fits M → Sound M proxyMatch np) ∧
      (Sound M proxyMatch np → np.Mapped → np.NoZero ∧ (np.Contiguous M → np.inPpip ≠ 64513 → np.PortsFit M)) := by
  refine ⟨fits_sound, fun hs hmap => ?_⟩
  have hz := hs.noZero hmap (siocadnat_spnext h)
  exact ⟨hz, fun hc hlast => hs.portsFit hmap hz hc hlast⟩

/-- Names and tables that are there. -/
def plainResolved : Resolved where
  ifps _ := none
  named := false
  apr := some none
  table _ := true
  ifpaddr _ := none
  deliverlocal := false
  divertmp := true

/-- `map-block .. 10.0.0.0/24 -> 1.2.3.4/32` with 252 ports for each of `ippip` addresses. -/
def blockRule (ippip : BitVec 16) : Natd where
  inFlags := IPN_TCPUDP
  inRedir := NAT_MAPBLK
  inAddr e := match e with
    | .osrc => ⟨0x0000000a, 0x00ffffff, .normal, 0⟩
    | .nsrc => ⟨0x04030201, 0xffffffff, .normal, 0⟩
    | _ => ⟨0, 0, .normal, 0⟩
  inSpnext := 0
  inSpmin := 0
  inSpmax := 0
  inDpnext := 0
  inDpmin := 0
  inDpmax := 0
  inOdport := 0
  inDtop := 0
  inPpip := 252
  inIppip := ippip
  inAge _ := 0
  inMssclamp := 0
  inDlocal := false
  inUse := 0

/-- With 256 addresses the blocks fill the ports from 1024 on: the rule is sound. -/
theorem admitted_sound_blocks : ∃ np, siocadnat littleEndian plainResolved (blockRule 256) = some np ∧ np.Mapped ∧
    Sound littleEndian (fun _ _ => true) np := by
  obtain ⟨np, hnp, hfields⟩ := Option.map_eq_some_iff.1 (by decide :
    (siocadnat littleEndian plainResolved (blockRule 256)).map (fun np => (np.inRedir, np.inFlags, np.inPpip, np.inIppip)) =
      some (NAT_MAPBLK, IPN_TCPUDP, 252, 256))
  simp only [Prod.mk.injEq] at hfields
  obtain ⟨hredir, hflags, hppip, hippip⟩ := hfields
  refine ⟨np, hnp, ?_, (admitted_sound hnp).1 fun _ => ⟨⟨?_, ?_, ?_⟩, fun _ k _ => ?_⟩⟩
  · unfold Ipnat.Mapped
    rw [hredir, hflags]
    decide
  · intro _ _
    rw [hippip]
    decide
  · intro hblk
    rw [hredir] at hblk
    exact absurd hblk (by decide)
  · intro hblk
    rw [hredir] at hblk
    exact absurd hblk (by decide)
  · have hindex : np.hostIndex k < 256 := by
      rw [Ipnat.hostIndex, hippip]
      exact Nat.mod_lt _ (by decide)
    rw [hppip]
    change 1024 + 252 * (np.hostIndex k + 1) ≤ 65536
    omega

/-- **A rule for blocks of no addresses is accepted,** and the first packet of 10.0.0.1 divides by 0. -/
theorem admitted_not_sound : ∃ np, siocadnat littleEndian plainResolved (blockRule 0) = some np ∧
    Asked littleEndian (fun _ _ => true) np (loadedSys np) (loadedSys np) (firstCall true 0x0100000a 1024) ∧
    Divides littleEndian (fun _ _ => true) (loadedSys np) (firstCall true 0x0100000a 1024) ∧
    ¬Sound littleEndian (fun _ _ => true) np := by
  obtain ⟨np, hnp, hfields⟩ := Option.map_eq_some_iff.1 (by decide :
    (siocadnat littleEndian plainResolved (blockRule 0)).map (fun np => (np.inRedir, np.inFlags, np.inPpip, np.inIppip)) =
      some (NAT_MAPBLK, IPN_TCPUDP, 252, 0))
  simp only [Prod.mk.injEq] at hfields
  obtain ⟨hredir, hflags, hppip, hippip⟩ := hfields
  have hmap : np.Mapped := by
    unfold Ipnat.Mapped
    rw [hredir, hflags]
    decide
  have hblk : has np.inRedir NAT_MAPBLK = true := by
    rw [hredir]
    decide
  have hp : np.inPpip ≠ 0 := by
    rw [hppip]
    decide
  have hask := @first_asked littleEndian (fun _ _ => true) np hmap true 0x0100000a 1024
  have hdiv : Divides littleEndian (fun _ _ => true) (loadedSys np) (firstCall true 0x0100000a 1024) :=
    first_divides (mapblk_divides hblk hp hippip)
  exact ⟨np, hnp, hask, hdiv, fun hs => hs.divides _ _ _ hask hdiv⟩

end Ipfilter.NatAdd
