import Ipfilter.Spec.Tcpoptions

/-!
# What the options of a TCP header leave behind

* `options` — the options that are well formed, in their order;
* `tcpoptionsLoop_eq` — the loop ends, reads nothing outside the header, and records these options one after the other;
* `tcpoptions_recorded` — **the last window scale and the last MSS are recorded**, the flags of the options are added, and
  nothing else is changed; a byte of 128 or more is another number where `char` is signed. `tcpoptions_recorded_syn` — a SYN;
  `tcpoptions_flags` — one whose MSS is 1460.
-/

namespace Ipfilter.Tcpoptions

open TcpWindow List Option BitVec

variable {signed : Bool} {buf : List Byte} {td : Tcpdata} {retval : ℤ} {os : List (Byte × List Byte)} {c : Byte}

/-! ## Options -/

/-- The first `n` options of the bytes, with what is behind their length. -/
def optionsN : ℕ → List Byte → List (Byte × List Byte)
  | 0, _ => []
  | _ + 1, [] => []
  | n + 1, k :: l =>
    if k = TCPOPT_EOL then []
    else if k = TCPOPT_NOP then optionsN n l
    else match l with
      | [] => []
      | ol :: l =>
        if ol.toNat < 2 ∨ l.length + 2 < ol.toNat then []
        else (k, l.take (ol.toNat - 2)) :: optionsN n (l.drop (ol.toNat - 2))

/-- **The options:** up to the end of the bytes, an EOL, or the first one that is not well formed. -/
def options (l : List Byte) : List (Byte × List Byte) := optionsN l.length l

/-- The option has this kind, and `n` bytes behind its length. -/
def Is (k : Byte) (n : ℕ) (o : Byte × List Byte) : Prop := o.1 = k ∧ o.2.length = n

instance (k : Byte) (n : ℕ) (o : Byte × List Byte) : Decidable (Is k n o) := inferInstanceAs (Decidable (_ ∧ _))

theorem optionsN_enough : ∀ {n m : ℕ} {l : List Byte}, l.length ≤ n → l.length ≤ m →
    optionsN n l = optionsN m l := by
  intro n
  induction n with
  | zero =>
    intro m l hn _
    cases l with
    | nil => cases m with
      | zero => rfl
      | succ m => rfl
    | cons k l => simp at hn
  | succ n ih =>
    intro m l hn hm
    cases l with
    | nil => cases m with
      | zero => rfl
      | succ m => rfl
    | cons k l =>
      cases m with
      | zero => simp at hm
      | succ m =>
        simp only [length_cons] at hn hm
        unfold optionsN
        rw [ih (m := m) (by omega) (by omega)]
        cases l with
        | nil => rfl
        | cons ol l =>
          simp only [length_cons] at hn hm
          have hrest := ih (m := m) (l := l.drop (ol.toNat - 2)) (by rw [length_drop]; omega) (by rw [length_drop]; omega)
          dsimp only
          rw [hrest]

/-- An option is recorded. -/
def Tcpdata.see (signed : Bool) (td : Tcpdata) (o : Byte × List Byte) : Tcpdata :=
  if Is TCPOPT_WINDOW 1 o then
    { td with
      tdWinscale := winscale signed (o.2.getD 0 0)
      tdWinflags := td.tdWinflags ||| (TCP_WSCALE_SEEN ||| TCP_WSCALE_FIRST) }
  else if Is TCPOPT_MAXSEG 2 o then { td with tdMaxseg := maxseg signed (o.2.getD 0 0) (o.2.getD 1 0) }
  else if Is TCPOPT_SACK_PERMITTED 0 o then { td with tdWinflags := td.tdWinflags ||| TCP_SACK_PERMIT }
  else td

/-! ## The loop -/

theorem charInt_of_lt (h : c.toNat < 128) : charInt signed c = c.toNat := by
  unfold charInt
  split
  · exact toInt_eq_toNat_of_lt (by omega)
  · rfl

/-- A byte of 128 or more is no length of an option. -/
theorem charInt_of_ge {len : ℤ} (h : 128 ≤ c.toNat) (hlen : len ≤ 127) :
    charInt signed c < 2 ∨ charInt signed c > len := by
  unfold charInt
  split
  · have hneg : c.toInt = c.toNat - 256 := by
      rw [toInt_eq_toNat_cond, if_neg (by omega)]
      rfl
    have hlt := c.isLt
    omega
  · omega

/-- **The switch** records the option that is at `s`. -/
theorem record_see {s : ℕ} {k ol : Byte} {l : List Byte} (hbuf : buf.drop s = k :: ol :: l) (h2 : 2 ≤ ol.toNat)
    (hle : ol.toNat ≤ l.length + 2) :
    ∃ ret, record signed buf s k ol.toNat td retval = some (td.see signed (k, l.take (ol.toNat - 2)), ret) := by
  have hget : ∀ i, buf[s + 2 + i]? = l[i]? := by
    intro i
    rw [add_assoc, ← List.getElem?_drop, hbuf, add_comm 2 i]
    rfl
  have hdata : ∀ i, i < ol.toNat - 2 → buf[s + 2 + i]? = some ((l.take (ol.toNat - 2)).getD i 0) := by
    intro i hi
    rw [hget, getD_eq_getElem?_getD, List.getElem?_take_of_lt hi, List.getElem?_eq_getElem (by omega)]
    rfl
  have hlen : ∀ n, Is k n (k, l.take (ol.toNat - 2)) ↔ (ol.toNat : ℤ) = n + 2 := by
    intro n
    have htake : (l.take (ol.toNat - 2)).length = ol.toNat - 2 := by
      rw [length_take]
      omega
    constructor
    · intro h
      have hn : (l.take (ol.toNat - 2)).length = n := h.2
      omega
    · intro h
      exact ⟨rfl, show (l.take (ol.toNat - 2)).length = n by omega⟩
  have hother : ∀ k' n, k ≠ k' → ¬Is k' n (k, l.take (ol.toNat - 2)) := fun k' n hne h => hne h.1
  unfold record Tcpdata.see
  by_cases hw : k = TCPOPT_WINDOW
  · rw [if_pos hw, ← hw, if_neg (hother TCPOPT_MAXSEG 2 (by rw [hw]; decide)),
      if_neg (hother TCPOPT_SACK_PERMITTED 0 (by rw [hw]; decide))]
    by_cases hol : (ol.toNat : ℤ) = TCPOLEN_WINDOW
    · rw [if_pos hol, if_pos ((hlen 1).2 hol), show buf[s + 2]? = _ from hdata 0 (by unfold TCPOLEN_WINDOW at hol; omega)]
      exact ⟨_, rfl⟩
    · rw [if_neg hol, if_neg fun h => hol ((hlen 1).1 h)]
      exact ⟨_, rfl⟩
  rw [if_neg hw, if_neg (hother TCPOPT_WINDOW 1 hw)]
  by_cases hm : k = TCPOPT_MAXSEG
  · rw [if_pos hm, ← hm, if_neg (hother TCPOPT_SACK_PERMITTED 0 (by rw [hm]; decide))]
    by_cases hol : (ol.toNat : ℤ) = TCPOLEN_MAXSEG
    · have hol' : ol.toNat = 4 := Int.ofNat.inj hol
      rw [if_pos hol, if_pos ((hlen 2).2 hol), show buf[s + 2]? = _ from hdata 0 (by omega),
        show buf[s + 3]? = _ from hdata 1 (by omega)]
      exact ⟨_, rfl⟩
    · rw [if_neg hol, if_neg fun h => hol ((hlen 2).1 h)]
      exact ⟨_, rfl⟩
  rw [if_neg hm, if_neg (hother TCPOPT_MAXSEG 2 hm)]
  by_cases hs : k = TCPOPT_SACK_PERMITTED
  · rw [if_pos hs, ← hs]
    by_cases hol : (ol.toNat : ℤ) = TCPOLEN_SACK_PERMITTED
    · rw [if_pos hol, if_pos ((hlen 0).2 hol)]
      exact ⟨_, rfl⟩
    · rw [if_neg hol, if_neg fun h => hol ((hlen 0).1 h)]
      exact ⟨_, rfl⟩
  · rw [if_neg hs, if_neg (hother TCPOPT_SACK_PERMITTED 0 hs)]
    exact ⟨_, rfl⟩

/-- **The loop** ends, reads what is there, and records the options. -/
theorem tcpoptionsLoop_eq (hbuf : buf.length ≤ 127) : ∀ {n s : ℕ} {l : List Byte} {td : Tcpdata} {retval : ℤ},
    buf.drop s = l → l.length ≤ n →
    ∃ ret, tcpoptionsLoop signed buf n s l.length td retval = some ((optionsN n l).foldl (Tcpdata.see signed) td, ret) := by
  intro n
  induction n with
  | zero =>
    intro s l td retval _ hn
    cases l with
    | nil => exact ⟨retval, rfl⟩
    | cons k l => simp at hn
  | succ n ih =>
    intro s l td retval hl hn
    unfold tcpoptionsLoop optionsN
    cases l with
    | nil => exact ⟨retval, rfl⟩
    | cons k l =>
      have hshort : (k :: l).length ≤ 127 := by
        rw [← hl, length_drop]
        omega
      have hget : ∀ i, buf[s + i]? = (k :: l)[i]? := by
        intro i
        rw [← hl, List.getElem?_drop]
      have hdrop : ∀ i, buf.drop (s + i) = (k :: l).drop i := by
        intro i
        rw [← hl, drop_drop]
      rw [if_neg (by simp only [length_cons]; omega), show buf[s]? = some k from hget 0]
      simp only [bind_eq_bind, bind_some]
      split
      · exact ⟨retval, rfl⟩
      split
      · -- one byte
        rw [show ((k :: l).length : ℤ) - 1 = l.length by simp only [length_cons]; omega]
        simp only [length_cons] at hn
        exact ih (hdrop 1) (by omega)
      cases l with
      | nil => exact ⟨retval, rfl⟩
      | cons ol l =>
        simp only [length_cons] at hn hshort
        rw [if_neg (by simp only [length_cons]; omega), show buf[s + 1]? = some ol from hget 1]
        simp only [bind_some, length_cons]
        by_cases hbig : 128 ≤ ol.toNat
        · rw [if_pos (charInt_of_ge hbig (by omega)), if_pos (by omega)]
          exact ⟨retval, rfl⟩
        rw [charInt_of_lt (by omega)]
        by_cases hbad : ol.toNat < 2 ∨ l.length + 2 < ol.toNat
        · rw [if_pos (by omega), if_pos hbad]
          exact ⟨retval, rfl⟩
        · rw [if_neg (by omega), if_neg hbad]
          obtain ⟨ret, hrec⟩ := @record_see signed _ td retval _ _ _ _ hl (by omega) (by omega)
          rw [hrec]
          simp only [bind_some, Int.toNat_natCast, foldl_cons]
          have hrest : buf.drop (s + ol.toNat) = l.drop (ol.toNat - 2) := by
            rw [hdrop, show ol.toNat = ol.toNat - 2 + 2 by omega]
            rfl
          have hlen : ((l.length + 1 + 1 : ℕ) : ℤ) - ol.toNat = (l.drop (ol.toNat - 2)).length := by
            rw [length_drop]
            omega
          rw [hlen]
          exact ih hrest (by rw [length_drop]; omega)

/-! ## What is recorded -/

/-- What is behind the length of the last option of a kind, of those with `n` such bytes. -/
def lastData (k : Byte) (n : ℕ) (os : List (Byte × List Byte)) : Option (List Byte) :=
  ((os.filter fun o => Is k n o).getLast?).map Prod.snd

/-- The flags of an option. -/
def flagsOf (o : Byte × List Byte) : Flags :=
  if Is TCPOPT_WINDOW 1 o then TCP_WSCALE_SEEN |||
    TCP_WSCALE_FIRST else if Is TCPOPT_SACK_PERMITTED 0 o then TCP_SACK_PERMIT else 0

/-- The flags of all options. -/
def seenFlags (os : List (Byte × List Byte)) : Flags := os.foldr (fun o f => flagsOf o ||| f) 0

theorem lastData_concat (k : Byte) (n : ℕ) (os : List (Byte × List Byte)) (o : Byte × List Byte) :
    lastData k n (os ++ [o]) = if Is k n o then some o.2 else lastData k n os := by
  unfold lastData
  rw [filter_append]
  split
  · rename_i h
    rw [filter_cons_of_pos (by simpa using h), filter_nil, List.getLast?_concat]
    rfl
  · rename_i h
    rw [filter_cons_of_neg (by simpa using h), filter_nil, append_nil]

theorem Is.unique {k k' : Byte} {n n' : ℕ} {o : Byte × List Byte} (h : Is k n o) (hne : k ≠ k') : ¬Is k' n' o :=
  fun h' => hne (h.1.symm.trans h'.1)

/-- **The last window scale** is the one that counts. -/
theorem foldl_winscale (os : List (Byte × List Byte)) (td : Tcpdata) : (os.foldl (Tcpdata.see signed) td).tdWinscale =
      ((lastData TCPOPT_WINDOW 1 os).map fun data => winscale signed (data.getD 0 0)).getD td.tdWinscale := by
  induction os using List.reverseRecOn with
  | nil => rfl
  | append_singleton os o ih =>
    rw [foldl_concat, lastData_concat]
    unfold Tcpdata.see
    split
    · rfl
    · split
      · exact ih
      · split
        · exact ih
        · exact ih

/-- **The last MSS** is the one that counts. -/
theorem foldl_maxseg (os : List (Byte × List Byte)) (td : Tcpdata) : (os.foldl (Tcpdata.see signed) td).tdMaxseg =
      ((lastData TCPOPT_MAXSEG 2 os).map fun data => maxseg signed (data.getD 0 0) (data.getD 1 0)).getD td.tdMaxseg := by
  induction os using List.reverseRecOn with
  | nil => rfl
  | append_singleton os o ih =>
    rw [foldl_concat, lastData_concat]
    unfold Tcpdata.see
    split
    · rename_i h
      rw [if_neg (h.unique (by decide))]
      exact ih
    · split
      · rfl
      · split
        · exact ih
        · exact ih

/-- The flags are those of all options. -/
theorem foldl_winflags (os : List (Byte × List Byte)) (td : Tcpdata) :
    (os.foldl (Tcpdata.see signed) td).tdWinflags = td.tdWinflags ||| seenFlags os := by
  induction os generalizing td with
  | nil => exact BitVec.or_zero.symm
  | cons o os ih =>
    have hone : (td.see signed o).tdWinflags = td.tdWinflags ||| flagsOf o := by
      unfold Tcpdata.see flagsOf
      split
      · rfl
      · split
        · rename_i h
          rw [if_neg (h.unique (by decide))]
          exact BitVec.or_zero.symm
        · split
          · rfl
          · exact BitVec.or_zero.symm
    rw [foldl_cons, ih, hone, BitVec.or_assoc]
    rfl

/-- What no option touches. -/
structure SameElse (td td' : Tcpdata) : Prop where
  tdEnd : td'.tdEnd = td.tdEnd
  maxend : td'.tdMaxend = td.tdMaxend
  maxwin : td'.tdMaxwin = td.tdMaxwin

theorem foldl_same (os : List (Byte × List Byte)) (td : Tcpdata) : SameElse td (os.foldl (Tcpdata.see signed) td) := by
  induction os generalizing td with
  | nil => exact ⟨rfl, rfl, rfl⟩
  | cons o os ih =>
    have hone : SameElse td (td.see signed o) := by
      unfold Tcpdata.see
      split
      · exact ⟨rfl, rfl, rfl⟩
      · split
        · exact ⟨rfl, rfl, rfl⟩
        · split
          · exact ⟨rfl, rfl, rfl⟩
          · exact ⟨rfl, rfl, rfl⟩
    have hrest := ih (td.see signed o)
    exact ⟨hrest.tdEnd.trans hone.tdEnd, hrest.maxend.trans hone.maxend, hrest.maxwin.trans hone.maxwin⟩

/-- A byte is the same number signed or not. -/
def Plain (signed : Bool) (c : Byte) : Prop := signed = false ∨ c.toNat < 128

theorem Plain.charInt (h : Plain signed c) : charInt signed c = c.toNat := by
  obtain rfl | h := h
  · rfl
  · exact charInt_of_lt h

theorem Plain.winscale (h : Plain signed c) : (winscale signed c).toNat = min 14 c.toNat := by
  have hc := c.isLt
  unfold Tcpoptions.winscale
  rw [h.charInt]
  dsimp only
  unfold TCP_WSCALE_MAX
  split
  · rw [Nat.min_eq_left (by omega)]
    rfl
  · rw [if_neg (by omega), ofInt_natCast, toNat_ofNat, Nat.min_eq_right (by omega), Nat.mod_eq_of_lt (by omega)]

theorem Plain.maxseg {hi lo : Byte} (hhi : Plain signed hi) (hlo : Plain signed lo) :
    (maxseg signed hi lo).toNat = hi.toNat * 256 + lo.toNat := by
  have h1 := hi.isLt
  have h2 := lo.isLt
  unfold Tcpoptions.maxseg
  rw [hhi.charInt, hlo.charInt, show (hi.toNat : ℤ) * 256 + lo.toNat = ((hi.toNat * 256 + lo.toNat : ℕ) : ℤ) by omega,
    ofInt_natCast, toNat_ofNat, Nat.mod_eq_of_lt (by omega)]

/-- **What the options leave behind.** -/
structure Recorded (signed : Bool) (os : List (Byte × List Byte)) (td td' : Tcpdata) : Prop where
  winscale : ∀ c, lastData TCPOPT_WINDOW 1 os = some [c] → Plain signed c → td'.tdWinscale.toNat = min 14 c.toNat
  winscale_none : lastData TCPOPT_WINDOW 1 os = none → td'.tdWinscale = td.tdWinscale
  maxseg : ∀ hi lo, lastData TCPOPT_MAXSEG 2 os = some [hi, lo] → Plain signed hi → Plain signed lo →
    td'.tdMaxseg.toNat = hi.toNat * 256 + lo.toNat
  maxseg_none : lastData TCPOPT_MAXSEG 2 os = none → td'.tdMaxseg = td.tdMaxseg
  winflags : td'.tdWinflags = td.tdWinflags ||| seenFlags os
  same : SameElse td td'

theorem foldl_recorded (os : List (Byte × List Byte)) (td : Tcpdata) :
    Recorded signed os td (os.foldl (Tcpdata.see signed) td) where
  winscale c h hc := by
    rw [foldl_winscale, h]
    exact hc.winscale
  winscale_none h := by
    rw [foldl_winscale, h]
    rfl
  maxseg hi lo h hhi hlo := by
    rw [foldl_maxseg, h]
    exact hhi.maxseg hlo
  maxseg_none h := by
    rw [foldl_maxseg, h]
    rfl
  winflags := foldl_winflags os td
  same := foldl_same os td

/-! ## The header -/

/-- The packet has all of its TCP header, which starts `start` bytes from the front. -/
structure Packet.Holds (p : Packet) (start : ℕ) : Prop where
  off : 5 ≤ p.thOff.toNat
  dlen : (4 * p.thOff.toNat : ℤ) ≤ p.finDlen
  begins : p.finPlen - p.finDlen + p.finIpoff = start
  inside : start + 4 * p.thOff.toNat ≤ p.m.length

/-- The bytes of the options. -/
def Packet.opts (p : Packet) (start : ℕ) : List Byte := (p.m.drop (start + 20)).take (4 * p.thOff.toNat - 20)

/-- **The last options are recorded.** -/
theorem tcpoptions_recorded (signed : Bool) (p : Packet) (start : ℕ) (td : Tcpdata) (h : p.Holds start) :
    ∃ ret td', ipfTcpoptions signed p td = some (ret, td') ∧ Recorded signed (options (p.opts start)) td td' := by
  have hoff := h.off
  have hinside := h.inside
  have hlt := p.thOff.isLt
  have hshift : p.thOff.toNat <<< 2 = 4 * p.thOff.toNat := by
    rw [Nat.shiftLeft_eq]
    omega
  have hlen : (p.opts start).length = 4 * p.thOff.toNat - 20 := by
    unfold Packet.opts
    rw [length_take, length_drop]
    omega
  have hcopy : copydata p.m (p.finPlen - p.finDlen + 20 + p.finIpoff) (4 * p.thOff.toNat - 20 : ℕ) = some (p.opts start) := by
    have hstart := h.begins
    unfold copydata
    rw [if_pos (by omega), show (p.finPlen - p.finDlen + 20 + p.finIpoff).toNat = start + 20 by omega, Int.toNat_natCast]
    rfl
  have hbuf : (p.opts start).length ≤ 64 := by omega
  have hopts : optionsN 64 (p.opts start) = options (p.opts start) := optionsN_enough hbuf (Nat.le_refl _)
  obtain ⟨ret, hloop⟩ := @tcpoptionsLoop_eq signed _ (Nat.le_trans hbuf (by decide)) _ 0 _ td 1
    (drop_zero : (p.opts start).drop 0 = _) hbuf
  rw [hopts, hlen] at hloop
  have hdlen := h.dlen
  have hstart := h.begins
  have hall : ((4 * p.thOff.toNat : ℕ) : ℤ) - 20 = (4 * p.thOff.toNat - 20 : ℕ) := by omega
  have hroom : ¬((4 * p.thOff.toNat - 20 : ℕ) : ℤ) > p.m.length - (p.finPlen - p.finDlen + 20 + p.finIpoff) := by omega
  unfold ipfTcpoptions
  dsimp only
  rw [hshift, if_neg (by omega), hall, if_neg hroom, if_neg hroom, if_neg (by omega), hcopy]
  simp only [bind_eq_bind, bind_some, hloop]
  exact ⟨ret, _, rfl, foldl_recorded _ td⟩

/-- A SYN of no data whose TCP header is the whole packet, with these options. -/
def synWith (os : List Byte) (thOff : BitVec 4) : Packet :=
  { m := List.replicate 20 0 ++ os, finPlen := 20 + os.length, finDlen := 20 + os.length, finIpoff := 0, thOff := thOff }

theorem tcpoptions_recorded_syn :
    ∃ ret td', ipfTcpoptions false (synWith [2, 4, 5, 0xb4, 3, 3, 7, 1] 7) ⟨⟨0, 0, 0, 0, 0⟩, 0⟩ = some (ret, td') ∧
      Recorded false (options ((synWith [2, 4, 5, 0xb4, 3, 3, 7, 1] 7).opts 0)) ⟨⟨0, 0, 0, 0, 0⟩, 0⟩ td' :=
  tcpoptions_recorded false _ 0 _ ⟨by decide, by decide, by decide, by decide⟩

/-- The flags are not what they were; and where `char` is signed an MSS of 1460 is taken for 1204. -/
theorem tcpoptions_flags :
    (ipfTcpoptions false (synWith [2, 4, 5, 0xb4, 3, 3, 7, 1] 7) ⟨⟨0, 0, 0, 0, 0⟩, 0⟩).map
    (fun r => (r.2.tdWinflags, r.2.tdMaxseg)) =
        some (TCP_WSCALE_SEEN ||| TCP_WSCALE_FIRST, 1460) ∧
      (TCP_WSCALE_SEEN ||| TCP_WSCALE_FIRST : Flags) ≠ 0 ∧
      (ipfTcpoptions true (synWith [2, 4, 5, 0xb4, 3, 3, 7, 1] 7) ⟨⟨0, 0, 0, 0, 0⟩, 0⟩).map (fun r => r.2.tdMaxseg) =
        some 1204 := by
  decide

end Ipfilter.Tcpoptions
