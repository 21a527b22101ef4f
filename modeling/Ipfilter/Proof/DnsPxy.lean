import Ipfilter.Spec.DnsPxy

/-!
# Which questions are rejected

* `DomainName`, `Message`: what a client sends, and its bytes.
* `Filter.Names`, `Blocked`: the entries that a name should match, and the first of them.
* `getName_wire`: the dotted name of a question, and where the next name is looked for.
* `inout_meets_iff`: **when a message is rejected for its questions, with every list of entries.**
-/

namespace Ipfilter.DnsPxy

open List
open BitVec (ofNat toNat toNat_ofNat)

/-! ## Messages -/

/-- A label of a name. -/
structure Label where
  bytes : List Byte
  pos : 1 ≤ bytes.length
  short : bytes.length ≤ 63

/-- The length of a label and its bytes. -/
def Label.wire (l : Label) : List Byte := ofNat 8 l.bytes.length :: l.bytes

/-- **A name:** not compressed, of a legal length. -/
structure DomainName where
  labels : List Label
  short : (labels.flatMap Label.wire).length + 1 ≤ 255

/-- The name in a message. -/
def DomainName.wire (n : DomainName) : List Byte := n.labels.flatMap Label.wire ++ [0]

/-- The labels with dots between them. -/
def DomainName.dotted (n : DomainName) : List Byte := [(0x2e : Byte)].intercalate (n.labels.map Label.bytes)

/-- A word in the order of the network. -/
def word (w : BitVec 16) : List Byte := [w.extractLsb' 8 8, w.extractLsb' 0 8]

structure Question where
  name : DomainName
  qtype : BitVec 16
  qclass : BitVec 16

def Question.wire (q : Question) : List Byte := q.name.wire ++ word q.qtype ++ word q.qclass

/-- **A message** behind a UDP header, with what follows its questions. -/
structure Message where
  udp : List Byte
  udp_length : udp.length = 8
  dnsId : BitVec 16
  dnsCtlword : BitVec 16
  questions : List Question
  counted : questions.length < 2 ^ 16
  dnsAncount : BitVec 16
  dnsNscount : BitVec 16
  dnsArcount : BitVec 16
  rest : List Byte

/-- `dns_qdcount` -/
def Message.qdcount (m : Message) : BitVec 16 := ofNat 16 m.questions.length

def Message.wire (m : Message) : List Byte :=
  m.udp ++ (word m.dnsId ++ word m.dnsCtlword ++ word m.qdcount ++ word m.dnsAncount ++ word m.dnsNscount ++
    word m.dnsArcount ++
    (m.questions.flatMap Question.wire ++ m.rest))

/-- The number of questions, as the code reads it. -/
def Message.count (order : Order) (m : Message) : ℕ := order.read (m.qdcount.extractLsb' 8 8) (m.qdcount.extractLsb' 0 8)

/-! ## What is expected -/

/-- **An entry matches a name:** equal ignoring case, or an ending of it when the entry begins with a `*`, which is left out, or
with a dot. -/
def Filter.names (f : Filter) (name : List Byte) : Bool :=
  decide (f.idnsName.map tolower = name.map tolower) ||
    match f.idnsName with
    | [] => false
    | c :: base =>
      decide (c = 0x2a ∧ base.map tolower <:+ name.map tolower) ||
        decide (c = 0x2e ∧ (c :: base).map tolower <:+ name.map tolower)

/-- The first entry that matches is one that blocks. -/
def Blocked (list : List Filter) (name : List Byte) : Prop := ∃ f, list.find? (·.names name) = some f ∧ f.idnsPass ≠ 0

/-- A question of the message is blocked. -/
def Message.Blocked (list : List Filter) (m : Message) : Prop := ∃ q ∈ m.questions, DnsPxy.Blocked list q.name.dotted

/-- **What is expected:** the message is looked at, and rejected if and only if a question is blocked. -/
def Meets (order : Order) (list : List Filter) (softd : Softc) (di : DnsInfo) (m : Message) : Prop :=
  ∃ r, ipfPDnsInout order list softd di m.wire = some r ∧ (r.2.2 ≠ 0 ↔ m.Blocked list)

/-- **When that is so.** Only the first question is looked at, with the first entry that `ipf_p_dns_match_names` finds for it,
and a message that is not rejected for it passes only if the number of questions is read as 1. -/
def Looks (order : Order) (list : List Filter) (m : Message) : Prop :=
  match m.questions with
  | [] => True
  | first :: _ =>
    if first.name.labels = [] then m.Blocked list
    else
      match allowLoop (cstring first.name.dotted) list with
      | none => False
      | some rc => if rc ≠ 0 then (APR_ERR rc ≠ 0 ↔ m.Blocked list) else (m.count order ≠ 1 ↔ m.Blocked list)

/-! ## A name -/

theorem Label.length_toNat (l : Label) : (ofNat 8 l.bytes.length).toNat = l.bytes.length := by
  have := l.short
  rw [toNat_ofNat, Nat.mod_eq_of_lt (by omega)]

theorem Label.length_toInt (l : Label) : (ofNat 8 l.bytes.length).toInt = l.bytes.length := by
  have := l.short
  rw [BitVec.toInt_eq_toNat_of_lt (by rw [l.length_toNat]; omega), l.length_toNat]

/-- Lengths of labels leave the two bits of a compressed name alone. -/
theorem plain_of_short : ∀ c : Byte, c.toNat ≤ 63 → c &&& 0xc0 ≠ 0xc0 := by decide

/-- The length of a label does not look like the end, or like a compressed name. -/
theorem Label.length_plain (l : Label) : ofNat 8 l.bytes.length ≠ 0 ∧ ofNat 8 l.bytes.length &&& 0xc0 ≠ 0xc0 := by
  have hlen := l.length_toNat
  refine ⟨fun h => ?_, plain_of_short _ (by rw [hlen]; exact l.short)⟩
  have hpos := l.pos
  have hzero : toNat (0 : Byte) = 0 := rfl
  rw [h, hzero] at hlen
  omega

/-- The labels as they are written to the buffer. -/
def written (ls : List Label) : List Byte := ls.flatMap fun l => l.bytes ++ [0x2e]

/-- **The loop goes over the labels** and stops at the end of the name. -/
theorem getNameLoop_labels (softd : Softc) {ls : List Label} {n : ℕ} {slen blen : ℤ} {t tail : List Byte}
    (hn : (ls.flatMap Label.wire).length < n) (hslen : (ls.flatMap Label.wire).length ≤ slen)
    (hblen : (ls.flatMap Label.wire).length ≤ blen) :
    getNameLoop softd n (ls.flatMap Label.wire ++ 0 :: tail) slen blen t = some (softd, t ++ written ls, some (0 :: tail)) := by
  induction ls generalizing n slen blen t with
  | nil =>
    obtain ⟨n, rfl⟩ := Nat.exists_eq_succ_of_ne_zero (ne_of_gt hn)
    simp [getNameLoop, written]
  | cons l ls ih =>
    obtain ⟨n, rfl⟩ := Nat.exists_eq_succ_of_ne_zero (ne_of_gt (Nat.zero_lt_of_lt hn))
    obtain ⟨hzero, hplain⟩ := l.length_plain
    simp only [flatMap_cons, Label.wire, cons_append, length_cons, length_append, append_assoc] at hn hslen hblen ⊢
    have htoInt := l.length_toInt
    unfold getNameLoop
    rw [if_neg hzero, if_neg hplain, if_neg (by omega), if_neg (by omega), if_neg (by rw [htoInt, length_append]; omega),
      htoInt, l.length_toNat, drop_left, take_left]
    refine (ih (by omega) (by omega) (by omega)).trans ?_
    simp [written]

/-- What is written is the dotted name and a dot. -/
theorem written_dropLast {ls : List Label} (hne : ls ≠ []) :
    (written ls).dropLast = [(0x2e : Byte)].intercalate (ls.map Label.bytes) := by
  induction ls with
  | nil => exact absurd rfl hne
  | cons l ls ih =>
    cases ls with
    | nil => simp [written, List.intercalate]
    | cons l₂ ls =>
      have hmore : written (l₂ :: ls) ≠ [] := by simp [written]
      rw [map_cons, map_cons, intercalate_cons_cons, ← map_cons, ← ih (by simp),
        show written (l :: l₂ :: ls) = l.bytes ++ [0x2e] ++ written (l₂ :: ls) from by simp [written],
        dropLast_append_of_ne_nil hmore]

variable {order : Order} {softd : Softc} {di : DnsInfo} {list : List Filter} {n : DomainName} {tail : List Byte} {len : ℤ}

/-- **A name of a question:** its dotted form is in the buffer, and the length leaves out the end of the name. -/
theorem getName_wire (hne : n.labels ≠ []) (hlen : ((n.wire ++ tail).length : ℤ) ≤ len) : ∃ di',
    ipfPDnsGetName order softd di (n.wire ++ tail) len = some (softd, di', (n.labels.flatMap Label.wire).length) ∧
      n.dotted ++ [0] <+: di'.dnsiBuffer := by
  have hshort := n.short
  have hlength : (n.wire ++ tail).length = (n.labels.flatMap Label.wire).length + 1 + tail.length := by
    simp only [DomainName.wire, length_append, length_singleton]
  have hwritten : written n.labels ≠ [] := by
    obtain ⟨l, ls, hls⟩ := exists_cons_of_ne_nil hne
    simp [hls, written]
  have hloop : getNameLoop softd ((n.wire ++ tail).length + 1) (n.labels.flatMap Label.wire ++ 0 :: tail) len (512 - 1) [] =
      some (softd, [] ++ written n.labels, some (0 :: tail)) :=
    getNameLoop_labels softd (by omega) (by omega) (by omega)
  have hwire : n.labels.flatMap Label.wire ++ 0 :: tail = n.wire ++ tail := by simp [DomainName.wire]
  rw [hwire, nil_append] at hloop
  have hused : (n.wire ++ tail).length - (0 :: tail).length = (n.labels.flatMap Label.wire).length := by
    rw [hlength, length_cons]
    omega
  unfold ipfPDnsGetName
  rw [hloop]
  dsimp only
  rw [hused]
  refine ⟨_, rfl, ?_⟩
  unfold DnsInfo.close
  rw [if_neg hwritten, written_dropLast hne]
  exact prefix_append _ _

/-- At the end of a name there is none. -/
theorem getName_end : ipfPDnsGetName order softd di (0 :: tail) len = some (softd, (di.write []).close order [], 0) := by
  simp [ipfPDnsGetName, getNameLoop]

/-- What a question is allowed by is its dotted name, as a string. -/
theorem allowQuery_dotted {name : List Byte} (h : name ++ [0] <+: di.dnsiBuffer) :
    ipfPDnsAllowQuery list di = allowLoop (cstring name) list := by
  obtain ⟨more, hmore⟩ := h
  have hstring : cstring di.dnsiBuffer = cstring name := by
    unfold cstring
    rw [← hmore, append_assoc, takeWhile_append]
    split
    · rename_i hall
      rw [singleton_append, takeWhile_cons_of_neg (by simp), append_nil]
      have hpre := List.takeWhile_prefix (l := name) fun b => b ≠ 0
      exact (hpre.eq_of_length hall).symm
    · rfl
  unfold ipfPDnsAllowQuery
  rw [hstring, if_pos (by rw [← hmore]; simp)]

/-! ## Questions -/

/-- After the first name, the loop is at the end of that name. -/
theorem inoutLoop_first {q : ℕ} (hne : n.labels ≠ []) :
    (inoutLoop order list (q + 1) softd di (n.wire ++ tail) (n.wire ++ tail).length).map (fun r => r.2.2) =
      match allowLoop (cstring n.dotted) list with
      | none => none
      | some rc => if rc ≠ 0 then some rc else if q = 0 then some 0 else some 1 := by
  obtain ⟨di', hget, hbuffer⟩ := @getName_wire order softd di n tail _ hne (Int.le_refl _)
  have hlength : (n.wire ++ tail).length = (n.labels.flatMap Label.wire).length + 1 + tail.length := by
    simp only [DomainName.wire, length_append, length_singleton]
  have hsome : (n.labels.flatMap Label.wire).length ≠ 0 := by
    obtain ⟨l, ls, hls⟩ := exists_cons_of_ne_nil hne
    simp [hls, Label.wire]
  have hrest : (n.wire ++ tail).drop (n.labels.flatMap Label.wire).length = 0 :: tail := by
    rw [DomainName.wire, append_assoc, drop_left]
    rfl
  unfold inoutLoop
  rw [if_neg (by omega), hget]
  dsimp only
  rw [if_neg hsome, allowQuery_dotted hbuffer]
  cases allowLoop (cstring n.dotted) list with
  | none => rfl
  | some rc =>
    dsimp only
    by_cases hrc : rc ≠ 0
    · rw [if_pos hrc, if_pos hrc]
      rfl
    · rw [if_neg hrc, if_neg hrc, hrest]
      cases q with
      | zero => rfl
      | succ q =>
        unfold inoutLoop
        rw [if_neg (by omega), getName_end]
        rfl

/-- The name of the root is taken for no name. -/
theorem inoutLoop_root {q : ℕ} :
    (inoutLoop order list (q + 1) softd di (0 :: tail) (0 :: tail).length).map (fun r => r.2.2) = some 1 := by
  unfold inoutLoop
  rw [if_neg (by rw [length_cons]; omega), getName_end]
  rfl

/-! ## Counts -/

theorem read_halves (w : BitVec 16) : Order.read .big (w.extractLsb' 8 8) (w.extractLsb' 0 8) = w.toNat ∧
      (Order.read .little (w.extractLsb' 8 8) (w.extractLsb' 0 8) = 0 ↔ w.toNat = 0) := by
  have hw := w.isLt
  simp only [Order.read, BitVec.extractLsb'_toNat, Nat.shiftRight_eq_div_pow]
  omega

theorem count_eq_zero_iff (order : Order) (m : Message) : m.count order = 0 ↔ m.questions = [] := by
  have hcount : m.qdcount.toNat = m.questions.length := by
    rw [Message.qdcount, toNat_ofNat, Nat.mod_eq_of_lt m.counted]
  obtain ⟨hbig, hlittle⟩ := read_halves m.qdcount
  rw [← length_eq_zero_iff, ← hcount]
  cases order with
  | big => rw [Message.count, hbig]
  | little => exact hlittle

/-! ## Messages -/

/-- The header of a message is stepped over, and its number of questions read. -/
theorem inout_wire (m : Message) : ipfPDnsInout order list softd di m.wire =
    (inoutLoop order list (m.count order) softd di (m.questions.flatMap Question.wire ++ m.rest)
      (m.questions.flatMap Question.wire ++ m.rest).length).map fun r => (r.1, r.2.1, APR_ERR r.2.2) := by
  have hudp := m.udp_length
  have hlength : m.wire.length = 20 + (m.questions.flatMap Question.wire ++ m.rest).length := by
    simp only [Message.wire, word, length_append, length_cons, length_nil]
    omega
  unfold ipfPDnsInout
  rw [if_neg (by omega), hlength]
  have hdrop : m.wire.drop 8 = word m.dnsId ++ word m.dnsCtlword ++ word m.qdcount ++ word m.dnsAncount ++ word m.dnsNscount ++
      word m.dnsArcount ++ (m.questions.flatMap Question.wire ++ m.rest) := drop_left' hudp
  have hdlen : ((20 + (m.questions.flatMap Question.wire ++ m.rest).length : ℕ) : ℤ) - 12 - 8 =
      (m.questions.flatMap Question.wire ++ m.rest).length := by
    omega
  rw [hdrop, hdlen]
  rfl

/-- What is returned for a message. -/
theorem inout_value (m : Message) : (ipfPDnsInout order list softd di m.wire).map (fun r => r.2.2) =
    (match m.questions with
    | [] => some 0
    | first :: _ =>
      if first.name.labels = [] then some 1
      else
        match allowLoop (cstring first.name.dotted) list with
        | none => none
        | some rc => if rc ≠ 0 then some rc else if m.count order = 1 then some 0 else some 1).map APR_ERR := by
  rw [inout_wire, Option.map_map]
  have hzero := count_eq_zero_iff order m
  cases hqs : m.questions with
  | nil =>
    rw [hzero.2 hqs]
    rfl
  | cons first qs =>
    obtain ⟨q, hq⟩ : ∃ q, m.count order = q + 1 :=
      Nat.exists_eq_succ_of_ne_zero fun hc => by simp [hzero.1 hc] at hqs
    have hdata : (first :: qs).flatMap Question.wire ++ m.rest =
        first.name.wire ++ (word first.qtype ++ word first.qclass ++ qs.flatMap Question.wire ++ m.rest) := by
      simp only [flatMap_cons, Question.wire, append_assoc]
    rw [hq, hdata]
    generalize word first.qtype ++ word first.qclass ++ qs.flatMap Question.wire ++ m.rest = tail
    dsimp only
    by_cases hroot : first.name.labels = []
    · have hwire : first.name.wire = [0] := by simp [DomainName.wire, hroot]
      have hloop := @inoutLoop_root order softd di list tail q
      rw [if_pos hroot, hwire, singleton_append, ← hloop, Option.map_map]
      rfl
    · have hloop := @inoutLoop_first order softd di list first.name tail q hroot
      rw [if_neg hroot]
      simp only [Nat.add_eq_right]
      rw [← hloop, Option.map_map]
      rfl

/-- **When a message is rejected for its questions,** with every list of entries that commands built. -/
theorem inout_meets_iff (order : Order) (ctls : List (Bool × ApCtl)) (softd : Softc) (di : DnsInfo) (m : Message) :
    Meets order (built ctls) softd di m ↔ Looks order (built ctls) m := by
  have hvalue := @inout_value order softd di (built ctls) m
  generalize built ctls = list at hvalue ⊢
  unfold Meets
  generalize ipfPDnsInout order list softd di m.wire = r at hvalue
  have hmeets : (∃ v, r = some v ∧ (v.2.2 ≠ 0 ↔ m.Blocked list)) ↔
      ∃ rc, r.map (fun v => v.2.2) = some rc ∧ (rc ≠ 0 ↔ m.Blocked list) := by
    cases r with
    | none => simp
    | some v => simp
  have hreject : APR_ERR 1 ≠ 0 := by decide
  have hpass : APR_ERR 0 = 0 := by decide
  have hsome : ∀ x : BitVec 32, (∃ rc, (some x).map APR_ERR = some rc ∧ (rc ≠ 0 ↔ m.Blocked list)) ↔
      (APR_ERR x ≠ 0 ↔ m.Blocked list) := by
    intro x
    simp only [Option.map_some, Option.some.injEq, exists_eq_left']
  rw [hmeets, hvalue]
  unfold Looks
  cases hqs : m.questions with
  | nil =>
    dsimp only
    rw [hsome, iff_true]
    refine ⟨fun h => absurd hpass h, fun ⟨q, hq, _⟩ => ?_⟩
    rw [hqs] at hq
    cases hq
  | cons first qs =>
    dsimp only
    by_cases hroot : first.name.labels = []
    · rw [if_pos hroot, if_pos hroot, hsome]
      exact ⟨fun h => h.1 hreject, fun h => ⟨fun _ => h, fun _ => hreject⟩⟩
    · rw [if_neg hroot, if_neg hroot]
      cases allowLoop (cstring first.name.dotted) list with
      | none => simp
      | some rc =>
        dsimp only
        by_cases hrc : rc ≠ 0
        · rw [if_pos hrc, if_pos hrc, hsome]
        · rw [if_neg hrc, if_neg hrc]
          by_cases hone : m.count order = 1
          · rw [if_pos hone, hsome]
            exact iff_congr (iff_of_false (fun h => h hpass) fun h => h hone) Iff.rfl
          · rw [if_neg hone, hsome]
            exact iff_congr (iff_of_true hreject hone) Iff.rfl

/-! ## One question -/

/-- `www.cnn.com` -/
def wwwCnnCom : DomainName where
  labels := [⟨[0x77, 0x77, 0x77], by decide, by decide⟩, ⟨[0x63, 0x6e, 0x6e], by decide, by decide⟩,
    ⟨[0x63, 0x6f, 0x6d], by decide, by decide⟩]
  short := by decide

/-- A query for one name. -/
def oneQuestion : Message := ⟨[0, 0, 0, 53, 0, 0, 0, 0], rfl, 1, 0x0100, [⟨wwwCnnCom, 1, 1⟩], by decide, 0, 0, 0, []⟩

/-- **A query that no entry is about is rejected,** where bytes of words are stored in the other order. -/
theorem inout_not_meets : ¬Meets .little (built []) ⟨0, 0, 0⟩ ⟨1, List.replicate 512 0⟩ oneQuestion := by
  rw [inout_meets_iff]
  intro h
  have hblocked : oneQuestion.Blocked (built []) := h.1 (by decide)
  obtain ⟨q, -, f, hf, -⟩ := hblocked
  cases hf

end Ipfilter.DnsPxy
