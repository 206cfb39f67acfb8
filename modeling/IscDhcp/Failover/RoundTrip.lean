import IscDhcp.Failover.Framing
import Mathlib.Data.Nat.Bitwise

/-!
A message that the server sends comes out of the link as it went in, provided that it is not
longer than the longest message the link accepts. The sender does not look at that limit, and a
client identifier or a name can exceed it.
-/

namespace IscDhcp.Wire

open BigEndian List Option

/-! ### An option -/

/-- The value that an option is given. -/
def FailoverOptionInfo.given (info : FailoverOptionInfo) : OptionArg → Value
  | .nums vals =>
    match info.type with
    | .uint16 => .nums ((vals.take (info.count vals.length)).map (· % 256 ^ 2))
    | .uint32 => .nums ((vals.take (info.count vals.length)).map (· % 256 ^ 4))
    | _ => .raw ((vals.take (info.count vals.length)).map UInt8.ofNat)
  | .addrs ilen addrs =>
    .raw ((addrs.take (info.count addrs.length)).flatMap fun a => (List.range ilen).map a)
  | .bytes data => .raw data
  | .ddns code₀ code₁ data => .ddns [UInt8.ofNat code₀, UInt8.ofNat code₁] data

/-- There are as many arguments as the option takes. -/
def FailoverOptionInfo.Enough (info : FailoverOptionInfo) : OptionArg → Prop
  | .nums vals => info.numPresent ≤ vals.length
  | .addrs _ addrs => info.numPresent ≤ addrs.length
  | .bytes _ => True
  | .ddns .. => False

variable {info : FailoverOptionInfo}

/-- **The value of an option is read as it was given.** -/
lemma FailoverOptionInfo.value_data {code : ℕ} {arg : OptionArg} {data : Bytes}
    (hi : ftOption code = some info) (hd : info.data arg = some data) (harg : info.Enough arg) :
    info.value data = some (info.given arg) := by
  obtain ⟨type, num, bit⟩ := info
  have hone (v : ℕ) : toBytes 1 v = [UInt8.ofNat v] := rfl
  have hword (k v : ℕ) : words k 1 (toBytes k v) = [v % 256 ^ k] := by
    simpa using words_flatMap k [v]
  rcases shape_ftOption hi with ⟨hn, ht⟩ | ⟨hn, ht⟩
  · -- a string of bytes
    obtain rfl : num = 0 := hn
    cases arg <;> rcases ht with ht | ht <;> obtain rfl : type = _ := ht <;> cases hd <;>
      first | exact harg.elim | rfl
  · obtain rfl : num = 1 := hn
    cases arg with
    | nums vals =>
      obtain ⟨v, vs, rfl⟩ := exists_cons_of_length_pos (Nat.lt_of_succ_le harg)
      cases type <;> simp only [FailoverOptionInfo.data, reduceCtorEq] at hd <;>
        cases hd <;>
        simp [FailoverOptionInfo.value, FailoverOptionInfo.given, FailoverOptionInfo.count,
          FtType.ftSizes, FtType.elements, hword, hone]
    | addrs ilen addrs =>
      obtain ⟨a, as, rfl⟩ := exists_cons_of_length_pos (Nat.lt_of_succ_le harg)
      cases type <;> simp only [FailoverOptionInfo.data, reduceCtorEq] at hd
      split_ifs at hd with h4
      obtain rfl : ilen = 4 := not_not.mp h4
      cases hd
      simp [FailoverOptionInfo.value, FailoverOptionInfo.given, FailoverOptionInfo.count,
        FtType.ftSizes, FtType.elements]
    | bytes b => cases type <;> simp [FailoverOptionInfo.data] at hd ht
    | ddns code0 code1 b => exact harg.elim

/-- An option that a message of the given type may carry, with the arguments it takes. -/
def Draft.Fits (type : ℕ) (d : Draft) : Prop :=
  ∃ info, ftOption d.code = some info ∧ info.Enough d.arg ∧
    ftoAllowed.getD type 0 &&& info.bit ≠ 0

/-- The value and the bit of an option are put into the message. -/
def FailoverMessage.put (m : FailoverMessage) (d : Draft) : FailoverMessage :=
  match ftOption d.code with
  | none => m
  | some info => m.store d.code info.bit (info.given d.arg)

lemma and_two_pow_eq_zero_iff (n c : ℕ) : n &&& 2 ^ c = 0 ↔ n.testBit c = false := by
  rw [Nat.and_two_pow]
  cases n.testBit c <;> simp

section Option

variable {m : FailoverMessage} {d : Draft} {b r : Bytes}

lemma dhcpFailoverMakeOption_eq (h : dhcpFailoverMakeOption d = some b) :
    ∃ info data, ftOption d.code = some info ∧ info.data d.arg = some data ∧
      b = toBytes 2 d.code ++ toBytes 2 data.length ++ data := by
  rw [dhcpFailoverMakeOption] at h
  split_ifs at h
  obtain ⟨info, hi, h⟩ := bind_eq_some_iff.mp h
  obtain ⟨data, hd, h⟩ := bind_eq_some_iff.mp h
  exact ⟨info, data, hi, hd, (some.inj h).symm⟩

/-- The code, the length and the data of an option. -/
def Draft.size (d : Draft) : ℕ :=
  4 + ((do (← ftOption d.code).data d.arg).getD []).length

lemma length_make (h : dhcpFailoverMakeOption d = some b) : b.length = d.size := by
  obtain ⟨info, data, hi, hd, rfl⟩ := dhcpFailoverMakeOption_eq h
  simp [Draft.size, hi, hd, ← add_assoc]

lemma length_make_flatten {ds : List Draft} {bs : List Bytes}
    (h : ds.mapM dhcpFailoverMakeOption = some bs) :
    bs.flatten.length = (ds.map Draft.size).sum := by
  induction ds generalizing bs with
  | nil =>
    cases h
    rfl
  | cons d ds ih =>
    rw [mapM_cons] at h
    obtain ⟨b, hb, h⟩ := bind_eq_some_iff.mp h
    obtain ⟨bs', hbs, h⟩ := bind_eq_some_iff.mp h
    cases h
    rw [flatten_cons, length_append, length_make hb, ih hbs, map_cons, sum_cons]

/-- **An option is read as it was made**, up to the first byte behind it. -/
lemma FailoverMessage.optionOf_make (h : dhcpFailoverMakeOption d = some b)
    (hfit : d.Fits m.type) (hlen : b.length ≤ dhcpFailoverMaxMessageSize)
    (htype : m.type ≤ ftmMax) (hnew : m.optionsPresent.testBit d.code = false) (r : Bytes) :
    m.optionOf (b ++ r) = some (m.put d, b.length) := by
  obtain ⟨info, data, hi, hd, rfl⟩ := dhcpFailoverMakeOption_eq h
  obtain ⟨info', hi', henough, hall⟩ := hfit
  cases hi.symm.trans hi'
  have hcode : d.code < 30 := code_lt_of_ftOption hi
  have htake : (toBytes 2 d.code ++ toBytes 2 data.length ++ data ++ r).take 2 =
    toBytes 2 d.code := by
    rw [append_assoc, append_assoc, take_left' (length_toBytes _ _)]
  have hdrop : (toBytes 2 d.code ++ toBytes 2 data.length ++ data ++ r).drop 2 =
      toBytes 2 data.length ++ (data ++ r) := by
    rw [append_assoc, append_assoc, drop_left' (length_toBytes _ _)]
  have hdrop4 : (toBytes 2 d.code ++ toBytes 2 data.length ++ data ++ r).drop 4 = data ++ r := by
    rw [append_assoc, drop_left' (by simp)]
  have hl : (toBytes 2 d.code ++ toBytes 2 data.length ++ data).length = 4 + data.length := by
    simp only [length_append, length_toBytes]
  have hdlen : data.length < 256 ^ 2 := by
    have : 4 + data.length ≤ 2048 := hl ▸ hlen
    omega
  rw [optionOf, htake, hdrop, hdrop4, take_left' (length_toBytes _ _), ofBytes_toBytes,
    ofBytes_toBytes, Nat.mod_eq_of_lt (hcode.trans (by decide)), Nat.mod_eq_of_lt hdlen,
    length_append, hl, if_neg (by omega), hi, take_left]
  dsimp only
  have hbit := bit_ftOption hi
  rw [FailoverMessage.take, if_neg (by rw [hbit, not_not, and_two_pow_eq_zero_iff, hnew]),
    if_neg hall, FailoverOptionInfo.value_data hi hd henough, FailoverMessage.put, hi]
  rfl

@[simp] lemma FailoverMessage.type_put (m : FailoverMessage) (d : Draft) :
    (m.put d).type = m.type := by
  rw [FailoverMessage.put]
  split <;> rfl

lemma FailoverMessage.testBit_put {info : FailoverOptionInfo} (h : ftOption d.code = some info)
    (c : ℕ) :
    (m.put d).optionsPresent.testBit c = (m.optionsPresent.testBit c || decide (d.code = c)) := by
  rw [FailoverMessage.put, h]
  change (m.optionsPresent ||| info.bit).testBit c = _
  rw [bit_ftOption h, Nat.testBit_or, Nat.testBit_two_pow]

lemma FailoverMessage.optionsOf_make {ds : List Draft} {bs : List Bytes} {n : ℕ}
    (h : ds.mapM dhcpFailoverMakeOption = some bs) (hfit : ∀ d ∈ ds, d.Fits m.type)
    (hlen : bs.flatten.length ≤ dhcpFailoverMaxMessageSize) (htype : m.type ≤ ftmMax)
    (hnew : ∀ d ∈ ds, m.optionsPresent.testBit d.code = false)
    (hnodup : (ds.map (·.code)).Nodup) (hn : bs.flatten.length ≤ n) :
    FailoverMessage.optionsOf n m bs.flatten = some (ds.foldl FailoverMessage.put m) := by
  induction ds generalizing m bs n with
  | nil =>
    cases h
    cases n <;> rfl
  | cons d ds ih =>
    rw [mapM_cons] at h
    obtain ⟨b, hb, h⟩ := bind_eq_some_iff.mp h
    obtain ⟨bs', hbs, h⟩ := bind_eq_some_iff.mp h
    cases h
    obtain ⟨info, data, hi, hd, hbeq⟩ := dhcpFailoverMakeOption_eq hb
    have hpos : 4 ≤ b.length := by simp [hbeq]; omega
    rw [flatten_cons, length_append] at hlen hn
    obtain ⟨n, rfl⟩ : ∃ k, n = k + 1 := ⟨n - 1, by omega⟩
    have hfirst := optionOf_make hb (hfit d (mem_cons_self ..)) (by omega) htype
      (hnew d (mem_cons_self ..)) bs'.flatten
    have hne : b ++ bs'.flatten ≠ [] := by
      intro h
      rw [append_eq_nil_iff] at h
      simp [h.1] at hpos
    obtain ⟨hnot, hnd⟩ := nodup_cons.mp hnodup
    rw [flatten_cons, FailoverMessage.optionsOf, if_neg hne, hfirst, bind_eq_bind, bind_some]
    dsimp only
    rw [drop_left]
    refine ih hbs ?_ (by omega) (by simpa using htype) ?_ hnd (by omega)
    · exact fun e he => by simpa using hfit e (mem_cons_of_mem _ he)
    · intro e he
      rw [testBit_put hi, hnew e (mem_cons_of_mem _ he), Bool.false_or, decide_eq_false_iff_not]
      intro heq
      exact hnot (mem_map.mpr ⟨e, he, heq.symm⟩)

end Option

/-! ### A message -/

/-- The header and the options. -/
def Outgoing.size (m : Outgoing) : ℕ := 12 + (m.put.map Draft.size).sum

structure Outgoing.WellFormed (m : Outgoing) : Prop where
  type : m.type ≤ ftmMax
  fits : ∀ d ∈ m.put, d.Fits m.type
  nodup : (m.put.map (·.code)).Nodup

structure Outgoing.Carries (m : Outgoing) (i : FailoverMessage) : Prop where
  type : i.type = m.type
  xid : i.xid = m.xid % bit32
  present : ∀ code info, ftOption code = some info →
    (i.optionsPresent &&& info.bit ≠ 0 ↔ code ∈ m.put.map (·.code))
  value : ∀ d ∈ m.put, ∀ info, ftOption d.code = some info →
    i.field d.code = some (info.given d.arg)

/-- The bytes are accepted, whatever follows them, and carry the message. -/
def Outgoing.RoundTrips (m : Outgoing) (b : Bytes) : Prop :=
  ∀ (l : Link) (r : Bytes), l.inBuf = b ++ r →
    ∃ l₁ l₂, l.readLength = .ok l₁ ∧ l₁.readMessage = .ok l₂ ∧ l₂.inBuf = r ∧ m.Carries l₂.imsg

section Message

variable {m : Outgoing} {i : FailoverMessage} {ds : List Draft} {b : Bytes} {curTime : Time}

lemma foldl_put_header : (ds.foldl FailoverMessage.put i).type = i.type ∧
    (ds.foldl FailoverMessage.put i).xid = i.xid := by
  induction ds generalizing i with
  | nil => exact ⟨rfl, rfl⟩
  | cons d ds ih =>
    have hput : (i.put d).type = i.type ∧ (i.put d).xid = i.xid := by
      rw [FailoverMessage.put]
      split <;> exact ⟨rfl, rfl⟩
    rw [foldl_cons, ih.1, ih.2]
    exact hput

lemma foldl_put_testBit (hfit : ∀ d ∈ ds, ∃ info, ftOption d.code = some info) (c : ℕ) :
    (ds.foldl FailoverMessage.put i).optionsPresent.testBit c =
      (i.optionsPresent.testBit c || decide (c ∈ ds.map (·.code))) := by
  induction ds generalizing i with
  | nil => simp
  | cons d ds ih =>
    obtain ⟨info, hi⟩ := hfit d (mem_cons_self ..)
    rw [foldl_cons, ih fun e he => hfit e (mem_cons_of_mem _ he),
      FailoverMessage.testBit_put hi, Bool.or_assoc]
    congr 1
    simp [eq_comm]

lemma foldl_put_field_of_notMem {c : ℕ} (hc : c ∉ ds.map (·.code)) :
    (ds.foldl FailoverMessage.put i).field c = i.field c := by
  induction ds generalizing i with
  | nil => rfl
  | cons d ds ih =>
    rw [map_cons, mem_cons, not_or] at hc
    rw [foldl_cons, ih hc.2, FailoverMessage.put]
    split
    · rfl
    · exact if_neg hc.1

lemma foldl_put_field (hnodup : (ds.map (·.code)).Nodup) {d : Draft} (hd : d ∈ ds)
    {info : FailoverOptionInfo} (hi : ftOption d.code = some info) :
    (ds.foldl FailoverMessage.put i).field d.code = some (info.given d.arg) := by
  obtain ⟨before, after, rfl⟩ := append_of_mem hd
  rw [map_append, map_cons] at hnodup
  have hlast := (nodup_cons.mp hnodup.of_append_right).1
  rw [foldl_append, foldl_cons, foldl_put_field_of_notMem hlast, FailoverMessage.put, hi]
  exact if_pos rfl

section

variable (h : dhcpFailoverPutMessage curTime m = some b)

include h

lemma dhcpFailoverPutMessage_eq :
    ∃ bs, m.put.mapM dhcpFailoverMakeOption = some bs ∧
      b = toBytes 2 (bs.flatten.length + 12) ++ toBytes 1 m.type ++ toBytes 1 12 ++
        toBytes 4 curTime ++ toBytes 4 m.xid ++ bs.flatten ∧
      b.length = bs.flatten.length + 12 := by
  obtain ⟨bs, hbs, h⟩ := bind_eq_some_iff.mp h
  refine ⟨bs, hbs, (some.inj h).symm, ?_⟩
  rw [← some.inj h]
  simp only [length_append, length_toBytes]
  omega

lemma length_put : b.length = m.size := by
  obtain ⟨bs, hbs, -, hlen⟩ := dhcpFailoverPutMessage_eq h
  rw [hlen, length_make_flatten hbs, Outgoing.size, add_comm]

lemma messageOf_put (hm : m.WellFormed)
    (hlen : b.length ≤ dhcpFailoverMaxMessageSize) : ∃ i, messageOf b = some i ∧ m.Carries i := by
  obtain ⟨bs, hbs, rfl, hl⟩ := dhcpFailoverPutMessage_eq h
  have htype : m.type < 256 := hm.type.trans_lt (by decide)
  have hpay : payoff (toBytes 2 (bs.flatten.length + 12) ++ toBytes 1 m.type ++ toBytes 1 12 ++
      toBytes 4 curTime ++ toBytes 4 m.xid ++ bs.flatten) = 12 := ofBytes_toBytes 1 12
  have hhead : headerOf (toBytes 2 (bs.flatten.length + 12) ++ toBytes 1 m.type ++ toBytes 1 12 ++
      toBytes 4 curTime ++ toBytes 4 m.xid ++ bs.flatten) =
      { type := m.type, time := curTime % 256 ^ 4, xid := m.xid % 256 ^ 4 } := calc
    _ = ({ type := ofBytes (toBytes 1 m.type), time := ofBytes (toBytes 4 curTime),
           xid := ofBytes (toBytes 4 m.xid) } : FailoverMessage) := rfl
    _ = _ := by
      rw [ofBytes_toBytes, ofBytes_toBytes, ofBytes_toBytes, pow_one, Nat.mod_eq_of_lt htype]
  generalize hi : ({ type := m.type, time := curTime % 256 ^ 4, xid := m.xid % 256 ^ 4 } :
    FailoverMessage) = i at hhead
  have hfit : ∀ d ∈ m.put, ∃ info, ftOption d.code = some info := fun d hd =>
    let ⟨info, hinfo, _⟩ := hm.fits d hd
    ⟨info, hinfo⟩
  have hnone (c : ℕ) : i.optionsPresent.testBit c = false := by
    rw [← hi]
    exact Nat.zero_testBit c
  have hopts : FailoverMessage.optionsOf (bs.flatten.length + 12) i bs.flatten =
      some (m.put.foldl FailoverMessage.put i) := by
    refine FailoverMessage.optionsOf_make hbs ?_ (by omega) ?_ (fun d _ => hnone _) hm.nodup
      (by omega)
    · rw [← hi]
      exact hm.fits
    · rw [← hi]
      exact hm.type
  refine ⟨m.put.foldl FailoverMessage.put i, ?_, ?_, ?_, ?_, ?_⟩
  · rw [messageOf, hhead, hpay, hl, ← hopts]
    rfl
  · rw [foldl_put_header.1, ← hi]
  · rw [foldl_put_header.2, ← hi]
    rfl
  · intro c info hc
    rw [bit_ftOption hc, ne_eq, and_two_pow_eq_zero_iff, foldl_put_testBit hfit, hnone,
      Bool.false_or, decide_eq_false_iff_not, not_not]
  · intro d hd info hc
    exact foldl_put_field hm.nodup hd hc

lemma put_prefix :
    12 ≤ b.length ∧ ofBytes (b.take 2) = b.length % 256 ^ 2 ∧ (b.drop 3).take 1 = [12] := by
  obtain ⟨bs, -, rfl, hl⟩ := dhcpFailoverPutMessage_eq h
  refine ⟨by omega, ?_, rfl⟩
  rw [hl, ← ofBytes_toBytes]
  rfl

/-- **A message makes the round trip just if the link accepts its length.** A length that does
not fit its two bytes may be accepted for what remains of it, but then the message is cut. -/
lemma roundTrips_iff (hm : m.WellFormed) :
    m.RoundTrips b ↔
      dhcpFailoverMinMessageSize ≤ b.length ∧ b.length ≤ dhcpFailoverMaxMessageSize := by
  obtain ⟨hmin, hfirst, hpay⟩ := put_prefix h
  constructor
  · intro hr
    obtain ⟨l1, l2, hl1, hl2, hnil, -⟩ := hr { inBuf := b } [] (by simp)
    rw [Link.readLength_eq (by change 2 ≤ b.length; omega)] at hl1
    generalize hlen : ofBytes (b.take 2) = len at hl1 hfirst
    split_ifs at hl1 with hbad
    obtain ⟨hlo, hhi⟩ : 12 ≤ len ∧ len ≤ 2048 := by
      simpa [dhcpFailoverMinMessageSize, dhcpFailoverMaxMessageSize] using hbad
    have hflen : (b.take len).length = len := by rw [length_take]; omega
    have hoff : payoff (b.take len) = 12 := by
      rw [payoff, drop_take, take_take, min_eq_left (by omega), hpay]
      rfl
    have hread := Link.readMessage_eq (l := l1) ⟨hoff.ge, by rw [hoff, hflen]; exact hlo⟩
      (by rw [← drop_append_of_le_length (by omega), take_append_drop, ← Except.ok.inj hl1])
      (by rw [hflen, ← Except.ok.inj hl1]) (by rw [← Except.ok.inj hl1])
      (by rw [← Except.ok.inj hl1])
    rw [hread] at hl2
    have hcut : b.drop len = [] := by
      cases hmsg : messageOf (b.take len) with
      | none => rw [hmsg] at hl2; cases hl2
      | some i =>
        rw [hmsg] at hl2
        rw [← hnil, ← Except.ok.inj hl2]
    exact ⟨hmin, (drop_eq_nil_iff.mp hcut).trans hhi⟩
  · rintro ⟨-, hmax⟩ l r hbuf
    obtain ⟨i, hi, hcarries⟩ := messageOf_put h hm hmax
    have hlen : ofBytes (l.inBuf.take 2) = b.length := by
      rw [hbuf, take_append_of_le_length (by omega), hfirst, Nat.mod_eq_of_lt]
      exact hmax.trans_lt (by decide)
    have hstep : InStep b := by
      have hoff : payoff b = 12 := by rw [payoff, hpay]; rfl
      exact ⟨hoff.ge, by omega⟩
    have hdrop : l.inBuf.drop 2 = b.drop 2 ++ r := by
      rw [hbuf, drop_append_of_le_length (by omega)]
    let l1 : Link :=
      { l with
        state := .messageWait, imsg := {}, inBuf := l.inBuf.drop 2, imsgLen := b.length,
          imsgCount := 0 }
    refine ⟨l1, { l1 with inBuf := r, imsgCount := b.length, imsg := i, imsgPayoff := payoff b },
      ?_, ?_,
      rfl, hcarries⟩
    · rw [Link.readLength_eq (by rw [hbuf, length_append]; omega), hlen,
        if_neg (by rw [not_or, not_lt]; exact ⟨hmin, not_lt.mpr hmax⟩)]
    · rw [Link.readMessage_eq hstep hdrop rfl rfl rfl, hi]

end

end Message

/-! ### The messages of the server -/

/-- At its place in the message an option of the given code may stand, or none. -/
def Expects (code : ℕ) (o : Option Draft) : Prop :=
  ∀ d ∈ o, d.code = code ∧ ∃ info, ftOption d.code = some info ∧ info.Enough d.arg

section Expects

variable {code : ℕ} {o : Option Draft} {m : Outgoing} {codes : List ℕ}

lemma Expects.none : Expects code none := by simp [Expects]

/-- An option that takes at most one argument has enough with one. -/
lemma Expects.one {arg : OptionArg} (h : (ftOption code).isSome)
    (harg : ∀ info : FailoverOptionInfo, info.numPresent ≤ 1 → info.Enough arg) :
    Expects code (some ⟨code, arg⟩) := by
  obtain ⟨info, hi⟩ := isSome_iff_exists.mp h
  intro d hd
  cases hd
  refine ⟨rfl, info, hi, harg info ?_⟩
  rcases shape_ftOption hi with ⟨hn, -⟩ | ⟨hn, -⟩ <;> omega

lemma Expects.num (h : (ftOption code).isSome) (v : ℕ) (vs : List ℕ) :
    Expects code (some ⟨code, .nums (v :: vs)⟩) :=
  .one h fun _ hn => hn.trans (Nat.le_add_left 1 vs.length)

lemma Expects.addr (h : (ftOption code).isSome) (ilen : ℕ) (a : ℕ → UInt8) :
    Expects code (some ⟨code, .addrs ilen [a]⟩) :=
  .one h fun _ hn => hn

lemma Expects.str (h : (ftOption code).isSome) (data : Bytes) :
    Expects code (some (.str code data)) :=
  .one h fun _ _ => trivial

lemma Expects.ite {p : Prop} [Decidable p] {o' : Option Draft} (h : Expects code o)
    (h' : Expects code o') : Expects code (if p then o else o') := by
  split_ifs
  exacts [h, h']

lemma Expects.map {α : Type} {f : α → Draft} (x : Option α) (h : ∀ a, Expects code (some (f a))) :
    Expects code (x.map f) := by
  cases x with
  | none => exact Expects.none
  | some a => exact h a

/-- Different options that a message of the given type may have. -/
def Allowed (type : ℕ) (codes : List ℕ) : Prop :=
  type ≤ ftmMax ∧ codes.Nodup ∧
    ∀ c ∈ codes, ∀ info ∈ ftOption c, ftoAllowed.getD type 0 &&& info.bit ≠ 0

instance (type : ℕ) (codes : List ℕ) : Decidable (Allowed type codes) :=
  inferInstanceAs (Decidable (_ ∧ _))

lemma reduceOption_of_expects {os : List (Option Draft)} (h : List.Forall₂ Expects codes os) :
    (os.reduceOption.map (·.code)).Sublist codes ∧
      ∀ d ∈ os.reduceOption, ∃ info, ftOption d.code = some info ∧ info.Enough d.arg := by
  induction h with
  | nil => exact ⟨.slnil, fun _ h => absurd h not_mem_nil⟩
  | @cons c o codes os ho hos ih =>
    cases o with
    | none => exact ⟨ih.1.cons _, ih.2⟩
    | some d =>
      obtain ⟨rfl, hd⟩ := ho d rfl
      refine ⟨ih.1.cons_cons _, fun e he => ?_⟩
      rcases mem_cons.mp he with rfl | he
      · exact hd
      · exact ih.2 e he

lemma Outgoing.wellFormed_of (type : ℕ) (codes : List ℕ) (htype : m.type = type)
    (hall : Allowed type codes) (h : List.Forall₂ Expects codes m.options) : m.WellFormed := by
  subst htype
  obtain ⟨htype, hnodup, hall⟩ := hall
  obtain ⟨hsub, hopt⟩ := reduceOption_of_expects h
  refine ⟨htype, fun d hd => ?_, hnodup.sublist hsub⟩
  obtain ⟨info, hi, henough⟩ := hopt d hd
  exact ⟨info, hi, henough, hall _ (hsub.subset (mem_map_of_mem hd)) info hi⟩

end Expects

/-- **Every message of the server is well formed.** -/
lemma Outgoing.Sent.wellFormed {m : Outgoing} (h : m.Sent) : m.WellFormed := by
  cases h with
  | contact xid => exact wellFormed_of ftmContact [] rfl (by decide) .nil
  | poolreq xid => exact wellFormed_of ftmPoolreq [] rfl (by decide) .nil
  | updreq xid => exact wellFormed_of ftmUpdreq [] rfl (by decide) .nil
  | updreqall xid => exact wellFormed_of ftmUpdreqall [] rfl (by decide) .nil
  | upddone xid => exact wellFormed_of ftmUpddone [] rfl (by decide) .nil
  | state xid serverState serverFlags stos =>
    refine wellFormed_of ftmState [ftoServerState, ftoServerFlags, ftoStos] rfl (by decide) ?_
    exact .cons (.num rfl _ _) (.cons (.num rfl _ _) (.cons (.num rfl _ _) .nil))
  | connect xid state =>
    refine wellFormed_of ftmConnect
      [ftoRelationshipName, ftoMaxUnacked, ftoReceiveTimer, ftoVendorClass,
      ftoProtocolVersion, ftoTlsRequest, ftoMclt, ftoHba] rfl (by decide) ?_
    exact .cons (.str rfl _) (.cons (.num rfl _ _) (.cons (.num rfl _ _) (.cons (.str rfl _)
      (.cons (.num rfl _ _) (.cons (.num rfl _ _) (.cons (.num rfl _ _)
      (.cons (.map _ fun _ => .str rfl _) .nil)))))))
  | connectack xid state peerName tlsRequest reason errmsg =>
    refine wellFormed_of ftmConnectack
      [ftoRelationshipName, ftoMaxUnacked, ftoReceiveTimer, ftoVendorClass,
      ftoProtocolVersion, ftoTlsReply, ftoRejectReason, ftoMessage] rfl (by decide) ?_
    exact .cons (.map _ fun _ => .str rfl _) (.cons (.map _ fun _ => .num rfl _ _)
      (.cons (.map _ fun _ => .num rfl _ _) (.cons (.str rfl _) (.cons (.num rfl _ _)
      (.cons (.ite (.num rfl _ _) .none) (.cons (.ite (.num rfl _ _) .none)
      (.cons (.ite (.map _ fun _ => .str rfl _) .none) .nil)))))))
  | disconnect xid reason message =>
    refine wellFormed_of ftmDisconnect [ftoRejectReason, ftoMessage] rfl (by decide) ?_
    exact .cons (.num rfl _ _) (.cons (.map _ fun _ => .str rfl _) .nil)
  | bndupd ilen iabuf lease =>
    refine wellFormed_of ftmBndupd
      [ftoAssignedIpAddress, ftoBindingStatus, ftoClientIdentifier, ftoChaddr,
      ftoLeaseExpiry, ftoPotentialExpiry, ftoStos, ftoCltt, ftoIpFlags, 9, 8, 7] rfl (by decide) ?_
    exact .cons (.addr rfl _ _) (.cons (.num rfl _ _) (.cons (.ite (.str rfl _) .none)
      (.cons (.ite (.str rfl _) .none) (.cons (.num rfl _ _) (.cons (.num rfl _ _)
      (.cons (.num rfl _ _) (.cons (.ite (.num rfl _ _) .none) (.cons (.ite (.num rfl _ _) .none)
      (.cons .none (.cons .none (.cons .none .nil)))))))))))
  | bndack xid addr reason message =>
    refine wellFormed_of ftmBndack [ftoAssignedIpAddress, ftoRejectReason, ftoMessage] rfl
      (by decide) ?_
    exact .cons (.addr rfl _ _) (.cons (.ite (.num rfl _ _) .none)
      (.cons (.ite (.map _ fun _ => .str rfl _) .none) .nil))
  | poolresp xid leases =>
    exact wellFormed_of ftmPoolresp [ftoAddressesTransferred] rfl (by decide)
      (.cons (.num rfl _ _) .nil)

/-- **Round trip of the failover messages.** Bytes that the server puts on the link for a message
are read by the peer as that message just if there are no more of them than the peer accepts. There
are as many as the header and the options take. -/
theorem message_round_trip_iff (curTime : Time) (m : Outgoing) (b : Bytes) (hm : m.Sent)
    (hb : dhcpFailoverPutMessage curTime m = some b) :
    b.length = m.size ∧ (m.RoundTrips b ↔
      dhcpFailoverMinMessageSize ≤ m.size ∧ m.size ≤ dhcpFailoverMaxMessageSize) := by
  rw [← length_put hb]
  exact ⟨rfl, roundTrips_iff hb hm.wellFormed⟩

/-- The update of a lease whose client has an identifier of two bytes. -/
theorem message_round_trip_bndupd :
    ∃ b, dhcpFailoverPutMessage 7 (dhcpFailoverSendBindUpdate 4 (fun _ => 10)
      { uid := some [1, 2], ends := 100 }) = some b ∧ b.length = 55 ∧
      (dhcpFailoverSendBindUpdate 4 (fun _ => 10) { uid := some [1, 2], ends := 100 }).RoundTrips
        b := by
  obtain ⟨hlen, hiff⟩ := message_round_trip_iff 7 _ _
    (.bndupd 4 (fun _ => 10) { uid := some [1, 2], ends := 100 }) rfl
  exact ⟨_, rfl, rfl, hiff.mpr (hlen ▸ by decide)⟩

/-- A lease whose client has an identifier of two thousand bytes. -/
def longUidLease : Lease := { uid := some (List.replicate 2000 1) }

/-- Its update is put on the link, and the peer does not accept it. -/
theorem long_uid_update_is_rejected :
    ∃ b, dhcpFailoverPutMessage 0 (dhcpFailoverSendBindUpdate 4 (fun _ => 10) longUidLease) =
      some b ∧
      ¬(dhcpFailoverSendBindUpdate 4 (fun _ => 10) longUidLease).RoundTrips b := by
  have hput : (dhcpFailoverPutMessage 0
      (dhcpFailoverSendBindUpdate 4 (fun _ => 10) longUidLease)).map length = some 2053 := by
    decide +kernel
  obtain ⟨b, hb, hlen⟩ := map_eq_some_iff.mp hput
  refine ⟨b, hb, fun h => ?_⟩
  have := ((roundTrips_iff hb (Outgoing.Sent.bndupd _ _ _).wellFormed).mp h).2
  rw [hlen] at this
  exact absurd this (by decide)

end IscDhcp.Wire
