import IscDhcp.Failover.Link
import Mathlib.Tactic.Positivity

/-!
What the bytes of a message say, and that the link reads just that. A message whose payload
offset lies between its header and its end is read from its own bytes, whatever follows them, and
the next message begins right after it. Any other offset sets the link out of step.
-/

namespace IscDhcp.Wire

open BigEndian List

/-! ### What a message says -/

def FtType.elements (type : FtType) (count : ℕ) (data : Bytes) : Option Value :=
  match type with
  | .uint8 | .ipaddr | .bytes | .textOrBytes | .text => some (.raw data)
  | .uint32 => some (.nums (words 4 count data))
  | .uint16 => some (.nums (words 2 count data))
  | _ => none

def FailoverOptionInfo.value (info : FailoverOptionInfo) (data : Bytes) : Option Value :=
  if info.numPresent ≠ 0 ∧ data.length ≠ info.type.ftSizes * info.numPresent then none
  else info.type.elements info.numPresent data

/-- What a known option does to the message. -/
def FailoverMessage.take (m : FailoverMessage) (code : ℕ) (info : FailoverOptionInfo)
    (data : Bytes) : Option FailoverMessage :=
  if m.optionsPresent &&& info.bit ≠ 0 then none
  else if ftoAllowed.getD m.type 0 &&& info.bit = 0 then some m
  else (info.value data).map (m.store code info.bit)

/-- The first option in the rest of a message, with the number of its bytes. -/
def FailoverMessage.optionOf (m : FailoverMessage) (b : Bytes) : Option (FailoverMessage × ℕ) :=
  let code := ofBytes (b.take 2)
  let len := ofBytes ((b.drop 2).take 2)
  if b.length < 4 ∨ m.type > ftmMax ∨ b.length < 4 + len then none
  else
    match ftOption code with
    | none => some (m, 4 + len)
    | some info => (m.take code info ((b.drop 4).take len)).map (·, 4 + len)

/-- All options of the rest of a message; `n` is at least its length. -/
def FailoverMessage.optionsOf : ℕ → FailoverMessage → Bytes → Option FailoverMessage
  | 0, m, b => if b = [] then some m else none
  | n + 1, m, b =>
    if b = [] then some m
    else do
      let (m, k) ← m.optionOf b
      optionsOf n m (b.drop k)

def payoff (f : Bytes) : ℕ := ofBytes ((f.drop 3).take 1)

def headerOf (f : Bytes) : FailoverMessage where
  type := ofBytes ((f.drop 2).take 1)
  time := ofBytes ((f.drop 4).take 4)
  xid := ofBytes ((f.drop 8).take 4)

def messageOf (f : Bytes) : Option FailoverMessage :=
  FailoverMessage.optionsOf f.length (headerOf f) (f.drop (payoff f))

/-! ### The link reads what the message says -/

def Link.advance (l : Link) (n : ℕ) : Link :=
  { l with inBuf := l.inBuf.drop n, imsgCount := l.imsgCount + n }

@[simp] lemma Link.advance_zero (l : Link) : l.advance 0 = l := rfl

lemma Link.advance_advance (l : Link) (m n : ℕ) : (l.advance m).advance n = l.advance (m + n) := by
  simp [advance, Nat.add_assoc]

section Read

variable {l : Link} {b r : Bytes} {n : ℕ}

lemma ok_bind {ε α β : Type} (a : α) (f : α → Except ε β) : (Except.ok a >>= f) = f a := rfl

section

variable (h : n ≤ l.inBuf.length)

include h

lemma Link.copyout_of_le :
    l.copyout n = some (l.inBuf.take n, { l with inBuf := l.inBuf.drop n }) := if_pos h

lemma Link.drop_of_le : l.drop n = { l with inBuf := l.inBuf.drop n } := by
  rw [Link.drop, copyout_of_le h]

lemma Link.getBytes_of_le :
    l.getBytes n = .ok (l.inBuf.take n, { l with inBuf := l.inBuf.drop n }) := by
  rw [getBytes, copyout_of_le h]

lemma Link.getUint_of_le :
    l.getUint n = .ok (ofBytes (l.inBuf.take n), { l with inBuf := l.inBuf.drop n }) := by
  rw [getUint, getBytes_of_le h]
  rfl

lemma Link.readUint_of_le : l.readUint n = .ok (ofBytes (l.inBuf.take n), l.advance n) := by
  rw [readUint, getUint_of_le h]
  rfl

end

lemma Link.le_of_append (hbuf : l.inBuf = b ++ r) : b.length ≤ l.inBuf.length := by simp [hbuf]

lemma Link.getBytes_append (hbuf : l.inBuf = b ++ r) :
    l.getBytes b.length = .ok (b, { l with inBuf := l.inBuf.drop b.length }) := by
  rw [getBytes_of_le (le_of_append hbuf), hbuf, take_left]

lemma Link.getNums_of_le (k : ℕ) (h : k * n ≤ l.inBuf.length) :
    Link.getNums k n l = .ok (words k n l.inBuf, l.advance (k * n)) := by
  induction n generalizing l with
  | zero => rfl
  | succ n ih =>
    have hk : k ≤ l.inBuf.length := by rw [Nat.mul_succ] at h; omega
    have hn : k * n ≤ (l.advance k).inBuf.length := by
      rw [Nat.mul_succ] at h
      simp only [advance, length_drop]
      omega
    have hrest := ih hn
    rw [advance_advance, Nat.add_comm k, ← Nat.mul_succ] at hrest
    simp only [getNums, readUint_of_le hk, ok_bind, hrest]
    rfl

lemma Link.readElements_eq {type : FtType} {count : ℕ} (hc : count ≠ 0)
    (hb : b.length = type.ftSizes * count) (hbuf : l.inBuf = b ++ r) :
    l.readElements type b.length count =
      match type.elements count b with
      | none => .error .protocolError
      | some v => .ok (v, l.advance b.length) := by
  have hraw := getBytes_append hbuf
  have hnums : Link.getNums type.ftSizes count l =
      .ok (words type.ftSizes count b, l.advance b.length) := by
    rw [getNums_of_le _ (hb ▸ le_of_append hbuf), hbuf, words_append _ _ b r hb, hb]
  cases type <;> simp only [FtType.ftSizes] at hnums <;>
    simp [readElements, hraw, hnums, hc] <;> rfl

lemma Link.readValue_eq {code : ℕ} {info : FailoverOptionInfo} (hi : ftOption code = some info)
    (hbuf : l.inBuf = b ++ r) : l.readValue info b.length =
      match info.value b with
      | none => .error .protocolError
      | some v => .ok (v, l.advance b.length) := by
  rw [readValue, FailoverOptionInfo.value]
  rcases shape_ftOption hi with ⟨hp, ht⟩ | ⟨hp, -⟩
  · have hraw := getBytes_append hbuf
    rcases ht with ht | ht <;>
    · simp [hp, ht, readElements, hraw]
      rfl
  · replace hp : info.numPresent ≠ 0 := by omega
    rw [if_pos hp]
    by_cases hl : b.length = info.type.ftSizes * info.numPresent
    · rw [if_neg (by simpa using hl), if_neg (by simp [hl]), readElements_eq hp hl hbuf]
    · rw [if_pos hl, if_pos ⟨hp, hl⟩]

lemma Link.optionBody_eq (code : ℕ) (hbuf : l.inBuf = b ++ r) : l.optionBody code b.length =
      match ftOption code with
      | none => .ok (l.advance b.length)
      | some info =>
        match l.imsg.take code info b with
        | none => .error .protocolError
        | some m => .ok { l.advance b.length with imsg := m } := by
  have hskip : (l.drop b.length).count b.length = l.advance b.length := by
    rw [drop_of_le (le_of_append hbuf)]
    rfl
  rw [optionBody]
  cases hi : ftOption code with
  | none => simp only [hskip]
  | some info =>
    have hbit : info.bit ≠ 0 := by rw [bit_ftOption hi]; positivity
    dsimp only
    rw [if_neg fun h => by simpa [h] using shape_ftOption hi, FailoverMessage.take, hskip]
    split_ifs with hdup hall hall'
    · rfl
    · rfl
    · exact absurd hall.2 hall'
    · exact absurd ⟨hbit, ‹_›⟩ hall
    · rw [readValue_eq hi hbuf]
      cases info.value b <;> rfl

/-- **An option is read from the message it is in**: the link takes just the bytes of the option,
whatever follows the message. -/
lemma Link.doAFailoverOption_eq (hbuf : l.inBuf = b ++ r)
    (hlen : l.imsgLen = l.imsgCount + b.length) : l.doAFailoverOption =
      match l.imsg.optionOf b with
      | none => .error .protocolError
      | some (m, k) => .ok { l.advance k with imsg := m } := by
  rw [doAFailoverOption, FailoverMessage.optionOf]
  by_cases h2 : b.length < 2
  · rw [if_pos (by omega), if_pos (by omega)]
  by_cases ht : l.imsg.type > ftmMax
  · rw [if_neg (by omega), if_pos ht, if_pos (by simp [ht])]
  have hle := le_of_append hbuf
  have hcode : l.inBuf.take 2 = b.take 2 := by
    rw [hbuf, take_append_of_le_length (by omega)]
  rw [if_neg (by omega), if_neg ht, readUint_of_le (by omega), hcode, ok_bind]
  have hc (k : ℕ) : (l.advance k).imsgCount = l.imsgCount + k := rfl
  have hl (k : ℕ) : (l.advance k).imsgLen = l.imsgLen := rfl
  dsimp only
  rw [optionLength, hc, hl]
  by_cases h4 : b.length < 4
  · rw [if_pos (by omega), if_pos (by omega)]
  have hlen4 : (l.advance 2).inBuf.take 2 = (b.drop 2).take 2 := by
    rw [advance, hbuf, drop_append_of_le_length (by omega),
      take_append_of_le_length (by rw [length_drop]; omega)]
  have hle4 : 2 ≤ (l.advance 2).inBuf.length := by
    rw [advance, length_drop]
    omega
  rw [if_neg (by omega), readUint_of_le hle4, hlen4, advance_advance, ok_bind]
  generalize ofBytes ((b.drop 2).take 2) = len
  dsimp only
  rw [hc, hl]
  by_cases hd : b.length < 4 + len
  · rw [if_pos (by omega), if_pos (by omega)]
  have hdata : ((b.drop 4).take len).length = len := by
    rw [length_take, length_drop]
    omega
  have hbuf4 : (l.advance 4).inBuf = (b.drop 4).take len ++ ((b.drop 4).drop len ++ r) := by
    rw [← append_assoc, take_append_drop, advance, hbuf, drop_append_of_le_length (by omega)]
  have hbody := optionBody_eq (ofBytes (b.take 2)) hbuf4
  rw [hdata, advance_advance] at hbody
  rw [if_neg (by omega), if_neg (by omega), hbody]
  cases ftOption (ofBytes (b.take 2)) with
  | none => rfl
  | some info =>
    have hm : (l.advance 4).imsg = l.imsg := rfl
    dsimp only
    rw [hm]
    cases l.imsg.take (ofBytes (b.take 2)) info ((b.drop 4).take len) <;> rfl

lemma FailoverMessage.optionOf_le {m m' : FailoverMessage} {k : ℕ}
    (h : m.optionOf b = some (m', k)) : 4 ≤ k ∧ k ≤ b.length := by
  rw [optionOf] at h
  generalize ofBytes ((b.drop 2).take 2) = len at h
  split_ifs at h with hlen
  have hk : k = 4 + len := by
    split at h
    · exact (congrArg Prod.snd (Option.some.inj h)).symm
    · obtain ⟨_, -, h⟩ := Option.map_eq_some_iff.mp h
      exact (congrArg Prod.snd h).symm
  omega

/-- **The options of a message are read from its bytes**, and all of them are. -/
lemma Link.readOptions_eq (hbuf : l.inBuf = b ++ r) (hlen : l.imsgLen = l.imsgCount + b.length)
    (hn : b.length ≤ n) : Link.readOptions n l =
      match FailoverMessage.optionsOf n l.imsg b with
      | none => .error .protocolError
      | some m => .ok { l.advance b.length with imsg := m } := by
  induction n generalizing l b with
  | zero =>
    obtain rfl : b = [] := eq_nil_of_length_eq_zero (by omega)
    rw [readOptions, if_neg (by simp [hlen])]
    rfl
  | succ n ih =>
    rw [readOptions, FailoverMessage.optionsOf]
    by_cases hb : b = []
    · subst hb
      rw [if_neg (by simp [hlen]), if_pos rfl]
      rfl
    have hpos : 0 < b.length := length_pos_iff.mpr hb
    rw [if_pos (by omega), if_neg hb, doAFailoverOption_eq hbuf hlen]
    cases ho : l.imsg.optionOf b with
    | none => rfl
    | some p =>
      obtain ⟨m, k⟩ := p
      have hk := FailoverMessage.optionOf_le ho
      have hrest := ih (l := { l.advance k with imsg := m })
        (by rw [← drop_append_of_le_length hk.2, ← hbuf]; rfl)
        (by rw [length_drop]; change l.imsgLen = l.imsgCount + k + _; omega)
        (by rw [length_drop]; omega)
      rw [ok_bind, hrest, Option.bind_eq_bind, Option.bind_some]
      have hadv : l.advance b.length = (l.advance k).advance (b.drop k).length := by
        rw [advance_advance, length_drop]
        congr 1
        omega
      rw [hadv]
      rfl

/-! ### A whole message -/

lemma Link.readHeader_eq {f : Bytes} (hf : 12 ≤ f.length) (hbuf : l.inBuf = f.drop 2 ++ r)
    (hcount : l.imsgCount = 0) (hmsg : l.imsg = {}) : l.readHeader = .ok
      { l with
        inBuf := f.drop 12 ++ r, imsgCount := 12, imsg := headerOf f, imsgPayoff := payoff f } := by
  have hdrop (k : ℕ) (hk : 2 + k ≤ f.length) : ((l.count 2).advance k).inBuf =
    f.drop (2 + k) ++ r := by
    change l.inBuf.drop k = _
    rw [hbuf, drop_append_of_le_length (by rw [length_drop]; omega), drop_drop]
  have hread (k j : ℕ) (hk : 2 + k + j ≤ f.length) : ((l.count 2).advance k).readUint j =
      .ok (ofBytes ((f.drop (2 + k)).take j), (l.count 2).advance (k + j)) := by
    have hle : j ≤ (f.drop (2 + k)).length := by rw [length_drop]; omega
    rw [readUint_of_le (by rw [hdrop k (by omega), length_append]; omega), hdrop k (by omega),
      take_append_of_le_length hle, advance_advance]
  have hlast := hdrop 10 (by omega)
  rw [readHeader, ← advance_zero (l.count 2)]
  simp only [hread 0 1 (by omega), ok_bind, hread 1 1 (by omega), hread 2 4 (by omega),
    hread 6 4 (by omega)]
  obtain ⟨st, inBuf, needed, imsg, len, count, pay, obj, del⟩ := l
  obtain rfl : count = 0 := hcount
  obtain rfl : imsg = {} := hmsg
  exact congrArg
    (fun b => Except.ok (⟨st, b, needed, headerOf f, len, 12, payoff f, obj, del⟩ : Link)) hlast

lemma payoff_lt (f : Bytes) : payoff f < 256 := by
  rw [payoff]
  cases f.drop 3 with
  | nil => decide
  | cons x _ => simpa using x.toNat_lt

lemma Link.skipHeader_eq (hc : l.imsgCount ≤ l.imsgPayoff) (hp : l.imsgPayoff < bit32)
    (hle : l.imsgPayoff - l.imsgCount ≤ l.inBuf.length) :
    l.skipHeader = l.advance (l.imsgPayoff - l.imsgCount) := by
  have hn : (l.imsgPayoff + bit32 - l.imsgCount) % bit32 = l.imsgPayoff - l.imsgCount := by
    rw [show l.imsgPayoff + bit32 - l.imsgCount = l.imsgPayoff - l.imsgCount + bit32 by omega,
      Nat.add_mod_right, Nat.mod_eq_of_lt (by omega)]
  have hcount : l.imsgCount + (l.imsgPayoff - l.imsgCount) = l.imsgPayoff := by omega
  rw [skipHeader, hn]
  split_ifs with h
  · rw [advance, drop_of_le hle, hcount]
  · rw [not_not.mp h, advance_zero]

/-- The payload of a message begins behind its header and not behind its end. -/
def InStep (f : Bytes) : Prop := 12 ≤ payoff f ∧ payoff f ≤ f.length

instance (f : Bytes) : Decidable (InStep f) := inferInstanceAs (Decidable (_ ∧ _))

/-- **A message in step is read from its own bytes**: what it says does not depend on what
follows it, and reading stops at its end. -/
theorem Link.readMessage_eq {f : Bytes} (hf : InStep f) (hbuf : l.inBuf = f.drop 2 ++ r)
    (hlen : l.imsgLen = f.length) (hcount : l.imsgCount = 0) (hmsg : l.imsg = {}) : l.readMessage =
      match messageOf f with
      | none => .error .protocolError
      | some m => .ok
        { l with inBuf := r, imsgCount := f.length, imsg := m, imsgPayoff := payoff f } := by
  have hp := payoff_lt f
  obtain ⟨hlo, hhi⟩ := hf
  rw [readMessage, readHeader_eq (by omega) hbuf hcount hmsg, ok_bind]
  let h : Link :=
    { l with inBuf := f.drop 12 ++ r, imsgCount := 12, imsg := headerOf f, imsgPayoff := payoff f }
  have hskip : h.skipHeader =
      { h with inBuf := f.drop (payoff f) ++ r, imsgCount := payoff f } := by
    have hle : payoff f - 12 ≤ (f.drop 12).length := by rw [length_drop]; omega
    have hadd : 12 + (payoff f - 12) = payoff f := by omega
    rw [skipHeader_eq hlo (hp.trans (by decide))
      (hle.trans (by simp only [h, length_append]; omega)), advance]
    simp [h, drop_append_of_le_length hle, hadd]
  have hopts := readOptions_eq (l := h.skipHeader) (n := l.imsgLen)
    (by rw [hskip]) (by rw [hskip, length_drop]; simp only [h]; omega)
    (by rw [length_drop]; omega)
  rw [hskip] at hopts ⊢
  rw [hopts, messageOf, ← hlen]
  cases FailoverMessage.optionsOf l.imsgLen (headerOf f) (f.drop (payoff f)) with
  | none => rfl
  | some m =>
    have hadd : payoff f + (f.drop (payoff f)).length = l.imsgLen := by
      rw [length_drop]
      omega
    simp only [advance, h, drop_left, hadd]

end Read

/-! ### The messages of a stream -/

/-- A message of a length that is accepted, with its own length in front. -/
def IsFrame (f : Bytes) : Prop :=
  dhcpFailoverMinMessageSize ≤ f.length ∧ f.length ≤ dhcpFailoverMaxMessageSize ∧
    ofBytes (f.take 2) = f.length

/-- The stream goes on with a message that has not wholly arrived. -/
def Unfinished (b : Bytes) : Prop :=
  b.length < 2 ∨
    (dhcpFailoverMinMessageSize ≤ ofBytes (b.take 2) ∧
      ofBytes (b.take 2) ≤ dhcpFailoverMaxMessageSize ∧ b.length < ofBytes (b.take 2))

/-- The messages a stream begins with, each as long as it says, and the rest of the stream. -/
def framesOf : ℕ → Bytes → List Bytes × Bytes
  | 0, b => ([], b)
  | n + 1, b =>
    let len := ofBytes (b.take 2)
    if 2 ≤ b.length ∧ dhcpFailoverMinMessageSize ≤ len ∧ len ≤ dhcpFailoverMaxMessageSize ∧
        len ≤ b.length then
      (b.take len :: (framesOf n (b.drop len)).1, (framesOf n (b.drop len)).2)
    else ([], b)

def frames (b : Bytes) : List Bytes × Bytes := framesOf b.length b

section Frames

variable {f r : Bytes} {fs : List Bytes} {n : ℕ}

lemma IsFrame.take_two (h : IsFrame f) (r : Bytes) : ofBytes ((f ++ r).take 2) = f.length := by
  have h12 : 12 ≤ f.length := h.1
  rw [take_append_of_le_length (by omega), h.2.2]

lemma framesOf_append (h : IsFrame f) (r : Bytes) (n : ℕ) :
    framesOf (n + 1) (f ++ r) = (f :: (framesOf n r).1, (framesOf n r).2) := by
  have hlen := h.take_two r
  have h12 : 12 ≤ f.length := h.1
  rw [framesOf]
  simp only [hlen, take_left, drop_left]
  rw [if_pos ⟨by rw [length_append]; omega, h.1, h.2.1, by rw [length_append]; omega⟩]

lemma framesOf_unfinished (h : Unfinished r) (n : ℕ) : framesOf n r = ([], r) := by
  cases n with
  | zero => rfl
  | succ n =>
    rw [framesOf, if_neg]
    rintro ⟨h2, -, -, hle⟩
    rcases h with h | ⟨-, -, h⟩ <;> omega

lemma framesOf_flatten (hfs : ∀ f ∈ fs, IsFrame f) (hn : (fs.flatten ++ r).length ≤ n) :
    ∃ k, framesOf n (fs.flatten ++ r) = (fs ++ (framesOf k r).1, (framesOf k r).2) := by
  induction fs generalizing n with
  | nil => exact ⟨n, rfl⟩
  | cons f fs ih =>
    have hf := hfs f (mem_cons_self ..)
    have h12 : 12 ≤ f.length := hf.1
    rw [flatten_cons, append_assoc, length_append] at hn
    obtain ⟨n, rfl⟩ : ∃ k, n = k + 1 := ⟨n - 1, by omega⟩
    obtain ⟨k, hk⟩ := @ih n (fun g hg => hfs g (mem_cons_of_mem _ hg)) (by omega)
    exact ⟨k, by rw [flatten_cons, append_assoc, framesOf_append hf, hk, cons_append]⟩

lemma frames_flatten (hfs : ∀ f ∈ fs, IsFrame f) (hr : Unfinished r) :
    frames (fs.flatten ++ r) = (fs, r) := by
  obtain ⟨k, hk⟩ := framesOf_flatten hfs le_rfl
  rw [frames, hk, framesOf_unfinished hr, append_nil]

/-- Every message that comes first in the stream, or after others, is in step. -/
def AllInStep (b : Bytes) : Prop :=
  ∀ (fs : List Bytes) (r : Bytes), b = fs.flatten ++ r → (∀ f ∈ fs, IsFrame f) → ∀ f ∈ fs, InStep f

lemma allInStep_of_frames {b : Bytes} (h : ∀ f ∈ (frames b).1, InStep f) : AllInStep b := by
  rintro fs r rfl hfs f hf
  obtain ⟨k, hk⟩ := framesOf_flatten (r := r) hfs le_rfl
  exact h f (by rw [frames, hk]; exact mem_append_left _ hf)

lemma AllInStep.left {a b : Bytes} (h : AllInStep (a ++ b)) : AllInStep a := by
  rintro fs r rfl hfs
  exact h fs (r ++ b) (by rw [append_assoc]) hfs

lemma AllInStep.right (hfs : ∀ f ∈ fs, IsFrame f) (h : AllInStep (fs.flatten ++ r)) :
    AllInStep r := by
  rintro gs q rfl hgs f hf
  exact h (fs ++ gs) q (by rw [flatten_append, append_assoc])
    (by simpa [or_imp, forall_and] using ⟨hfs, hgs⟩) f (mem_append_right _ hf)

lemma AllInStep.head (hf : IsFrame f) (h : AllInStep (f ++ r)) : InStep f ∧ AllInStep r :=
  ⟨h [f] r (by simp) (by simpa using hf) f (by simp),
    AllInStep.right (by simpa using hf) (by simpa using h : AllInStep ([f].flatten ++ r))⟩

end Frames

/-! ### The link over a stream -/

/-- What has arrived and is not yet part of a message that was read. -/
def Link.unread (l : Link) : Bytes :=
  if l.state = .messageWait then toBytes 2 l.imsgLen ++ l.inBuf else l.inBuf

/-- The link has read the length of a message and nothing else of it. -/
structure Link.HasLength (l : Link) : Prop where
  state : l.state = .messageWait
  count : l.imsgCount = 0
  imsg : l.imsg = {}
  needed : l.bytesNeeded = l.imsgLen - 2
  min : dhcpFailoverMinMessageSize ≤ l.imsgLen
  max : l.imsgLen ≤ dhcpFailoverMaxMessageSize

/-- A link that waits for bytes and has not got as many as it needs. -/
def Link.Waiting (l : Link) : Prop :=
  match l.state with
  | .start => l.inBuf = [] ∧ l.bytesNeeded = 0
  | .messageLengthWait => l.inBuf.length < 2 ∧ l.bytesNeeded = 2
  | .messageWait => l.HasLength ∧ l.inBuf.length < l.imsgLen - 2
  | .disconnected => False

/-- Of the bytes `b` the link has read whole messages and passed them on. -/
def Link.Reads (l : Link) (b : Bytes) (l' : Link) : Prop :=
  ∃ fs : List Bytes, (∀ f ∈ fs, IsFrame f) ∧ b = fs.flatten ++ l'.unread ∧
    l'.delivered.map some = l.delivered.map some ++ fs.map messageOf ∧ l'.Waiting

section Run

variable {env : LinkEnv} {l : Link} {f r : Bytes}

lemma Link.HasLength.unread (h : l.HasLength) : l.unread = toBytes 2 l.imsgLen ++ l.inBuf :=
  if_pos h.state

lemma Link.HasLength.ofBytes (h : l.HasLength) (r : Bytes) :
    ofBytes ((toBytes 2 l.imsgLen ++ r).take 2) = l.imsgLen := by
  rw [take_left' (length_toBytes _ _), ofBytes_toBytes, Nat.mod_eq_of_lt]
  exact h.max.trans_lt (by decide)

lemma Link.Waiting.unfinished (h : l.Waiting) : Unfinished l.unread := by
  unfold Waiting at h
  split at h
  · simp_all [Link.unread, Unfinished]
  · simp_all [Link.unread, Unfinished]
  · obtain ⟨h, hlen⟩ := h
    rw [h.unread, Unfinished, h.ofBytes, length_append, length_toBytes]
    exact .inr ⟨h.min, h.max, by omega⟩
  · exact h.elim

lemma Link.handleMessage_cases (env : LinkEnv) (l : Link) :
    (l.handleMessage env).state = .disconnected ∨
      ∃ obj, l.handleMessage env =
        { l with
          state := .messageLengthWait, delivered := l.delivered ++ [l.imsg], imsg := {}
          stateObject := obj } := by
  rw [handleMessage]
  by_cases ht : l.imsg.type = ftmConnect
  · rw [if_pos ht]
    cases hm : l.matchConnect env with
    | none => exact .inl rfl
    | some l' =>
      obtain ⟨obj, rfl⟩ : ∃ obj, l' = { l with stateObject := obj } := by
        rw [matchConnect] at hm
        split_ifs at hm
        exact ⟨_, (Option.some.inj hm).symm⟩
      dsimp only
      split_ifs
      · exact .inl rfl
      · exact .inr ⟨obj, rfl⟩
  · rw [if_neg ht]
    dsimp only
    split_ifs
    · exact .inl rfl
    · exact .inr ⟨l.stateObject, rfl⟩

lemma Link.takeMessage_cases (env : LinkEnv) (next : Link → Except LinkError Link) (hf : InStep f)
    (hst : l.state = .messageWait)
    (hbuf : l.inBuf = f.drop 2 ++ r) (hlen : l.imsgLen = f.length) (hcount : l.imsgCount = 0)
    (hmsg : l.imsg = {}) : (∃ l', l.takeMessage env next = .ok l' ∧ l'.state = .disconnected) ∨
      ∃ m l', messageOf f = some m ∧ l'.state = .messageLengthWait ∧ l'.inBuf = r ∧
        l'.bytesNeeded = 2 ∧ l'.delivered = l.delivered ++ [m] ∧
        l.takeMessage env next = if 2 ≤ r.length then next l' else .ok l' := by
  rw [takeMessage, readMessage_eq hf hbuf hlen hcount hmsg]
  cases hm : messageOf f with
  | none => exact .inl ⟨l.disconnect, rfl, rfl⟩
  | some m =>
    dsimp only [orFail]
    rw [ok_bind, if_neg (by rw [hst]; decide)]
    generalize hread : ({ l with
      inBuf := r, imsgCount := f.length, imsg := m, imsgPayoff := payoff f } : Link) = l1
    rcases l1.handleMessage_cases env with hd | ⟨obj, hh⟩
    · rw [if_pos hd]
      exact .inl ⟨_, rfl, hd⟩
    · rw [hh, if_neg (by simp)]
      subst hread
      let l2 : Link :=
        { l with
          inBuf := r, imsgCount := f.length, imsgPayoff := payoff f, imsg := {}
          state := .messageLengthWait, delivered := l.delivered ++ [m], stateObject := obj }
      exact .inr ⟨m, (l2.require 2).2, rfl, rfl, rfl, rfl, rfl,
        ite_congr (by simp [require]) (fun _ => rfl) (fun _ => rfl)⟩

lemma Link.readLength_eq (h : 2 ≤ l.inBuf.length) : l.readLength =
      if ofBytes (l.inBuf.take 2) < dhcpFailoverMinMessageSize ∨
          ofBytes (l.inBuf.take 2) > dhcpFailoverMaxMessageSize then .error .protocolError
      else .ok
        { l with
          state := .messageWait, imsg := {}, inBuf := l.inBuf.drop 2
          imsgLen := ofBytes (l.inBuf.take 2), imsgCount := 0 } := by
  rw [readLength, getUint_of_le (l := { l with state := .messageWait, imsg := {} }) h]
  rfl

lemma Link.Reads.trans {l₁ l₂ : Link} {m : FailoverMessage} (hf : IsFrame f)
    (hm : messageOf f = some m) (hd : l₁.delivered = l.delivered ++ [m]) (h : l₁.Reads r l₂) :
    l.Reads (f ++ r) l₂ := by
  obtain ⟨fs, hfs, hb, hdel, hw⟩ := h
  refine ⟨f :: fs, ?_, ?_, ?_, hw⟩
  · simpa using ⟨hf, hfs⟩
  · rw [flatten_cons, append_assoc, ← hb]
  · simp [hdel, hd, hm]

lemma Link.Reads.lengthWait {l₁ : Link} (hst : l₁.state = .messageLengthWait)
    (hbuf : l₁.inBuf.length < 2) (hneed : l₁.bytesNeeded = 2) (hd : l₁.delivered = l.delivered) :
    l.Reads l₁.inBuf l₁ := by
  refine ⟨[], by simp, ?_, by simp [hd], ?_⟩
  · simp [unread, hst]
  · rw [Waiting, hst]
    exact ⟨hbuf, hneed⟩

/-- A message whose length is known is read once it is there, and then those behind it if `next`
reads them. -/
lemma Link.HasLength.reads (h : l.HasLength) (env : LinkEnv) (next : Link → Except LinkError Link)
    (hs : AllInStep l.unread)
    (hnext : ∀ l₁ : Link, l₁.inBuf.length ≤ l.inBuf.length → 2 ≤ l₁.inBuf.length →
      AllInStep l₁.inBuf →
      ∃ l', next l₁ = .ok l' ∧ (l'.state = .disconnected ∨ l₁.Reads l₁.inBuf l')) :
    ∃ l', (if l.imsgLen - 2 ≤ l.inBuf.length then l.takeMessage env next else .ok l) = .ok l' ∧
      (l'.state = .disconnected ∨ l.Reads l.unread l') := by
  have hmin : 12 ≤ l.imsgLen := h.min
  by_cases hall : l.imsgLen - 2 ≤ l.inBuf.length
  · generalize hfdef : toBytes 2 l.imsgLen ++ l.inBuf.take (l.imsgLen - 2) = f
    generalize hrdef : l.inBuf.drop (l.imsgLen - 2) = r
    have hflen : f.length = l.imsgLen := by
      rw [← hfdef, length_append, length_toBytes, length_take]
      omega
    have hf : IsFrame f := ⟨by rw [hflen]; exact h.min, by rw [hflen]; exact h.max,
      by rw [hflen, ← hfdef, h.ofBytes]⟩
    have hcut : l.unread = f ++ r := by
      rw [h.unread, ← hfdef, ← hrdef, append_assoc, take_append_drop]
    have hbuf : l.inBuf = f.drop 2 ++ r := by
      rw [← hfdef, ← hrdef, drop_left' (length_toBytes _ _), take_append_drop]
    have hr : r.length ≤ l.inBuf.length := by rw [← hrdef, length_drop]; omega
    obtain ⟨hstep, hrest⟩ := AllInStep.head hf (hcut ▸ hs)
    rw [if_pos hall, hcut]
    rcases takeMessage_cases env next hstep h.state hbuf hflen.symm h.count h.imsg with
      ⟨l', hl', hd⟩ | ⟨m, l₁, hm, hst, rfl, hneed, hd, heq⟩
    · exact ⟨l', hl', .inl hd⟩
    rw [heq]
    by_cases hmore : 2 ≤ l₁.inBuf.length
    · rw [if_pos hmore]
      obtain ⟨l', hl', h⟩ := hnext l₁ hr hmore hrest
      exact ⟨l', hl', h.imp_right (Reads.trans hf hm hd)⟩
    · rw [if_neg hmore]
      exact ⟨l₁, rfl, .inr (Reads.trans hf hm hd (Reads.lengthWait hst (by omega) hneed rfl))⟩
  · rw [if_neg hall]
    refine ⟨l, rfl, .inr ⟨[], by simp, by simp, by simp, ?_⟩⟩
    rw [Waiting, h.state]
    exact ⟨h, by omega⟩

/-- **The messages in the buffer are read one after the other**, each from the byte after the
one before it. -/
theorem Link.nextMessage_reads (n : ℕ) (hn : l.inBuf.length < n) (h2 : 2 ≤ l.inBuf.length)
    (hs : AllInStep l.inBuf) :
    ∃ l', l.nextMessage env n = .ok l' ∧ (l'.state = .disconnected ∨ l.Reads l.inBuf l') := by
  induction n generalizing l with
  | zero => omega
  | succ n ih =>
    rw [nextMessage, readLength_eq h2]
    generalize hlen : ofBytes (l.inBuf.take 2) = len
    by_cases hbad : len < dhcpFailoverMinMessageSize ∨ len > dhcpFailoverMaxMessageSize
    · rw [if_pos hbad]
      exact ⟨l.disconnect, rfl, .inl rfl⟩
    rw [if_neg hbad]
    dsimp only [orFail]
    rw [ok_bind, if_neg (by simp)]
    let l1 : Link :=
      { l with
        state := .messageWait, imsg := {}, inBuf := l.inBuf.drop 2, imsgLen := len, imsgCount := 0
        bytesNeeded := len - 2 }
    have h1 : l1.HasLength :=
      ⟨rfl, rfl, rfl, rfl, not_lt.mp fun h => hbad (.inl h), not_lt.mp fun h => hbad (.inr h)⟩
    have hu : l1.unread = l.inBuf := by
      have hlen2 : (l.inBuf.take 2).length = 2 := by rw [length_take]; omega
      have htwo := toBytes_ofBytes (l.inBuf.take 2)
      rw [hlen2, hlen] at htwo
      rw [h1.unread, htwo, take_append_drop]
    have h := h1.reads env (Link.nextMessage env n) (hu ▸ hs)
      fun l2 hle h2 hs => ih (hle.trans_lt (by simp [l1, length_drop]; omega)) h2 hs
    rw [hu] at h
    change ∃ l', (if decide (len - 2 ≤ l1.inBuf.length) = true
      then l1.takeMessage env (Link.nextMessage env n) else .ok l1) = _ ∧ _
    simp only [decide_eq_true_eq]
    exact h

lemma Link.receive_reads (env : LinkEnv) (hw : l.Waiting) (chunk : Bytes)
    (hs : AllInStep (l.unread ++ chunk)) :
    ∃ l', l.receive env chunk = .ok l' ∧
      (l'.state = .disconnected ∨ l.Reads (l.unread ++ chunk) l') := by
  let l1 : Link := { l with inBuf := l.inBuf ++ chunk }
  have hsig : l.state ≠ .disconnected → l.receive env chunk =
      if l.bytesNeeded ≤ l1.inBuf.length then l1.dhcpFailoverLinkSignal env else .ok l1 :=
    fun h => by rw [receive, if_neg h]
  rw [Waiting] at hw
  cases hst : l.state with
  | start =>
    rw [hst] at hw
    let l2 : Link := { l1 with state := .messageLengthWait, bytesNeeded := 2 }
    have hu : l.unread ++ chunk = l2.inBuf := by simp [unread, hst, l1, l2]
    rw [hsig (by simp [hst]), if_pos (by omega), dhcpFailoverLinkSignal, show l1.state =
      .start from hst]
    change ∃ l', (if decide (2 ≤ l2.inBuf.length) = true
      then l2.nextMessage env (l2.inBuf.length + 1) else .ok l2) = _ ∧ _
    rw [hu] at hs ⊢
    by_cases h2 : 2 ≤ l2.inBuf.length
    · rw [if_pos (by simpa using h2)]
      exact nextMessage_reads _ (Nat.lt_succ_self _) h2 hs
    · rw [if_neg (by simpa using h2)]
      exact ⟨l2, rfl, .inr (Reads.lengthWait rfl (by omega) rfl rfl)⟩
  | messageLengthWait =>
    rw [hst] at hw
    obtain ⟨hin, hneed⟩ := hw
    have hu : l.unread ++ chunk = l1.inBuf := by simp [unread, hst, l1]
    rw [hsig (by simp [hst]), dhcpFailoverLinkSignal, show l1.state = .messageLengthWait from hst,
      hneed]
    rw [hu] at hs ⊢
    by_cases h2 : 2 ≤ l1.inBuf.length
    · rw [if_pos h2]
      exact nextMessage_reads _ (Nat.lt_succ_self _) h2 hs
    · rw [if_neg h2]
      exact ⟨l1, rfl, .inr (Reads.lengthWait hst (by omega) hneed rfl)⟩
  | messageWait =>
    rw [hst] at hw
    obtain ⟨h, -⟩ := hw
    have h1 : l1.HasLength := { h with }
    have hu : l.unread ++ chunk = l1.unread := by rw [h.unread, h1.unread, append_assoc]
    rw [hsig (by simp [hst]), dhcpFailoverLinkSignal, show l1.state = .messageWait from hst,
      h.needed]
    rw [hu] at hs ⊢
    exact h1.reads env _ hs fun l2 hle h2 hs => nextMessage_reads _ (by omega) h2 hs
  | disconnected =>
    rw [hst] at hw
    exact hw.elim

def Link.receiveAll (env : LinkEnv) (l : Link) (chunks : List Bytes) : Except LinkError Link :=
  chunks.foldlM (Link.receive env) l

/-- The messages that were read are in step with the stream, whatever the pieces were. -/
lemma Link.receiveAll_reads (env : LinkEnv) (hw : l.Waiting) (chunks : List Bytes)
    (hs : AllInStep (l.unread ++ chunks.flatten)) : ∃ l', l.receiveAll env chunks = .ok l' ∧
      (l'.state = .disconnected ∨ l.Reads (l.unread ++ chunks.flatten) l') := by
  induction chunks using reverseRecOn with
  | nil => exact ⟨l, rfl, .inr ⟨[], by simp, by simp, by simp, hw⟩⟩
  | append_singleton chunks chunk ih =>
    rw [flatten_append, flatten_singleton, ← append_assoc] at hs ⊢
    obtain ⟨l1, h1, hor⟩ := ih hs.left
    have hlast : l.receiveAll env (chunks ++ [chunk]) = l1.receive env chunk := by
      rw [receiveAll] at h1 ⊢
      simp [h1, ok_bind]
    rw [hlast]
    rcases hor with hd | ⟨fs, hfs, hb, hdel, hw1⟩
    · rw [receive, if_pos hd]
      exact ⟨l1, rfl, .inl hd⟩
    rw [hb, append_assoc] at hs ⊢
    obtain ⟨l', h', hor⟩ := receive_reads env hw1 chunk (AllInStep.right hfs hs)
    refine ⟨l', h', hor.imp_right ?_⟩
    rintro ⟨gs, hgs, hb', hdel', hw'⟩
    refine ⟨fs ++ gs, ?_, ?_, ?_, hw'⟩
    · simpa [or_imp, forall_and] using ⟨hfs, hgs⟩
    · rw [hb', flatten_append, append_assoc]
    · rw [hdel', hdel, map_append, append_assoc]

end Run

/-- **Framing.** Whatever the pieces in which the bytes arrive: if no message has its payload
offset inside the header or beyond its end, then the link is disconnected, or it has cut the
stream just where the lengths of the messages say and has passed on what each of them says. -/
theorem link_follows_frames (env : LinkEnv) (obj : Option Bytes) (chunks : List Bytes)
    (h : ∀ f ∈ (frames chunks.flatten).1, InStep f) :
    ∃ l, Link.receiveAll env { stateObject := obj } chunks = .ok l ∧
      (l.state = .disconnected ∨
        (l.delivered.map some = (frames chunks.flatten).1.map messageOf ∧
          l.unread = (frames chunks.flatten).2)) := by
  have hw : Link.Waiting { stateObject := obj } := ⟨rfl, rfl⟩
  have hs := allInStep_of_frames h
  obtain ⟨l, hl, hor⟩ := Link.receiveAll_reads env hw chunks hs
  refine ⟨l, hl, hor.imp_right ?_⟩
  rintro ⟨fs, hfs, hb, hdel, hwait⟩
  have hcut := frames_flatten hfs hwait.unfinished
  rw [← hb] at hcut
  have hnil : Link.unread { stateObject := obj } ++ chunks.flatten = chunks.flatten := rfl
  rw [hnil] at hcut
  rw [hcut]
  exact ⟨by simpa using hdel, rfl⟩

/-- A `CONTACT` in three pieces and the beginning of a `STATE`. -/
def contactInPieces : List Bytes :=
  [[0], [12, 11, 12, 0, 0, 0, 9, 0, 0], [0, 1, 0, 27, 10], [12, 0]]

theorem link_follows_frames_sample : (∀ f ∈ (frames contactInPieces.flatten).1, InStep f) ∧
      ∃ l, Link.receiveAll ⟨[], 9⟩ { stateObject := some [112] } contactInPieces = .ok l ∧
        (l.state = .disconnected ∨
          (l.delivered.map some = (frames contactInPieces.flatten).1.map messageOf ∧
            l.unread = (frames contactInPieces.flatten).2)) :=
  ⟨by decide, link_follows_frames ⟨[], 9⟩ (some [112]) contactInPieces (by decide)⟩

/-- Two `CONTACT` messages, of which the first puts its payload eight bytes behind its end. -/
def offsetBeyondEnd : Bytes :=
  [0, 12, 11, 20, 0, 0, 0, 9, 0, 0, 0, 1] ++ [0, 12, 11, 12, 0, 0, 0, 9, 0, 12, 0, 0]

/-- The skipped bytes are taken from the second message, and the link goes on reading in the middle
of it. -/
theorem link_out_of_step : (frames offsetBeyondEnd).1.length = 2 ∧ (frames offsetBeyondEnd).2 = [] ∧
      (Link.receiveAll ⟨[], 9⟩ { stateObject := some [112] } [offsetBeyondEnd]).toOption.map
        (fun l => (l.state, l.delivered.length, l.unread)) =
          some (.messageWait, 1, [0, 12, 0, 0]) := by
  decide +kernel

end IscDhcp.Wire
