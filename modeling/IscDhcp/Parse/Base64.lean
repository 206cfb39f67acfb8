import IscDhcp.Parse.Date
import Mathlib.Data.List.TakeWhile

/-!
Base64 text (`parse_base64` in `parse.c`).

The scanner cuts the text into names, numbers and punctuation, so the tokens are collected first.
Their texts are then decoded with an accumulator that is carried from one to the next. At the end
of the file the text of the token before is looked at again, which never ends unless a blank is
there; such files are left out (`none`).
-/

namespace IscDhcp.Conflex

open List

/-! ### Decoding -/

def from64 (c : UInt8) : ℕ :=
  [64, 64, 64, 64, 64, 64, 64, 64, 64, 64, 64, 62, 64, 64, 64, 63,
   52, 53, 54, 55, 56, 57, 58, 59, 60, 61, 64, 64, 64, 64, 64, 64,
   64, 0, 1, 2, 3, 4, 5, 6, 7, 8, 9, 10, 11, 12, 13, 14,
   15, 16, 17, 18, 19, 20, 21, 22, 23, 24, 25, 64, 64, 64, 64, 64,
   64, 26, 27, 28, 29, 30, 31, 32, 33, 34, 35, 36, 37, 38, 39, 40,
   41, 42, 43, 44, 45, 46, 47, 48, 49, 50, 51, 64, 64, 64, 64, 64].getD (c.toNat - 32) 64

/-- Every character of the text, up to a NUL, may be part of base64 text. -/
def validBase64 : Bytes → Bool
  | [] => true
  | c :: val => c == 0 ||
    !(c < ' '.toUInt8 || c > 'z'.toUInt8 || from64 c > 63 && c != '='.toUInt8) && validBase64 val

/-- The variables of the loop that decodes. -/
structure Decode where
  acc : ℕ := 0
  k : ℕ := 0
  terminated : Bool := false
  data : Bytes := []

/-- One digit; the accumulator has the bits that are left over. -/
def Decode.put (d : Decode) (foo : ℕ) : Decode :=
  let acc := d.acc * 64 + foo
  match d.k % 4 with
  | 0 => { d with acc := acc, k := d.k + 1 }
  | 1 => { d with acc := acc % 16, k := d.k + 1, data := d.data ++ [UInt8.ofNat (acc / 16)] }
  | 2 => { d with acc := acc % 4, k := d.k + 1, data := d.data ++ [UInt8.ofNat (acc / 4)] }
  | _ => { d with acc := 0, k := d.k + 1, data := d.data ++ [UInt8.ofNat acc] }

def invalidChar (c : UInt8) : String :=
  "invalid base64 character " ++ toString c.toInt8.toInt ++ "."

def stuffAfter (text : Bytes) : String :=
  "stuff after base64 '=' terminator: " ++
    String.ofList ((text.takeWhile (· ≠ 0)).map fun c => Char.ofNat c.toNat) ++ "."

/-- The text of one token, up to a NUL. -/
def Decode.text (d : Decode) : Bytes → Except String Decode
  | [] => .ok d
  | c :: text =>
    if c = 0 then .ok d
    else if d.terminated ∧ c ≠ '='.toUInt8 then .error (stuffAfter (c :: text))
    else if c < ' '.toUInt8 ∨ c > 'z'.toUInt8 then .error (invalidChar c)
    else if c = '='.toUInt8 then { d with terminated := true, k := d.k + 1 }.text text
    else if from64 c = 64 then .error (invalidChar c)
    else (d.put (from64 c)).text text

def Decode.texts (d : Decode) : List Bytes → Except String Decode
  | [] => .ok d
  | t :: ts =>
    match d.text t with
    | .ok d => d.texts ts
    | .error msg => .error msg

/-! ### The tokens -/

/-- The loop that collects the texts. Every round takes a token. -/
def base64Texts : ℕ → Parse → Option (List Bytes × Parse)
  | 0, _ => none
  | fuel + 1, p => do
    let (token, p) ← p.nextToken
    let t ← token.text
    let (token, p) ← p.peekToken
    if validBase64 (← token.text) then
      let (ts, p) ← base64Texts fuel p
      return (t :: ts, p)
    else return ([t], p)

/-- `parse_base64`, which succeeds unless there are no data. -/
def parseBase64 (p : Parse) : Option (Bytes × Parse) := do
  let (ts, p) ← base64Texts (p.rest.length + 2) p
  match Decode.texts {} ts with
  | .error msg => return ([], p.parseWarn msg)
  | .ok d => return (d.data, if d.k % 4 ≠ 0 ∧ d.acc ≠ 0 then
      p.parseWarn ("partial base64 value left over: " ++ toString d.acc ++ ".") else p)

/-! ### Encoding -/

def base64Digit (v : ℕ) : UInt8 :=
  if v < 26 then UInt8.ofNat (65 + v)
  else if v < 52 then UInt8.ofNat (97 + (v - 26))
  else if v < 62 then UInt8.ofNat (48 + (v - 52))
  else if v = 62 then '+'.toUInt8
  else '/'.toUInt8

/-- The standard text of some bytes, with padding. -/
def base64 : Bytes → Bytes
  | [] => []
  | [a] => [base64Digit (a.toNat / 4), base64Digit (a.toNat % 4 * 16), '='.toUInt8, '='.toUInt8]
  | [a, b] => [base64Digit (a.toNat / 4), base64Digit (a.toNat % 4 * 16 + b.toNat / 16),
      base64Digit (b.toNat % 16 * 4), '='.toUInt8]
  | a :: b :: c :: bs =>
    base64Digit (a.toNat / 4) :: base64Digit (a.toNat % 4 * 16 + b.toNat / 16) ::
      base64Digit (b.toNat % 16 * 4 + c.toNat / 64) :: base64Digit (c.toNat % 64) :: base64 bs

def isbase64 (c : UInt8) : Bool :=
  isalnum c || c == '+'.toUInt8 || c == '/'.toUInt8 || c == '='.toUInt8

variable {d e : Decode} {x y z w : ℕ} {t t' ds tail : Bytes} {p : Parse} {c : UInt8}

lemma isbase64_base64Digit (hx : x < 64) : isbase64 (base64Digit x) := by
  revert x
  decide

lemma text_base64Digit (hx : x < 64) (hd : d.terminated = false) :
    d.text (base64Digit x :: t) = (d.put x).text t := by
  have h : ∀ x < 64, base64Digit x ≠ 0 ∧
      ¬ (base64Digit x < ' '.toUInt8 ∨ base64Digit x > 'z'.toUInt8) ∧
      base64Digit x ≠ '='.toUInt8 ∧ from64 (base64Digit x) = x := by decide
  obtain ⟨h0, hrange, heq, hfrom⟩ := h x hx
  rw [Decode.text, if_neg h0, if_neg (by simp [hd]), if_neg hrange, if_neg heq, hfrom,
    if_neg (by omega)]

lemma text_pad : d.text ('='.toUInt8 :: t) =
    { d with terminated := true, k := d.k + 1 }.text t := by
  rw [Decode.text, if_neg (by decide), if_neg (by simp), if_neg (by decide), if_pos rfl]

lemma text_two {a : UInt8} (hx : x < 64) (hy : y < 64) (hd : d.terminated = false)
    (hk : d.k % 4 = 0) (hacc : d.acc = 0) (ha : (x * 64 + y) / 16 = a.toNat) :
    d.text (base64Digit x :: base64Digit y :: t) =
      { d with acc := (x * 64 + y) % 16, k := d.k + 2, data := d.data ++ [a] }.text t := by
  have h1 : (d.k + 1) % 4 = 1 := by omega
  rw [text_base64Digit hx hd, text_base64Digit hy (by simp [Decode.put, hk, hd])]
  simp [Decode.put, hk, hacc, h1, ha]

lemma text_third {a : UInt8} (hz : z < 64) (hd : d.terminated = false) (hk : d.k % 4 = 2)
    (ha : (d.acc * 64 + z) / 4 = a.toNat) : d.text (base64Digit z :: t) =
      { d with acc := (d.acc * 64 + z) % 4, k := d.k + 1, data := d.data ++ [a] }.text t := by
  rw [text_base64Digit hz hd]
  simp [Decode.put, hk, ha]

lemma text_fourth {a : UInt8} (hw : w < 64) (hd : d.terminated = false) (hk : d.k % 4 = 3)
    (ha : d.acc * 64 + w = a.toNat) : d.text (base64Digit w :: t) =
      { d with acc := 0, k := d.k + 1, data := d.data ++ [a] }.text t := by
  rw [text_base64Digit hw hd]
  simp [Decode.put, hk, ha]

lemma text_base64 (bs : Bytes) (hd : d.terminated = false) (hk : d.k % 4 = 0) (hacc : d.acc = 0) :
    ∃ e, d.text (base64 bs) = .ok e ∧ e.data = d.data ++ bs ∧ e.k % 4 = 0 := by
  induction bs using base64.induct generalizing d with
  | case1 => exact ⟨d, rfl, by simp, hk⟩
  | case2 a =>
    have ha := a.toNat_lt
    rw [base64, text_two (by omega) (by omega) hd hk hacc (a := a) (by omega), text_pad, text_pad]
    exact ⟨_, rfl, rfl, by dsimp only; omega⟩
  | case3 a b =>
    have ha := a.toNat_lt
    have hb := b.toNat_lt
    rw [base64, text_two (by omega) (by omega) hd hk hacc (a := a) (by omega),
      text_third (by omega) (by exact hd) (by dsimp only; omega) (a := b) (by dsimp only; omega),
        text_pad]
    exact ⟨_, rfl, by simp, by dsimp only; omega⟩
  | case4 a b c bs ih =>
    have ha := a.toNat_lt
    have hb := b.toNat_lt
    have hc := c.toNat_lt
    rw [base64, text_two (by omega) (by omega) hd hk hacc (a := a) (by omega),
      text_third (by omega) (by exact hd) (by dsimp only; omega) (a := b) (by dsimp only; omega),
      text_fourth (by omega) (by exact hd) (by dsimp only; omega) (a := c) (by dsimp only; omega)]
    obtain ⟨e, he, hdata, hk'⟩ := ih (d := { d with
      acc := 0
      k := d.k + 2 + 1 + 1
      data := d.data ++ [a] ++ [b] ++ [c] }) hd (by dsimp only; omega) rfl
    exact ⟨e, he, by simp [hdata], hk'⟩

lemma isbase64_base64 (bs : Bytes) : ∀ c ∈ base64 bs, isbase64 c := by
  have hlt : ∀ a : UInt8, a.toNat < 256 := UInt8.toNat_lt
  have hpad : isbase64 '='.toUInt8 := by decide
  induction bs using base64.induct with
  | case1 => simp [base64]
  | case2 a =>
    have ha := hlt a
    simp (disch := omega) [base64, isbase64_base64Digit, hpad]
  | case3 a b =>
    have ha := hlt a
    have hb := hlt b
    simp (disch := omega) [base64, isbase64_base64Digit, hpad]
  | case4 a b c bs ih =>
    have ha := hlt a
    have hb := hlt b
    have hc := hlt c
    simp (disch := omega) only [base64, forall_mem_cons, isbase64_base64Digit, true_and]
    exact ih

lemma texts_of_flatten {ts : List Bytes} (h0 : ∀ c ∈ ts.flatten, c ≠ 0)
    (h : d.text ts.flatten = .ok e) : d.texts ts = .ok e := by
  have happend : ∀ {a b : Bytes} {d : Decode}, (∀ c ∈ a, c ≠ 0) → d.text (a ++ b) = .ok e →
      ∃ m, d.text a = .ok m ∧ m.text b = .ok e := by
    intro a b
    induction a with
    | nil => exact fun _ h => ⟨_, rfl, h⟩
    | cons c a ih =>
      intro d h0 h
      rw [forall_mem_cons] at h0
      rw [cons_append, Decode.text, if_neg h0.1] at h
      rw [Decode.text, if_neg h0.1]
      split_ifs at h ⊢
      exacts [ih h0.2 h, ih h0.2 h]
  induction ts generalizing d with
  | nil => exact h
  | cons t ts ih =>
    rw [flatten_cons] at h h0
    obtain ⟨m, hm, hrest⟩ := happend (fun c hc => h0 c (by simp [hc])) h
    rw [Decode.texts, hm]
    exact ih (fun c hc => h0 c (by simp [hc])) hrest

/-! ### Scanning -/

lemma isbase64_valid : ∀ c, isbase64 c → c ≠ 0 ∧
    ¬ (c < ' '.toUInt8 || c > 'z'.toUInt8 || from64 c > 63 && c != '='.toUInt8) := by
  refine forall_byte ?_
  decide +kernel

lemma validBase64_of_forall (h : ∀ c ∈ t, isbase64 c) : validBase64 t := by
  induction t with
  | nil => rfl
  | cons c t ih =>
    rw [forall_mem_cons] at h
    rw [validBase64, ih h.2, Bool.eq_false_iff.mpr (isbase64_valid c h.1).2]
    simp

lemma getRawToken_base64 (hne : t ≠ []) (ht : ∀ c ∈ t, isbase64 c) (hlen : t.length < tokbufSize)
    (hr : p.rest = t ++ ';'.toUInt8 :: tail) (fuel : ℕ) : ∃ token a t' buf,
      getRawToken (fuel + 1) p =
        some (token, { p with rest := t' ++ ';'.toUInt8 :: tail, tokbuf := buf }) ∧
      token.text = some a ∧ a ++ t' = t ∧ a ≠ [] := by
  obtain ⟨b, t, rfl⟩ := exists_cons_of_ne_nil hne
  have hpunct : ∀ c, isbase64 c → isalnum c = false → c = '+'.toUInt8 ∨ c = '/'.toUInt8 ∨
      c = '='.toUInt8 := fun c hc hal => by simpa [isbase64, hal, or_assoc] using hc
  cases hb : isalnum b with
  | true =>
    -- up to the next punctuation
    obtain ⟨c, rest, hrest, hc⟩ : ∃ c rest, t.dropWhile isalnum ++ ';'.toUInt8 :: tail = c :: rest ∧
        EndsNumber c := by
      cases hd : t.dropWhile isalnum with
      | nil => exact ⟨_, _, rfl, endsNumber_semi⟩
      | cons c t' =>
        have hal : isalnum c = false := by
          have := head?_dropWhile_not isalnum t
          simpa [hd] using this
        refine ⟨c, _, rfl, ?_⟩
        have hmem : c ∈ t := (dropWhile_suffix isalnum).subset (by simp [hd])
        rcases hpunct c (ht c (by simp [hmem])) hal with rfl | rfl | rfl <;>
          exact ⟨by decide, by decide, by decide, by decide⟩
    have hsplit : t.takeWhile isalnum ++ t.dropWhile isalnum = t := takeWhile_append_dropWhile
    have hr' : p.rest = b :: t.takeWhile isalnum ++ c :: rest := by
      rw [hr, ← hrest]
      simp [← append_assoc]
    obtain ⟨token, buf, hraw, htext, -⟩ := getRawToken_alnum hb (fun b hb => (mem_takeWhile_imp hb))
      (lt_of_le_of_lt (by simpa using ( takeWhile_prefix isalnum).length_le) hlen) hc hr' fuel
    exact ⟨token, _, t.dropWhile isalnum, buf, hrest ▸ hraw, htext, by simp, by simp⟩
  | false =>
    have hraw : getRawToken (fuel + 1) p =
        some (.char b, { p with rest := t ++ ';'.toUInt8 :: tail }) := by
      rcases hpunct b (ht b (by simp)) hb with rfl | rfl | rfl <;>
        exact getRawToken_char hr ⟨by decide, by decide, by decide, by decide⟩ fuel
    exact ⟨_, [b], t, p.tokbuf, hraw, rfl, rfl, by simp⟩

lemma nextToken_of_raw {q : Parse} {token : Token} {a : Bytes} (hp : p.token = none)
    (ht : token.text = some a) (hraw : getRawToken (p.rest.length + 1) p = some (token, q)) :
    p.nextToken = some (token, q) := by
  have hp' : { p with token := none } = p := by rw [← hp]
  rw [Parse.nextToken, peeked_of_none hp, hp']
  dsimp only
  rw [getToken, hraw]
  refine if_neg ?_
  rintro rfl
  cases ht

lemma nextToken_peeked {token : Token} {a : Bytes} (ht : token.text = some a)
    (h0 : a ≠ [0]) (hp : p.token = some token) :
    p.nextToken = some (token, { p with token := none }) := by
  rw [Parse.nextToken, peeked_of_some hp]
  · rintro rfl
    cases ht
  · rintro rfl
    exact h0 (Option.some.inj ht).symm

lemma base64Texts_eq {fuel : ℕ} {token : Token} {a : Bytes} {q : Parse}
    (hnext : p.nextToken = some (token, q)) (hat : token.text = some a)
    (hq : After p q (t ++ ';'.toUInt8 :: tail)) (ht : ∀ c ∈ t, isbase64 c)
    (hlen : t.length < tokbufSize) (hfuel : t.length < fuel) :
    ∃ ts r, base64Texts fuel p = some (ts, r) ∧ ts.flatten = a ++ t ∧ r.token = some semi ∧
      r.rest = tail ∧ r.warnings = p.warnings := by
  induction fuel generalizing p q token a t with
  | zero => omega
  | succ fuel ih =>
    rw [base64Texts, hnext]
    simp only [Option.bind_eq_bind, Option.bind_some, hat]
    by_cases hne : t = []
    · subst hne
      have hraw := getRawToken_char hq.rest endsNumber_semi q.rest.length
      rw [peekToken_of_raw hq.token (by simp) hraw]
      exact ⟨[a], _, rfl, by simp, rfl, rfl, hq.warnings⟩
    · obtain ⟨token', a', t', buf, hraw, hat', rfl, hne'⟩ :=
        getRawToken_base64 hne ht hlen hq.rest q.rest.length
      have hnw : token' ≠ .whitespace := by
        rintro rfl
        cases hat'
      have h0 : a' ≠ [0] := by
        rintro rfl
        exact absurd (ht 0 (by simp)) (by decide)
      rw [length_append] at hlen hfuel
      have hpos := length_pos_iff.mpr hne'
      rw [peekToken_of_raw hq.token hnw hraw]
      simp only [Option.bind_some, hat']
      rw [if_pos (validBase64_of_forall fun c hc => ht c (by simp [hc]))]
      obtain ⟨ts, r, hts, hflat, htok, hrest, hwarn⟩ := ih
        (nextToken_peeked (p := { q with
          rest := t' ++ ';'.toUInt8 :: tail
          tokbuf := buf
          token := some token' }) hat' h0 rfl)
        hat' ⟨rfl, rfl, rfl⟩ (fun c hc => ht c (by simp [hc])) (by omega) (by omega)
      rw [hts]
      exact ⟨a :: ts, r, rfl, by simp [hflat], htok, hrest, hwarn.trans hq.warnings⟩

lemma base64_ne_nil {bs : Bytes} (h : bs ≠ []) : base64 bs ≠ [] := by
  fun_cases base64 bs <;> simp_all

/-- **Base64 text is read back**: the bytes, and the semicolon is the next token. -/
theorem parseBase64_base64 (bs : Bytes) (hne : bs ≠ []) (hlen : (base64 bs).length ≤ 1400)
    (p : Parse) (hp : p.token = none) (tail : Bytes)
    (hr : p.rest = base64 bs ++ ';'.toUInt8 :: tail) :
    ∃ q, parseBase64 p = some (bs, q) ∧ q.nextToken = some (semi, { q with token := none }) ∧
      q.rest = tail ∧ q.warnings = p.warnings := by
  have hvalid := isbase64_base64 bs
  have hsize : (base64 bs).length < tokbufSize := hlen.trans_lt (by decide)
  obtain ⟨token, a, t, buf, hraw, hat, hsplit, -⟩ :=
    getRawToken_base64 (base64_ne_nil hne) hvalid hsize hr p.rest.length
  have hle : t.length ≤ (base64 bs).length := by simp [← hsplit]
  obtain ⟨ts, q, hts, hflat, htoken, hrest, hwarn⟩ := base64Texts_eq
    (nextToken_of_raw hp hat hraw) hat ⟨rfl, hp, rfl⟩
      (fun c hc => hvalid c (by simp [← hsplit, hc]))
    (hle.trans_lt hsize) (show t.length < p.rest.length + 2 by simp [hr]; omega)
  rw [hsplit] at hflat
  obtain ⟨e, he, hdata, hk⟩ := text_base64 (d := {}) bs rfl rfl rfl
  have hdecode : Decode.texts {} ts = .ok e := texts_of_flatten
    (fun c hc => (isbase64_valid c (hvalid c (hflat ▸ hc))).1) (hflat ▸ he)
  refine ⟨q, ?_, nextToken_peeked rfl (by decide) htoken, hrest, hwarn⟩
  rw [parseBase64, hts]
  simp only [Option.bind_eq_bind, Option.bind_some, hdecode, hk]
  simp [hdata]

/-- A secret that is cut into fourteen tokens. -/
theorem parseBase64_base64_secret : let bs : Bytes := [251, 255, 191, 3, 239, 190, 0, 16, 62, 251]
    ∃ q, parseBase64 { rest := base64 bs ++ [';'.toUInt8] } = some (bs, q) ∧ q.rest = [] := by
  intro bs
  obtain ⟨q, hparse, -, hrest, -⟩ := parseBase64_base64 bs (by decide) (by decide)
    { rest := base64 bs ++ [';'.toUInt8] } rfl [] rfl
  exact ⟨q, hparse, hrest⟩

end IscDhcp.Conflex
