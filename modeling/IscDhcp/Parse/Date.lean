import IscDhcp.Parse.Conflex
import IscDhcp.Lib.Calendar
import Mathlib.Data.Nat.Digits.Defs

/-!
Dates in the lease file: how they are written (`print.c`) and read back (`parse.c`).

The reader rebuilds the seconds from the fields of the date with a table of the days before each
month and a count of the leap days that is right for the years up to 2099.
-/

namespace IscDhcp.Conflex

open IscDhcp.Lib.Calendar List

/-! ### Writing -/

def decimal (n : ℕ) : Bytes := (Nat.toDigits 10 n).map Char.toUInt8

/-- `%02d`, for numbers below 100. -/
def twoDigits (n : ℕ) : Bytes := [UInt8.ofNat (48 + n / 10), UInt8.ofNat (48 + n % 10)]

/-- The format `"%w %Y/%m/%d %H:%M:%S;"` of `strftime`. -/
def dateText (tm : Tm) : Bytes :=
  decimal tm.wday ++ ' '.toUInt8 :: decimal tm.year ++ '/'.toUInt8 :: twoDigits (tm.mon + 1) ++
    '/'.toUInt8 :: twoDigits tm.mday ++ ' '.toUInt8 :: twoDigits tm.hour ++
    ':'.toUInt8 :: twoDigits tm.min ++ ':'.toUInt8 :: twoDigits tm.sec ++ [';'.toUInt8]

/-- `sizeof buf`. -/
def timeBufSize : ℕ := 60

/-- `print_time`, in the default format. -/
def printTime (t : ℤ) : Option Bytes :=
  if t = maxTime then some (bytes "never;")
  else if t < 0 then none
  else
    let text := dateText (gmtime t.toNat)
    if text.length < timeBufSize then some text else none

/-! ### Reading -/

def atoiDigits (acc : ℕ) : Bytes → ℕ
  | [] => acc
  | b :: rest => if isdigit b then atoiDigits (acc * 10 + (b.toNat - 48)) rest else acc

/-- `atoi` of the text of a number: `strtol`, which stops at the limits of a `long`, and then the
lower 32 bits. -/
def atoi (text : Bytes) : ℤ :=
  let v : ℤ := match text with
    | b :: rest =>
      if b = '-'.toUInt8 then max (-9223372036854775808) (-(atoiDigits 0 rest : ℤ))
      else min 9223372036854775807 (atoiDigits 0 text)
    | [] => 0
  v.bmod 4294967296

/-- Take the next token if it is one that is wanted. Otherwise it is skipped, unless it is a
semicolon, and the date is given up. -/
def expect {α : Type} (want : Token → Option α) (msg : String) (p : Parse) :
    ExceptT Parse Option (α × Parse) := ExceptT.mk do
  let (token, p) ← p.peekToken
  match want token with
  | some a =>
    let p ← p.skipToken
    return .ok (a, p)
  | none =>
    let p ← if token = semi then some p else p.skipToken
    return .error (p.parseWarn msg)

def numberValue : Token → Option ℤ
  | .number val => some (atoi val)
  | _ => none

def exactly (t : Token) (token : Token) : Option Unit := if token = t then some () else none

/-- The fields of a date; years are counted from 1900 and months from `0`. -/
structure Fields where
  year : ℤ
  mon : ℤ
  mday : ℤ
  hour : ℤ
  min : ℤ
  sec : ℤ
  tzoff : ℤ
  deriving DecidableEq, Repr

/-- The time zone offset may be missing. -/
def parseTzoff (p : Parse) : ExceptT Parse Option (ℤ × Parse) := ExceptT.mk do
  let (token, p) ← p.peekToken
  match token with
  | .number val =>
    let p ← p.skipToken
    return .ok (atoi val, p)
  | token =>
    if token = semi then return .ok (0, p)
    else
      let p ← p.skipToken
      return .error (p.parseWarn "Time zone offset or semicolon expected.")

/-- The date as it is written, from the day of the week on. -/
def parseFields (p : Parse) : ExceptT Parse Option (Fields × Parse) := do
  let (_, p) ← expect numberValue "numeric day of week expected." p
  let (year, p) ← expect numberValue "numeric year expected." p
  let year := if year > 1900 then year - 1900 else year
  let (_, p) ← expect (exactly slash) "expected slash separating year from month." p
  let (mon, p) ← expect numberValue "numeric month expected." p
  let (_, p) ← expect (exactly slash) "expected slash separating month from day." p
  let (mday, p) ← expect numberValue "numeric day of month expected." p
  let (hour, p) ← expect numberValue "numeric hour expected." p
  let (_, p) ← expect (exactly colon) "expected colon separating hour from minute." p
  let (min, p) ← expect numberValue "numeric minute expected." p
  let (_, p) ← expect (exactly colon) "expected colon separating minute from second." p
  let (sec, p) ← expect numberValue "numeric second expected." p
  let (tzoff, p) ← parseTzoff p
  return (⟨year, mon - 1, mday, hour, min, sec, tzoff⟩, p)

def months : List ℤ := [31, 59, 90, 120, 151, 181, 212, 243, 273, 304, 334]

/-- The days of the year before a month; `none` is a read outside the table. -/
def monthDays (mon : ℤ) : Option ℤ :=
  if mon = 0 then some 0 else if mon < 0 then none else months[(mon - 1).toNat]?

def Fields.guess (f : Fields) : Option ℤ :=
  if f.year ≥ 138 then some maxTime
  else do
    let before ← monthDays f.mon
    let leapDay : ℤ := if f.mon > 1 ∧ (f.year - 72) % 4 = 0 then 1 else 0
    let days := 365 * (f.year - 70) + (f.year - 69).tdiv 4 + before + leapDay + f.mday - 1
    return ((((days * 24 + f.hour) * 60 + f.min) * 60) + f.sec + f.tzoff).bmod 4294967296

/-- `parse_date_core`; `none` is undefined or fatal. -/
def parseDateCore (p : Parse) : Option (ℤ × Parse) := do
  let (token, p) ← p.peekToken
  match token with
  | .keyword .never _ =>
    let p ← p.skipToken
    return (maxTime, p)
  | .keyword .epoch _ =>
    let p ← p.skipToken
    match ← (expect numberValue "Seconds since epoch expected." p).run with
    | .ok (guess, p) => return (guess, p)
    | .error p => return (0, p)
  | _ =>
    match ← (parseFields p).run with
    | .ok (f, p) =>
      let guess ← f.guess
      return (guess, p)
    | .error p => return (0, p)

def parseDate (p : Parse) : Option (ℤ × Parse) := do
  let (guess, p) ← parseDateCore p
  let (ok, p) ← p.parseSemi
  return (if ok then guess else 0, p)

/-! ### The tokens of a date -/

/-- Nothing but the text has been read. -/
structure After (p q : Parse) (rest : Bytes) : Prop where
  rest : q.rest = rest
  token : q.token = none
  warnings : q.warnings = p.warnings

variable {q : Parse} {token : Token} {d n : ℕ}

lemma After.trans {p r : Parse} {rest rest' : Bytes} (h : After p q rest) (h' : After q r rest') :
    After p r rest' :=
  ⟨h'.rest, h'.token, h'.warnings.trans h.warnings⟩

/-- The character is not part of a number. -/
structure EndsNumber (c : UInt8) : Prop where
  alnum : isalnum c = false
  dash : c ≠ '-'.toUInt8
  underscore : c ≠ '_'.toUInt8
  eof : c ≠ 255

lemma isdigit_iff : isdigit c = true ↔ 48 ≤ c.toNat ∧ c.toNat ≤ 57 := by
  simp only [isdigit, Bool.and_eq_true, decide_eq_true_eq]
  rfl

lemma forall_byte {P : UInt8 → Prop} (h : ∀ n < 256, P (UInt8.ofNat n)) (c : UInt8) : P c :=
  UInt8.ofNat_toNat (x := c) ▸ h c.toNat c.toNat_lt

lemma alnum_plain : ∀ c, isalnum c → isascii c ∧ c ≠ 255 ∧ isspace c = false ∧
    c ≠ '#'.toUInt8 ∧ c ≠ '"'.toUInt8 ∧ (isdigit c = false → c ≠ '-'.toUInt8 ∧ isalpha c) := by
  refine forall_byte ?_
  decide +kernel

lemma isalnum_of_isxdigit : ∀ c, isxdigit c → isalnum c := by
  refine forall_byte ?_
  decide +kernel

lemma isalnum_of_isdigit (h : isdigit c) : isalnum c := by simp [isalnum, h]

lemma EndsNumber.promote (h : EndsNumber c) (kind : NumKind) (text : Bytes) :
    kind.promote text c = none := by
  have hx : isxdigit c = false := Bool.eq_false_iff.mpr fun hx =>
    Bool.eq_false_iff.mp h.alnum (isalnum_of_isxdigit c hx)
  have hd : isdigit c = false := Bool.eq_false_iff.mpr fun hd =>
    Bool.eq_false_iff.mp h.alnum (isalnum_of_isdigit hd)
  simp [NumKind.promote, hx, hd, h.alnum, h.dash, h.underscore]

variable {p : Parse} {c : UInt8} {ds tail : Bytes}

lemma numberLoop_alnum (kind : NumKind) (text tail : Bytes) (hds : ∀ b ∈ ds, isalnum b)
    (hlen : text.length + ds.length < tokbufSize) (hc : EndsNumber c) :
    ∃ kind', numberLoop kind text (ds ++ c :: tail) = (kind', text ++ ds, c :: tail) ∧
      (kind = .number → (∀ b ∈ ds, isdigit b) → kind' = .number) := by
  induction ds generalizing kind text with
  | nil =>
    refine ⟨kind, ?_, fun h _ => h⟩
    rw [nil_append, numberLoop, if_pos (by simpa using hlen), if_neg hc.eof, hc.promote,
      append_nil]
  | cons b ds ih =>
    rw [forall_mem_cons] at hds
    rw [length_cons] at hlen
    obtain ⟨hascii, h255, -⟩ := alnum_plain b hds.1
    obtain ⟨kind', hkind, hnum⟩ : ∃ kind', kind.promote text b = some kind' ∧
        (kind = .number → isdigit b → kind' = .number) := by
      rw [NumKind.promote, if_pos hascii]
      split_ifs <;> simp_all
    rw [cons_append, numberLoop, if_pos (by omega), if_neg h255, hkind]
    obtain ⟨kind'', h, hnum'⟩ := ih kind' (text ++ [b]) hds.2 (by simp; omega)
    refine ⟨kind'', by simpa using h, fun hk hd => ?_⟩
    rw [forall_mem_cons] at hd
    exact hnum' (hnum hk hd.1) hd.2

lemma nameLoop_alnum (hex : Bool) (text tail : Bytes) (hds : ∀ b ∈ ds, isalnum b)
    (hlen : text.length + ds.length < tokbufSize) (hc : EndsNumber c) :
    ∃ hex', nameLoop hex text (ds ++ c :: tail) = (hex', text ++ ds, c :: tail) := by
  induction ds generalizing hex text with
  | nil =>
    refine ⟨hex, ?_⟩
    rw [nil_append, nameLoop, if_pos (by simpa using hlen), if_neg hc.eof,
      if_neg (by simp [hc.alnum, hc.dash, hc.underscore]), append_nil]
  | cons b ds ih =>
    rw [forall_mem_cons] at hds
    rw [length_cons] at hlen
    obtain ⟨hascii, h255, -⟩ := alnum_plain b hds.1
    rw [cons_append, nameLoop, if_pos (by omega), if_neg h255,
      if_pos ⟨hascii, .inr (.inr hds.1)⟩]
    obtain ⟨hex', h⟩ := ih (hex && isxdigit b) (text ++ [b]) hds.2 (by simp; omega)
    exact ⟨hex', by simpa using h⟩

lemma store_ne_dash (p : Parse) (text : Bytes) :
    ¬ (text.length = 1 ∧ (p.store text).tokbuf 1 = '-'.toUInt8) := by
  rintro ⟨hl, ht⟩
  simp only [Parse.store, hl, if_true] at ht
  exact absurd ht (by decide)

lemma text_intern (atom : Bytes) {dfv : Token} (h : dfv.text = some atom) :
    (intern atom dfv).text = some atom := by
  unfold intern
  split
  exacts [rfl, h]

lemma getRawToken_alnum {b : UInt8} (hb : isalnum b) (hds : ∀ b ∈ ds, isalnum b)
    (hlen : (b :: ds).length < tokbufSize) (hc : EndsNumber c) (hr : p.rest = b :: ds ++ c :: tail)
    (fuel : ℕ) : ∃ token buf, getRawToken (fuel + 1) p =
      some (token, { p with rest := c :: tail, tokbuf := buf }) ∧ token.text = some (b :: ds) ∧
      ((∀ x ∈ b :: ds, isdigit x) → token = .number (b :: ds)) := by
  obtain ⟨-, h255, hspace, hhash, hquote, halpha⟩ := alnum_plain b hb
  have hfull : (b :: ds).length ≠ tokbufSize := hlen.ne
  rw [length_cons] at hlen
  rw [getRawToken, hr, cons_append, getChar, if_neg h255]
  simp only [hspace, hhash, hquote, if_false, Bool.false_eq_true]
  cases hdigit : isdigit b with
  | true =>
    obtain ⟨kind, hloop, hnum⟩ := numberLoop_alnum .number [b] tail hds (by simp; omega) hc
    rw [if_pos (.inl rfl), readNumber]
    simp only [hloop, singleton_append, fit, if_neg hfull]
    rw [if_neg (store_ne_dash _ _)]
    refine ⟨_, _, rfl, by cases kind <;> rfl, fun hd => ?_⟩
    rw [hnum rfl (forall_mem_cons.mp hd).2]
  | false =>
    obtain ⟨hdash, halpha⟩ := halpha hdigit
    obtain ⟨hex, hloop⟩ := nameLoop_alnum true [b] tail hds (by simp; omega) hc
    rw [if_neg (by simp [hdash]), if_pos halpha, readNumOrName]
    simp only [hloop, singleton_append, fit, if_neg hfull]
    refine ⟨_, _, rfl, text_intern _ (by split_ifs <;> rfl), fun hd => ?_⟩
    simp [hdigit] at hd

lemma getRawToken_number (hne : ds ≠ []) (hd : ∀ b ∈ ds, isdigit b = true)
    (hlen : ds.length < tokbufSize) (hc : EndsNumber c) (hr : p.rest = ds ++ c :: tail) (fuel : ℕ) :
    ∃ buf, getRawToken (fuel + 1) p =
      some (.number ds, { p with rest := c :: tail, tokbuf := buf }) := by
  obtain ⟨b, ds, rfl⟩ := exists_cons_of_ne_nil hne
  obtain ⟨hb, hds⟩ := forall_mem_cons.mp hd
  obtain ⟨token, buf, hraw, -, hnum⟩ := getRawToken_alnum (isalnum_of_isdigit hb)
    (fun x hx => isalnum_of_isdigit (hds x hx)) hlen hc hr fuel
  exact ⟨buf, hnum hd ▸ hraw⟩

lemma getRawToken_char (hr : p.rest = c :: tail) (hc : EndsNumber c) (fuel : ℕ)
    (hs : isspace c = false := by decide) (h₁ : c ≠ '#'.toUInt8 := by decide)
    (h₂ : c ≠ '"'.toUInt8 := by decide) :
    getRawToken (fuel + 1) p = some (.char c, { p with rest := tail }) := by
  have hal := hc.alnum
  simp only [isalnum, Bool.or_eq_false_iff] at hal
  rw [getRawToken, hr, getChar, if_neg hc.eof]
  simp [hs, h₁, h₂, hal.1, hal.2, hc.dash]

lemma getRawToken_blank (hr : p.rest = ' '.toUInt8 :: c :: tail) (hs : isspace c = false)
    (hc : c ≠ 255) (fuel : ℕ) : ∃ buf, getRawToken (fuel + 1) p =
      some (.whitespace, { p with rest := c :: tail, tokbuf := buf }) := by
  refine ⟨(Parse.store p [' '.toUInt8]).tokbuf, ?_⟩
  have hw : whitespaceLoop [' '.toUInt8] (c :: tail) =
      some (.whitespace, [' '.toUInt8], c :: tail) := by
    rw [whitespaceLoop, if_neg hc, hs]
    rfl
  rw [getRawToken, hr]
  change readWhitespace _ _ = _
  rw [readWhitespace, hw]
  rfl

lemma peeked_of_none (hp : p.token = none) : p.peeked = none := by
  rw [Parse.peeked, hp, Option.filter_none]

lemma peeked_of_some (hp : p.token = some token) (ht : token ≠ .whitespace)
    (h0 : token ≠ .char 0) : p.peeked = some token := by
  rw [Parse.peeked, hp, Option.filter_some, if_pos (by simp [ht, h0])]

lemma peekToken_of_get (hp : p.token = none)
    (hget : getToken (p.rest.length + 2) p = some (token, q)) :
    p.peekToken = some (token, { q with token := some token }) := by
  unfold Parse.peekToken
  rw [peeked_of_none hp, hget]
  rfl

lemma peekToken_of_raw (hp : p.token = none) (ht : token ≠ .whitespace)
    (hraw : getRawToken (p.rest.length + 1) p = some (token, q)) :
    p.peekToken = some (token, { q with token := some token }) := by
  refine peekToken_of_get hp ?_
  rw [getToken, hraw]
  exact if_neg ht

lemma peekToken_of_blank {r : Parse} (hp : p.token = none) (ht : token ≠ .whitespace)
    (hblank : getRawToken (p.rest.length + 1) p = some (.whitespace, q))
    (hraw : getRawToken (q.rest.length + 1) q = some (token, r)) :
    p.peekToken = some (token, { r with token := some token }) := by
  refine peekToken_of_get hp ?_
  rw [getToken, hblank]
  change getToken (p.rest.length + 1) q = _
  rw [getToken, hraw]
  exact if_neg ht

lemma expect_of_peek {α : Type} {want : Token → Option α} {msg : String} {a : α}
    (hpeek : p.peekToken = some (token, { q with token := some token })) (ht : token ≠ .whitespace)
    (h0 : token ≠ .char 0)
    (hw : want token = some a) : expect want msg p = pure (a, { q with token := none }) := by
  unfold expect
  rw [hpeek]
  have hskip : Parse.skipToken { q with token := some token } = some { q with token := none } := by
    rw [Parse.skipToken, Parse.nextToken, peeked_of_some rfl ht h0]
    rfl
  simp only [Option.bind_eq_bind, Option.bind_some, hw, hskip]
  rfl

lemma expect_number (msg : String) {sp : Bytes} (hp : p.token = none)
    (hsp : sp = [] ∨ sp = [' '.toUInt8]) (hne : ds ≠ []) (hd : ∀ b ∈ ds, isdigit b = true)
    (hlen : ds.length < tokbufSize)
    (hc : EndsNumber c) (hr : p.rest = sp ++ ds ++ c :: tail) :
    ∃ q, expect numberValue msg p = pure (atoi ds, q) ∧ After p q (c :: tail) := by
  rcases hsp with rfl | rfl
  · obtain ⟨buf, hraw⟩ := getRawToken_number hne hd hlen hc hr p.rest.length
    have hpeek := peekToken_of_raw hp (by simp) hraw
    exact ⟨_, expect_of_peek hpeek (by simp) (by simp) rfl, ⟨rfl, rfl, rfl⟩⟩
  · obtain ⟨b, ds, rfl⟩ := exists_cons_of_ne_nil hne
    obtain ⟨-, h255, hspace, -⟩ := alnum_plain b (isalnum_of_isdigit (hd b mem_cons_self))
    obtain ⟨buf, hblank⟩ := getRawToken_blank (by simpa using hr) hspace h255 p.rest.length
    obtain ⟨buf', hraw⟩ := getRawToken_number
      (p := { p with rest := b :: (ds ++ c :: tail), tokbuf := buf }) hne hd hlen hc rfl
      (b :: (ds ++ c :: tail)).length
    have hpeek := peekToken_of_blank hp (by simp) hblank hraw
    exact ⟨_, expect_of_peek hpeek (by simp) (by simp) rfl, ⟨rfl, rfl, rfl⟩⟩

lemma expect_char (msg : String) (hp : p.token = none) (hr : p.rest = c :: tail)
    (hc : EndsNumber c) (h0 : c ≠ 0) (hs : isspace c = false := by decide)
    (h₁ : c ≠ '#'.toUInt8 := by decide) (h₂ : c ≠ '"'.toUInt8 := by decide) :
    ∃ q, expect (exactly (.char c)) msg p = pure ((), q) ∧ After p q tail := by
  have hraw := getRawToken_char hr hc p.rest.length hs h₁ h₂
  have hpeek := peekToken_of_raw hp (by simp) hraw
  exact ⟨_, expect_of_peek hpeek (by simp) (by simpa using h0) (if_pos rfl), ⟨rfl, rfl, rfl⟩⟩

/-! ### Digits -/

lemma toNat_digit (hd : d < 10) : (UInt8.ofNat (48 + d)).toNat = 48 + d := by
  rw [UInt8.toNat_ofNat']
  omega

lemma isdigit_digit (hd : d < 10) : isdigit (UInt8.ofNat (48 + d)) = true := by
  rw [isdigit_iff, toNat_digit hd]
  omega

lemma toUInt8_digitChar (hd : d < 10) : d.digitChar.toUInt8 = UInt8.ofNat (48 + d) := by
  rw [← Nat.toNat_digitChar_of_lt_ten hd]
  rfl

lemma decimal_of_lt (h : n < 10) : decimal n = [UInt8.ofNat (48 + n)] := by
  rw [decimal, Nat.toDigits_of_lt_base h, map_singleton, toUInt8_digitChar h]

lemma decimal_of_le (h : 10 ≤ n) : decimal n = decimal (n / 10) ++ [UInt8.ofNat (48 + n % 10)] := by
  rw [decimal, Nat.toDigits_of_base_le (by decide) h, map_append, map_singleton,
    toUInt8_digitChar (by omega)]
  rfl

lemma atoiDigits_append {acc : ℕ} {ds : Bytes} (hd : ∀ b ∈ ds, isdigit b = true) (b : UInt8)
    (hb : isdigit b = true) :
    atoiDigits acc (ds ++ [b]) = atoiDigits acc ds * 10 + (b.toNat - 48) := by
  induction ds generalizing acc with
  | nil => simp [atoiDigits, hb]
  | cons a ds ih =>
    obtain ⟨ha, hds⟩ := forall_mem_cons.mp hd
    rw [cons_append, atoiDigits, atoiDigits, if_pos ha, if_pos ha, ih hds]

/-- The text of a number, as it is written for a number. -/
structure Denotes (ds : Bytes) (n : ℕ) : Prop where
  ne_nil : ds ≠ []
  digits : ∀ b ∈ ds, isdigit b = true
  value : atoiDigits 0 ds = n

lemma Denotes.append (h : Denotes ds n) (hd : d < 10) :
    Denotes (ds ++ [UInt8.ofNat (48 + d)]) (n * 10 + d) where
  ne_nil := by simp
  digits b hb := by
    rcases mem_append.mp hb with hb | hb
    · exact h.digits b hb
    · rw [mem_singleton.mp hb]
      exact isdigit_digit hd
  value := by
    rw [atoiDigits_append h.digits _ (isdigit_digit hd), h.value, toNat_digit hd]
    omega

lemma denotes_digit (hd : d < 10) : Denotes [UInt8.ofNat (48 + d)] d where
  ne_nil := by simp
  digits b hb := by
    rw [mem_singleton.mp hb]
    exact isdigit_digit hd
  value := by
    rw [atoiDigits, if_pos (isdigit_digit hd), toNat_digit hd, atoiDigits]
    omega

lemma denotes_decimal (n : ℕ) : Denotes (decimal n) n := by
  induction n using Nat.strong_induction_on with
  | h n ih =>
    by_cases hn : n < 10
    · rw [decimal_of_lt hn]
      exact denotes_digit hn
    · have h := (ih (n / 10) (by omega)).append (d := n % 10) (by omega)
      rw [decimal_of_le (by omega)]
      rwa [show n / 10 * 10 + n % 10 = n by omega] at h

lemma denotes_twoDigits (h : n < 100) : Denotes (twoDigits n) n := by
  have hd := (denotes_digit (d := n / 10) (by omega)).append (d := n % 10) (by omega)
  rwa [show n / 10 * 10 + n % 10 = n by omega] at hd

lemma Denotes.atoi (h : Denotes ds n) (hn : n < 2147483648) : atoi ds = n := by
  obtain ⟨b, rest, rfl⟩ := exists_cons_of_ne_nil h.ne_nil
  have hb : b ≠ '-'.toUInt8 := by
    rintro rfl
    exact absurd (h.digits _ mem_cons_self) (by decide)
  unfold Conflex.atoi
  simp only [if_neg hb, h.value]
  rw [min_eq_right (by omega), Int.bmod_def]
  split_ifs <;> omega

lemma length_decimal (h : n < 10000) : (decimal n).length ≤ 4 := by
  rw [decimal, length_map]
  exact Nat.toDigits_length 10 n 4 (by decide) h

/-! ### The fields -/

lemma endsNumber_blank : EndsNumber ' '.toUInt8 := ⟨by decide, by decide, by decide, by decide⟩
lemma endsNumber_slash : EndsNumber '/'.toUInt8 := ⟨by decide, by decide, by decide, by decide⟩
lemma endsNumber_colon : EndsNumber ':'.toUInt8 := ⟨by decide, by decide, by decide, by decide⟩
lemma endsNumber_semi : EndsNumber ';'.toUInt8 := ⟨by decide, by decide, by decide, by decide⟩

lemma expect_denotes (msg : String) (sp : Bytes) (hp : p.token = none)
    (hsp : sp = [] ∨ sp = [' '.toUInt8]) (h : Denotes ds n) (hlen : ds.length ≤ 4) (hn : n < 10000)
    (hc : EndsNumber c) (hr : p.rest = sp ++ ds ++ c :: tail) :
    ∃ q, expect numberValue msg p = pure ((n : ℤ), q) ∧ After p q (c :: tail) := by
  have he := expect_number msg hp hsp h.ne_nil h.digits (hlen.trans_lt (by decide)) hc hr
  rwa [h.atoi (by omega)] at he

lemma parseTzoff_semi (hp : p.token = none) (hr : p.rest = ';'.toUInt8 :: tail) :
    ∃ q, parseTzoff p = pure (0, q) ∧ q.rest = tail ∧ q.token = some semi ∧
      q.warnings = p.warnings := by
  have hraw := getRawToken_char hr endsNumber_semi p.rest.length
  have hpeek := peekToken_of_raw hp (by simp) hraw
  refine ⟨{ p with rest := tail, token := some semi }, ?_, rfl, rfl, rfl⟩
  unfold parseTzoff
  rw [hpeek]
  rfl

/-- The text of a date is read back field by field; the semicolon is only looked at. -/
lemma parseFields_dateText {tm : Tm} (hv : tm.Valid) (hy : tm.year < 10000) (hp : p.token = none)
    (hr : p.rest = dateText tm ++ tail) :
    ∃ q, parseFields p =
      pure (⟨(tm.year : ℤ) - 1900, tm.mon, tm.mday, tm.hour, tm.min, tm.sec, 0⟩, q) ∧
      q.rest = tail ∧ q.token = some semi ∧ q.warnings = p.warnings := by
  have hm := hv.mon
  have hmd : tm.mday < 100 := hv.mday_le.trans_lt (by decide)
  have hh := hv.hour
  have hmin := hv.min
  have hs := hv.sec
  have hw := hv.wday
  simp only [dateText, append_assoc] at hr
  obtain ⟨q1, e1, a1⟩ := expect_denotes "numeric day of week expected." [] hp (.inl rfl)
    (denotes_decimal tm.wday) (length_decimal (by omega)) (by omega) endsNumber_blank
    (by rw [hr]; rfl)
  obtain ⟨q2, e2, a2⟩ := expect_denotes "numeric year expected." [' '.toUInt8] a1.token
    (.inr rfl) (denotes_decimal tm.year) (length_decimal hy) hy endsNumber_slash
    (by rw [a1.rest]; rfl)
  obtain ⟨q3, e3, a3⟩ := expect_char "expected slash separating year from month." a2.token a2.rest
    endsNumber_slash (by decide)
  obtain ⟨q4, e4, a4⟩ := expect_denotes "numeric month expected." [] a3.token (.inl rfl)
    (denotes_twoDigits (n := tm.mon + 1) (by omega)) (by simp [twoDigits]) (by omega)
    endsNumber_slash (by rw [a3.rest]; rfl)
  obtain ⟨q5, e5, a5⟩ := expect_char "expected slash separating month from day." a4.token a4.rest
    endsNumber_slash (by decide)
  obtain ⟨q6, e6, a6⟩ := expect_denotes "numeric day of month expected." [] a5.token
    (.inl rfl) (denotes_twoDigits hmd) (by simp [twoDigits]) (by omega) endsNumber_blank
    (by rw [a5.rest]; rfl)
  obtain ⟨q7, e7, a7⟩ := expect_denotes "numeric hour expected." [' '.toUInt8] a6.token
    (.inr rfl) (denotes_twoDigits (n := tm.hour) (by omega)) (by simp [twoDigits]) (by omega)
    endsNumber_colon (by rw [a6.rest]; rfl)
  obtain ⟨q8, e8, a8⟩ := expect_char "expected colon separating hour from minute." a7.token a7.rest
    endsNumber_colon (by decide)
  obtain ⟨q9, e9, a9⟩ := expect_denotes "numeric minute expected." [] a8.token (.inl rfl)
    (denotes_twoDigits (n := tm.min) (by omega)) (by simp [twoDigits]) (by omega)
    endsNumber_colon (by rw [a8.rest]; rfl)
  obtain ⟨q10, e10, a10⟩ := expect_char "expected colon separating minute from second." a9.token
    a9.rest endsNumber_colon (by decide)
  obtain ⟨q11, e11, a11⟩ := expect_denotes "numeric second expected." [] a10.token
    (.inl rfl) (denotes_twoDigits (n := tm.sec) (by omega)) (by simp [twoDigits]) (by omega)
    endsNumber_semi (by rw [a10.rest]; rfl)
  obtain ⟨q12, e12, h1, h2, h3⟩ := parseTzoff_semi a11.token a11.rest
  have hw1 := ((((((((((a1.trans a2).trans a3).trans a4).trans a5).trans a6).trans a7).trans
    a8).trans a9).trans a10).trans a11).warnings
  refine ⟨q12, ?_, h1, h2, h3.trans hw1⟩
  have hyear : ((tm.year : ℤ) > 1900) := by
    have := hv.year
    omega
  unfold parseFields
  simp only [slash, colon, e1, e2, e3, e4, e5, e6, e7, e8, e9, e10, e11, e12, pure_bind,
    if_pos hyear]
  simp

/-! ### The seconds -/

lemma daysBefore_eq {y mon : ℕ} (hm : mon < 12) :
    (daysBefore y mon : ℤ) = (if mon = 0 then 0 else months.getD (mon - 1) 0) +
      if mon > 1 ∧ isLeap y = true then 1 else 0 := by
  unfold daysBefore monthLengths
  generalize isLeap y = leap
  interval_cases mon <;> cases leap <;> decide

lemma guess_fields {tm : Tm} (hv : tm.Valid) (hy : tm.year < 2038) (hs : tm.seconds < 2147483648) :
    Fields.guess ⟨(tm.year : ℤ) - 1900, tm.mon, tm.mday, tm.hour, tm.min, tm.sec, 0⟩ =
      some (tm.seconds : ℤ) := by
  have hyear := hv.year
  have hm := hv.mon
  have hday := hv.mday.1
  have hbefore := daysBefore_eq (y := tm.year) hm
  rw [isLeap_eq (by omega) (by omega)] at hbefore
  have hleap : ((tm.mon : ℤ) > 1 ∧ ((tm.year : ℤ) - 1900 - 72) % 4 = 0) ↔
      (tm.mon > 1 ∧ (tm.year % 4 == 0) = true) := by
    rw [beq_iff_eq]
    omega
  have hmonths : monthDays tm.mon =
    some (if tm.mon = 0 then 0 else months.getD (tm.mon - 1) 0) := by
    generalize tm.mon = mon at hm
    interval_cases mon <;> rfl
  unfold Fields.guess
  dsimp only
  rw [if_neg (by omega), hmonths, if_congr hleap rfl rfl]
  simp only [Option.bind_eq_bind, Option.bind_some, Option.pure_def, Option.some.injEq]
  have htdiv : ((tm.year : ℤ) - 1900 - 69).tdiv 4 = ((tm.year - 1969) / 4 : ℕ) := by
    rw [Int.tdiv_eq_ediv_of_nonneg (by omega)]
    omega
  have hdays : (daysOfYears 1970 tm.year : ℤ) =
      365 * ((tm.year : ℤ) - 1900 - 70) + ((tm.year - 1969) / 4 : ℕ) := by
    rw [daysOfYears_1970 hyear (by omega)]
    omega
  have hsec : (((365 * ((tm.year : ℤ) - 1900 - 70) + ((tm.year : ℤ) - 1900 - 69).tdiv 4 +
      (if tm.mon = 0 then 0 else months.getD (tm.mon - 1) 0) +
      (if tm.mon > 1 ∧ (tm.year % 4 == 0) = true then 1 else 0) + tm.mday - 1) * 24 + tm.hour) *
        60 +
      tm.min) * 60 + tm.sec + 0 = tm.seconds := by
    unfold Tm.seconds
    generalize (tm.year - 1969) / 4 = leapDays at htdiv hdays
    rw [htdiv]
    push_cast [Nat.cast_sub hday]
    rw [hbefore, hdays]
    ring
  rw [hsec, Int.bmod_def]
  split_ifs <;> omega

/-! ### Round trip -/

lemma expect_peeked {α : Type} {want : Token → Option α} {msg : String} (ht : token ≠ .whitespace)
    (h0 : token ≠ .char 0) (h : p.peekToken = some (token, q)) (hq : q.token = some token) :
    expect want msg q = expect want msg p := by
  have hqq : q.peekToken = some (token, q) := by
    rw [Parse.peekToken, peeked_of_some hq ht h0]
  unfold expect
  rw [h, hqq]

lemma parseDate_dateText {tm : Tm} (hv : tm.Valid) (hy : tm.year < 2038)
    (hs : tm.seconds < 2147483648) (hp : p.token = none) (hr : p.rest = dateText tm ++ tail) :
    ∃ q, parseDate p = some ((tm.seconds : ℤ), q) ∧ After p q tail := by
  obtain ⟨q, hf, h1, h2, h3⟩ := parseFields_dateText hv (hy.trans (by decide)) hp hr
  -- the first token, at which the date is told from `never` and `epoch`
  have hw := denotes_decimal tm.wday
  obtain ⟨after, hafter⟩ : ∃ after, p.rest = decimal tm.wday ++ ' '.toUInt8 :: after := by
    rw [hr, dateText]
    simp only [append_assoc]
    exact ⟨_, rfl⟩
  obtain ⟨buf, hraw⟩ := getRawToken_number hw.ne_nil hw.digits
    ((length_decimal (by have := hv.wday; omega)).trans_lt (by decide)) endsNumber_blank hafter
    p.rest.length
  obtain ⟨u, hpeek, hu⟩ : ∃ u, p.peekToken = some (.number (decimal tm.wday), u) ∧
      u.token = some (.number (decimal tm.wday)) :=
    ⟨_, peekToken_of_raw hp (by simp) hraw, rfl⟩
  have hfields : parseFields u = parseFields p := by
    unfold parseFields
    rw [expect_peeked (by simp) (by simp) hpeek hu]
  have hcore : parseDateCore p = some ((tm.seconds : ℤ), q) := by
    unfold parseDateCore
    rw [hpeek]
    simp only [Option.bind_eq_bind, Option.bind_some]
    rw [hfields, hf]
    change (Fields.guess _).bind _ = _
    rw [guess_fields hv hy hs]
    rfl
  refine ⟨{ q with token := none }, ?_, ⟨h1, rfl, h3⟩⟩
  unfold parseDate Parse.parseSemi Parse.nextToken
  rw [hcore]
  simp only [Option.bind_eq_bind, Option.bind_some,
    peeked_of_some h2 (by decide) (by decide)]
  rfl

/-- The times that dates are written for and read back exactly. -/
def Datable (t : ℤ) : Prop := 0 ≤ t ∧ t < maxTime ∧ (gmtime t.toNat).year < 2038

/-- **A date is read back.** What `print_time` writes for a time before 2038 in the default format
is read back as that time by `parse_date`, which reads nothing behind it; and a later time is read
from the text of a later one. -/
theorem parseDate_printTime : (∀ t, Datable t → ∃ text, printTime t = some text ∧
      ∀ p tail, p.token = none → p.rest = text ++ tail →
        ∃ q, parseDate p = some (t, q) ∧ After p q tail) ∧
    ∀ t u text text', Datable t → Datable u → t < u → printTime t = some text →
      printTime u = some text' →
      ∃ v w, (parseDate { rest := text }).map Prod.fst = some v ∧
        (parseDate { rest := text' }).map Prod.fst = some w ∧ v < w := by
  have hprint {t : ℤ} (ht : Datable t) : ∃ text, printTime t = some text ∧
      ∀ p tail, p.token = none → p.rest = text ++ tail →
        ∃ q, parseDate p = some (t, q) ∧ After p q tail := by
    obtain ⟨h0, h1, hy⟩ := ht
    have hv := gmtime_valid t.toNat
    have hlen : (dateText (gmtime t.toNat)).length < timeBufSize := by
      have hl1 := length_decimal (n := (gmtime t.toNat).year) (by omega)
      have hl2 := length_decimal (n := (gmtime t.toNat).wday) (by have := hv.wday; omega)
      simp only [dateText, length_append, length_cons, twoDigits, length_nil,
        timeBufSize]
      omega
    have hmax : (maxTime : ℤ) = 2147483647 := rfl
    refine ⟨dateText (gmtime t.toNat), ?_, fun p tail hp hr => ?_⟩
    · unfold printTime
      rw [if_neg h1.ne, if_neg (by omega), if_pos hlen]
    · have hs := seconds_gmtime t.toNat
      have hd := parseDate_dateText hv hy (by omega) hp hr
      rwa [hs, Int.toNat_of_nonneg h0] at hd
  have hback {t : ℤ} {text : Bytes} (ht : Datable t) (hp : printTime t = some text) :
      (parseDate { rest := text }).map Prod.fst = some t := by
    obtain ⟨text1, h1, hread⟩ := hprint ht
    obtain rfl := Option.some.inj (h1.symm.trans hp)
    obtain ⟨q, hq, -⟩ := hread { rest := text1 } [] rfl (by simp)
    rw [hq]
    rfl
  exact ⟨fun t ht => hprint ht, fun t u text text' ht hu hlt hpt hpu =>
    ⟨t, u, hback ht hpt, hback hu hpu, hlt⟩⟩

/-- The 29th of February 2000. -/
theorem parseDate_printTime_sample : Datable 951782400 ∧ ∃ text q, printTime 951782400 = some text ∧
      parseDate { rest := text } = some (951782400, q) ∧ q.rest = [] := by
  have hd : Datable 951782400 := ⟨by decide, by decide, by decide +kernel⟩
  obtain ⟨text, ht, hread⟩ := parseDate_printTime.1 951782400 hd
  obtain ⟨q, hq, ha⟩ := hread { rest := text } [] rfl (by simp)
  exact ⟨hd, text, q, ht, hq, ha.rest⟩

end IscDhcp.Conflex
