import IscDhcp.Parse.Conflex

/-!
Strings in quotes: how they are written (`print.c`) and that the scanner reads them back.

A byte that cannot be printed is written as a backslash and three octal digits, so the scanner is
in the middle of an escape sequence for two more characters. What is written for one byte takes
it from one such state to the next, which carries the induction over the string.
-/

namespace IscDhcp.Conflex

open List

/-- `sprintf (nsp, "\\%03o", c)`. -/
def octal (c : UInt8) : Bytes :=
  ['\\'.toUInt8, 48 + c / 64, 48 + c / 8 % 8, 48 + c % 8]

/-- What `quotify_buf` writes for one byte. -/
def quotifyChar (c : UInt8) : Bytes :=
  if c = ' '.toUInt8 then [' '.toUInt8]
  else if !isascii c || !isprint c then octal c
  else if c = '"'.toUInt8 ∨ c = '\\'.toUInt8 then ['\\'.toUInt8, c]
  else [c]

def quotifyBuf (s : Bytes) (encloseChar : Option UInt8) : Bytes :=
  encloseChar.toList ++ s.flatMap quotifyChar ++ encloseChar.toList

/-! ### Octal digits -/

lemma toNat_octal (c : UInt8) :
    (48 + c / 64).toNat = 48 + c.toNat / 64 ∧ (48 + c / 8 % 8).toNat = 48 + c.toNat / 8 % 8 ∧
      (48 + c % 8).toNat = 48 + c.toNat % 8 := by
  have hc := c.toNat_lt
  simp only [UInt8.toNat_add, UInt8.toNat_div, UInt8.toNat_mod, UInt8.reduceToNat]
  omega

namespace StringState

variable {s t : StringState} {rest : Bytes}

lemma loop_cons {b : UInt8} (hb : b ≠ 255) (hs : s.step b = some t) (ht : t.i < tokbufSize) :
    s.loop (b :: rest) = t.loop rest := by
  rw [loop, if_neg hb, hs]
  exact if_pos ht

variable {c : UInt8}

lemma step_plain (hs : s.bs = 0) (h₁ : c ≠ '\\'.toUInt8) (h₂ : c ≠ '"'.toUInt8) :
    s.step c = some (s.put c) := by
  simp [step, hs, h₁, h₂]

lemma step_escaped (hs : s.bs = 1) (hc : c = '"'.toUInt8 ∨ c = '\\'.toUInt8) :
    s.step c = some (s.put c) := by
  unfold step
  rw [if_pos hs]
  rcases hc with rfl | rfl <;> rfl

lemma step_octal_first (hs : s.bs = 1) (h₁ : 48 ≤ c.toNat) (h₂ : c.toNat ≤ 51) :
    s.step c = some { s with hex := false, value := c.toNat - 48, bs := 2 } := by
  have hr : '0'.toUInt8 ≤ c ∧ c ≤ '3'.toUInt8 := by
    exact ⟨h₁, h₂⟩
  have hne (d : Char) (hd : 51 < d.toUInt8.toNat) : c ≠ d.toUInt8 := by
    rintro rfl
    omega
  simp [step, hs, hr, hne 't' (by decide), hne 'r' (by decide), hne 'n' (by decide),
    hne 'b' (by decide)]

lemma step_octal_next (hs : 1 < s.bs) (hx : s.hex = false) (h₁ : 48 ≤ c.toNat) (h₂ : c.toNat ≤ 55) :
    s.step c = some (s.digit (s.value * 8 + (c.toNat - 48))) := by
  have hr : '0'.toUInt8 ≤ c ∧ c ≤ '7'.toUInt8 := by
    exact ⟨h₁, h₂⟩
  simp [step, hs, hx, hr, show s.bs ≠ 1 by omega]

/-- What is written for a byte makes the scanner store that byte. -/
structure Stores (s t : StringState) (c : UInt8) : Prop where
  tokbuf : t.tokbuf = Function.update s.tokbuf s.i c
  i : t.i = s.i + 1
  bs : t.bs = 0
  warnings : t.warnings = s.warnings

lemma stores_put (s : StringState) (c : UInt8) : Stores s (s.put c) c := ⟨rfl, rfl, rfl, rfl⟩

lemma ne_255_of_le (h : c.toNat ≤ 127) : c ≠ 255 := by
  rintro rfl
  exact absurd h (by decide)

lemma loop_octal (hs : s.bs = 0) (hi : s.i + 1 < tokbufSize) (c : UInt8) (rest : Bytes) :
    ∃ t, s.loop (octal c ++ rest) = t.loop rest ∧ Stores s t c := by
  obtain ⟨h1, h2, h3⟩ := toNat_octal c
  have hc := c.toNat_lt
  have hlt : s.i < tokbufSize := by omega
  have hb : s.step '\\'.toUInt8 = some { s with bs := 1 } := by simp [step, hs]
  have e1 : { s with bs := 1 }.step (48 + c / 64) =
      some { s with hex := false, value := c.toNat / 64, bs := 2 } := by
    rw [step_octal_first rfl (by omega) (by omega), h1, Nat.add_sub_cancel_left]
  have e2 : { s with hex := false, value := c.toNat / 64, bs := 2 }.step (48 + c / 8 % 8) =
      some { s with hex := false, value := c.toNat / 8, bs := 3 } := by
    rw [step_octal_next (show 1 < 2 by decide) rfl (by omega) (by omega), h2,
      Nat.add_sub_cancel_left]
    rw [show c.toNat / 64 * 8 + c.toNat / 8 % 8 = c.toNat / 8 by omega]
    rfl
  have e3 : { s with hex := false, value := c.toNat / 8, bs := 3 }.step (48 + c % 8) =
      some ({ s with hex := false, value := c.toNat, bs := 3 }.put c) := by
    rw [step_octal_next (show 1 < 3 by decide) rfl (by omega) (by omega), h3,
      Nat.add_sub_cancel_left]
    dsimp only [digit]
    rw [show c.toNat / 8 * 8 + c.toNat % 8 = c.toNat by omega, UInt8.ofNat_toNat]
    rfl
  refine ⟨{ s with hex := false, value := c.toNat, bs := 3 }.put c, ?_, ⟨rfl, rfl, rfl, rfl⟩⟩
  change s.loop ('\\'.toUInt8 :: (48 + c / 64) :: (48 + c / 8 % 8) :: (48 + c % 8) :: rest) = _
  rw [loop_cons (by decide) hb hlt, loop_cons (ne_255_of_le (by omega)) e1 hlt,
    loop_cons (ne_255_of_le (by omega)) e2 hlt, loop_cons (ne_255_of_le (by omega)) e3 hi]

lemma loop_quotifyChar (hs : s.bs = 0) (hi : s.i + 1 < tokbufSize) (c : UInt8) (rest : Bytes) :
    ∃ t, s.loop (quotifyChar c ++ rest) = t.loop rest ∧ Stores s t c := by
  unfold quotifyChar
  split_ifs with h1 h2 h3
  · subst h1
    exact ⟨_, loop_cons (by decide) (step_plain hs (by decide) (by decide)) hi, stores_put ..⟩
  · exact loop_octal hs hi c rest
  · refine ⟨{ s with bs := 1 }.put c, ?_, ⟨rfl, rfl, rfl, rfl⟩⟩
    have hb : s.step '\\'.toUInt8 = some { s with bs := 1 } := by simp [step, hs]
    have hc : c ≠ 255 := by rcases h3 with rfl | rfl <;> decide
    change s.loop ('\\'.toUInt8 :: c :: rest) = _
    have he : { s with bs := 1 }.step c = some ({ s with bs := 1 }.put c) := step_escaped rfl h3
    rw [loop_cons (by decide) hb (by dsimp only; omega), loop_cons hc he hi]
  · rw [not_or] at h3
    have hc : c ≠ 255 := by
      rintro rfl
      exact h2 (by decide)
    exact ⟨_, loop_cons hc (step_plain hs h3.2 h3.1) hi, stores_put ..⟩

/-- The whole string: its bytes are in the buffer, from where the scanner started. -/
lemma loop_flatMap (str : Bytes) (hs : s.bs = 0) (hi : s.i + str.length < tokbufSize)
    (rest : Bytes) :
    ∃ t : StringState, s.loop (str.flatMap quotifyChar ++ rest) = t.loop rest ∧ t.bs = 0 ∧
      t.i = s.i + str.length ∧ t.warnings = s.warnings ∧
      (List.range t.i).map t.tokbuf = (List.range s.i).map s.tokbuf ++ str := by
  induction str generalizing s with
  | nil => exact ⟨s, rfl, hs, rfl, rfl, by simp⟩
  | cons c str ih =>
    rw [length_cons] at hi
    obtain ⟨t, ht, hst⟩ := loop_quotifyChar hs (by omega) c (str.flatMap quotifyChar ++ rest)
    obtain ⟨u, hu, hbs, hui, hw, hbuf⟩ := ih hst.bs (by rw [hst.i]; omega)
    refine ⟨u, ?_, hbs, ?_, hw.trans hst.warnings, ?_⟩
    · rw [flatMap_cons, append_assoc, ht, hu]
    · rw [hui, hst.i, length_cons]
      omega
    · have hpre : (range s.i).map t.tokbuf = (range s.i).map s.tokbuf := by
        refine map_congr_left fun k hk => ?_
        rw [hst.tokbuf, Function.update_of_ne (Nat.ne_of_lt (mem_range.mp hk))]
      rw [hbuf, hst.i, range_succ, map_append, hpre, hst.tokbuf]
      simp

end StringState

/-- **A quoted string is read back.** What `quotify_buf` writes between double quotes for a string
that fits into the buffer is one string token with the same bytes, without any warning, and nothing
behind it is read. -/
theorem getRawToken_quotifyBuf (str : Bytes) (hlen : str.length < tokbufSize) (p : Parse)
    (tail : Bytes)
    (hp : p.rest = quotifyBuf str (some '"'.toUInt8) ++ tail) (fuel : ℕ) :
    ∃ q, getRawToken (fuel + 1) p = some (.string str, q) ∧ q.rest = tail ∧
      q.warnings = p.warnings ∧ q.token = p.token := by
  have hrest : p.rest = '"'.toUInt8 :: (str.flatMap quotifyChar ++ '"'.toUInt8 :: tail) := by
    rw [hp, quotifyBuf]
    simp
  obtain ⟨t, ht, hbs, hi, hw, hbuf⟩ :=
    StringState.loop_flatMap (s := { tokbuf := p.tokbuf }) str rfl
    (by simpa using hlen) ('"'.toUInt8 :: tail)
  have hend : t.loop ('"'.toUInt8 :: tail) = (t, tail) := by
    have hq : t.step '"'.toUInt8 = none := by
      simp only [StringState.step, hbs]
      rfl
    rw [StringState.loop, if_neg (by decide), hq]
  have hlt : ¬ t.i = tokbufSize := by
    rw [hi]
    dsimp only
    omega
  have hstr : (range t.i).map t.tokbuf = str := by simpa using hbuf
  have hread : readString { p with rest := str.flatMap quotifyChar ++ '"'.toUInt8 :: tail } =
      (.string str, { p with
        rest := tail, tokbuf := Function.update t.tokbuf t.i 0, warnings := p.warnings }) := by
    simp [readString, ht, hend, hlt, hstr, hw]
  refine ⟨{ p with rest := tail, tokbuf := Function.update t.tokbuf t.i 0 }, ?_, rfl, rfl, rfl⟩
  rw [getRawToken, hrest]
  change some (readString _) = _
  rw [hread]

/-- A NUL before a digit, a quote, a backslash and a byte that is not ASCII. -/
theorem getRawToken_quotifyBuf_sample :
    let str : Bytes := [0, '1'.toUInt8, '"'.toUInt8, '\\'.toUInt8, 200, 255]
    ∃ q, getRawToken 1 { rest := quotifyBuf str (some '"'.toUInt8) ++ [';'.toUInt8] } =
      some (.string str, q) ∧ q.rest = [';'.toUInt8] := by
  intro str
  obtain ⟨q, h, hr, -⟩ := getRawToken_quotifyBuf str (by decide)
    { rest := quotifyBuf str (some '"'.toUInt8) ++ [';'.toUInt8] } [';'.toUInt8] rfl 0
  exact ⟨q, h, hr⟩

end IscDhcp.Conflex
