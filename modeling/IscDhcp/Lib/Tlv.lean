import IscDhcp.Lib.BigEndian

/-!
Options with a tag and a length of two bytes each, one after the other in a buffer. The tag zero
ends them.
-/

namespace IscDhcp.Lib.Tlv

open BigEndian List

abbrev Opt := ℕ × List UInt8

/-- One option. The tag and the length are cut to their width. -/
def put (o : Opt) : List UInt8 := toBytes 2 o.1 ++ (toBytes 2 o.2.length ++ o.2)

/-- The options are read until the tag zero or until there is no room for another tag; `none` if
an option is not all there. -/
def parse (b : List UInt8) : Option (List Opt) :=
  if b.length < 2 then some []
  else
    let code := ofBytes (b.take 2)
    if code = 0 then some []
    else if b.length < 4 then none
    else
      let len := ofBytes ((b.drop 2).take 2)
      if b.length < 4 + len then none
      else (parse (b.drop (4 + len))).map (((code, (b.drop 4).take len)) :: ·)
termination_by b.length
decreasing_by simp only [List.length_drop]; omega

/-- An option that can be written and read again. -/
structure Fits (o : Opt) : Prop where
  ne_zero : o.1 ≠ 0
  code : o.1 < 65536
  length : o.2.length < 65536

@[simp] lemma length_put (o : Opt) : (put o).length = 4 + o.2.length := by
  simp only [put, length_append, length_toBytes]
  omega

@[simp] lemma parse_nil : parse [] = some [] := by
  unfold parse
  simp

lemma code_of_parse {b : List UInt8} {os : List Opt} (h : parse b = some os) :
    ∀ o ∈ os, o.1 ≠ 0 ∧ o.1 < 65536 := by
  fun_induction parse b generalizing os with
  | case1 | case2 => cases h; exact nofun
  | case3 | case4 => cases h
  | case5 b _ _ hcode =>
    rename_i ih
    obtain ⟨os, hos, rfl⟩ := Option.map_eq_some_iff.mp h
    intro o ho
    rcases mem_cons.mp ho with rfl | ho
    · exact ⟨hcode, (ofBytes_lt _).trans_le (Nat.pow_le_pow_right (by decide) (length_take_le 2 b))⟩
    · exact ih hos o ho

lemma parse_put_append {o : Opt} (h : Fits o) (rest : List UInt8) :
    parse (put o ++ rest) = (parse rest).map (o :: ·) := by
  obtain ⟨code, data⟩ := o
  have hcode : ofBytes ((put (code, data) ++ rest).take 2) = code := by
    have htake : (put (code, data) ++ rest).take 2 = toBytes 2 code := by
      exact take_left' (length_toBytes 2 code)
    rw [htake, ofBytes_toBytes]
    exact Nat.mod_eq_of_lt h.code
  have hlen : ofBytes (((put (code, data) ++ rest).drop 2).take 2) = data.length := by
    have htake : ((put (code, data) ++ rest).drop 2).take 2 = toBytes 2 data.length := by
      simp only [put, append_assoc]
      rw [drop_left' (length_toBytes 2 code)]
      exact take_left' (length_toBytes 2 _)
    rw [htake, ofBytes_toBytes]
    exact Nat.mod_eq_of_lt h.length
  have hdrop4 : (put (code, data) ++ rest).drop 4 = data ++ rest := by
    have : put (code, data) ++ rest =
        (toBytes 2 code ++ toBytes 2 data.length) ++ (data ++ rest) := by
      simp [put]
    rw [this]
    exact drop_left' (by simp)
  have hlength : (put (code, data) ++ rest).length = 4 + data.length + rest.length := by
    rw [length_append, length_put]
  rw [parse, if_neg (by omega)]
  simp only [hcode]
  rw [if_neg h.ne_zero, if_neg (by omega)]
  simp only [hlen]
  rw [if_neg (by omega), hdrop4, take_left, ← drop_drop, hdrop4, drop_left]

lemma parse_flatMap_put {os : List Opt} (h : ∀ o ∈ os, Fits o) :
    parse (os.flatMap put) = some os := by
  induction os with
  | nil => exact parse_nil
  | cons o os ih =>
    rw [flatMap_cons, parse_put_append (h o (mem_cons_self ..)),
      ih fun o' h' => h o' (mem_cons_of_mem _ h')]
    rfl

end IscDhcp.Lib.Tlv
