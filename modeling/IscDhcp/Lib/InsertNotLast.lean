import IscDhcp.Basic
import Mathlib.Data.List.Basic

/-!
Lists in which an element is inserted in front of the first one it is inside of, but for the last
one, or else at the end.
-/

namespace IscDhcp.Lib

open List

variable {α : Type}

/-- The list with `a` in front of the first element that satisfies `p`, the last element left
out; else at the end. -/
def insertNotLast (p : α → Bool) (a : α) : List α → List α
  | [] => [a]
  | [t] => [t, a]
  | t :: u :: l => if p t then a :: t :: u :: l else t :: insertNotLast p a (u :: l)

lemma insertNotLast_perm (p : α → Bool) (a : α) (l : List α) :
    (insertNotLast p a l).Perm (a :: l) := by
  fun_induction insertNotLast p a l with
  | case1 => exact .refl _
  | case2 t => exact .swap a t []
  | case3 t u l ht => exact .refl _
  | case4 t u l ht ih => exact (ih.cons t).trans (.swap a t _)

variable [DecidableEq α] {inner : α → α → Bool} {a m : α} {l : List α}

/-- An element that `m` is inside of comes before `m`. -/
def behind (inner : α → α → Bool) (m : α) : List α → Bool
  | [] => false
  | t :: l => if t = m then false else inner m t || behind inner m l

lemma behind_insertNotLast (htrans : ∀ t ∈ l, inner m a → inner a t → inner m t)
    (hasymm : inner m a → ¬ inner a m) (hne : a ≠ m) (hm : m ∈ l) :
    behind inner m (insertNotLast (inner a) a l) = behind inner m l := by
  fun_induction insertNotLast (inner a) a l with
  | case1 => cases hm
  | case2 t => simp [behind, mem_singleton.mp hm]
  | case3 t u l ht =>
    rw [behind, if_neg hne]
    cases hma : inner m a with
    | false => rfl
    | true =>
      have htm : t ≠ m := fun h => hasymm hma (h ▸ ht)
      simp [behind, htm, htrans t mem_cons_self hma ht]
  | case4 t u l ht ih =>
    rw [behind, behind]
    split_ifs with htm
    · rfl
    · rw [ih (fun v hv => htrans v (mem_cons_of_mem t hv))
        ((mem_cons.mp hm).resolve_left (Ne.symm htm))]

lemma behind_self_iff (ha : a ∉ l) : behind inner a (insertNotLast (inner a) a l) ↔
    (∃ t, l.getLast? = some t ∧ inner a t) ∧ ∀ u ∈ l.dropLast, ¬ inner a u := by
  fun_induction insertNotLast (inner a) a l with
  | case1 => simp [behind]
  | case2 t =>
    have hne : t ≠ a := fun h => ha (by simp [h])
    simp [behind, hne]
  | case3 t u l ht => simp [behind, ht]
  | case4 t u l ht ih =>
    rw [mem_cons, not_or] at ha
    rw [behind, if_neg (Ne.symm ha.1), Bool.eq_false_iff.mpr ht, Bool.false_or, ih ha.2]
    simp [ht]

/-- `m` is the first of some elements, which are those that it is inside of. -/
lemma find?_eq_some_iff_behind {p : α → Bool} (hm : m ∈ l) (hp : p m)
    (h : ∀ t ∈ l, t ≠ m → p t = inner m t) : l.find? p = some m ↔ behind inner m l = false := by
  induction l with
  | nil => cases hm
  | cons t l ih =>
    rw [behind, find?_cons]
    split_ifs with htm
    · simp [htm, hp]
    · rw [h t mem_cons_self htm]
      cases inner m t with
      | true => simp [htm]
      | false =>
        have hm' := (mem_cons.mp hm).resolve_left (Ne.symm htm)
        simpa using ih hm' fun u hu => h u (mem_cons_of_mem t hu)

end IscDhcp.Lib
