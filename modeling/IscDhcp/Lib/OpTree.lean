import Mathlib.Data.List.Basic
import Mathlib.Data.Nat.Basic

/-!
Expressions with binary operators that bind more or less tightly.

A sequence of operands with operators between them has exactly one tree in which operators of
larger value are below operators of smaller value and those of equal value group from left to
right. The tree is built by pushing one operator and operand after the other.
-/

namespace IscDhcp.Lib

open List

/-- A tree of binary operators over operands. -/
inductive OpTree (O α : Type*)
  | leaf (a : α)
  | node (op : O) (l r : OpTree O α)
  deriving DecidableEq, Repr

namespace OpTree

variable {O α : Type*}

def first : OpTree O α → α
  | leaf a => a
  | node _ l _ => l.first

/-- The operators with their right operands, from left to right. -/
def rest : OpTree O α → List (O × α)
  | leaf _ => []
  | node op l r => l.rest ++ (op, r.first) :: r.rest

def root : OpTree O α → Option O
  | leaf _ => none
  | node op _ _ => some op

def ops (t : OpTree O α) : List O := t.rest.map Prod.fst

@[simp] lemma ops_leaf (a : α) : (leaf a : OpTree O α).ops = [] := rfl
@[simp] lemma ops_node (op : O) (l r : OpTree O α) : (node op l r).ops = l.ops ++ op :: r.ops := by
  simp [ops, rest]

variable (val : O → ℕ)

/-- Larger values bind tighter, and equal values group from left to right. -/
def Grouped : OpTree O α → Prop
  | leaf _ => True
  | node op l r => l.Grouped ∧ r.Grouped ∧ (∀ o ∈ l.root, val op ≤ val o) ∧ ∀ o ∈ r.root,
      val op < val o

lemma grouped_leaf (a : α) : (leaf a : OpTree O α).Grouped val := trivial

def push : OpTree O α → O → α → OpTree O α
  | leaf b, op, a => node op (leaf b) (leaf a)
  | node o l r, op, a =>
    if val o < val op then node o l (r.push op a) else node op (node o l r) (leaf a)

def treeOf (a : α) (l : List (O × α)) : OpTree O α :=
  l.foldl (fun t x => t.push val x.1 x.2) (leaf a)

variable {val} {t u : OpTree O α}

lemma Grouped.root_le (h : t.Grouped val) {op : O} (ht : t.root = some op) :
    ∀ o ∈ t.ops, val op ≤ val o := by
  induction t generalizing op with
  | leaf a => cases ht
  | node op' l r ihl ihr =>
    obtain ⟨hl, hr, hlo, hro⟩ := h
    cases ht
    intro o ho
    rw [ops_node, mem_append, mem_cons] at ho
    rcases ho with ho | rfl | ho
    · cases hlr : l.root with
      | none => cases l with
        | leaf => simp at ho
        | node => cases hlr
      | some o' => exact le_trans (hlo o' hlr) (ihl hl hlr o ho)
    · exact le_rfl
    · cases hrr : r.root with
      | none => cases r with
        | leaf => simp at ho
        | node => cases hrr
      | some o' => exact le_trans (le_of_lt (hro o' hrr)) (ihr hr hrr o ho)

lemma Grouped.forall_ops_iff (h : t.Grouped val) {P : ℕ → Prop} (hP : ∀ m n, m ≤ n → P m → P n) :
    (∀ o ∈ t.root, P (val o)) ↔ ∀ o ∈ t.ops, P (val o) := by
  cases t with
  | leaf a => simp [root]
  | node op l r =>
    constructor
    · exact fun hr o ho => hP _ _ (h.root_le rfl o ho) (hr op rfl)
    · intro ha o ho
      cases ho
      exact ha op (by simp)

lemma grouped_node_iff {op : O} {l r : OpTree O α} :
    (node op l r).Grouped val ↔ l.Grouped val ∧ r.Grouped val ∧ (∀ o ∈ l.ops, val op ≤ val o) ∧
      ∀ o ∈ r.ops, val op < val o := by
  rw [Grouped]
  refine and_congr_right fun hl => and_congr_right fun hr => and_congr ?_ ?_
  · exact hl.forall_ops_iff fun m n hmn hm => le_trans hm hmn
  · exact hr.forall_ops_iff fun m n hmn hm => lt_of_lt_of_le hm hmn

/-- Of two places of one operator each, the one in the grouped tree is the last least one. -/
lemma split_unique {l1 l2 r1 r2 : List (O × α)} {x1 x2 : O × α}
    (h : l1 ++ x1 :: r1 = l2 ++ x2 :: r2) (hr : ∀ x ∈ r1, val x1.1 < val x.1)
    (hl : ∀ x ∈ l2, val x2.1 ≤ val x.1) : l2.length ≤ l1.length := by
  by_contra hlt
  -- otherwise each of the two operators lies beyond the other
  obtain ⟨m, rfl⟩ : ∃ m, l2 = l1 ++ x1 :: m := by
    rcases append_eq_append_iff.mp h with ⟨m, hm, hm'⟩ | ⟨m, hm, hm'⟩
    · cases m with
      | nil => simp [hm] at hlt
      | cons y m =>
        rw [cons_append, cons.injEq] at hm'
        exact ⟨m, by rw [hm, ← hm'.1]⟩
    · rw [hm] at hlt
      simp at hlt
  rw [append_assoc, cons_append, append_cancel_left_eq, cons.injEq] at h
  have h1 := hr x2 (by rw [h.2]; simp)
  have h2 := hl x1 (by simp)
  omega

/-- There is at most one grouped tree of a sequence. -/
theorem Grouped.unique (ht : t.Grouped val) (hu : u.Grouped val) (hf : t.first = u.first)
    (hr : t.rest = u.rest) : t = u := by
  induction t generalizing u with
  | leaf a =>
    cases u with
    | leaf b => rw [show a = b from hf]
    | node op l r => simp [rest] at hr
  | node op l r ihl ihr =>
    cases u with
    | leaf b => simp [rest] at hr
    | node op' l' r' =>
      obtain ⟨gl, gr, hl, hlt⟩ := grouped_node_iff.mp ht
      obtain ⟨gl', gr', hl', hlt'⟩ := grouped_node_iff.mp hu
      have mem {t : OpTree O α} {x : O × α} (hx : x ∈ t.rest) : x.1 ∈ t.ops :=
        mem_map_of_mem hx
      have hlen : l.rest.length = l'.rest.length := le_antisymm
        (split_unique hr.symm (fun x hx => hlt' _ (mem hx)) fun x hx => hl _ (mem hx))
        (split_unique hr (fun x hx => hlt _ (mem hx)) fun x hx => hl' _ (mem hx))
      obtain ⟨h1, h2⟩ := append_inj hr hlen
      rw [cons.injEq, Prod.mk.injEq] at h2
      obtain ⟨⟨rfl, hfr⟩, hrr⟩ := h2
      rw [ihl gl gl' hf h1, ihr gr gr' hfr hrr]

/-! ### Pushing -/

lemma first_push (t : OpTree O α) (op : O) (a : α) : (t.push val op a).first = t.first := by
  cases t with
  | leaf b => rfl
  | node o l r =>
    rw [push]
    split_ifs <;> rfl

lemma rest_push (t : OpTree O α) (op : O) (a : α) : (t.push val op a).rest =
    t.rest ++ [(op, a)] := by
  induction t with
  | leaf b => rfl
  | node o l r _ ihr =>
    rw [push]
    split_ifs
    · simp [rest, ihr, first_push]
    · simp [rest, first]

lemma ops_push (t : OpTree O α) (op : O) (a : α) : (t.push val op a).ops = t.ops ++ [op] := by
  simp [ops, rest_push]

lemma Grouped.push (h : t.Grouped val) (op : O) (a : α) : (t.push val op a).Grouped val := by
  induction t with
  | leaf b => exact ⟨trivial, trivial, nofun, nofun⟩
  | node o l r _ ihr =>
    rw [OpTree.push]
    split_ifs with ho
    · obtain ⟨hl, hr, hle, hlt⟩ := grouped_node_iff.mp h
      refine grouped_node_iff.mpr ⟨hl, ihr hr, hle, fun x hx => ?_⟩
      rw [ops_push, mem_append, mem_singleton] at hx
      rcases hx with hx | rfl
      exacts [hlt x hx, ho]
    · refine ⟨h, trivial, fun x hx => ?_, nofun⟩
      rw [← Option.some.inj hx]
      exact not_lt.mp ho

lemma treeOf_spec (a : α) (l : List (O × α)) :
    (treeOf val a l).Grouped val ∧ (treeOf val a l).first = a ∧ (treeOf val a l).rest = l := by
  have h (l : List (O × α)) (t : OpTree O α) (ht : t.Grouped val) :
      (l.foldl (fun t x => t.push val x.1 x.2) t).Grouped val ∧
        (l.foldl (fun t x => t.push val x.1 x.2) t).first = t.first ∧
        (l.foldl (fun t x => t.push val x.1 x.2) t).rest = t.rest ++ l := by
    induction l generalizing t with
    | nil => exact ⟨ht, rfl, (append_nil _).symm⟩
    | cons x l ih =>
      obtain ⟨h1, h2, h3⟩ := ih _ (ht.push x.1 x.2)
      refine ⟨h1, h2.trans (first_push ..), ?_⟩
      rw [foldl_cons, h3, rest_push, append_assoc, singleton_append]
  exact h l (leaf a) trivial

/-- The grouped tree of a sequence is `treeOf` of it. -/
theorem eq_treeOf_iff {a : α} {l : List (O × α)} (hf : t.first = a) (hr : t.rest = l) :
    t = treeOf val a l ↔ t.Grouped val := by
  obtain ⟨h1, h2, h3⟩ := @treeOf_spec O α val a l
  constructor
  · rintro rfl
    exact h1
  · exact fun ht => ht.unique h1 (hf.trans h2.symm) (hr.trans h3.symm)

end OpTree

end IscDhcp.Lib
