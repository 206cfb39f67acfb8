import IscDhcp.Basic
import Mathlib.Data.List.Nodup
import Mathlib.Data.List.TakeWhile

/-!
The statements of nested scopes (`execute_statements_in_scope` in `execute.c`) and the options they
set (`set_option` in `options.c`). A group is followed by the groups around it.
-/

namespace IscDhcp.Scope

open List

variable {γ σ : Type}

def executeStatementsInScope [DecidableEq γ] (execute : γ → σ → σ) (limiting : List γ) :
    List γ → σ → σ
  | [], s => s
  | g :: next, s =>
    if g ∈ limiting then s else execute g (executeStatementsInScope execute limiting next s)

inductive StatementOp
  | supersede | default | append | prepend
  deriving DecidableEq, Repr

structure Statement where
  op : StatementOp
  code : ℕ
  data : Bytes
  deriving DecidableEq, Repr

abbrev OptionState := ℕ → Option Bytes

/-- `set_option` with constant data; the value of an option stands for its expression. -/
def setOption (options : OptionState) (st : Statement) : OptionState :=
  Function.update options st.code <| some <|
    match st.op, options st.code with
    | .default, some old => old
    | .append, some old => old ++ st.data
    | .prepend, some old => st.data ++ old
    | _, _ => st.data

def executeStatements (statements : γ → List Statement) (g : γ) (options : OptionState) :
    OptionState :=
  (statements g).foldl setOption options

/-- The list of the groups from its first one on. -/
def Links (next : γ → Option γ) : List γ → Prop
  | [] => True
  | g :: t => next g = t.head? ∧ Links next t

/-- What a group supersedes an option with. -/
def superseded (statements : γ → List Statement) (code : ℕ) (g : γ) : Option Bytes :=
  ((statements g).reverse.find? (·.code = code)).map (·.data)

lemma executeStatementsInScope_eq [DecidableEq γ] (execute : γ → σ → σ) (limiting chain : List γ)
    (s : σ) : executeStatementsInScope execute limiting chain s =
      (chain.takeWhile (· ∉ limiting)).foldr execute s := by
  induction chain with
  | nil => rfl
  | cons g next ih =>
    by_cases hg : g ∈ limiting <;> simp [executeStatementsInScope, hg, ih]

section Links

variable {next : γ → Option γ} {s t : List γ} {g : γ}

lemma Links.of_append (h : Links next (s ++ t)) : Links next t := by
  induction s with
  | nil => exact h
  | cons a s ih => exact ih h.2

lemma Links.unique (hs : Links next (g :: s)) (ht : Links next (g :: t)) : s = t := by
  induction s generalizing g t with
  | nil => cases t <;> simp_all [Links]
  | cons a s ih =>
    cases t with
    | nil => simp_all [Links]
    | cons b t =>
      obtain rfl : a = b := by simpa using hs.1.symm.trans ht.1
      rw [ih hs.2 ht.2]

lemma Links.nodup (h : Links next s) : s.Nodup := by
  induction s with
  | nil => exact nodup_nil
  | cons g s ih =>
    refine nodup_cons.mpr ⟨fun hg => ?_, ih h.2⟩
    obtain ⟨u, v, huv⟩ := append_of_mem hg
    have hv : s = v := h.unique (Links.of_append (s := u) (huv ▸ h.2))
    have := congrArg length huv
    simp [hv] at this
    omega

/-- From a common group on, two chains are the same. -/
lemma Links.mem_of_dropped [DecidableEq γ] (hs : Links next s) (ht : Links next t) (hg : g ∈ t)
    (hn : g ∉ t.takeWhile (· ∉ s)) : g ∈ s := by
  induction t with
  | nil => cases hg
  | cons a t ih =>
    by_cases ha : a ∈ s
    · obtain ⟨u, v, rfl⟩ := append_of_mem ha
      rw [ht.unique hs.of_append] at hg
      exact mem_append_right _ hg
    · rw [takeWhile_cons_of_pos (by simpa using ha), mem_cons, not_or] at hn
      exact ih ht.2 ((mem_cons.mp hg).resolve_left hn.1) hn.2

end Links

variable {statements : γ → List Statement} {code : ℕ}

lemma executeStatements_code {g : γ}
    (h : ∀ st ∈ statements g, st.code = code → st.op = .supersede) (options : OptionState) :
    executeStatements statements g options code =
      (superseded statements code g).or (options code) := by
  unfold executeStatements superseded
  generalize statements g = sts at h
  induction sts generalizing options with
  | nil => rfl
  | cons st sts ih =>
    rw [foldl_cons, ih _ fun x hx => h x (mem_cons_of_mem _ hx), reverse_cons, find?_append]
    by_cases hc : st.code = code
    · have hop := h st mem_cons_self hc
      cases sts.reverse.find? (·.code = code) <;> simp [setOption, hc, hop]
    · cases sts.reverse.find? (·.code = code) <;>
        simp [setOption, hc, Function.update_of_ne (Ne.symm hc)]

lemma foldr_executeStatements {groups : List γ}
    (h : ∀ g ∈ groups, ∀ st ∈ statements g, st.code = code → st.op = .supersede)
    (options : OptionState) : groups.foldr (executeStatements statements) options code =
      (groups.findSome? (superseded statements code)).or (options code) := by
  induction groups with
  | nil => rfl
  | cons g groups ih =>
    rw [foldr_cons, executeStatements_code (h g mem_cons_self),
      ih fun x hx => h x (mem_cons_of_mem _ hx), findSome?_cons]
    cases superseded statements code g <;> rfl

/-- **Scopes**: the groups of a chain are executed from the outermost one inwards, up to those of
the limiting chain. A host's chain after the subnet's gives each group of both once, and the
innermost group that supersedes an option wins. -/
theorem scopes_executed_once [DecidableEq γ] (next : γ → Option γ) (execute : γ → σ → σ) (s : σ)
    (statements : γ → List Statement) (options : OptionState) (subnet host limiting : List γ)
    (hs : Links next subnet) (hh : Links next host) :
    host.Nodup ∧ executeStatementsInScope execute limiting host s =
      (host.takeWhile (· ∉ limiting)).foldr execute s ∧
    let groups := host.takeWhile (· ∉ subnet) ++ subnet
    groups.Nodup ∧ (∀ g, g ∈ groups ↔ g ∈ subnet ∨ g ∈ host) ∧
      executeStatementsInScope execute subnet host
        (executeStatementsInScope execute [] subnet s) = groups.foldr execute s ∧
      ∀ code, (∀ g ∈ groups, ∀ st ∈ statements g, st.code = code → st.op = .supersede) →
        groups.foldr (executeStatements statements) options code =
          (groups.findSome? (superseded statements code)).or (options code) := by
  refine ⟨hh.nodup, executeStatementsInScope_eq .., ?_, fun g => ⟨fun h => ?_, fun h => ?_⟩, ?_,
    fun code h => foldr_executeStatements h options⟩
  · refine (hh.nodup.sublist (takeWhile_sublist _)).append hs.nodup fun g hg hg' => ?_
    exact absurd hg' (by simpa using (mem_takeWhile_imp hg))
  · exact (mem_append.mp h).elim (fun h => .inr ((takeWhile_sublist _).subset h)) .inl
  · obtain h | h := h
    · exact mem_append_right _ h
    · by_contra hn
      rw [mem_append, not_or] at hn
      exact hn.2 (hs.mem_of_dropped hh h hn.1)
  · rw [executeStatementsInScope_eq, executeStatementsInScope_eq, foldr_append,
      takeWhile_eq_self_iff.mpr (by simp)]

theorem scopes_executed_once_sample :
    executeStatementsInScope (fun g s => s ++ [g]) [] [1, 2, 3] [] = [3, 2, 1] :=
  (scopes_executed_once (fun g => [(1, 2), (2, 3), (4, 3)].lookup g) (fun g s => s ++ [g]) []
    (fun _ => []) (fun _ => none) [4, 3] [1, 2, 3] [] ⟨rfl, rfl, trivial⟩
    ⟨rfl, rfl, rfl, trivial⟩).2.1

end IscDhcp.Scope
