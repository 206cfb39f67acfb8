import Mathlib.Data.Bool.Basic

/-!
Boolean expressions (`evaluate_boolean_expression` in `tree.c`) and the choices that rest on them.

The operators `and`, `or` and `not` are looked at; `sub` stands for the evaluation of everything
else, and null is `none`.
-/

namespace IscDhcp.Tree

inductive BoolExpr (α : Type)
  | leaf (a : α)
  | and (l r : BoolExpr α)
  | or (l r : BoolExpr α)
  | not (e : BoolExpr α)
  deriving DecidableEq, Repr

namespace BoolExpr

variable {α : Type} (sub : α → Option Bool) (v : α → Bool)

def evaluate : BoolExpr α → Option Bool
  | .leaf a => sub a
  | .and l r =>
    match l.evaluate with
    | some true => r.evaluate
    -- the right side is not evaluated and counts as null, and so does the whole
    | _ => none
  | .or l r =>
    match l.evaluate with
    | some true => some true
    | some false => some (r.evaluate.getD false)
    | none => r.evaluate
  | .not e => e.evaluate.map (!·)

/-- `evaluate_boolean_expression_result`, by which `check_collection` finds the members of a
class. -/
def result : Option (BoolExpr α) → Bool
  | none => false
  | some e =>
    match e.evaluate sub with
    | none => false
    | some b => b

/-- The value of a formula in classical logic. -/
def value : BoolExpr α → Bool
  | .leaf a => v a
  | .and l r => l.value && r.value
  | .or l r => l.value || r.value
  | .not e => !e.value

/-- What a formula is found to be by the truth values of its leaves: an `and` is found true or
false behind a left side that is found true only, and an `or` leaves out a side that is neither. -/
def Found : BoolExpr α → Bool → Prop
  | .leaf a, b => v a = b
  | .and l r, b => l.Found true ∧ r.Found b
  | .or l r, true => l.Found true ∨ r.Found true
  | .or l r, false => (l.Found false ∧ ¬ r.Found true) ∨ (r.Found false ∧ ¬ l.Found true)
  | .not e, b => e.Found (!b)

variable {sub v}

end BoolExpr

end IscDhcp.Tree
