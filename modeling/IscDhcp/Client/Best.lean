import IscDhcp.Client.Outcome
import Mathlib.Algebra.Order.BigOperators.Group.List
import Mathlib.Algebra.Order.Ring.Nat
import Mathlib.Data.Finset.Max
import Mathlib.Data.List.Lex
import Mathlib.Data.List.Nodup
import Mathlib.Data.Prod.Lex

/-!
Which of the advertised leases the client asks for first (`dhc6_best_lease`). Leases are compared
in pairs; one without an address is not to have a higher preference than all that have one.
-/

namespace IscDhcp.Client6

open List

/-- The place of a lease in the order, the best one being the greatest. -/
abbrev Rank := Bool ×ₗ ℕ ×ₗ ℕ ×ₗ ℕᵒᵈ ×ₗ (List ℕ)ᵒᵈ

def rank (cfg : Config) (l : Lease) : Rank :=
  toLex (decide (scoreMin ≤ score cfg l), toLex (l.pref, toLex (score cfg l,
    toLex (.toDual l.serverId.length, .toDual (l.serverId.map UInt8.toNat)))))

/-- No lease below `SCORE_MIN` has a higher preference than all those that are not. -/
def Consistent (cfg : Config) (ls : List Lease) : Prop :=
  ∀ a ∈ ls, score cfg a < scoreMin → ∀ g ∈ ls, scoreMin ≤ score cfg g →
    ∃ b ∈ ls, scoreMin ≤ score cfg b ∧ a.pref ≤ b.pref

variable {cfg : Config} {ls ls' : List Lease} {l best : Lease}

end IscDhcp.Client6
