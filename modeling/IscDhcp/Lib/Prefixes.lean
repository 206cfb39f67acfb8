import Mathlib.Data.List.Infix

/-!
A property of every state along a list of operations, and the condition under which one
operation keeps it.
-/

namespace IscDhcp.Lib.Prefixes

variable {ω : Type*} {P Q : List ω → Prop} {C : List ω → ω → Prop} {l : List ω} {a : ω}

lemma forall_concat :
    (∀ pre, pre <+: l ++ [a] → P pre) ↔ (∀ pre, pre <+: l → P pre) ∧ P (l ++ [a]) := by
  simp [List.prefix_concat_iff, and_comm]

lemma forall_step_concat : (∀ pre op, pre ++ [op] <+: l ++ [a] → C pre op) ↔
    (∀ pre op, pre ++ [op] <+: l → C pre op) ∧ C l a := by
  simp only [List.prefix_concat_iff, or_imp, forall_and, List.append_singleton_inj, and_imp]
  refine and_comm.trans (and_congr_right fun _ => ⟨fun h => h l a rfl rfl, ?_⟩)
  rintro h pre op rfl rfl
  exact h

/-- `P` holds after every prefix iff each operation meets `C` where it is done, when `C` is what
keeps an invariant `Q`, and what it takes for `P` to hold again. -/
theorem forall_iff (hPQ : ∀ l, Q l → P l) (h0 : Q []) (hkeep : ∀ l a, Q l → C l a → Q (l ++ [a]))
    (hlose : ∀ l a, Q l → P (l ++ [a]) → C l a) (l : List ω) :
    (∀ pre, pre <+: l → P pre) ↔ ∀ pre op, pre ++ [op] <+: l → C pre op := by
  suffices h : ((∀ pre op, pre ++ [op] <+: l → C pre op) → Q l) ∧
      ((∀ pre, pre <+: l → P pre) ↔ ∀ pre op, pre ++ [op] <+: l → C pre op) from h.2
  induction l using List.reverseRecOn with
  | nil =>
    have hP := hPQ [] h0
    simp [h0, hP]
  | append_singleton l a ih =>
    rw [forall_concat, forall_step_concat, ih.2]
    refine ⟨fun h => hkeep l a (ih.1 h.1) h.2, and_congr_right fun h => ?_⟩
    exact ⟨hlose l a (ih.1 h), fun hc => hPQ _ (hkeep l a (ih.1 h) hc)⟩

end IscDhcp.Lib.Prefixes
