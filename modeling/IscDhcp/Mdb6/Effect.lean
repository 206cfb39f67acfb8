import IscDhcp.Mdb6.Pool

/-!
Small facts about the operations of a DHCPv6 pool: what is written to a lease, what is free
among new addresses, and what happens to the identity association of a lease that is forgotten.
-/

namespace IscDhcp.Mdb6.State

variable {α β : Type} [DecidableEq α] [DecidableEq β] {s : State α β}

/-! ### Writing to a lease -/

@[simp] lemma addActive_lease (s : State α β) (d : U64) : (s.addActive d).lease = s.lease := rfl
@[simp] lemma addInactive_lease (s : State α β) (d : ℤ) : (s.addInactive d).lease = s.lease := rfl
@[simp] lemma addAbandoned_lease (s : State α β) (d : U64) :
    (s.addAbandoned d).lease = s.lease := rfl

lemma modify_self (s : State α β) (i : α) (f : Iasubopt β → Iasubopt β) :
    (s.modify i f).lease i = f (s.lease i) := by
  simp [modify]

lemma modify_of_ne (s : State α β) {i x : α} (f : Iasubopt β → Iasubopt β) (hx : x ≠ i) :
    (s.modify i f).lease x = s.lease x := by
  simp [modify, hx]

/-! ### New leases -/

lemma findAddress_free {build : ℕ → Bytes → In6Addr} {n k : ℕ} {ds : Bytes} {a : In6Addr}
    (h : s.findAddress build n k ds = some a) : s.hashLookup a = none := by
  induction n generalizing k ds with
  | zero => cases h
  | succ n ih =>
    rw [findAddress] at h
    split_ifs at h with hok
    · cases h
      simpa using (Bool.and_eq_true_iff.mp hok).2
    · exact ih h

lemma findPrefix_free {build : Bytes → In6Addr} {n : ℕ} {ds : Bytes} {a : In6Addr}
    (h : s.findPrefix build n ds = some a) : s.hashLookup a = none := by
  induction n generalizing ds with
  | zero => cases h
  | succ n ih =>
    rw [findPrefix] at h
    split_ifs at h with hok
    · cases h
      simpa using hok
    · exact ih h

/-! ### Forgotten leases -/

/-- The identity association is never deleted: it would have to be found where it is not. -/
lemma forgetLease_eq (s : State α β) (i : α) : s.forgetLease i = match (s.lease i).ia with
    | none => s
    | some b => s.iaRemoveIasubopt b i := by
  unfold forgetLease
  rcases (s.lease i).ia with _ | b
  · rfl
  · refine if_neg ?_
    rintro ⟨-, hnone, hsome⟩
    simp [hnone] at hsome

end IscDhcp.Mdb6.State
