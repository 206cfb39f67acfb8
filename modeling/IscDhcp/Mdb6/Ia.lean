import IscDhcp.Lib.Prefixes
import IscDhcp.Mdb6.Pool

/-!
Identity associations (`mdb6.c`): the array of their leases, and when two of them are equal.

A lease that is removed from the middle of the array leaves the last pointer also in the slot
behind the others, and a reference is only stored into a null pointer. So the lease that is added
next is not stored, and the last one is there twice.
-/

namespace IscDhcp.Mdb6

open List

/-! ### The array of leases -/

/-- `iasubopt`, `num_iasubopt` and `max_iasubopt` of a `struct ia_xx`. -/
structure IaArray (α : Type) where
  iasubopt : ℕ → Option α := fun _ => none
  num : ℕ := 0
  max : ℕ := 0

namespace IaArray

variable {α : Type} [DecidableEq α] (a : IaArray α)

/-- Memory is zero when it is allocated. -/
def grow : IaArray α :=
  if a.max ≤ a.num then
    { a with max := a.max + 4, iasubopt := fun k => if k < a.num then a.iasubopt k else none }
  else a

def iaAddIasubopt (x : α) : IaArray α :=
  let a := a.grow
  { a with
    iasubopt := Function.update a.iasubopt a.num (reference (a.iasubopt a.num) x)
    num := a.num + 1 }

/-- The slot is cleared, and the pointers behind it move down one. -/
def removeAt (i : ℕ) : IaArray α :=
  { a with
    iasubopt := fun k => if i ≤ k ∧ k + 1 < a.num then a.iasubopt (k + 1)
      else if k = i then none else a.iasubopt k
    num := a.num - 1 }

/-- The first `num_iasubopt` entries. -/
def entries : List (Option α) := (List.range a.num).map a.iasubopt

/-- Of a lease that is there more than once only one entry is removed. -/
def iaRemoveIasubopt (x : α) : IaArray α :=
  match a.entries.idxOf? (some x) with
  | some i => a.removeAt i
  | none => a

def iaRemoveAllLease : IaArray α :=
  { a with iasubopt := fun k => if k < a.num then none else a.iasubopt k, num := 0 }

end IaArray

inductive IaOp (α : Type)
  | add (x : α)
  | remove (x : α)
  | removeAll
  deriving DecidableEq

namespace IaOp

variable {α : Type} [DecidableEq α]

def apply (a : IaArray α) : IaOp α → IaArray α
  | .add x => a.iaAddIasubopt x
  | .remove x => a.iaRemoveIasubopt x
  | .removeAll => a.iaRemoveAllLease

def run (ops : List (IaOp α)) : IaArray α := ops.foldl apply {}

/-- The leases that are added and not removed. -/
def keep (l : List α) : IaOp α → List α
  | .add x => l ++ [x]
  | .remove x => l.erase x
  | .removeAll => []

def kept (ops : List (IaOp α)) : List α := ops.foldl keep []

/-- A lease is added where there is no pointer behind the others, or one to that very lease, or
no slot. -/
def Clear (a : IaArray α) : IaOp α → Prop
  | .add x => a.max ≤ a.num ∨ a.iasubopt a.num = none ∨ a.iasubopt a.num = some x
  | _ => True

end IaOp

namespace IaArray

variable {α : Type} {a : IaArray α}

lemma entries_add (a : IaArray α) (x : α) : (a.iaAddIasubopt x).entries =
    a.entries ++ [reference (a.grow.iasubopt a.num) x] := by
  have hnum : a.grow.num = a.num := by unfold grow; split_ifs <;> rfl
  have hslot : ∀ k < a.num, a.grow.iasubopt k = a.iasubopt k := by
    intro k hk
    unfold grow
    split_ifs <;> simp [hk]
  simp only [entries, iaAddIasubopt, hnum, range_succ, map_append, map_singleton,
    Function.update_self]
  congr 1
  refine map_congr_left fun k hk => ?_
  have hk := mem_range.mp hk
  rw [Function.update_of_ne hk.ne, hslot k hk]

lemma entries_removeAt {i : ℕ} (hi : i < a.num) : (a.removeAt i).entries =
    a.entries.eraseIdx i := by
  apply ext_getElem
  · simp [removeAt, entries, length_eraseIdx, hi]
  · intro k hk _
    simp only [removeAt, entries, length_map, length_range] at hk
    rw [getElem_eraseIdx]
    simp only [removeAt, entries, getElem_map, getElem_range]
    split_ifs <;> first | rfl | omega

variable [DecidableEq α] {l : List α}

lemma entries_remove (a : IaArray α) (x : α) :
    (a.iaRemoveIasubopt x).entries = a.entries.erase (some x) := by
  rw [iaRemoveIasubopt, erase_eq_eraseIdx]
  cases h : a.entries.idxOf? (some x) with
  | none => rfl
  | some i =>
    have hi := (idxOf?_eq_some_iff.mp h).1
    exact entries_removeAt (by simpa [entries] using hi)

/-- **One call**: the entries stay those that are kept iff the slot is clear. -/
lemma entries_apply (h : a.entries = l.map some) (op : IaOp α) :
    (op.Clear a → (op.apply a).entries = (op.keep l).map some) ∧
      ((op.apply a).entries.Perm ((op.keep l).map some) → op.Clear a) := by
  cases op with
  | add x =>
    simp only [IaOp.apply, IaOp.keep, entries_add, h, map_append, perm_append_left_iff, IaOp.Clear,
      grow]
    split_ifs with hmax
    · simp [hmax]
    · cases a.iasubopt a.num <;> simp [reference, hmax]
  | remove x =>
    simp [IaOp.apply, IaOp.keep, IaOp.Clear, entries_remove, h, map_erase (Option.some_injective α)]
  | removeAll => simp [IaOp.apply, IaOp.keep, IaOp.Clear, entries, iaRemoveAllLease]

end IaArray

/-- **The leases of an identity association**: after each of the calls the entries are the leases
added and not removed iff each lease is added to a clear slot. -/
theorem IaOp.entries_iff {α : Type} [DecidableEq α] (ops : List (IaOp α)) :
    (∀ pre, pre <+: ops → (run pre).entries.Perm ((kept pre).map some)) ↔
      ∀ pre op, pre ++ [op] <+: ops → op.Clear (run pre) := by
  refine Lib.Prefixes.forall_iff (Q := fun pre => (run pre).entries = (kept pre).map some)
    (fun _ h => .of_eq h) rfl (fun pre op h hc => ?_) (fun pre op h hp => ?_) ops
  · simpa [run, kept] using (IaArray.entries_apply h op).1 hc
  · exact (IaArray.entries_apply h op).2 (by simpa [run, kept] using hp)

/-- The first of two leases is removed, and a third one added. -/
theorem IaOp.last_lease_twice :
    (run [.add 1, .add 2, .remove 1, .add 3] : IaArray ℕ).entries = [some 2, some 2] ∧
      kept [.add 1, .add 2, .remove 1, .add 3] = [2, 3] := by
  decide

/-! ### Equal associations -/

namespace State

variable {α β : Type} (s : State α β)

def addr (x : α) : In6Addr := (s.lease x).addr

def plen (x : α) : UInt8 := (s.lease x).plen

/-- The null pointer is read if only the second association is missing. The prefix length of an
entry is compared with that of the entry at the same place, whichever the address is found at. -/
def iaEqual : Option (Ia α) → Option (Ia α) → Option Bool
  | none, b => some b.isNone
  | some _, none => none
  | some a, some b => some <|
    a.iaType = b.iaType && a.iaidDuid = b.iaidDuid &&
      a.iasubopt.length = b.iasubopt.length &&
      (a.iasubopt.zip b.iasubopt).all fun p =>
        b.iasubopt.any fun y => s.plen p.1 = s.plen p.2 && s.addr p.1 = s.addr y

def pairs (a : Ia α) : List (In6Addr × UInt8) := a.iasubopt.map fun x => (s.addr x, s.plen x)

/-- The same type and key, and the same pairs in any order. -/
def SameIa (a b : Ia α) : Prop :=
  a.iaType = b.iaType ∧ a.iaidDuid = b.iaidDuid ∧ ∀ p, p ∈ s.pairs a ↔ p ∈ s.pairs b

def plens (a : Ia α) : List UInt8 := (s.pairs a).map Prod.snd

def addrs (a : Ia α) : List In6Addr := (s.pairs a).map Prod.fst

/-- If the prefix lengths come in one order, then the addresses of the first association are in
the second with their own ones only; if not, the pairs are not the same. -/
def Comparable (a b : Ia α) : Prop :=
  if s.plens a = s.plens b then s.addrs a ⊆ s.addrs b → s.pairs a ⊆ s.pairs b
  else ¬ (s.pairs a).Perm (s.pairs b)

variable {s} {a b : Ia α}

lemma iaEqual_iff : s.iaEqual (some a) (some b) = some true ↔ a.iaType = b.iaType ∧
    a.iaidDuid = b.iaidDuid ∧ s.addrs a ⊆ s.addrs b ∧ s.plens a = s.plens b := by
  have hplens : s.plens a = s.plens b ↔
      a.iasubopt.Forall₂ (fun x y => s.plen x = s.plen y) b.iasubopt := by
    rw [← forall₂_eq_eq_eq]
    simp [plens, pairs]
  have haddrs : s.addrs a ⊆ s.addrs b ↔
      ∀ x ∈ a.iasubopt, ∃ y ∈ b.iasubopt, s.addr y = s.addr x := by
    simp [addrs, pairs, subset_def]
  rw [hplens, haddrs, ← forall₂_and_left, forall₂_iff_zip]
  simp [iaEqual]
  grind

lemma sameIa_iff (ha : (s.pairs a).Nodup) (hb : (s.pairs b).Nodup) : s.SameIa a b ↔
    a.iaType = b.iaType ∧ a.iaidDuid = b.iaidDuid ∧ (s.pairs a).Perm (s.pairs b) := by
  rw [SameIa, perm_ext_iff_of_nodup ha hb]

lemma comparable_iff (ha : (s.pairs a).Nodup) : s.Comparable a b ↔
    (s.addrs a ⊆ s.addrs b ∧ s.plens a = s.plens b ↔ (s.pairs a).Perm (s.pairs b)) := by
  unfold Comparable
  split_ifs with h
  · have hlen : (s.pairs a).length = (s.pairs b).length := by
      simpa [plens] using congrArg length h
    simp only [h, and_true]
    refine ⟨fun hsub => ⟨fun haddr => ?_, fun hp => (hp.map _).subset⟩,
      fun hiff haddr => (hiff.mp haddr).subset⟩
    exact (ha.subperm (hsub haddr)).perm_of_length_le hlen.ge
  · simp [h]

/-- **Equality of identity associations** without repeated entries is right iff the two are
comparable, as they are if all prefix lengths are the same. -/
theorem iaEqual_right_iff (ha : (s.pairs a).Nodup) (hb : (s.pairs b).Nodup) :
    ((s.iaEqual (some a) (some b) = some true ↔ s.SameIa a b) ↔
      (a.iaType = b.iaType → a.iaidDuid = b.iaidDuid → s.Comparable a b)) ∧
    ∀ len, (∀ p ∈ s.pairs a ++ s.pairs b, p.2 = len) →
      (s.iaEqual (some a) (some b) = some true ↔ s.SameIa a b) := by
  have hiff : (s.iaEqual (some a) (some b) = some true ↔ s.SameIa a b) ↔
      (a.iaType = b.iaType → a.iaidDuid = b.iaidDuid → s.Comparable a b) := by
    rw [iaEqual_iff, sameIa_iff ha hb, comparable_iff ha]
    tauto
  refine ⟨hiff, fun len hlen => hiff.mpr fun _ _ => ?_⟩
  have hl : ∀ c, s.pairs c ⊆ s.pairs a ++ s.pairs b →
      s.plens c = replicate (s.pairs c).length len := fun c hc =>
    eq_replicate_iff.mpr ⟨by simp [plens], by
      simpa [plens] using fun n e hp => hlen (e, n) (hc hp)⟩
  have hla := hl a (subset_append_left _ _)
  have hlb := hl b (subset_append_right _ _)
  unfold Comparable
  split_ifs with h
  · intro haddr p hp
    obtain ⟨q, hq, he⟩ := mem_map.mp (haddr (mem_map_of_mem hp))
    have hlq := hlen q (mem_append_right _ hq)
    rwa [← Prod.ext he (hlq.trans (hlen p (mem_append_left _ hp)).symm)]
  · intro hp
    exact h (by rw [hla, hlb, hp.length_eq])

/-- Two addresses, each with two prefix lengths. -/
def fourLeases : State ℕ ℕ where
  lease n := { addr := .replicate 16 (UInt8.ofNat (n % 2)), plen := if n < 2 then 64 else 56 }
  ia _ := {}

/-- Two leases in two orders are not equal, and equal to two other ones. -/
theorem iaEqual_wrong : fourLeases.SameIa { iasubopt := [0, 3] } { iasubopt := [3, 0] } ∧
    fourLeases.iaEqual (some { iasubopt := [0, 3] }) (some { iasubopt := [3, 0] }) = some false ∧
    ¬ fourLeases.SameIa { iasubopt := [0, 3] } { iasubopt := [1, 2] } ∧
    fourLeases.iaEqual (some { iasubopt := [0, 3] }) (some { iasubopt := [1, 2] }) = some true := by
  refine ⟨⟨rfl, rfl, fun p => ?_⟩, by decide, fun h => ?_, by decide⟩
  · exact (show (fourLeases.pairs { iasubopt := [0, 3] }).Perm
      (fourLeases.pairs { iasubopt := [3, 0] }) by decide).mem_iff
  · exact absurd ((h.2.2 (.replicate 16 0, 64)).mp (by decide)) (by decide)

theorem iaEqual_right_iff_reordered :
    fourLeases.iaEqual (some { iasubopt := [0, 1] }) (some { iasubopt := [1, 0] }) = some true ↔
      fourLeases.SameIa { iasubopt := [0, 1] } { iasubopt := [1, 0] } :=
  (iaEqual_right_iff (by decide) (by decide)).2 64 (by decide)

end State

end IscDhcp.Mdb6
