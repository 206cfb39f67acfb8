import Mathlib.Data.Finset.Image

/-!
Dynamic updates of a DNS zone: an update names the records that must or must not be there, and is
applied as a whole if they are as it says.
-/

namespace IscDhcp.Lib.Dns

abbrev Data := List UInt8

inductive RRType
  | a | aaaa | dhcid | txt | other (code : ℕ)
  deriving DecidableEq, Repr

/-- The records at a name. -/
abbrev Node := Finset (RRType × Data)

abbrev Zone (ν : Type*) := ν → Node

def rrset (n : Node) (t : RRType) : Finset Data := (n.filter fun r => r.1 = t).image Prod.snd

inductive Prereq
  | nameNotInUse
  | rrsetAbsent (t : RRType)
  /-- There is a record set of the type, with exactly this record. -/
  | rrsetIs (t : RRType) (d : Data)
  deriving DecidableEq, Repr

def Prereq.Holds (n : Node) : Prereq → Prop
  | nameNotInUse => n = ∅
  | rrsetAbsent t => rrset n t = ∅
  | rrsetIs t d => rrset n t = {d}

instance (n : Node) : (p : Prereq) → Decidable (p.Holds n)
  | .nameNotInUse => inferInstanceAs (Decidable (n = ∅))
  | .rrsetAbsent t => inferInstanceAs (Decidable (rrset n t = ∅))
  | .rrsetIs t d => inferInstanceAs (Decidable (rrset n t = {d}))

inductive Change
  | add (t : RRType) (d : Data)
  | deleteRRset (t : RRType)
  | deleteRR (t : RRType) (d : Data)
  deriving DecidableEq, Repr

def Change.apply (n : Node) : Change → Node
  | add t d => insert (t, d) n
  | deleteRRset t => n.filter fun r => r.1 ≠ t
  | deleteRR t d => n.erase (t, d)

structure Update (ν : Type*) where
  name : ν
  prereqs : List Prereq
  changes : List Change
  deriving DecidableEq, Repr

namespace Update

variable {ν : Type*} [DecidableEq ν]

/-- The records at the name after the changes. -/
def result (u : Update ν) (z : Zone ν) : Node := u.changes.foldl Change.apply (z u.name)

def Applies (u : Update ν) (z : Zone ν) : Prop := ∀ p ∈ u.prereqs, p.Holds (z u.name)

instance (u : Update ν) (z : Zone ν) : Decidable (u.Applies z) :=
  inferInstanceAs (Decidable (∀ p ∈ u.prereqs, _))

def apply (u : Update ν) (z : Zone ν) : Zone ν :=
  if u.Applies z then Function.update z u.name (u.result z) else z

lemma apply_of_applies {u : Update ν} {z : Zone ν} (h : u.Applies z) :
    u.apply z = Function.update z u.name (u.result z) := if_pos h

lemma apply_of_not_applies {u : Update ν} {z : Zone ν} (h : ¬ u.Applies z) : u.apply z = z :=
  if_neg h

end Update

variable {n : Node} {t t' : RRType} {d d' : Data}

lemma mem_rrset : d ∈ rrset n t ↔ (t, d) ∈ n := by
  constructor
  · intro h
    obtain ⟨⟨t', d'⟩, hr, rfl⟩ := Finset.mem_image.mp h
    obtain ⟨hm, rfl⟩ := Finset.mem_filter.mp hr
    exact hm
  · intro h
    exact Finset.mem_image.mpr ⟨(t, d), Finset.mem_filter.mpr ⟨h, rfl⟩, rfl⟩

@[simp] lemma rrset_empty : rrset ∅ t = ∅ := rfl

lemma rrset_add_of_ne (h : t' ≠ t) : rrset (Change.apply n (.add t d)) t' = rrset n t' := by
  ext x
  simp [mem_rrset, Change.apply, h]

lemma rrset_add_self : rrset (Change.apply n (.add t d)) t = insert d (rrset n t) := by
  ext x
  simp [mem_rrset, Change.apply]

lemma rrset_deleteRRset_of_ne (h : t' ≠ t) :
    rrset (Change.apply n (.deleteRRset t)) t' = rrset n t' := by
  ext x
  simp [mem_rrset, Change.apply, h]

lemma rrset_deleteRRset_self : rrset (Change.apply n (.deleteRRset t)) t = ∅ := by
  ext x
  simp [mem_rrset, Change.apply]

lemma rrset_deleteRR_of_ne (h : t' ≠ t) :
    rrset (Change.apply n (.deleteRR t d)) t' = rrset n t' := by
  ext x
  simp [mem_rrset, Change.apply, h]

lemma rrset_deleteRR_self : rrset (Change.apply n (.deleteRR t d)) t = (rrset n t).erase d := by
  ext x
  simp [mem_rrset, Change.apply]

end IscDhcp.Lib.Dns
