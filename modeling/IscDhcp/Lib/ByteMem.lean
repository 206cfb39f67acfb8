import Mathlib.Tactic.Common

/-!
A memory of bytes, with strings that are read from it and written to it. Two memories that agree
up to some address read alike up to there.
-/

abbrev ByteMem := ℕ → UInt8

namespace ByteMem

def load (mem : ByteMem) (a n : ℕ) : List UInt8 := (List.range n).map fun i => mem (a + i)

def store (mem : ByteMem) (a : ℕ) (l : List UInt8) : ByteMem :=
  fun i => if a ≤ i ∧ i < a + l.length then l.getD (i - a) 0 else mem i

def ofList (l : List UInt8) : ByteMem := fun i => l.getD i 0

/-- The two memories are alike below `n`. -/
def Agree (n : ℕ) (mem mem' : ByteMem) : Prop := ∀ i < n, mem i = mem' i

variable {mem mem' : ByteMem} {a b i n m : ℕ} {l : List UInt8}

@[simp] lemma length_load : (mem.load a n).length = n := by simp [load]

lemma getElem_load (h : i < (mem.load a n).length) : (mem.load a n)[i] = mem (a + i) := by
  simp [load]

lemma store_of_lt (h : i < a) : mem.store a l i = mem i := if_neg (by omega)

lemma store_of_le (h : a + l.length ≤ i) : mem.store a l i = mem i := if_neg (by omega)

lemma store_add (h : i < l.length) : mem.store a l (a + i) = l[i] := by
  rw [store, if_pos (by omega), Nat.add_sub_cancel_left, List.getD, List.getElem?_eq_getElem h]
  rfl

lemma load_congr (h : ∀ i < n, mem (a + i) = mem' (b + i)) : mem.load a n = mem'.load b n := by
  apply List.ext_getElem
  · simp
  · intro i h1 h2
    rw [getElem_load, getElem_load, h i (by simpa using h1)]

lemma Agree.mono (h : Agree n mem mem') (hm : m ≤ n) : Agree m mem mem' :=
  fun i hi => h i (Nat.lt_of_lt_of_le hi hm)

lemma Agree.load (h : Agree n mem mem') (ha : a + m ≤ n) : mem.load a m = mem'.load a m :=
  load_congr fun i hi => h (a + i) (by omega)

lemma Agree.store (h : Agree n mem mem') (a : ℕ) (l : List UInt8) :
    Agree n (mem.store a l) (mem'.store a l) := by
  intro i hi
  unfold ByteMem.store
  rw [h i hi]

lemma Agree.append (h : Agree a mem mem') (l : List UInt8) :
    Agree (a + l.length) (mem.store a l) (mem'.store a l) := by
  intro i hi
  by_cases ha : i < a
  · rw [store_of_lt ha, store_of_lt ha, h i ha]
  · obtain ⟨k, rfl⟩ := Nat.exists_eq_add_of_le (Nat.le_of_not_lt ha)
    have hk : k < l.length := by omega
    rw [store_add hk, store_add hk]

lemma agree_store (ha : n ≤ a) : Agree n mem (mem.store a l) := fun _ hi =>
  (store_of_lt (Nat.lt_of_lt_of_le hi ha)).symm

end ByteMem
