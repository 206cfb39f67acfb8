import Mathlib.Data.List.Find
import Mathlib.Data.List.Nodup

/-!
Hash tables with chained buckets.

An entry is added at the front of its bucket without looking for an older one of the same
key; a deletion removes the first entry that matches. Both the hash function and the match
made by a deletion are parameters. A table in which no key stands twice, and in which a
deletion matches equal keys only, is a finite map. A table whose hash function respects the match
is the list of all its entries, the latest first.
-/

namespace IscDhcp.Lib

open List

lemma eraseP_eq_filter {α : Type*} {f : α → Bool} {l : List α} (h : l.countP f ≤ 1) :
    l.eraseP f = l.filter (!f ·) := by
  induction l with
  | nil => rfl
  | cons a l ih =>
    cases ha : f a with
    | false => simp [ha, ih (by simpa [ha] using h)]
    | true =>
      have hl : l.countP f = 0 := by simpa [ha] using h
      rw [eraseP_cons_of_pos ha, filter_cons_of_neg (by simp [ha])]
      exact (filter_eq_self.mpr (by simpa using countP_eq_zero.mp hl)).symm

variable {κ ν : Type*}

lemma countP_key [DecidableEq κ] {l : List (κ × ν)} (h : (l.map Prod.fst).Nodup) (k : κ) :
    l.countP (·.1 = k) ≤ 1 := by
  have hk := nodup_iff_count_le_one.mp h k
  rwa [count, countP_map] at hk

structure HashTable (κ ν : Type*) where
  buckets : ℕ → List (κ × ν)

namespace HashTable

section Operations

variable (hash : κ → ℕ)

def empty : HashTable κ ν := ⟨fun _ => []⟩

def lookup [DecidableEq κ] (t : HashTable κ ν) (k : κ) : Option ν :=
  ((t.buckets (hash k)).find? fun e => e.1 = k).map Prod.snd

def add (t : HashTable κ ν) (k : κ) (v : ν) : HashTable κ ν :=
  ⟨Function.update t.buckets (hash k) ((k, v) :: t.buckets (hash k))⟩

/-- `del name k` says that a deletion of `k` takes an entry called `name`. -/
def delete (del : κ → κ → Bool) (t : HashTable κ ν) (k : κ) : HashTable κ ν :=
  ⟨Function.update t.buckets (hash k) ((t.buckets (hash k)).eraseP fun e => del e.1 k)⟩

end Operations

/-- Every key stands once, and is one of those `P` allows. -/
structure Wf (P : κ → Prop) (t : HashTable κ ν) : Prop where
  nodup : ∀ n, ((t.buckets n).map Prod.fst).Nodup
  keys : ∀ n, ∀ e ∈ t.buckets n, P e.1

lemma eraseP_congr {l : List (κ × ν)} {p q : κ × ν → Bool} (hpq : ∀ e ∈ l, p e = q e) :
    l.eraseP p = l.eraseP q := by
  induction l with
  | nil => rfl
  | cons e l ih =>
    rw [eraseP_cons, eraseP_cons, hpq e (by simp), ih fun x hx => hpq x (mem_cons_of_mem _ hx)]

variable [DecidableEq κ] {hash : κ → ℕ} {del : κ → κ → Bool} {P : κ → Prop}
  {t : HashTable κ ν} {k : κ} {v : ν}

lemma empty_wf : Wf P (empty : HashTable κ ν) := ⟨fun _ => nodup_nil, fun _ _ h => by cases h⟩

lemma lookup_eq_none : t.lookup hash k = none ↔ k ∉ (t.buckets (hash k)).map Prod.fst := by
  simp only [lookup, Option.map_eq_none_iff, find?_eq_none, decide_eq_true_eq, mem_map,
    not_exists, not_and]

lemma lookup_add (k' : κ) :
    (t.add hash k v).lookup hash k' = if k' = k then some v else t.lookup hash k' := by
  by_cases h : k' = k
  · simp [lookup, add, h]
  · by_cases hh : hash k' = hash k
    · simp [lookup, add, hh, Ne.symm h, h]
    · simp [lookup, add, hh, h]

lemma Wf.add (h : Wf P t) (hk : P k) (hn : t.lookup hash k = none) : Wf P (t.add hash k v) := by
  refine ⟨fun n => ?_, fun n e he => ?_⟩ <;> by_cases hh : n = hash k
  · subst hh
    simpa [HashTable.add] using ⟨by simpa using lookup_eq_none.mp hn, h.nodup (hash k)⟩
  · simpa [HashTable.add, hh] using h.nodup n
  · subst hh
    rcases (by simpa [HashTable.add] using he) with rfl | he'
    · exact hk
    · exact h.keys _ e he'
  · exact h.keys n e (by simpa [HashTable.add, hh] using he)

lemma find?_eraseP {l : List (κ × ν)} (hnd : (l.map Prod.fst).Nodup)
    (hdel : ∀ e ∈ l, del e.1 k = decide (e.1 = k)) (k' : κ) :
    ((l.eraseP fun e => del e.1 k).find? fun e => e.1 = k') =
      if k' = k then none else l.find? fun e => e.1 = k' := by
  rw [eraseP_congr hdel, eraseP_eq_filter (countP_key hnd k), find?_filter]
  split_ifs with hk
  · simp [hk]
  · refine find?_congr fun e _ => ?_
    by_cases he : e.1 = k' <;> simp [he, hk]

lemma lookup_delete (h : Wf P t) (hdel : ∀ n, P n → del n k = decide (n = k)) (k' : κ) :
    (t.delete hash del k).lookup hash k' = if k' = k then none else t.lookup hash k' := by
  by_cases hh : hash k' = hash k
  · have hf := find?_eraseP (h.nodup (hash k)) (fun e he => hdel e.1 (h.keys _ e he)) k'
    simp only [lookup, delete, hh, Function.update_self, hf]
    split_ifs <;> rfl
  · have hne : k' ≠ k := by rintro rfl; exact hh rfl
    simp [lookup, delete, hh, hne]

lemma Wf.delete (h : Wf P t) : Wf P (t.delete hash del k) := by
  refine ⟨fun n => ?_, fun n e he => ?_⟩ <;> by_cases hh : n = hash k
  · subst hh
    simpa [HashTable.delete] using (h.nodup (hash k)).sublist ((eraseP_sublist).map Prod.fst)
  · simpa [HashTable.delete, hh] using h.nodup n
  · subst hh
    exact h.keys _ e (mem_of_mem_eraseP (by simpa [HashTable.delete] using he))
  · exact h.keys n e (by simpa [HashTable.delete, hh] using he)

/-! ### A table as the list of its entries -/

section Entries

omit [DecidableEq κ]

variable {same : κ → κ → Bool} {l : List (κ × ν)}

/-- The first entry that matches; `same name k` says that `k` finds an entry called `name`. -/
def lookupBy (hash : κ → ℕ) (same : κ → κ → Bool) (t : HashTable κ ν) (k : κ) : Option ν :=
  ((t.buckets (hash k)).find? fun e => same e.1 k).map Prod.snd

/-- The buckets hold the entries of `l`, each where its key hashes to. -/
def Holds (hash : κ → ℕ) (t : HashTable κ ν) (l : List (κ × ν)) : Prop :=
  ∀ n, t.buckets n = l.filter fun e => hash e.1 = n

lemma holds_empty : Holds hash (empty : HashTable κ ν) [] := fun _ => rfl

lemma Holds.add (h : Holds hash t l) : Holds hash (t.add hash k v) ((k, v) :: l) := by
  intro n
  by_cases hn : n = hash k
  · subst hn
    simp [HashTable.add, h (hash k)]
  · simp [HashTable.add, hn, h n, Ne.symm hn]

lemma filter_eraseP_of_not {p q : κ × ν → Bool} (hpq : ∀ e ∈ l, p e → ¬ q e) :
    (l.eraseP p).filter q = l.filter q := by
  induction l with
  | nil => rfl
  | cons e l ih =>
    have ih := ih fun x hx => hpq x (mem_cons_of_mem _ hx)
    by_cases hp : p e
    · rw [eraseP_cons_of_pos hp, filter_cons_of_neg (hpq e (by simp) hp)]
    · rw [eraseP_cons_of_neg hp, filter_cons, filter_cons, ih]

lemma Holds.delete (h : Holds hash t l) (hdel : ∀ e ∈ l, del e.1 k → hash e.1 = hash k) :
    Holds hash (t.delete hash del k) (l.eraseP fun e => del e.1 k) := by
  intro n
  by_cases hn : n = hash k
  · subst hn
    simp only [HashTable.delete, Function.update_self]
    rw [h (hash k), eraseP_filter]
    congr 1
    exact eraseP_congr fun e he => by cases hd : del e.1 k <;> simp [hdel e he, hd]
  · simp only [HashTable.delete, Function.update_of_ne hn]
    rw [h n]
    refine (filter_eraseP_of_not fun e he hde => ?_).symm
    simpa [hdel e he hde] using Ne.symm hn

lemma Holds.lookupBy (h : Holds hash t l) (hsame : ∀ e ∈ l, same e.1 k → hash e.1 = hash k) :
    t.lookupBy hash same k = (l.find? fun e => same e.1 k).map Prod.snd := by
  rw [HashTable.lookupBy, h (hash k), find?_filter]
  congr 1
  exact find?_congr fun e he => by cases hs : same e.1 k <;> simp [hsame e he, hs]

end Entries

end HashTable

end IscDhcp.Lib
