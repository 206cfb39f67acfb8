import IscDhcp.Lib.Seg

/-!
Queues in a heap, with a pointer to the first and to the last cell.

Several queues may use one link field, as long as they have no cell in common: every
operation says which links it leaves alone. A pointer is only stored into a null pointer,
as counted references are, so the operations rely on the links of cells outside the queues
being null.
-/

namespace IscDhcp.Lib

open List Function

structure PtrQueue (α : Type*) where
  head : Option α := none
  tail : Option α := none
  deriving DecidableEq

namespace PtrQueue

variable {α : Type*}

structure Holds (next : α → Option α) (q : PtrQueue α) (l : List α) : Prop where
  chain : Chain next q.head l
  tail : q.tail = l.getLast?

variable {next next' : α → Option α} {q r : PtrQueue α} {a : α} {l l1 l2 : List α}

lemma Holds.congr (h : Holds next q l) (hn : ∀ c ∈ l, next' c = next c) : Holds next' q l :=
  ⟨h.chain.congr hn, h.tail⟩

lemma Holds.null (h : Holds next q l) : q.head = none ↔ q.tail = none := by
  rw [h.tail, h.chain.head?, head?_eq_none_iff, getLast?_eq_none_iff]

lemma Holds.next_tail (h : Holds next q l) {t : α} (ht : l.getLast? = some t) : next t = none := by
  have hc := h.chain
  rw [← append_nil l] at hc
  exact Seg.next_getLast hc ht

variable [DecidableEq α]

/-! ### Operations -/

def append (next : α → Option α) (q : PtrQueue α) (a : α) : (α → Option α) × PtrQueue α :=
  match q.head, q.tail with
  | none, tail => (next, ⟨some a, tail.or (some a)⟩)
  | some h, none => (next, ⟨some h, some a⟩)
  | some h, some t => (Function.update next t ((next t).or (some a)), ⟨some h, some a⟩)

def pop (next : α → Option α) (q : PtrQueue α) (a : α) : (α → Option α) × PtrQueue α :=
  match next a with
  | some n => (Function.update next a none, ⟨some n, q.tail⟩)
  | none => (next, ⟨none, none⟩)

/-- Look for `a`, in `n` steps, and take it out; `none` if it is not found. -/
def remove (n : ℕ) (next : α → Option α) (q : PtrQueue α) (a : α) :
    Option ((α → Option α) × PtrQueue α) :=
  if q.head = some a then some (pop next q a)
  else
    match (scan next (fun c => next c = some a) n none q.head).2 with
    | none => none
    | some b =>
      some (unlinkAfter next b a, if next a = none then ⟨q.head, some b⟩ else q)

/-- Put the queue `q`, which ends in `t`, in front of `r`. -/
def prepend (next : α → Option α) (q : PtrQueue α) (t : α) (r : PtrQueue α) :
    (α → Option α) × PtrQueue α :=
  match r.head with
  | none => (next, ⟨q.head, r.tail.or (some t)⟩)
  | some h => (Function.update next t ((next t).or (some h)), ⟨q.head, r.tail.or (some t)⟩)

/-! ### What they do -/

lemma Holds.append (h : Holds next q l) (ha : a ∉ l) (hn : next a = none) :
    Holds (append next q a).1 (append next q a).2 (l ++ [a]) ∧
      ∀ c, c ∉ l → (append next q a).1 c = next c := by
  have hhead : q.head = l.head? := h.chain.head?
  rcases eq_nil_or_concat' l with rfl | ⟨l, t, rfl⟩
  · have ht := h.tail
    simp only [PtrQueue.append, hhead, ht]
    exact ⟨⟨⟨rfl, hn⟩, rfl⟩, by simp⟩
  · obtain ⟨x, hx⟩ : ∃ x, (l ++ [t]).head? = some x := by cases l <;> exact ⟨_, rfl⟩
    have ht : q.tail = some t := by rw [h.tail, getLast?_concat]
    have hnt : next t = none := h.next_tail getLast?_concat
    rw [hx] at hhead
    simp only [PtrQueue.append, hhead, ht, hnt]
    have htl : t ∉ l := by
      have := h.chain.nodup
      simp only [nodup_append, mem_singleton] at this
      intro hm
      exact this.2.2 t hm t rfl rfl
    have hta : t ≠ a := by rintro rfl; exact ha (by simp)
    refine ⟨⟨?_, by simp⟩, fun c hc => update_of_ne (by rintro rfl; exact hc (by simp)) _ _⟩
    have hc := h.chain
    rw [hhead] at hc
    rw [Chain, seg_append_cons]
    exact ⟨hc.update_last htl, by rw [update_of_ne hta.symm]; exact hn⟩

lemma Holds.pop (h : Holds next q (a :: l)) :
    Holds (pop next q a).1 (pop next q a).2 l ∧ (pop next q a).1 a = none ∧
      ∀ c, c ≠ a → (pop next q a).1 c = next c := by
  have hnext : next a = l.head? := Seg.head? h.chain.2
  have ha : a ∉ l := (nodup_cons.mp h.chain.nodup).1
  cases l with
  | nil =>
    simp only [head?_nil] at hnext
    simp only [PtrQueue.pop, hnext]
    exact ⟨⟨rfl, rfl⟩, by simp⟩
  | cons n l =>
    simp only [PtrQueue.pop, hnext]
    refine ⟨⟨?_, ?_⟩, update_self _ _ _, fun c hc => update_of_ne hc _ _⟩
    · have := h.chain.2
      rw [hnext] at this
      exact this.update_of_notMem ha
    · rw [h.tail]
      simp

lemma Holds.remove {n : ℕ} (h : Holds next q l) (ha : a ∈ l) (hn : l.length < n) :
    ∃ next' q', remove n next q a = some (next', q') ∧ Holds next' q' (l.erase a) ∧
      next' a = none ∧ ∀ c, c ∉ l → next' c = next c := by
  unfold PtrQueue.remove
  have hhead : q.head = l.head? := h.chain.head?
  by_cases hq : q.head = some a
  · rw [if_pos hq]
    obtain ⟨m, rfl⟩ : ∃ m, l = a :: m := head?_eq_some_iff.mp (hhead.symm.trans hq)
    obtain ⟨hp, hpa, hpc⟩ := h.pop
    rw [erase_cons_head]
    exact ⟨_, _, rfl, hp, hpa, fun c hc => hpc c (by rintro rfl; exact hc (by simp))⟩
  · rw [if_neg hq]
    obtain ⟨x, hx⟩ : ∃ x, q.head = some x := by
      rw [hhead]
      cases l with
      | nil => cases ha
      | cons x l => exact ⟨x, rfl⟩
    have hc := h.chain
    rw [hx] at hc
    have hxa : x ≠ a := by rintro rfl; exact hq hx
    obtain ⟨l1, b, l2, rfl, hscan⟩ := hc.exists_front ha hxa hn
    rw [← singleton_append, ← append_assoc] at hc
    have hnd := hc.nodup
    obtain ⟨ha1, hnd'⟩ := nodup_cons.mp (nodup_middle.mp hnd)
    have hba : b ≠ a := by rintro rfl; exact ha1 (by simp)
    have hna : next a = l2.head? := Seg.next_eq hc
    have herase : (l1 ++ b :: a :: l2).erase a = l1 ++ [b] ++ l2 := by
      rw [← singleton_append, ← append_assoc,
        erase_append_right _ fun hm => ha1 (mem_append_left _ hm), erase_cons_head]
    simp only [hx, hscan, unlinkAfter_eq hba]
    refine ⟨_, _, rfl, ⟨?_, ?_⟩, by simp [spliceOut], fun c hcl => ?_⟩
    · have hc' := hc
      rw [hc.head?] at hc'
      have hso := hc'.spliceOut
      rw [getLast?_concat] at hso
      have hhd : (l1 ++ [b] ++ l2).head? = some x := by
        rw [← hx, hhead]
        cases l1 <;> rfl
      rw [herase, hna]
      rw [hhd] at hso
      split_ifs <;> simpa [hx] using hso
    · rw [herase]
      cases l2 with
      | nil => simp [hna]
      | cons c l2 => simp [hna, h.tail]
    · refine spliceOut_of_ne ?_ ?_
      · rintro rfl
        exact hcl (by simp)
      · rintro ⟨rfl⟩
        exact hcl (by simp)

lemma Holds.prepend (h1 : Holds next q l1) (h2 : Holds next r l2) {t : α}
    (ht : l1.getLast? = some t) (hd : ∀ c ∈ l1, c ∉ l2) :
    Holds (prepend next q t r).1 (prepend next q t r).2 (l1 ++ l2) ∧
      ∀ c, c ∉ l1 → (prepend next q t r).1 c = next c := by
  have hhead : r.head = l2.head? := h2.chain.head?
  have htl : t ∈ l1 := mem_of_getLast? ht
  have hnt : next t = none := h1.next_tail ht
  cases l2 with
  | nil =>
    have htail := h2.tail
    simp only [PtrQueue.prepend, hhead, htail, append_nil]
    exact ⟨⟨h1.chain, ht.symm⟩, by simp⟩
  | cons x l2 =>
    simp only [head?_cons] at hhead
    simp only [PtrQueue.prepend, hhead, hnt]
    obtain ⟨l, rfl⟩ := getLast?_eq_some_iff.mp ht
    have htnl : t ∉ l := by
      have := h1.chain.nodup
      simp only [nodup_append, mem_singleton] at this
      intro hm
      exact this.2.2 t hm t rfl rfl
    refine ⟨⟨?_, ?_⟩, fun c hc => update_of_ne (by rintro rfl; exact hc htl) _ _⟩
    · rw [Chain, seg_append]
      have hx : x ≠ t := by rintro rfl; exact hd x htl (by simp)
      refine ⟨some x, h1.chain.update_last htnl, rfl, ?_⟩
      rw [update_of_ne hx]
      exact h2.chain.2.update_of_notMem fun hm => hd t htl (mem_cons_of_mem _ hm)
    · rw [h2.tail, getLast?_append]
      simp

end PtrQueue

end IscDhcp.Lib
