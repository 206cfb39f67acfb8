import Mathlib.Data.List.Nodup

/-!
Singly linked lists in a heap.

A heap of cells of type `α` has one link field, `next : α → Option α`, with `none` for
the null pointer. A list segment is the list of cells met when the links are followed
from one pointer to another. A doubly linked list is two segments, one for each link
field, over one list and its reverse.
-/

namespace IscDhcp.Lib

open List

variable {α : Type*}

/-- The cells met from the pointer `p` along `next`, stopping at the pointer `q`. -/
def Seg (next : α → Option α) : Option α → List α → Option α → Prop
  | p, [], q => p = q
  | p, a :: l, q => p = some a ∧ Seg next (next a) l q

abbrev Chain (next : α → Option α) (p : Option α) (l : List α) : Prop := Seg next p l none

variable {next next' : α → Option α} {p q r : Option α} {a b : α} {l l1 l2 : List α}

@[simp] lemma seg_nil : Seg next p [] q ↔ p = q := Iff.rfl
@[simp] lemma seg_cons : Seg next p (a :: l) q ↔ p = some a ∧ Seg next (next a) l q := Iff.rfl

lemma seg_append : Seg next p (l1 ++ l2) q ↔ ∃ r, Seg next p l1 r ∧ Seg next r l2 q := by
  induction l1 generalizing p with
  | nil => simp
  | cons a l ih => simp [ih, and_assoc]

lemma seg_append_cons :
    Seg next p (l1 ++ a :: l2) q ↔ Seg next p l1 (some a) ∧ Seg next (next a) l2 q := by
  rw [seg_append]
  constructor
  · rintro ⟨r, h1, rfl, h2⟩
    exact ⟨h1, h2⟩
  · rintro ⟨h1, h2⟩
    exact ⟨some a, h1, rfl, h2⟩

lemma seg_snoc : Seg next p (l ++ [b]) q ↔ Seg next p l (some b) ∧ next b = q := by
  rw [seg_append_cons, seg_nil]

lemma Seg.unique {l' : List α} (h : Chain next p l) (h' : Chain next p l') : l = l' := by
  induction l generalizing p l' with
  | nil =>
    cases l' with
    | nil => rfl
    | cons a l' => cases (seg_nil.mp h).symm.trans h'.1
  | cons a l ih =>
    cases l' with
    | nil => cases (seg_nil.mp h').symm.trans h.1
    | cons b l' =>
      obtain ⟨ha, hl⟩ := h
      obtain ⟨hb, hl'⟩ := h'
      obtain rfl : a = b := by rw [ha] at hb; exact Option.some.inj hb
      rw [ih hl hl']

lemma Seg.nodup (h : Chain next p l) : l.Nodup := by
  induction l generalizing p with
  | nil => exact nodup_nil
  | cons a l ih =>
    obtain ⟨-, hl⟩ := h
    refine nodup_cons.mpr ⟨fun ha => ?_, ih hl⟩
    -- a second visit of `a` would be followed by the whole of `l` again
    obtain ⟨l1, l2, rfl⟩ := append_of_mem ha
    have h2 := (seg_append_cons.mp hl).2
    have hlen := congrArg length (Seg.unique hl h2)
    simp only [length_append, length_cons] at hlen
    omega

lemma Seg.head? (h : Chain next p l) : p = l.head? := by
  cases l with
  | nil => exact h
  | cons a l => exact h.1

lemma Seg.next_getLast (h : Chain next p (l1 ++ l2)) (hb : l1.getLast? = some b) :
    next b = l2.head? := by
  obtain ⟨l, rfl⟩ := getLast?_eq_some_iff.mp hb
  rw [append_assoc, singleton_append, Chain, seg_append_cons] at h
  exact Seg.head? h.2

lemma Seg.next_eq (h : Chain next p (l1 ++ a :: l2)) : next a = l2.head? :=
  (seg_append_cons.mp h).2.head?

lemma Seg.next_mem (h : Chain next p l) (ha : a ∈ l) (hab : next a = some b) : b ∈ l := by
  obtain ⟨l1, l2, rfl⟩ := append_of_mem ha
  rw [h.next_eq] at hab
  simp [mem_of_head? hab]

lemma getLast?_ne_of_mem (h : (l1 ++ l2).Nodup) (ha : a ∈ l1.dropLast ++ l2) :
    l1.getLast? ≠ some a := by
  rcases eq_nil_or_concat' l1 with rfl | ⟨l, b, rfl⟩
  · simp
  · have hnd : (l ++ b :: l2).Nodup := by simpa using h
    have hb := nodup_middle.mp hnd
    rw [getLast?_concat]
    rintro ⟨⟩
    exact (nodup_cons.mp hb).1 (by simpa using ha)

lemma ne_of_mem_dropLast {c : α} (hnd : (l1 ++ l2).Nodup) (ha : a ∉ l1 ++ l2)
    (hc : c ∈ l1.dropLast ++ l2) : c ≠ a ∧ some c ≠ l1.getLast? := by
  refine ⟨?_, fun e => getLast?_ne_of_mem hnd hc e.symm⟩
  rintro rfl
  rcases mem_append.mp hc with h | h
  · exact ha (mem_append_left _ (dropLast_subset _ h))
  · exact ha (mem_append_right _ h)

lemma Seg.congr (h : Seg next p l q) (hn : ∀ a ∈ l, next' a = next a) : Seg next' p l q := by
  induction l generalizing p with
  | nil => exact h
  | cons a l ih =>
    refine ⟨h.1, ?_⟩
    rw [hn a (by simp)]
    exact ih h.2 fun b hb => hn b (by simp [hb])

lemma Seg.insert (h : Chain next (l1 ++ l2).head? (l1 ++ l2))
    (hl : ∀ b ∈ l1.getLast?, next' b = some a) (ha : next' a = l2.head?)
    (hk : ∀ c ∈ l1.dropLast ++ l2, next' c = next c) :
    Chain next' (l1 ++ a :: l2).head? (l1 ++ a :: l2) := by
  rcases eq_nil_or_concat' l1 with rfl | ⟨l, b, rfl⟩
  · refine ⟨rfl, ?_⟩
    rw [ha]
    exact Seg.congr h fun c hc => hk c (by simpa using hc)
  · have hb : next' b = some a := hl b (by simp)
    rw [append_assoc, singleton_append] at h ⊢
    rw [Chain, seg_append_cons] at h ⊢
    obtain ⟨h1, h2⟩ := h
    have hne : (l ++ b :: a :: l2).head? = (l ++ b :: l2).head? := by cases l <;> rfl
    refine ⟨hne ▸ h1.congr fun c hc => hk c (by simp [hc]), hb, ?_⟩
    rw [ha, ← Seg.head? h2]
    exact h2.congr fun c hc => hk c (by simp [hc])

lemma Seg.erase (h : Chain next (l1 ++ a :: l2).head? (l1 ++ a :: l2))
    (hl : ∀ b ∈ l1.getLast?, next' b = l2.head?)
    (hk : ∀ c ∈ l1.dropLast ++ l2, next' c = next c) : Chain next' (l1 ++ l2).head? (l1 ++ l2) := by
  rw [Chain, seg_append_cons] at h
  obtain ⟨h1, h2⟩ := h
  rcases eq_nil_or_concat' l1 with rfl | ⟨l, b, rfl⟩
  · have := Seg.head? h2
    rw [nil_append, ← this]
    exact h2.congr fun c hc => hk c (by simpa using hc)
  · have hb : next' b = l2.head? := hl b (by simp)
    rw [append_assoc, singleton_append, Chain, seg_append_cons, hb, ← Seg.head? h2]
    have hne : (l ++ [b] ++ a :: l2).head? = (l ++ b :: l2).head? := by cases l <;> rfl
    refine ⟨hne ▸ (seg_snoc.mp h1).1.congr fun c hc => hk c (by simp [hc]), ?_⟩
    exact h2.congr fun c hc => hk c (by simp [hc])

section Update

variable [DecidableEq α]

lemma Seg.update_of_notMem {v : Option α} (h : Seg next p l q) (ha : a ∉ l) :
    Seg (Function.update next a v) p l q :=
  h.congr fun b hb => Function.update_of_ne (by rintro rfl; exact ha hb) _ _

lemma Seg.update_last {v : Option α} (h : Seg next p (l ++ [b]) q) (hb : b ∉ l) :
    Seg (Function.update next b v) p (l ++ [b]) v := by
  rw [seg_snoc] at h ⊢
  exact ⟨h.1.update_of_notMem hb, Function.update_self _ _ _⟩

/-- The links with the cell `a` between the cells `front` and `back`. -/
def spliceIn (next : α → Option α) (a : α) (front back : Option α) : α → Option α := fun c =>
  if c = a then back else if some c = front then some a else next c

/-- The links with the cell `a` between `front` and `back` taken out. -/
def spliceOut (next : α → Option α) (a : α) (front back : Option α) : α → Option α := fun c =>
  if c = a then none else if some c = front then back else next c

lemma spliceIn_of_ne {front back : Option α} {c : α} (hc : c ≠ a) (hf : some c ≠ front) :
    spliceIn next a front back c = next c := by
  rw [spliceIn, if_neg hc, if_neg hf]

lemma spliceOut_of_ne {front back : Option α} {c : α} (hc : c ≠ a) (hf : some c ≠ front) :
    spliceOut next a front back c = next c := by
  rw [spliceOut, if_neg hc, if_neg hf]

lemma Seg.spliceIn (h : Chain next (l1 ++ l2).head? (l1 ++ l2)) (ha : a ∉ l1 ++ l2) :
    Chain (spliceIn next a l1.getLast? l2.head?) (l1 ++ a :: l2).head? (l1 ++ a :: l2) := by
  refine h.insert (fun b hb => ?_) (if_pos rfl) fun c hc => ?_
  · have hne : b ≠ a := by
      rintro rfl
      exact ha (mem_append_left _ (mem_of_getLast? hb))
    rw [Lib.spliceIn, if_neg hne, if_pos hb.symm]
  · obtain ⟨hne, hf⟩ := ne_of_mem_dropLast h.nodup ha hc
    exact spliceIn_of_ne hne hf

lemma Seg.spliceOut (h : Chain next (l1 ++ a :: l2).head? (l1 ++ a :: l2)) :
    Chain (spliceOut next a l1.getLast? l2.head?) (l1 ++ l2).head? (l1 ++ l2) := by
  obtain ⟨ha, hnd⟩ := nodup_cons.mp (nodup_middle.mp h.nodup)
  refine h.erase (fun b hb => ?_) fun c hc => ?_
  · have hne : b ≠ a := by
      rintro rfl
      exact ha (mem_append_left _ (mem_of_getLast? hb))
    rw [Lib.spliceOut, if_neg hne, if_pos hb.symm]
  · obtain ⟨hne, hf⟩ := ne_of_mem_dropLast hnd ha hc
    exact spliceOut_of_ne hne hf

def unlinkAfter (next : α → Option α) (b i : α) : α → Option α :=
  match next i with
  | none => Function.update next b none
  | some c => Function.update (Function.update next b (some c)) i none

lemma unlinkAfter_eq {i : α} (hb : b ≠ i) :
    unlinkAfter next b i = spliceOut next i (some b) (next i) := by
  funext c
  unfold unlinkAfter
  cases hni : next i <;> by_cases hc : c = i <;> by_cases hcb : c = b <;>
    simp_all [Lib.spliceOut]

end Update

/-! ### Walking a list -/

/-- Follow `next` from `cand` until `stop` holds, remembering the cell before. -/
def scan (next : α → Option α) (stop : α → Bool) : ℕ → Option α → Option α → Option α × Option α
  | 0, prev, cand => (prev, cand)
  | _ + 1, prev, none => (prev, none)
  | n + 1, prev, some c => if stop c then (prev, some c) else scan next stop n (some c) (next c)

/-- With a step for every cell the walk stops in front of the first cell with `stop`. -/
lemma scan_eq {stop : α → Bool} {n : ℕ} {prev : Option α} (h : Seg next p (l1 ++ l2) none)
    (hn : l1.length < n) (hl1 : ∀ a ∈ l1, stop a = false) (hl2 : ∀ a ∈ l2.head?, stop a = true) :
    scan next stop n prev p = (l1.getLast?.or prev, l2.head?) := by
  induction l1 generalizing p n prev with
  | nil =>
    obtain ⟨n, rfl⟩ : ∃ k, n = k + 1 := ⟨n - 1, by simp at hn; omega⟩
    rw [nil_append] at h
    rw [h.head?]
    cases l2 with
    | nil => rfl
    | cons c l2 => simp [scan, hl2 c (by simp)]
  | cons c l1 ih =>
    obtain ⟨n, rfl⟩ : ∃ k, n = k + 1 := ⟨n - 1, by simp at hn; omega⟩
    obtain ⟨rfl, h⟩ := h
    have hc : stop c = false := hl1 c (by simp)
    rw [scan, hc, if_neg Bool.false_ne_true,
      ih h (by simp at hn; omega) fun a ha => hl1 a (by simp [ha])]
    cases hl : l1.getLast? with
    | none => simp [getLast?_eq_none_iff.mp hl]
    | some b => simp [getLast?_cons, hl]

lemma Seg.exists_scan (h : Chain next p l) (stop : α → Bool) {n : ℕ} (hn : l.length < n)
    (prev : Option α) :
    ∃ l1 l2, l = l1 ++ l2 ∧ (∀ a ∈ l1, stop a = false) ∧ (∀ a ∈ l2.head?, stop a = true) ∧
      scan next stop n prev p = (l1.getLast?.or prev, l2.head?) := by
  have hsplit : ∃ l1 l2, l = l1 ++ l2 ∧ (∀ a ∈ l1, stop a = false) ∧
      ∀ a ∈ l2.head?, stop a = true := by
    clear h hn
    induction l with
    | nil => exact ⟨[], [], rfl, by simp, by simp⟩
    | cons c l ih =>
      by_cases hc : stop c = true
      · exact ⟨[], c :: l, rfl, by simp, by simpa using hc⟩
      · obtain ⟨l1, l2, rfl, h1, h2⟩ := ih
        exact ⟨c :: l1, l2, rfl, by simpa [hc] using h1, h2⟩
  obtain ⟨l1, l2, rfl, h1, h2⟩ := hsplit
  exact ⟨l1, l2, rfl, h1, h2, scan_eq h (by rw [length_append] at hn; omega) h1 h2⟩

lemma Seg.exists_front [DecidableEq α] {i head : α} (h : Chain next (some head) l) (hi : i ∈ l)
    (hne : head ≠ i) {n : ℕ} (hn : l.length < n) : ∃ l1 b l2, l = l1 ++ b :: i :: l2 ∧
      (scan next (fun c => next c = some i) n none (some head)).2 = some b := by
  obtain ⟨l1, l2, rfl, h1, h2, hscan⟩ := h.exists_scan (fun c => decide (next c = some i)) hn none
  cases l2 with
  | nil =>
    -- `i` has a cell in front of it, as it is not the first
    obtain ⟨m1, m2, hm⟩ := append_of_mem hi
    rw [hm] at h
    rcases eq_nil_or_concat' m1 with rfl | ⟨m, b, rfl⟩
    · exact absurd (Option.some.inj h.1) hne
    · have hb : next b = some i := by
        simpa using Seg.next_getLast h (getLast?_concat)
      have hbl : b ∈ l1 := by rw [append_nil] at hm; simp [hm]
      simpa [hb] using h1 b hbl
  | cons b l2 =>
    have hb : next b = some i := by simpa using h2 b rfl
    rw [Seg.next_eq h] at hb
    obtain ⟨l2, rfl⟩ : ∃ m, l2 = i :: m := by
      cases l2 with
      | nil => cases hb
      | cons c m => exact ⟨m, by rw [Option.some.inj hb]⟩
    exact ⟨l1, b, l2, rfl, by rw [hscan]; rfl⟩

lemma Seg.scan_front_none [DecidableEq α] {i : α} (h : Chain next p l) (hi : i ∉ l) {n : ℕ}
    (hn : l.length < n) : (scan next (fun c => next c = some i) n none p).2 = none := by
  obtain ⟨l1, l2, rfl, -, h2, hscan⟩ := h.exists_scan (fun c => decide (next c = some i)) hn none
  rw [hscan]
  refine Option.eq_none_iff_forall_not_mem.mpr fun c hc => hi ?_
  have hcl : c ∈ l1 ++ l2 := by simp [mem_of_head? hc]
  exact h.next_mem hcl (by simpa using h2 c hc)

end IscDhcp.Lib
