import IscDhcp.Basic
import Mathlib.Data.List.Nodup

/-!
The priority queue of `heap.c`: a binary heap in an array whose first position is `1`. Each
element is told its position whenever that changes (`heap -> index`).

The array in use is a list, and what the elements were told is a function. `none` is a failed
assertion.
-/

namespace IscDhcp.Heap

open List Option

variable {α : Type} [DecidableEq α] (compare : α → α → Bool)

/-- A heap together with the positions its elements were told. -/
abbrev Indexed (α : Type) := List α × (α → ℤ)

section

variable (h : Indexed α)

def place (i : ℕ) (elt : α) : Indexed α :=
  (h.1.set (i - 1) elt, Function.update h.2 elt i)

/-- `fuel` bounds the number of steps; `i` of them suffice. The assertion `HEAPCONDITION (i)` that
follows the loop is what ends it. -/
def floatUp : ℕ → Indexed α → ℕ → α → Indexed α
  | 0, h, i, elt => place h i elt
  | fuel + 1, h, i, elt =>
    if 1 < i then
      match h.1[i / 2 - 1]? with
      | none => place h i elt
      | some b => if compare elt b then floatUp fuel (place h i b) (i / 2) elt else place h i elt
    else place h i elt

/-- The smaller of the at most two children of position `i`. -/
def smallestChild (l : List α) (i : ℕ) : Option (ℕ × α) := do
  let b ← l[2 * i - 1]?
  match l[2 * i + 1 - 1]? with
  | none => return (2 * i, b)
  | some c => return if compare c b then (2 * i + 1, c) else (2 * i, b)

/-- `HEAPCONDITION (i)`: the element at position `i` is not before the one above it. -/
def heapCondition (l : List α) (i : ℕ) (elt : α) : Bool :=
  i = 1 || l[i / 2 - 1]?.all fun b => !compare elt b

/-- The end of `sink_down`, with its assertion. -/
def settle (i : ℕ) (elt : α) : Option (Indexed α) :=
  if heapCondition compare (place h i elt).1 i elt then some (place h i elt) else none

/-- `fuel` bounds the number of steps; the length of the array suffices. -/
def sinkDown : ℕ → Indexed α → ℕ → α → Option (Indexed α)
  | 0, h, i, elt => settle compare h i elt
  | fuel + 1, h, i, elt =>
    match smallestChild compare h.1 i with
    | none => settle compare h i elt
    | some (j, b) =>
      if compare elt b then settle compare h i elt else sinkDown fuel (place h i b) j elt

def iscHeapInsert (elt : α) : Indexed α :=
  let last := h.1.length + 1
  floatUp compare last (h.1 ++ [elt], h.2) last elt

def iscHeapElement (l : List α) (index : ℤ) : Option α :=
  if 1 ≤ index then l[index.toNat - 1]? else none

def iscHeapDelete (index : ℤ) : Option (Indexed α) := do
  let old ← iscHeapElement h.1 index
  let elt ← h.1.getLast?
  let i := index.toNat
  if i = h.1.length then return (h.1.dropLast, h.2)
  let h := (h.1.dropLast.set (i - 1) elt, h.2)
  if compare elt old then return floatUp compare i h i elt
  else sinkDown compare h.1.length h i elt

def iscHeapIncreased (index : ℤ) : Option (Indexed α) := do
  let elt ← iscHeapElement h.1 index
  return floatUp compare index.toNat h index.toNat elt

def iscHeapDecreased (index : ℤ) : Option (Indexed α) := do
  let elt ← iscHeapElement h.1 index
  sinkDown compare h.1.length h index.toNat elt

@[simp] lemma place_fst (i : ℕ) (elt : α) : (place h i elt).1 = h.1.set (i - 1) elt := rfl

lemma place_self (i : ℕ) (elt : α) : (place h i elt).2 elt = i := by
  simp [place]

end

variable {x elt : α} {i : ℕ} {idx : α → ℤ} {b a : List α}

lemma place_of_ne (h : Indexed α) (i : ℕ) (hx : x ≠ elt) : (place h i elt).2 x = h.2 x := by
  simp [place, hx]

/-! ### Every element knows its position -/

/-- The elements are different, and each was told its position. -/
structure Coherent (h : Indexed α) : Prop where
  nodup : h.1.Nodup
  index : ∀ (k : ℕ) x, h.1[k]? = some x → h.2 x = k + 1

/-- While `elt` looks for its place from position `i` on, the others know theirs. -/
structure Sifting (h : Indexed α) (i : ℕ) (elt : α) : Prop where
  pos : 1 ≤ i
  le : i ≤ h.1.length
  nodup : (h.1.set (i - 1) elt).Nodup
  index : ∀ (k : ℕ) x, (h.1.set (i - 1) elt)[k]? = some x → x ≠ elt → h.2 x = k + 1

/-- `t` is `s` in another order, and only its elements were told something. -/
structure Sifted (s : List α) (idx : α → ℤ) (t : Indexed α) : Prop where
  perm : t.1.Perm s
  coherent : Coherent t
  frame : ∀ y, y ∉ s → t.2 y = idx y

section

variable {h : Indexed α}

lemma eq_of_getElem? {l : List α} {j k : ℕ} (hl : l.Nodup) (hj : l[j]? = some x)
    (hk : l[k]? = some x) : j = k :=
  (List.getElem?_inj (List.getElem?_eq_some_iff.mp hj).1 hl).mp (hj.trans hk.symm)

lemma Sifting.getElem? (hs : Sifting h i elt) :
    (h.1.set (i - 1) elt)[i - 1]? = some elt := by
  have := hs.pos
  have := hs.le
  rw [getElem?_set_self (by omega)]

lemma Sifting.finish (hs : Sifting h i elt) :
    Sifted (h.1.set (i - 1) elt) h.2 (place h i elt) := by
  have hpos := hs.pos
  refine ⟨.refl _, ⟨hs.nodup, fun k x hx => ?_⟩, fun y hy => ?_⟩
  · by_cases hxe : x = elt
    · have hk : k = i - 1 := eq_of_getElem? hs.nodup hx (hxe ▸ hs.getElem?)
      rw [hxe, place_self]
      omega
    · rw [place_of_ne _ _ hxe]
      exact hs.index k x hx hxe
  · have hye : y ≠ elt := by
      rintro rfl
      exact hy (mem_iff_getElem?.mpr ⟨_, hs.getElem?⟩)
    rw [place_of_ne _ _ hye]

/-- One step: the element `b` of position `j` moves to position `i`, and `elt` looks at `j`. -/
lemma Sifting.move {j : ℕ} {b : α} (hs : Sifting h i elt) (hj : 1 ≤ j) (hij : j ≠ i)
    (hb : h.1[j - 1]? = some b) :
    Sifting (place h i b) j elt ∧ ((place h i b).1.set (j - 1) elt).Perm (h.1.set (i - 1) elt) := by
  obtain ⟨hjl, hjb⟩ := List.getElem?_eq_some_iff.mp hb
  have hi := hs.pos
  have hil := hs.le
  have hne : i - 1 ≠ j - 1 := by omega
  have hperm : ((place h i b).1.set (j - 1) elt).Perm (h.1.set (i - 1) elt) := by
    have := @set_set_perm _ (h.1.set (i - 1) elt) (i - 1) (j - 1)
      (by simpa using by omega) (by simpa using hjl)
    simpa [getElem_set_of_ne hne, hjb] using this
  refine ⟨⟨hj, by simpa using by omega, hperm.nodup_iff.mpr hs.nodup, ?_⟩, hperm⟩
  intro k x hx hxe
  have hkj : k ≠ j - 1 := by
    rintro rfl
    rw [getElem?_set_self (by simpa using hjl)] at hx
    exact hxe (some.inj hx).symm
  rw [getElem?_set_ne hkj.symm, place_fst] at hx
  by_cases hki : k = i - 1
  · subst hki
    rw [getElem?_set_self (by omega)] at hx
    cases hx
    rw [place_self]
    omega
  · have hx' : (h.1.set (i - 1) elt)[k]? = some x := by
      rw [getElem?_set_ne (Ne.symm hki)] at hx ⊢
      exact hx
    have hxb : x ≠ b := by
      rintro rfl
      refine hkj (eq_of_getElem? hs.nodup hx' ?_)
      rw [getElem?_set_ne hne, hb]
    rw [place_of_ne _ _ hxb]
    exact hs.index k x hx' hxe

lemma Sifted.of_move {j : ℕ} {b : α} {t : Indexed α} (hs : Sifting h i elt)
    (hj : 1 ≤ j) (hij : j ≠ i) (hb : h.1[j - 1]? = some b)
    (ht : Sifted ((place h i b).1.set (j - 1) elt) (place h i b).2 t) :
    Sifted (h.1.set (i - 1) elt) h.2 t := by
  have hperm := (hs.move hj hij hb).2
  refine ⟨ht.perm.trans hperm, ht.coherent, fun y hy => ?_⟩
  rw [ht.frame y fun hy' => hy (hperm.mem_iff.mp hy'), place_of_ne]
  rintro rfl
  have hne : i - 1 ≠ j - 1 := by have := hs.pos; omega
  refine hy (mem_iff_getElem?.mpr ⟨j - 1, ?_⟩)
  rw [getElem?_set_ne hne, hb]

lemma floatUp_sifted (fuel : ℕ) (hs : Sifting h i elt) :
    Sifted (h.1.set (i - 1) elt) h.2 (floatUp compare fuel h i elt) := by
  induction fuel generalizing h i with
  | zero => exact hs.finish
  | succ fuel ih =>
    rw [floatUp]
    split_ifs with hi
    · split
      · exact hs.finish
      · rename_i b hb
        have hj : 1 ≤ i / 2 := by omega
        have hij : i / 2 ≠ i := by omega
        split_ifs
        · exact .of_move hs hj hij hb (ih (hs.move hj hij hb).1)
        · exact hs.finish
    · exact hs.finish

/-- The other child, if there is one, does not come before it. -/
lemma smallestChild_spec {l : List α} {j : ℕ} {b : α}
    (h : smallestChild compare l i = some (j, b)) :
    (j = 2 * i ∨ j = 2 * i + 1) ∧ l[j - 1]? = some b ∧ ∀ k x, k / 2 = i → k ≠ j →
      l[k - 1]? = some x → compare b x ∨ ¬ compare x b := by
  obtain ⟨b', hb, h⟩ := bind_eq_some_iff.mp h
  rcases hc : l[2 * i + 1 - 1]? with _ | c <;> rw [hc] at h
  · cases h
    refine ⟨.inl rfl, hb, fun k x hk hkj hx => ?_⟩
    obtain rfl : k = 2 * i + 1 := by omega
    cases hc.symm.trans hx
  · cases hlt : compare c b' <;> simp only [hlt] at h <;> cases h
    · refine ⟨.inl rfl, hb, fun k x hk hkj hx => .inr ?_⟩
      obtain rfl : k = 2 * i + 1 := by omega
      cases hc.symm.trans hx
      simp [hlt]
    · refine ⟨.inr rfl, hc, fun k x hk hkj hx => .inl ?_⟩
      obtain rfl : k = 2 * i := by omega
      cases hb.symm.trans hx
      exact hlt

lemma eq_of_settle {t : Indexed α} (ht : settle compare h i elt = some t) : t = place h i elt := by
  unfold settle at ht
  split_ifs at ht
  exact (some.inj ht).symm

lemma sinkDown_sifted (fuel : ℕ) {t : Indexed α} (hs : Sifting h i elt)
    (ht : sinkDown compare fuel h i elt = some t) : Sifted (h.1.set (i - 1) elt) h.2 t := by
  induction fuel generalizing h i with
  | zero => exact eq_of_settle compare ht ▸ hs.finish
  | succ fuel ih =>
    rw [sinkDown] at ht
    split at ht
    · exact eq_of_settle compare ht ▸ hs.finish
    · rename_i j b hjb
      obtain ⟨hj, hb, -⟩ := smallestChild_spec compare hjb
      have hpos := hs.pos
      split_ifs at ht
      · exact eq_of_settle compare ht ▸ hs.finish
      · exact .of_move hs (by omega) (by omega) hb (ih (hs.move (by omega) (by omega) hb).1 ht)

lemma settle_eq (hi : 1 ≤ i) (habove : ∀ b, 2 ≤ i → h.1[i / 2 - 1]? = some b → ¬ compare elt b) :
    settle compare h i elt = some (place h i elt) := by
  refine if_pos ?_
  rcases Nat.lt_or_ge 1 i with hi1 | hi1
  · have hne : i - 1 ≠ i / 2 - 1 := by omega
    rw [heapCondition, place_fst, getElem?_set_ne hne, Bool.or_eq_true, Option.all_eq_true]
    exact .inr fun b hb => by simpa using habove b hi1 hb
  · obtain rfl : i = 1 := by omega
    rfl

/-- Where the element starts it is not before the one above, and nor is it where it sinks to. -/
lemma exists_sinkDown (fuel : ℕ) (hi : 1 ≤ i) (hil : i ≤ h.1.length)
    (habove : ∀ b, 2 ≤ i → h.1[i / 2 - 1]? = some b → ¬ compare elt b) :
    ∃ t, sinkDown compare fuel h i elt = some t := by
  have hsettle := settle_eq compare hi habove
  induction fuel generalizing h i with
  | zero => exact ⟨_, hsettle⟩
  | succ fuel ih =>
    rw [sinkDown]
    split
    · exact ⟨_, hsettle⟩
    · rename_i j b hjb
      obtain ⟨hj, hb, -⟩ := smallestChild_spec compare hjb
      have hjl := (List.getElem?_eq_some_iff.mp hb).1
      split_ifs with hlt
      · exact ⟨_, hsettle⟩
      · have hup : ∀ c, 2 ≤ j → (place h i b).1[j / 2 - 1]? = some c → ¬ compare elt c := by
          intro c _ hc
          rw [show j / 2 = i by omega, place_fst, getElem?_set_self (by omega)] at hc
          exact some.inj hc ▸ hlt
        exact ih (by omega) (by rw [place_fst, length_set]; omega) hup
          (settle_eq compare (by omega) hup)

/-! ### The operations -/

lemma Sifted.congr {s s' : List α} {t : Indexed α} (ht : Sifted s idx t) (hs : s.Perm s') :
    Sifted s' idx t :=
  ⟨ht.perm.trans hs, ht.coherent, fun y hy => ht.frame y fun h => hy (hs.mem_iff.mp h)⟩

lemma iscHeapInsert_sifted (hc : Coherent h) (helt : elt ∉ h.1) :
    Sifted (elt :: h.1) h.2 (iscHeapInsert compare h elt) := by
  have hset : (h.1 ++ [elt]).set (h.1.length + 1 - 1) elt = h.1 ++ [elt] := by simp
  have hs : Sifting (h.1 ++ [elt], h.2) (h.1.length + 1) elt := by
    refine ⟨by omega, by simp, ?_, fun k x hx hxe => ?_⟩
    · rw [hset]
      exact nodup_append_comm.mp (nodup_cons.mpr ⟨helt, hc.nodup⟩)
    · rw [hset, getElem?_append] at hx
      split_ifs at hx
      · exact hc.index k x hx
      · exact absurd (mem_singleton.mp (mem_of_getElem? hx)) hxe
  have := floatUp_sifted compare (h.1.length + 1) hs
  rw [hset] at this
  exact this.congr (perm_append_singleton elt h.1)

lemma Coherent.element (hc : Coherent h) (hx : x ∈ h.1) :
    iscHeapElement h.1 (h.2 x) = some x := by
  obtain ⟨k, hk⟩ := mem_iff_getElem?.mp hx
  rw [hc.index k x hk, iscHeapElement, if_pos (by omega)]
  simpa using hk

lemma sifting_replace {s r : List α} (hnd : (s ++ x :: (r ++ [elt])).Nodup)
    (hidx : ∀ (k : ℕ) y, (s ++ x :: (r ++ [elt]))[k]? = some y → y ≠ x → idx y = k + 1) :
    Sifting (s ++ elt :: r, idx) (s.length + 1) elt := by
  have hset : (s ++ elt :: r).set (s.length + 1 - 1) elt = s ++ elt :: r := by simp
  have hperm : (x :: (s ++ elt :: r)).Perm (s ++ x :: (r ++ [elt])) :=
    perm_middle.symm.trans (((perm_append_singleton elt r).symm.cons x).append_left s)
  have hnd' := hperm.nodup_iff.mpr hnd
  refine ⟨by omega, by simp, ?_, fun k y hy hye => ?_⟩
  · rw [hset]
    exact hnd'.of_cons
  · rw [hset] at hy
    have hyx : y ≠ x := by
      rintro rfl
      exact (nodup_cons.mp hnd').1 (mem_of_getElem? hy)
    refine hidx k y ?_ hyx
    -- `y` is in front of the place of `x` or behind it
    rcases Nat.lt_trichotomy k s.length with hk | rfl | hk
    · rw [getElem?_append_left hk] at hy ⊢
      exact hy
    · simp at hy
      exact absurd hy.symm hye
    · rw [getElem?_append_right (Nat.le_of_lt hk)] at hy ⊢
      obtain ⟨m, hm⟩ : ∃ m, k - s.length = m + 1 := ⟨k - s.length - 1, by omega⟩
      rw [hm, getElem?_cons_succ] at hy ⊢
      rw [List.getElem?_append_left (List.getElem?_eq_some_iff.mp hy).1, hy]

/-- The element `x` at `index` is taken out. It need not know its position any more. -/
lemma iscHeapDelete_sifted {index : ℤ} {t : Indexed α} (hnd : h.1.Nodup)
    (hidx : ∀ (k : ℕ) y, h.1[k]? = some y → y ≠ x → h.2 y = k + 1)
    (hx : iscHeapElement h.1 index = some x) (ht : iscHeapDelete compare h index = some t) :
    Sifted (h.1.erase x) h.2 t := by
  obtain ⟨l, idx⟩ := h
  have hpos : 1 ≤ index := by
    by_contra hn
    simp [iscHeapElement, hn] at hx
  have hat : l[index.toNat - 1]? = some x := by simpa [iscHeapElement, hpos] using hx
  obtain ⟨s, r, rfl⟩ := append_of_mem (mem_of_getElem? hat)
  have hi : index.toNat = s.length + 1 := by
    have := eq_of_getElem? hnd hat (k := s.length) (by simp)
    omega
  have hxs : x ∉ s := fun h => (nodup_append.mp hnd).2.2 x h x (by simp) rfl
  rw [erase_append_right _ hxs, erase_cons_head]
  rcases eq_nil_or_concat' r with rfl | ⟨r, elt, rfl⟩
  · -- `x` is the last element
    obtain rfl : (s, idx) = t := by simpa [iscHeapDelete, hx, hi] using ht
    rw [append_nil]
    refine ⟨.refl _, ⟨hnd.of_append_left, fun k y hy => ?_⟩, fun _ _ => rfl⟩
    refine hidx k y ?_ (fun h => hxs (h ▸ mem_of_getElem? hy))
    rw [List.getElem?_append_left (List.getElem?_eq_some_iff.mp hy).1, hy]
  · have hset : (s ++ elt :: r).set (s.length + 1 - 1) elt = s ++ elt :: r := by simp
    have hperm : (s ++ elt :: r).Perm (s ++ (r ++ [elt])) :=
      (perm_append_singleton elt r).symm.append_left s
    have hdrop : (s ++ x :: (r ++ [elt])).dropLast.set (s.length + 1 - 1) elt = s ++ elt :: r := by
      rw [← cons_append, ← append_assoc, dropLast_concat]
      simp
    have hlast : (s ++ x :: (r ++ [elt])).getLast? = some elt := by
      rw [← cons_append, ← append_assoc, getLast?_concat]
    have hne : s.length + 1 ≠ (s ++ x :: (r ++ [elt])).length := by simp
    have hs := sifting_replace hnd hidx
    simp only [iscHeapDelete, hx, hi, hlast, hne, hdrop, bind_eq_bind, bind_some, if_false] at ht
    split_ifs at ht
    · have := floatUp_sifted compare (s.length + 1) hs
      rw [hset] at this
      exact some.inj ht ▸ this.congr hperm
    · have := sinkDown_sifted compare (s ++ elt :: r).length hs ht
      rw [hset] at this
      exact this.congr hperm

/-- Nothing is above the top, so the assertion holds when that is taken out. -/
lemma exists_iscHeapDelete_top (hx : h.1.head? = some x) :
    ∃ t, iscHeapDelete compare h 1 = some t := by
  have hne : h.1 ≠ [] := fun hnil => by simp [hnil] at hx
  have htop : iscHeapElement h.1 1 = some x := by simpa [iscHeapElement, head?_eq_getElem?] using hx
  simp only [iscHeapDelete, htop, getLast?_eq_some_getLast hne, bind_eq_bind, bind_some]
  split_ifs with hlast
  · exact ⟨_, rfl⟩
  · exact ⟨_, rfl⟩
  · have hlen := length_pos_iff.mpr hne
    simp only [Int.toNat_one] at hlast
    refine exists_sinkDown compare _ (Nat.le_refl 1) ?_ fun b hi2 => absurd hi2 (by decide)
    rw [length_set, length_dropLast]
    omega

lemma Coherent.index_top (hc : Coherent h) (hx : h.1.head? = some x) : h.2 x = 1 := by
  rw [head?_eq_getElem?] at hx
  exact hc.index 0 x hx

lemma Coherent.exists_delete_top (hc : Coherent h) (hx : h.1.head? = some x) :
    ∃ t, iscHeapDelete compare h (h.2 x) = some t := by
  rw [hc.index_top hx]
  exact exists_iscHeapDelete_top compare hx

lemma Coherent.sifting (hc : Coherent h) (hx : x ∈ h.1) :
    Sifting h (h.2 x).toNat x ∧ h.1.set ((h.2 x).toNat - 1) x = h.1 := by
  obtain ⟨k, hk⟩ := mem_iff_getElem?.mp hx
  obtain ⟨hkl, hkx⟩ := List.getElem?_eq_some_iff.mp hk
  have hidx : (h.2 x).toNat = k + 1 := by rw [hc.index k x hk]; omega
  have hset : h.1.set ((h.2 x).toNat - 1) x = h.1 := by
    rw [hidx, Nat.add_sub_cancel, ← hkx, set_getElem_self]
  refine ⟨⟨by omega, by omega, ?_, fun k y hy _ => ?_⟩, hset⟩
  · rw [hset]; exact hc.nodup
  · rw [hset] at hy; exact hc.index k y hy

lemma iscHeapIncreased_sifted {t : Indexed α} (hc : Coherent h) (hx : x ∈ h.1)
    (ht : iscHeapIncreased compare h (h.2 x) = some t) : Sifted h.1 h.2 t := by
  obtain ⟨hs, hset⟩ := hc.sifting hx
  rw [iscHeapIncreased, hc.element hx] at ht
  have := floatUp_sifted compare (h.2 x).toNat hs
  rw [hset] at this
  exact some.inj ht ▸ this

lemma iscHeapDecreased_sifted {t : Indexed α} (hc : Coherent h) (hx : x ∈ h.1)
    (ht : iscHeapDecreased compare h (h.2 x) = some t) : Sifted h.1 h.2 t := by
  obtain ⟨hs, hset⟩ := hc.sifting hx
  rw [iscHeapDecreased, hc.element hx] at ht
  have := sinkDown_sifted compare h.1.length hs ht
  rwa [hset] at this

end

/-! ### Two heaps whose elements keep one position -/

/-- Two heaps that have no element in common, each coherent. -/
structure Shared (a b : List α) (idx : α → ℤ) : Prop where
  left : Coherent (a, idx)
  right : Coherent (b, idx)
  disjoint : ∀ x ∈ a, x ∉ b

lemma Shared.symm (h : Shared a b idx) : Shared b a idx :=
  ⟨h.right, h.left, fun x hb ha => h.disjoint x ha hb⟩

lemma shared_nil (idx : α → ℤ) : Shared [] [] idx :=
  have h : Coherent ([], idx) := ⟨nodup_nil, fun _ _ hx => by simp at hx⟩
  ⟨h, h, by simp⟩

lemma Coherent.frame {l : List α} {idx' : α → ℤ} (h : Coherent (l, idx))
    (hidx : ∀ x ∈ l, idx' x = idx x) : Coherent (l, idx') :=
  ⟨h.nodup, fun k x hx => (hidx x (mem_of_getElem? hx)).trans (h.index k x hx)⟩

/-- Each of the two heaps may have told its own elements their positions. -/
lemma Coherent.share {idx' : α → ℤ} (ha : Coherent (a, idx)) (hb : Coherent (b, idx'))
    (hd : ∀ x ∈ a, x ∉ b) : ∃ idx, Shared a b idx :=
  ⟨fun x => if x ∈ a then idx x else idx' x, ha.frame fun x hx => if_pos hx,
    hb.frame fun x hx => if_neg fun hxa => hd x hxa hx, hd⟩

lemma Shared.of_sifted {s : List α} {t : Indexed α} (hb : Coherent (b, idx)) (ht : Sifted s idx t)
    (hs : ∀ x ∈ s, x ∉ b) : Shared t.1 b t.2 :=
  ⟨ht.coherent, hb.frame fun x hx => ht.frame x fun hxs => hs x hxs hx,
    fun x hx => hs x (ht.perm.mem_iff.mp hx)⟩

section

variable (h : Shared a b idx)

include h

lemma Shared.insert (ha : x ∉ a) (hb : x ∉ b) : (iscHeapInsert compare (a, idx) x).1.Perm (x :: a) ∧
      Shared (iscHeapInsert compare (a, idx) x).1 b (iscHeapInsert compare (a, idx) x).2 := by
  have ht := iscHeapInsert_sifted compare h.left ha
  refine ⟨ht.perm, .of_sifted h.right ht fun y hy => ?_⟩
  rcases mem_cons.mp hy with rfl | hy
  · exact hb
  · exact h.disjoint y hy

variable {t : Indexed α}

lemma Shared.delete (ha : x ∈ a) (heq : iscHeapDelete compare (a, idx) (idx x) = some t) :
    (x :: t.1).Perm a ∧ Shared t.1 b t.2 := by
  have ht := iscHeapDelete_sifted compare h.left.nodup
    (fun k y hy _ => h.left.index k y hy) (h.left.element ha) heq
  exact ⟨(ht.perm.cons x).trans (perm_cons_erase ha).symm,
    .of_sifted h.right ht fun y hy => h.disjoint y (mem_of_mem_erase hy)⟩

lemma Shared.increased (ha : x ∈ a) (heq : iscHeapIncreased compare (a, idx) (idx x) = some t) :
    t.1.Perm a ∧ Shared t.1 b t.2 := by
  have ht := iscHeapIncreased_sifted compare h.left ha heq
  exact ⟨ht.perm, .of_sifted h.right ht h.disjoint⟩

lemma Shared.decreased (ha : x ∈ a) (heq : iscHeapDecreased compare (a, idx) (idx x) = some t) :
    t.1.Perm a ∧ Shared t.1 b t.2 := by
  have ht := iscHeapDecreased_sifted compare h.left ha heq
  exact ⟨ht.perm, .of_sifted h.right ht h.disjoint⟩

/-- An element goes to the other heap: it is inserted there, and then deleted at the position
it was told before. -/
lemma Shared.transfer (ha : x ∈ a)
    (heq : iscHeapDelete compare (a, (iscHeapInsert compare (b, idx) x).2) (idx x) = some t) :
    (x :: t.1).Perm a ∧ (iscHeapInsert compare (b, idx) x).1.Perm (x :: b) ∧
      Shared t.1 (iscHeapInsert compare (b, idx) x).1 t.2 := by
  have hins := iscHeapInsert_sifted compare h.right (h.disjoint x ha)
  set ins := iscHeapInsert compare (b, idx) x
  have hframe : ∀ y ∈ a, y ≠ x → ins.2 y = idx y := by
    intro y hy hyx
    refine hins.frame y fun hmem => ?_
    rcases mem_cons.mp hmem with rfl | hyb
    · exact hyx rfl
    · exact h.disjoint y hy hyb
  have ht := iscHeapDelete_sifted (h := (a, ins.2)) compare h.left.nodup
    (fun k y hy hyx => (hframe y (mem_of_getElem? hy) hyx).trans (h.left.index k y hy))
    (h.left.element ha) heq
  refine ⟨(ht.perm.cons x).trans (perm_cons_erase ha).symm, hins.perm,
    .of_sifted hins.coherent ht fun y hy hyi => ?_⟩
  rcases mem_cons.mp (hins.perm.mem_iff.mp hyi) with rfl | hyb
  · exact h.left.nodup.not_mem_erase hy
  · exact h.disjoint y (mem_of_mem_erase hy) hyb

end

end IscDhcp.Heap
