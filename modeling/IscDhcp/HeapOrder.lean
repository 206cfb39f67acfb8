import IscDhcp.Heap

/-!
The order of the heap: no element is older than the one above it. The order may be coarser than
the comparison the heap was made with.
-/

namespace IscDhcp.Heap

open List Option

variable {α : Type} {compare : α → α → Bool} {le : α → α → Prop}

/-- The comparison decides the order, up to elements that are alike. -/
structure Decides (compare : α → α → Bool) (le : α → α → Prop) : Prop where
  trans : ∀ {a b c}, le a b → le b c → le a c
  of_lt : ∀ {a b}, compare a b → le a b
  of_not_lt : ∀ {a b}, ¬ compare a b → le b a

/-- The position above `k` is `k / 2`. -/
def Ordered (le : α → α → Prop) (l : List α) : Prop :=
  ∀ k b x, 2 ≤ k → l[k / 2 - 1]? = some b → l[k - 1]? = some x → le b x

/-- All but the element at position `i` are in order. -/
structure OrderedBut (le : α → α → Prop) (l : List α) (i : ℕ) : Prop where
  off : ∀ k b x, 2 ≤ k → k ≠ i → k / 2 ≠ i → l[k / 2 - 1]? = some b → l[k - 1]? = some x → le b x
  across : ∀ k b x, 2 ≤ i → k / 2 = i → l[i / 2 - 1]? = some b → l[k - 1]? = some x → le b x

/-- `elt` belongs at position `i` or above it. -/
structure UpOrder (le : α → α → Prop) (l : List α) (i : ℕ) (elt : α) : Prop
    extends OrderedBut le l i where
  below : ∀ k x, k / 2 = i → l[k - 1]? = some x → le elt x

/-- `elt` belongs at position `i` or below it. -/
structure DownOrder (le : α → α → Prop) (l : List α) (i : ℕ) (elt : α) : Prop
    extends OrderedBut le l i where
  above : ∀ b, 2 ≤ i → l[i / 2 - 1]? = some b → le b elt

variable {l : List α} {i : ℕ} {elt : α} {index : ℤ}

lemma getElem?_set_cases {k : ℕ} {b x : α} (hi : 1 ≤ i) (hk : 1 ≤ k)
    (h : (l.set (i - 1) b)[k - 1]? = some x) : k = i ∧ x = b ∨ k ≠ i ∧ l[k - 1]? = some x := by
  by_cases hki : k = i
  · subst hki
    rw [getElem?_set_self'] at h
    rcases hl : l[k - 1]? with _ | y
    · simp [hl] at h
    · exact .inl ⟨rfl, by simpa [hl] using h.symm⟩
  · rw [getElem?_set_ne (by omega)] at h
    exact .inr ⟨hki, h⟩

lemma OrderedBut.set (h : OrderedBut le l i) (hi : 1 ≤ i) (b : α) :
    OrderedBut le (l.set (i - 1) b) i where
  off k c x hk hki hpi hc hx := by
    rcases getElem?_set_cases hi (by omega) hc with ⟨rfl, -⟩ | ⟨-, hc⟩
    · exact absurd rfl hpi
    rcases getElem?_set_cases hi (by omega) hx with ⟨rfl, -⟩ | ⟨-, hx⟩
    · exact absurd rfl hki
    exact h.off k c x hk hki hpi hc hx
  across k c x hi2 hki hc hx := by
    rcases getElem?_set_cases hi (by omega) hc with ⟨he, -⟩ | ⟨-, hc⟩
    · omega
    rcases getElem?_set_cases hi (by omega) hx with ⟨he, -⟩ | ⟨-, hx⟩
    · omega
    exact h.across k c x hi2 hki hc hx

lemma OrderedBut.finish (h : OrderedBut le l i) (hi : 1 ≤ i)
    (habove : ∀ b, 2 ≤ i → l[i / 2 - 1]? = some b → le b elt)
    (hbelow : ∀ k x, k / 2 = i → l[k - 1]? = some x → le elt x) :
    Ordered le (l.set (i - 1) elt) := by
  intro k b x hk hb hx
  rcases getElem?_set_cases hi (by omega) hx with ⟨rfl, rfl⟩ | ⟨hki, hx⟩
  · rcases getElem?_set_cases hi (by omega) hb with ⟨he, -⟩ | ⟨-, hb⟩
    · omega
    · exact habove b hk hb
  · rcases getElem?_set_cases hi (by omega) hb with ⟨hpi, hbe⟩ | ⟨hpi, hb⟩
    · exact hbe ▸ hbelow k x hpi hx
    · exact h.off k b x hk hki hpi hb hx

lemma smallestChild_none {k : ℕ} (h : smallestChild compare l i = none) (hk : k / 2 = i) :
    l[k - 1]? = none := by
  unfold smallestChild at h
  rcases hb : l[2 * i - 1]? with _ | b'
  · rw [getElem?_eq_none_iff] at hb ⊢
    omega
  · rcases hc : l[2 * i + 1 - 1]? with _ | c <;>
      simp only [hb, hc, bind_eq_bind, bind_some, reduceCtorEq] at h

lemma ordered_nil : Ordered le ([] : List α) := fun k b x _ hb => by simp at hb

lemma iscHeapElement_eq_some {x : α} (h : iscHeapElement l index = some x) :
    1 ≤ index.toNat ∧ index.toNat ≤ l.length ∧ l[index.toNat - 1]? = some x := by
  unfold iscHeapElement at h
  split_ifs at h with hpos
  have := (List.getElem?_eq_some_iff.mp h).1
  exact ⟨by omega, by omega, h⟩

lemma Ordered.dropLast (ho : Ordered le l) : Ordered le l.dropLast := by
  have hof : ∀ k x, l.dropLast[k]? = some x → l[k]? = some x := fun k x hx => by
    rw [dropLast_eq_take, getElem?_take] at hx
    split_ifs at hx
    exact hx
  exact fun k b x hk hb hx => ho k b x hk (hof _ b hb) (hof _ x hx)

section

variable (hd : Decides compare le)

include hd

lemma Ordered.but (h : Ordered le l) (hil : i ≤ l.length) : OrderedBut le l i where
  off k b x hk _ _ := h k b x hk
  across k b x hi2 hki hb hx := by
    have hat : l[i - 1]? = some l[i - 1] := getElem?_eq_getElem (by omega)
    exact hd.trans (h i b _ hi2 hb hat) (h k _ x (by omega) (by rw [hki]; exact hat) hx)

/-! ### Floating up -/

lemma UpOrder.move {b : α} (h : UpOrder le l i elt) (hi : 2 ≤ i)
    (hb : l[i / 2 - 1]? = some b) (hlt : compare elt b) :
    UpOrder le (l.set (i - 1) b) (i / 2) elt := by
  -- the other element below `b` and those below position `i` come after `b`
  have hsib : ∀ k x, k / 2 = i / 2 → k ≠ i → l[k - 1]? = some x → le b x := fun k x hk hki hx =>
    h.off k b x (by omega) hki (by omega) (by rw [hk]; exact hb) hx
  refine ⟨⟨fun k c x hk hki hpi hc hx => ?_, fun k c x hi2 hki hc hx => ?_⟩, fun k x hki hx => ?_⟩
  · rcases getElem?_set_cases (by omega) (by omega) hx with ⟨rfl, -⟩ | ⟨hki', hx⟩
    · exact absurd rfl hpi
    · rcases getElem?_set_cases (by omega) (by omega) hc with ⟨hpi', hcb⟩ | ⟨hpi', hc⟩
      · exact hcb ▸ h.across k b x hi hpi' hb hx
      · exact h.off k c x hk hki' hpi' hc hx
  · rcases getElem?_set_cases (by omega) (by omega) hc with ⟨he, -⟩ | ⟨-, hc⟩
    · omega
    have hcb : le c b := h.off (i / 2) c b hi2 (by omega) (by omega) hc hb
    rcases getElem?_set_cases (by omega) (by omega) hx with ⟨rfl, rfl⟩ | ⟨hki', hx⟩
    · exact hcb
    · exact hd.trans hcb (hsib k x hki hki' hx)
  · rcases getElem?_set_cases (by omega) (by omega) hx with ⟨rfl, rfl⟩ | ⟨hki', hx⟩
    · exact hd.of_lt hlt
    · exact hd.trans (hd.of_lt hlt) (hsib k x hki hki' hx)

variable [DecidableEq α]

lemma floatUp_ordered (fuel : ℕ) {h : Indexed α}
    (ho : UpOrder le h.1 i elt) (hi : 1 ≤ i) (hfuel : i ≤ fuel) :
    Ordered le (floatUp compare fuel h i elt).1 := by
  induction fuel generalizing h i with
  | zero => omega
  | succ fuel ih =>
    rw [floatUp]
    split_ifs with hi2
    · split
      · rename_i hnone
        exact ho.finish hi (fun b _ hb => by rw [hnone] at hb; cases hb) ho.below
      · rename_i b hb
        split_ifs with hlt
        · exact ih (ho.move hd hi2 hb hlt) (by omega) (by omega)
        · refine ho.finish hi (fun c _ hc => ?_) ho.below
          rw [hb] at hc
          exact some.inj hc ▸ hd.of_not_lt hlt
    · exact ho.finish hi (fun b hi' _ => absurd hi' (by omega)) ho.below

/-! ### Sinking down -/

lemma smallestChild_le {j : ℕ} {b : α}
    (h : smallestChild compare l i = some (j, b)) {k : ℕ} {x : α} (hk : k / 2 = i) (hkj : k ≠ j)
    (hx : l[k - 1]? = some x) : le b x :=
  ((smallestChild_spec compare h).2.2 k x hk hkj hx).elim hd.of_lt hd.of_not_lt

lemma DownOrder.move {j : ℕ} {b : α} (h : DownOrder le l i elt)
    (hi : 1 ≤ i) (hj : smallestChild compare l i = some (j, b)) (hlt : ¬ compare elt b) :
    DownOrder le (l.set (i - 1) b) j elt := by
  obtain ⟨hji, hb, -⟩ := smallestChild_spec compare hj
  have hpj : j / 2 = i := by omega
  refine ⟨⟨fun k c x hk hkj hpj' hc hx => ?_, fun k c x hj2 hkj hc hx => ?_⟩, fun c hj2 hc => ?_⟩
  · rcases getElem?_set_cases (by omega) (by omega) hx with ⟨rfl, rfl⟩ | ⟨hki, hx⟩
    · rcases getElem?_set_cases (by omega) (by omega) hc with ⟨he, -⟩ | ⟨-, hc⟩
      · omega
      · exact h.across j c _ hk hpj hc hb
    · rcases getElem?_set_cases (by omega) (by omega) hc with ⟨hpi, hcb⟩ | ⟨hpi, hc⟩
      · exact hcb ▸ smallestChild_le hd hj hpi hkj hx
      · exact h.off k c x hk hki hpi hc hx
  · rw [hpj] at hc
    rcases getElem?_set_cases (by omega) (by omega) hc with ⟨-, rfl⟩ | ⟨he, -⟩
    · rcases getElem?_set_cases (by omega) (by omega) hx with ⟨he, -⟩ | ⟨-, hx⟩
      · omega
      · exact h.off k _ x (by omega) (by omega) (by omega) (by rw [hkj]; exact hb) hx
    · exact absurd rfl he
  · rw [hpj] at hc
    rcases getElem?_set_cases (by omega) (by omega) hc with ⟨-, rfl⟩ | ⟨he, -⟩
    · exact hd.of_not_lt hlt
    · exact absurd rfl he

lemma sinkDown_ordered (fuel : ℕ) {h t : Indexed α}
    (ho : DownOrder le h.1 i elt) (hi : 1 ≤ i) (hil : i ≤ h.1.length)
    (hfuel : h.1.length < fuel + i) (ht : sinkDown compare fuel h i elt = some t) :
    Ordered le t.1 := by
  induction fuel generalizing h i with
  | zero => omega
  | succ fuel ih =>
    rw [sinkDown] at ht
    split at ht
    · rename_i hnone
      rw [eq_of_settle compare ht]
      refine ho.finish hi ho.above fun k x hk hx => ?_
      rw [smallestChild_none hnone hk] at hx
      cases hx
    · rename_i j b hj
      obtain ⟨hji, hb, -⟩ := smallestChild_spec compare hj
      have hjl := (List.getElem?_eq_some_iff.mp hb).1
      split_ifs at ht with hlt
      · rw [eq_of_settle compare ht]
        refine ho.finish hi ho.above fun k x hk hx => ?_
        by_cases hkj : k = j
        · rw [hkj, hb] at hx
          exact some.inj hx ▸ hd.of_lt hlt
        · exact hd.trans (hd.of_lt hlt) (smallestChild_le hd hj hk hkj hx)
      · refine ih (ho.move hd hi hj hlt) (by omega) ?_ ?_ ht <;> rw [place_fst, length_set] <;>
          omega

/-! ### The operations -/

lemma iscHeapInsert_ordered {h : Indexed α} (ho : Ordered le h.1)
    (elt : α) : Ordered le (iscHeapInsert compare h elt).1 := by
  have hlast : ∀ k x, k < h.1.length + 1 → 1 ≤ k → (h.1 ++ [elt])[k - 1]? = some x →
      h.1[k - 1]? = some x := fun k x hk hk1 hx => by
    rwa [List.getElem?_append_left (by omega)] at hx
  have hle : ∀ k x, (h.1 ++ [elt])[k - 1]? = some x → k ≤ h.1.length + 1 := fun k x hx => by
    have := (List.getElem?_eq_some_iff.mp hx).1
    simp only [List.length_append, List.length_singleton] at this
    omega
  refine floatUp_ordered hd _ ⟨⟨fun k b x hk hki _ hb hx => ?_, fun k b x _ hk _ hx => ?_⟩,
    fun k x hk hx => ?_⟩ (by omega) (Nat.le_refl _)
  · have := hle k x hx
    exact ho k b x hk (hlast _ b (by omega) (by omega) hb) (hlast k x (by omega) (by omega) hx)
  · have := hle k x hx
    omega
  · have := hle k x hx
    omega

lemma iscHeapDelete_ordered {h t : Indexed α} (ho : Ordered le h.1)
    (ht : iscHeapDelete compare h index = some t) : Ordered le t.1 := by
  obtain ⟨old, hold, ht⟩ := bind_eq_some_iff.mp ht
  obtain ⟨elt, helt, ht⟩ := bind_eq_some_iff.mp ht
  obtain ⟨hi, hil, hat⟩ := iscHeapElement_eq_some hold
  by_cases hlast : index.toNat = h.1.length
  · rw [if_pos hlast] at ht
    cases ht
    exact ho.dropLast
  · rw [if_neg hlast] at ht
    have hil' : index.toNat ≤ h.1.dropLast.length := by rw [length_dropLast]; omega
    have hbut := (ho.dropLast.but hd hil').set hi elt
    have hat' : h.1.dropLast[index.toNat - 1]? = some old := by
      rw [dropLast_eq_take, getElem?_take, if_pos (by omega), hat]
    split_ifs at ht with hlt
    · cases ht
      refine floatUp_ordered hd _ ⟨hbut, fun k x hk hx => ?_⟩ hi (Nat.le_refl _)
      rcases getElem?_set_cases hi (by omega) hx with ⟨he, -⟩ | ⟨-, hx⟩
      · omega
      · exact hd.trans (hd.of_lt hlt) (ho.dropLast k old x (by omega) (by rw [hk]; exact hat') hx)
    · refine sinkDown_ordered hd _ ⟨hbut, fun b hi2 hb => ?_⟩ hi (by simpa using hil')
        (by dsimp only; omega) ht
      rcases getElem?_set_cases hi (by omega) hb with ⟨he, -⟩ | ⟨-, hb⟩
      · omega
      · exact hd.trans (ho.dropLast _ b old hi2 hb hat') (hd.of_not_lt hlt)

lemma iscHeapIncreased_ordered {h t : Indexed α}
    (helt : iscHeapElement h.1 index = some elt) (hbut : OrderedBut le h.1 index.toNat)
    (hbelow : ∀ k x, k / 2 = index.toNat → h.1[k - 1]? = some x → le elt x)
    (ht : iscHeapIncreased compare h index = some t) : Ordered le t.1 := by
  simp only [iscHeapIncreased, helt, Option.bind_eq_bind, Option.bind_some, Option.pure_def,
    Option.some.injEq] at ht
  subst ht
  exact floatUp_ordered hd _ ⟨hbut, hbelow⟩ (iscHeapElement_eq_some helt).1 (Nat.le_refl _)

lemma iscHeapDecreased_ordered {h t : Indexed α}
    (helt : iscHeapElement h.1 index = some elt) (hbut : OrderedBut le h.1 index.toNat)
    (habove : ∀ b, 2 ≤ index.toNat → h.1[index.toNat / 2 - 1]? = some b → le b elt)
    (ht : iscHeapDecreased compare h index = some t) : Ordered le t.1 := by
  rw [iscHeapDecreased, helt] at ht
  obtain ⟨hi, hil, -⟩ := iscHeapElement_eq_some helt
  exact sinkDown_ordered hd _ ⟨hbut, habove⟩ hi hil (by omega) ht

lemma Ordered.head_le {top : α} (ho : Ordered le l) (hrefl : le top top)
    (htop : l.head? = some top) {x : α} (hx : x ∈ l) : le top x := by
  obtain ⟨n, hn⟩ := mem_iff_getElem?.mp hx
  -- by induction on the position, through the element above
  induction n using Nat.strongRecOn generalizing x with
  | ind n ih =>
    rcases Nat.eq_zero_or_pos n with rfl | hpos
    · rw [← head?_eq_getElem?, htop] at hn
      exact some.inj hn ▸ hrefl
    · have hlt : (n + 1) / 2 - 1 < l.length := by
        have := (List.getElem?_eq_some_iff.mp hn).1
        omega
      have hb := getElem?_eq_getElem hlt
      exact hd.trans (ih _ (by omega) (mem_of_getElem? hb) hb) (ho (n + 1) _ x (by omega) hb hn)

end

end IscDhcp.Heap
