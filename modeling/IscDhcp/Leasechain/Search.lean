import IscDhcp.Leasechain

/-!
The binary searches of the leasechain: on a sorted array the insertion point splits the
entries by their keys, and a lease of the array is found, even among entries of equal keys.
-/

namespace IscDhcp.Leasechain

open IscDhcp.Lib List Option

variable {α : Type}

def key (s : St α) (a : α) : Time ×ₗ Long := toLex (s.sortTime a, s.sortTiebreaker a)

lemma sortsAfter_iff (s : St α) (a b : α) : sortsAfter s a b = true ↔ key s b < key s a := by
  simp only [sortsAfter, Prod.Lex.lt_iff, Bool.or_eq_true, Bool.and_eq_true, decide_eq_true_eq,
    beq_iff_eq]
  exact or_congr_right (and_congr_left' eq_comm)

lemma key_eq_of_not_after {a b : α} (h₁ : ¬ sortsAfter s a b = true)
    (h₂ : ¬ sortsAfter s b a = true) : key s a = key s b := by
  rw [sortsAfter_iff] at h₁ h₂
  exact le_antisymm (not_lt.mp h₁) (not_lt.mp h₂)

lemma differs_iff {lp a : α} : differs s lp a = true ↔ key s a ≠ key s lp := by
  simp only [differs, key, ne_eq, EmbeddingLike.apply_eq_iff_eq, Prod.mk.injEq,
    Bool.or_eq_true, Bool.and_eq_true, bne_iff_ne, beq_iff_eq]
  tauto

/-- The array holds the leases of `l`, in this order. -/
structure Slots (s : St α) (l : List α) : Prop where
  len : l.length = s.nelem
  get : ∀ i < s.nelem, s.list i = l[i]?

/-- The leases of `l` are in order of their keys. -/
def Sorted (s : St α) (l : List α) : Prop := l.Pairwise fun a b => key s a ≤ key s b

variable {i : ℕ}

lemma Sorted.get_le (h : Sorted s l) {j : ℕ} {a b : α} (hij : i ≤ j) (ha : l[i]? = some a)
    (hb : l[j]? = some b) : key s a ≤ key s b := by
  obtain ⟨hi, rfl⟩ := List.getElem?_eq_some_iff.mp ha
  obtain ⟨hj, rfl⟩ := List.getElem?_eq_some_iff.mp hb
  rcases Nat.lt_or_eq_of_le hij with hlt | rfl
  · exact List.pairwise_iff_getElem.mp h i j hi hj hlt
  · exact le_rfl

lemma Slots.some_of_lt (h : Slots s l) (hi : i < s.nelem) :
    ∃ a, s.list i = some a ∧ l[i]? = some a := by
  rw [← h.len] at hi
  exact ⟨l[i], by rw [h.get i (h.len ▸ hi)]; exact getElem?_eq_getElem hi, getElem?_eq_getElem hi⟩

lemma Slots.nelem_ne_zero (h : Slots s l) {a : α} (ha : a ∈ l) : s.nelem ≠ 0 := by
  rw [← h.len]
  exact (length_pos_of_mem ha).ne'

lemma Slots.entry (h : Slots s l) (hi : i < s.nelem) :
    ∃ a, entry s i = some a ∧ l[i]? = some a := by
  obtain ⟨a, ha, hla⟩ := h.some_of_lt hi
  exact ⟨a, by rw [Leasechain.entry, if_pos hi, ha], hla⟩

lemma memmove_of_lt {list : ℕ → Option α} {dst src cnt : ℕ} (h : i < dst) :
    memmove list dst src cnt i = list i := if_neg (by omega)

lemma memmove_of_mem {list : ℕ → Option α} {dst src cnt : ℕ} (h : dst ≤ i) (h' : i < dst + cnt) :
    memmove list dst src cnt i = list (src + (i - dst)) := if_pos ⟨h, h'⟩

/-! ### The searches -/

variable {s : St α} {l : List α} {lp : α}

/-- `p` splits the array into the entries that do not sort after `lp` and those that do not
sort before it. -/
def Splits (s : St α) (l : List α) (lp : α) (p : ℕ) : Prop :=
  p ≤ l.length ∧ (∀ i < p, ∀ a, l[i]? = some a → key s a ≤ key s lp) ∧
    ∀ i ≥ p, ∀ a, l[i]? = some a → key s lp ≤ key s a

lemma insertPoint_spec (lp : α) (hs : Slots s l) (ho : Sorted s l) {fuel min max : ℕ}
    (hmm : min ≤ max) (hmax : max < s.nelem) (hf : max - min < fuel)
    (hlo : ∀ i < min, ∀ a, l[i]? = some a → key s a ≤ key s lp)
    (hhi : ∀ i > max, ∀ a, l[i]? = some a → key s lp ≤ key s a) :
    ∃ p, lcBinarySearchInsertPoint s lp fuel min max = some p ∧ Splits s l lp p := by
  induction fuel generalizing min max with
  | zero => omega
  | succ fuel ih =>
    obtain ⟨mid, hmid⟩ : ∃ mid, mid = (max - min) / 2 + min := ⟨_, rfl⟩
    obtain ⟨a, ha, hla⟩ := hs.some_of_lt (i := mid) (by omega)
    have hlen := hs.len
    simp only [lcBinarySearchInsertPoint, ← hmid, ha, bind_eq_bind, bind_some]
    by_cases h1 : sortsAfter s a lp = true
    · have hup : ∀ i ≥ mid, ∀ b, l[i]? = some b → key s lp ≤ key s b := fun i hi b hb =>
        ((sortsAfter_iff s a lp).mp h1).le.trans (ho.get_le hi hla hb)
      rw [if_pos h1]
      by_cases hm : mid = min
      · rw [if_pos hm]
        exact ⟨min, rfl, by omega, hlo, hm ▸ hup⟩
      · rw [if_neg hm]
        exact ih (by omega) (by omega) (by omega) hlo fun i hi => hup i (by omega)
    · rw [if_neg h1]
      by_cases h2 : sortsAfter s lp a = true
      · have hdn : ∀ i ≤ mid, ∀ b, l[i]? = some b → key s b ≤ key s lp := fun i hi b hb =>
          (ho.get_le hi hb hla).trans ((sortsAfter_iff s lp a).mp h2).le
        rw [if_pos h2]
        by_cases hm : mid = max
        · rw [if_pos hm]
          exact ⟨mid + 1, rfl, by omega, fun i hi => hdn i (by omega), fun i hi =>
            hhi i (by omega)⟩
        · rw [if_neg hm]
          exact ih (by omega) (by omega) (by omega) (fun i hi => hdn i (by omega)) hhi
      · rw [if_neg h2]
        have he := key_eq_of_not_after h1 h2
        exact ⟨mid, rfl, by omega, fun i hi b hb => he ▸ ho.get_le (by omega) hb hla,
          fun i hi b hb => he ▸ ho.get_le hi hla hb⟩

variable [DecidableEq α]

/-- What a search of the entries `min` to `max` has to return. -/
def Finds (l : List α) (lp : α) (min max : ℕ) : Option ℕ → Prop
  | some j => l[j]? = some lp
  | none => ∀ k, min ≤ k → k ≤ max → l[k]? ≠ some lp

omit [DecidableEq α] in
lemma Finds.mono {a b min max : ℕ} {r : Option ℕ} (h : Finds l lp a b r)
    (hle : ∀ k, min ≤ k → k ≤ max → l[k]? = some lp → a ≤ k ∧ k ≤ b) : Finds l lp min max r := by
  cases r with
  | none => exact fun k hk hkm hlk => h k (hle k hk hkm hlk).1 (hle k hk hkm hlk).2 hlk
  | some j => exact h

lemma searchBelow_spec (lp : α) (hs : Slots s l) (ho : Sorted s l) {min : ℕ} (hmin : min ≤ i)
    (hi : i < s.nelem) (hle : ∀ a, l[i]? = some a → key s a ≤ key s lp) :
    ∃ r, searchBelow s lp min i = some r ∧ Finds l lp min i r := by
  induction i with
  | zero =>
    obtain ⟨a, ha, hla⟩ := hs.entry hi
    simp only [searchBelow, ha]
    by_cases he : a = lp
    · exact ⟨_, rfl, by rw [if_pos he]; exact he ▸ hla⟩
    · refine ⟨_, rfl, ?_⟩
      rw [if_neg he]
      intro k _ hk hlk
      obtain rfl : k = 0 := by omega
      exact he (some.inj (hla.symm.trans hlk))
  | succ i ih =>
    obtain ⟨a, ha, hla⟩ := hs.entry hi
    simp only [searchBelow, ha, bind_eq_bind, bind_some]
    by_cases he : a = lp
    · exact ⟨_, if_pos he, he ▸ hla⟩
    · rw [if_neg he]
      -- `lp` is not at `i + 1`, so what is left is below
      have hbelow : ∀ k, k ≤ i + 1 → l[k]? = some lp → k ≤ i := fun k hk hlk => by
        have hne : k ≠ i + 1 := fun h => he (some.inj (hla.symm.trans (h ▸ hlk)))
        omega
      by_cases hend : i + 1 = min
      · refine ⟨_, if_pos (by simp [hend]), fun k hmk hk hlk => ?_⟩
        have := hbelow k hk hlk
        omega
      · by_cases hkey : key s a = key s lp
        · rw [if_neg (by simp [hend, differs_iff, hkey])]
          obtain ⟨r, hr, hf⟩ := ih (by omega) (by omega) fun b hb =>
            hkey ▸ ho.get_le (by omega) hb hla
          exact ⟨r, hr, hf.mono fun k hmk hk hlk => ⟨hmk, hbelow k hk hlk⟩⟩
        · refine ⟨_, if_pos (by simp [differs_iff, hkey]), fun k hmk hk hlk => ?_⟩
          have hka := ho.get_le hk hlk hla
          exact hkey (le_antisymm (hle a hla) hka)

lemma searchAbove_spec (lp : α) (hs : Slots s l) (ho : Sorted s l) {n : ℕ} (hn : i + n ≤ s.nelem)
    (hle : ∀ a, l[i]? = some a → key s lp ≤ key s a) :
    ∃ r, searchAbove s lp n i = some r ∧ ∀ max, max < i + n → Finds l lp i max r := by
  induction n generalizing i with
  | zero => exact ⟨none, rfl, fun max hmax k hk hkm => by omega⟩
  | succ n ih =>
    obtain ⟨a, ha, hla⟩ := hs.entry (i := i) (by omega)
    simp only [searchAbove, ha, bind_eq_bind, bind_some]
    by_cases he : a = lp
    · exact ⟨_, if_pos he, fun _ _ => he ▸ hla⟩
    · rw [if_neg he]
      have habove : ∀ k, i ≤ k → l[k]? = some lp → i + 1 ≤ k := fun k hk hlk => by
        have hne : k ≠ i := fun h => he (some.inj (hla.symm.trans (h ▸ hlk)))
        omega
      by_cases hkey : key s a = key s lp
      · rw [if_neg (by simp [differs_iff, hkey])]
        obtain ⟨r, hr, hf⟩ := ih (i := i + 1) (by omega) fun b hb =>
          hkey ▸ ho.get_le (by omega) hla hb
        exact ⟨r, hr, fun max hmax => (hf max (by omega)).mono fun k hk hkm hlk =>
          ⟨habove k hk hlk, hkm⟩⟩
      · refine ⟨_, if_pos (by simp [differs_iff, hkey]), fun max hmax k hk hkm hlk => ?_⟩
        have hak := ho.get_le hk hla hlk
        exact hkey (le_antisymm hak (hle a hla))

lemma searchAround_spec (hs : Slots s l) (ho : Sorted s l) {min mid max : ℕ} (hmin : min ≤ mid)
    (hmax : mid ≤ max) (hn : max < s.nelem) {a : α} (hla : l[mid]? = some a) (hne : a ≠ lp)
    (hkey : key s a = key s lp) :
    ∃ r, searchAround s lp min mid max = some r ∧ Finds l lp min max r := by
  have below : ∃ r, (if min < mid then searchBelow s lp min (mid - 1) else some none) = some r ∧
      (r = none → ∀ k, min ≤ k → k < mid → l[k]? ≠ some lp) ∧ ∀ j, r = some j → l[j]? =
        some lp := by
    by_cases hlt : min < mid
    · obtain ⟨r, hr, hf⟩ := searchBelow_spec lp hs ho (show min ≤ mid - 1 by omega)
        (by omega) fun b hb => hkey ▸ ho.get_le (by omega) hb hla
      refine ⟨r, by rw [if_pos hlt, hr], ?_, ?_⟩
      · rintro rfl k hk hkm
        exact hf k hk (by omega)
      · rintro j rfl
        exact hf
    · exact ⟨none, if_neg hlt, fun _ k hk hkm => by omega, nofun⟩
  obtain ⟨r, hr, hnone, hsome⟩ := below
  unfold searchAround
  rw [hr]
  cases r with
  | some j => exact ⟨some j, rfl, hsome j rfl⟩
  | none =>
    -- `lp` is neither below nor at `mid`
    have habove : ∀ k, min ≤ k → l[k]? = some lp → mid + 1 ≤ k := fun k hk hlk => by
      have h1 : ¬ k < mid := fun h => hnone rfl k hk h hlk
      have h2 : k ≠ mid := fun h => hne (some.inj (hla.symm.trans (h ▸ hlk)))
      omega
    by_cases hlt : mid < max
    · obtain ⟨r, hr, hf⟩ := searchAbove_spec lp hs ho (n := max - mid) (i := mid + 1)
        (by omega) fun b hb => hkey ▸ ho.get_le (by omega) hla hb
      exact ⟨r, by rw [if_pos hlt, hr], (hf max (by omega)).mono fun k hk hkm hlk =>
        ⟨habove k hk hlk, hkm⟩⟩
    · refine ⟨none, if_neg hlt, fun k hk hkm hlk => ?_⟩
      have := habove k hk hlk
      omega

/-- The search finds a lease that is in its range, and reads no entry outside of it. -/
lemma searchLease_spec (lp : α) (hs : Slots s l) (ho : Sorted s l) {fuel min max : ℕ}
    (hn : max < s.nelem) (hf : max + 1 - min < fuel) :
    ∃ r, lcBinarySearchLease s lp fuel min max = some r ∧ Finds l lp min max r := by
  induction fuel generalizing min max with
  | zero => omega
  | succ fuel ih =>
    rw [lcBinarySearchLease]
    by_cases hmm : max < min
    · exact ⟨none, if_pos hmm, fun k hk hkm => by omega⟩
    · rw [if_neg hmm]
      obtain ⟨mid, hmid⟩ : ∃ mid, mid = (max - min) / 2 + min := ⟨_, rfl⟩
      obtain ⟨a, ha, hla⟩ := hs.entry (i := mid) (by omega)
      simp only [← hmid, ha, bind_eq_bind, bind_some]
      by_cases h1 : sortsAfter s a lp = true
      · -- `lp` sorts before the entry in the middle
        have hbelow : ∀ k, l[k]? = some lp → k < mid := fun k hlk => by
          by_contra hc
          exact absurd (ho.get_le (not_lt.mp hc) hla hlk)
            (not_le.mpr ((sortsAfter_iff s a lp).mp h1))
        rw [if_pos h1]
        by_cases hm : mid = min
        · refine ⟨none, if_pos hm, fun k hk _ hlk => ?_⟩
          have := hbelow k hlk
          omega
        · rw [if_neg hm]
          obtain ⟨r, hr, hf⟩ := ih (show mid - 1 < s.nelem by omega)
            (show mid - 1 + 1 - min < fuel by omega)
          exact ⟨r, hr, hf.mono fun k hk _ hlk => ⟨hk, Nat.le_sub_one_of_lt (hbelow k hlk)⟩⟩
      · rw [if_neg h1]
        by_cases h2 : sortsAfter s lp a = true
        · have habove : ∀ k, l[k]? = some lp → mid < k := fun k hlk => by
            by_contra hc
            exact absurd (ho.get_le (not_lt.mp hc) hlk hla)
              (not_le.mpr ((sortsAfter_iff s lp a).mp h2))
          rw [if_pos h2]
          obtain ⟨r, hr, hf⟩ := ih hn (show max + 1 - (mid + 1) < fuel by omega)
          exact ⟨r, hr, hf.mono fun k _ hkm hlk => ⟨habove k hlk, hkm⟩⟩
        · rw [if_neg h2]
          by_cases he : a = lp
          · exact ⟨_, if_pos he, he ▸ hla⟩
          · rw [if_neg he]
            exact searchAround_spec hs ho (by omega) (by omega) hn hla he
              (key_eq_of_not_after h1 h2)

lemma searchLease_all (lp : α) (hs : Slots s l) (ho : Sorted s l) (hpos : s.nelem ≠ 0)
    {fuel : ℕ} (hf : s.nelem < fuel) : ∃ r, lcBinarySearchLease s lp fuel 0 (lastIndex s) = some r ∧
      (∀ j, r = some j → l[j]? = some lp) ∧ (r = none → lp ∉ l) := by
  rw [lastIndex, if_neg hpos]
  obtain ⟨r, hr, hfind⟩ := searchLease_spec lp hs ho
    (show s.nelem - 1 < s.nelem by omega) (show s.nelem - 1 + 1 - 0 < fuel by omega)
  refine ⟨r, hr, ?_, ?_⟩
  · rintro j rfl
    exact hfind
  · rintro rfl hmem
    obtain ⟨k, hk, hlk⟩ := getElem_of_mem hmem
    have hlen := hs.len
    exact hfind k (Nat.zero_le k) (by omega) (by rw [getElem?_eq_getElem hk, hlk])

end IscDhcp.Leasechain
