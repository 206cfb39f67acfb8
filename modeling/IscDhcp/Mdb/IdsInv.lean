import IscDhcp.Mdb.Ids

/-!
The chains of leases by identifier: what adding and deleting a lease does to them, and what
every sequence of these calls keeps true.
-/

namespace IscDhcp

open IscDhcp.Lib Function
open List hiding beq_eq_decide

lemma ne_nil_of_uidRefused (k : Bytes) (h : uidRefused k = false) : k ≠ [] := by
  rintro rfl
  cases h

lemma ne_nil_of_hwRefused (k : Bytes) (h : hwRefused k = false) : k ≠ [] := by
  rintro rfl
  cases h

variable {ι : Type}

namespace Ids

/-- For each identifier that is looked up, the hash table and the links hold the leases
`chain k`: those that are `linked` and have this identifier. -/
structure Holds (refused : Bytes → Bool) (key : ι → Bytes) (linked : ι → Prop) (ids : Ids ι)
    (chain : Bytes → List ι) : Prop where
  wf : ids.table.Wf fun k => refused k = false
  seg : ∀ k, refused k = false → Chain ids.next (ids.table.lookup doIdHash k) (chain k)
  mem : ∀ k, refused k = false → ∀ i, i ∈ chain k ↔ linked i ∧ key i = k
  off : ∀ i, ¬ linked i → ids.next i = none

variable {refused : Bytes → Bool} {key : ι → Bytes} {linked : ι → Prop} {ids : Ids ι}
  {chain : Bytes → List ι} {i : ι}

lemma Holds.lookup_eq (h : Holds refused key linked ids chain) {k : Bytes}
    (hk : refused k = false) : ids.table.lookup doIdHash k = (chain k).head? := (h.seg k hk).head?

lemma Holds.find_eq (h : Holds refused key linked ids chain) {k : Bytes} (hk : refused k = false) :
    ids.find refused k = (chain k).head? := by
  rw [find, if_neg (by simp [hk]), h.lookup_eq hk]

lemma Holds.congr {key' : ι → Bytes} {linked' : ι → Prop} {chain' : Bytes → List ι}
    (h : Holds refused key linked ids chain) (hl : ∀ j, linked' j ↔ linked j)
    (hkey : ∀ j, linked j → key' j = key j) (hc : ∀ k, refused k = false → chain' k = chain k) :
    Holds refused key' linked' ids chain' := by
  refine ⟨h.wf, fun k hk => ?_, fun k hk j => ?_, fun j hj => h.off j (by rwa [← hl j])⟩
  · rw [hc k hk]
    exact h.seg k hk
  · rw [hc k hk, h.mem k hk, hl j]
    exact and_congr_right fun hj => by rw [hkey j hj]

lemma Holds.ne_of_mem (h : Holds refused key linked ids chain) {k k' : Bytes}
    (hk : refused k = false) (hk' : refused k' = false) (hne : k' ≠ k) {b c : ι}
    (hb : b ∈ chain k) (hc : c ∈ chain k') : c ≠ b := by
  rintro rfl
  exact hne (((h.mem k' hk' c).mp hc).2.symm.trans ((h.mem k hk c).mp hb).2)

variable [DecidableEq ι]

lemma linkAfter_eq {next : ι → Option ι} {b : ι} (hi : next i = none) (hb : b ≠ i) :
    linkAfter next b i = spliceIn next i (some b) (next b) := by
  funext c
  unfold linkAfter
  cases hnb : next b <;> by_cases hc : c = i <;> by_cases hcb : c = b <;>
    simp_all [spliceIn]

lemma update_eq_spliceIn {next : ι → Option ι} {v : Option ι} :
    Function.update next i v = spliceIn next i none v := by
  funext c
  simp [spliceIn, update_apply]

/-- Only entries of looked-up identifiers are in the table, so a deletion matches by equality. -/
lemma deletesId_eq (hr : ∀ k, refused k = false → k ≠ []) {n k : Bytes} (hn : refused n = false) :
    deletesId n k = decide (n = k) := by
  have : n.isEmpty = false := by simpa using hr n hn
  simp [deletesId, this, beq_eq_decide]

/-! ### Adding a lease -/

variable [Fintype ι] (lease : ι → Lease) (hr : ∀ k, refused k = false → k ≠ [])
  (h : Holds refused key linked ids chain)

include hr h

lemma hashAdd_spec (hi : ¬ linked i) (hk : refused (key i) = false) :
    ∃ l₁ l₂, chain (key i) = l₁ ++ l₂ ∧
      (∀ c ∈ l₁, clientLeasePreferred (lease c) (lease i) = false) ∧
      (∀ c ∈ l₂.head?, clientLeasePreferred (lease c) (lease i) = true) ∧
      (ids.hashAdd refused lease key i).next = spliceIn ids.next i l₁.getLast? l₂.head? ∧
      (ids.hashAdd refused lease key i).table.Wf (fun k => refused k = false) ∧
      ∀ k, (ids.hashAdd refused lease key i).table.lookup doIdHash k =
        if k = key i then (l₁ ++ i :: l₂).head? else ids.table.lookup doIdHash k := by
  have hseg := h.seg _ hk
  have hhead := h.lookup_eq hk
  have hoff := h.off i hi
  have hmem : ∀ c ∈ chain (key i), c ≠ i := by
    rintro c hc rfl
    exact hi ((h.mem _ hk c).mp hc).1
  obtain ⟨l₁, l₂, hl, h1, h2, hscan⟩ := hseg.exists_scan
    (fun c => clientLeasePreferred (lease c) (lease i))
    (Nat.lt_succ_of_le hseg.nodup.length_le_card) none
  refine ⟨l₁, l₂, hl, h1, h2, ?_⟩
  rw [hl] at hseg hhead hmem
  simp only [hashAdd, h.find_eq hk, hl]
  rw [hhead] at hscan
  cases hh : (l₁ ++ l₂).head? with
  | none =>
    obtain ⟨rfl, rfl⟩ := append_eq_nil_iff.mp (head?_eq_none_iff.mp hh)
    refine ⟨?_, h.wf.add hk hhead, HashTable.lookup_add⟩
    exact (update_eq_self_iff.mpr hoff.symm).symm.trans update_eq_spliceIn
  | some head =>
    rw [hh] at hscan
    simp only [hscan, Option.or_none]
    cases hb : l₁.getLast? with
    | none =>
      obtain rfl := getLast?_eq_none_iff.mp hb
      have hdel : ∀ n, refused n = false → deletesId n (key i) = decide (n = key i) :=
        fun n => deletesId_eq hr
      refine ⟨?_, h.wf.delete.add hk ?_, fun k => ?_⟩
      · rw [update_eq_spliceIn, hoff, reference_none, ← hh, nil_append]
      · rw [HashTable.lookup_delete h.wf hdel, if_pos rfl]
      · rw [HashTable.lookup_add, HashTable.lookup_delete h.wf hdel]
        split_ifs <;> rfl
    | some b =>
      have hbi : b ≠ i := hmem b (by simp [mem_of_getLast? hb])
      refine ⟨?_, h.wf, fun k => ?_⟩
      · exact (linkAfter_eq hoff hbi).trans (by rw [Seg.next_getLast hseg hb])
      · split_ifs with hki
        · rw [hki, hhead]
          cases l₁ <;> simp_all
        · rfl

lemma Holds.hashAdd (hi : ¬ linked i) (hk : refused (key i) = false) :
    ∃ l₁ l₂, chain (key i) = l₁ ++ l₂ ∧
      (∀ c ∈ l₁, clientLeasePreferred (lease c) (lease i) = false) ∧
      (∀ c ∈ l₂.head?, clientLeasePreferred (lease c) (lease i) = true) ∧
      Holds refused key (fun j => j = i ∨ linked j) (ids.hashAdd refused lease key i)
        (Function.update chain (key i) (l₁ ++ i :: l₂)) := by
  obtain ⟨l₁, l₂, hl, h1, h2, hnext, hwf, hlook⟩ := hashAdd_spec lease hr h hi hk
  refine ⟨l₁, l₂, hl, h1, h2, hwf, fun k hk' => ?_, fun k hk' j => ?_, fun j hj => ?_⟩
  · rw [hnext, hlook]
    by_cases hkk : k = key i
    · subst hkk
      have hseg := h.seg _ hk
      rw [h.lookup_eq hk, hl] at hseg
      rw [if_pos rfl, update_self]
      refine hseg.spliceIn fun hmem => hi ?_
      exact ((h.mem _ hk i).mp (hl ▸ hmem)).1
    · rw [if_neg hkk, update_of_ne hkk]
      -- the links of the other chains stay
      refine (h.seg k hk').congr fun c hc => spliceIn_of_ne ?_ fun e => ?_
      · rintro rfl
        exact hi ((h.mem k hk' c).mp hc).1
      · have hb : c ∈ chain (key i) := by rw [hl]; simp [mem_of_getLast? e.symm]
        exact h.ne_of_mem hk hk' hkk hb hc rfl
  · by_cases hkk : k = key i
    · have := h.mem _ hk j
      rw [hl] at this
      grind
    · rw [update_of_ne hkk, h.mem k hk' j]
      grind
  · rw [not_or] at hj
    rw [hnext, spliceIn_of_ne hj.1, h.off j hj.2]
    intro e
    exact hj.2 ((h.mem _ hk j).mp (by rw [hl]; simp [mem_of_getLast? e.symm])).1

/-! ### Deleting a lease -/

omit hr in
lemma hashDelete_of_not_linked (hi : ¬ linked i) : ids.hashDelete refused key i = ids := by
  have hoff : update ids.next i none = ids.next :=
    update_eq_self_iff.mpr (h.off i hi).symm
  unfold hashDelete
  by_cases hk : refused (key i) = true
  · simp [find, if_pos hk, hoff]
  have hk : refused (key i) = false := by simpa using hk
  have hmem : i ∉ chain (key i) := fun hm => hi ((h.mem _ hk i).mp hm).1
  have hseg := h.seg _ hk
  rw [h.lookup_eq hk] at hseg
  rw [h.find_eq hk]
  cases hh : (chain (key i)).head? with
  | none => simp only [hoff]
  | some head =>
    have hne : head ≠ i := by
      rintro rfl
      exact hmem (mem_of_head? hh)
    have hscan := hseg.scan_front_none hmem (Nat.lt_succ_of_le hseg.nodup.length_le_card)
    rw [hh] at hscan
    simp [if_neg hne, hscan]

lemma hashDelete_spec (hi : linked i) (hk : refused (key i) = false) :
    ∃ l₁ l₂, chain (key i) = l₁ ++ i :: l₂ ∧
      (ids.hashDelete refused key i).next = spliceOut ids.next i l₁.getLast? l₂.head? ∧
      (ids.hashDelete refused key i).table.Wf (fun k => refused k = false) ∧
      ∀ k, (ids.hashDelete refused key i).table.lookup doIdHash k =
        if k = key i then (l₁ ++ l₂).head? else ids.table.lookup doIdHash k := by
  have hmem : i ∈ chain (key i) := (h.mem _ hk i).mpr ⟨hi, rfl⟩
  have hseg := h.seg _ hk
  have hhead := h.lookup_eq hk
  have hdel : ∀ n, refused n = false → deletesId n (key i) = decide (n = key i) :=
    fun n => deletesId_eq hr
  simp only [hashDelete, h.find_eq hk]
  rw [hhead] at hseg
  cases hh : (chain (key i)).head? with
  | none => rw [head?_eq_none_iff.mp hh] at hmem; cases hmem
  | some head =>
    rw [hh] at hseg
    by_cases hne : head = i
    · subst hne
      obtain ⟨l, hl⟩ : ∃ l, chain (key head) = head :: l := head?_eq_some_iff.mp hh
      refine ⟨[], l, hl, ?_⟩
      rw [hl] at hseg
      have hnext : ids.next head = l.head? := Seg.head? hseg.2
      simp only [if_pos]
      cases hn : l.head? with
      | none =>
        rw [hn] at hnext
        simp only [hnext]
        refine ⟨?_, h.wf.delete, fun k => ?_⟩
        · funext c
          by_cases hc : c = head <;> simp [spliceOut, hc, hnext]
        · rw [HashTable.lookup_delete h.wf hdel, nil_append, hn]
      | some n =>
        rw [hn] at hnext
        have hkn : key n = key head :=
          ((h.mem _ hk n).mp (by rw [hl]; simp [mem_of_head? hn])).2
        simp only [hnext, hkn]
        refine ⟨?_, h.wf.delete.add hk ?_, fun k => ?_⟩
        · funext c
          by_cases hc : c = head <;> simp [spliceOut, hc]
        · rw [HashTable.lookup_delete h.wf hdel, if_pos rfl]
        · rw [HashTable.lookup_add, HashTable.lookup_delete h.wf hdel, nil_append, hn]
          split_ifs <;> rfl
    · obtain ⟨l₁, b, l₂, hl, hscan⟩ := hseg.exists_front hmem hne
        (Nat.lt_succ_of_le hseg.nodup.length_le_card)
      refine ⟨l₁ ++ [b], l₂, by simpa using hl, ?_⟩
      simp only [if_neg hne, hscan]
      rw [hl, ← singleton_append, ← append_assoc] at hseg
      have hbi : b ≠ i := by
        rintro rfl
        exact (nodup_cons.mp (nodup_middle.mp hseg.nodup)).1 (by simp)
      refine ⟨?_, h.wf, fun k => ?_⟩
      · rw [unlinkAfter_eq hbi, Seg.next_eq hseg, getLast?_concat]
      · split_ifs with hki
        · rw [hki, hhead, hl]
          cases l₁ <;> rfl
        · rfl

lemma Holds.hashDelete (hlk : ∀ j, linked j → refused (key j) = false) :
    Holds refused key (fun j => j ≠ i ∧ linked j) (ids.hashDelete refused key i)
      (Function.update chain (key i) ((chain (key i)).erase i)) := by
  by_cases hi : linked i
  · have hk := hlk i hi
    obtain ⟨l1, l2, hl, hnext, hwf, hlook⟩ := hashDelete_spec hr h hi hk
    have hseg := h.seg _ hk
    rw [h.lookup_eq hk, hl] at hseg
    obtain ⟨hi1, -⟩ := nodup_cons.mp (nodup_middle.mp hseg.nodup)
    rw [mem_append, not_or] at hi1
    have herase : (chain (key i)).erase i = l1 ++ l2 := by
      rw [hl, erase_append_right _ hi1.1, erase_cons_head]
    refine ⟨hwf, fun k hk' => ?_, fun k hk' j => ?_, fun j hj => ?_⟩
    · rw [hnext, hlook]
      by_cases hkk : k = key i
      · subst hkk
        rw [if_pos rfl, update_self, herase]
        exact hseg.spliceOut
      · rw [if_neg hkk, update_of_ne hkk]
        -- the links of the other chains stay
        refine (h.seg k hk').congr fun c hc => spliceOut_of_ne ?_ fun e => ?_
        · rintro rfl
          exact hkk ((h.mem k hk' c).mp hc).2.symm
        · have hb : c ∈ chain (key i) := by rw [hl]; simp [mem_of_getLast? e.symm]
          exact h.ne_of_mem hk hk' hkk hb hc rfl
    · by_cases hkk : k = key i
      · subst hkk
        have := h.mem _ hk j
        rw [hl] at this
        rw [update_self, herase]
        grind
      · rw [update_of_ne hkk, h.mem k hk' j]
        grind
    · rw [hnext]
      by_cases hji : j = i
      · rw [hji, spliceOut, if_pos rfl]
      · have hjl : ¬ linked j := fun hjl => hj ⟨hji, hjl⟩
        rw [spliceOut_of_ne hji, h.off j hjl]
        intro e
        exact hjl ((h.mem _ hk j).mp (by rw [hl]; simp [mem_of_getLast? e.symm])).1
  · rw [hashDelete_of_not_linked h hi]
    have hlinked : (fun j => j ≠ i ∧ linked j) = linked := by
      funext j
      simp only [eq_iff_iff, and_iff_right_iff_imp]
      rintro hj rfl
      exact hi hj
    rw [hlinked]
    by_cases hk : refused (key i) = false
    · rw [erase_of_not_mem fun hm => hi ((h.mem _ hk i).mp hm).1, update_eq_self]
      exact h
    · have hne : ∀ k, refused k = false → k ≠ key i := by
        rintro k hk' rfl
        exact hk hk'
      refine ⟨h.wf, fun k hk' => ?_, fun k hk' => ?_, h.off⟩
      · rw [update_of_ne (hne k hk')]
        exact h.seg k hk'
      · rw [update_of_ne (hne k hk')]
        exact h.mem k hk'

end Ids

end IscDhcp
