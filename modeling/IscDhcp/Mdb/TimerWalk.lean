import IscDhcp.Mdb.Timer
import Mathlib.Tactic.Order

/-!
What a run of `pool_timer` does in a pool without a failover peer: the leases whose time has
come are moved, the others are left alone, and the timer is set to the first time to come.
-/

namespace IscDhcp

open List

variable {ι : Type} [DecidableEq ι]

namespace Db

variable {s t u : Db ι} {p : ℕ}

/-! ### The rest of a queue -/

lemma mem_dropWhile_of_erase {l : List ι} {i j n : ι} (hn : n ≠ i)
    (h : j ∈ (l.erase i).dropWhile (· ≠ n)) : j ∈ l.dropWhile (· ≠ n) := by
  induction l with
  | nil => exact h
  | cons a l ih =>
    by_cases hai : a = i
    · subst hai
      simpa [Ne.symm hn] using h
    · rw [erase_cons_tail (by simpa using hai)] at h
      by_cases han : a = n
      · subst han
        simp only [ne_eq, not_true_eq_false, decide_false, Bool.false_eq_true, not_false_eq_true,
          dropWhile_cons_of_neg, mem_cons] at h ⊢
        exact h.imp_right mem_of_mem_erase
      · simp only [ne_eq, han, not_false_eq_true, decide_true, dropWhile_cons_of_pos] at h ⊢
        exact ih h

/-- What stands behind `i` stands behind the next one, also if `i` has moved. -/
lemma mem_dropWhile_next {l l' : List ι} (hnd : l.Nodup) {i j : ι} (hi : i ∈ l)
    (he : l'.erase i = l.erase i) (h : j ∈ l.dropWhile (· ≠ i)) (hj : j ≠ i) :
    ∃ n, nextIn l i = some n ∧ j ∈ l'.dropWhile (· ≠ n) := by
  obtain ⟨l1, l2, rfl⟩ := append_of_mem hi
  have hi1 : i ∉ l1 := fun h => (nodup_append.mp hnd).2.2 i h i (by simp) rfl
  rw [dropWhile_ne hi1, mem_cons, or_iff_right hj] at h
  cases l2 with
  | nil => cases h
  | cons n l3 =>
    have hn1 : n ∉ l1 := fun h => (nodup_append.mp hnd).2.2 n h n (by simp) rfl
    have hni : n ≠ i := by
      rintro rfl
      simp [nodup_append] at hnd
    refine ⟨n, by rw [nextIn, dropWhile_ne hi1]; rfl, mem_dropWhile_of_erase hni ?_⟩
    rw [he, erase_append_right _ hi1, erase_cons_head, dropWhile_ne hn1]
    exact h

lemma rel_of_mem_dropWhile {r : ι → ι → Prop} {l : List ι} {i j : ι} (hr : r i i)
    (h : l.Pairwise r) (hj : j ∈ l.dropWhile (· ≠ i)) : r i j := by
  induction l with
  | nil => cases hj
  | cons a l ih =>
    obtain ⟨ha, hl⟩ := pairwise_cons.mp h
    by_cases hai : a = i
    · subst hai
      rw [dropWhile_cons_of_neg (by simp)] at hj
      rcases mem_cons.mp hj with rfl | hj
      exacts [hr, ha j hj]
    · rw [dropWhile_cons_of_pos (by simpa using hai)] at hj
      exact ih hl hj

/-! ### The walk -/

/-- Every lease of the pool is where it should be and sorted by its end. -/
abbrev Settled (p : ℕ) (s : Db ι) : Prop := Timed p (fun _ => False) s

lemma Settled.sortTime_eq {i : ι} (h : Settled p s) (hp : (s.lease i).pool = some p) :
    (s.lease i).sortTime = (s.lease i).ends := h.ends i id hp

lemma Settled.mem_queue {i : ι} (h : Settled p s) (hp : (s.lease i).pool = some p) :
    ∃ q, i ∈ (s.pool p).queue q := by
  obtain ⟨q, hq⟩ := exists_queueOf (h.valid i hp).1
  exact ⟨q, (h.running.queued.mem p q i).mpr ⟨trivial, hp, hq⟩⟩

/-- In `t` some leases of the pool whose time had come have been moved. -/
structure Walked (p : ℕ) (s t : Db ι) : Prop where
  settled : Settled p t
  curTime : t.curTime = s.curTime
  timer : t.timerOf p = s.timerOf p
  pool : ∀ i, (t.lease i).pool = (s.lease i).pool
  sortTime : ∀ i, (s.lease i).pool = some p → (t.lease i).sortTime = (s.lease i).sortTime
  later : ∀ i, (s.lease i).pool = some p → s.curTime < (s.lease i).sortTime →
    (t.lease i).calm = (s.lease i).calm

lemma Walked.refl (h : Settled p s) : Walked p s s :=
  ⟨h, rfl, rfl, fun _ => rfl, fun _ _ => rfl, fun _ _ _ => rfl⟩

lemma Walked.trans (h1 : Walked p s t) (h2 : Walked p t u) : Walked p s u where
  settled := h2.settled
  curTime := h2.curTime.trans h1.curTime
  timer := h2.timer.trans h1.timer
  pool i := (h2.pool i).trans (h1.pool i)
  sortTime i hp := (h2.sortTime i ((h1.pool i).trans hp)).trans (h1.sortTime i hp)
  later i hp hl := by
    refine (h2.later i ((h1.pool i).trans hp) ?_).trans (h1.later i hp hl)
    rw [h1.curTime, h1.sortTime i hp]
    exact hl

lemma Walked.mem_queue (h : Walked p s t) (hs : Settled p s) {q : Queue} {i : ι}
    (hi : i ∈ (t.pool p).queue q) (hl : s.curTime < (t.lease i).sortTime) :
    i ∈ (s.pool p).queue q := by
  obtain ⟨-, hp, hq⟩ := (h.settled.running.queued.mem p q i).mp hi
  have hps : (s.lease i).pool = some p := (h.pool i).symm.trans hp
  rw [h.sortTime i hps] at hl
  have hcalm := h.later i hps hl
  exact (hs.running.queued.mem p q i).mpr
    ⟨trivial, hps, (Lease.eq_of_calm hcalm queueOf).symm.trans hq⟩

lemma MovedAt.walked {i : ι} (h : MovedAt p s t i) (hs : Settled p s)
    (hp : (s.lease i).pool = some p) (hdue : (s.lease i).sortTime ≤ s.curTime) : Walked p s t := by
  have hends := hs.sortTime_eq hp
  refine ⟨h.timed, h.curTime, ?_, fun j => ?_, fun j hj => ?_, fun j hj hl => ?_⟩
  · -- the timer is not set for a time that has come
    rw [h.timer, arm, if_neg]
    rintro ⟨-, hlt, -⟩
    order
  · by_cases hj : j = i
    · subst hj
      exact h.pool
    · exact Lease.eq_of_calm (h.others j hj) Lease.pool
  · by_cases hji : j = i
    · subst hji
      rw [h.sortTime, hends]
    · exact Lease.eq_of_calm (h.others j hji) Lease.sortTime
  · refine h.others j ?_
    rintro rfl
    order

variable [Fintype ι]

lemma rewind_of_unpeered {i : ι} (hs : Settled p s) (hp : (s.lease i).pool = some p) :
    s.rewind i = s := by
  simp [rewind, peered_eq hp, hs.unpeered]

lemma runQueue_walked {q : Queue} {n : ℕ} {cur : Option ι} {ne ne' : Time} (hs : Settled p s)
    (hcur : ∀ i, cur = some i → i ∈ (s.pool p).queue q)
    (hcov : ∀ j ∈ (s.pool p).queue q, s.curTime < (s.lease j).sortTime →
      ∃ i, cur = some i ∧ j ∈ ((s.pool p).queue q).dropWhile (· ≠ i))
    (h : runQueue p q n s cur ne = some (t, ne')) :
    Walked p s t ∧ ne' ≤ ne ∧ (ne' = ne ∨ s.curTime < ne') ∧
      ∀ j ∈ (t.pool p).queue q, s.curTime < (t.lease j).sortTime → ne' ≤ (t.lease j).sortTime := by
  induction n generalizing s cur with
  | zero => cases h
  | succ n ih =>
    cases cur with
    | none =>
      obtain ⟨rfl, rfl⟩ : s = t ∧ ne = ne' := by simpa [runQueue] using h
      refine ⟨.refl hs, le_rfl, .inl rfl, fun j hj hl => ?_⟩
      obtain ⟨i, hi, -⟩ := hcov j hj hl
      cases hi
    | some i =>
      have hi := hcur i rfl
      have hp : (s.lease i).pool = some p := ((hs.running.queued.mem p q i).mp hi).2.1
      have hnd := hs.running.queued.nodup p q
      unfold runQueue at h
      by_cases hdue : (s.lease i).sortTime > s.curTime
      · simp only [if_pos hdue, Option.some.injEq, Prod.mk.injEq] at h
        obtain ⟨rfl, hne⟩ := h
        refine ⟨.refl hs, ?_, ?_, fun j hj hl => ?_⟩
        · split_ifs at hne <;> order
        · split_ifs at hne
          · exact .inr (by order)
          · exact .inl hne.symm
        · obtain ⟨i', hi', hij⟩ := hcov j hj hl
          cases hi'
          have hle : (s.lease i).sortTime ≤ (s.lease j).sortTime :=
            rel_of_mem_dropWhile (r := s.before) le_rfl (hs.sorted q) hij
          split_ifs at hne <;> order
      · -- what is to come stands behind this lease
        have hnext {l : List ι} (he : l.erase i = ((s.pool p).queue q).erase i) {j : ι}
            (hj : j ∈ (s.pool p).queue q) (hl : s.curTime < (s.lease j).sortTime) :
            ∃ k, nextIn ((s.pool p).queue q) i = some k ∧ j ∈ l.dropWhile (· ≠ k) := by
          obtain ⟨i', hi', hij⟩ := hcov j hj hl
          cases hi'
          refine mem_dropWhile_next hnd hi he hij ?_
          rintro rfl
          exact hdue hl
        simp only [if_neg hdue] at h
        by_cases hne : (s.lease i).nextBindingState ≠ (s.lease i).bindingState
        · simp only [if_pos hne, rewind_of_unpeered hs hp] at h
          obtain ⟨ok, v, hv, hm⟩ := justMoveIt_movedAt i none true true true
            { hs with ends := fun j _ => hs.ends j id } hp rfl
          simp only [hv] at h
          have hw := hm.walked hs hp (not_lt.mp hdue)
          have hmem (j : ι) (hj : j ∈ ((s.pool p).queue q).erase i) : j ∈ (v.pool p).queue q := by
            rw [← hm.erase] at hj
            exact mem_of_mem_erase hj
          have hcov' : ∀ j ∈ (v.pool p).queue q, v.curTime < (v.lease j).sortTime →
              ∃ k, nextIn ((s.pool p).queue q) i = some k ∧
                j ∈ ((v.pool p).queue q).dropWhile (· ≠ k) := by
            intro j hj hl
            rw [hw.curTime] at hl
            have hjs := hw.mem_queue hs hj hl
            rw [hw.sortTime j ((hs.running.queued.mem p q j).mp hjs).2.1] at hl
            exact hnext (hm.erase q) hjs hl
          obtain ⟨hw', hle, hgt, hall⟩ :=
            ih hw.settled (fun k hk => hmem k (nextIn_spec hnd hi hk).1) hcov' h
          rw [hw.curTime] at hgt hall
          exact ⟨hw.trans hw', hle, hgt, hall⟩
        · simp only [if_neg hne] at h
          exact ih hs (fun k hk => mem_of_mem_erase (nextIn_spec hnd hi hk).1)
            (fun j hj hl => hnext rfl hj hl) h

/-- `ne` is not later than any time to come on the queue. -/
def Covers (s : Db ι) (p : ℕ) (q : Queue) (ne : Time) : Prop :=
  ∀ j ∈ (s.pool p).queue q, s.curTime < (s.lease j).sortTime → ne ≤ (s.lease j).sortTime

lemma Covers.walked {q : Queue} {ne ne' : Time} (h : s.Covers p q ne) (hs : Settled p s)
    (hw : Walked p s t) (hle : ne' ≤ ne) : t.Covers p q ne' := by
  intro j hj hl
  rw [hw.curTime] at hl
  have hjs := hw.mem_queue hs hj hl
  have hpj : (s.lease j).pool = some p := ((hs.running.queued.mem p q j).mp hjs).2.1
  rw [hw.sortTime j hpj] at hl ⊢
  exact hle.trans (h j hjs hl)

lemma poolTimerQueue_walked {q : Queue} {ne ne' : Time} (hs : Settled p s)
    (h : poolTimerQueue p (s, ne) q = some (t, ne')) :
    Walked p s t ∧ ne' ≤ ne ∧ (ne' = ne ∨ s.curTime < ne') ∧ t.Covers p q ne' := by
  unfold poolTimerQueue at h
  split_ifs at h with hskip
  · obtain ⟨rfl, rfl⟩ : s = t ∧ ne = ne' := by simpa using h
    refine ⟨.refl hs, le_rfl, .inl rfl, fun j hj => ?_⟩
    have hempty : (s.pool p).queue q = [] := by simpa [skipsQueue, hs.unpeered] using hskip
    simp [hempty] at hj
  · have hcov : ∀ j ∈ (s.pool p).queue q, s.curTime < (s.lease j).sortTime →
        ∃ i, ((s.pool p).queue q).head? = some i ∧ j ∈ ((s.pool p).queue q).dropWhile (· ≠ i) := by
      intro j hj _
      cases hq : (s.pool p).queue q with
      | nil => simp [hq] at hj
      | cons i l => exact ⟨i, rfl, by simpa [hq] using hj⟩
    obtain ⟨hw, hle, hgt, hall⟩ := runQueue_walked hs (fun i hi => mem_of_head? hi) hcov h
    exact ⟨hw, hle, hgt, fun j hj hl => hall j hj (by rwa [hw.curTime] at hl)⟩

lemma foldlM_walked {qs : List Queue} {ne ne' : Time} (hs : Settled p s)
    (h : qs.foldlM (poolTimerQueue p) (s, ne) = some (t, ne')) :
    Walked p s t ∧ ne' ≤ ne ∧ (ne' = ne ∨ s.curTime < ne') ∧
      ∀ q, (q ∈ qs ∨ s.Covers p q ne) → t.Covers p q ne' := by
  induction qs generalizing s ne with
  | nil =>
    obtain ⟨rfl, rfl⟩ : s = t ∧ ne = ne' := by simpa using h
    exact ⟨.refl hs, le_rfl, .inl rfl, by simp⟩
  | cons q qs ih =>
    rw [foldlM_cons, Option.bind_eq_bind, Option.bind_eq_some_iff] at h
    obtain ⟨⟨u, ne1⟩, hu, h⟩ := h
    obtain ⟨hw, hle, hgt, hq⟩ := poolTimerQueue_walked hs hu
    obtain ⟨hw', hle', hgt', hall⟩ := ih hw.settled h
    rw [hw.curTime] at hgt'
    refine ⟨hw.trans hw', hle'.trans hle, ?_, fun q' hq' => hall q' ?_⟩
    · rcases hgt' with rfl | hgt'
      · exact hgt
      · exact .inr hgt'
    · rcases hq' with hq' | hc
      · rcases mem_cons.mp hq' with rfl | hq'
        · exact .inr hq
        · exact .inl hq'
      · exact .inr (hc.walked hs hw hle)

/-- **A run of `pool_timer` in a pool without a peer**: `ne` is the first time to come, if it is
not `MAX_TIME`. -/
lemma poolTimer_walked (hs : Settled p s) :
    ∃ u ne, s.poolTimer p = some (u.updateTimer p ne) ∧ Walked p s u ∧
      ne ≤ maxTime ∧ (ne = maxTime ∨ s.curTime < ne) ∧
      ∀ j, (u.lease j).pool = some p → s.curTime < (u.lease j).sortTime →
        ne ≤ (u.lease j).sortTime := by
  obtain ⟨u, ne, hu, -⟩ := foldlM_queues_moves p Queue.all maxTime
    hs.running.queued hs.running.ssQfollow
  obtain ⟨hw, hle, hgt, hall⟩ := foldlM_walked hs hu
  refine ⟨u, ne, by simp [poolTimer, hu], hw, hle, hgt, fun j hp hl => ?_⟩
  obtain ⟨q, hq⟩ := hw.settled.mem_queue hp
  exact hall q (.inl (Queue.mem_all q)) j hq (by rwa [hw.curTime])

end Db

end IscDhcp
