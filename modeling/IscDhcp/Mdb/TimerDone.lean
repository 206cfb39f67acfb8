import IscDhcp.Mdb.TimerWalk

/-!
What a run of `pool_timer` leaves undone in a pool without a failover peer.

The queues are visited one after the other and each is walked once, so that a lease which moves
back to a queue already visited is not looked at again. If every pending move leads forward, no
lease is left whose time has come.
-/

namespace IscDhcp

open List Option

/-- The place of a queue in the order of the visits. -/
def Queue.visit : Queue → ℕ
  | .free => 0
  | .active => 1
  | .expired => 2
  | .abandoned => 3
  | .backup => 4
  | .reserved => 5

lemma Queue.visit_lt (q : Queue) : q.visit < 6 := by cases q <;> decide

lemma Queue.visit_inj {q q' : Queue} (h : q.visit = q'.visit) : q = q' := by
  cases q <;> cases q' <;> first | rfl | cases h

/-- The place of the queue the lease is on. -/
def Lease.visit (l : Lease) : ℕ := (queueOf l).elim 0 Queue.visit

/-- The next state needs no further move, or lasts, or leads to a queue that is visited later. -/
def Lease.Forward (now : Time) (l : Lease) : Prop :=
  l.nextBindingState = .free ∨ l.nextBindingState = .backup ∨ now < l.ends ∨
    l.visit < { l with bindingState := l.nextBindingState }.visit

def Lease.AtEase (now : Time) (l : Lease) : Prop :=
  now < l.sortTime ∨ l.nextBindingState = l.bindingState

variable {ι : Type} [DecidableEq ι]

namespace Db

variable {i : ι} {q : Queue}

/-- The queues are sorted, by whatever times. -/
abbrev QueuesSorted (p : ℕ) (s : Db ι) : Prop := Timed p (fun _ => True) s

/-- The queues before the `k`-th are done with, and the moves to come lead forward. -/
structure DoneBefore (p k : ℕ) (s : Db ι) : Prop where
  ordered : QueuesSorted p s
  done : ∀ i, (s.lease i).pool = some p → (s.lease i).visit < k → (s.lease i).AtEase s.curTime
  forward : ∀ i, (s.lease i).pool = some p →
    (s.lease i).AtEase s.curTime ∨ (s.lease i).Forward s.curTime

variable {s t u : Db ι} {p : ℕ}

/-- Some leases whose time had come have been moved, the others not. -/
structure KeptLater (p : ℕ) (s t : Db ι) : Prop where
  curTime : t.curTime = s.curTime
  later : ∀ i, (s.lease i).pool = some p → s.curTime < (s.lease i).sortTime →
    (t.lease i).calm = (s.lease i).calm

lemma KeptLater.refl (s : Db ι) : KeptLater p s s := ⟨rfl, fun _ _ _ => rfl⟩

lemma KeptLater.trans (h1 : KeptLater p s t) (h2 : KeptLater p t u) : KeptLater p s u where
  curTime := h2.curTime.trans h1.curTime
  later i hp hl := by
    have h := h1.later i hp hl
    refine (h2.later i ((Lease.eq_of_calm h Lease.pool).trans hp) ?_).trans h
    rw [h1.curTime, Lease.eq_of_calm h Lease.sortTime]
    exact hl

omit [DecidableEq ι] in
lemma visit_of_queueOf {l : Lease} (h : queueOf l = some q) : l.visit = q.visit := by
  rw [Lease.visit, h, elim_some]

/-- The state after a move is followed by no other, or by the free state. -/
lemma stateAfter_eq (b : BindingState) : stateAfter false b = b ∨ stateAfter false b = .free := by
  cases b <;> simp [stateAfter]

/-- **A move** leaves a lease that need not be moved again, or one on a later queue. -/
lemma Shifted.outcome (h : Shifted p s t i) (hf : (s.lease i).Forward s.curTime)
    (hr : (t.lease i).flags.reserved = (s.lease i).flags.reserved) : (t.lease i).AtEase s.curTime ∨
      (s.lease i).visit < (t.lease i).visit ∧ (t.lease i).nextBindingState = .free := by
  have hn := h.nextBindingState
  rcases hf with hf | hf | hf | hf
  · exact .inl (.inr (by rw [hn, h.bindingState, hf]; rfl))
  · exact .inl (.inr (by rw [hn, h.bindingState, hf]; rfl))
  · exact .inl (.inl (by rw [h.sortTime]; exact hf))
  · rcases stateAfter_eq (s.lease i).nextBindingState with he | he
    · exact .inl (.inr (by rw [hn, h.bindingState, he]))
    · refine .inr ⟨?_, hn.trans he⟩
      have hv : (t.lease i).visit =
          { s.lease i with bindingState := (s.lease i).nextBindingState }.visit := by
        unfold Lease.visit queueOf
        rw [h.bindingState, hr]
      rw [hv]
      exact hf

variable [Fintype ι]

lemma timer_shifted (hs : QueuesSorted p s) (hi : i ∈ (s.pool p).queue q) :
    ∃ ok t, (s.rewind i).justMoveIt i none true true true = some (ok, t) ∧ Shifted p s t i ∧
      QueuesSorted p t ∧ (t.lease i).flags.reserved = (s.lease i).flags.reserved := by
  obtain ⟨-, hp, -⟩ := (hs.running.queued.mem p q i).mp hi
  have hrw : s.rewind i = s := by simp [rewind, peered_eq hp, hs.unpeered]
  obtain ⟨ok, t, ht, hsh, hT⟩ := justMoveIt_shifted i none true true true hs hp rfl
  obtain ⟨ok', t', n, ht', -, hm⟩ := timer_moved hs.running.queued hs.running.ssQfollow hi
  rw [hrw] at ht' ⊢
  obtain ⟨rfl, rfl⟩ : ok = ok' ∧ t = t' := by simpa [ht] using ht'
  refine ⟨ok, t, ht, hsh, hT.mono fun _ _ => trivial, ?_⟩
  rw [Lease.eq_of_strip hm.self (fun l => l.flags.reserved)]
  unfold timerData transition
  dsimp only
  split_ifs <;> rfl

/-- **One step** along a queue. -/
lemma DoneBefore.move (h : DoneBefore p q.visit s) (hi : i ∈ (s.pool p).queue q)
    (hdue : (s.lease i).sortTime ≤ s.curTime)
    (hne : (s.lease i).nextBindingState ≠ (s.lease i).bindingState) :
    ∃ ok t, (s.rewind i).justMoveIt i none true true true = some (ok, t) ∧ DoneBefore p q.visit t ∧
      Shifted p s t i ∧ (i ∈ (t.pool p).queue q → (t.lease i).AtEase t.curTime) := by
  obtain ⟨-, hp, hq⟩ := (h.ordered.running.queued.mem p q i).mp hi
  have hpend : ¬ (s.lease i).AtEase s.curTime := fun hd => hd.elim (not_lt.mpr hdue) hne
  obtain ⟨ok, t, ht, hsh, hT, hr⟩ := timer_shifted h.ordered hi
  have hout := hsh.outcome ((h.forward i hp).resolve_left hpend) hr
  rw [← hsh.curTime, visit_of_queueOf hq] at hout
  refine ⟨ok, t, ht, ⟨hT, fun j hj hv => ?_, fun j hj => ?_⟩, hsh, fun hit => ?_⟩
  · by_cases hji : j = i
    · subst hji
      exact hout.resolve_right fun hlt => absurd hlt.1 (not_lt.mpr hv.le)
    · have hc := hsh.others j hji
      rw [hsh.curTime, Lease.eq_of_calm hc (fun l => l.AtEase s.curTime)]
      rw [Lease.eq_of_calm hc Lease.visit] at hv
      exact h.done j ((Lease.eq_of_calm hc Lease.pool).symm.trans hj) hv
  · by_cases hji : j = i
    · subst hji
      exact hout.imp_right fun hlt => .inl hlt.2
    · have hc := hsh.others j hji
      rw [hsh.curTime, Lease.eq_of_calm hc (fun l => l.AtEase s.curTime),
        Lease.eq_of_calm hc (fun l => l.Forward s.curTime)]
      exact h.forward j ((Lease.eq_of_calm hc Lease.pool).symm.trans hj)
  · obtain ⟨-, -, hqt⟩ := (hT.running.queued.mem p q i).mp hit
    rw [visit_of_queueOf hqt] at hout
    exact hout.resolve_right fun hlt => lt_irrefl _ hlt.1

lemma Shifted.keptLater (h : Shifted p s t i) (hdue : (s.lease i).sortTime ≤ s.curTime) :
    KeptLater p s t where
  curTime := h.curTime
  later j _ hl := h.others j fun hji => absurd (hji ▸ hl) (not_lt.mpr hdue)

lemma TimerMoves.keptLater (h : TimerMoves p s t) (hs : QueuesSorted p s) :
    QueuesSorted p t ∧ KeptLater p s t := by
  induction h with
  | refl => exact ⟨hs, .refl s⟩
  | tail _ hm ih =>
    obtain ⟨q, i, ok, hi, hdue, -, ht⟩ := hm
    obtain ⟨ok', t', ht', hsh, hT, -⟩ := timer_shifted ih.1 hi
    cases ht.symm.trans ht'
    exact ⟨hT, ih.2.trans (hsh.keptLater hdue)⟩

lemma DoneBefore.next (h : DoneBefore p q.visit s)
    (hd : ∀ j ∈ (s.pool p).queue q, (s.lease j).AtEase s.curTime) :
    DoneBefore p (q.visit + 1) s := by
  refine ⟨h.ordered, fun j hj hv => ?_, h.forward⟩
  rcases (Nat.lt_succ_iff.mp hv).lt_or_eq with hv | hv
  · exact h.done j hj hv
  · obtain ⟨q', hq'⟩ := exists_queueOf (h.ordered.valid j hj).1
    rw [visit_of_queueOf hq'] at hv
    obtain rfl := Queue.visit_inj hv
    exact hd j ((h.ordered.running.queued.mem p q' j).mpr ⟨trivial, hj, hq'⟩)

/-- The leases that are to be moved stand in the rest of the queue. -/
def LeftFrom (s : Db ι) (p : ℕ) (q : Queue) (cur : Option ι) : Prop :=
  ∀ j ∈ (s.pool p).queue q, ¬ (s.lease j).AtEase s.curTime →
    ∃ i, cur = some i ∧ j ∈ ((s.pool p).queue q).dropWhile (· ≠ i)

lemma LeftFrom.atEase_of_late (h : LeftFrom s p q (some i)) (hs : QueuesSorted p s)
    (hi : i ∈ (s.pool p).queue q) (hlate : s.curTime < (s.lease i).sortTime) :
    ∀ j ∈ (s.pool p).queue q, (s.lease j).AtEase s.curTime := by
  intro j hj
  by_contra hd
  obtain ⟨i', hi', hji⟩ := h j hj hd
  cases hi'
  have hle : (s.lease i).sortTime ≤ (s.lease j).sortTime :=
    rel_of_mem_dropWhile (r := s.before) le_rfl (hs.sorted q) hji
  exact hd (.inl (hlate.trans_le hle))

/-- The saved pointer to the next lease stays valid when the lease at hand is moved. -/
lemma LeftFrom.shifted (h : LeftFrom s p q (some i)) (hs : QueuesSorted p s)
    (hi : i ∈ (s.pool p).queue q) (hsh : Shifted p s t i)
    (hself : i ∈ (t.pool p).queue q → (t.lease i).AtEase t.curTime) :
    LeftFrom t p q (nextIn ((s.pool p).queue q) i) := by
  intro j hj hd
  have hji : j ≠ i := fun he => hd (he ▸ hself (he ▸ hj))
  rw [hsh.curTime, Lease.eq_of_calm (hsh.others j hji) (fun l => l.AtEase s.curTime)] at hd
  have hjs : j ∈ (s.pool p).queue q := by
    have hje : j ∈ ((t.pool p).queue q).erase i := (mem_erase_of_ne hji).mpr hj
    rw [hsh.erase] at hje
    exact mem_of_mem_erase hje
  obtain ⟨i', hi', hjd⟩ := h j hjs hd
  cases hi'
  exact mem_dropWhile_next (hs.running.queued.nodup p q) hi (hsh.erase q) hjd hji

lemma LeftFrom.passed (h : LeftFrom s p q (some i)) (hs : QueuesSorted p s)
    (hi : i ∈ (s.pool p).queue q) (hd : (s.lease i).AtEase s.curTime) :
    LeftFrom s p q (nextIn ((s.pool p).queue q) i) := by
  intro j hj hdj
  have hji : j ≠ i := fun he => hdj (he ▸ hd)
  obtain ⟨i', hi', hjd⟩ := h j hj hdj
  cases hi'
  exact mem_dropWhile_next (hs.running.queued.nodup p q) hi rfl hjd hji

/-- **The walk along a queue** leaves no lease of it that is to be moved. -/
lemma DoneBefore.runQueue {n : ℕ} {cur : Option ι} {ne ne' : Time} (h : DoneBefore p q.visit s)
    (hcur : ∀ i, cur = some i → i ∈ (s.pool p).queue q) (hleft : LeftFrom s p q cur)
    (ht : runQueue p q n s cur ne = some (t, ne')) : DoneBefore p (q.visit + 1) t := by
  induction n generalizing s cur with
  | zero => cases ht
  | succ n ih =>
    cases cur with
    | none =>
      obtain ⟨rfl, -⟩ : s = t ∧ ne = ne' := by simpa [Db.runQueue] using ht
      refine h.next fun j hj => ?_
      by_contra hd
      obtain ⟨i, hi, -⟩ := hleft j hj hd
      cases hi
    | some i =>
      have hi := hcur i rfl
      have hnd := h.ordered.running.queued.nodup p q
      unfold Db.runQueue at ht
      by_cases hlate : (s.lease i).sortTime > s.curTime
      · simp only [if_pos hlate, some.injEq, Prod.mk.injEq] at ht
        obtain ⟨rfl, -⟩ := ht
        exact h.next (hleft.atEase_of_late h.ordered hi hlate)
      · simp only [if_neg hlate] at ht
        by_cases hne : (s.lease i).nextBindingState ≠ (s.lease i).bindingState
        · obtain ⟨ok, v, hv, hdone, hsh, hself⟩ := h.move hi (not_lt.mp hlate) hne
          simp only [if_pos hne, hv] at ht
          have hmem (k : ι) (hk : nextIn ((s.pool p).queue q) i = some k) :
              k ∈ (v.pool p).queue q := by
            have hks := (nextIn_spec hnd hi hk).1
            rw [← hsh.erase] at hks
            exact mem_of_mem_erase hks
          exact ih hdone hmem (hleft.shifted h.ordered hi hsh hself) ht
        · simp only [if_neg hne] at ht
          exact ih h (fun k hk => mem_of_mem_erase (nextIn_spec hnd hi hk).1)
            (hleft.passed h.ordered hi (.inr (not_not.mp hne))) ht

lemma DoneBefore.poolTimerQueue {x y : Db ι × Time} (h : DoneBefore p q.visit x.1)
    (hy : poolTimerQueue p x q = some y) : DoneBefore p (q.visit + 1) y.1 := by
  unfold Db.poolTimerQueue at hy
  split_ifs at hy with hskip
  · cases hy
    have hempty : (x.1.pool p).queue q = [] := by
      simpa [skipsQueue, h.ordered.unpeered] using hskip
    exact h.next fun j hj => by simp [hempty] at hj
  · refine h.runQueue (fun i hi => mem_of_head? hi) (fun j hj _ => ?_) hy
    cases hq : (x.1.pool p).queue q with
    | nil => simp [hq] at hj
    | cons i l => exact ⟨i, rfl, by simpa [hq] using hj⟩

lemma DoneBefore.foldlM {qs : List Queue} {k : ℕ} {x y : Db ι × Time} (h : DoneBefore p k x.1)
    (hqs : qs.map Queue.visit = List.range' k qs.length)
    (hy : qs.foldlM (Db.poolTimerQueue p) x = some y) : DoneBefore p (k + qs.length) y.1 := by
  induction qs generalizing k x with
  | nil =>
    cases hy
    exact h
  | cons q qs ih =>
    simp only [map_cons, length_cons, range'_succ, cons.injEq] at hqs
    obtain ⟨rfl, hqs⟩ := hqs
    simp only [foldlM_cons, bind_eq_bind, bind_eq_some_iff] at hy
    obtain ⟨z, hz, hy⟩ := hy
    rw [length_cons, ← Nat.add_assoc, Nat.add_right_comm]
    exact ih (h.poolTimerQueue hz) hqs hy

/-- **Completeness of the pool timer.** In a pool without a peer whose queues are sorted,
`pool_timer` comes to an end and touches no lease whose time is to come; if every pending move of
a lease whose time has come leads forward, it leaves none that is to be moved. Each of its calls
of `supersede_lease`, and any other one, comes to an end as well. -/
theorem poolTimer_complete (s : Db ι) (p : ℕ) (hs : s.Running)
    (hu : (s.pool p).failoverPeer = false) (hv : ∀ i, (s.lease i).pool = some p → (s.lease i).Valid)
    (hsort : ∀ q, ((s.pool p).queue q).Pairwise s.before) :
    (∃ t, s.poolTimer p = some t ∧
      (∀ i, (s.lease i).pool = some p → s.curTime < (s.lease i).sortTime →
        (t.lease i).bindingState = (s.lease i).bindingState) ∧
      ((∀ i, (s.lease i).pool = some p → (s.lease i).sortTime ≤ s.curTime →
          (s.lease i).nextBindingState ≠ (s.lease i).bindingState →
          (s.lease i).Forward s.curTime) →
        ∀ i, (t.lease i).pool = some p →
          ¬ ((t.lease i).sortTime ≤ s.curTime ∧
            (t.lease i).nextBindingState ≠ (t.lease i).bindingState))) ∧
    ∀ comp lease commit propogate pimmediate,
      ∃ r, s.supersedeLease comp lease commit propogate pimmediate = some r := by
  have hT : QueuesSorted p s := ⟨hs, hu, hv, hsort, fun _ h => absurd trivial h⟩
  refine ⟨?_, fun comp lease commit propogate pimmediate => ?_⟩
  · obtain ⟨u, ne, hy, hm⟩ := foldlM_queues_moves p Queue.all maxTime hs.queued hs.ssQfollow
    have hk := (TimerMoves.keptLater hm hT).2
    refine ⟨u.updateTimer p ne, by simp [poolTimer, hy], fun i hp hl => ?_, fun hf i hp hi => ?_⟩
    · rw [Db.eq_of_strip (u.strip_updateTimer p ne) (fun s => (s.lease i).bindingState)]
      exact Lease.eq_of_calm (hk.later i hp hl) Lease.bindingState
    · have h : DoneBefore p 0 s := by
        refine ⟨hT, fun _ _ h => absurd h (by simp), fun i hp => ?_⟩
        by_cases hd : (s.lease i).sortTime ≤ s.curTime ∧
            (s.lease i).nextBindingState ≠ (s.lease i).bindingState
        · exact .inr (hf i hp hd.1 hd.2)
        · rw [not_and_or, not_le, not_not] at hd
          exact .inl hd
      have hd := h.foldlM rfl hy
      have hl : (u.updateTimer p ne).lease = u.lease := by
        unfold updateTimer
        extract_lets
        split_ifs <;> rfl
      rw [hl] at hp hi
      obtain ⟨q, hq⟩ := exists_queueOf (hd.ordered.valid i hp).1
      have he := hd.done i hp ((visit_of_queueOf hq).trans_lt q.visit_lt)
      rw [hk.curTime] at he
      exact he.elim (not_lt.mpr hi.1) hi.2
  · obtain ⟨ok, t, ht, -⟩ := supersedeLease_keeps hs comp lease commit propogate pimmediate
    exact ⟨_, ht⟩

/-- A pool with two active leases, one of which has ended. -/
def dueSample : Db Bool :=
  instantiateAll
    { curTime := 7
      lease := fun i =>
        { pool := some 0, bindingState := .active, nextBindingState := .free
          ends := if i then 9 else 5 } } [true, false]

theorem poolTimer_complete_sample : ∃ t, dueSample.poolTimer 0 = some t ∧
    (∀ i, (dueSample.lease i).pool = some 0 → 7 < (dueSample.lease i).sortTime →
      (t.lease i).bindingState = (dueSample.lease i).bindingState) ∧
    ∀ i, (t.lease i).pool = some 0 →
      ¬ ((t.lease i).sortTime ≤ 7 ∧ (t.lease i).nextBindingState ≠ (t.lease i).bindingState) := by
  obtain ⟨⟨t, ht, hlater, hdone⟩, -⟩ := poolTimer_complete dueSample 0
    ⟨instantiateAll_queued ⟨fun _ _ => rfl, fun _ => rfl, fun _ => rfl, rfl⟩ (by decide)
      (by decide), rfl⟩ rfl (by decide) (fun q => by cases q <;> decide)
  exact ⟨t, ht, hlater, hdone fun i _ _ _ => .inl (by revert i; decide)⟩

/-- A reserved lease that is to become active, with an end that has passed, moves to a queue that
has been visited already. -/
theorem poolTimer_leaves_due :
    let s : Db (Fin 1) := instantiateAll
      { curTime := 7
        lease := fun _ =>
          { pool := some 0, bindingState := .free, nextBindingState := .active, ends := 5
            flags := { reserved := true } } } [0]
    (s.pool 0).failoverPeer = false ∧ (∀ q ∈ Queue.all, ((s.pool 0).queue q).Pairwise s.before) ∧
      ((s.poolTimer 0).any fun t => (t.lease 0).pool = some 0 ∧ (t.lease 0).sortTime ≤ 7 ∧
        (t.lease 0).nextBindingState ≠ (t.lease 0).bindingState) = true := by
  decide

end Db

end IscDhcp
