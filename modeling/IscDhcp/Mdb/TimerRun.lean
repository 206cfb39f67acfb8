import IscDhcp.Mdb.TimerWalk

/-!
The expiry timer of a pool without a failover peer, over sequences of `supersede_lease` and
`pool_timer` calls.

`next_event_time` is the time the pool's timer is set to, as far as the pool knows. When
`pool_timer` is not called by the timer, it may set it to `MIN_TIME` while the timeout is still
pending; the next lease with a time to come then replaces that timeout, be it later or not.
-/

namespace IscDhcp.TimerRun

open List

variable {ι : Type} [DecidableEq ι]

/-! ### The timer and the times to come -/

/-- Some lease of the pool is to change its state at the time `x` to come. -/
def Due (s : Db ι) (p : ℕ) (x : Time) : Prop :=
  ∃ i, (s.lease i).pool = some p ∧ (s.lease i).nextBindingState ≠ (s.lease i).bindingState ∧
    (s.lease i).sortTime = x ∧ s.curTime < x ∧ x < maxTime

/-- For every change to come a timeout of the pool is pending that is not later. -/
def Pending (s : Db ι) (p : ℕ) : Prop :=
  ∀ i, (s.lease i).pool = some p → (s.lease i).nextBindingState ≠ (s.lease i).bindingState →
    s.curTime < (s.lease i).sortTime → (s.lease i).sortTime < maxTime →
    ∃ T : ℕ, (TimeoutFn.poolTimer p, T) ∈ s.timeouts ∧ T ≤ (s.lease i).sortTime

lemma pending_iff {s : Db ι} {p : ℕ} :
    Pending s p ↔ ∀ x, Due s p x → ∃ T : ℕ, (TimeoutFn.poolTimer p, T) ∈ s.timeouts ∧ T ≤ x := by
  constructor
  · rintro h x ⟨i, hp, hn, rfl, hl, hm⟩
    exact h i hp hn hl hm
  · exact fun h i hp hn hl hm => h _ ⟨i, hp, hn, rfl, hl, hm⟩

instance [Fintype ι] (s : Db ι) (p : ℕ) : Decidable (Pending s p) :=
  decidable_of_iff (∀ i, (s.lease i).pool = some p →
      (s.lease i).nextBindingState ≠ (s.lease i).bindingState → s.curTime < (s.lease i).sortTime →
      (s.lease i).sortTime < maxTime →
      ∃ e ∈ s.timeouts, e.1 = TimeoutFn.poolTimer p ∧ e.2 ≤ (s.lease i).sortTime) <| by
    refine forall_congr' fun i => forall₄_congr fun _ _ _ _ => ⟨?_, ?_⟩
    · rintro ⟨⟨_, T⟩, he, rfl, hle⟩
      exact ⟨T, he, hle⟩
    · rintro ⟨T, he, hle⟩
      exact ⟨_, he, rfl, hle⟩

def isTimer (p : ℕ) (e : TimeoutFn × Time) : Bool := e.1 = .poolTimer p

/-- What holds of the timer of a pool: `net` is the time the pool has it set to, `tos` are the
pending timeouts and `F` the times to come. -/
structure Armed (p : ℕ) (net : Time) (tos : List (TimeoutFn × Time)) (F : Time → Prop) : Prop where
  one : tos.countP (isTimer p) ≤ 1
  -- an interval is only shortened if the time is beyond `MAX_TIME`
  set : net ≠ minTime → ∃ T : ℕ, (TimeoutFn.poolTimer p, T) ∈ tos ∧ T ≤ net ∧
    (T = net ∨ maxTime ≤ net)
  first : net ≠ minTime → ∀ x, F x → net ≤ x
  pending : ∀ x, F x → ∃ T : ℕ, (TimeoutFn.poolTimer p, T) ∈ tos ∧ T ≤ x

/-- The timeouts after `add_timeout` for the pool. -/
def replaced (p now t : ℕ) (tos : List (TimeoutFn × Time)) : List (TimeoutFn × Time) :=
  (.poolTimer p, now + if t - now ≥ timeMax then timeMax - 1 else t - now) :: tos.eraseP (isTimer p)

section Replaced

variable {p : ℕ} {now t : ℕ} {tos : List (TimeoutFn × Time)}

section

variable (h : tos.countP (isTimer p) ≤ 1)

include h

lemma countP_replaced : (replaced p now t tos).countP (isTimer p) = 1 := by
  simp [replaced, Lib.eraseP_eq_filter h, isTimer, countP_filter]

lemma mem_replaced (ht : now < t) {T : ℕ} : (TimeoutFn.poolTimer p, T) ∈ replaced p now t tos ↔
      T = if t - now ≥ timeMax then now + (timeMax - 1) else t := by
  have hnot : (TimeoutFn.poolTimer p, T) ∉ tos.eraseP (isTimer p) := by
    simp [Lib.eraseP_eq_filter h, isTimer]
  simp only [replaced, mem_cons, hnot, or_false, Prod.mk.injEq, true_and]
  split_ifs
  · rfl
  · rw [Nat.add_sub_cancel' ht.le]

lemma exists_replaced (ht : now < t) :
    ∃ T : ℕ, (TimeoutFn.poolTimer p, T) ∈ replaced p now t tos ∧ T ≤ t ∧ (T = t ∨ maxTime ≤ t) := by
  refine ⟨_, (mem_replaced h ht).mpr rfl, ?_, ?_⟩
  · split_ifs with hc
    · omega
    · exact le_rfl
  · split_ifs with hc
    · refine .inr ?_
      unfold timeMax at hc
      change 2147483647 ≤ t
      omega
    · exact .inl rfl

lemma late_replaced (hnow : 0 < now) {x : ℕ} (hx : now < x) (hxt : x < t) (hmax : x < maxTime) :
    ¬ ∃ T : ℕ, (TimeoutFn.poolTimer p, T) ∈ replaced p now t tos ∧ T ≤ x := by
  rintro ⟨T, hT, hle⟩
  rw [mem_replaced h (hx.trans hxt)] at hT
  subst hT
  unfold maxTime at hmax
  unfold timeMax at hle
  split_ifs at hle <;> omega

lemma Armed.replaced {F : Time → Prop} (ht : now < t)
    (hF : ∀ x, F x → t ≤ x) : Armed p t (replaced p now t tos) F := by
  obtain ⟨T, hT, hle, hor⟩ := exists_replaced h ht
  exact ⟨(countP_replaced h).le, fun _ => ⟨T, hT, hle, hor⟩, fun _ => hF,
    fun x hx => ⟨T, hT, hle.trans (hF x hx)⟩⟩

end

end Replaced

/-! ### The timer after a run of `pool_timer` -/

variable {s t : Db ι} {p : ℕ}

lemma timerOf_schedulePool (s : Db ι) (p : ℕ) (t : Time) :
    (s.schedulePool p t).timerOf p = (t, replaced p s.curTime t s.timeouts) := by
  simp [Db.timerOf, Db.schedulePool, Db.setNextEventTime, Db.setPool, Db.addTimeout]
  rfl

lemma timerOf_setNextEventTime (s : Db ι) (p : ℕ) (t : Time) :
    (s.setNextEventTime p t).timerOf p = (t, s.timeouts) := by
  simp [Db.timerOf, Db.setNextEventTime, Db.setPool]

lemma settled_of_strip (h : s.Settled p) (hs : t.strip = s.strip) (hl : t.lease = s.lease) :
    t.Settled p := by
  have hq : (t.pool p).queue = (s.pool p).queue := Db.eq_of_strip hs (fun s => (s.pool p).queue)
  refine ⟨⟨h.running.queued.of_strip hs, ?_⟩, ?_, ?_, fun q => ?_, ?_⟩
  · exact (Db.eq_of_strip hs Db.ssQfollow).trans h.running.ssQfollow
  · exact (Db.eq_of_strip hs (fun s => (s.pool p).failoverPeer)).trans h.unpeered
  · rw [hl]
    exact h.valid
  · have hb : t.before = s.before := by
      unfold Db.before
      rw [hl]
    rw [hq, hb]
    exact h.sorted q
  · rw [hl]
    exact h.ends

lemma updateTimer_lease (s : Db ι) (p : ℕ) (ne : Time) :
    (s.updateTimer p ne).lease = s.lease ∧ (s.updateTimer p ne).curTime = s.curTime := by
  unfold Db.updateTimer
  extract_lets
  split_ifs <;> exact ⟨rfl, rfl⟩

lemma due_congr (hl : t.lease = s.lease) (hc : t.curTime = s.curTime) {x : Time} :
    Due t p x ↔ Due s p x := by
  rw [Due, Due, hl, hc]

/-- The pool knows its timer, and no change to come is without one. -/
structure Inv (p : ℕ) (s : Db ι) : Prop where
  settled : s.Settled p
  now : 0 < s.curTime
  armed : Armed p (s.pool p).nextEventTime s.timeouts (Due s p)

lemma Armed.of_timerOf {net : Time} {tos : List (TimeoutFn × Time)} {F : Time → Prop}
    (ht : t.timerOf p = (net, tos)) (h : Armed p net tos F) :
    Armed p (t.pool p).nextEventTime t.timeouts F := by
  cases ht
  exact h

lemma updateTimer_armed {ne : Time} (hone : s.timeouts.countP (isTimer p) ≤ 1)
    (hset : s.curTime < (s.pool p).nextEventTime → (s.pool p).nextEventTime < maxTime →
      ∃ T : ℕ, (TimeoutFn.poolTimer p, T) ∈ s.timeouts ∧ T ≤ (s.pool p).nextEventTime)
    (hgt : ne = maxTime ∨ s.curTime < ne) (hcov : ∀ x, Due s p x → ne ≤ x) :
    Armed p ((s.updateTimer p ne).pool p).nextEventTime (s.updateTimer p ne).timeouts
      (Due (s.updateTimer p ne) p) := by
  obtain ⟨hl, hc⟩ := updateTimer_lease s p ne
  have hF : Due (s.updateTimer p ne) p = Due s p := funext fun x => propext (due_congr hl hc)
  rw [hF]
  by_cases hcond : ne ≠ maxTime ∧
    ((s.pool p).nextEventTime > ne ∨ (s.pool p).nextEventTime ≤ s.curTime)
  · have hu : s.updateTimer p ne = s.schedulePool p ne := if_pos hcond
    rw [hu]
    exact (Armed.replaced hone (hgt.resolve_left hcond.1) hcov).of_timerOf (timerOf_schedulePool ..)
  · have hu : s.updateTimer p ne = s.setNextEventTime p minTime := if_neg hcond
    rw [hu]
    refine Armed.of_timerOf (timerOf_setNextEventTime ..)
      ⟨hone, fun h => absurd rfl h, fun h => absurd rfl h, fun x hx => ?_⟩
    -- a change is to come, so the timer is still to run out, and not later
    have hxm : x < maxTime := by
      obtain ⟨-, -, -, -, -, hm⟩ := hx
      exact hm
    have hle := hcov x hx
    have hne : ne ≠ maxTime := by order
    rw [not_and, not_or, not_lt, not_le] at hcond
    obtain ⟨hnet, hnow⟩ := hcond hne
    obtain ⟨T, hT, hTle⟩ := hset hnow (by order)
    exact ⟨T, hT, (hTle.trans hnet).trans hle⟩

section PoolTimer

variable [Fintype ι]

/-- `pool_timer` puts the timer right, unless a timeout the pool relies on is missing. -/
lemma poolTimer_inv (hs : s.Settled p) (hnow : 0 < s.curTime)
    (hone : s.timeouts.countP (isTimer p) ≤ 1)
    (hset : s.curTime < (s.pool p).nextEventTime → (s.pool p).nextEventTime < maxTime →
      ∃ T : ℕ, (TimeoutFn.poolTimer p, T) ∈ s.timeouts ∧ T ≤ (s.pool p).nextEventTime) :
    ∃ t, s.poolTimer p = some t ∧ Inv p t := by
  obtain ⟨u, ne, ht, hw, -, hgt, hcov⟩ := Db.poolTimer_walked hs
  obtain ⟨hn, hto⟩ := Prod.mk.inj hw.timer
  obtain ⟨hl, hc⟩ := updateTimer_lease u p ne
  refine ⟨_, ht, settled_of_strip hw.settled (u.strip_updateTimer p ne) hl, ?_, ?_⟩
  · rw [hc, hw.curTime]
    exact hnow
  · refine updateTimer_armed ?_ ?_ ?_ ?_
    · rw [hto]
      exact hone
    · rw [hn, hto, hw.curTime]
      exact hset
    · rw [hw.curTime]
      exact hgt
    · rintro x ⟨i, hp, -, rfl, hl, -⟩
      exact hcov i hp (by rwa [hw.curTime] at hl)

end PoolTimer

/-! ### The timer after `supersede_lease` -/

def newEnds (s : Db ι) (comp : ι) (lease : Option Lease) : Time :=
  lease.elim (s.lease comp).ends Lease.ends

lemma sample_moved [Fintype ι] (hs : s.Settled p) {comp : ι} (hp : (s.lease comp).pool = some p)
    {lease : Option Lease} (hv : ∀ l ∈ lease, l.nextBindingState.isValid = true)
    {commit pimmediate : Bool} (propogate : Bool) (hc : (commit || !pimmediate) = true) :
    ∃ ok t, (lease.elim s (s.copySample comp)).justMoveIt comp (lease.map Lease.flags) commit
        propogate pimmediate = some (ok, t) ∧ t.Settled p ∧ t.curTime = s.curTime ∧
      (∀ j, j ≠ comp → (t.lease j).calm = (s.lease j).calm) ∧
      (t.lease comp).pool = some p ∧ (t.lease comp).sortTime = newEnds s comp lease ∧
      t.timerOf p = (s.arm p (newEnds s comp lease)).timerOf p := by
  obtain ⟨u, hu, hut, hother, hpool, hends, hcur, htimer⟩ : ∃ u : Db ι,
      u = lease.elim s (s.copySample comp) ∧ u.Timed p (· = comp) ∧
      (∀ j, j ≠ comp → u.lease j = s.lease j) ∧ (u.lease comp).pool = some p ∧
      (u.lease comp).ends = newEnds s comp lease ∧ u.curTime = s.curTime ∧
      u.timerOf p = s.timerOf p := by
    cases lease with
    | none =>
      exact ⟨s, rfl, { hs with ends := fun i _ => hs.ends i id },
        fun _ _ => rfl, hp, rfl, rfl, rfl⟩
    | some l =>
      obtain ⟨cls, uids, hws, b, hu⟩ := s.copySample_eq comp l
      have hself : (s.copySample comp l).lease comp = Db.sampled l b (s.lease comp) := by
        rw [hu]
        exact Db.modify_lease_self s comp _
      have hother (j : ι) (hj : j ≠ comp) : (s.copySample comp l).lease j = s.lease j := by
        rw [hu]
        exact Db.modify_lease_of_ne s hj _
      have hpool : (s.copySample comp l).pool = s.pool := by rw [hu]; rfl
      have hsort (j : ι) : ((s.copySample comp l).lease j).sortTime = (s.lease j).sortTime := by
        by_cases hj : j = comp
        · subst hj
          rw [hself]
          rfl
        · rw [hother j hj]
      refine ⟨s.copySample comp l, rfl,
        ⟨(Db.copySample_keeps hs.running comp l).1, ?_, fun i hi => ?_, fun q => ?_,
        fun i hi hpi => ?_⟩, hother, ?_, ?_, ?_, ?_⟩
      · rw [hpool, hs.unpeered]
      · by_cases hic : i = comp
        · subst hic
          rw [hself]
          exact ⟨(hs.valid i hp).1, hv l rfl⟩
        · rw [hother i hic] at hi ⊢
          exact hs.valid i hi
      · have hb : (s.copySample comp l).before = s.before := by
          funext a b
          simp [Db.before, hsort]
        rw [hpool, hb]
        exact hs.sorted q
      · rw [hother i hi] at hpi ⊢
        exact hs.ends i id hpi
      · rw [hself]
        exact hp
      · rw [hself]
        rfl
      · rw [hu]
        rfl
      · rw [hu]
        rfl
  obtain ⟨ok, t, ht, hm⟩ := Db.justMoveIt_movedAt comp (lease.map Lease.flags) commit propogate
    pimmediate hut hpool hc
  refine ⟨ok, t, hu ▸ ht, hm.timed, hm.curTime.trans hcur, fun j hj => ?_, hm.pool.trans hpool,
    hm.sortTime.trans hends, ?_⟩
  · rw [hm.others j hj, hother j hj]
  · rw [hm.timer, hends]
    exact Db.timerOf_arm htimer hcur _

/-- The call is made while the pool has no timer set, as far as it knows, and gives the lease an
end that comes later than the change of another lease of the pool. -/
def Overtakes (p : ℕ) (s : Db ι) (comp : ι) (lease : Option Lease) : Prop :=
  (s.pool p).nextEventTime = minTime ∧ ∃ i, i ≠ comp ∧ (s.lease i).pool = some p ∧
    (s.lease i).nextBindingState ≠ (s.lease i).bindingState ∧ s.curTime < (s.lease i).sortTime ∧
    (s.lease i).sortTime < maxTime ∧ (s.lease i).sortTime < newEnds s comp lease

variable {comp : ι} {lease : Option Lease}

lemma Due.of_moved {e : Time} (hother : ∀ j, j ≠ comp → (t.lease j).calm = (s.lease j).calm)
    (hself : (t.lease comp).sortTime = e) {x : Time} (h : Due t p x) :
    x = e ∨ ∃ i, i ≠ comp ∧ (s.lease i).pool = some p ∧
      (s.lease i).nextBindingState ≠ (s.lease i).bindingState ∧ (s.lease i).sortTime = x := by
  obtain ⟨i, hp, hn, hx, -, -⟩ := h
  by_cases hi : i = comp
  · subst hi
    exact .inl (hx.symm.trans hself)
  · have hl := hother i hi
    refine .inr ⟨i, hi, (Lease.eq_of_calm hl Lease.pool).symm.trans hp, fun he => hn ?_,
      (Lease.eq_of_calm hl Lease.sortTime).symm.trans hx⟩
    rw [Lease.eq_of_calm hl Lease.nextBindingState, Lease.eq_of_calm hl Lease.bindingState, he]

lemma armed_of_moved (h : Inv p s) (hno : ¬ Overtakes p s comp lease) (hcur : t.curTime = s.curTime)
    (hother : ∀ j, j ≠ comp → (t.lease j).calm = (s.lease j).calm)
    (hself : (t.lease comp).sortTime = newEnds s comp lease)
    (htimer : t.timerOf p = (s.arm p (newEnds s comp lease)).timerOf p) :
    Armed p (t.pool p).nextEventTime t.timeouts (Due t p) := by
  obtain ⟨hone, hset, hfirst, hpend⟩ := h.armed
  have hdue {x : Time} (hx : Due t p x) : x = newEnds s comp lease ∨ ∃ i, i ≠ comp ∧
      (s.lease i).pool = some p ∧ (s.lease i).nextBindingState ≠ (s.lease i).bindingState ∧
      (s.lease i).sortTime = x := hx.of_moved hother hself
  have hnow {x : Time} (hx : Due t p x) : s.curTime < x ∧ x < maxTime := by
    obtain ⟨-, -, -, -, hl, hm⟩ := hx
    exact ⟨hcur ▸ hl, hm⟩
  set e := newEnds s comp lease with he
  by_cases hc : e ≠ minTime ∧ e > s.curTime ∧
      (e < (s.pool p).nextEventTime ∨ (s.pool p).nextEventTime = minTime)
  · rw [Db.arm, if_pos hc, timerOf_schedulePool] at htimer
    refine (Armed.replaced hone hc.2.1 fun x hx => ?_).of_timerOf htimer
    rcases hdue hx with rfl | ⟨i, hi, hp, hn, hix⟩
    · exact le_rfl
    · have hx' : Due s p x := ⟨i, hp, hn, hix, (hnow hx).1, (hnow hx).2⟩
      rcases hc.2.2 with hlt | hmin
      · have hne : (s.pool p).nextEventTime ≠ minTime := (Nat.zero_lt_of_lt hlt).ne'
        exact hlt.le.trans (hfirst hne x hx')
      · by_contra hlt
        exact hno ⟨hmin, i, hi, hp, hn, hix ▸ (hnow hx).1, hix ▸ (hnow hx).2, hix ▸ not_le.mp hlt⟩
  · rw [Db.arm, if_neg hc] at htimer
    have hcase {x : Time} (hx : Due t p x) :
        Due s p x ∨ (s.pool p).nextEventTime ≠ minTime ∧ (s.pool p).nextEventTime ≤ x := by
      rcases hdue hx with rfl | ⟨i, hi, hp, hn, hix⟩
      · have hpos : e ≠ minTime := (Nat.zero_lt_of_lt (hnow hx).1).ne'
        exact .inr ⟨fun h => hc ⟨hpos, (hnow hx).1, .inr h⟩,
          not_lt.mp fun h => hc ⟨hpos, (hnow hx).1, .inl h⟩⟩
      · exact .inl ⟨i, hp, hn, hix, (hnow hx).1, (hnow hx).2⟩
    refine Armed.of_timerOf htimer ⟨hone, hset, fun hne x hx => ?_, fun x hx => ?_⟩
    · rcases hcase hx with hx' | ⟨-, hle⟩
      · exact hfirst hne x hx'
      · exact hle
    · rcases hcase hx with hx' | ⟨hne, hle⟩
      · exact hpend x hx'
      · obtain ⟨T, hT, hTle, -⟩ := hset hne
        exact ⟨T, hT, hTle.trans hle⟩

/-- A lease that overtakes another leaves it without a timeout. -/
lemma not_pending_of_overtakes (h : Inv p s) (ho : Overtakes p s comp lease)
    (hcur : t.curTime = s.curTime) (hother : ∀ j, j ≠ comp → (t.lease j).calm = (s.lease j).calm)
    (htimer : t.timerOf p = (s.arm p (newEnds s comp lease)).timerOf p) : ¬ Pending t p := by
  obtain ⟨hmin, i, hi, hp, hn, hnow, hmax, hlt⟩ := ho
  have hl := hother i hi
  have hcond : newEnds s comp lease ≠ minTime ∧ newEnds s comp lease > s.curTime ∧
      (newEnds s comp lease < (s.pool p).nextEventTime ∨ (s.pool p).nextEventTime = minTime) :=
    ⟨(Nat.zero_lt_of_lt hlt).ne', hnow.trans hlt, .inr hmin⟩
  rw [Db.arm, if_pos hcond, timerOf_schedulePool] at htimer
  intro hpend
  rw [pending_iff, (Prod.mk.inj htimer).2] at hpend
  refine late_replaced h.armed.one h.now hnow hlt hmax
    (hpend _ ⟨i, ?_, fun he => hn ?_, ?_, ?_, hmax⟩)
  · exact (Lease.eq_of_calm hl Lease.pool).trans hp
  · rw [← Lease.eq_of_calm hl Lease.nextBindingState, he, Lease.eq_of_calm hl Lease.bindingState]
  · exact Lease.eq_of_calm hl Lease.sortTime
  · rw [hcur]
    exact hnow

/-! ### Runs -/

inductive Op (ι : Type)
  | pass (d : ℕ)
  | supersede (comp : ι) (lease : Option Lease) (commit propogate pimmediate : Bool)
  /-- `pool_timer` is called directly. -/
  | timer
  /-- The dispatcher runs the pending timeout of the pool, if its time has come. -/
  | fire

/-- The call concerns a lease of the pool, and a sample lease is to move to a valid state. -/
def Op.Legal (p : ℕ) (s : Db ι) : Op ι → Prop
  | .supersede comp lease _ _ _ => (s.lease comp).pool = some p ∧
      ∀ l ∈ lease, l.nextBindingState.isValid = true
  | _ => True

/-- The call is carried out, and makes its lease overtake another. -/
def Op.Overtakes (p : ℕ) (s : Db ι) : Op ι → Prop
  | .supersede comp lease commit _ pimmediate =>
    (pimmediate && !commit) = false ∧ (lease.any fun l => l.flags.staticLease) = false ∧
      TimerRun.Overtakes p s comp lease
  | _ => False

variable [Fintype ι]

def step (p : ℕ) (s : Db ι) : Op ι → Option (Db ι)
  | .pass d => some { s with curTime := s.curTime + d }
  | .supersede comp lease commit propogate pimmediate =>
    (s.supersedeLease comp lease commit propogate pimmediate).map Prod.snd
  | .timer => s.poolTimer p
  | .fire =>
    match s.timeouts.find? fun e => isTimer p e && e.2 ≤ s.curTime with
    | none => some s
    | some e => Db.poolTimer { s with timeouts := s.timeouts.erase e } p

/-- No call of the run is fatal, and `P` holds of every state reached. -/
def AllReached (p : ℕ) (P : Db ι → Prop) (s : Db ι) : List (Op ι) → Prop
  | [] => P s
  | op :: ops => P s ∧ ∃ t, step p s op = some t ∧ AllReached p P t ops

/-- `C` holds of every step of the run. -/
def AllSteps (p : ℕ) (C : Db ι → Op ι → Prop) (s : Db ι) : List (Op ι) → Prop
  | [] => True
  | op :: ops => C s op ∧ ∀ t, step p s op = some t → AllSteps p C t ops

instance decidableAllReached {P : Db ι → Prop} [DecidablePred P] (s : Db ι) :
    (ops : List (Op ι)) → Decidable (AllReached p P s ops)
  | [] => inferInstanceAs (Decidable (P s))
  | op :: ops =>
    match h : step p s op with
    | none => isFalse (by simp [AllReached, h])
    | some t =>
      have := decidableAllReached (P := P) t ops
      decidable_of_iff (P s ∧ AllReached p P t ops) (by simp [AllReached, h])

instance decidableAllSteps {C : Db ι → Op ι → Prop} [∀ s op, Decidable (C s op)] (s : Db ι) :
    (ops : List (Op ι)) → Decidable (AllSteps p C s ops)
  | [] => inferInstanceAs (Decidable True)
  | op :: ops =>
    match h : step p s op with
    | none => decidable_of_iff (C s op) (by simp [AllSteps, h])
    | some t =>
      have := decidableAllSteps (C := C) t ops
      decidable_of_iff (C s op ∧ AllSteps p C t ops) (by simp [AllSteps, h])

instance (s : Db ι) : (op : Op ι) → Decidable (op.Legal p s)
  | .supersede comp lease _ _ _ =>
    inferInstanceAs (Decidable ((s.lease comp).pool = some p ∧
      ∀ l ∈ lease, l.nextBindingState.isValid = true))
  | .pass _ | .timer | .fire => inferInstanceAs (Decidable True)

lemma Inv.pending (h : Inv p s) : Pending s p := pending_iff.mpr h.armed.pending

lemma Inv.poolTimer (h : Inv p s) : ∃ t, s.poolTimer p = some t ∧ Inv p t :=
  poolTimer_inv h.settled h.now h.armed.one fun hlt _ => by
    obtain ⟨T, hT, hle, -⟩ := h.armed.set (Nat.zero_lt_of_lt hlt).ne'
    exact ⟨T, hT, hle⟩

lemma expireNow_inv (h : Inv p s) (hp : (s.lease comp).pool = some p) :
    ∃ t, s.expireNow comp = some t ∧ Inv p t := by
  unfold Db.expireNow
  split_ifs
  · rw [hp]
    exact h.poolTimer
  · exact ⟨s, rfl, h⟩

lemma supersede_step (h : Inv p s) {commit propogate pimmediate : Bool}
    (hl : Op.Legal p s (.supersede comp lease commit propogate pimmediate)) :
    ∃ t, step p s (.supersede comp lease commit propogate pimmediate) = some t ∧
      (¬ Op.Overtakes p s (.supersede comp lease commit propogate pimmediate) → Inv p t) ∧
      (Op.Overtakes p s (.supersede comp lease commit propogate pimmediate) → ¬ Pending t p) := by
  unfold step Db.supersedeLease
  by_cases hpi : (pimmediate && !commit) = true
  · exact ⟨s, by simp [hpi], fun _ => h, fun ho => by simp [Op.Overtakes, hpi] at ho⟩
  by_cases hst : (lease.any fun l => l.flags.staticLease) = true
  · exact ⟨s, by simp [hpi, hst], fun _ => h, fun ho => by simp [Op.Overtakes, hst] at ho⟩
  have hc : (commit || !pimmediate) = true := by
    cases commit <;> cases pimmediate <;> simp_all
  obtain ⟨ok, t, ht, hset, hcur, hother, hpool, hsort, htimer⟩ :=
    sample_moved h.settled hl.1 hl.2 propogate hc
  simp only [if_neg hpi, if_neg hst, ht, hc]
  have hiff : Op.Overtakes p s (.supersede comp lease commit propogate pimmediate) ↔
      Overtakes p s comp lease := by
    simp only [Op.Overtakes] at hpi hst ⊢
    simp [hpi, hst]
  rw [hiff]
  by_cases ho : Overtakes p s comp lease
  · -- the end of the lease is to come, so nothing else happens
    have hlate := not_pending_of_overtakes h ho hcur hother htimer
    have hexp : t.expireNow comp = some t := by
      refine if_neg fun hx => ?_
      obtain ⟨-, i, -, -, -, hnow, -, hlt⟩ := ho
      rw [hsort, hcur] at hx
      exact absurd hx.1 (not_lt.mpr (hnow.trans hlt).le)
    refine ⟨t, ?_, fun hno => absurd ho hno, fun _ => hlate⟩
    cases ok <;> simp [hexp]
  · have ht' : Inv p t :=
      ⟨hset, hcur ▸ h.now, armed_of_moved h ho hcur hother hsort htimer⟩
    obtain ⟨u, hu, hinv⟩ := expireNow_inv ht' hpool
    cases ok with
    | false => exact ⟨t, by simp, fun _ => ht', fun h => absurd h ho⟩
    | true => exact ⟨u, by simp [hu], fun _ => hinv, fun h => absurd h ho⟩

lemma eq_of_countP_le_one {α : Type*} {f : α → Bool} {l : List α} (h : l.countP f ≤ 1) {a b : α}
    (ha : a ∈ l) (hb : b ∈ l) (hfa : f a = true) (hfb : f b = true) : a = b := by
  have ha := mem_filter.mpr ⟨ha, hfa⟩
  have hb := mem_filter.mpr ⟨hb, hfb⟩
  rw [countP_eq_length_filter] at h
  match l.filter f, h, ha, hb with
  | [c], _, ha, hb => exact (mem_singleton.mp ha).trans (mem_singleton.mp hb).symm

lemma step_inv (h : Inv p s) {op : Op ι} (hl : op.Legal p s) :
    ∃ t, step p s op = some t ∧ (¬ op.Overtakes p s → Inv p t) ∧
      (op.Overtakes p s → ¬ Pending t p) := by
  cases op with
  | pass d =>
    refine ⟨_, rfl, fun _ => ?_, fun h => absurd h id⟩
    -- the times to come are fewer
    have hdue {x : Time} : Due { s with curTime := s.curTime + d } p x → Due s p x := by
      rintro ⟨i, hp, hn, hx, hlt, hm⟩
      exact ⟨i, hp, hn, hx, lt_of_le_of_lt (Nat.le_add_right _ _) hlt, hm⟩
    have hs := h.settled
    refine ⟨{ hs with running := ⟨{ hs.running.queued with }, hs.running.ssQfollow⟩ },
      Nat.lt_of_lt_of_le h.now (Nat.le_add_right _ _), h.armed.one, h.armed.set, ?_, ?_⟩
    · exact fun hne x hx => h.armed.first hne x (hdue hx)
    · exact fun x hx => h.armed.pending x (hdue hx)
  | supersede comp lease commit propogate pimmediate => exact supersede_step h hl
  | timer =>
    obtain ⟨t, ht, hinv⟩ := h.poolTimer
    exact ⟨t, ht, fun _ => hinv, fun h => absurd h id⟩
  | fire =>
    unfold step
    cases hf : s.timeouts.find? fun e => isTimer p e && e.2 ≤ s.curTime with
    | none => exact ⟨s, rfl, fun _ => h, fun h => absurd h id⟩
    | some e =>
      have hmem := mem_of_find?_eq_some hf
      have hfe := find?_some hf
      simp only [Bool.and_eq_true, decide_eq_true_eq] at hfe
      have hs := h.settled
      have hs' : Db.Settled p { s with timeouts := s.timeouts.erase e } :=
        settled_of_strip hs rfl rfl
      obtain ⟨t, ht, hinv⟩ := poolTimer_inv hs' h.now
        (erase_sublist.countP_le.trans h.armed.one) fun hlt hmax => by
          -- a timer whose time is to come is not the one that fires
          obtain ⟨T, hT, -, hor⟩ := h.armed.set (Nat.zero_lt_of_lt hlt).ne'
          have he := eq_of_countP_le_one h.armed.one hmem hT hfe.1 (by simp [isTimer])
          rcases hor with rfl | hor
          · rw [he] at hfe
            exact absurd hlt (not_lt.mpr hfe.2)
          · exact absurd hmax (not_lt.mpr hor)
      exact ⟨t, ht, fun _ => hinv, fun h => absurd h id⟩

/-- From a state in which the timer is right, it is right in every state reached exactly if no
lease overtakes another. -/
lemma allReached_iff (h : Inv p s) {ops : List (Op ι)}
    (hl : AllSteps p (fun s op => op.Legal p s) s ops) :
    AllReached p (Pending · p) s ops ↔ AllSteps p (fun s op => ¬ op.Overtakes p s) s ops := by
  induction ops generalizing s with
  | nil => exact ⟨fun _ => trivial, fun _ => h.pending⟩
  | cons op ops ih =>
    obtain ⟨t, ht, hok, hbad⟩ := step_inv h hl.1
    constructor
    · rintro ⟨-, u, hu, hall⟩
      obtain rfl : t = u := by simpa [ht] using hu
      have hpend : Pending t p := by
        cases ops with
        | nil => exact hall
        | cons => exact hall.1
      have hno : ¬ op.Overtakes p s := fun ho => hbad ho hpend
      refine ⟨hno, fun v hv => ?_⟩
      obtain rfl : t = v := by simpa [ht] using hv
      exact (ih (hok hno) (hl.2 t ht)).mp hall
    · rintro ⟨hno, hall⟩
      exact ⟨h.pending, t, ht, (ih (hok hno) (hl.2 t ht)).mpr (hall t ht)⟩

/-! ### Startup -/

/-- The leases of `D` have been put on their queues. -/
structure Filling (p : ℕ) (D : ι → Prop) (s : Db ι) : Prop where
  queued : QueuedOn D s
  follow : s.FollowOk
  unpeered : (s.pool p).failoverPeer = false
  valid : ∀ i, (s.lease i).pool = some p → (s.lease i).Valid
  sorted : ∀ q, ((s.pool p).queue q).Pairwise s.before
  ends : ∀ i, D i → (s.lease i).pool = some p → (s.lease i).sortTime = (s.lease i).ends

lemma leaseInstantiate_filling {D : ι → Prop} {i : ι} (h : Filling p D s) (hi : ¬ D i) :
    Filling p (fun j => j = i ∨ D j) (s.leaseInstantiate i) ∧
      (s.leaseInstantiate i).timerOf p = s.timerOf p ∧
      (s.leaseInstantiate i).curTime = s.curTime := by
  obtain ⟨hq, hf⟩ := Db.leaseInstantiate_queued h.queued h.follow hi
  have hne {j : ι} (hj : D j) : j ≠ i := fun he => hi (he ▸ hj)
  obtain ⟨hp, he⟩ | ⟨f, hfl, ⟨hb, he⟩ | ⟨p', q, cls, uids, hws, b, hp, he⟩⟩ :=
    s.leaseInstantiate_cases i
  · rw [he] at hq hf ⊢
    refine ⟨⟨hq, hf, h.unpeered, h.valid, h.sorted, ?_⟩, rfl, rfl⟩
    rintro j (rfl | hj) hpj
    · simp [hp] at hpj
    · exact h.ends j hj hpj
  · rw [he] at hq hf ⊢
    have hpi : (s.lease i).pool ≠ some p := fun hpi => by
      have hv := (hfl (s.lease i)).2 (h.valid i hpi)
      rw [queueOf_eq_none, hv.1] at hb
      cases hb
    have hpool : ((s.modify i f).lease i).pool ≠ some p := by
      rw [Db.modify_lease_self, (hfl _).1]
      exact hpi
    refine ⟨⟨hq, hf, h.unpeered, fun j hpj => ?_, fun q => ?_, fun j hj hpj => ?_⟩, rfl, rfl⟩
    · have hji : j ≠ i := by
        rintro rfl
        exact hpool hpj
      rw [Db.modify_lease_of_ne s hji] at hpj ⊢
      exact h.valid j hpj
    · exact Db.sorted_of_queuedOn h.queued h.sorted
        (fun j hj => by rw [Db.modify_lease_of_ne s (hne hj)]) q
    · have hji : j ≠ i := by
        rintro rfl
        exact hpool hpj
      rw [Db.modify_lease_of_ne s hji] at hpj ⊢
      exact h.ends j (hj.resolve_left hji) hpj
  · rw [he] at hq hf ⊢
    set u := s.modify i f with hu
    set t := ((u.enqueue p' q i).modify i fun l => { l with billingClass := b }).setTables cls
      uids hws with ht
    have hself : t.lease i =
        { u.lease i with sortTime := u.sortTimeOf p' q (u.lease i), billingClass := b } := by
      have := (u.enqueue p' q i).modify_lease_self i fun l => { l with billingClass := b }
      rw [Db.enqueue_lease_self] at this
      exact this
    have hother {j : ι} (hj : j ≠ i) : t.lease j = s.lease j :=
      ((u.enqueue p' q i).modify_lease_of_ne hj fun l => { l with billingClass := b }).trans
        ((u.enqueue_lease_of_ne p' q hj).trans (s.modify_lease_of_ne hj f))
    have hui : (u.lease i).pool = some p' := by
      rw [Db.modify_lease_self, (hfl _).1, hp]
    have hpeer : (t.pool p).failoverPeer = false :=
      (Db.enqueue_failoverPeer p' p q).trans h.unpeered
    have hsort (j : ι) : (t.lease j).sortTime = ((u.enqueue p' q i).lease j).sortTime :=
      (u.enqueue p' q i).proj_modify i Lease.sortTime (f := fun l => { l with billingClass := b })
        (fun _ => rfl) j
    have hbefore : t.before = (u.enqueue p' q i).before := by
      funext a b
      simp only [Db.before]
      rw [hsort a, hsort b]
    refine ⟨⟨hq, hf, hpeer, fun j hpj => ?_, fun q'' => ?_, fun j hj hpj => ?_⟩, ?_, rfl⟩
    · by_cases hji : j = i
      · subst hji
        rw [hself] at hpj ⊢
        have hv := (hfl (s.lease j)).2 (h.valid j ((hfl _).1.symm.trans
          ((congrArg Lease.pool (s.modify_lease_self j f)).symm.trans hpj)))
        rw [hu, Db.modify_lease_self]
        exact hv
      · rw [hother hji] at hpj ⊢
        exact h.valid j hpj
    · rw [hbefore]
      refine Db.sorted_enqueue (s := u) h.follow
        (Db.sorted_of_queuedOn (s := s) h.queued h.sorted fun j hj => ?_) q''
      exact congrArg Lease.sortTime ((u.enqueue_lease_of_ne p' q (hne hj)).trans
        (s.modify_lease_of_ne (hne hj) f))
    · by_cases hji : j = i
      · subst hji
        have hpp : p' = p :=
          Option.some.inj (hui.symm.trans ((congrArg Lease.pool hself).symm.trans hpj))
        have hup : (u.pool p').failoverPeer = false := by rw [hpp]; exact h.unpeered
        rw [hself]
        simp [Db.sortTimeOf, hup]
      · rw [hother hji] at hpj ⊢
        exact h.ends j (hj.resolve_left hji) hpj
    · exact u.timerOf_enqueue p p' q i

/-- The state before startup: the queues are empty, no timer of the pool is set, and the leases of
the pool have valid states. -/
structure Fresh (p : ℕ) (s : Db ι) : Prop where
  noQueues : s.NoQueues
  unpeered : (s.pool p).failoverPeer = false
  valid : ∀ i, (s.lease i).pool = some p → (s.lease i).Valid
  now : 0 < s.curTime
  net : (s.pool p).nextEventTime = minTime
  timeouts : s.timeouts = []

/-- `expire_all_pools`, as far as it concerns the pool. -/
def startup (p : ℕ) (s : Db ι) (leases : List ι) : Option (Db ι) :=
  ((s.instantiateAll leases).poolTimer p).map fun t => { t with ssNosync := false }

lemma startup_inv (h : Fresh p s) {leases : List ι} (hnd : leases.Nodup) (hall : ∀ i, i ∈ leases) :
    ∃ t, startup p s leases = some t ∧ Inv p t := by
  have h0 : Filling p (fun _ => False) { s with ssNosync := true, ssQfollow := true } := by
    have hq := h.noQueues
    refine ⟨⟨by simp [hq.queue], by simp [hq.queue], by simp [hq.free, hq.queue],
      by simp [hq.backup, hq.queue]⟩, by simp [Db.FollowOk, hq.lastInsert], h.unpeered, h.valid,
      by simp [hq.queue], fun _ hD => hD.elim⟩
  obtain ⟨hf, ht, hc⟩ := Db.foldl_leaseInstantiate (P := fun D t => Filling p D t ∧
      t.timerOf p = s.timerOf p ∧ t.curTime = s.curTime) (fun h hi => by
        obtain ⟨hf, ht, hc⟩ := leaseInstantiate_filling h.1 hi
        exact ⟨hf, ht.trans h.2.1, hc.trans h.2.2⟩) hnd hall ⟨h0, rfl, rfl⟩
  have hrun := Db.instantiateAll_queued h.noQueues hnd hall
  obtain ⟨hnet, hto⟩ := Prod.mk.inj ht
  have hs : Db.Settled p (s.instantiateAll leases) :=
    ⟨⟨hrun, rfl⟩, hf.unpeered, hf.valid, hf.sorted, fun i _ hp => hf.ends i trivial hp⟩
  have hcur : (s.instantiateAll leases).curTime = s.curTime := hc
  have htos : (s.instantiateAll leases).timeouts = s.timeouts := hto
  have hmin : ((s.instantiateAll leases).pool p).nextEventTime = (s.pool p).nextEventTime := hnet
  obtain ⟨t, ht, hinv⟩ := poolTimer_inv hs (hcur ▸ h.now) (by simp [htos, h.timeouts]) fun hlt => by
    rw [hmin, h.net] at hlt
    exact absurd hlt (Nat.not_lt_zero _)
  refine ⟨{ t with ssNosync := false }, by rw [startup, ht]; rfl, ?_⟩
  have hset := hinv.settled
  exact { hinv with
    settled := { hset with running := ⟨{ hset.running.queued with }, hset.running.2⟩ } }

/-- **The timer of a pool without a peer.** After startup no call is fatal, and in every state
reached each change to come has a timeout of the pool pending that is not later, exactly if no
call overtakes: if none that is made while `next_event_time` is `MIN_TIME` gives its lease an
end later than the change to come of another lease of the pool. -/
theorem timer_pending_iff (p : ℕ) (s : Db ι) (leases : List ι) (t : Db ι) (ops : List (Op ι))
    (h : Fresh p s) (hnd : leases.Nodup) (hall : ∀ i, i ∈ leases)
    (ht : startup p s leases = some t) (hl : AllSteps p (fun s op => op.Legal p s) t ops) :
    AllReached p (Pending · p) t ops ↔ AllSteps p (fun s op => ¬ op.Overtakes p s) t ops := by
  obtain ⟨u, hu, hinv⟩ := startup_inv h hnd hall
  obtain rfl : u = t := by simpa [ht] using hu.symm
  exact allReached_iff hinv hl

/-- A lease is renewed twice, and the timer fires in between. -/
theorem timer_pending_sample :
    let s : Db (Fin 2) :=
      { curTime := 50
        lease := fun i => if i = 0 then { pool := some 0 } else
          { pool := some 0, bindingState := .active, nextBindingState := .free, ends := 100 } }
    let lease (ends : Time) : Lease := { nextBindingState := .active, ends := ends }
    let ops : List (Op (Fin 2)) := [.supersede 0 (some (lease 90)) true true true, .pass 45, .fire,
      .supersede 1 (some (lease 300)) true true true]
    let t := (startup 0 s [1, 0]).get (by decide)
    AllReached 0 (Pending · 0) t ops ↔ AllSteps 0 (fun s op => ¬ op.Overtakes 0 s) t ops := by
  intro s lease ops t
  refine timer_pending_iff 0 s [1, 0] t ops
    ⟨⟨fun _ _ => rfl, fun _ => rfl, fun _ => rfl, rfl⟩, rfl, by decide, by decide, rfl, rfl⟩
    (by decide) (by decide) (Option.some_get _).symm (by decide)

/-- Lease 1 is granted with an end that has passed, so `pool_timer` is called while the timer of
lease 0 is still to run out; the grant of lease 2 then replaces it by a later one. -/
theorem timer_lost :
    let s : Db (Fin 3) :=
      { curTime := 50
        lease := fun i => if i = 0 then
          { pool := some 0, bindingState := .active, nextBindingState := .free, ends := 100 }
          else { pool := some 0 } }
    let lease (ends : Time) : Lease := { nextBindingState := .active, ends := ends }
    let ops : List (Op (Fin 3)) := [.supersede 1 (some (lease 10)) true true true,
      .supersede 2 (some (lease 200)) true true true]
    let t := (startup 0 s [0, 1, 2]).get (by decide)
    Fresh 0 s ∧ AllSteps 0 (fun s op => op.Legal 0 s) t ops ∧
      ¬ AllReached 0 (Pending · 0) t ops := by
  refine ⟨⟨⟨fun _ _ => rfl, fun _ => rfl, fun _ => rfl, rfl⟩, rfl, by decide, by decide, rfl, rfl⟩,
    by decide, by decide⟩

end IscDhcp.TimerRun
