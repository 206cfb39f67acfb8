import IscDhcp.Mdb.Writes

/-!
Properties that hold after a call of `supersede_lease` or `pool_timer` because no part of a
lease's move can break them.
-/

namespace IscDhcp

open Option

variable {ι : Type} [DecidableEq ι] [Fintype ι]

namespace Db

/-- No move that `pool_timer` makes breaks `P`. -/
structure TimerInvariant (P : Db ι → Prop) : Prop where
  move : ∀ {s t i ok}, P s → (s.rewind i).justMoveIt i none true true true = some (ok, t) → P t
  updateTimer : ∀ {s} p e, P s → P (s.updateTimer p e)

namespace TimerInvariant

variable {P : Db ι → Prop} (hP : TimerInvariant P) {s t : Db ι}
include hP

lemma runQueue (h : P s) {p : ℕ} {q : Queue} {n : ℕ} {lease : Option ι} {e e' : Time}
    (ht : runQueue p q n s lease e = some (t, e')) : P t := by
  induction n generalizing s lease e with
  | zero => cases ht
  | succ n ih =>
    cases lease with
    | none =>
      cases ht
      exact h
    | some i =>
      simp only [Db.runQueue] at ht
      by_cases hlate : (s.lease i).sortTime > s.curTime
      · rw [if_pos hlate] at ht
        cases ht
        exact h
      rw [if_neg hlate] at ht
      split_ifs at ht
      · obtain ⟨⟨ok, v⟩, hv, ht⟩ := bind_eq_some_iff.mp ht
        exact ih (hP.move h hv) ht
      · exact ih h ht

lemma poolTimer (h : P s) {p : ℕ} (ht : s.poolTimer p = some t) : P t := by
  have hfold (l : List Queue) {x y : Db ι × Time} (hx : P x.1)
      (hy : l.foldlM (poolTimerQueue p) x = some y) : P y.1 := by
    induction l generalizing x with
    | nil =>
      cases hy
      exact hx
    | cons q l ih =>
      simp only [List.foldlM_cons, bind_eq_bind, bind_eq_some_iff] at hy
      obtain ⟨z, hz, hy⟩ := hy
      refine ih ?_ hy
      unfold poolTimerQueue at hz
      split_ifs at hz
      · exact some.inj hz ▸ hx
      · exact hP.runQueue hx hz
  simp only [Db.poolTimer, bind_eq_bind, bind_eq_some_iff] at ht
  obtain ⟨⟨v, e⟩, hv, ht⟩ := ht
  cases ht
  exact hP.updateTimer p e (hfold _ h hv)

lemma expireNow (h : P s) {comp : ι} (ht : s.expireNow comp = some t) : P t := by
  unfold Db.expireNow at ht
  split_ifs at ht
  · cases hp : (s.lease comp).pool with
    | none =>
      rw [hp] at ht
      exact some.inj ht ▸ h
    | some p =>
      rw [hp] at ht
      exact hP.poolTimer h ht
  · exact some.inj ht ▸ h

end TimerInvariant

/-- No part of a move breaks `P`. -/
structure MoveInvariant (P : Db ι → Prop) : Prop where
  clearAtsfp : ∀ {s} comp propogate, P s → P (s.clearAtsfp comp propogate)
  setPool : ∀ {s} p x, P s → P (s.setPool p x)
  moveOn : ∀ {s} comp flags trans, P s → P (s.moveOn comp flags trans)
  leaseEnqueue : ∀ {s} comp, P s → P (s.leaseEnqueue comp).2
  recordMove : ∀ {s} comp p commit propogate pimmediate, P s →
    P (s.recordMove comp p commit propogate pimmediate).2
  rewind : ∀ {s} i, P s → P (s.rewind i)
  updateTimer : ∀ {s} p e, P s → P (s.updateTimer p e)

/-- `P` allows for what a move writes into the pools, the timers and, apart from its transition,
the lease. -/
structure MoveFrame (P : Db ι → Prop) : Prop where
  setPool : ∀ {s} p x, P s → P (s.setPool p x)
  schedulePool : ∀ {s} p t, P s → P (s.schedulePool p t)
  lastInsert : ∀ {s} last, P s → P { s with lastInsert := last }
  atsfp : ∀ {s} i, P s → P (s.modify i fun l => { l with atsfp := 0 })
  modify : ∀ {s} i (sort : Lease → Time) (next : Lease → BindingState), P s →
    P (s.modify i fun l => { l with sortTime := sort l, nextBindingState := next l })

lemma MoveFrame.moveInvariant {P : Db ι → Prop} (hP : MoveFrame P)
    (moveOn : ∀ {s} comp flags trans, P s → P (s.moveOn comp flags trans))
    (recordMove : ∀ {s} comp p commit propogate pimmediate, P s →
      P (s.recordMove comp p commit propogate pimmediate).2) : MoveInvariant P where
  moveOn := moveOn
  recordMove := recordMove
  setPool := hP.setPool
  clearAtsfp comp propogate h := by
    unfold clearAtsfp
    split_ifs
    exacts [hP.atsfp comp h, h]
  leaseEnqueue comp h := by
    unfold leaseEnqueue
    split
    · exact h
    · split
      · exact h
      · exact hP.lastInsert _ (hP.setPool _ _ (hP.modify comp _ _ (hP.setPool _ _ h)))
  rewind i h := by
    unfold rewind
    extract_lets l
    split_ifs
    exacts [hP.modify i _ _ h, h]
  updateTimer p e h := by
    unfold updateTimer
    extract_lets net
    split_ifs
    exacts [hP.schedulePool p e h, hP.setPool p _ h]

namespace MoveInvariant

variable {P : Db ι → Prop} (hP : MoveInvariant P) {s t : Db ι}
include hP

lemma justMoveIt (h : P s) {comp : ι} {flags : Option Flags} {commit propogate pimmediate ok : Bool}
    (ht : s.justMoveIt comp flags commit propogate pimmediate = some (ok, t)) : P t := by
  have hc := hP.clearAtsfp comp propogate h
  unfold Db.justMoveIt at ht
  generalize s.clearAtsfp comp propogate = v at hc ht
  cases hp : (v.lease comp).pool with
  | none =>
    simp only [hp, some.injEq, Prod.mk.injEq] at ht
    exact ht.2 ▸ hc
  | some p =>
    cases hq : queueOf (v.lease comp) with
    | none =>
      simp only [hp, hq, some.injEq, Prod.mk.injEq] at ht
      exact ht.2 ▸ hc
    | some q =>
      simp only [hp, hq, bind_eq_bind, bind_eq_some_iff] at ht
      obtain ⟨w, hw, ht⟩ := ht
      have hwp : P w := by
        unfold leaseRemove at hw
        split_ifs at hw
        cases hw
        exact hP.setPool p _ (hP.setPool p _ hc)
      have hm := hP.leaseEnqueue comp (hP.moveOn comp flags (commit || !pimmediate) hwp)
      generalize (w.moveOn comp flags (commit || !pimmediate)).leaseEnqueue comp = r at hm ht
      rcases r with ⟨_ | _, x⟩
      · cases ht
        exact hm
      · have hr := hP.recordMove comp p commit propogate pimmediate hm
        rwa [some.inj ht] at hr

lemma timer : TimerInvariant P where
  move h ht := hP.justMoveIt (hP.rewind _ h) ht
  updateTimer := hP.updateTimer

lemma poolTimer (h : P s) {p : ℕ} (ht : s.poolTimer p = some t) : P t := hP.timer.poolTimer h ht

lemma supersedeLease {comp : ι} {lease : Option Lease} {commit propogate pimmediate ok : Bool}
    (hc : P (lease.elim s (s.copySample comp)))
    (ht : s.supersedeLease comp lease commit propogate pimmediate = some (ok, t)) :
    t = s ∨ P t := by
  unfold Db.supersedeLease at ht
  by_cases hpi : (pimmediate && !commit) = true
  · rw [if_pos hpi] at ht
    exact .inl (Prod.mk.inj (some.inj ht)).2.symm
  rw [if_neg hpi] at ht
  by_cases hst : (lease.any fun l => l.flags.staticLease) = true
  · rw [if_pos hst] at ht
    exact .inl (Prod.mk.inj (some.inj ht)).2.symm
  rw [if_neg hst] at ht
  simp only [bind_eq_bind, bind_eq_some_iff] at ht
  obtain ⟨⟨ok', v⟩, hv, ht⟩ := ht
  have hvp := hP.justMoveIt hc hv
  split_ifs at ht
  · simp only [bind_eq_some_iff] at ht
    obtain ⟨w, hw, ht⟩ := ht
    cases ht
    exact .inr (hP.timer.expireNow hvp hw)
  · cases ht
    exact .inr hvp

end MoveInvariant

end Db

end IscDhcp
