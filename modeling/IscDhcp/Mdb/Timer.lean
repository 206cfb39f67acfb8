import IscDhcp.Mdb.QueueRun

/-!
The timer of a pool without a failover peer.

The queues of such a pool are sorted by the times at which their leases end. `pool_timer`
moves the leases whose time has come and finds the earliest time that is still to come; this
module says what it leaves behind, lease by lease and for the timer of the pool.
-/

namespace IscDhcp

variable {ι : Type}

/-- The lease without what is written after its move. -/
def Lease.calm (l : Lease) : Lease := { l with desiredBindingState := .free }

/-- The database without what is written after a move in a pool without a peer. -/
def Db.calm (s : Db ι) : Db ι := { s with lease := fun i => (s.lease i).calm, io := [], log := [] }

lemma Lease.eq_of_calm {l l' : Lease} {β : Type} (h : l.calm = l'.calm) (f : Lease → β)
    (hf : ∀ l, f l.calm = f l := by intro; rfl) : f l = f l' := by
  rw [← hf l, h, hf l']

lemma Db.eq_of_calm {s t : Db ι} {β : Type} (h : t.calm = s.calm) (f : Db ι → β)
    (hf : ∀ s, f s.calm = f s := by intro; rfl) : f t = f s := by
  rw [← hf t, h, hf s]

lemma Pool.count_nextEventTime (x : Pool ι) (q : Queue) (d : ℤ) :
    (x.count q d).nextEventTime = x.nextEventTime := by
  cases q <;> rfl

variable [DecidableEq ι]

namespace Db

variable {s t : Db ι} {p : ℕ} {comp : ι}

lemma calm_modify (s : Db ι) (i : ι) {f : Lease → Lease} (hf : ∀ l, (f l).calm = l.calm) :
    (s.modify i f).calm = s.calm := by
  simp only [calm, s.proj_modify i Lease.calm hf]
  rfl

lemma calm_askAnd (s : Db ι) (e : Effect ι) : (s.askAnd e).2.calm = s.calm :=
  proj_askAnd calm (fun _ _ _ => rfl) s e

lemma calm_commitLease (h : s.peered comp = false) (propogate : Bool) :
    (s.commitLease comp propogate).2.calm = s.calm := by
  have hw : (s.writeLease comp).2.calm = s.calm := s.calm_askAnd _
  unfold commitLease
  simp only [h, Bool.and_false, Bool.false_and, Bool.false_eq_true, if_false]
  generalize s.writeLease comp = r at hw ⊢
  rcases r with ⟨_ | _, u⟩
  · exact hw
  · dsimp only
    split_ifs
    · exact hw
    · exact (u.calm_askAnd _).trans hw

section

variable [Fintype ι]

lemma calm_propagate (h : s.peered comp = false) (pimmediate : Bool) :
    (s.propagate comp pimmediate).calm = s.calm := by
  have hp : (s.modify comp fun l => { l with desiredBindingState := l.bindingState }).peered comp =
      false := by
    simpa [peered, modify, setLease] using h
  rw [propagate, dhcpFailoverQueueUpdate, if_neg (by simp [hp])]
  exact s.calm_modify comp fun _ => rfl

lemma calm_recordMove (h : s.peered comp = false) {commit propogate pimmediate : Bool}
    (hc : (commit || !pimmediate) = true) :
    (s.recordMove comp p commit propogate pimmediate).2.calm = (s.setPoolTimeout comp p).calm := by
  have ht : (s.setPoolTimeout comp p).peered comp = false := by
    rw [← h]
    exact Db.eq_of_strip (s.strip_setPoolTimeout comp p) (fun s => s.peered comp)
  simp only [recordMove, hc, if_true]
  generalize s.setPoolTimeout comp p = u at ht ⊢
  have hw : (if commit = true then u.commitLease comp propogate else (true, u)).2.calm =
    u.calm := by
    split_ifs
    · exact calm_commitLease ht propogate
    · rfl
  generalize (if commit = true then u.commitLease comp propogate else (true, u)) = r at hw ⊢
  rcases r with ⟨_ | _, v⟩
  · exact hw
  · split_ifs
    · have hv : v.peered comp = false := by
        rw [← ht]
        exact Db.eq_of_calm hw (fun s => s.peered comp)
      exact (calm_propagate hv pimmediate).trans hw
    · exact hw

end

/-! ### A move in a pool without a peer -/

/-- Everything `pool_timer` relies on in a pool without a peer. The leases of `E` have been given
a new end and not been put on a queue yet. -/
structure Timed (p : ℕ) (E : ι → Prop) (s : Db ι) : Prop where
  running : s.Running
  unpeered : (s.pool p).failoverPeer = false
  valid : ∀ i, (s.lease i).pool = some p → (s.lease i).Valid
  sorted : ∀ q, ((s.pool p).queue q).Pairwise s.before
  ends : ∀ i, ¬ E i → (s.lease i).pool = some p → (s.lease i).sortTime = (s.lease i).ends

/-- The timer of the pool, as far as the pool knows, and the pending timeouts. -/
def timerOf (s : Db ι) (p : ℕ) : Time × List (TimeoutFn × Time) :=
  ((s.pool p).nextEventTime, s.timeouts)

/-- Set the timer of the pool to `t` if that is earlier than what it is set to. -/
def arm (s : Db ι) (p : ℕ) (t : Time) : Db ι :=
  if t ≠ minTime ∧ t > s.curTime ∧
      (t < (s.pool p).nextEventTime ∨ (s.pool p).nextEventTime = minTime) then s.schedulePool p t
  else s

/-- `t` is `s` with `comp` moved to its next state. -/
structure Shifted (p : ℕ) (s t : Db ι) (comp : ι) : Prop where
  curTime : t.curTime = s.curTime
  others : ∀ j, j ≠ comp → (t.lease j).calm = (s.lease j).calm
  pool : (t.lease comp).pool = (s.lease comp).pool
  bindingState : (t.lease comp).bindingState = (s.lease comp).nextBindingState
  nextBindingState : (t.lease comp).nextBindingState =
    stateAfter false (s.lease comp).nextBindingState
  sortTime : (t.lease comp).sortTime = (s.lease comp).ends
  ends : (t.lease comp).ends = (s.lease comp).ends
  erase : ∀ q, ((t.pool p).queue q).erase comp = ((s.pool p).queue q).erase comp
  timer : t.timerOf p = (s.arm p (s.lease comp).ends).timerOf p

/-- `t` is `s` with `comp` moved to its next state, in a pool without a peer whose other leases
are sorted by their ends. -/
structure MovedAt (p : ℕ) (s t : Db ι) (comp : ι) : Prop extends Shifted p s t comp where
  timed : Timed p (fun _ => False) t

lemma Timed.mono {E E' : ι → Prop} (h : Timed p E s) (hE : ∀ i, E i → E' i) : Timed p E' s :=
  { h with ends := fun i hi => h.ends i fun he => hi (hE i he) }

lemma peered_eq (hp : (s.lease comp).pool = some p) : s.peered comp = (s.pool p).failoverPeer := by
  simp [peered, hp]

lemma setPoolTimeout_eq_arm (s : Db ι) (comp : ι) (p : ℕ) :
    s.setPoolTimeout comp p = s.arm p (s.lease comp).sortTime := rfl

@[simp] lemma arm_lease (s : Db ι) (p : ℕ) (t : Time) : (s.arm p t).lease = s.lease := by
  unfold arm
  split_ifs <;> rfl

@[simp] lemma strip_arm (s : Db ι) (p : ℕ) (t : Time) : (s.arm p t).strip = s.strip := by
  unfold arm
  split_ifs <;> simp

lemma timerOf_arm {u v : Db ι} (h : u.timerOf p = v.timerOf p) (hc : u.curTime = v.curTime)
    (t : Time) :
    (u.arm p t).timerOf p = (v.arm p t).timerOf p := by
  obtain ⟨hn, ht⟩ := Prod.mk.inj h
  unfold arm
  rw [hn, hc]
  split_ifs
  · simp [timerOf, schedulePool, setNextEventTime, setPool, addTimeout, hc, ht]
  · exact h

instance (s : Db ι) : Std.Total s.before := ⟨fun _ _ => Nat.le_total _ _⟩
instance (s : Db ι) : IsTrans ι s.before := ⟨fun _ _ _ => Nat.le_trans⟩

lemma insertAfter_sorted {r : ι → ι → Prop} [DecidableRel r] [Std.Total r] [IsTrans ι r]
    {last comp : ι} {l : List ι} (h : l.Pairwise r) (hm : last ∈ l) (hr : r last comp) :
    (insertAfter r last comp l).Pairwise r := by
  induction l with
  | nil => cases hm
  | cons lp l ih =>
    obtain ⟨hlp, hl⟩ := List.pairwise_cons.mp h
    unfold insertAfter
    split_ifs with he
    · subst he
      refine List.pairwise_cons.mpr ⟨fun b hb => ?_, hl.orderedInsert comp _⟩
      rcases (List.mem_orderedInsert r).mp hb with rfl | hb
      exacts [hr, hlp b hb]
    · have hm' := (List.mem_cons.mp hm).resolve_left (Ne.symm he)
      refine List.pairwise_cons.mpr ⟨fun b hb => ?_, ih hl hm'⟩
      rcases List.mem_cons.mp ((insertAfter_perm hm').mem_iff.mp hb) with rfl | hb
      exacts [IsTrans.trans _ _ _ (hlp last hm') hr, hlp b hb]

lemma sorted_inserted {q : Queue} (hf : s.FollowOk)
    (h : ((s.pool p).queue q).Pairwise s.before) : (s.inserted p q comp).Pairwise s.before := by
  unfold inserted
  split
  · rename_i last hl
    refine insertAfter_sorted h (hf.mem hl) ?_
    unfold follow at hl
    split at hl
    · split_ifs at hl with hc
      cases hl
      exact hc.2.2.2
    · cases hl
  · exact h.orderedInsert comp _

lemma sorted_of_queuedOn {D : ι → Prop} (h : QueuedOn D s)
    (hs : ∀ q, ((s.pool p).queue q).Pairwise s.before)
    (ht : ∀ j, D j → (t.lease j).sortTime = (s.lease j).sortTime) (q : Queue) :
    ((s.pool p).queue q).Pairwise t.before := by
  refine (hs q).imp_of_mem fun {a b} ha hb hab => ?_
  unfold before
  rw [ht a ((h.mem p q a).mp ha).1, ht b ((h.mem p q b).mp hb).1]
  exact hab

lemma sorted_of_dequeue (h : Queued s) {q : Queue}
    (hs : ∀ q, ((s.pool p).queue q).Pairwise s.before)
    (hc : comp ∈ (s.pool p).queue q) (ht : ∀ j, j ≠ comp → t.lease j = s.lease j) (q' : Queue) :
    (((s.dequeue p q comp).pool p).queue q').Pairwise t.before := by
  refine sorted_of_queuedOn (h.dequeue hc) (fun q' => (hs q').sublist ?_)
    (fun j hj => congrArg Lease.sortTime (ht j hj.1)) q'
  by_cases hq : q' = q
  · subst hq
    simpa [dequeue, setPool, Pool.setQueue] using List.erase_sublist
  · simp [dequeue, setPool, Pool.setQueue, hq]

lemma sorted_enqueue {p' : ℕ} {q : Queue} (hf : s.FollowOk)
    (h : ∀ q', ((s.pool p).queue q').Pairwise (s.stamp p' q comp).before) (q' : Queue) :
    (((s.enqueue p' q comp).pool p).queue q').Pairwise (s.enqueue p' q comp).before := by
  change List.Pairwise (s.stamp p' q comp).before _
  by_cases hp : p = p'
  · subst hp
    by_cases hq : q' = q
    · subst hq
      simpa [enqueue, setPool, Pool.setQueue] using
        @sorted_inserted _ _ (s.stamp p q' comp) p comp q' hf (h q')
    · simpa [enqueue, setPool, Pool.setQueue, hq] using h q'
  · have hq : (s.enqueue p' q comp).pool p = s.pool p := Function.update_of_ne hp ..
    rw [hq]
    exact h q'

lemma timerOf_enqueue (s : Db ι) (p p' : ℕ) (q : Queue) (comp : ι) :
    (s.enqueue p' q comp).timerOf p = s.timerOf p := by
  by_cases hp : p = p'
  · subst hp
    simp [timerOf, enqueue, setPool, Pool.setQueue, Pool.count_nextEventTime, stamp, modify,
      setLease]
  · simp [timerOf, enqueue, setPool, stamp, modify, setLease, hp]

variable [Fintype ι]

/-- Off the queue and moved on. -/
def offQueue (s : Db ι) (comp : ι) (p : ℕ) (q : Queue) (flags : Option Flags) (propogate : Bool) :
    Db ι :=
  ((s.clearAtsfp comp propogate).dequeue p q comp).moveOn comp flags true

lemma offQueue_eq (s : Db ι) (comp : ι) (p : ℕ) (q : Queue) (flags : Option Flags)
    (propogate : Bool) : ∃ cls l, s.offQueue comp p q flags propogate =
        ((s.dequeue p q comp).setLease comp l).setCls cls ∧
      l.pool = (s.lease comp).pool ∧ l.bindingState = (s.lease comp).nextBindingState ∧
      l.ends = (s.lease comp).ends := by
  obtain ⟨a, ha⟩ := s.clearAtsfp_eq comp propogate
  obtain ⟨cls, hm⟩ :=
    ((s.modify comp fun l => { l with atsfp := a }).dequeue p q comp).moveOn_eq comp flags true
  generalize ((s.modify comp fun l => { l with atsfp := a }).dequeue p q comp).peered comp = b at hm
  refine ⟨cls, movedOn b s.peer flags true { s.lease comp with atsfp := a }, ?_, ?_⟩
  · rw [offQueue, ha, hm]
    simp [dequeue, modify, setLease, setPool]
  · obtain ⟨h1, h2, -⟩ := movedOn_keeps b s.peer flags true { s.lease comp with atsfp := a }
    exact ⟨h1, movedOn_bindingState .., h2⟩

/-- Up to `calm` the move ends with the timer being set for the lease on its new queue. -/
lemma justMoveIt_calm {q q' : Queue} {flags : Option Flags} {commit propogate pimmediate : Bool}
    (h : Queued s) (hu : (s.pool p).failoverPeer = false) (hp : (s.lease comp).pool = some p)
    (hq : queueOf (s.lease comp) = some q)
    (hq' : queueOf ((s.offQueue comp p q flags propogate).lease comp) = some q')
    (hc : (commit || !pimmediate) = true) :
    ∃ ok t, s.justMoveIt comp flags commit propogate pimmediate = some (ok, t) ∧
      t.calm = (((s.offQueue comp p q flags propogate).enqueue p q' comp).setPoolTimeout comp
        p).calm := by
  obtain ⟨a, ha⟩ := s.clearAtsfp_eq comp propogate
  have hl : (s.clearAtsfp comp propogate).lease comp = { s.lease comp with atsfp := a } := by
    rw [ha, modify_lease_self]
  have hpool : ((s.clearAtsfp comp propogate).lease comp).pool = some p := by rw [hl]; exact hp
  have hqueue : queueOf ((s.clearAtsfp comp propogate).lease comp) = some q := by rw [hl]; exact hq
  have hmem : comp ∈ ((s.clearAtsfp comp propogate).pool p).queue q := by
    rw [ha]
    exact (h.mem p q comp).mpr ⟨trivial, hp, hq⟩
  obtain ⟨cls, l, hoff, hlp, -, -⟩ := s.offQueue_eq comp p q flags propogate
  have hpoff : ((s.offQueue comp p q flags propogate).lease comp).pool = some p := by
    rw [hoff]
    exact (congrArg Lease.pool (Function.update_self comp l s.lease)).trans (hlp.trans hp)
  have henq := leaseEnqueue_eq hpoff hq'
  have hunp : ((s.offQueue comp p q flags propogate).enqueue p q' comp).peered comp = false := by
    have hpe : (((s.offQueue comp p q flags propogate).enqueue p q' comp).lease comp).pool =
      some p := by
      rw [enqueue_lease_self]
      exact hpoff
    have hfp := ((s.offQueue comp p q flags propogate).leaseEnqueue_frame comp p).2.2.2.2
    rw [henq] at hfp
    rw [peered_eq hpe, hfp, ← hu, hoff]
    exact dequeue_failoverPeer p p q
  have hmove : s.justMoveIt comp flags commit propogate pimmediate =
      some (((s.offQueue comp p q flags propogate).enqueue p q' comp).recordMove comp p commit
        propogate pimmediate) := by
    unfold justMoveIt
    simp only [hpool, hqueue, leaseRemove_eq hmem, Option.bind_eq_bind, Option.bind_some, hc]
    rw [← offQueue, henq]
    rfl
  exact ⟨_, _, hmove, calm_recordMove hunp hc⟩

/-- **A move in a pool without a peer**. -/
lemma justMoveIt_shifted {E : ι → Prop} (comp : ι) (flags : Option Flags)
    (commit propogate pimmediate : Bool) (h : Timed p E s) (hp : (s.lease comp).pool = some p)
    (hc : (commit || !pimmediate) = true) :
    ∃ ok t, s.justMoveIt comp flags commit propogate pimmediate = some (ok, t) ∧
      Shifted p s t comp ∧ Timed p (fun i => E i ∧ i ≠ comp) t := by
  obtain ⟨hrun, hunp, hvalid, hsorted, hends⟩ := h
  obtain ⟨hq0, hf⟩ := hrun
  obtain ⟨q, hq⟩ := exists_queueOf (hvalid comp hp).1
  obtain ⟨cls, l, hoff, hlp, hlb, hle⟩ := s.offQueue_eq comp p q flags propogate
  set u := s.offQueue comp p q flags propogate with hu
  have hself : u.lease comp = l := by
    rw [hoff]
    exact Function.update_self ..
  have hother (j : ι) (hj : j ≠ comp) : u.lease j = s.lease j := by
    rw [hoff]
    exact Function.update_of_ne hj ..
  obtain ⟨q', hq'⟩ : ∃ q', queueOf (u.lease comp) = some q' := by
    refine exists_queueOf ?_
    rw [hself, hlb, (hvalid comp hp).2]
  obtain ⟨ok, t, ht, hm⟩ :=
    justMoveIt_moved hq0 hf comp flags commit propogate pimmediate
  obtain ⟨ok', t', ht', hcalm⟩ := justMoveIt_calm hq0 hunp hp hq hq' hc
  obtain ⟨rfl, rfl⟩ : ok = ok' ∧ t = t' := by simpa [ht] using ht'
  rw [← hu] at hcalm
  have hmem : comp ∈ (s.pool p).queue q := (hq0.mem p q comp).mpr ⟨trivial, hp, hq⟩
  have hupool : u.pool = (s.dequeue p q comp).pool := by rw [hoff]; rfl
  have hsort : u.sortTimeOf p q' l = (s.lease comp).ends := by
    have : (u.pool p).failoverPeer = false := by rw [hupool, dequeue_failoverPeer, hunp]
    simp [sortTimeOf, this, hle]
  -- the lease as it is on its new queue
  have hcomp : (t.lease comp).calm = { l with sortTime := (s.lease comp).ends }.calm := by
    rw [Db.eq_of_calm hcalm (fun s => (s.lease comp).calm), setPoolTimeout_eq_arm, arm_lease,
      enqueue_lease_self, hself, hsort]
  have hlease (j : ι) (hj : j ≠ comp) : (t.lease j).calm = (s.lease j).calm := by
    rw [Db.eq_of_calm hcalm (fun s => (s.lease j).calm), setPoolTimeout_eq_arm, arm_lease,
      enqueue_lease_of_ne u p q' hj, hother j hj]
  have hsorttime : (t.lease comp).sortTime = (s.lease comp).ends := congrArg Lease.sortTime hcomp
  have hbefore : t.before = (u.enqueue p q' comp).before := by
    rw [Db.eq_of_calm hcalm before, setPoolTimeout_eq_arm]
    unfold before
    rw [arm_lease]
  have hqueue : (t.pool p).queue = ((u.enqueue p q' comp).pool p).queue := by
    rw [Db.eq_of_calm hcalm (fun s => (s.pool p).queue), setPoolTimeout_eq_arm,
      Db.eq_of_strip (strip_arm ..) (fun s => (s.pool p).queue)]
  have hends_t : (t.lease comp).ends = (s.lease comp).ends := (congrArg Lease.ends hcomp).trans hle
  have hnext : (t.lease comp).nextBindingState =
    stateAfter false (s.lease comp).nextBindingState := by
    rw [Lease.eq_of_strip hm.self Lease.nextBindingState]
    have hpeered : s.peered comp = false := (peered_eq hp).trans hunp
    obtain ⟨a, ha⟩ := s.clearAtsfp_eq comp propogate
    have hb : ¬ ((s.lease comp).pool = none ∨ queueOf (s.lease comp) = none) := by simp [hp, hq]
    rw [moveData, ha, modify_lease_self, hc, hpeered]
    refine (congrArg Lease.nextBindingState (if_neg hb)).trans ?_
    cases flags <;> rfl
  refine ⟨ok, t, ht, ⟨hm.curTime, hlease, (congrArg Lease.pool hcomp).trans hlp,
    (congrArg Lease.bindingState hcomp).trans hlb, hnext, hsorttime, hends_t, hm.erase p, ?_⟩,
    ⟨hm.queued hq0, hm.ssQfollow.trans hf⟩, ?_, fun i hi => ?_, fun q'' => ?_, fun i he hi => ?_⟩
  rotate_left
  · rw [hm.failoverPeer, hunp]
  · by_cases hic : i = comp
    · subst hic
      rw [valid_of_strip hm.self]
      exact moveData_valid _ _ _ (hvalid i hp)
    · have hpi := Lease.eq_of_strip (hm.others i hic) Lease.pool
      rw [valid_of_strip (hm.others i hic)]
      exact hvalid i (hpi.symm.trans hi)
  · rw [hqueue, hbefore]
    refine sorted_enqueue (followOk (by rw [hoff] at hu ⊢; exact hf)) (fun q₀ => ?_) q''
    rw [hupool]
    exact sorted_of_dequeue hq0 hsorted hmem
      (fun j hj => (enqueue_lease_of_ne u p q' hj).trans (hother j hj)) q₀
  · by_cases hic : i = comp
    · subst hic
      rw [hsorttime, hends_t]
    · have h1 : (t.lease i).sortTime = (s.lease i).sortTime :=
        Lease.eq_of_calm (hlease i hic) Lease.sortTime
      have h2 : (t.lease i).ends = (s.lease i).ends := Lease.eq_of_calm (hlease i hic) Lease.ends
      have h3 : (t.lease i).pool = (s.lease i).pool := Lease.eq_of_calm (hlease i hic) Lease.pool
      rw [h1, h2]
      exact hends i (fun hE => he ⟨hE, hic⟩) (h3.symm.trans hi)
  · have hv : ((u.enqueue p q' comp).lease comp).sortTime = (s.lease comp).ends := by
      rw [enqueue_lease_self, hself, hsort]
    rw [Db.eq_of_calm hcalm (fun s => s.timerOf p), setPoolTimeout_eq_arm, hv]
    refine timerOf_arm ((u.timerOf_enqueue p p q' comp).trans ?_) ?_ _
    · rw [hoff]
      simp [timerOf, setCls, setLease, dequeue, setPool, Pool.setQueue, Pool.count_nextEventTime]
    · rw [hoff]
      rfl

lemma justMoveIt_movedAt (comp : ι) (flags : Option Flags) (commit propogate pimmediate : Bool)
    (h : Timed p (· = comp) s) (hp : (s.lease comp).pool = some p)
    (hc : (commit || !pimmediate) = true) :
    ∃ ok t, s.justMoveIt comp flags commit propogate pimmediate = some (ok, t) ∧
      MovedAt p s t comp := by
  obtain ⟨ok, t, ht, hs, hT⟩ := justMoveIt_shifted comp flags commit propogate pimmediate h hp hc
  exact ⟨ok, t, ht, hs, hT.mono fun i hi => hi.2 hi.1⟩

end Db

end IscDhcp
