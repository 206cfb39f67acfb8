import IscDhcp.Mdb.Invariant
import IscDhcp.Mdb.QueueRun

/-!
The counters after the start. `expire_all_pools` runs `pool_timer` on every pool and counts its
leases anew; a lease on the free or backup queue counts only if its end has come.
-/

namespace IscDhcp

open Option QueueRun

variable {ι : Type} [DecidableEq ι] [Fintype ι]

structure Counts where
  leaseCount : ℤ := 0
  freeLeases : ℤ := 0
  backupLeases : ℤ := 0

/-- Count a lease of queue `q`; `none` is the fatal error "Impossible case". -/
def Counts.count (c : Counts) (now : Time) (q : Queue) (l : Lease) : Option Counts :=
  let c := { c with leaseCount := c.leaseCount + 1 }
  if l.ends ≤ now then
    match l.bindingState with
    | .free =>
      if q = .free then some { c with freeLeases := c.freeLeases + 1 }
      else if q ≠ .reserved then none
      else some c
    | .backup =>
      if q = .backup then some { c with backupLeases := c.backupLeases + 1 }
      else if q ≠ .reserved then none
      else some c
    | _ => some c
  else some c

namespace Db

/-- Queue the update of a lease that was not acknowledged before the stop. -/
def requeue (s : Db ι) (p : ℕ) (i : ι) : Db ι :=
  let l := s.lease i
  if (s.pool p).failoverPeer ∧ l.tstp > l.atsfp ∧ ¬ l.flags.onUpdateQueue then s.propagate i true
  else s

def countLease (p : ℕ) (x : Db ι × Counts) (e : Queue × ι) : Option (Db ι × Counts) := do
  let c ← x.2.count x.1.curTime e.1 (x.1.lease e.2)
  return (x.1.requeue p e.2, c)

/-- The leases on the queues of a pool, in the order of the two loops over them. -/
def queuedLeases (s : Db ι) (p : ℕ) : List (Queue × ι) :=
  Queue.all.flatMap fun q => ((s.pool p).queue q).map (q, ·)

/-- The turn of `expire_all_pools` for one pool. Nothing reads the counters while it counts, and
`lease_count` of the pools is kept apart. -/
def expirePool (x : Db ι × (ℕ → ℤ)) (p : ℕ) : Option (Db ι × (ℕ → ℤ)) := do
  let s ← x.1.poolTimer p
  let (s, c) ← (s.queuedLeases p).foldlM (countLease p) (s, {})
  return (s.setPool p { s.pool p with freeLeases := c.freeLeases, backupLeases := c.backupLeases },
    Function.update x.2 p c.leaseCount)

def expireAllPools (s : Db ι) (leases : List ι) : Option (Db ι × (ℕ → ℤ)) := do
  let (t, n) ← s.pools.foldlM expirePool (s.instantiateAll leases, fun _ => 0)
  return ({ t with ssNosync := false, ssQfollow := false }, n)

def leasesOf (s : Db ι) (p : ℕ) : Finset ι := {i | (s.lease i).pool = some p}

/-- The leases on a queue of the pool that end later than now. -/
def late (s : Db ι) (p : ℕ) (q : Queue) : Finset ι :=
  (s.leasesOf p).filter fun i => queueOf (s.lease i) = some q ∧ s.curTime < (s.lease i).ends

/-- The counters are right, and stay so. -/
structure Counted (s : Db ι) : Prop where
  queues : ∀ p, QueuesExact s p
  later : ∀ ops, ∃ t, run s ops = some t ∧
    ∀ p, QueuesExact t p ∧ 0 ≤ (t.pool p).freeLeases ∧ 0 ≤ (t.pool p).backupLeases

/-! ### Leases that end later -/

variable {s t u : Db ι} {p : ℕ} {off : ℕ → Queue → ℤ}

/-- A lease is not due before it ends. -/
def Stamped (s : Db ι) : Prop :=
  ∀ i, (s.lease i).pool ≠ none → (s.lease i).ends ≤ (s.lease i).sortTime

lemma ends_le_sortTimeOf (s : Db ι) (p : ℕ) (q : Queue) (l : Lease) :
    l.ends ≤ s.sortTimeOf p q l := by
  unfold sortTimeOf
  grind

lemma Stamped.modify {i : ι} {f : Lease → Lease} (h : s.Stamped)
    (hf : ∀ l : Lease, (f l).pool = l.pool ∧ (f l).ends = l.ends ∧
      ((f l).sortTime = l.sortTime ∨ (f l).ends ≤ (f l).sortTime)) : (s.modify i f).Stamped :=
  forall_modify (Q := fun l => l.pool ≠ none → l.ends ≤ l.sortTime) h (by grind)

lemma stamped_stateInvariant : StateInvariant (Stamped (ι := ι)) where
  ask h := by
    rw [ask_eq]
    exact h
  commitLeases h := by
    rw [commitLeases, askAnd_eq]
    exact h
  states _ _ _ _ _ h := h
  rescind {s} h := s.rescindUpdates_rec h (fun t i h => by
    refine Stamped.modify (Stamped.modify h ?_) ?_ <;> exact fun _ => ⟨rfl, rfl, .inl rfl⟩)
    fun _ _ _ h => h
  wait i t h := h.modify fun l => ⟨rfl, rfl, .inr (by unfold waitUntil; grind)⟩
  schedulePool _ _ h := h

lemma stamped_linkInvariant : LinkInvariant (Stamped (ι := ι)) where
  ask := stamped_stateInvariant.ask
  writeLease i h := by
    rw [writeLease, askAnd_eq]
    exact h
  commitLeases := stamped_stateInvariant.commitLeases
  modify i h hf := h.modify fun l => ⟨Lease.eq_of_strip (hf l).1 Lease.pool,
    Lease.eq_of_strip (hf l).1 Lease.ends, .inl (hf l).2.2⟩
  queues _ _ h _ := h
  disconnect h := stamped_stateInvariant.disconnect h

lemma movedOn_sortTime (peered : Bool) (p : Peer ι) (flags : Option Flags) (trans : Bool)
    (l : Lease) : (movedOn peered p flags trans l).sortTime = l.sortTime := by
  unfold movedOn transition
  cases flags <;> cases trans <;> dsimp only <;> split_ifs <;> rfl

lemma stamped_moveInvariant : MoveInvariant (Stamped (ι := ι)) where
  clearAtsfp {s} i propogate h := by
    obtain ⟨a, hs⟩ := s.clearAtsfp_eq i propogate
    rw [hs]
    exact h.modify fun _ => ⟨rfl, rfl, .inl rfl⟩
  setPool _ _ h := h
  moveOn {s} i flags trans h := by
    obtain ⟨cls, hs⟩ := s.moveOn_eq i flags trans
    rw [hs]
    exact h.modify fun l => ⟨(movedOn_keeps _ _ flags trans l).1,
      (movedOn_keeps _ _ flags trans l).2.1, .inl (movedOn_sortTime _ _ flags trans l)⟩
  leaseEnqueue {s} i h := by
    obtain ⟨-, he⟩ | ⟨p, q, -, -, he⟩ := s.leaseEnqueue_cases i <;> rw [he]
    · exact h
    · exact h.modify (f := fun l => { l with sortTime := s.sortTimeOf p q l }) fun l =>
        ⟨rfl, rfl, .inr (s.ends_le_sortTimeOf p q l)⟩
  recordMove i p commit propogate pimmediate h :=
    (stamped_linkInvariant.record fun _ _ h => h).recordMove i p commit propogate pimmediate h
  rewind {s} i h := by
    obtain ⟨n, hs, -⟩ := s.rewind_eq i
    rw [hs]
    exact h.modify fun _ => ⟨rfl, rfl, .inl rfl⟩
  updateTimer {s} p e h := by
    unfold updateTimer
    extract_lets net
    split_ifs <;> exact h

/-- The times of the leases are kept, and the queues of those that end later. -/
structure Clocked (s t : Db ι) : Prop where
  curTime : t.curTime = s.curTime
  pool : ∀ i, (t.lease i).pool = (s.lease i).pool
  ends : ∀ i, (t.lease i).ends = (s.lease i).ends
  late : ∀ i, (s.lease i).pool ≠ none → s.curTime < (s.lease i).ends →
    queueOf (t.lease i) = queueOf (s.lease i)

lemma Clocked.of_strip (h : t.strip = s.strip) : Clocked s t where
  curTime := eq_of_strip h Db.curTime
  pool i := eq_of_strip h fun s => (s.lease i).pool
  ends i := eq_of_strip h fun s => (s.lease i).ends
  late i _ _ := eq_of_strip h fun s => queueOf (s.lease i)

lemma Clocked.trans (h1 : Clocked s t) (h2 : Clocked t u) : Clocked s u where
  curTime := h2.curTime.trans h1.curTime
  pool i := (h2.pool i).trans (h1.pool i)
  ends i := (h2.ends i).trans (h1.ends i)
  late i hp hl :=
    (h2.late i (h1.pool i ▸ hp) (by rwa [h1.curTime, h1.ends])).trans (h1.late i hp hl)

lemma Clocked.late_eq (h : Clocked s t) (p : ℕ) (q : Queue) : t.late p q = s.late p q := by
  ext i
  simp only [Db.late, leasesOf, Finset.mem_filter, Finset.mem_univ, true_and, h.pool, h.ends,
    h.curTime]
  refine and_congr_right fun hp => and_congr_left fun hl => ?_
  rw [h.late i (by simp [hp]) hl]

lemma TimerMoves.clocked (h : TimerMoves p s t) (hq : Queued s off) (hf : s.ssQfollow = false)
    (hs : s.Stamped) : t.Stamped ∧ Clocked s t := by
  induction h with
  | refl => exact ⟨hs, .of_strip rfl⟩
  | tail hms hm ih =>
    obtain ⟨q, i, ok, hi, hdue, -, ht⟩ := hm
    obtain ⟨hq, hf⟩ := TimerMoves.queued hms hq hf
    obtain ⟨_, _, n, ht', -, hm⟩ := timer_moved hq hf hi
    cases ht.symm.trans ht'
    refine ⟨stamped_moveInvariant.timer.move ih.1 ht, ih.2.trans ⟨hm.curTime, fun j => ?_,
      fun j => ?_, fun j hp hl => ?_⟩⟩
    · by_cases hj : j = i
      · subst hj
        exact (Lease.eq_of_strip hm.self Lease.pool).trans (transition_keeps _ _ _).1
      · exact Lease.eq_of_strip (hm.others j hj) Lease.pool
    · by_cases hj : j = i
      · subst hj
        exact (Lease.eq_of_strip hm.self Lease.ends).trans (transition_keeps _ _ _).2.1
      · exact Lease.eq_of_strip (hm.others j hj) Lease.ends
    · refine Lease.eq_of_strip (hm.others j ?_) queueOf
      rintro rfl
      exact absurd hdue (not_le.mpr (hl.trans_le (ih.1 j hp)))

/-! ### One pool -/

lemma count_eq (c : Counts) {now : Time} {q : Queue} {l : Lease} (hq : queueOf l = some q) :
    c.count now q l = some ⟨c.leaseCount + 1,
      c.freeLeases + if q = .free ∧ l.ends ≤ now then 1 else 0,
      c.backupLeases + if q = .backup ∧ l.ends ≤ now then 1 else 0⟩ := by
  unfold queueOf at hq
  unfold Counts.count
  cases hb : l.bindingState <;> simp only [hb, some.injEq] at hq ⊢
  all_goals grind

lemma strip_requeue (s : Db ι) (p : ℕ) (i : ι) : (s.requeue p i).strip = s.strip := by
  have hP := s.strip_linkInvariant
  unfold requeue
  extract_lets l
  split_ifs
  · refine hP.queueUpdate (hP.modify i rfl ?_) i true
    exact fun _ => ⟨rfl, rfl, rfl⟩
  · rfl

lemma mem_queuedLeases (h : Queued s off) {e : Queue × ι} : e ∈ s.queuedLeases p ↔
    (s.lease e.2).pool = some p ∧ queueOf (s.lease e.2) = some e.1 := by
  simp [queuedLeases, Queue.mem_all, h.mem]
  grind

lemma foldlM_countLease {l : List (Queue × ι)} (hl : ∀ e ∈ l, queueOf (s.lease e.2) = some e.1)
    (x : Db ι × Counts) (hx : x.1.strip = s.strip) (hs : x.1.Stamped) :
    ∃ t, t.strip = s.strip ∧ t.Stamped ∧ l.foldlM (countLease p) x = some (t,
      ⟨x.2.leaseCount + l.length,
        x.2.freeLeases + l.countP fun e => e.1 = .free ∧ (s.lease e.2).ends ≤ s.curTime,
        x.2.backupLeases + l.countP fun e => e.1 = .backup ∧ (s.lease e.2).ends ≤ s.curTime⟩) := by
  induction l generalizing x with
  | nil => exact ⟨x.1, hx, hs, by simp⟩
  | cons e l ih =>
    obtain ⟨hq, hl⟩ := List.forall_mem_cons.mp hl
    rw [← eq_of_strip hx fun s => queueOf (s.lease e.2)] at hq
    have hr : (x.1.requeue p e.2).Stamped := by
      unfold requeue
      extract_lets
      split_ifs
      · refine stamped_linkInvariant.queueUpdate (Stamped.modify hs ?_) e.2 true
        exact fun _ => ⟨rfl, rfl, .inl rfl⟩
      · exact hs
    obtain ⟨t, hst, hts, ht⟩ := ih hl (x.1.requeue p e.2, _) ((x.1.strip_requeue p e.2).trans hx) hr
    refine ⟨t, hst, hts, ?_⟩
    rw [List.foldlM_cons, countLease, count_eq x.2 hq]
    refine ht.trans ?_
    rw [eq_of_strip hx fun s => (s.lease e.2).ends, eq_of_strip hx Db.curTime]
    simp only [List.length_cons, List.countP_cons, decide_eq_true_eq]
    push_cast
    grind

lemma length_queuedLeases (h : Queued s off) (hv : s.AllValid) (p : ℕ) :
    (s.queuedLeases p).length = (s.leasesOf p).card := by
  have hnd : (s.queuedLeases p).Nodup := by
    refine List.nodup_flatMap.mpr ⟨fun q _ => (h.nodup p q).map (Prod.mk_right_injective q), ?_⟩
    refine List.Pairwise.imp ?_ (by decide : Queue.all.Nodup)
    intro q q' hne e he he'
    grind
  rw [← List.toFinset_card_of_nodup hnd]
  refine Finset.card_bij (fun e _ => e.2) (fun e he => ?_) (fun e he e' he' heq => ?_)
    fun i hi => ?_
  all_goals simp only [List.mem_toFinset, mem_queuedLeases h] at *
  · simp [leasesOf, he]
  · grind
  · obtain ⟨q, hq⟩ := exists_queueOf (hv i).1
    exact ⟨(q, i), by simpa [leasesOf, hq] using hi, rfl⟩

/-- A lease of the queue is counted unless it ends later. -/
lemma countP_queuedLeases (h : Queued s off) (p : ℕ) (q : Queue) :
    ((s.queuedLeases p).countP fun e => e.1 = q ∧ (s.lease e.2).ends ≤ s.curTime : ℤ) =
      ((s.pool p).queue q).length - (s.late p q).card := by
  have hlate : (s.late p q).card =
      ((s.pool p).queue q).countP fun i => ¬ (s.lease i).ends ≤ s.curTime := by
    rw [List.countP_eq_length_filter, ← List.toFinset_card_of_nodup ((h.nodup p q).filter _)]
    congr 1
    ext i
    simp [late, leasesOf, h.mem, and_assoc]
  have hcount : ((s.queuedLeases p).countP fun e => e.1 = q ∧ (s.lease e.2).ends ≤ s.curTime) =
      ((s.pool p).queue q).countP fun i => (s.lease i).ends ≤ s.curTime := by
    cases q <;> simp [queuedLeases, Queue.all, List.countP_map, Function.comp_def]
  rw [hcount, hlate, ((s.pool p).queue q).length_eq_countP_add_countP
    fun i => (s.lease i).ends ≤ s.curTime]
  simp

lemma setCounts_queued (h : Queued s off) {f b : ℤ} {d : Queue → ℤ}
    (hf : f = ((s.pool p).queue .free).length + d .free)
    (hb : b = ((s.pool p).queue .backup).length + d .backup) :
    Queued (s.setPool p { s.pool p with freeLeases := f, backupLeases := b })
      (Function.update off p d) := by
  refine ⟨fun p' q i => ?_, fun p' q => ?_, fun p' => ?_, fun p' => ?_⟩ <;>
    by_cases hp : p' = p
  all_goals simp [setPool, hp, h.mem, h.nodup, h.free, h.backup, hf, hb]

/-- **The count of a pool** leaves out the leases on the free and the backup queue that end
later. -/
lemma expirePool_spec {x : Db ι × (ℕ → ℤ)} (hq : Queued x.1 off) (hf : x.1.ssQfollow = false)
    (hv : x.1.AllValid) (hs : x.1.Stamped) (p : ℕ) :
    ∃ t, expirePool x p = some (t, Function.update x.2 p (x.1.leasesOf p).card) ∧
      Queued t (Function.update off p fun q => -(x.1.late p q).card) ∧ t.ssQfollow = false ∧
      t.AllValid ∧ t.Stamped ∧ Clocked x.1 t := by
  obtain ⟨t, u, ht, hm, he⟩ := poolTimer_moves p hq hf
  obtain ⟨hqu, hfu⟩ := hm.queued hq hf
  have hqt := hqu.of_strip he
  have htime : Clocked x.1 t := (hm.clocked hq hf hs).2.trans (.of_strip he)
  obtain ⟨v, hvt, hvs, hc⟩ := foldlM_countLease (p := p) (l := t.queuedLeases p)
    (fun e he => ((mem_queuedLeases hqt).mp he).2) (t, {}) rfl
    (stamped_moveInvariant.poolTimer hs ht)
  have hvu := hvt.trans he
  have hqv := hqu.of_strip hvu
  have hvalid : v.AllValid := fun i => by
    rw [valid_of_strip (eq_of_strip hvu fun s => (s.lease i).strip)]
    exact hm.valid hq hf hv i
  have htv := htime.trans (.of_strip hvt)
  have hlen : (t.queuedLeases p).length = (x.1.leasesOf p).card := by
    rw [← eq_of_strip hvt fun s => s.queuedLeases p, length_queuedLeases hqv hvalid]
    simp [leasesOf, htv.pool]
  have hnum (q : Queue) :
      ((t.queuedLeases p).countP fun e => e.1 = q ∧ (t.lease e.2).ends ≤ t.curTime : ℤ) =
        ((v.pool p).queue q).length + -((x.1.late p q).card : ℤ) := by
    rw [← htime.late_eq, eq_of_strip hvt fun s => (s.pool p).queue]
    exact (countP_queuedLeases hqt p q).trans (sub_eq_add_neg ..)
  refine ⟨_, ?_, setCounts_queued hqv (hnum .free) (hnum .backup),
    (eq_of_strip hvu Db.ssQfollow).trans hfu, hvalid, hvs, { htv with }⟩
  simp [expirePool, ht, hc, hlen]

/-! ### All pools -/

lemma foldlM_expirePool (ps : List ℕ) {x : Db ι × (ℕ → ℤ)} (hq : Queued x.1 off)
    (hf : x.1.ssQfollow = false) (hv : x.1.AllValid) (hs : x.1.Stamped) :
    ∃ t, ps.foldlM expirePool x = some (t, fun p =>
        if p ∈ ps then ((x.1.leasesOf p).card : ℤ) else x.2 p) ∧
      Queued t (fun p q => if p ∈ ps then -((x.1.late p q).card : ℤ) else off p q) ∧
      t.ssQfollow = false := by
  induction ps generalizing x off with
  | nil => exact ⟨x.1, by simp, by simpa using hq, hf⟩
  | cons p ps ih =>
    obtain ⟨u, hx, hqu, hfu, hvu, hsu, htime⟩ := expirePool_spec hq hf hv hs p
    obtain ⟨t, ht, hqt, hft⟩ := ih (x := (u, _)) hqu hfu hvu hsu
    have hof : u.leasesOf = x.1.leasesOf := funext fun p => by simp [leasesOf, htime.pool]
    simp only [hof, htime.late_eq] at ht hqt
    refine ⟨t, ?_, ?_, hft⟩
    · rw [List.foldlM_cons, hx]
      refine ht.trans (congrArg (fun n => some (t, n)) (funext fun p' => ?_))
      by_cases hp : p' = p <;> simp [hp]
    · convert hqt using 3 with p' q
      by_cases hp : p' = p <;> simp [hp]

/-! ### The leases that are read -/

def kept (l : Lease) : Option ℕ × Time × Bool :=
  (l.pool, l.ends, queueOf l = some .free ∨ queueOf l = some .backup)

lemma adoptBackup_kept (s : Db ι) (i j : ι) :
    kept ((s.adoptBackup i).lease j) = kept (s.lease j) := by
  unfold adoptBackup
  split_ifs with hb
  · by_cases hj : j = i
    · subst hj
      rw [modify_lease_self]
      by_cases hr : (s.lease j).flags.reserved <;> simp [kept, queueOf, hb.1, hr]
    · rw [modify_lease_of_ne s hj]
  · rfl

lemma leaseInstantiate_kept (s : Db ι) (i : ι) : (s.leaseInstantiate i).curTime = s.curTime ∧
    ∀ j, kept ((s.leaseInstantiate i).lease j) = kept (s.lease j) := by
  have hl (j : ι) : kept (((s.adoptBackup i).leaseEnqueue i).2.lease j) = kept (s.lease j) :=
    (Lease.eq_of_strip (leaseEnqueue_lease j) kept).trans (s.adoptBackup_kept i j)
  have hc : ((s.adoptBackup i).leaseEnqueue i).2.curTime = s.curTime := by
    obtain ⟨f, hs, -⟩ := s.adoptBackup_eq i
    rw [((s.adoptBackup i).leaseEnqueue_frame i 0).2.1, hs]
    rfl
  unfold leaseInstantiate
  cases (s.lease i).pool with
  | none => exact ⟨rfl, fun _ => rfl⟩
  | some p =>
    generalize (s.adoptBackup i).leaseEnqueue i = r at hl hc ⊢
    rcases r with ⟨_ | _, t⟩
    · exact ⟨hc, hl⟩
    · obtain ⟨cls, uids, hws, b, ht⟩ := t.enterBilled_eq i
      simp only [ht]
      exact ⟨hc, fun j =>
        (t.proj_modify i kept (f := fun l => { l with billingClass := b }) (fun _ => rfl) j).trans
          (hl j)⟩

lemma instantiateAll_kept (s : Db ι) (leases : List ι) :
    (s.instantiateAll leases).curTime = s.curTime ∧
      ∀ j, kept ((s.instantiateAll leases).lease j) = kept (s.lease j) :=
  List.foldlRecOn (motive := fun t => t.curTime = s.curTime ∧
    ∀ j, kept (t.lease j) = kept (s.lease j)) leases leaseInstantiate
    (b := { s with ssNosync := true, ssQfollow := true }) ⟨rfl, fun _ => rfl⟩
    fun t ht i _ => ⟨(t.leaseInstantiate_kept i).1.trans ht.1, fun j =>
      ((t.leaseInstantiate_kept i).2 j).trans (ht.2 j)⟩

lemma leasesOf_instantiateAll (s : Db ι) (leases : List ι) :
    (s.instantiateAll leases).leasesOf = s.leasesOf := funext fun p => by
  have hpool (i : ι) : ((s.instantiateAll leases).lease i).pool = (s.lease i).pool :=
    congrArg Prod.fst ((s.instantiateAll_kept leases).2 i)
  simp [leasesOf, hpool]

/-- The leases that are on the free or the backup queue after start-up, and not counted. -/
lemma mem_late_instantiateAll (s : Db ι) (leases : List ι) (p : ℕ) (i : ι) :
    (i ∈ (s.instantiateAll leases).late p .free ∨ i ∈ (s.instantiateAll leases).late p .backup) ↔
      i ∈ s.leasesOf p ∧
        (queueOf (s.lease i) = some .free ∨ queueOf (s.lease i) = some .backup) ∧
        s.curTime < (s.lease i).ends := by
  obtain ⟨hc, hk⟩ := s.instantiateAll_kept leases
  have h := hk i
  simp only [kept, Prod.mk.injEq, decide_eq_decide] at h
  simp only [late, Finset.mem_filter, leasesOf_instantiateAll, hc, h.2.1, ← h.2.2]
  tauto

lemma instantiateAll_stamped {leases : List ι} (hv : s.AllValid) (hnd : leases.Nodup)
    (hall : ∀ i, i ∈ leases) : (s.instantiateAll leases).Stamped := by
  refine fun i => (foldl_leaseInstantiate (s := { s with ssNosync := true, ssQfollow := true })
    (P := fun D s => s.AllValid ∧ ∀ i, D i → (s.lease i).pool ≠ none →
      (s.lease i).ends ≤ (s.lease i).sortTime) (fun {s D i} h hi =>
      ⟨leaseInstantiate_valid h.1, fun j hj hp => ?_⟩) hnd hall ⟨hv, nofun⟩).2 i trivial
  by_cases hji : j = i
  · subst hji
    obtain ⟨hnone, he⟩ | ⟨f, hf, ⟨hnone, -⟩ | ⟨p, q, cls, uids, hws, b, -, he⟩⟩ :=
      s.leaseInstantiate_cases j
    · exact absurd hnone (he ▸ hp)
    · rw [queueOf_eq_none, ((hf _).2 (h.1 j)).1] at hnone
      cases hnone
    · rw [he]
      have hself := ((s.modify j f).enqueue p q j).modify_lease_self j
        fun l => { l with billingClass := b }
      rw [enqueue_lease_self] at hself
      exact (congrArg Lease.ends hself).trans_le
        (((s.modify j f).ends_le_sortTimeOf p q _).trans_eq (congrArg Lease.sortTime hself).symm)
  · rw [leaseInstantiate_lease_of_ne s hji] at hp ⊢
    exact h.2 j (hj.resolve_left hji) hp

end Db

namespace QueueRun

open Db

/-- From exact queues every run leads to exact queues. -/
lemma counted_of_running {t : Db ι} (hr : t.Running) : t.Counted := by
  refine ⟨queuesExact hr.queued, fun ops => ?_⟩
  obtain ⟨u, hu, hk⟩ := run_keeps hr ops
  refine ⟨u, hu, fun p => ?_⟩
  have hp := queuesExact hk.1.queued p
  exact ⟨hp, hp.free ▸ Int.natCast_nonneg _, hp.backup ▸ Int.natCast_nonneg _⟩

/-- **The start-up counts**: the pass ends without a fatal error, and every lease of a pool is
counted. The two counters count their queues then and after any sequence of calls if and only if
no lease that is read as free or backup, and is not reserved, ends later than now. -/
theorem startup_counts (s : Db ι) (leases : List ι) (hs : s.NoQueues) (hv : s.AllValid)
    (hnd : leases.Nodup) (hall : ∀ i, i ∈ leases) :
    ∃ t n, s.expireAllPools leases = some (t, n) ∧ (∀ p ∈ s.pools, n p = (s.leasesOf p).card) ∧
      (t.Counted ↔ ∀ p ∈ s.pools, ∀ i ∈ s.leasesOf p,
        queueOf (s.lease i) = some .free ∨ queueOf (s.lease i) = some .backup →
          (s.lease i).ends ≤ s.curTime) := by
  obtain ⟨t, ht, hq, hf⟩ := foldlM_expirePool s.pools
    (x := (s.instantiateAll leases, fun _ => 0)) (instantiateAll_queued hs hnd hall) rfl
    (instantiateAll_valid hv) (instantiateAll_stamped hv hnd hall)
  have hlate := s.mem_late_instantiateAll leases
  refine ⟨{ t with ssNosync := false, ssQfollow := false }, _, by rw [expireAllPools, ht]; rfl,
    fun p hp => by simp [hp, s.leasesOf_instantiateAll leases],
    fun hcount p hp i hi hqi => ?_, fun he => ?_⟩
  · by_contra hlt
    have hfree := (hcount.queues p).free.symm.trans (hq.free p)
    have hback := (hcount.queues p).backup.symm.trans (hq.backup p)
    rw [if_pos hp] at hfree hback
    rcases (hlate p i).mpr ⟨hi, hqi, not_le.mp hlt⟩ with h | h
    all_goals
      have := Finset.card_pos.mpr ⟨i, h⟩
      dsimp only at hfree hback
      omega
  · have hnone (p : ℕ) (hp : p ∈ s.pools) : (s.instantiateAll leases).late p .free = ∅ ∧
        (s.instantiateAll leases).late p .backup = ∅ := by
      have h (i : ι) := (hlate p i).not.mpr fun ⟨hi, hq, hl⟩ => absurd (he p hp i hi hq) hl.not_ge
      exact ⟨Finset.eq_empty_of_forall_notMem fun i hi => h i (.inl hi),
        Finset.eq_empty_of_forall_notMem fun i hi => h i (.inr hi)⟩
    refine counted_of_running ⟨⟨hq.mem, hq.nodup, fun p => (hq.free p).trans ?_,
      fun p => (hq.backup p).trans ?_⟩, rfl⟩
    all_goals
      split_ifs with hp
      · simp [hnone p hp]
      · simp

/-- The only pool has one lease. -/
def oneLease (state : BindingState) (ends : Time) : Db (Fin 1) :=
  { curTime := 7
    lease := fun _ => { pool := some 0, bindingState := state, nextBindingState := .free, ends } }

/-- The lease has expired while the server was down. -/
theorem startup_counts_sample :
    ∃ t n, (oneLease .active 5).expireAllPools [0] = some (t, n) ∧ t.Counted := by
  obtain ⟨t, n, ht, -, hc⟩ := startup_counts (oneLease .active 5) [0]
    ⟨fun _ _ => rfl, fun _ => rfl, fun _ => rfl, rfl⟩ (fun _ => ⟨rfl, rfl⟩) (by decide) (by decide)
  exact ⟨t, n, ht, hc.mpr (by decide)⟩

/-- A free lease that ends later is on the free queue and not counted; when it is taken off the
queue the counter is negative. -/
theorem startup_counts_future : let lease : Lease := { nextBindingState := .active, ends := 20 }
    ((oneLease .free 9).expireAllPools [0]).any (fun (t, _) =>
      (t.pool 0).queue .free = [0] ∧ (t.pool 0).freeLeases = 0 ∧
      (run t [.supersede 0 (some lease) true true true]).any fun u =>
        (u.pool 0).freeLeases = -1) = true := by
  decide

end QueueRun

end IscDhcp
