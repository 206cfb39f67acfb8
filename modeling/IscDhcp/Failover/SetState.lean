import IscDhcp.Failover.Tsfp
import IscDhcp.Leasechain

/-!
What `dhcp_failover_set_state` does to the rest of the database: what is left of a change of
state that could not be recorded, and the expired queues when partner-down is entered.

Compiled with `BINARY_LEASES` the queues are sorted by sort time and tiebreaker, and on the
way into partner-down both are written while the leases stay where they are.
-/

namespace IscDhcp

open IscDhcp.Lib IscDhcp.Leasechain List Option Function

variable {ι : Type} [DecidableEq ι]

namespace Db

/-! ### A change that is not recorded -/

section Unrecorded

variable [Fintype ι] {s t : Db ι}

/-- The failover state, the queues of updates and the leases are the same. -/
structure SameRecord (s t : Db ι) : Prop where
  meState : t.peer.meState = s.peer.meState
  meStos : t.peer.meStos = s.peer.meStos
  savedState : t.peer.savedState = s.peer.savedState
  updateQueue : t.peer.updateQueue = s.peer.updateQueue
  ackQueue : t.peer.ackQueue = s.peer.ackQueue
  nextPending : t.nextPending = s.nextPending
  lease : t.lease = s.lease

/-- The ack queue is given up before the new state is recorded. -/
def Rescinds (s : Db ι) : Prop :=
  (s.peer.meState = .normal ∨ s.peer.meState = .potentialConflict ∨
    s.peer.meState = .partnerDown) ∧ s.peer.ackQueue.tail ≠ none

/-- Another state is saved before the new one is recorded. -/
def Saves (s : Db ι) (new : FailoverState) : Prop :=
  new = .startup ∧ s.peer.meState ≠ .startup ∧ s.peer.savedState.1 ≠ s.peer.meState

lemma changeState_failed {new : FailoverState} (h : (s.recordState new).1 = false) :
    (s.changeState new).nextPending = s.rescindOnChange.nextPending ∧
      (s.changeState new).lease = s.rescindOnChange.lease ∧
      (s.changeState new).peer = { s.rescindOnChange.peer with
        savedState :=
          s.rescindOnChange.peer.savedState.enter s.rescindOnChange.peer.meState new } := by
  unfold changeState
  unfold recordState at h ⊢
  extract_lets _ t at h ⊢
  obtain ⟨io, log, hf⟩ := t.writeState_eq
  generalize t.writeState = r at h hf ⊢
  rcases r with ⟨_ | _, v⟩
  · cases hf
    exact ⟨rfl, rfl, rfl⟩
  · cases h

lemma rescindUpdates_cases (s : Db ι) :
    s.peer.ackQueue.tail = none ∧ s.dhcpFailoverRescindUpdates = s ∨
      s.peer.ackQueue.tail ≠ none ∧ s.dhcpFailoverRescindUpdates.peer.ackQueue = {} := by
  unfold dhcpFailoverRescindUpdates
  cases h : s.peer.ackQueue.tail with
  | none => exact .inl ⟨rfl, rfl⟩
  | some tail => exact .inr ⟨nofun, rfl⟩

lemma rescindOnChange_cases (s : Db ι) : ¬ s.Rescinds ∧ s.rescindOnChange = s ∨
      s.Rescinds ∧ s.rescindOnChange.peer.ackQueue = {} := by
  unfold rescindOnChange Rescinds
  have hr := s.rescindUpdates_cases
  cases s.peer.meState
  case normal | potentialConflict | partnerDown => simpa using hr
  all_goals exact .inl ⟨by simp, rfl⟩

lemma enter_eq_iff {saved : SavedState} {me new : FailoverState} :
    saved.enter me new = saved ↔ ¬ (new = .startup ∧ me ≠ .startup ∧ saved.1 ≠ me) := by
  unfold SavedState.enter
  split_ifs with h
  · rw [Subtype.ext_iff]
    simp [h, eq_comm]
  · simp only [true_iff]
    exact fun hn => h ⟨hn.1, hn.2.1⟩

/-- **A change of state that cannot be recorded is undone** exactly if it gave up no ack queue
and saved no other state on the way. -/
theorem setState_undone_iff (s : Db ι) (new : FailoverState) (h : (s.recordState new).1 = false) :
    SameRecord s (s.changeState new) ↔ ¬ s.Rescinds ∧ ¬ s.Saves new := by
  obtain ⟨hn, hl, hp⟩ := changeState_failed h
  rcases s.rescindOnChange_cases with ⟨hr, he⟩ | ⟨hr, he⟩
  · rw [he] at hn hl hp
    refine ⟨fun hs => ⟨hr, enter_eq_iff.mp ?_⟩, fun hs => ?_⟩
    · exact (congrArg Peer.savedState hp).symm.trans hs.savedState
    · have hs' := enter_eq_iff.mpr hs.2
      rw [hs'] at hp
      constructor <;> simp only [hp, hn, hl]
  · refine ⟨fun hs => absurd ?_ hr.2, fun hs => absurd hr hs.1⟩
    have ha : ((s.changeState new).peer.ackQueue).tail = none := by rw [hp, he]
    rw [← hs.ackQueue, ha]

/-- The server is out of touch with its peer, which has not acknowledged an update, and cannot
record that it goes on to partner-down. -/
theorem setState_undone_sample :
    let s : Db (Fin 1) :=
      { lease := fun _ => { flags := { onAckQueue := true } }
        peer :=
          { meState := .communicationsInterrupted, meStos := 5, ackQueue := ⟨some 0, some 0⟩
            curUnackedUpdates := 1 }
        io := [false] }
    (s.recordState .partnerDown).1 = false ∧ SameRecord s (s.changeState .partnerDown) :=
  ⟨by decide, (setState_undone_iff _ _ (by decide)).mpr ⟨by simp [Rescinds], by simp [Saves]⟩⟩

/-- The server cannot record that it leaves normal, and the update it has sent is taken off the
ack queue. -/
theorem setState_rescinds_anyway :
    let s : Db (Fin 1) :=
      { lease := fun _ => { flags := { onAckQueue := true } }
        peer := { ackQueue := ⟨some 0, some 0⟩, curUnackedUpdates := 1 }, io := [false] }
    (s.recordState .communicationsInterrupted).1 = false ∧
      ¬ SameRecord s (s.changeState .communicationsInterrupted) := by
  refine ⟨by decide, fun h => ?_⟩
  exact absurd h.ackQueue (by decide)

end Unrecorded

/-! ### Entering partner-down -/

section PartnerDown

/-- The tiebreakers of the leases of a queue, from `c` on. -/
def numbered : Long → (ι → Long) → List ι → ι → Long
  | _, tb, [] => tb
  | c, tb, i :: queue => numbered c.next (Function.update tb i c) queue

/-- `expirePartnerDown` with the tiebreakers. -/
def expireKeyed (x : Db ι × (ι → Long)) (p : ℕ) : Db ι × (ι → Long) :=
  (x.1.expirePartnerDown p,
    if (x.1.pool p).failoverPeer then numbered .zero x.2 ((x.1.pool p).queue .expired) else x.2)

/-- `changeState` with the tiebreakers. -/
def changeStateKeyed [Fintype ι] (s : Db ι) (tb : ι → Long) (new : FailoverState) :
    Db ι × (ι → Long) :=
  match s.recordState new with
  | (false, s) => (s, tb)
  | (true, s) =>
    if new = .partnerDown then s.tellState.pools.foldl expireKeyed (s.tellState, tb)
    else (s.tellState, tb)

lemma foldl_expireKeyed (ps : List ℕ) (x : Db ι × (ι → Long)) :
    (ps.foldl expireKeyed x).1 = ps.foldl expirePartnerDown x.1 := by
  induction ps generalizing x with
  | nil => rfl
  | cons p ps ih => exact ih _

lemma changeStateKeyed_fst [Fintype ι] (s : Db ι) (tb : ι → Long) (new : FailoverState) :
    (s.changeStateKeyed tb new).1 = s.changeState new := by
  unfold changeStateKeyed changeState
  rcases s.recordState new with ⟨_ | _, t⟩
  · rfl
  · split_ifs
    exacts [foldl_expireKeyed _ _, rfl]

/-- What the expired queue of a pool is sorted by. -/
def sortKey (x : Db ι × (ι → Long)) (i : ι) : Time ×ₗ Long := toLex ((x.1.lease i).sortTime, x.2 i)

/-- The expired queue is sorted, and the pool's timer wakes up in time for its first lease. -/
@[mk_iff]
structure Consistent (x : Db ι × (ι → Long)) (p : ℕ) : Prop where
  sorted : ((x.1.pool p).queue .expired).Pairwise fun i j => sortKey x i ≤ sortKey x j
  timer : ∀ i ∈ ((x.1.pool p).queue .expired).head?,
    ∃ w : Time, (TimeoutFn.poolTimer p, w) ∈ x.1.timeouts ∧ w ≤ (x.1.lease i).sortTime

/-- The waiting time of the expired leases, when partner-down is entered. -/
def waitEnds (s : Db ι) : Time :=
  (if s.peer.meState = .startup then s.peer.meStos else s.curTime) + s.peer.mclt

/-- The expired queue of a pool of the peer survives that its leases wait until `T`: none that
ends after `T` ends after a lease behind it, and the timer of the pool is set, or pending, in time
for the first one. -/
@[mk_iff]
structure Survives (s : Db ι) (T : Time) (p : ℕ) : Prop where
  sorted : ((s.pool p).queue .expired).Pairwise fun i j =>
    (s.lease i).ends ≤ T ∨ (s.lease i).ends ≤ (s.lease j).ends
  timer : ∀ i ∈ ((s.pool p).queue .expired).head?,
    if max T (s.lease i).ends < (s.pool p).nextEventTime then s.curTime ≤ max T (s.lease i).ends
    else ∃ w : Time, (TimeoutFn.poolTimer p, w) ∈ s.timeouts ∧ w ≤ max T (s.lease i).ends

/-! Tiebreakers -/

variable {queue : List ι}

lemma numbered_of_notMem {j : ι} (h : j ∉ queue) (c : Long) (tb : ι → Long) :
    numbered c tb queue j = tb j := by
  induction queue generalizing c tb with
  | nil => rfl
  | cons i queue ih =>
    obtain ⟨hi, hq⟩ := ne_and_not_mem_of_not_mem_cons h
    rw [numbered, ih hq, update_of_ne hi]

lemma numbered_congr {j : ι} (h : j ∈ queue) (c : Long) (tb tb' : ι → Long) :
    numbered c tb queue j = numbered c tb' queue j := by
  induction queue generalizing c tb tb' with
  | nil => cases h
  | cons i queue ih =>
    by_cases hq : j ∈ queue
    · exact ih hq ..
    · obtain rfl : j = i := by simpa [hq] using h
      rw [numbered, numbered, numbered_of_notMem hq, numbered_of_notMem hq, update_self,
        update_self]

lemma le_numbered {j : ι} (h : j ∈ queue) (c : Long) (tb : ι → Long) :
    c ≤ numbered c tb queue j := by
  induction queue generalizing c tb with
  | nil => cases h
  | cons i queue ih =>
    rw [numbered]
    by_cases hq : j ∈ queue
    · exact (Long.le_next c).trans (ih hq ..)
    · obtain rfl : j = i := by simpa [hq] using h
      rw [numbered_of_notMem hq, update_self]

lemma numbered_pairwise (h : queue.Nodup) (c : Long) (tb : ι → Long) :
    queue.Pairwise fun i j => numbered c tb queue i ≤ numbered c tb queue j := by
  induction queue generalizing c tb with
  | nil => exact .nil
  | cons i queue ih =>
    obtain ⟨hi, hq⟩ := nodup_cons.mp h
    refine pairwise_cons.mpr ⟨fun j hj => ?_, ih hq ..⟩
    rw [numbered, numbered_of_notMem hi, update_self]
    exact (Long.le_next c).trans (le_numbered hj ..)

/-! The way into the new state -/

def timing (s : Db ι) :=
  (fun i => ((s.lease i).ends, (s.lease i).sortTime), s.pool, s.pools, s.timeouts, s.curTime,
    s.peer.mclt)

lemma timing_modify (s : Db ι) (i : ι) {f : Lease → Lease} (he : ∀ l, (f l).ends = l.ends)
    (hs : ∀ l, (f l).sortTime = l.sortTime) : (s.modify i f).timing = s.timing := by
  simp only [timing, s.proj_modify i Lease.ends he, s.proj_modify i Lease.sortTime hs]
  rfl

section Record

variable [Fintype ι] {s : Db ι}

lemma timing_rescindUpdates (s : Db ι) : s.dhcpFailoverRescindUpdates.timing = s.timing := by
  refine s.rescindUpdates_rec (P := (timing · = s.timing)) rfl (fun t i h => ?_) fun _ _ _ h => h
  unfold setOnUpdateQueue setOnAckQueue
  rw [timing_modify, timing_modify, h] <;> exact fun _ => rfl

lemma timing_rescindOnChange (s : Db ι) : s.rescindOnChange.timing = s.timing := by
  unfold rescindOnChange
  split <;> first | rfl | exact s.timing_rescindUpdates

lemma peer_rescindOnChange (s : Db ι) : s.rescindOnChange.peer.meState = s.peer.meState ∧
      s.rescindOnChange.peer.meStos = s.peer.meStos := by
  have h := s.sameTimes_rescindUpdates
  unfold rescindOnChange
  split <;> first | exact ⟨rfl, rfl⟩ | exact ⟨h.meState, h.meStos⟩

lemma recordState_partnerDown (h : (s.recordState .partnerDown).1 = true) :
    (s.recordState .partnerDown).2.timing = s.timing ∧
      (s.recordState .partnerDown).2.peer.meState = .partnerDown ∧
      (s.recordState .partnerDown).2.peer.meStos + (s.recordState .partnerDown).2.peer.mclt =
        s.waitEnds := by
  have hr := s.timing_rescindOnChange
  have hc : s.rescindOnChange.curTime = s.curTime := congrArg (·.2.2.2.2.1) hr
  have hm : s.rescindOnChange.peer.mclt = s.peer.mclt := congrArg (·.2.2.2.2.2) hr
  obtain ⟨hs, hst⟩ := s.peer_rescindOnChange
  unfold recordState at h ⊢
  extract_lets u t at h ⊢
  obtain ⟨io, log, hf⟩ := t.writeState_eq
  generalize t.writeState = r at h hf ⊢
  rcases r with ⟨_ | _, v⟩
  · cases h
  · cases hf
    refine ⟨hr, rfl, ?_⟩
    change u.newStos .partnerDown + u.peer.mclt = _
    rw [waitEnds, newStos, if_neg (by simp)]
    simp only [u]
    split_ifs <;> simp_all

lemma strip_tellState (s : Db ι) : s.tellState.strip = s.strip := by
  unfold tellState
  rw [ask_eq]
  split_ifs
  · cases s.io.headD true
    exacts [strip_disconnect _, rfl]
  · rfl

lemma tellState_timing (hs : s.peer.meState = .partnerDown) :
    s.tellState.timing = s.timing ∧ s.tellState.peer.meStos = s.peer.meStos := by
  unfold tellState
  rw [ask_eq]
  split_ifs
  · cases s.io.headD true
    · dsimp only
      rw [disconnect_partnerDown (s := { s with io := s.io.tail }) hs]
      exact ⟨rfl, rfl⟩
    · exact ⟨rfl, rfl⟩
  · exact ⟨rfl, rfl⟩

end Record

/-! The expired queues -/

variable {s t : Db ι}

lemma waitUntil_waitUntil (T : Time) (l : Lease) :
    waitUntil T (waitUntil T l) = waitUntil T l := rfl

lemma sortTime_waitUntil (T : Time) (l : Lease) : (waitUntil T l).sortTime = max T l.ends := by
  unfold waitUntil
  split_ifs with h
  exacts [(max_eq_left_of_lt h).symm, (max_eq_right (not_lt.mp h)).symm]

def allWaiting (s : Db ι) (T : Time) (queue : List ι) : Db ι :=
  { s with lease := fun j => if j ∈ queue then waitUntil T (s.lease j) else s.lease j }

lemma foldl_waitUntil (T : Time) (queue : List ι) (s : Db ι) :
    queue.foldl (fun t i => t.modify i (waitUntil T)) s = s.allWaiting T queue := by
  induction queue generalizing s with
  | nil => simp [allWaiting]
  | cons i queue ih =>
    rw [foldl_cons, ih]
    unfold allWaiting modify setLease
    congr 1
    funext j
    by_cases hj : j = i
    · subst hj
      simp [waitUntil_waitUntil]
    · simp [hj]

/-- The time the timer of a pool is set to, if it is set. -/
def wakeup (s : Db ι) (T : Time) (p : ℕ) : Option Time :=
  (((s.pool p).queue .expired).head?.map fun i => max T (s.lease i).ends).filter
    (· < (s.pool p).nextEventTime)

lemma expirePartnerDown_eq (hf : (s.pool p).failoverPeer = true)
    (hT : s.peer.meStos + s.peer.mclt = T) :
    s.expirePartnerDown p = (s.wakeup T p).elim (s.allWaiting T ((s.pool p).queue .expired))
      ((s.allWaiting T ((s.pool p).queue .expired)).schedulePool p) := by
  unfold expirePartnerDown wakeup
  rw [if_pos hf, hT]
  extract_lets queue t
  have ht : t = s.allWaiting T queue := foldl_waitUntil T queue s
  rw [ht]
  change _ = Option.elim (Option.filter _ (Option.map _ queue.head?)) (s.allWaiting T queue)
    ((s.allWaiting T queue).schedulePool p)
  cases queue with
  | nil => rfl
  | cons i rest =>
    have hk : ((s.allWaiting T (i :: rest)).lease i).sortTime = max T (s.lease i).ends := by
      simp [allWaiting, sortTime_waitUntil]
    simp only [head?_cons, map_some, hk, filter_some, decide_eq_true_eq]
    by_cases hn : max T (s.lease i).ends < (s.pool p).nextEventTime
    · rw [if_pos hn]
      exact if_pos hn
    · rw [if_neg hn]
      exact if_neg hn

/-- When a timeout set for the time `t` fires. -/
def alarm (now t : Time) : Time := now + if t - now ≥ timeMax then timeMax - 1 else t - now

lemma alarm_le_iff {now t : Time} : alarm now t ≤ t ↔ now ≤ t := by
  constructor
  · exact fun h => (Nat.le_add_right ..).trans h
  · intro h
    have hs : (if t - now ≥ timeMax then timeMax - 1 else t - now) ≤ t - now := by
      split_ifs with hm
      exacts [(Nat.sub_le ..).trans hm, le_rfl]
    exact (Nat.add_le_add_left hs now).trans (Nat.add_sub_cancel' h).le

omit [DecidableEq ι] in
lemma mem_addTimeout (h : (s.timeouts.map Prod.fst).Nodup) (fn fn' : TimeoutFn) (t w : Time) :
    (fn', w) ∈ (s.addTimeout fn t).timeouts ↔
      if fn' = fn then w = alarm s.curTime t else (fn', w) ∈ s.timeouts := by
  change (fn', w) ∈ (fn, alarm s.curTime t) :: s.timeouts.eraseP _ ↔ _
  rw [eraseP_eq_filter (countP_key h fn)]
  by_cases hf : fn' = fn <;> simp [hf]

omit [DecidableEq ι] in
lemma once_addTimeout (h : (s.timeouts.map Prod.fst).Nodup) (fn : TimeoutFn) (t : Time) :
    ((s.addTimeout fn t).timeouts.map Prod.fst).Nodup := by
  unfold addTimeout
  rw [eraseP_eq_filter (countP_key h fn), map_cons, nodup_cons]
  refine ⟨by simp, ?_⟩
  exact h.sublist (filter_sublist.map _)

/-- Where the rewriting of the queues stands, seen from one pool of the peer: its queue has been
visited (`done`), or not yet. -/
structure Waits (u x : Db ι × (ι → Long)) (T : Time) (p : ℕ) (done : Bool) : Prop where
  queue : ∀ p', (x.1.pool p').queue = (u.1.pool p').queue
  failoverPeer : ∀ p', (x.1.pool p').failoverPeer = (u.1.pool p').failoverPeer
  wait : x.1.peer.meStos + x.1.peer.mclt = T
  curTime : x.1.curTime = u.1.curTime
  once : (x.1.timeouts.map Prod.fst).Nodup
  lease : ∀ i ∈ (u.1.pool p).queue .expired,
    x.1.lease i = bif done then waitUntil T (u.1.lease i) else u.1.lease i
  tiebreaker : ∀ i ∈ (u.1.pool p).queue .expired,
    x.2 i = bif done then numbered .zero u.2 ((u.1.pool p).queue .expired) i else u.2 i
  next : (x.1.pool p).nextEventTime =
    (bif done then u.1.wakeup T p else none).getD (u.1.pool p).nextEventTime
  timer : ∀ w : Time, (TimeoutFn.poolTimer p, w) ∈ x.1.timeouts ↔
    (bif done then u.1.wakeup T p else none).elim ((TimeoutFn.poolTimer p, w) ∈ u.1.timeouts)
      fun k => w = alarm u.1.curTime k

variable {u x : Db ι × (ι → Long)} {T : Time} {p : ℕ} {done : Bool}

lemma Waits.refl (hT : u.1.peer.meStos + u.1.peer.mclt = T)
    (ho : (u.1.timeouts.map Prod.fst).Nodup) : Waits u u T p false where
  queue _ := rfl
  failoverPeer _ := rfl
  wait := hT
  curTime := rfl
  once := ho
  lease _ _ := rfl
  tiebreaker _ _ := rfl
  next := rfl
  timer _ := .rfl

/-- What the visit of a pool of the peer does. -/
structure Visited (x y : Db ι × (ι → Long)) (T : Time) (p : ℕ) : Prop where
  queue : ∀ p', (y.1.pool p').queue = (x.1.pool p').queue
  failoverPeer : ∀ p', (y.1.pool p').failoverPeer = (x.1.pool p').failoverPeer
  peer : y.1.peer = x.1.peer
  curTime : y.1.curTime = x.1.curTime
  once : (y.1.timeouts.map Prod.fst).Nodup
  lease : ∀ i, y.1.lease i =
    if i ∈ (x.1.pool p).queue .expired then waitUntil T (x.1.lease i) else x.1.lease i
  tiebreaker : y.2 = numbered .zero x.2 ((x.1.pool p).queue .expired)
  next : ∀ p', (y.1.pool p').nextEventTime =
    (if p' = p then x.1.wakeup T p else none).getD (x.1.pool p').nextEventTime
  timer : ∀ p' (w : Time), (TimeoutFn.poolTimer p', w) ∈ y.1.timeouts ↔
    (if p' = p then x.1.wakeup T p else none).elim ((TimeoutFn.poolTimer p', w) ∈ x.1.timeouts)
      fun k => w = alarm x.1.curTime k

lemma visited_expireKeyed (hf : (x.1.pool p).failoverPeer = true)
    (hT : x.1.peer.meStos + x.1.peer.mclt = T) (ho : (x.1.timeouts.map Prod.fst).Nodup) :
    Visited x (expireKeyed x p) T p := by
  unfold expireKeyed
  rw [if_pos hf, expirePartnerDown_eq hf hT]
  have hsched (k : Time)
    (p' : ℕ) : (((x.1.allWaiting T ((x.1.pool p).queue .expired)).schedulePool p
      k).pool p') = if p' = p then { x.1.pool p' with nextEventTime := k } else x.1.pool p' := by
    by_cases hp : p' = p
    · subst hp
      simp [schedulePool, addTimeout, setNextEventTime, setPool, allWaiting]
    · simp [schedulePool, addTimeout, setNextEventTime, setPool, allWaiting, hp]
  cases hw : x.1.wakeup T p with
  | none =>
    refine ⟨fun _ => rfl, fun _ => rfl, rfl, rfl, ho, fun _ => rfl, rfl, fun p' => ?_,
      fun p' w => ?_⟩
    · rw [hw, ite_self]
      rfl
    · rw [hw, ite_self]
      rfl
  | some k =>
    have hm := fun p' w => mem_addTimeout ho (.poolTimer p) (.poolTimer p') k w
    refine ⟨fun p' => ?_, fun p' => ?_, rfl, rfl, once_addTimeout ho _ _, fun _ => rfl, rfl,
      fun p' => ?_, fun p' w => ?_⟩
    · dsimp only [Option.elim]
      rw [hsched]
      split_ifs <;> rfl
    · dsimp only [Option.elim]
      rw [hsched]
      split_ifs <;> rfl
    · dsimp only [Option.elim]
      rw [hsched, hw]
      split_ifs <;> rfl
    · rw [hw]
      refine (hm p' w).trans ?_
      by_cases hp : p' = p
      · simp only [hp]
        rfl
      · have hp' : TimeoutFn.poolTimer p' ≠ .poolTimer p := fun h => hp (TimeoutFn.poolTimer.inj h)
        simp only [hp, hp']
        rfl

omit [DecidableEq ι] in
lemma wakeup_congr {v w : Db ι} (hq : (v.pool p).queue = (w.pool p).queue)
    (hl : ∀ i ∈ (w.pool p).queue .expired, (v.lease i).ends = (w.lease i).ends)
    (hn : (v.pool p).nextEventTime = (w.pool p).nextEventTime) : v.wakeup T p = w.wakeup T p := by
  unfold wakeup
  rw [hq, hn]
  congr 1
  cases hh : ((w.pool p).queue .expired).head? with
  | none => rfl
  | some i => rw [map_some, map_some, hl i (mem_of_head? hh)]

lemma Waits.wakeup_done (h : Waits u x T p true) : x.1.wakeup T p = none := by
  have hn := h.next
  unfold wakeup at hn ⊢
  rw [h.queue]
  cases hh : ((u.1.pool p).queue .expired).head? with
  | none => rfl
  | some i =>
    rw [hh] at hn
    have hl : (x.1.lease i).ends = (u.1.lease i).ends := by
      rw [h.lease i (mem_of_head? hh)]
      rfl
    simp only [map_some, filter_some, decide_eq_true_eq] at hn ⊢
    rw [hl, if_neg]
    split_ifs at hn with hc
    · rw [hn]
      exact lt_irrefl _
    · rw [hn]
      exact hc

lemma Waits.wakeup_eq (h : Waits u x T p false) : x.1.wakeup T p = u.1.wakeup T p :=
  wakeup_congr (h.queue p) (fun i hi => by rw [h.lease i hi]; rfl) h.next

/-- The visit of another pool changes nothing for this one, whose leases it does not have. -/
lemma Waits.visitOther (h : Waits u x T p done) {y : Db ι × (ι → Long)} {p' : ℕ} (hp : p ≠ p')
    (hd : ∀ i ∈ (u.1.pool p).queue .expired, i ∉ (u.1.pool p').queue .expired)
    (hv : Visited x y T p') : Waits u y T p done where
  queue q := (hv.queue q).trans (h.queue q)
  failoverPeer q := (hv.failoverPeer q).trans (h.failoverPeer q)
  wait := by rw [hv.peer, h.wait]
  curTime := hv.curTime.trans h.curTime
  once := hv.once
  lease i hi := by rw [hv.lease, h.queue, if_neg (hd i hi), h.lease i hi]
  tiebreaker i hi := by
    rw [hv.tiebreaker, h.queue, numbered_of_notMem (hd i hi), h.tiebreaker i hi]
  next := by
    rw [hv.next, if_neg hp]
    exact h.next
  timer w := by
    rw [hv.timer, if_neg hp]
    exact h.timer w

lemma Waits.visit (h : Waits u x T p done) {y : Db ι × (ι → Long)} (hv : Visited x y T p) :
    Waits u y T p true where
  queue q := (hv.queue q).trans (h.queue q)
  failoverPeer q := (hv.failoverPeer q).trans (h.failoverPeer q)
  wait := by rw [hv.peer, h.wait]
  curTime := hv.curTime.trans h.curTime
  once := hv.once
  lease i hi := by
    rw [hv.lease, h.queue, if_pos hi, h.lease i hi]
    cases done <;> rfl
  tiebreaker i hi := by
    rw [hv.tiebreaker, h.queue]
    exact numbered_congr hi ..
  next := by
    rw [hv.next, if_pos rfl]
    cases done with
    | false =>
      rw [h.wakeup_eq, h.next]
      rfl
    | true =>
      rw [h.wakeup_done]
      exact h.next
  timer w := by
    rw [hv.timer, if_pos rfl]
    cases done with
    | false =>
      rw [h.wakeup_eq, h.curTime]
      cases u.1.wakeup T p with
      | none => exact h.timer w
      | some k => exact .rfl
    | true =>
      rw [h.wakeup_done]
      exact h.timer w

lemma Waits.run (hq : Queued u.1) (ps : List ℕ) (h : Waits u x T p done) :
    Waits u (ps.foldl expireKeyed x) T p
      (done || decide (p ∈ ps) && (u.1.pool p).failoverPeer) := by
  induction ps generalizing x done with
  | nil => simpa using h
  | cons p' ps ih =>
    rw [foldl_cons]
    by_cases hf : (x.1.pool p').failoverPeer = true
    · have hv := visited_expireKeyed hf h.wait h.once
      by_cases hp : p = p'
      · subst hp
        have hb := ih (h.visit hv)
        rw [h.failoverPeer] at hf
        simpa [hf] using hb
      · have hd : ∀ i ∈ (u.1.pool p).queue .expired, i ∉ (u.1.pool p').queue .expired :=
          fun i hi hi' => hp (some.inj
            (((hq.mem ..).mp hi).2.1.symm.trans ((hq.mem ..).mp hi').2.1))
        simpa [hp] using ih (h.visitOther hp hd hv)
    · have he : expireKeyed x p' = x := by
        unfold expireKeyed expirePartnerDown
        rw [if_neg hf, if_neg hf]
      rw [he]
      rw [h.failoverPeer] at hf
      by_cases hp : p = p'
      · subst hp
        simpa [hf] using ih h
      · simpa [hp] using ih h

lemma Waits.consistent_iff (h : Waits u x T p false) : Consistent x p ↔ Consistent u p := by
  have hk : ∀ i ∈ (u.1.pool p).queue .expired, sortKey x i = sortKey u i := fun i hi => by
    unfold sortKey
    rw [h.lease i hi, h.tiebreaker i hi]
    rfl
  have ht : ∀ i ∈ ((u.1.pool p).queue .expired).head?,
      ((∃ w : Time, (TimeoutFn.poolTimer p, w) ∈ x.1.timeouts ∧ w ≤ (x.1.lease i).sortTime) ↔
        ∃ w : Time, (TimeoutFn.poolTimer p, w) ∈ u.1.timeouts ∧ w ≤ (u.1.lease i).sortTime) :=
    fun i hi => by
      rw [h.lease i (mem_of_head? hi)]
      exact exists_congr fun w => and_congr_left fun _ => h.timer w
  rw [Db.consistent_iff, Db.consistent_iff, h.queue]
  exact and_congr (Pairwise.iff_of_mem fun hi hj => by rw [hk _ hi, hk _ hj]) (forall₂_congr ht)

lemma max_le_max_iff_or {T a b : Time} : max T a ≤ max T b ↔ a ≤ T ∨ a ≤ b := by
  rw [max_le_iff, le_max_iff, le_max_iff]
  exact ⟨fun h => h.2.imp_right fun hb => hb, fun h => ⟨.inl le_rfl, h⟩⟩

/-- In a queue that was visited the order is that of the ends, as far as these are later. -/
lemma Waits.sorted_iff (h : Waits u x T p true) (hq : ((u.1.pool p).queue .expired).Nodup) :
    (((x.1.pool p).queue .expired).Pairwise fun i j => sortKey x i ≤ sortKey x j) ↔
      ((u.1.pool p).queue .expired).Pairwise fun i j =>
        (u.1.lease i).ends ≤ T ∨ (u.1.lease i).ends ≤ (u.1.lease j).ends := by
  have hk : ∀ i ∈ (u.1.pool p).queue .expired, sortKey x i =
      toLex (max T (u.1.lease i).ends, numbered .zero u.2 ((u.1.pool p).queue .expired) i) :=
    fun i hi => by
      unfold sortKey
      rw [h.lease i hi, h.tiebreaker i hi, cond_true, sortTime_waitUntil, cond_true]
  rw [h.queue]
  constructor
  · refine fun hs => hs.imp_of_mem fun {i j} hi hj hle => ?_
    rw [hk i hi, hk j hj, Prod.Lex.toLex_le_toLex] at hle
    exact max_le_max_iff_or.mp (hle.elim le_of_lt fun he => he.1.le)
  · refine fun hs => (hs.and (numbered_pairwise hq .zero u.2)).imp_of_mem fun {i j} hi hj hle => ?_
    rw [hk i hi, hk j hj, Prod.Lex.toLex_le_toLex]
    exact (max_le_max_iff_or.mpr hle.1).lt_or_eq.imp_right fun he => ⟨he, hle.2⟩

lemma Waits.timer_iff (h : Waits u x T p true) {i : ι}
    (hi : i ∈ ((u.1.pool p).queue .expired).head?) :
    (∃ w : Time, (TimeoutFn.poolTimer p, w) ∈ x.1.timeouts ∧ w ≤ (x.1.lease i).sortTime) ↔
      if max T (u.1.lease i).ends < (u.1.pool p).nextEventTime then
        u.1.curTime ≤ max T (u.1.lease i).ends
      else ∃ w : Time, (TimeoutFn.poolTimer p, w) ∈ u.1.timeouts ∧
        w ≤ max T (u.1.lease i).ends := by
  have ht := h.timer
  rw [mem_def] at hi
  simp only [wakeup, hi, map_some, filter_some, cond_true, decide_eq_true_eq] at ht
  rw [h.lease i (mem_of_head? hi), cond_true, sortTime_waitUntil]
  split_ifs with hc
  · simp only [hc, if_true, Option.elim] at ht
    simp only [ht, exists_eq_left, alarm_le_iff]
  · simp only [hc] at ht
    simp [ht]

lemma Waits.survives_iff (h : Waits u x T p true) (hq : ((u.1.pool p).queue .expired).Nodup) :
    Consistent x p ↔ Survives u.1 T p := by
  rw [Db.consistent_iff, Db.survives_iff, h.sorted_iff hq, h.queue]
  exact and_congr_right fun _ => forall₂_congr fun i hi => h.timer_iff hi

/-! Only what `timing` keeps matters. -/

omit [DecidableEq ι] in
lemma Survives.congr {s t : Db ι} (ht : s.timing = t.timing) (h : Survives s T p) :
    Survives t T p := by
  have hl (i : ι) : (t.lease i).ends = (s.lease i).ends := congrArg (fun x => (x.1 i).1) ht.symm
  have hp : t.pool = s.pool := congrArg (·.2.1) ht.symm
  have hw : t.timeouts = s.timeouts := congrArg (·.2.2.2.1) ht.symm
  have hc : t.curTime = s.curTime := congrArg (·.2.2.2.2.1) ht.symm
  constructor
  · simpa [hl, hp] using h.sorted
  · simpa [hl, hp, hw, hc] using h.timer

omit [DecidableEq ι] in
lemma Consistent.congr {s t : Db ι} {tb : ι → Long} (ht : s.timing = t.timing)
    (h : Consistent (s, tb) p) : Consistent (t, tb) p := by
  have hl (i : ι) : (t.lease i).sortTime = (s.lease i).sortTime :=
    congrArg (fun x => (x.1 i).2) ht.symm
  have hp : t.pool = s.pool := congrArg (·.2.1) ht.symm
  have hw : t.timeouts = s.timeouts := congrArg (·.2.2.2.1) ht.symm
  constructor
  · simpa [sortKey, hl, hp] using h.sorted
  · simpa [hl, hp, hw] using h.timer

variable [Fintype ι]

/-- **The expired queues on the way into partner-down.** The queue of a pool is sorted afterwards,
with the timer of the pool pending in time for its first lease, exactly if it survives the wait;
the pools that do not belong to the peer are left as they were. The tiebreakers are kept beside
the state that `changeState` reaches. -/
theorem partnerDown_consistent_iff (s : Db ι) (tb : ι → Long) (hq : Queued s)
    (ho : (s.timeouts.map Prod.fst).Nodup) (hr : (s.recordState .partnerDown).1 = true) (p : ℕ) :
    (s.changeStateKeyed tb .partnerDown).1 = s.changeState .partnerDown ∧
    (Consistent (s.changeStateKeyed tb .partnerDown) p ↔
      if p ∈ s.pools ∧ (s.pool p).failoverPeer = true then Survives s s.waitEnds p
      else Consistent (s, tb) p) := by
  refine ⟨s.changeStateKeyed_fst tb _, ?_⟩
  obtain ⟨ht, hm, hw⟩ := recordState_partnerDown hr
  have hstrip := s.strip_recordState .partnerDown
  unfold changeStateKeyed
  generalize s.recordState .partnerDown = r at hr ht hm hw hstrip
  obtain ⟨b, v⟩ := r
  obtain rfl : b = true := hr
  simp only [if_true] at ht hm hw hstrip ⊢
  obtain ⟨ht', hst⟩ := tellState_timing hm
  have htell : v.tellState.timing = s.timing := ht'.trans ht
  have hps : v.tellState.pools = s.pools := congrArg (·.2.2.1) htell
  have hpool : v.tellState.pool = s.pool := congrArg (·.2.1) htell
  have hto : v.tellState.timeouts = s.timeouts := congrArg (·.2.2.2.1) htell
  have hmc : v.tellState.peer.mclt = v.peer.mclt := congrArg (·.2.2.2.2.2) ht'
  have hq' : Queued v.tellState := hq.of_strip (v.strip_tellState.trans hstrip)
  have hrun := (Waits.refl (u := (v.tellState, tb)) (p := p)
    (by rw [hst, hmc, hw]) (by rw [hto]; exact ho)).run hq' s.pools
  rw [hps]
  rw [Bool.false_or, hpool] at hrun
  split_ifs with hc
  · rw [decide_eq_true hc.1, hc.2] at hrun
    rw [hrun.survives_iff (hq'.nodup ..)]
    exact ⟨.congr htell, .congr htell.symm⟩
  · have hd : (decide (p ∈ s.pools) && (s.pool p).failoverPeer) = false := by
      simpa using hc
    rw [hd] at hrun
    rw [hrun.consistent_iff]
    exact ⟨.congr htell, .congr htell.symm⟩

/-- The lease file of a server in partner-down: two expired leases, the first of which ends later
but has no `tsfp`. -/
def leasesRead : Db Bool :=
  { curTime := 5000
    lease := fun i =>
      { pool := some 0, bindingState := .expired
        ends := if i then 3000 else 4000, tsfp := if i then 9000 else 0 }
    pool := fun _ => { failoverPeer := true }
    peer := { meState := .partnerDown, meStos := 1000, mclt := 100 } }

def restarted : Db Bool :=
  { leasesRead.instantiateAll [false, true] with
    peer := { leasesRead.peer with meState := .startup, savedState := ⟨.partnerDown, nofun⟩ } }

lemma restarted_queued : Queued restarted := by
  have h : Queued (leasesRead.instantiateAll [false, true]) :=
    instantiateAll_queued ⟨fun _ _ => rfl, fun _ => rfl, fun _ => rfl, rfl⟩ (by decide) (by decide)
  exact { h with }

theorem partnerDown_consistent_sample : (restarted.recordState .partnerDown).1 = true ∧
      (Consistent (restarted.changeStateKeyed (fun _ => .zero) .partnerDown) 0 ↔
        if 0 ∈ restarted.pools ∧ (restarted.pool 0).failoverPeer = true then
          Survives restarted restarted.waitEnds 0
        else Consistent (restarted, fun _ => .zero) 0) :=
  ⟨by decide, (partnerDown_consistent_iff restarted _ restarted_queued (by decide) (by decide) 0).2⟩

/-- The queue was sorted by the sort times, and is not afterwards; and with no timer pending
before there is none afterwards. -/
theorem partnerDown_unsorted : let r := restarted.changeStateKeyed (fun _ => .zero) .partnerDown
    Queued restarted ∧ ((restarted.pool 0).queue .expired).Pairwise restarted.before ∧
      r.1.peer.meState = .partnerDown ∧
      ¬ ((r.1.pool 0).queue .expired).Pairwise (fun i j => sortKey r i ≤ sortKey r j) ∧
      (r.1.pool 0).queue .expired ≠ [] ∧ r.1.timeouts = [] ∧ ¬ Consistent r 0 := by
  have hs : ¬ (((restarted.changeStateKeyed (fun _ => .zero) .partnerDown).1.pool 0).queue
      .expired).Pairwise (fun i j =>
        sortKey (restarted.changeStateKeyed (fun _ => .zero) .partnerDown) i ≤
          sortKey (restarted.changeStateKeyed (fun _ => .zero) .partnerDown) j) := by
    decide +kernel
  exact ⟨restarted_queued, by decide, by decide, hs, by decide, by decide, fun h => hs h.sorted⟩

end PartnerDown

end Db

end IscDhcp
