import IscDhcp.Mdb.Supersede
import IscDhcp.Failover.Frame

/-!
What the functions of `supersede_lease` write.

Each of them changes one lease and a few tables; the equations below say which, so that the
proofs about queues, timers and chains do not look into the functions again.
-/

namespace IscDhcp

variable {ι : Type} [DecidableEq ι]

namespace Db

section

variable (s : Db ι) (i : ι) (comp : ι)

@[simp] lemma modify_lease_self (f : Lease → Lease) :
    (s.modify i f).lease i = f (s.lease i) := Function.update_self ..

lemma modify_lease_of_ne {i j : ι} (h : j ≠ i) (f : Lease → Lease) :
    (s.modify i f).lease j = s.lease j := Function.update_of_ne h ..

lemma modify_modify (f g : Lease → Lease) : (s.modify i f).modify i g = s.modify i (g ∘ f) := by
  simp [modify, setLease]

lemma modify_id : s.modify i id = s := by
  simp [modify, setLease]

/-! ### Billing -/

def setCls (cls : ℕ → Class ι) : Db ι := { s with cls := cls }

/-- The lease is billed to `b`, and the classes are `cls`. -/
def rebill (cls : ℕ → Class ι) (b : Option ℕ) : Db ι :=
  (s.modify i fun l => { l with billingClass := b }).setCls cls

lemma rebill_rebill (cls cls' : ℕ → Class ι) (b b' : Option ℕ) :
    (s.rebill i cls b).rebill i cls' b' = s.rebill i cls' b' := by
  simp [rebill, setCls, modify, setLease]

lemma rebill_self : s.rebill i s.cls (s.lease i).billingClass = s := by
  simp [rebill, setCls, modify, setLease]

lemma unbillClass_eq : ∃ cls, s.unbillClass i = s.rebill i cls none := by
  unfold unbillClass
  cases hb : (s.lease i).billingClass with
  | none =>
    have h := s.rebill_self i
    rw [hb] at h
    exact ⟨s.cls, h.symm⟩
  | some c =>
    dsimp only
    split
    · exact ⟨s.cls, rfl⟩
    · exact ⟨_, rfl⟩

lemma billClass_eq (c : ℕ) : ∃ cls b, (s.billClass i c).2 = s.rebill i cls b := by
  unfold billClass
  extract_lets t cls
  obtain ⟨cls', b, ht⟩ : ∃ cls b, t = s.rebill i cls b := by
    by_cases h : (s.lease i).billingClass.isSome
    · obtain ⟨cls', h'⟩ := s.unbillClass_eq i
      exact ⟨cls', none, by simp [t, if_pos h, h']⟩
    · exact ⟨s.cls, (s.lease i).billingClass, by simp [t, if_neg h, rebill_self]⟩
  split_ifs
  · exact ⟨cls', b, ht⟩
  · split
    · exact ⟨cls', b, ht⟩
    · have h (x : Class ι) : (t.setClass c x).modify i
        (fun l => { l with billingClass := some c }) =
          s.rebill i (Function.update t.cls c x) (some c) := by
        rw [← s.rebill_rebill i cls' _ b, ← ht]
        rfl
      exact ⟨_, some c, h _⟩

lemma copyBilling_eq (lease : Lease) : ∃ cls b, s.copyBilling comp lease = s.rebill comp cls b := by
  unfold copyBilling
  split_ifs
  · obtain ⟨cls, h⟩ := s.unbillClass_eq comp
    cases lease.billingClass with
    | none => exact ⟨cls, none, h⟩
    | some c =>
      obtain ⟨cls', b, h'⟩ := (s.unbillClass comp).billClass_eq comp c
      rw [h, rebill_rebill] at h'
      exact ⟨cls', b, h ▸ h'⟩
  · exact ⟨_, _, (s.rebill_self comp).symm⟩

/-! ### The transition -/

def dropped (l : Lease) : Lease :=
  { l with
    billingClass := none, onExpiry := none, onRelease := none, agentOptions := none
    clientHostname := none, host := none, tstp := l.ends }

lemma dropClient_eq : ∃ cls, s.dropClient i = (s.modify i dropped).setCls cls := by
  obtain ⟨cls, h⟩ := s.unbillClass_eq i
  refine ⟨cls, ?_⟩
  simp [dropClient, h, rebill, setCls, modify, setLease, dropped]

/-- The data of a lease after the transition, in a server whose state is `p`. -/
def transition (peered : Bool) (p : Peer ι) (l : Lease) : Lease :=
  let d := if expires peered l || releases peered l then dropped l else l
  { d with
    bindingState := l.nextBindingState
    nextBindingState := stateAfter peered l.nextBindingState
    tsfp := if waitsForPeer l.nextBindingState && peered && p.meState == .partnerDown then
      p.meStos + p.mclt else l.tsfp }

lemma transition_keeps (peered : Bool) (p : Peer ι) (l : Lease) : let t := transition peered p l
    t.pool = l.pool ∧ t.ends = l.ends ∧ t.cltt = l.cltt ∧ t.uid = l.uid ∧
      t.hardwareAddr = l.hardwareAddr ∧ t.flags = l.flags := by
  have (d : Lease) (hd : d = l ∨ d = dropped l) : d.pool = l.pool ∧ d.ends = l.ends ∧
      d.cltt = l.cltt ∧ d.uid = l.uid ∧ d.hardwareAddr = l.hardwareAddr ∧ d.flags = l.flags := by
    rcases hd with rfl | rfl <;> exact ⟨rfl, rfl, rfl, rfl, rfl, rfl⟩
  refine this (if expires peered l || releases peered l then dropped l else l) ?_
  split_ifs
  exacts [.inr rfl, .inl rfl]

lemma releases_of_expires {peered : Bool} {l : Lease} (h : expires peered l = true) :
    releases peered l = false := by
  cases peered <;> simp [expires, releases] at h ⊢ <;> grind

lemma makeBindingStateTransition_eq : ∃ cls, s.makeBindingStateTransition i =
      (s.modify i (transition (s.peered i) s.peer)).setCls cls := by
  obtain ⟨cls, h⟩ := s.dropClient_eq i
  unfold makeBindingStateTransition
  by_cases he : expires (s.peered i) (s.lease i) = true
  · refine ⟨cls, ?_⟩
    simp [he, releases_of_expires he, h, setCls, modify, setLease, transition, dropped]
  by_cases hr : releases (s.peered i) (s.lease i) = true
  · refine ⟨cls, ?_⟩
    simp [he, hr, h, setCls, modify, setLease, transition, dropped]
  · refine ⟨s.cls, ?_⟩
    simp [he, hr, setCls, modify, setLease, transition]

def movedOn (peered : Bool) (p : Peer ι) (flags : Option Flags) (trans : Bool) (l : Lease) :
    Lease :=
  let l := flags.elim l fun flags => { l with flags := l.flags.supersede flags }
  if trans then transition peered p l else l

lemma movedOn_keeps (peered : Bool) (p : Peer ι) (flags : Option Flags) (trans : Bool) (l : Lease) :
    let t := movedOn peered p flags trans l
    t.pool = l.pool ∧ t.ends = l.ends ∧ t.cltt = l.cltt ∧ t.uid = l.uid ∧
      t.hardwareAddr = l.hardwareAddr := by
  obtain ⟨h1, h2, h3, h4, h5, -⟩ := transition_keeps peered p
    (flags.elim l fun flags => { l with flags := l.flags.supersede flags })
  cases flags <;> cases trans
  exacts [⟨rfl, rfl, rfl, rfl, rfl⟩, ⟨h1, h2, h3, h4, h5⟩, ⟨rfl, rfl, rfl, rfl, rfl⟩,
    ⟨h1, h2, h3, h4, h5⟩]

lemma movedOn_bindingState (peered : Bool) (p : Peer ι) (flags : Option Flags) (l : Lease) :
    (movedOn peered p flags true l).bindingState = l.nextBindingState := by
  cases flags <;> rfl

lemma moveOn_eq (flags : Option Flags) (trans : Bool) :
    ∃ cls, s.moveOn comp flags trans =
      (s.modify comp (movedOn (s.peered comp) s.peer flags trans)).setCls cls := by
  unfold moveOn
  extract_lets t
  have ht : t = s.modify comp
      fun l => flags.elim l fun flags => { l with flags := l.flags.supersede flags } := by
    cases flags with
    | none => exact (s.modify_id comp).symm
    | some flags => rfl
  have hp : t.peered comp = s.peered comp := by
    cases flags <;> simp [ht, peered, modify, setLease]
  obtain ⟨cls, h⟩ := t.makeBindingStateTransition_eq comp
  by_cases htr : trans = true
  · refine ⟨cls, ?_⟩
    rw [if_pos htr, h, hp, ht, modify_modify]
    simp [movedOn, htr, modify, setLease]
  · refine ⟨s.cls, ?_⟩
    rw [if_neg htr, ht]
    simp [movedOn, htr, setCls, modify, setLease]

/-! ### The sample lease -/

/-- The data of the lease, billed to `b`, after the sample lease is copied. -/
def sampled (lease : Lease) (b : Option ℕ) (l : Lease) : Lease :=
  copyTimes (copyClient { l with billingClass := b } lease) lease

def setTables (cls : ℕ → Class ι) (uids hws : Ids ι) : Db ι :=
  { s with cls := cls, uids := uids, hws := hws }

end

section Chains

variable [Fintype ι]

lemma leaveChains_eq (s : Db ι) (i : ι) : ∃ uids hws u, s.leaveChains i =
      (s.modify i fun l => { l with uid := u }).setTables s.cls uids hws := by
  unfold leaveChains
  extract_lets t
  obtain ⟨uids, u, ht⟩ : ∃ uids u,
      t = (s.modify i fun l => { l with uid := u }).setTables s.cls uids s.hws := by
    by_cases h : (s.lease i).uid.isSome
    · exact ⟨_, none, by simp [t, if_pos h]; rfl⟩
    · exact ⟨s.uids, (s.lease i).uid, by simp [t, h, modify, setLease, setTables]⟩
  unfold hwHashDelete
  split_ifs
  · exact ⟨uids, _, u, ht⟩
  · exact ⟨uids, _, u, by rw [ht]; rfl⟩
  · exact ⟨uids, _, u, ht⟩

lemma enterChains_eq (s : Db ι) (i : ι) :
    ∃ uids hws, s.enterChains i = s.setTables s.cls uids hws := by
  unfold enterChains uidHashAdd hwHashAdd
  extract_lets t
  obtain ⟨uids, ht⟩ : ∃ uids, t = s.setTables s.cls uids s.hws := by
    simp only [t]
    split_ifs
    exacts [⟨_, rfl⟩, ⟨_, rfl⟩]
  split_ifs
  · exact ⟨uids, _, ht⟩
  · exact ⟨uids, _, by rw [ht]; rfl⟩
  · exact ⟨uids, _, ht⟩

lemma copySample_eq (s : Db ι) (comp : ι) (lease : Lease) :
    ∃ cls uids hws b, s.copySample comp lease =
      (s.modify comp (sampled lease b)).setTables cls uids hws := by
  obtain ⟨uids, hws, u, h1⟩ := s.leaveChains_eq comp
  obtain ⟨cls, b, h2⟩ := (s.leaveChains comp).copyBilling_eq comp lease
  obtain ⟨uids', hws', h3⟩ :=
    (((s.leaveChains comp).copyBilling comp lease).modify comp
      (copyClient · lease)).enterChains_eq comp
  refine ⟨cls, uids', hws', b, ?_⟩
  rw [copySample]
  simp only [h3]
  rw [h2, h1]
  simp [rebill, setCls, setTables, modify, setLease, sampled, copyClient]

end Chains

/-! ### The record of the move -/

@[simp] lemma strip_setPoolTimeout (s : Db ι) (comp : ι) (p : ℕ) :
    (s.setPoolTimeout comp p).strip = s.strip := by
  unfold setPoolTimeout
  extract_lets t
  split_ifs <;> simp

variable [Fintype ι]

/-- `P` allows for what is recorded once the lease is on its new queue. -/
structure RecordInvariant (P : Db ι → Prop) : Prop where
  schedulePool : ∀ {s} p t, P s → P (s.schedulePool p t)
  modify : ∀ {s} i (rewind desired : Lease → BindingState), P s → P (s.modify i fun l =>
    { l with rewindBindingState := rewind l, desiredBindingState := desired l })
  writeLease : ∀ {s} i, P s → P (s.writeLease i).2
  commitLeases : ∀ {s}, P s → P s.commitLeases.2
  queueUpdate : ∀ {s} i immediate, P s → P (s.dhcpFailoverQueueUpdate i immediate)

namespace RecordInvariant

variable {P : Db ι → Prop} (hP : RecordInvariant P) {s : Db ι}
include hP

lemma commitLease (h : P s) (comp : ι) (propogate : Bool) : P (s.commitLease comp propogate).2 := by
  unfold Db.commitLease
  extract_lets t
  have ht : P t := by
    simp only [t]
    split_ifs
    exacts [hP.modify comp _ _ h, h]
  have hw := hP.writeLease comp ht
  generalize t.writeLease comp = r at hw ⊢
  rcases r with ⟨_ | _, u⟩
  · exact hw
  · dsimp only
    split_ifs
    exacts [hw, hP.commitLeases hw]

lemma recordMove (comp : ι) (p : ℕ) (commit propogate pimmediate : Bool) (h : P s) :
    P (s.recordMove comp p commit propogate pimmediate).2 := by
  unfold Db.recordMove
  extract_lets t
  have ht : P t := by
    simp only [t, setPoolTimeout]
    split_ifs
    exacts [hP.schedulePool _ _ h, h, h]
  have hc : P (if commit = true then t.commitLease comp propogate else (true, t)).2 := by
    split_ifs
    exacts [hP.commitLease ht comp propogate, ht]
  generalize (if commit = true then t.commitLease comp propogate else (true, t)) = r at hc ⊢
  rcases r with ⟨_ | _, u⟩
  · exact hc
  · split_ifs
    exacts [hP.queueUpdate comp pimmediate (hP.modify comp _ _ hc), hc]

end RecordInvariant

lemma LinkInvariant.record {P : Db ι → Prop} (hP : LinkInvariant P)
    (schedulePool : ∀ {s} p t, P s → P (s.schedulePool p t)) : RecordInvariant P where
  schedulePool := schedulePool
  modify i _ _ h := hP.modify i h fun _ => ⟨rfl, rfl, rfl⟩
  writeLease := hP.writeLease
  commitLeases := hP.commitLeases
  queueUpdate i immediate h := hP.queueUpdate h i immediate

@[simp] lemma strip_recordMove (s : Db ι) (comp : ι) (p : ℕ) (commit propogate pimmediate : Bool) :
    (s.recordMove comp p commit propogate pimmediate).2.strip = s.strip :=
  (s.strip_linkInvariant.record fun _ _ h => (strip_schedulePool ..).trans h).recordMove comp p
    commit propogate pimmediate rfl

end Db

end IscDhcp
