import IscDhcp.Failover.Bind
import IscDhcp.Mdb.Invariant

/-!
The course of an update of the peer, step by step, and invariants of the handling of an
acknowledgement.

An acknowledgement sets `tsfp` and `atsfp` of its lease and then works without the message: it
completes the state change of the lease, takes the lease from the queue and sends what is left to
send. `AckInvariant` lists what has to be shown of that second part.
-/

namespace IscDhcp

open Option

variable {ι : Type} [DecidableEq ι]

/-- The client's data of the update, and whether the client is another one. -/
def clientOf (msg : BndMsg ι) (lease : Lease) : Except Reject (Lease × Bool) := do
  let (lt, chaddrChanged) ← installChaddr msg (Db.leaseCopy lease)
  let (lt, identChanged) ← installIdent msg lt
  return (lt, chaddrChanged || identChanged)

/-- The state a lease is to go to when the peer tells of `new`. -/
def stateToInstall (new : BindingState) : BindingState :=
  if new = .expired ∨ new = .released ∨ new = .reset then .free else new

namespace Db

variable {s t u : Db ι} {i : ι} {msg : BndMsg ι}

/-! ### The course of an update -/

/-- The scope of another client is not kept. -/
def dropScope (s : Db ι) (i : ι) (msg : BndMsg ι) (changed : Bool) : Db ι :=
  if msg.bindingStatus = .active ∧ changed then s.modify i fun l => { l with scope := none } else s

/-- The sample lease with its flags, unless they or the transition are refused; `none` is a fatal
error. -/
def sampleOf (s : Db ι) (i : ι) (msg : BndMsg ι) (lt : Lease) : Option (Except Reject Lease) :=
  match installFlags msg (s.mine (s.lease i)) (s.lease i) (installTimes msg lt) with
  | .error r => some (.error r)
  | .ok lt => do
    let new ← s.checkTransition (s.lease i) msg
    if new ≠ msg.bindingStatus then
      return .error ⟨ftrFatalConflict, s.piaddr i ++ ": invalid state transition: " ++
        bindingStatePrint (s.lease i).bindingState ++ " to " ++
        bindingStatePrint msg.bindingStatus⟩
    else return .ok lt

lemma dropScope_lease (s : Db ι) (i : ι) (msg : BndMsg ι) (changed : Bool) :
    (s.dropScope i msg changed).lease i =
      { s.lease i with
        scope := if msg.bindingStatus = .active ∧ changed then none else (s.lease i).scope } := by
  unfold dropScope
  split_ifs
  · rw [modify_lease_self]
  · rfl

variable [Fintype ι]

def install (s : Db ι) (i : ι) (lt : Lease) (new : BindingState) : Option (Bool × Db ι) := do
  let next := stateToInstall new
  let (ok, s) ← (s.modify i fun l => { l with rewindBindingState := next }).supersedeLease i
    (some { lt with nextBindingState := next }) false false false
  return if ok then s.writeLease i else (false, s)

/-- The update is considered: it has what it needs, and does not lose against that of the lease. -/
def Considers (s : Db ι) (msg : BndMsg ι) (i : ι) : Prop :=
  (msg.has ftbAssignedIpAddress && msg.has ftbBindingStatus) = true ∧ msg.assignedAddr = some i ∧
    s.peered i = true ∧
    ((s.lease i).flags.onAckQueue = true → s.failoverLeaseIsBetter (s.lease i) msg = some false)

lemma processBindUpdate_cases (ht : s.dhcpFailoverProcessBindUpdate msg = some t) :
    (∃ r, t = s.reject msg r ∧ ∀ i, ¬ s.Considers msg i) ∨
      ∃ i, s.Considers msg i ∧ (s.dhcpFailoverAckQueueRemove i).installUpdate i msg = some t := by
  unfold dhcpFailoverProcessBindUpdate at ht
  by_cases ho : (msg.has ftbAssignedIpAddress && msg.has ftbBindingStatus) = true
  · rw [if_pos ho] at ht
    cases hi : msg.assignedAddr with
    | none =>
      rw [hi] at ht
      refine .inl ⟨_, (some.inj ht).symm, fun i hc => ?_⟩
      exact absurd (hi.symm.trans hc.2.1) (by simp)
    | some i =>
      rw [hi] at ht
      dsimp only at ht
      have only {j : ι} (hc : s.Considers msg j) : j = i := some.inj (hc.2.1.symm.trans hi)
      split_ifs at ht with hp hq
      · obtain ⟨better, hb, ht⟩ := bind_eq_some_iff.mp ht
        cases better with
        | true =>
          refine .inl ⟨_, (some.inj ht).symm, fun j hc => ?_⟩
          obtain rfl := only hc
          exact absurd (hb.symm.trans (hc.2.2.2 hq)) (by simp)
        | false => exact .inr ⟨i, ⟨ho, hi, hp, fun _ => hb⟩, ht⟩
      · refine .inr ⟨i, ⟨ho, hi, hp, fun h => absurd h hq⟩, ?_⟩
        rw [dhcpFailoverAckQueueRemove, if_neg hq]
        exact ht
      · refine .inl ⟨_, (some.inj ht).symm, fun j hc => ?_⟩
        obtain rfl := only hc
        exact hp hc.2.2.1
  · rw [if_neg ho] at ht
    exact .inl ⟨_, (some.inj ht).symm, fun i hc => ho hc.1⟩

lemma installUpdate_cases (ht : s.installUpdate i msg = some t) :
    (∃ r, clientOf msg (s.lease i) = .error r ∧ t = s.reject msg r) ∨
      ∃ lt changed, clientOf msg (s.lease i) = .ok (lt, changed) ∧
        ((∃ r, (s.dropScope i msg changed).sampleOf i msg lt = some (.error r) ∧
            t = (s.dropScope i msg changed).reject msg r) ∨
          ∃ lt', (s.dropScope i msg changed).sampleOf i msg lt = some (.ok lt') ∧
            (s.dropScope i msg changed).acceptUpdate i lt' msg.bindingStatus msg = some t) := by
  unfold installUpdate at ht
  extract_lets client at ht
  have hclient : client = clientOf msg (s.lease i) := rfl
  rw [← hclient]
  rcases client with r | ⟨lt, changed⟩
  · exact .inl ⟨r, rfl, (some.inj ht).symm⟩
  refine .inr ⟨lt, changed, rfl, ?_⟩
  dsimp -zeta only at ht
  extract_lets v at ht
  rw [show s.dropScope i msg changed = v from rfl]
  unfold sampleOf
  generalize installFlags msg (v.mine (v.lease i)) (v.lease i) (installTimes msg lt) = f at ht ⊢
  rcases f with r | lt'
  · exact .inl ⟨r, rfl, (some.inj ht).symm⟩
  obtain ⟨new, hnew, ht⟩ := bind_eq_some_iff.mp ht
  simp only [hnew, bind_eq_bind, bind_some]
  by_cases hn : new = msg.bindingStatus
  · subst hn
    rw [if_neg (not_not.mpr rfl)] at ht ⊢
    exact .inr ⟨lt', rfl, ht⟩
  · rw [if_pos hn] at ht ⊢
    exact .inl ⟨_, rfl, (some.inj ht).symm⟩

lemma acceptUpdate_cases {lt : Lease} {new : BindingState}
    (ht : s.acceptUpdate i lt new msg = some t) :
    ∃ ok v msg', s.install i lt new = some (ok, v) ∧
      ((ok = false ∧ ∃ r, t = v.reject msg' r) ∨ t = v.dhcpFailoverQueueAck msg' ∨
        ∃ u, (v.dhcpFailoverQueueAck msg').sendToBackup i = some u ∧
          t = u.dhcpFailoverSendUpdates.2) := by
  unfold acceptUpdate at ht
  extract_lets ended next lt' wanted msg' v at ht
  have hnext : next = stateToInstall new := by simp [next, ended, stateToInstall]
  obtain ⟨⟨ok, w⟩, hw, ht⟩ := bind_eq_some_iff.mp ht
  refine ⟨(if ok = true then w.writeLease i else (false, w)).1,
    (if ok = true then w.writeLease i else (false, w)).2, msg', ?_, ?_⟩
  · unfold install
    simp only [← hnext, bind_eq_bind, bind_eq_some_iff]
    exact ⟨(ok, w), hw, rfl⟩
  dsimp only at ht
  generalize (if ok = true then w.writeLease i else (false, w)) = r at ht ⊢
  rcases r with ⟨_ | _, x⟩
  · exact .inl ⟨rfl, _, (some.inj ht).symm⟩
  rw [if_pos rfl] at ht
  split_ifs at ht
  · obtain ⟨y, hy, ht⟩ := bind_eq_some_iff.mp ht
    exact .inr (.inr ⟨y, hy, (some.inj ht).symm⟩)
  · exact .inr (.inl (some.inj ht).symm)

/-! ### The course of an acknowledgement -/

def potExpire (s : Db ι) (i : ι) (msg : BndMsg ι) : Time :=
  if msg.has ftoPotentialExpiry then msg.potentialExpiry else (s.lease i).tstp

def withTimes (t : Time) (l : Lease) : Lease := { l with atsfp := t, tsfp := t }

def settle (s : Db ι) (i : ι) : Option (Bool × Db ι) := do
  let desired := (s.lease i).desiredBindingState
  if desired = .expired ∨ desired = .reset ∨ desired = .released then
    let next : BindingState :=
      if s.peer.iAm = .secondary ∧ (s.lease i).flags.reserved then .backup else .free
    let s := s.modify i fun l =>
      { l with nextBindingState := next, desiredBindingState := next, rewindBindingState := next }
    let (_, s) ← s.supersedeLease i none false false false
    let s := (s.writeLease i).2
    let l := s.lease i
    let wanted := s.peer.iAm = .primary && !(l.flags.reserved || l.flags.bootp) &&
      s.peerWantsLease l
    return (wanted, if !wanted && s.peer.meState = .normal then s.commitLeases.2 else s)
  else
    let s ← s.moveToDesired i desired
    return (false, (s.writeLease i).2)

lemma acknowledge_eq (s : Db ι) (i : ι) (msg : BndMsg ι) :
    s.acknowledge i msg = (s.modify i (withTimes (s.potExpire i msg))).settle i := by
  unfold acknowledge settle
  simp only [modify_modify, modify_lease_self]
  rfl

/-- No change of a lease's state on the word of the peer breaks `P`. -/
structure SettleInvariant (P : Db ι → Prop) : Prop where
  move : MoveInvariant P
  modify : ∀ {s f} i, P s →
    (hf : ∀ l, (f l).tsfp = l.tsfp ∧ (f l).atsfp = l.atsfp ∧ (f l).flags = l.flags := by
      exact fun _ => ⟨rfl, rfl, rfl⟩) → P (s.modify i f)
  writeLease : ∀ {s} i, P s → P (s.writeLease i).2
  commitLeases : ∀ {s}, P s → P s.commitLeases.2

namespace SettleInvariant

variable {P : Db ι → Prop} (hP : SettleInvariant P) {s t : Db ι} {i : ι}
include hP

lemma supersedeLease (h : P s) {commit propogate pimmediate : Bool} {r : Bool × Db ι}
    (ht : s.supersedeLease i none commit propogate pimmediate = some r) : P r.2 := by
  have hs : P ((none : Option Lease).elim s (s.copySample i)) := h
  rcases hP.move.supersedeLease hs ht with hr | hr
  exacts [hr ▸ h, hr]

lemma sendToBackup (h : P s) (ht : s.sendToBackup i = some t) : P t := by
  simp only [Db.sendToBackup, bind_eq_bind, bind_eq_some_iff] at ht
  obtain ⟨⟨ok, u⟩, hu, ht⟩ := ht
  cases ht
  have hw := hP.supersedeLease (hP.modify i h) hu
  split_ifs
  exacts [hP.writeLease i hw, hw]

lemma moveToDesired (h : P s) {desired : BindingState}
    (ht : s.moveToDesired i desired = some t) : P t := by
  unfold Db.moveToDesired at ht
  split_ifs at ht
  · obtain ⟨r, hr, rfl⟩ := map_eq_some_iff.mp ht
    exact hP.supersedeLease (hP.modify i h) hr
  · exact some.inj ht ▸ h

lemma settle (h : P s) {r : Bool × Db ι} (ht : s.settle i = some r) : P r.2 := by
  unfold Db.settle at ht
  extract_lets desired next v at ht
  have hv : P v := hP.modify i h
  split_ifs at ht
  · obtain ⟨⟨ok, u⟩, hu, ht⟩ := bind_eq_some_iff.mp ht
    cases ht
    have hw := hP.writeLease i (hP.supersedeLease hv hu)
    split_ifs
    exacts [hP.commitLeases hw, hw]
  · obtain ⟨u, hu, ht⟩ := bind_eq_some_iff.mp ht
    cases ht
    exact hP.writeLease i (hP.moveToDesired h hu)

lemma returnToBackup (h : P s) {wanted : Bool} (ht : s.returnToBackup i wanted = some t) : P t := by
  unfold Db.returnToBackup at ht
  split_ifs at ht
  · obtain ⟨x, hx, rfl⟩ := map_eq_some_iff.mp ht
    have hb := hP.sendToBackup h hx
    split_ifs
    exacts [hP.commitLeases hb, hb]
  · exact some.inj ht ▸ h

end SettleInvariant

/-- No part of the handling of an acknowledgement breaks `P` once the times are set. -/
structure AckInvariant (P : Db ι → Prop) : Prop where
  link : LinkInvariant P
  frame : ∀ {s t}, P s → (hl : t.lease = s.lease := by rfl) → (hp : t.peer = s.peer := by rfl) → P t
  modify : ∀ {s f} i, P s →
    (hf : ∀ l, (f l).tsfp = l.tsfp ∧ (f l).atsfp = l.atsfp := by exact fun _ => ⟨rfl, rfl⟩) →
    P (s.modify i f)
  clearAtsfp : ∀ {s} i, P s → P (s.modify i fun l => { l with atsfp := 0 })
  movedOn : ∀ {s} i flags trans, P s → P (s.modify i (movedOn (s.peered i) s.peer flags trans))

namespace AckInvariant

variable {P : Db ι → Prop} (hP : AckInvariant P) {s t : Db ι} {i : ι}
include hP

lemma move : MoveInvariant P := by
  have hm : MoveFrame P := ⟨fun _ _ h => hP.frame h, fun _ _ h => hP.frame h,
    fun _ h => hP.frame h, hP.clearAtsfp, fun i _ _ h => hP.modify i h⟩
  refine hm.moveInvariant (fun {s} comp flags trans h => ?_)
    (hP.link.record hm.schedulePool).recordMove
  obtain ⟨cls, hs⟩ := s.moveOn_eq comp flags trans
  rw [hs]
  exact hP.frame (hP.movedOn comp flags trans h)

lemma settles : SettleInvariant P :=
  ⟨hP.move, fun i h hf => hP.modify i h fun l => ⟨(hf l).1, (hf l).2.1⟩, hP.link.writeLease,
    hP.link.commitLeases⟩

lemma sendUpdateDone (h : P s) : P s.dhcpFailoverSendUpdateDone := by
  unfold dhcpFailoverSendUpdateDone
  split_ifs
  · have hx {v : Db ι} (hv : P v) (f : Peer ι → ℕ) :
        P (v.modifyPeer fun p => { p with updxid := f p }) := hP.link.queues _ _ hv
    exact hP.link.commitLeases (hx (hP.link.putMessage h _) _)
  · exact h

lemma unqueue (h : P s) {wanted : Bool} (ht : s.unqueue i wanted = some t) : P t := by
  have hr := hP.link.ackQueueRemove h i
  simp only [Db.unqueue, bind_eq_bind, bind_eq_some_iff] at ht
  obtain ⟨u, hu, ht⟩ := ht
  cases ht
  refine hP.link.sendUpdates (hP.settles.returnToBackup ?_ hu)
  split_ifs
  · exact hP.sendUpdateDone (hP.link.queues _ _ hr)
  · exact hr

end AckInvariant

end Db

end IscDhcp
