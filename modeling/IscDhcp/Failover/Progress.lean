import IscDhcp.Failover.Bind
import IscDhcp.Mdb.QueueRun

/-!
Messages from the peer keep every lease on its queue, and are fatal only if they are about a
state that does not exist.
-/

namespace IscDhcp

open Option

variable {ι : Type} [DecidableEq ι]

/-! ### The checks -/

lemma Db.checkTransition_isSome (s : Db ι) {lease : Lease} {msg : BndMsg ι}
    (hl : lease.bindingState.isValid = true) (hm : msg.bindingStatus.isValid = true) :
    ∃ new, s.checkTransition lease msg = some new := by
  unfold checkTransition normalBindingStateTransitionCheck conflictBindingStateTransitionCheck
  generalize lease.bindingState = old at hl ⊢
  generalize msg.bindingStatus = new at hm ⊢
  rw [← isSome_iff_exists]
  cases old with
  | bogus => cases hl
  | _ =>
    cases new with
    | bogus => cases hm
    | _ => simp <;> split_ifs <;> rfl

lemma Db.failoverLeaseIsBetter_isSome (s : Db ι) {lease : Lease} (msg : BndMsg ι)
    (hl : lease.desiredBindingState.isValid = true) :
    ∃ b, s.failoverLeaseIsBetter lease msg = some b := by
  have hd : (if lease.bindingState ≠ lease.desiredBindingState then lease.desiredBindingState
      else lease.bindingState) = lease.desiredBindingState := by
    split_ifs with h
    · rfl
    · exact not_not.mp h
  unfold failoverLeaseIsBetter
  simp only [hd]
  rw [← isSome_iff_exists]
  generalize lease.desiredBindingState = d at hl ⊢
  cases d with
  | bogus => cases hl
  | _ => dsimp only; split_ifs <;> rfl

namespace Db

variable {s t : Db ι}

section

variable (h : Running s)

include h

lemma Running.of_strip (he : t.strip = s.strip) : Running t :=
  ⟨h.queued.of_strip he, (Db.eq_of_strip he Db.ssQfollow).trans h.ssQfollow⟩

variable [Fintype ι]

/-- The call returns, and every lease is on its queue again. -/
def Returns (r : Option (Db ι)) : Prop := ∃ t, r = some t ∧ Running t

lemma Running.supersedeLease (comp : ι) (lease : Option Lease)
    (commit propogate pimmediate : Bool) :
    ∃ ok t, s.supersedeLease comp lease commit propogate pimmediate = some (ok, t) ∧ Running t := by
  obtain ⟨ok, t, ht, hk⟩ := supersedeLease_keeps h comp lease commit propogate pimmediate
  exact ⟨ok, t, ht, hk.1⟩

/-! ### Updates -/

omit h in
lemma strip_reject (s : Db ι) (msg : BndMsg ι) (r : Reject) : (s.reject msg r).strip = s.strip :=
  s.strip_sendBindAck msg r.reason r.message

lemma Running.reject (msg : BndMsg ι) (r : Reject) :
    Returns (some (s.reject msg r)) := ⟨_, rfl, h.of_strip (s.strip_reject msg r)⟩

lemma Running.sendToBackup (i : ι) : Returns (s.sendToBackup i) := by
  have hm : Running (s.modify i fun l =>
      { l with nextBindingState := .backup, tstp := s.curTime, starts := s.curTime }) :=
    h.modify fun _ => ⟨rfl, rfl⟩
  obtain ⟨ok, t, ht, hr⟩ := hm.supersedeLease i none false true false
  refine ⟨if ok then (t.writeLease i).2 else t, by simp [Db.sendToBackup, ht], ?_⟩
  split_ifs
  · exact hr.of_strip (t.strip_writeLease i)
  · exact hr

lemma Running.acceptUpdate (i : ι) (lt : Lease) (new : BindingState)
    (msg : BndMsg ι) : Returns (s.acceptUpdate i lt new msg) := by
  unfold Db.acceptUpdate
  extract_lets ended next lt' wanted msg' v
  have hv : Running v := h.modify fun _ => ⟨rfl, rfl⟩
  obtain ⟨ok, w, hw, hr⟩ := hv.supersedeLease i (some lt') false false false
  simp only [hw, bind_eq_bind, bind_some]
  have hwr : Running (if ok = true then w.writeLease i else (false, w)).2 := by
    split_ifs
    · exact hr.of_strip (w.strip_writeLease i)
    · exact hr
  generalize (if ok = true then w.writeLease i else (false, w)) = r at hwr ⊢
  rcases r with ⟨_ | _, x⟩
  · exact hwr.reject msg' _
  · have hx : Running (x.dhcpFailoverQueueAck msg') := hwr.of_strip (x.strip_queueAck msg')
    simp only [if_true]
    split_ifs
    · obtain ⟨y, hy, hry⟩ := hx.sendToBackup i
      exact ⟨_, by rw [hy]; rfl, hry.of_strip y.strip_sendUpdates⟩
    · exact ⟨_, rfl, hx⟩

lemma Running.installUpdate {i : ι} {msg : BndMsg ι}
    (hl : (s.lease i).bindingState.isValid = true) (hm : msg.bindingStatus.isValid = true) :
    Returns (s.installUpdate i msg) := by
  unfold Db.installUpdate
  extract_lets client
  rcases client with r | ⟨lt, changed⟩
  · exact h.reject msg r
  · dsimp -zeta only
    extract_lets v
    have hv : Running v ∧ (v.lease i).bindingState = (s.lease i).bindingState := by
      simp only [v]
      split_ifs
      · exact ⟨h.modify fun _ => ⟨rfl, rfl⟩, by simp⟩
      · exact ⟨h, rfl⟩
    generalize installFlags msg (v.mine (v.lease i)) (v.lease i) (installTimes msg lt) = r
    rcases r with r | lt'
    · exact hv.1.reject msg r
    · obtain ⟨new, hnew⟩ := v.checkTransition_isSome (hv.2 ▸ hl) hm
      simp only [hnew, bind_eq_bind, bind_some]
      split_ifs
      · exact hv.1.reject msg _
      · exact hv.1.acceptUpdate i lt' new msg

/-- The states that an update is about exist. -/
def StatesExist (s : Db ι) (msg : BndMsg ι) : Prop :=
  msg.bindingStatus.isValid = true ∧ ∀ i ∈ msg.assignedAddr,
    (s.lease i).bindingState.isValid = true ∧ (s.lease i).desiredBindingState.isValid = true

lemma Running.processBindUpdate {msg : BndMsg ι} (hm : s.StatesExist msg) :
    Returns (s.dhcpFailoverProcessBindUpdate msg) := by
  unfold dhcpFailoverProcessBindUpdate
  split_ifs
  · cases hi : msg.assignedAddr with
    | none => exact h.reject msg _
    | some i =>
      obtain ⟨hl, hd⟩ := hm.2 i hi
      dsimp only
      split_ifs
      · obtain ⟨b, hb⟩ := s.failoverLeaseIsBetter_isSome msg hd
        have hr := s.strip_ackQueueRemove i
        simp only [hb, bind_eq_bind, bind_some]
        split_ifs
        · exact h.reject msg _
        · refine (h.of_strip hr).installUpdate ?_ hm.1
          rw [Db.eq_of_strip hr (fun s => (s.lease i).bindingState)]
          exact hl
      · exact h.installUpdate hl hm.1
      · exact h.reject msg _
  · exact h.reject msg _

/-! ### Acknowledgements -/

omit h in
lemma strip_sendUpdateDone (s : Db ι) : s.dhcpFailoverSendUpdateDone.strip = s.strip := by
  have (v : Db ι) (f : Peer ι → ℕ) :
      (v.modifyPeer fun p => { p with updxid := f p }).strip = v.strip := rfl
  unfold dhcpFailoverSendUpdateDone
  split_ifs
  · simp [this]
  · rfl

lemma Running.moveToDesired (i : ι) (desired : BindingState) :
    Returns (s.moveToDesired i desired) := by
  unfold Db.moveToDesired
  split_ifs
  · have hm : Running (s.modify i fun l => { l with nextBindingState := desired }) :=
      h.modify fun _ => ⟨rfl, rfl⟩
    obtain ⟨ok, t, ht, hr⟩ := hm.supersedeLease i none false false false
    exact ⟨t, by rw [ht]; rfl, hr⟩
  · exact ⟨s, rfl, h⟩

lemma Running.acknowledge (i : ι) (msg : BndMsg ι) :
    ∃ wanted t, s.acknowledge i msg = some (wanted, t) ∧ Running t := by
  unfold Db.acknowledge
  extract_lets desired potExpire next v v'
  split_ifs
  · have hv : Running v := h.modify fun _ => ⟨rfl, rfl⟩
    obtain ⟨ok, w, hw, hr⟩ := hv.supersedeLease i none false false false
    have hwr : Running (w.writeLease i).2 := hr.of_strip (w.strip_writeLease i)
    simp only [hw]
    refine ⟨_, _, rfl, ?_⟩
    split_ifs
    · exact hwr.of_strip (strip_commitLeases _)
    · exact hwr
  · have hv' : Running v' := h.modify fun _ => ⟨rfl, rfl⟩
    obtain ⟨w, hw, hr⟩ := hv'.moveToDesired i desired
    simp only [hw]
    exact ⟨_, _, rfl, hr.of_strip (w.strip_writeLease i)⟩

lemma Running.returnToBackup (i : ι) (wanted : Bool) : Returns (s.returnToBackup i wanted) := by
  unfold Db.returnToBackup
  split_ifs
  · obtain ⟨v, hv, hr⟩ := h.sendToBackup i
    refine ⟨_, by rw [hv]; rfl, ?_⟩
    dsimp only
    split_ifs
    · exact hr.of_strip v.strip_commitLeases
    · exact hr
  · exact ⟨s, rfl, h⟩

lemma Running.unqueue (i : ι) (wanted : Bool) : Returns (s.unqueue i wanted) := by
  unfold Db.unqueue
  extract_lets v w
  have hv : Running v := h.of_strip (s.strip_ackQueueRemove i)
  have hw : Running w := by
    simp only [w]
    split_ifs
    · exact hv.of_strip (strip_sendUpdateDone _)
    · exact hv
  obtain ⟨x, hx, hr⟩ := hw.returnToBackup i wanted
  simp only [hx]
  exact ⟨_, rfl, hr.of_strip x.strip_sendUpdates⟩

lemma Running.processBindAck (msg : BndMsg ι) : Returns (s.dhcpFailoverProcessBindAck msg) := by
  unfold dhcpFailoverProcessBindAck
  cases msg.assignedAddr with
  | none => exact ⟨s, rfl, h⟩
  | some i =>
    dsimp only
    split_ifs
    · exact h.unqueue i false
    · exact ⟨s, rfl, h⟩
    · obtain ⟨wanted, t, ht, hr⟩ := h.acknowledge i msg
      simp only [ht]
      exact hr.unqueue i wanted

end

end Db

end IscDhcp
