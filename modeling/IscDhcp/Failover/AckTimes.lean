import IscDhcp.Failover.Tsfp

/-!
The times that an acknowledgement of the peer leaves in its lease.

The handler tests the number of the potential-expiry option where it means its bit. The number
stands for the bits of two other options, one of them the client identifier, so that the potential
expiry time of an acknowledgement without a client identifier is not looked at.
-/

namespace IscDhcp

variable {ι : Type} [DecidableEq ι]

namespace Db

variable {s t : Db ι} {i : ι} {v : Time}

/-- The lease keeps `tsfp` unless the server is in partner-down. -/
def KeepsTsfp (i : ι) (v : Time) (s : Db ι) : Prop :=
  s.peer.meState = .partnerDown ∨ (s.lease i).tsfp = v

/-- The lease keeps `atsfp` unless another update of it is to be sent. -/
def KeepsAtsfp (i : ι) (v : Time) (s : Db ι) : Prop :=
  (s.lease i).atsfp = v ∨ (s.lease i).atsfp = 0

lemma Upheld.keepsTsfp (h : Upheld (fun j x => j = i → x = v) s) : KeepsTsfp i v s :=
  (h i).elim (fun h => .inr (h rfl)) fun h => .inl h.1

lemma KeepsAtsfp.of_eq (h : KeepsAtsfp i v s) (ht : (t.lease i).atsfp = (s.lease i).atsfp) :
    KeepsAtsfp i v t := by
  unfold KeepsAtsfp
  rw [ht]
  exact h

lemma KeepsAtsfp.modify (h : KeepsAtsfp i v s) (j : ι) {f : Lease → Lease}
    (hf : ∀ l, (f l).atsfp = l.atsfp) : KeepsAtsfp i v (s.modify j f) :=
  h.of_eq (s.proj_modify j Lease.atsfp hf i)

lemma KeepsAtsfp.of_strip (h : KeepsAtsfp i v s) (ht : t.strip = s.strip) : KeepsAtsfp i v t :=
  h.of_eq (eq_of_strip ht fun s => (s.lease i).atsfp)

omit [DecidableEq ι] in
lemma atsfp_movedOn (peered : Bool) (p : Peer ι) (flags : Option Flags) (trans : Bool) (l : Lease) :
    (movedOn peered p flags trans l).atsfp = l.atsfp := by
  have ht (l : Lease) : (transition peered p l).atsfp = l.atsfp := by
    unfold transition
    split_ifs <;> rfl
  cases flags <;> cases trans
  exacts [rfl, ht l, rfl, ht _]

/-- The potential expiry time of the acknowledgement, or else the one of the update. -/
def reportedExpiry (msg upd : BndMsg ι) : Time :=
  if msg.has ftbPotentialExpiry then msg.potentialExpiry else upd.potentialExpiry

/-- The bits that are tested lead to the value that the bit of the option would lead to. -/
def TakesReported (s : Db ι) (i : ι) (msg upd : BndMsg ι) : Prop :=
  if msg.has ftbPotentialExpiry then
    msg.has ftoPotentialExpiry = true ∨ (s.lease i).tstp = msg.potentialExpiry
  else if msg.has ftoPotentialExpiry then msg.potentialExpiry = upd.potentialExpiry
  else (s.lease i).tstp = upd.potentialExpiry

omit [DecidableEq ι] in
lemma potExpire_eq_reportedExpiry {msg upd : BndMsg ι} :
    s.potExpire i msg = reportedExpiry msg upd ↔ s.TakesReported i msg upd := by
  unfold potExpire reportedExpiry TakesReported
  split_ifs with hf hb <;> simp [hf]

/-- Grows with each message, each record and each result that is used up. -/
def done (s : Db ι) : ℤ := s.peer.sent.length + s.log.length - s.io.length

lemma done_ask (s : Db ι) : s.done ≤ s.ask.2.done ∧ (s.ask.1 = false → s.done < s.ask.2.done) := by
  rw [ask_eq]
  cases h : s.io with
  | nil => simp [done]
  | cons b io =>
    simp only [done, h, List.tail_cons, List.length_cons]
    omega

lemma done_askAnd (s : Db ι) (e : Effect ι) : s.done < (s.askAnd e).2.done := by
  rw [askAnd_eq]
  cases h : s.io with
  | nil => simp [done, h]
  | cons b io => cases b <;> simp +arith [done, h]

variable [Fintype ι]

lemma keepsAtsfp_linkInvariant (i : ι) (v : Time) : LinkInvariant (KeepsAtsfp i v) where
  ask h := h.of_strip (strip_ask _)
  writeLease j h := h.of_strip (strip_writeLease _ j)
  commitLeases h := h.of_strip (strip_commitLeases _)
  modify j h hf := h.modify j fun l => Lease.eq_of_strip (hf l).1 Lease.atsfp
  queues _ _ h _ := h.of_eq rfl
  disconnect h := h.of_strip (strip_disconnect _)

lemma keepsAtsfp_ackInvariant (i : ι) (v : Time) : AckInvariant (KeepsAtsfp i v) where
  link := keepsAtsfp_linkInvariant i v
  frame h hl _ := h.of_eq (by rw [hl])
  modify j h hf := h.modify j fun l => (hf l).2
  clearAtsfp {s} j h := by
    by_cases hi : i = j
    · subst hi
      exact .inr (by rw [modify_lease_self])
    · exact h.of_eq (by rw [modify_lease_of_ne s hi])
  movedOn {s} j flags trans h := h.modify j (atsfp_movedOn _ _ flags trans)

/-! ### What is sent and written -/

lemma done_writeLease (s : Db ι) (i : ι) : s.done < (s.writeLease i).2.done := s.done_askAnd _

lemma done_commitLeases (s : Db ι) : s.done < s.commitLeases.2.done := s.done_askAnd _

lemma done_rescindUpdates (s : Db ι) : s.dhcpFailoverRescindUpdates.done = s.done :=
  s.rescindUpdates_rec (P := (done · = s.done)) rfl (fun _ _ h => h) fun _ _ _ h => h

lemma done_stateInvariant (s : Db ι) : StateInvariant fun t : Db ι => s.done ≤ t.done where
  ask h := h.trans (done_ask _).1
  commitLeases h := h.trans (done_commitLeases _).le
  states _ _ _ _ _ h := h
  rescind h := h.trans (done_rescindUpdates _).ge
  wait _ _ h := h
  schedulePool _ _ h := h

lemma done_disconnect (s : Db ι) : s.done ≤ s.disconnect.done :=
  s.done_stateInvariant.disconnect le_rfl

lemma done_putMessage (s : Db ι) (msg : OutMsg ι) : s.done <
    (s.dhcpFailoverPutMessage msg).2.done := by
  have ha := s.done_ask
  unfold dhcpFailoverPutMessage
  generalize s.ask = r at ha ⊢
  rcases r with ⟨_ | _, t⟩
  · exact (ha.2 rfl).trans_le t.done_disconnect
  · refine ha.1.trans_lt ?_
    simp [done, modifyPeer]

lemma done_ackQueueRemove (s : Db ι) (i : ι) : s.done ≤ (s.dhcpFailoverAckQueueRemove i).done := by
  unfold dhcpFailoverAckQueueRemove
  split_ifs
  · cases s.peer.ackQueue.remove (Fintype.card ι + 1) s.nextPending i with
    | none => exact le_rfl
    | some r =>
      dsimp -zeta only
      extract_lets _ t u
      have hu : s.done = u.done := rfl
      split_ifs
      exacts [hu.trans_le u.done_commitLeases.le, hu.le]
  · exact le_rfl

lemma done_sendUpdateDone (s : Db ι) : s.done ≤ s.dhcpFailoverSendUpdateDone.done ∧
    (s.peer.linkToPeer = true → s.done < s.dhcpFailoverSendUpdateDone.done) := by
  unfold dhcpFailoverSendUpdateDone
  split_ifs with hl
  · have hm := s.done_putMessage (.upddone s.peer.updxid)
    have hx (t : Db ι) (f : Peer ι → ℕ) :
        t.done < (t.modifyPeer fun p => { p with updxid := f p }).commitLeases.2.done :=
      done_commitLeases _
    exact ⟨(hm.trans (hx _ _)).le, fun _ => hm.trans (hx _ _)⟩
  · exact ⟨le_rfl, fun h => absurd h hl⟩

lemma done_sendBindUpdate (s : Db ι) (i : ι) (hl : s.peer.linkToPeer = true) :
    s.done < (s.dhcpFailoverSendBindUpdate i).2.done := by
  have hr (t : Db ι) : t.done ≤ (t.stepRewind i).done := by
    unfold stepRewind
    split_ifs
    · exact (done_writeLease (t.modify i _) i |>.trans (done_commitLeases _)).le
    · exact le_rfl
  have hx : s.done = (s.takeXid i).done := by
    rfl
  unfold dhcpFailoverSendBindUpdate
  rw [if_pos hl]
  exact (hx.trans_le (hr (s.takeXid i))).trans_lt (done_putMessage _ _)

lemma done_sendBindAck (s : Db ι) (msg : BndMsg ι) (reason : ℕ) (message : String) :
    s.done ≤ (s.dhcpFailoverSendBindAck msg reason message).2.done := by
  unfold dhcpFailoverSendBindAck
  by_cases hl : s.peer.linkToPeer
  · rw [if_pos hl]
    exact (s.done_putMessage _).le
  · rw [if_neg hl]

lemma done_sendAcks (s : Db ι) : s.done < s.dhcpFailoverSendAcks.done := by
  have hc := s.done_commitLeases
  unfold dhcpFailoverSendAcks
  generalize s.commitLeases = r at hc ⊢
  rcases r with ⟨_ | _, t⟩
  · exact hc
  · exact List.foldlRecOn (motive := (s.done < done ·)) _ _ hc fun _ h msg _ =>
      h.trans_le (done_sendBindAck _ msg 0 "")

lemma done_sendQueued (n : ℕ) (s : Db ι) : s.done ≤ (sendQueued n s).2.done := by
  induction n generalizing s with
  | zero => exact le_rfl
  | succ n ih =>
    unfold sendQueued
    split_ifs
    · cases s.peer.updateQueue.head with
      | none => exact le_rfl
      | some lp =>
        have hs : s.done ≤ (s.dhcpFailoverSendBindUpdate lp).2.done := by
          by_cases hl : s.peer.linkToPeer
          · exact (s.done_sendBindUpdate lp hl).le
          · simp [dhcpFailoverSendBindUpdate, hl]
        dsimp only
        generalize s.dhcpFailoverSendBindUpdate lp = r at hs ⊢
        rcases r with ⟨_ | _, t⟩
        · exact hs
        · exact hs.trans (ih (t.moveToAckQueue lp))
    · exact le_rfl

def CanSend (s : Db ι) : Prop :=
  s.peer.linkToPeer = true ∧ (s.peer.toackQueue ≠ [] ∨
    s.peer.maxFlyingUpdates > s.peer.curUnackedUpdates ∧ s.peer.updateQueue.head ≠ none)

lemma sendUpdates_of_not_canSend (h : ¬ s.CanSend) : s.dhcpFailoverSendUpdates.2 = s := by
  unfold dhcpFailoverSendUpdates
  split_ifs with hl ha
  · have hq : ¬ (s.peer.maxFlyingUpdates > s.peer.curUnackedUpdates ∧
        s.peer.updateQueue.head ≠ none) := fun hq => h ⟨hl, .inr hq⟩
    simp only [not_and, not_not] at hq
    unfold sendQueued
    dsimp only
    split_ifs with hm
    · rw [hq hm]
    · rfl
  · exact absurd ⟨hl, .inl ha⟩ h
  · rfl

lemma done_sendUpdates_of_canSend (h : s.CanSend) : s.done < s.dhcpFailoverSendUpdates.2.done := by
  obtain ⟨hl, h⟩ := h
  unfold dhcpFailoverSendUpdates
  rw [if_pos hl]
  split_ifs with ha
  · obtain ⟨hm, hq⟩ := h.resolve_left (not_not.mpr ha)
    obtain ⟨lp, hlp⟩ := Option.ne_none_iff_exists'.mp hq
    unfold sendQueued
    rw [if_pos hm, hlp]
    dsimp only
    have hs := s.done_sendBindUpdate lp hl
    generalize s.dhcpFailoverSendBindUpdate lp = r at hs ⊢
    rcases r with ⟨_ | _, t⟩
    · exact hs
    · exact hs.trans_le (done_sendQueued _ (t.moveToAckQueue lp))
  · exact s.done_sendAcks.trans_le (done_sendQueued _ _)

/-! ### An acknowledgement that no lease waits for -/

/-- The lease is not on the ack queue, no end of the updates depends on it and there is nothing
to send. -/
structure AtRest (s : Db ι) (i : ι) : Prop where
  off : (s.lease i).flags.onAckQueue = true →
    s.peer.ackQueue.remove (Fintype.card ι + 1) s.nextPending i = none
  last : s.peer.sendUpdateDone ≠ some i
  idle : ¬ s.CanSend

lemma ackQueueRemove_eq_self (h : s.dhcpFailoverAckQueueRemove i = s)
    (hi : (s.lease i).flags.onAckQueue = true) :
    s.peer.ackQueue.remove (Fintype.card ι + 1) s.nextPending i = none := by
  unfold dhcpFailoverAckQueueRemove at h
  rw [if_pos hi] at h
  cases hr : s.peer.ackQueue.remove (Fintype.card ι + 1) s.nextPending i with
  | none => rfl
  | some r =>
    rw [hr] at h
    dsimp -zeta only at h
    extract_lets _ t u at h
    have hu : (u.lease i).flags.onAckQueue = false := by
      simp [u]
    have hc : (u.commitLeases.2.lease i).flags.onAckQueue = false := by
      rw [commitLeases, askAnd_eq]
      exact hu
    split_ifs at h
    · rw [h, hi] at hc
      cases hc
    · rw [h, hi] at hu
      cases hu

/-- `UPDDONE` follows the last lease of an update request. -/
def announce (s : Db ι) (i : ι) : Db ι :=
  if s.peer.sendUpdateDone = some i then
    (s.modifyPeer fun p => { p with sendUpdateDone := none }).dhcpFailoverSendUpdateDone
  else s

lemma unqueue_unwanted (s : Db ι) (i : ι) : s.unqueue i false =
      some ((s.dhcpFailoverAckQueueRemove i).announce i).dhcpFailoverSendUpdates.2 := by
  simp [unqueue, returnToBackup, affinity, announce]

lemma done_announce (s : Db ι) (i : ι) : s.done ≤ (s.announce i).done := by
  unfold announce
  split_ifs
  · exact (done_sendUpdateDone (s.modifyPeer fun p => { p with sendUpdateDone := none })).1
  · exact le_rfl

/-- An announcement shows in `done`, or at least in the lease it was meant for. -/
lemma announce_of_last (h : s.peer.sendUpdateDone = some i) :
    s.done < (s.announce i).done ∨ (s.announce i).peer.sendUpdateDone = none := by
  have hs := (done_sendUpdateDone (s.modifyPeer fun p => { p with sendUpdateDone := none })).2
  unfold announce
  rw [if_pos h]
  by_cases hl : s.peer.linkToPeer = true
  · exact .inl (hs hl)
  · rw [show (s.modifyPeer fun p => { p with sendUpdateDone := none }).dhcpFailoverSendUpdateDone =
      s.modifyPeer fun p => { p with sendUpdateDone := none } from if_neg hl]
    exact .inr rfl

lemma unqueue_eq_self : s.unqueue i false = some s ↔ s.AtRest i := by
  rw [unqueue_unwanted, Option.some_inj]
  constructor
  · intro h
    have h1 := s.done_ackQueueRemove i
    have h2 := (s.dhcpFailoverAckQueueRemove i).done_announce i
    -- whatever is sent shows in `done`
    have hidle : ¬ ((s.dhcpFailoverAckQueueRemove i).announce i).CanSend := fun hc =>
      (h1.trans h2 |>.trans_lt (done_sendUpdates_of_canSend hc)).ne (congrArg done h).symm
    rw [sendUpdates_of_not_canSend hidle] at h
    have hr : (s.dhcpFailoverAckQueueRemove i).peer.sendUpdateDone = s.peer.sendUpdateDone :=
      (s.ackQueueRemove_sent i).2
    have hlast : s.peer.sendUpdateDone ≠ some i := by
      intro hd
      rcases announce_of_last (hr.trans hd) with hlt | hn
      · exact (h1.trans_lt hlt).ne (congrArg done h).symm
      · rw [h, hd] at hn
        cases hn
    rw [announce, if_neg (hr ▸ hlast)] at h hidle
    rw [h] at hidle
    exact ⟨ackQueueRemove_eq_self h, hlast, hidle⟩
  · intro h
    have hr : s.dhcpFailoverAckQueueRemove i = s := by
      unfold dhcpFailoverAckQueueRemove
      split_ifs with hi
      · rw [h.off hi]
      · rfl
    rw [hr, announce, if_neg h.last, sendUpdates_of_not_canSend h.idle]

/-! ### The result -/

def acked (s : Db ι) (i : ι) (msg : BndMsg ι) : Db ι :=
  s.modify i (withTimes (s.potExpire i msg))

/-- What is left of the handling of an acknowledgement once the times are set. -/
def finishAck (s : Db ι) (i : ι) : Option (Db ι) := do
  let (wanted, s) ← s.settle i
  s.unqueue i wanted

/-- **The times of an acknowledged lease.** For an acknowledgement of the last update `upd`, both
times are set to the reported value exactly if the two options whose bits are tested by mistake
lead to it, and they stay what they are set to unless partner-down or a new update changes them.
An acknowledgement of an unknown address changes nothing, and one that the lease does not wait for
changes nothing exactly if it is no rejection and the lease waits for another one, or if there is
nothing to be done anyway. -/
theorem bindAck_times (s : Db ι) (msg : BndMsg ι) :
    (∀ i upd, msg.assignedAddr = some i → msg.has ftbRejectReason = false →
      (s.lease i).lastXid ≠ 0 → msg.xid = (s.lease i).lastXid →
      OutMsg.bndupd upd ∈ s.peer.sent → upd.assignedAddr = some i → upd.xid = msg.xid →
      s.dhcpFailoverProcessBindAck msg = (s.acked i msg).finishAck i ∧
        (((s.acked i msg).lease i).tsfp = reportedExpiry msg upd ∧
          ((s.acked i msg).lease i).atsfp = reportedExpiry msg upd ↔ s.TakesReported i msg upd) ∧
        ∀ t, s.dhcpFailoverProcessBindAck msg = some t →
          (t.peer.meState = .partnerDown ∨ (t.lease i).tsfp = ((s.acked i msg).lease i).tsfp) ∧
          ((t.lease i).atsfp = ((s.acked i msg).lease i).atsfp ∨ (t.lease i).atsfp = 0)) ∧
    (msg.assignedAddr = none → s.dhcpFailoverProcessBindAck msg = some s) ∧
    ∀ i, msg.assignedAddr = some i → (s.lease i).lastXid = 0 ∨ msg.xid ≠ (s.lease i).lastXid →
      (s.dhcpFailoverProcessBindAck msg = some s ↔
        msg.has ftbRejectReason = false ∧ (s.lease i).lastXid ≠ 0 ∨ s.AtRest i) := by
  refine ⟨fun i upd hi hr h0 hx _ _ _ => ?_, fun hi => ?_, fun i hi hx => ?_⟩
  · have hu : (s.acked i msg).lease i = withTimes (s.potExpire i msg) (s.lease i) :=
      modify_lease_self ..
    have hf : s.dhcpFailoverProcessBindAck msg = (s.acked i msg).finishAck i := by
      simp [dhcpFailoverProcessBindAck, hi, hr, finishAck, acknowledge_eq, if_neg h0, hx, acked]
    refine ⟨hf, ?_, fun t ht => ?_⟩
    · rw [hu, ← potExpire_eq_reportedExpiry]
      exact and_self_iff
    · simp only [hf, finishAck, Option.bind_eq_bind, Option.bind_eq_some_iff] at ht
      obtain ⟨r, hr, ht⟩ := ht
      have h1 := upheld_ackInvariant fun j x => j = i → x = s.potExpire i msg
      have h0 (j : ι) (hj : j = i) : ((s.acked i msg).lease j).tsfp = s.potExpire i msg := by
        rw [hj, hu]
        rfl
      have h2 := keepsAtsfp_ackInvariant i (s.potExpire i msg)
      rw [hu]
      exact ⟨(h1.unqueue (h1.settles.settle (fun j => .inl (h0 j)) hr) ht).keepsTsfp,
        h2.unqueue (h2.settles.settle (.inl (by rw [hu]; rfl)) hr) ht⟩
  · rw [dhcpFailoverProcessBindAck, hi]
  · rw [dhcpFailoverProcessBindAck, hi]
    dsimp only
    split_ifs with hr hx'
    · rw [unqueue_eq_self]
      refine ⟨.inr, fun h => h.resolve_left fun hn => ?_⟩
      simp [hn.1, hn.2] at hr
    · simp only [Bool.or_eq_true, beq_iff_eq, not_or] at hr
      simp [hr.1, hr.2]
    · simp only [Bool.or_eq_true, beq_iff_eq, not_or] at hr
      exact absurd (not_not.mp hx') (hx.resolve_left hr.2).symm

def waitingSample : Db Unit where
  curTime := 100
  lease := fun _ =>
    { starts := 90, ends := 400, tstp := 500, lastXid := 7, pool := some 0
      bindingState := .active, nextBindingState := .active, desiredBindingState := .active
      rewindBindingState := .active, flags := { onAckQueue := true } }
  peer :=
    { linkToPeer := true, xid := 8, maxFlyingUpdates := 10, curUnackedUpdates := 1
      ackQueue := { head := some (), tail := some () }
      sent := [.bndupd { xid := 7, assignedAddr := some (), potentialExpiry := 500 }] }

def ackSample : BndMsg Unit where
  xid := 7
  optionsPresent := ftbAssignedIpAddress ||| ftbClientIdentifier ||| ftbPotentialExpiry
  assignedAddr := some ()
  potentialExpiry := 900

theorem bindAck_times_sample : ((waitingSample.acked () ackSample).lease ()).tsfp = 900 ∧
      waitingSample.dhcpFailoverProcessBindAck { ackSample with assignedAddr := none } =
        some waitingSample ∧
      waitingSample.dhcpFailoverProcessBindAck { ackSample with xid := 6 } =
        some waitingSample := by
  refine ⟨?_, ?_, ?_⟩
  · exact (((bindAck_times waitingSample ackSample).1 ()
      { xid := 7, assignedAddr := some (), potentialExpiry := 500 } rfl rfl (by decide) rfl
      (by decide) rfl rfl).2.1.mpr (by unfold TakesReported; decide)).1
  · exact (bindAck_times waitingSample { ackSample with assignedAddr := none }).2.1 rfl
  · exact ((bindAck_times waitingSample { ackSample with xid := 6 }).2.2 () rfl
      (.inr (by decide))).mpr (.inl ⟨rfl, by decide⟩)

/-- Without the client identifier the potential expiry time of the acknowledgement is ignored, and
a rejection takes the lease from the queue whatever its transaction identifier. -/
theorem bindAck_ignores_expiry :
    let plain := { ackSample with optionsPresent := ftbAssignedIpAddress ||| ftbPotentialExpiry }
    let rejected :=
      { ackSample with xid := 6, optionsPresent := ftbAssignedIpAddress ||| ftbRejectReason }
    (waitingSample.dhcpFailoverProcessBindAck plain).map (fun t => (t.lease ()).tsfp) = some 500 ∧
      reportedExpiry plain { xid := 7, assignedAddr := some (), potentialExpiry := 500 } = 900 ∧
      (waitingSample.dhcpFailoverProcessBindAck rejected).map
        (fun t => (t.lease ()).flags.onAckQueue) = some false := by
  decide +kernel

end Db

end IscDhcp
