import IscDhcp.Failover.AckInvariant
import IscDhcp.Failover.Pending

/-!
The update queue and the ack queue along a run: lease updates, messages from the peer and
changes of the link, in any order.
-/

namespace IscDhcp

open IscDhcp.Lib Option

variable {ι : Type} [DecidableEq ι]

namespace Db

variable {R : Line.Rule ι} {l : Line ι} {s t : Db ι}

/-! ### Lease updates -/

lemma movedOn_flags (peered : Bool) (p : Peer ι) (flags : Option Flags) (trans : Bool) (l : Lease) :
    (movedOn peered p flags trans l).flags.onUpdateQueue = l.flags.onUpdateQueue ∧
      (movedOn peered p flags trans l).flags.onAckQueue = l.flags.onAckQueue := by
  unfold movedOn
  extract_lets m
  have hm : m.flags.onUpdateQueue = l.flags.onUpdateQueue ∧
      m.flags.onAckQueue = l.flags.onAckQueue := by
    cases flags <;> exact ⟨rfl, rfl⟩
  split_ifs
  · obtain ⟨-, -, -, -, -, hf⟩ := transition_keeps peered p m
    rwa [hf]
  · exact hm

lemma outbox_moveOn (s : Db ι) (comp : ι) (flags : Option Flags) (trans : Bool) :
    (s.moveOn comp flags trans).outbox = s.outbox := by
  obtain ⟨cls, h⟩ := s.moveOn_eq comp flags trans
  rw [h]
  exact s.outbox_modify comp (movedOn_flags _ _ _ _)

variable [Fintype ι]

lemma outbox_copySample (s : Db ι) (comp : ι) (lease : Lease) :
    (s.copySample comp lease).outbox = s.outbox := by
  obtain ⟨cls, uids, hws, b, h⟩ := s.copySample_eq comp lease
  rw [h]
  exact s.outbox_modify comp fun _ => ⟨rfl, rfl⟩

lemma dropScope_outbox (s : Db ι) (i : ι) (msg : BndMsg ι) (changed : Bool) :
    (s.dropScope i msg changed).outbox = s.outbox := by
  unfold dropScope
  split_ifs
  · exact s.outbox_modify i fun _ => ⟨rfl, rfl⟩
  · rfl

lemma from_moveFrame : MoveFrame (From R l) where
  setPool _ _ h := h.of_outbox rfl
  schedulePool _ _ h := h.of_outbox rfl
  lastInsert _ h := h.of_outbox rfl
  atsfp _ h := h.modify fun _ => rfl
  modify _ _ _ h := h.modify fun _ => rfl

section Moves

variable (hR : ∀ i, R.queue i)
include hR

lemma from_record : RecordInvariant (From R l) where
  schedulePool _ _ h := h.of_outbox rfl
  modify _ _ _ h := h.modify fun _ => rfl
  writeLease i h := h.of_outbox (outbox_writeLease _ i)
  commitLeases h := h.of_outbox (outbox_commitLeases _)
  queueUpdate i immediate h := h.queueUpdate (hR i) immediate

lemma from_moveInvariant : MoveInvariant (From R l) :=
  from_moveFrame.moveInvariant
    (fun comp flags trans h => h.of_outbox (outbox_moveOn _ comp flags trans))
    (from_record hR).recordMove

lemma from_settle : SettleInvariant (From R l) where
  move := from_moveInvariant hR
  modify _ h hf := h.modify fun l => (hf l).2.2
  writeLease i h := h.of_outbox (outbox_writeLease _ i)
  commitLeases h := h.of_outbox (outbox_commitLeases _)

section

variable (h : From R l s)

include h

lemma From.supersedeLease {comp : ι} {lease : Option Lease} {commit propogate pimmediate ok : Bool}
    (ht : s.supersedeLease comp lease commit propogate pimmediate = some (ok, t)) : From R l t := by
  have hc : From R l (lease.elim s (s.copySample comp)) := by
    cases lease with
    | none => exact h
    | some lt => exact h.of_outbox (s.outbox_copySample comp lt)
  rcases (from_moveInvariant hR).supersedeLease hc ht with rfl | ht
  exacts [h, ht]

/-! ### Messages from the peer -/

lemma From.acknowledge {i : ι} {msg : BndMsg ι} {wanted : Bool}
    (ht : s.acknowledge i msg = some (wanted, t)) : From R l t := by
  rw [acknowledge_eq] at ht
  exact (from_settle hR).settle (h.modify fun _ => by rfl) ht

lemma From.install {i : ι} {lt : Lease} {new : BindingState} {ok : Bool}
    (ht : s.install i lt new = some (ok, t)) : From R l t := by
  obtain ⟨⟨b, w⟩, hw, ht⟩ := bind_eq_some_iff.mp ht
  have hwp : From R l w := From.supersedeLease hR (h.modify fun _ => by rfl) hw
  have hr : From R l (if b = true then w.writeLease i else (false, w)).2 := by
    split_ifs
    exacts [hwp.of_outbox (w.outbox_writeLease i), hwp]
  rwa [some.inj ht] at hr

lemma From.accepted {i : ι} {msg : BndMsg ι} (ht : t = s.dhcpFailoverQueueAck msg ∨
      ∃ u, (s.dhcpFailoverQueueAck msg).sendToBackup i = some u ∧
        t = u.dhcpFailoverSendUpdates.2) : From R l t := by
  obtain rfl | ⟨u, hu, rfl⟩ := ht
  exacts [h.queueAck msg, ((from_settle hR).sendToBackup (h.queueAck msg) hu).sendUpdates]

end

end Moves

section Messages

variable (hR : ∀ i, R.queue i) (hA : ∀ m, R.put (.bndack m))

include hA in
lemma From.reject (h : From R l s) (msg : BndMsg ι) (r : Reject) : From R l (s.reject msg r) :=
  h.sendBindAck msg (.inr hA)

include hR hA

lemma From.installUpdate {i : ι} {msg : BndMsg ι} (h : From R l s)
    (ht : s.installUpdate i msg = some t) : From R l t := by
  obtain ⟨r, -, rfl⟩ | ⟨lt, changed, -, ht⟩ := installUpdate_cases ht
  · exact h.reject hA msg r
  have hd : From R l (s.dropScope i msg changed) := h.of_outbox (s.dropScope_outbox i msg changed)
  obtain ⟨r, -, rfl⟩ | ⟨lt', -, ht⟩ := ht
  · exact hd.reject hA msg r
  obtain ⟨ok, v, msg', hv, hacc⟩ := acceptUpdate_cases ht
  have hv := hd.install hR hv
  obtain ⟨-, r, rfl⟩ | hacc := hacc
  exacts [hv.reject hA msg' r, hv.accepted hR hacc]

/-- The update is considered for `i`, whose own update it beats. -/
def Beats (s : Db ι) (msg : BndMsg ι) (i : ι) : Prop :=
  (msg.has ftbAssignedIpAddress && msg.has ftbBindingStatus) = true ∧ msg.assignedAddr = some i ∧
    s.peered i = true ∧ (s.lease i).flags.onAckQueue = true ∧
    s.failoverLeaseIsBetter (s.lease i) msg = some false

/-- A lease leaves the line only if the update of the peer beats its own. -/
lemma processBindUpdate_line {msg : BndMsg ι} (h : s.outbox.Holds l)
    (ht : s.dhcpFailoverProcessBindUpdate msg = some t) :
    From R l t ∨ ∃ i, s.Beats msg i ∧ From R { l with ack := l.ack.erase i } t := by
  obtain ⟨r, rfl, -⟩ | ⟨i, ⟨ho, hi, hp, hb⟩, ht⟩ := processBindUpdate_cases ht
  · exact .inl ((From.refl h).reject hA msg r)
  by_cases hq : (s.lease i).flags.onAckQueue = true
  · have hr := ackQueueRemove_line h i
    exact .inr ⟨i, ⟨ho, hi, hp, hq, hb hq⟩, From.installUpdate hR hA (.refl hr) ht⟩
  · rw [dhcpFailoverAckQueueRemove, if_neg hq] at ht
    exact .inl (From.installUpdate hR hA (.refl h) ht)

end Messages

lemma From.sendUpdateDone (h : From R l s) (hd : ∀ x, R.put (.upddone x)) :
    From R l s.dhcpFailoverSendUpdateDone := by
  unfold dhcpFailoverSendUpdateDone
  split_ifs
  · have (v : Db ι) (f : Peer ι → ℕ) :
        (v.modifyPeer fun p => { p with updxid := f p }).outbox = v.outbox := rfl
    exact (h.putMessage (hd s.peer.updxid)).of_outbox (by simp [outbox_commitLeases, this])
  · exact h

lemma unqueue_line {i : ι} {wanted : Bool} (hR : ∀ i, R.queue i)
    (hd : l.done = some i → ∀ x, R.put (.upddone x)) (h : s.outbox.Holds l)
    (ht : s.unqueue i wanted = some t) : From R (l.settle i) t := by
  have hr := ackQueueRemove_line h i
  unfold Db.unqueue at ht
  extract_lets v w at ht
  have hdone : v.peer.sendUpdateDone = l.done := hr.done
  have hw : From R (l.settle i) w := by
    by_cases hi : l.done = some i
    · have hv : (v.modifyPeer fun p => { p with sendUpdateDone := none }).outbox.Holds
          (l.settle i) := ⟨hr.queues, hr.sent, (if_pos hi).symm⟩
      rw [show w = _ from if_pos (hdone.trans hi)]
      exact (From.refl hv).sendUpdateDone (hd hi)
    · rw [show w = v from if_neg (hdone ▸ hi)]
      exact .refl ⟨hr.queues, hr.sent, hr.done.trans (if_neg hi).symm⟩
  obtain ⟨x, hx, ht⟩ := bind_eq_some_iff.mp ht
  cases ht
  exact ((from_settle hR).returnToBackup hw hx).sendUpdates

/-- The acknowledgement is taken for that of the update of `i`. -/
def Takes (s : Db ι) (msg : BndMsg ι) (i : ι) : Prop :=
  msg.assignedAddr = some i ∧
    (msg.has ftbRejectReason = true ∨ (s.lease i).lastXid = 0 ∨ (s.lease i).lastXid = msg.xid)

/-- A lease leaves the line only if its update is acknowledged. -/
lemma processBindAck_line {msg : BndMsg ι} (hR : ∀ i, R.queue i)
    (hd : ∀ i, s.Takes msg i → l.done = some i → ∀ x, R.put (.upddone x))
    (h : s.outbox.Holds l) (ht : s.dhcpFailoverProcessBindAck msg = some t) :
    t = s ∨ ∃ i l', s.Takes msg i ∧ Line.Reach R l l' ∧ From R (l'.settle i) t ∧
      ((msg.has ftbRejectReason || (s.lease i).lastXid == 0) = true → l' = l) := by
  unfold dhcpFailoverProcessBindAck at ht
  cases hi : msg.assignedAddr with
  | none =>
    rw [hi] at ht
    exact .inl (some.inj ht).symm
  | some i =>
    rw [hi] at ht
    dsimp only at ht
    split_ifs at ht with hrej hxid
    · have htk : s.Takes msg i := ⟨hi, by
        rw [Bool.or_eq_true, beq_iff_eq] at hrej
        tauto⟩
      exact .inr ⟨i, l, htk, .refl, unqueue_line hR (hd i htk) h ht, fun _ => rfl⟩
    · exact .inl (some.inj ht).symm
    · obtain ⟨⟨wanted, v⟩, hv, ht⟩ := bind_eq_some_iff.mp ht
      obtain ⟨l', hl, hv⟩ := (From.refl h).acknowledge hR hv
      have htk : s.Takes msg i := ⟨hi, .inr (.inr (not_not.mp hxid))⟩
      have hd' : l'.done = some i → ∀ x, R.put (.upddone x) := fun he => hd i htk (hl.done ▸ he)
      exact .inr ⟨i, l', htk, hl, unqueue_line hR hd' hv ht, fun he => absurd he hrej⟩

/-! ### The queues stay in order -/

lemma Pending.of_from (h : s.Pending) (ht : ∀ l, From .any l s → From .any l t) : t.Pending := by
  obtain ⟨l, h⟩ := h.exists_line
  exact (ht l (.refl h)).pending

lemma Pending.ackQueueRemove (h : s.Pending)
    (i : ι) : (s.dhcpFailoverAckQueueRemove i).Pending := by
  obtain ⟨u, a, h⟩ := h
  exact ⟨_, _, ackQueueRemove_holds h i⟩

lemma Pending.processBindUpdate {msg : BndMsg ι} (h : s.Pending)
    (ht : s.dhcpFailoverProcessBindUpdate msg = some t) : t.Pending := by
  obtain ⟨l, h⟩ := h.exists_line
  obtain h | ⟨i, -, h⟩ := processBindUpdate_line (R := .any) (fun _ => trivial)
    (fun _ => trivial) h ht
  exacts [h.pending, h.pending]

lemma Pending.processBindAck {msg : BndMsg ι} (h : s.Pending)
    (ht : s.dhcpFailoverProcessBindAck msg = some t) : t.Pending := by
  obtain ⟨l, hl⟩ := h.exists_line
  obtain rfl | ⟨i, l', -, -, h, -⟩ := processBindAck_line (R := .any) (fun _ => trivial)
    (fun _ _ _ _ => trivial) hl ht
  exacts [h, h.pending]

end Db

end IscDhcp
