import IscDhcp.Failover.Reject

/-!
The time up to which the peer is known to reckon with a lease (`tsfp`).

It is written in four places: by a binding update of the peer, by an acknowledgement of the peer,
by the partner-down state, and by an answer to a client that shortens it. The module shows that
all functions of the database keep it below a given bound, apart from partner-down.
-/

namespace IscDhcp

open Option

variable {ι : Type} [DecidableEq ι]

namespace Db

/-- The time is bounded by `told`, or in partner-down by the end of its waiting time. -/
def Allowed (told : ι → Time) (s : Db ι) (i : ι) (t : Time) : Prop :=
  t ≤ told i ∨ s.peer.meState = .partnerDown ∧ t ≤ s.peer.meStos + s.peer.mclt

def Within (told : ι → Time) (s : Db ι) : Prop := ∀ i, Allowed told s i (s.lease i).tsfp

def Told (told : ι → Time) (s : Db ι) : Prop := ∀ i, (s.lease i).tsfp ≤ told i

/-- `A` holds for the `tsfp` of each lease, apart from those that partner-down has set. -/
def Upheld (A : ι → Time → Prop) (s : Db ι) : Prop :=
  ∀ i, A i (s.lease i).tsfp ∨
    s.peer.meState = .partnerDown ∧ (s.lease i).tsfp ≤ s.peer.meStos + s.peer.mclt

variable {told : ι → Time} {A : ι → Time → Prop} {s t : Db ι} {i : ι}

lemma Allowed.of_le {x y : Time} (h : Allowed told s i x) (hxy : y ≤ x) : Allowed told s i y :=
  h.imp hxy.trans fun hp => ⟨hp.1, hxy.trans hp.2⟩

lemma Allowed.zero : Allowed told s i minTime := .inl (Nat.zero_le _)

lemma Told.within (h : Told told s) : Within told s := fun i => .inl (h i)

lemma Within.of_not_partnerDown (h : Within told s) (hs : s.peer.meState ≠ .partnerDown) : Told told
    s :=
  fun i => (h i).resolve_right fun hp => hs hp.1

/-- The failover state and the `tsfp` of each lease are the same. -/
structure SameTimes (s t : Db ι) : Prop where
  tsfp : ∀ i, (t.lease i).tsfp = (s.lease i).tsfp
  meState : t.peer.meState = s.peer.meState
  meStos : t.peer.meStos = s.peer.meStos
  mclt : t.peer.mclt = s.peer.mclt

lemma Upheld.of_same (h : Upheld A s) (hs : SameTimes s t) : Upheld A t := fun i => by
  rw [hs.meState, hs.meStos, hs.mclt, hs.tsfp]
  exact h i

lemma Upheld.modify (h : Upheld A s) {f : Lease → Lease}
    (hf : A i (f (s.lease i)).tsfp ∨ s.peer.meState = .partnerDown ∧
      (f (s.lease i)).tsfp ≤ s.peer.meStos + s.peer.mclt) : Upheld A (s.modify i f) := fun j => by
  by_cases hj : j = i
  · subst hj
    rw [modify_lease_self]
    exact hf
  · rw [modify_lease_of_ne s hj]
    exact h j

lemma Upheld.keep (h : Upheld A s) (i : ι) {f : Lease → Lease} (hf : ∀ l, (f l).tsfp = l.tsfp) :
    Upheld A (s.modify i f) :=
  h.modify (by rw [hf]; exact h i)

lemma Within.of_same (h : Within told s)
    (hs : SameTimes s t) : Within told t :=
  Upheld.of_same (A := fun i x => x ≤ told i) h hs

lemma Within.modify (h : Within told s) {f : Lease → Lease}
    (hf : Allowed told s i (f (s.lease i)).tsfp) : Within told (s.modify i f) :=
  Upheld.modify (A := fun i x => x ≤ told i) h hf

lemma Within.keep (h : Within told s) (i : ι) {f : Lease → Lease}
    (hf : ∀ l, (f l).tsfp = l.tsfp) : Within told (s.modify i f) :=
  Upheld.keep (A := fun i x => x ≤ told i) h i hf

lemma sameTimes_ask (s : Db ι) : SameTimes s s.ask.2 := by
  rw [ask_eq]
  exact ⟨fun _ => rfl, rfl, rfl, rfl⟩

lemma sameTimes_askAnd (s : Db ι) (e : Effect ι) : SameTimes s (s.askAnd e).2 := by
  rw [askAnd_eq]
  exact ⟨fun _ => rfl, rfl, rfl, rfl⟩

/-! ### Changes of the failover state -/

lemma writeState_eq (s : Db ι) : ∃ io log, s.writeState.2 = { s with io := io, log := log } := by
  unfold writeState writeFailoverState
  rw [ask_eq]
  cases s.io.headD true
  · exact ⟨_, _, rfl⟩
  · unfold commitLeases
    simp only [askAnd_eq]
    exact ⟨_, _, rfl⟩

variable [Fintype ι]

lemma sameTimes_rescindUpdates (s : Db ι) : SameTimes s s.dhcpFailoverRescindUpdates := by
  refine s.rescindUpdates_rec ⟨fun _ => rfl, rfl, rfl, rfl⟩
    (fun t i h => ⟨fun j => ?_, h.meState, h.meStos, h.mclt⟩) fun _ _ _ h => { h with }
  refine (proj_modify _ i Lease.tsfp ?_ j).trans ((proj_modify _ i Lease.tsfp ?_ j).trans
    (h.tsfp j))
  all_goals exact fun _ => rfl

lemma tsfp_rescindOnChange (s : Db ι) (j : ι) :
    (s.rescindOnChange.lease j).tsfp = (s.lease j).tsfp := by
  unfold rescindOnChange
  split <;> first | rfl | exact s.sameTimes_rescindUpdates.tsfp j

lemma recordState_spec (s : Db ι) (new : FailoverState) :
    (∀ j, ((s.recordState new).2.lease j).tsfp = (s.lease j).tsfp) ∧
      ((s.recordState new).1 = true → (s.recordState new).2.peer.meState = new) := by
  unfold recordState
  extract_lets u t
  obtain ⟨io, log, hf⟩ := t.writeState_eq
  generalize t.writeState = r at hf ⊢
  rcases r with ⟨_ | _, v⟩ <;> cases hf
  · exact ⟨s.tsfp_rescindOnChange, by simp⟩
  · exact ⟨s.tsfp_rescindOnChange, fun _ => rfl⟩

/-- The waiting time of the expired leases is the one that is allowed. -/
lemma upheld_expirePartnerDown (h : Upheld A s) (hs : s.peer.meState = .partnerDown) (p : ℕ) :
    Upheld A (s.expirePartnerDown p) ∧ (s.expirePartnerDown p).peer = s.peer := by
  unfold expirePartnerDown
  split_ifs
  · extract_lets queue t
    have ht : Upheld A t ∧ t.peer = s.peer := by
      refine List.foldlRecOn (motive := fun t => Upheld A t ∧ t.peer = s.peer) _ _ ⟨h, rfl⟩
        fun _ hi i _ => ?_
      refine ⟨hi.1.modify (.inr ?_), hi.2⟩
      rw [hi.2]
      exact ⟨hs, le_rfl⟩
    cases queue.head? with
    | none => exact ht
    | some i =>
      dsimp only
      split_ifs
      · exact ⟨ht.1.of_same ⟨fun _ => rfl, rfl, rfl, rfl⟩, ht.2⟩
      · exact ht
  · exact ⟨h, rfl⟩

lemma upheld_partnerDown (h : Upheld A s) (hs : s.peer.meState = .partnerDown) :
    Upheld A (s.pools.foldl expirePartnerDown s) := by
  refine (List.foldlRecOn (motive := fun t => Upheld A t ∧ t.peer.meState = .partnerDown) _ _
    ⟨h, hs⟩ fun _ hp p _ => ?_).1
  obtain ⟨h1, h2⟩ := upheld_expirePartnerDown hp.1 hp.2 p
  exact ⟨h1, by rw [h2, hp.2]⟩

lemma upheld_setStateOffline (h : ∀ i, A i (s.lease i).tsfp) (new : FailoverState) :
    Upheld A (s.setStateOffline new) := by
  obtain ⟨h1, h2⟩ := s.recordState_spec new
  unfold Db.setStateOffline
  generalize s.recordState new = r at h1 h2
  have hr (i : ι) : A i (r.2.lease i).tsfp := h1 i ▸ h i
  rcases r with ⟨_ | _, u⟩
  · exact fun i => .inl (hr i)
  · cases new
    case recoverWait =>
      dsimp only
      split_ifs
      · exact fun i => .inl (hr i)
      · exact fun i => .inl ((u.recordState_spec .recoverDone).1 i ▸ hr i)
    case partnerDown => exact upheld_partnerDown (fun i => .inl (hr i)) (h2 rfl)
    all_goals exact fun i => .inl (hr i)

lemma upheld_leaveStartup (h : ∀ i, A i (s.lease i).tsfp) : Upheld A s.leaveStartup := by
  unfold Db.leaveStartup
  split_ifs
  exacts [upheld_setStateOffline h _, fun i => .inl (h i)]

lemma disconnect_partnerDown (hs : s.peer.meState = .partnerDown) :
    s.disconnect = s.modifyPeer fun p => { p with linkToPeer := false } := by
  simp [disconnect, modifyPeer, hs, Db.leaveStartup]

lemma upheld_disconnect (h : Upheld A s) : Upheld A s.disconnect := by
  by_cases hs : s.peer.meState = .partnerDown
  · rw [disconnect_partnerDown hs]
    exact h.of_same ⟨fun _ => rfl, rfl, rfl, rfl⟩
  · unfold disconnect
    extract_lets t
    have ht (i : ι) : A i (t.lease i).tsfp := (h i).resolve_right fun hp => hs hp.1
    split
    · exact upheld_leaveStartup fun i => t.sameTimes_rescindUpdates.tsfp i ▸ ht i
    · exact upheld_setStateOffline ht _
    · exact upheld_setStateOffline ht _
    · exact upheld_setStateOffline ht _
    · exact upheld_leaveStartup ht

lemma upheld_linkInvariant (A : ι → Time → Prop) : LinkInvariant (Upheld A) where
  ask h := h.of_same (sameTimes_ask _)
  writeLease _ h := h.of_same (sameTimes_askAnd _ _)
  commitLeases h := h.of_same (sameTimes_askAnd _ _)
  modify i h hf := h.keep i fun l => (hf l).2.1
  queues _ _ h hp := h.of_same ⟨fun _ => rfl, hp.2.1, hp.2.2, hp.mclt⟩
  disconnect := upheld_disconnect

lemma within_linkInvariant (told : ι → Time) : LinkInvariant (Within told) :=
  upheld_linkInvariant fun i x => x ≤ told i

lemma within_disconnect (h : Within told s) : Within told s.disconnect :=
  (within_linkInvariant told).disconnect h

/-- Tell the peer of the new state, which may lose the link. -/
def tellState (s : Db ι) : Db ι :=
  if s.peer.linkToPeer then
    match s.ask with
    | (true, s) => s
    | (false, s) => s.disconnect
  else s

/-- `dhcp_failover_set_state`, up to the updates and the requests that the new state calls for. -/
def changeState (s : Db ι) (new : FailoverState) : Db ι :=
  match s.recordState new with
  | (false, s) => s
  | (true, s) =>
    if new = .partnerDown then s.tellState.pools.foldl expirePartnerDown s.tellState
    else s.tellState

lemma Within.tellState (h : Within told s) : Within told s.tellState := by
  have ha := (within_linkInvariant told).ask h
  unfold Db.tellState
  generalize s.ask = r at ha ⊢
  split_ifs
  · rcases r with ⟨_ | _, t⟩
    exacts [within_disconnect ha, ha]
  · exact h

lemma tellState_partnerDown (hs : s.peer.meState = .partnerDown) :
    s.tellState.peer.meState = .partnerDown := by
  have ha := s.sameTimes_ask.meState.trans hs
  unfold Db.tellState
  generalize s.ask = r at ha ⊢
  split_ifs
  · rcases r with ⟨_ | _, t⟩
    · dsimp only
      rw [disconnect_partnerDown ha]
      exact ha
    · exact ha
  · exact hs

lemma Within.changeState (h : Within told s)
    (hs : s.peer.meState = .partnerDown → Told told s) (new : FailoverState) :
    Within told (s.changeState new) := by
  have ht : Told told s := by
    by_cases hp : s.peer.meState = .partnerDown
    exacts [hs hp, h.of_not_partnerDown hp]
  obtain ⟨h1, h2⟩ := s.recordState_spec new
  unfold Db.changeState
  generalize s.recordState new = r at h1 h2
  have hr : Within told r.2 := fun i => .inl (h1 i ▸ ht i)
  rcases r with ⟨_ | _, u⟩
  · exact hr
  · split_ifs with hn
    · exact upheld_partnerDown (A := fun i x => x ≤ told i) hr.tellState
        (tellState_partnerDown (hn ▸ h2 rfl))
    · exact hr.tellState

/-! ### Moving a lease -/

omit [Fintype ι] in
lemma movedOn_tsfp (peered : Bool) (p : Peer ι) (flags : Option Flags) (trans : Bool) (l : Lease) :
    (movedOn peered p flags trans l).tsfp = l.tsfp ∨
      p.meState = .partnerDown ∧ (movedOn peered p flags trans l).tsfp = p.meStos + p.mclt := by
  have ht (l : Lease) : (transition peered p l).tsfp = l.tsfp ∨
      p.meState = .partnerDown ∧ (transition peered p l).tsfp = p.meStos + p.mclt := by
    unfold transition
    dsimp only
    split_ifs with hw
    · simp only [Bool.and_eq_true, beq_iff_eq] at hw
      exact .inr ⟨hw.2, rfl⟩
    · exact .inl rfl
  cases flags <;> cases trans
  exacts [.inl rfl, ht l, .inl rfl, ht _]

lemma upheld_ackInvariant (A : ι → Time → Prop) : AckInvariant (Upheld A) where
  link := upheld_linkInvariant A
  frame h hl hp := h.of_same ⟨fun _ => by rw [hl], by rw [hp], by rw [hp], by rw [hp]⟩
  modify i h hf := h.keep i fun l => (hf l).1
  clearAtsfp i h := h.keep i fun _ => rfl
  movedOn {s} i flags trans h := by
    refine h.modify ?_
    rcases movedOn_tsfp (s.peered i) s.peer flags trans (s.lease i) with he | ⟨hd, he⟩
    · exact he ▸ h i
    · exact .inr ⟨hd, he.le⟩

lemma within_ackInvariant (told : ι → Time) : AckInvariant (Within told) :=
  upheld_ackInvariant fun i x => x ≤ told i

section

variable (h : Within told s)

include h

lemma Within.supersedeLease {lease : Option Lease}
    (hl : ∀ lt ∈ lease, Allowed told s i lt.tsfp) {commit propogate pimmediate ok : Bool}
    (ht : s.supersedeLease i lease commit propogate pimmediate = some (ok, t)) : Within told t := by
  have hc : Within told (lease.elim s (s.copySample i)) := by
    cases lease with
    | none => exact h
    | some lt =>
      obtain ⟨cls, uids, hws, b, he⟩ := s.copySample_eq i lt
      dsimp only [Option.elim]
      rw [he]
      exact (h.modify (hl lt rfl)).of_same ⟨fun _ => rfl, rfl, rfl, rfl⟩
  rcases (within_ackInvariant told).move.supersedeLease hc ht with rfl | ht
  exacts [h, ht]

lemma Within.move {commit propogate pimmediate : Bool} {r : Bool × Db ι}
    (ht : s.supersedeLease i none commit propogate pimmediate = some r) : Within told r.2 :=
  h.supersedeLease (fun _ hl => by cases hl) ht

lemma Within.poolTimer {p : ℕ} (ht : s.poolTimer p = some t) : Within told t :=
  (within_ackInvariant told).move.poolTimer h ht

lemma Within.releaseLease (ht : s.releaseLease i = some t) : Within told t := by
  have hu : Within told (s.modify i fun l => { l with onRelease := none, onExpiry := none }) :=
    h.keep i fun _ => rfl
  unfold Db.releaseLease at ht
  extract_lets u at ht
  split at ht
  all_goals try exact some.inj ht ▸ hu
  all_goals
    obtain ⟨r, hr, rfl⟩ := map_eq_some_iff.mp ht
    refine Within.move (Within.keep hu i ?_) hr
    exact fun _ => rfl

lemma Within.abandonLease (ht : s.abandonLease i = some t) : Within told t := by
  obtain ⟨⟨ok, u⟩, hu, rfl⟩ := map_eq_some_iff.mp ht
  exact h.supersedeLease (fun lt hl => some.inj hl ▸ h i) hu

lemma Within.rebill (cls : ℕ → Class ι) (b : Option ℕ) : Within told (s.rebill i cls b) := by
  have hk : Within told (s.modify i fun l => { l with billingClass := b }) := h.keep i fun _ => rfl
  exact hk.of_same ⟨fun _ => rfl, rfl, rfl, rfl⟩

lemma Within.unbillClass (i : ι) : Within told (s.unbillClass i) := by
  obtain ⟨cls, hs⟩ := s.unbillClass_eq i
  exact hs ▸ h.rebill cls none

lemma Within.billClass (i : ι) (c : ℕ) : Within told (s.billClass i c).2 := by
  obtain ⟨cls, b, hs⟩ := s.billClass_eq i c
  exact hs ▸ h.rebill cls b

/-! ### Messages of the peer -/

lemma Within.reject (msg : BndMsg ι) (r : Reject) : Within told (s.reject msg r) :=
  (within_linkInvariant told).sendBindAck h msg r.reason r.message

omit h in
lemma clientOf_tsfp {l lt : Lease} {changed : Bool} (h : clientOf msg l = .ok (lt, changed)) :
    lt.tsfp = l.tsfp := by
  have hc {x y : Lease} {b : Bool} (hx : installChaddr msg x = .ok (y, b)) : y.tsfp = x.tsfp := by
    unfold installChaddr at hx
    split_ifs at hx
    · cases hx
      rfl
    · split at hx <;> cases hx <;> rfl
  have hi {x y : Lease} {b : Bool} (hx : installIdent msg x = .ok (y, b)) : y.tsfp = x.tsfp := by
    unfold installIdent at hx
    split_ifs at hx
    all_goals
      cases hx
      rfl
  unfold clientOf at h
  cases h1 : installChaddr msg (leaseCopy l) with
  | error r => simp [h1, bind, Except.bind] at h
  | ok r1 =>
    cases h2 : installIdent msg r1.1 with
    | error r => simp [h1, h2, bind, Except.bind] at h
    | ok r2 =>
      simp only [h1, h2, bind, Except.bind] at h
      obtain ⟨rfl, -⟩ := h
      exact (hi h2).trans (hc (x := leaseCopy l) h1)

omit h in
lemma sampleOf_tsfp {lt lt' : Lease} (h : s.sampleOf i msg lt = some (.ok lt')) :
    lt'.tsfp = if msg.has ftbPotentialExpiry then msg.potentialExpiry else lt.tsfp := by
  unfold sampleOf at h
  split at h
  · cases h
  · next lt1 hf =>
    obtain ⟨new, -, h⟩ := bind_eq_some_iff.mp h
    by_cases hn : new = msg.bindingStatus
    · rw [if_neg (not_not.mpr hn)] at h
      cases h
      unfold installFlags at hf
      dsimp only at hf
      split_ifs at hf
      all_goals
        cases hf
        rfl
    · rw [if_pos hn] at h
      cases h

variable {msg : BndMsg ι}

lemma Within.acceptUpdate {lt : Lease} (hl : Allowed told s i lt.tsfp)
    {new : BindingState} (ht : s.acceptUpdate i lt new msg = some t) : Within told t := by
  have hL := within_linkInvariant told
  obtain ⟨ok, v, msg', hin, hacc⟩ := acceptUpdate_cases ht
  obtain ⟨⟨b, u⟩, hu, hin⟩ := bind_eq_some_iff.mp hin
  have hwu : Within told u := by
    refine Within.supersedeLease (h.keep i ?_) (fun l hl' => some.inj hl' ▸ hl) hu
    exact fun _ => rfl
  have hv : Within told (if b = true then u.writeLease i else (false, u)).2 := by
    split_ifs
    exacts [hL.writeLease i hwu, hwu]
  rw [some.inj hin] at hv
  have hq := hL.queueAck hv msg'
  obtain ⟨-, r, rfl⟩ | rfl | ⟨x, hx, rfl⟩ := hacc
  exacts [hv.reject _ _, hq, hL.sendUpdates ((within_ackInvariant told).settles.sendToBackup hq hx)]

lemma Within.processBindUpdate
    (hm : ∀ i, msg.assignedAddr = some i → msg.has ftbPotentialExpiry = true →
      msg.potentialExpiry ≤ told i)
    (ht : s.dhcpFailoverProcessBindUpdate msg = some t) : Within told t := by
  obtain ⟨r, rfl, -⟩ | ⟨i, hc, ht⟩ := processBindUpdate_cases ht
  · exact h.reject msg r
  have hr := (within_linkInvariant told).ackQueueRemove h i
  generalize s.dhcpFailoverAckQueueRemove i = v at hr ht
  obtain ⟨r, -, rfl⟩ | ⟨lt, changed, hcl, ht⟩ := installUpdate_cases ht
  · exact hr.reject msg r
  have hd : Within told (v.dropScope i msg changed) ∧
      ((v.dropScope i msg changed).lease i).tsfp = (v.lease i).tsfp := by
    refine ⟨?_, by rw [dropScope_lease]⟩
    unfold dropScope
    split_ifs
    exacts [hr.keep i fun _ => rfl, hr]
  obtain ⟨r, -, rfl⟩ | ⟨lt', hs, ht⟩ := ht
  · exact hd.1.reject msg r
  refine hd.1.acceptUpdate ?_ ht
  rw [sampleOf_tsfp hs]
  split_ifs with hp
  · exact .inl (hm i hc.2.1 hp)
  · rw [clientOf_tsfp hcl, ← hd.2]
    exact hd.1 i

lemma Within.acknowledge (hp : s.potExpire i msg ≤ told i) {r : Bool × Db ι}
    (ht : s.acknowledge i msg = some r) : Within told r.2 := by
  rw [acknowledge_eq] at ht
  exact (within_ackInvariant told).settles.settle (h.modify (.inl hp)) ht

/-- An acknowledgement of the peer, of a time that is counted in. -/
lemma Within.processBindAck (hm : ∀ i, msg.assignedAddr = some i → msg.has ftbRejectReason = false →
      (s.lease i).lastXid ≠ 0 → (s.lease i).lastXid = msg.xid → s.potExpire i msg ≤ told i)
    (ht : s.dhcpFailoverProcessBindAck msg = some t) : Within told t := by
  unfold dhcpFailoverProcessBindAck at ht
  cases hi : msg.assignedAddr with
  | none =>
    rw [hi] at ht
    exact some.inj ht ▸ h
  | some i =>
    rw [hi] at ht
    dsimp only at ht
    split_ifs at ht with hr hx
    · exact (within_ackInvariant told).unqueue h ht
    · exact some.inj ht ▸ h
    · simp only [Bool.or_eq_true, beq_iff_eq, not_or, Bool.not_eq_true] at hr
      obtain ⟨r, hr', ht⟩ := bind_eq_some_iff.mp ht
      have ha := h.acknowledge (hm i hi hr.1 hr.2 (not_not.mp hx)) hr'
      exact (within_ackInvariant told).unqueue ha ht

end

end Db

end IscDhcp
