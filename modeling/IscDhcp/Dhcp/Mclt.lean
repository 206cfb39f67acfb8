import IscDhcp.Dhcp.Admit
import IscDhcp.Failover.Tsfp

/-!
The rule of the maximum client lead time (`mclt`): no client is promised a lease that ends more
than `mclt` after what the failover peer is known to reckon with.

It has two halves. What is offered is bounded by `tsfp`, which takes the arithmetic of `ack_lease`;
and `tsfp` is bounded by what the peer has said or acknowledged, which takes a history of the
messages of the peer.
-/

namespace IscDhcp.Dhcp

open Option

variable {ι : Type} [DecidableEq ι] [Fintype ι]

open Db (Within Told Allowed)

/-! ### What is offered -/

section Times

variable {curTime tsfp mclt leaseTime : ℕ}

lemma mcltTime_le : curTime + mcltTime curTime tsfp mclt leaseTime ≤ max curTime tsfp + mclt := by
  unfold mcltTime Time
  split_ifs <;> omega

lemma offeredExpiry_le : offeredExpiry curTime leaseTime ≤ curTime + leaseTime := by
  have hm : maxTime < infiniteTime := by decide
  unfold offeredExpiry expiryTime leaseTimeCheck
  split_ifs with h1 h2
  · exact hm.le.trans (h1 ▸ Nat.le_add_left ..)
  · rcases h2 with h2 | h2
    · exact (Nat.sub_le ..).trans (hm.le.trans h2)
    · exact absurd h2 (Nat.not_lt.mpr (Nat.le_add_right ..))
  · exact le_rfl

end Times

def Server.limit (s : Server ι) (i : ι) : Time :=
  max s.db.curTime (s.db.lease i).tsfp + s.db.peer.mclt

variable {s t u : Server ι} {i : ι} {offer : Offer} {cfg : Settings} {packet : Packet} {when : Time}
  {st : LeaseState}

variable {expiry cltt : Time} {lt : Lease} {o : Option LeaseState}

lemma sampleTimes_le (hb : offer ≠ .bootp) (hp : s.db.peered i = true) {lt' : Lease}
    (h : sampleTimes s.db i offer when cfg packet lt = some (lt', expiry)) :
    expiry ≤ s.limit i := by
  cases offer with
  | bootp => exact absurd rfl hb
  | dhcpoffer | dhcpack =>
    obtain ⟨leaseTime, -, h⟩ := map_eq_some_iff.mp h
    simp only [hp, Prod.mk.injEq] at h
    rw [← h.2]
    exact offeredExpiry_le.trans mcltTime_le

lemma finish_offered {bound : Bool}
    (h : s.finish i offer cfg cltt expiry bound = some (some st, t)) : st.offeredExpiry =
      expiry := by
  unfold Server.finish at h
  split_ifs at h
  · obtain ⟨u, -, hu⟩ := map_eq_some_iff.mp h
    obtain rfl := some.inj (Prod.mk.inj hu).1
    unfold makeState
    split_ifs <;> rfl
  · cases h

lemma conclude_offered (h : s.conclude i offer cfg packet cltt lt expiry = some (some st, t)) :
    let v := s.prepare i offer cfg packet
    if !(v.db.lease i).flags.staticLease && reusable (v.cannotReuse i) cfg (v.db.lease i) lt then
      st.offeredExpiry = (s.db.lease i).ends
    else st.offeredExpiry = expiry := by
  intro v
  change (if (v.db.lease i).flags.staticLease then _ else _) = _ at h
  cases hst : (v.db.lease i).flags.staticLease with
  | true =>
    rw [hst, if_pos rfl] at h
    exact finish_offered h
  | false =>
    rw [hst, if_neg Bool.false_ne_true] at h
    obtain ⟨⟨ok, bound, w⟩, hw, h⟩ := bind_eq_some_iff.mp h
    rcases install_cases hw with ⟨hr, rfl, rfl, rfl⟩ | ⟨hr, db, hdb, rfl, rfl⟩
    · rw [hr]
      exact (finish_offered h).trans (ends_prepare s i offer cfg packet)
    · rw [hr]
      cases ok with
      | false => cases h
      | true => exact finish_offered h

/-- An offer is in time, unless the lease is reused and was given for longer. The times are those
after the client was admitted. -/
lemma offered_iff {hp : Option ℕ} (hb : offer ≠ .bootp)
    (h : s.ackLease packet i offer when cfg hp = some (some st, t)) :
    ∃ u, s.admitClient packet i offer cfg (hp.or (s.db.lease i).host) = some (true, u) ∧
      (u.db.peered i = true → (st.offeredExpiry ≤ u.limit i ↔
        (u.reuses packet i offer when cfg (hp.or (s.db.lease i).host) = true →
          (u.db.lease i).ends ≤ u.limit i))) := by
  unfold Server.ackLease at h
  split_ifs at h
  · cases h
  obtain ⟨⟨ok, u⟩, hu, h⟩ := bind_eq_some_iff.mp h
  cases ok with
  | false => cases h
  | true =>
    refine ⟨u, hu, fun hpeer => ?_⟩
    dsimp only at h
    rw [if_pos rfl] at h
    unfold Server.reuses
    dsimp only
    generalize sampleClient u.db i offer cfg packet
      ((hp.or (s.db.lease i).host).or packet.host) = client at h ⊢
    cases htimes : sampleTimes u.db i offer when cfg packet client with
    | none =>
      rw [htimes] at h
      cases h
    | some r =>
      rw [htimes] at h
      have ho := conclude_offered h
      have hle := sampleTimes_le hb hpeer htimes
      dsimp only at ho ⊢
      split_ifs at ho with hr
      · simp [hr, ho]
      · simp [hr, ho, hle]

/-! ### What the peer knows -/

variable {told : ι → Time}

lemma within_admitInvariant (i : ι) (told : ι → Time) :
    AdmitInvariant i fun s : Server ι => Within told s.db where
  forget h := Within.keep (f := fun l =>
    { l with onExpiry := none, onCommit := none, onRelease := none }) h i fun _ => rfl
  releaseLease h hdb := h.releaseLease hdb
  unbillClass h := h.unbillClass i
  billClass c h := h.billClass i c
  cannotReuse := id

lemma sampleTimes_allowed {db : Db ι} (h : Allowed told db i (db.lease i).tsfp) {lt' : Lease}
    (hlt : lt.tsfp = minTime)
    (ht : sampleTimes db i offer when cfg packet lt = some (lt', expiry)) :
    Allowed told db i lt'.tsfp := by
  have hz : Allowed told db i lt.tsfp := hlt ▸ .zero
  have hf (leaseTime : Time) : Allowed told db i
      (failoverTimes db offer (db.lease i) leaseTime lt).tsfp := by
    unfold failoverTimes
    extract_lets new tstp tsfp
    have hle : tsfp ≤ (db.lease i).tsfp := by
      simp only [tsfp]
      split_ifs with hr
      exacts [hr.2.le, le_rfl]
    exact h.of_le hle
  cases offer with
  | bootp =>
    cases ht
    exact hz
  | dhcpoffer | dhcpack =>
    obtain ⟨leaseTime, -, ht⟩ := map_eq_some_iff.mp ht
    cases ht
    dsimp only
    split_ifs
    exacts [hf leaseTime, hz]

section

variable (h : Within told s.db)

include h

lemma within_dhcpReply (ht : s.dhcpReply i = some t) : Within told t.db := by
  obtain ⟨st, -, rfl⟩ := map_eq_some_iff.mp ht
  exact h.of_same ⟨fun _ => rfl, rfl, rfl, rfl⟩

lemma within_delayedAcksTimer : Within told s.delayedAcksTimer.db := by
  have hL := Db.within_linkInvariant told
  have hd {u : Server ι} (hu : Within told u.db) (j : ι) : Within told (u.sendDelayed j).db := by
    have hs : Within told (u.sendDeferred j).db := by
      unfold Server.sendDeferred
      split_ifs
      exacts [hL.sendUpdates hu, hu]
    unfold Server.sendDelayed
    dsimp only
    cases hr : (u.sendDeferred j).dhcpReply j with
    | none => exact hs
    | some w => exact within_dhcpReply hs hr
  unfold Server.delayedAcksTimer
  split_ifs
  · exact h
  · exact List.foldlRecOn (motive := fun t : Server ι => Within told t.db) s.ackqueue.reverse
      Server.sendDelayed (hL.commitLeases h) fun _ hu j _ => hd hu j

lemma within_answer {bound enqueue : Bool}
    (ht : s.answer i cfg st cltt bound enqueue = some t) : Within told t.db := by
  have hh : Within told (s.hold i st bound).db :=
    h.keep i (f := fun l => { l with cltt := s.db.curTime }) fun _ => rfl
  unfold Server.answer at ht
  split_ifs at ht
  · exact some.inj ht ▸ h
  · cases ht
    have hw := (Db.within_linkInvariant told).writeLease i hh
    unfold Server.delayedAckEnqueue
    generalize (s.hold i st bound).db.writeLease i = r at hw ⊢
    rcases r with ⟨_ | _, db⟩
    · exact hw
    · unfold Server.flushAcks
      dsimp only
      split_ifs
      exacts [within_delayedAcksTimer hw, hw]
  · exact within_dhcpReply hh ht

lemma within_finish {bound : Bool}
    (ht : s.finish i offer cfg cltt expiry bound = some (o, t)) : Within told t.db := by
  unfold Server.finish at ht
  split_ifs at ht
  · obtain ⟨u, hu, ht⟩ := map_eq_some_iff.mp ht
    cases ht
    exact within_answer h hu
  · cases ht
    exact h

lemma within_update {r : Bool × Db ι} (hl : Allowed told s.db i lt.tsfp)
    (hr : s.update i offer lt = some r) : Within told r.2 := by
  have hlt : ∀ l ∈ some lt, Allowed told s.db i l.tsfp := fun l hl' => some.inj hl' ▸ hl
  unfold Server.update at hr
  split_ifs at hr
  all_goals exact h.supersedeLease hlt (show _ = some (r.1, r.2) from hr)

lemma within_conclude (hl : Allowed told s.db i lt.tsfp)
    (ht : s.conclude i offer cfg packet cltt lt expiry = some (o, t)) : Within told t.db := by
  have hp : Within told (s.prepare i offer cfg packet).db ∧
      Allowed told (s.prepare i offer cfg packet).db i lt.tsfp := by
    unfold Server.prepare
    split_ifs <;> exact ⟨h.keep i fun _ => rfl, hl⟩
  unfold Server.conclude at ht
  dsimp only at ht
  generalize s.prepare i offer cfg packet = v at hp ht
  split_ifs at ht
  · refine within_finish (h := hp.1.keep i (f := fun l => { l with hardwareAddr := _ }) ?_) ht
    exact fun _ => rfl
  · obtain ⟨⟨ok, bound, w⟩, hw, ht⟩ := bind_eq_some_iff.mp ht
    have hwi : Within told w.db := by
      rcases install_cases hw with ⟨-, -, -, rfl⟩ | ⟨-, db, hdb, -, rfl⟩
      · exact hp.1.keep i fun _ => rfl
      · exact within_update hp.1 hp.2 hdb
    dsimp only at ht
    split_ifs at ht
    all_goals first
      | exact within_finish hwi ht
      | (cases ht; exact hwi)

lemma within_ackLease {hp : Option ℕ}
    (ht : s.ackLease packet i offer when cfg hp = some (o, t)) : Within told t.db := by
  unfold Server.ackLease at ht
  split_ifs at ht
  · cases ht
    exact h
  obtain ⟨⟨ok, u⟩, hu, ht⟩ := bind_eq_some_iff.mp ht
  have hw : Within told u.db := (within_admitInvariant i told).admitClient h hu
  cases ok with
  | false =>
    cases ht
    exact hw
  | true =>
    dsimp only at ht
    rw [if_pos rfl] at ht
    split at ht
    · cases ht
      exact hw
    · next lt expiry htimes =>
      exact within_conclude hw (sampleTimes_allowed (hw i) rfl htimes) ht

end

/-! ### Runs -/

/-- A server, and for each lease the latest potential expiry time that the peer has sent in an
update or has acknowledged. -/
structure Watched (ι : Type) where
  server : Server ι
  told : ι → Time

/-- What may happen to a server with a failover peer. -/
inductive Act (ι : Type)
  | ackLease (packet : Packet) (i : ι) (offer : Offer) (when : Time) (cfg : Settings)
      (hp : Option ℕ)
  | delayedAcksTimer
  | leasePingTimeout (i : ι)
  | leasePinged (i : ι)
  | releaseLease (i : ι)
  | abandonLease (i : ι)
  | poolTimer (p : ℕ)
  | setTime (c : Time)
  /-- One step of the balancing of a pool. -/
  | rebalance (i : ι) (next : BindingState)
  | sendUpdates
  | sendAcks
  | updateRequest (everythingp : Bool) (xid : ℕ)
  | bindUpdate (msg : BndMsg ι)
  | bindAck (msg : BndMsg ι)
  | changeState (new : FailoverState)
  | connect (mclt : Time)
  | disconnect

def hearUpdate (told : ι → Time) (msg : BndMsg ι) : ι → Time :=
  match msg.assignedAddr with
  | none => told
  | some i =>
    if msg.has ftbPotentialExpiry then Function.update told i (max (told i) msg.potentialExpiry)
    else told

/-- The potential expiry times of the updates that the message acknowledges. -/
def acknowledgedTimes (s : Db ι) (i : ι) (msg : BndMsg ι) : List Time :=
  s.peer.sent.filterMap fun
    | .bndupd m => if m.xid = msg.xid ∧ m.assignedAddr =
        some i then some m.potentialExpiry else none
    | .bndack _ | .upddone _ => none

/-- The peer has acknowledged an update, perhaps with a time of its own. -/
def hearAck (told : ι → Time) (s : Db ι) (msg : BndMsg ι) : ι → Time :=
  match msg.assignedAddr with
  | none => told
  | some i =>
    if msg.has ftbRejectReason then told
    else
      let own := if msg.has ftbPotentialExpiry then msg.potentialExpiry else 0
      Function.update told i ((acknowledgedTimes s i msg).foldr max (max (told i) own))

namespace Watched

def setDb (x : Watched ι) (db : Db ι) : Watched ι := { x with server := x.server.setDb db }

/-- `none` is a fatal error. -/
def act (x : Watched ι) : Act ι → Option (Watched ι)
  | .ackLease packet i offer when cfg hp =>
    (x.server.ackLease packet i offer when cfg hp).map fun r => { x with server := r.2 }
  | .delayedAcksTimer => some { x with server := x.server.delayedAcksTimer }
  | .leasePingTimeout i => (x.server.leasePingTimeout i).map fun s => { x with server := s }
  | .leasePinged i => (x.server.leasePinged i).map fun s => { x with server := s }
  | .releaseLease i => (x.server.db.releaseLease i).map x.setDb
  | .abandonLease i => (x.server.db.abandonLease i).map x.setDb
  | .poolTimer p => (x.server.db.poolTimer p).map x.setDb
  | .setTime c => some (x.setDb { x.server.db with curTime := c })
  | .rebalance i next =>
    let db := x.server.db.modify i fun l =>
      { l with
        nextBindingState := next, tstp := x.server.db.curTime, starts := x.server.db.curTime }
    (db.supersedeLease i none false true false).map fun r => x.setDb (r.2.writeLease i).2
  | .sendUpdates => some (x.setDb x.server.db.dhcpFailoverSendUpdates.2)
  | .sendAcks => some (x.setDb x.server.db.dhcpFailoverSendAcks)
  | .updateRequest everythingp xid => some (x.setDb (x.server.db.processRequest everythingp xid))
  | .bindUpdate msg =>
    (x.server.db.dhcpFailoverProcessBindUpdate msg).map fun db =>
      { server := x.server.setDb db, told := hearUpdate x.told msg }
  | .bindAck msg =>
    (x.server.db.dhcpFailoverProcessBindAck msg).map fun db =>
      { server := x.server.setDb db, told := hearAck x.told x.server.db msg }
  | .changeState new => some (x.setDb (x.server.db.changeState new))
  | .connect mclt =>
    some (x.setDb (x.server.db.modifyPeer fun p => { p with linkToPeer := true, mclt := mclt }))
  | .disconnect => some (x.setDb x.server.db.disconnect)

/-- An acknowledgement is for the `tstp` that the lease has, and partner-down is not left, nor its
waiting time changed, while a `tsfp` is due to it. -/
def Sound (x : Watched ι) : Act ι → Prop
  | .bindAck msg => ∀ i, msg.assignedAddr = some i → msg.has ftbRejectReason = false →
    (x.server.db.lease i).lastXid ≠ 0 → (x.server.db.lease i).lastXid = msg.xid →
    if msg.has Db.ftoPotentialExpiry then msg.has ftbPotentialExpiry = true ∨
      msg.potentialExpiry = 0
    else ∃ m, .bndupd m ∈ x.server.db.peer.sent ∧ m.xid = msg.xid ∧ m.assignedAddr = some i ∧
      (x.server.db.lease i).tstp ≤ m.potentialExpiry
  | .changeState _ | .connect _ =>
    x.server.db.peer.meState = .partnerDown → Told x.told x.server.db
  | _ => True

def Step (x y : Watched ι) : Prop := ∃ a, x.act a = some y

def SoundStep (x y : Watched ι) : Prop := ∃ a, x.act a = some y ∧ x.Sound a

end Watched

lemma le_update_max (told : ι → Time) (i j : ι) {b : Time} (h : told i ≤ b) :
    told j ≤ Function.update told i b j := by
  by_cases hj : j = i
  · subst hj
    rwa [Function.update_self]
  · rw [Function.update_of_ne hj]

lemma le_hearUpdate (told : ι → Time) (msg : BndMsg ι) (j : ι) : told j ≤ hearUpdate told msg
    j := by
  unfold hearUpdate
  cases msg.assignedAddr with
  | none => exact le_rfl
  | some i =>
    split_ifs
    exacts [le_update_max told i j (le_max_left ..), le_rfl]

lemma le_foldr_max (l : List Time) (b : Time) : b ≤ l.foldr max b ∧ ∀ x ∈ l, x ≤ l.foldr max b := by
  induction l with
  | nil => exact ⟨le_rfl, by simp⟩
  | cons x l ih =>
    refine ⟨ih.1.trans (le_max_right ..), fun y hy => ?_⟩
    rcases List.mem_cons.mp hy with rfl | hy
    · exact le_max_left ..
    · exact (ih.2 y hy).trans (le_max_right ..)

lemma le_hearAck (told : ι → Time) (db : Db ι) (msg : BndMsg ι) (j : ι) :
    told j ≤ hearAck told db msg j := by
  unfold hearAck
  cases msg.assignedAddr with
  | none => exact le_rfl
  | some i =>
    dsimp -zeta only
    by_cases hr : msg.has ftbRejectReason = true
    · rw [if_pos hr]
    · rw [if_neg hr]
      exact le_update_max told i j ((le_max_left ..).trans (le_foldr_max _ _).1)

lemma within_mono {told' : ι → Time} (h : Within told s.db) (hle : ∀ j, told j ≤ told' j) :
    Within told' s.db :=
  fun j => (h j).imp (fun ht => ht.trans (hle j)) id

/-- An acknowledgement that is sound is for a time that the peer has acknowledged. -/
lemma potExpire_le {x : Watched ι} {msg : BndMsg ι} (h : x.Sound (.bindAck msg))
    (hi : msg.assignedAddr = some i) (hr : msg.has ftbRejectReason = false)
    (hx : (x.server.db.lease i).lastXid ≠ 0) (hxid : (x.server.db.lease i).lastXid = msg.xid) :
    x.server.db.potExpire i msg ≤ hearAck x.told x.server.db msg i := by
  have hs := h i hi hr hx hxid
  unfold Db.potExpire hearAck
  simp only [hi, hr, Bool.false_eq_true, if_false, Function.update_self]
  split_ifs at hs ⊢ with hf hp hp
  · exact (le_max_right ..).trans (le_foldr_max _ _).1
  · rw [hs.resolve_left hp]
    exact Nat.zero_le _
  all_goals
    obtain ⟨m, hm, hmx, hma, hle⟩ := hs
    refine hle.trans ((le_foldr_max _ _).2 _ ?_)
    exact List.mem_filterMap.mpr ⟨_, hm, by simp [hmx, hma]⟩

lemma within_processRequest {db : Db ι} (h : Within told db) (everythingp : Bool) (xid : ℕ) :
    Within told (db.processRequest everythingp xid) := by
  have hL := Db.within_linkInvariant told
  have ho {db : Db ι} (q : Queue) (j : ι) (h : Within told db) :
      Within told (db.offerLease everythingp q j) := by
    unfold Db.offerLease
    dsimp only
    split_ifs
    · refine hL.queueUpdate (h.keep j ?_) j false
      exact fun _ => rfl
    · exact h
  have hp {db : Db ι} (p : ℕ) (h : Within told db) : Within told (db.offerPool everythingp p) := by
    unfold Db.offerPool
    split_ifs
    · refine List.foldlRecOn _ _ h fun _ h q _ => ?_
      exact List.foldlRecOn _ _ h fun _ h j _ => ho q j h
    · exact h
  have hq : Within told (db.queueRequested everythingp xid) := by
    have h0 : Within told (db.modifyPeer fun p => { p with sendUpdateDone := none }) :=
      h.of_same ⟨fun _ => rfl, rfl, rfl, rfl⟩
    exact Within.of_same (List.foldlRecOn _ _ h0 fun _ h p _ => hp p h)
      ⟨fun _ => rfl, rfl, rfl, rfl⟩
  unfold Db.processRequest
  dsimp only
  split
  · exact hL.sendUpdates (hq.of_same ⟨fun _ => rfl, rfl, rfl, rfl⟩)
  · exact (Db.within_ackInvariant told).sendUpdateDone hq

lemma within_step {x y : Watched ι} (h : Within x.told x.server.db) (hxy : x.SoundStep y) :
    Within y.told y.server.db := by
  have hL := Db.within_linkInvariant x.told
  obtain ⟨a, ha, hs⟩ := hxy
  cases a with
  | ackLease packet i offer when cfg hp =>
    obtain ⟨r, hr, rfl⟩ := map_eq_some_iff.mp ha
    exact within_ackLease h hr
  | delayedAcksTimer =>
    cases ha
    exact within_delayedAcksTimer h
  | leasePingTimeout i =>
    obtain ⟨s, hs, rfl⟩ := map_eq_some_iff.mp ha
    exact within_dhcpReply (s := { x.server with
      pinged := _, outstandingPings := x.server.outstandingPings - 1 }) h hs
  | leasePinged i =>
    obtain ⟨s, hs, rfl⟩ := map_eq_some_iff.mp ha
    unfold Server.leasePinged at hs
    split_ifs at hs
    · exact some.inj hs ▸ h
    · obtain ⟨db, hdb, rfl⟩ := map_eq_some_iff.mp hs
      exact Within.abandonLease h hdb
  | releaseLease i =>
    obtain ⟨db, hdb, rfl⟩ := map_eq_some_iff.mp ha
    exact h.releaseLease hdb
  | abandonLease i =>
    obtain ⟨db, hdb, rfl⟩ := map_eq_some_iff.mp ha
    exact h.abandonLease hdb
  | poolTimer p =>
    obtain ⟨db, hdb, rfl⟩ := map_eq_some_iff.mp ha
    exact h.poolTimer hdb
  | setTime c =>
    cases ha
    exact h.of_same ⟨fun _ => rfl, rfl, rfl, rfl⟩
  | rebalance i next =>
    obtain ⟨r, hr, rfl⟩ := map_eq_some_iff.mp ha
    refine hL.writeLease i (Within.move (h.keep i ?_) hr)
    exact fun _ => rfl
  | sendUpdates =>
    cases ha
    exact hL.sendUpdates h
  | sendAcks =>
    cases ha
    exact hL.sendAcks h
  | updateRequest everythingp xid =>
    cases ha
    exact within_processRequest h everythingp xid
  | bindUpdate msg =>
    obtain ⟨db, hdb, rfl⟩ := map_eq_some_iff.mp ha
    refine (within_mono h (le_hearUpdate x.told msg)).processBindUpdate (fun i hi hp => ?_) hdb
    simp only [hearUpdate, hi, hp, if_true, Function.update_self]
    exact le_max_right ..
  | bindAck msg =>
    obtain ⟨db, hdb, rfl⟩ := map_eq_some_iff.mp ha
    exact (within_mono h (le_hearAck x.told x.server.db msg)).processBindAck
      (fun i hi hr hx hxid => potExpire_le hs hi hr hx hxid) hdb
  | changeState new =>
    cases ha
    exact h.changeState hs new
  | connect mclt =>
    cases ha
    have ht : Told x.told x.server.db := by
      by_cases hp : x.server.db.peer.meState = .partnerDown
      exacts [hs hp, h.of_not_partnerDown hp]
    exact Told.within ht
  | disconnect =>
    cases ha
    exact Db.within_disconnect h

/-- **The rule of the maximum client lead time**: in every run in which acknowledgements of the
peer are for the `tstp` that the lease has, and partner-down is not left while a `tsfp` is due to
it, no `tsfp` is later than a potential expiry time that the peer has sent or acknowledged, or in
partner-down than `mclt` after its start; and what `ack_lease` offers ends at most `mclt` after
`tsfp` and the present, exactly unless it reuses a lease that ends later. -/
theorem mclt_rule {x₀ x : Watched ι} (h₀ : Within x₀.told x₀.server.db)
    (hrun : Relation.ReflTransGen Watched.SoundStep x₀ x) : Within x.told x.server.db ∧
      ∀ (packet : Packet) (i : ι) (offer : Offer) (when : Time) (cfg : Settings) (hp : Option ℕ)
        (st : LeaseState) (t : Server ι), offer ≠ .bootp →
        x.server.ackLease packet i offer when cfg hp = some (some st, t) →
        ∃ u, x.server.admitClient packet i offer cfg (hp.or (x.server.db.lease i).host) =
          some (true, u) ∧
          (u.db.peered i = true → (st.offeredExpiry ≤ u.limit i ↔
            (u.reuses packet i offer when cfg (hp.or (x.server.db.lease i).host) = true →
              (u.db.lease i).ends ≤ u.limit i))) := by
  refine ⟨?_, fun packet i offer when cfg hp st t hb h => offered_iff hb h⟩
  induction hrun with
  | refl => exact h₀
  | tail _ hst ih => exact within_step ih hst

/-- A server with one lease, which it shares with a peer that has said nothing yet. -/
def sharedLease (l : Lease) (q : Queue) : Watched Unit where
  server :=
    { db :=
        { lease := fun _ => { l with pool := some 0 }
          pool := fun _ => { queue := fun r => if r = q then [()] else [], failoverPeer := true }
          curTime := 1000
          peer := { mclt := 60 } } }
  told := fun _ => 0

def sharedPacket : Packet := { request := true, hardwareAddr := [1, 2, 3] }

def Watched.runs (x : Watched Unit) (acts : List (Act Unit)) : Watched Unit :=
  acts.foldl (fun x a => (x.act a).getD x) x

lemma step_runs {x : Watched Unit} {a : Act Unit} (h : (x.act a).isSome) : x.Step (x.runs [a]) := by
  obtain ⟨y, hy⟩ := isSome_iff_exists.mp h
  exact ⟨a, by simp [Watched.runs, hy]⟩

theorem mclt_rule_sample :
    let x := (sharedLease {} .free).runs [.ackLease sharedPacket () .dhcpack 0 {} none]
    Within x.told x.server.db ∧ (x.server.db.lease ()).ends = 1060 := by
  intro x
  have hs : (sharedLease {} .free).SoundStep x := by
    obtain ⟨y, hy⟩ : ∃ y,
      (sharedLease {} .free).act (.ackLease sharedPacket () .dhcpack 0 {} none) =
        some y := isSome_iff_exists.mp (by decide +kernel)
    exact ⟨.ackLease sharedPacket () .dhcpack 0 {} none, by simp [x, Watched.runs, hy], trivial⟩
  have h0 : Within (sharedLease {} .free).told (sharedLease {} .free).server.db :=
    fun _ => .inl le_rfl
  exact ⟨(mclt_rule h0 (Relation.ReflTransGen.refl.tail hs)).1, by decide +kernel⟩

/-- A lease that was given to a BOOTP client for ever, which makes its `tsfp` zero, is promised to
it for ever again when it uses DHCP; and after partner-down an expired lease keeps a `tsfp` that the
peer has never heard of. -/
theorem mclt_rule_broken : (∃ (x : Watched Unit) (st : LeaseState) (t u : Server Unit),
      Relation.ReflTransGen Watched.Step (sharedLease {} .free) x ∧
      x.server.ackLease sharedPacket () .dhcpack 0 {} none = some (some st, t) ∧
      x.server.admitClient sharedPacket () .dhcpack {} none = some (true, u) ∧
      u.db.peered () = true ∧ u.limit () = 1060 ∧ st.offeredExpiry = maxTime) ∧
    ∃ x : Watched Unit,
      Relation.ReflTransGen Watched.Step
        (sharedLease { bindingState := .expired, nextBindingState := .free, ends := 500 } .expired)
          x ∧
      x.server.db.peer.meState = .normal ∧ x.told () = 0 ∧ (x.server.db.lease ()).tsfp = 1060 := by
  constructor
  · let x := (sharedLease {} .free).runs [.ackLease sharedPacket () .bootp 0 {} none]
    have h : ((x.server.ackLease sharedPacket () .dhcpack 0 {} none).any fun r =>
        r.1.any fun st => st.offeredExpiry = maxTime) ∧
        ((x.server.admitClient sharedPacket () .dhcpack {} none).any fun r =>
          r.1 && r.2.db.peered () && r.2.limit () == 1060) := by
      decide +kernel
    simp only [any_eq_true, Prod.exists, decide_eq_true_iff, Bool.and_eq_true, beq_iff_eq] at h
    obtain ⟨⟨o, t, ht, st, rfl, hst⟩, b, u, hu, ⟨rfl, hp⟩, hl⟩ := h
    exact ⟨x, st, t, u, .tail .refl (step_runs (by decide +kernel)), ht, hu, hp, hl, hst⟩
  · let x0 :=
      sharedLease { bindingState := .expired, nextBindingState := .free, ends := 500 } .expired
    let x1 := x0.runs [.changeState .partnerDown]
    refine ⟨x1.runs [.changeState .normal], ?_, by decide +kernel, by decide +kernel,
      by decide +kernel⟩
    exact (Relation.ReflTransGen.refl.tail (step_runs rfl)).tail (step_runs rfl)

end IscDhcp.Dhcp
