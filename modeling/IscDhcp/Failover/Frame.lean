import IscDhcp.Failover.Updates

/-!
What the handling of binding updates leaves alone.

Sending updates, acknowledging them and losing the link change the failover state, the two
queues with their flags, the timeouts and a few fields of the leases. `Db.strip` forgets all
of these; everything else is the same before and after, which is stated once for each
function as the equality of what is left.
-/

namespace IscDhcp

variable {ι : Type}

/-- The lease without what the handling of binding updates may write. -/
def Lease.strip (l : Lease) : Lease :=
  { l with
    flags := { l.flags with onUpdateQueue := false, onAckQueue := false }
    lastXid := 0, desiredBindingState := .free, rewindBindingState := .free
    tsfp := minTime, sortTime := minTime }

def Peer.strip (p : Peer ι) : Peer ι :=
  { p with
    meState := .normal, meStos := minTime, savedState := ⟨.normal, FailoverState.normal_ne_startup⟩
    serviceState := .cooperating, linkToPeer := false, xid := 0, curUnackedUpdates := 0
    updateQueue := {}, ackQueue := {}, sendUpdateDone := none, updxid := 0, toackQueue := []
    pendingAcks := 0, sent := [] }

/-- The database without what the handling of binding updates may write. -/
def Db.strip (s : Db ι) : Db ι :=
  { s with
    lease := fun i => (s.lease i).strip
    pool := fun p => { s.pool p with nextEventTime := minTime }
    nextPending := fun _ => none
    peer := s.peer.strip
    timeouts := []
    io := [], log := [] }

lemma Lease.eq_of_strip {l l' : Lease} {β : Type} (h : l.strip = l'.strip) (f : Lease → β)
    (hf : ∀ l, f l.strip = f l := by intro; rfl) : f l = f l' := by
  rw [← hf l, h, hf l']

lemma Db.eq_of_strip {s t : Db ι} {β : Type} (h : t.strip = s.strip) (f : Db ι → β)
    (hf : ∀ s, f s.strip = f s := by intro; rfl) : f t = f s := by
  rw [← hf t, h, hf s]

namespace Db

variable [DecidableEq ι]

section

variable (s : Db ι) (i : ι)

lemma proj_modify {β : Type*} (g : Lease → β) {f : Lease → Lease} (hf : ∀ l, g (f l) = g l)
    (j : ι) : g ((s.modify i f).lease j) = g (s.lease j) := by
  by_cases h : j = i
  · subst h
    simp [modify, setLease, hf]
  · simp [modify, setLease, h]

lemma strip_modify {f : Lease → Lease} (hf : ∀ l, (f l).strip = l.strip := by exact fun _ => rfl) :
    (s.modify i f).strip = s.strip := by
  simp only [strip, s.proj_modify i Lease.strip hf]
  rfl

@[simp] lemma strip_ask : s.ask.2.strip = s.strip := by
  unfold ask
  split <;> rfl

@[simp] lemma strip_askAnd (e : Effect ι) : (s.askAnd e).2.strip = s.strip :=
  proj_askAnd strip (fun _ _ _ => rfl) s e

@[simp] lemma strip_setNextEventTime (p : ℕ) (t : Time) :
    (s.setNextEventTime p t).strip = s.strip := by
  have : (fun q => { (s.setNextEventTime p t).pool q with nextEventTime := minTime }) =
      fun q => { s.pool q with nextEventTime := minTime } := by
    funext q
    by_cases h : q = p
    · subst h
      simp [setNextEventTime, setPool]
    · simp [setNextEventTime, setPool, h]
  simp only [strip, this]
  rfl

@[simp] lemma strip_schedulePool (p : ℕ) (t : Time) :
    (s.schedulePool p t).strip = s.strip := s.strip_setNextEventTime p t

@[simp] lemma strip_setOnUpdateQueue (b : Bool) :
    (s.setOnUpdateQueue i b).strip = s.strip := s.strip_modify i

@[simp] lemma strip_setOnAckQueue (b : Bool) :
    (s.setOnAckQueue i b).strip = s.strip := s.strip_modify i

@[simp] lemma strip_writeLease : (s.writeLease i).2.strip = s.strip :=
  s.strip_askAnd _

@[simp] lemma strip_commitLeases : s.commitLeases.2.strip = s.strip := s.strip_askAnd _

end

/-! ### Changes of the failover state -/

variable [Fintype ι]

/-- No part of a change of the failover state without a link breaks `P`. -/
structure StateInvariant (P : Db ι → Prop) : Prop where
  ask : ∀ {s}, P s → P s.ask.2
  commitLeases : ∀ {s}, P s → P s.commitLeases.2
  states : ∀ {s} me stos saved service link, P s → P { s with peer := { s.peer with
    meState := me, meStos := stos, savedState := saved, serviceState := service
    linkToPeer := link } }
  rescind : ∀ {s}, P s → P s.dhcpFailoverRescindUpdates
  wait : ∀ {s} i t, P s → P (s.modify i (waitUntil t))
  schedulePool : ∀ {s} p t, P s → P (s.schedulePool p t)

namespace StateInvariant

variable {P : Db ι → Prop} (hP : StateInvariant P) {s : Db ι}
include hP

lemma writeState (h : P s) : P s.writeState.2 := by
  have ha := hP.ask h
  unfold Db.writeState writeFailoverState
  generalize s.ask = r at ha ⊢
  rcases r with ⟨_ | _, t⟩
  · exact ha
  · exact hP.commitLeases ha

lemma recordState (h : P s) (new : FailoverState) : P (s.recordState new).2 := by
  have hr : P s.rescindOnChange := by
    unfold rescindOnChange
    split
    exacts [hP.rescind h, hP.rescind h, hP.rescind h, h]
  unfold Db.recordState
  extract_lets u t
  have ht : P t.writeState.2 := hP.writeState (hP.states _ _ _ _ _ hr)
  generalize t.writeState = r at ht ⊢
  rcases r with ⟨_ | _, v⟩ <;> exact hP.states _ _ _ _ _ ht

lemma expirePartnerDown (h : P s) (p : ℕ) : P (s.expirePartnerDown p) := by
  unfold Db.expirePartnerDown
  split_ifs
  · extract_lets queue t
    have ht : P t := List.foldlRecOn _ _ h fun _ h i _ => hP.wait i _ h
    cases queue.head? with
    | none => exact ht
    | some i =>
      dsimp only
      split_ifs
      exacts [hP.schedulePool p _ ht, ht]
  · exact h

lemma setStateOffline (h : P s) (new : FailoverState) : P (s.setStateOffline new) := by
  have hr := hP.recordState h new
  unfold Db.setStateOffline
  generalize s.recordState new = r at hr ⊢
  split
  · split_ifs
    exacts [hr, hP.recordState hr _]
  · exact List.foldlRecOn _ _ hr fun _ h p _ => hP.expirePartnerDown h p
  · exact hr

lemma leaveStartup (h : P s) : P s.leaveStartup := by
  unfold Db.leaveStartup
  split_ifs
  exacts [hP.setStateOffline h _, h]

lemma disconnect (h : P s) : P s.disconnect := by
  unfold Db.disconnect
  extract_lets t
  have ht : P t := hP.states _ _ _ _ _ h
  split
  · exact hP.leaveStartup (hP.rescind ht)
  · exact hP.setStateOffline ht _
  · exact hP.setStateOffline ht _
  · exact hP.setStateOffline ht _
  · exact hP.leaveStartup ht

end StateInvariant

/-! ### Binding updates -/

/-- The two leases differ only in what the queues of updates keep in them. -/
def SameData (l l' : Lease) : Prop :=
  l.strip = l'.strip ∧ l.tsfp = l'.tsfp ∧ l.sortTime = l'.sortTime

/-- The failover states differ only in the queues, the link and the counters. -/
def SameStates (p p' : Peer ι) : Prop :=
  p.strip = p'.strip ∧ p.meState = p'.meState ∧ p.meStos = p'.meStos

omit [DecidableEq ι] [Fintype ι] in
lemma SameStates.mclt {p p' : Peer ι} (h : SameStates p p') : p.mclt = p'.mclt := by
  have hm : p.strip.mclt = p'.strip.mclt := by rw [h.1]
  exact hm

/-- No part of the handling of updates breaks `P`. -/
structure LinkInvariant (P : Db ι → Prop) : Prop where
  ask : ∀ {s}, P s → P s.ask.2
  writeLease : ∀ {s} i, P s → P (s.writeLease i).2
  commitLeases : ∀ {s}, P s → P s.commitLeases.2
  modify : ∀ {s f} i, P s → (hf : ∀ l, SameData (f l) l := by exact fun _ => ⟨rfl, rfl, rfl⟩) →
    P (s.modify i f)
  queues : ∀ {s} next p, P s → (hp : SameStates p s.peer := by exact ⟨rfl, rfl, rfl⟩) →
    P { s with nextPending := next, peer := p }
  disconnect : ∀ {s}, P s → P s.disconnect

namespace LinkInvariant

variable {P : Db ι → Prop} (hP : LinkInvariant P) {s : Db ι}
include hP

section

variable (h : P s)

include h

lemma setOnUpdateQueue (i : ι) (b : Bool) : P (s.setOnUpdateQueue i b) :=
  hP.modify i h fun _ => ⟨rfl, rfl, rfl⟩

lemma setOnAckQueue (i : ι) (b : Bool) : P (s.setOnAckQueue i b) :=
  hP.modify i h fun _ => ⟨rfl, rfl, rfl⟩

lemma putMessage (msg : OutMsg ι) : P (s.dhcpFailoverPutMessage msg).2 := by
  have ha := hP.ask h
  unfold dhcpFailoverPutMessage
  generalize s.ask = r at ha ⊢
  rcases r with ⟨_ | _, t⟩
  · exact hP.disconnect ha
  · exact hP.queues _ _ ha ⟨rfl, rfl, rfl⟩

lemma ackQueueRemove (i : ι) : P (s.dhcpFailoverAckQueueRemove i) := by
  unfold dhcpFailoverAckQueueRemove
  split_ifs
  · cases s.peer.ackQueue.remove (Fintype.card ι + 1) s.nextPending i with
    | none => exact h
    | some r =>
      dsimp -zeta only
      extract_lets _ t u
      have ht : P t := hP.queues _ _ h ⟨rfl, rfl, rfl⟩
      have hu : P u := hP.modify i ht fun _ => ⟨rfl, rfl, rfl⟩
      split_ifs
      exacts [hP.commitLeases hu, hu]
  · exact h

lemma stepRewind (i : ι) : P (s.stepRewind i) := by
  unfold Db.stepRewind
  split_ifs
  · exact hP.commitLeases (hP.writeLease i (hP.modify i h fun _ => ⟨rfl, rfl, rfl⟩))
  · exact h

lemma sendBindUpdate (i : ι) : P (s.dhcpFailoverSendBindUpdate i).2 := by
  unfold dhcpFailoverSendBindUpdate
  split_ifs
  · have hx : P (s.takeXid i) := by
      exact hP.queues _ _ (hP.modify i h fun _ => ⟨rfl, rfl, rfl⟩) ⟨rfl, rfl, rfl⟩
    exact hP.putMessage (hP.stepRewind hx i) _
  · exact h

lemma sendBindAck (msg : BndMsg ι) (reason : ℕ) (message : String) :
    P (s.dhcpFailoverSendBindAck msg reason message).2 := by
  unfold dhcpFailoverSendBindAck
  by_cases hl : s.peer.linkToPeer
  · rw [if_pos hl]
    exact hP.putMessage h _
  · rw [if_neg hl]
    exact h

lemma sendAcks : P s.dhcpFailoverSendAcks := by
  have hc := hP.commitLeases h
  unfold dhcpFailoverSendAcks
  generalize s.commitLeases = r at hc ⊢
  rcases r with ⟨_ | _, t⟩
  · exact hc
  · refine hP.queues _ _ (List.foldlRecOn _ _ ?_ fun _ h msg _ => hP.sendBindAck h msg 0 "")
      ⟨rfl, rfl, rfl⟩
    exact hP.queues _ _ hc ⟨rfl, rfl, rfl⟩

lemma queueAck (msg : BndMsg ι) : P (s.dhcpFailoverQueueAck msg) := by
  unfold dhcpFailoverQueueAck
  extract_lets t
  have ht : P t := hP.queues _ _ h ⟨rfl, rfl, rfl⟩
  split_ifs
  exacts [hP.sendAcks ht, ht]

lemma moveToAckQueue (lp : ι) : P (s.moveToAckQueue lp) := by
  refine hP.setOnAckQueue (hP.setOnUpdateQueue ?_ lp false) lp true
  exact hP.queues _ _ h ⟨rfl, rfl, rfl⟩

lemma sendQueued (n : ℕ) : P (sendQueued n s).2 := by
  induction n generalizing s with
  | zero => exact h
  | succ n ih =>
    unfold Db.sendQueued
    split_ifs
    · cases s.peer.updateQueue.head with
      | none => exact h
      | some lp =>
        have hs := hP.sendBindUpdate h lp
        dsimp only
        generalize s.dhcpFailoverSendBindUpdate lp = r at hs ⊢
        rcases r with ⟨_ | _, t⟩
        · exact hs
        · exact ih (hP.moveToAckQueue hs lp)
    · exact h

lemma sendUpdates : P s.dhcpFailoverSendUpdates.2 := by
  unfold dhcpFailoverSendUpdates
  split_ifs
  · exact hP.sendQueued h _
  · exact hP.sendQueued (hP.sendAcks h) _
  · exact h

lemma queueUpdate (i : ι) (immediate : Bool) : P (s.dhcpFailoverQueueUpdate i immediate) := by
  have ha : P ((s.dhcpFailoverAckQueueRemove i).appendUpdate i) := by
    refine hP.setOnUpdateQueue ?_ i true
    exact hP.queues _ _ (hP.ackQueueRemove h i) ⟨rfl, rfl, rfl⟩
  unfold dhcpFailoverQueueUpdate
  split_ifs
  · exact h
  · exact hP.sendUpdates ha
  · exact ha
  · exact h

end

end LinkInvariant

/-! ### What is left alone -/

variable (s : Db ι)

/-- What the flags and the queues of the updates do not touch. -/
lemma rescindUpdates_rec {P : Db ι → Prop} (h : P s)
    (hzap : ∀ t i, P t → P ((t.setOnAckQueue i false).setOnUpdateQueue i true))
    (hqueue : ∀ t next queue, P t → P { t with nextPending := next, peer := { t.peer with
      updateQueue := queue, ackQueue := {}, curUnackedUpdates := 0 } }) :
    P s.dhcpFailoverRescindUpdates := by
  unfold dhcpFailoverRescindUpdates
  cases s.peer.ackQueue.tail with
  | none => exact h
  | some tail => exact hqueue _ _ _ (List.foldlRecOn _ _ h fun t ht i _ => hzap t i ht)

lemma strip_rescindUpdates : s.dhcpFailoverRescindUpdates.strip = s.strip := by
  refine s.rescindUpdates_rec (P := (strip · = s.strip)) rfl (fun t i h => ?_) fun _ _ _ h => h
  rw [strip_setOnUpdateQueue, strip_setOnAckQueue, h]

lemma strip_stateInvariant : StateInvariant fun t : Db ι => t.strip = s.strip where
  ask h := (strip_ask _).trans h
  commitLeases h := (strip_commitLeases _).trans h
  states _ _ _ _ _ h := h
  rescind h := (strip_rescindUpdates _).trans h
  wait i t h := (strip_modify _ i (f := waitUntil t)).trans h
  schedulePool p t h := (strip_schedulePool _ p t).trans h

lemma strip_linkInvariant : LinkInvariant fun t : Db ι => t.strip = s.strip where
  ask h := (strip_ask _).trans h
  writeLease i h := (strip_writeLease _ i).trans h
  commitLeases h := (strip_commitLeases _).trans h
  modify i h hf := (strip_modify _ i fun l => (hf l).1).trans h
  queues _ _ h hp := by
    rw [← h]
    simp [strip, hp.1]
  disconnect h := s.strip_stateInvariant.disconnect h

lemma strip_recordState (new : FailoverState) : (s.recordState new).2.strip = s.strip :=
  s.strip_stateInvariant.recordState rfl new

@[simp] lemma strip_disconnect : s.disconnect.strip = s.strip :=
  s.strip_stateInvariant.disconnect rfl

@[simp] lemma strip_putMessage (msg : OutMsg ι) :
    (s.dhcpFailoverPutMessage msg).2.strip = s.strip := s.strip_linkInvariant.putMessage rfl msg

@[simp] lemma strip_ackQueueRemove (i : ι) :
    (s.dhcpFailoverAckQueueRemove i).strip = s.strip := s.strip_linkInvariant.ackQueueRemove rfl i

@[simp] lemma strip_sendBindAck (msg : BndMsg ι) (reason : ℕ) (message : String) :
    (s.dhcpFailoverSendBindAck msg reason message).2.strip = s.strip :=
  s.strip_linkInvariant.sendBindAck rfl msg reason message

@[simp] lemma strip_queueAck (msg : BndMsg ι) :
    (s.dhcpFailoverQueueAck msg).strip = s.strip := s.strip_linkInvariant.queueAck rfl msg

@[simp] lemma strip_sendUpdates : s.dhcpFailoverSendUpdates.2.strip = s.strip :=
  s.strip_linkInvariant.sendUpdates rfl

@[simp] lemma strip_queueUpdate (i : ι) (immediate : Bool) :
    (s.dhcpFailoverQueueUpdate i immediate).strip = s.strip :=
  s.strip_linkInvariant.queueUpdate rfl i immediate

end Db

end IscDhcp
