import IscDhcp.Failover.PendingRun
import IscDhcp.Failover.Progress

/-!
Runs of the functions that move leases between the update queue and the ack queue, with
messages from the peer, lease updates and anything that happens to the link in between.
-/

namespace IscDhcp

open IscDhcp.Lib Option

variable {ι : Type}

/-- What the pointers of the peer and the links say: the update queue is `u`, the ack queue `a`. -/
structure UpdateQueues (s : Db ι) (u a : List ι) : Prop where
  update : Chain s.nextPending s.peer.updateQueue.head u
  ack : Chain s.nextPending s.peer.ackQueue.head a
  nodup : u.Nodup ∧ a.Nodup
  disjoint : ∀ i ∈ u, i ∉ a
  onUpdate : ∀ i, (s.lease i).flags.onUpdateQueue = true ↔ i ∈ u
  onAck : ∀ i, (s.lease i).flags.onAckQueue = true ↔ i ∈ a
  updateNull : s.peer.updateQueue.head = none ↔ s.peer.updateQueue.tail = none
  updateTail : s.peer.updateQueue.tail = u.getLast?
  ackNull : s.peer.ackQueue.head = none ↔ s.peer.ackQueue.tail = none
  ackTail : s.peer.ackQueue.tail = a.getLast?
  unacked : s.peer.curUnackedUpdates = a.length

structure NoUpdates (s : Db ι) : Prop where
  updateQueue : s.peer.updateQueue = {}
  ackQueue : s.peer.ackQueue = {}
  curUnackedUpdates : s.peer.curUnackedUpdates = 0
  nextPending : ∀ i, s.nextPending i = none
  flags : ∀ i, (s.lease i).flags.onUpdateQueue = false ∧ (s.lease i).flags.onAckQueue = false

lemma NoUpdates.pending {s : Db ι} (h : NoUpdates s) : s.Pending := by
  have hq (q : PtrQueue ι) (hq : q = {}) : q.Holds s.nextPending [] := by
    subst hq
    exact ⟨rfl, rfl⟩
  refine ⟨[], [], hq _ h.updateQueue, hq _ h.ackQueue, fun i => ?_, fun i => ?_, by simp,
    fun i _ _ => h.nextPending i, h.curUnackedUpdates⟩
  · simp [Db.pend, h.flags i]
  · simp [Db.pend, h.flags i]

lemma Db.Pending.updateQueues {s : Db ι} (h : s.Pending) : ∃ u a, UpdateQueues s u a := by
  obtain ⟨u, a, h⟩ := h
  exact ⟨u, a, h.update.chain, h.ack.chain, ⟨h.update.chain.nodup, h.ack.chain.nodup⟩, h.disjoint,
    h.onUpdate, h.onAck, h.update.null, h.update.tail, h.ack.null,
    h.ack.tail, h.unacked⟩

namespace UpdateRun

/-- The calls, and what may happen between them: lease updates, the loss of the link, and in
`d` seconds a new link and changes of the failover state. -/
inductive Op (ι : Type)
  | queueUpdate (i : ι) (immediate : Bool)
  | sendUpdates
  | ackQueueRemove (i : ι)
  | rescindUpdates
  | bindUpdate (msg : BndMsg ι)
  | bindAck (msg : BndMsg ι)
  | supersede (comp : ι) (lease : Option Lease) (commit propogate pimmediate : Bool)
  | timer (p : ℕ)
  | desire (i : ι) (state : BindingState)
  | disconnect
  | pass (d : ℕ) (peer : Peer ι) (io : List Bool)

variable [DecidableEq ι] [Fintype ι]

/-- `none` is a fatal error. -/
def step (s : Db ι) : Op ι → Option (Db ι)
  | .queueUpdate i immediate => some (s.dhcpFailoverQueueUpdate i immediate)
  | .sendUpdates => some s.dhcpFailoverSendUpdates.2
  | .ackQueueRemove i => some (s.dhcpFailoverAckQueueRemove i)
  | .rescindUpdates => some s.dhcpFailoverRescindUpdates
  | .bindUpdate msg => s.dhcpFailoverProcessBindUpdate msg
  | .bindAck msg => s.dhcpFailoverProcessBindAck msg
  | .supersede comp lease commit propogate pimmediate =>
    (s.supersedeLease comp lease commit propogate pimmediate).map Prod.snd
  | .timer p => s.poolTimer p
  | .desire i state => some (s.modify i fun l => { l with desiredBindingState := state })
  | .disconnect => some s.disconnect
  | .pass d peer io => some
    { s with
      curTime := s.curTime + d
      io := io
      -- the queues are this server's own
      peer := { peer with
        updateQueue := s.peer.updateQueue, ackQueue := s.peer.ackQueue
        curUnackedUpdates := s.peer.curUnackedUpdates } }

def run (s : Db ι) (ops : List (Op ι)) : Option (Db ι) := ops.foldlM step s

lemma step_pending {s t : Db ι} (h : s.Pending) {op : Op ι} (ht : step s op = some t) :
    t.Pending := by
  cases op with
  | queueUpdate i immediate =>
    exact h.of_from fun _ hl => some.inj ht ▸ hl.queueUpdate trivial immediate
  | sendUpdates => exact h.of_from fun _ hl => some.inj ht ▸ hl.sendUpdates
  | ackQueueRemove i => exact some.inj ht ▸ h.ackQueueRemove i
  | rescindUpdates => exact h.of_from fun _ hl => some.inj ht ▸ hl.rescindUpdates
  | bindUpdate msg => exact h.processBindUpdate ht
  | bindAck msg => exact h.processBindAck ht
  | supersede comp lease commit propogate pimmediate =>
    obtain ⟨⟨ok, v⟩, hv, rfl⟩ := map_eq_some_iff.mp ht
    exact h.of_from fun _ hl => hl.supersedeLease (fun _ => trivial) hv
  | timer p =>
    exact h.of_from fun _ hl => (Db.from_moveInvariant fun _ => trivial).poolTimer hl ht
  | desire i state =>
    cases ht
    exact h.of_from fun _ hl => hl.modify fun _ => rfl
  | disconnect => exact h.of_from fun _ hl => some.inj ht ▸ hl.disconnect
  | pass d peer io =>
    obtain ⟨u, a, h⟩ := h
    cases ht
    exact ⟨u, a, h⟩

/-- One step is fatal only if an update is about a state that does not exist. -/
lemma step_returns {s : Db ι} (h : s.Running) {op : Op ι}
    (hop : ∀ msg, op = .bindUpdate msg → s.StatesExist msg) : Db.Returns (step s op) := by
  have strip {t : Db ι} (he : t.strip = s.strip) : Db.Returns (some t) := ⟨t, rfl, h.of_strip he⟩
  cases op with
  | queueUpdate i immediate => exact strip (s.strip_queueUpdate i immediate)
  | sendUpdates => exact strip s.strip_sendUpdates
  | ackQueueRemove i => exact strip (s.strip_ackQueueRemove i)
  | rescindUpdates => exact strip s.strip_rescindUpdates
  | bindUpdate msg => exact h.processBindUpdate (hop msg rfl)
  | bindAck msg => exact h.processBindAck msg
  | supersede comp lease commit propogate pimmediate =>
    obtain ⟨ok, t, ht, hr⟩ := h.supersedeLease comp lease commit propogate pimmediate
    exact ⟨t, by rw [step, ht]; rfl, hr⟩
  | timer p =>
    obtain ⟨t, ht, hk⟩ := Db.poolTimer_keeps h p
    exact ⟨t, ht, hk.1⟩
  | desire i state =>
    exact strip (s.strip_modify i)
  | disconnect => exact strip s.strip_disconnect
  | pass d peer io =>
    exact ⟨_, rfl, { h.queued with }, h.ssQfollow⟩

lemma run_pending {s t : Db ι} (h : s.Pending) {ops : List (Op ι)} (ht : run s ops = some t) :
    t.Pending := by
  induction ops generalizing s with
  | nil => exact some.inj ht ▸ h
  | cons op ops ih =>
    simp only [run, List.foldlM_cons, bind_eq_bind, bind_eq_some_iff] at ht
    obtain ⟨v, hv, ht⟩ := ht
    exact ih (step_pending h hv) ht

lemma run_stops {s : Db ι} (h : s.Running) {ops : List (Op ι)} (hr : run s ops = none) :
    ∃ ops₁ msg ops₂ t, ops = ops₁ ++ .bindUpdate msg :: ops₂ ∧ run s ops₁ = some t ∧
      ¬ t.StatesExist msg := by
  induction ops generalizing s with
  | nil => cases hr
  | cons op ops ih =>
    by_cases hop : ∀ msg, op = .bindUpdate msg → s.StatesExist msg
    · obtain ⟨v, hv, hvr⟩ := step_returns h hop
      rw [run, List.foldlM_cons, hv] at hr
      obtain ⟨ops₁, msg, ops₂, t, rfl, ht, hn⟩ := ih hvr hr
      refine ⟨op :: ops₁, msg, ops₂, t, rfl, ?_, hn⟩
      rw [run, List.foldlM_cons, hv]
      exact ht
    · push Not at hop
      obtain ⟨msg, rfl, hn⟩ := hop
      exact ⟨[], msg, ops, s, rfl, rfl, hn⟩

/-- **The update queue and the ack queue**: whatever is called, sent, lost and received, the two
queues are finite and disjoint, their flags, tails and the count of unacknowledged updates are
right. Nor does the server stop, as long as the leases are on their queues and no update is about
a state that does not exist. -/
theorem failover_queues_exact {s : Db ι} (hs : NoUpdates s) (ops : List (Op ι)) :
    (∀ t, run s ops = some t → ∃ u a, UpdateQueues t u a) ∧
      (s.Running → run s ops = none → ∃ ops₁ msg ops₂ t,
        ops = ops₁ ++ .bindUpdate msg :: ops₂ ∧ run s ops₁ = some t ∧ ¬ t.StatesExist msg) :=
  ⟨fun _ ht => (run_pending hs.pending ht).updateQueues, fun h hr => run_stops h hr⟩

/-- Two leases are queued and one of them is sent; its update is rejected, the other is sent, and
the link is lost. -/
theorem failover_queues_exact_sample :
    let s : Db (Fin 2) :=
      { lease := fun _ => { pool := some 0 }
        pool := fun _ => { failoverPeer := true }
        peer := { linkToPeer := true, maxFlyingUpdates := 1 } }
    let ops : List (Op (Fin 2)) := [.queueUpdate 0 false, .queueUpdate 1 true,
      .bindAck { assignedAddr := some 0, optionsPresent := ftbRejectReason }, .queueUpdate 0 false,
      .disconnect]
    ((run s ops).any fun t => t.peer.updateQueue = ⟨some 1, some 0⟩) = true ∧
      (∀ t, run s ops = some t → ∃ u a, UpdateQueues t u a) ∧
      (s.Running → run s ops = none → ∃ ops₁ msg ops₂ t,
        ops = ops₁ ++ .bindUpdate msg :: ops₂ ∧ run s ops₁ = some t ∧ ¬ t.StatesExist msg) := by
  intro s ops
  refine ⟨by decide, failover_queues_exact ⟨rfl, rfl, rfl, fun _ => rfl, fun _ => ⟨rfl, rfl⟩⟩ ops⟩

end UpdateRun

end IscDhcp
