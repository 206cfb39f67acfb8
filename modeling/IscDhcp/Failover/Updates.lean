import IscDhcp.Mdb.Types
import Mathlib.Data.Fintype.Card

/-!
Binding updates to the failover peer (`failover.c`): the queue of leases to send, the queue
of leases sent and not acknowledged, and what the loss of the link does to them.

Both queues are linked through `next_pending`. A message that cannot be put on the link makes
the server disconnect, which may change the failover state.
-/

namespace IscDhcp

open IscDhcp.Lib

variable {ι : Type} [DecidableEq ι] [Fintype ι]

def bit32 : ℕ := 4294967296

/-! ### Option bits of a message -/

def ftbAssignedIpAddress : ℕ := 0x00000004
def ftbBindingStatus : ℕ := 0x00000008
def ftbClientIdentifier : ℕ := 0x00000010
def ftbChaddr : ℕ := 0x00000020
def ftbCltt : ℕ := 0x00000040
def ftbIpFlags : ℕ := 0x00001000
def ftbLeaseExpiry : ℕ := 0x00002000
def ftbPotentialExpiry : ℕ := 0x00040000
def ftbMessage : ℕ := 0x00010000
def ftbRejectReason : ℕ := 0x00200000
def ftbStos : ℕ := 0x02000000

def ftfIpFlagReserve : ℕ := 1
def ftfIpFlagBootp : ℕ := 2

/-- `msg -> options_present & bits`. -/
def BndMsg.has (msg : BndMsg ι) (bits : ℕ) : Bool := msg.optionsPresent &&& bits != 0

/-- The service state that goes with the states of the server and of its peer. -/
def serviceStateOf (me partner : FailoverState) : ServiceState :=
  let own : ServiceState := match me with
    | .partnerDown => .servicePartnerDown
    | .normal => .cooperating
    | .communicationsInterrupted => .notCooperating
    | .startup => .serviceStartup
    | .unknownState | .resolutionInterrupted | .potentialConflict | .conflictDone | .recover
    | .shutDown | .paused | .recoverWait | .recoverDone => .notResponding
  if own = .notResponding then .notResponding
  else match partner with
    | .partnerDown | .potentialConflict | .conflictDone | .resolutionInterrupted => .notResponding
    | _ => own

/-- The state to go back to; it is saved when startup is entered. -/
def SavedState.enter (saved : SavedState) (me new : FailoverState) : SavedState :=
  if h : new = .startup ∧ me ≠ .startup then ⟨me, h.2⟩ else saved

namespace Db

variable (s : Db ι) (i : ι)

def modifyPeer (f : Peer ι → Peer ι) : Db ι := { s with peer := f s.peer }

def setOnUpdateQueue (b : Bool) : Db ι :=
  s.modify i fun l => { l with flags := { l.flags with onUpdateQueue := b } }

def setOnAckQueue (b : Bool) : Db ι :=
  s.modify i fun l => { l with flags := { l.flags with onAckQueue := b } }

/-- `write_lease`, `commit_leases` and `write_failover_state` only report their success. -/
def writeLease : Bool × Db ι := s.askAnd (.wrote i (s.lease i))
def commitLeases : Bool × Db ι := s.askAnd .committed
def writeFailoverState : Bool × Db ι := s.ask

/-! ### Failover states -/

def dhcpFailoverSetServiceState : Db ι :=
  s.modifyPeer fun p => { p with serviceState := serviceStateOf p.meState p.partnerState }

/-- The leases met from `p` along `next_pending`. -/
def pendingFrom (s : Db ι) : ℕ → Option ι → List ι
  | 0, _ => []
  | _, none => []
  | n + 1, some i => i :: pendingFrom s n (s.nextPending i)

/-- Hook the ack queue to the beginning of the update queue. -/
def dhcpFailoverRescindUpdates : Db ι :=
  match s.peer.ackQueue.tail with
  | none => s
  | some tail =>
    -- zap the flags
    let t := (s.pendingFrom (Fintype.card ι + 1) s.peer.ackQueue.head).foldl
      (fun s i => (s.setOnAckQueue i false).setOnUpdateQueue i true) s
    let (next, queue) := s.peer.ackQueue.prepend s.nextPending tail s.peer.updateQueue
    { t with
      nextPending := next
      peer := { t.peer with updateQueue := queue, ackQueue := {}, curUnackedUpdates := 0 } }

/-- In partner-down an expired lease becomes free `mclt` after its start. -/
def waitUntil (tsfp : Time) (l : Lease) : Lease :=
  { l with tsfp := tsfp, sortTime := if tsfp > l.ends then tsfp else l.ends }

/-- The expired leases of a pool of the peer, when partner-down is entered. -/
def expirePartnerDown (p : ℕ) : Db ι :=
  if (s.pool p).failoverPeer then
    let queue := (s.pool p).queue .expired
    let s := queue.foldl (fun t i => t.modify i (waitUntil (s.peer.meStos + s.peer.mclt))) s
    match queue.head? with
    | none => s
    | some i =>
      if (s.lease i).sortTime < (s.pool p).nextEventTime then s.schedulePool p (s.lease i).sortTime
      else s
  else s

/-- In the states in which updates are sent, they are sent again after a change of state. -/
def rescindOnChange : Db ι :=
  match s.peer.meState with
  | .normal | .potentialConflict | .partnerDown => s.dhcpFailoverRescindUpdates
  | _ => s

def newStos (new : FailoverState) : Time :=
  if new = .recover ∧ s.peer.meState = .shutDown ∧ s.peer.partnerState = .partnerDown ∧
      s.peer.updateQueue.head = none ∧ s.peer.ackQueue.head = none then s.curTime - s.peer.mclt
  else if new ≠ .recoverWait ∧ new ≠ .startup ∧ s.peer.meState ≠ .startup then s.curTime
  else s.peer.meStos

def writeState : Bool × Db ι :=
  match s.writeFailoverState with
  | (false, s) => (false, s)
  | (true, s) => s.commitLeases

def recordState (new : FailoverState) : Bool × Db ι :=
  let s := s.rescindOnChange
  let t := s.modifyPeer fun p =>
    { p with
      meState := new, meStos := s.newStos new
      savedState := s.peer.savedState.enter s.peer.meState new }
  match t.writeState with
  | (true, t) => (true, t.dhcpFailoverSetServiceState)
  | (false, t) =>
    (false, t.modifyPeer fun p => { p with meState := s.peer.meState, meStos := s.peer.meStos })

/-- `dhcp_failover_set_state` while there is no link to the peer, for the states a server
enters then. -/
def setStateOffline (new : FailoverState) : Db ι :=
  match s.recordState new, new with
  | (true, s), .recoverWait =>
    -- the rest of the wait is left to a timeout
    if s.peer.meStos + s.peer.mclt > s.curTime then s else (s.recordState .recoverDone).2
  | (true, s), .partnerDown => s.pools.foldl expirePartnerDown s
  | (_, s), _ => s

def leaveStartup : Db ι :=
  if s.peer.meState = .startup then s.setStateOffline s.peer.savedState else s

def disconnect : Db ι :=
  let s := s.modifyPeer fun p => { p with linkToPeer := false }
  match if s.peer.meState = .startup then s.peer.savedState.1 else s.peer.meState with
  | .conflictDone => s.dhcpFailoverRescindUpdates.leaveStartup
  | .potentialConflict | .unknownState => s.setStateOffline .resolutionInterrupted
  | .normal => s.setStateOffline .communicationsInterrupted
  | _ => s.leaveStartup

def dhcpFailoverPutMessage (msg : OutMsg ι) : Bool × Db ι :=
  match s.ask with
  | (true, s) => (true, s.modifyPeer fun p => { p with sent := p.sent ++ [msg] })
  | (false, s) => (false, s.disconnect)

/-! ### The ack queue -/

def dhcpFailoverAckQueueRemove : Db ι :=
  if (s.lease i).flags.onAckQueue then
    match s.peer.ackQueue.remove (Fintype.card ι + 1) s.nextPending i with
    | none => s
    | some (next, queue) =>
      let s := { s with
        nextPending := next
        peer := { s.peer with
          ackQueue := queue, curUnackedUpdates := s.peer.curUnackedUpdates - 1 } }
      let s := s.modify i fun l =>
        { l with flags := { l.flags with onAckQueue := false }, lastXid := 0 }
      -- with the last update acknowledged the leases are committed
      if s.peer.curUnackedUpdates = 0 then s.commitLeases.2 else s
  else s

/-! ### Sending -/

def bndupdOf (l : Lease) (i : ι) : BndMsg ι :=
  let ipFlags := (if l.flags.reserved then ftfIpFlagReserve else 0) |||
    (if l.flags.bootp then ftfIpFlagBootp else 0)
  let uid := l.uid.getD []
  { xid := l.lastXid
    optionsPresent := ftbAssignedIpAddress ||| ftbBindingStatus ||| ftbLeaseExpiry |||
      ftbPotentialExpiry ||| ftbStos ||| (if uid = [] then 0 else ftbClientIdentifier) |||
      (if l.hardwareAddr = [] then 0 else ftbChaddr) ||| (if l.cltt = 0 then 0 else ftbCltt) |||
      (if ipFlags = 0 then 0 else ftbIpFlags)
    assignedAddr := some i
    bindingStatus := l.desiredBindingState
    clientIdentifier := uid
    chaddr := l.hardwareAddr
    expiry := l.ends
    potentialExpiry := l.tstp
    stos := l.starts
    cltt := l.cltt
    ipFlags := ipFlags }

/-- The lease takes the next transaction identifier of the link, which is never zero. -/
def takeXid : Db ι :=
  let xid := if s.peer.xid = 0 then 1 else s.peer.xid
  (s.modify i fun l => { l with lastXid := xid }).modifyPeer fun p =>
    { p with xid := (xid + 1) % bit32 }

/-- Once the peer may know the state of the lease, it cannot be rewound behind it. -/
def stepRewind : Db ι :=
  if (s.lease i).rewindBindingState ≠ (s.lease i).bindingState then
    let s := s.modify i fun l => { l with rewindBindingState := l.bindingState }
    (s.writeLease i).2.commitLeases.2
  else s

def dhcpFailoverSendBindUpdate : Bool × Db ι :=
  if s.peer.linkToPeer then
    let s := (s.takeXid i).stepRewind i
    s.dhcpFailoverPutMessage (.bndupd (bndupdOf (s.lease i) i))
  else (false, s)

/-- A `BNDACK` carries the address, the transaction identifier and the reason of a rejection,
`0` being none. -/
def dhcpFailoverSendBindAck (msg : BndMsg ι) (reason : ℕ) (message : String) : Bool × Db ι :=
  if s.peer.linkToPeer then
    s.dhcpFailoverPutMessage (.bndack
      { xid := msg.xid
        optionsPresent := ftbAssignedIpAddress |||
          (if reason = 0 then 0 else ftbRejectReason ||| ftbMessage)
        assignedAddr := msg.assignedAddr
        rejectReason := reason
        message := message })
  else (false, s)

/-- The leases are committed before they are acknowledged. -/
def dhcpFailoverSendAcks : Db ι :=
  match s.commitLeases with
  | (false, s) => s
  | (true, s) =>
    let s := s.peer.toackQueue.foldl (fun s msg => (s.dhcpFailoverSendBindAck msg 0 "").2)
      (s.modifyPeer fun p => { p with toackQueue := [] })
    s.modifyPeer fun p => { p with pendingAcks := 0 }

def dhcpFailoverQueueAck (msg : BndMsg ι) : Db ι :=
  let s := s.modifyPeer fun p =>
    { p with toackQueue := p.toackQueue ++ [msg], pendingAcks := p.pendingAcks + 1 }
  -- the rest is flushed by a timeout
  if s.peer.pendingAcks ≥ s.peer.maxFlyingUpdates / 2 then s.dhcpFailoverSendAcks else s

/-- The head of the update queue goes to the end of the ack queue. -/
def moveToAckQueue (lp : ι) : Db ι :=
  let (next, updateQueue) := s.peer.updateQueue.pop s.nextPending lp
  let (next, ackQueue) := s.peer.ackQueue.append next lp
  let s := { s with
    nextPending := next
    peer := { s.peer with
      updateQueue := updateQueue, ackQueue := ackQueue
      curUnackedUpdates := s.peer.curUnackedUpdates + 1 } }
  (s.setOnUpdateQueue lp false).setOnAckQueue lp true

/-- Send updates until the peer has its limit of them to acknowledge. -/
def sendQueued : ℕ → Db ι → Bool × Db ι
  | 0, s => (true, s)
  | n + 1, s =>
    if s.peer.maxFlyingUpdates > s.peer.curUnackedUpdates then
      match s.peer.updateQueue.head with
      | none => (true, s)
      | some lp =>
        match s.dhcpFailoverSendBindUpdate lp with
        | (true, s) => sendQueued n (s.moveToAckQueue lp)
        | (false, s) => (false, s)
    else (true, s)

def dhcpFailoverSendUpdates : Bool × Db ι :=
  if s.peer.linkToPeer then
    let s := if s.peer.toackQueue = [] then s else s.dhcpFailoverSendAcks
    sendQueued (Fintype.card ι + 1) s
  else (true, s)

/-- Put a lease that is on neither queue at the end of the update queue. -/
def appendUpdate : Db ι :=
  let (next, queue) := s.peer.updateQueue.append s.nextPending i
  let s := { s with nextPending := next, peer := { s.peer with updateQueue := queue } }
  s.setOnUpdateQueue i true

def dhcpFailoverQueueUpdate (immediate : Bool) : Db ι :=
  if s.peered i then
    if (s.lease i).flags.onUpdateQueue then s
    else
      let s := (s.dhcpFailoverAckQueueRemove i).appendUpdate i
      if immediate then s.dhcpFailoverSendUpdates.2 else s
  else s

end Db

end IscDhcp
