import IscDhcp.Mdb.Supersede

/-!
Binding updates from the failover peer, and its answers to those of this server
(`failover.c`), and its requests for updates.

An update is checked against the lease as this server knows it; it is then either rejected
at once or installed by `supersede_lease` and acknowledged later.
-/

namespace IscDhcp

variable {ι : Type} [DecidableEq ι] [Fintype ι]

/-! ### Load balancing -/

/-- A mixing table of 256 distinct values, in pseudo-random order. -/
def loadbMxTbl : List UInt8 := [
  251, 175, 119, 215, 81, 14, 79, 191, 103, 49, 181, 143, 186, 157, 0, 232, 31, 32, 55, 60,
  152, 58, 17, 237, 174, 70, 160, 144, 220, 90, 57, 223, 59, 3, 18, 140, 111, 166, 203, 196,
  134, 243, 124, 95, 222, 179, 197, 65, 180, 48, 36, 15, 107, 46, 233, 130, 165, 30, 123, 161,
  209, 23, 97, 16, 40, 91, 219, 61, 100, 10, 210, 109, 250, 127, 22, 138, 29, 108, 244, 67,
  207, 9, 178, 204, 74, 98, 126, 249, 167, 116, 34, 77, 193, 200, 121, 5, 20, 113, 71, 35,
  128, 13, 182, 94, 25, 226, 227, 199, 75, 27, 41, 245, 230, 224, 43, 225, 177, 26, 155, 150,
  212, 142, 218, 115, 241, 73, 88, 105, 39, 114, 62, 255, 192, 201, 145, 214, 168, 158, 221, 148,
  154, 122, 12, 84, 82, 163, 44, 139, 228, 236, 205, 242, 217, 11, 187, 146, 159, 64, 86, 239,
  195, 42, 106, 198, 118, 112, 184, 172, 87, 2, 173, 117, 176, 229, 247, 253, 137, 185, 99, 164,
  102, 147, 45, 66, 231, 52, 141, 211, 194, 206, 246, 238, 56, 110, 78, 248, 63, 240, 189, 93,
  92, 51, 53, 183, 19, 171, 72, 50, 33, 104, 101, 69, 8, 252, 83, 120, 76, 135, 85, 54,
  202, 125, 188, 213, 96, 235, 136, 208, 162, 129, 190, 132, 156, 38, 47, 1, 7, 254, 24, 4,
  216, 131, 89, 21, 28, 133, 37, 153, 149, 80, 170, 68, 6, 169, 234, 151]

/-- The bytes are mixed in from the last to the first. -/
def loadbPHash (key : Bytes) : UInt8 :=
  key.foldr (fun b hash => loadbMxTbl.getD (hash ^^^ b).toNat 0) (UInt8.ofNat key.length)

namespace Db

variable (s : Db ι) (lease : Lease)

/-- The client of the lease would be served by the peer. -/
def peerWantsLease (lp : Lease) : Bool :=
  match lp.pool.bind fun p => if (s.pool p).failoverPeer then s.peer.hba else none with
  | none => false
  | some hba =>
    let wants (hbaix : UInt8) : Bool :=
      if s.peer.iAm = .primary then !hba hbaix.toNat else hba hbaix.toNat
    if lp.uid.getD [] ≠ [] then wants (loadbPHash (lp.uid.getD []))
    -- the first byte of the hardware address is its type
    else if lp.hardwareAddr.length > 1 then wants (loadbPHash lp.hardwareAddr.tail)
    else false

/-- The secondary is allowed to get more leases of the pool. -/
def secondaryNotHoarding (p : ℕ) : Bool :=
  let free := (s.pool p).freeLeases
  let backup := (s.pool p).backupLeases
  let hold := ((free + backup) * s.peer.maxLeaseOwnership + 50).tdiv 100
  (free - backup).tdiv 2 > -hold

/-! ### Checking an update -/

/-- The lease is preferred to the update that crosses its own; `none` is a fatal error. -/
def failoverLeaseIsBetter (msg : BndMsg ι) : Option Bool :=
  let localState := if lease.bindingState ≠ lease.desiredBindingState then
    lease.desiredBindingState else lease.bindingState
  let msgCltt := if msg.has ftbCltt then msg.cltt else 0
  let primary : Bool := s.peer.iAm = .primary
  match localState with
  | .active =>
    if msg.bindingStatus = .active then
      if msgCltt < lease.cltt then some true
      else if msgCltt > lease.cltt then some false
      else some primary
    else if msg.bindingStatus = .expired then some false
    else some primary
  | .free | .backup | .expired | .released | .abandoned | .reset =>
    if msg.bindingStatus = .active then some false else some primary
  | .bogus _ => none

/-- The state an update to `new` leads to in the normal state; `none` is a fatal error. -/
def normalBindingStateTransitionCheck (new : BindingState) (tsfp : Time) : Option BindingState :=
  if new = lease.bindingState then some new
  else
    match lease.bindingState with
    | .free | .abandoned | .released | .backup =>
      match new with
      | .bogus _ => none
      | _ => some new
    | .active =>
      -- the secondary only tells of a release or a decline
      if s.peer.iAm = .primary then
        if new = .released ∨ new = .abandoned then some new else some .active
      else
        match new with
        | .free | .backup => if tsfp > s.curTime then some .active else some new
        | .expired => if lease.ends - 65 > s.curTime then some .active else some new
        | .released | .abandoned | .reset | .active => some new
        | .bogus _ => none
    | .expired | .reset =>
      match new with
      | .free | .backup => if tsfp > s.curTime then some lease.bindingState else some new
      | .bogus _ => none
      | _ => some new
    | .bogus _ => none

/-- The state an update to `new` leads to in the other states; `none` is a fatal error. -/
def conflictBindingStateTransitionCheck (new : BindingState) : Option BindingState :=
  if new = lease.bindingState then some new
  else
    match lease.bindingState with
    | .free | .abandoned | .expired | .released | .reset | .backup => some new
    | .active =>
      match new with
      | .free | .backup => some .active
      | .expired => if lease.ends - 65 > s.curTime then some .active else some new
      | .released | .reset | .abandoned => some new
      | .active | .bogus _ => none
    | .bogus _ => none

def checkTransition (msg : BndMsg ι) : Option BindingState :=
  if s.peer.meState = .normal then
    s.normalBindingStateTransitionCheck lease msg.bindingStatus msg.potentialExpiry
  else s.conflictBindingStateTransitionCheck lease msg.bindingStatus

end Db

/-! ### Rejecting an update -/

def ftrIllegalIpAddr : ℕ := 1
def ftrFatalConflict : ℕ := 2
def ftrMissingBindinfo : ℕ := 3
def ftrMiscReject : ℕ := 6
def ftrLessCritBindInfo : ℕ := 16
def ftrIpNotReserved : ℕ := 19

structure Reject where
  reason : ℕ := ftrMiscReject
  message : String
  deriving DecidableEq, Repr

def bindingStatePrint : BindingState → String
  | .free => "free"
  | .active => "active"
  | .expired => "expired"
  | .released => "released"
  | .abandoned => "abandoned"
  | .reset => "reset"
  | .backup => "backup"
  | .bogus _ => "unknown"

/-- The hardware address of the update, and whether it is a new one. -/
def installChaddr (msg : BndMsg ι) (lt : Lease) : Except Reject (Lease × Bool) :=
  if msg.has ftbChaddr then
    if msg.bindingStatus = .abandoned then
      .error { message := "BNDUPD to ABANDONED with a CHADDR" }
    else if msg.chaddr.length > 21 then .error { message := "chaddr too long" }
    else .ok ({ lt with hardwareAddr := msg.chaddr }, lt.hardwareAddr != msg.chaddr)
  else
    match msg.bindingStatus with
    | .active | .expired | .released => .error ⟨ftrMissingBindinfo, "BNDUPD without CHADDR"⟩
    | .abandoned => .ok ({ lt with hardwareAddr := [], scope := none }, true)
    | _ => .ok (lt, false)

/-- The client identifier of the update; a client that has none loses the last one, unless the
lease is no longer in use. -/
def installIdent (msg : BndMsg ι) (lt : Lease) : Except Reject (Lease × Bool) :=
  if msg.has ftbClientIdentifier then
    if msg.bindingStatus = .abandoned then
      .error { message := "BNDUPD to ABANDONED with client-id" }
    else .ok ({ lt with uid := some msg.clientIdentifier }, lt.uid != some msg.clientIdentifier)
  else if lt.uid.isSome ∧ msg.bindingStatus ≠ .reset ∧ msg.bindingStatus ≠ .free ∧
      msg.bindingStatus ≠ .backup then
    .ok ({ lt with uid := none }, true)
  else .ok (lt, false)

def installTimes (msg : BndMsg ι) (lt : Lease) : Lease :=
  { lt with
    starts := if msg.has ftbStos then msg.stos else lt.starts
    ends := if msg.has ftbLeaseExpiry then msg.expiry else lt.ends
    atsfp := if msg.has ftbPotentialExpiry then msg.potentialExpiry else lt.atsfp
    tsfp := if msg.has ftbPotentialExpiry then msg.potentialExpiry else lt.tsfp }

/-- The flags of the update; `mine` tells that the lease is free for this server to allocate. -/
def installFlags (msg : BndMsg ι) (mine : Bool) (lease lt : Lease) : Except Reject Lease :=
  if msg.has ftbIpFlags then
    let reserved : Bool := msg.ipFlags &&& ftfIpFlagReserve ≠ 0
    let bootp : Bool := msg.ipFlags &&& ftfIpFlagBootp ≠ 0
    if reserved && mine && !lease.flags.reserved then
      .error ⟨ftrIpNotReserved, "Address is not reserved."⟩
    else if bootp && mine && !lease.flags.bootp then
      .error { message := "Address is not allocated to BOOTP." }
    else .ok { lt with flags := { lt.flags with reserved := reserved, bootp := bootp } }
  else .ok { lt with flags := { lt.flags with reserved := false, bootp := false } }

namespace Db

variable (s : Db ι) (i : ι) (msg : BndMsg ι)

def reject (r : Reject) : Db ι :=
  (s.dhcpFailoverSendBindAck msg r.reason r.message).2

/-! ### Installing an update -/

/-- Assign the lease to the backup state for client affinity. -/
def sendToBackup : Option (Db ι) := do
  let s := s.modify i fun l =>
    { l with nextBindingState := .backup, tstp := s.curTime, starts := s.curTime }
  let (ok, s) ← s.supersedeLease i none false true false
  return if ok then (s.writeLease i).2 else s

/-- The peer is to get the lease back, and may have more leases. -/
def affinity (wanted : Bool) : Bool :=
  wanted && (s.lease i).pool.any s.secondaryNotHoarding

/-- Install the sample lease `lt`, which moves to `new`. -/
def acceptUpdate (lt : Lease) (new : BindingState) (msg : BndMsg ι) : Option (Db ι) := do
  let ended : Bool := new = .expired ∨ new = .released ∨ new = .reset
  let next := if ended then .free else new
  let lt := { lt with nextBindingState := next }
  let wanted := ended && s.peer.iAm = .primary && !(lt.flags.reserved || lt.flags.bootp) &&
    s.peerWantsLease lt
  let msg := { msg with bindingStatus := next }
  -- the lease cannot be rewound behind the peer's state
  let s := s.modify i fun l => { l with rewindBindingState := next }
  let (ok, s) ← s.supersedeLease i (some lt) false false false
  let (ok, s) := if ok then s.writeLease i else (false, s)
  if ok then
    let s := s.dhcpFailoverQueueAck msg
    if s.affinity i wanted then
      let s ← s.sendToBackup i
      return s.dhcpFailoverSendUpdates.2
    else return s
  else return s.reject msg { message := "database update failed" }

def mine (lease : Lease) : Bool :=
  (s.peer.iAm = .primary && lease.bindingState = .free) ||
    (s.peer.iAm = .secondary && lease.bindingState = .backup)

/-- Make the sample lease from the update, check it, and install it. -/
def installUpdate : Option (Db ι) :=
  let client : Except Reject (Lease × Bool) := do
    let (lt, chaddrChanged) ← installChaddr msg (leaseCopy (s.lease i))
    let (lt, identChanged) ← installIdent msg lt
    return (lt, chaddrChanged || identChanged)
  match client with
  | .error r => some (s.reject msg r)
  | .ok (lt, changed) =>
    -- the scope of another client is not kept, even if the update is rejected below
    let s := if msg.bindingStatus = .active ∧ changed then
        s.modify i fun l => { l with scope := none }
      else s
    match installFlags msg (s.mine (s.lease i)) (s.lease i) (installTimes msg lt) with
    | .error r => some (s.reject msg r)
    | .ok lt => do
      let new ← s.checkTransition (s.lease i) msg
      if new ≠ msg.bindingStatus then
        return s.reject msg ⟨ftrFatalConflict, s.piaddr i ++ ": invalid state transition: " ++
          bindingStatePrint (s.lease i).bindingState ++ " to " ++
          bindingStatePrint msg.bindingStatus⟩
      else s.acceptUpdate i lt new msg

/-- `none` is a fatal error. -/
def dhcpFailoverProcessBindUpdate : Option (Db ι) :=
  if msg.has ftbAssignedIpAddress && msg.has ftbBindingStatus then
    match msg.assignedAddr with
    | none => some (s.reject msg ⟨ftrIllegalIpAddr, "unknown IP address"⟩)
    | some i =>
      if s.peered i then
        if (s.lease i).flags.onAckQueue then do
          -- both servers have sent an update, and the better one wins
          if ← s.failoverLeaseIsBetter (s.lease i) msg then
            return s.reject msg ⟨ftrLessCritBindInfo,
              "incoming update is less critical than outgoing update"⟩
          else (s.dhcpFailoverAckQueueRemove i).installUpdate i msg
        else s.installUpdate i msg
      else some (s.reject msg ⟨ftrIllegalIpAddr,
        "IP address is covered by a different failover relationship state"⟩)
  else some (s.reject msg ⟨ftrMissingBindinfo, "binding update lacks required options"⟩)

/-! ### Acknowledgements -/

/-- The number of the option, not its bit. -/
def ftoPotentialExpiry : ℕ := 18

def dhcpFailoverSendUpdateDone : Db ι :=
  if s.peer.linkToPeer then
    let s := (s.dhcpFailoverPutMessage (.upddone s.peer.updxid)).2
    (s.modifyPeer fun p => { p with updxid := (p.updxid + (bit32 - 1)) % bit32 }).commitLeases.2
  else s

/-- Since the update was sent the lease has come to another state. -/
def moveToDesired (desired : BindingState) : Option (Db ι) :=
  if desired ≠ (s.lease i).bindingState then
    ((s.modify i fun l => { l with nextBindingState := desired }).supersedeLease i none false false
      false).map Prod.snd
  else some s

/-- The peer knows the state it was told of; also tells whether it should have the lease. -/
def acknowledge : Option (Bool × Db ι) := do
  let desired := (s.lease i).desiredBindingState
  let potExpire :=
    if msg.has ftoPotentialExpiry then msg.potentialExpiry else (s.lease i).tstp
  if desired = .expired ∨ desired = .reset ∨ desired = .released then
    let next : BindingState :=
      if s.peer.iAm = .secondary ∧ (s.lease i).flags.reserved then .backup else .free
    let s := s.modify i fun l =>
      { l with
        atsfp := potExpire, tsfp := potExpire, nextBindingState := next
        desiredBindingState := next, rewindBindingState := next }
    let (_, s) ← s.supersedeLease i none false false false
    let s := (s.writeLease i).2
    let l := s.lease i
    let wanted := s.peer.iAm = .primary && !(l.flags.reserved || l.flags.bootp) &&
      s.peerWantsLease l
    return (wanted, if !wanted && s.peer.meState = .normal then s.commitLeases.2 else s)
  else
    let s := s.modify i fun l => { l with atsfp := potExpire, tsfp := potExpire }
    let s ← s.moveToDesired i desired
    return (false, (s.writeLease i).2)

/-- Consider putting the lease back on the update queue for client affinity. -/
def returnToBackup (wanted : Bool) : Option (Db ι) :=
  if s.affinity i wanted then
    (s.sendToBackup i).map fun s => if s.peer.meState = .normal then s.commitLeases.2 else s
  else some s

def unqueue (wanted : Bool) : Option (Db ι) := do
  let s := s.dhcpFailoverAckQueueRemove i
  let s := if s.peer.sendUpdateDone = some i then
      (s.modifyPeer fun p => { p with sendUpdateDone := none }).dhcpFailoverSendUpdateDone
    else s
  let s ← s.returnToBackup i wanted
  return s.dhcpFailoverSendUpdates.2

/-- `none` is a fatal error. -/
def dhcpFailoverProcessBindAck : Option (Db ι) :=
  match msg.assignedAddr with
  | none => some s
  | some i =>
    if msg.has ftbRejectReason || (s.lease i).lastXid == 0 then s.unqueue i false
    else if (s.lease i).lastXid ≠ msg.xid then some s
    else do
      let (wanted, s) ← s.acknowledge i msg
      s.unqueue i wanted

/-! ### Update requests -/

/-- A lease that is on neither queue is queued if the peer may not know of it. -/
def offerLease (everythingp : Bool) (q : Queue) (s : Db ι) (i : ι) : Db ι :=
  let l := s.lease i
  if !(l.flags.onUpdateQueue || l.flags.onAckQueue) &&
      (everythingp || l.tstp > l.atsfp || q = .expired) then
    (s.modify i fun l => { l with desiredBindingState := l.bindingState }).dhcpFailoverQueueUpdate i
      false
  else s

def offerPool (everythingp : Bool) (s : Db ι) (p : ℕ) : Db ι :=
  if (s.pool p).failoverPeer then
    Queue.all.foldl (fun s q => ((s.pool p).queue q).foldl (offerLease everythingp q) s) s
  else s

def dhcpFailoverGenerateUpdateQueue (s : Db ι) (everythingp : Bool) : Db ι :=
  s.pools.foldl (offerPool everythingp) s

/-- Forget the old request, if there is one, and queue what the new one asks for. -/
def queueRequested (s : Db ι) (everythingp : Bool) (xid : ℕ) : Db ι :=
  ((s.modifyPeer fun p => { p with sendUpdateDone := none }).dhcpFailoverGenerateUpdateQueue
    everythingp).modifyPeer fun p => { p with updxid := xid }

/-- `dhcp_failover_process_update_request` and, for everything, `_all`: the last lease on the update
queue is remembered; without one the updates are done. -/
def processRequest (s : Db ι) (everythingp : Bool) (xid : ℕ) : Db ι :=
  let s := s.queueRequested everythingp xid
  match s.peer.updateQueue.tail with
  | some tail =>
      (s.modifyPeer fun p => { p with sendUpdateDone := some tail }).dhcpFailoverSendUpdates.2
  | none => s.dhcpFailoverSendUpdateDone

end Db

end IscDhcp
