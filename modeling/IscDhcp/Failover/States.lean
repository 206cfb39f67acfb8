import IscDhcp.Failover.Updates

/-!
The failover state of one server (`failover.c`): how it is changed and recorded, what the
server then tells its peer, and how it follows the states the peer reports.

Of the leases only what the states depend on is kept: whether an update of the peer is under
way, and that sending binding updates may, like any sending, lose the link.
-/

namespace IscDhcp.Failover

inductive Msg
  | connect (mclt : Time)
  | connectack (time : Time)
  | state (serverState : FailoverState) (startup : Bool)
  | updreq
  | updreqall
  | upddone
  deriving DecidableEq, Repr

/-- The update a server has asked for (`curUPD`). -/
inductive UpdType
  | updreq | updreqall
  deriving DecidableEq, Repr

/-- What the lease file says of the failover state. -/
structure Recorded where
  state : SavedState := ⟨.recover, FailoverState.recover_ne_startup⟩
  stos : Time := minTime
  partner : FailoverState := .unknownState
  mclt : Time := 0
  deriving DecidableEq

/-- `dhcp_failover_state_t`, for one of the two servers. -/
structure Server where
  iAm : Role
  meState : FailoverState := .recover
  meStos : Time := minTime
  partnerState : FailoverState := .unknownState
  savedState : SavedState := ⟨.unknownState, FailoverState.unknownState_ne_startup⟩
  serviceState : ServiceState := .unknownServiceState
  mclt : Time := 0
  linkToPeer : Bool := false
  curUPD : Option UpdType := none
  /-- An update was asked for and has not been acknowledged to its end. -/
  sendUpdateDone : Bool := false
  /-- There are leases on the update queue or the ack queue. -/
  pending : Bool := false
  /-- The timeout to `dhcp_failover_recover_done` is pending. -/
  recoverTimeout : Bool := false
  recorded : Recorded := {}
  curTime : Time := minTime
  sent : List Msg := []
  /-- How the next writes, commits and sendings end; they succeed when it runs out. -/
  io : List Bool := []

namespace Server

variable (s : Server) (new : FailoverState)

def ask : Bool × Server := (s.io.headD true, { s with io := s.io.tail })

/-- The state of a server, and in startup the state it had before. -/
def shown : SavedState :=
  if h : s.meState = .startup then s.savedState else ⟨s.meState, h⟩

def dhcpFailoverSetServiceState : Server :=
  { s with serviceState := serviceStateOf s.meState s.partnerState }

/-- Only the secondary records the `mclt`; the primary has it from its configuration. -/
def writeFailoverState : Bool × Server :=
  match s.ask with
  | (false, s) => (false, s)
  | (true, s) =>
    let mclt := if s.iAm = .secondary then s.mclt else s.recorded.mclt
    (true, { s with recorded :=
      { state := s.shown, stos := s.meStos, partner := s.partnerState, mclt := mclt } })

def writeState : Bool × Server :=
  match s.writeFailoverState with
  | (false, s) => (false, s)
  | (true, s) => s.ask

/-! ### Changing the state -/

/-- The start time of the new state; a server that was shut down in order need not wait. -/
def newStos : Time :=
  if new = .recover ∧ s.meState = .shutDown ∧ s.partnerState = .partnerDown ∧ s.pending = false
  then s.curTime - s.mclt
  else if new ≠ .recoverWait ∧ new ≠ .startup ∧ s.meState ≠ .startup then s.curTime
  else s.meStos

/-- The beginning of `dhcp_failover_set_state`: the new state is recorded, or not entered. -/
def recordState : Bool × Server :=
  let t := { s with
    meState := new, meStos := s.newStos new, savedState := s.savedState.enter s.meState new }
  match t.writeState with
  | (true, t) => (true, t.dhcpFailoverSetServiceState)
  | (false, t) => (false, { t with meState := s.meState, meStos := s.meStos })

/-- Leases may have to be sent to the peer. -/
def dhcpFailoverGenerateUpdateQueue : Server :=
  match s.ask with
  | (true, s) => s
  | (false, s) => { s with pending := true }

/-- `dhcp_failover_set_state` while there is no link to the peer. -/
def setStateOffline : Server :=
  match s.recordState new, new with
  | (false, s), _ => s
  | (true, s), .normal => s.dhcpFailoverGenerateUpdateQueue
  | (true, s), .recoverWait =>
    if s.meStos + s.mclt > s.curTime then { s with recoverTimeout := true }
    else (s.recordState .recoverDone).2
  | (true, s), _ => s

/-- `dhcp_failover_state_transition (state, "disconnect")`; `none` is a fatal error. -/
def disconnect : Option Server :=
  let s := { s with linkToPeer := false }
  match s.shown.1 with
  -- the current state, or in startup the state it had before
  | .conflictDone | .communicationsInterrupted | .partnerDown | .paused | .recover
  | .recoverDone | .recoverWait | .resolutionInterrupted | .shutDown =>
    some (if s.meState = .startup then s.setStateOffline s.savedState else s)
  | .potentialConflict => some (s.setStateOffline .resolutionInterrupted)
  | .normal => some (s.setStateOffline .communicationsInterrupted)
  | .unknownState => some (s.setStateOffline .resolutionInterrupted)
  | .startup => none

/-! ### Sending -/

/-- Put a message on the link; if that fails the link is lost. -/
def dhcpFailoverPutMessage (msg : Msg) : Option Server :=
  match s.ask with
  | (true, s) => some { s with sent := s.sent ++ [msg] }
  | (false, s) => s.disconnect

def dhcpFailoverSendState : Option Server :=
  if s.linkToPeer then
    s.dhcpFailoverPutMessage (.state s.shown (s.serviceState = .serviceStartup))
  else some s

def dhcpFailoverSendUpdateRequestAll : Option Server :=
  if s.linkToPeer then do
    let s ← s.dhcpFailoverPutMessage .updreqall
    return { s with curUPD := some .updreqall }
  else some s

/-- A request for all updates that was interrupted is made again. -/
def dhcpFailoverSendUpdateRequest : Option Server :=
  if s.linkToPeer then
    if s.curUPD = some .updreqall then s.dhcpFailoverSendUpdateRequestAll
    else do
      let s ← s.dhcpFailoverPutMessage .updreq
      return { s with curUPD := some .updreq }
  else some s

def dhcpFailoverSendUpdateDone : Option Server :=
  if s.linkToPeer then s.dhcpFailoverPutMessage .upddone else some s

/-- Messages about leases; the link may be lost over them. -/
def sendOther : Option Server :=
  if s.linkToPeer then
    match s.ask with
    | (true, s) => some s
    | (false, s) => s.disconnect
  else some s

/-! ### The new state -/

def dhcpFailoverRecoverDone : Option Server :=
  match s.recordState .recoverDone with
  | (false, s) => some s
  | (true, s) => s.dhcpFailoverSendState

/-- What a server does once it has told the peer of its new state. -/
def entered : FailoverState → Option Server
  -- the pool is balanced, and all pending updates are sent again
  | .normal => s.dhcpFailoverGenerateUpdateQueue.sendOther
  | .potentialConflict =>
    if s.iAm = .primary ∨ s.iAm = .secondary ∧ s.partnerState = .conflictDone then
      s.dhcpFailoverSendUpdateRequest
    else some s
  | .recoverWait =>
    if s.meStos + s.mclt > s.curTime then some { s with recoverTimeout := true }
    else s.dhcpFailoverRecoverDone
  | .recover => s.dhcpFailoverSendUpdateRequestAll
  | _ => some s

def dhcpFailoverSetState : Option Server :=
  match s.recordState new with
  | (false, s) => some s
  | (true, s) => do
    let s ← s.dhcpFailoverSendState
    s.entered new

/-- The names of the transitions; `connect` and `connectTimeout` are not used. -/
inductive Transition
  | disconnect | connect | startup | connectTimeout
  deriving DecidableEq, Repr

def dhcpFailoverStateTransition : Transition → Option Server
  | .disconnect => s.disconnect
  | .connect =>
    match s.meState with
    | .communicationsInterrupted => do
      let s ← s.dhcpFailoverSetState .normal
      s.sendOther
    | .resolutionInterrupted => s.dhcpFailoverSetState .potentialConflict
    | _ => s.dhcpFailoverSendState
  | .startup => s.dhcpFailoverSetState .startup
  | .connectTimeout =>
    match s.meState with
    | .communicationsInterrupted | .partnerDown | .resolutionInterrupted | .paused | .startup
    | .shutDown | .conflictDone => some s
    | .normal | .recover | .recoverWait | .recoverDone | .unknownState =>
      s.dhcpFailoverSetState .communicationsInterrupted
    | .potentialConflict => s.dhcpFailoverSetState .resolutionInterrupted

/-! ### The state of the peer -/

/-- The transitions that the new state of the peer requires; `none` is a fatal error. -/
def followPeer (previous new : FailoverState) (startupp : Bool) : Option Server :=
  match s.shown.1 with
  | .normal =>
    match new with
    | .normal => s.sendOther
    | .partnerDown =>
      s.dhcpFailoverSetState (if s.meState = .startup then .recover else .potentialConflict)
    | .potentialConflict | .resolutionInterrupted | .conflictDone =>
      s.dhcpFailoverSetState .shutDown
    | .recover | .shutDown => s.dhcpFailoverSetState .partnerDown
    | .paused => s.dhcpFailoverSetState .communicationsInterrupted
    | .recoverWait | .recoverDone | .unknownState | .startup | .communicationsInterrupted => some s
  | .recover =>
    match new with
    | .recover | .partnerDown | .communicationsInterrupted =>
      -- in startup the request is sent when the server enters recover
      if s.meState = .recover then s.dhcpFailoverSendUpdateRequestAll else some s
    | .potentialConflict | .resolutionInterrupted | .conflictDone | .normal =>
      s.dhcpFailoverSetState .potentialConflict
    | .shutDown => s.dhcpFailoverSetState .partnerDown
    | .paused | .recoverDone | .recoverWait | .unknownState | .startup => some s
  | .potentialConflict =>
    match new with
    | .normal => s.dhcpFailoverSetState .shutDown
    | .conflictDone =>
      if previous = .potentialConflict then s.dhcpFailoverSendUpdateRequest else some s
    | .recover => s.dhcpFailoverSetState .recover
    | .shutDown => s.dhcpFailoverSetState .partnerDown
    | .recoverDone | .recoverWait | .potentialConflict | .partnerDown
    | .communicationsInterrupted | .resolutionInterrupted | .paused | .unknownState
    | .startup => some s
  | .conflictDone =>
    match new with
    | .normal | .shutDown => s.dhcpFailoverSetState new
    | .potentialConflict | .resolutionInterrupted => some s
    | .unknownState | .startup | .communicationsInterrupted | .partnerDown | .recover | .paused
    | .recoverDone | .conflictDone | .recoverWait => none
  | .partnerDown =>
    if startupp then some s
    else match new with
      | .recover | .recoverWait => some s
      | .recoverDone => s.dhcpFailoverSetState .normal
      | .normal | .potentialConflict | .partnerDown | .communicationsInterrupted
      | .resolutionInterrupted | .conflictDone => s.dhcpFailoverSetState .potentialConflict
      | .shutDown | .paused | .unknownState | .startup => some s
  | .communicationsInterrupted =>
    match new with
    | .paused => some s
    | .recover | .shutDown => s.dhcpFailoverSetState .partnerDown
    | .normal | .communicationsInterrupted | .recoverDone | .recoverWait => do
      let s ← s.sendOther
      s.dhcpFailoverSetState .normal
    | .potentialConflict | .partnerDown | .resolutionInterrupted | .conflictDone =>
      s.dhcpFailoverSetState .potentialConflict
    | .unknownState | .startup => some s
  | .resolutionInterrupted =>
    match new with
    | .normal | .recover | .potentialConflict | .partnerDown | .communicationsInterrupted
    | .resolutionInterrupted | .conflictDone | .recoverDone | .recoverWait =>
      s.dhcpFailoverSetState .potentialConflict
    | .shutDown => s.dhcpFailoverSetState .partnerDown
    | .paused | .unknownState | .startup => some s
  | .recoverDone =>
    match new with
    | .recoverDone | .normal => s.dhcpFailoverSetState .normal
    | .shutDown => s.dhcpFailoverSetState .partnerDown
    | .potentialConflict | .partnerDown | .communicationsInterrupted | .resolutionInterrupted
    | .conflictDone | .paused | .recover | .recoverWait | .unknownState | .startup => some s
  | .recoverWait | .shutDown | .paused | .unknownState => some s
  | .startup => none

/-- A server still in startup goes back to the state it had before. -/
def leaveStartup : Option Server :=
  if s.meState = .startup then s.dhcpFailoverSetState s.savedState else some s

/-- A state of the peer that differs, or matters although it does not. -/
def takePeerState (startupp : Bool) : Option Server := do
  let t := { s with partnerState := new }.writeState.2
  let t ← t.followPeer s.partnerState new startupp
  let t ← t.leaveStartup
  return t.dhcpFailoverSetServiceState

def dhcpFailoverPeerStateChanged (startupp : Bool) : Option Server :=
  if s.partnerState = new then
    match s.meState with
    | .startup =>
      s.dhcpFailoverSetState
        (if s.savedState.1 = .resolutionInterrupted then .potentialConflict else s.savedState)
    | .normal | .potentialConflict | .recoverDone | .shutDown | .paused | .recoverWait => some s
    | .unknownState | .partnerDown | .communicationsInterrupted | .resolutionInterrupted
    | .recover | .conflictDone => s.takePeerState new startupp
  else s.takePeerState new startupp

/-! ### Updates and connections -/

/-- `dhcp_failover_process_update_request` and `dhcp_failover_process_update_request_all`. -/
def dhcpFailoverProcessUpdateRequest : Option Server :=
  let s := { s with sendUpdateDone := false }.dhcpFailoverGenerateUpdateQueue
  if s.pending then { s with sendUpdateDone := true }.sendOther
  else s.dhcpFailoverSendUpdateDone

/-- The last update the peer asked for is acknowledged. -/
def updateAcknowledged : Option Server :=
  if s.sendUpdateDone then
    { s with sendUpdateDone := false, pending := false }.dhcpFailoverSendUpdateDone
  else some s

def dhcpFailoverProcessUpdateDone : Option Server :=
  let s := { s with curUPD := none }
  match s.meState with
  | .unknownState | .partnerDown | .normal | .communicationsInterrupted | .resolutionInterrupted
  | .shutDown | .paused | .recoverDone | .startup | .recoverWait | .conflictDone => some s
  | .potentialConflict =>
    if s.partnerState = .conflictDone then
      s.dhcpFailoverSetState (if s.iAm = .secondary then .normal else .shutDown)
    else if s.iAm = .primary then s.dhcpFailoverSetState .conflictDone
    else some s
  | .recover =>
    if s.meStos + s.mclt > s.curTime ∧ s.partnerState ≠ .recover ∧
        s.partnerState ≠ .recoverDone then do
      let s ← s.dhcpFailoverSetState .recoverWait
      return { s with recoverTimeout := true }
    else s.dhcpFailoverRecoverDone

/-- A `CONNECT` on a new connection makes it the link to the peer. -/
def acceptConnect (mclt : Time) : Option Server := do
  let s ← { s with linkToPeer := true }.dhcpFailoverPutMessage (.connectack s.curTime)
  if s.linkToPeer then ({ s with mclt := mclt } : Server).dhcpFailoverSendState else some s

/-- And so does the `CONNECTACK` that answers it. -/
def acceptConnectack : Option Server :=
  { s with linkToPeer := true }.dhcpFailoverSendState

/-- A server started with what the lease file says, as a new process. -/
def restart : Option Server :=
  { iAm := s.iAm
    meState := s.recorded.state
    meStos := s.recorded.stos
    partnerState := s.recorded.partner
    mclt := if s.iAm = .secondary then s.recorded.mclt else s.mclt
    recorded := s.recorded
    curTime := s.curTime
    io := s.io : Server }.dhcpFailoverStateTransition .startup

/-- At the end of a shutdown a server that was shut down in order records recover. -/
def shutdownDone : Option Server :=
  if s.meState = .shutDown then { s with linkToPeer := false }.dhcpFailoverSetState .recover
  else some s

/-- And the process ends. -/
def exit : Option Server := s.shutdownDone >>= restart

end Server

end IscDhcp.Failover
