import IscDhcp.Mdb.Ids
import IscDhcp.Mdb.Queue
import IscDhcp.Failover.Updates

/-!
Lease updates (`mdb.c`): `supersede_lease` with the binding state transition it makes,
`pool_timer`, which calls it for the leases whose time has come, and the calls that release
and abandon a lease.

`supersede_lease` ends with a run of `pool_timer` unless it is called from there, so the two
are defined in layers: first what `supersede_lease` does before that run, then `pool_timer`,
then the whole of `supersede_lease`.
-/

namespace IscDhcp

variable {ι : Type} [DecidableEq ι] [Fintype ι]

namespace Db

/-! ### Class billing (`class.c`) -/

variable (s : Db ι) (i comp : ι)

def setClass (c : ℕ) (x : Class ι) : Db ι := { s with cls := Function.update s.cls c x }

def unbillClass : Db ι :=
  match (s.lease i).billingClass with
  | none => s
  | some c =>
    let cls := s.cls c
    let s := match (List.range cls.leaseLimit).find? fun k => cls.billedLeases k = some i with
      | none => s
      | some k =>
        s.setClass c
          { cls with
            billedLeases := Function.update cls.billedLeases k none
            leasesConsumed := cls.leasesConsumed - 1 }
    s.modify i fun l => { l with billingClass := none }

def billClass (c : ℕ) : Bool × Db ι :=
  let s := if (s.lease i).billingClass.isSome then s.unbillClass i else s
  let cls := s.cls c
  if cls.leasesConsumed = cls.leaseLimit then (false, s)
  else
    match (List.range cls.leaseLimit).find? fun k => cls.billedLeases k = none with
    | none => (false, s)
    | some k =>
      let s := s.setClass c
        { cls with
          billedLeases := Function.update cls.billedLeases k (some i)
          leasesConsumed := cls.leasesConsumed + 1 }
      (true, s.modify i fun l => { l with billingClass := some c })

/-! ### Binding state transitions -/

/-- The lease was active, or expired at the peer's word, and now is no longer. -/
def expires (peer : Bool) (l : Lease) : Bool :=
  l.nextBindingState != l.bindingState &&
    ((peer && (l.bindingState == .expired || l.bindingState == .active) &&
        (l.nextBindingState == .free || l.nextBindingState == .backup)) ||
      (!peer && l.bindingState == .active && l.nextBindingState != .released))

/-- The lease was active, or released at the peer's word, and now is released. -/
def releases (peer : Bool) (l : Lease) : Bool :=
  l.nextBindingState != l.bindingState &&
    ((peer && l.bindingState == .released &&
        (l.nextBindingState == .free || l.nextBindingState == .backup)) ||
      (!peer && l.bindingState == .active && l.nextBindingState == .released))

/-- Get rid of client-specific bindings that are only correct when the lease is active, and
send the time to the peer. -/
def dropClient : Db ι :=
  (s.unbillClass i).modify i fun l =>
    { l with
      onExpiry := none, onRelease := none, agentOptions := none, clientHostname := none
      host := none, tstp := l.ends }

def stateAfter (peer : Bool) : BindingState → BindingState
  | .active => if peer then .expired else .free
  | .expired | .released | .abandoned | .reset => .free
  | st => st

/-- The leases in these states are freed `mclt` after the start of partner-down. -/
def waitsForPeer : BindingState → Bool
  | .expired | .released | .abandoned | .reset => true
  | _ => false

def makeBindingStateTransition : Db ι :=
  let peer := s.peered i
  let expired := expires peer (s.lease i)
  let released := releases peer (s.lease i)
  let s := if expired then s.dropClient i else s
  let s := if released then s.dropClient i else s
  s.modify i fun l =>
    { l with
      bindingState := l.nextBindingState
      nextBindingState := stateAfter peer l.nextBindingState
      tsfp := if waitsForPeer l.nextBindingState && peer && s.peer.meState == .partnerDown then
        s.peer.meStos + s.peer.mclt else l.tsfp }

/-! ### Copying the sample lease -/

/-- The billing moves to the class of the sample lease. -/
def copyBilling (lease : Lease) : Db ι :=
  if (s.lease comp).billingClass ≠ lease.billingClass then
    let s := s.unbillClass comp
    match lease.billingClass with
    | none => s
    | some c => (s.billClass comp c).2
  else s

/-- The client's data, with which the lease is entered into the chains. -/
def copyClient (comp lease : Lease) : Lease :=
  { comp with
    starts := lease.starts
    uid := lease.uid
    host := lease.host
    hardwareAddr := lease.hardwareAddr
    scope := lease.scope
    -- only kept while the lease is affirmatively associated with a client
    agentOptions :=
      if lease.nextBindingState = .active ∨ lease.nextBindingState = .expired then
        lease.agentOptions
      else none
    clientHostname := lease.clientHostname
    onExpiry := lease.onExpiry.or comp.onExpiry
    onCommit := lease.onCommit.or comp.onCommit
    onRelease := lease.onRelease.or comp.onRelease }

/-- The times and the state the lease is to move to, copied after that. -/
def copyTimes (comp lease : Lease) : Lease :=
  { comp with
    cltt := lease.cltt
    tstp := lease.tstp
    tsfp := lease.tsfp
    atsfp := lease.atsfp
    ends := lease.ends
    nextBindingState := lease.nextBindingState
    ddnsCb := lease.ddnsCb.or comp.ddnsCb }

def leaveChains : Db ι :=
  let s := if (s.lease i).uid.isSome then
      (s.uidHashDelete i).modify i fun l => { l with uid := none }
    else s
  if (s.lease i).hardwareAddr ≠ [] then s.hwHashDelete i else s

def enterChains : Db ι :=
  let s := if (s.lease i).uid.isSome then s.uidHashAdd i else s
  if (s.lease i).hardwareAddr ≠ [] then s.hwHashAdd i else s

def copySample (lease : Lease) : Db ι :=
  let s := (s.leaveChains comp).copyBilling comp lease
  let s := (s.modify comp (copyClient · lease)).enterChains comp
  s.modify comp (copyTimes · lease)

/-! ### The move -/

/-- Set the timeout on the pool if this is the next lease that will time out on it. -/
def setPoolTimeout (p : ℕ) : Db ι :=
  let t := (s.lease comp).sortTime
  if t ≠ minTime ∧ t > s.curTime ∧
      (t < (s.pool p).nextEventTime ∨ (s.pool p).nextEventTime = minTime) then
    s.schedulePool p t
  else s

/-- Write the lease; while connected to the peer the rewind state steps forward first. -/
def commitLease (propogate : Bool) : Bool × Db ι :=
  let s := if propogate && s.peered comp &&
      (s.peer.serviceState == .cooperating || s.peer.serviceState == .notResponding) then
      s.modify comp fun l => { l with rewindBindingState := l.bindingState }
    else s
  match s.writeLease comp with
  | (false, s) => (false, s)
  | (true, s) => if s.ssNosync then (true, s) else s.commitLeases

def propagate (pimmediate : Bool) : Db ι :=
  (s.modify comp fun l => { l with desiredBindingState := l.bindingState }).dhcpFailoverQueueUpdate
    comp pimmediate

/-- An update that is sent to the peer is not acknowledged yet. -/
def clearAtsfp (propogate : Bool) : Db ι :=
  if propogate then s.modify comp fun l => { l with atsfp := 0 } else s

/-- The lease takes the flags of the sample lease, if there is one, and makes its transition. -/
def moveOn (flags : Option Flags) (transition : Bool) : Db ι :=
  let s := match flags with
    | none => s
    | some flags => s.modify comp fun l => { l with flags := l.flags.supersede flags }
  if transition then s.makeBindingStateTransition comp else s

/-- What follows once the lease is back on a queue: the timeout, the lease file, the peer. -/
def recordMove (p : ℕ) (commit propogate pimmediate : Bool) : Bool × Db ι :=
  let s := if commit || !pimmediate then s.setPoolTimeout comp p else s
  match if commit then s.commitLease comp propogate else (true, s) with
  | (false, s) => (false, s)
  | (true, s) => (true, if propogate then s.propagate comp pimmediate else s)

/-- `supersede_lease` from the label `just_move_it` up to the run of `pool_timer`; `none` is a
fatal error. -/
def justMoveIt (flags : Option Flags) (commit propogate pimmediate : Bool) : Option (Bool × Db ι) :=
  let s := s.clearAtsfp comp propogate
  match (s.lease comp).pool with
  | none => some (false, s)
  | some p =>
    match queueOf (s.lease comp) with
    | none => some (false, s)
    | some q => do
      let s ← (s.setPool p ((s.pool p).count q (-1))).leaseRemove p q comp
      match (s.moveOn comp flags (commit || !pimmediate)).leaseEnqueue comp with
      | (false, s) => return (false, s)
      | (true, s) => return s.recordMove comp p commit propogate pimmediate

/-! ### The pool timer -/

/-- The server may rewind the lease to the free state the peer recorded last. -/
def rewind : Db ι :=
  let l := s.lease i
  if s.peered i && s.peer.serviceState == .notCooperating && l.nextBindingState == .expired &&
      ((s.peer.iAm == .primary && l.rewindBindingState == .free) ||
        (s.peer.iAm == .secondary && l.rewindBindingState == .backup)) then
    s.modify i fun l => { l with nextBindingState := l.rewindBindingState }
  else s

def nextIn (q : List ι) (i : ι) : Option ι := (q.dropWhile (· ≠ i)).tail.head?

/-- Move the leases from `lease` on whose time has come; `none` is a fatal error. Returns the
earlier of `next_expiry` and the time of the lease it stopped at. -/
def runQueue (p : ℕ) (q : Queue) : ℕ → Db ι → Option ι → Time → Option (Db ι × Time)
  | 0, _, _, _ => none
  | _ + 1, s, none, nextExpiry => some (s, nextExpiry)
  | n + 1, s, some lease, nextExpiry =>
    let next := nextIn ((s.pool p).queue q) lease
    if (s.lease lease).sortTime > s.curTime then
      some (s, if (s.lease lease).sortTime < nextExpiry then (s.lease lease).sortTime
        else nextExpiry)
    else if (s.lease lease).nextBindingState ≠ (s.lease lease).bindingState then do
      let (_, s) ← (s.rewind lease).justMoveIt lease none true true true
      runQueue p q n s next nextExpiry
    else runQueue p q n s next nextExpiry

/-- With a peer, leases expire by the primary or when it is away, and are freed by an update. -/
def skipsQueue (p : ℕ) (q : Queue) : Bool :=
  (s.pool p).failoverPeer && s.peer.meState != .partnerDown &&
    (q == .expired || (q == .active && s.peer.iAm == .secondary && s.peer.meState == .normal))

/-- Each lease takes at most three transitions, and is met once more than that. -/
def queueFuel (ι : Type) [Fintype ι] : ℕ := 4 * Fintype.card ι + 1

def poolTimerQueue (p : ℕ) (st : Db ι × Time) (q : Queue) : Option (Db ι × Time) :=
  if ((st.1.pool p).queue q).isEmpty || st.1.skipsQueue p q then some st
  else runQueue p q (queueFuel ι) st.1 ((st.1.pool p).queue q).head? st.2

/-- If something is to expire, and earlier than the timer is set to, or the timer has run out,
the timer is updated. -/
def updateTimer (p : ℕ) (nextExpiry : Time) : Db ι :=
  let net := (s.pool p).nextEventTime
  if nextExpiry ≠ maxTime ∧ (net > nextExpiry ∨ net ≤ s.curTime) then s.schedulePool p nextExpiry
  else s.setNextEventTime p minTime

def poolTimer (p : ℕ) : Option (Db ι) := do
  let (s, nextExpiry) ← Queue.all.foldlM (poolTimerQueue p) (s, maxTime)
  return s.updateTimer p nextExpiry

/-! ### Superseding, releasing and abandoning a lease -/

/-- If the state has already expired, do an expiry event right now. -/
def expireNow : Option (Db ι) :=
  if (s.lease comp).sortTime < s.curTime ∧
      (s.lease comp).nextBindingState ≠ (s.lease comp).bindingState then
    match (s.lease comp).pool with
    | none => some s
    | some p => s.poolTimer p
  else some s

/-- `supersede_lease`, not called from `pool_timer`; `none` is a fatal error. -/
def supersedeLease (lease : Option Lease)
    (commit propogate pimmediate : Bool) : Option (Bool × Db ι) :=
  if pimmediate && !commit then some (false, s)
  else if lease.any fun l => l.flags.staticLease then some (true, s)
  else do
    let s := lease.elim s (s.copySample comp)
    let (ok, s) ← s.justMoveIt comp (lease.map Lease.flags) commit propogate pimmediate
    if ok && (commit || !pimmediate) then return (true, ← s.expireNow comp) else return (ok, s)

/-- The state a released lease moves to: with a peer that is away it may be rewound. -/
def releasedState : BindingState :=
  let rewind := (s.lease i).rewindBindingState
  if s.peered i then
    if s.peer.serviceState = .notCooperating ∧
        ((s.peer.iAm = .primary ∧ rewind = .free) ∨ (s.peer.iAm = .secondary ∧ rewind = .backup))
    then rewind
    else .released
  else .free

def releaseData (now : Time) (next : BindingState) (l : Lease) : Lease :=
  { l with onCommit := none, scope := none, ends := now, tstp := now, nextBindingState := next }

def releaseLease : Option (Db ι) :=
  let s := s.modify i fun l => { l with onRelease := none, onExpiry := none }
  match (s.lease i).bindingState with
  | .free | .backup | .released | .expired | .reset => some s
  | .active | .abandoned | .bogus _ =>
    ((s.modify i (releaseData s.curTime (s.releasedState i))).supersedeLease i none true true
      true).map
      Prod.snd

/-- The fields `lease_copy` does not copy are as in a new lease. -/
def leaseCopy (l : Lease) : Lease :=
  { l with sortTime := minTime, desiredBindingState := .bogus 0, lastXid := 0, ddnsCb := none }

def abandonData (ends : Time) (l : Lease) : Lease :=
  { leaseCopy l with
    scope := none
    ends := if ends > maxTime then maxTime else ends
    nextBindingState := .abandoned
    hardwareAddr := []
    uid := none }

def abandonLease : Option (Db ι) :=
  (s.supersedeLease i (some (abandonData (s.curTime + s.abandonLeaseTime) (s.lease i))) true true
    true).map Prod.snd

/-! ### Startup -/

/-- A lease in the backup state of a pool that no longer has a peer is made free. -/
def adoptBackup : Db ι :=
  if (s.lease i).bindingState = .backup ∧ s.peered i = false then
    s.modify i fun l =>
      { l with bindingState := .free, nextBindingState := .free, rewindBindingState := .free }
  else s

/-- The billing of a lease that is available for allocation is not kept. -/
def instantiateBilling : Db ι :=
  match (s.lease i).billingClass with
  | none => s
  | some c =>
    let s := s.modify i fun l => { l with billingClass := none }
    match (s.lease i).bindingState with
    | .active | .expired | .released | .reset => (s.billClass i c).2
    | _ => s

/-- Put a lease of the database on the right queue and into the chains of its client. -/
def leaseInstantiate : Db ι :=
  match (s.lease i).pool with
  | none => s
  | some _ =>
    match (s.adoptBackup i).leaseEnqueue i with
    | (false, s) => s
    | (true, s) => (s.enterChains i).instantiateBilling i

/-- The first part of `expire_all_pools`, for the leases in the order of their hash table. -/
def instantiateAll (leases : List ι) : Db ι :=
  { leases.foldl leaseInstantiate { s with ssNosync := true, ssQfollow := true } with
    ssQfollow := false }

end Db

end IscDhcp
