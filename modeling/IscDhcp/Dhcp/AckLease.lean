import IscDhcp.Mdb.Supersede
import IscDhcp.Lib.BigEndian

/-!
`ack_lease` (`dhcp.c`): from a lease that was found for a client to the answer that offers or
acknowledges it.

What the statements of the configuration yield for a packet is not computed here. The options they
set are given with each call as `Settings`, and may be others at the next one.
-/

namespace IscDhcp.Dhcp

variable {ι : Type} [DecidableEq ι] [Fintype ι]

def infiniteTime : ℕ := 0xffffffff
def defaultDefaultLeaseTime : Time := 43200
def defaultMinLeaseTime : Time := 300
def defaultMaxLeaseTime : Time := 86400
def defaultCacheThreshold : ℕ := 25
def intMax : ℤ := 0x7fffffff

/-- A hostname that a client sends. Of one with a NUL in it only a part is kept in the lease. -/
structure HostName where
  name : ℕ
  nul : Bool := false
  deriving DecidableEq, Repr

structure Packet where
  /-- It is a `DHCPREQUEST`. -/
  request : Bool := false
  secs : ℕ := 0
  classes : List ℕ := []
  /-- The first declaration without a fixed address that matches the client. -/
  host : Option ℕ := none
  clientIdentifier : Option Bytes := none
  leaseTime : Option Bytes := none
  hostName : Option HostName := none
  agentOptions : Option ℕ := none
  agentOptionsStashed : Bool := false
  /-- The type and the address of the client's hardware. -/
  hardwareAddr : Bytes := []
  /-- The client wants its strings to end in NUL. -/
  msNulltp : Bool := false

structure Settings where
  oneLeasePerClient : Bool := false
  duplicates : Option Bool := none
  minSecs : Option Bytes := none
  bootUnknownClients : Option Bool := none
  allowBootp : Option Bool := none
  allowBooting : Option Bool := none
  defaultLeaseTime : Option Bytes := none
  maxLeaseTime : Option Bytes := none
  minLeaseTime : Option Bytes := none
  reserveInfinite : Bool := false
  adaptiveLeaseTimeThreshold : Option Bytes := none
  bootpLeaseLength : Option Bytes := none
  bootpLeaseCutoff : Option Bytes := none
  ignoreClientUids : Bool := false
  stashAgentOptions : Bool := true
  cacheThreshold : Option Bytes := none
  renewalTime : Option Bytes := none
  rebindingTime : Option Bytes := none
  /-- The option space of `site-option-space` exists, if there is one. -/
  siteOptionSpaceKnown : Bool := true
  pingChecks : Bool := true
  haveBillingClasses : Bool := false
  hasSuperclass : ℕ → Bool := fun _ => true
  /-- The declaration has a client identifier. -/
  hostHasIdentifier : ℕ → Bool := fun _ => false
  /-- What `ddns_updates` leaves to be done when an update of the names is due. -/
  ddnsCb : Option ℕ := none
  -- of the pool of the lease
  leaseCount : ℤ := 1
  validFrom : Time := 0
  validUntil : Time := 0

structure Server (ι : Type) where
  db : Db ι
  state : ι → Option LeaseState := fun _ => none
  cannotReuse : ι → Bool := fun _ => false
  /-- The server was built with `DELAYED_ACK`. -/
  delayedAck : Bool := false
  /-- The leases from `ackqueue_head` to `ackqueue_tail`. -/
  ackqueue : List ι := []
  outstandingAcks : ℕ := 0
  maxOutstandingAcks : ℕ := 28
  /-- How often `delayed_acks_timer` could not commit the leases; the server does not count this. -/
  failedCommits : ℕ := 0
  /-- The leases with a timeout to `lease_ping_timeout`. -/
  pinged : List ι := []
  outstandingPings : ℤ := 0

namespace Server

variable (s : Server ι) (i : ι)

def setDb (db : Db ι) : Server ι := { s with db := db }

def modify (f : Lease → Lease) : Server ι := s.setDb (s.db.modify i f)

def setState (st : Option LeaseState) : Server ι :=
  { s with state := Function.update s.state i st }

def setCannotReuse (b : Bool) : Server ι :=
  { s with cannotReuse := Function.update s.cannotReuse i b }

end Server

/-- The value of an option of four bytes. -/
def ulong (o : Option Bytes) : Option ℕ := o.bind fun d =>
  if d.length = 4 then some (BigEndian.ofBytes d) else none

/-! ### One lease for each client -/

/-- A lease in one of the other states has already been given up. -/
def inUse : BindingState → Bool
  | .released | .expired | .reset | .free | .backup => false
  | .active | .abandoned | .bogus _ => true

/-- The first other lease from `seek` on that is in use. -/
def seekOther (s : Db ι) (next : ι → Option ι) (lease : ι) : ℕ → Option ι → Option ι
  | 0, _ => none
  | _, none => none
  | n + 1, some seek =>
    if seek ≠ lease ∧ inUse (s.lease seek).bindingState then some seek
    else seekOther s next lease n (next seek)

/-- Release the client's other leases, which are found in `ids`, one after the other; `none` if
this does not come to an end. -/
def releaseOthers (head : Db ι → Option ι) (ids : Db ι → Ids ι) (lease : ι) :
    ℕ → Db ι → Option (Db ι)
  | 0, _ => none
  | n + 1, s =>
    match head s with
    | none => some s
    | some seek =>
      if seek = lease ∧ (ids s).next seek = none then some s
      else
        match seekOther s (ids s).next lease (Fintype.card ι + 1) (some seek) with
        | none => some s
        | some seek => (s.releaseLease seek).bind (releaseOthers head ids lease n)

section

variable (s : Db ι) (i : ι) (offer : Offer) (cfg : Settings) (packet : Packet)

def releaseByUid : Option (Db ι) :=
  if s.uidKey i = [] then some s
  else releaseOthers (fun s => s.findLeaseByUid (s.uidKey i)) Db.uids i (Fintype.card ι + 1) s

/-- Also a client with an identifier is known by its hardware, if `duplicates` are denied and its
declaration has no identifier. -/
def releaseByHwAddr (host : Option ℕ) : Option (Db ι) :=
  if s.uidKey i = [] ∨ (cfg.duplicates = some false ∧ host.any (!cfg.hostHasIdentifier ·)) then
    releaseOthers (fun s => s.findLeaseByHwAddr (s.hwKey i)) Db.hws i (Fintype.card ι + 1) s
  else some s

/-- The client may have one lease only, and has asked for this one. -/
def onlyThisLease (host : Option ℕ) : Option (Db ι) :=
  if packet.request && cfg.oneLeasePerClient then
    (releaseByUid s i).bind fun s => releaseByHwAddr s i cfg host
  else some s

/-! ### Refusals -/

/-- The client has not waited for as long as it must. -/
def tooEarly : Bool :=
  match offer, cfg.minSecs with
  | .dhcpoffer, some (b :: _) => packet.secs < b.toNat
  | _, _ => false

def denied (host : Option ℕ) : Bool :=
  (host.isNone && cfg.bootUnknownClients == some false) ||
    (offer == .bootp && cfg.allowBootp == some false) || cfg.allowBooting == some false

/-- Bill the lease to the first class that has room for it. Also tells whether there was a class
with a limit; `none` is the fault for want of a superclass. -/
def billFirst (cfg : Settings) (i : ι) : List ℕ → Db ι → Option (Bool × Bool × Db ι)
  | [], s => some (false, false, s)
  | c :: classes, s =>
    if (s.cls c).leaseLimit = 0 then billFirst cfg i classes s
    else
      match s.billClass i c with
      | (true, s) => some (true, true, s)
      | (false, s) =>
        if cfg.hasSuperclass c then
          (billFirst cfg i classes s).map fun r => (r.1, true, r.2.2)
        else none

/-- The lease is billed to a class no longer if the packet is not in it. -/
def unbillOther (s : Server ι) (i : ι) (packet : Packet) : Server ι :=
  match (s.db.lease i).billingClass with
  | none => s
  | some c =>
    if c ∈ packet.classes then s
    else
      let s := s.setDb (s.db.unbillClass i)
      if (s.db.lease i).bindingState = .active then s.setCannotReuse i true else s

/-- Find a class to bill the lease to; `false` if there is none with room for it. -/
def billOne (s : Server ι) (i : ι) (offer : Offer) (cfg : Settings) (packet : Packet) :
    Option (Bool × Server ι) :=
  (billFirst cfg i packet.classes s.db).map fun r =>
    let s := s.setDb r.2.2
    if r.2.1 && !r.1 then (false, s)
    else
      -- an offer is not billed
      let s := if offer = .dhcpoffer ∧ (s.db.lease i).billingClass.isSome ∧
          (s.db.lease i).bindingState ≠ .active then s.setDb (s.db.unbillClass i) else s
      (true, if (s.db.lease i).billingClass.isSome then s.setCannotReuse i true else s)

def bill (s : Server ι) (i : ι) (offer : Offer) (cfg : Settings) (packet : Packet) :
    Option (Bool × Server ι) :=
  if cfg.haveBillingClasses && !(s.db.lease i).flags.staticLease then
    let s := unbillOther s i packet
    if (s.db.lease i).billingClass.isNone then billOne s i offer cfg packet else some (true, s)
  else some (true, s)

/-! ### The lease time -/

def requestedTime : Time :=
  (ulong packet.leaseTime).getD ((ulong cfg.defaultLeaseTime).getD defaultDefaultLeaseTime)

def maxLeaseTime : Time := (ulong cfg.maxLeaseTime).getD defaultMaxLeaseTime

def minLeaseTime : Time :=
  (ulong cfg.minLeaseTime).getD (min defaultMinLeaseTime (maxLeaseTime cfg))

def poolFilled (x : Pool ι) : ℤ :=
  let count := cfg.leaseCount
  let total := count - (x.freeLeases + x.backupLeases)
  if total > intMax.tdiv 100 then total.tdiv (count.tdiv 100) else (total * 100).tdiv count

variable (l : Lease)

/-- A pool that is nearly full gives short leases only, but a client may keep its lease. -/
def adaptiveTime (cfg : Settings) (leaseTime : Time) : Time :=
  match l.pool, cfg.adaptiveLeaseTimeThreshold with
  | some p, some [threshold] =>
    if 0 < threshold.toNat ∧ threshold.toNat < 100 then
      let least := if minLeaseTime cfg ≠ 0 then minLeaseTime cfg else defaultMinLeaseTime
      let adaptive := if l.ends > s.curTime + least then l.ends - s.curTime else least
      if poolFilled cfg (s.pool p) ≥ threshold.toNat ∧ leaseTime > adaptive then adaptive
      else leaseTime
    else leaseTime
  | _, _ => leaseTime

/-- The time that the pool leaves; `none` if it is not valid now. -/
def poolLimit (cfg : Settings) (leaseTime : Time) : Option Time :=
  match l.pool with
  | none => some leaseTime
  | some _ =>
    if cfg.validFrom ≠ 0 ∧ s.curTime < cfg.validFrom then none
    else if cfg.validUntil = 0 then some leaseTime
    else if s.curTime ≥ cfg.validUntil then none
    else some (min leaseTime (cfg.validUntil - s.curTime))

/-- The time that the server would like to give the client; `none` is a `DHCPNAK`. -/
def desiredTime (cfg : Settings) (packet : Packet) : Option Time :=
  (poolLimit s l cfg (adaptiveTime s l cfg (min (requestedTime cfg packet) (maxLeaseTime cfg)))).map
    fun leaseTime =>
      if leaseTime < minLeaseTime cfg then
        if minLeaseTime cfg ≠ 0 then minLeaseTime cfg
        else (ulong cfg.defaultLeaseTime).getD defaultDefaultLeaseTime
      else leaseTime

/-- Each server can only offer a lease time of `mclt`, or up to `mclt` after `tsfp`. -/
def mcltTime (curTime tsfp mclt leaseTime : Time) : Time :=
  if leaseTime > mclt then
    if tsfp ≤ curTime then mclt
    else if curTime + leaseTime > tsfp + mclt then (tsfp - curTime) + mclt
    else leaseTime
  else leaseTime

/-- `leaseTimeCheck`, where `TIME` has more than four bytes. -/
def leaseTimeCheck (curTime calculated alternate : Time) : Time :=
  if calculated ≥ infiniteTime ∨ calculated < curTime then alternate else calculated

/-- An expiry `after` seconds from now; an infinite one if the lease is for an infinite time. -/
def expiryTime (curTime leaseTime after : Time) : Time :=
  if leaseTime =
    infiniteTime then maxTime else leaseTimeCheck curTime (curTime + after) (maxTime - 1)

def offeredExpiry (curTime leaseTime : Time) : Time := expiryTime curTime leaseTime leaseTime

/-- A dynamic lease for a BOOTP client is for ever, unless configured otherwise. -/
def bootpExpiry (curTime : Time) (cfg : Settings) : Time :=
  match ulong cfg.bootpLeaseCutoff, ulong cfg.bootpLeaseLength with
  | some cutoff, _ => cutoff
  | none, some length => curTime + length
  | none, none => maxTime

/-! ### The sample lease -/

/-- What is known to the failover peer, if the lease is given for `leaseTime`. -/
def failoverTimes (leaseTime : Time) (lt : Lease) : Lease :=
  let new := mcltTime s.curTime l.tsfp s.peer.mclt leaseTime
  let tstp := if offer =
    .dhcpack then expiryTime s.curTime leaseTime (leaseTime + new / 2) else l.tstp
  -- an old expiry time must not be offered before the peer knows of the reduction
  let tsfp := if offer = .dhcpack ∧ tstp < l.tsfp then tstp else l.tsfp
  { lt with tstp := tstp, tsfp := tsfp, atsfp := l.atsfp }

/-- The times of the sample lease, and the expiry time that is offered; `none` is a `DHCPNAK`. -/
def sampleTimes (when : Time) (cfg : Settings) (packet : Packet)
    (lt : Lease) : Option (Lease × Time) :=
  let l := s.lease i
  match offer with
  | .bootp =>
    let ends := bootpExpiry s.curTime cfg
    some ({ lt with ends := ends, nextBindingState := .active }, ends)
  | _ =>
    (desiredTime s l cfg packet).map fun leaseTime =>
      let lt := if s.peered i then failoverTimes s offer l leaseTime lt else lt
      let leaseTime :=
        if s.peered i then mcltTime s.curTime l.tsfp s.peer.mclt leaseTime else leaseTime
      let expiry := offeredExpiry s.curTime leaseTime
      ({ lt with
          ends := if when ≠ 0 then when else expiry
          nextBindingState := if offer = .dhcpack then .active else l.bindingState }, expiry)

/-- The client asks for an infinite lease, and this reserves it. -/
def reserves : Bool :=
  offer != .bootp && ulong packet.leaseTime == some infiniteTime && cfg.reserveInfinite

def sampleFlags (flags : Flags) : Flags :=
  { flags with
    bootp := offer == .bootp || flags.bootp
    reserved := reserves offer cfg packet || flags.reserved
    msNullTermination := packet.msNulltp
    onUpdateQueue := false
    onAckQueue := false }

/-- The agent options of the packet are kept, for when the client renews without a relay. -/
def sampleAgentOptions : Option ℕ :=
  if packet.agentOptionsStashed || !cfg.stashAgentOptions then l.agentOptions
  else packet.agentOptions.or l.agentOptions

def sampleClient (host : Option ℕ) : Lease :=
  let l := s.lease i
  { starts := s.curTime
    cltt := s.curTime
    uid := if cfg.ignoreClientUids then none else packet.clientIdentifier
    host := host
    billingClass := l.billingClass
    scope := l.scope
    agentOptions := sampleAgentOptions cfg packet l
    clientHostname := packet.hostName.map HostName.name
    hardwareAddr := packet.hardwareAddr
    flags := sampleFlags offer cfg packet l.flags
    ddnsCb := if offer = .dhcpoffer then none else cfg.ddnsCb }

def sameHostname : Bool :=
  packet.hostName.any fun h => !h.nul && l.clientHostname == some h.name

def mustRecord : Bool :=
  (packet.hostName.isSome && !sameHostname packet l) ||
    (reserves offer cfg packet && !l.flags.reserved)

end

/-- What is moved from the lease into the sample lease, or used up. -/
def takeOver (offer : Offer) (packet : Packet) (l : Lease) : Lease :=
  { l with
    flags := { l.flags with msNullTermination := packet.msNulltp }
    scope := none
    clientHostname := if sameHostname packet l then none else l.clientHostname
    onCommit := if offer = .dhcpoffer then l.onCommit else none }

/-! ### Reuse of a young lease -/

def toInt (n : ℤ) : ℤ := n.bmod (2 ^ 32)

def cacheThreshold (cfg : Settings) : ℕ :=
  match cfg.cacheThreshold with
  | some [b] => if b.toNat < 100 then b.toNat else defaultCacheThreshold
  | _ => defaultCacheThreshold

def reuseLimit (thresh : ℕ) (l : Lease) : ℤ :=
  let length := toInt (l.ends - l.starts)
  if length ≤ intMax / thresh then (toInt (length * thresh)).tdiv 100 else length.tdiv 100 * thresh

/-- The lease is the client's, and has not changed. -/
def unchanged (l lt : Lease) : Bool :=
  l.bindingState == .active && lt.ddnsCb.isNone && l.host == lt.host &&
    l.uid.getD [] == lt.uid.getD [] && l.hardwareAddr == lt.hardwareAddr

def reusable (cannotReuse : Bool) (cfg : Settings) (l lt : Lease) : Bool :=
  !cannotReuse && unchanged l lt && 0 < cacheThreshold cfg &&
    ((lt.starts : ℤ) - l.starts ≤ reuseLimit (cacheThreshold cfg) l : Bool)

def restore (lt l : Lease) : Lease :=
  { l with scope := lt.scope.or l.scope, clientHostname := lt.clientHostname.or l.clientHostname }

def reuseLease (s : Server ι) (i : ι) (offer : Offer) (cfg : Settings) (lt : Lease) :
    Bool × Server ι :=
  if reusable (s.cannotReuse i) cfg (s.db.lease i) lt then
    (true, (s.modify i (restore lt)).setCannotReuse i false)
  else (false, s.setCannotReuse i (offer = .dhcpoffer))

/-! ### The answer -/

/-- The difference of two times, in the four bytes of an option. -/
def timeLeft (expiry curTime : Time) : ℕ := (((expiry : ℤ) - curTime) % bit32).toNat

/-- A rebinding time that is not before the end of the lease is dropped, and a renewal time that is
not before both. -/
def answerTimes (curTime : Time) (cfg : Settings) (st : LeaseState) : LeaseState :=
  let offered : ℤ := (st.offeredExpiry : ℤ) - curTime
  let rebinding := cfg.rebindingTime.filter fun d => (BigEndian.ofBytes (d.take 4) : ℤ) < offered
  let offered := rebinding.elim offered fun d => (BigEndian.ofBytes (d.take 4) : ℤ)
  { st with
    expiry := some (timeLeft st.offeredExpiry curTime)
    rebindingTime := rebinding
    renewalTime := cfg.renewalTime.filter fun d => (BigEndian.ofBytes (d.take 4) : ℤ) < offered }

def makeState (curTime : Time) (offer : Offer) (cfg : Settings) (expiry : Time) : LeaseState :=
  let st : LeaseState := { offer := offer, offeredExpiry := expiry }
  if offer = .bootp then st else answerTimes curTime cfg st

namespace Server

variable (s : Server ι) (i : ι) (offer : Offer) (cfg : Settings) (packet : Packet)

/-- `dhcp_reply`; `none` is the fatal error that there is nothing to send. -/
def dhcpReply : Option (Server ι) :=
  (s.state i).map fun st => (s.setDb (s.db.emit (.replied i st))).setState i none

/-- If we're in failover we need to send any deferred bind updates as well as the replies. -/
def sendDeferred : Server ι :=
  if s.db.peered i && s.db.peer.linkToPeer then s.setDb s.db.dhcpFailoverSendUpdates.2 else s

/-- An acknowledgement is sent, unless it has gone stale. -/
def sendDelayed : Server ι :=
  let s := s.sendDeferred i
  (s.dhcpReply i).getD s

/-- Nobody asks whether the leases could be committed. -/
def commitDelayed : Server ι :=
  { s.setDb s.db.commitLeases.2 with
    failedCommits := s.failedCommits + if s.db.commitLeases.1 then 0 else 1 }

def sendQueue : Server ι :=
  { s.ackqueue.reverse.foldl sendDelayed s with ackqueue := [], outstandingAcks := 0 }

def delayedAcksTimer : Server ι :=
  if s.outstandingAcks = 0 then s else s.commitDelayed.sendQueue

def pushAck : Server ι :=
  { s with ackqueue := i :: s.ackqueue, outstandingAcks := s.outstandingAcks + 1 }

/-- A queue that is too long is sent at once; when the timer is to run otherwise is left open. -/
def flushAcks : Server ι :=
  if s.outstandingAcks > s.maxOutstandingAcks then s.delayedAcksTimer else s

def delayedAckEnqueue : Server ι :=
  match s.db.writeLease i with
  | (false, db) => s.setDb db
  | (true, db) => ((s.setDb db).pushAck i).flushAcks

/-- The offered address is pinged first, if nobody has been heard of there for a while. -/
def pings (cltt : Time) : Bool :=
  offer == .dhcpoffer && !(s.db.lease i).flags.staticLease && cfg.pingChecks &&
    (decide (s.db.curTime > cltt + 60) || (s.db.lease i).bindingState == .abandoned)

/-- The answer is ready. `bound` says that a binding was made for it. -/
def hold (st : LeaseState) (bound : Bool) : Server ι :=
  let s := s.modify i fun l => { l with cltt := s.db.curTime }
  s.setState i (some { st with binding := if bound then some (s.db.lease i) else none })

/-- The answer is sent, queued, or sent later if the address does not answer. -/
def answer (st : LeaseState) (cltt : Time) (bound enqueue : Bool) : Option (Server ι) :=
  if s.pings i st.offer cfg cltt then
    some { s.setState i (some st) with
      pinged := i :: s.pinged.filter (· ≠ i), outstandingPings := s.outstandingPings + 1 }
  else if enqueue then some ((s.hold i st bound).delayedAckEnqueue i)
  else (s.hold i st bound).dhcpReply i

def update (lt : Lease) : Option (Bool × Db ι) :=
  if s.delayedAck then s.db.supersedeLease i (some lt) false (offer ≠ .dhcpoffer) false
  else s.db.supersedeLease i (some lt) (offer ≠ .dhcpoffer) (offer = .dhcpack) (offer = .dhcpack)

/-- Install the sample lease, unless the old one will do. Returns whether the update has succeeded
and whether it was needed. -/
def install (lt : Lease) : Option (Bool × Bool × Server ι) :=
  let (old, s) := reuseLease s i offer cfg lt
  if old then some (true, false, s)
  else (s.update i offer lt).map fun r => (r.1, true, s.setDb r.2)

/-- The answer with the expiry time is made, and sent or queued. Also returns the answer, if there
is one. -/
def finish (cltt expiry : Time) (bound : Bool) : Option (Option LeaseState × Server ι) :=
  let st := makeState s.db.curTime offer cfg expiry
  if cfg.siteOptionSpaceKnown then
    (s.answer i cfg st cltt bound (s.delayedAck && bound)).map fun s => (some st, s)
  else some (none, s)

/-- A mocked-up lease is not in the database. -/
def concludeStatic (cltt expiry : Time) : Option (Option LeaseState × Server ι) :=
  (s.modify i fun l => { l with hardwareAddr := packet.hardwareAddr }).finish i offer cfg cltt
    expiry
    false

def concludeDynamic (cltt : Time)
    (lt : Lease) (expiry : Time) : Option (Option LeaseState × Server ι) :=
  -- a lease that is reused keeps its expiry time
  let ends := (s.db.lease i).ends
  (s.install i offer cfg lt).bind fun (ok, bound, s) =>
    if ok then
      s.finish i offer cfg cltt (if bound then expiry else ends) (bound && offer != .dhcpoffer)
    else some (none, s)

/-- What is moved into the sample lease is taken from the lease, which may not be reused if
something is to be recorded. -/
def prepare : Server ι :=
  let s := if mustRecord offer cfg packet (s.db.lease i) then s.setCannotReuse i true else s
  s.modify i (takeOver offer packet)

def conclude (cltt : Time) (lt : Lease) (expiry : Time) : Option (Option LeaseState × Server ι) :=
  let s := s.prepare i offer cfg packet
  if (s.db.lease i).flags.staticLease then s.concludeStatic i offer cfg packet cltt expiry
  else s.concludeDynamic i offer cfg cltt lt expiry

/-- The old statements are replaced by those that the configuration sets now. -/
def forgetStatements : Server ι :=
  if (s.db.lease i).ends ≤ s.db.curTime ∧ offer ≠ .dhcpoffer then
    s.modify i fun l => { l with onExpiry := none, onCommit := none, onRelease := none }
  else s

/-- The part of `ack_lease` in which the client may be refused; `false` if it is. -/
def admitClient (i : ι) (offer : Offer) (cfg : Settings)
    (host : Option ℕ) : Option (Bool × Server ι) :=
  let s := s.forgetStatements i offer
  (onlyThisLease s.db i cfg packet host).bind fun db =>
    if tooEarly offer cfg packet || denied offer cfg (host.or packet.host) then
      some (false, s.setDb db)
    else bill (s.setDb db) i offer cfg packet

/-- `ack_lease`. Also returns the answer that is made, if there is one; `none` is a fatal error.
`hp` is a declaration that is already known, and `when` a time at which an offer ends. -/
def ackLease (i : ι) (offer : Offer) (when : Time) (cfg : Settings)
    (hp : Option ℕ) : Option (Option LeaseState × Server ι) :=
  -- if we're already acking this lease, don't do it again
  if (s.state i).isSome then some (none, s)
  else
    let cltt := (s.db.lease i).cltt
    let host := hp.or (s.db.lease i).host
    (s.admitClient packet i offer cfg host).bind fun (ok, s) =>
      if ok then
        let client := sampleClient s.db i offer cfg packet (host.or packet.host)
        match sampleTimes s.db i offer when cfg packet client with
        | none => some (none, s)
        | some (lt, expiry) => s.conclude i offer cfg packet cltt lt expiry
      else some (none, s)

/-! ### Pings -/

def leasePingTimeout : Option (Server ι) :=
  { s with
    pinged := s.pinged.filter (· ≠ i)
    outstandingPings := s.outstandingPings - 1 }.dhcpReply i

/-- `lease_pinged`: an answer from the address of the lease, which need not be asked for. -/
def leasePinged : Option (Server ι) :=
  if s.outstandingPings = 0 ∨ (s.state i).isNone then some s
  else
    (s.db.abandonLease i).map fun db =>
      { (s.setState i none).setDb db with
        pinged := s.pinged.filter (· ≠ i), outstandingPings := s.outstandingPings - 1 }

end Server

end IscDhcp.Dhcp
