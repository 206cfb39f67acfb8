import IscDhcp.Basic
import IscDhcp.Lib.HashTable
import IscDhcp.Lib.PtrQueue

/-!
The DHCPv4 lease database: leases, pools with their six queues, billing classes, the chains
of leases of one client, the failover peer and the pending timeouts.

Leases are named by the elements of a finite type `ι`. The data of a lease and the links
through it are kept apart, so that one kind of link is written without touching the others.
-/

namespace IscDhcp

open IscDhcp.Lib

structure Lease where
  starts : Time := minTime
  ends : Time := minTime
  sortTime : Time := minTime
  tstp : Time := minTime
  tsfp : Time := minTime
  atsfp : Time := minTime
  cltt : Time := minTime
  uid : Option Bytes := none
  hardwareAddr : Bytes := []
  flags : Flags := {}
  bindingState : BindingState := .free
  nextBindingState : BindingState := .free
  desiredBindingState : BindingState := .free
  rewindBindingState : BindingState := .free
  lastXid : ℕ := 0
  pool : Option ℕ := none
  billingClass : Option ℕ := none
  -- objects that are only passed on
  host : Option ℕ := none
  scope : Option ℕ := none
  agentOptions : Option ℕ := none
  clientHostname : Option ℕ := none
  onExpiry : Option ℕ := none
  onCommit : Option ℕ := none
  onRelease : Option ℕ := none
  ddnsCb : Option ℕ := none
  deriving DecidableEq, Repr

/-- The queues of a pool, in the order `pool_timer` visits them. -/
inductive Queue
  | free | active | expired | abandoned | backup | reserved
  deriving DecidableEq, Repr

def Queue.all : List Queue := [.free, .active, .expired, .abandoned, .backup, .reserved]

lemma Queue.mem_all (q : Queue) : q ∈ Queue.all := by cases q <;> decide

structure Pool (ι : Type) where
  queue : Queue → List ι := fun _ => []
  nextEventTime : Time := minTime
  freeLeases : ℤ := 0
  backupLeases : ℤ := 0
  failoverPeer : Bool := false

/-- A class that limits the leases billed to it. -/
structure Class (ι : Type) where
  leaseLimit : ℕ := 0
  leasesConsumed : ℤ := 0
  billedLeases : ℕ → Option ι := fun _ => none

/-- A hash table of leases by an identifier, and the links to the next lease with the same
identifier (`lease_uid_hash` with `n_uid`, `lease_hw_addr_hash` with `n_hw`). -/
structure Ids (ι : Type) where
  table : HashTable Bytes ι := .empty
  next : ι → Option ι := fun _ => none

inductive FailoverState
  | unknownState | startup | normal | communicationsInterrupted | partnerDown
  | potentialConflict | recover | paused | shutDown | recoverDone | resolutionInterrupted
  | conflictDone | recoverWait
  deriving DecidableEq, Repr

inductive ServiceState
  | unknownServiceState | cooperating | notCooperating | servicePartnerDown | notResponding
  | serviceStartup
  deriving DecidableEq, Repr

inductive Role
  | primary | secondary
  deriving DecidableEq, Repr

/-- A binding update or its acknowledgement (`failover_message_t`). The lease whose address
the message carries is named directly, `none` being an address outside the database. -/
structure BndMsg (ι : Type) where
  xid : ℕ := 0
  optionsPresent : ℕ := 0
  assignedAddr : Option ι := none
  bindingStatus : BindingState := .free
  clientIdentifier : Bytes := []
  chaddr : Bytes := []
  expiry : Time := minTime
  potentialExpiry : Time := minTime
  stos : Time := minTime
  cltt : Time := minTime
  ipFlags : ℕ := 0
  rejectReason : ℕ := 0
  message : String := ""
  deriving DecidableEq, Repr

/-- What is put on the link to the peer. -/
inductive OutMsg (ι : Type)
  | bndupd (m : BndMsg ι)
  | bndack (m : BndMsg ι)
  | upddone (xid : ℕ)
  deriving DecidableEq, Repr

/-- The state saved during startup is never startup itself. -/
abbrev SavedState := { st : FailoverState // st ≠ .startup }

lemma FailoverState.normal_ne_startup : normal ≠ startup := nofun
lemma FailoverState.recover_ne_startup : recover ≠ startup := nofun
lemma FailoverState.unknownState_ne_startup : unknownState ≠ startup := nofun

/-- `dhcp_failover_state_t`. -/
structure Peer (ι : Type) where
  iAm : Role := .primary
  meState : FailoverState := .normal
  meStos : Time := minTime
  partnerState : FailoverState := .normal
  savedState : SavedState := ⟨.normal, FailoverState.normal_ne_startup⟩
  serviceState : ServiceState := .cooperating
  mclt : Time := 0
  hba : Option (ℕ → Bool) := none
  maxLeaseMisbalance : ℕ := 15
  maxLeaseOwnership : ℕ := 10
  linkToPeer : Bool := false
  xid : ℕ := 0
  maxFlyingUpdates : ℤ := 0
  curUnackedUpdates : ℤ := 0
  /-- `update_queue_head` and `update_queue_tail`. -/
  updateQueue : PtrQueue ι := {}
  /-- `ack_queue_head` and `ack_queue_tail`. -/
  ackQueue : PtrQueue ι := {}
  sendUpdateDone : Option ι := none
  updxid : ℕ := 0
  toackQueue : List (BndMsg ι) := []
  pendingAcks : ℤ := 0
  sent : List (OutMsg ι) := []

/-- What an answer is: the argument `offer` of `ack_lease`, `0` for an answer to BOOTP. -/
inductive Offer
  | bootp | dhcpoffer | dhcpack
  deriving DecidableEq, Repr

/-- `struct lease_state`: the answer to a client, from its making until it is sent. -/
structure LeaseState where
  offer : Offer
  offeredExpiry : Time := minTime
  /-- The options for the lease time, the renewal time and the rebinding time. -/
  expiry : Option ℕ := none
  renewalTime : Option Bytes := none
  rebindingTime : Option Bytes := none
  /-- The lease with the binding that was made for this answer, if there was one to make. -/
  binding : Option Lease := none
  deriving DecidableEq, Repr

/-- What others get to see: a record of a lease in the lease file, a commit of the file, and an
answer to a client. -/
inductive Effect (ι : Type)
  | wrote (i : ι) (l : Lease)
  | committed
  | replied (i : ι) (st : LeaseState)
  deriving DecidableEq, Repr

/-- What a timeout runs, with its argument. -/
inductive TimeoutFn
  | poolTimer (pool : ℕ)
  deriving DecidableEq, Repr

structure Db (ι : Type) where
  curTime : Time := minTime
  lease : ι → Lease
  pool : ℕ → Pool ι := fun _ => {}
  /-- The pools of the shared networks. -/
  pools : List ℕ := [0]
  cls : ℕ → Class ι := fun _ => {}
  uids : Ids ι := {}
  hws : Ids ι := {}
  nextPending : ι → Option ι := fun _ => none
  peer : Peer ι := {}
  timeouts : List (TimeoutFn × Time) := []
  /-- `SS_NOSYNC` and `SS_QFOLLOW` of `server_starting`. -/
  ssNosync : Bool := false
  ssQfollow : Bool := false
  /-- Where `lease_insert` put the last lease: pool, queue and lease. -/
  lastInsert : Option (ℕ × Queue × ι) := none
  abandonLeaseTime : Time := 0
  /-- How the address of a lease is printed. -/
  piaddr : ι → String := fun _ => ""
  /-- The results of the writes, commits and sends to come; they succeed when it runs out. -/
  io : List Bool := []
  /-- What has been done so far. -/
  log : List (Effect ι) := []

namespace Db

variable {ι : Type} [DecidableEq ι]

variable (s : Db ι) (i : ι) (p : ℕ)

def setLease (l : Lease) : Db ι := { s with lease := Function.update s.lease i l }

def modify (f : Lease → Lease) : Db ι := s.setLease i (f (s.lease i))

def setPool (x : Pool ι) : Db ι := { s with pool := Function.update s.pool p x }

def ask : Bool × Db ι :=
  match s.io with
  | [] => (true, s)
  | b :: io => (b, { s with io := io })

def emit (e : Effect ι) : Db ι := { s with log := s.log ++ [e] }

/-- Do something whose success is remembered. -/
def askAnd (e : Effect ι) : Bool × Db ι :=
  match s.ask with
  | (false, s) => (false, s)
  | (true, s) => (true, s.emit e)

lemma ask_eq : s.ask = (s.io.headD true, { s with io := s.io.tail }) := by
  cases h : s.io <;> simp [ask, h]
  rw [← h]

lemma askAnd_eq (e : Effect ι) : s.askAnd e = (s.io.headD true,
      { s with io := s.io.tail, log := if s.io.headD true then s.log ++ [e] else s.log }) := by
  rw [askAnd, ask_eq]
  cases s.io.headD true <;> rfl

lemma proj_askAnd {β : Type*} (f : Db ι → β)
    (hf : ∀ (s : Db ι) (io : List Bool) (log : List (Effect ι)),
      f { s with io := io, log := log } = f s) (s : Db ι) (e : Effect ι) :
    f (s.askAnd e).2 = f s := by
  rw [askAnd_eq]
  exact hf ..

/-- The pool of the lease belongs to the failover peer. -/
def peered : Bool :=
  match (s.lease i).pool with
  | none => false
  | some p => (s.pool p).failoverPeer

/-- `add_timeout`: a pending timeout of the same function and argument is replaced, and the
interval is limited to `TIME_MAX - 1`. -/
def addTimeout (fn : TimeoutFn) (when : Time) : Db ι :=
  let sec := if when - s.curTime ≥ timeMax then timeMax - 1 else when - s.curTime
  { s with timeouts := (fn, s.curTime + sec) :: s.timeouts.eraseP fun e => e.1 = fn }

def setNextEventTime (t : Time) : Db ι :=
  s.setPool p { s.pool p with nextEventTime := t }

def schedulePool (t : Time) : Db ι :=
  (s.setNextEventTime p t).addTimeout (.poolTimer p) t

end Db

end IscDhcp
