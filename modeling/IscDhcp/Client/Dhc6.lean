import IscDhcp.Client.Lease6

/-!
The DHCPv6 client (`client/dhc6.c`) as a state machine. What happens to it are messages that come
in and timers that go off; whatever it wants to do later is a pending timer.
-/

namespace IscDhcp.Client6

/-- `enum dhcp_state`, as far as the client uses it. -/
inductive State
  | rebooting | init | selecting | bound | renewing | rebinding | stopped
  deriving DecidableEq, Repr

inductive Handler
  | null | init | rapidCommit | reply | bound
  deriving DecidableEq, Repr

inductive Timer
  | doInit6 | doConfirm6 | doSelect6 | doRefresh6 | doRelease6
  | startRenew6 | startRebind6 | doDepref | doExpire
  deriving DecidableEq, Repr

inductive RefreshType
  | renew | rebind
  deriving DecidableEq, Repr

inductive Site
  | doConfirm6 | selectAction | replyAction | checkReply | startSelecting6 | replyHandler
  | checkTimes | startBound | doRefresh6
  deriving DecidableEq, Repr

/-- Why the process is gone: `log_fatal`, a null pointer, or `finish`. -/
inductive Stop
  | fatal (site : Site)
  | crash
  | finish
  deriving DecidableEq, Repr

inductive Rval
  | success | failure | formErr | addrNotAvail | canceled
  deriving DecidableEq, Repr

/-- The time of an event (`cur_tv`), and whether the other clients of the process have stopped. -/
structure Moment where
  sec : ℤ
  usec : ℤ
  othersStopped : Bool
  deriving DecidableEq, Repr

/-- `struct client_state`. `timers` says which timers are pending: for each function there is at
most one, since `add_timeout` moves one that is there. -/
structure Client where
  state : State := .init
  handler : Handler := .null
  activeLease : Option Lease
  selectedLease : Option Lease := none
  advertisedLeases : List Lease := []
  timers : Timer → Bool := fun _ => false
  txcount : ℕ := 0
  startTime : ℤ × ℤ := (0, 0)
  mrc : ℕ := 0
  mrd : ℤ := 0
  nextMrd : ℤ := 0
  refreshType : Option RefreshType := none
  stop : Option Stop := none

def reqMaxRc : ℕ := 10
def relMaxRc : ℕ := 5
def cnfMaxRd : ℤ := 10

namespace Client

def addTimeout (c : Client) (k : Timer) : Client :=
  { c with timers := Function.update c.timers k true }

def cancelTimeout (c : Client) (k : Timer) : Client :=
  { c with timers := Function.update c.timers k false }

def fatal (c : Client) (site : Site) : Client := { c with stop := some (.fatal site) }

/-- `if (stopping_finished ()) finish ()` for a client that has stopped itself. -/
def stoppingFinished (c : Client) (m : Moment) : Client :=
  if m.othersStopped then { c with stop := some .finish } else c

variable (cfg : Config) (m : Moment) (c : Client)

def startInit6 : Client :=
  { c with
    state := .init, mrc := 0, mrd := if cfg.onetry then cfg.timeout else 0, txcount := 0
    handler := .init }.addTimeout .doInit6

/-! ### Sending -/

inductive Timing
  | success | mrcExceeded | mrdExceeded
  deriving DecidableEq, Repr

def elapsed (m : Moment) (start : ℤ × ℤ) : ℤ :=
  if m.usec - start.2 < 0 then m.sec - start.1 - 1 else m.sec - start.1

def stamp (c : Client) (m : Moment) : Client :=
  { c with startTime := if c.txcount = 0 then (m.sec, m.usec) else c.startTime }

def checkTiming6 (c : Client) (m : Moment) : Timing × Client :=
  if c.txcount ≠ 0 ∧ c.mrc ≠ 0 ∧ c.mrc < c.txcount then (.mrcExceeded, c)
  else
    let c := c.stamp m
    if c.mrd ≠ 0 ∧ c.mrd ≤ elapsed m c.startTime then (.mrdExceeded, c) else (.success, c)

/-- A message is sent: it is sent again when the timer goes off, and `dhc6_retrans_advance` counts
it. -/
def sent (k : Timer) : Client :=
  { c with txcount := c.txcount + 1 }.addTimeout k

/-- `start_selecting6` up to the first message. -/
def select : Client :=
  match bestLease cfg c.advertisedLeases with
  | none => { c with state := .selecting }.fatal .startSelecting6
  | some (best, rest) =>
    { c with
      state := .selecting, advertisedLeases := rest, selectedLease := some best
      mrc := reqMaxRc, mrd := 0, txcount := 0, handler := .reply }

def requestable (l : Lease) : Bool :=
  (cfg.wantedIaNa = 0 || l.addIa .na cfg.wantedIaNa) &&
    (cfg.wantedIaTa = 0 || l.addIa .ta cfg.wantedIaTa) &&
    (cfg.wantedIaPd = 0 || l.addIa .pd cfg.wantedIaPd)

/-- `do_select6`, which goes on to the next lease through `start_selecting6`; `n` is more than the
number of leases that are left. -/
def selectLoop (cfg : Config) (m : Moment) : ℕ → Client → Client
  | 0, c => c
  | n + 1, c =>
    match c.selectedLease with
    | none => c
    | some lease =>
      if lease.bindings = [] then c
      else
        match c.checkTiming6 m with
        | (.success, c) => if requestable cfg lease then c.sent .doSelect6 else c
        | (_, c) =>
          let c := { c with selectedLease := none }
          if c.advertisedLeases ≠ [] then selectLoop cfg m n (c.select cfg) else c.startInit6 cfg

def doSelect6 : Client :=
  selectLoop cfg m (c.advertisedLeases.length + 1) c

def startSelecting6 : Client :=
  if c.advertisedLeases = [] then c else (c.select cfg).doSelect6 cfg m

def doInit6 : Client :=
  if c.advertisedLeases ≠ [] then c.startSelecting6 cfg m
  else
    match c.checkTiming6 m with
    | (.mrcExceeded, c) => c
    | (.mrdExceeded, c) => { c with state := .stopped, activeLease := none }.stoppingFinished m
    | (.success, c) =>
      { c with handler := if cfg.rapidCommit then .rapidCommit else c.handler }.sent .doInit6

/-! ### The active lease -/

/-- The end of `dhc6_check_times`: when addresses are to be deprecated and to expire. -/
def scheduleExpiry (t : Times) : Client :=
  let c := if t.depref ≠ maxTime then c.addTimeout .doDepref else c
  if t.loExpire ≠ maxTime then c.addTimeout .doExpire else c

/-- The case `S_RENEWING` of `dhc6_check_times`. -/
def scheduleRebind (now : ℤ) (t : Times) : Client :=
  let c := { c with mrd := t.rebind - now }
  if t.rebind ≠ maxTime then { c with nextMrd := t.hiExpire }.addTimeout .startRebind6 else c

def cancelLeaseTimers : Client :=
  (((c.cancelTimeout .startRenew6).cancelTimeout .startRebind6).cancelTimeout
    .doDepref).cancelTimeout .doExpire

def checkTimes : Client :=
  match c.activeLease with
  | none => { c with stop := some .crash }
  | some lease =>
    let c := c.cancelLeaseTimers
    let t := leaseTimes cfg lease
    if t.hasAddrs = false then { c with activeLease := none }.startInit6 cfg
    else
      match c.state with
      | .bound =>
        if m.sec < t.rebind ∧ t.renew < t.rebind then
          ({ c with nextMrd := t.rebind }.addTimeout .startRenew6).scheduleExpiry t
        else (c.scheduleRebind m.sec t).scheduleExpiry t
      | .renewing => (c.scheduleRebind m.sec t).scheduleExpiry t
      | .rebinding => { c with mrd := t.hiExpire - m.sec }.scheduleExpiry t
      | _ => if t.hasPreferredAddrs then c.fatal .checkTimes else c.scheduleExpiry t

def startBound : Client :=
  match c.activeLease with
  | none => c
  | some lease =>
    match c.state with
    | .selecting | .rebooting | .renewing | .rebinding =>
      { c with
        activeLease := some { lease with released := false }
        handler := .bound, state := .bound }.checkTimes cfg m
    | _ => c.fatal .startBound

def doDepref : Client :=
  match c.activeLease with
  | none => c
  | some lease =>
    { c with activeLease := some (lease.mapAddrs (Addr.depref m.sec)) }.checkTimes cfg m

def doExpire : Client :=
  match c.activeLease with
  | none => c
  | some lease =>
    let lease := lease.expire m.sec
    if lease.bindings = [] then { c with activeLease := none }.startInit6 cfg
    else { c with activeLease := some lease }.checkTimes cfg m

def withdrawLease : Client :=
  match c.activeLease with
  | none => c
  | some lease => { c with activeLease := some lease.withdraw }.doExpire cfg m

def confirmable (l : Lease) : Bool :=
  (cfg.wantedIaNa = 0 || l.addIa .na 0) && (cfg.wantedIaTa = 0 || l.addIa .ta 0)

def doConfirm6 : Client :=
  match c.activeLease with
  | none => c.fatal .doConfirm6
  | some lease =>
    match c.checkTiming6 m with
    | (.success, c) => if confirmable cfg lease then c.sent .doConfirm6 else c
    | (_, c) => c.startBound cfg m

def doRefresh6 : Client :=
  match c.activeLease with
  | none => c
  | some lease =>
    if c.refreshType = none then c.fatal .doRefresh6
    else
      let c := c.stamp m
      if (c.mrc ≠ 0 ∧ c.mrc < c.txcount) ∨ (c.mrd ≠ 0 ∧ c.mrd ≤ elapsed m c.startTime) then
        c.checkTimes cfg m
      else if (cfg.wantedIaNa = 0 || lease.addIa .na cfg.wantedIaNa) &&
          (cfg.wantedIaPd = 0 || lease.addIa .pd cfg.wantedIaPd) then c.sent .doRefresh6
      else c

/-- `start_renew6` and `start_rebind6`. -/
def startRefresh6 (type : RefreshType) (state : State) (cfg : Config) (m : Moment) (c : Client) :
    Client :=
  { c with
    state := state, handler := .reply, mrc := 0, mrd := c.nextMrd - m.sec, txcount := 0
    refreshType := some type }.doRefresh6 cfg m

def startRenew6 := startRefresh6 .renew .renewing
def startRebind6 := startRefresh6 .rebind .rebinding

def releaseDone (c : Client) (m : Moment) : Client :=
  let c := { c with activeLease := none }
  if c.state = .stopped then c.stoppingFinished m else c

def doRelease6 : Client :=
  match c.activeLease with
  | none => c
  | some lease =>
    if lease.activePrefix = false then c
    else
      match c.checkTiming6 m with
      | (.success, c) =>
        if (cfg.wantedIaNa = 0 || lease.addIa .na 0) && (cfg.wantedIaPd = 0 || lease.addIa .pd 0)
        then c.sent .doRelease6
        else c.releaseDone m
      | (_, c) => c.releaseDone m

/-! ### Starting -/

def startRelease6 : Client :=
  let c := (((c.cancelTimeout .doConfirm6).cancelTimeout .doSelect6).cancelTimeout
    .doRefresh6).cancelTimeout .doRelease6
  let c := { c with state := .stopped }
  match c.activeLease with
  | none => c
  | some lease =>
    { c with
      activeLease := some { lease with released := true }
      mrc := relMaxRc, mrd := 0, txcount := 0, handler := .reply }.doRelease6 cfg m

def startConfirm6 : Client :=
  match c.activeLease with
  | none => c.startInit6 cfg
  | some lease =>
    if lease.activePrefix = false ∨ lease.released then c.startInit6 cfg
    else
      let c := { c with mrc := 0, mrd := cnfMaxRd, txcount := 0, handler := .reply }
      if cfg.wantedIaPd ≠ 0 ∨ lease.countIa .pd ≠ 0 ∨ lease.countIa .na < cfg.wantedIaNa ∨
          lease.countIa .ta < cfg.wantedIaTa then
        { c with state := .rebinding, refreshType := some .rebind }.addTimeout .doRefresh6
      else { c with state := .rebooting }.addTimeout .doConfirm6

/-! ### Messages -/

/-- `dhc6_check_status`: the result so far, and the code. -/
def checkStatus (rval : Rval) : StatusOption → Rval × ℕ
  | .absent => (rval, statusSuccess)
  | .malformed => (.formErr, statusSuccess)
  | .code n => (if n ≠ statusSuccess then .failure else rval, n)

def got (l : Lease) (type : IaType) : ℕ := l.countIa type

def checkAdvertise (l : Lease) : Rval :=
  let rval := (checkStatus .success l.status).1
  let (rval, haveAddrs) := l.bindings.foldl (fun r i =>
    let rval := (checkStatus r.1 i.status).1
    (rval, r.2 || (rval = .success && i.addrs ≠ []))) (rval, false)
  if haveAddrs = false ∨ (cfg.requireAllIas ∧ (got l .na < cfg.wantedIaNa ∨
      got l .ta < cfg.wantedIaTa ∨ got l .pd < cfg.wantedIaPd)) then .addrNotAvail
  else rval

/-- What an action leaves: the client, the result, and whether something was done. -/
abbrev Action := Client × Rval × Bool

/-- `dhc6_check_reply` goes on if nothing was done. -/
def Action.andThen (a : Action) (f : Client → Rval → Client × Rval) : Client × Rval :=
  if a.2.2 then (a.1, .canceled) else f a.1 a.2.1

/-- All advertised leases are given up. -/
def dropAdvertised : Client := { c with advertisedLeases := [] }

def selectAction (rval : Rval) (code : ℕ) : Action :=
  if rval = .success then (c, rval, false)
  else if code = statusSuccess ∨ code = statusNoBinding ∨ code = statusUseMulticast then
    (c, rval, false)
  else if code = statusNoAddrsAvail ∨ code = statusNoPrefixAvail then
    if c.state = .rebooting then (c, rval, false)
    else if c.selectedLease = none then (c.fatal .selectAction, rval, true)
    else
      let c := { c with selectedLease := none }
      (if c.advertisedLeases ≠ [] then c.startSelecting6 cfg m else c.startInit6 cfg, rval, true)
  else if code = statusNotOnLink then
    if c.state = .rebooting then
      if c.activeLease = none then (c.fatal .selectAction, rval, true)
      else ({ c with activeLease := none }.startInit6 cfg, rval, true)
    else if c.selectedLease = none then (c.fatal .selectAction, rval, true)
    else ({ c with selectedLease := none }.dropAdvertised.startInit6 cfg, rval, true)
  else if c.advertisedLeases ≠ [] then
    ({ c with selectedLease := none }.startSelecting6 cfg m, rval, true)
  else (c, rval, false)

def replyAction (rval : Rval) (code : ℕ) : Action :=
  if rval = .success then (c, rval, false)
  else if code = statusNotOnLink then (c.withdrawLease cfg m, rval, true)
  else if code = statusNoAddrsAvail ∨ code = statusNoPrefixAvail then
    (c.startInit6 cfg, rval, true)
  else if code = statusNoBinding then
    if c.advertisedLeases ≠ [] then (c.fatal .replyAction, rval, true)
    else
      match c.activeLease with
      | none => ({ c with stop := some .crash }, rval, true)
      | some lease =>
        -- `dhc6_dup_lease` does not copy `released`
        ({ c with advertisedLeases := [{ lease with released := false }] }.startSelecting6 cfg m,
          rval, true)
  else (c, rval, false)

def stopAction (c : Client) (rval : Rval) (code : ℕ) : Action :=
  if rval = .success then (c, rval, false)
  else if code = statusNoBinding then (c, if rval = .failure then .success else rval, false)
  else if code = statusNoAddrsAvail ∨ code = statusNoPrefixAvail ∨ code = statusNotOnLink then
    (c, rval, true)
  else (c, rval, false)

/-- The action of a state; a client that is bound has none. -/
def action : State → Option (Client → Rval → ℕ → Action)
  | .init => some fun c rval _ => (c, rval, false)
  | .selecting | .rebooting => some (selectAction cfg m)
  | .renewing | .rebinding => some (replyAction cfg m)
  | .stopped => some stopAction
  | .bound => none

/-- The loop of `dhc6_check_reply` over the bindings; it ends when something is done. -/
def checkIas (act : Client → Rval → ℕ → Action) : List Ia → Client → Rval → Action
  | [], c, rval => (c, rval, false)
  | i :: ias, c, rval =>
    let (rval, code) := checkStatus rval i.status
    match act c rval code with
    | (c, rval, true) => (c, rval, true)
    | (c, rval, false) => checkIas act ias c rval

def compareReply (new : Lease) (rval : Rval) : Client × Rval :=
  match c.state with
  | .init => (c, rval)
  | .selecting =>
    match c.selectedLease with
    | none => ({ c with stop := some .crash }, .canceled)
    | some selected =>
      if c.advertisedLeases ≠ [] ∧ score cfg new < score cfg selected / 2 then
        ({ c with selectedLease := none }.startSelecting6 cfg m, .canceled)
      else (c, rval)
  | .renewing | .rebinding | .stopped => (c, rval)
  | _ => (c.fatal .checkReply, .canceled)

/-- Whether a lease lacks addresses, or bindings that are required. -/
def lacking (l : Lease) : Bool :=
  l.bindings.all (·.addrs = []) ||
    (cfg.requireAllIas && (got l .na < cfg.wantedIaNa || got l .pd < cfg.wantedIaPd))

def checkReply (new : Lease) : Client × Rval :=
  match action cfg m c.state with
  | none => (c.fatal .checkReply, .canceled)
  | some act =>
    let (rval, code) := checkStatus .success new.status
    (act c rval code).andThen fun c rval =>
      (checkIas act new.bindings c rval).andThen fun c rval =>
        if c.state = .rebooting then (c, rval)
        else if lacking cfg new then
          (act c .failure statusNoAddrsAvail).andThen fun c rval => c.compareReply cfg m new rval
        else c.compareReply cfg m new rval

def initHandler (p : Packet) : Client :=
  if p.msgType ≠ .advertise then c
  else
    match leaseify p m.sec with
    | none => c
    | some lease =>
      if checkAdvertise cfg lease ≠ .success ∨ score cfg lease = 0 then c
      else
        let c := { c with advertisedLeases := insertLease c.advertisedLeases lease }
        if 1 < c.txcount ∨ (lease.pref = 255 ∧ scoreMin < score cfg lease) then
          (c.cancelTimeout .doInit6).startSelecting6 cfg m
        else c

/-- The end of a successful exchange: the new lease becomes the active one. -/
def adopt (lease : Lease) : Client :=
  { c with
    activeLease := some (mergeLease c.activeLease lease)
    advertisedLeases := [] }.startBound cfg m

def rapidCommitHandler (p : Packet) : Client :=
  if p.msgType = .advertise then c.initHandler cfg m p
  else if p.msgType ≠ .reply ∨ p.rapidCommit = false then c
  else
    match leaseify p m.sec with
    | none => c
    | some lease =>
      match c.checkReply cfg m lease with
      | (c, .success) =>
        { c.cancelTimeout .doInit6 with state := .selecting }.adopt cfg m lease
      | (c, _) => c

def cancelExchanges : Client :=
  (((c.cancelTimeout .doConfirm6).cancelTimeout .doSelect6).cancelTimeout
    .doRefresh6).cancelTimeout .doRelease6

/-- `reply_handler` after `dhc6_check_reply`. -/
def replied (lease : Lease) (status : Rval) : Client :=
  let c := c.cancelExchanges
  if c.state = .stopped then
    if c.activeLease = none then c else { c with activeLease := none }.stoppingFinished m
  else if status = .canceled then c
  else
    let c := { c with selectedLease := none }
    if c.state = .rebooting then
      if c.activeLease = none then c.fatal .replyHandler else c.startBound cfg m
    else c.adopt cfg m lease

def replyHandler (p : Packet) : Client :=
  if p.msgType ≠ .reply then c
  else
    match leaseify p m.sec with
    | none => c
    | some lease =>
      let (c, status) := c.checkReply cfg m lease
      if c.stop ≠ none then c
      else if status ≠ .success ∧ status ≠ .canceled then c
      else c.replied cfg m lease status

/-! ### Runs -/

inductive Event
  | packet (p : Packet) (m : Moment)
  | fire (k : Timer) (m : Moment)

def callback : Timer → Client → Client
  | .doInit6 => doInit6 cfg m
  | .doConfirm6 => doConfirm6 cfg m
  | .doSelect6 => doSelect6 cfg m
  | .doRefresh6 => doRefresh6 cfg m
  | .doRelease6 => doRelease6 cfg m
  | .startRenew6 => startRenew6 cfg m
  | .startRebind6 => startRebind6 cfg m
  | .doDepref => doDepref cfg m
  | .doExpire => doExpire cfg m

def handle (p : Packet) : Client :=
  match c.handler with
  | .null => { c with stop := some .crash }
  | .init => c.initHandler cfg m p
  | .rapidCommit => c.rapidCommitHandler cfg m p
  | .reply => c.replyHandler cfg m p
  | .bound => c

/-- One event; nothing happens to a process that is gone, and only pending timers go off. -/
def step (e : Event) : Client :=
  if c.stop ≠ none then c
  else
    match e with
    | .packet p m => c.handle cfg m p
    | .fire k m => if c.timers k then callback cfg m k (c.cancelTimeout k) else c

def run (es : List Event) : Client := es.foldl (step cfg) c

inductive Start
  | init | confirm | release
  deriving DecidableEq, Repr

def started (stored : Option Lease) : Start → Client
  | .init => { activeLease := stored : Client }.startInit6 cfg
  | .confirm => { activeLease := stored : Client }.startConfirm6 cfg
  | .release => { activeLease := stored : Client }.startRelease6 cfg m

def sampleConfig : Config where
  wantedIaNa := 1
  wantedIaTa := 0
  wantedIaPd := 0
  requireAllIas := false
  onetry := false
  timeout := 60
  requestedLease := 7200
  requiredOptions := []
  requestedOptions := []
  rapidCommit := false

def moment (sec : ℤ) : Moment := { sec := sec, usec := 0, othersStopped := false }

end Client

end IscDhcp.Client6
