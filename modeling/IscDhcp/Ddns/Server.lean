import IscDhcp.Basic
import IscDhcp.Lib.DnsUpdate

/-!
The DNS updates of the server (`ddns.c` and the update messages of `dns.c`).

A control block stands for one request: a chain of messages to the DNS server, each of which is
chosen when the result of the previous one arrives. The names that have been entered into the DNS
are remembered in the scope of the lease. The messages of a request for the reverse zone are not
looked at any closer than that they can be sent and that they have a result.
-/

namespace IscDhcp.Ddns

open IscDhcp.Lib.Dns

/-! ### Control blocks and messages -/

inductive DdnsState
  | cleanup | addFwNxdomain | addFwYxdhcid | addPtr | remFwYxdhcid | remFwNxrr | remPtr
  deriving DecidableEq, Repr

structure DdnsFlags where
  updateAddr : Bool := false
  updatePtr : Bool := false
  includeRrset : Bool := false
  conflictOverride : Bool := false
  clientDidUpdate : Bool := false
  executeNext : Bool := false
  abort : Bool := false
  staticLease : Bool := false
  activeLease : Bool := false
  deriving DecidableEq, Repr

/-- `dhcp_ddns_cb_t`, without what follows a removal. -/
structure Cb where
  address : Bytes
  fwdName : Bytes := []
  revName : Bytes := []
  dhcid : Bytes := []
  /-- The style of the identity: a DHCID record, or else a TXT record. -/
  standard : Bool := true
  flags : DdnsFlags := {}
  state : DdnsState := .cleanup
  deriving DecidableEq, Repr

structure Request extends Cb where
  nextOp : Option Cb := none
  deriving DecidableEq, Repr

def addressType (a : Bytes) : Option RRType :=
  if a.length = 4 then some .a else if a.length = 16 then some .aaaa else none

def dhcidClass (standard : Bool) : RRType := if standard then .dhcid else .txt

def Cb.addressType (c : Cb) : Option RRType := Ddns.addressType c.address

def Cb.dhcidClass (c : Cb) : RRType := Ddns.dhcidClass c.standard

def ddnsModifyFwdAdd1 (c : Cb) (t : RRType) : Update Bytes where
  name := c.fwdName
  prereqs := [if c.flags.includeRrset then .rrsetAbsent t else .nameNotInUse]
  changes := [.add t c.address, .add c.dhcidClass c.dhcid]

def ddnsModifyFwdAdd2 (c : Cb) (t : RRType) : Update Bytes :=
  if c.flags.conflictOverride then
    { name := c.fwdName
      prereqs := []
      changes := [.deleteRRset c.dhcidClass, .add c.dhcidClass c.dhcid, .deleteRRset t,
        .add t c.address] }
  else
    { name := c.fwdName
      prereqs := [.rrsetIs c.dhcidClass c.dhcid]
      changes := [.deleteRRset t, .add t c.address] }

def ddnsModifyFwdRem1 (c : Cb) (t : RRType) : Update Bytes where
  name := c.fwdName
  prereqs := [.rrsetIs c.dhcidClass c.dhcid]
  changes := [.deleteRR t c.address]

def ddnsModifyFwdRem2 (c : Cb) : Update Bytes where
  name := c.fwdName
  prereqs := [.rrsetAbsent .a, .rrsetAbsent .aaaa]
  changes := [.deleteRR c.dhcidClass c.dhcid]

def Cb.fwdMessage (c : Cb) : Option (Update Bytes) :=
  match c.addressType, c.state with
  | some t, .addFwNxdomain => some (ddnsModifyFwdAdd1 c t)
  | some t, .addFwYxdhcid => some (ddnsModifyFwdAdd2 c t)
  | some t, .remFwYxdhcid => some (ddnsModifyFwdRem1 c t)
  | some _, .remFwNxrr => some (ddnsModifyFwdRem2 c)
  | _, _ => none

inductive Result
  | success | yxdomain | yxrrset | nxdomain | nxrrset | canceled
  /-- The zone or the key was not right. -/
  | notauth
  | failure
  deriving DecidableEq, Repr

def answer (u : Update Bytes) (z : Zone Bytes) : Result :=
  match u.prereqs.find? fun p => ¬ p.Holds (z u.name) with
  | none => .success
  | some .nameNotInUse => .yxdomain
  | some (.rrsetAbsent _) => .yxrrset
  | some (.rrsetIs _ _) => .nxrrset

/-! ### Leases -/

/-- What matters of a lease: the strings in its scope and the outstanding request. -/
structure LeaseText where
  active : Bool := false
  static : Bool := false
  fwdName : Option Bytes := none
  clientFqdn : Option Bytes := none
  revName : Option Bytes := none
  /-- `ddns-dhcid` and `ddns-txt`, as they are in the DNS. -/
  standardTag : Option Bytes := none
  interimTag : Option Bytes := none
  ddnsCb : Option ℕ := none
  deriving DecidableEq, Repr

/-- The server, the zone, and the messages between them. -/
structure World where
  zone : Zone Bytes := fun _ => ∅
  standard : Bool := true
  /-- The lease of each address. -/
  lease : Bytes → LeaseText := fun _ => {}
  request : ℕ → Option Request := fun _ => none
  fresh : ℕ := 0
  /-- The message a request waits for, and the answer to it. -/
  flight : ℕ → Option (Update Bytes × Option Result) := fun _ => none
  /-- All messages for the forward zone that were ever sent, and for which request. -/
  sent : List (ℕ × Update Bytes) := []
  /-- Whether the messages to come can be sent; they can when it runs out. -/
  io : List Bool := []

namespace World

variable (w : World) (a : Bytes) (k : ℕ) (r : Request) (res : Result)

def modifyLease (f : LeaseText → LeaseText) : World :=
  { w with lease := Function.update w.lease a (f (w.lease a)) }

/-- The lease is found by its address; a DHCPv6 lease that has ended is not. -/
def found : Bool := a.length = 4 || (w.lease a).active

def textOf (c : Cb) (l : LeaseText) : LeaseText :=
  match c.state with
  | .remPtr =>
    { l with
      revName := none
      clientFqdn := if c.flags.clientDidUpdate then none else l.clientFqdn }
  | .addPtr | .cleanup =>
    { l with
      revName := some c.revName
      clientFqdn := if c.flags.updateAddr then l.clientFqdn else some c.fwdName }
  | .addFwYxdhcid | .addFwNxdomain =>
    { l with
      fwdName := some c.fwdName
      standardTag := if c.standard then some c.dhcid else l.standardTag
      interimTag := if c.standard then l.interimTag else some c.dhcid }
  | .remFwNxrr | .remFwYxdhcid =>
    { l with
      fwdName := none
      standardTag := if c.standard then none else l.standardTag
      interimTag := if c.standard then l.interimTag else none }

/-- `given` if the caller has the scope at hand. -/
def ddnsUpdateLeaseText (given : Bool) (c : Cb) : World :=
  if c.flags.staticLease || !c.flags.activeLease || !(given || w.found c.address) then w
  else w.modifyLease c.address (textOf c)

def safeLeaseUpdate (old : ℕ) (new : Option ℕ) : World :=
  if (w.lease a).ddnsCb = none ∧ new = none then w
  else if (w.lease a).ddnsCb ≠ none ∧ (w.lease a).ddnsCb ≠ some old then w
  else w.modifyLease a fun l => { l with ddnsCb := new }

/-- `given` if the caller has the lease at hand; a DHCPv6 lease that is looked up is not checked. -/
def ddnsUpdateLeasePtr (given : Bool) (c : Cb) (old : ℕ) (new : Option ℕ) : World :=
  if c.flags.staticLease || (c.address.length = 16 && !c.flags.activeLease) then w
  else if !given && c.address.length = 16 then
    if w.found c.address then w.modifyLease c.address fun l => { l with ddnsCb := new } else w
  else w.safeLeaseUpdate c.address old new

/-! ### Requests -/

def ddnsModifyFwd : Bool × World :=
  match r.fwdMessage, w.io with
  | none, _ => (false, w)
  | some _, false :: io => (false, { w with io := io })
  | some u, io =>
    (true, { w with
      request := Function.update w.request k (some r)
      flight := Function.update w.flight k (some (u, none))
      sent := w.sent ++ [(k, u)], io := io.tail })

def ddnsModifyPtr : Bool × World :=
  match w.io with
  | false :: io => (false, { w with io := io })
  | io =>
    (true, { w with
      request := Function.update w.request k (some r)
      flight := Function.update w.flight k none, io := io.tail })

def ddnsCbFree : World :=
  { w with
    request := Function.update w.request k none, flight := Function.update w.flight k none }

/-- The control blocks are numbered; a number is not used again. -/
def ddnsCbAlloc : World := { w with fresh := w.fresh + 1 }

def ddnsCancel : World :=
  { w with
    request := Function.update w.request k
      ((w.request k).map fun r => { r with flags := { r.flags with abort := true } }) }

/-- Begin to add a name, if what went before was a success. -/
def ddnsFwdSrvConnector (given : Bool) (c : Option Cb) (ok : Bool) : World :=
  match c, ok with
  | none, _ | some _, false => w
  | some c, true =>
    let k := w.fresh
    let w := w.ddnsCbAlloc
    if c.flags.updateAddr then
      match w.ddnsModifyFwd k { c with state := .addFwNxdomain } with
      | (true, w) => w.ddnsUpdateLeasePtr given c k (some k)
      | (false, w) => w
    else if c.flags.updatePtr && c.revName ≠ [] then
      match w.ddnsModifyPtr k { c with state := .addPtr } with
      | (true, w) => w.ddnsUpdateLeasePtr given c k (some k)
      | (false, w) => w
    else w.ddnsUpdateLeaseText given c

/-- The end of a request: the lease forgets it and what was to follow is begun. -/
def finish (ok : Bool) : World :=
  ((w.ddnsUpdateLeasePtr false r.toCb k none).ddnsFwdSrvConnector false r.nextOp ok).ddnsCbFree k

/-! ### Results -/

def ddnsPtrAdd : World :=
  let w := if res = .success then w.ddnsUpdateLeaseText false r.toCb else w
  (w.ddnsUpdateLeasePtr false r.toCb k none).ddnsCbFree k

def ddnsPtrRemove : World :=
  let gone : Bool := res = .success ∨ res = .nxrrset ∨ res = .nxdomain
  let w := if gone then w.ddnsUpdateLeaseText false r.toCb else w
  w.finish k r (gone && r.flags.executeNext)

/-- The name has been added: go on with the reverse zone. -/
def fwdAdded : World :=
  let w := w.ddnsUpdateLeaseText false r.toCb
  if r.flags.updatePtr then
    match w.ddnsModifyPtr k { r with state := .addPtr } with
    | (true, w) => w
    | (false, w) => (w.ddnsUpdateLeasePtr false r.toCb k none).ddnsCbFree k
  else (w.ddnsUpdateLeasePtr false r.toCb k none).ddnsCbFree k

def ddnsFwdSrvAdd2 : World :=
  if res = .success then w.fwdAdded k r
  else (w.ddnsUpdateLeasePtr false r.toCb k none).ddnsCbFree k

def ddnsFwdSrvAdd1 : World :=
  match res with
  | .success => w.fwdAdded k r
  | .yxdomain =>
    match w.ddnsModifyFwd k { r with state := .addFwYxdhcid } with
    | (true, w) => w
    | (false, w) => (w.ddnsUpdateLeasePtr false r.toCb k none).ddnsCbFree k
  | _ => (w.ddnsUpdateLeasePtr false r.toCb k none).ddnsCbFree k

/-- The name has been removed, or not: go on with the reverse zone. -/
def fwdRemoved (ok : Bool) (failed : Bool) : World :=
  if r.flags.updatePtr then
    let flags := { r.flags with executeNext := r.flags.executeNext || ok }
    match w.ddnsModifyPtr k { r with state := .remPtr, flags := flags } with
    | (true, w) => w
    | (false, w) => w.finish k r failed
  else w.finish k r ok

def ddnsFwdSrvRem2 : World :=
  let ok : Bool := res = .success ∨ res = .yxrrset
  let w := if ok then w.ddnsUpdateLeaseText false r.toCb else w
  -- the result of a message that could not be sent is passed on
  w.fwdRemoved k r ok false

def ddnsFwdSrvRem1 : World :=
  match res with
  | .success =>
    match w.ddnsModifyFwd k { r with state := .remFwNxrr } with
    | (true, w) => w
    | (false, w) => w.finish k r true
  | .nxrrset | .nxdomain => (w.ddnsUpdateLeaseText false r.toCb).fwdRemoved k r true true
  | _ => w.fwdRemoved k r false false

def curFunc : World :=
  match r.state with
  | .addFwNxdomain => w.ddnsFwdSrvAdd1 k r res
  | .addFwYxdhcid => w.ddnsFwdSrvAdd2 k r res
  | .addPtr => w.ddnsPtrAdd k r res
  | .remFwYxdhcid => w.ddnsFwdSrvRem1 k r res
  | .remFwNxrr => w.ddnsFwdSrvRem2 k r res
  | .remPtr => w.ddnsPtrRemove k r res
  | .cleanup => w

def resend : Bool × World :=
  match r.state with
  | .addPtr | .remPtr => w.ddnsModifyPtr k r
  | _ => w.ddnsModifyFwd k r

def ddnsInterlude : World :=
  match w.request k with
  | none => w
  | some r =>
    if r.flags.abort then w.ddnsCbFree k
    else if res = .notauth then
      match w.resend k r with
      | (true, w) => w
      | (false, w) => w.curFunc k r .failure
    else w.curFunc k r res

/-! ### Removing and adding -/

/-- An outstanding request is dealt with first; `none` if it already does what is wanted.
A request that has come to its end is no longer outstanding. -/
def supersedeRequest (active : Bool) : Option World :=
  match (w.lease a).ddnsCb with
  | none => some w
  | some k =>
    match w.request k with
    | none => some w
    | some r =>
      if r.state = .addPtr ∨ r.state = .addFwNxdomain ∨ r.state = .addFwYxdhcid ∨
          (active = false ∧ r.flags.activeLease = true) then
        some ((w.ddnsCancel k).modifyLease a fun l => { l with ddnsCb := none })
      else none

/-- What was to follow the outstanding request is dropped. -/
def dropNextOp : World :=
  match (w.lease a).ddnsCb with
  | none => w
  | some k =>
    { w with
      request :=
        Function.update w.request k ((w.request k).map fun r => { r with nextOp := none }) }

/-- The control block of a removal, from the strings of the lease. -/
def removalCb (l : LeaseText) (active : Bool) : Cb :=
  let tag := l.standardTag.or l.interimTag
  { address := a
    fwdName := (l.fwdName.or l.clientFqdn).getD []
    revName := l.revName.getD []
    dhcid := tag.getD []
    standard := l.standardTag.isSome
    flags :=
      { updateAddr := l.fwdName.isSome && tag.isSome
        updatePtr := l.revName.isSome
        clientDidUpdate := l.fwdName.isNone && l.clientFqdn.isSome
        staticLease := l.static
        activeLease := active } }

/-- `ddns_removals` once there is no outstanding request. -/
def startRemoval (add : Option Cb) (active : Bool) : World :=
  let l := w.lease a
  let c := removalCb a l active
  -- without a name to remove nothing is added
  let executeAdd := l.fwdName.isSome
  let k := w.fresh
  let w := w.ddnsCbAlloc
  if c.flags.updateAddr && c.fwdName ≠ [] then
    match w.ddnsModifyFwd k { c with state := .remFwYxdhcid, nextOp := add } with
    | (true, w) => w.ddnsUpdateLeasePtr true c k (some k)
    | (false, w) => w.ddnsFwdSrvConnector true add false
  else
    let w := if c.flags.updateAddr then
        w.modifyLease a (textOf { c with state := .remFwYxdhcid })
      else w
    if c.flags.updatePtr then
      let next := if executeAdd then add else none
      match w.ddnsModifyPtr k
        { c with
          state := .remPtr, flags := { c.flags with executeNext := true }, nextOp := next } with
      | (true, w) => w.ddnsUpdateLeasePtr true c k (some k)
      | (false, w) => w
    else w.ddnsFwdSrvConnector true add executeAdd

def ddnsRemovals (add : Option Cb) (active : Bool) : World :=
  match add with
  | some _ => w.startRemoval a add active
  | none =>
    match w.supersedeRequest a active with
    | some w => w.startRemoval a none active
    | none => w.dropNextOp a

structure UpdateInput where
  /-- The client updates its own address record. -/
  clientUpdates : Bool := false
  /-- The server is to update the forward zone. -/
  forward : Bool := true
  name : Bytes
  optimization : Bool := true
  ptr : Bool := true
  revName : Bytes := []
  dhcid : Option Bytes
  conflictDetect : Bool := true
  deriving DecidableEq, Repr

def updateCb (inp : UpdateInput) : Cb where
  address := a
  fwdName := inp.name
  revName := inp.revName
  dhcid := if inp.clientUpdates then [] else inp.dhcid.getD []
  standard := w.standard
  flags :=
    { updateAddr := !inp.clientUpdates
      updatePtr := inp.ptr
      conflictOverride := !inp.clientUpdates && !inp.conflictDetect
      staticLease := (w.lease a).static
      activeLease := true }

/-- An outstanding request is cancelled; for DHCPv6 the old lease is not given. -/
def cancelOutstanding : World :=
  match (w.lease a).ddnsCb with
  | some k =>
    if a.length = 4 then (w.ddnsCancel k).modifyLease a fun l => { l with ddnsCb := none } else w
  | none => w

def ddnsUpdates (inp : UpdateInput) : World :=
  let w := w.cancelOutstanding a
  let l := w.lease a
  if !inp.clientUpdates && !inp.forward then w
  else
    let doRemove := l.fwdName.any (· ≠ inp.name)
    let done := inp.optimization && (l.fwdName = some inp.name ||
      (l.fwdName = none && l.clientFqdn = some inp.name))
    if done then w
    else if inp.name = [] || inp.name.length > 255 then
      if doRemove then w.ddnsRemovals a none true else w
    else if !inp.clientUpdates && inp.dhcid = none then w
    else if doRemove then w.ddnsRemovals a (some (w.updateCb a inp)) true
    else w.ddnsFwdSrvConnector true (some (w.updateCb a inp)) true

/-! ### Events -/

inductive Event
  /-- The lease is given out or renewed. -/
  | update (a : Bytes) (inp : UpdateInput)
  /-- The lease expires, or is freed after its release. -/
  | removal (a : Bytes)
  /-- The lease is released or abandoned, goes over to the client of the partner, or for DHCPv6
  becomes inactive. -/
  | lapse (a : Bytes) (stays : Bool)
  | setActive (a : Bytes) (active : Bool)
  /-- The bindings of a lease that has ended are dropped. -/
  | dropScope (a : Bytes)
  /-- The DNS server processes the message that a request waits for. -/
  | process (k : ℕ)
  /-- A message that was sent at some time reaches the DNS server. -/
  | deliver (i : ℕ)
  /-- A result is handed to the request. -/
  | result (k : ℕ) (res : Result)
  /-- Another party changes a name. -/
  | other (n : Bytes) (v : Node)
  deriving DecidableEq

def dropText (l : LeaseText) : LeaseText :=
  { active := l.active, static := l.static, ddnsCb := l.ddnsCb }

def lapse (stays : Bool) : World :=
  (w.ddnsRemovals a none false).modifyLease a fun l =>
    { dropText l with active := stays && a.length ≠ 16 }

def process : World :=
  match w.flight k with
  | some (u, none) =>
    { w with
      zone := u.apply w.zone
      flight := Function.update w.flight k (some (u, some (answer u w.zone))) }
  | _ => w

def deliver (i : ℕ) : World :=
  match w.sent[i]? with
  | some (_, u) => { w with zone := u.apply w.zone }
  | none => w

def step : Event → World
  | .update a inp => w.ddnsUpdates a inp
  | .removal a => w.ddnsRemovals a none true
  | .lapse a stays => w.lapse a stays
  | .setActive a active => w.modifyLease a fun l => { l with active := active }
  | .dropScope a => w.modifyLease a dropText
  | .process k => w.process k
  | .deliver i => w.deliver i
  | .result k res => w.ddnsInterlude k res
  | .other n v => { w with zone := Function.update w.zone n v }

def run (evs : List Event) : World := evs.foldl step w

end World

end IscDhcp.Ddns
