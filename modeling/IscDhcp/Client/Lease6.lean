import IscDhcp.Basic
import Mathlib.Algebra.GroupWithZero.Nat
import Mathlib.Algebra.Order.Group.Int

/-!
The leases of the DHCPv6 client (`client/dhc6.c`): how one is formed from a message, how leases
are compared and merged, and the times at which a lease wants to be looked at again.
-/

namespace IscDhcp.Client6

/-! ### Leases -/

inductive IaType
  | na | ta | pd
  deriving DecidableEq, Repr

/-- What `dhc6_get_status_code` finds: no option, one that is too short, or a code. -/
inductive StatusOption
  | absent
  | malformed
  | code (n : ℕ)
  deriving DecidableEq, Repr

def statusSuccess : ℕ := 0
def statusUnspecFail : ℕ := 1
def statusNoAddrsAvail : ℕ := 2
def statusNoBinding : ℕ := 3
def statusNotOnLink : ℕ := 4
def statusUseMulticast : ℕ := 5
def statusNoPrefixAvail : ℕ := 6

structure Addr where
  address : Bytes
  plen : ℕ := 0
  deprefed : Bool := false
  expired : Bool := false
  starts : ℤ
  preferredLife : ℕ
  maxLife : ℕ
  deriving DecidableEq, Repr

/-- `struct dhc6_ia`, with the status code among its options. -/
structure Ia where
  iaType : IaType
  iaid : Bytes
  starts : ℤ
  renew : ℕ := 0
  rebind : ℕ := 0
  status : StatusOption := .absent
  addrs : List Addr
  deriving DecidableEq, Repr

/-- `struct dhc6_lease`; `options` are the codes of its options. -/
structure Lease where
  serverId : Bytes
  pref : ℕ := 0
  options : List ℕ := []
  status : StatusOption := .absent
  bindings : List Ia
  released : Bool := false
  deriving DecidableEq, Repr

structure Config where
  wantedIaNa : ℕ
  wantedIaTa : ℕ
  wantedIaPd : ℕ
  requireAllIas : Bool
  onetry : Bool
  timeout : ℤ
  requestedLease : ℤ
  requiredOptions : List ℕ
  requestedOptions : List ℕ
  rapidCommit : Bool

/-! ### Messages -/

structure PacketAddr where
  address : Bytes
  plen : ℕ := 0
  preferredLife : ℕ
  maxLife : ℕ
  status : StatusOption := .absent

structure PacketIa where
  iaType : IaType
  iaid : Bytes
  renew : ℕ := 0
  rebind : ℕ := 0
  status : StatusOption := .absent
  addrs : List PacketAddr

inductive MsgType
  | advertise | reply | other
  deriving DecidableEq, Repr

/-- A message that has passed `valid_reply`. `corrupt` says that one of its options cannot be
parsed. -/
structure Packet where
  msgType : MsgType
  corrupt : Bool := false
  rapidCommit : Bool := false
  serverId : Bytes
  pref : ℕ := 0
  options : List ℕ := []
  status : StatusOption := .absent
  ias : List PacketIa

/-- `dhc6_parse_addrs` and `dhc6_parse_prefixes` for one option. -/
def parseAddr (type : IaType) (now : ℤ) (a : PacketAddr) : Option Addr :=
  if type = .pd ∧ (a.plen < 4 ∨ 128 < a.plen) then none
  else if a.maxLife < a.preferredLife then none
  else if a.status = .absent ∨ a.status = .code statusSuccess then
    some { address := a.address, plen := a.plen, starts := now
           preferredLife := a.preferredLife, maxLife := a.maxLife }
  else none

def IaType.unavailable : IaType → ℕ
  | .pd => statusNoPrefixAvail
  | _ => statusNoAddrsAvail

/-- `dhc6_parse_ia_na`, `dhc6_parse_ia_ta` and `dhc6_parse_ia_pd` for one option; `code` is the
status of the message. -/
def parseIa (code : ℕ) (now : ℤ) (i : PacketIa) : Option Ia :=
  if i.iaType ≠ .ta ∧ 0 < i.renew ∧ 0 < i.rebind ∧ i.rebind < i.renew then none
  else
    let addrs := i.addrs.filterMap (parseAddr i.iaType now)
    if addrs = [] ∨ code = i.iaType.unavailable ∨ i.status = .code i.iaType.unavailable then none
    else
      some { iaType := i.iaType, iaid := i.iaid, starts := now
             renew := if i.iaType = .ta then 0 else i.renew
             rebind := if i.iaType = .ta then 0 else i.rebind
             status := i.status, addrs := addrs }

/-- The code of the message, `STATUS_Success` without one. -/
def StatusOption.value : StatusOption → ℕ
  | .code n => n
  | _ => statusSuccess

def leaseify (p : Packet) (now : ℤ) : Option Lease :=
  let code := p.status.value
  let ofType := fun t => (p.ias.filter (·.iaType = t)).filterMap (parseIa code now)
  if p.corrupt ∨ p.serverId = [] then none
  else
    some { serverId := p.serverId, pref := p.pref
           options := p.options.filter (· ∉ [3, 4, 7, 25])
           status := if code = statusNoAddrsAvail ∨ code = statusNoPrefixAvail then .absent
             else p.status
           bindings := ofType .na ++ ofType .ta ++ ofType .pd }

/-! ### Comparing leases -/

def scoreBinding : ℕ := 10000
def scoreAddress : ℕ := 100
def scoreOption : ℕ := 1
def scoreMin : ℕ := scoreBinding + scoreAddress

def score (cfg : Config) (l : Lease) : ℕ :=
  if cfg.requiredOptions.any (· ∉ l.options) then 0
  else
    scoreOption + (cfg.requestedOptions.filter (· ∈ l.options)).length * scoreOption +
      (l.bindings.map fun i => scoreBinding + i.addrs.length * scoreAddress).sum

/-- `memcmp (a, b, n) < 0` for as many bytes as both have. -/
def memLess : Bytes → Bytes → Bool
  | x :: a, y :: b => if x = y then memLess a b else x < y
  | _, _ => false

/-- Whether `dhc6_best_lease` prefers a candidate to the best lease so far. -/
def prefers (cfg : Config) (best cand : Lease) : Bool :=
  let rscore := score cfg best
  let cscore := score cfg cand
  if rscore < scoreMin ∧ scoreMin ≤ cscore then true
  else if cand.pref < best.pref then false
  else if best.pref < cand.pref then true
  else if rscore < cscore then true
  else if cscore < rscore then false
  else
    cand.serverId.length < best.serverId.length ||
      (cand.serverId.length == best.serverId.length && memLess cand.serverId best.serverId)

/-- `dhc6_best_lease`: the best lease of a chain, and the chain without it. -/
def bestLease (cfg : Config) : List Lease → Option (Lease × List Lease)
  | [] => none
  | l :: ls =>
    let best := ls.foldl (fun r c => if prefers cfg r c then c else r) l
    some (best, (l :: ls).erase best)

/-- `insert_lease`: a lease of the same server is replaced. -/
def insertLease : List Lease → Lease → List Lease
  | [], new => [new]
  | l :: ls, new => if l.serverId = new.serverId then new :: ls else l :: insertLease ls new

/-! ### Merging leases -/

def findIa (ias : List Ia) (type : IaType) (iaid : Bytes) : Option Ia :=
  ias.find? fun i => i.iaType = type ∧ i.iaid = iaid

/-- `find_addr`, or `find_pref` for a prefix. -/
def Ia.hasAddr (i : Ia) (a : Addr) : Bool :=
  i.addrs.any fun b => b.address = a.address ∧ (i.iaType = .pd → b.plen = a.plen)

/-- The addresses of `src` that `dst` does not have go to its front, one after the other. -/
def Ia.mergeAddrs (src dst : Ia) : Ia :=
  src.addrs.foldl (fun d a => if d.hasAddr a then d else { d with addrs := a :: d.addrs }) dst

/-- One binding of the older lease. -/
def mergeIa (dst : List Ia) (src : Ia) : List Ia :=
  match findIa dst src.iaType src.iaid with
  | none => dst ++ [src]
  | some d => dst.replace d (src.mergeAddrs d)

def mergeLease (src : Option Lease) (dst : Lease) : Lease :=
  match src with
  | none => dst
  | some src => { dst with bindings := src.bindings.foldl mergeIa dst.bindings }

/-! ### The times of a lease -/

structure Times where
  renew : ℤ := maxTime
  rebind : ℤ := maxTime
  depref : ℤ := maxTime
  loExpire : ℤ := maxTime
  hiExpire : ℤ := 0
  maxIaStarts : ℤ := 0
  hasAddrs : Bool := false
  hasPreferredAddrs : Bool := false
  deriving DecidableEq, Repr

/-- `0xffffffff`. -/
def infinite : ℕ := 0xffffffff

/-- The loop over the addresses of a binding; `lo` and `hi` are counted from its start. -/
def Times.addr (i : Ia) (t : Times × ℤ × ℤ) (a : Addr) : Times × ℤ × ℤ :=
  let (t, lo, hi) := t
  let t := if a.deprefed then t
    else
      let tmp : ℤ := if a.preferredLife = infinite then maxTime else a.starts + a.preferredLife
      { t with depref := if tmp < t.depref then tmp else t.depref
               hasPreferredAddrs := t.hasPreferredAddrs || !a.expired }
  if a.expired then (t, lo, hi)
  else
    let tmp : ℤ :=
      (if a.maxLife = infinite then (maxTime : ℤ) else a.starts + a.maxLife) - i.starts
    ({ t with hasAddrs := true }, if tmp < lo then tmp else lo, if hi < tmp then tmp else hi)

def Times.ia (cfg : Config) (t : Times) (i : Ia) : Times :=
  let (t, lo, hi) := i.addrs.foldl (Times.addr i) (t, (maxTime : ℤ), 0)
  let useExpire := if lo ≤ hi.tdiv 2 then hi else lo
  let useExpire := if useExpire = maxTime ∨ useExpire ≤ 1 then cfg.requestedLease.tdiv 2
    else useExpire.tdiv 2
  let t := if i.iaType = .ta then t
    else
      let renew : ℤ := if i.renew = 0 then useExpire else if i.renew = infinite then maxTime
        else i.renew
      let rebind : ℤ := if i.rebind = 0 then useExpire + useExpire.tdiv 2
        else if i.rebind = infinite then maxTime else i.rebind
      { t with
        maxIaStarts := if t.maxIaStarts < i.starts then i.starts else t.maxIaStarts
        renew := if renew < t.renew then renew else t.renew
        rebind := if rebind < t.rebind then rebind else t.rebind }
  { t with
    hiExpire := if t.hiExpire < hi + i.starts then hi + i.starts else t.hiExpire
    loExpire := if lo + i.starts < t.loExpire then lo + i.starts else t.loExpire }

/-- All bindings, with the renewal times counted from the latest start. -/
def leaseTimes (cfg : Config) (l : Lease) : Times :=
  let t := l.bindings.foldl (Times.ia cfg) {}
  { t with
    renew := if t.renew ≠ maxTime then t.renew + t.maxIaStarts else t.renew
    rebind := if t.rebind ≠ maxTime then t.rebind + t.maxIaStarts else t.rebind }

/-! ### What becomes of the addresses -/

def Addr.depref (now : ℤ) (a : Addr) : Addr :=
  if a.deprefed then a else { a with deprefed := decide (a.starts + a.preferredLife ≤ now) }

def Addr.expire (now : ℤ) (a : Addr) : Addr :=
  if a.expired then a else { a with expired := decide (a.starts + a.maxLife ≤ now) }

def Lease.mapAddrs (l : Lease) (f : Addr → Addr) : Lease :=
  { l with bindings := l.bindings.map fun i => { i with addrs := i.addrs.map f } }

/-- `do_expire`: bindings without an address that is still valid are dropped. -/
def Lease.expire (now : ℤ) (l : Lease) : Lease :=
  let l := l.mapAddrs (Addr.expire now)
  { l with bindings := l.bindings.filter fun i => i.addrs.any (!·.expired) }

/-- `dhc6_withdraw_lease`: no address has any time left. -/
def Lease.withdraw (l : Lease) : Lease :=
  l.mapAddrs fun a => { a with preferredLife := 0, maxLife := 0 }

def Lease.activePrefix (l : Lease) : Bool :=
  l.bindings.all fun i => i.iaType ≠ .pd || i.addrs.all fun a =>
    a.plen ≠ 0 && a.address.length = 16 && a.address ≠ List.replicate 16 0

def Lease.countIa (l : Lease) (type : IaType) : ℕ := (l.bindings.filter (·.iaType = type)).length

/-- `dhc6_add_ia_na` and its like: whether the bindings of a type, at most `wanted` of them, can be
put into a message. One without addresses spoils it; no limit is written as zero. -/
def Lease.addIa (l : Lease) (type : IaType) (wanted : ℕ) : Bool :=
  let ias := l.bindings.filter (·.iaType = type)
  (if wanted = 0 then ias else ias.take wanted).all (·.addrs ≠ [])

end IscDhcp.Client6
