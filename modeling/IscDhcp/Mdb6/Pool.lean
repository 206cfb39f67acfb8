import IscDhcp.Heap
import IscDhcp.Mdb.Types
import Mathlib.Data.BitVec

/-!
A pool of DHCPv6 leases (`mdb6.c`): the leases in use are in a hash table by their address and
on a heap by the time they expire, the others on a second heap, and the pool and its pond count
them.

Leases are named by `α` and identity associations by `β`. `none` is a failed assertion of the
heap. Memory never runs out.
-/

namespace IscDhcp.Mdb6

open IscDhcp.Heap

abbrev In6Addr := Vector UInt8 16

abbrev U64 := BitVec 64

/-- `struct iasubopt`, an address or prefix. -/
structure Iasubopt (β : Type) where
  addr : In6Addr
  plen : UInt8 := 255
  state : BindingState := .free
  hardLifetimeEndTime : Time := 0
  softLifetimeEndTime : Time := 0
  ia : Option β := none

/-- `D6O_IA_NA`, `D6O_IA_TA` and `D6O_IA_PD`. -/
inductive IaType
  | na | ta | pd
  deriving DecidableEq, Repr

structure Ia (α : Type) where
  iaidDuid : Bytes := []
  iaType : IaType := .na
  iasubopt : List α := []

/-- The counters of a pond, and those of its other pools. -/
structure Pond where
  numActive : U64 := 0
  numAbandoned : U64 := 0
  others : List (U64 × U64) := []
  deriving DecidableEq

/-- One pool, the leases and the identity associations. -/
structure State (α β : Type) where
  lease : α → Iasubopt β
  heapIndex : α → ℤ := fun _ => -1
  ia : β → Ia α
  iaActive : IaType → Bytes → Option β := fun _ _ => none
  poolType : IaType := .na
  /-- The entries of the hash table for an address, the latest first. -/
  leases : In6Addr → List α := fun _ => []
  activeTimeouts : List α := []
  inactiveTimeouts : List α := []
  numActive : U64 := 0
  numAbandoned : U64 := 0
  numInactive : ℤ := 0
  pond : Option Pond := none
  curTime : Time := 0

/-- The states of the leases on the active heap. -/
def inUse (st : BindingState) : Bool := st = .active ∨ st = .abandoned

inductive Result
  | success | noResources | invalidArg | failure
  deriving DecidableEq, Repr

namespace State

variable {α β : Type} [DecidableEq α] [DecidableEq β] (s : State α β)

/-! ### The structures -/

variable (i : α)

def modify (f : Iasubopt β → Iasubopt β) : State α β :=
  { s with lease := Function.update s.lease i (f (s.lease i)) }

/-- The order of the heaps. -/
def leaseOlder (a b : α) : Bool :=
  if (s.lease a).hardLifetimeEndTime = (s.lease b).hardLifetimeEndTime then
    (s.lease a).softLifetimeEndTime < (s.lease b).softLifetimeEndTime
  else (s.lease a).hardLifetimeEndTime < (s.lease b).hardLifetimeEndTime

def setActive (h : Indexed α) : State α β := { s with activeTimeouts := h.1, heapIndex := h.2 }

def setInactive (h : Indexed α) : State α β :=
  { s with inactiveTimeouts := h.1, heapIndex := h.2 }

def hashLookup (addr : In6Addr) : Option α := (s.leases addr).head?

/-- An entry is added whether or not there is one for its address. -/
def hashAdd : State α β :=
  { s with leases := Function.update s.leases (s.lease i).addr (i :: s.leases (s.lease i).addr) }

/-- The latest entry for the address is deleted, whatever lease it is for. -/
def hashDelete : State α β :=
  { s with leases := Function.update s.leases (s.lease i).addr (s.leases (s.lease i).addr).tail }

def addActive (d : U64) : State α β :=
  { s with
    numActive := s.numActive + d
    pond := s.pond.map fun p => { p with numActive := p.numActive + d } }

def addAbandoned (d : U64) : State α β :=
  { s with
    numAbandoned := s.numAbandoned + d
    pond := s.pond.map fun p => { p with numAbandoned := p.numAbandoned + d } }

def addInactive (d : ℤ) : State α β := { s with numInactive := s.numInactive + d }

def removeActive (abandoned : Bool) : Option (State α β) := do
  let h ← iscHeapDelete s.leaseOlder (s.activeTimeouts, s.heapIndex) (s.heapIndex i)
  let s := (s.setActive h).addActive (-1)
  let s := if abandoned then s.addAbandoned (-1) else s
  return s.hashDelete i

/-! ### Adding leases -/

/-- Take a lease that has the address out of the structures. -/
def removeOld (addr : In6Addr) : Option (State α β) :=
  match s.hashLookup addr with
  | none => some s
  | some j =>
    if inUse (s.lease j).state then s.removeActive j ((s.lease j).state = .abandoned)
    else do
      let h ← iscHeapDelete s.leaseOlder (s.inactiveTimeouts, s.heapIndex) (s.heapIndex j)
      return ((s.setInactive h).addInactive (-1)).hashDelete j

/-- If a state was not assigned by the caller, the lease is active. -/
def assumeActive : State α β :=
  if (s.lease i).state = .bogus 0 then s.modify i fun l => { l with state := .active } else s

def insertActive : State α β :=
  s.setActive (iscHeapInsert s.leaseOlder (s.activeTimeouts, s.heapIndex) i)

def insertInactive : State α β :=
  s.setInactive (iscHeapInsert s.leaseOlder (s.inactiveTimeouts, s.heapIndex) i)

def addLease6 (validLifetimeEndTime : Time) : Option (State α β) := do
  let s ← (s.assumeActive i).removeOld (s.lease i).addr
  if inUse (s.lease i).state then
    let s := s.modify i fun l => { l with hardLifetimeEndTime := validLifetimeEndTime }
    let s := ((s.hashAdd i).insertActive i).addActive 1
    return if (s.lease i).state = .abandoned then s.addAbandoned 1 else s
  else
    let s := s.modify i fun l => { l with softLifetimeEndTime := validLifetimeEndTime }
    return (s.insertInactive i).addInactive 1

/-- `iasubopt_allocate`, and the caller's data. -/
def allocate (l : Iasubopt β) : State α β :=
  { s with
    lease := Function.update s.lease i l, heapIndex := Function.update s.heapIndex i (-1) }

/-- The interface identifiers of `::` and of the reserved anycast addresses. -/
def reservedIid (addr : In6Addr) : Bool :=
  let iid := addr.toList.drop 8
  iid = List.replicate 8 0 ||
    iid.take 7 = 0xfd :: List.replicate 6 0xff && (iid.getD 7 0 &&& 0x80) = 0x80

/-- The addresses built from the hash of the input, until one is free. The input grows by each
address that is not. -/
def findAddress (build : ℕ → Bytes → In6Addr) : ℕ → ℕ → Bytes → Option In6Addr
  | 0, _, _ => none
  | n + 1, k, ds =>
    let tmp := build k ds
    if !reservedIid tmp && (s.hashLookup tmp).isNone then some tmp
    else findAddress build n (k + 1) (ds ++ tmp.toList)

/-- `build` stands for `build_address6` and `build_temporary6`, `i` for the lease that is
allocated. -/
def createLease6 (build : ℕ → Bytes → In6Addr) (uid : Bytes) (i : α) (endTime : Time) :
    Option (Result × State α β) :=
  if s.poolType = .pd then some (.invalidArg, s)
  else
    match s.findAddress build 100 1 uid with
    | none => some (.noResources, s)
    | some tmp => do
      let s ← (s.allocate i { addr := tmp, plen := 0 }).addLease6 i endTime
      return (.success, s)

/-- The prefixes built from the hash of the input, until one is free. -/
def findPrefix (build : Bytes → In6Addr) : ℕ → Bytes → Option In6Addr
  | 0, _ => none
  | n + 1, ds =>
    let tmp := build ds
    if (s.hashLookup tmp).isNone then some tmp else findPrefix build n (ds ++ tmp.toList)

/-- `build` stands for `build_prefix6` with the pool's bits, `units` for the length of the
prefixes. -/
def createPrefix6 (build : Bytes → In6Addr) (units : UInt8) (uid : Bytes) (i : α)
    (endTime : Time) : Option (Result × State α β) :=
  match s.findPrefix build 10 uid with
  | none => some (.noResources, s)
  | some tmp => do
    let s ← (s.allocate i { addr := tmp, plen := units }).addLease6 i endTime
    return (.success, s)

/-- An address that is never to be leased. -/
def markLeaseUnavailable (addr : In6Addr) : State α β :=
  (s.allocate i { addr := addr }).hashAdd i

/-! ### Changing leases -/

/-- Whether the lease may use its address: no other lease of the hash table has it. -/
def lease6Usable : Bool :=
  match s.hashLookup (s.lease i).addr with
  | none => true
  | some j => j = i

/-- Insert on one heap, then delete from the other at the old index. -/
def moveLeaseToActive : Option (State α β) := do
  let oldHeapIndex := s.heapIndex i
  let s := (s.insertActive i).hashAdd i
  let h ← iscHeapDelete s.leaseOlder (s.inactiveTimeouts, s.heapIndex) oldHeapIndex
  let s := (((s.setInactive h).addActive 1).addInactive (-1))
  return s.modify i fun l => { l with state := .active }

/-- The new end of the lease takes effect. -/
def takeSoftLifetime : State α β :=
  s.modify i fun l => { l with
    hardLifetimeEndTime := l.softLifetimeEndTime, softLifetimeEndTime := 0 }

def renewLease6 : Option (State α β) :=
  let oldEndTime := (s.lease i).hardLifetimeEndTime
  let s := s.takeSoftLifetime i
  if (s.lease i).state = .active then do
    let heap := (s.activeTimeouts, s.heapIndex)
    let h ← if oldEndTime ≤ (s.lease i).hardLifetimeEndTime then
        iscHeapDecreased s.leaseOlder heap (s.heapIndex i)
      else iscHeapIncreased s.leaseOlder heap (s.heapIndex i)
    return s.setActive h
  else if (s.lease i).state = .abandoned then do
    let s := s.modify i fun l => { l with state := .active }
    let h ← iscHeapIncreased s.leaseOlder (s.activeTimeouts, s.heapIndex) (s.heapIndex i)
    return (s.setActive h).addAbandoned (-1)
  else s.moveLeaseToActive i

def moveLeaseToInactive (state : BindingState) : Option (State α β) := do
  let oldHeapIndex := s.heapIndex i
  let s := (s.insertInactive i).hashDelete i
  let h ← iscHeapDelete s.leaseOlder (s.activeTimeouts, s.heapIndex) oldHeapIndex
  let s := (s.setActive h).modify i fun l => { l with state := state }
  let s := (s.addActive (-1)).addInactive 1
  return if (s.lease i).state = .abandoned then s.addAbandoned (-1) else s

/-- The oldest lease, if it has expired, is moved and returned. -/
def expireLease6 (now : Time) : Option (Option α × State α β) :=
  if s.numActive = 0 then some (none, s)
  else do
    let tmp ← iscHeapElement s.activeTimeouts 1
    if now > (s.lease tmp).hardLifetimeEndTime then
      let s ← s.moveLeaseToInactive tmp .expired
      return (some tmp, s)
    else return (none, s)

/-- A lease that is not in use is first moved to the active heap. -/
def bringToActive : Option (State α β) :=
  if inUse (s.lease i).state then some s else s.moveLeaseToActive i

def declineLease6 : Option (State α β) := do
  let s ← s.bringToActive i
  let s := (s.modify i fun l => { l with state := .abandoned }).addAbandoned 1
  let s := s.modify i fun l => { l with hardLifetimeEndTime := maxTime }
  let h ← iscHeapDecreased s.leaseOlder (s.activeTimeouts, s.heapIndex) (s.heapIndex i)
  return s.setActive h

def releaseLease6 : Option (State α β) :=
  if (s.lease i).state = .active then s.moveLeaseToInactive i .released else some s

/-! ### Removing leases -/

def iaRemoveIasubopt (b : β) (i : α) : State α β :=
  if i ∈ (s.ia b).iasubopt then
    let s := { s with
      ia := Function.update s.ia b { s.ia b with iasubopt := (s.ia b).iasubopt.erase i } }
    s.modify i fun l => { l with ia := none }
  else s

def iaHashDelete (table : IaType) (key : Bytes) : State α β :=
  let entries := Function.update (s.iaActive table) key none
  { s with iaActive := Function.update s.iaActive table entries }

/-- The old lease `j` of the identity association `b` makes room for the lease `i`. -/
def removeForNew (table : IaType) (i j : α) (b : β) : Option (State α β) := do
  let s ← s.removeActive j ((s.lease i).state = .abandoned)
  let s := s.iaRemoveIasubopt b j
  return if (s.ia b).iasubopt = [] then s.iaHashDelete table (s.ia b).iaidDuid else s

/-- `i` is a lease read from the lease file, of the identity association `b`. -/
def cleanupLease6 (table : IaType) (i : α) (b : β) : Option (Result × State α β) :=
  match s.hashLookup (s.lease i).addr with
  | none => some (.success, s)
  | some j =>
    match (s.lease j).ia with
    | none => some (.success, s)
    | some old =>
      if (s.ia old).iaidDuid = (s.ia b).iaidDuid then
        if inUse (s.lease i).state then some (.success, s)
        else (s.removeForNew table i j old).map (.success, ·)
      else if inUse (s.lease i).state then (s.removeForNew table i j old).map (.failure, ·)
      else some (.success, s)

def expiredIpv6CleanupTime : ℕ := 60 * 60

/-- When a lease on the inactive heap may be forgotten. -/
def cleanupTime (l : Iasubopt β) : Time :=
  if l.hardLifetimeEndTime ≠ 0 then l.hardLifetimeEndTime + expiredIpv6CleanupTime
  else l.softLifetimeEndTime

/-- The lease is taken out of its identity association. That is then looked up among the
active ones, and deleted only if it is found where it is not. -/
def forgetLease : State α β :=
  match (s.lease i).ia with
  | none => s
  | some b =>
    let s := s.iaRemoveIasubopt b i
    let key := (s.ia b).iaidDuid
    let found := s.iaActive (s.ia b).iaType key
    if (s.ia b).iasubopt = [] ∧ found = none ∧ found = some b then
      s.iaHashDelete (s.ia b).iaType key
    else s

/-- `fuel` bounds the number of leases that are forgotten. -/
def cleanupOldExpired : ℕ → State α β → Option (State α β)
  | 0, _ => none
  | fuel + 1, s =>
    if s.numInactive > 0 then do
      let tmp ← iscHeapElement s.inactiveTimeouts 1
      if s.curTime < cleanupTime (s.lease tmp) then return s
      let h ← iscHeapDelete s.leaseOlder (s.inactiveTimeouts, s.heapIndex) (s.heapIndex tmp)
      cleanupOldExpired fuel (((s.setInactive h).addInactive (-1)).forgetLease tmp)
    else some s

/-- `fuel` bounds the number of leases that expire. -/
def expireAll : ℕ → State α β → Option (State α β)
  | 0, _ => none
  | fuel + 1, s => do
    match ← s.expireLease6 s.curTime with
    | (none, s) => return s
    | (some _, s) => expireAll fuel s

def leaseTimeoutSupport : Option (State α β) := do
  let s ← expireAll (s.activeTimeouts.length + 1) s
  cleanupOldExpired (s.inactiveTimeouts.length + 1) s

end State

end IscDhcp.Mdb6
