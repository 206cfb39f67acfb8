import IscDhcp.Mdb.Types
import Mathlib.Data.Fintype.Card

/-!
The leases of one client: the chains by client identifier and by hardware address
(`mdb.c`, with the hash tables of `hash.c`).

The first lease of a chain is the one the hash table holds. A chain is kept in the order in
which the leases are preferred for the client.
-/

namespace IscDhcp

open IscDhcp.Lib

def clientLeasePreferred (cand lease : Lease) : Bool :=
  match cand.bindingState with
  | .active => lease.bindingState == .active && lease.ends ≥ cand.ends
  | .expired | .released =>
    lease.bindingState == .active ||
      ((lease.bindingState == .expired || lease.bindingState == .released) &&
        lease.cltt ≥ cand.cltt)
  | .abandoned => lease.bindingState != .abandoned || lease.cltt ≥ cand.cltt
  | _ =>
    (lease.bindingState == .active || lease.bindingState == .expired ||
        lease.bindingState == .released) ||
      (lease.bindingState != .abandoned && lease.cltt ≥ cand.cltt)

/-! ### The hash tables of identifiers -/

def leaseHashSize : ℕ := 100003

/-- The remaining bytes, in groups of three. -/
def idHashGroups : ℕ → Bytes → ℕ
  | accum, a :: b :: c :: name =>
    idHashGroups (accum ^^^ (a.toNat <<< 16) ^^^ (b.toNat <<< 8) ^^^ c.toNat) name
  | accum, _ => accum

def doIdHash (name : Bytes) : ℕ :=
  match name.length % 3, name with
  | 2, a :: b :: name => idHashGroups ((a.toNat <<< 8) ^^^ b.toNat) name % leaseHashSize
  | 1, a :: name => idHashGroups a.toNat name % leaseHashSize
  | _, name => idHashGroups 0 name % leaseHashSize

/-- An entry of length zero is compared as a string, and so matches a key that starts with a
null byte. -/
def deletesId (name key : Bytes) : Bool :=
  (name.isEmpty && (key.isEmpty || key.head? == some 0)) || name == key

def htypeInfiniband : UInt8 := 32

/-- An infiniband address has no bytes to hash on. -/
def infiniband (hw : Bytes) : Bool := hw == [htypeInfiniband]

/-- The identifiers `find_lease_by_uid` does not look up. -/
def uidRefused (uid : Bytes) : Bool := uid.isEmpty

/-- The addresses `find_lease_by_hw_addr` does not look up. -/
def hwRefused (hw : Bytes) : Bool := hw.isEmpty || infiniband hw

namespace Ids

variable {ι : Type} (refused : Bytes → Bool)

def find (ids : Ids ι) (k : Bytes) : Option ι :=
  if refused k then none else ids.table.lookup doIdHash k

variable [DecidableEq ι] [Fintype ι] (lease : ι → Lease) (key : ι → Bytes)

def linkAfter (next : ι → Option ι) (b i : ι) : ι → Option ι :=
  match next b with
  | none => Function.update next b (some i)
  | some c => Function.update (Function.update next i (reference (next i) c)) b (some i)

/-- Insert the lease in front of the first one it is preferred over. -/
def hashAdd (ids : Ids ι) (i : ι) : Ids ι :=
  match ids.find refused (key i) with
  | none => { ids with table := ids.table.add doIdHash (key i) i }
  | some head =>
    let preferred := fun cand => clientLeasePreferred (lease cand) (lease i)
    match (scan ids.next preferred (Fintype.card ι + 1) none (some head)).1 with
    | none =>
      { table := (ids.table.delete doIdHash deletesId (key i)).add doIdHash (key i) i
        next := Function.update ids.next i (reference (ids.next i) head) }
    | some prev => { ids with next := linkAfter ids.next prev i }

def hashDelete (ids : Ids ι) (i : ι) : Ids ι :=
  match ids.find refused (key i) with
  | none => { ids with next := Function.update ids.next i none }
  | some head =>
    if head = i then
      let table := ids.table.delete doIdHash deletesId (key i)
      match ids.next i with
      | none => { ids with table := table }
      | some n =>
        { table := table.add doIdHash (key n) n, next := Function.update ids.next i none }
    else
      match (scan ids.next (fun c => ids.next c = some i) (Fintype.card ι + 1) none
        (some head)).2 with
      | none => ids
      | some b => { ids with next := unlinkAfter ids.next b i }

end Ids

namespace Db

variable {ι : Type} (s : Db ι)

/-- The client identifier, empty when there is none. -/
def uidKey (i : ι) : Bytes := (s.lease i).uid.getD []
def hwKey (i : ι) : Bytes := (s.lease i).hardwareAddr

def findLeaseByUid (uid : Bytes) : Option ι := s.uids.find uidRefused uid
def findLeaseByHwAddr (hw : Bytes) : Option ι := s.hws.find hwRefused hw

variable [DecidableEq ι] [Fintype ι]

def uidHashAdd (i : ι) : Db ι := { s with uids := s.uids.hashAdd uidRefused s.lease s.uidKey i }
def uidHashDelete (i : ι) : Db ι := { s with uids := s.uids.hashDelete uidRefused s.uidKey i }

def hwHashAdd (i : ι) : Db ι :=
  if infiniband (s.hwKey i) then s
  else { s with hws := s.hws.hashAdd hwRefused s.lease s.hwKey i }

def hwHashDelete (i : ι) : Db ι :=
  if infiniband (s.hwKey i) then s
  else { s with hws := s.hws.hashDelete hwRefused s.hwKey i }

end Db

end IscDhcp
