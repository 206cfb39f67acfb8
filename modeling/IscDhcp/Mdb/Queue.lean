import IscDhcp.Mdb.Types
import Mathlib.Data.List.Sort

/-!
The lease queues of a pool (`lease_insert`, `lease_remove` and `lease_enqueue` of `mdb.c`).
-/

namespace IscDhcp

variable {ι : Type} [DecidableEq ι]

/-- The queue the switches of `lease_enqueue` and `supersede_lease` choose; a lease with a
bogus binding state has none. -/
def queueOf (l : Lease) : Option Queue :=
  match l.bindingState with
  | .free => some (if l.flags.reserved then .reserved else .free)
  | .active => some .active
  | .expired | .released | .reset => some .expired
  | .abandoned => some .abandoned
  | .backup => some (if l.flags.reserved then .reserved else .backup)
  | .bogus _ => none

/-- Count a lease that enters (`d = 1`) or leaves (`d = -1`) a queue. -/
def Pool.count (x : Pool ι) (q : Queue) (d : ℤ) : Pool ι :=
  match q with
  | .free => { x with freeLeases := x.freeLeases + d }
  | .backup => { x with backupLeases := x.backupLeases + d }
  | _ => x

def Pool.setQueue (x : Pool ι) (q : Queue) (l : List ι) : Pool ι :=
  { x with queue := Function.update x.queue q l }

/-- The part of the queue behind `last` is searched for the place of `comp`. -/
def insertAfter (r : ι → ι → Prop) [DecidableRel r] (last comp : ι) : List ι → List ι
  | [] => []
  | lp :: q => if lp = last then lp :: q.orderedInsert r comp else lp :: insertAfter r last comp q

namespace Db

variable (s : Db ι)

/-- The insertion point of the last call is used as a starting point. -/
def follow (p : ℕ) (q : Queue) (comp : ι) : Option ι :=
  match s.ssQfollow, s.lastInsert with
  | true, some (p', q', last) =>
    if p' = p ∧ q' = q ∧ comp ≠ last ∧ (s.lease last).sortTime ≤ (s.lease comp).sortTime then
      some last
    else none
  | _, _ => none

def leaseInsert (p : ℕ) (q : Queue) (comp : ι) : Db ι :=
  let before := fun a b => (s.lease a).sortTime ≤ (s.lease b).sortTime
  let old := (s.pool p).queue q
  let new := match s.follow p q comp with
    | some last => insertAfter before last comp old
    | none => old.orderedInsert before comp
  { s.setPool p ((s.pool p).setQueue q new) with lastInsert := some (p, q, comp) }

/-- `none` is the fatal error "Lease with binding state … not on its queue." -/
def leaseRemove (p : ℕ) (q : Queue) (comp : ι) : Option (Db ι) :=
  if comp ∈ (s.pool p).queue q then
    some (s.setPool p ((s.pool p).setQueue q (((s.pool p).queue q).erase comp)))
  else none

/-- The time `pool_timer` looks at the lease: for the expired queue in partner-down the later
of `tsfp` and `ends`. -/
def sortTimeOf (p : ℕ) (q : Queue) (l : Lease) : Time :=
  if q = .expired ∧ (s.pool p).failoverPeer = true ∧ s.peer.meState = .partnerDown then
    if l.tsfp > l.ends then l.tsfp else l.ends
  else l.ends

/-- Put the lease on the queue of its state; `false` if it has none. -/
def leaseEnqueue (comp : ι) : Bool × Db ι :=
  match (s.lease comp).pool with
  | none => (false, s)
  | some p =>
    match queueOf (s.lease comp) with
    | none => (false, s)
    | some q =>
      let s := s.setPool p ((s.pool p).count q 1)
      let s := s.modify comp fun l => { l with sortTime := s.sortTimeOf p q l }
      (true, s.leaseInsert p q comp)

end Db

end IscDhcp
