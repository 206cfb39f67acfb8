import IscDhcp.Mdb6.PoolOps

/-!
Runs of a DHCPv6 pool: which calls of the server keep the accounts of the pool, and which keep
at most one holder of an address.
-/

namespace IscDhcp.Mdb6

open IscDhcp.Heap State

variable {α β : Type} [DecidableEq α] [DecidableEq β]

/-- What happens to a pool, and to the leases and identity associations around it. -/
inductive Op (α β : Type)
  /-- A lease is allocated and its data are filled in. -/
  | allocate (i : α) (l : Iasubopt β)
  | createLease6 (build : ℕ → Bytes → In6Addr) (uid : Bytes) (i : α) (endTime : Time)
  | createPrefix6 (build : Bytes → In6Addr) (units : UInt8) (uid : Bytes) (i : α) (endTime : Time)
  | addLease6 (i : α) (endTime : Time)
  | markLeaseUnavailable (i : α) (addr : In6Addr)
  | cleanupLease6 (table : IaType) (i : α) (b : β)
  | renewLease6 (i : α)
  | declineLease6 (i : α)
  | releaseLease6 (i : α)
  | expireLease6 (now : Time)
  | leaseTimeout
  /-- The server stores a new end for the lease, which `renew_lease6` will use. -/
  | setSoftLifetime (i : α) (endTime : Time)
  /-- The lease is moved to another identity association. -/
  | setIa (i : α) (b : Option β)
  /-- The identity associations change. -/
  | changeIas (ia : β → Ia α) (iaActive : IaType → Bytes → Option β)
  | passTime (now : Time)

/-- A pool, and the entries `mark_lease_unavailable` has made in its hash table. -/
structure Run (α β : Type) where
  pool : State α β
  marked : List α := []

def Op.apply (s : State α β) : Op α β → Option (State α β)
  | .allocate i l => some (s.allocate i l)
  | .createLease6 build uid i endTime => (s.createLease6 build uid i endTime).map Prod.snd
  | .createPrefix6 build units uid i endTime =>
    (s.createPrefix6 build units uid i endTime).map Prod.snd
  | .addLease6 i endTime => s.addLease6 i endTime
  | .markLeaseUnavailable i addr => some (s.markLeaseUnavailable i addr)
  | .cleanupLease6 table i b => (s.cleanupLease6 table i b).map Prod.snd
  | .renewLease6 i => s.renewLease6 i
  | .declineLease6 i => s.declineLease6 i
  | .releaseLease6 i => s.releaseLease6 i
  | .expireLease6 now => (s.expireLease6 now).map Prod.snd
  | .leaseTimeout => s.leaseTimeoutSupport
  | .setSoftLifetime i endTime =>
    some (s.modify i fun l => { l with softLifetimeEndTime := endTime })
  | .setIa i b => some (s.modify i fun l => { l with ia := b })
  | .changeIas ia iaActive => some { s with ia := ia, iaActive := iaActive }
  | .passTime now => some { s with curTime := now }

def Op.marks (marked : List α) : Op α β → List α
  | .markLeaseUnavailable i _ => i :: marked
  | _ => marked

namespace Run

def step (r : Run α β) (op : Op α β) : Option (Run α β) :=
  (op.apply r.pool).map (⟨·, op.marks r.marked⟩)

def run (r : Run α β) (ops : List (Op α β)) : Option (Run α β) := ops.foldlM step r

/-- Every operation of the run meets the condition in the state it is called in. -/
def Meets (P : Run α β → Op α β → Prop) (r : Run α β) : List (Op α β) → Prop
  | [] => True
  | op :: ops => P r op ∧ ∀ t, r.step op = some t → Meets P t ops

structure Empty (r : Run α β) : Prop where
  leases : r.pool.leases = fun _ => []
  activeTimeouts : r.pool.activeTimeouts = []
  inactiveTimeouts : r.pool.inactiveTimeouts = []
  numActive : r.pool.numActive = 0
  numAbandoned : r.pool.numAbandoned = 0
  numInactive : r.pool.numInactive = 0
  pond : r.pool.PondSums
  marked : r.marked = []

/-- The lease may be made active: it is, or no other lease has been given its address. -/
def MayHold (r : Run α β) (i : α) : Prop :=
  i ∈ r.pool.activeTimeouts ∨ i ∈ r.pool.inactiveTimeouts ∧ r.pool.lease6Usable i

/-- A call is made with a lease that is where the call expects it, and a lease that is made
active may use its address. -/
def Placed (r : Run α β) : Op α β → Prop
  | .allocate i _ | .createLease6 _ _ i _ | .createPrefix6 _ _ _ i _ => Unlisted r.pool r.marked i
  | .addLease6 i _ => i ∉ r.pool.inactiveTimeouts ∧ i ∉ r.marked ∧
    ∀ j ∈ r.marked, r.pool.hashLookup (r.pool.lease i).addr ≠ some j
  | .markLeaseUnavailable i addr => Unlisted r.pool r.marked i ∧ r.pool.hashLookup addr = none
  | .renewLease6 i | .declineLease6 i => r.MayHold i
  | .releaseLease6 i => (r.pool.lease i).state = .active → i ∈ r.pool.activeTimeouts
  | .setIa i _ => i ∉ r.marked
  | _ => True

/-- The call counts the abandoned leases right: it declines a lease that is not abandoned yet,
expires none that is, and removes none for one that is not, or the other way round. -/
def Counted (r : Run α β) : Op α β → Prop
  | .declineLease6 i => ¬ r.pool.abandoned i
  | .expireLease6 now => r.pool.NoAbandonedBefore now
  | .leaseTimeout => r.pool.NoAbandonedBefore r.pool.curTime
  | .cleanupLease6 _ i b => ∀ j, r.pool.Displaces i b j → r.pool.abandoned i = r.pool.abandoned j
  | _ => True

variable {r : Run α β} {e : U64}

lemma Empty.inv (h : r.Empty) : Inv r.pool r.marked 0 where
  active := by rw [h.numActive, h.activeTimeouts]; rfl
  inactive := by rw [h.numInactive, h.inactiveTimeouts]; rfl
  abandoned := by rw [h.numAbandoned, h.activeTimeouts]; rfl
  pond := h.pond
  leases a x := by simp [hashLookup, h.leases, h.activeTimeouts, h.marked]
  single a := by simp [h.leases]
  heaps := by rw [h.activeTimeouts, h.inactiveTimeouts]; exact shared_nil _
  inUse x hx := by simp [h.activeTimeouts] at hx
  notInUse x hx := by simp [h.inactiveTimeouts] at hx
  unlisted x hx := by simp [h.marked] at hx
  noIa x hx := by simp [h.marked] at hx

lemma MayHold.free (h : Inv r.pool r.marked e) {i : α} (hi : r.MayHold i) :
    i ∈ r.pool.activeTimeouts ∨
      i ∈ r.pool.inactiveTimeouts ∧ r.pool.hashLookup (r.pool.lease i).addr = none := by
  refine hi.imp_right fun ⟨hmem, huse⟩ => ⟨hmem, ?_⟩
  rcases hj : r.pool.hashLookup (r.pool.lease i).addr with _ | j
  · rfl
  · simp only [lease6Usable, hj, decide_eq_true_eq] at huse
    subst huse
    rcases ((h.leases _ j).mp hj).2 with hact | hm
    · exact absurd hmem (h.heaps.disjoint j hact)
    · exact absurd hmem (h.unlisted j hm).2

/-- **One call** that returns leaves the pool as the invariant says. -/
lemma Inv.apply (h : Inv r.pool r.marked e) {op : Op α β} (hop : r.Placed op) {t : State α β}
    (ht : op.apply r.pool = some t) :
    ∃ e', Inv t (op.marks r.marked) e' ∧ (r.Counted op → e' = e) := by
  cases op with
  | allocate i l =>
    cases ht
    exact ⟨e, h.allocate hop l, fun _ => rfl⟩
  | createLease6 build uid i endTime =>
    obtain ⟨⟨res, u⟩, hu, rfl⟩ := Option.map_eq_some_iff.mp ht
    exact ⟨e, h.createLease6 hop hu, fun _ => rfl⟩
  | createPrefix6 build units uid i endTime =>
    obtain ⟨⟨res, u⟩, hu, rfl⟩ := Option.map_eq_some_iff.mp ht
    exact ⟨e, h.createPrefix6 hop hu, fun _ => rfl⟩
  | addLease6 i endTime => exact ⟨e, h.addLease6 hop.1 hop.2.1 hop.2.2 ht, fun _ => rfl⟩
  | markLeaseUnavailable i addr =>
    cases ht
    exact ⟨e, h.markLeaseUnavailable hop.1 hop.2, fun _ => rfl⟩
  | cleanupLease6 table i b =>
    obtain ⟨⟨res, u⟩, hu, rfl⟩ := Option.map_eq_some_iff.mp ht
    exact h.cleanupLease6 hu
  | renewLease6 i => exact ⟨e, h.renewLease6 (MayHold.free h hop) ht, fun _ => rfl⟩
  | declineLease6 i =>
    exact ⟨_, h.declineLease6 (MayHold.free h hop) ht, fun hab => by rw [if_neg hab, add_zero]⟩
  | releaseLease6 i => exact ⟨e, h.releaseLease6 hop ht, fun _ => rfl⟩
  | expireLease6 now =>
    obtain ⟨⟨res, u⟩, hu, rfl⟩ := Option.map_eq_some_iff.mp ht
    rcases h.expireLease6 now with heq | ⟨x, v, heq, hinv, hperm, hexp, -⟩ <;>
      cases hu.symm.trans heq
    · exact ⟨e, h, fun _ => rfl⟩
    · refine ⟨_, hinv, fun hno => ?_⟩
      have hnot : ¬ r.pool.abandoned x := fun hst =>
        Nat.not_le.mpr hexp (hno x (hperm.subset (by simp)) (by simpa [State.abandoned] using hst))
      rw [if_neg hnot, add_zero]
  | leaseTimeout =>
    obtain ⟨u, e', hu, hinv, hdrift⟩ := h.leaseTimeoutSupport
    cases hu.symm.trans ht
    exact ⟨e', hinv, hdrift⟩
  | setSoftLifetime i endTime =>
    cases ht
    exact ⟨e, h.modify_times i, fun _ => rfl⟩
  | setIa i b =>
    cases ht
    exact ⟨e, h.modify_times i fun hm => absurd hm hop, fun _ => rfl⟩
  | changeIas ia iaActive =>
    cases ht
    exact ⟨e, h.congr rfl, fun _ => rfl⟩
  | passTime now =>
    cases ht
    exact ⟨e, h.congr rfl, fun _ => rfl⟩

variable {ops : List (Op α β)}

/-- **A run** keeps what every call that meets the condition keeps. -/
lemma Meets.run {P : Run α β → Op α β → Prop} {Q : Run α β → Prop} {t : Run α β}
    (hstep : ∀ r op t, Q r → P r op → op.apply r.pool = some t → Q ⟨t, op.marks r.marked⟩)
    (h : Q r) (hops : r.Meets P ops) (ht : r.run ops = some t) : Q t := by
  induction ops generalizing r with
  | nil =>
    cases ht
    exact h
  | cons op ops ih =>
    rw [Run.run, List.foldlM_cons] at ht
    obtain ⟨u, hu, ht⟩ := Option.bind_eq_some_iff.mp ht
    refine ih ?_ (hops.2 u hu) ht
    obtain ⟨v, hv, rfl⟩ := Option.map_eq_some_iff.mp hu
    exact hstep r op v h hops.1 hv

/-- **Accounting**: in a run from an empty pool in which every call is placed right and counts
the abandoned leases right, the accounts are right in the state reached. (A call after which
`heap.c` finds its heap in disorder does not return.) -/
theorem accounting_of_counted {ops : List (Op α β)} {t : Run α β} (hr : r.Empty)
    (hops : r.Meets (fun r op => r.Placed op ∧ r.Counted op) ops) (ht : r.run ops = some t) :
    Accounting t.pool t.marked 0 := by
  refine (hops.run (Q := fun r => Inv r.pool r.marked 0) ?_ hr.inv ht).toAccounting
  intro r op t h hop ht
  obtain ⟨e, hinv, hdrift⟩ := Inv.apply h hop.1 ht
  exact hdrift hop.2 ▸ hinv

/-- At most one lease in use has an address, and the hash table finds it. -/
structure OneHolder (s : State α β) : Prop where
  unique : ∀ x ∈ s.activeTimeouts, ∀ y ∈ s.activeTimeouts, (s.lease x).addr = (s.lease y).addr →
    x = y
  found : ∀ x ∈ s.activeTimeouts, s.hashLookup (s.lease x).addr = some x

/-- **One holder**: in a run from an empty pool in which every call is placed right, there is at
most one holder of an address in the state reached. -/
theorem oneHolder_of_placed {ops : List (Op α β)} {t : Run α β} (hr : r.Empty)
    (hops : r.Meets Placed ops) (ht : r.run ops = some t) : OneHolder t.pool := by
  obtain ⟨e, hinv⟩ := hops.run (Q := fun r => ∃ e, Inv r.pool r.marked e)
    (fun r op t ⟨e, h⟩ hop ht => (Inv.apply h hop ht).imp fun _ h => h.1) ⟨0, hr.inv⟩ ht
  refine ⟨fun x hx y hy haddr => ?_, fun x hx => ?_⟩
  · exact hinv.eq_of_addr (.inl hx) (.inl hy) haddr
  · exact (hinv.leases _ x).mpr ⟨rfl, .inl hx⟩

/-! ### Runs of one client and of two -/

def new : Run ℕ ℕ where
  pool := { lease := fun _ => { addr := .replicate 16 0 }, ia := fun _ => {}, pond := some {} }

lemma new_empty : new.Empty where
  leases := rfl
  activeTimeouts := rfl
  inactiveTimeouts := rfl
  numActive := rfl
  numAbandoned := rfl
  numInactive := rfl
  pond p hp := by cases hp; exact ⟨rfl, rfl⟩
  marked := rfl

def testAddr (b : UInt8) : In6Addr := (Vector.replicate 15 0x20).push b

/-- A client is given the address with the last byte `b`. -/
def assign (i : ℕ) (b : UInt8) : List (Op ℕ ℕ) :=
  [.createLease6 (fun _ _ => testAddr b) [] i 120, .setSoftLifetime i 1000, .renewLease6 i]

lemma Meets.cons {P : Run α β → Op α β → Prop} {op : Op α β} {t : Run α β} (hop : P r op)
    (hstep : r.step op = some t) (h : t.Meets P ops) : r.Meets P (op :: ops) :=
  ⟨hop, fun u hu => by rw [hstep] at hu; exact Option.some.inj hu ▸ h⟩

/-- The run that gives a client a lease it declines. -/
theorem assign_accounting :
    ∃ t, new.run (assign 0 1 ++ [.declineLease6 0]) = some t ∧ Accounting t.pool t.marked 0 := by
  have hops : new.Meets (fun r op => r.Placed op ∧ r.Counted op)
      (assign 0 1 ++ [.declineLease6 0]) := by
    refine .cons ⟨⟨by decide, by decide, by decide⟩, trivial⟩ rfl ?_
    refine .cons ⟨trivial, trivial⟩ rfl ?_
    refine .cons ⟨.inr ⟨by decide, by decide⟩, trivial⟩ rfl ?_
    exact .cons ⟨.inl (by decide), fun h => Bool.false_ne_true h⟩ rfl trivial
  exact ⟨_, rfl, accounting_of_counted new_empty hops rfl⟩

/-- The address of a released lease is given to another client. -/
theorem assign_release_assign_oneHolder :
    ∃ t, new.run (assign 0 1 ++ [.releaseLease6 0] ++ assign 1 1) = some t ∧ OneHolder t.pool := by
  have hops : new.Meets Placed (assign 0 1 ++ [.releaseLease6 0] ++ assign 1 1) := by
    refine .cons ⟨by decide, by decide, by decide⟩ rfl ?_
    refine .cons trivial rfl ?_
    refine .cons (.inr ⟨by decide, by decide⟩) rfl ?_
    refine .cons (fun _ => by decide) rfl ?_
    refine .cons ⟨by decide, by decide, by decide⟩ rfl ?_
    refine .cons trivial rfl ?_
    exact .cons (.inr ⟨by decide, by decide⟩) rfl trivial
  exact ⟨_, rfl, oneHolder_of_placed new_empty hops rfl⟩

/-- A client that declines its lease twice is counted twice. -/
theorem declined_twice_counted_twice :
    ∃ t, new.run (assign 0 1 ++ [.declineLease6 0, .declineLease6 0]) = some t ∧
      t.pool.numAbandoned = 2 ∧ t.pool.activeTimeouts = [0] ∧
      ¬ ∃ marked, Accounting t.pool marked 0 := by
  refine ⟨_, rfl, rfl, rfl, fun ⟨marked, h⟩ => absurd h.abandoned ?_⟩
  decide

/-- A client that declines a lease it released before makes a second holder of the address,
which another client has by then. -/
theorem declined_after_release_second_holder :
    ∃ t, new.run (assign 0 1 ++ [.releaseLease6 0] ++ assign 1 1 ++ [.declineLease6 0]) = some t ∧
      t.pool.activeTimeouts = [1, 0] ∧ ¬ OneHolder t.pool := by
  refine ⟨_, rfl, rfl, fun h => absurd (h.unique 0 ?_ 1 ?_ rfl) (by decide)⟩ <;> decide

end Run

end IscDhcp.Mdb6
