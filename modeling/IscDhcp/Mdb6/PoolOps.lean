import IscDhcp.Mdb6.Accounting

/-!
The operations on a DHCPv6 pool keep its accounting, each under its own condition.
-/

namespace IscDhcp.Mdb6.State

open IscDhcp.Heap List

variable {α β : Type} [DecidableEq α] [DecidableEq β] {s t : State α β} {marked : List α} {e : U64}

/-! ### A lease stays on the active heap -/

variable (h : Inv s marked e)

include h

lemma Inv.setActive {heap : Indexed α} (hperm : heap.1.Perm s.activeTimeouts)
    (hsh : Shared heap.1 s.inactiveTimeouts heap.2) : Inv (s.setActive heap) marked e :=
  h.rearrange rfl hperm (.refl _) hsh (fun _ _ => ⟨rfl, rfl⟩) fun _ _ => rfl

variable {i : α}

lemma Inv.setState (hi : i ∈ s.activeTimeouts) (st : BindingState) (hst : Mdb6.inUse st) (d : U64) :
    Inv ((s.modify i fun l => { l with state := st }).addAbandoned d) marked
      (e + d + (if s.abandoned i then 1 else 0) - if st = .abandoned then 1 else 0) := by
  have hne : ∀ x, x ≠ i →
      ((s.modify i fun l => { l with state := st }).addAbandoned d).lease x = s.lease x :=
    fun x hx => by rw [addAbandoned_lease, modify_of_ne _ _ hx]
  have hself : ((s.modify i fun l => { l with state := st }).addAbandoned d).lease i =
      { s.lease i with state := st } := by rw [addAbandoned_lease, modify_self]
  have haddr : ∀ x, (((s.modify i fun l => { l with state := st }).addAbandoned d).lease x).addr =
      (s.lease x).addr := fun x => by
    by_cases hx : x = i
    · rw [hx, hself]
    · rw [hne x hx]
  have him : i ∉ marked := fun hm => (h.unlisted i hm).1 hi
  exact
    { h with
      abandoned := by
        show s.numAbandoned + d = s.activeTimeouts.countP _ + _
        have hperm := perm_cons_erase hi
        have hrest := countP_abandoned fun x hx =>
          hne x fun he => h.heaps.left.nodup.not_mem_erase (he ▸ hx)
        have hab : ((s.modify i fun l => { l with state := st }).addAbandoned d).abandoned i =
            decide (st = .abandoned) := by rw [State.abandoned, hself]
        rw [h.abandoned, hperm.countP_eq, hperm.countP_eq, countP_cons, countP_cons,
          hrest, hab]
        simp only [Nat.cast_add, Nat.cast_ite, Nat.cast_one, Nat.cast_zero, decide_eq_true_eq]
        ring
      pond := h.pond.addAbandoned d
      leases := fun a x => by rw [haddr]; exact h.leases a x
      inUse := fun x hx => by
        by_cases hxi : x = i
        · rw [hxi, hself]; exact hst
        · rw [hne x hxi]; exact h.inUse x hx
      notInUse := fun x hx => by
        rw [hne x fun he => h.heaps.disjoint i hi (he ▸ hx)]
        exact h.notInUse x hx
      noIa := fun x hx => by
        rw [hne x fun he => him (he ▸ hx)]
        exact h.noIa x hx }

lemma Inv.takeSoftLifetime (i : α) : Inv (s.takeSoftLifetime i) marked e :=
  h.modify_times i

/-- A lease on a heap may be renewed; one that is not in use, if no other has its address. -/
lemma Inv.renewLease6
    (hi : i ∈ s.activeTimeouts ∨ i ∈ s.inactiveTimeouts ∧ s.hashLookup (s.lease i).addr = none)
    (ht : s.renewLease6 i = some t) : Inv t marked e := by
  have h' := h.takeSoftLifetime i
  have haddr : ((s.takeSoftLifetime i).lease i).addr = (s.lease i).addr := by
    rw [State.takeSoftLifetime, modify_self]
  unfold State.renewLease6 at ht
  dsimp only at ht
  rcases hi with hi | ⟨hi, hfree⟩
  · by_cases hact : ((s.takeSoftLifetime i).lease i).state = .active
    · rw [if_pos hact] at ht
      split_ifs at ht <;> obtain ⟨heap, heq, ht⟩ := Option.bind_eq_some_iff.mp ht <;> cases ht
      · obtain ⟨hperm, hsh⟩ := h'.heaps.decreased (s.takeSoftLifetime i).leaseOlder hi heq
        exact h'.setActive hperm hsh
      · obtain ⟨hperm, hsh⟩ := h'.heaps.increased (s.takeSoftLifetime i).leaseOlder hi heq
        exact h'.setActive hperm hsh
    · have hab : ((s.takeSoftLifetime i).lease i).state = .abandoned := by
        have := h'.inUse i hi
        simpa [Mdb6.inUse, hact] using this
      rw [if_neg hact, if_pos hab] at ht
      obtain ⟨heap, heq, ht⟩ := Option.bind_eq_some_iff.mp ht
      cases ht
      have h'' : Inv (((s.takeSoftLifetime i).modify i fun l =>
          { l with state := .active }).addAbandoned (-1)) marked e := by
        have := h'.setState hi .active rfl (-1)
        simpa only [State.abandoned, hab, decide_true, if_true, reduceCtorEq, if_false,
          neg_add_cancel_right, sub_zero] using this
      obtain ⟨hperm, hsh⟩ := h''.heaps.increased
        ((s.takeSoftLifetime i).modify i fun l => { l with state := .active }).leaseOlder hi heq
      exact h''.setActive hperm hsh
  · have hnot := h'.notInUse i hi
    have hact : ((s.takeSoftLifetime i).lease i).state ≠ .active := fun he => hnot (by rw [he]; rfl)
    have hab : ((s.takeSoftLifetime i).lease i).state ≠ .abandoned :=
      fun he => hnot (by rw [he]; rfl)
    rw [if_neg hact, if_neg hab] at ht
    exact (h'.moveLeaseToActive hi (by rw [haddr]; exact hfree) ht).1

/-- A lease that is declined when it is abandoned already is counted once more. -/
lemma Inv.declineLease6
    (hi : i ∈ s.activeTimeouts ∨ i ∈ s.inactiveTimeouts ∧ s.hashLookup (s.lease i).addr = none)
    (ht : s.declineLease6 i = some t) : Inv t marked (e + if s.abandoned i then 1 else 0) := by
  obtain ⟨u, hu, ht⟩ := Option.bind_eq_some_iff.mp ht
  obtain ⟨heap, heq, ht⟩ := Option.bind_eq_some_iff.mp ht
  cases ht
  -- the lease is on the active heap before it is counted as abandoned
  obtain ⟨hinv, hmem, hab⟩ : Inv u marked e ∧ i ∈ u.activeTimeouts ∧
      u.abandoned i = s.abandoned i := by
    unfold bringToActive at hu
    rcases hi with hi | ⟨hi, hfree⟩
    · rw [if_pos (h.inUse i hi)] at hu
      cases hu
      exact ⟨h, hi, rfl⟩
    · rw [if_neg (h.notInUse i hi)] at hu
      obtain ⟨hinv, hmem, hact⟩ := h.moveLeaseToActive hi hfree hu
      have hnot : (s.lease i).state ≠ .abandoned := fun he => h.notInUse i hi (by rw [he]; rfl)
      exact ⟨hinv, hmem, by simp [State.abandoned, hact, hnot]⟩
  have h1 := hinv.setState hmem .abandoned rfl 1
  have h2 := h1.modify_times i (f := fun l => { l with hardLifetimeEndTime := maxTime })
  obtain ⟨hperm, hsh⟩ := h2.heaps.decreased _ hmem heq
  have h3 := h2.setActive hperm hsh
  have hdrift : e + 1 + (if s.abandoned i then 1 else 0) - (1 : U64) =
      e + if s.abandoned i then 1 else 0 := by ring
  rwa [if_pos rfl, hab, hdrift] at h3

lemma Inv.releaseLease6 (hi : (s.lease i).state = .active → i ∈ s.activeTimeouts)
    (ht : s.releaseLease6 i = some t) : Inv t marked e := by
  unfold State.releaseLease6 at ht
  split_ifs at ht with hact
  · obtain ⟨hinv, -⟩ := h.moveLeaseToInactive (hi hact) (by decide) ht
    have hab : s.abandoned i = false := by simp [State.abandoned, hact]
    rwa [hab, if_neg (by decide), add_zero] at hinv
  · cases ht
    exact h

/-! ### Expiry -/

/-- No abandoned lease has expired at `now`. -/
def NoAbandonedBefore (s : State α β) (now : Time) : Prop :=
  ∀ x ∈ s.activeTimeouts, (s.lease x).state = .abandoned → now ≤ (s.lease x).hardLifetimeEndTime

/-- What one call of `expire_lease6` does: nothing, or the lease it returns leaves the active
heap for the inactive one. An abandoned lease stays counted. -/
lemma Inv.expireLease6 (now : Time) : s.expireLease6 now = some (none, s) ∨
    ∃ x t, s.expireLease6 now = some (some x, t) ∧
      Inv t marked (e + if s.abandoned x then 1 else 0) ∧
      (x :: t.activeTimeouts).Perm s.activeTimeouts ∧ (s.lease x).hardLifetimeEndTime < now ∧
      (∀ y, y ≠ x → t.lease y = s.lease y) ∧ t.curTime = s.curTime := by
  unfold State.expireLease6
  by_cases hn : s.numActive = 0
  · exact .inl (if_pos hn)
  · rw [if_neg hn]
    rcases hl : s.activeTimeouts with _ | ⟨x, l⟩
    · exact absurd (by rw [h.active, hl]; rfl) hn
    · have hx : x ∈ s.activeTimeouts := by simp [hl]
      have htop : iscHeapElement s.activeTimeouts 1 = some x := by simp [iscHeapElement, hl]
      by_cases hexp : now > (s.lease x).hardLifetimeEndTime
      · obtain ⟨t, ht⟩ := h.exists_moveLeaseToInactive (x := x) (by simp [hl]) .expired
        obtain ⟨hinv, hperm, hlease, htime⟩ := h.moveLeaseToInactive hx (by decide) ht
        refine .inr ⟨x, t, ?_, hinv, hl ▸ hperm, hexp, hlease, htime⟩
        rw [← hl]
        simp only [htop, Option.bind_eq_bind, Option.bind_some, if_pos hexp, ht]
        rfl
      · refine .inl ?_
        rw [← hl]
        simp only [htop, Option.bind_eq_bind, Option.bind_some, if_neg hexp]
        rfl

omit h in
lemma Inv.expireAll (fuel : ℕ) (h : Inv s marked e) (hfuel : s.activeTimeouts.length < fuel) :
    ∃ t e', expireAll fuel s = some t ∧ Inv t marked e' ∧
      (s.NoAbandonedBefore s.curTime → e' = e) := by
  induction fuel generalizing s e with
  | zero => omega
  | succ fuel ih =>
    rcases h.expireLease6 s.curTime with heq | ⟨x, t, heq, hinv, hperm, hexp, hlease, htime⟩
    · exact ⟨s, e, by simp only [State.expireAll, heq]; rfl, h, fun _ => rfl⟩
    · have hlen : t.activeTimeouts.length < fuel := by
        have := hperm.length_eq
        simp only [length_cons] at this
        omega
      obtain ⟨u, e', hu, hinv', hdrift⟩ := ih hinv hlen
      refine ⟨u, e', by simp [State.expireAll, heq]; exact hu, hinv', fun hno => ?_⟩
      have hxt : x ∉ t.activeTimeouts :=
        (nodup_cons.mp (hperm.nodup_iff.mpr h.heaps.left.nodup)).1
      have hnot : (s.lease x).state ≠ .abandoned := fun hst =>
        Nat.not_le.mpr hexp (hno x (hperm.subset (by simp)) hst)
      rw [hdrift, if_neg (by simpa [State.abandoned] using hnot), add_zero]
      intro y hy hst
      have hyx : y ≠ x := fun he => hxt (he ▸ hy)
      rw [hlease y hyx] at hst ⊢
      rw [htime]
      exact hno y (hperm.subset (mem_cons_of_mem _ hy)) hst

lemma Inv.iaHashDelete (table : IaType) (key : Bytes) : Inv (s.iaHashDelete table key) marked e :=
  h.congr rfl

lemma Inv.iaRemoveIasubopt (b : β) (hi : i ∉ marked) : Inv (s.iaRemoveIasubopt b i) marked e := by
  unfold State.iaRemoveIasubopt
  split_ifs
  · refine Inv.modify_times ?_ i fun hm => absurd hm hi
    exact h.congr rfl
  · exact h

lemma Inv.forgetLease (hi : i ∉ marked) : Inv (s.forgetLease i) marked e := by
  rw [forgetLease_eq]
  split
  · exact h
  · exact h.iaRemoveIasubopt _ hi

omit h in
lemma forgetLease_inactiveTimeouts (s : State α β) (i : α) :
    (s.forgetLease i).inactiveTimeouts = s.inactiveTimeouts := by
  rw [forgetLease_eq]
  split
  · rfl
  · unfold iaRemoveIasubopt
    split_ifs <;> rfl

omit h in
lemma Inv.cleanupOldExpired (fuel : ℕ) (h : Inv s marked e)
    (hfuel : s.inactiveTimeouts.length < fuel) :
    ∃ t, cleanupOldExpired fuel s = some t ∧ Inv t marked e := by
  induction fuel generalizing s with
  | zero => omega
  | succ fuel ih =>
    unfold State.cleanupOldExpired
    by_cases hn : s.numInactive > 0
    · rw [if_pos hn]
      rcases hl : s.inactiveTimeouts with _ | ⟨x, l⟩
      · rw [h.inactive, hl] at hn
        simp at hn
      · have hx : x ∈ s.inactiveTimeouts := by simp [hl]
        have htop : iscHeapElement (x :: l) 1 = some x := by simp [iscHeapElement]
        simp only [htop, Option.bind_eq_bind, Option.bind_some]
        by_cases htime : s.curTime < cleanupTime (s.lease x)
        · exact ⟨s, if_pos htime, h⟩
        · obtain ⟨heap, heq⟩ := h.heaps.right.exists_delete_top (x := x) s.leaseOlder (by simp [hl])
          obtain ⟨hperm, hsh⟩ := h.heaps.symm.delete s.leaseOlder hx heq
          have hxm : x ∉ marked := fun hm => (h.unlisted x hm).2 hx
          rw [if_neg htime, ← hl, heq]
          refine ih ((h.dropInactive heap hperm hsh.symm).forgetLease hxm) ?_
          rw [forgetLease_inactiveTimeouts]
          have := hperm.length_eq
          simp only [length_cons] at this
          show heap.1.length < fuel
          omega
    · exact ⟨s, if_neg hn, h⟩

lemma Inv.leaseTimeoutSupport :
    ∃ t e', s.leaseTimeoutSupport = some t ∧ Inv t marked e' ∧
      (s.NoAbandonedBefore s.curTime → e' = e) := by
  obtain ⟨u, e', hu, hinv, hdrift⟩ := h.expireAll (s.activeTimeouts.length + 1) (by omega)
  obtain ⟨t, ht, hinv'⟩ := hinv.cleanupOldExpired (u.inactiveTimeouts.length + 1) (by omega)
  exact ⟨t, e', by simp [State.leaseTimeoutSupport, hu]; exact ht, hinv', hdrift⟩

/-! ### Adding and removing -/

/-- The lease that had the address is gone, and with it any lease of the active heap that has
it. -/
lemma Inv.removeOld {addr : In6Addr} (hmark : ∀ j ∈ marked, s.hashLookup addr ≠ some j)
    (ht : s.removeOld addr = some t) : Inv t marked e ∧ t.hashLookup addr = none ∧
      t.lease = s.lease ∧ t.inactiveTimeouts = s.inactiveTimeouts ∧
      ∀ x ∈ t.activeTimeouts, (s.lease x).addr ≠ addr := by
  unfold State.removeOld at ht
  rcases hj : s.hashLookup addr with _ | j
  · rw [hj] at ht
    cases ht
    refine ⟨h, hj, rfl, rfl, fun x hx he => ?_⟩
    have := (h.leases addr x).mpr ⟨he, .inl hx⟩
    simp [hj] at this
  · obtain ⟨haddr, hmem⟩ := (h.leases addr j).mp hj
    have hact : j ∈ s.activeTimeouts := hmem.resolve_right fun hm => hmark j hm hj
    simp only [hj, if_pos (h.inUse j hact)] at ht
    obtain ⟨hinv, hperm, hina, hlease, hleases⟩ :=
      h.removeActive hact (s.abandoned j) ht
    rw [sub_self, add_zero] at hinv
    refine ⟨hinv, ?_, hlease, hina, fun x hx he => ?_⟩
    · rw [hashLookup, hleases, ← haddr, leases_hashDelete_self, h.single]
      rfl
    · have hxs : x ∈ s.activeTimeouts := hperm.mem_iff.mp (mem_cons_of_mem _ hx)
      have hxj : x = j := h.eq_of_addr (.inl hxs) (.inl hact) (he.trans haddr.symm)
      have := (nodup_cons.mp (hperm.nodup_iff.mpr h.heaps.left.nodup)).1
      exact this (hxj ▸ hx)

lemma Inv.assumeActive (hi : i ∉ s.inactiveTimeouts) (him : i ∉ marked) :
    Inv (s.assumeActive i) marked e := by
  unfold State.assumeActive
  split_ifs with hst
  · refine h.modify_unlisted ⟨fun hact => ?_, hi, him⟩ _
    have := h.inUse i hact
    rw [hst] at this
    cases this
  · exact h

/-- The lease is on neither heap and no other has its address when it is added. -/
lemma Inv.readyToAdd (hi : i ∉ s.inactiveTimeouts) (him : i ∉ marked)
    (hmark : ∀ j ∈ marked, s.hashLookup (s.lease i).addr ≠ some j)
    (ht : (s.assumeActive i).removeOld (s.lease i).addr = some t) :
    Inv t marked e ∧ Unlisted t marked i ∧ t.hashLookup (t.lease i).addr = none := by
  have hsame : ((s.assumeActive i).lease i).addr = (s.lease i).addr ∧
      (s.assumeActive i).leases = s.leases ∧
      (s.assumeActive i).inactiveTimeouts = s.inactiveTimeouts := by
    unfold State.assumeActive
    split_ifs
    · exact ⟨by rw [modify_self], rfl, rfl⟩
    · exact ⟨rfl, rfl, rfl⟩
  obtain ⟨haddr, hleases, hina⟩ := hsame
  obtain ⟨hinv, hfree, hlease, huina, hgone⟩ := (h.assumeActive hi him).removeOld
    (by rw [hashLookup, hleases]; exact hmark) ht
  exact ⟨hinv, ⟨fun hmem => hgone i hmem haddr, by rw [huina, hina]; exact hi, him⟩,
    by rw [hlease, haddr]; exact hfree⟩

lemma Inv.addLease6 (hi : i ∉ s.inactiveTimeouts) (him : i ∉ marked)
    (hmark : ∀ j ∈ marked, s.hashLookup (s.lease i).addr ≠ some j) {endTime : Time}
    (ht : s.addLease6 i endTime = some t) : Inv t marked e := by
  obtain ⟨u, hu, ht⟩ := Option.bind_eq_some_iff.mp ht
  obtain ⟨hinv, hun, hfree⟩ := h.readyToAdd hi him hmark hu
  by_cases huse : Mdb6.inUse (u.lease i).state
  · rw [if_pos huse] at ht
    cases ht
    set v := u.modify i fun l => { l with hardLifetimeEndTime := endTime }
    have hv : Inv v marked e := hinv.modify_unlisted hun _
    have hvi : v.lease i = { u.lease i with hardLifetimeEndTime := endTime } := modify_self u i _
    have := hv.putActive ⟨hun.active, hun.inactive, him⟩ (by rw [hvi]; exact huse)
      (by rw [hvi]; exact hfree)
    rw [← ite_addAbandoned] at this
    simp only [State.abandoned, decide_eq_true_eq] at this
    exact this
  · rw [if_neg huse] at ht
    cases ht
    set v := u.modify i fun l => { l with softLifetimeEndTime := endTime }
    have hv : Inv v marked e := hinv.modify_unlisted hun _
    have hvi : v.lease i = { u.lease i with softLifetimeEndTime := endTime } := modify_self u i _
    exact hv.putInactive ⟨hun.active, hun.inactive, him⟩ (by rw [hvi]; exact huse)

omit h in
lemma allocate_free {l : Iasubopt β} (hfree : s.hashLookup l.addr = none) (j : α) :
    (s.allocate i l).hashLookup ((s.allocate i l).lease i).addr ≠ some j := by
  rw [show ((s.allocate i l).lease i).addr = l.addr by simp [State.allocate]]
  exact hfree.trans_ne (Option.some_ne_none j).symm

lemma Inv.addNew (hi : Unlisted s marked i) {l : Iasubopt β} (hfree : s.hashLookup l.addr = none)
    {endTime : Time} (ht : (s.allocate i l).addLease6 i endTime = some t) : Inv t marked e :=
  (h.allocate hi l).addLease6 hi.inactive hi.marked (fun j _ => allocate_free hfree j) ht

lemma Inv.createLease6 (hi : Unlisted s marked i) {build : ℕ → Bytes → In6Addr} {uid : Bytes}
    {endTime : Time} {r : Result} (ht : s.createLease6 build uid i endTime = some (r, t)) :
    Inv t marked e := by
  unfold State.createLease6 at ht
  split_ifs at ht
  · cases ht
    exact h
  · split at ht
    · cases ht
      exact h
    · rename_i tmp htmp
      obtain ⟨u, hu, ht⟩ := Option.bind_eq_some_iff.mp ht
      cases ht
      exact h.addNew hi (findAddress_free htmp) hu

lemma Inv.createPrefix6 (hi : Unlisted s marked i) {build : Bytes → In6Addr}
    {units : UInt8} {uid : Bytes} {endTime : Time} {r : Result}
    (ht : s.createPrefix6 build units uid i endTime = some (r, t)) : Inv t marked e := by
  unfold State.createPrefix6 at ht
  split at ht
  · cases ht
    exact h
  · rename_i tmp htmp
    obtain ⟨u, hu, ht⟩ := Option.bind_eq_some_iff.mp ht
    cases ht
    exact h.addNew hi (findPrefix_free htmp) hu

lemma Inv.markLeaseUnavailable (hi : Unlisted s marked i) {addr : In6Addr}
    (hfree : s.hashLookup addr = none) : Inv (s.markLeaseUnavailable i addr) (i :: marked) e := by
  have h' := h.allocate hi { addr := addr }
  have hself : (s.allocate i { addr := addr }).lease i = { addr := addr } := by
    simp [State.allocate]
  exact
    { h' with
      leases := fun a x => by
        have := h'.leases_insert (.refl _) (by rw [hself]; exact hfree) a x
        refine this.trans (and_congr_right fun _ => ?_)
        rw [mem_cons, mem_cons, or_left_comm, or_assoc]
        rfl
      single := h'.single_insert (by rw [hself]; exact hfree)
      unlisted := fun x hx => by
        rcases mem_cons.mp hx with rfl | hx
        · exact ⟨hi.active, hi.inactive⟩
        · exact h.unlisted x hx
      noIa := fun x hx => by
        rcases mem_cons.mp hx with rfl | hx
        · exact congrArg Iasubopt.ia hself
        · exact h'.noIa x hx }

lemma Inv.removeForNew {j : α} (hj : j ∈ s.activeTimeouts) {table : IaType} {b : β}
    (ht : s.removeForNew table i j b = some t) :
    Inv t marked (e + ((if s.abandoned j then 1 else 0) - if s.abandoned i then 1 else 0)) := by
  have hjm : j ∉ marked := fun hm => (h.unlisted j hm).1 hj
  obtain ⟨u, hu, ht⟩ := Option.bind_eq_some_iff.mp ht
  cases ht
  have hinv := (h.removeActive hj (s.abandoned i) hu).1.iaRemoveIasubopt b hjm
  by_cases hempty : ((u.iaRemoveIasubopt b j).ia b).iasubopt = []
  · rw [if_pos hempty]
    exact hinv.iaHashDelete _ _
  · rw [if_neg hempty]
    exact hinv

/-- Reading the lease `i` of the identity association `b` from the lease file removes `j`. -/
def Displaces (s : State α β) (i : α) (b : β) (j : α) : Prop :=
  s.hashLookup (s.lease i).addr = some j ∧ ∃ old, (s.lease j).ia = some old ∧
    ((s.ia old).iaidDuid = (s.ia b).iaidDuid ↔ ¬ Mdb6.inUse (s.lease i).state)

/-- A lease is read from the lease file; the lease it removes, if any, should be abandoned
exactly when the new one is. -/
lemma Inv.cleanupLease6 {b : β} {table : IaType} {r : Result}
    (ht : s.cleanupLease6 table i b = some (r, t)) : ∃ e', Inv t marked e' ∧
      ((∀ j, s.Displaces i b j → s.abandoned i = s.abandoned j) → e' = e) := by
  unfold State.cleanupLease6 at ht
  have same : s = t → ∃ e', Inv t marked e' ∧
      ((∀ j, s.Displaces i b j → s.abandoned i = s.abandoned j) → e' = e) := by
    rintro rfl
    exact ⟨e, h, fun _ => rfl⟩
  rcases hj : s.hashLookup (s.lease i).addr with _ | j <;> simp only [hj] at ht
  · exact same (Prod.mk.inj (Option.some.inj ht)).2
  rcases hia : (s.lease j).ia with _ | old <;> simp only [hia] at ht
  · exact same (Prod.mk.inj (Option.some.inj ht)).2
  have hact : j ∈ s.activeTimeouts := ((h.leases _ j).mp hj).2.resolve_right fun hm => by
    rw [h.noIa j hm] at hia
    cases hia
  have new : ∀ r', (s.removeForNew table i j old).map (r', ·) = some (r, t) →
      ((s.ia old).iaidDuid = (s.ia b).iaidDuid ↔ ¬ Mdb6.inUse (s.lease i).state) →
      ∃ e', Inv t marked e' ∧
        ((∀ j, s.Displaces i b j → s.abandoned i = s.abandoned j) → e' = e) := by
    intro r' hr hdis
    obtain ⟨u, hu, heq⟩ := Option.map_eq_some_iff.mp hr
    cases heq
    refine ⟨_, h.removeForNew hact hu, fun hab => ?_⟩
    rw [hab j ⟨hj, old, hia, hdis⟩, sub_self, add_zero]
  split_ifs at ht with hduid huse huse
  · exact same (Prod.mk.inj (Option.some.inj ht)).2
  · exact new _ ht (iff_of_true hduid huse)
  · exact new _ ht (iff_of_false hduid (not_not_intro huse))
  · exact same (Prod.mk.inj (Option.some.inj ht)).2

end IscDhcp.Mdb6.State
