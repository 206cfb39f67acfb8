import IscDhcp.HeapOrder
import IscDhcp.Mdb6.PoolRun
import Mathlib.Data.Prod.Lex

/-!
The order of the active heap of a DHCPv6 pool. The key of a lease is the pair of its hard and
its soft lifetime end, which the server writes while the lease is on the heap. What holds of the
pair holds of every order coarser than that of the pairs, such as that of the hard lifetimes.
-/

namespace IscDhcp.Mdb6

open IscDhcp.Heap Option

def endKey {β : Type} (l : Iasubopt β) : ℕ ×ₗ ℕ :=
  toLex (l.hardLifetimeEndTime, l.softLifetimeEndTime)

/-- The calls by which a heap is told that an element moved. -/
inductive Adjust
  | increased | decreased
  deriving DecidableEq, Repr

namespace Adjust

variable {α κ : Type} [DecidableEq α] [LinearOrder κ]

def call (compare : α → α → Bool) (h : Indexed α) (index : ℤ) : Adjust → Option (Indexed α)
  | .increased => iscHeapIncreased compare h index
  | .decreased => iscHeapDecreased compare h index

/-- The call is the one that the change of the key requires. -/
def Required (f : ℕ ×ₗ ℕ → κ) (old new : ℕ ×ₗ ℕ) : Adjust → Prop
  | .increased => f new ≤ f old
  | .decreased => f old ≤ f new

end Adjust

/-- How `renew_lease6` has the active heap adjusted. -/
def renewAdjust {β : Type} (l : Iasubopt β) : Option Adjust :=
  if l.state = .active then
    some (if l.hardLifetimeEndTime ≤ l.softLifetimeEndTime then .decreased else .increased)
  else if l.state = .abandoned then some .increased
  else none

def renewed {β : Type} (l : Iasubopt β) : Iasubopt β :=
  { l with hardLifetimeEndTime := l.softLifetimeEndTime, softLifetimeEndTime := 0 }

namespace State

variable {α β κ : Type} [DecidableEq α] [DecidableEq β] [LinearOrder κ] {s t : State α β}
  {f : ℕ ×ₗ ℕ → κ} {i : α}

lemma leaseOlder_iff (s : State α β) (a b : α) :
    s.leaseOlder a b ↔ endKey (s.lease a) < endKey (s.lease b) := by
  unfold leaseOlder endKey
  rw [Prod.Lex.toLex_lt_toLex]
  split_ifs with h
  · simp [h]
  · simp [h]

/-- The active heap is in the order of `f` of the keys. -/
def Sorted (f : ℕ ×ₗ ℕ → κ) (s : State α β) : Prop :=
  Ordered (fun a b => f (endKey (s.lease a)) ≤ f (endKey (s.lease b))) s.activeTimeouts

lemma decides (hf : Monotone f) (s : State α β) :
    Decides s.leaseOlder fun a b => f (endKey (s.lease a)) ≤ f (endKey (s.lease b)) where
  trans := le_trans
  of_lt h := hf ((s.leaseOlder_iff _ _).mp h).le
  of_not_lt h := hf (not_lt.mp fun hlt => h ((s.leaseOlder_iff _ _).mpr hlt))

lemma Sorted.congr (h : s.Sorted f) (hact : t.activeTimeouts = s.activeTimeouts)
    (hkey : ∀ x ∈ s.activeTimeouts, endKey (t.lease x) = endKey (s.lease x)) : t.Sorted f := by
  intro k b x hk hb hx
  rw [hact] at hb hx
  rw [hkey b (List.mem_of_getElem? hb), hkey x (List.mem_of_getElem? hx)]
  exact h k b x hk hb hx

lemma Sorted.modify (h : s.Sorted f) (i : α) {g : Iasubopt β → Iasubopt β}
    (hg : i ∈ s.activeTimeouts → endKey (g (s.lease i)) = endKey (s.lease i)) :
    (s.modify i g).Sorted f := by
  refine h.congr rfl fun x hx => ?_
  by_cases hxi : x = i
  · subst hxi
    rw [modify_self, hg hx]
  · rw [modify_of_ne s g hxi]

section

variable (hf : Monotone f)

include hf

section

variable (h : s.Sorted f)

include h

lemma Sorted.insertActive (i : α) : (s.insertActive i).Sorted f :=
  iscHeapInsert_ordered (h := (s.activeTimeouts, s.heapIndex)) (s.decides hf) h i

lemma Sorted.removeActive {ab : Bool} (ht : s.removeActive i ab = some t) : t.Sorted f := by
  obtain ⟨heap, hdel, ht⟩ := bind_eq_some_iff.mp ht
  have ho : (s.setActive heap).Sorted f :=
    iscHeapDelete_ordered (h := (s.activeTimeouts, s.heapIndex)) (s.decides hf) h hdel
  cases ht
  cases ab <;> exact ho

lemma Sorted.removeOld {addr : In6Addr} (ht : s.removeOld addr = some t) : t.Sorted f := by
  unfold State.removeOld at ht
  split at ht
  · cases ht
    exact h
  · split_ifs at ht
    · exact h.removeActive hf ht
    · obtain ⟨heap, -, ht⟩ := bind_eq_some_iff.mp ht
      cases ht
      exact h

variable {marked : List α}

omit h in
lemma Sorted.addLease6 {e : U64} (hinv : Inv s marked e) (h : s.Sorted f)
    (hi : i ∉ s.inactiveTimeouts) (him : i ∉ marked)
    (hmark : ∀ j ∈ marked, s.hashLookup (s.lease i).addr ≠ some j) {endTime : Time}
    (ht : s.addLease6 i endTime = some t) : t.Sorted f := by
  have h0 : (s.assumeActive i).Sorted f := by
    unfold State.assumeActive
    split_ifs
    · exact h.modify i fun _ => rfl
    · exact h
  -- `i` itself is off the heap, so that its key may change before it is inserted
  obtain ⟨u, hu, ht⟩ := bind_eq_some_iff.mp ht
  have hiu := (hinv.readyToAdd hi him hmark hu).2.1.active
  have hus := h0.removeOld hf hu
  by_cases huse : Mdb6.inUse (u.lease i).state
  · rw [if_pos huse] at ht
    cases ht
    have hv := (hus.modify i (g := fun l => { l with hardLifetimeEndTime := endTime })
      fun hmem => absurd hmem hiu).insertActive hf i
    split_ifs <;> exact hv
  · rw [if_neg huse] at ht
    cases ht
    exact hus.modify i (g := fun l => { l with softLifetimeEndTime := endTime })
      fun hmem => absurd hmem hiu

omit hf in
lemma Sorted.allocate (hi : i ∉ s.activeTimeouts) (l : Iasubopt β) : (s.allocate i l).Sorted f := by
  refine h.congr rfl fun x hx => ?_
  have hxi : x ≠ i := fun he => hi (he ▸ hx)
  simp [State.allocate, hxi]

omit h in
lemma Sorted.addNew {e : U64} (hinv : Inv s marked e) (h : s.Sorted f)
    (hi : Unlisted s marked i) {l : Iasubopt β} (hfree : s.hashLookup l.addr = none)
    {endTime : Time} (ht : (s.allocate i l).addLease6 i endTime = some t) : t.Sorted f :=
  (h.allocate hi.active l).addLease6 hf (hinv.allocate hi l) hi.inactive hi.marked
    (fun j _ => allocate_free hfree j) ht

lemma Sorted.moveLeaseToActive (ht : s.moveLeaseToActive i = some t) : t.Sorted f := by
  obtain ⟨heap, -, ht⟩ := bind_eq_some_iff.mp ht
  cases ht
  refine Sorted.modify ?_ i fun _ => rfl
  exact h.insertActive hf i

lemma Sorted.moveLeaseToInactive {st : BindingState}
    (ht : s.moveLeaseToInactive i st = some t) : t.Sorted f := by
  obtain ⟨heap, hdel, ht⟩ := bind_eq_some_iff.mp ht
  have ho : (s.setActive heap).Sorted f :=
    iscHeapDelete_ordered (h := (s.activeTimeouts, (s.insertInactive i).heapIndex)) (s.decides hf)
      h hdel
  have hm : ((s.setActive heap).modify i fun l => { l with state := st }).Sorted f :=
    ho.modify i fun _ => rfl
  cases ht
  split_ifs <;> exact hm

/-- A lease on the heap changed its key, and the heap is told so by the call that the change
requires. -/
lemma Sorted.adjust (hc : Coherent (s.activeTimeouts, s.heapIndex))
    (hi : i ∈ s.activeTimeouts) (hact : t.activeTimeouts = s.activeTimeouts)
    (hidx : t.heapIndex = s.heapIndex)
    (hother : ∀ x, x ≠ i → endKey (t.lease x) = endKey (s.lease x)) {d : Adjust}
    (hd : d.Required f (endKey (s.lease i)) (endKey (t.lease i))) {heap : Indexed α}
    (hcall : d.call t.leaseOlder (t.activeTimeouts, t.heapIndex) (t.heapIndex i) = some heap) :
    (t.setActive heap).Sorted f := by
  rw [hact, hidx] at hcall
  have helt : iscHeapElement s.activeTimeouts (s.heapIndex i) = some i := hc.element hi
  obtain ⟨hpos, hle, hat⟩ := iscHeapElement_eq_some helt
  have hne : ∀ k x, k ≠ (s.heapIndex i).toNat → 1 ≤ k → s.activeTimeouts[k - 1]? = some x →
      endKey (t.lease x) = endKey (s.lease x) := by
    refine fun k x hk hk1 hx => hother x fun he => hk ?_
    have := eq_of_getElem? hc.nodup (he ▸ hx) hat
    omega
  have hbut := Ordered.but (s.decides hf) h hle
  have hbut' : OrderedBut (fun a b => f (endKey (t.lease a)) ≤ f (endKey (t.lease b)))
      s.activeTimeouts (s.heapIndex i).toNat := by
    refine ⟨fun k b x hk hki hpi hb hx => ?_, fun k b x hi2 hk hb hx => ?_⟩
    · rw [hne _ b hpi (by omega) hb, hne k x hki (by omega) hx]
      exact hbut.off k b x hk hki hpi hb hx
    · rw [hne _ b (by omega) (by omega) hb, hne k x (by omega) (by omega) hx]
      exact hbut.across k b x hi2 hk hb hx
  cases d with
  | increased =>
    refine iscHeapIncreased_ordered (t.decides hf) helt hbut' (fun k x hk hx => ?_) hcall
    rw [hne k x (by omega) (by omega) hx]
    exact hd.trans (h k i x (by omega) (by rw [hk]; exact hat) hx)
  | decreased =>
    refine iscHeapDecreased_ordered (t.decides hf) helt hbut' (fun b hi2 hb => ?_) hcall
    rw [hne _ b (by omega) (by omega) hb]
    exact (h _ b i hi2 hb hat).trans hd

end

/-! ### Renewing and declining -/

lemma Sorted.renewLease6 {e : U64} (hinv : Inv s marked e) (h : s.Sorted f)
    (hi : i ∈ s.activeTimeouts ∨ i ∈ s.inactiveTimeouts)
    (hreq : ∀ d, renewAdjust (s.lease i) = some d →
      d.Required f (endKey (s.lease i)) (endKey (renewed (s.lease i))))
    (ht : s.renewLease6 i = some t) : t.Sorted f := by
  have hself : (s.takeSoftLifetime i).lease i = renewed (s.lease i) := modify_self s i _
  have hstate : ((s.takeSoftLifetime i).lease i).state = (s.lease i).state := by rw [hself]; rfl
  have hother : ∀ x, x ≠ i → endKey ((s.takeSoftLifetime i).lease x) = endKey (s.lease x) :=
    fun x hx => by rw [State.takeSoftLifetime, modify_of_ne s _ hx]
  have hold : i ∈ s.inactiveTimeouts → ¬ Mdb6.inUse (s.lease i).state := hinv.notInUse i
  unfold State.renewLease6 at ht
  by_cases hact : (s.lease i).state = .active
  · rw [if_pos (hstate.trans hact)] at ht
    have hmem : i ∈ s.activeTimeouts := hi.resolve_right fun hmem => hold hmem (by rw [hact]; rfl)
    have hd := hreq _ (if_pos hact)
    have hsoft : ((s.takeSoftLifetime i).lease i).hardLifetimeEndTime =
        (s.lease i).softLifetimeEndTime := by rw [hself]; rfl
    rw [hsoft] at ht
    rw [← hself] at hd
    split_ifs at ht hd <;> obtain ⟨heap, hcall, ht⟩ := bind_eq_some_iff.mp ht <;> cases ht
    · exact h.adjust (t := s.takeSoftLifetime i) (d := .decreased) hf hinv.heaps.left hmem rfl rfl
        hother hd hcall
    · exact h.adjust (t := s.takeSoftLifetime i) (d := .increased) hf hinv.heaps.left hmem rfl rfl
        hother hd hcall
  · by_cases hab : (s.lease i).state = .abandoned
    · rw [if_neg (by rw [hstate]; exact hact), if_pos (hstate.trans hab)] at ht
      obtain ⟨heap, hcall, ht⟩ := bind_eq_some_iff.mp ht
      cases ht
      have hmem : i ∈ s.activeTimeouts := hi.resolve_right fun hmem => hold hmem (by rw [hab]; rfl)
      have hd := hreq .increased (by rw [renewAdjust, if_neg hact, if_pos hab])
      have hkey : ∀ x, endKey (((s.takeSoftLifetime i).modify i fun l =>
          { l with state := .active }).lease x) = endKey ((s.takeSoftLifetime i).lease x) := by
        intro x
        by_cases hx : x = i
        · subst hx
          rw [modify_self]
          rfl
        · rw [modify_of_ne _ _ hx]
      have hs :=
        h.adjust (t := (s.takeSoftLifetime i).modify i fun l => { l with state := .active })
        (d := .increased) hf hinv.heaps.left hmem rfl rfl
        (fun x hx => (hkey x).trans (hother x hx)) (by rw [hkey, hself]; exact hd) hcall
      exact hs.congr rfl fun _ _ => rfl
    · rw [if_neg (by rw [hstate]; exact hact), if_neg (by rw [hstate]; exact hab)] at ht
      have hmem : i ∉ s.activeTimeouts := fun hmem => by
        have := hinv.inUse i hmem
        simp only [Mdb6.inUse, decide_eq_true_eq] at this
        exact this.elim hact hab
      exact (h.modify i fun hmem' => absurd hmem' hmem).moveLeaseToActive hf ht

lemma Sorted.declineLease6 {e : U64} (hinv : Inv s marked e) (h : s.Sorted f)
    (hi : i ∈ s.activeTimeouts ∨ i ∈ s.inactiveTimeouts ∧ s.hashLookup (s.lease i).addr = none)
    (hreq : f (endKey (s.lease i)) ≤ f (toLex (maxTime, (s.lease i).softLifetimeEndTime)))
    (ht : s.declineLease6 i = some t) : t.Sorted f := by
  obtain ⟨u, hu, ht⟩ := bind_eq_some_iff.mp ht
  obtain ⟨heap, hcall, ht⟩ := bind_eq_some_iff.mp ht
  cases ht
  obtain ⟨hus, huinv, hmem, hkey⟩ : u.Sorted f ∧ Inv u marked e ∧ i ∈ u.activeTimeouts ∧
      endKey (u.lease i) = endKey (s.lease i) := by
    unfold bringToActive at hu
    rcases hi with hi | ⟨hi, hfree⟩
    · rw [if_pos (hinv.inUse i hi)] at hu
      cases hu
      exact ⟨h, hinv, hi, rfl⟩
    · rw [if_neg (hinv.notInUse i hi)] at hu
      obtain ⟨hvinv, hmem, -⟩ := hinv.moveLeaseToActive hi hfree hu
      refine ⟨h.moveLeaseToActive hf hu, hvinv, hmem, ?_⟩
      obtain ⟨heap, -, hu⟩ := bind_eq_some_iff.mp hu
      cases hu
      rw [modify_self]
      rfl
  set v := ((u.modify i fun l => { l with state := .abandoned }).addAbandoned 1).modify i
    fun l => { l with hardLifetimeEndTime := maxTime } with hv
  have hvi : endKey (v.lease i) = toLex (maxTime, (u.lease i).softLifetimeEndTime) := by
    rw [hv, modify_self, addAbandoned_lease, modify_self]
    rfl
  have hsoft : (u.lease i).softLifetimeEndTime = (s.lease i).softLifetimeEndTime :=
    congrArg (fun k => (ofLex k).2) hkey
  refine hus.adjust (t := v) (d := .decreased) hf huinv.heaps.left hmem rfl rfl (fun x hx => ?_) ?_
    hcall
  · rw [modify_of_ne _ _ hx, addAbandoned_lease, modify_of_ne _ _ hx]
  · rw [hvi, hkey, hsoft]
    exact hreq

/-! ### Expiry -/

/-- The active heap is the same, and so are the keys. -/
structure SameKeys (s t : State α β) : Prop where
  active : t.activeTimeouts = s.activeTimeouts
  key : ∀ x, endKey (t.lease x) = endKey (s.lease x)

omit hf in
lemma SameKeys.trans {u : State α β} (h : SameKeys s t) (h' : SameKeys t u) : SameKeys s u :=
  ⟨h'.active.trans h.active, fun x => (h'.key x).trans (h.key x)⟩

omit hf in
lemma Sorted.of_sameKeys (h : s.Sorted f) (hst : SameKeys s t) : t.Sorted f :=
  h.congr hst.active fun x _ => hst.key x

omit hf in
lemma iaRemoveIasubopt_sameKeys (s : State α β) (b : β) (i : α) :
    SameKeys s (s.iaRemoveIasubopt b i) := by
  unfold State.iaRemoveIasubopt
  split_ifs
  · refine ⟨rfl, fun x => ?_⟩
    by_cases hx : x = i
    · subst hx
      rw [modify_self]
      rfl
    · rw [modify_of_ne _ _ hx]
  · exact ⟨rfl, fun _ => rfl⟩

omit hf in
lemma forgetLease_sameKeys (s : State α β) (i : α) : SameKeys s (s.forgetLease i) := by
  rw [forgetLease_eq]
  split
  · exact ⟨rfl, fun _ => rfl⟩
  · exact s.iaRemoveIasubopt_sameKeys _ i

omit hf in
lemma cleanupOldExpired_sameKeys (fuel : ℕ) (ht : cleanupOldExpired fuel s = some t) :
    SameKeys s t := by
  induction fuel generalizing s with
  | zero => cases ht
  | succ fuel ih =>
    unfold State.cleanupOldExpired at ht
    split_ifs at ht
    · obtain ⟨tmp, -, ht⟩ := bind_eq_some_iff.mp ht
      split_ifs at ht
      · cases ht
        exact ⟨rfl, fun _ => rfl⟩
      · obtain ⟨heap, -, ht⟩ := bind_eq_some_iff.mp ht
        have h : SameKeys s ((s.setInactive heap).addInactive (-1)) := ⟨rfl, fun _ => rfl⟩
        exact (h.trans (forgetLease_sameKeys _ tmp)).trans (ih ht)
    · cases ht
      exact ⟨rfl, fun _ => rfl⟩

lemma Sorted.expireLease6 (h : s.Sorted f) {now : Time} {r : Option α}
    (ht : s.expireLease6 now = some (r, t)) : t.Sorted f := by
  unfold State.expireLease6 at ht
  split_ifs at ht
  · cases ht
    exact h
  · obtain ⟨tmp, -, ht⟩ := bind_eq_some_iff.mp ht
    split_ifs at ht
    · obtain ⟨u, hu, ht⟩ := bind_eq_some_iff.mp ht
      cases ht
      exact h.moveLeaseToInactive hf hu
    · cases ht
      exact h

lemma Sorted.expireAll (fuel : ℕ) (h : s.Sorted f)
    (ht : expireAll fuel s = some t) : t.Sorted f := by
  induction fuel generalizing s with
  | zero => cases ht
  | succ fuel ih =>
    obtain ⟨⟨r, u⟩, hu, ht⟩ := bind_eq_some_iff.mp ht
    have hus := h.expireLease6 hf hu
    rcases r with _ | x
    · cases ht
      exact hus
    · exact ih hus ht

lemma Sorted.leaseTimeoutSupport (h : s.Sorted f)
    (ht : s.leaseTimeoutSupport = some t) : t.Sorted f := by
  obtain ⟨u, hu, ht⟩ := bind_eq_some_iff.mp ht
  exact (h.expireAll hf _ hu).of_sameKeys (cleanupOldExpired_sameKeys _ ht)

lemma Sorted.cleanupLease6 (h : s.Sorted f) {table : IaType} {b : β} {r : Result}
    (ht : s.cleanupLease6 table i b = some (r, t)) : t.Sorted f := by
  have hnew : ∀ j old u, s.removeForNew table i j old = some u → u.Sorted f := by
    intro j old u hu
    obtain ⟨v, hv, hu⟩ := bind_eq_some_iff.mp hu
    cases hu
    have hvs := (h.removeActive hf hv).of_sameKeys (v.iaRemoveIasubopt_sameKeys old j)
    split_ifs <;> exact hvs
  unfold State.cleanupLease6 at ht
  split at ht
  · cases ht
    exact h
  · split at ht
    · cases ht
      exact h
    · split_ifs at ht
      · cases ht
        exact h
      · obtain ⟨u, hu, he⟩ := map_eq_some_iff.mp ht
        cases he
        exact hnew _ _ _ hu
      · obtain ⟨u, hu, he⟩ := map_eq_some_iff.mp ht
        cases he
        exact hnew _ _ _ hu
      · cases ht
        exact h

end

end State

end IscDhcp.Mdb6
