import IscDhcp.Mdb6.PoolOrder

/-!
When the leases of a DHCPv6 pool that are not in use are forgotten (`mdb6.c`).

The inactive heap is in the order of the hard lifetime ends, and of the soft ones of leases that
have no hard one. A lease without a hard one that is not due yet hides all those that have one.
-/

namespace IscDhcp.Mdb6.State

open IscDhcp.Heap List

variable {α β : Type}

lemma cleanupTime_congr {l m : Iasubopt β} (h : endKey l = endKey m) :
    cleanupTime l = cleanupTime m := by
  have h1 : l.hardLifetimeEndTime = m.hardLifetimeEndTime := congrArg (fun k => (ofLex k).1) h
  have h2 : l.softLifetimeEndTime = m.softLifetimeEndTime := congrArg (fun k => (ofLex k).2) h
  rw [cleanupTime, cleanupTime, h1, h2]

lemma endKey_le_iff {l m : Iasubopt β} : endKey l ≤ endKey m ↔
    l.hardLifetimeEndTime < m.hardLifetimeEndTime ∨
      l.hardLifetimeEndTime = m.hardLifetimeEndTime ∧
      l.softLifetimeEndTime ≤ m.softLifetimeEndTime := Prod.Lex.toLex_le_toLex

variable [DecidableEq α] [DecidableEq β] (s : State α β) {t u : State α β} {x y : α}

/-- When the timer for a lease of the inactive heap is due. -/
def wakeTime (l : Iasubopt β) : Time :=
  if l.hardLifetimeEndTime ≠ 0 then l.hardLifetimeEndTime + expiredIpv6CleanupTime
  else l.softLifetimeEndTime + 1

/-- The next time at which a lease expires, `MAX_TIME` if none does. -/
def nextExpiry : Option Time :=
  if s.numActive > 0 then
    (iscHeapElement s.activeTimeouts 1).map fun tmp =>
      if (s.lease tmp).hardLifetimeEndTime < maxTime then (s.lease tmp).hardLifetimeEndTime + 1
      else maxTime
  else some maxTime

/-- The earlier of that and the time the first inactive lease is due. -/
def nextTimeout (next : Time) : Option Time :=
  if s.numInactive > 0 then
    (iscHeapElement s.inactiveTimeouts 1).map fun tmp =>
      if wakeTime (s.lease tmp) < next then wakeTime (s.lease tmp) else next
  else some next

/-- The time that `schedule_lease_timeout` has a timer set for, if any. -/
def scheduleLeaseTimeout : Option (Option Time) :=
  (s.nextExpiry.bind s.nextTimeout).map fun next => if next < maxTime then some next else none

/-- The heaps are in order, and the counters are their sizes. -/
structure Tidy : Prop where
  heaps : Shared s.activeTimeouts s.inactiveTimeouts s.heapIndex
  active : s.Sorted id
  inactive : Ordered (fun a b => endKey (s.lease a) ≤ endKey (s.lease b)) s.inactiveTimeouts
  numActive : s.numActive.toNat = s.activeTimeouts.length
  numInactive : s.numInactive = s.inactiveTimeouts.length

/-- A lease that is due, as all those before it on the heap are. -/
def Cleaned (x : α) : Prop :=
  x ∈ s.inactiveTimeouts ∧ ∀ y ∈ s.inactiveTimeouts,
    endKey (s.lease y) ≤ endKey (s.lease x) → cleanupTime (s.lease y) ≤ s.curTime

/-- The leases `P` are taken off the inactive heap and forgotten. -/
structure Drops (P : α → Prop) (s t : State α β) : Prop where
  tidy : Tidy t
  same : SameKeys s t
  curTime : t.curTime = s.curTime
  iaActive : t.iaActive = s.iaActive
  inactive : ∀ x, x ∈ t.inactiveTimeouts ↔ x ∈ s.inactiveTimeouts ∧ ¬ P x
  lease : ∀ x, ¬ P x → t.lease x = s.lease x
  gone : ∀ b x, P x → (s.lease x).ia = some b →
    (t.ia b).iasubopt.count x = (s.ia b).iasubopt.count x - 1
  kept : ∀ b x, ¬ (P x ∧ (s.lease x).ia = some b) →
    (t.ia b).iasubopt.count x = (s.ia b).iasubopt.count x

variable {s}

/-! ### One lease is forgotten -/

lemma forgetLease_with (s : State α β) (i : α) : ∃ ia lease, s.forgetLease i =
    { s with ia := ia, lease := lease } ∧ (∀ x, x ≠ i → lease x = s.lease x) ∧
      (∀ b x, x = i → (s.lease x).ia = some b →
        (ia b).iasubopt.count x = (s.ia b).iasubopt.count x - 1) ∧
      ∀ b x, ¬ (x = i ∧ (s.lease x).ia = some b) →
        (ia b).iasubopt.count x = (s.ia b).iasubopt.count x := by
  rw [forgetLease_eq]
  cases hia : (s.lease i).ia with
  | none =>
    refine ⟨s.ia, s.lease, rfl, fun _ _ => rfl, ?_, fun _ _ _ => rfl⟩
    rintro b x rfl
    simp [hia]
  | some b =>
    simp only [iaRemoveIasubopt]
    split_ifs with hmem
    · refine ⟨_, _, rfl, fun x hx => Function.update_of_ne hx _ _, ?_, fun c x hx => ?_⟩
      · rintro c x rfl hx
        cases hia.symm.trans hx
        simp
      · by_cases hc : c = b
        · subst hc
          have hxi : x ≠ i := fun h => hx ⟨h, h ▸ hia⟩
          simp [count_erase_of_ne hxi]
        · simp [hc]
    · refine ⟨s.ia, s.lease, rfl, fun _ _ => rfl, ?_, fun _ _ _ => rfl⟩
      rintro c x rfl hx
      cases hia.symm.trans hx
      simp [count_eq_zero.mpr hmem]

lemma Tidy.forget (h : Tidy s) (hx : s.inactiveTimeouts.head? = some x) :
    ∃ heap, iscHeapDelete s.leaseOlder (s.inactiveTimeouts, s.heapIndex) (s.heapIndex x) =
        some heap ∧ heap.1.length < s.inactiveTimeouts.length ∧
      Drops (· = x) s (((s.setInactive heap).addInactive (-1)).forgetLease x) := by
  obtain ⟨heap, hdel⟩ := h.heaps.right.exists_delete_top s.leaseOlder hx
  obtain ⟨hperm, hshared⟩ := h.heaps.symm.delete s.leaseOlder (mem_of_head? hx) hdel
  have hlen := hperm.length_eq
  rw [length_cons] at hlen
  refine ⟨heap, hdel, by omega, ?_⟩
  set v := (s.setInactive heap).addInactive (-1)
  have hnx : x ∉ heap.1 := (nodup_cons.mp (hperm.nodup_iff.mpr h.heaps.right.nodup)).1
  have hord : Ordered (fun a b => endKey (s.lease a) ≤ endKey (s.lease b)) heap.1 :=
    iscHeapDelete_ordered (h := (s.inactiveTimeouts, s.heapIndex)) (s.decides monotone_id)
      h.inactive hdel
  have hsame : SameKeys s (v.forgetLease x) :=
    .trans (t := v) ⟨rfl, fun _ => rfl⟩ (forgetLease_sameKeys v x)
  obtain ⟨ia, lease, heq, hlease, hgone, hkept⟩ := forgetLease_with v x
  rw [heq] at hsame ⊢
  refine ⟨⟨hshared.symm, h.active.of_sameKeys hsame, fun k b z hk hb hz => ?_, h.numActive, ?_⟩,
    hsame, rfl, rfl, fun y => ?_, hlease, hgone, hkept⟩
  · exact (hsame.key b).trans_le ((hord k b z hk hb hz).trans_eq (hsame.key z).symm)
  · have hnum := h.numInactive
    simp only [v, State.addInactive, State.setInactive]
    omega
  · show y ∈ heap.1 ↔ _
    grind

/-! ### The clean-up -/

lemma Drops.trans {P Q : α → Prop} (h : Drops P s u) (h' : Drops Q u t)
    (hQ : ∀ y, Q y → y ∈ u.inactiveTimeouts) : Drops (fun y => P y ∨ Q y) s t where
  tidy := h'.tidy
  same := h.same.trans h'.same
  curTime := h'.curTime.trans h.curTime
  iaActive := h'.iaActive.trans h.iaActive
  inactive y := by
    rw [h'.inactive, h.inactive, and_assoc, not_or]
  lease y hy := (h'.lease y (not_or.mp hy).2).trans (h.lease y (not_or.mp hy).1)
  gone b y hy hia := by
    by_cases hP : P y
    · have hnQ : ¬ Q y := fun hq => ((h.inactive y).mp (hQ y hq)).2 hP
      rw [h'.kept b y fun hq => hnQ hq.1, h.gone b y hP hia]
    · rw [h'.gone b y (hy.resolve_left hP) (by rw [h.lease y hP, hia]), h.kept b y fun hp =>
        hP hp.1]
  kept b y hy := by
    have hnot : ¬ (P y ∧ (s.lease y).ia = some b) := fun hp => hy ⟨.inl hp.1, hp.2⟩
    rw [h'.kept b y fun hq => ?_, h.kept b y hnot]
    have hnP : ¬ P y := ((h.inactive y).mp (hQ y hq.1)).2
    exact hy ⟨.inr hq.1, by rw [← h.lease y hnP, hq.2]⟩

lemma Drops.cleaned_iff (h : Tidy s) (hx : s.inactiveTimeouts.head? = some x)
    (hdue : cleanupTime (s.lease x) ≤ s.curTime) (hu : Drops (· = x) s u) (y : α) :
    s.Cleaned y ↔ y = x ∨ u.Cleaned y := by
  have htop : ∀ z ∈ s.inactiveTimeouts, endKey (s.lease x) ≤ endKey (s.lease z) := fun z hz =>
    Ordered.head_le (s.decides monotone_id) h.inactive le_rfl hx hz
  have hmem : x ∈ s.inactiveTimeouts := mem_of_head? hx
  simp only [Cleaned, hu.inactive, hu.same.key, hu.curTime,
    fun z => cleanupTime_congr (hu.same.key z)]
  constructor
  · rintro ⟨hy, hall⟩
    exact or_iff_not_imp_left.mpr fun hne => ⟨⟨hy, hne⟩, fun z hz hle => hall z hz.1 hle⟩
  · rintro (rfl | ⟨⟨hy, hne⟩, hall⟩)
    · refine ⟨hmem, fun z hz hle => ?_⟩
      rwa [cleanupTime_congr (le_antisymm hle (htop z hz))]
    · refine ⟨hy, fun z hz hle => ?_⟩
      by_cases hzx : z = x
      · rwa [hzx]
      · exact hall z ⟨hz, hzx⟩ hle

omit [DecidableEq β] in
lemma Drops.refl (h : Tidy s) (hnone : ∀ x, ¬ s.Cleaned x) : Drops s.Cleaned s s :=
  ⟨h, ⟨rfl, fun _ => rfl⟩, rfl, rfl, fun x => by simp [hnone x], fun _ _ => rfl,
    fun _ x hx => absurd hx (hnone x), fun _ _ _ => rfl⟩

lemma Tidy.cleanupOldExpired {fuel : ℕ} (h : Tidy s) (hfuel : s.inactiveTimeouts.length < fuel) :
    ∃ t, State.cleanupOldExpired fuel s = some t ∧ Drops s.Cleaned s t := by
  induction fuel generalizing s with
  | zero => omega
  | succ fuel ih =>
    unfold State.cleanupOldExpired
    have hnum := h.numInactive
    cases hl : s.inactiveTimeouts with
    | nil =>
      refine ⟨s, if_neg (by simp [hnum, hl]), .refl h fun x hx => ?_⟩
      simpa [hl] using hx.1
    | cons x l =>
      have hx : s.inactiveTimeouts.head? = some x := by simp [hl]
      have htop : iscHeapElement (x :: l) 1 = some x := by simp [iscHeapElement]
      rw [if_pos (by simp [hnum, hl])]
      simp only [htop, Option.bind_eq_bind, Option.bind_some]
      by_cases hdue : s.curTime < cleanupTime (s.lease x)
      · refine ⟨s, if_pos hdue, .refl h fun y hy => ?_⟩
        have hle := Ordered.head_le (s.decides monotone_id) h.inactive le_rfl hx hy.1
        exact absurd (hy.2 x (mem_of_head? hx) hle) (not_le.mpr hdue)
      · obtain ⟨heap, hdel, hlen, hu⟩ := h.forget hx
        obtain ⟨t, ht, hdrop⟩ := ih hu.tidy (by
          rw [forgetLease_inactiveTimeouts]
          show heap.1.length < fuel
          omega)
        refine ⟨t, by rw [if_neg hdue, ← hl, hdel]; exact ht, ?_⟩
        have hiff := funext fun y => propext (hu.cleaned_iff h hx (not_lt.mp hdue) y)
        rw [hiff]
        exact hu.trans hdrop fun y hy => hy.1

/-! ### The timer -/

lemma Tidy.nextExpiry (h : Tidy s) : ∃ next, s.nextExpiry = some next ∧
    ∀ m < maxTime, next ≤ m ↔ ∃ a ∈ s.activeTimeouts, (s.lease a).hardLifetimeEndTime < m := by
  have hnum := h.numActive
  unfold State.nextExpiry
  cases hl : s.activeTimeouts with
  | nil =>
    rw [hl, length_nil] at hnum
    refine ⟨maxTime, if_neg (by simp [BitVec.lt_def, hnum]), fun m hm => ?_⟩
    simp [hm]
  | cons a l =>
    rw [hl, length_cons] at hnum
    refine ⟨_, by rw [if_pos (by simp [BitVec.lt_def, hnum])]; rfl, fun m hm => ?_⟩
    have htop : ∀ x ∈ a :: l,
      (s.lease a).hardLifetimeEndTime ≤ (s.lease x).hardLifetimeEndTime := by
      intro x hx
      have htop : s.activeTimeouts.head? = some a := by rw [hl]; rfl
      have hle := Ordered.head_le (s.decides monotone_id) h.active le_rfl htop (hl ▸ hx)
      exact (endKey_le_iff.mp hle).elim le_of_lt fun heq => heq.1.le
    dsimp only
    constructor
    · intro hle
      refine ⟨a, by simp, ?_⟩
      split_ifs at hle
      exacts [hle, absurd (hle.trans_lt hm) (lt_irrefl _)]
    · rintro ⟨x, hx, hlt⟩
      have hlt' := (htop x hx).trans_lt hlt
      rw [if_pos (hlt'.trans hm)]
      exact hlt'

lemma Tidy.scheduleLeaseTimeout (h : Tidy s) : ∃ timer, s.scheduleLeaseTimeout = some timer ∧
    ∀ m < maxTime, (∃ T ≤ m, timer = some T) ↔
      (∃ a ∈ s.activeTimeouts, (s.lease a).hardLifetimeEndTime < m) ∨
      ∃ x, s.inactiveTimeouts.head? = some x ∧ wakeTime (s.lease x) ≤ m := by
  obtain ⟨next, heq, hnext⟩ := h.nextExpiry
  have hmin : ∃ w, s.nextTimeout next = some w ∧ ∀ m, w ≤ m ↔ next ≤ m ∨
      ∃ x, s.inactiveTimeouts.head? = some x ∧ wakeTime (s.lease x) ≤ m := by
    have hnum := h.numInactive
    unfold State.nextTimeout
    cases hl : s.inactiveTimeouts with
    | nil => exact ⟨next, if_neg (by simp [hnum, hl]), by simp⟩
    | cons x l =>
      refine ⟨_, by rw [if_pos (by simp [hnum, hl])]; rfl, fun m => ?_⟩
      simp only [head?_cons, Option.some.injEq, exists_eq_left']
      split_ifs with hlt
      · exact ⟨.inr, fun h => h.elim hlt.le.trans id⟩
      · exact ⟨.inl, fun h => h.elim id (not_lt.mp hlt).trans⟩
  obtain ⟨w, hw, hmin⟩ := hmin
  refine ⟨_, by rw [State.scheduleLeaseTimeout, heq, Option.bind_some, hw]; rfl, fun m hm => ?_⟩
  rw [← hnext m hm, ← hmin m]
  dsimp only
  split_ifs with hlt
  · simp
  · simpa using hm.trans_le (not_lt.mp hlt)

/-! ### When the leases are cleaned in time -/

variable (s)

/-- A lease without a hard lifetime end that is not due yet. -/
def Waits (y : α) : Prop :=
  y ∈ s.inactiveTimeouts ∧ (s.lease y).hardLifetimeEndTime = 0 ∧
    s.curTime < (s.lease y).softLifetimeEndTime

/-- No such lease hides one that is due, or will be before the timer is. -/
def InTime : Prop :=
  (∃ y, s.Waits y) → ∀ x ∈ s.inactiveTimeouts, (s.lease x).hardLifetimeEndTime ≠ 0 →
    s.curTime ≤ cleanupTime (s.lease x) ∧ (cleanupTime (s.lease x) + 1 < maxTime →
      (∃ a ∈ s.activeTimeouts, (s.lease a).hardLifetimeEndTime ≤ cleanupTime (s.lease x)) ∨
      ∃ z, s.Waits z ∧ (s.lease z).softLifetimeEndTime ≤ cleanupTime (s.lease x))

/-- No association of the table loses all its leases. -/
def KeepsIas : Prop :=
  ∀ b, s.iaActive (s.ia b).iaType (s.ia b).iaidDuid = some b → (s.ia b).iasubopt ≠ [] →
    (s.ia b).iasubopt.Nodup → ∃ x ∈ (s.ia b).iasubopt, ¬ (s.Cleaned x ∧ (s.lease x).ia = some b)

variable {s}

lemma Drops.top (h : Drops s.Cleaned s t) (hx : t.inactiveTimeouts.head? = some x) :
    s.curTime < cleanupTime (s.lease x) ∧
      ∀ y ∈ t.inactiveTimeouts, endKey (s.lease x) ≤ endKey (s.lease y) := by
  have htop : ∀ y ∈ t.inactiveTimeouts, endKey (s.lease x) ≤ endKey (s.lease y) := fun y hy => by
    rw [← h.same.key x, ← h.same.key y]
    exact Ordered.head_le (t.decides monotone_id) h.tidy.inactive le_rfl hx hy
  refine ⟨?_, htop⟩
  obtain ⟨hmem, hnot⟩ := (h.inactive x).mp (mem_of_head? hx)
  simp only [Cleaned, hmem, true_and, not_forall, not_le] at hnot
  obtain ⟨y, hy, hle, hlt⟩ := hnot
  have hy' : y ∈ t.inactiveTimeouts :=
    (h.inactive y).mpr ⟨hy, fun hc => absurd (hc.2 y hy le_rfl) (not_le.mpr hlt)⟩
  rwa [cleanupTime_congr (le_antisymm (htop y hy') hle)]

omit [DecidableEq β] in
lemma Drops.hidden (h : Drops s.Cleaned s t) (hy : s.Waits y) (hx : x ∈ s.inactiveTimeouts)
    (hle : endKey (s.lease y) ≤ endKey (s.lease x)) : x ∈ t.inactiveTimeouts := by
  refine (h.inactive x).mpr ⟨hx, fun hc => ?_⟩
  have hdue := hc.2 y hy.1 hle
  rw [cleanupTime, if_neg (not_not.mpr hy.2.1)] at hdue
  exact absurd hy.2.2 (not_lt.mpr hdue)

lemma Drops.inTime_iff (h : Drops s.Cleaned s t) :
    (∀ x ∈ t.inactiveTimeouts, s.curTime ≤ cleanupTime (s.lease x)) ∧
      (∀ x ∈ t.inactiveTimeouts, cleanupTime (s.lease x) + 1 < maxTime →
        (∃ a ∈ s.activeTimeouts, (s.lease a).hardLifetimeEndTime ≤ cleanupTime (s.lease x)) ∨
        ∃ y, t.inactiveTimeouts.head? = some y ∧
          wakeTime (s.lease y) ≤ cleanupTime (s.lease x) + 1) ↔ s.InTime := by
  constructor
  · rintro ⟨h1, h3⟩ ⟨y, hy⟩ x hx hhard
    have hxt : x ∈ t.inactiveTimeouts :=
      h.hidden hy hx (endKey_le_iff.mpr (.inl (by rw [hy.2.1]; exact Nat.pos_of_ne_zero hhard)))
    refine ⟨h1 x hxt, fun hmax => (h3 x hxt hmax).imp_right ?_⟩
    rintro ⟨z, hz, hwake⟩
    obtain ⟨hdue, htop⟩ := h.top hz
    have hz0 : (s.lease z).hardLifetimeEndTime = 0 := by
      rcases endKey_le_iff.mp (htop y (h.hidden hy hy.1 le_rfl)) with hlt | heq
      · rw [hy.2.1] at hlt
        exact absurd hlt (Nat.not_lt_zero _)
      · exact heq.1.trans hy.2.1
    rw [cleanupTime, if_neg (not_not.mpr hz0)] at hdue
    rw [wakeTime, if_neg (not_not.mpr hz0)] at hwake
    exact ⟨z, ⟨((h.inactive z).mp (mem_of_head? hz)).1, hz0, hdue⟩, Nat.le_of_succ_le_succ hwake⟩
  · intro hin
    have key : ∀ x ∈ t.inactiveTimeouts, ∃ y, t.inactiveTimeouts.head? = some y ∧
        (wakeTime (s.lease y) ≤ cleanupTime (s.lease x) + 1 ∧ s.curTime < cleanupTime (s.lease x) ∨
          s.Waits y ∧ (s.lease x).hardLifetimeEndTime ≠ 0) := by
      intro x hx
      obtain ⟨y, hy⟩ := Option.isSome_iff_exists.mp (isSome_head?.mpr (ne_nil_of_mem hx))
      obtain ⟨hdue, htop⟩ := h.top hy
      have hle := endKey_le_iff.mp (htop x hx)
      have hmem := ((h.inactive y).mp (mem_of_head? hy)).1
      refine ⟨y, hy, ?_⟩
      unfold Waits
      unfold cleanupTime wakeTime at *
      grind
    refine ⟨fun x hx => ?_, fun x hx hmax => ?_⟩
    · obtain ⟨y, -, h1 | ⟨hy, hhard⟩⟩ := key x hx
      · exact h1.2.le
      · exact (hin ⟨y, hy⟩ x ((h.inactive x).mp hx).1 hhard).1
    · obtain ⟨y, htop, h1 | ⟨hy, hhard⟩⟩ := key x hx
      · exact .inr ⟨y, htop, h1.1⟩
      · refine ((hin ⟨y, hy⟩ x ((h.inactive x).mp hx).1 hhard).2 hmax).imp_right ?_
        rintro ⟨z, hz, hle⟩
        refine ⟨y, htop, ?_⟩
        have := endKey_le_iff.mp ((h.top htop).2 z (h.hidden hz hz.1 le_rfl))
        rw [hy.2.1, hz.2.1] at this
        rw [wakeTime, if_neg (not_not.mpr hy.2.1)]
        exact Nat.succ_le_succ ((this.resolve_left (lt_irrefl _)).2.trans hle)

lemma Drops.emptied_iff (h : Drops s.Cleaned s t) (b : β) : (t.ia b).iasubopt = [] ↔
    (s.ia b).iasubopt.Nodup ∧ ∀ x ∈ (s.ia b).iasubopt, s.Cleaned x ∧ (s.lease x).ia = some b := by
  rw [eq_nil_iff_forall_not_mem, nodup_iff_count_le_one]
  constructor
  · intro hnil
    have hall : ∀ x ∈ (s.ia b).iasubopt, s.Cleaned x ∧ (s.lease x).ia = some b := by
      intro x hx
      by_contra hnot
      have := count_eq_zero.mpr (hnil x)
      rw [h.kept b x hnot] at this
      exact count_eq_zero.mp this hx
    refine ⟨fun x => ?_, hall⟩
    by_cases hx : x ∈ (s.ia b).iasubopt
    · have := count_eq_zero.mpr (hnil x)
      rw [h.gone b x (hall x hx).1 (hall x hx).2] at this
      omega
    · simp [count_eq_zero.mpr hx]
  · rintro ⟨hone, hall⟩ x
    rw [← count_eq_zero]
    by_cases hx : s.Cleaned x ∧ (s.lease x).ia = some b
    · have := hone x
      rw [h.gone b x hx.1 hx.2]
      omega
    · rw [h.kept b x hx]
      exact count_eq_zero.mpr fun hmem => hx (hall x hmem)

/-- **Old leases**: the three things hold after the clean-up iff none is hidden, and no
association of the table is emptied. -/
theorem cleanupOldExpired_iff (h : Tidy s) : ∃ t timer,
    State.cleanupOldExpired (s.inactiveTimeouts.length + 1) s = some t ∧
    t.scheduleLeaseTimeout = some timer ∧
    ((∀ x ∈ t.inactiveTimeouts, s.curTime ≤ cleanupTime (t.lease x)) ∧
      (∀ b, (s.ia b).iasubopt ≠ [] → (t.ia b).iasubopt = [] →
        t.iaActive (s.ia b).iaType (s.ia b).iaidDuid ≠ some b) ∧
      (∀ m < maxTime, (∃ a ∈ t.activeTimeouts, m = (t.lease a).hardLifetimeEndTime + 1) ∨
        (∃ x ∈ t.inactiveTimeouts, m = cleanupTime (t.lease x) + 1) → ∃ T ≤ m, timer = some T) ↔
      s.InTime ∧ s.KeepsIas) := by
  obtain ⟨t, ht, hd⟩ := h.cleanupOldExpired (Nat.lt_succ_self _)
  obtain ⟨timer, htimer, hset⟩ := hd.tidy.scheduleLeaseTimeout
  refine ⟨t, timer, ht, htimer, ?_⟩
  have hclean : ∀ x, cleanupTime (t.lease x) = cleanupTime (s.lease x) := fun x =>
    cleanupTime_congr (hd.same.key x)
  have hhard : ∀ x, (t.lease x).hardLifetimeEndTime = (s.lease x).hardLifetimeEndTime := fun x =>
    congrArg (fun k => (ofLex k).1) (hd.same.key x)
  have hwake : ∀ x, wakeTime (t.lease x) = wakeTime (s.lease x) := fun x => by
    have hsoft : (t.lease x).softLifetimeEndTime = (s.lease x).softLifetimeEndTime :=
      congrArg (fun k => (ofLex k).2) (hd.same.key x)
    rw [wakeTime, wakeTime, hhard, hsoft]
  simp only [hd.iaActive, hclean, hhard, hwake, hd.same.active] at hset ⊢
  rw [← hd.inTime_iff, and_assoc]
  refine and_congr_right fun _ => (and_comm.trans (and_congr ?_ ?_))
  · constructor
    · intro h3 x hx hm
      refine ((hset _ hm).mp (h3 _ hm (.inr ⟨x, hx, rfl⟩))).imp_left ?_
      rintro ⟨a, ha, hlt⟩
      exact ⟨a, ha, Nat.le_of_lt_succ hlt⟩
    · rintro h3 m hm (⟨a, ha, rfl⟩ | ⟨x, hx, rfl⟩)
      · exact (hset _ hm).mpr (.inl ⟨a, ha, Nat.lt_succ_self _⟩)
      · refine (hset _ hm).mpr ((h3 x hx hm).imp_left ?_)
        rintro ⟨a, ha, hle⟩
        exact ⟨a, ha, Nat.lt_succ_of_le hle⟩
  · refine forall_congr' fun b => ?_
    rw [hd.emptied_iff]
    constructor
    · intro h2 hb hne hnd
      by_contra hnot
      push Not at hnot
      exact h2 hne ⟨hnd, hnot⟩ hb
    · rintro hk hne ⟨hnd, hall⟩ hb
      obtain ⟨x, hx, hnot⟩ := hk hb hne hnd
      exact hnot (hall x hx)

/-- Leases of one association: the first has no hard lifetime end and is due at 9000, the other
is due at 3700; the time is 5000, or 9000. -/
def hidingPool (curTime : Time) : State ℕ ℕ where
  lease n :=
    { addr := .replicate 16 (UInt8.ofNat n)
      state := .expired
      hardLifetimeEndTime := 100 * n
      softLifetimeEndTime := 9000
      ia := some 0 }
  heapIndex n := n + 1
  ia _ := { iasubopt := [0, 1] }
  iaActive _ _ := some 0
  inactiveTimeouts := [0, 1]
  numInactive := 2
  curTime := curTime

/-- A lease that is due stays, its timer is late, and an association without leases stays in the
table. -/
theorem cleanupOldExpired_late :
    (∃ t, State.cleanupOldExpired 3 (hidingPool 5000) = some t ∧ 1 ∈ t.inactiveTimeouts ∧
      cleanupTime (t.lease 1) < 5000 ∧ t.scheduleLeaseTimeout = some (some 9001)) ∧
    ∃ t, State.cleanupOldExpired 3 (hidingPool 9000) = some t ∧ (t.ia 0).iasubopt = [] ∧
      t.iaActive .na [] = some 0 := by
  refine ⟨⟨_, rfl, by decide⟩, ⟨_, rfl, by decide⟩⟩

lemma hidingPool_tidy : Tidy (hidingPool 0) where
  heaps := by
    refine ⟨⟨List.nodup_nil, fun _ _ h => by cases h⟩, ⟨by decide, fun k x h => ?_⟩, by decide⟩
    rcases k with _ | _ | k
    · cases h; rfl
    · cases h; rfl
    · simp [hidingPool] at h
  active := ordered_nil
  inactive k b x hk hb hx := by
    obtain rfl : k = 2 := by
      have := (List.getElem?_eq_some_iff.mp hx).1
      simp only [hidingPool, List.length_cons, List.length_nil] at this
      omega
    cases hb
    cases hx
    exact endKey_le_iff.mpr (by decide)
  numActive := rfl
  numInactive := rfl

theorem cleanupOldExpired_iff_hiding : ∃ t timer,
    State.cleanupOldExpired 3 (hidingPool 0) = some t ∧ t.scheduleLeaseTimeout = some timer :=
  let ⟨t, timer, ht, htimer, _⟩ := cleanupOldExpired_iff hidingPool_tidy
  ⟨t, timer, ht, htimer⟩

end IscDhcp.Mdb6.State
