import IscDhcp.Mdb6.PoolOrder

/-!
The active heap over runs of a DHCPv6 pool: when it stays in order, and that the leases expire
then.
-/

namespace IscDhcp.Mdb6

open IscDhcp.Heap State List Option

variable {α β κ : Type} [DecidableEq α] [DecidableEq β] [LinearOrder κ]

def hardEnd (k : ℕ ×ₗ ℕ) : ℕ := (ofLex k).1

lemma hardEnd_monotone : Monotone hardEnd := fun _ _ h => (Prod.Lex.le_iff.mp h).elim le_of_lt
  fun h => h.1.le

namespace Run

variable {r : Run α β} {f : ℕ ×ₗ ℕ → κ} {e : U64}

/-- The key of a lease on the active heap changes by no more than the heap is told. -/
def Adjusted (f : ℕ ×ₗ ℕ → κ) (r : Run α β) : Op α β → Prop
  | .setSoftLifetime i endTime =>
    let new := endKey { r.pool.lease i with softLifetimeEndTime := endTime }
    i ∈ r.pool.activeTimeouts → ∀ x ∈ r.pool.activeTimeouts, x ≠ i →
      (f (endKey (r.pool.lease x)) ≤ f (endKey (r.pool.lease i)) →
        f (endKey (r.pool.lease x)) ≤ f new) ∧
      (f (endKey (r.pool.lease i)) ≤ f (endKey (r.pool.lease x)) →
        f new ≤ f (endKey (r.pool.lease x)))
  | .renewLease6 i => ∀ d, renewAdjust (r.pool.lease i) = some d →
    d.Required f (endKey (r.pool.lease i)) (endKey (renewed (r.pool.lease i)))
  | .declineLease6 i => f (endKey (r.pool.lease i)) ≤
    f (toLex (maxTime, (r.pool.lease i).softLifetimeEndTime))
  | _ => True

lemma Sorted.setSoftLifetime (hc : Coherent (r.pool.activeTimeouts, r.pool.heapIndex))
    (h : r.pool.Sorted f) {i : α} {endTime : Time}
    (hi : r.Adjusted f (.setSoftLifetime i endTime)) :
    (r.pool.modify i fun l => { l with softLifetimeEndTime := endTime }).Sorted f := by
  intro k b x hk hb hx
  have hne : x ≠ b := by
    rintro rfl
    have := eq_of_getElem? hc.nodup hb hx
    omega
  have hle := h k b x hk hb hx
  by_cases hxi : x = i
  · subst hxi
    rw [modify_self, modify_of_ne _ _ hne.symm]
    exact (hi (mem_of_getElem? hx) b (mem_of_getElem? hb) hne.symm).1 hle
  · by_cases hbi : b = i
    · subst hbi
      rw [modify_self, modify_of_ne _ _ hxi]
      exact (hi (mem_of_getElem? hb) x (mem_of_getElem? hx) hxi).2 hle
    · rw [modify_of_ne _ _ hxi, modify_of_ne _ _ hbi]
      exact hle

lemma Sorted.apply (hf : Monotone f) (hinv : Inv r.pool r.marked e) (h : r.pool.Sorted f)
    {op : Op α β} (hop : r.Placed op) (hadj : r.Adjusted f op) {t : State α β}
    (ht : op.apply r.pool = some t) : t.Sorted f := by
  cases op with
  | allocate i l =>
    cases ht
    exact h.allocate hop.active l
  | createLease6 build uid i endTime =>
    obtain ⟨⟨res, u⟩, hu, rfl⟩ := map_eq_some_iff.mp ht
    unfold State.createLease6 at hu
    split_ifs at hu
    · cases hu
      exact h
    · split at hu
      · cases hu
        exact h
      · rename_i tmp htmp
        obtain ⟨v, hv, hu⟩ := bind_eq_some_iff.mp hu
        cases hu
        exact h.addNew hf hinv hop (findAddress_free htmp) hv
  | createPrefix6 build units uid i endTime =>
    obtain ⟨⟨res, u⟩, hu, rfl⟩ := map_eq_some_iff.mp ht
    unfold State.createPrefix6 at hu
    split at hu
    · cases hu
      exact h
    · rename_i tmp htmp
      obtain ⟨v, hv, hu⟩ := bind_eq_some_iff.mp hu
      cases hu
      exact h.addNew hf hinv hop (findPrefix_free htmp) hv
  | addLease6 i endTime => exact h.addLease6 hf hinv hop.1 hop.2.1 hop.2.2 ht
  | markLeaseUnavailable i addr =>
    cases ht
    exact h.allocate hop.1.active { addr := addr }
  | cleanupLease6 table i b =>
    obtain ⟨⟨res, u⟩, hu, rfl⟩ := map_eq_some_iff.mp ht
    exact h.cleanupLease6 hf hu
  | renewLease6 i => exact h.renewLease6 hf hinv (hop.imp_right And.left) hadj ht
  | declineLease6 i => exact h.declineLease6 hf hinv (MayHold.free hinv hop) hadj ht
  | releaseLease6 i =>
    have ht : r.pool.releaseLease6 i = some t := ht
    unfold State.releaseLease6 at ht
    split_ifs at ht
    · exact h.moveLeaseToInactive hf ht
    · cases ht
      exact h
  | expireLease6 now =>
    obtain ⟨⟨res, u⟩, hu, rfl⟩ := map_eq_some_iff.mp ht
    exact h.expireLease6 hf hu
  | leaseTimeout => exact h.leaseTimeoutSupport hf ht
  | setSoftLifetime i endTime =>
    cases ht
    exact Sorted.setSoftLifetime hinv.heaps.left h hadj
  | setIa i b =>
    cases ht
    exact h.modify i fun _ => rfl
  | changeIas ia iaActive =>
    cases ht
    exact h
  | passTime now =>
    cases ht
    exact h

lemma Empty.sorted (h : r.Empty) : r.pool.Sorted f := by
  unfold Sorted
  rw [h.activeTimeouts]
  exact ordered_nil

lemma Sorted.run (hf : Monotone f) {ops : List (Op α β)} {t : Run α β} (hr : r.Empty)
    (hops : r.Meets (fun r op => r.Placed op ∧ r.Adjusted f op) ops) (ht : r.run ops = some t) :
    ∃ e, Inv t.pool t.marked e ∧ t.pool.Sorted f := by
  refine hops.run (Q := fun r => ∃ e, Inv r.pool r.marked e ∧ r.pool.Sorted f) ?_
    ⟨0, hr.inv, hr.sorted⟩ ht
  rintro r op t ⟨e, hinv, h⟩ ⟨hop, hadj⟩ ht
  obtain ⟨e', hinv', -⟩ := Inv.apply hinv hop ht
  exact ⟨e', hinv', Sorted.apply hf hinv h hop hadj ht⟩

lemma Meets.mono {P Q : Run α β → Op α β → Prop} {ops : List (Op α β)} (h : r.Meets P ops)
    (hPQ : ∀ r op, P r op → Q r op) : r.Meets Q ops := by
  induction ops generalizing r with
  | nil => trivial
  | cons op ops ih => exact ⟨hPQ r op h.1, fun t ht => ih (h.2 t ht)⟩

end Run

namespace State

variable {s t : State α β} {marked : List α} {e : U64}

lemma Sorted.hard (h : s.Sorted id) : s.Sorted hardEnd :=
  fun k b x hk hb hx => hardEnd_monotone (h k b x hk hb hx)

lemma Sorted.top_le (h : s.Sorted hardEnd) {top x : α} (htop : s.activeTimeouts.head? = some top)
    (hx : x ∈ s.activeTimeouts) :
    (s.lease top).hardLifetimeEndTime ≤ (s.lease x).hardLifetimeEndTime :=
  Ordered.head_le (s.decides hardEnd_monotone) h le_rfl htop hx

lemma Sorted.expireLease6_none (hinv : Inv s marked e) (h : s.Sorted hardEnd)
    (hlen : s.activeTimeouts.length < 2 ^ 64) {now : Time}
    (ht : s.expireLease6 now = some (none, t)) :
    t = s ∧ ∀ x ∈ s.activeTimeouts, now ≤ (s.lease x).hardLifetimeEndTime := by
  unfold State.expireLease6 at ht
  split_ifs at ht with hn
  · cases ht
    have hnil : s.activeTimeouts.length = 0 := by
      have := congrArg BitVec.toNat (hinv.active.symm.trans hn)
      rwa [BitVec.natCast_eq_ofNat, BitVec.toNat_ofNat, Nat.mod_eq_of_lt hlen] at this
    rw [length_eq_zero_iff] at hnil
    exact ⟨rfl, by simp [hnil]⟩
  · obtain ⟨top, htop, ht⟩ := bind_eq_some_iff.mp ht
    split_ifs at ht with hexp
    · obtain ⟨u, -, ht⟩ := bind_eq_some_iff.mp ht
      cases ht
    · cases ht
      have htop' : s.activeTimeouts.head? = some top := by
        simpa [iscHeapElement, head?_eq_getElem?] using htop
      exact ⟨rfl, fun x hx => (not_lt.mp hexp).trans (h.top_le htop' hx)⟩

lemma Sorted.expireAll_done (fuel : ℕ) (hinv : Inv s marked e) (h : s.Sorted hardEnd)
    (hlen : s.activeTimeouts.length < 2 ^ 64) (ht : State.expireAll fuel s = some t) :
    ∀ x ∈ t.activeTimeouts, s.curTime ≤ (t.lease x).hardLifetimeEndTime := by
  induction fuel generalizing s e with
  | zero => cases ht
  | succ fuel ih =>
    obtain ⟨⟨res, u⟩, hu, ht⟩ := bind_eq_some_iff.mp ht
    have hus := h.expireLease6 hardEnd_monotone hu
    rcases res with _ | y
    · cases ht
      obtain ⟨rfl, hall⟩ := h.expireLease6_none hinv hlen hu
      exact hall
    · rcases hinv.expireLease6 s.curTime with heq | ⟨x, v, heq, hinv', hperm, -, -, htime⟩
      · rw [heq] at hu
        cases hu
      · rw [heq] at hu
        cases hu
        have hlen' := hperm.length_eq
        simp only [length_cons] at hlen'
        rw [← htime]
        exact ih hinv' hus (by omega) ht

lemma Sorted.leaseTimeout_done (hinv : Inv s marked e) (h : s.Sorted hardEnd)
    (hlen : s.activeTimeouts.length < 2 ^ 64) : ∃ t, s.leaseTimeoutSupport = some t ∧
      ∀ x ∈ t.activeTimeouts, s.curTime ≤ (t.lease x).hardLifetimeEndTime := by
  obtain ⟨t, e', ht, -⟩ := hinv.leaseTimeoutSupport
  refine ⟨t, ht, fun x hx => ?_⟩
  obtain ⟨u, hu, ht⟩ := bind_eq_some_iff.mp ht
  have hsame := cleanupOldExpired_sameKeys _ ht
  rw [hsame.active] at hx
  have hkey : (t.lease x).hardLifetimeEndTime = (u.lease x).hardLifetimeEndTime :=
    congrArg hardEnd (hsame.key x)
  rw [hkey]
  exact h.expireAll_done _ hinv hlen hu x hx

end State

namespace Run

variable {r : Run α β}

/-- An abandoned lease is not renewed for longer, and a lease that is declined did not end after
`MAX_TIME`. -/
def NotLater (r : Run α β) : Op α β → Prop
  | .renewLease6 i => (r.pool.lease i).state = .abandoned →
    (r.pool.lease i).softLifetimeEndTime ≤ (r.pool.lease i).hardLifetimeEndTime
  | .declineLease6 i => (r.pool.lease i).hardLifetimeEndTime ≤ maxTime
  | _ => True

/-- Moreover the soft lifetime of a lease on the active heap is written only when no other lease
ends with it, and no lease is renewed to the end it has. -/
def Timely (r : Run α β) : Op α β → Prop
  | .setSoftLifetime i _ => i ∈ r.pool.activeTimeouts → ∀ x ∈ r.pool.activeTimeouts,
    (r.pool.lease x).hardLifetimeEndTime = (r.pool.lease i).hardLifetimeEndTime → x = i
  | .renewLease6 i => r.NotLater (.renewLease6 i) ∧ ((r.pool.lease i).state = .active →
    (r.pool.lease i).softLifetimeEndTime = (r.pool.lease i).hardLifetimeEndTime →
    (r.pool.lease i).softLifetimeEndTime = 0)
  | op => r.NotLater op

lemma NotLater.adjusted {op : Op α β} (h : r.NotLater op) : r.Adjusted hardEnd op := by
  cases op with
  | setSoftLifetime i endTime => exact fun _ x _ _ => ⟨id, id⟩
  | renewLease6 i =>
    intro d hd
    unfold renewAdjust at hd
    split_ifs at hd with hact hle hab
    · exact some.inj hd ▸ hle
    · exact some.inj hd ▸ (not_le.mp hle).le
    · exact some.inj hd ▸ h hab
  | declineLease6 i => exact h
  | _ => trivial

lemma Timely.required {i : α} (h : r.Timely (.renewLease6 i)) {d : Adjust}
    (hd : renewAdjust (r.pool.lease i) = some d) :
    d.Required id (endKey (r.pool.lease i)) (endKey (renewed (r.pool.lease i))) := by
  obtain ⟨habn, hact'⟩ := h
  unfold renewAdjust at hd
  split_ifs at hd with hact hle hab
  · cases hd
    refine Prod.Lex.toLex_le_toLex.mpr ?_
    rcases hle.lt_or_eq with hlt | heq
    · exact .inl hlt
    · exact .inr ⟨heq, (hact' hact heq.symm).le⟩
  · cases hd
    exact Prod.Lex.toLex_le_toLex.mpr (.inl (not_le.mp hle))
  · cases hd
    refine Prod.Lex.toLex_le_toLex.mpr ?_
    rcases (habn hab).lt_or_eq with hlt | heq
    · exact .inl hlt
    · exact .inr ⟨heq, Nat.zero_le _⟩

lemma Timely.adjusted {op : Op α β} (h : r.Timely op) : r.Adjusted id op := by
  cases op with
  | setSoftLifetime i endTime =>
    intro hi x hx hxi
    have hne : (r.pool.lease x).hardLifetimeEndTime ≠ (r.pool.lease i).hardLifetimeEndTime :=
      fun heq => hxi (h hi x hx heq)
    constructor
    · intro hle
      rcases Prod.Lex.toLex_le_toLex.mp hle with hlt | ⟨heq, -⟩
      · exact Prod.Lex.toLex_le_toLex.mpr (.inl hlt)
      · exact absurd heq hne
    · intro hle
      rcases Prod.Lex.toLex_le_toLex.mp hle with hlt | ⟨heq, -⟩
      · exact Prod.Lex.toLex_le_toLex.mpr (.inl hlt)
      · exact absurd heq.symm hne
  | renewLease6 i => exact fun d hd => h.required hd
  | declineLease6 i =>
    refine Prod.Lex.toLex_le_toLex.mpr ?_
    rcases (show (r.pool.lease i).hardLifetimeEndTime ≤ maxTime from h).lt_or_eq with hlt | heq
    · exact .inl hlt
    · exact .inr ⟨heq, le_rfl⟩
  | _ => trivial

/-- No lease of the active heap is older than the one above it. -/
def HeapOrdered (s : State α β) : Prop := Ordered (fun a b => ¬ s.leaseOlder b a) s.activeTimeouts

lemma heapOrdered_iff {s : State α β} : HeapOrdered s ↔ s.Sorted id := by
  refine forall₅_congr fun k b x _ _ => forall_congr' fun _ => ?_
  exact (s.leaseOlder_iff x b).not.trans not_lt

/-- **Expiry**: in a run in which no abandoned lease is renewed for longer, the lease at the top
of the state reached is the first to expire, and the expiry pass leaves none that has. -/
theorem expiry_of_notLater {ops : List (Op α β)} {t : Run α β} (hr : r.Empty)
    (hops : r.Meets (fun r op => r.Placed op ∧ r.NotLater op) ops) (ht : r.run ops = some t) :
    (∀ top x, t.pool.activeTimeouts.head? = some top → x ∈ t.pool.activeTimeouts →
      (t.pool.lease top).hardLifetimeEndTime ≤ (t.pool.lease x).hardLifetimeEndTime) ∧
    (t.pool.activeTimeouts.length < 2 ^ 64 → ∃ u, t.pool.leaseTimeoutSupport = some u ∧
      ∀ x ∈ u.activeTimeouts, t.pool.curTime ≤ (u.lease x).hardLifetimeEndTime) := by
  obtain ⟨e, hinv, hs⟩ := Sorted.run hardEnd_monotone hr
    (hops.mono fun r op h => ⟨h.1, h.2.adjusted⟩) ht
  exact ⟨fun top x htop hx => hs.top_le htop hx, hs.leaseTimeout_done hinv⟩

theorem expiry_of_assign : ∃ t, new.run (assign 0 1) = some t ∧
    ∃ u, t.pool.leaseTimeoutSupport = some u := by
  have hops : new.Meets (fun r op => r.Placed op ∧ r.NotLater op) (assign 0 1) :=
    .cons ⟨⟨by decide, by decide, by decide⟩, trivial⟩ rfl <| .cons ⟨trivial, trivial⟩ rfl <|
      .cons ⟨.inr ⟨by decide, by decide⟩, fun h => absurd h (by decide)⟩ rfl trivial
  exact ⟨_, rfl, ((expiry_of_notLater new_empty hops rfl).2 (by decide)).imp fun _ h => h.1⟩

/-- **The active heap**: in a run from an empty pool in which the calls are timely, the heap is
ordered by `lease_older` in the state reached, a timely `renew_lease6` makes the call that the
change of the key requires, the lease at the top is the first to expire and the expiry pass leaves
none that has. -/
theorem heapOrdered_of_timely {ops : List (Op α β)} {t : Run α β} (hr : r.Empty)
    (hops : r.Meets (fun r op => r.Placed op ∧ r.Timely op) ops) (ht : r.run ops = some t) :
    HeapOrdered t.pool ∧
    (∀ i d, t.Timely (.renewLease6 i) → renewAdjust (t.pool.lease i) = some d →
      d.Required id (endKey (t.pool.lease i)) (endKey (renewed (t.pool.lease i)))) ∧
    (∀ top x, t.pool.activeTimeouts.head? = some top → x ∈ t.pool.activeTimeouts →
      (t.pool.lease top).hardLifetimeEndTime ≤ (t.pool.lease x).hardLifetimeEndTime) ∧
    (t.pool.activeTimeouts.length < 2 ^ 64 → ∃ u, t.pool.leaseTimeoutSupport = some u ∧
      ∀ x ∈ u.activeTimeouts, t.pool.curTime ≤ (u.lease x).hardLifetimeEndTime) := by
  obtain ⟨e, hinv, hs⟩ := Sorted.run monotone_id hr
    (hops.mono fun r op h => ⟨h.1, h.2.adjusted⟩) ht
  exact ⟨heapOrdered_iff.mpr hs, fun i d h hd => h.required hd,
    fun top x htop hx => hs.hard.top_le htop hx, hs.hard.leaseTimeout_done hinv⟩

/-- Two clients are given leases with one end. -/
theorem assign_assign_heapOrdered :
    ∃ t, new.run (assign 0 1 ++ assign 1 2) = some t ∧ HeapOrdered t.pool := by
  have hops : new.Meets (fun r op => r.Placed op ∧ r.Timely op) (assign 0 1 ++ assign 1 2) := by
    refine .cons ⟨⟨by decide, by decide, by decide⟩, trivial⟩ rfl ?_
    refine .cons ⟨trivial, fun hi => absurd hi (by decide)⟩ rfl ?_
    refine .cons
      ⟨.inr ⟨by decide, by decide⟩, fun h => absurd h (by decide), fun h => absurd h (by decide)⟩
      rfl ?_
    refine .cons ⟨⟨by decide, by decide, by decide⟩, trivial⟩ rfl ?_
    refine .cons ⟨trivial, fun hi => absurd hi (by decide)⟩ rfl ?_
    exact .cons
      ⟨.inr ⟨by decide, by decide⟩, fun h => absurd h (by decide), fun h => absurd h (by decide)⟩
      rfl trivial
  exact ⟨_, rfl, (heapOrdered_of_timely new_empty hops rfl).1⟩

/-- The first of two clients with one end renews at the second it was given the lease: the heap
is not ordered when `renew_lease6` is called, and the call it makes is the wrong one. And an
abandoned lease read from the lease file is renewed for longer: it stays at the top, and the
lease below it never expires. -/
theorem renewal_out_of_order :
    (∃ t, new.run (assign 0 1 ++ assign 1 2 ++ [.setSoftLifetime 0 1000]) = some t ∧
      ¬ HeapOrdered t.pool ∧ renewAdjust (t.pool.lease 0) = some .decreased ∧
      ¬ Adjust.Required id (endKey (t.pool.lease 0)) (endKey (renewed (t.pool.lease 0)))
        .decreased) ∧
    ∃ t, new.run [.allocate 0 { addr := testAddr 1, state := .abandoned }, .addLease6 0 10,
        .allocate 1 { addr := testAddr 2, state := .active }, .addLease6 1 20,
        .setSoftLifetime 0 1000, .renewLease6 0, .passTime 100, .leaseTimeout] = some t ∧
      1 ∈ t.pool.activeTimeouts ∧ (t.pool.lease 1).hardLifetimeEndTime = 20 ∧
      t.pool.curTime = 100 := by
  refine ⟨⟨_, rfl, fun h => ?_, rfl, fun h => ?_⟩, _, rfl, by decide, rfl, rfl⟩
  · exact h 2 0 1 (by decide) rfl rfl (by decide)
  · have hle : toLex (1000, 1000) ≤ toLex ((1000, 0) : ℕ × ℕ) := h
    exact absurd (Prod.Lex.toLex_le_toLex.mp hle) (by decide)

end Run

end IscDhcp.Mdb6
