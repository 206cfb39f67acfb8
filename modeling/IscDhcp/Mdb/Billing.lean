import IscDhcp.Mdb.Invariant
import IscDhcp.Mdb.QueueRun

/-!
Class billing: the leases billed to a class, the number of them, and the class a lease is
billed to.
-/

namespace IscDhcp

open Function List

variable {ι : Type} [DecidableEq ι]

def Class.Bills (x : Class ι) (i : ι) : Prop := ∃ k < x.leaseLimit, x.billedLeases k = some i

/-- The entries of the array that are not null. -/
def Class.billed (x : Class ι) : ℕ :=
  (List.range x.leaseLimit).countP fun k => (x.billedLeases k).isSome

/-- The number is that of the entries, and no lease has two. -/
structure Class.Sound (x : Class ι) : Prop where
  consumed : x.leasesConsumed = x.billed
  once : ∀ j < x.leaseLimit, ∀ k < x.leaseLimit, ∀ i, x.billedLeases j = some i →
    x.billedLeases k = some i → j = k

namespace Class

variable {x : Class ι} {i : ι} {k : ℕ}

lemma billed_le (x : Class ι) : x.billed ≤ x.leaseLimit := by
  simpa [billed] using countP_le_length (l := range x.leaseLimit)

/-- The class with another entry, and `d` more leases. -/
def put (x : Class ι) (k : ℕ) (v : Option ι) (d : ℤ) : Class ι :=
  { x with
    billedLeases := Function.update x.billedLeases k v
    leasesConsumed := x.leasesConsumed + d }

lemma countP_update (f : ℕ → Option ι) (v : Option ι) {n : ℕ} (hk : k < n) :
    ((List.range n).countP fun j => (Function.update f k v j).isSome) + (f k).isSome.toNat =
      ((List.range n).countP fun j => (f j).isSome) + v.isSome.toNat := by
  have hperm : (range n).Perm (k :: (range n).erase k) :=
    perm_cons_erase (mem_range.mpr hk)
  have hrest : ((range n).erase k).countP (fun j => (update f k v j).isSome) =
      ((range n).erase k).countP fun j => (f j).isSome :=
    countP_congr fun j hj => by
      have hjk : j ≠ k := fun he => nodup_range.not_mem_erase (he ▸ hj)
      rw [update_of_ne hjk]
  rw [hperm.countP_eq, hperm.countP_eq, countP_cons, countP_cons, hrest,
    update_self]
  cases v <;> cases f k <;> simp

lemma billed_put (x : Class ι) (v : Option ι) (d : ℤ) (hk : k < x.leaseLimit) :
    (x.put k v d).billed + (x.billedLeases k).isSome.toNat = x.billed + v.isSome.toNat :=
  countP_update x.billedLeases v hk

lemma Sound.remove (h : x.Sound) (hk : k < x.leaseLimit) (hi : x.billedLeases k = some i) :
    (x.put k none (-1)).Sound ∧ ∀ j, (x.put k none (-1)).Bills j ↔ x.Bills j ∧ j ≠ i := by
  have hval : ∀ m j, (x.put k none (-1)).billedLeases m = some j ↔
      m ≠ k ∧ x.billedLeases m = some j := fun m j => by
    by_cases hm : m = k
    · subst hm
      simp [put]
    · simp [put, hm]
  refine ⟨⟨?_, fun a ha b hb j hj hj' => ?_⟩, fun j => ⟨?_, ?_⟩⟩
  · have := x.billed_put none (-1) hk
    rw [hi] at this
    show x.leasesConsumed + -1 = _
    rw [h.consumed]
    simp only [Option.isSome_some, Option.isSome_none, Bool.toNat_true, Bool.toNat_false] at this
    omega
  · exact h.once a ha b hb j ((hval a j).mp hj).2 ((hval b j).mp hj').2
  · rintro ⟨m, hm, hj⟩
    obtain ⟨hmk, hj⟩ := (hval m j).mp hj
    refine ⟨⟨m, hm, hj⟩, ?_⟩
    rintro rfl
    exact hmk (h.once m hm k hk j hj hi)
  · rintro ⟨⟨m, hm, hj⟩, hji⟩
    refine ⟨m, hm, (hval m j).mpr ⟨?_, hj⟩⟩
    rintro rfl
    exact hji (Option.some.inj (hj.symm.trans hi))

lemma Sound.add (h : x.Sound) (hk : k < x.leaseLimit) (hfree : x.billedLeases k = none)
    (hi : ¬ x.Bills i) :
    (x.put k (some i) 1).Sound ∧ ∀ j, (x.put k (some i) 1).Bills j ↔ x.Bills j ∨ j = i := by
  have hval : ∀ m j, (x.put k (some i) 1).billedLeases m = some j ↔
      m = k ∧ j = i ∨ m ≠ k ∧ x.billedLeases m = some j := fun m j => by
    by_cases hm : m = k
    · subst hm
      simp [put, eq_comm]
    · simp [put, hm]
  refine ⟨⟨?_, fun a ha b hb j hj hj' => ?_⟩, fun j => ⟨?_, ?_⟩⟩
  · have := x.billed_put (some i) 1 hk
    rw [hfree] at this
    show x.leasesConsumed + 1 = _
    rw [h.consumed]
    simp only [Option.isSome_some, Option.isSome_none, Bool.toNat_true, Bool.toNat_false] at this
    omega
  · rcases (hval a j).mp hj with ⟨rfl, rfl⟩ | ⟨-, hxa⟩ <;>
      rcases (hval b _).mp hj' with ⟨rfl, hji⟩ | ⟨-, hxb⟩
    · rfl
    · exact absurd ⟨b, hb, hxb⟩ hi
    · exact absurd ⟨a, ha, hji ▸ hxa⟩ hi
    · exact h.once a ha b hb j hxa hxb
  · rintro ⟨m, hm, hj⟩
    rcases (hval m j).mp hj with ⟨-, rfl⟩ | ⟨-, hj⟩
    · exact .inr rfl
    · exact .inl ⟨m, hm, hj⟩
  · rintro (⟨m, hm, hj⟩ | rfl)
    · refine ⟨m, hm, (hval m j).mpr (.inr ⟨?_, hj⟩)⟩
      rintro rfl
      rw [hfree] at hj
      cases hj
    · exact ⟨k, hk, (hval k j).mpr (.inl ⟨rfl, rfl⟩)⟩

end Class

namespace Db

/-- The classes are sound, and of the leases in `D` those billed to a class are the ones in its
array. -/
structure BilledOn (D : ι → Prop) (s : Db ι) : Prop where
  sound : ∀ c, (s.cls c).Sound
  bills : ∀ c i, (s.cls c).Bills i ↔ D i ∧ (s.lease i).billingClass = some c

variable {D : ι → Prop} {s t : Db ι} {i : ι}

lemma BilledOn.congr (h : BilledOn D s) (hcls : t.cls = s.cls)
    (hb : ∀ j, (t.lease j).billingClass = (s.lease j).billingClass) : BilledOn D t :=
  ⟨fun c => hcls ▸ h.sound c, fun c j => by rw [hcls, hb, h.bills]⟩

lemma BilledOn.rebill (h : BilledOn D s) {c : ℕ} {x : Class ι} {b : Option ℕ} (hi : D i)
    (hx : x.Sound) (hbills : ∀ j, x.Bills j ↔ if j = i then b = some c else (s.cls c).Bills j)
    (hold : ∀ c', (s.lease i).billingClass = some c' → c' = c) (hnew : ∀ c', b = some c' → c' = c) :
    BilledOn D ((s.setClass c x).modify i fun l => { l with billingClass := b }) := by
  refine ⟨fun c' => ?_, fun c' j => ?_⟩
  · show (update s.cls c x c').Sound
    by_cases hc : c' = c
    · rw [hc, update_self]
      exact hx
    · rw [update_of_ne hc]
      exact h.sound c'
  · show (update s.cls c x c').Bills j ↔ _
    have hlease : (((s.setClass c x).modify i fun l => { l with billingClass := b }).lease
        j).billingClass = if j = i then b else (s.lease j).billingClass := by
      by_cases hj : j = i
      · subst hj
        simp
      · simp [modify, setLease, setClass, hj]
    rw [hlease]
    by_cases hc : c' = c
    · subst hc
      rw [update_self, hbills]
      split_ifs with hj
      · simp [hj, hi]
      · exact h.bills c' j
    · rw [update_of_ne hc, h.bills]
      split_ifs with hj
      · subst hj
        exact and_congr_right fun _ =>
          iff_of_false (fun he => hc (hold c' he)) fun he => hc (hnew c' he)
      · rfl

lemma BilledOn.unbillClass (h : BilledOn D s) (hi : D i) :
    BilledOn D (s.unbillClass i) ∧ ((s.unbillClass i).lease i).billingClass = none := by
  unfold Db.unbillClass
  cases hb : (s.lease i).billingClass with
  | none => exact ⟨h, hb⟩
  | some c =>
    obtain ⟨k, hk, hki⟩ := (h.bills c i).mpr ⟨hi, hb⟩
    dsimp only
    rcases hf : (range (s.cls c).leaseLimit).find?
      (fun k => (s.cls c).billedLeases k = some i) with _ | m
    · exact absurd hki (by simpa using find?_eq_none.mp hf k (mem_range.mpr hk))
    · have hm := mem_range.mp (mem_of_find?_eq_some hf)
      have hmi : (s.cls c).billedLeases m = some i := by simpa using find?_some hf
      obtain ⟨hx, hbills⟩ := (h.sound c).remove hm hmi
      refine ⟨?_, by simp⟩
      refine h.rebill (x := (s.cls c).put m none (-1)) hi hx (fun j => ?_)
        (fun c' hc' => Option.some.inj (hc'.symm.trans hb)) (by simp)
      rw [hbills]
      split_ifs with hj <;> simp [hj]

lemma BilledOn.billFree (h : BilledOn D s) (hi : D i) (hb : (s.lease i).billingClass = none)
    {c k : ℕ} (hk : k < (s.cls c).leaseLimit) (hfree : (s.cls c).billedLeases k = none) :
    BilledOn D ((s.setClass c ((s.cls c).put k (some i) 1)).modify i
      fun l => { l with billingClass := some c }) := by
  have hnot : ¬ (s.cls c).Bills i := fun hbill => by
    have := ((h.bills c i).mp hbill).2
    rw [hb] at this
    cases this
  obtain ⟨hx, hbills⟩ := (h.sound c).add hk hfree hnot
  refine h.rebill hi hx (fun j => ?_) (fun c' hc' => ?_) fun c' hc' => (Option.some.inj hc').symm
  · rw [hbills]
    split_ifs with hj <;> simp [hj]
  · rw [hb] at hc'
    cases hc'

lemma BilledOn.billClass (h : BilledOn D s) (hi : D i) (c : ℕ) :
    BilledOn D (s.billClass i c).2 := by
  unfold Db.billClass
  extract_lets t cls
  obtain ⟨ht, hb⟩ : BilledOn D t ∧ (t.lease i).billingClass = none := by
    by_cases hs : (s.lease i).billingClass.isSome
    · simpa [t, if_pos hs] using h.unbillClass hi
    · simp only [t, if_neg hs]
      exact ⟨h, by simpa using hs⟩
  split_ifs
  · exact ht
  · split
    · exact ht
    · rename_i k hf
      have hk := mem_range.mp (mem_of_find?_eq_some hf)
      have hfree : cls.billedLeases k = none := by simpa using find?_some hf
      exact ht.billFree hi hb hk hfree

def Billed (s : Db ι) : Prop := BilledOn (fun _ => True) s

lemma Billed.copyBilling (h : Billed s) (comp : ι) (lease : Lease) :
    Billed (s.copyBilling comp lease) := by
  unfold Db.copyBilling
  split_ifs
  · have hu := (BilledOn.unbillClass h (i := comp) trivial).1
    split
    · exact hu
    · exact hu.billClass trivial _
  · exact h

lemma Billed.of_strip (h : Billed s) (hst : t.strip = s.strip) : Billed t :=
  h.congr (eq_of_strip hst Db.cls)
    fun j => eq_of_strip hst fun s => (s.lease j).billingClass

lemma Billed.modify (h : Billed s) (i : ι) {f : Lease → Lease}
    (hf : ∀ l, (f l).billingClass = l.billingClass) : Billed (s.modify i f) :=
  h.congr rfl (s.proj_modify i Lease.billingClass hf)

lemma Billed.dropClient (h : Billed s) (i : ι) : Billed (s.dropClient i) :=
  Billed.modify (BilledOn.unbillClass h trivial).1 i fun _ => rfl

lemma Billed.makeBindingStateTransition (h : Billed s) (i : ι) :
    Billed (s.makeBindingStateTransition i) := by
  unfold Db.makeBindingStateTransition
  extract_lets peer expired released u v
  have hu : Billed u := by
    simp only [u]
    split_ifs
    · exact h.dropClient i
    · exact h
  have hv : Billed v := by
    simp only [v]
    split_ifs
    · exact hu.dropClient i
    · exact hu
  exact hv.modify i fun _ => rfl

lemma Billed.moveOn (h : Billed s) (comp : ι) (flags : Option Flags) (trans : Bool) :
    Billed (s.moveOn comp flags trans) := by
  unfold Db.moveOn
  extract_lets u
  have hu : Billed u := by
    simp only [u]
    split
    · exact h
    · exact h.modify comp fun _ => rfl
  split_ifs
  · exact hu.makeBindingStateTransition comp
  · exact hu

variable [Fintype ι]

lemma billed_moveInvariant : MoveInvariant fun s : Db ι => s.Billed := by
  have hm : MoveFrame fun s : Db ι => s.Billed :=
    ⟨fun _ _ h => h.congr rfl fun _ => rfl, fun _ _ h => h.congr rfl fun _ => rfl,
      fun _ h => h.congr rfl fun _ => rfl, fun i h => h.modify i fun _ => rfl,
      fun i _ _ h => h.modify i fun _ => rfl⟩
  exact hm.moveInvariant (fun comp flags trans h => h.moveOn comp flags trans)
    fun comp p commit propogate pimmediate h =>
      h.of_strip (strip_recordMove _ comp p commit propogate pimmediate)

lemma Billed.copySample (h : Billed s) (comp : ι) (lease : Lease) :
    Billed (s.copySample comp lease) := by
  obtain ⟨uids, hws, u, hl⟩ := s.leaveChains_eq comp
  have hleave : Billed (s.leaveChains comp) := by
    rw [hl]
    exact (h.modify comp (f := fun l => { l with uid := u }) fun _ => rfl).congr rfl fun _ => rfl
  have hb := (hleave.copyBilling comp lease).modify comp (f := (copyClient · lease)) fun _ => rfl
  obtain ⟨uids', hws', he⟩ :=
    (((s.leaveChains comp).copyBilling comp lease).modify comp (copyClient · lease)).enterChains_eq
      comp
  unfold Db.copySample
  simp only [he]
  refine Billed.modify ?_ comp fun _ => rfl
  exact hb.congr rfl fun _ => rfl

lemma Billed.supersedeLease (h : Billed s) {comp : ι} {lease : Option Lease}
    {commit propogate pimmediate ok : Bool}
    (ht : s.supersedeLease comp lease commit propogate pimmediate = some (ok, t)) : Billed t := by
  have hc : Billed (lease.elim s (s.copySample comp)) := by
    cases lease with
    | none => exact h
    | some l => exact h.copySample comp l
  rcases billed_moveInvariant.supersedeLease hc ht with rfl | ht
  exacts [h, ht]

lemma Billed.releaseLease (h : Billed s) (ht : s.releaseLease i = some t) : Billed t := by
  unfold Db.releaseLease at ht
  extract_lets u at ht
  have hu : Billed u := h.modify i fun _ => rfl
  split at ht
  all_goals first
    | exact Option.some.inj ht ▸ hu
    | obtain ⟨⟨ok, v⟩, hv, rfl⟩ := Option.map_eq_some_iff.mp ht
      exact (hu.modify i (f := releaseData u.curTime (u.releasedState i)) fun _ =>
        rfl).supersedeLease
        hv

lemma Billed.abandonLease (h : Billed s) (ht : s.abandonLease i = some t) : Billed t := by
  obtain ⟨⟨ok, v⟩, hv, rfl⟩ := Option.map_eq_some_iff.mp ht
  exact h.supersedeLease hv

/-! ### Startup -/

lemma BilledOn.extend (h : BilledOn D s) (hi : ¬ D i) (hb : (s.lease i).billingClass = none) :
    BilledOn (fun j => j = i ∨ D j) s := by
  refine ⟨h.sound, fun c j => (h.bills c j).trans ?_⟩
  constructor
  · exact fun ⟨hD, hc⟩ => ⟨.inr hD, hc⟩
  · rintro ⟨rfl | hD, hc⟩
    · rw [hb] at hc
      cases hc
    · exact ⟨hD, hc⟩

lemma BilledOn.instantiateBilling (h : BilledOn D s) (hi : ¬ D i) :
    BilledOn (fun j => j = i ∨ D j) (s.instantiateBilling i) := by
  unfold Db.instantiateBilling
  cases hb : (s.lease i).billingClass with
  | none => exact h.extend hi hb
  | some c =>
    have hfree : BilledOn D (s.modify i fun l => { l with billingClass := none }) := by
      refine ⟨h.sound, fun c j => (h.bills c j).trans ?_⟩
      by_cases hj : j = i
      · subst hj
        simp [hi]
      · rw [modify_lease_of_ne s hj]
    have := hfree.extend hi (by simp)
    dsimp only
    split
    all_goals first
      | exact this.billClass (.inl rfl) c
      | exact this

/-- The lease has a pool and one of the states there are. -/
def Placed (l : Lease) : Prop := l.pool.isSome ∧ l.bindingState.isValid

lemma BilledOn.leaseInstantiate (h : BilledOn D s) (hi : ¬ D i) (hp : Placed (s.lease i)) :
    BilledOn (fun j => j = i ∨ D j) (s.leaseInstantiate i) := by
  obtain ⟨p, hpool⟩ := Option.isSome_iff_exists.mp hp.1
  unfold Db.leaseInstantiate
  simp only [hpool]
  have hadopt : BilledOn D (s.adoptBackup i) ∧ Placed ((s.adoptBackup i).lease i) := by
    unfold adoptBackup
    split_ifs
    · refine ⟨h.congr rfl (s.proj_modify i Lease.billingClass fun _ => rfl), ?_⟩
      rw [modify_lease_self]
      exact ⟨hp.1, rfl⟩
    · exact ⟨h, hp⟩
  generalize s.adoptBackup i = u at hadopt ⊢
  obtain ⟨hu, hpu⟩ := hadopt
  obtain ⟨hbad, -⟩ | ⟨p, q, -, -, he⟩ := u.leaseEnqueue_cases i
  · rcases hbad with hbad | hbad
    · exact absurd hpu.1 (by simp [hbad])
    · exact absurd hpu.2 (by simp [queueOf_eq_none.mp hbad])
  · have hq : BilledOn D (u.enqueue p q i) := hu.congr rfl fun j => by
      have := @leaseEnqueue_lease ι _ u i j
      rw [he] at this
      exact Lease.eq_of_strip this Lease.billingClass
    rw [he]
    obtain ⟨uids, hws, hc⟩ := (u.enqueue p q i).enterChains_eq i
    exact BilledOn.instantiateBilling (hc ▸ hq.congr rfl fun _ => rfl) hi

/-- No class has a lease yet. -/
def NoBilling (s : Db ι) : Prop :=
  ∀ c, (s.cls c).leasesConsumed = 0 ∧ ∀ k, (s.cls c).billedLeases k = none

lemma instantiateAll_billed {leases : List ι} (hs : NoBilling s) (hp : ∀ i, Placed (s.lease i))
    (hnd : leases.Nodup) (hall : ∀ i, i ∈ leases) : Billed (s.instantiateAll leases) := by
  have h0 : BilledOn (fun _ => False) { s with ssNosync := true, ssQfollow := true } := by
    refine ⟨fun c => ⟨?_, fun j _ k _ i hj => ?_⟩, fun c i => ?_⟩
    · simp [Class.billed, (hs c).1, (hs c).2]
    · simp [(hs c).2] at hj
    · simp [Class.Bills, (hs c).2]
  have h := (foldl_leaseInstantiate
    (P := fun D t => BilledOn D t ∧ ∀ j, ¬ D j → Placed (t.lease j)) (fun {t D i} h hi => by
      refine ⟨h.1.leaseInstantiate hi (h.2 i hi), fun j hj => ?_⟩
      rw [not_or] at hj
      rw [leaseInstantiate_lease_of_ne t hj.1]
      exact h.2 j hj.2) hnd hall ⟨h0, fun i _ => hp i⟩).1
  exact ⟨h.sound, h.bills⟩

end Db

/-! ### Runs -/

namespace BillingRun

open Db

/-- A call that changes the billing of a lease, or any other. -/
inductive Op (ι : Type)
  | bill (i : ι) (c : ℕ)
  | unbill (i : ι)
  | call (op : QueueRun.Op ι)

variable [Fintype ι]

def step (s : Db ι) : Op ι → Option (Db ι)
  | .bill i c => some (s.billClass i c).2
  | .unbill i => some (s.unbillClass i)
  | .call op => QueueRun.step s op

def run (s : Db ι) (ops : List (Op ι)) : Option (Db ι) := ops.foldlM step s

lemma running_rebill {s : Db ι} (h : s.Running) (i : ι) (cls : ℕ → Class ι) (b : Option ℕ) :
    (s.rebill i cls b).Running := by
  have hq : QueuedOn (fun _ => True) (s.rebill i cls b) :=
    (h.queued.modify (f := fun l => { l with billingClass := b }) fun _ _ => ⟨rfl, rfl⟩).transfer
      (fun _ => ⟨rfl, rfl, rfl⟩) fun _ _ => ⟨rfl, rfl⟩
  exact ⟨hq, h.ssQfollow⟩

lemma step_billed {s : Db ι} (h : s.Running) (hb : s.Billed) (op : Op ι) :
    ∃ t, step s op = some t ∧ t.Running ∧ t.Billed := by
  cases op with
  | bill i c =>
    obtain ⟨cls, b, he⟩ := s.billClass_eq i c
    exact ⟨_, rfl, he ▸ running_rebill h i cls b, BilledOn.billClass hb trivial c⟩
  | unbill i =>
    obtain ⟨cls, he⟩ := s.unbillClass_eq i
    exact ⟨_, rfl, he ▸ running_rebill h i cls none, (BilledOn.unbillClass hb trivial).1⟩
  | call op =>
    obtain ⟨t, ht, hk⟩ := QueueRun.step_keeps h op
    refine ⟨t, ht, hk.1, ?_⟩
    cases op with
    | pass d peer =>
      cases ht
      exact hb.congr rfl fun _ => rfl
    | supersede comp lease commit propogate pimmediate =>
      obtain ⟨⟨ok, u⟩, hu, rfl⟩ := Option.map_eq_some_iff.mp ht
      exact hb.supersedeLease hu
    | release i => exact hb.releaseLease ht
    | abandon i => exact hb.abandonLease ht
    | timer p => exact billed_moveInvariant.poolTimer hb ht

lemma run_billed {s : Db ι} (h : s.Running) (hb : s.Billed) (ops : List (Op ι)) :
    ∃ t, run s ops = some t ∧ t.Billed := by
  induction ops generalizing s with
  | nil => exact ⟨s, rfl, hb⟩
  | cons op ops ih =>
    obtain ⟨u, hu, hur, hub⟩ := step_billed h hb op
    obtain ⟨t, ht, htb⟩ := ih hur hub
    exact ⟨t, by simp [run, foldlM_cons, hu]; exact ht, htb⟩

/-- **Class billing**: from the state in which `lease_instantiate` has entered every lease, with the
server still starting or not, no sequence of calls ends in a fatal error; the number of leases of a
class is that of the entries of its array and within the limit, no lease has two entries in any
arrays, and a lease is billed to the class in whose array it is. -/
theorem class_billing {s : Db ι} {leases : List ι} (hq : s.NoQueues) (hs : s.NoBilling)
    (hp : ∀ i, Placed (s.lease i)) (hnd : leases.Nodup) (hall : ∀ i, i ∈ leases)
    (nosync : Bool) (ops : List (Op ι)) :
    ∃ t, run { s.instantiateAll leases with ssNosync := nosync } ops = some t ∧
      (∀ c, (t.cls c).leasesConsumed = (t.cls c).billed ∧
        (t.cls c).leasesConsumed ≤ (t.cls c).leaseLimit) ∧
      (∀ c c' j k i, j < (t.cls c).leaseLimit → k < (t.cls c').leaseLimit →
        (t.cls c).billedLeases j = some i → (t.cls c').billedLeases k = some i →
        c = c' ∧ j = k) ∧
      ∀ c i, (t.lease i).billingClass = some c ↔ (t.cls c).Bills i := by
  have h0 : Running { s.instantiateAll leases with ssNosync := nosync } :=
    ⟨{ instantiateAll_queued hq hnd hall with }, rfl⟩
  have hb0 := instantiateAll_billed hs hp hnd hall
  obtain ⟨t, ht, hb⟩ := run_billed h0 ⟨hb0.sound, hb0.bills⟩ ops
  have hbills : ∀ c i, (t.lease i).billingClass = some c ↔ (t.cls c).Bills i := fun c i => by
    rw [hb.bills]
    simp
  refine ⟨t, ht, fun c => ⟨(hb.sound c).consumed, ?_⟩, fun c c' j k i hj hk hij hik => ?_, hbills⟩
  · rw [(hb.sound c).consumed]
    exact_mod_cast (t.cls c).billed_le
  · have h1 := (hbills c i).mpr ⟨j, hj, hij⟩
    have h2 := (hbills c' i).mpr ⟨k, hk, hik⟩
    cases h1.symm.trans h2
    exact ⟨rfl, (hb.sound c).once j hj k hk i hij hik⟩

/-- Two leases and a class with room for one: the billing moves when the first lease expires. -/
theorem class_billing_sample :
    let s : Db (Fin 2) :=
      { lease := fun i =>
          { pool := some 0, bindingState := .active, nextBindingState := .free, ends := 5,
            billingClass := if i = 0 then some 0 else none },
        cls := fun _ => { leaseLimit := 1 } }
    let ops : List (Op (Fin 2)) := [.bill 1 0, .call (.pass 7 {}), .call (.timer 0), .bill 1 0]
    ∃ t, run { s.instantiateAll [1, 0] with ssNosync := false } ops = some t ∧
      (∀ c, (t.cls c).leasesConsumed = (t.cls c).billed ∧
        (t.cls c).leasesConsumed ≤ (t.cls c).leaseLimit) ∧
      (∀ c c' j k i, j < (t.cls c).leaseLimit → k < (t.cls c').leaseLimit →
        (t.cls c).billedLeases j = some i → (t.cls c').billedLeases k = some i →
        c = c' ∧ j = k) ∧
      ∀ c i, (t.lease i).billingClass = some c ↔ (t.cls c).Bills i :=
  class_billing ⟨fun _ _ => rfl, fun _ => rfl, fun _ => rfl, rfl⟩ (fun _ => ⟨rfl, fun _ => rfl⟩)
    (fun _ => ⟨rfl, rfl⟩) (by decide) (by decide) _ _

end BillingRun

end IscDhcp
