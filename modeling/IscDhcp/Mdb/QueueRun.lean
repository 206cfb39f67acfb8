import IscDhcp.Mdb.PoolTimer

/-!
Sequences of calls that move leases between the queues, from the moment all leases of the
database have been put on them.
-/

namespace IscDhcp

variable {ι : Type} [DecidableEq ι]

def BindingState.isValid : BindingState → Bool
  | .bogus _ => false
  | _ => true

lemma queueOf_eq_none {l : Lease} : queueOf l = none ↔ l.bindingState.isValid = false := by
  unfold queueOf BindingState.isValid
  cases l.bindingState <;> simp

lemma exists_queueOf {l : Lease} (h : l.bindingState.isValid = true) :
    ∃ q, queueOf l = some q := by
  rw [← Option.ne_none_iff_exists', ne_eq, queueOf_eq_none, h]
  simp

/-- Neither the state of the lease nor the one it moves to next is bogus. -/
def Lease.Valid (l : Lease) : Prop :=
  l.bindingState.isValid = true ∧ l.nextBindingState.isValid = true

instance (l : Lease) : Decidable l.Valid := inferInstanceAs (Decidable (_ ∧ _))

namespace Db

variable {s t : Db ι} {i : ι}

/-! ### Startup -/

lemma adoptBackup_eq (s : Db ι) (i : ι) : ∃ f : Lease → Lease, s.adoptBackup i = s.modify i f ∧
    ∀ l, (f l).pool = l.pool ∧ (l.Valid → (f l).Valid) := by
  unfold adoptBackup
  split_ifs
  · exact ⟨_, rfl, fun _ => ⟨rfl, fun _ => ⟨rfl, rfl⟩⟩⟩
  · exact ⟨id, (s.modify_id i).symm, fun _ => ⟨rfl, id⟩⟩

lemma instantiateBilling_eq (s : Db ι) (i : ι) :
    ∃ cls b, s.instantiateBilling i = s.rebill i cls b := by
  unfold instantiateBilling
  cases hb : (s.lease i).billingClass with
  | none => exact ⟨s.cls, (s.lease i).billingClass, (s.rebill_self i).symm⟩
  | some c =>
    have h : s.modify i (fun l => { l with billingClass := none }) = s.rebill i s.cls none := rfl
    obtain ⟨cls, b, hc⟩ := (s.rebill i s.cls none).billClass_eq i c
    rw [rebill_rebill] at hc
    dsimp only
    rw [h]
    split
    · exact ⟨cls, b, hc⟩
    · exact ⟨cls, b, hc⟩
    · exact ⟨cls, b, hc⟩
    · exact ⟨cls, b, hc⟩
    · exact ⟨_, _, rfl⟩

def AllValid (s : Db ι) : Prop := ∀ i, (s.lease i).Valid

lemma forall_modify {Q : Lease → Prop} (h : ∀ j, Q (s.lease j)) {f : Lease → Lease}
    (hf : Q (s.lease i) → Q (f (s.lease i))) (j : ι) : Q ((s.modify i f).lease j) := by
  by_cases hj : j = i
  · subst hj
    rw [modify_lease_self]
    exact hf (h j)
  · rw [modify_lease_of_ne s hj]
    exact h j

lemma AllValid.modify (h : s.AllValid) {f : Lease → Lease}
    (hf : (s.lease i).Valid → (f (s.lease i)).Valid) : (s.modify i f).AllValid :=
  forall_modify h hf

lemma valid_of_strip {l l' : Lease} (h : l.strip = l'.strip) : l.Valid ↔ l'.Valid :=
  iff_of_eq (Lease.eq_of_strip h Lease.Valid)

variable [Fintype ι]

lemma enterBilled_eq (s : Db ι) (i : ι) : ∃ cls uids hws b, (s.enterChains i).instantiateBilling i =
      (s.modify i fun l => { l with billingClass := b }).setTables cls uids hws := by
  obtain ⟨uids, hws, hc⟩ := s.enterChains_eq i
  obtain ⟨cls, b, hb⟩ := (s.enterChains i).instantiateBilling_eq i
  exact ⟨cls, uids, hws, b, by rw [hb, hc]; rfl⟩

lemma leaseInstantiate_cases (s : Db ι) (i : ι) :
    ((s.lease i).pool = none ∧ s.leaseInstantiate i = s) ∨
      ∃ f : Lease → Lease, (∀ l, (f l).pool = l.pool ∧ (l.Valid → (f l).Valid)) ∧
        ((queueOf (f (s.lease i)) = none ∧ s.leaseInstantiate i = s.modify i f) ∨
          ∃ p q cls uids hws b, (s.lease i).pool = some p ∧
            s.leaseInstantiate i = (((s.modify i f).enqueue p q i).modify i
              fun l => { l with billingClass := b }).setTables cls uids hws) := by
  obtain ⟨f, hs, hf⟩ := s.adoptBackup_eq i
  unfold leaseInstantiate
  cases hp : (s.lease i).pool with
  | none => exact .inl ⟨rfl, rfl⟩
  | some p =>
    refine .inr ⟨f, hf, ?_⟩
    have hpf : ((s.modify i f).lease i).pool = some p := by
      rw [modify_lease_self, (hf _).1, hp]
    obtain ⟨hb, he⟩ | ⟨p', q, hp', -, he⟩ := (s.modify i f).leaseEnqueue_cases i
    · simp only [hs, he]
      rw [hpf, modify_lease_self] at hb
      exact .inl ⟨hb.resolve_left (by simp), trivial⟩
    · cases hpf.symm.trans hp'
      obtain ⟨cls, uids, hws, b, hc⟩ := ((s.modify i f).enqueue p q i).enterBilled_eq i
      simp only [hs, he, hc]
      exact .inr ⟨p, q, cls, uids, hws, b, rfl, rfl⟩

lemma leaseInstantiate_lease_of_ne (s : Db ι) {i j : ι} (hj : j ≠ i) :
    (s.leaseInstantiate i).lease j = s.lease j := by
  obtain ⟨-, he⟩ | ⟨f, -, ⟨-, he⟩ | ⟨p, q, cls, uids, hws, b, -, he⟩⟩ := s.leaseInstantiate_cases i
  · rw [he]
  · rw [he, modify_lease_of_ne s hj]
  · rw [he]
    exact (modify_lease_of_ne _ hj fun l => { l with billingClass := b }).trans
      ((enqueue_lease_of_ne _ p q hj).trans (modify_lease_of_ne s hj f))

lemma leaseInstantiate_queued {D : ι → Prop} (h : QueuedOn D s) (hf : s.FollowOk) (hi : ¬ D i) :
    QueuedOn (fun j => j = i ∨ D j) (s.leaseInstantiate i) ∧ (s.leaseInstantiate i).FollowOk := by
  unfold leaseInstantiate
  cases hp : (s.lease i).pool with
  | none =>
    refine ⟨⟨fun p q j => ?_, h.nodup, h.free, h.backup⟩, hf⟩
    have : j = i → (s.lease j).pool ≠ some p := by
      rintro rfl
      simp [hp]
    rw [h.mem]
    tauto
  | some p =>
    obtain ⟨f, hs, -⟩ := s.adoptBackup_eq i
    have hq := (h.modify (f := f) (fun hD => absurd hD hi)).leaseEnqueue hf hi
    have hf' : ((s.modify i f).leaseEnqueue i).2.FollowOk := by
      obtain ⟨-, he⟩ | ⟨p, q, -, -, he⟩ := (s.modify i f).leaseEnqueue_cases i
      · rw [he]
        exact hf
      · rw [he]
        rintro - p' q' last hl
        obtain ⟨rfl, rfl, rfl⟩ : p = p' ∧ q = q' ∧ i = last := by simpa [enqueue] using hl
        have hperm : (((s.modify i f).stamp p q i).inserted p q i).Perm _ :=
          inserted_perm (s := (s.modify i f).stamp p q i) hf
        simp [enqueue, setPool, Pool.setQueue, hperm.mem_iff]
    simp only [hs]
    generalize (s.modify i f).leaseEnqueue i = r at hq hf' ⊢
    rcases r with ⟨_ | _, t⟩
    · exact ⟨hq, hf'⟩
    · obtain ⟨cls, uids, hws, b, hc⟩ := t.enterBilled_eq i
      simp only [hc]
      exact ⟨(hq.modify (f := fun l => { l with billingClass := b }) fun _ _ => ⟨rfl, rfl⟩).transfer
        (fun _ => ⟨rfl, rfl, rfl⟩) fun _ _ => ⟨rfl, rfl⟩, hf'⟩

lemma leaseInstantiate_valid (h : s.AllValid) : (s.leaseInstantiate i).AllValid := by
  unfold leaseInstantiate
  cases (s.lease i).pool with
  | none => exact h
  | some p =>
    obtain ⟨f, hs, hfv⟩ := s.adoptBackup_eq i
    have hv : ((s.adoptBackup i).leaseEnqueue i).2.AllValid := fun j => by
      rw [valid_of_strip (leaseEnqueue_lease j), hs]
      exact h.modify (hfv _).2 j
    generalize (s.adoptBackup i).leaseEnqueue i = r at hv ⊢
    rcases r with ⟨_ | _, t⟩
    · exact hv
    · obtain ⟨cls, uids, hws, b, hc⟩ := t.enterBilled_eq i
      simp only [hc]
      exact hv.modify (f := fun l => { l with billingClass := b }) id

structure NoQueues (s : Db ι) : Prop where
  queue : ∀ p q, (s.pool p).queue q = []
  free : ∀ p, (s.pool p).freeLeases = 0
  backup : ∀ p, (s.pool p).backupLeases = 0
  lastInsert : s.lastInsert = none

/-- What holds of the leases `D` that have been instantiated, and still does with one more, holds
of all in the end. -/
lemma foldl_leaseInstantiate {P : (ι → Prop) → Db ι → Prop} {leases : List ι}
    (hstep : ∀ {s D i}, P D s → ¬ D i → P (fun j => j = i ∨ D j) (s.leaseInstantiate i))
    (hnd : leases.Nodup) (hall : ∀ i, i ∈ leases) (h : P (fun _ => False) s) :
    P (fun _ => True) (leases.foldl leaseInstantiate s) := by
  have hfold {l : List ι} {D : ι → Prop} {t} (hl : l.Nodup) (hD : ∀ i ∈ l, ¬ D i) (h : P D t) :
      P (fun j => j ∈ l ∨ D j) (l.foldl leaseInstantiate t) := by
    induction l generalizing t D with
    | nil => simpa using h
    | cons i l ih =>
      obtain ⟨hi, hl⟩ := List.nodup_cons.mp hl
      have hD' : ∀ j ∈ l, ¬ (j = i ∨ D j) := by
        rintro j hj (rfl | hDj)
        exacts [hi hj, hD j (by simp [hj]) hDj]
      simpa [or_assoc, or_left_comm] using ih hl hD' (hstep h (hD i (by simp)))
  simpa [hall] using hfold hnd (by simp) h

lemma instantiateAll_queued {leases : List ι} (hs : NoQueues s) (hnd : leases.Nodup)
    (hall : ∀ i, i ∈ leases) : Queued (s.instantiateAll leases) := by
  have h0 : QueuedOn (fun _ => False) { s with ssNosync := true, ssQfollow := true } :=
    ⟨by simp [hs.queue], by simp [hs.queue], by simp [hs.free, hs.queue],
      by simp [hs.backup, hs.queue]⟩
  have hf : FollowOk { s with ssNosync := true, ssQfollow := true } := by
    simp [FollowOk, hs.lastInsert]
  have h : Queued _ := (foldl_leaseInstantiate (P := fun D s => QueuedOn D s ∧ s.FollowOk)
    (fun h hi => leaseInstantiate_queued h.1 h.2 hi) hnd hall ⟨h0, hf⟩).1
  exact { h with }

lemma instantiateAll_valid {leases : List ι}
    (h : s.AllValid) : (s.instantiateAll leases).AllValid :=
  List.foldlRecOn (motive := AllValid) leases leaseInstantiate h fun _ ht _ _ =>
    leaseInstantiate_valid ht

/-! ### The calls -/

lemma stateAfter_isValid (peered : Bool) {b : BindingState} (h : b.isValid = true) :
    (stateAfter peered b).isValid = true := by
  cases b <;> cases peered <;> simp_all [stateAfter, BindingState.isValid]

lemma transition_valid (peered : Bool) (p : Peer ι) {l : Lease} (h : l.Valid) :
    (transition peered p l).Valid := ⟨h.2, stateAfter_isValid peered h.2⟩

lemma moveData_valid (flags : Option Flags) (trans propogate : Bool) (h : (s.lease i).Valid) :
    (s.moveData i flags trans propogate).Valid := by
  have hc : ((s.clearAtsfp i propogate).lease i).Valid := by
    unfold clearAtsfp
    split_ifs
    · rw [modify_lease_self]
      exact h
    · exact h
  unfold moveData movedOn
  extract_lets l l'
  have hl : l'.Valid := by
    cases flags
    · exact hc
    · exact hc
  split_ifs
  · exact hc
  · exact transition_valid _ _ hl
  · exact hl

lemma Moved.valid {l : Lease} (hm : Moved s t i l) (h : s.AllValid)
    (hl : l.Valid) : t.AllValid := by
  intro j
  by_cases hj : j = i
  · subst hj
    rwa [valid_of_strip hm.self]
  · rw [valid_of_strip (hm.others j hj)]
    exact h j

lemma timerData_valid {n : BindingState} (h : (s.lease i).Valid)
    (hn : n = (s.lease i).nextBindingState ∨ s.peered i = true ∧ (n = .free ∨ n = .backup)) :
    (s.timerData i n).Valid := by
  refine transition_valid _ _ ⟨h.1, ?_⟩
  rcases hn with rfl | ⟨-, rfl | rfl⟩
  exacts [h.2, rfl, rfl]

lemma TimerMoves.valid {p : ℕ} {off : ℕ → Queue → ℤ} (h : TimerMoves p s t) (hs : Queued s off)
    (hf : s.ssQfollow = false) (hv : s.AllValid) : t.AllValid := by
  induction h with
  | refl => exact hv
  | tail hms hm ih =>
    obtain ⟨hq, hf'⟩ := TimerMoves.queued hms hs hf
    obtain ⟨i, n, -, -, hn, hm⟩ := hm.moved hq hf'
    exact hm.valid ih (timerData_valid (ih i) hn)

/-- The leases are on their queues, and the server has started. -/
structure Running (s : Db ι) : Prop where
  queued : Queued s
  ssQfollow : s.ssQfollow = false

/-- What a call may do: the leases are on their queues again, and keep valid states if `valid`. -/
def Keeps (s t : Db ι) (valid : Prop) : Prop := Running t ∧ (s.AllValid → valid → t.AllValid)

section

variable (h : Running s)

include h

lemma poolTimer_keeps (p : ℕ) : ∃ t, s.poolTimer p = some t ∧ Keeps s t True := by
  obtain ⟨t, u, ht, hm, he⟩ := poolTimer_moves p h.queued h.ssQfollow
  obtain ⟨hq, hf⟩ := hm.queued h.queued h.ssQfollow
  refine ⟨t, ht, ⟨hq.of_strip he, (Db.eq_of_strip he Db.ssQfollow).trans hf⟩, fun hv _ i => ?_⟩
  rw [valid_of_strip (Db.eq_of_strip he (fun s => (s.lease i).strip))]
  exact hm.valid h.queued h.ssQfollow hv i

lemma expireNow_keeps (comp : ι) : ∃ t, s.expireNow comp = some t ∧ Keeps s t True := by
  have hself : Keeps s s True := ⟨h, fun hv _ => hv⟩
  unfold expireNow
  split_ifs
  · cases (s.lease comp).pool with
    | none => exact ⟨s, rfl, hself⟩
    | some p => exact poolTimer_keeps h p
  · exact ⟨s, rfl, hself⟩

lemma justMoveIt_keeps (comp : ι) (flags : Option Flags) (commit propogate pimmediate : Bool) :
    ∃ ok t, s.justMoveIt comp flags commit propogate pimmediate = some (ok, t) ∧
      Keeps s t True := by
  obtain ⟨ok, t, ht, hm⟩ :=
    justMoveIt_moved h.queued h.ssQfollow comp flags commit propogate pimmediate
  exact ⟨ok, t, ht, ⟨hm.queued h.queued, hm.ssQfollow.trans h.ssQfollow⟩,
    fun hv _ => hm.valid hv (moveData_valid flags _ propogate (hv comp))⟩

lemma copySample_keeps (comp : ι) (lease : Lease) :
    Keeps s (s.copySample comp lease) (lease.nextBindingState.isValid = true) := by
  obtain ⟨cls, uids, hws, b, hc⟩ := s.copySample_eq comp lease
  rw [hc]
  refine ⟨⟨(h.queued.modify (f := sampled lease b) fun _ _ => ⟨rfl, rfl⟩).transfer
    (fun _ => ⟨rfl, rfl, rfl⟩) fun _ _ => ⟨rfl, rfl⟩, h.ssQfollow⟩, fun hv hl => ?_⟩
  exact hv.modify fun hc => ⟨hc.1, hl⟩

lemma supersedeLease_keeps (comp : ι) (lease : Option Lease) (commit propogate pimmediate : Bool) :
    ∃ ok t, s.supersedeLease comp lease commit propogate pimmediate = some (ok, t) ∧
      Keeps s t (∀ l ∈ lease, l.nextBindingState.isValid = true) := by
  unfold supersedeLease
  by_cases hpi : (pimmediate && !commit) = true
  · rw [if_pos hpi]
    exact ⟨_, s, rfl, h, fun hv _ => hv⟩
  rw [if_neg hpi]
  by_cases hst : (lease.any fun l => l.flags.staticLease) = true
  · rw [if_pos hst]
    exact ⟨_, s, rfl, h, fun hv _ => hv⟩
  · rw [if_neg hst]
    obtain ⟨u, hu, hku⟩ : ∃ u, u = lease.elim s (s.copySample comp) ∧
        Keeps s u (∀ l ∈ lease, l.nextBindingState.isValid = true) := by
      refine ⟨_, rfl, ?_⟩
      cases lease with
      | none => exact ⟨h, fun hv _ => hv⟩
      | some l =>
        obtain ⟨hr, hv⟩ := copySample_keeps h comp l
        exact ⟨hr, fun hs hl => hv hs (hl l rfl)⟩
    obtain ⟨ok, t, ht, hkt⟩ := justMoveIt_keeps hku.1 comp (lease.map Lease.flags) commit propogate
      pimmediate
    have hkeep : Keeps s t (∀ l ∈ lease, l.nextBindingState.isValid = true) :=
      ⟨hkt.1, fun hv hl => hkt.2 (hku.2 hv hl) trivial⟩
    simp only [← hu, ht, Option.bind_eq_bind, Option.bind_some]
    split_ifs
    · obtain ⟨v, hv, hkv⟩ := expireNow_keeps hkt.1 comp
      exact ⟨true, v, by simp [hv], hkv.1, fun hs hl => hkv.2 (hkeep.2 hs hl) trivial⟩
    · exact ⟨ok, t, rfl, hkeep⟩

lemma Running.modify {f : Lease → Lease}
    (hf : ∀ l, (f l).pool = l.pool ∧ queueOf (f l) = queueOf l) :
    Running (s.modify i f) :=
  ⟨h.queued.modify fun _ => hf, h.ssQfollow⟩

omit h in
lemma releasedState_isValid (s : Db ι) (i : ι) : (s.releasedState i).isValid = true := by
  unfold releasedState
  extract_lets r
  split_ifs with hp hr
  · rcases hr.2 with ⟨-, hr⟩ | ⟨-, hr⟩ <;> rw [hr] <;> rfl
  · rfl
  · rfl

lemma releaseLease_keeps (i : ι) : ∃ t, s.releaseLease i = some t ∧ Keeps s t True := by
  have hu : Running (s.modify i fun l => { l with onRelease := none, onExpiry := none }) :=
    h.modify fun _ => ⟨rfl, rfl⟩
  have huv (hv : s.AllValid) :
      (s.modify i fun l => { l with onRelease := none, onExpiry := none }).AllValid :=
    hv.modify id
  unfold releaseLease
  generalize (s.modify i fun l => { l with onRelease := none, onExpiry := none }) = u at hu huv ⊢
  have hr : Running (u.modify i (releaseData u.curTime (u.releasedState i))) :=
    hu.modify fun _ => ⟨rfl, rfl⟩
  obtain ⟨ok, t, ht, hk⟩ := supersedeLease_keeps hr i none true true true
  have hkt : Keeps s t True := by
    refine ⟨hk.1, fun hv _ => hk.2 ?_ (by simp)⟩
    exact (huv hv).modify fun hl => ⟨hl.1, u.releasedState_isValid i⟩
  dsimp only
  cases (u.lease i).bindingState with
  | free | backup | released | expired | reset => exact ⟨u, rfl, hu, fun hv _ => huv hv⟩
  | active | abandoned | bogus => exact ⟨t, by simp [ht], hkt⟩

lemma abandonLease_keeps (i : ι) : ∃ t, s.abandonLease i = some t ∧ Keeps s t True := by
  obtain ⟨ok, t, ht, hk⟩ := supersedeLease_keeps h i
    (some (abandonData (s.curTime + s.abandonLeaseTime) (s.lease i))) true true true
  refine ⟨t, by simp [abandonLease, ht], hk.1, fun hv _ => hk.2 hv ?_⟩
  rintro l ⟨⟩
  rfl

end

end Db

/-! ### Runs -/

namespace QueueRun

/-- A call, or the passing of `d` seconds in which the failover peer may change. -/
inductive Op (ι : Type)
  | pass (d : ℕ) (peer : Peer ι)
  | supersede (comp : ι) (lease : Option Lease) (commit propogate pimmediate : Bool)
  | release (i : ι)
  | abandon (i : ι)
  | timer (p : ℕ)

/-- The sample lease, if there is one, is to move to a valid state. -/
def Op.SampleValid : Op ι → Prop
  | .supersede _ lease _ _ _ => ∀ l ∈ lease, l.nextBindingState.isValid = true
  | _ => True

variable [Fintype ι]

def step (s : Db ι) : Op ι → Option (Db ι)
  | .pass d peer => some { s with curTime := s.curTime + d, peer := peer }
  | .supersede comp lease commit propogate pimmediate =>
    (s.supersedeLease comp lease commit propogate pimmediate).map Prod.snd
  | .release i => s.releaseLease i
  | .abandon i => s.abandonLease i
  | .timer p => s.poolTimer p

def run (s : Db ι) (ops : List (Op ι)) : Option (Db ι) := ops.foldlM step s

variable {s : Db ι}

lemma step_keeps (h : s.Running) (op : Op ι) :
    ∃ t, step s op = some t ∧ s.Keeps t op.SampleValid := by
  cases op with
  | pass d peer =>
    exact ⟨_, rfl, ⟨{ h.queued with }, h.ssQfollow⟩, fun hv _ => hv⟩
  | supersede comp lease commit propogate pimmediate =>
    obtain ⟨ok, t, ht, hk⟩ := Db.supersedeLease_keeps h comp lease commit propogate pimmediate
    exact ⟨t, by simp [step, ht], hk⟩
  | release i => exact Db.releaseLease_keeps h i
  | abandon i => exact Db.abandonLease_keeps h i
  | timer p => exact Db.poolTimer_keeps h p

lemma run_keeps (h : s.Running) (ops : List (Op ι)) :
    ∃ t, run s ops = some t ∧ s.Keeps t (∀ op ∈ ops, op.SampleValid) := by
  induction ops generalizing s with
  | nil => exact ⟨s, rfl, h, fun hv _ => hv⟩
  | cons op ops ih =>
    obtain ⟨u, hu, hku⟩ := step_keeps h op
    obtain ⟨t, ht, hkt⟩ := ih hku.1
    refine ⟨t, by simpa [run, hu] using ht, hkt.1, fun hv hops => hkt.2 ?_ ?_⟩
    · exact hku.2 hv (hops op (by simp))
    · exact fun op' hop' => hops op' (by simp [hop'])

/-- What the queues of pool `p` hold: each the leases of the pool that `lease_enqueue` puts on
it, each lease once, and the two counters count their queues. -/
structure QueuesExact (s : Db ι) (p : ℕ) : Prop where
  mem : ∀ q i, i ∈ (s.pool p).queue q ↔ (s.lease i).pool = some p ∧ queueOf (s.lease i) = some q
  nodup : ∀ q, ((s.pool p).queue q).Nodup
  free : (s.pool p).freeLeases = ((s.pool p).queue .free).length
  backup : (s.pool p).backupLeases = ((s.pool p).queue .backup).length

lemma queuesExact (h : Queued s) (p : ℕ) : QueuesExact s p :=
  ⟨fun q i => by rw [h.mem]; simp, h.nodup p, h.free p, h.backup p⟩

/-- A lease with a valid state is on one queue, a lease with a bogus state on none. -/
lemma QueuesExact.unique {p : ℕ} (h : QueuesExact s p) {i : ι} (hp : (s.lease i).pool = some p) :
    ((s.lease i).bindingState.isValid = true → ∃! q, i ∈ (s.pool p).queue q) ∧
      ((s.lease i).bindingState.isValid = false → ∀ q, i ∉ (s.pool p).queue q) := by
  constructor
  · intro hv
    obtain ⟨q, hq⟩ := exists_queueOf hv
    refine ⟨q, (h.mem q i).mpr ⟨hp, hq⟩, fun q' hq' => ?_⟩
    simpa [hq] using ((h.mem q' i).mp hq').2.symm
  · intro hv q hq
    have := ((h.mem q i).mp hq).2
    rw [queueOf_eq_none.mpr hv] at this
    cases this

/-- **The lease queues**: from the state in which `lease_instantiate` has enqueued every lease,
with the server still starting or not, no sequence of calls ends in a fatal error, and the queues
are exact. A lease with a valid state is on exactly one queue, a lease with a bogus state on none;
if no lease starts in a bogus state and no sample lease is to move to one, every lease of a pool is
on exactly one queue. -/
theorem lease_queues_exact {s : Db ι} {leases : List ι} (hs : s.NoQueues) (hnd : leases.Nodup)
    (hall : ∀ i, i ∈ leases) (nosync : Bool) (ops : List (Op ι)) :
    ∃ t, run { s.instantiateAll leases with ssNosync := nosync } ops = some t ∧
      (∀ p, QueuesExact t p) ∧
      (∀ i p, (t.lease i).pool = some p →
        ((t.lease i).bindingState.isValid = true → ∃! q, i ∈ (t.pool p).queue q) ∧
        ((t.lease i).bindingState.isValid = false → ∀ q, i ∉ (t.pool p).queue q)) ∧
      (s.AllValid → (∀ op ∈ ops, op.SampleValid) →
        ∀ i p, (t.lease i).pool = some p → ∃! q, i ∈ (t.pool p).queue q) := by
  have h0 : Db.Running { s.instantiateAll leases with ssNosync := nosync } :=
    ⟨{ Db.instantiateAll_queued hs hnd hall with }, rfl⟩
  obtain ⟨t, ht, hk⟩ := run_keeps h0 ops
  have hexact := queuesExact hk.1.queued
  refine ⟨t, ht, hexact, fun i p hp => (hexact p).unique hp, fun hv hops i p hp => ?_⟩
  exact ((hexact p).unique hp).1 (hk.2 (Db.instantiateAll_valid hv) hops i).1

/-- A free and an active lease, the second of which expires. -/
theorem lease_queues_exact_sample :
    let s : Db (Fin 2) :=
      { lease := fun i => if i = 0 then { pool := some 0 } else
          { pool := some 0, bindingState := .active, nextBindingState := .free, ends := 5 } }
    let ops : List (Op (Fin 2)) := [.pass 7 {}, .timer 0, .abandon 0]
    ∃ t, run { s.instantiateAll [1, 0] with ssNosync := false } ops = some t ∧
      (∀ p, QueuesExact t p) ∧
      (∀ i p, (t.lease i).pool = some p →
        ((t.lease i).bindingState.isValid = true → ∃! q, i ∈ (t.pool p).queue q) ∧
        ((t.lease i).bindingState.isValid = false → ∀ q, i ∉ (t.pool p).queue q)) ∧
      (s.AllValid → (∀ op ∈ ops, op.SampleValid) →
        ∀ i p, (t.lease i).pool = some p → ∃! q, i ∈ (t.pool p).queue q) :=
  lease_queues_exact ⟨fun _ _ => rfl, fun _ => rfl, fun _ => rfl, rfl⟩ (by decide) (by decide) _ _

/-- A sample lease that is to move to a bogus state takes its lease off the queues. -/
theorem lease_queues_bogus : let s : Db (Fin 1) := { lease := fun _ => { pool := some 0 } }
    let lease : Lease := { nextBindingState := .bogus 9 }
    ((run (s.instantiateAll [0]) [.supersede 0 (some lease) true false false]).any fun t =>
      (t.lease 0).pool = some 0 ∧ ∀ q ∈ Queue.all, (0 : Fin 1) ∉ (t.pool 0).queue q) = true := by
  decide

end QueueRun

end IscDhcp
