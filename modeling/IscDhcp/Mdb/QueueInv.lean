import IscDhcp.Mdb.Writes

/-!
The queues of a pool hold the leases they should.

`QueuedOn D` says this of the leases of `D`: a lease that is being moved is taken out of `D`
when it leaves its queue, its data may then change, and it is back in `D` once it is enqueued.
-/

namespace IscDhcp

variable {ι : Type}

/-- The queues of the pools hold exactly the leases of `D` that belong to them by their binding
state and flags, each once, and the counters are those numbers, up to `off`. -/
structure QueuedOn (D : ι → Prop) (s : Db ι) (off : ℕ → Queue → ℤ := fun _ _ => 0) : Prop where
  mem : ∀ p q i, i ∈ (s.pool p).queue q ↔
    D i ∧ (s.lease i).pool = some p ∧ queueOf (s.lease i) = some q
  nodup : ∀ p q, ((s.pool p).queue q).Nodup
  free : ∀ p, (s.pool p).freeLeases = ((s.pool p).queue .free).length + off p .free
  backup : ∀ p, (s.pool p).backupLeases = ((s.pool p).queue .backup).length + off p .backup

/-- Every lease is on its queue. -/
abbrev Queued (s : Db ι) (off : ℕ → Queue → ℤ := fun _ _ => 0) : Prop :=
  QueuedOn (fun _ => True) s off

variable {D D' : ι → Prop} {s t : Db ι} {off : ℕ → Queue → ℤ}

lemma QueuedOn.transfer (h : QueuedOn D s off)
    (hp : ∀ p, (t.pool p).queue = (s.pool p).queue ∧ (t.pool p).freeLeases = (s.pool p).freeLeases ∧
      (t.pool p).backupLeases = (s.pool p).backupLeases)
    (hl : ∀ i, D i → (t.lease i).pool = (s.lease i).pool ∧
      queueOf (t.lease i) = queueOf (s.lease i)) : QueuedOn D t off := by
  refine ⟨fun p q i => ?_, fun p q => ?_, fun p => ?_, fun p => ?_⟩
  · rw [(hp p).1, h.mem]
    exact and_congr_right fun hi => by rw [(hl i hi).1, (hl i hi).2]
  · rw [(hp p).1]
    exact h.nodup p q
  · rw [(hp p).1, (hp p).2.1, h.free]
  · rw [(hp p).1, (hp p).2.2, h.backup]

lemma QueuedOn.of_strip (h : QueuedOn D s off) (he : t.strip = s.strip) : QueuedOn D t off :=
  h.transfer
    (fun p => ⟨Db.eq_of_strip he (fun s => (s.pool p).queue), Db.eq_of_strip he (fun s =>
      (s.pool p).freeLeases), Db.eq_of_strip he (fun s => (s.pool p).backupLeases)⟩)
    fun i _ => ⟨Db.eq_of_strip he (fun s => (s.lease i).pool), Db.eq_of_strip he (fun s =>
      queueOf (s.lease i))⟩

/-! ### Taking a lease off its queue and putting it back -/

@[simp] lemma Pool.count_queue (x : Pool ι) (q : Queue) (d : ℤ) : (x.count q d).queue =
    x.queue := by
  cases q <;> rfl

lemma Pool.count_freeLeases (x : Pool ι) (q : Queue) (d : ℤ) :
    (x.count q d).freeLeases = x.freeLeases + if q = .free then d else 0 := by
  cases q <;> simp [Pool.count]

lemma Pool.count_backupLeases (x : Pool ι) (q : Queue) (d : ℤ) :
    (x.count q d).backupLeases = x.backupLeases + if q = .backup then d else 0 := by
  cases q <;> simp [Pool.count]

lemma QueuedOn.setQueue (h : QueuedOn D s off) {p : ℕ} {q : Queue} {l : List ι} {d : ℤ}
    (hnd : l.Nodup) (hlen : (l.length : ℤ) = ((s.pool p).queue q).length + d)
    (htp : t.pool = Function.update s.pool p (((s.pool p).count q d).setQueue q l))
    (hmem : ∀ i, i ∈ l ↔ D' i ∧ (t.lease i).pool = some p ∧ queueOf (t.lease i) = some q)
    (hother : ∀ p' q', ¬ (p' = p ∧ q' = q) → ∀ i,
      (D' i ∧ (t.lease i).pool = some p' ∧ queueOf (t.lease i) = some q' ↔
        D i ∧ (s.lease i).pool = some p' ∧ queueOf (s.lease i) = some q')) : QueuedOn D' t off := by
  have hq (p' : ℕ) (q' : Queue) : (t.pool p').queue q' =
      if p' = p ∧ q' = q then l else (s.pool p').queue q' := by
    rw [htp]
    by_cases hp' : p' = p
    · subst hp'
      by_cases hq' : q' = q
      · subst hq'
        simp [Pool.setQueue]
      · simp [Pool.setQueue, hq']
    · simp [hp']
  have hcount (q' : Queue) (c : Pool ι → ℤ) (hc : ∀ x : Pool ι, c (x.setQueue q l) = c x)
      (hd : c ((s.pool p).count q d) = c (s.pool p) + if q = q' then d else 0)
      (hs : ∀ p', c (s.pool p') = ((s.pool p').queue q').length + off p' q') (p' : ℕ) :
      c (t.pool p') = ((t.pool p').queue q').length + off p' q' := by
    by_cases hp' : p' = p
    · subst hp'
      rw [hq, htp, Function.update_self, hc, hd, hs]
      by_cases hqq : q = q'
      · subst hqq
        simp [hlen, Int.add_right_comm]
      · simp [hqq, Ne.symm hqq]
    · rw [hq, htp, Function.update_of_ne hp', hs, if_neg (fun h => hp' h.1)]
  refine ⟨fun p' q' i => ?_, fun p' q' => ?_, ?_, ?_⟩
  · rw [hq]
    split_ifs with hpq
    · rw [hmem, hpq.1, hpq.2]
    · rw [h.mem, hother p' q' hpq]
  · rw [hq]
    split_ifs
    exacts [hnd, h.nodup p' q']
  · exact hcount .free Pool.freeLeases (fun _ => rfl) (Pool.count_freeLeases ..) h.free
  · exact hcount .backup Pool.backupLeases (fun _ => rfl) (Pool.count_backupLeases ..) h.backup

variable [DecidableEq ι]

/-- A lease that is off the queues may change at will, and one that is on them within its queue. -/
lemma QueuedOn.modify (h : QueuedOn D s off) {i : ι} {f : Lease → Lease}
    (hf : D i → ∀ l, (f l).pool = l.pool ∧ queueOf (f l) = queueOf l) : QueuedOn D
      (s.modify i f) off := by
  refine h.transfer (fun p => ⟨rfl, rfl, rfl⟩) fun j hj => ?_
  by_cases hji : j = i
  · subst hji
    rw [Db.modify_lease_self]
    exact hf hj (s.lease j)
  · rw [Db.modify_lease_of_ne s hji]
    exact ⟨rfl, rfl⟩

namespace Db

def dequeue (s : Db ι) (p : ℕ) (q : Queue) (comp : ι) : Db ι :=
  s.setPool p (((s.pool p).count q (-1)).setQueue q (((s.pool p).queue q).erase comp))

lemma leaseRemove_eq {p : ℕ} {q : Queue} {comp : ι} (h : comp ∈ (s.pool p).queue q) :
    (s.setPool p ((s.pool p).count q (-1))).leaseRemove p q comp = some (s.dequeue p q comp) := by
  simp [leaseRemove, setPool, h, dequeue]

end Db

lemma QueuedOn.dequeue (h : QueuedOn D s off) {p : ℕ} {q : Queue} {comp : ι}
    (hc : comp ∈ (s.pool p).queue q) :
    QueuedOn (fun i => i ≠ comp ∧ D i) (s.dequeue p q comp) off := by
  have hcm := (h.mem p q comp).mp hc
  refine h.setQueue ((h.nodup p q).erase comp) ?_ rfl (fun i => ?_) fun p' q' hpq i => ?_
  · have := List.length_pos_of_mem hc
    rw [List.length_erase_of_mem hc]
    omega
  · rw [(h.nodup p q).mem_erase_iff, h.mem, and_assoc]
    rfl
  · have : i = comp → ¬ ((s.lease i).pool = some p' ∧ queueOf (s.lease i) = some q') := by
      rintro rfl ⟨hp', hq'⟩
      exact hpq ⟨by simpa [hp'] using hcm.2.1, by simpa [hq'] using hcm.2.2⟩
    tauto

lemma insertAfter_perm {r : ι → ι → Prop} [DecidableRel r] {last comp : ι} {l : List ι}
    (h : last ∈ l) : (insertAfter r last comp l).Perm (comp :: l) := by
  induction l with
  | nil => cases h
  | cons lp l ih =>
    unfold insertAfter
    split_ifs with hl
    · exact ((List.perm_orderedInsert r comp l).cons lp).trans (List.Perm.swap ..)
    · exact ((ih ((List.mem_cons.mp h).resolve_left (Ne.symm hl))).cons lp).trans
        (List.Perm.swap ..)

namespace Db

/-- The starting point for the insertion, if it is used, is on the queue. -/
def FollowOk (s : Db ι) : Prop :=
  s.ssQfollow = true → ∀ p q last, s.lastInsert = some (p, q, last) → last ∈ (s.pool p).queue q

lemma FollowOk.mem (h : s.FollowOk) {p : ℕ} {q : Queue} {comp last : ι}
    (hf : s.follow p q comp = some last) : last ∈ (s.pool p).queue q := by
  unfold follow at hf
  split at hf
  · rename_i hq hl
    split_ifs at hf with hc
    obtain ⟨rfl, rfl, -⟩ := hc
    exact h hq _ _ _ (by rw [hl, Option.some.inj hf])
  · cases hf

def before (s : Db ι) (a b : ι) : Prop := (s.lease a).sortTime ≤ (s.lease b).sortTime

instance (s : Db ι) : DecidableRel s.before := fun _ _ => Nat.decLe _ _

def inserted (s : Db ι) (p : ℕ) (q : Queue) (comp : ι) : List ι :=
  match s.follow p q comp with
  | some last => insertAfter s.before last comp ((s.pool p).queue q)
  | none => ((s.pool p).queue q).orderedInsert s.before comp

lemma inserted_perm (h : s.FollowOk) {p : ℕ} {q : Queue} {comp : ι} :
    (s.inserted p q comp).Perm (comp :: (s.pool p).queue q) := by
  unfold inserted
  split
  · exact insertAfter_perm (h.mem ‹_›)
  · exact List.perm_orderedInsert ..

def stamp (s : Db ι) (p : ℕ) (q : Queue) (comp : ι) : Db ι :=
  s.modify comp fun l => { l with sortTime := s.sortTimeOf p q l }

def enqueue (s : Db ι) (p : ℕ) (q : Queue) (comp : ι) : Db ι :=
  { (s.stamp p q comp).setPool p
      (((s.pool p).count q 1).setQueue q ((s.stamp p q comp).inserted p q comp)) with
    lastInsert := some (p, q, comp) }

lemma enqueue_lease_self (s : Db ι) (p : ℕ) (q : Queue) (comp : ι) :
    (s.enqueue p q comp).lease comp =
      { s.lease comp with sortTime := s.sortTimeOf p q (s.lease comp) } :=
  modify_lease_self s comp fun l => { l with sortTime := s.sortTimeOf p q l }

lemma enqueue_lease_of_ne (s : Db ι) (p : ℕ) (q : Queue) {comp i : ι} (h : i ≠ comp) :
    (s.enqueue p q comp).lease i = s.lease i :=
  modify_lease_of_ne s h fun l => { l with sortTime := s.sortTimeOf p q l }

lemma leaseEnqueue_eq {comp : ι} {p : ℕ} {q : Queue} (hp : (s.lease comp).pool = some p)
    (hq : queueOf (s.lease comp) = some q) : s.leaseEnqueue comp = (true, s.enqueue p q comp) := by
  have hfail : ((s.pool p).count q 1).failoverPeer = (s.pool p).failoverPeer := by
    cases q <;> rfl
  simp [leaseEnqueue, hp, hq, leaseInsert, enqueue, stamp, inserted, setPool, modify, setLease,
    sortTimeOf, hfail]
  rfl

lemma leaseEnqueue_eq_false {comp : ι}
    (h : (s.lease comp).pool = none ∨ queueOf (s.lease comp) = none) :
    s.leaseEnqueue comp = (false, s) := by
  unfold leaseEnqueue
  rcases h with h | h
  · rw [h]
  · cases (s.lease comp).pool with
    | none => rfl
    | some p => rw [h]

lemma leaseEnqueue_cases (s : Db ι) (comp : ι) :
    (((s.lease comp).pool = none ∨ queueOf (s.lease comp) = none) ∧
        s.leaseEnqueue comp = (false, s)) ∨
      ∃ p q, (s.lease comp).pool = some p ∧ queueOf (s.lease comp) = some q ∧
        s.leaseEnqueue comp = (true, s.enqueue p q comp) := by
  by_cases hb : (s.lease comp).pool = none ∨ queueOf (s.lease comp) = none
  · exact .inl ⟨hb, leaseEnqueue_eq_false hb⟩
  · rw [not_or, ← ne_eq, ← ne_eq, Option.ne_none_iff_exists', Option.ne_none_iff_exists'] at hb
    obtain ⟨⟨p, hp⟩, q, hq⟩ := hb
    exact .inr ⟨p, q, hp, hq, leaseEnqueue_eq hp hq⟩

end Db

lemma QueuedOn.congr (h : QueuedOn D s off) (hD : ∀ i, D' i ↔ D i) : QueuedOn D' s off := by
  rw [show D' = D from funext fun i => propext (hD i)]
  exact h

lemma QueuedOn.leaseEnqueue (h : QueuedOn D s off) (hf : s.FollowOk) {comp : ι} (hc : ¬ D comp) :
    QueuedOn (fun i => i = comp ∨ D i) (s.leaseEnqueue comp).2 off := by
  obtain ⟨hb, he⟩ | ⟨p, q, hp, hq, he⟩ := s.leaseEnqueue_cases comp
  · rw [he]
    refine ⟨fun p q i => ?_, h.nodup, h.free, h.backup⟩
    have : i = comp → ¬ ((s.lease i).pool = some p ∧ queueOf (s.lease i) = some q) := by
      rintro rfl ⟨hp, hq⟩
      simp [hp, hq] at hb
    rw [h.mem]
    tauto
  · rw [he]
    have hperm : ((s.stamp p q comp).inserted p q comp).Perm (comp :: (s.pool p).queue q) :=
      Db.inserted_perm (s := s.stamp p q comp) hf
    have hnot : comp ∉ (s.pool p).queue q := fun hm => hc ((h.mem p q comp).mp hm).1
    -- the sort time is no part of what the queues hold
    have hl (i : ι) : ((s.enqueue p q comp).lease i).pool = (s.lease i).pool ∧
        queueOf ((s.enqueue p q comp).lease i) = queueOf (s.lease i) := by
      by_cases hi : i = comp
      · subst hi
        rw [Db.enqueue_lease_self]
        exact ⟨rfl, rfl⟩
      · rw [Db.enqueue_lease_of_ne s p q hi]
        exact ⟨rfl, rfl⟩
    refine h.setQueue ?_ ?_ rfl (fun i => ?_) fun p' q' hpq i => ?_
    · exact hperm.nodup_iff.mpr (List.nodup_cons.mpr ⟨hnot, h.nodup p q⟩)
    · simp [hperm.length_eq]
    · rw [hperm.mem_iff, List.mem_cons, h.mem, (hl i).1, (hl i).2]
      have : i = comp → (s.lease i).pool = some p ∧ queueOf (s.lease i) = some q := by
        rintro rfl
        exact ⟨hp, hq⟩
      tauto
    · rw [(hl i).1, (hl i).2]
      have : i = comp → ¬ ((s.lease i).pool = some p' ∧ queueOf (s.lease i) = some q') := by
        rintro rfl ⟨hp', hq'⟩
        exact hpq ⟨by simpa [hp] using hp'.symm, by simpa [hq] using hq'.symm⟩
      tauto

end IscDhcp
