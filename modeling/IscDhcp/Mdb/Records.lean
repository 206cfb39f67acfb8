import IscDhcp.Mdb.PoolTimer
import IscDhcp.Mdb.Log

/-!
The last record of each lease in the lease file, in a server without a failover peer whose writes
succeed.

`supersede_lease` changes one lease, and writes it if it is told to commit; so do the moves that
`pool_timer` makes. A lease is on record if it is not active, or if its last record is active and
ends with it. Every call that commits leaves the leases on record that were on record before, and
puts the lease it is about on record.
-/

namespace IscDhcp

open Option

variable {ι : Type} [DecidableEq ι]

/-- The record, if the effect is one of the lease. -/
def Effect.recordOf (i : ι) : Effect ι → Option Lease
  | .wrote j l => if j = i then some l else none
  | .committed | .replied _ _ => none

def lastRecord (log : List (Effect ι)) (i : ι) : Option Lease :=
  log.reverse.findSome? (Effect.recordOf i)

variable (log : List (Effect ι))

lemma lastRecord_concat (e : Effect ι) (i : ι) :
    lastRecord (log ++ [e]) i = (e.recordOf i).or (lastRecord log i) := by
  rw [lastRecord, List.reverse_concat, List.findSome?_cons]
  cases e.recordOf i <;> rfl

@[simp] lemma lastRecord_wrote_self (i : ι) (l : Lease) :
    lastRecord (log ++ [.wrote i l]) i = some l := by
  simp [lastRecord_concat, Effect.recordOf]

lemma lastRecord_wrote_of_ne {i j : ι} (h : j ≠ i) (l : Lease) :
    lastRecord (log ++ [.wrote i l]) j = lastRecord log j := by
  simp [lastRecord_concat, Effect.recordOf, h.symm]

@[simp] lemma lastRecord_committed (i : ι) :
    lastRecord (log ++ [.committed]) i = lastRecord log i := by
  simp [lastRecord_concat, Effect.recordOf]

@[simp] lemma lastRecord_replied (i j : ι) (st : LeaseState) :
    lastRecord (log ++ [.replied j st]) i = lastRecord log i := by
  simp [lastRecord_concat, Effect.recordOf]

namespace Db

variable {s t u : Db ι} {comp : ι}

/-- Writes succeed, and no pool has a peer. -/
structure Plain (s : Db ι) : Prop where
  io : s.io = []
  unpeered : ∀ p, (s.pool p).failoverPeer = false

lemma Plain.peered (h : Plain s) (i : ι) : s.peered i = false := by
  unfold Db.peered
  split
  exacts [rfl, h.unpeered _]

/-- Of the leases only `comp` was changed; it stays in its pool, and does not become static. -/
structure Touched (comp : ι) (s t : Db ι) : Prop where
  others : ∀ j, j ≠ comp → t.lease j = s.lease j
  records : ∀ j, j ≠ comp → lastRecord t.log j = lastRecord s.log j
  plain : Plain s → Plain t
  curTime : t.curTime = s.curTime
  pool : (t.lease comp).pool = (s.lease comp).pool
  dynamic : (s.lease comp).flags.staticLease = false → (t.lease comp).flags.staticLease = false

lemma Touched.refl (comp : ι) (s : Db ι) : Touched comp s s :=
  ⟨fun _ _ => rfl, fun _ _ => rfl, id, rfl, rfl, id⟩

lemma Touched.trans (h : Touched comp s t) (h' : Touched comp t u) : Touched comp s u :=
  ⟨fun j hj => (h'.others j hj).trans (h.others j hj),
    fun j hj => (h'.records j hj).trans (h.records j hj), h'.plain ∘ h.plain,
    h'.curTime.trans h.curTime, h'.pool.trans h.pool, h'.dynamic ∘ h.dynamic⟩

/-- Leases and records are the same, and so is what the moves depend on. -/
structure Alike (s t : Db ι) : Prop where
  lease : t.lease = s.lease
  log : t.log = s.log
  io : t.io = s.io
  unpeered : ∀ p, (t.pool p).failoverPeer = (s.pool p).failoverPeer
  curTime : t.curTime = s.curTime

lemma Alike.refl (s : Db ι) : Alike s s := ⟨rfl, rfl, rfl, fun _ => rfl, rfl⟩

lemma Alike.plain (h : Alike s t) (hs : Plain s) : Plain t :=
  ⟨h.io.trans hs.io, fun p => (h.unpeered p).trans (hs.unpeered p)⟩

lemma Alike.touched (h : Alike s t) (comp : ι) : Touched comp s t :=
  ⟨fun j _ => congrFun h.lease j, fun _ _ => by rw [h.log], h.plain, h.curTime,
    by rw [h.lease], by rw [h.lease]; exact id⟩

lemma touched_modify (s : Db ι) (comp : ι) {f : Lease → Lease}
    (hf : (f (s.lease comp)).pool = (s.lease comp).pool)
    (hd : (s.lease comp).flags.staticLease = false → (f (s.lease comp)).flags.staticLease = false) :
    Touched comp s (s.modify comp f) where
  others j hj := s.modify_lease_of_ne hj f
  records _ _ := rfl
  plain h := ⟨h.io, h.unpeered⟩
  curTime := rfl
  pool := by rw [modify_lease_self, hf]
  dynamic := by rwa [modify_lease_self]

lemma alike_setPool (s : Db ι) {p : ℕ} {x : Pool ι}
    (hx : x.failoverPeer = (s.pool p).failoverPeer) : Alike s (s.setPool p x) where
  lease := rfl
  log := rfl
  io := rfl
  curTime := rfl
  unpeered p' := by
    by_cases hp : p' = p
    · subst hp
      simpa [setPool] using hx
    · simp [setPool, hp]

lemma alike_schedulePool (s : Db ι) (p : ℕ) (e : Time) : Alike s (s.schedulePool p e) := by
  have h := s.alike_setPool (x := { s.pool p with nextEventTime := e }) rfl
  exact ⟨rfl, rfl, rfl, h.unpeered, rfl⟩

lemma alike_setCls (s : Db ι) (cls : ℕ → Class ι) : Alike s (s.setCls cls) :=
  ⟨rfl, rfl, rfl, fun _ => rfl, rfl⟩

lemma count_failoverPeer (x : Pool ι) (q : Queue) (d : ℤ) :
    (x.count q d).failoverPeer = x.failoverPeer := by
  cases q <;> rfl

/-! ### The parts of a move -/

lemma touched_clearAtsfp (s : Db ι) (comp : ι) (propogate : Bool) :
    Touched comp s (s.clearAtsfp comp propogate) := by
  unfold clearAtsfp
  split_ifs
  · exact s.touched_modify comp rfl id
  · exact .refl comp s

/-- The flags do not make the lease static. -/
def Plainly (flags : Option Flags) : Prop := ∀ f ∈ flags, f.staticLease = false

lemma plainly_none : Plainly none := by simp [Plainly]

variable {flags : Option Flags} {pimmediate propogate commit : Bool} {lease : Option Lease}

lemma movedOn_dynamic (hf : Plainly flags) (peered : Bool) (p : Peer ι) (trans : Bool) (l : Lease)
    (hl : l.flags.staticLease = false) :
    (movedOn peered p flags trans l).flags.staticLease = false := by
  unfold movedOn
  extract_lets m
  have hm : m.flags.staticLease = false := by
    cases flags with
    | none => exact hl
    | some f => simp [m, Flags.supersede, hl, hf f rfl]
  split_ifs
  · obtain ⟨-, -, -, -, -, h⟩ := transition_keeps peered p m
    rwa [h]
  · exact hm

lemma touched_moveOn (s : Db ι) (comp : ι) (hf : Plainly flags) (trans : Bool) :
    Touched comp s (s.moveOn comp flags trans) := by
  obtain ⟨cls, h⟩ := s.moveOn_eq comp flags trans
  rw [h]
  have hm := s.touched_modify comp (f := movedOn (s.peered comp) s.peer flags trans)
    (movedOn_keeps _ _ _ _ _).1 (movedOn_dynamic hf _ _ _ _)
  exact hm.trans ((alike_setCls _ cls).touched comp)

lemma moveOn_data (s : Db ι) (comp : ι) (flags : Option Flags) :
    ((s.moveOn comp flags true).lease comp).bindingState = (s.lease comp).nextBindingState ∧
      ((s.moveOn comp flags true).lease comp).ends = (s.lease comp).ends := by
  obtain ⟨cls, h⟩ := s.moveOn_eq comp flags true
  have hl : (s.moveOn comp flags true).lease comp =
      movedOn (s.peered comp) s.peer flags true (s.lease comp) := by
    rw [h]
    exact modify_lease_self ..
  rw [hl]
  exact ⟨movedOn_bindingState .., (movedOn_keeps ..).2.1⟩

lemma alike_leaseInsert (s : Db ι) (p : ℕ) (q : Queue) (comp : ι) :
    Alike s (s.leaseInsert p q comp) := by
  unfold leaseInsert
  extract_lets before old new
  have h := s.alike_setPool (x := (s.pool p).setQueue q new) rfl
  exact ⟨rfl, rfl, rfl, h.unpeered, rfl⟩

lemma touched_leaseEnqueue (s : Db ι) (comp : ι) : Touched comp s (s.leaseEnqueue comp).2 := by
  unfold leaseEnqueue
  cases (s.lease comp).pool with
  | none => exact .refl comp s
  | some p =>
    cases hq : queueOf (s.lease comp) with
    | none => exact .refl comp s
    | some q =>
      have h1 := (s.alike_setPool (count_failoverPeer (s.pool p) q 1)).touched comp
      have h2 := h1.trans (touched_modify _ comp (f := fun l => { l with
        sortTime := (s.setPool p ((s.pool p).count q 1)).sortTimeOf p q l }) rfl id)
      exact h2.trans ((alike_leaseInsert _ p q comp).touched comp)

/-- A lease that goes on a queue has a valid state, and is sorted by its end if it has no peer. -/
lemma leaseEnqueue_data (s : Db ι) (hs : Plain s) (comp : ι) (hp : (s.lease comp).pool ≠ none) :
    ((s.leaseEnqueue comp).2.lease comp).bindingState = (s.lease comp).bindingState ∧
      ((s.leaseEnqueue comp).2.lease comp).ends = (s.lease comp).ends ∧
      ((s.leaseEnqueue comp).1 = true →
        ((s.leaseEnqueue comp).2.lease comp).sortTime = (s.lease comp).ends) ∧
      ((s.leaseEnqueue comp).1 = false → (s.lease comp).bindingState ≠ .active) := by
  unfold leaseEnqueue
  cases hpool : (s.lease comp).pool with
  | none => exact absurd hpool hp
  | some p =>
    cases hq : queueOf (s.lease comp) with
    | none =>
      refine ⟨rfl, rfl, nofun, fun _ ha => ?_⟩
      simp [queueOf, ha] at hq
    | some q =>
      have hu : ((s.pool p).count q 1).failoverPeer = false := by
        rw [count_failoverPeer, hs.unpeered]
      simp [leaseInsert, setPool, sortTimeOf, hu]

lemma askAnd_plain (hs : Plain s) (e : Effect ι) : s.askAnd e = (true, s.emit e) := by
  rw [askAnd, ask_eq]
  simp [hs.io, emit]

lemma Plain.emit (hs : Plain s) (e : Effect ι) : Plain (s.emit e) := ⟨hs.io, hs.unpeered⟩

lemma commitLease_plain (hs : Plain s) (comp : ι) (propogate : Bool) :
    s.commitLease comp propogate = (true, s.emit (.wrote comp (s.lease comp))) ∨
      s.commitLease comp propogate =
        (true, (s.emit (.wrote comp (s.lease comp))).emit .committed) := by
  unfold commitLease
  simp only [hs.peered, Bool.and_false, Bool.false_and, Bool.false_eq_true, if_false, writeLease,
    askAnd_plain hs, commitLeases, askAnd_plain (hs.emit _)]
  split_ifs
  · exact .inl rfl
  · exact .inr rfl

/-- The lease is on record: it is not active, or its last record is active and ends with it. -/
def OnRecord (s : Db ι) (i : ι) : Prop :=
  (s.lease i).bindingState = .active →
    ∃ r, lastRecord s.log i = some r ∧ r.bindingState = .active ∧ r.ends = (s.lease i).ends

lemma alike_setPoolTimeout (s : Db ι) (comp : ι) (p : ℕ) : Alike s (s.setPoolTimeout comp p) := by
  unfold setPoolTimeout
  extract_lets t
  split_ifs
  · exact s.alike_schedulePool p t
  · exact .refl s

lemma alike_updateTimer (s : Db ι) (p : ℕ) (e : Time) : Alike s (s.updateTimer p e) := by
  unfold updateTimer
  extract_lets net
  split_ifs
  · exact s.alike_schedulePool p e
  · exact s.alike_setPool rfl

lemma touched_wrote (s : Db ι) (comp : ι) : Touched comp s (s.emit (.wrote comp (s.lease comp))) :=
  ⟨fun _ _ => rfl, fun _ hj => lastRecord_wrote_of_ne _ hj _, fun h => h.emit _, rfl, rfl, id⟩

lemma touched_committed (s : Db ι) (comp : ι) : Touched comp s (s.emit .committed) :=
  ⟨fun _ _ => rfl, fun _ _ => lastRecord_committed .., fun h => h.emit _, rfl, rfl, id⟩

variable [Fintype ι]

lemma propagate_plain (hs : Plain s) (comp : ι) (pimmediate : Bool) : s.propagate comp pimmediate =
      s.modify comp fun l => { l with desiredBindingState := l.bindingState } := by
  have hm : Plain (s.modify comp fun l => { l with desiredBindingState := l.bindingState }) :=
    ⟨hs.io, hs.unpeered⟩
  rw [propagate, dhcpFailoverQueueUpdate, hm.peered]
  rfl

/-- What the last step of a move leaves alone. -/
structure Same (comp : ι) (s t : Db ι) : Prop where
  touched : Touched comp s t
  bindingState : (t.lease comp).bindingState = (s.lease comp).bindingState
  ends : (t.lease comp).ends = (s.lease comp).ends
  sortTime : (t.lease comp).sortTime = (s.lease comp).sortTime

lemma Same.trans (h : Same comp s t) (h' : Same comp t u) : Same comp s u :=
  ⟨h.touched.trans h'.touched, h'.bindingState.trans h.bindingState, h'.ends.trans h.ends,
    h'.sortTime.trans h.sortTime⟩

lemma Same.of_lease (h : Touched comp s t) (hl : t.lease = s.lease) : Same comp s t := by
  refine ⟨h, ?_, ?_, ?_⟩ <;> rw [hl]

lemma Alike.same (h : Alike s t) (comp : ι) : Same comp s t := .of_lease (h.touched comp) h.lease

lemma commitLease_onRecord (hs : Plain s) (comp : ι) (propogate : Bool) :
    (s.commitLease comp propogate).1 = true ∧ Same comp s (s.commitLease comp propogate).2 ∧
      OnRecord (s.commitLease comp propogate).2 comp := by
  rcases commitLease_plain hs comp propogate with h | h
  · rw [h]
    exact ⟨rfl, .of_lease (s.touched_wrote comp) rfl,
      fun ha => ⟨s.lease comp, lastRecord_wrote_self .., ha, rfl⟩⟩
  · rw [h]
    refine ⟨rfl, .of_lease ((s.touched_wrote comp).trans (touched_committed _ comp)) rfl,
      fun ha => ⟨s.lease comp, ?_, ha, rfl⟩⟩
    exact (lastRecord_committed ..).trans (lastRecord_wrote_self ..)

lemma OnRecord.congr {i : ι} (h : OnRecord s i)
    (hb : (t.lease i).bindingState = (s.lease i).bindingState)
    (he : (t.lease i).ends = (s.lease i).ends) (hr : lastRecord t.log i = lastRecord s.log i) :
    OnRecord t i := by
  intro ha
  obtain ⟨r, h1, h2, h3⟩ := h (hb ▸ ha)
  exact ⟨r, hr.trans h1, h2, h3.trans he.symm⟩

lemma recordMove_plain (hs : Plain s) (comp : ι) (p : ℕ) (commit propogate pimmediate : Bool) :
    let r := s.recordMove comp p commit propogate pimmediate
    r.1 = true ∧ Same comp s r.2 ∧ (commit = true → OnRecord r.2 comp) := by
  have ht : Same comp s (if commit || !pimmediate then s.setPoolTimeout comp p else s) := by
    split_ifs
    · exact (s.alike_setPoolTimeout comp p).same comp
    · exact (Alike.refl s).same comp
  unfold recordMove
  generalize (if commit || !pimmediate then s.setPoolTimeout comp p else s) = u at ht
  have hc : let r := if commit then u.commitLease comp propogate else (true, u)
      r.1 = true ∧ Same comp u r.2 ∧ (commit = true → OnRecord r.2 comp) := by
    cases commit
    · exact ⟨rfl, (Alike.refl u).same comp, nofun⟩
    · obtain ⟨h1, h2, h3⟩ := commitLease_onRecord (ht.touched.plain hs) comp propogate
      exact ⟨h1, h2, fun _ => h3⟩
  dsimp only at hc ⊢
  generalize (if commit then u.commitLease comp propogate else (true, u)) = r at hc
  rcases r with ⟨ok, v⟩
  obtain ⟨rfl, hv, hrec⟩ := hc
  have hsv := ht.trans hv
  dsimp only
  split_ifs
  · rw [propagate_plain (hsv.touched.plain hs)]
    have hm : Same comp v
      (v.modify comp fun l => { l with desiredBindingState := l.bindingState }) :=
      ⟨v.touched_modify comp rfl id, by rw [modify_lease_self], by rw [modify_lease_self],
        by rw [modify_lease_self]⟩
    exact ⟨rfl, hsv.trans hm, fun hcom => (hrec hcom).congr hm.bindingState hm.ends rfl⟩
  · exact ⟨rfl, hsv, hrec⟩

/-! ### A move -/

/-- What a move does to the lease: it comes to its next state, or it was given a bogus one. -/
structure MovedTo (comp : ι) (s t : Db ι) (ok : Bool) : Prop where
  touched : Touched comp s t
  moved : ok = true → (t.lease comp).bindingState = (s.lease comp).nextBindingState ∧
    (t.lease comp).ends = (s.lease comp).ends ∧ (t.lease comp).sortTime = (s.lease comp).ends
  bogus : ok = false → (t.lease comp).bindingState ≠ .active

lemma not_active_of_queueOf {l : Lease} (h : queueOf l = none) : l.bindingState ≠ .active := by
  intro ha
  simp [queueOf, ha] at h

lemma touched_dequeue {p : ℕ} {q : Queue}
    (h : (s.setPool p ((s.pool p).count q (-1))).leaseRemove p q comp = some t) :
    Touched comp s t ∧ t.lease = s.lease := by
  have h1 := (s.alike_setPool (count_failoverPeer (s.pool p) q (-1))).touched comp
  unfold leaseRemove at h
  split_ifs at h
  cases h
  refine ⟨h1.trans ((alike_setPool _ ?_).touched comp), rfl⟩
  rfl

lemma justMoveIt_plain (hs : Plain s) (hf : Plainly flags) {ok : Bool}
    (hc : (commit || !pimmediate) = true) (hp : (s.lease comp).pool ≠ none)
    (h : s.justMoveIt comp flags commit propogate pimmediate = some (ok, t)) :
    MovedTo comp s t ok ∧ (commit = true → OnRecord t comp) := by
  have hv := s.touched_clearAtsfp comp propogate
  obtain ⟨a, ha⟩ := s.clearAtsfp_eq comp propogate
  have hl : (s.clearAtsfp comp propogate).lease comp = { s.lease comp with atsfp := a } := by
    rw [ha, modify_lease_self]
  unfold justMoveIt at h
  generalize s.clearAtsfp comp propogate = v at hv hl h
  simp only [hc] at h
  have hvp : (v.lease comp).pool = (s.lease comp).pool := hv.pool
  cases hpool : (v.lease comp).pool with
  | none => exact absurd (hvp.symm.trans hpool) hp
  | some p =>
    cases hq : queueOf (v.lease comp) with
    | none =>
      simp only [hpool, hq] at h
      obtain ⟨rfl, rfl⟩ := h
      have hb := not_active_of_queueOf hq
      exact ⟨⟨hv, nofun, fun _ => hb⟩, fun _ hact => absurd hact hb⟩
    | some q =>
      simp only [hpool, hq, bind_eq_bind, bind_eq_some_iff] at h
      obtain ⟨w, hw, h⟩ := h
      obtain ⟨hvw, hwl⟩ := touched_dequeue hw
      -- the lease in its new state
      have hm := (hv.trans hvw).trans (w.touched_moveOn comp hf true)
      obtain ⟨hmb, hme⟩ := w.moveOn_data comp flags
      rw [hwl, hl] at hmb hme
      generalize w.moveOn comp flags true = m at hm hmb hme h
      have hmp := hm.plain hs
      have hmpool : (m.lease comp).pool ≠ none := by rwa [hm.pool]
      have he := hm.trans (m.touched_leaseEnqueue comp)
      obtain ⟨hb, hends, hsort, hbogus⟩ := m.leaseEnqueue_data hmp comp hmpool
      generalize m.leaseEnqueue comp = r at he hb hends hsort hbogus h
      rcases r with ⟨_ | _, x⟩
      · obtain ⟨rfl, rfl⟩ := Prod.mk.inj (some.inj h)
        have hna : (x.lease comp).bindingState ≠ .active := by
          rw [hb]
          exact hbogus rfl
        exact ⟨⟨he, nofun, fun _ => hna⟩, fun _ hact => absurd hact hna⟩
      · obtain ⟨hok, hsame, hrec⟩ :=
          recordMove_plain (he.plain hs) comp p commit propogate pimmediate
        rw [some.inj h] at hok hsame hrec
        obtain rfl : ok = true := hok
        refine ⟨⟨he.trans hsame.touched, fun _ => ⟨?_, ?_, ?_⟩, nofun⟩, hrec⟩
        · rw [hsame.bindingState, hb, hmb]
        · rw [hsame.ends, hends, hme]
        · rw [hsame.sortTime, hsort rfl, hme]

/-! ### Leases on record -/

/-- Writes succeed, every lease is in a pool and none is static, and those not in `E` are on
record. -/
structure Filed (E : ι → Prop) (s : Db ι) : Prop where
  plain : Plain s
  pool : ∀ i, (s.lease i).pool ≠ none
  dynamic : ∀ i, (s.lease i).flags.staticLease = false
  onRecord : ∀ i, ¬ E i → OnRecord s i

variable {E F : ι → Prop}

lemma Filed.mono (h : Filed E s) (hEF : ∀ i, E i → F i) : Filed F s :=
  ⟨h.plain, h.pool, h.dynamic, fun i hi => h.onRecord i fun hE => hi (hEF i hE)⟩

lemma Filed.touched (h : Filed E s) (ht : Touched comp s t) : Filed (fun i => E i ∨ i = comp) t
    where
  plain := ht.plain h.plain
  pool i := by
    by_cases hi : i = comp
    · subst hi
      rw [ht.pool]
      exact h.pool i
    · rw [ht.others i hi]
      exact h.pool i
  dynamic i := by
    by_cases hi : i = comp
    · subst hi
      exact ht.dynamic (h.dynamic i)
    · rw [ht.others i hi]
      exact h.dynamic i
  onRecord i hi := by
    obtain ⟨hE, hi⟩ := not_or.mp hi
    have hl := ht.others i hi
    exact (h.onRecord i hE).congr (by rw [hl]) (by rw [hl]) (ht.records i hi)

lemma Filed.insert (h : Filed (fun i => E i ∨ i = comp) s) (hc : OnRecord s comp) : Filed E s := by
  refine ⟨h.plain, h.pool, h.dynamic, fun i hi => ?_⟩
  by_cases hic : i = comp
  · exact hic ▸ hc
  · exact h.onRecord i (not_or.mpr ⟨hi, hic⟩)

lemma Filed.justMoveIt (h : Filed (fun i => E i ∨ i = comp) s) (hf : Plainly flags) {ok : Bool}
    (hc : (commit || !pimmediate) = true)
    (ht : s.justMoveIt comp flags commit propogate pimmediate = some (ok, t)) :
    Filed (fun i => E i ∨ i = comp) t ∧ (commit = true ∨ ok = false → Filed E t) := by
  obtain ⟨hm, hrec⟩ := justMoveIt_plain h.plain hf hc (h.pool comp) ht
  have hk : Filed (fun i => E i ∨ i = comp) t :=
    (h.touched hm.touched).mono fun i hi => hi.elim id .inr
  refine ⟨hk, fun hco => hk.insert ?_⟩
  rcases hco with hco | hok
  · exact hrec hco
  · exact fun ha => absurd ha (hm.bogus hok)

lemma rewind_plain (hs : Plain s) (i : ι) : s.rewind i = s := by
  simp [rewind, hs.peered]

lemma Filed.congr (h : Filed E s) (ha : Alike s t) : Filed E t := by
  refine ⟨ha.plain h.plain, ?_, ?_, fun i hi => ?_⟩
  · rw [ha.lease]
    exact h.pool
  · rw [ha.lease]
    exact h.dynamic
  · exact (h.onRecord i hi).congr (by rw [ha.lease]) (by rw [ha.lease]) (by rw [ha.log])

lemma filed_timerInvariant (E : ι → Prop) : TimerInvariant (Filed (ι := ι) E) where
  move {s t i ok} h ht := by
    rw [rewind_plain h.plain] at ht
    exact ((h.mono fun _ => .inl).justMoveIt plainly_none rfl ht).2 (.inl rfl)
  updateTimer {s} p e h := h.congr (s.alike_updateTimer p e)

lemma clock_timerInvariant (E : ι → Prop) (c : Time) :
    TimerInvariant fun t : Db ι => Filed E t ∧ t.curTime = c where
  move {s t i ok} h ht := by
    refine ⟨(filed_timerInvariant E).move h.1 ht, ?_⟩
    rw [rewind_plain h.1.plain] at ht
    exact (justMoveIt_plain h.1.plain plainly_none rfl (h.1.pool i) ht).1.touched.curTime.trans h.2
  updateTimer {s} p e h :=
    ⟨(filed_timerInvariant E).updateTimer p e h.1, (s.alike_updateTimer p e).curTime.trans h.2⟩

/-! ### `supersede_lease` -/

lemma touched_copySample (s : Db ι) (comp : ι) (lt : Lease) :
    Touched comp s (s.copySample comp lt) ∧
      ((s.copySample comp lt).lease comp).nextBindingState = lt.nextBindingState ∧
      ((s.copySample comp lt).lease comp).ends = lt.ends := by
  obtain ⟨cls, uids, hws, b, h⟩ := s.copySample_eq comp lt
  have hm := s.touched_modify comp (f := sampled lt b) rfl id
  have ha (s : Db ι) : Alike s (s.setTables cls uids hws) := ⟨rfl, rfl, rfl, fun _ => rfl, rfl⟩
  have hl : (s.copySample comp lt).lease comp = Db.sampled lt b (s.lease comp) := by
    rw [h]
    exact modify_lease_self ..
  rw [hl, h]
  exact ⟨hm.trans ((ha _).touched comp), rfl, rfl⟩

def Dynamic (lease : Option Lease) : Prop := ∀ l ∈ lease, l.flags.staticLease = false

lemma Dynamic.plainly (h : Dynamic lease) : Plainly (lease.map Lease.flags) := by
  intro f hf
  obtain ⟨l, hl, rfl⟩ := mem_map.mp hf
  exact h l hl

lemma supersedeLease_cases (hd : Dynamic lease) {ok : Bool} (hc : (commit || !pimmediate) = true)
    (ht : s.supersedeLease comp lease commit propogate pimmediate = some (ok, t)) :
    ∃ u, (lease.elim s (s.copySample comp)).justMoveIt comp (lease.map Lease.flags) commit
        propogate pimmediate = some (ok, u) ∧
      ((ok = true ∧ u.expireNow comp = some t) ∨ (ok = false ∧ t = u)) := by
  unfold supersedeLease at ht
  rw [if_neg (by revert hc; cases commit <;> cases pimmediate <;> simp)] at ht
  rw [if_neg (by
    cases lease with
    | none => simp
    | some l => simp [hd l rfl])] at ht
  simp only [bind_eq_bind, bind_eq_some_iff] at ht
  obtain ⟨⟨ok', u⟩, hu, ht⟩ := ht
  simp only [hc, Bool.and_true] at ht
  cases ok' with
  | true =>
    simp only [if_true, bind_eq_some_iff] at ht
    obtain ⟨w, hw, ht⟩ := ht
    obtain ⟨rfl, rfl⟩ := Prod.mk.inj (some.inj ht)
    exact ⟨u, hu, .inl ⟨rfl, hw⟩⟩
  | false =>
    obtain ⟨rfl, rfl⟩ := Prod.mk.inj (some.inj ht)
    exact ⟨u, hu, .inr ⟨rfl, rfl⟩⟩

lemma Filed.sampled (h : Filed (fun i => E i ∨ i = comp) s) (lease : Option Lease) :
    Filed (fun i => E i ∨ i = comp) (lease.elim s (s.copySample comp)) := by
  cases lease with
  | none => exact h
  | some lt => exact (h.touched (s.touched_copySample comp lt).1).mono fun _ hi => hi.elim id .inr

/-- A call that commits leaves the lease on record, and so does one that fails. -/
lemma Filed.supersedeLease (h : Filed (fun i => E i ∨ i = comp) s) (hd : Dynamic lease) {ok : Bool}
    (hc : (commit || !pimmediate) = true)
    (ht : s.supersedeLease comp lease commit propogate pimmediate = some (ok, t)) :
    Filed (fun i => E i ∨ i = comp) t ∧ (commit = true ∨ ok = false → Filed E t) := by
  obtain ⟨u, hu, hut⟩ := supersedeLease_cases hd hc ht
  obtain ⟨hk, hco⟩ := (h.sampled lease).justMoveIt hd.plainly hc hu
  rcases hut with ⟨-, he⟩ | ⟨-, rfl⟩
  · exact ⟨(filed_timerInvariant _).expireNow hk he,
      fun h => (filed_timerInvariant _).expireNow (hco h) he⟩
  · exact ⟨hk, hco⟩

section

variable (h : Filed E s)

include h

lemma supersedeLease_data {lt : Lease} (hd : lt.flags.staticLease = false)
    (hc : (commit || !pimmediate) = true)
    (ht : s.supersedeLease comp (some lt) commit propogate pimmediate = some (true, t)) :
    t.curTime = s.curTime ∧ (s.curTime ≤ lt.ends →
      (t.lease comp).bindingState = lt.nextBindingState ∧ (t.lease comp).ends = lt.ends) := by
  have hdyn : Dynamic (some lt) := by simpa [Dynamic] using hd
  obtain ⟨u, hu, hut⟩ := supersedeLease_cases hdyn hc ht
  obtain ⟨hcs, hnext, hends⟩ := s.touched_copySample comp lt
  have hks := (h.mono (F := fun i => E i ∨ i = comp) fun _ => .inl).sampled (some lt)
  obtain ⟨hm, -⟩ := justMoveIt_plain hks.plain hdyn.plainly hc (hks.pool comp) hu
  obtain ⟨hb, hue, hsort⟩ := hm.moved rfl
  dsimp only [Option.elim] at hb hue hsort hm
  have hcur : u.curTime = s.curTime := hm.touched.curTime.trans hcs.curTime
  rcases hut with ⟨-, hex⟩ | ⟨hf, -⟩
  · have hku := (hks.justMoveIt hdyn.plainly hc hu).1
    refine ⟨((clock_timerInvariant _ _).expireNow ⟨hku, hcur⟩ hex).2, fun he => ?_⟩
    unfold expireNow at hex
    rw [if_neg fun hlt => Nat.not_lt.mpr he (by rw [← hends, ← hsort, ← hcur]; exact hlt.1)] at hex
    cases hex
    exact ⟨hb.trans hnext, hue.trans hends⟩
  · cases hf

lemma Filed.modify {f : Lease → Lease} (hp : (f (s.lease comp)).pool = (s.lease comp).pool)
    (hd : (s.lease comp).flags.staticLease = false → (f (s.lease comp)).flags.staticLease = false)
    (hb : (f (s.lease comp)).bindingState = (s.lease comp).bindingState)
    (he : (f (s.lease comp)).ends = (s.lease comp).ends) : Filed E (s.modify comp f) := by
  have hk := h.touched (s.touched_modify comp hp hd)
  refine ⟨hk.plain, hk.pool, hk.dynamic, fun i hi => ?_⟩
  by_cases hic : i = comp
  · subst hic
    refine (h.onRecord i hi).congr ?_ ?_ rfl
    · rw [modify_lease_self, hb]
    · rw [modify_lease_self, he]
  · exact hk.onRecord i (not_or.mpr ⟨hi, hic⟩)

omit h in
lemma dynamic_none : Dynamic none := by simp [Dynamic]

lemma Filed.releaseLease (ht : s.releaseLease comp = some t) : Filed E t := by
  have hu : Filed E (s.modify comp fun l => { l with onRelease := none, onExpiry := none }) :=
    h.modify rfl id rfl rfl
  unfold Db.releaseLease at ht
  extract_lets u at ht
  split at ht
  all_goals try exact some.inj ht ▸ hu
  all_goals
    obtain ⟨⟨ok, v⟩, hv, rfl⟩ := map_eq_some_iff.mp ht
    have hr := hu.touched (touched_modify u comp
      (f := releaseData u.curTime (u.releasedState comp)) rfl id)
    exact (hr.supersedeLease dynamic_none rfl hv).2 (.inl rfl)

lemma Filed.abandonLease (ht : s.abandonLease comp = some t) : Filed E t := by
  obtain ⟨⟨ok, v⟩, hv, rfl⟩ := map_eq_some_iff.mp ht
  have hd : Dynamic (some (abandonData (s.curTime + s.abandonLeaseTime) (s.lease comp))) := by
    intro l hl
    exact some.inj hl ▸ h.dynamic comp
  exact ((h.mono fun _ => .inl).supersedeLease hd rfl hv).2 (.inl rfl)

lemma Filed.poolTimer {p : ℕ} (ht : s.poolTimer p = some t) : Filed E t :=
  (filed_timerInvariant E).poolTimer h ht

omit h in
lemma Filed.writeLease (h : Filed (fun i => E i ∨ i = comp) s) :
    (s.writeLease comp).1 = true ∧ Filed E (s.writeLease comp).2 := by
  rw [Db.writeLease, askAnd_plain h.plain]
  have hk := (h.touched (s.touched_wrote comp)).mono fun _ hi => hi.elim id .inr
  exact ⟨rfl, hk.insert fun ha => ⟨_, lastRecord_wrote_self .., ha, rfl⟩⟩

lemma Filed.rebill (cls : ℕ → Class ι) (b : Option ℕ) : Filed E (s.rebill comp cls b) :=
  (h.modify (f := fun l => { l with billingClass := b }) rfl id rfl rfl).congr (alike_setCls _ cls)

lemma Filed.unbillClass (i : ι) : Filed E (s.unbillClass i) := by
  obtain ⟨cls, hb⟩ := s.unbillClass_eq i
  exact hb ▸ h.rebill cls none

lemma Filed.billClass (i : ι) (c : ℕ) : Filed E (s.billClass i c).2 := by
  obtain ⟨cls, b, hb⟩ := s.billClass_eq i c
  exact hb ▸ h.rebill cls b

end

end Db

end IscDhcp
