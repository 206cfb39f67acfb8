import IscDhcp.Dhcp.Admit
import IscDhcp.Mdb.Log

/-!
Acknowledgements that wait for the commit of the lease file (`DELAYED_ACK`).

A binding is written to the lease file when its acknowledgement is queued, and the file is
committed before the queue is sent. The invariant is that for every queued acknowledgement a record
of its binding is in the log.
-/

namespace IscDhcp.Dhcp

open List Option

variable {ι : Type} [DecidableEq ι] [Fintype ι]

namespace Server

variable {s t u : Server ι} {i : ι}

/-! ### What precedes the answer -/

/-- From `s` to `t` no answer was made, queued or sent. -/
structure Same (s t : Server ι) : Prop where
  state : t.state = s.state
  delayedAck : t.delayedAck = s.delayedAck
  ackqueue : t.ackqueue = s.ackqueue
  pinged : t.pinged = s.pinged
  failedCommits : t.failedCommits = s.failedCommits
  quiet : Quiet s.db t.db

lemma Same.refl (s : Server ι) : Same s s := ⟨rfl, rfl, rfl, rfl, rfl, .refl _⟩

lemma Same.trans (h : Same s t) (h' : Same t u) : Same s u :=
  ⟨h'.state.trans h.state, h'.delayedAck.trans h.delayedAck, h'.ackqueue.trans h.ackqueue,
    h'.pinged.trans h.pinged, h'.failedCommits.trans h.failedCommits, h.quiet.trans h'.quiet⟩

@[simp] lemma setState_self (s : Server ι) (i : ι) (o : Option LeaseState) :
    (s.setState i o).state i = o := Function.update_self ..

lemma same_setDb (s : Server ι) {db : Db ι} (h : Quiet s.db db) : Same s (s.setDb db) :=
  ⟨rfl, rfl, rfl, rfl, rfl, h⟩

lemma same_modify (s : Server ι) (i : ι) (f : Lease → Lease) : Same s (s.modify i f) :=
  s.same_setDb (.of_log rfl)

lemma same_setCannotReuse (s : Server ι) (i : ι) (b : Bool) : Same s (s.setCannotReuse i b) :=
  ⟨rfl, rfl, rfl, rfl, rfl, .refl _⟩

lemma same_ite {c : Prop} [Decidable c] (ht : Same s t) (hu : Same s u) :
    Same s (if c then t else u) := by
  split_ifs
  exacts [ht, hu]

end Server

open Server

variable {s t : Server ι} {i : ι} {offer : Offer} {cfg : Settings} {packet : Packet}

namespace Server

lemma same_admitInvariant (s : Server ι) (i : ι) : AdmitInvariant i (Same s) where
  forget h := h.trans (same_modify _ i _)
  releaseLease h hdb := h.trans (same_setDb _ (Db.quiet_releaseLease hdb))
  unbillClass h := h.trans (same_setDb _ (.of_log (Db.log_unbillClass _ i)))
  billClass c h := h.trans (same_setDb _ (.of_log (Db.log_billClass _ i c)))
  cannotReuse h := h.trans (same_setCannotReuse _ i true)

lemma same_prepare (s : Server ι) (i : ι) (offer : Offer) (cfg : Settings) (packet : Packet) :
    Same s (s.prepare i offer cfg packet) :=
  (same_ite (s.same_setCannotReuse i true) (.refl s)).trans (same_modify _ i _)

lemma same_reuseLease (s : Server ι) (i : ι) (offer : Offer) (cfg : Settings) (lt : Lease) :
    Same s (reuseLease s i offer cfg lt).2 := by
  unfold reuseLease
  split_ifs
  · exact (s.same_modify i _).trans (same_setCannotReuse _ i _)
  · exact s.same_setCannotReuse i _

lemma same_install {lt : Lease} {r : Bool × Bool × Server ι}
    (h : s.install i offer cfg lt = some r) : Same s r.2.2 := by
  have hr := s.same_reuseLease i offer cfg lt
  unfold install at h
  generalize reuseLease s i offer cfg lt = x at hr h
  rcases x with ⟨_ | _, u⟩
  · obtain ⟨y, hy, rfl⟩ := map_eq_some_iff.mp h
    refine Same.trans hr (same_setDb u ?_)
    unfold update at hy
    split_ifs at hy <;> exact Db.quiet_supersedeLease hy
  · exact some.inj h ▸ hr

/-- The answer is the last thing that is done, and nothing is done if there is none. -/
def Concludes (s : Server ι) (i : ι) (o : Option LeaseState) (t : Server ι) : Prop :=
  ∃ u : Server ι, Same s u ∧ ((o = none ∧ t = u) ∨ ∃ cfg st cltt bound,
    o = some st ∧ st.binding = none ∧ u.answer i cfg st cltt bound (u.delayedAck && bound) = some t)

variable {o : Option LeaseState}

lemma Concludes.of_same {u : Server ι} (h : Same s u) (hc : u.Concludes i o t) :
    s.Concludes i o t := by
  obtain ⟨w, hw, hc⟩ := hc
  exact ⟨w, h.trans hw, hc⟩

lemma concludes_none (h : Same s t) : s.Concludes i none t := ⟨t, h, .inl ⟨rfl, rfl⟩⟩

lemma concludes_finish {cltt expiry : Time} {bound : Bool}
    (h : s.finish i offer cfg cltt expiry bound = some (o, t)) : s.Concludes i o t := by
  unfold finish at h
  split_ifs at h
  · obtain ⟨u, hu, he⟩ := map_eq_some_iff.mp h
    cases he
    refine ⟨s, .refl s, .inr ⟨cfg, _, cltt, bound, rfl, ?_, hu⟩⟩
    unfold makeState
    split_ifs <;> rfl
  · cases h
    exact concludes_none (.refl s)

lemma concludes_ackLease {when : Time} {hp : Option ℕ}
    (h : s.ackLease packet i offer when cfg hp = some (o, t)) (hs : s.state i = none) :
    s.Concludes i o t := by
  unfold ackLease at h
  rw [if_neg (by simp [hs])] at h
  obtain ⟨⟨ok, u⟩, hu, h⟩ := bind_eq_some_iff.mp h
  refine Concludes.of_same ((s.same_admitInvariant i).admitClient (.refl s) hu) ?_
  dsimp only at h
  split_ifs at h
  · split at h
    · obtain ⟨rfl, rfl⟩ := Prod.mk.inj (some.inj h)
      exact concludes_none (.refl u)
    · refine Concludes.of_same (u.same_prepare i offer cfg packet) ?_
      unfold conclude at h
      generalize u.prepare i offer cfg packet = v at h
      dsimp only at h
      split_ifs at h
      · exact Concludes.of_same (v.same_modify i _) (concludes_finish h)
      · obtain ⟨⟨ok, bound, w⟩, hw, h⟩ := bind_eq_some_iff.mp h
        refine Concludes.of_same (same_install hw) ?_
        dsimp only at h
        split_ifs at h
        · exact concludes_finish h
        · exact concludes_finish h
        · obtain ⟨rfl, rfl⟩ := Prod.mk.inj (some.inj h)
          exact concludes_none (.refl w)
  · obtain ⟨rfl, rfl⟩ := Prod.mk.inj (some.inj h)
    exact concludes_none (.refl u)

end Server

/-! ### What has been committed -/

section Log

variable {log m : List (Effect ι)} {l : Lease} {st : LeaseState}

/-- A record of the lease was written, and the lease file was committed after that. -/
def Committed (log : List (Effect ι)) (i : ι) (l : Lease) : Prop :=
  ∃ a b c, log = (a ++ .wrote i l :: b) ++ .committed :: c

/-- Whenever an answer was given for which a binding was made, the binding had been committed. -/
def AnswersCommitted (log : List (Effect ι)) : Prop :=
  ∀ before i st after l, log = before ++ .replied i st :: after → st.binding = some l →
    Committed before i l

lemma Committed.append (h : Committed log i l) (m : List (Effect ι)) : Committed (log ++ m) i
    l := by
  obtain ⟨a, b, c, rfl⟩ := h
  exact ⟨a, b, c ++ m, by simp⟩

lemma committed_of_wrote (h : .wrote i l ∈ log) : Committed (log ++ [.committed]) i l := by
  obtain ⟨a, b, rfl⟩ := append_of_mem h
  exact ⟨a, b, [], rfl⟩

lemma concat_eq_append_cons {e x : Effect ι} {before after : List (Effect ι)}
    (h : log ++ [e] = before ++ x :: after) :
    (before = log ∧ x = e) ∨ ∃ after', log = before ++ x :: after' := by
  rcases after.eq_nil_or_concat with rfl | ⟨after', y, rfl⟩
  · obtain ⟨h1, h2⟩ := append_inj' h rfl
    exact .inl ⟨h1.symm, (cons.inj h2).1.symm⟩
  · refine .inr ⟨after', ?_⟩
    have h' : log ++ [e] = (before ++ x :: after') ++ [y] := by simpa using h
    exact (append_inj' h' rfl).1

lemma AnswersCommitted.reply (h : AnswersCommitted log)
    (hc : ∀ l, st.binding = some l → Committed log i l) :
    AnswersCommitted (log ++ [.replied i st]) := by
  intro before j st' after l he hl
  rcases concat_eq_append_cons he with ⟨rfl, hx⟩ | ⟨after', he'⟩
  · cases hx
    exact hc l hl
  · exact h before j st' after' l he' hl

lemma AnswersCommitted.quiet (h : AnswersCommitted log) (hm : ∀ e ∈ m, e.quiet) :
    AnswersCommitted (log ++ m) := by
  induction m using reverseRecOn with
  | nil => rwa [append_nil]
  | append_singleton m e ih =>
    intro before j st after l he hl
    rw [← append_assoc] at he
    rcases concat_eq_append_cons he with ⟨-, hx⟩ | ⟨after', he'⟩
    · have := hm e (by simp)
      rw [← hx] at this
      exact absurd this (by simp [Effect.quiet])
    · exact ih (fun x hx => hm x (by simp [hx])) before j st after' l he' hl

lemma AnswersCommitted.of_quiet {v w : Db ι} (h : AnswersCommitted v.log) (hq : Quiet v w) :
    AnswersCommitted w.log := by
  obtain ⟨m, hm, hq⟩ := hq
  exact hm ▸ h.quiet hq

lemma Committed.of_quiet {v w : Db ι} (h : Committed v.log i l) (hq : Quiet v w) :
    Committed w.log i l := by
  obtain ⟨m, hm, -⟩ := hq
  exact hm ▸ h.append m

end Log

/-! ### Runs -/

/-- The steps of the server. Anything else it does to the database, it does without an answer. -/
inductive Step : Server ι → Server ι → Prop
  | ackLease {s t : Server ι} {packet : Packet} {i : ι} {offer : Offer} {when : Time}
      {cfg : Settings} {hp : Option ℕ} {o : Option LeaseState}
      (h : s.ackLease packet i offer when cfg hp = some (o, t)) : Step s t
  | delayedAcksTimer (s : Server ι) : Step s s.delayedAcksTimer
  | leasePingTimeout {s t : Server ι} {i : ι} (hi : i ∈ s.pinged)
      (h : s.leasePingTimeout i = some t) : Step s t
  | leasePinged {s t : Server ι} {i : ι} (h : s.leasePinged i = some t) : Step s t
  | other (s : Server ι) {db : Db ι} (h : Quiet s.db db) : Step s (s.setDb db)

/-- No commit fails before acknowledgements are sent, and those that wait for it are left alone. -/
structure Sound (s t : Server ι) : Prop where
  commits : t.failedCommits = s.failedCommits
  waiting : ∀ i ∈ s.ackqueue, i ∈ t.ackqueue → t.state i = s.state i

structure Fresh (s : Server ι) : Prop where
  ackqueue : s.ackqueue = []
  pinged : s.pinged = []
  log : ∀ e ∈ s.db.log, e.quiet

/-- The binding of every acknowledgement that waits has been written, and what waits for a ping
makes no binding. -/
structure Inv (s : Server ι) : Prop where
  delayedAck : s.delayedAck = true
  queued : ∀ i ∈ s.ackqueue, ∃ st l, s.state i = some st ∧ st.binding = some l ∧
    .wrote i l ∈ s.db.log
  pinged : ∀ i ∈ s.pinged, ∃ st, s.state i = some st ∧ st.binding = none
  answers : AnswersCommitted s.db.log

lemma Fresh.inv (h : Fresh s) (hd : s.delayedAck = true) : Inv s where
  delayedAck := hd
  queued i hi := by simp [h.ackqueue] at hi
  pinged i hi := by simp [h.pinged] at hi
  answers := AnswersCommitted.quiet
    (show AnswersCommitted ([] : List (Effect ι)) from fun _ _ _ _ _ he => by simp at he) h.log

lemma mem_log_of_quiet {v w : Db ι} (h : Quiet v w) {e : Effect ι} (he : e ∈ v.log) : e ∈
    w.log := by
  obtain ⟨m, hm, -⟩ := h
  exact hm ▸ mem_append_left m he

lemma Inv.notMem_ackqueue (h : Inv s) (hb : ∀ st, s.state i = some st → st.binding = none) :
    i ∉ s.ackqueue := by
  intro hi
  obtain ⟨st, l, h1, h2, -⟩ := h.queued i hi
  rw [hb st h1] at h2
  cases h2

lemma Inv.of_same (h : Inv s) (hs : Same s t) : Inv t where
  delayedAck := hs.delayedAck.trans h.delayedAck
  queued i hi := by
    obtain ⟨st, l, h1, h2, h3⟩ := h.queued i (hs.ackqueue ▸ hi)
    exact ⟨st, l, hs.state ▸ h1, h2, mem_log_of_quiet hs.quiet h3⟩
  pinged i hi := hs.state ▸ h.pinged i (hs.pinged ▸ hi)
  answers := h.answers.of_quiet hs.quiet

namespace Server

/-- The acknowledgements in `q` are sent, and nothing else. -/
structure Sent (q : List ι) (s t : Server ι) : Prop where
  state : ∀ i, t.state i = s.state i ∨ i ∈ q ∧ t.state i = none
  delayedAck : t.delayedAck = s.delayedAck
  pinged : t.pinged = s.pinged
  failedCommits : t.failedCommits = s.failedCommits
  log : ∃ m, t.db.log = s.db.log ++ m
  answers : AnswersCommitted t.db.log

def Ready (q : List ι) (s : Server ι) : Prop :=
  ∀ i ∈ q, ∀ st l, s.state i = some st → st.binding = some l → Committed s.db.log i l

lemma same_sendDeferred (s : Server ι) (i : ι) : Same s (s.sendDeferred i) :=
  same_ite (s.same_setDb s.db.quiet_sendUpdates) (.refl s)

lemma Sent.ready {q r : List ι} (h : Sent r s t) (hs : Ready q s) : Ready q t := by
  intro i hi st l hst hl
  obtain ⟨m, hm⟩ := h.log
  rcases h.state i with he | ⟨-, he⟩
  · exact hm ▸ (hs i hi st l (he ▸ hst) hl).append m
  · rw [he] at hst
    cases hst

lemma sent_sendDelayed (ha : AnswersCommitted s.db.log) (hr : Ready [i] s) :
    Sent [i] s (s.sendDelayed i) := by
  have hd := s.same_sendDeferred i
  unfold sendDelayed dhcpReply
  generalize s.sendDeferred i = u at hd
  obtain ⟨m, hm, -⟩ := hd.quiet
  have hau := ha.of_quiet hd.quiet
  dsimp only
  cases hst : u.state i with
  | none =>
    exact ⟨fun j => .inl (congrFun hd.state j), hd.delayedAck, hd.pinged, hd.failedCommits,
      ⟨m, hm⟩, hau⟩
  | some st =>
    refine ⟨fun j => ?_, hd.delayedAck, hd.pinged, hd.failedCommits, ⟨m ++ [.replied i st], ?_⟩, ?_⟩
    · by_cases hj : j = i
      · exact .inr ⟨by simp [hj], by rw [hj]; exact setState_self ..⟩
      · exact .inl (by simpa [setState, setDb, hj] using congrFun hd.state j)
    · simp [setState, setDb, Db.emit, hm]
    · refine hau.reply fun l hl => ?_
      exact (hr i (by simp) st l (hd.state ▸ hst) hl).of_quiet hd.quiet

lemma Sent.trans {q r : List ι} {u : Server ι} (h : Sent q s t) (h' : Sent r t u) :
    Sent (q ++ r) s u where
  state i := by
    rcases h'.state i with hu | ⟨hi, hu⟩
    · rcases h.state i with ht | ⟨hi, ht⟩
      · exact .inl (hu.trans ht)
      · exact .inr ⟨mem_append_left r hi, hu.trans ht⟩
    · exact .inr ⟨mem_append_right q hi, hu⟩
  delayedAck := h'.delayedAck.trans h.delayedAck
  pinged := h'.pinged.trans h.pinged
  failedCommits := h'.failedCommits.trans h.failedCommits
  log := by
    obtain ⟨m, hm⟩ := h.log
    obtain ⟨m', hm'⟩ := h'.log
    exact ⟨m ++ m', by rw [hm', hm, append_assoc]⟩
  answers := h'.answers

lemma sent_foldl (q : List ι) (ha : AnswersCommitted s.db.log) (hr : Ready q s) :
    Sent q s (q.foldl sendDelayed s) := by
  induction q generalizing s with
  | nil => exact ⟨fun _ => .inl rfl, rfl, rfl, rfl, ⟨[], by simp⟩, ha⟩
  | cons i q ih =>
    have h1 : Sent [i] s (s.sendDelayed i) :=
      sent_sendDelayed ha fun j hj => hr j (mem_cons.mpr (.inl (mem_singleton.mp hj)))
    have h2 := ih h1.answers (h1.ready fun j hj => hr j (by simp [hj]))
    exact h1.trans h2

lemma failedCommits_foldl (q : List ι) (s : Server ι) :
    (q.foldl sendDelayed s).failedCommits = s.failedCommits := by
  induction q generalizing s with
  | nil => rfl
  | cons i q ih =>
    rw [foldl_cons, ih, ← (s.same_sendDeferred i).failedCommits, sendDelayed, dhcpReply]
    cases (s.sendDeferred i).state i <;> rfl

lemma commitDelayed_spec (h : Inv s) : Inv s.commitDelayed ∧
      (s.commitDelayed.failedCommits = s.failedCommits → Ready s.ackqueue s.commitDelayed) := by
  have hq := s.db.quiet_commitLeases
  refine ⟨⟨h.delayedAck, fun i hi => ?_, h.pinged, h.answers.of_quiet hq⟩, fun hc => ?_⟩
  · obtain ⟨st, l, h1, h2, h3⟩ := h.queued i hi
    exact ⟨st, l, h1, h2, mem_log_of_quiet hq h3⟩
  · have hio : s.db.io.headD true = true := by
      have hc' : s.failedCommits + (if s.db.commitLeases.1 then 0 else 1) = s.failedCommits := hc
      rw [Db.commitLeases, Db.askAnd_eq] at hc'
      split_ifs at hc' with hio
      · exact hio
      · omega
    have hlog : s.commitDelayed.db.log = s.db.log ++ [.committed] := by
      change s.db.commitLeases.2.log = _
      rw [Db.commitLeases, Db.askAnd_eq]
      exact if_pos hio
    -- what was written before the commit is committed by it
    intro i hi st l hst hl
    obtain ⟨st', l', h1, h2, h3⟩ := h.queued i hi
    cases h1.symm.trans hst
    cases h2.symm.trans hl
    exact hlog ▸ committed_of_wrote h3

lemma inv_sendQueue (h : Inv s) (hr : Ready s.ackqueue s) : Inv s.sendQueue := by
  have hs := sent_foldl s.ackqueue.reverse h.answers fun i hi => hr i (mem_reverse.mp hi)
  refine ⟨hs.delayedAck.trans h.delayedAck, nofun, fun i hi => ?_, hs.answers⟩
  obtain ⟨st, hst, hb⟩ := h.pinged i (hs.pinged ▸ hi)
  rcases hs.state i with he | ⟨hq, -⟩
  · exact ⟨st, he.trans hst, hb⟩
  · refine absurd (mem_reverse.mp hq) (h.notMem_ackqueue fun st' h' => ?_)
    cases hst.symm.trans h'
    exact hb

lemma inv_delayedAcksTimer (h : Inv s)
    (hc : s.delayedAcksTimer.failedCommits = s.failedCommits) : Inv s.delayedAcksTimer := by
  unfold delayedAcksTimer at hc ⊢
  split_ifs at hc ⊢
  · exact h
  · obtain ⟨hi, hr⟩ := commitDelayed_spec h
    exact inv_sendQueue hi (hr ((failedCommits_foldl _ _).symm.trans hc))

lemma inv_delayedAckEnqueue (h : Inv s) {st : LeaseState} (hst : s.state i = some st)
    (hb : st.binding = some (s.db.lease i))
    (hc : (s.delayedAckEnqueue i).failedCommits = s.failedCommits) :
    Inv (s.delayedAckEnqueue i) := by
  have hq := s.db.quiet_writeLease i
  have hw : (s.db.writeLease i).1 = true →
      (s.db.writeLease i).2.log = s.db.log ++ [.wrote i (s.db.lease i)] := by
    rw [Db.writeLease, Db.askAnd_eq]
    exact fun hio => if_pos hio
  unfold delayedAckEnqueue at hc ⊢
  generalize s.db.writeLease i = r at hq hw hc ⊢
  rcases r with ⟨_ | _, db⟩
  · exact h.of_same (s.same_setDb hq)
  · have hu : Inv ((s.setDb db).pushAck i) := by
      refine ⟨h.delayedAck, fun j hj => ?_, h.pinged, h.answers.of_quiet hq⟩
      rcases mem_cons.mp hj with rfl | hj
      · exact ⟨st, _, hst, hb, (hw rfl).symm ▸ mem_concat_self⟩
      · obtain ⟨st', l, h1, h2, h3⟩ := h.queued j hj
        exact ⟨st', l, h1, h2, mem_log_of_quiet hq h3⟩
    dsimp only [flushAcks] at hc ⊢
    split_ifs at hc ⊢
    · exact inv_delayedAcksTimer hu hc
    · exact hu

end Server

section

variable (h : Inv s)

include h

lemma Inv.not_mem (hs : s.state i = none) : i ∉ s.ackqueue ∧ i ∉ s.pinged := by
  refine ⟨h.notMem_ackqueue (by simp [hs]), fun hi => ?_⟩
  obtain ⟨st, hst, -⟩ := h.pinged i hi
  rw [hs] at hst
  cases hst

lemma Inv.unping (i : ι) : Inv { s with
    pinged := s.pinged.filter (· ≠ i), outstandingPings := s.outstandingPings - 1 } :=
  { h with pinged := fun j hj => h.pinged j (mem_of_mem_filter hj) }

lemma Inv.setState (hq : i ∉ s.ackqueue) (hp : i ∉ s.pinged) (o : Option LeaseState) :
    Inv (s.setState i o) where
  delayedAck := h.delayedAck
  queued j hj := by
    have hne : j ≠ i := fun he => hq (he ▸ hj)
    simpa [Server.setState, hne] using h.queued j hj
  pinged j hj := by
    have hne : j ≠ i := fun he => hp (he ▸ hj)
    simpa [Server.setState, hne] using h.pinged j hj
  answers := h.answers

lemma Inv.dhcpReply (hq : i ∉ s.ackqueue) (hp : i ∉ s.pinged)
    (hb : ∀ st, s.state i = some st → st.binding = none) (ht : s.dhcpReply i = some t) : Inv t := by
  obtain ⟨st, hst, rfl⟩ := map_eq_some_iff.mp ht
  have hr : Inv (s.setDb (s.db.emit (.replied i st))) := by
    refine ⟨h.delayedAck, fun j hj => ?_, h.pinged, ?_⟩
    · obtain ⟨st', l, h1, h2, h3⟩ := h.queued j hj
      exact ⟨st', l, h1, h2, mem_append_left _ h3⟩
    · refine h.answers.reply fun l hl => ?_
      rw [hb st hst] at hl
      cases hl
  exact hr.setState hq hp none

lemma Inv.answer (hs : s.state i = none) {st : LeaseState} (hb : st.binding = none)
    {cltt : Time} {bound : Bool}
    (ht : s.answer i cfg st cltt bound (s.delayedAck && bound) = some t)
    (hc : t.failedCommits = s.failedCommits) : Inv t := by
  obtain ⟨hq, hp⟩ := h.not_mem hs
  unfold Server.answer at ht
  by_cases hping : s.pings i st.offer cfg cltt = true
  · -- the offer waits for the ping
    rw [if_pos hping] at ht
    cases ht
    have hi := h.setState hq hp (some st)
    refine { hi with pinged := fun j hj => ?_ }
    rcases mem_cons.mp hj with rfl | hj
    · exact ⟨st, setState_self .., hb⟩
    · exact hi.pinged j (mem_of_mem_filter hj)
  rw [if_neg hping, h.delayedAck, Bool.true_and] at ht
  have hu := s.same_modify i fun l => { l with cltt := s.db.curTime }
  have hi : Inv (s.hold i st bound) :=
    (h.of_same hu).setState (hu.ackqueue ▸ hq) (hu.pinged ▸ hp) (some _)
  cases bound with
  | true =>
    cases ht
    exact inv_delayedAckEnqueue hi (setState_self ..) rfl hc
  | false =>
    refine hi.dhcpReply hq hp (fun st' hst' => ?_) ht
    rw [hold, setState_self] at hst'
    cases hst'
    rfl

/-! ### The commit before the answer -/

lemma Inv.ackLease {when : Time} {hp : Option ℕ} {o : Option LeaseState}
    (ht : s.ackLease packet i offer when cfg hp = some (o, t))
    (hc : t.failedCommits = s.failedCommits) : Inv t := by
  cases hi : s.state i with
  | some st =>
    rw [Server.ackLease, if_pos (by simp [hi])] at ht
    exact (Prod.mk.inj (some.inj ht)).2 ▸ h
  | none =>
    obtain ⟨u, hu, ⟨-, rfl⟩ | ⟨cfg, st, cltt, bound, -, hb, ha⟩⟩ := concludes_ackLease ht hi
    · exact h.of_same hu
    · exact (h.of_same hu).answer (hu.state ▸ hi) hb ha (hc.trans hu.failedCommits.symm)

lemma Inv.leasePingTimeout (hi : i ∈ s.pinged) (ht : s.leasePingTimeout i = some t) : Inv t := by
  obtain ⟨st, hst, hb⟩ := h.pinged i hi
  have hb' (st') (hst' : s.state i = some st') : st'.binding = none := by
    cases hst.symm.trans hst'
    exact hb
  exact (h.unping i).dhcpReply (h.notMem_ackqueue hb') (by simp) hb' ht

/-- An acknowledgement that waits would go stale. -/
lemma Inv.leasePinged (hs : Sound s t) (ht : s.leasePinged i = some t) : Inv t := by
  unfold Server.leasePinged at ht
  split_ifs at ht with hn
  · exact some.inj ht ▸ h
  · obtain ⟨db, hdb, rfl⟩ := map_eq_some_iff.mp ht
    have hq : i ∉ s.ackqueue := by
      intro hq
      have hst : s.state i = none := (hs.waiting i hq hq).symm.trans (setState_self s i none)
      exact hn (.inr (by simp [hst]))
    have hd := h.of_same (s.same_setDb (Db.quiet_abandonLease hdb))
    exact (hd.unping i).setState hq (by simp) none

lemma Inv.step (hst : Step s t) (hs : Sound s t) : Inv t := by
  cases hst with
  | ackLease ht => exact h.ackLease ht hs.commits
  | delayedAcksTimer => exact inv_delayedAcksTimer h hs.commits
  | leasePingTimeout hi ht => exact h.leasePingTimeout hi ht
  | leasePinged ht => exact h.leasePinged hs ht
  | other hq => exact h.of_same (s.same_setDb hq)

end

/-- **No acknowledgement before the commit**: in every run in which no commit of
`delayed_acks_timer` fails and no stray echo reply takes an acknowledgement out of the queue, each
answer that makes a binding is sent after a record of the binding was written and after a later
commit of the lease file. -/
theorem acknowledged_after_commit (hf : Fresh s) (hd : s.delayedAck = true)
    (h : Relation.ReflTransGen (fun s t => Step s t ∧ Sound s t) s t) :
    AnswersCommitted t.db.log := by
  have hi : Inv t := by
    induction h with
    | refl => exact hf.inv hd
    | tail _ hst ih => exact ih.step hst.1 hst.2
  exact hi.answers

/-- One free lease, and a server that is to meet with the results `io`. -/
def sampleServer (io : List Bool) : Server Unit where
  db :=
    { lease := fun _ => { pool := some 0 }
      pool := fun _ => { queue := fun q => if q = .free then [()] else [], freeLeases := 1 }
      curTime := 1000
      io := io }
  delayedAck := true

def samplePacket : Packet := { request := true, hardwareAddr := [1, 2, 3] }

def sampleQueued (io : List Bool) : Server Unit :=
  (((sampleServer io).ackLease samplePacket () .dhcpack 0 {} none).map Prod.snd).getD
    (sampleServer io)

lemma fresh_sampleServer (io : List Bool) : Fresh (sampleServer io) :=
  ⟨rfl, rfl, by simp [sampleServer]⟩

lemma step_sampleQueued (io : List Bool)
    (h : ((sampleServer io).ackLease samplePacket () .dhcpack 0 {} none).isSome) :
    Step (sampleServer io) (sampleQueued io) := by
  obtain ⟨⟨o, t⟩, ht⟩ := isSome_iff_exists.mp h
  exact .ackLease (by rw [ht, sampleQueued, ht]; rfl)

theorem acknowledged_after_commit_sample :
    AnswersCommitted (sampleQueued []).delayedAcksTimer.db.log := by
  have hq : Step (sampleServer []) (sampleQueued []) := step_sampleQueued [] (by decide +kernel)
  have hsq : Sound (sampleServer []) (sampleQueued []) :=
    ⟨by decide +kernel, by simp [sampleServer]⟩
  have hst : Sound (sampleQueued []) (sampleQueued []).delayedAcksTimer :=
    ⟨by decide +kernel, by decide +kernel⟩
  exact acknowledged_after_commit (fresh_sampleServer []) rfl
    ((Relation.ReflTransGen.refl.tail ⟨hq, hsq⟩).tail ⟨.delayedAcksTimer _, hst⟩)

/-- The commit fails, and the binding is acknowledged all the same. -/
theorem acknowledged_without_commit : ∃ (s t : Server Unit) (st : LeaseState) (l : Lease),
    Fresh s ∧ s.delayedAck = true ∧ Relation.ReflTransGen Step s t ∧ st.offer = .dhcpack ∧
      st.binding = some l ∧ t.db.log = [.wrote () l, .replied () st] := by
  let u := sampleQueued [true, false]
  have hq : Step (sampleServer [true, false]) u := step_sampleQueued _ (by decide +kernel)
  refine ⟨sampleServer [true, false], u.delayedAcksTimer,
    (u.state ()).getD { offer := .bootp }, u.db.lease (),
    fresh_sampleServer _, rfl, (Relation.ReflTransGen.refl.tail hq).tail (.delayedAcksTimer u), ?_⟩
  decide +kernel

end IscDhcp.Dhcp
