import IscDhcp.Mdb.Invariant

/-!
What the functions of the database add to the log: records of leases and commits of the lease
file, and no answers to clients.
-/

namespace IscDhcp

variable {ι : Type}

/-- The effect is not an answer to a client. -/
def Effect.quiet : Effect ι → Bool
  | .replied _ _ => false
  | .wrote _ _ | .committed => true

/-- Since `s` records and commits were made, and no answers. -/
def Quiet (s t : Db ι) : Prop := ∃ m : List (Effect ι), t.log = s.log ++ m ∧ ∀ e ∈ m, e.quiet

variable {s t u : Db ι}

lemma Quiet.of_log (h : t.log = s.log) : Quiet s t := ⟨[], by simp [h], by simp⟩

lemma Quiet.refl (s : Db ι) : Quiet s s := .of_log rfl

lemma Quiet.trans (h : Quiet s t) (h' : Quiet t u) : Quiet s u := by
  obtain ⟨m, hm, hq⟩ := h
  obtain ⟨m', hm', hq'⟩ := h'
  refine ⟨m ++ m', by rw [hm', hm, List.append_assoc], fun e he => ?_⟩
  exact (List.mem_append.mp he).elim (hq e) (hq' e)

lemma Quiet.of_left (h : Quiet t u) (ht : t.log = s.log) : Quiet s u := (Quiet.of_log ht).trans h

namespace Db

variable [DecidableEq ι]

lemma quiet_ask (s : Db ι) : Quiet s s.ask.2 := by
  rw [ask_eq]
  exact .of_log rfl

lemma quiet_askAnd (s : Db ι) {e : Effect ι} (he : e.quiet) : Quiet s (s.askAnd e).2 := by
  rw [askAnd_eq]
  cases s.io.headD true
  · exact .of_log rfl
  · exact ⟨[e], rfl, by simpa using he⟩

lemma quiet_writeLease (s : Db ι) (i : ι) : Quiet s (s.writeLease i).2 := s.quiet_askAnd rfl

lemma quiet_commitLeases (s : Db ι) : Quiet s s.commitLeases.2 := s.quiet_askAnd rfl

/-! ### Binding updates -/

variable [Fintype ι]

lemma log_rescindUpdates (s : Db ι) : s.dhcpFailoverRescindUpdates.log = s.log :=
  s.rescindUpdates_rec (P := (log · = s.log)) rfl (fun _ _ h => h) fun _ _ _ h => h

lemma quiet_stateInvariant (s : Db ι) : StateInvariant (Quiet s) where
  ask h := h.trans (quiet_ask _)
  commitLeases h := h.trans (quiet_commitLeases _)
  states _ _ _ _ _ h := h.trans (.of_log rfl)
  rescind h := h.trans (.of_log (log_rescindUpdates _))
  wait _ _ h := h.trans (.of_log rfl)
  schedulePool _ _ h := h.trans (.of_log rfl)

lemma quiet_linkInvariant (s : Db ι) : LinkInvariant (Quiet s) where
  ask h := h.trans (quiet_ask _)
  writeLease i h := h.trans (quiet_writeLease _ i)
  commitLeases h := h.trans (quiet_commitLeases _)
  modify _ h _ := h.trans (.of_log rfl)
  queues _ _ h _ := h.trans (.of_log rfl)
  disconnect := s.quiet_stateInvariant.disconnect

lemma quiet_sendUpdates (s : Db ι) : Quiet s s.dhcpFailoverSendUpdates.2 :=
  s.quiet_linkInvariant.sendUpdates (.refl s)

/-! ### Moving a lease -/

lemma log_moveOn (s : Db ι) (comp : ι) (flags : Option Flags) (trans : Bool) :
    (s.moveOn comp flags trans).log = s.log := by
  obtain ⟨cls, h⟩ := s.moveOn_eq comp flags trans
  rw [h]
  rfl

lemma log_copySample (s : Db ι) (comp : ι) (lease : Lease) :
    (s.copySample comp lease).log = s.log := by
  obtain ⟨cls, uids, hws, b, h⟩ := s.copySample_eq comp lease
  rw [h]
  rfl

lemma quiet_moveInvariant (s : Db ι) : MoveInvariant (Quiet s) := by
  have hm : MoveFrame (Quiet s) :=
    ⟨fun _ _ h => h.trans (.of_log rfl), fun _ _ h => h.trans (.of_log rfl),
      fun _ h => h.trans (.of_log rfl), fun _ h => h.trans (.of_log rfl),
      fun _ _ _ h => h.trans (.of_log rfl)⟩
  exact hm.moveInvariant
    (fun comp flags trans h => h.trans (.of_log (log_moveOn _ comp flags trans)))
    (s.quiet_linkInvariant.record hm.schedulePool).recordMove

lemma quiet_supersedeLease {comp : ι} {lease : Option Lease} {commit propogate pimmediate : Bool}
    {r : Bool × Db ι} (h : s.supersedeLease comp lease commit propogate pimmediate = some r) :
    Quiet s r.2 := by
  have hc : Quiet s (lease.elim s (s.copySample comp)) := by
    cases lease with
    | none => exact .refl s
    | some lt => exact .of_log (s.log_copySample comp lt)
  rcases s.quiet_moveInvariant.supersedeLease hc h with hs | hs
  · exact .of_log (congrArg log hs)
  · exact hs

lemma quiet_releaseLease {i : ι} (h : s.releaseLease i = some t) : Quiet s t := by
  unfold releaseLease at h
  extract_lets u at h
  split at h
  all_goals try exact Option.some.inj h ▸ .of_log rfl
  all_goals
    obtain ⟨r, hr, rfl⟩ := Option.map_eq_some_iff.mp h
    exact (quiet_supersedeLease hr).of_left rfl

lemma quiet_abandonLease {i : ι} (h : s.abandonLease i = some t) : Quiet s t := by
  obtain ⟨r, hr, rfl⟩ := Option.map_eq_some_iff.mp h
  exact quiet_supersedeLease hr

lemma log_unbillClass (s : Db ι) (i : ι) : (s.unbillClass i).log = s.log := by
  obtain ⟨cls, h⟩ := s.unbillClass_eq i
  rw [h]
  rfl

lemma log_billClass (s : Db ι) (i : ι) (c : ℕ) : (s.billClass i c).2.log = s.log := by
  obtain ⟨cls, b, h⟩ := s.billClass_eq i c
  rw [h]
  rfl

end Db

end IscDhcp
