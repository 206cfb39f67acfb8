import IscDhcp.Client.Outcome

/-!
The exchanges of the DHCPv6 client. A client is in one exchange at a time if only the
retransmission timer of its state is pending, and it goes on as long as that timer is pending in
the states that wait for a server.
-/

namespace IscDhcp.Client6

open List Option

def Timer.retransmits : Timer → Bool
  | .doInit6 | .doConfirm6 | .doSelect6 | .doRefresh6 | .doRelease6 => true
  | _ => false

def State.own : State → Option Timer
  | .rebooting => some .doConfirm6
  | .init => some .doInit6
  | .selecting => some .doSelect6
  | .bound => none
  | .renewing | .rebinding => some .doRefresh6
  | .stopped => some .doRelease6

/-- The renewing states share their timer. -/
lemma State.own_inj {s t : State} (h : s.own = t.own)
    (ht : t ≠ .renewing ∧ t ≠ .rebinding := by decide) : s = t := by
  cases s <;> cases t <;> simp_all [own]

/-- The states in which the client has to go on by itself. -/
def State.waits : State → Bool
  | .rebooting | .init | .selecting => true
  | _ => false

def State.Handles : State → Handler → Prop
  | .init, h => h = .init ∨ h = .rapidCommit
  | .bound, h => h = .bound
  | .stopped, h => h = .reply ∨ h = .null
  | _, h => h = .reply

def Lease.Offered (l : Lease) : Prop := l.bindings ≠ [] ∧ ∀ i ∈ l.bindings, i.addrs ≠ []

/-! ### Offers -/

lemma addIa_of_offered {l : Lease} (h : l.Offered) (type : IaType) (wanted : ℕ) :
    l.addIa type wanted = true := by
  unfold Lease.addIa
  rw [List.all_eq_true]
  intro i hi
  have hi : i ∈ l.bindings.filter (·.iaType = type) := by
    split_ifs at hi
    · exact hi
    · exact List.mem_of_mem_take hi
  simpa using h.2 i (List.mem_filter.1 hi).1

lemma requestable_of_offered (cfg : Config) {l : Lease} (h : l.Offered) :
    Client.requestable cfg l = true := by
  simp [Client.requestable, addIa_of_offered h]

lemma parseIa_addrs {code : ℕ} {now : ℤ} {p : PacketIa} {i : Ia}
    (h : parseIa code now p = some i) : i.addrs ≠ [] := by
  unfold parseIa at h
  dsimp only at h
  split_ifs at h with _ hdrop
  all_goals
    simp only [some.injEq] at h
    subst h
    exact fun he => hdrop (.inl he)

lemma leaseify_addrs {p : Packet} {now : ℤ} {l : Lease} (h : leaseify p now = some l) :
    ∀ i ∈ l.bindings, i.addrs ≠ [] := by
  unfold leaseify at h
  split_ifs at h
  all_goals
    simp only [some.injEq] at h
    subst h
    intro i hi
    simp only [mem_append, mem_filterMap] at hi
    rcases hi with (⟨_, _, hi⟩ | ⟨_, _, hi⟩) | ⟨_, _, hi⟩ <;> exact parseIa_addrs hi

lemma offered_of_checkAdvertise {cfg : Config} {p : Packet} {now : ℤ} {l : Lease}
    (h : leaseify p now = some l) (hc : Client.checkAdvertise cfg l = .success) : l.Offered := by
  refine ⟨fun hnil => ?_, leaseify_addrs h⟩
  simp [Client.checkAdvertise, hnil] at hc

lemma mem_insertLease {ls : List Lease} {new l : Lease} (h : l ∈ insertLease ls new) :
    l = new ∨ l ∈ ls := by
  induction ls with
  | nil => exact .inl (mem_singleton.1 h)
  | cons a ls ih =>
    unfold insertLease at h
    split_ifs at h
    · exact (mem_cons.1 h).imp_right (mem_cons_of_mem _)
    · rcases mem_cons.1 h with h | h
      · exact .inr (h ▸ mem_cons_self)
      · exact (ih h).imp_right (mem_cons_of_mem _)

namespace Client

variable {cfg : Config} {m : Moment} {c c' : Client} {k : Timer}

/-! ### The invariant -/

/-- No retransmission timer is pending but `o`. -/
def Only (timers : Timer → Bool) (o : Option Timer) : Prop :=
  ∀ k, k.retransmits = true → timers k = true → o = some k

/-- **One exchange at a time**: only the retransmission timer of the state is pending, and in a
state that waits it is. -/
structure OneExchange (c : Client) : Prop where
  one : ∀ k j, k.retransmits = true → j.retransmits = true → c.timers k = true →
    c.timers j = true → k = j
  own : Only c.timers c.state.own
  due : c.state.waits = true → ∃ k, c.state.own = some k ∧ c.timers k = true

/-- Handler, leases and limits are those of the state. -/
structure Fits (c : Client) : Prop where
  handler : c.state.Handles c.handler
  offered : ∀ l ∈ c.advertisedLeases, l.Offered
  selected : c.state = .selecting → ∃ l, c.selectedLease = some l ∧ l.Offered
  initLimits : c.state = .init → c.mrc = 0 ∧ c.mrd = 0
  selectLimits : c.state = .selecting → c.mrd = 0

structure Orderly (c : Client) : Prop extends Fits c where
  own : Only c.timers c.state.own
  due : c.state.waits = true → ∃ k, c.state.own = some k ∧ c.timers k = true

/-- Nothing is pending: the timer of the state has gone off. -/
structure Paused (c : Client) : Prop extends Fits c where
  calm : Only c.timers none

lemma Orderly.oneExchange (h : Orderly c) : OneExchange c where
  one := fun k j hk hj htk htj => by
    have he := (h.own k hk htk).symm.trans (h.own j hj htj)
    exact some.inj he
  own := h.own
  due := h.due

section Only

variable {timers : Timer → Bool} {o : Option Timer}

lemma Only.fired (h : Only c.timers (some k)) : Only (c.cancelTimeout k).timers none := by
  intro j hj ht
  simp only [cancelTimeout_timers, Bool.and_eq_true, Bool.not_eq_true', decide_eq_false_iff_not]
    at ht
  exact absurd (some.inj (h j hj ht.1)).symm ht.2

lemma Only.cancel (h : Only c.timers o) : Only (c.cancelTimeout k).timers o := by
  intro j hj ht
  simp only [cancelTimeout_timers, Bool.and_eq_true] at ht
  exact h j hj ht.1

lemma Only.add_self (h : Only c.timers (some k)) : Only (c.addTimeout k).timers (some k) := by
  intro j hj ht
  simp only [addTimeout_timers, Bool.or_eq_true, decide_eq_true_eq] at ht
  rcases ht with ht | rfl
  · exact h j hj ht
  · rfl

lemma Only.of_none (h : Only timers none) : Only timers o :=
  fun k hk ht => nomatch h k hk ht

lemma Only.planned (h : Only c.timers o) (hp : Planned c c') : Only c'.timers o := by
  intro k hk ht
  have hl : k.ofLease = false := by cases k <;> first | rfl | cases hk
  exact h k hk ((hp.timers k hl).symm.trans ht)

/-- Of an exchange that the client was in, only a Solicit can still be pending. -/
lemma only_cancelExchanges (c : Client) : Only c.cancelExchanges.timers (some .doInit6) := by
  intro k hk ht
  cases k <;> simp [cancelExchanges, Timer.retransmits] at hk ht ⊢

lemma Only.cancelExchanges (h : Only c.timers o) : Only c.cancelExchanges.timers o :=
  h.cancel.cancel.cancel.cancel

end Only

/-! ### Keeping the order -/

lemma Paused.withStart (h : Paused c) (s : ℤ × ℤ) : Paused { c with startTime := s } :=
  { h with }

lemma Fits.sent (h : Fits c) (hk : c.state.own = some k) (honly : Only c.timers (some k)) :
    Orderly (c.sent k) :=
  { h with
    own := by
      change Only _ c.state.own
      rw [hk]
      exact Only.add_self honly
    due := fun _ => ⟨k, hk, by simp [Client.sent]⟩ }

lemma Paused.sent (h : Paused c) (hk : c.state.own = some k) : Orderly (c.sent k) :=
  h.toFits.sent hk h.calm.of_none

lemma Orderly.sent (h : Orderly c) (hk : c.state.own = some k) : Orderly (c.sent k) :=
  h.toFits.sent hk (hk ▸ h.own)

lemma Paused.orderly (h : Paused c) (hw : c.state.waits = false) : Orderly c :=
  { h with own := h.calm.of_none, due := fun ht => nomatch hw.symm.trans ht }

lemma Orderly.paused (h : Orderly c) (hk : k.retransmits = true) (ht : c.timers k = true) :
    Paused (c.cancelTimeout k) :=
  { h with calm := Only.fired (h.own k hk ht ▸ h.own) }

lemma select_paused (cfg : Config) (hoff : ∀ l ∈ c.advertisedLeases, l.Offered)
    (hadv : c.advertisedLeases ≠ [])
    (hcalm : Only c.timers none) : Paused (c.select cfg) ∧ (c.select cfg).state = .selecting := by
  obtain ⟨best, rest, hbest, hrest, _, heq⟩ := select_spec cfg hadv
  rw [heq]
  refine ⟨⟨⟨rfl, fun l hl => hoff l (hrest l hl), fun _ => ?_, nofun, fun _ => rfl⟩, hcalm⟩, rfl⟩
  exact ⟨best, rfl, hoff best hbest⟩

/-- A lease that is lost outside an exchange leaves at most a Solicit pending. -/
lemma only_of_lost (h : ∀ j ∈ [Timer.doConfirm6, .doSelect6, .doRefresh6, .doRelease6],
    c.timers j = false) : Only (c.cancelTimeout k).timers (some .doInit6) := by
  intro j hj ht
  simp only [cancelTimeout_timers, Bool.and_eq_true, Bool.not_eq_true', decide_eq_false_iff_not]
    at ht
  have hmem : j = .doInit6 ∨ j ∈ [Timer.doConfirm6, .doSelect6, .doRefresh6, .doRelease6] := by
    revert hj
    cases j <;> simp [Timer.retransmits]
  rcases hmem with rfl | hmem
  · rfl
  · exact nomatch (h j hmem).symm.trans ht.1

section

variable (h : Orderly c)

include h

lemma Orderly.planned (hp : Planned c c') : Orderly c' where
  own := hp.state ▸ h.own.planned hp
  due := fun hw => by
    obtain ⟨k, hk, ht⟩ := h.due (hp.state ▸ hw)
    have hl : k.ofLease = false := by
      cases hs : c.state <;> rw [hs] at hk <;> simp [State.own] at hk <;> subst hk <;> rfl
    exact ⟨k, hp.state ▸ hk, (hp.timers k hl).trans ht⟩
  handler := by rw [hp.state, hp.handler]; exact h.handler
  offered := fun l hl => h.offered l (hp.advertisedLeases ▸ hl)
  selected := fun hs => by
    rw [hp.selectedLease]
    exact h.selected (hp.state ▸ hs)
  initLimits := fun hs => by
    have hs : c.state = .init := hp.state ▸ hs
    rw [hp.mrc, hp.mrd (.inl hs)]
    exact h.initLimits hs
  selectLimits := fun hs => by
    have hs : c.state = .selecting := hp.state ▸ hs
    rw [hp.mrd (.inr hs)]
    exact h.selectLimits hs

lemma Orderly.withActive (l : Option Lease) : Orderly { c with activeLease := l } :=
  { h with }

lemma releaseDone_orderly (hstop : (c.releaseDone m).stop = none) : Orderly (c.releaseDone m) := by
  unfold releaseDone stoppingFinished at hstop ⊢
  dsimp only at hstop ⊢
  split_ifs at hstop ⊢
  · exact h.withActive none
  · exact h.withActive none

lemma Orderly.calm_cancelExchanges (hs : c.state ≠ .init) : Only c.cancelExchanges.timers none := by
  intro k hk ht
  cases only_cancelExchanges c k hk ht
  have hown := h.own.cancelExchanges .doInit6 hk ht
  cases hst : c.state <;> rw [hst] at hown <;> first | exact absurd hst hs | cases hown

lemma Orderly.cancelExchanges (hw : c.state.waits = false) : Orderly c.cancelExchanges := by
  rw [cancelExchanges_eq]
  exact { h with
    own := h.own.cancelExchanges
    due := fun ht => nomatch hw.symm.trans ht }

lemma Orderly.fired (hk : k.ofLease = true) : Orderly (c.cancelTimeout k) :=
  h.planned (planned_cancelTimeout hk)

end

lemma doRelease6_orderly (h : Paused c) (hs : c.state = .stopped)
    (hstop : (c.doRelease6 cfg m).stop = none) : Orderly (c.doRelease6 cfg m) := by
  have hw : c.state.waits = false := by rw [hs]; rfl
  rcases doRelease6_cases c cfg m with heq | ⟨s, heq | heq⟩ <;> rw [heq] at hstop ⊢
  · exact h.orderly hw
  · exact (h.withStart s).sent (congrArg State.own hs)
  · exact releaseDone_orderly ((h.withStart s).orderly hw) hstop

lemma replied_orderly_stopped (h : Orderly c.cancelExchanges) (hs : c.state = .stopped) (l : Lease)
    (r : Rval) (hstop : (c.replied cfg m l r).stop = none) : Orderly (c.replied cfg m l r) := by
  unfold replied stoppingFinished at hstop ⊢
  rw [cancelExchanges_eq] at h hstop ⊢
  rw [if_pos hs] at hstop ⊢
  split_ifs at hstop ⊢
  · exact h
  · exact h.withActive none

/-! ### Starting exchanges -/

section

variable (hone : cfg.onetry = false)

include hone

/-- **`start_init6`** begins an exchange, if there is no other one. -/
lemma startInit6_orderly (hoff : ∀ l ∈ c.advertisedLeases, l.Offered)
    (honly : Only c.timers (some .doInit6)) : Orderly (c.startInit6 cfg) where
  own := honly.add_self
  due := fun _ => ⟨.doInit6, rfl, by simp [startInit6]⟩
  handler := .inl rfl
  offered := hoff
  selected := nofun
  initLimits := fun _ => ⟨rfl, by simp [startInit6, addTimeout, hone]⟩
  selectLimits := nofun

/-- **`do_select6`** asks for the lease that was chosen or for another one, or starts over. -/
lemma doSelect6_orderly (h : Paused c) (hs : c.state = .selecting) :
    Orderly (c.doSelect6 cfg m) := by
  refine selectLoop_rule (P := fun c => Paused c ∧ c.state = .selecting)
    (fun c s hc hadv => select_paused cfg hc.1.offered hadv hc.1.calm)
    (fun c s hc _ => startInit6_orderly hone hc.1.offered hc.1.calm.of_none)
    (fun c s hc => (hc.1.withStart s).sent (congrArg State.own hc.2))
    (fun c s hc hstuck => ?_) _ ⟨h, hs⟩ (Nat.lt_succ_self _)
  obtain ⟨l, hl, hoff⟩ := hc.1.selected hc.2
  rcases hstuck l hl with hb | hr
  · exact absurd hb hoff.1
  · exact nomatch hr.symm.trans (requestable_of_offered cfg hoff)

lemma startSelecting6_orderly (hoff : ∀ l ∈ c.advertisedLeases, l.Offered)
    (hadv : c.advertisedLeases ≠ [])
    (hcalm : Only c.timers none) : Orderly (c.startSelecting6 cfg m) := by
  unfold startSelecting6
  rw [if_neg hadv]
  obtain ⟨hp, hs⟩ := select_paused cfg hoff hadv hcalm
  exact doSelect6_orderly hone hp hs

/-! ### The active lease -/

section

variable (h : Orderly c)

include h

/-- **`dhc6_check_times`** keeps the order, if it gives the lease up only outside an exchange. -/
lemma checkTimes_orderly
    (hend : ∀ l ∈ c.activeLease, (leaseTimes cfg l).hasAddrs = false →
      Only c.timers (some .doInit6))
    (hstop : (c.checkTimes cfg m).stop = none) : Orderly (c.checkTimes cfg m) := by
  cases hl : c.activeLease with
  | none => simp [checkTimes, hl] at hstop
  | some l =>
    rcases checkTimes_cases cfg m hl with ⟨hnone, heq⟩ | hp | ⟨_, hf⟩
    · rw [heq]
      have honly := (hend l hl hnone).planned (planned_cancelLeaseTimers)
      exact startInit6_orderly hone h.offered honly
    · exact h.planned hp
    · rw [hf] at hstop
      cases hstop

omit hone h in
lemma hasAddrs_depref (cfg : Config) (now : ℤ) (l : Lease) :
    (leaseTimes cfg (l.mapAddrs (Addr.depref now))).hasAddrs = (leaseTimes cfg l).hasAddrs := by
  have hexp (a : Addr) : (a.depref now).expired = a.expired := by
    unfold Addr.depref
    split_ifs <;> rfl
  simp [leaseTimes_hasAddrs, Lease.mapAddrs, Function.comp_def, hexp]

lemma doDepref_orderly
    (hend : ∀ l ∈ c.activeLease, (leaseTimes cfg l).hasAddrs = false →
      Only c.timers (some .doInit6))
    (hstop : (c.doDepref cfg m).stop = none) : Orderly (c.doDepref cfg m) := by
  unfold doDepref at hstop ⊢
  cases hl : c.activeLease with
  | none => exact h
  | some l =>
    simp only [hl] at hstop ⊢
    refine checkTimes_orderly hone (h.withActive _) ?_ hstop
    rintro _ ⟨⟩ hnone
    exact hend l hl ((hasAddrs_depref cfg m.sec l).symm.trans hnone)

lemma doExpire_orderly
    (hend : ∀ l ∈ c.activeLease, l.Over m.sec → Only c.timers (some .doInit6))
    (hstop : (c.doExpire cfg m).stop = none) : Orderly (c.doExpire cfg m) := by
  rcases eq_none_or_eq_some c.activeLease with hl | ⟨l, hl⟩
  · unfold doExpire
    rw [hl]
    exact h
  · rcases doExpire_cases cfg m hl with ⟨hover, heq⟩ | ⟨l', hsome, heq⟩ <;> rw [heq] at hstop ⊢
    · exact startInit6_orderly hone h.offered (hend l hl hover)
    · refine checkTimes_orderly hone (h.withActive _) ?_ hstop
      rintro _ ⟨⟩ hnone
      exact nomatch hnone.symm.trans hsome

omit h in
lemma startBound_orderly (hoff : ∀ l ∈ c.advertisedLeases, l.Offered) (hcalm : Only c.timers none)
    (hlease : c.activeLease ≠ none) (hstop : (c.startBound cfg m).stop = none) :
    Orderly (c.startBound cfg m) := by
  have bound : ∀ l, Orderly { c with activeLease := l, handler := .bound, state := .bound } :=
    fun l => ⟨⟨rfl, hoff, nofun, nofun, nofun⟩, hcalm, nofun⟩
  unfold startBound at hstop ⊢
  cases hl : c.activeLease with
  | none => exact absurd hl hlease
  | some l =>
    cases hs : c.state <;> simp only [hl, hs] at hstop ⊢
    all_goals first
      | exact checkTimes_orderly hone (bound _) (fun _ _ _ => hcalm.of_none) hstop
      | cases hstop

/-! ### Timers -/

omit h in
lemma doInit6_orderly (h : Paused c) (hs : c.state = .init) : Orderly (c.doInit6 cfg m) := by
  obtain ⟨hmrc, hmrd⟩ := h.initLimits hs
  unfold doInit6
  by_cases hadv : c.advertisedLeases ≠ []
  · rw [if_pos hadv]
    exact startSelecting6_orderly hone h.offered hadv h.calm
  · rw [if_neg hadv]
    obtain ⟨t, s, heq, hc, hd⟩ := checkTiming6_cases c m
    rw [heq]
    cases t
    · have hh := h.handler
      rw [hs] at hh
      have hp : Paused { c with
          startTime := s, handler := if cfg.rapidCommit then .rapidCommit else c.handler } := by
        refine { h with handler := ?_ }
        rw [hs]
        split_ifs
        · exact .inr rfl
        · exact hh
      exact hp.sent (congrArg State.own hs)
    · exact absurd hmrc (hc rfl)
    · exact absurd hmrd (hd rfl)

omit h in
lemma doConfirm6_orderly (h : Paused c) (hs : c.state = .rebooting)
    (hconf : ∀ l ∈ c.activeLease, confirmable cfg l = true)
    (hstop : (c.doConfirm6 cfg m).stop = none) : Orderly (c.doConfirm6 cfg m) := by
  unfold doConfirm6 at hstop ⊢
  rcases eq_none_or_eq_some c.activeLease with hl | ⟨l, hl⟩
  · rw [hl] at hstop
    cases hstop
  · obtain ⟨t, s, heq, _, _⟩ := checkTiming6_cases c m
    rw [hl, heq] at hstop
    rw [hl, heq]
    have hlease : c.activeLease ≠ none := by rw [hl]; exact nofun
    cases t
    · dsimp only
      rw [if_pos (hconf l hl)]
      exact (h.withStart s).sent (congrArg State.own hs)
    · exact startBound_orderly hone h.offered h.calm hlease hstop
    · exact startBound_orderly hone h.offered h.calm hlease hstop

/-- **`do_refresh6`** in or after an exchange with the server of the lease. -/
lemma doRefresh6_orderly (hs : c.state = .renewing ∨ c.state = .rebinding)
    (hend : ∀ l ∈ c.activeLease, (leaseTimes cfg l).hasAddrs = false →
      Only c.timers (some .doInit6))
    (hstop : (c.doRefresh6 cfg m).stop = none) : Orderly (c.doRefresh6 cfg m) := by
  have hown : c.state.own = some .doRefresh6 := by rcases hs with hs | hs <;> rw [hs] <;> rfl
  have hstamp : Orderly (c.stamp m) := { h with }
  rcases doRefresh6_cases c cfg m with ⟨_, heq⟩ | ⟨_, heq⟩ | ⟨_, _, heq | heq | heq⟩ <;>
    rw [heq] at hstop ⊢
  · exact h
  · cases hstop
  · exact checkTimes_orderly hone hstamp hend hstop
  · exact hstamp.sent hown
  · exact hstamp

/-- **`start_renew6` and `start_rebind6`** in a client that holds its lease. -/
lemma startRefresh6_orderly (hold : Holding c.state)
    {type : RefreshType} {st : State} (hst : st = .renewing ∨ st = .rebinding)
    (hend : ∀ l ∈ c.activeLease, (leaseTimes cfg l).hasAddrs = false →
      Only c.timers (some .doInit6))
    (hstop : (startRefresh6 type st cfg m c).stop = none) :
    Orderly (startRefresh6 type st cfg m c) := by
  have honly : Only c.timers (some .doRefresh6) := by
    rcases hold with hs | hs | hs
    · exact Only.of_none (by simpa [hs, State.own] using h.own)
    · simpa [hs, State.own] using h.own
    · simpa [hs, State.own] using h.own
  refine doRefresh6_orderly hone ?_ hst hend hstop
  exact
    { handler := by rcases hst with rfl | rfl <;> exact rfl
      offered := h.offered
      selected := fun hs => by rcases hst with rfl | rfl <;> cases hs
      initLimits := fun hs => by rcases hst with rfl | rfl <;> cases hs
      selectLimits := fun hs => by rcases hst with rfl | rfl <;> cases hs
      own := by rcases hst with rfl | rfl <;> exact honly
      due := fun hw => by rcases hst with rfl | rfl <;> cases hw }

/-! ### Messages -/

lemma initHandler_orderly (hs : c.state = .init)
    (p : Packet) : Orderly (c.initHandler cfg m p) := by
  unfold initHandler
  split_ifs
  · exact h
  · rcases eq_none_or_eq_some (leaseify p m.sec) with hl | ⟨l, hl⟩ <;> rw [hl]
    · exact h
    · dsimp only
      by_cases hbad : checkAdvertise cfg l ≠ .success ∨ score cfg l = 0
      · rw [if_pos hbad]
        exact h
      · rw [if_neg hbad]
        have hgood : checkAdvertise cfg l = .success := not_not.1 fun hne => hbad (.inl hne)
        have hoff : ∀ a ∈ insertLease c.advertisedLeases l, a.Offered := fun a ha => by
          rcases mem_insertLease ha with rfl | ha
          · exact offered_of_checkAdvertise hl hgood
          · exact h.offered a ha
        split_ifs
        · refine startSelecting6_orderly hone hoff (insertLease_ne_nil _ _) ?_
          have hown := h.own
          rw [hs] at hown
          exact Only.fired hown
        · exact { h with offered := hoff }

omit h in
lemma adopt_orderly (hcalm : Only c.timers none) (l : Lease)
    (hstop : (c.adopt cfg m l).stop = none) : Orderly (c.adopt cfg m l) :=
  startBound_orderly hone nofun hcalm nofun hstop

lemma rapidCommitHandler_orderly (hs : c.state = .init)
    (p : Packet) (hstop : (c.rapidCommitHandler cfg m p).stop = none) :
    Orderly (c.rapidCommitHandler cfg m p) := by
  unfold rapidCommitHandler at hstop ⊢
  split_ifs at hstop ⊢
  · exact initHandler_orderly hone h hs p
  · exact h
  · rcases eq_none_or_eq_some (leaseify p m.sec) with hl | ⟨l, hl⟩ <;> rw [hl] at hstop ⊢
    · exact h
    · have hcalm : Only (c.cancelTimeout .doInit6).timers none := by
        have hown := h.own
        rw [hs] at hown
        exact Only.fired hown
      have hsame := checkReply_stopped cfg m (.inl hs) l
      dsimp only at hstop ⊢
      rcases hr : c.checkReply cfg m l with ⟨c', r⟩
      rw [hr] at hstop hsame
      obtain rfl : c' = c := hsame
      cases r
      · exact adopt_orderly (c := { c'.cancelTimeout .doInit6 with state := .selecting }) hone
          hcalm l
          hstop
      all_goals exact h

omit h in
lemma begun_orderly (hoff : ∀ l ∈ c.advertisedLeases, l.Offered) :
    Orderly (c.startInit6 cfg).cancelExchanges where
  handler := .inl rfl
  offered := hoff
  selected := nofun
  initLimits := fun _ =>
    ⟨rfl, by simp [startInit6, addTimeout, cancelExchanges, cancelTimeout, hone]⟩
  selectLimits := nofun
  own := only_cancelExchanges _
  due := fun _ => ⟨.doInit6, rfl, by simp [startInit6, cancelExchanges]⟩

/-- The Reply `l` makes the client select again: it gives up the server it asked while it knows
another one, or it is told that there is no binding. -/
def reselects (cfg : Config) (c : Client) (l : Lease) : Bool :=
  match c.state, c.refusal cfg l with
  | .selecting, none => c.advertisedLeases ≠ [] && worse cfg c l
  | .selecting, some code | .rebooting, some code =>
    c.advertisedLeases ≠ [] && code ≠ statusNotOnLink
  | .renewing, some code | .rebinding, some code => code = statusNoBinding
  | _, _ => false

/-- A Reply that is not taken ends the exchange, if it does not make the client select again. -/
lemma Acts.orderly {l : Lease} (ha : Acts cfg m c l (c.refusal cfg l) c')
    (hsel : c.reselects cfg l = false) (hstop : c'.stop = none) : Orderly c'.cancelExchanges := by
  generalize hcode : c.refusal cfg l = code at ha
  unfold reselects at hsel
  rw [hcode] at hsel
  cases ha with
  | impossible stop _ => cases hstop
  | next hs hadv hne => rcases hs with hs | hs <;> simp [hs, hadv, hne] at hsel
  | low hs hadv hlow => simp [hs, hadv, hlow] at hsel
  | giveUp _ _ => exact begun_orderly hone h.offered
  | notOnLink _ => exact begun_orderly hone nofun
  | unconfirmed _ => exact begun_orderly hone h.offered
  | restart _ _ => exact begun_orderly hone h.offered
  | noBinding hs _ => rcases hs with hs | hs <;> simp [hs] at hsel
  | stopped hs => exact h.cancelExchanges (by rw [hs]; rfl)
  | withdraw hs =>
    have hw : c.state.waits = false := by rcases hs with hs | hs <;> rw [hs] <;> rfl
    rcases withdrawLease_cases c cfg m with ⟨_, heq⟩ | heq | ⟨l, heq⟩
    · rw [heq]
      exact h.cancelExchanges hw
    · rw [heq]
      exact begun_orderly hone h.offered
    · rw [heq] at hstop ⊢
      rcases checkTimes_cases cfg m (c := { c with activeLease := some l }) rfl
        with ⟨_, heq⟩ | hp | ⟨_, hf⟩
      · rw [heq]
        exact begun_orderly hone h.offered
      · exact ((h.withActive _).planned hp).cancelExchanges
          ((congrArg State.waits hp.state).trans hw)
      · exact nomatch hf.symm.trans hstop

lemma replied_orderly (hinit : c.state ≠ .init)
    (l : Lease) (hstop : (c.replied cfg m l .success).stop = none) :
    Orderly (c.replied cfg m l .success) := by
  have hcalm := h.calm_cancelExchanges hinit
  by_cases hs : c.state = .stopped
  · exact replied_orderly_stopped (h.cancelExchanges (by rw [hs]; rfl)) hs l _ hstop
  · unfold replied at hstop ⊢
    rw [cancelExchanges_eq] at hstop ⊢
    dsimp only at hstop ⊢
    rw [if_neg hs, if_neg nofun] at hstop ⊢
    split_ifs at hstop ⊢ with _ hl
    · cases hstop
    · exact startBound_orderly hone h.offered hcalm hl hstop
    · exact adopt_orderly
        (c := { c with timers := c.cancelExchanges.timers, selectedLease := none })
        hone hcalm l hstop

lemma replyHandler_orderly (hh : c.handler = .reply) (p : Packet)
    (hre : p.msgType = .reply → ∀ l ∈ leaseify p m.sec, c.reselects cfg l = false)
    (hstop : (c.replyHandler cfg m p).stop = none) : Orderly (c.replyHandler cfg m p) := by
  have hinit : c.state ≠ .init := fun hs => by
    have hf := h.handler
    rw [hs, hh] at hf
    rcases hf with hf | hf <;> cases hf
  unfold replyHandler at hstop ⊢
  split_ifs at hstop ⊢ with hmsg
  · exact h
  · rcases eq_none_or_eq_some (leaseify p m.sec) with hl | ⟨l, hl⟩ <;> rw [hl] at hstop ⊢
    · exact h
    · dsimp only at hstop ⊢
      rcases checkReply_settled cfg m c l with ⟨hc, hr⟩ | ⟨hr, ha⟩
      · rw [hc] at hstop ⊢
        split_ifs at hstop ⊢ with _ hbad
        · exact h
        · exact h
        · have hr : (c.checkReply cfg m l).2 = .success := by
            by_contra hne
            exact hbad ⟨hne, hr⟩
          rw [hr] at hstop ⊢
          exact replied_orderly hone h hinit l hstop
      · rw [hr] at hstop ⊢
        split_ifs at hstop ⊢ with hgone hbad
        · exact absurd hstop hgone
        · exact absurd rfl hbad.2
        · have hj := ha.orderly hone h (hre (not_not.1 hmsg) l hl) (not_not.1 hgone)
          by_cases hs : (c.checkReply cfg m l).1.state = .stopped
          · exact replied_orderly_stopped hj hs l _ hstop
          · unfold replied
            rw [cancelExchanges_eq] at hj ⊢
            rw [if_neg hs, if_pos rfl]
            exact hj

/-! ### Runs -/

/-- Every address of the lease has expired, or does so when `do_expire` goes off. -/
def Lost (k : Timer) (now : ℤ) (l : Lease) : Prop :=
  ∀ i ∈ l.bindings, ∀ a ∈ i.addrs,
    a.expired = true ∨ k = .doExpire ∧ a.starts + a.maxLife ≤ now

omit hone h in
lemma lost_of_hasAddrs {k : Timer} {now : ℤ} {l : Lease}
    (hnone : (leaseTimes cfg l).hasAddrs = false) : Lost k now l := by
  have hexp : ∀ i ∈ l.bindings, ∀ a ∈ i.addrs, a.expired = true := by
    simpa [leaseTimes_hasAddrs] using hnone
  exact fun i hi a ha => .inl (hexp i hi a ha)

/-- The event does not begin an exchange in the middle of another one, nor end one without a
successor: no Reply makes the client select again; `start_renew6` and `start_rebind6` go off while
a lease is held; a Confirm can be put together; and a timer of a lease that is lost goes off outside
an exchange. -/
def Clean (cfg : Config) (c : Client) : Event → Prop
  | .packet p m => c.handler = .reply → p.msgType = .reply →
      ∀ l ∈ leaseify p m.sec, c.reselects cfg l = false
  | .fire k m => c.timers k = true →
      (k = .startRenew6 ∨ k = .startRebind6 → Holding c.state) ∧
      (k = .doConfirm6 → ∀ l ∈ c.activeLease, confirmable cfg l = true) ∧
      (k.ofLease = true → ∀ l ∈ c.activeLease, Lost k m.sec l →
        ∀ j ∈ [Timer.doConfirm6, .doSelect6, .doRefresh6, .doRelease6], c.timers j = false)

def CleanRun (cfg : Config) : Client → List Event → Prop
  | _, [] => True
  | c, e :: es => Clean cfg c e ∧ CleanRun cfg (c.step cfg e) es

lemma fire_orderly (hc : Clean cfg c (.fire k m))
    (ht : c.timers k = true) (hstop : (callback cfg m k (c.cancelTimeout k)).stop = none) :
    Orderly (callback cfg m k (c.cancelTimeout k)) := by
  obtain ⟨hrefresh, hconf, hlost⟩ := hc ht
  have hend : k.ofLease = true → ∀ l ∈ c.activeLease, (leaseTimes cfg l).hasAddrs = false →
      Only (c.cancelTimeout k).timers (some .doInit6) := fun hk l hl hnone =>
    only_of_lost (hlost hk l hl (lost_of_hasAddrs hnone))
  -- the state of a retransmission timer
  have hown := fun hk : k.retransmits = true => h.own k hk ht
  cases k with
  | doInit6 => exact doInit6_orderly hone (h.paused rfl ht) (State.own_inj (hown rfl))
  | doConfirm6 =>
    have hs : c.state = .rebooting := State.own_inj (hown rfl)
    exact doConfirm6_orderly hone (h.paused rfl ht) hs (hconf rfl) hstop
  | doSelect6 => exact doSelect6_orderly hone (h.paused rfl ht) (State.own_inj (hown rfl))
  | doRefresh6 =>
    have hs : c.state = .renewing ∨ c.state = .rebinding := by
      revert hown
      cases c.state <;> simp [State.own, Timer.retransmits]
    have hw : c.state.waits = false := by rcases hs with hs | hs <;> rw [hs] <;> rfl
    have hp := h.paused rfl ht
    exact doRefresh6_orderly hone (hp.orderly hw) hs (fun _ _ _ => hp.calm.of_none) hstop
  | doRelease6 =>
    exact doRelease6_orderly (h.paused rfl ht) (State.own_inj (hown rfl)) hstop
  | startRenew6 =>
    exact startRefresh6_orderly hone (h.fired rfl) (hrefresh (.inl rfl)) (.inl rfl) (hend rfl)
      hstop
  | startRebind6 =>
    exact startRefresh6_orderly hone (h.fired rfl) (hrefresh (.inr rfl)) (.inr rfl) (hend rfl)
      hstop
  | doDepref => exact doDepref_orderly hone (h.fired rfl) (hend rfl) hstop
  | doExpire =>
    refine doExpire_orderly hone (h.fired rfl) (fun l hl hover => ?_) hstop
    exact only_of_lost (hlost rfl l hl fun i hi a ha => (hover i hi a ha).imp_right (⟨rfl, ·⟩))

lemma handle_orderly {p : Packet}
    (hc : Clean cfg c (.packet p m)) (hstop : (c.handle cfg m p).stop = none) :
    Orderly (c.handle cfg m p) := by
  have hf := h.handler
  have hinit : c.handler = .init ∨ c.handler = .rapidCommit → c.state = .init := fun hh => by
    revert hf
    cases c.state <;> rcases hh with hh | hh <;> simp [State.Handles, hh]
  unfold handle at hstop ⊢
  cases hh : c.handler <;> rw [hh] at hstop <;> dsimp only at hstop ⊢
  case null => cases hstop
  case init => exact initHandler_orderly hone h (hinit (.inl hh)) p
  case rapidCommit => exact rapidCommitHandler_orderly hone h (hinit (.inr hh)) p hstop
  case reply => exact replyHandler_orderly hone h hh p (hc hh) hstop
  case bound => exact h

end

lemma step_orderly (h : c.stop = none → Orderly c) {e : Event}
    (hc : Clean cfg c e) (hstop : (c.step cfg e).stop = none) : Orderly (c.step cfg e) := by
  unfold step at hstop ⊢
  split_ifs at hstop ⊢ with hgone
  · exact absurd hstop hgone
  · have h := h (not_not.1 hgone)
    cases e with
    | packet p m => exact handle_orderly hone h hc hstop
    | fire k m =>
      dsimp only at hstop ⊢
      split_ifs at hstop ⊢ with ht
      · exact fire_orderly hone h hc ht hstop
      · exact h

lemma run_orderly : ∀ (es : List Event) {c : Client},
    (c.stop = none → Orderly c) → CleanRun cfg c es → (c.run cfg es).stop = none →
      Orderly (c.run cfg es)
  | [], _, h, _, hstop => h hstop
  | _ :: es, _, h, hc, hstop => run_orderly es (step_orderly hone h hc.1) hc.2 hstop

lemma started_orderly (m : Moment) (stored : Option Lease)
    (start : Start) (hstop : (started cfg m stored start).stop = none) :
    Orderly (started cfg m stored start) := by
  have init : Orderly ({ activeLease := stored : Client }.startInit6 cfg) :=
    startInit6_orderly hone nofun nofun
  cases start with
  | init => exact init
  | confirm =>
    unfold started startConfirm6
    cases stored with
    | none => exact init
    | some l =>
      dsimp only
      split_ifs
      · exact init
      · exact
          { handler := rfl, offered := nofun, selected := nofun, initLimits := nofun
            selectLimits := nofun, own := Only.add_self nofun, due := nofun }
      · exact
          { handler := rfl, offered := nofun, selected := nofun, initLimits := nofun
            selectLimits := nofun, own := Only.add_self nofun
            due := fun _ => ⟨.doConfirm6, rfl, by simp⟩ }
  | release =>
    have calm : Only (((({ activeLease := stored : Client }.cancelTimeout .doConfirm6).cancelTimeout
        .doSelect6).cancelTimeout .doRefresh6).cancelTimeout .doRelease6).timers none :=
      Only.cancel (Only.cancel (Only.cancel (Only.cancel nofun)))
    cases stored with
    | none =>
      exact
        { handler := .inr rfl, offered := nofun, selected := nofun, initLimits := nofun
          selectLimits := nofun, own := calm.of_none, due := nofun }
    | some l =>
      refine doRelease6_orderly ?_ rfl hstop
      exact
        { handler := .inl rfl, offered := nofun, selected := nofun, initLimits := nofun
          selectLimits := nofun, calm := calm }

end

/-- **One exchange at a time.** A stateful client that is not in one-try mode is in one exchange at
a time and does not stall, in every state of a run in which no event begins an exchange in the
middle of another one or ends one without a successor. -/
theorem oneExchange_run (cfg : Config) (hone : cfg.onetry = false) (m : Moment)
    (stored : Option Lease) (start : Start) (es : List Event)
    (hc : CleanRun cfg (started cfg m stored start) es)
    (hstop : ((started cfg m stored start).run cfg es).stop = none) :
    OneExchange ((started cfg m stored start).run cfg es) :=
  (run_orderly hone es (started_orderly hone m stored start) hc hstop).oneExchange

instance (k : Timer) (now : ℤ) (l : Lease) : Decidable (Lost k now l) :=
  inferInstanceAs (Decidable (∀ i ∈ l.bindings, ∀ a ∈ i.addrs, _))

instance : (e : Event) → Decidable (Clean cfg c e)
  | .packet p m => inferInstanceAs (Decidable (_ → _ → ∀ l ∈ leaseify p m.sec, _))
  | .fire k m => inferInstanceAs (Decidable (c.timers k = true →
      (k = .startRenew6 ∨ k = .startRebind6 → Holding c.state) ∧
      (k = .doConfirm6 → ∀ l ∈ c.activeLease, confirmable cfg l = true) ∧
      (k.ofLease = true → ∀ l ∈ c.activeLease, Lost k m.sec l →
        ∀ j ∈ [Timer.doConfirm6, .doSelect6, .doRefresh6, .doRelease6], c.timers j = false)))

instance decidableCleanRun : (c : Client) → (es : List Event) → Decidable (CleanRun cfg c es)
  | _, [] => inferInstanceAs (Decidable True)
  | c, e :: es =>
    have := decidableCleanRun (c.step cfg e) es
    inferInstanceAs (Decidable (Clean cfg c e ∧ CleanRun cfg (c.step cfg e) es))

/-! ### A client with two servers -/

section Sample

def samplePacket (msgType : MsgType) (server : UInt8) (status : StatusOption) : Packet where
  msgType := msgType
  serverId := [server]
  status := status
  ias := [{ iaType := .na, iaid := [0, 0, 0, 1], renew := 50
            addrs := [{ address := 0x20 :: List.replicate 14 0 ++ [server]
                        preferredLife := 100, maxLife := 200 }] }]

/-- A Solicit, the answer of a server, and a Request. -/
def sampleExchange : List Event :=
  [.fire .doInit6 (moment 0), .packet (samplePacket .advertise 1 .absent) (moment 0),
    .packet (samplePacket .advertise 2 .absent) (moment 0), .fire .doInit6 (moment 1)]

def sampleLife : List Event :=
  sampleExchange ++
    [.packet (samplePacket .reply 1 .absent) (moment 1), .fire .startRenew6 (moment 51),
    .packet (samplePacket .reply 1 .absent) (moment 52), .fire .doDepref (moment 152)]

theorem oneExchange_run_sample :
    OneExchange ((started sampleConfig (moment 0) none .init).run sampleConfig sampleLife) :=
  oneExchange_run sampleConfig rfl (moment 0) none .init sampleLife (by decide +kernel)
    (by decide +kernel)

/-- The server that was asked fails. The client asks the other one, and then cancels the timer of
that Request: nothing will ever happen again. -/
def sampleStall : List Event :=
  sampleExchange ++ [.packet (samplePacket .reply 1 (.code statusUnspecFail)) (moment 1)]

theorem unspecFail_stalls :
    let c := (started sampleConfig (moment 0) none .init).run sampleConfig sampleStall
    c.stop = none ∧ c.state = .selecting ∧ (∀ k, c.timers k = false) ∧ ¬ OneExchange c := by
  intro c
  have hstate : c.state = .selecting := by decide +kernel
  have hnone : ∀ k, c.timers k = false := fun k => by cases k <;> decide +kernel
  refine ⟨by decide +kernel, hstate, hnone, fun h => ?_⟩
  obtain ⟨k, _, ht⟩ := h.due (by rw [hstate]; rfl)
  exact nomatch (hnone k).symm.trans ht

end Sample

end Client

end IscDhcp.Client6
