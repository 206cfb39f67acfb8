import IscDhcp.Client.Outcome

/-!
What the DHCPv6 client calls impossible. The `log_fatal` calls of the client rest on what state,
leases and pending timers have to do with each other; `Safe` says it, up to timers that are about to
be cancelled.
-/

namespace IscDhcp.Client6

open Option

/-- The timers that may be pending in a state, with or without an active lease. -/
def State.allows : State → Bool → Timer → Bool
  | .init, leased, k => k = .doInit6 || (!leased && k ∈ [Timer.doRefresh6, .doDepref, .doExpire])
  | .selecting, leased, k =>
    k = .doSelect6 || (!leased && k ∈ [Timer.doRefresh6, .doDepref, .doExpire])
  | .stopped, leased, k => !leased && k ∈ [Timer.doRefresh6, .doDepref, .doExpire]
  | .rebooting, _, k => k = .doConfirm6
  | _, _, k => k = .doRefresh6 || k.ofLease

def State.Serves : State → Handler → Prop
  | .init, h | .stopped, h => h = .init ∨ h = .rapidCommit
  | .bound, h => h = .bound
  | _, h => h = .reply

lemma Timer.ofLease_cases {k : Timer} (h : k.ofLease = true) :
    k = .startRenew6 ∨ k = .startRebind6 ∨ k ∈ [Timer.doRefresh6, .doDepref, .doExpire] := by
  revert h
  cases k <;> decide

namespace Client

variable {cfg : Config} {m : Moment} {c c' : Client} {k : Timer} {ex : List Timer}

/-! ### The invariant -/

/-- Nothing that the client takes to be impossible is the case, when the timers `ex` are left
aside. -/
structure Safe (ex : List Timer) (c : Client) : Prop where
  timers : ∀ k, c.timers k = true → k ∈ ex ∨ c.state.allows c.activeLease.isSome k = true
  handler : c.state.Serves c.handler
  active : c.state = .rebooting ∨ Holding c.state → c.activeLease ≠ none ∧ c.advertisedLeases = []
  stopped : c.state = .stopped → c.activeLease = none
  selected : c.state = .selecting → c.selectedLease ≠ none
  refreshType : c.state = .renewing ∨ c.state = .rebinding ∨ c.timers .doRefresh6 = true →
    c.refreshType ≠ none
  stop : c.stop = none

/-- Apart from `ex`, only timers of a lease that is lost are pending. -/
def Leftover (ex : List Timer) (c : Client) : Prop :=
  ∀ k, c.timers k = true →
    k ∈ ex ∨ (c.activeLease = none ∧ k ∈ [Timer.doRefresh6, .doDepref, .doExpire])

lemma Leftover.allows (h : Leftover ex c) {s : State} (hs : s = .init ∨ s = .selecting)
    (hk : c.timers k = true) : k ∈ ex ∨ s.allows c.activeLease.isSome k = true := by
  rcases h k hk with h | ⟨hn, hm⟩
  · exact .inl h
  · rcases hs with rfl | rfl <;> simp [State.allows, hn, hm]

/-! ### Starting exchanges -/

/-- **`start_init6`** in a client that is left with nothing but a lease it does not use. -/
lemma startInit6_safe (ht : Leftover ex c)
    (href : c.timers .doRefresh6 = true → c.refreshType ≠ none) (hstop : c.stop = none) :
    Safe ex (c.startInit6 cfg) where
  timers := fun k hk => by
    simp only [startInit6, addTimeout_timers, Bool.or_eq_true, decide_eq_true_eq] at hk
    rcases hk with hk | rfl
    · exact ht.allows (.inl rfl) hk
    · exact .inr rfl
  handler := .inl rfl
  active := fun hs => by rcases hs with hs | hs | hs | hs <;> cases hs
  stopped := nofun
  selected := nofun
  refreshType := fun h => by
    rcases h with h | h | h
    · cases h
    · cases h
    · exact href (by simpa [startInit6] using h)
  stop := hstop

structure Choosing (ex : List Timer) (c : Client) : Prop where
  state : c.state = .selecting
  handler : c.handler = .reply
  selected : c.selectedLease ≠ none
  leftover : Leftover ex c
  refreshType : c.timers .doRefresh6 = true → c.refreshType ≠ none
  stop : c.stop = none

lemma select_choosing (hadv : c.advertisedLeases ≠ []) (ht : Leftover ex c)
    (href : c.timers .doRefresh6 = true → c.refreshType ≠ none) (hstop : c.stop = none) :
    Choosing ex (c.select cfg) := by
  obtain ⟨_, _, _, _, _, heq⟩ := select_spec cfg hadv
  rw [heq]
  exact ⟨rfl, rfl, nofun, ht, href, hstop⟩

lemma Choosing.safe (h : Choosing ex c) (s : ℤ × ℤ) : Safe ex { c with startTime := s } where
  timers := fun k hk => by
    rw [show Client.state _ = .selecting from h.state]
    exact h.leftover.allows (.inr rfl) hk
  handler := by
    rw [h.state]
    exact h.handler
  active := fun hs => by rcases hs with hs | hs | hs | hs <;> exact nomatch h.state.symm.trans hs
  stopped := fun hs => nomatch h.state.symm.trans hs
  selected := fun _ => h.selected
  refreshType := fun hr => by
    rcases hr with hs | hs | hr
    · exact nomatch h.state.symm.trans hs
    · exact nomatch h.state.symm.trans hs
    · exact h.refreshType hr
  stop := h.stop

lemma Safe.addTimeout (h : Safe ex c) (hk : c.state.allows c.activeLease.isSome k = true)
    (href : k = .doRefresh6 → c.refreshType ≠ none) : Safe ex (c.addTimeout k) :=
  { h with
    timers := fun j hj => by
      simp only [addTimeout_timers, Bool.or_eq_true, decide_eq_true_eq] at hj
      rcases hj with hj | rfl
      · exact h.timers j hj
      · exact .inr hk
    refreshType := fun hr => by
      rcases hr with hs | hs | hr
      · exact h.refreshType (.inl hs)
      · exact h.refreshType (.inr (.inl hs))
      · simp only [addTimeout_timers, Bool.or_eq_true, decide_eq_true_eq] at hr
        rcases hr with hr | rfl
        · exact h.refreshType (.inr (.inr hr))
        · exact href rfl }

lemma Safe.sent (h : Safe ex c) (hk : c.state.allows c.activeLease.isSome k = true)
    (href : k = .doRefresh6 → c.refreshType ≠ none) : Safe ex (c.sent k) :=
  Safe.addTimeout (c := { c with txcount := c.txcount + 1 }) { h with } hk href

lemma Safe.cancelTimeout (h : Safe ex c) (k : Timer) : Safe ex (c.cancelTimeout k) :=
  { h with
    timers := fun j hj => by
      simp only [cancelTimeout_timers, Bool.and_eq_true] at hj
      exact h.timers j hj.1
    refreshType := fun hr => h.refreshType <| hr.imp_right fun hr => hr.imp_right fun hr => by
      simp only [cancelTimeout_timers, Bool.and_eq_true] at hr
      exact hr.1 }

/-- **`do_select6`** in a client that has chosen a lease. -/
lemma doSelect6_safe (h : Choosing ex c) : Safe ex (c.doSelect6 cfg m) := by
  refine selectLoop_rule
    (fun c s hc hadv => select_choosing hadv hc.leftover hc.refreshType hc.stop)
    (fun c s hc _ => startInit6_safe hc.leftover hc.refreshType hc.stop)
    (fun c s hc => (hc.safe s).sent ?_ nofun) (fun c s hc _ => hc.safe s) _ h (Nat.lt_succ_self _)
  rw [show Client.state _ = .selecting from hc.state]
  rfl

lemma startSelecting6_safe (hadv : c.advertisedLeases ≠ []) (ht : Leftover ex c)
    (href : c.timers .doRefresh6 = true → c.refreshType ≠ none) (hstop : c.stop = none) :
    Safe ex (c.startSelecting6 cfg m) := by
  unfold startSelecting6
  rw [if_neg hadv]
  exact doSelect6_safe (select_choosing hadv ht href hstop)

/-! ### The active lease -/

lemma Safe.planned (h : Safe ex c) (hold : Holding c.state) (hp : Planned c c') : Safe ex c' where
  timers := fun k hk => by
    rw [hp.state, hp.activeLease]
    cases hl : k.ofLease with
    | true => right; rcases hold with hs | hs | hs <;> rw [hs] <;> simp [State.allows, hl]
    | false => exact h.timers k ((hp.timers k hl).symm.trans hk)
  handler := by rw [hp.state, hp.handler]; exact h.handler
  active := fun hs => by
    rw [hp.activeLease, hp.advertisedLeases]
    exact h.active (hp.state ▸ hs)
  stopped := fun hs => by
    rw [hp.activeLease]
    exact h.stopped (hp.state ▸ hs)
  selected := fun hs => by
    rw [hp.selectedLease]
    exact h.selected (hp.state ▸ hs)
  refreshType := fun hr => by
    rw [hp.refreshType]
    rw [hp.state, hp.timers .doRefresh6 rfl] at hr
    exact h.refreshType hr
  stop := hp.stop.trans h.stop

lemma Safe.held (h : Safe ex c) (hold : Holding c.state) (hk : c.timers k = true) :
    k ∈ ex ∨ k = .doRefresh6 ∨ k.ofLease = true := by
  have ht := h.timers k hk
  rcases hold with hs | hs | hs <;> rw [hs] at ht <;> simpa [State.allows] using ht

/-- **`dhc6_check_times`** in a client that holds its lease. -/
lemma checkTimes_safe (h : Safe ex c) (hold : Holding c.state) : Safe ex (c.checkTimes cfg m) := by
  obtain ⟨l, hl⟩ := ne_none_iff_exists'.1 (h.active (.inr hold)).1
  rcases checkTimes_cases cfg m hl with ⟨_, heq⟩ | hp | ⟨hnot, _⟩
  · rw [heq]
    have hcancel := planned_cancelLeaseTimers (c := c)
    refine startInit6_safe (fun k hk => ?_) (fun hr => ?_) h.stop
    · cases hlease : k.ofLease with
      | true => exact nomatch (cancelLeaseTimers_timers hlease).symm.trans hk
      | false =>
        have hk : c.timers k = true := (hcancel.timers k hlease).symm.trans hk
        rcases h.held hold hk with hk | rfl | hk
        · exact .inl hk
        · exact .inr ⟨rfl, by simp⟩
        · exact nomatch hlease.symm.trans hk
    · exact h.refreshType (.inr (.inr ((hcancel.timers .doRefresh6 rfl).symm.trans hr)))
  · exact h.planned hold hp
  · exact absurd hold hnot

lemma Safe.withActive (h : Safe ex c) (hold : Holding c.state) (l : Lease) :
    Safe ex { c with activeLease := some l } :=
  { h with
    timers := fun k hk => by
      have ht := h.timers k hk
      rcases hold with hs | hs | hs <;> rw [hs] at ht <;> rw [hs] <;> exact ht
    active := fun hs => ⟨nofun, (h.active hs).2⟩
    stopped := fun hs => by rcases hold with h | h | h <;> exact nomatch h.symm.trans hs }

lemma startBound_safe (hs : c.state = .selecting ∨ c.state = .rebooting ∨ c.state = .renewing ∨
      c.state = .rebinding) (hlease : c.activeLease ≠ none) (hadv : c.advertisedLeases = [])
    (ht : ∀ k, c.timers k = true → k ∈ ex ∨ k = .doRefresh6 ∨ k.ofLease = true)
    (href : c.timers .doRefresh6 = true → c.refreshType ≠ none) (hstop : c.stop = none) :
    Safe ex (c.startBound cfg m) := by
  have bound : ∀ l, Safe ex { c with activeLease := some l, handler := .bound, state := .bound } :=
    fun l =>
      { timers := fun k hk => by simpa [State.allows] using ht k hk
        handler := rfl
        active := fun _ => ⟨nofun, hadv⟩
        stopped := nofun
        selected := nofun
        refreshType := fun hr => by
          rcases hr with hr | hr | hr
          · cases hr
          · cases hr
          · exact href hr
        stop := hstop }
  obtain ⟨l, hl⟩ := ne_none_iff_exists'.1 hlease
  unfold startBound
  rw [hl]
  rcases hs with hs | hs | hs | hs <;> rw [hs] <;>
    exact checkTimes_safe (bound _) (.inl rfl)

lemma Safe.refreshes (h : Safe ex c) : c.timers .doRefresh6 = true → c.refreshType ≠ none :=
  fun hr => h.refreshType (.inr (.inr hr))

lemma adopt_safe (hs : c.state = .selecting ∨ c.state = .renewing ∨ c.state = .rebinding)
    (ht : ∀ k, c.timers k = true → k ∈ ex ∨ k = .doRefresh6 ∨ k.ofLease = true)
    (href : c.timers .doRefresh6 = true → c.refreshType ≠ none) (hstop : c.stop = none)
    (l : Lease) : Safe ex (c.adopt cfg m l) :=
  startBound_safe (hs.imp_right .inr) nofun rfl ht href hstop

lemma Leftover.held (h : Leftover ex c) (hk : c.timers k = true) :
    k ∈ ex ∨ k = .doRefresh6 ∨ k.ofLease = true := by
  refine (h k hk).imp_right fun ⟨_, hm⟩ => ?_
  revert hm
  cases k <;> decide

def exchanges : List Timer := [.doConfirm6, .doSelect6, .doRefresh6, .doRelease6]

lemma cancelExchanges_timers :
    c.cancelExchanges.timers k = true ↔ c.timers k = true ∧ k ∉ exchanges := by
  cases k <;> simp [cancelExchanges, exchanges]

lemma Safe.cancelExchanges (h : Safe exchanges c) : Safe [] c.cancelExchanges := by
  rw [cancelExchanges_eq]
  exact { h with
    timers := fun k hk => by
      obtain ⟨ht, hk⟩ := cancelExchanges_timers.1 hk
      exact .inr ((h.timers k ht).resolve_left hk)
    refreshType := fun hr => h.refreshType <| hr.imp_right fun hr => hr.imp_right fun hr =>
      (cancelExchanges_timers.1 hr).1 }

lemma Safe.replyState (h : Safe ex c) (hh : c.handler = .reply) :
    c.state = .selecting ∨ c.state = .rebooting ∨ c.state = .renewing ∨ c.state = .rebinding := by
  have hserve := h.handler
  rw [hh] at hserve
  revert hserve
  cases c.state <;> simp [State.Serves]

lemma Safe.possible (h : Safe ex c) (hh : c.handler = .reply) : ¬ Impossible c := by
  rintro (⟨hs, hn⟩ | ⟨hs, hn⟩ | ⟨hs, hn | hn⟩ | hs)
  · exact h.selected hs hn
  · exact (h.active (.inl hs)).1 hn
  · exact (h.active (.inr (.inr hs))).1 hn
  · exact hn (h.active (.inr (.inr hs))).2
  · rcases h.replyState hh with hs' | hs' | hs' | hs' <;> exact nomatch hs.symm.trans hs'

/-! ### Timers -/

section

variable (h : Safe [] c)

include h

lemma Safe.leftover {j : Timer}
    (hs : (c.state = .init ∧ j = .doInit6) ∨ (c.state = .selecting ∧ j = .doSelect6) ∨
      c.state = .stopped) : Leftover [] (c.cancelTimeout j) := by
  intro k hk
  simp only [cancelTimeout_timers, Bool.and_eq_true, Bool.not_eq_true'] at hk
  have ht := h.timers k hk.1
  change k ∈ [] ∨ (c.activeLease = none ∧ _)
  rcases hs with ⟨hs, rfl⟩ | ⟨hs, rfl⟩ | hs <;> rw [hs] at ht <;>
    simpa [State.allows, hk.2] using ht

def Sound (c : Client) : Prop := c.stop = some .finish ∨ Safe [] c

lemma doInit6_sound (hleft : Leftover [] c) (hs : c.state = .init) : Sound (c.doInit6 cfg m) := by
  unfold doInit6
  by_cases hadv : c.advertisedLeases ≠ []
  · rw [if_pos hadv]
    exact .inr (startSelecting6_safe hadv hleft h.refreshes h.stop)
  · obtain ⟨t, s, heq, _, _⟩ := checkTiming6_cases c m
    rw [if_neg hadv, heq]
    have hserve := h.handler
    rw [hs] at hserve
    cases t
    · have hc : Safe [] { c with
          startTime := s, handler := if cfg.rapidCommit then .rapidCommit else c.handler } := by
        refine { h with handler := ?_ }
        rw [hs]
        split_ifs
        · exact .inr rfl
        · exact hserve
      refine .inr (hc.sent ?_ nofun)
      rw [show Client.state _ = .init from hs]
      rfl
    · exact .inr { h with }
    · dsimp only [stoppingFinished]
      split_ifs
      · exact .inl rfl
      · exact .inr
          { timers := fun k hk => by
              rcases hleft k hk with hk | ⟨_, hk⟩
              · exact .inl hk
              · exact .inr (by simpa [State.allows] using hk)
            handler := hserve
            active := fun hs => by rcases hs with hs | hs | hs | hs <;> cases hs
            stopped := fun _ => rfl
            selected := nofun
            refreshType := fun hr => by
              rcases hr with hr | hr | hr
              · cases hr
              · cases hr
              · exact h.refreshes hr
            stop := h.stop }

lemma doConfirm6_safe (hs : c.state = .rebooting)
    (hnone : ∀ k, c.timers k = false) : Safe [] (c.doConfirm6 cfg m) := by
  obtain ⟨hlease, hadv⟩ := h.active (.inl hs)
  obtain ⟨l, hl⟩ := ne_none_iff_exists'.1 hlease
  obtain ⟨t, s, heq, _, _⟩ := checkTiming6_cases c m
  have hc : Safe [] { c with startTime := s } := { h with }
  have hbound : Safe [] ({ c with startTime := s }.startBound cfg m) :=
    startBound_safe (.inr (.inl hs)) hlease hadv (fun k hk => nomatch (hnone k).symm.trans hk)
      (fun hr => nomatch (hnone .doRefresh6).symm.trans hr) h.stop
  unfold doConfirm6
  rw [hl, heq]
  cases t
  · dsimp only
    split_ifs
    · refine hc.sent ?_ nofun
      rw [show Client.state _ = .rebooting from hs]
      rfl
    · exact hc
  · exact hbound
  · exact hbound

lemma doRefresh6_safe (hold : Holding c.state) (href : c.refreshType ≠ none) :
    Safe [] (c.doRefresh6 cfg m) := by
  have hstamp : Safe [] (c.stamp m) := { h with }
  rcases doRefresh6_cases c cfg m with ⟨hl, _⟩ | ⟨hr, _⟩ | ⟨_, _, heq | heq | heq⟩
  · exact absurd hl (h.active (.inr hold)).1
  · exact absurd hr href
  · rw [heq]
    exact checkTimes_safe hstamp hold
  · rw [heq]
    refine hstamp.sent ?_ fun _ => href
    rcases hold with hs | hs | hs <;> rw [show (c.stamp m).state = _ from hs] <;> rfl
  · rw [heq]
    exact hstamp

lemma startRefresh6_safe (hold : Holding c.state) {type : RefreshType}
    {st : State} (hst : st = .renewing ∨ st = .rebinding) :
    Safe [] (startRefresh6 type st cfg m c) := by
  refine doRefresh6_safe ?_ (.inr hst) nofun
  exact
    { timers := fun k hk => by
        have ht := h.held hold hk
        rcases hst with rfl | rfl <;> simpa [State.allows] using ht
      handler := by rcases hst with rfl | rfl <;> exact rfl
      active := fun _ => h.active (.inr hold)
      stopped := fun hs => by rcases hst with rfl | rfl <;> cases hs
      selected := fun hs => by rcases hst with rfl | rfl <;> cases hs
      refreshType := fun _ => nofun
      stop := h.stop }

lemma doDepref_safe (hold : c.activeLease = none ∨ Holding c.state) :
    Safe [] (c.doDepref cfg m) := by
  unfold doDepref
  rcases eq_none_or_eq_some c.activeLease with hl | ⟨l, hl⟩
  · rw [hl]
    exact h
  · rw [hl]
    have hold := hold.resolve_left (by simp [hl])
    exact checkTimes_safe (h.withActive hold _) hold

/-- A lease that is not about to be renewed leaves no timer behind that would miss it. -/
lemma Safe.lost (hold : Holding c.state)
    (hrenew : c.timers .startRenew6 = false ∧ c.timers .startRebind6 = false) :
    Leftover ex { c with activeLease := none } := by
  intro k hk
  rcases h.held hold hk with hk' | rfl | hlease
  · cases hk'
  · exact .inr ⟨rfl, by simp⟩
  · rcases Timer.ofLease_cases hlease with rfl | rfl | hmem
    · exact nomatch hrenew.1.symm.trans hk
    · exact nomatch hrenew.2.symm.trans hk
    · exact .inr ⟨rfl, hmem⟩

/-- **`do_expire`**; a lease that is lost must not be about to be renewed. -/
lemma doExpire_safe (hold : c.activeLease = none ∨ Holding c.state)
    (hlost : ∀ l ∈ c.activeLease, l.Over m.sec →
      c.timers .startRenew6 = false ∧ c.timers .startRebind6 = false) :
    Safe [] (c.doExpire cfg m) := by
  rcases eq_none_or_eq_some c.activeLease with hl | ⟨l, hl⟩
  · unfold doExpire
    rw [hl]
    exact h
  · have hold := hold.resolve_left (by simp [hl])
    rcases doExpire_cases cfg m hl with ⟨hover, heq⟩ | ⟨l', _, heq⟩ <;> rw [heq]
    · exact startInit6_safe (h.lost hold (hlost l hl hover)) h.refreshes h.stop
    · exact checkTimes_safe (h.withActive hold _) hold

/-! ### Messages -/

lemma Safe.leftover_init (hs : c.state = .init ∨ c.state = .stopped) :
    Leftover [] (c.cancelTimeout .doInit6) :=
  h.leftover (hs.imp (fun hs => ⟨hs, rfl⟩) .inr)

lemma initHandler_safe (hs : c.state = .init ∨ c.state = .stopped)
    (p : Packet) : Safe [] (c.initHandler cfg m p) := by
  unfold initHandler
  split_ifs
  · exact h
  · rcases eq_none_or_eq_some (leaseify p m.sec) with hl | ⟨l, hl⟩ <;> rw [hl]
    · exact h
    · dsimp only
      split_ifs
      · exact h
      · exact startSelecting6_safe (insertLease_ne_nil _ _) (h.leftover_init hs)
          (h.cancelTimeout .doInit6).refreshes h.stop
      · refine { h with active := fun ha => ?_ }
        rcases hs with hs | hs <;> rcases ha with ha | ha | ha | ha <;>
          exact nomatch hs.symm.trans ha

lemma rapidCommitHandler_safe (hs : c.state = .init ∨ c.state = .stopped)
    (p : Packet) : Safe [] (c.rapidCommitHandler cfg m p) := by
  unfold rapidCommitHandler
  split_ifs
  · exact initHandler_safe h hs p
  · exact h
  · rcases eq_none_or_eq_some (leaseify p m.sec) with hl | ⟨l, hl⟩ <;> rw [hl]
    · exact h
    · have hsame := checkReply_stopped cfg m hs l
      dsimp only
      rcases hr : c.checkReply cfg m l with ⟨c', r⟩
      rw [hr] at hsame
      obtain rfl : c' = c := hsame
      cases r
      · exact adopt_safe (c := { c'.cancelTimeout .doInit6 with state := .selecting }) (.inl rfl)
          (fun k hk => (h.leftover_init hs).held hk) (h.cancelTimeout .doInit6).refreshes h.stop l
      all_goals exact h

section

variable (hh : c.handler = .reply)

include hh

lemma Safe.leftover_reply (hcalm : c.state = .renewing ∨ c.state = .rebinding →
      ∀ k, k.ofLease = true → c.timers k = false) : Leftover exchanges c := by
  intro k hk
  have ht := (h.timers k hk).resolve_left nofun
  have refreshing (hs : c.state = .renewing ∨ c.state = .rebinding) : k ∈ exchanges := by
    rcases h.held (.inr hs) hk with hk | rfl | hlease
    · cases hk
    · decide
    · exact nomatch (hcalm hs k hlease).symm.trans hk
  rcases h.replyState hh with hs | hs | hs | hs
  · rw [hs] at ht
    simp only [State.allows, Bool.or_eq_true, decide_eq_true_eq] at ht
    rcases ht with rfl | ht
    · exact .inl (by decide)
    · exact .inr (by simpa using ht)
  · rw [hs] at ht
    obtain rfl : k = .doConfirm6 := by simpa [State.allows] using ht
    exact .inl (by decide)
  · exact .inl (refreshing (.inl hs))
  · exact .inl (refreshing (.inr hs))

/-- The lease timers do not stand in the way of what the client is told: only one that is not on
the link is given up at once, and then nothing may be about to renew it. -/
def Bears (c : Client) (code : ℕ) : Prop :=
  ∀ k, c.timers k = true → k.ofLease = true →
    code = statusNotOnLink ∧ (k = .doDepref ∨ k = .doExpire)

/-- **No Reply finds the client in an impossible state**: what it does leaves the client safe, if
the timers of a lease that is being renewed bear it. -/
lemma Acts.safe {l : Lease} {code : Option ℕ}
    (hcalm : c.state = .renewing ∨ c.state = .rebinding → ∀ n ∈ code, Bears c n)
    (ha : Acts cfg m c l code c') : Safe exchanges c' := by
  have asking (hs : c.state = .selecting ∨ c.state = .rebooting) : Leftover exchanges c :=
    h.leftover_reply hh fun hr => by rcases hs with hs | hs <;> simp [hs] at hr
  have renewing (hs : c.state = .renewing ∨ c.state = .rebinding) {n : ℕ} (hn : code = some n)
      (hne : n ≠ statusNotOnLink) : Leftover exchanges c :=
    h.leftover_reply hh fun hs k hk => Bool.eq_false_iff.2 fun ht => hne (hcalm hs n hn k ht hk).1
  cases ha with
  | impossible _ hi => exact absurd hi (h.possible hh)
  | next hs hadv _ => exact startSelecting6_safe hadv (asking hs) h.refreshes h.stop
  | low hs hadv _ => exact startSelecting6_safe hadv (asking (.inl hs)) h.refreshes h.stop
  | giveUp hs _ => exact startInit6_safe (asking (.inl hs)) h.refreshes h.stop
  | notOnLink hs => exact startInit6_safe (asking (.inl hs)) h.refreshes h.stop
  | unconfirmed hs =>
    exact startInit6_safe (fun k hk => (asking (.inr hs) k hk).imp_right fun hk => ⟨rfl, hk.2⟩)
      h.refreshes h.stop
  | restart hs hcode => exact startInit6_safe (renewing hs rfl hcode) h.refreshes h.stop
  | noBinding hs _ =>
    exact startSelecting6_safe (List.cons_ne_nil _ _) (renewing hs rfl (by decide)) h.refreshes
      h.stop
  | stopped hs => rcases h.replyState hh with hs' | hs' | hs' | hs' <;>
      exact nomatch hs.symm.trans hs'
  | withdraw hs =>
    have hold : Holding c.state := .inr hs
    have idle (k : Timer) (hk : k = .startRenew6 ∨ k = .startRebind6) : c.timers k = false :=
      Bool.eq_false_iff.2 fun ht => by
        have hb := hcalm hs _ rfl k ht (by rcases hk with rfl | rfl <;> rfl)
        rcases hk with rfl | rfl <;> simp at hb
    rcases withdrawLease_cases c cfg m with ⟨hn, _⟩ | heq | ⟨l, heq⟩
    · exact absurd hn (h.active (.inr hold)).1
    · rw [heq]
      exact startInit6_safe (h.lost hold ⟨idle _ (.inl rfl), idle _ (.inr rfl)⟩) h.refreshes h.stop
    · rw [heq]
      have hc : Safe exchanges { c with activeLease := some l } :=
        { h.withActive hold l with
          timers := fun k hk => .inr (((h.withActive hold l).timers k hk).resolve_left nofun) }
      exact checkTimes_safe hc hold

lemma Safe.held_reply (hk : c.cancelExchanges.timers k = true) :
    k ∈ ([] : List Timer) ∨ k = .doRefresh6 ∨ k.ofLease = true := by
  obtain ⟨hk, hex⟩ := cancelExchanges_timers.1 hk
  have ht := (h.timers k hk).resolve_left nofun
  rcases h.replyState hh with hs | hs | hs | hs <;> rw [hs] at ht <;> right <;> revert ht hex <;>
    cases k <;> cases c.activeLease.isSome <;> decide

lemma replied_safe (l : Lease) : Safe [] (c.replied cfg m l .success) := by
  have hc : Safe [] c.cancelExchanges :=
    Safe.cancelExchanges { h with timers := fun k hk => .inr ((h.timers k hk).resolve_left nofun) }
  have hnot : c.state ≠ .stopped := fun hs => by
    rcases h.replyState hh with hs' | hs' | hs' | hs' <;> exact nomatch hs.symm.trans hs'
  unfold replied
  rw [cancelExchanges_eq] at hc ⊢
  dsimp only
  rw [if_neg hnot, if_neg nofun]
  split_ifs with hreb hlease
  · exact absurd hlease (h.active (.inl hreb)).1
  · exact startBound_safe (.inr (.inl hreb))
      hlease (h.active (.inl hreb)).2 (fun k hk => h.held_reply hh hk) hc.refreshes h.stop
  · have hs : c.state = .selecting ∨ c.state = .renewing ∨ c.state = .rebinding := by
      rcases h.replyState hh with hs | hs | hs
      · exact .inl hs
      · exact absurd hs hreb
      · exact .inr hs
    exact adopt_safe (c := { c with timers := c.cancelExchanges.timers, selectedLease := none }) hs
      (fun k hk => h.held_reply hh hk) hc.refreshes h.stop l

lemma replyHandler_safe (p : Packet)
    (hcalm : p.msgType = .reply → c.state = .renewing ∨ c.state = .rebinding →
      ∀ l ∈ leaseify p m.sec, ∀ n ∈ c.refusal cfg l, Bears c n) :
    Safe [] (c.replyHandler cfg m p) := by
  unfold replyHandler
  split_ifs with hmsg
  · exact h
  · rcases eq_none_or_eq_some (leaseify p m.sec) with hl | ⟨l, hl⟩ <;> rw [hl]
    · exact h
    · dsimp only
      rcases checkReply_settled cfg m c l with ⟨hc, hr⟩ | ⟨hr, ha⟩
      · rw [hc]
        split_ifs with _ hbad
        · exact h
        · exact h
        · have hr : (c.checkReply cfg m l).2 = .success := by
            by_contra hne
            exact hbad ⟨hne, hr⟩
          rw [hr]
          exact replied_safe h hh l
      · have hsafe := ha.safe h hh fun hs => hcalm (not_not.1 hmsg) hs l hl
        rw [if_neg (not_not.2 hsafe.stop), hr, if_neg (fun hbad => hbad.2 rfl)]
        have hc := hsafe.cancelExchanges
        unfold replied
        simp only
        split_ifs with hs hlease
        · exact hc
        · exact absurd (hc.stopped hs) hlease
        · exact hc

end

/-! ### Runs -/

/-- The event does not take the client out of a lease that timers are still going to look at: when
a renewal is refused, the timers of the lease that are pending bear it; and when `do_expire` finds
no address that is left, the lease is not about to be renewed. -/
def Settles (cfg : Config) (c : Client) : Event → Prop
  | .packet p m => p.msgType = .reply → c.handler = .reply →
      c.state = .renewing ∨ c.state = .rebinding →
      ∀ l ∈ leaseify p m.sec, ∀ n ∈ c.refusal cfg l, Bears c n
  | .fire k m => k = .doExpire → c.timers k = true → ∀ l ∈ c.activeLease, l.Over m.sec →
      c.timers .startRenew6 = false ∧ c.timers .startRebind6 = false

def SettledRun (cfg : Config) : Client → List Event → Prop
  | _, [] => True
  | c, e :: es => Settles cfg c e ∧ SettledRun cfg (c.step cfg e) es

lemma Safe.lease_timer (hk : c.timers k = true)
    (hm : k ∈ [Timer.doRefresh6, .doDepref, .doExpire]) :
    c.activeLease = none ∨ Holding c.state := by
  have ht := (h.timers k hk).resolve_left nofun
  simp only [List.mem_cons, List.not_mem_nil, or_false] at hm
  cases hs : c.state <;> rw [hs] at ht <;> rcases hm with rfl | rfl | rfl <;>
    simp_all [State.allows, Holding]

lemma Safe.renew_timer (hk : c.timers k = true)
    (hm : k = .startRenew6 ∨ k = .startRebind6) : Holding c.state := by
  have ht := (h.timers k hk).resolve_left nofun
  cases hs : c.state <;> rw [hs] at ht <;> rcases hm with rfl | rfl <;>
    simp_all [State.allows, Holding]

lemma fire_sound (hc : Settles cfg c (.fire k m)) (hk : c.timers k = true) :
    Sound (callback cfg m k (c.cancelTimeout k)) := by
  have ht := (h.timers k hk).resolve_left nofun
  have hcancel := h.cancelTimeout k
  cases k with
  | doInit6 =>
    have hs : c.state = .init := by
      revert ht
      cases c.state <;> simp [State.allows, Timer.ofLease]
    exact doInit6_sound hcancel (h.leftover_init (.inl hs)) hs
  | doConfirm6 =>
    have hs : c.state = .rebooting := by
      revert ht
      cases c.state <;> simp [State.allows, Timer.ofLease]
    refine .inr (doConfirm6_safe hcancel hs fun k => Bool.eq_false_iff.2 fun hk => ?_)
    simp only [cancelTimeout_timers, Bool.and_eq_true, Bool.not_eq_true', decide_eq_false_iff_not]
      at hk
    have ht := (h.timers k hk.1).resolve_left nofun
    rw [hs] at ht
    exact hk.2 (by simpa [State.allows] using ht)
  | doSelect6 =>
    have hs : c.state = .selecting := by
      revert ht
      cases c.state <;> simp [State.allows, Timer.ofLease]
    have hserve := h.handler
    rw [hs] at hserve
    exact .inr (doSelect6_safe ⟨hs, hserve, h.selected hs, h.leftover (.inr (.inl ⟨hs, rfl⟩)),
      hcancel.refreshes, h.stop⟩)
  | doRefresh6 =>
    rcases h.lease_timer hk (by simp) with hn | hold
    · have heq : (c.cancelTimeout .doRefresh6).doRefresh6 cfg m = c.cancelTimeout .doRefresh6 := by
        unfold doRefresh6
        rw [show (c.cancelTimeout .doRefresh6).activeLease = none from hn]
      change Sound ((c.cancelTimeout .doRefresh6).doRefresh6 cfg m)
      rw [heq]
      exact .inr hcancel
    · exact .inr (doRefresh6_safe hcancel hold (h.refreshes hk))
  | doRelease6 =>
    revert ht
    cases c.state <;> simp [State.allows, Timer.ofLease]
  | startRenew6 =>
    exact .inr (startRefresh6_safe hcancel (h.renew_timer hk (.inl rfl)) (.inl rfl))
  | startRebind6 =>
    exact .inr (startRefresh6_safe hcancel (h.renew_timer hk (.inr rfl)) (.inr rfl))
  | doDepref => exact .inr (doDepref_safe hcancel (h.lease_timer hk (by simp)))
  | doExpire =>
    refine .inr (doExpire_safe hcancel (h.lease_timer hk (by simp)) fun l hl hover => ?_)
    simpa using hc rfl hk l hl hover

lemma handle_safe {p : Packet} (hc : Settles cfg c (.packet p m)) : Safe [] (c.handle cfg m p) := by
  have hserve := h.handler
  have hinit : c.handler = .init ∨ c.handler = .rapidCommit →
      c.state = .init ∨ c.state = .stopped := fun hh => by
    revert hserve
    cases c.state <;> rcases hh with hh | hh <;> simp [State.Serves, hh]
  unfold handle
  cases hh : c.handler <;> dsimp only
  case null =>
    rw [hh] at hserve
    revert hserve
    cases c.state <;> simp [State.Serves]
  case init => exact initHandler_safe h (hinit (.inl hh)) p
  case rapidCommit => exact rapidCommitHandler_safe h (hinit (.inr hh)) p
  case reply => exact replyHandler_safe h hh p fun hmsg hs => hc hmsg hh hs
  case bound => exact h

end

lemma step_sound (h : Sound c) {e : Event} (hc : Settles cfg c e) : Sound (c.step cfg e) := by
  unfold step
  rcases h with hf | h
  · rw [if_pos (by simp [hf])]
    exact .inl hf
  · rw [if_neg (not_not.2 h.stop)]
    cases e with
    | packet p m => exact .inr (handle_safe h hc)
    | fire k m =>
      dsimp only
      split_ifs with hk
      · exact fire_sound h hc hk
      · exact .inr h

lemma run_sound : ∀ (es : List Event) {c : Client}, Sound c → SettledRun cfg c es →
    Sound (c.run cfg es)
  | [], _, h, _ => h
  | _ :: es, _, h, hc => run_sound es (step_sound h hc.1) hc.2

lemma started_safe (cfg : Config) (m : Moment) (stored : Option Lease) {start : Start}
    (hstart : start ≠ .release) : Safe [] (started cfg m stored start) := by
  have init : Safe [] ({ activeLease := stored : Client }.startInit6 cfg) :=
    startInit6_safe nofun nofun rfl
  cases start with
  | release => exact absurd rfl hstart
  | init => exact init
  | confirm =>
    unfold started startConfirm6
    cases stored with
    | none => exact init
    | some l =>
      dsimp only
      split_ifs
      · exact init
      · refine Safe.addTimeout ?_ rfl fun _ => nofun
        exact ⟨nofun, rfl, fun _ => ⟨nofun, rfl⟩, nofun, nofun, fun _ => nofun, rfl⟩
      · refine Safe.addTimeout ?_ rfl nofun
        refine ⟨nofun, rfl, fun _ => ⟨nofun, rfl⟩, nofun, nofun, fun hr => ?_, rfl⟩
        rcases hr with hr | hr | hr <;> cases hr

/-- **No server stops the client.** Started with any stored lease, the client never reaches a
`log_fatal`, nor a null pointer, in a run whose events do not take it out of a lease that timers are
still going to look at. -/
theorem never_fatal (cfg : Config) (m : Moment) (stored : Option Lease) (start : Start)
    (hstart : start ≠ .release) (es : List Event)
    (hc : SettledRun cfg (started cfg m stored start) es) (site : Site) :
    ((started cfg m stored start).run cfg es).stop ≠ some (.fatal site) ∧
      ((started cfg m stored start).run cfg es).stop ≠ some .crash := by
  rcases run_sound es (.inr (started_safe cfg m stored hstart)) hc with h | h
  · rw [h]
    exact ⟨nofun, nofun⟩
  · rw [h.stop]
    exact ⟨nofun, nofun⟩

instance (code : ℕ) : Decidable (Bears c code) :=
  decidable_of_iff (∀ k ∈ [Timer.startRenew6, .startRebind6, .doDepref, .doExpire],
    c.timers k = true → code = statusNotOnLink ∧ (k = .doDepref ∨ k = .doExpire)) <| by
      refine forall_congr' fun k => ?_
      cases k <;> simp [Timer.ofLease]

instance : (e : Event) → Decidable (Settles cfg c e)
  | .packet p m => inferInstanceAs (Decidable (p.msgType = .reply → c.handler = .reply →
      c.state = .renewing ∨ c.state = .rebinding →
      ∀ l ∈ leaseify p m.sec, ∀ n ∈ c.refusal cfg l, Bears c n))
  | .fire k m => inferInstanceAs (Decidable (k = .doExpire → c.timers k = true →
      ∀ l ∈ c.activeLease, l.Over m.sec → _ ∧ _))

instance decidableSettledRun : (c : Client) → (es : List Event) → Decidable (SettledRun cfg c es)
  | _, [] => inferInstanceAs (Decidable True)
  | c, e :: es =>
    have := decidableSettledRun (c.step cfg e) es
    inferInstanceAs (Decidable (Settles cfg c e ∧ SettledRun cfg (c.step cfg e) es))

/-! ### A lease of two addresses -/

section Sample

/-- A server gives two addresses, the first of which is deprecated sooner. -/
def twoAddresses (msgType : MsgType) (status : StatusOption) : Packet where
  msgType := msgType
  serverId := [1]
  status := status
  ias := [{ iaType := .na, iaid := [0, 0, 0, 1], renew := 50
            addrs := [{ address := 0x20 :: List.replicate 14 0 ++ [1]
                        preferredLife := 100, maxLife := 200 },
                      { address := 0x20 :: List.replicate 14 0 ++ [2]
                        preferredLife := 150, maxLife := 200 }] }]

def renewalBegun : List Event :=
  [.fire .doInit6 (moment 0), .packet (twoAddresses .advertise .absent) (moment 0),
    .fire .doInit6 (moment 1), .packet (twoAddresses .reply .absent) (moment 1),
    .fire .startRenew6 (moment 51)]

theorem never_fatal_sample : ((started sampleConfig (moment 0) none .init).run sampleConfig
      (renewalBegun ++ [.packet (twoAddresses .reply .absent) (moment 52)])).stop ≠
        some (.fatal .checkTimes) :=
  (never_fatal sampleConfig (moment 0) none .init nofun _ (by decide +kernel) .checkTimes).1

/-- The renewal is answered by NoAddrsAvail. The client starts over, but keeps its lease and the
timers; when the first address is to be deprecated, `dhc6_check_times` finds that another address
is preferred in the state INIT. -/
theorem noAddrsAvail_fatal : ((started sampleConfig (moment 0) none .init).run sampleConfig
      (renewalBegun ++ [.packet (twoAddresses .reply (.code statusNoAddrsAvail)) (moment 52),
        .fire .doDepref (moment 101)])).stop = some (.fatal .checkTimes) := by
  decide +kernel

end Sample

end Client

end IscDhcp.Client6
