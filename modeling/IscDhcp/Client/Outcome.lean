import IscDhcp.Client.Dhc6
import Mathlib.Data.List.Basic

/-!
What the functions of the DHCPv6 client can do. `dhc6_check_times` only plans ahead, unless no
address is left; a Reply either leaves the client alone or has one of the effects in `Acts`.
-/

namespace IscDhcp.Client6

open List Option

def Timer.ofLease : Timer → Bool
  | .startRenew6 | .startRebind6 | .doDepref | .doExpire => true
  | _ => false

/-! ### Addresses that are left -/

/-- No address of the lease is valid in the second `now`. -/
def Lease.Over (l : Lease) (now : ℤ) : Prop :=
  ∀ i ∈ l.bindings, ∀ a ∈ i.addrs, a.expired = true ∨ a.starts + a.maxLife ≤ now

instance (l : Lease) (now : ℤ) : Decidable (l.Over now) :=
  inferInstanceAs (Decidable (∀ i ∈ l.bindings, ∀ a ∈ i.addrs, _))

lemma expire_bindings_eq_nil {l : Lease} {now : ℤ} : (l.expire now).bindings = [] ↔ l.Over now := by
  have hexp (a : Addr) : (a.expire now).expired = true ↔
      a.expired = true ∨ a.starts + a.maxLife ≤ now := by
    unfold Addr.expire
    split_ifs with h <;> simp [h]
  simp [Lease.expire, Lease.mapAddrs, Lease.Over, filter_eq_nil_iff, hexp]

lemma foldl_addr_hasAddrs (i : Ia) (as : List Addr) (t : Times × ℤ × ℤ) :
    (as.foldl (Times.addr i) t).1.hasAddrs = (t.1.hasAddrs || as.any (!·.expired)) := by
  induction as generalizing t with
  | nil => simp
  | cons a as ih =>
    rw [foldl_cons, ih, any_cons, ← Bool.or_assoc]
    congr 1
    cases hd : a.deprefed <;> cases hx : a.expired <;> simp [Times.addr, hd, hx]

lemma leaseTimes_hasAddrs (cfg : Config) (l : Lease) :
    (leaseTimes cfg l).hasAddrs = l.bindings.any fun i => i.addrs.any (!·.expired) := by
  have fold (ias : List Ia) (t : Times) : (ias.foldl (Times.ia cfg) t).hasAddrs =
      (t.hasAddrs || ias.any fun i => i.addrs.any (!·.expired)) := by
    induction ias generalizing t with
    | nil => simp
    | cons i ias ih =>
      rw [foldl_cons, ih, any_cons, ← Bool.or_assoc]
      congr 1
      rw [← foldl_addr_hasAddrs i i.addrs (t, (maxTime : ℤ), 0)]
      unfold Times.ia
      dsimp only
      split_ifs <;> rfl
  exact (fold l.bindings {}).trans (Bool.false_or _)

/-! ### The best lease -/

lemma foldl_prefers_mem (cfg : Config) (ls : List Lease) (l : Lease) :
    ls.foldl (fun r c => if prefers cfg r c then c else r) l ∈ l :: ls := by
  induction ls generalizing l with
  | nil => simp
  | cons a ls ih =>
    rw [foldl_cons]
    have h := ih (if prefers cfg l a then a else l)
    split_ifs at h ⊢
    · exact mem_cons_of_mem _ h
    · rcases mem_cons.1 h with h | h
      · rw [h]
        exact mem_cons_self
      · exact mem_cons_of_mem _ (mem_cons_of_mem _ h)

lemma bestLease_spec (cfg : Config) {ls : List Lease} (h : ls ≠ []) :
    ∃ best rest, bestLease cfg ls = some (best, rest) ∧ best ∈ ls ∧ (∀ l ∈ rest, l ∈ ls) ∧
      rest.length + 1 = ls.length := by
  cases ls with
  | nil => exact absurd rfl h
  | cons l ls =>
    have hmem := foldl_prefers_mem cfg ls l
    refine ⟨_, _, rfl, hmem, fun a ha => mem_of_mem_erase ha, ?_⟩
    rw [length_erase_of_mem hmem]
    simp

lemma insertLease_ne_nil (ls : List Lease) (new : Lease) : insertLease ls new ≠ [] := by
  cases ls with
  | nil => exact nofun
  | cons a ls =>
    unfold insertLease
    split_ifs <;> exact nofun

namespace Client

variable {cfg : Config} {m : Moment} {c c' x : Client} {k j : Timer}

@[simp] lemma addTimeout_timers : (c.addTimeout k).timers j = (c.timers j || decide (j = k)) := by
  by_cases h : j = k <;> simp [addTimeout, h]

@[simp] lemma cancelTimeout_timers :
    (c.cancelTimeout k).timers j = (c.timers j && !decide (j = k)) := by
  by_cases h : j = k <;> simp [cancelTimeout, h]

/-! ### Planning -/

/-- The client keeps its state, its leases and its exchange. -/
structure Planned (c x : Client) : Prop where
  state : x.state = c.state
  handler : x.handler = c.handler
  activeLease : x.activeLease = c.activeLease
  selectedLease : x.selectedLease = c.selectedLease
  advertisedLeases : x.advertisedLeases = c.advertisedLeases
  mrc : x.mrc = c.mrc
  refreshType : x.refreshType = c.refreshType
  stop : x.stop = c.stop
  timers : ∀ k, k.ofLease = false → x.timers k = c.timers k
  mrd : c.state = .init ∨ c.state = .selecting → x.mrd = c.mrd

lemma Planned.refl : Planned c c := by constructor <;> intros <;> rfl

lemma Planned.trans (h : Planned c x) (h' : Planned x c') : Planned c c' where
  state := h'.state.trans h.state
  handler := h'.handler.trans h.handler
  activeLease := h'.activeLease.trans h.activeLease
  selectedLease := h'.selectedLease.trans h.selectedLease
  advertisedLeases := h'.advertisedLeases.trans h.advertisedLeases
  mrc := h'.mrc.trans h.mrc
  refreshType := h'.refreshType.trans h.refreshType
  stop := h'.stop.trans h.stop
  timers := fun k hk => (h'.timers k hk).trans (h.timers k hk)
  mrd := fun hs => (h'.mrd (h.state ▸ hs)).trans (h.mrd hs)

lemma planned_timers {timers : Timer → Bool}
    (h : ∀ k, k.ofLease = false → timers k = c.timers k) : Planned c { c with timers } := by
  constructor <;> intros <;> first | exact h _ ‹_› | rfl

lemma planned_addTimeout (hk : k.ofLease = true) : Planned c (c.addTimeout k) :=
  planned_timers fun j hj => Function.update_of_ne (fun h => by rw [h, hk] at hj; cases hj) ..

lemma planned_cancelTimeout (hk : k.ofLease = true) : Planned c (c.cancelTimeout k) :=
  planned_timers fun j hj => Function.update_of_ne (fun h => by rw [h, hk] at hj; cases hj) ..

lemma cancelExchanges_eq (c : Client) :
    c.cancelExchanges = { c with timers := c.cancelExchanges.timers } := by
  simp [cancelExchanges, cancelTimeout]

lemma planned_cancelLeaseTimers : Planned c c.cancelLeaseTimers :=
  (((planned_cancelTimeout rfl).trans (planned_cancelTimeout rfl)).trans
    (planned_cancelTimeout rfl)).trans (planned_cancelTimeout rfl)

lemma cancelLeaseTimers_timers (hk : k.ofLease = true) : c.cancelLeaseTimers.timers k = false := by
  cases k <;> simp [Timer.ofLease] at hk <;> simp [cancelLeaseTimers]

lemma planned_scheduleExpiry (t : Times) : Planned c (c.scheduleExpiry t) := by
  unfold scheduleExpiry
  split_ifs
  · exact (planned_addTimeout rfl).trans (planned_addTimeout rfl)
  · exact planned_addTimeout rfl
  · exact planned_addTimeout rfl
  · exact .refl

def Holding (s : State) : Prop := s = .bound ∨ s = .renewing ∨ s = .rebinding

instance (s : State) : Decidable (Holding s) :=
  inferInstanceAs (Decidable (s = .bound ∨ s = .renewing ∨ s = .rebinding))

lemma planned_limits (hs : Holding c.state) (mrd nextMrd : ℤ) :
    Planned c { c with mrd := mrd, nextMrd := nextMrd } := by
  refine ⟨rfl, rfl, rfl, rfl, rfl, rfl, rfl, rfl, fun _ _ => rfl, fun h => ?_⟩
  rcases hs with hs | hs | hs <;> rcases h with h | h <;> rw [hs] at h <;> cases h

lemma planned_scheduleRebind (hs : Holding c.state) (now : ℤ) (t : Times) :
    Planned c (c.scheduleRebind now t) := by
  unfold scheduleRebind
  split_ifs
  · exact (planned_limits hs _ _).trans (planned_addTimeout rfl)
  · exact planned_limits hs _ c.nextMrd

/-- **`dhc6_check_times`** on a lease: it gives the lease up, it plans ahead, or it calls the
situation impossible. -/
lemma checkTimes_cases (cfg : Config) (m : Moment) {l : Lease} (hl : c.activeLease = some l) :
    ((leaseTimes cfg l).hasAddrs = false ∧
      c.checkTimes cfg m = { c.cancelLeaseTimers with activeLease := none }.startInit6 cfg) ∨
    Planned c (c.checkTimes cfg m) ∨
    (¬ Holding c.state ∧ (c.checkTimes cfg m).stop = some (.fatal .checkTimes)) := by
  unfold checkTimes
  rw [hl]
  dsimp only
  have hcancel : Planned c c.cancelLeaseTimers := planned_cancelLeaseTimers
  cases hhas : (leaseTimes cfg l).hasAddrs with
  | false => exact .inl ⟨rfl, by simp⟩
  | true =>
    simp only [Bool.true_eq_false, if_false]
    have hstate := hcancel.state
    cases hs : c.cancelLeaseTimers.state <;> rw [hs] at hstate <;> dsimp only
    case bound =>
      have hold : Holding c.cancelLeaseTimers.state := .inl hs
      refine .inr (.inl ?_)
      rw [← hs]
      split_ifs
      · exact hcancel.trans (((planned_limits hold c.cancelLeaseTimers.mrd _).trans
          (planned_addTimeout rfl)).trans (planned_scheduleExpiry _))
      · exact hcancel.trans ((planned_scheduleRebind hold _ _).trans (planned_scheduleExpiry _))
    case renewing =>
      have hold : Holding c.cancelLeaseTimers.state := .inr (.inl hs)
      exact .inr (.inl
        (hcancel.trans ((planned_scheduleRebind hold _ _).trans (planned_scheduleExpiry _))))
    case rebinding =>
      have hold : Holding c.cancelLeaseTimers.state := .inr (.inr hs)
      rw [← hs]
      exact .inr (.inl (hcancel.trans
        ((planned_limits hold _ c.cancelLeaseTimers.nextMrd).trans (planned_scheduleExpiry _))))
    all_goals
      split_ifs
      · refine .inr (.inr ⟨?_, rfl⟩)
        rw [← hstate]
        rintro (h | h | h) <;> cases h
      · exact .inr (.inl (hcancel.trans (planned_scheduleExpiry _)))

lemma doExpire_cases (cfg : Config) (m : Moment) {l : Lease} (hl : c.activeLease = some l) :
    (l.Over m.sec ∧ c.doExpire cfg m = { c with activeLease := none }.startInit6 cfg) ∨
      ∃ l', (leaseTimes cfg l').hasAddrs = true ∧
        c.doExpire cfg m = { c with activeLease := some l' }.checkTimes cfg m := by
  unfold doExpire
  rw [hl]
  dsimp only
  split_ifs with hnil
  · exact .inl ⟨expire_bindings_eq_nil.1 hnil, rfl⟩
  · refine .inr ⟨_, ?_, rfl⟩
    obtain ⟨i, ias, hi⟩ := exists_cons_of_ne_nil hnil
    have hmem : i ∈ (l.expire m.sec).bindings := hi ▸ mem_cons_self
    rw [leaseTimes_hasAddrs, List.any_eq_true]
    exact ⟨i, hmem, (mem_filter.1 hmem).2⟩

lemma withdrawLease_cases (c : Client) (cfg : Config) (m : Moment) :
    (c.activeLease = none ∧ c.withdrawLease cfg m = c) ∨
      c.withdrawLease cfg m = { c with activeLease := none }.startInit6 cfg ∨
      ∃ l', c.withdrawLease cfg m = { c with activeLease := some l' }.checkTimes cfg m := by
  unfold withdrawLease
  rcases eq_none_or_eq_some c.activeLease with hl | ⟨l, hl⟩ <;> rw [hl] <;> dsimp only
  · exact .inl ⟨rfl, rfl⟩
  · exact .inr ((doExpire_cases cfg m rfl).imp And.right fun ⟨l', h⟩ => ⟨l', h.2⟩)

/-! ### Sending -/

lemma checkTiming6_cases (c : Client) (m : Moment) :
    ∃ t s, c.checkTiming6 m = (t, { c with startTime := s }) ∧
      (t = .mrcExceeded → c.mrc ≠ 0) ∧ (t = .mrdExceeded → c.mrd ≠ 0) := by
  unfold checkTiming6
  split_ifs with hmrc
  · exact ⟨_, c.startTime, rfl, fun _ => hmrc.2.1, nofun⟩
  · dsimp only
    split_ifs with hmrd
    · exact ⟨_, _, rfl, nofun, fun _ => hmrd.1⟩
    · exact ⟨_, _, rfl, nofun, nofun⟩

lemma select_spec (cfg : Config) (hadv : c.advertisedLeases ≠ []) :
    ∃ best rest, best ∈ c.advertisedLeases ∧ (∀ l ∈ rest, l ∈ c.advertisedLeases) ∧
      rest.length + 1 = c.advertisedLeases.length ∧
      c.select cfg = { c with
        state := .selecting, advertisedLeases := rest, selectedLease := some best
        mrc := reqMaxRc, mrd := 0, txcount := 0, handler := .reply } := by
  obtain ⟨best, rest, heq, hbest, hrest, hlen⟩ := bestLease_spec cfg hadv
  refine ⟨best, rest, hbest, hrest, hlen, ?_⟩
  unfold select
  rw [heq]

section

variable {P Q : Client → Prop} (hnext : ∀ (c : Client) s, P c → c.advertisedLeases ≠ [] →
    P ({ c with startTime := s, selectedLease := none }.select cfg))
  (hover : ∀ (c : Client) s, P c → c.advertisedLeases = [] →
    Q ({ c with startTime := s, selectedLease := none }.startInit6 cfg))
  (hsent : ∀ (c : Client) s, P c → Q ({ c with startTime := s }.sent .doSelect6))
  (hstuck : ∀ (c : Client) s, P c →
    (∀ l, c.selectedLease = some l → l.bindings = [] ∨ requestable cfg l = false) →
    Q { c with startTime := s })

include hnext hover hsent hstuck

/-- **`do_select6`**: what holds of a client with a lease to ask for (`P`) gives what holds
afterwards (`Q`), whether the message is sent, cannot be put together, or is given up. -/
lemma selectLoop_rule :
    ∀ (n : ℕ) {c : Client}, P c → c.advertisedLeases.length < n → Q (selectLoop cfg m n c)
  | 0, _, _, hn => absurd hn (Nat.not_lt_zero _)
  | n + 1, c, hP, hn => by
    unfold selectLoop
    rcases eq_none_or_eq_some c.selectedLease with hl | ⟨l, hl⟩
    · rw [hl]
      exact hstuck c c.startTime hP fun l h => nomatch hl.symm.trans h
    · rw [hl]
      dsimp only
      by_cases hb : l.bindings = []
      · rw [if_pos hb]
        exact hstuck c c.startTime hP fun a h => .inl (some.inj (hl.symm.trans h) ▸ hb)
      · obtain ⟨t, s, ht, _, _⟩ := checkTiming6_cases c m
        rw [if_neg hb, ht]
        have next : Q (if c.advertisedLeases ≠ [] then
            selectLoop cfg m n ({ c with startTime := s, selectedLease := none }.select cfg)
            else { c with startTime := s, selectedLease := none }.startInit6 cfg) := by
          split_ifs with hadv
          · refine selectLoop_rule n (hnext c s hP hadv) ?_
            obtain ⟨_, rest, _, _, hlen, heq⟩ := select_spec cfg
              (c := { c with startTime := s, selectedLease := none }) hadv
            rw [heq]
            change rest.length < n
            have hlen : rest.length + 1 = c.advertisedLeases.length := hlen
            omega
          · exact hover c s hP (not_not.1 hadv)
        cases t <;> dsimp only
        · split_ifs with hreq
          · exact hsent c s hP
          · refine hstuck c s hP fun a h => .inr ?_
            rw [← some.inj (hl.symm.trans h)]
            exact Bool.eq_false_iff.2 hreq
        · exact next
        · exact next

end

lemma doRefresh6_cases (c : Client) (cfg : Config) (m : Moment) :
    (c.activeLease = none ∧ c.doRefresh6 cfg m = c) ∨
    (c.refreshType = none ∧ c.doRefresh6 cfg m = c.fatal .doRefresh6) ∨
    (c.activeLease ≠ none ∧ c.refreshType ≠ none ∧
      (c.doRefresh6 cfg m = (c.stamp m).checkTimes cfg m ∨
        c.doRefresh6 cfg m = (c.stamp m).sent .doRefresh6 ∨ c.doRefresh6 cfg m = c.stamp m)) := by
  unfold doRefresh6
  rcases eq_none_or_eq_some c.activeLease with hl | ⟨l, hl⟩ <;> rw [hl] <;> dsimp only
  · exact .inl ⟨rfl, rfl⟩
  · split_ifs with hr
    · exact .inr (.inl ⟨hr, rfl⟩)
    · exact .inr (.inr ⟨nofun, hr, .inl rfl⟩)
    · exact .inr (.inr ⟨nofun, hr, .inr (.inl rfl)⟩)
    · exact .inr (.inr ⟨nofun, hr, .inr (.inr rfl)⟩)

lemma doRelease6_cases (c : Client) (cfg : Config) (m : Moment) : c.doRelease6 cfg m = c ∨
      ∃ s, c.doRelease6 cfg m = { c with startTime := s }.sent .doRelease6 ∨
        c.doRelease6 cfg m = { c with startTime := s }.releaseDone m := by
  unfold doRelease6
  rcases eq_none_or_eq_some c.activeLease with hl | ⟨l, hl⟩
  · rw [hl]
    exact .inl rfl
  · obtain ⟨t, s, heq, _, _⟩ := checkTiming6_cases c m
    simp only [hl, heq]
    cases t <;> dsimp only <;> split_ifs
    all_goals first
      | exact .inl rfl
      | exact .inr ⟨s, .inl rfl⟩
      | exact .inr ⟨s, .inr rfl⟩

/-! ### Replies -/

/-- What `dhc6_check_reply` and its actions take to be impossible. -/
def Impossible (c : Client) : Prop :=
  (c.state = .selecting ∧ c.selectedLease = none) ∨ (c.state = .rebooting ∧ c.activeLease = none) ∨
    ((c.state = .renewing ∨ c.state = .rebinding) ∧
      (c.activeLease = none ∨ c.advertisedLeases ≠ [])) ∨ c.state = .bound

/-- The status codes of a Reply in the order in which they are looked at. One that lacks addresses
counts as NoAddrsAvail, unless it answers a Confirm. -/
def told (cfg : Config) (c : Client) (l : Lease) : List ℕ :=
  l.status.value :: l.bindings.map (·.status.value) ++
    if c.state ≠ .rebooting ∧ lacking cfg l then [statusNoAddrsAvail] else []

/-- Whether the client gives up what it is doing when it is told `code`. -/
def heeds (c : Client) (code : ℕ) : Bool :=
  match c.state with
  | .selecting => code = statusNoAddrsAvail || code = statusNoPrefixAvail ||
      code = statusNotOnLink || (code ∉ [statusSuccess, statusNoBinding, statusUseMulticast] &&
        c.advertisedLeases ≠ [])
  | .rebooting => code = statusNotOnLink || (code ∉ [statusSuccess, statusNoBinding,
      statusUseMulticast, statusNoAddrsAvail, statusNoPrefixAvail] && c.advertisedLeases ≠ [])
  | .renewing | .rebinding =>
    code ∈ [statusNoAddrsAvail, statusNoPrefixAvail, statusNotOnLink, statusNoBinding]
  | .stopped => code ∈ [statusNoAddrsAvail, statusNoPrefixAvail, statusNotOnLink]
  | _ => false

/-- What a Reply makes the client give up for. -/
def refusal (cfg : Config) (c : Client) (l : Lease) : Option ℕ := (told cfg c l).find? c.heeds

/-- The Reply is worth less than half of what was advertised. -/
def worse (cfg : Config) (c : Client) (l : Lease) : Bool :=
  c.selectedLease.all fun selected => score cfg l < score cfg selected / 2

/-- What a Reply that is not taken does to the client, which has been told `code`. -/
inductive Acts (cfg : Config) (m : Moment) (c : Client) (l : Lease) : Option ℕ → Client → Prop
  | impossible {code : Option ℕ} (stop : Stop) (h : Impossible c) :
      Acts cfg m c l code { c with stop := some stop }
  | next {code : ℕ} (hs : c.state = .selecting ∨ c.state = .rebooting)
      (hadv : c.advertisedLeases ≠ []) (hcode : code ≠ statusNotOnLink) :
      Acts cfg m c l (some code) ({ c with selectedLease := none }.startSelecting6 cfg m)
  | low (hs : c.state = .selecting) (hadv : c.advertisedLeases ≠ []) (hlow : worse cfg c l = true) :
      Acts cfg m c l none ({ c with selectedLease := none }.startSelecting6 cfg m)
  | giveUp {code : ℕ} (hs : c.state = .selecting) (hadv : c.advertisedLeases = []) :
      Acts cfg m c l (some code) ({ c with selectedLease := none }.startInit6 cfg)
  | notOnLink {code : ℕ} (hs : c.state = .selecting) :
      Acts cfg m c l (some code) ({ c with selectedLease := none }.dropAdvertised.startInit6 cfg)
  | unconfirmed {code : ℕ} (hs : c.state = .rebooting) :
      Acts cfg m c l (some code) ({ c with activeLease := none }.startInit6 cfg)
  | withdraw (hs : c.state = .renewing ∨ c.state = .rebinding) :
      Acts cfg m c l (some statusNotOnLink) (c.withdrawLease cfg m)
  | restart {code : ℕ} (hs : c.state = .renewing ∨ c.state = .rebinding)
      (hcode : code ≠ statusNotOnLink) : Acts cfg m c l (some code) (c.startInit6 cfg)
  | noBinding (hs : c.state = .renewing ∨ c.state = .rebinding) {active : Lease}
      (hl : c.activeLease = some active) :
      Acts cfg m c l (some statusNoBinding)
        ({ c with advertisedLeases := [{ active with released := false }] }.startSelecting6 cfg m)
  | stopped {code : ℕ} (hs : c.state = .stopped) : Acts cfg m c l (some code) c

variable {l : Lease} {act : Client → Rval → ℕ → Action} {rval : Rval} {code : ℕ}

/-- What an action may leave when the client is told `code`. -/
inductive Judged (cfg : Config) (m : Moment) (c : Client) (l : Lease) (code : ℕ) : Action → Prop
  | pass {r : Rval} (h : c.heeds code = false) (hr : r ≠ .canceled) :
      Judged cfg m c l code (c, r, false)
  | act {c' : Client} {r : Rval} (h : c.heeds code = true) (ha : Acts cfg m c l (some code) c') :
      Judged cfg m c l code (c', r, true)

lemma selectAction_judged (hs : c.state = .selecting ∨ c.state = .rebooting) (code : ℕ) :
    Judged cfg m c l code (c.selectAction cfg m .failure code) := by
  have selecting : ¬ c.state = .rebooting → c.state = .selecting := fun hr => hs.resolve_right hr
  have unavailable (hr : ¬ c.state = .rebooting)
      (h : code = statusNoAddrsAvail ∨ code = statusNoPrefixAvail) :
      c.heeds code = true ∧ code ≠ statusNotOnLink := by
    rcases h with rfl | rfl <;> rw [heeds, selecting hr] <;> exact ⟨rfl, by decide⟩
  have onLink (h : code = statusNotOnLink) : c.heeds code = true := by
    rcases hs with hs | hs <;> rw [heeds, hs, h] <;> rfl
  unfold selectAction
  rw [if_neg nofun]
  dsimp only
  split_ifs with hok hnone hr hsel hadv hlink hr hact hsel hadv
  · refine .pass ?_ nofun
    rcases hs with hs | hs <;> rcases hok with rfl | rfl | rfl <;> simp [heeds, hs] <;> decide
  · refine .pass ?_ nofun
    rcases hnone with rfl | rfl <;> simp [heeds, hr] <;> decide
  all_goals rw [not_or, not_or] at hok
  · exact .act (unavailable hr hnone).1 (.impossible _ (.inl ⟨selecting hr, hsel⟩))
  · exact .act (unavailable hr hnone).1 (.next hs hadv (unavailable hr hnone).2)
  · exact .act (unavailable hr hnone).1 (.giveUp (selecting hr) (not_not.1 hadv))
  · exact .act (onLink hlink) (.impossible _ (.inr (.inl ⟨hr, hact⟩)))
  · exact .act (onLink hlink) (.unconfirmed hr)
  · exact .act (onLink hlink) (.impossible _ (.inl ⟨selecting hr, hsel⟩))
  · exact .act (onLink hlink) (.notOnLink (selecting hr))
  · rw [not_or] at hnone
    refine .act ?_ (.next hs hadv hlink)
    rcases hs with hs | hs <;> simp [heeds, hs, hok, hnone, hadv]
  · rw [not_or] at hnone
    refine .pass ?_ nofun
    rcases hs with hs | hs <;> simp_all [heeds]

lemma replyAction_judged (hs : c.state = .renewing ∨ c.state = .rebinding) (code : ℕ) :
    Judged cfg m c l code (c.replyAction cfg m .failure code) := by
  have hh : c.heeds code = decide (code ∈ [statusNoAddrsAvail, statusNoPrefixAvail,
      statusNotOnLink, statusNoBinding]) := by rcases hs with hs | hs <;> rw [heeds, hs]
  unfold replyAction
  rw [if_neg nofun]
  split_ifs with hlink hnone hbind hadv
  · subst hlink
    exact .act (by rw [hh]; rfl) (.withdraw hs)
  · refine .act ?_ (.restart hs hlink)
    rcases hnone with rfl | rfl <;> rw [hh] <;> rfl
  · subst hbind
    exact .act (by rw [hh]; rfl) (.impossible _ (.inr (.inr (.inl ⟨hs, .inr hadv⟩))))
  · subst hbind
    split
    · exact .act (by rw [hh]; rfl) (.impossible _ (.inr (.inr (.inl ⟨hs, .inl ‹_›⟩))))
    · exact .act (by rw [hh]; rfl) (.noBinding hs ‹_›)
  · rw [not_or] at hnone
    exact .pass (by simp [hh, hlink, hnone, hbind]) nofun

lemma stopAction_judged (hs : c.state = .stopped) (code : ℕ) :
    Judged cfg m c l code (c.stopAction .failure code) := by
  have hh : c.heeds code = decide (code ∈ [statusNoAddrsAvail, statusNoPrefixAvail,
      statusNotOnLink]) := by rw [heeds, hs]
  unfold stopAction
  rw [if_neg nofun, if_pos rfl]
  split_ifs with hbind hnone
  · subst hbind
    exact .pass (by rw [hh]; rfl) nofun
  · exact .act (by simpa [hh] using hnone) (.stopped hs)
  · exact .pass (by simpa [hh] using hnone) nofun

lemma heeds_success : c.heeds statusSuccess = false := by
  cases hs : c.state <;> rw [heeds, hs] <;> rfl

section

variable (ha : action cfg m c.state = some act)

include ha

lemma failure_judged (code : ℕ) : Judged cfg m c l code (act c .failure code) := by
  cases hs : c.state <;> simp only [hs, action, some.injEq, reduceCtorEq] at ha <;> subst ha
  · exact selectAction_judged (.inr hs) code
  · exact .pass (by rw [heeds, hs]) nofun
  · exact selectAction_judged (.inl hs) code
  · exact replyAction_judged (.inl hs) code
  · exact replyAction_judged (.inr hs) code
  · exact stopAction_judged hs code

lemma action_success (r : Rval) : act c r statusSuccess = (c, r, false) := by
  cases hs : c.state <;> simp only [hs, action, some.injEq, reduceCtorEq] at ha <;> subst ha <;>
    cases r <;> rfl

lemma status_judged (s : StatusOption) (h : rval ≠ .canceled) :
    Judged cfg m c l s.value (act c (checkStatus rval s).1 (checkStatus rval s).2) := by
  have success {r : Rval} (hr : r ≠ .canceled) :
      Judged cfg m c l statusSuccess (act c r statusSuccess) := by
    rw [action_success ha]
    exact .pass heeds_success hr
  cases s with
  | absent => exact success h
  | malformed => exact success nofun
  | code n =>
    unfold checkStatus
    dsimp only
    split_ifs with hn
    · exact failure_judged ha n
    · rw [not_not.1 hn]
      exact success h

/-- The loop over the bindings stops at the first status that is heeded. -/
lemma checkIas_cases : ∀ (ias : List Ia) {rval : Rval}, rval ≠ .canceled →
    ((ias.map (·.status.value)).find? c.heeds = none ∧
      ∃ r, r ≠ .canceled ∧ checkIas act ias c rval = (c, r, false)) ∨
    ∃ code c' r, (ias.map (·.status.value)).find? c.heeds = some code ∧
      checkIas act ias c rval = (c', r, true) ∧ Acts cfg m c l (some code) c'
  | [], rval, h => .inl ⟨rfl, rval, h, rfl⟩
  | i :: ias, rval, h => by
    have hj := status_judged (l := l) ha i.status h
    unfold checkIas
    dsimp only
    generalize act c (checkStatus rval i.status).1 (checkStatus rval i.status).2 = a at hj ⊢
    cases hj with
    | pass hh hr =>
      rw [map_cons, find?_cons_of_neg (by simp [hh])]
      exact checkIas_cases ias hr
    | act hh hacts => exact .inr ⟨_, _, _, find?_cons_of_pos hh, rfl, hacts⟩

end

lemma andThen_false (r : Rval) (f : Client → Rval → Client × Rval) :
    Action.andThen (c, r, false) f = f c r := rfl

/-- What `dhc6_check_reply` can return. -/
def Settled (cfg : Config) (m : Moment) (c : Client) (l : Lease) (res : Client × Rval) : Prop :=
  (res.1 = c ∧ res.2 ≠ .canceled) ∨
    (res.2 = .canceled ∧ Acts cfg m c l (c.refusal cfg l) res.1)

lemma compareReply_settled (hs : c.state ≠ .rebooting) (href : c.refusal cfg l = none)
    (h : rval ≠ .canceled) : Settled cfg m c l (c.compareReply cfg m l rval) := by
  rw [Settled, href]
  unfold compareReply
  cases hst : c.state <;> dsimp only
  case rebooting => exact absurd hst hs
  case bound => exact .inr ⟨rfl, .impossible _ (.inr (.inr (.inr hst)))⟩
  case selecting =>
    cases hsel : c.selectedLease with
    | none =>
      dsimp only
      rw [← hst, ← hsel]
      exact .inr ⟨rfl, .impossible _ (.inl ⟨hst, hsel⟩)⟩
    | some selected =>
      dsimp only
      split_ifs with hlow
      · rw [← hst]
        exact .inr ⟨rfl, .low hst hlow.1 (by simpa [worse, hsel] using hlow.2)⟩
      · exact .inl ⟨rfl, h⟩
  all_goals exact .inl ⟨rfl, h⟩

/-- **`dhc6_check_reply`**: a Reply is taken or refused and changes nothing, or it cancels the
exchange for the first status that is heeded, or for its score. -/
lemma checkReply_settled (cfg : Config) (m : Moment) (c : Client) (new : Lease) :
    Settled cfg m c new (c.checkReply cfg m new) := by
  unfold checkReply
  cases ha : action cfg m c.state with
  | none =>
    have hs : c.state = .bound := by cases hs : c.state <;> rw [hs] at ha <;> cases ha
    exact .inr ⟨rfl, .impossible _ (.inr (.inr (.inr hs)))⟩
  | some act =>
    have hj := status_judged (l := new) ha new.status (nofun : Rval.success ≠ .canceled)
    dsimp only
    generalize act c (checkStatus .success new.status).1 (checkStatus .success new.status).2 = a
      at hj ⊢
    cases hj with
    | act hh hacts =>
      refine .inr ⟨rfl, ?_⟩
      rw [refusal, told, cons_append, find?_cons_of_pos hh]
      exact hacts
    | @pass r hh hr =>
      have href : c.refusal cfg new = ((new.bindings.map (·.status.value)).find? c.heeds).or
          ((if c.state ≠ .rebooting ∧ lacking cfg new then [statusNoAddrsAvail] else []).find?
            c.heeds) := by
        rw [refusal, told, cons_append, find?_cons_of_neg (by simp [hh]), find?_append]
      rw [andThen_false]
      obtain ⟨hnone, r, hr, heq⟩ | ⟨code, c', r, hcode, heq, hacts⟩ :=
        checkIas_cases (l := new) ha new.bindings hr
      · rw [hnone, Option.none_or] at href
        rw [heq, andThen_false]
        split_ifs with hreb hlack
        · exact .inl ⟨rfl, hr⟩
        · rw [if_pos ⟨hreb, hlack⟩] at href
          have hj := failure_judged (l := new) ha statusNoAddrsAvail
          generalize act c .failure statusNoAddrsAvail = a at hj ⊢
          cases hj with
          | pass hh hr => exact compareReply_settled hreb (by simp [href, hh]) hr
          | act hh hacts =>
            rw [find?_cons_of_pos hh] at href
            exact .inr ⟨rfl, href ▸ hacts⟩
        · rw [if_neg fun h => hlack h.2] at href
          exact compareReply_settled hreb href hr
      · rw [hcode, Option.some_or] at href
        rw [heq]
        exact .inr ⟨rfl, href ▸ hacts⟩

/-- A client that has not asked for anything, or has stopped, is not changed by a Reply. -/
lemma Acts.eq_of_stopped {code : Option ℕ} (h : Acts cfg m c l code c')
    (hs : c.state = .init ∨ c.state = .stopped) : c' = c := by
  rcases hs with hs | hs <;> cases h <;> first
    | rfl
    | exfalso; simp_all [Impossible]

lemma checkReply_stopped (cfg : Config) (m : Moment) (hs : c.state = .init ∨ c.state = .stopped)
    (new : Lease) :
    (c.checkReply cfg m new).1 = c := by
  rcases checkReply_settled cfg m c new with ⟨hc, _⟩ | ⟨_, ha⟩
  · exact hc
  · exact ha.eq_of_stopped hs

end Client

end IscDhcp.Client6
