import IscDhcp.Client.Outcome
import Mathlib.Data.List.Flatten
import Mathlib.Data.List.Induction

/-!
The deadlines of a lease: how long the client goes on renewing or rebinding it, and the script calls
for addresses whose lifetimes end.
-/

namespace IscDhcp.Client6

open List

/-! ### The times of the addresses -/

def Addr.preferredEnd (a : Addr) : ℤ :=
  if a.preferredLife = infinite then maxTime else a.starts + a.preferredLife

def Addr.validEnd (a : Addr) : ℤ := if a.maxLife = infinite then maxTime else a.starts + a.maxLife

/-- The times are early and late enough for the addresses of `ias`. -/
structure Times.Bounds (t : Times) (ias : List Ia) : Prop where
  depref : ∀ i ∈ ias, ∀ a ∈ i.addrs, a.deprefed = false → t.depref ≤ a.preferredEnd
  loExpire : ∀ i ∈ ias, ∀ a ∈ i.addrs, a.expired = false → t.loExpire ≤ a.validEnd
  hiExpire : ∀ i ∈ ias, ∀ a ∈ i.addrs, a.expired = false → a.validEnd ≤ t.hiExpire

lemma Times.addr_bounds (i : Ia) (t : Times) (lo hi : ℤ) (a : Addr) :
    let r := Times.addr i (t, lo, hi) a
    (r.1.depref ≤ t.depref ∧ r.1.loExpire = t.loExpire ∧ r.1.hiExpire = t.hiExpire ∧ r.2.1 ≤ lo ∧
      hi ≤ r.2.2) ∧ (a.deprefed = false → r.1.depref ≤ a.preferredEnd) ∧
      (a.expired = false → r.2.1 ≤ a.validEnd - i.starts ∧ a.validEnd - i.starts ≤ r.2.2) := by
  unfold Times.addr Addr.preferredEnd Addr.validEnd
  dsimp only
  cases a.deprefed <;> cases a.expired <;> simp <;> split_ifs <;> omega

lemma Times.addr_late (i : Ia) (t : Times) (lo hi : ℤ) (a : Addr) :
    let r := Times.addr i (t, lo, hi) a
    (t.depref = maxTime → (a.deprefed = false → (maxTime : ℤ) ≤ a.preferredEnd) →
      r.1.depref = maxTime) ∧ r.1.loExpire = t.loExpire ∧
      (maxTime ≤ lo + i.starts → (a.expired = false → (maxTime : ℤ) ≤ a.validEnd) →
        maxTime ≤ r.2.1 + i.starts) := by
  unfold Times.addr Addr.preferredEnd Addr.validEnd
  dsimp only
  cases a.deprefed <;> cases a.expired <;> simp <;> split_ifs <;> omega

lemma Times.foldl_addr (i : Ia) (t0 : Times) (addrs : List Addr) :
    let r := addrs.foldl (Times.addr i) (t0, (maxTime : ℤ), 0)
    (r.1.depref ≤ t0.depref ∧ r.1.loExpire = t0.loExpire ∧ r.1.hiExpire = t0.hiExpire) ∧
      ∀ a ∈ addrs, (a.deprefed = false → r.1.depref ≤ a.preferredEnd) ∧
        (a.expired = false → r.2.1 ≤ a.validEnd - i.starts ∧ a.validEnd - i.starts ≤ r.2.2) := by
  induction addrs using reverseRecOn with
  | nil => simp
  | append_singleton l a ih =>
    simp only [foldl_append, foldl_cons, foldl_nil, forall_mem_append, forall_mem_singleton]
    generalize l.foldl (Times.addr i) (t0, (maxTime : ℤ), 0) = r at ih ⊢
    obtain ⟨t, lo, hi⟩ := r
    obtain ⟨⟨h1, h2, h3⟩, hl⟩ := ih
    obtain ⟨⟨hd, hlo, hhi, hl', hh'⟩, ha⟩ := Times.addr_bounds i t lo hi a
    refine ⟨⟨hd.trans h1, hlo.trans h2, hhi.trans h3⟩, fun b hb =>
      ⟨fun hb' => ?_, fun hb' => ?_⟩, ha⟩
    · exact hd.trans ((hl b hb).1 hb')
    · obtain ⟨h4, h5⟩ := (hl b hb).2 hb'
      exact ⟨hl'.trans h4, h5.trans hh'⟩

lemma Times.ia_of_foldl (cfg : Config) {t u : Times} {i : Ia} {lo hi : ℤ}
    (hr : i.addrs.foldl (Times.addr i) (t, (maxTime : ℤ), 0) = (u, lo, hi)) :
    (Times.ia cfg t i).depref = u.depref ∧
      (Times.ia cfg t i).loExpire = min (lo + i.starts) u.loExpire ∧
      (Times.ia cfg t i).hiExpire = max (hi + i.starts) u.hiExpire := by
  rw [min_def_lt, max_comm, max_def_lt]
  by_cases hta : i.iaType = .ta <;> simp only [Times.ia, hr, hta, if_true, if_false, and_self]

lemma leaseTimes_bounds (cfg : Config) (l : Lease) : (leaseTimes cfg l).Bounds l.bindings := by
  suffices h : (l.bindings.foldl (Times.ia cfg) {}).Bounds l.bindings from
    { h with }
  induction l.bindings using reverseRecOn with
  | nil => exact ⟨by simp, by simp, by simp⟩
  | append_singleton ias i ih =>
    simp only [foldl_append, foldl_cons, foldl_nil]
    generalize ias.foldl (Times.ia cfg) {} = t at ih ⊢
    have hi := Times.foldl_addr i t i.addrs
    generalize hr : i.addrs.foldl (Times.addr i) (t, (maxTime : ℤ), 0) = r at hi
    obtain ⟨u, lo, hi⟩ := r
    obtain ⟨⟨h1, h2, h3⟩, hl⟩ := hi
    obtain ⟨hd, hlo, hhi⟩ := Times.ia_of_foldl cfg hr
    dsimp only at h2 h3
    rw [h2] at hlo
    rw [h3] at hhi
    constructor <;> simp only [forall_mem_append, forall_mem_singleton]
    · refine ⟨fun j hj a ha h => hd ▸ h1.trans (ih.depref j hj a ha h), fun a ha h =>
        hd ▸ (hl a ha).1 h⟩
    · refine ⟨fun j hj a ha h => hlo ▸ (min_le_right ..).trans (ih.loExpire j hj a ha h),
        fun a ha h => ?_⟩
      have hle : lo ≤ a.validEnd - i.starts := ((hl a ha).2 h).1
      omega
    · refine ⟨fun j hj a ha h => hhi ▸ (ih.hiExpire j hj a ha h).trans (le_max_right ..),
        fun a ha h => ?_⟩
      have hle : a.validEnd - i.starts ≤ hi := ((hl a ha).2 h).2
      omega

/-! ### The limit of an exchange -/

/-- How the limit of an exchange was last set: to the time that was left in the second `p`, or by
`start_confirm6`. -/
inductive Limit
  | left (p : ℤ)
  | confirm

namespace Limit

def mrd (deadline : ℤ) : Limit → ℤ
  | left p => deadline - p
  | confirm => cnfMaxRd

/-- An exchange that began in the second `start` is not limited to less than the deadline. -/
def Reaches (deadline start : ℤ) : Limit → Prop
  | left p => p ≤ start
  | confirm => deadline ≤ start + cnfMaxRd

lemma reaches_iff {limit : Limit} {deadline start : ℤ} :
    limit.Reaches deadline start ↔ deadline ≤ start + limit.mrd deadline := by
  cases limit <;> simp only [Reaches, mrd]
  omega

end Limit

namespace Client

variable {cfg : Config} {c c' : Client} {m : Moment} {l : Lease} {p : Limit}

lemma ite_addTimeout (c : Client) (k : Timer) (q : Prop) [Decidable q] :
    (if q then c.addTimeout k else c) =
      { c with timers := fun j => c.timers j || (j = k && decide q) } := by
  by_cases hq : q
  · rw [if_pos hq]
    refine congrArg (fun t => { c with timers := t }) (funext fun j => ?_)
    exact addTimeout_timers.trans (by simp [hq])
  · simp [hq]

lemma scheduleExpiry_eq (c : Client) (t : Times) : c.scheduleExpiry t = { c with
    timers := fun k => c.timers k || (k = .doDepref && decide (t.depref ≠ maxTime)) ||
      (k = .doExpire && decide (t.loExpire ≠ maxTime)) } := by
  unfold scheduleExpiry
  rw [ite_addTimeout, ite_addTimeout]

/-- `do_refresh6` gives up because the exchange has taken too long. -/
def exceeded (c : Client) (m : Moment) : Prop :=
  c.mrd ≠ 0 ∧ c.mrd ≤ elapsed m (c.stamp m).startTime

def givesUp (c : Client) (m : Moment) : Prop :=
  c.refreshType ≠ none ∧ ((c.mrc ≠ 0 ∧ c.mrc < c.txcount) ∨ c.exceeded m)

/-- A client whose lease has been planned for, or is to be confirmed, after timers have gone off in
any order. -/
inductive Refreshes (cfg : Config) : Client → Limit → Prop
  | confirmed (stored : Lease) :
    Refreshes cfg ({ activeLease := some stored : Client }.startConfirm6 cfg) .confirm
  | planned {c : Client} {l : Lease} (m : Moment) :
    c.activeLease = some l → Refreshes cfg (c.checkTimes cfg m) (.left m.sec)
  | resent {c : Client} {p : Limit} (m : Moment) : Refreshes cfg c p → ¬ c.givesUp m →
    Refreshes cfg ((c.cancelTimeout .doRefresh6).doRefresh6 cfg m) p
  | fired {c : Client} {p : Limit} {k : Timer} (m : Moment) : Refreshes cfg c p →
    c.timers k = true → k.ofLease ∨ k = .doRefresh6 ∧ c.givesUp m →
    Refreshes cfg (callback cfg m k (c.cancelTimeout k)) (.left m.sec)

/-- The limits of a lease. -/
structure Limited (cfg : Config) (l : Lease) (c : Client) (p : Limit) : Prop where
  renew : c.timers .startRenew6 = true → c.nextMrd = (leaseTimes cfg l).rebind
  rebind : c.timers .startRebind6 = true → c.nextMrd = (leaseTimes cfg l).hiExpire
  renewing : c.state = .renewing → c.mrd = p.mrd (leaseTimes cfg l).rebind
  rebinding : c.state = .rebinding → c.mrd = p.mrd (leaseTimes cfg l).hiExpire

/-- `dhc6_check_times`, if it does not give up the lease. -/
lemma checkTimes_spec (hl : c.activeLease = some l) {l' : Lease}
    (hl' : (c.checkTimes cfg m).activeLease = some l') :
    l' = l ∧ Limited cfg l (c.checkTimes cfg m) (.left m.sec) ∧
      ((c.checkTimes cfg m).stop = none →
        (c.checkTimes cfg m).timers .doDepref = decide ((leaseTimes cfg l).depref ≠ maxTime) ∧
        (c.checkTimes cfg m).timers .doExpire =
          decide ((leaseTimes cfg l).loExpire ≠ maxTime)) := by
  have hcancel (k : Timer) (hk : k.ofLease = true) := cancelLeaseTimers_timers (c := c) hk
  have ha : c.cancelLeaseTimers.activeLease = some l := hl
  unfold checkTimes at hl' ⊢
  rw [hl] at hl' ⊢
  generalize c.cancelLeaseTimers = u at *
  dsimp only at hl' ⊢
  by_cases hh : (leaseTimes cfg l).hasAddrs = false
  · simp [hh, startInit6, addTimeout] at hl'
  rw [if_neg hh] at hl' ⊢
  have hrenew := hcancel .startRenew6 rfl
  have hrebind := hcancel .startRebind6 rfl
  have hdepref := hcancel .doDepref rfl
  have hexpire := hcancel .doExpire rfl
  cases hs : u.state <;> simp only [hs] at hl' ⊢
  case rebinding =>
    rw [scheduleExpiry_eq] at hl' ⊢
    obtain rfl : l' = l := Option.some.inj (hl'.symm.trans ha)
    refine ⟨rfl, by constructor <;> simp [hrenew, hrebind, Limit.mrd], fun _ => ?_⟩
    simp [hdepref, hexpire]
  all_goals try unfold scheduleRebind at hl' ⊢
  all_goals
    split_ifs at hl' ⊢ <;> simp only [scheduleExpiry_eq, addTimeout, fatal] at hl' ⊢ <;>
      obtain rfl : l' = l := Option.some.inj (hl'.symm.trans ha)
  all_goals
    refine ⟨rfl, by constructor <;> simp [hrenew, hrebind, hs, Limit.mrd], ?_⟩
    simp [hdepref, hexpire]

lemma limited_checkTimes (hl : c.activeLease = some l) (l' : Lease)
    (hl' : (c.checkTimes cfg m).activeLease = some l') :
    Limited cfg l' (c.checkTimes cfg m) (.left m.sec) := by
  obtain ⟨rfl, h, -⟩ := checkTimes_spec hl hl'
  exact h

lemma Limited.congr (h : Limited cfg l c p) (hs : c'.state = c.state) (hm : c'.mrd = c.mrd)
    (hn : c'.nextMrd = c.nextMrd)
    (ht : ∀ k, k.ofLease = true → c'.timers k = true → c.timers k = true) :
    Limited cfg l c' p where
  renew hk := hn ▸ h.renew (ht _ rfl hk)
  rebind hk := hn ▸ h.rebind (ht _ rfl hk)
  renewing hk := hm ▸ h.renewing (hs ▸ hk)
  rebinding hk := hm ▸ h.rebinding (hs ▸ hk)

/-- `do_refresh6` sets a new limit only if it gives up. -/
lemma limited_doRefresh6
    (h : ¬ c.givesUp m → ∀ l, c.activeLease = some l → Limited cfg l c p)
    (hp : c.givesUp m → p = .left m.sec) (l : Lease)
    (hl : (c.doRefresh6 cfg m).activeLease = some l) :
    Limited cfg l (c.doRefresh6 cfg m) p := by
  unfold doRefresh6 at hl ⊢
  cases hc : c.activeLease with
  | none => simp [hc] at hl
  | some l' =>
    simp only [hc] at hl ⊢
    by_cases ht : c.refreshType = none
    · rw [if_pos ht] at hl ⊢
      exact (h (fun hg => hg.1 ht) l hl).congr rfl rfl rfl fun _ _ => id
    · rw [if_neg ht] at hl ⊢
      split_ifs at hl ⊢ with hstop
      · rw [hp ⟨ht, hstop⟩]
        exact limited_checkTimes (c := c.stamp m) hc l hl
      all_goals refine (h (fun hg => hstop hg.2) l hl).congr rfl rfl rfl fun k hk => ?_
      · cases k <;> simp_all [Timer.ofLease, sent, stamp]
      · exact id

lemma Refreshes.limited (h : Refreshes cfg c p) (l : Lease) (hl : c.activeLease = some l) :
    Limited cfg l c p := by
  have hcancel {c : Client} {l : Lease} {p : Limit} (k : Timer) (h : Limited cfg l c p) :
      Limited cfg l (c.cancelTimeout k) p := h.congr rfl rfl rfl (by simp +contextual)
  induction h generalizing l with
  | confirmed stored =>
    unfold startConfirm6
    dsimp only
    split_ifs <;> constructor <;> simp [startInit6, addTimeout, Limit.mrd]
  | planned m hl0 => exact limited_checkTimes hl0 l hl
  | resent m h hg ih =>
    exact limited_doRefresh6 (fun _ l hl => hcancel _ (ih l hl)) (fun h => absurd h hg) l hl
  | @fired c p k m h hk ho ih =>
    cases k with
    | startRenew6 =>
      unfold callback startRenew6 startRefresh6 at hl ⊢
      refine limited_doRefresh6 (fun _ l hl => ?_) (fun _ => rfl) l hl
      exact ⟨by simp, fun hk' => (hcancel .startRenew6 (ih l hl)).rebind hk',
        fun _ => congrArg (· - _) ((ih l hl).renew hk), fun h => by cases h⟩
    | startRebind6 =>
      unfold callback startRebind6 startRefresh6 at hl ⊢
      refine limited_doRefresh6 (fun _ l hl => ?_) (fun _ => rfl) l hl
      exact ⟨fun hk' => (hcancel .startRebind6 (ih l hl)).renew hk', by simp,
        fun h => (by cases h), fun _ => congrArg (· - _) ((ih l hl).rebind hk)⟩
    | doRefresh6 =>
      obtain ⟨⟨⟩⟩ | ⟨-, hg⟩ := ho
      exact limited_doRefresh6 (c := c.cancelTimeout .doRefresh6) (fun hn => absurd hg hn)
        (fun _ => rfl) l hl
    | doDepref =>
      unfold callback doDepref at hl ⊢
      cases hc : (c.cancelTimeout .doDepref).activeLease with
      | none => simp [hc] at hl
      | some l0 =>
        simp only [hc] at hl ⊢
        exact limited_checkTimes rfl l hl
    | doExpire =>
      unfold callback doExpire at hl ⊢
      cases hc : (c.cancelTimeout .doExpire).activeLease with
      | none => simp [hc] at hl
      | some l0 =>
        simp only [hc] at hl ⊢
        split_ifs at hl ⊢
        · simp [startInit6, addTimeout] at hl
        · exact limited_checkTimes rfl l hl
    | _ => simp [Timer.ofLease] at ho

/-- How long the client is to go on. -/
def deadline (cfg : Config) (c : Client) (l : Lease) : ℤ :=
  if c.state = .renewing then (leaseTimes cfg l).rebind else (leaseTimes cfg l).hiExpire

lemma Limited.deadline (h : Limited cfg l c p) (hs : c.state = .renewing ∨ c.state = .rebinding) :
    c.mrd = p.mrd (c.deadline cfg l) := by
  unfold Client.deadline
  rcases hs with hs | hs
  · rw [if_pos hs, h.renewing hs]
  · rw [if_neg (by rw [hs]; decide), h.rebinding hs]

/-- **Renewing until the deadline**: `do_refresh6` gives up because the exchange takes too long only
after the deadline, if the limit was not set anew after the second of the first message, or was set
by `start_confirm6` and the deadline is near. Else it gives up too early, if it is called in time.
The deadline is the time to rebind, or one at which no address is valid any more. -/
theorem exceeded_after_deadline (cfg : Config) (c : Client) (p : Limit) (h : Refreshes cfg c p)
    (l : Lease) (hl : c.activeLease = some l)
    (hs : c.state = .renewing ∨ c.state = .rebinding) :
    (∀ m, c.exceeded m → p.Reaches (c.deadline cfg l) (c.stamp m).startTime.1 →
      c.deadline cfg l ≤ m.sec) ∧
    (c.txcount ≠ 0 → c.mrd ≠ 0 → ¬ p.Reaches (c.deadline cfg l) c.startTime.1 →
      ∃ m, c.exceeded m ∧ m.sec < c.deadline cfg l) ∧
    (c.state = .renewing → c.deadline cfg l = (leaseTimes cfg l).rebind) ∧
    (c.state = .rebinding → ∀ i ∈ l.bindings, ∀ a ∈ i.addrs, a.expired = false →
      a.validEnd ≤ c.deadline cfg l) := by
  have hmrd := (h.limited l hl).deadline hs
  simp only [Limit.reaches_iff, ← hmrd]
  refine ⟨fun m hex hp => ?_, fun ht h0 hp => ?_, fun hs => if_pos hs, fun hs i hi a ha hx => ?_⟩
  · refine hp.trans ?_
    have hle := hex.2
    unfold elapsed at hle
    split_ifs at hle <;> omega
  · refine ⟨⟨c.startTime.1 + c.mrd, c.startTime.2, false⟩, ⟨h0, ?_⟩, not_le.1 hp⟩
    simp [stamp, ht, elapsed]
  · rw [Client.deadline, if_neg (by rw [hs]; decide)]
    exact (leaseTimes_bounds cfg l).hiExpire i hi a ha hx

/-- To be renewed after 10 seconds and rebound after 20; its address is preferred for 15. -/
def sampleLease : Lease where
  serverId := [1]
  bindings := [{
    iaType := .na, iaid := [], starts := 0, renew := 10, rebind := 20
    addrs := [{ address := [1], starts := 0, preferredLife := 15, maxLife := 100 }] }]

def sampleRenewing : Client :=
  (({ activeLease := some sampleLease, state := .bound : Client }.checkTimes sampleConfig
    (moment 0)).cancelTimeout .startRenew6).startRenew6 sampleConfig (moment 10)

lemma refreshes_sampleRenewing : Refreshes sampleConfig sampleRenewing (.left 10) :=
  .fired (k := .startRenew6) (moment 10) (.planned (moment 0) rfl) (by decide) (.inl rfl)

theorem exceeded_after_deadline_sample : (leaseTimes sampleConfig sampleLease).rebind = 20 ∧
    sampleRenewing.exceeded (moment 20) ∧ sampleRenewing.deadline sampleConfig sampleLease ≤ 20 :=
  have hex : sampleRenewing.exceeded (moment 20) := ⟨by decide, by decide⟩
  ⟨by decide, hex, (exceeded_after_deadline sampleConfig sampleRenewing (.left 10)
    refreshes_sampleRenewing sampleLease rfl (.inl rfl)).1 (moment 20) hex
      (show (10 : ℤ) ≤ _ by decide)⟩

/-- When the address is depreferred, the limit becomes the time that is left to rebind, but it is
still counted from the first message. -/
theorem exceeded_before_deadline :
    ∃ c l, Refreshes sampleConfig c (.left 15) ∧ c.activeLease = some l ∧
    c.exceeded (moment 15) ∧ c.state = .renewing ∧ 15 < (leaseTimes sampleConfig l).rebind :=
  ⟨_, _, .fired (k := .doDepref) (moment 15) refreshes_sampleRenewing (by decide) (.inl rfl), rfl,
    ⟨by decide, by decide⟩, by decide, by decide⟩

end Client

/-! ### Addresses that come to an end -/

inductive Script
  | depref6 | expire6
  deriving DecidableEq, Repr

/-- A call of the script, with the address as it was before. -/
structure Call where
  script : Script
  time : ℤ
  addr : Addr
  deriving DecidableEq, Repr

def Addr.key (a : Addr) : Addr := { a with deprefed := false, expired := false }

namespace Script

def timer : Script → Timer
  | depref6 => .doDepref
  | expire6 => .doExpire

def called : Script → Addr → Bool
  | depref6 => Addr.deprefed
  | expire6 => Addr.expired

def life : Script → Addr → ℕ
  | depref6 => Addr.preferredLife
  | expire6 => Addr.maxLife

/-- When the lifetime ends. -/
def ends : Script → Addr → ℤ
  | depref6 => Addr.preferredEnd
  | expire6 => Addr.validEnd

/-- When the timer goes off. -/
def timeout : Script → Times → ℤ
  | depref6 => Times.depref
  | expire6 => Times.loExpire

def mark (now : ℤ) : Script → Addr → Addr
  | depref6 => Addr.depref now
  | expire6 => Addr.expire now

/-- The lease when the timer has gone off. -/
def after (now : ℤ) : Script → Lease → Lease
  | depref6 => (·.mapAddrs (Addr.depref now))
  | expire6 => Lease.expire now

def due (s : Script) (now : ℤ) (a : Addr) : Bool := !s.called a && a.starts + s.life a ≤ now

variable {s t : Script} {now : ℤ} {a : Addr}

lemma called_mark : t.called (s.mark now a) = (t.called a || (t = s && s.due now a)) := by
  cases s <;> cases t <;> simp only [mark, called, due, life, Addr.depref, Addr.expire] <;>
    split <;> grind

@[simp] lemma key_mark : (s.mark now a).key = a.key := by
  cases s <;> simp only [mark, Addr.depref, Addr.expire] <;> split <;> rfl

end Script

namespace Client

def addrs (c : Client) : List Addr := c.activeLease.elim [] fun l => l.bindings.flatMap Ia.addrs

def calls (c : Client) (s : Script) (now : ℤ) : List Call :=
  (c.addrs.filter (s.due now)).map (Call.mk s now)

/-- The script calls, as the two timers go off in any order, each when `P` holds. Whatever else the
client does meanwhile, no address is added and none is changed. -/
inductive Events (cfg : Config) (P : Client → Script → Moment → Prop) (c₀ : Client) :
    Client → List Call → Prop
  | start : Events cfg P c₀ c₀ []
  | other {c : Client} {log : List Call} (c' : Client) :
    Events cfg P c₀ c log → c'.addrs.Sublist c.addrs → Events cfg P c₀ c' log
  | fired {c : Client} {log : List Call} (s : Script) (m : Moment) :
    Events cfg P c₀ c log → c.timers s.timer = true → P c s m →
    Events cfg P c₀ (callback cfg m s.timer (c.cancelTimeout s.timer)) (log ++ c.calls s m.sec)

/-- When `do_expire` goes off, an address that expires in a binding that stays has been depreferred
before. -/
def Tidy (c : Client) (s : Script) (m : Moment) : Prop :=
  s = .expire6 → ∀ l ∈ c.activeLease, ∀ i ∈ l.bindings,
    (∃ b ∈ i.addrs, Script.called .expire6 (b.expire m.sec) = false) →
    ∀ a ∈ i.addrs, Script.due .expire6 m.sec a = true → a.deprefed = true

variable {cfg : Config} {m : Moment} {s : Script} {now : ℤ} {c c₀ : Client} {log : List Call}
  {P : Client → Script → Moment → Prop}

lemma addrs_mapAddrs (l : Lease) (f : Addr → Addr) :
    (l.mapAddrs f).bindings.flatMap Ia.addrs = (l.bindings.flatMap Ia.addrs).map f := by
  simp [Lease.mapAddrs, map_flatMap, flatMap_map]

lemma lease_fired {l' : Lease}
    (hl' : (callback cfg m s.timer (c.cancelTimeout s.timer)).activeLease = some l') :
    ∃ l, c.activeLease = some l ∧ l' = s.after m.sec l := by
  cases hl : c.activeLease with
  | none => cases s <;> simp [Script.timer, callback, doDepref, doExpire, cancelTimeout, hl] at hl'
  | some l =>
    refine ⟨l, rfl, ?_⟩
    cases s with
    | depref6 =>
      simp only [Script.timer, callback, doDepref, cancelTimeout, hl] at hl'
      exact (checkTimes_spec rfl hl').1
    | expire6 =>
      simp only [Script.timer, callback, doExpire, cancelTimeout, hl] at hl'
      split_ifs at hl'
      · simp [startInit6, addTimeout] at hl'
      · exact (checkTimes_spec rfl hl').1

lemma addrs_fired :
    (callback cfg m s.timer (c.cancelTimeout s.timer)).addrs.Sublist
      (c.addrs.map (s.mark m.sec)) := by
  generalize hd : callback cfg m s.timer (c.cancelTimeout s.timer) = d
  unfold addrs
  cases hl' : d.activeLease with
  | none => simp
  | some l' =>
    obtain ⟨l, hl, rfl⟩ := lease_fired (hd ▸ hl')
    rw [hl]
    cases s with
    | depref6 => exact (addrs_mapAddrs l _).symm ▸ .refl _
    | expire6 => exact (addrs_mapAddrs l _) ▸ filter_sublist.flatMap _

/-- An address that is left when `do_expire` has gone off. -/
lemma mem_addrs_expired {b : Addr}
    (hb : b ∈ (callback cfg m .doExpire (c.cancelTimeout .doExpire)).addrs) :
    ∃ l ∈ c.activeLease, ∃ i ∈ l.bindings,
      (∃ x ∈ i.addrs, Script.called .expire6 (x.expire m.sec) = false) ∧
      ∃ a ∈ i.addrs, a.expire m.sec = b := by
  unfold addrs at hb
  cases hl' : (callback cfg m .doExpire (c.cancelTimeout .doExpire)).activeLease with
  | none => simp [hl'] at hb
  | some l' =>
    obtain ⟨l, hl, rfl⟩ := lease_fired (s := .expire6) hl'
    rw [hl', Option.elim_some, mem_flatMap] at hb
    obtain ⟨_, hi, hb⟩ := hb
    obtain ⟨hi, hany⟩ := mem_filter.1 hi
    obtain ⟨i, hi', rfl⟩ := mem_map.1 hi
    obtain ⟨a, ha, rfl⟩ := mem_map.1 hb
    refine ⟨l, hl, i, hi', ?_, a, ha, rfl⟩
    simpa [Script.called] using hany

/-- The calls that were made, and those that may still be made. -/
lemma countP_fired {as as' : List Addr} (h : as'.Sublist (as.map (s.mark now))) (t : Script)
    (k : Addr) :
    ((as.filter (s.due now)).map (Call.mk s now)).countP (fun x => x.script = t ∧ x.addr.key = k) +
      as'.countP (fun a => t.called a = false ∧ a.key = k) ≤
        as.countP (fun a => t.called a = false ∧ a.key = k) := by
  refine (Nat.add_le_add_left (h.countP_le) _).trans ?_
  clear h
  rw [countP_map, countP_map, countP_filter]
  induction as with
  | nil => simp
  | cons a as ih =>
    have ha : (if s.due now a = true ∧ s = t ∧ a.key = k then 1 else 0) +
        (if t.called (s.mark now a) = false ∧ a.key = k then 1 else 0) ≤
          if t.called a = false ∧ a.key = k then 1 else 0 := by
      rw [Script.called_mark]
      unfold Script.due
      grind
    simp only [countP_cons, Function.comp_apply, Script.key_mark, Bool.and_eq_true,
      decide_eq_true_eq, and_comm (b := s.due now a = true)] at ih ⊢
    omega

lemma Events.countP_le (h : Events cfg P c₀ c log) (s : Script) (k : Addr) :
    log.countP (fun x => x.script = s ∧ x.addr.key = k) +
      c.addrs.countP (fun a => s.called a = false ∧ a.key = k) ≤ c₀.addrs.countP (·.key = k) := by
  induction h with
  | start => simpa using countP_mono_left fun _ _ => by simp
  | other c' _ hsub ih => exact (Nat.add_le_add_left hsub.countP_le _).trans ih
  | fired t m _ _ _ ih =>
    rw [countP_append, Nat.add_assoc]
    exact (Nat.add_le_add_left (countP_fired addrs_fired s k) _).trans ih

lemma Events.due (h : Events cfg P c₀ c log) (x : Call) (hx : x ∈ log) :
    x.script.due x.time x.addr = true := by
  induction h with
  | start => cases hx
  | other _ _ _ ih => exact ih hx
  | fired s m _ _ _ ih =>
    obtain hx | hx := mem_append.mp hx
    · exact ih hx
    · obtain ⟨a, ha, rfl⟩ := mem_map.mp hx
      exact of_mem_filter ha

/-- Before and after `do_expire` an address that has expired is depreferred. -/
lemma tidy_expired (h : Tidy c .expire6 m)
    (hc : ∀ a ∈ c.addrs, a.expired = true → a.deprefed = true) {b : Addr}
    (hb : b ∈ (callback cfg m .doExpire (c.cancelTimeout .doExpire)).addrs)
    (hx : b.expired = true) : b.deprefed = true := by
  obtain ⟨l, hl, i, hi, hleft, a, ha, rfl⟩ := mem_addrs_expired hb
  have hmem : a ∈ c.addrs := by
    unfold addrs
    rw [hl]
    exact mem_flatMap_of_mem hi ha
  have hd : (a.expire m.sec).deprefed = a.deprefed := by
    unfold Addr.expire
    split <;> rfl
  change Script.called .expire6 (Script.mark m.sec .expire6 a) = true at hx
  rw [Script.called_mark, Bool.or_eq_true] at hx
  rw [hd]
  rcases hx with hx | hx
  · exact hc a hmem hx
  · exact h rfl l hl i hi hleft a ha (by simpa using hx)

lemma Events.deprefed (h : Events cfg P c₀ c log) (hP : ∀ c s m, P c s m → Tidy c s m)
    (h0 : ∀ a ∈ c₀.addrs, a.expired = true → a.deprefed = true) :
    (∀ a ∈ c.addrs, a.expired = true → a.deprefed = true) ∧
      ∀ x ∈ log, x.script = .depref6 → x.addr.expired = false := by
  induction h with
  | start => exact ⟨h0, nofun⟩
  | other _ _ hsub ih => exact ⟨fun a ha => ih.1 a (hsub.subset ha), ih.2⟩
  | @fired c log s m _ _ hp ih =>
    rw [forall_mem_append]
    obtain ⟨hc, hl⟩ := ih
    refine ⟨fun b hb hx => ?_, hl, fun x hx hs => ?_⟩
    · cases s with
      | expire6 => exact tidy_expired (hP _ _ _ hp) hc hb hx
      | depref6 =>
        obtain ⟨a, ha, rfl⟩ := mem_map.mp (addrs_fired.subset hb)
        change Script.called .expire6 _ = true at hx
        change Script.called .depref6 _ = true
        rw [Script.called_mark, Bool.or_eq_true] at hx ⊢
        exact .inl (hc a ha (hx.resolve_right (by simp)))
    · obtain ⟨a, ha, rfl⟩ := mem_map.mp hx
      obtain rfl : s = .depref6 := hs
      obtain ⟨ha, hd⟩ := mem_filter.mp ha
      have hnot : a.deprefed = false := by
        simpa [Script.called] using (Bool.and_eq_true_iff.mp hd).1
      exact Bool.eq_false_iff.mpr fun hx => by simp [hc a ha hx] at hnot

/-! ### The timers of the addresses -/

variable {l : Lease}

/-- There is no timer if no lifetime ends before `MAX_TIME`. -/
lemma leaseTimes_depref_eq (h : ∀ i ∈ l.bindings, ∀ a ∈ i.addrs, a.deprefed = false →
      (maxTime : ℤ) ≤ a.preferredEnd) : (leaseTimes cfg l).depref = maxTime := by
  refine List.foldlRecOn (motive := fun t : Times => t.depref = maxTime) l.bindings
    (Times.ia cfg) (b := {}) rfl fun t ht i hi => ?_
  rw [(Times.ia_of_foldl cfg rfl).1]
  exact List.foldlRecOn (motive := fun r : Times × ℤ × ℤ => r.1.depref = maxTime) i.addrs
      (Times.addr i) (b := (t, (maxTime : ℤ), 0)) ht fun ⟨t, lo, hi'⟩ hr a ha =>
        (Times.addr_late i t lo hi' a).1 hr (h i hi a ha)

lemma leaseTimes_loExpire_eq (hs : ∀ i ∈ l.bindings, 0 ≤ i.starts)
    (h : ∀ i ∈ l.bindings, ∀ a ∈ i.addrs, a.expired = false → (maxTime : ℤ) ≤ a.validEnd) :
    (leaseTimes cfg l).loExpire = maxTime := by
  refine List.foldlRecOn (motive := fun t : Times => t.loExpire = maxTime) l.bindings
    (Times.ia cfg) (b := {}) rfl fun t ht i hi => ?_
  obtain ⟨hu, hlo⟩ : let r := i.addrs.foldl (Times.addr i) (t, (maxTime : ℤ), 0)
      r.1.loExpire = maxTime ∧ maxTime ≤ r.2.1 + i.starts :=
    List.foldlRecOn (motive := fun r : Times × ℤ × ℤ =>
      r.1.loExpire = maxTime ∧ maxTime ≤ r.2.1 + i.starts) i.addrs (Times.addr i)
      (b := (t, (maxTime : ℤ), 0)) ⟨ht, le_add_of_nonneg_right (hs i hi)⟩
      fun ⟨t, lo, hi'⟩ hr a ha =>
        have hlate := (Times.addr_late i t lo hi' a).2
        ⟨hlate.1.trans hr.1, hlate.2 hr.2 (h i hi a ha)⟩
  rw [(Times.ia_of_foldl cfg rfl).2.1, hu]
  exact min_eq_right hlo

lemma timeout_le (cfg : Config) (s : Script) {a : Addr}
    (ha : a ∈ l.bindings.flatMap Ia.addrs) (h : s.called a = false) :
    s.timeout (leaseTimes cfg l) ≤ s.ends a := by
  obtain ⟨i, hi, ha⟩ := mem_flatMap.1 ha
  cases s with
  | depref6 => exact (leaseTimes_bounds cfg l).depref i hi a ha h
  | expire6 => exact (leaseTimes_bounds cfg l).loExpire i hi a ha h

lemma timeout_eq (s : Script) (hs : ∀ i ∈ l.bindings, 0 ≤ i.starts)
    (h : ∀ a ∈ l.bindings.flatMap Ia.addrs, s.called a = false → (maxTime : ℤ) ≤ s.ends a) :
    s.timeout (leaseTimes cfg l) = maxTime := by
  cases s with
  | depref6 => exact leaseTimes_depref_eq fun i hi a ha => h a (mem_flatMap_of_mem hi ha)
  | expire6 => exact leaseTimes_loExpire_eq hs fun i hi a ha => h a (mem_flatMap_of_mem hi ha)

/-- **The end of addresses**: after `dhc6_check_times` the timers of all addresses with finite
lifetimes are pending, exactly if one of these ends before `MAX_TIME`, or there are none. However
the timers go off, no address gets two calls of the same script, or one before its lifetime has
ended; and no `DEPREF6` after its `EXPIRE6`, if none expires in a binding that stays before it is
depreferred. -/
theorem address_events (cfg : Config) (P : Client → Script → Moment → Prop) (c₀ c : Client)
    (log : List Call) (h : Events cfg P c₀ c log) :
    (∀ m l, c.activeLease = some l → (∀ i ∈ l.bindings, 0 ≤ i.starts) →
      (c.checkTimes cfg m).activeLease ≠ none → (c.checkTimes cfg m).stop = none → ∀ s : Script,
      ((∀ a ∈ c.addrs, s.called a = false → s.life a ≠ infinite →
        (c.checkTimes cfg m).timers s.timer = true ∧ s.timeout (leaseTimes cfg l) ≤ s.ends a) ↔
      ∀ a ∈ c.addrs, s.called a = false → s.life a ≠ infinite →
        ∃ b ∈ c.addrs, s.called b = false ∧ s.ends b < maxTime)) ∧
    (∀ s k, log.countP (fun x => x.script = s ∧ x.addr.key = k) ≤ c₀.addrs.countP (·.key = k)) ∧
    (∀ x ∈ log, x.time < x.addr.starts + infinite → x.script.ends x.addr ≤ x.time) ∧
    ((∀ c s m, P c s m → Tidy c s m) → (∀ a ∈ c₀.addrs, a.expired = true → a.deprefed = true) →
      ∀ x ∈ log, x.script = .depref6 → x.addr.expired = false) := by
  refine ⟨fun m l hl hstarts ha hs s => ?_, fun s k => ?_, fun x hx ht => ?_,
    fun hP h0 => (h.deprefed hP h0).2⟩
  · obtain ⟨l', hl'⟩ := Option.ne_none_iff_exists'.mp ha
    obtain ⟨-, -, htimers⟩ := checkTimes_spec hl hl'
    have htimer : (c.checkTimes cfg m).timers s.timer =
        decide (s.timeout (leaseTimes cfg l) ≠ maxTime) := by
      cases s
      exacts [(htimers hs).1, (htimers hs).2]
    have haddrs : c.addrs = l.bindings.flatMap Ia.addrs := by rw [addrs, hl, Option.elim_some]
    rw [haddrs, htimer]
    refine forall₄_congr fun a ha hcalled _ => ⟨fun hpend => ?_, fun ⟨b, hb, hbc, hend⟩ => ?_⟩
    · by_contra! hnone
      exact of_decide_eq_true hpend.1 (timeout_eq s hstarts hnone)
    · have hlt := (timeout_le cfg s hb hbc).trans_lt hend
      exact ⟨decide_eq_true hlt.ne, timeout_le cfg s ha hcalled⟩
  · exact (Nat.le_add_right ..).trans (h.countP_le s k)
  · have hd := of_decide_eq_true (Bool.and_eq_true_iff.mp (h.due x hx)).2
    obtain ⟨s, t, a⟩ := x
    cases s <;>
      simp only [Script.ends, Script.life, Addr.preferredEnd, Addr.validEnd] at hd ht ⊢ <;>
      split_ifs <;> omega

/-- The first address is to be depreferred and to expire at once, in the second 10. -/
def sampleEnding : Client where
  state := .bound
  activeLease := some { sampleLease with bindings := [{
    iaType := .na, iaid := [], starts := 0, renew := 10, rebind := 20
    addrs := [{ address := [1], starts := 0, preferredLife := 10, maxLife := 10 },
      { address := [2], starts := 0, preferredLife := 100, maxLife := infinite - 1 }] }] }

def samplePlanned : Client := sampleEnding.checkTimes sampleConfig (moment 0)

theorem address_events_sample : samplePlanned.calls .depref6 10 ≠ [] ∧
    ∀ x ∈ samplePlanned.calls .depref6 10, x.script = .depref6 → x.addr.expired = false :=
  ⟨by decide, (address_events sampleConfig Tidy samplePlanned _ _
    (.fired .depref6 (moment 10) .start (by decide) nofun)).2.2.2 (fun _ _ _ => id) (by decide)⟩

/-- If the address expires first, it is depreferred after that; and there is no timer for the other
address once the first has expired. -/
theorem depref_after_expire : ∃ c x y,
    Events sampleConfig (fun _ _ _ => True) samplePlanned c [x, y] ∧
    x.script = .expire6 ∧ y.script = .depref6 ∧ x.addr.key = y.addr.key ∧
    c.stop = none ∧ c.timers .doExpire = false ∧ ∃ a ∈ c.addrs, a.expired = false ∧
      a.maxLife ≠ infinite :=
  ⟨_, _, _,
    .fired .depref6 (moment 10) (.fired .expire6 (moment 10) .start (by decide) trivial)
      (by decide) trivial,
    rfl, rfl, rfl, by decide, by decide, by decide⟩

end Client

end IscDhcp.Client6
