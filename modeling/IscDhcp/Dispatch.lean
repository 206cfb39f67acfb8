import IscDhcp.Basic
import Mathlib.Data.List.Nodup
import Mathlib.Data.List.Perm.Basic
import Mathlib.Algebra.Order.Ring.Int

/-!
Timeouts (`common/dispatch.c`), outside of trace playback. A timeout is on the list of the program,
has a timer of libisc, and that timer may have posted an event: three copies, which are changed at
different moments.
-/

namespace IscDhcp.Dispatch

open List

/-- `struct timeval`. -/
structure Timeval where
  sec : ℤ
  usec : ℤ

def usecMax : ℤ := 1000000

def Timeval.micros (t : Timeval) : ℤ := t.sec * usecMax + t.usec

def Timeval.ofMicros (m : ℤ) : Timeval := ⟨m / usecMax, m % usecMax⟩

/-- The microseconds are less than a second. -/
def Timeval.Normal (t : Timeval) : Prop := 0 ≤ t.usec ∧ t.usec < usecMax

/-- The period until `when`. A caller that gives no microseconds does not care about them. -/
def interval (cur when : Timeval) : Timeval :=
  let sec := when.sec - cur.sec
  let usec := (when.usec - cur.usec).bmod (2 ^ 32)
  let (sec, usec) :=
    if when.usec ≠ 0 ∧ usec < 0 then (sec - 1, usec + usecMax) else (sec, usec)
  if sec < 0 then ⟨0, 0⟩
  else if sec ≥ timeMax then ⟨timeMax - 1, 0⟩
  else if usec < 0 then ⟨sec, 0⟩
  else if usec ≥ usecMax then ⟨sec, usecMax - 1⟩
  else ⟨sec, usec⟩

/-- The whole seconds from `cur` to `when`; if `when` has no microseconds, those of `cur` do not
count. -/
def wholeSeconds (cur when : Timeval) : ℤ :=
  if when.usec ≠ 0 ∧ when.usec < cur.usec then when.sec - cur.sec - 1 else when.sec - cur.sec

section

variable {cur when : Timeval} (hc : cur.Normal) (hw : when.Normal)

include hc hw

lemma bmod_usec : (when.usec - cur.usec).bmod (2 ^ 32) = when.usec - cur.usec := by
  simp only [Timeval.Normal, usecMax] at hc hw
  apply Int.bmod_eq_of_le <;> omega

/-- The borrow never makes the interval too short. -/
lemma le_add_interval (h : wholeSeconds cur when < timeMax) :
    when.micros ≤ cur.micros + (interval cur when).micros := by
  have hb := bmod_usec hc hw
  simp only [Timeval.Normal, usecMax, wholeSeconds, interval, Timeval.micros] at *
  split_ifs at * <;> dsimp only at * <;> omega

/-- Only `TIME_MAX` does. -/
lemma interval_of_le (h : timeMax ≤ wholeSeconds cur when) :
    interval cur when = ⟨timeMax - 1, 0⟩ := by
  have hb := bmod_usec hc hw
  simp only [Timeval.Normal, usecMax, wholeSeconds, interval] at *
  split_ifs at * <;> first | rfl | (exfalso; dsimp only [timeMax] at *; omega)

end

/-- `struct timeout`, with its timer and the event of that. Times are in microseconds. -/
structure Timeout (φ α : Type) where
  func : Option φ
  what : α
  /-- When the timer expires, if it is set. -/
  timer : Option ℤ := none
  /-- The event waits to be dispatched. -/
  posted : Bool := false
  deriving DecidableEq

inductive Act (φ α : Type)
  | add (pair : Option φ × α) (when : ℤ)
  | cancel (pair : Option φ × α)
  | call (pair : Option φ × α) (now : ℤ)

structure Timers (φ α : Type) where
  timeouts : List (Timeout φ α) := []
  /-- A function is being called back. -/
  running : Bool := false
  curTv : Timeval := ⟨0, 0⟩
  now : ℤ := 0
  /-- What was asked for and called so far; the latest comes first. -/
  log : List (Act φ α) := []

variable {φ α : Type} [DecidableEq φ] [DecidableEq α]

def Timeout.pair (q : Timeout φ α) : Option φ × α := (q.func, q.what)

def Act.pair : Act φ α → Option φ × α
  | .add p _ | .cancel p | .call p _ => p

namespace Timers

/-! ### The functions -/

section

variable (s : Timers φ α)

/-- The timeout that is superseded, or a new one. -/
def entry (where_ : Option φ) (what : α) : Timeout φ α :=
  (s.timeouts.find? fun q => (where_ = none ∨ q.func = where_) ∧ q.what = what).getD
    { func := where_, what }

/-- When a timer that is set now, for `when`, will expire. -/
def expiry (when : Timeval) : ℤ := s.now + (interval s.curTv when).micros

/-- `isc_timer_reset` is called without a purge: an event that is posted stays. -/
def addTimeout (when : Timeval) (where_ : Option φ) (what : α) : Timers φ α :=
  let q := s.entry where_ what
  { s with
    timeouts := { q with timer := some (s.expiry when) } :: s.timeouts.erase q
    log := .add q.pair when.micros :: s.log }

/-- `isc_timer_detach` removes the event with the timer. -/
def cancelTimeout (where_ : Option φ) (what : α) : Timers φ α :=
  { s with
    timeouts := (s.timeouts.find? fun q => q.func = where_ ∧ q.what = what).elim s.timeouts
      s.timeouts.erase
    log := .cancel (where_, what) :: s.log }

/-- `isclib_timer_callback` up to the call of the function. Events are dispatched one at a time. A
timeout is known by its pair, since no two on the list have the same. -/
def callback (p : Option φ × α) : Timers φ α :=
  match s.timeouts.find? fun q => q.pair = p ∧ q.posted with
  | some q => if s.running then s else
    { s with
      timeouts := s.timeouts.erase q, running := true, curTv := .ofMicros s.now
      log := .call q.pair s.now :: s.log }
  | none => s

/-- A timer posts its event, once its time has come. -/
def expire (p : Option φ × α) : Timers φ α :=
  { s with
    timeouts := s.timeouts.map fun q =>
      if q.pair = p ∧ q.timer.any (· ≤ s.now) then { q with timer := none, posted := true } else q }

inductive Op (φ α : Type)
  | addTimeout (when : Timeval) (where_ : Option φ) (what : α)
  | cancelTimeout (where_ : Option φ) (what : α)
  | gettimeofday
  | pass (micros : ℕ)
  | expire (p : Option φ × α)
  | callback (p : Option φ × α)
  | returned

def step : Op φ α → Timers φ α
  | .addTimeout when where_ what => s.addTimeout when where_ what
  | .cancelTimeout where_ what => s.cancelTimeout where_ what
  | .gettimeofday => { s with curTv := .ofMicros s.now }
  | .pass d => { s with now := s.now + d }
  | .expire p => s.expire p
  | .callback p => s.callback p
  | .returned => { s with running := false }

def run (ops : List (Op φ α)) : Timers φ α := ops.foldl step s

end

/-! ### What is asked for -/

def last (p : Option φ × α) (log : List (Act φ α)) : Option (Act φ α) := log.find? (·.pair = p)

/-- Each call for the pair, at `t`, follows an `add_timeout` for `w` that was the latest act. -/
def Calls (R : ℤ → ℤ → Prop) (p : Option φ × α) : List (Act φ α) → Prop
  | [] => True
  | a :: log => Calls R p log ∧ ∀ t, a = .call p t → ∃ w, last p log = some (.add p w) ∧ R w t

/-- Neither an event nor the timer of the timeout calls back too early for `w`. -/
def Due (R : ℤ → ℤ → Prop) (now : ℤ) (q : Timeout φ α) (w : ℤ) : Prop :=
  R w now ∨ q.posted = false ∧ ∀ e ∈ q.timer, R w e

/-- The timeout is so once it is set for `when`. -/
def Prompt (R : ℤ → ℤ → Prop) (s : Timers φ α) (q : Timeout φ α) (when : Timeval) : Prop :=
  Due R s.now { q with timer := some (s.expiry when) } when.micros

/-- The time has come, or no event is posted for the timeout and the time is less than `TIME_MAX`
seconds after `cur_tv`, or `TIME_MAX - 1` seconds from now at most. -/
def InTime (s : Timers φ α) (q : Timeout φ α) (when : Timeval) : Prop :=
  when.micros ≤ s.now ∨ q.posted = false ∧
    (wholeSeconds s.curTv when < timeMax ∨ when.micros ≤ s.now + (timeMax - 1) * usecMax)

/-- Every `add_timeout` of a run for the pair satisfies `P`. -/
def AllAdded (P : Timers φ α → Timeout φ α → Timeval → Prop) (p : Option φ × α) :
    Timers φ α → List (Op φ α) → Prop
  | _, [] => True
  | s, op :: ops => (∀ when where_ what, op = .addTimeout when where_ what →
      (s.entry where_ what).pair = p → P s (s.entry where_ what) when) ∧
      AllAdded P p (s.step op) ops

/-- The operation is not one of the program. -/
def Op.event : Op φ α → Prop
  | .addTimeout .. | .cancelTimeout .. => False
  | _ => True

/-! ### The invariant -/

structure Inv (R : ℤ → ℤ → Prop) (p : Option φ × α) (s : Timers φ α) : Prop where
  pairs : (s.timeouts.map Timeout.pair).Nodup
  added : ∀ q ∈ s.timeouts, ∃ w, last q.pair s.log = some (.add q.pair w) ∧
    (q.pair = p → Due R s.now q w)
  calls : Calls R p s.log

variable {s : Timers φ α} {q r : Timeout φ α} {p : Option φ × α} {a : Act φ α} {w : ℤ}
  {where_ : Option φ} {what : α} {when : Timeval} {log : List (Act φ α)} {R : ℤ → ℤ → Prop}

lemma last_cons_self (h : a.pair = p) : last p (a :: log) = some a := find?_cons_of_pos (by simpa)

lemma last_cons_of_ne (h : a.pair ≠ p) : last p (a :: log) = last p log :=
  find?_cons_of_neg (by simpa)

lemma nodup_entry (h : (s.timeouts.map Timeout.pair).Nodup) (where_ : Option φ) (what : α) :
    ((s.entry where_ what).pair :: (s.timeouts.erase (s.entry where_ what)).map
      Timeout.pair).Nodup := by
  unfold entry
  cases hs : s.timeouts.find? fun q => (where_ = none ∨ q.func = where_) ∧ q.what = what with
  | some q => exact ((perm_cons_erase (mem_of_find?_eq_some hs)).map _).nodup_iff.mp h
  | none =>
    have hpair : (where_, what) ∉ s.timeouts.map Timeout.pair := by
      intro hm
      obtain ⟨r, hr, he⟩ := mem_map.mp hm
      obtain ⟨h1, h2⟩ := Prod.mk.inj he
      simpa [h1, h2] using find?_eq_none.mp hs r hr
    rw [Option.getD_none, erase_of_not_mem fun hm => hpair (mem_map_of_mem hm)]
    exact nodup_cons.mpr ⟨hpair, h⟩

/-- A timeout is taken off the list. -/
lemma Inv.erase (h : Inv R p s) (hq : q ∈ s.timeouts) (ha : a.pair = q.pair)
    (hc : ∀ t, a = .call p t → ∃ w, last p s.log = some (.add p w) ∧ R w t) (running : Bool)
    (curTv : Timeval) : Inv R p
      { s with timeouts := s.timeouts.erase q, running, curTv, log := a :: s.log } := by
  have hn := ((perm_cons_erase hq).map Timeout.pair).nodup_iff.mp h.pairs
  refine ⟨(nodup_cons.mp hn).2, fun r hr => ?_, h.calls, hc⟩
  obtain ⟨w, hw, hd⟩ := h.added r (mem_of_mem_erase hr)
  refine ⟨w, (last_cons_of_ne fun he => (nodup_cons.mp hn).1 ?_).trans hw, hd⟩
  exact ha.symm.trans he ▸ mem_map_of_mem hr

lemma Inv.addTimeout (h : Inv R p s)
    (hp : (s.entry where_ what).pair = p → Prompt R s (s.entry where_ what) when) :
    Inv R p (s.addTimeout when where_ what) := by
  have hn := nodup_entry h.pairs where_ what
  refine ⟨hn, fun r hr => ?_, h.calls, nofun⟩
  rcases mem_cons.mp hr with rfl | hr
  · exact ⟨_, last_cons_self rfl, hp⟩
  · obtain ⟨w, hw, hd⟩ := h.added r (mem_of_mem_erase hr)
    refine ⟨w, (last_cons_of_ne fun he => (nodup_cons.mp hn).1 ?_).trans hw, hd⟩
    exact mem_map.mpr ⟨r, hr, he.symm⟩

lemma Inv.callback (h : Inv R p s) (b : Option φ × α) : Inv R p (s.callback b) := by
  unfold Timers.callback
  split
  · next q hq =>
    have hm := mem_of_find?_eq_some hq
    obtain ⟨-, hposted⟩ : q.pair = b ∧ q.posted = true := by simpa using find?_some hq
    split_ifs
    · exact h
    · refine h.erase hm rfl ?_ _ _
      rintro t ⟨⟩
      obtain ⟨w, hw, hd⟩ := h.added q hm
      exact ⟨w, hw, (hd rfl).resolve_right fun hd => by simp [hposted] at hd⟩
  · exact h

/-- What has waited long enough stays so. -/
def Lasting (R : ℤ → ℤ → Prop) : Prop := ∀ w t t', R w t → t ≤ t' → R w t'

lemma Inv.expire (hR : Lasting R) (h : Inv R p s) (b : Option φ × α) : Inv R p (s.expire b) := by
  refine ⟨?_, fun r hr => ?_, h.calls⟩
  · rw [Timers.expire, map_map]
    convert h.pairs using 2
    funext q
    dsimp only [Function.comp]
    split_ifs <;> rfl
  · obtain ⟨q, hq, rfl⟩ := mem_map.mp hr
    obtain ⟨w, hw, hd⟩ := h.added q hq
    split_ifs with he
    · refine ⟨w, hw, fun hp => .inl ((hd hp).elim id fun hd => ?_)⟩
      obtain ⟨e, hee, hle⟩ : ∃ e ∈ q.timer, e ≤ s.now := by
        cases ht : q.timer <;> simp_all
      exact hR _ _ _ (hd.2 e hee) hle
    · exact ⟨w, hw, hd⟩

lemma Inv.step (hR : Lasting R) (h : Inv R p s) (op : Op φ α) (ho : AllAdded (Prompt R) p s [op]) :
    Inv R p (s.step op) := by
  cases op with
  | addTimeout when where_ what => exact h.addTimeout (ho.1 _ _ _ rfl)
  | cancelTimeout where_ what =>
    change Inv R p (s.cancelTimeout where_ what)
    unfold Timers.cancelTimeout
    cases hq : s.timeouts.find? fun q => q.func = where_ ∧ q.what = what with
    | some q =>
      have hpair : q.pair = (where_, what) := by simpa [Timeout.pair] using find?_some hq
      exact h.erase (a := .cancel (where_, what)) (mem_of_find?_eq_some hq) hpair.symm nofun _ _
    | none =>
      refine ⟨h.pairs, fun r hr => ?_, h.calls, nofun⟩
      rw [last_cons_of_ne]
      · exact h.added r hr
      · rintro ⟨⟩
        simpa using find?_eq_none.mp hq r hr
  | gettimeofday => exact { h with }
  | pass d =>
    refine { h with added := fun r hr => (h.added r hr).imp fun w hw => ⟨hw.1, fun he => ?_⟩ }
    exact (hw.2 he).imp_left fun hr => hR _ _ _ hr (Int.le_add_of_nonneg_right (by simp))
  | expire b => exact h.expire hR b
  | callback b => exact h.callback b
  | returned => exact { h with }

lemma Inv.run (hR : Lasting R) (h : Inv R p s) (ops : List (Op φ α))
    (ho : AllAdded (Prompt R) p s ops) : Inv R p (s.run ops) := by
  induction ops generalizing s with
  | nil => exact h
  | cons op ops ih => exact ih (h.step hR op ⟨ho.1, trivial⟩) ho.2

/-! ### Early calls -/

/-- An event of the first timeout on the list calls back at once. -/
lemma callback_early (hr : s.running = false) (hl : s.timeouts.head? = some q)
    (hp : q.posted = true) (hw : last q.pair s.log = some (.add q.pair w)) (hlt : s.now < w) :
    ¬ Calls (· ≤ ·) q.pair (s.callback q.pair).log := by
  obtain ⟨l, hl⟩ := head?_eq_some_iff.mp hl
  rw [callback, hl, find?_cons_of_pos (by simp [hp])]
  dsimp only
  rw [if_neg (by simp [hr])]
  rintro ⟨-, hc⟩
  obtain ⟨w', hw', hle⟩ := hc s.now rfl
  obtain ⟨⟩ := hw.symm.trans hw'
  exact absurd hle hlt.not_ge

/-- Unless the first timeout on the list is due in time, what is left to happen calls it early. -/
lemma early (hl : s.timeouts.head? = some q)
    (hw : last q.pair s.log = some (.add q.pair w)) (hd : ¬ Due (· ≤ ·) s.now q w) :
    ∃ ops : List (Op φ α), (∀ op ∈ ops, op.event) ∧ ¬ Calls (· ≤ ·) q.pair (s.run ops).log := by
  simp only [Due, not_or, not_and_or, not_forall, not_le, Bool.not_eq_false] at hd
  obtain ⟨hn, hp | ⟨e, he, hlt⟩⟩ := hd
  · exact ⟨[.returned, .callback q.pair], by simp [Op.event], callback_early rfl hl hp hw hn⟩
  · refine ⟨[.returned, .pass (e - s.now).toNat, .expire q.pair, .callback q.pair],
      by simp [Op.event], ?_⟩
    refine callback_early (q := { q with timer := none, posted := true }) rfl ?_ rfl hw ?_
    · simp only [expire, step, head?_map, hl, Option.map_some]
      rw [if_pos ⟨trivial, by simp [Option.mem_def.mp he]; omega⟩]
    · simp only [expire, step]
      omega

/-- Any call is in time for the relation that holds always. -/
lemma allAdded_true (ops : List (Op φ α)) :
    AllAdded (Prompt fun _ _ => True) p s ops := by
  induction ops generalizing s with
  | nil => trivial
  | cons op ops ih => exact ⟨fun _ _ _ _ _ => .inl trivial, ih⟩

lemma allAdded_of_calls (ops : List (Op φ α))
    (hc : ∀ ops₁ ops₂, ops₁ <+: ops → (∀ op ∈ ops₂, op.event) →
      Calls (· ≤ ·) p (s.run (ops₁ ++ ops₂)).log) : AllAdded (Prompt (· ≤ ·)) p s ops := by
  induction ops generalizing s with
  | nil => trivial
  | cons op ops ih =>
    refine ⟨?_, ih fun ops₁ ops₂ hp =>
      hc (op :: ops₁) ops₂ (cons_prefix_cons.mpr ⟨rfl, hp⟩)⟩
    rintro when where_ what rfl rfl
    by_contra hp
    obtain ⟨ops₂, he, hn⟩ := early (s := s.addTimeout when where_ what) rfl (last_cons_self rfl) hp
    exact hn (hc [_] ops₂ (cons_prefix_cons.mpr ⟨rfl, nil_prefix⟩) he)

lemma allAdded_of_event (ops : List (Op φ α)) (he : ∀ op ∈ ops, op.event) :
    AllAdded (Prompt R) p s ops := by
  induction ops generalizing s with
  | nil => trivial
  | cons op ops ih =>
    refine ⟨?_, ih fun op hm => he op (.tail _ hm)⟩
    rintro _ _ _ rfl
    exact (he _ (.head _)).elim

lemma AllAdded.append_event {ops₁ ops ops₂ : List (Op φ α)}
    (h : AllAdded (Prompt R) p s (ops₁ ++ ops)) (he : ∀ op ∈ ops₂, op.event) :
    AllAdded (Prompt R) p s (ops₁ ++ ops₂) := by
  induction ops₁ generalizing s with
  | nil => exact allAdded_of_event ops₂ he
  | cons op ops ih => exact ⟨h.1, ih h.2⟩

lemma inv_empty : Inv R p ({} : Timers φ α) := ⟨by simp, by simp, trivial⟩

/-! ### The time that is asked for -/

/-- The clock was read in the past. -/
structure Clock (s : Timers φ α) : Prop where
  normal : s.curTv.Normal
  past : s.curTv.micros ≤ s.now

lemma clock_empty : Clock ({} : Timers φ α) :=
  ⟨⟨Int.le_refl 0, (by decide : (0 : ℤ) < usecMax)⟩, Int.le_refl 0⟩

lemma clock_ofMicros (s : Timers φ α) : Clock { s with curTv := .ofMicros s.now } := by
  refine ⟨⟨Int.emod_nonneg _ (by decide), Int.emod_lt_of_pos _ (by decide)⟩, ?_⟩
  simp only [Timeval.micros, Timeval.ofMicros]
  exact (Int.mul_comm .. ▸ Int.mul_ediv_add_emod ..).le

lemma Clock.step (h : Clock s) (op : Op φ α) : Clock (s.step op) := by
  cases op with
  | gettimeofday => exact s.clock_ofMicros
  | pass d => exact ⟨h.normal, h.past.trans (Int.le_add_of_nonneg_right (by simp))⟩
  | callback b =>
    change Clock (s.callback b)
    unfold callback
    split
    · split_ifs
      exacts [h, ⟨s.clock_ofMicros.normal, s.clock_ofMicros.past⟩]
    · exact h
  | _ => exact ⟨h.normal, h.past⟩

lemma prompt_iff (hc : Clock s) (hw : when.Normal) :
    Prompt (· ≤ ·) s q when ↔ InTime s q when := by
  refine or_congr Iff.rfl (and_congr Iff.rfl ?_)
  simp only [Option.mem_def, Option.some.injEq, forall_eq', expiry]
  by_cases h : wholeSeconds s.curTv when < timeMax
  · have := le_add_interval hc.normal hw h
    have := hc.past
    exact iff_of_true (by omega) (.inl h)
  · rw [interval_of_le hc.normal hw (not_lt.mp h), or_iff_right h]
    simp [Timeval.micros]

lemma allAdded_iff {ops : List (Op φ α)} (hc : Clock s)
    (hw : ∀ when where_ what, .addTimeout when where_ what ∈ ops → when.Normal) :
    AllAdded (Prompt (· ≤ ·)) p s ops ↔ AllAdded InTime p s ops := by
  induction ops generalizing s with
  | nil => rfl
  | cons op ops ih =>
    refine and_congr ?_
      (ih (hc.step op) fun when where_ what hm => hw when where_ what (.tail _ hm))
    refine forall₃_congr fun when where_ what => forall₂_congr fun ho _ => ?_
    exact prompt_iff hc (hw when where_ what (ho ▸ .head _))

/-- Over every run there is at most one timeout for a pair, and each call follows an `add_timeout`
that no cancellation and no other call comes after. If the times have less than a second of
microseconds, the calls for a pair never come early, whatever happens between the operations of
the program, exactly when every `add_timeout` for it is for a time that has come, or finds no event
posted that has yet to be dispatched and is not for too late a time. -/
theorem calls_run (ops : List (Op φ α)) : ((run {} ops).timeouts.map Timeout.pair).Nodup ∧
      (∀ p, Calls (fun _ _ => True) p (run {} ops).log) ∧
      ((∀ when where_ what, .addTimeout when where_ what ∈ ops → when.Normal) →
        ∀ p, (∀ ops₁ ops₂, ops₁ <+: ops → (∀ op ∈ ops₂, op.event) →
          Calls (· ≤ ·) p (run {} (ops₁ ++ ops₂)).log) ↔ AllAdded InTime p {} ops) := by
  have h (p) : Inv (fun _ _ => True) p (run ({} : Timers φ α) ops) :=
    inv_empty.run (fun _ _ _ _ _ => trivial) ops (allAdded_true _)
  refine ⟨?_, fun p => (h p).calls, fun hw p => ?_⟩
  · cases ht : (run {} ops).timeouts with
    | nil => exact .nil
    | cons q l => exact ht ▸ (h q.pair).pairs
  · rw [← allAdded_iff clock_empty hw]
    refine ⟨allAdded_of_calls ops, ?_⟩
    rintro ho ops₁ ops₂ ⟨ops, rfl⟩ he
    exact (Inv.run (R := (· ≤ ·)) (fun _ _ _ => Int.le_trans) inv_empty _
      (ho.append_event he)).calls

/-- The event of a timeout for 10 s is posted, and not removed when one for 20 s replaces it. -/
theorem replaced_called_early :
    ¬ Calls (· ≤ ·) (some (), ()) (run ({} : Timers Unit Unit) [.addTimeout ⟨10, 0⟩ (some ()) (),
      .pass 10000000, .expire (some (), ()), .addTimeout ⟨20, 0⟩ (some ()) (),
      .callback (some (), ())]).log := by
  rintro ⟨-, hc⟩
  obtain ⟨w, hw, hle⟩ := hc 10000000 rfl
  obtain ⟨⟩ := hw
  exact absurd hle (by decide)

end Timers

end IscDhcp.Dispatch
