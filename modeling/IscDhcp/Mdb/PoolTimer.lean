import IscDhcp.Mdb.QueueInv
import Mathlib.Algebra.Order.BigOperators.Group.Finset
import Mathlib.Data.List.TakeWhile

/-!
`supersede_lease` and `pool_timer` never fail to find a lease on its queue, and `pool_timer`
comes to an end: what one move of a lease does to the queues, and what a whole run of
`pool_timer` can do, as a sequence of such moves.
-/

namespace IscDhcp

open List Option

variable {ι : Type} [DecidableEq ι]

namespace Db

variable {s t : Db ι} {comp : ι} {off : ℕ → Queue → ℤ}

/-! ### One move -/

/-- The data of `comp` after `just_move_it`, up to what `strip` forgets. -/
def moveData (s : Db ι) (comp : ι) (flags : Option Flags) (transition propogate : Bool) : Lease :=
  let l := (s.clearAtsfp comp propogate).lease comp
  if l.pool = none ∨ queueOf l = none then l
  else movedOn (s.peered comp) s.peer flags transition l

/-- `t` is `s` with `comp` moved, so that its data is now `l`. -/
structure Moved (s t : Db ι) (comp : ι) (l : Lease) : Prop where
  queued : ∀ {off}, Queued s off → Queued t off
  others : ∀ j, j ≠ comp → (t.lease j).strip = (s.lease j).strip
  self : (t.lease comp).strip = l.strip
  -- the other leases keep their places
  erase : ∀ p q, ((t.pool p).queue q).erase comp = ((s.pool p).queue q).erase comp
  ssQfollow : t.ssQfollow = s.ssQfollow
  curTime : t.curTime = s.curTime
  uids : t.uids = s.uids
  hws : t.hws = s.hws
  failoverPeer : ∀ p, (t.pool p).failoverPeer = (s.pool p).failoverPeer

lemma Moved.of_strip {u : Db ι} {l : Lease} (h : Moved s t comp l) (he : u.strip = t.strip) :
    Moved s u comp l where
  queued hs := (h.queued hs).of_strip he
  others j hj := (Db.eq_of_strip he (fun s => (s.lease j).strip)).trans (h.others j hj)
  self := (Db.eq_of_strip he (fun s => (s.lease comp).strip)).trans h.self
  erase p q := by rw [Db.eq_of_strip he (fun s => (s.pool p).queue), h.erase]
  ssQfollow := (Db.eq_of_strip he Db.ssQfollow).trans h.ssQfollow
  curTime := (Db.eq_of_strip he Db.curTime).trans h.curTime
  uids := (Db.eq_of_strip he Db.uids).trans h.uids
  hws := (Db.eq_of_strip he Db.hws).trans h.hws
  failoverPeer p := (Db.eq_of_strip he (fun s => (s.pool p).failoverPeer)).trans (h.failoverPeer p)

lemma Moved.of_modify {f : Lease → Lease} {l : Lease} (h : Moved (s.modify comp f) t comp l)
    (hf : ∀ l, (f l).pool = l.pool ∧ queueOf (f l) = queueOf l) : Moved s t comp l :=
  { h with
    queued := fun hs => h.queued (hs.modify fun _ => hf)
    others := fun j hj => by rw [h.others j hj, modify_lease_of_ne s hj] }

lemma clearAtsfp_eq (s : Db ι) (comp : ι) (propogate : Bool) :
    ∃ a, s.clearAtsfp comp propogate = s.modify comp fun l => { l with atsfp := a } := by
  unfold clearAtsfp
  split_ifs
  · exact ⟨0, rfl⟩
  · exact ⟨(s.lease comp).atsfp, by simp [modify, setLease]⟩

lemma follow_eq_none (h : s.ssQfollow = false) (p : ℕ) (q : Queue) : s.follow p q comp = none := by
  simp [follow, h]

lemma followOk (h : s.ssQfollow = false) : s.FollowOk := by
  simp [FollowOk, h]

lemma erase_leaseEnqueue (h : s.ssQfollow = false) (hc : ∀ p q, comp ∉ (s.pool p).queue q) (p : ℕ)
    (q : Queue) : (((s.leaseEnqueue comp).2.pool p).queue q).erase comp = (s.pool p).queue q := by
  have hself := erase_of_not_mem (hc p q)
  obtain ⟨-, he⟩ | ⟨p', q', -, -, he⟩ := s.leaseEnqueue_cases comp
  · rw [he, hself]
  · rw [he]
    by_cases hpp : p = p'
    · subst hpp
      by_cases hqq : q = q'
      · subst hqq
        have hf : (s.stamp p q comp).follow p q comp = none :=
          follow_eq_none (s := s.stamp p q comp) h p q
        simp only [enqueue, setPool, Function.update_self, Pool.setQueue, inserted, hf]
        exact erase_orderedInsert_of_notMem (hc p q)
      · simp [enqueue, setPool, Pool.setQueue, hqq, hself]
    · simp [enqueue, setPool, stamp, modify, setLease, hpp, hself]

lemma leaseEnqueue_lease (j : ι) : ((s.leaseEnqueue comp).2.lease j).strip = (s.lease j).strip := by
  obtain ⟨-, he⟩ | ⟨p, q, -, -, he⟩ := s.leaseEnqueue_cases comp
  · rw [he]
  · have hs : (s.stamp p q comp).strip = s.strip :=
      s.strip_modify comp fun _ => rfl
    rw [he]
    exact Db.eq_of_strip hs (fun s => (s.lease j).strip)

variable {i : ι} (p : ℕ)

lemma enqueue_failoverPeer (p' : ℕ) (q : Queue) :
    ((s.enqueue p q comp).pool p').failoverPeer = (s.pool p').failoverPeer := by
  by_cases hp : p' = p
  · subst hp
    cases q <;> simp [enqueue, setPool, Pool.setQueue, Pool.count]
  · simp [enqueue, setPool, stamp, modify, setLease, hp]

lemma leaseEnqueue_frame (s : Db ι) (comp : ι) (p : ℕ) : let t := (s.leaseEnqueue comp).2
    t.ssQfollow = s.ssQfollow ∧ t.curTime = s.curTime ∧ t.uids = s.uids ∧ t.hws = s.hws ∧
      (t.pool p).failoverPeer = (s.pool p).failoverPeer := by
  obtain ⟨-, he⟩ | ⟨p', q, -, -, he⟩ := s.leaseEnqueue_cases comp
  · simp [he]
  · rw [he]
    exact ⟨rfl, rfl, rfl, rfl, enqueue_failoverPeer p' p q⟩

lemma dequeue_failoverPeer (p' : ℕ) (q : Queue) :
    ((s.dequeue p q comp).pool p').failoverPeer = (s.pool p').failoverPeer := by
  by_cases hp : p' = p
  · subst hp
    cases q <;> simp [dequeue, setPool, Pool.setQueue, Pool.count]
  · simp [dequeue, setPool, hp]

lemma erase_dequeue (h : Queued s off) (p p' : ℕ) (q q' : Queue) :
    (((s.dequeue p q comp).pool p').queue q').erase comp = ((s.pool p').queue q').erase comp := by
  by_cases hp : p' = p
  · subst hp
    by_cases hq : q' = q
    · subst hq
      have hnot : comp ∉ ((s.pool p').queue q').erase comp := (h.nodup p' q').not_mem_erase
      simp [dequeue, setPool, Pool.setQueue, erase_of_not_mem hnot]
    · simp [dequeue, setPool, Pool.setQueue, hq]
  · simp [dequeue, setPool, hp]

lemma moved_requeue (h : Queued s off) (hf : s.ssQfollow = false) {p : ℕ} {q : Queue}
    (hc : comp ∈ (s.pool p).queue q) (flags : Option Flags) (transition : Bool) :
    Moved s (((s.dequeue p q comp).moveOn comp flags transition).leaseEnqueue comp).2 comp
      (movedOn (s.peered comp) s.peer flags transition (s.lease comp)) := by
  have hpeered : (s.dequeue p q comp).peered comp = s.peered comp := by
    simp only [peered, dequeue_failoverPeer]
    rfl
  obtain ⟨cls, hm⟩ := (s.dequeue p q comp).moveOn_eq comp flags transition
  rw [hpeered] at hm
  set u := (s.dequeue p q comp).moveOn comp flags transition with hu
  have hupool : u.pool = (s.dequeue p q comp).pool := by rw [hm]; rfl
  have hlease (j : ι) (hj : j ≠ comp) : u.lease j = s.lease j := by
    rw [hm]
    exact modify_lease_of_ne (s.dequeue p q comp) hj _
  have hself : u.lease comp = movedOn (s.peered comp) s.peer flags transition (s.lease comp) := by
    rw [hm]
    exact modify_lease_self (s.dequeue p q comp) comp _
  have hfu : u.ssQfollow = false := by rw [hm]; exact hf
  have hqu {off} (h : Queued s off) : QueuedOn (fun i => i ≠ comp ∧ True) u off :=
    (h.dequeue hc).transfer (fun p => by simp [hupool]) fun i hi => by
      rw [hlease i hi.1]
      exact ⟨rfl, rfl⟩
  obtain ⟨hfe, hte, hue, hhe, -⟩ := u.leaseEnqueue_frame comp 0
  refine ⟨fun h => ?_, fun j hj => ?_, ?_, fun p' q' => ?_, ?_, ?_, ?_, ?_, fun p' => ?_⟩
  · exact ((hqu h).leaseEnqueue (followOk hfu) (by simp)).congr fun i => by tauto
  · rw [leaseEnqueue_lease, hlease j hj]
  · rw [leaseEnqueue_lease, hself]
  · rw [erase_leaseEnqueue hfu (fun p q hm => (((hqu h).mem p q comp).mp hm).1.1 rfl), hupool,
      ← erase_dequeue h p p' q q', erase_of_not_mem]
    exact fun hm => (((h.dequeue hc).mem p' q' comp).mp hm).1.1 rfl
  · rw [hfe, hfu, hf]
  · rw [hte, hm]
    rfl
  · rw [hue, hm]
    rfl
  · rw [hhe, hm]
    rfl
  · rw [(u.leaseEnqueue_frame comp p').2.2.2.2, hupool, dequeue_failoverPeer]

/-- **One move of a lease**: it is found on its queue, and ends up on the queue it belongs to. -/
lemma justMoveIt_moved [Fintype ι] (h : Queued s off) (hf : s.ssQfollow = false) (comp : ι)
    (flags : Option Flags) (commit propogate pimmediate : Bool) :
    ∃ ok t, s.justMoveIt comp flags commit propogate pimmediate = some (ok, t) ∧
      Moved s t comp (s.moveData comp flags (commit || !pimmediate) propogate) := by
  obtain ⟨a, hs⟩ := s.clearAtsfp_eq comp propogate
  set f : Lease → Lease := fun l => { l with atsfp := a } with hfdef
  have hfl (l : Lease) : (f l).pool = l.pool ∧ queueOf (f l) = queueOf l := ⟨rfl, rfl⟩
  have hpf := (hfl (s.lease comp)).1
  have hqf := (hfl (s.lease comp)).2
  have hpeered : (s.modify comp f).peered comp = s.peered comp := by
    simp only [peered, modify_lease_self]
    rfl
  -- up to here only a time of the lease has changed
  have hqueued {off} (h : Queued s off) : Queued (s.modify comp f) off := h.modify fun _ => hfl
  have hmoved : Moved s (s.modify comp f) comp (f (s.lease comp)) :=
    ⟨hqueued, fun j hj => by rw [modify_lease_of_ne s hj], by rw [modify_lease_self],
      fun _ _ => rfl, rfl, rfl, rfl, rfl, fun _ => rfl⟩
  unfold justMoveIt moveData
  simp only [hs, modify_lease_self, hpf, hqf]
  by_cases hb : (s.lease comp).pool = none ∨ queueOf (s.lease comp) = none
  · rw [if_pos hb]
    refine ⟨false, s.modify comp f, ?_, hmoved⟩
    rcases hb with hb | hb
    · rw [hb]
    · cases (s.lease comp).pool with
      | none => rfl
      | some p => rw [hb]
  · rw [if_neg hb]
    rw [not_or, ← ne_eq, ← ne_eq, ne_none_iff_exists', ne_none_iff_exists'] at hb
    obtain ⟨⟨p, hp⟩, q, hq⟩ := hb
    have hc : comp ∈ ((s.modify comp f).pool p).queue q := (h.mem p q comp).mpr ⟨trivial, hp, hq⟩
    have hm := moved_requeue (hqueued h) hf hc flags (commit || !pimmediate)
    rw [hpeered, modify_lease_self] at hm
    have hm' := hm.of_modify hfl
    simp only [hp, hq, leaseRemove_eq hc, bind_eq_bind, bind_some]
    generalize
      (((s.modify comp f).dequeue p q comp).moveOn comp flags (commit || !pimmediate)).leaseEnqueue
      comp = r at hm' ⊢
    rcases r with ⟨_ | _, u⟩
    · exact ⟨_, _, rfl, hm'⟩
    · exact ⟨_, _, rfl, hm'.of_strip (u.strip_recordMove ..)⟩

/-! ### Walking along a queue -/

def rest (l : List ι) (i : ι) : ℕ := (l.dropWhile (· ≠ i)).length

lemma dropWhile_ne {l₁ l₂ : List ι} (h : i ∉ l₁) : (l₁ ++ i :: l₂).dropWhile (· ≠ i) = i :: l₂ := by
  induction l₁ with
  | nil => simp
  | cons a l₁ ih =>
    rw [mem_cons, not_or] at h
    simpa [Ne.symm h.1] using ih h.2

lemma rest_le (l : List ι) (i : ι) : rest l i ≤ l.length := (dropWhile_sublist _).length_le

lemma rest_pos {l : List ι} (h : i ∈ l) : 0 < rest l i := by
  rw [rest, length_pos_iff, ne_eq, dropWhile_eq_nil_iff]
  exact fun hn => by simpa using hn i h

lemma rest_le_rest_erase {l : List ι} {c : ι} (h : i ≠ c) : rest l i ≤ rest (l.erase c) i + 1 := by
  induction l with
  | nil => simp
  | cons a l ih =>
    by_cases hac : a = c
    · subst hac
      simp [rest, Ne.symm h]
    by_cases hai : a = i
    · subst hai
      have : l.length ≤ (l.erase c).length + 1 := by
        have := l.length_erase (a := c)
        split_ifs at this <;> omega
      simpa [rest, hac] using this
    · simpa [rest, hac, hai] using ih

lemma nextIn_spec {l : List ι} (hnd : l.Nodup) {n : ι} (hi : i ∈ l) (hn : nextIn l i = some n) :
    n ∈ l.erase i ∧ n ≠ i ∧ rest l n + 1 = rest l i ∧ rest (l.erase i) n + 1 = rest l i := by
  obtain ⟨l1, l2, rfl⟩ := append_of_mem hi
  have hi1 : i ∉ l1 := fun h => (nodup_append.mp hnd).2.2 i h i (by simp) rfl
  rw [nextIn, dropWhile_ne hi1, tail_cons, head?_eq_some_iff] at hn
  obtain ⟨l3, rfl⟩ := hn
  have hn1 : n ∉ l1 := fun h => (nodup_append.mp hnd).2.2 n h n (by simp) rfl
  have hni : n ≠ i := by
    rintro rfl
    simp [nodup_append] at hnd
  have herase : (l1 ++ i :: n :: l3).erase i = l1 ++ n :: l3 := by
    rw [erase_append_right _ hi1, erase_cons_head]
  have happ : l1 ++ i :: n :: l3 = (l1 ++ [i]) ++ n :: l3 := by simp
  refine ⟨by rw [herase]; simp, hni, ?_, ?_⟩
  · have : rest (l1 ++ i :: n :: l3) n = (n :: l3).length := by
      rw [rest, happ, dropWhile_ne (by simp [hn1, hni])]
    rw [this, rest, dropWhile_ne hi1]
    rfl
  · rw [herase, rest, rest, dropWhile_ne hi1, dropWhile_ne hn1]
    rfl

/-! ### A run of the pool timer -/

/-- The transitions that follow once a lease has come to this state. -/
def rank : BindingState → ℕ
  | .active => 2
  | .expired | .released | .abandoned | .reset => 1
  | _ => 0

def pending (l : Lease) : ℕ :=
  if l.nextBindingState = l.bindingState then 0 else rank l.nextBindingState + 1

lemma pending_le (l : Lease) : pending l ≤ 3 := by
  have : rank l.nextBindingState ≤ 2 := by cases l.nextBindingState <;> simp [rank]
  unfold pending
  split_ifs <;> omega

lemma pending_stateAfter (peered : Bool) (l : Lease)
    (h : l.nextBindingState = stateAfter peered l.bindingState) :
    pending l ≤ rank l.bindingState := by
  unfold pending
  rw [h]
  cases l.bindingState <;> cases peered <;> simp [stateAfter, rank]

lemma rewind_eq (s : Db ι) (i : ι) :
    ∃ n, s.rewind i = s.modify i (fun l => { l with nextBindingState := n }) ∧
      (n = (s.lease i).nextBindingState ∨ s.peered i = true ∧ (n = .free ∨ n = .backup)) := by
  unfold rewind
  extract_lets l
  split_ifs with h
  · simp only [Bool.and_eq_true, Bool.or_eq_true, beq_iff_eq] at h
    obtain ⟨⟨⟨hp, -⟩, -⟩, ⟨-, h⟩ | ⟨-, h⟩⟩ := h
    · exact ⟨.free, by simp [modify, ← h, l], .inr ⟨hp, .inl rfl⟩⟩
    · exact ⟨.backup, by simp [modify, ← h, l], .inr ⟨hp, .inr rfl⟩⟩
  · exact ⟨(s.lease i).nextBindingState, by simp [modify, setLease], .inl rfl⟩

/-- The data of a lease that `pool_timer` moves to the state `n`. -/
def timerData (s : Db ι) (i : ι) (n : BindingState) : Lease :=
  transition (s.peered i) s.peer { s.lease i with nextBindingState := n, atsfp := 0 }

lemma pending_timerData {n : BindingState}
    (hne : (s.lease i).nextBindingState ≠ (s.lease i).bindingState)
    (hn : n = (s.lease i).nextBindingState ∨ s.peered i = true ∧ (n = .free ∨ n = .backup)) :
    pending (s.timerData i n) < pending (s.lease i) := by
  have hle : pending (s.timerData i n) ≤ rank n := pending_stateAfter (s.peered i) _ rfl
  have hlt : rank n < pending (s.lease i) := by
    simp only [pending, if_neg hne]
    rcases hn with rfl | ⟨-, rfl | rfl⟩
    · omega
    · simp [rank]
    · simp [rank]
  omega

variable [Fintype ι]

lemma timer_moved (h : Queued s off) (hf : s.ssQfollow = false) {p : ℕ} {q : Queue}
    (hi : i ∈ (s.pool p).queue q) :
    ∃ ok t n, (s.rewind i).justMoveIt i none true true true = some (ok, t) ∧
      (n = (s.lease i).nextBindingState ∨ s.peered i = true ∧ (n = .free ∨ n = .backup)) ∧
      Moved s t i (s.timerData i n) := by
  obtain ⟨n, hr, hn⟩ := s.rewind_eq i
  obtain ⟨-, hp, hq⟩ := (h.mem p q i).mp hi
  have hpeered : (s.rewind i).peered i = s.peered i := by simp [peered, hr, modify, setLease]
  have hqueued : Queued (s.rewind i) off := by
    rw [hr]
    exact h.modify fun _ _ => ⟨rfl, rfl⟩
  obtain ⟨ok, t, ht, hm⟩ := justMoveIt_moved hqueued (by rw [hr]; exact hf) i none true true true
  have hdata : (s.rewind i).moveData i none (true || !true) true = s.timerData i n := by
    have hl : ((s.rewind i).clearAtsfp i true).lease i =
        { s.lease i with nextBindingState := n, atsfp := 0 } := by simp [clearAtsfp, hr]
    have hpeer : (s.rewind i).peer = s.peer := by rw [hr]; rfl
    have hb : ¬ ((s.lease i).pool = none ∨ queueOf (s.lease i) = none) := by simp [hp, hq]
    rw [moveData, hl, hpeered, hpeer]
    exact if_neg hb
  rw [hdata, hr] at hm
  exact ⟨ok, t, n, ht, hn, hm.of_modify fun _ => ⟨rfl, rfl⟩⟩

/-- `pool_timer` moves one lease of the pool whose time has come. -/
def TimerMove (p : ℕ) (s t : Db ι) : Prop :=
  ∃ q i ok, i ∈ (s.pool p).queue q ∧ (s.lease i).sortTime ≤ s.curTime ∧
    (s.lease i).nextBindingState ≠ (s.lease i).bindingState ∧
    (s.rewind i).justMoveIt i none true true true = some (ok, t)

def TimerMoves (p : ℕ) : Db ι → Db ι → Prop := Relation.ReflTransGen (TimerMove p)

lemma TimerMove.moved {p : ℕ} (h : TimerMove p s t) (hs : Queued s off)
    (hf : s.ssQfollow = false) :
    ∃ i n, (s.lease i).sortTime ≤ s.curTime ∧ (s.lease i).pool = some p ∧
      (n = (s.lease i).nextBindingState ∨ s.peered i = true ∧ (n = .free ∨ n = .backup)) ∧
      Moved s t i (s.timerData i n) := by
  obtain ⟨q, i, ok, hi, hdue, -, ht⟩ := h
  obtain ⟨ok', t', n, ht', hn, hm⟩ := timer_moved hs hf hi
  obtain ⟨rfl, rfl⟩ : ok' = ok ∧ t' = t := by simpa [ht] using ht'.symm
  exact ⟨i, n, hdue, ((hs.mem p q i).mp hi).2.1, hn, hm⟩

lemma TimerMoves.queued {p : ℕ} (h : TimerMoves p s t) (hs : Queued s off)
    (hf : s.ssQfollow = false) : Queued t off ∧ t.ssQfollow = false := by
  induction h with
  | refl => exact ⟨hs, hf⟩
  | tail _ hm ih =>
    obtain ⟨i, n, -, -, -, hm⟩ := hm.moved ih.1 ih.2
    exact ⟨hm.queued ih.1, hm.ssQfollow.trans ih.2⟩

/-- The steps along the queue from `cur` on, at most. -/
def work (s : Db ι) (p : ℕ) (q : Queue) (cur : Option ι) : ℕ :=
  cur.elim 0 (rest ((s.pool p).queue q)) + ∑ i, pending (s.lease i)

lemma Moved.sum_pending_lt {l : Lease} (h : Moved s t i l) (hl : pending l < pending (s.lease i)) :
    ∑ j, pending (t.lease j) < ∑ j, pending (s.lease j) := by
  have hi : pending (t.lease i) < pending (s.lease i) := by
    rwa [Lease.eq_of_strip h.self pending]
  refine Finset.sum_lt_sum (fun j _ => ?_) ⟨i, Finset.mem_univ i, hi⟩
  by_cases hj : j = i
  · subst hj
    exact hi.le
  · exact (Lease.eq_of_strip (h.others j hj) pending).le

lemma runQueue_moves {p : ℕ} {q : Queue} {n : ℕ} {cur : Option ι} {nextExpiry : Time}
    (hs : Queued s off) (hf : s.ssQfollow = false)
    (hcur : ∀ i, cur = some i → i ∈ (s.pool p).queue q)
    (hn : work s p q cur < n) :
    ∃ t ne, runQueue p q n s cur nextExpiry = some (t, ne) ∧ TimerMoves p s t := by
  induction n generalizing s cur with
  | zero => omega
  | succ n ih =>
    cases cur with
    | none => exact ⟨s, nextExpiry, rfl, .refl⟩
    | some i =>
      have hi := hcur i rfl
      have hnd := hs.nodup p q
      unfold runQueue
      extract_lets next
      by_cases hdue : (s.lease i).sortTime > s.curTime
      · rw [if_pos hdue]
        exact ⟨s, _, rfl, .refl⟩
      rw [if_neg hdue]
      by_cases hne : (s.lease i).nextBindingState ≠ (s.lease i).bindingState
      · rw [if_pos hne]
        -- the lease is moved, and one transition is done
        obtain ⟨ok, t, b, ht, hb, hm⟩ := timer_moved hs hf hi
        have hstep : TimerMove p s t := ⟨q, i, ok, hi, not_lt.mp hdue, hne, ht⟩
        have hsum := hm.sum_pending_lt (pending_timerData hne hb)
        have hmem (j : ι) (hj : next = some j) : j ∈ (t.pool p).queue q := by
          have := (nextIn_spec hnd hi hj).1
          rw [← hm.erase] at this
          exact mem_of_mem_erase this
        have hrest : next.elim 0 (rest ((t.pool p).queue q)) ≤ rest ((s.pool p).queue q) i := by
          cases hnext : next with
          | none => simp
          | some j =>
            obtain ⟨-, hji, -, hr⟩ := nextIn_spec hnd hi hnext
            rw [← hr, ← hm.erase]
            exact rest_le_rest_erase hji
        have hwork : work t p q next < n := by
          simp only [work, elim_some] at hn ⊢
          omega
        obtain ⟨u, ne, hu, hmoves⟩ := ih (hm.queued hs) (hm.ssQfollow.trans hf) hmem hwork
        refine ⟨u, ne, ?_, .head hstep hmoves⟩
        simp only [ht]
        exact hu
      · rw [if_neg hne]
        -- the lease stays, and the rest of the queue is shorter
        refine ih hs hf (fun j hj => mem_of_mem_erase (nextIn_spec hnd hi hj).1) ?_
        have hpos := rest_pos hi
        simp only [work, elim_some] at hn ⊢
        cases hnext : next with
        | none =>
          simp only [elim_none]
          omega
        | some j =>
          have := (nextIn_spec hnd hi hnext).2.2.1
          simp only [elim_some]
          omega

lemma work_lt_queueFuel {p : ℕ} {q : Queue} {cur : Option ι} (hs : Queued s off) :
    work s p q cur < queueFuel ι := by
  have hsum : ∑ i, pending (s.lease i) ≤ 3 * Fintype.card ι := by
    calc ∑ i, pending (s.lease i) ≤ ∑ _i : ι, 3 := Finset.sum_le_sum fun i _ => pending_le _
      _ = 3 * Fintype.card ι := by simp [mul_comm]
  have hrest : cur.elim 0 (rest ((s.pool p).queue q)) ≤ Fintype.card ι := by
    cases cur with
    | none => simp
    | some i => exact (rest_le _ i).trans (hs.nodup p q).length_le_card
  unfold work queueFuel
  omega

lemma foldlM_queues_moves (qs : List Queue) (ne : Time) (hs : Queued s off)
    (hf : s.ssQfollow = false) :
    ∃ t ne', qs.foldlM (poolTimerQueue p) (s, ne) = some (t, ne') ∧ TimerMoves p s t := by
  induction qs generalizing s ne with
  | nil => exact ⟨s, ne, rfl, .refl⟩
  | cons q qs ih =>
    obtain ⟨t, ne', ht, hm⟩ : ∃ t ne', poolTimerQueue p (s, ne) q = some (t, ne') ∧
        TimerMoves p s t := by
      unfold poolTimerQueue
      split_ifs
      · exact ⟨s, ne, rfl, .refl⟩
      · exact runQueue_moves hs hf (fun i hi => mem_of_head? hi) (work_lt_queueFuel hs)
    obtain ⟨hqt, hft⟩ := hm.queued hs hf
    obtain ⟨u, ne'', hu, hm'⟩ := ih ne' hqt hft
    exact ⟨u, ne'', by simp [ht, hu], hm.trans hm'⟩

lemma strip_updateTimer (s : Db ι) (p : ℕ) (ne : Time) : (s.updateTimer p ne).strip = s.strip := by
  unfold updateTimer
  extract_lets
  split_ifs <;> simp

/-- **A run of `pool_timer`** moves leases whose time has come, one after the other, and then
sets the time of the next run. -/
lemma poolTimer_moves (hs : Queued s off) (hf : s.ssQfollow = false) :
    ∃ t u, s.poolTimer p = some t ∧ TimerMoves p s u ∧ t.strip = u.strip := by
  obtain ⟨u, ne, hu, hm⟩ := foldlM_queues_moves p Queue.all maxTime hs hf
  exact ⟨u.updateTimer p ne, u, by simp [poolTimer, hu], hm, u.strip_updateTimer p ne⟩

end Db

end IscDhcp
