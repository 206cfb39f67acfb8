import IscDhcp.Failover.AckInvariant
import IscDhcp.Failover.Progress

/-!
Rebalancing the free leases of a pool between the two servers (`dhcp_failover_pool_dobalance`).

The server walks twice along the queue of its own free leases and gives leases away: first those
whose client the peer would serve, then the oldest ones. The number `lts` of leases that are to be
sent is counted down on the way, and may become negative in the first pass.
-/

namespace IscDhcp

open List Option

/-- The queue of the leases that the server may allocate itself. -/
def ownQueue : Role → Queue
  | .primary => .free
  | .secondary => .backup

def peerLeaseState : Role → BindingState
  | .primary => .backup
  | .secondary => .free

def myLeaseState : Role → BindingState
  | .primary => .free
  | .secondary => .backup

def peerQueue : Role → Queue
  | .primary => .backup
  | .secondary => .free

namespace Db

lemma queueOf_eq_ownQueue {l : Lease} {r : Role} : queueOf l = some (ownQueue r) ↔
    l.bindingState = myLeaseState r ∧ l.flags.reserved = false := by
  cases r <;> cases hb : l.bindingState <;> cases hr : l.flags.reserved <;>
    simp [queueOf, hb, hr, ownQueue, myLeaseState]

lemma queueOf_eq_peerQueue {l : Lease} {r : Role} : queueOf l = some (peerQueue r) ↔
    l.bindingState = peerLeaseState r ∧ l.flags.reserved = false := by
  cases r <;> cases hb : l.bindingState <;> cases hr : l.flags.reserved <;>
    simp [queueOf, hb, hr, peerQueue, peerLeaseState]

lemma peerLeaseState_ne (r : Role) : peerLeaseState r ≠ myLeaseState r := by cases r <;> nofun

lemma stateAfter_peerLeaseState (b : Bool) (r : Role) :
    stateAfter b (peerLeaseState r) = peerLeaseState r := by cases r <;> rfl

/-- `lts` is half of the surplus, rounded to one side or the other. -/
def HalfOf (lts surplus : ℤ) : Prop := 2 * lts - 1 ≤ surplus ∧ surplus ≤ 2 * lts + 1

lemma halfOf_tdiv (d : ℤ) : HalfOf (d.tdiv 2) d := by
  unfold HalfOf
  rw [Int.tdiv_eq_ediv]
  have h2 : Int.sign 2 = 1 := rfl
  split_ifs <;> omega

variable {ι : Type} [DecidableEq ι]

section

variable [Fintype ι] (s : Db ι) (p : ℕ)

def surplus : ℤ :=
  match s.peer.iAm with
  | .primary => (s.pool p).freeLeases - (s.pool p).backupLeases
  | .secondary => (s.pool p).backupLeases - (s.pool p).freeLeases

def total : ℤ := (s.pool p).backupLeases + (s.pool p).freeLeases

def thresh : ℤ := (s.total p * s.peer.maxLeaseMisbalance + 50).tdiv 100

def hold : ℤ := (s.total p * s.peer.maxLeaseOwnership + 50).tdiv 100

/-- The peer is asked to rebalance if too many leases are missing here. -/
def wantsPoolreq : Bool :=
  let panic := s.thresh p * -2
  (s.surplus p).tdiv 2 < if panic = 0 then -1 else panic

/-- The pool is balanced enough: in the first pass the peer has its fair share, in the second one
there is an even balance, or for a lease that was used before the server has no more than its
fair share. -/
def balancedEnough (pass : Bool) (lts hold : ℤ) (l : Lease) : Bool :=
  if pass then if l.ends ≠ 0 then lts ≤ hold else lts ≤ 0 else lts ≤ -hold

/-- Give a lease to the peer; `none` is a fatal error. -/
def giveaway (lp : ι) : Option (Db ι) := do
  let s := s.modify lp fun l =>
    { l with
      nextBindingState := peerLeaseState s.peer.iAm, tstp := s.curTime, starts := s.curTime
      -- `scrub_lease`
      clientHostname := none }
  let (ok, s) ← s.supersedeLease lp none false true false
  return if ok then (s.writeLease lp).2 else s

/-- The loop over the leases, from `lp` on; returns `lts` and the number of leases queued. -/
def balanceLoop (p : ℕ) (hold : ℤ) : ℕ → Bool → Option ι → Db ι × ℤ × ℕ → Option (Db ι × ℤ × ℕ)
  | 0, _, _, _ => none
  | _ + 1, _, none, st => some st
  | n + 1, pass, some lp, (s, lts, queued) =>
    let next := nextIn ((s.pool p).queue (ownQueue s.peer.iAm)) lp
    if balancedEnough pass lts hold (s.lease lp) then some (s, lts, queued)
    else do
      let (s, lts, queued) ←
        if pass || s.peerWantsLease (s.lease lp) then
          (s.giveaway lp).map fun s => (s, lts - 1, queued + 1)
        else some (s, lts, queued)
      match next, pass with
      | some i, _ => balanceLoop p hold n pass (some i) (s, lts, queued)
      | none, true => balanceLoop p hold n true none (s, lts, queued)
      | none, false =>
        balanceLoop p hold n true ((s.pool p).queue (ownQueue s.peer.iAm)).head? (s, lts, queued)

/-- Each lease is met at most once in each pass. -/
def balanceFuel (ι : Type) [Fintype ι] : ℕ := 2 * Fintype.card ι + 2

/-- One pool: the number of leases queued, and whether the peer is to be asked. -/
def balancePool (st : Db ι × ℕ × Bool) (p : ℕ) : Option (Db ι × ℕ × Bool) := do
  let (s, queued, req) := st
  if (s.pool p).failoverPeer then
    let head := ((s.pool p).queue (ownQueue s.peer.iAm)).head?
    let (t, _, queued) ←
      balanceLoop p (s.hold p) (balanceFuel ι) false head (s, (s.surplus p).tdiv 2, queued)
    return (t, queued, req || s.wantsPoolreq p)
  else return (s, queued, req)

/-- The number of leases queued and the new value of `*sendreq`; `none` is a fatal error. -/
def dhcpFailoverPoolDobalance : Option (Db ι × ℕ × Bool) := do
  if s.peer.meState ≠ .normal then return (s, 0, false)
  else
    let (s, queued, req) ← s.pools.foldlM balancePool (s, 0, false)
    return (if queued ≠ 0 then s.commitLeases.2 else s, queued, req)

end

/-! ### Giving one lease away -/

variable {s t u : Db ι} {p : ℕ} {i : ι}

/-- `t` is `s` with the lease given to the peer. -/
structure Given (s t : Db ι) (i : ι) : Prop where
  running : t.Running
  peer : t.peer.strip = s.peer.strip
  others : ∀ j, j ≠ i → (t.lease j).strip = (s.lease j).strip
  pool : (t.lease i).pool = (s.lease i).pool
  bindingState : (t.lease i).bindingState = peerLeaseState s.peer.iAm
  reserved : (t.lease i).flags.reserved = (s.lease i).flags.reserved
  failoverPeer : ∀ p, (t.pool p).failoverPeer = (s.pool p).failoverPeer
  erase : ∀ p q, ((t.pool p).queue q).erase i = ((s.pool p).queue q).erase i

/-- What is written before the lease is moved. -/
def giveawayData (s : Db ι) (l : Lease) : Lease :=
  { l with
    nextBindingState := peerLeaseState s.peer.iAm, tstp := s.curTime, starts := s.curTime
    clientHostname := none }

lemma moveData_giveaway (hp : (s.lease i).pool = some p) {q : Queue}
    (hq : queueOf (s.lease i) = some q) :
    let l := (s.modify i s.giveawayData).moveData i none true true
    l.pool = (s.lease i).pool ∧ l.bindingState = peerLeaseState s.peer.iAm ∧
      l.nextBindingState = peerLeaseState s.peer.iAm ∧
      l.flags.reserved = (s.lease i).flags.reserved := by
  have hl : ((s.modify i s.giveawayData).clearAtsfp i true).lease i =
      { s.giveawayData (s.lease i) with atsfp := 0 } := by simp [clearAtsfp]
  have hb : ¬ ({ s.giveawayData (s.lease i) with atsfp := 0 }.pool = none ∨
      queueOf { s.giveawayData (s.lease i) with atsfp := 0 } = none) := by
    rintro (h | h)
    · exact absurd (hp.symm.trans h) (by simp)
    · exact absurd (hq.symm.trans h) (by simp)
  intro l
  have hl' : l = transition ((s.modify i s.giveawayData).peered i) s.peer
      { s.giveawayData (s.lease i) with atsfp := 0 } := by
    simp only [l, moveData, hl, if_neg hb]
    rfl
  rw [hl']
  refine ⟨?_, rfl, stateAfter_peerLeaseState _ _, ?_⟩
  all_goals
    unfold transition
    dsimp only
    split_ifs <;> rfl

/-! ### The counters -/

abbrev own (s : Db ι) (p : ℕ) : List ι := (s.pool p).queue (ownQueue s.peer.iAm)

abbrev peers (s : Db ι) (p : ℕ) : List ι := (s.pool p).queue (peerQueue s.peer.iAm)

lemma surplus_eq (hs : s.Running) (p : ℕ) :
    s.surplus p = (s.own p).length - (s.peers p).length := by
  unfold surplus own peers
  rw [hs.queued.free, hs.queued.backup]
  cases s.peer.iAm <;> rfl

lemma total_eq (hs : s.Running) (p : ℕ) : s.total p = (s.own p).length + (s.peers p).length := by
  unfold total own peers
  rw [hs.queued.free, hs.queued.backup]
  cases s.peer.iAm
  · exact add_comm _ _
  · rfl

lemma iAm_of_strip (h : t.peer.strip = s.peer.strip) : t.peer.iAm = s.peer.iAm := by
  have hi : t.peer.strip.iAm = s.peer.strip.iAm := by rw [h]
  exact hi

section

variable (h : Given s t i)

include h

lemma Given.own (p : ℕ) : t.own p = (s.own p).erase i := by
  unfold Db.own
  rw [iAm_of_strip h.peer, ← h.erase, erase_of_not_mem]
  intro hit
  obtain ⟨-, -, hq⟩ := (h.running.queued.mem _ _ i).mp hit
  exact peerLeaseState_ne _ (h.bindingState.symm.trans (queueOf_eq_ownQueue.mp hq).1)

lemma Given.lengths (hs : s.Running) (hi : i ∈ s.own p) :
    (t.own p).length + 1 = (s.own p).length ∧ (t.peers p).length = (s.peers p).length + 1 := by
  obtain ⟨-, hp, hq⟩ := (hs.queued.mem _ _ i).mp hi
  obtain ⟨hb, hr⟩ := queueOf_eq_ownQueue.mp hq
  have hit : i ∈ (t.pool p).queue (peerQueue s.peer.iAm) := (h.running.queued.mem _ _ i).mpr
    ⟨trivial, h.pool.trans hp, queueOf_eq_peerQueue.mpr ⟨h.bindingState, h.reserved.trans hr⟩⟩
  have his : i ∉ s.peers p := fun hm => peerLeaseState_ne _
    ((queueOf_eq_peerQueue.mp ((hs.queued.mem _ _ i).mp hm).2.2).1.symm.trans hb)
  constructor
  · rw [h.own p, length_erase_of_mem hi]
    exact Nat.sub_add_cancel (length_pos_of_mem hi)
  · rw [← erase_of_not_mem his, peers, peers, iAm_of_strip h.peer, ← h.erase,
      length_erase_of_mem hit]
    exact (Nat.sub_add_cancel (length_pos_of_mem hit)).symm

lemma Given.queue_of_ne (hs : s.Running) (hp : (s.lease i).pool = some p) {p' : ℕ}
    (hne : p' ≠ p) (q : Queue) : (t.pool p').queue q = (s.pool p').queue q := by
  have h1 : i ∉ (t.pool p').queue q := fun hm => hne (some.inj
    (((h.running.queued.mem _ _ i).mp hm).2.1.symm.trans (h.pool.trans hp)))
  have h2 : i ∉ (s.pool p').queue q := fun hm => hne (some.inj
    (((hs.queued.mem _ _ i).mp hm).2.1.symm.trans hp))
  rw [← erase_of_not_mem h1, h.erase, erase_of_not_mem h2]

lemma Given.surplus (hs : s.Running) (hi : i ∈ s.own p) :
    t.surplus p = s.surplus p - 2 := by
  obtain ⟨h1, h2⟩ := h.lengths hs hi
  rw [surplus_eq hs, surplus_eq h.running]
  omega

lemma Given.total (hs : s.Running) (hi : i ∈ s.own p) (p' : ℕ) :
    t.total p' = s.total p' := by
  rw [total_eq hs, total_eq h.running]
  by_cases hne : p' = p
  · subst hne
    obtain ⟨h1, h2⟩ := h.lengths hs hi
    omega
  · have hp := ((hs.queued.mem _ _ i).mp hi).2.1
    simp only [peers, iAm_of_strip h.peer, h.queue_of_ne hs hp hne]

lemma Given.hold (hs : s.Running) (hi : i ∈ s.own p) (p' : ℕ) :
    t.hold p' = s.hold p' := by
  have hm : t.peer.strip.maxLeaseOwnership = s.peer.strip.maxLeaseOwnership := by rw [h.peer]
  replace hm : t.peer.maxLeaseOwnership = s.peer.maxLeaseOwnership := hm
  rw [Db.hold, Db.hold, h.total hs hi, hm]

end

def loopWork (s : Db ι) (p : ℕ) (pass : Bool) (cur : Option ι) : ℕ :=
  cur.elim 0 (rest ((s.pool p).queue (ownQueue s.peer.iAm))) +
    if pass then 0 else ((s.pool p).queue (ownQueue s.peer.iAm)).length

lemma loopWork_eq (pass : Bool) (cur : Option ι) : loopWork s p pass cur =
    cur.elim 0 (rest (s.own p)) + if pass then 0 else (s.own p).length := rfl

lemma rest_head {l : List ι} : l.head?.elim 0 (rest l) = l.length := by
  cases l with
  | nil => rfl
  | cons a l => simp [rest]

variable [Fintype ι]

/-! ### The leases that are given away -/

lemma peerStrip_linkInvariant (c : Peer ι) : LinkInvariant fun t : Db ι => t.peer.strip = c where
  ask {s} h := (congrArg Db.peer (strip_ask s)).trans h
  writeLease {s} i h := (congrArg Db.peer (strip_writeLease s i)).trans h
  commitLeases {s} h := (congrArg Db.peer (strip_commitLeases s)).trans h
  modify _ h _ := h
  queues _ _ h hp := hp.1.trans h
  disconnect {s} h := (congrArg Db.peer (strip_disconnect s)).trans h

lemma peerStrip_ackInvariant (c : Peer ι) : AckInvariant fun t : Db ι => t.peer.strip = c where
  link := peerStrip_linkInvariant c
  frame h _ hp := hp ▸ h
  modify _ h _ := h
  clearAtsfp _ h := h
  movedOn _ _ _ h := h

lemma giveaway_given {q : Queue} (hs : s.Running) (hi : i ∈ (s.pool p).queue q) :
    ∃ t, s.giveaway i = some t ∧ Given s t i := by
  obtain ⟨-, hp, hq⟩ := (hs.queued.mem p q i).mp hi
  have hv : (s.modify i s.giveawayData).Running := hs.modify fun _ => ⟨rfl, rfl⟩
  obtain ⟨ok, t, ht, hm⟩ := justMoveIt_moved hv.queued hv.ssQfollow i none false true false
  obtain ⟨hpool, hb, hn, hr⟩ := moveData_giveaway hp hq
  have hstate : (t.lease i).nextBindingState = (t.lease i).bindingState := by
    rw [Lease.eq_of_strip hm.self Lease.nextBindingState,
      Lease.eq_of_strip hm.self Lease.bindingState]
    exact hn.trans hb.symm
  -- there is nothing to expire, so that `pool_timer` is not called
  have hexp : t.expireNow i = some t := by
    rw [expireNow, if_neg fun h => h.2 hstate]
  have hsup : (s.modify i s.giveawayData).supersedeLease i none false true false =
    some (ok, t) := by
    cases ok <;> simp [supersedeLease, ht, hexp]
  have hpeer := (peerStrip_ackInvariant s.peer.strip).settles.supersedeLease
    (s := s.modify i s.giveawayData) rfl hsup
  have hw : (if ok then (t.writeLease i).2 else t).strip = t.strip := by
    cases ok
    exacts [rfl, t.strip_writeLease i]
  have hm := hm.of_strip hw
  refine ⟨if ok then (t.writeLease i).2 else t, ?_,
    ⟨hm.queued hv.queued, hm.ssQfollow.trans hs.ssQfollow⟩, ?_,
    fun j hj => ?_, ?_, ?_, ?_, hm.failoverPeer, hm.erase⟩
  · show (do
      let (ok, s) ← (s.modify i s.giveawayData).supersedeLease i none false true false
      return if ok then (s.writeLease i).2 else s) = _
    rw [hsup]
    rfl
  · rw [← hpeer]
    exact congrArg Db.peer hw
  · rw [hm.others j hj, modify_lease_of_ne s hj]
  · exact (Lease.eq_of_strip hm.self Lease.pool).trans hpool
  · exact (Lease.eq_of_strip hm.self Lease.bindingState).trans hb
  · exact (Lease.eq_of_strip hm.self (fun l => l.flags.reserved)).trans hr

/-- A lease that is given away, with the pass it happens in. -/
structure Gift (ι : Type) where
  pool : ℕ
  pass : Bool
  lease : ι

/-- In the first pass the peer wants the lease and does not have more than `hold` leases beyond
its half; in the second one the server has more than its half, and for a lease that was used before
more than `hold` leases beyond it. -/
def Gift.Allowed (g : Gift ι) (s : Db ι) : Prop :=
  (s.pool g.pool).failoverPeer = true ∧ g.lease ∈ (s.pool g.pool).queue (ownQueue s.peer.iAm) ∧
    if g.pass then (if (s.lease g.lease).ends ≠ 0 then 2 * s.hold g.pool else 0) < s.surplus g.pool
    else s.peerWantsLease (s.lease g.lease) = true ∧ -2 * s.hold g.pool < s.surplus g.pool

/-- From `s` to `t` the leases `gs` are given away, one after the other. -/
inductive Balances : Db ι → List (Gift ι) → Db ι → Prop
  | nil (s : Db ι) : Balances s [] s
  | cons {s t u : Db ι} {gs : List (Gift ι)} (g : Gift ι) (h : g.Allowed s)
    (hu : s.giveaway g.lease = some u) (ht : Balances u gs t) : Balances s (g :: gs) t

lemma Balances.append {gs gs' : List (Gift ι)} (h : Balances s gs t) (h' : Balances t gs' u) :
    Balances s (gs ++ gs') u := by
  induction h with
  | nil => exact h'
  | cons g ha hu _ ih => exact .cons g ha hu (ih h')

/-- What is left once some leases have been given away. -/
structure Balanced (s : Db ι) (gs : List (Gift ι)) (t : Db ι) : Prop where
  running : t.Running
  peer : t.peer.strip = s.peer.strip
  total : ∀ p, t.total p = s.total p
  failoverPeer : ∀ p, (t.pool p).failoverPeer = (s.pool p).failoverPeer
  nodup : (gs.map Gift.lease).Nodup
  others : ∀ i, i ∉ gs.map Gift.lease → (t.lease i).strip = (s.lease i).strip
  given : ∀ i ∈ gs.map Gift.lease, (s.lease i).bindingState = myLeaseState s.peer.iAm ∧
    (t.lease i).bindingState = peerLeaseState s.peer.iAm

lemma Balances.balanced {gs : List (Gift ι)} (h : Balances s gs t) (hs : s.Running) :
    Balanced s gs t := by
  induction h with
  | nil s => exact ⟨hs, rfl, fun _ => rfl, fun _ => rfl, by simp, fun _ _ => rfl, by simp⟩
  | @cons s t u gs g ha hu _ ih =>
    obtain ⟨hfp, hi, -⟩ := ha
    obtain ⟨u', hu', hg⟩ := giveaway_given hs hi
    cases hu.symm.trans hu'
    have ih := ih hg.running
    have hown := (queueOf_eq_ownQueue.mp ((hs.queued.mem _ _ _).mp hi).2.2).1
    have hrole := iAm_of_strip hg.peer
    -- the lease has left the queue and is not given away again
    have hnot : g.lease ∉ gs.map Gift.lease := fun hm =>
      peerLeaseState_ne _ (hg.bindingState.symm.trans (hrole ▸ (ih.given _ hm).1))
    refine ⟨ih.running, ih.peer.trans hg.peer, fun p => (ih.total p).trans (hg.total hs hi p),
      fun p => (ih.failoverPeer p).trans (hg.failoverPeer p), ?_, fun i hn => ?_, fun i hm => ?_⟩
    · exact nodup_cons.mpr ⟨hnot, ih.nodup⟩
    · rw [map_cons, mem_cons, not_or] at hn
      exact (ih.others i hn.2).trans (hg.others i hn.1)
    · rw [map_cons, mem_cons] at hm
      rcases hm with rfl | hm
      · exact ⟨hown,
          (Lease.eq_of_strip (ih.others _ hnot) Lease.bindingState).trans hg.bindingState⟩
      · have hne : i ≠ g.lease := fun he => hnot (he ▸ hm)
        obtain ⟨h1, h2⟩ := ih.given i hm
        rw [hrole] at h1 h2
        exact ⟨(Lease.eq_of_strip (hg.others i hne) Lease.bindingState).symm.trans h1, h2⟩

/-! ### The loop -/

lemma allowed_of_not_balancedEnough {pass : Bool} {lts : ℤ}
    (hfp : (s.pool p).failoverPeer = true) (hi : i ∈ s.own p)
    (hb : ¬ balancedEnough pass lts (s.hold p) (s.lease i) = true)
    (hw : (pass || s.peerWantsLease (s.lease i)) = true) (hl : HalfOf lts (s.surplus p)) :
    (Gift.mk p pass i).Allowed s := by
  obtain ⟨hl1, -⟩ := hl
  refine ⟨hfp, hi, ?_⟩
  cases pass with
  | true =>
    simp only [balancedEnough, if_true] at hb ⊢
    split_ifs at hb ⊢ with he
    · have : ¬ lts ≤ s.hold p := by simpa using hb
      omega
    · have : ¬ lts ≤ 0 := by simpa using hb
      omega
  | false =>
    have : ¬ lts ≤ -s.hold p := by simpa [balancedEnough] using hb
    exact ⟨by simpa using hw, by dsimp only; omega⟩

/-- **The loop** comes to an end, and gives away leases that may be given away. -/
lemma balanceLoop_balances {n : ℕ} {pass : Bool} {cur : Option ι} {lts : ℤ} {k : ℕ}
    (hs : s.Running) (hfp : (s.pool p).failoverPeer = true)
    (hcur : ∀ i, cur = some i → i ∈ s.own p)
    (hl : HalfOf lts (s.surplus p)) (hn : loopWork s p pass cur < n) :
    ∃ t lts' gs, balanceLoop p (s.hold p) n pass cur (s, lts, k) = some (t, lts', k + gs.length) ∧
      Balances s gs t := by
  induction n generalizing s pass cur lts k with
  | zero => omega
  | succ n ih =>
    cases cur with
    | none => exact ⟨s, lts, [], rfl, .nil s⟩
    | some i =>
      have hi := hcur i rfl
      have hnd : (s.own p).Nodup := hs.queued.nodup p _
      unfold balanceLoop
      by_cases hb : balancedEnough pass lts (s.hold p) (s.lease i) = true
      · rw [if_pos hb]
        exact ⟨s, lts, [], rfl, .nil s⟩
      rw [if_neg hb]
      have hpos := rest_pos hi
      -- what follows, whether or not the lease has been given away
      have hgo {t : Db ι} {lts' : ℤ} (k' : ℕ) (ht : t.Running) (hf : (t.pool p).failoverPeer = true)
          (hhold : t.hold p = s.hold p) (hl' : HalfOf lts' (t.surplus p))
          (hmem : ∀ j, nextIn (s.own p) i = some j →
            j ∈ t.own p ∧ rest (t.own p) j + 1 = rest (s.own p) i)
          (hlen : (t.own p).length ≤ (s.own p).length) :
          ∃ u lts'' gs, (match nextIn (s.own p) i, pass with
            | some j, _ => balanceLoop p (s.hold p) n pass (some j) (t, lts', k')
            | none, true => balanceLoop p (s.hold p) n true none (t, lts', k')
            | none, false => balanceLoop p (s.hold p) n true
              (t.own p).head? (t, lts', k')) =
              some (u, lts'', k' + gs.length) ∧ Balances t gs u := by
        rw [← hhold]
        simp only [loopWork_eq, elim_some] at hn
        cases hj : nextIn (s.own p) i with
        | some j =>
          obtain ⟨hjm, hjr⟩ := hmem j hj
          refine ih ht hf (fun j' hj' => some.inj hj' ▸ hjm) hl' ?_
          simp only [loopWork_eq, elim_some]
          cases pass <;> simp only [Bool.false_eq_true, if_true, if_false] at hn ⊢ <;> omega
        | none =>
          cases pass with
          | true =>
            refine ih ht hf (fun _ h => by cases h) hl' ?_
            simp only [loopWork_eq, elim_none, if_true]
            omega
          | false =>
            refine ih ht hf (fun _ h => mem_of_head? h) hl' ?_
            simp only [loopWork_eq, rest_head, if_true]
            simp only [Bool.false_eq_true, if_false] at hn
            omega
      by_cases hw : (pass || s.peerWantsLease (s.lease i)) = true
      · -- the lease is given away, and the queue is shorter
        obtain ⟨t, ht, hg⟩ := giveaway_given hs hi
        have hown := hg.own p
        have hlt : HalfOf (lts - 1) (t.surplus p) := by
          have := hg.surplus hs hi
          unfold HalfOf at hl ⊢
          omega
        obtain ⟨u, lts', gs, hu, hbal⟩ := hgo (k + 1) hg.running ((hg.failoverPeer p).trans hfp)
          (hg.hold hs hi p) hlt
          (fun j hj => by
            rw [hown]
            obtain ⟨h1, -, -, h2⟩ := nextIn_spec hnd hi hj
            exact ⟨h1, h2⟩)
          (by rw [hown]; exact erase_sublist.length_le)
        refine ⟨u, lts', ⟨p, pass, i⟩ :: gs, ?_,
          .cons ⟨p, pass, i⟩ (allowed_of_not_balancedEnough hfp hi hb hw hl) ht hbal⟩
        simp only [hw, ht]
        rw [length_cons, Nat.add_comm gs.length 1, ← Nat.add_assoc]
        exact hu
      · obtain ⟨u, lts', gs, hu, hbal⟩ := hgo k hs hfp rfl hl
          (fun j hj => by
            obtain ⟨h1, -, h2, -⟩ := nextIn_spec hnd hi hj
            exact ⟨mem_of_mem_erase h1, h2⟩) le_rfl
        refine ⟨u, lts', gs, ?_, hbal⟩
        simp only [hw]
        exact hu

lemma balancePool_balances (hs : s.Running) (k : ℕ) (req : Bool) (p : ℕ) :
    ∃ (t : Db ι) (gs : List (Gift ι)) (req' : Bool), balancePool (s, k, req) p =
      some (t, k + gs.length, req') ∧ Balances s gs t := by
  unfold balancePool
  by_cases hfp : (s.pool p).failoverPeer = true
  · have hwork : loopWork s p false (s.own p).head? <
        balanceFuel ι := by
      have : (s.own p).length ≤ Fintype.card ι := (hs.queued.nodup p _).length_le_card
      simp only [loopWork_eq, rest_head, Bool.false_eq_true, if_false, balanceFuel]
      omega
    obtain ⟨t, lts, gs, ht, hb⟩ := balanceLoop_balances (k := k) hs hfp
      (fun i hi => mem_of_head? hi) (halfOf_tdiv (s.surplus p)) hwork
    refine ⟨t, gs, req || s.wantsPoolreq p, ?_, hb⟩
    simp only [hfp, ht]
    rfl
  · exact ⟨s, [], req, by simp [hfp], .nil s⟩

lemma foldlM_balances (hs : s.Running) (k : ℕ) (req : Bool) (ps : List ℕ) :
    ∃ (t : Db ι) (gs : List (Gift ι)) (req' : Bool), ps.foldlM balancePool (s, k, req) =
      some (t, k + gs.length, req') ∧
      Balances s gs t := by
  induction ps generalizing s k req with
  | nil => exact ⟨s, [], req, rfl, .nil s⟩
  | cons p ps ih =>
    obtain ⟨t, gs, req', ht, hb⟩ := balancePool_balances hs k req p
    obtain ⟨u, gs', req'', hu, hb'⟩ := ih (hb.balanced hs).running (k + gs.length) req'
    refine ⟨u, gs ++ gs', req'', ?_, hb.append hb'⟩
    simp [ht, hu, Nat.add_assoc]

lemma Balanced.card {gs : List (Gift ι)} (h : Balanced s gs t) :
    (Finset.univ.filter fun i => (t.lease i).bindingState ≠ (s.lease i).bindingState).card =
      gs.length := by
  have he : (Finset.univ.filter fun i => (t.lease i).bindingState ≠ (s.lease i).bindingState) =
      (gs.map Gift.lease).toFinset := by
    ext i
    rw [Finset.mem_filter_univ, List.mem_toFinset]
    constructor
    · intro hne
      by_contra hn
      exact hne (Lease.eq_of_strip (h.others i hn) Lease.bindingState)
    · intro hm
      obtain ⟨h1, h2⟩ := h.given i hm
      rw [h1, h2]
      exact peerLeaseState_ne _
  rw [he, toFinset_card_of_nodup h.nodup, length_map]

/-- **Rebalancing is conservative.** It comes to an end; the leases are given away one by one, each
of them from the server's own free leases and only while the balance of the pool allows it; no pool
gains or loses free leases; and the number returned is the number of leases given away. -/
theorem poolDobalance_conservative (s : Db ι) (hs : s.Running) :
    ∃ t n req, s.dhcpFailoverPoolDobalance = some (t, n, req) ∧
      (∃ gs u, Balances s gs u ∧ gs.length = n ∧ t.strip = u.strip) ∧
      (∀ p, (t.pool p).freeLeases + (t.pool p).backupLeases =
        (s.pool p).freeLeases + (s.pool p).backupLeases) ∧
      (∀ i, (t.lease i).bindingState ≠ (s.lease i).bindingState →
        (s.lease i).bindingState = myLeaseState s.peer.iAm ∧
          (t.lease i).bindingState = peerLeaseState s.peer.iAm) ∧
      (n ≠ 0 ↔ ∃ i, (t.lease i).bindingState ≠ (s.lease i).bindingState) := by
  obtain ⟨t, n, req, ht, gs, u, hb, hn, hstrip⟩ : ∃ t n req,
      s.dhcpFailoverPoolDobalance = some (t, n, req) ∧
      ∃ gs u, Balances s gs u ∧ gs.length = n ∧ t.strip = u.strip := by
    unfold dhcpFailoverPoolDobalance
    by_cases hnormal : s.peer.meState ≠ .normal
    · rw [if_pos hnormal]
      exact ⟨s, 0, false, rfl, [], s, .nil s, rfl, rfl⟩
    · obtain ⟨u, gs, req, hu, hb⟩ := foldlM_balances hs 0 false s.pools
      rw [if_neg hnormal, hu]
      refine ⟨_, _, req, rfl, gs, u, hb, (Nat.zero_add _).symm, ?_⟩
      split_ifs
      exacts [u.strip_commitLeases, rfl]
  have hbal := hb.balanced hs
  have hstate (i : ι) : (t.lease i).bindingState = (u.lease i).bindingState :=
    Db.eq_of_strip hstrip (fun s => (s.lease i).bindingState)
  have hcard := hbal.card
  refine ⟨t, n, req, ht, ⟨gs, u, hb, hn, hstrip⟩, fun p => ?_, fun i hne => ?_, ?_⟩
  · have htot := hbal.total p
    simp only [total] at htot
    rw [Db.eq_of_strip hstrip (fun s => (s.pool p).freeLeases),
      Db.eq_of_strip hstrip (fun s => (s.pool p).backupLeases)]
    omega
  · rw [hstate] at hne ⊢
    refine hbal.given i ?_
    by_contra hn
    exact hne (Lease.eq_of_strip (hbal.others i hn) Lease.bindingState)
  · simp only [hstate]
    rw [← hn, ← hcard, Finset.card_ne_zero]
    exact ⟨fun ⟨i, hi⟩ => ⟨i, (Finset.mem_filter.mp hi).2⟩,
      fun ⟨i, hi⟩ => ⟨i, Finset.mem_filter.mpr ⟨Finset.mem_univ i, hi⟩⟩⟩

/-- A primary with two free leases and two backup leases, whose peer would serve every client. -/
def evenSample : Db (Fin 4) :=
  instantiateAll
    { curTime := 100
      lease := fun i =>
        let st : BindingState := if i < 2 then .free else .backup
        { pool := some 0, bindingState := st, nextBindingState := st, hardwareAddr := [1, 2, 3]
          ends := 50 }
      pool := fun _ => { failoverPeer := true }
      peer := { hba := some fun _ => false, maxLeaseOwnership := 25 } } [0, 1, 2, 3]

theorem poolDobalance_conservative_sample :
    ∃ t n req, evenSample.dhcpFailoverPoolDobalance = some (t, n, req) ∧
      (t.pool 0).freeLeases + (t.pool 0).backupLeases = 4 ∧
      (n ≠ 0 ↔ ∃ i, (t.lease i).bindingState ≠ (evenSample.lease i).bindingState) := by
  obtain ⟨t, n, req, ht, -, htotal, -, hn⟩ := poolDobalance_conservative evenSample
    ⟨instantiateAll_queued ⟨fun _ _ => rfl, fun _ => rfl, fun _ => rfl, rfl⟩ (by decide)
      (by decide),
      rfl⟩
  exact ⟨t, n, req, ht, (htotal 0).trans (by decide), hn⟩

/-- A lease is given away although the pool is balanced. -/
theorem poolDobalance_when_even : evenSample.surplus 0 = 0 ∧ evenSample.hold 0 = 1 ∧
      evenSample.dhcpFailoverPoolDobalance.map (fun r => (r.2.1, r.1.surplus 0)) =
        some (1, -2) := by
  decide +kernel

end Db

end IscDhcp
