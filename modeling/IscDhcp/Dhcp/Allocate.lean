import IscDhcp.Mdb.Types
import Mathlib.Data.List.MinMax
import Mathlib.Data.Prod.Lex

/-!
The choice of a lease for a new client (`dhcp.c`): which pools are open to the packet, which lease
of a pool is looked at, and which of these leases is taken.

The loop over the pools keeps the best lease so far, by a chain of comparisons. It is shown to
compute the least candidate for one order.
-/

namespace IscDhcp

open List

variable {ι : Type}

/-! ### Permits -/

/-- What a permit asks of a client; classes are named by numbers. -/
inductive Permit
  | unknownClients | knownClients | authenticatedClients | unauthenticatedClients | allClients
  | dynamicBootpClients
  | cls (c : ℕ)
  | after (t : Time)
  deriving DecidableEq, Repr

structure Requester where
  known : Bool := false
  authenticated : Bool := false
  optionsValid : Bool := true
  packetType : ℕ := 1
  /-- The classes the packet is in, and for each the class it is a subclass of. -/
  classes : List (ℕ × Option ℕ) := []

def Permit.grants (curTime : Time) (packet : Requester) : Permit → Bool
  | .unknownClients => !packet.known
  | .knownClients => packet.known
  | .authenticatedClients => packet.authenticated
  | .unauthenticatedClients => !packet.authenticated
  | .allClients => true
  | .dynamicBootpClients => !packet.optionsValid || packet.packetType == 0
  | .cls c => packet.classes.any fun x => c == x.1 || x.2 == some c
  | .after t => curTime > t

def permitted (curTime : Time) (packet : Requester) (permitList : List Permit) : Bool :=
  permitList.any (·.grants curTime packet)

structure Permits where
  prohibitList : List Permit := []
  permitList : List Permit := []

/-- The pool is open to the packet; an empty list is a null pointer. -/
def Permits.admits (permits : Permits) (curTime : Time) (packet : Requester) : Bool :=
  !(permits.prohibitList != [] && permitted curTime packet permits.prohibitList ||
    permits.permitList != [] && !permitted curTime packet permits.permitList)

/-! ### Leases -/

def Lease.used (l : Lease) : Bool := l.uid.getD [] != [] || l.hardwareAddr != []

/-- `candl` is taken instead of the lease selected so far. -/
def Lease.yields (lease candl : Lease) : Bool :=
  if lease.bindingState = .abandoned ∧
    (candl.bindingState ≠ .abandoned ∨ candl.ends < lease.ends) then
    true
  else if candl.bindingState = .abandoned then false
  else if lease.used = true ∧ (candl.used = false ∨ candl.ends < lease.ends) then true
  else if candl.used = true then false
  else candl.ends < lease.ends

namespace Db

section

variable (s : Db ι)

/-- In partner-down, `mclt` has passed since the peer is gone and since it may have known of the
lease. -/
def peerGone (lease : Lease) : Bool :=
  s.peer.serviceState == .servicePartnerDown &&
    if lease.tsfp < s.peer.meStos then s.peer.meStos + s.peer.mclt < s.curTime
    else lease.tsfp + s.peer.mclt < s.curTime

/-- This server may give the lease to another client; `none` is a fatal error. -/
def leaseMineToReallocate (lease : Lease) : Option Bool :=
  match lease.pool.filter fun p => (s.pool p).failoverPeer with
  | some _ =>
    match lease.bindingState with
    | .active => some false
    | .free | .abandoned => some (s.peer.iAm == .primary || s.peerGone lease)
    | .released | .expired =>
      -- the state that the peer knows of is one this server may act on
      some (s.peer.iAm == .primary && lease.rewindBindingState == .free ||
        s.peer.iAm == .secondary && lease.rewindBindingState == .backup ||
        s.peer.serviceState == .servicePartnerDown && lease.tsfp < s.curTime)
    | .reset => some (s.peer.serviceState == .servicePartnerDown && lease.tsfp < s.curTime)
    | .backup => some (s.peer.iAm == .secondary || s.peerGone lease)
    | .bogus _ => none
  | none => some (lease.bindingState == .free || lease.bindingState == .backup)

def first (p : ℕ) (q : Queue) : Option ι := ((s.pool p).queue q).head?

/-- The lease for which this server and its peer compete: the first of its own queue, or the
first of the peer's if that has ended earlier and the peer is gone. The flag says that leases were
left to the peer. -/
def compete (mine theirs : Option ι) : Option (Option ι × Bool) :=
  match theirs with
  | none => some (mine, false)
  | some peerl =>
    if mine.all fun c => (s.lease c).ends > (s.lease peerl).ends then do
      if ← s.leaseMineToReallocate (s.lease peerl) then some (some peerl, false)
      else some (mine, true)
    else some (mine, true)

/-- Abandoned leases are the last resort. -/
def resort (candl abandoned : Option ι) : Option (Option ι) :=
  match candl, abandoned with
  | none, some peerl => do
    if ← s.leaseMineToReallocate (s.lease peerl) then some (some peerl) else some none
  | _, _ => some candl

def poolCandidate (p : ℕ) : Option (Option ι × Bool) :=
  if (s.pool p).failoverPeer then do
    let (candl, peerHasLeases) ← if s.peer.iAm = .primary
      then s.compete (s.first p .free) (s.first p .backup)
      else s.compete (s.first p .backup) (s.first p .free)
    let candl ← s.resort candl (s.first p .abandoned)
    return (candl, peerHasLeases)
  else some (if (s.pool p).queue .free ≠ [] then s.first p .free else s.first p .abandoned, false)

/-- A lease that has not ended is not taken, unless it is abandoned. -/
def available (i : ι) : Bool :=
  !((s.lease i).bindingState != .abandoned && (s.lease i).ends > s.curTime)

/-- The lease selected so far, and the one a pool has to offer. -/
def select (lease candl : Option ι) : Option ι :=
  match candl with
  | none => lease
  | some c =>
    if s.available c then
      match lease with
      | none => some c
      | some l => if (s.lease l).yields (s.lease c) then some c else some l
    else lease

end

section Allocate

variable (permits : ℕ → Permits) (packet : Requester)

/-- One pool. The state of the loop is the lease selected so far, and whether leases were left to
the peer. -/
def allocateFrom (s : Db ι) (sel : Option ι × Bool) (p : ℕ) : Option (Option ι × Bool) :=
  if (permits p).admits s.curTime packet then do
    let (candl, peerHasLeases) ← s.poolCandidate p
    return (s.select sel.1 candl, sel.2 || peerHasLeases)
  else some sel

/-- The lease, whether leases were left to the peer, and the database, in which the lease has no
stale host. -/
def allocateLease [DecidableEq ι] (s : Db ι) (pools : List ℕ) : Option
    (Option ι × Bool × Db ι) := do
  let (lease, peerHasLeases) ← pools.foldlM (s.allocateFrom permits packet) (none, false)
  return (lease, peerHasLeases,
    lease.elim s fun i => s.modify i fun l => { l with host := none })

end Allocate

/-! ### The order of preference -/

/-- Leases that are not abandoned come first, among these the ones that have had no client, and
then the ones that have ended earlier. -/
def allocRank (s : Db ι) (i : ι) : Bool ×ₗ Bool ×ₗ Time :=
  let l := s.lease i
  toLex (l.bindingState = .abandoned,
    toLex (decide (l.bindingState ≠ .abandoned) && l.used, l.ends))

lemma yields_iff (s : Db ι) (l c : ι) :
    (s.lease l).yields (s.lease c) = true ↔ s.allocRank c < s.allocRank l := by
  unfold Lease.yields allocRank
  simp only [Prod.Lex.toLex_lt_toLex]
  by_cases hl : (s.lease l).bindingState = .abandoned <;>
    by_cases hc : (s.lease c).bindingState = .abandoned <;>
    cases (s.lease l).used <;> cases (s.lease c).used <;> simp [hl, hc]

def offered (s : Db ι) (p : ℕ) : Option ι :=
  ((s.poolCandidate p).bind Prod.fst).filter s.available

/-- The leases that the pools open to the packet offer. -/
def candidates (s : Db ι) (permits : ℕ → Permits) (packet : Requester) (pools : List ℕ) : List ι :=
  (pools.filter fun p => (permits p).admits s.curTime packet).filterMap s.offered

variable {s : Db ι} {permits : ℕ → Permits} {packet : Requester}

lemma select_eq (s : Db ι) (lease candl : Option ι) : s.select lease candl =
    (candl.filter s.available).elim lease
      (List.argAux (fun b c => s.allocRank b < s.allocRank c) lease) := by
  unfold select
  cases candl with
  | none => rfl
  | some c =>
    by_cases hc : s.available c = true
    · rw [Option.filter_some, if_pos hc, Option.elim_some]
      simp only [hc]
      cases lease with
      | none => rfl
      | some l =>
        simp [argAux, yields_iff]
    · rw [Option.filter_some, if_neg hc]
      simp only [hc]
      rfl

variable {p : ℕ}

lemma allocateFrom_fst {sel r : Option ι × Bool}
    (h : s.allocateFrom permits packet sel p = some r) :
    r.1 = (s.candidates permits packet [p]).foldl
      (List.argAux fun b c => s.allocRank b < s.allocRank c)
      sel.1 := by
  unfold allocateFrom at h
  unfold candidates offered
  by_cases ha : (permits p).admits s.curTime packet = true
  · have hf : [p].filter (fun p => (permits p).admits s.curTime packet) = [p] := by simp [ha]
    rw [if_pos ha] at h
    rw [hf]
    cases hp : s.poolCandidate p with
    | none => simp [hp] at h
    | some x =>
      obtain rfl : (s.select sel.1 x.1, sel.2 || x.2) = r := by simpa [hp] using h
      rw [select_eq]
      cases hx : x.1.filter s.available <;> simp [hp, hx]
  · have hf : [p].filter (fun p => (permits p).admits s.curTime packet) = [] := by simp [ha]
    rw [if_neg ha] at h
    rw [hf]
    cases h
    rfl

lemma candidates_cons (p : ℕ) (pools : List ℕ) : s.candidates permits packet (p :: pools) =
    s.candidates permits packet [p] ++ s.candidates permits packet pools := by
  unfold candidates
  rw [← filterMap_append, ← filter_append, singleton_append]

lemma foldlM_allocateFrom {pools : List ℕ} {sel r : Option ι × Bool}
    (h : pools.foldlM (s.allocateFrom permits packet) sel = some r) :
    r.1 = (s.candidates permits packet pools).foldl
      (List.argAux fun b c => s.allocRank b < s.allocRank c) sel.1 := by
  induction pools generalizing sel with
  | nil =>
    cases h
    rfl
  | cons p pools ih =>
    rw [foldlM_cons] at h
    obtain ⟨x, hx, hr⟩ := Option.bind_eq_some_iff.mp h
    rw [candidates_cons, foldl_append, ← allocateFrom_fst hx]
    exact ih hr

/-! ### No fatal error -/

def Sound (s : Db ι) (p : ℕ) : Prop :=
  ∀ q, ∀ i ∈ (s.pool p).queue q, ∀ c, (s.lease i).bindingState ≠ .bogus c

lemma leaseMineToReallocate_isSome {lease : Lease} (h : ∀ c, lease.bindingState ≠ .bogus c) :
    ∃ b, s.leaseMineToReallocate lease = some b := by
  unfold leaseMineToReallocate
  cases lease.pool.filter fun p => (s.pool p).failoverPeer with
  | none => exact ⟨_, rfl⟩
  | some p =>
    cases hb : lease.bindingState with
    | bogus c => exact absurd hb (h c)
    | _ => exact ⟨_, rfl⟩

lemma Sound.reallocate (h : s.Sound p) {q : Queue} {i : ι} (hi : s.first p q = some i) :
    ∃ b, s.leaseMineToReallocate (s.lease i) = some b :=
  leaseMineToReallocate_isSome (h q i (mem_of_head? hi))

lemma Sound.compete (h : s.Sound p) (mine theirs : Queue) :
    ∃ r, s.compete (s.first p mine) (s.first p theirs) = some r := by
  unfold Db.compete
  cases ht : s.first p theirs with
  | none => exact ⟨_, rfl⟩
  | some peerl =>
    obtain ⟨b, hb⟩ := h.reallocate ht
    dsimp only
    rw [hb]
    split_ifs
    · cases b <;> exact ⟨_, rfl⟩
    · exact ⟨_, rfl⟩

lemma Sound.resort (h : s.Sound p) (candl : Option ι) :
    ∃ r, s.resort candl (s.first p .abandoned) = some r := by
  unfold Db.resort
  cases candl with
  | some c => exact ⟨_, rfl⟩
  | none =>
    cases ha : s.first p .abandoned with
    | none => exact ⟨_, rfl⟩
    | some peerl =>
      obtain ⟨b, hb⟩ := h.reallocate ha
      dsimp only
      rw [hb]
      cases b <;> exact ⟨_, rfl⟩

lemma Sound.poolCandidate (h : s.Sound p) : ∃ r, s.poolCandidate p = some r := by
  unfold Db.poolCandidate
  split_ifs
  · obtain ⟨r, hr⟩ := h.compete .free .backup
    obtain ⟨x, hx⟩ := h.resort r.1
    exact ⟨(x, r.2), by simp [hr, hx]⟩
  · obtain ⟨r, hr⟩ := h.compete .backup .free
    obtain ⟨x, hx⟩ := h.resort r.1
    exact ⟨(x, r.2), by simp [hr, hx]⟩
  · exact ⟨_, rfl⟩
  · exact ⟨_, rfl⟩

lemma Sound.foldlM (permits : ℕ → Permits) (packet : Requester) {pools : List ℕ}
    (h : ∀ p ∈ pools, s.Sound p) (sel : Option ι × Bool) :
    ∃ r, pools.foldlM (s.allocateFrom permits packet) sel = some r := by
  induction pools generalizing sel with
  | nil => exact ⟨sel, rfl⟩
  | cons p pools ih =>
    have hp : ∃ x, s.allocateFrom permits packet sel p = some x := by
      unfold allocateFrom
      obtain ⟨x, hx⟩ := (h p mem_cons_self).poolCandidate
      split_ifs
      · exact ⟨_, by rw [hx]; rfl⟩
      · exact ⟨_, rfl⟩
    obtain ⟨x, hx⟩ := hp
    obtain ⟨r, hr⟩ := ih (fun q hq => h q (mem_cons_of_mem p hq)) x
    exact ⟨r, by rw [foldlM_cons, hx]; exact hr⟩

/-! ### The lease returned -/

lemma exists_offered (hp : (s.pool p).failoverPeer = false)
    (hs : ((s.pool p).queue .free).Pairwise fun i j => (s.lease i).ends ≤ (s.lease j).ends)
    (hi : ∃ i ∈ (s.pool p).queue .free, (s.lease i).ends ≤ s.curTime) :
    ∃ j, s.offered p = some j := by
  obtain ⟨i, hi, he⟩ := hi
  unfold offered poolCandidate first
  cases hq : (s.pool p).queue .free with
  | nil => simp [hq] at hi
  | cons j rest =>
    rw [hq] at hs hi
    have hj : (s.lease j).ends ≤ s.curTime := by
      rcases mem_cons.mp hi with rfl | hr
      · exact he
      · exact ((pairwise_cons.mp hs).1 i hr).trans he
    refine ⟨j, ?_⟩
    have ha : s.available j = true := by simp [available, hj]
    simp [hp, ha]

variable [DecidableEq ι]

/-- **The lease that is allocated.** A lease is returned whenever a pool that is open to the packet
and not shared with the peer has a free lease that has ended; and of the leases that the open pools
offer, none comes before the one returned in the order of preference. -/
theorem allocateLease_best (s : Db ι) (permits : ℕ → Permits) (packet : Requester) (pools : List ℕ)
    (hsound : ∀ p ∈ pools, s.Sound p)
    (hsort : ∀ p ∈ pools, ((s.pool p).queue .free).Pairwise fun i j =>
      (s.lease i).ends ≤ (s.lease j).ends) :
    ∃ lease peerHasLeases t,
      s.allocateLease permits packet pools = some (lease, peerHasLeases, t) ∧
      ((∃ p ∈ pools, (permits p).admits s.curTime packet = true ∧ (s.pool p).failoverPeer = false ∧
        ∃ i ∈ (s.pool p).queue .free, (s.lease i).ends ≤ s.curTime) → lease ≠ none) ∧
      ∀ i, lease = some i → i ∈ s.candidates permits packet pools ∧
        ∀ j ∈ s.candidates permits packet pools, ¬ s.allocRank j < s.allocRank i := by
  obtain ⟨r, hr⟩ := Sound.foldlM permits packet hsound (none, false)
  have hmin : r.1 = (s.candidates permits packet pools).argmin s.allocRank := foldlM_allocateFrom hr
  refine ⟨r.1, r.2, _, by unfold allocateLease; rw [hr]; rfl, ?_, fun i hi => ?_⟩
  · rintro ⟨p, hp, ha, hf, hi⟩ hn
    obtain ⟨j, hj⟩ := exists_offered hf (hsort p hp) hi
    have hmem : j ∈ s.candidates permits packet pools :=
      mem_filterMap.mpr ⟨p, mem_filter.mpr ⟨hp, ha⟩, hj⟩
    rw [hn] at hmin
    rw [argmin_eq_none.mp hmin.symm] at hmem
    cases hmem
  · rw [hmin] at hi
    exact ⟨argmin_mem hi, fun j hj => not_lt_of_mem_argmin hj hi⟩

/-- Two pools: a lease that had a client, and one that had none but ended later. -/
def twoPools (state : BindingState) : Db Bool :=
  { curTime := 300
    lease := fun i =>
      { pool := some i.toNat, bindingState := state
        ends := if i then 100 else 200, hardwareAddr := if i then [1, 2, 3] else [] }
    pool := fun p =>
      { queue := fun q =>
          if (q = .free ∧ state = .free) ∨ (q = .abandoned ∧ state = .abandoned) then
            if p = 0 then [false] else if p = 1 then [true] else []
          else [] }
    pools := [0, 1] }

theorem allocateLease_best_sample : ∃ lease peerHasLeases t,
      (twoPools .free).allocateLease (fun _ => {}) {} [0, 1] = some (lease, peerHasLeases, t) ∧
        lease ≠ none := by
  have hsound : ∀ p ∈ [0, 1], (twoPools .free).Sound p := by
    intro p _ q i _ c
    simp [twoPools]
  obtain ⟨lease, has, t, h, hsome, -⟩ := allocateLease_best (twoPools .free) (fun _ => {}) {} [0, 1]
    hsound (by decide)
  exact ⟨lease, has, t, h, hsome ⟨0, by decide⟩⟩

/-- Of two abandoned leases the one that ended earlier is taken, although it has had a client and
the other has not. -/
theorem abandoned_used_first : let s := twoPools .abandoned
    ((s.allocateLease (fun _ => {}) {} [0, 1]).map Prod.fst = some (some true)) ∧
      s.candidates (fun _ => {}) {} [0, 1] = [false, true] ∧
      (s.lease false).bindingState = (s.lease true).bindingState ∧
      (s.lease false).used = false ∧ (s.lease true).used = true := by
  decide +kernel

end Db

end IscDhcp
