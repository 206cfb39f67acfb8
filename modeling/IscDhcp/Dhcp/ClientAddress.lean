import IscDhcp.Mdb6.Pool
import Mathlib.Data.Prod.Lex

/-!
The lease that a client gets in a DHCPv6 reply (`find_client_address` and `lease_compare` in
`dhcpv6.c`). A fatal error is `none`; what is sent of the lease is left out.
-/

namespace IscDhcp.Dhcpv6

open Mdb6 List

/-- What is looked at of the pool of a lease and of its pond. -/
structure LeasePool (α σ π : Type) where
  leases : In6Addr → Option α := fun _ => none
  sharedNetwork : σ
  prohibitList : Option π := none
  permitList : Option π := none

/-- `permitted` is what `permitted` says of the client's packet. -/
structure ReplyState (α β σ π : Type) where
  lease : α → Iasubopt β
  ipv6Pool : α → LeasePool α σ π
  permitted : π → Bool
  shared : σ
  oldIa : Option (List α) := none
  staticLease : Bool := false
  host : Bool := false
  fixed : In6Addr := .replicate 16 0

inductive Chosen (α : Type)
  | invalidArg
  | fixed (addr : In6Addr)
  | lease (l : α)
  | pickV6Address
  deriving DecidableEq

variable {α β σ π : Type}

/-- `lease_compare (alpha, beta)`, where `beta` may be `NULL`. -/
def leaseCompare (lease : α → Iasubopt β) (alpha : α) : Option α → Option α
  | none => some alpha
  | some beta =>
    let a := lease alpha
    let b := lease beta
    match a.state, b.state with
    | .active, .active =>
      some (if a.hardLifetimeEndTime < b.hardLifetimeEndTime then beta else alpha)
    | .active, .expired | .active, .abandoned => some alpha
    | .expired, .active => some beta
    | .expired, .expired =>
      some (if a.hardLifetimeEndTime < b.hardLifetimeEndTime then beta
        else if a.hardLifetimeEndTime = b.hardLifetimeEndTime ∧
          a.softLifetimeEndTime < b.softLifetimeEndTime then beta
        else alpha)
    | .expired, .abandoned => some alpha
    | .abandoned, .active | .abandoned, .expired => some alpha
    | .abandoned, .abandoned =>
      some (if a.hardLifetimeEndTime < b.hardLifetimeEndTime then alpha else beta)
    | _, _ => none

namespace ReplyState

section Model

variable [DecidableEq α] [DecidableEq σ] (r : ReplyState α β σ π)

def lease6Usable (l : α) : Bool := ((r.ipv6Pool l).leases (r.lease l).addr).all (· = l)

/-- A lease on the client's shared network that it may use. -/
def candidate (l : α) : Bool :=
  let pool := r.ipv6Pool l
  pool.sharedNetwork = r.shared && r.lease6Usable l && !pool.prohibitList.any r.permitted &&
    pool.permitList.all r.permitted

def bestLease : List α → Option α → Option (Option α)
  | [], best => some best
  | l :: ls, best =>
    if r.candidate l then (leaseCompare r.lease l best).bind fun best => bestLease ls (some best)
    else bestLease ls best

def findClientAddress : Option (Chosen α) :=
  if r.staticLease then some (if r.host then .fixed r.fixed else .invalidArg)
  else (r.bestLease (r.oldIa.getD []) none).map fun
    | some l => if (r.lease l).state = .abandoned then .pickV6Address else .lease l
    | none => .pickV6Address

def candidates : List α := (r.oldIa.getD []).filter r.candidate

end Model

abbrev Abandoned (r : ReplyState α β σ π) (l : α) : Prop := (r.lease l).state = .abandoned

def Known (r : ReplyState α β σ π) (l : α) : Prop :=
  ((r.lease l).state = .active ∨ (r.lease l).state = .expired) ∨ r.Abandoned l

/-- An active lease before an expired one, then the later lifetime end. -/
def rank (r : ReplyState α β σ π) (l : α) : ℕ ×ₗ ℕ ×ₗ ℕ :=
  if (r.lease l).state = .active then toLex (1, toLex ((r.lease l).hardLifetimeEndTime, 0))
  else toLex (0, toLex ((r.lease l).hardLifetimeEndTime, (r.lease l).softLifetimeEndTime))

variable {r : ReplyState α β σ π} {a b x : α} {c : List α} {best : Option α}

/-! ### One comparison -/

lemma leaseCompare_abandoned (ha : r.Abandoned a) (hb : r.Known b) :
    ∃ x, leaseCompare r.lease a (some b) = some x ∧ r.Abandoned x := by
  rcases hb with (hb | hb) | hb
  · exact ⟨a, by simp [leaseCompare, ha, hb], ha⟩
  · exact ⟨a, by simp [leaseCompare, ha, hb], ha⟩
  · refine ⟨_, by simp [leaseCompare, ha, hb]; rfl, ?_⟩
    split_ifs
    exacts [ha, hb]

lemma leaseCompare_over_abandoned (ha : r.Known a) (ha' : ¬ r.Abandoned a) (hb : r.Abandoned b) :
    leaseCompare r.lease a (some b) = some a := by
  rcases ha.resolve_right ha' with ha | ha <;> simp [leaseCompare, ha, hb]

lemma leaseCompare_rank (ha : r.Known a) (ha' : ¬ r.Abandoned a) (hb : r.Known b)
    (hb' : ¬ r.Abandoned b) :
    leaseCompare r.lease a (some b) = some (if r.rank a < r.rank b then b else a) := by
  rcases ha.resolve_right ha' with ha | ha <;> rcases hb.resolve_right hb' with hb | hb <;>
    simp only [leaseCompare, rank, ha, hb] <;> simp [Prod.Lex.toLex_lt_toLex, ite_or]

/-! ### All of them -/

/-- The best of the candidates `c`: since the last abandoned one, if there are any, the best of
those. -/
def Best (r : ReplyState α β σ π) (c : List α) : Option α → Prop
  | none => c = []
  | some x => r.Abandoned x ∧ (∃ pre y, c = pre ++ [y] ∧ r.Abandoned y) ∨
    ∃ pre suf, c = pre ++ suf ∧ (∀ y ∈ pre.getLast?, r.Abandoned y) ∧ x ∈ suf ∧
      ∀ m ∈ suf, ¬ r.Abandoned m ∧ r.rank m ≤ r.rank x

lemma Best.known (h : r.Best c (some x)) (hc : ∀ m ∈ c, r.Known m) : r.Known x := by
  rcases h with ⟨hx, -⟩ | ⟨pre, suf, rfl, -, hmem, -⟩
  · exact .inr hx
  · exact hc x (by simp [hmem])

lemma Best.step (h : r.Best c best) (hc : ∀ m ∈ c, r.Known m) (ha : r.Known a) :
    ∃ x, leaseCompare r.lease a best = some x ∧ r.Best (c ++ [a]) (some x) := by
  cases best with
  | none =>
    obtain rfl : c = [] := h
    by_cases ha' : r.Abandoned a
    · exact ⟨a, rfl, .inl ⟨ha', [], a, rfl, ha'⟩⟩
    · exact ⟨a, rfl, .inr ⟨[], [a], rfl, by simp, by simp, by simp [ha']⟩⟩
  | some b =>
    have hb := h.known hc
    by_cases ha' : r.Abandoned a
    · obtain ⟨x, hx, hab⟩ := leaseCompare_abandoned ha' hb
      exact ⟨x, hx, .inl ⟨hab, c, a, rfl, ha'⟩⟩
    rcases h with ⟨hb', pre, y, rfl, hy⟩ | ⟨pre, suf, rfl, hpre, hmem, hmax⟩
    · exact ⟨a, leaseCompare_over_abandoned ha ha' hb',
        .inr ⟨_, [a], rfl, by simpa using hy, by simp, by simp [ha']⟩⟩
    · refine ⟨_, leaseCompare_rank ha ha' hb (hmax b hmem).1,
        .inr ⟨pre, suf ++ [a], append_assoc _ _ _, hpre, ?_, ?_⟩⟩
      · split_ifs <;> simp [hmem]
      · simp only [mem_append, mem_singleton]
        rintro m (hm | rfl)
        · refine ⟨(hmax m hm).1, (hmax m hm).2.trans ?_⟩
          split_ifs with hlt
          exacts [le_rfl, not_lt.mp hlt]
        · refine ⟨ha', ?_⟩
          split_ifs with hlt
          exacts [hlt.le, le_rfl]

/-- The leases from `l` on are not abandoned, so `l` is one of those since the last that is. -/
lemma mem_of_append_eq {pre suf pre' post : List α} {l : α} (heq : pre ++ suf = pre' ++ l :: post)
    (hpre : ∀ y ∈ pre.getLast?, r.Abandoned y) (hpost : ∀ m ∈ l :: post, ¬ r.Abandoned m) :
    l ∈ suf := by
  rcases append_eq_append_iff.mp heq with ⟨as, -, rfl⟩ | ⟨cs, rfl, hcs⟩
  · simp
  · rcases eq_nil_or_concat' cs with rfl | ⟨cs, y, rfl⟩
    · simp [show suf = l :: post from hcs.symm]
    · exact absurd (hpre y (by simp)) (hpost y (by simp [hcs]))

variable [DecidableEq α] [DecidableEq σ] {ls : List α}

lemma Best.all (h : r.Best c best) (hc : ∀ m ∈ c ++ ls.filter r.candidate, r.Known m) :
    ∃ best', r.bestLease ls best = some best' ∧ r.Best (c ++ ls.filter r.candidate) best' := by
  induction ls generalizing c best with
  | nil => exact ⟨best, rfl, by simpa using h⟩
  | cons l ls ih =>
    rw [bestLease]
    split_ifs with hl
    · rw [filter_cons_of_pos hl, ← singleton_append, ← append_assoc] at hc ⊢
      obtain ⟨x, hx, hbest⟩ := h.step (fun m hm => hc m (by simp [hm])) (hc l (by simp))
      rw [hx]
      exact ih hbest hc
    · rw [filter_cons_of_neg hl] at hc ⊢
      exact ih h hc

/-! ### The choice -/

/-- No candidate that is not abandoned is better. -/
def Tops (r : ReplyState α β σ π) (l : α) : Prop :=
  ∀ m ∈ r.candidates, ¬ r.Abandoned m → r.rank m ≤ r.rank l

/-- A best lease is chosen, or a new address if all are abandoned. -/
def Right (r : ReplyState α β σ π) (chosen : Chosen α) : Prop :=
  (∀ m ∈ r.candidates, r.Abandoned m) ∧ chosen = .pickV6Address ∨
    ∃ l ∈ r.candidates, ¬ r.Abandoned l ∧ r.Tops l ∧ chosen = .lease l

/-- **The best lease** is chosen iff all are abandoned, or no abandoned one comes after it. -/
theorem findClientAddress_right_iff (r : ReplyState α β σ π) (hstatic : r.staticLease = false)
    (hknown : ∀ l ∈ r.candidates, r.Known l) : ∃ chosen, r.findClientAddress = some chosen ∧
      (r.Right chosen ↔ (∀ m ∈ r.candidates, r.Abandoned m) ∨
        ∃ pre l post, r.candidates = pre ++ l :: post ∧ (∀ m ∈ l :: post, ¬ r.Abandoned m) ∧
          r.Tops l) := by
  have hnil : r.Best [] none := rfl
  obtain ⟨best, hbest, h⟩ := hnil.all hknown
  rw [findClientAddress, if_neg (by simp [hstatic]), hbest]
  change r.Best r.candidates best at h
  refine ⟨_, rfl, ?_⟩
  rcases best with _ | x
  · simp [Right, show r.candidates = [] from h]
  dsimp only
  rcases h with ⟨hx, pre, y, heq, hy⟩ | ⟨pre, suf, heq, hpre, hmem, hmax⟩
  · rw [if_pos hx]
    constructor
    · rintro (⟨hall, -⟩ | ⟨l, -, -, -, hl⟩)
      exacts [.inl hall, nomatch hl]
    · rintro (hall | ⟨pre', l, post, heq', hpost, -⟩)
      · exact .inl ⟨hall, rfl⟩
      · have hl := mem_of_append_eq ((append_nil _).trans (heq.symm.trans heq'))
          (by simpa using hy) hpost
        cases hl
  · have hx := (hmax x hmem).1
    have hxc : x ∈ r.candidates := by simp [heq, hmem]
    rw [if_neg hx]
    constructor
    · rintro (⟨hall, -⟩ | ⟨l, -, -, htops, hl⟩)
      · exact absurd (hall x hxc) hx
      · cases hl
        obtain ⟨suf1, suf2, rfl⟩ := append_of_mem hmem
        exact .inr
          ⟨pre ++ suf1, x, suf2, by simp [heq], fun m hm => (hmax m (by simp [hm])).1, htops⟩
    · rintro (hall | ⟨pre', l, post, heq', hpost, htops⟩)
      · exact absurd (hall x hxc) hx
      · have hl := mem_of_append_eq (heq.symm.trans heq') hpre hpost
        exact .inr ⟨x, hxc, hx, fun m hm hm' => (htops m hm hm').trans (hmax l hl).2, rfl⟩

def twoLeases (oldIa : List ℕ) : ReplyState ℕ Unit Unit Unit where
  lease l :=
    { addr := .replicate 16 0
      state := if l = 1 then .abandoned else .active
      hardLifetimeEndTime := 100 }
  ipv6Pool _ := { sharedNetwork := () }
  permitted _ := true
  shared := ()
  oldIa := some oldIa

theorem findClientAddress_right_iff_two :
    ∃ chosen, (twoLeases [1, 0]).findClientAddress = some chosen ∧
      (twoLeases [1, 0]).Right chosen := by
  obtain ⟨chosen, hchosen, hright⟩ := findClientAddress_right_iff (twoLeases [1, 0]) rfl
    (by unfold Known; decide)
  exact ⟨chosen, hchosen,
    hright.mpr (.inr ⟨[1], 0, [], by decide, by decide, by unfold Tops; decide⟩)⟩

/-- The abandoned lease comes after the active one, and a new address is picked. -/
theorem findClientAddress_abandoned : (twoLeases [0, 1]).findClientAddress = some .pickV6Address ∧
      ¬ (twoLeases [0, 1]).Right .pickV6Address := by
  refine ⟨by decide, ?_⟩
  rintro (⟨hall, -⟩ | ⟨l, -, -, -, hl⟩)
  · exact absurd (hall 0 (by decide)) (by decide)
  · cases hl

end ReplyState

end IscDhcp.Dhcpv6
