import IscDhcp.Leasechain.Insert
import Mathlib.Tactic.IntervalCases

/-!
Removals from a leasechain, and whole sequences of insertions and removals.
-/

namespace IscDhcp.Leasechain

open IscDhcp.Lib Function
open List hiding Chain

variable {α : Type} [DecidableEq α] {s : St α} {l l1 l2 : List α} {lp : α}

/-! ### Removing a lease -/

lemma lcUnlinkLcp_slots (hs : Slots s (l1 ++ lp :: l2)) :
    Slots (lcUnlinkLcp s l1.length) (l1 ++ l2) := by
  obtain ⟨hlen, hget⟩ := hs
  simp only [length_append, length_cons] at hlen
  refine ⟨by simp [lcUnlinkLcp, length_append]; omega, fun i hi => ?_⟩
  simp only [lcUnlinkLcp] at hi ⊢
  by_cases h : i < l1.length
  · have hli : s.list i = (l1 ++ l2)[i]? := by
      rw [hget i (by omega), List.getElem?_append_left h, List.getElem?_append_left h]
    rw [← hli]
    split_ifs
    · rw [memmove_of_lt h, update_of_ne (by omega)]
    · rw [update_of_ne (by omega)]
  · rw [if_pos (by omega), memmove_of_mem (by omega) (by omega), update_of_ne (by omega),
      hget _ (by omega), List.getElem?_append_right (by omega),
        List.getElem?_append_right (by omega),
      show l1.length + 1 + (i - l1.length) - l1.length = (i - l1.length) + 1 by omega,
      List.getElem?_cons_succ]

lemma unlinkLinks_next (hn : s.next lp ≠ some lp) :
    (unlinkLinks s lp).next = spliceOut s.next lp (s.prev lp) (s.next lp) := by
  funext c
  cases hnx : s.next lp <;> cases hpr : s.prev lp <;>
    simp_all [unlinkLinks, spliceOut, update_apply]

lemma unlinkLinks_prev (hn : s.next lp ≠ some lp) :
    (unlinkLinks s lp).prev = spliceOut s.prev lp (s.next lp) (s.prev lp) := by
  funext c
  cases hnx : s.next lp <;> cases hpr : s.prev lp <;>
    simp_all [unlinkLinks, spliceOut, update_apply]

lemma unlinkLinks_eq (hn : s.next lp ≠ some lp) : unlinkLinks s lp = { s with
      next := spliceOut s.next lp (s.prev lp) (s.next lp)
      prev := spliceOut s.prev lp (s.next lp) (s.prev lp) } := by
  rw [← unlinkLinks_next hn, ← unlinkLinks_prev hn]
  simp only [unlinkLinks]
  split <;> split <;> rfl

/-! ### Invariant of a removal -/

lemma Inv.nbrs (h : Inv s (l1 ++ lp :: l2)) : s.next lp = l2.head? ∧ s.prev lp = l1.getLast? := by
  have hfwd := h.fwd
  have hbwd := h.bwd
  rw [Chain, seg_append_cons] at hfwd
  rw [reverse_append, reverse_cons, append_assoc, singleton_append, Chain,
    seg_append_cons] at hbwd
  exact ⟨hfwd.2.head?, by rw [Seg.head? hbwd.2, head?_reverse]⟩

lemma lcUnlinkLeasePos_inv (h : Inv s (l1 ++ lp :: l2)) :
    ∃ s', lcUnlinkLeasePos s l1.length = some s' ∧ Inv s' (l1 ++ l2) ∧ s'.lc lp = none := by
  obtain ⟨hnx, hpr⟩ := h.nbrs
  obtain ⟨hlp, -⟩ := nodup_cons.mp (nodup_middle.mp h.fwd.nodup)
  have hslots := lcUnlinkLcp_slots h.slots
  have hget : s.list l1.length = some lp := by
    rw [h.slots.get _ (by rw [← h.slots.len]; simp)]
    simp
  have hself : s.next lp ≠ some lp := fun e =>
    hlp (mem_append_right _ (mem_of_head? (hnx ▸ e)))
  refine ⟨unlinkLinks (lcUnlinkLcp s l1.length) lp, by simp [lcUnlinkLeasePos, hget], ?_⟩
  rw [unlinkLinks_eq (s := lcUnlinkLcp s l1.length) hself]
  simp only [lcUnlinkLcp, hget, hnx, hpr] at hslots ⊢
  refine ⟨⟨⟨hslots.len, hslots.get⟩, ?_, h.fwd.spliceOut, ?_, fun a => ?_, fun a ha => ?_, ?_⟩,
    update_self _ _ _⟩
  · exact h.sorted.sublist ((sublist_cons_self lp l2).append_left l1)
  · have hback : Chain s.prev (l2.reverse ++ lp :: l1.reverse).head?
        (l2.reverse ++ lp :: l1.reverse) := by simpa using h.bwd
    simpa using hback.spliceOut
  · by_cases ha : a = lp
    · simpa [ha] using hlp
    · simp [ha, h.lc a]
  · by_cases hne : a = lp
    · simp [hne, spliceOut]
    · have hoff : s.lc a = none := by simpa [hne] using ha
      have hmem := h.notMem hoff
      obtain ⟨han, hap⟩ := h.off a hoff
      refine ⟨(spliceOut_of_ne hne fun e => hmem ?_).trans han,
        (spliceOut_of_ne hne fun e => hmem ?_).trans hap⟩
      · simp [mem_of_getLast? e.symm]
      · simp [mem_of_head? e.symm]
  · exact (Nat.sub_le _ _).trans h.cap

/-- A lease of the chain is found and taken out. -/
theorem lcUnlinkLease_inv (h : Inv s l) (hlc : s.lc lp = some s.self) :
    ∃ s' l1 l2, lcUnlinkLease s lp = some s' ∧ l = l1 ++ lp :: l2 ∧ Inv s' (l1 ++ l2) ∧
      s'.lc lp = none := by
  have hmem := (h.lc lp).mp hlc
  have hpos := h.slots.nelem_ne_zero hmem
  obtain ⟨r, hr, hsome, hnone⟩ := searchLease_all lp h.slots h.sorted hpos (Nat.lt_succ_self _)
  obtain ⟨j, rfl⟩ : ∃ j, r = some j := by
    cases r with
    | none => exact absurd hmem (hnone rfl)
    | some j => exact ⟨j, rfl⟩
  have hlj := hsome j rfl
  obtain ⟨hjl, hlj⟩ := List.getElem?_eq_some_iff.mp hlj
  have hl : l = l.take j ++ lp :: l.drop (j + 1) := by
    rw [← hlj, getElem_cons_drop, take_append_drop]
  have hlen' : (l.take j).length = j := length_take_of_le hjl.le
  rw [hl] at h
  obtain ⟨s', hs', hinv⟩ := lcUnlinkLeasePos_inv h
  rw [hlen'] at hs'
  exact ⟨s', _, _, by rw [lcUnlinkLease, hr]; exact hs', hl, hinv⟩

/-! ### Finding a lease -/

/-- **Finding a lease**: the search of the whole array of a sorted chain stays within the entries in
use and returns the position of the lease, or failure if it is not there, so that no lease of the
chain is reported missing, if and only if the chain is not empty. The chain without leases is
searched up to `nelem - 1`, which has wrapped. -/
theorem search_exact_iff (hs : Slots s l) (ho : Sorted s l) (lp : α) {fuel : ℕ}
    (hf : s.nelem < fuel) : ((∃ r, lcBinarySearchLease s lp fuel 0 (lastIndex s) = some r ∧
        (∀ j, r = some j → j < s.nelem ∧ s.list j = some lp) ∧ (r = none ↔ lp ∉ l)) ∧
      (lp ∈ l → lcUnlinkLease s lp ≠ none)) ↔ s.nelem ≠ 0 := by
  constructor
  · rintro ⟨⟨r, hr, -⟩, -⟩ h0
    obtain ⟨fuel, rfl⟩ := Nat.exists_eq_succ_of_ne_zero (Nat.ne_zero_of_lt hf)
    simp [lcBinarySearchLease, entry, h0] at hr
  · intro hpos
    -- a position that is returned holds the lease
    have holds : ∀ j, l[j]? = some lp → j < s.nelem ∧ s.list j = some lp := fun j hj => by
      have hlt : j < s.nelem := hs.len ▸ (List.getElem?_eq_some_iff.mp hj).1
      exact ⟨hlt, (hs.get j hlt).trans hj⟩
    obtain ⟨r, hr, hsome, hnone⟩ := searchLease_all lp hs ho hpos hf
    refine ⟨⟨r, hr, fun j hj => holds j (hsome j hj), hnone, fun hmem => ?_⟩, fun hmem => ?_⟩
    · cases r with
      | none => rfl
      | some j => exact absurd (List.mem_of_getElem? (hsome j rfl)) hmem
    · obtain ⟨r, hr, hsome, hnone⟩ := searchLease_all lp hs ho hpos (Nat.lt_succ_self _)
      cases r with
      | none => exact absurd hmem (hnone rfl)
      | some j =>
        obtain ⟨-, hlist⟩ := holds j (hsome j rfl)
        simp [lcUnlinkLease, hr, lcUnlinkLeasePos, hlist]

/-! ### Sequences of insertions and removals -/

/-- The calls made on one chain. The caller sets the sort time of the lease it adds. -/
inductive Op (α : Type)
  | add (lp : α) (sortTime : Time) (rnd : Long)
  | unlink (lp : α)

/-- `none` is a fatal error. -/
def step (s : St α) : Op α → Option (St α)
  | .add lp t rnd => lcAddSortedLease { s with sortTime := Function.update s.sortTime lp t } lp rnd
  | .unlink lp => lcUnlinkLease s lp

def run (s : St α) (ops : List (Op α)) : Option (St α) := ops.foldlM step s

/-- A lease is added while it is on no chain and removed while it is on this one. -/
def Legal (s : St α) : Op α → Prop
  | .add lp _ _ => s.lc lp = none
  | .unlink lp => s.lc lp = some s.self

def LegalRun (s : St α) : List (Op α) → Prop
  | [] => True
  | op :: ops => Legal s op ∧ ∀ s', step s op = some s' → LegalRun s' ops

/-- The leases a call leaves on the chain, out of those in `held`. -/
def holds (held : α → Prop) : Op α → α → Prop
  | .add lp _ _ => fun a => a = lp ∨ held a
  | .unlink lp => fun a => a ≠ lp ∧ held a

/-! ### What a call leaves alone -/

lemma lcAddLeasePos_frame (s : St α) (lp : α) (p : ℕ) :
    (lcAddLeasePos s lp p).sortTime = s.sortTime ∧
      ∀ a, a ≠ lp → (lcAddLeasePos s lp p).lc a = s.lc a := by
  obtain ⟨list, total, ht, -⟩ := lcLinkLcp_eq s lp p
  simp only [lcAddLeasePos, ht]
  generalize (if 0 < p then list (p - 1) else none) = front
  generalize (if p < s.nelem + 1 - 1 then list (p + 1) else none) = back
  cases front <;> cases back <;> exact ⟨rfl, fun a ha => update_of_ne ha _ _⟩

lemma lcUnlinkLeasePos_frame {s' : St α} {p : ℕ} (h : lcUnlinkLeasePos s p = some s') :
    s'.sortTime = s.sortTime ∧ ∀ a, s.lc a = none → s'.lc a = none := by
  obtain ⟨lp, hlp, h⟩ := Option.bind_eq_some_iff.1 h
  cases h
  have hlc : ∀ a, s.lc a = none → (lcUnlinkLcp s p).lc a = none := fun a ha => by
    simp [lcUnlinkLcp, hlp, update_apply, ha]
  unfold unlinkLinks
  dsimp only
  split <;> split <;> exact ⟨rfl, hlc⟩

/-- The sort time of the lease that is added is set, and no other; a lease that is on no chain
comes onto one only by being added. -/
lemma step_frame {op : Op α} {s' : St α} (h : step s op = some s') : match op with
    | .add lp t _ => s'.sortTime = Function.update s.sortTime lp t ∧
        ∀ a, a ≠ lp → s.lc a = none → s'.lc a = none
    | .unlink _ => s'.sortTime = s.sortTime ∧ ∀ a, s.lc a = none → s'.lc a = none := by
  cases op with
  | add lp t rnd =>
    have pos : ∀ (tb : Long) (p : ℕ),
        let r := lcAddLeasePos
          (setTiebreaker { s with sortTime := update s.sortTime lp t } lp tb) lp p
        r.sortTime = update s.sortTime lp t ∧
          ∀ a, a ≠ lp → s.lc a = none → r.lc a = none := fun tb p => by
      obtain ⟨htime, hlc⟩ := lcAddLeasePos_frame
        (setTiebreaker { s with sortTime := update s.sortTime lp t } lp tb) lp p
      exact ⟨htime, fun a ha hn => (hlc a ha).trans hn⟩
    simp only [step, lcAddSortedLease] at h
    split_ifs at h
    · cases h
      exact pos _ _
    · obtain ⟨last, -, h⟩ := Option.bind_eq_some_iff.1 h
      split_ifs at h
      · cases h
        exact pos _ _
      · cases h
        exact pos _ _
      · obtain ⟨p, -, h⟩ := Option.bind_eq_some_iff.1 h
        cases h
        exact pos _ _
  | unlink lp =>
    obtain ⟨found, -, h⟩ := Option.bind_eq_some_iff.1 h
    obtain ⟨p, -, h⟩ := Option.bind_eq_some_iff.1 h
    exact lcUnlinkLeasePos_frame h

/-- An initialised chain, with whatever room. -/
structure Empty (s : St α) : Prop where
  nelem : s.nelem = 0
  lc : ∀ a, s.lc a ≠ some s.self
  off : ∀ a, s.lc a = none → s.next a = none ∧ s.prev a = none

lemma Empty.inv (h : Empty s) : Inv s [] where
  slots := ⟨h.nelem.symm, fun i hi => by rw [h.nelem] at hi; omega⟩
  sorted := List.Pairwise.nil
  fwd := rfl
  bwd := rfl
  lc := fun a => by simpa using h.lc a
  off := h.off
  cap := by rw [h.nelem]; exact Nat.zero_le _

lemma Inv.setSortTime (h : Inv s l) (hlp : lp ∉ l) (t : Time) :
    Inv { s with sortTime := Function.update s.sortTime lp t } l := by
  refine ⟨⟨h.slots.len, h.slots.get⟩, ?_, h.fwd, h.bwd, h.lc, h.off, h.cap⟩
  refine List.Pairwise.imp_of_mem (fun {a b} ha hb hab => ?_) h.sorted
  have hne : ∀ c ∈ l, c ≠ lp := fun c hc e => hlp (e ▸ hc)
  simpa [key, update_of_ne (hne a ha), update_of_ne (hne b hb)] using hab

/-- A legal call is not fatal, keeps the invariant and changes the leases held as it should. -/
lemma step_inv {op : Op α} (h : Inv s l) (hop : Legal s op) :
    ∃ s' l', step s op = some s' ∧ Inv s' l' ∧ ∀ a, a ∈ l' ↔ holds (· ∈ l) op a := by
  cases op with
  | add lp t rnd =>
    obtain ⟨s', l1, l2, hs', rfl, hinv⟩ :=
      lcAddSortedLease_inv (h.setSortTime (h.notMem hop) t) hop rnd
    refine ⟨s', _, hs', hinv, fun a => ?_⟩
    simp only [holds, mem_append, mem_cons]
    tauto
  | unlink lp =>
    obtain ⟨s', l1, l2, hs', rfl, hinv, -⟩ := lcUnlinkLease_inv h hop
    obtain ⟨hlp, -⟩ := nodup_cons.mp (nodup_middle.mp h.fwd.nodup)
    refine ⟨s', _, hs', hinv, fun a => ?_⟩
    simp only [mem_append, mem_cons] at hlp ⊢
    constructor
    · intro ha
      exact ⟨by rintro rfl; exact hlp ha, by tauto⟩
    · rintro ⟨hne, ha⟩
      tauto

lemma run_inv {ops : List (Op α)} (h : Inv s l) (hops : LegalRun s ops) :
    ∃ s' l', run s ops = some s' ∧ Inv s' l' ∧ ∀ a, a ∈ l' ↔ ops.foldl holds (· ∈ l) a := by
  induction ops generalizing s l with
  | nil => exact ⟨s, l, rfl, h, fun _ => Iff.rfl⟩
  | cons op ops ih =>
    obtain ⟨s1, l1, hs1, h1, hm1⟩ := step_inv h hops.1
    obtain ⟨s', l', hs', h', hm'⟩ := ih h1 (hops.2 s1 hs1)
    have hm : (· ∈ l1) = holds (· ∈ l) op := funext fun a => propext (hm1 a)
    refine ⟨s', l', ?_, h', fun a => ?_⟩
    · rw [run, foldlM_cons, hs1]
      exact hs'
    · rw [hm' a, foldl_cons, hm]

/-- **Leasechain invariant**: no legal sequence of calls is fatal, and after each the array
holds exactly the leases added and not removed, once each and in the order of their keys, and
the links and pointers back agree with it. -/
theorem leasechain_invariant {ops : List (Op α)} (h : Empty s) (hops : LegalRun s ops) :
    ∃ s' l, run s ops = some s' ∧ Inv s' l ∧ l.Nodup ∧
      ∀ a, a ∈ l ↔ ops.foldl holds (fun _ => False) a := by
  obtain ⟨s', l, hs', hinv, hm⟩ := run_inv h.inv hops
  refine ⟨s', l, hs', hinv, hinv.fwd.nodup, fun a => ?_⟩
  simpa using hm a

def init (α : Type) : St α where
  self := 0
  list := fun _ => none
  nelem := 0
  total := 0
  growth := 0
  next := fun _ => none
  prev := fun _ => none
  lc := fun _ => none
  sortTime := fun _ => minTime
  sortTiebreaker := fun _ => Long.zero

/-- Three leases with one sort time and one tiebreaker, of which the last is looked for. -/
theorem search_exact_sample :
    let s : St ℕ := { init ℕ with list := fun i => some i, nelem := 3, total := 3 }
    ((∃ r, lcBinarySearchLease s 2 4 0 (lastIndex s) = some r ∧
        (∀ j, r = some j → j < s.nelem ∧ s.list j = some 2) ∧ (r = none ↔ 2 ∉ [0, 1, 2])) ∧
      (2 ∈ [0, 1, 2] → lcUnlinkLease s 2 ≠ none)) ↔ s.nelem ≠ 0 :=
  search_exact_iff ⟨rfl, fun i hi => by
    have hi : i < 3 := hi
    interval_cases i <;> rfl⟩ (by simp [Sorted, key, init]) 2 (by decide)

/-- The search of a chain without leases reads the entry at half of `SIZE_MAX`. -/
theorem empty_search_reads_outside :
    lcBinarySearchLease (init ℕ) 0 1 0 (lastIndex (init ℕ)) = none ∧
      ¬ (lastIndex (init ℕ) - 0) / 2 + 0 < (init ℕ).nelem := by
  decide

/-- Three leases, two with one sort time, one of which is taken out again. -/
theorem leasechain_invariant_sample :
    ∃ s' l, run (init ℕ) [.add 0 7 Long.zero, .add 1 5 Long.zero, .add 2 5 Long.zero, .unlink 1] =
        some s' ∧ Inv s' l ∧ l.Nodup ∧ ∀ a, a ∈ l ↔
          [Op.add 0 7 Long.zero, .add 1 5 Long.zero, .add 2 5 Long.zero, .unlink 1].foldl holds
            (fun _ => False) a := by
  refine leasechain_invariant ⟨rfl, fun _ => nofun, fun _ _ => ⟨rfl, rfl⟩⟩ ⟨rfl, fun s1 h1 => ?_⟩
  cases h1
  refine ⟨rfl, fun s2 h2 => ?_⟩
  cases h2
  refine ⟨rfl, fun s3 h3 => ?_⟩
  cases h3
  exact ⟨rfl, fun _ _ => trivial⟩

end IscDhcp.Leasechain
