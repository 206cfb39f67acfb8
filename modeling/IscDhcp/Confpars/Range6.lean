import IscDhcp.Mdb6.Pool
import Mathlib.Algebra.Order.BigOperators.Group.List
import Mathlib.Algebra.Order.Ring.Nat

/-!
The ranges of DHCPv6 addresses and prefixes (`confpars.c`).
-/

namespace IscDhcp.Confpars

open Mdb6 (U64)

/-! ### The size of a pond -/

/-- A range of addresses, or of prefixes of the length `units`; the first `bits` bits of its
addresses are those of `start`. -/
structure Ipv6Pool where
  start : ℕ
  bits : ℕ
  units : ℕ
  deriving DecidableEq, Repr

structure Ipv6Pond where
  ipv6Pools : List Ipv6Pool := []
  numTotal : U64 := 0
  jumboRange : Bool := false
  deriving DecidableEq

def pondTrackMax : U64 := BitVec.allOnes 64

def Ipv6Pond.jumbo (pond : Ipv6Pond) : Ipv6Pond :=
  { pond with jumboRange := true, numTotal := pondTrackMax }

/-- `add_ipv6_pool_to_subnet`. The lengths are compared without a sign, and the shift takes its
count modulo 64. -/
def Ipv6Pond.addIpv6PoolToSubnet (pond : Ipv6Pond) (pool : Ipv6Pool) : Ipv6Pond :=
  let pond := { pond with ipv6Pools := pond.ipv6Pools ++ [pool] }
  if pond.jumboRange then pond
  else if pool.units < pool.bits ∨ pool.units - pool.bits > 64 then pond.jumbo
  else
    let spaceLeft := pondTrackMax - pond.numTotal
    let addon := (1 : U64) <<< ((pool.units - pool.bits) % 64)
    if addon > spaceLeft then pond.jumbo else { pond with numTotal := pond.numTotal + addon }

def Ipv6Pool.size (pool : Ipv6Pool) : ℕ := 2 ^ (pool.units - pool.bits)

def Ipv6Pool.counted (pool : Ipv6Pool) : ℕ :=
  if pool.units - pool.bits = 64 then 1 else pool.size

def Ipv6Pond.Says (pond : Ipv6Pond) (n : ℕ) : Prop :=
  if n ≤ pondTrackMax.toNat then pond.numTotal.toNat = n
  else pond.numTotal = pondTrackMax ∧ pond.jumboRange

def Ipv6Pond.Counts (pond : Ipv6Pond) (n : ℕ) : Prop :=
  pond.numTotal.toNat = min n (2 ^ 64 - 1) ∧ (pond.jumboRange ↔ 2 ^ 64 ≤ n)

namespace Ipv6Pond

variable {pond : Ipv6Pond} {pool : Ipv6Pool} {n : ℕ}

lemma toNat_pondTrackMax : pondTrackMax.toNat = 2 ^ 64 - 1 := rfl

lemma counts_jumbo (hn : 2 ^ 64 ≤ n) : pond.jumbo.Counts n :=
  ⟨by rw [min_eq_right (by omega)]; rfl, by simpa [jumbo] using hn⟩

lemma toNat_addon (pool : Ipv6Pool) (hw : pool.units - pool.bits ≤ 64) :
    ((1 : U64) <<< ((pool.units - pool.bits) % 64)).toNat = pool.counted := by
  have hlt : (pool.units - pool.bits) % 64 < 64 := Nat.mod_lt _ (by decide)
  rw [BitVec.toNat_shiftLeft, show (1 : U64).toNat = 1 from rfl, Nat.one_shiftLeft,
    Nat.mod_eq_of_lt (Nat.pow_lt_pow_right (by decide) hlt), Ipv6Pool.counted, Ipv6Pool.size]
  split_ifs with h64
  · rw [h64]
  · rw [Nat.mod_eq_of_lt (by omega)]

lemma Counts.add (h : pond.Counts n) (hb : pool.bits ≤ pool.units) :
    (pond.addIpv6PoolToSubnet pool).Counts (n + pool.counted) := by
  obtain ⟨hnum, hjumbo⟩ := h
  unfold addIpv6PoolToSubnet
  dsimp only
  split_ifs with hj hlarge hspace
  · have hn := hjumbo.mp hj
    refine ⟨hnum.trans (by omega), ?_⟩
    simp only [hj, true_iff]
    omega
  · refine counts_jumbo ?_
    have hw : pool.units - pool.bits > 64 := by omega
    have hpow : 2 ^ 64 ≤ 2 ^ (pool.units - pool.bits) := Nat.pow_le_pow_right (by decide) hw.le
    rw [Ipv6Pool.counted, if_neg hw.ne', Ipv6Pool.size]
    omega
  all_goals
    have hn : n < 2 ^ 64 := not_le.mp (mt hjumbo.mpr hj)
    rw [min_eq_left (by omega)] at hnum
    have haddon := toNat_addon pool (by omega)
    have hle : pond.numTotal ≤ pondTrackMax :=
      BitVec.le_def.mpr (Nat.le_of_lt_succ pond.numTotal.isLt)
    rw [gt_iff_lt, BitVec.lt_def, haddon, BitVec.toNat_sub_of_le hle, toNat_pondTrackMax,
      hnum] at hspace
  · exact counts_jumbo (by omega)
  · refine ⟨?_, ?_⟩
    · rw [BitVec.toNat_add, haddon, hnum, min_eq_left (by omega), Nat.mod_eq_of_lt (by omega)]
    · simp only [hj]
      simp
      omega

lemma counts_foldl (h : pond.Counts n) {ranges : List Ipv6Pool}
    (hb : ∀ r ∈ ranges, r.bits ≤ r.units) :
    (ranges.foldl addIpv6PoolToSubnet pond).Counts (n + (ranges.map Ipv6Pool.counted).sum) := by
  induction ranges generalizing pond n with
  | nil => exact h
  | cons r ranges ih =>
    rw [List.forall_mem_cons] at hb
    rw [List.foldl_cons, List.map_cons, List.sum_cons, ← Nat.add_assoc]
    exact ih (h.add hb.1) hb.2

/-- **The size of a pond** is right iff no range of 2^64 elements is added, or what is counted
without it is too large already. -/
theorem says_iff {ranges : List Ipv6Pool} (hb : ∀ r ∈ ranges, r.bits ≤ r.units) :
    (ranges.foldl addIpv6PoolToSubnet {}).Says (ranges.map Ipv6Pool.size).sum ↔
      ((∃ r ∈ ranges, r.units - r.bits = 64) →
        pondTrackMax.toNat < (ranges.map Ipv6Pool.counted).sum) := by
  have h0 : Ipv6Pond.Counts {} 0 := ⟨rfl, by simp⟩
  obtain ⟨hnum, hjumbo⟩ := counts_foldl h0 hb
  rw [Nat.zero_add] at hnum hjumbo
  by_cases h64 : ∃ r ∈ ranges, r.units - r.bits = 64
  · obtain ⟨r, hr, hw⟩ := h64
    have hle : 2 ^ 64 ≤ (ranges.map Ipv6Pool.size).sum := by
      refine le_trans ?_ (List.le_sum_of_mem (List.mem_map_of_mem hr))
      rw [Ipv6Pool.size, hw]
    rw [Says, if_neg (by rw [toNat_pondTrackMax]; omega), ← BitVec.toNat_inj, hnum, hjumbo,
      toNat_pondTrackMax]
    refine ⟨fun h _ => by omega, fun h => ?_⟩
    have := h ⟨r, hr, hw⟩
    omega
  · have heq : ranges.map Ipv6Pool.counted = ranges.map Ipv6Pool.size :=
      List.map_congr_left fun r hr => if_neg fun hw => h64 ⟨r, hr, hw⟩
    rw [heq] at hnum hjumbo
    rw [Says, ← BitVec.toNat_inj, hnum, hjumbo, toNat_pondTrackMax]
    simp only [h64, false_imp_iff, iff_true]
    split_ifs <;> omega

/-- A range of 2^64 addresses counts as one. -/
theorem says_wrong : ¬ (addIpv6PoolToSubnet {} ⟨0, 64, 128⟩).Says (Ipv6Pool.size ⟨0, 64, 128⟩) ∧
    (addIpv6PoolToSubnet {} ⟨0, 64, 128⟩).numTotal = 1 := by
  refine ⟨fun h => ?_, by decide⟩
  rw [Says, if_neg (by decide)] at h
  exact absurd h.2 (by decide)

theorem says_iff_two : (([⟨0, 0, 128⟩, ⟨0, 64, 128⟩] : List Ipv6Pool).foldl
    addIpv6PoolToSubnet {}).Says (([⟨0, 0, 128⟩, ⟨0, 64, 128⟩] : List Ipv6Pool).map
      Ipv6Pool.size).sum :=
  (says_iff (by decide)).mpr fun _ => by decide

end Ipv6Pond

end IscDhcp.Confpars
