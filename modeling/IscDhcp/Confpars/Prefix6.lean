import IscDhcp.Confpars.Range6

/-!
The prefixes that are delegated (`parse_prefix6` in `confpars.c`): the range is cut into CIDR
networks (`range2cidr` in `inet.c`), and each of them becomes a pool.

Addresses are numbers of `width` bits.
-/

namespace IscDhcp.Confpars

open List

structure CidrNet where
  loAddr : ℕ
  bits : ℕ
  deriving DecidableEq, Repr

/-- The loop of `range2cidr`. The bits up to `bit` are set in the mask; a network is too big if
its addresses are not all in the range, or the first is not one that it can begin with. -/
def range2cidrLoop (width hi addr bit : ℕ) (nets : List CidrNet) : List CidrNet :=
  if addr ≤ hi then
    let mask := 2 ^ (bit + 1) - 1
    if width ≤ bit ∨ addr ||| mask > hi ∨ addr &&& mask ≠ 0 then
      let nets := ⟨addr, width - bit⟩ :: nets
      -- past the last address
      if 2 ^ width ≤ addr + 2 ^ bit then nets
      else range2cidrLoop width hi (addr + 2 ^ bit) 0 nets
    else range2cidrLoop width hi addr (bit + 1) nets
  else nets
termination_by (hi + 1 - addr, width - bit)
decreasing_by
  · have := Nat.two_pow_pos bit
    exact Prod.Lex.left _ _ (by omega)
  · exact Prod.Lex.right _ (by omega)

def range2cidr (width lo hi : ℕ) : List CidrNet :=
  if lo > hi then range2cidrLoop width lo hi 0 [] else range2cidrLoop width hi lo 0 []

def isCidrMaskValid (addr bits : ℕ) : Bool := bits ≤ 128 ∧ addr % 2 ^ (128 - bits) = 0

/-- The pool for a network, where a single address stands for its prefix. -/
def normalize (bits : ℕ) (net : CidrNet) : Ipv6Pool :=
  ⟨net.loAddr, if net.bits = 128 then bits else net.bits, bits⟩

def addNet (bits : ℕ) : Ipv6Pond × List String → CidrNet → Ipv6Pond × List String
  | (pond, warnings), net =>
    if (normalize bits net).bits > bits then (pond, warnings ++ ["impossible mask length"])
    else (pond.addIpv6PoolToSubnet (normalize bits net), warnings)

/-- `parse_prefix6`, when it has read the addresses and the length: the pond with the pools, and
the warnings. -/
def parsePrefix6 (pond : Ipv6Pond) (lo hi bits : ℕ) : Ipv6Pond × List String :=
  if bits ≤ 0 ∨ bits ≥ 128 then (pond, ["networks have 0 to 128 bits (exclusive)"])
  else if !isCidrMaskValid lo bits || !isCidrMaskValid hi bits then
    (pond, ["network mask too short"])
  else (range2cidr 128 lo hi).foldl (addNet bits) (pond, [])

/-- The prefixes of a pool: the first bits are those of its start, and the bits behind the
length of its prefixes are zero. -/
def Ipv6Pool.Has (pool : Ipv6Pool) (x : ℕ) : Prop :=
  x / 2 ^ (128 - pool.bits) = pool.start / 2 ^ (128 - pool.bits) ∧ 2 ^ (128 - pool.units) ∣ x

/-! ### One network -/

variable {hi addr bit bits u k x : ℕ} {nets : List CidrNet}

lemma tooBig_iff : (addr ||| (2 ^ k - 1) > hi ∨ addr &&& (2 ^ k - 1) ≠ 0) ↔
    ¬ (2 ^ k ∣ addr ∧ addr + 2 ^ k ≤ hi + 1) := by
  have hpos := Nat.two_pow_pos k
  rw [Nat.and_two_pow_sub_one_eq_mod, ne_eq, ← Nat.dvd_iff_mod_eq_zero]
  by_cases h : 2 ^ k ∣ addr
  · obtain ⟨q, rfl⟩ := h
    rw [← Nat.two_pow_add_eq_or_of_lt (by omega)]
    simp
    omega
  · simp [h]

lemma range2cidrLoop_eq (width : ℕ) (nets : List CidrNet) (hdvd : 2 ^ bit ∣ addr)
    (hle : addr + 2 ^ bit ≤ hi + 1) : ∃ k, 2 ^ k ∣ addr ∧ addr + 2 ^ k ≤ hi + 1 ∧
      (k < width → ¬ (2 ^ (k + 1) ∣ addr ∧ addr + 2 ^ (k + 1) ≤ hi + 1)) ∧
      range2cidrLoop width hi addr bit nets = if 2 ^ width ≤ addr + 2 ^ k then
        ⟨addr, width - k⟩ :: nets
        else range2cidrLoop width hi (addr + 2 ^ k) 0 (⟨addr, width - k⟩ :: nets) := by
  have hpos := Nat.two_pow_pos bit
  induction hn : width - bit generalizing bit with
  | zero =>
    refine ⟨bit, hdvd, hle, fun h => by omega, ?_⟩
    rw [range2cidrLoop, if_pos (by omega), if_pos (.inl (by omega))]
  | succ n ih =>
    by_cases hbig : 2 ^ (bit + 1) ∣ addr ∧ addr + 2 ^ (bit + 1) ≤ hi + 1
    · rw [range2cidrLoop, if_pos (by omega), if_neg]
      · exact ih hbig.1 hbig.2 (Nat.two_pow_pos _) (by omega)
      · rw [not_or, tooBig_iff, not_not]
        exact ⟨by omega, hbig⟩
    · refine ⟨bit, hdvd, hle, fun _ => hbig, ?_⟩
      rw [range2cidrLoop, if_pos (by omega), if_pos (.inr (tooBig_iff.mpr hbig))]

/-! ### The whole range -/

lemma div_eq_div_iff (h : 2 ^ k ∣ addr) :
    x / 2 ^ k = addr / 2 ^ k ↔ addr ≤ x ∧ x < addr + 2 ^ k := by
  obtain ⟨q, rfl⟩ := h
  have hpos := Nat.two_pow_pos k
  rw [Nat.mul_div_cancel_left _ hpos, Nat.div_eq_iff hpos, Nat.mul_comm]
  omega

lemma le_of_dvd_of_lt (ha : u ∣ addr) (hh : u ∣ hi) (hlt : addr < hi) : addr + u ≤ hi := by
  obtain ⟨p, rfl⟩ := ha
  obtain ⟨q, rfl⟩ := hh
  rw [← Nat.mul_succ]
  exact Nat.mul_le_mul_left u (Nat.lt_of_mul_lt_mul_left hlt)

/-- The pools for the networks are the prefixes from `addr` on, none of them twice. -/
structure Covers (len hi addr : ℕ) (nets : List CidrNet) : Prop where
  bits : ∀ n ∈ nets, (normalize len n).bits ≤ len
  disjoint : nets.Pairwise fun m n => ∀ x, (normalize len m).Has x → ¬ (normalize len n).Has x
  exact : ∀ x, (∃ n ∈ nets, (normalize len n).Has x) ↔ 2 ^ (128 - len) ∣ x ∧ addr ≤ x ∧ x ≤ hi

lemma covers_last (hhi : 2 ^ (128 - bits) ∣ hi) : Covers bits hi hi [⟨hi, 128⟩] := by
  refine ⟨by simp [normalize], pairwise_singleton _ _, fun x => ?_⟩
  simp only [mem_singleton, exists_eq_left, Ipv6Pool.Has, normalize, if_true, div_eq_div_iff hhi]
  constructor
  · rintro ⟨⟨h1, h2⟩, hx⟩
    refine ⟨hx, h1, not_lt.mp fun hlt => ?_⟩
    have := le_of_dvd_of_lt hhi hx hlt
    omega
  · rintro ⟨hx, h1, h2⟩
    exact ⟨⟨h1, by omega⟩, hx⟩

lemma Covers.cons (h : Covers bits hi (addr + 2 ^ k) nets) (hb : bits < 128) (hk : 128 - bits ≤ k)
    (hk' : k < 128) (hdvd : 2 ^ k ∣ addr) (hle : addr + 2 ^ k ≤ hi) :
    Covers bits hi addr (nets ++ [⟨addr, 128 - k⟩]) := by
  have hhas : ∀ x, (normalize bits ⟨addr, 128 - k⟩).Has x ↔
      2 ^ (128 - bits) ∣ x ∧ addr ≤ x ∧ x < addr + 2 ^ k := fun x => by
    rw [Ipv6Pool.Has, normalize, if_neg (by dsimp only; omega)]
    rw [show 128 - (128 - k) = k by omega, div_eq_div_iff hdvd, and_comm]
  refine ⟨?_, ?_, fun x => ?_⟩
  · simp only [mem_append, mem_singleton]
    rintro n (hn | rfl)
    · exact h.bits n hn
    · rw [normalize, if_neg (by dsimp only; omega)]
      dsimp only
      omega
  · refine pairwise_append.mpr ⟨h.disjoint, pairwise_singleton _ _, ?_⟩
    rintro n hn m hm x hx hx'
    rw [mem_singleton.mp hm, hhas] at hx'
    have := ((h.exact x).mp ⟨n, hn, hx⟩).2.1
    omega
  · simp only [mem_append, mem_singleton, or_and_right, exists_or, exists_eq_left, h.exact, hhas]
    omega

lemma range2cidrLoop_covers (hb : bits < 128) (hi128 : hi < 2 ^ 128)
    (hhi : 2 ^ (128 - bits) ∣ hi) (haddr : 2 ^ (128 - bits) ∣ addr) (hle : addr ≤ hi)
    (nets : List CidrNet) : ∃ new, range2cidrLoop 128 hi addr 0 nets = new ++ nets ∧
      Covers bits hi addr new := by
  have heven : ∀ y, 2 ^ (128 - bits) ∣ y → 2 ∣ y :=
    fun _ => (dvd_pow_self 2 (Nat.sub_ne_zero_of_lt hb)).trans
  have hhi2 := heven hi hhi
  induction hn : hi - addr using Nat.strongRecOn generalizing addr nets with
  | ind n ih =>
    obtain ⟨k, hdvd, hfits, hmax, heq⟩ :=
      range2cidrLoop_eq 128 nets (Nat.pow_zero 2 ▸ one_dvd addr) (Nat.succ_le_succ hle)
    rcases hle.eq_or_lt with rfl | hlt
    · obtain rfl : k = 0 := by
        by_contra hk
        have := Nat.one_lt_two_pow hk
        omega
      refine ⟨[⟨addr, 128⟩], ?_, covers_last hhi⟩
      rw [heq, if_neg (by omega), range2cidrLoop, if_neg (by omega)]
      rfl
    · have hk : 128 - bits ≤ k := by
        by_contra hk
        refine hmax (by omega) ⟨(Nat.pow_dvd_pow 2 (by omega)).trans haddr, ?_⟩
        have h1 := le_of_dvd_of_lt haddr hhi hlt
        have h2 : 2 ^ (k + 1) ≤ 2 ^ (128 - bits) := Nat.pow_le_pow_right (by decide) (by omega)
        omega
      have hnext : 2 ^ (128 - bits) ∣ addr + 2 ^ k := Nat.dvd_add haddr (Nat.pow_dvd_pow 2 hk)
      have hnext2 := heven _ hnext
      have hk' : k < 128 := (Nat.pow_lt_pow_iff_right (a := 2) (by decide)).mp (by omega)
      obtain ⟨new, hnew, hcov⟩ := ih _ (by omega) hnext (by omega) (⟨addr, 128 - k⟩ :: nets) rfl
      refine ⟨new ++ [⟨addr, 128 - k⟩], ?_, hcov.cons hb hk hk' hdvd (by omega)⟩
      rw [heq, if_neg (by omega), hnew, append_assoc, singleton_append]

/-! ### The pools -/

lemma ipv6Pools_add (pond : Ipv6Pond) (pool : Ipv6Pool) :
    (pond.addIpv6PoolToSubnet pool).ipv6Pools = pond.ipv6Pools ++ [pool] := by
  unfold Ipv6Pond.addIpv6PoolToSubnet
  dsimp only
  split_ifs <;> rfl

lemma foldl_addNet (h : ∀ n ∈ nets, (normalize bits n).bits ≤ bits) (pond : Ipv6Pond)
    (warnings : List String) : nets.foldl (addNet bits) (pond, warnings) =
      ((nets.map (normalize bits)).foldl Ipv6Pond.addIpv6PoolToSubnet pond, warnings) := by
  induction nets generalizing pond with
  | nil => rfl
  | cons n nets ih =>
    rw [forall_mem_cons] at h
    rw [foldl_cons, addNet, if_neg (not_lt.mpr h.1), ih h.2, map_cons, foldl_cons]

lemma ipv6Pools_foldl (pools : List Ipv6Pool) (pond : Ipv6Pond) :
    (pools.foldl Ipv6Pond.addIpv6PoolToSubnet pond).ipv6Pools = pond.ipv6Pools ++ pools := by
  induction pools generalizing pond with
  | nil => exact (append_nil _).symm
  | cons pool pools ih => rw [foldl_cons, ih, ipv6Pools_add, append_assoc]; rfl

/-- **The pools of a range of prefixes** have the prefixes of the range, each of them once, and
there is no warning. -/
theorem parsePrefix6_pools (pond : Ipv6Pond) (lo hi bits : ℕ) (h0 : 0 < bits) (hb : bits < 128)
    (hle : lo ≤ hi) (hi128 : hi < 2 ^ 128) (hlo : 2 ^ (128 - bits) ∣ lo)
    (hhi : 2 ^ (128 - bits) ∣ hi) :
    ∃ pools, parsePrefix6 pond lo hi bits = (pools.foldl Ipv6Pond.addIpv6PoolToSubnet pond, []) ∧
      (parsePrefix6 pond lo hi bits).1.ipv6Pools = pond.ipv6Pools ++ pools ∧
      (∀ p ∈ pools, p.bits ≤ bits ∧ p.units = bits) ∧
      (pools.Pairwise fun p q => ∀ x, p.Has x → ¬ q.Has x) ∧
      ∀ x, (∃ p ∈ pools, p.Has x) ↔ 2 ^ (128 - bits) ∣ x ∧ lo ≤ x ∧ x ≤ hi := by
  obtain ⟨nets, hnets, hcov⟩ := range2cidrLoop_covers hb hi128 hhi hlo hle []
  have hparse : parsePrefix6 pond lo hi bits =
      ((nets.map (normalize bits)).foldl Ipv6Pond.addIpv6PoolToSubnet pond, []) := by
    have hvalid : ∀ a, 2 ^ (128 - bits) ∣ a → isCidrMaskValid a bits = true := fun a ha =>
      decide_eq_true ⟨hb.le, Nat.mod_eq_zero_of_dvd ha⟩
    rw [parsePrefix6, if_neg (by omega), hvalid lo hlo, hvalid hi hhi, if_neg (by decide),
      range2cidr,
      if_neg (by omega), hnets, append_nil, foldl_addNet hcov.bits]
  refine ⟨nets.map (normalize bits), hparse, ?_, ?_, ?_, fun x => ?_⟩
  · rw [hparse, ipv6Pools_foldl]
  · simpa [normalize] using hcov.bits
  · exact pairwise_map.mpr hcov.disjoint
  · rw [← hcov.exact x]
    simp

/-- From `0:1::` to `0:4::`, by 32 bits. -/
theorem parsePrefix6_pools_four : (parsePrefix6 {} (2 ^ 96) (2 ^ 98) 32).2 = [] ∧
    (∃ p ∈ (parsePrefix6 {} (2 ^ 96) (2 ^ 98) 32).1.ipv6Pools, p.Has (2 ^ 98)) ∧
    ¬ ∃ p ∈ (parsePrefix6 {} (2 ^ 96) (2 ^ 98) 32).1.ipv6Pools, p.Has (5 * 2 ^ 96) := by
  obtain ⟨pools, hparse, hpools, -, -, hhas⟩ := parsePrefix6_pools {} (2 ^ 96) (2 ^ 98) 32
    (by decide) (by decide) (by decide) (by decide) (by decide) (by decide)
  rw [hpools, hparse]
  exact ⟨rfl, (hhas _).mpr (by decide), (hhas _).not.mpr (by decide)⟩

end IscDhcp.Confpars
