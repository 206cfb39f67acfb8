import IscDhcp.Mdb.Types
import Mathlib.Data.Finset.Max
import Mathlib.Data.List.Induction
import Mathlib.Data.Nat.Bitwise

/-!
The list of subnets (`mdb.c`, `inet.c`), and which subnet is found for an address.

An address is its bytes; its `len` is their number. `none` is a fatal error. The warnings about
subnets that overlap are left out.
-/

namespace IscDhcp

open Option
open List hiding contains pure_def

abbrev Iaddr := Bytes

/-- The bytes of the address that are in the mask. -/
def subnetNumber (addr mask : Iaddr) : Option Iaddr :=
  if addr.length > 16 then none
  else if addr.length ≠ mask.length then none
  else some (List.zipWith (· &&& ·) addr mask)

def addrEq (a b : Iaddr) : Option Bool := if a.length > 16 then none else some (a = b)

structure Subnet where
  net : Iaddr
  netmask : Iaddr
  deriving DecidableEq, Repr

namespace Subnet

/-- `addr_eq (subnet_number (addr, netmask), net)`. -/
def covers (addr : Iaddr) (s : Subnet) : Option Bool := do
  addrEq (← subnetNumber addr s.netmask) s.net

/-- `netmask.iabuf [3 - (i >> 3)] & (1 << (i & 7))`. From `32` on the index is negative, and what
is read are the bytes of `len`, which stands in front of `iabuf` with the lowest byte first. No
length is zero, so nothing in front of that is read. -/
def maskBit (m : Iaddr) (i : ℕ) : Bool :=
  if i < 32 then (m.getD (3 - i / 8) 0).toNat.testBit (i % 8)
  else if i < 64 then m.length.testBit (8 * (7 - i / 8) + i % 8)
  else false

/-- The first bit that is set. -/
def lowBit (m : Iaddr) : ℕ := ((List.range 128).find? (maskBit m)).getD 128

/-- The network address of one is in the other. -/
def overlap (subnet scan : Subnet) : Option Bool := do
  if ← scan.covers subnet.net then return true else subnet.covers scan.net

def subnetInnerThan (subnet scan : Subnet) : Option Bool := do
  return (← subnet.overlap scan) && lowBit subnet.netmask < lowBit scan.netmask

end Subnet

open Subnet

/-- The loop drops `next` and never sets it again, so only the head of the list is looked at. The
subnet comes in front of that in any case. -/
def enterSubnet (subnets : List Subnet) (subnet : Subnet) : Option (List Subnet) :=
  match subnets with
  | [] => some [subnet]
  | scan :: next => do
    if ← subnet.subnetInnerThan scan then return subnet :: scan :: next
    else return subnet :: scan :: next

def findSubnet (addr : Iaddr) : List Subnet → Option (Option Subnet)
  | [] => some none
  | rv :: next => do if ← rv.covers addr then return some rv else findSubnet addr next

/-! ### Bits -/

/-- A bit of an address, the most significant one first. -/
def bit (a : Iaddr) (j : ℕ) : Bool := (a.getD (j / 8) 0).toNat.testBit (7 - j % 8)

lemma eq_of_bit {a b : Iaddr} (hlen : a.length = b.length)
    (h : ∀ j < 8 * a.length, bit a j = bit b j) : a = b := by
  refine ext_getElem hlen fun i hi hi' => UInt8.toNat_inj.mp (Nat.eq_of_testBit_eq fun t => ?_)
  by_cases ht : t < 8
  · have := h (8 * i + (7 - t)) (by omega)
    have hdiv : (8 * i + (7 - t)) / 8 = i := by omega
    have hmod : 7 - (8 * i + (7 - t)) % 8 = t := by omega
    simpa only [bit, hdiv, hmod, getD_eq_getElem?_getD, getElem?_eq_getElem, hi, hi',
      getD_some] using this
  · have hpow : 2 ^ 8 ≤ 2 ^ t := Nat.pow_le_pow_right (by omega) (by omega)
    rw [Nat.testBit_lt_two_pow (Nat.lt_of_lt_of_le a[i].toNat_lt hpow),
      Nat.testBit_lt_two_pow (Nat.lt_of_lt_of_le b[i].toNat_lt hpow)]

lemma bit_zipWith {a m : Iaddr} (hlen : a.length = m.length) (j : ℕ) :
    bit (zipWith (· &&& ·) a m) j = (bit a j && bit m j) := by
  unfold bit
  rw [← Nat.testBit_and, ← UInt8.toNat_and, getD_eq_getElem?_getD, getD_eq_getElem?_getD,
    getD_eq_getElem?_getD, getElem?_zipWith]
  by_cases hj : j / 8 < a.length
  · simp [hj, hlen ▸ hj]
  · simp [getElem?_eq_none (Nat.le_of_not_lt (hlen ▸ hj))]

def prefixLen (m : Iaddr) : ℕ := (List.range (8 * m.length)).countP (bit m)

/-- The ones of the mask come first. -/
def Contiguous (m : Iaddr) : Prop := ∀ j < 8 * m.length, bit m j = decide (j < prefixLen m)

/-- A network address with a contiguous mask, of `n` bytes. -/
structure Subnet.Valid (n : ℕ) (s : Subnet) : Prop where
  net : s.net.length = n
  netmask : s.netmask.length = n
  contiguous : Contiguous s.netmask
  host : ∀ j < 8 * n, prefixLen s.netmask ≤ j → bit s.net j = false

def Subnet.len (s : Subnet) : ℕ := prefixLen s.netmask

def Subnet.contains (addr : Iaddr) (s : Subnet) : Bool := s.covers addr = some true

/-- The mask of `s` is longer than that of `t`, which is shorter than four bytes. -/
def Subnet.ahead (s t : Subnet) : Bool := t.len < s.len ∧ t.len < 32

variable {n : ℕ} {s t : Subnet} {x : Iaddr}

lemma Subnet.Valid.len_le (hs : s.Valid n) : s.len ≤ 8 * n := by
  have := countP_le_length (p := bit s.netmask) (l := range (8 * s.netmask.length))
  rwa [length_range, ← prefixLen, hs.netmask] at this

lemma Subnet.Valid.covers (hn : n ≤ 16) (hs : s.Valid n) (hx : x.length = n) :
    s.covers x = some (decide (∀ j < s.len, bit x j = bit s.net j)) := by
  have hlen : x.length = s.netmask.length := hx.trans hs.netmask.symm
  have hle := hs.len_le
  have hz : (zipWith (· &&& ·) x s.netmask).length = n := by simp [hx, hs.netmask]
  simp only [Subnet.covers, subnetNumber, addrEq, hx, hs.netmask, hz, Nat.not_lt.mpr hn, ne_eq,
    not_true_eq_false, if_false, bind_eq_bind, bind_some, some.injEq,
    decide_eq_decide]
  have hmask : ∀ j < 8 * n, bit s.netmask j = decide (j < s.len) := fun j hj =>
    hs.contiguous j (by rw [hs.netmask]; exact hj)
  constructor
  · intro heq j hj
    rw [← heq, bit_zipWith hlen, hmask j (by omega)]
    simp [hj]
  · intro heq
    refine eq_of_bit (hz.trans hs.net.symm) fun j hj => ?_
    rw [hz] at hj
    rw [bit_zipWith hlen, hmask j hj]
    by_cases hjl : j < s.len
    · simp [hjl, heq j hjl]
    · simp [hjl, hs.host j hj (Nat.le_of_not_lt hjl)]

lemma Subnet.Valid.contains_iff (hn : n ≤ 16) (hs : s.Valid n) (hx : x.length = n) :
    s.contains x ↔ ∀ j < s.len, bit x j = bit s.net j := by
  simp [contains, hs.covers hn hx]

lemma Subnet.Valid.eq_of_len (hn : n ≤ 16) (hs : s.Valid n) (ht : t.Valid n) (hx : x.length = n)
    (hsx : s.contains x) (htx : t.contains x) (hlen : s.len = t.len) : s = t := by
  have hsx := (hs.contains_iff hn hx).mp hsx
  have htx := (ht.contains_iff hn hx).mp htx
  have hmask : s.netmask = t.netmask := by
    refine eq_of_bit (hs.netmask.trans ht.netmask.symm) fun j hj => ?_
    rw [hs.contiguous j hj, ht.contiguous j (by rw [ht.netmask]; rwa [hs.netmask] at hj)]
    simp only [Subnet.len] at hlen
    rw [hlen]
  have hnet : s.net = t.net := by
    refine eq_of_bit (hs.net.trans ht.net.symm) fun j hj => ?_
    rw [hs.net] at hj
    by_cases hjl : j < s.len
    · rw [← hsx j hjl, htx j (hlen ▸ hjl)]
    · have hjt : t.len ≤ j := hlen ▸ Nat.le_of_not_lt hjl
      rw [hs.host j hj (Nat.le_of_not_lt hjl), ht.host j hj hjt]
  cases s
  cases t
  simp_all

/-! ### Comparing masks -/

lemma maskBit_of_lt {m : Iaddr} {i : ℕ} (hi : i < 32) : maskBit m i = bit m (31 - i) := by
  have hdiv : (31 - i) / 8 = 3 - i / 8 := by omega
  have hmod : 7 - (31 - i) % 8 = i % 8 := by omega
  simp [maskBit, bit, hi, hdiv, hmod]

lemma lowBit_eq {m : Iaddr} {i : ℕ} (hi : i < 128) (hset : maskBit m i)
    (hclear : ∀ j < i, maskBit m j = false) : lowBit m = i := by
  have : (range 128).find? (maskBit m) = some i :=
    find?_range_eq_some.mpr ⟨hset, mem_range.mpr hi, fun j hj => by simp [hclear j hj]⟩
  rw [lowBit, this]
  rfl

/-- What stands in front of the bytes of a mask is its length. -/
lemma maskBit_of_ge {m : Iaddr} (hn : m.length = 4 ∨ m.length = 16) {i : ℕ} (hi : 32 ≤ i)
    (hlt : i < if m.length = 4 then 58 else 60) : maskBit m i = false := by
  have h4 : ∀ i < 58, 32 ≤ i → Nat.testBit 4 (8 * (7 - i / 8) + i % 8) = false := by decide
  have h16 : ∀ i < 60, 32 ≤ i → Nat.testBit 16 (8 * (7 - i / 8) + i % 8) = false := by decide
  rcases hn with hn | hn <;> simp only [hn, if_true, Nat.reduceEqDiff, if_false] at hlt <;>
    rw [maskBit, if_neg (by omega), if_pos (by omega), hn]
  · exact h4 i hlt hi
  · exact h16 i hlt hi

section

variable (hn : n = 4 ∨ n = 16)

include hn

/-- Only the first four bytes of the masks are compared. -/
lemma Subnet.Valid.lowBit_eq (hs : s.Valid n) :
    lowBit s.netmask = if s.len = 0 then (if n = 4 then 58 else 60) else 32 - s.len := by
  have hbit : ∀ i < 32, maskBit s.netmask i = decide (31 - i < s.len) := fun i hi => by
    rw [maskBit_of_lt hi, hs.contiguous _ (by rw [hs.netmask]; omega)]
    rfl
  by_cases h0 : s.len = 0
  · rw [if_pos h0]
    refine IscDhcp.lowBit_eq (by split_ifs <;> omega) ?_ fun j hj => ?_
    · rw [maskBit, if_neg (by split_ifs <;> omega), if_pos (by split_ifs <;> omega), hs.netmask]
      rcases hn with rfl | rfl <;> decide
    · by_cases hj32 : j < 32
      · rw [hbit j hj32, h0]
        rfl
      · refine maskBit_of_ge (by rwa [hs.netmask]) (Nat.le_of_not_lt hj32) ?_
        rwa [hs.netmask]
  · rw [if_neg h0]
    refine IscDhcp.lowBit_eq (by omega) ?_ fun j hj => ?_
    · rw [hbit _ (by omega), decide_eq_true_eq]
      omega
    · rw [hbit j (by omega), decide_eq_false_iff_not]
      omega

lemma lowBit_lt_iff (hs : s.Valid n) (ht : t.Valid n) :
    lowBit s.netmask < lowBit t.netmask ↔ t.len < s.len ∧ t.len < 32 := by
  rw [hs.lowBit_eq hn, ht.lowBit_eq hn]
  split_ifs <;> omega

/-- A subnet that contains an address is inside of those that contain it and have a mask shorter
than its own and than four bytes. -/
lemma Subnet.Valid.innerThan (hs : s.Valid n) (ht : t.Valid n)
    (hx : x.length = n) (hsx : s.contains x) :
    s.subnetInnerThan t = some (t.contains x && s.ahead t) := by
  have hn16 : n ≤ 16 := by omega
  have hsx' := (hs.contains_iff hn16 hx).mp hsx
  have hlow := lowBit_lt_iff hn hs ht
  have hov : ∃ b, s.overlap t = some b ∧
      (b = true ↔ (∀ j < t.len, bit s.net j = bit t.net j) ∨
        ∀ j < s.len, bit t.net j = bit s.net j) := by
    rw [overlap, ht.covers hn16 hs.net, hs.covers hn16 ht.net]
    simp only [bind_eq_bind, bind_some]
    split_ifs with h
    · exact ⟨true, rfl, by simpa using .inl (by simpa using h)⟩
    · exact ⟨_, rfl, by simpa using fun h' => absurd (by simpa using h') h⟩
  obtain ⟨b, hb, hiff⟩ := hov
  rw [subnetInnerThan, hb]
  simp only [bind_eq_bind, bind_some, pure_def, some.injEq]
  rw [Bool.eq_iff_iff, Bool.and_eq_true, Bool.and_eq_true, hiff, decide_eq_true_eq, hlow]
  simp only [ahead, decide_eq_true_eq]
  refine and_congr_left fun hlt => ?_
  rw [ht.contains_iff hn16 hx]
  constructor
  · rintro (h | h) j hj
    · rw [hsx' j (by omega), h j hj]
    · rw [hsx' j (by omega), h j (by omega)]
  · intro h
    exact .inl fun j hj => by rw [← hsx' j (by omega), h j hj]

/-! ### The list -/

def Subnet.inside (s t : Subnet) : Bool := t.contains s.net && s.ahead t

omit hn in
lemma Subnet.Valid.contains_net (hn : n ≤ 16) (hs : s.Valid n) : s.contains s.net :=
  (hs.contains_iff hn hs.net).mpr fun _ _ => rfl

lemma Subnet.Valid.innerThan_eq (hs : s.Valid n) (ht : t.Valid n) :
    s.subnetInnerThan t = some (s.inside t) :=
  hs.innerThan hn ht hs.net (hs.contains_net (by omega))

lemma Subnet.Valid.inside_eq (hs : s.Valid n) (ht : t.Valid n)
    (hx : x.length = n) (hsx : s.contains x) :
    s.inside t = (t.contains x && s.ahead t) :=
  some.inj ((hs.innerThan_eq hn ht).symm.trans (hs.innerThan hn ht hx hsx))

lemma enter_all {ss : List Subnet} (hss : ∀ s ∈ ss, s.Valid n) :
    ss.foldlM enterSubnet [] = some ss.reverse := by
  induction ss using reverseRecOn with
  | nil => rfl
  | append_singleton ss s ih =>
    have henter : enterSubnet ss.reverse s = some (s :: ss.reverse) := by
      cases hr : ss.reverse with
      | nil => rfl
      | cons t l =>
        have ht : t ∈ ss := mem_reverse.mp (hr ▸ mem_cons_self)
        rw [enterSubnet, (hss s (by simp)).innerThan_eq hn (hss t (by simp [ht]))]
        cases s.inside t <;> rfl
    rw [foldlM_append, ih fun t ht => hss t (by simp [ht])]
    simp [henter]

omit hn in
lemma findSubnet_eq (hn : n ≤ 16) (hx : x.length = n) {l : List Subnet} (hl : ∀ t ∈ l, t.Valid n) :
    findSubnet x l = some (l.find? (Subnet.contains x)) := by
  induction l with
  | nil => rfl
  | cons t l ih =>
    have ht := hl t mem_cons_self
    have hcov : t.covers x = some (t.contains x) := by
      rw [contains, ht.covers hn hx]
      simp
    rw [findSubnet, hcov, ih fun u hu => hl u (mem_cons_of_mem t hu), find?_cons]
    cases t.contains x <;> rfl

end

/-- What is found in a list of the subnets `ss`, if the one with the longest mask is found iff `Q`
holds of it. -/
lemma findSubnet_spec (hn : n ≤ 16) {l ss : List Subnet} (hss : ∀ s ∈ ss, s.Valid n)
    (hx : x.length = n) (hperm : l.Perm ss) {Q : Subnet → Prop}
    (hQ : ∀ m ∈ ss, m.contains x → (∀ t ∈ ss, t.contains x → t.len ≤ m.len) →
      (l.find? (Subnet.contains x) = some m ↔ Q m)) :
    ∃ r, findSubnet x l = some r ∧ (r = none ↔ ∀ s ∈ ss, ¬ s.contains x) ∧
      (∀ s, r = some s → s ∈ ss ∧ s.contains x) ∧
      ((∀ s, r = some s → ∀ t ∈ ss, t.contains x → t.len ≤ s.len) ↔
        ∀ m ∈ ss, m.contains x → (∀ t ∈ ss, t.contains x → t.len ≤ m.len) → Q m) := by
  have hmem : ∀ {t}, t ∈ l ↔ t ∈ ss := hperm.mem_iff
  refine ⟨_, findSubnet_eq hn hx fun t ht => hss t (hmem.mp ht), by simp [hmem],
    fun s hs => ⟨hmem.mp (mem_of_find?_eq_some hs), List.find?_some hs⟩, ?_, ?_⟩
  · intro hlong m hm hmx hmax
    obtain ⟨s, hs⟩ := Option.isSome_iff_exists.mp (find?_isSome.mpr ⟨m, hmem.mpr hm, hmx⟩)
    have hsl := hmem.mp (mem_of_find?_eq_some hs)
    have hsx := List.find?_some hs
    rw [← hQ m hm hmx hmax, hs, (hss s hsl).eq_of_len hn (hss m hm) hx hsx hmx
      (le_antisymm (hmax s hsl hsx) (hlong s hs m hm hmx))]
  · intro hq s hs
    obtain ⟨m, hm, hmax⟩ := (ss.filter (Subnet.contains x)).toFinset.exists_max_image Subnet.len
      ⟨s, by simp [hmem.mp (mem_of_find?_eq_some hs), List.find?_some hs]⟩
    simp only [List.mem_toFinset, List.mem_filter, and_imp] at hm hmax
    cases hs.symm.trans ((hQ m hm.1 hm.2 hmax).mpr (hq m hm.1 hm.2 hmax))
    exact hmax

/-- Of the subnets that contain the address, the one with the longest mask is entered last. -/
def EnteredLast (x : Iaddr) (ss : List Subnet) : Prop :=
  ∀ m ∈ ss, m.contains x → (∀ t ∈ ss, t.contains x → t.len ≤ m.len) →
    ∀ pre post, ss = pre ++ m :: post → ∀ t ∈ post, ¬ t.contains x

/-- **The most specific subnet**: of different subnets with contiguous masks, entered in any
order, one that contains the address is found if there is one; it is the one with the longest
mask iff that was entered last of them. -/
theorem findSubnet_longest_iff (hn : n = 4 ∨ n = 16) {ss : List Subnet}
    (hss : ∀ s ∈ ss, s.Valid n) (hnd : ss.Nodup) (hx : x.length = n) :
    ∃ l r, ss.foldlM enterSubnet [] = some l ∧ findSubnet x l = some r ∧
      (r = none ↔ ∀ s ∈ ss, ¬ s.contains x) ∧ (∀ s, r = some s → s ∈ ss ∧ s.contains x) ∧
      ((∀ s, r = some s → ∀ t ∈ ss, t.contains x → t.len ≤ s.len) ↔ EnteredLast x ss) := by
  obtain ⟨r, hr⟩ := findSubnet_spec (by omega) hss hx (reverse_perm ss)
    (Q := fun m => ∀ pre post, ss = pre ++ m :: post → ∀ t ∈ post, ¬ t.contains x)
    fun m hm hmx _ => by
      constructor
      · rintro hfind pre post rfl t ht htx
        rw [reverse_append, reverse_cons, append_assoc, find?_append] at hfind
        obtain ⟨u, hu⟩ := Option.isSome_iff_exists.mp
          (find?_isSome.mpr ⟨t, mem_reverse.mpr ht, htx⟩)
        rw [hu, Option.some_or, some.injEq] at hfind
        have hmem : m ∈ post := hfind ▸ mem_reverse.mp (mem_of_find?_eq_some hu)
        exact (nodup_cons.mp (nodup_append.mp hnd).2.1).1 hmem
      · intro hlast
        obtain ⟨pre, post, rfl⟩ := append_of_mem hm
        have hnone : post.reverse.find? (Subnet.contains x) = none := by
          simpa using hlast pre post rfl
        rw [reverse_append, reverse_cons, append_assoc, find?_append, hnone]
        simp [hmx]
  exact ⟨_, r, enter_all hn hss, hr⟩

def wide : Subnet := ⟨[10, 0, 0, 0], [255, 255, 0, 0]⟩

def narrow : Subnet := ⟨[10, 0, 1, 0], [255, 255, 255, 0]⟩

lemma wide_valid : wide.Valid 4 := ⟨rfl, rfl, by unfold Contiguous; decide, by decide⟩
lemma narrow_valid : narrow.Valid 4 := ⟨rfl, rfl, by unfold Contiguous; decide, by decide⟩

theorem wide_then_narrow :
    ∃ l r, [wide, narrow].foldlM enterSubnet [] = some l ∧ findSubnet [10, 0, 1, 5] l = some r ∧
      (r = none ↔ ∀ s ∈ [wide, narrow], ¬ s.contains [10, 0, 1, 5]) ∧
      (∀ s, r = some s → s ∈ [wide, narrow] ∧ s.contains [10, 0, 1, 5]) ∧
      ((∀ s, r = some s → ∀ t ∈ [wide, narrow], t.contains [10, 0, 1, 5] → t.len ≤ s.len) ↔
        EnteredLast [10, 0, 1, 5] [wide, narrow]) :=
  findSubnet_longest_iff (.inl rfl) (by simp [wide_valid, narrow_valid]) (by decide) rfl

/-- The wider subnet is entered after the narrower one, and is found for its addresses. -/
theorem narrow_then_wide :
    ([narrow, wide].foldlM enterSubnet []).bind (findSubnet [10, 0, 1, 5]) = some (some wide) ∧
      narrow.contains [10, 0, 1, 5] ∧ wide.len < narrow.len := by
  decide

end IscDhcp
