import IscDhcp.Lib.InsertNotLast
import IscDhcp.Subnet

/-!
The subnets of a shared network (`common_subnet_parsing` in `confpars.c`), and which of them is
found for an address (`find_grouped_subnet` in `mdb.c`).
-/

namespace IscDhcp

open Lib Subnet List

/-- The end of `common_subnet_parsing`. The loop ends at the last subnet without a look at it. -/
def commonSubnetParsing (subnets : List Subnet) (subnet : Subnet) : Option (List Subnet) :=
  match subnets with
  | [] => some [subnet]
  | [t] => some [t, subnet]
  | t :: u :: next => do
    if ← subnet.subnetInnerThan t then return subnet :: t :: u :: next
    else return t :: (← commonSubnetParsing (u :: next) subnet)

/-- `find_grouped_subnet`, which is `find_subnet` on another list. -/
def findGroupedSubnet (addr : Iaddr) : List Subnet → Option (Option Subnet)
  | [] => some none
  | rv :: next => do if ← rv.covers addr then return some rv else findGroupedSubnet addr next

variable {n : ℕ} {s t u m : Subnet} {x : Iaddr} {l ss : List Subnet}

lemma findGroupedSubnet_eq : findGroupedSubnet x l = findSubnet x l := by
  induction l with
  | nil => rfl
  | cons rv next ih => rw [findGroupedSubnet, findSubnet, ih]

lemma commonSubnetParsing_eq (hs : s.Valid 4) (hl : ∀ t ∈ l, t.Valid 4) :
    commonSubnetParsing l s = some (insertNotLast s.inside s l) := by
  fun_induction insertNotLast s.inside s l with
  | case1 => rfl
  | case2 t => rfl
  | case3 t u l ht =>
    rw [commonSubnetParsing, hs.innerThan_eq (.inl rfl) (hl t mem_cons_self), ht]
    rfl
  | case4 t u l ht ih =>
    rw [commonSubnetParsing, hs.innerThan_eq (.inl rfl) (hl t mem_cons_self),
      Bool.eq_false_iff.mpr ht, ih fun v hv => hl v (mem_cons_of_mem t hv)]
    rfl

/-! ### Inside of subnets -/

lemma Subnet.Valid.inside_iff (hs : s.Valid 4) : s.inside t ↔ t.contains s.net ∧ t.len < s.len := by
  have := hs.len_le
  simp only [inside, ahead, Bool.and_eq_true, decide_eq_true_eq]
  exact and_congr_right fun _ => ⟨And.left, fun h => ⟨h, by omega⟩⟩

lemma Subnet.Valid.inside_trans (hs : s.Valid 4) (ht : t.Valid 4) (hu : u.Valid 4)
    (hst : s.inside t)
    (htu : t.inside u) : s.inside u := by
  rw [hs.inside_iff] at hst ⊢
  have hlen := (ht.inside_iff.mp htu).2
  rw [ht.inside_eq (.inl rfl) hu hs.net hst.1, Bool.and_eq_true] at htu
  exact ⟨htu.1, hlen.trans hst.2⟩

lemma Subnet.Valid.contains_eq_inside (hm : m.Valid 4) (ht : t.Valid 4) (hx : x.length = 4)
    (hmx : m.contains x) (hlen : t.contains x → t.len ≤ m.len) (hne : t ≠ m) :
    t.contains x = m.inside t := by
  rw [hm.inside_eq (.inl rfl) ht hx hmx]
  cases htx : t.contains x with
  | false => rfl
  | true =>
    have hle := hlen htx
    have hne' : t.len ≠ m.len := fun h => hne (ht.eq_of_len (by decide) hm hx htx hmx h)
    have := hm.len_le
    symm
    simp only [ahead, Bool.true_and, decide_eq_true_eq]
    omega

/-! ### The declarations of a shared network -/

/-- The subnet is declared where it is inside of the last subnet of the list, and of no other. -/
def Subnet.Misplaced (pre : List Subnet) (s : Subnet) : Prop :=
  ∃ l t, pre.foldlM commonSubnetParsing [] = some (l ++ [t]) ∧ s.inside t ∧ ∀ u ∈ l, ¬ s.inside u

lemma declare_all (hss : ∀ s ∈ ss, s.Valid 4) (hnd : ss.Nodup) :
    ∃ l, ss.foldlM commonSubnetParsing [] = some l ∧ l.Perm ss ∧
      ∀ pre m, pre ++ [m] <+: ss → (behind Subnet.inside m l ↔ m.Misplaced pre) := by
  induction ss using reverseRecOn with
  | nil => exact ⟨[], rfl, .refl _, by simp⟩
  | append_singleton ss s ih =>
    rw [nodup_append] at hnd
    obtain ⟨l, hl, hperm, hbehind⟩ := ih (fun t ht => hss t (by simp [ht])) hnd.1
    have hs := hss s (by simp)
    have hvalid : ∀ t ∈ l, t.Valid 4 := fun t ht => hss t (by simp [hperm.mem_iff.mp ht])
    have hsl : s ∉ l := fun h => hnd.2.2 s (hperm.mem_iff.mp h) s (by simp) rfl
    refine ⟨insertNotLast s.inside s l, ?_, ?_, fun pre m hpre => ?_⟩
    · simp [hl, commonSubnetParsing_eq hs hvalid]
    · exact (insertNotLast_perm _ s l).trans
        ((hperm.cons s).trans (perm_append_singleton s ss).symm)
    rcases prefix_concat_iff.mp hpre with heq | hpre
    · obtain ⟨rfl, rfl⟩ := append_singleton_inj.mp heq
      rw [behind_self_iff hsl, Misplaced, hl]
      constructor
      · rintro ⟨⟨t, ht, hin⟩, hout⟩
        exact ⟨l.dropLast, t, by rw [dropLast_append_getLast? t ht], hin, hout⟩
      · rintro ⟨l', t, heq, hin, hout⟩
        cases heq
        exact ⟨⟨t, by simp, hin⟩, by simpa using hout⟩
    · have hm : m ∈ l := hperm.mem_iff.mpr (hpre.subset (by simp))
      have hmv := hvalid m hm
      rw [← hbehind pre m hpre, behind_insertNotLast (fun t ht => hmv.inside_trans hs (hvalid t ht))
        (fun h h' => ?_) (fun h => hsl (h ▸ hm)) hm]
      have h1 := (hmv.inside_iff.mp h).2
      have h2 := (hs.inside_iff.mp h').2
      omega

/-- **The most specific subnet of a shared network**: one that contains the address is found if
there is one; it is the one with the longest mask iff that is not misplaced. -/
theorem findGroupedSubnet_longest_iff (ss : List Subnet) (hss : ∀ s ∈ ss, s.Valid 4)
    (hnd : ss.Nodup)
    (hx : x.length = 4) :
    ∃ l r, ss.foldlM commonSubnetParsing [] = some l ∧ findGroupedSubnet x l = some r ∧
      (r = none ↔ ∀ s ∈ ss, ¬ s.contains x) ∧ (∀ s, r = some s → s ∈ ss ∧ s.contains x) ∧
      ((∀ s, r = some s → ∀ t ∈ ss, t.contains x → t.len ≤ s.len) ↔
        ∀ pre m, pre ++ [m] <+: ss → m.contains x → (∀ t ∈ ss, t.contains x → t.len ≤ m.len) →
          ¬ m.Misplaced pre) := by
  obtain ⟨l, hl, hperm, hbehind⟩ := declare_all hss hnd
  obtain ⟨r, hr, hnone, hsome, hlong⟩ := findSubnet_spec (by decide) hss hx hperm
    (Q := fun m => ∀ pre, pre ++ [m] <+: ss → ¬ m.Misplaced pre) fun m hm hmx hmax => by
      -- it is found iff none that it is inside of comes before it
      rw [find?_eq_some_iff_behind (hperm.mem_iff.mpr hm) hmx fun t ht =>
        (hss m hm).contains_eq_inside (hss t (hperm.mem_iff.mp ht)) hx hmx
          (hmax t (hperm.mem_iff.mp ht)), ← Bool.not_eq_true]
      obtain ⟨pre, post, heq⟩ := append_of_mem hm
      exact ⟨fun h pre hpre => (hbehind pre m hpre).not.mp h,
        fun h => (hbehind pre m ⟨post, by simp [heq]⟩).not.mpr (h pre ⟨post, by simp [heq]⟩)⟩
  refine ⟨l, r, hl, findGroupedSubnet_eq.trans hr, hnone, hsome, hlong.trans ⟨?_, ?_⟩⟩
  · exact fun h pre m hpre hmx hmax => h m (hpre.subset (by simp)) hmx hmax pre hpre
  · exact fun h m _ hmx hmax pre hpre => h pre m hpre hmx hmax

theorem findGroupedSubnet_wide_last : ∃ l r, [narrow, wide].foldlM commonSubnetParsing [] = some l ∧
      findGroupedSubnet [10, 0, 2, 5] l = some r ∧ r ≠ none := by
  obtain ⟨l, r, hl, hr, hnone, -⟩ := findGroupedSubnet_longest_iff
    [narrow, wide] (x := [10, 0, 2, 5]) (by simp [wide_valid, narrow_valid]) (by decide) rfl
  exact ⟨l, r, hl, hr, fun h => hnone.mp h wide (by simp) (by decide)⟩

/-- The narrower subnet is declared after the wider one, which is found for its addresses. -/
theorem findGroupedSubnet_wide_first :
    ([wide, narrow].foldlM commonSubnetParsing []).bind (findGroupedSubnet [10, 0, 1, 5]) =
      some (some wide) ∧ narrow.contains [10, 0, 1, 5] ∧ wide.len < narrow.len := by
  decide

end IscDhcp
