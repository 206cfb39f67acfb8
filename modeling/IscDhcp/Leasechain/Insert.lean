import IscDhcp.Leasechain.Search

/-!
What a leasechain keeps true: the array is sorted, the links visit it in order both ways,
and a lease points back to the chain exactly while it is in the array. Here for insertions.
-/

namespace IscDhcp.Leasechain

open IscDhcp.Lib List Function

variable {α : Type} {s : St α} {l : List α} {lp : α}

/-- The leasechain holds the leases of `l`. -/
structure Inv (s : St α) (l : List α) : Prop where
  slots : Slots s l
  sorted : Sorted s l
  fwd : Chain s.next l.head? l
  bwd : Chain s.prev l.reverse.head? l.reverse
  lc : ∀ a, s.lc a = some s.self ↔ a ∈ l
  -- a lease on no chain has no neighbours
  off : ∀ a, s.lc a = none → s.next a = none ∧ s.prev a = none
  cap : s.nelem ≤ s.total

lemma Inv.notMem (h : Inv s l) (hlc : s.lc lp = none) : lp ∉ l := fun hmem => by
  rw [(h.lc lp).mpr hmem] at hlc
  cases hlc

lemma withRoom_eq (s : St α) : ∃ list total, withRoom s = { s with list := list, total := total } ∧
      (∀ i < s.nelem, list i = s.list i) ∧ (s.nelem ≤ s.total → s.nelem < total) := by
  unfold withRoom
  split_ifs with h
  · refine ⟨_, _, rfl, fun i hi => if_pos hi, fun _ => ?_⟩
    unfold growthDelta
    split_ifs <;> omega
  · exact ⟨s.list, s.total, rfl, fun _ _ => rfl, fun hle => by omega⟩

variable {l1 l2 : List α}

lemma sorted_insert (ho : Sorted s (l1 ++ l2)) (hp : Splits s (l1 ++ l2) lp l1.length) :
    Sorted s (l1 ++ lp :: l2) := by
  obtain ⟨-, hle, hge⟩ := hp
  unfold Sorted at *
  rw [pairwise_append] at ho ⊢
  obtain ⟨h1, h2, h12⟩ := ho
  have hbelow : ∀ a ∈ l1, key s a ≤ key s lp := by
    intro a ha
    obtain ⟨i, hi, rfl⟩ := getElem_of_mem ha
    exact hle i hi _ (by rw [getElem?_append_left hi, getElem?_eq_getElem hi])
  have habove : ∀ b ∈ l2, key s lp ≤ key s b := by
    intro b hb
    obtain ⟨i, hi, rfl⟩ := getElem_of_mem hb
    exact hge (l1.length + i) (by omega) _ (by simp [hi])
  refine ⟨h1, pairwise_cons.mpr ⟨habove, h2⟩, fun a ha b hb => ?_⟩
  rcases mem_cons.mp hb with rfl | hb
  · exact hbelow a ha
  · exact h12 a ha b hb

lemma splits_end (ho : Sorted s l) {last : α} (hlast : l.getLast? = some last)
    (hle : key s last ≤ key s lp) : Splits s l lp l.length := by
  refine ⟨le_rfl, fun i hi a ha => ?_, fun i hi a ha => ?_⟩
  · rw [getLast?_eq_getElem?] at hlast
    exact (ho.get_le (by omega) ha hlast).trans hle
  · rw [getElem?_eq_none hi] at ha
    cases ha

variable [DecidableEq α]

lemma lcLinkLcp_slots (lp : α) (hs : Slots s (l1 ++ l2)) :
    Slots (lcLinkLcp s lp l1.length) (l1 ++ lp :: l2) := by
  obtain ⟨list, total, hroom, hlist, -⟩ := withRoom_eq s
  obtain ⟨hlen, hget⟩ := hs
  have hg : ∀ i < s.nelem, list i = (l1 ++ l2)[i]? := fun i hi => (hlist i hi).trans (hget i hi)
  rw [length_append] at hlen
  refine ⟨by simp [lcLinkLcp, hroom]; omega, fun i hi => ?_⟩
  simp only [lcLinkLcp, hroom] at hi ⊢
  rcases lt_trichotomy i l1.length with h | rfl | h
  · rw [update_of_ne (by omega), getElem?_append_left h]
    split_ifs
    · rw [memmove_of_lt (by omega), hg i (by omega), getElem?_append_left h]
    · rw [hg i (by omega), getElem?_append_left h]
  · simp
  · rw [update_of_ne (by omega), if_pos (by omega), memmove_of_mem (by omega) (by omega),
      hg _ (by omega), getElem?_append_right (by omega), getElem?_append_right (by omega),
      show i - l1.length = (i - l1.length - 1) + 1 by omega, getElem?_cons_succ]
    congr 1
    omega

lemma lcLinkLcp_eq (s : St α) (lp : α) (n : ℕ) : ∃ list total, lcLinkLcp s lp n = { s with
        list := list, total := total, nelem := s.nelem + 1
        lc := Function.update s.lc lp (some s.self) } ∧ (s.nelem ≤ s.total → s.nelem < total) := by
  obtain ⟨list, total, hroom, -, hcap⟩ := withRoom_eq s
  refine ⟨(lcLinkLcp s lp n).list, total, ?_, hcap⟩
  simp [lcLinkLcp, hroom]

lemma lcAddLeasePos_eq (hs : Slots s (l1 ++ l2)) : lcAddLeasePos s lp l1.length =
      linkBetween (lcLinkLcp s lp l1.length) lp l1.getLast? l2.head? := by
  obtain ⟨hlen, hget⟩ := lcLinkLcp_slots lp hs
  unfold lcAddLeasePos
  generalize lcLinkLcp s lp l1.length = t at *
  simp only [length_append, length_cons] at hlen
  change linkBetween t lp _ _ = _
  congr 1
  · rcases eq_nil_or_concat' l1 with rfl | ⟨l, b, rfl⟩
    · rfl
    · rw [if_pos (by simp), hget _ (by omega)]
      simp
  · cases l2 with
    | nil => rw [if_neg (by simp at hlen; omega)]; rfl
    | cons c m =>
      rw [length_cons] at hlen
      rw [if_pos (by omega), hget _ (by omega)]
      simp

lemma linkBetween_next {front back : Option α} (hn : s.next lp = none) (hf : front ≠ some lp) :
    (linkBetween s lp front back).next = spliceIn s.next lp front back := by
  have hlp : (front.elim s (linkPrev s lp)).next lp = none := by
    cases front with
    | none => exact hn
    | some b => exact (update_of_ne (by rintro rfl; exact hf rfl) _ _).trans hn
  funext c
  by_cases hc : c = lp
  · subst hc
    cases back <;> simp [spliceIn, linkBetween, linkNext, hlp]
  · cases front <;> cases back <;>
      simp [spliceIn, linkBetween, linkPrev, linkNext, update_apply, hc]

lemma linkBetween_prev {front back : Option α} (hp : s.prev lp = none) (hb : back ≠ some lp) :
    (linkBetween s lp front back).prev = spliceIn s.prev lp back front := by
  funext c
  by_cases hc : c = lp
  · subst hc
    cases back with
    | none => cases front <;> simp [spliceIn, linkBetween, linkPrev, hp]
    | some b =>
      have hcb : c ≠ b := fun e => hb (e ▸ rfl)
      cases front <;> simp [spliceIn, linkBetween, linkPrev, linkNext, hp, hcb]
  · cases front <;> cases back <;>
      simp [spliceIn, linkBetween, linkPrev, linkNext, update_apply, hc]

lemma linkBetween_eq {front back : Option α} (hn : s.next lp = none) (hp : s.prev lp = none)
    (hf : front ≠ some lp) (hb : back ≠ some lp) : linkBetween s lp front back = { s with
      next := spliceIn s.next lp front back, prev := spliceIn s.prev lp back front } := by
  rw [← linkBetween_next hn hf, ← linkBetween_prev hp hb]
  cases front <;> cases back <;> rfl

lemma lcAddLeasePos_inv (h : Inv s (l1 ++ l2)) (hlc : s.lc lp = none)
    (hsp : Splits s (l1 ++ l2) lp l1.length) :
    Inv (lcAddLeasePos s lp l1.length) (l1 ++ lp :: l2) := by
  have hslots := lcLinkLcp_slots lp h.slots
  -- the neighbours are leases of the chain
  have hnbr : ∀ a, s.lc a = none → some a ≠ l1.getLast? ∧ some a ≠ l2.head? := fun a ha =>
    ⟨fun e => h.notMem ha (by simp [mem_of_getLast? e.symm]),
      fun e => h.notMem ha (by simp [mem_of_head? e.symm])⟩
  obtain ⟨hn, hp⟩ := h.off lp hlc
  obtain ⟨hf, hb⟩ := hnbr lp hlc
  rw [lcAddLeasePos_eq h.slots]
  obtain ⟨list, total, ht, hcap⟩ := lcLinkLcp_eq s lp l1.length
  rw [ht] at hslots ⊢
  rw [linkBetween_eq (by exact hn) (by exact hp) hf.symm hb.symm]
  have hback := h.bwd
  rw [reverse_append] at hback
  refine ⟨⟨hslots.len, hslots.get⟩, sorted_insert h.sorted hsp, h.fwd.spliceIn (h.notMem hlc), ?_,
    fun a => ?_, fun a ha => ?_, hcap h.cap⟩
  · have := hback.spliceIn (by simpa [and_comm] using h.notMem hlc)
    simpa using this
  · by_cases ha : a = lp
    · simp [ha]
    · simp [ha, h.lc a]
  · have hne : a ≠ lp := by rintro rfl; simp at ha
    simp only [update_of_ne hne] at ha
    obtain ⟨han, hap⟩ := h.off a ha
    obtain ⟨haf, hab⟩ := hnbr a ha
    exact ⟨(spliceIn_of_ne hne haf).trans han, (spliceIn_of_ne hne hab).trans hap⟩

lemma Inv.setTiebreaker (h : Inv s l) (hlp : lp ∉ l) (tb : Long) :
    Inv (setTiebreaker s lp tb) l := by
  refine ⟨⟨h.slots.len, h.slots.get⟩, ?_, h.fwd, h.bwd, h.lc, h.off, h.cap⟩
  refine List.Pairwise.imp_of_mem (fun {a b} ha hb hab => ?_) h.sorted
  have hne : ∀ c ∈ l, c ≠ lp := fun c hc e => hlp (e ▸ hc)
  simpa [key, Leasechain.setTiebreaker, update_of_ne (hne a ha), update_of_ne (hne b hb)] using hab

lemma lcAddLeasePos_splits (h : Inv s l) (hlc : s.lc lp = none) {tb : Long} {p : ℕ}
    (hsp : Splits (setTiebreaker s lp tb) l lp p) :
    ∃ l1 l2, l = l1 ++ l2 ∧ Inv (lcAddLeasePos (setTiebreaker s lp tb) lp p) (l1 ++ lp :: l2) := by
  have hlen : (l.take p).length = p := length_take_of_le hsp.1
  have hi := h.setTiebreaker (h.notMem hlc) tb
  rw [← take_append_drop p l] at hi hsp
  refine ⟨l.take p, l.drop p, (take_append_drop p l).symm, ?_⟩
  have := lcAddLeasePos_inv hi hlc (by rwa [hlen])
  rwa [hlen] at this

/-- The lease goes in where its sort time and tiebreaker belong. -/
theorem lcAddSortedLease_inv (h : Inv s l) (hlc : s.lc lp = none) (rnd : Long) :
    ∃ s' l1 l2, lcAddSortedLease s lp rnd = some s' ∧ l = l1 ++ l2 ∧ Inv s' (l1 ++ lp :: l2) := by
  have hlen := h.slots.len
  have hlp := h.notMem hlc
  unfold lcAddSortedLease
  by_cases h0 : s.nelem = 0
  · have hl : l = [] := length_eq_zero_iff.mp (hlen.trans h0)
    obtain ⟨l1, l2, he, hi⟩ := lcAddLeasePos_splits h hlc
      (show Splits (setTiebreaker s lp Long.zero) l lp 0 from ⟨by omega, by simp, by simp [hl]⟩)
    exact ⟨_, l1, l2, if_pos h0, he, hi⟩
  obtain ⟨last, hlast, hgl⟩ := h.slots.some_of_lt (i := s.nelem - 1) (by omega)
  rw [← hlen, ← getLast?_eq_getElem?] at hgl
  have hne : last ≠ lp := fun e => hlp (e ▸ mem_of_getLast? hgl)
  -- behind the last entry, which does not sort after `lp`
  have at_end : ∀ tb, key (setTiebreaker s lp tb) last ≤ key (setTiebreaker s lp tb) lp →
      ∃ l1 l2, l = l1 ++ l2 ∧
        Inv (lcAddLeasePos (setTiebreaker s lp tb) lp s.nelem) (l1 ++ lp :: l2) := fun tb hle =>
    lcAddLeasePos_splits h hlc (hlen ▸ splits_end (h.setTiebreaker hlp tb).sorted hgl hle)
  rw [if_neg h0]
  simp only [hlast, Option.bind_eq_bind, Option.bind_some]
  split_ifs with h1 h2
  · obtain ⟨l1, l2, he, hi⟩ := at_end Long.zero (Prod.Lex.toLex_le_toLex.mpr (Or.inl h1))
    exact ⟨_, l1, l2, rfl, he, hi⟩
  · obtain ⟨l1, l2, he, hi⟩ := at_end (s.sortTiebreaker last).next (by
      simp only [key, setTiebreaker, Prod.Lex.toLex_le_toLex, update_self, update_of_ne hne]
      exact Or.inr ⟨h2.symm, Long.le_next _⟩)
    exact ⟨_, l1, l2, rfl, he, hi⟩
  · have hi := h.setTiebreaker hlp rnd
    obtain ⟨p, hpos, hsp⟩ := insertPoint_spec lp hi.slots hi.sorted (Nat.zero_le (s.nelem - 1))
      (by simp [setTiebreaker]; omega) (show s.nelem - 1 - 0 < s.nelem by omega) (by simp)
      (fun i hi a ha => by
        rw [getElem?_eq_none (by omega)] at ha
        cases ha)
    obtain ⟨l1, l2, he, hi⟩ := lcAddLeasePos_splits h hlc hsp
    refine ⟨_, l1, l2, ?_, he, hi⟩
    rw [show (setTiebreaker s lp rnd).nelem = s.nelem from rfl, hpos]
    rfl

end IscDhcp.Leasechain
