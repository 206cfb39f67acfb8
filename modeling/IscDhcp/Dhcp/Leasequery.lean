import IscDhcp.Mdb.Types

/-!
What a DHCPLEASEQUERY is told of a client (`dhcpleasequery.c`): the newest of its leases, and the
addresses of its other active ones. The chain of its leases is the list of its elements.
-/

namespace IscDhcp.Leasequery

open List

variable {ι : Type} (lease : ι → Lease)

def active (i : ι) : Prop := (lease i).bindingState = .active

instance (i : ι) : Decidable (active lease i) := inferInstanceAs (Decidable (_ = _))

/-- A turn of the loop in `get_newest_lease`. -/
def newer (newest p : ι) : ι :=
  if active lease newest then
    if active lease p ∧ (lease newest).cltt < (lease p).cltt then p else newest
  else if (lease newest).ends < (lease p).ends then p else newest

def getNewestLease : List ι → Option ι
  | [] => none
  | l :: ls => some (ls.foldl (newer lease) l)

/-- `get_associated_ips` from an element of the chain on: the count, and what is still stored. -/
def getAssociatedIps [DecidableEq ι] (addr : ι → Bytes) (newest : Option ι) (size : ℕ) :
    List ι → ℕ → ℕ × List Bytes
  | [], cnt => (cnt, [])
  | p :: ps, cnt =>
    if active lease p ∧ some p ≠ newest then
      let (n, ips) := getAssociatedIps addr newest size ps (cnt + 1)
      (n, if cnt < size then addr p :: ips else ips)
    else getAssociatedIps addr newest size ps cnt

/-- What the newest lease of a chain is to be. -/
structure Current (chain : List ι) (i : ι) : Prop where
  mem : i ∈ chain
  cltt : ∀ p ∈ chain, active lease p → active lease i ∧ (lease p).cltt ≤ (lease i).cltt
  ends : (∀ p ∈ chain, ¬ active lease p) → ∀ p ∈ chain, (lease p).ends ≤ (lease i).ends

/-- The lease is, or comes after, an active lease that ends after all those in front of it. -/
def Behind (chain : List ι) (b : ι) : Prop :=
  ∃ pre a post, chain = pre ++ a :: post ∧ active lease a ∧
    (∀ p ∈ pre, (lease p).ends < (lease a).ends) ∧ b ∈ a :: post

/-- So is an active lease with the greatest `cltt`. -/
def Shown (chain : List ι) : Prop :=
  ∃ b, Behind lease chain b ∧ active lease b ∧
    ∀ p ∈ chain, active lease p → (lease p).cltt ≤ (lease b).cltt

/-- What `get_newest_lease` knows of the leases it has seen. -/
structure Seen (pre : List ι) (n : ι) : Prop where
  mem : n ∈ pre
  ends : ¬ active lease n → ∀ p ∈ pre, (lease p).ends ≤ (lease n).ends
  behind : active lease n → Behind lease pre n
  cltt : ∀ b, Behind lease pre b → active lease n ∧
    (active lease b → (lease b).cltt ≤ (lease n).cltt)

variable {lease} {pre ls : List ι} {n p b : ι}

lemma behind_concat : Behind lease (pre ++ [p]) b ↔ Behind lease pre b ∨
    (b = p ∧ ((∃ c, Behind lease pre c) ∨
      active lease p ∧ ∀ q ∈ pre, (lease q).ends < (lease p).ends)) := by
  constructor
  · rintro ⟨pre', a, post, heq, ha, hends, hb⟩
    obtain rfl | ⟨post, x, rfl⟩ := eq_nil_or_concat post
    · obtain ⟨rfl, rfl⟩ := append_singleton_inj.mp heq
      exact .inr ⟨mem_singleton.mp hb, .inr ⟨ha, hends⟩⟩
    · rw [concat_eq_append, ← cons_append, ← append_assoc] at heq
      obtain ⟨rfl, rfl⟩ := append_singleton_inj.mp heq
      rw [concat_eq_append, ← cons_append, mem_append, mem_singleton] at hb
      exact hb.imp (fun hb => ⟨pre', a, post, rfl, ha, hends, hb⟩) fun hb =>
        ⟨hb, .inl ⟨a, pre', a, post, rfl, ha, hends, mem_cons_self⟩⟩
  · rintro (⟨pre', a, post, rfl, ha, hends, hb⟩ |
      ⟨rfl, ⟨_, pre', a, post, rfl, ha, hends, -⟩ | ⟨ha, hends⟩⟩)
    · exact ⟨pre', a, post ++ [p], by simp, ha, hends, by
        simpa [or_assoc] using Or.inl hb⟩
    · exact ⟨pre', a, post ++ [b], by simp, ha, hends, by simp⟩
    · exact ⟨pre, b, [], rfl, ha, hends, mem_cons_self⟩

lemma Seen.newer (h : Seen lease pre n) : Seen lease (pre ++ [p]) (newer lease n p) := by
  obtain ⟨hmem, hends, hbehind, hcltt⟩ := h
  unfold Leasequery.newer
  constructor <;> simp only [behind_concat, mem_append, mem_singleton] <;> grind

lemma Seen.foldl (h : Seen lease pre n) :
    Seen lease (pre ++ ls) (ls.foldl (Leasequery.newer lease) n) := by
  induction ls generalizing pre n with
  | nil => simpa using h
  | cons p ls ih =>
    rw [append_cons]
    exact ih h.newer

lemma Seen.current_iff (h : Seen lease pre n) :
    Current lease pre n ↔ (∀ p ∈ pre, ¬ active lease p) ∨ Shown lease pre := by
  constructor
  · intro hc
    refine or_iff_not_imp_left.mpr fun hsome => ?_
    push Not at hsome
    obtain ⟨p, hp, ha⟩ := hsome
    have hn := (hc.cltt p hp ha).1
    exact ⟨n, h.behind hn, hn, fun p hp ha => (hc.cltt p hp ha).2⟩
  · rintro (hnone | ⟨b, hb, hab, hmax⟩)
    · exact ⟨h.mem, fun p hp ha => absurd ha (hnone p hp), fun _ => h.ends (hnone n h.mem)⟩
    · obtain ⟨hn, hle⟩ := h.cltt b hb
      exact ⟨h.mem, fun p hp ha => ⟨hn, (hmax p hp ha).trans (hle hab)⟩, fun hnone =>
        absurd hn (hnone n h.mem)⟩

lemma getAssociatedIps_eq [DecidableEq ι] (addr : ι → Bytes) (newest : Option ι) (size : ℕ)
    (chain : List ι) (cnt : ℕ) : getAssociatedIps lease addr newest size chain cnt =
      let others := chain.filter fun p => active lease p ∧ some p ≠ newest
      (cnt + others.length, (others.take (size - cnt)).map addr) := by
  induction chain generalizing cnt with
  | nil => simp [getAssociatedIps]
  | cons p ps ih =>
    rw [getAssociatedIps, filter_cons]
    by_cases hp : active lease p ∧ some p ≠ newest
    · rw [if_pos hp, if_pos (by simpa using hp), ih]
      rcases h : size - cnt with - | n
      · simp [show ¬ cnt < size by omega, show size - (cnt + 1) = 0 by omega]
        omega
      · simp [show cnt < size by omega, show size - (cnt + 1) = n by omega]
        omega
    · rw [if_neg hp, if_neg (by simpa using hp), ih]

/-- **The current lease**: the newest lease is an active one with the greatest `cltt` if and only
if one of these is, or comes after, an active lease that ends after all those in front of it;
without an active lease it has the greatest `ends`. All other active leases are counted, and the
first of them are stored. -/
theorem newest_reported [DecidableEq ι] (lease : ι → Lease) (addr : ι → Bytes) (size : ℕ)
    (chain : List ι) (hne : chain ≠ []) :
    ∃ i, getNewestLease lease chain = some i ∧
      (Current lease chain i ↔ (∀ p ∈ chain, ¬ active lease p) ∨ Shown lease chain) ∧
      let others := chain.filter fun p => active lease p ∧ some p ≠ some i
      getAssociatedIps lease addr (some i) size chain 0 =
        (others.length, (others.take size).map addr) := by
  obtain ⟨l, ls, rfl⟩ := exists_cons_of_ne_nil hne
  have hl : Seen lease [l] l := by
    refine ⟨mem_cons_self, by simp, fun ha => ⟨[], l, [], rfl, ha, by simp, mem_cons_self⟩,
      fun b hb => ?_⟩
    obtain ⟨rfl, ha⟩ : b = l ∧ active lease l := by
      simpa [Behind] using behind_concat.mp (show Behind lease ([] ++ [l]) b from hb)
    exact ⟨ha, fun _ => le_rfl⟩
  have hs : Seen lease ([l] ++ ls) (ls.foldl (Leasequery.newer lease) l) := hl.foldl
  exact ⟨_, rfl, hs.current_iff, by simp [getAssociatedIps_eq]⟩

def sampleChain : Fin 3 → Lease
  | 0 => { bindingState := .free, ends := 100 }
  | 1 => { bindingState := .active, ends := 50, cltt := 1 }
  | 2 => { bindingState := .active, ends := 200, cltt := 2 }

theorem newest_reported_sample :
    ∃ i, getNewestLease sampleChain [0, 1, 2] = some i ∧ Current sampleChain [0, 1, 2] i := by
  obtain ⟨i, hnew, hi, -⟩ := newest_reported sampleChain (fun _ => []) 0 [0, 1, 2] (by simp)
  exact ⟨i, hnew, hi.mpr (.inr ⟨2, ⟨[0, 1], 2, [], rfl, by decide, by decide, by decide⟩,
    by decide, by decide⟩)⟩

/-- A lease that is not active hides an active one that ends before it. -/
theorem active_not_newest : getNewestLease sampleChain [0, 1] = some 0 ∧
    ¬ active sampleChain 0 ∧ active sampleChain 1 := by
  decide

end IscDhcp.Leasequery
