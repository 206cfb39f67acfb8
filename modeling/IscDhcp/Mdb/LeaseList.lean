import IscDhcp.Leasechain.Run

/-!
The lease queue as a linked list (`lease_insert` and `lease_remove` of `mdb.c`, compiled without
`BINARY_LEASES`), and its agreement with the leasechain. The two order leases of one sort time
differently, but hold the same leases and give `pool_timer` the same sort times.
-/

namespace IscDhcp.LeaseList

open IscDhcp.Lib List Function

variable {α : Type} [DecidableEq α]

/-- One queue. `lastInsertPoint` is the static variable of `lease_insert`, null as long as
`last_lq` is not this queue. -/
structure St (α : Type) where
  lq : Option α
  next : α → Option α
  sortTime : α → Time
  lastInsertPoint : Option α

variable (s : St α) (comp : α)

/-- Where the insertion sort starts: behind the last insertion, or at the head of the queue. -/
def start (follow : Bool) : Option α × Option α :=
  match s.lastInsertPoint with
  | none => (none, s.lq)
  | some last =>
    if follow ∧ comp ≠ last ∧ s.sortTime last ≤ s.sortTime comp then (some last, s.next last)
    else (none, s.lq)

/-- `lease_insert`; `follow` is `server_starting & SS_QFOLLOW`, and the walk takes at most `n`
steps. -/
def leaseInsert (n : ℕ) (follow : Bool) : St α :=
  let (prev, lp) := start s comp follow
  match (scan s.next (fun a => s.sortTime comp ≤ s.sortTime a) n prev lp).1 with
  | some prev =>
    let next := match s.next prev with
      | some b =>
        Function.update (Function.update s.next comp (reference (s.next comp) b)) prev none
      | none => s.next
    { s with next := Function.update next prev (some comp), lastInsertPoint := some comp }
  | none =>
    let next := match s.lq with
      | some b => Function.update s.next comp (reference (s.next comp) b)
      | none => s.next
    { s with lq := some comp, next := next, lastInsertPoint := some comp }

/-- `lease_remove`; `none` is the fatal error "Lease … not on its queue." -/
def leaseRemove (n : ℕ) : Option (St α) :=
  match scan s.next (fun a => a = comp) n none s.lq with
  | (_, none) => none
  | (some prev, some _) => some { s with next := unlinkAfter s.next prev comp }
  | (none, some _) =>
    some { s with lq := s.next comp, next := Function.update s.next comp none }

/-! ### The invariant -/

/-- The queue holds the leases of `l`, in order of their sort times. -/
structure Inv (s : St α) (l : List α) : Prop where
  chain : Chain s.next s.lq l
  sorted : l.Pairwise fun a b => s.sortTime a ≤ s.sortTime b
  off : ∀ a, a ∉ l → s.next a = none

variable {s comp} {l : List α} {n : ℕ}

/-- The insertion point of the last call, if it is a lease of the queue. -/
def Follows (s : St α) (l : List α) : Prop := ∀ a ∈ s.lastInsertPoint, a ∈ l

lemma insertPoint_spec (comp : α) (h : Inv s l) {follow : Bool}
    (hfollow : follow = true → Follows s l)
    (hn : l.length < n) : ∃ l₁ l₂, l = l₁ ++ l₂ ∧ (∀ a ∈ l₁, s.sortTime a ≤ s.sortTime comp) ∧
      (∀ a ∈ l₂, s.sortTime comp ≤ s.sortTime a) ∧
      (scan s.next (fun a => s.sortTime comp ≤ s.sortTime a) n (start s comp follow).1
        (start s comp follow).2).1 = l₁.getLast? := by
  -- the leases in front of the start sort before `comp`
  have hstart : ∃ m1 m2, l = m1 ++ m2 ∧ (∀ a ∈ m1, s.sortTime a ≤ s.sortTime comp) ∧
      start s comp follow = (m1.getLast?, m2.head?) := by
    have hhead : ∃ m1 m2, l = m1 ++ m2 ∧ (∀ a ∈ m1, s.sortTime a ≤ s.sortTime comp) ∧
        (none, s.lq) = (m1.getLast?, m2.head?) :=
      ⟨[], l, rfl, nofun, by rw [h.chain.head?]; rfl⟩
    unfold start
    cases hlast : s.lastInsertPoint with
    | none => exact hhead
    | some last =>
      dsimp only
      split_ifs with hf
      · obtain ⟨m1, m2, rfl⟩ := append_of_mem (hfollow hf.1 last hlast)
        refine ⟨m1 ++ [last], m2, by simp, fun a ha => ?_, ?_⟩
        · rcases mem_append.1 ha with ha | ha
          · have hle := pairwise_append.1 h.sorted
            exact (hle.2.2 a ha last mem_cons_self).trans hf.2.2
          · rw [mem_singleton.1 ha]
            exact hf.2.2
        · rw [Seg.next_eq h.chain, getLast?_concat]
      · exact hhead
  obtain ⟨m1, m2, rfl, hbefore, hst⟩ := hstart
  rw [hst]
  obtain ⟨r, _, hseg⟩ := seg_append.1 h.chain
  have hr : r = m2.head? := Seg.head? hseg
  rw [hr] at hseg
  obtain ⟨k1, k2, rfl, hk1, hk2, hscan⟩ :=
    Seg.exists_scan hseg (fun a => decide (s.sortTime comp ≤ s.sortTime a))
      (show m2.length < n by rw [length_append] at hn; omega) m1.getLast?
  refine ⟨m1 ++ k1, k2, by simp, fun a ha => ?_, fun a ha => ?_, ?_⟩
  · rcases mem_append.1 ha with ha | ha
    · exact hbefore a ha
    · have := hk1 a ha
      simp only [decide_eq_false_iff_not, not_le] at this
      exact this.le
  · cases k2 with
    | nil => cases ha
    | cons b k2 =>
      have hb : s.sortTime comp ≤ s.sortTime b := by simpa using hk2 b rfl
      have hsorted := (pairwise_append.1 (pairwise_append.1 h.sorted).2.1).2.1
      rcases mem_cons.1 ha with rfl | ha
      · exact hb
      · exact hb.trans ((pairwise_cons.1 hsorted).1 a ha)
  · rw [hscan, getLast?_append]

lemma leaseInsert_sortTime (s : St α) (comp : α) (n : ℕ) (follow : Bool) :
    (leaseInsert s comp n follow).sortTime = s.sortTime ∧
      (leaseInsert s comp n follow).lastInsertPoint = some comp := by
  unfold leaseInsert
  dsimp only
  split <;> exact ⟨rfl, rfl⟩

/-- **`lease_insert`** puts a lease that is on no queue at its place. -/
lemma leaseInsert_inv (h : Inv s l) (hcomp : comp ∉ l) {follow : Bool}
    (hfollow : follow = true → Follows s l) (hn : l.length < n) :
    ∃ l', Inv (leaseInsert s comp n follow) l' ∧ (∀ a, a ∈ l' ↔ a = comp ∨ a ∈ l) ∧
      l'.length = l.length + 1 := by
  obtain ⟨l1, l2, rfl, hle, hge, hscan⟩ := insertPoint_spec comp h hfollow hn
  have hnext : s.next comp = none := h.off comp hcomp
  have hchain : Chain s.next (l1 ++ l2).head? (l1 ++ l2) := h.chain.head? ▸ h.chain
  have hin := hchain.spliceIn hcomp
  -- the two ways to link the lease are one splice
  have heq : (leaseInsert s comp n follow).next = spliceIn s.next comp l1.getLast? l2.head? ∧
      (leaseInsert s comp n follow).lq = (l1 ++ comp :: l2).head? := by
    unfold leaseInsert
    dsimp only
    rw [hscan]
    cases hl1 : l1.getLast? with
    | some prev =>
      have hp : prev ∈ l1 := mem_of_getLast? hl1
      have hback : s.next prev = l2.head? := Seg.next_getLast hchain hl1
      refine ⟨?_, ?_⟩
      · funext c
        cases hb : l2.head? with
        | none =>
          by_cases hc : c = comp <;> by_cases hcp : c = prev <;>
            simp_all [spliceIn]
        | some b =>
          by_cases hc : c = comp <;> by_cases hcp : c = prev <;>
            simp_all [spliceIn]
      · rw [h.chain.head?]
        cases l1 with
        | nil => cases hl1
        | cons a l1 => rfl
    | none =>
      obtain rfl := getLast?_eq_none_iff.1 hl1
      have hlq : s.lq = l2.head? := h.chain.head?
      refine ⟨?_, rfl⟩
      funext c
      cases hb : l2.head? with
      | none => by_cases hc : c = comp <;> simp_all [spliceIn]
      | some b => by_cases hc : c = comp <;> simp_all [spliceIn]
  refine ⟨l1 ++ comp :: l2, ⟨?_, ?_, fun a ha => ?_⟩, fun a => ?_, ?_⟩
  · rw [heq.1, heq.2]
    exact hin
  · rw [(leaseInsert_sortTime ..).1, pairwise_append]
    have hs := pairwise_append.1 h.sorted
    refine ⟨hs.1, pairwise_cons.2 ⟨hge, hs.2.1⟩, fun a ha b hb => ?_⟩
    rcases mem_cons.1 hb with rfl | hb
    · exact hle a ha
    · exact hs.2.2 a ha b hb
  · rw [heq.1]
    simp only [mem_append, mem_cons, not_or] at ha
    rw [spliceIn_of_ne ha.2.1 fun he => ha.1 (mem_of_getLast? he.symm)]
    exact h.off a (by simp [ha.1, ha.2.2])
  · simp only [mem_append, mem_cons]
    tauto
  · simp
    omega

/-- **`lease_remove`** takes a lease of the queue out. -/
lemma leaseRemove_inv (h : Inv s l) (hcomp : comp ∈ l) (hn : l.length < n) :
    ∃ s', leaseRemove s comp n = some s' ∧ s'.sortTime = s.sortTime ∧
      Inv s' (l.erase comp) := by
  obtain ⟨l1, l2, rfl, h1, h2, hscan⟩ := h.chain.exists_scan (fun a => decide (a = comp)) hn none
  have hnot : comp ∉ l1 := fun hm => by simpa using h1 comp hm
  obtain ⟨l2, rfl⟩ : ∃ m, l2 = comp :: m := by
    cases l2 with
    | nil => exact absurd (by simpa using hcomp) hnot
    | cons b m => exact ⟨m, by rw [show b = comp by simpa using h2 b rfl]⟩
  have hchain : Chain s.next (l1 ++ comp :: l2).head? (l1 ++ comp :: l2) :=
    h.chain.head? ▸ h.chain
  have hback : s.next comp = l2.head? := Seg.next_eq hchain
  have herase : (l1 ++ comp :: l2).erase comp = l1 ++ l2 := by
    rw [erase_append_right _ hnot, erase_cons_head]
  have hsorted : (l1 ++ l2).Pairwise fun a b => s.sortTime a ≤ s.sortTime b :=
    h.sorted.sublist ((sublist_cons_self comp l2).append_left l1)
  -- both ways to unlink the lease are one splice
  have hout : ∃ s', leaseRemove s comp n = some s' ∧ s'.sortTime = s.sortTime ∧
      s'.next = spliceOut s.next comp l1.getLast? l2.head? ∧ s'.lq = (l1 ++ l2).head? := by
    unfold leaseRemove
    rw [hscan]
    cases hl1 : l1.getLast? with
    | some prev =>
      have hne : prev ≠ comp := fun he => hnot (he ▸ mem_of_getLast? hl1)
      refine ⟨_, rfl, rfl, ?_, ?_⟩
      · rw [← hback]
        exact unlinkAfter_eq hne
      · rw [h.chain.head?]
        cases l1 with
        | nil => cases hl1
        | cons a l1 => rfl
    | none =>
      obtain rfl := getLast?_eq_none_iff.1 hl1
      refine ⟨_, rfl, rfl, ?_, hback⟩
      funext c
      by_cases hc : c = comp <;> simp [spliceOut, hc]
  obtain ⟨s', hs', htime, hnext, hlq⟩ := hout
  refine ⟨s', hs', htime, ?_⟩
  rw [herase]
  refine ⟨?_, by rw [htime]; exact hsorted, fun a ha => ?_⟩
  · rw [hnext, hlq]
    exact hchain.spliceOut
  · rw [hnext]
    simp only [mem_append, not_or] at ha
    by_cases hac : a = comp
    · simp [spliceOut, hac]
    · rw [spliceOut_of_ne hac fun he => ha.1 (mem_of_getLast? he.symm)]
      exact h.off a (by simp [ha.1, ha.2, hac])

/-! ### Sequences of insertions and removals -/

/-- The calls made on one queue. `follow` says whether the startup shortcut is on; `rnd` is what
`random ()` returns to the leasechain. -/
inductive Op (α : Type)
  | insert (comp : α) (sortTime : Time) (rnd : Leasechain.Long) (follow : Bool)
  | remove (comp : α) (follow : Bool)

def step (n : ℕ) (s : St α) : Op α → Option (St α)
  | .insert comp t _ follow =>
    some (leaseInsert { s with sortTime := Function.update s.sortTime comp t } comp n follow)
  | .remove comp _ => leaseRemove s comp n

def run (n : ℕ) (s : St α) (ops : List (Op α)) : Option (St α) := ops.foldlM (step n) s

/-- The same call on the leasechain. -/
def Op.toChain : Op α → Leasechain.Op α
  | .insert comp t rnd _ => .add comp t rnd
  | .remove comp _ => .unlink comp

def Op.holds (held : α → Prop) : Op α → α → Prop
  | .insert comp _ _ _, a => a = comp ∨ held a
  | .remove comp _, a => a ≠ comp ∧ held a

/-- Leases are inserted while absent and removed while present, none is removed while the shortcut
is on, and once a lease was `removed` the shortcut stays off. -/
def Legal : (α → Prop) → Bool → List (Op α) → Prop
  | _, _, [] => True
  | held, removed, op :: ops =>
    match op with
    | .insert comp _ _ follow =>
      ¬ held comp ∧ (follow = true → removed = false) ∧ Legal (op.holds held) removed ops
    | .remove comp follow => held comp ∧ follow = false ∧ Legal (op.holds held) true ops

/-- The two queues hold the same leases, with the same sort times. -/
structure Agree (s : St α) (c : Leasechain.St α) (l m : List α) : Prop where
  list : Inv s l
  chain : Leasechain.Inv c m
  mem : ∀ a, a ∈ l ↔ a ∈ m
  sortTime : s.sortTime = c.sortTime
  off : ∀ a, a ∉ m → c.lc a = none

variable {c : Leasechain.St α} {m : List α}

lemma Agree.perm (h : Agree s c l m) : l.Perm m :=
  (perm_ext_iff_of_nodup h.list.chain.nodup h.chain.fwd.nodup).2 h.mem

lemma sorted_of_chain (h : Leasechain.Inv c m) :
    m.Pairwise fun a b => c.sortTime a ≤ c.sortTime b :=
  h.sorted.imp fun hab => by
    rcases Prod.Lex.toLex_le_toLex.1 hab with hlt | ⟨heq, -⟩
    · exact hlt.le
    · exact heq.le

lemma Agree.sortTimes (h : Agree s c l m) : l.map s.sortTime = m.map c.sortTime := by
  have hperm : (l.map s.sortTime).Perm (m.map c.sortTime) := h.sortTime ▸ h.perm.map _
  refine List.Perm.eq_of_pairwise (fun a b _ _ => le_antisymm) ?_ ?_ hperm
  · exact pairwise_map.2 h.list.sorted
  · exact pairwise_map.2 (sorted_of_chain h.chain)

lemma Inv.setSortTime (h : Inv s l) (hcomp : comp ∉ l) (t : Time) :
    Inv { s with sortTime := update s.sortTime comp t } l := by
  refine ⟨h.chain, h.sorted.imp_of_mem fun {a b} ha hb hab => ?_, h.off⟩
  have hne : ∀ x ∈ l, x ≠ comp := fun x hx he => hcomp (he ▸ hx)
  simpa [update_of_ne (hne a ha), update_of_ne (hne b hb)] using hab

/-- What one call does, and that the calls after it are legal. The last insertion is in the queue
as long as no lease was removed. -/
lemma step_agree {op : Op α} {ops : List (Op α)} (h : Agree s c l m) {removed : Bool}
    (hfollow : removed = false → Follows s l) (hops : Legal (· ∈ l) removed (op :: ops))
    (hn : l.length < n) :
    ∃ s' c' l' m' removed', step n s op = some s' ∧ Leasechain.step c op.toChain = some c' ∧
      Agree s' c' l' m' ∧ (∀ a, a ∈ l' ↔ op.holds (· ∈ l) a) ∧ l'.length ≤ l.length + 1 ∧
      (removed' = false → Follows s' l') ∧ Legal (op.holds (· ∈ l)) removed' ops := by
  cases op with
  | insert comp t rnd follow =>
    obtain ⟨hcomp, hoff, hlegal⟩ := hops
    have hm : comp ∉ m := fun hm => hcomp ((h.mem comp).2 hm)
    obtain ⟨c', m', hc', hchain, hmem'⟩ :=
      Leasechain.step_inv h.chain (show Leasechain.Legal c (.add comp t rnd) from h.off comp hm)
    obtain ⟨htime, hlc⟩ := Leasechain.step_frame hc'
    obtain ⟨l', hlist, hmem, hlen⟩ := leaseInsert_inv (h.list.setSortTime hcomp t) hcomp
      (fun hf => hfollow (hoff hf)) hn
    obtain ⟨hsort, hlast⟩ := leaseInsert_sortTime
      { s with sortTime := update s.sortTime comp t } comp n follow
    refine ⟨_, c', l', m', removed, rfl, hc', ⟨hlist, hchain, fun a => ?_, ?_, fun a ha => ?_⟩,
      hmem, hlen.le, fun _ a ha => ?_, hlegal⟩
    · rw [hmem, hmem' a, h.mem a]
      rfl
    · rw [hsort, htime, h.sortTime]
    · have hna : ¬ (a = comp ∨ a ∈ m) := fun hor => ha ((hmem' a).2 hor)
      rw [not_or] at hna
      exact hlc a hna.1 (h.off a hna.2)
    · rw [hlast] at ha
      exact (hmem a).2 (.inl (Option.some.inj ha).symm)
  | remove comp follow =>
    obtain ⟨hcomp, -, hlegal⟩ := hops
    have hunlink : Leasechain.Legal c (.unlink comp) := (h.chain.lc comp).2 ((h.mem comp).1 hcomp)
    obtain ⟨c', m', hc', hchain, hmem'⟩ := Leasechain.step_inv h.chain hunlink
    obtain ⟨c'', m1, m2, hc'', hsplit, -, hgone⟩ := Leasechain.lcUnlinkLease_inv h.chain hunlink
    cases hc'.symm.trans hc''
    obtain ⟨htime, hlc⟩ := Leasechain.step_frame hc'
    obtain ⟨s', hs', hsort, hlist⟩ := leaseRemove_inv h.list hcomp hn
    have hmem : ∀ a, a ∈ l.erase comp ↔ a ≠ comp ∧ a ∈ l := fun a =>
      h.list.chain.nodup.mem_erase_iff
    refine ⟨s', c', l.erase comp, m', true, hs', hc',
      ⟨hlist, hchain, fun a => ?_, ?_, fun a ha => ?_⟩, hmem,
      length_erase_le.trans (Nat.le_succ _), nofun, hlegal⟩
    · rw [hmem, hmem' a, h.mem a]
      rfl
    · rw [hsort, htime, h.sortTime]
    · by_cases hac : a = comp
      · exact hac ▸ hgone
      · exact hlc a (h.off a fun hmem => ha ((hmem' a).2 ⟨hac, hmem⟩))

/-- Whole sequences. -/
lemma run_agree {ops : List (Op α)} (h : Agree s c l m) {removed : Bool}
    (hfollow : removed = false → Follows s l) (hops : Legal (· ∈ l) removed ops)
    (hn : l.length + ops.length < n) :
    ∃ s' c' l' m', run n s ops = some s' ∧ Leasechain.run c (ops.map Op.toChain) = some c' ∧
      Agree s' c' l' m' ∧ ∀ a, a ∈ l' ↔ ops.foldl Op.holds (· ∈ l) a := by
  induction ops generalizing s c l m removed with
  | nil => exact ⟨s, c, l, m, rfl, rfl, h, fun _ => Iff.rfl⟩
  | cons op ops ih =>
    rw [length_cons] at hn
    obtain ⟨s1, c1, l1, m1, removed1, hs1, hc1, h1, hmem, hlen, hf, hlegal⟩ :=
      step_agree h hfollow hops (show l.length < n by omega)
    have hheld : (· ∈ l1) = op.holds (· ∈ l) := funext fun a => propext (hmem a)
    obtain ⟨s', c', l', m', hs', hc', h', hm'⟩ := ih h1 hf (hheld ▸ hlegal) (by omega)
    refine ⟨s', c', l', m', ?_, ?_, h', fun a => ?_⟩
    · rw [run, foldlM_cons, hs1]
      exact hs'
    · rw [map_cons, Leasechain.run, foldlM_cons, hc1]
      exact hc'
    · rw [hm' a, hheld, foldl_cons]

def init (sortTime : α → Time) : St α where
  lq := none
  next := fun _ => none
  sortTime := sortTime
  lastInsertPoint := none

lemma agree_init (c : Leasechain.St α) (h : Leasechain.Empty c) (hoff : ∀ a, c.lc a = none) :
    Agree (init c.sortTime) c [] [] where
  list := ⟨rfl, List.Pairwise.nil, fun _ _ => rfl⟩
  chain := h.inv
  mem := fun _ => Iff.rfl
  sortTime := rfl
  off := fun a _ => hoff a

/-- **The two queues agree.** After any sequence of insertions and removals, with the startup
shortcut on at most until the first removal, the linked list and the leasechain hold the same
leases, the ones that were inserted and not removed, both in the order of their sort times, which
are the same sequence. -/
theorem queues_agree {c : Leasechain.St α} (h : Leasechain.Empty c) (hoff : ∀ a, c.lc a = none)
    {ops : List (Op α)} (hops : Legal (fun _ => False) false ops) {n : ℕ} (hn : ops.length < n) :
    ∃ s' c' l m, run n (init c.sortTime) ops = some s' ∧
      Leasechain.run c (ops.map Op.toChain) = some c' ∧
      Chain s'.next s'.lq l ∧ Leasechain.Inv c' m ∧ s'.sortTime = c'.sortTime ∧
      (∀ a, a ∈ l ↔ ops.foldl Op.holds (fun _ => False) a) ∧ l.Perm m ∧
      (l.Pairwise fun a b => s'.sortTime a ≤ s'.sortTime b) ∧
      (m.Pairwise fun a b => c'.sortTime a ≤ c'.sortTime b) ∧
      l.map s'.sortTime = m.map c'.sortTime := by
  have hnil : (· ∈ ([] : List α)) = fun _ => False := funext fun a => by simp
  obtain ⟨s', c', l, m, hs', hc', ha, hm⟩ := run_agree (agree_init c h hoff)
    (fun (_ : false = false) _ => nofun) (hnil ▸ hops)
      (show ([] : List α).length + ops.length < n by simpa using hn)
  rw [hnil] at hm
  exact ⟨s', c', l, m, hs', hc', ha.list.chain, ha.chain, ha.sortTime, hm, ha.perm, ha.list.sorted,
    sorted_of_chain ha.chain, ha.sortTimes⟩

/-- Two leases of one sort time are inserted with the shortcut on, and one is taken out later. -/
def sampleOps : List (Op ℕ) :=
  [.insert 0 5 Leasechain.Long.zero true, .insert 1 5 Leasechain.Long.zero true, .remove 0 false,
    .insert 2 4 Leasechain.Long.zero false]

theorem queues_agree_sample : ∃ s' c' l m, run 5 (init fun _ => minTime) sampleOps = some s' ∧
      Leasechain.run (Leasechain.init ℕ) (sampleOps.map Op.toChain) = some c' ∧
      Chain s'.next s'.lq l ∧ Leasechain.Inv c' m ∧ s'.sortTime = c'.sortTime ∧
      (∀ a, a ∈ l ↔ sampleOps.foldl Op.holds (fun _ => False) a) ∧ l.Perm m ∧
      (l.Pairwise fun a b => s'.sortTime a ≤ s'.sortTime b) ∧
      (m.Pairwise fun a b => c'.sortTime a ≤ c'.sortTime b) ∧
      l.map s'.sortTime = m.map c'.sortTime :=
  queues_agree (c := Leasechain.init ℕ) ⟨rfl, fun _ => nofun, fun _ _ => ⟨rfl, rfl⟩⟩ (fun _ => rfl)
    (by simp [sampleOps, Legal, Op.holds]) (by decide)

/-- The only lease is removed with the shortcut off, and another one inserted with it on: it is
linked behind the lease that is gone, and the queue stays empty. -/
theorem shortcut_after_removal :
    ∃ s' c', run 4 (init fun _ => minTime) [.insert 0 5 Leasechain.Long.zero false,
          .remove 0 false, .insert 1 7 Leasechain.Long.zero true] = some s' ∧ s'.lq = none ∧
      Leasechain.run (Leasechain.init ℕ) [.add 0 5 Leasechain.Long.zero, .unlink 0,
          .add 1 7 Leasechain.Long.zero] = some c' ∧ c'.nelem = 1 ∧ c'.list 0 = some 1 :=
  ⟨_, _, rfl, rfl, rfl, rfl, rfl⟩

end IscDhcp.LeaseList
