import IscDhcp.Mdb6.Effect
import Mathlib.Tactic.Ring

/-!
What the counters of a DHCPv6 pool and its hash table say of the two heaps, and which calls
keep that true.
-/

namespace IscDhcp.Mdb6.State

open IscDhcp.Heap List

variable {α β : Type} [DecidableEq α] [DecidableEq β] {s t : State α β} {marked : List α} {e : U64}

def abandoned (s : State α β) (x : α) : Bool := (s.lease x).state = .abandoned

/-- The counters of the pond are the sums over its pools. -/
def PondSums (s : State α β) : Prop :=
  ∀ p ∈ s.pond, p.numActive = s.numActive + (p.others.map Prod.fst).sum ∧
    p.numAbandoned = s.numAbandoned + (p.others.map Prod.snd).sum

/-- The counters are the sizes of the heaps, and the hash table holds the leases of the active
heap and those `marked` as unavailable. The number of abandoned leases is off by `e`. -/
structure Accounting (s : State α β) (marked : List α) (e : U64) : Prop where
  active : s.numActive = s.activeTimeouts.length
  inactive : s.numInactive = s.inactiveTimeouts.length
  abandoned : s.numAbandoned = s.activeTimeouts.countP s.abandoned + e
  pond : s.PondSums
  leases : ∀ a x, s.hashLookup a = some x ↔
    (s.lease x).addr = a ∧ (x ∈ s.activeTimeouts ∨ x ∈ marked)
  single : ∀ a, (s.leases a).tail = []

/-- And each lease is on the heap its state says, at the position it was told. -/
structure Inv (s : State α β) (marked : List α) (e : U64) : Prop extends Accounting s marked e where
  heaps : Shared s.activeTimeouts s.inactiveTimeouts s.heapIndex
  inUse : ∀ x ∈ s.activeTimeouts, inUse (s.lease x).state
  notInUse : ∀ x ∈ s.inactiveTimeouts, ¬ Mdb6.inUse (s.lease x).state
  unlisted : ∀ x ∈ marked, x ∉ s.activeTimeouts ∧ x ∉ s.inactiveTimeouts
  noIa : ∀ x ∈ marked, (s.lease x).ia = none

lemma PondSums.addActive (h : s.PondSums) (d : U64) : (s.addActive d).PondSums := by
  intro p hp
  obtain ⟨q, hq, rfl⟩ := Option.mem_map.mp hp
  obtain ⟨h1, h2⟩ := h q hq
  refine ⟨?_, h2⟩
  simp only [State.addActive, h1]
  ring

lemma PondSums.addAbandoned (h : s.PondSums) (d : U64) : (s.addAbandoned d).PondSums := by
  intro p hp
  obtain ⟨q, hq, rfl⟩ := Option.mem_map.mp hp
  obtain ⟨h1, h2⟩ := h q hq
  refine ⟨h1, ?_⟩
  simp only [State.addAbandoned, h2]
  ring

lemma ite_addAbandoned (s : State α β) (b : Bool) (d : U64) :
    (if b then s.addAbandoned d else s) = s.addAbandoned (if b then d else 0) := by
  cases b
  · simp [State.addAbandoned]
  · rfl

lemma Accounting.eq_of_addr (h : Accounting s marked e) {x y : α}
    (hx : x ∈ s.activeTimeouts ∨ x ∈ marked) (hy : y ∈ s.activeTimeouts ∨ y ∈ marked)
    (haddr : (s.lease x).addr = (s.lease y).addr) : x = y := by
  have h1 := (h.leases _ x).mpr ⟨rfl, hx⟩
  have h2 := (h.leases _ y).mpr ⟨rfl, hy⟩
  rw [haddr, h2] at h1
  exact (Option.some.inj h1).symm

/-! ### The hash table -/

variable {i : α}

@[simp] lemma leases_hashAdd_self (s : State α β) (i : α) :
    (s.hashAdd i).leases (s.lease i).addr = i :: s.leases (s.lease i).addr :=
  Function.update_self ..

@[simp] lemma leases_hashAdd_of_ne (s : State α β) {a : In6Addr} (ha : a ≠ (s.lease i).addr) :
    (s.hashAdd i).leases a = s.leases a :=
  Function.update_of_ne ha ..

@[simp] lemma leases_hashDelete_self (s : State α β) (i : α) :
    (s.hashDelete i).leases (s.lease i).addr = (s.leases (s.lease i).addr).tail :=
  Function.update_self ..

@[simp] lemma leases_hashDelete_of_ne (s : State α β) {a : In6Addr} (ha : a ≠ (s.lease i).addr) :
    (s.hashDelete i).leases a = s.leases a :=
  Function.update_of_ne ha ..

section

variable (h : Accounting s marked e)

include h

/-- An address that `i` does not have is not concerned when `i` comes or goes. -/
lemma Accounting.leases_of_ne {l : List α} (hl : ∀ x, x ≠ i → (x ∈ l ↔ x ∈ s.activeTimeouts))
    {a : In6Addr} (ha : a ≠ (s.lease i).addr) (x : α) :
    (s.leases a).head? = some x ↔ (s.lease x).addr = a ∧ (x ∈ l ∨ x ∈ marked) := by
  refine (h.leases a x).trans (and_congr_right fun hx => ?_)
  rw [hl x fun hxi => ha (hxi ▸ hx.symm)]

lemma Accounting.leases_erase {l : List α}
    (hperm : (i :: l).Perm s.activeTimeouts) (hi : i ∉ l) (him : i ∉ marked) (a : In6Addr) (x : α) :
    (s.hashDelete i).hashLookup a = some x ↔ (s.lease x).addr = a ∧ (x ∈ l ∨ x ∈ marked) := by
  by_cases ha : a = (s.lease i).addr
  · subst ha
    rw [hashLookup, leases_hashDelete_self, h.single]
    refine ⟨fun hn => by simp at hn, fun ⟨haddr, hx⟩ => ?_⟩
    have : x = i := h.eq_of_addr (hx.imp_left fun hx => hperm.subset (mem_cons_of_mem _ hx))
      (.inl (hperm.subset mem_cons_self)) haddr
    subst this
    exact absurd hx (by simp [hi, him])
  · rw [hashLookup, leases_hashDelete_of_ne s ha]
    exact h.leases_of_ne (fun y hy => by rw [← hperm.mem_iff, mem_cons, or_iff_right hy]) ha x

lemma Accounting.leases_insert {l : List α}
    (hperm : l.Perm (i :: s.activeTimeouts)) (hfree : s.hashLookup (s.lease i).addr = none)
    (a : In6Addr) (x : α) :
    (s.hashAdd i).hashLookup a = some x ↔ (s.lease x).addr = a ∧ (x ∈ l ∨ x ∈ marked) := by
  by_cases ha : a = (s.lease i).addr
  · subst ha
    rw [hashLookup, leases_hashAdd_self, hperm.mem_iff, mem_cons, or_assoc]
    constructor
    · rintro ⟨rfl⟩
      exact ⟨rfl, .inl rfl⟩
    · rintro ⟨haddr, rfl | hx⟩
      · rfl
      · have := (h.leases _ x).mpr ⟨haddr, hx⟩
        simp [hfree] at this
  · rw [hashLookup, leases_hashAdd_of_ne s ha]
    exact h.leases_of_ne (fun y hy => by rw [hperm.mem_iff, mem_cons, or_iff_right hy]) ha x

lemma Accounting.single_erase (i : α) (a : In6Addr) : ((s.hashDelete i).leases a).tail = [] := by
  by_cases ha : a = (s.lease i).addr
  · subst ha
    rw [leases_hashDelete_self, h.single, tail_nil]
  · rw [leases_hashDelete_of_ne s ha, h.single]

lemma Accounting.single_insert (hfree : s.hashLookup (s.lease i).addr = none) (a : In6Addr) :
    ((s.hashAdd i).leases a).tail = [] := by
  by_cases ha : a = (s.lease i).addr
  · subst ha
    rw [leases_hashAdd_self, tail_cons, head?_eq_none_iff.mp hfree]
  · rw [leases_hashAdd_of_ne s ha, h.single]

end

/-! ### One lease goes -/

section

variable (h : Inv s marked e)

include h

lemma Inv.dropActive (heap : Indexed α) (hperm : (i :: heap.1).Perm s.activeTimeouts)
    (hsh : Shared heap.1 s.inactiveTimeouts heap.2) (ab : Bool) :
    Inv ((((s.setActive heap).addActive (-1)).addAbandoned (if ab then -1 else 0)).hashDelete i)
      marked (e + ((if s.abandoned i then 1 else 0) - if ab then 1 else 0)) := by
  have hi : i ∈ s.activeTimeouts := hperm.mem_iff.mp mem_cons_self
  have hil : i ∉ heap.1 := (nodup_cons.mp (hperm.nodup_iff.mpr h.heaps.left.nodup)).1
  have him : i ∉ marked := fun hm => (h.unlisted i hm).1 hi
  have hmem : ∀ x, x ∈ heap.1 → x ∈ s.activeTimeouts :=
    fun x hx => hperm.mem_iff.mp (mem_cons_of_mem _ hx)
  have hlen : s.numActive = heap.1.length + 1 := by
    rw [h.active, ← hperm.length_eq]; simp
  have hcount : s.numAbandoned =
    heap.1.countP s.abandoned + (if s.abandoned i then 1 else 0) + e := by
    rw [h.abandoned, ← hperm.countP_eq, countP_cons]
    push_cast
    rfl
  exact
    { h with
      active := by
        show s.numActive + -1 = heap.1.length
        rw [hlen]; ring
      abandoned := by
        show s.numAbandoned + (if ab then -1 else 0) = heap.1.countP s.abandoned + _
        rw [hcount]; cases ab <;> simp only [if_true, if_false, Bool.false_eq_true] <;> ring
      pond := (h.pond.addActive _).addAbandoned _
      leases := h.leases_erase hperm hil him
      single := h.single_erase i
      heaps := hsh
      inUse := fun x hx => h.inUse x (hmem x hx)
      unlisted := fun x hx => ⟨fun hx' => (h.unlisted x hx).1 (hmem x hx'), (h.unlisted x hx).2⟩ }

lemma Inv.removeActive (hi : i ∈ s.activeTimeouts) (ab : Bool) (ht : s.removeActive i ab = some t) :
    Inv t marked (e + ((if s.abandoned i then 1 else 0) - if ab then 1 else 0))
      ∧ (i :: t.activeTimeouts).Perm s.activeTimeouts
      ∧ t.inactiveTimeouts = s.inactiveTimeouts ∧ t.lease = s.lease
      ∧ t.leases = (s.hashDelete i).leases := by
  obtain ⟨heap, hdel, ht⟩ := Option.bind_eq_some_iff.mp ht
  obtain ⟨hperm, hsh⟩ := h.heaps.delete s.leaseOlder hi hdel
  cases ht
  rw [ite_addAbandoned]
  exact ⟨h.dropActive heap hperm hsh ab, hperm, rfl, rfl, rfl⟩

lemma Inv.dropInactive (heap : Indexed α) (hperm : (i :: heap.1).Perm s.inactiveTimeouts)
    (hsh : Shared s.activeTimeouts heap.1 heap.2) :
    Inv ((s.setInactive heap).addInactive (-1)) marked e := by
  have hmem : ∀ x, x ∈ heap.1 → x ∈ s.inactiveTimeouts :=
    fun x hx => hperm.mem_iff.mp (mem_cons_of_mem _ hx)
  exact
    { h with
      inactive := by
        show s.numInactive + -1 = heap.1.length
        rw [h.inactive, ← hperm.length_eq]; simp
      heaps := hsh
      notInUse := fun x hx => h.notInUse x (hmem x hx)
      unlisted := fun x hx => ⟨(h.unlisted x hx).1, fun hx' => (h.unlisted x hx).2 (hmem x hx')⟩ }

/-! ### One lease comes -/

/-- A lease that is on no heap and not marked. -/
structure Unlisted (s : State α β) (marked : List α) (i : α) : Prop where
  active : i ∉ s.activeTimeouts
  inactive : i ∉ s.inactiveTimeouts
  marked : i ∉ marked

def books (s : State α β) :=
  (s.leases, s.activeTimeouts, s.inactiveTimeouts, s.numActive, s.numAbandoned, s.numInactive,
    s.pond)

/-- The heaps may be arranged in another way. -/
lemma Inv.rearrange (hbooks : t.books =
      { s with activeTimeouts := t.activeTimeouts, inactiveTimeouts := t.inactiveTimeouts }.books)
    (hact : t.activeTimeouts.Perm s.activeTimeouts)
    (hina : t.inactiveTimeouts.Perm s.inactiveTimeouts)
    (hsh : Shared t.activeTimeouts t.inactiveTimeouts t.heapIndex)
    (hlease : ∀ x, ¬ Unlisted s marked x → (t.lease x).state = (s.lease x).state ∧
      (t.lease x).addr = (s.lease x).addr)
    (hia : ∀ x ∈ marked, (t.lease x).ia = (s.lease x).ia) : Inv t marked e := by
  simp only [books, Prod.mk.injEq] at hbooks
  obtain ⟨hleases, -, -, hnact, hnab, hnina, hpond⟩ := hbooks
  have hla : ∀ x, x ∈ s.activeTimeouts → ¬ Unlisted s marked x := fun x hx hu => hu.active hx
  have hli : ∀ x, x ∈ s.inactiveTimeouts → ¬ Unlisted s marked x := fun x hx hu => hu.inactive hx
  have hlm : ∀ x, x ∈ marked → ¬ Unlisted s marked x := fun x hx hu => hu.marked hx
  exact
    { active := by rw [hnact, hact.length_eq, h.active]
      inactive := by rw [hnina, hina.length_eq, h.inactive]
      abandoned := by
        have hcount : s.activeTimeouts.countP s.abandoned = s.activeTimeouts.countP t.abandoned :=
          countP_congr fun x hx => by
            simp [State.abandoned, (hlease x (hla x hx)).1]
        rw [hnab, hact.countP_eq, h.abandoned, hcount]
      pond := by
        unfold PondSums
        rw [hpond, hnact, hnab]
        exact h.pond
      leases := fun a x => by
        rw [hashLookup, hleases, hact.mem_iff]
        refine (h.leases a x).trans (and_congr_left fun hx => ?_)
        rw [(hlease x (hx.elim (hla x) (hlm x))).2]
      single := by
        rw [hleases]
        exact h.single
      heaps := hsh
      inUse := fun x hx => by
        rw [hact.mem_iff] at hx
        rw [(hlease x (hla x hx)).1]
        exact h.inUse x hx
      notInUse := fun x hx => by
        rw [hina.mem_iff] at hx
        rw [(hlease x (hli x hx)).1]
        exact h.notInUse x hx
      unlisted := fun x hx => by
        rw [hact.mem_iff, hina.mem_iff]
        exact h.unlisted x hx
      noIa := fun x hx => (hia x hx).trans (h.noIa x hx) }

lemma Inv.congr (hbooks : t.books = s.books)
    (hlease : ∀ x, ¬ Unlisted s marked x → (t.lease x).state = (s.lease x).state ∧
      (t.lease x).addr = (s.lease x).addr ∧ t.heapIndex x = s.heapIndex x := by
        exact fun _ _ => ⟨rfl, rfl, rfl⟩)
    (hia : ∀ x ∈ marked, (t.lease x).ia = (s.lease x).ia := by exact fun _ _ => rfl) :
    Inv t marked e := by
  have hlists := hbooks
  simp only [books, Prod.mk.injEq] at hlists
  obtain ⟨-, hact, hina, -⟩ := hlists
  refine h.rearrange ?_ (by rw [hact]) (by rw [hina]) ?_
    (fun x hx => ⟨(hlease x hx).1, (hlease x hx).2.1⟩) hia
  · rw [hact, hina]
    exact hbooks
  · rw [hact, hina]
    exact ⟨h.heaps.left.frame fun x hx => (hlease x fun hu => hu.active hx).2.2,
      h.heaps.right.frame fun x hx => (hlease x fun hu => hu.inactive hx).2.2, h.heaps.disjoint⟩

lemma Inv.modify_unlisted (hi : Unlisted s marked i)
    (f : Iasubopt β → Iasubopt β) : Inv (s.modify i f) marked e := by
  have hne : ∀ x, ¬ Unlisted s marked x → x ≠ i := fun x hx he => hx (he ▸ hi)
  refine h.congr rfl (fun x hx => ?_) fun x hx => ?_
  · simp [modify, hne x hx]
  · simp [modify, hne x fun hu => hu.marked hx]

lemma Inv.allocate (hi : Unlisted s marked i) (l : Iasubopt β) : Inv (s.allocate i l) marked e := by
  have hne : ∀ x, ¬ Unlisted s marked x → x ≠ i := fun x hx he => hx (he ▸ hi)
  refine h.congr rfl (fun x hx => ?_) fun x hx => ?_
  · simp [State.allocate, hne x hx]
  · simp [State.allocate, hne x fun hu => hu.marked hx]

lemma Inv.modify_times (i : α) {f : Iasubopt β → Iasubopt β}
    (hia : i ∈ marked → ∀ l, (f l).ia = l.ia := by exact fun _ _ => rfl)
    (hstate : ∀ l, (f l).state = l.state := by exact fun _ => rfl)
    (haddr : ∀ l, (f l).addr = l.addr := by exact fun _ => rfl) :
    Inv (s.modify i f) marked e := by
  refine h.congr rfl (fun x _ => ?_) fun x hx => ?_
  · by_cases hxi : x = i
    · subst hxi; simp [modify, hstate, haddr]
    · simp [modify, hxi]
  · by_cases hxi : x = i
    · subst hxi; simp [modify, hia hx]
    · simp [modify, hxi]

lemma Inv.putActive (hi : Unlisted s marked i)
    (huse : Mdb6.inUse (s.lease i).state) (hfree : s.hashLookup (s.lease i).addr = none) :
    Inv ((((s.hashAdd i).insertActive i).addActive 1).addAbandoned
      (if s.abandoned i then 1 else 0)) marked e := by
  obtain ⟨hperm, hsh⟩ := h.heaps.insert s.leaseOlder hi.active hi.inactive
  set heap := iscHeapInsert s.leaseOlder (s.activeTimeouts, s.heapIndex) i
  have hmem : ∀ x, x ∈ heap.1 → x = i ∨ x ∈ s.activeTimeouts :=
    fun x hx => mem_cons.mp (hperm.mem_iff.mp hx)
  exact
    { h with
      active := by
        show s.numActive + 1 = heap.1.length
        rw [hperm.length_eq, h.active]; simp
      abandoned := by
        show s.numAbandoned + (if s.abandoned i then 1 else 0) = heap.1.countP s.abandoned + e
        rw [hperm.countP_eq, countP_cons, h.abandoned]
        simp only [Nat.cast_add, Nat.cast_ite, Nat.cast_one, Nat.cast_zero]
        ring
      pond := (h.pond.addActive _).addAbandoned _
      leases := h.leases_insert hperm hfree
      single := h.single_insert hfree
      heaps := hsh
      inUse := fun x hx => by
        rcases hmem x hx with rfl | hx
        · exact huse
        · exact h.inUse x hx
      unlisted := fun x hx => by
        refine ⟨fun hx' => ?_, (h.unlisted x hx).2⟩
        rcases hmem x hx' with rfl | hx'
        · exact hi.marked hx
        · exact (h.unlisted x hx).1 hx' }

lemma Inv.putInactive (hi : Unlisted s marked i) (huse : ¬ Mdb6.inUse (s.lease i).state) :
    Inv ((s.insertInactive i).addInactive 1) marked e := by
  obtain ⟨hperm, hsh⟩ := h.heaps.symm.insert s.leaseOlder hi.inactive hi.active
  set heap := iscHeapInsert s.leaseOlder (s.inactiveTimeouts, s.heapIndex) i
  have hmem : ∀ x, x ∈ heap.1 → x = i ∨ x ∈ s.inactiveTimeouts :=
    fun x hx => mem_cons.mp (hperm.mem_iff.mp hx)
  exact
    { h with
      inactive := by
        show s.numInactive + 1 = heap.1.length
        rw [hperm.length_eq, h.inactive]; simp
      heaps := hsh.symm
      notInUse := fun x hx => by
        rcases hmem x hx with rfl | hx
        · exact huse
        · exact h.notInUse x hx
      unlisted := fun x hx => by
        refine ⟨(h.unlisted x hx).1, fun hx' => ?_⟩
        rcases hmem x hx' with rfl | hx'
        · exact hi.marked hx
        · exact (h.unlisted x hx).2 hx' }

/-! ### One lease moves -/

omit h in
lemma countP_abandoned {l : List α} (h : ∀ x ∈ l, t.lease x = s.lease x) :
    l.countP t.abandoned = l.countP s.abandoned :=
  countP_congr fun x hx => by simp only [abandoned, h x hx]

lemma Inv.moveLeaseToActive (hi : i ∈ s.inactiveTimeouts)
    (hfree : s.hashLookup (s.lease i).addr = none) (ht : s.moveLeaseToActive i = some t) :
    Inv t marked e ∧ i ∈ t.activeTimeouts ∧ (t.lease i).state = .active := by
  obtain ⟨heap, hdel, ht⟩ := Option.bind_eq_some_iff.mp ht
  obtain ⟨hperm, hins, hsh⟩ := h.heaps.symm.transfer s.leaseOlder hi hdel
  -- the lease leaves its heap, takes its state and is put on the other heap
  obtain ⟨idx, hshare⟩ := h.heaps.left.share hsh.left fun x hx hx' =>
    h.heaps.disjoint x hx (hperm.mem_iff.mp (mem_cons_of_mem _ hx'))
  have h1 := h.dropInactive (heap.1, idx) hperm hshare
  have hun : Unlisted ((s.setInactive (heap.1, idx)).addInactive (-1)) marked i :=
    ⟨fun ha => h.heaps.disjoint i ha hi,
      (nodup_cons.mp (hperm.nodup_iff.mpr h.heaps.right.nodup)).1,
      fun hm => (h.unlisted i hm).2 hi⟩
  have h2 := h1.modify_unlisted hun fun l => { l with state := .active }
  have h3 := h2.putActive ⟨hun.active, hun.inactive, hun.marked⟩ (by rw [modify_self]; rfl)
    (by rw [modify_self]; exact hfree)
  have hins' older := (h2.heaps.insert older hun.active hun.inactive).1
  rw [← ite_addAbandoned, if_neg (by simp [State.abandoned, modify_self]), hashAdd,
    modify_self] at h3
  cases ht
  exact ⟨h3.rearrange rfl (hins.trans (hins' _).symm) (.refl _) hsh.symm
    (fun _ _ => ⟨rfl, rfl⟩) fun _ _ => rfl, hins.mem_iff.mpr mem_cons_self, by rw [modify_self]⟩

/-- The lease at the top can always be moved. -/
lemma Inv.exists_moveLeaseToInactive {x : α} (hx : s.activeTimeouts.head? = some x)
    (st : BindingState) : ∃ t, s.moveLeaseToInactive x st = some t := by
  obtain ⟨heap, hdel⟩ := exists_iscHeapDelete_top
    (h := (s.activeTimeouts, ((s.insertInactive x).hashDelete x).heapIndex)) s.leaseOlder hx
  rw [← h.heaps.left.index_top hx] at hdel
  exact ⟨_, congrArg (Option.bind · _) hdel⟩

/-- The state is overwritten before it is tested, so an abandoned lease stays counted. -/
lemma Inv.moveLeaseToInactive (hi : i ∈ s.activeTimeouts) {st : BindingState}
    (hst : ¬ Mdb6.inUse st) (ht : s.moveLeaseToInactive i st = some t) :
    Inv t marked (e + if s.abandoned i then 1 else 0) ∧
      (i :: t.activeTimeouts).Perm s.activeTimeouts ∧
      (∀ x, x ≠ i → t.lease x = s.lease x) ∧ t.curTime = s.curTime := by
  obtain ⟨heap, hdel, ht⟩ := Option.bind_eq_some_iff.mp ht
  obtain ⟨hperm, hins, hsh⟩ := h.heaps.transfer s.leaseOlder hi hdel
  obtain ⟨idx, hshare⟩ := hsh.left.share h.heaps.right fun x hx =>
    h.heaps.disjoint x (hperm.mem_iff.mp (mem_cons_of_mem _ hx))
  have h1 := h.dropActive (heap.1, idx) hperm hshare false
  rw [← ite_addAbandoned, if_neg Bool.false_ne_true, if_neg Bool.false_ne_true, sub_zero] at h1
  have hun : Unlisted (((s.setActive (heap.1, idx)).addActive (-1)).hashDelete i) marked i :=
    ⟨(nodup_cons.mp (hperm.nodup_iff.mpr h.heaps.left.nodup)).1, h.heaps.disjoint i hi,
      fun hm => (h.unlisted i hm).1 hi⟩
  have h2 := h1.modify_unlisted hun fun l => { l with state := st }
  have h3 := h2.putInactive ⟨hun.active, hun.inactive, hun.marked⟩ (by rw [modify_self]; exact hst)
  have hins' older := (h2.heaps.symm.insert older hun.inactive hun.active).1
  let u := (((((s.insertInactive i).hashDelete i).setActive heap).modify i fun l =>
    { l with state := st }).addActive (-1)).addInactive 1
  have hne : ¬ (u.lease i).state = .abandoned := by
    rw [addInactive_lease, addActive_lease, modify_self]
    exact fun (he : st = .abandoned) => hst (by rw [he]; rfl)
  obtain rfl : u = t := Option.some.inj ((congrArg some (if_neg hne)).symm.trans ht)
  refine ⟨h3.rearrange rfl (.refl _) (hins.trans (hins' _).symm) hsh
      (fun _ _ => ⟨rfl, rfl⟩) fun _ _ => rfl, hperm, fun x hx => ?_, rfl⟩
  rw [addInactive_lease, addActive_lease, modify_of_ne _ _ hx]
  rfl

end

end IscDhcp.Mdb6.State
