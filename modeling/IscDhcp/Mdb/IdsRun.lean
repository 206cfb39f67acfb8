import IscDhcp.Mdb.IdsInv

/-!
Sequences of calls that add leases to the chains of their clients and delete them again.
-/

namespace IscDhcp

open IscDhcp.Lib

variable {ι : Type} [DecidableEq ι] [Fintype ι]

namespace IdsRun

inductive Op (ι : Type)
  | uidHashAdd (i : ι)
  | uidHashDelete (i : ι)
  | hwHashAdd (i : ι)
  | hwHashDelete (i : ι)
  /-- The data of a lease changes. -/
  | write (i : ι) (l : Lease)

/-- The database, and the leases currently added to the two kinds of chains. -/
structure St (ι : Type) where
  db : Db ι
  uidAdded : Finset ι
  hwAdded : Finset ι

def step (s : St ι) : Op ι → St ι
  | .uidHashAdd i => { s with db := s.db.uidHashAdd i, uidAdded := insert i s.uidAdded }
  | .uidHashDelete i => { s with db := s.db.uidHashDelete i, uidAdded := s.uidAdded.erase i }
  | .hwHashAdd i => { s with db := s.db.hwHashAdd i, hwAdded := insert i s.hwAdded }
  | .hwHashDelete i => { s with db := s.db.hwHashDelete i, hwAdded := s.hwAdded.erase i }
  | .write i l => { s with db := s.db.setLease i l }

def run (s : St ι) (ops : List (Op ι)) : St ι := ops.foldl step s

/-- A lease is added only while it is not linked, and keeps its identifier while it is. -/
def Legal (s : St ι) : Op ι → Prop
  | .uidHashAdd i => i ∉ s.uidAdded
  | .hwHashAdd i => i ∉ s.hwAdded
  | .write i l => (i ∈ s.uidAdded → l.uid = (s.db.lease i).uid) ∧
      (i ∈ s.hwAdded → l.hardwareAddr = (s.db.lease i).hardwareAddr)
  | .uidHashDelete _ | .hwHashDelete _ => True

/-- The identifier of a lease that is added is not empty. -/
def Proper (s : St ι) : Op ι → Prop
  | .uidHashAdd i => s.db.uidKey i ≠ []
  | .hwHashAdd i => s.db.hwKey i ≠ []
  | _ => True

def AllSteps (P : St ι → Op ι → Prop) (s : St ι) : List (Op ι) → Prop
  | [] => True
  | op :: ops => P s op ∧ AllSteps P (step s op) ops

instance (s : St ι) : (op : Op ι) → Decidable (Legal s op)
  | .uidHashAdd i => inferInstanceAs (Decidable (i ∉ s.uidAdded))
  | .hwHashAdd i => inferInstanceAs (Decidable (i ∉ s.hwAdded))
  | .write i l => inferInstanceAs (Decidable ((i ∈ s.uidAdded → l.uid = (s.db.lease i).uid) ∧
      (i ∈ s.hwAdded → l.hardwareAddr = (s.db.lease i).hardwareAddr)))
  | .uidHashDelete _ | .hwHashDelete _ => inferInstanceAs (Decidable True)

instance (s : St ι) : (op : Op ι) → Decidable (Proper s op)
  | .uidHashAdd i => inferInstanceAs (Decidable (s.db.uidKey i ≠ []))
  | .hwHashAdd i => inferInstanceAs (Decidable (s.db.hwKey i ≠ []))
  | .write _ _ | .uidHashDelete _ | .hwHashDelete _ => inferInstanceAs (Decidable True)

instance decidableAllSteps {P : St ι → Op ι → Prop} [∀ s op, Decidable (P s op)] (s : St ι) :
    (ops : List (Op ι)) → Decidable (AllSteps P s ops)
  | [] => inferInstanceAs (Decidable True)
  | op :: ops =>
    have := decidableAllSteps (P := P) (step s op) ops
    inferInstanceAs (Decidable (P s op ∧ AllSteps P (step s op) ops))

structure Init (s : St ι) : Prop where
  uids : s.db.uids = {}
  hws : s.db.hws = {}
  uidAdded : s.uidAdded = ∅
  hwAdded : s.hwAdded = ∅

/-- The chain of `k` is finite and holds exactly the leases of `added` with this identifier,
each once, and the hash table has an entry iff there is such a lease. -/
def ChainExact (ids : Ids ι) (key : ι → Bytes) (added : Finset ι) (k : Bytes) : Prop :=
  ∃ l, Chain ids.next (ids.table.lookup doIdHash k) l ∧ l.Nodup ∧
    (∀ i, i ∈ l ↔ i ∈ added ∧ key i = k) ∧
    (ids.table.lookup doIdHash k = none ↔ ∀ i, ¬ (i ∈ added ∧ key i = k))

/-! ### The invariant of a run -/

lemma uidRefused_eq_false {k : Bytes} (h : k ≠ []) : uidRefused k = false := by
  simpa [uidRefused] using h

lemma hwRefused_eq_false {k : Bytes} (h : k ≠ []) (h' : infiniband k = false) :
    hwRefused k = false := by
  simpa [hwRefused, h'] using h

/-- An infiniband address is never linked. -/
def hwLinked (s : St ι) (i : ι) : Prop := i ∈ s.hwAdded ∧ infiniband (s.db.hwKey i) = false

structure Inv (s : St ι) : Prop where
  uids : ∃ chain, s.db.uids.Holds uidRefused s.db.uidKey (· ∈ s.uidAdded) chain
  hws : ∃ chain, s.db.hws.Holds hwRefused s.db.hwKey (hwLinked s) chain
  uidNe : ∀ i ∈ s.uidAdded, s.db.uidKey i ≠ []
  hwNe : ∀ i ∈ s.hwAdded, s.db.hwKey i ≠ []

lemma Init.inv {s : St ι} (h : Init s) : Inv s := by
  refine ⟨⟨fun _ => [], ?_⟩, ⟨fun _ => [], ?_⟩, by simp [h.uidAdded], by simp [h.hwAdded]⟩
  · rw [h.uids, h.uidAdded]
    exact ⟨HashTable.empty_wf, fun _ _ => rfl, by simp, fun _ _ => rfl⟩
  · rw [h.hws]
    exact ⟨HashTable.empty_wf, fun _ _ => rfl, by simp [hwLinked, h.hwAdded], fun _ _ => rfl⟩

lemma step_inv {s : St ι} {op : Op ι} (h : Inv s) (hop : Legal s op) (hp : Proper s op) :
    Inv (step s op) := by
  obtain ⟨⟨uchain, hu⟩, ⟨hchain, hh⟩, huNe, hhNe⟩ := h
  cases op with
  | uidHashAdd i =>
    obtain ⟨l1, l2, -, -, -, hadd⟩ :=
      hu.hashAdd s.db.lease ne_nil_of_uidRefused hop (uidRefused_eq_false hp)
    refine ⟨⟨_, hadd.congr (fun j => Finset.mem_insert) (fun _ _ => rfl) fun _ _ => rfl⟩,
      ⟨hchain, hh⟩, ?_, hhNe⟩
    simpa [step] using ⟨hp, huNe⟩
  | uidHashDelete i =>
    have hdel := hu.hashDelete (i := i) ne_nil_of_uidRefused
      fun j hj => uidRefused_eq_false (huNe j hj)
    exact ⟨⟨_, hdel.congr (fun j => Finset.mem_erase) (fun _ _ => rfl) fun _ _ => rfl⟩,
      ⟨hchain, hh⟩,
      fun j hj => huNe j (Finset.mem_of_mem_erase hj), hhNe⟩
  | hwHashAdd i =>
    have hne : ∀ j ∈ insert i s.hwAdded, s.db.hwKey j ≠ [] := by simpa using ⟨hp, hhNe⟩
    rw [step, Db.hwHashAdd]
    split_ifs with hib
    · refine ⟨⟨uchain, hu⟩, ⟨hchain, hh.congr (fun j => ?_) (fun _ _ => rfl) fun _ _ => rfl⟩, huNe,
        hne⟩
      -- the address is not hashed, and the lease not linked
      change j ∈ insert i s.hwAdded ∧ infiniband (s.db.hwKey j) = false ↔ hwLinked s j
      grind [hwLinked]
    · have hib : infiniband (s.db.hwKey i) = false := by simpa using hib
      obtain ⟨l1, l2, -, -, -, hadd⟩ := hh.hashAdd s.db.lease
        ne_nil_of_hwRefused (fun hl => hop hl.1) (hwRefused_eq_false hp hib)
      refine ⟨⟨uchain, hu⟩, ⟨_, hadd.congr (fun j => ?_) (fun _ _ => rfl) fun _ _ => rfl⟩, huNe,
        hne⟩
      change j ∈ insert i s.hwAdded ∧ infiniband (s.db.hwKey j) = false ↔ j = i ∨ hwLinked s j
      grind [hwLinked]
  | hwHashDelete i =>
    have hne : ∀ j ∈ s.hwAdded.erase i, s.db.hwKey j ≠ [] :=
      fun j hj => hhNe j (Finset.mem_of_mem_erase hj)
    rw [step, Db.hwHashDelete]
    split_ifs with hib
    · refine ⟨⟨uchain, hu⟩, ⟨hchain, hh.congr (fun j => ?_) (fun _ _ => rfl) fun _ _ => rfl⟩, huNe,
        hne⟩
      change j ∈ s.hwAdded.erase i ∧ infiniband (s.db.hwKey j) = false ↔ hwLinked s j
      grind [hwLinked]
    · have hdel := hh.hashDelete (i := i) ne_nil_of_hwRefused
        fun j hj => hwRefused_eq_false (hhNe j hj.1) hj.2
      refine ⟨⟨uchain, hu⟩, ⟨_, hdel.congr (fun j => ?_) (fun _ _ => rfl) fun _ _ => rfl⟩, huNe,
        hne⟩
      change j ∈ s.hwAdded.erase i ∧ infiniband (s.db.hwKey j) = false ↔ j ≠ i ∧ hwLinked s j
      grind [hwLinked]
  | write i l =>
    have hukey : ∀ j ∈ s.uidAdded, (s.db.setLease i l).uidKey j = s.db.uidKey j := by
      intro j hj
      by_cases hji : j = i
      · subst hji
        simp [Db.uidKey, Db.setLease, hop.1 hj]
      · simp [Db.uidKey, Db.setLease, hji]
    have hhkey : ∀ j ∈ s.hwAdded, (s.db.setLease i l).hwKey j = s.db.hwKey j := by
      intro j hj
      by_cases hji : j = i
      · subst hji
        simp [Db.hwKey, Db.setLease, hop.2 hj]
      · simp [Db.hwKey, Db.setLease, hji]
    refine ⟨⟨uchain, hu.congr (fun _ => Iff.rfl) hukey fun _ _ => rfl⟩,
      ⟨hchain, hh.congr (fun j => ?_) (fun j hj => hhkey j hj.1) fun _ _ => rfl⟩,
      fun j hj => ?_, fun j hj => ?_⟩
    · exact and_congr_right fun hj => by simp [step, hhkey j hj]
    · simpa [step, hukey j hj] using huNe j hj
    · simpa [step, hhkey j hj] using hhNe j hj

lemma run_inv {s : St ι} {ops : List (Op ι)} (h : Inv s) (hops : AllSteps Legal s ops)
    (hp : AllSteps Proper s ops) : Inv (run s ops) := by
  induction ops generalizing s with
  | nil => exact h
  | cons op ops ih => exact ih (step_inv h hops.1 hp.1) hops.2 hp.2

lemma chainExact_of_holds {refused : Bytes → Bool} {key : ι → Bytes} {linked : ι → Prop}
    {ids : Ids ι} {chain : Bytes → List ι} {added : Finset ι} {k : Bytes}
    (h : ids.Holds refused key linked chain) (hk : refused k = false)
    (hl : ∀ i, key i = k → (linked i ↔ i ∈ added)) : ChainExact ids key added k := by
  have hmem : ∀ i, i ∈ chain k ↔ i ∈ added ∧ key i = k := fun i => by
    rw [h.mem k hk i]
    exact and_congr_left fun hi => hl i hi
  refine ⟨chain k, h.seg k hk, (h.seg k hk).nodup, hmem, ?_⟩
  rw [h.lookup_eq hk, List.head?_eq_none_iff, List.eq_nil_iff_forall_not_mem]
  exact forall_congr' fun i => not_congr (hmem i)

/-- **The chains by identifier are exact**, for the identifiers that the finders look up: any
client identifier but the empty one, and any hardware address but the empty one and the lone
infiniband type. -/
theorem id_chains_exact {s : St ι} {ops : List (Op ι)} (h : Init s) (hops : AllSteps Legal s ops)
    (hp : AllSteps Proper s ops) :
    (∀ k, k ≠ [] → ChainExact (run s ops).db.uids (run s ops).db.uidKey (run s ops).uidAdded k) ∧
      ∀ k, k ≠ [] → k ≠ [htypeInfiniband] →
        ChainExact (run s ops).db.hws (run s ops).db.hwKey (run s ops).hwAdded k := by
  obtain ⟨⟨uchain, hu⟩, ⟨hchain, hh⟩, -, -⟩ := run_inv h.inv hops hp
  refine ⟨fun k hk => chainExact_of_holds hu (uidRefused_eq_false hk) fun _ _ => Iff.rfl,
    fun k hk hib => ?_⟩
  have hib' : infiniband k = false := by simpa [infiniband] using hib
  refine chainExact_of_holds hh (hwRefused_eq_false hk hib') fun i hi => ?_
  simp [hwLinked, hi, hib']

/-- Three leases of a client, the first of which is deleted again. -/
theorem id_chains_exact_sample :
    let s : St (Fin 3) := ⟨{ lease := fun _ => { uid := some [1, 2] } }, ∅, ∅⟩
    let ops : List (Op (Fin 3)) := [.uidHashAdd 0, .uidHashAdd 1, .uidHashAdd 2, .uidHashDelete 1]
    (∀ k, k ≠ [] → ChainExact (run s ops).db.uids (run s ops).db.uidKey (run s ops).uidAdded k) ∧
      ∀ k, k ≠ [] → k ≠ [htypeInfiniband] →
        ChainExact (run s ops).db.hws (run s ops).db.hwKey (run s ops).hwAdded k :=
  id_chains_exact ⟨rfl, rfl, rfl, rfl⟩ (by decide) (by decide)

/-- The guards of the source: a lease added with an infiniband address is in no chain, and the
entry of an empty client identifier stays in the hash table when its lease is deleted. -/
theorem id_chains_guarded :
    let s : St (Fin 1) :=
      ⟨{ lease := fun _ => { uid := some [], hardwareAddr := [htypeInfiniband] } }, ∅, ∅⟩
    AllSteps Legal s [.hwHashAdd 0, .uidHashAdd 0, .uidHashDelete 0] ∧
      let t := run s [.hwHashAdd 0, .uidHashAdd 0, .uidHashDelete 0]
      ¬ ChainExact t.db.hws t.db.hwKey t.hwAdded [htypeInfiniband] ∧
        ¬ ChainExact t.db.uids t.db.uidKey t.uidAdded [] := by
  refine ⟨by decide, ?_, ?_⟩
  · rintro ⟨l, -, -, -, h⟩
    exact h.mp rfl 0 (by decide)
  · rintro ⟨l, -, -, -, h⟩
    exact absurd (h.mpr (by decide)) (by decide)

end IdsRun

end IscDhcp
