import IscDhcp.Basic
import Mathlib.Data.List.Nodup

/-!
The leases that the DHCPv4 client falls back on when no server answers (`state_panic` in
`dhclient.c`). Leases are told apart by their addresses in memory, as the code does it.
-/

namespace IscDhcp.Client4

open List

variable {ι : Type} (unexpired : ι → Bool) (script : ℕ → Bool)

/-- What is left by `state_panic`; `tried` are the leases that the script was run for. -/
structure Panic (ι : Type) where
  bound : Bool
  active : Option ι
  leases : List ι
  tried : List ι
  deriving DecidableEq, Repr

/-- The loop, with the active lease `a`; `script n` says whether the run after `n` others succeeds.
A lease that does not work goes to the end of the list. -/
def panicLoop [DecidableEq ι] (loop : ι) : ℕ → ι → List ι → List ι → Option (Panic ι)
  | 0, _, _, _ => none
  | n + 1, a, leases, tried =>
    if unexpired a && script tried.length then some ⟨true, some a, leases, tried ++ [a]⟩
    else
      let tried := if unexpired a then tried ++ [a] else tried
      match leases with
      | [] => some ⟨false, none, [a], tried⟩
      | b :: rest =>
        if b = loop then some ⟨false, some b, rest ++ [a], tried⟩
        else panicLoop loop n b (rest ++ [a]) tried

def statePanic [DecidableEq ι] : Option ι → List ι → Option (Panic ι)
  | some a, leases => panicLoop unexpired script a (leases.length + 1) a leases []
  | none, a :: leases => panicLoop unexpired script a (leases.length + 1) a leases []
  | none, [] => some ⟨false, none, [], []⟩

/-- What is to come out for the leases `ls`, in the order in which they are tried. -/
structure Panic.Falls (p : Panic ι) (ls : List ι) : Prop where
  same : (p.active.toList ++ p.leases).Perm ls
  tried : p.tried <+: ls.filter unexpired
  failed : ∀ k, k + 1 < p.tried.length → script k = false
  bound : p.bound = true → ∃ a t, p.active = some a ∧ p.tried = t ++ [a] ∧ script t.length = true
  exhausted : p.bound = false →
    p.tried = ls.filter unexpired ∧ ∀ k < p.tried.length, script k = false

variable {unexpired script}

lemma Panic.falls_bound {a : ι} {d post : List ι}
    (hd : ∀ k < (d.filter unexpired).length, script k = false)
    (hok : (unexpired a && script (d.filter unexpired).length) = true) :
    Falls unexpired script ⟨true, some a, post ++ d, d.filter unexpired ++ [a]⟩
      (d ++ a :: post) := by
  rw [Bool.and_eq_true] at hok
  refine ⟨?_, ?_, fun k hk => hd k ?_, fun _ => ⟨a, _, rfl, rfl, hok.2⟩, nofun⟩
  · exact @perm_append_comm _ (a :: post) d
  · simp [filter_append, hok.1]
  · simpa using hk

lemma Panic.falls_exhausted {active : Option ι} {leases ls : List ι}
    (hd : ∀ k < (ls.filter unexpired).length, script k = false)
    (hls : (active.toList ++ leases).Perm ls) :
    Falls unexpired script ⟨false, active, leases, ls.filter unexpired⟩ ls :=
  ⟨hls, prefix_rfl, fun k hk => hd k (by dsimp only at hk; omega), nofun, fun _ => ⟨rfl, hd⟩⟩

lemma tried_eq (a : ι) (d : List ι) :
    (if unexpired a then d.filter unexpired ++ [a] else d.filter unexpired) =
      (d ++ [a]).filter unexpired := by
  cases h : unexpired a <;> simp [h]

/-- The leases `d` have been tried, and the others are still to come. -/
lemma panicLoop_falls [DecidableEq ι] {loop a : ι} {d post : List ι} {n : ℕ}
    (hnd : (d ++ a :: post).Nodup)
    (hloop : (d ++ [a]).head? = some loop) (hn : post.length < n)
    (hd : ∀ k < (d.filter unexpired).length, script k = false) :
    ∃ p, panicLoop unexpired script loop n a (post ++ d) (d.filter unexpired) = some p ∧
      p.Falls unexpired script (d ++ a :: post) := by
  obtain ⟨n, rfl⟩ : ∃ k, n = k + 1 := ⟨n - 1, by omega⟩
  rw [panicLoop]
  by_cases hok : unexpired a && script (d.filter unexpired).length
  · rw [if_pos hok]
    exact ⟨_, rfl, Panic.falls_bound hd hok⟩
  rw [if_neg hok, tried_eq]
  have hd' : ∀ k < ((d ++ [a]).filter unexpired).length, script k = false := by
    cases ha : unexpired a
    · simpa [ha] using hd
    · intro k hk
      rcases Nat.lt_succ_iff_lt_or_eq.mp (by simpa [ha] using hk) with hk | rfl
      · exact hd k hk
      · simpa [ha] using hok
  cases post with
  | nil =>
    cases d with
    | nil => exact ⟨_, rfl, Panic.falls_exhausted hd' (.refl _)⟩
    | cons c d =>
      obtain rfl : c = loop := by simpa using hloop
      simp only [nil_append, if_pos]
      exact ⟨_, rfl, Panic.falls_exhausted hd' (by simp)⟩
  | cons b post =>
    have hb : b ≠ loop := by
      rintro rfl
      rw [append_cons, nodup_append] at hnd
      exact hnd.2.2 b (mem_of_mem_head? hloop) b mem_cons_self rfl
    simp only [cons_append, if_neg hb]
    have h := panicLoop_falls (a := b) (by simpa using hnd) (by rw [head?_append, hloop]; rfl)
      (Nat.lt_of_succ_lt_succ hn) hd'
    rwa [← append_assoc, append_assoc d] at h
termination_by post.length

/-- **Fallback**: whatever the script says, each unexpired lease is tried once at most, the active
one first; the client is bound to the first that works, and no lease is lost. -/
theorem statePanic_falls [DecidableEq ι] (unexpired : ι → Bool) (script : ℕ → Bool)
    (active : Option ι) (leases : List ι) (hnd : (active.toList ++ leases).Nodup) :
    ∃ p, statePanic unexpired script active leases = some p ∧
      p.Falls unexpired script (active.toList ++ leases) := by
  have start (a : ι) (ls : List ι) (hnd : (a :: ls).Nodup) :
      ∃ p, panicLoop unexpired script a (ls.length + 1) a ls [] = some p ∧
        p.Falls unexpired script (a :: ls) := by
    simpa using panicLoop_falls (d := []) hnd rfl (Nat.lt_succ_self _) nofun
  cases active with
  | some a => exact start a leases hnd
  | none =>
    cases leases with
    | nil => exact ⟨_, rfl, Panic.falls_exhausted (by simp) (.refl _)⟩
    | cons a leases => exact start a leases hnd

theorem statePanic_falls_sample : ∃ p, statePanic (· ≠ 2) (· = 1) (some 1) [2, 3] = some p ∧
    p.Falls (· ≠ 2) (· = 1) [1, 2, 3] :=
  statePanic_falls _ _ (some 1) [2, 3] (by decide)

end IscDhcp.Client4
