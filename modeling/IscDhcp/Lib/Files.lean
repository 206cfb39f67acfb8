import Mathlib.Tactic.Common

/-!
A directory of names, the files that they point to, and a stream that buffers what is written to
one of them. A call may fail; a failed write or flush leaves the stream with its error indicator
set, and what was in the buffer may be lost.
-/

/-- What befalls a call: it may fail, some of a buffer reaches the file, and what does not may be
kept. -/
structure Fate where
  fails : Bool := false
  moved : ℕ := 0
  keeps : Bool := false
  deriving DecidableEq, Repr

/-- The names `ν` point to files, which hold items `α`; files from `next` on do not exist yet. -/
structure Files (ν α : Type) where
  dir : ν → Option ℕ
  content : ℕ → List α
  next : ℕ

structure OutStream (α : Type) where
  file : ℕ
  buffer : List α := []
  error : Bool := false
  deriving DecidableEq, Repr

namespace Files

open Function

variable {ν α : Type} {d d' : Files ν α} {st st' : OutStream α} {a b : ν}
  {f n : ℕ} {fate : Fate} {item scrap : α}

/-! ### Streams -/

/-- What was written to the stream and is not lost. -/
def text (d : Files ν α) (st : OutStream α) : List α := d.content st.file ++ st.buffer

/-- The first `n` items of the buffer reach the file. -/
def pour (d : Files ν α) (st : OutStream α) (n : ℕ) : Files ν α × OutStream α :=
  ({ d with
      content := Function.update d.content st.file (d.content st.file ++ st.buffer.take n) },
    { st with buffer := st.buffer.drop n })

def fault (fate : Fate) (d : Files ν α) (st : OutStream α) : Files ν α × OutStream α :=
  let (d, st) := d.pour st fate.moved
  (d, { st with buffer := if fate.keeps then st.buffer else [], error := true })

def fflush (fate : Fate) (d : Files ν α) (st : OutStream α) : Bool × Files ν α × OutStream α :=
  if fate.fails then (false, d.fault fate st) else (true, d.pour st st.buffer.length)

/-- Of an item that cannot be written there is `scrap`. -/
def fprintf (fate : Fate) (item scrap : α) (d : Files ν α) (st : OutStream α) :
    Bool × Files ν α × OutStream α :=
  if fate.fails then (false, d.fault fate { st with buffer := st.buffer ++ [scrap] })
  else (true, d.pour { st with buffer := st.buffer ++ [item] } fate.moved)

/-- The stream is flushed; nobody asks whether that failed. -/
def fclose (fate : Fate) (d : Files ν α) (st : OutStream α) : Files ν α := (d.fflush fate st).2.1

/-- Only the file of the stream changes, and it grows. -/
structure Pours (d : Files ν α) (st : OutStream α) (d' : Files ν α) (st' : OutStream α) : Prop where
  dir : d'.dir = d.dir
  next : d'.next = d.next
  file : st'.file = st.file
  other : ∀ f, f ≠ st.file → d'.content f = d.content f
  grows : d.content st.file <+: d'.content st.file

lemma Pours.trans {d'' : Files ν α} {st'' : OutStream α} (h : Pours d st d' st')
    (h' : Pours d' st' d'' st'') : Pours d st d'' st'' where
  dir := h'.dir.trans h.dir
  next := h'.next.trans h.next
  file := h'.file.trans h.file
  other f hf := (h'.other f (h.file ▸ hf)).trans (h.other f hf)
  grows := h.grows.trans (h.file ▸ h'.grows)

lemma pours_pour : Pours d st (d.pour st n).1 (d.pour st n).2 where
  dir := rfl
  next := rfl
  file := rfl
  other f hf := update_of_ne hf _ _
  grows := by
    change _ <+: update d.content st.file _ st.file
    rw [update_self]
    exact List.prefix_append _ _

@[simp] lemma text_pour : (d.pour st n).1.text (d.pour st n).2 = d.text st := by
  simp [pour, text]

lemma pours_fault : Pours d st (d.fault fate st).1 (d.fault fate st).2 :=
  ⟨rfl, rfl, rfl, pours_pour.other, pours_pour.grows⟩

lemma pours_fflush : Pours d st (d.fflush fate st).2.1 (d.fflush fate st).2.2 := by
  rw [fflush]
  split_ifs
  · exact pours_fault
  · exact pours_pour

lemma Pours.of_buffer {l : List α} (h : Pours d { st with buffer := l } d' st') :
    Pours d st d' st' :=
  { h with }

lemma pours_fprintf : Pours d st (fprintf fate item scrap d st).2.1
    (fprintf fate item scrap d st).2.2 := by
  rw [fprintf]
  split_ifs
  · exact pours_fault.of_buffer
  · exact pours_pour.of_buffer

lemma fflush_ok (h : (d.fflush fate st).1) : (d.fflush fate st).2.2.buffer = [] ∧
      (d.fflush fate st).2.1.content st.file = d.text st := by
  rw [fflush] at h ⊢
  split_ifs at h ⊢
  exact ⟨List.drop_length, by simp [pour, text]⟩

lemma fflush_clear (h : (d.fflush fate st).2.2.error = false) :
    st.error = false ∧ (d.fflush fate st).2.1.text (d.fflush fate st).2.2 = d.text st := by
  rw [fflush] at h ⊢
  split_ifs at h ⊢
  · cases h
  · exact ⟨h, text_pour⟩

lemma fprintf_clear (h : (fprintf fate item scrap d st).2.2.error = false) :
    (fprintf fate item scrap d st).1 ∧ st.error = false ∧
      (fprintf fate item scrap d st).2.1.text (fprintf fate item scrap d st).2.2 =
        d.text st ++ [item] := by
  rw [fprintf] at h ⊢
  split_ifs at h ⊢
  · cases h
  · refine ⟨rfl, h, ?_⟩
    rw [text_pour, text, text, List.append_assoc]

lemma pours_fclose (fate : Fate) (d : Files ν α) (st : OutStream α) : (d.fclose fate st).dir =
    d.dir ∧ (d.fclose fate st).next = d.next ∧
    ∀ f, d.content f <+: (d.fclose fate st).content f := by
  have h : Pours d st (d.fclose fate st) (d.fflush fate st).2.2 := pours_fflush
  refine ⟨h.dir, h.next, fun f => ?_⟩
  by_cases hf : f = st.file
  · rw [hf]
    exact h.grows
  · exact (h.other f hf).symm ▸ List.prefix_refl _

/-! ### Names -/

variable [DecidableEq ν]

/-- `open` with `O_CREAT` and `O_TRUNC`: a file of that name is emptied, or made. -/
def create (d : Files ν α) (a : ν) : ℕ × Files ν α :=
  match d.dir a with
  | some f => (f, { d with content := Function.update d.content f [] })
  | none =>
    (d.next,
      { dir := Function.update d.dir a (some d.next)
        content := Function.update d.content d.next []
        next := d.next + 1 })

def unlink (d : Files ν α) (a : ν) : Files ν α := { d with dir := Function.update d.dir a none }

def link (d : Files ν α) (a b : ν) : Files ν α :=
  { d with dir := Function.update d.dir b (d.dir a) }

/-- The file `a` gets the name `b` instead, unless it has it already. -/
def rename (d : Files ν α) (a b : ν) : Files ν α :=
  if d.dir a = d.dir b then d
  else { d with dir := Function.update (Function.update d.dir b (d.dir a)) a none }

/-- The names in `S` point to files that exist, no two of them to the same. -/
structure Distinct (d : Files ν α) (S : Set ν) : Prop where
  lt : ∀ a ∈ S, ∀ f, d.dir a = some f → f < d.next
  inj : ∀ a ∈ S, ∀ b ∈ S, ∀ f, d.dir a = some f → d.dir b = some f → a = b

section Distinct

variable {S : Set ν}

omit [DecidableEq ν] in
lemma Pours.distinct (h : d.Pours st d' st') (hd : d.Distinct S) : d'.Distinct S :=
  ⟨fun a ha f hf => h.next ▸ hd.lt a ha f (h.dir ▸ hf), fun a ha b hb f hf hf' =>
    hd.inj a ha b hb f (h.dir ▸ hf) (h.dir ▸ hf')⟩

lemma create_dir_self : (d.create a).2.dir a = some (d.create a).1 := by
  rw [create]
  split
  · assumption
  · exact update_self _ _ _

lemma create_dir (h : b ≠ a) : (d.create a).2.dir b = d.dir b := by
  rw [create]
  split
  · rfl
  · exact update_of_ne h _ _

lemma create_content (h : f ≠ (d.create a).1) : (d.create a).2.content f = d.content f := by
  rw [create] at h ⊢
  split at h <;> exact update_of_ne h _ _

lemma unlink_dir (h : b ≠ a) : (d.unlink a).dir b = d.dir b := update_of_ne h _ _

lemma link_dir {c : ν} (h : c ≠ b) : (d.link a b).dir c = d.dir c := update_of_ne h _ _

lemma Distinct.create_ne (h : d.Distinct S) (ha : a ∈ S) (hb : b ∈ S) (hne : b ≠ a)
    (hf : d.dir b = some f) : f ≠ (d.create a).1 := by
  rw [Files.create]
  split
  · next g hg =>
    rintro rfl
    exact hne (h.inj b hb a ha f hf hg)
  · exact Nat.ne_of_lt (h.lt b hb f hf)

lemma Distinct.create (h : d.Distinct S) (ha : a ∈ S) : (d.create a).2.Distinct S := by
  rw [Files.create]
  split
  · exact ⟨h.lt, h.inj⟩
  · next hnone =>
    -- the new file is none of the old ones
    have hold {b : ν} (hb : b ∈ S) {f : ℕ} (hf : update d.dir a (some d.next) b = some f) :
        (b = a ∧ f = d.next) ∨ (b ≠ a ∧ d.dir b = some f ∧ f < d.next) := by
      by_cases hba : b = a
      · rw [hba, update_self] at hf
        exact .inl ⟨hba, (Option.some.inj hf).symm⟩
      · rw [update_of_ne hba] at hf
        exact .inr ⟨hba, hf, h.lt b hb f hf⟩
    refine ⟨fun b hb f hf => ?_, fun b hb c hc f hf hf' => ?_⟩
    · rcases hold hb hf with ⟨-, rfl⟩ | ⟨-, -, hlt⟩
      · exact Nat.lt_succ_self _
      · exact Nat.lt_succ_of_lt hlt
    · rcases hold hb hf with ⟨rfl, rfl⟩ | ⟨-, hb', hlt⟩ <;>
        rcases hold hc hf' with ⟨rfl, hfn⟩ | ⟨-, hc', hlt'⟩
      · rfl
      · omega
      · omega
      · exact h.inj b hb c hc f hb' hc'

lemma Distinct.unlink (h : d.Distinct S) : (d.unlink a).Distinct S := by
  have hold {b : ν} {f : ℕ} (hf : update d.dir a none b = some f) : d.dir b = some f := by
    by_cases hba : b = a
    · rw [hba, update_self] at hf
      cases hf
    · rwa [update_of_ne hba] at hf
  exact ⟨fun b hb f hf => h.lt b hb f (hold hf), fun b hb c hc f hf hf' =>
    h.inj b hb c hc f (hold hf) (hold hf')⟩

lemma Distinct.link (h : d.Distinct S) (hb : b ∉ S) : (d.link a b).Distinct S := by
  have hold {c : ν} (hc : c ∈ S) {f : ℕ} (hf : update d.dir b (d.dir a) c = some f) :
      d.dir c = some f := by
    rwa [update_of_ne (by rintro rfl; exact hb hc)] at hf
  exact ⟨fun c hc f hf => h.lt c hc f (hold hc hf), fun c hc e he f hf hf' =>
    h.inj c hc e he f (hold hc hf) (hold he hf')⟩

lemma Distinct.rename (h : d.Distinct S) (ha : a ∈ S) (hb : b ∈ S) : (d.rename a b).Distinct S := by
  rw [Files.rename]
  split_ifs
  · exact h
  -- a name that points to a file afterwards is the new one, or neither and pointed to it before
  · have hold {c : ν} {f : ℕ} (hf : update (update d.dir b (d.dir a)) a none c = some f) :
        c ≠ a ∧ ((c = b ∧ d.dir a = some f) ∨ (c ≠ b ∧ d.dir c = some f)) := by
      have hca : c ≠ a := by
        rintro rfl
        rw [update_self] at hf
        cases hf
      rw [update_of_ne hca] at hf
      by_cases hcb : c = b
      · rw [hcb, update_self] at hf
        exact ⟨hca, .inl ⟨hcb, hf⟩⟩
      · rw [update_of_ne hcb] at hf
        exact ⟨hca, .inr ⟨hcb, hf⟩⟩
    refine ⟨fun c hc f hf => ?_, fun c hc e he f hf hf' => ?_⟩
    · rcases hold hf with ⟨-, ⟨-, hf⟩ | ⟨-, hf⟩⟩
      · exact h.lt a ha f hf
      · exact h.lt c hc f hf
    · obtain ⟨hca, hc'⟩ := hold hf
      obtain ⟨hea, he'⟩ := hold hf'
      rcases hc' with ⟨rfl, hc'⟩ | ⟨hcb, hc'⟩ <;> rcases he' with ⟨rfl, he'⟩ | ⟨heb, he'⟩
      · rfl
      · exact absurd (h.inj e he a ha f he' hc') hea
      · exact absurd (h.inj c hc a ha f hc' he') hca
      · exact h.inj c hc e he f hc' he'

lemma rename_dir (hne : d.dir a ≠ d.dir b) (hab : a ≠ b) : (d.rename a b).dir b = d.dir a := by
  rw [rename, if_neg hne]
  change update (update d.dir b (d.dir a)) a none b = _
  rw [update_of_ne hab.symm, update_self]

end Distinct

end Files
