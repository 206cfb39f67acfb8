import IscDhcp.Db.LeaseFile

/-!
What the functions that write to the lease file do to it where none of them begins a new one: the
file grows, and unless there is an error on its stream, all that was written is in the file or in
the buffer.
-/

namespace IscDhcp.Db

open State List Option

/-! ### What a function returns does not depend on how deep the calls may go -/

section Mono

/-- Where the one returns, the other returns the same. -/
def Sub (x y : Result) : Prop := ∀ a, x = some a → y = some a

variable {x y : Result} {f g : State → Result} {rewrite rewrite' : Rewriter}

lemma Sub.refl (x : Result) : Sub x x := fun _ h => h

lemma Sub.bind {f g : Bool × State → Result} (h : Sub x y) (hf : ∀ a, Sub (f a) (g a)) :
    Sub (x.bind f) (y.bind g) := by
  intro a ha
  obtain ⟨b, hb, hab⟩ := bind_eq_some_iff.mp ha
  exact bind_eq_some_iff.mpr ⟨b, h b hb, hf b a hab⟩

lemma Sub.andThen (h : Sub x y) (hf : ∀ s, Sub (f s) (g s)) : Sub (x.andThen f) (y.andThen g) := by
  refine h.bind fun a => ?_
  split_ifs
  · exact hf a.2
  · exact .refl _

lemma Sub.map {f : Bool × State → Bool × State} (h : Sub x y) : Sub (x.map f) (y.map f) := by
  intro a ha
  obtain ⟨b, hb, hab⟩ := map_eq_some_iff.mp ha
  exact map_eq_some_iff.mpr ⟨b, h b hb, hab⟩

lemma Sub.ite {p : Prop} [Decidable p] (h : Sub x y) {z w : Result} (h' : Sub z w) :
    Sub (if p then x else z) (if p then y else w) := by
  split_ifs
  exacts [h, h']

lemma sub_writeAll {α : Type} {f g : α → State → Result} (h : ∀ a s, Sub (f a s) (g a s))
    (l : List α) (s : State) : Sub (writeAll f l s) (writeAll g l s) := by
  induction l generalizing s with
  | nil => exact .refl _
  | cons a l ih => exact (h a s).andThen ih

lemma sub_writeEach {α : Type} {f g : α → State → Result} (h : ∀ a s, Sub (f a s) (g a s))
    (l : List α) (s : State) : Sub (writeEach f l s) (writeEach g l s) := by
  induction l generalizing s with
  | nil => exact .refl _
  | cons a l ih => exact (h a s).bind fun r => ih r.2

variable (h : ∀ s, Sub (rewrite s) (rewrite' s))
variable (s : State)

include h

lemma sub_ensure : Sub (s.ensure rewrite) (s.ensure rewrite') := (h s).ite (.refl _)

lemma sub_writeLease {middle middle' : Rewriter} (hm : ∀ s, Sub (middle s) (middle' s))
    (l : LeaseEntry) (s : State) :
    Sub (s.writeLease rewrite middle l) (s.writeLease rewrite' middle' l) :=
  (sub_ensure h s).andThen fun _ => (hm _).map.ite (.refl _)

lemma sub_writeIa (i : Ia) (s : State) : Sub (s.writeIa rewrite i) (s.writeIa rewrite' i) :=
  (sub_ensure h s).andThen fun _ => .refl _

lemma sub_writeGroup (d : Declaration) (s : State) :
    Sub (s.writeGroup rewrite d) (s.writeGroup rewrite' d) :=
  (sub_ensure h s).andThen fun _ => .refl _

lemma sub_commitLeases : Sub (s.commitLeases rewrite) (s.commitLeases rewrite') :=
  Sub.andThen (.refl _) fun _ => Sub.andThen (.refl _) fun _ => (h _).map.ite (.refl _)

lemma sub_writeLeases : Sub (s.writeLeases rewrite) (s.writeLeases rewrite') := by
  have hgroup := sub_writeAll (sub_writeGroup h)
  refine ((((hgroup _ _).andThen (hgroup _)).andThen (sub_writeEach (sub_writeGroup h) _)).andThen
    (sub_writeAll (fun _ s => (sub_ensure h s).andThen fun _ => .refl _) _)).andThen
    (fun s => ?_) |>.andThen (sub_commitLeases h)
  split_ifs
  · exact (sub_writeEach (fun _ s => (sub_ensure h s).andThen fun _ => .refl _) _ s).andThen
      (sub_writeAll (sub_writeIa h) _)
  · exact sub_writeAll (sub_writeLease h h) _ s

lemma sub_newLeaseFileWith : Sub (s.newLeaseFileWith rewrite) (s.newLeaseFileWith rewrite') := by
  refine Sub.andThen (.refl _) fun s => Sub.map (Sub.andThen (Sub.andThen (.refl _) ?_) ?_)
  · exact fun s => sub_writeLeases h _
  · exact fun s => .refl _

lemma sub_run {middle middle' : Rewriter} (hm : ∀ s, Sub (middle s) (middle' s)) (c : Call)
    (s : State) : Sub (c.run rewrite middle s) (c.run rewrite' middle' s) := by
  cases c with
  | writeLease l => exact sub_writeLease h hm l s
  | writeIa i => exact sub_writeIa h i s
  | commitLeases => exact sub_commitLeases h s
  | newLeaseFile => exact h s
  | update m t => exact .refl _

end Mono

def never : Rewriter := fun _ => none

lemma sub_never (rewrite : Rewriter) (s : State) : Sub (never s) (rewrite s) := fun _ h => nomatch h

/-! ### Writing without a new lease file -/

/-- What was written to the stream and is not lost. -/
def State.text (s : State) : List Item := s.files.text s.dbFile

/-- Nothing is lost, of what was there and of what was written since. -/
structure Kept (s s' : State) : Prop where
  text : ∀ i ∈ s.text, i ∈ s'.text
  written : ∀ r ∈ s'.written, r ∈ s.written ∨ .record r ∈ s'.text

/-- From one state to the other records and declarations were written to the stream. -/
structure Wrote (s s' : State) : Prop where
  pours : s.files.Pours s.dbFile s'.files s'.dbFile
  memory : s'.memory = s.memory
  tick : s.tick ≤ s'.tick
  written : s.written ⊆ s'.written
  stamps : ∀ r ∈ s'.written, r ∈ s.written ∨ (s.tick ≤ r.stamp ∧ r.stamp < s'.tick)
  clear : s'.dbFile.error = false → s.dbFile.error = false ∧ Kept s s'

section Wrote

variable {s s1 s2 s' : State} {r : Bool}

lemma Kept.refl (s : State) : Kept s s := ⟨fun _ h => h, fun _ h => .inl h⟩

lemma Kept.trans (h : Kept s s1) (h' : Kept s1 s2) : Kept s s2 where
  text i hi := h'.text i (h.text i hi)
  written r hr := (h'.written r hr).elim
    (fun hr => (h.written r hr).imp_right (h'.text _)) .inr

lemma Wrote.refl (s : State) : Wrote s s where
  pours := ⟨rfl, rfl, rfl, fun _ _ => rfl, prefix_refl _⟩
  memory := rfl
  tick := Nat.le_refl _
  written := List.Subset.refl _
  stamps _ h := .inl h
  clear h := ⟨h, .refl s⟩

lemma Wrote.trans (h : Wrote s s1) (h' : Wrote s1 s2) : Wrote s s2 where
  pours := h.pours.trans h'.pours
  memory := h'.memory.trans h.memory
  tick := Nat.le_trans h.tick h'.tick
  written := List.Subset.trans h.written h'.written
  stamps r hr := by
    have ht := h.tick
    have ht' := h'.tick
    rcases h'.stamps r hr with hr | hr
    · exact (h.stamps r hr).imp_right fun hr => by omega
    · exact .inr (by omega)
  clear he := by
    obtain ⟨he1, hk1⟩ := h'.clear he
    obtain ⟨he0, hk0⟩ := h.clear he1
    exact ⟨he0, hk0.trans hk1⟩

lemma Wrote.flags (h : Wrote s s') (corrupt counting : Bool) (count : ℕ) (writeTime : Time) :
    Wrote s { s' with leaseFileIsCorrupt := corrupt, counting, count, writeTime } :=
  ⟨h.pours, h.memory, h.tick, h.written, h.stamps, fun he => (h.clear he).imp_right fun hk =>
    ⟨hk.text, hk.written⟩⟩

lemma text_fprintf {item : Item} (h : (s.fprintf item).2.dbFile.error = false) :
    s.dbFile.error = false ∧ (s.fprintf item).2.text = s.text ++ [item] :=
  (Files.fprintf_clear h).2

lemma wrote_fprintf (item : Item) (s : State) : Wrote s (s.fprintf item).2 where
  pours := Files.pours_fprintf
  memory := rfl
  tick := Nat.le_succ _
  written := List.Subset.refl _
  stamps _ h := .inl h
  clear he := by
    obtain ⟨he, ht⟩ := text_fprintf he
    refine ⟨he, fun i hi => ?_, fun _ h => .inl h⟩
    rw [ht]
    exact mem_append_left _ hi

lemma wrote_fflush (s : State) : Wrote s s.fflush.2 where
  pours := Files.pours_fflush
  memory := rfl
  tick := Nat.le_succ _
  written := List.Subset.refl _
  stamps _ h := .inl h
  clear he := by
    obtain ⟨he, ht⟩ := Files.fflush_clear he
    have ht : s.fflush.2.text = s.text := ht
    exact ⟨he, fun i hi => ht ▸ hi, fun _ h => .inl h⟩

lemma wrote_next (s : State) : Wrote s s.next :=
  ⟨⟨rfl, rfl, rfl, fun _ _ => rfl, prefix_refl _⟩, rfl, Nat.le_succ _, List.Subset.refl _,
    fun _ h => .inl h, fun h => ⟨h, fun _ h => h, fun _ h => .inl h⟩⟩

lemma wrote_fsync (s : State) : Wrote s s.fsync.2 := by
  rw [State.fsync]
  split_ifs
  · exact .refl s
  · exact wrote_next s

lemma wrote_put (item : Item) (printable : Bool) (s : State) : Wrote s
    (s.put item printable).2 := by
  rw [State.put]
  generalize (if printable = true then item else .torn) = item'
  split_ifs
  · exact wrote_fprintf item' s
  · exact (wrote_fprintf item' s).flags true _ _ _

lemma put_ok {item : Item} {printable : Bool} (h : (s.put item printable).1) :
    (s.put item printable).2 = (s.fprintf item).2 := by
  cases printable with
  | true =>
    rw [State.put] at h ⊢
    simp only [if_true] at h ⊢
    split_ifs at h ⊢
    rfl
  | false => simp [State.put] at h

lemma wrote_countUp (s : State) : Wrote s s.countUp := by
  rw [State.countUp]
  split_ifs
  · exact (Wrote.refl s).flags _ _ _ _
  · exact .refl s

/-- Where there is no error on the stream, a record that was written is in the file or in the
buffer. -/
lemma wrote_putRecord (e : Entry) (printable : Bool) (s : State) :
    Wrote s (s.putRecord e printable).2 := by
  rw [State.putRecord]
  split_ifs with hok
  · rw [put_ok hok]
    have h := wrote_fprintf (.record ⟨s.tick, e⟩) s
    refine ⟨h.pours, rfl, h.tick, subset_append_left _ _, fun r hr => ?_, fun he => ?_⟩
    · refine (mem_append.mp hr).imp_right fun hr => ?_
      rw [mem_singleton.mp hr]
      exact ⟨Nat.le_refl _, Nat.lt_succ_self _⟩
    · obtain ⟨he0, ht⟩ := text_fprintf he
      refine ⟨he0, (h.clear he).2.text, fun r hr => (mem_append.mp hr).imp_right fun hr => ?_⟩
      change .record r ∈ (s.fprintf _).2.text
      rw [ht, mem_singleton.mp hr]
      exact mem_append_right _ (mem_singleton_self _)
  · exact wrote_put _ _ s

lemma putRecord_ok {e : Entry} {printable : Bool} (h : (s.putRecord e printable).1) :
    ⟨s.tick, e⟩ ∈ (s.putRecord e printable).2.written := by
  rw [State.putRecord] at h ⊢
  split_ifs at h ⊢
  exact mem_append_right _ (mem_singleton_self _)

end Wrote

/-! ### The functions that write -/

lemma Result.andThen_eq_some {x : Result} {f : State → Result} {r : Bool} {s' : State} :
    x.andThen f = some (r, s') ↔
      (r = false ∧ x = some (false, s')) ∨ ∃ s1, x = some (true, s1) ∧ f s1 = some (r, s') := by
  rw [Result.andThen, bind_eq_some_iff]
  constructor
  · rintro ⟨⟨ok, s1⟩, hx, h⟩
    cases ok with
    | false =>
      cases h
      exact .inl ⟨rfl, hx⟩
    | true => exact .inr ⟨s1, hx, h⟩
  · rintro (⟨rfl, hx⟩ | ⟨s1, hx, h⟩)
    · exact ⟨_, hx, rfl⟩
    · exact ⟨_, hx, h⟩

/-- The function does nothing but write to the stream. -/
def Writes (f : State → Result) : Prop := ∀ s r s', f s = some (r, s') → Wrote s s'

def Memory.entries (m : Memory) : List Entry :=
  if m.dhcpv6 then m.ias.map .ia else (m.leases.filter (·.interesting)).map .lease

section Writes

variable {α : Type} {f g : State → Result} {write : α → State → Result}

lemma writes_some {f : State → Bool × State} (h : ∀ s, Wrote s (f s).2) :
    Writes fun s => some (f s) := by
  intro s r s' hs
  have hw := h s
  rwa [some.inj hs] at hw

lemma Writes.andThen (hf : Writes f) (hg : Writes g) : Writes fun s => (f s).andThen g := by
  intro s r s' hs
  rcases Result.andThen_eq_some.mp hs with ⟨-, hs⟩ | ⟨s1, h1, hs⟩
  · exact hf s _ s' hs
  · exact (hf s _ s1 h1).trans (hg s1 r s' hs)

lemma Writes.all (h : ∀ a, Writes (write a)) (l : List α) : Writes (writeAll write l) := by
  induction l with
  | nil => exact writes_some Wrote.refl
  | cons a l ih => exact (h a).andThen ih

lemma Writes.each (h : ∀ a, Writes (write a)) (l : List α) : Writes (writeEach write l) := by
  induction l with
  | nil => exact writes_some Wrote.refl
  | cons a l ih =>
    intro s r s' hs
    obtain ⟨⟨r1, s1⟩, h1, hs⟩ := bind_eq_some_iff.mp hs
    exact (h a s r1 s1 h1).trans (ih s1 r s' hs)

variable {s' s : State} {r : Bool}

lemma ensure_never (h : s.ensure never = some (r, s')) :
    s.leaseFileIsCorrupt = false ∧ r = true ∧ s' = s := by
  rw [State.ensure] at h
  split_ifs at h with hc
  · cases h
  · cases h
    exact ⟨by simpa using hc, rfl, rfl⟩

lemma writes_ensure : Writes (State.ensure never) := by
  intro s r s' h
  rw [(ensure_never h).2.2]
  exact .refl s

/-- Where the file is not corrupt no new one is written in the middle of a record. -/
lemma writeLease_never {l : LeaseEntry} (h : s.writeLease never never l = some (r, s')) :
    s.countUp.putRecord (.lease l) l.printable = (r, s') := by
  rcases Result.andThen_eq_some.mp h with ⟨-, h1⟩ | ⟨s1, h1, h2⟩
  · cases (ensure_never h1).2.1
  · obtain ⟨hc, -, rfl⟩ := ensure_never h1
    have hc' : s1.countUp.leaseFileIsCorrupt = false := by
      rw [State.countUp]
      split_ifs <;> exact hc
    simp only [hc'] at h2
    exact some.inj h2

lemma writes_writeLease (l : LeaseEntry) : Writes (State.writeLease never never l) := by
  intro s r s' h
  have h := (wrote_countUp s).trans (wrote_putRecord (.lease l) l.printable _)
  rwa [writeLease_never ‹_›] at h

lemma writes_writeIa (i : Ia) : Writes (State.writeIa never i) :=
  writes_ensure.andThen <| Writes.andThen
    (writes_some fun s => (wrote_countUp s).trans (wrote_putRecord _ _ _))
      (writes_some wrote_fflush)

lemma writes_writeGroup (d : Declaration) : Writes (State.writeGroup never d) := by
  refine writes_ensure.andThen fun s r s' h => ?_
  split_ifs at h
  · exact writes_some (fun s => (wrote_countUp s).trans (wrote_put _ _ _)) s r s' h
  · exact writes_some Wrote.refl s r s' h

lemma writes_writeFailoverState (d : Declaration) : Writes (State.writeFailoverState never d) :=
  writes_ensure.andThen (writes_some (wrote_put _ _))

lemma writes_writeServerDuid (d : Declaration) : Writes (State.writeServerDuid never d) :=
  writes_ensure.andThen ((writes_some (wrote_put _ _)).andThen (writes_some wrote_fflush))

lemma wrote_writeClasses (n : ℕ) (s : State) : Wrote s (s.writeClasses n) := by
  induction n generalizing s with
  | zero => exact .refl s
  | succ n ih => exact (wrote_fprintf _ s).trans (ih _)

lemma writes_writeHeader : Writes State.writeHeader :=
  Writes.all (fun item => writes_some (wrote_fprintf item)) _

/-- **Committing**: a flush that succeeds puts all in the file; then there may be a new one. -/
lemma commitLeases_cases {rewrite : Rewriter} (h : s.commitLeases rewrite = some (r, s')) :
    (r = false ∧ Wrote s s') ∨
      (r = true ∧ ∃ s1, Wrote s s1 ∧ s1.written = s.written ∧ s1.dbFile.buffer = [] ∧
        s1.files.content s1.dbFile.file = s.text ∧ (s' = s1 ∨ ∃ ok,
          rewrite { s1 with count := 0, writeTime := s1.curTime } = some (ok, s'))) := by
  rcases Result.andThen_eq_some.mp h with ⟨hr, h1⟩ | ⟨s1, h1, h⟩
  · have hw := wrote_fflush s
    rw [some.inj h1] at hw
    exact .inl ⟨hr, hw⟩
  have hw := wrote_fflush s
  obtain ⟨hbuf, htext⟩ := Files.fflush_ok (congrArg Prod.fst (some.inj h1))
  replace hbuf : s.fflush.2.dbFile.buffer = [] := hbuf
  replace htext : s.fflush.2.files.content s.dbFile.file = s.text := htext
  have hrec : s.fflush.2.written = s.written := rfl
  rw [some.inj h1] at hw hbuf htext hrec
  have hw' := hw.trans (wrote_fsync s1)
  have hsame : s1.fsync.2.files = s1.files ∧ s1.fsync.2.dbFile = s1.dbFile ∧
      s1.fsync.2.written = s1.written := by
    rw [State.fsync]
    split_ifs <;> exact ⟨rfl, rfl, rfl⟩
  rcases Result.andThen_eq_some.mp h with ⟨hr, h2⟩ | ⟨s2, h2, h⟩
  · rw [some.inj h2] at hw'
    exact .inl ⟨hr, hw'⟩
  rw [some.inj h2] at hw' hsame
  obtain ⟨hfiles, hstream, hwritten⟩ := hsame
  have hr : r = true ∧ (s' = s2 ∨ ∃ ok,
      rewrite { s2 with count := 0, writeTime := s2.curTime } = some (ok, s')) := by
    split_ifs at h
    · obtain ⟨⟨ok, s3⟩, h3, heq⟩ := map_eq_some_iff.mp h
      cases heq
      exact ⟨rfl, .inr ⟨ok, h3⟩⟩
    · cases h
      exact ⟨rfl, .inl rfl⟩
  refine .inr ⟨hr.1, s2, hw', hwritten.trans hrec, ?_, ?_, hr.2⟩
  · rw [hstream, hbuf]
  · rw [hfiles, hstream, hw.pours.file, htext]

lemma writes_commitLeases : Writes (State.commitLeases never) := by
  intro s r s' h
  rcases commitLeases_cases h with ⟨-, hw⟩ | ⟨-, s1, hw, -, -, -, rfl | ⟨ok, h⟩⟩
  · exact hw
  · exact hw
  · cases h

lemma writeAll_records {entry : α → Entry} (hw : ∀ a, Writes (write a))
    (hrec : ∀ a s s', write a s = some (true, s') → ∃ rec ∈ s'.written, rec.entry = entry a ∧
      s.tick ≤ rec.stamp)
    {l : List α} (h : writeAll write l s = some (true, s')) :
    ∀ a ∈ l, ∃ rec ∈ s'.written, rec.entry = entry a ∧ s.tick ≤ rec.stamp := by
  induction l generalizing s with
  | nil => exact fun a ha => absurd ha (not_mem_nil)
  | cons b l ih =>
    rcases Result.andThen_eq_some.mp h with ⟨hf, -⟩ | ⟨s1, h1, h2⟩
    · cases hf
    have hw1 := hw b s _ s1 h1
    intro a ha
    rcases mem_cons.mp ha with rfl | ha
    · obtain ⟨rec, hmem, he, ht⟩ := hrec a s s1 h1
      exact ⟨rec, (Writes.all hw l s1 _ s' h2).written hmem, he, ht⟩
    · obtain ⟨rec, hmem, he, ht⟩ := ih h2 a ha
      exact ⟨rec, hmem, he, Nat.le_trans hw1.tick ht⟩

lemma writeLease_record (l : LeaseEntry) (s s' : State)
    (h : s.writeLease never never l = some (true, s')) :
    ∃ rec ∈ s'.written, rec.entry = .lease l ∧ s.tick ≤ rec.stamp := by
  have hput := writeLease_never h
  have hmem := putRecord_ok (congrArg Prod.fst hput)
  rw [hput] at hmem
  exact ⟨_, hmem, rfl, (wrote_countUp s).tick⟩

lemma writeIa_record (i : Ia) (s s' : State) (h : s.writeIa never i = some (true, s')) :
    ∃ rec ∈ s'.written, rec.entry = .ia i ∧ s.tick ≤ rec.stamp := by
  rcases Result.andThen_eq_some.mp h with ⟨hf, -⟩ | ⟨s1, h1, h2⟩
  · cases hf
  obtain ⟨-, -, rfl⟩ := ensure_never h1
  rcases Result.andThen_eq_some.mp h2 with ⟨hf, -⟩ | ⟨s2, h3, h4⟩
  · cases hf
  have hput := some.inj h3
  have hmem := putRecord_ok (congrArg Prod.fst hput)
  rw [hput] at hmem
  have hflush := wrote_fflush s2
  rw [congrArg Prod.snd (some.inj h4)] at hflush
  exact ⟨_, hflush.written hmem, rfl, (wrote_countUp _).tick⟩

lemma writeLeases_entries (m : Memory) (h : (if m.dhcpv6 then writeLeases6 never m.serverDuid m.ias
      else writeLeases4 never m.leases) s = some (r, s')) :
    Wrote s s' ∧ (r = true → ∀ e ∈ m.entries,
        ∃ rec ∈ s'.written, rec.entry = e ∧ s.tick ≤ rec.stamp) := by
  cases hv : m.dhcpv6 with
  | true =>
    rw [hv, if_pos rfl] at h
    have hduid := Writes.each writes_writeServerDuid m.serverDuid.toList
    have hias := Writes.all writes_writeIa m.ias
    refine ⟨(hduid.andThen hias) s r s' h, ?_⟩
    rintro rfl e he
    rw [Memory.entries, if_pos hv] at he
    obtain ⟨i, hi, rfl⟩ := mem_map.mp he
    rcases Result.andThen_eq_some.mp h with ⟨hf, -⟩ | ⟨s1, h1, h2⟩
    · cases hf
    obtain ⟨rec, hmem, hrec, ht⟩ := writeAll_records writes_writeIa writeIa_record h2 i hi
    exact ⟨rec, hmem, hrec, Nat.le_trans (hduid s _ s1 h1).tick ht⟩
  | false =>
    rw [hv, if_neg Bool.false_ne_true] at h
    refine ⟨Writes.all writes_writeLease _ s r s' h, ?_⟩
    rintro rfl e he
    rw [Memory.entries, hv, if_neg Bool.false_ne_true] at he
    obtain ⟨l, hl, rfl⟩ := mem_map.mp he
    exact writeAll_records writes_writeLease writeLease_record h l hl

/-- **All leases are written**, and in the end the buffer is empty. -/
lemma writeLeases_never (h : s.writeLeases never = some (r, s')) :
    Wrote s s' ∧ (r = true → s'.dbFile.buffer = [] ∧ ∀ e ∈ s.memory.entries,
      ∃ rec ∈ s'.written, rec.entry = e ∧ s.tick ≤ rec.stamp) := by
  have hdecl : Writes fun s' => writeAll (writeGroup never) s.memory.groups
      (s'.writeClasses s.memory.classes)
      |>.andThen (writeAll (writeHost never) s.memory.deletedHosts)
      |>.andThen (writeEach (writeHost never) s.memory.dynamicHosts)
      |>.andThen (writeAll (writeFailoverState never) s.memory.failoverStates) := by
    refine ((Writes.andThen ?_ (Writes.all writes_writeGroup _)).andThen
      (Writes.each writes_writeGroup _)).andThen (Writes.all writes_writeFailoverState _)
    intro s1 r s2 h
    exact (wrote_writeClasses _ s1).trans (Writes.all writes_writeGroup _ _ r s2 h)
  rcases Result.andThen_eq_some.mp h with ⟨hr, h1⟩ | ⟨s2, h2, h3⟩
  · refine ⟨(hdecl.andThen fun s1 r s2 h => (writeLeases_entries s.memory h).1) s _ s' h1, ?_⟩
    rw [hr]
    exact nofun
  · have hcommit := writes_commitLeases s2 r s' h3
    rcases Result.andThen_eq_some.mp h2 with ⟨hf, -⟩ | ⟨s1, h1, h2⟩
    · cases hf
    have hw1 := hdecl s _ s1 h1
    obtain ⟨hw2, hrec⟩ := writeLeases_entries s.memory h2
    refine ⟨hw1.trans (hw2.trans hcommit), fun hr => ⟨?_, fun e he => ?_⟩⟩
    · rcases commitLeases_cases h3 with ⟨hf, -⟩ | ⟨-, s3, -, -, hbuf, -, rfl | ⟨ok, h⟩⟩
      · rw [hr] at hf
        cases hf
      · exact hbuf
      · cases h
    · obtain ⟨rec, hmem, he, ht⟩ := hrec rfl e he
      exact ⟨rec, hcommit.written hmem, he, Nat.le_trans hw1.tick ht⟩

end Writes

end IscDhcp.Db
