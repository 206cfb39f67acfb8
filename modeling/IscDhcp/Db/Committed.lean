import IscDhcp.Db.Writes

/-!
Committed leases stay in the lease file, as long as leases are only committed to the file that has
its name and on a stream without an error, and a new lease file is not begun while another one is
being written.

`new_lease_file` writes on to the new file from the moment it is open. If it then fails, the new
file loses its name but remains the one that is written to, and what is committed from then on is
in no file of the directory.
-/

namespace IscDhcp.Db

open State List Option

/-! ### What is asked for -/

/-- For every record the file has that record or a later one of the same lease. -/
def Represents (file : List Item) (recs : List Record) : Prop :=
  ∀ r ∈ recs, ∃ r', .record r' ∈ file ∧ r'.entry.key = r.entry.key ∧ r.stamp ≤ r'.stamp

def State.leaseFile (s : State) : List Item := ((s.files.dir .path).map s.files.content).getD []

/-- The file that is written to is the one of the name `path_dhcpd_db`. -/
def State.Attached (s : State) : Prop := s.files.dir .path = some s.dbFile.file

/-- Every lease with a record goes into a new lease file. -/
def State.Keeps (s : State) : Prop :=
  ∀ r ∈ s.written, ∃ e ∈ s.memory.entries, e.key = r.entry.key

instance (s : State) : Decidable s.Attached := by unfold State.Attached; infer_instance

instance (s : State) : Decidable s.Keeps := by unfold State.Keeps; infer_instance

/-- A new lease file with every lease that has a record, begun in no other one, and without an
error on its stream if it is put in place. -/
def soundRewrite : Rewriter := fun s =>
  if s.Keeps then (newLeaseFileWith never s).filter fun r => !r.1 || !r.2.dbFile.error else none

/-- The call writes a new lease file only at its outset, and soundly; and leases are committed only
to the file with the name, on a stream without an error. -/
def Call.Sound (c : Call) (s : State) : Prop :=
  (c.run soundRewrite never s).isSome ∧
    match c with
    | .commitLeases => s.Attached ∧ s.dbFile.error = false
    | _ => True

/-- The records that are committed after a call. -/
def Call.committed (c : Call) (r : Bool) (s : State) (com : List Record) : List Record :=
  match c, r with
  | .commitLeases, true => s.written
  | _, _ => com

/-- The states that are reached by sound calls, each with the records that had been written when
leases were last committed. -/
inductive Reach (s₀ : State) : State → List Record → Prop
  | start : Reach s₀ s₀ []
  | step {s s' : State} {com : List Record} {c : Call} {r : Bool} {n : ℕ} : Reach s₀ s com →
      c.Sound s → c.run (newLeaseFile n) (newLeaseFile n) s = some (r, s') →
      Reach s₀ s' (c.committed r s com)

lemma sub_soundRewrite (n : ℕ) (s : State) : Sub (soundRewrite s) (newLeaseFile (n + 1) s) := by
  intro a ha
  rw [soundRewrite] at ha
  split_ifs at ha
  exact sub_newLeaseFileWith (sub_never _) s a (eq_some_of_filter_eq_some ha)

/-- A sound call returns what it returns where no new lease file is begun in another one. -/
lemma Call.Sound.run_eq {c : Call} {s s' : State} {r : Bool} {n : ℕ} (h : c.Sound s)
    (hrun : c.run (State.newLeaseFile n) (State.newLeaseFile n) s = some (r, s')) :
    c.run soundRewrite never s = some (r, s') := by
  cases n with
  | zero => exact sub_run (sub_never soundRewrite) (sub_never never) c s _ hrun
  | succ n =>
    obtain ⟨a, ha⟩ := isSome_iff_exists.mp h.1
    have := sub_run (sub_soundRewrite n) (sub_never (State.newLeaseFile (n + 1))) c s a ha
    rw [ha, ← some.inj (this.symm.trans hrun)]

/-! ### The invariant -/

/-- The names that are kept apart: all but that of the backup. -/
def apart : Set Name := { a | a ≠ .backup }

lemma path_mem_apart : Name.path ∈ apart := nofun

lemma path_ne_temp (t : Time) : Name.path ≠ .temp t := nofun

lemma temp_mem_apart (t : Time) : Name.temp t ∈ apart := nofun

lemma backup_notMem_apart : Name.backup ∉ apart := fun h => h rfl

structure Inv (s : State) (com : List Record) : Prop where
  distinct : s.files.Distinct apart
  stamps : ∀ r ∈ s.written, r.stamp < s.tick
  committed : com ⊆ s.written
  kept : Represents s.leaseFile com
  attached : s.Attached → s.dbFile.error = false → Represents s.text s.written

section Inv

variable {s s' : State} {com : List Record} {recs recs' : List Record} {file file' : List Item}

lemma Represents.mono (h : Represents file recs) (hf : ∀ i ∈ file, i ∈ file') :
    Represents file' recs := by
  intro r hr
  obtain ⟨r', hmem, hkey⟩ := h r hr
  exact ⟨r', hf _ hmem, hkey⟩

lemma leaseFile_of_dir {f : ℕ} (h : s.files.dir .path = some f) :
    s.leaseFile = s.files.content f := by
  rw [State.leaseFile, h]
  rfl

lemma mem_leaseFile (hdir : s'.files.dir .path = s.files.dir .path)
    (hgrow : ∀ f, s.files.dir .path = some f → s.files.content f <+: s'.files.content f) :
    ∀ i ∈ s.leaseFile, i ∈ s'.leaseFile := by
  intro i hi
  cases hf : s.files.dir .path with
  | none =>
    rw [State.leaseFile, hf] at hi
    cases hi
  | some f =>
    rw [leaseFile_of_dir hf] at hi
    rw [leaseFile_of_dir (hdir.trans hf)]
    exact (hgrow f hf).subset hi

lemma Inv.wrote (h : Inv s com) (hw : Wrote s s') : Inv s' com where
  distinct := hw.pours.distinct h.distinct
  stamps r hr := by
    rcases hw.stamps r hr with hr | hr
    · exact Nat.lt_of_lt_of_le (h.stamps r hr) hw.tick
    · exact hr.2
  committed := List.Subset.trans h.committed hw.written
  kept := by
    refine h.kept.mono (mem_leaseFile (congrFun hw.pours.dir _) fun f _ => ?_)
    by_cases hf : f = s.dbFile.file
    · rw [hf]
      exact hw.pours.grows
    · exact (hw.pours.other f hf).symm ▸ prefix_refl _
  attached ha he := by
    obtain ⟨he0, hk⟩ := hw.clear he
    have ha0 : s.Attached := by
      rw [State.Attached, ← hw.pours.file, ← hw.pours.dir]
      exact ha
    have hold := h.attached ha0 he0
    intro r hr
    rcases hk.written r hr with hr | hr
    · exact hold.mono hk.text r hr
    · exact ⟨r, hr, rfl, Nat.le_refl _⟩

/-- Only names other than that of the lease file change. -/
structure Shuffles (s s' : State) : Prop where
  content : s'.files.content = s.files.content
  path : s'.files.dir .path = s.files.dir .path
  distinct : s.files.Distinct apart → s'.files.Distinct apart
  dbFile : s'.dbFile = s.dbFile
  written : s'.written = s.written
  tick : s.tick ≤ s'.tick

lemma Inv.shuffles (h : Inv s com) (hs : Shuffles s s') : Inv s' com where
  distinct := hs.distinct h.distinct
  stamps r hr := Nat.lt_of_lt_of_le (h.stamps r (hs.written ▸ hr)) hs.tick
  committed := hs.written ▸ h.committed
  kept := h.kept.mono (mem_leaseFile hs.path fun f _ =>
    congrFun hs.content.symm f ▸ prefix_refl _)
  attached ha he := by
    have htext : s'.text = s.text := by
      rw [State.text, State.text, Files.text, Files.text, hs.content, hs.dbFile]
    rw [htext, hs.written]
    refine h.attached ?_ (hs.dbFile ▸ he)
    rw [State.Attached, ← hs.dbFile, ← hs.path]
    exact ha

lemma shuffles_next (s : State) : Shuffles s s.next :=
  ⟨rfl, rfl, id, rfl, rfl, Nat.le_succ _⟩

lemma Shuffles.trans {s₁ s₂ : State} (h : Shuffles s s₁) (h' : Shuffles s₁ s₂) : Shuffles s s₂ :=
  ⟨h'.content.trans h.content, h'.path.trans h.path, fun hd => h'.distinct (h.distinct hd),
    h'.dbFile.trans h.dbFile, h'.written.trans h.written, Nat.le_trans h.tick h'.tick⟩

lemma shuffles_unlinkQuietly (t : Time) (s : State) : Shuffles s (s.unlinkQuietly (.temp t)) := by
  rw [State.unlinkQuietly]
  refine ⟨?_, ?_, fun hd => ?_, rfl, rfl, Nat.le_succ _⟩ <;> dsimp only <;> split_ifs
  · rfl
  · rfl
  · rfl
  · exact Files.unlink_dir (path_ne_temp t)
  · exact hd
  · exact hd.unlink

/-- Only the name of the backup changes. -/
structure Backs (s s' : State) : Prop extends Shuffles s s' where
  names : ∀ a ∈ apart, s'.files.dir a = s.files.dir a

lemma Backs.trans {s₁ s₂ : State} (h : Backs s s₁) (h' : Backs s₁ s₂) : Backs s s₂ :=
  ⟨h.toShuffles.trans h'.toShuffles, fun a ha => (h'.names a ha).trans (h.names a ha)⟩

lemma backs_unlink (s : State) : Backs s (s.unlink .backup).2 := by
  rw [State.unlink]
  split_ifs
  · exact ⟨shuffles_next s, fun _ _ => rfl⟩
  · have hnames : ∀ a ∈ apart, (s.files.unlink .backup).dir a = s.files.dir a :=
      fun a ha => Files.unlink_dir ha
    exact ⟨⟨rfl, hnames .path path_mem_apart, fun hd => hd.unlink, rfl, rfl, Nat.le_succ _⟩, hnames⟩

lemma backs_link (s : State) : Backs s (s.link .path .backup).2 := by
  rw [State.link]
  split_ifs
  · exact ⟨shuffles_next s, fun _ _ => rfl⟩
  · exact ⟨shuffles_next s, fun _ _ => rfl⟩
  · exact ⟨shuffles_next s, fun _ _ => rfl⟩
  · have hnames : ∀ a ∈ apart, (s.files.link .path .backup).dir a = s.files.dir a :=
      fun a ha => Files.link_dir ha
    exact ⟨⟨rfl, hnames .path path_mem_apart, fun hd => hd.link backup_notMem_apart, rfl, rfl,
      Nat.le_succ _⟩, hnames⟩

variable {r : Bool}

/-- **The new file moves in**, or the name of the lease file stays where it was. -/
lemma install_cases {t : Time} (h : s.install t = some (r, s')) :
    (r = false ∧ Shuffles s s') ∨ (r = true ∧ ∃ s₁, Backs s s₁ ∧ (s₁.files.dir (.temp t)).isSome ∧
      s' = { s₁.next with files := s₁.files.rename (.temp t) .path }) := by
  rcases Result.andThen_eq_some.mp h with ⟨hr, h1⟩ | ⟨s₁, h1, h2⟩
  · rcases Result.andThen_eq_some.mp h1 with ⟨-, h1⟩ | ⟨s₁, h1, h2⟩
    · have hb := backs_unlink s
      rw [some.inj h1] at hb
      exact .inl ⟨hr, hb.toShuffles⟩
    · have hb := backs_unlink s
      have hb' := backs_link s₁
      rw [some.inj h1] at hb
      rw [some.inj h2] at hb'
      exact .inl ⟨hr, hb.toShuffles.trans hb'.toShuffles⟩
  · rcases Result.andThen_eq_some.mp h1 with ⟨hf, -⟩ | ⟨s0, h0, h1⟩
    · cases hf
    have hb := backs_unlink s
    have hb' := backs_link s0
    rw [some.inj h0] at hb
    rw [some.inj h1] at hb'
    have hbacks : Backs s s₁ := hb.trans hb'
    replace h2 := some.inj h2
    rw [State.rename] at h2
    split_ifs at h2 with hfail
    · cases h2
      exact .inl ⟨rfl, hbacks.toShuffles.trans (shuffles_next s₁)⟩
    · cases h2
      refine .inr ⟨rfl, s₁, hbacks, ?_, rfl⟩
      rw [isSome_iff_ne_none]
      exact fun hnone => hfail (.inr (isNone_iff_eq_none.mpr hnone))

def State.create (t : Time) (s : State) : State :=
  { s.next with files := (s.files.create (.temp t)).2 }

section

variable (h : Inv s com)

include h

lemma Inv.create (t : Time) : Inv (s.create t) com where
  distinct := h.distinct.create (temp_mem_apart t)
  stamps r hr := Nat.lt_succ_of_lt (h.stamps r hr)
  committed := h.committed
  kept := by
    refine h.kept.mono (mem_leaseFile (Files.create_dir (path_ne_temp t)) fun f hf => ?_)
    have hne := h.distinct.create_ne (temp_mem_apart t) path_mem_apart (path_ne_temp t) hf
    exact (Files.create_content hne).symm ▸ prefix_refl _
  attached ha he := by
    have ha0 : s.Attached := (Files.create_dir (path_ne_temp t)).symm.trans ha
    have hne := h.distinct.create_ne (temp_mem_apart t) path_mem_apart (path_ne_temp t) ha0
    have htext : (s.create t).text = s.text := by
      rw [State.text, State.text, Files.text, Files.text]
      exact congrArg (· ++ s.dbFile.buffer) (Files.create_content hne)
    rw [htext]
    exact h.attached ha0 he

lemma Inv.switch {f : ℕ} (t : Time) (hf : s.files.dir (.temp t) = some f) :
    Inv { s.next.next with
      files := s.next.files.fclose s.next.fate s.next.dbFile, dbFile := { file := f } } com := by
  obtain ⟨hdir, hnext, hgrow⟩ := Files.pours_fclose s.next.fate s.files s.dbFile
  have hold (a : Name) (g : ℕ) (hg : (s.files.fclose s.next.fate s.dbFile).dir a = some g) :
      s.files.dir a = some g := by rwa [hdir] at hg
  refine ⟨⟨fun a ha g hg => ?_, fun a ha b hb g hg hg' => ?_⟩, fun r hr => ?_, h.committed, ?_,
    fun ha => ?_⟩
  · exact Nat.lt_of_lt_of_eq (h.distinct.lt a ha g (hold a g hg)) hnext.symm
  · exact h.distinct.inj a ha b hb g (hold a g hg) (hold b g hg')
  · exact Nat.lt_of_lt_of_le (h.stamps r hr) (Nat.le_add_right s.tick 2)
  · exact h.kept.mono (mem_leaseFile (congrFun hdir _) fun f _ => hgrow f)
  -- the new file has another name
  · exact absurd (h.distinct.inj _ path_mem_apart _ (temp_mem_apart t) f (hold _ f ha) hf)
      (path_ne_temp t)

/-- **The new file is opened**: before that nothing changes; afterwards it is written to, and it is
not the lease file. -/
lemma openNew_cases {t : Time} (ho : s.openNew t = (r, s')) :
    Inv s' com ∧ s'.written = s.written ∧ s'.memory = s.memory ∧ s.tick ≤ s'.tick ∧
      (r = true → s'.files.dir (.temp t) = some s'.dbFile.file) := by
  have hc := h.create t
  rw [State.openNew] at ho
  split_ifs at ho with hfail
  · cases ho
    exact ⟨h.shuffles (shuffles_next s), rfl, rfl, Nat.le_succ _, nofun⟩
  · change (if (s.create t).fate.fails = true then _ else _) = _ at ho
    split_ifs at ho with hfail'
    · cases ho
      have hs := (shuffles_next (s.create t)).trans (shuffles_unlinkQuietly t (s.create t).next)
      exact ⟨hc.shuffles hs, rfl, rfl, Nat.le_trans (Nat.le_succ _) hs.tick, nofun⟩
    · cases ho
      refine ⟨hc.switch t Files.create_dir_self, rfl, rfl, ?_, fun _ => ?_⟩
      · exact Nat.le_add_right s.tick 3
      · exact (congrFun (Files.pours_fclose _ _ _).1 _).trans Files.create_dir_self

omit h in
lemma represents_new {s₀ : State} (hstamps : ∀ r ∈ s₀.written, r.stamp < s₀.tick)
    (hkeeps : s₀.Keeps) (hw : Wrote s s') (hwritten : s.written = s₀.written)
    (hmemory : s.memory = s₀.memory) (htick : s₀.tick ≤ s.tick)
    (herror : s'.dbFile.error = false) (hrec : ∀ e ∈ s.memory.entries,
      ∃ rec ∈ s'.written, rec.entry = e ∧ s.tick ≤ rec.stamp) :
    Represents s'.text s'.written := by
  have hkept := (hw.clear herror).2
  intro r hr
  rcases hkept.written r hr with hr | hr
  · rw [hwritten] at hr
    obtain ⟨e, he, hkey⟩ := hkeeps r hr
    obtain ⟨r', hr', hentry, ht⟩ := hrec e (hmemory ▸ he)
    have hlt := hstamps r hr
    rcases hkept.written r' hr' with hold | hnew
    · rw [hwritten] at hold
      have := hstamps r' hold
      omega
    · exact ⟨r', hnew, by rw [hentry, hkey], by omega⟩
  · exact ⟨r, hr, rfl, Nat.le_refl _⟩

lemma Inv.flags (corrupt counting : Bool) (count : ℕ) (writeTime : Time) :
    Inv { s with leaseFileIsCorrupt := corrupt, counting, count, writeTime } com :=
  { h with }

lemma Inv.abandon (t : Time) (validity : Bool) : Inv (s.abandon t validity) com :=
  (h.flags validity s.counting s.count s.writeTime).shuffles (shuffles_unlinkQuietly t _)

lemma Inv.install {s₁ : State} {t : Time} (hb : Backs s s₁)
    (hdir : s.files.dir (.temp t) = some s.dbFile.file) (hbuf : s.dbFile.buffer = [])
    (hrep : Represents s.text s.written) :
    Inv { s₁.next with files := s₁.files.rename (.temp t) .path } com := by
  have hinv := h.shuffles hb.toShuffles
  have hdir1 : s₁.files.dir (.temp t) = some s₁.dbFile.file := by
    rw [hb.names _ (temp_mem_apart t), hb.dbFile, hdir]
  have hne : s₁.files.dir (.temp t) ≠ s₁.files.dir .path := fun heq =>
    path_ne_temp t (hinv.distinct.inj _ path_mem_apart _ (temp_mem_apart t) _
      (heq.symm.trans hdir1) hdir1)
  have hpath : (s₁.files.rename (.temp t) .path).dir .path = some s₁.dbFile.file := by
    rw [Files.rename_dir hne (path_ne_temp t).symm, hdir1]
  have hcontent : (s₁.files.rename (.temp t) .path).content = s.files.content := by
    rw [Files.rename, if_neg hne]
    exact hb.content
  have hfile : State.leaseFile { s₁.next with files := s₁.files.rename (.temp t) .path } =
    s.text := by
    rw [leaseFile_of_dir hpath, State.text, Files.text, hbuf, append_nil, ← hb.dbFile]
    exact congrFun hcontent _
  have htext : State.text { s₁.next with files := s₁.files.rename (.temp t) .path } = s.text := by
    rw [State.text, State.text, Files.text, Files.text, ← hb.dbFile]
    exact congrArg (· ++ s₁.dbFile.buffer) (congrFun hcontent _)
  refine ⟨hinv.distinct.rename (temp_mem_apart t) path_mem_apart, fun r hr => ?_, hinv.committed,
    ?_, fun _ _ => ?_⟩
  · exact Nat.lt_succ_of_lt (hinv.stamps r hr)
  · rw [hfile]
    exact fun r hr => hrep r (h.committed hr)
  · rw [htext]
    change Represents s.text s₁.written
    rwa [hb.written]

omit h in
lemma fill_cases (h : (s.writeHeader.andThen fun s =>
      writeLeases never { s with leaseFileIsCorrupt := false, counting := false }) = some (r, s')) :
    Wrote s s' ∧ (r = true → s'.dbFile.buffer = [] ∧ ∀ e ∈ s.memory.entries,
      ∃ rec ∈ s'.written, rec.entry = e ∧ s.tick ≤ rec.stamp) := by
  rcases Result.andThen_eq_some.mp h with ⟨hr, h1⟩ | ⟨s1, h1, h2⟩
  · refine ⟨writes_writeHeader s _ s' h1, fun htrue => ?_⟩
    rw [hr] at htrue
    cases htrue
  · have hw := (writes_writeHeader s _ s1 h1).flags false false s1.count s1.writeTime
    obtain ⟨hw', hrec⟩ := writeLeases_never h2
    refine ⟨hw.trans hw', fun hr => ⟨(hrec hr).1, fun e he => ?_⟩⟩
    obtain ⟨rec, hmem, hentry, ht⟩ := (hrec hr).2 e (hw.memory ▸ he)
    exact ⟨rec, hmem, hentry, Nat.le_trans hw.tick ht⟩

/-- **A sound rewriting** keeps the invariant. -/
lemma Inv.soundRewrite (hrun : Db.soundRewrite s = some (r, s')) : Inv s' com := by
  rw [Db.soundRewrite] at hrun
  split_ifs at hrun with hkeeps
  obtain ⟨hrun, hclear⟩ := filter_eq_some_iff.mp hrun
  unfold newLeaseFileWith at hrun
  generalize s.clock s.tick = t at hrun
  rcases Result.andThen_eq_some.mp hrun with ⟨-, h1⟩ | ⟨s1, h1, h2⟩
  · exact (openNew_cases h (some.inj h1)).1
  obtain ⟨hinv1, hwritten, hmemory, htick, hdir⟩ := openNew_cases h (some.inj h1)
  obtain ⟨⟨ok, s4⟩, h4, heq⟩ := map_eq_some_iff.mp h2
  rcases Result.andThen_eq_some.mp h4 with ⟨rfl, h3⟩ | ⟨s3, h3, hinst⟩
  · cases heq
    exact (hinv1.wrote (fill_cases h3).1).abandon t _
  obtain ⟨hw, hfill⟩ := fill_cases h3
  obtain ⟨hbuf, hrec⟩ := hfill rfl
  have hinv3 := hinv1.wrote hw
  rcases install_cases hinst with ⟨rfl, hs⟩ | ⟨rfl, s2, hb, -, rfl⟩
  · cases heq
    exact (hinv3.shuffles hs).abandon t _
  · cases heq
    have herror : s3.dbFile.error = false := by
      rw [← hb.dbFile]
      simpa [State.next] using hclear
    have hdir3 : s3.files.dir (.temp t) = some s3.dbFile.file := by
      rw [hw.pours.dir, hw.pours.file]
      exact hdir rfl
    have hrep := represents_new h.stamps hkeeps hw hwritten hmemory htick herror hrec
    exact (hinv3.install hb hdir3 hbuf hrep).flags _ true _ _

lemma Inv.ensure (hrun : s.ensure Db.soundRewrite = some (r, s')) : Inv s' com := by
  rw [State.ensure] at hrun
  split_ifs at hrun
  · exact h.soundRewrite hrun
  · cases hrun
    exact h

lemma Inv.writeLease {l : LeaseEntry}
    (hrun : s.writeLease Db.soundRewrite never l = some (r, s')) : Inv s' com := by
  rcases Result.andThen_eq_some.mp hrun with ⟨-, h1⟩ | ⟨s1, h1, h2⟩
  · exact h.ensure h1
  · have hinv := h.ensure h1
    have hw := (wrote_countUp s1).trans (wrote_putRecord (.lease l) l.printable s1.countUp)
    dsimp only at h2
    split_ifs at h2
    · cases h2
    · rw [some.inj h2] at hw
      exact hinv.wrote hw

lemma Inv.writeIa {i : Ia} (hrun : s.writeIa Db.soundRewrite i = some (r, s')) : Inv s' com := by
  rcases Result.andThen_eq_some.mp hrun with ⟨-, h1⟩ | ⟨s1, h1, h2⟩
  · exact h.ensure h1
  · have hput := writes_some fun s =>
      (wrote_countUp s).trans (wrote_putRecord (.ia i) i.printable s.countUp)
    exact (h.ensure h1).wrote
      (hput.andThen (writes_some (f := fun s => (true, s.fflush.2)) wrote_fflush)
      s1 r s' h2)

/-- **Committing**: all that was written is in the lease file then. -/
lemma Inv.commitLeases (ha : s.Attached) (he : s.dbFile.error = false)
    (hrun : s.commitLeases Db.soundRewrite = some (r, s')) :
    Inv s' (Call.commitLeases.committed r s com) := by
  rcases commitLeases_cases hrun with ⟨rfl, hw⟩ | ⟨rfl, s1, hw, hwritten, hbuf, hcontent, hor⟩
  · exact h.wrote hw
  · have hinv := h.wrote hw
    have ha1 : s1.files.dir .path = some s1.dbFile.file := by
      rw [hw.pours.dir, hw.pours.file]
      exact ha
    have hkept : Represents s1.leaseFile s.written := by
      rw [leaseFile_of_dir ha1, hcontent]
      exact h.attached ha he
    have hinv1 : Inv s1 s.written :=
      ⟨hinv.distinct, hinv.stamps, hw.written, hkept, hinv.attached⟩
    rcases hor with rfl | ⟨ok, hre⟩
    · exact hinv1
    · exact (hinv1.flags _ _ 0 s1.curTime).soundRewrite hre

/-- **One call** keeps the invariant. -/
lemma Inv.step {c : Call} {n : ℕ} (hsound : c.Sound s)
    (hrun : c.run (newLeaseFile n) (newLeaseFile n) s = some (r, s')) :
    Inv s' (c.committed r s com) := by
  have hrun := hsound.run_eq hrun
  cases c with
  | writeLease l => exact h.writeLease hrun
  | writeIa i => exact h.writeIa hrun
  | commitLeases => exact h.commitLeases hsound.2.1 hsound.2.2 hrun
  | newLeaseFile => exact h.soundRewrite hrun
  | update memory curTime =>
    cases hrun
    exact { h with }

end

end Inv

/-- **Committed leases stay in the lease file**: in every state reached by sound calls the lease
file represents all the records that had been written when leases were last committed. -/
theorem committed_leases_stay (s₀ s : State) (com : List Record) (hnames : s₀.files.Distinct apart)
    (hstart : s₀.written = []) (h : Reach s₀ s com) : Represents s.leaseFile com := by
  have hinv : Inv s com := by
    induction h with
    | start =>
      have hnil (file) : Represents file [] := fun r hr => absurd hr not_mem_nil
      refine ⟨hnames, by simp [hstart], nil_subset _, hnil _, fun _ _ => ?_⟩
      rw [hstart]
      exact hnil _
    | step _ hsound hrun ih => exact ih.step hsound hrun
  exact hinv.kept

/-! ### Runs -/

def runAll (n : ℕ) : List Call → State → Option (List Bool × State)
  | [], s => some ([], s)
  | c :: cs, s => (c.run (newLeaseFile n) (newLeaseFile n) s).bind fun r =>
      (runAll n cs r.2).map fun rs => (r.1 :: rs.1, rs.2)

def sampleLease (ends : Time) : LeaseEntry :=
  { ipAddr := 1, lease := { ends, bindingState := .active } }

def sampleStart (fates : ℕ → Fate) : State :=
  { files := {
      dir := fun a => if a = .path then some 0 else none, content := fun _ => [], next := 1 }
    dbFile := { file := 0 }
    memory := { leases := [sampleLease 100] }
    fates }

/-- A lease is written and committed, and then it stays. -/
theorem committed_leases_stay_sample : ∃ s com, Reach (sampleStart fun _ => {}) s com ∧ com ≠ [] ∧
    Represents s.leaseFile com := by
  have h1 := Reach.step (c := .writeLease (sampleLease 100)) (n := 1)
    (@Reach.start (sampleStart fun _ => {})) ⟨by decide, trivial⟩ rfl
  have h2 := Reach.step (c := .commitLeases) (n := 1) h1 ⟨by decide, by decide, by decide⟩ rfl
  refine ⟨_, _, h2, by decide, committed_leases_stay _ _ _ ?_ rfl h2⟩
  refine ⟨fun a _ f hf => ?_, fun a _ b _ f hf hf' => ?_⟩
  · simp only [sampleStart] at hf ⊢
    split_ifs at hf
    simpa using (some.inj hf).symm
  · simp only [sampleStart] at hf hf'
    split_ifs at hf hf' with ha hb
    rw [ha, hb]

/-- **A committed lease is lost**: the new lease file cannot be renamed, the lease is written once
more and committed, and it is not in the lease file. -/
theorem committed_lease_is_lost : ∃ s, runAll 1
    [.writeLease (sampleLease 100), .commitLeases, .newLeaseFile, .writeLease (sampleLease 200),
      .commitLeases] (sampleStart fun i => { fails := i = 15 }) =
        some ([true, true, false, true, true], s) ∧
    ⟨17, .lease (sampleLease 200)⟩ ∈ s.written ∧
    s.leaseFile = [.record ⟨0, .lease (sampleLease 100)⟩] ∧ ¬Represents s.leaseFile s.written := by
  refine ⟨_, rfl, by decide, by decide, fun h => ?_⟩
  obtain ⟨r, hmem, -, hle⟩ := h ⟨17, .lease (sampleLease 200)⟩ (by decide)
  obtain rfl : r = ⟨0, .lease (sampleLease 100)⟩ := by
    rw [show State.leaseFile _ = [Item.record ⟨0, .lease (sampleLease 100)⟩] by decide] at hmem
    exact Item.record.inj (mem_singleton.mp hmem)
  exact absurd hle (by decide)

end IscDhcp.Db
