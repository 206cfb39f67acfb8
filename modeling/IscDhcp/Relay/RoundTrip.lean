import IscDhcp.Relay.AgentOptions
import Mathlib.Algebra.Order.Group.Nat

/-!
A request that the relay passes on comes back with the options it had, if the walk over its
options ends inside the request and has seen all of them. The walk goes as far as the greatest
length the relay allows, not as far as the packet, so that a request without an end option is
read beyond its last byte.
-/

namespace IscDhcp.Relay

open ByteMem List Option

/-! ### The options of a packet -/

structure Opt where
  code : UInt8
  data : List UInt8
  deriving DecidableEq, Repr

/-- There are options in the packet. -/
abbrev Cookie (mem : ByteMem) : Prop := mem.load cookieAt 4 = dhcpOptionsCookie

def optAt (mem : ByteMem) (a : ℕ) : Opt := ⟨mem a, mem.load (a + 2) (mem (a + 1)).toNat⟩

/-- From `a` to `b` the memory holds options and pads, the options being those listed. -/
inductive Items (mem : ByteMem) : ℕ → ℕ → List Opt → Prop
  | nil (a : ℕ) : Items mem a a []
  | pad {a b : ℕ} {os : List Opt} : mem a = dhoPad → Items mem (a + 1) b os → Items mem a b os
  | opt {a b : ℕ} {os : List Opt} : mem a ≠ dhoPad → mem a ≠ dhoEnd →
      Items mem (a + (mem (a + 1)).toNat + 2) b os → Items mem a b (optAt mem a :: os)

/-- The options end with the packet or with an end option. -/
def Stops (mem : ByteMem) (n e : ℕ) : Prop := e = n ∨ (e < n ∧ mem e = dhoEnd)

/-- A packet of `n` bytes has the options `os`. -/
def Options (mem : ByteMem) (n : ℕ) (os : List Opt) : Prop :=
  ∃ e, Items mem optionsAt e os ∧ Stops mem n e

/-- Options of a client: none of a relay, and a maximum message size that has a first byte. -/
def Standard (os : List Opt) : Prop :=
  ∀ o ∈ os, o.code ≠ dhoDhcpAgentOptions ∧ (o.code = dhoDhcpMaxMessageSize → 1 ≤ o.data.length)

section Items

variable {mem mem' : ByteMem} {a b c n : ℕ} {os os' : List Opt}

lemma Items.le (h : Items mem a b os) : a ≤ b := by
  induction h with
  | nil => exact le_rfl
  | pad _ _ ih => omega
  | opt _ _ _ ih => omega

lemma Items.trans (h : Items mem a b os) (h' : Items mem b c os') : Items mem a c (os ++ os') := by
  induction h with
  | nil => exact h'
  | pad ha _ ih => exact .pad ha (ih h')
  | opt ha ha' _ ih => exact .opt ha ha' (ih h')

lemma Items.congr (h : Items mem a b os) (heq : ∀ i, a ≤ i → i < b → mem i = mem' i) :
    Items mem' a b os := by
  induction h with
  | nil => exact .nil _
  | @pad a b os ha h ih =>
    have hle := h.le
    exact .pad (heq a le_rfl (by omega) ▸ ha) (ih fun i hi => heq i (by omega))
  | @opt a b os ha ha' h ih =>
    have hle := h.le
    have hcode := heq a le_rfl (by omega)
    have hlen := heq (a + 1) (by omega) (by omega)
    have hopt : optAt mem a = optAt mem' a := by
      rw [optAt, optAt, hcode, hlen]
      congr 1
      exact load_congr fun i hi => heq (a + 2 + i) (by omega) (by rw [hlen] at hle; omega)
    rw [hopt]
    refine .opt (hcode ▸ ha) (hcode ▸ ha') ?_
    rw [← hlen]
    exact ih fun i hi => heq i (by omega)

lemma Items.eq_nil (h : Items mem a a os) : os = [] := by
  cases h with
  | nil => rfl
  | pad _ h => exact absurd h.le (by omega)
  | opt _ _ h => exact absurd h.le (by omega)

lemma Stops.le (h : Stops mem n b) : b ≤ n := by
  rcases h with h | ⟨h, -⟩ <;> omega

lemma Stops.not_item (hc : Stops mem n a) (hend : mem a ≠ dhoEnd) (ha : a < b) (hb : b ≤ n) :
    False := by
  rcases hc with rfl | ⟨-, h⟩
  · omega
  · exact hend h

lemma Items.unique (h : Items mem a b os) (hb : Stops mem n b) (h' : Items mem a c os')
    (hc : Stops mem n c) : os = os' := by
  induction h generalizing os' with
  | nil a =>
    rcases hb with rfl | ⟨-, hend⟩
    · obtain rfl : c = a := le_antisymm hc.le h'.le
      exact h'.eq_nil.symm
    · cases h' with
      | nil => rfl
      | pad ha _ => exact absurd (ha.symm.trans hend) (by decide)
      | opt _ ha _ => exact absurd hend ha
  | @pad a b os ha h ih =>
    cases h' with
    | nil => exact (hc.not_item (ha ▸ by decide) h.le hb.le).elim
    | pad _ h' => exact ih hb h'
    | opt ha' _ _ => exact absurd ha ha'
  | @opt a b os ha ha' h ih =>
    cases h' with
    | nil => exact (hc.not_item ha' (Nat.lt_of_lt_of_le (by omega) h.le) hb.le).elim
    | pad hp _ => exact absurd hp ha
    | opt _ _ h' => rw [ih hb h']

lemma Options.unique (h : Options mem n os) (h' : Options mem n os') : os = os' := by
  obtain ⟨e, hi, he⟩ := h
  obtain ⟨e', hi', he'⟩ := h'
  exact hi.unique he hi' he'

end Items

/-! ### The walk over a request -/

/-- The loop comes from one cursor to the other. -/
inductive Walks (cfg : Config) (length : ℕ) : Cursor → Cursor → Prop
  | refl (st : Cursor) : Walks cfg length st st
  | step {st st1 st2 : Cursor} : st.op < st.max → cfg.addTurn length st = .next st1 →
      Walks cfg length st1 st2 → Walks cfg length st st2

def Ends (cfg : Config) (length : ℕ) (st : Cursor) (o : Outcome) : Prop :=
  (st.max ≤ st.op ∧ o = .out st) ∨ (st.op < st.max ∧ cfg.addTurn length st = .stop o)

section Walk

variable {cfg : Config} {length : ℕ} {st st1 st2 : Cursor} {o : Outcome}

lemma Cursor.skip_next (h : st.skip = .next st1) : st.op < st1.op ∧ st1.max = st.max := by
  rw [Cursor.skip] at h
  split_ifs at h
  cases h
  exact ⟨by dsimp only; omega, rfl⟩

lemma Config.note_eq (cfg : Config) (st : Cursor) : cfg.note st =
    { st with
      isDhcp := st.isDhcp || decide (st.mem st.op = dhoDhcpMessageType)
      max := (cfg.note st).max } := by
  rw [Config.note]
  split_ifs with h <;> simp [h]

lemma Config.note_op (cfg : Config) (st : Cursor) : (cfg.note st).op = st.op := by rw [note_eq]

lemma Config.note_max (cfg : Config) (h : st.max ≤ cfg.dhcpMaxAgentOptionPacketLength) :
    (cfg.note st).max ≤ cfg.dhcpMaxAgentOptionPacketLength := by
  rw [Config.note]
  split_ifs with _ hm
  exacts [h, hm.2.1.le, h]

lemma Config.addTurn_next (h : cfg.addTurn length st = .next st1) :
    st.op < st1.op ∧ (st.max ≤ cfg.dhcpMaxAgentOptionPacketLength →
      st1.max ≤ cfg.dhcpMaxAgentOptionPacketLength) := by
  rw [Config.addTurn] at h
  split_ifs at h
  · cases h
    exact ⟨Nat.lt_succ_self _, id⟩
  · split at h
    · obtain ⟨ho, hm⟩ := Cursor.skip_next h
      exact ⟨ho, fun h => hm ▸ h⟩
    · cases h
    · cases h
    · cases h
      exact ⟨by dsimp only; omega, id⟩
  · obtain ⟨ho, hm⟩ := Cursor.skip_next h
    exact ⟨cfg.note_op st ▸ ho, fun h => hm ▸ cfg.note_max h⟩

section

variable (h : Walks cfg length st st1)

include h

lemma Walks.op_le : st.op ≤ st1.op := by
  induction h with
  | refl => exact le_rfl
  | step _ ht _ ih => exact (Config.addTurn_next ht).1.le.trans ih

lemma Walks.max_le (hmax : st.max ≤ cfg.dhcpMaxAgentOptionPacketLength) :
    st1.max ≤ cfg.dhcpMaxAgentOptionPacketLength := by
  induction h with
  | refl => exact hmax
  | step _ ht _ ih => exact ih ((Config.addTurn_next ht).2 hmax)

lemma Walks.trans (h' : Walks cfg length st1 st2) : Walks cfg length st st2 := by
  induction h with
  | refl => exact h'
  | step ho ht _ ih => exact .step ho ht (ih h')

lemma Walks.total (h' : Walks cfg length st st2) :
    Walks cfg length st1 st2 ∨ Walks cfg length st2 st1 := by
  induction h with
  | refl => exact .inl h'
  | step ho ht h ih =>
    cases h' with
    | refl => exact .inr (.step ho ht h)
    | step ho' ht' h' =>
      cases ht.symm.trans ht'
      exact ih h'

omit h in
lemma Ends.eq_of_walks (he : Ends cfg length st o) (h : Walks cfg length st st1) : st1 = st := by
  cases h with
  | refl => rfl
  | step ho ht _ =>
    rcases he with ⟨hm, -⟩ | ⟨-, hs⟩
    · omega
    · rw [ht] at hs
      cases hs

lemma addLoop_of_walks (he : Ends cfg length st1 o) {n : ℕ}
    (hn : cfg.dhcpMaxAgentOptionPacketLength ≤ n + st.op)
    (hmax : st.max ≤ cfg.dhcpMaxAgentOptionPacketLength) : cfg.addLoop length n st = o := by
  induction h generalizing n with
  | refl st =>
    cases n with
    | zero =>
      rcases he with ⟨-, rfl⟩ | ⟨hlt, -⟩
      · rfl
      · omega
    | succ n =>
      rw [Config.addLoop]
      rcases he with ⟨hm, rfl⟩ | ⟨hlt, hs⟩
      · rw [if_neg (by omega)]
      · rw [if_pos hlt, hs]
  | @step st st' _ ho ht h ih =>
    obtain ⟨hop, hmax'⟩ := Config.addTurn_next ht
    obtain ⟨n, rfl⟩ : ∃ k, n = k + 1 := ⟨n - 1, by omega⟩
    rw [Config.addLoop, if_pos ho, ht]
    exact ih he (by omega) (hmax' hmax)

end

end Walk

/-- The same cursor over another memory. -/
def Cursor.on (st : Cursor) (mem : ByteMem) : Cursor := { st with mem }

/-- The walk has seen the options `os` and has left them where they were. -/
structure Seen (mem : ByteMem) (st : Cursor) (os : List Opt) : Prop where
  same : st.mem = mem
  sp : st.sp = st.op
  items : Items mem optionsAt st.op os
  place : Items mem optionsAt st.place os
  le : st.place ≤ st.op
  dhcp : st.isDhcp = os.any (·.code = dhoDhcpMessageType)
  client : ∀ o ∈ os, o.code ≠ dhoDhcpAgentOptions

section Seen

variable {cfg : Config} {length e : ℕ} {st : Cursor} {mem m : ByteMem} {os os' : List Opt}

lemma Seen.on_same (h : Seen mem st os) : st.on mem = st := by
  obtain rfl := h.same
  rfl

lemma Seen.start (cfg : Config) (mem : ByteMem) : Seen mem (cfg.start mem) [] :=
  ⟨rfl, rfl, .nil _, .nil _, le_rfl, rfl, by simp⟩

lemma Seen.pad (h : Seen mem st os) (cfg : Config) (length : ℕ) (hp : mem st.op = dhoPad) :
    ∃ st', Seen mem st' os ∧ st'.op = st.op + 1 ∧ st'.max = st.max ∧
      ∀ m, m st.op = dhoPad → cfg.addTurn length (st.on m) = .next (st'.on m) := by
  let st' : Cursor :=
    { st with op := st.op + 1, sp := st.sp + 1, endPad := st.endPad.or (some st.sp) }
  have hplace : st'.place = st.place := by
    change (st.endPad.or (some st.sp)).getD (st.sp + 1) = st.endPad.getD st.sp
    cases st.endPad <;> rfl
  refine ⟨st', ⟨h.same, by simp [st', h.sp], ?_, ?_, ?_, h.dhcp, h.client⟩, rfl, rfl, ?_⟩
  · simpa using h.items.trans (.pad hp (.nil _))
  · rw [hplace]
    exact h.place
  · rw [hplace]
    exact h.le.trans (Nat.le_succ _)
  · intro m hm
    rw [Config.addTurn, if_pos (show (st.on m).mem (st.on m).op = dhoPad from hm)]
    change Turn.next { st'.on m with mem := keep m st.sp st.op 1 } = _
    rw [h.sp, keep_self]
    rfl

lemma note_on (hm : m st.op = st.mem st.op) (hmax : st.mem st.op = dhoDhcpMaxMessageSize →
    m (st.op + 2) = st.mem (st.op + 2)) : cfg.note (st.on m) = (cfg.note st).on m := by
  have hop : (st.on m).op = st.op := rfl
  have hmem : (st.on m).mem = m := rfl
  rw [Config.note, Config.note, hop, hmem, hm]
  by_cases h57 : st.mem st.op = dhoDhcpMaxMessageSize
  · rw [hmax h57]
    split_ifs <;> rfl
  · simp only [h57, false_and, if_false]
    split_ifs <;> rfl

lemma Seen.opt (h : Seen mem st os) (cfg : Config) (length : ℕ) (hp : mem st.op ≠ dhoPad)
    (he : mem st.op ≠ dhoEnd)
    (hstd : Standard [optAt mem st.op]) {n : ℕ} (hn : st.op + (mem (st.op + 1)).toNat + 2 = n) :
    (∀ m, (∀ i, st.op ≤ i → i < n → m i = mem i) →
        cfg.addTurn length (st.on m) = .stop (.ret 0 m)) ∨
      ∃ st', Seen mem st' (os ++ [optAt mem st.op]) ∧
        st'.op = n ∧
        ∀ m, (∀ i, st.op ≤ i → i < n → m i = mem i) →
          cfg.addTurn length (st.on m) = .next (st'.on m) := by
  obtain ⟨h82, h57⟩ := hstd _ (mem_singleton_self _)
  have hsame := h.same
  have hlen57 : mem st.op = dhoDhcpMaxMessageSize → 1 ≤ (mem (st.op + 1)).toNat := fun h => by
    simpa [optAt] using h57 h
  have hturn (m : ByteMem)
      (hm : ∀ i, st.op ≤ i → i < n → m i = mem i) :
      cfg.addTurn length (st.on m) = ((cfg.note st).on m).skip := by
    have hcode : m st.op = mem st.op := hm _ le_rfl (by omega)
    have hnote : cfg.note (st.on m) = (cfg.note st).on m := by
      apply note_on
      · rw [hcode, hsame]
      · intro h57
        rw [hsame] at h57 ⊢
        exact hm _ (by omega) (by have := hlen57 h57; omega)
    have hop : (st.on m).mem (st.on m).op = mem st.op := hcode
    rw [Config.addTurn, hop, if_neg hp, if_neg he, if_neg fun h => h82 h.1, hnote]
  have hskip (m : ByteMem) (hm : m (st.op + 1) = mem (st.op + 1)) : ((cfg.note st).on m).skip =
      if n > (cfg.note st).max then .stop (.ret 0 m)
      else .next { (cfg.note st).on m with op := n, sp := n, endPad := none } := by
    have hl : ((cfg.note st).on m).optLen = (mem (st.op + 1)).toNat := by
      rw [Cursor.optLen, ← hm]
      change (m ((cfg.note st).op + 1)).toNat = _
      rw [cfg.note_op]
    have hop : ((cfg.note st).on m).op = st.op := cfg.note_op st
    have hsp : ((cfg.note st).on m).sp = st.op := by rw [cfg.note_eq]; exact h.sp
    rw [Cursor.skip, hl, hop, hsp, keep_self, hn]
    rfl
  by_cases hfit : n > (cfg.note st).max
  · refine .inl fun m hm => ?_
    rw [hturn m hm, hskip m (hm _ (by omega) (by omega)), if_pos hfit]
  · let st' : Cursor := { cfg.note st with op := n, sp := n, endPad := none }
    have hitems : Items mem optionsAt st'.op (os ++ [optAt mem st.op]) :=
      h.items.trans (.opt hp he (hn ▸ .nil _))
    refine .inr ⟨st', ⟨(congrArg Cursor.mem (cfg.note_eq st)).trans hsame, rfl, hitems, hitems,
      le_rfl, ?_, ?_⟩, rfl, fun m hm => ?_⟩
    · rw [congrArg Cursor.isDhcp (cfg.note_eq st), h.dhcp, hsame]
      simp [optAt]
    · intro o ho
      rcases mem_append.mp ho with ho | ho
      · exact h.client o ho
      · rwa [mem_singleton.mp ho]
    · rw [hturn m hm, hskip m (hm _ (by omega) (by omega)), if_neg hfit]
      rfl

/-- **The walk over a request** stops at its last item, at the limit or at an option beyond the
limit, and the bytes behind the request have no part in it. -/
lemma Seen.along (h : Seen mem st os) (cfg : Config) (length : ℕ) (hi : Items mem st.op e os')
    (hstd : Standard os') :
    ∃ st' os₁, Seen mem st' os₁ ∧ st'.op ≤ e ∧
      (∀ m, Agree e mem m → Walks cfg length (st.on m) (st'.on m)) ∧
      ((st'.op = e ∧ os₁ = os ++ os') ∨ (st'.op < e ∧ st'.max ≤ st'.op) ∨
        (st'.op < e ∧ st'.op < st'.max ∧
          ∀ m, Agree e mem m → cfg.addTurn length (st'.on m) = .stop (.ret 0 m))) := by
  generalize hop : st.op = a at hi
  induction hi generalizing st os with
  | nil a => exact ⟨st, os, h, hop.le, fun _ _ => .refl _, .inl ⟨hop, by simp⟩⟩
  | @pad a e os' hp hi ih =>
    have hle := hi.le
    by_cases hmax : st.op < st.max
    · obtain ⟨st1, h1, hop1, -, hturn⟩ := h.pad cfg length (hop ▸ hp)
      obtain ⟨st', os₁, hs, hse, hw, hor⟩ := ih h1 hstd (by rw [hop1, hop])
      refine ⟨st', os₁, hs, hse, fun m hm => ?_, hor⟩
      exact .step hmax (hturn m (by rw [← hm _ (by omega), hop, hp])) (hw m hm)
    · exact ⟨st, os, h, by omega, fun _ _ => .refl _, .inr (.inl ⟨by omega, by omega⟩)⟩
  | @opt a e os' hp hend hi ih =>
    have hle := hi.le
    by_cases hmax : st.op < st.max
    · subst hop
      have hstd' := forall_mem_cons.mp hstd
      rcases h.opt cfg length hp hend (by simpa [Standard] using hstd'.1) rfl with
        hfail | ⟨st1, h1, hop1, hturn⟩
      · refine ⟨st, os, h, by omega, fun _ _ => .refl _,
          .inr (.inr ⟨by omega, hmax, fun m hm => ?_⟩)⟩
        exact hfail m fun i _ hi => (hm i (by omega)).symm
      · obtain ⟨st', os₁, hs, hse, hw, hor⟩ := ih h1 hstd'.2 hop1
        refine ⟨st', os₁, hs, hse, fun m hm => ?_, ?_⟩
        · exact .step hmax (hturn m fun i _ hi => (hm i (by omega)).symm) (hw m hm)
        · simpa using hor
    · exact ⟨st, os, h, by omega, fun _ _ => .refl _, .inr (.inl ⟨by omega, by omega⟩)⟩

lemma Seen.congr (h : Seen mem st os) (hm : Agree st.op mem m) : Seen m (st.on m) os :=
  ⟨rfl, h.sp, h.items.congr fun i _ hi => hm i hi,
    h.place.congr fun i _ hi => hm i (Nat.lt_of_lt_of_le hi h.le), h.le, h.dhcp, h.client⟩

lemma Seen.pads (h : Seen mem st os) (cfg : Config) (length k : ℕ)
    (hpads : ∀ i < k, mem (st.op + i) = dhoPad) (hk : st.op + k ≤ st.max) :
    ∃ st', Seen mem st' os ∧ Walks cfg length st st' ∧ st'.op = st.op + k ∧ st'.max = st.max := by
  induction k generalizing st with
  | zero => exact ⟨st, h, .refl _, rfl, rfl⟩
  | succ k ih =>
    have hp : mem st.op = dhoPad := hpads 0 (by omega)
    obtain ⟨st1, h1, hop1, hmax1, hturn⟩ := h.pad cfg length hp
    have hstep := hturn mem hp
    rw [h.on_same, h1.on_same] at hstep
    obtain ⟨st', h', hw, hop, hmax⟩ := ih h1
      (fun i hi => by rw [hop1, Nat.add_assoc, Nat.add_comm 1 i]; exact hpads (i + 1) (by omega))
      (by omega)
    exact ⟨st', h', .step (by omega) hstep hw, by omega, by omega⟩

end Seen

/-- The walk comes to the end of the packet and goes on. -/
def RunsOut (cfg : Config) (mem : ByteMem) (length : ℕ) : Prop :=
  ∃ st, Walks cfg length (cfg.start mem) st ∧ st.op = length ∧ length < st.max

section Scan

variable {cfg : Config} {length e : ℕ} {mem : ByteMem} {os : List Opt}

lemma scan_of_walks {st : Cursor} {o : Outcome} (h : Walks cfg length (cfg.start mem) st)
    (he : Ends cfg length st o) : cfg.scan mem length = o :=
  addLoop_of_walks h he (Nat.le_add_right _ _) le_rfl

/-- A walk that ends before the end of the packet, or at the limit, does not run out. -/
lemma not_runsOut {st : Cursor} {o : Outcome} (h : Walks cfg length (cfg.start mem) st)
    (he : Ends cfg length st o) (hop : st.op < length ∨ (st.op ≤ length ∧ st.max ≤ st.op)) :
    ¬RunsOut cfg mem length := by
  rintro ⟨st', h', hop', hmax'⟩
  rcases h.total h' with hw | hw
  · obtain rfl := he.eq_of_walks hw
    omega
  · have hle := hw.op_le
    rcases hop with hop | ⟨hop, hmax⟩
    · omega
    · cases hw with
      | refl => omega
      | step _ ht hw =>
        have := (Config.addTurn_next ht).1
        have := hw.op_le
        omega

/-- **Three ways a walk over a request can go**: it runs out of the packet, the packet is dropped,
or it ends in the packet; and the bytes behind the packet have no part in that. -/
lemma scan_cases (hi : Items mem optionsAt e os) (he : Stops mem length e) (hstd : Standard os) :
    (RunsOut cfg mem length ∧ ∃ st, Seen mem st os ∧ st.op = length ∧ length < st.max ∧
        ∀ m, Agree length mem m → Walks cfg length (cfg.start m) (st.on m)) ∨
      (¬RunsOut cfg mem length ∧ ∀ m, Agree length mem m → cfg.scan m length = .ret 0 m) ∨
      (¬RunsOut cfg mem length ∧ ∃ st os₁, Seen mem st os₁ ∧ st.op ≤ length ∧
        st.max ≤ cfg.dhcpMaxAgentOptionPacketLength ∧
        ∀ m, Agree length mem m → cfg.scan m length = .out (st.on m)) := by
  obtain ⟨st, os₁, hs, hop, hw, hor⟩ := (Seen.start cfg mem).along cfg length hi hstd
  have hle := he.le
  have hwm : Walks cfg length (cfg.start mem) st := by
    have := hw mem fun _ _ => rfl
    rwa [hs.on_same] at this
  have hcap := hwm.max_le le_rfl
  have hends {o : ByteMem → Outcome}
      (he : ∀ m, Agree length mem m → Ends cfg length (st.on m) (o m))
      (hop : st.op < length ∨ (st.op ≤ length ∧ st.max ≤ st.op)) : ¬RunsOut cfg mem length ∧
        ∀ m, Agree length mem m → cfg.scan m length = o m := by
    have hended := he mem fun _ _ => rfl
    rw [hs.on_same] at hended
    exact ⟨not_runsOut hwm hended hop, fun m hm => scan_of_walks (hw m (hm.mono hle)) (he m hm)⟩
  by_cases hmax : st.max ≤ st.op
  · -- at the limit the loop ends, whatever is there
    obtain ⟨hin, hscan⟩ := hends (fun m _ => .inl ⟨hmax, rfl⟩) (.inr ⟨by omega, hmax⟩)
    exact .inr (.inr ⟨hin, st, os₁, hs, by omega, hcap, hscan⟩)
  rcases hor with ⟨rfl, rfl⟩ | ⟨-, hle⟩ | ⟨hlt, hmax, hfail⟩
  · have hmax : st.op < st.max := not_le.mp hmax
    rcases he with rfl | ⟨hlt, hend⟩
    · exact .inl ⟨⟨st, hwm, rfl, hmax⟩, st, hs, rfl, hmax, hw⟩
    · obtain ⟨hin, hscan⟩ := hends (o := fun m => .out (st.on m)) (fun m hm => by
        have hcode : (st.on m).mem (st.on m).op = dhoEnd := (hm _ hlt).symm.trans hend
        refine .inr ⟨hmax, ?_⟩
        rw [Config.addTurn, hcode, if_neg (by decide), if_pos rfl]) (.inl hlt)
      exact .inr (.inr ⟨hin, st, _, hs, hle, hcap, hscan⟩)
  · exact absurd hle hmax
  · exact .inr (.inl (hends (fun m hm => .inr ⟨hmax, hfail m (hm.mono hle)⟩) (.inl (by omega))))

end Scan

/-! ### The option that is added -/

section Suboptions

variable {ip : Interface} {giaddr : InAddr} {link : Bool} {subs : List UInt8}

lemma circuitIdOf_nil (n : ℕ) (found : Option (List UInt8)) : circuitIdOf n [] found =
    some found := by
  cases n <;> rfl

lemma circuitIdOf_cons {n : ℕ} {code : UInt8} {data rest : List UInt8}
    {found : Option (List UInt8)} (hdata : data.length ≤ 255) :
    circuitIdOf (n + 1) (code :: UInt8.ofNat data.length :: (data ++ rest)) found =
      circuitIdOf n rest (if code = raiCircuitId then some data else found) := by
  have hlen : (UInt8.ofNat data.length).toNat = data.length := by
    change data.length % 256 = data.length
    omega
  rw [circuitIdOf, hlen, if_neg (by simp), drop_left, take_left]

lemma suboption_eq {code : UInt8} {id sub : List UInt8} (h : suboption code id = some sub) :
    1 ≤ id.length ∧ id.length ≤ 255 ∧ sub = code :: UInt8.ofNat id.length :: id := by
  rw [suboption] at h
  split_ifs at h with hbad
  exact ⟨by omega, by omega, (some.inj h).symm⟩

/-- The suboptions are the circuit identifier of the interface and at most two others. -/
lemma suboptions_eq (h : ip.suboptions giaddr link = some subs) :
    ∃ id more, ip.circuitId = some id ∧ 1 ≤ id.length ∧ id.length ≤ 255 ∧ subs.length ≤ 255 ∧
      subs = raiCircuitId :: UInt8.ofNat id.length :: (id ++ more) ∧
      ∀ n found, circuitIdOf (n + 2) more found = some found := by
  obtain ⟨circuit, hc, h⟩ := bind_eq_some_iff.mp h
  obtain ⟨remote, hr, h⟩ := bind_eq_some_iff.mp h
  dsimp only at h
  generalize hlink : (if link = true then raiLinkSelect :: 4 :: giaddr.1 else []) = lk at h
  split_ifs at h with hbad
  obtain ⟨hlo, hhi, rfl⟩ := suboption_eq hc
  have hid : ip.circuitId = some (ip.circuitId.getD []) := by
    cases hcid : ip.circuitId with
    | none => simp [hcid] at hlo
    | some id => rfl
  -- neither of the other suboptions is a circuit identifier
  have hlast (n : ℕ) (found : Option (List UInt8)) : circuitIdOf (n + 1) lk found = some found := by
    subst hlink
    split_ifs
    · have h4 := @circuitIdOf_cons n raiLinkSelect giaddr.1 [] found (by rw [giaddr.2]; decide)
      rw [giaddr.2, append_nil, if_neg (by decide), circuitIdOf_nil] at h4
      exact h4
    · exact circuitIdOf_nil _ _
  have hmore (n : ℕ) (found : Option (List UInt8)) :
      circuitIdOf (n + 2) (remote ++ lk) found = some found := by
    cases hrid : ip.remoteId with
    | none =>
      rw [hrid] at hr
      cases hr
      exact hlast (n + 1) found
    | some id =>
      rw [hrid] at hr
      obtain ⟨-, hhi, rfl⟩ := suboption_eq hr
      rw [cons_append, cons_append, circuitIdOf_cons hhi, if_neg (by decide)]
      exact hlast n found
  refine ⟨_, remote ++ lk, hid, hlo, hhi, ?_, ?_, hmore⟩
  · rw [← some.inj h]
    omega
  · rw [← some.inj h]
    simp

/-- **The option leads back to the interface** that it was added for, or to one before it with
the same circuit identifier. -/
lemma findInterface_suboptions (interfaces : List Interface)
    (h : ip.suboptions giaddr link = some subs) : findInterfaceByAgentOption interfaces subs =
      interfaces.find? fun i => i.circuitId = ip.circuitId := by
  obtain ⟨id, more, hid, hpos, hlen, -, rfl, hmore⟩ := suboptions_eq h
  have hcircuit : circuitIdOf (raiCircuitId :: UInt8.ofNat id.length :: (id ++ more)).length
      (raiCircuitId :: UInt8.ofNat id.length :: (id ++ more)) none = some (some id) := by
    obtain ⟨k, hk⟩ : ∃ k, (UInt8.ofNat id.length :: (id ++ more)).length = k + 2 :=
      ⟨id.length - 1 + more.length, by simp; omega⟩
    rw [length_cons, circuitIdOf_cons hlen, if_pos rfl, hk, hmore]
  rw [findInterfaceByAgentOption, hcircuit, hid]

end Suboptions

/-! ### Stripping what was added -/

section Strip

variable {cfg : Config} {mem : ByteMem} {a b n max : ℕ} {os : List Opt} {st : Stripper}

lemma Stripper.note_eq (st : Stripper) : st.note =
    { st with isDhcp := st.isDhcp || decide (st.mem st.op = dhoDhcpMessageType) } := by
  rw [Stripper.note]
  split_ifs with h <;> simp [h]

lemma stripLoop_items (hi : Items mem a b os) (hno : ∀ o ∈ os, o.code ≠ dhoDhcpAgentOptions)
    (hb : b ≤ max) (hmem : st.mem = mem) (hop : st.op = a) (hsp : st.sp = a) (hn : max ≤ n + a) :
    ∃ n', max ≤ n' + b ∧ cfg.stripLoop max n st = cfg.stripLoop max n'
      { st with
        op := b, sp := b, isDhcp := st.isDhcp || os.any (·.code = dhoDhcpMessageType) } := by
  induction hi generalizing st n with
  | nil a =>
    obtain ⟨_, op, sp, dhcp, good, out⟩ := st
    obtain rfl : op = a := hop
    obtain rfl : sp = op := hsp
    exact ⟨n, hn, by rw [any_nil, Bool.or_false]⟩
  | @pad a b os hp hi ih =>
    have hle := hi.le
    obtain ⟨n, rfl⟩ : ∃ k, n = k + 1 := ⟨n - 1, by omega⟩
    obtain ⟨n', hn', heq⟩ :=
      @ih n { st with op := a + 1, sp := a + 1 } hno hb hmem rfl rfl (by omega)
    refine ⟨n', hn', ?_⟩
    rw [Config.stripLoop, if_pos (by omega), Config.stripTurn, hmem, hop, hsp, if_pos hp, keep_self]
    subst hmem
    exact heq
  | @opt a b os hp he hi ih =>
    have hle := hi.le
    obtain ⟨h82, hno⟩ := forall_mem_cons.mp hno
    obtain ⟨n, rfl⟩ : ∃ k, n = k + 1 := ⟨n - 1, by omega⟩
    obtain ⟨n', hn', heq⟩ := @ih n
      { st with
        op := a + (mem (a + 1)).toNat + 2, sp := a + (mem (a + 1)).toNat + 2
        isDhcp := st.isDhcp || decide (mem a = dhoDhcpMessageType) }
      hno hb hmem rfl rfl (by omega)
    refine ⟨n', hn', ?_⟩
    rw [Config.stripLoop, if_pos (by omega), Config.stripTurn, hmem, hop, if_neg hp, if_neg he,
      if_neg fun h => h82 h.1, Stripper.note_eq, Stripper.skip, Stripper.optLen]
    rw [hmem, hop, hsp, if_neg (by omega), keep_self]
    subst hmem
    rw [any_cons, ← Bool.or_assoc]
    exact heq

lemma stripTurn_agent (hcode : st.mem st.op = dhoDhcpAgentOptions) (hd : st.isDhcp)
    (hfit : st.op + st.optLen + 2 ≤ max) {found : Option Interface}
    (hip : findInterfaceByAgentOption cfg.interfaces (st.mem.load (st.op + 2) st.optLen) = found) :
    cfg.stripTurn max st = if found = none ∧ cfg.dropAgentMismatches then .fail st
      else .next { st with
        op := st.op + st.optLen + 2, goodAgentOption := true, out := found.or st.out } := by
  rw [Config.stripTurn, if_neg (by rw [hcode]; decide), if_neg (by rw [hcode]; decide),
    if_pos ⟨hcode, hd⟩, if_neg (by omega), hip]
  cases found <;> simp

lemma stripTurn_end (hcode : st.mem st.op = dhoEnd) (hne : st.sp ≠ st.op) :
    cfg.stripTurn max st = .out
      { st with mem := st.mem.store st.sp [dhoEnd], op := st.op + 1, sp := st.sp + 1 } := by
  rw [Config.stripTurn, if_neg (by rw [hcode]; decide), if_pos hcode, if_pos hne, hcode]

lemma optAt_eq {code : UInt8} {data : List UInt8} (h : optAt mem a = ⟨code, data⟩) :
    mem a = code ∧ mem.load (a + 2) (mem (a + 1)).toNat = data ∧
      (mem (a + 1)).toNat = data.length := by
  cases h
  exact ⟨rfl, rfl, length_load.symm⟩

lemma items_of_optAt {code : UInt8} {data : List UInt8} (h : optAt mem a = ⟨code, data⟩)
    (hp : code ≠ dhoPad) (he : code ≠ dhoEnd) :
    Items mem a (a + data.length + 2) [⟨code, data⟩] := by
  obtain ⟨rfl, -, hlen⟩ := optAt_eq h
  rw [← h, ← hlen]
  exact .opt hp he (.nil _)

section Added

variable {subs : List UInt8} {length : ℕ}

lemma stripLoop_to_option (hi : Items mem optionsAt a os)
    (hno : ∀ o ∈ os, o.code ≠ dhoDhcpAgentOptions) (hlen : a + subs.length + 3 ≤ length)
    (cfg : Config) (out : Option Interface) :
    ∃ n, cfg.stripLoop length length { mem, out } = cfg.stripLoop length (n + 2)
      { mem, op := a, sp := a, isDhcp := os.any (·.code = dhoDhcpMessageType), out } := by
  obtain ⟨n, hn, hloop⟩ := @stripLoop_items cfg mem optionsAt a length length os { mem, out } hi hno
    (by omega) rfl rfl rfl (by omega)
  refine ⟨n - 2, ?_⟩
  rw [hloop, show n - 2 + 2 = n by omega]
  rfl

/-- **The option that was added is taken out again.** The end option takes its place, and the
interface is the one its circuit identifier leads to, if there is one. -/
lemma strip_added (hadd : cfg.addAgentOptions)
    (hcookie : Cookie mem) (hi : Items mem optionsAt a os)
    (hno : ∀ o ∈ os, o.code ≠ dhoDhcpAgentOptions)
    (hdhcp : os.any (·.code = dhoDhcpMessageType))
    (hopt : optAt mem a = ⟨dhoDhcpAgentOptions, subs⟩)
    (hend : mem (a + subs.length + 2) = dhoEnd) (hlen : a + subs.length + 3 ≤ length)
    {found : Option Interface} (hip : findInterfaceByAgentOption cfg.interfaces subs = found)
    (out : Option Interface) : cfg.stripRelayAgentOptions out mem length =
      if found = none ∧ cfg.dropAgentMismatches then (0, mem, out)
      else ((padOut (mem.store a [dhoEnd]) (a + 1)).1, (padOut (mem.store a [dhoEnd]) (a + 1)).2,
        found.or out) := by
  obtain ⟨hcode, hdata, hk⟩ := optAt_eq hopt
  obtain ⟨n, hloop⟩ := stripLoop_to_option hi hno hlen cfg out
  have hagent := @stripTurn_agent cfg length
    { mem, op := a, sp := a, isDhcp := os.any (·.code = dhoDhcpMessageType), out } hcode hdhcp
    (by rw [Stripper.optLen]; dsimp only; omega) found (by rw [Stripper.optLen, hdata, hip])
  rw [Stripper.optLen, hk] at hagent
  have hlast := @stripTurn_end cfg length
    { mem, op := a + subs.length + 2, sp := a, isDhcp := os.any (·.code = dhoDhcpMessageType)
      goodAgentOption := true, out := found.or out } hend (by dsimp only; omega)
  rw [Config.stripRelayAgentOptions, if_neg (by simp [hadd, hcookie]), hloop, Config.stripLoop,
    if_pos (by dsimp only; omega), hagent]
  split_ifs
  · rfl
  · dsimp only
    rw [Config.stripLoop, if_pos (by dsimp only; omega), hlast]
    dsimp only
    rw [if_neg (by simp [hdhcp]), if_neg (by simp), if_pos (by omega)]

end Added

end Strip

/-! ### The packet with the option -/

section Finish

variable {cfg : Config} {mem m : ByteMem} {sp : ℕ} {st : Cursor} {subs : List UInt8}

lemma padOut_fst (mem : ByteMem) (sp : ℕ) : (padOut mem sp).1 = max bootpMinLen sp := by
  rw [padOut]
  split_ifs with h
  · exact (max_eq_left h.le).symm
  · exact (max_eq_right (not_lt.mp h)).symm

lemma padOut_of_lt {i : ℕ} (h : i < sp) : (padOut mem sp).2 i = mem i := by
  rw [padOut]
  split_ifs
  · exact store_of_lt h
  · rfl

lemma padOut_agree (h : Agree sp mem m) : Agree (padOut mem sp).1 (padOut mem sp).2
    (padOut m sp).2 := by
  rw [padOut, padOut]
  split_ifs with hsp
  · have hend : sp + (replicate (bootpMinLen - sp) dhoPad).length = bootpMinLen := by
      rw [length_replicate]
      omega
    have hagree := h.append (replicate (bootpMinLen - sp) dhoPad)
    rwa [hend] at hagree
  · exact h

/-- The bytes of a packet with the option, up to its end option. -/
def Config.added (cfg : Config) (link : Bool) (subs : List UInt8) (st : Cursor) : ByteMem :=
  let mem := st.mem.store st.place ([dhoDhcpAgentOptions, UInt8.ofNat subs.length] ++ subs)
  (if link then mem.store giaddrAt cfg.uplink else mem).store (st.place + subs.length + 2) [dhoEnd]

lemma finish_of_room (st : Cursor) (link : Bool) (h : st.place + subs.length + 3 ≤ st.max) :
    cfg.finish link subs st = padOut (cfg.added link subs st) (st.place + subs.length + 3) := by
  rw [Config.finish, if_pos h]
  dsimp only
  rw [if_pos (by omega)]
  rfl

lemma added_of_lt {link : Bool} {i : ℕ} (hi : giaddrAt + 4 ≤ i) (hlt : i < st.place) :
    cfg.added link subs st i = st.mem i := by
  have hup := cfg.uplink.2
  rw [Config.added, store_of_lt (by omega)]
  split_ifs
  · rw [store_of_le (by rw [hup]; exact hi), store_of_lt hlt]
  · rw [store_of_lt hlt]

lemma added_option {link : Bool} (hplace : giaddrAt + 4 ≤ st.place) {i : ℕ}
    (hi : i < ([dhoDhcpAgentOptions, UInt8.ofNat subs.length] ++ subs).length) :
    cfg.added link subs st (st.place + i) =
      ([dhoDhcpAgentOptions, UInt8.ofNat subs.length] ++ subs)[i] := by
  have hup := cfg.uplink.2
  have hlen : ([dhoDhcpAgentOptions, UInt8.ofNat subs.length] ++ subs).length =
    subs.length + 2 := by
    simp
  rw [Config.added, store_of_lt (by omega)]
  split_ifs
  · rw [store_of_le (by rw [hup]; omega), store_add hi]
  · rw [store_add hi]

lemma added_end {link : Bool} : cfg.added link subs st (st.place + subs.length + 2) = dhoEnd := by
  rw [Config.added]
  exact store_add (i := 0) (by decide)

lemma added_agree (link : Bool) (h : Agree st.place mem m) :
    Agree (st.place + subs.length + 3) (cfg.added link subs (st.on mem))
      (cfg.added link subs (st.on m)) := by
  have hopt := h.append ([dhoDhcpAgentOptions, UInt8.ofNat subs.length] ++ subs)
  have hlen : st.place + ([dhoDhcpAgentOptions, UInt8.ofNat subs.length] ++ subs).length =
      st.place + subs.length + 2 := by simp; omega
  rw [hlen] at hopt
  cases link with
  | false => exact hopt.append [dhoEnd]
  | true => exact (hopt.store giaddrAt cfg.uplink).append [dhoEnd]

lemma finish_agree (link : Bool) (h : Agree st.place mem m) :
    (cfg.finish link subs (st.on mem)).1 = (cfg.finish link subs (st.on m)).1 ∧
      Agree (cfg.finish link subs (st.on mem)).1 (cfg.finish link subs (st.on mem)).2
        (cfg.finish link subs (st.on m)).2 := by
  have hpad {sp : ℕ} {mem m : ByteMem} (h : Agree sp mem m) :
      (padOut mem sp).1 = (padOut m sp).1 ∧
        Agree (padOut mem sp).1 (padOut mem sp).2 (padOut m sp).2 :=
    ⟨by rw [padOut_fst, padOut_fst], padOut_agree h⟩
  by_cases hroom : st.place + subs.length + 3 ≤ st.max
  · rw [finish_of_room (st.on mem) link hroom, finish_of_room (st.on m) link hroom]
    exact hpad (added_agree link h)
  · have hfull (m : ByteMem) : cfg.finish link subs (st.on m) =
        if st.place < st.max then padOut (m.store st.place [dhoEnd]) (st.place + 1)
        else padOut m st.place := by
      rw [Config.finish,
        if_neg (show ¬(st.on m).place + subs.length + 3 ≤ (st.on m).max from hroom)]
      rfl
    rw [hfull, hfull]
    split_ifs
    · exact hpad (h.append [dhoEnd])
    · exact hpad h

end Finish

/-! ### The round trip -/

structure Adds (cfg : Config) (ip : Interface) (giaddr : InAddr) (mem : ByteMem) (length : ℕ)
    (st : Cursor) (subs : List UInt8) : Prop where
  on : cfg.addAgentOptions
  scan : cfg.scan mem length = .out st
  dhcp : st.isDhcp
  parts : ip.suboptions giaddr (cfg.addingLinkSelect mem) = some subs
  room : st.place + subs.length + 3 ≤ st.max

def SamePacket : Option (ℕ × ByteMem) → Option (ℕ × ByteMem) → Prop
  | some (n, mem), some (n', mem') => n = n' ∧ Agree n mem mem'
  | none, none => True
  | _, _ => False

/-- What is asked of a request with the options `os`: whatever lies behind it in the buffer, the
result is the same; and if the option is added, the packet is not too long, its options end with
an end option, and stripping it, again whatever lies behind it, finds the interface and gives the
options of the request back. -/
structure RoundTrip (cfg : Config) (ip : Interface) (giaddr : InAddr) (mem : ByteMem)
    (length : ℕ) (os : List Opt) : Prop where
  inside : ∀ m, Agree length mem m → SamePacket (cfg.addRelayAgentOptions ip giaddr mem length)
    (cfg.addRelayAgentOptions ip giaddr m length)
  back : ∀ m, Agree length mem m → ∀ st subs, Adds cfg ip giaddr m length st subs →
    ∃ n mem', cfg.addRelayAgentOptions ip giaddr m length = some (n, mem') ∧
      n ≤ cfg.dhcpMaxAgentOptionPacketLength ∧
      (∃ e os', Items mem' optionsAt e os' ∧ e < n ∧ mem' e = dhoEnd) ∧
      ∀ out, ∃ n' mem'', cfg.stripRelayAgentOptions out mem' n = (n', mem'', some ip) ∧
        Options mem'' n' os ∧
        ∀ m', Agree n mem' m' → ∃ m'',
          cfg.stripRelayAgentOptions out m' n = (n', m'', some ip) ∧ Agree n' mem'' m''

/-- The walk over the request ends inside it; and if the option is added, it goes behind all the
options of the request, a packet of the least length is allowed, and no interface before this one
has its circuit identifier. -/
structure Contained (cfg : Config) (ip : Interface) (giaddr : InAddr) (mem : ByteMem)
    (length : ℕ) (os : List Opt) : Prop where
  inside : cfg.addAgentOptions → ¬RunsOut cfg mem length
  adds : ∀ st subs, Adds cfg ip giaddr mem length st subs →
    Items mem optionsAt st.place os ∧ bootpMinLen ≤ cfg.dhcpMaxAgentOptionPacketLength ∧
      cfg.interfaces.find? (fun i => i.circuitId = ip.circuitId) = some ip

section RoundTrip

variable {cfg : Config} {ip : Interface} {giaddr : InAddr} {mem m : ByteMem} {length : ℕ}
  {os : List Opt} {st : Cursor} {subs : List UInt8}

lemma add_of_out (hon : cfg.addAgentOptions) (hcookie : Cookie mem)
    (hscan : cfg.scan mem length = .out st) : cfg.addRelayAgentOptions ip giaddr mem length =
      if st.isDhcp then (ip.suboptions giaddr (cfg.addingLinkSelect mem)).map fun subs =>
        cfg.finish (cfg.addingLinkSelect mem) subs st
      else some (length, st.mem) := by
  rw [Config.addRelayAgentOptions, if_neg (by simp [hon, hcookie]), hscan]
  cases hd : st.isDhcp <;> simp [hd]

variable {mem' : ByteMem}

lemma add_of_ret {n : ℕ} (hon : cfg.addAgentOptions) (hcookie : Cookie mem)
    (hscan : cfg.scan mem length = .ret n mem') :
    cfg.addRelayAgentOptions ip giaddr mem length = some (n, mem') := by
  rw [Config.addRelayAgentOptions, if_neg (by simp [hon, hcookie]), hscan]

lemma Adds.packet (h : Adds cfg ip giaddr mem length st subs) (hcookie : Cookie mem) :
    ∃ mem', cfg.addRelayAgentOptions ip giaddr mem length =
        some (max bootpMinLen (st.place + subs.length + 3), mem') ∧
      Agree (st.place + subs.length + 3) (cfg.added (cfg.addingLinkSelect mem) subs st) mem' := by
  refine ⟨_, ?_, fun i hi => (padOut_of_lt hi).symm⟩
  rw [add_of_out h.on hcookie h.scan, if_pos h.dhcp, h.parts, map_some,
    finish_of_room _ _ h.room, ← padOut_fst]

lemma Seen.packet {link : Bool} (hs : Seen mem st os)
    (hcookie : Cookie mem) (hlen : subs.length ≤ 255)
    (h : Agree (st.place + subs.length + 3) (cfg.added link subs st) mem') :
    mem'.load cookieAt 4 = dhcpOptionsCookie ∧ Items mem' optionsAt st.place os ∧
      optAt mem' st.place = ⟨dhoDhcpAgentOptions, subs⟩ ∧
      mem' (st.place + subs.length + 2) = dhoEnd := by
  have hplace : 240 ≤ st.place := hs.place.le
  have hlow (i : ℕ) (hi : 28 ≤ i) (hlt : i < st.place) : mem i = mem' i := by
    rw [← h i (by omega), added_of_lt hi hlt, hs.same]
  have hopt (i : ℕ) (hi : i < ([dhoDhcpAgentOptions, UInt8.ofNat subs.length] ++ subs).length) :
      mem' (st.place + i) = ([dhoDhcpAgentOptions, UInt8.ofNat subs.length] ++ subs)[i] := by
    have hi' : i < subs.length + 2 := by
      rw [length_append, length_cons, length_singleton] at hi
      omega
    rw [← h _ (by omega), added_option (by change 28 ≤ _; omega) hi]
  have h0 : mem' st.place = dhoDhcpAgentOptions := hopt 0 (by simp)
  have h1 : (mem' (st.place + 1)).toNat = subs.length := by
    rw [hopt 1 (by simp)]
    change subs.length % 256 = subs.length
    omega
  refine ⟨?_, hs.place.congr fun i hi hlt => hlow i (by change 240 ≤ i at hi; omega) hlt, ?_, ?_⟩
  · rw [← hcookie]
    exact load_congr fun i hi => (hlow _ (by simp [cookieAt]; omega)
      (by simp [cookieAt]; omega)).symm
  · rw [optAt, h0, h1]
    congr 1
    apply ext_getElem
    · simp
    · intro i h₁ h2
      rw [getElem_load, Nat.add_assoc, Nat.add_comm 2 i, hopt (i + 2) (by simpa using h2)]
      rfl
  · rw [← h _ (by omega), added_end]

lemma Options.le (h : Options mem length os) : optionsAt ≤ length := by
  obtain ⟨e, hi, he⟩ := h
  exact hi.le.trans he.le

lemma cookie_of_agree (h : Agree length mem m) (hle : optionsAt ≤ length) :
    m.load cookieAt 4 = mem.load cookieAt 4 :=
  (h.load (by change 240 ≤ length; exact hle)).symm

lemma addingLinkSelect_of_agree (h : Agree length mem m) (hle : optionsAt ≤ length) :
    cfg.addingLinkSelect m = cfg.addingLinkSelect mem := by
  have hle : 240 ≤ length := hle
  rw [Config.addingLinkSelect, Config.addingLinkSelect,
    h.load (by simp [giaddrAt]; omega : giaddrAt + 4 ≤ length)]

/-- **Back again**: the packet with the option is stripped to one with the options that were
seen. -/
lemma Seen.strip {n : ℕ} {link : Bool} (hs : Seen mem st os) (hon : cfg.addAgentOptions)
    (hcookie : Cookie mem) (hd : st.isDhcp)
    (hsubs : ip.suboptions giaddr link = some subs) {j : Interface}
    (hj : cfg.interfaces.find? (fun i => i.circuitId = ip.circuitId) = some j)
    (hn : st.place + subs.length + 3 ≤ n)
    (h : Agree (st.place + subs.length + 3) (cfg.added link subs st) mem')
    (out : Option Interface) : let r := padOut (mem'.store st.place [dhoEnd]) (st.place + 1)
      cfg.stripRelayAgentOptions out mem' n = (r.1, r.2, some j) ∧ Options r.2 r.1 os := by
  obtain ⟨id, more, -, -, -, hlen, -, -⟩ := suboptions_eq hsubs
  obtain ⟨hcookie', hitems, hopt, hend⟩ := hs.packet hcookie hlen h
  have hstrip := strip_added hon hcookie' hitems hs.client (hs.dhcp ▸ hd) hopt hend hn
    (by rw [findInterface_suboptions _ hsubs, hj]) out
  rw [if_neg (by simp)] at hstrip
  refine ⟨hstrip, st.place, ?_, .inr ⟨?_, ?_⟩⟩
  · refine hitems.congr fun i _ hlt => ?_
    rw [padOut_of_lt (by omega), store_of_lt hlt]
  · rw [padOut_fst]
    exact lt_max_of_lt_right (Nat.lt_succ_self _)
  · rw [padOut_of_lt (Nat.lt_succ_self _)]
    exact store_add (i := 0) (by decide)

lemma Adds.congr (h : Adds cfg ip giaddr m length (st.on m) subs) (hm : Agree length mem m)
    (hle : optionsAt ≤ length) (hscan : cfg.scan mem length = .out (st.on mem)) :
    Adds cfg ip giaddr mem length (st.on mem) subs :=
  ⟨h.on, hscan, h.dhcp, addingLinkSelect_of_agree hm hle ▸ h.parts, h.room⟩

lemma samePacket_of_out (hon : cfg.addAgentOptions) (hle : optionsAt ≤ length)
    (hcookie : Cookie mem) (hplace : st.place ≤ length)
    (hscan : ∀ m, Agree length mem m → cfg.scan m length = .out (st.on m))
    (hm : Agree length mem m) : SamePacket (cfg.addRelayAgentOptions ip giaddr mem length)
      (cfg.addRelayAgentOptions ip giaddr m length) := by
  have hcookie' := (cookie_of_agree hm hle).trans hcookie
  rw [add_of_out hon hcookie (hscan mem fun _ _ => rfl), add_of_out hon hcookie' (hscan m hm),
    addingLinkSelect_of_agree hm hle]
  change SamePacket (if st.isDhcp then _ else _) (if st.isDhcp then _ else _)
  split_ifs
  · cases ip.suboptions giaddr (cfg.addingLinkSelect mem) with
    | none => trivial
    | some subs => exact finish_agree _ (hm.mono hplace)
  · exact ⟨rfl, hm⟩

lemma addTurn_last {code : UInt8} (hcode : st.mem st.op = code)
    (hother : code ∉
      [dhoPad, dhoEnd, dhoDhcpAgentOptions, dhoDhcpMessageType, dhoDhcpMaxMessageSize])
    (hop : st.op + 1 = st.max) : cfg.addTurn length st = .stop (.ret 0 st.mem) := by
  simp only [mem_cons, not_mem_nil, or_false, not_or] at hother
  obtain ⟨hpad, hend, h82, h53, h57⟩ := hother
  have hnote : cfg.note st = st := by
    rw [Config.note, hcode, if_neg h53, if_neg fun h => h57 h.1]
  rw [Config.addTurn, hcode, if_neg hpad, if_neg hend, if_neg fun h => h82 h.1, hnote, Cursor.skip]
  exact if_pos (by omega)

lemma add_ne_zero (hon : cfg.addAgentOptions) (hcookie : Cookie mem)
    (hscan : cfg.scan mem length = .out st) (hlen : 0 < length) (mem' : ByteMem) :
    cfg.addRelayAgentOptions ip giaddr mem length ≠ some (0, mem') := by
  have hpad (mem : ByteMem) (sp : ℕ) : (padOut mem sp).1 ≠ 0 := by
    rw [padOut_fst]
    exact (lt_max_of_lt_left (by decide)).ne'
  rw [add_of_out hon hcookie hscan]
  intro h
  split_ifs at h
  · obtain ⟨subs, -, h⟩ := map_eq_some_iff.mp h
    rw [Config.finish] at h
    dsimp only at h
    split_ifs at h <;> exact hpad _ _ (congrArg Prod.fst h)
  · exact hlen.ne' (congrArg Prod.fst (some.inj h))

section RunsOut

variable (hs : Seen mem st os) (hop : st.op = length) (hmax : length < st.max)
  (hw : ∀ m, Agree length mem m → Walks cfg length (cfg.start m) (st.on m))

include hop hmax hw

lemma scan_end : cfg.scan (mem.store length [dhoEnd]) length =
    .out (st.on (mem.store length [dhoEnd])) := by
  refine scan_of_walks (hw _ (agree_store le_rfl)) (.inr ⟨hop ▸ hmax, ?_⟩)
  have hcode : (st.on (mem.store length [dhoEnd])).mem st.op = dhoEnd := by
    rw [hop]
    exact store_add (i := 0) (by decide)
  rw [Config.addTurn, show (st.on (mem.store length [dhoEnd])).op = st.op from rfl, hcode,
    if_neg (by decide), if_pos rfl]

include hs

/-- With pads behind the request, and an option in the last byte before the limit, the packet is
dropped. -/
lemma scan_pads : ∃ m m', Agree length mem m ∧ cfg.scan m length = .ret 0 m' := by
  let pads := replicate (st.max - length - 1) dhoPad
  have hlen : pads.length = st.max - length - 1 := length_replicate
  have hbyte {i : ℕ} (hi : i < (pads ++ [1]).length) :
      mem.store length (pads ++ [1]) (length + i) = (pads ++ [1])[i] := store_add hi
  have hm : Agree length mem (mem.store length (pads ++ [1])) := agree_store le_rfl
  generalize mem.store length (pads ++ [1]) = m at hbyte hm
  obtain ⟨st', hs', hw', hop', hmax'⟩ := (hs.congr (hop ▸ hm)).pads cfg length pads.length
    (fun i hi => by
      change m (st.op + i) = dhoPad
      rw [hop, hbyte (by rw [length_append]; omega), getElem_append_left hi, getElem_replicate])
    (by change st.op + _ ≤ st.max; omega)
  change st'.op = st.op + _ at hop'
  change st'.max = st.max at hmax'
  have hcode : st'.mem st'.op = 1 := by
    rw [hs'.same, hop', hop, hbyte (by simp), getElem_append_right le_rfl]
    simp
  exact ⟨m, st'.mem, hm, scan_of_walks ((hw m hm).trans hw')
    (.inr ⟨by omega, addTurn_last hcode (by decide) (by omega)⟩)⟩

/-- **A request that runs out** is passed on or dropped as the bytes behind it say. -/
lemma not_samePacket_of_runsOut (hon : cfg.addAgentOptions) (hcookie : Cookie mem) :
    ∃ m m', Agree length mem m ∧ Agree length mem m' ∧
      ¬SamePacket (cfg.addRelayAgentOptions ip giaddr m length)
        (cfg.addRelayAgentOptions ip giaddr m' length) := by
  have hle : optionsAt ≤ length := hop ▸ hs.items.le
  have hpos : 0 < length := Nat.lt_of_lt_of_le (by decide) hle
  have hout := scan_end hop hmax hw
  have hm : Agree length mem (mem.store length [dhoEnd]) := agree_store le_rfl
  obtain ⟨m', m'', hm', hret⟩ := scan_pads hs hop hmax hw
  have hcookie' := (cookie_of_agree hm hle).trans hcookie
  refine ⟨_, m', hm, hm', fun h => ?_⟩
  rw [add_of_ret hon ((cookie_of_agree hm' hle).trans hcookie) hret] at h
  cases hadd : cfg.addRelayAgentOptions ip giaddr (mem.store length [dhoEnd]) length with
  | none =>
    rw [hadd] at h
    exact h
  | some r =>
    rw [hadd] at h
    exact add_ne_zero hon hcookie' hout hpos r.2 (by rw [hadd, ← h.1])

end RunsOut

lemma SamePacket.of_common {r r1 r2 : Option (ℕ × ByteMem)} (h₁ : SamePacket r r1)
    (h₂ : SamePacket r r2) : SamePacket r1 r2 := by
  rcases r with - | ⟨n, mem⟩ <;> rcases r1 with - | ⟨n1, mem1⟩ <;> rcases r2 with - | ⟨n2, mem2⟩ <;>
    try trivial
  obtain ⟨rfl, h₁⟩ := h₁
  obtain ⟨rfl, h₂⟩ := h₂
  exact ⟨rfl, fun i hi => (h₁ i hi).symm.trans (h₂ i hi)⟩

/-- **There and back**: a request whose walk ended in it, with an option added behind all that it
had. -/
lemma Seen.back (hs : Seen mem st os) (hcookie : Cookie mem)
    (hadds : Adds cfg ip giaddr mem length st subs)
    (hmax : bootpMinLen ≤ cfg.dhcpMaxAgentOptionPacketLength)
    (hcap : st.max ≤ cfg.dhcpMaxAgentOptionPacketLength)
    (hip : cfg.interfaces.find? (fun i => i.circuitId = ip.circuitId) = some ip) :
    ∃ n mem', cfg.addRelayAgentOptions ip giaddr mem length = some (n, mem') ∧
      n ≤ cfg.dhcpMaxAgentOptionPacketLength ∧
      (∃ e os', Items mem' optionsAt e os' ∧ e < n ∧ mem' e = dhoEnd) ∧
      ∀ out, ∃ n' mem'', cfg.stripRelayAgentOptions out mem' n = (n', mem'', some ip) ∧
        Options mem'' n' os ∧
        ∀ m', Agree n mem' m' → ∃ m'',
          cfg.stripRelayAgentOptions out m' n = (n', m'', some ip) ∧ Agree n' mem'' m'' := by
  obtain ⟨id, more, -, -, -, hlen, -, -⟩ := suboptions_eq hadds.parts
  obtain ⟨mem', hadd, hagree⟩ := hadds.packet hcookie
  have hn : st.place + subs.length + 3 ≤ max bootpMinLen (st.place + subs.length + 3) :=
    le_max_right _ _
  refine ⟨_, mem', hadd, max_le hmax (hadds.room.trans hcap), ?_, fun out => ?_⟩
  · obtain ⟨-, hitems, hopt, hend⟩ := hs.packet hcookie hlen hagree
    exact ⟨_, _, hitems.trans (items_of_optAt hopt (by decide) (by decide)),
      Nat.lt_of_lt_of_le (Nat.lt_succ_self _) hn, hend⟩
  · obtain ⟨hstrip, hback⟩ := hs.strip hadds.on hcookie hadds.dhcp hadds.parts hip hn hagree out
    refine ⟨_, _, hstrip, hback, fun m' hm' => ?_⟩
    obtain ⟨hstrip', -⟩ := hs.strip hadds.on hcookie hadds.dhcp hadds.parts hip hn
      (fun i hi => (hagree i hi).trans (hm' i (Nat.lt_of_lt_of_le hi hn))) out
    have hplace : st.place ≤ max bootpMinLen (st.place + subs.length + 3) := by omega
    refine ⟨_, ?_, padOut_agree ((hm'.mono hplace).append [dhoEnd])⟩
    rw [hstrip', padOut_fst, padOut_fst]

lemma Contained.roundTrip (h : Contained cfg ip giaddr mem length os)
    (hcookie : Cookie mem) (hreq : Options mem length os)
    (hstd : Standard os) : RoundTrip cfg ip giaddr mem length os := by
  have hle := hreq.le
  obtain ⟨e, hi, he⟩ := hreq
  by_cases hon : cfg.addAgentOptions
  · have hcookie' {m : ByteMem} (hm : Agree length mem m) := (cookie_of_agree hm hle).trans hcookie
    rcases scan_cases hi he hstd with ⟨hout, -⟩ | ⟨-, hret⟩ | ⟨-, st, os1, hs, hop, hcap, hout⟩
    · exact absurd hout (h.inside hon)
    · refine ⟨fun m hm => ?_, fun m hm st subs hadds => ?_⟩
      · rw [add_of_ret hon hcookie (hret mem fun _ _ => rfl),
          add_of_ret hon (hcookie' hm) (hret m hm)]
        exact ⟨rfl, fun i hi => absurd hi (Nat.not_lt_zero i)⟩
      · cases (hret m hm).symm.trans hadds.scan
    · have hplace := hs.le.trans hop
      refine ⟨fun m hm => samePacket_of_out hon hle hcookie hplace hout hm,
        fun m hm st' subs hadds => ?_⟩
      cases (hout m hm).symm.trans hadds.scan
      have hadds' := hadds.congr hm hle (hout mem fun _ _ => rfl)
      rw [hs.on_same] at hadds'
      obtain ⟨hall, hmax, hip⟩ := h.adds st subs hadds'
      obtain rfl : os1 = os := hs.place.unique (.inl rfl) hall (.inl rfl)
      exact (hs.congr (hm.mono hop)).back (hcookie' hm) hadds hmax hcap hip
  · refine ⟨fun m hm => ?_, fun m _ st subs hadds => absurd hadds.on hon⟩
    rw [Config.addRelayAgentOptions, Config.addRelayAgentOptions, if_pos (by simp [hon]),
      if_pos (by simp [hon])]
    exact ⟨rfl, hm⟩

lemma RoundTrip.contained (h : RoundTrip cfg ip giaddr mem length os)
    (hcookie : Cookie mem) (hreq : Options mem length os)
    (hstd : Standard os) : Contained cfg ip giaddr mem length os := by
  obtain ⟨e, hi, he⟩ := hreq
  have hin : cfg.addAgentOptions → ¬RunsOut cfg mem length := by
    intro hon
    rcases scan_cases hi he hstd with ⟨-, st, hs, hop, hmax, hw⟩ | ⟨hno, -⟩ | ⟨hno, -⟩
    · obtain ⟨m, m', hm, hm', hne⟩ := not_samePacket_of_runsOut hs hop hmax hw hon hcookie
      exact absurd ((h.inside m hm).of_common (h.inside m' hm')) hne
    · exact hno
    · exact hno
  refine ⟨hin, fun st subs hadds => ?_⟩
  rcases scan_cases hi he hstd with ⟨hout, -⟩ | ⟨-, hret⟩ | ⟨-, st', os1, hs, hop, hcap, hout⟩
  · exact absurd hout (hin hadds.on)
  · cases (hret mem fun _ _ => rfl).symm.trans hadds.scan
  · obtain rfl : st' = st := by
      rw [← hs.on_same]
      exact Outcome.out.inj ((hout mem fun _ _ => rfl).symm.trans hadds.scan)
    obtain ⟨id, more, -, -, -, hlen, -, -⟩ := suboptions_eq hadds.parts
    obtain ⟨n, mem', hadd, hn, -, hback⟩ := h.back mem (fun _ _ => rfl) st' subs hadds
    obtain ⟨n', mem'', hstrip, hos, -⟩ := hback none
    obtain ⟨_, hadd', hagree⟩ := hadds.packet hcookie
    cases hadd'.symm.trans hadd
    have hroom : st'.place + subs.length + 3 ≤ max bootpMinLen (st'.place + subs.length + 3) :=
      le_max_right _ _
    cases hfind : cfg.interfaces.find? (fun i => i.circuitId = ip.circuitId) with
    | none =>
      obtain ⟨hcookie', hitems, hopt, hend⟩ := hs.packet hcookie hlen hagree
      have hlost := strip_added hadds.on hcookie' hitems hs.client (hs.dhcp ▸ hadds.dhcp) hopt hend
        hroom (by rw [findInterface_suboptions _ hadds.parts, hfind]) none
      rw [hstrip] at hlost
      split_ifs at hlost <;> cases hlost
    | some j =>
      obtain ⟨hstrip', hos'⟩ :=
        hs.strip hadds.on hcookie hadds.dhcp hadds.parts hfind hroom hagree none
      obtain ⟨rfl, h⟩ := Prod.mk.inj (hstrip.symm.trans hstrip')
      obtain ⟨rfl, hj⟩ := Prod.mk.inj h
      obtain rfl := hos.unique hos'
      exact ⟨hs.place, (le_max_left _ _).trans hn, hj.symm⟩

/-- **The round trip of a request**, with an option added and taken out again, succeeds if and
only if the walk over the request is contained in it. -/
theorem relay_round_trip_iff (cfg : Config) (ip : Interface) (giaddr : InAddr) (mem : ByteMem)
    (length : ℕ) (os : List Opt) (hcookie : mem.load cookieAt 4 = dhcpOptionsCookie)
    (hreq : Options mem length os) (hstd : Standard os) :
    RoundTrip cfg ip giaddr mem length os ↔ Contained cfg ip giaddr mem length os :=
  ⟨fun h => h.contained hcookie hreq hstd, fun h => h.roundTrip hcookie hreq hstd⟩

/-- A buffer with a packet that has these bytes behind its cookie. -/
def bufferOf (options : List UInt8) : ByteMem :=
  (ofList []).store cookieAt (dhcpOptionsCookie ++ options)

def sampleInterface : Interface := { name := [101], circuitId := some [101] }

def sampleConfig : Config := { addAgentOptions := true, interfaces := [sampleInterface] }

/-- A discover, whatever follows its message type. -/
lemma items_discover {rest : List UInt8}
    (h : optAt (bufferOf (53 :: 1 :: 1 :: rest)) optionsAt = ⟨53, [1]⟩) :
    Items (bufferOf (53 :: 1 :: 1 :: rest)) optionsAt 243 [⟨53, [1]⟩] ∧ Standard [⟨53, [1]⟩] :=
  ⟨items_of_optAt h (by decide) (by decide),
    by simp [Standard, dhoDhcpAgentOptions, dhoDhcpMaxMessageSize]⟩

/-- A discover with an end option comes back as it was. -/
theorem relay_round_trip_discover :
    RoundTrip sampleConfig sampleInterface ⟨[10, 0, 0, 1], rfl⟩ (bufferOf [53, 1, 1, 255]) 244
      [⟨53, [1]⟩] := by
  obtain ⟨hitems, hstd⟩ := @items_discover [255] (by decide)
  refine (relay_round_trip_iff _ _ _ _ _ _ (by decide)
    ⟨243, hitems, .inr ⟨by decide, by decide⟩⟩ hstd).mpr ?_
  have hw : Walks sampleConfig 244 (sampleConfig.start (bufferOf [53, 1, 1, 255]))
      { mem := bufferOf [53, 1, 1, 255], op := 243, sp := 243, max := 576, isDhcp := true } :=
    .step (by decide) rfl (.refl _)
  have he : Ends sampleConfig 244
      { mem := bufferOf [53, 1, 1, 255], op := 243, sp := 243, max := 576, isDhcp := true } _ :=
    .inr ⟨by decide, rfl⟩
  refine ⟨fun _ => not_runsOut hw he (.inl (by decide)), fun st subs h => ?_⟩
  cases (scan_of_walks hw he).symm.trans h.scan
  exact ⟨hitems, by decide, by decide⟩

/-- **A request without an end option**: the option behind it in the buffer, of an earlier packet,
is passed on to the server and comes back to the client. -/
theorem relay_reads_beyond_request :
    Options (bufferOf [53, 1, 1, 12, 1, 97, 255]) 243 [⟨53, [1]⟩] ∧ Standard [⟨53, [1]⟩] ∧
      ((sampleConfig.addRelayAgentOptions sampleInterface ⟨[10, 0, 0, 1], rfl⟩
        (bufferOf [53, 1, 1, 12, 1, 97, 255]) 243).map fun r => (r.1, r.2.load optionsAt 12)) =
          some (300, [53, 1, 1, 12, 1, 97, 82, 3, 1, 1, 101, 255]) ∧
      ((sampleConfig.addRelayAgentOptions sampleInterface ⟨[10, 0, 0, 1], rfl⟩
        (bufferOf [53, 1, 1, 12, 1, 97, 255]) 243).map fun r =>
          (sampleConfig.stripRelayAgentOptions none r.2 r.1).2.1.load optionsAt 7) =
          some [53, 1, 1, 12, 1, 97, 255] ∧
      ¬RoundTrip sampleConfig sampleInterface ⟨[10, 0, 0, 1], rfl⟩
        (bufferOf [53, 1, 1, 12, 1, 97, 255]) 243 [⟨53, [1]⟩] := by
  obtain ⟨hitems, hstd⟩ := @items_discover [12, 1, 97, 255] (by decide)
  refine ⟨⟨243, hitems, .inl rfl⟩, hstd, by decide +kernel, by decide +kernel, fun h => ?_⟩
  refine (h.contained (by decide) ⟨243, hitems, .inl rfl⟩ hstd).inside rfl
    ⟨{ mem := bufferOf [53, 1, 1, 12, 1, 97, 255]
       op := 243, sp := 243, max := 576, isDhcp := true },
      .step (by decide) rfl (.refl _), rfl, by decide⟩

end RoundTrip

end IscDhcp.Relay
