import IscDhcp.Ddns.Conflict

/-!
What the server knows of the names it has entered into the DNS.

The invariant says for each address which of its records can be there, by the state of the one
request that is under way for it. Here it is shown that the server keeps it, if requests for one
address follow each other and the results say what has been done.
-/

namespace IscDhcp.Ddns

open IscDhcp.Lib.Dns Option Function

def Recorded (z : Zone Bytes) (a n : Bytes) : Prop := ∃ t, addressType a = some t ∧ (t, a) ∈ z n

/-- The names of the active dynamic leases without a request under way are remembered. -/
def World.NoOrphan (w : World) : Prop :=
  ∀ a n, (w.lease a).active = true → (w.lease a).static = false → (w.lease a).ddnsCb = none →
    Recorded w.zone a n → (w.lease a).fwdName = some n

abbrev Flight := Option (Update Bytes × Option Result)

abbrev Outstanding := Option (ℕ × Request × Flight)

def LeaseText.tag (l : LeaseText) (standard : Bool) : Option Bytes :=
  if standard then l.standardTag else l.interimTag

/-! ### The invariant -/

section

variable (standard : Bool) (z : Zone Bytes) (a : Bytes) (l : LeaseText)

/-- The strings of the lease belong together. -/
structure LeaseText.Formed : Prop where
  named : ∀ n, l.fwdName = some n → n ≠ [] ∧ ∃ d, l.tag standard = some d
  other : l.tag (!standard) = none

def Owed (n : Bytes) : Prop := l.static = false ∧ Recorded z a n

structure Stored (n : Bytes) : Prop where
  fwdName : l.fwdName = some n
  identity : ∃ d, l.tag standard = some d ∧ rrset (z n) (dhcidClass standard) = {d}

/-- The lease remembers all its records. -/
def Kept : Prop := ∀ n, Owed z a l n → Stored standard z l n

/-- The records that can be there while the request is under way. -/
inductive Stage (r : Request) : Flight → Prop
  | add {u : Update Bytes} {x : Option Result}
      (state : r.state = .addFwNxdomain ∨ r.state = .addFwYxdhcid)
      (active : r.flags.activeLease = true) (message : r.fwdMessage = some u)
      (style : r.standard = standard) (named : r.fwdName ≠ [])
      (only : ∀ n, Owed z a l n → n = r.fwdName)
      (known : ∀ n, Owed z a l n → if x = some .success then
        rrset (z n) (dhcidClass standard) = {r.dhcid} else Stored standard z l n) :
      Stage r (some (u, x))
  | addPtr (state : r.state = .addPtr)
      (known : ∀ n, Owed z a l n → Stored standard z l n) : Stage r none
  | rem1 {u : Update Bytes} {x : Option Result} (state : r.state = .remFwYxdhcid)
      (message : r.fwdMessage = some u) (style : r.standard = standard)
      (executeNext : r.flags.executeNext = false)
      (known : ∀ n, Owed z a l n → n = r.fwdName ∧ x = none ∧
        rrset (z n) (dhcidClass standard) = {r.dhcid} ∧
        (r.flags.activeLease = true → Stored standard z l n)) :
      Stage r (some (u, x))
  | rem2 {u : Update Bytes} {x : Option Result} (state : r.state = .remFwNxrr)
      (message : r.fwdMessage = some u) (style : r.standard = standard)
      (known : ∀ n, ¬ Owed z a l n) : Stage r (some (u, x))
  | remPtr (state : r.state = .remPtr)
      (known : ∀ n, Owed z a l n → Stored standard z l n ∧ r.flags.activeLease = true ∧
        (r.flags.executeNext = true → r.nextOp = none)) : Stage r none

structure Cb.Queued (c : Cb) : Prop where
  address : c.address = a
  style : c.standard = standard
  named : c.fwdName ≠ []
  state : c.state = .cleanup
  staticLease : c.flags.staticLease = l.static
  activeLease : c.flags.activeLease = true
  abort : c.flags.abort = false
  conflictOverride : c.flags.conflictOverride = false
  includeRrset : c.flags.includeRrset = false

/-- The lease is found when the results arrive. -/
def LeaseText.Found : Prop := a.length = 4 ∨ l.active = true

/-- The pointer of the lease. An inactive DHCPv6 lease has none. -/
def Pointer (k : ℕ) (r : Request) : Prop :=
  l.ddnsCb = if l.static || (a.length = 16 && !r.flags.activeLease) then none else some k

/-- The request and the lease know each other. -/
structure Linked (k : ℕ) (r : Request) : Prop where
  address : r.address = a
  abort : r.flags.abort = false
  conflictOverride : r.flags.conflictOverride = false
  includeRrset : r.flags.includeRrset = false
  staticLease : r.flags.staticLease = l.static
  found : r.flags.activeLease = true → l.Found a
  pointer : Pointer a l k r
  ended : a.length = 16 → r.flags.activeLease = false → l.active = false

structure Serves (k : ℕ) (r : Request) (f : Flight) : Prop extends Linked a l k r where
  nextOp : ∀ c ∈ r.nextOp, c.Queued standard a l ∧ r.flags.activeLease = true ∧
    r.state ≠ .addFwNxdomain ∧ r.state ≠ .addFwYxdhcid ∧ r.state ≠ .addPtr
  stage : Stage standard z a l r f

/-- One address: its lease and its request. -/
def Sound : Outstanding → Prop
  | none => l.ddnsCb = none ∧ ∀ n, Owed z a l n → Stored standard z l n
  | some (k, r, f) => Serves standard z a l k r f

end

section

variable {standard : Bool} {z z' : Zone Bytes} {a : Bytes} {l l' : LeaseText} {k : ℕ} {r : Request}
variable {f : Flight}

lemma Serves.queued (h : Serves standard z a l k r f) (c : Cb) (hc : c ∈ r.nextOp) :
    c.Queued standard a l ∧ r.flags.activeLease = true :=
  ⟨(h.nextOp c hc).1, (h.nextOp c hc).2.1⟩

def Adding (r : Request) : Prop := r.state = .addFwNxdomain ∨ r.state = .addFwYxdhcid

lemma Serves.nextOp_of_adding (h : Serves standard z a l k r f) (hs : Adding r) :
    r.nextOp = none := by
  cases hc : r.nextOp with
  | none => rfl
  | some c => rcases hs with hs | hs <;> simp_all [h.nextOp c hc]

lemma Stage.of_adding {u : Update Bytes} {x : Option Result}
    (h : Stage standard z a l r (some (u, x))) (hs : Adding r) :
    r.flags.activeLease = true ∧ r.standard = standard ∧ r.fwdName ≠ [] ∧
      (∀ n, Owed z a l n → n = r.fwdName) ∧
      (x = some .success → ∀ n, Owed z a l n → rrset (z n) (dhcidClass standard) = {r.dhcid}) ∧
      (x ≠ some .success → Kept standard z a l) := by
  cases h with
  | add _ hact _ hstyle hname only known =>
    exact ⟨hact, hstyle, hname, only, fun hx n hn => (if_pos hx).mp (known n hn),
      fun hx n hn => (if_neg hx).mp (known n hn)⟩
  | rem1 state => rcases hs with hs | hs <;> simp_all
  | rem2 state => rcases hs with hs | hs <;> simp_all

/-- The stage is the same over another zone and with other strings, if no record has come and the
identities are as they were. What was to follow may be dropped. -/
lemma Stage.congr (h : Stage standard z a l r f) (hown : ∀ n, Owed z' a l' n → Owed z a l n)
    (hid : ∀ n, Owed z' a l' n →
      rrset (z' n) (dhcidClass standard) = rrset (z n) (dhcidClass standard))
    (hst : ∀ n, Owed z' a l' n → r.flags.activeLease = true ∨ r.state = .addPtr →
      Stored standard z l n → Stored standard z' l' n)
    {o : Option Cb} (ho : o = r.nextOp ∨ o = none) :
    Stage standard z' a l' { r with nextOp := o } f := by
  cases h with
  | add state hact hm hstyle hname only known =>
    refine .add state hact hm hstyle hname (fun n hn => only n (hown n hn)) fun n hn => ?_
    have := known n (hown n hn)
    split_ifs at this ⊢
    · exact (hid n hn).trans this
    · exact hst n hn (.inl hact) this
  | addPtr state known =>
    exact .addPtr state fun n hn => hst n hn (.inr state) (known n (hown n hn))
  | rem1 state hm hstyle hnext known =>
    refine .rem1 state hm hstyle hnext fun n hn => ?_
    obtain ⟨h1, h2, h3, h4⟩ := known n (hown n hn)
    exact ⟨h1, h2, (hid n hn).trans h3, fun hact => hst n hn (.inl hact) (h4 hact)⟩
  | rem2 state hm hstyle known => exact .rem2 state hm hstyle fun n hn => known n (hown n hn)
  | remPtr state known =>
    refine .remPtr state fun n hn => ?_
    obtain ⟨h1, h2, h3⟩ := known n (hown n hn)
    exact ⟨hst n hn (.inl h2) h1, h2, fun hx => ho.elim (·.trans (h3 hx)) id⟩

end

namespace World

/-- There is one request at most for each address. -/
structure Rep (w : World) (S : Bytes → Outstanding) : Prop where
  mem : ∀ k r, w.request k = some r → S r.address = some (k, r, w.flight k)
  of_mem : ∀ {a k r f}, S a = some (k, r, f) →
    w.request k = some r ∧ r.address = a ∧ w.flight k = f
  fresh : ∀ k, w.fresh ≤ k → w.request k = none
  idle : ∀ k, w.request k = none → w.flight k = none

structure Tidy (w : World) (S : Bytes → Outstanding) : Prop where
  rep : w.Rep S
  formed : ∀ a, (w.lease a).Formed w.standard
  sound : ∀ a, Sound w.standard w.zone a (w.lease a) (S a)

/-- The property that is kept implies the one that is wanted. -/
lemma Tidy.noOrphan {w : World} {S : Bytes → Outstanding} (h : w.Tidy S) : w.NoOrphan := by
  intro a n hact hstat hcb hrec
  have hs := h.sound a
  cases hq : S a with
  | none =>
    rw [hq] at hs
    exact (hs.2 n ⟨hstat, hrec⟩).fwdName
  | some q =>
    rw [hq] at hs
    have hp := hs.pointer
    unfold Pointer at hp
    rw [hcb, hstat, Bool.false_or] at hp
    split_ifs at hp with hi
    simp only [Bool.and_eq_true, decide_eq_true_eq, Bool.not_eq_true'] at hi
    rw [hs.ended hi.1 hi.2] at hact
    cases hact

/-! ### Changes at one address -/

/-- The number is the one of the request for the address, or a new one. -/
def Owns (w : World) (k : ℕ) : Outstanding → Prop
  | none => w.request k = none ∧ k < w.fresh
  | some (j, _, _) => j = k

lemma Rep.put {w w' : World} {S : Bytes → Outstanding} {a : Bytes} {q : Outstanding} {k : ℕ}
    (h : w.Rep (Function.update S a q)) (ho : w.Owns k q) (v : Option (Request × Flight))
    (hv : ∀ x ∈ v, x.1.address = a)
    (hreq : w'.request = Function.update w.request k (v.map Prod.fst))
    (hfl : w'.flight = Function.update w.flight k (v.bind Prod.snd))
    (hfr : w'.fresh = w.fresh) : w'.Rep (Function.update S a (v.map fun x => (k, x.1, x.2))) where
  mem j r hj := by
    rw [hreq] at hj
    rw [hfl]
    by_cases hjk : j = k
    · subst hjk
      rw [update_self] at hj ⊢
      obtain ⟨x, rfl, rfl⟩ := map_eq_some_iff.mp hj
      rw [hv x rfl, update_self]
      rfl
    · rw [update_of_ne hjk] at hj ⊢
      have hm := h.mem j r hj
      by_cases ha : r.address = a
      · rw [ha, update_self] at hm
        subst hm
        exact absurd ho hjk
      · rwa [update_of_ne ha] at hm ⊢
  of_mem := by
    intro b j r f hb
    rw [hreq, hfl]
    by_cases hba : b = a
    · subst hba
      rw [update_self] at hb
      obtain ⟨x, rfl, hx⟩ := map_eq_some_iff.mp hb
      cases hx
      simp only [update_self, map_some, bind_some, true_and, and_true]
      exact hv x rfl
    · rw [update_of_ne hba] at hb
      obtain ⟨hr, hra, hf⟩ := h.of_mem (by rwa [update_of_ne hba])
      have hjk : j ≠ k := by
        rintro rfl
        cases q with
        | none => simp [ho.1] at hr
        | some q =>
          obtain ⟨i, r', f'⟩ := q
          obtain ⟨hr', hra', -⟩ := h.of_mem (by rw [update_self])
          rw [show i = j from ho, hr] at hr'
          cases hr'
          exact hba (hra.symm.trans hra')
      simp only [update_of_ne hjk]
      exact ⟨hr, hra, hf⟩
  fresh j hj := by
    rw [hfr] at hj
    have hk : k < w.fresh := by
      cases q with
      | none => exact ho.2
      | some q =>
        obtain ⟨i, r', f'⟩ := q
        obtain ⟨hr', -, -⟩ := h.of_mem (by rw [update_self])
        rw [show i = k from ho] at hr'
        by_contra hlt
        rw [h.fresh k (by omega)] at hr'
        cases hr'
    rw [hreq, update_of_ne (by omega)]
    exact h.fresh j hj
  idle j hj := by
    rw [hreq] at hj
    rw [hfl]
    by_cases hjk : j = k
    · subst hjk
      rw [update_self] at hj ⊢
      rw [map_eq_none_iff.mp hj]
      rfl
    · rw [update_of_ne hjk] at hj ⊢
      exact h.idle j hj

section

variable (w0 : World) (S : Bytes → Outstanding) (a : Bytes)

/-- The state is as it was but for the lease and the request of one address. -/
structure Now (w : World) (l : LeaseText) (q : Outstanding) : Prop where
  zone : w.zone = w0.zone
  standard : w.standard = w0.standard
  lease : w.lease a = l
  frame : ∀ b, b ≠ a → w.lease b = w0.lease b
  rep : w.Rep (Function.update S a q)

def Fine (w : World) : Prop :=
  ∃ l q, Now w0 S a w l q ∧ l.Formed w0.standard ∧ Sound w0.standard w0.zone a l q

end

variable {w0 w : World} {S : Bytes → Outstanding} {a : Bytes} {l : LeaseText} {q : Outstanding}
variable {k : ℕ} {r : Request} {f : Flight}

lemma Tidy.now (h : w0.Tidy S) (a : Bytes) : Now w0 S a w0 (w0.lease a) (S a) :=
  ⟨rfl, rfl, rfl, fun _ _ => rfl, by rw [update_eq_self]; exact h.rep⟩

lemma Tidy.fine (h : w0.Tidy S) (hf : Fine w0 S a w) : ∃ S', w.Tidy S' := by
  obtain ⟨l, q, hn, hl, hq⟩ := hf
  refine ⟨update S a q, hn.rep, fun b => ?_, fun b => ?_⟩
  · rw [hn.standard]
    by_cases hb : b = a
    · subst hb
      rwa [hn.lease]
    · rw [hn.frame b hb]
      exact h.formed b
  · rw [hn.standard, hn.zone]
    by_cases hb : b = a
    · subst hb
      rwa [hn.lease, update_self]
    · rw [hn.frame b hb, update_of_ne hb]
      exact h.sound b

lemma Now.modifyLease (h : Now w0 S a w l q) (g : LeaseText → LeaseText) :
    Now w0 S a (w.modifyLease a g) (g l) q where
  zone := h.zone
  standard := h.standard
  lease := by
    simp only [World.modifyLease, update_self]
    rw [h.lease]
  frame b hb := by
    simp only [World.modifyLease, update_of_ne hb]
    exact h.frame b hb
  rep := { h.rep with }

lemma Now.setIo (h : Now w0 S a w l q) (io : List Bool) : Now w0 S a { w with io := io } l q :=
  { h with rep := { h.rep with } }

lemma Now.ddnsCbAlloc (h : Now w0 S a w l q) : Now w0 S a w.ddnsCbAlloc l q :=
  { h with
    rep := { h.rep with
      fresh := fun k hk => h.rep.fresh k (by have : w.fresh + 1 ≤ k := hk; omega) } }

lemma Now.owns_fresh (h : Now w0 S a w l none) : w.ddnsCbAlloc.Owns w.fresh none :=
  ⟨h.rep.fresh _ le_rfl, Nat.lt_succ_self _⟩

lemma Now.ddnsCbFree (h : Now w0 S a w l q) (ho : w.Owns k q) :
    Now w0 S a (w.ddnsCbFree k) l none :=
  { h with rep := h.rep.put ho none (by simp) rfl rfl rfl }

lemma Now.ddnsModifyFwd (h : Now w0 S a w l q) (ho : w.Owns k q) (hr : r.address = a) :
    ∃ w', (w.ddnsModifyFwd k r = (false, w') ∧ Now w0 S a w' l q ∧
        (w.io = [] → r.fwdMessage = none)) ∨
      (w.ddnsModifyFwd k r = (true, w') ∧
        ∃ u, r.fwdMessage = some u ∧ Now w0 S a w' l (some (k, r, some (u, none)))) := by
  unfold World.ddnsModifyFwd
  split
  · next hm => exact ⟨w, .inl ⟨rfl, h, fun _ => hm⟩⟩
  · next u io hm hio => exact ⟨_, .inl ⟨rfl, h.setIo _, fun h => by simp [hio] at h⟩⟩
  · next u hm _ =>
    exact ⟨_, .inr ⟨rfl, u, hm, { h with
      rep := h.rep.put ho (some (r, some (u, none))) (by simpa using hr) rfl rfl rfl }⟩⟩

lemma Now.ddnsModifyPtr (h : Now w0 S a w l q) (ho : w.Owns k q) (hr : r.address = a) :
    ∃ w', (w.ddnsModifyPtr k r = (false, w') ∧ Now w0 S a w' l q) ∨
      (w.ddnsModifyPtr k r = (true, w') ∧ Now w0 S a w' l (some (k, r, none))) := by
  unfold World.ddnsModifyPtr
  split
  · exact ⟨_, .inl ⟨rfl, h.setIo _⟩⟩
  · exact ⟨_, .inr ⟨rfl, { h with
      rep := h.rep.put ho (some (r, none)) (by simpa using hr) rfl rfl rfl }⟩⟩

def textFor (c : Cb) (l : LeaseText) : LeaseText :=
  if c.flags.staticLease || !c.flags.activeLease then l else textOf c l

lemma textFor_same (c : Cb) (l : LeaseText) : (textFor c l).static = l.static ∧
    (textFor c l).active = l.active ∧ (textFor c l).ddnsCb = l.ddnsCb := by
  unfold textFor textOf
  split <;> [exact ⟨rfl, rfl, rfl⟩; (split <;> exact ⟨rfl, rfl, rfl⟩)]

variable {c : Cb} {z : Zone Bytes} {standard : Bool}

lemma Now.found (h : Now w0 S a w l q) : w.found a = true ↔ l.Found a := by
  unfold World.found LeaseText.Found
  rw [h.lease]
  simp

lemma Now.ddnsUpdateLeaseText (h : Now w0 S a w l q) (ha : c.address = a) {given : Bool}
    (hf : given = true ∨ (c.flags.activeLease = true → l.Found a)) :
    Now w0 S a (w.ddnsUpdateLeaseText given c) (textFor c l) q := by
  subst ha
  unfold World.ddnsUpdateLeaseText textFor
  by_cases hs : (c.flags.staticLease || !c.flags.activeLease) = true
  · rw [hs, Bool.true_or, if_pos rfl, if_pos rfl]
    exact h
  · have hfound : (given || w.found c.address) = true := by
      rcases hf with hf | hf
      · rw [hf, Bool.true_or]
      · have hact : c.flags.activeLease = true := by
          simp only [Bool.or_eq_true, Bool.not_eq_true', not_or, Bool.not_eq_false] at hs
          exact hs.2
        rw [h.found.2 (hf hact), Bool.or_true]
    rw [hfound, Bool.not_true, Bool.or_false, if_neg hs, if_neg hs]
    exact h.modifyLease _

lemma Now.clearPtr (h : Now w0 S a w l q) (hr : Linked a l k r) :
    Now w0 S a (w.ddnsUpdateLeasePtr false r.toCb k none) { l with ddnsCb := none } q := by
  have hp := hr.pointer
  unfold Pointer at hp
  obtain ⟨rfl⟩ := hr.address
  unfold World.ddnsUpdateLeasePtr
  rw [hr.staticLease]
  split_ifs at hp with hs
  · rw [if_pos hs]
    convert h using 1
    rw [← hp]
  · rw [if_neg hs]
    by_cases h16 : r.address.length = 16
    · have hact : r.flags.activeLease = true := by
        by_contra hact
        simp [h16, hact] at hs
      rw [if_pos (by simp [h16]), if_pos (h.found.2 (hr.found hact))]
      exact h.modifyLease _
    · rw [if_neg (by simp [h16])]
      unfold safeLeaseUpdate
      rw [h.lease, hp, if_neg (by simp), if_neg (by simp)]
      exact h.modifyLease _

lemma Now.setPtr (h : Now w0 S a w l q) (hcb : l.ddnsCb = none) (ha : c.address = a)
    (hs : c.flags.staticLease = l.static) {given : Bool}
    (hf : given = true ∨ (c.flags.activeLease = true → l.Found a)) :
    Now w0 S a (w.ddnsUpdateLeasePtr given c k (some k))
      { l with ddnsCb :=
          if l.static || (a.length = 16 && !c.flags.activeLease) then none else some k } q := by
  subst ha
  unfold World.ddnsUpdateLeasePtr
  rw [hs]
  split_ifs with hskip h16 hfound
  · convert h using 1
    rw [← hcb]
  · exact h.modifyLease _
  · exfalso
    simp only [Bool.and_eq_true, Bool.not_eq_true'] at h16
    have hact : c.flags.activeLease = true := by
      by_contra hact
      simp [h16.2, hact] at hskip
    exact hfound (h.found.2 (hf.resolve_left (by simp [h16.1]) hact))
  · unfold safeLeaseUpdate
    rw [h.lease, hcb, if_neg (by simp), if_neg (by simp)]
    exact h.modifyLease _

lemma owed_textFor {n : Bytes} : Owed z a (textFor c l) n ↔ Owed z a l n := by
  unfold Owed
  rw [(textFor_same c l).1]

lemma formed_textFor (hl : l.Formed standard) (hc : c.standard = standard)
    (hn : c.state = .addFwNxdomain ∨ c.state = .addFwYxdhcid → c.fwdName ≠ []) :
    (textFor c l).Formed standard := by
  unfold World.textFor textOf
  split
  · exact hl
  · split
    all_goals first | exact ⟨hl.named, hl.other⟩ | skip
    all_goals
      have ho := hl.other
      constructor
      · intro n h
        simp only [LeaseText.tag] at h ⊢
        cases hs : c.standard <;> simp_all
      · simp only [LeaseText.tag] at ho ⊢
        cases hs : c.standard <;> simp_all

lemma formed_textFor_ptr (hl : l.Formed standard) (hs : c.state.forward = false) :
    (textFor c l).Formed standard := by
  unfold World.textFor textOf
  split
  · exact hl
  · split <;> first | exact ⟨hl.named, hl.other⟩ | simp_all [DdnsState.forward]

lemma stored_textFor {n : Bytes} (hs : c.state.forward = false) (h : Stored standard z l n) :
    Stored standard z (textFor c l) n := by
  unfold World.textFor textOf
  split
  · exact h
  · split <;> first | exact ⟨h.fwdName, h.identity⟩ | simp_all [DdnsState.forward]

lemma stored_added {n : Bytes} (hs : c.state = .addFwNxdomain ∨ c.state = .addFwYxdhcid)
    (hc : c.standard = standard) (hstat : c.flags.staticLease = false)
    (hact : c.flags.activeLease = true) (hn : n = c.fwdName)
    (h : rrset (z n) (dhcidClass standard) = {c.dhcid}) :
    Stored standard z (World.textFor c l) n := by
  subst hc hn
  have htext : World.textFor c l = textOf c l := by
    unfold World.textFor
    rw [hstat, hact, if_neg (by simp)]
  rw [htext]
  unfold textOf
  rcases hs with hs | hs <;> rw [hs] <;> refine ⟨rfl, c.dhcid, ?_, h⟩ <;>
    cases c.standard <;> rfl

/-! ### The end of a request -/

lemma ddnsCbFree_modifyFwd {j : ℕ} (hj : j ≠ k) : (w.ddnsCbFree k).ddnsModifyFwd j r =
      ((w.ddnsModifyFwd j r).1, (w.ddnsModifyFwd j r).2.ddnsCbFree k) := by
  unfold World.ddnsModifyFwd
  have hio : (w.ddnsCbFree k).io = w.io := rfl
  rw [hio]
  split
  · rfl
  · rfl
  · simp [World.ddnsCbFree, update_comm hj]

lemma ddnsCbFree_modifyPtr {j : ℕ} (hj : j ≠ k) : (w.ddnsCbFree k).ddnsModifyPtr j r =
      ((w.ddnsModifyPtr j r).1, (w.ddnsModifyPtr j r).2.ddnsCbFree k) := by
  unfold World.ddnsModifyPtr
  have hio : (w.ddnsCbFree k).io = w.io := rfl
  rw [hio]
  split
  · rfl
  · simp [World.ddnsCbFree, update_comm hj]

lemma ddnsCbFree_updateLeasePtr (given : Bool) (c : Cb) (old : ℕ) (new : Option ℕ) :
    (w.ddnsCbFree k).ddnsUpdateLeasePtr given c old new =
      (w.ddnsUpdateLeasePtr given c old new).ddnsCbFree k := by
  unfold World.ddnsUpdateLeasePtr safeLeaseUpdate
  have hl : (w.ddnsCbFree k).lease = w.lease := rfl
  have hf : (w.ddnsCbFree k).found = w.found := rfl
  rw [hl, hf]
  split_ifs <;> rfl

lemma ddnsCbFree_updateLeaseText (given : Bool) (c : Cb) :
    (w.ddnsCbFree k).ddnsUpdateLeaseText given c =
      (w.ddnsUpdateLeaseText given c).ddnsCbFree k := by
  unfold World.ddnsUpdateLeaseText
  have hf : (w.ddnsCbFree k).found = w.found := rfl
  rw [hf]
  split_ifs <;> rfl

/-- It does not matter whether the old control block is freed before a new request begins. -/
lemma ddnsCbFree_connector (hk : w.fresh ≠ k) (given : Bool) (c : Option Cb) (ok : Bool) :
    (w.ddnsCbFree k).ddnsFwdSrvConnector given c ok =
      (w.ddnsFwdSrvConnector given c ok).ddnsCbFree k := by
  unfold World.ddnsFwdSrvConnector
  split
  · rfl
  · rfl
  · next c =>
    have ha : (w.ddnsCbFree k).ddnsCbAlloc = w.ddnsCbAlloc.ddnsCbFree k := rfl
    have hfr : (w.ddnsCbFree k).fresh = w.fresh := rfl
    simp only [ha, hfr, ddnsCbFree_modifyFwd hk, ddnsCbFree_modifyPtr hk,
      ddnsCbFree_updateLeaseText]
    split_ifs
    · cases hm : w.ddnsCbAlloc.ddnsModifyFwd w.fresh { c with state := .addFwNxdomain } with
      | mk ok w' => cases ok <;> simp only [ddnsCbFree_updateLeasePtr]
    · cases hm : w.ddnsCbAlloc.ddnsModifyPtr w.fresh { c with state := .addPtr } with
      | mk ok w' => cases ok <;> simp only [ddnsCbFree_updateLeasePtr]
    · rfl

lemma Now.ddnsFwdSrvConnector (h : Now w0 S a w l none) (hl : l.Formed w0.standard)
    (hcb : l.ddnsCb = none) (hfound : l.Found a) (hk : Kept w0.standard w0.zone a l)
    (hc : c.Queued w0.standard a l)
    (hn : ∀ n, Owed w0.zone a l n → c.flags.updateAddr = true → n = c.fwdName) (given ok : Bool) :
    Fine w0 S a (w.ddnsFwdSrvConnector given (some c) ok) := by
  cases ok with
  | false => exact ⟨l, none, h, hl, hcb, hk⟩
  | true =>
    have hf : given = true ∨ (c.flags.activeLease = true → l.Found a) := .inr fun _ => hfound
    -- what holds of the new request, whatever it begins with
    have hlink (s : DdnsState) (j : ℕ) :
        Linked a { l with ddnsCb := if l.static || (a.length = 16 && !c.flags.activeLease) then
            none else some j } j { c with state := s } :=
      { hc with
        found := fun _ => hfound
        pointer := rfl
        ended := fun _ hact => by simp [hc.activeLease] at hact }
    show Fine w0 S a (if c.flags.updateAddr then _ else _)
    split_ifs with hu hp
    · obtain ⟨w', hw⟩ := h.ddnsCbAlloc.ddnsModifyFwd h.owns_fresh
        (r := { c with state := .addFwNxdomain }) hc.address
      rcases hw with ⟨hw, h', -⟩ | ⟨hw, u, hm, h'⟩ <;> rw [hw]
      · exact ⟨l, none, h', hl, hcb, hk⟩
      · refine ⟨_, _, h'.setPtr hcb hc.address hc.staticLease hf, ⟨hl.named, hl.other⟩,
          hlink .addFwNxdomain _, by simp, ?_⟩
        exact .add (.inl rfl) hc.activeLease hm hc.style hc.named (fun n h => hn n h hu)
          fun n h => ⟨(hk n h).fwdName, (hk n h).identity⟩
    · obtain ⟨w', hw⟩ := h.ddnsCbAlloc.ddnsModifyPtr h.owns_fresh
        (r := { c with state := .addPtr }) hc.address
      rcases hw with ⟨hw, h'⟩ | ⟨hw, h'⟩ <;> rw [hw]
      · exact ⟨l, none, h', hl, hcb, hk⟩
      · refine ⟨_, _, h'.setPtr hcb hc.address hc.staticLease hf, ⟨hl.named, hl.other⟩,
          hlink .addPtr _, by simp, ?_⟩
        exact .addPtr rfl fun n h => ⟨(hk n h).fwdName, (hk n h).identity⟩
    · refine ⟨_, none, h.ddnsCbAlloc.ddnsUpdateLeaseText hc.address hf,
        formed_textFor hl hc.style fun _ => hc.named, ?_, fun n h => ?_⟩
      · rw [(textFor_same c l).2.2, hcb]
      · exact stored_textFor (by rw [hc.state]; rfl) (hk n (owed_textFor.mp h))

lemma Now.fresh_ne (h : Now w0 S a w l (some (k, r, f))) : w.fresh ≠ k := by
  rintro rfl
  have := (h.rep.of_mem (by rw [update_self])).1
  rw [h.rep.fresh _ le_rfl] at this
  cases this

lemma linked_textFor (h : Linked a l k r) (c : Cb) : Linked a (textFor c l) k r where
  __ := h
  staticLease := by rw [(textFor_same c l).1, h.staticLease]
  found hact := by
    unfold LeaseText.Found
    rw [(textFor_same c l).2.1]
    exact h.found hact
  pointer := by
    unfold Pointer
    rw [(textFor_same c l).2.2, (textFor_same c l).1]
    exact h.pointer
  ended h16 hact := by rw [(textFor_same c l).2.1, h.ended h16 hact]

lemma linked_setState (h : Linked a l k r) (s : DdnsState) (next : Bool) :
    Linked a l k { r with state := s, flags := { r.flags with executeNext := next } } :=
  { h with }

lemma queued_of_static {l' : LeaseText} (h : c.Queued standard a l) (hl : l'.static = l.static) :
    c.Queued standard a l' :=
  { h with staticLease := h.staticLease.trans hl.symm }

lemma queued_textFor {b : Bool} {c' : Cb} (h : c.Queued standard a l ∧ b = true) :
    c.Queued standard a (textFor c' l) ∧ b = true :=
  ⟨queued_of_static h.1 (textFor_same ..).1, h.2⟩

section

variable {r0 : Request} {f0 : Flight}

lemma Now.clearPtr_free (h : Now w0 S a w l (some (k, r0, f0))) (hr : Linked a l k r) :
    Now w0 S a ((w.ddnsUpdateLeasePtr false r.toCb k none).ddnsCbFree k)
      { l with ddnsCb := none } none :=
  (h.clearPtr hr).ddnsCbFree rfl

lemma Now.forget (h : Now w0 S a w l (some (k, r0, f0))) (hr : Linked a l k r)
    (hl : l.Formed w0.standard) (hk : Kept w0.standard w0.zone a l) :
    Fine w0 S a ((w.ddnsUpdateLeasePtr false r.toCb k none).ddnsCbFree k) :=
  ⟨_, none, h.clearPtr_free hr, ⟨hl.named, hl.other⟩, rfl,
    fun n hn => ⟨(hk n hn).fwdName, (hk n hn).identity⟩⟩

lemma Now.finish (h : Now w0 S a w l (some (k, r0, f0))) (hr : Linked a l k r)
    (hl : l.Formed w0.standard) (hk : Kept w0.standard w0.zone a l)
    (hq : ∀ c ∈ r.nextOp, c.Queued w0.standard a l ∧ r.flags.activeLease = true) {ok : Bool}
    (hok : ok = true → ∀ n, Owed w0.zone a l n → r.nextOp = none) :
    Fine w0 S a (w.finish k r ok) := by
  have hne : (w.ddnsUpdateLeasePtr false r.toCb k none).fresh ≠ k := by
    rw [show (w.ddnsUpdateLeasePtr false r.toCb k none).fresh = w.fresh by
      unfold World.ddnsUpdateLeasePtr safeLeaseUpdate
      split_ifs <;> rfl]
    exact h.fresh_ne
  unfold World.finish
  rw [← ddnsCbFree_connector hne]
  cases hnext : r.nextOp with
  | none => exact h.forget hr hl hk
  | some c =>
    obtain ⟨hc, hact⟩ := hq c hnext
    cases ok with
    | false => exact h.forget hr hl hk
    | true =>
      have hnone (n : Bytes) : ¬ Owed w0.zone a l n := fun hn => by
        rw [hnext] at hok
        cases hok rfl n hn
      exact (h.clearPtr_free hr).ddnsFwdSrvConnector ⟨hl.named, hl.other⟩ rfl (hr.found hact)
        (fun n hn => absurd hn (hnone n)) (queued_of_static hc rfl)
          (fun n hn => absurd hn (hnone n)) ..

/-! ### Results -/

variable (h : Now w0 S a w l (some (k, r0, f0))) (hl : l.Formed w0.standard)

include h hl

lemma Now.ddnsPtrAdd (hr : Serves w0.standard w0.zone a l k r f) (hs : r.state = .addPtr)
    (hk : Kept w0.standard w0.zone a l) (res : Result) : Fine w0 S a (w.ddnsPtrAdd k r res) := by
  have hf : r.state.forward = false := by rw [hs]; rfl
  unfold World.ddnsPtrAdd
  split_ifs
  · exact (h.ddnsUpdateLeaseText hr.address (.inr hr.found)).forget
      (linked_textFor hr.toLinked _) (formed_textFor_ptr hl hf)
      fun n hn => stored_textFor hf (hk n (owed_textFor.mp hn))
  · exact h.forget hr.toLinked hl hk

lemma Now.ddnsPtrRemove (hr : Serves w0.standard w0.zone a l k r f) (hs : r.state = .remPtr)
    (hk : ∀ n, Owed w0.zone a l n → Stored w0.standard w0.zone l n ∧
      r.flags.activeLease = true ∧ (r.flags.executeNext = true → r.nextOp = none)) (res : Result) :
    Fine w0 S a (w.ddnsPtrRemove k r res) := by
  have hf : r.state.forward = false := by rw [hs]; rfl
  unfold World.ddnsPtrRemove
  by_cases hg : res = .success ∨ res = .nxrrset ∨ res = .nxdomain
  · simp only [hg]
    refine (h.ddnsUpdateLeaseText hr.address (.inr hr.found)).finish
      (linked_textFor hr.toLinked _) (formed_textFor_ptr hl hf) ?_ ?_ ?_
    · exact fun n hn => stored_textFor hf (hk n (owed_textFor.mp hn)).1
    · exact fun c hc => queued_textFor (hr.queued c hc)
    · exact fun hok n hn => (hk n (owed_textFor.mp hn)).2.2 hok
  · simp only [hg]
    exact h.finish hr.toLinked hl (fun n hn => (hk n hn).1) hr.queued (by simp)

variable {u : Update Bytes}

lemma Now.fwdAdded (hr : Serves w0.standard w0.zone a l k r (some (u, some .success)))
    (hs : Adding r) :
    Fine w0 S a (w.fwdAdded k r) := by
  obtain ⟨hact, hstyle, hname, only, known, -⟩ := hr.stage.of_adding hs
  have hl' : (textFor r.toCb l).Formed w0.standard := formed_textFor hl hstyle fun _ => hname
  have hk : Kept w0.standard w0.zone a (textFor r.toCb l) := by
    intro n hn
    have hn := owed_textFor.mp hn
    exact stored_added hs hstyle (hr.staticLease.trans hn.1) hact (only n hn) (known rfl n hn)
  have h : Now w0 S a (w.ddnsUpdateLeaseText false r.toCb) _ _ :=
    h.ddnsUpdateLeaseText hr.address (.inr hr.found)
  have hlink := linked_textFor hr.toLinked r.toCb
  unfold World.fwdAdded
  extract_lets w'
  split_ifs
  · obtain ⟨w'', hw⟩ := h.ddnsModifyPtr rfl (r := { r with state := .addPtr }) hr.address
    rcases hw with ⟨hw, h'⟩ | ⟨hw, h'⟩ <;> rw [hw]
    · exact h'.forget hlink hl' hk
    · exact ⟨_, _, h', hl', linked_setState hlink .addPtr r.flags.executeNext,
        by simp [hr.nextOp_of_adding hs], .addPtr rfl hk⟩
  · exact h.forget hlink hl' hk

lemma Now.ddnsFwdSrvAdd2 {x : Option Result} (hr : Serves w0.standard w0.zone a l k r (some (u, x)))
    (hs : Adding r)
    {res : Result} (hres : res = .success ↔ x = some .success) :
    Fine w0 S a (w.ddnsFwdSrvAdd2 k r res) := by
  unfold World.ddnsFwdSrvAdd2
  split_ifs with hok
  · rw [hres.mp hok] at hr
    exact h.fwdAdded hl hr hs
  · obtain ⟨-, -, -, -, -, hk⟩ := hr.stage.of_adding hs
    exact h.forget hr.toLinked hl (hk fun hx => hok (hres.mpr hx))

lemma Now.ddnsFwdSrvAdd1 {x : Option Result} (hr : Serves w0.standard w0.zone a l k r (some (u, x)))
    (hs : Adding r)
    {res : Result} (hres : res = .success ↔ x = some .success) :
    Fine w0 S a (w.ddnsFwdSrvAdd1 k r res) := by
  -- but for the second message it is the same as for the result of that one
  have hadd2 := h.ddnsFwdSrvAdd2 hl hr hs hres
  unfold World.ddnsFwdSrvAdd2 at hadd2
  unfold World.ddnsFwdSrvAdd1
  split
  · rwa [if_pos rfl] at hadd2
  · rw [if_neg (by simp)] at hadd2
    obtain ⟨w', hw⟩ := h.ddnsModifyFwd rfl (r := { r with state := .addFwYxdhcid }) hr.address
    obtain ⟨hact, hstyle, hname, only, -, hk⟩ := hr.stage.of_adding hs
    have hk := hk fun hx => nomatch hres.mpr hx
    rcases hw with ⟨hw, h', -⟩ | ⟨hw, u', hm, h'⟩ <;> rw [hw]
    · exact h'.forget hr.toLinked hl hk
    · exact ⟨_, _, h', hl, linked_setState hr.toLinked .addFwYxdhcid r.flags.executeNext,
        by simp [hr.nextOp_of_adding hs], .add (.inr rfl) hact hm hstyle hname only hk⟩
  · next hne _ =>
    rwa [if_neg hne] at hadd2

lemma Now.fwdRemoved (hr : Linked a l k r)
    (hq : ∀ c ∈ r.nextOp, c.Queued w0.standard a l ∧ r.flags.activeLease = true)
    (hk : ∀ n, Owed w0.zone a l n → Stored w0.standard w0.zone l n ∧
      r.flags.activeLease = true ∧ r.flags.executeNext = false) {ok failed : Bool}
    (hok : ok = true ∨ failed = true → ∀ n, ¬ Owed w0.zone a l n) :
    Fine w0 S a (w.fwdRemoved k r ok failed) := by
  have hfin {w : World} (h : Now w0 S a w l (some (k, r0, f0))) (b : Bool)
      (hb : b = true → ok = true ∨ failed = true) : Fine w0 S a (w.finish k r b) :=
    h.finish hr hl (fun n hn => (hk n hn).1) hq fun hb' n hn => absurd hn (hok (hb hb') n)
  unfold World.fwdRemoved
  split_ifs
  · extract_lets _ flags
    obtain ⟨w', hw⟩ := h.ddnsModifyPtr rfl
      (r := { r with state := .remPtr, flags := flags }) hr.address
    rcases hw with ⟨hw, h'⟩ | ⟨hw, h'⟩ <;> rw [hw]
    · exact hfin h' failed .inr
    · refine ⟨_, _, h', hl, linked_setState hr .remPtr (r.flags.executeNext || ok),
        fun c hc => ⟨(hq c hc).1, (hq c hc).2, by simp⟩, .remPtr rfl fun n hn => ?_⟩
      refine ⟨(hk n hn).1, (hk n hn).2.1, fun hx => ?_⟩
      have hx : (r.flags.executeNext || ok) = true := hx
      rw [(hk n hn).2.2, Bool.false_or] at hx
      exact absurd hn (hok (.inl hx) n)
  · exact hfin h ok .inl

/-- The strings of a lease without records are dropped, and the removal goes on. -/
lemma Now.fwdRemoved_text (hr : Serves w0.standard w0.zone a l k r f)
    (hstyle : r.standard = w0.standard)
    (hs : ¬ Adding r) (hnone : ∀ n, ¬ Owed w0.zone a l n) (ok failed : Bool) :
    Fine w0 S a ((w.ddnsUpdateLeaseText false r.toCb).fwdRemoved k r ok failed) := by
  have hk (n : Bytes) : ¬ Owed w0.zone a (textFor r.toCb l) n :=
    fun hn => hnone n (owed_textFor.mp hn)
  exact (h.ddnsUpdateLeaseText hr.address (.inr hr.found)).fwdRemoved
    (formed_textFor hl hstyle fun h => absurd h hs) (linked_textFor hr.toLinked _)
    (fun c hc => queued_textFor (hr.queued c hc)) (fun n hn => absurd hn (hk n)) fun _ n => hk n

lemma Now.ddnsFwdSrvRem2 (hr : Serves w0.standard w0.zone a l k r f) (hs : r.state = .remFwNxrr)
    (hstyle : r.standard = w0.standard) (known : ∀ n, ¬ Owed w0.zone a l n) (res : Result) :
    Fine w0 S a (w.ddnsFwdSrvRem2 k r res) := by
  unfold World.ddnsFwdSrvRem2
  by_cases hg : res = .success ∨ res = .yxrrset
  · simp only [hg]
    exact h.fwdRemoved_text hl hr hstyle (by simp [Adding, hs]) known ..
  · simp only [hg]
    exact h.fwdRemoved hl hr.toLinked hr.queued (fun n hn => absurd hn (known n)) fun _ n => known n

lemma Now.ddnsFwdSrvRem1 {x : Option Result} (hr : Serves w0.standard w0.zone a l k r (some (u, x)))
    (hs : r.state = .remFwYxdhcid) {res : Result}
    (hres : res = .success ∨ res = .nxrrset ∨ res = .nxdomain ∨ r.flags.activeLease = false →
      x ≠ none) :
    Fine w0 S a (w.ddnsFwdSrvRem1 k r res) := by
  cases hr.stage with
  | rem1 _ _ hstyle hnext known =>
    -- an answer says that the record is gone
    have hgone (hx : x ≠ none) (n : Bytes) : ¬ Owed w0.zone a l n :=
      fun hn => hx (known n hn).2.1
    have htext (hx : x ≠ none) :=
      h.fwdRemoved_text hl hr hstyle (by simp [Adding, hs]) (hgone hx) true true
    unfold World.ddnsFwdSrvRem1
    split
    · have hx := hgone (hres (.inl rfl))
      obtain ⟨w', hw⟩ := h.ddnsModifyFwd rfl (r := { r with state := .remFwNxrr }) hr.address
      rcases hw with ⟨hw, h', -⟩ | ⟨hw, u', hm, h'⟩ <;> rw [hw]
      · exact h'.finish hr.toLinked hl (fun n hn => absurd hn (hx n)) hr.queued
          fun _ n hn => absurd hn (hx n)
      · exact ⟨_, _, h', hl, linked_setState hr.toLinked .remFwNxrr r.flags.executeNext,
          fun c hc => ⟨(hr.queued c hc).1, (hr.queued c hc).2, by simp⟩, .rem2 rfl hm hstyle hx⟩
    · exact htext (hres (.inr (.inl rfl)))
    · exact htext (hres (.inr (.inr (.inl rfl))))
    · refine h.fwdRemoved hl hr.toLinked hr.queued (fun n hn => ?_) (by simp)
      have hact : r.flags.activeLease = true := by
        by_contra hact
        exact hgone (hres (.inr (.inr (.inr (by simpa using hact))))) n hn
      exact ⟨(known n hn).2.2.2 hact, hact, hnext⟩
  | add state => rcases state with state | state <;> simp_all
  | rem2 state => simp_all

end

/-- The results say what has been done: that a name was added if and only if it was, and that one
was removed only if the message was answered. A lease that has ended is told nothing else. -/
def Reported (r : Request) (f : Flight) (res : Result) : Prop :=
  match r.state, f with
  | .addFwNxdomain, some (_, x) | .addFwYxdhcid, some (_, x) =>
    res = .success ↔ x = some .success
  | .remFwYxdhcid, some (_, x) =>
    res = .success ∨ res = .nxrrset ∨ res = .nxdomain ∨ r.flags.activeLease = false → x ≠ none
  | _, _ => True

lemma Now.curFunc {r0 : Request} {f0 : Flight} (h : Now w0 S a w l (some (k, r0, f0)))
    (hl : l.Formed w0.standard) (hr : Serves w0.standard w0.zone a l k r f) {res : Result}
    (hres : Reported r f res) : Fine w0 S a (w.curFunc k r res) := by
  unfold Reported at hres
  unfold World.curFunc
  cases hr.stage with
  | add state =>
    rcases state with hs | hs <;> rw [hs] at hres ⊢
    · exact h.ddnsFwdSrvAdd1 hl hr (.inl hs) hres
    · exact h.ddnsFwdSrvAdd2 hl hr (.inr hs) hres
  | addPtr hs hk =>
    rw [hs]
    exact h.ddnsPtrAdd hl hr hs hk res
  | rem1 hs =>
    rw [hs] at hres ⊢
    exact h.ddnsFwdSrvRem1 hl hr hs hres
  | rem2 hs _ hstyle hnone =>
    rw [hs]
    exact h.ddnsFwdSrvRem2 hl hr hs hstyle hnone res
  | remPtr hs hk =>
    rw [hs]
    exact h.ddnsPtrRemove hl hr hs hk res

lemma Reported.failure (h : Reported r f .notauth) : Reported r f .failure := by
  unfold Reported at h ⊢
  split <;> simp_all

lemma Stage.resend {u v : Update Bytes} {x : Option Result}
    (h : Stage standard z a l r (some (v, x))) (hres : Reported r (some (v, x)) .notauth)
    (hm : r.fwdMessage = some u) : Stage standard z a l r (some (u, none)) := by
  unfold Reported at hres
  cases h with
  | add state hact _ hstyle hname only known =>
    refine .add state hact hm hstyle hname only fun n hn => ?_
    have hx : x ≠ some .success := by
      rcases state with hs | hs <;> simp only [hs] at hres <;> exact fun hx => nomatch hres.mpr hx
    have := known n hn
    rw [if_neg hx] at this
    rwa [if_neg (by simp)]
  | rem1 state _ hstyle hnext known =>
    exact .rem1 state hm hstyle hnext fun n hn =>
      ⟨(known n hn).1, rfl, (known n hn).2.2.1, (known n hn).2.2.2⟩
  | rem2 state _ hstyle known => exact .rem2 state hm hstyle known

lemma Fine.resent {sent : Bool × World} :
    (∃ w', sent = (false, w') ∧ Fine w0 S a (w'.curFunc k r .failure) ∨
      sent = (true, w') ∧ Fine w0 S a w') →
    Fine w0 S a (match sent with
      | (true, w) => w
      | (false, w) => w.curFunc k r .failure) := by
  rintro ⟨w', ⟨rfl, h⟩ | ⟨rfl, h⟩⟩
  exacts [h, h]

lemma Now.ddnsInterlude (h : Now w0 S a w l (some (k, r, f))) (hl : l.Formed w0.standard)
    (hr : Serves w0.standard w0.zone a l k r f) {res : Result} (hres : Reported r f res) :
    Fine w0 S a (w.ddnsInterlude k res) := by
  obtain ⟨hreq, -, -⟩ := h.rep.of_mem (by rw [update_self])
  unfold World.ddnsInterlude
  rw [hreq]
  simp only [hr.abort, Bool.false_eq_true, if_false]
  split_ifs with hn
  · subst hn
    have hptr (hf : f = none) : ∃ w', w.ddnsModifyPtr k r = (false, w') ∧
        Fine w0 S a (w'.curFunc k r .failure) ∨
          w.ddnsModifyPtr k r = (true, w') ∧ Fine w0 S a w' := by
      obtain ⟨w', ⟨hw, h'⟩ | ⟨hw, h'⟩⟩ := h.ddnsModifyPtr rfl hr.address
      · exact ⟨w', .inl ⟨hw, h'.curFunc hl hr hres.failure⟩⟩
      · exact ⟨w', .inr ⟨hw, _, _, h', hl, hf ▸ hr⟩⟩
    have hfwd {v : Update Bytes} {x : Option Result} (hf : f = some (v, x)) :
        ∃ w', w.ddnsModifyFwd k r = (false, w') ∧ Fine w0 S a (w'.curFunc k r .failure) ∨
          w.ddnsModifyFwd k r = (true, w') ∧ Fine w0 S a w' := by
      subst hf
      obtain ⟨w', ⟨hw, h', -⟩ | ⟨hw, u, hm, h'⟩⟩ := h.ddnsModifyFwd rfl hr.address
      · exact ⟨w', .inl ⟨hw, h'.curFunc hl hr hres.failure⟩⟩
      · exact ⟨w', .inr ⟨hw, _, _, h', hl, hr.toLinked, hr.nextOp, Stage.resend hr.stage hres hm⟩⟩
    refine Fine.resent ?_
    unfold World.resend
    cases hr.stage with
    | add state => rcases state with hs | hs <;> rw [hs] <;> exact hfwd rfl
    | addPtr hs => rw [hs]; exact hptr rfl
    | rem1 hs => rw [hs]; exact hfwd rfl
    | rem2 hs => rw [hs]; exact hfwd rfl
    | remPtr hs => rw [hs]; exact hptr rfl
  · exact h.curFunc hl hr hres

/-! ### The beginning of a removal -/

structure Begun (standard : Bool) (z : Zone Bytes) (a : Bytes) (l : LeaseText) (active : Bool)
    (add : Option Cb) (r : Request) (f : Flight) : Prop where
  address : r.address = a
  abort : r.flags.abort = false
  conflictOverride : r.flags.conflictOverride = false
  includeRrset : r.flags.includeRrset = false
  staticLease : r.flags.staticLease = l.static
  activeLease : r.flags.activeLease = active
  nextOp : ∀ c ∈ r.nextOp, c ∈ add
  state : r.state = .remFwYxdhcid ∨ r.state = .remPtr
  stage : Stage standard z a l r f

lemma removalCb_named (hl : l.Formed standard) {n : Bytes} (hn : l.fwdName = some n)
    (active : Bool) :
    (removalCb a l active).flags.updateAddr = true ∧ (removalCb a l active).fwdName = n ∧
      (removalCb a l active).standard = standard ∧
      l.tag standard = some (removalCb a l active).dhcid := by
  obtain ⟨-, d, hd⟩ := hl.named n hn
  have ho := hl.other
  cases standard with
  | true => simp_all [removalCb, LeaseText.tag]
  | false => simp_all [removalCb, LeaseText.tag]

lemma Now.startRemoval (h : Now w0 S a w l none) (hl : l.Formed w0.standard)
    (hcb : l.ddnsCb = none) (hk : Kept w0.standard w0.zone a l)
    (add : Option Cb) (active : Bool) : (Now w0 S a (w.startRemoval a add active) l none ∧
        (w.io = [] → ∀ n, ¬ Owed w0.zone a l n)) ∨
      ∃ k r f, Begun w0.standard w0.zone a l active add r f ∧
        Now w0 S a (w.startRemoval a add active)
          { l with ddnsCb := if l.static || (a.length = 16 && !active) then none else some k }
          (some (k, r, f)) := by
  unfold World.startRemoval
  rw [h.lease]
  rcases eq_none_or_eq_some l.fwdName with hn | ⟨n, hn⟩
  · -- there is no name, so there are no records
    have hnone (n : Bytes) : ¬ Owed w0.zone a l n := fun h => by
      simpa [hn] using (hk n h).fwdName
    have hu : (removalCb a l active).flags.updateAddr = false := by simp [removalCb, hn]
    have hu' : ¬ (removalCb a l active).flags.updateAddr = true := by rw [hu]; simp
    have hadd : ¬ l.fwdName.isSome = true := by simp [hn]
    rw [if_neg (by simp [hu])]
    dsimp only
    rw [if_neg hu', if_neg hadd]
    by_cases hp : (removalCb a l active).flags.updatePtr = true
    · rw [if_pos hp]
      obtain ⟨w', hw⟩ := h.ddnsCbAlloc.ddnsModifyPtr h.owns_fresh
        (r := { removalCb a l active with
          state := .remPtr
          flags := { (removalCb a l active).flags with executeNext := true }
          nextOp := none }) rfl
      rcases hw with ⟨hw, h'⟩ | ⟨hw, h'⟩ <;> rw [hw]
      · exact .inl ⟨h', fun _ => hnone⟩
      · exact .inr ⟨_, _, _, ⟨rfl, rfl, rfl, rfl, rfl, rfl, by simp, .inr rfl,
          .remPtr rfl fun n hn => absurd hn (hnone n)⟩, h'.setPtr hcb rfl rfl (.inl rfl)⟩
    · rw [if_neg hp, hn]
      refine .inl ⟨?_, fun _ => hnone⟩
      cases add <;> exact h.ddnsCbAlloc
  · obtain ⟨hu, hname, hstd, htag⟩ := removalCb_named hl hn active
    have hne : (removalCb a l active).fwdName ≠ [] := by
      rw [hname]
      exact (hl.named n hn).1
    rw [if_pos (by simp [hu, hne])]
    obtain ⟨w', hw⟩ := h.ddnsCbAlloc.ddnsModifyFwd h.owns_fresh
      (r := { removalCb a l active with state := .remFwYxdhcid, nextOp := add }) rfl
    rcases hw with ⟨hw, h', hio⟩ | ⟨hw, u, hm, h'⟩ <;> simp only [hw]
    · refine .inl ⟨?_, fun h0 n hn => ?_⟩
      · cases add <;> exact h'
      · obtain ⟨-, t, ht, -⟩ := hn
        have hm := hio h0
        simp only [Cb.fwdMessage, Cb.addressType, removalCb, ht] at hm
        cases hm
    · refine .inr ⟨_, _, _, ⟨rfl, rfl, rfl, rfl, rfl, rfl, fun c hc => hc, .inl rfl, ?_⟩,
        h'.setPtr hcb rfl rfl (.inl rfl)⟩
      refine .rem1 rfl hm hstd rfl fun m hm => ?_
      obtain ⟨hfwd, d, hd, hrr⟩ := hk m hm
      refine ⟨?_, rfl, ?_, fun _ => hk m hm⟩
      · rw [hn] at hfwd
        exact (some.inj hfwd).symm.trans hname.symm
      · rw [htag] at hd
        rw [hrr, some.inj hd]

def Removing (r : Request) : Prop :=
  r.state = .remFwYxdhcid ∨ r.state = .remFwNxrr ∨ r.state = .remPtr

instance (r : Request) : Decidable (Removing r) :=
  inferInstanceAs (Decidable (_ ∨ _))

lemma Stage.of_strings {l' : LeaseText} (h : Stage standard z a l r f) (hl : l'.static = l.static)
    (hst : ∀ n, Stored standard z l n → Stored standard z l' n) : Stage standard z a l' r f :=
  h.congr (fun _ hn => ⟨hl ▸ hn.1, hn.2⟩) (fun _ _ => rfl) (fun n _ _ => hst n) (.inl rfl)

/-- A removal for a lease that has ended does not need the strings. -/
lemma Stage.of_ended {l' : LeaseText} (h : Stage standard z a l r f) (hs : Removing r)
    (hact : r.flags.activeLease = false) (hl : l'.static = l.static) :
    Stage standard z a l' r f := by
  refine h.congr (fun _ hn => ⟨hl ▸ hn.1, hn.2⟩) (fun _ _ => rfl) (fun _ _ hor => ?_) (.inl rfl)
  unfold Removing at hs
  rcases hor with h | h <;> simp_all

lemma Now.fine_startRemoval (h : Now w0 S a w l none) (hl : l.Formed w0.standard)
    (hcb : l.ddnsCb = none) (hk : Kept w0.standard w0.zone a l)
    (hfound : l.Found a) {add : Option Cb} (hadd : ∀ c ∈ add, c.Queued w0.standard a l) :
    Fine w0 S a (w.startRemoval a add true) := by
  rcases h.startRemoval hl hcb hk add true with ⟨h', -⟩ | ⟨k, r, f, hb, h'⟩
  · exact ⟨_, _, h', hl, hcb, hk⟩
  · refine ⟨_, _, h', ⟨hl.named, hl.other⟩,
      { hb with found := fun _ => hfound, pointer := ?_, ended := ?_ }, fun c hc => ?_, ?_⟩
    · unfold Pointer
      rw [hb.activeLease]
    · simp [hb.activeLease]
    · refine ⟨queued_of_static (hadd c (hb.nextOp c hc)) rfl, hb.activeLease, ?_⟩
      rcases hb.state with hs | hs <;> simp [hs]
    · exact Stage.of_strings hb.stage rfl fun n hn => ⟨hn.fwdName, hn.identity⟩

def RemovalOf (w : World) (a : Bytes) (r : Request) : Prop :=
  ∃ k, (w.lease a).ddnsCb = some k ∧ w.request k = some r ∧ Removing r

lemma Tidy.pointer (h : w0.Tidy S) (hcb : (w0.lease a).ddnsCb = some k)
    (hreq : w0.request k = some r) : S a = some (k, r, w0.flight k) ∧
      Serves w0.standard w0.zone a (w0.lease a) k r (w0.flight k) := by
  have hs := h.sound a
  cases hq : S a with
  | none =>
    rw [hq] at hs
    simp [hs.1] at hcb
  | some q =>
    obtain ⟨j, r', f'⟩ := q
    rw [hq] at hs
    have hp := hs.pointer
    unfold Pointer at hp
    rw [hcb] at hp
    split_ifs at hp
    cases hp
    obtain ⟨hr', -, rfl⟩ := h.rep.of_mem hq
    rw [hreq] at hr'
    cases hr'
    exact ⟨rfl, hs⟩

/-- A removal that is under way does without what was to follow. -/
lemma Tidy.ddnsRemovals_removing (h : w0.Tidy S) (hr : w0.RemovalOf a r) {active : Bool}
    (hact : r.flags.activeLease = true → active = true) :
    ∃ k f, Now w0 S a (w0.ddnsRemovals a none active) (w0.lease a)
        (some (k, { r with nextOp := none }, f)) ∧
      Serves w0.standard w0.zone a (w0.lease a) k { r with nextOp := none } f := by
  obtain ⟨k, hcb, hreq, hrem⟩ := hr
  obtain ⟨hS, hs⟩ := h.pointer hcb hreq
  have hsup : w0.supersedeRequest a active = none := by
    unfold World.supersedeRequest
    rw [hcb]
    simp only [hreq]
    rw [if_neg]
    rintro (h | h | h | ⟨h1, h2⟩)
    · simp [Removing, h] at hrem
    · simp [Removing, h] at hrem
    · simp [Removing, h] at hrem
    · simp [hact h2] at h1
  refine ⟨k, w0.flight k, ?_, { hs with }, by simp,
    Stage.congr hs.stage (fun _ h => h) (fun _ _ => rfl) (fun _ _ _ h => h) (.inr rfl)⟩
  unfold World.ddnsRemovals
  rw [hsup]
  unfold World.dropNextOp
  rw [hcb]
  have hn := h.now a
  rw [hS] at hn
  refine ⟨rfl, rfl, rfl, fun _ _ => rfl, hn.rep.put rfl
    (some ({ r with nextOp := none }, w0.flight k)) (by simpa using hs.address) ?_ ?_ rfl⟩
  · simp [hreq]
  · simp

lemma ddnsRemovals_of_none (hcb : (w.lease a).ddnsCb = none) (active : Bool) :
    w.ddnsRemovals a none active = w.startRemoval a none active := by
  unfold World.ddnsRemovals World.supersedeRequest
  rw [hcb]

/-! ### Leases that are given out -/

lemma Now.ddnsUpdates (h : Now w0 S a w0 (w0.lease a) none) (hl : (w0.lease a).Formed w0.standard)
    (hcb : (w0.lease a).ddnsCb = none) (hk : Kept w0.standard w0.zone a (w0.lease a))
    (hfound : (w0.lease a).Found a) {inp : UpdateInput} (hd : inp.conflictDetect = true) :
    Fine w0 S a (w0.ddnsUpdates a inp) := by
  have hcancel : w0.cancelOutstanding a = w0 := by
    unfold World.cancelOutstanding
    rw [hcb]
  have hfine : Fine w0 S a w0 := ⟨_, _, h, hl, hcb, hk⟩
  unfold World.ddnsUpdates
  rw [hcancel]
  extract_lets l doRemove done
  split_ifs with _ _ hname hrem _ hrem
  · exact hfine
  · exact hfine
  · rw [ddnsRemovals_of_none hcb]
    exact h.fine_startRemoval hl hcb hk hfound (by simp)
  · exact hfine
  · exact hfine
  all_goals
    have hq : (w0.updateCb a inp).Queued w0.standard a (w0.lease a) :=
      ⟨rfl, rfl, fun hn => hname (by
        have : inp.name = [] := hn
        simp [this]), rfl, rfl, rfl, rfl, by simp [updateCb, hd], rfl⟩
  · exact h.fine_startRemoval hl hcb hk hfound (by simpa using hq)
  · refine h.ddnsFwdSrvConnector hl hcb hfound hk hq (fun n hn _ => ?_) true true
    have := (hk n hn).fwdName
    by_contra hne
    have hne : n ≠ inp.name := hne
    exact hrem (by
      show (w0.lease a).fwdName.any _ = true
      simpa [this] using hne)

end World

end IscDhcp.Ddns
