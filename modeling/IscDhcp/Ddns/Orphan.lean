import IscDhcp.Ddns.Remembered

/-!
When the names in the DNS are those that the leases remember.

A name is remembered when the result of the update arrives, and a request that is cancelled before
that leaves a name behind that no lease knows. If the requests for an address follow each other,
and the results say what has been done, this cannot happen.
-/

namespace IscDhcp.Ddns

open IscDhcp.Lib.Dns List Function

/-! ### The DNS server -/

lemma answer_eq_success {u : Update Bytes} {z : Zone Bytes} :
    answer u z = .success ↔ u.Applies z := by
  unfold answer Update.Applies
  cases hf : u.prereqs.find? fun p => ¬ p.Holds (z u.name) with
  | none =>
    rw [find?_eq_none] at hf
    simpa using hf
  | some p =>
    have hp := find?_some hf
    have hm := mem_of_find?_eq_some hf
    have hno : ¬ ∀ p ∈ u.prereqs, p.Holds (z u.name) := fun h => by simp [h p hm] at hp
    refine iff_of_false ?_ hno
    cases p <;> simp

section

variable {c : Cb} {t : RRType} {u : Update Bytes} {z : Zone Bytes} {a b n : Bytes}

lemma addressType_ne (h : addressType a = some t) (standard : Bool) : dhcidClass standard ≠ t :=
  Cb.addressType_ne (c := { address := a, standard := standard }) h

lemma recorded_iff (h : addressType a = some t) : Recorded z a n ↔ a ∈ rrset (z n) t := by
  rw [mem_rrset]
  constructor
  · rintro ⟨t', ht, hm⟩
    rw [h] at ht
    rwa [Option.some.inj ht]
  · exact fun hm => ⟨t, h, hm⟩

lemma apply_of_ne (hn : n ≠ u.name) : u.apply z n = z n := by
  unfold Update.apply
  split_ifs
  · rw [update_of_ne hn]
  · rfl

lemma apply_self (h : u.Applies z) : u.apply z u.name = u.result z := by
  rw [Update.apply_of_applies h, update_self]

/-- The addresses at a name after a message for one of them. -/
lemma MessageOf.mem_result (hm : MessageOf c t u)
    (ho : c.flags.conflictOverride = false) {t' : RRType} (ht' : addressType b = some t')
    (h : b ∈ rrset (u.result z) t') : b = c.address ∨ b ∈ rrset (z u.name) t' := by
  have hcls : t' ≠ c.dhcidClass := (addressType_ne ht' c.standard).symm
  cases hm with
  | add1 =>
    have h : b ∈ rrset (Change.apply (Change.apply (z c.fwdName) (.add t c.address))
      (.add c.dhcidClass c.dhcid)) t' := h
    rw [rrset_add_of_ne hcls] at h
    by_cases htt : t' = t
    · subst htt
      rw [rrset_add_self, Finset.mem_insert] at h
      exact h
    · rw [rrset_add_of_ne htt] at h
      exact .inr h
  | add2 =>
    rw [add2_eq ho] at h ⊢
    have h : b ∈ rrset (Change.apply (Change.apply (z c.fwdName) (.deleteRRset t))
      (.add t c.address)) t' := h
    by_cases htt : t' = t
    · subst htt
      rw [rrset_add_self, rrset_deleteRRset_self, Finset.mem_insert] at h
      exact .inl (h.resolve_right (Finset.notMem_empty b))
    · rw [rrset_add_of_ne htt, rrset_deleteRRset_of_ne htt] at h
      exact .inr h
  | rem1 =>
    have h : b ∈ rrset (Change.apply (z c.fwdName) (.deleteRR t c.address)) t' := h
    by_cases htt : t' = t
    · subst htt
      rw [rrset_deleteRR_self, Finset.mem_erase] at h
      exact .inr h.2
    · rw [rrset_deleteRR_of_ne htt] at h
      exact .inr h
  | rem2 =>
    have h : b ∈ rrset (Change.apply (z c.fwdName) (.deleteRR c.dhcidClass c.dhcid)) t' := h
    rw [rrset_deleteRR_of_ne hcls] at h
    exact .inr h

/-- The identity at a name with addresses stays, unless the name is new. -/
lemma MessageOf.identity_result (hm : MessageOf c t u) (ht : c.addressType = some t)
    (ho : c.flags.conflictOverride = false) (hi : c.flags.includeRrset = false)
    (happ : u.Applies z) {t' : RRType} (ht' : addressType b = some t')
    (hb : b ∈ rrset (z u.name) t') (standard : Bool) :
    rrset (u.result z) (dhcidClass standard) = rrset (z u.name) (dhcidClass standard) := by
  have hcls : dhcidClass standard ≠ t := addressType_ne ht standard
  cases hm with
  | add1 =>
    have hb : b ∈ rrset (z c.fwdName) t' := hb
    rw [name_of_add1 hi happ] at hb
    simp at hb
  | add2 =>
    rw [add2_eq ho]
    exact (rrset_add_of_ne hcls).trans (rrset_deleteRRset_of_ne hcls)
  | rem1 => exact rrset_deleteRR_of_ne hcls
  | rem2 =>
    have hb : b ∈ rrset (z c.fwdName) t' := hb
    have ha : rrset (z c.fwdName) .a = ∅ := happ _ (mem_cons_self ..)
    have haaaa : rrset (z c.fwdName) .aaaa = ∅ :=
      happ _ (mem_cons_of_mem _ (mem_cons_self ..))
    rcases Cb.addressType_eq (c := { address := b }) ht' with rfl | rfl
    · simp [ha] at hb
    · simp [haaaa] at hb

/-- The update for one address does no harm to the records of another. -/
lemma MessageOf.recorded_other (hm : MessageOf c t u) (ht : c.addressType = some t)
    (ho : c.flags.conflictOverride = false) (hi : c.flags.includeRrset = false)
    (hb : b ≠ c.address) (standard : Bool) (h : Recorded (u.apply z) b n) : Recorded z b n ∧
      rrset (u.apply z n) (dhcidClass standard) = rrset (z n) (dhcidClass standard) := by
  by_cases hn : n = u.name
  · subst hn
    by_cases happ : u.Applies z
    · obtain ⟨t', ht', -⟩ := id h
      rw [recorded_iff ht'] at h ⊢
      rw [apply_self happ] at h ⊢
      have hold := (hm.mem_result ho ht' h).resolve_left hb
      exact ⟨hold, hm.identity_result ht ho hi happ ht' hold standard⟩
    · rw [Update.apply_of_not_applies happ] at h ⊢
      exact ⟨h, rfl⟩
  · unfold Recorded at h ⊢
    rw [apply_of_ne hn] at h ⊢
    exact ⟨h, rfl⟩

end

section

variable {standard : Bool} {z z' : Zone Bytes} {a : Bytes} {l : LeaseText} {r : Request}
variable {f : Flight}

/-- No record of the address has come, and where one is, the identity is as it was. -/
def Unharmed (standard : Bool) (z z' : Zone Bytes) (a : Bytes) : Prop :=
  ∀ n, Recorded z' a n →
    Recorded z a n ∧ rrset (z' n) (dhcidClass standard) = rrset (z n) (dhcidClass standard)

lemma Stored.unharmed {n : Bytes} (h : Stored standard z l n)
    (hz : rrset (z' n) (dhcidClass standard) = rrset (z n) (dhcidClass standard)) :
    Stored standard z' l n := by
  obtain ⟨d, hd, hr⟩ := h.identity
  exact ⟨h.fwdName, d, hd, hz.trans hr⟩

lemma Stage.unharmed (h : Stage standard z a l r f) (hz : Unharmed standard z z' a) :
    Stage standard z' a l r f :=
  h.congr (fun n hn => ⟨hn.1, (hz n hn.2).1⟩) (fun n hn => (hz n hn.2).2)
    (fun n hn _ hst => hst.unharmed (hz n hn.2).2) (.inl rfl)

lemma Sound.unharmed {q : Outstanding} (h : Sound standard z a l q)
    (hz : Unharmed standard z z' a) : Sound standard z' a l q := by
  match q with
  | none => exact ⟨h.1, fun n hn => (h.2 n ⟨hn.1, (hz n hn.2).1⟩).unharmed (hz n hn.2).2⟩
  | some (k, r, f) => exact ⟨h.toLinked, h.nextOp, h.stage.unharmed hz⟩

/-- The identity at the name after the addition has been applied. -/
lemma MessageOf.identity_added {c : Cb} {t : RRType} {u : Update Bytes} (hm : MessageOf c t u)
    (ht : c.addressType = some t) (ho : c.flags.conflictOverride = false)
    (hi : c.flags.includeRrset = false)
    (hs : c.state = .addFwNxdomain ∨ c.state = .addFwYxdhcid) (happ : u.Applies z) :
    rrset (u.result z) c.dhcidClass = {c.dhcid} := by
  have hcls : c.dhcidClass ≠ t := addressType_ne ht c.standard
  cases hm with
  | add1 =>
    show rrset (Change.apply (Change.apply (z c.fwdName) (.add t c.address))
      (.add c.dhcidClass c.dhcid)) c.dhcidClass = _
    rw [rrset_add_self, rrset_add_of_ne hcls, name_of_add1 hi happ, rrset_empty, insert_empty_eq]
  | add2 =>
    rw [add2_eq ho] at happ ⊢
    exact ((rrset_add_of_ne hcls).trans (rrset_deleteRRset_of_ne hcls)).trans
      (happ _ (mem_singleton_self _))
  | rem1 state => simp [state] at hs
  | rem2 state => simp [state] at hs

/-- The record has gone with the first message of a removal, and no other one brings it. -/
lemma MessageOf.not_recorded {c : Cb} {t : RRType} {u : Update Bytes} (hm : MessageOf c t u)
    (ht : c.addressType = some t) (happ : u.Applies z)
    (hs : c.state = .remFwYxdhcid ∨ c.state = .remFwNxrr ∧ ¬ Recorded z c.address u.name) :
    ¬ Recorded (u.apply z) c.address u.name := by
  intro h
  rw [recorded_iff ht, apply_self happ] at h
  cases hm with
  | add1 state => simp [state] at hs
  | add2 state => simp [state] at hs
  | rem1 =>
    have h : c.address ∈ rrset (Change.apply (z c.fwdName) (.deleteRR t c.address)) t := h
    rw [rrset_deleteRR_self] at h
    exact Finset.notMem_erase _ _ h
  | rem2 state =>
    have h : c.address ∈ rrset (Change.apply (z c.fwdName) (.deleteRR c.dhcidClass c.dhcid)) t := h
    have hcls : t ≠ c.dhcidClass := (addressType_ne ht c.standard).symm
    rw [rrset_deleteRR_of_ne hcls] at h
    rcases hs with hs | ⟨-, hs⟩
    · simp [state] at hs
    · exact hs ((recorded_iff ht).mpr h)

lemma Stage.answered {u : Update Bytes} (h : Stage standard z a l r (some (u, none)))
    (hr : r.address = a) (ho : r.flags.conflictOverride = false)
    (hi : r.flags.includeRrset = false) :
    Stage standard (u.apply z) a l r (some (u, some (answer u z))) := by
  subst hr
  have hmsg : r.fwdMessage = some u := by cases h <;> assumption
  obtain ⟨t, ht, hm⟩ := Cb.messageOf hmsg
  have hname : u.name = r.fwdName := hm.name
  -- elsewhere nothing changes
  have hne {n : Bytes} (hn : Owed (u.apply z) r.address l n) (h : n ≠ r.fwdName) :
      Owed z r.address l n := by
    refine ⟨hn.1, ?_⟩
    have := hn.2
    unfold Recorded at this ⊢
    rwa [apply_of_ne (hname ▸ h)] at this
  by_cases happ : u.Applies z
  · rw [answer_eq_success.mpr happ]
    cases h with
    | add state hact hmsg hstyle hnamed only known =>
      have only' (n : Bytes) (hn : Owed (u.apply z) r.address l n) : n = r.fwdName := by
        by_contra h
        exact h (only n (hne hn h))
      refine .add state hact hmsg hstyle hnamed only' fun n hn => ?_
      rw [if_pos rfl, only' n hn, ← hname, apply_self happ, ← hstyle]
      exact hm.identity_added ht ho hi state happ
    | rem1 state hmsg hstyle hnext known =>
      refine .rem1 state hmsg hstyle hnext fun n hn => ?_
      by_cases h : n = r.fwdName
      · rw [h, ← hname] at hn
        exact absurd hn.2 (hm.not_recorded ht happ (.inl state))
      · exact absurd (known n (hne hn h)).1 h
    | rem2 state hmsg hstyle known =>
      refine .rem2 state hmsg hstyle fun n hn => ?_
      by_cases h : n = r.fwdName
      · rw [h, ← hname] at hn
        exact hm.not_recorded ht happ (.inr ⟨state, fun h => known _ ⟨hn.1, h⟩⟩) hn.2
      · exact known n (hne hn h)
  · have hx : answer u z ≠ .success := fun h => happ (answer_eq_success.mp h)
    rw [Update.apply_of_not_applies happ]
    cases h with
    | add state hact hmsg hstyle hnamed only known =>
      refine .add state hact hmsg hstyle hnamed only fun n hn => ?_
      rw [if_neg (by simpa using hx)]
      exact known n hn
    | rem1 state hmsg hstyle hnext known =>
      refine .rem1 state hmsg hstyle hnext fun n hn => absurd ?_ happ
      obtain ⟨rfl, -, hid, -⟩ := known n hn
      cases hm with
      | rem1 =>
        intro p hp
        rw [mem_singleton.mp hp]
        show rrset (z r.fwdName) (dhcidClass r.standard) = _
        rw [hstyle]
        exact hid
      | add1 h => simp [state] at h
      | add2 h => simp [state] at h
      | rem2 h => simp [state] at h
    | rem2 state hmsg hstyle known => exact .rem2 state hmsg hstyle known

end

namespace World

variable {w : World} {S : Bytes → Outstanding}

/-! ### Events -/

section

variable (h : w.Tidy S)

include h

lemma Tidy.process (k : ℕ) : ∃ S', (w.process k).Tidy S' := by
  unfold World.process
  split
  · next u hu =>
    cases hreq : w.request k with
    | none =>
      rw [h.rep.idle k hreq] at hu
      cases hu
    | some r =>
      have hS := h.rep.mem k r hreq
      rw [hu] at hS
      have hs := h.sound r.address
      rw [hS] at hs
      have hmsg : r.fwdMessage = some u := by
        cases hs.stage <;> assumption
      obtain ⟨t, ht, hm⟩ := Cb.messageOf hmsg
      refine ⟨update S r.address (some (k, r, some (u, some (answer u w.zone)))), ?_,
        h.formed, fun b => ?_⟩
      · have hrep : w.Rep (update S r.address (some (k, r, some (u, none)))) := by
          rw [← hS, update_eq_self]
          exact h.rep
        refine hrep.put rfl (some (r, some (u, some (answer u w.zone)))) (by simp) ?_ rfl rfl
        simp [← hreq]
      · by_cases hb : b = r.address
        · subst hb
          rw [update_self]
          exact ⟨hs.toLinked, hs.nextOp, hs.stage.answered rfl hs.conflictOverride hs.includeRrset⟩
        · rw [update_of_ne hb]
          exact (h.sound b).unharmed fun n hn =>
            hm.recorded_other ht hs.conflictOverride hs.includeRrset hb w.standard hn
  · exact ⟨S, h⟩

def Free (w : World) (a : Bytes) : Prop := ∀ k r, w.request k = some r → r.address ≠ a

variable {a : Bytes}

lemma Tidy.free (hf : w.Free a) : S a = none := by
  cases hq : S a with
  | none => rfl
  | some q =>
    obtain ⟨k, r, f⟩ := q
    obtain ⟨hr, ha, -⟩ := h.rep.of_mem hq
    exact absurd ha (hf k r hr)

/-- The requests for an address follow each other, the results say what has been done, and the
strings of a lease are dropped only when they are not needed. -/
def Orderly (w : World) : Event → Prop
  | .update a inp => inp.conflictDetect = true ∧ w.Free a ∧ (w.lease a).Found a
  | .removal a => w.Free a ∧ (w.lease a).Found a ∨ ∃ r, w.RemovalOf a r
  | .lapse a _ => w.Free a ∧ w.io = [] ∨ ∃ r, w.RemovalOf a r ∧ r.flags.activeLease = false
  | .setActive a _ => w.Free a ∨ a.length = 4
  | .dropScope a => (w.lease a).fwdName = none
  | .process _ => True
  | .deliver _ => False
  | .result k res => ∀ r, w.request k = some r → Reported r (w.flight k) res
  | .other _ _ => False

lemma Tidy.update {inp : UpdateInput} (ho : w.Orderly (.update a inp)) :
    ∃ S', (w.ddnsUpdates a inp).Tidy S' := by
  obtain ⟨hd, hfree, hfound⟩ := ho
  have hn := h.now a
  have hs := h.sound a
  rw [h.free hfree] at hn hs
  exact h.fine (hn.ddnsUpdates (h.formed a) hs.1 hs.2 hfound hd)

lemma Tidy.removal (ho : w.Orderly (.removal a)) : ∃ S', (w.ddnsRemovals a none true).Tidy S' := by
  rcases ho with ⟨hfree, hfound⟩ | ⟨r, hr⟩
  · have hn := h.now a
    have hs := h.sound a
    rw [h.free hfree] at hn hs
    refine h.fine (a := a) ?_
    rw [ddnsRemovals_of_none hs.1]
    exact hn.fine_startRemoval (h.formed a) hs.1 hs.2 hfound (by simp)
  · obtain ⟨k, f, hn, hs⟩ := h.ddnsRemovals_removing hr (fun _ => rfl)
    exact h.fine ⟨_, _, hn, h.formed a, hs⟩

omit h in
lemma formed_dropText {standard : Bool} {l : LeaseText} (b : Bool) :
    LeaseText.Formed standard { dropText l with active := b } :=
  ⟨nofun, by cases standard <;> rfl⟩

lemma Tidy.lapse {stays : Bool} (ho : w.Orderly (.lapse a stays)) :
    ∃ S', (w.lapse a stays).Tidy S' := by
  refine h.fine (a := a) ?_
  unfold World.lapse
  have h16 : a.length = 16 → (stays && decide (a.length ≠ 16)) = false := by
    intro h
    simp [h]
  rcases ho with ⟨hfree, hio⟩ | ⟨r, hr, hact⟩
  · have hn := h.now a
    have hs := h.sound a
    rw [h.free hfree] at hn hs
    rw [ddnsRemovals_of_none hs.1]
    rcases hn.startRemoval (h.formed a) hs.1 hs.2 none false with ⟨hn, hnone⟩ | ⟨k, r, f, hb, hn⟩
    · exact ⟨_, _, hn.modifyLease _, formed_dropText _, hs.1, fun n h => absurd h (hnone hio n)⟩
    · have hrem : Removing r := hb.state.elim .inl fun h => .inr (.inr h)
      refine ⟨_, _, hn.modifyLease _, formed_dropText _,
        { hb with
          found := fun h => by simp [hb.activeLease] at h
          pointer := ?_
          ended := fun h _ => h16 h },
        fun c hc => by simpa using hb.nextOp c hc,
        Stage.of_ended hb.stage hrem hb.activeLease rfl⟩
      unfold Pointer
      rw [hb.activeLease]
      rfl
  · obtain ⟨k, f, hn, hs⟩ := h.ddnsRemovals_removing hr (by simp [hact])
    have hrem : Removing r := hr.choose_spec.2.2
    refine ⟨_, _, hn.modifyLease _, formed_dropText _,
      { hs with found := fun h => ?_, ended := fun h _ => h16 h }, by simp,
      Stage.of_ended hs.stage hrem hact rfl⟩
    simp [hact] at h

lemma Tidy.setActive {b : Bool} (ho : w.Orderly (.setActive a b)) :
    ∃ S', (w.modifyLease a fun l => { l with active := b }).Tidy S' := by
  have hn := h.now a
  have hs := h.sound a
  have hl : LeaseText.Formed w.standard { w.lease a with active := b } :=
    ⟨(h.formed a).named, (h.formed a).other⟩
  refine h.fine ⟨_, _, hn.modifyLease _, hl, ?_⟩
  rcases ho with hfree | h4
  · rw [h.free hfree] at hs ⊢
    exact ⟨hs.1, fun n hn => ⟨(hs.2 n hn).fwdName, (hs.2 n hn).identity⟩⟩
  · match hq : S a with
    | none =>
      rw [hq] at hs
      exact ⟨hs.1, fun n hn => ⟨(hs.2 n hn).fwdName, (hs.2 n hn).identity⟩⟩
    | some (k, r, f) =>
      rw [hq] at hs
      exact ⟨{ hs with found := fun _ => .inl h4, ended := by simp [h4] },
        fun c hc => ⟨queued_of_static (hs.nextOp c hc).1 rfl, (hs.nextOp c hc).2⟩,
        Stage.of_strings hs.stage rfl fun n hn => ⟨hn.fwdName, hn.identity⟩⟩

lemma Tidy.dropScope (ho : w.Orderly (.dropScope a)) :
    ∃ S', (w.modifyLease a dropText).Tidy S' := by
  have hn := h.now a
  have hs := h.sound a
  have hst (n : Bytes) : ¬ Stored w.standard w.zone (w.lease a) n := fun hst => by
    have := hst.fwdName
    rw [show (w.lease a).fwdName = none from ho] at this
    cases this
  refine h.fine ⟨_, _, hn.modifyLease _, formed_dropText _, ?_⟩
  match hq : S a with
  | none =>
    rw [hq] at hs
    exact ⟨hs.1, fun n hn => absurd (hs.2 n hn) (hst n)⟩
  | some (k, r, f) =>
    rw [hq] at hs
    exact ⟨{ hs with },
      fun c hc => ⟨queued_of_static (hs.nextOp c hc).1 rfl, (hs.nextOp c hc).2⟩,
      Stage.of_strings hs.stage rfl fun n hn => absurd hn (hst n)⟩

lemma Tidy.result {k : ℕ} {res : Result} (ho : w.Orderly (.result k res)) :
    ∃ S', (w.ddnsInterlude k res).Tidy S' := by
  cases hreq : w.request k with
  | none =>
    refine ⟨S, ?_⟩
    unfold World.ddnsInterlude
    rw [hreq]
    exact h
  | some r =>
    have hn := h.now r.address
    have hs := h.sound r.address
    rw [h.rep.mem k r hreq] at hn hs
    exact h.fine (hn.ddnsInterlude (h.formed _) hs (ho r hreq))

lemma Tidy.step {ev : Event} (ho : w.Orderly ev) : ∃ S', (w.step ev).Tidy S' := by
  cases ev with
  | update a inp => exact h.update ho
  | removal a => exact h.removal ho
  | lapse a stays => exact h.lapse ho
  | setActive a b => exact h.setActive ho
  | dropScope a => exact h.dropScope ho
  | process k => exact h.process k
  | deliver i => exact ho.elim
  | result k res => exact h.result ho
  | other n v => exact ho.elim

/-- All events of the run are orderly when they happen. -/
def OrderlyRun : World → List Event → Prop
  | _, [] => True
  | w, ev :: evs => w.Orderly ev ∧ OrderlyRun (w.step ev) evs

lemma Tidy.run {evs : List Event} (ho : w.OrderlyRun evs) : ∃ S', (w.run evs).Tidy S' := by
  induction evs generalizing w S with
  | nil => exact ⟨S, h⟩
  | cons ev evs ih =>
    obtain ⟨S', h'⟩ := h.step ho.1
    exact ih h' ho.2

end

/-- Nothing has been entered into the DNS yet. -/
structure Blank (w : World) : Prop extends AtStart w where
  zone : ∀ n, w.zone n = ∅
  lease : ∀ a, (w.lease a).fwdName = none ∧ (w.lease a).standardTag = none ∧
    (w.lease a).interimTag = none ∧ (w.lease a).ddnsCb = none

lemma Blank.tidy (h : w.Blank) : w.Tidy fun _ => none where
  rep := ⟨fun k r hr => by simp [h.request k] at hr, nofun, fun k _ => h.request k,
    fun k _ => h.flight k⟩
  formed a := by
    obtain ⟨h1, h2, h3, -⟩ := h.lease a
    exact ⟨by simp [h1], by cases w.standard <;> simp [LeaseText.tag, h2, h3]⟩
  sound a := ⟨(h.lease a).2.2.2, fun n hn => by
    obtain ⟨-, t, -, hm⟩ := hn
    simp [h.zone n] at hm⟩

/-- **No orphans in an orderly run**: in every state that is reached, the names of the active
dynamic leases without a request under way are those that the leases remember. -/
theorem orderly_noOrphan (w : World) (hw : w.Blank) (evs : List Event) (ho : w.OrderlyRun evs) :
    (w.run evs).NoOrphan := by
  obtain ⟨S, h⟩ := hw.tidy.run ho
  exact h.noOrphan

def sampleAddress : Bytes := [10, 0, 0, 1]

def sampleUpdate (name : Bytes) : Event :=
  .update sampleAddress { name := name, dhcid := some [7], ptr := false }

lemma blank_empty : ({} : World).Blank :=
  ⟨⟨fun _ => rfl, fun _ => rfl, rfl⟩, fun _ => rfl, fun _ => ⟨rfl, rfl, rfl, rfl⟩⟩

def orderlySample : List Event :=
  [.setActive sampleAddress true, sampleUpdate [1], .process 0, .result 0 .success]

theorem orderly_noOrphan_sample : (({} : World).run orderlySample).NoOrphan ∧
      Recorded (({} : World).run orderlySample).zone sampleAddress [1] ∧
      ((({} : World).run orderlySample).lease sampleAddress).ddnsCb = none := by
  refine ⟨orderly_noOrphan {} blank_empty orderlySample ?_, ⟨.a, rfl, by decide +kernel⟩,
    by decide +kernel⟩
  have hfree : (({} : World).step (.setActive sampleAddress true)).Free sampleAddress := by
    intro k r h
    cases h
  refine ⟨.inr rfl, ⟨rfl, hfree, .inl rfl⟩, trivial, fun r hr => ?_, trivial⟩
  have hreq : ((({} : World).run (orderlySample.take 3)).request 0) =
      some { address := sampleAddress, fwdName := [1], dhcid := [7], state := .addFwNxdomain,
             flags := { updateAddr := true, activeLease := true } } := by decide +kernel
  cases hr.symm.trans hreq
  show Result.success = .success ↔ some (answer _ _) = some Result.success
  decide +kernel

/-- The lease is renewed under another name before the result for the first one has arrived. -/
def orphanRun : List Event :=
  [.setActive sampleAddress true, sampleUpdate [1], .process 0, sampleUpdate [2],
    .result 0 .canceled, .process 1, .result 1 .success]

/-- The first name stays in the DNS, and the lease remembers the second one only. -/
theorem cancelled_leaves_orphan : ({} : World).Blank ∧ ¬ (({} : World).run orphanRun).NoOrphan := by
  refine ⟨blank_empty, fun h => ?_⟩
  have hname := h sampleAddress [1] (by decide +kernel) (by decide +kernel) (by decide +kernel)
    ⟨.a, rfl, by decide +kernel⟩
  revert hname
  decide +kernel

end World

end IscDhcp.Ddns
