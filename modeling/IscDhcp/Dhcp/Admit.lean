import IscDhcp.Dhcp.AckLease

/-!
What holds after the part of `ack_lease` in which a client may be refused, because none of the
changes made there can break it.
-/

namespace IscDhcp.Dhcp

open Option

variable {ι : Type} [DecidableEq ι] [Fintype ι] {s : Server ι} {i : ι} {offer : Offer}
  {cfg : Settings} {packet : Packet}

section Database

variable {Q : Db ι → Prop} {v w : Db ι}

lemma releaseOthers_induct (hQ : ∀ {v w j}, Q v → v.releaseLease j = some w → Q w)
    {head : Db ι → Option ι} {ids : Db ι → Ids ι} {n : ℕ} (hv : Q v)
    (h : releaseOthers head ids i n v = some w) : Q w := by
  induction n generalizing v with
  | zero => cases h
  | succ n ih =>
    unfold releaseOthers at h
    cases hh : head v with
    | none =>
      rw [hh] at h
      exact some.inj h ▸ hv
    | some seek =>
      simp only [hh] at h
      split_ifs at h
      · exact some.inj h ▸ hv
      · split at h
        · exact some.inj h ▸ hv
        · obtain ⟨x, hx, h⟩ := bind_eq_some_iff.mp h
          exact ih (hQ hv hx) h

lemma onlyThisLease_induct (hQ : ∀ {v w j}, Q v → v.releaseLease j = some w → Q w) (hv : Q v)
    {host : Option ℕ} (h : onlyThisLease v i cfg packet host = some w) : Q w := by
  unfold onlyThisLease at h
  split_ifs at h
  · obtain ⟨x, hx, h⟩ := bind_eq_some_iff.mp h
    have hx : Q x := by
      unfold releaseByUid at hx
      split_ifs at hx
      · exact some.inj hx ▸ hv
      · exact releaseOthers_induct hQ hv hx
    unfold releaseByHwAddr at h
    split_ifs at h
    · exact releaseOthers_induct hQ hx h
    · exact some.inj h ▸ hx
  · exact some.inj h ▸ hv

lemma billFirst_induct (hQ : ∀ {v} c, Q v → Q (v.billClass i c).2) {classes : List ℕ} (hv : Q v)
    {r : Bool × Bool × Db ι} (h : billFirst cfg i classes v = some r) : Q r.2.2 := by
  induction classes generalizing v r with
  | nil => exact some.inj h ▸ hv
  | cons c classes ih =>
    have hb := hQ c hv
    unfold billFirst at h
    generalize v.billClass i c = b at hb h
    by_cases hc : (v.cls c).leaseLimit = 0
    · rw [if_pos hc] at h
      exact ih hv h
    rw [if_neg hc] at h
    rcases b with ⟨_ | _, w⟩
    · simp only [ite_none_right_eq_some] at h
      obtain ⟨r', hr', rfl⟩ := map_eq_some_iff.mp h.2
      exact ih (r := r') hb hr'
    · exact some.inj h ▸ hb

end Database

/-- Nothing that is done to admit a client for the lease breaks `P`. -/
structure AdmitInvariant (i : ι) (P : Server ι → Prop) : Prop where
  forget : ∀ {s}, P s →
    P (s.modify i fun l => { l with onExpiry := none, onCommit := none, onRelease := none })
  releaseLease : ∀ {s j db}, P s → s.db.releaseLease j = some db → P (s.setDb db)
  unbillClass : ∀ {s}, P s → P (s.setDb (s.db.unbillClass i))
  billClass : ∀ {s} c, P s → P (s.setDb (s.db.billClass i c).2)
  cannotReuse : ∀ {s}, P s → P (s.setCannotReuse i true)

namespace AdmitInvariant

variable {P : Server ι → Prop} (hP : AdmitInvariant i P)
include hP

lemma unbillOther (h : P s) : P (unbillOther s i packet) := by
  unfold Dhcp.unbillOther
  cases (s.db.lease i).billingClass with
  | none => exact h
  | some c =>
    have hu := hP.unbillClass h
    dsimp only
    split_ifs
    · exact h
    · exact hP.cannotReuse hu
    · exact hu

variable {r : Bool × Server ι}

lemma billOne (h : P s) (hr : billOne s i offer cfg packet = some r) : P r.2 := by
  obtain ⟨b, hb, rfl⟩ := map_eq_some_iff.mp hr
  have hw : P (s.setDb b.2.2) :=
    billFirst_induct (fun {v} c hv => hP.billClass (s := s.setDb v) c hv) h hb
  dsimp only
  generalize s.setDb b.2.2 = w at hw
  split
  · exact hw
  · have hu : P (if offer = .dhcpoffer ∧ (w.db.lease i).billingClass.isSome ∧
        (w.db.lease i).bindingState ≠ .active then w.setDb (w.db.unbillClass i) else w) := by
      split_ifs
      exacts [hP.unbillClass hw, hw]
    generalize (if offer = .dhcpoffer ∧ (w.db.lease i).billingClass.isSome ∧
        (w.db.lease i).bindingState ≠ .active then w.setDb (w.db.unbillClass i) else w) = x at hu
    split_ifs
    exacts [hP.cannotReuse hu, hu]

lemma bill (h : P s) (hr : bill s i offer cfg packet = some r) : P r.2 := by
  unfold Dhcp.bill at hr
  split_ifs at hr
  · have hu : P (Dhcp.unbillOther s i packet) := hP.unbillOther h
    dsimp only at hr
    split_ifs at hr
    · exact hP.billOne hu hr
    · exact some.inj hr ▸ hu
  · exact some.inj hr ▸ h

lemma admitClient (h : P s) {host : Option ℕ}
    (hr : s.admitClient packet i offer cfg host = some r) : P r.2 := by
  have hf : P (s.forgetStatements i offer) := by
    unfold Server.forgetStatements
    split_ifs
    exacts [hP.forget h, h]
  obtain ⟨db, hdb, hr⟩ := bind_eq_some_iff.mp hr
  have hd : P ((s.forgetStatements i offer).setDb db) :=
    onlyThisLease_induct
      (fun {v _ _} hv hw => hP.releaseLease (s := (s.forgetStatements i offer).setDb v) hv hw)
        hf hdb
  split_ifs at hr
  · exact some.inj hr ▸ hd
  · exact hP.bill hd hr

end AdmitInvariant

/-! ### The end -/

/-- The client that was admitted gets the lease it has. -/
def Server.reuses (s : Server ι) (packet : Packet) (i : ι) (offer : Offer) (when : Time)
    (cfg : Settings) (host : Option ℕ) : Bool :=
  let client := sampleClient s.db i offer cfg packet (host.or packet.host)
  (sampleTimes s.db i offer when cfg packet client).any fun (lt, _) =>
    let s := s.prepare i offer cfg packet
    !(s.db.lease i).flags.staticLease && reusable (s.cannotReuse i) cfg (s.db.lease i) lt

lemma ends_prepare (s : Server ι) (i : ι) (offer : Offer) (cfg : Settings) (packet : Packet) :
    ((s.prepare i offer cfg packet).db.lease i).ends = (s.db.lease i).ends := by
  unfold Server.prepare
  split_ifs <;> simp [Server.modify, Server.setCannotReuse, Server.setDb, Db.modify, Db.setLease,
    takeOver]

lemma install_cases {lt : Lease} {ok bound : Bool}
    (h : s.install i offer cfg lt = some (ok, bound, t)) :
    (reusable (s.cannotReuse i) cfg (s.db.lease i) lt = true ∧ ok = true ∧ bound = false ∧
        t = (s.modify i (restore lt)).setCannotReuse i false) ∨
      reusable (s.cannotReuse i) cfg (s.db.lease i) lt = false ∧
        ∃ db, (s.setCannotReuse i (offer = .dhcpoffer)).update i offer lt = some (ok, db) ∧
          bound = true ∧ t = (s.setCannotReuse i (offer = .dhcpoffer)).setDb db := by
  unfold Server.install reuseLease at h
  by_cases hr : reusable (s.cannotReuse i) cfg (s.db.lease i) lt = true
  · simp only [if_pos hr] at h
    obtain ⟨rfl, rfl, rfl⟩ := h
    exact .inl ⟨hr, rfl, rfl, rfl⟩
  · simp only [if_neg hr, Bool.false_eq_true, if_false, map_eq_some_iff, Prod.exists] at h
    obtain ⟨ok', db, hdb, rfl, rfl, rfl⟩ := h
    exact .inr ⟨Bool.eq_false_iff.mpr hr, db, hdb, rfl, rfl⟩

end IscDhcp.Dhcp
