import IscDhcp.Dhcp.Admit
import IscDhcp.Mdb.Records

/-!
Every lease time that is acknowledged is on record, in a server without a failover peer.

An offer gives the lease new times without writing them, and an acknowledgement that reuses the
lease writes nothing. What holds throughout is that a lease that may be reused is on record.
-/

namespace IscDhcp.Dhcp

open Option

variable {ι : Type} [DecidableEq ι] [Fintype ι]

open Db (Filed OnRecord)

def Recorded (s : Server ι) : Prop := Filed (fun i => s.cannotReuse i = true) s.db

variable {s t : Server ι} {i : ι} {offer : Offer} {cfg : Settings} {packet : Packet}

/-! ### Before the update -/

lemma Recorded.setCannotReuse (h : Recorded s) (i : ι) : Recorded (s.setCannotReuse i true) := by
  refine Filed.mono h fun j hj => ?_
  by_cases hji : j = i
  · simp [Server.setCannotReuse, hji]
  · simpa [Server.setCannotReuse, hji] using hj

lemma recorded_admitInvariant (i : ι) : AdmitInvariant i (Recorded (ι := ι)) where
  forget h := Filed.modify (f := fun l =>
    { l with onExpiry := none, onCommit := none, onRelease := none }) h rfl id rfl rfl
  releaseLease h hdb := Filed.releaseLease h hdb
  unbillClass h := Filed.unbillClass h i
  billClass c h := Filed.billClass h i c
  cannotReuse h := h.setCannotReuse i

lemma delayedAck_admitInvariant (i : ι) (b : Bool) :
    AdmitInvariant i fun t : Server ι => t.delayedAck = b :=
  ⟨id, fun h _ => h, id, fun _ => id, id⟩

lemma prepare_kept (s : Server ι) (i : ι) (offer : Offer) (cfg : Settings) (packet : Packet) :
    (s.prepare i offer cfg packet).delayedAck = s.delayedAck ∧
      (s.prepare i offer cfg packet).db.curTime = s.db.curTime := by
  unfold Server.prepare
  split_ifs <;> exact ⟨rfl, rfl⟩

lemma recorded_prepare (h : Recorded s) (i : ι) (offer : Offer) (cfg : Settings) (packet : Packet) :
    Recorded (s.prepare i offer cfg packet) := by
  have hc : Recorded (if mustRecord offer cfg packet (s.db.lease i) then s.setCannotReuse i true
      else s) := by
    split_ifs
    exacts [h.setCannotReuse i, h]
  exact Filed.modify hc rfl id rfl rfl

/-! ### The update -/

/-- The leases that may be reused are on record, except perhaps for this one. -/
def RecordedBut (i : ι) (s : Server ι) : Prop :=
  Filed (fun j => s.cannotReuse j = true ∨ j = i) s.db

lemma recorded_reuse (h : Recorded s) {lt : Lease}
    (hr : reusable (s.cannotReuse i) cfg (s.db.lease i) lt = true) :
    Recorded ((s.modify i (restore lt)).setCannotReuse i false) ∧
      (s.db.lease i).bindingState = .active ∧ OnRecord s.db i := by
  simp only [reusable, unchanged, Bool.and_eq_true, Bool.not_eq_true', beq_iff_eq] at hr
  have hc : s.cannotReuse i = false := hr.1.1.1
  refine ⟨?_, hr.1.1.2.1.1.1.1, Filed.onRecord h i (by simp [hc])⟩
  have hm : Recorded (s.modify i (restore lt)) := Filed.modify h rfl id rfl rfl
  refine Filed.mono hm fun j hj => ?_
  have hji : j ≠ i := by
    rintro rfl
    exact absurd hj (by simp [Server.modify, Server.setDb, hc])
  simpa [Server.setCannotReuse, hji] using hj

variable {u : Server ι} {expiry : Time} {o : Option LeaseState}

lemma RecordedBut.of_mem {db : Db ι} {i : ι} (h : RecordedBut i (u.setDb db))
    (hu : u.cannotReuse i = true) : Recorded (u.setDb db) := by
  refine Filed.mono h fun j hj => hj.elim id ?_
  rintro rfl
  exact hu

lemma Recorded.but (h : Recorded s) (i : ι) (b : Bool) : RecordedBut i (s.setCannotReuse i b) := by
  refine Filed.mono h fun j hj => ?_
  by_cases hji : j = i
  · exact .inr hji
  · exact .inl (by simpa [Server.setCannotReuse, hji] using hj)

/-- The update leaves the lease on record if it is committed, if it is an offer, or if it fails. -/
lemma recorded_update (h : Recorded s) {lt : Lease} (hd : lt.flags.staticLease = false) {ok : Bool}
    {db : Db ι} (ho : offer ≠ .bootp)
    (hu : (s.setCannotReuse i (offer = .dhcpoffer)).update i offer lt = some (ok, db)) :
    RecordedBut i ((s.setCannotReuse i (offer = .dhcpoffer)).setDb db) ∧
      (s.delayedAck = false ∨ offer = .dhcpoffer ∨ ok = false →
        Recorded ((s.setCannotReuse i (offer = .dhcpoffer)).setDb db)) ∧
      (ok = true → db.curTime = s.db.curTime ∧ (s.db.curTime ≤ lt.ends →
        (db.lease i).bindingState = lt.nextBindingState ∧ (db.lease i).ends = lt.ends)) := by
  have hb := h.but i (offer = .dhcpoffer)
  have hdyn : Db.Dynamic (some lt) := fun l hl => some.inj hl ▸ hd
  obtain ⟨commit, propogate, pimmediate, hc, hcom, hsup⟩ : ∃ commit propogate pimmediate,
      (commit || !pimmediate) = true ∧
      (commit = true ∨ s.delayedAck = true ∨ offer = .dhcpoffer) ∧
      s.db.supersedeLease i (some lt) commit propogate pimmediate = some (ok, db) := by
    unfold Server.update at hu
    split_ifs at hu with hda
    · exact ⟨_, _, _, rfl, .inr (.inl hda), hu⟩
    · refine ⟨_, _, _, ?_, ?_, hu⟩
      · cases offer <;> simp at ho ⊢
      · cases offer <;> simp at ho ⊢
  obtain ⟨hk, hco⟩ := Filed.supersedeLease hb hdyn hc hsup
  refine ⟨hk, fun hor => ?_, fun hok => ?_⟩
  · rcases hor with hda | hof | hok
    · rcases hcom with hcom | hda' | hof
      · exact hco (.inl hcom)
      · rw [hda] at hda'
        cases hda'
      · exact RecordedBut.of_mem hk (by simp [Server.setCannotReuse, hof])
    · exact RecordedBut.of_mem hk (by simp [Server.setCannotReuse, hof])
    · exact hco (.inr hok)
  · subst hok
    exact Db.supersedeLease_data h hd hc hsup

/-! ### The answer -/

/-- The leases and their last records are the same. -/
structure Still (v w : Db ι) : Prop where
  lease : w.lease = v.lease
  records : ∀ i, lastRecord w.log i = lastRecord v.log i
  plain : Db.Plain v → Db.Plain w
  curTime : w.curTime = v.curTime

lemma Still.refl (v : Db ι) : Still v v := ⟨rfl, fun _ => rfl, id, rfl⟩

lemma Still.trans {u v w : Db ι} (h : Still u v) (h' : Still v w) : Still u w :=
  ⟨h'.lease.trans h.lease, fun i => (h'.records i).trans (h.records i), h'.plain ∘ h.plain,
    h'.curTime.trans h.curTime⟩

lemma Still.onRecord {v w : Db ι} (h : Still v w) (hv : OnRecord v i) : OnRecord w i :=
  hv.congr (by rw [h.lease]) (by rw [h.lease]) (h.records i)

lemma Still.filed {v w : Db ι} {E : ι → Prop} (h : Still v w) (hv : Filed E v) : Filed E w :=
  ⟨h.plain hv.plain, by rw [h.lease]; exact hv.pool, by rw [h.lease]; exact hv.dynamic,
    fun i hi => h.onRecord (hv.onRecord i hi)⟩

lemma still_replied (v : Db ι) (i : ι) (st : LeaseState) : Still v (v.emit (.replied i st)) :=
  ⟨rfl, fun _ => lastRecord_replied .., fun h => h.emit _, rfl⟩

lemma still_commitLeases {v : Db ι} (h : Db.Plain v) : Still v v.commitLeases.2 := by
  rw [Db.commitLeases, Db.askAnd_plain h]
  exact ⟨rfl, fun _ => lastRecord_committed .., fun h => h.emit _, rfl⟩

/-- The leases stay as they are, and so does the flag. -/
structure Stays (s t : Server ι) : Prop where
  still : Still s.db t.db
  cannotReuse : t.cannotReuse = s.cannotReuse

lemma Stays.refl (s : Server ι) : Stays s s := ⟨.refl _, rfl⟩

lemma Stays.trans (h : Stays s t) (h' : Stays t u) : Stays s u :=
  ⟨h.still.trans h'.still, h'.cannotReuse.trans h.cannotReuse⟩

lemma Stays.recorded (h : Stays s t) (hs : Recorded s) : Recorded t := by
  unfold Recorded
  rw [h.cannotReuse]
  exact h.still.filed hs

lemma stays_dhcpReply (h : s.dhcpReply i = some t) : Stays s t := by
  obtain ⟨st, -, rfl⟩ := map_eq_some_iff.mp h
  exact ⟨still_replied _ i st, rfl⟩

lemma stays_sendDelayed (hs : Db.Plain s.db) (i : ι) : Stays s (s.sendDelayed i) := by
  have hd : s.sendDeferred i = s := by simp [Server.sendDeferred, hs.peered]
  unfold Server.sendDelayed
  rw [hd]
  dsimp only
  cases h : s.dhcpReply i with
  | none => exact .refl s
  | some t => exact stays_dhcpReply h

lemma stays_delayedAcksTimer (hs : Db.Plain s.db) : Stays s s.delayedAcksTimer := by
  unfold Server.delayedAcksTimer
  split_ifs
  · exact .refl s
  · have hc : Stays s s.commitDelayed := ⟨still_commitLeases hs, rfl⟩
    have hq : Stays s (s.ackqueue.reverse.foldl Server.sendDelayed s.commitDelayed) :=
      List.foldlRecOn _ _ hc fun _ h j _ => h.trans (stays_sendDelayed (h.still.plain hs) j)
    exact ⟨hq.still, hq.cannotReuse⟩

/-- The lease is active or not, and ends, as before. -/
structure SameLease (i : ι) (s t : Server ι) : Prop where
  bindingState : (t.db.lease i).bindingState = (s.db.lease i).bindingState
  ends : (t.db.lease i).ends = (s.db.lease i).ends
  curTime : t.db.curTime = s.db.curTime

lemma SameLease.trans (h : SameLease i s t) (h' : SameLease i t u) : SameLease i s u :=
  ⟨h'.bindingState.trans h.bindingState, h'.ends.trans h.ends, h'.curTime.trans h.curTime⟩

lemma Stays.sameLease (h : Stays s t) (i : ι) : SameLease i s t :=
  ⟨by rw [h.still.lease], by rw [h.still.lease], h.still.curTime⟩

lemma recorded_delayedAckEnqueue (h : RecordedBut i s) :
    Recorded (s.delayedAckEnqueue i) ∧ OnRecord (s.delayedAckEnqueue i).db i ∧
      SameLease i s (s.delayedAckEnqueue i) := by
  obtain ⟨hok, hk⟩ := Filed.writeLease h
  have hrec : OnRecord (s.db.writeLease i).2 i := by
    rw [Db.writeLease, Db.askAnd_plain h.plain]
    exact fun ha => ⟨_, lastRecord_wrote_self .., ha, rfl⟩
  have hlease : (s.db.writeLease i).2.lease = s.db.lease ∧
      (s.db.writeLease i).2.curTime = s.db.curTime := by
    rw [Db.writeLease, Db.askAnd_plain h.plain]
    exact ⟨rfl, rfl⟩
  unfold Server.delayedAckEnqueue
  generalize s.db.writeLease i = r at hok hk hrec hlease
  rcases r with ⟨ok, db⟩
  obtain rfl : ok = true := hok
  have hp : Recorded ((s.setDb db).pushAck i) := hk
  have hs : Stays ((s.setDb db).pushAck i) ((s.setDb db).pushAck i).flushAcks := by
    unfold Server.flushAcks
    split_ifs
    exacts [stays_delayedAcksTimer hk.plain, .refl _]
  have hl : SameLease i s ((s.setDb db).pushAck i) :=
    ⟨congrArg (fun f => (f i).bindingState) hlease.1, congrArg (fun f => (f i).ends) hlease.1,
      hlease.2⟩
  exact ⟨hs.recorded hp, hs.still.onRecord hrec, hl.trans (hs.sameLease i)⟩

lemma sameLease_modify (s : Server ι) (i : ι) {f : Lease → Lease}
    (hb : ∀ l, (f l).bindingState = l.bindingState) (he : ∀ l, (f l).ends = l.ends) :
    SameLease i s (s.modify i f) := by
  refine ⟨?_, ?_, rfl⟩
  · exact (congrArg Lease.bindingState (Db.modify_lease_self ..)).trans (hb _)
  · exact (congrArg Lease.ends (Db.modify_lease_self ..)).trans (he _)

lemma sameLease_hold (s : Server ι) (i : ι) (st : LeaseState) (bound : Bool) :
    SameLease i s (s.hold i st bound) := by
  have h := sameLease_modify s i (f := fun l => { l with cltt := s.db.curTime }) (fun _ => rfl)
    fun _ => rfl
  exact { h with }

lemma recorded_answer {st : LeaseState} {cltt : Time} {bound enqueue : Bool}
    (h : RecordedBut i s) (hne : enqueue = false → Recorded s)
    (hoff : enqueue = true → st.offer ≠ .dhcpoffer)
    (ht : s.answer i cfg st cltt bound enqueue = some t) :
    Recorded t ∧ SameLease i s t ∧ (enqueue = true ∨ OnRecord s.db i → OnRecord t.db i) := by
  have hm {E : ι → Prop} (hk : Filed E s.db) : Filed E (s.hold i st bound).db :=
    hk.modify (f := fun l => { l with cltt := s.db.curTime }) rfl id rfl rfl
  have hl := sameLease_hold s i st bound
  unfold Server.answer at ht
  split_ifs at ht with hping henq
  · -- the offer waits for the ping
    cases ht
    have hf : enqueue = false := by
      cases enqueue
      · rfl
      · exact absurd hping (by simp [Server.pings, hoff rfl])
    exact ⟨hne hf, ⟨rfl, rfl, rfl⟩, fun ho => ho.elim (fun he => absurd (hf ▸ he) nofun) id⟩
  · cases ht
    obtain ⟨h1, h2, h3⟩ := recorded_delayedAckEnqueue (hm h)
    exact ⟨h1, hl.trans h3, fun _ => h2⟩
  · have hs := stays_dhcpReply ht
    refine ⟨hs.recorded (hm (hne (by simpa using henq))), hl.trans (hs.sameLease i), fun ho => ?_⟩
    have ho' : OnRecord s.db i := ho.resolve_left henq
    exact hs.still.onRecord (ho'.congr hl.bindingState hl.ends rfl)

section

variable (curTime : Time)

lemma makeState_offer (offer : Offer) (cfg : Settings) (expiry : Time) :
    (makeState curTime offer cfg expiry).offer = offer := by
  unfold makeState
  split_ifs <;> rfl

/-- The lease is active until `expiry`, and is on record. -/
structure Acked (i : ι) (expiry : Time) (s : Server ι) : Prop where
  bindingState : (s.db.lease i).bindingState = .active
  ends : (s.db.lease i).ends = expiry
  onRecord : OnRecord s.db i

lemma Acked.of_same (h : Acked i expiry s) (hl : SameLease i s u) (ho : OnRecord u.db i) :
    Acked i expiry u :=
  ⟨hl.bindingState.trans h.bindingState, hl.ends.trans h.ends, ho⟩

lemma recorded_finish {cltt : Time} {bound : Bool} (h : RecordedBut i s)
    (hne : s.delayedAck = false ∨ bound = false → Recorded s)
    (hsite : cfg.siteOptionSpaceKnown = true ∨ s.delayedAck = false)
    (hoff : bound = true → offer ≠ .dhcpoffer)
    (ht : s.finish i offer cfg cltt expiry bound = some (o, t)) :
    Recorded t ∧ ∀ st, o = some st → st = makeState t.db.curTime offer cfg expiry ∧
      SameLease i s t ∧ ((s.delayedAck = false ∨ bound = false → OnRecord s.db i) →
        OnRecord t.db i) := by
  unfold Server.finish at ht
  split_ifs at ht with hk
  · obtain ⟨u, hu, hut⟩ := map_eq_some_iff.mp ht
    cases hut
    have hand : (s.delayedAck && bound) = false → s.delayedAck = false ∨ bound = false :=
      Bool.and_eq_false_iff.mp
    obtain ⟨h1, h2, h3⟩ := recorded_answer h (fun he => hne (hand he))
      (fun he => by
        rw [makeState_offer]
        exact hoff (Bool.and_eq_true_iff.mp he).2) hu
    refine ⟨h1, fun st hst => ?_⟩
    cases hst
    refine ⟨by rw [h2.curTime], h2, fun ho => h3 ?_⟩
    cases he : s.delayedAck && bound
    · exact .inr (ho (hand he))
    · exact .inl rfl
  · cases ht
    exact ⟨hne (.inl (hsite.resolve_left hk)), by simp⟩

lemma recorded_concludeDynamic (h : Recorded s) {lt : Lease} (hd : lt.flags.staticLease = false)
    (hb : offer ≠ .bootp) (hsite : cfg.siteOptionSpaceKnown = true ∨ s.delayedAck = false)
    {cltt : Time} (ht : s.concludeDynamic i offer cfg cltt lt expiry = some (o, t)) :
    Recorded t ∧ ∀ st, o = some st → offer = .dhcpack → lt.nextBindingState = .active →
      lt.ends = expiry → ∃ e, st = makeState t.db.curTime offer cfg e ∧
        t.db.curTime = s.db.curTime ∧ (t.db.curTime ≤ e → Acked i e t) ∧
        e = if reusable (s.cannotReuse i) cfg (s.db.lease i) lt then (s.db.lease i).ends
          else expiry := by
  obtain ⟨⟨ok, bound, u⟩, hu, ht⟩ := bind_eq_some_iff.mp ht
  rcases install_cases hu with ⟨hr, rfl, rfl, rfl⟩ | ⟨hr, db, hdb, rfl, rfl⟩
  · -- the lease is reused
    obtain ⟨h1, h2, h3⟩ := recorded_reuse h hr
    have hl := sameLease_modify s i (f := restore lt) (fun _ => rfl) fun _ => rfl
    obtain ⟨h4, h5⟩ := recorded_finish (Filed.mono h1 fun _ => .inl) (fun _ => h1)
      hsite (by simp) ht
    refine ⟨h4, fun st hst _ _ _ => ?_⟩
    obtain ⟨hmk, hs, ho⟩ := h5 st hst
    refine ⟨_, hmk, hs.curTime, fun _ => ?_, (if_pos hr).symm⟩
    have ha : Acked i (s.db.lease i).ends ((s.modify i (restore lt)).setCannotReuse i false) :=
      ⟨hl.bindingState.trans h2, hl.ends, h3.congr hl.bindingState hl.ends rfl⟩
    exact ha.of_same hs (ho fun _ => ha.onRecord)
  · obtain ⟨h1, h2, h3⟩ := recorded_update h hd hb hdb
    cases ok with
    | false =>
      cases ht
      exact ⟨h2 (.inr (.inr rfl)), by simp⟩
    | true =>
      have hne : s.delayedAck = false ∨ (true && offer != .dhcpoffer) = false →
          Recorded ((s.setCannotReuse i (offer = .dhcpoffer)).setDb db) := fun hor =>
        h2 (hor.imp id fun hf => .inl (by simpa using hf))
      obtain ⟨h4, h5⟩ := recorded_finish h1 hne hsite (by simp) ht
      refine ⟨h4, fun st hst hof hact he => ?_⟩
      obtain ⟨hmk, hs, ho⟩ := h5 st hst
      obtain ⟨hcur, h3⟩ := h3 rfl
      have hcur : t.db.curTime = s.db.curTime := hs.curTime.trans hcur
      refine ⟨_, hmk, hcur, fun hle => ?_, (if_neg (Bool.eq_false_iff.mp hr)).symm⟩
      obtain ⟨h6, h7⟩ := h3 (by rw [he, ← hcur]; exact hle)
      refine ⟨hs.bindingState.trans (h6.trans hact), hs.ends.trans (h7.trans he), ho fun hor => ?_⟩
      refine Filed.onRecord (hne hor) i ?_
      simp [Server.setDb, Server.setCannotReuse, hof]

lemma sampleTimes_plain {db : Db ι} (hp : Db.Plain db) (hb : offer ≠ .bootp) {lt lt' : Lease}
    {when : Time} (h : sampleTimes db i offer when cfg packet lt = some (lt', expiry)) :
    lt'.flags = lt.flags ∧ (offer = .dhcpack → lt'.nextBindingState = .active) ∧
      (when = 0 → lt'.ends = expiry) ∧ ∃ leaseTime,
        desiredTime db (db.lease i) cfg packet = some leaseTime ∧
          expiry = offeredExpiry db.curTime leaseTime := by
  cases offer with
  | bootp => exact absurd rfl hb
  | dhcpoffer | dhcpack =>
    obtain ⟨leaseTime, hl, h⟩ := map_eq_some_iff.mp h
    simp only [hp.peered] at h
    obtain ⟨rfl, rfl⟩ := h
    refine ⟨rfl, fun ho => ?_, fun hw => by rw [if_neg (not_not.mpr hw)], leaseTime, hl, rfl⟩
    first | rfl | cases ho

/-- The end of the lease that is offered to a client that was admitted. -/
def Offers (u : Server ι) (packet : Packet) (i : ι) (offer : Offer) (when : Time) (cfg : Settings)
    (host : Option ℕ) (e : Time) : Prop :=
  if u.reuses packet i offer when cfg host then e = (u.db.lease i).ends
  else ∃ leaseTime, desiredTime u.db (u.db.lease i) cfg packet = some leaseTime ∧
    e = offeredExpiry u.db.curTime leaseTime

lemma recorded_ackLease (h : Recorded s) {when : Time} {hp : Option ℕ} (hb : offer ≠ .bootp)
    (hsite : cfg.siteOptionSpaceKnown = true ∨ s.delayedAck = false)
    (ht : s.ackLease packet i offer when cfg hp = some (o, t)) :
    Recorded t ∧ ∀ st, o = some st → offer = .dhcpack → when = 0 → ∃ u e,
      s.admitClient packet i offer cfg (hp.or (s.db.lease i).host) = some (true, u) ∧
        t.db.curTime = u.db.curTime ∧
        Offers u packet i offer when cfg (hp.or (s.db.lease i).host) e ∧
        st = makeState t.db.curTime offer cfg e ∧ (t.db.curTime ≤ e → Acked i e t) := by
  unfold Server.ackLease at ht
  split_ifs at ht
  · cases ht
    exact ⟨h, by simp⟩
  obtain ⟨⟨ok, u⟩, hu, ht⟩ := bind_eq_some_iff.mp ht
  have hru : Recorded u := (recorded_admitInvariant i).admitClient h hu
  have hdu : u.delayedAck = s.delayedAck := (delayedAck_admitInvariant i _).admitClient rfl hu
  dsimp only at ht
  cases ok with
  | false =>
    cases ht
    exact ⟨hru, by simp⟩
  | true =>
    rw [if_pos rfl] at ht
    split at ht
    · cases ht
      exact ⟨hru, by simp⟩
    · next lt expiry htimes =>
      obtain ⟨hfl, hact, hends, hleft⟩ := sampleTimes_plain hru.plain hb htimes
      have hrp := recorded_prepare hru i offer cfg packet
      unfold Server.conclude at ht
      rw [if_neg (by rw [Filed.dynamic hrp i]; exact Bool.false_ne_true)] at ht
      have hd : lt.flags.staticLease = false := by
        rw [hfl]
        exact Filed.dynamic hru i
      obtain ⟨h1, h2⟩ := recorded_concludeDynamic hrp hd hb
        (hsite.imp id fun hs => (prepare_kept ..).1.trans (hdu.trans hs)) ht
      refine ⟨h1, fun st hst ho hw => ?_⟩
      obtain ⟨e, hmk, hcur, hacked, he⟩ := h2 st hst ho (hact ho) (hends hw)
      refine ⟨u, e, hu, hcur.trans (prepare_kept ..).2, ?_, hmk, hacked⟩
      unfold Offers Server.reuses
      simp only [htimes, Option.any_some, Filed.dynamic hrp i, Bool.not_false, Bool.true_and]
      split_ifs at he ⊢
      · exact he.trans (ends_prepare ..)
      · exact he ▸ hleft

/-! ### The times in the answer -/

/-- The four bytes of the lease time can say when the lease ends: a lease that is reused ends
within this time, and a new one is given before `MAX_TIME`, or for a limited time. -/
def InTime (u : Server ι) (packet : Packet) (i : ι) (cfg : Settings) (host : Option ℕ) : Prop :=
  if u.reuses packet i .dhcpack 0 cfg host then
    u.db.curTime ≤ (u.db.lease i).ends ∧ (u.db.lease i).ends < u.db.curTime + bit32
  else u.db.curTime < maxTime ∨
    u.db.curTime + max (maxLeaseTime cfg) (minLeaseTime cfg) < infiniteTime

instance (u : Server ι) (packet : Packet) (i : ι) (cfg : Settings) (host : Option ℕ) :
    Decidable (InTime u packet i cfg host) :=
  inferInstanceAs (Decidable (ite _ _ _))

lemma ulong_lt {o : Option Bytes} {d : ℕ} (hd : d < bit32) : (ulong o).getD d < bit32 := by
  cases ho : ulong o with
  | none => exact hd
  | some n =>
    obtain ⟨b, -, hn⟩ := bind_eq_some_iff.mp ho
    split_ifs at hn with hl
    cases hn
    exact (BigEndian.ofBytes_lt b).trans_eq (by rw [hl]; rfl)

lemma maxLeaseTime_lt (cfg : Settings) : max (maxLeaseTime cfg) (minLeaseTime cfg) < bit32 := by
  have hmax : maxLeaseTime cfg < bit32 := ulong_lt (by decide)
  exact max_lt hmax (ulong_lt ((min_le_right _ _).trans_lt hmax))

lemma desiredTime_le {db : Db ι} {l : Lease} {leaseTime : Time}
    (h : desiredTime db l cfg packet = some leaseTime) :
    leaseTime ≤ max (maxLeaseTime cfg) (minLeaseTime cfg) := by
  obtain ⟨limited, hl, rfl⟩ := map_eq_some_iff.mp h
  have hadaptive : adaptiveTime db l cfg (min (requestedTime cfg packet) (maxLeaseTime cfg)) ≤
      maxLeaseTime cfg := by
    refine le_trans ?_ (min_le_right (requestedTime cfg packet) _)
    have hif (p : Prop) [Decidable p] (a b : ℕ) : (if p ∧ b > a then a else b) ≤ b := by
      split_ifs with h
      exacts [h.2.le, le_rfl]
    unfold adaptiveTime
    split
    · split
      exacts [hif .., le_rfl]
    · exact le_rfl
  have hlimited : limited ≤ maxLeaseTime cfg := by
    refine le_trans ?_ hadaptive
    unfold poolLimit at hl
    split at hl
    · exact (some.inj hl).ge
    · split_ifs at hl <;> obtain rfl := some.inj hl
      exacts [le_rfl, min_le_left _ _]
  split_ifs with hmin h0
  · exact le_max_right _ _
  · exact absurd hmin (by simp [not_not.mp h0])
  · exact hlimited.trans (le_max_left _ _)

lemma offeredExpiry_fits {curTime leaseTime most : ℕ} (hle : leaseTime ≤ most) (hlt : most < bit32)
    (h : curTime < maxTime ∨ curTime + most < infiniteTime) :
    curTime ≤ offeredExpiry curTime leaseTime ∧
      offeredExpiry curTime leaseTime < curTime + bit32 := by
  unfold maxTime infiniteTime bit32 at *
  unfold offeredExpiry expiryTime leaseTimeCheck maxTime infiniteTime Time
  split_ifs <;> omega

lemma InTime.fits {u : Server ι} {host : Option ℕ} {e : ℕ} (h : InTime u packet i cfg host)
    (he : Offers u packet i .dhcpack 0 cfg host e) :
    u.db.curTime ≤ e ∧ e < u.db.curTime + bit32 := by
  unfold InTime at h
  unfold Offers at he
  split_ifs at h he
  · exact he ▸ h
  · obtain ⟨leaseTime, hl, rfl⟩ := he
    exact offeredExpiry_fits (desiredTime_le hl) (maxLeaseTime_lt cfg) h

/-- The four bytes of a renewal or rebinding time. -/
def duration (d : Bytes) : ℕ := BigEndian.ofBytes d

/-- The renewal time is before the rebinding time, and that is before the end of the lease. -/
structure InOrder (st : LeaseState) (leaseTime : ℕ) : Prop where
  renewal : ∀ d₁ ∈ st.renewalTime, duration d₁ < leaseTime
  rebinding : ∀ d₂ ∈ st.rebindingTime, duration d₂ < leaseTime
  both : ∀ d₁ ∈ st.renewalTime, ∀ d₂ ∈ st.rebindingTime, duration d₁ < duration d₂

lemma timeLeft_of_fits {curTime expiry : ℕ} (h : curTime ≤ expiry)
    (h' : expiry < curTime + bit32) : timeLeft expiry curTime = expiry - curTime := by
  have hmod : ((expiry : ℤ) - curTime) % bit32 = (expiry : ℤ) - curTime :=
    Int.emod_eq_of_lt (by omega) (by omega)
  rw [timeLeft, hmod]
  omega

lemma makeState_eq {curTime : Time} (hb : offer ≠ .bootp) : makeState curTime offer cfg expiry =
      answerTimes curTime cfg { offer := offer, offeredExpiry := expiry } := if_neg hb

lemma duration_lt_of_mem {o : Option Bytes} (h : ∀ d ∈ o, d.length = 4) {limit : ℤ} {d : Bytes}
    (hd : d ∈ o.filter fun d => (BigEndian.ofBytes (d.take 4) : ℤ) < limit) :
    d.take 4 = d ∧ (duration d : ℤ) < limit := by
  obtain ⟨hd, hlt⟩ := filter_eq_some_iff.mp hd
  have htake : d.take 4 = d := List.take_of_length_le (h d hd).le
  rw [htake, decide_eq_true_iff] at hlt
  exact ⟨htake, hlt⟩

lemma makeState_inOrder {curTime expiry : ℕ} (hb : offer ≠ .bootp) (hf : curTime ≤ expiry)
    (h₁ : ∀ d ∈ cfg.renewalTime, d.length = 4) (h₂ : ∀ d ∈ cfg.rebindingTime, d.length = 4) :
    InOrder (makeState curTime offer cfg expiry) (expiry - curTime) := by
  rw [makeState_eq hb]
  unfold answerTimes
  dsimp only
  cases hr : cfg.rebindingTime.filter fun d =>
      (BigEndian.ofBytes (d.take 4) : ℤ) < (expiry : ℤ) - curTime with
  | none =>
    refine ⟨fun d1 hd1 => ?_, by simp, by simp⟩
    have := (duration_lt_of_mem h₁ hd1).2
    dsimp only [Option.elim] at this
    omega
  | some d2 =>
    obtain ⟨htake, hlt⟩ := duration_lt_of_mem h₂ hr
    have hd1 (d1) (hd : d1 ∈ cfg.renewalTime.filter fun d =>
        (BigEndian.ofBytes (d.take 4) : ℤ) < BigEndian.ofBytes (d2.take 4)) :
        duration d1 < duration d2 := by
      have := (duration_lt_of_mem h₁ hd).2
      rw [htake] at this
      exact_mod_cast this
    refine ⟨fun d1 hd => (hd1 d1 hd).trans (by omega), fun d hd => ?_, fun d1 hd d hd2 => ?_⟩
    · cases hd
      omega
    · cases hd2
      exact hd1 d1 hd

/-! ### Runs -/

/-- The steps of a server without a failover peer. The time may be set to any value. -/
inductive Exchange : Server ι → Server ι → Prop
  | discover {s t : Server ι} {packet : Packet} {i : ι} {when : Time} {cfg : Settings}
      {hp : Option ℕ} {o : Option LeaseState}
      (hsite : cfg.siteOptionSpaceKnown = true ∨ s.delayedAck = false)
      (h : s.ackLease packet i .dhcpoffer when cfg hp = some (o, t)) : Exchange s t
  | request {s t : Server ι} {packet : Packet} {i : ι} {cfg : Settings} {hp : Option ℕ}
      {o : Option LeaseState} (hsite : cfg.siteOptionSpaceKnown = true ∨ s.delayedAck = false)
      (h : s.ackLease packet i .dhcpack 0 cfg hp = some (o, t)) : Exchange s t
  | releaseLease {s : Server ι} {i : ι} {db : Db ι} (h : s.db.releaseLease i = some db) :
      Exchange s (s.setDb db)
  | abandonLease {s : Server ι} {i : ι} {db : Db ι} (h : s.db.abandonLease i = some db) :
      Exchange s (s.setDb db)
  | poolTimer {s : Server ι} {p : ℕ} {db : Db ι} (h : s.db.poolTimer p = some db) :
      Exchange s (s.setDb db)
  | setTime (s : Server ι) (c : Time) : Exchange s (s.setDb { s.db with curTime := c })
  | delayedAcksTimer (s : Server ι) : Exchange s s.delayedAcksTimer
  | leasePingTimeout {s t : Server ι} {i : ι} (h : s.leasePingTimeout i = some t) : Exchange s t
  | leasePinged {s t : Server ι} {i : ι} (h : s.leasePinged i = some t) : Exchange s t

/-- The server has read its lease file: every active lease is on record. -/
structure Loaded (s : Server ι) : Prop where
  plain : Db.Plain s.db
  pool : ∀ i, (s.db.lease i).pool ≠ none
  dynamic : ∀ i, (s.db.lease i).flags.staticLease = false
  onRecord : ∀ i, OnRecord s.db i

lemma Loaded.recorded (h : Loaded s) : Recorded s :=
  ⟨h.plain, h.pool, h.dynamic, fun i _ => h.onRecord i⟩

lemma Recorded.leasePinged (h : Recorded s) (ht : s.leasePinged i = some t) : Recorded t := by
  unfold Server.leasePinged at ht
  split_ifs at ht
  · exact some.inj ht ▸ h
  · obtain ⟨db, hdb, rfl⟩ := map_eq_some_iff.mp ht
    exact Filed.abandonLease h hdb

lemma Recorded.exchange (h : Recorded s) (hst : Exchange s t) : Recorded t := by
  cases hst with
  | discover hsite ht => exact (recorded_ackLease h (by decide) hsite ht).1
  | request hsite ht => exact (recorded_ackLease h (by decide) hsite ht).1
  | releaseLease ht => exact Filed.releaseLease h ht
  | abandonLease ht => exact Filed.abandonLease h ht
  | poolTimer ht => exact Filed.poolTimer h ht
  | setTime c => exact ⟨⟨h.plain.io, h.plain.unpeered⟩, h.pool, h.dynamic, h.onRecord⟩
  | delayedAcksTimer => exact (stays_delayedAcksTimer h.plain).recorded h
  | leasePingTimeout ht => exact (stays_dhcpReply ht).recorded h
  | leasePinged ht => exact h.leasePinged ht

lemma Recorded.run {s₀ : Server ι} (h : Recorded s₀) (hrun : Relation.ReflTransGen Exchange s₀ s) :
    Recorded s := by
  induction hrun with
  | refl => exact h
  | tail _ hst ih => exact ih.exchange hst

/-- What a client that is given a lease for `leaseTime` may rely on. -/
structure Promised (t : Server ι) (i : ι) (leaseTime : ℕ) : Prop where
  active : (t.db.lease i).bindingState = .active
  ends : (t.db.lease i).ends = t.db.curTime + leaseTime
  record : ∃ r, lastRecord t.db.log i = some r ∧ r.bindingState = .active ∧
    t.db.curTime + leaseTime ≤ r.ends

/-- **Every lease time that is acknowledged is on record**: in every run of a server without a
failover peer, an acknowledgement in time is for a lease that is active until the lease time it
carries has passed, in the database as in the lease file, and the renewal and rebinding times that
are left in it come before the end of the lease, in this order. -/
theorem acknowledged_time_on_record {s₀ : Server ι} (h₀ : Loaded s₀)
    (hrun : Relation.ReflTransGen Exchange s₀ s) {hp : Option ℕ} {st : LeaseState}
    (hsite : cfg.siteOptionSpaceKnown = true ∨ s.delayedAck = false)
    (ht : s.ackLease packet i .dhcpack 0 cfg hp = some (some st, t))
    (hin : ∀ u, s.admitClient packet i .dhcpack cfg (hp.or (s.db.lease i).host) = some (true, u) →
      InTime u packet i cfg (hp.or (s.db.lease i).host)) :
    ∃ leaseTime, st.expiry = some leaseTime ∧ Promised t i leaseTime ∧
      ((∀ d ∈ cfg.renewalTime, d.length = 4) → (∀ d ∈ cfg.rebindingTime, d.length = 4) →
        InOrder st leaseTime) := by
  obtain ⟨-, h⟩ := recorded_ackLease (h₀.recorded.run hrun) (by decide) hsite ht
  obtain ⟨u, e, hu, hcur, ho, rfl, ha⟩ := h st rfl rfl rfl
  obtain ⟨hle, hlt⟩ : t.db.curTime ≤ e ∧ e < t.db.curTime + bit32 := hcur ▸ (hin u hu).fits ho
  have hk := ha hle
  obtain ⟨r, hr, hra, hre⟩ := hk.onRecord hk.bindingState
  have hsum : t.db.curTime + (e - t.db.curTime) = e := Nat.add_sub_cancel' hle
  refine ⟨e - t.db.curTime, ?_, ⟨hk.bindingState, hk.ends.trans hsum.symm, r, hr, hra, ?_⟩,
    makeState_inOrder (by decide) hle⟩
  · rw [makeState_eq (by decide)]
    exact congrArg some (timeLeft_of_fits hle hlt)
  · rw [hsum, hre, hk.ends]

def freeServer : Server Unit where
  db :=
    { lease := fun _ => { pool := some 0 }
      pool := fun _ => { queue := fun q => if q = .free then [()] else [], freeLeases := 1 }
      curTime := curTime }

lemma loaded_freeServer : Loaded (freeServer curTime) :=
  ⟨⟨rfl, fun _ => rfl⟩, fun _ => by simp [freeServer], fun _ => rfl, fun _ h => by cases h⟩

def infinitePacket : Packet :=
  { request := true, hardwareAddr := [1, 2, 3], leaseTime := some [255, 255, 255, 255] }

/-- Renewal after an hour, rebinding after two, and no limit. -/
def infiniteSettings : Settings where
  maxLeaseTime := some [255, 255, 255, 255]
  renewalTime := some [0, 0, 14, 16]
  rebindingTime := some [0, 0, 28, 32]

def infiniteAcked : Option (Option LeaseState × Server Unit) :=
  (freeServer curTime).ackLease infinitePacket () .dhcpack 0 infiniteSettings none

end

theorem acknowledged_time_on_record_sample : ∃ (st : LeaseState) (t : Server Unit) (n : ℕ),
    infiniteAcked 1000 = some (some st, t) ∧ st.expiry = some n ∧ Promised t () n ∧
      InOrder st n := by
  have h : (infiniteAcked 1000).any fun r => r.1.isSome := by decide +kernel
  simp only [any_eq_true, Prod.exists, isSome_iff_exists] at h
  obtain ⟨_, t, ht, st, rfl⟩ := h
  have hin : ∀ u, (freeServer 1000).admitClient infinitePacket () .dhcpack infiniteSettings none =
      some (true, u) → InTime u infinitePacket () infiniteSettings none := by
    intro u hu
    have hadm : ((freeServer 1000).admitClient infinitePacket () .dhcpack infiniteSettings
        none).all fun r => InTime r.2 infinitePacket () infiniteSettings none := by decide +kernel
    rw [hu] at hadm
    exact of_decide_eq_true hadm
  obtain ⟨n, hn, hp, hi⟩ := acknowledged_time_on_record (loaded_freeServer 1000) .refl (.inl rfl)
    ht hin
  exact ⟨st, t, n, ht, hn, hp, hi (by simp [infiniteSettings]) (by simp [infiniteSettings])⟩

/-- Past `MAX_TIME` an infinite lease has ended when it is given: the client is told that it has
one, and the lease is free. -/
theorem acknowledged_time_past : ∃ (st : LeaseState) (t : Server Unit),
    infiniteAcked (maxTime + 1000) = some (some st, t) ∧ st.offer = .dhcpack ∧
      st.expiry = some (bit32 - 1000) ∧ (t.db.lease ()).bindingState = .free := by
  have h : (infiniteAcked (maxTime + 1000)).any fun r => r.1.any fun st =>
      st.offer = .dhcpack ∧ st.expiry = some (bit32 - 1000) ∧
        (r.2.db.lease ()).bindingState = .free := by
    decide +kernel
  simp only [any_eq_true, Prod.exists, decide_eq_true_iff] at h
  obtain ⟨o, t, hr, st, rfl, h⟩ := h
  exact ⟨st, t, hr, h⟩

end IscDhcp.Dhcp
