import IscDhcp.Ddns.Server

/-!
With conflict detection the names of other clients are left alone.

Whatever happens in between, every message that is sent was made for a control block that does
not override, and for the identity of the client of that address. What such a message can do to a
zone does not depend on when it gets there.
-/

namespace IscDhcp.Ddns

open IscDhcp.Lib.Dns List Function

/-- The client of a request: its address, its name, and its identity as it is in the DNS. -/
structure Owner where
  address : Bytes
  name : Bytes
  dhcid : Bytes
  cls : RRType

def Cb.owner (c : Cb) : Owner := ⟨c.address, c.fwdName, c.dhcid, c.dhcidClass⟩

def DdnsState.forward : DdnsState → Bool
  | .addFwNxdomain | .addFwYxdhcid | .remFwYxdhcid | .remFwNxrr => true
  | .cleanup | .addPtr | .remPtr => false

def DdnsState.adds : DdnsState → Bool
  | .addFwNxdomain | .addFwYxdhcid => true
  | _ => false

section

variable (I : Bool → Owner → Prop)

/-- The control block does not override. -/
structure DdnsFlags.Plain (f : DdnsFlags) : Prop where
  conflictOverride : f.conflictOverride = false
  includeRrset : f.includeRrset = false

/-- The control block of an addition that is to follow. -/
structure Cb.Waits (c : Cb) : Prop where
  plain : c.flags.Plain
  state : c.state = .cleanup
  owner : c.flags.updateAddr = true → I true c.owner

/-- The request is for the client that `I` says. -/
structure Request.Proper (r : Request) : Prop where
  plain : r.flags.Plain
  owner : r.state.forward = true → I r.state.adds r.owner
  nextOp : ∀ c ∈ r.nextOp, c.Waits I

def Proper (u : Update Bytes) : Prop :=
  ∃ c : Cb, c.flags.Plain ∧ I c.state.adds c.owner ∧ c.fwdMessage = some u

/-- The identities in the lease are those that `T` says. -/
structure LeaseText.Proper (T : Bytes → Prop) (l : LeaseText) : Prop where
  standardTag : ∀ d ∈ l.standardTag, T d
  interimTag : ∀ d ∈ l.interimTag, T d

end

/-- The server has done nothing improper so far, the zone is `z`, and the requests from `N` on have
been started since. -/
structure World.Proper (I : ℕ → Bool → Owner → Prop) (T : Bytes → Bytes → Prop) (N : ℕ)
    (z : Zone Bytes) (w : World) : Prop where
  zone : w.zone = z
  fresh : N ≤ w.fresh
  lease : ∀ a, (w.lease a).Proper (T a)
  request : ∀ k, ∀ r ∈ w.request k, k < w.fresh ∧ r.Proper (I k)
  flight : ∀ k, ∀ x ∈ w.flight k, (k, x.1) ∈ w.sent
  sent : ∀ x ∈ w.sent, x.1 < w.fresh ∧ Ddns.Proper (I x.1) x.2

variable {c : Cb} {t : RRType} {u : Update Bytes} {z : Zone Bytes}

/-! ### Messages -/

lemma Cb.addressType_eq (h : c.addressType = some t) : t = .a ∨ t = .aaaa := by
  unfold Cb.addressType Ddns.addressType at h
  split_ifs at h <;> simp_all

lemma Cb.dhcidClass_eq (c : Cb) : c.dhcidClass = .dhcid ∨ c.dhcidClass = .txt := by
  unfold Cb.dhcidClass Ddns.dhcidClass
  split <;> simp

lemma Cb.addressType_ne (h : c.addressType = some t) : c.dhcidClass ≠ t := by
  rcases Cb.addressType_eq h with rfl | rfl <;> rcases c.dhcidClass_eq with h' | h' <;>
    rw [h'] <;> decide

inductive MessageOf (c : Cb) (t : RRType) : Update Bytes → Prop
  | add1 (h : c.state = .addFwNxdomain) : MessageOf c t (ddnsModifyFwdAdd1 c t)
  | add2 (h : c.state = .addFwYxdhcid) : MessageOf c t (ddnsModifyFwdAdd2 c t)
  | rem1 (h : c.state = .remFwYxdhcid) : MessageOf c t (ddnsModifyFwdRem1 c t)
  | rem2 (h : c.state = .remFwNxrr) : MessageOf c t (ddnsModifyFwdRem2 c)

lemma Cb.messageOf (h : c.fwdMessage = some u) : ∃ t, c.addressType = some t ∧ MessageOf c t u := by
  unfold Cb.fwdMessage at h
  split at h <;> cases h
  case h_1 t ht hs => exact ⟨t, ht, .add1 hs⟩
  case h_2 t ht hs => exact ⟨t, ht, .add2 hs⟩
  case h_3 t ht hs => exact ⟨t, ht, .rem1 hs⟩
  case h_4 t ht hs => exact ⟨t, ht, .rem2 hs⟩

lemma MessageOf.name (h : MessageOf c t u) : u.name = c.fwdName := by
  cases h with
  | add2 => unfold ddnsModifyFwdAdd2; split <;> rfl
  | _ => rfl

lemma MessageOf.forward (h : MessageOf c t u) : c.state.forward = true := by
  cases h <;> simp only [DdnsState.forward, *]

lemma name_of_add1 (hc : c.flags.includeRrset = false) (h : (ddnsModifyFwdAdd1 c t).Applies z) :
    z c.fwdName = ∅ := by
  have := h (if c.flags.includeRrset then .rrsetAbsent t else .nameNotInUse)
    (mem_singleton_self _)
  rwa [hc, if_neg Bool.false_ne_true] at this

lemma add2_eq (hc : c.flags.conflictOverride = false) : ddnsModifyFwdAdd2 c t =
      { name := c.fwdName
        prereqs := [.rrsetIs c.dhcidClass c.dhcid]
        changes := [.deleteRRset t, .add t c.address] } := by
  unfold ddnsModifyFwdAdd2
  rw [hc, if_neg Bool.false_ne_true]

variable {J : Bool → Owner → Prop} {T' : Bytes → Prop}

/-- The request goes on: to a message for the forward zone only if it had one, and of one kind. -/
lemma Request.Proper.setState {r : Request} (hr : r.Proper J) {s : DdnsState} (next : Bool)
    (hs : s.forward = true → r.state.forward = true ∧ s.adds = r.state.adds) :
    Request.Proper J { r with state := s, flags := { r.flags with executeNext := next } } where
  plain := ⟨hr.plain.conflictOverride, hr.plain.includeRrset⟩
  owner h := (hs h).2 ▸ hr.owner (hs h).1
  nextOp := hr.nextOp

lemma textOf_proper (hc : c.state.adds = true → T' c.dhcid) {l : LeaseText} (hl : l.Proper T') :
    (World.textOf c l).Proper T' := by
  unfold World.textOf
  split
  all_goals first | exact ⟨hl.standardTag, hl.interimTag⟩ | skip
  all_goals
    constructor <;> intro d hd <;> split_ifs at hd
    all_goals first | exact hl.standardTag d hd | exact hl.interimTag d hd | cases hd
  all_goals exact hc (by simp [DdnsState.adds, *])

namespace World

lemma forall_mem_update {α : Type*} {P : ℕ → α → Prop} {f : ℕ → Option α}
    (h : ∀ j, ∀ x ∈ f j, P j x) {k : ℕ} {v : Option α} (hv : ∀ x ∈ v, P k x) (j : ℕ) :
    ∀ x ∈ Function.update f k v j, P j x := by
  by_cases hj : j = k
  · subst hj
    rwa [update_self]
  · rw [update_of_ne hj]
    exact h j

variable {I : ℕ → Bool → Owner → Prop} {T : Bytes → Bytes → Prop} {N : ℕ} {w : World} {k : ℕ}
  {r : Request} {a : Bytes}

lemma flying {sent : List (ℕ × Update Bytes)} {f : ℕ → Option (Update Bytes × Option Result)}
    (h : ∀ j, ∀ x ∈ f j, (j, x.1) ∈ sent) {v : Option (Update Bytes × Option Result)}
    (hv : ∀ x ∈ v, (k, x.1) ∈ sent) : ∀ j, ∀ x ∈ Function.update f k v j, (j, x.1) ∈ sent :=
  forall_mem_update (P := fun j x => (j, Prod.fst x) ∈ sent) h hv

/-- A message is sent, or it cannot be. -/
lemma proper_of_sent {sent : Bool × World} {f g : World → World} :
    (f sent.2).Proper I T N z → (g sent.2).Proper I T N z → World.Proper I T N z (match sent with
      | (true, w) => f w
      | (false, w) => g w) := by
  obtain ⟨_ | _, w⟩ := sent
  exacts [fun _ h => h, fun h _ => h]

/-- What follows a request is for the same client, in whatever request. -/
structure Served (I : ℕ → Bool → Owner → Prop) (T : Bytes → Bytes → Prop) (N k : ℕ) (r : Request) :
    Prop where
  lt : k < N
  proper : r.Proper (I k)
  next : ∀ j, N ≤ j → ∀ o, I k true o → I j true o
  text : ∀ o, I k true o → T o.address o.dhcid

lemma Served.added (hr : Served I T N k r) (hs : r.state.adds = true) : T r.address r.dhcid := by
  refine hr.text r.owner (hs ▸ hr.proper.owner ?_)
  revert hs
  cases r.state <;> decide

section

variable (h : w.Proper I T N z)

include h

lemma Proper.modifyLease {f : LeaseText → LeaseText}
    (hf : ∀ l, l.Proper (T a) → (f l).Proper (T a)) : (w.modifyLease a f).Proper I T N z := by
  refine { h with lease := fun b => ?_ }
  unfold World.modifyLease
  by_cases hb : b = a
  · subst hb
    simp only [update_self]
    exact hf _ (h.lease b)
  · simp only [update_of_ne hb]
    exact h.lease b

lemma Proper.setCb (a : Bytes) (new : Option ℕ) :
    (w.modifyLease a fun l => { l with ddnsCb := new }).Proper I T N z :=
  h.modifyLease fun _ hl => ⟨hl.standardTag, hl.interimTag⟩

lemma Proper.ddnsUpdateLeaseText {c : Cb} (hc : c.state.adds = true → T c.address c.dhcid)
    (given : Bool) : (w.ddnsUpdateLeaseText given c).Proper I T N z := by
  unfold World.ddnsUpdateLeaseText
  split_ifs
  · exact h
  · exact h.modifyLease fun _ hl => textOf_proper hc hl

lemma Proper.ddnsUpdateLeasePtr (given : Bool) (c : Cb) (old : ℕ)
    (new : Option ℕ) : (w.ddnsUpdateLeasePtr given c old new).Proper I T N z := by
  unfold World.ddnsUpdateLeasePtr safeLeaseUpdate
  split_ifs <;> first | exact h | exact h.setCb _ _

lemma Proper.enter {v : Option Request} (hv : ∀ r ∈ v, k < w.fresh ∧ r.Proper (I k)) :
    ∀ j, ∀ r ∈ Function.update w.request k v j, j < w.fresh ∧ r.Proper (I j) :=
  forall_mem_update (P := fun j r => j < w.fresh ∧ Request.Proper (I j) r) h.request hv

lemma Proper.ddnsModifyFwd (hk : k < w.fresh) (hr : r.Proper (I k)) :
    (w.ddnsModifyFwd k r).2.Proper I T N z := by
  unfold World.ddnsModifyFwd
  split
  · exact h
  · exact { h with }
  · next u _ hu _ =>
    refine ⟨h.zone, h.fresh, h.lease, h.enter (by simpa using ⟨hk, hr⟩), ?_, ?_⟩
    · exact flying (fun j x hx => mem_append_left _ (h.flight j x hx)) (by simp)
    · intro x hx
      rcases mem_append.mp hx with hx | hx
      · exact h.sent x hx
      · obtain ⟨_, _, hm⟩ := Cb.messageOf hu
        rw [mem_singleton.mp hx]
        exact ⟨hk, r.toCb, hr.plain, hr.owner hm.forward, hu⟩

lemma Proper.ddnsModifyPtr (hk : k < w.fresh) (hr : r.Proper (I k)) :
    (w.ddnsModifyPtr k r).2.Proper I T N z := by
  unfold World.ddnsModifyPtr
  split
  · exact { h with }
  · exact { h with
      request := h.enter (by simpa using ⟨hk, hr⟩)
      flight := flying h.flight (by simp) }

lemma Proper.ddnsCbFree : (w.ddnsCbFree k).Proper I T N z :=
  { h with
    request := h.enter (by simp)
    flight := flying h.flight (by simp) }

lemma Proper.ddnsCbAlloc : w.ddnsCbAlloc.Proper I T (w.fresh + 1) z :=
  { h with
    fresh := le_rfl
    request := fun k r hr => (h.request k r hr).imp_left Nat.lt_succ_of_lt
    sent := fun x hx => (h.sent x hx).imp_left Nat.lt_succ_of_lt }

lemma Proper.weaken {M : ℕ} (hM : M ≤ N) : w.Proper I T M z := { h with fresh := hM.trans h.fresh }

lemma Proper.mapRequest {f : Request → Request} (hf : ∀ r, r.Proper (I k) → (f r).Proper (I k)) :
    World.Proper I T N z
      { w with request := Function.update w.request k ((w.request k).map f) } := by
  refine { h with request := h.enter fun r hr => ?_ }
  obtain ⟨r', hr', rfl⟩ := Option.map_eq_some_iff.mp hr
  exact (h.request k r' hr').imp_right (hf r')

lemma Proper.ddnsCancel : (w.ddnsCancel k).Proper I T N z :=
  h.mapRequest fun _ hr => ⟨⟨hr.plain.conflictOverride, hr.plain.includeRrset⟩, hr.owner, hr.nextOp⟩

lemma Proper.ddnsFwdSrvConnector {c : Option Cb} (hc : ∀ x ∈ c, ∀ j, N ≤ j → x.Waits (I j))
    (given ok : Bool) : (w.ddnsFwdSrvConnector given c ok).Proper I T N z := by
  unfold World.ddnsFwdSrvConnector
  split
  · exact h
  · exact h
  · next c =>
    have hc : c.Waits (I w.fresh) := hc c rfl w.fresh h.fresh
    have hk : w.fresh < w.ddnsCbAlloc.fresh := Nat.lt_succ_self _
    have hN := h.fresh
    extract_lets k w
    have h : w.Proper I T N z := h.ddnsCbAlloc.weaken (Nat.le_succ_of_le hN)
    split_ifs with hf
    · have h := h.ddnsModifyFwd (r := { c with state := .addFwNxdomain }) hk
        ⟨hc.plain, fun _ => hc.owner hf, by simp⟩
      exact proper_of_sent (h.ddnsUpdateLeasePtr ..) h
    · have h := h.ddnsModifyPtr (r := { c with state := .addPtr }) hk ⟨hc.plain, nofun, by simp⟩
      exact proper_of_sent (h.ddnsUpdateLeasePtr ..) h
    · exact h.ddnsUpdateLeaseText (by simp [hc.state, DdnsState.adds]) given

/-! ### Results -/

lemma Proper.forget (r : Request) :
    ((w.ddnsUpdateLeasePtr false r.toCb k none).ddnsCbFree k).Proper I T N z :=
  (h.ddnsUpdateLeasePtr ..).ddnsCbFree

section

variable (hr : Served I T N k r)

include hr

lemma Proper.finish (ok : Bool) : (w.finish k r ok).Proper I T N z := by
  refine ((h.ddnsUpdateLeasePtr ..).ddnsFwdSrvConnector (fun c hc j hj => ?_) ..).ddnsCbFree
  have hw := hr.proper.nextOp c hc
  exact { hw with owner := fun hu => hr.next j hj _ (hw.owner hu) }

/-- The request goes on with a message for the reverse zone. -/
lemma Proper.reverse {s : DdnsState} (next : Bool) (hs : s.forward = false) :
    (w.ddnsModifyPtr k { r with
      state := s, flags := { r.flags with executeNext := next } }).2.Proper I T N z :=
  h.ddnsModifyPtr (hr.lt.trans_le h.fresh)
    (hr.proper.setState next fun hf => nomatch hs.symm.trans hf)

lemma Proper.ddnsPtrAdd (res : Result) : (w.ddnsPtrAdd k r res).Proper I T N z := by
  refine Proper.forget ?_ r
  split_ifs
  · exact h.ddnsUpdateLeaseText hr.added false
  · exact h

lemma Proper.ddnsPtrRemove (res : Result) : (w.ddnsPtrRemove k r res).Proper I T N z := by
  unfold World.ddnsPtrRemove
  extract_lets gone w'
  refine Proper.finish ?_ hr _
  unfold w'
  split_ifs
  · exact h.ddnsUpdateLeaseText hr.added false
  · exact h

lemma Proper.fwdAdded : (w.fwdAdded k r).Proper I T N z := by
  unfold World.fwdAdded
  extract_lets w'
  have h : w'.Proper I T N z := h.ddnsUpdateLeaseText hr.added false
  split_ifs
  · have h := h.reverse hr (s := .addPtr) r.flags.executeNext rfl
    exact proper_of_sent h (h.forget r)
  · exact h.forget r

lemma Proper.ddnsFwdSrvAdd2 (res : Result) : (w.ddnsFwdSrvAdd2 k r res).Proper I T N z := by
  unfold World.ddnsFwdSrvAdd2
  split_ifs
  · exact h.fwdAdded hr
  · exact h.forget r

lemma Proper.ddnsFwdSrvAdd1 (hs : r.state = .addFwNxdomain)
    (res : Result) : (w.ddnsFwdSrvAdd1 k r res).Proper I T N z := by
  unfold World.ddnsFwdSrvAdd1
  split
  · exact h.fwdAdded hr
  · have h := h.ddnsModifyFwd (hr.lt.trans_le h.fresh)
      (hr.proper.setState (s := .addFwYxdhcid) r.flags.executeNext
        fun _ => by rw [hs]; exact ⟨rfl, rfl⟩)
    exact proper_of_sent h (h.forget r)
  · exact h.forget r

lemma Proper.fwdRemoved (ok failed : Bool) : (w.fwdRemoved k r ok failed).Proper I T N z := by
  unfold World.fwdRemoved
  split_ifs
  · extract_lets flags
    have h := h.reverse hr (s := .remPtr) (r.flags.executeNext || ok) rfl
    exact proper_of_sent h (h.finish hr failed)
  · exact h.finish hr ok

lemma Proper.ddnsFwdSrvRem2 (res : Result) : (w.ddnsFwdSrvRem2 k r res).Proper I T N z := by
  unfold World.ddnsFwdSrvRem2
  extract_lets ok w'
  refine Proper.fwdRemoved ?_ hr ok false
  unfold w'
  split_ifs
  · exact h.ddnsUpdateLeaseText hr.added false
  · exact h

lemma Proper.ddnsFwdSrvRem1 (hs : r.state = .remFwYxdhcid)
    (res : Result) : (w.ddnsFwdSrvRem1 k r res).Proper I T N z := by
  unfold World.ddnsFwdSrvRem1
  split
  · have h := h.ddnsModifyFwd (hr.lt.trans_le h.fresh)
      (hr.proper.setState (s := .remFwNxrr) r.flags.executeNext
        fun _ => by rw [hs]; exact ⟨rfl, rfl⟩)
    exact proper_of_sent h (h.finish hr true)
  · exact (h.ddnsUpdateLeaseText hr.added false).fwdRemoved hr true true
  · exact (h.ddnsUpdateLeaseText hr.added false).fwdRemoved hr true true
  · exact h.fwdRemoved hr false false

lemma Proper.curFunc (res : Result) : (w.curFunc k r res).Proper I T N z := by
  unfold World.curFunc
  split
  · next hs => exact h.ddnsFwdSrvAdd1 hr hs res
  · exact h.ddnsFwdSrvAdd2 hr res
  · exact h.ddnsPtrAdd hr res
  · next hs => exact h.ddnsFwdSrvRem1 hr hs res
  · exact h.ddnsFwdSrvRem2 hr res
  · exact h.ddnsPtrRemove hr res
  · exact h

lemma Proper.resend : (w.resend k r).2.Proper I T N z := by
  have hk := hr.lt.trans_le h.fresh
  unfold World.resend
  split
  · exact h.ddnsModifyPtr hk hr.proper
  · exact h.ddnsModifyPtr hk hr.proper
  · exact h.ddnsModifyFwd hk hr.proper

end

lemma Proper.ddnsInterlude (k : ℕ) (res : Result)
    (hserved : ∀ r ∈ w.request k, Served I T N k r) : (w.ddnsInterlude k res).Proper I T N z := by
  unfold World.ddnsInterlude
  split
  · exact h
  · next r hr =>
    have hr : Served I T N k r := hserved r hr
    split_ifs
    · exact h.ddnsCbFree
    · have h := h.resend hr
      exact proper_of_sent h (h.curFunc hr .failure)
    · exact h.curFunc hr res

/-! ### Removing and adding -/

lemma Proper.supersedeRequest {active : Bool} {w' : World}
    (hw : w.supersedeRequest a active = some w') :
    w'.Proper I T N z ∧ removalCb a (w'.lease a) active = removalCb a (w.lease a) active := by
  unfold World.supersedeRequest at hw
  split at hw
  · cases hw
    exact ⟨h, rfl⟩
  · split at hw
    · cases hw
      exact ⟨h, rfl⟩
    · split_ifs at hw
      cases hw
      exact ⟨h.ddnsCancel.setCb a none, by simp [World.modifyLease, removalCb, World.ddnsCancel]⟩

lemma Proper.dropNextOp (a : Bytes) : (w.dropNextOp a).Proper I T N z := by
  unfold World.dropNextOp
  split
  · exact h
  · exact h.mapRequest fun _ hr => ⟨hr.plain, hr.owner, by simp⟩

lemma Proper.startRemoval {add : Option Cb} {active : Bool}
    (hrem : (removalCb a (w.lease a) active).flags.updateAddr = true → ∀ j, N ≤ j →
      I j false (removalCb a (w.lease a) active).owner)
    (hadd : ∀ c ∈ add, ∀ j, N ≤ j → c.Waits (I j)) :
    (w.startRemoval a add active).Proper I T N z := by
  unfold World.startRemoval
  have hN := h.fresh
  have hN' : N ≤ w.fresh + 1 := Nat.le_succ_of_le hN
  extract_lets l c executeAdd k w1 w2 next
  have h1 : w1.Proper I T (k + 1) z := h.ddnsCbAlloc
  have h2 : w2.Proper I T (k + 1) z := by
    unfold w2
    split_ifs with hf
    · exact h1.modifyLease fun _ hl => textOf_proper nofun hl
    · exact h1
  have plain : c.flags.Plain := ⟨rfl, rfl⟩
  split_ifs with hf hp
  · have h := (h1.weaken hN').ddnsModifyFwd (Nat.lt_succ_self k)
      (r := { c with state := .remFwYxdhcid, nextOp := add })
      ⟨plain, fun _ => hrem (Bool.and_eq_true_iff.mp hf).1 k hN, fun c hc => hadd c hc k hN⟩
    exact proper_of_sent (h.ddnsUpdateLeasePtr ..) (h.ddnsFwdSrvConnector hadd ..)
  · have hnext : ∀ c ∈ next, c.Waits (I k) := by
      unfold next
      split_ifs
      · exact fun c hc => hadd c hc k hN
      · simp
    have h := (h2.weaken hN').ddnsModifyPtr h2.fresh
      (r := { c with
        state := .remPtr, flags := { c.flags with executeNext := true }, nextOp := next })
      ⟨⟨plain.conflictOverride, plain.includeRrset⟩, nofun, hnext⟩
    exact proper_of_sent (h.ddnsUpdateLeasePtr ..) h
  · exact (h2.weaken hN').ddnsFwdSrvConnector hadd ..

lemma Proper.ddnsRemovals {add : Option Cb} {active : Bool}
    (hrem : (removalCb a (w.lease a) active).flags.updateAddr = true → ∀ j, N ≤ j →
      I j false (removalCb a (w.lease a) active).owner)
    (hadd : ∀ c ∈ add, ∀ j, N ≤ j → c.Waits (I j)) :
    (w.ddnsRemovals a add active).Proper I T N z := by
  unfold World.ddnsRemovals
  split
  · exact h.startRemoval hrem hadd
  · split
    · next hw =>
      obtain ⟨h, heq⟩ := h.supersedeRequest hw
      exact h.startRemoval (heq ▸ hrem) (by simp)
    · exact h.dropNextOp a

lemma Proper.cancelOutstanding (a : Bytes) :
    (w.cancelOutstanding a).Proper I T N z ∧ (w.cancelOutstanding a).standard = w.standard ∧
      ∀ active, removalCb a ((w.cancelOutstanding a).lease a) active =
        removalCb a (w.lease a) active := by
  unfold World.cancelOutstanding
  split
  · split_ifs
    · exact ⟨h.ddnsCancel.setCb a none, rfl,
        by simp [World.modifyLease, removalCb, World.ddnsCancel]⟩
    · exact ⟨h, rfl, fun _ => rfl⟩
  · exact ⟨h, rfl, fun _ => rfl⟩

omit h in
lemma updateCb_waits {inp : UpdateInput} {J : Bool → Owner → Prop} (hd : inp.conflictDetect = true)
    (hi : ∀ d ∈ inp.dhcid, J true ⟨a, inp.name, d, dhcidClass w.standard⟩)
    (hn : ¬ ((!inp.clientUpdates && decide (inp.dhcid = none)) = true)) :
    (w.updateCb a inp).Waits J := by
  refine ⟨⟨by simp [updateCb, hd], rfl⟩, rfl, fun h => ?_⟩
  have hu : inp.clientUpdates = false := by simpa [updateCb] using h
  cases hid : inp.dhcid with
  | none => simp [hu, hid] at hn
  | some d =>
    simp only [Cb.owner, updateCb, hu, hid]
    exact hi d hid

lemma Proper.ddnsUpdates {inp : UpdateInput} (hd : inp.conflictDetect = true)
    (hrem : (removalCb a (w.lease a) true).flags.updateAddr = true → ∀ j, N ≤ j →
      I j false (removalCb a (w.lease a) true).owner)
    (hi : ∀ d ∈ inp.dhcid, ∀ j, N ≤ j → I j true ⟨a, inp.name, d, dhcidClass w.standard⟩) :
    (w.ddnsUpdates a inp).Proper I T N z := by
  unfold World.ddnsUpdates
  extract_lets w' l doRemove done
  obtain ⟨h, hstd, heq⟩ : w'.Proper I T N z ∧ w'.standard = w.standard ∧ _ := h.cancelOutstanding a
  rw [← heq true] at hrem
  rw [← hstd] at hi
  split_ifs with _ _ _ _ hn
  · exact h
  · exact h
  · exact h.ddnsRemovals hrem (by simp)
  · exact h
  · exact h
  all_goals
    have hadd : ∀ c ∈ some (w'.updateCb a inp), ∀ j, N ≤ j → c.Waits (I j) := by
      rintro _ ⟨⟩ j hj
      exact updateCb_waits hd (fun d hd => hi d hd j hj) hn
  · exact h.ddnsRemovals hrem hadd
  · exact h.ddnsFwdSrvConnector hadd true true

end

/-! ### Runs -/

/-- The lease whose name the event lets the server remove. -/
def Event.lease : Event → Option Bytes
  | .update a _ | .removal a | .lapse a _ => some a
  | _ => none

/-- Whom a request that the event starts adds or removes the name of: the client that is given the
lease; the client that was waiting for a removal to end, where `S` tells whose the requests are; or
the client that the lease remembers. -/
inductive Starts (w : World) (S : ℕ → Bool → Owner → Prop) : Event → Bool → Owner → Prop
  | add {a : Bytes} {inp : UpdateInput} {d : Bytes} (h : inp.dhcid = some d) :
      Starts w S (.update a inp) true ⟨a, inp.name, d, dhcidClass w.standard⟩
  | next {k : ℕ} {res : Result} {o : Owner} (h : S k true o) : Starts w S (.result k res) true o
  | remove {ev : Event} {a : Bytes} (h : ev.lease = some a) (active : Bool) :
      Starts w S ev false (removalCb a (w.lease a) active).owner

/-- Whose the requests are after the event: the numbers from `fresh` on have not been used. -/
def serve (w : World) (S : ℕ → Bool → Owner → Prop) (ev : Event) (k : ℕ) (adds : Bool) (o : Owner) :
    Prop :=
  if k < w.fresh then S k adds o else Starts w S ev adds o

def runsForFrom (w : World) (S : ℕ → Bool → Owner → Prop) : List Event → ℕ → Bool → Owner → Prop
  | [] => S
  | ev :: evs => (w.step ev).runsForFrom (w.serve S ev) evs

/-- The identities of the clients at an address: those that asked, and the one in the lease file. -/
def Identity (w : World) (evs : List Event) (a d : Bytes) : Prop :=
  (∃ inp, .update a inp ∈ evs ∧ inp.dhcid = some d) ∨
    (w.lease a).standardTag = some d ∨ (w.lease a).interimTag = some d

/-- Conflict detection is on, and the identities are those of `T`. -/
def Event.Detects (T : Bytes → Bytes → Prop) : Event → Prop
  | .update a inp => inp.conflictDetect = true ∧ ∀ d ∈ inp.dhcid, T a d
  | _ => True

/-- A message of request `k` reaches the DNS server. -/
def Event.Delivers (w : World) (k : ℕ) : Event → Prop
  | .process j => j = k
  | .deliver i => ∃ u, w.sent[i]? = some (k, u)
  | _ => False

/-- The zone after an event: as before, with a message that was sent, or with what another party
does. -/
def ZoneAfter (w : World) (z : Zone Bytes) (ev : Event) (z' : Zone Bytes) : Prop :=
  z' = z ∨ (∃ k u, ev.Delivers w k ∧ (k, u) ∈ w.sent ∧ z' = u.apply z) ∨ ∃ n v, ev = .other n v

section

variable (h : w.Proper I T N z)

include h

lemma Proper.process (k : ℕ) :
    ∃ z', (w.process k).Proper I T N z' ∧ ZoneAfter w z (.process k) z' := by
  unfold World.process
  split
  · next u hu =>
    have hu : (k, u) ∈ w.sent := h.flight k (u, none) hu
    refine ⟨u.apply w.zone, { h with zone := rfl, flight := ?_ },
      .inr (.inl ⟨k, u, rfl, hu, by rw [h.zone]⟩)⟩
    refine flying h.flight fun x hx => ?_
    cases hx
    exact hu
  · exact ⟨z, h, .inl rfl⟩

lemma Proper.deliver (i : ℕ) :
    ∃ z', (w.deliver i).Proper I T N z' ∧ ZoneAfter w z (.deliver i) z' := by
  unfold World.deliver
  split
  · next k u hu =>
    exact ⟨u.apply w.zone, { h with zone := rfl },
      .inr (.inl ⟨k, u, ⟨u, hu⟩, mem_of_getElem? hu, by rw [h.zone]⟩)⟩
  · exact ⟨z, h, .inl rfl⟩

/-- What the numbers mean that are in use. -/
lemma Proper.mono {J : ℕ → Bool → Owner → Prop} (hIJ : ∀ k, k < w.fresh → I k = J k) :
    w.Proper J T N z where
  zone := h.zone
  fresh := h.fresh
  lease := h.lease
  request k r hr := (h.request k r hr).imp_right (hIJ k (h.request k r hr).1 ▸ ·)
  flight := h.flight
  sent x hx := (h.sent x hx).imp_right (hIJ x.1 (h.sent x hx).1 ▸ ·)

end

/-- Every client has an identity of its address. -/
def Known (T : Bytes → Bytes → Prop) (S : ℕ → Bool → Owner → Prop) (k : ℕ) (adds : Bool)
    (o : Owner) : Prop :=
  S k adds o ∧ T o.address o.dhcid

lemma removalCb_known {l : LeaseText} (hl : l.Proper (T a)) {active : Bool}
    (h : (removalCb a l active).flags.updateAddr = true) : T a (removalCb a l active).dhcid := by
  have htag : (l.standardTag.or l.interimTag).isSome = true := (Bool.and_eq_true_iff.mp h).2
  unfold removalCb
  cases hs : l.standardTag with
  | some d => exact hl.standardTag d hs
  | none =>
    cases hi : l.interimTag with
    | some d => exact hl.interimTag d hi
    | none => simp [hs, hi] at htag

variable {S : ℕ → Bool → Owner → Prop}

lemma Proper.step (h : w.Proper (Known T S) T w.fresh z) {ev : Event} (hev : ev.Detects T) :
    ∃ z', (w.step ev).Proper (Known T (w.serve S ev)) T w.fresh z' ∧ ZoneAfter w z ev z' := by
  have hlease := h.lease
  have hreq := h.request
  have old {k : ℕ} (hk : k < w.fresh) : Known T S k = Known T (w.serve S ev) k := by
    funext b o
    simp [Known, serve, hk]
  have h : w.Proper (Known T (w.serve S ev)) T w.fresh z := h.mono fun k hk => old hk
  have new {j : ℕ} (hj : w.fresh ≤ j) {b : Bool} {o : Owner} (hs : Starts w S ev b o)
      (ht : T o.address o.dhcid) : Known T (w.serve S ev) j b o :=
    ⟨by rwa [serve, if_neg hj.not_gt], ht⟩
  have hnone : ∀ c ∈ (none : Option Cb), ∀ j, w.fresh ≤ j →
      c.Waits (Known T (w.serve S ev) j) := by simp
  have hrem {a : Bytes} (ha : ev.lease = some a) {active : Bool}
      (hu : (removalCb a (w.lease a) active).flags.updateAddr = true) (j : ℕ) (hj : w.fresh ≤ j) :
      Known T (w.serve S ev) j false (removalCb a (w.lease a) active).owner :=
    new hj (.remove ha active) (removalCb_known (hlease a) hu)
  cases ev with
  | update a inp =>
    exact ⟨z, h.ddnsUpdates hev.1 (hrem rfl) fun d hd j hj => new hj (.add hd) (hev.2 d hd),
      .inl rfl⟩
  | removal a => exact ⟨z, h.ddnsRemovals (hrem rfl) hnone, .inl rfl⟩
  | lapse a stays =>
    have h : (w.lapse a stays).Proper _ T w.fresh z := (h.ddnsRemovals (hrem rfl) hnone).modifyLease
      fun _ _ => ⟨by simp [dropText], by simp [dropText]⟩
    exact ⟨z, h, .inl rfl⟩
  | setActive a active =>
    exact ⟨z, h.modifyLease (f := fun l => { l with active := active })
      fun _ hl => ⟨hl.standardTag, hl.interimTag⟩, .inl rfl⟩
  | dropScope a =>
    exact ⟨z, h.modifyLease (f := dropText)
      fun _ _ => ⟨by simp [dropText], by simp [dropText]⟩, .inl rfl⟩
  | process k => exact h.process k
  | deliver i => exact h.deliver i
  | result k res =>
    refine ⟨z, h.ddnsInterlude k res fun r hr => ?_, .inl rfl⟩
    have hk := (hreq k r hr).1
    refine ⟨hk, (h.request k r hr).2, fun j hj o ho => new hj (.next ?_) ho.2, fun o ho => ho.2⟩
    exact ((old hk).symm ▸ ho : Known T S k true o).1
  | other n v => exact ⟨_, { h with zone := rfl }, .inr (.inr ⟨n, v, rfl⟩)⟩

lemma Proper.run {evs : List Event} (h : w.Proper (Known T S) T w.fresh z)
    (hevs : ∀ ev ∈ evs, ev.Detects T) : ∃ z',
      (w.run evs).Proper (Known T (w.runsForFrom S evs)) T (w.run evs).fresh z' := by
  induction evs generalizing w z S with
  | nil => exact ⟨z, h⟩
  | cons ev evs ih =>
    obtain ⟨z', h', -⟩ := h.step (hevs ev (mem_cons_self ..))
    exact ih { h' with fresh := le_rfl } fun ev' hev' => hevs ev' (mem_cons_of_mem _ hev')

/-- The server has just been started: the leases may have names from before. -/
structure AtStart (w : World) : Prop where
  request : ∀ k, w.request k = none
  flight : ∀ k, w.flight k = none
  sent : w.sent = []

lemma AtStart.proper (h : w.AtStart) (evs : List Event) (S : ℕ → Bool → Owner → Prop) :
    w.Proper (Known (w.Identity evs) S) (w.Identity evs) w.fresh w.zone where
  zone := rfl
  fresh := le_rfl
  lease _ := ⟨fun _ hd => .inr (.inl hd), fun _ hd => .inr (.inr hd)⟩
  request k r hr := by simp [h.request k] at hr
  flight k x hx := by simp [h.flight k] at hx
  sent u hu := by simp [h.sent] at hu

def sampleInput : UpdateInput := { name := [1], dhcid := some [7] }

def sampleRun : List Event :=
  [.update [10, 0, 0, 1] sampleInput, .other [1] {(.txt, [5])}, .process 0, .result 0 .yxdomain,
    .other [1] {(.dhcid, [7])}]

end World

end IscDhcp.Ddns
