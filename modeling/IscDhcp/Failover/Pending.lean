import IscDhcp.Failover.Frame
import Mathlib.Data.Fintype.EquivFin

/-!
The update queue and the ack queue of the failover peer.

The two queues share the links `next_pending`. What they depend on is collected in `Pend`, so
that a function which writes none of it is known to keep them.
-/

namespace IscDhcp

open IscDhcp.Lib List Function

variable {ι : Type}

/-- The two queues, their links and the flags of the leases on them. -/
structure Pend (ι : Type) where
  next : ι → Option ι
  updateQueue : PtrQueue ι
  ackQueue : PtrQueue ι
  unacked : ℤ
  onUpdate : ι → Bool
  onAck : ι → Bool

/-- The update queue holds `u` and the ack queue `a`. -/
structure Pend.Holds (p : Pend ι) (u a : List ι) : Prop where
  update : p.updateQueue.Holds p.next u
  ack : p.ackQueue.Holds p.next a
  onUpdate : ∀ i, p.onUpdate i = true ↔ i ∈ u
  onAck : ∀ i, p.onAck i = true ↔ i ∈ a
  disjoint : ∀ i ∈ u, i ∉ a
  off : ∀ i, i ∉ u → i ∉ a → p.next i = none
  unacked : p.unacked = a.length

namespace Db

def pend (s : Db ι) : Pend ι where
  next := s.nextPending
  updateQueue := s.peer.updateQueue
  ackQueue := s.peer.ackQueue
  unacked := s.peer.curUnackedUpdates
  onUpdate i := (s.lease i).flags.onUpdateQueue
  onAck i := (s.lease i).flags.onAckQueue

def Pending (s : Db ι) : Prop := ∃ u a, s.pend.Holds u a

end Db

/-- The two queues, the messages put on the link, and the lease whose acknowledgement is
followed by `UPDDONE`. -/
structure Outbox (ι : Type) extends Pend ι where
  sent : List (OutMsg ι)
  done : Option ι

def Db.outbox (s : Db ι) : Outbox ι where
  toPend := s.pend
  sent := s.peer.sent
  done := s.peer.sendUpdateDone

/-! ### The leases in line for an acknowledgement -/

/-- What an outbox is about: the leases in line, the messages sent and the last lease of an
update request. -/
structure Line (ι : Type) where
  update : List ι
  ack : List ι
  sent : List (OutMsg ι)
  done : Option ι

namespace Line

/-- An update, or an acknowledgement that does not reject one. -/
def Quiet : OutMsg ι → Prop
  | .bndupd _ => True
  | .bndack m => m.has ftbRejectReason = false
  | .upddone _ => False

/-- What may be done to a line: which leases may be queued and which messages put on the link. -/
structure Rule (ι : Type) where
  queue : ι → Prop
  put : OutMsg ι → Prop
  quiet : ∀ m, Quiet m → put m

/-- Any lease may be queued and any message sent. -/
def Rule.any : Rule ι := ⟨fun _ => True, fun _ => True, fun _ _ => trivial⟩

/-- Any lease may be queued, but only updates and acknowledgements may be sent. -/
def Rule.quietly : Rule ι := ⟨fun _ => True, Quiet, fun _ => id⟩

variable [DecidableEq ι] {R : Rule ι} {l l' : Line ι}

/-- The line once the update of `i` is settled. -/
def settle (l : Line ι) (i : ι) : Line ι :=
  { l with ack := l.ack.erase i, done := if l.done = some i then none else l.done }

inductive Step (R : Rule ι) (l : Line ι) : Line ι → Prop
  | put (m : OutMsg ι) (h : R.put m) : Step R l { l with sent := l.sent ++ [m] }
  | send (i : ι) (u : List ι) (h : l.update = i :: u) :
    Step R l { l with update := u, ack := l.ack ++ [i] }
  | rescind : Step R l { l with update := l.ack ++ l.update, ack := [] }
  | queue (i : ι) (h : R.queue i) (hu : i ∉ l.update) :
    Step R l { l with update := l.update ++ [i], ack := l.ack.erase i }

def Reach (R : Rule ι) : Line ι → Line ι → Prop := Relation.ReflTransGen (Step R)

lemma Reach.keeps {P : Line ι → Prop} (h : Reach R l l') (hl : P l)
    (hP : ∀ {m m'}, Step R m m' → P m → P m') : P l' := by
  induction h with
  | refl => exact hl
  | tail _ hs ih => exact hP hs ih

lemma Reach.done (h : Reach R l l') : l'.done = l.done :=
  h.keeps (P := fun m => m.done = l.done) rfl fun hs hm => by cases hs <;> exact hm

lemma Reach.sent (h : Reach R l l') : ∃ ms, l'.sent = l.sent ++ ms ∧ ∀ m ∈ ms, R.put m := by
  refine h.keeps (P := fun m => ∃ ms, m.sent = l.sent ++ ms ∧ ∀ m ∈ ms, R.put m)
    ⟨[], by simp, by simp⟩ ?_
  rintro x y hs ⟨ms, hm, hp⟩
  cases hs with
  | put m h =>
    refine ⟨ms ++ [m], by simp [hm], fun k hk => ?_⟩
    rcases mem_append.mp hk with hk | hk
    · exact hp k hk
    · exact mem_singleton.mp hk ▸ h
  | send => exact ⟨ms, hm, hp⟩
  | rescind => exact ⟨ms, hm, hp⟩
  | queue => exact ⟨ms, hm, hp⟩

end Line

/-- The outbox holds what the line says. -/
structure Outbox.Holds (o : Outbox ι) (l : Line ι) : Prop where
  queues : o.toPend.Holds l.update l.ack
  sent : o.sent = l.sent
  done : o.done = l.done

namespace Db

variable {s t : Db ι} {u a : List ι} {i : ι}

lemma pend_of_outbox (h : t.outbox = s.outbox) : t.pend = s.pend := congrArg Outbox.toPend h

variable [DecidableEq ι]

/-! ### What leaves the queues alone -/

lemma modify_pend (s : Db ι) (i : ι) (f : Lease → Lease) : (s.modify i f).pend =
      { s.pend with
        onUpdate := Function.update s.pend.onUpdate i (f (s.lease i)).flags.onUpdateQueue
        onAck := Function.update s.pend.onAck i (f (s.lease i)).flags.onAckQueue } := by
  have h (g : Lease → Bool) : (fun j => g ((s.modify i f).lease j)) =
      update (fun j => g (s.lease j)) i (g (f (s.lease i))) :=
    comp_update g s.lease i (f (s.lease i))
  exact congrArg₂ (fun x y => { s.pend with onUpdate := x, onAck := y })
    (h fun l => l.flags.onUpdateQueue) (h fun l => l.flags.onAckQueue)

lemma outbox_modify (s : Db ι) (i : ι) {f : Lease → Lease}
    (hf : ∀ l, (f l).flags.onUpdateQueue = l.flags.onUpdateQueue ∧
      (f l).flags.onAckQueue = l.flags.onAckQueue) : (s.modify i f).outbox = s.outbox := by
  have h : (s.modify i f).pend = s.pend := by
    rw [modify_pend, (hf _).1, (hf _).2]
    simp [pend]
  exact congrArg (fun p => { s.outbox with toPend := p }) h

@[simp] lemma outbox_ask (s : Db ι) : s.ask.2.outbox = s.outbox := by
  unfold ask
  split <;> rfl

@[simp] lemma outbox_askAnd (s : Db ι) (e : Effect ι) : (s.askAnd e).2.outbox = s.outbox :=
  proj_askAnd outbox (fun _ _ _ => rfl) s e

@[simp] lemma outbox_writeLease (s : Db ι) (i : ι) : (s.writeLease i).2.outbox = s.outbox :=
  s.outbox_askAnd _

@[simp] lemma outbox_commitLeases (s : Db ι) : s.commitLeases.2.outbox = s.outbox :=
  s.outbox_askAnd _

/-! ### The flags -/

@[simp] lemma setOnUpdateQueue_pend (s : Db ι) (i : ι) (b : Bool) : (s.setOnUpdateQueue i b).pend =
      { s.pend with onUpdate := Function.update s.pend.onUpdate i b } := by
  rw [setOnUpdateQueue, modify_pend]
  simp [pend]

@[simp] lemma setOnAckQueue_pend (s : Db ι) (i : ι) (b : Bool) : (s.setOnAckQueue i b).pend =
      { s.pend with onAck := Function.update s.pend.onAck i b } := by
  rw [setOnAckQueue, modify_pend]
  simp [pend]

lemma zapFlags_pend (s : Db ι) (l : List ι) :
    (l.foldl (fun s i => (s.setOnAckQueue i false).setOnUpdateQueue i true) s).pend =
      { s.pend with
        onUpdate := fun i => s.pend.onUpdate i || decide (i ∈ l)
        onAck := fun i => s.pend.onAck i && decide (i ∉ l) } := by
  induction l generalizing s with
  | nil => simp
  | cons j l ih =>
    rw [foldl_cons, ih]
    simp only [setOnUpdateQueue_pend, setOnAckQueue_pend, Pend.mk.injEq, true_and]
    constructor
    · funext i
      by_cases h : i = j <;> simp [h]
    · funext i
      by_cases h : i = j <;> simp [h]

/-! ### The operations -/

lemma moveToAckQueue_pend (s : Db ι) (lp : ι) : (s.moveToAckQueue lp).pend =
      let pop := s.peer.updateQueue.pop s.nextPending lp
      let append := s.peer.ackQueue.append pop.1 lp
      { next := append.1
        updateQueue := pop.2
        ackQueue := append.2
        unacked := s.peer.curUnackedUpdates + 1
        onUpdate := update s.pend.onUpdate lp false
        onAck := update s.pend.onAck lp true } := by
  simp only [moveToAckQueue, setOnAckQueue_pend, setOnUpdateQueue_pend]
  rfl

lemma moveToAckQueue_holds {lp : ι} (h : s.pend.Holds (lp :: u) a) :
    (s.moveToAckQueue lp).pend.Holds u (a ++ [lp]) := by
  obtain ⟨hu, hlp, hpop⟩ := h.update.pop
  have hlpa : lp ∉ a := h.disjoint lp (by simp)
  have hlpu : lp ∉ u := (nodup_cons.mp h.update.chain.nodup).1
  have ha : s.peer.ackQueue.Holds (s.peer.updateQueue.pop s.nextPending lp).1 a :=
    h.ack.congr fun c hc => hpop c (by rintro rfl; exact hlpa hc)
  obtain ⟨ha', happ⟩ := ha.append hlpa hlp
  rw [moveToAckQueue_pend]
  refine ⟨hu.congr fun c hc => happ c fun hm => ?_, ha', fun j => ?_, fun j => ?_, fun j hj => ?_,
    fun j hj hja => ?_, ?_⟩
  · exact h.disjoint c (by simp [hc]) hm
  · by_cases hj : j = lp
    · subst hj
      simp [hlpu]
    · simpa [hj] using h.onUpdate j
  · by_cases hj : j = lp
    · subst hj
      simp
    · simpa [hj] using h.onAck j
  · have hja := h.disjoint j (by simp [hj])
    have hjl : j ≠ lp := by rintro rfl; exact hlpu hj
    simp [hja, hjl]
  · simp only [mem_append, mem_singleton, not_or] at hja
    refine (happ j hja.1).trans ((hpop j hja.2).trans ?_)
    exact h.off j (by simp [hj, hja.2]) hja.1
  · have hun : s.peer.curUnackedUpdates = a.length := h.unacked
    simp [hun]

lemma appendUpdate_pend (s : Db ι) (i : ι) : (s.appendUpdate i).pend =
      let append := s.peer.updateQueue.append s.nextPending i
      { s.pend with
        next := append.1
        updateQueue := append.2
        onUpdate := update s.pend.onUpdate i true } := by
  simp only [appendUpdate, setOnUpdateQueue_pend]
  rfl

lemma appendUpdate_holds (h : s.pend.Holds u a) (hiu : i ∉ u) (hia : i ∉ a) :
    (s.appendUpdate i).pend.Holds (u ++ [i]) a := by
  obtain ⟨hq, hother⟩ := h.update.append hiu (h.off i hiu hia)
  rw [appendUpdate_pend]
  refine ⟨hq, h.ack.congr fun c hc => hother c fun hu => h.disjoint c hu hc, fun j => ?_, h.onAck,
    fun j hj => ?_, fun j hj hja => ?_, h.unacked⟩
  · by_cases hji : j = i
    · subst hji
      simp
    · simpa [hji] using h.onUpdate j
  · rcases mem_append.mp hj with hj | hj
    · exact h.disjoint j hj
    · rwa [mem_singleton.mp hj]
  · rw [mem_append, not_or] at hj
    exact (hother j hj.1).trans (h.off j hj.1 hja)

lemma pendingFrom_eq {p : Option ι} {l : List ι} (h : Chain s.nextPending p l) {n : ℕ}
    (hn : l.length ≤ n) : s.pendingFrom n p = l := by
  induction l generalizing p n with
  | nil =>
    obtain rfl : p = none := h
    cases n <;> rfl
  | cons i l ih =>
    obtain ⟨rfl, hl⟩ := h
    cases n with
    | zero => simp at hn
    | succ n =>
      rw [pendingFrom, ih hl (by simpa using hn)]

variable [Fintype ι] (h : s.pend.Holds u a)
include h

lemma rescind_holds : s.dhcpFailoverRescindUpdates.pend.Holds (a ++ u) [] := by
  unfold dhcpFailoverRescindUpdates
  have ht : s.peer.ackQueue.tail = a.getLast? := h.ack.tail
  cases htail : s.peer.ackQueue.tail with
  | none =>
    obtain rfl : a = [] := getLast?_eq_none_iff.mp (ht.symm.trans htail)
    exact h
  | some t =>
    have hlast : a.getLast? = some t := ht.symm.trans htail
    have hcard : a.length ≤ Fintype.card ι + 1 := h.ack.chain.nodup.length_le_card.trans (by omega)
    have hd : ∀ i ∈ a, i ∉ u := fun i hi hu => h.disjoint i hu hi
    obtain ⟨hq, hother⟩ := h.ack.prepend h.update hlast hd
    have hz := s.zapFlags_pend a
    have hpf : s.pendingFrom (Fintype.card ι + 1) s.peer.ackQueue.head = a :=
      pendingFrom_eq h.ack.chain hcard
    rw [hpf]
    generalize a.foldl (fun s i => (s.setOnAckQueue i false).setOnUpdateQueue i true) s = z at hz ⊢
    have hu : ∀ i, z.pend.onUpdate i = (s.pend.onUpdate i || decide (i ∈ a)) := by simp [hz]
    have ha : ∀ i, z.pend.onAck i = (s.pend.onAck i && decide (i ∉ a)) := by simp [hz]
    refine ⟨hq, ⟨rfl, rfl⟩, fun i => ?_, fun i => ?_, by simp, fun i hi _ => ?_, rfl⟩
    · refine (iff_of_eq (congrArg (· = true) (hu i))).trans ?_
      simp [h.onUpdate, or_comm]
    · refine (iff_of_eq (congrArg (· = true) (ha i))).trans ?_
      simp [h.onAck]
    · rw [mem_append, not_or] at hi
      exact (hother i hi.1).trans (h.off i hi.2 hi.1)

lemma ackQueueRemove_holds (i : ι) : (s.dhcpFailoverAckQueueRemove i).pend.Holds u (a.erase i) := by
  unfold dhcpFailoverAckQueueRemove
  by_cases hi : i ∈ a
  · have hcard : a.length < Fintype.card ι + 1 :=
      Nat.lt_succ_of_le h.ack.chain.nodup.length_le_card
    obtain ⟨next, q, hr, hq, hni, hother⟩ := h.ack.remove hi hcard
    have hnd := h.ack.chain.nodup
    have hflag : (s.lease i).flags.onAckQueue = true := (h.onAck i).mpr hi
    replace hr : s.peer.ackQueue.remove (Fintype.card ι + 1) s.nextPending i = some (next, q) := hr
    rw [if_pos hflag, hr]
    dsimp -zeta only
    extract_lets _ s1 s2
    have hs2 : s2.pend.Holds u (a.erase i) := by
      have he : s2.pend = { s1.pend with onAck := update s.pend.onAck i false } := by
        rw [show s2 = s1.modify i _ from rfl, modify_pend]
        simp [pend, s1]
      rw [he]
      refine ⟨h.update.congr fun c hc => hother c (h.disjoint c hc), hq, h.onUpdate, fun j => ?_,
        fun j hj hm => h.disjoint j hj (mem_of_mem_erase hm), fun j hj hja => ?_, ?_⟩
      · by_cases hji : j = i
        · subst hji
          simp [hnd.mem_erase_iff]
        · simp [hji, h.onAck]
      · by_cases hji : j = i
        · exact hji ▸ hni
        · have hja' : j ∉ a := fun hm => hja (hnd.mem_erase_iff.mpr ⟨hji, hm⟩)
          exact (hother j hja').trans (h.off j hj hja')
      · have hpos : 0 < a.length := length_pos_of_mem hi
        have hun : s.peer.curUnackedUpdates = a.length := h.unacked
        rw [length_erase_of_mem hi]
        simp only [pend, s1]
        omega
    split_ifs
    · rwa [pend_of_outbox s2.outbox_commitLeases]
    · exact hs2
  · have hflag : (s.lease i).flags.onAckQueue ≠ true := fun hf => hi ((h.onAck i).mp hf)
    rw [if_neg hflag, erase_of_not_mem hi]
    exact h

end Db

namespace Db

/-! ### The functions of the link -/

variable [DecidableEq ι] {R : Line.Rule ι} {l : Line ι} {s t : Db ι}

/-- The rule allows the line to come from `l` to where it is in `s`. -/
def From (R : Line.Rule ι) (l : Line ι) (s : Db ι) : Prop :=
  ∃ l', Line.Reach R l l' ∧ s.outbox.Holds l'

lemma From.refl (h : s.outbox.Holds l) : From R l s := ⟨l, .refl, h⟩

lemma From.of_outbox (h : From R l s) (he : t.outbox = s.outbox) : From R l t := by
  obtain ⟨l', hl, h⟩ := h
  exact ⟨l', hl, he ▸ h⟩

lemma From.modify (h : From R l s) {i : ι} {f : Lease → Lease} (hf : ∀ l, (f l).flags = l.flags) :
    From R l (s.modify i f) :=
  h.of_outbox (s.outbox_modify i fun l => by rw [hf l]; exact ⟨rfl, rfl⟩)

lemma From.pending (h : From R l s) : s.Pending := by
  obtain ⟨l', -, h⟩ := h
  exact ⟨_, _, h.queues⟩

lemma Pending.exists_line (h : s.Pending) : ∃ l, s.outbox.Holds l := by
  obtain ⟨u, a, h⟩ := h
  exact ⟨⟨u, a, s.peer.sent, s.peer.sendUpdateDone⟩, h, rfl, rfl⟩

variable [Fintype ι]

lemma From.rescindUpdates (h : From R l s) : From R l s.dhcpFailoverRescindUpdates := by
  obtain ⟨l', hl, h⟩ := h
  have hk := s.rescindUpdates_rec (P := fun t => t.outbox.sent = l'.sent ∧ t.outbox.done = l'.done)
    ⟨h.sent, h.done⟩ (fun _ _ h => h) fun _ _ _ h => h
  exact ⟨_, hl.tail .rescind, rescind_holds h.queues, hk.1, hk.2⟩

lemma from_stateInvariant (R : Line.Rule ι) (l : Line ι) : StateInvariant (From R l) where
  ask h := h.of_outbox (outbox_ask _)
  commitLeases h := h.of_outbox (outbox_commitLeases _)
  states _ _ _ _ _ h := h.of_outbox rfl
  rescind h := h.rescindUpdates
  wait _ _ h := h.modify fun _ => rfl
  schedulePool _ _ h := h.of_outbox rfl

lemma From.disconnect (h : From R l s) : From R l s.disconnect :=
  (from_stateInvariant R l).disconnect h

lemma putMessage_outbox {msg : OutMsg ι} (h : s.dhcpFailoverPutMessage msg = (true, t)) :
    t.outbox = { s.outbox with sent := s.outbox.sent ++ [msg] } := by
  have ha := s.outbox_ask
  unfold dhcpFailoverPutMessage at h
  generalize s.ask = r at h ha
  rcases r with ⟨_ | _, v⟩
  · simp at h
  · obtain rfl : _ = t := (Prod.mk.inj h).2
    rw [← ha]
    rfl

lemma From.putMessage (h : From R l s) {msg : OutMsg ι} (hm : R.put msg) :
    From R l (s.dhcpFailoverPutMessage msg).2 := by
  rcases hput : s.dhcpFailoverPutMessage msg with ⟨_ | _, v⟩
  · have ha := h.of_outbox s.outbox_ask
    unfold dhcpFailoverPutMessage at hput
    generalize s.ask = r at ha hput
    rcases r with ⟨_ | _, w⟩
    · obtain rfl : _ = v := (Prod.mk.inj hput).2
      exact ha.disconnect
    · simp at hput
  · obtain ⟨l', hl, h⟩ := h
    refine ⟨_, hl.tail (.put msg hm), ?_⟩
    rw [putMessage_outbox hput]
    exact ⟨h.queues, by rw [h.sent], h.done⟩

lemma stepRewind_outbox (s : Db ι) (i : ι) : ((s.takeXid i).stepRewind i).outbox = s.outbox := by
  have hx : (s.takeXid i).outbox = s.outbox :=
    s.outbox_modify i fun _ => ⟨rfl, rfl⟩
  unfold stepRewind
  split_ifs
  · rw [outbox_commitLeases, outbox_writeLease, ← hx]
    exact outbox_modify _ i fun _ => ⟨rfl, rfl⟩
  · exact hx

lemma sendBindUpdate_pend {i : ι} (h : s.dhcpFailoverSendBindUpdate i = (true, t)) :
    t.pend = s.pend := by
  unfold dhcpFailoverSendBindUpdate at h
  split_ifs at h
  · exact (congrArg Outbox.toPend (putMessage_outbox h)).trans
      (pend_of_outbox (s.stepRewind_outbox i))
  · cases h

lemma From.sendBindUpdate (h : From R l s) (i : ι) :
    From R l (s.dhcpFailoverSendBindUpdate i).2 := by
  unfold dhcpFailoverSendBindUpdate
  split_ifs
  · exact (h.of_outbox (s.stepRewind_outbox i)).putMessage (R.quiet _ trivial)
  · exact h

lemma From.sendBindAck (h : From R l s) (msg : BndMsg ι) {reason : ℕ} {message : String}
    (hr : reason = 0 ∨ ∀ m, R.put (.bndack m)) :
    From R l (s.dhcpFailoverSendBindAck msg reason message).2 := by
  unfold dhcpFailoverSendBindAck
  by_cases hl : s.peer.linkToPeer = true
  · rw [if_pos hl]
    refine h.putMessage ?_
    rcases hr with rfl | hr
    · exact R.quiet _ (by simp [Line.Quiet, BndMsg.has, ftbAssignedIpAddress, ftbRejectReason])
    · exact hr _
  · rw [if_neg hl]
    exact h

lemma From.sendAcks (h : From R l s) : From R l s.dhcpFailoverSendAcks := by
  have hc := h.of_outbox s.outbox_commitLeases
  unfold dhcpFailoverSendAcks
  generalize s.commitLeases = r at hc ⊢
  rcases r with ⟨_ | _, v⟩
  · exact hc
  · have hv : From R l (v.modifyPeer fun p => { p with toackQueue := [] }) := hc.of_outbox rfl
    exact From.of_outbox (foldlRecOn _ _ hv fun _ h msg _ => h.sendBindAck msg (.inl rfl)) rfl

lemma From.queueAck (h : From R l s) (msg : BndMsg ι) : From R l (s.dhcpFailoverQueueAck msg) := by
  unfold dhcpFailoverQueueAck
  extract_lets v
  have hv : From R l v := h.of_outbox rfl
  split_ifs
  exacts [hv.sendAcks, hv]

lemma From.moveToAckQueue {lp : ι} (h : From R l s) (hhead : s.peer.updateQueue.head = some lp) :
    From R l (s.moveToAckQueue lp) := by
  obtain ⟨l', hl, h⟩ := h
  have hq := h.queues
  obtain ⟨u, hu⟩ : ∃ u, l'.update = lp :: u :=
    head?_eq_some_iff.mp (hq.update.chain.head?.symm.trans hhead)
  rw [hu] at hq
  exact ⟨_, hl.tail (.send lp u hu), moveToAckQueue_holds hq, h.sent, h.done⟩

lemma From.sendQueued (h : From R l s) (n : ℕ) : From R l (sendQueued n s).2 := by
  induction n generalizing s with
  | zero => exact h
  | succ n ih =>
    unfold Db.sendQueued
    split_ifs
    · cases hhead : s.peer.updateQueue.head with
      | none => exact h
      | some lp =>
        have hs := h.sendBindUpdate lp
        dsimp only
        rcases hsend : s.dhcpFailoverSendBindUpdate lp with ⟨_ | _, v⟩
        · rwa [hsend] at hs
        · -- the lease sent is still the first of the update queue
          rw [hsend] at hs
          refine ih (hs.moveToAckQueue ?_)
          exact (congrArg (·.updateQueue.head) (sendBindUpdate_pend hsend)).trans hhead
    · exact h

lemma From.sendUpdates (h : From R l s) : From R l s.dhcpFailoverSendUpdates.2 := by
  unfold dhcpFailoverSendUpdates
  split_ifs
  exacts [h.sendQueued _, h.sendAcks.sendQueued _, h]

lemma ackQueueRemove_sent (s : Db ι) (i : ι) :
    (s.dhcpFailoverAckQueueRemove i).outbox.sent = s.outbox.sent ∧
      (s.dhcpFailoverAckQueueRemove i).outbox.done = s.outbox.done := by
  unfold dhcpFailoverAckQueueRemove
  split_ifs
  · cases s.peer.ackQueue.remove (Fintype.card ι + 1) s.nextPending i with
    | none => exact ⟨rfl, rfl⟩
    | some r =>
      dsimp -zeta only
      extract_lets _ t u
      split_ifs
      · rw [outbox_commitLeases]
        exact ⟨rfl, rfl⟩
      · exact ⟨rfl, rfl⟩
  · exact ⟨rfl, rfl⟩

lemma ackQueueRemove_line (h : s.outbox.Holds l) (i : ι) :
    (s.dhcpFailoverAckQueueRemove i).outbox.Holds { l with ack := l.ack.erase i } :=
  ⟨ackQueueRemove_holds h.queues i, (s.ackQueueRemove_sent i).1.trans h.sent,
    (s.ackQueueRemove_sent i).2.trans h.done⟩

lemma From.queueUpdate (h : From R l s) {i : ι} (hi : R.queue i) (immediate : Bool) :
    From R l (s.dhcpFailoverQueueUpdate i immediate) := by
  unfold dhcpFailoverQueueUpdate
  by_cases hp : s.peered i = true
  · rw [if_pos hp]
    by_cases hu : (s.lease i).flags.onUpdateQueue = true
    · rw [if_pos hu]
      exact h
    have ha : From R l ((s.dhcpFailoverAckQueueRemove i).appendUpdate i) := by
      obtain ⟨l', hl, h⟩ := h
      have hiu : i ∉ l'.update := fun hi => hu ((h.queues.onUpdate i).mpr hi)
      have hr := ackQueueRemove_line h i
      refine ⟨_, hl.tail (.queue i hi hiu), appendUpdate_holds hr.queues hiu ?_, hr.sent, hr.done⟩
      exact fun hi => (h.queues.ack.chain.nodup.mem_erase_iff.mp hi).1 rfl
    rw [if_neg hu]
    split_ifs
    exacts [ha.sendUpdates, ha]
  · rw [if_neg hp]
    exact h

end Db

end IscDhcp
