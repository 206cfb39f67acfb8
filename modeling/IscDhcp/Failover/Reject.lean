import IscDhcp.Failover.UpdateRun
import IscDhcp.Mdb.QueueInv

/-!
What an update of the peer leaves behind when it is answered with a reason for its rejection.

The checks that can reject an update are mixed with changes of the database: the lease is
taken off the ack queue before the client's data are checked, its scope is dropped before
the flags and the transition are, and all data are installed before they are written.
-/

namespace IscDhcp

open Option

variable {ι : Type} [DecidableEq ι]

/-- The binding state, the times, the client with its scope, the flags and the rewind state. -/
def Lease.record (l : Lease) :
    BindingState × List Time × Option Bytes × Bytes × Option ℕ × Flags × BindingState :=
  (l.bindingState, [l.starts, l.ends, l.sortTime, l.tstp, l.tsfp, l.atsfp, l.cltt], l.uid,
    l.hardwareAddr, l.scope, l.flags, l.rewindBindingState)

namespace Db

variable {s t u : Db ι} {i : ι} {msg : BndMsg ι}

/-! ### What is answered -/

/-- The messages since `s` reject nothing. -/
def Quietly (s t : Db ι) : Prop :=
  ∃ ms, t.peer.sent = s.peer.sent ++ ms ∧ ∀ m ∈ ms, Line.Quiet m

lemma Quietly.of_from {l : Line ι} (h : s.outbox.Holds l) (ht : From .quietly l t) :
    Quietly s t := by
  obtain ⟨l', hl, ht⟩ := ht
  obtain ⟨ms, hs, hq⟩ := hl.sent
  exact ⟨ms, ht.sent.trans (hs.trans (by rw [← h.sent]; rfl)), hq⟩

lemma Quietly.trans (h : Quietly s u) (h' : Quietly u t) : Quietly s t := by
  obtain ⟨ms, hs, hq⟩ := h
  obtain ⟨ms', hs', hq'⟩ := h'
  refine ⟨ms ++ ms', by rw [hs', hs, List.append_assoc], fun m hm => ?_⟩
  rcases List.mem_append.mp hm with hm | hm
  exacts [hq m hm, hq' m hm]

variable [Fintype ι]

def updateList (s : Db ι) : List ι := s.pendingFrom (Fintype.card ι + 1) s.peer.updateQueue.head

def ackList (s : Db ι) : List ι := s.pendingFrom (Fintype.card ι + 1) s.peer.ackQueue.head

/-- An update has had no effect on the lease it is about, the queues of the pools and the chains. -/
structure Unchanged (msg : BndMsg ι) (s t : Db ι) : Prop where
  lease : ∀ i, msg.assignedAddr = some i → (t.lease i).record = (s.lease i).record
  queue : ∀ p q, (t.pool p).queue q = (s.pool p).queue q
  uids : t.uids = s.uids
  hws : t.hws = s.hws
  update : ∀ i, msg.assignedAddr = some i → (i ∈ t.updateList ↔ i ∈ s.updateList)
  ack : ∀ i, msg.assignedAddr = some i → (i ∈ t.ackList ↔ i ∈ s.ackList)

lemma Unchanged.refl (msg : BndMsg ι) (s : Db ι) : Unchanged msg s s :=
  ⟨fun _ _ => rfl, fun _ _ => rfl, rfl, rfl, fun _ _ => Iff.rfl, fun _ _ => Iff.rfl⟩

end Db

end IscDhcp
