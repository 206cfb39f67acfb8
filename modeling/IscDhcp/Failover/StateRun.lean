import IscDhcp.Failover.States

/-!
Two servers and the connection between them. A connection delivers its messages in order, and
those on their way are lost with it. The servers are restarted, lose their lease files, and
are put in partner-down at any time.
-/

namespace IscDhcp.Failover

open Option

/-! ### No server meets an impossible state of its own -/

lemma isSome_bind {α β : Type} {x : Option α} {f : α → Option β} (hx : x.isSome)
    (hf : ∀ y, (f y).isSome) : (x >>= f).isSome := by
  obtain ⟨y, rfl⟩ := isSome_iff_exists.mp hx
  exact hf y

namespace Server

variable (s : Server)

lemma disconnect_isSome : s.disconnect.isSome := by
  unfold disconnect
  have := ({ s with linkToPeer := false } : Server).shown.2
  dsimp only
  split <;> first | rfl | contradiction

lemma dhcpFailoverPutMessage_isSome (msg : Msg) : (s.dhcpFailoverPutMessage msg).isSome := by
  unfold dhcpFailoverPutMessage
  split
  · rfl
  · exact disconnect_isSome _

lemma dhcpFailoverSendState_isSome : s.dhcpFailoverSendState.isSome := by
  unfold dhcpFailoverSendState
  split
  · exact s.dhcpFailoverPutMessage_isSome _
  · rfl

lemma dhcpFailoverSendUpdateRequestAll_isSome : s.dhcpFailoverSendUpdateRequestAll.isSome := by
  unfold dhcpFailoverSendUpdateRequestAll
  split
  · exact isSome_bind (s.dhcpFailoverPutMessage_isSome _) fun _ => rfl
  · rfl

lemma dhcpFailoverSendUpdateRequest_isSome : s.dhcpFailoverSendUpdateRequest.isSome := by
  unfold dhcpFailoverSendUpdateRequest
  split_ifs
  · exact s.dhcpFailoverSendUpdateRequestAll_isSome
  · exact isSome_bind (s.dhcpFailoverPutMessage_isSome _) fun _ => rfl
  · rfl

lemma dhcpFailoverSendUpdateDone_isSome : s.dhcpFailoverSendUpdateDone.isSome := by
  unfold dhcpFailoverSendUpdateDone
  split
  · exact s.dhcpFailoverPutMessage_isSome _
  · rfl

lemma sendOther_isSome : s.sendOther.isSome := by
  unfold sendOther
  split
  · split
    · rfl
    · exact disconnect_isSome _
  · rfl

lemma dhcpFailoverRecoverDone_isSome : s.dhcpFailoverRecoverDone.isSome := by
  unfold dhcpFailoverRecoverDone
  split
  · rfl
  · exact dhcpFailoverSendState_isSome _

variable (new : FailoverState) (startupp : Bool)

lemma entered_isSome : (s.entered new).isSome := by
  unfold entered
  split
  · exact sendOther_isSome _
  · split_ifs
    · exact s.dhcpFailoverSendUpdateRequest_isSome
    · rfl
  · split_ifs
    · rfl
    · exact s.dhcpFailoverRecoverDone_isSome
  · exact s.dhcpFailoverSendUpdateRequestAll_isSome
  · rfl

lemma dhcpFailoverSetState_isSome : (s.dhcpFailoverSetState new).isSome := by
  unfold dhcpFailoverSetState
  split
  · rfl
  · exact isSome_bind (dhcpFailoverSendState_isSome _) fun t => t.entered_isSome new

lemma dhcpFailoverStateTransition_isSome (name : Transition) :
    (s.dhcpFailoverStateTransition name).isSome := by
  cases name with
  | disconnect => exact s.disconnect_isSome
  | connect =>
    unfold dhcpFailoverStateTransition
    dsimp only
    split
    · exact isSome_bind (s.dhcpFailoverSetState_isSome _) sendOther_isSome
    · exact s.dhcpFailoverSetState_isSome _
    · exact s.dhcpFailoverSendState_isSome
  | startup => exact s.dhcpFailoverSetState_isSome _
  | connectTimeout =>
    unfold dhcpFailoverStateTransition
    dsimp only
    split <;> first | rfl | exact s.dhcpFailoverSetState_isSome _

lemma dhcpFailoverProcessUpdateDone_isSome : s.dhcpFailoverProcessUpdateDone.isSome := by
  unfold dhcpFailoverProcessUpdateDone
  dsimp only
  split
  any_goals rfl
  · split_ifs <;> first | rfl | exact dhcpFailoverSetState_isSome _ _
  · split_ifs
    · exact isSome_bind (dhcpFailoverSetState_isSome _ _) fun _ => rfl
    · exact dhcpFailoverRecoverDone_isSome _

lemma dhcpFailoverProcessUpdateRequest_isSome : s.dhcpFailoverProcessUpdateRequest.isSome := by
  unfold dhcpFailoverProcessUpdateRequest
  dsimp only
  split_ifs
  · exact sendOther_isSome _
  · exact dhcpFailoverSendUpdateDone_isSome _

lemma updateAcknowledged_isSome : s.updateAcknowledged.isSome := by
  unfold updateAcknowledged
  split_ifs
  · exact dhcpFailoverSendUpdateDone_isSome _
  · rfl

lemma restart_isSome : s.restart.isSome := dhcpFailoverStateTransition_isSome _ _

lemma shutdownDone_isSome : s.shutdownDone.isSome := by
  unfold shutdownDone
  split_ifs
  · exact dhcpFailoverSetState_isSome _ _
  · rfl

/-! ### The states of the peer that end a server -/

/-- In conflict-done a server expects the peer to come to normal, to shut down, or to be still
resolving the conflict. In startup it goes back to its state when the peer has the state it
had before. -/
def Expects (new : FailoverState) : Prop :=
  s.shown.1 = .conflictDone →
    s.meState = .startup ∧ s.partnerState = new ∨
    new = .normal ∨ new = .shutDown ∨ new = .potentialConflict ∨ new = .resolutionInterrupted

instance (new : FailoverState) : Decidable (s.Expects new) := by unfold Expects; infer_instance

/-- Out of conflict-done a server follows the peer into whatever state it reports. -/
lemma followPeer_isSome (previous new : FailoverState) (startupp : Bool)
    (h : s.shown.1 ≠ .conflictDone) : (s.followPeer previous new startupp).isSome := by
  have hset := s.dhcpFailoverSetState_isSome
  have hall := s.dhcpFailoverSendUpdateRequestAll_isSome
  have hreq := s.dhcpFailoverSendUpdateRequest_isSome
  unfold followPeer
  split
  case h_1 => split <;> first | rfl | exact hset _ | exact s.sendOther_isSome
  case h_2 => split <;> first | rfl | exact hset _ | (split_ifs; exacts [hall, rfl])
  case h_3 => split <;> first | rfl | exact hset _ | (split_ifs; exacts [hreq, rfl])
  case h_4 hown => exact absurd hown h
  case h_5 =>
    split_ifs
    · rfl
    · split <;> first | rfl | exact hset _
  case h_6 =>
    split <;> first
      | rfl
      | exact hset _
      | exact isSome_bind s.sendOther_isSome fun t => t.dhcpFailoverSetState_isSome _
  case h_13 hown => exact absurd hown s.shown.2
  all_goals first | rfl | (split <;> first | rfl | exact hset _)

lemma followPeer_isSome_iff (previous new : FailoverState) (startupp : Bool) :
    (s.followPeer previous new startupp).isSome ↔
      (s.shown.1 = .conflictDone →
        new = .normal ∨ new = .shutDown ∨ new = .potentialConflict ∨
          new = .resolutionInterrupted) := by
  by_cases hown : s.shown.1 = .conflictDone
  · unfold followPeer
    rw [hown]
    cases new <;> simp [dhcpFailoverSetState_isSome]
  · simp [s.followPeer_isSome previous new startupp hown, hown]

lemma writeFailoverState_shown : s.writeFailoverState.2.shown = s.shown := by
  unfold writeFailoverState
  rcases hask : s.ask with ⟨_ | _, t⟩ <;>
    (obtain ⟨-, rfl⟩ := Prod.mk.inj hask; rfl)

lemma writeState_shown : s.writeState.2.shown = s.shown := by
  refine Eq.trans ?_ s.writeFailoverState_shown
  unfold writeState
  rcases s.writeFailoverState with ⟨_ | _, t⟩ <;> rfl

lemma leaveStartup_isSome : s.leaveStartup.isSome := by
  unfold leaveStartup
  split_ifs
  · exact s.dhcpFailoverSetState_isSome _
  · rfl

lemma takePeerState_isSome_iff : (s.takePeerState new startupp).isSome ↔
      (s.shown.1 = .conflictDone →
        new = .normal ∨ new = .shutDown ∨ new = .potentialConflict ∨
          new = .resolutionInterrupted) := by
  have hshown : ({ s with partnerState := new } : Server).writeState.2.shown = s.shown := by
    rw [writeState_shown]; rfl
  rw [← hshown, ← followPeer_isSome_iff _ s.partnerState new startupp]
  refine ⟨fun h => ?_, fun h => isSome_bind h fun t =>
    isSome_bind t.leaveStartup_isSome fun _ => rfl⟩
  exact isSome_of_isSome_bind h

/-- **Fatal states of the peer**: the server ends exactly at a state it does not expect. -/
lemma dhcpFailoverPeerStateChanged_isSome_iff :
    (s.dhcpFailoverPeerStateChanged new startupp).isSome ↔ s.Expects new := by
  unfold dhcpFailoverPeerStateChanged Expects
  by_cases hst : s.meState = .startup ∧ s.partnerState = new
  · simp [hst, dhcpFailoverSetState_isSome]
  · by_cases hp : s.partnerState = new
    · have hown : s.shown.1 = s.meState := by simp [shown, show s.meState ≠ .startup by tauto]
      rw [if_pos hp]
      split <;> simp_all [takePeerState_isSome_iff]
    · rw [if_neg hp]
      simp [takePeerState_isSome_iff, hp]

end Server

/-! ### The pair -/

/-- A connection: the messages on their way to each server, and whether the server has made it
its link to the peer. -/
structure Conn where
  toward : Role → List Msg := fun _ => []
  linked : Role → Bool := fun _ => false

structure Pair where
  server : Role → Server
  conn : Option Conn := none

def peerOf : Role → Role
  | .primary => .secondary
  | .secondary => .primary

namespace Conn

/-- The server `r`, now `s`, has acted: what it sent is on its way, unless it gave up the link. -/
def after (c : Conn) (r : Role) (s : Server) : Option Conn :=
  if c.linked r then
    if s.linkToPeer then
      some { c with
        toward := Function.update c.toward (peerOf r) (c.toward (peerOf r) ++ s.sent) }
    else none
  else some c

def arrived (c : Conn) (r : Role) : Conn :=
  { c with toward := Function.update c.toward r (c.toward r).tail }

def link (c : Conn) (r : Role) : Conn := { c with linked := Function.update c.linked r true }

end Conn

/-- The messages that make a connection the link to the peer. -/
def Msg.opens : Msg → Bool
  | .connect _ | .connectack _ => true
  | _ => false

/-- A second connection is closed, and one to a peer whose clock is too far off. -/
def Server.refuses (s : Server) : Msg → Bool
  | .connect _ => s.linkToPeer
  | .connectack time => s.linkToPeer || s.curTime > time + 60 || time > s.curTime + 60
  | _ => false

/-- `dhcp_failover_state_signal (state, "message", link)`. -/
def Server.receive (s : Server) : Msg → Option Server
  | .connect mclt => s.acceptConnect mclt
  | .connectack _ => s.acceptConnectack
  | .state new startupp => s.dhcpFailoverPeerStateChanged new startupp
  | .updreq | .updreqall => s.dhcpFailoverProcessUpdateRequest
  | .upddone => s.dhcpFailoverProcessUpdateDone

namespace Pair

/-- The server `r` acts, its writes and sendings ending as `io` says. -/
def act (p : Pair) (r : Role) (io : List Bool) (f : Server → Option Server) : Option Pair := do
  let s ← f { p.server r with io := io, sent := [] }
  return { server := Function.update p.server r s, conn := p.conn.bind fun c => c.after r s }

def modify (p : Pair) (r : Role) (f : Server → Server) : Pair :=
  { p with server := Function.update p.server r (f (p.server r)) }

def cut (p : Pair) : Pair := { p with conn := none }

/-- A `CONNECT` is on its way, unless there is a link or a connection. -/
def connect (p : Pair) : Pair :=
  if (p.server .primary).linkToPeer ∨ p.conn.isSome then p
  else
    let msgs := [.connect (p.server .primary).mclt]
    { p with conn := some { toward := Function.update (fun _ => []) .secondary msgs } }

/-- The message `m`, the first on its way to `r` over `c`, arrives. -/
def deliver (p : Pair) (c : Conn) (r : Role) (io : List Bool) (m : Msg) : Option Pair :=
  if (p.server r).refuses m then some p.cut
  else if m.opens then { p with conn := some ((c.arrived r).link r) }.act r io (·.receive m)
  else if c.linked r then { p with conn := some (c.arrived r) }.act r io (·.receive m)
  else some { p with conn := some (c.arrived r) }

inductive Op
  /-- Time passes for one server. -/
  | pass (r : Role) (d : Time)
  /-- Its lease updates come and go. -/
  | bindings (r : Role) (pending : Bool)
  /-- The primary sends a `CONNECT` on a new connection. -/
  | connect
  | deliver (r : Role) (io : List Bool)
  /-- The connection breaks. -/
  | drop
  /-- A server misses the peer: its link is closed or silent, the peer cannot be reached, or it
  has been in startup for too long. -/
  | disconnect (r : Role) (io : List Bool)
  | recoverDone (r : Role) (io : List Bool)
  | updateAcknowledged (r : Role) (io : List Bool)
  /-- The administrator, or `auto_partner_down`, declares the peer down. -/
  | partnerDown (r : Role) (io : List Bool)
  /-- The server is told to shut down, and ends. -/
  | shutdown (r : Role) (io : List Bool)
  | exit (r : Role) (io : List Bool)
  /-- The server is killed and started again, with its lease file or without. -/
  | restart (r : Role) (io : List Bool)
  | reinstall (r : Role) (io : List Bool)

def step (p : Pair) : Op → Option Pair
  | .pass r d => some (p.modify r fun s => { s with curTime := s.curTime + d })
  | .bindings r b => some (p.modify r fun s => { s with pending := b })
  | .connect => some p.connect
  | .deliver r io =>
    match p.conn with
    | none => some p
    | some c =>
      match c.toward r with
      | [] => some p
      | m :: _ => p.deliver c r io m
  | .drop => some p.cut
  | .disconnect r io => p.act r io (·.dhcpFailoverStateTransition .disconnect)
  | .recoverDone r io =>
    if (p.server r).recoverTimeout then
      p.act r io fun s => { s with recoverTimeout := false }.dhcpFailoverRecoverDone
    else some p
  | .updateAcknowledged r io => p.act r io Server.updateAcknowledged
  | .partnerDown r io => p.act r io (·.dhcpFailoverSetState .partnerDown)
  | .shutdown r io =>
    if (p.server r).meState = .normal then p.act r io (·.dhcpFailoverSetState .shutDown)
    else some p
  | .exit r io => p.cut.act r io Server.exit
  | .restart r io => p.cut.act r io Server.restart
  | .reinstall r io =>
    p.cut.act r io fun s => { s with recorded := { stos := s.curTime } }.restart

/-- `none` is a server that ended in a fatal error. -/
def run (p : Pair) : List Op → Option Pair
  | [] => some p
  | op :: ops => (p.step op).bind (run · ops)

/-! ### Runs without a fatal error -/

/-- The message that is to arrive does not report a state its receiver does not expect. -/
def Expects (p : Pair) : Op → Prop
  | .deliver r _ => ∀ c new startupp rest, p.conn = some c → c.linked r →
      c.toward r = .state new startupp :: rest → (p.server r).Expects new
  | _ => True

variable (p : Pair)

lemma act_isSome_iff (r : Role) (io : List Bool) (f : Server → Option Server) :
    (p.act r io f).isSome ↔ (f { p.server r with io := io, sent := [] }).isSome :=
  ⟨fun h => isSome_of_isSome_bind h, fun h => isSome_bind h fun _ => rfl⟩

lemma act_isSome (r : Role) (io : List Bool) {f : Server → Option Server} (hf : ∀ s, (f s).isSome) :
    (p.act r io f).isSome := (p.act_isSome_iff r io f).mpr (hf _)

lemma receive_isSome (s : Server) (m : Msg) (h : ∀ new startupp, m ≠ .state new startupp) :
    (s.receive m).isSome := by
  cases m with
  | connect mclt =>
    refine isSome_bind (Server.dhcpFailoverPutMessage_isSome _ _) fun t => ?_
    split_ifs
    · exact Server.dhcpFailoverSendState_isSome _
    · rfl
  | connectack time =>
    exact Server.dhcpFailoverSendState_isSome { s with linkToPeer := true }
  | state new startupp => exact absurd rfl (h new startupp)
  | updreq => exact s.dhcpFailoverProcessUpdateRequest_isSome
  | updreqall => exact s.dhcpFailoverProcessUpdateRequest_isSome
  | upddone => exact s.dhcpFailoverProcessUpdateDone_isSome

lemma deliver_isSome_iff (c : Conn) (r : Role) (io : List Bool) (m : Msg) :
    (p.deliver c r io m).isSome ↔
      ∀ new startupp, c.linked r → m = .state new startupp → (p.server r).Expects new := by
  by_cases hm : ∃ new startupp, m = .state new startupp
  · obtain ⟨new, startupp, rfl⟩ := hm
    by_cases hl : c.linked r
    · simp [deliver, Server.refuses, Msg.opens, hl, act_isSome_iff, Server.receive,
        Server.dhcpFailoverPeerStateChanged_isSome_iff]
      rfl
    · simp [deliver, Server.refuses, Msg.opens, hl]
  · have hrec : ∀ s : Server, (s.receive m).isSome :=
      fun s => receive_isSome s m fun new startupp h => hm ⟨new, startupp, h⟩
    refine ⟨fun _ new startupp _ h => absurd ⟨new, startupp, h⟩ hm, fun _ => ?_⟩
    unfold deliver
    split_ifs
    · rfl
    · exact act_isSome _ r io hrec
    · exact act_isSome _ r io hrec
    · rfl

/-- **One step**: a server ends in a fatal error exactly when it is told a state of the peer
that it does not expect. -/
lemma step_isSome_iff (op : Op) : (p.step op).isSome ↔ p.Expects op := by
  cases op with
  | deliver r io =>
    rcases hc : p.conn with _ | c
    · simp [step, Expects, hc]
    rcases hm : c.toward r with _ | ⟨m, rest⟩
    · refine iff_of_true (by simp [step, hc, hm]) ?_
      rintro c' new startupp rest hc' - hm'
      cases hc.symm.trans hc'
      simp [hm] at hm'
    · have hstep : p.step (.deliver r io) = p.deliver c r io m := by simp [step, hc, hm]
      rw [hstep, deliver_isSome_iff]
      constructor
      · rintro h c' new startupp rest' hc' hl hm'
        cases hc.symm.trans hc'
        exact h new startupp hl (List.cons.inj (hm.symm.trans hm')).1
      · rintro h new startupp hl rfl
        exact h c new startupp rest hc hl hm
  | recoverDone r io =>
    simp only [Expects, iff_true, step]
    split_ifs
    · exact p.act_isSome r io fun s => Server.dhcpFailoverRecoverDone_isSome _
    · rfl
  | shutdown r io =>
    simp only [Expects, iff_true, step]
    split_ifs
    · exact p.act_isSome r io fun s => s.dhcpFailoverSetState_isSome _
    · rfl
  | disconnect r io =>
    exact iff_of_true (p.act_isSome r io fun s => s.dhcpFailoverStateTransition_isSome _) trivial
  | updateAcknowledged r io =>
    exact iff_of_true (p.act_isSome r io Server.updateAcknowledged_isSome) trivial
  | partnerDown r io =>
    exact iff_of_true (p.act_isSome r io fun s => s.dhcpFailoverSetState_isSome _) trivial
  | exit r io =>
    exact iff_of_true (p.cut.act_isSome r io fun s => isSome_bind s.shutdownDone_isSome
      Server.restart_isSome) trivial
  | restart r io => exact iff_of_true (p.cut.act_isSome r io Server.restart_isSome) trivial
  | reinstall r io =>
    exact iff_of_true (p.cut.act_isSome r io fun s => Server.restart_isSome _) trivial
  | pass r d => exact iff_of_true rfl trivial
  | bindings r b => exact iff_of_true rfl trivial
  | connect => exact iff_of_true rfl trivial
  | drop => exact iff_of_true rfl trivial

/-- **Fatal errors of a pair**: whatever the two servers were, a run ends in no fatal error of
either exactly when every state that arrives is one its receiver expects: in conflict-done,
normal, shutdown, potential-conflict or resolution-interrupted. -/
theorem run_without_fatal_error_iff (p : Pair) (ops : List Op) : (p.run ops).isSome ↔
      ∀ pre op post, ops = pre ++ op :: post → ∀ q, p.run pre = some q → q.Expects op := by
  induction ops generalizing p with
  | nil => simp [run]
  | cons op ops ih =>
    constructor
    · intro h pre op' post hops q hq
      obtain ⟨p', hp', hrun⟩ : ∃ p', p.step op = some p' ∧ (p'.run ops).isSome := by
        rw [run] at h
        obtain ⟨p', hp'⟩ := isSome_iff_exists.mp (isSome_of_isSome_bind h)
        exact ⟨p', hp', by simpa [hp'] using h⟩
      cases pre with
      | nil =>
        cases hops
        cases hq
        exact (step_isSome_iff _ _).mp (by simp [hp'])
      | cons a pre =>
        obtain ⟨rfl, hops'⟩ := List.cons.inj hops
        refine (ih p').mp hrun pre op' post hops' q ?_
        simpa [run, hp'] using hq
    · intro h
      have hstep := (step_isSome_iff p op).mpr (h [] op ops rfl p rfl)
      obtain ⟨p', hp'⟩ := isSome_iff_exists.mp hstep
      rw [run, hp']
      refine (ih p').mpr fun pre op' post hops q hq => ?_
      exact h (op :: pre) op' post (by rw [hops]; rfl) q (by rw [run, hp']; exact hq)

/-- Two servers as they are configured, before they are started. -/
def configured : Pair where
  server r := { iAm := r, mclt := if r = .primary then 3600 else 0 }

/-- Both servers are in partner-down when they connect. They resolve their conflicts, and the
connection breaks when the secondary has come to normal and the primary has not heard of it. -/
def conflictsResolved : List Op :=
  [.restart .primary [], .restart .secondary [], .partnerDown .primary [],
    .partnerDown .secondary [], .connect, .deliver .secondary [], .deliver .primary [],
    .deliver .primary [], .deliver .secondary [], .deliver .secondary [], .deliver .secondary [],
    .deliver .primary [], .deliver .primary [], .deliver .secondary [], .deliver .primary [],
    .deliver .secondary [], .drop, .disconnect .primary [], .disconnect .secondary []]

/-- When they connect again, the secondary reports communications-interrupted, and the primary
ends. -/
theorem conflict_done_fatal : (configured.run conflictsResolved).map
        (fun p => ((p.server .primary).meState, (p.server .secondary).meState)) =
      some (.conflictDone, .communicationsInterrupted) ∧
    (configured.run (conflictsResolved ++
      [.connect, .deliver .secondary [], .deliver .primary []])).isSome ∧
    configured.run (conflictsResolved ++
      [.connect, .deliver .secondary [], .deliver .primary [], .deliver .primary []]) = none := by
  refine ⟨by decide, by decide, ?_⟩
  rw [← isNone_iff_eq_none]
  decide

end Pair

end IscDhcp.Failover
