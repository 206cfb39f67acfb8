import IscDhcp.Failover.Bind

/-!
Load balancing between the two failover servers (`failover.c`): which of them answers a client
in normal state, and which of them is to have a lease so that it can.

A client is hashed into one of 256 buckets, by its packet in `load_balance_mine` and by the lease
that is recorded for it in `peer_wants_lease`. The bits of the bucket array say which buckets the
primary serves; the secondary serves the others.
-/

namespace IscDhcp

variable {ι : Type} [DecidableEq ι]

structure ClientPacket where
  secs : UInt16
  /-- The client identifier, if the packet has the option and it can be evaluated. -/
  clientIdentifier : Option Bytes := none
  htype : UInt8 := 1
  /-- The first `hlen` bytes of the address. -/
  chaddr : Bytes := []
  deriving DecidableEq

def ClientPacket.identification (packet : ClientPacket) : Bytes :=
  packet.clientIdentifier.getD packet.chaddr

/-- Compiled with `SECS_BYTEORDER`, a `secs` field that seems to have been swapped is swapped
back. -/
def elapsed (secsByteorder : Bool) (secs : UInt16) : UInt16 :=
  if secsByteorder && (secs > 255 && secs &&& 0xff == 0) then secs >>> 8 ||| secs <<< 8 else secs

/-- The bucket belongs to a server with this role. -/
def Role.serves (role : Role) (hba : ℕ → Bool) (hbaix : UInt8) : Bool :=
  if role = .primary then hba hbaix.toNat else !hba hbaix.toNat

def loadBalanceMine (secsByteorder : Bool) (loadBalanceMaxSecs : ℤ) (packet : ClientPacket)
    (state : Peer ι) : Bool :=
  let ec := elapsed secsByteorder packet.secs
  if loadBalanceMaxSecs < ec.toNat then true
  else match state.hba with
    | none => false
    | some hba =>
      let hbaix := match packet.clientIdentifier with
        | some ds => loadbPHash ds
        | none => loadbPHash packet.chaddr
      state.iAm.serves hba hbaix

lemma Role.serves_secondary (hba : ℕ → Bool) (hbaix : UInt8) :
    Role.secondary.serves hba hbaix = !Role.primary.serves hba hbaix := rfl

lemma shiftLeft_eq_zero {secs : UInt16} (h : secs &&& 0xff = 0) : secs <<< 8 = 0 := by
  have hand := congrArg UInt16.toNat h
  rw [UInt16.toNat_and, show (0xff : UInt16).toNat = 2 ^ 8 - 1 from rfl,
    Nat.and_two_pow_sub_one_eq_mod] at hand
  have hlow : secs.toNat % 256 = 0 := hand
  apply UInt16.toNat_inj.mp
  rw [UInt16.toNat_shiftLeft]
  simp
  omega

lemma elapsed_le (secsByteorder : Bool) (secs : UInt16) :
    (elapsed secsByteorder secs).toNat ≤ secs.toNat := by
  unfold elapsed
  split_ifs with h
  · simp only [Bool.and_eq_true, beq_iff_eq] at h
    rw [shiftLeft_eq_zero h.2.2, UInt16.or_zero, UInt16.toNat_shiftRight]
    exact Nat.shiftRight_le ..
  · exact le_rfl

variable {state : Peer ι} {packet : ClientPacket} {hba : ℕ → Bool} {secsByteorder : Bool}
  {loadBalanceMaxSecs : ℤ}

omit [DecidableEq ι] in
lemma loadBalanceMine_eq (hh : state.hba = some hba) (hs : packet.secs.toNat ≤ loadBalanceMaxSecs) :
    loadBalanceMine secsByteorder loadBalanceMaxSecs packet state =
      state.iAm.serves hba (loadbPHash packet.identification) := by
  have he : ¬ loadBalanceMaxSecs < (elapsed secsByteorder packet.secs).toNat := by
    have := elapsed_le secsByteorder packet.secs
    omega
  unfold loadBalanceMine ClientPacket.identification
  rw [hh]
  simp only [if_neg he]
  cases packet.clientIdentifier <;> rfl

/-- The lease has the client identifier of the packet for its uid or, if the packet has none, its
hardware address. -/
def Lease.IsOf (lp : Lease) (packet : ClientPacket) : Prop :=
  match packet.clientIdentifier with
  | some ds => lp.uid = some ds
  | none => lp.hardwareAddr = packet.htype :: packet.chaddr

instance (lp : Lease) (packet : ClientPacket) : Decidable (lp.IsOf packet) :=
  match h : packet.clientIdentifier with
  | some ds => decidable_of_iff (lp.uid = some ds) (by simp [Lease.IsOf, h])
  | none =>
      decidable_of_iff (lp.hardwareAddr = packet.htype :: packet.chaddr) (by simp [Lease.IsOf, h])

def Db.Shares (s : Db ι) (lp : Lease) : Prop := ∃ p, lp.pool = some p ∧
    (s.pool p).failoverPeer = true

lemma Db.peerWantsLease_eq {s : Db ι} {lp : Lease} (hh : s.peer.hba = some hba) (hp : s.Shares lp)
    (hl : lp.IsOf packet) (hne : packet.identification ≠ [])
    (hu : packet.clientIdentifier = none → lp.uid.getD [] = []) :
    s.peerWantsLease lp = !s.peer.iAm.serves hba (loadbPHash packet.identification) := by
  obtain ⟨p, hlp, hfp⟩ := hp
  have hrole
    (hbaix : UInt8) : (if s.peer.iAm = .primary then !hba hbaix.toNat else hba hbaix.toNat) =
      !s.peer.iAm.serves hba hbaix := by
    unfold Role.serves
    split_ifs <;> simp
  unfold Lease.IsOf at hl
  unfold ClientPacket.identification at hne ⊢
  unfold Db.peerWantsLease
  simp only [hlp, Option.bind_some, hfp, if_true, hh, hrole]
  cases hc : packet.clientIdentifier with
  | some ds =>
    simp only [hc, Option.getD_some] at hl hne ⊢
    simp [hl, hne]
  | none =>
    simp only [hc, Option.getD_none] at hl hne ⊢
    have hlen : lp.hardwareAddr.length > 1 := by
      rw [hl, List.length_cons]
      have := List.length_pos_iff.mpr hne
      omega
    simp only [hu hc, ne_eq, not_true_eq_false, if_false, hlen, if_true]
    rw [hl, List.tail_cons]

/-- **Load balancing splits the clients.** A client that has not waited too long is answered by
exactly one of the two servers; and a lease that is recorded for a client with a non-empty
identification, and with no uid if the packet has none, is wanted by the peer exactly if the peer
answers the client. -/
theorem load_balance_splits (secsByteorder : Bool) (a b : Db ι) (maxSecsA maxSecsB : ℤ)
    (hba : ℕ → Bool) (packet : ClientPacket) (ha : a.peer.iAm = .primary)
    (hb : b.peer.iAm = .secondary) (hha : a.peer.hba = some hba) (hhb : b.peer.hba = some hba)
    (hsa : packet.secs.toNat ≤ maxSecsA) (hsb : packet.secs.toNat ≤ maxSecsB) :
    Xor (loadBalanceMine secsByteorder maxSecsA packet a.peer = true)
      (loadBalanceMine secsByteorder maxSecsB packet b.peer = true) ∧
    ∀ lp : Lease, lp.IsOf packet → packet.identification ≠ [] →
      (packet.clientIdentifier = none → lp.uid.getD [] = []) →
      (a.Shares lp → (a.peerWantsLease lp = true ↔
        loadBalanceMine secsByteorder maxSecsB packet b.peer = true)) ∧
      (b.Shares lp → (b.peerWantsLease lp = true ↔
        loadBalanceMine secsByteorder maxSecsA packet a.peer = true)) := by
  rw [loadBalanceMine_eq hha hsa, loadBalanceMine_eq hhb hsb, ha, hb, Role.serves_secondary]
  refine ⟨?_, fun lp hl hne hu => ⟨fun hp => ?_, fun hp => ?_⟩⟩
  · cases Role.primary.serves hba (loadbPHash packet.identification) <;> simp
  · rw [Db.peerWantsLease_eq hha hp hl hne hu, ha]
  · rw [Db.peerWantsLease_eq hhb hp hl hne hu, hb, Role.serves_secondary, Bool.not_not]

/-- A server with this role, in normal, with one pool shared with its peer; the primary serves
the first bucket only. -/
def balancing (role : Role) : Db (Fin 1) :=
  { lease := fun _ => {}
    pool := fun _ => { failoverPeer := true }
    peer := { iAm := role, hba := some fun n => n = 0 } }

theorem load_balance_splits_sample :
    let packet : ClientPacket := { secs := 2, chaddr := [0, 17, 34, 51, 68, 85] }
    let lp : Lease := { pool := some 0, hardwareAddr := [1, 0, 17, 34, 51, 68, 85] }
    Xor (loadBalanceMine false 3 packet (balancing .primary).peer = true)
        (loadBalanceMine false 3 packet (balancing .secondary).peer = true) ∧
      ((balancing .primary).peerWantsLease lp = true ↔
        loadBalanceMine false 3 packet (balancing .secondary).peer = true) := by
  intro packet lp
  have h := load_balance_splits false (balancing .primary) (balancing .secondary) 3 3
    (fun n => n = 0) packet rfl rfl rfl rfl (by decide) (by decide)
  exact ⟨h.1, (h.2 lp (by decide) (by decide) (by decide)).1 ⟨0, rfl, rfl⟩⟩

/-- A client that has neither an identifier nor an address is answered by the primary, but the
secondary does not take its lease for one that its peer wants; and a lease whose client used to
send an identifier is wanted by the server that served that identifier. -/
theorem load_balance_disagrees : (let packet : ClientPacket := { secs := 0 }
     let lp : Lease := { pool := some 0, hardwareAddr := [1] }
     lp.IsOf packet ∧ (balancing .secondary).Shares lp ∧
       loadBalanceMine false 3 packet (balancing .primary).peer = true ∧
       (balancing .secondary).peerWantsLease lp = false) ∧
    (let packet : ClientPacket := { secs := 0, chaddr := [0, 17, 34, 51, 68, 85] }
     let lp : Lease :=
       { pool := some 0, uid := some [15], hardwareAddr := [1, 0, 17, 34, 51, 68, 85] }
     lp.IsOf packet ∧ (balancing .secondary).Shares lp ∧
       loadBalanceMine false 3 packet (balancing .primary).peer ≠
         (balancing .secondary).peerWantsLease lp) :=
  ⟨⟨by decide, ⟨0, rfl, rfl⟩, by decide, by decide⟩, ⟨by decide, ⟨0, rfl, rfl⟩, by decide⟩⟩

end IscDhcp
