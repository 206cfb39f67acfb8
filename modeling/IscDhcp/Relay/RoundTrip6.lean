import IscDhcp.Relay.Dhcpv6

/-!
When a reply finds its way back through the DHCPv6 relay.

The Relay-forward names the downstream by its interface-id or by its link address, and the first
downstream with that one gets the reply. An option that does not fit into the Relay-forward is left
out of it, and be it the message itself.
-/

namespace IscDhcp.Relay6

open BigEndian IscDhcp.Lib List Option

/-! ### The options that fit -/

/-- The options that are stored in `n` bytes. -/
def keep : ℕ → List Tlv.Opt → List Tlv.Opt
  | _, [] => []
  | n, o :: os => if o.2.length + 4 ≤ n then o :: keep (n - (o.2.length + 4)) os else keep n os

lemma foldl_addOption6Data (buflen : ℕ) (buf : Bytes) (os : List Tlv.Opt) :
    os.foldl (addOption6Data buflen) buf =
      buf ++ (keep (buflen - buf.length) os).flatMap Tlv.put := by
  induction os generalizing buf with
  | nil => simp [keep]
  | cons o os ih =>
    rw [foldl_cons, ih, keep, addOption6Data]
    by_cases h : o.2.length + 4 ≤ buflen - buf.length
    · have hsub : buflen - (buf ++ Tlv.put o).length = buflen - buf.length - (o.2.length + 4) := by
        rw [length_append, Tlv.length_put]
        omega
      rw [if_neg (by omega), if_pos h, hsub, flatMap_cons, append_assoc]
    · rw [if_pos (by omega), if_neg h]

lemma mem_keep {n : ℕ} {os : List Tlv.Opt} {o : Tlv.Opt} (h : o ∈ keep n os) :
    o ∈ os ∧ o.2.length + 4 ≤ n := by
  induction os generalizing n with
  | nil => simp [keep] at h
  | cons o' os ih =>
    rw [keep] at h
    split_ifs at h with hfit
    · rcases mem_cons.mp h with rfl | h
      · exact ⟨mem_cons_self .., hfit⟩
      · obtain ⟨hm, hl⟩ := ih h
        exact ⟨mem_cons_of_mem _ hm, by omega⟩
    · obtain ⟨hm, hl⟩ := ih h
      exact ⟨mem_cons_of_mem _ hm, hl⟩

lemma parse_storeOptions6 {n : ℕ} (hn : n ≤ 65535) {os : List Tlv.Opt}
    (h : ∀ o ∈ os, o.1 ≠ 0 ∧ o.1 < 65536) : Tlv.parse (storeOptions6 n os) = some (keep n os) := by
  unfold storeOptions6
  rw [foldl_addOption6Data, nil_append]
  refine Tlv.parse_flatMap_put fun o ho => ?_
  obtain ⟨hm, hl⟩ := mem_keep ho
  exact ⟨(h o hm).1, (h o hm).2, by omega⟩

/-! ### The Relay-forward -/

/-- The bytes that are left for the Relay-message option. -/
def room (r : Relay) : ℕ :=
  let n := forwData - 34 - if r.useIfId then 8 else 0
  match r.dhcrelaySubId with
  | none => n
  | some s => if s.length + 4 ≤ n then n - (s.length + 4) else n

def Fits (r : Relay) (p : Packet6) : Prop := p.raw.length + 4 ≤ room r

variable {r : Relay} {p : Packet6} {dp : Stream}

lemma length_intBytes (n : UInt32) : (intBytes n).length = 4 := by simp [intBytes]

lemma intOfBytes_intBytes (n : UInt32) : intOfBytes (intBytes n) = n := by
  unfold intOfBytes intBytes
  rw [reverse_reverse, ofBytes_toBytes]
  have h : n.toNat % 256 ^ 4 = n.toNat := Nat.mod_eq_of_lt n.toNat_lt
  rw [h, UInt32.ofNat_toNat]

/-- The options of the Relay-forward for a known downstream. -/
def knownOptions (r : Relay) (p : Packet6) (dp : Stream) : List Tlv.Opt :=
  (if r.useIfId then [(d6oInterfaceId, intBytes dp.id)] else []) ++
    (r.dhcrelaySubId.map fun s => (d6oSubscriberId, s)).toList ++ [(d6oRelayMsg, p.raw)]

lemma forwOptions_some : forwOptions r p (some dp) = some (knownOptions r p dp) := by
  unfold forwOptions knownOptions
  cases r.useIfId <;> rfl

lemma code_knownOptions {o : Tlv.Opt} (h : o ∈ knownOptions r p dp) : o.1 ≠ 0 ∧ o.1 < 65536 := by
  have hcode : o.1 = d6oInterfaceId ∨ o.1 = d6oSubscriberId ∨ o.1 = d6oRelayMsg := by
    rcases mem_append.mp h with h | h
    · rcases mem_append.mp h with h | h
      · split_ifs at h
        · exact .inl (congrArg Prod.fst (mem_singleton.mp h))
        · cases h
      · obtain ⟨s, -, rfl⟩ := map_eq_some_iff.mp (mem_toList.mp h)
        exact .inr (.inl rfl)
    · exact .inr (.inr (congrArg Prod.fst (mem_singleton.mp h)))
  rcases hcode with h | h | h <;> rw [h] <;> decide

lemma keep_singleton (n : ℕ) (o : Tlv.Opt) :
    keep n [o] = if o.2.length + 4 ≤ n then [o] else [] := rfl

/-- The options that are stored: the Relay-message option comes last. -/
lemma keep_knownOptions (r : Relay) (p : Packet6) (dp : Stream) : ∃ os,
    keep (forwData - 34) (knownOptions r p dp) =
    (if r.useIfId then [(d6oInterfaceId, intBytes dp.id)] else []) ++ os ++
      (if p.raw.length + 4 ≤ room r then [(d6oRelayMsg, p.raw)] else []) ∧
    ∀ o ∈ os, o.1 = d6oSubscriberId := by
  -- the interface-id always fits
  have hid : keep (forwData - 34) (knownOptions r p dp) =
      (if r.useIfId then [(d6oInterfaceId, intBytes dp.id)] else []) ++
        keep (forwData - 34 - if r.useIfId then 8 else 0)
          ((r.dhcrelaySubId.map fun s => (d6oSubscriberId, s)).toList ++
            [(d6oRelayMsg, p.raw)]) := by
    unfold knownOptions
    cases r.useIfId with
    | false => rfl
    | true =>
      rfl
  rw [hid]
  unfold room
  generalize forwData - 34 - (if r.useIfId = true then 8 else 0) = n
  cases r.dhcrelaySubId with
  | none => exact ⟨[], by simp [keep_singleton], by simp⟩
  | some s =>
    simp only [map_some, toList_some, singleton_append, keep]
    by_cases hs : s.length + 4 ≤ n
    · simp only [if_pos hs]
      exact ⟨[(d6oSubscriberId, s)], by simp, by simp⟩
    · simp only [if_neg hs]
      exact ⟨[], by simp, by simp⟩

lemma forwHeader_link {hop : UInt8} {link : In6Addr}
    (h : forwHeader r p (some dp) = some (hop, link)) : link = dp.link := by
  unfold forwHeader at h
  split_ifs at h <;> simp only [map_some, some.injEq, Prod.mk.injEq] at h <;>
    exact h.2.symm

lemma doPacket6_relay (interface : Interface) (from' : In6Addr) {msgType : UInt8}
    (hm : msgType = dhcpv6RelayForw ∨ msgType = dhcpv6RelayRepl) (hop : UInt8)
    (link peer : In6Addr) {b : Bytes} {os : List Tlv.Opt} (hb : Tlv.parse b = some os) :
    doPacket6 interface ([msgType, hop] ++ link.1 ++ peer.1 ++ b) from' =
      some { raw := [msgType, hop] ++ link.1 ++ peer.1 ++ b, interface := interface
             clientAddr := from', msgType := msgType, hopCount := hop, linkAddress := link
             peerAddress := peer, options := os } := by
  have hlen : ([msgType, hop] ++ link.1 ++ peer.1 ++ b).length = 34 + b.length := by
    simp only [length_append, length_cons, length_nil, link.2, peer.2]
  have hdrop : ([msgType, hop] ++ link.1 ++ peer.1 ++ b).drop 34 = b :=
    drop_left' (by
      simp [link.2, peer.2])
  have hlink : (([msgType, hop] ++ link.1 ++ peer.1 ++ b).drop 2).take 16 = link.1 := by
    simp only [append_assoc]
    exact take_left' link.2
  have hpeer : (([msgType, hop] ++ link.1 ++ peer.1 ++ b).drop 18).take 16 = peer.1 := by
    have h18 : ([msgType, hop] ++ link.1).length = 18 := by simp [link.2]
    rw [append_assoc, drop_left' h18, take_left' peer.2]
  have hshort : ¬ ([msgType, hop] ++ link.1 ++ peer.1 ++ b).length < headerLen msgType := by
    rw [headerLen, if_pos hm]
    omega
  show (if h : ([msgType, hop] ++ link.1 ++ peer.1 ++ b).length < headerLen msgType then none
    else _) = _
  rw [dif_neg hshort, dif_pos hm, hdrop, hb, map_some]
  congr 2
  · exact Subtype.ext hlink
  · exact Subtype.ext hpeer

lemma decode_relayForw {fwd : Bytes} (h : relayForw r p (some dp) = some fwd)
    (interface : Interface) (from' : In6Addr) :
    ∃ q, doPacket6 interface fwd from' = some q ∧ q.linkAddress = dp.link ∧
      q.peerAddress = p.clientAddr ∧
      q.lookupOption d6oInterfaceId = (if r.useIfId then some (intBytes dp.id) else none) ∧
      q.lookupOption d6oRelayMsg = (if p.raw.length + 4 ≤ room r then some p.raw else none) := by
  obtain ⟨⟨hop, link⟩, hh, h⟩ := bind_eq_some_iff.mp h
  rw [forwOptions_some] at h
  cases h
  have hlink := forwHeader_link hh
  subst hlink
  refine ⟨_, doPacket6_relay interface from' (.inl rfl) hop dp.link p.clientAddr
    (parse_storeOptions6 (by decide) fun o ho => code_knownOptions ho), rfl, rfl, ?_, ?_⟩
  all_goals
    obtain ⟨os, hk, hos⟩ := keep_knownOptions r p dp
    unfold Packet6.lookupOption
    simp only [hk]
    have hsub (c : ℕ) (hc : c ≠ d6oSubscriberId) : os.find? (fun o => o.1 = c) = none := by
      rw [find?_eq_none]
      intro o ho
      simp only [hos o ho, decide_eq_true_eq]
      exact Ne.symm hc
    rw [find?_append, find?_append, hsub _ (by decide)]
  · split_ifs <;> rfl
  · split_ifs <;> rfl

/-! ### The way back -/

/-- The reply copies what the Relay-forward has, and carries a message for below. -/
structure Answers (q reply : Packet6) (m : Bytes) : Prop where
  msgType : reply.msgType = dhcpv6RelayRepl
  hopCount : reply.hopCount = q.hopCount
  linkAddress : reply.linkAddress = q.linkAddress
  peerAddress : reply.peerAddress = q.peerAddress
  interfaceId : reply.lookupOption d6oInterfaceId = q.lookupOption d6oInterfaceId
  relayMsg : reply.lookupOption d6oRelayMsg = some m
  header : 4 ≤ m.length
  down : m.headD 0 ∈ downTypes

/-- The downstream that gets the reply. -/
def firstLike (r : Relay) (dp : Stream) : Option Stream :=
  r.downstreams.find? fun d => if r.useIfId then d.id = dp.id else d.link = dp.link

lemma exists_firstLike (hdp : dp ∈ r.downstreams) : ∃ d, firstLike r dp = some d := by
  unfold firstLike
  rw [← isSome_iff_exists, find?_isSome]
  exact ⟨dp, hdp, by simp⟩

lemma processDown6_answer {q reply : Packet6} {m : Bytes} (hdp : dp ∈ r.downstreams)
    (ha : Answers q reply m) (hlink : q.linkAddress = dp.link)
    (hid : q.lookupOption d6oInterfaceId = (if r.useIfId then some (intBytes dp.id) else none)) :
    ∃ d, firstLike r dp = some d ∧ processDown6 r reply =
      [{ ifp := d.ifp, dest := q.peerAddress
         port := if m.headD 0 = dhcpv6RelayRepl then r.localPort else r.remotePort
         data := m }] := by
  obtain ⟨d, hd⟩ := exists_firstLike hdp
  refine ⟨d, hd, ?_⟩
  have hdown : downstreamOf r reply = some d := by
    unfold downstreamOf
    rw [ha.interfaceId, hid, ha.linkAddress, hlink]
    unfold firstLike at hd
    cases hu : r.useIfId with
    | true =>
      simp only [hu, if_true] at hd
      simp [length_intBytes, intOfBytes_intBytes, hd]
    | false =>
      simp only [hu, Bool.false_eq_true, if_false] at hd
      simp [hd]
  unfold processDown6
  rw [if_neg (by simp [ha.msgType]), ha.relayMsg]
  simp only [hdown]
  rw [if_neg (by have := ha.header; omega), if_pos ha.down, ha.peerAddress]

/-- A short reply that copies what the Relay-forward has. -/
def sampleReply (q : Packet6) : Packet6 :=
  { q with
    msgType := dhcpv6RelayRepl
    options := (d6oRelayMsg, [dhcpv6Reply, 0, 0, 0]) ::
      ((q.lookupOption d6oInterfaceId).map fun i => (d6oInterfaceId, i)).toList }

lemma answers_sampleReply (q : Packet6) : Answers q (sampleReply q) [dhcpv6Reply, 0, 0, 0] where
  msgType := rfl
  hopCount := rfl
  linkAddress := rfl
  peerAddress := rfl
  interfaceId := by
    unfold sampleReply
    cases q.lookupOption d6oInterfaceId <;> rfl
  relayMsg := rfl
  header := by decide
  down := by decide

/-- **A reply finds its way back exactly if**, whatever the configuration, the message fits into
the Relay-forward and no downstream on another interface comes first with the same interface-id
(with interface-ids) or the same link address (without). -/
theorem relay_roundTrip (r : Relay) (dp : Stream) (hdp : dp ∈ r.downstreams) (p : Packet6)
    (s : Send) (hs : s ∈ processUp6 r p (some dp)) (interface : Interface) (from' : In6Addr) :
    ∃ q, doPacket6 interface s.data from' = some q ∧
      ((q.lookupOption d6oRelayMsg = some p.raw ∧ ∀ reply m, Answers q reply m →
          ∃ port, processDown6 r reply =
            [{ ifp := dp.ifp, dest := p.clientAddr, port := port, data := m }]) ↔
        Fits r p ∧ (firstLike r dp).map Stream.ifp = some dp.ifp) := by
  have hf : relayForw r p (some dp) = some s.data := by
    unfold processUp6 at hs
    split at hs
    · cases hs
    · next data hd =>
      obtain ⟨up, -, rfl⟩ := mem_map.mp hs
      exact hd
  obtain ⟨q, hq, hlink, hpeer, hid, hmsg⟩ := decode_relayForw hf interface from'
  refine ⟨q, hq, ⟨fun ⟨hcarry, hback⟩ => ⟨?_, ?_⟩, fun ⟨hfit, hfirst⟩ => ⟨?_, ?_⟩⟩⟩
  · by_contra hfit
    unfold Fits at hfit
    rw [hmsg, if_neg hfit] at hcarry
    cases hcarry
  · obtain ⟨port, hdown⟩ := hback _ _ (answers_sampleReply q)
    obtain ⟨d, hd, hdown'⟩ := processDown6_answer hdp (answers_sampleReply q) hlink hid
    rw [hdown] at hdown'
    rw [hd, map_some]
    simp only [cons.injEq, Send.mk.injEq] at hdown'
    rw [hdown'.1.1]
  · rw [hmsg]
    exact if_pos hfit
  · intro reply m ha
    obtain ⟨d, hd, hdown⟩ := processDown6_answer hdp ha hlink hid
    rw [hd, map_some] at hfirst
    rw [some.inj hfirst, hpeer] at hdown
    exact ⟨_, hdown⟩

def sampleAddr (x : UInt8) : In6Addr := ⟨0x20 :: List.replicate 14 0 ++ [x], by simp⟩

def sampleInterface (x : UInt8) : Interface :=
  { name := [x], index := x.toUInt32, v6addresses := [sampleAddr x] }

/-- Two downstreams, with the numbers given. -/
def sampleRelay (i j : UInt32) : Relay :=
  { downstreams := [{ ifp := sampleInterface 1, id := i }, { ifp := sampleInterface 2, id := j }]
    upstreams := [{ ifp := sampleInterface 3, link := sampleAddr 9 }], useIfId := true }

/-- The downstream of the sample that a message comes from. -/
def sampleDownstream (j : UInt32) : Stream :=
  { ifp := sampleInterface 2, link := sampleAddr 2, id := j }

def sampleSolicit : Packet6 :=
  { raw := [dhcpv6Solicit, 1, 2, 3], interface := sampleInterface 2, clientAddr := sampleAddr 7
    msgType := dhcpv6Solicit }

def sampleSetUp (i j : UInt32) : Relay :=
  { sampleRelay i j with
    downstreams :=
      [{ ifp := sampleInterface 1, link := sampleAddr 1, id := i }, sampleDownstream j] }

def sampleForward (j : UInt32) : Send :=
  { ifp := sampleInterface 3, dest := sampleAddr 9, port := 547
    data := [dhcpv6RelayForw, 0] ++ (sampleAddr 2).1 ++ (sampleAddr 7).1 ++
      Tlv.put (d6oInterfaceId, intBytes j) ++ Tlv.put (d6oRelayMsg, [dhcpv6Solicit, 1, 2, 3]) }

/-- With numbers of their own the downstreams get their replies. -/
theorem relay_roundTrip_sample : (setupStreams (sampleRelay 5 6)).map Relay.downstreams =
        some (sampleSetUp 5 6).downstreams ∧
      ∃ q, doPacket6 (sampleInterface 4) (sampleForward 6).data (sampleAddr 8) = some q ∧
        ((q.lookupOption d6oRelayMsg = some sampleSolicit.raw ∧ ∀ reply m, Answers q reply m →
            ∃ port, processDown6 (sampleSetUp 5 6) reply =
              [{ ifp := sampleInterface 2, dest := sampleAddr 7, port := port, data := m }]) ↔
          Fits (sampleSetUp 5 6) sampleSolicit ∧
            (firstLike (sampleSetUp 5 6) (sampleDownstream 6)).map Stream.ifp =
              some (sampleInterface 2)) :=
  ⟨by decide +kernel, relay_roundTrip (sampleSetUp 5 6) (sampleDownstream 6) (by decide +kernel)
    sampleSolicit (sampleForward 6) (by decide +kernel) (sampleInterface 4) (sampleAddr 8)⟩

/-- Two downstreams with the same number are accepted, and the reply to a message from the second
one goes out of the first. -/
theorem relay_reply_astray : (setupStreams (sampleRelay 5 5)).map Relay.downstreams =
        some (sampleSetUp 5 5).downstreams ∧
      sampleForward 5 ∈ processUp6 (sampleSetUp 5 5) sampleSolicit (some (sampleDownstream 5)) ∧
      ∃ q, doPacket6 (sampleInterface 4) (sampleForward 5).data (sampleAddr 8) = some q ∧
        Answers q (sampleReply q) [dhcpv6Reply, 0, 0, 0] ∧
        processDown6 (sampleSetUp 5 5) (sampleReply q) =
          [{ ifp := sampleInterface 1, dest := sampleAddr 7, port := 546
             data := [dhcpv6Reply, 0, 0, 0] }] := by
  have hf : relayForw (sampleSetUp 5 5) sampleSolicit (some (sampleDownstream 5)) =
      some (sampleForward 5).data := by decide +kernel
  have hfirst : (firstLike (sampleSetUp 5 5) (sampleDownstream 5)).map Stream.ifp =
      some (sampleInterface 1) := by decide +kernel
  obtain ⟨q, hq, hlink, hpeer, hid, -⟩ := decode_relayForw hf (sampleInterface 4) (sampleAddr 8)
  obtain ⟨d, hd, hdown⟩ := processDown6_answer (by decide +kernel) (answers_sampleReply q) hlink hid
  rw [hd, map_some] at hfirst
  rw [some.inj hfirst, hpeer] at hdown
  exact ⟨by decide +kernel, by decide +kernel, q, hq, answers_sampleReply q, hdown⟩

end IscDhcp.Relay6
