import IscDhcp.Relay.RoundTrip6

/-!
Relay-forward messages at the server (`dhcpv6_relay_forw` in `server/dhcpv6.c`, without DHCPv4 over
DHCPv6). The message in a Relay-forward is answered first; the answer goes into a Relay-reply with
the header of the Relay-forward, its interface-id and the options it asks to be echoed.
-/

namespace IscDhcp.Relay6

open BigEndian IscDhcp.Lib List Option Function

def d6oVendorOpts : ℕ := 17
def d6oEro : ℕ := 43

/-- `required_opts_agent`. -/
def requiredOptsAgent : List ℕ := [d6oInterfaceId, d6oRelayMsg]

/-- The messages of clients, as `build_dhcpv6_reply` knows them. -/
def ofClient (t : UInt8) : Bool := t ∈ upTypes && t ≠ dhcpv6RelayForw && t ≠ dhcpv6Dhcpv4Query

section

variable (p : Packet6)

/-- The echo-request option, and the codes in it. -/
def Packet6.ero : Bytes := (p.lookupOption d6oEro).getD []
def Packet6.requests : List ℕ := words 2 (p.ero.length / 2) p.ero

/-- An option that is asked for is echoed, unless it is in the reply already. -/
def echo (state : ℕ → Option Bytes) (req : ℕ) : ℕ → Option Bytes :=
  if (state req).isSome then state else Function.update state req (p.lookupOption req)

/-- `opt_state` for the answer `enc`. -/
def optState (enc : Bytes) : ℕ → Option Bytes :=
  let state := Function.update (fun _ => none) d6oInterfaceId (p.lookupOption d6oInterfaceId)
  p.requests.foldl (echo p) (Function.update state d6oRelayMsg (some enc))

/-- What `store_options6` stores of it. There are no vendor options of other spaces. -/
def replyOptions (enc : Bytes) : List Tlv.Opt :=
  (requiredOptsAgent ++ p.requests.filter fun c => c ∉ requiredOptsAgent ∧ c ≠ d6oVendorOpts)
    |>.filterMap fun c => (optState p enc c).map (c, ·)

/-- The size of `reply_data`. -/
def replySize : ℕ := 65536

def replyHeader : Bytes := [dhcpv6RelayRepl, p.hopCount] ++ p.linkAddress.1 ++ p.peerAddress.1

def relayReply (enc : Bytes) : Bytes :=
  replyHeader p ++ storeOptions6 (replySize - 34) (replyOptions p enc)

/-- The packet in the Relay-message option. -/
def encPacket : Option Packet6 := do
  let enc ← p.lookupOption d6oRelayMsg
  let q ← doPacket6 p.interface enc p.clientAddr
  if q.msgType = dhcpv6Dhcpv4Query ∨ q.msgType = dhcpv6Dhcpv4Response then none else some q

/-- `build_dhcpv6_reply` for the first packet; the others are those around it. All levels write to
one static buffer, the last argument. `answer` is what is done about the message of a client. -/
def buildDhcpv6Reply (answer : List Packet6 → Option Bytes) :
    ℕ → List Packet6 → Bytes → Option Bytes × Bytes
  | n + 1, p :: around, buf =>
    if p.msgType = dhcpv6RelayForw then
      match encPacket p with
      | none => (none, buf)
      | some q =>
        match buildDhcpv6Reply answer n (q :: p :: around) buf with
        | (none, buf) => (none, buf)
        | (some enc, buf) =>
          if p.ero.length % 2 = 1 then (none, replyHeader p ++ buf.drop 34)
          else
            let reply := relayReply p enc
            let buf := reply ++ buf.drop reply.length
            (some (buf.take reply.length), buf)
    else (if ofClient p.msgType then answer (p :: around) else none, buf)
  | _, _, buf => (none, buf)

/-! ### One level -/

/-- What a level has to say to the relay that is to get it. -/
def Packet6.level : UInt8 × In6Addr × In6Addr × Option Bytes :=
  (p.hopCount, p.linkAddress, p.peerAddress, p.lookupOption d6oInterfaceId)

/-- The interface-id and the answer fit into the Relay-reply. -/
def EncFits (enc : Bytes) : Prop :=
  (p.lookupOption d6oInterfaceId).elim 0 (·.length + 4) + (enc.length + 4) ≤ replySize - 34

end

variable {p : Packet6} {enc : Bytes}

lemma foldl_echo (p : Packet6) (reqs : List ℕ) (state : ℕ → Option Bytes) (c : ℕ) :
    reqs.foldl (echo p) state c =
      (state c).or (if c ∈ reqs then p.lookupOption c else none) := by
  induction reqs generalizing state with
  | nil => simp
  | cons req reqs ih =>
    rw [foldl_cons, ih, echo]
    by_cases hc : c = req
    · subst hc
      cases h : state c <;> cases p.lookupOption c <;> simp [h]
    · split_ifs <;> simp_all

lemma replyOptions_eq (p : Packet6) (enc : Bytes) : ∃ rest, replyOptions p enc =
    ((p.lookupOption d6oInterfaceId).map (d6oInterfaceId, ·)).toList ++ (d6oRelayMsg, enc) :: rest ∧
      ∀ o ∈ rest, o.1 ∉ requiredOptsAgent ∧ p.lookupOption o.1 = some o.2 := by
  have hid : optState p enc d6oInterfaceId = p.lookupOption d6oInterfaceId := by
    rw [optState, foldl_echo, update_of_ne (by decide), update_self]
    split_ifs <;> simp
  have hmsg : optState p enc d6oRelayMsg = some enc := by
    rw [optState, foldl_echo, update_self, some_or]
  have hreq : (requiredOptsAgent.filterMap fun c => (optState p enc c).map (c, ·)) =
      ((p.lookupOption d6oInterfaceId).map (d6oInterfaceId, ·)).toList ++ [(d6oRelayMsg, enc)] := by
    simp only [requiredOptsAgent, filterMap_cons, hid, hmsg]
    cases p.lookupOption d6oInterfaceId <;> rfl
  refine ⟨_, by rw [replyOptions, filterMap_append, hreq, append_assoc]; rfl, ?_⟩
  intro o ho
  obtain ⟨c, hc, ho⟩ := mem_filterMap.mp ho
  obtain ⟨v, hv, rfl⟩ := map_eq_some_iff.mp ho
  have hnot := (of_decide_eq_true (mem_filter.mp hc).2).1
  refine ⟨hnot, ?_⟩
  simp only [requiredOptsAgent, mem_cons, not_mem_nil, or_false, not_or] at hnot
  rw [optState, foldl_echo, update_of_ne hnot.2, update_of_ne hnot.1,
    none_or, if_pos (mem_filter.mp hc).1] at hv
  exact hv

lemma mem_of_lookupOption {c : ℕ} {v : Bytes} (h : p.lookupOption c = some v) :
    (c, v) ∈ p.options := by
  obtain ⟨o, ho, rfl⟩ := map_eq_some_iff.mp h
  obtain rfl : o.1 = c := by simpa using find?_some ho
  exact mem_of_find?_eq_some ho

lemma lookup_keep (hfit : EncFits p enc) :
    let lookup code := ((keep (replySize - 34) (replyOptions p enc)).find? fun o => o.1 = code).map
      Prod.snd
    lookup d6oRelayMsg = some enc ∧ lookup d6oInterfaceId = p.lookupOption d6oInterfaceId := by
  obtain ⟨rest, heq, hrest⟩ := replyOptions_eq p enc
  unfold EncFits at hfit
  rw [heq]
  cases hi : p.lookupOption d6oInterfaceId with
  | none =>
    rw [hi, elim_none, Nat.zero_add] at hfit
    rw [map_none, toList_none, nil_append, keep, if_pos hfit]
    refine ⟨rfl, congrArg (Option.map _) (show (keep _ rest).find? _ = none from ?_)⟩
    refine find?_eq_none.mpr fun o ho => ?_
    have hreq := (hrest o (mem_keep ho).1).1
    simpa using fun (h : o.1 = d6oInterfaceId) => hreq (h ▸ mem_cons_self)
  | some i =>
    rw [hi, elim_some] at hfit
    rw [map_some, toList_some, singleton_append, keep, keep,
      if_pos (show i.length + 4 ≤ _ by omega),
      if_pos (show enc.length + 4 ≤ _ - (i.length + 4) by omega)]
    exact ⟨rfl, rfl⟩

/-- The Relay-reply says what the Relay-forward says, if the answer fits. -/
lemma decode_relayReply (hp : ∀ o ∈ p.options, o.1 ≠ 0 ∧ o.1 < 65536) (hfit : EncFits p enc)
    (ifp : Interface) (from' : In6Addr) : ∃ q, doPacket6 ifp (relayReply p enc) from' = some q ∧
      q.msgType = dhcpv6RelayRepl ∧ q.lookupOption d6oRelayMsg = some enc ∧ q.level = p.level := by
  obtain ⟨rest, heq, hrest⟩ := replyOptions_eq p enc
  have hcodes : ∀ o ∈ replyOptions p enc, o.1 ≠ 0 ∧ o.1 < 65536 := by
    rw [heq]
    intro o ho
    rcases mem_append.mp ho with ho | ho
    · obtain ⟨v, hv, rfl⟩ := map_eq_some_iff.mp (mem_toList.mp ho)
      exact hp _ (mem_of_lookupOption hv)
    · rcases mem_cons.mp ho with rfl | ho
      · exact ⟨Nat.succ_ne_zero 8, Nat.lt_of_sub_eq_succ rfl⟩
      · exact hp _ (mem_of_lookupOption (hrest o ho).2)
  refine ⟨_, doPacket6_relay ifp from' (.inr rfl) p.hopCount p.linkAddress p.peerAddress
    (parse_storeOptions6 (by decide) hcodes), rfl, (lookup_keep hfit).1, ?_⟩
  exact congrArg (fun x => (p.hopCount, p.linkAddress, p.peerAddress, x)) (lookup_keep hfit).2

lemma doPacket6_some {ifp : Interface} {b : Bytes} {from' : In6Addr}
    (h : doPacket6 ifp b from' = some p) : p.interface = ifp ∧ p.clientAddr = from' ∧
      ∀ o ∈ p.options, o.1 ≠ 0 ∧ o.1 < 65536 := by
  unfold doPacket6 at h
  split at h
  · cases h
  · split_ifs at h <;> obtain ⟨os, hos, rfl⟩ := map_eq_some_iff.mp h <;>
      exact ⟨rfl, rfl, Tlv.code_of_parse hos⟩

/-! ### All levels -/

/-- In the message `b` there are the levels `ps` of the type around `m`, the outermost first. -/
inductive Nested (type : UInt8) (ifp : Interface) (from' : In6Addr) (m : Bytes) :
    List Packet6 → Bytes → Prop
  | nil : Nested type ifp from' m [] m
  | cons {p : Packet6} {ps : List Packet6} {b inner : Bytes} (hp : doPacket6 ifp b from' = some p)
      (ht : p.msgType = type) (hi : p.lookupOption d6oRelayMsg = some inner)
      (h : Nested type ifp from' m ps inner) : Nested type ifp from' m (p :: ps) b

/-- All answers fit into the Relay-replies around them. -/
def AllFit (r : Bytes) : List Packet6 → Prop
  | [] => True
  | p :: ps => EncFits p (ps.foldr relayReply r) ∧ AllFit r ps

section

variable {ifp : Interface} {from' : In6Addr} {m r b : Bytes} {ps : List Packet6} {q : Packet6}
  (h : Nested dhcpv6RelayForw ifp from' m ps b)

include h

lemma Nested.mirrored (hfit : AllFit r ps) :
    ∃ qs, Nested dhcpv6RelayRepl ifp from' r qs (ps.foldr relayReply r) ∧
      qs.map Packet6.level = ps.map Packet6.level := by
  induction h with
  | nil => exact ⟨[], .nil, rfl⟩
  | cons hp _ _ _ ih =>
    obtain ⟨qs, hqs, hl⟩ := ih hfit.2
    obtain ⟨q, hq, ht, hm, hlevel⟩ := decode_relayReply (doPacket6_some hp).2.2 hfit.1 ifp from'
    exact ⟨q :: qs, .cons hq ht hm hqs, by rw [map_cons, map_cons, hlevel, hl]⟩

variable (hq : doPacket6 ifp m from' = some q) (hc : ofClient q.msgType)

include hq hc

lemma Nested.packet : ∃ p, doPacket6 ifp b from' = some p ∧
    ¬ (p.msgType = dhcpv6Dhcpv4Query ∨ p.msgType = dhcpv6Dhcpv4Response) := by
  cases h with
  | nil =>
    refine ⟨q, hq, ?_⟩
    rintro (ht | ht) <;> rw [ht] at hc <;> revert hc <;> decide
  | cons hp ht => exact ⟨_, hp, by rw [ht]; decide⟩

/-- The levels are answered from within, up to one with half a code in its echo-request. -/
lemma Nested.build (hb : doPacket6 ifp b from' = some p) {answer : List Packet6 → Option Bytes}
    {around : List Packet6} (ha : answer (q :: (ps.reverse ++ around)) = some r) {n : ℕ}
    (hn : ps.length < n) (buf : Bytes) : (buildDhcpv6Reply answer n (p :: around) buf).1 =
      if ∀ p ∈ ps, p.ero.length % 2 = 0 then some (ps.foldr relayReply r) else none := by
  induction h generalizing p around n with
  | nil =>
    obtain ⟨n, rfl⟩ := Nat.exists_eq_add_one.mpr hn
    obtain rfl := some.inj (hb.symm.trans hq)
    have hf : p.msgType ≠ dhcpv6RelayForw := fun ht => by rw [ht] at hc; revert hc; decide
    rw [buildDhcpv6Reply, if_neg hf, if_pos hc]
    simpa using ha
  | @cons p' ps _ inner hp ht hi h ih =>
    obtain ⟨n, rfl⟩ := Nat.exists_eq_add_one.mpr (Nat.zero_lt_of_lt hn)
    obtain rfl := some.inj (hb.symm.trans hp)
    obtain ⟨hifp, hfrom, -⟩ := doPacket6_some hp
    obtain ⟨q', hq', hv4⟩ := h.packet hq hc
    have henc : encPacket p = some q' := by simp [encPacket, hi, hifp, hfrom, hq', hv4]
    have ha : answer (q :: (ps.reverse ++ p :: around)) = some r := by simpa using ha
    have hrec := ih hq' ha (Nat.lt_of_succ_lt_succ hn)
    rw [buildDhcpv6Reply, if_pos ht, henc]
    dsimp only
    rcases hres : buildDhcpv6Reply answer n (q' :: p :: around) buf with ⟨x, buf'⟩
    rw [hres] at hrec
    obtain rfl := hrec
    simp only [forall_mem_cons]
    by_cases hps : ∀ p ∈ ps, p.ero.length % 2 = 0
    · by_cases he : p.ero.length % 2 = 1
      · rw [if_pos hps, if_neg (by omega)]
        simp [he]
      · rw [if_pos hps, if_pos ⟨by omega, hps⟩]
        simp [he]
    · rw [if_neg hps, if_neg fun h => hps h.2]

/-- **Nesting is mirrored**: if all answers fit, a Relay-forward is answered with as many levels
around the answer to the client, and what each of them says is what the Relay-forward says there,
exactly if no echo-request ends in half a code. If one does, there is no answer at all. -/
theorem Nested.reply_iff (hb : doPacket6 ifp b from' = some p)
    (answer : List Packet6 → Option Bytes)
    (ha : answer (q :: ps.reverse) = some r) (hfit : AllFit r ps) (n : ℕ) (hn : ps.length < n)
    (buf : Bytes) : ((∃ reply qs, (buildDhcpv6Reply answer n [p] buf).1 = some reply ∧
        Nested dhcpv6RelayRepl ifp from' r qs reply ∧ qs.map Packet6.level = ps.map Packet6.level) ↔
      ∀ p ∈ ps, p.ero.length % 2 = 0) ∧
      ((∃ p ∈ ps, p.ero.length % 2 ≠ 0) → (buildDhcpv6Reply answer n [p] buf).1 = none) := by
  rw [h.build hq hc hb (by simpa using ha) hn]
  refine ⟨⟨?_, fun he => ?_⟩, fun ⟨p, hp, he⟩ => if_neg fun hall => he (hall p hp)⟩
  · rintro ⟨reply, qs, hr, -⟩
    by_contra he
    rw [if_neg he] at hr
    cases hr
  · obtain ⟨qs, hqs, hl⟩ := h.mirrored hfit
    exact ⟨_, qs, if_pos he, hqs, hl⟩

end

def sampleOptions (ero : Bytes) : List Tlv.Opt :=
  [(d6oEro, ero), (d6oInterfaceId, [5]), (d6oRelayMsg, [dhcpv6Solicit, 1, 2, 3])]

/-- A Relay-forward around a Solicit. -/
def sampleForw (ero : Bytes) : Packet6 :=
  { raw := [dhcpv6RelayForw, 0] ++ (sampleAddr 2).1 ++ (sampleAddr 7).1 ++
      (sampleOptions ero).flatMap Tlv.put
    interface := sampleInterface 4, clientAddr := sampleAddr 8, msgType := dhcpv6RelayForw
    linkAddress := sampleAddr 2, peerAddress := sampleAddr 7, options := sampleOptions ero }

lemma doPacket6_sampleForw (ero : Bytes) (h : Tlv.parse ((sampleOptions ero).flatMap Tlv.put) =
    some (sampleOptions ero)) :
    doPacket6 (sampleInterface 4) (sampleForw ero).raw (sampleAddr 8) = some (sampleForw ero) :=
  doPacket6_relay _ _ (.inl rfl) 0 _ _ h

lemma doPacket6_solicit : doPacket6 (sampleInterface 4) [dhcpv6Solicit, 1, 2, 3] (sampleAddr 8) =
    some { raw := [dhcpv6Solicit, 1, 2, 3], interface := sampleInterface 4
           clientAddr := sampleAddr 8, msgType := dhcpv6Solicit } := by
  simp [doPacket6, headerLen, dhcpv6Solicit, dhcpv6RelayForw, dhcpv6RelayRepl]

/-- The interface-id is asked for in the echo-request, and given once. -/
theorem Nested.reply_iff_sample : ∃ reply qs,
    (buildDhcpv6Reply (fun _ => some [dhcpv6Reply, 1, 2, 3]) 2 [sampleForw [0, 18]] []).1 =
        some reply ∧
      Nested dhcpv6RelayRepl (sampleInterface 4) (sampleAddr 8) [dhcpv6Reply, 1, 2, 3] qs reply ∧
        qs.map Packet6.level = [sampleForw [0, 18]].map Packet6.level :=
  have hb := doPacket6_sampleForw [0, 18] (by decide +kernel)
  (Nested.reply_iff (.cons hb rfl rfl .nil) doPacket6_solicit rfl hb _ rfl
    ⟨by unfold EncFits; decide, trivial⟩ 2 (by decide) []).1.mpr (by decide)

/-- An echo-request of one byte leaves the client without an answer. -/
theorem reply_none_of_odd_ero :
    Nested dhcpv6RelayForw (sampleInterface 4) (sampleAddr 8) [dhcpv6Solicit, 1, 2, 3]
        [sampleForw [7]] (sampleForw [7]).raw ∧
      (buildDhcpv6Reply (fun _ => some [dhcpv6Reply, 1, 2, 3]) 2 [sampleForw [7]] []).1 = none :=
  have hb := doPacket6_sampleForw [7] (by decide +kernel)
  ⟨.cons hb rfl rfl .nil, by decide +kernel⟩

end IscDhcp.Relay6
