import IscDhcp.Basic
import IscDhcp.Lib.Tlv

/-!
The DHCPv6 relay of `dhcrelay.c`: messages from the downstream interfaces are wrapped into
Relay-forward messages for the servers, and what a server wraps into a Relay-reply is sent out of
the downstream interface that the reply names.
-/

namespace IscDhcp.Relay6

open BigEndian IscDhcp.Lib

abbrev In6Addr := { b : Bytes // b.length = 16 }

def In6Addr.zero : In6Addr := ⟨List.replicate 16 0, rfl⟩

def In6Addr.isLinklocal (a : In6Addr) : Bool :=
  a.1.head? = some 0xfe && (a.1.tail.head?.any fun x => x.toNat / 64 = 2)

structure Interface where
  name : Bytes
  index : UInt32
  v6addresses : List In6Addr
  deriving DecidableEq

/-- A downstream or an upstream. The number `-1` is for a downstream without one of its own. -/
structure Stream where
  ifp : Interface
  link : In6Addr := In6Addr.zero
  id : UInt32 := 0xffffffff
  deriving DecidableEq

/-! ### Message types and options -/

def dhcpv6Solicit : UInt8 := 1
def dhcpv6Advertise : UInt8 := 2
def dhcpv6Request : UInt8 := 3
def dhcpv6Confirm : UInt8 := 4
def dhcpv6Renew : UInt8 := 5
def dhcpv6Rebind : UInt8 := 6
def dhcpv6Reply : UInt8 := 7
def dhcpv6Release : UInt8 := 8
def dhcpv6Decline : UInt8 := 9
def dhcpv6Reconfigure : UInt8 := 10
def dhcpv6InformationRequest : UInt8 := 11
def dhcpv6RelayForw : UInt8 := 12
def dhcpv6RelayRepl : UInt8 := 13
def dhcpv6Leasequery : UInt8 := 14
def dhcpv6LeasequeryReply : UInt8 := 15
def dhcpv6Dhcpv4Query : UInt8 := 20
def dhcpv6Dhcpv4Response : UInt8 := 21

/-- The types that are relayed to the servers. -/
def upTypes : List UInt8 :=
  [dhcpv6Solicit, dhcpv6Request, dhcpv6Confirm, dhcpv6Renew, dhcpv6Rebind, dhcpv6Release,
    dhcpv6Decline, dhcpv6InformationRequest, dhcpv6RelayForw, dhcpv6Leasequery, dhcpv6Dhcpv4Query]

/-- The types that are relayed to the clients, or to the next relay. -/
def downTypes : List UInt8 :=
  [dhcpv6RelayRepl, dhcpv6Advertise, dhcpv6Reply, dhcpv6Reconfigure, dhcpv6RelayForw,
    dhcpv6LeasequeryReply, dhcpv6Dhcpv4Response]

def d6oRelayMsg : ℕ := 9
def d6oInterfaceId : ℕ := 18
def d6oSubscriberId : ℕ := 38

/-- A number as it is in memory. -/
def intBytes (n : UInt32) : Bytes := (toBytes 4 n.toNat).reverse

def intOfBytes (b : Bytes) : UInt32 := UInt32.ofNat (ofBytes b.reverse)

/-! ### Packets -/

structure Packet6 where
  raw : Bytes
  interface : Interface
  clientAddr : In6Addr
  msgType : UInt8
  hopCount : UInt8 := 0
  linkAddress : In6Addr := In6Addr.zero
  peerAddress : In6Addr := In6Addr.zero
  options : List Tlv.Opt := []

/-- The first option with the code. -/
def Packet6.lookupOption (p : Packet6) (code : ℕ) : Option Bytes :=
  (p.options.find? fun o => o.1 = code).map Prod.snd

def headerLen (msgType : UInt8) : ℕ :=
  if msgType = dhcpv6RelayForw ∨ msgType = dhcpv6RelayRepl then 34 else 4

lemma le_length_of_relay {packet : Bytes} {msgType : UInt8}
    (h : ¬ packet.length < headerLen msgType)
    (hr : msgType = dhcpv6RelayForw ∨ msgType = dhcpv6RelayRepl) : 34 ≤ packet.length := by
  rw [headerLen, if_pos hr] at h
  exact not_lt.mp h

def addrAt (b : Bytes) (i : ℕ) (h : i + 16 ≤ b.length) : In6Addr :=
  ⟨(b.drop i).take 16, by rw [List.length_take, List.length_drop]; omega⟩

/-- `do_packet6`, as far as the call of `dhcpv6`; `none` if the packet is dropped. -/
def doPacket6 (interface : Interface) (packet : Bytes) (from' : In6Addr) : Option Packet6 :=
  match packet with
  | [] => none
  | msgType :: _ =>
    if h : packet.length < headerLen msgType then none
    else if hr : msgType = dhcpv6RelayForw ∨ msgType = dhcpv6RelayRepl then
      (Tlv.parse (packet.drop 34)).map fun options =>
        { raw := packet, interface := interface, clientAddr := from', msgType := msgType
          hopCount := packet.getD 1 0
          linkAddress := addrAt packet 2 ((Nat.le_add_left 18 16).trans (le_length_of_relay h hr))
          peerAddress := addrAt packet 18 (le_length_of_relay h hr)
          options := options }
    else
      (Tlv.parse (packet.drop 4)).map fun options =>
        { raw := packet, interface := interface, clientAddr := from', msgType := msgType
          options := options }

/-! ### The relay -/

structure Relay where
  downstreams : List Stream
  upstreams : List Stream
  useIfId : Bool := false
  dhcrelaySubId : Option Bytes := none
  maxHopCount : ℕ := 10
  localPort : ℕ := 547
  remotePort : ℕ := 546

/-- The link address of a downstream: the one that is configured, if the interface has it, or the
first one of the interface that is not of the link. -/
def setLink (dp : Stream) : Option In6Addr :=
  let addresses := dp.ifp.v6addresses.filter fun a => !a.isLinklocal
  if dp.link = In6Addr.zero then addresses.head?
  else if dp.link ∈ addresses then some dp.link else none

def setupStream (dp : Stream) : Option Stream := do
  let link ← setLink dp
  pure { dp with link := link, id := if dp.id = 0xffffffff then dp.ifp.index else dp.id }

section

variable (r : Relay)

/-- `none` if the relay does not start. -/
def setupStreams : Option Relay := do
  let downstreams ← r.downstreams.mapM setupStream
  if r.upstreams.any (·.ifp.v6addresses.isEmpty) then none
  else pure { r with downstreams := downstreams }

structure Send where
  ifp : Interface
  dest : In6Addr
  port : ℕ
  data : Bytes
  deriving DecidableEq

/-- An option that does not fit is left out. -/
def addOption6Data (buflen : ℕ) (buf : Bytes) (o : Tlv.Opt) : Bytes :=
  if o.2.length + 4 > buflen - buf.length then buf else buf ++ Tlv.put o

/-- `store_options6` for the options of a Relay-forward. -/
def storeOptions6 (buflen : ℕ) (opts : List Tlv.Opt) : Bytes :=
  opts.foldl (addOption6Data buflen) []

/-- The size of the buffer for a Relay-forward. -/
def forwData : ℕ := 65535

/-- The options of a Relay-forward, in the order of `required_forw_opts`; `none` if the interface
is not known. -/
def forwOptions (p : Packet6) (dp : Option Stream) : Option (List Tlv.Opt) := do
  let ifId ← if r.useIfId then
      match dp, r.downstreams with
      | some dp, _ => some [(d6oInterfaceId, intBytes dp.id)]
      | none, [dp] => some [(d6oInterfaceId, intBytes dp.id)]
      | none, _ => none
    else some []
  let subId := (r.dhcrelaySubId.map fun s => (d6oSubscriberId, s)).toList
  pure (ifId ++ subId ++ [(d6oRelayMsg, p.raw)])

/-- The hop count and the link address of a Relay-forward; `none` if the packet is not relayed. -/
def forwHeader (p : Packet6) (dp : Option Stream) : Option (UInt8 × In6Addr) :=
  if p.msgType ∉ upTypes then none
  else if p.msgType = dhcpv6RelayForw then
    if p.hopCount.toNat ≥ r.maxHopCount then none
    else
      match dp with
      | some dp => some (p.hopCount + 1, dp.link)
      | none =>
        if !r.useIfId && r.downstreams.length > 1 then none
        else some (p.hopCount + 1, In6Addr.zero)
  else dp.map fun dp => (0, dp.link)

def relayForw (p : Packet6) (dp : Option Stream) : Option Bytes := do
  let (hopCount, link) ← forwHeader r p dp
  let opts ← forwOptions r p dp
  pure ([dhcpv6RelayForw, hopCount] ++ link.1 ++ p.clientAddr.1 ++
    storeOptions6 (forwData - 34) opts)

def processUp6 (p : Packet6) (dp : Option Stream) : List Send :=
  match relayForw r p dp with
  | none => []
  | some data => r.upstreams.map fun up =>
      { ifp := up.ifp, dest := up.link, port := r.localPort, data := data }

/-- The downstream for a Relay-reply. -/
def downstreamOf (p : Packet6) : Option Stream := do
  let dp ← match p.lookupOption d6oInterfaceId with
    | some ifId =>
      if ifId.length ≠ 4 then none
      else some (r.downstreams.find? fun dp => dp.id = intOfBytes ifId)
    | none =>
      if r.useIfId then none
      else some (r.downstreams.find? fun dp => dp.link = p.linkAddress)
  match dp, r.downstreams with
  | some dp, _ => some dp
  -- there is no choice
  | none, [dp] => some dp
  | none, _ => none

def processDown6 (p : Packet6) : List Send :=
  if p.msgType ≠ dhcpv6RelayRepl then []
  else
    match p.lookupOption d6oRelayMsg with
    | none => []
    | some relayMsg =>
      if relayMsg.length < 4 then []
      else
        match downstreamOf r p with
        | none => []
        | some dp =>
          if relayMsg.headD 0 ∈ downTypes then
            [{ ifp := dp.ifp
               dest := p.peerAddress
               port := if relayMsg.headD 0 = dhcpv6RelayRepl then r.localPort else r.remotePort
               data := relayMsg }]
          else []

/-- `dhcpv6`: Relay-replies go down, and what comes from below goes up. -/
def dhcpv6 (p : Packet6) : List Send :=
  if p.msgType = dhcpv6RelayRepl then processDown6 r p
  else
    match r.downstreams.find? fun dp => dp.ifp = p.interface with
    | some dp => processUp6 r p (some dp)
    | none => if p.msgType = dhcpv6RelayForw then processUp6 r p none else []

end

end IscDhcp.Relay6
