import IscDhcp.Lib.BigEndian
import IscDhcp.Failover.Updates

/-!
The failover messages as bytes: the table of the options, how an option and a message are
written, and the messages the server sends.
-/

namespace IscDhcp.Wire

open BigEndian

/-! ### The options -/

inductive FtType
  | uint8 | ipaddr | uint32 | bytes | textOrBytes | ddns | ddns1 | uint16 | text | undef | digest
  deriving DecidableEq, Repr

def FtType.ftSizes : FtType → ℕ
  | .uint8 => 1
  | .ipaddr => 4
  | .uint32 => 4
  | .bytes => 1
  | .textOrBytes => 1
  | .ddns => 0
  | .ddns1 => 0
  | .uint16 => 2
  | .text => 1
  | .undef => 0
  | .digest => 0

/-- `failover_option_info`. An option is stored under its code. -/
structure FailoverOptionInfo where
  type : FtType
  numPresent : ℕ
  bit : ℕ
  deriving DecidableEq, Repr

def ftoAddressesTransferred : ℕ := 1
def ftoAssignedIpAddress : ℕ := 2
def ftoBindingStatus : ℕ := 3
def ftoClientIdentifier : ℕ := 4
def ftoChaddr : ℕ := 5
def ftoCltt : ℕ := 6
def ftoHba : ℕ := 11
def ftoIpFlags : ℕ := 12
def ftoLeaseExpiry : ℕ := 13
def ftoMaxUnacked : ℕ := 14
def ftoMclt : ℕ := 15
def ftoMessage : ℕ := 16
def ftoPotentialExpiry : ℕ := 18
def ftoReceiveTimer : ℕ := 19
def ftoProtocolVersion : ℕ := 20
def ftoRejectReason : ℕ := 21
def ftoRelationshipName : ℕ := 22
def ftoServerFlags : ℕ := 23
def ftoServerState : ℕ := 24
def ftoStos : ℕ := 25
def ftoTlsReply : ℕ := 26
def ftoTlsRequest : ℕ := 27
def ftoVendorClass : ℕ := 28

def ftbAddressesTransferred : ℕ := 0x00000002
def ftbReplyOptions : ℕ := 0x00000080
def ftbRequestOptions : ℕ := 0x00000100
def ftbDdns : ℕ := 0x00000200
def ftbDelayedService : ℕ := 0x00000400
def ftbHba : ℕ := 0x00000800
def ftbMaxUnacked : ℕ := 0x00004000
def ftbMclt : ℕ := 0x00008000
def ftbMessageDigest : ℕ := 0x00020000
def ftbReceiveTimer : ℕ := 0x00080000
def ftbProtocolVersion : ℕ := 0x00100000
def ftbRelationshipName : ℕ := 0x00400000
def ftbServerFlags : ℕ := 0x00800000
def ftbServerState : ℕ := 0x01000000
def ftbTlsReply : ℕ := 0x04000000
def ftbTlsRequest : ℕ := 0x08000000
def ftbVendorClass : ℕ := 0x10000000
def ftbVendorOptions : ℕ := 0x20000000

/-- The table of the options, by code; beyond it lies `FTO_MAX`. -/
def ftOptions : List FailoverOptionInfo :=
  [⟨.undef, 0, 0⟩,
   ⟨.uint32, 1, ftbAddressesTransferred⟩,
   ⟨.ipaddr, 1, ftbAssignedIpAddress⟩,
   ⟨.uint8, 1, ftbBindingStatus⟩,
   ⟨.bytes, 0, ftbClientIdentifier⟩,
   ⟨.bytes, 0, ftbChaddr⟩,
   ⟨.uint32, 1, ftbCltt⟩,
   ⟨.bytes, 0, ftbReplyOptions⟩,
   ⟨.bytes, 0, ftbRequestOptions⟩,
   ⟨.ddns, 1, ftbDdns⟩,
   ⟨.uint8, 1, ftbDelayedService⟩,
   ⟨.bytes, 0, ftbHba⟩,
   ⟨.uint16, 1, ftbIpFlags⟩,
   ⟨.uint32, 1, ftbLeaseExpiry⟩,
   ⟨.uint32, 1, ftbMaxUnacked⟩,
   ⟨.uint32, 1, ftbMclt⟩,
   ⟨.text, 0, ftbMessage⟩,
   ⟨.bytes, 0, ftbMessageDigest⟩,
   ⟨.uint32, 1, ftbPotentialExpiry⟩,
   ⟨.uint32, 1, ftbReceiveTimer⟩,
   ⟨.uint8, 1, ftbProtocolVersion⟩,
   ⟨.uint8, 1, ftbRejectReason⟩,
   ⟨.bytes, 0, ftbRelationshipName⟩,
   ⟨.uint8, 1, ftbServerFlags⟩,
   ⟨.uint8, 1, ftbServerState⟩,
   ⟨.uint32, 1, ftbStos⟩,
   ⟨.uint8, 1, ftbTlsReply⟩,
   ⟨.uint8, 1, ftbTlsRequest⟩,
   ⟨.bytes, 0, ftbVendorClass⟩,
   ⟨.bytes, 0, ftbVendorOptions⟩]

/-- The entry of a code that is in the table and in use. -/
def ftOption (code : ℕ) : Option FailoverOptionInfo :=
  ftOptions[code]?.filter (·.type ≠ .undef)

def ftmPoolreq : ℕ := 1
def ftmPoolresp : ℕ := 2
def ftmBndupd : ℕ := 3
def ftmBndack : ℕ := 4
def ftmConnect : ℕ := 5
def ftmConnectack : ℕ := 6
def ftmUpdreqall : ℕ := 7
def ftmUpddone : ℕ := 8
def ftmUpdreq : ℕ := 9
def ftmState : ℕ := 10
def ftmContact : ℕ := 11
def ftmDisconnect : ℕ := 12
def ftmMax : ℕ := ftmDisconnect

/-- The options that are kept of a message, by its type. -/
def ftoAllowed : List ℕ :=
  [0,
   0,
   ftbAddressesTransferred,
   ftbAssignedIpAddress ||| ftbBindingStatus ||| ftbClientIdentifier ||| ftbChaddr ||| ftbDdns |||
     ftbIpFlags ||| ftbLeaseExpiry ||| ftbPotentialExpiry ||| ftbStos ||| ftbCltt |||
     ftbRequestOptions ||| ftbReplyOptions,
   ftbAssignedIpAddress ||| ftbBindingStatus ||| ftbClientIdentifier ||| ftbChaddr ||| ftbDdns |||
     ftbIpFlags ||| ftbLeaseExpiry ||| ftbPotentialExpiry ||| ftbStos ||| ftbCltt |||
     ftbRequestOptions ||| ftbReplyOptions ||| ftbRejectReason ||| ftbMessage,
   ftbRelationshipName ||| ftbMaxUnacked ||| ftbReceiveTimer ||| ftbVendorClass |||
     ftbProtocolVersion ||| ftbTlsRequest ||| ftbMclt ||| ftbHba,
   ftbRelationshipName ||| ftbMaxUnacked ||| ftbReceiveTimer ||| ftbVendorClass |||
     ftbProtocolVersion ||| ftbTlsReply ||| ftbRejectReason ||| ftbMessage,
   0,
   0,
   0,
   ftbServerState ||| ftbServerFlags ||| ftbStos,
   0,
   ftbRejectReason ||| ftbMessage]

variable {info : FailoverOptionInfo}

lemma code_lt_of_ftOption {code : ℕ} (h : ftOption code = some info) : code < 30 := by
  rw [ftOption, Option.filter_eq_some_iff] at h
  exact (List.getElem?_eq_some_iff.mp h.1).1

lemma bit_ftOption {code : ℕ} (h : ftOption code = some info) : info.bit = 2 ^ code := by
  have hall : ∀ c < 30, ∀ i ∈ ftOption c, i.bit = 2 ^ c := by decide
  exact hall code (code_lt_of_ftOption h) info h

/-- What the table holds: an option is a string of bytes, or one element. -/
lemma shape_ftOption {code : ℕ} (h : ftOption code = some info) :
    (info.numPresent = 0 ∧ (info.type = .bytes ∨ info.type = .text)) ∨
      (info.numPresent = 1 ∧
        info.type ∈ [FtType.uint8, .ipaddr, .uint32, .uint16, .ddns]) := by
  have hall : ∀ c < 30, ∀ i ∈ ftOption c,
      (i.numPresent = 0 ∧ (i.type = .bytes ∨ i.type = .text)) ∨
        (i.numPresent = 1 ∧ i.type ∈ [FtType.uint8, .ipaddr, .uint32, .uint16, .ddns]) := by
    decide
  exact hall code (code_lt_of_ftOption h) info h

/-! ### Writing a message -/

/-- The arguments of `dhcp_failover_make_option`: numbers, addresses of a given length as they
lie in memory, or bytes. -/
inductive OptionArg
  | nums (vals : List ℕ)
  | addrs (ilen : ℕ) (addrs : List (ℕ → UInt8))
  | bytes (data : Bytes)
  | ddns (code0 code1 : ℕ) (data : Bytes)

def FailoverOptionInfo.count (info : FailoverOptionInfo) (given : ℕ) : ℕ :=
  if info.numPresent ≠ 0 then info.numPresent else given

/-- The data of an option; the arguments follow its type. -/
def FailoverOptionInfo.data (info : FailoverOptionInfo) : OptionArg → Option Bytes
  | .nums vals =>
    let vals := vals.take (info.count vals.length)
    match info.type with
    | .uint8 => some (vals.flatMap (toBytes 1))
    | .uint16 => some (vals.flatMap (toBytes 2))
    | .uint32 => some (vals.flatMap (toBytes 4))
    | _ => none
  | .addrs ilen addrs =>
    match info.type with
    | .ipaddr =>
      if ilen ≠ 4 then none
      else some ((addrs.take (info.count addrs.length)).flatMap fun a => (List.range ilen).map a)
    | _ => none
  | .bytes data =>
    match info.type with
    | .bytes | .digest | .textOrBytes | .text => some data
    | _ => none
  | .ddns code0 code1 data =>
    match info.type with
    | .ddns => some (toBytes 1 code0 ++ data)
    | .ddns1 => some (toBytes 1 code0 ++ toBytes 1 code1 ++ data)
    | _ => none

/-- An option in the argument list of a message; `none` is `skip_failover_option`. -/
structure Draft where
  code : ℕ
  arg : OptionArg

/-- `none` is `null_failover_option`. -/
def dhcpFailoverMakeOption (d : Draft) : Option Bytes :=
  if d.code < 1 then none
  else do
    let info ← ftOption d.code
    let data ← info.data d.arg
    return toBytes 2 d.code ++ toBytes 2 data.length ++ data

/-- A message as it is handed to `dhcp_failover_put_message`. -/
structure Outgoing where
  type : ℕ
  xid : ℕ
  options : List (Option Draft) := []

def Outgoing.put (m : Outgoing) : List Draft := m.options.reduceOption

/-- What goes on the connection; `none` if an option could not be made. -/
def dhcpFailoverPutMessage (curTime : Time) (m : Outgoing) : Option Bytes := do
  let options ← m.put.mapM dhcpFailoverMakeOption
  let size := options.flatten.length
  return toBytes 2 (size + 12) ++ toBytes 1 m.type ++ toBytes 1 12 ++ toBytes 4 curTime ++
    toBytes 4 m.xid ++ options.flatten

/-! ### The messages of the server -/

def bindingStateCode : BindingState → ℕ
  | .free => 1
  | .active => 2
  | .expired => 3
  | .released => 4
  | .abandoned => 5
  | .reset => 6
  | .backup => 7
  | .bogus code => code

def Draft.num (code val : ℕ) : Draft := ⟨code, .nums [val]⟩
def Draft.str (code : ℕ) (data : Bytes) : Draft := ⟨code, .bytes data⟩

/-- `isc-` and the version of the package. -/
def vendorClass : Bytes := "isc-4.4.0-dev".toUTF8.toList

def dhcpFailoverVersion : ℕ := 1

/-- The fields of a `dhcp_failover_state_t` that the messages carry. -/
structure StateInfo where
  name : Bytes
  maxFlyingUpdates : ℕ
  maxResponseDelay : ℕ
  mclt : ℕ
  hba : Option (ℕ → UInt8)

section

variable (xid : ℕ)

def dhcpFailoverSendContact : Outgoing := { type := ftmContact, xid }
def dhcpFailoverSendPoolreq : Outgoing := { type := ftmPoolreq, xid }
def dhcpFailoverSendUpdateRequest : Outgoing := { type := ftmUpdreq, xid }
def dhcpFailoverSendUpdateRequestAll : Outgoing := { type := ftmUpdreqall, xid }
def dhcpFailoverSendUpdateDone : Outgoing := { type := ftmUpddone, xid }

def dhcpFailoverSendState (xid serverState serverFlags stos : ℕ) : Outgoing where
  type := ftmState
  xid := xid
  options :=
    [some (.num ftoServerState serverState), some (.num ftoServerFlags serverFlags),
     some (.num ftoStos stos)]

def dhcpFailoverSendConnect (state : StateInfo) : Outgoing where
  type := ftmConnect
  xid := xid
  options :=
    [some (.str ftoRelationshipName state.name),
     some (.num ftoMaxUnacked state.maxFlyingUpdates),
     some (.num ftoReceiveTimer state.maxResponseDelay),
     some (.str ftoVendorClass vendorClass),
     some (.num ftoProtocolVersion dhcpFailoverVersion),
     some ⟨ftoTlsRequest, .nums [0, 0]⟩,
     some (.num ftoMclt state.mclt),
     state.hba.map fun hba => .str ftoHba ((List.range 32).map hba)]

/-- `peerName` is the relationship name of the message that is answered, if it has one. -/
def dhcpFailoverSendConnectack (state : Option StateInfo) (peerName : Option Bytes)
    (tlsRequest : Bool) (reason : ℕ) (errmsg : Option Bytes) : Outgoing where
  type := ftmConnectack
  xid := xid
  options :=
    [((state.map (·.name)).or peerName).map (.str ftoRelationshipName),
     state.map fun state => .num ftoMaxUnacked state.maxFlyingUpdates,
     state.map fun state => .num ftoReceiveTimer state.maxResponseDelay,
     some (.str ftoVendorClass vendorClass),
     some (.num ftoProtocolVersion dhcpFailoverVersion),
     if tlsRequest then some ⟨ftoTlsReply, .nums [0, 0]⟩ else none,
     if reason ≠ 0 then some (.num ftoRejectReason reason) else none,
     if reason ≠ 0 then errmsg.map (.str ftoMessage) else none]

/-- `message` is the text given or the one printed for the reason. -/
def dhcpFailoverSendDisconnect (xid reason : ℕ) (message : Option Bytes) : Outgoing where
  type := ftmDisconnect
  xid := xid
  options := [some (.num ftoRejectReason reason), message.map (.str ftoMessage)]

/-- The lease has taken its transaction identifier. -/
def dhcpFailoverSendBindUpdate (ilen : ℕ) (iabuf : ℕ → UInt8) (lease : Lease) : Outgoing :=
  let flags := (if lease.flags.reserved then ftfIpFlagReserve else 0) |||
    (if lease.flags.bootp then ftfIpFlagBootp else 0)
  { type := ftmBndupd
    xid := lease.lastXid
    options :=
      [some ⟨ftoAssignedIpAddress, .addrs ilen [iabuf]⟩,
       some (.num ftoBindingStatus (bindingStateCode lease.desiredBindingState)),
       if lease.uid.getD [] ≠ [] then some (.str ftoClientIdentifier (lease.uid.getD [])) else none,
       if lease.hardwareAddr ≠ [] then some (.str ftoChaddr lease.hardwareAddr) else none,
       some (.num ftoLeaseExpiry lease.ends),
       some (.num ftoPotentialExpiry lease.tstp),
       some (.num ftoStos lease.starts),
       if lease.cltt ≠ 0 then some (.num ftoCltt lease.cltt) else none,
       if flags ≠ 0 then some (.num ftoIpFlags flags) else none,
       none, none, none] }

/-- The address is copied from the message that is acknowledged. -/
def dhcpFailoverSendBindAck (assignedAddr : ℕ → UInt8) (reason : ℕ)
    (message : Option Bytes) : Outgoing where
  type := ftmBndack
  xid := xid
  options :=
    [some ⟨ftoAssignedIpAddress, .addrs 4 [assignedAddr]⟩,
     if reason ≠ 0 then some (.num ftoRejectReason reason) else none,
     if reason ≠ 0 then message.map (.str ftoMessage) else none]

end

def dhcpFailoverSendPoolresp (xid leases : ℕ) : Outgoing where
  type := ftmPoolresp
  xid := xid
  options := [some (.num ftoAddressesTransferred leases)]

/-- The messages that are built, one constructor for each function that sends one. -/
inductive Outgoing.Sent : Outgoing → Prop
  | contact (xid) : Sent (dhcpFailoverSendContact xid)
  | poolreq (xid) : Sent (dhcpFailoverSendPoolreq xid)
  | updreq (xid) : Sent (dhcpFailoverSendUpdateRequest xid)
  | updreqall (xid) : Sent (dhcpFailoverSendUpdateRequestAll xid)
  | upddone (xid) : Sent (dhcpFailoverSendUpdateDone xid)
  | state (xid serverState serverFlags stos) :
    Sent (dhcpFailoverSendState xid serverState serverFlags stos)
  | connect (xid state) : Sent (dhcpFailoverSendConnect xid state)
  | connectack (xid state peerName tlsRequest reason errmsg) :
    Sent (dhcpFailoverSendConnectack xid state peerName tlsRequest reason errmsg)
  | disconnect (xid reason message) : Sent (dhcpFailoverSendDisconnect xid reason message)
  | bndupd (ilen iabuf lease) : Sent (dhcpFailoverSendBindUpdate ilen iabuf lease)
  | bndack (xid addr reason message) : Sent (dhcpFailoverSendBindAck xid addr reason message)
  | poolresp (xid leases) : Sent (dhcpFailoverSendPoolresp xid leases)

end IscDhcp.Wire
