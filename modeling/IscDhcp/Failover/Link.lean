import IscDhcp.Failover.Message

/-!
The receiving end of a failover link: the bytes that have arrived, the states in which the link
waits for more of them, and how a message and its options are read.
-/

namespace IscDhcp.Wire

open BigEndian

/-! ### The connection -/

/-- What an option leaves in the message: bytes as they came, or numbers in the order of the
host. -/
inductive Value
  | raw (data : Bytes)
  | nums (vals : List ℕ)
  | ddns (codes data : Bytes)
  deriving DecidableEq, Repr

/-- `failover_message_t`; an option is found under its code. -/
structure FailoverMessage where
  type : ℕ := 0
  time : ℕ := 0
  xid : ℕ := 0
  optionsPresent : ℕ := 0
  field : ℕ → Option Value := fun _ => none

inductive FlinkState
  | start | messageLengthWait | messageWait | disconnected
  deriving DecidableEq, Repr

/-- A link with the input buffer of its connection. `delivered` are the messages the state object
has been signalled. -/
structure Link where
  state : FlinkState := .start
  inBuf : Bytes := []
  bytesNeeded : ℕ := 0
  imsg : FailoverMessage := {}
  imsgLen : ℕ := 0
  imsgCount : ℕ := 0
  imsgPayoff : ℕ := 0
  stateObject : Option Bytes := none
  delivered : List FailoverMessage := []

/-- Why reading stops: the peer broke the protocol, or the server uses a value that was never
read or has come to an impossible case. -/
inductive LinkError
  | protocolError | undefined | fatal
  deriving DecidableEq, Repr

section

variable (l : Link)

/-- `omapi_connection_copyout`: without enough bytes nothing is read. -/
def Link.copyout (size : ℕ) : Option (Bytes × Link) :=
  if size ≤ l.inBuf.length then some (l.inBuf.take size, { l with inBuf := l.inBuf.drop size })
  else none

/-- `omapi_connection_copyout` to nowhere, whose status is not looked at. -/
def Link.drop (size : ℕ) : Link :=
  match l.copyout size with
  | some (_, l) => l
  | none => l

def Link.getBytes (size : ℕ) : Except LinkError (Bytes × Link) :=
  match l.copyout size with
  | some r => .ok r
  | none => .error .undefined

def Link.getUint (size : ℕ) : Except LinkError (ℕ × Link) :=
  (l.getBytes size).map fun r => (ofBytes r.1, r.2)

def Link.count (n : ℕ) : Link := { l with imsgCount := l.imsgCount + n }

def Link.readUint (size : ℕ) : Except LinkError (ℕ × Link) :=
  (l.getUint size).map fun r => (r.1, r.2.count size)

def Link.require (n : ℕ) : Bool × Link :=
  (n ≤ l.inBuf.length, { l with bytesNeeded := n })

/-! ### Reading an option -/

/-- Numbers of `size` bytes, one at a time. -/
def Link.getNums (size : ℕ) : ℕ → Link → Except LinkError (List ℕ × Link)
  | 0, l => .ok ([], l)
  | n + 1, l => do
    let (v, l) ← l.readUint size
    let (vs, l) ← getNums size n l
    return (v :: vs, l)

/-- The data of an option of `opCount` elements. -/
def Link.readElements (type : FtType) (optionLen opCount : ℕ) : Except LinkError (Value × Link) :=
  if type.ftSizes = 1 ∨ type = .ipaddr then do
    let (data, l) ← l.getBytes optionLen
    return (.raw data, l.count optionLen)
  else if opCount = 0 then return (.nums [], l)
  else
    match type with
    | .uint32 => do
      let (vals, l) ← Link.getNums 4 opCount l
      return (.nums vals, l)
    | .uint16 => do
      let (vals, l) ← Link.getNums 2 opCount l
      return (.nums vals, l)
    | _ => .error .protocolError

/-- One or two bytes of status and the name; the bytes of the name are not counted. -/
def Link.readDdns (opCount optionLen : ℕ) : Except LinkError (Value × Link) := do
  let (codes, l) ← l.getBytes opCount
  let (data, l) ← (l.count opCount).getBytes ((optionLen + bit32 - opCount) % bit32)
  return (.ddns codes data, l)

def Link.readValue (info : FailoverOptionInfo) (optionLen : ℕ) : Except LinkError (Value × Link) :=
  if info.numPresent ≠ 0 then
    if optionLen ≠ info.type.ftSizes * info.numPresent then .error .protocolError
    else l.readElements info.type optionLen info.numPresent
  else if info.type = .ddns then l.readDdns 2 optionLen
  else if info.type = .ddns1 then l.readDdns 1 optionLen
  else if info.type.ftSizes > 1 ∧ optionLen % info.type.ftSizes ≠ 0 then .error .protocolError
  else l.readElements info.type optionLen (optionLen / info.type.ftSizes)

def FailoverMessage.store (m : FailoverMessage) (code bit : ℕ) (v : Value) : FailoverMessage :=
  { m with
    optionsPresent := m.optionsPresent ||| bit
    field := fun c => if c = code then some v else m.field c }

/-- The part of `do_a_failover_option` after the code and the length. -/
def Link.optionBody (code optionLen : ℕ) : Except LinkError Link :=
  match ftOption code with
  | none => .ok ((l.drop optionLen).count optionLen)
  | some info =>
    if info.type = .digest then
      if l.imsgCount + optionLen ≠ l.imsgLen then .error .protocolError
      else .ok ((l.count optionLen).drop optionLen)
    else if l.imsg.optionsPresent &&& info.bit ≠ 0 then .error .protocolError
    else if info.bit ≠ 0 ∧ ftoAllowed.getD l.imsg.type 0 &&& info.bit = 0 then
      .ok ((l.drop optionLen).count optionLen)
    else do
      let (v, l) ← l.readValue info optionLen
      return { l with imsg := l.imsg.store code info.bit v }

/-- The part of `do_a_failover_option` after the code. -/
def Link.optionLength (code : ℕ) : Except LinkError Link :=
  if l.imsgCount + 2 > l.imsgLen then .error .protocolError
  else do
    let (optionLen, l) ← l.readUint 2
    if l.imsgCount + optionLen > l.imsgLen then .error .protocolError
    else l.optionBody code optionLen

def Link.doAFailoverOption : Except LinkError Link :=
  if l.imsgCount + 2 > l.imsgLen then .error .protocolError
  else if l.imsg.type > ftmMax then .error .protocolError
  else do
    let (code, l) ← l.readUint 2
    l.optionLength code

/-! ### Reading a message -/

def dhcpFailoverMinMessageSize : ℕ := 12
def dhcpFailoverMaxMessageSize : ℕ := 2048

def Link.readHeader : Except LinkError Link := do
  let (type, l) ← (l.count 2).readUint 1
  let (payoff, l) ← l.readUint 1
  let (time, l) ← l.readUint 4
  let (xid, l) ← l.readUint 4
  return { l with imsg := { l.imsg with type, time, xid }, imsgPayoff := payoff }

/-- Skip what the header has beyond the fields that are known. The number of bytes is unsigned. -/
def Link.skipHeader : Link :=
  let n := (l.imsgPayoff + bit32 - l.imsgCount) % bit32
  if n ≠ 0 then { l.drop n with imsgCount := l.imsgPayoff } else l

/-- Every option advances the count, so `imsg_len` rounds are enough. -/
def Link.readOptions : ℕ → Link → Except LinkError Link
  | 0, l => if l.imsgCount < l.imsgLen then .error .undefined else .ok l
  | n + 1, l =>
    if l.imsgCount < l.imsgLen then do
      let l ← l.doAFailoverOption
      readOptions n l
    else .ok l

/-- The state `dhcp_flink_message_wait`, with the whole message in the buffer. -/
def Link.readMessage : Except LinkError Link := do
  let l ← l.readHeader
  let l := l.skipHeader
  l.readOptions l.imsgLen

/-- The state `dhcp_flink_message_length_wait`. -/
def Link.readLength : Except LinkError Link := do
  let (len, l) ← { l with state := FlinkState.messageWait, imsg := {} }.getUint 2
  let l := { l with imsgLen := len, imsgCount := 0 }
  if len < dhcpFailoverMinMessageSize ∨ len > dhcpFailoverMaxMessageSize then .error .protocolError
  else .ok l

end

/-! ### Passing a message on -/

/-- The failover peers that are configured and the clock. -/
structure LinkEnv where
  names : List Bytes
  curTime : Time

def FailoverMessage.data (m : FailoverMessage) (code : ℕ) : Bytes :=
  match m.field code with
  | some (.raw data) => data
  | _ => []

/-- A `CONNECT` names a peer, comes at about the right time and brings the hash buckets. -/
def Link.matchConnect (env : LinkEnv) (l : Link) : Option Link :=
  let m := l.imsg
  if m.optionsPresent &&& ftbRelationshipName = 0 then none
  else if m.data ftoRelationshipName ∉ env.names then none
  else if (env.curTime > m.time ∧ env.curTime - m.time > 60) ∨
      (env.curTime < m.time ∧ m.time - env.curTime > 60) then none
  else if m.optionsPresent &&& ftbHba = 0 ∨ (m.data ftoHba).length ≠ 32 then none
  else some { l with stateObject := l.stateObject.or (some (m.data ftoRelationshipName)) }

def Link.disconnect (l : Link) : Link := { l with state := .disconnected }

/-- A whole message goes to the state object. -/
def Link.handleMessage (env : LinkEnv) (l : Link) : Link :=
  match if l.imsg.type = ftmConnect then l.matchConnect env else some l with
  | none => l.disconnect
  | some l =>
    if l.stateObject = none then l.disconnect
    else
      { l with
        state := .messageLengthWait
        delivered := l.delivered ++ [l.imsg]
        imsg := {} }

/-- On a protocol error the link is disconnected. -/
def Link.orFail (l : Link) (r : Except LinkError Link) : Except LinkError Link :=
  match r with
  | .error .protocolError => .ok l.disconnect
  | r => r

/-- The state `dhcp_flink_message_wait` and what follows it; `next` starts the next message. -/
def Link.takeMessage (env : LinkEnv) (next : Link → Except LinkError Link) (l : Link) :
    Except LinkError Link := do
  let l ← l.orFail l.readMessage
  if l.state = .disconnected then return l
  else
    let l := l.handleMessage env
    if l.state = .disconnected then return l
    else
      let (enough, l) := l.require 2
      if enough then next l else return l

/-- From `next_message` on. Every message takes bytes from the buffer, so as many rounds as it has
bytes are enough. -/
def Link.nextMessage (env : LinkEnv) : ℕ → Link → Except LinkError Link
  | 0, _ => .error .undefined
  | n + 1, l => do
    let l ← l.orFail l.readLength
    if l.state = .disconnected then return l
    else
      let (enough, l) := l.require (l.imsgLen - 2)
      if enough then l.takeMessage env (nextMessage env n) else return l

def Link.dhcpFailoverLinkSignal (env : LinkEnv) (l : Link) : Except LinkError Link :=
  match l.state with
  | .start =>
    let (enough, l) := { l with state := FlinkState.messageLengthWait }.require 2
    if enough then l.nextMessage env (l.inBuf.length + 1) else return l
  | .messageLengthWait => l.nextMessage env (l.inBuf.length + 1)
  | .messageWait => l.takeMessage env (Link.nextMessage env (l.inBuf.length + 1))
  | .disconnected => .error .fatal

/-- Bytes arrive; the link is signalled once there are as many as it waits for. Of a connection
that is closed nothing arrives. -/
def Link.receive (env : LinkEnv) (l : Link) (chunk : Bytes) : Except LinkError Link :=
  if l.state = .disconnected then .ok l
  else
    let l := { l with inBuf := l.inBuf ++ chunk }
    if l.bytesNeeded ≤ l.inBuf.length then l.dhcpFailoverLinkSignal env else .ok l

end IscDhcp.Wire
