import IscDhcp.Basic
import IscDhcp.Lib.ByteMem

/-!
The relay agent: the option that it adds to the requests it passes on to the servers, and that it
takes out of their replies. Both work in the buffer of the packet, with a pointer `op` to what is
read next and a pointer `sp` to where it is kept.
-/

namespace IscDhcp.Relay

open ByteMem

def dhoPad : UInt8 := 0
def dhoDhcpMessageType : UInt8 := 53
def dhoDhcpMaxMessageSize : UInt8 := 57
def dhoDhcpAgentOptions : UInt8 := 82
def dhoEnd : UInt8 := 255

def raiCircuitId : UInt8 := 1
def raiRemoteId : UInt8 := 2
def raiLinkSelect : UInt8 := 5

def dhcpOptionsCookie : List UInt8 := [99, 130, 83, 99]

def bootpMinLen : ℕ := 300
def dhcpMtuMin : ℕ := 576

def giaddrAt : ℕ := 24

/-- The offset of the cookie, and of the options behind it. -/
def cookieAt : ℕ := 236
def optionsAt : ℕ := 240

abbrev InAddr := { a : List UInt8 // a.length = 4 }

structure Interface where
  name : List UInt8
  circuitId : Option (List UInt8)
  remoteId : Option (List UInt8) := none
  deriving DecidableEq, Repr

inductive AgentRelayMode
  | forwardAndAppend | forwardAndReplace | forwardUntouched | discard
  deriving DecidableEq, Repr

structure Config where
  addAgentOptions : Bool := false
  addRfc3527Suboption : Bool := false
  dropAgentMismatches : Bool := false
  dhcpMaxAgentOptionPacketLength : ℕ := dhcpMtuMin
  agentRelayMode : AgentRelayMode := .forwardAndReplace
  interfaces : List Interface := []
  uplink : InAddr := ⟨[0, 0, 0, 0], rfl⟩
  /-- The order of the bytes in the host. -/
  ntohs : ℕ → ℕ := id

/-! ### Reading an agent option -/

/-- The last circuit identifier among the suboptions `buf`; `none` if they are corrupt. -/
def circuitIdOf : ℕ → List UInt8 → Option (List UInt8) → Option (Option (List UInt8))
  | 0, _, found => some found
  | n + 1, buf, found =>
    match buf with
    | [] => some found
    | [_] => none
    | code :: len :: rest =>
      if rest.length < len.toNat then none
      else
        circuitIdOf n (rest.drop len.toNat)
          (if code = raiCircuitId then some (rest.take len.toNat) else found)

/-- `none` is the status `-1`. -/
def findInterfaceByAgentOption (interfaces : List Interface) (buf : List UInt8) : Option
    Interface :=
  match circuitIdOf buf.length buf none with
  | some (some id) => interfaces.find? fun ip => ip.circuitId = some id
  | _ => none

/-- Bytes that are kept are moved down if something before them was left out. -/
def keep (mem : ByteMem) (sp op n : ℕ) : ByteMem :=
  if sp ≠ op then mem.store sp (mem.load op n) else mem

@[simp] lemma keep_self (mem : ByteMem) (op n : ℕ) : keep mem op op n = mem := if_neg (by simp)

/-! ### Adding the option -/

/-- Where the walk over the options of a request stands. -/
structure Cursor where
  mem : ByteMem
  op : ℕ := optionsAt
  sp : ℕ := optionsAt
  max : ℕ
  endPad : Option ℕ := none
  isDhcp : Bool := false

/-- How a walk ends: the function returns, or it goes on behind the loop. -/
inductive Outcome
  | ret (length : ℕ) (mem : ByteMem)
  | out (st : Cursor)

/-- Another turn of the loop, or its end. -/
inductive Turn
  | next (st : Cursor)
  | stop (o : Outcome)

/-- The length byte of the option at `op`. -/
def Cursor.optLen (st : Cursor) : ℕ := (st.mem (st.op + 1)).toNat

/-- An option is kept if it ends before the limit. -/
def Cursor.skip (st : Cursor) : Turn :=
  let nextop := st.op + st.optLen + 2
  if nextop > st.max then .stop (.ret 0 st.mem)
  else .next
    { st with
      mem := keep st.mem st.sp st.op (st.optLen + 2)
      op := nextop, sp := st.sp + st.optLen + 2, endPad := none }

variable (cfg : Config)

/-- What the relay takes from an option that it keeps: that the packet is one of DHCP, and a
maximum message size, of which a single byte is looked at. -/
def Config.note (st : Cursor) : Cursor :=
  let mms := cfg.ntohs (st.mem (st.op + 2)).toNat
  if st.mem st.op = dhoDhcpMessageType then { st with isDhcp := true }
  else if st.mem st.op = dhoDhcpMaxMessageSize ∧
      mms < cfg.dhcpMaxAgentOptionPacketLength ∧ dhcpMtuMin ≤ mms then { st with max := mms }
  else st

/-- One turn of the loop of `add_relay_agent_options`. -/
def Config.addTurn (length : ℕ) (st : Cursor) : Turn :=
  let code := st.mem st.op
  if code = dhoPad then .next
    { st with
      mem := keep st.mem st.sp st.op 1
      op := st.op + 1, sp := st.sp + 1, endPad := st.endPad.or (some st.sp) }
  else if code = dhoEnd then .stop (.out st)
  else if code = dhoDhcpAgentOptions ∧ st.isDhcp then
    match cfg.agentRelayMode with
    | .forwardAndAppend => st.skip
    | .forwardUntouched => .stop (.ret length st.mem)
    | .discard => .stop (.ret 0 st.mem)
    | .forwardAndReplace => .next { st with op := st.op + st.optLen + 2, endPad := none }
  else (cfg.note st).skip

/-- The loop. Every turn advances `op`, which stays below the greatest length. -/
def Config.addLoop (cfg : Config) (length : ℕ) : ℕ → Cursor → Outcome
  | 0, st => .out st
  | n + 1, st =>
    if st.op < st.max then
      match cfg.addTurn length st with
      | .next st => addLoop cfg length n st
      | .stop o => o
    else .out st

def Config.start (mem : ByteMem) : Cursor :=
  { mem, max := cfg.dhcpMaxAgentOptionPacketLength }

/-- The walk over the options of a request. -/
def Config.scan (mem : ByteMem) (length : ℕ) : Outcome :=
  cfg.addLoop length cfg.dhcpMaxAgentOptionPacketLength (cfg.start mem)

/-- The link is selected by the first relay only. -/
def Config.addingLinkSelect (mem : ByteMem) : Bool :=
  cfg.addRfc3527Suboption && mem.load giaddrAt 4 = [0, 0, 0, 0]

/-- `none` for an identifier of an impossible length, which ends the program. -/
def suboption (code : UInt8) (id : List UInt8) : Option (List UInt8) :=
  if id.length > 255 ∨ id.length < 1 then none else some (code :: UInt8.ofNat id.length :: id)

def Interface.suboptions (ip : Interface) (giaddr : InAddr) (linkSelect : Bool) :
    Option (List UInt8) := do
  let circuit ← suboption raiCircuitId (ip.circuitId.getD [])
  let remote ← ip.remoteId.elim (some []) (suboption raiRemoteId)
  let link := if linkSelect then raiLinkSelect :: 4 :: giaddr.1 else []
  let subs := circuit ++ remote ++ link
  if subs.length < 3 ∨ subs.length > 255 then none else some subs

/-- Where the option is put: at the beginning of the padding behind the last option, if any. -/
def Cursor.place (st : Cursor) : ℕ := st.endPad.getD st.sp

/-- The packet is not made shorter than the shortest one. -/
def padOut (mem : ByteMem) (sp : ℕ) : ℕ × ByteMem :=
  if sp < bootpMinLen then (bootpMinLen, mem.store sp (List.replicate (bootpMinLen - sp) dhoPad))
  else (sp, mem)

/-- Behind the loop: the option goes in if there is room for it. -/
def Config.finish (linkSelect : Bool) (subs : List UInt8) (st : Cursor) : ℕ × ByteMem :=
  let sp := st.place
  let (mem, sp) :=
    if sp + subs.length + 3 ≤ st.max then
      let mem := st.mem.store sp ([dhoDhcpAgentOptions, UInt8.ofNat subs.length] ++ subs)
      (if linkSelect then mem.store giaddrAt cfg.uplink else mem, sp + subs.length + 2)
    else (st.mem, sp)
  if sp < st.max then padOut (mem.store sp [dhoEnd]) (sp + 1) else padOut mem sp

/-- The new length of the packet and its bytes. -/
def Config.addRelayAgentOptions (ip : Interface) (giaddr : InAddr)
    (mem : ByteMem) (length : ℕ) : Option (ℕ × ByteMem) :=
  if !cfg.addAgentOptions ∨ mem.load cookieAt 4 ≠ dhcpOptionsCookie then some (length, mem)
  else
    let linkSelect := cfg.addingLinkSelect mem
    match cfg.scan mem length with
    | .ret n mem => some (n, mem)
    | .out st =>
      if !st.isDhcp then some (length, st.mem)
      else (ip.suboptions giaddr linkSelect).map fun subs => cfg.finish linkSelect subs st

/-! ### Stripping the option -/

/-- Where the walk over the options of a reply stands. -/
structure Stripper where
  mem : ByteMem
  op : ℕ := optionsAt
  sp : ℕ := optionsAt
  isDhcp : Bool := false
  goodAgentOption : Bool := false
  out : Option Interface

inductive StripTurn
  | next (st : Stripper)
  | fail (st : Stripper)
  | out (st : Stripper)

def Stripper.optLen (st : Stripper) : ℕ := (st.mem (st.op + 1)).toNat

def Stripper.skip (st : Stripper) (max : ℕ) : StripTurn :=
  let nextop := st.op + st.optLen + 2
  if nextop > max then .fail st
  else .next
    { st with
      mem := keep st.mem st.sp st.op (st.optLen + 2)
      op := nextop, sp := st.sp + st.optLen + 2 }

def Stripper.note (st : Stripper) : Stripper :=
  if st.mem st.op = dhoDhcpMessageType then { st with isDhcp := true } else st

/-- One turn of the loop of `strip_relay_agent_options`. -/
def Config.stripTurn (max : ℕ) (st : Stripper) : StripTurn :=
  let code := st.mem st.op
  if code = dhoPad then .next
    { st with
      mem := keep st.mem st.sp st.op 1
      op := st.op + 1, sp := st.sp + 1 }
  else if code = dhoEnd then
    if st.sp ≠ st.op then .out
      { st with mem := st.mem.store st.sp [code], op := st.op + 1, sp := st.sp + 1 }
    else .out st
  else if code = dhoDhcpAgentOptions ∧ st.isDhcp then
    let nextop := st.op + st.optLen + 2
    if nextop > max then .fail st
    else
      match findInterfaceByAgentOption cfg.interfaces (st.mem.load (st.op + 2) st.optLen) with
      | none =>
        if cfg.dropAgentMismatches then .fail st
        else .next { st with op := nextop, goodAgentOption := true }
      | some ip => .next { st with op := nextop, goodAgentOption := true, out := some ip }
  else st.note.skip max

def Config.stripLoop (cfg : Config) (max : ℕ) : ℕ → Stripper → StripTurn
  | 0, st => .out st
  | n + 1, st =>
    if st.op < max then
      match cfg.stripTurn max st with
      | .next st => stripLoop cfg max n st
      | o => o
    else .out st

/-- The new length of the packet, its bytes and the interface it is for. -/
def Config.stripRelayAgentOptions (out : Option Interface) (mem : ByteMem)
    (length : ℕ) : ℕ × ByteMem × Option Interface :=
  if !cfg.addAgentOptions ∨ mem.load cookieAt 4 ≠ dhcpOptionsCookie then (length, mem, out)
  else
    match cfg.stripLoop length length { mem, out } with
    | .fail st | .next st => (0, st.mem, st.out)
    | .out st =>
      if !st.isDhcp then (length, st.mem, st.out)
      else if !st.goodAgentOption ∧ cfg.dropAgentMismatches then (0, st.mem, st.out)
      else if st.sp ≠ st.op then
        let (length, mem) := padOut st.mem st.sp
        (length, mem, st.out)
      else (length, st.mem, st.out)

end IscDhcp.Relay
