import IscDhcp.Omapip.Message

/-!
The OMAPI protocol on one connection (`omapip/protocol.c`): a parser that stops wherever the bytes
end and goes on when more of them have come, and that hands every message it has read to the
server.
-/

namespace IscDhcp.Omapip

open BigEndian

def omapiProtocolVersion : ℕ := 100

def protocolHeaderSize : ℕ := 24

/-- What the parser waits for (`p -> state`), with the message it has begun. `reading` is
`reading_message_values`: the values of the message come first, then those of its object. -/
inductive Wait (ο : Type)
  | intro
  | header
  | nameLength (m : Message ο) (reading : Bool)
  | name (m : Message ο) (reading : Bool) (nlen : ℕ)
  | valueLength (m : Message ο) (reading : Bool) (name : Bytes)
  | value (m : Message ο) (reading : Bool) (name : Bytes) (vlen : ℕ)
  | signature (m : Message ο)

structure Entry (ο : Type) where
  msg : Message ο
  refused : Bool
  acts : List (Act ο)
  deriving DecidableEq

/-- A connection. `received` are all bytes that were ever read from the socket and `log`, latest
first, the messages that the server was given; the code has neither. -/
structure Conn (κ ο σ : Type) where
  /-- False once the connection is closed or the process is gone. -/
  up : Bool := true
  input : Input κ
  state : Wait ο := .intro
  headerSize : ℕ := 0
  verifyResult : Status := .success
  store : Store ο σ
  received : Bytes := []
  log : List (Entry ο) := []

namespace Conn

variable {κ ο σ τ : Type} [DecidableEq ο] [DecidableEq τ]

/-- A connection that a listener has accepted (`omapi_protocol_listener_signal`): the introduction
is waited for, and no authenticator is open. -/
def accepted (insecure : Bool) (objs : σ) (registered : List (Registered ο)) : Conn κ ο σ where
  input := { bytesNeeded := 8 }
  store := { insecure := insecure, objs := objs, registered := registered }

def disconnect (c : Conn κ ο σ) : Conn κ ο σ := { c with up := false }

/-- The parser goes on to another state and needs `n` bytes there. -/
def await (c : Conn κ ο σ) (i : Input κ) (w : Wait ο) (n : ℕ) : Conn κ ο σ :=
  { c with input := i.require n, state := w }

variable (E : Env κ ο σ τ) (c : Conn κ ο σ)

def messageDone (m : Message ο) : Conn κ ο σ :=
  if c.verifyResult ≠ .success then
    let r := c.store.send E (.status none c.verifyResult m.id none)
    let c := { c with store := r.1 }
    if r.2 ≠ .success then c.disconnect else c.await c.input .header c.headerSize
  else
    let r := c.store.messageProcess E m
    let c := { c with store := r.store, log := ⟨m, r.refused, r.acts⟩ :: c.log }
    if r.status ≠ .success then c.disconnect else c.await c.input .header c.headerSize

/-- `omapi_protocol_lookup_auth` and the activation of the key. A null object cannot even be
wrapped in a value, so a handle that is not open ends the connection. -/
def activate (authid : ℕ) (i : Input κ) : Option (Option ο × Input κ) :=
  if authid = 0 then some (none, i)
  else do
    let (_, a) ← c.store.remoteAuthList.find? (·.1 == authid)
    let key ← E.makeDstKey a
    some (some a, i.setKey (some key))

/-- `insert_new_value`, after which the next name is waited for. -/
def insertNewValue (i : Input κ) (m : Message ο) (reading : Bool) (name : Bytes)
    (value : Option Bytes) : Option (Conn κ ο σ) := do
  let m ← m.insert reading name value
  some (c.await i (.nameLength m reading) 2)

/-- `input-signature`, with which the key is put away. -/
def inputSignature (i : Input κ) : Option (Bytes × Input κ) := do
  let key ← i.inKey
  let ctx ← i.inContext
  some (E.sign key ctx, i.setKey none)

/-- The signature that a message is to have, if it names an authenticator. -/
def expected (m : Message ο) : Option (Option Bytes × Input κ) :=
  match m.idObject with
  | none => some (none, c.input)
  | some _ => (inputSignature E c.input).map fun p => (some p.1, p.2)

def readHeader : Option (Conn κ ο σ) := do
  let (authid, i) ← c.input.getUint 4
  let (idObject, i) ← c.activate E authid i
  let (authlen, i) ← i.getUint 4
  let (op, i) ← i.getUint 4
  let (h, i) ← i.getUint 4
  let (id, i) ← i.getUint 4
  let (rid, i) ← i.getUint 4
  -- what a header has beyond the known fields is skipped, and not signed
  let (_, i) ← i.copyout false (c.headerSize - protocolHeaderSize)
  let m : Message ο := { authid, authlen, op, h, id, rid, idObject }
  some ({ c with verifyResult := .success }.await i (.nameLength m true) 2)

/-- The signature of a message is read and compared. -/
def readSignature (m : Message ο) : Option (Conn κ ο σ) := do
  let (signature, i) ← c.expected E m
  if m.authenticator ≠ none ∨ E.allocates m.authlen = false then none
  else
    let (b, i) ← i.copyout true m.authlen
    let verify := if signature = none ∨ signature = some b then c.verifyResult else .invalidKey
    some ({ c with input := i, verifyResult := verify }.messageDone E
      { m with authenticator := some b })

/-- One case of `omapi_protocol_signal_handler`, with the bytes it needs at hand; `none` if it
disconnects before it has handed a message on, or if the process stops. -/
def stage : Option (Conn κ ο σ) :=
  match c.state with
  | .intro => do
    let (version, i) ← c.input.getUint 4
    let (headerSize, i) ← i.getUint 4
    if version ≠ omapiProtocolVersion ∨ headerSize < protocolHeaderSize then none
    else some ({ c with headerSize := headerSize }.await i .header headerSize)
  | .header => c.readHeader E
  | .nameLength m reading => do
    let (nlen, i) ← c.input.getUint 2
    if nlen = 0 then
      if reading then some (c.await i (.nameLength m false) 2)
      -- without a signature there is nothing to verify
      else if m.authlen = 0 then some ({ c with input := i }.messageDone E m)
      else some (c.await i (.signature m) m.authlen)
    else if E.allocates nlen = false then none
    else some (c.await i (.name m reading nlen) nlen)
  | .name m reading nlen => do
    let (name, i) ← c.input.copyout true nlen
    some (c.await i (.valueLength m reading name) 4)
  | .valueLength m reading name => do
    let (vlen, i) ← c.input.getUint 4
    if vlen = 0 then c.insertNewValue i m reading name none
    else if E.allocates vlen = false then none
    else some (c.await i (.value m reading name vlen) vlen)
  | .value m reading name vlen => do
    let (value, i) ← c.input.copyout true vlen
    c.insertNewValue i m reading name (some value)
  | .signature m => c.readSignature E m

/-- `omapi_protocol_signal_handler` for `"ready"`: case after case while the bytes last. Each of
them takes a byte at least, so there are no more of them than bytes. -/
def ready (E : Env κ ο σ τ) : ℕ → Conn κ ο σ → Conn κ ο σ
  | 0, c => c
  | n + 1, c =>
    if c.up = true ∧ c.input.bytesNeeded ≤ c.input.inBytes then
      ready E n ((c.stage E).getD c.disconnect)
    else c

/-- `omapi_connection_reader` when the socket has the bytes `r`. -/
def read (r : Bytes) : Conn κ ο σ :=
  if c.up = false ∨ c.input.satisfied then c
  else
    let c := { c with input := c.input.reader r, received := c.received ++ c.input.taken r }
    ready E (c.input.inBytes + 1) c

/-- What happens to a connection: bytes arrive, the peer closes it, or the rest of the server
changes the objects and sends requests of its own. -/
inductive Event (ο σ : Type)
  | read (r : Bytes)
  | close
  | elsewhere (objs : σ) (registered : List (Registered ο))

def step : Event ο σ → Conn κ ο σ
  | .read r => c.read E r
  | .close => c.disconnect
  | .elsewhere objs registered =>
    { c with store := { c.store with objs := objs, registered := registered } }

def run (evs : List (Event ο σ)) : Conn κ ο σ :=
  evs.foldl (step E) c

end Conn

end IscDhcp.Omapip
