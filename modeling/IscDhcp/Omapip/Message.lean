import IscDhcp.Omapip.Buffer

/-!
What the server does with an OMAPI message once it is read (`omapip/message.c`). The objects
themselves, their types and their methods are parameters; an action on them is noted down with
the message that asked for it.
-/

namespace IscDhcp.Omapip

open BigEndian

/-- The results of `isc_result_t` that the code tells apart. -/
inductive Status
  | success | notFound | noKeys | invalidArg | notImplemented | unexpected | existing
  | keyUnknown | invalidKey
  | other (code : ℕ)
  deriving DecidableEq, Repr

/-! ### The values of a message -/

/-- A generic object: names with their values; a null value is remembered. -/
abbrev Generic := List (Bytes × Option Bytes)

/-- `omapi_generic_set_value`: a name that is there gets the new value. -/
def Generic.set (g : Generic) (name : Bytes) (value : Option Bytes) : Generic :=
  if g.any (·.1 == name) then g.map fun p => if p.1 = name then (name, value) else p
  else g ++ [(name, value)]

def Generic.get (g : Generic) (name : Bytes) : Option Bytes :=
  (g.find? (·.1 == name)).bind (·.2)

/-- The operations (`OMAPI_OP_OPEN` …). -/
def opOpen : ℕ := 1
def opRefresh : ℕ := 2
def opUpdate : ℕ := 3
def opNotify : ℕ := 4
def opStatus : ℕ := 5
def opDelete : ℕ := 6

def authenticatorName : Bytes := [97, 117, 116, 104, 101, 110, 116, 105, 99, 97, 116, 111, 114]

/-- The other names that `omapi_message_set_value` knows: `"object"`, `"notify-object"`,
`"authid"`, `"op"`, `"handle"`, `"id"` and `"rid"`. -/
def messageNames : List Bytes :=
  [[111, 98, 106, 101, 99, 116],
   [110, 111, 116, 105, 102, 121, 45, 111, 98, 106, 101, 99, 116],
   [97, 117, 116, 104, 105, 100], [111, 112], [104, 97, 110, 100, 108, 101], [105, 100],
   [114, 105, 100]]

/-- `"type"`, `"create"`, `"update"` and `"exclusive"`. -/
def typeName : Bytes := [116, 121, 112, 101]
def createName : Bytes := [99, 114, 101, 97, 116, 101]
def updateName : Bytes := [117, 112, 100, 97, 116, 101]
def exclusiveName : Bytes := [101, 120, 99, 108, 117, 115, 105, 118, 101]

/-- `omapi_message_object_t`, with the values of its inner generic object. `idObject` is the
authenticator that `authid` stands for. -/
structure Message (ο : Type) where
  authid : ℕ
  authlen : ℕ
  op : ℕ
  h : ℕ
  id : ℕ
  rid : ℕ
  idObject : Option ο
  values : Generic := []
  object : Option Generic := none
  authenticator : Option Bytes := none
  deriving DecidableEq

namespace Message

variable {ο : Type}

variable (m : Message ο)

/-- `omapi_message_set_value` for a value off the wire. The fields of the header want an integer
or an object: data is refused, and a null value is not even looked at before its type. -/
def setValue (name : Bytes) (value : Option Bytes) : Option (Message ο) :=
  if name = authenticatorName then some { m with authenticator := value }
  else if messageNames.any (· = name) then none
  else some { m with values := m.values.set name value }

/-- A value of the object that the message is about. -/
def setObjectValue (name : Bytes) (value : Option Bytes) : Message ο :=
  { m with object := some (Generic.set (m.object.getD []) name value) }

/-- A value of the message or of its object. -/
def insert (reading : Bool) (name : Bytes) (value : Option Bytes) : Option (Message ο) :=
  if reading then m.setValue name value else some (m.setObjectValue name value)

/-- `omapi_get_int_value` of a flag: absent, not a number, or a number. -/
def flag (name : Bytes) : Except Status ℕ :=
  match m.values.get name with
  | none => .ok 0
  | some b => if b.length = 4 then .ok (ofBytes b) else .error .invalidArg

end Message

/-! ### The server -/

/-- What the code around the protocol provides: signatures and keys, the registered object types
with their methods, and what becomes of an answer. -/
structure Env (κ ο σ τ : Type) where
  sign : κ → Bytes → Bytes
  makeDstKey : ο → Option κ
  verifyAuth : ο → Status
  typeNamed : Bytes → Option τ
  authKey : τ
  typeOf : ο → τ
  innerType : ο → Option τ
  lookup : τ → Option (σ → Option ο → Option Generic → Status × Option ο)
  create : σ → Option ο → τ → σ × Except Status ο
  update : σ → ο → Option ο → Option Generic → ℕ → σ × Status
  remove : τ → Option (σ → ο → Option ο → σ × Status)
  objectHandle : σ → ο → σ × Except Status ℕ
  handleLookup : σ → ℕ → Except Status ο
  /-- Whether there is memory for a value of this length. -/
  allocates : ℕ → Bool
  /-- The result of sending the next answer after so many. -/
  sends : ℕ → Status

/-- A message of our own that waits for its answer (`omapi_registered_messages`). -/
structure Registered (ο : Type) where
  id : ℕ
  authid : ℕ
  object : Option ο
  deriving DecidableEq

/-- `omapi_protocol_send_status` and `omapi_protocol_send_update`. -/
inductive Answer (ο : Type)
  | status (idObject : Option ο) (result : Status) (rid : ℕ) (text : Option String)
  | update (idObject : Option ο) (rid : ℕ) (object : ο)
  deriving DecidableEq

/-- What is done to objects on behalf of a message. -/
inductive Act (ο : Type)
  | created (o : ο)
  | updated (o : ο)
  | removed (o : ο)
  | opened (handle : ℕ) (o : ο)
  | shown (o : ο)
  | signalled (id : ℕ)
  deriving DecidableEq

/-- The server as one connection sees it. -/
structure Store (ο σ : Type) where
  insecure : Bool
  objs : σ
  remoteAuthList : List (ℕ × ο) := []
  registered : List (Registered ο) := []
  sent : List (Answer ο) := []

/-- The outcome of a message: the server after it, the result for the caller, what was done, and
whether the message was turned away for want of an authenticator. -/
structure Outcome (ο σ : Type) where
  store : Store ο σ
  status : Status
  acts : List (Act ο) := []
  refused : Bool := false

section Process

variable {κ ο σ τ : Type} [DecidableEq ο] [DecidableEq τ] (E : Env κ ο σ τ)

variable (S : Store ο σ) (m : Message ο)

def Store.send (a : Answer ο) : Store ο σ × Status :=
  ({ S with sent := S.sent ++ [a] }, E.sends S.sent.length)

/-- An answer that ends the work on a message. -/
def Store.finish (a : Answer ο) (acts : List (Act ο)) : Outcome ο σ where
  store := (S.send E a).1
  status := (S.send E a).2
  acts := acts

def Store.reply (result : Status) (text : Option String) (acts : List (Act ο)) : Outcome ο σ :=
  S.finish E (.status m.idObject result m.id text) acts

/-- The message has no authenticator. -/
def Store.refuse : Outcome ο σ :=
  { S.reply E m .noKeys (some "No authenticator on message") [] with refused := true }

/-- `omapi_protocol_add_auth`, on a connection that has no default authenticator. -/
def Store.addAuth (o : ο) (handle : ℕ) : Store ο σ × Status :=
  if E.typeOf o ≠ E.authKey ∧ E.innerType o ≠ some E.authKey then (S, .invalidArg)
  else if E.verifyAuth o ≠ .success then (S, E.verifyAuth o)
  else ({ S with remoteAuthList := (handle, o) :: S.remoteAuthList }, .success)

/-- The end of `OMAPI_OP_OPEN`: an authenticator joins those of the connection, and the object is
shown to the peer. -/
def Store.select (S : Store ο σ) (m : Message ο) (o : ο) (acts : List (Act ο)) : Outcome ο σ :=
  if E.typeOf o = E.authKey then
    match E.objectHandle S.objs o with
    | (objs, .error st) =>
      { S with objs := objs }.reply E m st (some "can't select authenticator") acts
    | (objs, .ok handle) =>
      match { S with objs := objs }.addAuth E o handle with
      | (S, .success) =>
        S.finish E (.update m.idObject m.id o) (acts ++ [.opened handle o, .shown o])
      | (S, st) => S.reply E m st (some "can't select authenticator") acts
  else S.finish E (.update m.idObject m.id o) (acts ++ [.shown o])

/-- The object is brought up to date if the message says so. `found` is the status that the
search left behind. -/
def Store.amend (o : ο) (create update : ℕ) (found : Status) (acts : List (Act ο)) : Outcome ο σ :=
  if create ≠ 0 ∨ update ≠ 0 then
    if E.typeOf o = E.authKey then S.reply E m found (some "can't update object") acts
    else
      match E.update S.objs o m.idObject m.object m.h with
      | (objs, .success) => { S with objs := objs }.select E m o (acts ++ [Act.updated o])
      | (objs, st) =>
        { S with objs := objs }.reply E m st (some "can't update object") (acts ++ [Act.updated o])
  else S.select E m o acts

def Store.refresh : Outcome ο σ :=
  match E.handleLookup S.objs m.h with
  | .error st => S.reply E m st (some "no matching handle") []
  | .ok o => S.finish E (.update m.idObject m.id o) [.shown o]

/-- The object of a given type that a message opens. -/
def Store.openTyped (type : τ) (create update exclusive : ℕ) : Outcome ο σ :=
  match E.lookup type with
  | none => S.reply E m .notImplemented (some "unsearchable object type") []
  | some lookup =>
    let (st, found) := lookup S.objs m.idObject m.object
    if st ≠ .success ∧ st ≠ .notFound ∧ st ≠ .noKeys then
      S.reply E m st (some "object lookup failed") []
    else if st = .notFound ∧ create = 0 then
      S.reply E m .notFound (some "no object matches specification") []
    else if st = .success ∧ create ≠ 0 ∧ exclusive ≠ 0 then
      S.reply E m .existing (some "specified object already exists") []
    else
      match found with
      | some o => S.amend E m o create update st []
      | none =>
        match E.create S.objs m.idObject type with
        | (objs, .error st) =>
          { S with objs := objs }.reply E m st (some "can't create new object") []
        | (objs, .ok o) => { S with objs := objs }.amend E m o create update .success [.created o]

/-- The type that an `OMAPI_OP_OPEN` asks for. -/
def Env.requestedType : Option τ := (m.values.get typeName).bind E.typeNamed

def Store.openObject : Outcome ο σ :=
  let type := E.requestedType m
  if S.insecure = false ∧ m.idObject = none ∧ type ≠ some E.authKey then S.refuse E m
  else
    match m.flag createName, m.flag updateName, m.flag exclusiveName with
    | .error st, _, _ => S.reply E m st (some "invalid create flag value") []
    | _, .error st, _ => S.reply E m st (some "invalid update flag value") []
    | _, _, .error st => S.reply E m st (some "invalid exclusive flag value") []
    | .ok create, .ok update, .ok exclusive =>
      match type with
      | none =>
        if create ≠ 0 then S.reply E m .invalidArg (some "type required on create") []
        else S.refresh E m
      | some type => S.openTyped E m type create update exclusive

variable (r : Option (Registered ο))

/-- The object that `OMAPI_OP_UPDATE` is about: that of the request it answers, or the one with
the handle. -/
def Store.updated : Except Status ο :=
  match r.bind (·.object) with
  | some o => .ok o
  | none => E.handleLookup S.objs m.h

/-- Whether an object is an authenticator or wraps one. -/
def Env.isAuth (o : ο) : Prop := E.typeOf o = E.authKey ∨ E.innerType o = some E.authKey

instance (o : ο) : Decidable (E.isAuth o) :=
  inferInstanceAs (Decidable (_ ∨ _))

/-- The work of `OMAPI_OP_UPDATE` on its object. -/
def Store.change (o : ο) : Store ο σ × Status × List (Act ο) :=
  if E.isAuth o then
    match S.addAuth E o m.h with
    | (S, .success) => (S, .success, [.opened m.h o])
    | (S, st) => (S, st, [])
  else
    let (objs, st) := E.update S.objs o m.idObject m.object m.h
    ({ S with objs := objs }, st, [.updated o])

/-- The answer to `OMAPI_OP_UPDATE`, or the news for the request that it answered. -/
def Store.updateDone (st : Status) (acts : List (Act ο)) : Outcome ο σ :=
  match r with
  | none =>
    if st ≠ .success then S.reply E m st (some "can't update object") acts
    else S.reply E m .success none acts
  | some r =>
    if st ≠ .success then ⟨S, .success, acts ++ [.signalled r.id], false⟩
    else ⟨{ S with registered := S.registered.erase r }, .success,
      acts ++ [.signalled r.id], false⟩

def Store.updateObject : Outcome ο σ :=
  match S.updated E m r with
  | .error st => S.reply E m st (some "no matching handle") []
  | .ok o =>
    if E.isAuth o ∧ r = none then
      S.reply E m .success (some "cannot update authenticator") []
    else
      let (S, st, acts) := S.change E m o
      S.updateDone E m r st acts

def Store.deleteObject : Outcome ο σ :=
  match E.handleLookup S.objs m.h with
  | .error st => S.reply E m st (some "no matching handle") []
  | .ok o =>
    match E.remove (E.typeOf o) with
    | none => S.reply E m .notImplemented (some "no remove method for object") []
    | some remove =>
      let (objs, st) := remove S.objs o m.idObject
      { S with objs := objs }.reply E m st none [.removed o]

/-- `OMAPI_OP_STATUS`: the answer to a request of ours. -/
def Store.answered : Outcome ο σ :=
  match r with
  | none => ⟨S, .unexpected, [], false⟩
  | some r => ⟨{ S with registered := S.registered.erase r }, .success, [.signalled r.id], false⟩

/-- The operations; `r` is the request of ours that the message answers. -/
def Store.serve : Outcome ο σ :=
  if m.op = opOpen then
    if r ≠ none then S.reply E m .invalidArg (some "OPEN can't be a response") []
    else S.openObject E m
  else if m.op = opRefresh then S.refresh E m
  else if m.op = opUpdate then S.updateObject E m r
  else if m.op = opNotify then
    S.reply E m .notImplemented (some "notify not implemented yet") []
  else if m.op = opStatus then S.answered r
  else if m.op = opDelete then S.deleteObject E m
  else ⟨S, .notImplemented, [], false⟩

def Store.messageProcess : Outcome ο σ :=
  if m.rid ≠ 0 then
    match S.registered.find? (·.id == m.rid) with
    | none => ⟨S, .notFound, [], false⟩
    | some r =>
      if m.authid ≠ r.authid then ⟨S, .notFound, [], false⟩ else S.serve E m (some r)
  else if S.insecure = false ∧ m.idObject = none ∧ m.op ≠ opOpen then S.refuse E m
  else S.serve E m none

def Env.OpensAuth : Prop := m.op = opOpen ∧ E.requestedType m = some E.authKey

end Process

end IscDhcp.Omapip
