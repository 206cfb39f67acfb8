import IscDhcp.Omapip.Protocol
import Mathlib.Algebra.Order.Ring.Nat

/-!
Which requests a secure connection acts on. The parser's state always spells out the part of the
message that has been read, and while the message names an authenticator the running signature
covers that part; so a signature that is compared is compared with the one that the key gives to
the message. It is not compared if the header says that it has no bytes.
-/

namespace IscDhcp.Omapip

open BigEndian List Option

variable {κ ο σ τ : Type}

/-! ### What a message looks like on the wire -/

/-- The fields of the header behind `authid`. -/
def Message.fields (m : Message ο) : Bytes :=
  toBytes 4 m.authlen ++ (toBytes 4 m.op ++ (toBytes 4 m.h ++ (toBytes 4 m.id ++ toBytes 4 m.rid)))

def pair (p : Bytes × Option Bytes) : Bytes :=
  toBytes 2 p.1.length ++ (p.1 ++ (toBytes 4 (p.2.getD []).length ++ p.2.getD []))

/-- The values of a message and those of its object, as far as they have been read. -/
def spoken (vs os : Generic) (reading : Bool) : Bytes :=
  vs.flatMap pair ++ if reading then [] else toBytes 2 0 ++ os.flatMap pair

def body (vs os : Generic) : Bytes := spoken vs os false ++ toBytes 2 0

/-- A generic object that was given these values in turn. -/
def gathered (vs : Generic) : Generic := vs.foldl (fun g p => g.set p.1 p.2) []

/-- The message has the values `vs` and its object the values `os`. -/
structure Says (m : Message ο) (vs os : Generic) : Prop where
  values : m.values = gathered (vs.filter (·.1 ≠ authenticatorName))
  object : m.object = if os = [] then none else some (gathered os)

/-- The stream has the message, with a header of `hs` bytes, and right behind it the signature that
`k` gives to its fields and values. -/
def Carries (E : Env κ ο σ τ) (hs : ℕ) (received : Bytes) (m : Message ο) (k : κ) : Prop :=
  ∃ before pad vs os after,
    received = before ++ (toBytes 4 m.authid ++ (m.fields ++ (pad ++ (body vs os ++
      (E.sign k (m.fields ++ body vs os) ++ after))))) ∧
    pad.length + protocolHeaderSize = hs ∧ Says m vs os ∧
    (E.sign k (m.fields ++ body vs os)).length = m.authlen

variable {received : Bytes} {log : List (Entry ο)}

lemma Carries.append {E : Env κ ο σ τ} {hs : ℕ} {m : Message ο} {k : κ}
    (h : Carries E hs received m k) (r : Bytes) : Carries E hs (received ++ r) m k := by
  obtain ⟨before, pad, vs, os, after, rfl, hpad, hsaid, hlen⟩ := h
  exact ⟨before, pad, vs, os, after ++ r, by simp [append_assoc], hpad, hsaid, hlen⟩

lemma gathered_concat (vs : Generic) (p : Bytes × Option Bytes) :
    gathered (vs ++ [p]) = (gathered vs).set p.1 p.2 := by simp [gathered]

lemma Says.setValue {m m' : Message ο} {vs os : Generic} {name : Bytes} {value : Option Bytes}
    (h : Says m vs os) (hset : m.setValue name value = some m') :
    Says m' (vs ++ [(name, value)]) os ∧ m'.authid = m.authid ∧ m'.fields = m.fields ∧
      m'.idObject = m.idObject := by
  unfold Message.setValue at hset
  split_ifs at hset with hname hmem
  · cases hset
    refine ⟨⟨?_, h.object⟩, rfl, rfl, rfl⟩
    simp [h.values, hname]
  · cases hset
    refine ⟨⟨?_, h.object⟩, rfl, rfl, rfl⟩
    have hfilter : ([(name, value)] : Generic).filter (·.1 ≠ authenticatorName) =
        [(name, value)] := by simp [hname]
    rw [filter_append, hfilter, gathered_concat, ← h.values]

lemma Says.setObjectValue {m : Message ο} {vs os : Generic} (h : Says m vs os) (name : Bytes)
    (value : Option Bytes) : Says (m.setObjectValue name value) vs (os ++ [(name, value)]) := by
  refine ⟨h.values, ?_⟩
  have hobj : m.object.getD [] = gathered os := by
    rw [h.object]
    split_ifs with hos
    · rw [hos]; rfl
    · rfl
  simp [Message.setObjectValue, hobj, gathered_concat]

/-! ### What the server does with a message -/

section Process

variable [DecidableEq ο] [DecidableEq τ] {E : Env κ ο σ τ} {S S' : Store ο σ} {m : Message ο}
  {acts : List (Act ο)} {o : ο}

/-- The connection is as secure as before, and an authenticator that is new to it was opened. -/
structure Outcome.Kept (S : Store ο σ) (r : Outcome ο σ) : Prop where
  insecure : r.store.insecure = S.insecure
  auths : ∀ p ∈ r.store.remoteAuthList, p ∈ S.remoteAuthList ∨ .opened p.1 p.2 ∈ r.acts

/-- Nothing of the connection is different. -/
structure Store.Same (S S' : Store ο σ) : Prop where
  insecure : S'.insecure = S.insecure
  auths : S'.remoteAuthList = S.remoteAuthList

lemma Store.Same.refl : Store.Same S S := ⟨rfl, rfl⟩

lemma Store.Same.kept {r : Outcome ο σ} (h : Store.Same S r.store) : r.Kept S :=
  ⟨h.insecure, fun _ hp => .inl (h.auths ▸ hp)⟩

lemma Store.kept_finish (h : Store.Same S S') (a : Answer ο) : (S'.finish E a acts).Kept S :=
  Store.Same.kept ⟨h.insecure, h.auths⟩

lemma Store.kept_reply (h : Store.Same S S') (result : Status) (text : Option String) :
    (S'.reply E m result text acts).Kept S := kept_finish h _

lemma Store.addAuth_cases (handle : ℕ) : (∃ st, S.addAuth E o handle = (S, st) ∧ st ≠ .success) ∨
      S.addAuth E o handle =
        ({ S with remoteAuthList := (handle, o) :: S.remoteAuthList }, .success) := by
  unfold addAuth
  split_ifs with htype hverify
  · exact .inl ⟨_, rfl, by simp⟩
  · exact .inl ⟨_, rfl, hverify⟩
  · exact .inr rfl

lemma Store.kept_select (h : Store.Same S S') : (S'.select E m o acts).Kept S := by
  unfold select
  split_ifs with htype
  · obtain ⟨objs, handle⟩ := E.objectHandle S'.objs o
    have hobjs : Store.Same S { S' with objs := objs } := ⟨h.insecure, h.auths⟩
    cases handle with
    | error st => exact kept_reply hobjs _ _
    | ok handle =>
      rcases addAuth_cases (E := E) (S := { S' with objs := objs }) (o := o) handle with
        ⟨st, hadd, hst⟩ | hadd
      · simp only [hadd]
        cases st with
        | success => exact absurd rfl hst
        | _ => exact kept_reply hobjs _ _
      · simp only [hadd]
        refine ⟨h.insecure, fun p hp => ?_⟩
        rcases mem_cons.1 hp with rfl | hp
        · exact .inr (by simp [finish])
        · exact .inl (h.auths ▸ hp)
  · exact kept_finish h _

lemma Store.kept_amend (h : Store.Same S S') (create update : ℕ) (found : Status) :
    (S'.amend E m o create update found acts).Kept S := by
  unfold amend
  split_ifs with hflag htype
  · exact kept_reply h _ _
  · obtain ⟨objs, st⟩ := E.update S'.objs o m.idObject m.object m.h
    have hobjs : Store.Same S { S' with objs := objs } := ⟨h.insecure, h.auths⟩
    cases st with
    | success => exact kept_select hobjs
    | _ => exact kept_reply hobjs _ _
  · exact kept_select h

lemma Store.kept_refresh : (S.refresh E m).Kept S := by
  unfold refresh
  cases E.handleLookup S.objs m.h with
  | error st => exact kept_reply .refl _ _
  | ok o => exact kept_finish .refl _

lemma Store.kept_openTyped (type : τ) (create update exclusive : ℕ) :
    (S.openTyped E m type create update exclusive).Kept S := by
  unfold openTyped
  cases E.lookup type with
  | none => exact kept_reply .refl _ _
  | some lookup =>
    rcases hl : lookup S.objs m.idObject m.object with ⟨st, found⟩
    simp only [hl]
    split_ifs
    · exact kept_reply .refl _ _
    · exact kept_reply .refl _ _
    · exact kept_reply .refl _ _
    · cases found with
      | some o => exact kept_amend .refl _ _ _
      | none =>
        obtain ⟨objs, made⟩ := E.create S.objs m.idObject type
        have hobjs : Store.Same S { S with objs := objs } := ⟨rfl, rfl⟩
        cases made with
        | error st => exact kept_reply hobjs _ _
        | ok o => exact kept_amend hobjs _ _ _

lemma Store.kept_refuse : (S.refuse E m).Kept S := Store.Same.kept ⟨rfl, rfl⟩

lemma Store.kept_openObject : (S.openObject E m).Kept S := by
  unfold openObject
  dsimp only
  split_ifs
  · exact kept_refuse
  · cases m.flag createName with
    | error st => exact kept_reply .refl _ _
    | ok create =>
      cases m.flag updateName with
      | error st => exact kept_reply .refl _ _
      | ok update =>
        cases m.flag exclusiveName with
        | error st => exact kept_reply .refl _ _
        | ok exclusive =>
          cases E.requestedType m with
          | some type => exact kept_openTyped _ _ _ _
          | none =>
            dsimp only
            split_ifs
            · exact kept_reply .refl _ _
            · exact kept_refresh

lemma Store.change_kept : (S.change E m o).1.insecure = S.insecure ∧
      ∀ p ∈ (S.change E m o).1.remoteAuthList,
        p ∈ S.remoteAuthList ∨ .opened p.1 p.2 ∈ (S.change E m o).2.2 := by
  unfold change
  split_ifs
  · rcases addAuth_cases (E := E) m.h with ⟨st, hadd, hst⟩ | hadd
    · rw [hadd]
      cases st with
      | success => exact absurd rfl hst
      | _ => exact ⟨rfl, fun p hp => .inl hp⟩
    · rw [hadd]
      refine ⟨rfl, fun p hp => ?_⟩
      rcases mem_cons.1 hp with rfl | hp
      · exact .inr (mem_singleton.2 rfl)
      · exact .inl hp
  · exact ⟨rfl, fun p hp => .inl hp⟩

lemma Store.kept_updateDone (hins : S'.insecure = S.insecure)
    (hauths : ∀ p ∈ S'.remoteAuthList, p ∈ S.remoteAuthList ∨ Act.opened p.1 p.2 ∈ acts)
    (r : Option (Registered ο)) (st : Status) : (S'.updateDone E m r st acts).Kept S := by
  unfold updateDone
  cases r with
  | none =>
    split_ifs <;> exact ⟨hins, hauths⟩
  | some r =>
    have happ : ∀ p ∈ S'.remoteAuthList,
        p ∈ S.remoteAuthList ∨ Act.opened p.1 p.2 ∈ acts ++ [Act.signalled r.id] :=
      fun p hp => (hauths p hp).imp_right (mem_append_left _)
    split_ifs <;> exact ⟨hins, happ⟩

variable (r : Option (Registered ο))

lemma Store.kept_updateObject : (S.updateObject E m r).Kept S := by
  unfold updateObject
  cases S.updated E m r with
  | error st => exact kept_reply .refl _ _
  | ok o =>
    dsimp only
    split_ifs
    · exact kept_reply .refl _ _
    · exact kept_updateDone change_kept.1 change_kept.2 r _

lemma Store.kept_deleteObject : (S.deleteObject E m).Kept S := by
  unfold deleteObject
  cases E.handleLookup S.objs m.h with
  | error st => exact kept_reply .refl _ _
  | ok o =>
    cases hr : E.remove (E.typeOf o) with
    | none =>
      simp only [hr]
      exact kept_reply .refl _ _
    | some remove =>
      simp only [hr]
      exact Store.Same.kept ⟨rfl, rfl⟩

lemma Store.kept_answered : (S.answered r).Kept S := by
  cases r with
  | none => exact Store.Same.kept ⟨rfl, rfl⟩
  | some r => exact Store.Same.kept ⟨rfl, rfl⟩

lemma Store.kept_serve : (S.serve E m r).Kept S := by
  unfold serve
  split_ifs
  · exact kept_reply .refl _ _
  · exact kept_openObject
  · exact kept_refresh
  · exact kept_updateObject r
  · exact kept_reply .refl _ _
  · exact kept_answered r
  · exact kept_deleteObject
  · exact Store.Same.kept ⟨rfl, rfl⟩

lemma Store.kept_messageProcess : (S.messageProcess E m).Kept S := by
  unfold messageProcess
  split_ifs
  · cases S.registered.find? (·.id == m.rid) with
    | none => exact Store.Same.kept ⟨rfl, rfl⟩
    | some r =>
      dsimp only
      split_ifs
      · exact Store.Same.kept ⟨rfl, rfl⟩
      · exact kept_serve _
  · exact kept_refuse
  · exact kept_serve _

/-- A request that is not turned away on a secure connection names an authenticator or opens
one. -/
lemma Store.idObject_of_not_refused (hsec : S.insecure = false) (hrid : m.rid = 0)
    (hopen : ¬ E.OpensAuth m) (h : (S.messageProcess E m).refused = false) : m.idObject ≠ none := by
  intro hnone
  have htrue : (S.messageProcess E m).refused = true := by
    by_cases hop : m.op = opOpen
    · have htype : E.requestedType m ≠ some E.authKey := fun ht => hopen ⟨hop, ht⟩
      simp [messageProcess, serve, openObject, refuse, hrid, hsec, hnone, hop, htype]
    · simp [messageProcess, refuse, hrid, hsec, hnone, hop]
  rw [h] at htrue
  cases htrue

end Process

/-! ### The parser -/

/-- While a message is read: the stream ends with the message as far as it is known, then `tail`,
then what waits; and an authenticator of the message is open, its key active, and the running
signature covers what is known. -/
structure Reading (E : Env κ ο σ τ) (hs : ℕ) (received : Bytes) (log : List (Entry ο))
    (i : Input κ) (m : Message ο) (reading : Bool) (tail : Bytes) : Prop where
  stream : ∃ before pad vs os,
    received = before ++ (toBytes 4 m.authid ++ (m.fields ++ (pad ++ (spoken vs os reading ++
      (tail ++ i.bytes))))) ∧
    pad.length + protocolHeaderSize = hs ∧ Says m vs os ∧ (reading = true → os = []) ∧
    (m.idObject ≠ none → i.inContext = some (m.fields ++ (spoken vs os reading ++ tail)))
  key : ∀ a, m.idObject = some a → ∃ k, E.makeDstKey a = some k ∧ i.inKey = some k ∧
    ∃ e ∈ log, .opened m.authid a ∈ e.acts

section

variable {E : Env κ ο σ τ} {hs n : ℕ} {i i' : Input κ} {m : Message ο} {reading : Bool}
  {tail b : Bytes} (h : Reading E hs received log i m reading tail)

include h

lemma Reading.copied (hc : Input.Copied true n i b i') :
    Reading E hs received log i' m reading (tail ++ b) := by
  obtain ⟨before, pad, vs, os, hrec, hpad, hsaid, hos, hctx⟩ := h.stream
  refine ⟨⟨before, pad, vs, os, ?_, hpad, hsaid, hos, fun hid => ?_⟩, fun a ha => ?_⟩
  · rw [hrec, hc.bytes]
    simp
  · obtain ⟨a, ha⟩ := ne_none_iff_exists'.1 hid
    obtain ⟨k, -, hkey, -⟩ := h.key a ha
    rw [hc.context rfl (by rw [hkey]; rfl) (.inr (by rw [hctx hid]; rfl)), hctx hid, getD_some]
    simp
  · obtain ⟨k, hk, hkey, hopened⟩ := h.key a ha
    exact ⟨k, hk, hc.key.trans hkey, hopened⟩

lemma Reading.require (n : ℕ) : Reading E hs received log (i.require n) m reading tail :=
  ⟨h.stream, h.key⟩

lemma Reading.reader (r : Bytes) :
    Reading E hs (received ++ i.taken r) log (i.reader r) m reading tail := by
  obtain ⟨before, pad, vs, os, hrec, hrest⟩ := h.stream
  refine ⟨⟨before, pad, vs, os, ?_, hrest⟩, h.key⟩
  rw [hrec, Input.bytes_reader]
  simp

end

namespace Conn

variable [DecidableEq ο] [DecidableEq τ] {E : Env κ ο σ τ} {c c' : Conn κ ο σ}

/-- A request that the server acted on, after the messages `older`. -/
def Acted (E : Env κ ο σ τ) (c : Conn κ ο σ) (e : Entry ο) (older : List (Entry ο)) : Prop :=
  e.msg.rid = 0 → ¬ E.OpensAuth e.msg → e.refused = false →
    ∃ a k, E.makeDstKey a = some k ∧ (∃ e' ∈ older, .opened e.msg.authid a ∈ e'.acts) ∧
      (e.msg.authlen ≠ 0 → Carries E c.headerSize c.received e.msg k)

/-- What holds of a secure connection whatever the parser waits for. -/
structure Secure (E : Env κ ο σ τ) (c : Conn κ ο σ) : Prop where
  insecure : c.store.insecure = false
  auths : ∀ p ∈ c.store.remoteAuthList, ∃ e ∈ c.log, .opened p.1 p.2 ∈ e.acts
  log : ∀ newer e older, c.log = newer ++ e :: older → Acted E c e older

/-- What holds of the message that is being read. -/
def Stands (E : Env κ ο σ τ) (c : Conn κ ο σ) : Prop :=
  match c.state with
  | .intro => c.log = [] ∧ ∃ before, c.received = before ++ c.input.bytes
  | .header => protocolHeaderSize ≤ c.headerSize ∧ ∃ before, c.received = before ++ c.input.bytes
  | .nameLength m r => Reading E c.headerSize c.received c.log c.input m r []
  | .name m r nlen => Reading E c.headerSize c.received c.log c.input m r (toBytes 2 nlen)
  | .valueLength m r name =>
    Reading E c.headerSize c.received c.log c.input m r (toBytes 2 name.length ++ name)
  | .value m r name vlen =>
    Reading E c.headerSize c.received c.log c.input m r
      (toBytes 2 name.length ++ name ++ toBytes 4 vlen)
  | .signature m => Reading E c.headerSize c.received c.log c.input m false (toBytes 2 0)

structure Inv (E : Env κ ο σ τ) (c : Conn κ ο σ) : Prop where
  secure : Secure E c
  stands : c.up = true → Stands E c

lemma Secure.congr (h : Secure E c) (hstore : c'.store = c.store) (hlog : c'.log = c.log)
    (hsize : c'.headerSize = c.headerSize) (hrec : c'.received = c.received) : Secure E c' := by
  refine ⟨by rw [hstore]; exact h.insecure, by rw [hstore, hlog]; exact h.auths, ?_⟩
  intro newer e older heq hrid hopen href
  obtain ⟨a, k, hk, hopened, hcarries⟩ := h.log newer e older (hlog ▸ heq) hrid hopen href
  exact ⟨a, k, hk, hopened, by rw [hsize, hrec]; exact hcarries⟩

lemma accepted_inv (objs : σ) (registered : List (Registered ο)) :
    Inv E (accepted (κ := κ) false objs registered) where
  secure :=
    { insecure := rfl
      auths := fun p hp => by simp [accepted] at hp
      log := fun newer e older h => by simp [accepted] at h }
  stands := fun _ => ⟨rfl, [], rfl⟩

variable {m : Message ο} {i : Input κ}

lemma inv_messageDone (h : Secure E c) (hsize : protocolHeaderSize ≤ c.headerSize)
    (hrec : ∃ before, c.received = before ++ c.input.bytes)
    (hm : ∀ a, m.idObject = some a → ∃ k, E.makeDstKey a = some k ∧
      (∃ e ∈ c.log, .opened m.authid a ∈ e.acts) ∧
        (m.authlen ≠ 0 → c.verifyResult = .success → Carries E c.headerSize c.received m k)) :
    Inv E (c.messageDone E m) := by
  unfold messageDone
  by_cases hver : c.verifyResult = .success
  · rw [if_neg (not_not.2 hver)]
    have hk := Store.kept_messageProcess (E := E) (S := c.store) (m := m)
    have hsec : Secure E { c with
        store := (c.store.messageProcess E m).store
        log := ⟨m, (c.store.messageProcess E m).refused, (c.store.messageProcess E m).acts⟩ ::
          c.log } := by
      refine ⟨hk.insecure.trans h.insecure, fun p hp => ?_, fun newer e older heq => ?_⟩
      · rcases hk.auths p hp with hold | hnew
        · obtain ⟨e, he, hopened⟩ := h.auths p hold
          exact ⟨e, mem_cons_of_mem _ he, hopened⟩
        · exact ⟨_, mem_cons_self, hnew⟩
      · cases newer with
        | cons e' newer =>
          simp only [cons_append, cons.injEq] at heq
          exact h.log newer e older heq.2
        | nil =>
          obtain ⟨rfl, rfl⟩ := heq
          intro hrid hopen href
          obtain ⟨a, ha⟩ := ne_none_iff_exists'.1
            (Store.idObject_of_not_refused h.insecure hrid hopen href)
          obtain ⟨k, hk, hopened, hcarries⟩ := hm a ha
          exact ⟨a, k, hk, hopened, fun hlen => hcarries hlen hver⟩
    dsimp only
    split_ifs
    · exact ⟨hsec.congr rfl rfl rfl rfl, fun hup => by cases hup⟩
    · exact ⟨hsec.congr rfl rfl rfl rfl, fun _ => ⟨hsize, hrec⟩⟩
  · rw [if_pos hver]
    have hsec : Secure E { c with
        store := (c.store.send E (.status none c.verifyResult m.id none)).1 } :=
      { h with }
    dsimp only
    split_ifs
    · exact ⟨hsec.congr rfl rfl rfl rfl, fun hup => by cases hup⟩
    · exact ⟨hsec.congr rfl rfl rfl rfl, fun _ => ⟨hsize, hrec⟩⟩

/-- Everything that the parser does to the connection besides handing messages on. -/
lemma inv_await (h : Secure E c) {w : Wait ο} {n : ℕ} (hw : Stands E (c.await i w n)) :
    Inv E (c.await i w n) :=
  ⟨h.congr rfl rfl rfl rfl, fun _ => hw⟩

lemma bind_some {α β : Type} {x : Option α} {f : α → Option β} {b : β}
    (h : (x >>= f) = some b) : ∃ a, x = some a ∧ f a = some b := bind_eq_some_iff.1 h

lemma activate_some {authid : ℕ} {i' : Input κ} {idObject : Option ο}
    (h : c.activate E authid i = some (idObject, i')) :
    i'.bytes = i.bytes ∧ ∀ a, idObject = some a → ∃ k, E.makeDstKey a = some k ∧
      i'.inKey = some k ∧ i'.inContext = none ∧ (authid, a) ∈ c.store.remoteAuthList := by
  unfold activate at h
  split_ifs at h with hzero
  · cases h
    exact ⟨rfl, fun a ha => by cases ha⟩
  · obtain ⟨⟨handle, a⟩, hfind, h⟩ := bind_some h
    obtain ⟨key, hkey, h⟩ := bind_some h
    cases h
    refine ⟨rfl, fun a' ha => ?_⟩
    cases ha
    have hhandle : handle = authid := by simpa using find?_some hfind
    exact ⟨key, hkey, rfl, rfl, hhandle ▸ mem_of_find?_eq_some hfind⟩

lemma readHeader_some (h : c.readHeader E = some c') : ∃ m i1 i2 i3 i4 pad,
    Input.Copied true 4 c.input (toBytes 4 m.authid) i1 ∧
      c.activate E m.authid i1 = some (m.idObject, i2) ∧ Input.Copied true 20 i2 m.fields i3 ∧
      Input.Copied false (c.headerSize - protocolHeaderSize) i3 pad i4 ∧ Says m [] [] ∧
      c' = { c with verifyResult := .success }.await i4 (.nameLength m true) 2 := by
  obtain ⟨⟨authid, i1⟩, h1, h⟩ := bind_some h
  obtain ⟨⟨idObject, i2⟩, h2, h⟩ := bind_some h
  obtain ⟨⟨authlen, i3⟩, h3, h⟩ := bind_some h
  obtain ⟨⟨op, i4⟩, h4, h⟩ := bind_some h
  obtain ⟨⟨hdl, i5⟩, h5, h⟩ := bind_some h
  obtain ⟨⟨id, i6⟩, h6, h⟩ := bind_some h
  obtain ⟨⟨rid, i7⟩, h7, h⟩ := bind_some h
  obtain ⟨⟨pad, i8⟩, h8, h⟩ := bind_some h
  cases h
  refine ⟨{ authid, authlen, op, h := hdl, id, rid, idObject }, i1, i2, i7, i8, pad,
    Input.copied_of_getUint h1, h2, ?_, Input.copied h8, ⟨rfl, rfl⟩, rfl⟩
  have c6 := (Input.copied_of_getUint h6).append (by decide) (Input.copied_of_getUint h7)
  have c5 := (Input.copied_of_getUint h5).append (by decide) c6
  have c4 := (Input.copied_of_getUint h4).append (by decide) c5
  exact (Input.copied_of_getUint h3).append (by decide) c4

/-- The header: the key is active from `authid` on, so the signature covers the other fields. -/
lemma inv_readHeader (h : Secure E c) (hsize : protocolHeaderSize ≤ c.headerSize)
    (hrec : ∃ before, c.received = before ++ c.input.bytes) (hstep : c.readHeader E = some c') :
    Inv E c' := by
  obtain ⟨m, i1, i2, i3, i4, pad, c1, h2, hfields, hpad, hsaid, rfl⟩ := readHeader_some hstep
  obtain ⟨hbytes, hkey⟩ := activate_some h2
  obtain ⟨before, hrec⟩ := hrec
  have hread : Reading E c.headerSize c.received c.log i4 m true [] := by
    refine ⟨⟨before, pad, [], [], ?_, ?_, hsaid, fun _ => rfl, fun hid => ?_⟩, fun a ha => ?_⟩
    · rw [hrec, c1.bytes, ← hbytes, hfields.bytes, hpad.bytes]
      simp [spoken]
    · rw [hpad.length]
      omega
    · obtain ⟨a, ha⟩ := ne_none_iff_exists'.1 hid
      obtain ⟨k, -, hk, hctx, -⟩ := hkey a ha
      rw [hpad.skipped rfl, hfields.context rfl (by rw [hk]; rfl) (.inl (by decide)), hctx]
      simp [spoken]
    · obtain ⟨k, hmake, hk, -, hmem⟩ := hkey a ha
      obtain ⟨e, he, hopened⟩ := h.auths _ hmem
      refine ⟨k, hmake, ?_, e, he, hopened⟩
      rw [hpad.key, hfields.key, hk]
  have hsec : Secure E { c with verifyResult := .success } := h.congr rfl rfl rfl rfl
  exact inv_await hsec (hread.require 2)

lemma inv_insertNewValue {reading : Bool} {name : Bytes} {value : Option Bytes} (h : Secure E c)
    (hr : Reading E c.headerSize c.received c.log i m reading (pair (name, value)))
    (hstep : c.insertNewValue i m reading name value = some c') : Inv E c' := by
  obtain ⟨m', hm, hstep⟩ := bind_some hstep
  cases hstep
  obtain ⟨before, pad, vs, os, hrec, hpad, hsaid, hos, hctx⟩ := hr.stream
  suffices hread : Reading E c.headerSize c.received c.log i m' reading [] from
    inv_await h (hread.require 2)
  cases reading with
  | true =>
    obtain ⟨hsaid', hid, hfields, hobj⟩ := hsaid.setValue (by simpa [Message.insert] using hm)
    have hspoken : spoken vs os true ++ pair (name, value) =
        spoken (vs ++ [(name, value)]) os true := by simp [spoken]
    refine ⟨⟨before, pad, vs ++ [(name, value)], os, ?_, hpad, hsaid', hos, ?_⟩, ?_⟩
    · rw [hrec, hid, hfields, ← hspoken]
      simp
    · rw [hobj, hfields, append_nil, ← hspoken]
      exact hctx
    · rw [hobj, hid]
      exact hr.key
  | false =>
    have hm' : m' = m.setObjectValue name value := by simpa [Message.insert] using hm.symm
    subst hm'
    have hspoken : spoken vs os false ++ pair (name, value) =
        spoken vs (os ++ [(name, value)]) false := by simp [spoken]
    refine ⟨⟨before, pad, vs, os ++ [(name, value)], ?_, hpad, hsaid.setObjectValue name value,
      nofun, ?_⟩, hr.key⟩
    · rw [← hspoken, hrec]
      simp only [append_assoc]
      rfl
    · rw [append_nil, ← hspoken]
      exact hctx

lemma inputSignature_some {i' : Input κ} {b : Bytes} (h : inputSignature E i = some (b, i')) :
    i'.bytes = i.bytes ∧ ∃ k ctx, i.inKey = some k ∧ i.inContext = some ctx ∧ b = E.sign k ctx := by
  obtain ⟨k, hk, h⟩ := bind_some h
  obtain ⟨ctx, hctx, h⟩ := bind_some h
  cases h
  exact ⟨rfl, k, ctx, hk, hctx, rfl⟩

lemma expected_some {signature : Option Bytes} (h : c.expected E m = some (signature, i)) :
    i.bytes = c.input.bytes ∧ (m.idObject ≠ none → ∃ k ctx, c.input.inKey = some k ∧
      c.input.inContext = some ctx ∧ signature = some (E.sign k ctx)) := by
  unfold expected at h
  cases hobj : m.idObject with
  | none =>
    rw [hobj] at h
    cases h
    exact ⟨rfl, fun hne => absurd rfl hne⟩
  | some a =>
    rw [hobj] at h
    obtain ⟨⟨sig, i1⟩, hin, heq⟩ := map_eq_some_iff.1 h
    cases heq
    obtain ⟨hbytes, k, ctx, hk, hctx, rfl⟩ := inputSignature_some hin
    exact ⟨hbytes, fun _ => ⟨k, ctx, hk, hctx, rfl⟩⟩

lemma inv_readSignature (h : Secure E c)
    (hr : Reading E c.headerSize c.received c.log c.input m false (toBytes 2 0))
    (hstep : c.readSignature E m = some c') : Inv E c' := by
  obtain ⟨before, pad, vs, os, hrec, hpad, hsaid, -, hctx⟩ := hr.stream
  have hsize : protocolHeaderSize ≤ c.headerSize := by omega
  obtain ⟨⟨signature, i⟩, hsig, hstep⟩ := bind_some hstep
  split_ifs at hstep with hfail
  obtain ⟨⟨b, i'⟩, hb, hstep⟩ := bind_some hstep
  cases hstep
  have hcopy := Input.copied hb
  obtain ⟨hbytes, hexp⟩ := expected_some hsig
  have hstream : c.received = before ++ (toBytes 4 m.authid ++ (m.fields ++ (pad ++ (body vs os ++
      (b ++ i'.bytes))))) := by
    rw [hrec, ← hbytes, hcopy.bytes]
    simp [body]
  have hsplit : ∃ before', c.received = before' ++ i'.bytes :=
    ⟨before ++ (toBytes 4 m.authid ++ (m.fields ++ (pad ++ (body vs os ++ b)))), by
      rw [hstream]; simp only [append_assoc]⟩
  have hsec : Secure E { c with
      input := i'
      verifyResult := if signature = none ∨ signature = some b then c.verifyResult
        else .invalidKey } := h.congr rfl rfl rfl rfl
  refine inv_messageDone hsec hsize hsplit fun a ha => ?_
  · obtain ⟨k, hmake, hkey, hopened⟩ := hr.key a ha
    have hid : m.idObject ≠ none := ne_none_iff_exists'.2 ⟨a, ha⟩
    obtain ⟨k', ctx, hkey', hctx', hsig'⟩ := hexp hid
    have hk : k' = k := some.inj (hkey'.symm.trans hkey)
    have hc : ctx = m.fields ++ body vs os := some.inj (hctx'.symm.trans (hctx hid))
    rw [hk, hc] at hsig'
    refine ⟨k, hmake, hopened, fun _ hver => ?_⟩
    -- nothing was found wrong, so the bytes are the signature
    have hsame : signature = some b := by
      by_contra hne
      have hbad : ¬ (signature = none ∨ signature = some b) := by
        rintro (hnone | hsome)
        · rw [hsig'] at hnone; cases hnone
        · exact hne hsome
      rw [if_neg hbad] at hver
      cases hver
    have hb' : b = E.sign k (m.fields ++ body vs os) := some.inj (hsame.symm.trans hsig')
    refine ⟨before, pad, vs, os, i'.bytes, ?_, hpad, ⟨hsaid.values, hsaid.object⟩, ?_⟩
    · exact hstream.trans (by rw [hb']; rfl)
    · exact (congrArg length hb').symm.trans hcopy.length

/-- **One case of the parser**, whatever it waits for. -/
lemma Inv.stage (h : Inv E c) (hup : c.up = true) (hstep : c.stage E = some c') : Inv E c' := by
  have hs := h.stands hup
  unfold Stands at hs
  unfold Conn.stage at hstep
  rcases hstate : c.state with
    _ | _ | ⟨m, r⟩ | ⟨m, r, nlen⟩ | ⟨m, r, name⟩ | ⟨m, r, name, vlen⟩ | m <;>
    rw [hstate] at hs hstep <;> dsimp only at hs hstep
  · obtain ⟨hlog, before, hrec⟩ := hs
    obtain ⟨⟨version, i1⟩, h1, hstep⟩ := bind_some hstep
    obtain ⟨⟨size, i2⟩, h2, hstep⟩ := bind_some hstep
    split_ifs at hstep with hbad
    cases hstep
    refine ⟨⟨h.secure.insecure, h.secure.auths, fun newer e older heq => ?_⟩, fun _ => ⟨?_, ?_⟩⟩
    · have heq' : c.log = newer ++ e :: older := heq
      rw [hlog] at heq'
      simp at heq'
    · change protocolHeaderSize ≤ size
      omega
    · refine ⟨before ++ (toBytes 4 version ++ toBytes 4 size), ?_⟩
      change c.received = _ ++ i2.bytes
      rw [hrec, (Input.copied_of_getUint h1).bytes, (Input.copied_of_getUint h2).bytes]
      simp
  · exact inv_readHeader h.secure hs.1 hs.2 hstep
  · obtain ⟨⟨nlen, i⟩, hn, hstep⟩ := bind_some hstep
    have hread := hs.copied (Input.copied_of_getUint hn)
    rw [nil_append] at hread
    dsimp only at hstep
    split_ifs at hstep with hzero hr hauth halloc
    · -- the values of the message are over
      cases hstep
      subst hr
      obtain ⟨before, pad, vs, os, hrec, hpad, hsaid, hos, hctx⟩ := hread.stream
      suffices hnext : Reading E c.headerSize c.received c.log i m false [] from
        inv_await h.secure (hnext.require 2)
      have hspoken : spoken vs os true ++ toBytes 2 nlen = spoken vs os false := by
        simp [spoken, hos rfl, hzero]
      refine ⟨⟨before, pad, vs, os, ?_, hpad, hsaid, nofun, ?_⟩, hread.key⟩
      · rw [← hspoken]
        simpa [append_assoc, nil_append] using hrec
      · rw [append_nil, ← hspoken]
        exact hctx
    · -- the message is over, and has no signature
      cases hstep
      obtain ⟨before, pad, vs, os, hrec, hpad, -⟩ := hread.stream
      have hsplit : ∃ before', c.received = before' ++ i.bytes :=
        ⟨before ++ (toBytes 4 m.authid ++ (m.fields ++ (pad ++ (spoken vs os r ++
          toBytes 2 nlen)))), by rw [hrec]; simp only [append_assoc]⟩
      have hsec : Secure E { c with input := i, state := .nameLength m r } :=
        h.secure.congr rfl rfl rfl rfl
      have hsize : protocolHeaderSize ≤ c.headerSize := by omega
      refine inv_messageDone hsec hsize hsplit fun a ha => ?_
      obtain ⟨k, hmake, -, hopened⟩ := hread.key a ha
      exact ⟨k, hmake, hopened, fun hne => absurd hauth hne⟩
    · cases hstep
      have hrf : r = false := by simpa using hr
      rw [hrf, hzero] at hread
      exact inv_await h.secure (hread.require _)
    · cases hstep
      exact inv_await h.secure (hread.require _)
  · obtain ⟨⟨name, i⟩, hn, hstep⟩ := bind_some hstep
    cases hstep
    have hcopy := Input.copied hn
    have hread := hs.copied hcopy
    rw [← hcopy.length] at hread
    exact inv_await h.secure (hread.require _)
  · obtain ⟨⟨vlen, i⟩, hv, hstep⟩ := bind_some hstep
    have hread := hs.copied (Input.copied_of_getUint hv)
    dsimp only at hstep
    split_ifs at hstep with hzero halloc
    · refine inv_insertNewValue h.secure ?_ hstep
      rw [hzero] at hread
      simpa [pair] using hread
    · cases hstep
      exact inv_await h.secure (hread.require _)
  · obtain ⟨⟨value, i⟩, hv, hstep⟩ := bind_some hstep
    have hcopy := Input.copied hv
    have hread := hs.copied hcopy
    rw [← hcopy.length] at hread
    refine inv_insertNewValue h.secure ?_ hstep
    simpa [pair] using hread
  · exact inv_readSignature h.secure hs hstep

lemma Inv.disconnect (h : Inv E c) : Inv E c.disconnect :=
  ⟨h.secure.congr rfl rfl rfl rfl, nofun⟩

lemma Inv.ready (h : Inv E c) (n : ℕ) : Inv E (c.ready E n) := by
  induction n generalizing c with
  | zero => exact h
  | succ n ih =>
    rw [Conn.ready]
    split_ifs with hgo
    · cases hstep : c.stage E with
      | none => exact ih h.disconnect
      | some c' => exact ih (h.stage hgo.1 hstep)
    · exact h

lemma Inv.read (h : Inv E c) (r : Bytes) : Inv E (c.read E r) := by
  unfold Conn.read
  split_ifs with hdown
  · exact h
  · have hup : c.up = true := by simpa using fun hf => hdown (.inl hf)
    suffices hnew : Inv E { c with
        input := c.input.reader r
        received := c.received ++ c.input.taken r } from hnew.ready _
    refine ⟨⟨h.secure.insecure, h.secure.auths, ?_⟩, fun _ => ?_⟩
    · intro newer e older heq hrid hopen href
      obtain ⟨a, k, hk, hopened, hcarries⟩ := h.secure.log newer e older heq hrid hopen href
      exact ⟨a, k, hk, hopened, fun hlen => (hcarries hlen).append _⟩
    · have hs := h.stands hup
      have happ : ∀ {before : Bytes}, c.received = before ++ c.input.bytes →
          c.received ++ c.input.taken r = before ++ (c.input.reader r).bytes := by
        intro before hrec
        rw [hrec, Input.bytes_reader, append_assoc]
      unfold Stands at hs ⊢
      cases hstate : c.state <;> rw [hstate] at hs
      case intro =>
        obtain ⟨hlog, before, hrec⟩ := hs
        exact ⟨hlog, before, happ hrec⟩
      case header =>
        obtain ⟨hsize, before, hrec⟩ := hs
        exact ⟨hsize, before, happ hrec⟩
      all_goals exact Reading.reader hs r

lemma Inv.step (h : Inv E c) (ev : Event ο σ) : Inv E (c.step E ev) := by
  cases ev with
  | read r => exact h.read r
  | close => exact h.disconnect
  | elsewhere objs registered =>
    exact ⟨{ h.secure with }, h.stands⟩

lemma Inv.run (h : Inv E c) (evs : List (Event ο σ)) : Inv E (c.run E evs) := by
  induction evs generalizing c with
  | nil => exact h
  | cons ev evs ih => exact ih (h.step ev)

/-- **Whatever comes in on a secure connection**, and in whatever pieces: a request that the
server acts on, and that does not open an authenticator, names one that was opened on the
connection before, and if its header gives the signature any bytes at all then the stream has the
signature of that key right behind the message. -/
theorem acted_signed (E : Env κ ο σ τ) (objs : σ) (registered : List (Registered ο))
    (evs : List (Event ο σ)) {newer older : List (Entry ο)} {e : Entry ο}
    (hlog : (run E (accepted false objs registered) evs).log = newer ++ e :: older)
    (hrid : e.msg.rid = 0) (hopen : ¬ E.OpensAuth e.msg) (hact : e.refused = false)
    (hlen : e.msg.authlen ≠ 0) :
    ∃ a k, E.makeDstKey a = some k ∧ (∃ e' ∈ older, .opened e.msg.authid a ∈ e'.acts) ∧
      Carries E (run E (accepted false objs registered) evs).headerSize
        (run E (accepted false objs registered) evs).received e.msg k := by
  obtain ⟨a, k, hk, hopened, hcarries⟩ :=
    ((accepted_inv objs registered).run evs).secure.log newer e older hlog hrid hopen hact
  exact ⟨a, k, hk, hopened, hcarries hlen⟩

/-! ### A run that the theorem is about, and one that it leaves out -/

section Sample

/-- One authenticator (`true`) with the handle 1 and one other object with the handle 2. The
signature is a byte with the number of bytes that it covers. -/
def sampleEnv : Env Unit Bool Unit Bool where
  sign := fun _ b => [UInt8.ofNat b.length]
  makeDstKey := fun o => if o then some () else none
  verifyAuth := fun _ => .success
  typeNamed := fun b => if b = authenticatorName then some true else none
  authKey := true
  typeOf := fun o => o
  innerType := fun _ => none
  lookup := fun t => if t then some fun _ _ _ => (.success, some true) else none
  create := fun s _ _ => (s, .error .notImplemented)
  update := fun s _ _ _ _ => (s, .success)
  remove := fun t => if t then none else some fun s _ _ => (s, .success)
  objectHandle := fun s o => (s, .ok (if o then 1 else 2))
  handleLookup := fun _ h => if h = 1 then .ok true else if h =
    2 then .ok false else .error .notFound
  allocates := fun _ => true
  sends := fun _ => .success

/-- The introduction, and a request to open the authenticator. -/
def sampleOpen : Bytes :=
  toBytes 4 100 ++ toBytes 4 24 ++
    (toBytes 4 0 ++ toBytes 4 0 ++ toBytes 4 opOpen ++ toBytes 4 0 ++ toBytes 4 1 ++ toBytes 4 0) ++
    pair (typeName, some authenticatorName) ++ toBytes 2 0 ++ toBytes 2 0

/-- A request in the name of the authenticator to delete the other object. -/
def sampleDelete (authlen : ℕ) : Bytes :=
  toBytes 4 1 ++ toBytes 4 authlen ++ toBytes 4 opDelete ++ toBytes 4 2 ++ toBytes 4 2 ++
    toBytes 4 0 ++ toBytes 2 0 ++ toBytes 2 0

/-- What the server is given in the end. -/
def sampleEntry (authlen : ℕ) (authenticator : Option Bytes) : Entry Bool where
  msg :=
    { authid := 1, authlen := authlen, op := opDelete, h := 2, id := 2, rid := 0
      idObject := some true, authenticator := authenticator }
  refused := false
  acts := [.removed false]

/-- The request comes in two pieces. -/
def sampleRun (request : Bytes) : Conn Unit Bool Unit :=
  run sampleEnv (accepted false () [])
    [.read (sampleOpen ++ request.take 10), .read (request.drop 10)]

lemma not_opensAuth_sample (authlen : ℕ) (authenticator : Option Bytes) :
    ¬ sampleEnv.OpensAuth (sampleEntry authlen authenticator).msg := by
  rintro ⟨hop, -⟩
  simp [sampleEntry, opDelete, opOpen] at hop

theorem acted_signed_sample :
    ∃ older, (sampleRun (sampleDelete 1 ++ [24])).log = [] ++ sampleEntry 1 (some [24]) :: older ∧
      ∃ a k, sampleEnv.makeDstKey a = some k ∧ (∃ e' ∈ older, .opened 1 a ∈ e'.acts) ∧
        Carries sampleEnv (sampleRun (sampleDelete 1 ++ [24])).headerSize
          (sampleRun (sampleDelete 1 ++ [24])).received (sampleEntry 1 (some [24])).msg k := by
  have hlog : (sampleRun (sampleDelete 1 ++ [24])).log =
      [] ++ sampleEntry 1 (some [24]) :: (sampleRun (sampleDelete 1 ++ [24])).log.tail := by
    decide +kernel
  exact ⟨_, hlog,
    acted_signed sampleEnv () [] _ hlog rfl (not_opensAuth_sample _ _) rfl (by decide)⟩

/-- Without a signature the request is carried out all the same. -/
theorem unsigned_delete_acted :
    ∃ older, (sampleRun (sampleDelete 0)).log = sampleEntry 0 none :: older ∧
      (sampleEntry 0 none).msg.rid = 0 ∧ ¬ sampleEnv.OpensAuth (sampleEntry 0 none).msg ∧
      (sampleEntry 0 none).refused = false ∧ (sampleEntry 0 none).acts = [.removed false] ∧
      ∀ k, ¬ Carries sampleEnv (sampleRun (sampleDelete 0)).headerSize
        (sampleRun (sampleDelete 0)).received (sampleEntry 0 none).msg k := by
  have hlog : (sampleRun (sampleDelete 0)).log =
      sampleEntry 0 none :: (sampleRun (sampleDelete 0)).log.tail := by decide +kernel
  refine ⟨_, hlog, rfl, not_opensAuth_sample _ _, rfl, rfl, ?_⟩
  rintro k ⟨before, pad, vs, os, after, -, -, -, hlen⟩
  cases hlen

end Sample

/-! ### The parser stops only for want of bytes -/

/-- The lengths that are waited for are not zero. -/
def Hungry (c : Conn κ ο σ) : Prop :=
  match c.state with
  | .name _ _ nlen => nlen ≠ 0
  | .value _ _ _ vlen => vlen ≠ 0
  | .signature m => m.authlen ≠ 0
  | _ => True

variable {i' : Input κ} {b : Bytes} {n : ℕ} {keep : Bool}

lemma inBytes_copied (h : Input.Copied keep n i b i') : i.inBytes = n + i'.inBytes := by
  have hlen := congrArg length h.bytes
  rwa [length_append, h.length] at hlen

lemma lt_of_copied (h : Input.Copied keep n i b i') (hn : n ≠ 0) : i'.inBytes < i.inBytes := by
  rw [inBytes_copied h]
  omega

/-- The parser got on: it waits for bytes again, and has taken some. -/
structure Moved (c c' : Conn κ ο σ) : Prop where
  hungry : Hungry c'
  shorter : c'.input.inBytes < c.input.inBytes

lemma moved_messageDone {st : Status} (h : Hungry c) (hlt : i.inBytes < c.input.inBytes) :
    Moved c ({ c with input := i, verifyResult := st }.messageDone E m) := by
  unfold messageDone
  dsimp only
  split_ifs
  exacts [⟨h, hlt⟩, ⟨trivial, hlt⟩, ⟨h, hlt⟩, ⟨trivial, hlt⟩]

lemma moved_readHeader (hstep : c.readHeader E = some c') : Moved c c' := by
  obtain ⟨m, i1, i2, i3, i4, pad, c1, h2, hfields, hpad, -, rfl⟩ := readHeader_some hstep
  have l1 := inBytes_copied c1
  have l2 : i2.inBytes = i1.inBytes := congrArg length (activate_some h2).1
  have l3 := inBytes_copied hfields
  have l4 := inBytes_copied hpad
  have hlt : i4.inBytes < c.input.inBytes := by omega
  exact ⟨trivial, hlt⟩

lemma Hungry.stage (h : Hungry c) (hstep : c.stage E = some c') : Moved c c' := by
  have hs := h
  unfold Hungry at hs
  unfold Conn.stage at hstep
  rcases hstate : c.state with
    _ | _ | ⟨m, r⟩ | ⟨m, r, nlen⟩ | ⟨m, r, name⟩ | ⟨m, r, name, vlen⟩ | m <;>
    rw [hstate] at hs hstep <;> dsimp only at hs hstep
  · obtain ⟨⟨version, i1⟩, h1, hstep⟩ := bind_some hstep
    obtain ⟨⟨size, i2⟩, h2, hstep⟩ := bind_some hstep
    split_ifs at hstep with hbad
    cases hstep
    exact ⟨trivial, (lt_of_copied (Input.copied_of_getUint h2) (by decide)).trans
      (lt_of_copied (Input.copied_of_getUint h1) (by decide))⟩
  · exact moved_readHeader hstep
  · obtain ⟨⟨nlen, i⟩, hn, hstep⟩ := bind_some hstep
    have hlt := lt_of_copied (Input.copied_of_getUint hn) (by decide)
    split_ifs at hstep with hzero hr hauth halloc <;> cases hstep
    · exact ⟨trivial, hlt⟩
    · exact hstate ▸ moved_messageDone h hlt
    · exact ⟨hauth, hlt⟩
    · exact ⟨hzero, hlt⟩
  · obtain ⟨⟨name, i⟩, hn, hstep⟩ := bind_some hstep
    have hlt := lt_of_copied (Input.copied hn) hs
    cases hstep
    exact ⟨trivial, hlt⟩
  · obtain ⟨⟨vlen, i⟩, hv, hstep⟩ := bind_some hstep
    have hlt := lt_of_copied (Input.copied_of_getUint hv) (by decide)
    split_ifs at hstep with hzero halloc
    · obtain ⟨m', -, hstep⟩ := bind_some hstep
      cases hstep
      exact ⟨trivial, hlt⟩
    · cases hstep
      exact ⟨hzero, hlt⟩
  · obtain ⟨⟨value, i⟩, hv, hstep⟩ := bind_some hstep
    obtain ⟨m', -, hstep⟩ := bind_some hstep
    have hlt := lt_of_copied (Input.copied hv) hs
    cases hstep
    exact ⟨trivial, hlt⟩
  · obtain ⟨⟨signature, i⟩, hsig, hstep⟩ := bind_some hstep
    split_ifs at hstep with hfail
    obtain ⟨⟨b, i'⟩, hb, hstep⟩ := bind_some hstep
    cases hstep
    have hi : i.inBytes = c.input.inBytes := congrArg length (expected_some hsig).1
    exact moved_messageDone h (hi ▸ lt_of_copied (Input.copied hb) hs)

/-- The connection is down, or waits for more bytes than it has, which are `n` at most. -/
structure Waits (n : ℕ) (c : Conn κ ο σ) : Prop where
  hungry : Hungry c
  le : c.input.inBytes ≤ n
  waits : c.up = false ∨ c.input.inBytes < c.input.bytesNeeded

/-- With as many rounds as there are bytes, the handler goes on until it has to wait. -/
lemma Hungry.ready {k : ℕ} (h : Hungry c) (hk : c.input.inBytes ≤ k) (hn : c.input.inBytes < n) :
    Waits k (c.ready E n) := by
  induction n generalizing c with
  | zero => omega
  | succ n ih =>
    rw [Conn.ready]
    split_ifs with hgo
    · cases hstep : c.stage E with
      | none =>
        have hdown : c.disconnect.ready E n = c.disconnect := by
          cases n <;> simp [Conn.ready, disconnect]
        rw [getD_none, hdown]
        exact ⟨h, hk, .inl rfl⟩
      | some c' =>
        have hm := h.stage hstep
        exact ih hm.hungry (hm.shorter.le.trans hk) (hm.shorter.trans_le (Nat.lt_succ_iff.mp hn))
    · exact ⟨h, hk, (not_and_or.mp hgo).imp Bool.eq_false_iff.mpr not_le.mp⟩

/-- The bytes that the socket has at an event. -/
def Event.size : Event ο σ → ℕ
  | .read r => r.length
  | _ => 0

lemma Waits.step (E : Env κ ο σ τ) (h : Waits n c) (ev : Event ο σ) :
    Waits (n + ev.size) (c.step E ev) := by
  cases ev with
  | read r =>
    change Waits (n + r.length) (c.read E r)
    unfold Conn.read
    split_ifs
    · exact ⟨h.hungry, Nat.le_add_right_of_le h.le, h.waits⟩
    · refine Hungry.ready (c := { c with input := c.input.reader r, received := _ }) h.hungry ?_
        (Nat.lt_succ_self _)
      rw [Input.inBytes, Input.bytes_reader, length_append]
      exact Nat.add_le_add h.le (length_take_le' ..)
  | close => exact ⟨h.hungry, h.le, .inl rfl⟩
  | elsewhere objs registered => exact ⟨h.hungry, h.le, h.waits⟩

/-- **No complete piece of a message is left in the buffer**: however the bytes come in and whatever
happens, a connection that is up needs more bytes than it has. With less than 4 GiB in all their
number fits `in_bytes`. -/
theorem run_waits (E : Env κ ο σ τ) (insecure : Bool) (objs : σ) (registered : List (Registered ο))
    (evs : List (Event ο σ)) (hin : (evs.map Event.size).sum < UInt32.size) :
    let c := run E (accepted insecure objs registered) evs
    c.input.inBytes < UInt32.size ∧ (c.up = false ∨ c.input.inBytes < c.input.bytesNeeded) := by
  have hrun {c : Conn κ ο σ} {n : ℕ} (h : Waits n c) :
      Waits (n + (evs.map Event.size).sum) (c.run E evs) := by
    clear hin
    induction evs generalizing c n with
    | nil => exact h
    | cons ev evs ih =>
      rw [map_cons, sum_cons, ← Nat.add_assoc]
      exact ih (h.step E ev)
  have h := hrun (n := 0) (c := accepted insecure objs registered)
    ⟨trivial, Nat.le_refl 0, .inr (Nat.zero_lt_succ 7)⟩
  exact ⟨by have := h.le; omega, h.waits⟩

/-- After the two pieces of a message the connection waits for the next one. -/
theorem run_waits_sample : let c := sampleRun (sampleDelete 0)
    c.up = true ∧ c.input.inBytes < c.input.bytesNeeded := by
  have hup : (sampleRun (sampleDelete 0)).up = true := by decide +kernel
  have h := (run_waits sampleEnv false () []
    [.read (sampleOpen ++ (sampleDelete 0).take 10), .read ((sampleDelete 0).drop 10)]
    (by decide)).2
  exact ⟨hup, h.resolve_left fun hdown => Bool.false_ne_true (hdown.symm.trans hup)⟩

end Conn

end IscDhcp.Omapip
