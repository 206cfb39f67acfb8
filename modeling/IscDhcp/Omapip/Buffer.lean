import IscDhcp.Basic
import IscDhcp.Lib.BigEndian

/-!
The input side of an OMAPI connection (`omapip/buffer.c`). Bytes from the socket wait in a chain
of rings; bytes that are copied out while a key is active are added to the running signature of
that key.
-/

namespace IscDhcp.Omapip

open BigEndian List

def omapiBufSize : ℕ := 4048

/-- A ring of the chain: `first` is the place of its first byte, the one behind `head`, and
`bytes` are those up to `tail`. -/
structure Buffer where
  first : ℕ := 0
  bytes : Bytes := []
  deriving DecidableEq, Repr

namespace Buffer

/-- `BUFFER_BYTES_FREE`: one byte of the ring is never used. -/
def bytesFree (b : Buffer) : ℕ := omapiBufSize - 1 - b.bytes.length

/-- The pieces in which the first `n` bytes are copied: a piece ends where the ring does. -/
def pieces (b : Buffer) (n : ℕ) : List Bytes :=
  let upto := omapiBufSize - b.first
  [(b.bytes.take n).take upto, (b.bytes.take n).drop upto].filter (!·.isEmpty)

def advance (b : Buffer) (n : ℕ) : Buffer where
  first := (b.first + n) % omapiBufSize
  bytes := b.bytes.drop n

/-- The pieces of the first `n` bytes in a chain. -/
def chainPieces : List Buffer → ℕ → List Bytes
  | [], _ => []
  | b :: bs, n => b.pieces n ++ chainPieces bs (n - b.bytes.length)

/-- What is left of a chain: buffers that were emptied are gone. -/
def chainAdvance : List Buffer → ℕ → List Buffer
  | [], _ => []
  | b :: bs, n =>
    if b.bytes.length ≤ n then chainAdvance bs (n - b.bytes.length) else b.advance n :: bs

/-- Bytes go into the last ring, or into a new one if there is none or the last one is full. -/
def chainAppend : List Buffer → Bytes → List Buffer
  | [], r => [{ bytes := r }]
  | [b], r =>
    if b.bytesFree = 0 then [b, { bytes := r }] else [{ b with bytes := b.bytes ++ r }]
  | b :: bs, r => b :: chainAppend bs r

/-- The bytes that fit where the next ones go. -/
def chainFree : List Buffer → ℕ
  | [] => omapiBufSize - 1
  | [b] => if b.bytesFree = 0 then omapiBufSize - 1 else b.bytesFree
  | _ :: bs => chainFree bs

end Buffer

/-- The input of a connection. `inContext` are the bytes that the running signature covers. -/
structure Input (κ : Type) where
  inbufs : List Buffer := []
  bytesNeeded : ℕ := 0
  inKey : Option κ := none
  inContext : Option Bytes := none

namespace Input

variable {κ : Type}

variable (c : Input κ)

def bytes : Bytes := c.inbufs.flatMap Buffer.bytes

def inBytes : ℕ := c.bytes.length

/-- `omapi_connection_sign_data` for piece after piece. The flag that asks for a new context stays
set for the rest of the call, and a context is only ever made into a null pointer: the library
gives up the whole process over a second piece (`none`). -/
def signPieces (init : Bool) : Option Bytes → List Bytes → Option (Option Bytes)
  | ctx, [] => some ctx
  | none, p :: ps => signPieces true (some p) ps
  | some b, p :: ps => if init then none else signPieces false (some (b ++ p)) ps

/-- The running signature after the pieces of one call; `keep` is false for a null buffer, whose
bytes are not signed. -/
def signed (keep : Bool) (c : Input κ) (pieces : List Bytes) : Option (Option Bytes) :=
  if keep && c.inKey.isSome then signPieces false c.inContext pieces else some c.inContext

def copyout (keep : Bool) (n : ℕ) (c : Input κ) : Option (Bytes × Input κ) :=
  if c.inBytes < n then none
  else do
    let pieces := Buffer.chainPieces c.inbufs n
    let ctx ← c.signed keep pieces
    some (pieces.flatten, { c with inbufs := Buffer.chainAdvance c.inbufs n, inContext := ctx })

def getUint (n : ℕ) (c : Input κ) : Option (ℕ × Input κ) := do
  let (b, c) ← c.copyout true n
  some (ofBytes b, c)

/-- Setting `input-authenticator`: a running signature is thrown away. -/
def setKey (key : Option κ) : Input κ := { c with inKey := key, inContext := none }

def require (n : ℕ) : Input κ := { c with bytesNeeded := n }

/-- `omapi_connection_reader` has bytes enough and reads no more. -/
def satisfied : Bool :=
  omapiBufSize - 1 ≤ c.inBytes && c.bytesNeeded < c.inBytes

/-- The bytes that it takes otherwise of those the socket has. -/
def taken (r : Bytes) : Bytes := r.take (Buffer.chainFree c.inbufs)

/-- The connection once they are in the chain. -/
def reader (r : Bytes) : Input κ :=
  { c with inbufs := Buffer.chainAppend c.inbufs (c.taken r) }

end Input

/-! ### What is copied out -/

namespace Buffer

lemma flatten_pieces (b : Buffer) (n : ℕ) : (b.pieces n).flatten = b.bytes.take n := by
  rw [pieces, flatten_filter_not_isEmpty]
  simp

lemma flatten_chainPieces (bs : List Buffer) (n : ℕ) :
    (chainPieces bs n).flatten = (bs.flatMap bytes).take n := by
  induction bs generalizing n with
  | nil => simp [chainPieces]
  | cons b bs ih => simp [chainPieces, flatten_pieces, ih, take_append]

lemma bytes_chainAdvance (bs : List Buffer) (n : ℕ) :
    (chainAdvance bs n).flatMap bytes = (bs.flatMap bytes).drop n := by
  induction bs generalizing n with
  | nil => simp [chainAdvance]
  | cons b bs ih =>
    rw [chainAdvance, flatMap_cons, drop_append]
    split_ifs with hb
    · rw [ih, drop_eq_nil_of_le hb, nil_append]
    · have hn : n - b.bytes.length = 0 := by omega
      rw [flatMap_cons, advance, hn, drop_zero]

lemma bytes_chainAppend (bs : List Buffer) (r : Bytes) :
    (chainAppend bs r).flatMap bytes = bs.flatMap bytes ++ r := by
  fun_induction chainAppend bs r with
  | case1 r => simp
  | case2 r b h => simp
  | case3 r b h => simp
  | case4 r b bs h ih => simp [ih]

end Buffer

namespace Input

variable {κ : Type} {c c' : Input κ} {b : Bytes} {n : ℕ}

lemma signPieces_false {ctx ctx' : Option Bytes} {ps : List Bytes}
    (h : signPieces false ctx ps = some ctx') (hp : ps ≠ [] ∨ ctx.isSome) :
    ctx' = some (ctx.getD [] ++ ps.flatten) := by
  -- once a context is there, the pieces are appended
  have hsome : ∀ (ps : List Bytes) (b : Bytes) (init : Bool) (ctx' : Option Bytes),
      signPieces init (some b) ps = some ctx' → ctx' = some (b ++ ps.flatten) := by
    intro ps
    induction ps with
    | nil => intro b init ctx' h; simpa [signPieces] using h.symm
    | cons p ps ih =>
      intro b init ctx' h
      cases init with
      | true => simp [signPieces] at h
      | false => simpa using ih (b ++ p) false ctx' (by simpa [signPieces] using h)
  cases ctx with
  | some b => exact hsome ps b false ctx' h
  | none =>
    cases ps with
    | nil => simp at hp
    | cons p ps => exact hsome ps p true ctx' h

/-- What a call of `copyout` does: it takes the first bytes off the chain, and the running
signature of an active key covers them unless they are thrown away. -/
structure Copied (keep : Bool) (n : ℕ) (c : Input κ) (b : Bytes) (c' : Input κ) : Prop where
  bytes : c.bytes = b ++ c'.bytes
  length : b.length = n
  key : c'.inKey = c.inKey
  context : keep = true → c.inKey.isSome → 0 < n ∨ c.inContext.isSome →
    c'.inContext = some (c.inContext.getD [] ++ b)
  skipped : keep = false → c'.inContext = c.inContext

lemma copied {keep : Bool} (h : c.copyout keep n = some (b, c')) : Copied keep n c b c' := by
  unfold copyout at h
  split_ifs at h with hn
  have hle : n ≤ c.bytes.length := Nat.le_of_not_lt hn
  simp only [Option.bind_eq_bind, Option.bind_eq_some_iff] at h
  obtain ⟨ctx, hctx, rfl, rfl⟩ := h
  have htake : (Buffer.chainPieces c.inbufs n).flatten = c.bytes.take n :=
    Buffer.flatten_chainPieces c.inbufs n
  have hlen : (Buffer.chainPieces c.inbufs n).flatten.length = n := by
    rw [htake, length_take, Nat.min_eq_left hle]
  refine ⟨?_, hlen, rfl, ?_, ?_⟩
  · rw [htake]
    exact (take_append_drop n c.bytes).symm.trans
      (congrArg (c.bytes.take n ++ ·) (Buffer.bytes_chainAdvance c.inbufs n).symm)
  · intro hkeep hkey h0
    have hsign : signPieces false c.inContext (Buffer.chainPieces c.inbufs n) = some ctx := by
      simpa [signed, hkeep, hkey] using hctx
    refine signPieces_false hsign (h0.imp_left fun hpos hnil => ?_)
    rw [hnil, flatten_nil, length_nil] at hlen
    omega
  · intro hkeep
    simpa [signed, hkeep] using hctx.symm

lemma copied_of_getUint {v : ℕ} (h : c.getUint n = some (v, c')) :
    Copied true n c (toBytes n v) c' := by
  simp only [getUint, Option.bind_eq_bind, Option.bind_eq_some_iff, Prod.exists] at h
  obtain ⟨b, c1, hcopy, rfl, rfl⟩ := h
  have hc := copied hcopy
  have hb : toBytes n (ofBytes b) = b := by rw [← hc.length, toBytes_ofBytes]
  rw [hb]
  exact hc

lemma Copied.append {n' : ℕ} {b' : Bytes} {c'' : Input κ} (h : Copied true n c b c') (hn : 0 < n)
    (h' : Copied true n' c' b' c'') : Copied true (n + n') c (b ++ b') c'' where
  bytes := by rw [h.bytes, h'.bytes, append_assoc]
  length := by rw [length_append, h.length, h'.length]
  key := h'.key.trans h.key
  context _ hk _ := by
    have hx := h.context rfl hk (.inl hn)
    rw [h'.context rfl (h.key ▸ hk) (.inr (by rw [hx]; rfl)), hx]
    simp
  skipped := nofun

lemma bytes_reader (c : Input κ) (r : Bytes) : (c.reader r).bytes = c.bytes ++ c.taken r :=
  Buffer.bytes_chainAppend c.inbufs _

end Input

end IscDhcp.Omapip
