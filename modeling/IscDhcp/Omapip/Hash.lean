import IscDhcp.Lib.HashTable
import IscDhcp.Basic
import Mathlib.Tactic.Ring

/-!
The hash tables of `omapip/hash.c`, by which leases, clients, hosts, classes and options are
found.

A key is a pointer and a length; the pointer is stored. What it points to stays as it is while
the entry is in the table. Memory never runs out.
-/

namespace IscDhcp.Omapip

open IscDhcp.Lib List Option

/-- A pointer, as the bytes that can be read from it on, and the length that goes with it. -/
structure Key where
  name : Bytes
  len : ℕ
  le : len ≤ name.length

namespace Key

def bytes (k : Key) : Bytes := k.name.take k.len

end Key

/-- `do_case_hash`, `do_string_hash`, `do_id_hash`, `do_number_hash` and `do_ip4_hash`. -/
inductive Hasher
  | case | string | id | number | ip4
  deriving DecidableEq, Repr

/-! ### The hash functions -/

def tolower (c : UInt8) : UInt8 := if 0x41 ≤ c ∧ c ≤ 0x5a then c + 0x20 else c

def isascii (c : UInt8) : Bool := c < 0x80

def foldCase (c : UInt8) : UInt8 := if isascii c then tolower c else c

/-- Add the carry back in. -/
def addCarry (accum : ℕ) : ℕ :=
  if 65535 < accum then addCarry (accum % 65536 + accum / 65536) else accum
termination_by accum

def accumulate (accum : ℕ) (c : UInt8) : ℕ := addCarry (accum * 2 + c.toNat)

def doCaseHash (name : Bytes) (size : ℕ) : ℕ := (name.map foldCase).foldl accumulate 0 % size

def doStringHash (name : Bytes) (size : ℕ) : ℕ := name.foldl accumulate 0 % size

/-- The bytes in groups of three. -/
def idGroups (accum : ℕ) : Bytes → ℕ
  | x :: y :: z :: s =>
    idGroups (accum ^^^ x.toNat <<< 16 ^^^ y.toNat <<< 8 ^^^ z.toNat) s
  | _ => accum

def doIdHash (name : Bytes) (size : ℕ) : ℕ :=
  (match name.length % 3, name with
  | 2, x :: y :: s => idGroups (x.toNat <<< 8 ^^^ y.toNat) s
  | 1, x :: s => idGroups x.toNat s
  | _, s => idGroups 0 s) % size

/-- An `unsigned` in the order of the machine's bytes. -/
def readUnsigned (bigEndian : Bool) (s : Bytes) : ℕ :=
  (if bigEndian then s else s.reverse).foldl (fun n c => n * 256 + c.toNat) 0

/-- Four bytes are read, whatever the length of the key is. `none` is a read past the end of
what the key points to. -/
def readFour (bigEndian : Bool) (k : Key) : Option ℕ :=
  if 4 ≤ k.name.length then some (readUnsigned bigEndian (k.name.take 4)) else none

def doNumberHash (bigEndian : Bool) (k : Key) (size : ℕ) : Option ℕ :=
  (readFour bigEndian k).map (· % size)

/-- The four bytes are in network order. -/
def doIp4Hash (k : Key) (size : ℕ) : Option ℕ := (readFour true k).map (· % size)

/-! ### Comparison -/

/-- The first bytes that differ, as `f` shows them, decide. -/
def compareBytes (f : UInt8 → UInt8) : ℕ → Bytes → Bytes → ℤ
  | 0, _, _ => 0
  | len + 1, s, t =>
    let c1 := f (s.headD 0)
    let c2 := f (t.headD 0)
    if c1 < c2 then -1 else if c1 > c2 then 1 else compareBytes f len s.tail t.tail

def casecmp (s t : Bytes) (len : ℕ) : ℤ := compareBytes foldCase len s t

def memcmp (s t : Bytes) (len : ℕ) : ℤ := compareBytes id len s t

/-- The string up to the first zero byte. -/
def cstring (s : Bytes) : Bytes := s.takeWhile (· ≠ 0)

/-! ### The table -/

structure Table (ν : Type) where
  hashCount : ℕ
  doHash : Hasher
  buckets : HashTable Key ν

def defaultHashSize : ℕ := 9973

def newHash {ν : Type} (hsize : ℕ) (hasher : Hasher) : Table ν where
  hashCount := if hsize = 0 then defaultHashSize else hsize
  doHash := hasher
  buckets := .empty

/-- The length of a key that is given without one. -/
def findLength (hasher : Hasher) (name : Bytes) : ℕ :=
  match hasher with
  | .case | .string => (cstring name).length
  | .number | .ip4 => 4
  | .id => 0

namespace Table

variable {ν : Type} (bigEndian : Bool) (t : Table ν)

def cmp (s s' : Bytes) (len : ℕ) : ℤ :=
  match t.doHash with
  | .case => casecmp s s' len
  | _ => memcmp s s' len

def hash (k : Key) : Option ℕ :=
  match t.doHash with
  | .case => some (doCaseHash k.bytes t.hashCount)
  | .string => some (doStringHash k.bytes t.hashCount)
  | .id => some (doIdHash k.bytes t.hashCount)
  | .number => doNumberHash bigEndian k t.hashCount
  | .ip4 => doIp4Hash k t.hashCount

/-- The number of the bucket is an `int`: a hash value of `2 ^ 31` or more is a negative index.
`none` is an access outside the table. -/
def hashno (k : Key) : Option ℕ :=
  (t.hash bigEndian k).bind fun h => if h < 2147483648 then some h else none

/-- The key with its length, which is looked for if it is zero. -/
def withLength (k : Key) : Option Key :=
  if k.len = 0 then
    if h : findLength t.doHash k.name ≤ k.name.length then
      some ⟨k.name, findLength t.doHash k.name, h⟩
    else none
  else some k

/-- Whether a deletion of `k` takes the entry called `bp`. -/
def deletes (bp k : Key) : Bool :=
  (bp.len = 0 && cstring bp.name = cstring k.name) ||
    (bp.len = k.len && t.cmp bp.name k.name k.len = 0)

/-- Whether `k` finds the entry called `bp`. -/
def found (bp k : Key) : Bool := k.len = bp.len && t.cmp bp.name k.name k.len = 0

def addHash (key : Key) (pointer : ν) : Option (Table ν) := do
  let key ← t.withLength key
  let hashno ← t.hashno bigEndian key
  return { t with buckets := t.buckets.add (fun _ => hashno) key pointer }

def deleteHashEntry (key : Key) : Option (Table ν) := do
  let key ← t.withLength key
  let hashno ← t.hashno bigEndian key
  return { t with buckets := t.buckets.delete (fun _ => hashno) t.deletes key }

def hashLookup (key : Key) : Option (Option ν) := do
  let key ← t.withLength key
  let hashno ← t.hashno bigEndian key
  return t.buckets.lookupBy (fun _ => hashno) t.found key

end Table

/-! ### Hash values -/

lemma addCarry_le (accum : ℕ) : addCarry accum ≤ 65535 := by
  induction accum using addCarry.induct with
  | case1 accum h ih =>
    rw [addCarry, if_pos h]
    exact ih
  | case2 accum h =>
    rw [addCarry, if_neg h]
    omega

lemma foldl_accumulate_le (name : Bytes) {accum : ℕ} (h : accum ≤ 65535) :
    name.foldl accumulate accum ≤ 65535 := by
  induction name generalizing accum with
  | nil => exact h
  | cons c name ih => exact ih (addCarry_le _)

lemma shiftLeft_lt (c : UInt8) {n : ℕ} (hn : n ≤ 16) : c.toNat <<< n < 2 ^ 24 := by
  have hc : c.toNat < 2 ^ 8 := c.toNat_lt
  calc c.toNat <<< n = c.toNat * 2 ^ n := Nat.shiftLeft_eq ..
    _ < 2 ^ 8 * 2 ^ n := Nat.mul_lt_mul_of_pos_right hc (Nat.two_pow_pos n)
    _ ≤ 2 ^ 8 * 2 ^ 16 := Nat.mul_le_mul_left _ (Nat.pow_le_pow_right (by decide) hn)

lemma toNat_lt_two_pow (c : UInt8) : c.toNat < 2 ^ 24 := c.toNat_lt.trans (by decide)

lemma idGroups_lt {accum : ℕ} (h : accum < 2 ^ 24) (s : Bytes) : idGroups accum s < 2 ^ 24 := by
  fun_induction idGroups accum s with
  | case1 accum x y z s ih =>
    exact ih (Nat.xor_lt_two_pow (Nat.xor_lt_two_pow (Nat.xor_lt_two_pow h
      (shiftLeft_lt x (by decide))) (shiftLeft_lt y (by decide))) (toNat_lt_two_pow z))
  | case2 accum s _ => exact h

lemma doIdHash_lt (name : Bytes) (size : ℕ) : doIdHash name size < 2 ^ 24 := by
  refine (Nat.mod_le _ _).trans_lt ?_
  split
  · exact idGroups_lt (Nat.xor_lt_two_pow (shiftLeft_lt _ (by decide)) (toNat_lt_two_pow _)) _
  · exact idGroups_lt (toNat_lt_two_pow _) _
  · exact idGroups_lt (by decide) _

/-! ### Equal keys -/

/-- What of the bytes of a key is compared. -/
def seen (hasher : Hasher) (s : Bytes) : Bytes :=
  if hasher = .case then s.map foldCase else s

/-- Lengths and bytes agree, up to the case of ASCII letters for `do_case_hash`. -/
def keyEq (hasher : Hasher) (k k' : Key) : Bool :=
  k.len = k'.len && seen hasher k.bytes = seen hasher k'.bytes

lemma compareBytes_eq_zero (f : UInt8 → UInt8) {len : ℕ} {s t : Bytes} (hs : len ≤ s.length)
    (ht : len ≤ t.length) :
    compareBytes f len s t = 0 ↔ (s.take len).map f = (t.take len).map f := by
  induction len generalizing s t with
  | zero => simp [compareBytes]
  | succ len ih =>
    rcases s with _ | ⟨a, s⟩
    · simp at hs
    rcases t with _ | ⟨b, t⟩
    · simp at ht
    have ih := ih (Nat.le_of_succ_le_succ hs) (Nat.le_of_succ_le_succ ht)
    rw [take_succ_cons, take_succ_cons, map_cons, map_cons, cons.injEq]
    show (if f a < f b then (-1 : ℤ) else if f a > f b then 1 else compareBytes f len s t) = 0 ↔ _
    by_cases hlt : f a < f b
    · rw [if_pos hlt]
      simp [UInt8.ne_of_lt hlt]
    rw [if_neg hlt]
    by_cases hgt : f a > f b
    · rw [if_pos hgt]
      simp [(UInt8.ne_of_lt hgt).symm]
    · rw [if_neg hgt]
      have hab : f a = f b := UInt8.le_antisymm (UInt8.not_lt.mp hgt) (UInt8.not_lt.mp hlt)
      simp [hab, ih]

namespace Table

variable {ν : Type} {bigEndian : Bool} {t : Table ν} {k k' : Key}

lemma cmp_eq_zero (hlen : k.len = k'.len) :
    t.cmp k.name k'.name k'.len = 0 ↔ seen t.doHash k.bytes = seen t.doHash k'.bytes := by
  have hk : k'.len ≤ k.name.length := hlen ▸ k.le
  unfold cmp seen Key.bytes
  rw [hlen]
  by_cases hcase : t.doHash = .case
  · simp only [hcase]
    exact compareBytes_eq_zero foldCase hk k'.le
  · rw [if_neg hcase, if_neg hcase]
    have : (k.name.take k'.len).map id = (k'.name.take k'.len).map id ↔
        k.name.take k'.len = k'.name.take k'.len := by simp
    rw [← this]
    cases hd : t.doHash with
    | case => exact absurd hd hcase
    | _ => exact compareBytes_eq_zero id hk k'.le

lemma found_eq : t.found k k' = keyEq t.doHash k k' := by
  unfold found keyEq
  by_cases hlen : k.len = k'.len
  · simp [hlen, cmp_eq_zero hlen]
  · simp [hlen, Ne.symm hlen]

/-- The comparison of names without a length is never made. -/
lemma deletes_eq (hk : k.len ≠ 0) : t.deletes k k' = keyEq t.doHash k k' := by
  unfold deletes keyEq
  by_cases hlen : k.len = k'.len
  · have hk' : k'.len ≠ 0 := hlen ▸ hk
    simp [hlen, hk', cmp_eq_zero hlen]
  · simp [hlen, hk]

/-! ### The table is the list of its entries -/

/-- The key has a length; and where four bytes are read for the hash value it has four, and no
hash value is a negative index. -/
def Fits (t : Table ν) (k : Key) : Prop :=
  k.len ≠ 0 ∧ (t.doHash = .number ∨ t.doHash = .ip4 → 4 ≤ k.len ∧ t.hashCount ≤ 2147483648)

/-- The hash value, from what is compared. -/
def hashValue (bigEndian : Bool) (hasher : Hasher) (size : ℕ) (s : Bytes) : ℕ :=
  match hasher with
  | .case | .string => s.foldl accumulate 0 % size
  | .id => doIdHash s size
  | .number => readUnsigned bigEndian (s.take 4) % size
  | .ip4 => readUnsigned true (s.take 4) % size

/-- The hash function respects the comparison. -/
lemma hash_of_fits (hk : t.Fits k) : t.hash bigEndian k =
    some (hashValue bigEndian t.doHash t.hashCount (seen t.doHash k.bytes)) := by
  have hread (b : Bool) (h : 4 ≤ k.len) :
      readFour b k = some (readUnsigned b (k.bytes.take 4)) := by
    rw [readFour, if_pos (h.trans k.le), Key.bytes, take_take, Nat.min_eq_left h]
  unfold hash
  cases hd : t.doHash with
  | number => simp [doNumberHash, hread _ (hk.2 (.inl hd)).1, seen, hashValue]
  | ip4 => simp [doIp4Hash, hread _ (hk.2 (.inr hd)).1, seen, hashValue]
  | _ => rfl

lemma hashValue_lt (hpos : 0 < t.hashCount) (hk : t.Fits k) (s : Bytes) :
    hashValue bigEndian t.doHash t.hashCount s < 2147483648 := by
  have hacc : s.foldl accumulate 0 % t.hashCount < 2147483648 :=
    (Nat.mod_le _ _).trans_lt ((foldl_accumulate_le _ (Nat.zero_le _)).trans_lt (by decide))
  have hmod (n : ℕ) (h : t.doHash = .number ∨ t.doHash = .ip4) : n % t.hashCount < 2147483648 :=
    (Nat.mod_lt _ hpos).trans_le (hk.2 h).2
  cases hd : t.doHash with
  | case | string => exact hacc
  | id => exact (doIdHash_lt _ _).trans (by decide)
  | number => exact hmod _ (.inl hd)
  | ip4 => exact hmod _ (.inr hd)

def bucketOf (bigEndian : Bool) (t : Table ν) (k : Key) : ℕ := (t.hashno bigEndian k).getD 0

lemma hashno_of_fits (hpos : 0 < t.hashCount) (hk : t.Fits k) :
    t.hashno bigEndian k = some (t.bucketOf bigEndian k) := by
  simp [bucketOf, hashno, hash_of_fits hk, hashValue_lt hpos hk]

lemma bucketOf_congr (hk : t.Fits k) (hk' : t.Fits k') (h : keyEq t.doHash k k') :
    t.bucketOf bigEndian k = t.bucketOf bigEndian k' := by
  simp only [keyEq, Bool.and_eq_true, decide_eq_true_eq] at h
  rw [bucketOf, bucketOf, hashno, hashno, hash_of_fits hk, hash_of_fits hk', h.2]

/-- The table holds the entries, and their keys fit. -/
structure Represents (bigEndian : Bool) (t : Table ν) (l : List (Key × ν)) : Prop where
  pos : 0 < t.hashCount
  keys : ∀ e ∈ l, t.Fits e.1
  holds : t.buckets.Holds (t.bucketOf bigEndian) l

variable {l : List (Key × ν)}

lemma withLength_of_fits (hk : t.Fits k) : t.withLength k = some k := if_neg hk.1

lemma Represents.addHash (h : t.Represents bigEndian l) (hk : t.Fits k) (v : ν) :
    ∃ u, t.addHash bigEndian k v = some u ∧ u.Represents bigEndian ((k, v) :: l) ∧
      u.doHash = t.doHash ∧ u.hashCount = t.hashCount := by
  refine ⟨{ t with buckets := t.buckets.add (t.bucketOf bigEndian) k v }, ?_, ?_, rfl, rfl⟩
  · simp only [Table.addHash, withLength_of_fits hk, bind_eq_bind, bind_some,
      hashno_of_fits h.pos hk]
    rfl
  · refine ⟨h.pos, fun e he => ?_, h.holds.add⟩
    rcases mem_cons.mp he with rfl | he
    · exact hk
    · exact h.keys e he

lemma Represents.deleteHashEntry (h : t.Represents bigEndian l) (hk : t.Fits k) :
    ∃ u, t.deleteHashEntry bigEndian k = some u ∧
      u.Represents bigEndian (l.eraseP fun e => keyEq t.doHash e.1 k) ∧
      u.doHash = t.doHash ∧ u.hashCount = t.hashCount := by
  refine ⟨{ t with buckets := t.buckets.delete (t.bucketOf bigEndian) t.deletes k }, ?_, ?_, rfl,
    rfl⟩
  · simp only [Table.deleteHashEntry, withLength_of_fits hk, bind_eq_bind,
      bind_some, hashno_of_fits h.pos hk]
    rfl
  · have hdel : ∀ e ∈ l, t.deletes e.1 k = keyEq t.doHash e.1 k :=
      fun e he => deletes_eq (h.keys e he).1
    refine ⟨h.pos, fun e he => h.keys e (mem_of_mem_eraseP he), ?_⟩
    have := h.holds.delete fun e he (hde : t.deletes e.1 k = true) =>
      bucketOf_congr (h.keys e he) hk (hdel e he ▸ hde)
    rwa [HashTable.eraseP_congr hdel] at this

lemma Represents.hashLookup (h : t.Represents bigEndian l) (hk : t.Fits k) :
    t.hashLookup bigEndian k =
      some ((l.find? fun e => keyEq t.doHash e.1 k).map Prod.snd) := by
  simp only [Table.hashLookup, withLength_of_fits hk, bind_eq_bind, bind_some,
    hashno_of_fits h.pos hk]
  have := h.holds.lookupBy fun e he (hse : t.found e.1 k = true) =>
    bucketOf_congr (h.keys e he) hk (found_eq ▸ hse)
  simp only [found_eq] at this
  exact congrArg some this

end Table

/-! ### Runs -/

inductive HashOp (ν : Type)
  | add (key : Key) (value : ν)
  | delete (key : Key)

namespace HashOp

variable {ν : Type}

def key : HashOp ν → Key
  | add key _ => key
  | delete key => key

def apply (bigEndian : Bool) (t : Table ν) : HashOp ν → Option (Table ν)
  | add key value => t.addHash bigEndian key value
  | delete key => t.deleteHashEntry bigEndian key

/-- The adds that have not been deleted, the latest first: a deletion takes the latest add of an
equal key that is left. -/
def remaining (hasher : Hasher) (l : List (Key × ν)) : HashOp ν → List (Key × ν)
  | add key value => (key, value) :: l
  | delete key => l.eraseP fun e => keyEq hasher e.1 key

def run (bigEndian : Bool) (t : Table ν) (ops : List (HashOp ν)) : Option (Table ν) :=
  ops.foldlM (apply bigEndian) t

end HashOp

open Table HashOp in
lemma Table.Represents.run {ν : Type} {bigEndian : Bool} {t : Table ν} {l : List (Key × ν)}
    {ops : List (HashOp ν)} (h : t.Represents bigEndian l) (hops : ∀ op ∈ ops, t.Fits op.key) :
    ∃ u, HashOp.run bigEndian t ops = some u ∧
      u.Represents bigEndian (ops.foldl (remaining t.doHash) l) ∧ u.doHash = t.doHash ∧
      u.hashCount = t.hashCount := by
  induction ops generalizing t l with
  | nil => exact ⟨t, rfl, h, rfl, rfl⟩
  | cons op ops ih =>
    obtain ⟨u, hu, hr, hd, hc⟩ : ∃ u, op.apply bigEndian t = some u ∧
        u.Represents bigEndian (remaining t.doHash l op) ∧ u.doHash = t.doHash ∧
        u.hashCount = t.hashCount := by
      have hk := hops op (by simp)
      cases op with
      | add key value => exact h.addHash hk value
      | delete key => exact h.deleteHashEntry hk
    have hfits : ∀ op ∈ ops, u.Fits op.key := fun op hop => by
      rw [Fits, hd, hc]
      exact hops op (mem_cons_of_mem _ hop)
    obtain ⟨v, hv, hr', hd', hc'⟩ := ih hr hfits
    refine ⟨v, ?_, hd ▸ hr', hd'.trans hd, hc'.trans hc⟩
    simp only [HashOp.run, foldlM_cons, hu]
    exact hv

/-- **Hash tables are maps**: after any sequence of additions and deletions a key finds the value
of the latest add of an equal key that is left. -/
theorem hashLookup_run {ν : Type} (bigEndian : Bool) (hsize : ℕ) (hasher : Hasher)
    {ops : List (HashOp ν)} (hops : ∀ op ∈ ops, (newHash (ν := ν) hsize hasher).Fits op.key)
    {k : Key} (hk : (newHash (ν := ν) hsize hasher).Fits k) :
    ∃ t, HashOp.run bigEndian (newHash hsize hasher) ops = some t ∧
      t.hashLookup bigEndian k =
        some (((ops.foldl (HashOp.remaining hasher) []).find? fun e =>
          keyEq hasher e.1 k).map Prod.snd) := by
  have hnew : (newHash (ν := ν) hsize hasher).Represents bigEndian [] := by
    refine ⟨?_, by simp, HashTable.holds_empty⟩
    unfold newHash
    dsimp only
    split_ifs with h
    · decide
    · omega
  obtain ⟨t, ht, hr, hd, hc⟩ := hnew.run hops
  refine ⟨t, ht, ?_⟩
  have hfits : t.Fits k := by
    rw [Table.Fits, hd, hc]
    exact hk
  rw [hr.hashLookup hfits, hd]
  rfl

def sampleKey (b : UInt8) : Key := ⟨[10, 0, 0, b], 4, by simp⟩

/-- An address added twice is found again when the later entry is deleted. -/
theorem hashLookup_run_sample : ∃ t, HashOp.run true (newHash 7 .ip4)
        [.add (sampleKey 1) 5, .add (sampleKey 1) 6, .add (sampleKey 8) 7, .delete (sampleKey 1)] =
        some t ∧ t.hashLookup true (sampleKey 1) = some (some 5) := by
  have hfits : ∀ b, (newHash (ν := ℕ) 7 .ip4).Fits (sampleKey b) := fun b =>
    ⟨by simp [sampleKey], fun _ => ⟨le_refl _, by decide⟩⟩
  exact hashLookup_run true 7 .ip4 (by simp [HashOp.key, hfits]) (hfits 1)

/-- **Too short a key**: the bytes behind a key of one byte count for its hash value, so that an
equal key does not find what was added. And with more than `2 ^ 31` buckets an index is
negative. -/
theorem hash_past_key : let key : Key := ⟨[1, 0, 0, 0], 1, by simp⟩
    let key' : Key := ⟨[1, 0, 0, 1], 1, by simp⟩
    keyEq .ip4 key key' = true ∧
      ((newHash 2 .ip4).addHash true key ()).bind (fun t => t.hashLookup true key') =
        some none ∧
      ((newHash 4294967295 .ip4).addHash true ⟨[255, 0, 0, 0], 4, by simp⟩ ()).isNone := by
  decide

end IscDhcp.Omapip
