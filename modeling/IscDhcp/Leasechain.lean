import IscDhcp.Basic
import IscDhcp.Lib.Seg
import Mathlib.Data.Prod.Lex
import Mathlib.Algebra.Order.Ring.Int

/-!
The lease queue as an array with links (`leasechain.c`, compiled with `BINARY_LEASES`).

The array is kept sorted by sort time and a tiebreaker, so that an entry is found by
binary search; the same leases are linked in both directions in the same order.
-/

namespace IscDhcp.Leasechain

open IscDhcp.Lib

variable {α : Type} [DecidableEq α]

def longMin : ℤ := -9223372036854775808
def longMax : ℤ := 9223372036854775807

/-- The values of a `long int`. -/
abbrev Long := { z : ℤ // longMin ≤ z ∧ z ≤ longMax }

def Long.zero : Long := ⟨0, by decide⟩

/-- One more, unless that would overflow. -/
def Long.next (z : Long) : Long :=
  if h : z.1 < longMax then ⟨z.1 + 1, by have := z.2.1; omega⟩ else ⟨longMax, by decide⟩

lemma Long.le_next (z : Long) : z ≤ z.next := by
  unfold Long.next
  split_ifs with h
  · exact Subtype.coe_le_coe.mp (by simp)
  · exact z.2.2

/-- One leasechain, named `self`, and the fields of the leases that it writes. -/
structure St (α : Type) where
  self : ℕ
  list : ℕ → Option α
  nelem : ℕ
  total : ℕ
  growth : ℕ
  next : α → Option α
  prev : α → Option α
  lc : α → Option ℕ
  sortTime : α → Time
  sortTiebreaker : α → Long

def growthDelta : ℕ := 256

variable (s : St α) (lp : α)

/-! ### Searching -/

def sortsAfter (a b : α) : Bool :=
  s.sortTime a > s.sortTime b ||
    (s.sortTime a == s.sortTime b && (s.sortTiebreaker a).1 > (s.sortTiebreaker b).1)

/-- The position to insert `lp` at, within the entries `min` to `max`. -/
def lcBinarySearchInsertPoint : ℕ → ℕ → ℕ → Option ℕ
  | 0, _, _ => none
  | fuel + 1, min, max => do
    let mid := (max - min) / 2 + min
    let a ← s.list mid
    if sortsAfter s a lp then
      if mid = min then return min
      lcBinarySearchInsertPoint fuel min (mid - 1)
    else if sortsAfter s lp a then
      if mid = max then return mid + 1
      lcBinarySearchInsertPoint fuel (mid + 1) max
    else
      return mid

def sizeMax : ℕ := 18446744073709551615

/-- `nelem - 1`, which for an empty chain wraps to `SIZE_MAX`. -/
def lastIndex : ℕ := if s.nelem = 0 then sizeMax else s.nelem - 1

/-- The entry at `i`; `none` is a read outside the entries in use. -/
def entry (i : ℕ) : Option α := if i < s.nelem then s.list i else none

/-- `a` does not have the sort time and tiebreaker of `lp`. -/
def differs (a : α) : Bool :=
  s.sortTime a != s.sortTime lp ||
    (s.sortTime a == s.sortTime lp && s.sortTiebreaker a != s.sortTiebreaker lp)

/-- The loop over the entries below `mid_index`; it ends at `min` at the latest. -/
def searchBelow (min : ℕ) : ℕ → Option (Option ℕ)
  | 0 => do
    let a ← entry s 0
    return if a = lp then some 0 else none
  | i + 1 => do
    let a ← entry s (i + 1)
    if a = lp then some (some (i + 1))
    else if i + 1 = min || differs s lp a then some none
    else searchBelow min i

/-- The loop over the entries above `mid_index`, `n` of which are left. -/
def searchAbove : ℕ → ℕ → Option (Option ℕ)
  | 0, _ => some none
  | n + 1, i => do
    let a ← entry s i
    if a = lp then some (some i)
    else if differs s lp a then some none
    else searchAbove n (i + 1)

/-- Look below `mid`, and if that finds nothing above it. -/
def searchAround (min mid max : ℕ) : Option (Option ℕ) :=
  match if min < mid then searchBelow s lp min (mid - 1) else some none with
  | some none => if mid < max then searchAbove s lp (max - mid) (mid + 1) else some none
  | found => found

/-- The position of `lp`. `some none` is `SIZE_MAX`, lease not found; `none` is a read outside
the entries in use. -/
def lcBinarySearchLease : ℕ → ℕ → ℕ → Option (Option ℕ)
  | 0, _, _ => none
  | fuel + 1, min, max =>
    if max < min then some none
    else do
      let mid := (max - min) / 2 + min
      let a ← entry s mid
      if sortsAfter s a lp then
        if mid = min then some none else lcBinarySearchLease fuel min (mid - 1)
      else if sortsAfter s lp a then lcBinarySearchLease fuel (mid + 1) max
      else if a = lp then some (some mid)
      else searchAround s lp min mid max

/-! ### Linking -/

def memmove (list : ℕ → Option α) (dst src cnt : ℕ) : ℕ → Option α := fun i =>
  if dst ≤ i ∧ i < dst + cnt then list (src + (i - dst)) else list i

def lcGrowChain : St α :=
  { s with
    -- only the entries in use are copied to the new array
    list := fun i => if i < s.nelem then s.list i else none
    total := s.total + if s.growth = 0 then growthDelta else s.growth }

/-- The chain with a free entry in its array. -/
def withRoom : St α := if s.nelem = s.total then lcGrowChain s else s

def lcLinkLcp (n : ℕ) : St α :=
  let s := withRoom s
  let list := if n < s.nelem then memmove s.list (n + 1) n (s.nelem - n) else s.list
  { s with
    list := Function.update list n (some lp)
    nelem := s.nelem + 1
    lc := Function.update s.lc lp (some s.self) }

def linkPrev (b : α) : St α :=
  { s with
    next := Function.update s.next b (some lp)
    prev := Function.update s.prev lp (reference (s.prev lp) b) }

def linkNext (b : α) : St α :=
  { s with
    prev := Function.update s.prev b (some lp)
    next := Function.update s.next lp (reference (s.next lp) b) }

def linkBetween (front back : Option α) : St α :=
  let s := front.elim s (linkPrev s lp)
  back.elim s (linkNext s lp)

def lcAddLeasePos (pos : ℕ) : St α :=
  let s := lcLinkLcp s lp pos
  linkBetween s lp (if 0 < pos then s.list (pos - 1) else none)
    (if pos < s.nelem - 1 then s.list (pos + 1) else none)

def setTiebreaker (tb : Long) : St α :=
  { s with sortTiebreaker := Function.update s.sortTiebreaker lp tb }

/-- `rnd` is the value `random ()` returns when the lease goes in the middle. -/
def lcAddSortedLease (rnd : Long) : Option (St α) := do
  if s.nelem = 0 then
    return lcAddLeasePos (setTiebreaker s lp Long.zero) lp 0
  let last ← s.list (s.nelem - 1)
  if s.sortTime lp > s.sortTime last then
    return lcAddLeasePos (setTiebreaker s lp Long.zero) lp s.nelem
  else if s.sortTime lp = s.sortTime last then
    return lcAddLeasePos (setTiebreaker s lp (s.sortTiebreaker last).next) lp s.nelem
  else
    let s := setTiebreaker s lp rnd
    let pos ← lcBinarySearchInsertPoint s lp s.nelem 0 (s.nelem - 1)
    return lcAddLeasePos s lp pos

/-! ### Unlinking -/

def lcUnlinkLcp (n : ℕ) : St α :=
  let lc := (s.list n).elim s.lc fun a => Function.update s.lc a none
  let list := Function.update s.list n none
  { s with
    lc := lc
    list := if s.nelem - 1 > n then memmove list n (n + 1) (s.nelem - 1 - n) else list
    nelem := s.nelem - 1 }

def unlinkLinks : St α :=
  let s := match s.next lp with
    | none => s
    | some b => { s with prev := Function.update s.prev b (s.prev lp) }
  let s := match s.prev lp with
    | none => s
    | some b =>
      { s with
        next := Function.update s.next b (s.next lp)
        prev := Function.update s.prev lp none }
  { s with next := Function.update s.next lp none }

def lcUnlinkLeasePos (pos : ℕ) : Option (St α) := do
  let lp ← s.list pos
  return unlinkLinks (lcUnlinkLcp s pos) lp

/-- `none` is the fatal error "Lease … not on its queue.", or a read outside the array. -/
def lcUnlinkLease : Option (St α) := do
  let found ← lcBinarySearchLease s lp (s.nelem + 1) 0 (lastIndex s)
  let pos ← found
  lcUnlinkLeasePos s pos

end IscDhcp.Leasechain
