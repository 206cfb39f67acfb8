import Mathlib.Tactic.Common
import Mathlib.Data.Int.Notation

/-!
The small types that everything else is built from: times, binding states, lease flags
and counted references.
-/

namespace IscDhcp

/-- Seconds since the epoch (`TIME`). -/
abbrev Time := ℕ

abbrev Bytes := List UInt8

def minTime : Time := 0
def maxTime : Time := 0x7fffffff

/-- `TIME_MAX`, the length of the longest interval a timer may be given, plus one. -/
def timeMax : ℕ := 2147483647

/-- `binding_state_t` is a byte; `bogus` stands for the values outside `FTS_FREE … FTS_LAST`. -/
inductive BindingState
  | free | active | expired | released | abandoned | reset | backup
  | bogus (code : ℕ)
  deriving DecidableEq, Repr

structure Flags where
  staticLease : Bool := false
  bootp : Bool := false
  reserved : Bool := false
  msNullTermination : Bool := false
  onUpdateQueue : Bool := false
  onAckQueue : Bool := false
  unicastBroadcastHack : Bool := false
  onDeferredQueue : Bool := false
  deriving DecidableEq, Repr

/-- `(lease -> flags & ~PERSISTENT_FLAGS) | (comp -> flags & ~EPHEMERAL_FLAGS)`. -/
def Flags.supersede (comp lease : Flags) : Flags where
  staticLease := lease.staticLease || comp.staticLease
  bootp := lease.bootp
  reserved := lease.reserved
  msNullTermination := lease.msNullTermination
  onUpdateQueue := comp.onUpdateQueue
  onAckQueue := comp.onAckQueue
  unicastBroadcastHack := lease.unicastBroadcastHack
  onDeferredQueue := lease.onDeferredQueue || comp.onDeferredQueue

section Reference

variable {α : Type*}

/-- `lease_reference (&p, a)`: a reference is only stored into a null pointer. -/
def reference (p : Option α) (a : α) : Option α := p.or (some a)

@[simp] lemma reference_none (a : α) : reference none a = some a := rfl

end Reference

end IscDhcp
