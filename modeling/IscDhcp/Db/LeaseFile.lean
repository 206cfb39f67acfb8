import IscDhcp.Mdb.Types
import IscDhcp.Lib.Files

/-!
The lease file: the records that are appended to it, their commitment, and the new lease file that
replaces it from time to time. Every call of the system may fail.

A new lease file is written by `new_lease_file`, which is called by the functions that write a
record, if the present file is corrupt, and by `commit_leases`, if it is old; and it calls them.
The functions below that may call it take it as an argument.
-/

namespace IscDhcp.Db

def leaseRewritePeriod : Time := 3600

/-- The names in the lease directory: `path_dhcpd_db`, with `~` behind it, with a time behind it. -/
inductive Name
  | path | backup
  | temp (t : Time)
  deriving DecidableEq, Repr

/-- A lease with what `write_lease` reads of it. A field that cannot be printed is an error. -/
structure LeaseEntry where
  ipAddr : ℕ
  lease : Lease
  printable : Bool := true
  deriving DecidableEq, Repr

/-- A lease is billed to its class while it is valid. -/
def LeaseEntry.billed (l : LeaseEntry) (curTime : Time) : Bool :=
  l.lease.billingClass.isSome && decide (l.lease.ends > curTime)

def LeaseEntry.interesting (l : LeaseEntry) : Bool :=
  l.lease.hardwareAddr.length ≠ 0 || (l.lease.uid.getD []).length ≠ 0 || l.lease.tsfp ≠ 0 ||
    l.lease.bindingState ≠ .free

inductive IaType
  | na | ta | pd
  deriving DecidableEq, Repr

/-- An identity association; `body` is what it prints between the braces. -/
structure Ia where
  iaType : IaType
  iaidDuid : Bytes
  body : Bytes := []
  printable : Bool := true
  deriving DecidableEq, Repr

inductive Entry
  | lease (l : LeaseEntry)
  | ia (i : Ia)
  deriving DecidableEq, Repr

inductive Key
  | lease (ipAddr : ℕ)
  | ia (iaType : IaType) (iaidDuid : Bytes)
  deriving DecidableEq, Repr

def Entry.key : Entry → Key
  | .lease l => .lease l.ipAddr
  | .ia i => .ia i.iaType i.iaidDuid

/-- A record, with the time at which it was begun: the number of calls made before. -/
structure Record where
  stamp : ℕ
  entry : Entry
  deriving DecidableEq, Repr

inductive Item
  | record (r : Record)
  | declaration
  | torn
  deriving DecidableEq, Repr

/-- A declaration; its name may be unfit for the file, and its text may not be printable. -/
structure Declaration where
  dbPrintable : Bool := true
  printable : Bool := true
  deriving DecidableEq, Repr

/-- The database in memory, as far as `write_leases` reads it: the declarations, in the order of
their lists, and the leases, in the order of the queues of the pools, or the associations. -/
structure Memory where
  classes : ℕ := 0
  groups : List Declaration := []
  deletedHosts : List Declaration := []
  dynamicHosts : List Declaration := []
  failoverStates : List Declaration := []
  dhcpv6 : Bool := false
  serverDuid : Option Declaration := none
  leases : List LeaseEntry := []
  ias : List Ia := []

/-- The state of the server, and what is to befall the calls that it makes. -/
structure State where
  files : Files Name Item
  dbFile : OutStream Item
  leaseFileIsCorrupt : Bool := false
  counting : Bool := false
  count : ℕ := 0
  writeTime : Time := 0
  curTime : Time := 0
  dontUseFsync : Bool := false
  memory : Memory := {}
  /-- The records that were written without an error. -/
  written : List Record := []
  fates : ℕ → Fate := fun _ => {}
  clock : ℕ → Time := fun _ => 0
  tick : ℕ := 0

/-- What a function returns; `none` if it does not. -/
abbrev Result := Option (Bool × State)

abbrev Rewriter := State → Result

/-- The next step is taken if the last one has not returned `0`. -/
def Result.andThen (x : Result) (f : State → Result) : Result :=
  x.bind fun r => if r.1 then f r.2 else some (false, r.2)

namespace State

variable (rewrite : Rewriter) (s : State)

def fate : Fate := s.fates s.tick

def next : State := { s with tick := s.tick + 1 }

/-! ### Calls of the system -/

def fprintf (item : Item) (s : State) : Bool × State :=
  let r := s.files.fprintf s.fate item .torn s.dbFile
  (r.1, { s.next with files := r.2.1, dbFile := r.2.2 })

def fflush : Bool × State :=
  let r := s.files.fflush s.fate s.dbFile
  (r.1, { s.next with files := r.2.1, dbFile := r.2.2 })

def fsync : Bool × State :=
  if s.dontUseFsync then (true, s) else (!s.fate.fails, s.next)

def unlinkQuietly (a : Name) (s : State) : State :=
  { s.next with files := if s.fate.fails then s.files else s.files.unlink a }

/-- A backup that does not exist is no error. -/
def unlink (a : Name) (s : State) : Bool × State :=
  if s.fate.fails then (false, s.next) else (true, { s.next with files := s.files.unlink a })

/-- A file that does not exist is no error here. -/
def link (a b : Name) (s : State) : Bool × State :=
  if s.fate.fails then (false, s.next)
  else if (s.files.dir a).isNone then (true, s.next)
  else if (s.files.dir b).isSome then (false, s.next)
  else (true, { s.next with files := s.files.link a b })

def rename (a b : Name) (s : State) : Bool × State :=
  if s.fate.fails ∨ (s.files.dir a).isNone then (false, s.next)
  else (true, { s.next with files := s.files.rename a b })

/-! ### Writing records -/

/-- Nothing is written to a corrupt file until a good one has been written. -/
def ensure : Result :=
  if s.leaseFileIsCorrupt then rewrite s else some (true, s)

def countUp : State := if s.counting then { s with count := s.count + 1 } else s

/-- Something is printed; after an error the file is taken for corrupt. -/
def put (item : Item) (printable : Bool) (s : State) : Bool × State :=
  let r := s.fprintf (if printable then item else .torn)
  if r.1 && printable then (true, r.2) else (false, { r.2 with leaseFileIsCorrupt := true })

def putRecord (e : Entry) (printable : Bool) (s : State) : Bool × State :=
  let record : Record := ⟨s.tick, e⟩
  let r := s.put (.record record) printable
  if r.1 then (true, { r.2 with written := s.written ++ [record] }) else (false, r.2)

/-- A record in the middle of which a new lease file is written: the class that the lease is billed
to is written by `write_billing_class`, which looks at the flag again. -/
def putTorn (l : LeaseEntry) (s : State) : Result :=
  let record : Record := ⟨s.tick, .lease l⟩
  let head := s.fprintf .torn
  (rewrite head.2).map fun r =>
    let tail := r.2.fprintf .torn
    if head.1 && r.1 && tail.1 && l.printable then
      (true, { tail.2 with written := tail.2.written ++ [record] })
    else (false, { tail.2 with leaseFileIsCorrupt := true })

/-- `write_lease`. `middle` is called from within a record. -/
def writeLease (rewrite middle : Rewriter) (l : LeaseEntry) (s : State) : Result :=
  (s.ensure rewrite).andThen fun s =>
    let s := s.countUp
    if s.leaseFileIsCorrupt && l.billed s.curTime then s.putTorn middle l
    else some (s.putRecord (.lease l) l.printable)

/-- `write_ia`. Nobody asks whether the flush has failed. -/
def writeIa (i : Ia) (s : State) : Result :=
  (s.ensure rewrite).andThen fun s =>
    Result.andThen (some (s.countUp.putRecord (.ia i) i.printable)) fun s => some (true, s.fflush.2)

/-- `write_group` and `write_host`, which do not differ here. -/
def writeGroup (d : Declaration) (s : State) : Result :=
  (s.ensure rewrite).andThen fun s =>
    if d.dbPrintable then some (s.countUp.put .declaration d.printable) else some (false, s)

def writeHost (d : Declaration) (s : State) : Result := s.writeGroup rewrite d

def writeFailoverState (d : Declaration) (s : State) : Result :=
  (s.ensure rewrite).andThen fun s => some (s.put .declaration d.printable)

def writeServerDuid (d : Declaration) (s : State) : Result :=
  (s.ensure rewrite).andThen fun s =>
    Result.andThen (some (s.put .declaration d.printable)) fun s => some (true, s.fflush.2)

/-- The errors of `write_named_billing_class` are not looked at. -/
def writeClasses : ℕ → State → State
  | 0, s => s
  | n + 1, s => writeClasses n (s.fprintf .declaration).2

/-! ### Committing -/

/-- `commit_leases`. Whether a new lease file could be written does not matter. -/
def commitLeases : Result :=
  Result.andThen (some s.fflush) fun s =>
    Result.andThen (some s.fsync) fun s =>
      if s.count ≠ 0 ∧ s.curTime > s.writeTime + leaseRewritePeriod then
        (rewrite { s with count := 0, writeTime := s.curTime }).map fun r => (true, r.2)
      else some (true, s)

/-! ### A new lease file -/

section

variable {α : Type}

def writeAll (write : α → State → Result) : List α → State → Result
  | [], s => some (true, s)
  | a :: l, s => (write a s).andThen (writeAll write l)

def writeEach (write : α → State → Result) : List α → State → Result
  | [], s => some (true, s)
  | a :: l, s => (write a s).bind fun r => writeEach write l r.2

end

def writeLeases4 (leases : List LeaseEntry) (s : State) : Result :=
  writeAll (writeLease rewrite rewrite) (leases.filter (·.interesting)) s

def writeLeases6 (duid : Option Declaration) (ias : List Ia) (s : State) : Result :=
  (writeEach (writeServerDuid rewrite) duid.toList s).andThen
    (writeAll (writeIa rewrite) ias)

def writeLeases : Result :=
  let m := s.memory
  writeAll (writeGroup rewrite) m.groups (s.writeClasses m.classes)
    |>.andThen (writeAll (writeHost rewrite) m.deletedHosts)
    |>.andThen (writeEach (writeHost rewrite) m.dynamicHosts)
    |>.andThen (writeAll (writeFailoverState rewrite) m.failoverStates)
    |>.andThen (if m.dhcpv6 then writeLeases6 rewrite m.serverDuid m.ias
      else writeLeases4 rewrite m.leases)
    |>.andThen (commitLeases rewrite)

/-- The new file is opened, and takes the place of the old one for what is written from now on. -/
def openNew (t : Time) (s : State) : Bool × State :=
  if s.fate.fails then (false, s.next)
  else
    let r := s.files.create (.temp t)
    let s := { s.next with files := r.2 }
    if s.fate.fails then (false, s.next.unlinkQuietly (.temp t))
    else
      let s := s.next
      (true, { s.next with files := s.files.fclose s.fate s.dbFile, dbFile := { file := r.1 } })

/-- The comments at the top of the file, and the order of the bytes in it. -/
def writeHeader : Result :=
  writeAll (fun item s => some (s.fprintf item)) (List.replicate 4 .declaration) s

/-- The old file becomes the backup, and the new one moves in. -/
def install (t : Time) (s : State) : Result :=
  Result.andThen (some (s.unlink .backup)) (fun s => some (s.link .path .backup))
    |>.andThen fun s => some (s.rename (.temp t) .path)

/-- `fail:` -/
def abandon (t : Time) (validity : Bool) (s : State) : State :=
  unlinkQuietly (.temp t) { s with leaseFileIsCorrupt := validity }

/-- `new_lease_file`, where `rewrite` is the same function, called from within. -/
def newLeaseFileWith : Result :=
  let t := s.clock s.tick
  let validity := s.leaseFileIsCorrupt
  Result.andThen (some (s.openNew t)) fun s =>
    s.writeHeader
      |>.andThen (fun s =>
        writeLeases rewrite { s with leaseFileIsCorrupt := false, counting := false })
      |>.andThen (install t)
      |>.map fun r =>
        if r.1 then (true, { r.2 with counting := true }) else (false, r.2.abandon t validity)

/-- `new_lease_file`, with at most `n` calls of it in one another. -/
def newLeaseFile : ℕ → Rewriter
  | 0 => fun _ => none
  | n + 1 => newLeaseFileWith (newLeaseFile n)

end State

/-! ### Sequences of calls -/

inductive Call
  | writeLease (l : LeaseEntry)
  | writeIa (i : Ia)
  | commitLeases
  | newLeaseFile
  | update (memory : Memory) (curTime : Time)

def Call.run (rewrite middle : Rewriter) : Call → State → Result
  | .writeLease l, s => s.writeLease rewrite middle l
  | .writeIa i, s => s.writeIa rewrite i
  | .commitLeases, s => s.commitLeases rewrite
  | .newLeaseFile, s => rewrite s
  | .update memory curTime, s => some (true, { s with memory, curTime })

end IscDhcp.Db
