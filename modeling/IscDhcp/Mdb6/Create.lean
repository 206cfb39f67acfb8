import IscDhcp.Mdb6.Effect
import IscDhcp.Mdb6.Ia

/-!
The addresses and prefixes that a DHCPv6 pool creates (`mdb6.c`). They are made of the pool's
start and of a hash of the client's identifier, and of what has been tried before.

The hash is a function `md5`. The history of the temporary addresses is a static variable;
`history` says what it holds at each attempt.
-/

namespace IscDhcp.Mdb6

/-- A byte of which the first `k` bits are set. -/
def highBits : ℕ → UInt8
  | 1 => 0x80
  | 2 => 0xC0
  | 3 => 0xE0
  | 4 => 0xF0
  | 5 => 0xF8
  | 6 => 0xFC
  | 7 => 0xFE
  | _ => 0

def copyNetwork (addr net : In6Addr) (bits : ℕ) : In6Addr :=
  .ofFn fun i => if i.val < bits / 8 then net[i]
    else if i.val = bits / 8 then
      (addr[i] &&& ~~~ highBits (bits % 8)) ||| (net[i] &&& highBits (bits % 8))
    else addr[i]

def clearUBit (addr : In6Addr) : In6Addr := addr.set 8 (addr[8] &&& ~~~ 0x02)

def buildAddress6 (md5 : Bytes → In6Addr) (start : In6Addr) (bits : ℕ) (input : Bytes) : In6Addr :=
  let addr := copyNetwork (md5 input) start bits
  if bits = 64 then clearUBit addr else addr

/-- The first bytes of the hash come after the whole bytes of the network. -/
def buildTemporary6 (md5 : Bytes → In6Addr) (history : Bytes) (start : In6Addr) (bits : ℕ)
    (input : Bytes) : In6Addr :=
  let md := md5 (history ++ input)
  let addr := copyNetwork (.ofFn fun i => md.toList.getD (i - bits / 8) 0) start bits
  if bits = 64 then clearUBit addr else addr

def buildPrefix6 (md5 : Bytes → In6Addr) (start : In6Addr) (poolBits prefBits : ℕ)
    (input : Bytes) : In6Addr :=
  let pref := copyNetwork (md5 input) start poolBits
  .ofFn fun i => if i.val < prefBits / 8 then pref[i]
    else if i.val = prefBits / 8 then pref[i] &&& highBits (prefBits % 8)
    else 0

/-- `ipv6_network_portion`: the bytes from the end are cleared, and the next one is masked. -/
def ipv6NetworkPortion (addr : In6Addr) (bits : ℕ) : In6Addr :=
  let bytes := (128 - bits) / 8
  let extraBits := (128 - bits) % 8
  .ofFn fun i => if 16 ≤ i.val + bytes then 0
    else if i.val + bytes = 15 ∧ extraBits ≠ 0 then addr[i] &&& highBits (8 - extraBits)
    else addr[i]

/-! ### The network portion -/

variable {addr net start : In6Addr} {bits n : ℕ} {md5 : Bytes → In6Addr}

lemma getElem_networkPortion (hb : bits ≤ 128) {i : ℕ} (hi : i < 16) :
    (ipv6NetworkPortion addr bits)[i] = if i < bits / 8 then addr[i]
      else if i = bits / 8 then addr[i] &&& highBits (bits % 8) else 0 := by
  simp only [ipv6NetworkPortion, Vector.getElem_ofFn]
  rcases Nat.eq_zero_or_pos (bits % 8) with hr | hr
  · split_ifs <;> first | rfl | omega | simp [hr, highBits]
  · have hextra : 8 - (128 - bits) % 8 = bits % 8 := by omega
    simp only [hextra]
    split_ifs <;> first | rfl | omega

lemma networkPortion_congr (hb : bits ≤ 128)
    (hlt : ∀ i (_ : i < 16), i < bits / 8 → addr[i] = net[i])
    (heq : ∀ i (_ : i < 16), i = bits / 8 →
      addr[i] &&& highBits (bits % 8) = net[i] &&& highBits (bits % 8)) :
    ipv6NetworkPortion addr bits = ipv6NetworkPortion net bits := by
  refine Vector.ext fun i hi => ?_
  rw [getElem_networkPortion hb, getElem_networkPortion hb]
  split_ifs with h1 h2
  exacts [hlt i hi h1, heq i hi h2, rfl]

lemma merge_and (x y m : UInt8) : ((x &&& ~~~ m) ||| (y &&& m)) &&& m = y &&& m := by
  apply UInt8.toBitVec_inj.mp
  ext i hi
  simp
  grind

lemma networkPortion_copyNetwork (hb : bits ≤ 128) :
    ipv6NetworkPortion (copyNetwork addr net bits) bits = ipv6NetworkPortion net bits := by
  refine networkPortion_congr hb (fun i hi h => ?_) fun i hi h => ?_
  · simp [copyNetwork, h]
  · simp [copyNetwork, h, merge_and]

lemma networkPortion_clearUBit :
    ipv6NetworkPortion (clearUBit addr) 64 = ipv6NetworkPortion addr 64 := by
  refine networkPortion_congr (by decide) (fun i hi h => ?_) fun i hi h => ?_
  · exact Vector.getElem_set_ne _ _ (by omega)
  · simp [highBits]

lemma networkPortion_ite (h : ipv6NetworkPortion addr bits = net) :
    ipv6NetworkPortion (if bits = 64 then clearUBit addr else addr) bits = net := by
  split_ifs with h64
  · subst h64
    rw [networkPortion_clearUBit, h]
  · exact h

lemma networkPortion_buildAddress6 (hb : bits ≤ 128) (input : Bytes) :
    ipv6NetworkPortion (buildAddress6 md5 start bits input) bits = ipv6NetworkPortion start bits :=
  networkPortion_ite (networkPortion_copyNetwork hb)

lemma networkPortion_buildTemporary6 (hb : bits ≤ 128) (history input : Bytes) :
    ipv6NetworkPortion (buildTemporary6 md5 history start bits input) bits =
      ipv6NetworkPortion start bits :=
  networkPortion_ite (networkPortion_copyNetwork hb)

lemma highBits_and {k m : ℕ} (hk : k ≤ m) (hm : m < 8) :
    highBits m &&& highBits k = highBits k := by
  revert k
  decide +revert

lemma networkPortion_networkPortion (hb : bits ≤ n) (hn : n ≤ 128) :
    ipv6NetworkPortion (ipv6NetworkPortion addr n) bits = ipv6NetworkPortion addr bits := by
  refine networkPortion_congr (hb.trans hn) (fun i hi h => ?_) fun i hi h => ?_
  · rw [getElem_networkPortion hn, if_pos (by omega)]
  · rw [getElem_networkPortion hn]
    split_ifs with h1 h2
    · rfl
    · rw [UInt8.and_assoc, highBits_and (by omega) (by omega)]
    · omega

lemma buildPrefix6_eq (hn : n ≤ 128) (input : Bytes) : buildPrefix6 md5 start bits n input =
    ipv6NetworkPortion (copyNetwork (md5 input) start bits) n := by
  refine Vector.ext fun i hi => ?_
  rw [getElem_networkPortion hn]
  simp [buildPrefix6]

/-! ### The attempts -/

/-- The loop of `create_lease6` and `create_prefix6` with its counter; `none` is a loop that has
not ended. -/
def attempt (limit : ℕ) (build : ℕ → Bytes → In6Addr) (happy : In6Addr → Bool) :
    ℕ → ℕ → Bytes → Option (Option In6Addr × ℕ)
  | 0, _, _ => none
  | fuel + 1, attempts, ds =>
    if attempts + 1 > limit then some (none, attempts + 1)
    else
      let tmp := build (attempts + 1) ds
      if happy tmp then some (some tmp, attempts + 1)
      else attempt limit build happy fuel (attempts + 1) (ds ++ tmp.toList)

/-- The search of the model, which counts the attempts that are left. -/
structure Searches (build : ℕ → Bytes → In6Addr) (happy : In6Addr → Bool)
    (find : ℕ → ℕ → Bytes → Option In6Addr) : Prop where
  zero : ∀ k ds, find 0 k ds = none
  succ : ∀ n k ds, find (n + 1) k ds = if happy (build k ds) then some (build k ds)
    else find n (k + 1) (ds ++ (build k ds).toList)

namespace Searches

variable {limit : ℕ} {build : ℕ → Bytes → In6Addr} {happy : In6Addr → Bool}
  {find : ℕ → ℕ → Bytes → Option In6Addr}

lemma happy_of_some (h : Searches build happy find) {k : ℕ} {ds : Bytes}
    (hf : find n k ds = some addr) : happy addr ∧ ∃ j ds', addr = build j ds' := by
  induction n generalizing k ds with
  | zero => simp [h.zero] at hf
  | succ n ih =>
    rw [h.succ] at hf
    split_ifs at hf with hhappy
    · cases hf
      exact ⟨hhappy, k, ds, rfl⟩
    · exact ih hf

lemma attempt_eq (h : Searches build happy find) (left : ℕ) {fuel attempts : ℕ} (ds : Bytes)
    (hleft : attempts + left = limit) (hfuel : left < fuel) :
    ∃ m, attempt limit build happy fuel attempts ds = some (find left (attempts + 1) ds, m) ∧
      m ≤ limit + 1 ∧ ((find left (attempts + 1) ds).isSome → m ≤ limit) := by
  induction left generalizing fuel attempts ds with
  | zero =>
    obtain ⟨fuel, rfl⟩ := Nat.exists_eq_add_of_lt hfuel
    refine ⟨attempts + 1, ?_, by omega, by simp [h.zero]⟩
    rw [attempt, if_pos (by omega), h.zero]
  | succ left ih =>
    obtain ⟨fuel, rfl⟩ := Nat.exists_eq_add_of_lt hfuel
    rw [attempt, if_neg (by omega), h.succ]
    dsimp only
    split_ifs with hhappy
    · exact ⟨attempts + 1, rfl, by omega, fun _ => by omega⟩
    · have hleft' : attempts + 1 + left = limit := by omega
      exact ih _ hleft' (by omega)

end Searches

namespace State

variable {α β : Type} [DecidableEq α] [DecidableEq β] (s : State α β)

/-- The address that is tried at each attempt, by the type of the pool. -/
def buildFor (md5 : Bytes → In6Addr) (history : ℕ → Bytes) (start : In6Addr) (bits k : ℕ)
    (ds : Bytes) : In6Addr :=
  if s.poolType = .ta then buildTemporary6 md5 (history k) start bits ds
  else buildAddress6 md5 start bits ds

def usable (a : In6Addr) : Bool := !reservedIid a && (s.hashLookup a).isNone

variable {s} {i : α}

omit [DecidableEq α] [DecidableEq β] in
lemma searches_findAddress {build : ℕ → Bytes → In6Addr} :
    Searches build s.usable (s.findAddress build) := ⟨fun _ _ => rfl, fun _ _ _ => rfl⟩

omit [DecidableEq α] [DecidableEq β] in
lemma searches_findPrefix {build : Bytes → In6Addr} :
    Searches (fun _ => build) (fun a => (s.hashLookup a).isNone)
      (fun n _ => s.findPrefix build n) := ⟨fun _ _ => rfl, fun _ _ _ => rfl⟩

lemma addLease6_allocate {l : Iasubopt β} (endTime : Time) (hst : l.state = .free)
    (hfree : s.hashLookup l.addr = none) : ∃ t, (s.allocate i l).addLease6 i endTime = some t ∧
      t.lease i = { l with softLifetimeEndTime := endTime } := by
  have hlease : (s.allocate i l).lease i = l := by simp [State.allocate]
  have hactive : (s.allocate i l).assumeActive i = s.allocate i l := by
    simp [State.assumeActive, hlease, hst]
  have hold : (s.allocate i l).removeOld l.addr = some (s.allocate i l) := by
    have h : (s.allocate i l).hashLookup l.addr = none := hfree
    rw [State.removeOld, h]
  have huse : Mdb6.inUse l.state = false := by rw [hst]; rfl
  simp only [State.addLease6, hlease, hactive, hold, Option.bind_eq_bind, Option.bind_some, huse]
  refine ⟨_, rfl, ?_⟩
  simp [State.insertInactive, State.setInactive, modify_self, hlease]

/-- **The addresses created** lie in the pool, are free and not reserved, and are found or not
within a hundred attempts. -/
theorem createLease6_valid (s : State α β) (md5 : Bytes → In6Addr) (history : ℕ → Bytes)
    (start : In6Addr) (hb : bits ≤ 128) (uid : Bytes) (i : α) (endTime : Time) :
    (∃ r t, s.createLease6 (s.buildFor md5 history start bits) uid i endTime = some (r, t) ∧
      (r = .success →
        ipv6NetworkPortion (t.lease i).addr bits = ipv6NetworkPortion start bits ∧
        s.leases (t.lease i).addr = [] ∧ reservedIid (t.lease i).addr = false)) ∧
    ∀ fuel > 100, ∃ m ≤ 101, attempt 100 (s.buildFor md5 history start bits) s.usable fuel 0 uid =
        some (s.findAddress (s.buildFor md5 history start bits) 100 1 uid, m) ∧
      ((s.findAddress (s.buildFor md5 history start bits) 100 1 uid).isSome → m ≤ 100) := by
  constructor
  · unfold State.createLease6
    split_ifs
    · exact ⟨_, _, rfl, by simp⟩
    cases hf : s.findAddress (s.buildFor md5 history start bits) 100 1 uid with
    | none => exact ⟨_, _, rfl, by simp⟩
    | some a =>
      obtain ⟨hhappy, k, ds, hbuild⟩ := searches_findAddress.happy_of_some hf
      simp only [usable, Bool.and_eq_true, Bool.not_eq_true', Option.isNone_iff_eq_none] at hhappy
      obtain ⟨t, ht, hlease⟩ :=
        addLease6_allocate (l := { addr := a, plen := 0 }) (i := i) endTime rfl hhappy.2
      refine ⟨.success, t, by simp [ht], fun _ => ?_⟩
      rw [hlease]
      refine ⟨?_, List.head?_eq_none_iff.mp hhappy.2, hhappy.1⟩
      rw [hbuild, buildFor]
      split_ifs
      exacts [networkPortion_buildTemporary6 hb _ _, networkPortion_buildAddress6 hb _]
  · intro fuel hfuel
    obtain ⟨m, h1, h2, h3⟩ :=
      (searches_findAddress).attempt_eq 100 uid (Nat.zero_add 100) hfuel
    exact ⟨m, h2, h1, h3⟩

theorem createLease6_valid_one :
    ∃ r t, (fourLeases.createLease6 (fourLeases.buildFor (fun _ => .replicate 16 1) (fun _ => [])
        (.replicate 16 0) 60) [1] 0 0) = some (r, t) ∧ (r = .success →
      ipv6NetworkPortion (t.lease 0).addr 60 = ipv6NetworkPortion (.replicate 16 0) 60 ∧
      fourLeases.leases (t.lease 0).addr = [] ∧ reservedIid (t.lease 0).addr = false) :=
  (createLease6_valid fourLeases _ _ _ (by decide) [1] 0 0).1

/-- **The prefixes created** have the pool's length and lie in it, are free, and are found or not
within ten attempts. -/
theorem createPrefix6_valid (s : State α β) (md5 : Bytes → In6Addr) (start : In6Addr)
    {units : ℕ} (hb : bits ≤ units) (hu : units < 128) (uid : Bytes) (i : α) (endTime : Time) :
    (∃ r t, s.createPrefix6 (buildPrefix6 md5 start bits units) (UInt8.ofNat units) uid i endTime =
        some (r, t) ∧ (r = .success →
      (t.lease i).plen.toNat = units ∧
      ipv6NetworkPortion (t.lease i).addr units = (t.lease i).addr ∧
      ipv6NetworkPortion (t.lease i).addr bits = ipv6NetworkPortion start bits ∧
      s.leases (t.lease i).addr = [])) ∧
    ∀ fuel > 10, ∃ m ≤ 11, attempt 10 (fun _ => buildPrefix6 md5 start bits units)
        (fun a => (s.hashLookup a).isNone) fuel 0 uid =
        some (s.findPrefix (buildPrefix6 md5 start bits units) 10 uid, m) ∧
      ((s.findPrefix (buildPrefix6 md5 start bits units) 10 uid).isSome → m ≤ 10) := by
  constructor
  · unfold State.createPrefix6
    cases hf : s.findPrefix (buildPrefix6 md5 start bits units) 10 uid with
    | none => exact ⟨_, _, rfl, by simp⟩
    | some a =>
      obtain ⟨hhappy, k, ds, rfl⟩ :=
        (searches_findPrefix).happy_of_some (k := 0) hf
      rw [Option.isNone_iff_eq_none] at hhappy
      obtain ⟨t, ht, hlease⟩ := addLease6_allocate (i := i)
        (l := { addr := buildPrefix6 md5 start bits units ds, plen := UInt8.ofNat units }) endTime
        rfl hhappy
      refine ⟨.success, t, by simp [ht], fun _ => ?_⟩
      rw [hlease]
      refine ⟨UInt8.toNat_ofNat_of_lt' (hu.trans (by decide)), ?_, ?_,
        List.head?_eq_none_iff.mp hhappy⟩
      · rw [buildPrefix6_eq hu.le, networkPortion_networkPortion le_rfl hu.le]
      · rw [buildPrefix6_eq hu.le, networkPortion_networkPortion hb hu.le,
          networkPortion_copyNetwork (hb.trans hu.le)]
  · intro fuel hfuel
    obtain ⟨m, h1, h2, h3⟩ :=
      (searches_findPrefix).attempt_eq 10 uid (Nat.zero_add 10) hfuel
    exact ⟨m, h2, h1, h3⟩

theorem createPrefix6_valid_one :
    ∃ r t, fourLeases.createPrefix6
      (buildPrefix6 (fun _ => .replicate 16 1) (.replicate 16 0) 48 60)
        (UInt8.ofNat 60) [1] 0 0 = some (r, t) ∧ (r = .success →
      (t.lease 0).plen.toNat = 60 ∧
      ipv6NetworkPortion (t.lease 0).addr 60 = (t.lease 0).addr ∧
      ipv6NetworkPortion (t.lease 0).addr 48 = ipv6NetworkPortion (.replicate 16 0) 48 ∧
      fourLeases.leases (t.lease 0).addr = []) :=
  (createPrefix6_valid fourLeases _ _ (by decide) (by decide) [1] 0 0).1

end State

end IscDhcp.Mdb6
