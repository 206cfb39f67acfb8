import IscDhcp.Omapip.Hash
import Mathlib.Data.List.TakeWhile

/-!
The choice of the DNS zone of a name. `find_cached_zone` asks the table of zones for the name and
for each part of it that follows a dot; zones that turn out to be expired leave the table.
-/

namespace IscDhcp.Dns

open List Omapip

/-- A zone, with its options evaluated. -/
structure Zone where
  name : Bytes
  timeout : ℤ := 0
  inactive : Bool := false
  primary : Option Bytes := none
  primary6 : Option Bytes := none
  secondary : Option Bytes := none
  secondary6 : Option Bytes := none

/-- Names are compared without regard to case. -/
def fold (name : Bytes) : Bytes := name.map foldCase

/-- The zones by their names. -/
structure Table where
  find : Bytes → Option Zone
  keyed : ∀ {k z}, find k = some z → fold z.name = k

/-- The table with a zone in place of the one of the same name, or with none there. -/
def Table.put (t : Table) (name : Bytes) (z : Option Zone) (hz : ∀ a ∈ z, a.name = name) :
    Table where
  find := Function.update t.find (fold name) z
  keyed := fun {k a} h => by
    rcases eq_or_ne k (fold name) with rfl | hk
    · rw [Function.update_self] at h
      exact congrArg fold (hz a h)
    · exact t.keyed (by simpa [hk] using h)

def enterDnsZone (t : Table) (zone : Zone) : Table := t.put zone.name (some zone) (by simp)

inductive Direction
  | forward | reverse

/-- A DNS update. Its list of servers is empty when a zone is looked for. -/
structure DdnsCb where
  fwdName : Bytes := []
  revName : Bytes := []
  zoneName : Bytes := []
  zoneServerList : List Bytes := []
  zone : Option Zone := none

inductive Status
  | success | notFound | failure | noSpace | invalidArg

def dhcpMaxns : ℕ := 3
def dhcpMaxdnsWire : ℕ := 256

def dot : UInt8 := 0x2e

def Zone.expired (now : ℤ) (z : Zone) : Bool := z.timeout ≠ 0 ∧ z.timeout < now

/-- The name with a final dot. Of an empty string the character in front of it is looked at. -/
def complete (before : UInt8) (name : Bytes) : Bytes :=
  if name.getLastD before ≠ dot then name ++ [dot] else name

def dnsZoneLookup (now : ℤ) (t : Table) (before : UInt8) (name : Bytes) : Option Zone × Table :=
  match t.find (fold (complete before name)) with
  | none => (none, t)
  | some zone => if zone.expired now then (none, t.put zone.name none nofun) else (some zone, t)

/-- The search of `find_cached_zone`, from `np` on. -/
def searchZones (now : ℤ) (t : Table) (before : UInt8) (np : Bytes) : Option Zone × Table :=
  match dnsZoneLookup now t before np with
  | (some zone, t) => (some zone, t)
  | (none, t) =>
    match _h : np.dropWhile (· ≠ dot) with
    | [] => (none, t)
    | c :: rest => searchZones now t c rest
termination_by np.length
decreasing_by
  have hle := (dropWhile_suffix (l := np) (· ≠ dot)).length_le
  rwa [_h] at hle

/-- The loop over the addresses of an option. -/
def addServers (size : ℕ) : ℕ → Bytes → List Bytes
  | 0, _ => []
  | n + 1, data =>
    if data.length < size then [] else data.take size :: addServers size n (data.drop size)

/-- The options with addresses, each with the size of an address. -/
def Zone.options (z : Zone) : List (ℕ × Bytes) :=
  [(4, z.primary.getD []), (16, z.primary6.getD []), (4, z.secondary.getD []),
    (16, z.secondary6.getD [])]

def Zone.listServers (z : Zone) : List Bytes :=
  z.options.foldl (fun l o => l ++ addServers o.1 (dhcpMaxns - l.length) o.2) []

def DdnsCb.name (cb : DdnsCb) : Direction → Bytes
  | .forward => cb.fwdName
  | .reverse => cb.revName

def findCachedZone (now : ℤ) (t : Table) (cb : DdnsCb) (direction : Direction) :
    Status × DdnsCb × Table :=
  if cb.name direction = [] then (.invalidArg, cb, t)
  else
    let (found, t) := searchZones now t 0 (cb.name direction)
    match found with
    | none => (.notFound, cb, t)
    | some zone =>
      if zone.inactive then (.failure, cb, t)
      else if zone.name.length > dhcpMaxdnsWire then (.noSpace, cb, t)
      else (.success, { cb with
        zoneName := zone.name, zone := some zone
        zoneServerList := cb.zoneServerList ++ zone.listServers }, t)

/-! ### Names that end a name -/

/-- The zone `z` is in use and its name is `s`, which ends `name` at the border of a label. -/
def Candidate (now : ℤ) (t : Table) (name s : Bytes) (z : Zone) : Prop :=
  (s = name ∨ dot :: s <:+ name) ∧ t.find (fold s) = some z ∧ ¬ z.expired now

/-- The zone is the candidate with the longest name. -/
def Chosen (now : ℤ) (t : Table) (name : Bytes) (z : Zone) : Prop :=
  ∃ s, Candidate now t name s z ∧ ∀ s' a, Candidate now t name s' a → s'.length ≤ s.length

variable {now : ℤ} {t : Table} {before c : UInt8} {np rest s : Bytes} {z : Zone}

lemma suffix_dot_iff (h : np.dropWhile (· ≠ dot) = c :: rest) :
    dot :: s <:+ np ↔ s = rest ∨ dot :: s <:+ rest := by
  induction np with
  | nil => cases h
  | cons a np ih =>
    by_cases ha : a = dot
    · rw [dropWhile_cons_of_neg (by simp [ha])] at h
      cases h
      rw [suffix_cons_iff, ha, cons_inj_right]
    · rw [dropWhile_cons_of_pos (by simp [ha])] at h
      rw [suffix_cons_iff, ih h]
      exact or_iff_right fun h => ha (head_eq_of_cons_eq h).symm

lemma complete_dropWhile (h : np.dropWhile (· ≠ dot) = c :: rest) :
    (complete before np).dropWhile (· ≠ dot) = c :: complete c rest := by
  have hlast : np.getLastD before = rest.getLastD c := by
    rw [← takeWhile_append_dropWhile (p := (· ≠ dot)) (l := np), h]
    simp [getLast?_cons]
  unfold complete
  rw [hlast]
  split_ifs
  · rw [dropWhile_append, h]
    rfl
  · exact h

/-- In a name without a dot nothing follows one, but for the dot at its end. -/
lemma eq_nil_of_suffix (h : np.dropWhile (· ≠ dot) = []) (hs : dot :: s <:+ complete before np) :
    s = [] := by
  unfold complete at hs
  split_ifs at hs
  · have hd : (np ++ [dot]).dropWhile (· ≠ dot) = dot :: [] := by
      rw [dropWhile_append, h]
      rfl
    simpa [suffix_dot_iff hd] using hs
  · simpa using dropWhile_eq_nil_iff.1 h dot (hs.subset mem_cons_self)

lemma Candidate.length_le {name : Bytes} (h : Candidate now t name s z) :
    s.length ≤ name.length := by
  rcases h.1 with rfl | hs
  · exact le_rfl
  · exact (Nat.le_succ _).trans hs.length_le

/-- A lookup finds the zone of the name if it is in use, and no zone in use gets lost. -/
lemma dnsZoneLookup_spec (now : ℤ) (t : Table) (before : UInt8) (np : Bytes) :
    (∀ z, (dnsZoneLookup now t before np).1 = some z ↔
      t.find (fold (complete before np)) = some z ∧ ¬ z.expired now) ∧
    ∀ k z, ¬ z.expired now →
      ((dnsZoneLookup now t before np).2.find k = some z ↔ t.find k = some z) := by
  unfold dnsZoneLookup
  cases hf : t.find (fold (complete before np)) with
  | none => simp
  | some zone =>
    dsimp only
    split_ifs with he
    · refine ⟨fun z => ⟨nofun, ?_⟩, fun k z hz => ?_⟩
      · rintro ⟨⟨⟩, hz⟩
        exact absurd he hz
      · rcases eq_or_ne k (fold zone.name) with rfl | hk
        · have hne : zone ≠ z := fun h => hz (h ▸ he)
          simp [Table.put, t.keyed hf, hf, hne]
        · simp [Table.put, hk]
    · simp only [Option.some.injEq, implies_true, and_true]
      exact fun z => ⟨fun h => ⟨h, h ▸ he⟩, And.left⟩

/-- **The search** finds the candidate with the longest name. -/
lemma searchZones_spec (hroot : ∀ z, t.find [] = some z → z.expired now) (z : Zone) :
    (searchZones now t before np).1 = some z ↔ Chosen now t (complete before np) z := by
  fun_induction searchZones now t before np with
  | case1 t before np zone t' h =>
    have hfound := (dnsZoneLookup_spec now t before np).1
    rw [h] at hfound
    have hcand : Candidate now t (complete before np) _ zone := ⟨.inl rfl, (hfound zone).1 rfl⟩
    constructor
    · rintro ⟨⟩
      exact ⟨_, hcand, fun s' a ha => ha.length_le⟩
    · rintro ⟨s, ⟨rfl | hs, hz⟩, hmax⟩
      · exact (hfound z).2 hz
      · exact absurd (hs.length_le.trans (hmax _ _ hcand)) (by simp)
  | case2 t before np t' h hnil =>
    have hfound := (dnsZoneLookup_spec now t before np).1
    rw [h] at hfound
    refine ⟨nofun, fun ⟨s, ⟨hs, hz⟩, _⟩ => ?_⟩
    rcases hs with rfl | hs
    · exact (hfound z).2 hz
    · rw [eq_nil_of_suffix hnil hs] at hz
      exact absurd (hroot z hz.1) hz.2
  | case3 t before np t' h c rest hcons ih =>
    obtain ⟨hfound, hkeep⟩ := dnsZoneLookup_spec now t before np
    rw [h] at hfound hkeep
    have hiff (s : Bytes) (a : Zone) : Candidate now t' (complete c rest) s a ↔
        Candidate now t (complete before np) s a := by
      unfold Candidate
      rw [suffix_dot_iff (complete_dropWhile hcons)]
      constructor
      · rintro ⟨hs, hf, ha⟩
        exact ⟨.inr hs, (hkeep _ a ha).1 hf, ha⟩
      · rintro ⟨rfl | hs, hf, ha⟩
        · exact nomatch (hfound a).2 ⟨hf, ha⟩
        · exact ⟨hs, (hkeep _ a ha).2 hf, ha⟩
    rw [ih fun z hz => by_contra fun he => he (hroot z ((hkeep _ z he).1 hz))]
    unfold Chosen
    simp only [hiff]

/-! ### The servers of a zone -/

/-- The addresses of an option; what is left at the end is none. -/
def addressesOf (size : ℕ) (data : Bytes) : List Bytes :=
  (range (data.length / size)).map fun i => (data.drop (size * i)).take size

lemma addServers_eq {size : ℕ} (hpos : 0 < size) (n : ℕ) (data : Bytes) :
    addServers size n data = (addressesOf size data).take n := by
  induction n generalizing data with
  | zero => rfl
  | succ n ih =>
    unfold addServers
    split_ifs with h
    · simp [addressesOf, Nat.div_eq_of_lt h]
    · rw [ih, addressesOf, addressesOf, Nat.div_eq_sub_div hpos (not_lt.1 h), range_succ_eq_map]
      simp [Function.comp_def, Nat.mul_succ, Nat.add_comm size]

lemma foldl_addServers {os : List (ℕ × Bytes)} (h : ∀ o ∈ os, 0 < o.1) (l : List Bytes) :
    os.foldl (fun l o => l ++ addServers o.1 (dhcpMaxns - l.length) o.2) (l.take dhcpMaxns) =
      (l ++ os.flatMap fun o => addressesOf o.1 o.2).take dhcpMaxns := by
  induction os generalizing l with
  | nil => simp
  | cons o os ih =>
    have hlen : dhcpMaxns - (l.take dhcpMaxns).length = dhcpMaxns - l.length := by
      rw [length_take]
      omega
    rw [foldl_cons, hlen, addServers_eq (h o mem_cons_self), ← take_append,
      ih fun o ho => h o (mem_cons_of_mem _ ho), flatMap_cons, append_assoc]

/-- The longest DNS name. -/
def dnsNameMax : ℕ := 255

/-- **The zone of a name** is the one in use with the longest name that ends it at the border of a
label. The search fails if there is none or if it is inactive; else its servers are listed, up to a
number, in the order of the options. -/
theorem findCachedZone_longest (now : ℤ) (t : Table) (hroot : t.find [] = none) (cb : DdnsCb)
    (direction : Direction) (hname : cb.name direction ≠ [])
    (hlen : (complete 0 (cb.name direction)).length ≤ dnsNameMax) :
    let r := findCachedZone now t cb direction
    let name := complete 0 (cb.name direction)
    (r.1 = .success ↔ ∃ z, Chosen now t name z ∧ z.inactive = false) ∧
    ∀ z, Chosen now t name z → r.1 = .success → r.2.1 = { cb with
      zoneName := z.name, zone := some z
      zoneServerList := cb.zoneServerList ++
        (z.options.flatMap fun o => addressesOf o.1 o.2).take dhcpMaxns } := by
  intro r name
  have hspec (z : Zone) : _ ↔ Chosen now t name z := searchZones_spec (by simp [hroot]) z
  unfold r findCachedZone
  rw [if_neg hname]
  dsimp only
  cases hr : (searchZones now t 0 (cb.name direction)).1 with
  | none =>
    rw [hr] at hspec
    exact ⟨⟨nofun, fun ⟨z, hc, _⟩ => nomatch (hspec z).2 hc⟩, nofun⟩
  | some zone =>
    have hs : zone.listServers = _ := foldl_addServers (by simp [Zone.options]) []
    rw [nil_append] at hs
    -- the name of the zone is that of a part of the name
    obtain ⟨s, hc, -⟩ := (hspec zone).1 hr
    have hz : zone.name.length = s.length := by simpa [fold] using congrArg length (t.keyed hc.2.1)
    have hn : ¬ zone.name.length > dhcpMaxdnsWire :=
      not_lt.2 ((hz.trans_le (hc.length_le.trans hlen)).trans (by decide))
    simp only [← hspec, hr, Option.some.injEq, forall_eq', exists_eq_left', ← hs]
    split_ifs with hi
    · simp [hi]
    · simp [hi]

theorem findCachedZone_longest_sample :
    let t := enterDnsZone ⟨fun _ => none, nofun⟩ { name := [98, dot] }
    (findCachedZone 0 t { fwdName := [97, dot, 98] } .forward).1 = .success := by
  intro t
  refine (findCachedZone_longest 0 t rfl { fwdName := [97, dot, 98] } .forward nofun
    (by decide)).1.2
    ⟨{ name := [98, dot] }, ⟨[98, dot], ⟨.inr ⟨[97], rfl⟩, rfl, nofun⟩, fun s' a h => ?_⟩, rfl⟩
  have hs : fold s' = [98, dot] := by
    by_contra hne
    exact nomatch (Function.update_of_ne hne ..).symm.trans h.2.1
  simpa [fold] using (congrArg length hs).le

end IscDhcp.Dns
