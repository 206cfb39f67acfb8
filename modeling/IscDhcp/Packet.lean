import IscDhcp.Basic
import IscDhcp.Lib.BigEndian
import Mathlib.Data.Nat.ModEq
import Mathlib.Algebra.Group.Nat.Even

/-!
The IP and UDP headers that the server writes and reads itself (`common/packet.c`, built without
`USERLAND_FILTER`). Checksums are sums of 16-bit words in which a carry is added again, that is,
sums modulo 65535.
-/

namespace IscDhcp.Packet

open BigEndian List

/-- A word is added, and the carry with it. -/
def addCarry (sum word : ℕ) : ℕ := if 0xFFFF < sum + word then sum + word - 0xFFFF else sum + word

/-- A last odd byte is the high byte of its word. -/
def checksum : Bytes → ℕ → ℕ
  | [], sum => sum
  | [b], sum => addCarry sum (b.toNat * 256)
  | b :: b' :: buf, sum => checksum buf (addCarry sum (b.toNat * 256 + b'.toNat))

def wrapsum (sum : ℕ) : ℕ := 0xFFFF - sum % 0x10000

def ipprotoUdp : ℕ := 17

/-- A field of a header, in network order. -/
abbrev Field (n : ℕ) := { b : Bytes // b.length = n }

/-- Whom a packet is from and to; `sport` is `local_port`. -/
structure Route where
  src : Field 4
  dst : Field 4
  sport : Field 2
  dport : Field 2

/-- The addresses, as they stand in the IP header and in the pseudo-header of UDP. -/
def Route.addrs (r : Route) : Bytes := r.src.1 ++ r.dst.1

/-- The IP header before a UDP header and `len` bytes. -/
def Route.ipHeader (r : Route) (len sum : ℕ) : Bytes :=
  ([0x45, 0x10] ++ toBytes 2 (28 + len) ++ [0, 0, 0, 0, 128, UInt8.ofNat ipprotoUdp]) ++
    (toBytes 2 sum ++ r.addrs)

def Route.udpHeader (r : Route) (len sum : ℕ) : Bytes :=
  (r.sport.1 ++ r.dport.1 ++ toBytes 2 (8 + len)) ++ toBytes 2 sum

/-- The sum over the pseudo-header, the data and the UDP header. -/
def udpSum (addrs udp data : Bytes) (ulen : ℕ) : ℕ :=
  checksum udp (checksum data (checksum addrs (ipprotoUdp + ulen)))

def assembleUdpIpHeader (r : Route) (data : Bytes) : Bytes :=
  let len := data.length
  r.ipHeader len (wrapsum (checksum (r.ipHeader len 0) 0)) ++ r.udpHeader len
    (wrapsum (udpSum r.addrs (r.udpHeader len 0) data ((8 + len) % 2 ^ 16)))

section

variable (buf : Bytes)

/-- The length of the IP header, the length of the packet in it, the UDP header and the length
in that. -/
def ipLen : ℕ := (buf.getD 0 0).toNat % 16 * 4
def pktLen : ℕ := ofBytes ((buf.drop 2).take 2)
def udpOf : Bytes := (buf.drop (ipLen buf)).take 8
def ulenOf : ℕ := ofBytes (((udpOf buf).drop 4).take 2)

/-- `udp.uh_sum` is there, and the two checksums are right. -/
def summed : Bool := (udpOf buf).drop 6 ≠ [0, 0]
def ipSumOk : Bool := wrapsum (checksum (buf.take (ipLen buf)) 0) = 0
def udpSumOk : Bool :=
  let data := (buf.drop (ipLen buf + 8)).take (ulenOf buf - 8)
  wrapsum (udpSum ((buf.drop 12).take 8) (udpOf buf) data (ulenOf buf)) = 0

/-- Where the payload is, how long it is and whom it is from. -/
structure Decoded where
  offset : ℕ
  rbuflen : ℕ
  sinAddr : Bytes
  sinPort : Bytes
  deriving DecidableEq, Repr

/-- `none` is the result `-1`. -/
def decodeUdpIpHeader (csumReady : Bool) : Option Decoded :=
  if buf.length < 20 then none
  else if buf.length < ipLen buf ∨ buf.length < pktLen buf ∨ buf.length < ipLen buf + 8 then none
  else if ulenOf buf < 8 then none
  else if buf.length < ipLen buf + ulenOf buf then none
  else if !ipSumOk buf then none
  else if summed buf && csumReady && !udpSumOk buf then none
  else some
    { offset := ipLen buf + 8, rbuflen := ulenOf buf - 8
      sinAddr := (buf.drop 12).take 4, sinPort := (udpOf buf).take 2 }

end

/-! ### Sums modulo 65535 -/

def wordSum : Bytes → ℕ
  | [] => 0
  | [b] => b.toNat * 256
  | b :: b' :: buf => b.toNat * 256 + b'.toNat + wordSum buf

section Sums

variable {a b c w w' : Bytes} {s n : ℕ}

lemma addCarry_spec (s : ℕ) (hn : n ≤ 65535) : addCarry s n ≡ s + n [MOD 65535] ∧
    (s ≤ 65535 → addCarry s n ≤ 65535) ∧ (0 < s + n → 0 < addCarry s n) := by
  unfold addCarry Nat.ModEq
  split_ifs <;> omega

/-- A sum is the one of the words modulo 65535; it is 0 only of words that are. -/
lemma checksum_spec (b : Bytes) (s : ℕ) : checksum b s ≡ s + wordSum b [MOD 65535] ∧
    (s ≤ 65535 → checksum b s ≤ 65535) ∧ (0 < s + wordSum b → 0 < checksum b s) := by
  fun_induction checksum b s with
  | case1 s => exact ⟨rfl, id, id⟩
  | case2 b s =>
    have hb := b.toNat_lt
    exact addCarry_spec s (by omega)
  | case3 b b' buf s ih =>
    have hb := b.toNat_lt
    have hb' := b'.toNat_lt
    obtain ⟨hmod, hle, hpos⟩ := addCarry_spec s (n := b.toNat * 256 + b'.toNat) (by omega)
    rw [wordSum, ← Nat.add_assoc]
    exact ⟨ih.1.trans (hmod.add_right _), fun h => ih.2.1 (hle h), fun h => ih.2.2 (by omega)⟩

lemma wrapsum_eq_zero (hle : s ≤ 65535) (hpos : 0 < s) : wrapsum s = 0 ↔ s ≡ 0 [MOD 65535] := by
  unfold wrapsum Nat.ModEq
  omega

/-- The checksum that is stored makes up for the rest. -/
lemma add_wrapsum (h : s ≡ n [MOD 65535]) (hs : s ≤ 65535) : n + wrapsum s ≡ 0 [MOD 65535] := by
  unfold wrapsum
  unfold Nat.ModEq at h ⊢
  omega

lemma wrapsum_lt (s : ℕ) : wrapsum s < 65536 := by
  unfold wrapsum
  omega

lemma wordSum_append (ha : Even a.length) : wordSum (a ++ b) = wordSum a + wordSum b := by
  fun_induction wordSum a with
  | case1 => simp
  | case2 x => simp at ha
  | case3 x y a ih =>
    have ha' : Even a.length := by simpa [Nat.even_add_one] using ha
    rw [cons_append, cons_append, wordSum, ih ha']
    omega

lemma wordSum_toBytes (h : n < 65536) : wordSum (toBytes 2 n) = n := by
  have h1 : (UInt8.ofNat (n / 256)).toNat = n / 256 % 256 := rfl
  have h2 : (UInt8.ofNat n).toNat = n % 256 := rfl
  simp only [toBytes, nil_append, singleton_append, wordSum]
  omega

lemma wordSum_replace (ha : Even a.length) (hw : w.length = 2 ∨ w.length = 1 ∧ c = [])
    (hlen : w'.length = w.length) :
    wordSum (a ++ (w ++ c)) + wordSum w' = wordSum (a ++ (w' ++ c)) + wordSum w := by
  rw [wordSum_append ha, wordSum_append ha]
  rcases hw with hw | ⟨hw, rfl⟩
  · rw [wordSum_append (by rw [hw]; decide), wordSum_append (by rw [hlen, hw]; decide)]
    omega
  · simp only [append_nil]
    omega

/-- A checksum goes into a place that was 0. -/
lemma wordSum_insert (ha : Even a.length) (h : n < 65536) :
    wordSum (a ++ (toBytes 2 n ++ c)) = wordSum (a ++ (toBytes 2 0 ++ c)) + n := by
  have hz : wordSum (toBytes 2 0) = 0 := rfl
  have hr := wordSum_replace (c := c) ha (.inl (length_toBytes 2 n))
    ((length_toBytes 2 0).trans (length_toBytes 2 n).symm)
  rwa [hz, wordSum_toBytes h, Nat.add_zero] at hr

end Sums

/-! ### Packets with headers of the shortest length -/

/-- The lengths in the headers are those of the packet. -/
structure Fits (len : ℕ) (buf : Bytes) : Prop where
  length : buf.length = 28 + len
  le : len ≤ 65507
  ipLen : ipLen buf = 20
  pktLen : pktLen buf = 28 + len
  ulen : ulenOf buf = 8 + len

/-- The IP header comes to nothing; and the pseudo-header with all that is behind it. -/
def IpZero (buf : Bytes) : Prop := wordSum (buf.take 20) ≡ 0 [MOD 65535]
def UdpZero (len : ℕ) (buf : Bytes) : Prop :=
  25 + len + wordSum ((buf.drop 12).take 8) + wordSum (buf.drop 20) ≡ 0 [MOD 65535]

section Fits

variable {len : ℕ} {buf : Bytes}

lemma Fits.ipSumOk_iff (h : Fits len buf) : ipSumOk buf ↔ IpZero buf := by
  have hpos : 0 < wordSum (buf.take 20) := by
    have hip := h.ipLen
    rcases buf with _ | ⟨x, _ | ⟨y, r⟩⟩
    · exact absurd hip (by decide)
    · exact absurd h.length (by simp; omega)
    · simp only [Packet.ipLen, getD_cons_zero] at hip
      simp only [take_succ_cons, wordSum]
      omega
  obtain ⟨hmod, hle, hc⟩ := checksum_spec (buf.take 20) 0
  rw [Nat.zero_add] at hmod hc
  rw [ipSumOk, h.ipLen, decide_eq_true_iff, wrapsum_eq_zero (hle (Nat.zero_le _)) (hc hpos)]
  exact ⟨hmod.symm.trans, hmod.trans⟩

lemma udpSum_spec (addrs udp data : Bytes) (h : len ≤ 65507) :
    udpSum addrs udp data (8 + len) ≡ 25 + len + wordSum addrs + (wordSum udp + wordSum data)
      [MOD 65535] ∧ udpSum addrs udp data (8 + len) ≤ 65535 ∧
      0 < udpSum addrs udp data (8 + len) := by
  obtain ⟨m1, l1, p1⟩ := checksum_spec addrs (ipprotoUdp + (8 + len))
  obtain ⟨m2, l2, p2⟩ := checksum_spec data (checksum addrs (ipprotoUdp + (8 + len)))
  obtain ⟨m3, l3, p3⟩ := checksum_spec udp (checksum data (checksum addrs (ipprotoUdp + (8 + len))))
  have h1 := p1 (by unfold ipprotoUdp; omega)
  have h2 := p2 (Nat.add_pos_left h1 _)
  refine ⟨?_, l3 (l2 (l1 (by unfold ipprotoUdp; omega))), p3 (Nat.add_pos_left h2 _)⟩
  have hmod := m3.trans ((m2.trans (m1.add_right _)).add_right _)
  have heq : ipprotoUdp + (8 + len) + wordSum addrs + wordSum data + wordSum udp =
      25 + len + wordSum addrs + (wordSum udp + wordSum data) := by unfold ipprotoUdp; omega
  rwa [heq] at hmod

lemma Fits.udpSumOk_iff (h : Fits len buf) : udpSumOk buf ↔ UdpZero len buf := by
  have hlen := h.length
  have hdata : (buf.drop 28).take len = buf.drop 28 :=
    take_of_length_le (by rw [length_drop]; omega)
  have hsplit : wordSum (buf.drop 20) = wordSum ((buf.drop 20).take 8) + wordSum (buf.drop 28) := by
    have he : Even ((buf.drop 20).take 8).length := by
      rw [length_take, length_drop, Nat.min_eq_left (by omega)]
      decide
    rw [← wordSum_append he, ← drop_drop (i := 8) (j := 20), take_append_drop]
  obtain ⟨hmod, hle, hpos⟩ :=
    udpSum_spec ((buf.drop 12).take 8) ((buf.drop 20).take 8) (buf.drop 28) h.le
  simp only [udpSumOk, udpOf, h.ipLen, h.ulen, Nat.add_sub_cancel_left, hdata]
  rw [decide_eq_true_iff, wrapsum_eq_zero hle hpos, UdpZero, hsplit]
  exact ⟨hmod.symm.trans, hmod.trans⟩

lemma Fits.decode (h : Fits len buf) (csumReady : Bool) : decodeUdpIpHeader buf csumReady =
    if !ipSumOk buf then none else if summed buf && csumReady && !udpSumOk buf then none
    else some ⟨28, len, (buf.drop 12).take 4, ((buf.drop 20).take 8).take 2⟩ := by
  have hlen := h.length
  rw [decodeUdpIpHeader, udpOf, h.ipLen, h.pktLen, h.ulen, if_neg (by omega), if_neg (by omega),
    if_neg (by omega), if_neg (by omega), Nat.add_sub_cancel_left]

/-- One word of a packet that adds up is replaced: it does not add up any more. -/
lemma Fits.replaced {a w w' c : Bytes} (h : Fits len (a ++ (w ++ c)))
    (h' : Fits len (a ++ (w' ++ c))) (hip : IpZero (a ++ (w ++ c)))
    (hudp : UdpZero len (a ++ (w ++ c))) (heven : Even a.length)
    (hw : w.length = 2 ∨ w.length = 1 ∧ c = []) (hw' : w'.length = w.length)
    (hne : ¬ wordSum w ≡ wordSum w' [MOD 65535]) (hsum : summed (a ++ (w' ++ c))) :
    decodeUdpIpHeader (a ++ (w' ++ c)) true = none := by
  have hbad {x y : ℕ} (h : x + wordSum w' = y + wordSum w) (hx : x ≡ 0 [MOD 65535])
      (hy : y ≡ 0 [MOD 65535]) : False := by
    unfold Nat.ModEq at hne hx hy
    omega
  have hlen := h.length
  rw [length_append, length_append] at hlen
  rw [h'.decode]
  by_cases hlt : a.length < 20
  · -- the word is one of the IP header
    have hw2 : w.length = 2 := hw.resolve_right fun ⟨h1, hc⟩ => by simp [hc] at hlen; omega
    have htake (v : Bytes) (hv : v.length = 2) :
        (a ++ (v ++ c)).take 20 = a ++ (v ++ c.take (20 - a.length - 2)) := by
      obtain ⟨k, hk⟩ := heven
      rw [take_append, take_of_length_le (by omega), take_append, take_of_length_le (by omega), hv]
    have hno : ¬ ipSumOk (a ++ (w' ++ c)) := fun hok => by
      refine hbad ?_ hip (h'.ipSumOk_iff.mp hok)
      rw [htake w hw2, htake w' (hw'.trans hw2)]
      exact wordSum_replace heven (.inl hw2) hw'
    simp [Bool.eq_false_iff.mpr hno]
  · have hdrop (v : Bytes) (n : ℕ) (hn : n ≤ 20) : (a ++ (v ++ c)).drop n = a.drop n ++ (v ++ c) :=
      drop_append_of_le_length (by omega)
    have haddrs (v : Bytes) : ((a ++ (v ++ c)).drop 12).take 8 = (a.drop 12).take 8 := by
      rw [hdrop v 12 (by omega), take_append_of_le_length (by rw [length_drop]; omega)]
    have heven' : Even (a.drop 20).length := by
      rw [length_drop, Nat.even_sub (not_lt.mp hlt)]
      exact iff_of_true heven (by decide)
    have hno : ¬ udpSumOk (a ++ (w' ++ c)) := fun hok => by
      refine hbad ?_ hudp (h'.udpSumOk_iff.mp hok)
      have hr := wordSum_replace heven' hw hw'
      rw [haddrs, haddrs, hdrop w 20 le_rfl, hdrop w' 20 le_rfl]
      omega
    simp [Bool.eq_false_iff.mpr hno, hsum]

end Fits

/-! ### What is written is read again -/

namespace Route

variable (r : Route) (data : Bytes) (s t : ℕ)

/-- Both headers, with any checksums, and the data. -/
def headed : Bytes := r.ipHeader data.length s ++ (r.udpHeader data.length t ++ data)

lemma length_ipHeader (len : ℕ) : (r.ipHeader len s).length = 20 := by
  simp [ipHeader, addrs, r.src.2, r.dst.2]

lemma length_udpHeader (len : ℕ) : (r.udpHeader len t).length = 8 := by
  simp [udpHeader, r.sport.2, r.dport.2]

lemma drop_headed : (r.headed data s t).drop 20 = r.udpHeader data.length t ++ data :=
  drop_left' (r.length_ipHeader ..)

lemma drop_twelve_headed :
    (r.headed data s t).drop 12 = r.addrs ++ (r.udpHeader data.length t ++ data) := rfl

variable {data}

lemma fits_headed (hlen : data.length ≤ 65507) : Fits data.length (r.headed data s t) := by
  have hip : ipLen (r.headed data s t) = 20 := by
    change (0x45 : UInt8).toNat % 16 * 4 = 20
    decide
  have hulen : ((r.udpHeader data.length t).drop 4).take 2 = toBytes 2 (8 + data.length) := by
    rw [udpHeader, append_assoc, drop_left' (by simp [r.sport.2, r.dport.2]),
      take_left' (length_toBytes ..)]
  refine ⟨?_, hlen, hip, ?_, ?_⟩
  · simp [headed, length_ipHeader, length_udpHeader]
    omega
  · exact (ofBytes_toBytes 2 (28 + data.length)).trans (Nat.mod_eq_of_lt (by omega))
  · rw [ulenOf, udpOf, hip, drop_headed, take_left' (r.length_udpHeader ..), hulen,
      ofBytes_toBytes, Nat.mod_eq_of_lt (by omega)]

/-- Everything in a packet that is sent adds up. -/
lemma exists_headed (hlen : data.length ≤ 65507) : ∃ s t,
    assembleUdpIpHeader r data ++ data = r.headed data s t ∧ IpZero (r.headed data s t) ∧
      UdpZero data.length (r.headed data s t) := by
  refine ⟨_, _, append_assoc .., ?_, ?_⟩
  · have hins : wordSum (r.ipHeader data.length _) = _ := wordSum_insert (by simp; decide)
      (wrapsum_lt (checksum (r.ipHeader data.length 0) 0))
    obtain ⟨hmod, hle, -⟩ := checksum_spec (r.ipHeader data.length 0) 0
    rw [Nat.zero_add] at hmod
    rw [IpZero, headed, take_left' (r.length_ipHeader ..), hins]
    exact add_wrapsum hmod (hle (Nat.zero_le _))
  · have hpre : Even (r.sport.1 ++ r.dport.1 ++ toBytes 2 (8 + data.length)).length := by
      simp [r.sport.2, r.dport.2]
      decide
    have hins (c : ℕ) : wordSum (r.udpHeader data.length (wrapsum c)) =
        wordSum (r.udpHeader data.length 0) + wrapsum c := by
      simpa [udpHeader] using wordSum_insert (c := []) hpre (wrapsum_lt c)
    have he (t : ℕ) : Even (r.udpHeader data.length t).length := by
      rw [length_udpHeader]
      decide
    have haddrs : r.addrs.length = 8 := by simp [addrs, r.src.2, r.dst.2]
    rw [UdpZero, drop_headed, drop_twelve_headed, take_left' haddrs, wordSum_append (he _),
      hins, Nat.mod_eq_of_lt (show 8 + data.length < 2 ^ 16 by omega)]
    obtain ⟨hmod, hle, -⟩ := udpSum_spec r.addrs (r.udpHeader data.length 0) data hlen
    convert add_wrapsum hmod hle using 1
    omega

/-- **The headers that are assembled are decoded again, and a word that changes is noticed**,
unless it is 0 for 65535 or the other way round. -/
theorem decode_assembled (hlen : data.length ≤ 65507) :
    (∀ csumReady, decodeUdpIpHeader (assembleUdpIpHeader r data ++ data) csumReady =
      some ⟨28, data.length, r.src, r.sport⟩) ∧
    ∀ a w w' c, assembleUdpIpHeader r data ++ data = a ++ (w ++ c) → Even a.length →
      (w.length = 2 ∨ w.length = 1 ∧ c = []) → w'.length = w.length →
      ¬ wordSum w ≡ wordSum w' [MOD 65535] →
      (∀ f ∈ [ipLen, pktLen, ulenOf], f (a ++ (w' ++ c)) = f (a ++ (w ++ c))) →
      summed (a ++ (w' ++ c)) → decodeUdpIpHeader (a ++ (w' ++ c)) true = none := by
  obtain ⟨s, t, hp, hip, hudp⟩ := r.exists_headed hlen
  have hfits := r.fits_headed s t hlen
  rw [hp]
  constructor
  · intro csumReady
    rw [hfits.decode, hfits.ipSumOk_iff.mpr hip, hfits.udpSumOk_iff.mpr hudp, drop_headed,
      drop_twelve_headed, take_left' (r.length_udpHeader ..), addrs, append_assoc,
      take_left' r.src.2, udpHeader, append_assoc, append_assoc,
      take_left' r.sport.2]
    simp
  · intro a w w' c ha heven hw hw' hne hlens hsum
    rw [ha] at hfits hip hudp
    refine hfits.replaced ?_ hip hudp heven hw hw' hne hsum
    exact ⟨by rw [← hfits.length]; simp [hw'], hlen, (hlens _ (by simp)).trans hfits.ipLen,
      (hlens _ (by simp)).trans hfits.pktLen, (hlens _ (by simp)).trans hfits.ulen⟩

/-- A payload of one byte, and then another one in its place. -/
theorem decode_assembled_byte :
    let r : Route := ⟨⟨[10, 0, 0, 1], rfl⟩, ⟨[10, 0, 0, 2], rfl⟩, ⟨[0, 67], rfl⟩, ⟨[0, 68], rfl⟩⟩
    decodeUdpIpHeader (assembleUdpIpHeader r [7] ++ [7]) true =
        some ⟨28, 1, [10, 0, 0, 1], [0, 67]⟩ ∧
      decodeUdpIpHeader (assembleUdpIpHeader r [7] ++ ([8] ++ [])) true = none := by
  intro r
  have h := r.decode_assembled (show ([7] : Bytes).length ≤ 65507 by decide)
  exact ⟨h.1 true, h.2 _ [7] [8] [] rfl (by decide) (by decide) rfl (by decide) (by decide)
    (by decide)⟩

end Route

end IscDhcp.Packet
