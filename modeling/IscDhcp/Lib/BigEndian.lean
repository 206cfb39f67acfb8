import Mathlib.Algebra.Order.Group.Nat
import Mathlib.Data.List.Induction

/-!
Numbers written most significant byte first. A number is cut to the width it is written in, and
reading it back gives it modulo that width.
-/

namespace BigEndian

open List

/-- The low `k` bytes of `n`. -/
def toBytes : ℕ → ℕ → List UInt8
  | 0, _ => []
  | k + 1, n => toBytes k (n / 256) ++ [UInt8.ofNat n]

/-- The number whose bytes are `b`. -/
def ofBytes (b : List UInt8) : ℕ := b.foldl (fun n x => n * 256 + x.toNat) 0

@[simp] lemma length_toBytes (k n : ℕ) : (toBytes k n).length = k := by
  induction k generalizing n with
  | zero => rfl
  | succ k ih => simp [toBytes, ih]

@[simp] lemma ofBytes_nil : ofBytes [] = 0 := rfl

@[simp] lemma ofBytes_singleton (x : UInt8) : ofBytes [x] = x.toNat := by simp [ofBytes]

lemma ofBytes_concat (b : List UInt8) (x : UInt8) : ofBytes (b ++ [x]) =
    ofBytes b * 256 + x.toNat := by
  simp [ofBytes]

theorem ofBytes_toBytes (k n : ℕ) : ofBytes (toBytes k n) = n % 256 ^ k := by
  induction k generalizing n with
  | zero => simp [toBytes, Nat.mod_one]
  | succ k ih =>
    have hlow : (UInt8.ofNat n).toNat = n % 256 := rfl
    rw [toBytes, ofBytes_concat, ih, hlow, pow_succ', Nat.mod_mul]
    omega

/-- Bytes are written again as they were read. -/
theorem toBytes_ofBytes (b : List UInt8) : toBytes b.length (ofBytes b) = b := by
  induction b using reverseRecOn with
  | nil => rfl
  | append_singleton b x ih =>
    have hx : x.toNat < 256 := x.toNat_lt
    have hdiv : (ofBytes b * 256 + x.toNat) / 256 = ofBytes b := by omega
    have hlow : UInt8.ofNat (ofBytes b * 256 + x.toNat) = x := by
      apply UInt8.toNat_inj.mp
      change (ofBytes b * 256 + x.toNat) % 256 = x.toNat
      omega
    rw [ofBytes_concat, length_append, length_singleton, toBytes, hdiv, hlow, ih]

lemma ofBytes_lt (b : List UInt8) : ofBytes b < 256 ^ b.length := by
  have h := ofBytes_toBytes b.length (ofBytes b)
  rw [toBytes_ofBytes] at h
  exact h.trans_lt (Nat.mod_lt _ (Nat.pow_pos (by decide)))

def words (k : ℕ) : ℕ → List UInt8 → List ℕ
  | 0, _ => []
  | n + 1, b => ofBytes (b.take k) :: words k n (b.drop k)

lemma words_append (k n : ℕ) (b r : List UInt8) (h : b.length = k * n) :
    words k n (b ++ r) = words k n b := by
  induction n generalizing b with
  | zero => rfl
  | succ n ih =>
    have hk : k ≤ b.length := by rw [h, Nat.mul_succ]; omega
    have hd : (b.drop k).length = k * n := by
      rw [length_drop, h, Nat.mul_succ]
      omega
    rw [words, words, take_append_of_le_length hk, drop_append_of_le_length hk, ih _ hd]

lemma words_flatMap (k : ℕ) (l : List ℕ) :
    words k l.length (l.flatMap (toBytes k)) = l.map (· % 256 ^ k) := by
  induction l with
  | nil => rfl
  | cons a l ih =>
    have hk : (toBytes k a).length = k := length_toBytes k a
    rw [flatMap_cons, length_cons, words, take_left' hk, drop_left' hk,
      ofBytes_toBytes, ih, map_cons]

end BigEndian
