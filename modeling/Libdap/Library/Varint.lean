import Mathlib.Tactic

/-!
# Base-128 varints

A number written as digits in base 128, lowest first, one digit a byte, with
the top bit set on every byte but the last. `encode` is the recursive
definition; `encode_of_digits` is the same list built from a known number of
digits, which is how writers with a size search produce it.
-/
namespace Libdap.Library.Varint

def encode (n : Nat) : List UInt8 :=
  if n < 128 then [UInt8.ofNat n]
  else UInt8.ofNat (n % 128 + 128) :: encode (n / 128)
termination_by n
decreasing_by omega

theorem encode_last {n : Nat} (h : n < 128) : encode n = [UInt8.ofNat n] := by
  rw [encode, if_pos h]

theorem encode_more {n : Nat} (h : 128 ≤ n) :
    encode n = UInt8.ofNat (n % 128 + 128) :: encode (n / 128) := by
  rw [encode, if_neg (Nat.not_lt.mpr h)]

/-- The byte of digit `k`, marked as not being the last one. -/
def digit (n k : Nat) : UInt8 := UInt8.ofNat (n / 128 ^ k % 128 + 128)

theorem digit_succ (n k : Nat) : digit n (k + 1) = digit (n / 128) k := by
  unfold digit
  rw [Nat.div_div_eq_div_mul, pow_succ']

theorem encode_of_digits (k n : Nat) (low : k = 0 ∨ 128 ^ k ≤ n) (high : n < 128 ^ (k + 1)) :
    encode n = (List.range k).map (digit n) ++ [UInt8.ofNat (n / 128 ^ k)] := by
  induction k generalizing n with
  | zero =>
    rw [encode_last (by simpa using high)]
    simp
  | succ k ih =>
    have grow : 128 ^ (k + 1) ≤ n := by simpa using low
    have above : 128 * 128 ^ k ≤ n := by rwa [pow_succ'] at grow
    have positive : 0 < 128 ^ k := Nat.pow_pos (by decide)
    have rest := ih (n / 128)
      (Or.inr ((Nat.le_div_iff_mul_le (by decide)).mpr (by rwa [Nat.mul_comm])))
      (Nat.div_lt_of_lt_mul (by rwa [pow_succ'] at high))
    have first : UInt8.ofNat (n % 128 + 128) = digit n 0 := by simp [digit]
    have last : n / 128 / 128 ^ k = n / 128 ^ (k + 1) := by
      rw [Nat.div_div_eq_div_mul, pow_succ']
    rw [encode_more (by omega), rest, List.range_succ_eq_map, last, first]
    simp only [List.map_cons, List.map_map, List.cons_append]
    congr 2
    exact List.map_congr_left fun j _ => (digit_succ n j).symm

theorem encode_length_le (k n : Nat) (h : n < 128 ^ (k + 1)) : (encode n).length ≤ k + 1 := by
  induction k generalizing n with
  | zero =>
    rw [encode_last (by simpa using h)]
    simp
  | succ k ih =>
    by_cases small : n < 128
    · rw [encode_last small]
      simp
    · rw [encode_more (Nat.le_of_not_lt small), List.length_cons]
      have := ih (n / 128) (Nat.div_lt_of_lt_mul (by rwa [pow_succ'] at h))
      omega

end Libdap.Library.Varint
