import Libdap.Source.StringUtil
import Mathlib.Tactic
import Mathlib.Data.Nat.Digits.Lemmas

/-!
# What a formatted number reads as

The numeral of a number is its digits in the base, most significant first. Only the smallest
`long`, whose absolute value is itself, is written otherwise.
-/
namespace Libdap.Guarantees.Numerals
open Libdap.Source Libdap.Source.StringUtil

/-- The value of a digit, of which there are 36. -/
def digitValue (c : Char) : Option Nat := (digits.take 36).findIdx? (· = c)

def readDigits (base value : Nat) : List Char → Option Nat
  | [] => some value
  | c :: rest =>
    match digitValue c with
    | some d => if d < base then readDigits base (value * base + d) rest else none
    | none => none

/-- The digits of a numeral. -/
def unsigned : List Char → List Char
  | '-' :: ds => ds
  | ds => ds

/-- The number a numeral stands for; a numeral has at least one digit. -/
def readNumeral (base : Nat) (numeral : List Char) : Option Int :=
  match unsigned numeral with
  | [] => none
  | ds => (readDigits base 0 ds).map fun n : Nat =>
      if numeral.head? = some '-' then -(n : Int) else (n : Int)

/-- A numeral of `val` is put behind the string. An index outside of the digits would be
undefined behaviour. -/
def Formatted (val : Int64) (base : Int32) (strVal : List Char) : Prop :=
  ∃ numeral, appendLongToString val base strVal = .ok (strVal ++ numeral) ∧
    readNumeral base.toInt.toNat numeral = some val.toInt ∧
    (numeral.head? = some '-' ↔ val < 0) ∧
    ((unsigned numeral).head? = some '0' → unsigned numeral = ['0'])

/-! ### Digits, most significant first -/

def positional (base n : Nat) : List Nat := if n = 0 then [0] else (Nat.digits base n).reverse

def digitChar (d : Nat) : Char := digits.getD d ' '

theorem digitChar_value {d : Nat} (small : d < 36) : digitValue (digitChar d) = some d := by
  revert d
  decide

theorem digitChar_zero {d : Nat} (small : d < 36) (zero : digitChar d = '0') : d = 0 := by
  have value := digitChar_value small
  rw [zero] at value
  exact (Option.some.inj value).symm

theorem digitChar_sign {d : Nat} (small : d < 36) : digitChar d ≠ '-' := by
  intro sign
  have value := digitChar_value small
  rw [sign] at value
  cases value

theorem digitAt_eq {d : Nat} (small : d < 36) : digitAt (d : Int) = .ok (digitChar d) := by
  have inside : d < digits.length := lt_trans small (by decide)
  simp [digitAt, digitChar, List.getD, inside]

theorem positional_small {base n : Nat} (small : n < base) : positional base n = [n] := by
  by_cases zero : n = 0
  · simp [positional, zero]
  · simp [positional, zero, Nat.digits_of_lt base n zero small]

theorem positional_more {base n : Nat} (two : 2 ≤ base) (more : 0 < n / base) :
    positional base n = positional base (n / base) ++ [n % base] := by
  have positive : 0 < n := Nat.pos_of_ne_zero fun zero => by simp [zero] at more
  rw [positional, positional, if_neg positive.ne', if_neg more.ne',
    Nat.digits_def' two positive, List.reverse_cons]

theorem positional_lt {base n : Nat} (two : 2 ≤ base) : ∀ d ∈ positional base n, d < base := by
  intro d member
  rw [positional] at member
  split at member
  · cases List.mem_singleton.mp member
    omega
  · exact Nat.digits_lt_base two (List.mem_reverse.mp member)

theorem positional_value (base n : Nat) :
    (positional base n).foldl (fun value d => value * base + d) 0 = n := by
  rw [positional]
  split
  · next zero => simp [zero]
  · have value := Nat.ofDigits_digits base n
    rw [Nat.ofDigits_eq_foldr] at value
    rw [List.foldl_reverse]
    simpa [mul_comm, add_comm] using value

theorem positional_head {base n : Nat} (zero : (positional base n).head? = some 0) :
    positional base n = [0] := by
  rw [positional] at zero ⊢
  split at zero
  · next none => rw [if_pos none]
  · next some =>
    rw [List.head?_reverse] at zero
    have last := Nat.getLast_digit_ne_zero base some
    rw [List.getLast?_eq_some_getLast (Nat.digits_ne_nil_iff_ne_zero.mpr some)] at zero
    exact absurd (Option.some.inj zero) last

theorem positional_ne_nil (base n : Nat) : positional base n ≠ [] := by
  rw [positional]
  split
  · exact List.cons_ne_nil _ _
  · next some => simpa [Nat.digits_ne_nil_iff_ne_zero] using some

theorem readDigits_map {base : Nat} (few : base ≤ 36) (ds : List Nat) (value : Nat)
    (small : ∀ d ∈ ds, d < base) :
    readDigits base value (ds.map digitChar) =
      some (ds.foldl (fun value d => value * base + d) value) := by
  induction ds generalizing value with
  | nil => rfl
  | cons d rest ih =>
    obtain ⟨first, others⟩ := List.forall_mem_cons.mp small
    rw [List.map_cons, readDigits, digitChar_value (by omega)]
    simp only [if_pos first]
    exact ih _ others

/-! ### The numeral that is written -/

def signOf (val : Int64) : List Char := if val < 0 then ['-'] else []

def numeralOf (val : Int64) (base : Int32) : List Char :=
  signOf val ++ (positional base.toInt.toNat val.toInt.natAbs).map digitChar

theorem digit_written {n : Nat} (small : n < 36) {r : Int64} (same : r.toInt = n) :
    digitAt r.toInt32.toInt = .ok (digitChar n) := by
  rw [Int64.toInt_toInt32, same, Int.bmod_eq_of_le (by omega) (by omega), digitAt_eq small]

/-- The recursion writes the digits of the quotient, then the last one. -/
theorem append_eq {base : Int32} (range : ¬(36 < base ∨ base < 2)) {val : Int64}
    (least : val ≠ Int64.minValue) (strVal : List Char) :
    appendLongToString val base strVal = .ok (strVal ++ numeralOf val base) := by
  obtain ⟨two, few⟩ := base_range range
  obtain ⟨b, same⟩ := Int.eq_ofNat_of_zero_le (show 0 ≤ base.toInt by omega)
  have natural : base.toInt.toNat = b := by rw [same, Int.toNat_natCast]
  induction size : val.toInt.natAbs using Nat.strong_induction_on generalizing val strVal with
  | h n ih =>
    have magnitude : (labs val).toInt = (n : Int) := by
      rw [labs_toInt, if_neg least, size]
    have quotient : (ldiv (labs val) base.toInt64).1.toInt = ((n / b : Nat) : Int) := by
      rw [quot_toInt _ range, magnitude, same, Int.ofNat_tdiv]
    have remainder : (ldiv (labs val) base.toInt64).2.toInt = ((n % b : Nat) : Int) := by
      rw [rem_toInt, magnitude, same, Int.ofNat_tmod]
    have digit := digit_written (lt_of_lt_of_le (Nat.mod_lt n (by omega)) (by omega)) remainder
    have sign : (if val < 0 then strVal ++ ['-'] else strVal) = strVal ++ signOf val := by
      rw [signOf]
      split <;> simp
    have positive : 0 < (ldiv (labs val) base.toInt64).1 ↔ 0 < n / b := by
      rw [Int64.lt_iff_toInt_lt, quotient]
      exact Int.natCast_pos
    have numeral : numeralOf val base = signOf val ++ (positional b n).map digitChar := by
      rw [numeralOf, natural, size]
    rw [appendLongToString, dif_neg range, numeral]
    simp only [sign, digit, positive]
    split
    · next more =>
      have smaller : n / b < n :=
        Nat.div_lt_self (Nat.pos_of_ne_zero fun zero => by simp [zero] at more) (by omega)
      have not_negative : ¬(ldiv (labs val) base.toInt64).1 < 0 := by
        rw [Int64.lt_iff_toInt_lt, quotient]
        exact not_lt.mpr (Int.natCast_nonneg _)
      have not_least : (ldiv (labs val) base.toInt64).1 ≠ Int64.minValue := by
        intro equal
        exact not_negative (equal ▸ by decide)
      have higher : numeralOf (ldiv (labs val) base.toInt64).1 base =
          (positional b (n / b)).map digitChar := by
        rw [numeralOf, natural, quotient, Int.natAbs_natCast, signOf, if_neg not_negative]
        rfl
      rw [ih _ smaller not_least _ (by rw [quotient, Int.natAbs_natCast]), higher,
        positional_more (n := n) (by omega) more]
      simp [bind, Except.bind, pure, Except.pure]
    · next none =>
      have below : n < b := by
        by_contra above
        exact none (Nat.div_pos (by omega) (by omega))
      rw [positional_small below, Nat.mod_eq_of_lt below]
      simp [bind, Except.bind, pure, Except.pure]

/-- The absolute value of the smallest number is negative: its quotient is not written, and its
last digit is looked up before the digits or is 0. -/
theorem append_least {base : Int32} (range : ¬(36 < base ∨ base < 2)) (strVal : List Char) :
    appendLongToString Int64.minValue base strVal = .error .undefinedBehaviour ∨
      appendLongToString Int64.minValue base strVal = .ok (strVal ++ ['-', '0']) := by
  obtain ⟨two, few⟩ := base_range range
  have magnitude : (labs Int64.minValue).toInt = -2 ^ 63 := by decide
  have none : ¬0 < (ldiv (labs Int64.minValue) base.toInt64).1 := by
    rw [Int64.lt_iff_toInt_lt, quot_toInt _ range, magnitude, not_lt]
    change (-2 ^ 63 : Int).tdiv base.toInt ≤ 0
    rw [Int.neg_tdiv]
    exact neg_nonpos.mpr (Int.tdiv_nonneg (by decide) (by omega))
  have negative : (ldiv (labs Int64.minValue) base.toInt64).2.toInt ≤ 0 ∧
      -36 < (ldiv (labs Int64.minValue) base.toInt64).2.toInt := by
    rw [rem_toInt, magnitude, Int.neg_tmod]
    have low := Int.tmod_nonneg base.toInt (show (0 : Int) ≤ 2 ^ 63 by decide)
    have high := Int.tmod_lt_of_pos (2 ^ 63) (show 0 < base.toInt by omega)
    omega
  rw [appendLongToString, dif_neg range]
  simp only [dif_neg none, if_pos (show Int64.minValue < 0 by decide), Int64.toInt_toInt32]
  rw [Int.bmod_eq_of_le (by omega) (by omega)]
  rcases eq_or_ne (ldiv (labs Int64.minValue) base.toInt64).2.toInt 0 with zero | other
  · right
    rw [zero, show digitAt 0 = .ok '0' by decide]
    simp [bind, Except.bind, pure, Except.pure]
  · left
    rw [digitAt, if_neg (not_le.mpr (lt_of_le_of_ne negative.1 other))]
    simp [bind, Except.bind]

/-! ### What the numeral reads as -/

theorem unsigned_numeral {base : Int32} (range : ¬(36 < base ∨ base < 2)) (val : Int64) :
    unsigned (numeralOf val base) =
      (positional base.toInt.toNat val.toInt.natAbs).map digitChar ∧
      ((numeralOf val base).head? = some '-' ↔ val < 0) := by
  obtain ⟨two, few⟩ := base_range range
  have small := positional_lt (n := val.toInt.natAbs) (show 2 ≤ base.toInt.toNat by omega)
  rw [numeralOf, signOf]
  split
  · next negative => exact ⟨rfl, by simp [negative]⟩
  · next positive =>
    cases ds : positional base.toInt.toNat val.toInt.natAbs with
    | nil => exact absurd ds (positional_ne_nil _ _)
    | cons d rest =>
      have sign := digitChar_sign (lt_of_lt_of_le (small d (ds ▸ List.mem_cons_self)) (by omega))
      constructor
      · simp only [List.nil_append, List.map_cons, unsigned]
        split
        · next equal => exact absurd (List.cons.inj equal).1 sign
        · rfl
      · simp [positive, sign]

theorem readNumeral_eq {base : Int32} (range : ¬(36 < base ∨ base < 2)) (val : Int64) :
    readNumeral base.toInt.toNat (numeralOf val base) = some val.toInt := by
  obtain ⟨two, few⟩ := base_range range
  obtain ⟨digits, sign⟩ := unsigned_numeral range val
  have small := positional_lt (n := val.toInt.natAbs) (show 2 ≤ base.toInt.toNat by omega)
  have value := readDigits_map (show base.toInt.toNat ≤ 36 by omega) _ 0 small
  rw [positional_value] at value
  have signed : (if val < 0 then -(val.toInt.natAbs : Int) else val.toInt.natAbs) = val.toInt := by
    split
    · next negative =>
      have below : val.toInt < 0 := Int64.lt_iff_toInt_lt.mp negative
      omega
    · next positive =>
      have above : ¬val.toInt < 0 := fun below => positive (Int64.lt_iff_toInt_lt.mpr below)
      omega
  rw [readNumeral, digits]
  split
  · next nil =>
    exact absurd (List.map_eq_nil_iff.mp nil) (positional_ne_nil _ _)
  · rw [value, Option.map_some]
    simp only [sign, signed]

theorem no_leading_zeros {base : Int32} (range : ¬(36 < base ∨ base < 2)) (val : Int64)
    (zero : (unsigned (numeralOf val base)).head? = some '0') :
    unsigned (numeralOf val base) = ['0'] := by
  obtain ⟨two, few⟩ := base_range range
  have small := positional_lt (n := val.toInt.natAbs) (show 2 ≤ base.toInt.toNat by omega)
  rw [(unsigned_numeral range val).1] at zero ⊢
  rw [List.head?_map, Option.map_eq_some_iff] at zero
  obtain ⟨d, first, char⟩ := zero
  have bound := small d (List.mem_of_mem_head? first)
  rw [digitChar_zero (by omega) char] at first
  rw [positional_head first]
  rfl

/-- In every base, exactly the smallest number is not formatted. -/
theorem formatted_iff (val : Int64) (base : Int32) (low : 2 ≤ base) (high : base ≤ 36)
    (strVal : List Char) : Formatted val base strVal ↔ val ≠ Int64.minValue := by
  have range : ¬(36 < base ∨ base < 2) := by simp [low, high]
  constructor
  · intro formatted least
    subst least
    obtain ⟨numeral, written, value, -⟩ := formatted
    rcases append_least range strVal with undefined | zero
    · rw [undefined] at written
      cases written
    · rw [zero] at written
      cases List.append_cancel_left (Except.ok.inj written)
      have read_zero : readNumeral base.toInt.toNat ['-', '0'] = some 0 := by
        have positive : 0 < base.toInt.toNat := by
          have bounds := base_range range
          omega
        simp only [readNumeral, unsigned, readDigits, show digitValue '0' = some 0 by decide,
          if_pos positive]
        simp
      rw [read_zero] at value
      exact absurd value (by decide)
  · intro more
    exact ⟨_, append_eq range more strVal, readNumeral_eq range val, (unsigned_numeral range val).2,
      no_leading_zeros range val⟩

theorem formatted_negative_hex : Formatted (-255) 16 ['x'] ↔ (-255 : Int64) ≠ Int64.minValue :=
  formatted_iff (-255) 16 (by decide) (by decide) ['x']

/-- In base 10 the last digit of the smallest number is looked up at index -8. -/
theorem least_not_formatted : ¬ Formatted Int64.minValue 10 [] := by
  intro formatted
  obtain ⟨numeral, written, value, -⟩ := formatted
  rcases append_least (show ¬(36 < (10 : Int32) ∨ (10 : Int32) < 2) by decide) [] with undefined | zero
  · rw [undefined] at written
    cases written
  · rw [zero] at written
    cases Except.ok.inj written
    exact absurd value (by decide)

end Libdap.Guarantees.Numerals
