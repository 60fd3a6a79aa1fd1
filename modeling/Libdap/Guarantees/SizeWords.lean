import Libdap.Guarantees.ConstraintNumbers
import Libdap.Guarantees.ProxySettings

/-!
# Numbers printed and taken from a word

What is printed of an `int` passes `check_int32`, and `atoi` finds the `int` in it.
-/
namespace Libdap.Guarantees.SizeWords
open Libdap.Source Libdap.Source.Array Libdap.Source.Escaping Libdap.Source.Words
open Libdap.Source.ErrorText (decimal printInt isDigit digitsValue)
open Libdap.Guarantees.ConstraintNumbers Libdap.Guarantees.ErrorRoundTrip
open Libdap.Guarantees.ArrayConstraint (int32_eq)
open Libdap.Guarantees.ProxySettings (decimal_head)

def minus : UInt8 := 45

def IsDigit (c : UInt8) : Prop := 48 ≤ c ∧ c ≤ 57

theorem digit_range {c : Char} (digit : isDigit c) : 48 ≤ c.toNat ∧ c.toNat ≤ 57 := by
  have range : '0' ≤ c ∧ c ≤ '9' := by simpa [isDigit] using digit
  exact range

theorem digit_byte {c : Char} (digit : isDigit c) :
    IsDigit c.toNat.toUInt8 ∧ digitValue c.toNat.toUInt8 = some (c.toNat - 48) := by
  have range := digit_range digit
  have each : ∀ n < 58, 48 ≤ n → IsDigit n.toUInt8 ∧ digitValue n.toUInt8 = some (n - 48) := by
    unfold IsDigit
    decide
  exact each c.toNat (by omega) range.1

theorem isDigit_other {c : UInt8} (digit : IsDigit c) :
    isSpace c = false ∧ c ≠ minus ∧ c ≠ 43 ∧ c ≠ 120 ∧ c ≠ 88 := by
  have each : ∀ n < 256, IsDigit (UInt8.ofNat n) → isSpace (UInt8.ofNat n) = false ∧
      UInt8.ofNat n ≠ minus ∧ UInt8.ofNat n ≠ 43 ∧ UInt8.ofNat n ≠ 120 ∧
        UInt8.ofNat n ≠ 88 := by
    unfold IsDigit
    decide +kernel
  have self : UInt8.ofNat c.toNat = c := UInt8.ofNat_toNat
  rw [← self] at digit ⊢
  exact each c.toNat c.toNat_lt digit

theorem decimal_bytes (n : Nat) : ∀ c ∈ text (decimal n), IsDigit c := by
  intro c mem
  obtain ⟨d, listed, rfl⟩ := List.mem_map.mp mem
  exact (digit_byte (decimal_digits n d listed)).1

theorem digits_text {cs : List Char} (all : ∀ c ∈ cs, isDigit c) (value : Nat) :
    digits 10 value (text cs) = (cs.foldl (fun v d => 10 * v + (d.toNat - 48)) value, []) := by
  induction cs generalizing value with
  | nil => rfl
  | cons c cs ih =>
    have digit := all c List.mem_cons_self
    have small : c.toNat - 48 < 10 := by
      have range := digit_range digit
      omega
    rw [text, List.map_cons, digits, (digit_byte digit).2]
    simp only [small, if_true]
    exact ih (fun d mem => all d (List.mem_cons_of_mem c mem)) _

theorem digits_decimal (n : Nat) : digits 10 0 (text (decimal n)) = (n, []) :=
  (digits_text (decimal_digits n) 0).trans (Prod.ext (decimal_value n) rfl)

theorem unsignedNumber_decimal (n : Nat) : unsignedNumber (text (decimal n)) = some (n, []) := by
  have found := digits_decimal n
  by_cases zero : n = 0
  · subst zero
    decide
  · obtain ⟨first, more, shape, nonzero⟩ := decimal_head (Nat.pos_of_ne_zero zero)
    have digit : isDigit first :=
      decimal_digits n first (shape ▸ List.mem_cons_self)
    have range := digit_range digit
    have value := (digit_byte digit).2
    have head : first.toNat.toUInt8 ≠ 48 := by
      intro same
      rw [same] at value
      have zero : first.toNat = '0'.toNat := by
        have none : some 0 = some (first.toNat - 48) := value
        have tens : '0'.toNat = 48 := rfl
        have := Option.some.inj none
        omega
      exact nonzero (Char.ext (UInt32.toNat_inj.mp zero))
    have start : startsWithDigit 10 (text (decimal n)) = true := by
      rw [shape, text, List.map_cons, startsWithDigit, value]
      exact decide_eq_true (by omega)
    rw [unsignedNumber.eq_def]
    split
    · rename_i rest same
      rw [shape] at same
      exact absurd (List.cons.inj same).1 head
    · rename_i rest same
      rw [shape] at same
      exact absurd (List.cons.inj same).1 head
    · rename_i rest _ _ same
      rw [shape] at same
      exact absurd (List.cons.inj same).1 head
    · rw [start, if_pos rfl, found]

theorem splitSign_decimal (n : Nat) : splitSign (text (decimal n)) = (false, text (decimal n)) := by
  have all := decimal_bytes n
  cases shape : text (decimal n) with
  | nil => rfl
  | cons c rest =>
    obtain ⟨dark, noMinus, noPlus, _⟩ := isDigit_other (all c (shape ▸ List.mem_cons_self))
    rw [splitSign, List.dropWhile_cons_of_neg (by simp [dark])]
    split
    · rename_i more same
      exact absurd (List.cons.inj same).1 noMinus
    · rename_i more same
      exact absurd (List.cons.inj same).1 noPlus
    · rfl

theorem text_printInt (n : Int) :
    text (printInt n) =
      if 0 ≤ n then text (decimal n.toNat) else minus :: text (decimal n.natAbs) := by
  unfold printInt
  split <;> rfl

/-- The number that stands in the word, and its sign. -/
theorem printInt_number (n : Int) : ∃ negative v,
    splitSign (text (printInt n)) = (negative, text (decimal v)) ∧ signed negative v = n := by
  rw [text_printInt]
  split
  · rename_i positive
    exact ⟨false, n.toNat, splitSign_decimal _, Int.toNat_of_nonneg positive⟩
  · rename_i negative
    refine ⟨true, n.natAbs, ?_, ?_⟩
    · rw [splitSign, List.dropWhile_cons_of_neg (by decide)]
      rfl
    · simp only [signed, if_true]
      omega

theorem checkInt32_printInt {n : Int} (low : -2 ^ 31 ≤ n) (high : n < 2 ^ 31) :
    checkInt32 (text (printInt n)) = true := by
  obtain ⟨negative, v, split, value⟩ := printInt_number n
  rw [checkInt32, split, unsignedNumber_decimal]
  simp only [value, Bool.and_eq_true, decide_eq_true_eq]
  omega

theorem atoi_printInt {n : Int} (low : -2 ^ 31 ≤ n) (high : n < 2 ^ 31) :
    atoi (text (printInt n)) = n := by
  obtain ⟨negative, v, split, value⟩ := printInt_number n
  have small : v < 2 ^ 37 := by
    unfold signed at value
    split at value <;> omega
  rw [atoi_eq (by rw [split, digits_decimal]; exact small), split, digits_decimal, value,
    int32_eq low high]

theorem printInt_bytes (n : Int) :
    ∀ c ∈ text (printInt n), IsDigit c ∨ c = minus := by
  rw [text_printInt]
  split
  · exact fun c mem => .inl (decimal_bytes _ c mem)
  · intro c mem
    rw [List.mem_cons] at mem
    exact mem.symm.imp_left (decimal_bytes _ c)

theorem decimal_length {n : Nat} (small : n < 10 ^ 10) : (decimal n).length ≤ 10 := by
  unfold decimal
  split
  · decide
  · rw [List.length_map, List.length_reverse, Nat.digits_length_le_iff (by decide)]
    exact small

theorem printInt_length {n : Int} (low : -2 ^ 31 ≤ n) (high : n < 2 ^ 31) :
    text (printInt n) ≠ [] ∧ (text (printInt n)).length ≤ 11 := by
  rw [text_printInt]
  split
  · have length := decimal_length (n := n.toNat) (by omega)
    have some' := decimal_ne_nil n.toNat
    refine ⟨by simpa [text] using some', ?_⟩
    rw [text, List.length_map]
    omega
  · have length := decimal_length (n := n.natAbs) (by omega)
    refine ⟨List.cons_ne_nil _ _, ?_⟩
    rw [text, List.length_cons, List.length_map]
    omega

end Libdap.Guarantees.SizeWords
