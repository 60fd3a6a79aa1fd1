import Libdap.Guarantees.HTTPCacheIndex

/-!
# The number a text begins with

What the extraction of a `long long` takes for a number: the decimal integer in front, whatever
follows it.
-/
namespace Libdap.Guarantees.LeadingNumbers
open Libdap.Source Libdap.Source.HTTPCacheIndex
open HTTPCacheTable (Chars)
open ErrorText (isDigit digitsValue)
open HTTPCacheIndex (isSpace_of_digit InRange)

/-- Digits with white space and maybe a sign in front of them. -/
inductive Numeral : Chars → Int → Prop
  | plain {blanks digits : Chars} (white : ∀ c ∈ blanks, isSpace c = true) (some' : digits ≠ [])
      (all : ∀ c ∈ digits, isDigit c = true) : Numeral (blanks ++ digits) (digitsValue digits)
  | plus {blanks digits : Chars} (white : ∀ c ∈ blanks, isSpace c = true) (some' : digits ≠ [])
      (all : ∀ c ∈ digits, isDigit c = true) :
      Numeral (blanks ++ '+' :: digits) (digitsValue digits)
  | minus {blanks digits : Chars} (white : ∀ c ∈ blanks, isSpace c = true) (some' : digits ≠ [])
      (all : ∀ c ∈ digits, isDigit c = true) :
      Numeral (blanks ++ '-' :: digits) (-(digitsValue digits : Int))

/-- The whole number in front, and what follows it. -/
def Begins (text : Chars) (v : Int) (more : Chars) : Prop :=
  ∃ number, text = number ++ more ∧ Numeral number v ∧ ∀ c ∈ more.head?, isDigit c = false

/-- The text of an integer, with white space around it. -/
def Denotes (text : Chars) (v : Int) : Prop :=
  ∃ more, Begins text v more ∧ ∀ c ∈ more, isSpace c = true

/-- The same by scanning. -/
def leading (text : Chars) : Option (Int × Chars) :=
  let number := sign (text.dropWhile isSpace)
  let digits := number.2.takeWhile isDigit
  if digits = [] then none
  else some (signed number.1 (digitsValue digits), number.2.dropWhile isDigit)

theorem dropWhile_blanks {p : Char → Bool} {front rest : Chars} (all : ∀ c ∈ front, p c = true)
    (stop : ∀ c ∈ rest.head?, p c = false) : (front ++ rest).dropWhile p = rest := by
  rw [List.dropWhile_append_of_pos all]
  cases rest with
  | nil => rfl
  | cons c rest =>
    have other := stop c rfl
    exact List.dropWhile_cons_of_neg (by simp [other])

theorem takeWhile_word {p : Char → Bool} {front rest : Chars} (all : ∀ c ∈ front, p c = true)
    (stop : ∀ c ∈ rest.head?, p c = false) : (front ++ rest).takeWhile p = front := by
  rw [List.takeWhile_append_of_pos all]
  cases rest with
  | nil => simp
  | cons c rest =>
    have other := stop c rfl
    rw [List.takeWhile_cons_of_neg (by simp [other]), List.append_nil]

theorem sign_digit {c : Char} {rest : Chars} (digit : isDigit c = true) :
    sign (c :: rest) = (false, c :: rest) := by
  have minus : c ≠ '-' := by
    rintro rfl
    cases digit
  have plus : c ≠ '+' := by
    rintro rfl
    cases digit
  unfold sign
  split
  · rename_i same
    exact absurd (List.cons.inj same).1 minus
  · rename_i same
    exact absurd (List.cons.inj same).1 plus
  · rfl

/-- The scan finds every number. -/
theorem Begins.leading {text more : Chars} {v : Int} (begins : Begins text v more) :
    leading text = some (v, more) := by
  obtain ⟨number, rfl, numeral, stop⟩ := begins
  unfold LeadingNumbers.leading
  cases numeral with
  | @plain blanks digits white some' all =>
    obtain ⟨d, ds, rfl⟩ := List.exists_cons_of_ne_nil some'
    have digit := all d (List.mem_cons_self ..)
    have skipped : (blanks ++ (d :: ds) ++ more).dropWhile isSpace = d :: ds ++ more := by
      rw [List.append_assoc]
      apply dropWhile_blanks white
      rintro c ⟨⟩
      exact isSpace_of_digit digit
    have signless : sign (d :: ds ++ more) = (false, d :: ds ++ more) := sign_digit digit
    simp only [skipped, signless]
    rw [takeWhile_word all stop, dropWhile_blanks all stop, if_neg some']
    rfl
  | @plus blanks digits white some' all =>
    have skipped : (blanks ++ '+' :: digits ++ more).dropWhile isSpace =
        '+' :: (digits ++ more) := by
      rw [List.append_assoc]
      apply dropWhile_blanks white
      rintro c ⟨⟩
      rfl
    simp only [skipped, sign]
    rw [takeWhile_word all stop, dropWhile_blanks all stop, if_neg some']
    rfl
  | @minus blanks digits white some' all =>
    have skipped : (blanks ++ '-' :: digits ++ more).dropWhile isSpace =
        '-' :: (digits ++ more) := by
      rw [List.append_assoc]
      apply dropWhile_blanks white
      rintro c ⟨⟩
      rfl
    simp only [skipped, sign]
    rw [takeWhile_word all stop, dropWhile_blanks all stop, if_neg some']
    rfl

theorem head?_dropWhile (p : Char → Bool) (text : Chars) :
    ∀ c ∈ (text.dropWhile p).head?, p c = false := by
  induction text with
  | nil => simp
  | cons d text ih =>
    by_cases holds : p d
    · rw [List.dropWhile_cons_of_pos holds]
      exact ih
    · rw [List.dropWhile_cons_of_neg holds]
      rintro c ⟨⟩
      exact Bool.eq_false_of_not_eq_true holds

theorem mem_takeWhile (p : Char → Bool) (text : Chars) : ∀ c ∈ text.takeWhile p, p c = true :=
  fun _ member => List.mem_takeWhile_imp member

theorem sign_cases (text : Chars) :
    sign text = (true, (sign text).2) ∧ text = '-' :: (sign text).2 ∨
      sign text = (false, (sign text).2) ∧
        (text = '+' :: (sign text).2 ∨ text = (sign text).2) := by
  unfold sign
  split
  · exact Or.inl ⟨rfl, rfl⟩
  · exact Or.inr ⟨rfl, Or.inl rfl⟩
  · exact Or.inr ⟨rfl, Or.inr rfl⟩

/-- And nothing else. -/
theorem begins_of_leading {text more : Chars} {v : Int} (found : leading text = some (v, more)) :
    Begins text v more := by
  have white := mem_takeWhile isSpace text
  have parts := List.takeWhile_append_dropWhile (p := isSpace) (l := text)
  generalize text.takeWhile isSpace = blanks at white parts
  unfold leading at found
  generalize text.dropWhile isSpace = rest at found parts
  subst parts
  have signs := sign_cases rest
  generalize sign rest = number at signs found
  obtain ⟨negative, unsigned⟩ := number
  have all := mem_takeWhile isDigit unsigned
  have stop := head?_dropWhile isDigit unsigned
  have split := List.takeWhile_append_dropWhile (p := isDigit) (l := unsigned)
  simp only at found
  split at found
  · cases found
  · rename_i some'
    cases found
    generalize unsigned.takeWhile isDigit = digits at all split some'
    generalize unsigned.dropWhile isDigit = more at split stop
    subst split
    rcases signs with ⟨same, rfl⟩ | ⟨same, rfl | rfl⟩
    · cases same
      exact ⟨blanks ++ '-' :: digits, by simp, .minus white some' all, stop⟩
    · cases same
      exact ⟨blanks ++ '+' :: digits, by simp, .plus white some' all, stop⟩
    · cases same
      exact ⟨blanks ++ digits, by simp, .plain white some' all, stop⟩

theorem begins_iff {text more : Chars} {v : Int} :
    Begins text v more ↔ leading text = some (v, more) :=
  ⟨Begins.leading, begins_of_leading⟩

theorem Begins.unique {text more more' : Chars} {v v' : Int} (first : Begins text v more)
    (second : Begins text v' more') : v = v' ∧ more = more' := by
  have same := first.leading.symm.trans second.leading
  cases same
  exact ⟨rfl, rfl⟩

theorem toSigned_range (bits : Nat) (negative : Bool) (magnitude : Nat) :
    (InRange bits (signed negative magnitude) →
      toSigned bits negative magnitude = (signed negative magnitude, true)) ∧
    (¬ InRange bits (signed negative magnitude) →
      (toSigned bits negative magnitude).2 = false) := by
  unfold toSigned InRange
  constructor
  · intro range
    rw [if_neg (not_lt.mpr range.1), if_neg (not_le.mpr range.2)]
  · intro outside
    dsimp only
    split
    · rfl
    · split
      · rfl
      · rename_i low high
        exact absurd ⟨not_lt.mp low, not_le.mp high⟩ outside

/-- The extraction of a `long long`, by the number in front. -/
theorem getLong_leading (text : Chars) :
    match leading text with
    | none => (Stream.getLong ⟨text, false⟩ 0).2.fail = true
    | some (v, more) =>
      if InRange 64 v then Stream.getLong ⟨text, false⟩ 0 = (v, ⟨more, false⟩)
      else (Stream.getLong ⟨text, false⟩ 0).2.fail = true := by
  unfold Stream.getLong Stream.getNumber Stream.skip
  rw [if_neg Bool.false_ne_true]
  by_cases blank : text.dropWhile isSpace = []
  · have none' : leading text = none := by
      unfold leading
      rw [blank]
      rfl
    rw [none', if_pos blank]
    rfl
  · rw [if_neg blank]
    dsimp only
    by_cases some' : (sign (text.dropWhile isSpace)).2.takeWhile isDigit = []
    · have none' : leading text = none := if_pos some'
      rw [none', if_pos some']
      rfl
    · have found : leading text = some _ := if_neg some'
      rw [found, if_neg some']
      dsimp only
      obtain ⟨inside, outside⟩ := toSigned_range 64 (sign (text.dropWhile isSpace)).1
        (digitsValue ((sign (text.dropWhile isSpace)).2.takeWhile isDigit))
      split
      · rename_i range
        rw [inside range]
      · rename_i range
        have refused := outside range
        split
        · rename_i accepted
          rw [accepted] at refused
          cases refused
        · rfl

end Libdap.Guarantees.LeadingNumbers
