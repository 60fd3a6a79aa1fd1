import Libdap.Guarantees.ArrayConstraint
import Libdap.Source.Constraint

/-!
# Numbers in a constraint

A word is checked with `strtol` or `strtoul`, which tell the base from its first digits, and
then read by `atoi`, which is decimal and ends in an `int`. The two agree where the base does
not matter; a subscript must also be below `2 ^ 31`, for the values above come out negative
and the largest of them is the sign for the star.
-/
namespace Libdap.Guarantees.ConstraintNumbers
open Libdap.Source Libdap.Source.Array Libdap.Source.Escaping Libdap.Source.Words
open Libdap.Source.Hyperslab Libdap.Source.Constraint
open Libdap.Guarantees.ArrayConstraint (int32_eq)

/-! ## Octal digits read as decimal ones -/

/-- By how much the decimal reading of the octal digits of a number is larger. -/
def excess (v : Nat) : Nat :=
  if v < 8 then 0 else 10 * excess (v / 8) + 2 * (v / 8)

theorem excess_small {v : Nat} (small : v < 8) : excess v = 0 := by
  rw [excess, if_pos small]

theorem excess_large {v : Nat} (large : ¬ v < 8) :
    excess v = 10 * excess (v / 8) + 2 * (v / 8) := by
  rw [excess, if_neg large]

theorem excess_mono {v w : Nat} (le : v ≤ w) : excess v ≤ excess w := by
  induction w using Nat.strongRecOn generalizing v with
  | ind w ih =>
    by_cases small : v < 8
    · rw [excess_small small]
      exact Nat.zero_le _
    · have large : ¬ w < 8 := by omega
      have below := ih (w / 8) (by omega) (Nat.div_le_div_right le : v / 8 ≤ w / 8)
      have quotient : v / 8 ≤ w / 8 := Nat.div_le_div_right le
      rw [excess_large small, excess_large large]
      omega

/-- No multiple of `2 ^ 32` but zero is the excess of a number of 32 bits: each lies between
the excesses of two neighbours. -/
theorem excess_not_multiple {v k : Nat} (bound : v < 2 ^ 32) (multiple : excess v = k * 2 ^ 32) :
    k = 0 := by
  have between : ∀ n, excess n < k * 2 ^ 32 → k * 2 ^ 32 < excess (n + 1) → False := by
    intro n below above
    by_cases le : v ≤ n
    · have := excess_mono le
      omega
    · have := excess_mono (show n + 1 ≤ v by omega)
      omega
  have top : excess v ≤ 33482810482 := by
    have := excess_mono (show v ≤ 4294967295 by omega)
    have value : excess 4294967295 = 33482810482 := by simp [excess]
    omega
  have few : k ≤ 7 := by omega
  by_contra other
  interval_cases k
  · omega
  · exact between 671088639 (by simp [excess]) (by simp [excess])
  · exact between 1073741823 (by simp [excess]) (by simp [excess])
  · exact between 1711276031 (by simp [excess]) (by simp [excess])
  · exact between 2147483647 (by simp [excess]) (by simp [excess])
  · exact between 2717908991 (by simp [excess]) (by simp [excess])
  · exact between 3221225471 (by simp [excess]) (by simp [excess])
  · exact between 3758096383 (by simp [excess]) (by simp [excess])

theorem excess_bound {v : Nat} (bound : v < 2 ^ 32) : excess v < 2 ^ 36 := by
  have := excess_mono (show v ≤ 4294967295 by omega)
  have value : excess 4294967295 = 33482810482 := by simp [excess]
  omega

theorem excess_zero {v : Nat} : excess v = 0 ↔ v < 8 := by
  constructor
  · intro none'
    by_contra large
    rw [excess_large large] at none'
    omega
  · exact excess_small

theorem excess_digit {v d : Nat} (digit : d < 8) :
    excess (8 * v + d) = 10 * excess v + 2 * v := by
  by_cases small : 8 * v + d < 8
  · have zero : v = 0 := by omega
    rw [excess_small small, zero, excess_small (by decide)]
  · rw [excess_large small, show (8 * v + d) / 8 = v by omega]

/-- Octal digits only: both readings go to the end. -/
theorem digits_octal {v w : Nat} {rest : Text} (octal : digits 8 v rest = (w, [])) :
    digits 10 (v + excess v) rest = (w + excess w, []) := by
  induction rest generalizing v with
  | nil =>
    cases octal
    rfl
  | cons c rest ih =>
    unfold digits at octal ⊢
    cases digit : digitValue c with
    | none =>
      rw [digit] at octal
      cases octal
    | some d =>
      rw [digit] at octal
      by_cases small : d < 8
      · simp only [if_pos small] at octal
        have next := ih octal
        have same : 8 * v + d + excess (8 * v + d) = 10 * (v + excess v) + d := by
          rw [excess_digit small]
          omega
        rw [same] at next
        simpa only [if_pos (show d < 10 by omega)] using next
      · simp only [if_neg small] at octal
        cases octal

/-! ## The two readings -/

/-- The integer that was range-checked. -/
def literal (s : Text) : Option Int :=
  match unsignedNumber (splitSign s).2 with
  | some (v, []) => some (signed (splitSign s).1 v)
  | _ => none

/-- The base of a number does not matter: it does not begin with a zero, or at most its last
digit is not zero. -/
def OneReading : Text → Prop
  | 48 :: 120 :: rest => (digits 16 0 rest).1 = 0
  | 48 :: 88 :: rest => (digits 16 0 rest).1 = 0
  | 48 :: rest => (digits 8 0 rest).1 < 8
  | _ => True

theorem decimal_of_hex {x : UInt8} (letter : digitValue x = none) (rest : Text) :
    (digits 10 0 (48 :: x :: rest)).1 = 0 := by
  have zero : digitValue 48 = some 0 := by decide
  simp [digits, zero, letter]

theorem multiple_of_zero {v : Nat} (bound : v < 2 ^ 32) (positive : v ≠ 0) :
    ((0 : Nat) - v : Int) % 2 ^ 32 ≠ 0 := by
  omega

/-- Of a hexadecimal number the decimal reading is 0. -/
theorem hex_reading {x : UInt8} {rest : Text} {v : Nat}
    (number : some (if startsWithDigit 16 rest then digits 16 0 rest else (0, x :: rest)) =
      some (v, []))
    (bound : v < 2 ^ 32) :
    ((digits 16 0 rest).1 = 0 → 0 = v) ∧
      (¬ (digits 16 0 rest).1 = 0 → (((0 : Nat) : Int) - v) % 2 ^ 32 ≠ 0) := by
  by_cases digit : startsWithDigit 16 rest
  · rw [if_pos digit] at number
    have value : (digits 16 0 rest).1 = v := by rw [Option.some.inj number]
    constructor
    · intro one
      exact (value.symm.trans one).symm
    · intro other
      exact multiple_of_zero bound fun same => other (value.trans same)
  · rw [if_neg digit] at number
    cases number

/-- What `atoi` reads from a number that was checked: the same number, or one that is not the
same modulo `2 ^ 32` either. -/
theorem decimal_reading {t : Text} {v : Nat} (number : unsignedNumber t = some (v, []))
    (bound : v < 2 ^ 32) :
    (digits 10 0 t).1 < 2 ^ 37 ∧ (OneReading t → (digits 10 0 t).1 = v) ∧
      (¬ OneReading t → (((digits 10 0 t).1 : Int) - v) % 2 ^ 32 ≠ 0) := by
  unfold unsignedNumber at number
  split at number
  · rename_i rest
    have zero := decimal_of_hex (x := 120) (by decide) rest
    rw [zero]
    exact ⟨by decide, hex_reading number bound⟩
  · rename_i rest
    have zero := decimal_of_hex (x := 88) (by decide) rest
    rw [zero]
    exact ⟨by decide, hex_reading number bound⟩
  · rename_i rest no_x no_X
    have octal : digits 8 0 rest = (v, []) := Option.some.inj number
    have decimal := digits_octal octal
    rw [excess_small (by decide), Nat.add_zero] at decimal
    have zero : digitValue 48 = some 0 := by decide
    have whole : (digits 10 0 (48 :: rest)).1 = v + excess v := by
      simp [digits, zero, decimal]
    have reading : OneReading (48 :: rest) ↔ v < 8 := by
      unfold OneReading
      split
      · rename_i rest' same
        cases same
        exact absurd rfl (no_x _)
      · rename_i rest' same
        cases same
        exact absurd rfl (no_X _)
      · rename_i same
        cases same
        rw [octal]
      · rename_i other
        exact absurd rfl (other rest)
    have size := excess_bound bound
    rw [whole, reading]
    refine ⟨by omega, ?_, ?_⟩
    · intro small
      rw [excess_small small, Nat.add_zero]
    · intro large same
      apply large
      obtain ⟨k, multiple⟩ : ∃ k, excess v = k * 2 ^ 32 := ⟨excess v / 2 ^ 32, by omega⟩
      have := excess_not_multiple bound multiple
      rw [this, Nat.zero_mul] at multiple
      exact excess_zero.mp multiple
  · rename_i no_x no_X no_zero
    by_cases some' : startsWithDigit 10 t
    · rw [if_pos some'] at number
      have value : (digits 10 0 t).1 = v := by rw [Option.some.inj number]
      rw [value]
      refine ⟨by omega, fun _ => rfl, fun other => ?_⟩
      exfalso
      apply other
      unfold OneReading
      split
      · exact absurd rfl (no_x _)
      · exact absurd rfl (no_X _)
      · exact absurd rfl (no_zero _)
      · trivial
    · rw [if_neg some'] at number
      cases number

theorem int32_emod (n : Int) : int32 n % 2 ^ 32 = n % 2 ^ 32 := by
  have : (BitVec.ofInt 32 n).toInt = n.bmod (2 ^ 32) := BitVec.toInt_ofInt n
  rw [int32, this]
  exact Int.bmod_emod

/-- `atoi` of a word whose decimal digits are no more than a `long` takes. -/
theorem atoi_eq {s : Text} (small : (digits 10 0 (splitSign s).2).1 < 2 ^ 37) :
    atoi s = int32 (signed (splitSign s).1 (digits 10 0 (splitSign s).2).1) := by
  unfold atoi signed
  congr 1
  split <;> omega

/-! ## Subscripts and operands -/

/-- The word stands for the integer that was checked, and as the subscript of an Array it is
refused or selects the element of that number. -/
def SubscriptMeant (yytext : Text) : Prop :=
  ∃ v, literal (storeId yytext) = some v ∧ indexWord yytext = .ok v ∧
    ∃ index, arrayIndex (.one (.word yytext)) = .ok index ∧
      ∀ name p s s', processArrayIndices name p [index] s = .ok s' →
        ∃ d, (s'.dims p).shape = [d] ∧ d.start = v ∧ d.stop = v ∧ d.cSize = 1 ∧
          0 ≤ v ∧ v < d.size

/-- The constant is the integer that was checked. -/
def ConstantMeant (garbage : UInt8) (env : Environment) (word : Text) : Prop :=
  ∃ v, literal word = some v ∧
    (constant garbage env word = .int32 v ∨ constant garbage env word = .uint32 v)

theorem checkUint32_number {s : Text} (accepted : checkUint32 s = true) :
    (splitSign s).1 = false ∧ ∃ v, unsignedNumber (splitSign s).2 = some (v, []) ∧ v < 2 ^ 32 := by
  unfold checkUint32 at accepted
  rw [Bool.and_eq_true, Bool.not_eq_true'] at accepted
  obtain ⟨plus, number⟩ := accepted
  refine ⟨plus, ?_⟩
  split at number
  · rename_i v found
    rw [decide_eq_true_eq] at number
    exact ⟨v, found, by omega⟩
  · cases number

theorem checkInt32_number {s : Text} (accepted : checkInt32 s = true) :
    ∃ v, unsignedNumber (splitSign s).2 = some (v, []) ∧ v < 2 ^ 32 ∧
      -2 ^ 31 ≤ signed (splitSign s).1 v ∧ signed (splitSign s).1 v < 2 ^ 31 := by
  unfold checkInt32 at accepted
  split at accepted
  · rename_i v found
    rw [Bool.and_eq_true, decide_eq_true_eq, decide_eq_true_eq] at accepted
    obtain ⟨high, low⟩ := accepted
    refine ⟨v, found, ?_, low, by omega⟩
    cases sign : (splitSign s).1
    · simp [sign, signed] at low high
      omega
    · simp [sign, signed] at low high
      omega
  · cases accepted

theorem literal_eq {s : Text} {v : Nat} (number : unsignedNumber (splitSign s).2 = some (v, [])) :
    literal s = some (signed (splitSign s).1 v) := by
  simp only [literal, number]

theorem signed_sub_emod {negative : Bool} {w v : Nat}
    (same : signed negative w % 2 ^ 32 = signed negative v % 2 ^ 32) :
    ((w : Int) - v) % 2 ^ 32 = 0 := by
  unfold signed at same
  split at same <;> omega

/-- `atoi` agrees modulo `2 ^ 32` with the number that was checked exactly if there is one
reading. -/
theorem atoi_emod_iff {s : Text} {v : Nat}
    (number : unsignedNumber (splitSign s).2 = some (v, [])) (bound : v < 2 ^ 32) :
    atoi s % 2 ^ 32 = signed (splitSign s).1 v % 2 ^ 32 ↔ OneReading (splitSign s).2 := by
  obtain ⟨small, one, other⟩ := decimal_reading number bound
  rw [atoi_eq small, int32_emod]
  constructor
  · intro same
    by_contra two
    exact other two (signed_sub_emod same)
  · intro reading
    rw [one reading]

theorem atoi_of_reading {s : Text} {v : Nat}
    (number : unsignedNumber (splitSign s).2 = some (v, [])) (bound : v < 2 ^ 32)
    (reading : OneReading (splitSign s).2) (low : -2 ^ 31 ≤ signed (splitSign s).1 v)
    (high : signed (splitSign s).1 v < 2 ^ 31) : atoi s = signed (splitSign s).1 v := by
  obtain ⟨small, one, -⟩ := decimal_reading number bound
  rw [atoi_eq small, one reading, int32_eq low high]

theorem int32_range (n : Int) : -2 ^ 31 ≤ int32 n ∧ int32 n < 2 ^ 31 := by
  have low := BitVec.le_toInt (BitVec.ofInt 32 n)
  have high := BitVec.toInt_lt (x := BitVec.ofInt 32 n)
  unfold int32
  omega

theorem atoi_range (s : Text) : -2 ^ 31 ≤ atoi s ∧ atoi s < 2 ^ 31 := int32_range _

/-- An Array that takes one subscript has one dimension, and it is constrained to it. -/
theorem selected_element {v : Int} (positive : 0 ≤ v) {name : Text} {p : Lookup.Path}
    {s s' : Projection} (done : processArrayIndices name p [⟨v, 1, v⟩] s = .ok s') :
    ∃ d, (s'.dims p).shape = [d] ∧ d.start = v ∧ d.stop = v ∧ d.cSize = 1 ∧ 0 ≤ v ∧ v < d.size := by
  unfold processArrayIndices at done
  split at done
  · cases done
  rename_i one
  obtain ⟨d, shape⟩ := List.length_eq_one_iff.mp (Decidable.not_not.mp one)
  have last : lastIndex d v = v := if_neg (by omega)
  have count : int32 ((int32 (v - v)).tdiv 1 + 1) = 1 := by
    rw [Int.sub_self]
    decide
  rw [constrainDims, shape, List.getElem?_cons_zero] at done
  dsimp only at done
  split at done
  · cases done
  simp only [Dims.addConstraint, shape, List.getElem?_cons_zero, last] at done
  by_cases rejected : rejects d v 1 v
  · rw [if_pos rejected] at done
    cases done
  · rw [if_neg rejected] at done
    cases done
    have below : v < d.size := by
      simp only [rejects, not_or, not_le] at rejected
      exact rejected.1
    refine ⟨constrain d v 1 v, ?_, rfl, rfl, count, positive, below⟩
    simp [Projection.setDims, Dims.updateLength, Dims.setLength]

theorem indexWord_ok {yytext : Text} (accepted : checkUint32 (storeId yytext) = true) :
    indexWord yytext = .ok (atoi (storeId yytext)) := if_pos accepted

/-- The number of an accepted subscript is used exactly if it has one reading and fits an
`int`. -/
theorem indexWord_meant_iff {yytext : Text} {v : Nat}
    (number : unsignedNumber (splitSign (storeId yytext)).2 = some (v, []))
    (plus : (splitSign (storeId yytext)).1 = false) (bound : v < 2 ^ 32) :
    atoi (storeId yytext) = v ↔
      OneReading (splitSign (storeId yytext)).2 ∧ (v : Int) < 2 ^ 31 := by
  have value : signed (splitSign (storeId yytext)).1 v = v := by simp [plus, signed]
  constructor
  · intro same
    have range := atoi_range (storeId yytext)
    refine ⟨(atoi_emod_iff number bound).mp ?_, by omega⟩
    rw [same, value]
  · rintro ⟨reading, small⟩
    have meant := atoi_of_reading number bound reading (by omega) (by omega)
    rw [meant, value]

theorem arrayIndex_one {yytext : Text} {v : Int} (positive : 0 ≤ v)
    (word : indexWord yytext = .ok v) : arrayIndex (.one (.word yytext)) = .ok ⟨v, 1, v⟩ := by
  have start : (if v = -1 then 0 else v) = v := if_neg (by omega)
  simp only [arrayIndex, indexLast, word]
  exact congrArg (fun i => Except.ok (Index.mk i 1 v)) start

theorem subscriptMeant_iff {yytext : Text} (accepted : checkUint32 (storeId yytext) = true) :
    SubscriptMeant yytext ↔ OneReading (splitSign (storeId yytext)).2 ∧
      ∀ v, literal (storeId yytext) = some v → v < 2 ^ 31 := by
  obtain ⟨plus, v, number, bound⟩ := checkUint32_number accepted
  have value : literal (storeId yytext) = some (v : Int) := by
    simp [literal_eq number, plus, signed]
  have meant := indexWord_meant_iff number plus bound
  constructor
  · rintro ⟨w, denoted, used, -⟩
    rw [value] at denoted
    rw [indexWord_ok accepted, ← Option.some.inj denoted] at used
    obtain ⟨reading, small⟩ := meant.mp (Except.ok.inj used)
    refine ⟨reading, ?_⟩
    intro w denoted'
    rw [value] at denoted'
    exact Option.some.inj denoted' ▸ small
  · rintro ⟨reading, small⟩
    have used : indexWord yytext = .ok (v : Int) := by
      rw [indexWord_ok accepted, meant.mpr ⟨reading, small _ value⟩]
    refine ⟨v, value, used, ⟨v, 1, v⟩, arrayIndex_one (by omega) used, ?_⟩
    intro name p s s' done
    exact selected_element (by omega) done

theorem constant_signed {garbage : UInt8} {env : Environment} {word : Text}
    (accepted : checkInt32 word = true) : constant garbage env word = .int32 (atoi word) :=
  if_pos accepted

theorem constant_unsigned {garbage : UInt8} {env : Environment} {word : Text}
    (refused : checkInt32 word = false) (accepted : checkUint32 word = true) :
    constant garbage env word = .uint32 (atoi word % 2 ^ 32) := by
  simp [constant, refused, accepted]

/-- A number accepted as a signed operand. -/
theorem signedMeant_iff {garbage : UInt8} {env : Environment} {word : Text}
    (accepted : checkInt32 word = true) :
    ConstantMeant garbage env word ↔ OneReading (splitSign word).2 := by
  obtain ⟨v, number, bound, low, high⟩ := checkInt32_number accepted
  unfold ConstantMeant
  rw [literal_eq number, constant_signed accepted, ← atoi_emod_iff number bound]
  constructor
  · rintro ⟨w, denoted, same | same⟩
    · rw [Option.some.inj denoted, Value.int32.inj same]
    · cases same
  · intro same
    refine ⟨_, rfl, Or.inl ?_⟩
    have reading := (atoi_emod_iff number bound).mp same
    rw [atoi_of_reading number bound reading low high]

/-- A number accepted as an unsigned operand only. -/
theorem unsignedMeant_iff {garbage : UInt8} {env : Environment} {word : Text}
    (refused : checkInt32 word = false) (accepted : checkUint32 word = true) :
    ConstantMeant garbage env word ↔ OneReading (splitSign word).2 := by
  obtain ⟨plus, v, number, bound⟩ := checkUint32_number accepted
  have value : signed (splitSign word).1 v = v := by simp [plus, signed]
  have whole : (v : Int) % 2 ^ 32 = v := Int.emod_eq_of_lt (by omega) (by omega)
  have meant := atoi_emod_iff number bound
  rw [value, whole] at meant
  unfold ConstantMeant
  rw [literal_eq number, constant_unsigned refused accepted, value, ← meant]
  constructor
  · rintro ⟨w, denoted, same | same⟩
    · cases same
    · rw [Option.some.inj denoted, Value.uint32.inj same]
  · intro same
    exact ⟨_, rfl, Or.inr (congrArg Value.uint32 same)⟩

theorem constantMeant_iff {garbage : UInt8} {env : Environment} {word : Text}
    (accepted : checkInt32 word = true ∨ checkUint32 word = true) :
    ConstantMeant garbage env word ↔ OneReading (splitSign word).2 := by
  cases int : checkInt32 word with
  | true => exact signedMeant_iff int
  | false =>
    rw [int, or_iff_right Bool.false_ne_true] at accepted
    exact unsignedMeant_iff int accepted

/-- What a number in a constraint means, as a subscript and as an operand. -/
theorem numbers_meant_iff (garbage : UInt8) (env : Environment) (word : Text) :
    (checkUint32 (storeId word) = true →
      (SubscriptMeant word ↔ OneReading (splitSign (storeId word)).2 ∧
        ∀ v, literal (storeId word) = some v → v < 2 ^ 31)) ∧
    (checkInt32 word = true ∨ checkUint32 word = true →
      (ConstantMeant garbage env word ↔ OneReading (splitSign word).2)) :=
  ⟨subscriptMeant_iff, constantMeant_iff⟩

/-- No functions, and no word is a real number. -/
def integersOnly : Environment :=
  ⟨fun _ => false, fun _ => none, fun _ => none, fun _ => false⟩

theorem numbers_meant_seventeen :
    SubscriptMeant [49, 55] ∧ ConstantMeant 0 integersOnly [49, 55] :=
  ⟨((numbers_meant_iff 0 integersOnly [49, 55]).1 (by decide)).mpr
      ⟨trivial, fun v same => by
        rw [show literal (storeId [49, 55]) = some 17 from by decide] at same
        cases same
        decide⟩,
    ((numbers_meant_iff 0 integersOnly [49, 55]).2 (Or.inl (by decide))).mpr trivial⟩

/-- `4294967295`, the largest `dods_uint32`. -/
def topWord : Text := [52, 50, 57, 52, 57, 54, 55, 50, 57, 53]

/-- As a subscript it is the star, and `010` is ten as an operand. -/
theorem top_subscript_not_meant :
    checkUint32 (storeId topWord) = true ∧
      arrayIndex (.one (.word topWord)) = arrayIndex (.one .star) ∧ ¬ SubscriptMeant topWord ∧
      checkInt32 [48, 49, 48] = true ∧ ∀ (garbage : UInt8) (env : Environment),
        constant garbage env [48, 49, 48] = .int32 10 ∧
          ¬ ConstantMeant garbage env [48, 49, 48] := by
  have accepted : checkUint32 (storeId topWord) = true := by decide
  have octal : checkInt32 [48, 49, 48] = true := by decide
  have word : indexWord topWord = .ok (-1) := by
    rw [indexWord_ok accepted]
    rfl
  refine ⟨accepted, ?_, ?_, octal, fun garbage env => ⟨?_, ?_⟩⟩
  · simp only [arrayIndex, indexLast, word]
  · intro meant
    have small := ((subscriptMeant_iff accepted).mp meant).2 4294967295 (by decide)
    exact absurd small (by decide)
  · rw [constant_signed octal]
    rfl
  · intro meant
    have one : (digits 8 0 [49, 48]).1 < 8 := (constantMeant_iff (Or.inl octal)).mp meant
    exact absurd one (by decide)

end Libdap.Guarantees.ConstraintNumbers
