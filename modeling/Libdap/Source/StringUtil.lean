import Mathlib.Tactic
import Libdap.Source.Failure

/-!
# util.cc and escaping.cc: numerals, leading spaces, quoted messages
-/
namespace Libdap.Source.StringUtil

/-- What the functions of util.cc raise of the standard library's exceptions. -/
inductive Raised where
  | invalidArgument (what : String)
  | outOfRange
  /-- Undefined behaviour of the language. -/
  | undefinedBehaviour
  deriving DecidableEq, Repr

/-! ### append_long_to_string -/

/-- The array, with the terminator of its literal. -/
def digits : List Char := "0123456789ABCDEFGHIJKLMNOPQRSTUVWXYZ".toList ++ [Char.ofNat 0]

/-- `digits[i]`. -/
def digitAt (i : Int) : Except Raised Char :=
  if 0 ≤ i then
    match digits[i.toNat]? with
    | some digit => .ok digit
    | none => .error .undefinedBehaviour
  else .error .undefinedBehaviour

/-- The absolute value; that of the smallest number is the number itself. -/
def labs (val : Int64) : Int64 := val.abs

/-- `ldiv`: the quotient is rounded towards zero. -/
def ldiv (val base : Int64) : Int64 × Int64 := (val / base, val % base)

theorem labs_toInt (val : Int64) :
    (labs val).toInt = if val = Int64.minValue then val.toInt else (val.toInt.natAbs : Int) := by
  have smallest : val = Int64.minValue ↔ val.toBitVec = BitVec.intMin 64 := by
    rw [← Int64.toBitVec_inj]
    exact Iff.rfl
  change val.toBitVec.abs.toInt = _
  rw [BitVec.toInt_abs_eq_ite]
  split
  · next least =>
    rw [if_pos (smallest.mpr least), ← least]
    exact Int64.toInt_toBitVec val
  · next more =>
    rw [if_neg (more ∘ smallest.mp), BitVec.msb_eq_toInt, Int64.toInt_toBitVec]
    by_cases negative : val.toInt < 0
    · rw [if_pos (decide_eq_true negative)]
      omega
    · rw [if_neg (by rwa [decide_eq_true_eq])]
      omega

theorem base_range {base : Int32} (range : ¬(36 < base ∨ base < 2)) :
    2 ≤ base.toInt ∧ base.toInt ≤ 36 := by
  rw [Int32.lt_iff_toInt_lt, Int32.lt_iff_toInt_lt] at range
  change ¬(36 < base.toInt ∨ base.toInt < 2) at range
  omega

theorem quot_toInt (val : Int64) {base : Int32} (range : ¬(36 < base ∨ base < 2)) :
    (ldiv val base.toInt64).1.toInt = val.toInt.tdiv base.toInt := by
  have bounds := base_range range
  have other : base.toInt64 ≠ -1 := by
    intro equal
    have same := congrArg Int64.toInt equal
    rw [Int32.toInt_toInt64] at same
    change base.toInt = -1 at same
    omega
  rw [ldiv, Int64.toInt_div_of_ne_right _ _ other, Int32.toInt_toInt64]

theorem rem_toInt (val : Int64) (base : Int32) :
    (ldiv val base.toInt64).2.toInt = val.toInt.tmod base.toInt := by
  rw [ldiv, Int64.toInt_mod, Int32.toInt_toInt64]

/-- The recursion goes to a number that is nearer to 0. -/
theorem quot_smaller {val : Int64} {base : Int32} (range : ¬(36 < base ∨ base < 2))
    (positive : 0 < (ldiv (labs val) base.toInt64).1) :
    (ldiv (labs val) base.toInt64).1.toInt.natAbs < val.toInt.natAbs := by
  have bounds := base_range range
  rw [Int64.lt_iff_toInt_lt, quot_toInt _ range] at positive
  change 0 < (labs val).toInt.tdiv base.toInt at positive
  have size : (labs val).toInt.natAbs = val.toInt.natAbs := by
    rw [labs_toInt]
    split
    · rfl
    · exact Int.natAbs_natCast _
  rw [quot_toInt _ range, Int.natAbs_tdiv, size]
  have nonzero : val.toInt.natAbs ≠ 0 := by
    intro zero
    rw [zero, Int.natAbs_eq_zero] at size
    rw [size] at positive
    simp at positive
  exact Nat.div_lt_self (by omega) (by omega)

/-- `append_long_to_string`. -/
def appendLongToString (val : Int64) (base : Int32) (strVal : List Char) :
    Except Raised (List Char) :=
  if range : 36 < base ∨ base < 2 then
    .error (.invalidArgument "The parameter base has an invalid value.")
  else
    let strVal := if val < 0 then strVal ++ ['-'] else strVal
    let r := ldiv (labs val) base.toInt64
    let quotient :=
      if positive : 0 < r.1 then
        have := quot_smaller range positive
        appendLongToString r.1 base strVal
      else .ok strVal
    do
      let strVal ← quotient
      let digit ← digitAt (r.2.toInt32.toInt)
      pure (strVal ++ [digit])
termination_by val.toInt.natAbs

/-- `long_to_string`. -/
def longToString (val : Int64) (base : Int32) : Except Raised (List Char) :=
  appendLongToString val base []

/-! ### prune_spaces -/

/-- The values an `unsigned int` has. -/
def unsignedSize : Nat := 2 ^ 32

/-- A position that is kept in an `unsigned int`, where `npos` has all bits set. -/
def unsignedPosition : Option Nat → Nat
  | some position => position % unsignedSize
  | none => unsignedSize - 1

def findFirstOf (c : Char) (s : List Char) : Option Nat := s.findIdx? (· = c)

def findFirstNotOf (c : Char) (s : List Char) (start : Nat) : Option Nat :=
  ((s.drop start).findIdx? (· ≠ c)).map (start + ·)

def substr (s : List Char) (position : Nat) : Except Raised (List Char) :=
  if s.length < position then .error .outOfRange else .ok (s.drop position)

def erase (s : List Char) (position len : Nat) : Except Raised (List Char) :=
  if s.length < position then .error .outOfRange
  else .ok (s.take position ++ s.drop (position + len))

/-- `prune_spaces`; `j` is `find('?') + 1` before it is cut to an `unsigned int`, so that it is
0 where there is no question mark. -/
def pruneSpaces (name : List Char) : Except Raised (List Char) :=
  match findFirstOf ' ' name with
  | none => .ok name
  | some _ => do
    let i := unsignedPosition (findFirstNotOf ' ' name 0)
    let tmpName ← substr name i
    let j := match findFirstOf '?' tmpName with
      | some q => (q + 1) % unsignedSize
      | none => 0
    let i := unsignedPosition (findFirstNotOf ' ' tmpName j)
    erase tmpName j ((unsignedSize + i - j) % unsignedSize)

/-! ### munge_error_message -/

def quoteMark : Char := Char.ofNat 34

def backslash : Char := Char.ofNat 92

/-- The loop, with what is before `miter` and what is from it on. Before `end()` there is one
character, which the loop stops at; on `end()` itself `miter` is moved past it. -/
def escapeQuotes (before miter : List Char) : Except Failure (List Char) :=
  match miter with
  | [] => .error .undefinedBehaviour
  | [last] => .ok (before ++ [last])
  | c :: d :: rest =>
    if c = quoteMark ∧ before.getLast? ≠ some backslash then
      escapeQuotes (before ++ [backslash]) (c :: d :: rest)
    else escapeQuotes (before ++ [c]) (d :: rest)
termination_by (miter.length, if before.getLast? = some backslash then 0 else 1)
decreasing_by
  · simp_all [Prod.lex_def]
  · simp [Prod.lex_def]

/-- `munge_error_message`; on an empty string `*begin()` is the terminator. -/
def mungeErrorMessage (msg : List Char) : Except Failure (List Char) :=
  let msg := if msg.head? ≠ some quoteMark then quoteMark :: msg else msg
  let msg := if msg.getLast? ≠ some quoteMark then msg ++ [quoteMark] else msg
  escapeQuotes (msg.take 1) (msg.drop 1)

end Libdap.Source.StringUtil
