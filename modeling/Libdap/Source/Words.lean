import Libdap.Source.Array
import Libdap.Source.Escaping

/-!
# ce_expr.lex and parser-util.cc: words

The scanner keeps a word in a buffer of `ID_MAX` bytes. What a number is in it `strtol` and
`strtoul` decide.
-/
namespace Libdap.Source.Words
open Libdap.Source.Array Libdap.Source.Escaping

/-- `ID_MAX`. -/
def idMax : Nat := 256

/-- `strncpy` into a buffer of `ID_MAX` bytes, the last of which is zero. -/
def cut (s : Text) : Text := s.take (idMax - 1)

def storeId (yytext : Text) : Text := cut yytext

/-- The digits at the front, and what follows them. -/
def digits (base value : Nat) : Text → Nat × Text
  | [] => (value, [])
  | c :: rest =>
    match digitValue c with
    | some d => if d < base then digits base (base * value + d) rest else (value, c :: rest)
    | none => (value, c :: rest)

def startsWithDigit (base : Nat) : Text → Bool
  | [] => false
  | c :: _ => (digitValue c).any (· < base)

/-- Blanks and a sign. -/
def splitSign (s : Text) : Bool × Text :=
  match s.dropWhile isSpace with
  | 45 :: rest => (true, rest)
  | 43 :: rest => (false, rest)
  | rest => (false, rest)

/-- The number at the front, for base 0: its digits tell the base. -/
def unsignedNumber (s : Text) : Option (Nat × Text) :=
  match s with
  | 48 :: 120 :: rest => some (if startsWithDigit 16 rest then digits 16 0 rest else (0, 120 :: rest))
  | 48 :: 88 :: rest => some (if startsWithDigit 16 rest then digits 16 0 rest else (0, 88 :: rest))
  | 48 :: rest => some (digits 8 0 rest)
  | s => if startsWithDigit 10 s then some (digits 10 0 s) else none

def signed (negative : Bool) (v : Nat) : Int := if negative then -(v : Int) else v

def checkInt32 (s : Text) : Bool :=
  match unsignedNumber (splitSign s).2 with
  | some (v, []) =>
    signed (splitSign s).1 v ≤ 2 ^ 31 - 1 && -2 ^ 31 ≤ signed (splitSign s).1 v
  | _ => false

/-- A sign before the number is refused if it is a minus. -/
def checkUint32 (s : Text) : Bool :=
  !(splitSign s).1 &&
    match unsignedNumber (splitSign s).2 with
    | some (v, []) => v ≤ 2 ^ 32 - 1
    | _ => false

/-- `atoi`: always decimal, through a `long`. -/
def atoi (s : Text) : Int :=
  int32 (max (-2 ^ 63) (min (2 ^ 63 - 1)
    (signed (splitSign s).1 (digits 10 0 (splitSign s).2).1)))

end Libdap.Source.Words
