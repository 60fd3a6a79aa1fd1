import Mathlib.Tactic

/-!
# escaping.cc: escapes in names

A `std::string` is a list of bytes.
-/
namespace Libdap.Source

abbrev Text := List UInt8

def text (s : List Char) : Text := s.map fun c => c.toNat.toUInt8

namespace Escaping

def dot : UInt8 := 46

def percent : UInt8 := 37

/-- The default of the parameter `allowable`: letters, digits and seven others, of which 92
is the backslash. -/
def allowable (c : UInt8) : Bool :=
  (65 ≤ c && c ≤ 90) || (97 ≤ c && c ≤ 122) || (48 ≤ c && c ≤ 57) ||
    (92 :: text ['-', '+', '_', '/', '.', '*']).contains c

def hexDigit (n : Nat) : UInt8 :=
  if n < 10 then (48 + n).toUInt8 else (87 + n).toUInt8

def hexstring (val : UInt8) : Text := [hexDigit (val.toNat / 16), hexDigit (val.toNat % 16)]

def id2www (s : Text) : Text :=
  s.flatMap fun c => if allowable c then [c] else percent :: hexstring c

def isSpace (c : UInt8) : Bool := c = 32 || (9 ≤ c && c ≤ 13)

def digitValue (c : UInt8) : Option Nat :=
  if 48 ≤ c && c ≤ 57 then some (c.toNat - 48)
  else if 97 ≤ c && c ≤ 102 then some (c.toNat - 87)
  else if 65 ≤ c && c ≤ 70 then some (c.toNat - 55)
  else none

/-- What an extraction with `hex` makes of the digits at the front. -/
def hexValue (value : Nat) : Text → Nat
  | [] => value
  | c :: rest =>
    match digitValue c with
    | some d => hexValue (16 * value + d) rest
    | none => value

/-- The byte of `unhexstring`. An extraction from a text without anything but blanks leaves
`val` as it was, which is `garbage`. Its string is empty if the byte is zero. -/
def unhexstring (garbage : UInt8) (s : Text) : UInt8 :=
  match s.dropWhile isSpace with
  | [] => garbage
  | c :: digits =>
    if c = 43 then (hexValue 0 digits).toUInt8
    else if c = 45 then 0 - (hexValue 0 digits).toUInt8
    else (hexValue 0 (c :: digits)).toUInt8

/-- A call without exceptions. An escape that stands for nothing is dropped, and the byte
after it is passed without a look. -/
def www2id (garbage : UInt8) : Text → Text
  | [] => []
  | c :: rest =>
    if c ≠ percent then c :: www2id garbage rest
    else
      match rest with
      | a :: b :: rest =>
        if unhexstring garbage [a, b] = 0 then
          match rest with
          | [] => []
          | passed :: rest => passed :: www2id garbage rest
        else unhexstring garbage [a, b] :: www2id garbage rest
      | few => if unhexstring garbage few = 0 then [] else [unhexstring garbage few]

theorem www2id_cons {c : UInt8} (other : c ≠ percent) (garbage : UInt8) (rest : Text) :
    www2id garbage (c :: rest) = c :: www2id garbage rest := by
  rw [www2id.eq_def]
  simp [other]

theorem www2id_escape (garbage a b : UInt8) (rest : Text) :
    www2id garbage (percent :: a :: b :: rest) =
      if unhexstring garbage [a, b] = 0 then
        match rest with
        | [] => []
        | passed :: rest => passed :: www2id garbage rest
      else unhexstring garbage [a, b] :: www2id garbage rest := by
  cases rest <;> rfl

end Escaping

end Libdap.Source
