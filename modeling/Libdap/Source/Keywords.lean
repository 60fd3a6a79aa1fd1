import Libdap.Source.Escapes
import Libdap.Source.Failure

/-!
# Keywords2.cc: keywords in front of a constraint
-/
namespace Libdap.Source.Keywords
open Libdap.Source.Escaping

def openParen : UInt8 := 40

def closeParen : UInt8 := 41

def comma : UInt8 := 44

def find (c : UInt8) (s : Text) : Option Nat := s.findIdx? (· = c)

/-- `d_known_keywords`. -/
def knownKeywords : List (Text × List Text) :=
  [(text ['d', 'a', 'p'],
      [text ['2'], text ['2', '.', '0'], text ['3', '.', '2'], text ['3', '.', '3'],
        text ['3', '.', '4'], text ['4'], text ['4', '.', '0']]),
    (text ['c', 'h', 'e', 'c', 'k', 's', 'u', 'm'],
      [text ['m', 'd', '5'], text ['M', 'D', '5'], text ['s', 'h', 'a', '1'],
        text ['S', 'H', 'A', '1']])]

/-- `d_parsed_keywords`. -/
abbrev Parsed := Text → Option Text

def Parsed.add (parsed : Parsed) (word value : Text) : Parsed :=
  fun w => if w = word then some value else parsed w

/-- `f_parse_keyword`: the word and the value where the result is true. A closing parenthesis
before the opening one gives `substr` a length that wraps around. -/
def parseKeyword (kw : Text) : Option (Text × Text) :=
  match find openParen kw with
  | none => none
  | some i =>
    match find closeParen kw with
    | none => none
    | some j =>
      let word := kw.take i
      let value := if j < i + 1 then kw.drop (i + 1) else (kw.drop (i + 1)).take (j - (i + 1))
      if word ≠ [] ∧ value ≠ [] then some (word, value) else none

/-- `m_is_valid_keyword`. -/
def isValidKeyword (word value : Text) : Except Failure Bool :=
  match knownKeywords.lookup word with
  | none => .ok false
  | some values =>
    if value ∈ values then .ok true
    else
      .error (.error .unknownError ("Bad value passed to the keyword/function: " ++
        String.ofList (word.map fun c => Char.ofNat c.toNat)))

/-- The text before the first comma, and what is left behind it. -/
def nextWord (projection : Text) : Text × Text :=
  match find comma projection with
  | some i => (projection.take i, projection.drop (i + 1))
  | none => (projection, [])

theorem nextWord_shorter {projection : Text} (nonempty : projection ≠ []) :
    (nextWord projection).2.length < projection.length := by
  have positive := List.length_pos_iff.mpr nonempty
  rw [nextWord]
  split
  · rw [List.length_drop]
    omega
  · exact positive

/-- The loop of `parse_keywords`. -/
def parseLoop (parsed : Parsed) (projection : Text) : Except Failure (Parsed × Text) :=
  if nonempty : projection = [] then .ok (parsed, projection)
  else
    match parseKeyword (nextWord projection).1 with
    | none => .ok (parsed, projection)
    | some (word, value) =>
      match isValidKeyword word value with
      | .error failure => .error failure
      | .ok false => .ok (parsed, projection)
      | .ok true =>
        have := nextWord_shorter nonempty
        parseLoop (parsed.add word value) (nextWord projection).2
termination_by projection.length

/-- The decoded constraint; an escaped space stays as it is. -/
def decoded (garbage : UInt8) (ce : Text) : Text :=
  www2idWith garbage ce [percent] [percent, 50, 48]

/-- The part from the first ampersand on is kept apart. -/
def splitSelection (ce : Text) : Text × Text :=
  match find ampersand ce with
  | some amp => (ce.take amp, ce.drop amp)
  | none => (ce, [])

/-- `parse_keywords`: the keywords afterwards, and what is left of the constraint. -/
def parseKeywords (garbage : UInt8) (parsed : Parsed) (ce : Text) :
    Except Failure (Parsed × Text) := do
  let (projection, selection) := splitSelection (decoded garbage ce)
  let (parsed, projection) ← parseLoop parsed projection
  pure (parsed, projection ++ selection)

end Libdap.Source.Keywords
