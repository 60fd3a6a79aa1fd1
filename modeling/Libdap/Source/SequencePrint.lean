import Libdap.Source.ErrorText

/-!
# Sequence.cc: Sequences printed row by row

A value that is no Sequence is printed by its own class. What a value prints is kept in a table
of the rows, in which the loops look it up; `space` grows with each Sequence inside another.
-/
namespace Libdap.Source.SequencePrint
open Libdap.Source.Array Libdap.Source.ErrorText

/-- A value of a row. A Sequence has `element_count()` variables and the rows of `d_values`, where
a field may be the null pointer. -/
inductive Value (L : Type) where
  | leaf (v : L)
  | sequence (elements : Nat) (rows : List (List (Option (Value L))))

/-- What is printed, or how that ends abnormally. -/
abbrev Printed := Except Failure (List Char)

/-- `var_value`: null where there is no such row or field. -/
def varValue (rows : List (List (Option Printed))) (row j : Nat) : Option Printed :=
  match rows[row]? with
  | none => none
  | some fields => (fields[j]?).join

/-- The first loop of `print_one_row` from `j` on, with `n` elements to go: it ends with the first
value. -/
def firstValue (value : Nat → Option Printed) :
    Nat → Nat → Except Failure (List Char × Nat × Nat)
  | j, 0 => .ok ([], j, 0)
  | j, n + 1 =>
    match value j with
    | none => firstValue value (j + 1) n
    | some printed => do
      let text ← printed
      pure (text, j + 1, n)

/-- The second loop. -/
def remainingValues (value : Nat → Option Printed) : Nat → Nat → Printed
  | _, 0 => .ok []
  | j, n + 1 =>
    match value j with
    | none => remainingValues value (j + 1) n
    | some printed => do
      let text ← printed
      let rest ← remainingValues value (j + 1) n
      pure (", ".toList ++ text ++ rest)

section
variable (space : List Char) (printRowNum : Bool)

def rowLabel (row : Nat) : List Char :=
  if printRowNum then "\n".toList ++ space ++ decimal row ++ ": ".toList else []

def printOneRow (elements : Nat) (rows : List (List (Option Printed))) (row : Nat) : Printed := do
  let value := varValue rows row
  let (first, j, n) ← firstValue value 0 elements
  let rest ← remainingValues value j n
  pure (rowLabel space printRowNum row ++ "\x7b ".toList ++ first ++ rest ++ " \x7d".toList)

/-- The loop over all rows but the last. -/
def printRows (elements : Nat) (rows : List (List (Option Printed))) : Nat → Nat → Printed
  | _, 0 => .ok []
  | i, n + 1 => do
    let row ← printOneRow space printRowNum elements rows i
    let rest ← printRows elements rows (i + 1) n
    pure (row ++ ", ".toList ++ rest)

/-- `print_val_by_rows` without a declaration. The number of rows is an `int`, and one less than
the smallest `int` has no meaning. -/
def printRowsOf (elements : Nat) (rows : List (List (Option Printed))) : Printed :=
  if int32 rows.length = -2 ^ 31 then .error .undefinedBehaviour
  else do
    let count := (int32 rows.length - 1).toNat
    let before ← printRows space printRowNum elements rows 0 count
    let last ← printOneRow space printRowNum elements rows count
    pure ("\x7b ".toList ++ before ++ last ++ " \x7d".toList)

end

section
variable {L : Type} (printVal : List Char → L → List Char) (printRowNum : Bool)

mutual

/-- What a value of a row prints. -/
def printValue (space : List Char) : Value L → Printed
  | .leaf v => .ok (printVal space v)
  | .sequence elements rows =>
    printRowsOf (space ++ "    ".toList) printRowNum elements
      (tableOf (space ++ "    ".toList) rows)

def tableOf (space : List Char) : List (List (Option (Value L))) → List (List (Option Printed))
  | [] => []
  | fields :: rows => fieldsOf space fields :: tableOf space rows

def fieldsOf (space : List Char) : List (Option (Value L)) → List (Option Printed)
  | [] => []
  | none :: fields => none :: fieldsOf space fields
  | some v :: fields => some (printValue space v) :: fieldsOf space fields

end

/-- `print_val_by_rows` of a Sequence; `decl` is what `print_decl` prints where it is asked for. -/
def printValByRows (space : List Char) (decl : Option (List Char)) (elements : Nat)
    (rows : List (List (Option (Value L)))) : Printed := do
  let text ← printRowsOf space printRowNum elements (tableOf printVal printRowNum space rows)
  match decl with
  | none => pure text
  | some decl => pure (decl ++ " = ".toList ++ text ++ ";\n".toList)

end

end Libdap.Source.SequencePrint
