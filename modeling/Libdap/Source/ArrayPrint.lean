import Libdap.Source.Array
import Libdap.Source.Variables

/-!
# Array.cc: the values of an Array printed

`print_array` writes braces and separators and asks for the elements between them. What an
element prints is its own class's; here it is asked for by its index. The elements asked for
are taken to be there.
-/
namespace Libdap.Source.ArrayPrint
open Libdap.Source.Array
open Variables (VarType)

inductive Piece where
  | text (s : List Char)
  /-- `var(index)->print_val(out, "", false)`. -/
  | request (index : UInt32)
  deriving DecidableEq, Repr

/-- What was written so far, and the running index or how the call ended abnormally. -/
structure Printing where
  pieces : List Piece
  index : Except Failure UInt32

def Printing.andThen (p : Printing) (next : UInt32 → Printing) : Printing :=
  match p.index with
  | .ok index => { next index with pieces := p.pieces ++ (next index).pieces }
  | .error _ => p

def say (text : String) (index : UInt32) : Printing :=
  { pieces := [.text text.toList], index := .ok index }

/-- The switch of `Vector::var(unsigned int)` (Vector.cc:451-485); none for a null `_var`. -/
def vectorVar : Option VarType → Except Failure Unit
  | none => .error .undefinedBehaviour
  | some .byte | some .int16 | some .uint16 | some .int32 | some .uint32 | some .float32
  | some .float64 | some .str | some .url | some .array | some .structure | some .sequence
  | some .grid => .ok ()
  | some _ => .error (.error .undefinedError "Vector::var: Unrecognized type")

/-- `var(index++)->print_val(out, "", false)`. -/
def printElement (template : Option VarType) (index : UInt32) : Printing :=
  { pieces := [.request index], index := (vectorVar template).map fun _ => index + 1 }

/-- The loop in front of the last element or row, with `n` turns to go. -/
def turns (part : UInt32 → Printing) (separator : String) : Nat → UInt32 → Printing
  | 0, index => { pieces := [], index := .ok index }
  | n + 1, index =>
    ((part index).andThen (say separator)).andThen (turns part separator n)

/-- What the two branches do for a dimension; `shape[0] - 1` is unsigned. -/
def printRow (part : UInt32 → Printing) (separator : String) (size index : UInt32) : Printing :=
  (((say "\x7b" index).andThen (turns part separator (size - 1).toNat)).andThen part).andThen
    (say "\x7d")

/-- `print_array` for the dimensions of `shape`; with none, `shape[0]` is out of bounds. -/
def printArray (template : Option VarType) : (shape : List UInt32) → UInt32 → Printing
  | [], _ => { pieces := [], index := .error .undefinedBehaviour }
  | [size], index => printRow (printElement template) ", " size index
  | size :: next :: shape, index => printRow (printArray template (next :: shape)) "," size index

/-- The array that `print_val` fills from the dimensions. -/
def shapeOf (a : Dims) : List UInt32 := a.shape.map fun d => UInt32.ofInt d.cSize

/-- `print_val`; `decl` is what `print_decl` prints. -/
def printVal (a : Dims) (template : Option VarType) (printDecl : Bool) (decl : List Char) :
    Printing :=
  let front := if printDecl then [.text decl, .text " = ".toList] else []
  let values := printArray template (shapeOf a) 0
  let printed : Printing := { values with pieces := front ++ values.pieces }
  if printDecl then printed.andThen (say ";\n") else printed

end Libdap.Source.ArrayPrint
