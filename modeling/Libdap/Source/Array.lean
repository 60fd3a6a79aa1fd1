import Mathlib.Tactic
import Libdap.Source.Failure

/-!
# Array.cc: dimensions, constraints and the cached length

The shape of an Array and the length Vector keeps for it (`d_length`). `int`
arithmetic is taken modulo `2 ^ 32`, as it is compiled (a row number of a Sequence that
overflows is undefined instead); division truncates. An iterator is the
index of its dimension.
-/
namespace Libdap.Source.Array

/-- An `int` after the arithmetic of the machine. -/
def int32 (n : Int) : Int := (BitVec.ofInt 32 n).toInt

/-- `Array::dimension` (Array.h:116-124); the name as `www2id` decodes it. -/
structure Dimension where
  size : Int
  name : String
  start : Int
  stop : Int
  stride : Int
  cSize : Int
  deriving DecidableEq, Repr

structure Dims where
  shape : List Dimension
  length : Int
  deriving DecidableEq, Repr

/-- The constructor: Vector starts with `d_length(-1)` and no dimension is there. -/
def fresh : Dims := { shape := [], length := -1 }

def Dims.setLength (a : Dims) (l : Int) : Dims := { a with length := l }

/-- The product `update_length` computes (lines 71-80). -/
def constrainedLength (shape : List Dimension) : Int :=
  shape.foldl (fun length d => int32 (length * if 0 < d.cSize then d.cSize else 1)) 1

def Dims.updateLength (a : Dims) : Dims := a.setLength (constrainedLength a.shape)

def newDimension (size : Int) (name : String) : Dimension :=
  { size, name, start := 0, stop := int32 (size - 1), stride := 1, cSize := size }

def Dims.appendDim (a : Dims) (size : Int) (name : String) : Dims :=
  { a with shape := a.shape ++ [newDimension size name] }.updateLength

def Dims.prependDim (a : Dims) (size : Int) (name : String) : Dims :=
  { a with shape := newDimension size name :: a.shape }.updateLength

/-- The length is left as it was (lines 287-291). -/
def Dims.clearAllDims (a : Dims) : Dims := { a with shape := [] }

def resetDimension (d : Dimension) : Dimension :=
  { d with start := 0, stop := int32 (d.size - 1), stride := 1, cSize := d.size }

/-- One turn of the loop of `reset_constraint`, at dimension `i`. -/
def Dims.resetAt (a : Dims) (i : Nat) : Dims :=
  { a with shape := a.shape.modify i resetDimension }.updateLength

def Dims.resetConstraint (a : Dims) : Dims :=
  (List.range a.shape.length).foldl Dims.resetAt (a.setLength (-1))

def arraySss : String :=
  "Invalid constraint parameters: At least one of the start, stride or stop \n" ++
    "specified do not match the array variable."

/-- `stop == -1` stands for the last index. -/
def lastIndex (d : Dimension) (stop : Int) : Int :=
  if stop = -1 then int32 (d.size - 1) else stop

/-- The two tests of `add_constraint` (lines 371-375). -/
def rejects (d : Dimension) (start stride stop : Int) : Prop :=
  d.size ≤ start ∨ d.size ≤ stop ∨ d.size < stride ∨ stride ≤ 0 ∨
    d.size < int32 ((int32 (stop - start)).tdiv stride + 1)

instance (d : Dimension) (start stride stop : Int) : Decidable (rejects d start stride stop) :=
  inferInstanceAs (Decidable (_ ∨ _))

def constrain (d : Dimension) (start stride stop : Int) : Dimension :=
  { d with start, stop, stride, cSize := int32 ((int32 (stop - start)).tdiv stride + 1) }

def Dims.addConstraint (a : Dims) (i : Nat) (start stride stop : Int) : Except Failure Dims :=
  match a.shape[i]? with
  | none => .error .undefinedBehaviour
  | some d =>
    if rejects d start stride (lastIndex d stop) then .error (.error .malformedExpr arraySss)
    else .ok { a with
      shape := a.shape.set i (constrain d start stride (lastIndex d stop)) }.updateLength

/-- The calls that change the dimensions. -/
inductive Call where
  | appendDim (size : Int) (name : String)
  | prependDim (size : Int) (name : String)
  | addConstraint (i : Nat) (start stride stop : Int)
  | resetConstraint
  | clearAllDims
  deriving DecidableEq, Repr

/-- One call; when it throws the array stays as it was. -/
def call (a : Dims) : Call → Dims
  | .appendDim size name => a.appendDim size name
  | .prependDim size name => a.prependDim size name
  | .addConstraint i start stride stop =>
    match a.addConstraint i start stride stop with
    | .ok after => after
    | .error _ => a
  | .resetConstraint => a.resetConstraint
  | .clearAllDims => a.clearAllDims

end Libdap.Source.Array
