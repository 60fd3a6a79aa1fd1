import Mathlib.Tactic
import Libdap.Source.Failure

/-!
# Operators.h, the `ops` of the numeric types, Clause.cc and ConstraintEvaluator.cc

Floating point values are rational numbers.
-/
namespace Libdap.Source.Operators

inductive Comparison where
  | equal | notEqual | greater | greaterEql | less | lessEql
  deriving DecidableEq, Repr

/-- The tokens that `ops` can be given. -/
inductive Op where
  | comparison (c : Comparison)
  | regexp
  | other
  deriving DecidableEq, Repr

/-- `d_buf` of the seven numeric classes. -/
inductive Value where
  | byte (v : UInt8)
  | int16 (v : Int16)
  | uint16 (v : UInt16)
  | int32 (v : Int32)
  | uint32 (v : UInt32)
  | float32 (v : ℚ)
  | float64 (v : ℚ)
  deriving DecidableEq, Repr

namespace Value

def toRat : Value → ℚ
  | .byte v => v.toNat
  | .int16 v => v.toInt
  | .uint16 v => v.toNat
  | .int32 v => v.toInt
  | .uint32 v => v.toNat
  | .float32 v => v
  | .float64 v => v

def isUnsigned : Value → Bool
  | .byte _ => true
  | .uint16 _ => true
  | .uint32 _ => true
  | _ => false

def isFloat : Value → Bool
  | .float32 _ => true
  | .float64 _ => true
  | _ => false

end Value

/-- The operators of the language, on operands of one type. -/
def relate (a b : ℚ) : Comparison → Bool
  | .equal => a = b
  | .notEqual => a ≠ b
  | .greater => a > b
  | .greaterEql => a ≥ b
  | .less => a < b
  | .lessEql => a ≤ b

/-- The `switch` of the three templates. -/
def apply (op : Op) (a b : ℚ) : Except Failure Bool :=
  match op with
  | .comparison c => .ok (relate a b c)
  | .regexp =>
    .error (.error .unknownError "Regular expressions are supported for strings only.")
  | .other => .error (.error .unknownError "Unrecognized operator.")

/-- The conversion of an integer to a format with so many bits of precision: to the nearest
number of the format, and to the even one of two. -/
def roundToBits (bits : Nat) (n : Int) : Int :=
  let m := n.natAbs
  let unit := 2 ^ (Nat.log2 m + 1 - bits)
  let q := m / unit
  let r := m % unit
  n.sign * ((if 2 * r > unit ∨ (2 * r = unit ∧ q % 2 = 1) then q + 1 else q) * unit : Nat)

/-- The type in which the language compares two operands. -/
inductive Common where
  | int | unsignedInt | float | double
  deriving DecidableEq, Repr

def commonType (a b : Value) : Common :=
  match a, b with
  | .float64 _, _ => .double
  | _, .float64 _ => .double
  | .float32 _, _ => .float
  | _, .float32 _ => .float
  | .uint32 _, _ => .unsignedInt
  | _, .uint32 _ => .unsignedInt
  | _, _ => .int

def convert (common : Common) (v : Value) : ℚ :=
  if v.isFloat then v.toRat
  else
    match common with
    | .int => v.toRat
    | .unsignedInt => (v.toRat.num % 2 ^ 32 : Int)
    | .float => roundToBits 24 v.toRat.num
    | .double => roundToBits 53 v.toRat.num

def Cmp (op : Op) (v1 v2 : Value) : Except Failure Bool :=
  apply op (convert (commonType v1 v2) v1) (convert (commonType v1 v2) v2)

/-- `dap_floor_zero`. A cast of a floating point value that is out of range has no
meaning. -/
def dapFloorZero (v : Value) : Except Failure ℚ :=
  if v.toRat < 0 then .ok 0
  else if v.toRat < 2 ^ 64 then .ok ⌊v.toRat⌋
  else .error .undefinedBehaviour

/-- The operator is looked at before the operands. -/
def USCmp (op : Op) (v1 v2 : Value) : Except Failure Bool :=
  match op with
  | .comparison _ => do
    let floored ← dapFloorZero v2
    apply op v1.toRat floored
  | _ => apply op 0 0

def SUCmp (op : Op) (v1 v2 : Value) : Except Failure Bool :=
  match op with
  | .comparison _ => do
    let floored ← dapFloorZero v1
    apply op floored v2.toRat
  | _ => apply op 0 0

/-- A variable or a constant of a numeric class; `isRead` is `read_p() || read()`. -/
structure Operand where
  value : Value
  isRead : Bool
  deriving DecidableEq, Repr

/-- The classes of unsigned integers. -/
def unsignedOps (unread : String) (dBuf : Value) (isRead : Bool) (b : Operand) (op : Op) :
    Except Failure Bool :=
  if isRead && b.isRead then
    if b.value.isUnsigned then Cmp op dBuf b.value else USCmp op dBuf b.value
  else .error (.internalErr unread)

/-- The classes of signed integers and floating point numbers. -/
def signedOps (unread : String) (dBuf : Value) (isRead : Bool) (b : Operand) (op : Op) :
    Except Failure Bool :=
  if isRead && b.isRead then
    if b.value.isUnsigned then SUCmp op dBuf b.value else Cmp op dBuf b.value
  else .error (.internalErr unread)

def Byte.ops (dBuf : UInt8) := unsignedOps "This value not read!" (.byte dBuf)

def Int16.ops (dBuf : Int16) := signedOps "This value not read!" (.int16 dBuf)

def UInt16.ops (dBuf : UInt16) := unsignedOps "This value was not read!" (.uint16 dBuf)

def Int32.ops (dBuf : Int32) := signedOps "This value not read!" (.int32 dBuf)

def UInt32.ops (dBuf : UInt32) := unsignedOps "This value was not read!" (.uint32 dBuf)

def Float32.ops (dBuf : ℚ) := signedOps "This value not read!" (.float32 dBuf)

def Float64.ops (dBuf : ℚ) := signedOps "This value not read!" (.float64 dBuf)

/-- The virtual function. -/
def ops (this b : Operand) (op : Op) : Except Failure Bool :=
  match this.value with
  | .byte v => Byte.ops v this.isRead b op
  | .int16 v => Int16.ops v this.isRead b op
  | .uint16 v => UInt16.ops v this.isRead b op
  | .int32 v => Int32.ops v this.isRead b op
  | .uint32 v => UInt32.ops v this.isRead b op
  | .float32 v => Float32.ops v this.isRead b op
  | .float64 v => Float64.ops v this.isRead b op

/-- A relational clause of numeric operands, or one with a function: `_b_func` with what it
gives, or `_bt_func`. -/
inductive Clause where
  | relation (op : Op) (arg1 : Operand) (args : List Operand)
  | boolFunc (result : Except Failure Bool)
  | btFunc

/-- The loop of `Clause::value`: an implicit logical OR. -/
def anyHolds (btp : Operand) (op : Op) : List Operand → Except Failure Bool
  | [] => .ok false
  | arg :: args => do
    if ← ops btp arg op then pure true
    else anyHolds btp op args

def Clause.value : Clause → Except Failure Bool
  | .relation op arg1 args => anyHolds arg1 op args
  | .boolFunc result => result
  | .btFunc =>
    .error (.internalErr "A selection expression must contain only boolean clauses.")

/-- `eval_selection`; the check that a clause is boolean comes before its value. -/
def evalSelection : List Clause → Except Failure Bool
  | [] => .ok true
  | clause :: expr => do
    if ← clause.value then evalSelection expr
    else pure false

end Libdap.Source.Operators
