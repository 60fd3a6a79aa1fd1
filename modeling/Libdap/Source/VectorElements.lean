import Libdap.Source.Vectors

/-!
# Vector.cc: where the values of a Vector lie

Numbers lie in `_buf`, strings in `d_str` and objects in `_vec`. `_capacity` is a field of its
own, which the containers of the standard library do not know of.
-/
namespace Libdap.Source.VectorElements
open Libdap.Source.Array Libdap.Source.Vectors

/-! ## Containers -/

/-- A `std::vector`, of which no more is known than that its elements fit its capacity. -/
structure StdVector (α : Type) where
  items : List α
  capacity : Nat
  fits : items.length ≤ capacity
  deriving DecidableEq, Repr

namespace StdVector
variable {α : Type}

/-- The library chooses any capacity that the elements fit. -/
def reserve (v : StdVector α) (chosen : Nat) : StdVector α where
  items := v.items
  capacity := max chosen v.items.length
  fits := Nat.le_max_right chosen v.items.length

def resize (v : StdVector α) (n : Nat) (fill : α) (chosen : Nat) : StdVector α where
  items := v.items.take n ++ List.replicate (n - v.items.length) fill
  capacity := max chosen n
  fits := by
    simp only [List.length_append, List.length_take, List.length_replicate]
    omega

/-- `v[i]`. -/
def get (v : StdVector α) (i : Nat) : Except Failure α :=
  match v.items[i]? with
  | some x => .ok x
  | none => .error .undefinedBehaviour

/-- `v[i] = x`. -/
def store (v : StdVector α) (i : Nat) (x : α) : Except Failure (StdVector α) :=
  if i < v.items.length then
    .ok { items := v.items.set i x, capacity := v.capacity, fits := by simp [v.fits] }
  else .error .undefinedBehaviour

end StdVector

/-! ## The Vector -/

inductive ElementType where
  | cardinal (type : CardType)
  | str | url | array | struct | sequence | grid | null
  deriving DecidableEq, Repr

/-- The objects of `_vec`: their types, and the copies that `ptr_duplicate` makes of them. -/
structure Objects where
  Object : Type
  type : Object → ElementType
  ptrDuplicate : Object → Object

/-- `type` is that of `_var`, which is there. -/
structure Vector (O : Objects) where
  name : String
  type : ElementType
  length : Int
  capacity : Nat
  readP : Bool
  buf : Option Buffer
  d_str : StdVector (List UInt8)
  vec : StdVector (Option O.Object)

variable {O : Objects}

/-- The Vector as one of numbers. -/
def Vector.numbers (v : Vector O) (type : CardType) : Vectors.Vector where
  var := type
  length := v.length
  buf := v.buf
  capacity := v.capacity
  readP := v.readP

/-- `chosen` is the capacity that the library may choose for a container. -/
def Vector.reserveValueCapacity (v : Vector O) (numElements chosen : Nat) :
    Except Failure (Vector O) :=
  match v.type with
  | .cardinal type =>
    let made := (v.numbers type).reserveValueCapacity numElements
    pure { v with buf := made.buf, capacity := made.capacity }
  | .str | .url => pure { v with d_str := v.d_str.reserve chosen, capacity := numElements }
  | .array | .struct | .sequence | .grid =>
    pure { v with vec := v.vec.reserve chosen, capacity := numElements }
  | .null => .error (.internalErr "reserve_value_capacity: Unknown type!")

/-! ## Slices -/

/-- `for (i = 0; i < length; ++i) d_str[startElement + i] = rowMajorData.d_str[i];` from the `i`
at hand on. -/
def copyStrings (start : Nat) (rows : StdVector (List UInt8)) :
    Nat → Nat → StdVector (List UInt8) → Except Failure (StdVector (List UInt8))
  | _, 0, d_str => .ok d_str
  | i, left + 1, d_str => do
    let s ← rows.get i
    let d_str ← d_str.store ((start + i) % 2 ^ 32) s
    copyStrings start rows (i + 1) left d_str

/-- `set_value_slice_from_row_major_vector`. It returns how many elements were copied. -/
def Vector.setValueSlice (v rowMajorData : Vector O) (startElement : Nat) :
    Except Failure (Vector O × Nat) :=
  if rowMajorData.type ≠ v.type then
    .error (sliceError "Logic error: types do not match so cannot be copied!")
  else if !rowMajorData.readP then
    .error (sliceError
      "Logic error: the Vector to copy data from has !read_p() and should have been read in!")
  else if rowMajorData.length < 0 then
    .error (sliceError
      "Logic error: the Vector to copy data from has length() < 0 and was probably not initialized!")
  else if rowMajorData.capacity < uint32 rowMajorData.length then
    .error (sliceError
      "Logic error: the Vector to copy from has a data capacity less than its length, can't copy!")
  else if v.capacity < (startElement + uint32 rowMajorData.length) % 2 ^ 32 then
    .error (sliceError
      "Logic error: the capacity of this Vector cannot hold all the data in the from Vector!")
  else
    match v.type with
    | .cardinal type =>
      match v.buf, rowMajorData.buf with
      | none, _ => .error (sliceError "Logic error: this->_buf was unexpectedly null!")
      | some _, none => .error (sliceError "Logic error: rowMajorData._buf was unexpectedly null!")
      | some into, some from' => do
        let numBytesToCopy := int32 (rowMajorData.numbers type).width
        let buf ← memcpy into ((startElement * type.width) % 2 ^ 32) from' (sizeT numBytesToCopy)
        pure ({ v with buf := some buf }, uint32 rowMajorData.length)
    | .str | .url => do
      let d_str ← copyStrings startElement rowMajorData.d_str 0 (uint32 rowMajorData.length) v.d_str
      pure ({ v with d_str }, uint32 rowMajorData.length)
    | .array | .struct | .sequence | .grid =>
      .error (sliceError ("Unimplemented method for Vectors of type: dods_array_c, " ++
        "dods_structure_c, dods_sequence_c and dods_grid_c."))
    | .null => .error (sliceError ": Unknown type!")

/-- Slices set one behind the other, with what the calls return. -/
def Vector.setSlices (v : Vector O) : List (Vector O) → Nat → Except Failure (Vector O × List Nat)
  | [], _ => .ok (v, [])
  | row :: rows, start => do
    let (v, n) ← v.setValueSlice row start
    let (v, ns) ← v.setSlices rows (start + (uint32 row.length))
    pure (v, n :: ns)

/-! ## Reads by index -/

inductive Value where
  | number (type : CardType) (bytes : Buffer)
  | string (s : List UInt8)
  deriving DecidableEq, Repr

/-- The seven overloads for numbers and the one for strings. -/
inductive Overload where
  | numbers (type : CardType)
  | strings
  deriving DecidableEq, Repr

/-- `reinterpret_cast<type*>(_buf)[k]`. -/
def Vector.numberAt (v : Vector O) (type : CardType) (k : Nat) : Except Failure Value :=
  let bytes := v.buf.getD []
  if (k + 1) * type.width ≤ bytes.length then
    .ok (.number type ((bytes.drop (k * type.width)).take type.width))
  else .error .undefinedBehaviour

def Vector.stringAt (v : Vector O) (k : Nat) : Except Failure Value :=
  match v.d_str.get k with
  | .ok s => .ok (.string s)
  | .error failure => .error failure

def Vector.outside (v : Vector O) (i currentIndex : Nat) : Failure :=
  .error .unknownError ("Vector::value() - Subset index[" ++ toString i ++ "] = " ++
    toString currentIndex ++ " references a value that is outside the bounds of the internal " ++
    "storage [ length()= " ++ toString v.length ++ " ] name: '" ++ v.name ++ "'. ")

/-- The loop of every overload, from the `i` at hand on. -/
def Vector.subset (v : Vector O) (element : Nat → Except Failure Value) :
    Nat → List UInt32 → Except Failure (List Value)
  | _, [] => .ok []
  | i, currentIndex :: rest =>
    if uint32 v.length < currentIndex.toNat then .error (v.outside i currentIndex.toNat)
    else do
      let x ← element currentIndex.toNat
      let xs ← v.subset element (i + 1) rest
      pure (x :: xs)

/-- What is in `b` afterwards, which has room for an element of every index. The overload for
strings leaves `b` as it was if the Vector has none. -/
def Vector.valueAt (v : Vector O) (overload : Overload) (subsetIndex : List UInt32)
    (b : List (List UInt8)) : Except Failure (List Value) :=
  match overload with
  | .numbers type => v.subset (v.numberAt type) 0 subsetIndex
  | .strings =>
    if v.type = .str ∨ v.type = .url then v.subset v.stringAt 0 subsetIndex
    else .ok (b.map .string)

/-! ## Objects -/

def Vector.vecResize (v : Vector O) (l : Int) (chosen : Nat) : Vector O :=
  { v with vec := v.vec.resize (if 0 < l then l.toNat else 0) none chosen, capacity := uint32 l }

/-- `set_vec`. -/
def Vector.setVec (v : Vector O) (i : Nat) (val : Option O.Object) (chosen : Nat) :
    Except Failure (Vector O) :=
  if uint32 v.length ≤ i then .error (.internalErr "Invalid data: index too large.")
  else
    match val with
    | none => .error (.internalErr "Invalid data: null pointer to BaseType object.")
    | some val =>
      if O.type val ≠ v.type then
        .error (.internalErr
          "invalid data: type of incoming object does not match *this* vector type.")
      else do
        let v := if v.vec.capacity ≤ i then v.vecResize (int32 (i + 10)) chosen else v
        let vec ← v.vec.store i (some (O.ptrDuplicate val))
        pure { v with vec }

end Libdap.Source.VectorElements
