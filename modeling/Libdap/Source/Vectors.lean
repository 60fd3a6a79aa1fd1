import Libdap.Source.Array
import Libdap.Source.Failure

/-!
# Vector.cc: the buffer of a Vector of numbers

Only the fields that the storage of cardinal values depends on. The buffer is a list of
bytes; a byte of new storage has no value. A copy beyond the end of a buffer is undefined
behaviour. The array a caller passes holds as many elements as it says.
-/
namespace Libdap.Source.Vectors
open Libdap.Source.Array

inductive CardType where
  | byte | int16 | uint16 | int32 | uint32 | float32 | float64
  deriving DecidableEq, Repr

def CardType.width : CardType → Nat
  | .byte => 1
  | .int16 | .uint16 => 2
  | .int32 | .uint32 | .float32 => 4
  | .float64 => 8

abbrev Buffer := List (Option UInt8)

/-- `d_length` is an `int`, `_capacity` an `unsigned int`; `var` is the type of `_var`. -/
structure Vector where
  var : CardType
  length : Int
  buf : Option Buffer
  capacity : Nat
  readP : Bool
  deriving DecidableEq, Repr

/-- The conversion to `unsigned int`. -/
def uint32 (i : Int) : Nat := (i % 2 ^ 32).toNat

/-- The conversion of an `int` to `size_t`. -/
def sizeT (i : Int) : Nat := (i % 2 ^ 64).toNat

/-- The constructor. -/
def Vector.new (var : CardType) : Vector :=
  { var, length := -1, buf := none, capacity := 0, readP := false }

/-- `width`, with or without the constraint. -/
def Vector.width (v : Vector) : Nat := (uint32 v.length * v.var.width) % 2 ^ 32

def memcpy (dest : Buffer) (offset : Nat) (src : Buffer) (n : Nat) : Except Failure Buffer :=
  if offset + n ≤ dest.length ∧ n ≤ src.length then
    .ok (dest.take offset ++ src.take n ++ dest.drop (offset + n))
  else .error .undefinedBehaviour

/-- A copy of what a caller passes. -/
def memcpyFrom (dest : Buffer) (val : Nat → UInt8) (n : Nat) : Except Failure Buffer :=
  if n ≤ dest.length then .ok ((List.range n).map (fun i => some (val i)) ++ dest.drop n)
  else .error .undefinedBehaviour

/-- `m_create_cardinal_data_buffer_for_type`, which deletes the old buffer. -/
def Vector.createBuffer (v : Vector) (numElts : Nat) : Vector :=
  { v with
    buf := some (List.replicate ((v.var.width * numElts) % 2 ^ 32) none)
    capacity := numElts }

def Vector.setLength (v : Vector) (l : Int) : Vector := { v with length := int32 l }

/-- `set_cardinal_values_internal`. -/
def Vector.setCardinalValues (v : Vector) (val : Nat → UInt8) (numElts : Int) :
    Except Failure Vector :=
  if numElts < 0 then
    .error (.internalErr
      "Logic error: Vector::set_cardinal_values_internal() called with negative numElts!")
  else do
    let v := (v.setLength numElts).createBuffer (uint32 numElts)
    let buf ← memcpyFrom (v.buf.getD []) val (sizeT (numElts * v.var.width))
    pure { v with buf := some buf, readP := true }

/-- `set_value` for elements of type `type`; otherwise it does nothing and returns false. -/
def Vector.setValue (v : Vector) (type : CardType) (val : Option (Nat → UInt8)) (sz : Int) :
    Except Failure Vector :=
  match val with
  | some val => if v.var = type then v.setCardinalValues val (int32 sz) else pure v
  | none => pure v

/-- `val2buf` without reuse. -/
def Vector.val2buf (v : Vector) (val : Option (Nat → UInt8)) : Except Failure Vector :=
  match val with
  | none => .error (.internalErr "The incoming pointer does not contain any data.")
  | some val => do
    let v := v.createBuffer (uint32 v.length)
    let buf ← memcpyFrom (v.buf.getD []) val v.width
    pure { v with buf := some buf }

def Vector.reserveValueCapacity (v : Vector) (numElements : Nat) : Vector :=
  v.createBuffer numElements

def Vector.clearLocalData (v : Vector) : Vector :=
  { v with buf := none, capacity := 0, readP := false }

/-- `_duplicate`: the buffer is made for the length, and then has the capacity of the source. -/
def Vector.duplicate (v : Vector) : Except Failure Vector :=
  match v.buf with
  | none => pure v
  | some from' => do
    let copy := v.createBuffer (uint32 v.length)
    let buf ← memcpy (copy.buf.getD []) 0 from' v.width
    pure { copy with buf := some buf, capacity := v.capacity }

def sliceError (text : String) : Failure :=
  .internalErr ("set_value_slice_from_row_major_vector:" ++ text)

def Vector.setValueSlice (v rowMajorData : Vector) (startElement : Nat) : Except Failure Vector :=
  if v.var ≠ rowMajorData.var then
    .error (sliceError "Logic error: types do not match so cannot be copied!")
  else if !rowMajorData.readP then
    .error (sliceError
      "Logic error: the Vector to copy data from has !read_p() and should have been read in!")
  else if rowMajorData.length < 0 then
    .error (sliceError
      "Logic error: the Vector to copy data from has length() < 0 and was probably not initialized!")
  else if rowMajorData.capacity < uint32 rowMajorData.length then
    .error (sliceError
      "Logic error: the Vector to copy from has a data capacity less than its length, can't copy!")
  else if v.capacity < (startElement + uint32 rowMajorData.length) % 2 ^ 32 then
    .error (sliceError
      "Logic error: the capacity of this Vector cannot hold all the data in the from Vector!")
  else
    match v.buf, rowMajorData.buf with
    | none, _ => .error (sliceError "Logic error: this->_buf was unexpectedly null!")
    | some _, none => .error (sliceError "Logic error: rowMajorData._buf was unexpectedly null!")
    | some into, some from' => do
      let numBytesToCopy := int32 rowMajorData.width
      let buf ← memcpy into ((startElement * v.var.width) % 2 ^ 32) from' (sizeT numBytesToCopy)
      pure { v with buf := some buf }

/-- What `buf2val` copies to memory of the caller's that has room for it. -/
def Vector.buf2val (v : Vector) : Except Failure Buffer :=
  match v.buf with
  | none => .error (.internalErr "Vector::buf2val: Logic error: called when _buf was null!")
  | some buf => memcpy (List.replicate v.width none) 0 buf v.width

/-- `value` for elements of the type of the Vector; a null buffer has no bytes. -/
def Vector.value (v : Vector) : Except Failure Buffer :=
  let n := sizeT (v.length * v.var.width)
  memcpy (List.replicate n none) 0 (v.buf.getD []) n

/-- A call on Vectors, which are numbered in the order they were made. -/
inductive Step where
  | new (var : CardType)
  | setValue (i : Nat) (type : CardType) (val : Option (Nat → UInt8)) (sz : Int)
  | val2buf (i : Nat) (val : Option (Nat → UInt8))
  | reserveValueCapacity (i : Nat) (numElements : Fin (2 ^ 32))
  | setValueSlice (i rowMajorData : Nat) (startElement : Fin (2 ^ 32))
  | clearLocalData (i : Nat)
  | setLength (i : Nat) (l : Int)
  | setReadP (i : Nat) (state : Bool)
  | ptrDuplicate (i : Nat)
  | assign (i rhs : Nat)

abbrev Pool := List Vector

/-- A Vector that is not there is not called. -/
def vectorAt (s : Pool) (i : Nat) : Except Failure Vector :=
  match s[i]? with
  | some v => .ok v
  | none => .error (.internalErr "no Vector")

def step (s : Pool) : Step → Except Failure Pool
  | .new var => pure (s ++ [Vector.new var])
  | .setValue i type val sz => do
    let v ← vectorAt s i
    let v' ← v.setValue type val sz
    pure (s.set i v')
  | .val2buf i val => do
    let v ← vectorAt s i
    let v' ← v.val2buf val
    pure (s.set i v')
  | .reserveValueCapacity i numElements => do
    let v ← vectorAt s i
    pure (s.set i (v.reserveValueCapacity numElements))
  | .setValueSlice i rowMajorData startElement => do
    let v ← vectorAt s i
    let row ← vectorAt s rowMajorData
    let v' ← v.setValueSlice row startElement
    pure (s.set i v')
  | .clearLocalData i => do
    let v ← vectorAt s i
    pure (s.set i v.clearLocalData)
  | .setLength i l => do
    let v ← vectorAt s i
    pure (s.set i (v.setLength l))
  | .setReadP i state => do
    let v ← vectorAt s i
    pure (s.set i { v with readP := state })
  | .ptrDuplicate i => do
    let v ← vectorAt s i
    let copy ← v.duplicate
    pure (s ++ [copy])
  | .assign i rhs => do
    let _ ← vectorAt s i
    let v ← vectorAt s rhs
    if i = rhs then pure s
    else do
      let copy ← v.duplicate
      pure (s.set i copy)

end Libdap.Source.Vectors
