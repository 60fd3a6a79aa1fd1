import Libdap.Library.Wire
import Libdap.Source.DDSParser
import Libdap.Source.XDRFileUnMarshaller

/-!
# Vector.cc, Constructor.cc, Grid.cc, ResponseBuilder.cc, Connect.cc: the data of a dataset

What the variables have read is there. A selection is taken to hold. The elements of an Array
have the flags of its template, and a vector of the standard library without elements has no
capacity. What nothing is stored into in a new buffer is zero here. What a Sequence writes and
reads is elsewhere; here it is a parameter.
-/
namespace Libdap.Source.DataResponse
open Libdap.Library.Wire Escaping Libdap.Source.Array Declarations XDR
open XDRStreamMarshaller (Put putByte putInt16 putUInt16 putInt32 putUInt32 putFloat32 putFloat64
  putStr putUrl putInt putVectorBytes putVector)
open XDRFileUnMarshaller (Get getByte getInt16 getUInt16 getInt32 getUInt32 getFloat32 getFloat64
  getStr getUrl getInt getVectorBytes getVector)

/-- The values of a variable. -/
inductive Data where
  /-- `d_buf`: the bytes of a number on the host, or the characters of a string. -/
  | value (bytes : List UInt8)
  /-- `_buf` of a Vector. -/
  | buffer (buf : Option (List UInt8))
  /-- `d_str` of a Vector. -/
  | strings (strs : List Text)
  /-- `_vec` of a Vector. -/
  | elements (vec : List Data)
  | members (vars : List Data)
  /-- The rows of a Sequence, each of them its members. -/
  | rows (values : List Data)
  | grid (arrayVar : Data) (mapVars : List Data)

/-- The type of a variable without others in it. -/
def simpleType : Var → Option SimpleType
  | .simple type _ _ => some type
  | _ => none

/-- How a Vector keeps the values of a type. -/
inductive Storage where
  | bytes
  | numbers (type : Coder)
  | strings

def storage : SimpleType → Storage
  | .byte => .bytes
  | .int16 => .numbers .int16
  | .uint16 => .numbers .uint16
  | .int32 => .numbers .int32
  | .uint32 => .numbers .uint32
  | .float32 => .numbers .float32
  | .float64 => .numbers .float64
  | .str | .url => .strings

variable (xdr : ScalarRoutines)

/-! ### Sending -/

/-- `serialize` of the simple types. -/
def putSimple : SimpleType → List UInt8 → Put
  | .byte, [val] => putByte xdr val
  | .byte, _ => throw .undefinedBehaviour
  | .int16, bytes => putInt16 xdr bytes
  | .uint16, bytes => putUInt16 xdr bytes
  | .int32, bytes => putInt32 xdr bytes
  | .uint32, bytes => putUInt32 xdr bytes
  | .float32, bytes => putFloat32 xdr bytes
  | .float64, bytes => putFloat64 xdr bytes
  | .str, bytes => putStr xdr bytes
  | .url, bytes => putUrl xdr bytes

/-- The first `num` values of a loop over a vector. -/
def putFirst {α : Type} (put : α → Put) (num : Nat) (values : List α) : Put :=
  if num ≤ values.length then (values.take num).forM put else throw .undefinedBehaviour

/-- `Vector::serialize` for a template of a simple type. -/
def putSimpleVector (num : Nat) : Storage → Data → Put
  | .bytes, .buffer none => putVectorBytes xdr.toRoutines none
  | .bytes, .buffer (some buf) =>
    if fits : (buf.take num).length < 2 ^ 31 ∧ num ≤ buf.length then
      putVectorBytes xdr.toRoutines (some ⟨buf.take num, fits.1⟩)
    else throw .undefinedBehaviour
  | .numbers type, .buffer buf =>
    putVector xdr.toRoutines buf (BitVec.ofNat 32 num) type.width type
  | .strings, .strings strs =>
    if strs = [] then throw (.internalErr "The capacity of the string vector is 0")
    else do
      putInt xdr.toRoutines (BitVec.ofNat 32 num)
      putFirst (putStr xdr) num strs
  | _, _ => throw .undefinedBehaviour

/-- `Vector::serialize`; a template that is not simple has its own way for each element. -/
def putVectorOf (putElement : Data → Put) (num : Nat) : Option SimpleType → Data → Put
  | some type, data => putSimpleVector xdr num (storage type) data
  | none, .elements vec =>
    if vec = [] then throw (.internalErr "The capacity of *this* vector is 0.")
    else do
      putInt xdr.toRoutines (BitVec.ofNat 32 num)
      putFirst putElement num vec
  | none, _ => throw .undefinedBehaviour

section
variable (putSequence : List Var → Data → Put)

mutual
/-- `serialize`, and the loop over the members that are sent. A Vector has a length by now. -/
def serialize : Var → Data → Put
  | .simple type _ _, .value bytes => putSimple xdr type bytes
  | .array _ _ var dims, data =>
    putVectorOf xdr (serialize var) dims.length.toNat (simpleType var) data
  | .constructor true _ _ vars, data => putSequence vars data
  | .constructor false _ _ vars, .members data => serializeAll vars data
  | .grid _ _ arrayVar mapVars, .grid array maps => do
    if arrayVar.sendP then serialize arrayVar array
    serializeAll mapVars maps
  | _, _ => throw .undefinedBehaviour

def serializeAll : List Var → List Data → Put
  | [], [] => pure ()
  | v :: vars, d :: data => do
    if v.sendP then serialize v d
    serializeAll vars data
  | _, _ => throw .undefinedBehaviour
end

/-- `ResponseBuilder::dataset_constraint`. -/
def datasetConstraint (dds : DDS) (data : List Data) : Put := do
  modify (· ++ (dds.print true ++ bytes "Data:\n"))
  serializeAll xdr putSequence dds.vars data

end

/-! ### Reading -/

/-- `deserialize` of the simple types. -/
def getSimple : SimpleType → Get (List UInt8)
  | .byte => do
    let val ← getByte xdr
    pure [val]
  | .int16 => getInt16 xdr
  | .uint16 => getUInt16 xdr
  | .int32 => getInt32 xdr
  | .uint32 => getUInt32 xdr
  | .float32 => getFloat32 xdr
  | .float64 => getFloat64 xdr
  | .str => getStr xdr
  | .url => getUrl xdr

/-- The count of a Vector; one without a length takes it. -/
def getCount (length : Int) (who : String) : Get Nat := do
  let num ← getInt xdr
  let length := if length = -1 then num else BitVec.ofInt 32 length
  if num ≠ length then
    throw (.internalErr ("The " ++ who ++ " sent declarations and data with mismatched sizes."))
  else pure num.toNat

/-- `Vector::deserialize` for a template of a simple type, of a Vector without values. -/
def getSimpleVector (length : Int) : Storage → Get Data
  | .bytes => do
    let num ← getCount xdr length "server"
    let got ← getVectorBytes xdr (some (List.replicate num 0))
    pure (.buffer got.1)
  | .numbers type => do
    let num ← getCount xdr length "server"
    -- `bytesNeeded` is an `unsigned int`.
    let room := num * type.width % 2 ^ 32
    let got ← getVector xdr (some (List.replicate room 0)) type.width type
    pure (.buffer got.1)
  | .strings => do
    let num ← getCount xdr length "client"
    let strs ← times (getStr xdr) num
    pure (.strings strs)

/-- `Vector::deserialize`. -/
def getVectorOf (getElement : Get Data) (length : Int) : Option SimpleType → Get Data
  | some type => getSimpleVector xdr length (storage type)
  | none => do
    let num ← getCount xdr length "client"
    let vec ← times getElement num
    pure (.elements vec)

section
variable (getSequence : List Var → Get Data)

mutual
def deserialize : Var → Get Data
  | .simple type _ _ => do
    let bytes ← getSimple xdr type
    pure (.value bytes)
  | .array _ _ var dims =>
    getVectorOf xdr (deserialize var) dims.length (simpleType var)
  | .constructor true _ _ vars => getSequence vars
  | .constructor false _ _ vars => do
    let data ← deserializeAll vars
    pure (.members data)
  | .grid _ _ arrayVar mapVars => do
    let array ← deserialize arrayVar
    let maps ← deserializeAll mapVars
    pure (.grid array maps)

def deserializeAll : List Var → Get (List Data)
  | [] => pure []
  | v :: vars => do
    let d ← deserialize v
    let data ← deserializeAll vars
    pure (d :: data)
end

/-- `Connect::process_data` of a response with DAP2 data; none if its text is refused. -/
def processData (garbage : UInt8) (stream : Text) :
    Option (DDS × EStateM.Result Failure Text (List Data)) := do
  let (dds, rest) ← DDSParser.parse garbage stream
  some (dds, deserializeAll xdr getSequence dds.vars rest)

end

end Libdap.Source.DataResponse
