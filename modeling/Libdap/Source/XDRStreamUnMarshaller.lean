import Libdap.Source.XDRUtils

/-!
# XDRStreamUnMarshaller.cc: reading values in XDR

A get reads the bytes of a value into `d_buf`, which all readers share, and decodes from
the position `d_source` has in it. What is read or decoded past the end of a buffer has
no meaning, and neither has an `int` that overflows.
-/
namespace Libdap.Source.XDRStreamUnMarshaller
open XDR

/-- `const int XDR_DAP_BUFF_SIZE = 4096` (XDRStreamUnMarshaller.h:47). -/
def xdrDapBuffSize : Nat := 4096

/-- `DODS_MAX_ARRAY` (Array.h:58). -/
def dodsMaxArray : Nat := 2 ^ 31 - 1

/-- What an `istream` has left, and whether a read came short. -/
structure IStream where
  rest : List UInt8
  failed : Bool
  deriving DecidableEq, Repr

def IStream.read (len : Nat) (dIn : IStream) : List UInt8 × IStream :=
  if dIn.failed then ([], dIn)
  else (dIn.rest.take len, ⟨dIn.rest.drop len, decide (dIn.rest.length < len)⟩)

structure UnMarshaller where
  dIn : IStream
  dBuf : List UInt8
  sized : dBuf.length = xdrDapBuffSize
  position : Nat
  deriving DecidableEq

abbrev Get (α : Type) := EStateM Failure UnMarshaller α

/-- The bytes put from an offset on, all of them inside the target. -/
def overwrite (target : List UInt8) (offset : Nat) (bytes : List UInt8) : List UInt8 :=
  target.take offset ++ bytes ++ target.drop (offset + bytes.length)

theorem overwrite_length {target bytes : List UInt8} {offset : Nat}
    (inside : offset + bytes.length ≤ target.length) :
    (overwrite target offset bytes).length = target.length := by
  simp only [overwrite, List.length_append, List.length_take, List.length_drop]
  omega

/-- A store into memory of the caller. -/
def store (target : List UInt8) (at' : Nat × List UInt8) : Except Failure (List UInt8) :=
  if at'.1 + at'.2.length ≤ target.length then .ok (overwrite target at'.1 at'.2)
  else .error .undefinedBehaviour

/-- An `int` that must not overflow. -/
def checkedInt (value : Int) : Get Int := fun r =>
  if -2 ^ 31 ≤ value ∧ value < 2 ^ 31 then .ok value r else .error .undefinedBehaviour r

/-- `xdr_setpos(&d_source, pos)`. -/
def setpos (pos : Nat) : Get Unit := fun r => .ok () { r with position := pos }

/-- `d_in.read(d_buf + offset, len)`. -/
def readInto (offset len : Nat) : Get Unit := fun r =>
  let (bytes, dIn) := r.dIn.read len
  if inside : offset + bytes.length ≤ r.dBuf.length then
    .ok () { r with
      dIn, dBuf := overwrite r.dBuf offset bytes
      sized := (overwrite_length inside).trans r.sized }
  else .error .undefinedBehaviour { r with dIn }

/-- `d_in.read` into a vector made for the call. -/
def readApart (len : Nat) : Get (List UInt8) := fun r =>
  let (bytes, dIn) := r.dIn.read len
  .ok bytes { r with dIn }

variable (xdr : Routines)

/-- `xdr_int(&d_source, &val)`. -/
def decodeInt : Get (BitVec 32) := fun r =>
  match xdr.decodeInt (r.dBuf.drop r.position) with
  | none => .error (.error .unknownError "Network I/O Error(1).") r
  | some (val, used) => .ok val { r with position := r.position + used }

def getInt : Get (BitVec 32) := do
  setpos 0
  readInto 0 4
  decodeInt xdr

/-- `xdr_opaque(&d_source, val, len)`: what it returns is not looked at. -/
def decodeOpaque (val : List UInt8) (len : Nat) : Get (List UInt8) := fun r =>
  match xdr.decodeOpaque len (r.dBuf.drop r.position) with
  | none => .ok val r
  | some (data, used) =>
    match store val (0, data) with
    | .ok val => .ok val { r with position := r.position + used }
    | .error e => .error e r

def getOpaque (val : List UInt8) (len : BitVec 32) : Get (List UInt8) := do
  setpos 0
  let len := len + (len &&& 3#32)
  if len.toInt > xdrDapBuffSize then
    throw (.error .unknownError "Network I/O Error. Length of opaque data larger than allowed")
  else do
    readInto 0 len.toNat
    decodeOpaque xdr val len.toNat

/-- `xdr_bytes(&d_source, val, &num, DODS_MAX_ARRAY)`: memory for the bytes is made when
there is none, and for no bytes none is made. -/
def decodeBytes (val : Option (List UInt8)) : Get (Option (List UInt8) × Nat) := fun r =>
  match xdr.decodeBytes dodsMaxArray (r.dBuf.drop r.position) with
  | none =>
    .error (.error .unknownError "Network I/O Error. Could not read byte array data.") r
  | some (data, used) =>
    let after := { r with position := r.position + used }
    if data.length = 0 then .ok (val, 0) after
    else
      match store (val.getD (List.replicate data.length 0)) (0, data) with
      | .ok val => .ok (some val, data.length) after
      | .error e => .error e r

/-- `get_vector(char **, unsigned int &, Vector &)`. The long branch reads into a vector
of its own and then decodes from `d_source` all the same (line 271). -/
def getVectorBytes (val : Option (List UInt8)) : Get (Option (List UInt8) × Nat) := do
  let i ← getInt xdr
  let i ← checkedInt (i.toInt + i.toInt % 4)
  let size ← checkedInt (i + 4)
  if size > xdrDapBuffSize then do
    let _ ← readApart i.toNat
    decodeBytes xdr val
  else if i < 0 then throw .undefinedBehaviour
  else do
    readInto 4 i.toNat
    setpos 0
    decodeBytes xdr val

/-- `xdr_array(source, val, &num, DODS_MAX_ARRAY, width, xdr_coder(type))` on the memory
of a stream; the last number is how much of it was used. -/
def decodeArray (val : Option (List UInt8)) (width : Nat) (type : Coder) (mem : List UInt8) :
    Except Failure (Option (List UInt8) × Nat × Nat) := do
  let decoded := xdr.decodeArray type dodsMaxArray width mem
  let made := decoded.result.elim 0 (·.1 * width)
  let target ← decoded.stores.foldlM store (val.getD (List.replicate made 0))
  match decoded.result with
  | none => throw (.error .unknownError "Network I/O Error. Could not read array data.")
  | some (num, used) => return (if num = 0 then val else some target, num, used)

/-- `source` over the vector of the call: the count that was read, then the elements. -/
def decodeApart (val : Option (List UInt8)) (width : Nat) (type : Coder) (size : Nat)
    (bytes : List UInt8) : Get (Option (List UInt8) × Nat) := fun r =>
  let buf := overwrite (List.replicate (size + 4) 0) 0 (r.dBuf.take 4 ++ bytes)
  match decodeArray xdr val width type buf with
  | .ok (val, num, _) => .ok (val, num) r
  | .error e => .error e r

/-- `d_source` over `d_buf`. -/
def decodeShared (val : Option (List UInt8)) (width : Nat) (type : Coder) :
    Get (Option (List UInt8) × Nat) := fun r =>
  match decodeArray xdr val width type (r.dBuf.drop r.position) with
  | .ok (val, num, used) => .ok (val, num) { r with position := r.position + used }
  | .error e => .error e r

/-- `get_vector(char **, unsigned int &, int, Type)`. -/
def getVector (val : Option (List UInt8)) (width : Nat) (type : Coder) :
    Get (Option (List UInt8) × Nat) := do
  let i ← getInt xdr
  let width := width + width % 4
  let size ← checkedInt (i.toInt * width)
  if size > xdrDapBuffSize then do
    let _ ← checkedInt (size + 4)
    let bytes ← readApart size.toNat
    decodeApart xdr val width type size.toNat bytes
  else if size < 0 then throw .undefinedBehaviour
  else do
    readInto 4 size.toNat
    setpos 0
    decodeShared xdr val width type

end Libdap.Source.XDRStreamUnMarshaller
