import Libdap.Library.Bytes
import Libdap.Source.Failure

/-!
# DAP4StreamMarshaller.cc: writing DAP4 values, with or without the data

The stream, the digest context and the two flags of the class are the state;
an exception keeps what was written before it. Values are passed as the bytes
they occupy on the host, so the same call writes different bytes on hosts of
different byte order. Reals are IEEE 754 (`is_iec559`), hence bit patterns; the
XDR detour of `m_serialize_reals` for other hosts is not modelled, and the
`EVP_*` calls are taken to succeed.
-/
namespace Libdap.Source.DAP4StreamMarshaller
open Libdap.Library.Bytes

inductive DigestCall where
  | init
  | update (data : List UInt8)
  deriving DecidableEq, Repr

structure Marshaller where
  hostOrder : ByteOrder
  writeData : Bool
  checksumCtxValid : Bool
  out : List UInt8
  digest : List DigestCall
  deriving DecidableEq, Repr

abbrev Put := EStateM Failure Marshaller Unit

/-- The constructor (lines 144-162). -/
def make (hostOrder : ByteOrder) (writeData : Bool) : Marshaller :=
  { hostOrder, writeData, checksumCtxValid := false, out := [], digest := [] }

/-- `d_out.write`. -/
def write (data : List UInt8) : Put := fun m =>
  .ok () { m with out := m.out ++ data }

def whenWriting (action : Put) : Put := fun m =>
  if m.writeData then action m else .ok () m

def resetChecksum : Put := fun m =>
  .ok () { m with digest := m.digest ++ [.init], checksumCtxValid := true }

def checksumUpdate (data : List UInt8) : Put := fun m =>
  if m.checksumCtxValid then .ok () { m with digest := m.digest ++ [.update data] }
  else .error (.internalErr "Invalid checksum context (checksum update).") m

/-- The common body of the scalar writers: digest first, then the guarded write. -/
def putScalar (width : Nat) (val : BitVec n) : Put := fun m =>
  let bytes := store m.hostOrder width val.toNat
  (do checksumUpdate bytes; whenWriting (write bytes)) m

def putByte (val : BitVec 8) : Put := putScalar 1 val
def putInt8 (val : BitVec 8) : Put := putScalar 1 val
def putInt16 (val : BitVec 16) : Put := putScalar 2 val
def putInt32 (val : BitVec 32) : Put := putScalar 4 val
def putInt64 (val : BitVec 64) : Put := putScalar 8 val
def putUInt16 (val : BitVec 16) : Put := putScalar 2 val
def putUInt32 (val : BitVec 32) : Put := putScalar 4 val
def putUInt64 (val : BitVec 64) : Put := putScalar 8 val
def putFloat32 (val : BitVec 32) : Put := putScalar 4 val
def putFloat64 (val : BitVec 64) : Put := putScalar 8 val

/-- The size search of `WriteVarint64ToArrayInline` (lines 83-116). -/
def varintSize (part0 part1 part2 : BitVec 32) : Nat :=
  if part2 = 0 then
    if part1 = 0 then
      if part0.toNat < 2 ^ 14 then (if part0.toNat < 2 ^ 7 then 1 else 2)
      else (if part0.toNat < 2 ^ 21 then 3 else 4)
    else
      if part1.toNat < 2 ^ 14 then (if part1.toNat < 2 ^ 7 then 5 else 6)
      else (if part1.toNat < 2 ^ 21 then 7 else 8)
  else if part2.toNat < 2 ^ 7 then 9 else 10

/-- The bytes `WriteVarint64ToArrayInline` stores from `target` on. The labels
`size10` to `size1` fall through, so size `s` fills `target[0]` to `target[s-1]`. -/
def writeVarint64ToArrayInline (value : BitVec 64) : List UInt8 :=
  let part0 := value.setWidth 32
  let part1 := (value >>> 28).setWidth 32
  let part2 := (value >>> 56).setWidth 32
  let low8 (part : BitVec 32) : UInt8 := UInt8.ofNat (part ||| 0x80#32).toNat
  let size := varintSize part0 part1 part2
  let target := [low8 part0, low8 (part0 >>> 7), low8 (part0 >>> 14), low8 (part0 >>> 21),
    low8 part1, low8 (part1 >>> 7), low8 (part1 >>> 14), low8 (part1 >>> 21),
    low8 part2, low8 (part2 >>> 7)].take size
  target.modify (size - 1) (· &&& 0x7F)

/-- The buffer holds `sizeof(dods_uint64) + 1` bytes; a tenth byte is out of bounds. -/
def putLengthPrefix (val : BitVec 64) : Put :=
  whenWriting fun m =>
    let target := writeVarint64ToArrayInline val
    if target.length ≤ 9 then write target m else .error .undefinedBehaviour m

/-- A `std::string`: its length is below the largest `size_type` it reports. -/
structure StdString where
  bytes : List UInt8
  fits : bytes.length < 2 ^ 63
  deriving DecidableEq

/-- An array passed with its element count in an `unsigned int`. -/
structure Counted (α : Type) where
  elems : List α
  fits : elems.length < 2 ^ 32
  deriving DecidableEq

def putStr (val : StdString) : Put := do
  checksumUpdate val.bytes
  whenWriting do
    putLengthPrefix (BitVec.ofNat 64 val.bytes.length)
    write val.bytes

def putUrl (val : StdString) : Put := putStr val

def putOpaque (val : Counted UInt8) : Put := do
  checksumUpdate val.elems
  whenWriting do
    putLengthPrefix (BitVec.ofNat 64 val.elems.length)
    write val.elems

/-- `put_vector(char *, unsigned int)`: the write is not guarded (lines 446-451). -/
def putVector (val : Counted UInt8) : Put := do
  checksumUpdate val.elems
  write val.elems

def putVaryingVector (val : Counted UInt8) : Put := putOpaque val

inductive ElementWidth where
  | one | two | four | eight
  deriving DecidableEq, Repr

def ElementWidth.bytes : ElementWidth → Nat
  | .one => 1
  | .two => 2
  | .four => 4
  | .eight => 8

/-- `num * width` in the source's `unsigned int` arithmetic. -/
def byteCount (num width : Nat) : Nat := num * width % 2 ^ 32

/-- `put_vector(char *, unsigned int, int, Type)`; `val` is the caller's memory. -/
def putVectorOf (val : List UInt8) (num width : Nat) : Put := do
  checksumUpdate (val.take (byteCount num width))
  whenWriting (write (val.take (byteCount num width)))

def putVaryingVectorOf (val : List UInt8) (num width : Nat) : Put := do
  putLengthPrefix (BitVec.ofNat 64 num)
  putVectorOf val num width

/-- One value as a caller hands it to the marshaller. -/
inductive Datum where
  | byte (val : BitVec 8)
  | int8 (val : BitVec 8)
  | int16 (val : BitVec 16)
  | int32 (val : BitVec 32)
  | int64 (val : BitVec 64)
  | uint16 (val : BitVec 16)
  | uint32 (val : BitVec 32)
  | uint64 (val : BitVec 64)
  | float32 (val : BitVec 32)
  | float64 (val : BitVec 64)
  | str (val : StdString)
  | url (val : StdString)
  | opaqueData (val : Counted UInt8)
  | vector (val : Counted UInt8)
  | varyingVector (val : Counted UInt8)
  | vectorOf (width : ElementWidth) (val : Counted (BitVec (8 * width.bytes)))
  | varyingVectorOf (width : ElementWidth) (val : Counted (BitVec (8 * width.bytes)))
  deriving DecidableEq

/-- A vector's elements as they lie in the host's memory. -/
def memory (order : ByteOrder) (width : ElementWidth) (val : List (BitVec (8 * width.bytes))) :
    List UInt8 :=
  storeAll order width.bytes (val.map BitVec.toNat)

def put : Datum → Put
  | .byte val => putByte val
  | .int8 val => putInt8 val
  | .int16 val => putInt16 val
  | .int32 val => putInt32 val
  | .int64 val => putInt64 val
  | .uint16 val => putUInt16 val
  | .uint32 val => putUInt32 val
  | .uint64 val => putUInt64 val
  | .float32 val => putFloat32 val
  | .float64 val => putFloat64 val
  | .str val => putStr val
  | .url val => putUrl val
  | .opaqueData val => putOpaque val
  | .vector val => putVector val
  | .varyingVector val => putVaryingVector val
  | .vectorOf width val => fun m =>
      putVectorOf (memory m.hostOrder width val.elems) val.elems.length width.bytes m
  | .varyingVectorOf width val => fun m =>
      putVaryingVectorOf (memory m.hostOrder width val.elems) val.elems.length width.bytes m

inductive Call where
  | resetChecksum
  | put (datum : Datum)
  deriving DecidableEq

def call : Call → Put
  | .resetChecksum => resetChecksum
  | .put datum => put datum

/-- Calls in order; an exception ends the run. -/
def run : List Call → Put
  | [] => pure ()
  | c :: rest => do call c; run rest

end Libdap.Source.DAP4StreamMarshaller
