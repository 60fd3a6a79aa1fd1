import Libdap.Source.XDRFileUnMarshaller

/-!
# XDRFileMarshaller.cc: writing values in XDR to a file

The state is what the file has. The XDR library encodes straight into it, without the buffer
of the marshaller for a stream.
-/
namespace Libdap.Source.XDRFileMarshaller
open XDR
open XDRStreamMarshaller (Put IntCounted dueToDODS dueToLibdap dueToServer notSentToDODS
  notSentUnsigned)
open XDRStreamUnMarshaller (dodsMaxArray)
open XDRFileUnMarshaller (maxStrLen)

/-- Encode to the end of the file. -/
def encode (encoded : Option (List UInt8)) (notSent : String) : Put := fun out =>
  match encoded with
  | none => .error (.error .unknownError notSent) out
  | some bytes => .ok () (out ++ bytes)

variable (xdr : ScalarRoutines)

def putByte (val : UInt8) : Put := encode (some (xdr.encodeChar val)) (notSentToDODS "byte")

/-- A put of a number, from its bytes on the host. -/
def putScalar (t : Coder) (notSent : String) (val : List UInt8) : Put :=
  encode (some (xdr.encodeElement t val)) notSent

def putInt16 : List UInt8 → Put :=
  putScalar xdr .int16 ("Network I/O Error. Could not send int 16 data.\n" ++ dueToServer)

def putInt32 : List UInt8 → Put :=
  putScalar xdr .int32 ("Network I/O Error. Could not read int 32 data.\n" ++ dueToServer)

def putFloat32 : List UInt8 → Put :=
  putScalar xdr .float32 ("Network I/O Error. Could not send float 32 data.\n" ++ dueToServer)

def putFloat64 : List UInt8 → Put :=
  putScalar xdr .float64 ("Network I/O Error. Could not send float 64 data.\n" ++ dueToServer)

def putUInt16 : List UInt8 → Put := putScalar xdr .uint16 (notSentUnsigned "uint 16")

def putUInt32 : List UInt8 → Put := putScalar xdr .uint32 (notSentUnsigned "uint 32")

/-- The characters of `c_str()`. -/
def putStr (val : List UInt8) : Put :=
  encode (xdr.encodeString maxStrLen (val.takeWhile (· ≠ 0)))
    ("Network I/O Error. Could not send string data.\n" ++ dueToServer)

def putUrl (val : List UInt8) : Put := putStr xdr val

def putOpaque (val : List UInt8) : Put :=
  encode (some (xdr.encodeOpaque val))
    ("Network I/O Error. Could not send opaque data.\n" ++ dueToServer)

def putInt (val : BitVec 32) : Put :=
  encode (some (xdr.encodeInt val)) ("Network I/O Error(1). " ++ dueToLibdap)

/-- `put_vector(char *, int, Vector &)`. -/
def putVectorBytes (val : Option IntCounted) : Put :=
  match val with
  | none => throw (.internalErr "Buffer pointer is not set.")
  | some val => do
    putInt xdr (BitVec.ofNat 32 val.elems.length)
    encode (xdr.encodeBytes dodsMaxArray val.elems) ("Network I/O Error(2). " ++ dueToLibdap)

/-- `put_vector(char *, int, int, Vector &)`. -/
def putVector (val : Option (List UInt8)) (num : BitVec 32) (width : Nat) (type : Coder) : Put :=
  match val with
  | none => throw (.internalErr "Buffer pointer is not set.")
  | some val => do
    putInt xdr num
    encode (xdr.encodeArray type dodsMaxArray width (Library.Bytes.pieces width num.toNat val))
      ("Network I/O Error(2). " ++ dueToLibdap)

end Libdap.Source.XDRFileMarshaller
