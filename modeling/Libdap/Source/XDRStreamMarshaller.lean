import Libdap.Source.XDRUtils

/-!
# XDRStreamMarshaller.cc: writing values in XDR

The state is what has been written to `d_out`. A put encodes into memory, the 256 bytes
of `d_buf` or a vector made for the call, and then writes what was encoded; the library
refuses what does not fit. `set_position` failures cannot happen on a memory stream.
-/
namespace Libdap.Source.XDRStreamMarshaller
open XDR

/-- `#define XDR_DAP_BUFF_SIZE 256` (line 53). -/
def xdrDapBuffSize : Nat := 256

abbrev Put := EStateM Failure (List UInt8) Unit

/-- Encode into a memory stream of `size` bytes, ask for the position and write. -/
def send (size : Nat) (encoded : Option (List UInt8)) (notSent noPosition : String) : Put :=
  fun out =>
    match encoded with
    | none => .error (.error .unknownError notSent) out
    | some bytes =>
      if size < bytes.length then .error (.error .unknownError notSent) out
      else if bytes.length = 0 then .error (.error .unknownError noPosition) out
      else .ok () (out ++ bytes)

def dueToDODS : String :=
  "This may be due to a bug in DODS, on the server or a\nproblem with the network connection."

def dueToLibdap : String :=
  "This may be due to a bug in libdap or a\nproblem with the network connection."

/-- An array passed with its element count in an `int`. -/
structure IntCounted where
  elems : List UInt8
  fits : elems.length < 2 ^ 31
  deriving DecidableEq

variable (xdr : Routines)

def putInt (val : BitVec 32) : Put :=
  send xdrDapBuffSize (some (xdr.encodeInt val))
    ("Network I/O Error(1). Could not send int data.\n" ++ dueToLibdap)
    ("Network I/O Error. Could not send int data - unable to get stream position.\n" ++ dueToDODS)

def putOpaque (val : List UInt8) : Put :=
  if xdrDapBuffSize < val.length then
    throw (.error .unknownError
      "Network I/O Error. Could not send opaque data - length of opaque data larger than allowed")
  else
    send xdrDapBuffSize (some (xdr.encodeOpaque val))
      ("Network I/O Error. Could not send opaque data.\n" ++
        "This may be due to a bug in libdap, on the server or a\n" ++
        "problem with the network connection.")
      ("Network I/O Error. Could not send opaque data - unable to get stream position.\n" ++
        dueToDODS)

/-- `put_vector(char *, int, Vector &)`. -/
def putVectorBytes (val : Option IntCounted) : Put :=
  match val with
  | none =>
    throw (.internalErr "Could not send byte vector data. Buffer pointer is not set.")
  | some val => do
    putInt xdr (BitVec.ofNat 32 val.elems.length)
    let addTo := 8
    let size := val.elems.length + addTo
    send size (xdr.encodeBytes size val.elems)
      ("Network I/O Error(2). Could not send byte vector data.\n" ++ dueToLibdap)
      ("Network I/O Error. Could not send byte vector data - unable to get stream position.\n" ++
        dueToDODS)

/-- `put_vector(char *, unsigned int, int, Type)`. `size` is computed in 32 bits and a
vector refuses a negative one. -/
def putVector (val : Option (List UInt8)) (num : BitVec 32) (width : Nat) (type : Coder) : Put :=
  match val with
  | none => throw (.internalErr "Buffer pointer is not set.")
  | some val => do
    putInt xdr num
    let useWidth := if width < 4 then 4 else width
    let size := num * BitVec.ofNat 32 useWidth + 4#32
    if size.toInt < 0 then throw .lengthError
    send size.toNat
      (xdr.encodeArray type size.toNat width (Library.Bytes.pieces width num.toNat val))
      ("Network I/O Error(2). Could not send vector data.\n" ++ dueToLibdap)
      ("Network I/O Error. Could not send vector data - unable to get stream position.\n" ++
        dueToDODS)

end Libdap.Source.XDRStreamMarshaller
