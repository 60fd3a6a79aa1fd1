import Libdap.Source.XDRStreamMarshaller

/-!
# XDRStreamMarshaller.cc: single values

The routines of the XDR library for a value of its own, and the puts that use them.
-/
namespace Libdap.Source.XDR
open Libdap.Library.ExternalData

/-- The routines for a value of its own. A string has no null character. -/
structure ScalarRoutines extends Routines where
  encodeChar : UInt8 → List UInt8
  decodeChar : List UInt8 → Option (UInt8 × Nat)
  decodeElement : Coder → List UInt8 → Option (List UInt8 × Nat)
  encodeString : (maxsize : Nat) → List UInt8 → Option (List UInt8)
  decodeString : (maxsize : Nat) → List UInt8 → Option (List UInt8 × Nat)

structure ScalarRoutines.Documented (xdr : ScalarRoutines) : Prop
    extends Routines.Documented xdr.toRoutines where
  encodeChar_length : ∀ c, (xdr.encodeChar c).length = 4
  decodeChar_eq : ∀ c more, xdr.decodeChar (xdr.encodeChar c ++ more) = some (c, 4)
  decodeElement_eq : ∀ t v more, v.length = t.width →
    xdr.decodeElement t (xdr.encodeElement t v ++ more) = some (v, t.wire)
  encodeString_eq : ∀ maxsize s, s.length ≤ maxsize →
    xdr.encodeString maxsize s = some (countedData s)
  decodeString_eq : ∀ maxsize s more, s.length ≤ maxsize → s.length < 2 ^ 32 →
    xdr.decodeString maxsize (countedData s ++ more) = some (s, 4 + rounded s.length)

end Libdap.Source.XDR

namespace Libdap.Source.XDRStreamMarshaller
open XDR

variable (xdr : ScalarRoutines)

def notSentToDODS (what : String) : String :=
  "Network I/O Error. Could not send " ++ what ++ " data.\n" ++ dueToDODS

/-- The text of some of the puts. -/
def dueToServer : String :=
  "This may be due to a bug in libdap, on the server or a\nproblem with the network connection."

def noPosition (what : String) : String :=
  "Network I/O Error. Could not send " ++ what ++ " data - unable to get stream position.\n" ++
    dueToDODS

def putByte (val : UInt8) : Put :=
  send xdrDapBuffSize (some (xdr.encodeChar val)) (notSentToDODS "byte") (noPosition "byte")

/-- A put of a number, from its bytes on the host. -/
def putScalar (t : Coder) (notSent what : String) (val : List UInt8) : Put :=
  send xdrDapBuffSize (some (xdr.encodeElement t val)) notSent (noPosition what)

def putInt16 : List UInt8 → Put :=
  putScalar xdr .int16 ("Network I/O Error. Could not send int 16 data.\n" ++ dueToServer) "int 16"

def putInt32 : List UInt8 → Put :=
  putScalar xdr .int32 ("Network I/O Error. Culd not read int 32 data.\n" ++ dueToServer) "int 32"

def putFloat32 : List UInt8 → Put :=
  putScalar xdr .float32 ("Network I/O Error. Could not send float 32 data.\n" ++ dueToServer)
    "float 32"

def putFloat64 : List UInt8 → Put :=
  putScalar xdr .float64 ("Network I/O Error. Could not send float 64 data.\n" ++ dueToServer)
    "float 64"

/-- The text of the unsigned puts. -/
def notSentUnsigned (what : String) : String :=
  "Network I/O Error. Could not send " ++ what ++
    " data. This may be due to a\nbug in libdap or a problem with the network connection."

def putUInt16 : List UInt8 → Put := putScalar xdr .uint16 (notSentUnsigned "uint 16") "uint 16"

def putUInt32 : List UInt8 → Put := putScalar xdr .uint32 (notSentUnsigned "uint 32") "uint 32"

/-- The characters of `c_str()`, into a vector made for the call. -/
def putStr (val : List UInt8) : Put :=
  let size := val.length + 8
  send size (xdr.encodeString size (val.takeWhile (· ≠ 0)))
    ("Network I/O Error. Could not send string data.\n" ++ dueToServer) (noPosition "string")

def putUrl (val : List UInt8) : Put := putStr xdr val

end Libdap.Source.XDRStreamMarshaller
