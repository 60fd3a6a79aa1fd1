import Libdap.Source.XDRScalars
import Libdap.Source.XDRStreamUnMarshaller

/-!
# XDRFileUnMarshaller.cc: reading values in XDR from a file

The state is what is left of the file. A get decodes from there, and the XDR library goes on
behind what it used.
-/
namespace Libdap.Source.XDRFileUnMarshaller
open XDR
open XDRStreamUnMarshaller (store dodsMaxArray)

/-- `max_str_len` (Str.h:54). -/
def maxStrLen : Nat := 65534

abbrev Get (α : Type) := EStateM Failure (List UInt8) α

/-- Decode from the file, and go on behind what was used. -/
def decode {α : Type} (routine : List UInt8 → Option (α × Nat)) (notRead : String) : Get α :=
  fun rest =>
    match routine rest with
    | none => .error (.error .unknownError notRead) rest
    | some (val, used) => .ok val (rest.drop used)

def dueToDODS : String :=
  "This may be due to a\nbug in DODS or a problem with the network connection."

def dueToLibdap : String :=
  "This may be due to a\nbug in libdap or a problem with the network connection."

variable (xdr : ScalarRoutines)

def getByte : Get UInt8 :=
  decode xdr.decodeChar ("Network I/O Error. Could not read byte data. " ++ dueToDODS)

/-- A get of a number, into its bytes on the host. -/
def getScalar (t : Coder) (what : String) : Get (List UInt8) :=
  decode (xdr.decodeElement t)
    ("Network I/O Error. Could not read " ++ what ++ " data. " ++ dueToLibdap)

def getInt16 : Get (List UInt8) := getScalar xdr .int16 "int 16"

def getInt32 : Get (List UInt8) := getScalar xdr .int32 "int 32"

def getFloat32 : Get (List UInt8) := getScalar xdr .float32 "float 32"

def getFloat64 : Get (List UInt8) := getScalar xdr .float64 "float 64"

def getUInt16 : Get (List UInt8) := getScalar xdr .uint16 "uint 16"

def getUInt32 : Get (List UInt8) := getScalar xdr .uint32 "uint 32"

/-- A string up to its first null character. -/
def getStr : Get (List UInt8) := do
  let inTmp ← decode (xdr.decodeString maxStrLen)
    ("Network I/O Error. Could not read string data.\n" ++
      "This may be due to a bug in libdap, on the server or a\n" ++
      "problem with the network connection.")
  pure (inTmp.takeWhile (· ≠ 0))

def getUrl : Get (List UInt8) := getStr xdr

/-- What `xdr_opaque` returns is not looked at. -/
def getOpaque (val : List UInt8) (len : Nat) : Get (List UInt8) := fun rest =>
  match xdr.decodeOpaque len rest with
  | none => .ok val rest
  | some (data, used) =>
    match store val (0, data) with
    | .ok val => .ok val (rest.drop used)
    | .error e => .error e rest

def getInt : Get (BitVec 32) :=
  decode xdr.decodeInt
    ("Network I/O Error(1). This may be due to a bug in libdap or a\n" ++
      "problem with the network connection.")

def notPacked : String :=
  "Network I/O error. Could not read packed array data.\n" ++
    "This may be due to a bug in libdap or a problem with\nthe network connection."

/-- `get_vector(char **, unsigned int &, Vector &)`: memory for the bytes is made when there is
none, and for no bytes none is made. -/
def getVectorBytes (val : Option (List UInt8)) : Get (Option (List UInt8) × Nat) := fun rest =>
  match xdr.decodeBytes dodsMaxArray rest with
  | none => .error (.error .unknownError notPacked) rest
  | some (data, used) =>
    if data.length = 0 then .ok (val, 0) (rest.drop used)
    else
      match store (val.getD (List.replicate data.length 0)) (0, data) with
      | .ok val => .ok (some val, data.length) (rest.drop used)
      | .error e => .error e rest

/-- `get_vector(char **, unsigned int &, int, Vector &)`. -/
def getVector (val : Option (List UInt8)) (width : Nat) (type : Coder) :
    Get (Option (List UInt8) × Nat) := fun rest =>
  let decoded := xdr.decodeArray type dodsMaxArray width rest
  let made := decoded.result.elim 0 (·.1 * width)
  match decoded.stores.foldlM store (val.getD (List.replicate made 0)) with
  | .error e => .error e rest
  | .ok target =>
    match decoded.result with
    | none => .error (.error .unknownError notPacked) rest
    | some (num, used) => .ok (if num = 0 then val else some target, num) (rest.drop used)

end Libdap.Source.XDRFileUnMarshaller
