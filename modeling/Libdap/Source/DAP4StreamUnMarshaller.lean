import Libdap.Source.DAP4StreamMarshaller

/-!
# DAP4StreamUnMarshaller.cc: reading DAP4 values back, receiver makes right

The stream position is the list of bytes not yet read. A read past the end
throws because the constructor turns stream failures into exceptions. Values
come off the stream in the host's order and are byte-swapped when the stream
was written under the other one.
-/
namespace Libdap.Source.DAP4StreamUnMarshaller
open Libdap.Library.Bytes
open DAP4StreamMarshaller (ElementWidth Datum byteCount)

structure UnMarshaller where
  hostOrder : ByteOrder
  twiddleBytes : Bool
  input : List UInt8
  deriving DecidableEq, Repr

abbrev Get (α : Type) := EStateM Failure UnMarshaller α

/-- The constructor (lines 65-94). -/
def make (hostOrder : ByteOrder) (isStreamBigEndian : Bool) (input : List UInt8) : UnMarshaller :=
  let isHostBigEndian := hostOrder = .big
  { hostOrder, input,
    twiddleBytes := !(isHostBigEndian && isStreamBigEndian ||
      !isHostBigEndian && !isStreamBigEndian) }

/-- `d_in.read`. -/
def read (len : Nat) : Get (List UInt8) := fun r =>
  if len ≤ r.input.length then
    .ok (r.input.take len) { r with input := r.input.drop len }
  else .error .streamFailure { r with input := [] }

/-- The functions of byteswap.h: the argument with its bytes in reversed order. -/
def bswap16 (x : BitVec 16) : BitVec 16 := BitVec.ofNat 16 (byteReverse 2 x.toNat)
def bswap32 (x : BitVec 32) : BitVec 32 := BitVec.ofNat 32 (byteReverse 4 x.toNat)
def bswap64 (x : BitVec 64) : BitVec 64 := BitVec.ofNat 64 (byteReverse 8 x.toNat)

/-- The common body of the scalar readers. -/
def getScalar (width bits : Nat) (twiddle : BitVec bits → BitVec bits) : Get (BitVec bits) := do
  let bytes ← read width
  fun r =>
    let val := BitVec.ofNat bits (load r.hostOrder bytes)
    .ok (if r.twiddleBytes then twiddle val else val) r

def getByte : Get (BitVec 8) := getScalar 1 8 id
def getInt8 : Get (BitVec 8) := getScalar 1 8 id
def getInt16 : Get (BitVec 16) := getScalar 2 16 bswap16
def getInt32 : Get (BitVec 32) := getScalar 4 32 bswap32
def getInt64 : Get (BitVec 64) := getScalar 8 64 bswap64
def getUInt16 : Get (BitVec 16) := getScalar 2 16 bswap16
def getUInt32 : Get (BitVec 32) := getScalar 4 32 bswap32
def getUInt64 : Get (BitVec 64) := getScalar 8 64 bswap64
def getFloat32 : Get (BitVec 32) := getScalar 4 32 bswap32

/-- `*i = bswap_32(*i)` on a `dods_int64` (lines 179-182): the argument is cut to
32 bits and the result extended back. -/
def twiddleFloat64 (val : BitVec 64) : BitVec 64 := (bswap32 (val.setWidth 32)).setWidth 64

def getFloat64 : Get (BitVec 64) := getScalar 8 64 twiddleFloat64

/-- `(b & 0x7f) << shift`, converted to 64 bits. The shifted operand is an `int`:
the low 32 bits are kept and extended by sign, and a shift by 32 or more has no
meaning. -/
def shiftedPayload (b : UInt8) (shift : Nat) : Option (BitVec 64) :=
  if shift < 32 then
    some ((BitVec.ofNat 32 (b &&& 0x7F).toNat <<< shift).signExtend 64)
  else none

/-- The loop of `get_length_prefix`, byte number `count`. -/
def lengthPrefixLoop (count : Nat) (result : BitVec 64) :
    List UInt8 → Except Failure (BitVec 64 × List UInt8)
  | [] => .error .streamFailure
  | b :: rest =>
    match shiftedPayload b (7 * count) with
    | none => .error .undefinedBehaviour
    | some v =>
      if b &&& 0x80 ≠ 0 then lengthPrefixLoop (count + 1) (result + v) rest
      else .ok (result + v, rest)

def getLengthPrefix : Get (BitVec 64) := fun r =>
  match lengthPrefixLoop 0 0 r.input with
  | .ok (result, rest) => .ok result { r with input := rest }
  | .error e => .error e r

/-- `vector<char> raw(len + 1)` with a signed 64-bit `len` (lines 242-251). -/
def getStr : Get (List UInt8) := do
  let len ← getLengthPrefix
  if len.toInt < 0 then throw .lengthError
  read len.toNat

def getUrl : Get (List UInt8) := getStr

/-- `get_opaque(char *, unsigned int)`: the count is known and must agree. -/
def getOpaqueKnown (len : Nat) : Get (List UInt8) := do
  let rlen ← getLengthPrefix
  if (len : Int) ≠ rlen.toInt then
    throw (.error .unknownError ("Expected opaque data of " ++ toString len ++
      " bytes, but got " ++ toString rlen.toInt ++ " instead."))
  read len

/-- `get_opaque(char **, unsigned int &)`: the prefix is cut to 32 bits. -/
def getOpaque : Get (List UInt8) := do
  let len ← getLengthPrefix
  read (len.setWidth 32).toNat

def getVector (num : Nat) : Get (List UInt8) := read num

def getVaryingVector : Get (List UInt8) := getOpaque

/-- One element of memory swapped in place. -/
def twiddleElement (order : ByteOrder) (width : Nat) (piece : List UInt8) : List UInt8 :=
  store order width (byteReverse width (load order piece))

/-- `m_twidle_vector_elements`: only words of 2, 4 and 8 bytes are known, and
`num` of them must lie in the buffer. -/
def twiddleVectorElements (order : ByteOrder) (vals : List UInt8) (num width : Nat) :
    Except Failure (List UInt8) :=
  if width = 2 ∨ width = 4 ∨ width = 8 then
    if num * width ≤ vals.length then
      .ok ((pieces width num vals).flatMap (twiddleElement order width) ++
        vals.drop (num * width))
    else .error .undefinedBehaviour
  else .error (.internalErr "Unrecognized word size.")

def whenTwiddling (vals : List UInt8) (num width : Nat) : Get (List UInt8) := fun r =>
  if r.twiddleBytes then
    match twiddleVectorElements r.hostOrder vals num width with
    | .ok swapped => .ok swapped r
    | .error e => .error e r
  else .ok vals r

/-- `get_vector(char *, unsigned int, int, Type)`; `val` is the caller's memory
before the call. -/
def getVectorOf (val : List UInt8) (num width : Nat) : Get (List UInt8) := do
  let bytes ← read (byteCount num width)
  whenTwiddling (bytes ++ val.drop (byteCount num width)) num width

/-- `int size = num * width; *val = new char[size]`: a size that is negative as an
`int` is refused by `new`. The result is the count and the new buffer. -/
def getVaryingVectorOf (width : Nat) : Get (Nat × List UInt8) := do
  let len ← getLengthPrefix
  let num := (len.setWidth 32).toNat
  let size := byteCount num width
  if 2 ^ 31 ≤ size then throw .lengthError
  let bytes ← read size
  let vals ← whenTwiddling bytes num width
  pure (num, vals)

/-- What a reader asks for. -/
inductive Request where
  | byte | int8 | int16 | int32 | int64
  | uint16 | uint32 | uint64
  | float32 | float64
  | str | url
  | opaqueKnown (len : Nat)
  | opaqueData
  | vector (num : Nat)
  | varyingVector
  | vectorOf (width : ElementWidth) (num : Nat) (val : List UInt8)
  | varyingVectorOf (width : ElementWidth)
  deriving DecidableEq

/-- What a reader obtains. -/
inductive Value where
  | scalar (bits : Nat) (val : BitVec bits)
  | bytes (val : List UInt8)
  | elements (width : ElementWidth) (val : List (BitVec (8 * width.bytes)))
  deriving DecidableEq

/-- The caller reads `num` elements out of the buffer it was given. -/
def elementsOf (width : ElementWidth) (num : Nat) (vals : List UInt8) : Get Value := fun r =>
  if num * width.bytes ≤ vals.length then
    .ok (.elements width ((pieces width.bytes num vals).map fun piece =>
      BitVec.ofNat _ (load r.hostOrder piece))) r
  else .error .undefinedBehaviour r

def get : Request → Get Value
  | .byte => do return .scalar 8 (← getByte)
  | .int8 => do return .scalar 8 (← getInt8)
  | .int16 => do return .scalar 16 (← getInt16)
  | .int32 => do return .scalar 32 (← getInt32)
  | .int64 => do return .scalar 64 (← getInt64)
  | .uint16 => do return .scalar 16 (← getUInt16)
  | .uint32 => do return .scalar 32 (← getUInt32)
  | .uint64 => do return .scalar 64 (← getUInt64)
  | .float32 => do return .scalar 32 (← getFloat32)
  | .float64 => do return .scalar 64 (← getFloat64)
  | .str => do return .bytes (← getStr)
  | .url => do return .bytes (← getUrl)
  | .opaqueKnown len => do return .bytes (← getOpaqueKnown len)
  | .opaqueData => do return .bytes (← getOpaque)
  | .vector num => do return .bytes (← getVector num)
  | .varyingVector => do return .bytes (← getVaryingVector)
  | .vectorOf width num val => do
      let vals ← getVectorOf val num width.bytes
      elementsOf width num vals
  | .varyingVectorOf width => do
      let (num, vals) ← getVaryingVectorOf width.bytes
      elementsOf width num vals

def getAll : List Request → Get (List Value)
  | [] => pure []
  | q :: rest => do
      let v ← get q
      let vs ← getAll rest
      pure (v :: vs)

end Libdap.Source.DAP4StreamUnMarshaller
