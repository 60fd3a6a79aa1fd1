import Libdap.Library.ExternalData
import Libdap.Source.Failure

/-!
# XDRUtils.cc and the XDR library under the stream marshallers

The routines of the XDR library are not in the repository. They are taken as functions
of the memory of their stream, from its position on, and `Documented` says what the
manual of the library and RFC 4506 promise about them. `none` is the library's FALSE.
-/
namespace Libdap.Source.XDR
open Libdap.Library.ExternalData

/-- The types for which `xdr_coder` returns a routine (XDRUtils.cc:143-182). -/
inductive Coder where
  | int16 | uint16 | int32 | uint32 | float32 | float64
  deriving DecidableEq, Repr

/-- `width()` of the type: the bytes of a value on the host. -/
def Coder.width : Coder → Nat
  | .int16 | .uint16 => 2
  | .int32 | .uint32 | .float32 => 4
  | .float64 => 8

/-- The bytes of a value on the stream. -/
def Coder.wire : Coder → Nat
  | .float64 => 8
  | _ => 4

/-- What `xdr_array` did to the memory of the caller, byte offset by byte offset, and on
success the number of elements with the bytes of the stream used up. -/
structure ArrayDecoded where
  stores : List (Nat × List UInt8)
  result : Option (Nat × Nat)
  deriving DecidableEq, Repr

structure Routines where
  encodeInt : BitVec 32 → List UInt8
  decodeInt : List UInt8 → Option (BitVec 32 × Nat)
  encodeOpaque : List UInt8 → List UInt8
  decodeOpaque : (cnt : Nat) → List UInt8 → Option (List UInt8 × Nat)
  encodeBytes : (maxsize : Nat) → List UInt8 → Option (List UInt8)
  decodeBytes : (maxsize : Nat) → List UInt8 → Option (List UInt8 × Nat)
  encodeElement : Coder → List UInt8 → List UInt8
  encodeArray : Coder → (maxsize elsize : Nat) → List (List UInt8) → Option (List UInt8)
  decodeArray : Coder → (maxsize elsize : Nat) → List UInt8 → ArrayDecoded

structure Routines.Documented (xdr : Routines) : Prop where
  encodeInt_eq : ∀ v, xdr.encodeInt v = unsigned v.toNat
  decodeInt_eq : ∀ v more, xdr.decodeInt (unsigned v.toNat ++ more) = some (v, 4)
  encodeOpaque_eq : ∀ data, xdr.encodeOpaque data = opaqueData data
  decodeOpaque_eq : ∀ cnt mem, rounded cnt ≤ mem.length →
    xdr.decodeOpaque cnt mem = some (mem.take cnt, rounded cnt)
  encodeBytes_eq : ∀ maxsize data, data.length ≤ maxsize →
    xdr.encodeBytes maxsize data = some (countedData data)
  decodeBytes_eq : ∀ maxsize cnt mem, cnt < 2 ^ 32 → cnt ≤ maxsize → rounded cnt ≤ mem.length →
    xdr.decodeBytes maxsize (unsigned cnt ++ mem) = some (mem.take cnt, 4 + rounded cnt)
  /-- Nothing is decoded that is not in the memory of the stream. -/
  decodeBytes_within : ∀ maxsize mem data used,
    xdr.decodeBytes maxsize mem = some (data, used) → 4 + data.length ≤ mem.length
  encodeElement_length : ∀ t (v : List UInt8), v.length = t.width → (xdr.encodeElement t v).length = t.wire
  encodeArray_eq : ∀ t maxsize elsize elems, elems.length ≤ maxsize →
    elems.length * elsize < 2 ^ 32 →
    xdr.encodeArray t maxsize elsize elems = some (countedArray (elems.map (xdr.encodeElement t)))
  encodeArray_only : ∀ t maxsize elsize elems bytes,
    xdr.encodeArray t maxsize elsize elems = some bytes →
    bytes = countedArray (elems.map (xdr.encodeElement t))
  /-- Element `j` goes to byte offset `j * elsize` of the target. -/
  decodeArray_eq : ∀ t maxsize elsize (elems : List (List UInt8)) more, (∀ v ∈ elems, v.length = t.width) →
    elems.length ≤ maxsize → elems.length < 2 ^ 32 → elems.length * elsize < 2 ^ 32 →
    xdr.decodeArray t maxsize elsize (countedArray (elems.map (xdr.encodeElement t)) ++ more) =
      ⟨elems.mapIdx fun j v => (j * elsize, v), some (elems.length, 4 + elems.length * t.wire)⟩

theorem Coder.wire_eq (t : Coder) : t.wire = t.width + t.width % 4 := by
  cases t <;> rfl

theorem Coder.wire_cases (t : Coder) : t.wire = 4 ∨ t.wire = 8 := by
  cases t <;> simp [Coder.wire]

theorem Coder.width_cases (t : Coder) : t.width = 2 ∧ t.wire = 4 ∨ t.width = t.wire := by
  cases t <;> simp [Coder.wire, Coder.width]

end Libdap.Source.XDR
