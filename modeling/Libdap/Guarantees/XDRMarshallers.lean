import Libdap.Guarantees.XDRFile
import Libdap.Source.XDRFileMarshaller

/-!
# The two marshallers write the same

The one for a stream encodes into a buffer that may be too small; the one for a file does
without. What the first writes the second writes, but for strings beyond its limit.
-/
namespace Libdap.Guarantees.XDRMarshallers
open Libdap.Library Libdap.Library.ExternalData
open Libdap.Source Libdap.Source.XDR Libdap.Source.Declarations Libdap.Source.DataResponse
open Libdap.Source.XDRStreamMarshaller (send IntCounted Put)
open Libdap.Source.XDRFileMarshaller
open Libdap.Source.XDRFileUnMarshaller (maxStrLen)
open Libdap.Source.XDRStreamUnMarshaller (dodsMaxArray)
open Libdap.Guarantees.XDRVectors
open Libdap.Guarantees.XDRFile (Item referenceScalars referenceScalars_documented)

variable (xdr : ScalarRoutines)

/-- A put of a simple type to the file. -/
def putSimple : SimpleType → List UInt8 → Put
  | .byte, [val] => putByte xdr val
  | .byte, _ => throw .undefinedBehaviour
  | .int16, bytes => putInt16 xdr bytes
  | .uint16, bytes => putUInt16 xdr bytes
  | .int32, bytes => putInt32 xdr bytes
  | .uint32, bytes => putUInt32 xdr bytes
  | .float32, bytes => putFloat32 xdr bytes
  | .float64, bytes => putFloat64 xdr bytes
  | .str, bytes => putStr xdr bytes
  | .url, bytes => putUrl xdr bytes

/-- The put of an item to the file. -/
def putItem : Item → Put
  | .simple type val => putSimple xdr type val
  | .int val => putInt xdr val
  | .opaqueBytes val => putOpaque xdr val
  | .bytes val => putVectorBytes xdr (some val)
  | .vector t val =>
    putVector xdr (some val.elems.flatten) (BitVec.ofNat 32 val.elems.length) t.width t

/-- A string is within the limit for a file. -/
def Short : Item → Prop
  | .simple .str val | .simple .url val => (val.takeWhile (· ≠ 0)).length ≤ maxStrLen
  | _ => True

variable {xdr} {out out' : List UInt8}

theorem encode_of_send {size : Nat} {encoded : Option (List UInt8)} {notSent noPosition : String}
    (done : send size encoded notSent noPosition out = .ok () out') (notSent' : String) :
    encode encoded notSent' out = .ok () out' := by
  unfold send at done
  cases encoded with
  | none => cases done
  | some bytes =>
    simp only at done
    split at done
    · cases done
    · split at done
      · cases done
      · exact done

theorem putByte_same {val : UInt8} (done : XDRStreamMarshaller.putByte xdr val out = .ok () out') :
    putByte xdr val out = .ok () out' := encode_of_send done _

theorem putScalar_same {t : Coder} {notSent what : String} {val : List UInt8}
    (done : XDRStreamMarshaller.putScalar xdr t notSent what val out = .ok () out')
    (notSent' : String) : encode (some (xdr.encodeElement t val)) notSent' out = .ok () out' :=
  encode_of_send done notSent'

theorem putInt_same {val : BitVec 32}
    (done : XDRStreamMarshaller.putInt xdr.toRoutines val out = .ok () out') :
    putInt xdr val out = .ok () out' := encode_of_send done _

theorem putStr_same (documented : xdr.Documented) {val : List UInt8}
    (short : (val.takeWhile (· ≠ 0)).length ≤ maxStrLen)
    (done : XDRStreamMarshaller.putStr xdr val out = .ok () out') :
    putStr xdr val out = .ok () out' := by
  have less := (List.takeWhile_sublist (l := val) (fun c : UInt8 => decide (c ≠ 0))).length_le
  have room := documented.encodeString_eq (val.length + 8) (val.takeWhile (· ≠ 0)) (by omega)
  have same := documented.encodeString_eq maxStrLen (val.takeWhile (· ≠ 0)) short
  simp only [XDRStreamMarshaller.putStr, room] at done
  unfold putStr
  rw [same]
  exact encode_of_send done _

theorem putVectorBytes_same (documented : xdr.Documented) (val : IntCounted)
    (done : XDRStreamMarshaller.putVectorBytes xdr.toRoutines (some val) out = .ok () out') :
    putVectorBytes xdr (some val) out = .ok () out' := by
  have room := documented.encodeBytes_eq (val.elems.length + 8) val.elems (by omega)
  have same := documented.encodeBytes_eq dodsMaxArray val.elems
    (Nat.le_sub_one_of_lt val.fits)
  obtain ⟨_, middle, count, bytes⟩ := bind_returned done
  have first : putInt xdr (BitVec.ofNat 32 val.elems.length) out = .ok () middle :=
    putInt_same count
  simp only [room] at bytes
  simp only [putVectorBytes, same]
  rw [call_ok first]
  exact encode_of_send bytes _

theorem putVector_same (documented : xdr.Documented) {t : Coder} (val : NumericVector t)
    (done : XDRStreamMarshaller.putVector xdr.toRoutines (some val.elems.flatten)
      (BitVec.ofNat 32 val.elems.length) t.width t out = .ok () out') :
    putVector xdr (some val.elems.flatten) (BitVec.ofNat 32 val.elems.length) t.width t out =
      .ok () out' := by
  have small := putVector_fits_only documented.toDocumented val done
  have narrow : val.elems.length * t.width ≤ onStream val :=
    Nat.mul_le_mul_left _ (width_le_wire t)
  have same := documented.encodeArray_eq t dodsMaxArray t.width val.elems
    (Nat.le_sub_one_of_lt val.fits) (by omega)
  have cut := pieces_flatten val.wide []
  rw [List.append_nil] at cut
  have written := putVector_fits documented.toDocumented val small out
  rw [written] at done
  cases done
  have count : putInt xdr (BitVec.ofNat 32 val.elems.length) out =
      .ok () (out ++ unsigned val.elems.length) := by
    simp only [putInt, encode, documented.encodeInt_eq, count_toNat val.fits]
  simp only [putVector, count_toNat val.fits, cut, same]
  rw [call_ok count]
  simp only [encode, sentArray, List.append_assoc]

theorem putItem_same (documented : xdr.Documented) {i : Item} (short : Short i)
    (done : i.put xdr out = .ok () out') : putItem xdr i out = .ok () out' := by
  cases i with
  | simple type val =>
    cases type with
    | byte =>
      cases val with
      | nil => cases done
      | cons c val =>
        cases val with
        | nil => exact putByte_same done
        | cons c' val => cases done
    | str => exact putStr_same documented short done
    | url => exact putStr_same documented short done
    | _ =>
      simp only [putItem, putSimple, putInt16, putUInt16, putInt32, putUInt32, putFloat32,
        putFloat64, putScalar]
      exact putScalar_same done _
  | int val => exact putInt_same done
  | opaqueBytes val =>
    have done' : XDRStreamMarshaller.putOpaque xdr.toRoutines val out = .ok () out' := done
    unfold XDRStreamMarshaller.putOpaque at done'
    split at done'
    · cases done'
    · simp only [putItem, putOpaque]
      exact encode_of_send done' _
  | bytes val => exact putVectorBytes_same documented val done
  | vector t val => exact putVector_same documented val done

/-- Whatever is put on a stream without an error leaves the same bytes in a file. -/
theorem marshallers_agree (documented : xdr.Documented) {items : List Item}
    (short : ∀ i ∈ items, Short i) (done : items.forM (Item.put xdr) out = .ok () out') :
    items.forM (putItem xdr) out = .ok () out' := by
  induction items generalizing out with
  | nil => exact done
  | cons i items ih =>
    obtain ⟨_, middle, first, later⟩ := bind_returned done
    have same := putItem_same documented (short i List.mem_cons_self) first
    exact (call_ok same).trans (ih (fun j mem => short j (List.mem_cons_of_mem i mem)) later)

/-- A string, two characters of opaque data and two numbers. -/
def fourItems : List Item :=
  [.simple .str [104, 105], .opaqueBytes [1, 2], .int 7,
    .vector .int16 ⟨[[0, 1]], by simp [Coder.width], by decide⟩]

theorem marshallers_agree_four :
    ∃ out', fourItems.forM (Item.put referenceScalars) [] = .ok () out' ∧
      fourItems.forM (putItem referenceScalars) [] = .ok () out' := by
  have short : ∀ i ∈ fourItems, Short i := by
    intro i mem
    simp only [fourItems, List.mem_cons, List.not_mem_nil, or_false] at mem
    rcases mem with rfl | rfl | rfl | rfl
    · exact (by decide : ([104, 105] : List UInt8).length ≤ maxStrLen)
    all_goals trivial
  exact ⟨_, rfl, marshallers_agree referenceScalars_documented short rfl⟩

end Libdap.Guarantees.XDRMarshallers
