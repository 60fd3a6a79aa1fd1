import Libdap.Library.Outcome
import Libdap.Library.Varint
import Libdap.Guarantees.DAP4LengthPrefix
import Libdap.Source.DAP4StreamMarshaller

/-!
# The effect of one put

With a valid digest context a put appends the length prefix, if its kind has
one, and then exactly the bytes it fed to the digest. Without the context it
throws, and at most the prefix of a typed varying vector is out by then.
-/
namespace Libdap.Guarantees.DAP4Put
open Libdap.Library Libdap.Library.Bytes
open Libdap.Source Libdap.Source.DAP4StreamMarshaller

/-- The bytes of a datum that the digest sees. -/
def digested (order : ByteOrder) : Datum → List UInt8
  | .byte val | .int8 val => store order 1 val.toNat
  | .int16 val | .uint16 val => store order 2 val.toNat
  | .int32 val | .uint32 val | .float32 val => store order 4 val.toNat
  | .int64 val | .uint64 val | .float64 val => store order 8 val.toNat
  | .str val | .url val => val.bytes
  | .opaqueData val | .vector val | .varyingVector val => val.elems
  | .vectorOf width val | .varyingVectorOf width val =>
      (memory order width val.elems).take (byteCount val.elems.length width.bytes)

/-- The length prefix in front of them. -/
def framing : Datum → List UInt8
  | .str val | .url val => Varint.encode val.bytes.length
  | .opaqueData val | .varyingVector val => Varint.encode val.elems.length
  | .varyingVectorOf _ val => Varint.encode val.elems.length
  | _ => []

/-- The bytes a put writes although `writeData` is off. -/
def unguarded : Datum → List UInt8
  | .vector val => val.elems
  | _ => []

/-- The bytes a put writes before it looks at the digest context. -/
def early : Datum → List UInt8
  | .varyingVectorOf _ val => Varint.encode val.elems.length
  | _ => []

theorem putLengthPrefix_eq (m : Marshaller) {len : Nat} (fits : len < 2 ^ 63) :
    putLengthPrefix (BitVec.ofNat 64 len) m =
      .ok () { m with out := m.out ++ if m.writeData then Varint.encode len else [] } := by
  have word : (BitVec.ofNat 64 len).toNat = len := by
    rw [BitVec.toNat_ofNat, Nat.mod_eq_of_lt (by omega)]
  have size : (Varint.encode len).length ≤ 9 := Varint.encode_length_le 8 len (by norm_num; omega)
  obtain ⟨order, writeData, valid, out, digest⟩ := m
  cases writeData with
  | false => simp [putLengthPrefix, whenWriting]
  | true =>
    simp only [putLengthPrefix, whenWriting, DAP4LengthPrefix.writeVarint64_eq_encode, word, size,
      if_true, write]

theorem checksumUpdate_valid (data : List UInt8) {m : Marshaller}
    (valid : m.checksumCtxValid = true) :
    checksumUpdate data m = .ok () { m with digest := m.digest ++ [.update data] } := by
  simp only [checksumUpdate, valid, if_true]

theorem checksumUpdate_invalid (data : List UInt8) {m : Marshaller}
    (invalid : m.checksumCtxValid = false) :
    checksumUpdate data m =
      .error (.internalErr "Invalid checksum context (checksum update).") m := by
  simp [checksumUpdate, invalid]

theorem putScalar_valid (width : Nat) {n : Nat} (val : BitVec n) {m : Marshaller}
    (valid : m.checksumCtxValid = true) :
    putScalar width val m = .ok ()
      { m with
        out := m.out ++ if m.writeData then store m.hostOrder width val.toNat else [],
        digest := m.digest ++ [.update (store m.hostOrder width val.toNat)] } := by
  rw [putScalar, call_ok (checksumUpdate_valid _ valid)]
  simp only [whenWriting, write]
  cases m.writeData <;> simp

/-- `put_str`, `put_opaque`: digest, then prefix and bytes under one guard. -/
theorem putCounted_valid (data : List UInt8) (fits : data.length < 2 ^ 63) {m : Marshaller}
    (valid : m.checksumCtxValid = true) :
    (do checksumUpdate data
        whenWriting do
          putLengthPrefix (BitVec.ofNat 64 data.length)
          write data : Put) m = .ok ()
      { m with
        out := m.out ++ if m.writeData then Varint.encode data.length ++ data else [],
        digest := m.digest ++ [.update data] } := by
  rw [call_ok (checksumUpdate_valid _ valid)]
  obtain ⟨order, writeData, ctx, out, digest⟩ := m
  cases writeData with
  | false => simp [whenWriting]
  | true =>
    apply (call_ok (putLengthPrefix_eq _ fits)).trans
    simp only [write, if_true, List.append_assoc]

theorem putVectorOf_valid (val : List UInt8) (num width : Nat) {m : Marshaller}
    (valid : m.checksumCtxValid = true) :
    putVectorOf val num width m = .ok ()
      { m with
        out := m.out ++ if m.writeData then val.take (byteCount num width) else [],
        digest := m.digest ++ [.update (val.take (byteCount num width))] } := by
  rw [putVectorOf, call_ok (checksumUpdate_valid _ valid)]
  simp only [whenWriting, write]
  cases m.writeData <;> simp

theorem put_valid (d : Datum) {m : Marshaller} (valid : m.checksumCtxValid = true) :
    put d m = .ok ()
      { m with
        out := m.out ++ if m.writeData then framing d ++ digested m.hostOrder d else unguarded d,
        digest := m.digest ++ [.update (digested m.hostOrder d)] } := by
  cases d with
  | byte val | int8 val => exact putScalar_valid 1 val valid
  | int16 val | uint16 val => exact putScalar_valid 2 val valid
  | int32 val | uint32 val | float32 val => exact putScalar_valid 4 val valid
  | int64 val | uint64 val | float64 val => exact putScalar_valid 8 val valid
  | str val | url val => exact putCounted_valid val.bytes val.fits valid
  | opaqueData val | varyingVector val =>
    exact putCounted_valid val.elems (Nat.lt_trans val.fits (by decide)) valid
  | vector val =>
    rw [put, putVector, call_ok (checksumUpdate_valid _ valid)]
    simp [write, framing, digested, unguarded]
  | vectorOf width val => exact putVectorOf_valid _ _ _ valid
  | varyingVectorOf width val =>
    have fits : val.elems.length < 2 ^ 63 := Nat.lt_trans val.fits (by decide)
    apply (call_ok (putLengthPrefix_eq m fits)).trans
    apply (putVectorOf_valid _ _ _ (by simpa using valid)).trans
    cases m.writeData <;> simp [framing, digested, unguarded]

theorem put_invalid (d : Datum) {m : Marshaller} (invalid : m.checksumCtxValid = false) :
    put d m = .error (.internalErr "Invalid checksum context (checksum update).")
      { m with out := m.out ++ if m.writeData then early d else [] } := by
  have same : { m with out := m.out ++ if m.writeData then ([] : List UInt8) else [] } = m := by
    simp
  cases d with
  | varyingVectorOf width val =>
    have fits : val.elems.length < 2 ^ 63 := Nat.lt_trans val.fits (by decide)
    exact (call_ok (putLengthPrefix_eq m fits)).trans
      (call_error (checksumUpdate_invalid _ (by simpa using invalid)))
  | _ =>
    simp only [early, same]
    exact call_error (checksumUpdate_invalid _ invalid)

end Libdap.Guarantees.DAP4Put
