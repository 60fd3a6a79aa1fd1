import Mathlib.Data.List.TakeWhile
import Libdap.Guarantees.XDRVectors
import Libdap.Source.DataResponse

/-!
# What the stream marshaller writes the file unmarshaller reads

The file unmarshaller leaves the stream to the XDR library, which knows how much of it a value
takes. Whatever the order of the puts, the gets in that order find the values.
-/
namespace Libdap.Guarantees.XDRFile
open Libdap.Library Libdap.Library.Wire Libdap.Library.ExternalData
open Libdap.Source Libdap.Source.XDR Libdap.Source.Declarations Libdap.Source.DataResponse
open Libdap.Source.XDRStreamMarshaller (send putByte putScalar putStr putOpaque putInt
  putVectorBytes putVector IntCounted Put)
open Libdap.Source.XDRFileUnMarshaller
open Libdap.Source.XDRStreamUnMarshaller (store overwrite dodsMaxArray)
open Libdap.Guarantees.XDROpaque Libdap.Guarantees.XDRVectors

variable {xdr : ScalarRoutines}

theorem send_writes {size : Nat} {bytes : List UInt8} (notSent noPosition : String)
    (fits : bytes.length ≤ size) (some' : 0 < bytes.length) :
    Writes (send size (some bytes) notSent noPosition) bytes :=
  fun _ => send_fits fits some'

theorem decode_reads {α : Type} {routine : List UInt8 → Option (α × Nat)} {items : List UInt8}
    {a : α} (notRead : String) (found : ∀ more, routine (items ++ more) = some (a, items.length)) :
    Reads (decode routine notRead) items a := by
  intro more
  simp only [decode, found, List.drop_left]

theorem agree_byte (documented : xdr.Documented) (val : UInt8) :
    Agree (putByte xdr val) (getByte xdr) val := by
  have length := documented.encodeChar_length val
  have room : (4 : Nat) ≤ XDRStreamMarshaller.xdrDapBuffSize := by decide
  refine ⟨xdr.encodeChar val, send_writes _ _ (by omega) (by omega), decode_reads _ fun more => ?_⟩
  rw [documented.decodeChar_eq, length]

theorem agree_scalar (documented : xdr.Documented) {t : Coder} {val : List UInt8}
    (wide : val.length = t.width) (notSent what what' : String) :
    Agree (putScalar xdr t notSent what val) (getScalar xdr t what') val := by
  have length := documented.encodeElement_length t val wide
  have room : t.wire ≤ XDRStreamMarshaller.xdrDapBuffSize ∧ 0 < t.wire := by
    cases t <;> decide
  refine ⟨xdr.encodeElement t val, send_writes _ _ (by omega) (by omega),
    decode_reads _ fun more => ?_⟩
  rw [documented.decodeElement_eq t val more wide, length]

/-- A string that survives: it does not end early, and the reader has room for it. -/
structure Legible (s : List UInt8) : Prop where
  whole : 0 ∉ s
  short : s.length ≤ maxStrLen

theorem Legible.takeWhile {s : List UInt8} (legible : Legible s) :
    s.takeWhile (· ≠ 0) = s := by
  refine List.takeWhile_eq_self_iff.mpr fun c mem => ?_
  rw [decide_eq_true_eq]
  rintro rfl
  exact legible.whole mem

theorem agree_str (documented : xdr.Documented) {val : List UInt8} (legible : Legible val) :
    Agree (putStr xdr val) (getStr xdr) val := by
  have padded := rounded_le val.length
  have room : maxStrLen < 2 ^ 32 := by decide
  have short := legible.short
  refine ⟨countedData val, ?_, ?_⟩
  · have encoded := documented.encodeString_eq (val.length + 8) val (by omega)
    simp only [putStr, legible.takeWhile, encoded]
    exact send_writes _ _ (by rw [countedData_length]; omega) (by rw [countedData_length]; omega)
  · have decoded : Reads (decode (xdr.decodeString maxStrLen)
        ("Network I/O Error. Could not read string data.\n" ++
          "This may be due to a bug in libdap, on the server or a\n" ++
          "problem with the network connection.")) (countedData val) val :=
      decode_reads _ fun more => by
        rw [documented.decodeString_eq maxStrLen val more short (by omega), countedData_length]
    have whole := decoded.andThen (g := fun inTmp => pure (inTmp.takeWhile (· ≠ 0)))
      (reads_nothing (val.takeWhile (· ≠ 0)))
    rwa [List.append_nil, legible.takeWhile] at whole

/-- The values that a simple variable of the type may have. -/
def Simple : SimpleType → List UInt8 → Prop
  | .byte, bytes => bytes.length = 1
  | .str, bytes | .url, bytes => Legible bytes
  | type, bytes => ∀ t, storage type = .numbers t → bytes.length = t.width

theorem agree_simple (documented : xdr.Documented) {type : SimpleType} {bytes : List UInt8}
    (simple : Simple type bytes) : Agree (putSimple xdr type bytes) (getSimple xdr type) bytes := by
  cases type with
  | byte =>
    obtain ⟨val, rfl⟩ := List.length_eq_one_iff.mp simple
    exact (agree_byte documented val).returns fun val => [val]
  | str => exact agree_str documented simple
  | url => exact agree_str documented simple
  | int16 => exact agree_scalar documented (simple _ rfl) _ _ _
  | uint16 => exact agree_scalar documented (simple _ rfl) _ _ _
  | int32 => exact agree_scalar documented (simple _ rfl) _ _ _
  | uint32 => exact agree_scalar documented (simple _ rfl) _ _ _
  | float32 => exact agree_scalar documented (simple _ rfl) _ _ _
  | float64 => exact agree_scalar documented (simple _ rfl) _ _ _

theorem putInt_writes (documented : xdr.Documented) (val : BitVec 32) :
    Writes (putInt xdr.toRoutines val) (unsigned val.toNat) :=
  fun out => putInt_eq documented.toDocumented val out

theorem getInt_reads (documented : xdr.Documented) (val : BitVec 32) :
    Reads (getInt xdr) (unsigned val.toNat) val :=
  decode_reads _ fun more => by rw [documented.decodeInt_eq, unsigned_length]

theorem agree_int (documented : xdr.Documented) (val : BitVec 32) :
    Agree (putInt xdr.toRoutines val) (getInt xdr) val :=
  ⟨_, putInt_writes documented val, getInt_reads documented val⟩

/-- The library takes the padding from the stream, not from the caller. -/
theorem agree_opaque (documented : xdr.Documented) {val target : List UInt8}
    (some' : 1 ≤ val.length) (small : val.length ≤ 256) (room : target.length = val.length) :
    Agree (putOpaque xdr.toRoutines val) (getOpaque xdr target val.length) val := by
  refine ⟨opaqueData val, fun out => putOpaque_eq documented.toDocumented some' small out,
    fun more => ?_⟩
  have stored : store target (0, val) = .ok (overwrite target 0 val) := store_inside (by omega)
  rw [overwrite_all room.symm] at stored
  have decoded := documented.decodeOpaque_eq val.length (opaqueData val ++ more) (by simp)
  rw [opaqueData_take] at decoded
  have behind : (opaqueData val ++ more).drop (rounded val.length) = more :=
    List.drop_left' (opaqueData_length val)
  simp only [getOpaque, decoded, stored, behind]

theorem getVectorBytes_reads (documented : xdr.Documented) {d target : List UInt8}
    (fits : d.length < 2 ^ 31) (room : target.length = d.length) :
    Reads (getVectorBytes xdr (some target)) (countedData d) (some d, d.length) := by
  intro more
  have decoded : xdr.decodeBytes dodsMaxArray (countedData d ++ more) =
      some (d, 4 + rounded d.length) := by
    rw [countedData, List.append_assoc, documented.decodeBytes_eq _ _ _ (by omega)
      (by simp only [dodsMaxArray]; omega) (by simp), opaqueData_take]
  have behind : (countedData d ++ more).drop (4 + rounded d.length) = more :=
    List.drop_left' (countedData_length d)
  simp only [getVectorBytes, decoded, behind]
  by_cases empty : d.length = 0
  · have none' := List.eq_nil_of_length_eq_zero empty
    rw [empty] at room
    rw [if_pos empty, List.eq_nil_of_length_eq_zero room, none']
    rfl
  · have stored : store target (0, d) = .ok (overwrite target 0 d) := store_inside (by omega)
    rw [overwrite_all room.symm] at stored
    simp only [if_neg empty, Option.getD_some, stored]

theorem getVector_reads (documented : xdr.Documented) {t : Coder} (d : NumericVector t)
    {target : List UInt8} (small : onStream d + 4 < 2 ^ 31)
    (room : target.length = d.elems.length * t.width) :
    Reads (getVector xdr (some target) t.width t) (sentArray xdr.toRoutines d)
      (some d.elems.flatten, d.elems.length) := by
  intro more
  have few := elems_le_onStream d
  have narrow : d.elems.length * t.width ≤ onStream d := Nat.mul_le_mul_left _ (width_le_wire t)
  have decoded := documented.decodeArray_eq t dodsMaxArray t.width d.elems more d.wide
    (by simp only [dodsMaxArray]; omega) (by omega) (by omega)
  have length := sentArray_length documented.toDocumented d
  rw [onStream] at length
  have behind : (sentArray xdr.toRoutines d ++ more).drop (4 + d.elems.length * t.wire) = more :=
    List.drop_left' length
  have filled := stores_fill d.wide 0 [] target (by simp) room
  simp only [Nat.zero_add, List.nil_append] at filled
  rw [← sentArray] at decoded
  simp only [getVector, decoded, Option.getD_some, filled, behind]
  split
  · rename_i none'
    rw [none', Nat.zero_mul] at room
    rw [List.eq_nil_of_length_eq_zero none', List.eq_nil_of_length_eq_zero room]
    rfl
  · rfl

/-! ## A library that does what the manual says -/

/-- A character is sent as an integer with its sign. -/
def referenceScalars : ScalarRoutines where
  toRoutines := reference
  encodeChar c := (if c < 128 then [0, 0, 0] else [255, 255, 255]) ++ [c]
  decodeChar mem := if 4 ≤ mem.length then some (mem.getD 3 0, 4) else none
  decodeElement t mem :=
    if t.wire ≤ mem.length then some ((mem.take t.wire).drop (t.wire - t.width), t.wire) else none
  encodeString := reference.encodeBytes
  decodeString := reference.decodeBytes

theorem referenceScalars_documented : referenceScalars.Documented where
  toDocumented := reference_documented
  encodeChar_length c := by
    simp only [referenceScalars]
    split <;> rfl
  decodeChar_eq c more := by
    simp only [referenceScalars]
    split <;> simp
  decodeElement_eq t v more wide := by
    have length := padded_length wide
    have enough : t.wire ≤ (padded t v ++ more).length := by
      rw [List.length_append, length]
      omega
    have taken : (padded t v ++ more).take t.wire = padded t v := List.take_left' length
    have dropped : (padded t v).drop (t.wire - t.width) = v := by simp [padded]
    change (if t.wire ≤ (padded t v ++ more).length then
      some (((padded t v ++ more).take t.wire).drop (t.wire - t.width), t.wire) else none) = _
    rw [if_pos enough, taken, dropped]
  encodeString_eq := reference_documented.encodeBytes_eq
  decodeString_eq maxsize s more within small := by
    have decoded := reference_documented.decodeBytes_eq maxsize s.length (opaqueData s ++ more)
      small within (by simp)
    rw [← List.append_assoc, opaqueData_take] at decoded
    exact decoded

/-! ## Whole sequences -/

/-- What a put of the stream marshaller is given. -/
inductive Item where
  | simple (type : SimpleType) (val : List UInt8)
  | int (val : BitVec 32)
  | opaqueBytes (val : List UInt8)
  | bytes (val : IntCounted)
  | vector (t : Coder) (val : NumericVector t)

/-- What is asked of it: the lengths that are promised, and those for which the marshaller has
room. -/
def Item.Fits : Item → Prop
  | .simple type val => Simple type val
  | .int _ => True
  | .opaqueBytes val => 1 ≤ val.length ∧ val.length ≤ 256
  | .bytes _ => True
  | .vector _ val => onStream val + 4 < 2 ^ 31

def Item.put (xdr : ScalarRoutines) : Item → Put
  | .simple type val => putSimple xdr type val
  | .int val => putInt xdr.toRoutines val
  | .opaqueBytes val => putOpaque xdr.toRoutines val
  | .bytes val => putVectorBytes xdr.toRoutines (some val)
  | .vector t val =>
    putVector xdr.toRoutines (some val.elems.flatten) (BitVec.ofNat 32 val.elems.length) t.width t

/-- The calls that read such an item, into memory of its size; the caller of `get_vector` takes
the count first. -/
def Item.get (xdr : ScalarRoutines) : Item → Get (List UInt8)
  | .simple type _ => getSimple xdr type
  | .int _ => do
    let val ← getInt xdr
    pure (unsigned val.toNat)
  | .opaqueBytes val => getOpaque xdr (List.replicate val.length 0) val.length
  | .bytes _ => do
    let num ← getInt xdr
    let got ← getVectorBytes xdr (some (List.replicate num.toNat 0))
    pure (got.1.getD [])
  | .vector t _ => do
    let num ← getInt xdr
    let got ← getVector xdr (some (List.replicate (num.toNat * t.width) 0)) t.width t
    pure (got.1.getD [])

def Item.value : Item → List UInt8
  | .simple _ val => val
  | .int val => unsigned val.toNat
  | .opaqueBytes val => val
  | .bytes val => val.elems
  | .vector _ val => val.elems.flatten

theorem count_reads (documented : xdr.Documented) {n : Nat} (fits : n < 2 ^ 31) :
    Reads (getInt xdr) (unsigned n) (BitVec.ofNat 32 n) := by
  have reads := getInt_reads documented (BitVec.ofNat 32 n)
  rwa [count_toNat fits] at reads

theorem agree_item (documented : xdr.Documented) {i : Item} (fits : i.Fits) :
    Agree (i.put xdr) (i.get xdr) i.value := by
  cases i with
  | simple type val => exact agree_simple documented fits
  | int val => exact (agree_int documented val).returns fun val => unsigned val.toNat
  | opaqueBytes val =>
    exact agree_opaque documented fits.1 fits.2 (List.length_replicate ..)
  | bytes val =>
    have room : (List.replicate (BitVec.ofNat 32 val.elems.length).toNat (0 : UInt8)).length =
        val.elems.length := by rw [List.length_replicate, count_toNat val.fits]
    have values := (getVectorBytes_reads documented val.fits room).andThen
      (g := fun got => pure (got.1.getD [])) (reads_nothing val.elems)
    have whole := (count_reads documented val.fits).andThen (g := fun num => do
      let got ← getVectorBytes xdr (some (List.replicate num.toNat 0))
      pure (got.1.getD [])) values
    rw [List.append_nil] at whole
    exact ⟨_, fun out => putVectorBytes_eq documented.toDocumented val out, whole⟩
  | vector t val =>
    have few := elems_le_onStream val
    have small : onStream val + 4 < 2 ^ 31 := fits
    have fits' : val.elems.length < 2 ^ 31 := by omega
    have room : (List.replicate ((BitVec.ofNat 32 val.elems.length).toNat * t.width)
        (0 : UInt8)).length = val.elems.length * t.width := by
      rw [List.length_replicate, count_toNat fits']
    have values := (getVector_reads documented val small room).andThen
      (g := fun got => pure (got.1.getD [])) (reads_nothing val.elems.flatten)
    have whole := (count_reads documented fits').andThen (g := fun num => do
      let got ← getVector xdr (some (List.replicate (num.toNat * t.width) 0)) t.width t
      pure (got.1.getD [])) values
    rw [List.append_nil] at whole
    exact ⟨_, fun out => putVector_fits documented.toDocumented val small out, whole⟩

/-- Puts in any order are read back by the gets in that order, and what follows them in the file
is left. -/
theorem items_read_back (documented : xdr.Documented) {items : List Item}
    (fits : ∀ i ∈ items, i.Fits) (out : List UInt8) :
    ∃ sent, items.forM (Item.put xdr) out = .ok () (out ++ sent) ∧
      ∀ more, items.mapM (Item.get xdr) (sent ++ more) = .ok (items.map Item.value) more := by
  obtain ⟨sent, writes, reads⟩ :=
    agree_mapM fun i mem => agree_item documented (fits i mem)
  exact ⟨sent, writes out, reads⟩

/-- A String, three opaque bytes, two Int32 and a Byte. -/
def fourItems : List Item :=
  [.simple .str [104, 105], .opaqueBytes [1, 2, 3],
    .vector .int32 ⟨[[1, 0, 0, 0], [255, 255, 255, 255]], by decide, by decide⟩,
    .simple .byte [200]]

theorem four_items_read_back :
    ∃ sent, fourItems.forM (Item.put referenceScalars) [] = .ok () ([] ++ sent) ∧
      ∀ more, fourItems.mapM (Item.get referenceScalars) (sent ++ more) =
        .ok [[104, 105], [1, 2, 3], [1, 0, 0, 0, 255, 255, 255, 255], [200]] more := by
  suffices fits : ∀ i ∈ fourItems, i.Fits from
    items_read_back referenceScalars_documented fits []
  intro i mem
  simp only [fourItems, List.mem_cons, List.not_mem_nil, or_false] at mem
  rcases mem with rfl | rfl | rfl | rfl
  · exact ⟨by decide, by decide⟩
  · exact ⟨by decide, by decide⟩
  · change onStream _ + 4 < 2 ^ 31
    decide
  · exact (rfl : [200].length = 1)

end Libdap.Guarantees.XDRFile
