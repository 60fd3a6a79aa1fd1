import Libdap.Library.Outcome
import Libdap.Guarantees.DAP4LengthPrefix

/-!
# What a reader finds on a stream written under either byte order

`reading` is a reader whose stream was written under the first order by a host
that need not be its own. Words of 2, 4 and 8 bytes come back swapped twice,
hence unchanged, with one exception: `get_float64` swaps with the 32-bit
exchange.
-/
namespace Libdap.Guarantees.DAP4Get
open Libdap.Library Libdap.Library.Bytes
open Libdap.Source Libdap.Source.DAP4StreamMarshaller Libdap.Source.DAP4StreamUnMarshaller

def reading (writer reader : ByteOrder) (input : List UInt8) : UnMarshaller :=
  { hostOrder := reader, twiddleBytes := decide (writer ≠ reader), input }

/-- The constructor, given the writer's endianness flag, sets the reader up this way. -/
theorem make_eq_reading (writer reader : ByteOrder) (input : List UInt8) :
    make reader (decide (writer = .big)) input = reading writer reader input := by
  cases writer <;> cases reader <;> rfl

section
variable {writer reader : ByteOrder}

theorem read_reading (data rest : List UInt8) :
    read data.length (reading writer reader (data ++ rest)) = .ok data (reading writer reader rest) := by
  simp [DAP4StreamUnMarshaller.read, reading]

theorem read_reading_of_length {data : List UInt8} {len : Nat} (size : data.length = len)
    (rest : List UInt8) :
    read len (reading writer reader (data ++ rest)) = .ok data (reading writer reader rest) := by
  rw [← size, read_reading]

theorem read_length {len : Nat} {r after : UnMarshaller} {data : List UInt8}
    (success : read len r = .ok data after) : data.length = len := by
  simp only [DAP4StreamUnMarshaller.read] at success
  split at success
  · cases success
    rw [List.length_take]
    omega
  · cases success

/-- A word that lies on the stream comes back if its swap undoes the other order. -/
theorem getScalar_reading {width bits : Nat} (words : 2 ^ bits = 256 ^ width)
    (twiddle : BitVec bits → BitVec bits) (val : BitVec bits) (rest : List UInt8) :
    getScalar width bits twiddle
        (reading writer reader (store writer width val.toNat ++ rest)) =
      .ok (if writer = reader then val
          else twiddle (BitVec.ofNat bits (byteReverse width val.toNat)))
        (reading writer reader rest) := by
  have bound : val.toNat < 256 ^ width := words ▸ val.isLt
  apply (call_ok (read_reading_of_length (store_length ..) rest)).trans
  by_cases same : writer = reader
  · subst same
    simp [reading, load_store _ bound]
  · simp [reading, same, load_store_differ same]

theorem bswap_undo {width bits : Nat} (words : 2 ^ bits = 256 ^ width) (val : BitVec bits) :
    BitVec.ofNat bits
      (byteReverse width (BitVec.ofNat bits (byteReverse width val.toNat)).toNat) = val := by
  have bound : val.toNat < 256 ^ width := words ▸ val.isLt
  rw [BitVec.toNat_ofNat, words, Nat.mod_eq_of_lt (byteReverse_lt ..),
    byteReverse_byteReverse bound, BitVec.ofNat_toNat, BitVec.setWidth_eq]

theorem getScalar_bswap {width bits : Nat} (words : 2 ^ bits = 256 ^ width) (val : BitVec bits)
    (rest : List UInt8) :
    getScalar width bits (fun x => BitVec.ofNat bits (byteReverse width x.toNat))
        (reading writer reader (store writer width val.toNat ++ rest)) =
      .ok val (reading writer reader rest) := by
  rw [getScalar_reading words, bswap_undo words]
  simp only [ite_self]

/-- A single byte needs no swap. -/
theorem getScalar_byte (val : BitVec 8) (rest : List UInt8) :
    getScalar 1 8 id (reading writer reader (store writer 1 val.toNat ++ rest)) =
      .ok val (reading writer reader rest) := by
  have single : byteReverse 1 val.toNat = val.toNat := by
    simp [byteReverse, encodeLE, decodeLE]
  rw [getScalar_reading (by decide), single]
  simp

/-- The 32-bit exchange drops one half of a double and moves the other one down. -/
theorem twiddleFloat64_reversed (val : BitVec 64) :
    twiddleFloat64 (BitVec.ofNat 64 (byteReverse 8 val.toNat)) = val >>> 32 := by
  have bound := val.isLt
  have low := byteReverse_low 4 4 val.toNat
  have half : val.toNat / 256 ^ 4 < 256 ^ 4 := by omega
  have reversed := byteReverse_lt 8 val.toNat
  have word := byteReverse_lt 4 (val.toNat / 256 ^ 4)
  apply BitVec.eq_of_toNat_eq
  simp only [twiddleFloat64, bswap32, BitVec.toNat_setWidth, BitVec.toNat_ofNat,
    BitVec.toNat_ushiftRight, Nat.shiftRight_eq_div_pow]
  rw [Nat.mod_eq_of_lt (show byteReverse 8 val.toNat < 2 ^ 64 from reversed),
    show byteReverse 8 val.toNat % 2 ^ 32 = _ from low, byteReverse_byteReverse half]
  omega

theorem shifted_eq_self_iff (val : BitVec 64) : val >>> 32 = val ↔ val = 0 := by
  rw [← BitVec.toNat_inj, ← BitVec.toNat_inj, BitVec.toNat_ushiftRight,
    Nat.shiftRight_eq_div_pow]
  have zero : (0 : BitVec 64).toNat = 0 := rfl
  rw [zero]
  omega

theorem getFloat64_reading (val : BitVec 64) (rest : List UInt8) :
    getFloat64 (reading writer reader (store writer 8 val.toNat ++ rest)) =
      .ok (if writer = reader then val else val >>> 32) (reading writer reader rest) := by
  rw [getFloat64, getScalar_reading (by decide), twiddleFloat64_reversed]

theorem getLengthPrefix_reading {n : Nat} (fits : n < 2 ^ 32) (rest : List UInt8) :
    getLengthPrefix (reading writer reader (Varint.encode n ++ rest)) =
      .ok (DAP4LengthPrefix.widened n) (reading writer reader rest) :=
  DAP4LengthPrefix.getLengthPrefix_encode fits _ rest rfl

theorem widened_toInt {n : Nat} (small : n < 2 ^ 31) :
    (DAP4LengthPrefix.widened n).toNat = n ∧ (DAP4LengthPrefix.widened n).toInt = n := by
  have value := DAP4LengthPrefix.widened_toNat (n := n) (by omega)
  rw [if_pos small] at value
  refine ⟨value, ?_⟩
  rw [BitVec.toInt_eq_toNat_of_lt (by omega), value]

theorem widened_setWidth {n : Nat} (fits : n < 2 ^ 32) :
    ((DAP4LengthPrefix.widened n).setWidth 32).toNat = n := by
  rw [BitVec.toNat_setWidth, DAP4LengthPrefix.widened_toNat fits]
  split <;> omega

theorem getStr_reading {data : List UInt8} (small : data.length < 2 ^ 31) (rest : List UInt8) :
    getStr (reading writer reader ((Varint.encode data.length ++ data) ++ rest)) =
      .ok data (reading writer reader rest) := by
  obtain ⟨len, signed⟩ := widened_toInt small
  rw [List.append_assoc]
  apply (call_ok (getLengthPrefix_reading (by omega) _)).trans
  rw [if_neg (by omega), len]
  exact read_reading data rest

/-- No string of `2 ^ 31` bytes or more is ever returned. -/
theorem getStr_short {r after : UnMarshaller} {data : List UInt8}
    (success : getStr r = .ok data after) : data.length < 2 ^ 31 := by
  obtain ⟨len, middle, framed, success⟩ := bind_returned success
  have range := DAP4LengthPrefix.getLengthPrefix_range framed
  split at success
  · cases success
  · next positive => rw [read_length success]; omega

theorem getOpaqueKnown_reading {data : List UInt8} (small : data.length < 2 ^ 31)
    (rest : List UInt8) :
    getOpaqueKnown data.length
        (reading writer reader ((Varint.encode data.length ++ data) ++ rest)) =
      .ok data (reading writer reader rest) := by
  obtain ⟨-, signed⟩ := widened_toInt small
  rw [List.append_assoc]
  apply (call_ok (getLengthPrefix_reading (by omega) _)).trans
  rw [if_neg (by simp [signed])]
  exact read_reading data rest

theorem getOpaqueKnown_short {len : Nat} {r after : UnMarshaller} {data : List UInt8}
    (success : getOpaqueKnown len r = .ok data after) : len < 2 ^ 31 := by
  obtain ⟨rlen, middle, framed, success⟩ := bind_returned success
  have range := DAP4LengthPrefix.getLengthPrefix_range framed
  split at success
  · cases success
  · next agree =>
      rw [ne_eq, Decidable.not_not, BitVec.toInt_eq_toNat_cond] at agree
      rw [BitVec.toInt_eq_toNat_cond] at range
      split at agree <;> omega

theorem getOpaque_reading {data : List UInt8} (fits : data.length < 2 ^ 32) (rest : List UInt8) :
    getOpaque (reading writer reader ((Varint.encode data.length ++ data) ++ rest)) =
      .ok data (reading writer reader rest) := by
  rw [List.append_assoc]
  apply (call_ok (getLengthPrefix_reading fits _)).trans
  rw [widened_setWidth fits]
  exact read_reading data rest

/-! ## Typed vectors -/

theorem memory_length (order : ByteOrder) (width : ElementWidth)
    (vals : List (BitVec (8 * width.bytes))) :
    (memory order width vals).length = vals.length * width.bytes := by
  rw [memory, storeAll_length, List.length_map]

theorem word_lt (width : ElementWidth) (val : BitVec (8 * width.bytes)) :
    val.toNat < 256 ^ width.bytes := by
  have words : 2 ^ (8 * width.bytes) = 256 ^ width.bytes := pow_mul 2 8 width.bytes
  exact words ▸ val.isLt

/-- Swapping every element turns the writer's memory into the reader's. -/
theorem twiddle_memory (width : ElementWidth) (differ : writer ≠ reader)
    (vals : List (BitVec (8 * width.bytes))) :
    (pieces width.bytes vals.length (memory writer width vals)).flatMap
        (twiddleElement reader width.bytes) = memory reader width vals := by
  have cut := pieces_storeAll writer width.bytes (vals.map BitVec.toNat)
  rw [List.length_map] at cut
  rw [memory, cut, memory, storeAll, List.flatMap_map, List.flatMap_map, List.flatMap_map]
  congr 1
  funext val
  rw [twiddleElement, byteReverse_load_store differ (word_lt width val)]

theorem whenTwiddling_memory (width : ElementWidth) (known : writer = reader ∨ width ≠ .one)
    (vals : List (BitVec (8 * width.bytes))) (rest : List UInt8) :
    whenTwiddling (memory writer width vals) vals.length width.bytes
        (reading writer reader rest) =
      .ok (memory reader width vals) (reading writer reader rest) := by
  by_cases same : writer = reader
  · subst same
    simp [whenTwiddling, reading]
  · have wide : width.bytes = 2 ∨ width.bytes = 4 ∨ width.bytes = 8 := by
      cases width with
      | one => exact absurd rfl (known.resolve_left same)
      | two => exact Or.inl rfl
      | four => exact Or.inr (Or.inl rfl)
      | eight => exact Or.inr (Or.inr rfl)
    have size := memory_length writer width vals
    simp only [whenTwiddling, reading, same, ne_eq, not_false_eq_true, decide_true, if_true,
      twiddleVectorElements, wide, size, le_refl]
    rw [twiddle_memory width same, List.drop_eq_nil_of_le (Nat.le_of_eq size), List.append_nil]

theorem elementsOf_memory (width : ElementWidth) (vals : List (BitVec (8 * width.bytes)))
    (rest : List UInt8) :
    elementsOf width vals.length (memory reader width vals) (reading writer reader rest) =
      .ok (.elements width vals) (reading writer reader rest) := by
  have cut := pieces_storeAll reader width.bytes (vals.map BitVec.toNat)
  rw [List.length_map] at cut
  simp only [elementsOf, memory_length, le_refl, if_true, reading]
  rw [memory, cut, List.map_map, List.map_map]
  congr 2
  refine (List.map_congr_left fun val _ => ?_).trans (List.map_id vals)
  simp only [Function.comp_apply, load_store _ (word_lt width val), BitVec.ofNat_toNat,
    BitVec.setWidth_eq, id_eq]

theorem byteCount_eq {num width : Nat} (fits : num * width < 2 ^ 32) :
    byteCount num width = num * width := Nat.mod_eq_of_lt fits

theorem getVectorOf_reading (width : ElementWidth) (known : writer = reader ∨ width ≠ .one)
    {vals : List (BitVec (8 * width.bytes))} (fits : vals.length * width.bytes < 2 ^ 32)
    {buffer : List UInt8} (room : buffer.length = vals.length * width.bytes)
    (rest : List UInt8) :
    getVectorOf buffer vals.length width.bytes
        (reading writer reader (memory writer width vals ++ rest)) =
      .ok (memory reader width vals) (reading writer reader rest) := by
  simp only [getVectorOf, byteCount_eq fits]
  apply (call_ok (read_reading_of_length (memory_length ..) rest)).trans
  rw [List.drop_eq_nil_of_le (Nat.le_of_eq room), List.append_nil]
  exact whenTwiddling_memory width known vals rest

theorem getVaryingVectorOf_reading (width : ElementWidth)
    (known : writer = reader ∨ width ≠ .one) {vals : List (BitVec (8 * width.bytes))}
    (fits : vals.length * width.bytes < 2 ^ 31) (rest : List UInt8) :
    getVaryingVectorOf width.bytes
        (reading writer reader
          ((Varint.encode vals.length ++ memory writer width vals) ++ rest)) =
      .ok (vals.length, memory reader width vals) (reading writer reader rest) := by
  have small : vals.length < 2 ^ 32 := by
    have positive : 1 ≤ width.bytes := by cases width <;> decide
    have := Nat.le_mul_of_pos_right vals.length positive
    omega
  have size : byteCount vals.length width.bytes = vals.length * width.bytes :=
    byteCount_eq (by omega)
  rw [List.append_assoc]
  apply (call_ok (getLengthPrefix_reading small _)).trans
  simp only [widened_setWidth small, size]
  rw [if_neg (by omega)]
  apply (call_ok (read_reading_of_length (memory_length ..) rest)).trans
  exact call_ok (whenTwiddling_memory width known vals rest)

/-- The swap knows no one-byte words, not even for no element at all. -/
theorem whenTwiddling_bytes {vals swapped : List UInt8} {num : Nat} {r after : UnMarshaller}
    (twiddle : r.twiddleBytes = true) : whenTwiddling vals num 1 r ≠ .ok swapped after := by
  simp [whenTwiddling, twiddle, twiddleVectorElements]

theorem whenTwiddling_room {vals swapped : List UInt8} {num width : Nat}
    {r after : UnMarshaller} (success : whenTwiddling vals num width r = .ok swapped after) :
    swapped = vals ∨ num * width ≤ vals.length := by
  simp only [whenTwiddling, twiddleVectorElements] at success
  split at success
  · split at success
    · next swap =>
        split at swap
        · split at swap
          · next room => exact Or.inr room
          · cases swap
        · cases swap
    · cases success
  · cases success
    exact Or.inl rfl

theorem elementsOf_success {width : ElementWidth} {num : Nat} {vals : List UInt8} {v : Value}
    {r after : UnMarshaller} (success : elementsOf width num vals r = .ok v after) :
    num * width.bytes ≤ vals.length ∧
      v = .elements width ((pieces width.bytes num vals).map fun piece =>
        BitVec.ofNat _ (load r.hostOrder piece)) := by
  simp only [elementsOf] at success
  split at success
  · next room =>
      cases success
      exact ⟨room, rfl⟩
  · cases success

/-- Bytes that are all alike look the same from both ends. -/
theorem twiddleElement_replicate (order : ByteOrder) (width : Nat) (b : UInt8) :
    twiddleElement order width (List.replicate width b) = List.replicate width b := by
  have number : load order (List.replicate width b) = decodeLE (List.replicate width b) := by
    cases order <;> simp [load]
  have reversed := byteReverse_decodeLE (List.replicate width b)
  have digits := encodeLE_decodeLE (List.replicate width b)
  rw [List.length_replicate] at reversed digits
  rw [twiddleElement, number, reversed, List.reverse_replicate]
  cases order <;> simp [store, digits]

theorem twiddleVectorElements_last {order : ByteOrder} {vals swapped : List UInt8}
    {num width : Nat} {b : UInt8}
    (success : twiddleVectorElements order vals (num + 1) width = .ok swapped)
    (last : (vals.drop (num * width)).take width = List.replicate width b) :
    (swapped.drop (num * width)).take width = List.replicate width b := by
  simp only [twiddleVectorElements] at success
  split at success
  · split at success
    · cases success
      have before : ((pieces width num vals).flatMap (twiddleElement order width)).length =
          num * width := by
        simp [List.length_flatMap, twiddleElement]
      rw [pieces_succ, List.flatMap_append, List.append_assoc, List.drop_left' before, last]
      simp [twiddleElement_replicate]
    · cases success
  · cases success

/-- When the byte count overflows, the last element is what the caller's buffer held. -/
theorem getVectorOf_last {num width : Nat} {b : UInt8} {r after : UnMarshaller}
    {vals : List UInt8} (overflow : byteCount (num + 1) width ≤ num * width)
    (success : getVectorOf (List.replicate ((num + 1) * width) b) (num + 1) width r =
      .ok vals after) :
    (vals.drop (num * width)).take width = List.replicate width b := by
  obtain ⟨bytes, middle, data, success⟩ := bind_returned success
  have size := read_length data
  have last : ((bytes ++ (List.replicate ((num + 1) * width) b).drop
      (byteCount (num + 1) width)).drop (num * width)).take width = List.replicate width b := by
    have room : width ≤ (num + 1) * width - byteCount (num + 1) width -
        (num * width - bytes.length) := by
      rw [Nat.add_mul, size]
      omega
    rw [List.drop_append, List.drop_eq_nil_of_le (by omega), List.drop_replicate,
      List.drop_replicate, List.nil_append, List.take_replicate, Nat.min_eq_left room]
  simp only [whenTwiddling] at success
  split at success
  · split at success
    · next swapped swap =>
        cases success
        exact twiddleVectorElements_last swap last
    · cases success
  · cases success
    exact last

theorem read_hostOrder {len : Nat} {r after : UnMarshaller} {data : List UInt8}
    (success : DAP4StreamUnMarshaller.read len r = .ok data after) :
    after.hostOrder = r.hostOrder ∧ after.twiddleBytes = r.twiddleBytes := by
  unfold DAP4StreamUnMarshaller.read at success
  split at success
  · cases success
    exact ⟨rfl, rfl⟩
  · cases success

theorem whenTwiddling_state {vals swapped : List UInt8} {num width : Nat}
    {r after : UnMarshaller} (success : whenTwiddling vals num width r = .ok swapped after) :
    after = r := by
  unfold whenTwiddling at success
  split at success
  · split at success
    · cases success
      rfl
    · cases success
  · cases success
    rfl

theorem getVectorOf_hostOrder {val vals : List UInt8} {num width : Nat}
    {r after : UnMarshaller} (success : getVectorOf val num width r = .ok vals after) :
    after.hostOrder = r.hostOrder := by
  obtain ⟨bytes, middle, data, twiddled⟩ := bind_returned success
  rw [whenTwiddling_state twiddled, (read_hostOrder data).1]

/-- One-byte words are refused where the orders differ. -/
theorem getVectorOf_bytes {val vals : List UInt8} {num : Nat} {r after : UnMarshaller}
    (twiddle : r.twiddleBytes = true) : getVectorOf val num 1 r ≠ .ok vals after := by
  intro success
  obtain ⟨bytes, middle, data, twiddled⟩ := bind_returned success
  exact whenTwiddling_bytes ((read_hostOrder data).2.trans twiddle) twiddled

/-- A typed varying vector that is returned at all has less than `2 ^ 31` bytes. -/
theorem getVaryingVectorOf_short {width : ElementWidth} {num : Nat} {vals : List UInt8}
    {v : Value} {r middle after : UnMarshaller}
    (success : getVaryingVectorOf width.bytes r = .ok (num, vals) middle)
    (elements : elementsOf width num vals middle = .ok v after) :
    num * width.bytes < 2 ^ 31 := by
  obtain ⟨len, framed, -, success⟩ := bind_returned success
  dsimp only at success
  split at success
  · cases success
  · next small =>
      obtain ⟨bytes, unread, data, success⟩ := bind_returned success
      obtain ⟨swapped, same, twiddled, success⟩ := bind_returned success
      cases success
      have size := read_length data
      have room := (elementsOf_success elements).1
      rcases whenTwiddling_room twiddled with unchanged | fits
      · rw [unchanged] at room
        omega
      · omega

theorem getLengthPrefix_twiddleBytes {r after : UnMarshaller} {len : BitVec 64}
    (success : getLengthPrefix r = .ok len after) : after.twiddleBytes = r.twiddleBytes := by
  unfold getLengthPrefix at success
  split at success
  · cases success
    rfl
  · cases success

theorem getVaryingVectorOf_bytes {result : Nat × List UInt8} {r after : UnMarshaller}
    (twiddle : r.twiddleBytes = true) : getVaryingVectorOf 1 r ≠ .ok result after := by
  intro success
  obtain ⟨len, framed, length, success⟩ := bind_returned success
  dsimp only at success
  split at success
  · cases success
  · obtain ⟨bytes, unread, data, success⟩ := bind_returned success
    obtain ⟨swapped, same, twiddled, -⟩ := bind_returned success
    refine whenTwiddling_bytes ?_ twiddled
    rw [(read_hostOrder data).2, getLengthPrefix_twiddleBytes length, twiddle]

end

end Libdap.Guarantees.DAP4Get
