import Libdap.Source.XDRStreamMarshaller
import Libdap.Source.XDRStreamUnMarshaller
import Libdap.Library.Outcome

/-!
# Opaque data through the XDR stream marshallers

The writer leaves the padding to the XDR library, which rounds up to a multiple of four.
The reader adds `len & 3` instead of what is missing to the next multiple, and hands the
sum to the library as the length of the data. The two agree for multiples of four alone;
any other length makes the reader store past the end of the target.
-/
namespace Libdap.Guarantees.XDROpaque
open Libdap.Library Libdap.Library.ExternalData
open Libdap.Source Libdap.Source.XDR
open Libdap.Source.XDRStreamMarshaller (putOpaque putInt send)
open Libdap.Source.XDRStreamUnMarshaller

variable {xdr : Routines}

theorem send_fits {size : Nat} {bytes out : List UInt8} {notSent noPosition : String}
    (fits : bytes.length ≤ size) (some' : 0 < bytes.length) :
    send size (some bytes) notSent noPosition out = .ok () (out ++ bytes) := by
  simp only [send]
  rw [if_neg (by omega), if_neg (by omega)]

theorem putInt_eq (documented : xdr.Documented) (v : BitVec 32) (out : List UInt8) :
    putInt xdr v out = .ok () (out ++ unsigned v.toNat) := by
  unfold putInt
  rw [documented.encodeInt_eq]
  apply send_fits
  · simp [XDRStreamMarshaller.xdrDapBuffSize]
  · simp

theorem putOpaque_eq (documented : xdr.Documented) {d : List UInt8} (some' : 1 ≤ d.length)
    (small : d.length ≤ 256) (out : List UInt8) :
    putOpaque xdr d out = .ok () (out ++ opaqueData d) := by
  have room : rounded d.length ≤ 256 := by
    unfold rounded
    omega
  have enough := le_rounded d.length
  unfold putOpaque
  rw [if_neg (by simp only [XDRStreamMarshaller.xdrDapBuffSize]; omega),
    documented.encodeOpaque_eq]
  apply send_fits
  · simpa [XDRStreamMarshaller.xdrDapBuffSize] using room
  · rw [opaqueData_length]
    omega

/-! ## The reader's buffer -/

/-- The reader in front of a stream. -/
def on (r : UnMarshaller) (bytes : List UInt8) : UnMarshaller := { r with dIn := ⟨bytes, false⟩ }

def seek (r : UnMarshaller) (position : Nat) : UnMarshaller := { r with position }

@[simp] theorem on_dIn (r : UnMarshaller) (bytes : List UInt8) : (on r bytes).dIn = ⟨bytes, false⟩ :=
  rfl

theorem read_append (bytes s : List UInt8) :
    IStream.read bytes.length ⟨bytes ++ s, false⟩ = (bytes, ⟨s, false⟩) := by
  simp [IStream.read]

theorem read_length (len : Nat) (dIn : IStream) : (dIn.read len).1.length ≤ len := by
  unfold IStream.read
  split
  · simp
  · simp only [List.length_take]
    omega

theorem readInto_fits (r : UnMarshaller) (offset len : Nat) (inside : offset + len ≤ 4096) :
    ∃ r', readInto offset len r = .ok () r' ∧ r'.dIn = (r.dIn.read len).2 ∧
      r'.dBuf = overwrite r.dBuf offset (r.dIn.read len).1 ∧ r'.position = r.position := by
  have short := read_length len r.dIn
  have within : offset + (r.dIn.read len).1.length ≤ r.dBuf.length := by
    rw [r.sized]
    exact Nat.le_trans (by omega) inside
  simp only [readInto, dif_pos within]
  exact ⟨_, rfl, rfl, rfl, rfl⟩

theorem overwrite_start (target bytes : List UInt8) :
    (overwrite target 0 bytes).take bytes.length = bytes := by
  simp [overwrite]

theorem overwrite_all {target bytes : List UInt8} (same : bytes.length = target.length) :
    overwrite target 0 bytes = bytes := by
  simp [overwrite, same]

theorem store_inside {target bytes : List UInt8} {offset : Nat}
    (inside : offset + bytes.length ≤ target.length) :
    store target (offset, bytes) = .ok (overwrite target offset bytes) :=
  if_pos inside

theorem store_outside {target bytes : List UInt8} {offset : Nat}
    (outside : target.length < offset + bytes.length) :
    store target (offset, bytes) = .error .undefinedBehaviour :=
  if_neg (Nat.not_le.mpr outside)

/-- `len += len & 3`. -/
theorem lengthened_toNat {n : Nat} (small : n ≤ 256) :
    (BitVec.ofNat 32 n + (BitVec.ofNat 32 n &&& 3#32)).toNat = n + n % 4 := by
  have masked : n &&& 3 = n % 4 := Nat.and_two_pow_sub_one_eq_mod n 2
  have whole : n % 2 ^ 32 = n := Nat.mod_eq_of_lt (by omega)
  simp only [BitVec.toNat_add, BitVec.toNat_and, BitVec.toNat_ofNat, whole]
  rw [Nat.mod_eq_of_lt (show 3 < 2 ^ 32 by decide), masked]
  omega

/-- What a `get_opaque` does with a length it accepts: that many bytes are read, and that
many go to the target. -/
theorem getOpaque_eq (documented : xdr.Documented) (r : UnMarshaller) (val : List UInt8) {n : Nat}
    (small : n ≤ 256) :
    ∃ r', r'.dIn = (r.dIn.read (n + n % 4)).2 ∧
      r'.dBuf = overwrite r.dBuf 0 (r.dIn.read (n + n % 4)).1 ∧
      getOpaque xdr val (BitVec.ofNat 32 n) r =
        match store val (0, r'.dBuf.take (n + n % 4)) with
        | .ok val => .ok val (seek r' (rounded (n + n % 4)))
        | .error e => .error e r' := by
  have lengthened := lengthened_toNat small
  have accepted : ¬ (BitVec.ofNat 32 n + (BitVec.ofNat 32 n &&& 3#32)).toInt >
      (xdrDapBuffSize : Int) := by
    rw [BitVec.toInt_eq_toNat_cond, lengthened]
    simp only [xdrDapBuffSize]
    omega
  obtain ⟨r', read, stream, buffer, position⟩ :=
    readInto_fits { r with position := 0 } 0 (n + n % 4) (by omega)
  have enough : rounded (n + n % 4) ≤ (r'.dBuf.drop 0).length := by
    have := rounded_le (n + n % 4)
    rw [List.drop_zero, r'.sized, xdrDapBuffSize]
    omega
  refine ⟨r', stream, buffer, ?_⟩
  simp only [getOpaque, call_eq, setpos, if_neg accepted, lengthened, read, decodeOpaque, position,
    List.drop_zero]
  rw [documented.decodeOpaque_eq _ _ (by simpa using enough)]
  simp only [Nat.zero_add]
  cases store val (0, r'.dBuf.take (n + n % 4)) <;> rfl

/-- The bytes of `d` come back into `val`, and the stream is at `s`. -/
def ReadBack (xdr : Routines) (d s out : List UInt8) (r : UnMarshaller) (val : List UInt8) : Prop :=
  ∃ sent, putOpaque xdr d out = .ok () (out ++ sent) ∧
    ∃ r', getOpaque xdr val (BitVec.ofNat 32 d.length) (on r (sent ++ s)) = .ok d r' ∧
      r'.dIn = ⟨s, false⟩

theorem getOpaque_of_multiple (documented : xdr.Documented) {d val : List UInt8}
    (small : d.length ≤ 256) (target : val.length = d.length) (multiple : d.length % 4 = 0)
    (r : UnMarshaller) (s : List UInt8) :
    ∃ r', getOpaque xdr val (BitVec.ofNat 32 d.length) (on r (d ++ s)) = .ok d r' ∧
      r'.dIn = ⟨s, false⟩ := by
  obtain ⟨r', stream, buffer, run⟩ := getOpaque_eq documented (on r (d ++ s)) val small
  rw [multiple, Nat.add_zero, on_dIn, read_append] at stream buffer
  have taken : r'.dBuf.take d.length = d := by
    rw [buffer]
    exact overwrite_start _ _
  rw [multiple, Nat.add_zero, taken, store_inside (by omega), overwrite_all target.symm] at run
  exact ⟨_, run, stream⟩

theorem getOpaque_of_other (documented : xdr.Documented) (val : List UInt8) {n : Nat}
    (small : n ≤ 256) (target : val.length = n) (other : n % 4 ≠ 0) (r : UnMarshaller) :
    ∃ r', getOpaque xdr val (BitVec.ofNat 32 n) r = .error .undefinedBehaviour r' := by
  obtain ⟨r', -, -, run⟩ := getOpaque_eq documented r val small
  have stored : (r'.dBuf.take (n + n % 4)).length = n + n % 4 := by
    rw [List.length_take, r'.sized, xdrDapBuffSize]
    omega
  rw [store_outside (by omega)] at run
  exact ⟨r', run⟩

/-! ## A library that does what the manual says -/

def decodeCount (mem : List UInt8) : Option Nat :=
  if 4 ≤ mem.length then some (Bytes.load .big (mem.take 4)) else none

def padded (t : Coder) (v : List UInt8) : List UInt8 := List.replicate (t.wire - t.width) 0 ++ v

def reference : Routines where
  encodeInt v := unsigned v.toNat
  decodeInt mem := (decodeCount mem).map fun cnt => (BitVec.ofNat 32 cnt, 4)
  encodeOpaque := opaqueData
  decodeOpaque cnt mem :=
    if rounded cnt ≤ mem.length then some (mem.take cnt, rounded cnt) else none
  encodeBytes maxsize data := if data.length ≤ maxsize then some (countedData data) else none
  decodeBytes maxsize mem :=
    match decodeCount mem with
    | none => none
    | some cnt =>
      if cnt ≤ maxsize ∧ rounded cnt ≤ (mem.drop 4).length then
        some ((mem.drop 4).take cnt, 4 + rounded cnt)
      else none
  encodeElement := padded
  encodeArray t maxsize elsize elems :=
    if elems.length ≤ maxsize ∧ elems.length * elsize < 2 ^ 32 then
      some (countedArray (elems.map (padded t)))
    else none
  decodeArray t maxsize elsize mem :=
    match decodeCount mem with
    | none => ⟨[], none⟩
    | some cnt =>
      if cnt ≤ maxsize ∧ cnt * elsize < 2 ^ 32 ∧ cnt * t.wire ≤ (mem.drop 4).length then
        ⟨((Bytes.pieces t.wire cnt (mem.drop 4)).map (·.drop (t.wire - t.width))).mapIdx
          fun j v => (j * elsize, v), some (cnt, 4 + cnt * t.wire)⟩
      else ⟨[], none⟩

theorem decodeCount_unsigned {cnt : Nat} (small : cnt < 2 ^ 32) (more : List UInt8) :
    decodeCount (unsigned cnt ++ more) = some cnt := by
  have long : 4 ≤ (unsigned cnt ++ more).length := by simp
  have taken : (unsigned cnt ++ more).take 4 = unsigned cnt := by
    apply List.take_left'
    exact unsigned_length cnt
  unfold decodeCount
  rw [if_pos long, taken, unsigned, Bytes.load_store .big (by simpa using small)]

theorem drop_unsigned (cnt : Nat) (more : List UInt8) :
    (unsigned cnt ++ more).drop 4 = more :=
  List.drop_left' (unsigned_length cnt)

theorem padded_length {t : Coder} {v : List UInt8} (wide : v.length = t.width) :
    (padded t v).length = t.wire := by
  have := t.width_cases
  simp only [padded, List.length_append, List.length_replicate]
  omega

theorem padded_each {t : Coder} {elems : List (List UInt8)} (wide : ∀ v ∈ elems, v.length = t.width) :
    ∀ v ∈ elems.map (padded t), v.length = t.wire := by
  intro v member
  obtain ⟨u, inside, rfl⟩ := List.mem_map.mp member
  exact padded_length (wide u inside)

theorem strip_padded (t : Coder) (elems : List (List UInt8)) :
    (elems.map (padded t)).map (·.drop (t.wire - t.width)) = elems := by
  simp [padded, Function.comp_def]

theorem reference_documented : reference.Documented where
  encodeInt_eq _ := rfl
  decodeInt_eq v more := by
    simp [reference, decodeCount_unsigned v.isLt]
  encodeOpaque_eq _ := rfl
  decodeOpaque_eq cnt mem enough := if_pos enough
  encodeBytes_eq maxsize data within := if_pos within
  decodeBytes_eq maxsize cnt mem small within enough := by
    simp [reference, decodeCount_unsigned small, within, enough]
  decodeBytes_within maxsize mem data used decoded := by
    simp only [reference] at decoded
    cases count : decodeCount mem with
    | none =>
      rw [count] at decoded
      cases decoded
    | some cnt =>
      have four : 4 ≤ mem.length := by
        by_contra short
        rw [decodeCount, if_neg short] at count
        cases count
      rw [count] at decoded
      by_cases fits : cnt ≤ maxsize ∧ rounded cnt ≤ (mem.drop 4).length
      · simp only [if_pos fits] at decoded
        cases decoded
        simp only [List.length_take, List.length_drop]
        omega
      · simp only [if_neg fits] at decoded
        cases decoded
  encodeElement_length t v wide := padded_length wide
  encodeArray_eq t maxsize elsize elems within small := if_pos ⟨within, small⟩
  encodeArray_only t maxsize elsize elems bytes encoded := by
    simp only [reference] at encoded
    by_cases fits : elems.length ≤ maxsize ∧ elems.length * elsize < 2 ^ 32
    · rw [if_pos fits] at encoded
      cases encoded
      rfl
    · rw [if_neg fits] at encoded
      cases encoded
  decodeArray_eq t maxsize elsize elems more wide within small fits := by
    have cut := pieces_flatten (padded_each wide) more
    have sent := length_flatten (padded_each wide)
    rw [List.length_map] at cut sent
    have enough : elems.length * t.wire ≤ ((elems.map (padded t)).flatten ++ more).length := by
      simp [sent]
    have stream : countedArray (elems.map (padded t)) ++ more =
        unsigned elems.length ++ ((elems.map (padded t)).flatten ++ more) := by
      simp [countedArray]
    simp only [reference]
    rw [stream]
    simp only [decodeCount_unsigned small, drop_unsigned, cut, strip_padded, within, fits, enough,
      and_self, if_true]

/-- The padding that is read is that which was written for whole words only. -/
theorem opaque_read_back_iff (documented : xdr.Documented) (d val : List UInt8)
    (some' : 1 ≤ d.length) (small : d.length ≤ 256) (target : val.length = d.length)
    (s out : List UInt8) (r : UnMarshaller) :
    ReadBack xdr d s out r val ↔ d.length % 4 = 0 := by
  have put := putOpaque_eq documented some' small out
  constructor
  · intro back
    obtain ⟨sent, -, r', run, -⟩ := back
    by_contra other
    obtain ⟨r'', failed⟩ := getOpaque_of_other documented val small target other (on r (sent ++ s))
    rw [run] at failed
    cases failed
  · intro multiple
    have unpadded : opaqueData d = d := by
      have same : rounded d.length = d.length := by
        unfold rounded
        omega
      simp [opaqueData, same]
    rw [unpadded] at put
    exact ⟨d, put, getOpaque_of_multiple documented small target multiple r s⟩

/-- A reader whose buffer has not been used. -/
def fresh : UnMarshaller where
  dIn := ⟨[], false⟩
  dBuf := List.replicate 4096 0
  sized := List.length_replicate
  position := 0

theorem opaque_four_read_back :
    ReadBack reference [1, 2, 3, 4] [9] [] fresh [0, 0, 0, 0] ↔ 4 % 4 = 0 :=
  opaque_read_back_iff reference_documented [1, 2, 3, 4] [0, 0, 0, 0] (by decide) (by decide) rfl
    [9] [] fresh

/-- The marker of a Sequence instance, one byte. -/
theorem start_of_instance_lost : ¬ ReadBack reference [0x5A] [] [] fresh [0] := by
  intro back
  obtain ⟨sent, -, r', run, -⟩ := back
  obtain ⟨r'', failed⟩ := getOpaque_of_other reference_documented [0] (n := 1) (by decide) rfl
    (by decide) (on fresh (sent ++ []))
  rw [List.length_singleton, failed] at run
  cases run

end Libdap.Guarantees.XDROpaque
