import Libdap.Guarantees.XDROpaque

/-!
# Vectors through the XDR stream marshallers

A vector goes over with its count, written once by `put_int` and once more by the XDR
library. The caller reads the first count, `get_vector` the second, and decodes from the
buffer it has filled, `d_buf` or one of its own.
-/
namespace Libdap.Guarantees.XDRVectors
open Libdap.Library Libdap.Library.ExternalData
open Libdap.Source Libdap.Source.XDR
open Libdap.Source.XDRStreamMarshaller (putVectorBytes putVector putInt send IntCounted)
open Libdap.Source.XDRStreamUnMarshaller
open Libdap.Guarantees.XDROpaque

variable {xdr : Routines}

/-! ## The stream and the counts on it -/

theorem read_exact {len : Nat} {bytes s : List UInt8}
    (at_s : (IStream.read len ⟨bytes ++ s, false⟩).2 = ⟨s, false⟩) : len = bytes.length := by
  simp only [IStream.read, Bool.false_eq_true, if_false, IStream.mk.injEq, decide_eq_false_iff_not,
    List.length_append] at at_s
  have left := congrArg List.length at_s.1
  simp only [List.length_drop, List.length_append] at left
  omega

theorem getInt_reads (documented : xdr.Documented) {r : UnMarshaller} {v : BitVec 32}
    {s : List UInt8} (ahead : r.dIn = ⟨unsigned v.toNat ++ s, false⟩) :
    ∃ r', getInt xdr r = .ok v r' ∧ r'.dIn = ⟨s, false⟩ ∧
      r'.dBuf.take 4 = unsigned v.toNat ∧ r'.position = 4 := by
  obtain ⟨r', read, stream, buffer, position⟩ :=
    readInto_fits { r with position := 0 } 0 4 (by decide)
  have four : r.dIn.read 4 = (unsigned v.toNat, ⟨s, false⟩) := by
    rw [ahead]
    have := read_append (unsigned v.toNat) s
    rwa [unsigned_length] at this
  rw [four] at stream buffer
  have decoded : xdr.decodeInt r'.dBuf = some (v, 4) := by
    rw [buffer, overwrite]
    exact documented.decodeInt_eq v _
  refine ⟨{ r' with position := 4 }, ?_, stream, ?_, rfl⟩
  · simp only [getInt, call_eq, setpos, read, decodeInt, position, List.drop_zero, decoded,
      Nat.zero_add]
  · have front := overwrite_start r.dBuf (unsigned v.toNat)
    rw [unsigned_length] at front
    simpa only [buffer] using front

theorem count_toNat {n : Nat} (fits : n < 2 ^ 31) : (BitVec.ofNat 32 n).toNat = n := by
  rw [BitVec.toNat_ofNat]
  exact Nat.mod_eq_of_lt (by omega)

theorem count_toInt {n : Nat} (fits : n < 2 ^ 31) : (BitVec.ofNat 32 n).toInt = n := by
  rw [BitVec.toInt_eq_toNat_cond, count_toNat fits, if_pos (by omega)]

theorem checkedInt_ok {value : Int} {r : UnMarshaller} (low : -2 ^ 31 ≤ value)
    (high : value < 2 ^ 31) : checkedInt value r = .ok value r :=
  if_pos ⟨low, high⟩

theorem checkedInt_returned {value result : Int} {r r' : UnMarshaller}
    (done : checkedInt value r = .ok result r') : value = result ∧ r = r' := by
  unfold checkedInt at done
  split at done
  · cases done
    exact ⟨rfl, rfl⟩
  · cases done

/-! ## Byte vectors -/

theorem putVectorBytes_eq (documented : xdr.Documented) (d : IntCounted) (out : List UInt8) :
    putVectorBytes xdr (some d) out =
      .ok () (out ++ (unsigned d.elems.length ++ countedData d.elems)) := by
  have room := rounded_le d.elems.length
  have encoded := documented.encodeBytes_eq (d.elems.length + 8) d.elems (by omega)
  simp only [putVectorBytes, call_eq, putInt_eq documented, count_toNat d.fits, encoded]
  rw [send_fits (by rw [countedData_length]; omega) (by rw [countedData_length]; omega),
    List.append_assoc]

/-- The caller reads the count, then the bytes, which are those of `d`; the stream is at `s`. -/
def BytesReadBack (xdr : Routines) (d : IntCounted) (s out : List UInt8) (r : UnMarshaller)
    (val : Option (List UInt8)) : Prop :=
  ∃ sent, putVectorBytes xdr (some d) out = .ok () (out ++ sent) ∧
    ∃ num r₁, getInt xdr (on r (sent ++ s)) = .ok num r₁ ∧ num.toNat = d.elems.length ∧
      ∃ val' r', getVectorBytes xdr val r₁ = .ok (val', d.elems.length) r' ∧
        val'.getD [] = d.elems ∧ r'.dIn = ⟨s, false⟩

theorem decodeBytes_shared (documented : xdr.Documented) {d : List UInt8} {val : Option (List UInt8)}
    (fits : d.length < 2 ^ 31) (target : ∀ b ∈ val, b.length = d.length) {r : UnMarshaller}
    {more : List UInt8} (start : r.position = 0) (buffer : r.dBuf = countedData d ++ more) :
    ∃ val' r', decodeBytes xdr val r = .ok (val', d.length) r' ∧ val'.getD [] = d ∧
      r'.dIn = r.dIn := by
  have decoded : xdr.decodeBytes dodsMaxArray (r.dBuf.drop r.position) =
      some (d, 4 + rounded d.length) := by
    rw [start, buffer, List.drop_zero, countedData, List.append_assoc,
      documented.decodeBytes_eq _ _ _ (by omega) (by simp only [dodsMaxArray]; omega) (by simp),
      opaqueData_take]
  by_cases empty : d.length = 0
  · refine ⟨val, seek r (r.position + (4 + rounded d.length)), ?_, ?_, rfl⟩
    · simp only [decodeBytes, decoded, empty, if_true, seek]
    · have none' := List.eq_nil_of_length_eq_zero empty
      cases val with
      | none => rw [none', Option.getD_none]
      | some b =>
        have same := target b rfl
        rw [empty] at same
        rw [Option.getD_some, none', List.eq_nil_of_length_eq_zero same]
  · have wide : (val.getD (List.replicate d.length 0)).length = d.length := by
      cases val with
      | none => simp
      | some b => exact target b rfl
    have stored : store (val.getD (List.replicate d.length 0)) (0, d) =
        .ok (overwrite (val.getD (List.replicate d.length 0)) 0 d) :=
      store_inside (by omega)
    rw [overwrite_all wide.symm] at stored
    refine ⟨some d, seek r (r.position + (4 + rounded d.length)), ?_, rfl, rfl⟩
    simp only [decodeBytes, decoded, if_neg empty, stored, seek]

/-- A vector that `get_vector` reads into `d_buf`, with the padding the library gave it. -/
theorem getVectorBytes_shared (documented : xdr.Documented) {d : List UInt8}
    {val : Option (List UInt8)} (even : d.length % 2 = 0) (small : d.length ≤ 4092)
    (target : ∀ b ∈ val, b.length = d.length) {r : UnMarshaller} {s : List UInt8}
    (ahead : r.dIn = ⟨countedData d ++ s, false⟩) :
    ∃ val' r', getVectorBytes xdr val r = .ok (val', d.length) r' ∧ val'.getD [] = d ∧
      r'.dIn = ⟨s, false⟩ := by
  have fits : d.length < 2 ^ 31 := by omega
  have read_count : r.dIn =
      ⟨unsigned (BitVec.ofNat 32 d.length).toNat ++ (opaqueData d ++ s), false⟩ := by
    rw [ahead, count_toNat fits, countedData, List.append_assoc]
  obtain ⟨r₁, count, stream, front, -⟩ := getInt_reads documented read_count
  have lengthened : (d.length : Int) + (d.length : Int) % 4 = (rounded d.length : Nat) := by
    unfold rounded
    omega
  have round : rounded d.length ≤ 4092 := by
    unfold rounded
    omega
  obtain ⟨r₂, read, stream₂, buffer, -⟩ :=
    readInto_fits r₁ 4 (rounded d.length) (by omega)
  have padded : r₁.dIn.read (rounded d.length) = (opaqueData d, ⟨s, false⟩) := by
    rw [stream]
    have := read_append (opaqueData d) s
    rwa [opaqueData_length] at this
  rw [padded] at stream₂ buffer
  have filled : r₂.dBuf = countedData d ++ r₁.dBuf.drop (4 + (opaqueData d).length) := by
    rw [buffer, overwrite, front, count_toNat fits, countedData]
  obtain ⟨val', r', decoded, same, still⟩ :=
    decodeBytes_shared documented fits target (r := { r₂ with position := 0 }) rfl filled
  refine ⟨val', r', ?_, same, still.trans stream₂⟩
  have no_overflow : checkedInt ((rounded d.length : Nat) : Int) r₁ = .ok (rounded d.length : Nat) r₁ :=
    checkedInt_ok (by omega) (by omega)
  have no_overflow' : checkedInt (((rounded d.length : Nat) : Int) + 4) r₁ =
      .ok (((rounded d.length : Nat) : Int) + 4) r₁ :=
    checkedInt_ok (by omega) (by omega)
  have short : ¬ ((rounded d.length : Nat) : Int) + 4 > (xdrDapBuffSize : Nat) := by
    simp only [xdrDapBuffSize]
    omega
  have positive : ¬ ((rounded d.length : Nat) : Int) < 0 := by omega
  unfold getVectorBytes
  rw [call_ok count]
  simp only [count_toInt fits, lengthened]
  rw [call_ok no_overflow, call_ok no_overflow', if_neg short, if_neg positive, Int.toNat_natCast,
    call_ok read]
  exact decoded

theorem decodeBytes_stream {val : Option (List UInt8)} {result : Option (List UInt8) × Nat}
    {r r' : UnMarshaller} (done : decodeBytes xdr val r = .ok result r') : r'.dIn = r.dIn := by
  unfold decodeBytes at done
  split at done
  · cases done
  · dsimp only at done
    split at done
    · cases done
      rfl
    · split at done
      · cases done
        rfl
      · cases done

/-- What is decoded after the count has been read is too short for the long branch. -/
theorem decodeBytes_behind_count (documented : xdr.Documented) {val : Option (List UInt8)}
    {val' : Option (List UInt8)} {num : Nat} {r r' : UnMarshaller} (start : r.position = 4)
    (done : decodeBytes xdr val r = .ok (val', num) r') : num ≤ 4088 := by
  unfold decodeBytes at done
  cases decoded : xdr.decodeBytes dodsMaxArray (r.dBuf.drop r.position) with
  | none =>
    rw [decoded] at done
    cases done
  | some found =>
    obtain ⟨data, used⟩ := found
    have within := documented.decodeBytes_within _ _ _ _ decoded
    rw [start, List.length_drop, r.sized, xdrDapBuffSize] at within
    rw [decoded] at done
    dsimp only at done
    split at done
    · cases done
      omega
    · split at done
      · cases done
        omega
      · cases done

/-- What a `get_vector` that returns has done: the bytes were padded to `i`, and either
they were all read into `d_buf` or the result is short. -/
theorem getVectorBytes_returned (documented : xdr.Documented) {n : Nat} (fits : n < 2 ^ 31)
    {val val' : Option (List UInt8)} {r r' : UnMarshaller} {ahead : List UInt8}
    (stream : r.dIn = ⟨unsigned n ++ ahead, false⟩)
    (done : getVectorBytes xdr val r = .ok (val', n) r') :
    n + n % 4 + 4 ≤ 4096 ∧ r'.dIn = (IStream.read (n + n % 4) ⟨ahead, false⟩).2 := by
  have read_count : r.dIn = ⟨unsigned (BitVec.ofNat 32 n).toNat ++ ahead, false⟩ := by
    rw [stream, count_toNat fits]
  obtain ⟨r₁, count, behind, -, position⟩ := getInt_reads documented read_count
  unfold getVectorBytes at done
  rw [call_ok count] at done
  have natural : (n : Int) + (n : Int) % 4 = ((n + n % 4 : Nat) : Int) := by omega
  rw [count_toInt fits, natural] at done
  obtain ⟨i, _, padded, summed⟩ := bind_returned done
  obtain ⟨rfl, rfl⟩ := checkedInt_returned padded
  obtain ⟨size, _, sum, branch⟩ := bind_returned summed
  obtain ⟨rfl, rfl⟩ := checkedInt_returned sum
  by_cases long : ((n + n % 4 : Nat) : Int) + 4 > (xdrDapBuffSize : Nat)
  · rw [if_pos long] at branch
    obtain ⟨_, r₂, apart, decoded⟩ := bind_returned branch
    have still : r₂.position = 4 := by
      cases apart
      exact position
    have short := decodeBytes_behind_count documented still decoded
    simp only [xdrDapBuffSize] at long
    omega
  · rw [if_neg long, if_neg (by omega), Int.toNat_natCast] at branch
    simp only [xdrDapBuffSize] at long
    obtain ⟨r₂, read, stream₂, -⟩ := readInto_fits r₁ 4 (n + n % 4) (by omega)
    rw [call_ok read] at branch
    obtain ⟨_, r₃, moved, decoded⟩ := bind_returned branch
    refine ⟨by omega, ?_⟩
    rw [decodeBytes_stream decoded, ← behind, ← stream₂]
    cases moved
    rfl

/-- The stream after a byte vector and after the count the caller reads from it. -/
theorem bytes_counted (documented : xdr.Documented) (d : IntCounted) (s out : List UInt8)
    (r : UnMarshaller) :
    putVectorBytes xdr (some d) out =
        .ok () (out ++ (unsigned d.elems.length ++ countedData d.elems)) ∧
      ∃ r₁, getInt xdr (on r (unsigned d.elems.length ++ countedData d.elems ++ s)) =
          .ok (BitVec.ofNat 32 d.elems.length) r₁ ∧
        r₁.dIn = ⟨countedData d.elems ++ s, false⟩ := by
  have ahead : (on r (unsigned d.elems.length ++ countedData d.elems ++ s)).dIn =
      ⟨unsigned (BitVec.ofNat 32 d.elems.length).toNat ++ (countedData d.elems ++ s), false⟩ := by
    rw [on_dIn, count_toNat d.fits, List.append_assoc]
  obtain ⟨r₁, count, stream, -, -⟩ := getInt_reads documented ahead
  exact ⟨putVectorBytes_eq documented d out, r₁, count, stream⟩

theorem bytes_read_back_only (documented : xdr.Documented) (d : IntCounted) {s out : List UInt8}
    {r : UnMarshaller} {val : Option (List UInt8)} (back : BytesReadBack xdr d s out r val) :
    d.elems.length % 2 = 0 ∧ d.elems.length ≤ 4092 := by
  obtain ⟨put, r₁, count, stream⟩ := bytes_counted documented d s out r
  obtain ⟨sent, put', num, r₁', count', -, val', r', run, -, at_s⟩ := back
  have same : sent = unsigned d.elems.length ++ countedData d.elems := by
    rw [put'] at put
    injection put with _ written
    exact List.append_cancel_left written
  rw [same, count] at count'
  cases count'
  have behind : r₁.dIn = ⟨unsigned d.elems.length ++ (opaqueData d.elems ++ s), false⟩ := by
    rw [stream, countedData, List.append_assoc]
  obtain ⟨small, left⟩ := getVectorBytes_returned documented d.fits behind run
  have whole := read_exact (left.symm.trans at_s)
  rw [opaqueData_length] at whole
  unfold rounded at whole
  omega

/-- A vector of bytes comes back, with what is behind it left, only if its length is even and it
fits the buffer. -/
theorem bytes_read_back_iff (documented : xdr.Documented) (d : IntCounted) (s out : List UInt8)
    (r : UnMarshaller) (val : Option (List UInt8)) (target : ∀ b ∈ val, b.length = d.elems.length) :
    BytesReadBack xdr d s out r val ↔ d.elems.length % 2 = 0 ∧ d.elems.length ≤ 4092 := by
  constructor
  · exact bytes_read_back_only documented d
  · intro condition
    obtain ⟨put, r₁, count, stream⟩ := bytes_counted documented d s out r
    exact ⟨_, put, _, r₁, count, count_toNat d.fits,
      getVectorBytes_shared documented condition.1 condition.2 target stream⟩

theorem two_bytes_read_back :
    BytesReadBack reference ⟨[1, 2], by decide⟩ [9] [] fresh none ↔ 2 % 2 = 0 ∧ 2 ≤ 4092 :=
  bytes_read_back_iff reference_documented ⟨[1, 2], by decide⟩ [9] [] fresh none
    fun _ absent => by cases absent

/-- One byte: two of its three padding bytes stay on the stream. -/
theorem one_byte_not_read_back :
    ¬ BytesReadBack reference ⟨[1], by decide⟩ [9] [] fresh none := by
  intro back
  have condition := bytes_read_back_only reference_documented _ back
  simp at condition

/-! ## Stores into the memory of the caller -/

theorem store_same_length {target target' : List UInt8} {place : Nat × List UInt8}
    (done : store target place = .ok target') :
    target'.length = target.length ∧ place.1 + place.2.length ≤ target.length := by
  unfold store at done
  split at done
  · rename_i inside
    cases done
    exact ⟨overwrite_length inside, inside⟩
  · cases done

theorem stores_inside {stores : List (Nat × List UInt8)} {target target' : List UInt8}
    (done : stores.foldlM store target = .ok target') :
    ∀ place ∈ stores, place.1 + place.2.length ≤ target.length := by
  induction stores generalizing target with
  | nil => intro place member; cases member
  | cons first stores ih =>
    rw [List.foldlM_cons] at done
    obtain ⟨middle, stored, rest⟩ := bind_success done
    obtain ⟨same, inside⟩ := store_same_length stored
    intro place member
    cases member with
    | head => exact inside
    | tail _ later =>
      rw [← same]
      exact ih rest place later

/-- Elements stored one behind the other fill the target. -/
theorem stores_fill {width : Nat} {elems : List (List UInt8)} (wide : ∀ v ∈ elems, v.length = width)
    (k : Nat) (before after : List UInt8) (behind : before.length = k * width)
    (room : after.length = elems.length * width) :
    (elems.mapIdx fun j v => ((k + j) * width, v)).foldlM store (before ++ after) =
      .ok (before ++ elems.flatten) := by
  induction elems generalizing k before after with
  | nil =>
    have none' : after = [] := List.eq_nil_of_length_eq_zero (by simpa using room)
    simp [none', pure, Except.pure]
  | cons v elems ih =>
    have head : v.length = width := wide v List.mem_cons_self
    have more : after.length = width + elems.length * width := by
      rw [room, List.length_cons, Nat.add_mul, Nat.one_mul, Nat.add_comm]
    have inside : k * width + v.length ≤ (before ++ after).length := by
      rw [List.length_append, behind]
      omega
    have stored : overwrite (before ++ after) (k * width) v = (before ++ v) ++ after.drop width := by
      rw [overwrite, ← behind, List.take_left, List.drop_append, List.drop_eq_nil_of_le (by omega)]
      simp [head]
    have next := ih (fun u member => wide u (List.mem_cons_of_mem v member)) (k + 1)
      (before ++ v) (after.drop width)
      (by rw [List.length_append, behind, head, Nat.add_mul, Nat.one_mul])
      (by rw [List.length_drop]; omega)
    have shifted : (fun (j : Nat) (u : List UInt8) => ((k + (j + 1)) * width, u)) =
        fun j u => ((k + 1 + j) * width, u) := by
      funext j u
      rw [Nat.add_right_comm k 1 j, Nat.add_assoc]
    rw [List.mapIdx_cons, List.foldlM_cons, Nat.add_zero, store_inside inside, stored, shifted,
      List.flatten_cons, ← List.append_assoc]
    exact next

/-! ## Numeric vectors -/

/-- The values of a vector as the host keeps them, counted in an `int`. -/
structure NumericVector (t : Coder) where
  elems : List (List UInt8)
  wide : ∀ v ∈ elems, v.length = t.width
  fits : elems.length < 2 ^ 31

variable {t : Coder}

/-- What the library sends for the values. -/
def sentArray (xdr : Routines) (d : NumericVector t) : List UInt8 :=
  countedArray (d.elems.map (xdr.encodeElement t))

/-- What the elements take on the stream. -/
def onStream (d : NumericVector t) : Nat := d.elems.length * t.wire

theorem encoded_each (documented : xdr.Documented) (d : NumericVector t) :
    ∀ v ∈ d.elems.map (xdr.encodeElement t), v.length = t.wire := by
  intro v member
  obtain ⟨u, inside, rfl⟩ := List.mem_map.mp member
  exact documented.encodeElement_length t u (d.wide u inside)

theorem encoded_flatten_length (documented : xdr.Documented) (d : NumericVector t) :
    (d.elems.map (xdr.encodeElement t)).flatten.length = onStream d := by
  rw [length_flatten (encoded_each documented d), List.length_map, onStream]

theorem sentArray_length (documented : xdr.Documented) (d : NumericVector t) :
    (sentArray xdr d).length = 4 + onStream d := by
  rw [sentArray, countedArray, List.length_append, unsigned_length,
    encoded_flatten_length documented]

theorem width_le_wire (t : Coder) : t.width ≤ t.wire := by
  have := t.width_cases
  omega

theorem elems_le_onStream (d : NumericVector t) : d.elems.length ≤ onStream d := by
  have := t.wire_cases
  unfold onStream
  rcases this with four | eight
  · rw [four]; omega
  · rw [eight]; omega

/-- `(num * use_width) + 4`, in 32 bits. -/
theorem size_toNat (d : NumericVector t) :
    (BitVec.ofNat 32 d.elems.length * BitVec.ofNat 32 t.wire + 4#32).toNat =
      (onStream d + 4) % 2 ^ 32 := by
  simp [onStream, BitVec.toNat_add, BitVec.toNat_mul]

theorem useWidth_eq (t : Coder) : (if t.width < 4 then 4 else t.width) = t.wire := by
  cases t <;> rfl

theorem putVector_fits (documented : xdr.Documented) (d : NumericVector t)
    (small : onStream d + 4 < 2 ^ 31) (out : List UInt8) :
    putVector xdr (some d.elems.flatten) (BitVec.ofNat 32 d.elems.length) t.width t out =
      .ok () (out ++ (unsigned d.elems.length ++ sentArray xdr d)) := by
  have size := size_toNat d
  rw [Nat.mod_eq_of_lt (by omega)] at size
  have natural : ¬ (BitVec.ofNat 32 d.elems.length * BitVec.ofNat 32 t.wire + 4#32).toInt < 0 := by
    rw [BitVec.toInt_eq_toNat_cond, size]
    omega
  have cut := pieces_flatten d.wide []
  rw [List.append_nil] at cut
  have few := elems_le_onStream d
  have narrow : d.elems.length * t.width ≤ onStream d := Nat.mul_le_mul_left _ (width_le_wire t)
  have encoded := documented.encodeArray_eq t (onStream d + 4) t.width d.elems (by omega) (by omega)
  have length := sentArray_length documented d
  unfold putVector
  simp only [call_eq, putInt_eq documented, count_toNat d.fits, useWidth_eq, if_neg natural, size,
    cut, encoded]
  change send _ (some (sentArray xdr d)) _ _ _ = _
  rw [send_fits (by omega) (by omega), List.append_assoc]

theorem send_returned {size : Nat} {encoded : Option (List UInt8)} {notSent noPosition : String}
    {out out' : List UInt8} (done : send size encoded notSent noPosition out = .ok () out') :
    ∃ bytes, encoded = some bytes ∧ bytes.length ≤ size := by
  unfold send at done
  split at done
  · cases done
  · rename_i bytes
    split at done
    · cases done
    · exact ⟨bytes, rfl, by omega⟩

/-- A size that does not fit an `int` comes out too small, and the library finds no room. -/
theorem putVector_fits_only (documented : xdr.Documented) (d : NumericVector t)
    {out out' : List UInt8}
    (done : putVector xdr (some d.elems.flatten) (BitVec.ofNat 32 d.elems.length) t.width t out =
      .ok () out') : onStream d + 4 < 2 ^ 31 := by
  by_contra large
  have size := size_toNat d
  have cut := pieces_flatten d.wide []
  rw [List.append_nil] at cut
  unfold putVector at done
  simp only [call_eq, putInt_eq documented, count_toNat d.fits, useWidth_eq, cut] at done
  by_cases negative : (BitVec.ofNat 32 d.elems.length * BitVec.ofNat 32 t.wire + 4#32).toInt < 0
  · rw [if_pos negative] at done
    obtain ⟨_, _, thrown, _⟩ := bind_returned done
    cases thrown
  · rw [if_neg negative] at done
    obtain ⟨bytes, encoded, room⟩ := send_returned done
    have length := sentArray_length documented d
    have sent : bytes = sentArray xdr d := documented.encodeArray_only _ _ _ _ _ encoded
    rw [BitVec.toInt_eq_toNat_cond] at negative
    rw [sent, length] at room
    split at negative
    · omega
    · have := (BitVec.ofNat 32 d.elems.length * BitVec.ofNat 32 t.wire + 4#32).isLt
      omega

/-! ## Reading numeric vectors -/

/-- The elements go to places the width of the stream apart. Where that is their own width
they fill the target, and so does one element alone. -/
theorem stores_spaced {elems : List (List UInt8)} (wide : ∀ v ∈ elems, v.length = t.width)
    (close : t.width = t.wire ∨ elems.length ≤ 1) {val : List UInt8}
    (target : val.length = elems.length * t.width) :
    (elems.mapIdx fun j v => (j * t.wire, v)).foldlM store val = .ok elems.flatten := by
  have same : (elems.mapIdx fun j v => (j * t.wire, v)) =
      elems.mapIdx fun j v => ((0 + j) * t.width, v) := by
    rcases close with equal | few
    · simp only [equal, Nat.zero_add]
    · match elems, few with
      | [], _ => rfl
      | [v], _ => simp
  rw [same]
  exact stores_fill wide 0 [] val (by simp) target

/-- Two elements of two bytes already reach beyond it. -/
theorem stores_overrun {elems : List (List UInt8)} (wide : ∀ v ∈ elems, v.length = t.width)
    (apart : t.width ≠ t.wire) (many : 2 ≤ elems.length) {val result : List UInt8}
    (target : val.length = elems.length * t.width) :
    (elems.mapIdx fun j v => (j * t.wire, v)).foldlM store val ≠ .ok result := by
  intro done
  have two : t.width = 2 ∧ t.wire = 4 := by
    have := t.width_cases
    omega
  have last : elems.length - 1 < elems.length := by omega
  have member : ((elems.length - 1) * t.wire, elems[elems.length - 1]) ∈
      elems.mapIdx fun j v => (j * t.wire, v) :=
    List.mem_mapIdx.mpr ⟨elems.length - 1, last, rfl⟩
  have inside := stores_inside done _ member
  have length := wide elems[elems.length - 1] (List.getElem_mem last)
  rw [target, length, two.1, two.2] at inside
  omega

theorem read_elements (documented : xdr.Documented) (d : NumericVector t) {s : List UInt8}
    {r₁ : UnMarshaller}
    (behind : r₁.dIn = ⟨(d.elems.map (xdr.encodeElement t)).flatten ++ s, false⟩) :
    r₁.dIn.read (onStream d) = ((d.elems.map (xdr.encodeElement t)).flatten, ⟨s, false⟩) := by
  have exact_length := read_append (d.elems.map (xdr.encodeElement t)).flatten s
  rwa [encoded_flatten_length documented d, ← behind] at exact_length

/-- The vector made for the call holds what the library sent. -/
theorem apart_filled (documented : xdr.Documented) (d : NumericVector t)
    {r₁ : UnMarshaller} (front : r₁.dBuf.take 4 = unsigned d.elems.length) :
    overwrite (List.replicate (onStream d + 4) 0) 0
      (r₁.dBuf.take 4 ++ (d.elems.map (xdr.encodeElement t)).flatten) = sentArray xdr d := by
  have length := encoded_flatten_length documented d
  rw [overwrite_all, front, sentArray, countedArray, List.length_map]
  rw [front, List.length_append, unsigned_length, length, List.length_replicate]
  omega

section
variable (documented : xdr.Documented) (d : NumericVector t) (small : onStream d + 4 < 2 ^ 31)
include documented small

theorem array_decoded (more : List UInt8) :
    xdr.decodeArray t dodsMaxArray t.wire (sentArray xdr d ++ more) =
      ⟨d.elems.mapIdx fun j v => (j * t.wire, v), some (d.elems.length, 4 + onStream d)⟩ := by
  have few := elems_le_onStream d
  apply documented.decodeArray_eq t _ _ d.elems more d.wide
  · simp only [dodsMaxArray]
    omega
  · omega
  · change onStream d < 2 ^ 32
    omega

theorem decodeArray_close (close : t.width = t.wire ∨ d.elems.length ≤ 1) {val : List UInt8}
    (target : val.length = d.elems.length * t.width) (more : List UInt8) :
    decodeArray xdr (some val) t.wire t (sentArray xdr d ++ more) =
      .ok (some d.elems.flatten, d.elems.length, 4 + onStream d) := by
  have stored := stores_spaced d.wide close target
  unfold decodeArray
  rw [array_decoded documented d small]
  simp only [Option.getD_some, stored]
  by_cases none' : d.elems.length = 0
  · have no_val : val = [] := List.eq_nil_of_length_eq_zero (by simpa [none'] using target)
    have no_elems := List.eq_nil_of_length_eq_zero none'
    simp [no_val, no_elems, bind, Except.bind, pure, Except.pure]
  · simp [none', bind, Except.bind, pure, Except.pure]

theorem decodeArray_apart (apart : t.width ≠ t.wire) (many : 2 ≤ d.elems.length) {val : List UInt8}
    (target : val.length = d.elems.length * t.width) (more : List UInt8)
    (result : Option (List UInt8) × Nat × Nat) :
    decodeArray xdr (some val) t.wire t (sentArray xdr d ++ more) ≠ .ok result := by
  intro done
  unfold decodeArray at done
  rw [array_decoded documented d small] at done
  obtain ⟨stored, run, -⟩ := bind_success done
  exact stores_overrun d.wide apart many target run

/-- The count in front of the elements has been read, and how many bytes follow is known. -/
theorem getVector_counted (val : List UInt8) {r : UnMarshaller} {s : List UInt8}
    (stream : r.dIn = ⟨sentArray xdr d ++ s, false⟩) :
    ∃ r₁, r₁.dIn = ⟨(d.elems.map (xdr.encodeElement t)).flatten ++ s, false⟩ ∧
      r₁.dBuf.take 4 = unsigned d.elems.length ∧
      getVector xdr (some val) t.width t r =
        (if (onStream d : Int) > xdrDapBuffSize then do
            let bytes ← readApart (onStream d)
            decodeApart xdr (some val) t.wire t (onStream d) bytes
          else do
            readInto 4 (onStream d)
            setpos 0
            decodeShared xdr (some val) t.wire t : Get _) r₁ := by
  have read_count : r.dIn = ⟨unsigned (BitVec.ofNat 32 d.elems.length).toNat ++
      ((d.elems.map (xdr.encodeElement t)).flatten ++ s), false⟩ := by
    rw [stream, count_toNat d.fits, sentArray, countedArray, List.length_map, List.append_assoc]
  obtain ⟨r₁, count, behind, front, -⟩ := getInt_reads documented read_count
  rw [count_toNat d.fits] at front
  have product : (d.elems.length : Int) * ((t.width + t.width % 4 : Nat) : Int) = (onStream d : Nat) := by
    rw [← t.wire_eq, onStream, Nat.cast_mul]
  have fits_int : checkedInt ((onStream d : Nat) : Int) r₁ = .ok (onStream d : Nat) r₁ :=
    checkedInt_ok (by omega) (by omega)
  have fits_int' : checkedInt (((onStream d : Nat) : Int) + 4) r₁ =
      .ok (((onStream d : Nat) : Int) + 4) r₁ :=
    checkedInt_ok (by omega) (by omega)
  refine ⟨r₁, behind, front, ?_⟩
  unfold getVector
  rw [call_ok count]
  simp only [count_toInt d.fits, product]
  rw [call_ok fits_int, ← t.wire_eq]
  by_cases long : ((onStream d : Nat) : Int) > (xdrDapBuffSize : Nat)
  · rw [if_pos long, if_pos long, call_ok fits_int', Int.toNat_natCast]
  · rw [if_neg long, if_neg long, if_neg (by omega), Int.toNat_natCast]

theorem getVector_close (close : t.width = t.wire ∨ d.elems.length ≤ 1)
    (room : onStream d ≠ 4096) {val : List UInt8}
    (target : val.length = d.elems.length * t.width) {r : UnMarshaller} {s : List UInt8}
    (stream : r.dIn = ⟨sentArray xdr d ++ s, false⟩) :
    ∃ r', getVector xdr (some val) t.width t r = .ok (some d.elems.flatten, d.elems.length) r' ∧
      r'.dIn = ⟨s, false⟩ := by
  obtain ⟨r₁, behind, front, run⟩ := getVector_counted documented d small val stream
  have elements := read_elements documented d behind
  rw [run]
  by_cases long : ((onStream d : Nat) : Int) > (xdrDapBuffSize : Nat)
  · have decoded := decodeArray_close documented d small close target []
    rw [List.append_nil] at decoded
    refine ⟨{ r₁ with dIn := ⟨s, false⟩ }, ?_, rfl⟩
    have read : readApart (onStream d) r₁ =
        .ok (d.elems.map (xdr.encodeElement t)).flatten { r₁ with dIn := ⟨s, false⟩ } := by
      simp only [readApart, elements]
    rw [if_pos long, call_ok read]
    simp only [decodeApart, apart_filled documented d front, decoded]
  · rw [if_neg long]
    simp only [xdrDapBuffSize] at long
    have multiple : onStream d % 4 = 0 := by
      unfold onStream
      rcases t.wire_cases with four | eight
      · rw [four]; omega
      · rw [eight]; omega
    obtain ⟨r₂, read, stream₂, buffer, -⟩ :=
      readInto_fits r₁ 4 (onStream d) (by omega)
    rw [elements] at stream₂ buffer
    have filled : r₂.dBuf = sentArray xdr d ++
        r₁.dBuf.drop (4 + (d.elems.map (xdr.encodeElement t)).flatten.length) := by
      rw [buffer, overwrite, front, sentArray, countedArray, List.length_map]
    have decoded := decodeArray_close documented d small close target
      (r₁.dBuf.drop (4 + (d.elems.map (xdr.encodeElement t)).flatten.length))
    rw [← filled] at decoded
    refine ⟨seek r₂ (0 + (4 + onStream d)), ?_, stream₂⟩
    rw [call_ok read]
    change decodeShared xdr (some val) t.wire t { r₂ with position := 0 } = _
    simp only [decodeShared, List.drop_zero, decoded, seek]

/-- What a `get_vector` that returns the values has had: room for them in `d_buf` or a
vector of its own, and places for the elements that do not reach beyond the target. -/
theorem getVector_returned {val : List UInt8} (target : val.length = d.elems.length * t.width)
    {r r' : UnMarshaller} {s : List UInt8} (stream : r.dIn = ⟨sentArray xdr d ++ s, false⟩)
    {result : Option (List UInt8) × Nat}
    (done : getVector xdr (some val) t.width t r = .ok result r') :
    (t.width = t.wire ∨ d.elems.length ≤ 1) ∧ onStream d ≠ 4096 := by
  obtain ⟨r₁, behind, front, run⟩ := getVector_counted documented d small val stream
  have elements := read_elements documented d behind
  have length := encoded_flatten_length documented d
  rw [run] at done
  have close_of : ∀ more whole, decodeArray xdr (some val) t.wire t (sentArray xdr d ++ more) =
      .ok whole → t.width = t.wire ∨ d.elems.length ≤ 1 := by
    intro more whole decoded
    by_contra other
    rw [not_or] at other
    exact decodeArray_apart documented d small other.1 (by omega) target more whole decoded
  by_cases long : ((onStream d : Nat) : Int) > (xdrDapBuffSize : Nat)
  · rw [if_pos long] at done
    obtain ⟨bytes, r₂, read, decoded⟩ := bind_returned done
    refine ⟨?_, by simp only [xdrDapBuffSize] at long; omega⟩
    simp only [readApart, elements] at read
    cases read
    simp only [decodeApart, apart_filled documented d front] at decoded
    split at decoded
    · rename_i whole
      exact close_of [] _ (by rwa [List.append_nil])
    · cases decoded
  · rw [if_neg long] at done
    obtain ⟨_, r₂, read, moved⟩ := bind_returned done
    by_cases room : 4 + onStream d ≤ 4096
    · obtain ⟨r₂', read', stream₂, buffer, -⟩ := readInto_fits r₁ 4 (onStream d) room
      rw [read'] at read
      cases read
      rw [elements] at buffer
      have filled : r₂.dBuf = sentArray xdr d ++
          r₁.dBuf.drop (4 + (d.elems.map (xdr.encodeElement t)).flatten.length) := by
        rw [buffer, overwrite, front, sentArray, countedArray, List.length_map]
      change decodeShared xdr (some val) t.wire t { r₂ with position := 0 } = _ at moved
      simp only [decodeShared, List.drop_zero] at moved
      refine ⟨?_, by omega⟩
      split at moved
      · rename_i whole
        rw [filled] at whole
        exact close_of _ _ whole
      · cases moved
    · have outside : ¬ 4 + (d.elems.map (xdr.encodeElement t)).flatten.length ≤ r₁.dBuf.length := by
        rw [r₁.sized, length, xdrDapBuffSize]
        exact room
      simp only [readInto, elements, dif_neg outside] at read
      cases read

end

/-- The caller reads the count, then the values into memory of just their size; the stream
is at `s`. -/
def VectorReadBack (xdr : Routines) (t : Coder) (d : NumericVector t) (s out : List UInt8)
    (r : UnMarshaller) (val : List UInt8) : Prop :=
  ∃ sent, putVector xdr (some d.elems.flatten) (BitVec.ofNat 32 d.elems.length) t.width t out =
      .ok () (out ++ sent) ∧
    ∃ num r₁, getInt xdr (on r (sent ++ s)) = .ok num r₁ ∧ num.toNat = d.elems.length ∧
      ∃ r', getVector xdr (some val) t.width t r₁ =
          .ok (some d.elems.flatten, d.elems.length) r' ∧
        r'.dIn = ⟨s, false⟩

theorem vector_counted (documented : xdr.Documented) (d : NumericVector t) (s : List UInt8)
    (r : UnMarshaller) :
    ∃ r₁, getInt xdr (on r (unsigned d.elems.length ++ sentArray xdr d ++ s)) =
        .ok (BitVec.ofNat 32 d.elems.length) r₁ ∧
      r₁.dIn = ⟨sentArray xdr d ++ s, false⟩ := by
  have ahead : (on r (unsigned d.elems.length ++ sentArray xdr d ++ s)).dIn =
      ⟨unsigned (BitVec.ofNat 32 d.elems.length).toNat ++ (sentArray xdr d ++ s), false⟩ := by
    rw [on_dIn, count_toNat d.fits, List.append_assoc]
  obtain ⟨r₁, count, stream, -, -⟩ := getInt_reads documented ahead
  exact ⟨r₁, count, stream⟩

theorem vector_read_back_only (documented : xdr.Documented) (d : NumericVector t)
    {s out : List UInt8} {r : UnMarshaller} {val : List UInt8}
    (target : val.length = d.elems.length * t.width) (back : VectorReadBack xdr t d s out r val) :
    (t.width = t.wire ∨ d.elems.length ≤ 1) ∧ d.elems.length * t.wire ≠ 4096 ∧
      d.elems.length * t.wire + 4 < 2 ^ 31 := by
  obtain ⟨r₁, count, stream⟩ := vector_counted documented d s r
  obtain ⟨sent, put, num, r₁', count', -, r', run, -⟩ := back
  have small := putVector_fits_only documented d put
  have put' := putVector_fits documented d small out
  have same : sent = unsigned d.elems.length ++ sentArray xdr d := by
    rw [put] at put'
    injection put' with _ written
    exact List.append_cancel_left written
  rw [same, count] at count'
  cases count'
  obtain ⟨close, room⟩ := getVector_returned documented d small target stream run
  exact ⟨close, room, small⟩

/-- A numeric vector comes back only if its elements have the same width in memory and on the wire,
or there is at most one of them, and it neither fills the buffer exactly nor is too long for an
`int`. -/
theorem vector_read_back_iff (documented : xdr.Documented) (t : Coder) (d : NumericVector t)
    (s out : List UInt8) (r : UnMarshaller) (val : List UInt8)
    (target : val.length = d.elems.length * t.width) :
    VectorReadBack xdr t d s out r val ↔
      (t.width = t.wire ∨ d.elems.length ≤ 1) ∧ d.elems.length * t.wire ≠ 4096 ∧
        d.elems.length * t.wire + 4 < 2 ^ 31 := by
  constructor
  · exact vector_read_back_only documented d target
  · intro condition
    obtain ⟨close, room, small⟩ := condition
    obtain ⟨r₁, count, stream⟩ := vector_counted documented d s r
    exact ⟨_, putVector_fits documented d small out, _, r₁, count, count_toNat d.fits,
      getVector_close documented d small close room target stream⟩

def threeInts : NumericVector .int32 :=
  ⟨[[0, 0, 0, 1], [255, 255, 255, 255], [0, 0, 1, 0]], by decide, by decide⟩

theorem int32_read_back :
    VectorReadBack reference .int32 threeInts [9] [] fresh (List.replicate 12 0) :=
  (vector_read_back_iff reference_documented .int32 threeInts [9] [] fresh
    (List.replicate 12 0) rfl).mpr ⟨.inl rfl, by decide, by decide⟩

/-- Two values of 16 bits: the second goes to offset 4 of four bytes. -/
theorem two_int16_not_read_back :
    ¬ VectorReadBack reference .int16 ⟨[[0, 1], [0, 2]], by decide, by decide⟩ [] [] fresh
      [0, 0, 0, 0] := by
  intro back
  have condition := vector_read_back_only reference_documented _ rfl back
  simp [Coder.width, Coder.wire] at condition

end Libdap.Guarantees.XDRVectors
