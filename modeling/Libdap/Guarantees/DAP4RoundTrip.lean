import Libdap.Guarantees.DAP4Get
import Libdap.Guarantees.DAP4ChecksumMode

/-!
# Round trip between hosts of either byte order

A list of data is written on one host and read on another with the matching
requests. What comes back is decided datum by datum: doubles are lost between
hosts that differ, one-byte typed vectors are refused there, and lengths from
`2 ^ 31` on do not survive their prefix. Everything else comes back.
-/
namespace Libdap.Guarantees.DAP4RoundTrip
open Libdap.Library Libdap.Library.Bytes
open Libdap.Source Libdap.Source.DAP4StreamMarshaller Libdap.Source.DAP4StreamUnMarshaller
open DAP4Put DAP4ChecksumMode DAP4Get

def valueOf : Datum → Value
  | .byte val | .int8 val => .scalar 8 val
  | .int16 val | .uint16 val => .scalar 16 val
  | .int32 val | .uint32 val | .float32 val => .scalar 32 val
  | .int64 val | .uint64 val | .float64 val => .scalar 64 val
  | .str val | .url val => .bytes val.bytes
  | .opaqueData val | .vector val | .varyingVector val => .bytes val.elems
  | .vectorOf width val | .varyingVectorOf width val => .elements width val.elems

/-- The get operations that match a put. An opaque may be read with or without
its length known; the buffer for a typed vector has its size and any content. -/
inductive Matching : Datum → Request → Prop
  | byte (val) : Matching (.byte val) .byte
  | int8 (val) : Matching (.int8 val) .int8
  | int16 (val) : Matching (.int16 val) .int16
  | int32 (val) : Matching (.int32 val) .int32
  | int64 (val) : Matching (.int64 val) .int64
  | uint16 (val) : Matching (.uint16 val) .uint16
  | uint32 (val) : Matching (.uint32 val) .uint32
  | uint64 (val) : Matching (.uint64 val) .uint64
  | float32 (val) : Matching (.float32 val) .float32
  | float64 (val) : Matching (.float64 val) .float64
  | str (val) : Matching (.str val) .str
  | url (val) : Matching (.url val) .url
  | opaqueKnown (val) : Matching (.opaqueData val) (.opaqueKnown val.elems.length)
  | opaqueData (val) : Matching (.opaqueData val) .opaqueData
  | vector (val) : Matching (.vector val) (.vector val.elems.length)
  | varyingVector (val) : Matching (.varyingVector val) .varyingVector
  | vectorOf (width val buffer) (room : buffer.length = val.elems.length * width.bytes) :
      Matching (.vectorOf width val) (.vectorOf width val.elems.length buffer)
  | varyingVectorOf (width val) : Matching (.varyingVectorOf width val) (.varyingVectorOf width)

/-- What the writer's `out` is, given to the matching requests in front of any
later bytes, comes back as the values, and the later bytes are what is left. -/
def RoundTrips (writer reader : ByteOrder) (data : List Datum) : Prop :=
  ∃ m, run (.resetChecksum :: data.map .put) (DAP4StreamMarshaller.make writer true) = .ok () m ∧
    ∀ requests, List.Forall₂ Matching data requests → ∀ tail,
      getAll requests
          (DAP4StreamUnMarshaller.make reader (decide (writer = .big)) (m.out ++ tail)) =
        .ok (data.map valueOf) (DAP4StreamUnMarshaller.make reader (decide (writer = .big)) tail)

/-- The data that survive the way from one host to the other. -/
def Readable (writer reader : ByteOrder) : Datum → Prop
  | .float64 val => writer = reader ∨ val = 0
  | .str val | .url val => val.bytes.length < 2 ^ 31
  | .opaqueData val => val.elems.length < 2 ^ 31
  | .vectorOf width val =>
      val.elems.length * width.bytes < 2 ^ 32 ∧ (writer = reader ∨ width ≠ .one)
  | .varyingVectorOf width val =>
      val.elems.length * width.bytes < 2 ^ 31 ∧ (writer = reader ∨ width ≠ .one)
  | _ => True

section
variable {writer reader : ByteOrder}

theorem digested_vectorOf {width : ElementWidth} {val : Counted (BitVec (8 * width.bytes))}
    (fits : val.elems.length * width.bytes < 2 ^ 32) :
    (memory writer width val.elems).take (byteCount val.elems.length width.bytes) =
      memory writer width val.elems := by
  rw [byteCount_eq fits, ← memory_length writer width val.elems, List.take_length]

/-- A readable datum comes back from whatever request matches it. -/
theorem get_readable {d : Datum} {q : Request} (known : Matching d q)
    (readable : Readable writer reader d) (rest : List UInt8) :
    get q (reading writer reader ((framing d ++ digested writer d) ++ rest)) =
      .ok (valueOf d) (reading writer reader rest) := by
  cases known with
  | byte val | int8 val => exact call_ok (getScalar_byte val rest)
  | int16 val | uint16 val | int32 val | uint32 val | int64 val | uint64 val | float32 val =>
    exact call_ok (getScalar_bswap (by decide) val rest)
  | float64 val =>
    apply (call_ok (getFloat64_reading val rest)).trans
    by_cases same : writer = reader
    · rw [if_pos same]
      rfl
    · rw [if_neg same, (shifted_eq_self_iff val).mpr (readable.resolve_left same)]
      rfl
  | str val | url val => exact call_ok (getStr_reading readable rest)
  | opaqueKnown val => exact call_ok (getOpaqueKnown_reading readable rest)
  | opaqueData val => exact call_ok (getOpaque_reading val.fits rest)
  | vector val => exact call_ok (read_reading val.elems rest)
  | varyingVector val => exact call_ok (getOpaque_reading val.fits rest)
  | vectorOf width val buffer room =>
    obtain ⟨fits, known⟩ := readable
    simp only [framing, digested, List.nil_append, digested_vectorOf fits]
    exact (call_ok (getVectorOf_reading width known fits room rest)).trans
      (elementsOf_memory width val.elems rest)
  | varyingVectorOf width val =>
    obtain ⟨fits, known⟩ := readable
    have short : val.elems.length * width.bytes < 2 ^ 32 := by omega
    simp only [framing, digested, digested_vectorOf short]
    exact (call_ok (getVaryingVectorOf_reading width known fits rest)).trans
      (elementsOf_memory width val.elems rest)

/-- The bytes a list of data has on the stream. -/
def streamOf (order : ByteOrder) (data : List Datum) : List UInt8 :=
  data.flatMap fun d => framing d ++ digested order d

theorem run_streamOf (order : ByteOrder) (data : List Datum) :
    ∃ m, run (.resetChecksum :: data.map .put) (DAP4StreamMarshaller.make order true) =
        .ok () m ∧ m.out = streamOf order data := by
  refine ⟨_, (call_ok (rfl : resetChecksum (DAP4StreamMarshaller.make order true) = _)).trans
    (run_valid (data.map .put) rfl), ?_⟩
  simp [DAP4StreamMarshaller.make, streamOf, List.flatMap_map, written]

/-- The requests for a whole list of data read its stream and stop at its end. -/
theorem getAll_readable {data : List Datum} {requests : List Request}
    (known : List.Forall₂ Matching data requests)
    (readable : ∀ d ∈ data, Readable writer reader d) (tail : List UInt8) :
    getAll requests (reading writer reader
        (streamOf writer data ++ tail)) =
      .ok (data.map valueOf) (reading writer reader tail) := by
  induction known with
  | nil => rfl
  | @cons d q data requests first _ ih =>
    have head := get_readable first (readable d (List.mem_cons_self ..))
      (streamOf writer data ++ tail)
    have later := ih fun d member => readable d (List.mem_cons_of_mem _ member)
    rw [streamOf, List.flatMap_cons, List.append_assoc]
    exact (call_ok head).trans (call_ok later)

/-- Of two buffers for an overflowing vector, one shows through in the last element. -/
theorem exists_buffer (order : ByteOrder) (width : ElementWidth)
    (last : BitVec (8 * width.bytes)) :
    ∃ b : UInt8, BitVec.ofNat (8 * width.bytes) (load order (List.replicate width.bytes b)) ≠
      last := by
  by_cases zero : last = 0
  · refine ⟨1, ?_⟩
    subst zero
    cases order <;> cases width <;> decide
  · refine ⟨0, ?_⟩
    intro equal
    apply zero
    rw [← equal]
    cases order <;> cases width <;> decide

variable (writer reader) in
/-- A buffer that differs from the vector's last element shows up as soon as the
byte count has overflowed. -/
theorem vectorOf_lost {width : ElementWidth} {val : Counted (BitVec (8 * width.bytes))}
    (overflow : 2 ^ 32 ≤ val.elems.length * width.bytes) :
    ∃ q, Matching (.vectorOf width val) q ∧
      ∀ input after, get q (reading writer reader input) ≠ .ok (.elements width val.elems) after := by
  obtain ⟨elems, fits⟩ := val
  rcases List.eq_nil_or_concat' elems with rfl | ⟨front, last, rfl⟩
  · simp at overflow
  · have size : (front ++ [last]).length = front.length + 1 := by simp
    have few : width.bytes ≤ 8 := by cases width <;> decide
    have expand : (front.length + 1) * width.bytes = front.length * width.bytes + width.bytes := by
      rw [Nat.add_mul, Nat.one_mul]
    have wrapped : byteCount (front.length + 1) width.bytes ≤ front.length * width.bytes := by
      rw [size] at overflow
      unfold byteCount
      omega
    obtain ⟨b, different⟩ := exists_buffer reader width last
    refine ⟨_, .vectorOf width ⟨front ++ [last], fits⟩
      (List.replicate ((front.length + 1) * width.bytes) b) (by simp), ?_⟩
    intro input after success
    obtain ⟨vals, middle, bytes, elements⟩ := bind_returned success
    simp only [size] at bytes elements
    have piece := getVectorOf_last wrapped bytes
    obtain ⟨-, equal⟩ := elementsOf_success elements
    rw [pieces_succ, piece, List.map_append, List.map_singleton] at equal
    have order : middle.hostOrder = reader := getVectorOf_hostOrder bytes
    simp only [Value.elements.injEq, heq_eq_eq, true_and] at equal
    have same := (List.append_inj' equal rfl).2
    rw [order] at same
    exact different (List.singleton_inj.mp same).symm

/-- A datum that is not readable has a matching request that never returns it. -/
theorem get_unreadable {d : Datum} (lost : ¬ Readable writer reader d) (rest : List UInt8) :
    ∃ q, Matching d q ∧ ∀ after,
      get q (reading writer reader ((framing d ++ digested writer d) ++ rest)) ≠
        .ok (valueOf d) after := by
  cases d with
  | float64 val =>
    simp only [Readable, not_or] at lost
    refine ⟨_, .float64 val, fun after success => ?_⟩
    have shifted := (call_ok (getFloat64_reading val rest)).symm.trans success
    rw [if_neg lost.1] at shifted
    simp only [pure, EStateM.pure, valueOf, EStateM.Result.ok.injEq, Value.scalar.injEq,
      heq_eq_eq, true_and] at shifted
    exact lost.2 ((shifted_eq_self_iff val).mp shifted.1)
  | str val =>
    refine ⟨_, .str val, fun after success => ?_⟩
    obtain ⟨bytes, middle, text, same⟩ := bind_returned success
    cases same
    exact lost (getStr_short text)
  | url val =>
    refine ⟨_, .url val, fun after success => ?_⟩
    obtain ⟨bytes, middle, text, same⟩ := bind_returned success
    cases same
    exact lost (getStr_short text)
  | opaqueData val =>
    refine ⟨_, .opaqueKnown val, fun after success => ?_⟩
    obtain ⟨bytes, middle, data, same⟩ := bind_returned success
    exact lost (getOpaqueKnown_short data)
  | vectorOf width val =>
    simp only [Readable, not_and_or, not_or, not_lt, not_not] at lost
    rcases lost with overflow | ⟨differ, rfl⟩
    · obtain ⟨q, known, never⟩ := vectorOf_lost writer reader overflow
      exact ⟨q, known, never _⟩
    · refine ⟨_, .vectorOf .one val (List.replicate (val.elems.length * 1) 0)
        (List.length_replicate ..), fun after success => ?_⟩
      obtain ⟨vals, middle, bytes, -⟩ := bind_returned success
      exact getVectorOf_bytes (by simpa [reading] using differ) bytes
  | varyingVectorOf width val =>
    simp only [Readable, not_and_or, not_or, not_lt, not_not] at lost
    refine ⟨_, .varyingVectorOf width val, fun after success => ?_⟩
    obtain ⟨⟨num, vals⟩, middle, bytes, elements⟩ := bind_returned success
    rcases lost with long | ⟨differ, rfl⟩
    · have short := getVaryingVectorOf_short bytes elements
      have same := (elementsOf_success elements).2
      simp only [valueOf, Value.elements.injEq, heq_eq_eq, true_and] at same
      rw [same, List.length_map, pieces_length] at long
      omega
    · exact getVaryingVectorOf_bytes (by simpa [reading] using differ) bytes
  | _ => exact absurd trivial lost

theorem exists_matching (d : Datum) : ∃ q, Matching d q := by
  cases d with
  | byte val => exact ⟨_, .byte val⟩
  | int8 val => exact ⟨_, .int8 val⟩
  | int16 val => exact ⟨_, .int16 val⟩
  | int32 val => exact ⟨_, .int32 val⟩
  | int64 val => exact ⟨_, .int64 val⟩
  | uint16 val => exact ⟨_, .uint16 val⟩
  | uint32 val => exact ⟨_, .uint32 val⟩
  | uint64 val => exact ⟨_, .uint64 val⟩
  | float32 val => exact ⟨_, .float32 val⟩
  | float64 val => exact ⟨_, .float64 val⟩
  | str val => exact ⟨_, .str val⟩
  | url val => exact ⟨_, .url val⟩
  | opaqueData val => exact ⟨_, .opaqueData val⟩
  | vector val => exact ⟨_, .vector val⟩
  | varyingVector val => exact ⟨_, .varyingVector val⟩
  | vectorOf width val => exact ⟨_, .vectorOf width val _ (List.length_replicate (a := 0))⟩
  | varyingVectorOf width val => exact ⟨_, .varyingVectorOf width val⟩

theorem exists_requests (data : List Datum) : ∃ requests, List.Forall₂ Matching data requests := by
  induction data with
  | nil => exact ⟨[], .nil⟩
  | cons d data ih =>
    obtain ⟨q, first⟩ := exists_matching d
    obtain ⟨requests, later⟩ := ih
    exact ⟨q :: requests, .cons first later⟩

/-- The first datum that is not readable spoils the reading of the whole list. -/
theorem readable_of_getAll {data : List Datum}
    (reads : ∀ requests, List.Forall₂ Matching data requests → ∀ tail,
      getAll requests (reading writer reader (streamOf writer data ++ tail)) =
        .ok (data.map valueOf) (reading writer reader tail)) :
    ∀ d ∈ data, Readable writer reader d := by
  induction data with
  | nil => simp
  | cons d data ih =>
    have stream : ∀ tail, streamOf writer (d :: data) ++ tail =
        (framing d ++ digested writer d) ++ (streamOf writer data ++ tail) := by
      intro tail
      rw [streamOf, List.flatMap_cons, List.append_assoc]
      rfl
    by_cases readable : Readable writer reader d
    · have later : ∀ d ∈ data, Readable writer reader d := by
        apply ih
        intro requests known tail
        obtain ⟨q, first⟩ := exists_matching d
        have whole := reads (q :: requests) (.cons first known) tail
        rw [stream] at whole
        have rest := (call_ok (get_readable first readable _)).symm.trans whole
        obtain ⟨vs, after, got, same⟩ := bind_returned rest
        simp only [pure, EStateM.pure, EStateM.Result.ok.injEq, List.map_cons,
          List.cons.injEq, true_and] at same
        rw [got, same.1, same.2]
      intro d' member
      rcases List.mem_cons.mp member with rfl | member
      · exact readable
      · exact later d' member
    · obtain ⟨q, first, never⟩ := get_unreadable readable (streamOf writer data ++ [])
      obtain ⟨requests, known⟩ := exists_requests data
      have whole := reads (q :: requests) (.cons first known) []
      rw [stream] at whole
      obtain ⟨v, middle, got, whole⟩ := bind_returned whole
      obtain ⟨vs, after, -, same⟩ := bind_returned whole
      simp only [pure, EStateM.pure, EStateM.Result.ok.injEq, List.map_cons, List.cons.injEq]
        at same
      rw [same.1.1] at got
      exact absurd got (never middle)

end

/-- Any data that are written on one host are read back on another exactly if each of them survives
the way. -/
theorem roundTrips_iff (writer reader : ByteOrder) (data : List Datum) :
    RoundTrips writer reader data ↔ ∀ d ∈ data, Readable writer reader d := by
  obtain ⟨m, ran, out⟩ := run_streamOf writer data
  unfold RoundTrips
  simp only [make_eq_reading]
  constructor
  · rintro ⟨m', ran', reads⟩
    rw [ran] at ran'
    cases ran'
    rw [out] at reads
    exact readable_of_getAll reads
  · intro readable
    refine ⟨m, ran, ?_⟩
    intro requests known tail
    rw [out]
    exact getAll_readable known readable tail

/-- The double 1.0, written on a little-endian host and read on a big-endian one. -/
theorem roundTrips_fails :
    ¬ RoundTrips .little .big [.float64 0x3FF0000000000000] := by
  rintro ⟨m, ran, reads⟩
  obtain ⟨m', ran', out⟩ := run_streamOf .little [.float64 0x3FF0000000000000]
  rw [ran'] at ran
  cases ran
  simp only [make_eq_reading, out] at reads
  have readable := readable_of_getAll reads _ (List.mem_singleton_self _)
  exact absurd readable (by unfold Readable; decide)

end Libdap.Guarantees.DAP4RoundTrip
