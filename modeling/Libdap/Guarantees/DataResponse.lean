import Libdap.Guarantees.DDSProjection
import Libdap.Guarantees.XDRFile

/-!
# A data response is read back

What is serialized of a variable under a constraint is what the variable that the client has
declared takes from the stream; the declarations and the data together are the response.
-/
namespace Libdap.Guarantees.DataResponse
open Libdap.Library Libdap.Library.Wire Libdap.Library.ExternalData
open Libdap.Source Libdap.Source.Array Libdap.Source.Escaping Libdap.Source.XDR
open Libdap.Source.Declarations Libdap.Source.DataResponse
open Libdap.Source.XDRStreamMarshaller (putInt putStr putVectorBytes putVector Put IntCounted)
open Libdap.Source.XDRFileUnMarshaller (Get getInt getStr getVectorBytes getVector)
open Libdap.Guarantees.DDSText (AllReadable Named)
open Libdap.Guarantees.DDSRoundTrip Libdap.Guarantees.DDSProjection
open Libdap.Guarantees.XDRVectors (NumericVector onStream count_toNat putVector_fits
  putVectorBytes_eq)
open Libdap.Guarantees.XDRFile

/-- The values of a Vector of so many elements, and the room the marshaller has for them. -/
def FitsVector (num : Nat) : Storage → Data → Prop
  | .bytes, .buffer (some buf) => buf.length = num
  | .numbers t, .buffer (some buf) => buf.length = num * t.width ∧ num * t.wire + 4 < 2 ^ 31
  | .strings, .strings strs => strs ≠ [] ∧ strs.length = num ∧ ∀ s ∈ strs, Legible s
  | _, _ => False

/-- As `FitsVector` for any template. -/
def FitsVectorOf (element : Data → Prop) (num : Nat) : Option SimpleType → Data → Prop
  | some type, data => FitsVector num (storage type) data
  | none, .elements vec => vec ≠ [] ∧ vec.length = num ∧ ∀ d ∈ vec, element d
  | none, _ => False

mutual
/-- The data has the shape of the variable where it is sent, a Vector as many values as its
constraint selects, and no Sequence is sent. -/
def Fits : Var → Data → Prop
  | .simple type _ _, .value bytes => Simple type bytes
  | .array _ _ var dims, data =>
    dims.shape ≠ [] ∧ dims.length = constrainedLength dims.shape ∧
      0 ≤ dims.length ∧ dims.length < 2 ^ 31 ∧
        FitsVectorOf (Fits var) dims.length.toNat (simpleType var) data
  | .constructor false _ _ vars, .members data => FitsAll vars data
  | .grid _ _ arrayVar mapVars, .grid array maps =>
    (arrayVar.sendP = true → Fits arrayVar array) ∧ FitsAll mapVars maps
  | _, _ => False

def FitsAll : List Var → List Data → Prop
  | [], [] => True
  | v :: vars, d :: data => (v.sendP = true → Fits v d) ∧ FitsAll vars data
  | _, _ => False
end

/-- The elements of a Vector as the client has them. -/
def projectedElements (value : Data → Data) : Option SimpleType → Data → Data
  | none, .elements vec => .elements (vec.map value)
  | _, data => data

mutual
/-- The data of what is sent, as the declared variables have it. -/
def projectedData : Var → Data → Data
  | .array _ _ var _, data => projectedElements (projectedData var) (simpleType var) data
  | .constructor _ _ _ vars, .members data => .members (projectedDataAll vars data)
  | .grid _ _ arrayVar mapVars, .grid array maps =>
    if yieldsGrid arrayVar mapVars then
      .grid (projectedData arrayVar array) (projectedDataAll mapVars maps)
    else
      .members ((if arrayVar.sendP then [projectedData arrayVar array] else []) ++
        projectedDataAll mapVars maps)
  | _, d => d

def projectedDataAll : List Var → List Data → List Data
  | v :: vars, d :: data =>
    if v.sendP then projectedData v d :: projectedDataAll vars data
    else projectedDataAll vars data
  | _, _ => []
end

/-! ## Vectors -/

variable {xdr : ScalarRoutines}

theorem getCount_reads (documented : xdr.Documented) {length : Int} (low : 0 ≤ length)
    (high : length < 2 ^ 31) (who : String) :
    Reads (getCount xdr length who) (unsigned length.toNat) length.toNat := by
  have small : length.toNat < 2 ^ 31 := by omega
  have known : length ≠ -1 := by omega
  have same : BitVec.ofInt 32 length = BitVec.ofNat 32 length.toNat := by
    conv_lhs => rw [← Int.toNat_of_nonneg low]
    exact BitVec.ofInt_natCast ..
  have count := count_reads documented small
  have checked : Reads (if BitVec.ofNat 32 length.toNat ≠
      (if length = -1 then BitVec.ofNat 32 length.toNat else BitVec.ofInt 32 length) then
        throw (.internalErr ("The " ++ who ++ " sent declarations and data with mismatched sizes."))
      else pure (BitVec.ofNat 32 length.toNat).toNat : Get Nat) [] length.toNat := by
    rw [if_neg known, same, if_neg (not_not.mpr rfl), count_toNat small]
    exact reads_nothing _
  have whole := count.andThen (g := fun num => if num ≠
      (if length = -1 then num else BitVec.ofInt 32 length) then
        throw (.internalErr ("The " ++ who ++ " sent declarations and data with mismatched sizes."))
      else pure num.toNat) checked
  rwa [List.append_nil] at whole

/-- A buffer cut into its values. -/
theorem pieces_of_length {width num : Nat} {buf : List UInt8} (length : buf.length = num * width) :
    (Bytes.pieces width num buf).flatten = buf ∧
      ∀ v ∈ Bytes.pieces width num buf, v.length = width := by
  induction num generalizing buf with
  | zero =>
    have none' : buf = [] := List.eq_nil_of_length_eq_zero (by simpa using length)
    exact ⟨none'.symm, fun _ mem => absurd mem List.not_mem_nil⟩
  | succ num ih =>
    have more : buf.length = num * width + width := by rw [length, Nat.add_mul, Nat.one_mul]
    have rest : (buf.drop width).length = num * width := by
      rw [List.length_drop]
      omega
    obtain ⟨whole, each⟩ := ih rest
    rw [Bytes.pieces, List.flatten_cons, whole, List.take_append_drop]
    refine ⟨rfl, fun v mem => ?_⟩
    rw [List.mem_cons] at mem
    rcases mem with rfl | mem
    · rw [List.length_take]
      omega
    · exact each v mem

theorem putFirst_all {α : Type} (put : α → Put) {num : Nat} {values : List α}
    (length : values.length = num) : putFirst put num values = values.forM put := by
  rw [putFirst, if_pos (by omega), ← length, List.take_length]

theorem agree_vector (documented : xdr.Documented) {length : Int} (low : 0 ≤ length)
    (high : length < 2 ^ 31) {kind : Storage} {data : Data}
    (fits : FitsVector length.toNat kind data) :
    Agree (putSimpleVector xdr length.toNat kind data) (getSimpleVector xdr length kind) data := by
  have small : length.toNat < 2 ^ 31 := by omega
  cases kind with
  | bytes =>
    cases data with
    | buffer buf =>
      cases buf with
      | none => exact fits.elim
      | some buf =>
        have size : buf.length = length.toNat := fits
        have taken : buf.take length.toNat = buf := List.take_of_length_le (by omega)
        have room : (List.replicate length.toNat (0 : UInt8)).length = buf.length := by
          rw [List.length_replicate, size]
        have values := (getVectorBytes_reads documented (by omega) room).andThen
          (g := fun got => pure (Data.buffer got.1)) (reads_nothing (Data.buffer (some buf)))
        have whole := (getCount_reads documented low high "server").andThen (g := fun num => do
          let got ← getVectorBytes xdr (some (List.replicate num 0))
          pure (Data.buffer got.1)) values
        have written : ∀ out, putVectorBytes xdr.toRoutines (some ⟨buf, by omega⟩) out =
            .ok () (out ++ (unsigned buf.length ++ countedData buf)) :=
          putVectorBytes_eq documented.toDocumented _
        refine ⟨_, fun out => ?_, whole⟩
        rw [putSimpleVector, dif_pos ⟨by rw [taken]; omega, by omega⟩]
        simp only [taken, List.append_nil]
        rw [written, size]
    | _ => exact fits.elim
  | numbers t =>
    cases data with
    | buffer buf =>
      cases buf with
      | none => exact fits.elim
      | some buf =>
        obtain ⟨size, few⟩ : buf.length = length.toNat * t.width ∧
          length.toNat * t.wire + 4 < 2 ^ 31 := fits
        obtain ⟨flat, wide⟩ := pieces_of_length size
        have count : (Bytes.pieces t.width length.toNat buf).length = length.toNat :=
          Bytes.pieces_length ..
        have room : (List.replicate (length.toNat * t.width) (0 : UInt8)).length =
            (Bytes.pieces t.width length.toNat buf).length * t.width := by
          rw [List.length_replicate, count]
        have narrow : length.toNat * t.width ≤ length.toNat * t.wire :=
          Nat.mul_le_mul_left _ (XDRVectors.width_le_wire t)
        have allocated : length.toNat * t.width % 2 ^ 32 = length.toNat * t.width :=
          Nat.mod_eq_of_lt (by omega)
        have values := (getVector_reads documented ⟨_, wide, by omega⟩
          (by rw [onStream, count]; exact few) room).andThen
            (g := fun got => pure (Data.buffer got.1)) (reads_nothing (Data.buffer (some _)))
        have whole := (getCount_reads documented low high "server").andThen (g := fun num => do
          let got ← getVector xdr (some (List.replicate (num * t.width % 2 ^ 32) 0)) t.width t
          pure (Data.buffer got.1)) (by
            rw [allocated]
            exact values)
        have written := putVector_fits documented.toDocumented
          (⟨_, wide, by omega⟩ : NumericVector t) (by rw [onStream, count]; exact few)
        simp only [flat, count, List.append_nil] at whole written
        exact ⟨_, written, whole⟩
    | _ => exact fits.elim
  | strings =>
    cases data with
    | strings strs =>
      obtain ⟨some', size, legible⟩ : strs ≠ [] ∧ strs.length = length.toNat ∧
        ∀ s ∈ strs, Legible s := fits
      have texts : Agree (strs.forM (putStr xdr)) (times (getStr xdr) strs.length) (strs.map id) :=
        agree_times fun s mem => agree_str documented (legible s mem)
      obtain ⟨items, writes, reads⟩ := texts
      have values := reads.andThen (g := fun strs => pure (Data.strings strs))
        (reads_nothing (Data.strings (strs.map id)))
      rw [size] at values
      have whole := (getCount_reads documented low high "client").andThen (g := fun num => do
        let strs ← times (getStr xdr) num
        pure (Data.strings strs)) values
      rw [List.map_id, List.append_nil] at whole
      have count := putInt_writes documented (BitVec.ofNat 32 length.toNat)
      rw [count_toNat small] at count
      refine ⟨_, ?_, whole⟩
      rw [putSimpleVector, if_neg some', putFirst_all _ size]
      exact count.andThen writes
    | _ => exact fits.elim

/-! ## Variables -/

theorem simpleType_projected (v : Var) : simpleType (reset (projected v)) = simpleType v := by
  cases v with
  | grid name sendP arrayVar mapVars =>
    rw [projected]
    split <;> rfl
  | _ => rfl

/-- The client's Vector has the length that the server's had under its constraint. -/
theorem selected_length {dims : Dims} (some' : dims.shape ≠ [])
    (current : dims.length = constrainedLength dims.shape) :
    (selectedDims dims).resetConstraint.length = dims.length := by
  have some'' : (selectedDims dims).shape ≠ [] := by simpa [selectedDims] using some'
  have shape : (selectedDims dims).shape.map resetDimension =
      dims.shape.map fun d => newDimension d.cSize d.name := by
    rw [selectedDims, List.map_map]
    rfl
  have same : constrainedLength (dims.shape.map fun d => newDimension d.cSize d.name) =
      constrainedLength dims.shape := by
    rw [constrainedLength, List.foldl_map]
    rfl
  rw [ArrayConstraint.resetConstraint_eq some'', Dims.updateLength, Dims.setLength, shape, same,
    current]

theorem agree_vectorOf (documented : xdr.Documented) {putElement : Data → Put}
    {getElement : Get Data} {element : Data → Prop} {value : Data → Data} {length : Int}
    (low : 0 ≤ length) (high : length < 2 ^ 31) {type : Option SimpleType} {data : Data}
    (fits : FitsVectorOf element length.toNat type data)
    (each : ∀ d, element d → Agree (putElement d) getElement (value d)) :
    Agree (putVectorOf xdr putElement length.toNat type data)
      (getVectorOf xdr getElement length type) (projectedElements value type data) := by
  cases type with
  | some type =>
    have values := agree_vector documented low high fits
    cases data <;> exact values
  | none =>
    cases data with
    | elements vec =>
      obtain ⟨some', size, elements⟩ : vec ≠ [] ∧ vec.length = length.toNat ∧
        ∀ d ∈ vec, element d := fits
      have small : length.toNat < 2 ^ 31 := by omega
      obtain ⟨items, writes, reads⟩ := agree_times fun d mem => each d (elements d mem)
      have values := reads.andThen (g := fun vec => pure (Data.elements vec))
        (reads_nothing (Data.elements (vec.map value)))
      rw [size] at values
      have whole := (getCount_reads documented low high "client").andThen (g := fun num => do
        let vec ← times getElement num
        pure (Data.elements vec)) values
      rw [List.append_nil] at whole
      have count := putInt_writes documented (BitVec.ofNat 32 length.toNat)
      rw [count_toNat small] at count
      refine ⟨_, ?_, whole⟩
      rw [putVectorOf, if_neg some', putFirst_all _ size]
      exact count.andThen writes
    | _ => exact fits.elim

variable {putSequence : List Var → Data → Put} {getSequence : List Var → Get Data}

mutual
theorem agree_variable (documented : xdr.Documented) (v : Var) (d : Data) (fits : Fits v d) :
    Agree (serialize xdr putSequence v d) (deserialize xdr getSequence (reset (projected v)))
      (projectedData v d) := by
  cases v with
  | simple type name sendP =>
    cases d with
    | value bytes => exact (agree_simple documented fits).returns Data.value
    | _ => exact fits.elim
  | array name sendP var dims =>
    rw [Fits] at fits
    obtain ⟨some', current, low, high, fits⟩ := fits
    have length := selected_length some' current
    have kept := simpleType_projected var
    rw [projected, reset, deserialize, serialize, kept, length]
    exact agree_vectorOf documented low high fits fun d fits' =>
      agree_variable documented var d fits'
  | constructor isSequence name sendP vars =>
    cases isSequence with
    | true => exact fits.elim
    | false =>
      cases d with
      | members data =>
        exact (agree_members documented vars data fits).returns Data.members
      | _ => exact fits.elim
  | grid name sendP arrayVar mapVars =>
    cases d with
    | grid array maps =>
      rw [Fits] at fits
      have first := fun sent => agree_variable documented arrayVar array (fits.1 sent)
      have later := agree_members documented mapVars maps fits.2
      rw [projected, serialize, projectedData]
      by_cases sent : arrayVar.sendP = true
      · by_cases yields : yieldsGrid arrayVar mapVars = true
        · rw [if_pos yields, if_pos yields, reset, deserialize, if_pos sent]
          exact (first sent).pair later Data.grid
        · rw [if_neg yields, if_neg yields, reset, deserialize, if_pos sent, if_pos sent,
            if_pos sent]
          exact ((first sent).pair later List.cons).returns Data.members
      · have yields : ¬ yieldsGrid arrayVar mapVars = true := by
          simp [yieldsGrid, sent]
        rw [if_neg yields, if_neg yields, reset, deserialize, if_neg sent, if_neg sent, if_neg sent]
        exact later.returns Data.members
    | _ => exact fits.elim

theorem agree_members (documented : xdr.Documented) (vars : List Var) (data : List Data)
    (fits : FitsAll vars data) :
    Agree (serializeAll xdr putSequence vars data)
      (deserializeAll xdr getSequence (resetAll (projectedAll vars)))
      (projectedDataAll vars data) := by
  cases vars with
  | nil =>
    cases data with
    | nil => exact agree_nothing []
    | cons d data => exact fits.elim
  | cons v vars =>
    cases data with
    | nil => exact fits.elim
    | cons d data =>
      rw [FitsAll] at fits
      have later := agree_members documented vars data fits.2
      rw [serializeAll, projectedAll, projectedDataAll]
      by_cases sent : v.sendP = true
      · simp only [sent, if_true]
        exact (agree_variable documented v d (fits.1 sent)).pair later List.cons
      · have unsent := Bool.eq_false_iff.mpr sent
        simp only [unsent, Bool.false_eq_true, if_false]
        exact later
end

theorem datasetConstraint_writes {dds : DDS} {data : List Data} {sent : Text}
    (writes : Writes (serializeAll xdr putSequence dds.vars data) sent) :
    Writes (datasetConstraint xdr putSequence dds data)
      (dds.print true ++ (bytes "Data:\n" ++ sent)) := by
  intro out
  have written := writes (out ++ (dds.print true ++ bytes "Data:\n"))
  simp only [List.append_assoc] at written ⊢
  exact written

/-- The client's variables are those of the projection, and the data is left to them. -/
theorem processData_printed (garbage : UInt8) {dds : DDS} (readable : AllReadable dds.vars)
    (projects : ProjectsAll dds.vars) (named : Named dds.name)
    (plain : id2www dds.name = dds.name) (rest : Text) :
    processData xdr getSequence garbage (dds.print true ++ (bytes "Data:\n" ++ rest)) =
      some (resetDDS (projectedDDS dds),
        deserializeAll xdr getSequence (resetAll (projectedAll dds.vars)) rest) := by
  have parsed := @parse_projected garbage dds readable projects named plain _ _ (input_end rest)
  simp only [processData, parsed, bind, Option.bind]
  rfl

/-- Declarations behind which members are read as they were sent. -/
theorem response_of_agree (garbage : UInt8) (dds : DDS) (data : List Data) {value : List Data}
    (readable : AllReadable dds.vars) (projects : ProjectsAll dds.vars)
    (named : Named dds.name) (plain : id2www dds.name = dds.name)
    (agree : Agree (serializeAll xdr putSequence dds.vars data)
      (deserializeAll xdr getSequence (resetAll (projectedAll dds.vars))) value) (out : Text) :
    ∃ response,
      datasetConstraint xdr putSequence dds data out = .ok () (out ++ response) ∧
      ∀ more, processData xdr getSequence garbage (response ++ more) =
        some (resetDDS (projectedDDS dds), .ok value more) := by
  obtain ⟨sent, writes, reads⟩ := agree
  refine ⟨dds.print true ++ (bytes "Data:\n" ++ sent), datasetConstraint_writes writes out,
    fun more => ?_⟩
  rw [List.append_assoc, List.append_assoc,
    processData_printed garbage readable projects named plain, reads more]

/-- A response is read as the projection with its data, and the stream is behind it. -/
theorem response_read_back (documented : xdr.Documented) (garbage : UInt8) (dds : DDS)
    (data : List Data) (readable : AllReadable dds.vars) (projects : ProjectsAll dds.vars)
    (named : Named dds.name) (plain : id2www dds.name = dds.name) (fits : FitsAll dds.vars data)
    (out : Text) :
    ∃ response,
      datasetConstraint xdr putSequence dds data out = .ok () (out ++ response) ∧
      ∀ more, processData xdr getSequence garbage (response ++ more) =
        some (resetDDS (projectedDDS dds), .ok (projectedDataAll dds.vars data) more) :=
  response_of_agree garbage dds data readable projects named plain
    (agree_members documented dds.vars data fits) out

/-- The heights at the two latitudes that are selected. -/
def heightsData : List Data :=
  [.value [], .grid (.buffer (some [0, 1, 0, 2])) [.buffer none]]

theorem heights_fit : FitsAll heights.vars heightsData := by
  have array : Fits (.array (bytes "h") true (.simple .int16 (bytes "h") true)
      { shape := [latitude], length := 2 }) (.buffer (some [0, 1, 0, 2])) :=
    ⟨List.cons_ne_nil _ _, by decide, by decide, by decide, by decide, by decide⟩
  exact ⟨fun sent => absurd sent (by decide), fun _ =>
    ⟨fun _ => array, fun sent => absurd sent (by decide), trivial⟩, trivial⟩

theorem response_read_back_heights :
    ∃ response, datasetConstraint referenceScalars (fun _ _ => throw .undefinedBehaviour) heights
        heightsData [] = .ok () ([] ++ response) ∧
      ∀ more, processData referenceScalars (fun _ => throw .undefinedBehaviour) 0
          (response ++ more) =
        some (resetDDS (projectedDDS heights),
          .ok (projectedDataAll heights.vars heightsData) more) :=
  response_read_back referenceScalars_documented 0 heights heightsData heights_readable
    heights_projects (DDSText.named_of (by decide)) (by decide) heights_fit []

end Libdap.Guarantees.DataResponse
