import Libdap.Guarantees.DDSAcceptance
import Libdap.Guarantees.TruncatedResponse
import Libdap.Library.Yields

/-!
# What a client accepts has the shape that is declared

Whatever a server sends: if the client reads a response to its end without an error, each
variable has the values that its declaration says, in number and in size, and what the stream
has left is its end.
-/
namespace Libdap.Guarantees.ResponseShape
open Libdap.Library Libdap.Library.Wire
open Libdap.Source Libdap.Source.Escaping Libdap.Source.XDR
open Libdap.Source.Declarations Libdap.Source.DataResponse
open Libdap.Source.XDRFileUnMarshaller
open Libdap.Source.XDRStreamUnMarshaller (store)
open Libdap.Guarantees.DDSAcceptance
open Libdap.Guarantees.TruncatedResponse (Plain PlainAll plain_of_fitsAll)
open Libdap.Guarantees.DDSRoundTrip Libdap.Guarantees.DDSProjection
open Libdap.Guarantees.DataResponse (agree_members response_of_agree projectedDataAll heightsData
  heights_fit)
open Libdap.Guarantees.XDRFile (referenceScalars referenceScalars_documented)

/-- A number is decoded to its bytes on the host. -/
def DecodesWide (xdr : ScalarRoutines) : Prop :=
  ∀ t mem v used, xdr.decodeElement t mem = some (v, used) → v.length = t.width

/-- The bytes of a value, or a string without a null character. -/
def SimpleShape : SimpleType → List UInt8 → Prop
  | .byte, bytes => bytes.length = 1
  | .str, bytes | .url, bytes => 0 ∉ bytes
  | type, bytes => ∀ t, storage type = .numbers t → bytes.length = t.width

def VectorShape (num : Nat) : Storage → Data → Prop
  | .bytes, .buffer (some buf) => buf.length = num
  | .numbers t, .buffer (some buf) => buf.length = num * t.width % 2 ^ 32
  | .strings, .strings strs => strs.length = num ∧ ∀ s ∈ strs, 0 ∉ s
  | _, _ => False

def VectorOfShape (element : Data → Prop) (num : Nat) : Option SimpleType → Data → Prop
  | some type, data => VectorShape num (storage type) data
  | none, .elements vec => vec.length = num ∧ ∀ d ∈ vec, element d
  | none, _ => False

/-- The count that the client takes for an Array; one without a length takes any. -/
def Counted (length : Int) (num : Nat) : Prop :=
  ∃ sent : BitVec 32, num = sent.toNat ∧ (length = -1 ∨ sent = BitVec.ofInt 32 length)

mutual
/-- The data of a variable without a Sequence in it. -/
def HasShape : Var → Data → Prop
  | .simple type _ _, .value bytes => SimpleShape type bytes
  | .array _ _ var dims, data =>
    ∃ num, Counted dims.length num ∧ VectorOfShape (HasShape var) num (simpleType var) data
  | .constructor false _ _ vars, .members data => HasShapes vars data
  | .grid _ _ arrayVar mapVars, .grid array maps => HasShape arrayVar array ∧ HasShapes mapVars maps
  | _, _ => False

def HasShapes : List Var → List Data → Prop
  | [], [] => True
  | v :: vars, d :: data => HasShape v d ∧ HasShapes vars data
  | _, _ => False
end

variable {xdr : ScalarRoutines}

/-! ## Values -/

theorem yields_decode {α : Type} {routine : List UInt8 → Option (α × Nat)} {P : α → Prop}
    (holds : ∀ mem a used, routine mem = some (a, used) → P a) (notRead : String) :
    Yields (decode routine notRead) P := by
  intro stream a rest read
  unfold decode at read
  cases decoded : routine stream with
  | none =>
    rw [decoded] at read
    cases read
  | some pair =>
    obtain ⟨val, used⟩ := pair
    rw [decoded] at read
    cases read
    exact ⟨holds stream a used decoded, List.drop_suffix used stream⟩

theorem yields_getStr : Yields (getStr xdr) fun s => 0 ∉ s := by
  refine (@yields_decode _ _ (fun _ => True) (fun _ _ _ _ => trivial) _).andThen
    fun inTmp _ => yields_pure fun mem => ?_
  have kept := List.mem_takeWhile_imp mem
  simp at kept

theorem yields_getSimple (wide : DecodesWide xdr) (type : SimpleType) :
    Yields (getSimple xdr type) (SimpleShape type) := by
  cases type with
  | byte =>
    exact (@yields_decode _ _ (fun _ => True) (fun _ _ _ _ => trivial) _).andThen
      fun _ _ => yields_pure rfl
  | str => exact yields_getStr
  | url => exact yields_getStr
  | _ =>
    refine yields_decode (fun mem a used decoded t kind => ?_) _
    cases kind
    exact wide _ mem a used decoded

theorem yields_getCount (length : Int) (who : String) :
    Yields (getCount xdr length who) (Counted length) := by
  refine (@yields_decode _ _ (fun _ => True) (fun _ _ _ _ => trivial) _).andThen fun num _ => ?_
  by_cases unknown : length = -1
  · rw [if_pos unknown, if_neg (not_not.mpr rfl)]
    exact yields_pure ⟨num, rfl, .inl unknown⟩
  · rw [if_neg unknown]
    by_cases same : num = BitVec.ofInt 32 length
    · rw [if_neg (not_not.mpr same)]
      exact yields_pure ⟨num, rfl, .inr same⟩
    · rw [if_pos same]
      exact yields_throw _

/-- Bytes are stored into the buffer there is, which keeps its size. -/
theorem yields_getVectorBytes (buf : List UInt8) :
    Yields (getVectorBytes xdr (some buf))
      fun got => ∃ filled, got.1 = some filled ∧ filled.length = buf.length := by
  intro stream a rest read
  unfold getVectorBytes at read
  split at read
  · cases read
  · split at read
    · cases read
      exact ⟨⟨buf, rfl, rfl⟩, List.drop_suffix _ stream⟩
    · split at read
      · next target stored =>
        cases read
        exact ⟨⟨target, rfl, (XDRVectors.store_same_length stored).1⟩, List.drop_suffix _ stream⟩
      · cases read

theorem stores_same_length {stores : List (Nat × List UInt8)} {target target' : List UInt8}
    (done : stores.foldlM store target = .ok target') : target'.length = target.length :=
  foldlM_keeps (P := fun s s' : List UInt8 => s'.length = s.length) (fun _ => rfl)
    (fun _ _ _ _ first later => later.trans (XDRVectors.store_same_length first).1) done

theorem yields_getVector (buf : List UInt8) (width : Nat) (type : Coder) :
    Yields (getVector xdr (some buf) width type)
      fun got => ∃ filled, got.1 = some filled ∧ filled.length = buf.length := by
  intro stream a rest read
  simp only [getVector, Option.getD_some] at read
  split at read
  · cases read
  · next target filled =>
    split at read
    · cases read
    · next num used result =>
      cases read
      refine ⟨?_, List.drop_suffix _ stream⟩
      by_cases none' : num = 0
      · exact ⟨buf, if_pos none', rfl⟩
      · exact ⟨target, if_neg none', stores_same_length filled⟩

theorem yields_getSimpleVector (length : Int) (kind : Storage) :
    Yields (getSimpleVector xdr length kind)
      fun d => ∃ num, Counted length num ∧ VectorShape num kind d := by
  cases kind with
  | bytes =>
    refine (yields_getCount length _).andThen fun num counted =>
      (yields_getVectorBytes _).andThen fun got filled => yields_pure ⟨num, counted, ?_⟩
    obtain ⟨buf, same, size⟩ := filled
    rw [List.length_replicate] at size
    rw [same]
    exact size
  | numbers type =>
    refine (yields_getCount length _).andThen fun num counted =>
      (yields_getVector _ _ type).andThen fun got filled => yields_pure ⟨num, counted, ?_⟩
    obtain ⟨buf, same, size⟩ := filled
    rw [List.length_replicate] at size
    rw [same]
    exact size
  | strings =>
    exact (yields_getCount length _).andThen fun num counted =>
      (yields_times yields_getStr num).andThen fun strs all => yields_pure ⟨num, counted, all⟩

theorem yields_getVectorOf {getElement : Get Data} {element : Data → Prop}
    (each : Yields getElement element) (length : Int) (type : Option SimpleType) :
    Yields (getVectorOf xdr getElement length type)
      fun d => ∃ num, Counted length num ∧ VectorOfShape element num type d := by
  cases type with
  | some type => exact yields_getSimpleVector length (storage type)
  | none =>
    exact (yields_getCount length _).andThen fun num counted =>
      (yields_times each num).andThen fun vec all => yields_pure ⟨num, counted, all⟩

/-! ## Variables -/

variable {getSequence : List Var → Get Data}

mutual
theorem yields_variable (wide : DecodesWide xdr) (v : Var) (plain : Plain v) :
    Yields (deserialize xdr getSequence v) (HasShape v) := by
  cases v with
  | simple type name sendP =>
    exact (yields_getSimple wide type).andThen fun bytes shape => yields_pure shape
  | array name sendP var dims =>
    exact yields_getVectorOf (yields_variable wide var plain) dims.length (simpleType var)
  | constructor isSequence name sendP vars =>
    obtain ⟨rfl, plain⟩ := plain
    exact (yields_members wide vars plain).andThen fun data shape => yields_pure shape
  | grid name sendP arrayVar mapVars =>
    exact (yields_variable wide arrayVar plain.1).andThen fun array first =>
      (yields_members wide mapVars plain.2).andThen fun maps later => yields_pure ⟨first, later⟩

theorem yields_members (wide : DecodesWide xdr) (vars : List Var) (plain : PlainAll vars) :
    Yields (deserializeAll xdr getSequence vars) (HasShapes vars) := by
  cases vars with
  | nil => exact yields_pure trivial
  | cons v vars =>
    exact (yields_variable wide v plain.1).andThen fun d first =>
      (yields_members wide vars plain.2).andThen fun data later => yields_pure ⟨first, later⟩
end

/-- Whatever the response, what is accepted of it has the shape of declarations that are
valid, and what is left is the end of the stream. -/
theorem any_response (wide : DecodesWide xdr) (garbage : UInt8) (stream rest : Text) (dds : DDS)
    (data : List Data)
    (read : processData xdr getSequence garbage stream = some (dds, .ok data rest))
    (plain : PlainAll dds.vars) :
    AllMade dds.vars ∧ HasShapes dds.vars data ∧ rest <:+ stream := by
  rw [processData] at read
  obtain ⟨⟨dds', behind⟩, parsed, values⟩ := Option.bind_eq_some_iff.mp read
  injection values with values
  injection values with same values
  subst same
  obtain ⟨shapes, end'⟩ := yields_members wide _ plain behind data rest values
  rw [DDSParser.parse] at parsed
  obtain ⟨tree, -, run⟩ := Option.bind_eq_some_iff.mp parsed
  obtain ⟨built, actions, pair⟩ := Option.bind_eq_some_iff.mp run
  cases pair
  have none' : AllMade (DDS.vars { name := [], vars := [] }) := trivial
  exact ⟨datasets_made none' actions, shapes, end'.trans (left_suffix stream)⟩

theorem referenceScalars_wide : DecodesWide referenceScalars := by
  intro t mem v used decoded
  have wire := Coder.wire_eq t
  simp only [referenceScalars] at decoded
  by_cases long : t.wire ≤ mem.length
  · rw [if_pos long] at decoded
    cases decoded
    rw [List.length_drop, List.length_take]
    omega
  · rw [if_neg long] at decoded
    cases decoded

theorem any_response_heights :
    ∃ response : Text,
      AllMade (resetDDS (projectedDDS heights)).vars ∧
        HasShapes (resetDDS (projectedDDS heights)).vars
          (projectedDataAll heights.vars heightsData) ∧ [] <:+ response := by
  have agree := @agree_members referenceScalars (fun _ _ => throw .undefinedBehaviour)
    (fun _ => throw .undefinedBehaviour) referenceScalars_documented heights.vars heightsData
    heights_fit
  obtain ⟨response, -, reads⟩ := response_of_agree 0 heights heightsData heights_readable
    heights_projects (DDSText.named_of (by decide)) (by decide) agree []
  have read := reads []
  rw [List.append_nil] at read
  exact ⟨response, any_response referenceScalars_wide 0 response [] _ _ read
    (plain_of_fitsAll heights.vars heightsData heights_fit)⟩

end Libdap.Guarantees.ResponseShape
