import Libdap.Guarantees.DataResponse
import Libdap.Guarantees.SequenceRoundTrip
import Libdap.Source.SequenceStream

/-!
# A hierarchy of Sequences through XDR

What a level sends of a row is what the declared variables of that level take from the
stream, and the markers survive when the library takes their padding. So the client has the
accepted rows, and the stream is behind the hierarchy.
-/
namespace Libdap.Guarantees.SequenceStream
open Libdap.Library.Wire
open Libdap.Source Libdap.Source.XDR Libdap.Source.Declarations Libdap.Source.DataResponse
open Libdap.Source.Sequence (Row Selection Token DataDDS project send checkProtocol startOfInstance
  endOfSequence)
open Libdap.Source.SequenceStream
open Libdap.Source.XDRStreamMarshaller (Put)
open Libdap.Source.XDRFileUnMarshaller (Get)
open Libdap.Guarantees.DDSRoundTrip Libdap.Guarantees.DDSProjection
open Libdap.Guarantees.DataResponse (FitsAll projectedData projectedDataAll agree_members)
open Libdap.Guarantees.XDRFile ( agree_opaque)
open SequenceSerialize (Numberable accepted encodeInstance encodeRows tagged send_eq)

/-- Which variables of a level are sent. -/
def mask (vars : List Var) : List Bool := vars.map Var.sendP

/-- The variables of a level as the client has declared them. -/
def declared (vars : List Var) : List Var := resetAll (projectedAll vars)

/-- What a client has of a value. -/
def clientValue (f : Field) : Data := projectedData f.1 f.2

mutual
/-- The rows with what a client has of each value. -/
def clientRow : Row Field → Row Data
  | .mk values children => .mk (values.map clientValue) (clientRows children)

def clientRows : List (Row Field) → List (Row Data)
  | [] => []
  | r :: rows => clientRow r :: clientRows rows
end

/-- The rows hold the variables of their levels, with data where they are sent, and no row of
a parent is without rows below it. -/
def FitsLevels : List Var → List (List Var) → Row Field → Prop
  | vars, [], r => r.values.map Prod.fst = vars ∧ FitsAll vars (r.values.map Prod.snd)
  | vars, child :: below, r =>
    (r.values.map Prod.fst = vars ∧ FitsAll vars (r.values.map Prod.snd)) ∧
      r.children ≠ [] ∧ ∀ c ∈ r.children, FitsLevels child below c

variable {xdr : ScalarRoutines} {putSequence : List Var → Data → Put}
  {getSequence : List Var → Get Data}

/-- The values of one row as they are sent. -/
def putValues (xdr : ScalarRoutines) (putSequence : List Var → Data → Put)
    (values : List Field) : Put :=
  (values.map Token.value).forM (putToken xdr putSequence)

theorem putValues_cons (f : Field) (values : List Field) :
    putValues xdr putSequence (f :: values) = (do
      serialize xdr putSequence f.1 f.2
      putValues xdr putSequence values) := rfl

theorem project_cons (f : Field) (values : List Field) :
    project (mask ((f :: values).map Prod.fst)) (f :: values) =
      if f.1.sendP then f :: project (mask (values.map Prod.fst)) values
      else project (mask (values.map Prod.fst)) values := by
  by_cases sent : f.1.sendP = true <;> simp [project, mask, sent]

/-- The projected values of a row are the members that are sent. -/
theorem putValues_project (values : List Field) :
    putValues xdr putSequence (project (mask (values.map Prod.fst)) values) =
      serializeAll xdr putSequence (values.map Prod.fst) (values.map Prod.snd) := by
  induction values with
  | nil => rfl
  | cons f values ih =>
    rw [project_cons, List.map_cons, List.map_cons, serializeAll]
    by_cases sent : f.1.sendP = true
    · simp only [sent, if_true, putValues_cons, ih]
    · simp only [sent, Bool.false_eq_true, if_false, ih]

theorem projectedDataAll_project (values : List Field) :
    projectedDataAll (values.map Prod.fst) (values.map Prod.snd) =
      (project (mask (values.map Prod.fst)) values).map clientValue := by
  induction values with
  | nil => rfl
  | cons f values ih =>
    rw [project_cons, List.map_cons, List.map_cons, projectedDataAll, ih]
    split <;> rfl

/-- The client's variables of a level take what is sent of a row. -/
def ValuesAgree (xdr : ScalarRoutines) (putSequence : List Var → Data → Put)
    (getSequence : List Var → Get Data) (vars : List Var) (values : List Field) : Prop :=
  Agree (putValues xdr putSequence values) (deserializeAll xdr getSequence (declared vars))
    (values.map clientValue)

/-- As `ValuesAgree` for a row and all rows below it. -/
def RowAgrees (xdr : ScalarRoutines) (putSequence : List Var → Data → Put)
    (getSequence : List Var → Get Data) : List Var → List (List Var) → Row Field → Prop
  | vars, [], r => ValuesAgree xdr putSequence getSequence vars r.values ∧ r.children = []
  | vars, child :: below, r =>
    ValuesAgree xdr putSequence getSequence vars r.values ∧
      ∀ c ∈ r.children, RowAgrees xdr putSequence getSequence child below c

theorem values_agree (documented : xdr.Documented) {vars : List Var} {values : List Field}
    (same : values.map Prod.fst = vars) (fits : FitsAll vars (values.map Prod.snd)) :
    ValuesAgree xdr putSequence getSequence vars (project (mask vars) values) := by
  subst same
  have members := @agree_members xdr putSequence getSequence documented _ _ fits
  rwa [← putValues_project, projectedDataAll_project] at members

/-- Accepted rows are read back, with the rows below them. -/
theorem accepted_agree (documented : xdr.Documented) (select : Selection Field)
    (above : List (List Field)) {vars : List Var} {below : List (List Var)}
    {rows : List (Row Field)} (fits : ∀ r ∈ rows, FitsLevels vars below r) :
    ∀ r ∈ accepted select above (mask vars) (below.map mask) rows,
      RowAgrees xdr putSequence getSequence vars below r := by
  induction below generalizing vars rows above with
  | nil =>
    intro r member
    simp only [List.map_nil, accepted, List.mem_map, List.mem_filter] at member
    obtain ⟨row, ⟨source, -⟩, rfl⟩ := member
    obtain ⟨same, data⟩ := fits row source
    exact ⟨values_agree documented same data, rfl⟩
  | cons child below ih =>
    intro r member
    simp only [List.map_cons, accepted, List.mem_filterMap] at member
    obtain ⟨row, source, kept⟩ := member
    obtain ⟨⟨same, data⟩, -, deeper⟩ := fits row source
    have nested := ih (row.values :: above) deeper
    split at kept
    · cases kept
    · next c children found =>
        cases kept
        rw [found] at nested
        exact ⟨values_agree documented same data, nested⟩

/-- The levels as the walk over the rows knows them. -/
theorem FitsLevels.fits {vars : List Var} {below : List (List Var)} {r : Row Field}
    (fits : FitsLevels vars below r) : SequenceWalk.Fits (mask vars) (below.map mask) r := by
  induction below generalizing vars r with
  | nil =>
    obtain ⟨same, -⟩ := fits
    rw [← same]
    simp [SequenceWalk.Fits, mask]
  | cons child below ih =>
    obtain ⟨⟨same, -⟩, filled, deeper⟩ := fits
    refine ⟨?_, filled, fun c member => ih (deeper c member)⟩
    rw [← same]
    simp [mask]

/-! ## Rows -/

theorem marker_agrees (documented : xdr.Documented) (garbage m : UInt8) :
    ∃ items, Writes (writeMarker xdr m) items ∧ Reads (readMarker xdr garbage) items m ∧
      0 < items.length := by
  have one : ([m] : List UInt8).length ≤ 256 := by simp
  have sent : Agree (writeMarker xdr m)
      (XDRFileUnMarshaller.getOpaque xdr [garbage] 1) [m] :=
    agree_opaque documented (by simp) one rfl
  obtain ⟨items, writes, reads⟩ := sent
  have marker := reads.andThen (g := fun marker => pure (marker.headD garbage)) (reads_nothing m)
  rw [List.append_nil] at marker
  refine ⟨items, writes, marker, ?_⟩
  have written := XDROpaque.putOpaque_eq documented.toDocumented (d := [m]) (by simp) one []
  injection (writes []).symm.trans written with _ same
  rw [← List.nil_append items, same]
  simp [Library.ExternalData.rounded]

section
variable {garbage : UInt8} {dds : Option DataDDS} {fuel : Nat} {vars : List Var}
  {below : List (List Var)}

theorem deserializeRows_end {items : List UInt8}
    (marker : Reads (readMarker xdr garbage) items endOfSequence) :
    Reads (deserializeRows xdr getSequence garbage dds (fuel + 1) vars below) items [] := by
  intro more
  rw [deserializeRows, Library.call_ok (marker more), if_pos rfl]
  rfl

/-- What the loop reads of a child within a row. -/
def deserializeChildren (xdr : ScalarRoutines) (getSequence : List Var → Get Data)
    (garbage : UInt8) (dds : Option DataDDS) (fuel : Nat) : List (List Var) → Get (List (Row Data))
  | [] => pure []
  | child :: rest => do
    protocolChecked dds
    deserializeRows xdr getSequence garbage dds fuel child rest

theorem deserializeRows_turn :
    deserializeRows xdr getSequence garbage dds (fuel + 1) vars below = (do
      let marker ← readMarker xdr garbage
      if marker = endOfSequence then pure []
      else if marker = startOfInstance then do
        let values ← deserializeAll xdr getSequence vars
        let children ← deserializeChildren xdr getSequence garbage dds fuel below
        let rows ← deserializeRows xdr getSequence garbage dds fuel vars below
        pure (.mk values children :: rows)
      else
        throw (.error .unknownError
          "I could not read the expected Sequence data stream marker!")) := by
  cases below with
  | nil => rfl
  | cons child below =>
    simp only [deserializeRows, deserializeChildren, bind_assoc]

/-- One turn of the loop: a marker, the values, the rows below and the rows behind. -/
theorem deserializeRows_row {start fields nested later : List UInt8} {values : List Data}
    {children rows : List (Row Data)}
    (marker : Reads (readMarker xdr garbage) start startOfInstance)
    (row : Reads (deserializeAll xdr getSequence vars) fields values)
    (inner : Reads (deserializeChildren xdr getSequence garbage dds fuel below) nested children)
    (behind : Reads (deserializeRows xdr getSequence garbage dds fuel vars below) later rows) :
    Reads (deserializeRows xdr getSequence garbage dds (fuel + 1) vars below)
      (start ++ (fields ++ (nested ++ later))) (.mk values children :: rows) := by
  have not_end : startOfInstance ≠ endOfSequence := by decide
  intro more
  simp only [List.append_assoc]
  rw [deserializeRows_turn, Library.call_ok (marker _), if_neg not_end, if_pos rfl,
    Library.call_ok (row _), Library.call_ok (inner _), Library.call_ok (behind _)]
  rfl

/-- What is sent of an instance is read, if there is a unit for each byte. -/
def InstanceAgrees (xdr : ScalarRoutines) (putSequence : List Var → Data → Put)
    (getSequence : List Var → Get Data) (garbage : UInt8) (dds : Option DataDDS)
    (vars : List Var) (below : List (List Var)) (rows : List (Row Field)) : Prop :=
  ∃ items, Writes ((encodeInstance below.length rows).forM (putToken xdr putSequence)) items ∧
    ∀ fuel, items.length ≤ fuel →
      Reads (deserializeRows xdr getSequence garbage dds fuel (declared vars) (below.map declared))
        items (clientRows rows)

theorem instance_none (documented : xdr.Documented) (vars : List Var) (below : List (List Var)) :
    InstanceAgrees xdr putSequence getSequence garbage dds vars below [] := by
  obtain ⟨items, writes, reads, some'⟩ := marker_agrees documented garbage endOfSequence
  refine ⟨items, ?_, ?_⟩
  · have whole := writes.andThen writes_nothing
    rw [List.append_nil] at whole
    cases below <;> exact whole
  · intro fuel enough
    obtain ⟨fuel, rfl⟩ : ∃ n, fuel = n + 1 := ⟨fuel - 1, by omega⟩
    exact deserializeRows_end reads

/-- The rows below a row are sent as a client reads them. -/
def NestedAgree (xdr : ScalarRoutines) (putSequence : List Var → Data → Put)
    (getSequence : List Var → Get Data) (garbage : UInt8) (dds : Option DataDDS)
    (below : List (List Var)) (nested : List (Token Field)) (children : List (Row Field)) : Prop :=
  ∃ items, Writes (nested.forM (putToken xdr putSequence)) items ∧
    ∀ fuel, items.length ≤ fuel →
      Reads (deserializeChildren xdr getSequence garbage dds fuel (below.map declared)) items
        (clientRows children)

theorem instance_row (documented : xdr.Documented) {r : Row Field} {rows : List (Row Field)}
    (nested : List (Token Field))
    (split : encodeInstance below.length (r :: rows) =
      .marker startOfInstance ::
        (r.values.map .value ++ (nested ++ encodeInstance below.length rows)))
    (row : ValuesAgree xdr putSequence getSequence vars r.values)
    (inner : NestedAgree xdr putSequence getSequence garbage dds below nested r.children)
    (later : InstanceAgrees xdr putSequence getSequence garbage dds vars below rows) :
    InstanceAgrees xdr putSequence getSequence garbage dds vars below (r :: rows) := by
  obtain ⟨start, writesStart, readsStart, some'⟩ := marker_agrees documented garbage startOfInstance
  obtain ⟨fields, writesFields, readsFields⟩ := row
  obtain ⟨children, writesChildren, readsChildren⟩ := inner
  obtain ⟨behind, writesBehind, readsBehind⟩ := later
  refine ⟨start ++ (fields ++ (children ++ behind)), ?_, ?_⟩
  · rw [split]
    simp only [List.forM_eq_forM, List.forM_cons, List.forM_append]
    exact writesStart.andThen (writesFields.andThen (writesChildren.andThen writesBehind))
  · intro fuel enough
    simp only [List.length_append] at enough
    obtain ⟨fuel, rfl⟩ : ∃ n, fuel = n + 1 := ⟨fuel - 1, by omega⟩
    obtain ⟨values, children⟩ := r
    exact deserializeRows_row readsStart readsFields (readsChildren fuel (by omega))
      (readsBehind fuel (by omega))

/-- An instance of rows that are read back, at every depth. -/
theorem instance_agrees (documented : xdr.Documented) (served : checkProtocol dds = .ok ())
    {rows : List (Row Field)}
    (agrees : ∀ r ∈ rows, RowAgrees xdr putSequence getSequence vars below r) :
    InstanceAgrees xdr putSequence getSequence garbage dds vars below rows := by
  induction below generalizing vars rows with
  | nil =>
    induction rows with
    | nil => exact instance_none documented vars []
    | cons r rows ih =>
      obtain ⟨⟨row, leaf⟩, later⟩ := List.forall_mem_cons.mp agrees
      refine instance_row documented [] ?_ row ?_ (ih later)
      · simp [encodeInstance, encodeRows]
      · rw [leaf]
        exact ⟨[], writes_nothing, fun fuel _ => reads_nothing []⟩
  | cons child below deeper =>
    induction rows with
    | nil => exact instance_none documented vars (child :: below)
    | cons r rows ih =>
      obtain ⟨⟨row, nested⟩, later⟩ := List.forall_mem_cons.mp agrees
      refine instance_row documented (encodeInstance below.length r.children) ?_ row ?_ (ih later)
      · simp [encodeInstance, encodeRows]
      · obtain ⟨items, writes, reads⟩ := deeper nested
        refine ⟨items, writes, fun fuel enough => ?_⟩
        have checked : Reads (protocolChecked dds) [] () := fun more => by
          simp only [protocolChecked, served]
          rfl
        exact checked.andThen (reads fuel enough)

end

/-- What is sent of a hierarchy is read as the accepted rows, and the stream is behind it. -/
theorem hierarchy_agrees (documented : xdr.Documented) (garbage : UInt8)
    (select : Selection Field) (vars : List Var) (below : List (List Var))
    (rows : List (Row Field)) (dd : DataDDS) (fits : ∀ r ∈ rows, FitsLevels vars below r)
    (few : Numberable select [] (below.map mask) rows) (served : 2 ≤ dd.protocolMajor) :
    ∃ sent, Writes (serializeSequence xdr putSequence select
        (tagged (mask vars) (below.map mask) rows)) sent ∧
      ∀ fuel, sent.length ≤ fuel →
        Reads (deserializeSequence xdr getSequence garbage (some dd) fuel (declared vars)
            (below.map declared)) sent
          (clientRows (accepted select [] (mask vars) (below.map mask) rows)) := by
  have checked : checkProtocol (some dd) = .ok () := by
    rw [checkProtocol, if_neg (by omega)]
  have walked := send_eq select (mask vars) (below.map mask) (fun r mem => (fits r mem).fits) few
  have agrees := @accepted_agree xdr putSequence getSequence documented select [] vars below rows
    fits
  obtain ⟨sent, writes, reads⟩ :=
    @instance_agrees xdr putSequence getSequence garbage (some dd) vars below documented checked _
      agrees
  refine ⟨sent, fun out => ?_, fun fuel enough more => ?_⟩
  · rw [List.length_map] at walked
    unfold serializeSequence
    rw [walked]
    exact writes out
  · have passed : protocolChecked (some dd) (sent ++ more) = .ok () (sent ++ more) := by
      simp only [protocolChecked, checked]
      rfl
    unfold deserializeSequence
    rw [Library.call_ok passed]
    exact reads fuel enough more

end Libdap.Guarantees.SequenceStream
