import Libdap.Guarantees.SequenceStream

/-!
# A data response with Sequences

The variables of the dataset and its Sequences, serialized one after the other behind the
declarations, are what the client's variables take from the stream.
-/
namespace Libdap.Guarantees.SequenceResponse
open Libdap.Library Libdap.Library.Wire
open Libdap.Source Libdap.Source.Escaping Libdap.Source.XDR
open Libdap.Source.Declarations Libdap.Source.DataResponse Libdap.Source.SequenceStream
open Libdap.Source.Sequence (Row Selection DataDDS make)
open Libdap.Source.XDRStreamMarshaller (Put)
open Libdap.Source.XDRFileUnMarshaller (Get)
open Libdap.Guarantees.DDSText (AllReadable Named)
open Libdap.Guarantees.DDSRoundTrip Libdap.Guarantees.DDSProjection
open Libdap.Guarantees.DataResponse (Fits projectedData agree_variable
  response_of_agree)
open Libdap.Guarantees.SequenceStream (mask declared clientRows FitsLevels hierarchy_agrees)
open Libdap.Guarantees.XDRFile (referenceScalars referenceScalars_documented)
open SequenceSerialize (Numberable accepted tagged)

mutual
/-- A Sequence within a Sequence is its last member and is sent, and so below. -/
def OrderedIn : Var → Prop
  | .constructor true _ sendP vars => sendP = true ∧ Ordered vars
  | _ => True

def Ordered : List Var → Prop
  | [] => True
  | v :: vars => (isSequence v = true → vars = []) ∧ OrderedIn v ∧ Ordered vars
end

/-- A Sequence whose rows have data for all its levels and can be numbered. -/
def FitsSequence (select : Selection Field) (vars : List Var) : Data → Prop
  | .rows rows =>
    Ordered vars ∧ (∀ r ∈ rowsOf vars rows, FitsLevels (ownVars vars) (childLevels vars) r) ∧
      Numberable select [] ((childLevels vars).map mask) (rowsOf vars rows)
  | _ => False

/-- The rows of a Sequence that are accepted, as the client has them. -/
def sequenceData (select : Selection Field) (vars : List Var) : Data → Data
  | .rows rows =>
    .rows (rowsData (childLevels vars).length (clientRows (accepted select []
      (mask (ownVars vars)) ((childLevels vars).map mask) (rowsOf vars rows))))
  | d => d

/-! ## Levels -/

theorem isSequence_declared (v : Var) : isSequence (reset (projected v)) = isSequence v := by
  cases v with
  | grid name sendP arrayVar mapVars =>
    rw [projected]
    split <;> rfl
  | _ => rfl

theorem declared_cons (v : Var) (vars : List Var) :
    declared (v :: vars) =
      if v.sendP then reset (projected v) :: declared vars else declared vars := by
  simp only [declared, projectedAll]
  split <;> rfl

/-- The client's level has the variables that are sent of the server's. -/
theorem ownVars_declared (vars : List Var) : ownVars (declared vars) = declared (ownVars vars) := by
  induction vars with
  | nil => rfl
  | cons v vars ih =>
    unfold ownVars at ih ⊢
    rw [declared_cons, List.filter_cons]
    by_cases sent : v.sendP = true <;> by_cases inner : isSequence v = true <;>
      simp [sent, inner, ih, isSequence_declared, declared_cons]

theorem sequence_of {v : Var} (inner : isSequence v = true) :
    ∃ name sendP vars, v = .constructor true name sendP vars := by
  cases v with
  | constructor isSequence name sendP vars =>
    cases inner
    exact ⟨name, sendP, vars, rfl⟩
  | _ => cases inner

mutual
theorem levels_declared (v : Var) (ordered : OrderedIn v) :
    levels (reset (projected v)) = (levels v).map declared := by
  cases v with
  | constructor isSequence name sendP vars =>
    cases isSequence with
    | false => rfl
    | true =>
      obtain ⟨-, ordered⟩ := ordered
      rw [levels, List.map_cons, ← ownVars_declared, ← childLevels_declared vars ordered]
      rfl
  | grid name sendP arrayVar mapVars =>
    rw [projected]
    split <;> rfl
  | _ => rfl

theorem childLevels_declared (vars : List Var) (ordered : Ordered vars) :
    childLevels (declared vars) = (childLevels vars).map declared := by
  cases vars with
  | nil => rfl
  | cons v vars =>
    obtain ⟨last, inside, ordered⟩ := ordered
    rw [declared_cons, childLevels]
    by_cases inner : isSequence v = true
    · obtain ⟨name, sendP, child, rfl⟩ := sequence_of inner
      obtain ⟨rfl, -⟩ := id inside
      rw [if_pos inner, ← levels_declared _ inside]
      rfl
    · rw [if_neg inner, ← childLevels_declared vars ordered]
      split
      · rw [childLevels, if_neg (by rwa [isSequence_declared])]
      · rfl
end

mutual
theorem makeLevels_eq (v : Var) (ordered : OrderedIn v) :
    makeLevels v = (levels v).map fun l => make (mask l) [] := by
  cases v with
  | constructor isSequence name sendP vars =>
    cases isSequence with
    | false => rfl
    | true =>
      obtain ⟨rfl, ordered⟩ := ordered
      rw [makeLevels, levels, List.map_cons, makeChildren_eq vars ordered]
      rfl
  | _ => rfl

theorem makeChildren_eq (vars : List Var) (ordered : Ordered vars) :
    makeChildren vars = (childLevels vars).map fun l => make (mask l) [] := by
  cases vars with
  | nil => rfl
  | cons v vars =>
    obtain ⟨-, inside, ordered⟩ := ordered
    rw [makeChildren, childLevels]
    split
    · exact makeLevels_eq v inside
    · exact makeChildren_eq vars ordered
end

/-! ## The response -/

variable {xdr : ScalarRoutines}

theorem sequence_agrees (documented : xdr.Documented) (garbage : UInt8) (select : Selection Field)
    {dd : DataDDS} (served : 2 ≤ dd.protocolMajor) (vars : List Var) (d : Data)
    (fits : FitsSequence select vars d) :
    Agree (putSequence xdr select vars d) (getSequence xdr garbage (some dd) (declared vars))
      (sequenceData select vars d) := by
  cases d with
  | rows rows =>
    obtain ⟨ordered, fits, few⟩ := fits
    obtain ⟨sent, writes, reads⟩ := @hierarchy_agrees xdr (fun _ _ => throw .undefinedBehaviour)
      (fun _ => throw .undefinedBehaviour) documented garbage select (ownVars vars)
      (childLevels vars) (rowsOf vars rows) dd fits few served
    refine ⟨sent, ?_, fun more => ?_⟩
    · have top : makeLevel true vars (rowsOf vars rows) =
          make (mask (ownVars vars)) (rowsOf vars rows) := rfl
      rw [putSequence, top, makeChildren_eq vars ordered]
      rw [tagged, List.map_map] at writes
      exact writes
    · have enough : sent.length ≤ (sent ++ more).length + 1 := by
        rw [List.length_append]
        omega
      have read := reads _ enough more
      rw [← ownVars_declared, ← childLevels_declared vars ordered] at read
      have depth : (childLevels (declared vars)).length = (childLevels vars).length := by
        rw [childLevels_declared vars ordered, List.length_map]
      have stream : (get : Get (List UInt8)) (sent ++ more) = .ok (sent ++ more) (sent ++ more) :=
        rfl
      unfold getSequence
      rw [Library.call_ok stream, Library.call_ok read, depth]
      rfl
  | _ => exact fits.elim

/-- A member of the dataset has data that fit, a Sequence rows for all its levels. Any other
member looks at the selection itself and is sent if that holds, so there is none then. -/
def FitsMember (select : Selection Field) : Var → Data → Prop
  | .constructor true _ _ vars, d => FitsSequence select vars d
  | v, d => (∀ values, select values = true) ∧ Fits v d

def FitsMembers (select : Selection Field) : List Var → List Data → Prop
  | [], [] => True
  | v :: vars, d :: data =>
    (v.sendP = true → FitsMember select v d) ∧ FitsMembers select vars data
  | _, _ => False

/-- What the client has of a member. -/
def memberData (select : Selection Field) : Var → Data → Data
  | .constructor true _ _ vars, d => sequenceData select vars d
  | v, d => projectedData v d

def membersData (select : Selection Field) : List Var → List Data → List Data
  | v :: vars, d :: data =>
    if v.sendP then memberData select v d :: membersData select vars data
    else membersData select vars data
  | _, _ => []

theorem member_agrees (documented : xdr.Documented) (garbage : UInt8) (select : Selection Field)
    {dd : DataDDS} (served : 2 ≤ dd.protocolMajor) (v : Var) (d : Data)
    (fits : FitsMember select v d) :
    Agree (serialize xdr (putSequence xdr select) v d)
      (deserialize xdr (getSequence xdr garbage (some dd)) (reset (projected v)))
      (memberData select v d) := by
  cases v with
  | constructor isSequence name sendP vars =>
    cases isSequence with
    | true => exact sequence_agrees documented garbage select served vars d fits
    | false => exact agree_variable documented _ d fits.2
  | _ => exact agree_variable documented _ d fits.2

theorem members_agree (documented : xdr.Documented) (garbage : UInt8) (select : Selection Field)
    {dd : DataDDS} (served : 2 ≤ dd.protocolMajor) {vars : List Var} {data : List Data}
    (fits : FitsMembers select vars data) :
    Agree (serializeAll xdr (putSequence xdr select) vars data)
      (deserializeAll xdr (getSequence xdr garbage (some dd)) (declared vars))
      (membersData select vars data) := by
  induction vars generalizing data with
  | nil =>
    cases data with
    | nil => exact agree_nothing []
    | cons d data => exact fits.elim
  | cons v vars ih =>
    cases data with
    | nil => exact fits.elim
    | cons d data =>
      obtain ⟨first, later⟩ := fits
      have behind := ih later
      rw [serializeAll, declared_cons, membersData]
      by_cases sent : v.sendP = true
      · simp only [sent, if_true]
        exact (member_agrees documented garbage select served v d (first sent)).pair behind
          List.cons
      · have unsent := Bool.eq_false_iff.mpr sent
        simp only [unsent, Bool.false_eq_true, if_false]
        exact behind

/-- A response with Sequences is read as the projection, with the rows that were accepted. -/
theorem sequences_read_back (documented : xdr.Documented) (garbage marker : UInt8)
    (select : Selection Field) (dd : DataDDS) (served : 2 ≤ dd.protocolMajor) (dds : DDS)
    (data : List Data) (readable : AllReadable dds.vars) (projects : ProjectsAll dds.vars)
    (named : Named dds.name) (plain : id2www dds.name = dds.name)
    (fits : FitsMembers select dds.vars data) (out : Text) :
    ∃ response,
      datasetConstraint xdr (putSequence xdr select) dds data out = .ok () (out ++ response) ∧
      ∀ more, processData xdr (getSequence xdr marker (some dd)) garbage (response ++ more) =
        some (resetDDS (projectedDDS dds), .ok (membersData select dds.vars data) more) :=
  response_of_agree garbage dds data readable projects named plain
    (members_agree documented marker select served fits) out

/-! The stations of a survey, with what was measured at each. -/

def measured : Var :=
  .constructor true (bytes "measured") true [.simple .int16 (bytes "height") true]

def stations : List Var :=
  [.simple .int16 (bytes "station") true, .simple .str (bytes "note") false, measured]

def survey : DDS :=
  { heights with
    vars := [.simple .str (bytes "title") false,
      .constructor true (bytes "stations") true stations] }

def stationRow (number : UInt8) (found : List UInt8) : Data :=
  .members [.value [0, number], .value [], .rows (found.map fun h => .members [.value [0, h]])]

def surveyData : List Data :=
  [.value [], .rows [stationRow 1 [7, 9], stationRow 2 [9], stationRow 3 [8]]]

/-- Whether the height is below nine. -/
def low : Selection Field := fun values =>
  match values with
  | [(_, .value [0, h])] :: _ => decide (h < 9)
  | _ => false

theorem station_fits (number : UInt8) {found : List UInt8} (some' : found ≠ []) :
    FitsLevels (ownVars stations) (childLevels stations)
      (rowOf stations (stationRow number found)) := by
  have inner : ∀ hs : List UInt8, ∀ c ∈ rowsOf [.simple .int16 (bytes "height") true]
      (hs.map fun h => .members [.value [0, h]]),
        FitsLevels [.simple .int16 (bytes "height") true] [] c := by
    intro hs
    induction hs with
    | nil => exact fun c mem => absurd mem List.not_mem_nil
    | cons h hs ih =>
      intro c mem
      rcases List.mem_cons.mp mem with rfl | mem
      · exact ⟨rfl, fun _ t kept => by cases kept; rfl, trivial⟩
      · exact ih c mem
  refine ⟨⟨rfl, fun _ t kept => by cases kept; rfl, fun sent => absurd sent (by decide), trivial⟩,
    ?_, inner found⟩
  cases found with
  | nil => exact absurd rfl some'
  | cons h hs => exact List.cons_ne_nil _ _

theorem survey_fits : FitsMembers low survey.vars surveyData := by
  refine ⟨fun sent => absurd sent Bool.false_ne_true, fun _ =>
    ⟨⟨nofun, trivial, nofun, trivial, ?_⟩, ?_, ?_⟩, trivial⟩
  · exact ⟨fun _ => rfl, ⟨rfl, nofun, trivial, trivial⟩, trivial⟩
  · intro r mem
    simp only [rowsOf, List.mem_cons, List.not_mem_nil, or_false] at mem
    rcases mem with rfl | rfl | rfl
    all_goals exact station_fits _ (List.cons_ne_nil _ _)
  · refine ⟨by decide, fun r mem => ?_⟩
    simp only [rowsOf, List.mem_cons, List.not_mem_nil, or_false] at mem
    rcases mem with rfl | rfl | rfl
    all_goals
      change List.length _ < 2 ^ 31
      decide

theorem survey_readable : AllReadable survey.vars := by
  have title : Named (bytes "title") := DDSText.named_of (by decide)
  have top : Named (bytes "stations") := DDSText.named_of (by decide)
  have number : Named (bytes "station") := DDSText.named_of (by decide)
  have note : Named (bytes "note") := DDSText.named_of (by decide)
  have inner : Named (bytes "measured") := DDSText.named_of (by decide)
  have height : Named (bytes "height") := DDSText.named_of (by decide)
  exact ⟨title, ⟨top, by decide, number, note, ⟨inner, by decide, height, trivial⟩, trivial⟩,
    trivial⟩

theorem survey_projects : ProjectsAll survey.vars :=
  ⟨trivial, ⟨trivial, trivial, ⟨trivial, trivial⟩, trivial⟩, trivial⟩

theorem sequences_read_back_survey :
    ∃ response, datasetConstraint referenceScalars (putSequence referenceScalars low) survey
        surveyData [] = .ok () ([] ++ response) ∧
      ∀ more, processData referenceScalars (getSequence referenceScalars 0 (some ⟨3, "3.2"⟩)) 0
          (response ++ more) =
        some (resetDDS (projectedDDS survey), .ok (membersData low survey.vars surveyData) more) :=
  sequences_read_back referenceScalars_documented 0 0 low ⟨3, "3.2"⟩ (by decide) survey surveyData
    survey_readable survey_projects (DDSText.named_of (by decide)) (by decide) survey_fits []

end Libdap.Guarantees.SequenceResponse
