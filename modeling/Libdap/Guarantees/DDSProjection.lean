import Libdap.Guarantees.DDSRoundTrip

/-!
# A projected DDS is parsed to its projection

Printed with a constraint, a dataset has the text of the variables that are sent, with the sizes
that are selected. A Grid of which a part is missing or whose maps do not have the constraint of
its array is sent as a Structure.
-/
namespace Libdap.Guarantees.DDSProjection
open Libdap.Source Libdap.Source.Array Libdap.Source.Escaping
open Libdap.Source.Declarations Libdap.Source.DDSText Libdap.Source.DDSParser
open Libdap.Guarantees.ArrayConstraint Libdap.Guarantees.DDSText Libdap.Guarantees.DDSRoundTrip

/-- The elements that are selected, as a dimension of their own. -/
def selected (d : Dimension) : Dimension := newDimension d.cSize d.name

def selectedDims (a : Dims) : Dims := { a with shape := a.shape.map selected }

mutual
/-- What a constraint leaves of a variable. -/
def projected : Var → Var
  | .simple type name sendP => .simple type name sendP
  | .array name sendP var dims => .array name sendP (projected var) (selectedDims dims)
  | .constructor isSequence name sendP vars =>
    .constructor isSequence name sendP (projectedAll vars)
  | .grid name sendP arrayVar mapVars =>
    if yieldsGrid arrayVar mapVars then
      .grid name sendP (projected arrayVar) (projectedAll mapVars)
    else
      .constructor false name sendP
        ((if arrayVar.sendP then [projected arrayVar] else []) ++ projectedAll mapVars)

def projectedAll : List Var → List Var
  | [] => []
  | v :: vars => if v.sendP then projected v :: projectedAll vars else projectedAll vars
end

def projectedDDS (dds : DDS) : DDS := { dds with vars := projectedAll dds.vars }

mutual
/-- What is promised of a projection: an Array is marked with its template, its constraints are what
`add_constraint` makes, and the maps of a Grid have different names. -/
def Projects : Var → Prop
  | .simple .. => True
  | .array _ sendP var dims =>
    var.sendP = sendP ∧ Projects var ∧ ∀ d ∈ dims.shape, WellFormed d
  | .constructor _ _ _ vars => ProjectsAll vars
  | .grid _ _ arrayVar mapVars =>
    (mapVars.map Var.name).Nodup ∧ Projects arrayVar ∧ ProjectsAll mapVars

def ProjectsAll : List Var → Prop
  | [] => True
  | v :: vars => Projects v ∧ ProjectsAll vars
end

/-! ## The text -/

theorem flatMap_selected (shape : List Dimension) :
    shape.flatMap (printDimension true) = (shape.map selected).flatMap (printDimension false) := by
  rw [List.flatMap_map]
  rfl

/-- What is not sent is not printed. -/
theorem printDecl_unsent {v : Var} (unsent : v.sendP = false) (space : Text) (printSemi : Bool) :
    printDecl true space printSemi v = [] := by
  cases v <;> (rw [Var.sendP] at unsent; simp [printDecl, unsent])

mutual
theorem printDecl_projected (v : Var) (projects : Projects v) (sent : v.sendP = true) (space : Text)
    (printSemi : Bool) :
    printDecl true space printSemi v = printDecl false space printSemi (projected v) := by
  cases v with
  | simple type name sendP =>
    rw [Var.sendP] at sent
    subst sent
    rfl
  | array name sendP var dims =>
    rw [Var.sendP] at sent
    subst sent
    rw [Projects] at projects
    have template := printDecl_projected var projects.2.1 projects.1 space false
    simp [projected, printDecl, template, flatMap_selected, selectedDims]
  | constructor isSequence name sendP vars =>
    rw [Var.sendP] at sent
    subst sent
    rw [Projects] at projects
    have members := printAll_projected vars projects (space ++ bytes "    ")
    simp [projected, printDecl, members]
  | grid name sendP arrayVar mapVars =>
    rw [Var.sendP] at sent
    subst sent
    rw [Projects] at projects
    have maps := printAll_projected mapVars projects.2.2 (space ++ bytes "    ")
    by_cases yields : yieldsGrid arrayVar mapVars = true
    · have arraySent : arrayVar.sendP = true := by
        simp only [yieldsGrid, Bool.and_eq_true] at yields
        exact yields.1.1
      have array := printDecl_projected arrayVar projects.2.1 arraySent (space ++ bytes "    ") true
      simp [projected, printDecl, yields, array, maps]
    · by_cases arraySent : arrayVar.sendP = true
      · have array :=
          printDecl_projected arrayVar projects.2.1 arraySent (space ++ bytes "    ") true
        have word : bytes "Structure \x7b\n" = bytes "Structure" ++ bytes " \x7b\n" := by decide
        simp [projected, printDecl, printAll, yields, array, maps, arraySent, constructorName, word]
      · have array :=
          printDecl_unsent (Bool.eq_false_iff.mpr arraySent) (space ++ bytes "    ") true
        have word : bytes "Structure \x7b\n" = bytes "Structure" ++ bytes " \x7b\n" := by decide
        simp [projected, printDecl, yields, array, maps, arraySent, constructorName, word]

theorem printAll_projected (vars : List Var) (projects : ProjectsAll vars) (space : Text) :
    printAll true space vars = printAll false space (projectedAll vars) := by
  cases vars with
  | nil => rfl
  | cons v vars =>
    rw [ProjectsAll] at projects
    have later := printAll_projected vars projects.2 space
    rw [printAll, projectedAll, later]
    split
    · rename_i sent
      rw [printDecl_projected v projects.1 sent, printAll]
    · rename_i unsent
      rw [printDecl_unsent (Bool.eq_false_iff.mpr unsent), List.nil_append]
end

theorem print_projected {dds : DDS} (projects : ProjectsAll dds.vars) :
    dds.print true = (projectedDDS dds).print false := by
  rw [DDS.print, DDS.print, printAll_projected dds.vars projects]
  rfl

/-! ## The projection is a dataset again -/

theorem projected_name (v : Var) : (projected v).name = v.name := by
  cases v with
  | grid name sendP arrayVar mapVars =>
    rw [projected]
    split <;> rfl
  | _ => rfl

theorem projectedAll_eq (vars : List Var) :
    projectedAll vars = (vars.filter Var.sendP).map projected := by
  induction vars with
  | nil => rfl
  | cons v vars ih =>
    rw [projectedAll, List.filter_cons]
    split
    · rw [List.map_cons, ih]
    · exact ih

theorem projectedAll_names (vars : List Var) :
    (projectedAll vars).map Var.name = (vars.filter Var.sendP).map Var.name := by
  rw [projectedAll_eq, List.map_map]
  exact List.map_congr_left fun v _ => projected_name v

theorem nodup_projected {vars : List Var} (distinct : (vars.map Var.name).Nodup) :
    ((projectedAll vars).map Var.name).Nodup := by
  rw [projectedAll_names]
  exact distinct.sublist (List.filter_sublist.map _)

theorem selected_reads {d : Dimension} (reads : DimensionReads d) (wellFormed : WellFormed d) :
    DimensionReads (selected d) := by
  have bounds := wellFormed.bounds
  have high := reads.high
  exact ⟨show _ ≤ d.cSize by omega, show d.cSize < _ by omega, reads.name⟩

/-- Two dimensions with one constraint have one size. -/
theorem cSize_eq {d e : Dimension} (dForm : WellFormed d) (eForm : WellFormed e)
    (start : d.start = e.start) (stop : d.stop = e.stop) (stride : d.stride = e.stride) :
    d.cSize = e.cSize := by
  rw [dForm.selected, eForm.selected, start, stop, stride]

theorem projected_simpleArray {v : Var} (simple : v.isSimpleArray) :
    ∃ name sendP type n p dims, v = .array name sendP (.simple type n p) dims := by
  cases v with
  | array name sendP var dims =>
    cases var with
    | simple type n p => exact ⟨name, sendP, type, n, p, dims, rfl⟩
    | _ => cases simple
  | _ => cases simple

theorem mapsMatch_sent {shape : List Dimension} {maps : List Var}
    (fit : mapsMatch shape maps = true) (same : maps.length = shape.length) :
    ∀ v ∈ maps, v.sendP = true := by
  induction shape generalizing maps with
  | nil =>
    intro v mem
    rw [List.length_eq_zero_iff.mp same] at mem
    cases mem
  | cons d shape ih =>
    cases maps with
    | nil => cases same
    | cons map maps =>
      simp only [mapsMatch, Bool.and_eq_true] at fit
      intro v mem
      rw [List.mem_cons] at mem
      rcases mem with rfl | mem
      · exact fit.1.1.1.1.2
      · exact ih fit.2 (Nat.succ.inj same) v mem

theorem Projects.dimensions {v : Var} (projects : Projects v) :
    ∀ d ∈ v.dims.shape, WellFormed d := by
  cases v with
  | array name sendP var dims =>
    rw [Projects] at projects
    exact projects.2.2
  | _ => exact fun _ mem => absurd mem List.not_mem_nil

theorem mapsFit_projected {arrayName : Text} {shape : List Dimension} {maps : List Var}
    (fit : mapsFit arrayName shape maps = true) (matching : mapsMatch shape maps = true)
    (forms : ∀ d ∈ shape, WellFormed d) (projects : ProjectsAll maps) :
    mapsFit arrayName (shape.map selected) (maps.map projected) = true := by
  induction shape generalizing maps with
  | nil => rfl
  | cons d shape ih =>
    cases maps with
    | nil => rfl
    | cons map maps =>
      rw [ProjectsAll] at projects
      simp only [mapsFit, Bool.and_eq_true, decide_eq_true_eq] at fit
      simp only [mapsMatch, Bool.and_eq_true, decide_eq_true_eq] at matching
      obtain ⟨⟨⟨other, simple⟩, sizes⟩, fit⟩ := fit
      obtain ⟨⟨⟨⟨_, start⟩, stop⟩, stride⟩, matching⟩ := matching
      obtain ⟨name, sendP, type, n, p, dims, rfl⟩ := projected_simpleArray simple
      obtain ⟨e, only⟩ : ∃ e, dims.shape = [e] := by
        have length := congrArg List.length sizes
        rw [List.length_map] at length
        exact List.length_eq_one_iff.mp length
      have eForm : WellFormed e :=
        projects.1.dimensions e (by rw [Var.dims, only]; exact List.mem_singleton_self e)
      simp only [Var.dims, Hyperslab.firstDimension, only] at start stop stride
      have size : e.cSize = d.cSize :=
        cSize_eq eForm (forms d List.mem_cons_self) start stop stride
      have later := ih fit matching (fun f mem => forms f (List.mem_cons_of_mem d mem)) projects.2
      have oneSize : (selectedDims dims).shape.map Dimension.size = [(selected d).size] := by
        rw [selectedDims, only, List.map_singleton, List.map_singleton]
        exact congrArg (fun n => [n]) size
      rw [List.map_cons, List.map_cons, mapsFit, later, projected_name]
      simp only [Bool.and_true, Bool.and_eq_true, decide_eq_true_eq]
      exact ⟨⟨other, rfl⟩, oneSize⟩

theorem projected_isSimpleArray {v : Var} (simple : v.isSimpleArray) :
    (projected v).isSimpleArray ∧ (projected v).dims.shape = v.dims.shape.map selected := by
  obtain ⟨name, sendP, type, n, p, dims, rfl⟩ := projected_simpleArray simple
  exact ⟨rfl, rfl⟩

theorem projected_isArray (v : Var) : (projected v).isArray = v.isArray := by
  cases v with
  | grid name sendP arrayVar mapVars =>
    rw [projected]
    split <;> rfl
  | _ => rfl

theorem mapsFit_names {arrayName : Text} {shape : List Dimension} {maps : List Var}
    (fit : mapsFit arrayName shape maps = true) (same : maps.length = shape.length) :
    arrayName ∉ maps.map Var.name := by
  induction shape generalizing maps with
  | nil => simp [List.length_eq_zero_iff.mp same]
  | cons d shape ih =>
    cases maps with
    | nil => cases same
    | cons map maps =>
      simp only [mapsFit, Bool.and_eq_true, decide_eq_true_eq] at fit
      rw [List.map_cons, List.mem_cons, not_or]
      exact ⟨fit.1.1.1, ih fit.2 (Nat.succ.inj same)⟩

theorem allReadable_append {vars more : List Var} (readable : AllReadable vars)
    (later : AllReadable more) : AllReadable (vars ++ more) := by
  induction vars with
  | nil => exact later
  | cons v vars ih =>
    rw [AllReadable] at readable
    exact ⟨readable.1, ih readable.2⟩

/-- A Grid that stays one is valid with the sizes of its projection. -/
theorem valid_grid {name : Text} {sendP : Bool} {arrayVar : Var} {mapVars : List Var}
    (valid : checkSemantics false (.grid name sendP arrayVar mapVars) = true)
    (yields : yieldsGrid arrayVar mapVars = true) (array : Projects arrayVar)
    (maps : ProjectsAll mapVars) :
    checkSemantics false (.grid name sendP (projected arrayVar) (projectedAll mapVars)) = true := by
  obtain ⟨simple, same, fit⟩ := grid_parts valid
  obtain ⟨simple', shape⟩ := projected_isSimpleArray simple
  simp only [yieldsGrid, Bool.and_eq_true] at yields
  have sent := mapsMatch_sent yields.2 same
  have all : projectedAll mapVars = mapVars.map projected := by
    rw [projectedAll_eq, List.filter_eq_self.mpr sent]
  have fits := mapsFit_projected fit yields.2 array.dimensions maps
  have named : name ≠ [] := by
    simp only [checkSemantics, Bool.and_eq_true, decide_eq_true_eq] at valid
    exact valid.1.1.1.1
  simp [checkSemantics, named, simple', shape, all, same, fits, projected_name]

/-- The parts of a Grid that are sent have different names. -/
theorem nodup_parts {arrayVar : Var} {mapVars : List Var}
    (fit : mapsFit arrayVar.name arrayVar.dims.shape mapVars = true)
    (same : mapVars.length = arrayVar.dims.shape.length)
    (distinct : (mapVars.map Var.name).Nodup) :
    (((if arrayVar.sendP then [projected arrayVar] else []) ++ projectedAll mapVars).map
      Var.name).Nodup := by
  have parts : ((arrayVar :: mapVars).map Var.name).Nodup := by
    rw [List.map_cons, List.nodup_cons]
    exact ⟨mapsFit_names fit same, distinct⟩
  have whole := nodup_projected parts
  rw [projectedAll] at whole
  split
  · rename_i sent
    simpa [sent] using whole
  · rename_i unsent
    simpa [unsent] using whole

mutual
theorem readable_projected (v : Var) (readable : Readable v) (projects : Projects v) :
    Readable (projected v) := by
  cases v with
  | simple type name sendP => exact readable
  | array name sendP var dims =>
    rw [Readable] at readable
    rw [Projects] at projects
    obtain ⟨unescaped, named, plain, template, some', reads⟩ := readable
    rw [projected, Readable, projected_name, projected_isArray]
    refine ⟨unescaped, named, plain, readable_projected var template projects.2.1, ?_, ?_⟩
    · simpa [selectedDims] using some'
    · intro d mem
      obtain ⟨e, listed, rfl⟩ := List.mem_map.mp mem
      exact selected_reads (reads e listed) (projects.2.2 e listed)
  | constructor isSequence name sendP vars =>
    rw [Readable] at readable
    rw [Projects] at projects
    obtain ⟨named, valid, below⟩ := readable
    simp only [checkSemantics, Bool.and_eq_true, decide_eq_true_eq] at valid
    have distinct := nodup_projected valid.1.2
    have named' := named.nonempty
    rw [projected, Readable]
    refine ⟨named, ?_, allReadable_projected vars below projects⟩
    simp [checkSemantics, named', distinct]
  | grid name sendP arrayVar mapVars =>
    rw [Readable] at readable
    rw [Projects] at projects
    obtain ⟨named, valid, array, maps⟩ := readable
    obtain ⟨distinct, arrayProjects, mapsProject⟩ := projects
    have arrayPart := readable_projected arrayVar array arrayProjects
    have mapsPart := allReadable_projected mapVars maps mapsProject
    by_cases yields : yieldsGrid arrayVar mapVars = true
    · rw [projected, if_pos yields, Readable]
      exact ⟨named, valid_grid valid yields arrayProjects mapsProject, arrayPart, mapsPart⟩
    · obtain ⟨_, same, fit⟩ := grid_parts valid
      have names := nodup_parts fit same distinct
      have named' := named.nonempty
      have front : AllReadable (if arrayVar.sendP then [projected arrayVar] else []) := by
        split
        · exact ⟨arrayPart, trivial⟩
        · trivial
      rw [projected, if_neg yields, Readable]
      refine ⟨named, ?_, allReadable_append front mapsPart⟩
      simp only [checkSemantics, named', names, decide_true, ne_eq, not_false_eq_true,
        Bool.not_false, Bool.true_or, Bool.and_self]

theorem allReadable_projected (vars : List Var) (readable : AllReadable vars)
    (projects : ProjectsAll vars) : AllReadable (projectedAll vars) := by
  cases vars with
  | nil => trivial
  | cons v vars =>
    rw [AllReadable] at readable
    rw [ProjectsAll] at projects
    have later := allReadable_projected vars readable.2 projects.2
    rw [projectedAll]
    split
    · exact ⟨readable_projected v readable.1 projects.1, later⟩
    · exact later
end

theorem parse_projected {garbage : UInt8} {dds : DDS} (readable : AllReadable dds.vars)
    (projects : ProjectsAll dds.vars) (named : Named dds.name) (plain : id2www dds.name = dds.name)
    {tail rest : Text} (ended : input tail = ([], rest)) :
    parse garbage (dds.print true ++ tail) = some (resetDDS (projectedDDS dds), rest) := by
  rw [print_projected projects]
  have below : AllReadable (projectedDDS dds).vars :=
    allReadable_projected dds.vars readable projects
  exact parse_fed below named plain ended

/-- A valid dataset, whatever is sent of it, is printed as text that is read as its projection;
data that follows the text is left in the file. -/
theorem parse_constrained (garbage : UInt8) (dds : DDS) (data : Text)
    (readable : AllReadable dds.vars) (projects : ProjectsAll dds.vars) (named : Named dds.name)
    (plain : id2www dds.name = dds.name) :
    parse garbage (dds.print true) = some (resetDDS (projectedDDS dds), []) ∧
      parse garbage (dds.print true ++ (bytes "Data:\n" ++ data)) =
        some (resetDDS (projectedDDS dds), data) := by
  have whole := @parse_projected garbage dds readable projects named plain [] [] input_nil
  rw [List.append_nil] at whole
  exact ⟨whole, parse_projected readable projects named plain (input_end data)⟩

theorem latitude_wellFormed : WellFormed latitude :=
  wellFormed_of_count (by decide) (by decide) (by decide) (by decide) (by decide)

theorem heights_projects : ProjectsAll heights.vars := by
  have dims : ∀ d ∈ [latitude], WellFormed d := fun d mem =>
    List.mem_singleton.mp mem ▸ latitude_wellFormed
  exact ⟨trivial, ⟨by decide, ⟨rfl, trivial, dims⟩, ⟨rfl, trivial, dims⟩, trivial⟩, trivial⟩

theorem parse_constrained_heights :
    parse 0 (heights.print true) = some (resetDDS (projectedDDS heights), []) ∧
      parse 0 (heights.print true ++ (bytes "Data:\n" ++ [0, 0, 0, 2])) =
        some (resetDDS (projectedDDS heights), [0, 0, 0, 2]) :=
  parse_constrained 0 heights [0, 0, 0, 2] heights_readable heights_projects
    (named_of (by decide)) (by decide)

end Libdap.Guarantees.DDSProjection
