import Libdap.Guarantees.DDSText
import Libdap.Source.DDSParser

/-!
# A printed DDS is parsed to the dataset it was

The lines of a printed DDS are fed to the scanner up to the line that ends it. The parser builds
the variables of the tree again: what a projection set is gone from them.
-/
namespace Libdap.Guarantees.DDSRoundTrip
open Libdap.Source Libdap.Source.Array Libdap.Source.Escaping Libdap.Source.Words
open Libdap.Source.Declarations Libdap.Source.DDSText Libdap.Source.DDSParser
open Libdap.Guarantees.VariableNames Libdap.Guarantees.DDSText
open Hyperslab (shown)
open Grid (Part)

mutual
/-- Variables as a parser makes them: nothing is sent and no dimension is constrained. -/
def reset : Var → Var
  | .simple type name _ => .simple type name false
  | .array name _ var dims => .array name false (reset var) dims.resetConstraint
  | .constructor isSequence name _ vars => .constructor isSequence name false (resetAll vars)
  | .grid name _ arrayVar mapVars => .grid name false (reset arrayVar) (resetAll mapVars)

def resetAll : List Var → List Var
  | [] => []
  | v :: vars => reset v :: resetAll vars
end

/-! ## Lines -/

/-- Part of a line, without the character that ends a C string. -/
def Inside (s : Text) : Prop := ∀ c ∈ s, c ≠ newline ∧ c ≠ 0

/-- A line that goes to the scanner as it is, and that no rule takes for the end of the text. -/
structure Goes (line : Text) : Prop where
  inside : Inside line
  data : ¬ bytes "Data:" <:+ line
  dataReturn : ¬ bytes "Data:\r" <:+ line

/-- Lines that go to the scanner as they are. -/
def Fed (s : Text) : Prop :=
  ∃ lines : List Text, s = lines.flatMap (· ++ [newline]) ∧ ∀ line ∈ lines, Goes line

/-- Lines, and the first part of one that a semicolon ends. -/
def Open (s : Text) : Prop := ∀ more, Inside more → Fed (s ++ (more ++ bytes ";\n"))

theorem fed_nil : Fed [] := ⟨[], rfl, nofun⟩

theorem Fed.append {s more : Text} (first : Fed s) (second : Fed more) : Fed (s ++ more) := by
  obtain ⟨lines, rfl, goes⟩ := first
  obtain ⟨lines', rfl, goes'⟩ := second
  exact ⟨lines ++ lines', List.flatMap_append.symm, fun line mem =>
    (List.mem_append.mp mem).elim (goes line) (goes' line)⟩

theorem input_line {line : Text} (inside : ∀ c ∈ line, c ≠ newline) (tail : Text) :
    input (line ++ newline :: tail) =
      if line.head? = some 0 ∨ line = bytes "Data:" then ([], tail)
      else ((line ++ [newline]).takeWhile (· ≠ 0) ++ (input tail).1, (input tail).2) := by
  have takes : (line ++ newline :: tail).takeWhile (· ≠ newline) = line := by
    rw [List.takeWhile_append_of_pos fun c mem => by simpa using inside c mem,
      List.takeWhile_cons_of_neg (by simp), List.append_nil]
  have drops : (line ++ newline :: tail).dropWhile (· ≠ newline) = newline :: tail := by
    rw [List.dropWhile_append_of_pos fun c mem => by simpa using inside c mem,
      List.dropWhile_cons_of_neg (by simp)]
  rw [input.eq_def]
  simp only [takes]
  split
  · rename_i found
    rw [drops] at found
    cases found
  · rename_i rest found
    rw [drops] at found
    cases found
    simp only [Bool.or_eq_true, decide_eq_true_eq]

theorem fed_line {line : Text} (goes : Goes line) : Fed (line ++ [newline]) :=
  ⟨[line], by simp, by simpa using goes⟩

theorem input_goes {line : Text} (goes : Goes line) (tail : Text) :
    input (line ++ newline :: tail) = (line ++ newline :: (input tail).1, (input tail).2) := by
  have whole : (line ++ [newline]).takeWhile (· ≠ 0) = line ++ [newline] := by
    refine List.takeWhile_eq_self_iff.mpr fun c mem => ?_
    rw [List.mem_append, List.mem_singleton] at mem
    rcases mem with mem | rfl
    · simpa using (goes.inside c mem).2
    · decide
  have first : line.head? ≠ some 0 := fun zero =>
    (goes.inside 0 (List.mem_of_mem_head? zero)).2 rfl
  have other : line ≠ bytes "Data:" := fun same => goes.data (same ▸ List.suffix_rfl)
  rw [input_line (fun c mem => (goes.inside c mem).1), if_neg (not_or.mpr ⟨first, other⟩), whole,
    List.append_assoc, List.singleton_append]

theorem Fed.passes {s : Text} (fed : Fed s) (tail : Text) :
    input (s ++ tail) = (s ++ (input tail).1, (input tail).2) := by
  obtain ⟨lines, rfl, goes⟩ := fed
  induction lines with
  | nil => rfl
  | cons line lines ih =>
    obtain ⟨first, later⟩ := List.forall_mem_cons.mp goes
    rw [List.flatMap_cons, List.append_assoc, List.append_assoc, List.singleton_append,
      input_goes first, ih later]
    simp only [List.append_assoc, List.cons_append, List.nil_append]

/-! ### The end of the text -/

/-- What is in front of the first line end. -/
theorem line_eq {p l rest rest' : Text} (plain : newline ∉ p) (inside : newline ∉ l)
    (same : p ++ newline :: rest = l ++ newline :: rest') : p = l := by
  have takes : ∀ (q r : Text), newline ∉ q → (q ++ newline :: r).takeWhile (· ≠ newline) = q := by
    intro q r without
    have all : ∀ c ∈ q, decide (c ≠ newline) = true := by
      intro c mem
      rw [decide_eq_true_eq]
      rintro rfl
      exact without mem
    rw [List.takeWhile_append_of_pos all, List.takeWhile_cons_of_neg (by simp), List.append_nil]
  have fronts := congrArg (List.takeWhile (· ≠ newline)) same
  rwa [takes p rest plain, takes l rest' inside] at fronts

theorem startsData_line {line last rest : Text} (goes : Goes line) (part : last <:+ line) :
    startsData (last ++ newline :: rest) = false := by
  have inside : newline ∉ last := fun mem => (goes.inside newline (part.subset mem)).1 rfl
  rw [startsData, Bool.or_eq_false_iff]
  constructor
  · by_contra starts
    obtain ⟨more, same⟩ := List.isPrefixOf_iff_prefix.mp (Bool.not_eq_false _ ▸ starts)
    rw [show bytes "Data:\n" = bytes "Data:" ++ [newline] by decide, List.append_assoc] at same
    exact goes.data (line_eq (by decide) inside same ▸ part)
  · by_contra starts
    obtain ⟨more, same⟩ := List.isPrefixOf_iff_prefix.mp (Bool.not_eq_false _ ▸ starts)
    rw [show bytes "Data:\r\n" = bytes "Data:\r" ++ [newline] by decide, List.append_assoc] at same
    exact goes.dataReturn (line_eq (by decide) inside same ▸ part)

theorem Fed.no_data {s : Text} (fed : Fed s) : ∀ last, last <:+ s → startsData last = false := by
  obtain ⟨lines, rfl, goes⟩ := fed
  induction lines with
  | nil =>
    intro last part
    rw [List.flatMap_nil] at part
    rw [List.suffix_nil.mp part]
    decide
  | cons line lines ih =>
    obtain ⟨first, later⟩ := List.forall_mem_cons.mp goes
    rintro last ⟨front, same⟩
    rw [List.flatMap_cons] at same
    rcases List.append_eq_append_iff.mp same with ⟨part, split, rfl⟩ | ⟨part, rfl, split⟩
    · rcases List.eq_nil_or_concat part with rfl | ⟨part, c, rfl⟩
      · exact ih later _ List.suffix_rfl
      · rw [List.concat_eq_append, ← List.append_assoc] at split
        obtain ⟨front_eq, last_eq⟩ := List.append_inj' split rfl
        cases last_eq
        rw [List.concat_eq_append, List.append_assoc, List.singleton_append]
        exact startsData_line first ⟨front, front_eq.symm⟩
    · exact ih later last ⟨part, split.symm⟩

/-- No rule ends a text in which none can. -/
theorem dataEnd_none : ∀ s : Text, (∀ last, last <:+ s → startsData last = false) →
    ∀ state, dataEnd state s = none
  | [], _, state => by cases state <;> rfl
  | c :: rest, none', state => by
    have whole := none' (c :: rest) List.suffix_rfl
    rw [startsData, Bool.or_eq_false_iff] at whole
    have later := dataEnd_none rest fun last part =>
      none' last (part.trans (List.suffix_cons c rest))
    rw [dataEnd.eq_def]
    cases state with
    | initial skip =>
      cases skip with
      | zero =>
        simp only [whole.1, whole.2, later, Option.map_none, Bool.false_eq_true, if_false,
          ite_self]
      | succ skip => simp only [later, Option.map_none]
    | comment => simp only [later, Option.map_none, ite_self]

theorem Fed.leaves {s : Text} (fed : Fed s) {tail rest : Text} (ended : input tail = ([], rest)) :
    left (s ++ tail) = rest := by
  rw [DDSText.left, fed.passes, ended, List.append_nil]
  simp only [dataEnd_none s fed.no_data]

theorem input_nil : input [] = ([], []) := by
  rw [input.eq_def]
  rfl

theorem Open.fed {s : Text} (opened : Open s) : Fed (s ++ bytes ";\n") :=
  opened [] (fun _ mem => absurd mem List.not_mem_nil)

/-- A line of which the last character is not one of a rule that ends the text. -/
theorem goes_of_last {line : Text} (inside : Inside line) {c : UInt8}
    (last : line.getLast? = some c) (other : c ≠ colon ∧ c ≠ 13) : Goes line := by
  refine ⟨inside, ?_, ?_⟩
  · rintro ⟨front, rfl⟩
    rw [show bytes "Data:" = bytes "Data" ++ [colon] by decide, ← List.append_assoc,
      List.getLast?_concat] at last
    exact other.1 (Option.some.inj last).symm
  · rintro ⟨front, rfl⟩
    rw [show bytes "Data:\r" = bytes "Data:" ++ [13] by decide, ← List.append_assoc,
      List.getLast?_concat] at last
    exact other.2 (Option.some.inj last).symm

theorem open_inside {s : Text} (inside : Inside s) : Open s := by
  intro more later
  have line : Fed ((s ++ more ++ [semi]) ++ [newline]) := by
    refine fed_line (goes_of_last (fun c mem => ?_) List.getLast?_concat (by decide))
    rw [List.mem_append, List.mem_append, List.mem_singleton] at mem
    rcases mem with (mem | mem) | rfl
    · exact inside c mem
    · exact later c mem
    · decide
  have ended : bytes ";\n" = [semi] ++ [newline] := by decide
  rw [ended]
  simpa only [List.append_assoc] using line

theorem Open.inside {s more : Text} (opened : Open s) (inside : Inside more) :
    Open (s ++ more) := by
  intro last later
  have whole := opened (more ++ last) fun c mem =>
    (List.mem_append.mp mem).elim (inside c) (later c)
  simpa only [List.append_assoc] using whole

theorem Fed.opened {s more : Text} (fed : Fed s) (opened : Open more) : Open (s ++ more) := by
  intro last later
  rw [List.append_assoc]
  exact fed.append (opened last later)

theorem Inside.append {s more : Text} (inside : Inside s) (later : Inside more) :
    Inside (s ++ more) := fun c mem => (List.mem_append.mp mem).elim (inside c) (later c)

theorem inside_words {s : Text} (chars : ∀ c ∈ s, startsWord c = true) : Inside s := by
  intro c mem
  have starts := chars c mem
  constructor <;> rintro rfl <;> exact absurd starts (by decide)

theorem inside_blanks {space : Text} (blanks : ∀ c ∈ space, c = 32) : Inside space := by
  intro c mem
  rw [blanks c mem]
  decide

theorem inside_bytes {s : String} (fine : (bytes s).all (fun c => c ≠ newline ∧ c ≠ 0) = true) :
    Inside (bytes s) := fun c mem => by simpa using List.all_eq_true.mp fine c mem

theorem input_end (data : Text) : input (bytes "Data:\n" ++ data) = ([], data) := by
  have line : bytes "Data:\n" ++ data = bytes "Data:" ++ newline :: data := by
    rw [show bytes "Data:\n" = bytes "Data:" ++ [newline] by decide, List.append_assoc]
    rfl
  have inside : Inside (bytes "Data:") := inside_bytes (by decide)
  rw [line, input_line (fun c mem => (inside c mem).1), if_pos (.inr rfl)]

theorem inside_dimension (d : Dimension) : Inside (printDimension false d) := by
  have size : Inside (text (ErrorText.printInt d.size)) := inside_words startsWord_size
  have opens : Inside (bytes "[") := inside_bytes (by decide)
  have closes : Inside (bytes "]") := inside_bytes (by decide)
  have equals : Inside (bytes " = ") := inside_bytes (by decide)
  have name : Inside (if d.name = "" then [] else id2www (bytes d.name) ++ bytes " = ") := by
    split
    · exact fun _ mem => absurd mem List.not_mem_nil
    · exact (inside_words (id2www_chars _)).append equals
  exact ((opens.append name).append size).append closes

/-- A line with a brace, or with the keyword of a part of a Grid. -/
theorem fed_blank {space : Text} (blanks : ∀ c ∈ space, c = 32) {line : String}
    (fine : (bytes line).all (fun c => c ≠ newline ∧ c ≠ 0) = true)
    (long : 6 ≤ (bytes line).length) (data : ¬ bytes "Data:" <:+ bytes line)
    (dataReturn : ¬ bytes "Data:\r" <:+ bytes line) :
    Fed (space ++ bytes line ++ [newline]) := by
  have inside := (inside_blanks blanks).append (inside_bytes fine)
  have part : bytes line <:+ space ++ bytes line := List.suffix_append _ _
  refine fed_line ⟨inside, fun ends => data ?_, fun ends => dataReturn ?_⟩
  · exact List.suffix_of_suffix_length_le ends part (Nat.le_trans (by decide) long)
  · exact List.suffix_of_suffix_length_le ends part (Nat.le_trans (by decide) long)

/-- The last line of a declaration with a body. -/
theorem open_closing {space : Text} (blanks : ∀ c ∈ space, c = 32) (n : Text) :
    Open (closing space n false) := by
  have brace : Inside (bytes "\x7d ") := inside_bytes (by decide)
  exact open_inside ((((inside_blanks blanks).append brace).append
    (inside_words (id2www_chars n))).append fun _ mem => absurd mem List.not_mem_nil)

mutual
theorem open_decl (v : Var) {space : Text} (blanks : ∀ c ∈ space, c = 32) :
    Open (printDecl false space false v) := by
  cases v with
  | simple type name sendP =>
    have word : Inside (bytes type.typeName) :=
      inside_words (isWord_typeName type).1.chars
    have blank : Inside (bytes " ") := inside_bytes (by decide)
    have line := (((inside_blanks blanks).append word).append blank).append
      (inside_words (id2www_chars name))
    simpa [printDecl, semicolon] using open_inside line
  | array name sendP var dims =>
    have dimensions : Inside (dims.shape.flatMap (printDimension false)) := by
      intro c mem
      obtain ⟨d, _, listed⟩ := List.mem_flatMap.mp mem
      exact inside_dimension d c listed
    simpa [printDecl, semicolon] using (open_decl var blanks).inside dimensions
  | constructor isSequence name sendP vars =>
    have first : Fed (space ++ bytes (constructorName isSequence ++ " \x7b") ++ [newline]) := by
      cases isSequence <;> exact fed_blank blanks (by decide) (by decide) (by decide) (by decide)
    have whole := (first.append (fed_all vars (blanks_indent blanks))).opened
      (open_closing blanks name)
    have shape : bytes (constructorName isSequence ++ " \x7b") ++ [newline] =
        bytes (constructorName isSequence) ++ bytes " \x7b\n" := by
      cases isSequence <;> decide
    rw [List.append_assoc space, shape] at whole
    simpa [printDecl] using whole
  | grid name sendP arrayVar mapVars =>
    have first : Fed (space ++ bytes "Grid \x7b" ++ [newline]) :=
      fed_blank blanks (by decide) (by decide) (by decide) (by decide)
    have arrayLine : Fed (space ++ bytes "  Array:" ++ [newline]) :=
      fed_blank blanks (by decide) (by decide) (by decide) (by decide)
    have mapsLine : Fed (space ++ bytes "  Maps:" ++ [newline]) :=
      fed_blank blanks (by decide) (by decide) (by decide) (by decide)
    have array := (open_decl arrayVar (blanks_indent blanks)).fed
    have whole := ((((first.append arrayLine).append array).append mapsLine).append
      (fed_all mapVars (blanks_indent blanks))).opened (open_closing blanks name)
    have grids : bytes "Grid \x7b\n" = bytes "Grid \x7b" ++ [newline] := by decide
    have arrays : bytes "  Array:\n" = bytes "  Array:" ++ [newline] := by decide
    have mapses : bytes "  Maps:\n" = bytes "  Maps:" ++ [newline] := by decide
    simpa [printDecl, printDecl_semi, semicolon, grids, arrays, mapses] using whole

theorem fed_all (vars : List Var) {space : Text} (blanks : ∀ c ∈ space, c = 32) :
    Fed (printAll false space vars) := by
  cases vars with
  | nil => exact fed_nil
  | cons v vars =>
    have whole := (open_decl v blanks).fed.append (fed_all vars blanks)
    simpa [printAll, printDecl_semi, semicolon] using whole
end

theorem fed_print (dds : DDS) : Fed (dds.print false) := by
  have first : Fed ([] ++ bytes "Dataset \x7b" ++ [newline]) :=
    fed_blank (fun _ mem => absurd mem List.not_mem_nil) (by decide) (by decide) (by decide)
      (by decide)
  have brace : Inside (bytes "\x7d ") := inside_bytes (by decide)
  have last := (open_inside (brace.append (inside_words (id2www_chars dds.name)))).fed
  have indent : ∀ c ∈ bytes "    ", c = 32 := blanks_of (by decide)
  have whole := (first.append (fed_all dds.vars indent)).append last
  have opens : bytes "Dataset \x7b\n" = bytes "Dataset \x7b" ++ [newline] := by decide
  simpa [DDS.print, opens] using whole

/-! ## The actions -/

theorem newDimension_reset (d : Dimension) : newDimension d.size d.name = resetDimension d := rfl

theorem appendDim_shape (a : Dims) (size : Int) (name : String) :
    a.appendDim size name =
      { shape := a.shape ++ [newDimension size name]
        length := constrainedLength (a.shape ++ [newDimension size name]) } := rfl

/-- Dimensions that are appended to a new Array are those of the constraint that selects all. -/
theorem foldl_appendDim {dims : Dims} (some' : dims.shape ≠ []) :
    dims.shape.foldl (fun a d => a.appendDim d.size d.name) fresh = dims.resetConstraint := by
  have each : ∀ (shape : List Dimension) (a : Dims), shape ≠ [] →
      shape.foldl (fun a d => a.appendDim d.size d.name) a =
        ⟨a.shape ++ shape.map resetDimension,
          constrainedLength (a.shape ++ shape.map resetDimension)⟩ := by
    intro shape
    induction shape with
    | nil => exact fun _ none => absurd rfl none
    | cons d shape ih =>
      intro a _
      rw [List.foldl_cons, appendDim_shape, newDimension_reset]
      by_cases last : shape = []
      · subst last
        rfl
      · rw [ih _ last]
        simp only [List.append_assoc, List.singleton_append, List.map_cons]
  rw [ArrayConstraint.resetConstraint_eq some', each dims.shape fresh some']
  rfl

variable {garbage : UInt8}

theorem arrayDecl_array {d : Dimension} (reads : DimensionReads d) (name : Text) (sendP : Bool)
    (var : Var) (dims : Dims) :
    arrayDecl garbage (.array name sendP var dims) (dimensionOf d) =
      some (.array name sendP var (dims.appendDim d.size d.name)) := by
  have size := SizeWords.checkInt32_printInt reads.low reads.high
  have value := SizeWords.atoi_printInt reads.low reads.high
  have named : shown (www2id garbage
      ((if d.name = "" then none else some (id2www (bytes d.name))).getD [])) = d.name := by
    by_cases unnamed : d.name = ""
    · rw [if_pos unnamed, unnamed]
      rfl
    · obtain ⟨nonzero, _, _, _, same⟩ := reads.name unnamed
      rw [if_neg unnamed, Option.getD_some, www2id_id2www nonzero, same]
  simp only [dimensionOf, arrayDecl, sizeWord, size, if_true, value, Var.isArray, appendDim, named]

theorem foldlM_arrayDecl {shape : List Dimension} (reads : ∀ d ∈ shape, DimensionReads d)
    (name : Text) (sendP : Bool) (var : Var) (dims : Dims) :
    (shape.map dimensionOf).foldlM (arrayDecl garbage) (.array name sendP var dims) =
      some (.array name sendP var (shape.foldl (fun a d => a.appendDim d.size d.name) dims)) := by
  induction shape generalizing dims with
  | nil => rfl
  | cons d shape ih =>
    rw [List.map_cons, List.foldlM_cons, arrayDecl_array (reads d List.mem_cons_self)]
    exact ih (fun e mem => reads e (List.mem_cons_of_mem d mem)) _

theorem resetAll_eq (vars : List Var) : resetAll vars = vars.map reset := by
  induction vars with
  | nil => rfl
  | cons v vars ih => rw [resetAll, ih, List.map_cons]

theorem reset_name (v : Var) : (reset v).name = v.name := by
  cases v <;> rfl

theorem resetAll_names (vars : List Var) : (resetAll vars).map Var.name = vars.map Var.name := by
  rw [resetAll_eq, List.map_map]
  exact List.map_congr_left fun v _ => reset_name v

theorem reset_isArray (v : Var) : (reset v).isArray = v.isArray := by
  cases v <;> rfl

theorem reset_isSimpleArray (v : Var) : (reset v).isSimpleArray = v.isSimpleArray := by
  cases v with
  | array name sendP var dims => cases var <;> rfl
  | _ => rfl

theorem resetConstraint_shape (a : Dims) :
    a.resetConstraint.shape = a.shape.map resetDimension := by
  by_cases none : a.shape = []
  · rw [Dims.resetConstraint, none]
    exact none
  · rw [ArrayConstraint.resetConstraint_eq none]
    rfl

theorem reset_shape (v : Var) : (reset v).dims.shape = v.dims.shape.map resetDimension := by
  cases v with
  | array name sendP var dims => exact resetConstraint_shape dims
  | _ => rfl

theorem mapsFit_reset (arrayName : Text) (shape : List Dimension) (maps : List Var) :
    mapsFit arrayName (shape.map resetDimension) (maps.map reset) =
      mapsFit arrayName shape maps := by
  induction shape generalizing maps with
  | nil => rfl
  | cons d shape ih =>
    cases maps with
    | nil => rfl
    | cons map maps =>
      have sizes : (map.dims.shape.map resetDimension).map Dimension.size =
          map.dims.shape.map Dimension.size := by
        rw [List.map_map]
        rfl
      rw [List.map_cons, List.map_cons, mapsFit, mapsFit, ih, reset_name, reset_isSimpleArray,
        reset_shape, sizes]
      rfl

theorem checkSemantics_reset (v : Var) :
    checkSemantics false (reset v) = checkSemantics false v := by
  cases v with
  | simple type name sendP => rfl
  | array name sendP var dims =>
    rw [reset, checkSemantics, checkSemantics, resetConstraint_shape]
    simp
  | constructor isSequence name sendP vars =>
    rw [reset, checkSemantics, checkSemantics, resetAll_names]
    rfl
  | grid name sendP arrayVar mapVars =>
    rw [reset, checkSemantics, checkSemantics, resetAll_eq, reset_isSimpleArray, reset_name,
      reset_shape, mapsFit_reset, List.length_map, List.length_map]
    rfl

/-- A variable as its declaration has it before it is given a name. -/
def unnamed : Var → Var
  | .simple type _ _ => .simple type [] false
  | .array _ _ var dims => .array [] false (reset var) dims.resetConstraint
  | .constructor isSequence _ _ vars => .constructor isSequence [] false (resetAll vars)
  | .grid _ _ arrayVar mapVars => .grid [] false (reset arrayVar) (resetAll mapVars)

theorem setName_unnamed {v : Var} (plain : v.isArray = false) {n : Text}
    (decoded : www2id garbage n = v.name) : setName garbage n (unnamed v) = reset v := by
  cases v with
  | array name sendP var dims => cases plain
  | _ =>
    rw [unnamed, setName, decoded]
    rfl

/-- `add_entry` does not look at the current variable. -/
theorem addEntry_current (v : Var) (st : State) (current : Option Var) :
    addEntry v { st with current } = addEntry v st := rfl

theorem addEntry_part {v : Var} {st after : State} (added : addEntry v st = some after) :
    after.part = st.part := by
  unfold addEntry at added
  split at added
  · cases added
    rfl
  · simp only [bind, Option.bind] at added
    split at added <;> cases added
    rfl

/-- In a Grid only its arrays are declared. -/
def Placed (part : Part) (v : Var) : Prop := part = .nil ∨ v.isSimpleArray ∨ v.isSimpleType

/-- What is declared before the name is that variable without its name. -/
def Begun (garbage : UInt8) (v : Var) : Prop :=
  ∀ (st : State) (dims : List (Option Text × Text)), Placed st.part v →
    declaration garbage st (Declaration.append dims (declarationOf v)) =
      finish garbage ⟨id2www v.name, dims⟩ { st with current := some (unnamed v) }

/-- The declaration adds the variable. -/
def Built (garbage : UInt8) (v : Var) : Prop :=
  ∀ st : State, Placed st.part v → declaration garbage st (declarationOf v) = addEntry (reset v) st

theorem append_none (declaration : Declaration) :
    Declaration.append [] declaration = declaration := by
  cases declaration <;> simp [Declaration.append, Declarator.append]

theorem built_of_begun {v : Var} (readable : Readable v) (plain : v.isArray = false)
    (begun : Begun garbage v) : Built garbage v := by
  intro st placed
  have decoded := www2id_id2www (readable.named plain).nonzero garbage
  have valid : checkSemantics false (reset v) = true := by
    rw [checkSemantics_reset]
    exact readable.valid
  have run := begun st [] placed
  rw [append_none] at run
  rw [run, finish]
  simp only [bind, Option.bind, declare, List.foldlM_nil, pure, setName_unnamed plain decoded,
    valid, if_true, addEntry_current]

theorem newArray_unnamed {v : Var} (plain : v.isArray = false) (some' : v.name ≠ [])
    (kept : www2id garbage v.name = v.name) :
    newArray garbage (reset v) = .array v.name false (reset v) fresh := by
  have again : setName garbage v.name (reset v) = reset v := by
    cases v with
    | array name sendP var dims => cases plain
    | _ =>
      rw [Var.name] at kept
      rw [reset, setName, Var.name, kept]
  rw [newArray, reset_name, if_pos some', setName, again, kept]

/-- The first dimension makes an Array of what was declared. -/
theorem arrayDecl_new {v : Var} (plain : v.isArray = false) (some' : v.name ≠ [])
    (kept : www2id garbage v.name = v.name) (dim : Option Text × Text) :
    arrayDecl garbage (reset v) dim =
      arrayDecl garbage (.array v.name false (reset v) fresh) dim := by
  have noArray : (reset v).isArray = false := by rw [reset_isArray, plain]
  rw [arrayDecl, arrayDecl, noArray, newArray_unnamed plain some' kept]
  rfl

theorem built_array {name : Text} {sendP : Bool} {var : Var} {dims : Dims}
    (readable : Readable (.array name sendP var dims)) (begun : Begun garbage var) :
    Built garbage (.array name sendP var dims) := by
  intro st placed
  have some' := readable.name_nonempty
  have valid : checkSemantics false (reset (.array name sendP var dims)) = true := by
    rw [checkSemantics_reset]
    exact readable.valid
  rw [Readable] at readable
  obtain ⟨unescaped, rfl, plain, template, dimensions, reads⟩ := readable
  have decoded := www2id_id2www (template.named plain).nonzero garbage
  have kept := www2id_plain garbage unescaped
  have inner : Placed st.part var := by
    refine placed.imp_right fun simple => .inr ?_
    simpa [Var.isSimpleArray, Var.isSimpleType] using simple
  have array : (dims.shape.map dimensionOf).foldlM (arrayDecl garbage) (reset var) =
      some (reset (.array var.name sendP var dims)) := by
    have whole :=
      @foldlM_arrayDecl garbage _ reads var.name false (reset var) fresh
    rw [foldl_appendDim dimensions] at whole
    obtain ⟨d, shape, shapes⟩ := List.exists_cons_of_ne_nil dimensions
    rw [shapes, List.map_cons, List.foldlM_cons] at whole ⊢
    rw [arrayDecl_new plain template.name_nonempty kept, whole]
    rfl
  rw [declarationOf, begun st _ inner, finish]
  simp only [bind, Option.bind, declare, setName_unnamed plain decoded, array, valid, if_true,
    addEntry_current]

theorem members_constructor (isSequence : Bool) (vs done : List Var) (st : State)
    (ctor : List Frame) (current : Option Var) :
    (vs.foldlM (fun st v => addEntry v st)
        { st with ctor := .constructor isSequence done :: ctor, current }).bind popCtor =
      some { st with ctor, current := some (.constructor isSequence [] false (done ++ vs)) } := by
  induction vs generalizing done current with
  | nil => rw [List.append_nil]; rfl
  | cons v vs ih =>
    rw [List.foldlM_cons]
    have whole := ih (done ++ [v]) none
    rw [List.append_assoc, List.singleton_append] at whole
    exact whole

theorem members_maps (arrayVar : Var) (vs done : List Var) (st : State) (ctor : List Frame)
    (current : Option Var) :
    (vs.foldlM (fun st v => addEntry v st)
        { st with
          ctor := .grid (some arrayVar) done :: ctor
          current
          part := .maps }).bind popCtor =
      some { st with
        ctor
        current := some (.grid [] false arrayVar (done ++ vs))
        part := .maps } := by
  induction vs generalizing done current with
  | nil => rw [List.append_nil]; rfl
  | cons v vs ih =>
    rw [List.foldlM_cons]
    have whole := ih (done ++ [v]) none
    rw [List.append_assoc, List.singleton_append] at whole
    exact whole

theorem mapsFit_simple {arrayName : Text} {shape : List Dimension} {maps : List Var}
    (fit : mapsFit arrayName shape maps = true) (same : maps.length = shape.length) :
    ∀ v ∈ maps, v.isSimpleArray := by
  induction shape generalizing maps with
  | nil =>
    intro v mem
    rw [List.length_eq_zero_iff.mp same] at mem
    cases mem
  | cons d shape ih =>
    cases maps with
    | nil => cases same
    | cons map maps =>
      rw [mapsFit] at fit
      simp only [Bool.and_eq_true] at fit
      intro v mem
      rw [List.mem_cons] at mem
      rcases mem with rfl | mem
      · exact fit.1.1.2
      · exact ih fit.2 (Nat.succ.inj same) v mem

theorem grid_parts {name : Text} {sendP : Bool} {arrayVar : Var} {mapVars : List Var}
    (valid : checkSemantics false (.grid name sendP arrayVar mapVars) = true) :
    arrayVar.isSimpleArray ∧ mapVars.length = arrayVar.dims.shape.length ∧
      mapsFit arrayVar.name arrayVar.dims.shape mapVars = true := by
  simp only [checkSemantics, Bool.and_eq_true, decide_eq_true_eq] at valid
  exact ⟨valid.1.1.1.2, valid.1.1.2, valid.1.2⟩

theorem isArray_of_simple {v : Var} (simple : v.isSimpleArray) : v.isArray = true := by
  cases v with
  | array name sendP var dims => rfl
  | _ => cases simple

/-- Only a constructor, and an Array of them, needs a place outside the Grids. -/
theorem Placed.outside {part : Part} {v : Var} (placed : Placed part v)
    (noArray : v.isArray = false) (noSimple : v.isSimpleType = false) : part = .nil := by
  rcases placed with outside | array | simple
  · exact outside
  · rw [isArray_of_simple array] at noArray
    cases noArray
  · rw [noSimple] at simple
    cases simple

mutual
theorem begun_built (v : Var) (readable : Readable v) :
    (v.isArray = false → Begun garbage v) ∧ Built garbage v := by
  cases v with
  | simple type name sendP =>
    have begun : Begun garbage (.simple type name sendP) := fun _ _ _ => rfl
    exact ⟨fun _ => begun, built_of_begun readable rfl begun⟩
  | array name sendP var dims =>
    have parts := readable
    rw [Readable] at parts
    obtain ⟨_, _, plain, template, _⟩ := parts
    refine ⟨fun no => ?_, built_array readable ((begun_built var template).1 plain)⟩
    cases no
  | constructor isSequence name sendP vars =>
    have parts := readable
    rw [Readable] at parts
    have begun : Begun garbage (.constructor isSequence name sendP vars) := by
      intro st dims placed
      have outside := placed.outside rfl rfl
      have members := declarations_built vars parts.2.2
        { st with ctor := .constructor isSequence [] :: st.ctor } fun _ _ => .inl outside
      have popped := members_constructor isSequence (resetAll vars) [] st st.ctor st.current
      rw [← members] at popped
      rw [declarationOf, Declaration.append, declaration]
      simp only [bind, ← Option.bind_assoc, popped]
      rfl
    exact ⟨fun _ => begun, built_of_begun readable rfl begun⟩
  | grid name sendP arrayVar mapVars =>
    have parts := readable
    rw [Readable] at parts
    obtain ⟨_, valid, arrayReadable, mapsReadable⟩ := parts
    obtain ⟨simple, same, fit⟩ := grid_parts valid
    have begun : Begun garbage (.grid name sendP arrayVar mapVars) := by
      intro st dims placed
      have outside := placed.outside rfl rfl
      have array := (begun_built arrayVar arrayReadable).2
        { st with ctor := .grid none [] :: st.ctor, part := .array } (.inr (.inl simple))
      have isArray : (reset arrayVar).isArray = true := by
        rw [reset_isArray, isArray_of_simple simple]
      have added : addEntry (reset arrayVar)
          { st with ctor := .grid none [] :: st.ctor, part := .array } =
            some { st with
              ctor := .grid (some (reset arrayVar)) [] :: st.ctor
              current := none
              part := .array } := by
        simp only [addEntry, Frame.addVar, isArray, if_true, bind, Option.bind]
      have members := declarations_built mapVars mapsReadable
        { st with
          ctor := .grid (some (reset arrayVar)) [] :: st.ctor
          current := none
          part := .maps } fun v mem => .inr (.inl (mapsFit_simple fit same v mem))
      have popped := members_maps (reset arrayVar) (resetAll mapVars) [] st st.ctor none
      rw [← members] at popped
      have arrayWord : isKeyword (bytes "Array") "array" = true := by decide
      have mapsWord : isKeyword (bytes "Maps") "maps" = true := by decide
      rw [declarationOf, Declaration.append, declaration]
      simp only [arrayWord, mapsWord, if_true, array, added, bind, Option.bind_some,
        ← Option.bind_assoc, popped]
      rw [← outside]
      rfl
    exact ⟨fun _ => begun, built_of_begun readable rfl begun⟩

theorem declarations_built (vars : List Var) (readable : AllReadable vars) (st : State)
    (placed : ∀ v ∈ vars, Placed st.part v) :
    declarations garbage st (declarationsOf vars) =
      (resetAll vars).foldlM (fun st v => addEntry v st) st := by
  cases vars with
  | nil => rfl
  | cons v vars =>
    rw [AllReadable] at readable
    have first := (begun_built v readable.1).2 st (placed v List.mem_cons_self)
    rw [declarationsOf, resetAll, declarations, List.foldlM_cons, first]
    cases added : addEntry (reset v) st with
    | none => rfl
    | some after =>
      have kept : after.part = st.part := addEntry_part added
      exact declarations_built vars readable.2 after fun w mem =>
        kept ▸ placed w (List.mem_cons_of_mem v mem)
end

theorem members_dataset (vs vars : List Var) (current : Option Var) :
    ∃ last, vs.foldlM (fun st v => addEntry v st)
        { vars, ctor := [], current, part := .nil : State } =
      some { vars := vars ++ vs, ctor := [], current := last, part := .nil } := by
  induction vs generalizing vars current with
  | nil => exact ⟨current, by rw [List.append_nil]; rfl⟩
  | cons v vs ih =>
    obtain ⟨last, run⟩ := ih (vars ++ [v]) none
    refine ⟨last, ?_⟩
    rw [List.append_assoc, List.singleton_append] at run
    rw [List.foldlM_cons]
    exact run

/-- A dataset as a parser makes it. -/
def resetDDS (dds : DDS) : DDS := { dds with vars := resetAll dds.vars }

/-- What is behind the text is left in the file. -/
theorem parse_fed {dds : DDS} (readable : AllReadable dds.vars) (named : Named dds.name)
    (plain : id2www dds.name = dds.name) {tail rest : Text} (ended : input tail = ([], rest)) :
    parse garbage (dds.print false ++ tail) = some (resetDDS dds, rest) := by
  have fed : input (dds.print false ++ tail) = (dds.print false, rest) := by
    rw [(fed_print dds).passes tail, ended, List.append_nil]
  have behind := (fed_print dds).leaves ended
  have read := readText_print readable named plain
  have built := @declarations_built garbage dds.vars readable
    { vars := [], ctor := [], current := none, part := .nil } fun _ _ => .inl rfl
  obtain ⟨last, run⟩ := members_dataset (resetAll dds.vars) [] none
  rw [run] at built
  simp only [parse, fed, behind, read, bind, Option.bind, datasets, built, List.nil_append]
  rfl

theorem printDimension_reset (d : Dimension) :
    printDimension false (resetDimension d) = printDimension false d := rfl

mutual
theorem printDecl_reset (v : Var) (space : Text) (printSemi : Bool) :
    printDecl false space printSemi (reset v) = printDecl false space printSemi v := by
  cases v with
  | simple type name sendP => rfl
  | array name sendP var dims =>
    have template := printDecl_reset var space false
    simp [reset, printDecl, template, resetConstraint_shape, List.flatMap_map,
      printDimension_reset]
  | constructor isSequence name sendP vars =>
    have members := printAll_reset vars (space ++ bytes "    ")
    simp [reset, printDecl, members]
  | grid name sendP arrayVar mapVars =>
    have array := printDecl_reset arrayVar (space ++ bytes "    ") true
    have maps := printAll_reset mapVars (space ++ bytes "    ")
    simp [reset, printDecl, array, maps]

theorem printAll_reset (vars : List Var) (space : Text) :
    printAll false space (resetAll vars) = printAll false space vars := by
  cases vars with
  | nil => rfl
  | cons v vars => rw [resetAll, printAll, printAll, printDecl_reset v, printAll_reset vars]
end

/-- The text of a dataset, and the text in front of its data, give the dataset, whose text is
the same. -/
theorem parse_print (garbage : UInt8) (dds : DDS) (data : Text) (readable : AllReadable dds.vars)
    (named : Named dds.name) (plain : id2www dds.name = dds.name) :
    parse garbage (dds.print false) = some (resetDDS dds, []) ∧
      parse garbage (dds.print false ++ (bytes "Data:\n" ++ data)) = some (resetDDS dds, data) ∧
      (resetDDS dds).print false = dds.print false := by
  have whole := @parse_fed garbage dds readable named plain [] [] input_nil
  rw [List.append_nil] at whole
  refine ⟨whole, parse_fed readable named plain (input_end data), ?_⟩
  rw [DDS.print, DDS.print, resetDDS, printAll_reset]

/-- A dimension of which the first two of three elements are selected. -/
def latitude : Dimension :=
  { size := 3, name := "lat", start := 0, stop := 1, stride := 1, cSize := 2 }

def oneMap (sendP : Bool) : Var :=
  .array (bytes "lat") sendP (.simple .float64 (bytes "lat") sendP)
    { shape := [latitude], length := 2 }

/-- A Grid of which only the array is sent. -/
def heights : DDS where
  name := bytes "heights.nc"
  vars :=
    [.simple .str (bytes "title") false,
      .grid (bytes "a b") true
        (.array (bytes "h") true (.simple .int16 (bytes "h") true)
          { shape := [latitude], length := 2 }) [oneMap false]]

theorem latitude_reads : DimensionReads latitude :=
  ⟨by decide, by decide, fun _ => by decide⟩

theorem heights_readable : AllReadable heights.vars := by
  have h : Named (bytes "h") := named_of (by decide)
  have lat : Named (bytes "lat") := named_of (by decide)
  have title : Named (bytes "title") := named_of (by decide)
  have grid : Named (bytes "a b") := named_of (by decide)
  have dims : ∀ d ∈ [latitude], DimensionReads d := fun d mem =>
    List.mem_singleton.mp mem ▸ latitude_reads
  have array : Readable (.array (bytes "h") true (.simple .int16 (bytes "h") true)
      { shape := [latitude], length := 2 }) :=
    ⟨by decide, rfl, rfl, h, List.cons_ne_nil _ _, dims⟩
  have map : Readable (oneMap false) := ⟨by decide, rfl, rfl, lat, List.cons_ne_nil _ _, dims⟩
  exact ⟨title, ⟨grid, by decide, array, map, trivial⟩, trivial⟩

theorem parse_print_heights :
    parse 0 (heights.print false) = some (resetDDS heights, []) ∧
      parse 0 (heights.print false ++ (bytes "Data:\n" ++ [0, 0, 0, 2])) =
        some (resetDDS heights, [0, 0, 0, 2]) ∧
      (resetDDS heights).print false = heights.print false :=
  parse_print 0 heights [0, 0, 0, 2] heights_readable (named_of (by decide)) (by decide)

end Libdap.Guarantees.DDSRoundTrip
