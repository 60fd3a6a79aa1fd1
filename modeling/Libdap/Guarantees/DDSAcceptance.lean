import Libdap.Guarantees.DDSRoundTrip

/-!
# What the DDS parser accepts

Whatever a text is, the dataset that is read from it is valid in all its parts, and none of its
variables is sent or constrained.
-/
namespace Libdap.Guarantees.DDSAcceptance
open Libdap.Source Libdap.Source.Array Libdap.Source.Escaping
open Libdap.Source.Declarations Libdap.Source.DDSText Libdap.Source.DDSParser
open Libdap.Guarantees.ArrayConstraint Libdap.Guarantees.DDSText Libdap.Guarantees.DDSRoundTrip

/-- The dimensions of an Array to which `append_dim` alone was applied. -/
structure Unconstrained (a : Dims) : Prop where
  some : a.shape ≠ []
  reset : ∀ d ∈ a.shape, resetDimension d = d
  length : a.length = constrainedLength a.shape

mutual
/-- A variable that is not sent, and whose members have been tested. -/
def Made : Var → Prop
  | .simple _ _ sendP => sendP = false
  | .array _ sendP var dims => sendP = false ∧ Made var ∧ Unconstrained dims
  | .constructor _ _ sendP vars => sendP = false ∧ AllMade vars
  | .grid _ sendP arrayVar mapVars =>
    sendP = false ∧ (checkSemantics false arrayVar = true ∧ Made arrayVar) ∧ AllMade mapVars

def AllMade : List Var → Prop
  | [] => True
  | v :: vars => (checkSemantics false v = true ∧ Made v) ∧ AllMade vars
end

theorem allMade_append {vars : List Var} {v : Var} (made : AllMade vars)
    (valid : checkSemantics false v = true) (one : Made v) : AllMade (vars ++ [v]) := by
  induction vars with
  | nil => exact ⟨⟨valid, one⟩, trivial⟩
  | cons w vars ih => exact ⟨made.1, ih made.2⟩

/-! ## Tested part by part is tested as a whole -/

theorem unconstrained_reset {a : Dims} (unconstrained : Unconstrained a) :
    a.resetConstraint = a := by
  have same : a.shape.map resetDimension = a.shape :=
    (List.map_congr_left unconstrained.reset).trans (List.map_id _)
  rw [resetConstraint_eq unconstrained.some, same, Dims.updateLength, Dims.setLength,
    ← unconstrained.length]

mutual
theorem made_reset (v : Var) (made : Made v) : reset v = v := by
  cases v with
  | simple type name sendP =>
    rw [Made] at made
    rw [reset, made]
  | array name sendP var dims =>
    rw [Made] at made
    rw [reset, made_reset var made.2.1, unconstrained_reset made.2.2, made.1]
  | constructor isSequence name sendP vars =>
    rw [Made] at made
    rw [reset, allMade_reset vars made.2, made.1]
  | grid name sendP arrayVar mapVars =>
    rw [Made] at made
    rw [reset, made_reset arrayVar made.2.1.2, allMade_reset mapVars made.2.2, made.1]

theorem allMade_reset (vars : List Var) (made : AllMade vars) : resetAll vars = vars := by
  cases vars with
  | nil => rfl
  | cons v vars =>
    rw [AllMade] at made
    rw [resetAll, made_reset v made.1.2, allMade_reset vars made.2]
end

mutual
theorem made_valid (v : Var) (valid : checkSemantics false v = true) (made : Made v) :
    checkSemantics true v = true := by
  cases v with
  | simple type name sendP => exact valid
  | array name sendP var dims => exact valid
  | constructor isSequence name sendP vars =>
    rw [Made] at made
    have members := allMade_valid vars made.2
    simp only [checkSemantics, Bool.not_false, Bool.true_or, Bool.and_true, Bool.not_true,
      Bool.false_or, members] at valid ⊢
    exact valid
  | grid name sendP arrayVar mapVars =>
    rw [Made] at made
    have array := made_valid arrayVar made.2.1.1 made.2.1.2
    have members := allMade_valid mapVars made.2.2
    simp only [checkSemantics, Bool.not_false, Bool.true_or, Bool.and_true, Bool.not_true,
      Bool.false_or, array, members] at valid ⊢
    exact valid

theorem allMade_valid (vars : List Var) (made : AllMade vars) : checkAll vars = true := by
  cases vars with
  | nil => rfl
  | cons v vars =>
    rw [AllMade] at made
    rw [checkAll, made_valid v made.1.1 made.1.2, allMade_valid vars made.2]
    rfl
end

/-! ## The actions -/

section
variable {garbage : UInt8}

theorem setName_made (n : Text) (v : Var) (made : Made v) : Made (setName garbage n v) := by
  cases v with
  | simple type name sendP => exact made
  | array name sendP var dims =>
    rw [Made] at made
    exact ⟨made.1, setName_made n var made.2.1, made.2.2⟩
  | constructor isSequence name sendP vars => exact made
  | grid name sendP arrayVar mapVars => exact made

/-- A new Array has no dimensions yet. -/
theorem newArray_made {v : Var} (made : Made v) :
    ∃ name var, newArray garbage v = .array name false var fresh ∧ Made var := by
  rw [newArray]
  split_ifs
  · exact ⟨_, _, rfl, setName_made v.name v made⟩
  · exact ⟨_, _, rfl, setName_made [] v made⟩

theorem appendDim_unconstrained {a : Dims} (reset : ∀ d ∈ a.shape, resetDimension d = d)
    (size : Int) (name : String) : Unconstrained (a.appendDim size name) := by
  refine ⟨List.append_ne_nil_of_right_ne_nil _ (List.cons_ne_nil _ _), fun d mem => ?_, rfl⟩
  obtain old | new := List.mem_append.mp mem
  · exact reset d old
  · rw [List.mem_singleton.mp new]
    rfl

theorem arrayDecl_made {v w : Var} {dim : Option Text × Text} (made : Made v)
    (declared : arrayDecl garbage v dim = some w) : Made w := by
  obtain ⟨id, size⟩ := dim
  rw [arrayDecl] at declared
  split_ifs at declared with number isArray
  · cases declared
    cases v with
    | array name sendP var dims =>
      rw [Made] at made
      exact ⟨made.1, made.2.1, appendDim_unconstrained made.2.2.reset _ _⟩
    | simple type name sendP => cases isArray
    | constructor isSequence name sendP vars => cases isArray
    | grid name sendP arrayVar mapVars => cases isArray
  · cases declared
    obtain ⟨name, var, new, template⟩ := @newArray_made garbage v made
    rw [new]
    exact ⟨rfl, template, appendDim_unconstrained (List.forall_mem_nil _) _ _⟩

theorem dims_made {v w : Var} {dims : List (Option Text × Text)} (made : Made v)
    (declared : dims.foldlM (arrayDecl garbage) v = some w) : Made w := by
  induction dims generalizing v with
  | nil =>
    cases declared
    exact made
  | cons dim dims ih =>
    rw [List.foldlM_cons] at declared
    obtain ⟨next, first, rest⟩ := Option.bind_eq_some_iff.mp declared
    exact ih (arrayDecl_made made first) rest

/-- What stands on the stack of constructors. -/
def FrameMade : Frame → Prop
  | .constructor _ vars => AllMade vars
  | .grid arrayVar mapVars =>
    (∀ v, arrayVar = some v → checkSemantics false v = true ∧ Made v) ∧ AllMade mapVars

structure StateMade (st : State) : Prop where
  vars : AllMade st.vars
  ctor : ∀ frame ∈ st.ctor, FrameMade frame
  current : ∀ v, st.current = some v → Made v

theorem mapAdded_made {arrayVar : Option Var} {mapVars : List Var} {v : Var}
    (made : FrameMade (.grid arrayVar mapVars)) (valid : checkSemantics false v = true)
    (one : Made v) : FrameMade (.grid arrayVar (mapVars ++ [v])) :=
  ⟨made.1, allMade_append made.2 valid one⟩

theorem arrayAdded_made {arrayVar : Option Var} {mapVars : List Var} {v : Var}
    (made : FrameMade (.grid arrayVar mapVars)) (valid : checkSemantics false v = true)
    (one : Made v) : FrameMade (.grid (some v) mapVars) := by
  refine ⟨fun w same => ?_, made.2⟩
  cases same
  exact ⟨valid, one⟩

theorem addVar_made {part : Grid.Part} {v : Var} {frame frame' : Frame} (made : FrameMade frame)
    (valid : checkSemantics false v = true) (one : Made v)
    (added : frame.addVar part v = some frame') : FrameMade frame' := by
  cases frame with
  | constructor isSequence vars =>
    cases added
    exact allMade_append made valid one
  | grid arrayVar mapVars =>
    cases part with
    | maps =>
      cases arrayVar <;> (cases added; exact mapAdded_made made valid one)
    | array =>
      cases arrayVar with
      | some w => cases added
      | none =>
        rw [Frame.addVar] at added
        split_ifs at added
        cases added
        exact arrayAdded_made made valid one
    | nil =>
      cases arrayVar with
      | some w =>
        cases added
        exact mapAdded_made made valid one
      | none =>
        rw [Frame.addVar] at added
        split_ifs at added
        cases added
        exact arrayAdded_made made valid one

theorem none_made : ∀ v, (none : Option Var) = some v → Made v := fun _ same => by cases same

theorem none_valid :
    ∀ v, (none : Option Var) = some v → checkSemantics false v = true ∧ Made v :=
  fun _ same => by cases same

theorem addEntry_made {v : Var} {st st' : State} (made : StateMade st)
    (valid : checkSemantics false v = true) (one : Made v) (added : addEntry v st = some st') :
    StateMade st' := by
  rw [addEntry] at added
  cases stack : st.ctor with
  | nil =>
    rw [stack] at added
    cases added
    exact ⟨allMade_append made.vars valid one, List.forall_mem_nil _, none_made⟩
  | cons frame ctor =>
    rw [stack] at added
    obtain ⟨next, first, rest⟩ := Option.bind_eq_some_iff.mp added
    cases rest
    have below := made.ctor
    rw [stack] at below
    refine ⟨made.vars, fun f mem => ?_, none_made⟩
    obtain rfl | behind := List.mem_cons.mp mem
    · exact addVar_made (below frame List.mem_cons_self) valid one first
    · exact below f (List.mem_cons_of_mem _ behind)

theorem popCtor_made {st st' : State} (made : StateMade st) (popped : popCtor st = some st') :
    StateMade st' := by
  rw [popCtor] at popped
  cases stack : st.ctor with
  | nil =>
    rw [stack] at popped
    cases popped
  | cons frame ctor =>
    rw [stack] at popped
    obtain ⟨v, top, rest⟩ := Option.bind_eq_some_iff.mp popped
    cases rest
    have below := made.ctor
    rw [stack] at below
    refine ⟨made.vars, fun f mem => below f (List.mem_cons_of_mem _ mem), fun w same => ?_⟩
    cases same
    have parts := below frame List.mem_cons_self
    cases frame with
    | constructor isSequence vars =>
      cases top
      exact ⟨rfl, parts⟩
    | grid arrayVar mapVars =>
      cases arrayVar with
      | none => cases top
      | some a =>
        cases top
        exact ⟨rfl, parts.1 a rfl, parts.2⟩

theorem finish_made {var : Declarator} {st st' : State} (made : StateMade st)
    (finished : finish garbage var st = some st') : StateMade st' := by
  rw [finish] at finished
  obtain ⟨current, here, rest⟩ := Option.bind_eq_some_iff.mp finished
  obtain ⟨v, declared, rest⟩ := Option.bind_eq_some_iff.mp rest
  split_ifs at rest with valid
  have begun : Made (setName garbage var.name current) :=
    setName_made var.name current (made.current current here)
  have one : Made v := dims_made begun declared
  exact addEntry_made made valid one rest

theorem pushed_made {st : State} (made : StateMade st) {frame : Frame} (empty : FrameMade frame) :
    StateMade { st with ctor := frame :: st.ctor } := by
  refine ⟨made.vars, fun f mem => ?_, made.current⟩
  obtain rfl | behind := List.mem_cons.mp mem
  · exact empty
  · exact made.ctor f behind

theorem part_made {st : State} (made : StateMade st) (part : Grid.Part) :
    StateMade { st with part } := ⟨made.vars, made.ctor, made.current⟩

mutual
theorem declaration_made (decl : Declaration) {st st' : State} (made : StateMade st)
    (run : declaration garbage st decl = some st') : StateMade st' := by
  cases decl with
  | base type var =>
    rw [declaration] at run
    have begun : StateMade { st with current := some (.simple type [] false) } := by
      refine ⟨made.vars, made.ctor, fun v same => ?_⟩
      cases same
      rfl
    exact finish_made begun run
  | constructor isSequence decls var =>
    rw [declaration] at run
    obtain ⟨inside, members, rest⟩ := Option.bind_eq_some_iff.mp run
    obtain ⟨popped, pop, rest⟩ := Option.bind_eq_some_iff.mp rest
    have opened : StateMade { st with ctor := .constructor isSequence [] :: st.ctor } :=
      pushed_made made trivial
    exact finish_made (popCtor_made (declarations_made decls opened members) pop) rest
  | grid arrayWord array mapsWord maps var =>
    rw [declaration] at run
    split_ifs at run
    · obtain ⟨afterArray, first, rest⟩ := Option.bind_eq_some_iff.mp run
      obtain ⟨inside, members, rest⟩ := Option.bind_eq_some_iff.mp rest
      obtain ⟨popped, pop, rest⟩ := Option.bind_eq_some_iff.mp rest
      have opened : StateMade { st with ctor := .grid none [] :: st.ctor } :=
        pushed_made made ⟨none_valid, trivial⟩
      have array' := declaration_made array (part_made opened .array) first
      have maps' := declarations_made maps (part_made array' .maps) members
      exact finish_made (part_made (popCtor_made maps' pop) .nil) rest
    · obtain ⟨_, _, nothing⟩ := Option.bind_eq_some_iff.mp run
      cases nothing

theorem declarations_made (decls : List Declaration) {st st' : State} (made : StateMade st)
    (run : declarations garbage st decls = some st') : StateMade st' := by
  cases decls with
  | nil =>
    cases run
    exact made
  | cons decl decls =>
    rw [declarations] at run
    obtain ⟨next, first, rest⟩ := Option.bind_eq_some_iff.mp run
    exact declarations_made decls (declaration_made decl made first) rest
end

theorem datasets_made {tree : List (List Declaration × Text)} {dds dds' : DDS}
    (made : AllMade dds.vars) (run : datasets garbage dds tree = some dds') :
    AllMade dds'.vars := by
  induction tree generalizing dds with
  | nil =>
    cases run
    exact made
  | cons first more ih =>
    obtain ⟨decls, name⟩ := first
    rw [datasets] at run
    obtain ⟨st, members, rest⟩ := Option.bind_eq_some_iff.mp run
    have start : StateMade { vars := dds.vars, ctor := [], current := none, part := .nil } :=
      ⟨made, List.forall_mem_nil _, none_made⟩
    exact ih (declarations_made decls start members).vars rest

end

/-- What is behind a line is the end of a file. -/
theorem behind_line {stream rest : Text} {c : UInt8}
    (found : stream.dropWhile (· ≠ newline) = c :: rest) : rest <:+ stream := by
  have behind := List.dropWhile_suffix (l := stream) (· ≠ newline)
  rw [found] at behind
  exact (List.suffix_cons c rest).trans behind

/-- What is left in a file is its end. -/
theorem input_suffix (stream : Text) : (input stream).2 <:+ stream := by
  fun_induction input stream with
  | case1 stream found => exact List.nil_suffix
  | case2 stream line c rest found ended => exact behind_line found
  | case3 stream line c rest found more later ih => exact ih.trans (behind_line found)

theorem behind_suffix (stream : Text) (asked : Nat) : behind stream asked <:+ stream := by
  fun_induction behind stream asked with
  | case1 stream asked found => exact List.nil_suffix
  | case2 stream asked c rest found line enough => exact behind_line found
  | case3 stream asked c rest found line more ih => exact ih.trans (behind_line found)

theorem left_suffix (stream : Text) : left stream <:+ stream := by
  unfold left
  dsimp only
  split
  · exact input_suffix stream
  · exact behind_suffix stream _

/-- What is accepted is valid in all its parts, neither sent nor constrained, and what the file
has left is its end. -/
theorem accepted (garbage : UInt8) (stream rest : Text) (dds : DDS)
    (parsed : parse garbage stream = some (dds, rest)) :
    AllMade dds.vars ∧ checkAll dds.vars = true ∧ resetDDS dds = dds ∧ rest <:+ stream := by
  rw [parse] at parsed
  obtain ⟨tree, read, run⟩ := Option.bind_eq_some_iff.mp parsed
  obtain ⟨built, actions, same⟩ := Option.bind_eq_some_iff.mp run
  cases same
  have none : AllMade (DDS.vars { name := [], vars := [] }) := trivial
  have made : AllMade dds.vars := datasets_made none actions
  refine ⟨made, allMade_valid dds.vars made, ?_, left_suffix stream⟩
  rw [resetDDS, allMade_reset dds.vars made]

theorem accepted_heights :
    AllMade (resetDDS heights).vars ∧ checkAll (resetDDS heights).vars = true ∧
      resetDDS (resetDDS heights) = resetDDS heights ∧ [] <:+ heights.print false := by
  have parsed := @parse_fed 0 heights heights_readable (named_of (by decide)) (by decide)
    [] [] input_nil
  rw [List.append_nil] at parsed
  exact accepted 0 (heights.print false) [] (resetDDS heights) parsed

end Libdap.Guarantees.DDSAcceptance
