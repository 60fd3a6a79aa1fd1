import Libdap.Source.Array
import Libdap.Source.Lookup

/-!
# ce_expr.yy: index lists, and Grid.cc: the shape of a Grid

What a constraint changes in a dataset is kept apart from the variables: their flags, the
dimensions of the Arrays and the rows of the Sequences, all by the path of the variable.
-/
namespace Libdap.Source.Hyperslab
open Libdap.Source.Array Libdap.Source.Escaping Libdap.Source.Lookup

/-- A list of three `int`s; `make_array_index` makes no other. -/
structure Index where
  start : Int
  stride : Int
  stop : Int
  deriving DecidableEq, Repr

structure Projection where
  sendP : Flags
  dims : Path → Dims
  /-- Start, stop and stride. -/
  rows : Path → Option (Int × Int × Int)

def Projection.setDims (s : Projection) (p : Path) (a : Dims) : Projection :=
  { s with dims := fun q => if q = p then a else s.dims q }

def shown (n : Text) : String := String.ofList (n.map fun c => Char.ofNat c.toNat)

def malformed (before : String) (name : Text) (after : String) : Failure :=
  .error .malformedExpr (before ++ shown name ++ after)

/-- The hyperslab of an Array that is already sent differs; a stop of -1 is not looked
at. -/
def projectedDifferently (d : Dimension) (index : Index) : Bool :=
  d.start ≠ index.start || (d.stop ≠ index.stop && index.stop ≠ -1) || d.stride ≠ index.stride

/-- The loop of `process_array_indices`, from dimension `i` on. -/
def constrainDims (name : Text) (sent : Bool) (a : Dims) (i : Nat) :
    List Index → Except Failure Dims
  | [] => .ok a
  | index :: indices =>
    match a.shape[i]? with
    | none => .error (malformed "Too many indices in constraint for " name ".")
    | some d =>
      if sent && projectedDifferently d index then
        .error (malformed
          "The Array was already projected differently in the constraint expression: " name ".")
      else do
        let a ← a.addConstraint i index.start index.stride index.stop
        constrainDims name sent a (i + 1) indices

def processArrayIndices (name : Text) (p : Path) (indices : List Index) (s : Projection) :
    Except Failure Projection :=
  if (s.dims p).shape.length ≠ indices.length then
    .error (malformed "Error: The number of dimensions in the constraint for " name
      " must match the number in the array.")
  else do
    let a ← constrainDims name (s.sendP p) (s.dims p) 0 indices
    pure (s.setDims p a)

/-- The maps from `i` on, with their indices. What is not an Array fails an assertion, and
so does the text of the last exception, which asks for the name at `map_end`. -/
def constrainMaps (p : Path) (i : Nat) : List BaseType → List Index → Projection →
    Except Failure Projection
  | _, [], s => .ok s
  | [], _ :: _, _ => .error .undefinedBehaviour
  | .vector name var :: maps, index :: indices, s => do
    let q := p ++ [i]
    let s := { s with sendP := setSendP true s.sendP q (.vector name var) }
    let a ← (s.dims q).resetConstraint.addConstraint 0 index.start index.stride index.stop
    constrainMaps p (i + 1) maps indices (s.setDims q a)
  | _ :: _, _ :: _, _ => .error .undefinedBehaviour

def processGridIndices (name : Text) (p : Path) (arrayVar : BaseType)
    (mapVars : List BaseType) (indices : List Index) (s : Projection) :
    Except Failure Projection :=
  match arrayVar with
  | .vector arrayName _ =>
    if (s.dims (p ++ [0])).shape.length ≠ indices.length then
      .error (malformed "Error: The number of dimensions in the constraint for " name
        " must match the number in the grid.")
    else do
      let s ← processArrayIndices arrayName (p ++ [0]) indices s
      constrainMaps p 1 mapVars indices
        { s with sendP := setAllSendP false s.sendP p 1 mapVars }
  | _ => .error (.internalErr "bad Cast")

def processSequenceIndices (p : Path) (indices : List Index) (s : Projection) :
    Except Failure Projection :=
  indices.foldlM (fun s index =>
    if index.stop < index.start then
      .error (.error .malformedExpr "Starting row number must precede the ending row number.")
    else .ok { s with
      rows := fun q => if q = p then some (index.start, index.stop, index.stride) else s.rows q })
    s

section
variable (garbage : UInt8) (vars : List BaseType)

/-- The Sequence that a part of the name before one of its dots denotes, the longest part
first. -/
def parentIsSequence (n : Text) : Option Path :=
  (List.range n.length).reverse.findSome? fun i =>
    if n[i]? = some dot then
      match (ddsVar garbage vars (n.take i)).1 with
      | some (p, .constructor true _ _) => some p
      | _ => none
    else none

def markAll (n : Text) (s : Projection) : Projection :=
  { s with sendP := (mark garbage vars s.sendP n true).2 }

/-- `bracket_projection`; `none` is the result false. -/
def bracketProjection (n : Text) (indices : List Index) (s : Projection) :
    Except Failure (Option Projection) :=
  match (ddsVar garbage vars n).1 with
  | none => .ok none
  | some (p, .vector name _) => do
    let s ← processArrayIndices name p indices s
    pure (some s)
  | some (p, .grid name arrayVar mapVars) => do
    let s ← processGridIndices name p arrayVar mapVars indices s
    pure (some (markAll garbage vars n s))
  | some (p, .constructor true _ _) => do
    let s ← processSequenceIndices p indices (markAll garbage vars n s)
    pure (some s)
  | some _ =>
    match parentIsSequence garbage vars n with
    | some p => do
      let s ← processSequenceIndices p indices s
      pure (some (markAll garbage vars n s))
    | none => .ok none

end

/-! ### Grid.cc -/

def isSimpleType : BaseType → Bool
  | .simple _ => true
  | _ => false

/-- One turn of the loop of `Grid::check_semantics`: map `mv` against dimension `d`. -/
def checkMap (name arrayName : Text) (d : Dimension) (mv : BaseType) (dims : Dims) :
    Except String Unit :=
  if arrayName = mv.name then
    .error ("Grid map variable `" ++ shown mv.name ++
      "' conflicts with the grid array name in grid `" ++ shown name ++ "'\n")
  else
    match mv with
    | .vector _ var =>
      if !isSimpleType var then
        .error ("The field variable `" ++ shown name ++
          "' must be an array of simple type elements (e.g., int32, String)\n")
      else
        match dims.shape with
        | [m] =>
          if m.size ≠ d.size then
            .error ("Grid map variable  `" ++ shown mv.name ++
              "'s' size does not match the size of array variable '" ++ shown arrayName ++
              "'s' cooresponding dimension\n")
          else .ok ()
        | _ =>
          .error ("Grid map variable  `" ++ shown mv.name ++ "' must be only one dimension\n")
    | _ => .error ("Grid map variable  `" ++ shown mv.name ++ "' is not an array\n")

def checkMaps (name arrayName : Text) (s : Projection) (p : Path) (i : Nat) :
    List BaseType → List Dimension → Except String Unit
  | mv :: maps, d :: shape => do
    checkMap name arrayName d mv (s.dims (p ++ [i]))
    checkMaps name arrayName s p (i + 1) maps shape
  | _, _ => .ok ()

/-- `Grid::check_semantics` of the Grid at `p`, for `all` false; what it puts in `msg` is the
error. -/
def checkSemantics (name : Text) (p : Path) (arrayVar : BaseType) (mapVars : List BaseType)
    (s : Projection) : Except String Unit :=
  if name = [] then .error "Every variable must have both a name and a type\n"
  else
    match arrayVar with
    | .vector arrayName var =>
      if !isSimpleType var then
        .error ("The field variable `" ++ shown name ++
          "' must be an array of simple type elements (e.g., int32, String)\n")
      else if mapVars.length ≠ (s.dims (p ++ [0])).shape.length then
        .error ("The number of map variables for grid `" ++ shown name ++
          "' does not match the number of dimensions of `" ++ shown arrayName ++ "'\n")
      else checkMaps name arrayName s p 1 mapVars (s.dims (p ++ [0])).shape
    | _ =>
      .error ("Grid `" ++ shown name ++ "'s' member `" ++ shown arrayVar.name ++
        "' must be an array\n")

/-- `components(true)`. -/
def components (s : Projection) (p : Path) (mapVars : List BaseType) : Nat :=
  ((List.range (mapVars.length + 1)).filter fun i => s.sendP (p ++ [i])).length

/-- `dimension_start` and the like: zero without dimensions. -/
def firstDimension (a : Dims) (part : Dimension → Int) : Int :=
  match a.shape with
  | [] => 0
  | d :: _ => part d

/-- The loop of `projection_yields_grid`. -/
def mapsMatch (s : Projection) (p : Path) (i : Nat) :
    List Dimension → List BaseType → Bool
  | d :: shape, _ :: maps =>
    d.cSize ≠ 0 && s.sendP (p ++ [i]) &&
      firstDimension (s.dims (p ++ [i])) Dimension.start = d.start &&
      firstDimension (s.dims (p ++ [i])) Dimension.stop = d.stop &&
      firstDimension (s.dims (p ++ [i])) Dimension.stride = d.stride &&
      mapsMatch s p (i + 1) shape maps
  | _, _ => true

/-- `Grid::projection_yields_grid`. -/
def projectionYieldsGrid (s : Projection) (p : Path) (mapVars : List BaseType) : Bool :=
  s.sendP (p ++ [0]) && components s p mapVars ≠ 1 &&
    mapsMatch s p 1 (s.dims (p ++ [0])).shape mapVars

end Libdap.Source.Hyperslab
