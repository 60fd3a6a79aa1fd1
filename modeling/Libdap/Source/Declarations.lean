import Libdap.Source.ErrorText
import Libdap.Source.Hyperslab

/-!
# BaseType.cc, Array.cc, Constructor.cc, Grid.cc, DDS.cc: declarations

A variable with all that its declaration shows: its type, its name, whether it is in the
projection, its members and its dimensions. The template of an Array has a name and a flag of
its own. Debugging output (`constraint_info`) and the versions for a `FILE *` are left out.
-/
namespace Libdap.Source.Declarations
open Libdap.Source.Array Escaping Hyperslab

inductive SimpleType where
  | byte | int16 | uint16 | int32 | uint32 | float32 | float64 | str | url
  deriving DecidableEq, Repr

/-- What `type_name()` returns. -/
def SimpleType.typeName : SimpleType → String
  | .byte => "Byte"
  | .int16 => "Int16"
  | .uint16 => "UInt16"
  | .int32 => "Int32"
  | .uint32 => "UInt32"
  | .float32 => "Float32"
  | .float64 => "Float64"
  | .str => "String"
  | .url => "Url"

inductive Var where
  | simple (type : SimpleType) (name : Text) (sendP : Bool)
  | array (name : Text) (sendP : Bool) (var : Var) (dims : Dims)
  /-- A Structure or a Sequence. -/
  | constructor (isSequence : Bool) (name : Text) (sendP : Bool) (vars : List Var)
  | grid (name : Text) (sendP : Bool) (arrayVar : Var) (mapVars : List Var)
  deriving Repr

namespace Var

def name : Var → Text
  | .simple _ name _ => name
  | .array name _ _ _ => name
  | .constructor _ name _ _ => name
  | .grid name _ _ _ => name

def sendP : Var → Bool
  | .simple _ _ sendP => sendP
  | .array _ sendP _ _ => sendP
  | .constructor _ _ sendP _ => sendP
  | .grid _ sendP _ _ => sendP

def isArray : Var → Bool
  | .array .. => true
  | _ => false

def isSimpleType : Var → Bool
  | .simple .. => true
  | _ => false

/-- The dimensions, which only an Array has. -/
def dims : Var → Dims
  | .array _ _ _ dims => dims
  | _ => fresh

/-- An Array of simple variables. -/
def isSimpleArray : Var → Bool
  | .array _ _ var _ => var.isSimpleType
  | _ => false

end Var

/-- A literal of the source. -/
def bytes (s : String) : Text := text s.toList

def constructorName (isSequence : Bool) : String :=
  if isSequence then "Sequence" else "Structure"

/-! ### Grid.cc -/

/-- `components(true)`. -/
def components (arrayVar : Var) (mapVars : List Var) : Nat :=
  (if arrayVar.sendP then 1 else 0) + mapVars.countP Var.sendP

/-- The loop of `projection_yields_grid`: a map must have the projection of its dimension. -/
def mapsMatch : List Dimension → List Var → Bool
  | d :: shape, map :: maps =>
    d.cSize ≠ 0 && map.sendP &&
      firstDimension map.dims Dimension.start = d.start &&
      firstDimension map.dims Dimension.stop = d.stop &&
      firstDimension map.dims Dimension.stride = d.stride &&
      mapsMatch shape maps
  | _, _ => true

/-- `projection_yields_grid`. -/
def yieldsGrid (arrayVar : Var) (mapVars : List Var) : Bool :=
  arrayVar.sendP && components arrayVar mapVars ≠ 1 && mapsMatch arrayVar.dims.shape mapVars

/-! ### What is printed -/

def semicolon (printSemi : Bool) : Text := if printSemi then bytes ";\n" else []

/-- One dimension of `Array::print_decl`. -/
def printDimension (constrained : Bool) (d : Dimension) : Text :=
  bytes "[" ++ (if d.name = "" then [] else id2www (bytes d.name) ++ bytes " = ") ++
    text (ErrorText.printInt (if constrained then d.cSize else d.size)) ++ bytes "]"

def closing (space name : Text) (printSemi : Bool) : Text :=
  space ++ bytes "\x7d " ++ id2www name ++ semicolon printSemi

mutual
/-- `print_decl` of a variable and of members one after the other. -/
def printDecl (constrained : Bool) (space : Text) (printSemi : Bool) : Var → Text
  | .simple type name sendP =>
    if constrained && !sendP then []
    else space ++ bytes type.typeName ++ bytes " " ++ id2www name ++ semicolon printSemi
  | .array _ sendP var dims =>
    if constrained && !sendP then []
    else
      printDecl constrained space false var ++ dims.shape.flatMap (printDimension constrained) ++
        semicolon printSemi
  | .constructor isSequence name sendP vars =>
    if constrained && !sendP then []
    else
      space ++ bytes (constructorName isSequence) ++ bytes " \x7b\n" ++
        printAll constrained (space ++ bytes "    ") vars ++ closing space name printSemi
  | .grid name sendP arrayVar mapVars =>
    if constrained && !sendP then []
    else if constrained && !yieldsGrid arrayVar mapVars then
      space ++ bytes "Structure \x7b\n" ++
        printDecl constrained (space ++ bytes "    ") true arrayVar ++
        printAll constrained (space ++ bytes "    ") mapVars ++ closing space name printSemi
    else
      space ++ bytes "Grid \x7b\n" ++ space ++ bytes "  Array:\n" ++
        printDecl constrained (space ++ bytes "    ") true arrayVar ++
        space ++ bytes "  Maps:\n" ++
        printAll constrained (space ++ bytes "    ") mapVars ++ closing space name printSemi

def printAll (constrained : Bool) (space : Text) : List Var → Text
  | [] => []
  | v :: vars => printDecl constrained space true v ++ printAll constrained space vars
end

/-- A dataset without a current container. -/
structure DDS where
  name : Text
  vars : List Var
  deriving Repr

/-- `DDS::print`, and `DDS::print_constrained`. -/
def DDS.print (constrained : Bool) (dds : DDS) : Text :=
  bytes "Dataset \x7b\n" ++ printAll constrained (bytes "    ") dds.vars ++ bytes "\x7d " ++
    id2www dds.name ++ bytes ";\n"

/-! ### What is valid -/

/-- The loop of `Grid::check_semantics`. -/
def mapsFit (arrayName : Text) : List Dimension → List Var → Bool
  | d :: shape, map :: maps =>
    arrayName ≠ map.name && map.isSimpleArray && (map.dims.shape.map Dimension.size = [d.size]) &&
      mapsFit arrayName shape maps
  | _, _ => true

mutual
/-- `check_semantics`; what it puts into `msg` is left out. -/
def checkSemantics (all : Bool) : Var → Bool
  | .simple _ name _ => name ≠ []
  | .array name _ _ dims => name ≠ [] && dims.shape ≠ []
  | .constructor _ name _ vars =>
    name ≠ [] && (vars.map Var.name).Nodup && (!all || checkAll vars)
  | .grid name _ arrayVar mapVars =>
    name ≠ [] && arrayVar.isSimpleArray && mapVars.length = arrayVar.dims.shape.length &&
      mapsFit arrayVar.name arrayVar.dims.shape mapVars &&
      (!all || (checkSemantics true arrayVar && checkAll mapVars))

def checkAll : List Var → Bool
  | [] => true
  | v :: vars => checkSemantics true v && checkAll vars
end

/-- `DDS::check_semantics`. -/
def DDS.checkSemantics (dds : DDS) (all : Bool) : Bool :=
  dds.name ≠ [] && (dds.vars.map Var.name).Nodup && (!all || checkAll dds.vars)

end Libdap.Source.Declarations
