import Libdap.Source.DDSText
import Libdap.Source.Grid

/-!
# dds.yy, DDS.cc: the actions of the DDS parser

The stack `ctor` has the constructors whose members are being read; the array of a Grid is not
set from the start. Of a parse that fails there is no result: whatever goes wrong ends in an
`Error` or an `InternalErr`, whose text has line numbers. The value `garbage` is what `www2id`
can come upon.
-/
namespace Libdap.Source.DDSParser
open Libdap.Source.Array Escaping Words Hyperslab Declarations DDSText
open Grid (Part)

/-- A constructor on the stack. -/
inductive Frame where
  | constructor (isSequence : Bool) (vars : List Var)
  | grid (arrayVar : Option Var) (mapVars : List Var)

structure State where
  vars : List Var
  ctor : List Frame
  current : Option Var
  part : Part

section
variable (garbage : UInt8)

/-- `BaseType::set_name` and `Vector::set_name`. -/
def setName (n : Text) : Var → Var
  | .simple type _ sendP => .simple type (www2id garbage n) sendP
  | .array _ sendP var dims => .array (www2id garbage n) sendP (setName n var) dims
  | .constructor isSequence _ sendP vars => .constructor isSequence (www2id garbage n) sendP vars
  | .grid _ sendP arrayVar mapVars => .grid (www2id garbage n) sendP arrayVar mapVars

/-- `NewArray()` and `Array::add_var` of a variable that is no Array. -/
def newArray (v : Var) : Var :=
  if v.name ≠ [] then setName garbage v.name (.array [] false v fresh)
  else .array [] false (setName garbage [] v) fresh

/-- `append_dim`, of what is an Array. -/
def appendDim (size : Int) (name : Text) : Var → Var
  | .array n sendP var dims =>
    .array n sendP var (dims.appendDim size (shown (www2id garbage name)))
  | v => v

/-- `array_decl`. -/
def arrayDecl (v : Var) : Option Text × Text → Option Var
  | (id, size) =>
    if checkInt32 size then
      some (appendDim garbage (atoi size) (id.getD [])
        (if v.isArray then v else newArray garbage v))
    else none

/-- `var`, for `current`. -/
def declare (var : Declarator) (current : Var) : Option Var :=
  var.dims.foldlM (arrayDecl garbage) (setName garbage var.name current)

end

/-- `add_var` of the constructor on top. -/
def Frame.addVar (part : Part) (v : Var) : Frame → Option Frame
  | .constructor isSequence vars => some (.constructor isSequence (vars ++ [v]))
  | .grid arrayVar mapVars =>
    match part, arrayVar with
    | .array, some _ => none
    | .maps, _ | .nil, some _ => some (.grid arrayVar (mapVars ++ [v]))
    | .array, none | .nil, none => if v.isArray then some (.grid (some v) mapVars) else none

/-- `add_entry`. -/
def addEntry (v : Var) (st : State) : Option State :=
  match st.ctor with
  | [] => some { st with vars := st.vars ++ [v], current := none }
  | frame :: ctor => do
    let frame ← frame.addVar st.part v
    some { st with ctor := frame :: ctor, current := none }

/-- `current = ctor->top()`. A Grid always has got its array then. -/
def Frame.var : Frame → Option Var
  | .constructor isSequence vars => some (.constructor isSequence [] false vars)
  | .grid (some arrayVar) mapVars => some (.grid [] false arrayVar mapVars)
  | .grid none _ => none

def popCtor (st : State) : Option State :=
  match st.ctor with
  | [] => none
  | frame :: ctor => do
    let v ← frame.var
    some { st with ctor, current := some v }

/-- `is_keyword`; a word has no blanks to prune. -/
def isKeyword (id : Text) (keyword : String) : Bool :=
  id.map (fun c => if 65 ≤ c && c ≤ 90 then c + 32 else c) = bytes keyword

section
variable (garbage : UInt8)

/-- The end of a declaration: `var ';'` and the test of what was declared. -/
def finish (var : Declarator) (st : State) : Option State := do
  let current ← st.current
  let v ← declare garbage var current
  if checkSemantics false v then addEntry v st else none

mutual
def declaration (st : State) : Declaration → Option State
  | .base type var => finish garbage var { st with current := some (.simple type [] false) }
  | .constructor isSequence decls var => do
    let st ← declarations { st with ctor := .constructor isSequence [] :: st.ctor } decls
    let st ← popCtor st
    finish garbage var st
  | .grid arrayWord array mapsWord maps var =>
    let st := { st with ctor := .grid none [] :: st.ctor }
    if isKeyword arrayWord "array" then do
      let st ← declaration { st with part := .array } array
      if isKeyword mapsWord "maps" then do
        let st ← declarations { st with part := .maps } maps
        let st ← popCtor st
        finish garbage var { st with part := .nil }
      else none
    else none

def declarations (st : State) : List Declaration → Option State
  | [] => some st
  | decl :: decls => do
    let st ← declaration st decl
    declarations st decls
end

/-- `datasets`, from the static variables as they are between two parses. -/
def datasets (dds : DDS) : List (List Declaration × Text) → Option DDS
  | [] => some dds
  | (decls, name) :: more => do
    let st ← declarations garbage
      { vars := dds.vars, ctor := [], current := none, part := .nil } decls
    datasets { name, vars := st.vars } more

/-- `DDS::parse` of a file into a new DDS, with what is left in the file. -/
def parse (stream : Text) : Option (DDS × Text) := do
  let tree ← readText (input stream).1
  let dds ← datasets garbage { name := [], vars := [] } tree
  some (dds, left stream)

end

end Libdap.Source.DDSParser
