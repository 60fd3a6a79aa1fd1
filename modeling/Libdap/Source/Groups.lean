import Libdap.Source.Variables

/-!
# D4Group: copying and printing

A D4Group is a Constructor, and its copy functions are those of Structure: in memory it
is an object of that class with the type `group`. What D4Group adds, the vector of
pointers to enumeration definitions, stands beside the memory. An attribute table is a
value, and so is what is printed of it. The dimensions of a Group are neither copied nor
printed.
-/
namespace Libdap.Source.Groups
open Libdap.Library Libdap.Source.Variables

structure D4EnumDef where
  name : String
  type : VarType
  values : List (String × Int)
  deriving DecidableEq, Repr

structure World where
  memory : Memory
  definitions : Heap (Option D4EnumDef)
  /-- `d_enums` of the Group at an address, empty for other objects. -/
  enums : Nat → List Nat

/-- The memory after a copy function; a new object starts with no definitions. -/
def World.withMemory (w : World) (m : Memory) : World :=
  { w with memory := m, enums := fun a => if a < w.memory.size then w.enums a else [] }

section
variable (depth : Nat)

/-- The copy constructor: Constructor's, and the `m_duplicate` of Constructor. -/
def groupCopy (w : World) (rhs : Nat) : Except Failure (Nat × World) := do
  let (this, m) ← ptrDuplicate depth w.memory rhs
  pure (this, w.withMemory m)

/-- `D4Group::ptr_duplicate`. -/
def groupPtrDuplicate (w : World) (rhs : Nat) : Except Failure (Nat × World) :=
  groupCopy depth w rhs

/-- `D4Group::operator=`. -/
def groupAssign (w : World) (this rhs : Nat) : Except Failure (Nat × World) :=
  if this = rhs then .ok (this, w)
  else do
    let m ← constructorAssign depth w.memory this rhs
    let m ← constructorDuplicate (ptrDuplicate depth) m this rhs
    pure (this, w.withMemory m)

end

/-! ## Printing -/

/-- The calls of the XML writer. -/
inductive Event where
  | startElement (tag : String)
  | attribute (name value : String)
  | text (value : String)
  | raw (value : String)
  | endElement
  deriving DecidableEq, Repr

/-- `type_name` of util.cc. -/
def typeName : VarType → String
  | .null => "Null"
  | .byte => "Byte"
  | .int16 => "Int16"
  | .uint16 => "UInt16"
  | .int32 => "Int32"
  | .uint32 => "UInt32"
  | .float32 => "Float32"
  | .float64 => "Float64"
  | .str => "String"
  | .url => "Url"
  | .array => "Array"
  | .structure => "Structure"
  | .sequence => "Sequence"
  | .grid => "Grid"
  | .int8 => "Int8"
  | .uint8 => "UInt8"
  | .int64 => "Int64"
  | .uint64 => "UInt64"
  | .url4 => "URL"
  | .group => "Group"
  | .enum => "Enum"

def printName (name : String) : List Event := if name = "" then [] else [.attribute "name" name]

/-- What is inside the element of an attribute with values. -/
def printValues (type : String) (values : List String) : Except Failure (List Event) :=
  if type = "OtherXML" then
    match values with
    | [value] => .ok [.raw value]
    | _ => .error (.error .unknownError "OtherXML attributes cannot be vector-valued.")
  else .ok (values.flatMap fun value => [.startElement "value", .text value, .endElement])

def attributeElement (name type : String) (inner : List Event) : List Event :=
  [.startElement "Attribute", .attribute "name" name, .attribute "type" type] ++ inner ++
    [.endElement]

mutual

/-- One turn of the loop of `AttrTable::print_xml_writer`. -/
def printEntry : AttrEntry → Except Failure (List Event)
  | .values name type attr => do
    let inner ← printValues type attr
    pure (attributeElement name type inner)
  | .container name attrMap => do
    let inner ← printAttrTable attrMap
    pure (attributeElement name "Container" inner)
  | .alias name aliasedTo _ =>
    .ok [.startElement "Alias", .attribute "name" name, .attribute "Attribute" aliasedTo,
      .endElement]
  | .unknown _ none => .error .undefinedBehaviour
  | .unknown name (some attr) => do
    let inner ← printValues "" attr
    pure (attributeElement name "" inner)

/-- `AttrTable::print_xml_writer`. -/
def printAttrTable : AttrTable → Except Failure (List Event)
  | [] => .ok []
  | e :: rest => do
    let first ← printEntry e
    let rest ← printAttrTable rest
    pure (first ++ rest)

end

/-- `D4EnumDef::print_xml_writer`. -/
def printEnumDef (e : D4EnumDef) : List Event :=
  [.startElement "Enumeration", .attribute "name" e.name,
    .attribute "basetype" (typeName e.type)] ++
    e.values.flatMap (fun (item, value) =>
      [.startElement "EnumConst", .attribute "name" item, .attribute "value" (toString value),
        .endElement]) ++
    [.endElement]

/-- The definitions of a Group; a pointer to none is dereferenced. -/
def World.definitionsOf (w : World) (a : Nat) : List (Option D4EnumDef) :=
  (w.enums a).map w.definitions.lookup

def printEnums : List (Option D4EnumDef) → Except Failure (List Event)
  | [] => .ok []
  | none :: _ => .error .undefinedBehaviour
  | some e :: rest => do
    let events ← printEnums rest
    pure (printEnumDef e ++ events)

def printDimension (constrained : Bool) (d : Array.Dimension) : List Event :=
  [.startElement "dimension"] ++ printName d.name ++
    [.attribute "size" (toString (if constrained then d.cSize else d.size)), .endElement]

/-- How an object is printed: by `print_xml_writer`, so with its name set to the empty one,
or by `print_xml_writer_core` of an Array with this tag. -/
inductive Printing where
  | whole
  | nameless
  | tagged (tag : String)
  deriving DecidableEq

/-- `send_p` of a part of a Grid, and its dimensions if it is an Array. -/
def gridPart (m : Memory) (a : Nat) : Except Failure (Bool × List Array.Dimension) := do
  let v ← fetch m a
  match v.contents with
  | .array dims .. => pure (v.base.isSend, dims.shape)
  | _ => .error .undefinedBehaviour

/-- The loop of `projection_yields_grid`; a map has only one dimension. -/
def mapsMatch : List Array.Dimension → List (Bool × List Array.Dimension) → Except Failure Bool
  | [], _ | _, [] => .ok true
  | d :: ds, (sent, shape) :: maps =>
    if d.cSize ≠ 0 ∧ sent then
      match shape with
      | [] => .error .undefinedBehaviour
      | fd :: _ =>
        if fd.start = d.start ∧ fd.stop = d.stop ∧ fd.stride = d.stride then mapsMatch ds maps
        else .ok false
    else .ok false

def gridParts (m : Memory) : List Nat → Except Failure (List (Bool × List Array.Dimension))
  | [] => .ok []
  | a :: rest => do
    let part ← gridPart m a
    let parts ← gridParts m rest
    pure (part :: parts)

/-- `Grid::projection_yields_grid`. -/
def yieldsGrid (m : Memory) (array : Nat) (mapVars : List Nat) : Except Failure Bool := do
  let array ← gridPart m array
  let maps ← gridParts m mapVars
  if array.1 then
    if ((array :: maps).filter Prod.fst).length = 1 then .ok false
    else mapsMatch array.2 maps
  else .ok false

section
variable (w : World) (constrained : Bool)

/-- One object after the other. -/
def printAll (print : Nat → Except Failure (List Event)) :
    List Nat → Except Failure (List Event)
  | [] => .ok []
  | a :: rest => do
    let events ← print a
    let others ← printAll print rest
    pure (events ++ others)

def element (tag name : String) (inner : List Event) : List Event :=
  [.startElement tag] ++ printName name ++ inner ++ [.endElement]

/-- `print_xml_writer` of each class; what is not an Array has no `print_xml_writer_core`. -/
def print : Nat → Printing → Nat → Except Failure (List Event)
  | 0, _, _ => .error .outOfFuel
  | depth + 1, printing, a => do
    let v ← fetch w.memory a
    let name := if printing = .nameless then "" else v.base.name
    match v.contents, printing with
    | .array dims template .., printing =>
      if constrained && !v.base.isSend then pure []
      else
        match template with
        | none => .error .undefinedBehaviour
        | some var => do
          let attributes ← printAttrTable v.base.attr
          let inner ← print depth .nameless var
          let tag := match printing with
            | .tagged tag => tag
            | _ => "Array"
          pure (element tag name
            (attributes ++ inner ++ dims.shape.flatMap (printDimension constrained)))
    | _, .tagged _ => .error (.internalErr "Expected an Array.")
    | .simple _, _ =>
      if constrained && !v.base.isSend then pure []
      else do
        let attributes ← printAttrTable v.base.attr
        pure (element (typeName v.base.type) name attributes)
    | .structure vars, _ =>
      if constrained && !v.base.isSend then pure []
      else do
        let enums ← printEnums (w.definitionsOf a)
        let attributes ← printAttrTable v.base.attr
        let inner ← printAll (print depth .whole) vars
        pure (element (typeName v.base.type) name (enums ++ attributes ++ inner))
    | .sequence _ vars _, _ =>
      if constrained && !v.base.isSend then pure []
      else do
        let attributes ← printAttrTable v.base.attr
        let inner ← printAll (print depth .whole) vars
        pure (element (typeName v.base.type) name (attributes ++ inner))
    | .grid _ arrayVar mapVars, _ =>
      if constrained && !v.base.isSend then pure []
      else
        match arrayVar with
        | none => .error .undefinedBehaviour
        | some array => do
          let yields ← if constrained then yieldsGrid w.memory array mapVars else pure true
          let attributes ← printAttrTable v.base.attr
          let inner ← print depth .whole array
          let maps ← printAll (print depth (.tagged (if yields then "Map" else "Array"))) mapVars
          pure (element (if yields then "Grid" else "Structure") name
            (attributes ++ inner ++ maps))

end

end Libdap.Source.Groups
