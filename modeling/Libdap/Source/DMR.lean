import Libdap.Source.Attributes
import Libdap.Source.Groups
import Libdap.Source.ErrorText

/-!
# The DMR: Groups, their parts, and how they are printed

A variable is a value, and so are its attribute table and its members. Tables have no
aliases. An element's start stands with the attributes the XML writer is given behind it,
and its end with the name the reader reports; the printers write no prefixes and no
namespaces. Printing is not constrained here.
-/
namespace Libdap.Source.DMR
open Attributes (AttrType typeToString stringToType removeSpaceEncoding nameError)
open Variables (VarType)
open Groups (D4EnumDef typeName)
open ErrorText (printInt)

/-- `AttrTable::entry`; `attr` is none for a pointer that was never set. -/
inductive Attribute where
  | values (name : String) (type : AttrType) (attr : Option (List String))
  | container (name : String) (attrMap : List Attribute)
  deriving Repr

def Attribute.name : Attribute → String
  | .values name _ _ => name
  | .container name _ => name

def Attribute.type : Attribute → AttrType
  | .values _ type _ => type
  | .container _ _ => .container

/-- Enumerations are in Groups only, and variables in Groups, Structures and Sequences. -/
inductive BaseType where
  | mk (type : VarType) (name : String) (attr : List Attribute) (vars : List BaseType)
      (enums : List D4EnumDef)

namespace BaseType

def type : BaseType → VarType
  | .mk type _ _ _ _ => type

def name : BaseType → String
  | .mk _ name _ _ _ => name

def attr : BaseType → List Attribute
  | .mk _ _ attr _ _ => attr

def setAttr (table : List Attribute) : BaseType → BaseType
  | .mk type name _ vars enums => .mk type name table vars enums

def addEnumeration (e : D4EnumDef) : BaseType → BaseType
  | .mk type name attr vars enums => .mk type name attr vars (enums ++ [e])

end BaseType

/-! ## Copying -/

mutual

/-- The copy of an entry: of one whose type is unknown, `attr` is not set. -/
def Attribute.clone : Attribute → Attribute
  | .values name type attr => .values name type (if type = .unknown then none else attr)
  | .container name entries => .container name (cloneTable entries)

/-- `AttrTable::clone`. -/
def cloneTable : List Attribute → List Attribute
  | [] => []
  | e :: es => e.clone :: cloneTable es

end

mutual

/-- `ptr_duplicate`; the enumerations of a Group are not copied. -/
def BaseType.ptrDuplicate : BaseType → BaseType
  | .mk type name attr vars _ => .mk type name (cloneTable attr) (duplicateAll vars) []

def duplicateAll : List BaseType → List BaseType
  | [] => []
  | v :: vs => v.ptrDuplicate :: duplicateAll vs

end

/-- `Constructor::add_var`. -/
def BaseType.addVar (bt : BaseType) : BaseType → BaseType
  | .mk type name attr vars enums => .mk type name attr (vars ++ [bt.ptrDuplicate]) enums

/-! ## Attribute tables -/

def removeSpaces (s : String) : String := String.ofList (removeSpaceEncoding s.toList)

/-- `attr->push_back`. -/
def Attribute.push (value : String) : Attribute → Except Failure Attribute
  | .values name type (some attr) => .ok (.values name type (some (attr ++ [value])))
  | _ => .error .undefinedBehaviour

/-- A value for the entry of this name. -/
def pushValue (name value : String) : List Attribute → Except Failure (List Attribute)
  | [] => .error .undefinedBehaviour
  | e :: es =>
    if e.name = name then do
      let e ← e.push value
      pure (e :: es)
    else do
      let rest ← pushValue name value es
      pure (e :: rest)

/-- `AttrTable::append_attr` of one value. -/
def appendAttr (table : List Attribute) (name type value : String) :
    Except Failure (List Attribute) :=
  let lname := removeSpaces name
  match table.find? fun e => e.name = lname with
  | some e =>
    if e.type ≠ stringToType type.toList then
      .error (nameError "An attribute called `" name.toList
        "' already exists but is of a different type")
    else if typeToString e.type = "Container" then
      .error (nameError "An attribute called `" name.toList
        "' already exists but is a container.")
    else pushValue lname value table
  | none => .ok (table ++ [.values lname (stringToType type.toList) (some [value])])

/-- `AttrTable::append_container` of a new table. -/
def appendContainer (table : List Attribute) (name : String) :
    Except Failure (List Attribute) :=
  if (table.find? fun e => e.name = name).isSome then
    .error (nameError "There already exists a container called `" name.toList
      "' in this attribute table. (1)")
  else .ok (table ++ [.container (removeSpaces name) []])

/-! ## Printing -/

/-- What the reader reports. -/
inductive Event where
  | start (tag : String) (attributes : List (String × String))
  | characters (text : String)
  | finish (tag : String)
  deriving DecidableEq, Repr

def printValue (value : String) : List Event :=
  [.start "value" [], .characters value, .finish "value"]

/-- `D4EnumDef::print_enum_const`. -/
def printEnumConst (item : String) (value : Int) : List Event :=
  [.start "EnumConst" [("name", item), ("value", String.ofList (printInt value))],
    .finish "EnumConst"]

/-- `D4EnumDef::print_xml_writer`. -/
def printEnumDef (e : D4EnumDef) : List Event :=
  .start "Enumeration" [("name", e.name), ("basetype", typeName e.type)] ::
    e.values.flatMap (fun v => printEnumConst v.1 v.2) ++ [.finish "Enumeration"]

section

-- What the reader reports of the text of an `OtherXML` attribute, written as it is.
variable (raw : String → List Event)

/-- The element of an attribute around what is inside it. -/
def attributeElement (name : String) (type : AttrType) (inner : List Event) : List Event :=
  .start "Attribute" [("name", name), ("type", typeToString type)] :: inner ++
    [.finish "Attribute"]

def printValues (name : String) (type : AttrType) (attr : List String) :
    Except Failure (List Event) :=
  if type = .otherXml then
    match attr with
    | [xml] => .ok (attributeElement name type (raw xml))
    | _ => .error (.error .unknownError "OtherXML attributes cannot be vector-valued.")
  else .ok (attributeElement name type (attr.flatMap printValue))

mutual

def printAttribute : Attribute → Except Failure (List Event)
  | .container name entries => do
    let inner ← printAttrTable entries
    pure (attributeElement name .container inner)
  | .values _ _ none => .error .undefinedBehaviour
  | .values name type (some attr) => printValues raw name type attr

/-- `AttrTable::print_xml_writer`. -/
def printAttrTable : List Attribute → Except Failure (List Event)
  | [] => .ok []
  | e :: es => do
    let first ← printAttribute e
    let others ← printAttrTable es
    pure (first ++ others)

end

def nameAttribute (name : String) : List (String × String) :=
  if name = "" then [] else [("name", name)]

mutual

/-- `print_xml_writer` of BaseType, Constructor and D4Group. -/
def BaseType.printXmlWriter : BaseType → Except Failure (List Event)
  | .mk type name attr vars enums => do
    let attributes ← printAttrTable raw attr
    let members ← printVars vars
    pure (.start (typeName type) (nameAttribute name) ::
      (enums.flatMap printEnumDef ++ attributes ++ members) ++ [.finish (typeName type)])

def printVars : List BaseType → Except Failure (List Event)
  | [] => .ok []
  | v :: vs => do
    let first ← v.printXmlWriter
    let others ← printVars vs
    pure (first ++ others)

end

end

end Libdap.Source.DMR
