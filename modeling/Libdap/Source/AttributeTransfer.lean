import Libdap.Source.Attributes

/-!
# DDS.cc, BaseType.cc, Grid.cc: transferring the attributes of a DAS to the variables

While attributes are transferred nothing of the DAS changes but the marks
`d_is_global_attribute` of its tables (and parents, which are not read), so a table is a
value with its address. An alias of a container has the address and the contents of the
table it stands for; `values` is an entry of any other type than `Attr_container`. The
tables of the DDS are lists of their entries.
-/
namespace Libdap.Source.AttributeTransfer
open Libdap.Source.Attributes

/-- `AttrTable::entry`; `attr` is none for a pointer that was never set. -/
inductive Attribute where
  | values (name : List Char) (type : AttrType) (isGlobal : Bool) (attr : Option (List String))
  | container (name : List Char) (address : Nat) (tableName : List Char)
      (attrMap : List Attribute)

structure Table where
  address : Nat
  name : List Char
  attrMap : List Attribute

/-- `d_is_global_attribute` of the table at an address. -/
abbrev Marks := Nat → Bool

def setIsGlobalAttribute (marks : Marks) (address : Nat) (ga : Bool) : Marks :=
  fun a => if a = address then ga else marks a

def Attribute.name : Attribute → List Char
  | .values name _ _ _ => name
  | .container name _ _ _ => name

def Attribute.type : Attribute → AttrType
  | .values _ type _ _ => type
  | .container _ _ _ _ => .container

def Attribute.isContainer : Attribute → Bool
  | .values _ _ _ _ => false
  | .container _ _ _ _ => true

/-- `get_attr_table` of an entry. -/
def Attribute.table : Attribute → Option Table
  | .values _ _ _ _ => none
  | .container _ address tableName attrMap => some { address, name := tableName, attrMap }

/-- `is_global_attribute` of an entry. -/
def isGlobalAttribute (marks : Marks) : Attribute → Bool
  | .values _ _ isGlobal _ => isGlobal
  | .container _ address _ _ => marks address

def simpleFindContainer (t : Table) (target : List Char) : Option Table :=
  if t.name = target then some t
  else
    (t.attrMap.find? fun e => e.isContainer && e.name = target).bind Attribute.table

/-- `find_container`; every call takes a part of the name. -/
def findContainer : Nat → Table → List Char → Except Failure (Option Table)
  | 0, _, _ => .error .outOfFuel
  | fuel + 1, t, target =>
    match splitFirst target with
    | none => pure (simpleFindContainer t target)
    | some (container, field) =>
      match simpleFindContainer t container with
      | none => pure none
      | some below => findContainer fuel below field

def getAttrTable (t : Table) (name : List Char) : Except Failure (Option Table) :=
  findContainer (name.length + 1) t name

section
variable (garbage : Option (List String))

mutual
/-- A copy does not set the pointer of an attribute of unknown type. -/
def Attribute.copy : Attribute → Attribute
  | .values name type isGlobal attr =>
    .values name type isGlobal (if type = .unknown then garbage else attr)
  | .container name address tableName attrMap =>
    .container name address tableName (copyAll attrMap)

def copyAll : List Attribute → List Attribute
  | [] => []
  | e :: rest => e.copy :: copyAll rest
end

def simpleFind (own : List Attribute) (target : List Char) : Option Attribute :=
  own.find? fun e => e.name = target

/-- The values are appended to the first entry of that name. -/
def appendToFirst (lname : List Char) (values : List String) :
    List Attribute → List Attribute
  | [] => []
  | .values name type isGlobal attr :: rest =>
    if name = lname then .values name type isGlobal (attr.map (· ++ values)) :: rest
    else .values name type isGlobal attr :: appendToFirst lname values rest
  | e :: rest => e :: appendToFirst lname values rest

def appendAttr (own : List Attribute) (name type : List Char) (values : List String) :
    Except Failure (List Attribute) :=
  let lname := removeSpaceEncoding name
  match simpleFind own lname with
  | some e =>
    if e.type ≠ stringToType type then
      throw (nameError "An attribute called `" name "' already exists but is of a different type")
    else if typeToString e.type = "Container" then
      throw (nameError "An attribute called `" name "' already exists but is a container.")
    else pure (appendToFirst lname values own)
  | none => pure (own ++ [.values lname (stringToType type) true (some values)])

/-- `append_container` of a copy of `t`. -/
def appendCopy (own : List Attribute) (t : Table) (name : List Char) :
    Except Failure (List Attribute) :=
  let lname := removeSpaceEncoding name
  if (simpleFind own name).isSome then
    throw (nameError "There already exists a container called `" name
      "' in this attribute table. (1)")
  else
    pure (own ++ [.container lname t.address (removeSpaceEncoding lname)
      (copyAll garbage t.attrMap)])

/-- One turn of the loops over the entries of a container. -/
def transferEntry (own : List Attribute) : Attribute → Except Failure (List Attribute)
  | .container name address tableName attrMap =>
    appendCopy garbage own { address, name := tableName, attrMap } name
  | .values name type _ attr => do
    let values ← demand attr
    appendAttr own name (typeToString type).toList values

/-- A `BaseType`: its name and its attribute table. -/
structure Variable where
  name : List Char
  attributes : List Attribute

/-- `BaseType::transfer_attributes`. -/
def Variable.transferAttributes (v : Variable) (atContainer : Table) (marks : Marks) :
    Except Failure (Variable × Marks) := do
  match ← getAttrTable atContainer v.name with
  | none => pure (v, marks)
  | some at' => do
    let own ← at'.attrMap.foldlM (transferEntry garbage) v.attributes
    pure ({ v with attributes := own }, setIsGlobalAttribute marks at'.address false)

def transferMaps (at' : Table) : List Variable → Marks →
    Except Failure (List Variable × Marks)
  | [], marks => pure ([], marks)
  | map :: rest, marks => do
    let (map', marks) ← map.transferAttributes garbage at' marks
    let (rest', marks) ← transferMaps at' rest marks
    pure (map' :: rest', marks)

structure Grid where
  var : Variable
  arrayVar : Variable
  mapVars : List Variable

/-- `Grid::transfer_attributes`. -/
def Grid.transferAttributes (g : Grid) (atContainer : Table) (marks : Marks) :
    Except Failure (Grid × Marks) := do
  match ← getAttrTable atContainer g.var.name with
  | none => pure (g, marks)
  | some at' => do
    let marks := setIsGlobalAttribute marks at'.address false
    let (arrayVar, marks) ← g.arrayVar.transferAttributes garbage at' marks
    let (mapVars, marks) ← transferMaps garbage at' g.mapVars marks
    let own ← (at'.attrMap.filter (isGlobalAttribute marks)).foldlM (transferEntry garbage)
      g.var.attributes
    pure ({ var := { g.var with attributes := own }, arrayVar, mapVars }, marks)

/-- A variable of the DDS: `Grid` overrides what all other classes inherit. -/
inductive Member where
  | other (v : Variable)
  | grid (g : Grid)

def Member.var : Member → Variable
  | .other v => v
  | .grid g => g.var

def Member.transferAttributes (topLevel : Table) (marks : Marks) :
    Member → Except Failure (Member × Marks)
  | .other v => do
    let (v, marks) ← v.transferAttributes garbage topLevel marks
    pure (.other v, marks)
  | .grid g => do
    let (g, marks) ← g.transferAttributes garbage topLevel marks
    pure (.grid g, marks)

def transferMembers (topLevel : Table) : List Member → Marks →
    Except Failure (List Member × Marks)
  | [], marks => pure ([], marks)
  | var :: rest, marks => do
    let (var', marks) ← var.transferAttributes garbage topLevel marks
    let (rest', marks) ← transferMembers topLevel rest marks
    pure (var' :: rest', marks)

/-- One turn of the last loop of `DDS::transfer_attributes`. -/
def transferGlobal (marks : Marks) (own : List Attribute) :
    Attribute → Except Failure (List Attribute)
  | .values _ _ _ _ => pure own
  | .container _ address tableName attrMap =>
    if marks address then
      appendCopy garbage own { address, name := tableName, attrMap } tableName
    else pure own

/-- The top-level attributes are those of the current container, if there is one. -/
structure DAS where
  containerName : List Char
  topLevel : Table

structure DDS where
  vars : List Member
  attr : List Attribute
  containerName : List Char
  container : Bool

/-- `DDS::transfer_attributes`. -/
def DDS.transferAttributes (dds : DDS) (das : DAS) (marks : Marks) :
    Except Failure (DDS × Marks) :=
  if dds.container ∧ das.containerName ≠ dds.containerName then
    throw (.internalErr
      "Error transferring attributes: working on a container in dds, but not das")
  else do
    let (vars, marks) ← transferMembers garbage das.topLevel dds.vars marks
    let attr ← das.topLevel.attrMap.foldlM (transferGlobal garbage marks) dds.attr
    pure ({ dds with vars, attr }, marks)

end

end Libdap.Source.AttributeTransfer
