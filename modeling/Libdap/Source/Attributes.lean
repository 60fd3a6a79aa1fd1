import Libdap.Library.Ownership
import Libdap.Source.Failure

/-!
# AttrTable.cc: building attribute tables

Tables and the vectors of values lie in a memory: an alias shares the pointer of the
attribute it stands for. A call may throw after it has changed something, so a call
always has a memory as its result. Names are lists of characters; an `entry`, which only
its table points to, is a value. The number some functions take bounds how deep tables
are nested.
-/
namespace Libdap.Source.Attributes
open Libdap.Library

inductive AttrType where
  | unknown | container | byte | int16 | uint16 | int32 | uint32 | float32 | float64
  | string | url | otherXml
  deriving DecidableEq, Repr

/-- `AttrTable::entry`. -/
structure Entry where
  name : List Char
  type : AttrType
  isAlias : Bool
  aliasedTo : List Char
  isGlobal : Bool
  attributes : Option Nat
  attr : Option Nat
  deriving DecidableEq, Repr

structure AttrTable where
  name : List Char
  parent : Option Nat
  attrMap : List Entry
  isGlobalAttribute : Bool
  deriving DecidableEq, Repr

inductive Cell where
  | table (t : AttrTable)
  | values (v : List String)
  deriving DecidableEq, Repr

abbrev Memory := Heap (Option Cell)

/-- A call on a memory: its result, or what it throws, and the memory after it. -/
abbrev Call (α : Type) := EStateM Failure Memory α

/-- A replaced blank is no part of another `%20`, so one pass does what the loop of the
source does. -/
def removeSpaceEncoding : List Char → List Char
  | [] => []
  | '%' :: '2' :: '0' :: rest => ' ' :: removeSpaceEncoding rest
  | c :: rest => c :: removeSpaceEncoding rest

def addSpaceEncoding : List Char → List Char
  | [] => []
  | c :: rest => (if c = ' ' then ['%', '2', '0'] else [c]) ++ addSpaceEncoding rest

def typeToString : AttrType → String
  | .container => "Container"
  | .byte => "Byte"
  | .int16 => "Int16"
  | .uint16 => "UInt16"
  | .int32 => "Int32"
  | .uint32 => "UInt32"
  | .float32 => "Float32"
  | .float64 => "Float64"
  | .string => "String"
  | .url => "Url"
  | .otherXml => "OtherXML"
  | .unknown => ""

def stringToType (s : List Char) : AttrType :=
  let s := s.map Char.toLower
  if s = "container".toList then .container
  else if s = "byte".toList then .byte
  else if s = "int16".toList then .int16
  else if s = "uint16".toList then .uint16
  else if s = "int32".toList then .int32
  else if s = "uint32".toList then .uint32
  else if s = "float32".toList then .float32
  else if s = "float64".toList then .float64
  else if s = "string".toList then .string
  else if s = "url".toList then .url
  else if s = "otherxml".toList then .otherXml
  else .unknown

def tableAt (m : Memory) (a : Nat) : Option AttrTable :=
  match m.lookup a with
  | some (.table t) => some t
  | _ => none

def valuesAt (m : Memory) (a : Nat) : Option (List String) :=
  match m.lookup a with
  | some (.values v) => some v
  | _ => none

/-- A null pointer or one to an object of another kind is not followed. -/
def demand {α : Type} : Option α → Except Failure α
  | some x => .ok x
  | none => .error .undefinedBehaviour

def reading {α : Type} (f : Memory → Except Failure α) : Call α := fun m =>
  match f m with
  | .ok x => .ok x m
  | .error failure => .error failure m

def getTable (a : Nat) : Call AttrTable := reading fun m => demand (tableAt m a)

def modifyTable (a : Nat) (f : AttrTable → AttrTable) : Call Unit :=
  modify fun m => m.modify a fun cell =>
    match cell with
    | .table t => .table (f t)
    | .values v => .values v

def modifyValues (a : Nat) (f : List String → List String) : Call Unit :=
  modify fun m => m.modify a fun cell =>
    match cell with
    | .table t => .table t
    | .values v => .values (f v)

def allocate (cell : Cell) : Call Nat :=
  modifyGet fun m => (m.size, m.alloc (some cell))

/-- The constructor without arguments. -/
def emptyTable : AttrTable :=
  { name := [], parent := none, attrMap := [], isGlobalAttribute := true }

/-- `entry()` with what all callers set. -/
def newEntry (name : List Char) (type : AttrType) : Entry :=
  { name, type, isAlias := false, aliasedTo := [], isGlobal := true, attributes := none,
    attr := none }

/-- `simple_find`: the first entry of that name. -/
def AttrTable.simpleFind (t : AttrTable) (target : List Char) : Option Entry :=
  t.attrMap.find? fun e => e.name = target

def pushEntry (e : Entry) (t : AttrTable) : AttrTable := { t with attrMap := t.attrMap ++ [e] }

/-- The texts of `Error` name the attribute as the caller spelled it. -/
def nameError (before : String) (name : List Char) (after : String) : Failure :=
  .error .unknownError (before ++ String.ofList name ++ after)

/-- `append_attr`; the form with one value appends a vector of one. -/
def appendValues (this : Nat) (name type : List Char) (values : List String) : Call Nat := do
  let lname := removeSpaceEncoding name
  let t ← getTable this
  match t.simpleFind lname with
  | some e =>
    if e.type ≠ stringToType type then
      throw (nameError "An attribute called `" name "' already exists but is of a different type")
    else if typeToString e.type = "Container" then
      throw (nameError "An attribute called `" name "' already exists but is a container.")
    else do
      let attr ← reading fun _ => demand e.attr
      let old ← reading fun m => demand (valuesAt m attr)
      modifyValues attr (· ++ values)
      pure (old.length + values.length)
  | none => do
    let attr ← allocate (.values values)
    modifyTable this (pushEntry { newEntry lname (stringToType type) with attr := some attr })
    pure values.length

def appendAttr (this : Nat) (name type : List Char) (value : String) : Call Nat :=
  appendValues this name type [value]

def appendAttrVector (this : Nat) (name type : List Char) (values : List String) : Call Nat :=
  appendValues this name type values

/-- `set_name` decodes the name it is given. -/
def setName (n : List Char) (t : AttrTable) : AttrTable :=
  { t with name := removeSpaceEncoding n }

/-- `append_container` of a table; the check is made with the name as it was given. -/
def appendTable (this at' : Nat) (name : List Char) : Call Nat := do
  let lname := removeSpaceEncoding name
  let t ← getTable this
  if (t.simpleFind name).isSome then
    throw (nameError "There already exists a container called `" name
      "' in this attribute table. (1)")
  else do
    let _ ← getTable at'
    modifyTable at' (setName lname)
    modifyTable this
      (pushEntry { newEntry lname .container with attributes := some at' })
    modifyTable at' fun t => { t with parent := some this }
    pure at'

section
variable (depth : Nat)

/-- `delete e`: an alias owns nothing. -/
def deleteEntry : Nat → Entry → Call Unit
  | 0, _ => throw .outOfFuel
  | depth + 1, e =>
    if e.isAlias then pure ()
    else if e.type = .container then
      match e.attributes with
      | none => pure ()
      | some at' => do
        let t ← getTable at'
        t.attrMap.forM (deleteEntry depth)
        modify fun m => m.free at'
    else
      match e.attr with
      | none => pure ()
      | some attr => do
        let _ ← reading fun m => demand (valuesAt m attr)
        modify fun m => m.free attr

/-- `append_container` of a new table, which is deleted if the name is taken. -/
def appendContainer (this : Nat) (name : List Char) : Call Nat := do
  let newAt ← allocate (.table emptyTable)
  tryCatch (appendTable this newAt name) fun failure =>
    match failure with
    | .error _ _ | .internalErr _ => do
      modify fun m => m.free newAt
      throw failure
    | _ => throw failure

def addContainerAlias (this : Nat) (name : List Char) (src : Nat) : Call Unit := do
  let lname := removeSpaceEncoding name
  let t ← getTable this
  if (t.simpleFind lname).isSome then
    throw (nameError "There already exists a container called `" name
      "in this attribute table. (2)")
  else do
    let s ← getTable src
    modifyTable this (pushEntry
      { newEntry lname .container with
        isAlias := true, aliasedTo := s.name, attributes := some src })

/-- `simple_find_container`: the table itself, or the container of that name in it. -/
def simpleFindContainer (at' : Nat) (t : AttrTable) (target : List Char) : Option Nat :=
  if t.name = target then some at'
  else
    (t.attrMap.find? fun e => e.type = .container && e.name = target).bind Entry.attributes

/-- `target` up to its first dot, and what follows the dot. -/
def splitFirst (target : List Char) : Option (List Char × List Char) :=
  match target.span (· ≠ '.') with
  | (_, []) => none
  | (container, _ :: field) => some (container, field)

/-- `find_container`; every call takes a part of the name. -/
def findContainer (m : Memory) : Nat → Nat → List Char → Except Failure (Option Nat)
  | 0, _, _ => .error .outOfFuel
  | fuel + 1, at', target => do
    let t ← demand (tableAt m at')
    match splitFirst target with
    | none => pure (simpleFindContainer at' t target)
    | some (container, field) =>
      match simpleFindContainer at' t container with
      | none => pure none
      | some below => findContainer m fuel below field

/-- `recurrsive_find`: the table that has the entry, and the entry. -/
def recursiveFind (m : Memory) (target : List Char) :
    Nat → Nat → Except Failure (Option (Nat × Entry))
  | 0, _ => .error .outOfFuel
  | depth + 1, at' => do
    let t ← demand (tableAt m at')
    t.attrMap.foldlM (fun found e =>
      match found with
      | some _ => pure found
      | none =>
        if e.name = target then pure (some (at', e))
        else if e.type = .container then do
          let below ← demand e.attributes
          recursiveFind m target depth below
        else pure none) none

/-- `target` up to its last dot, and what follows the dot. -/
def splitLast (target : List Char) : Option (List Char × List Char) :=
  (splitFirst target.reverse).map fun (field, container) =>
    (container.reverse, field.reverse)

/-- `find`: the table where to look, and the entry if it is there. -/
def find (m : Memory) (at' : Nat) (target : List Char) :
    Except Failure (Option (Nat × Entry)) :=
  match splitLast target with
  | some (container, field) => do
    match ← findContainer m (target.length + 1) at' container with
    | none => pure none
    | some table => do
      let t ← demand (tableAt m table)
      pure ((t.simpleFind field).map fun e => (table, e))
  | none => recursiveFind m target depth at'

def addValueAlias (this das : Nat) (name source : List Char) : Call Unit := do
  let lname := removeSpaceEncoding name
  let lsource := removeSpaceEncoding source
  let found ← reading fun m => do
    match ← find depth m das lsource with
    | some found => pure (some found)
    | none => find depth m this lsource
  match found with
  | none => throw (nameError "Could not find the attribute `" source
      "' in the attribute object.")
  | some (_, e) => do
    let t ← getTable this
    if e.type ≠ .container ∧ this = das then
      throw (.error .unknownError
        "A value cannot be aliased to the top level of the DAS;\nOnly containers may be present at that level of the DAS.")
    else if (t.simpleFind lname).isSome then
      throw (nameError "There already exists a container called `" name
        "in this attribute table. (3)")
    else
      modifyTable this (pushEntry
        { newEntry lname e.type with
          isAlias := true, aliasedTo := lsource,
          attributes := if e.type = .container then e.attributes else none,
          attr := if e.type = .container then none else e.attr })

/-- `del_attr`; an index beyond the vector fails an assertion. -/
def delAttr (this : Nat) (name : List Char) (i : Int) : Call Unit := do
  let lname := removeSpaceEncoding name
  let t ← getTable this
  match t.simpleFind lname with
  | none => pure ()
  | some e =>
    if i = -1 then do
      modifyTable this fun t =>
        { t with attrMap := t.attrMap.eraseP fun e => e.name = lname }
      deleteEntry depth e
    else if e.type = .container then pure ()
    else do
      let attr ← reading fun _ => demand e.attr
      let values ← reading fun m => demand (valuesAt m attr)
      if 0 ≤ i ∧ i < values.length then modifyValues attr (·.eraseIdx i.toNat)
      else throw .undefinedBehaviour

/-- A call that changes the entries of a table. -/
inductive Mutation where
  | appendAttr (name type : List Char) (value : String)
  | appendAttrVector (name type : List Char) (values : List String)
  | appendContainer (name : List Char)
  | appendTable (at' : Nat) (name : List Char)
  | addContainerAlias (name : List Char) (src : Nat)
  | addValueAlias (das : Nat) (name source : List Char)
  | delAttr (name : List Char) (i : Int)
  deriving Repr

def mutate (this : Nat) : Mutation → Call Unit
  | .appendAttr name type value => do let _ ← appendAttr this name type value
  | .appendAttrVector name type values => do let _ ← appendAttrVector this name type values
  | .appendContainer name => do let _ ← appendContainer this name
  | .appendTable at' name => do let _ ← appendTable this at' name
  | .addContainerAlias name src => addContainerAlias this name src
  | .addValueAlias das name source => addValueAlias depth this das name source
  | .delAttr name i => delAttr depth this name i

end

end Libdap.Source.Attributes
