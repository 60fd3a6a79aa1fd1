import Libdap.Library.Ownership
import Libdap.Source.Array

/-!
# Copying and assigning variables

The copy functions of BaseType.cc, Vector.cc, Constructor.cc, Structure.cc,
Sequence.cc and Grid.cc over a memory of objects. A pointer is an address; a
pointer to an object that was deleted, or that never was there, is not
dereferenced but ends the run as undefined behaviour. A virtual function is one
definition that looks at the class of the object.
-/
namespace Libdap.Source.Variables
open Libdap.Library

/-- The `Type` enumeration of BaseType.h. -/
inductive VarType where
  | null | byte | int16 | uint16 | int32 | uint32 | float32 | float64 | str | url
  | array | «structure» | sequence | grid
  | int8 | uint8 | int64 | uint64 | url4 | enum | group
  deriving DecidableEq, Repr

/-- `AttrTable::entry`: values or a container; an alias of either, which in a copy shares what
it stands for; or an attribute whose type is `Attr_unknown`, with none for a pointer that was
never set. -/
inductive AttrEntry where
  | values (name type : String) (attr : List String)
  | container (name : String) (attrMap : List AttrEntry)
  | «alias» (name aliasedTo : String) (shares : Bool)
  | unknown (name : String) (attr : Option (List String))

abbrev AttrTable := List AttrEntry

mutual

/-- `entry(const entry &)`. -/
def AttrEntry.copy : AttrEntry → AttrEntry
  | .values name type attr => .values name type attr
  | .container name attrMap => .container name (copyAttr attrMap)
  | .alias name aliasedTo _ => .alias name aliasedTo true
  | .unknown name _ => .unknown name none

/-- `d_attr = bt.d_attr`. That the copy becomes the parent of a container that an alias stands
for is left out, as nothing here reads it. -/
def copyAttr : AttrTable → AttrTable
  | [] => []
  | e :: rest => e.copy :: copyAttr rest

end

structure BaseType where
  name : String
  type : VarType
  dataset : String
  isRead : Bool
  isSend : Bool
  inSelection : Bool
  isSynthesized : Bool
  attr : AttrTable

/-- The fields of Sequence.h:181-206. -/
structure RowState where
  rowNumber : Int
  startingRowNumber : Int
  rowStride : Int
  endingRowNumber : Int
  unsentData : Bool
  wroteSoi : Bool
  leafSequence : Bool
  topMost : Bool
  deriving DecidableEq, Repr

/-- What the derived classes add; `ρ` is the type of pointers. Beside the template of an Array
stands its type, which is that of its class. -/
inductive Contents (ρ : Type) where
  | simple (value : List UInt8)
  | array (dims : Array.Dims) (template : Option ρ) (type : VarType) (elements : List ρ)
      (strings : List String) (buf : Option (List UInt8)) (capacity : Nat)
  | structure (vars : List ρ)
  | sequence (state : RowState) (vars : List ρ) (values : List (List ρ))
  | grid (vars : List ρ) (arrayVar : Option ρ) (mapVars : List ρ)
  deriving DecidableEq, Repr

structure Variable where
  base : BaseType
  parent : Option Nat
  contents : Contents Nat

abbrev Memory := Heap (Option Variable)

/-- `Constructor::d_vars`. -/
def Variable.vars (v : Variable) : List Nat :=
  match v.contents with
  | .structure vars => vars
  | .sequence _ vars _ => vars
  | .grid vars _ _ => vars
  | _ => []

/-- What the destructor of the class deletes. -/
def Variable.owned (v : Variable) : List Nat :=
  match v.contents with
  | .simple _ => []
  | .array _ template _ elements _ _ _ => template.toList ++ elements
  | .structure vars => vars
  | .sequence _ vars values => vars ++ values.flatten
  | .grid _ arrayVar mapVars => arrayVar.toList ++ mapVars

def setParent (parent : Nat) (v : Variable) : Variable := { v with parent := some parent }

def setContents (contents : Contents Nat) (v : Variable) : Variable := { v with contents }

/-- `d_vars.push_back`. -/
def pushVar (c : Nat) (v : Variable) : Variable :=
  { v with
    contents := match v.contents with
      | .structure vars => .structure (vars ++ [c])
      | .sequence state vars values => .sequence state (vars ++ [c]) values
      | .grid vars arrayVar mapVars => .grid (vars ++ [c]) arrayVar mapVars
      | other => other }

/-- `d_map_vars.push_back` and `d_vars.push_back`. -/
def pushMap (c : Nat) (v : Variable) : Variable :=
  { v with
    contents := match v.contents with
      | .grid vars arrayVar mapVars => .grid (vars ++ [c]) arrayVar (mapVars ++ [c])
      | other => other }

/-- `d_values.push_back`. -/
def pushRow (row : List Nat) (v : Variable) : Variable :=
  { v with
    contents := match v.contents with
      | .sequence state vars values => .sequence state vars (values ++ [row])
      | other => other }

def setState (state : RowState) (v : Variable) : Variable :=
  { v with
    contents := match v.contents with
      | .sequence _ vars values => .sequence state vars values
      | other => other }

/-- `d_array_var = array` and `d_vars.push_back`, once `d_vars` is cleared. -/
def setArray (array : Nat) (v : Variable) : Variable :=
  { v with
    contents := match v.contents with
      | .grid _ _ mapVars => .grid [array] (some array) mapVars
      | other => other }

/-- `d_array_var = 0`. -/
def dropArray (v : Variable) : Variable :=
  { v with
    contents := match v.contents with
      | .grid vars _ mapVars => .grid vars none mapVars
      | other => other }

/-- `BaseType::m_duplicate`. -/
def baseDuplicate (rhs v : Variable) : Variable :=
  { v with base := { rhs.base with attr := copyAttr rhs.base.attr }, parent := rhs.parent }

def fetch (m : Memory) (a : Nat) : Except Failure Variable :=
  match m.lookup a with
  | some v => .ok v
  | none => .error .undefinedBehaviour

/-- The bodies of the copy functions take `ptr_duplicate` as a parameter. -/
abbrev Duplicate := Memory → Nat → Except Failure (Nat × Memory)

section
variable (duplicate : Duplicate)

/-- The loop that copies members: `ptr_duplicate`, `set_parent(this)`, `push_back`. -/
def copyMembers (this : Nat) (push : Nat → Variable → Variable) :
    Memory → List Nat → Except Failure Memory
  | m, [] => .ok m
  | m, c :: cs => do
    let (btp, m) ← duplicate m c
    copyMembers this push ((m.modify btp (setParent this)).modify this (push btp)) cs

/-- The loop that copies values, whose parent is not set. -/
def copyValues : Memory → List Nat → Except Failure (List Nat × Memory)
  | m, [] => .ok ([], m)
  | m, c :: cs => do
    let (btp, m) ← duplicate m c
    let (rest, m) ← copyValues m cs
    pure (btp :: rest, m)

def copyRows (this : Nat) : Memory → List (List Nat) → Except Failure Memory
  | m, [] => .ok m
  | m, row :: rows => do
    let (copy, m) ← copyValues duplicate m row
    copyRows this (m.modify this (pushRow copy)) rows

/-- `Constructor::m_duplicate`. -/
def constructorDuplicate (m : Memory) (this rhs : Nat) : Except Failure Memory := do
  let c ← fetch m rhs
  copyMembers duplicate this pushVar m c.vars

/-- `Sequence::m_duplicate`; `add_var` is that of Constructor. -/
def sequenceDuplicate (m : Memory) (this rhs : Nat) : Except Failure Memory := do
  let s ← fetch m rhs
  match s.contents with
  | .sequence state vars values => do
    let m ← copyMembers duplicate this pushVar (m.modify this (setState state)) vars
    copyRows duplicate this m values
  | _ => .error .undefinedBehaviour

/-- `Grid::m_duplicate`. -/
def gridDuplicate (m : Memory) (this rhs : Nat) : Except Failure Memory := do
  let s ← fetch m rhs
  match s.contents with
  | .grid _ (some arrayVar) mapVars => do
    let (array, m) ← duplicate m arrayVar
    let m := (m.modify array (setParent this)).modify this (setArray array)
    copyMembers duplicate this pushMap m mapVars
  | _ => .error .undefinedBehaviour

/-- The template of an Array is copied and made to know the copy. -/
def copyTemplate (m : Memory) (this : Nat) :
    Option Nat → Except Failure (Option Nat × Memory)
  | none => .ok (none, m)
  | some var => do
    let (var, m) ← duplicate m var
    pure (some var, m.modify var (setParent this))

/-- `_vec`: `d_length` elements of it, if there are any. -/
def copyElements (m : Memory) (length : Int) (elements : List Nat) :
    Except Failure (List Nat × Memory) :=
  if elements = [] then .ok ([], m)
  else if 0 ≤ length ∧ length ≤ elements.length then
    copyValues duplicate m (elements.take length.toNat)
  else .error .undefinedBehaviour

/-- The bytes of a value, for the types whose values are in `_buf`. -/
def VarType.cardinalWidth : VarType → Option Nat
  | .byte => some 1
  | .int16 | .uint16 => some 2
  | .int32 | .uint32 | .float32 => some 4
  | .float64 => some 8
  | _ => none

/-- `width(true)`, an `unsigned int`. -/
def vectorWidth (length : Int) (width : Nat) : Nat := (length % 2 ^ 32).toNat * width % 2 ^ 32

/-- `val2buf(v._buf)`, which takes as many bytes as the length makes; for strings, the bytes
would be taken for strings. -/
def val2buf (type : VarType) (length : Int) (val : List UInt8) : Except Failure (List UInt8) :=
  match type.cardinalWidth with
  | some width =>
    if vectorWidth length width ≤ val.length then .ok (val.take (vectorWidth length width))
    else .error .undefinedBehaviour
  | none =>
    if type = .str ∨ type = .url then .error .undefinedBehaviour
    else .error (.internalErr "Vector::val2buf: bad type")

def copyBuf (type : VarType) (length : Int) : Option (List UInt8) →
    Except Failure (Option (List UInt8))
  | none => .ok none
  | some val => do
    let buf ← val2buf type length val
    pure (some buf)

/-- `Vector::_duplicate` and `Array::_duplicate`. -/
def arrayDuplicate (m : Memory) (this rhs : Nat) : Except Failure Memory := do
  let v ← fetch m rhs
  match v.contents with
  | .array dims template type elements strings buf capacity => do
    let (template, m) ← copyTemplate duplicate m this template
    let (elements, m) ← copyElements duplicate m dims.length elements
    let buf ← copyBuf type dims.length buf
    pure (m.modify this (setContents (.array dims template type elements strings buf capacity)))
  | _ => .error .undefinedBehaviour

end

/-- A new object of the class before its copy function has run. -/
def Contents.blank : Contents Nat → Contents Nat
  | .simple value => .simple value
  | .array dims _ type .. => .array dims none type [] [] none 0
  | .structure _ => .structure []
  | .sequence state _ _ => .sequence state [] []
  | .grid .. => .grid [] none []

/-- A new object with the fields of BaseType. -/
def Variable.blank (v : Variable) : Variable :=
  { v with base := { v.base with attr := copyAttr v.base.attr }, contents := v.contents.blank }

/-- What the copy constructor of the class does once BaseType's fields are copied. -/
def classDuplicate (duplicate : Duplicate) (contents : Contents Nat) (m : Memory)
    (this rhs : Nat) : Except Failure Memory :=
  match contents with
  | .simple _ => .ok m
  | .array .. => arrayDuplicate duplicate m this rhs
  | .structure _ => constructorDuplicate duplicate m this rhs
  | .sequence .. => sequenceDuplicate duplicate m this rhs
  | .grid .. => gridDuplicate duplicate m this rhs

/-- `ptr_duplicate` through the copy constructor of the class. The first argument
bounds how deep variables are nested. -/
def ptrDuplicate : Nat → Duplicate
  | 0, _, _ => .error .outOfFuel
  | depth + 1, m, rhs => do
    let v ← fetch m rhs
    let this := m.size
    let m := m.alloc (some v.blank)
    let m ← classDuplicate (ptrDuplicate depth) v.contents m this rhs
    pure (this, m)

/-- `delete`: the destructor of the class, then the memory. -/
def destroy : Nat → Memory → Nat → Except Failure Memory
  | 0, _, _ => .error .outOfFuel
  | depth + 1, m, a => do
    let v ← fetch m a
    let m ← v.owned.foldlM (destroy depth) m
    pure (m.free a)

section
variable (depth : Nat)

/-- `Constructor::operator=`. -/
def constructorAssign (m : Memory) (this rhs : Nat) : Except Failure Memory := do
  let v ← fetch m rhs
  constructorDuplicate (ptrDuplicate depth) (m.modify this (baseDuplicate v)) this rhs

/-- `Structure::operator=`; the `m_duplicate` it calls is that of Constructor. -/
def structureAssign (m : Memory) (this rhs : Nat) : Except Failure Memory :=
  if this = rhs then .ok m
  else do
    let m ← constructorAssign depth m this rhs
    constructorDuplicate (ptrDuplicate depth) m this rhs

/-- `Sequence::operator=`. -/
def sequenceAssign (m : Memory) (this rhs : Nat) : Except Failure Memory :=
  if this = rhs then .ok m
  else do
    let m ← constructorAssign depth m this rhs
    sequenceDuplicate (ptrDuplicate depth) m this rhs

/-- Lines 126-131 of Grid.cc: the array and the maps are deleted. -/
def deleteParts (m : Memory) (this : Nat) : Except Failure Memory := do
  let v ← fetch m this
  match v.contents with
  | .grid _ arrayVar mapVars => do
    let m ← arrayVar.toList.foldlM (destroy depth) m
    mapVars.foldlM (destroy depth) (m.modify this dropArray)
  | _ => .error .undefinedBehaviour

/-- `Grid::operator=`. -/
def gridAssign (m : Memory) (this rhs : Nat) : Except Failure Memory :=
  if this = rhs then .ok m
  else do
    let m ← deleteParts depth m this
    let m ← constructorAssign depth m this rhs
    gridDuplicate (ptrDuplicate depth) m this rhs

/-- `lhs = rhs` for two variables of one class. -/
def assign (m : Memory) (lhs rhs : Nat) : Except Failure Memory := do
  let v ← fetch m lhs
  match v.contents with
  | .structure _ => structureAssign depth m lhs rhs
  | .sequence .. => sequenceAssign depth m lhs rhs
  | .grid .. => gridAssign depth m lhs rhs
  | _ => .error .undefinedBehaviour

end

end Libdap.Source.Variables
