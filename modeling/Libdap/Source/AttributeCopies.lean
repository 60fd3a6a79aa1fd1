import Libdap.Source.Attributes

/-!
# AttrTable.cc: copies and the printed form of attribute tables

A copy keeps the pointers of aliases. `entry(const entry &)` does not set the pointers
that `entry::clone` leaves alone, and none at all for an attribute of unknown type: they
are `garbage`. The first number some functions take bounds how deep tables are nested.
-/
namespace Libdap.Source.Attributes
open Libdap.Library

def isQuoted (s : List Char) : Bool :=
  s.head? = some (Char.ofNat 34) && s.getLast? = some (Char.ofNat 34)

/-- 92 is the backslash, 34 the double quote. -/
def escapeDoubleQuotes (s : List Char) : List Char :=
  s.flatMap fun c => if c = Char.ofNat 34 then [Char.ofNat 92, c] else [c]

/-- `write_string_attribute_for_das`, `write_xml_attribute_for_das`, or the value alone. -/
def writeAttribute (type : AttrType) (value term : List Char) : List Char :=
  let quoted (s : List Char) :=
    if isQuoted value then s else [Char.ofNat 34] ++ s ++ [Char.ofNat 34]
  match type with
  | .string => quoted value ++ term
  | .otherXml => quoted (escapeDoubleQuotes value) ++ term
  | _ => value ++ term

/-- The loop up to the last value, which an empty vector does not have. -/
def writeValues (type : AttrType) : List String → Except Failure (List Char)
  | [] => .error .undefinedBehaviour
  | [last] => pure (writeAttribute type last.toList ";\n".toList)
  | value :: next :: values => do
    let rest ← writeValues type (next :: values)
    pure (writeAttribute type value.toList ", ".toList ++ rest)

def simplePrint (m : Memory) (printBelow : Nat → List Char → Except Failure (List Char))
    (pad : List Char) (e : Entry) : Except Failure (List Char) :=
  if e.type = .container then do
    let at' ← demand e.attributes
    let body ← printBelow at' (pad ++ "    ".toList)
    pure (pad ++ addSpaceEncoding e.name ++ " \x7b\n".toList ++ body ++ pad ++ "\x7d\n".toList)
  else do
    let attr ← demand e.attr
    let values ← demand (valuesAt m attr)
    let written ← writeValues e.type values
    pure (pad ++ (typeToString e.type).toList ++ [' '] ++ addSpaceEncoding e.name ++ [' '] ++
      written)

/-- One turn of the loop of `print`. -/
def printEntry (m : Memory) (dereference : Bool)
    (printBelow : Nat → List Char → Except Failure (List Char)) (pad : List Char) (e : Entry) :
    Except Failure (List Char) :=
  if e.isAlias && !dereference then
    pure (pad ++ "Alias ".toList ++ addSpaceEncoding e.name ++ [' '] ++
      addSpaceEncoding e.aliasedTo ++ ";\n".toList)
  else simplePrint m printBelow pad e

/-- `print`; an alias of a table around it has no end. -/
def printTable (m : Memory) (dereference : Bool) : Nat → Nat → List Char →
    Except Failure (List Char)
  | 0, _, _ => .error .outOfFuel
  | fuel + 1, at', pad => do
    let t ← demand (tableAt m at')
    let texts ← t.attrMap.mapM (printEntry m dereference (printTable m dereference fuel) pad)
    pure texts.flatten

section
variable (garbage : Option Nat)

/-- `new AttrTable(*src)`. -/
def newCopy (clone : Nat → Nat → Call Unit) (src : Nat) : Call Nat := do
  let copy ← allocate (.table emptyTable)
  clone copy src
  pure copy

/-- `entry::clone` into a new entry. -/
def cloneEntry (clone : Nat → Nat → Call Unit) (rhs : Entry) : Call Entry :=
  let e := { rhs with attributes := garbage, attr := garbage }
  match rhs.type with
  | .unknown => pure e
  | .container =>
    if rhs.isAlias then pure { e with attributes := rhs.attributes }
    else do
      let src ← reading fun _ => demand rhs.attributes
      let at' ← newCopy clone src
      pure { e with attributes := some at' }
  | _ =>
    if rhs.isAlias then pure { e with attr := rhs.attr }
    else do
      let src ← reading fun _ => demand rhs.attr
      let values ← reading fun m => demand (valuesAt m src)
      let attr ← allocate (.values values)
      pure { e with attr := some attr }

/-- Name and mark are copied, and the parent is set to null. -/
def cloneHead (rhs own : AttrTable) : AttrTable :=
  { own with name := rhs.name, isGlobalAttribute := rhs.isGlobalAttribute, parent := none }

def setParent (this : Nat) (own : AttrTable) : AttrTable := { own with parent := some this }

/-- One turn of the loop of `clone`: a container, also one of an alias, gets a new parent. -/
def cloneTurn (clone : Nat → Nat → Call Unit) (this : Nat) (rhs : Entry) : Call Unit := do
  let e ← cloneEntry garbage clone rhs
  modifyTable this (pushEntry e)
  if e.type = .container then do
    let below ← reading fun _ => demand e.attributes
    let _ ← getTable below
    modifyTable below (setParent this)
  else pure ()

/-- `AttrTable::clone`. -/
def cloneTable : Nat → Nat → Nat → Call Unit
  | 0, _, _ => throw .outOfFuel
  | depth + 1, this, at' => do
    let t ← getTable at'
    modifyTable this (cloneHead t)
    t.attrMap.forM (cloneTurn garbage (cloneTable depth) this)

/-- The copy constructor. -/
def copyTable (depth src : Nat) : Call Nat := newCopy (cloneTable garbage depth) src

/-- `operator=`. -/
def assignTable (depth lhs rhs : Nat) : Call Unit :=
  if lhs = rhs then pure ()
  else do
    let t ← getTable lhs
    t.attrMap.forM (deleteEntry depth)
    modifyTable lhs fun own => { own with attrMap := [] }
    cloneTable garbage depth lhs rhs

end

end Libdap.Source.Attributes
