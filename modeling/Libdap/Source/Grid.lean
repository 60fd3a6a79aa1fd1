import Libdap.Source.Variables

/-!
# Grid.cc: adding parts to a Grid

Each part is recorded in `d_array_var` or `d_map_vars` and again in `d_vars`. A null
pointer is `none`.
-/
namespace Libdap.Source.Grid
open Libdap.Library Libdap.Source.Variables

/-- `Part` of BaseType.h, as far as `add_var` tells its values apart. -/
inductive Part where
  | nil | array | maps
  deriving DecidableEq, Repr

def isArray (v : Variable) : Bool :=
  match v.contents with
  | .array .. => true
  | _ => false

def arrayVar (v : Variable) : Option Nat :=
  match v.contents with
  | .grid _ arrayVar _ => arrayVar
  | _ => none

def mapVars (v : Variable) : List Nat :=
  match v.contents with
  | .grid _ _ mapVars => mapVars
  | _ => []

/-- `d_array_var = p`. -/
def replaceArray (p : Nat) (v : Variable) : Variable :=
  { v with
    contents := match v.contents with
      | .grid vars _ mapVars => .grid vars (some p) mapVars
      | other => other }

/-- Both lists get the map at their front. -/
def prepend (p : Nat) (v : Variable) : Variable :=
  { v with
    contents := match v.contents with
      | .grid vars arrayVar mapVars => .grid (p :: vars) arrayVar (p :: mapVars)
      | other => other }

section
variable (depth : Nat)

/-- `set_array`. -/
def setArrayVar (m : Memory) (this : Nat) : Option Nat → Except Failure Memory
  | none => .error (.internalErr "Grid::set_array(): Cannot set to null!")
  | some p => do
    let g ← fetch m this
    if arrayVar g = some p then pure m
    else do
      let m ← (arrayVar g).toList.foldlM (destroy depth) m
      let _ ← fetch m this
      let _ ← fetch m p
      pure ((m.modify this (replaceArray p)).modify p (setParent this))

/-- The cast to `Array *` that `add_var` makes, for the two cases that set the array. -/
def asArray (m : Memory) (bt : Nat) : Except Failure Unit := do
  let v ← fetch m bt
  if isArray v then pure ()
  else .error (.internalErr "Grid::add_var(): with Part==array: object is not an Array!")

def alreadySet : Failure :=
  .internalErr
    "Error: Grid::add_var called with part==Array, but the array was already set!"

def nullPart : Failure := .internalErr "Passing NULL pointer as variable to be added."

/-- Whether `add_var` takes its argument for the array. -/
def takesArray (g : Variable) (part : Part) : Bool :=
  match part with
  | .array => true
  | .maps => false
  | .nil => (arrayVar g).isNone

/-- `add_var`. -/
def addVar (m : Memory) (this : Nat) (bt : Option Nat) (part : Part) :
    Except Failure Memory :=
  match bt with
  | none => .error nullPart
  | some bt => do
    let g ← fetch m this
    if part = .array ∧ (arrayVar g).isSome then .error alreadySet
    else if takesArray g part then do
      asArray m bt
      let (clone, m) ← ptrDuplicate depth m bt
      let m ← setArrayVar depth m this (some clone)
      pure (m.modify this (pushVar clone))
    else do
      let (clone, m) ← ptrDuplicate depth m bt
      pure ((m.modify clone (setParent this)).modify this (pushMap clone))

/-- `add_var_nocopy`. -/
def addVarNocopy (m : Memory) (this : Nat) (bt : Option Nat) (part : Part) :
    Except Failure Memory :=
  match bt with
  | none => .error nullPart
  | some bt => do
    let g ← fetch m this
    if part = .array ∧ (arrayVar g).isSome then .error alreadySet
    else do
      let _ ← fetch m bt
      let m := m.modify bt (setParent this)
      if takesArray g part then do
        asArray m bt
        let m ← setArrayVar depth m this (some bt)
        pure (m.modify this (pushVar bt))
      else pure (m.modify this (pushMap bt))

/-- The copy that `add_map` and `prepend_map` make if they are told to. -/
def copyMap (m : Memory) (p : Nat) (asCopy : Bool) : Except Failure (Nat × Memory) :=
  if asCopy then ptrDuplicate depth m p
  else do
    let _ ← fetch m p
    pure (p, m)

/-- `add_map`. -/
def addMap (m : Memory) (this : Nat) (p : Option Nat) (asCopy : Bool) :
    Except Failure Memory :=
  match p with
  | none => .error (.internalErr "Grid::add_map(): cannot have p_new_map null!")
  | some p => do
    let (p, m) ← copyMap depth m p asCopy
    pure ((m.modify p (setParent this)).modify this (pushMap p))

/-- `prepend_map` does not look whether its argument is null. -/
def prependMap (m : Memory) (this : Nat) (p : Option Nat) (asCopy : Bool) :
    Except Failure Memory :=
  match p with
  | none => .error .undefinedBehaviour
  | some p => do
    let (p, m) ← copyMap depth m p asCopy
    pure ((m.modify p (setParent this)).modify this (prepend p))

/-- A call on a Grid. After a copy construction the run goes on with the copy. -/
inductive Call where
  | addVar (bt : Option Nat) (part : Part)
  | addVarNocopy (bt : Option Nat) (part : Part)
  | setArray (p : Option Nat)
  | addMap (p : Option Nat) (asCopy : Bool)
  | prependMap (p : Option Nat) (asCopy : Bool)
  | copyConstruct
  deriving Repr

/-- A call on the Grid at `this`; the result says where the Grid is afterwards. -/
def call (m : Memory) (this : Nat) : Call → Except Failure (Memory × Nat)
  | .addVar bt part => (addVar depth m this bt part).map (·, this)
  | .addVarNocopy bt part => (addVarNocopy depth m this bt part).map (·, this)
  | .setArray p => (setArrayVar depth m this p).map (·, this)
  | .addMap p asCopy => (addMap depth m this p asCopy).map (·, this)
  | .prependMap p asCopy => (prependMap depth m this p asCopy).map (·, this)
  | .copyConstruct => (ptrDuplicate depth m this).map fun copy => (copy.2, copy.1)

end

end Libdap.Source.Grid
