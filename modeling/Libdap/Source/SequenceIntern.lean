import Libdap.Library.Heap
import Libdap.Source.Sequence

/-!
# Sequence.cc: interning the values of nested Sequences

`intern_data` fills `d_values` of the top-most Sequence on the server. It walks the
levels as `serialize` does; where the rows of each level go, a stack of pointers to
`d_values` fields says. A `d_values` is a table on a heap. The Sequences of the `dds`
below the top hold no values themselves, so their copies start empty.
-/
namespace Libdap.Source.Sequence
open Libdap.Library

/-- A row in `d_values`: copies of the projected variables, and the `d_values` of the
copied child Sequence, if there is one. -/
structure InternedRow (V : Type) where
  values : List V
  child : Option Nat
  deriving DecidableEq, Repr

abbrev Tables (V : Type) := Heap (List (InternedRow V))

/-- All `d_values` there are, and the `sequence_values_stack` with its top first. -/
structure Interned (V : Type) where
  tables : Tables V
  stack : List Nat

variable {V : Type}

def tableAt (tables : Tables V) (values : Nat) : List (InternedRow V) :=
  (tables.read values).getD []

/-- The tree below the rows of a table, `depth` levels deep. -/
def rowsOf (tables : Tables V) : Nat → List (InternedRow V) → List (Row V)
  | 0, rows => rows.map fun r => .mk r.values []
  | depth + 1, rows =>
    rows.map fun r =>
      .mk r.values (match r.child with
        | none => []
        | some child => rowsOf tables depth (tableAt tables child))

def addRow (row : InternedRow V) (rows : List (InternedRow V)) : List (InternedRow V) :=
  rows ++ [row]

namespace Interned

/-- `top` of an empty stack is undefined. -/
def top (m : Interned V) : Except Failure Nat :=
  match m.stack with
  | [] => .error .undefinedBehaviour
  | values :: _ => .ok values

def pop (m : Interned V) : Except Failure (Interned V) :=
  match m.stack with
  | [] => .error .undefinedBehaviour
  | _ :: stack => .ok { m with stack }

def push (m : Interned V) (values : Nat) : Interned V := { m with stack := values :: m.stack }

/-- `ptr_duplicate` of a Sequence without values. -/
def duplicate (m : Interned V) : Nat × Interned V :=
  (m.tables.size, { m with tables := m.tables.alloc [] })

def pushBack (m : Interned V) (values : Nat) (row : InternedRow V) : Interned V :=
  { m with tables := m.tables.update values (addRow row) }

end Interned

/-- `intern_data_parent_part_two` of the nearest ancestor, which starts with its own.
The child it copies is the one it is called from, which is projected. -/
def internDataParentPartTwo : List (Sequence V) → Interned V →
    Except Failure (List (Sequence V) × Interned V)
  | [], m => .ok ([], m)
  | s :: above, m => do
    let (above, m) ← internDataParentPartTwo above m
    let values ← m.top
    if s.unsentData then
      let (child, m) := m.duplicate
      pure ({ s with unsentData := false } :: above,
        (m.push child).pushBack values ⟨project s.fieldSendP s.fields, some child⟩)
    else pure (s :: above, m)

/-- The body of the loop in `intern_data_for_leaf` up to the next read; a child of a
leaf is copied like any other variable. -/
def internRow (values : Nat) (p : Place V (Interned V)) :
    Except Failure (Place V (Interned V)) :=
  let (child, m) := match p.below with
    | [] => (none, p.sink)
    | child :: _ =>
      if child.sendP then (some p.sink.duplicate.1, p.sink.duplicate.2) else (none, p.sink)
  .ok { p with sink := m.pushBack values ⟨project p.self.fieldSendP p.self.fields, child⟩ }

def internDataForLeaf (select : Selection V) (p : Place V (Interned V)) :
    Except Failure (Place V (Interned V)) := do
  let i := p.self.firstRow
  let (status, p) ← p.readRow select true i
  if status && !p.self.isEndOfRows i then do
    let (above, sink) ← internDataParentPartTwo p.above p.sink
    let p := { p with above, sink }
    let values ← p.sink.top
    let p ← leafLoop select true (internRow values) p.self.turns i status p
    let sink ← p.sink.pop
    pure { p with sink }
  else pure p

def internDataParentPartOne (select : Selection V)
    (internChild : Place V (Interned V) → Except Failure (Place V (Interned V)))
    (p : Place V (Interned V)) : Except Failure (Place V (Interned V)) := do
  let i := p.self.firstRow
  let (status, p) ← p.readRow select false i
  let origStackSize := p.sink.stack.length
  let p ← parentLoop select internChild p.self.turns i status p
  let p := { p with self := { p.self with rowNumber := -1 } }
  if p.sink.stack.length > origStackSize then do
    let sink ← p.sink.pop
    pure { p with sink }
  else pure p

/-- `intern_data_private` of a Sequence with at most `depth` levels. -/
def internDataPrivate (select : Selection V) : Nat → Place V (Interned V) →
    Except Failure (Place V (Interned V))
  | 0, _ => .error .outOfFuel
  | depth + 1, p =>
    if p.self.leafSequence then internDataForLeaf select p
    else internDataParentPartOne select (internDataPrivate select depth) p

/-- `intern_data` of the top-most of these levels; its own `d_values` is table 0. -/
def internData (select : Selection V) : List (Sequence V) → Except Failure (Interned V)
  | [] => .error .undefinedBehaviour
  | self :: below => do
    let m : Interned V := { tables := ⟨[[]]⟩, stack := [] }
    let p ← internDataPrivate select (below.length + 1)
      { above := [], self, below, sink := m.push 0 }
    pure p.sink

end Libdap.Source.Sequence
