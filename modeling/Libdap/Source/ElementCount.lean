import Libdap.Source.Failure

/-!
# `element_count(true)` of BaseType, Vector, Constructor and Grid

A variable is a tree of types together with the data its Arrays hold. The count of an
Array is taken from its first element, so an Array without data has none to ask. Counts
are `Nat`: a dataset has fewer than `2 ^ 31` variables, and no `int` overflows.
-/
namespace Libdap.Source.ElementCount

/-- What a simple variable keeps: a number in `_buf`, or the text of a Str or Url. -/
inductive SimpleKind where
  | number | text
  deriving DecidableEq, Repr

/-- The type of a variable. A Grid is given by the element type of its array and by its maps. -/
inductive Shape where
  | simple (kind : SimpleKind)
  | array (template : Shape)
  /-- A Structure or a Sequence. -/
  | record (vars : List Shape)
  | grid (template : Shape) (maps : List Shape)

mutual

/-- A variable of a type. An Array either has no `_buf`, no `d_str` and no `_vec`, or an
element to answer for `var(0)`. -/
inductive Variable : Shape → Type where
  | simple (kind : SimpleKind) : Variable (.simple kind)
  | unread (template : Shape) : Variable (.array template)
  | read {template : Shape} (first : Variable template) : Variable (.array template)
  | record {vars : List Shape} (members : Members vars) : Variable (.record vars)
  | grid {template : Shape} {maps : List Shape} (arrayVar : Variable (.array template))
      (mapVars : Members maps) : Variable (.grid template maps)

inductive Members : List Shape → Type where
  | nil : Members []
  | cons {s : Shape} {vars : List Shape} (var : Variable s) (rest : Members vars) :
      Members (s :: vars)

end

/-- `Vector::var(0)` of an Array that has not been read (Vector.cc:434-480). -/
def varOfUnread : Shape → Failure
  | .simple .number => .internalErr "The incoming pointer does not contain any data."
  | _ => .undefinedBehaviour

mutual

/-- `element_count(true)`. -/
def elementCount : {s : Shape} → Variable s → Except Failure Nat
  | _, .simple _ => .ok 1
  | _, .unread template => .error (varOfUnread template)
  | _, .read first => elementCount first
  | _, .record members => memberCounts members
  | _, .grid arrayVar mapVars => do
    mapSteps 0 mapVars
    elementCount arrayVar

/-- The loop of `Constructor::element_count`. -/
def memberCounts : {vars : List Shape} → Members vars → Except Failure Nat
  | _, .nil => .ok 0
  | _, .cons var rest => do
    let i ← elementCount var
    let sum ← memberCounts rest
    .ok (i + sum)

/-- The loop of `Grid::element_count` (Grid.cc:167-169): the count of a map is added to the
iterator, so that many maps are passed over, and none may be missing. -/
def mapSteps : {maps : List Shape} → (passed : Nat) → Members maps → Except Failure Unit
  | _, passed, .nil => if passed = 0 then .ok () else .error .undefinedBehaviour
  | _, 0, .cons var rest => do
    let j ← elementCount var
    mapSteps j rest
  | _, passed + 1, .cons _ rest => mapSteps passed rest

end

end Libdap.Source.ElementCount
