import Mathlib.Tactic
import Libdap.Source.Sequence

/-!
# Sequence.cc: sending a one-level Sequence

A Sequence without children, with the row constraint a constraint expression may give
it. The numbers of the constraint are `int`s.
-/
namespace Libdap.Source.SequenceRows
open Sequence
variable {V : Type}

/-- The bracket notation behind a Sequence's name, as `set_row_number_constraint`
accepts it from the parser. -/
structure RowConstraint where
  start : Nat
  stop : Nat
  stride : Nat
  ordered : start ≤ stop
  positive : 1 ≤ stride
  stop_int : stop < 2 ^ 31
  stride_int : stride < 2 ^ 31

/-- `serialize` with `ce_eval` on, of a Sequence that is both top-most and leaf. -/
def sendFlat (select : Selection V) (mask : List Bool) (rows : List (Row V))
    (constraint : Option RowConstraint) : Except Failure (Stream V) := do
  let flat := { make mask rows with leafSequence := true, topMost := true }
  let self ← match constraint with
    | none => .ok flat
    | some c => flat.setRowNumberConstraint c.start c.stop c.stride
  send select [self]

end Libdap.Source.SequenceRows
