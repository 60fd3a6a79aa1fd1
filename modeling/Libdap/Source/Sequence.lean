import Mathlib.Tactic
import Libdap.Source.Failure

/-!
# Sequence.cc: reading, sending and receiving nested Sequences

A hierarchy of Sequences, each with at most one child that is declared last, is
the list of its levels; `Place` is one level with those above it (nearest first)
and below it, and the sink its values go to. The data source is a tree of rows
read under the discipline of TestSequence: `read` moves one row on and reads the
first row of the child. What a variable reads, it reads only when it is
projected or in the selection; other variables have no values here. The row a loop
asks for next is an `int`: a sum past the largest of them is undefined. A row counted
stays below one that is asked for. A marshaller hands back the tokens it was given.
-/
namespace Libdap.Source.Sequence

/-- A row of the data source: the values of the level's own variables, and below
a parent the rows of the child's instance. -/
inductive Row (V : Type) where
  | mk (values : List V) (children : List (Row V))

variable {V : Type}

def Row.values : Row V → List V
  | mk values _ => values

def Row.children : Row V → List (Row V)
  | mk _ children => children

structure Sequence (V : Type) where
  rowNumber : Int
  startingRowNumber : Int
  rowStride : Int
  endingRowNumber : Int
  unsentData : Bool
  wroteSoi : Bool
  leafSequence : Bool
  topMost : Bool
  readP : Bool
  sendP : Bool
  inSelection : Bool
  /-- `send_p` of the level's own variables. -/
  fieldSendP : List Bool
  /-- Their values, once a row has been read. -/
  fields : List V
  /-- The instance the surrogate reads (`d_len` rows) and its `d_current`. -/
  rows : List (Row V)
  current : Nat

/-- The constructors of Sequence (lines 170-195) and TestSequence. -/
def make (fieldSendP : List Bool) (rows : List (Row V)) : Sequence V :=
  { rowNumber := -1, startingRowNumber := -1, rowStride := 1, endingRowNumber := -1,
    unsentData := false, wroteSoi := false, leafSequence := false, topMost := false,
    readP := false, sendP := true, inSelection := false, fieldSendP, fields := [], rows,
    current := 0 }

/-- The values of the projected variables. -/
def project (fieldSendP : List Bool) (fields : List V) : List V :=
  (fieldSendP.zip fields).filterMap fun (sendP, v) => if sendP then some v else none

/-- One level, its ancestors from the nearest on, its descendants and a sink. -/
structure Place (V σ : Type) where
  above : List (Sequence V)
  self : Sequence V
  below : List (Sequence V)
  sink : σ

section
variable {σ : Type}

/-- `Constructor::set_read_p`. -/
def Place.setReadP (p : Place V σ) (state : Bool) : Place V σ :=
  { p with
    self := { p.self with readP := state },
    below := p.below.map fun s => { s with readP := state } }

/-- `TestSequence::read` of the level itself, and the row it moved to, if any. -/
def Sequence.advance (rows : List (Row V)) (s : Sequence V) : Sequence V × Option (Row V) :=
  if s.readP then ({ s with rows }, none)
  else
    match rows[s.current]? with
    | none => ({ s with rows, current := 0, unsentData := false, rowNumber := -1 }, none)
    | some row =>
      ({ s with rows, current := s.current + 1, fields := row.values, unsentData := true },
        some row)

/-- `TestSequence::read` on an instance; true is its answer at the end of it. -/
def readInstance (rows : List (Row V)) (s : Sequence V) :
    List (Sequence V) → Sequence V × List (Sequence V) × Bool
  | [] =>
    let (s, row) := s.advance rows
    (s, [], row.isNone)
  | child :: rest =>
    match s.advance rows with
    | (s, none) => (s, child :: rest, true)
    | (s, some row) =>
      if child.sendP || child.inSelection then
        let (child, rest, _) := readInstance row.children child rest
        (s, child :: rest, false)
      else (s, child :: rest, false)

def Place.read (p : Place V σ) : Bool × Place V σ :=
  let (self, below, eof) := readInstance p.self.rows p.self p.below
  (eof, { p with self, below })

/-- `eval_selection` looks at the current values, from this level upwards. -/
abbrev Selection (V : Type) := List (List V) → Bool

def Place.selected (select : Selection V) (p : Place V σ) : Bool :=
  select (p.self.fields :: p.above.map Sequence.fields)

/-- One turn of the loop in `read_row` (lines 694-706). -/
def Place.readTurn (select : Selection V) (ceEval : Bool) (p : Place V σ) : Bool × Place V σ :=
  let (eof, p) := if p.self.readP then (false, p) else p.read
  let p := if !eof && (!ceEval || p.selected select) then
      { p with self := { p.self with rowNumber := p.self.rowNumber + 1 } }
    else p
  (eof, p.setReadP false)

def Place.readLoop (select : Selection V) (ceEval : Bool) (row : Int) :
    Nat → Bool → Place V σ → Except Failure (Bool × Place V σ)
  | 0, _, _ => .error .outOfFuel
  | fuel + 1, eof, p =>
    if !eof && p.self.rowNumber < row then
      let (eof, p) := p.readTurn select ceEval
      readLoop select ceEval row fuel eof p
    else .ok (eof, p)

/-- `read_row`; a turn per row of the instance and two more are enough. -/
def Place.readRow (select : Selection V) (ceEval : Bool) (row : Int) (p : Place V σ) :
    Except Failure (Bool × Place V σ) :=
  if row < p.self.rowNumber then
    .error (.internalErr "Trying to back up inside a sequence!")
  else if row = p.self.rowNumber then .ok (false, p)
  else do
    let (eof, p) ← p.readLoop select ceEval row (p.self.rows.length + 3) false
    pure (!eof, p.setReadP true)

def Sequence.isEndOfRows (s : Sequence V) (i : Int) : Bool :=
  if s.endingRowNumber = -1 then false else decide (i > s.endingRowNumber)

/-- `set_row_number_constraint`. -/
def Sequence.setRowNumberConstraint (s : Sequence V) (start stop stride : Int) :
    Except Failure (Sequence V) :=
  if stop < start then
    .error (.error .malformedExpr "Starting row number must precede the ending row number.")
  else
    .ok { s with startingRowNumber := start, rowStride := stride, endingRowNumber := stop }

def Sequence.firstRow (s : Sequence V) : Int :=
  if s.startingRowNumber ≠ -1 then s.startingRowNumber else 0

/-- A call on the child Sequence, if there is one and it is projected. -/
def Place.onChild (call : Place V σ → Except Failure (Place V σ)) (p : Place V σ) :
    Except Failure (Place V σ) :=
  match p.below with
  | [] => .ok p
  | child :: rest =>
    if child.sendP then do
      let q ← call { above := p.self :: p.above, self := child, below := rest, sink := p.sink }
      match q.above with
      | [] => .error .undefinedBehaviour
      | self :: above => .ok { above, self, below := q.self :: q.below, sink := q.sink }
    else .ok p

/-- `i += d_row_stride`. -/
def nextRow (i stride : Int) : Except Failure Int :=
  if i + stride < 2 ^ 31 then .ok (i + stride) else .error .undefinedBehaviour

/-- The loop of the two `..._parent_part_one`: a call on the child for each row. -/
def parentLoop (select : Selection V) (call : Place V σ → Except Failure (Place V σ)) :
    Nat → Int → Bool → Place V σ → Except Failure (Place V σ)
  | 0, _, _, _ => .error .outOfFuel
  | fuel + 1, i, status, p =>
    if status && !p.self.isEndOfRows i then do
      let i ← nextRow i p.self.rowStride
      let p ← p.onChild call
      let (status, p) ← (p.setReadP false).readRow select false i
      parentLoop select call fuel i status p
    else .ok p

/-- The loop of the two leaf functions: `emit` hands the current row on. -/
def leafLoop (select : Selection V) (ceEval : Bool)
    (emit : Place V σ → Except Failure (Place V σ)) :
    Nat → Int → Bool → Place V σ → Except Failure (Place V σ)
  | 0, _, _, _ => .error .outOfFuel
  | fuel + 1, i, status, p =>
    if status && !p.self.isEndOfRows i then do
      let i ← nextRow i p.self.rowStride
      let p ← emit p
      let (status, p) ← (p.setReadP false).readRow select ceEval i
      leafLoop select ceEval emit fuel i status p
    else .ok p

/-- The turns a loop over the rows of an instance may need. -/
def Sequence.turns (s : Sequence V) : Nat := s.rows.length + 3

end

/-! ## Sending -/

def endOfSequence : UInt8 := 0xA5
def startOfInstance : UInt8 := 0x5A

inductive Token (V : Type) where
  | marker (m : UInt8)
  | value (v : V)
  deriving DecidableEq, Repr

abbrev Stream (V : Type) := List (Token V)

def writeStartOfInstance (out : Stream V) : Stream V := out ++ [.marker startOfInstance]
def writeEndOfSequence (out : Stream V) : Stream V := out ++ [.marker endOfSequence]

/-- `serialize` of the projected variables that are not Sequences. `read_row` has set
`read_p` for all of them. -/
def Sequence.putFields (s : Sequence V) (out : Stream V) : Stream V :=
  out ++ (project s.fieldSendP s.fields).map .value

/-- `serialize_parent_part_two` of the nearest ancestor, which starts with its own. -/
def serializeParentPartTwo : List (Sequence V) → Stream V → List (Sequence V) × Stream V
  | [], out => ([], out)
  | s :: above, out =>
    let (above, out) := serializeParentPartTwo above out
    if s.unsentData then
      ({ s with wroteSoi := true, unsentData := false } :: above,
        s.putFields (writeStartOfInstance out))
    else (s :: above, out)

def Place.partTwo (p : Place V (Stream V)) : Place V (Stream V) :=
  let (above, sink) := serializeParentPartTwo p.above p.sink
  { p with above, sink }

/-- The body of the loop in `serialize_leaf` up to the next read (lines 942-955). -/
def sendRow (serializeChild : Place V (Stream V) → Except Failure (Place V (Stream V)))
    (p : Place V (Stream V)) : Except Failure (Place V (Stream V)) :=
  { p with
    self := { p.self with wroteSoi := true },
    sink := p.self.putFields (writeStartOfInstance p.sink) }.onChild serializeChild

def serializeLeaf (select : Selection V) (ceEval : Bool)
    (serializeChild : Place V (Stream V) → Except Failure (Place V (Stream V)))
    (p : Place V (Stream V)) : Except Failure (Place V (Stream V)) := do
  let i := p.self.firstRow
  let (status, p) ← p.readRow select ceEval i
  let p := if status && !p.self.isEndOfRows i then p.partTwo else p
  let p := { p with self := { p.self with wroteSoi := false } }
  let p ← leafLoop select ceEval (sendRow serializeChild) p.self.turns i status p
  if p.self.wroteSoi || p.self.topMost then
    pure { p with sink := writeEndOfSequence p.sink }
  else pure p

def serializeParentPartOne (select : Selection V)
    (serializeChild : Place V (Stream V) → Except Failure (Place V (Stream V)))
    (p : Place V (Stream V)) : Except Failure (Place V (Stream V)) := do
  let i := p.self.firstRow
  let (status, p) ← p.readRow select false i
  let p ← parentLoop select serializeChild p.self.turns i status p
  let p := { p with self := { p.self with rowNumber := -1 } }
  if p.self.topMost || p.self.wroteSoi then
    pure { p with self := { p.self with wroteSoi := false }, sink := writeEndOfSequence p.sink }
  else pure p

/-- `serialize` of a Sequence with at most `depth` levels; its children are called
with `ce_eval` on, the default. -/
def serialize (select : Selection V) : Nat → Bool → Place V (Stream V) →
    Except Failure (Place V (Stream V))
  | 0, _, _ => .error .outOfFuel
  | depth + 1, ceEval, p =>
    if p.self.leafSequence then serializeLeaf select ceEval (serialize select depth true) p
    else serializeParentPartOne select (serialize select depth true) p

/-- `serialize` of the top-most of these levels, onto an empty stream. -/
def send (select : Selection V) : List (Sequence V) → Except Failure (Stream V)
  | [] => .error .undefinedBehaviour
  | self :: below => do
    let p ← serialize select (below.length + 1) true { above := [], self, below, sink := [] }
    pure p.sink

/-- `set_leaf_sequence` on a hierarchy (lines 1518-1551). -/
def setLeafSequence (lvl : Int) (s : Sequence V) : List (Sequence V) → List (Sequence V)
  | [] => [{ s with topMost := s.topMost || decide (lvl = 1), leafSequence := true }]
  | child :: below =>
    let s := { s with topMost := s.topMost || decide (lvl = 1), leafSequence := !child.sendP }
    if child.sendP then s :: setLeafSequence (lvl + 1) child below
    else s :: child :: below

/-! ## Receiving -/

/-- The `dds` a client receives into, when it is a DataDDS. -/
structure DataDDS where
  protocolMajor : Int
  protocol : String
  deriving DecidableEq, Repr

def getValue : Stream V → Except Failure (V × Stream V)
  | .value v :: rest => .ok (v, rest)
  | _ => .error .streamFailure

def readMarker : Stream V → Except Failure (UInt8 × Stream V)
  | .marker m :: rest => .ok (m, rest)
  | _ => .error .streamFailure

def getValues : Nat → Stream V → Except Failure (List V × Stream V)
  | 0, stream => .ok ([], stream)
  | n + 1, stream => do
    let (v, stream) ← getValue stream
    let (vs, stream) ← getValues n stream
    pure (v :: vs, stream)

/-- The two tests before the loop of `deserialize`. -/
def checkProtocol : Option DataDDS → Except Failure Unit
  | none => .error (.internalErr "Expected argument 'dds' to be a DataDDS!")
  | some dd =>
    if dd.protocolMajor < 2 then
      .error (.error .unknownError ("The protocl version (" ++ dd.protocol ++
        ") indicates that this\nis an old server which may not correctly transmit Sequence " ++
        "variables.\nContact the server administrator."))
    else .ok ()

/-- The loop of `deserialize` for a Sequence with `width` variables, and below it those
of the levels `below`; each turn and each call on a child takes one unit of the bound. -/
def deserializeRows (dds : Option DataDDS) : Nat → Nat → List Nat → Stream V →
    Except Failure (List (Row V) × Stream V)
  | 0, _, _, _ => .error .outOfFuel
  | fuel + 1, width, below, stream => do
    let (marker, stream) ← readMarker stream
    if marker = endOfSequence then pure ([], stream)
    else if marker = startOfInstance then do
      let (values, stream) ← getValues width stream
      let (children, stream) ← match below with
        | [] => pure ([], stream)
        | child :: rest => do
          checkProtocol dds
          deserializeRows dds fuel child rest stream
      let (rows, stream) ← deserializeRows dds fuel width below stream
      pure (.mk values children :: rows, stream)
    else
      .error (.error .unknownError "I could not read the expected Sequence data stream marker!")

/-- `deserialize`; the result is `d_values` and what is left of the stream. -/
def deserialize (dds : Option DataDDS) (fuel width : Nat) (below : List Nat)
    (stream : Stream V) : Except Failure (List (Row V) × Stream V) := do
  checkProtocol dds
  deserializeRows dds fuel width below stream

end Libdap.Source.Sequence
