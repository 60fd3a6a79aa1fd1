import Libdap.Source.DataResponse
import Libdap.Source.Sequence

/-!
# Sequence.cc over a marshaller

The calls that `serialize` makes are there as a stream of markers and variables; here each of
them is made on a marshaller, and `deserialize` asks an unmarshaller. An error while rows are
selected comes after some of the calls; these are not followed then.
-/
namespace Libdap.Source.SequenceStream
open Escaping Declarations DataResponse Sequence XDR
open XDRStreamMarshaller (Put putOpaque)
open XDRFileUnMarshaller (Get getOpaque)

/-- A variable of a Sequence with what it has read. -/
abbrev Field := Var × Data

variable (xdr : ScalarRoutines)

/-- `write_start_of_instance` and `write_end_of_sequence`. -/
def writeMarker (marker : UInt8) : Put := putOpaque xdr.toRoutines [marker]

/-- `read_marker`; the marker has a value of its own before the call. -/
def readMarker (garbage : UInt8) : Get UInt8 := do
  let marker ← getOpaque xdr [garbage] 1
  pure (marker.headD garbage)

section
variable (putSequence : List Var → Data → Put)

def putToken : Token Field → Put
  | .marker m => writeMarker xdr m
  | .value (v, d) => serialize xdr putSequence v d

/-- `Sequence::serialize` of the top-most of these levels. -/
def serializeSequence (select : Selection Field) (levels : List (Sequence Field)) : Put :=
  match send select levels with
  | .ok calls => calls.forM (putToken xdr putSequence)
  | .error e => throw e

end

section
variable (getSequence : List Var → Get Data)

/-- The two tests before the loop of `deserialize`. -/
def protocolChecked (dds : Option DataDDS) : Get Unit :=
  match checkProtocol dds with
  | .ok () => pure ()
  | .error e => throw e

/-- The loop of `Sequence::deserialize`. The variables of a level are those that are not
Sequences; each turn and each call on a child takes one unit of the bound. -/
def deserializeRows (garbage : UInt8) (dds : Option DataDDS) :
    Nat → List Var → List (List Var) → Get (List (Row Data))
  | 0, _, _ => throw .outOfFuel
  | fuel + 1, vars, below => do
    let marker ← readMarker xdr garbage
    if marker = endOfSequence then pure []
    else if marker = startOfInstance then do
      let values ← deserializeAll xdr getSequence vars
      let children ← match below with
        | [] => pure []
        | child :: rest => do
          protocolChecked dds
          deserializeRows garbage dds fuel child rest
      let rows ← deserializeRows garbage dds fuel vars below
      pure (.mk values children :: rows)
    else
      throw (.error .unknownError "I could not read the expected Sequence data stream marker!")

/-- `Sequence::deserialize`; the result is `d_values`. -/
def deserializeSequence (garbage : UInt8) (dds : Option DataDDS) (fuel : Nat) (vars : List Var)
    (below : List (List Var)) : Get (List (Row Data)) := do
  protocolChecked dds
  deserializeRows xdr getSequence garbage dds fuel vars below

end

/-! ### Sequences of a dataset -/

def isSequence : Var → Bool
  | .constructor isSequence _ _ _ => isSequence
  | _ => false

/-- The variables of a level that are not Sequences. -/
def ownVars (vars : List Var) : List Var := vars.filter fun v => !isSequence v

mutual
/-- The variables of the levels of a Sequence, and of the levels below its variables. -/
def levels : Var → List (List Var)
  | .constructor true _ _ vars => ownVars vars :: childLevels vars
  | _ => []

def childLevels : List Var → List (List Var)
  | [] => []
  | v :: vars => if isSequence v then levels v else childLevels vars
end

def makeLevel (sendP : Bool) (vars : List Var) (rows : List (Row Field)) : Sequence Field :=
  { make ((ownVars vars).map Var.sendP) rows with sendP }

mutual
/-- The Sequences below, which have no rows before one of the parent is read. -/
def makeLevels : Var → List (Sequence Field)
  | .constructor true _ sendP vars => makeLevel sendP vars [] :: makeChildren vars
  | _ => []

def makeChildren : List Var → List (Sequence Field)
  | [] => []
  | v :: vars => if isSequence v then makeLevels v else makeChildren vars
end

mutual
/-- What a level is going to read. -/
def rowOf : List Var → Data → Row Field
  | vars, .members data =>
    .mk ((vars.zip data).filter fun f => !isSequence f.1) (childRows vars data)
  | _, _ => .mk [] []

def rowsOf : List Var → List Data → List (Row Field)
  | _, [] => []
  | vars, d :: rows => rowOf vars d :: rowsOf vars rows

def rowsIn : Var → Data → List (Row Field)
  | .constructor true _ _ vars, .rows rows => rowsOf vars rows
  | _, _ => []

def childRows : List Var → List Data → List (Row Field)
  | v :: vars, d :: data => if isSequence v then rowsIn v d else childRows vars data
  | _, _ => []
end

/-- The rows that have been read, with those of `depth` levels below them. -/
def rowsData : Nat → List (Row Data) → List Data
  | 0, rows => rows.map fun r => .members r.values
  | depth + 1, rows => rows.map fun r => .members (r.values ++ [.rows (rowsData depth r.children)])

/-- `set_leaf_sequence` and `serialize` of a Sequence that is a member of the dataset. One in a
Structure is not the top-most and is not followed, nor is one in a Structure of a row. -/
def putSequence (select : Selection Field) (vars : List Var) : Data → Put
  | .rows rows =>
    serializeSequence xdr (fun _ _ => throw .undefinedBehaviour) select
      (setLeafSequence 1 (makeLevel true vars (rowsOf vars rows)) (makeChildren vars))
  | _ => throw .undefinedBehaviour

/-- `deserialize` of a Sequence that is a member of the dataset, with a turn of the loop for each
byte that is left. -/
def getSequence (garbage : UInt8) (dds : Option DataDDS) (vars : List Var) : Get Data := do
  let rest ← get
  let rows ← deserializeSequence xdr (fun _ => throw .undefinedBehaviour) garbage dds
    (rest.length + 1) (ownVars vars) (childLevels vars)
  pure (.rows (rowsData (childLevels vars).length rows))

end Libdap.Source.SequenceStream
