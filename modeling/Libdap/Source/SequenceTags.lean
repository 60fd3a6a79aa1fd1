import Libdap.Source.Sequence

/-!
# DDS.cc, Structure.cc, Sequence.cc: tagging Sequences, and Structures that hold them

A Sequence's own variables of other classes are the fields of its record; its members here
are the Sequences and Structures declared in it. A level is unbounded.
-/
namespace Libdap.Source.SequenceTags
open Libdap.Source.Sequence

inductive Variable (V : Type) where
  | simple (sendP : Bool) (value : V)
  | sequence (s : Sequence V) (vars : List (Variable V))
  | structure (sendP : Bool) (vars : List (Variable V))

variable {V : Type}

def Variable.isSequence : Variable V → Bool
  | .sequence _ _ => true
  | _ => false

def Variable.isStructure : Variable V → Bool
  | .structure _ _ => true
  | _ => false

def Variable.sendP : Variable V → Bool
  | .simple sendP _ => sendP
  | .sequence s _ => s.sendP
  | .structure sendP _ => sendP

def nestedError : Failure :=
  .error .unknownError
    "This implementation does not support more than one nested sequence at a level. Contact the server administrator."

/-- What a Sequence is tagged with once its members are done. -/
def tagged (lvl : Int) (hasChildSequence : Bool) (s : Sequence V) : Sequence V :=
  { s with topMost := s.topMost || decide (lvl = 1), leafSequence := !hasChildSequence }

mutual
/-- `Sequence::set_leaf_sequence` and `Structure::set_leaf_sequence`, and their loops. -/
def Variable.setLeafSequence (lvl : Int) : Variable V → Except Failure (Variable V)
  | .simple sendP value => pure (.simple sendP value)
  | .sequence s vars => do
    let (vars, hasChildSequence) ← sequenceLoop lvl false vars
    pure (.sequence (tagged lvl hasChildSequence s) vars)
  | .structure sendP vars => do
    let vars ← structureLoop lvl vars
    pure (.structure sendP vars)

def sequenceLoop (lvl : Int) (hasChildSequence : Bool) :
    List (Variable V) → Except Failure (List (Variable V) × Bool)
  | [] => pure ([], hasChildSequence)
  | var :: vars =>
    if var.isSequence && var.sendP then
      if hasChildSequence then throw nestedError
      else do
        let var ← var.setLeafSequence (lvl + 1)
        let (vars, hasChildSequence) ← sequenceLoop (lvl + 1) true vars
        pure (var :: vars, hasChildSequence)
    else if var.isStructure then do
      let var ← var.setLeafSequence lvl
      let (vars, hasChildSequence) ← sequenceLoop lvl hasChildSequence vars
      pure (var :: vars, hasChildSequence)
    else do
      let (vars, hasChildSequence) ← sequenceLoop lvl hasChildSequence vars
      pure (var :: vars, hasChildSequence)

def structureLoop (level : Int) : List (Variable V) → Except Failure (List (Variable V))
  | [] => pure []
  | var :: vars =>
    if var.isSequence then do
      let var ← var.setLeafSequence (level + 1)
      let vars ← structureLoop (level + 1) vars
      pure (var :: vars)
    else if var.isStructure then do
      let var ← var.setLeafSequence level
      let vars ← structureLoop level vars
      pure (var :: vars)
    else do
      let vars ← structureLoop level vars
      pure (var :: vars)
end

/-- `DDS::tag_nested_sequences`; both methods have the level 1 as their default. -/
def tagNestedSequences : List (Variable V) → Except Failure (List (Variable V))
  | [] => pure []
  | var :: vars =>
    if var.isSequence || var.isStructure then do
      let var ← var.setLeafSequence 1
      let vars ← tagNestedSequences vars
      pure (var :: vars)
    else do
      let vars ← tagNestedSequences vars
      pure (var :: vars)

/-! ## Structures whose Sequences are flat -/

mutual
/-- What `Constructor::read` of a Structure does to its members: each of them is read, a Sequence by
one row or to its end, and `read_p` is set for all of them. -/
def Variable.read : Variable V → Variable V
  | .simple sendP value => .simple sendP value
  | .sequence s vars => .sequence { (s.advance s.rows).1 with readP := true } vars
  | .structure sendP vars => .structure sendP (readMembers vars)

def readMembers : List (Variable V) → List (Variable V)
  | [] => []
  | var :: vars => var.read :: readMembers vars
end

mutual
/-- The loop of `Constructor::serialize` over members that have been read: `ce_eval` is off. -/
def Variable.serialize (select : Selection V) (out : Stream V) :
    Variable V → Except Failure (Stream V)
  | .simple _ value => pure (out ++ [.value value])
  | .sequence s _ => do
    let p ← Sequence.serialize select 1 false { above := [], self := s, below := [], sink := out }
    pure p.sink
  | .structure _ vars => serializeMembers select out vars

def serializeMembers (select : Selection V) (out : Stream V) :
    List (Variable V) → Except Failure (Stream V)
  | [] => pure out
  | var :: vars =>
    if var.sendP then do
      let out ← var.serialize select out
      serializeMembers select out vars
    else serializeMembers select out vars
end

/-- `Constructor::serialize` of a Structure with these members that nobody has read. -/
def serializeStructure (select : Selection V) (out : Stream V) (vars : List (Variable V)) :
    Except Failure (Stream V) :=
  serializeMembers select out (readMembers vars)

inductive Received (V : Type) where
  | value (v : V)
  | rows (rows : List (Row V))
  | structure (members : List (Received V))

mutual
/-- `Constructor::deserialize`: the client has the projected members. -/
def Variable.deserialize (dds : Option DataDDS) (fuel : Nat) (stream : Stream V) :
    Variable V → Except Failure (Received V × Stream V)
  | .simple _ _ => do
    let (v, stream) ← getValue stream
    pure (.value v, stream)
  | .sequence s _ => do
    let (rows, stream) ← Sequence.deserialize dds fuel (s.fieldSendP.count true) [] stream
    pure (.rows rows, stream)
  | .structure _ vars => do
    let (members, stream) ← deserializeMembers dds fuel stream vars
    pure (.structure members, stream)

def deserializeMembers (dds : Option DataDDS) (fuel : Nat) (stream : Stream V) :
    List (Variable V) → Except Failure (List (Received V) × Stream V)
  | [] => pure ([], stream)
  | var :: vars =>
    if var.sendP then do
      let (member, stream) ← var.deserialize dds fuel stream
      let (members, stream) ← deserializeMembers dds fuel stream vars
      pure (member :: members, stream)
    else deserializeMembers dds fuel stream vars
end

end Libdap.Source.SequenceTags
