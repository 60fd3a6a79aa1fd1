import Libdap.Source.Variables

/-!
# DDS.cc: copying a dataset

The fields of a DDS and its top-level variables, which lie in a memory shared with other
datasets.
-/
namespace Libdap.Source.Dataset
open Libdap.Library Libdap.Source.Variables

/-- DDS.h:183-206. -/
structure DDS where
  /-- The pointer to the BaseTypeFactory. -/
  factory : Nat
  name : String
  filename : String
  containerName : String
  container : Option Nat
  dapMajor : Int
  dapMinor : Int
  dapVersion : String
  requestXmlBase : String
  xmlNamespace : String
  attr : AttrTable
  vars : List Nat
  timeout : Int
  keywords : List String
  maxResponseSize : Int

section
variable (depth : Nat)

/-- With a current container, the copy `btp` is made for nothing: `Structure::add_var`
makes another one. -/
def DDS.addVar (m : Memory) (dds : DDS) (bt : Nat) : Except Failure (Memory × DDS) := do
  let (btp, m) ← ptrDuplicate depth m bt
  match dds.container with
  | some container => do
    let _ ← fetch m container
    let m ← copyMembers (ptrDuplicate depth) container pushVar m [bt]
    let m ← destroy depth m btp
    pure (m, dds)
  | none => pure (m, { dds with vars := dds.vars ++ [btp] })

/-- The fields come first, so `add_var` finds the container of `rhs` in them. -/
def DDS.duplicate (m : Memory) (dds rhs : DDS) : Except Failure (Memory × DDS) :=
  rhs.vars.foldlM (fun (m, dds) bt => DDS.addVar depth m dds bt)
    (m, { rhs with attr := copyAttr rhs.attr, vars := dds.vars })

/-- The copy constructor. -/
def DDS.copy (m : Memory) (rhs : DDS) : Except Failure (Memory × DDS) :=
  DDS.duplicate depth m { rhs with vars := [] } rhs

end

end Libdap.Source.Dataset
