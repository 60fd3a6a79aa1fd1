import Libdap.Source.AttributeCopies
import Libdap.Source.AttributeTransfer

/-!
# das.yy: the actions of the DAS parser

A text is the tree of its reductions, without aliases. All that an action and those below
its block change lies below the table on top of the stack, so the actions of a block take
that table and give it back; a pointer to a table below it is the way there, by positions
of entries, which nothing moves. A new table has the next address, and the table that has
its entry as its parent. The line numbers that `parse_error` puts into its messages are
left out.
-/
namespace Libdap.Source.DASParser
open Libdap.Source.Attributes (removeSpaceEncoding stringToType nameError isQuoted)
open Libdap.Source.AttributeTransfer

/-- The tokens that begin an attribute. -/
inductive Keyword where
  | byte | int16 | uint16 | int32 | uint32 | float32 | float64 | string | url | xml
  deriving DecidableEq, Repr

/-- `*type` after the token. -/
def Keyword.type : Keyword → List Char
  | .byte => "Byte".toList
  | .int16 => "Int16".toList
  | .uint16 => "UInt16".toList
  | .int32 => "Int32".toList
  | .uint32 => "UInt32".toList
  | .float32 => "Float32".toList
  | .float64 => "Float64".toList
  | .string => "String".toList
  | .url => "Url".toList
  | .xml => "OtherXML".toList

/-- `attr_tuple`: an attribute has one value or more. -/
inductive Item where
  | attr (type : Keyword) (name first : List Char) (more : List (List Char))
  | container (name : List Char) (items : List Item)
  deriving Repr

def removeQuotes (s : List Char) : List Char := if isQuoted s then (s.drop 1).dropLast else s

/-- 92 is the backslash, 34 the double quote. -/
def unescapeDoubleQuotes : List Char → List Char
  | [] => []
  | [c] => [c]
  | c :: d :: rest =>
    if c = Char.ofNat 92 ∧ d = Char.ofNat 34 then d :: unescapeDoubleQuotes rest
    else c :: unescapeDoubleQuotes (d :: rest)

/-- The value that the action of a token stores. -/
def stored (type : Keyword) (token : List Char) : List Char :=
  match type with
  | .string => removeQuotes token
  | .xml =>
    let xml := unescapeDoubleQuotes token
    if isQuoted xml then removeQuotes xml else xml
  | _ => token

/-- The way to a table: the positions of the entries that lead there. -/
abbrev Way := List Nat

def Table.at (t : Table) : Way → Option Table
  | [] => some t
  | i :: way => (t.attrMap[i]?.bind Attribute.table).bind fun below => Table.at below way

def Table.modifyAt (f : Table → Except Failure (Table × Nat)) :
    Way → Table → Except Failure (Table × Nat)
  | [], t => f t
  | i :: way, t =>
    match t.attrMap[i]? with
    | some (.container name address tableName attrMap) => do
      let (below, next) ← Table.modifyAt f way { address, name := tableName, attrMap }
      pure ({ t with attrMap :=
        t.attrMap.set i (.container name address below.name below.attrMap) }, next)
    | _ => throw .undefinedBehaviour

/-- `simple_find_container`. -/
def simpleFindWay (t : Table) (target : List Char) : Option Way :=
  if t.name = target then some []
  else (t.attrMap.findIdx? fun e => e.isContainer && e.name = target).map fun i => [i]

/-- `find_container` of the parts of a name between its dots. -/
def findWay : Table → List (List Char) → Option Way
  | _, [] => none
  | t, [target] => simpleFindWay t target
  | t, container :: field :: fields =>
    match simpleFindWay t container with
    | none => none
    | some way => (Table.at t way).bind fun below =>
      (findWay below (field :: fields)).map fun rest => way ++ rest

def getWay (t : Table) (name : List Char) : Option Way := findWay t (name.splitOn '.')

def parseError (msg : String) : Failure := .error .unknownError (msg ++ "\n")

/-- What an action that catches `Error` throws in its place. -/
def rethrow {α : Type} : Except Failure α → Except Failure α
  | .error (.error _ msg) => .error (parseError msg)
  | result => result

/-- `append_container` of a new table, whose address is `next`. -/
def appendContainer (t : Table) (next : Nat) (name : List Char) : Except Failure Table :=
  let lname := removeSpaceEncoding name
  if (simpleFind t.attrMap name).isSome then
    throw (nameError "There already exists a container called `" name
      "' in this attribute table. (1)")
  else
    pure { t with attrMap :=
      t.attrMap ++ [.container lname next (removeSpaceEncoding lname) []] }

def appendValue (t : Table) (type name value : List Char) : Except Failure Table := do
  let attrMap ← appendAttr t.attrMap name type [String.ofList value]
  pure { t with attrMap }

def dodsErrors : List Char := "_dods_errors".toList

/-- `add_bad_attribute`. -/
def addBadAttribute (t : Table) (next : Nat) (type name value msg : List Char) :
    Except Failure (Table × Nat) :=
  if dodsErrors <:+: t.name then do
    let t ← appendValue t type name value
    pure (t, next)
  else do
    let fill (next : Nat) (errorCont : Table) : Except Failure (Table × Nat) := do
      let errorCont ← appendValue errorCont type name value
      let errorCont ← appendValue errorCont "String".toList (name ++ "_explanation".toList) msg
      pure (errorCont, next)
    match getWay t (t.name ++ dodsErrors) with
    | some way => Table.modifyAt (fill next) way t
    | none => do
      let t' ← appendContainer t next (t.name ++ dodsErrors)
      Table.modifyAt (fill (next + 1)) [t.attrMap.length] t'

def aOrAn (subject : List Char) : List Char :=
  match subject.head? with
  | some c => if c ∈ "aeiouAEIOUyY".toList then "an".toList else "a".toList
  | none => "a".toList

section
variable (check : Keyword → List Char → Bool)

/-- The types whose values have a checker. -/
def hasChecker : Keyword → Bool
  | .string => false
  | .xml => false
  | _ => true

def addAttribute (t : Table) (next : Nat) (type : Keyword) (name value : List Char) :
    Except Failure (Table × Nat) :=
  if hasChecker type && !check type value then
    addBadAttribute t next type.type name value
      ("`".toList ++ value ++ "' is not ".toList ++ aOrAn type.type ++ [' '] ++ type.type ++
        " value.".toList)
  else do
    let t ← rethrow (appendValue t type.type name value)
    pure (t, next)

/-- `bytes`, `int16` and the other lists of values. -/
def addValues (type : Keyword) (name : List Char) :
    Table → Nat → List (List Char) → Except Failure (Table × Nat)
  | t, next, [] => pure (t, next)
  | t, next, token :: tokens => do
    let (t, next) ← addAttribute check t next type name (stored type token)
    addValues type name t next tokens

mutual
/-- The stack is the nesting of the calls: what `attr_list` is given is on its top. -/
def attrTuple (t : Table) (next : Nat) : Item → Except Failure (Table × Nat)
  | .attr type name first more => addValues check type name t next (first :: more)
  | .container name items =>
    match getWay t name with
    | some way => Table.modifyAt (fun at' => attrList at' next items) way t
    | none => do
      let t' ← rethrow (appendContainer t next name)
      Table.modifyAt (fun at' => attrList at' (next + 1) items) [t.attrMap.length] t'

def attrList (t : Table) (next : Nat) : List Item → Except Failure (Table × Nat)
  | [] => pure (t, next)
  | item :: items => do
    let (t, next) ← attrTuple t next item
    attrList t next items
end

/-- `DAS::parse`: `attributes`, each with its list, on the outermost table. -/
def parse : Table → Nat → List (List Item) → Except Failure (Table × Nat)
  | das, next, [] => pure (das, next)
  | das, next, items :: attributes => do
    let (das, next) ← attrList check das next items
    parse das next attributes

end

end Libdap.Source.DASParser
