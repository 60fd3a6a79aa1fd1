import Libdap.Source.DMR
import Libdap.Source.DapVersion

/-!
# D4ParserSax2: the callbacks of the DMR parser

The states for Arrays, Grids and their dimensions are left out: no callback sets the first
of them. Elements have no prefixes and no namespaces. A pointer to an attribute table is
the level of the variable it belongs to, counted from the bottom of the stack of variables,
and the way from there to the container, by positions of entries. Line numbers are left
out of messages.
-/
namespace Libdap.Source.D4ParserSax2
open Attributes (AttrType nameError)
open Variables (VarType)
open Groups (D4EnumDef typeName)
open HTTPCacheIndex (Stream)
open DMR

inductive ParseState where
  | parserStart | insideGroup | insideAttributeContainer | insideAttribute
  | insideAttributeValue | insideOtherXmlAttribute | insideEnumDef | insideEnumConst
  | insideSimpleType | insideConstructor | insideSequence | parserError
  deriving DecidableEq, Repr

/-! ## Types -/

/-- `get_type` of util.cc. -/
def getType (name : String) : VarType :=
  if name = "Byte" then .byte
  else if name = "Int8" then .int8
  else if name = "UInt8" then .uint8
  else if name = "Int16" then .int16
  else if name = "UInt16" then .uint16
  else if name = "Int32" then .int32
  else if name = "UInt32" then .uint32
  else if name = "Int64" then .int64
  else if name = "UInt64" then .uint64
  else if name = "Float32" then .float32
  else if name = "Float64" then .float64
  else if name = "String" then .str
  else if name = "URL" then .url4
  else if name = "Url" then .url
  else if name = "Array" then .array
  else if name = "Structure" then .structure
  else if name = "Sequence" then .sequence
  else if name = "Grid" then .grid
  else .null

def isSimpleType : VarType → Bool
  | .byte | .int8 | .uint8 | .int16 | .uint16 | .int32 | .uint32 | .int64 | .uint64
  | .float32 | .float64 | .str | .url | .url4 | .enum => true
  | _ => false

def isVectorType (t : VarType) : Bool := t = .array

def isConstructorType : VarType → Bool
  | .structure | .sequence | .grid | .group => true
  | _ => false

def isIntegerType : VarType → Bool
  | .byte | .int8 | .uint8 | .int16 | .uint16 | .int32 | .uint32 | .int64 | .uint64 => true
  | _ => false

/-- `D4ParserSax2::factory`: what the functions of D4BaseTypeFactory make, and null. -/
def factory (t : VarType) (name : String) : Option BaseType :=
  match t with
  | .null | .enum => none
  | _ => some (.mk t name [] [] [])

def isValidEnumValue (t : VarType) (value : Int) : Bool :=
  match t with
  | .int8 => -2 ^ 7 ≤ value && value ≤ 2 ^ 7 - 1
  | .byte | .uint8 => 0 ≤ value && value ≤ 2 ^ 8 - 1
  | .int16 => -2 ^ 15 ≤ value && value ≤ 2 ^ 15 - 1
  | .uint16 => 0 ≤ value && value ≤ 2 ^ 16 - 1
  | .int32 => -2 ^ 31 ≤ value && value ≤ 2 ^ 31 - 1
  | .uint32 => 0 ≤ value && value ≤ 2 ^ 32 - 1
  | .int64 => -2 ^ 63 ≤ value && value ≤ 2 ^ 63 - 1
  | .uint64 => 0 ≤ value && value ≤ 2 ^ 64 - 1
  | _ => false

def unsignedLong (value : Int) : Nat := (value % 2 ^ 64).toNat

def longLong (value : Nat) : Int := if value < 2 ^ 63 then value else (value : Int) - 2 ^ 64

/-- `D4EnumDef::add_value` takes an `unsigned long` and stores a `long long`. -/
def addValue (e : D4EnumDef) (item : String) (value : Int) : D4EnumDef :=
  { e with values := e.values ++ [(item, longLong (unsignedLong value))] }

/-- `D4EnumDef::get_value` of an item; of an unknown one the end of the vector is read. -/
def getValue (e : D4EnumDef) (item : String) : Except Failure Int :=
  match e.values.find? fun v => v.1 = item with
  | some v => .ok v.2
  | none => .error .undefinedBehaviour

/-! ## The parser -/

structure Place where
  level : Nat
  way : List Nat
  deriving DecidableEq, Repr

/-- The fields that hold what was read last. -/
structure Scratch where
  xmlAttrs : List (String × String)
  dodsAttrName : String
  dodsAttrType : String

structure DDS where
  datasetName : String
  dapVersion : String
  requestXmlBase : String
  vars : List BaseType

structure Parser where
  s : List ParseState
  btStack : List BaseType
  atStack : List Place
  enumDef : Option D4EnumDef
  scratch : Scratch
  charData : String
  otherXml : String
  otherXmlDepth : Nat
  errorMsg : List String
  dds : DDS

/-- A new parser that is given a DDS. -/
def Parser.new (dds : DDS) : Parser where
  s := []
  btStack := []
  atStack := []
  enumDef := none
  scratch := ⟨[], "", ""⟩
  charData := ""
  otherXml := ""
  otherXmlDepth := 0
  errorMsg := []
  dds

namespace Parser
variable (p : Parser)

def setState (state : ParseState) : Parser := { p with s := state :: p.s }

def popState : Parser := { p with s := p.s.tail }

/-- `ddx_fatal_error`; `str` has 1024 characters. -/
def fatalError (msg : String) : Parser :=
  { p with
    s := .parserError :: p.s
    errorMsg := p.errorMsg ++ [String.ofList (msg.toList.take 1023)] }

/-- `transfer_xml_attrs`; of attributes of one name the map keeps the first. -/
def transferXmlAttrs (attributes : List (String × String)) : Parser :=
  { p with scratch := { p.scratch with xmlAttrs := attributes } }

/-- `xml_attrs[name].value`. -/
def xmlAttr (name : String) : String := (p.scratch.xmlAttrs.lookup name).getD ""

def checkAttribute (name : String) : Bool := (p.scratch.xmlAttrs.lookup name).isSome

/-- `check_required_attribute`, which answers true in any case. -/
def checkRequiredAttribute (name : String) : Parser :=
  if p.checkAttribute name then p
  else p.fatalError s!"Required attribute '{name}' not found."

end Parser

def quote : String := String.singleton (Char.ofNat 34)

/-- The table at the end of a way. -/
def tableAt : List Nat → List Attribute → Option (List Attribute)
  | [], table => some table
  | i :: way, table =>
    match table[i]? with
    | some (.container _ entries) => tableAt way entries
    | _ => none

/-- The table at the end of a way is changed. -/
def changeAt (f : List Attribute → Except Failure (List Attribute)) :
    List Nat → List Attribute → Except Failure (List Attribute)
  | [], table => f table
  | i :: way, table =>
    match table[i]? with
    | some (.container name entries) => do
      let entries ← changeAt f way entries
      pure (table.set i (.container name entries))
    | _ => .error .undefinedBehaviour

namespace Parser
variable (p : Parser)

/-- The place on top of `at_stack`, and the position of its variable in `bt_stack`. -/
def topTable : Except Failure (Place × Nat × BaseType) :=
  match p.atStack with
  | [] => .error .undefinedBehaviour
  | place :: _ =>
    let i := p.btStack.length - 1 - place.level
    if place.level < p.btStack.length then
      match p.btStack[i]? with
      | some bt => .ok (place, i, bt)
      | none => .error .undefinedBehaviour
    else .error .undefinedBehaviour

/-- A call on the table on top of `at_stack`. -/
def changeTable (f : List Attribute → Except Failure (List Attribute)) :
    Except Failure Parser := do
  let (place, i, bt) ← p.topTable
  let table ← changeAt f place.way bt.attr
  pure { p with btStack := p.btStack.set i (bt.setAttr table) }

/-- `append_container` on the table on top of `at_stack`, and the new table pushed. -/
def appendContainer (name : String) : Except Failure Parser := do
  let (place, _, bt) ← p.topTable
  match tableAt place.way bt.attr with
  | none => .error .undefinedBehaviour
  | some table => do
    let p ← p.changeTable fun table => DMR.appendContainer table name
    pure { p with atStack := ⟨place.level, place.way ++ [table.length]⟩ :: p.atStack }

/-! ## Actions -/

def processAttributeHelper (attributes : List (String × String)) : Except Failure Parser :=
  let p := ((p.transferXmlAttrs attributes).checkRequiredAttribute
    "name").checkRequiredAttribute "type"
  let scratch : Scratch :=
    { p.scratch with dodsAttrName := p.xmlAttr "name", dodsAttrType := p.xmlAttr "type" }
  if p.xmlAttr "type" = "Container" then
    (p.setState .insideAttributeContainer).appendContainer (p.xmlAttr "name")
  else if p.xmlAttr "type" = "OtherXML" then
    .ok { p.setState .insideOtherXmlAttribute with scratch }
  else .ok { p.setState .insideAttribute with scratch }

def processEnumDefHelper (attributes : List (String × String)) : Except Failure Parser :=
  let p := ((p.transferXmlAttrs attributes).checkRequiredAttribute
    "name").checkRequiredAttribute "basetype"
  let name := p.xmlAttr "name"
  let basetype := p.xmlAttr "basetype"
  let t := getType basetype
  let checked : Parser × VarType :=
    if isIntegerType t then (p, t)
    else (p.fatalError (s!"Error: The Enumeration '{name}' must have an integer type, " ++
      s!"instead the type '{basetype}' was used."), .uint64)
  .ok (({ checked.1 with enumDef := some ⟨name, checked.2, []⟩ } : Parser).setState
    .insideEnumDef)

def processEnumConstHelper (attributes : List (String × String)) : Except Failure Parser :=
  let p := ((p.transferXmlAttrs attributes).checkRequiredAttribute
    "name").checkRequiredAttribute "value"
  let text := p.xmlAttr "value"
  let read := Stream.getLong ⟨text.toList, false⟩ 0
  if read.2.fail then
    .ok ((p.fatalError (s!"Error: Expected an integer value for an Enumeration constant, " ++
      s!"got '{text}' instead.")).setState .insideEnumConst)
  else
    match p.enumDef with
    | none => .error .undefinedBehaviour
    | some e =>
      if isValidEnumValue e.type read.1 then
        .ok (({ p with enumDef := some (addValue e (p.xmlAttr "name") read.1) } :
          Parser).setState .insideEnumConst)
      else
        let type := typeName e.type
        .ok ((p.fatalError (s!"Error: In an Enumeration constant, the value '{text}' " ++
          s!"cannot fit in a variable of type '{type}'.")).setState .insideEnumConst)

/-- The state is set first; `check_required_attribute` does not keep the rest from being
done. -/
def processVariableHelper (t : VarType) (state : ParseState)
    (attributes : List (String × String)) : Except Failure Parser :=
  let p := ((p.transferXmlAttrs attributes).setState state).checkRequiredAttribute "name"
  match factory t (p.xmlAttr "name") with
  | none => .error .undefinedBehaviour
  | some btp =>
    .ok { p with
      btStack := btp :: p.btStack
      atStack := ⟨p.btStack.length, []⟩ :: p.atStack }

def processAttribute (tag : String) (attributes : List (String × String)) :
    Option (Except Failure Parser) :=
  if tag = "Attribute" then some (p.processAttributeHelper attributes) else none

def processEnumDef (tag : String) (attributes : List (String × String)) :
    Option (Except Failure Parser) :=
  if tag = "Enumeration" then some (p.processEnumDefHelper attributes) else none

def processEnumConst (tag : String) (attributes : List (String × String)) :
    Option (Except Failure Parser) :=
  if tag = "EnumConst" then some (p.processEnumConstHelper attributes) else none

def processVariable (tag : String) (attributes : List (String × String)) :
    Option (Except Failure Parser) :=
  if isSimpleType (getType tag) then
    some (p.processVariableHelper (getType tag) .insideSimpleType attributes)
  else if tag = "Structure" then
    some (p.processVariableHelper .structure .insideConstructor attributes)
  else if tag = "Sequence" then
    some (p.processVariableHelper .sequence .insideSequence attributes)
  else none

/-- Where the top of `bt_stack` goes once it is popped: into the variable below. -/
def addToParent (btp : BaseType) (kind tag : String) : Except Failure Parser :=
  match p.btStack with
  | [] => .error .undefinedBehaviour
  | parent :: below =>
    if isVectorType parent.type || isConstructorType parent.type then
      .ok { p with btStack := DMR.BaseType.addVar btp parent :: below }
    else
      let type := typeName parent.type
      let name := parent.name
      .ok (p.fatalError (s!"Tried to add the {kind} variable '{tag}' to a " ++
        s!"non-constructor type ({type} {name})."))

def finishVariable (tag : String) (t : VarType) (expected : String) :
    Except Failure Parser :=
  if tag ≠ expected then
    .ok (p.fatalError s!"Expected an end tag for a {expected}; found '{tag}' instead.")
  else
    match p.btStack, p.atStack with
    | btp :: bts, _ :: ats =>
      let p : Parser := { p.popState with btStack := bts, atStack := ats }
      if btp.type ≠ t then
        .ok (p.fatalError s!"Internal error: Expected a {expected} variable.")
      else
        p.addToParent btp "array" tag
    | _, _ => .error .undefinedBehaviour

/-! ## Callbacks -/

def startDocument : Parser := ({ p with errorMsg := [], charData := "" } : Parser).setState
  .parserStart

/-- The version of the root element, or the one that the DDS has. -/
def rootVersion : Except Failure String :=
  if p.checkAttribute "dapVersion" then
    (DapVersion.setDapVersion (p.xmlAttr "dapVersion").toList).map String.ofList
  else .ok p.dds.dapVersion

/-- The callback of a Group's start in the state `parser_start`. -/
def startRoot (attributes : List (String × String)) : Except Failure Parser := do
  let p := ((p.setState .insideGroup).transferXmlAttrs attributes).checkRequiredAttribute
    "name"
  let dapVersion ← p.rootVersion
  let dds : DDS :=
    { p.dds with
      datasetName := p.xmlAttr "name"
      dapVersion
      requestXmlBase := if p.checkAttribute "base" then p.xmlAttr "base"
        else p.dds.requestXmlBase }
  match factory .group "root" with
  | none => .error .undefinedBehaviour
  | some btp =>
    pure { p with
      dds
      btStack := btp :: p.btStack
      atStack := ⟨p.btStack.length, []⟩ :: p.atStack }

/-- `ddx_start_element`. -/
def startElement (tag : String) (attributes : List (String × String)) :
    Except Failure Parser :=
  match p.s with
  | [] => .error .undefinedBehaviour
  | .parserStart :: _ =>
    if tag = "Group" then p.startRoot attributes
    else .ok (p.fatalError
      s!"Expected DMR to start with a Group element; found '{tag}' instead.")
  | .insideGroup :: _ =>
    (p.processAttribute tag attributes <|> p.processVariable tag attributes <|>
      p.processEnumDef tag attributes).getD (.ok (p.fatalError
        s!"Expected an Attribute,  or variable element; found '{tag}' instead."))
  | .insideAttributeContainer :: _ =>
    (p.processAttribute tag attributes).getD (.ok (p.fatalError
      s!"Expected an Attribute or Alias element; found '{tag}' instead."))
  | .insideAttribute :: _ =>
    (p.processAttribute tag attributes).getD
      (if tag = "value" then .ok (p.setState .insideAttributeValue)
      else .ok (p.fatalError
        s!"Expected an 'Attribute', 'Alias' or 'value' element; found '{tag}' instead."))
  | .insideAttributeValue :: _ => .ok p
  | .insideOtherXmlAttribute :: _ =>
    let p := if attributes = [] then p else p.transferXmlAttrs attributes
    let sorted := attributes.mergeSort fun a b => decide (a.1 ≤ b.1)
    let text := "<" ++ tag ++
      String.join (sorted.map fun a => " " ++ a.1 ++ "=" ++ quote ++ a.2 ++ quote) ++ ">"
    .ok { p with otherXmlDepth := p.otherXmlDepth + 1, otherXml := p.otherXml ++ text }
  | .insideEnumDef :: _ =>
    (p.processEnumConst tag attributes).getD (.ok (p.fatalError
      s!"Expected an 'EnumConst' element; found '{tag}' instead."))
  | .insideEnumConst :: _ => .ok p
  | .insideSimpleType :: _ =>
    (p.processAttribute tag attributes).getD (.ok (p.fatalError
      s!"Expected an 'Attribute' or 'Alias' element; found '{tag}' instead."))
  | .insideConstructor :: _ | .insideSequence :: _ =>
    (p.processAttribute tag attributes <|> p.processVariable tag attributes).getD
      (.ok (p.fatalError
        s!"Expected an Attribute, Alias or variable element; found '{tag}' instead."))
  | .parserError :: _ => .ok p

/-- The end of an element that only ends the state. -/
def endState (tag expected : String) : Except Failure Parser :=
  if tag = expected then .ok p.popState
  else .ok (p.fatalError s!"Expected an end {expected} tag; found '{tag}' instead.")

/-- The end of an Enumeration. -/
def endEnumDef (tag : String) : Except Failure Parser :=
  if tag = "Enumeration" then
    match p.btStack with
    | [] => .error .undefinedBehaviour
    | btp :: bts =>
      if btp.type = .group then
        match p.enumDef with
        | none => .error .undefinedBehaviour
        | some e => .ok { p.popState with btStack := btp.addEnumeration e :: bts }
      else .ok (p.fatalError
        s!"Expected a Group to be the current item, while finishing up an {tag}.")
  else .ok (p.fatalError s!"Expected an end Enumeration tag; found '{tag}' instead.")

/-- The end of a simple variable. -/
def endSimpleType (tag : String) : Except Failure Parser :=
  if isSimpleType (getType tag) then
    match p.btStack, p.atStack with
    | btp :: bts, _ :: ats =>
      ({ p.popState with btStack := bts, atStack := ats } : Parser).addToParent btp
        "simple-type" tag
    | _, _ => .error .undefinedBehaviour
  else .ok (p.fatalError
    s!"Expected an end tag for a simple type; found '{tag}' instead.")

/-- `ddx_end_element`. The URI that ends an `OtherXML` attribute is compared with null. -/
def endElement (tag : String) : Except Failure Parser :=
  match p.s with
  | [] => .error .undefinedBehaviour
  | .parserStart :: _ => .ok (p.fatalError (s!"Internal parser error; unexpected state, " ++
      s!"inside start state while processing element '{tag}'."))
  | .insideGroup :: _ => p.endState tag "Group"
  | .insideAttributeContainer :: _ =>
    if tag = "Attribute" then
      match p.atStack with
      | [] => .error .undefinedBehaviour
      | _ :: ats => .ok { p.popState with atStack := ats }
    else .ok (p.fatalError s!"Expected an end Attribute tag; found '{tag}' instead.")
  | .insideAttribute :: _ => p.endState tag "Attribute"
  | .insideAttributeValue :: _ =>
    if tag = "value" then do
      let p ← p.popState.changeTable fun table =>
        appendAttr table p.scratch.dodsAttrName p.scratch.dodsAttrType p.charData
      pure { p with charData := "" }
    else .ok (p.fatalError s!"Expected an end value tag; found '{tag}' instead.")
  | .insideOtherXmlAttribute :: _ =>
    if tag = "Attribute" then .error .undefinedBehaviour
    else
      let p := if p.otherXmlDepth = 0 then p.fatalError
        s!"Expected an OtherXML attribute to end! Instead I found '{tag}'" else p
      .ok { p with
        otherXmlDepth := if p.otherXmlDepth = 0 then 2 ^ 32 - 1 else p.otherXmlDepth - 1
        otherXml := p.otherXml ++ "</" ++ tag ++ ">" }
  | .insideEnumDef :: _ => p.endEnumDef tag
  | .insideEnumConst :: _ => p.endState tag "EnumConst"
  | .insideSimpleType :: _ => p.endSimpleType tag
  | .insideConstructor :: _ => p.finishVariable tag .structure "Structure"
  | .insideSequence :: _ => p.finishVariable tag .sequence "Sequence"
  | .parserError :: _ => .ok p

/-- `ddx_get_characters`. -/
def getCharacters (text : String) : Except Failure Parser :=
  match p.s with
  | [] => .error .undefinedBehaviour
  | .insideAttributeValue :: _ => .ok { p with charData := p.charData ++ text }
  | .insideOtherXmlAttribute :: _ => .ok { p with otherXml := p.otherXml ++ text }
  | _ => .ok p

def step : Event → Except Failure Parser
  | .start tag attributes => p.startElement tag attributes
  | .characters text => p.getCharacters text
  | .finish tag => p.endElement tag

/-- `ddx_end_document`; the DDS has no container. -/
def endDocument : Except Failure Parser :=
  match p.s with
  | [] => .error .undefinedBehaviour
  | state :: _ =>
    if state = .parserStart then
      match p.btStack with
      | [] => .error .undefinedBehaviour
      | btp :: bts =>
        .ok { p with dds := { p.dds with vars := p.dds.vars ++ [btp] }, btStack := bts }
    else .ok (p.fatalError "The document contained unbalanced tags.")

end Parser

/-- The callbacks in the order the reader makes them. -/
def parse (dds : DDS) (events : List Event) : Except Failure Parser := do
  let p ← events.foldlM Parser.step (Parser.new dds).startDocument
  p.endDocument

end Libdap.Source.D4ParserSax2
