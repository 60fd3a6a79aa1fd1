import Libdap.Source.D4ParserSax2
import Libdap.Source.DapVersion
import Libdap.Source.DASParser
import Libdap.Source.Words

/-!
# DDXParserSAX2: the callbacks of the DDX parser

A table on `at_stack` is the table that the pointer there points to; what holds it, the last
entry of the table below it or the variable on top of `bt_stack`, is brought up to date when
it is popped, and nothing reads it before. The table of the DDS is the one at the bottom. An
alias has the contents of the container it stands for, which nothing changes any more. Line
numbers are left out of messages, and variables keep their names as they are written.
-/
namespace Libdap.Source.DDXParserSAX2
open Libdap.Source.AttributeTransfer
open Libdap.Source.D4ParserSax2 (getType isSimpleType isVectorType isConstructorType)
open Libdap.Source.HTTPCacheTable (Chars)
open Libdap.Source.Variables (VarType)
open Libdap.Source.Groups (typeName)

inductive ParseState where
  | parserStart | insideDataset | insideAttributeContainer | insideAttribute
  | insideAttributeValue | insideOtherXmlAttribute | insideAlias | insideSimpleType
  | insideArray | insideDimension | insideGrid | insideMap | insideStructure | insideSequence
  | insideBlobHref | parserUnknown | parserError
  deriving DecidableEq, Repr

/-! ## Variables -/

/-- `vars` of an Array is its template; the first of a Grid is its array. -/
inductive BaseType where
  | mk (type : VarType) (name : Chars) (attr : List Attribute) (dims : Array.Dims)
      (vars : List BaseType)

namespace BaseType

def type : BaseType → VarType
  | .mk type _ _ _ _ => type

def name : BaseType → Chars
  | .mk _ name _ _ _ => name

def dims : BaseType → Array.Dims
  | .mk _ _ _ dims _ => dims

def vars : BaseType → List BaseType
  | .mk _ _ _ _ vars => vars

def setName (name : Chars) : BaseType → BaseType
  | .mk type _ attr dims vars => .mk type name attr dims vars

def setAttr (attr : List Attribute) : BaseType → BaseType
  | .mk type name _ dims vars => .mk type name attr dims vars

def setDims (dims : Array.Dims) : BaseType → BaseType
  | .mk type name attr _ vars => .mk type name attr dims vars

def setVars (vars : List BaseType) : BaseType → BaseType
  | .mk type name attr dims _ => .mk type name attr dims vars

mutual

def ptrDuplicate : BaseType → BaseType
  | .mk type name attr dims vars => .mk type name (copyAll none attr) dims (duplicateAll vars)

def duplicateAll : List BaseType → List BaseType
  | [] => []
  | v :: vs => v.ptrDuplicate :: duplicateAll vs

end

/-- `Vector::add_var`; the name of the template becomes the one of the Vector. -/
def addTemplate (v : Option BaseType) (this : BaseType) : BaseType :=
  match v with
  | none => this.setVars []
  | some v =>
    if v.name ≠ [] then (this.setVars [v.ptrDuplicate]).setName v.name
    else this.setVars [v.ptrDuplicate.setName this.name]

/-- `Array::add_var`. -/
def addElement (v this : BaseType) : BaseType :=
  if v.type = .array then
    let this := addTemplate v.vars.head? this
    this.setDims (v.dims.shape.foldl (fun dims d => dims.appendDim d.size d.name) this.dims)
  else addTemplate (some v) this

/-- `Grid::add_var` without a part: the first is the array. -/
def addPart (v this : BaseType) : Except Failure BaseType :=
  if this.vars = [] ∧ v.type ≠ .array then
    .error (.internalErr "Grid::add_var(): with Part==array: object is not an Array!")
  else .ok (this.setVars (this.vars ++ [v.ptrDuplicate]))

/-- `add_var` of the class of the parent. -/
def addVar (v this : BaseType) : Except Failure BaseType :=
  match this.type with
  | .array => .ok (addElement v this)
  | .grid => addPart v this
  | _ => .ok (this.setVars (this.vars ++ [v.ptrDuplicate]))

end BaseType

/-- `DDXParser::factory`. -/
def factory (t : VarType) (name : Chars) : Option BaseType :=
  match t with
  | .byte | .int16 | .uint16 | .int32 | .uint32 | .float32 | .float64 | .str | .url | .array
  | .structure | .sequence | .grid => some (.mk t name [] Array.fresh [])
  | _ => none

/-! ## What the reader reports -/

structure SaxAttribute where
  localname : Chars
  pre : Option Chars
  uri : Option Chars
  value : Chars
  deriving DecidableEq, Repr

structure StartTag where
  localname : Chars
  pre : Option Chars
  uri : Option Chars
  namespaces : List (Option Chars × Chars)
  attributes : List SaxAttribute
  deriving DecidableEq, Repr

/-- `problem` is a warning or an error of the reader. -/
inductive Event where
  | start (tag : StartTag)
  | characters (ch : Chars)
  | ignorableWhitespace (ch : Chars)
  | cdata (value : Chars)
  | finish (localname : Chars) (pre uri : Option Chars)
  | problem (msg : Chars)
  deriving DecidableEq, Repr

/-! ## The parser -/

structure XMLAttribute where
  pre : Chars
  nsURI : Chars
  value : Chars
  deriving DecidableEq, Repr

/-- `insert` into a map, which is sorted and keeps the value of a key that it has. -/
def mapInsert {β : Type} (key : Chars) (value : β) : List (Chars × β) → List (Chars × β)
  | [] => [(key, value)]
  | entry :: rest =>
    if key = entry.1 then entry :: rest
    else if key < entry.1 then (key, value) :: entry :: rest
    else entry :: mapInsert key value rest

structure DDS where
  datasetName : Chars
  dapVersion : Chars
  vars : List BaseType

structure Parser where
  s : List ParseState
  btStack : List BaseType
  atStack : List Table
  otherXml : Chars
  otherXmlDepth : Nat
  errorMsg : List Chars
  dds : DDS
  blobHref : Chars
  dodsAttrName : Chars
  dodsAttrType : Chars
  charData : Chars
  rootNs : Chars
  attributeTable : List (Chars × XMLAttribute)
  namespaceTable : List (Chars × Chars)
  /-- The next address of a table. -/
  address : Nat

/-- A new parser that is given a DDS. -/
def Parser.new (dds : DDS) : Parser where
  s := []
  btStack := []
  atStack := []
  otherXml := []
  otherXmlDepth := 0
  errorMsg := []
  dds
  blobHref := []
  dodsAttrName := []
  dodsAttrType := []
  charData := []
  rootNs := []
  attributeTable := []
  namespaceTable := []
  address := 0

namespace Parser
variable (p : Parser)

def setState (state : ParseState) : Parser := { p with s := state :: p.s }

def popState : Parser := { p with s := p.s.tail }

/-- `ddx_fatal_error`; `str` has 1024 characters. -/
def fatalError (msg : Chars) : Parser :=
  { p with s := .parserError :: p.s, errorMsg := p.errorMsg ++ [msg.take 1023] }

/-- `ddx_fatal_error` with a name in its message. -/
def errorAt (before : String) (name : Chars) (after : String) : Parser :=
  p.fatalError (before.toList ++ name ++ after.toList)

def transferXmlAttrs (attributes : List SaxAttribute) : Parser :=
  { p with
    attributeTable := attributes.foldl (fun table a =>
      mapInsert a.localname ⟨a.pre.getD [], a.uri.getD [], a.value⟩ table) [] }

def transferXmlNs (namespaces : List (Option Chars × Chars)) : Parser :=
  { p with
    namespaceTable := namespaces.foldl (fun table ns => mapInsert (ns.1.getD []) ns.2 table)
      p.namespaceTable }

/-- `attribute_table[name].value`. -/
def xmlAttr (name : String) : Chars :=
  ((p.attributeTable.lookup name.toList).map XMLAttribute.value).getD []

def checkAttribute (name : String) : Bool := (p.attributeTable.lookup name.toList).isSome

/-- `check_required_attribute`, which answers true in any case. -/
def checkRequiredAttribute (name : String) : Parser :=
  if p.checkAttribute name then p
  else p.errorAt "Required attribute '" name.toList "' not found."

end Parser

/-! ## Tables -/

mutual

def findBelow (target : Chars) : Attribute → Option Attribute
  | .values _ _ _ _ => none
  | .container _ _ _ attrMap => recurrsiveFind target attrMap

/-- `recurrsive_find`: the entry alone. -/
def recurrsiveFind (target : Chars) : List Attribute → Option Attribute
  | [] => none
  | e :: es => if e.name = target then some e else findBelow target e <|> recurrsiveFind target es

end

/-- What is before the last dot and behind it. -/
def splitLast (target : Chars) : Option (Chars × Chars) :=
  if '.' ∈ target then
    some (((target.reverse.dropWhile (· ≠ '.')).drop 1).reverse,
      (target.reverse.takeWhile (· ≠ '.')).reverse)
  else none

/-- `find`: the entry alone. -/
def find (t : Table) (target : Chars) : Option Attribute :=
  match splitLast target with
  | some (container, field) =>
    match getAttrTable t container with
    | .ok (some below) => simpleFind below.attrMap field
    | _ => none
  | none => recurrsiveFind target t.attrMap

def tableError (before : String) (name : Chars) (after : String) : Failure :=
  .error .unknownError (before ++ String.ofList name ++ after)

/-- `attr_alias(alias, name)`: only containers have aliases here, for the table itself stands
for the one of the DAS. -/
def attrAlias (t : Table) (name source : Chars) : Except Failure Table :=
  let lname := Attributes.removeSpaceEncoding name
  match find t (Attributes.removeSpaceEncoding source) with
  | none =>
    .error (tableError "Could not find the attribute `" source "' in the attribute object.")
  | some (.values _ _ _ _) =>
    .error (.error .unknownError ("A value cannot be aliased to the top level of the DAS;\n" ++
      "Only containers may be present at that level of the DAS."))
  | some (.container _ address tableName attrMap) =>
    if (simpleFind t.attrMap lname).isSome then
      .error (tableError "There already exists a container called `" name
        "in this attribute table. (3)")
    else .ok { t with attrMap := t.attrMap ++ [.container lname address tableName attrMap] }

/-- The last entry of a table is brought up to date. -/
def closeContainer (child parent : Table) : Table :=
  { parent with
    attrMap := match parent.attrMap.getLast? with
      | some (.container name address tableName _) =>
        parent.attrMap.dropLast ++ [.container name address tableName child.attrMap]
      | _ => parent.attrMap }

namespace Parser
variable (p : Parser)

/-- A call on the table on top of `at_stack`. -/
def changeTable (f : Table → Except Failure Table) : Except Failure Parser :=
  match p.atStack with
  | [] => .error .undefinedBehaviour
  | t :: ats => do
    let t ← f t
    pure { p with atStack := t :: ats }

/-- `append_container`, and the new table is pushed. -/
def appendContainer (name : Chars) : Except Failure Parser := do
  let p ← p.changeTable fun t => DASParser.appendContainer t p.address name
  let lname := Attributes.removeSpaceEncoding name
  let child : Table :=
    { address := p.address, name := Attributes.removeSpaceEncoding lname, attrMap := [] }
  pure { p with atStack := child :: p.atStack, address := p.address + 1 }

/-! ## Actions -/

def processAttributeElement (attributes : List SaxAttribute) : Except Failure Parser :=
  let p := ((p.transferXmlAttrs attributes).checkRequiredAttribute
    "name").checkRequiredAttribute "type"
  if p.xmlAttr "type" = "Container".toList then
    (p.setState .insideAttributeContainer).appendContainer (p.xmlAttr "name")
  else
    let state := if p.xmlAttr "type" = "OtherXML".toList then ParseState.insideOtherXmlAttribute
      else .insideAttribute
    .ok { p.setState state with
      dodsAttrName := p.xmlAttr "name", dodsAttrType := p.xmlAttr "type" }

def processAttributeAlias (attributes : List SaxAttribute) : Except Failure Parser :=
  let p := (((p.transferXmlAttrs attributes).checkRequiredAttribute
    "name").checkRequiredAttribute "attribute").setState .insideAlias
  p.changeTable fun t => attrAlias t (p.xmlAttr "name") (p.xmlAttr "attribute")

/-- The state is set first. What the factory does not make is an error, and its table is
taken all the same. -/
def processVariable (t : VarType) (state : ParseState) (attributes : List SaxAttribute) :
    Except Failure Parser :=
  let p := (p.transferXmlAttrs attributes).setState state
  match p.btStack with
  | [] => .error .undefinedBehaviour
  | top :: _ =>
    let p := if top.type = .array then p else p.checkRequiredAttribute "name"
    match factory t (p.xmlAttr "name") with
    | none => .error .undefinedBehaviour
    | some btp =>
      let table : Table := { address := p.address, name := [], attrMap := [] }
      .ok { p with
        btStack := btp :: p.btStack, atStack := table :: p.atStack, address := p.address + 1 }

def processDimension (attributes : List SaxAttribute) : Except Failure Parser :=
  let p := ((p.transferXmlAttrs attributes).checkRequiredAttribute "size").setState
    .insideDimension
  match p.btStack with
  | [] => .error .undefinedBehaviour
  | top :: bts =>
    if top.type ≠ .array then
      .ok (p.fatalError "Parse error: Expected an array variable.".toList)
    else
      let size := Words.atoi ((p.xmlAttr "size").map fun c => c.toNat.toUInt8)
      .ok { p with
        btStack := top.setDims (top.dims.appendDim size (String.ofList (p.xmlAttr "name"))) ::
          bts }

def processBlob (attributes : List SaxAttribute) : Except Failure Parser :=
  let p := ((p.transferXmlAttrs attributes).checkRequiredAttribute "href").setState
    .insideBlobHref
  .ok { p with blobHref := p.xmlAttr "href" }

def isAttributeOrAlias (name : Chars) (attributes : List SaxAttribute) :
    Option (Except Failure Parser) :=
  if name = "Attribute".toList then some (p.processAttributeElement attributes)
  else if name = "Alias".toList then some (p.processAttributeAlias attributes)
  else none

def isVariable (name : Chars) (attributes : List SaxAttribute) :
    Option (Except Failure Parser) :=
  let t := getType (String.ofList name)
  if isSimpleType t then some (p.processVariable t .insideSimpleType attributes)
  else if name = "Array".toList then some (p.processVariable .array .insideArray attributes)
  else if name = "Structure".toList then
    some (p.processVariable .structure .insideStructure attributes)
  else if name = "Sequence".toList then
    some (p.processVariable .sequence .insideSequence attributes)
  else if name = "Grid".toList then some (p.processVariable .grid .insideGrid attributes)
  else none

/-- Where the top of `bt_stack` goes once it is popped: into the variable below. -/
def addToParent (btp : BaseType) (kind tag : Chars) : Except Failure Parser :=
  match p.btStack with
  | [] => .error .undefinedBehaviour
  | parent :: below =>
    if isVectorType parent.type || isConstructorType parent.type then do
      let parent ← btp.addVar parent
      pure { p with btStack := parent :: below }
    else
      .ok (p.fatalError ("Tried to add the ".toList ++ kind ++ " variable '".toList ++ tag ++
        "' to a non-constructor type (".toList ++ (typeName parent.type).toList ++ " ".toList ++
        parent.name ++ ").".toList))

def finishVariable (tag : Chars) (t : VarType) (expected : String) : Except Failure Parser :=
  if tag ≠ expected.toList then
    .ok (p.errorAt ("Expected an end tag for a " ++ expected ++ "; found '") tag "' instead.")
  else
    match p.btStack, p.atStack with
    | btp :: bts, table :: ats =>
      let btp := btp.setAttr table.attrMap
      let p : Parser := { p.popState with btStack := bts, atStack := ats }
      if btp.type ≠ t then
        .ok (p.fatalError ("Internal error: Expected a " ++ expected ++ " variable.").toList)
      else if t = .array ∧ btp.dims.shape = [] then
        .ok (p.errorAt "No dimension element included in the Array '" btp.name "'.")
      else p.addToParent btp "array".toList tag
    | _, _ => .error .undefinedBehaviour

/-! ## Callbacks -/

/-- `ddx_start_document`; what a DDS has for attributes is not looked at. -/
def startDocument : Parser :=
  ({ p with
    errorMsg := []
    charData := []
    atStack := { address := p.address, name := [], attrMap := [] } :: p.atStack
    btStack := .mk .structure "dummy_dds".toList [] Array.fresh [] :: p.btStack
    address := p.address + 1 } : Parser).setState .parserStart

/-- The version of a Dataset element, or the one that the DDS has. -/
def datasetVersion : Except Failure Chars :=
  if p.checkAttribute "dapVersion" then DapVersion.setDapVersion (p.xmlAttr "dapVersion")
  else .ok p.dds.dapVersion

/-- The Dataset element in the state `parser_start`. -/
def startDataset (tag : StartTag) : Except Failure Parser := do
  let p := (({ p.setState .insideDataset with rootNs := tag.uri.getD [] } :
    Parser).transferXmlAttrs tag.attributes).checkRequiredAttribute "name"
  let dapVersion ← p.datasetVersion
  pure { p with dds := { p.dds with datasetName := p.xmlAttr "name", dapVersion } }

def qualified (pre : Chars) (name : Chars) : Chars :=
  if pre = [] then name else pre ++ ":".toList ++ name

def quoted (value : Chars) : Chars := "=\"".toList ++ value ++ "\"".toList

/-- What is written of `namespace_table`. -/
def namespacesText (table : List (Chars × Chars)) : Chars :=
  table.flatMap fun ns =>
    " xmlns".toList ++ (if ns.1 = [] then [] else ":".toList ++ ns.1) ++ quoted ns.2

/-- What is written of `attribute_table`. -/
def attributesText (table : List (Chars × XMLAttribute)) : Chars :=
  table.flatMap fun a => " ".toList ++ qualified a.2.pre a.1 ++ quoted a.2.value

/-- An element inside an `OtherXML` attribute; a prefix that is not null is not empty. -/
def startOtherXml (tag : StartTag) : Parser :=
  let p := if tag.namespaces = [] then p else p.transferXmlNs tag.namespaces
  let p := if tag.attributes = [] then p else p.transferXmlAttrs tag.attributes
  { p with
    otherXmlDepth := (p.otherXmlDepth + 1) % 2 ^ 32
    otherXml := p.otherXml ++ "<".toList ++ qualified (tag.pre.getD []) tag.localname ++
      (if tag.namespaces = [] then [] else namespacesText p.namespaceTable) ++
      (if tag.attributes = [] then [] else attributesText p.attributeTable) ++ ">".toList }

def expected (what : String) (localname : Chars) : Parser :=
  p.errorAt ("Expected " ++ what ++ "; found '") localname "' instead."

def unexpected (inside : String) (localname : Chars) : Parser :=
  p.errorAt ("Internal parser error; unexpected state, inside " ++ inside ++
    " while processing element '") localname "'."

/-- `ddx_sax2_start_element`. -/
def startElement (tag : StartTag) : Except Failure Parser :=
  let name := tag.localname
  let attr := p.isAttributeOrAlias name tag.attributes
  let var := p.isVariable name tag.attributes
  match p.s with
  | [] => .error .undefinedBehaviour
  | .parserStart :: _ =>
    if name = "Dataset".toList then p.startDataset tag
    else .ok (p.expected "response to start with a Dataset element" name)
  | .insideDataset :: _ =>
    (attr <|> var).getD
      (if name = "blob".toList ∨ name = "dataBLOB".toList then p.processBlob tag.attributes
      else .ok (p.expected "an Attribute, Alias or variable element" name))
  | .insideAttributeContainer :: _ =>
    attr.getD (.ok (p.expected "an Attribute or Alias element" name))
  | .insideAttribute :: _ =>
    attr.getD
      (if name = "value".toList then .ok (p.setState .insideAttributeValue)
      else .ok (p.expected "an 'Attribute', 'Alias' or 'value' element" name))
  | .insideAttributeValue :: _ => .ok (p.unexpected "value" name)
  | .insideOtherXmlAttribute :: _ => .ok (p.startOtherXml tag)
  | .insideAlias :: _ => .ok (p.unexpected "alias" name)
  | .insideSimpleType :: _ =>
    attr.getD (.ok (p.expected "an 'Attribute' or 'Alias' element" name))
  | .insideArray :: _ =>
    (attr <|> if name = "Array".toList then none else var).getD
      (if name = "dimension".toList then p.processDimension tag.attributes
      else .ok (p.expected "an 'Attribute' or 'Alias' element" name))
  | .insideDimension :: _ => .ok (p.unexpected "dimension" name)
  | .insideStructure :: _ | .insideSequence :: _ =>
    (attr <|> var).getD (.ok (p.expected "an Attribute, Alias or variable element" name))
  | .insideGrid :: _ =>
    attr.getD
      (if name = "Array".toList then p.processVariable .array .insideArray tag.attributes
      else if name = "Map".toList then p.processVariable .array .insideMap tag.attributes
      else .ok (p.expected "an Attribute, Alias or variable element" name))
  | .insideMap :: _ =>
    (attr <|> if name = "Array".toList ∨ name = "Sequence".toList ∨ name = "Grid".toList
      then none else var).getD
      (if name = "dimension".toList then p.processDimension tag.attributes
      else .ok (p.expected "an 'Attribute', 'Alias', variable or 'dimension' element" name))
  | .insideBlobHref :: _ => .ok (p.unexpected "blob href" name)
  | .parserUnknown :: _ => .ok (p.setState .parserUnknown)
  | .parserError :: _ => .ok p

/-- The end of an element that only ends the state. -/
def endState (localname : Chars) (names : List Chars) (what : String) : Parser :=
  if localname ∈ names then p.popState else p.expected what localname

/-- The end of a simple variable. -/
def endSimpleType (tag : Chars) : Except Failure Parser :=
  if isSimpleType (getType (String.ofList tag)) then
    match p.btStack, p.atStack with
    | btp :: bts, table :: ats =>
      ({ p.popState with btStack := bts, atStack := ats } : Parser).addToParent
        (btp.setAttr table.attrMap) "simple-type".toList tag
    | _, _ => .error .undefinedBehaviour
  else .ok (p.expected "an end tag for a simple type" tag)

/-- The end of an attribute container. -/
def endContainer (localname : Chars) : Except Failure Parser :=
  if localname = "Attribute".toList then
    match p.atStack with
    | [] => .error .undefinedBehaviour
    | [_] => .ok { p.popState with atStack := [] }
    | child :: parent :: ats =>
      .ok { p.popState with atStack := closeContainer child parent :: ats }
  else .ok (p.expected "an end Attribute tag" localname)

/-- An end inside an `OtherXML` attribute. A string is compared with a null pointer if the
name is in no namespace. -/
def endOtherXml (localname : Chars) (pre uri : Option Chars) : Except Failure Parser :=
  if localname = "Attribute".toList ∧ uri = none then .error .undefinedBehaviour
  else if localname = "Attribute".toList ∧ uri = some p.rootNs then do
    let p ← p.popState.changeTable fun t =>
      DASParser.appendValue t p.dodsAttrType p.dodsAttrName p.otherXml
    pure { p with otherXml := [] }
  else
    let p := if p.otherXmlDepth = 0 then
        p.errorAt "Expected an OtherXML attribute to end! Instead I found '" localname "'"
      else p
    .ok { p with
      otherXmlDepth := if p.otherXmlDepth = 0 then 2 ^ 32 - 1 else p.otherXmlDepth - 1
      otherXml := p.otherXml ++ "</".toList ++ qualified (pre.getD []) localname ++ ">".toList }

/-- `ddx_sax2_end_element`. -/
def endElement (localname : Chars) (pre uri : Option Chars) : Except Failure Parser :=
  match p.s with
  | [] => .error .undefinedBehaviour
  | .parserStart :: _ => .ok (p.unexpected "start state" localname)
  | .insideDataset :: _ =>
    .ok (p.endState localname ["Dataset".toList] "an end Dataset tag")
  | .insideAttributeContainer :: _ => p.endContainer localname
  | .insideAttribute :: _ =>
    .ok (p.endState localname ["Attribute".toList] "an end Attribute tag")
  | .insideAttributeValue :: _ =>
    if localname = "value".toList then do
      let p ← p.popState.changeTable fun t =>
        DASParser.appendValue t p.dodsAttrType p.dodsAttrName p.charData
      pure { p with charData := [] }
    else .ok (p.expected "an end value tag" localname)
  | .insideOtherXmlAttribute :: _ => p.endOtherXml localname pre uri
  | .insideAlias :: _ => .ok p.popState
  | .insideSimpleType :: _ => p.endSimpleType localname
  | .insideArray :: _ => p.finishVariable localname .array "Array"
  | .insideDimension :: _ =>
    .ok (p.endState localname ["dimension".toList] "an end dimension tag")
  | .insideStructure :: _ => p.finishVariable localname .structure "Structure"
  | .insideSequence :: _ => p.finishVariable localname .sequence "Sequence"
  | .insideGrid :: _ => p.finishVariable localname .grid "Grid"
  | .insideMap :: _ => p.finishVariable localname .array "Map"
  | .insideBlobHref :: _ =>
    .ok (p.endState localname ["blob".toList, "dataBLOB".toList] "an end dataBLOB/blob tag")
  | .parserUnknown :: _ => .ok p.popState
  | .parserError :: _ => .ok p

/-- `ddx_get_characters`. -/
def getCharacters (ch : Chars) : Except Failure Parser :=
  match p.s with
  | [] => .error .undefinedBehaviour
  | .insideAttributeValue :: _ => .ok { p with charData := p.charData ++ ch }
  | .insideOtherXmlAttribute :: _ => .ok { p with otherXml := p.otherXml ++ ch }
  | _ => .ok p

/-- `ddx_ignoreable_whitespace`. -/
def ignoreableWhitespace (ch : Chars) : Except Failure Parser :=
  match p.s with
  | [] => .error .undefinedBehaviour
  | .insideOtherXmlAttribute :: _ => .ok { p with otherXml := p.otherXml ++ ch }
  | _ => .ok p

/-- `ddx_get_cdata`. -/
def getCdata (value : Chars) : Except Failure Parser :=
  match p.s with
  | [] => .error .undefinedBehaviour
  | .insideOtherXmlAttribute :: _ => .ok { p with otherXml := p.otherXml ++ value }
  | .parserUnknown :: _ => .ok p
  | _ => .ok (p.fatalError "Found a CData block but none are allowed by DAP.".toList)

def step : Event → Except Failure Parser
  | .start tag => p.startElement tag
  | .characters ch => p.getCharacters ch
  | .ignorableWhitespace ch => p.ignoreableWhitespace ch
  | .cdata value => p.getCdata value
  | .finish localname pre uri => p.endElement localname pre uri
  | .problem msg => .ok (p.fatalError msg)

/-- `ddx_end_document`; the DDS has no container. What is on top of `bt_stack` is deleted,
also after an error. -/
def endDocument : Except Failure Parser :=
  match p.s with
  | [] => .error .undefinedBehaviour
  | state :: _ =>
    let p := if state = .parserStart then p
      else p.fatalError "The document contained unbalanced tags.".toList
    match p.btStack with
    | [] => .error .undefinedBehaviour
    | cp :: bts =>
      if state ≠ .parserStart then .ok p
      else if isConstructorType cp.type then
        .ok { p with
          dds := { p.dds with vars := p.dds.vars ++ cp.vars.map BaseType.ptrDuplicate }
          btStack := bts }
      else .ok (p.fatalError
        "Parse error: Expected a Structure, Sequence or Grid variable.".toList)

def ddxParseFailed (msg : Chars) : Failure :=
  .error .unknownError ("The DDX response document parse failed: " ++ String.ofList msg)

/-- `cleanup_parse` of a document that the reader found well formed and valid. -/
def cleanupParse : Except Failure Parser :=
  match p.s with
  | [] => .error .undefinedBehaviour
  | .parserError :: _ =>
    .error (ddxParseFailed ("\nError parsing DDX response.\n".toList ++
      (p.errorMsg.map (· ++ "\n".toList)).flatten))
  | _ => .ok p

end Parser

/-- The callbacks in the order the reader makes them, and `cleanup_parse`. -/
def parse (dds : DDS) (events : List Event) : Except Failure Parser := do
  let p ← events.foldlM Parser.step (Parser.new dds).startDocument
  let p ← p.endDocument
  p.cleanupParse

end Libdap.Source.DDXParserSAX2
