import Libdap.Source.D4ParserSax2
import Libdap.Source.DDXParserSAX2

/-!
# D4ParserSax2: all that the reader reports

The callbacks with the prefixes and namespaces of elements, with CDATA, white space and the
messages of the reader. The namespaces matter in an `OtherXML` attribute only; in the other
states the callbacks do what they do without them. The reader's first callback is the start of
the document.
-/
namespace Libdap.Source.D4ParserNamespaces
open HTTPCacheTable (Chars)
open D4ParserSax2 (ParseState Parser)
open DMR (appendAttr)
open DDXParserSAX2 (SaxAttribute StartTag Event XMLAttribute mapInsert)
open DDXParserSAX2.Parser (qualified namespacesText attributesText)

/-- The parser with the fields that namespaces need. -/
structure D4Parser where
  parser : Parser
  rootNs : Chars
  namespaceTable : List (Chars × Chars)
  /-- What the DDS was told by `set_namespace`. -/
  ddsNamespace : Option Chars

def D4Parser.new (dds : D4ParserSax2.DDS) : D4Parser :=
  { parser := .new dds, rootNs := [], namespaceTable := [], ddsNamespace := none }

/-- What the helpers see of the attributes. -/
def plainAttributes (attributes : List SaxAttribute) : List (String × String) :=
  attributes.map fun a => (String.ofList a.localname, String.ofList a.value)

/-- `xml_attrs`, with what is printed of it. -/
def attributeTable (attributes : List SaxAttribute) : List (Chars × XMLAttribute) :=
  attributes.foldl (fun table a =>
    mapInsert a.localname ⟨a.pre.getD [], a.uri.getD [], a.value⟩ table) []

namespace D4Parser
variable (p : D4Parser)

def startDocument : D4Parser := { p with parser := p.parser.startDocument }

def fatalError (msg : Chars) : D4Parser :=
  { p with parser := p.parser.fatalError (String.ofList msg) }

/-- `transfer_xml_ns`; the table is never emptied. -/
def transferXmlNs (namespaces : List (Option Chars × Chars)) : D4Parser :=
  { p with
    namespaceTable := namespaces.foldl (fun table ns => mapInsert (ns.1.getD []) ns.2 table)
      p.namespaceTable }

/-- An element inside an `OtherXML` attribute. -/
def startOtherXml (tag : StartTag) : D4Parser :=
  let p := if tag.namespaces = [] then p else p.transferXmlNs tag.namespaces
  let parser := if tag.attributes = [] then p.parser
    else p.parser.transferXmlAttrs (plainAttributes tag.attributes)
  let text := "<".toList ++ qualified (tag.pre.getD []) tag.localname ++
    (if tag.namespaces = [] then [] else namespacesText p.namespaceTable) ++
    (if tag.attributes = [] then [] else attributesText (attributeTable tag.attributes)) ++
    ">".toList
  { p with parser := { parser with
    otherXmlDepth := (parser.otherXmlDepth + 1) % 2 ^ 32
    otherXml := parser.otherXml ++ String.ofList text } }

/-- `root_ns`, and the namespace of the DDS. -/
def setRootNs (uri : Option Chars) : D4Parser :=
  let rootNs := uri.getD []
  { p with
    rootNs
    ddsNamespace := if rootNs = [] then p.ddsNamespace else some rootNs }

/-- `ddx_start_element`. -/
def startElement (tag : StartTag) : Except Failure D4Parser :=
  let name := String.ofList tag.localname
  match p.parser.s with
  | .insideOtherXmlAttribute :: _ => .ok (p.startOtherXml tag)
  | .parserStart :: _ => do
    let p := if name = "Group" then p.setRootNs tag.uri else p
    let parser ← p.parser.startElement name (plainAttributes tag.attributes)
    pure { p with parser }
  | _ => do
    let parser ← p.parser.startElement name (plainAttributes tag.attributes)
    pure { p with parser }

/-- The end of an element inside an `OtherXML` attribute, or of the attribute: the namespace of
the root is compared with the element's, also where it has none. -/
def endOtherXml (localname : Chars) (pre uri : Option Chars) : Except Failure D4Parser :=
  if localname = "Attribute".toList ∧ uri = none then .error .undefinedBehaviour
  else if localname = "Attribute".toList ∧ uri = some p.rootNs then do
    let scratch := p.parser.scratch
    let parser ← p.parser.popState.changeTable fun table =>
      appendAttr table scratch.dodsAttrName scratch.dodsAttrType p.parser.otherXml
    pure { p with parser := { parser with otherXml := "" } }
  else
    let parser := if p.parser.otherXmlDepth = 0 then p.parser.fatalError
      ("Expected an OtherXML attribute to end! Instead I found '" ++ String.ofList localname ++ "'")
      else p.parser
    .ok { p with parser := { parser with
      otherXmlDepth := if parser.otherXmlDepth = 0 then 2 ^ 32 - 1 else parser.otherXmlDepth - 1
      otherXml := parser.otherXml ++
        String.ofList ("</".toList ++ qualified (pre.getD []) localname ++ ">".toList) } }

/-- `ddx_end_element`. -/
def endElement (localname : Chars) (pre uri : Option Chars) : Except Failure D4Parser :=
  match p.parser.s with
  | .insideOtherXmlAttribute :: _ => p.endOtherXml localname pre uri
  | _ => do
    let parser ← p.parser.endElement (String.ofList localname)
    pure { p with parser }

def getCharacters (ch : Chars) : Except Failure D4Parser := do
  let parser ← p.parser.getCharacters (String.ofList ch)
  pure { p with parser }

/-- `ddx_ignoreable_whitespace`. -/
def ignoreableWhitespace (ch : Chars) : Except Failure D4Parser :=
  match p.parser.s with
  | [] => .error .undefinedBehaviour
  | .insideOtherXmlAttribute :: _ =>
    .ok { p with parser := { p.parser with otherXml := p.parser.otherXml ++ String.ofList ch } }
  | _ => .ok p

/-- `ddx_get_cdata`. -/
def getCdata (value : Chars) : Except Failure D4Parser :=
  match p.parser.s with
  | [] => .error .undefinedBehaviour
  | .insideOtherXmlAttribute :: _ =>
    .ok { p with
      parser := { p.parser with otherXml := p.parser.otherXml ++ String.ofList value } }
  | _ => .ok (p.fatalError "Found a CData block but none are allowed by DAP.".toList)

def step : Event → Except Failure D4Parser
  | .start tag => p.startElement tag
  | .characters ch => p.getCharacters ch
  | .ignorableWhitespace ch => p.ignoreableWhitespace ch
  | .cdata value => p.getCdata value
  | .finish localname pre uri => p.endElement localname pre uri
  | .problem msg => .ok (p.fatalError msg)

def endDocument : Except Failure D4Parser := do
  let parser ← p.parser.endDocument
  pure { p with parser }

/-- `D4ParseError`, whose text names the DDX. -/
def d4ParseError (msg : String) : Failure :=
  .error .unknownError ("The DDX response document parse failed: " ++ msg)

def errorText : String := String.join (p.parser.errorMsg.map (· ++ "\n"))

/-- `cleanup_parse`, by what the reader says of the document. -/
def cleanupParse (wellFormed valid : Bool) : Except Failure Unit :=
  if !wellFormed then
    .error (d4ParseError ("\nThe DDX is not a well formed XML document.\n" ++ p.errorText))
  else if !valid then
    .error (d4ParseError ("\nThe DDX is not a valid document.\n" ++ p.errorText))
  else
    match p.parser.s with
    | [] => .error .undefinedBehaviour
    | .parserError :: _ =>
      .error (d4ParseError ("\nError parsing DMR response.\n" ++ p.errorText))
    | _ => .ok ()

end D4Parser

/-- The callbacks of a document up to its end. -/
def callbacks (dds : D4ParserSax2.DDS) (events : List Event) : Except Failure D4Parser := do
  let p ← events.foldlM D4Parser.step (D4Parser.new dds).startDocument
  p.endDocument

end Libdap.Source.D4ParserNamespaces
