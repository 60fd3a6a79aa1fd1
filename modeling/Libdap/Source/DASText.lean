import Libdap.Source.DASParser

/-!
# das.lex, das.yy, AttrTable.cc, DDS.cc: the DAS as text

The scanner starts in the start condition that the text before left it in; line numbers are
left out. Every rule reads at least one character, so a word that was read is skipped character
by character. A text is read into the tree of its reductions before their actions run.
-/
namespace Libdap.Source.DASText
open Libdap.Source.Attributes (AttrType demand typeToString addSpaceEncoding writeValues)
open Libdap.Source.AttributeTransfer Libdap.Source.DASParser

/-- What a word is to the grammar. -/
inductive Kind where
  | attr | alias | plain
  | type (type : Keyword)
  deriving DecidableEq, Repr

inductive Token where
  | sign (c : Char)
  | word (kind : Kind) (text : List Char)
  deriving DecidableEq, Repr

def keywords : List (String × Kind) :=
  [("attributes", .attr), ("Attributes", .attr), ("ATTRIBUTES", .attr), ("ALIAS", .alias),
    ("Alias", .alias), ("alias", .alias), ("BYTE", .type .byte), ("Byte", .type .byte),
    ("byte", .type .byte), ("INT16", .type .int16), ("Int16", .type .int16),
    ("int16", .type .int16), ("UINT16", .type .uint16), ("UInt16", .type .uint16),
    ("Uint16", .type .uint16), ("uint16", .type .uint16), ("INT32", .type .int32),
    ("Int32", .type .int32), ("int32", .type .int32), ("UINT32", .type .uint32),
    ("UInt32", .type .uint32), ("Uint32", .type .uint32), ("uint32", .type .uint32),
    ("FLOAT32", .type .float32), ("Float32", .type .float32), ("float32", .type .float32),
    ("FLOAT64", .type .float64), ("Float64", .type .float64), ("float64", .type .float64),
    ("STRING", .type .string), ("String", .type .string), ("string", .type .string),
    ("URL", .type .url), ("Url", .type .url), ("url", .type .url), ("OTHERXML", .type .xml),
    ("OtherXML", .type .xml), ("OtherXml", .type .xml), ("otherxml", .type .xml)]

def kindOf (text : List Char) : Kind :=
  match keywords.find? fun word => word.1.toList = text with
  | some word => word.2
  | none => .plain

def doubleQuote : Char := Char.ofNat 34

def backslash : Char := Char.ofNat 92

/-- The first character of a `WORD`. -/
def startsWord (c : Char) : Bool :=
  c.isAlphanum || c ∈ ['-', '+', '_', '/', '%', '.', ':', backslash, '(', ')', '*']

def isWordChar (c : Char) : Bool := startsWord c || c = '#'

def isSign (c : Char) : Bool := c ∈ ['\x7b', '\x7d', ';', ',']

/-- Where the scanner is: behind what is still to be skipped, in a comment, or in a quote
with `yytext` so far. -/
inductive Scanning where
  | initial (skip : Nat)
  | comment
  | quote (yytext : List Char)
  deriving DecidableEq, Repr

def unterminated : Failure :=
  .error .unknownError "Error scanning DAS object text: Unterminated quote\n"

/-- The tokens up to the end of the text or to what the scanner throws. In a quote neither a
backslash before a line end nor a carriage return without one matches a rule: it is echoed,
with all that was read of the quote. -/
def scan : Scanning → List Char → List (Except Failure Token)
  | .quote _, [] => [.error unterminated]
  | _, [] => []
  | .initial (skip + 1), _ :: rest => scan (.initial skip) rest
  | .initial 0, c :: rest =>
    if startsWord c then
      let more := rest.takeWhile isWordChar
      .ok (.word (kindOf (c :: more)) (c :: more)) :: scan (.initial more.length) rest
    else if isSign c then .ok (.sign c) :: scan (.initial 0) rest
    else if c = '#' then scan .comment rest
    else if c = doubleQuote then scan (.quote [c]) rest
    else scan (.initial 0) rest
  | .comment, c :: rest => if c = '\n' then scan (.initial 0) rest else scan .comment rest
  | .quote yytext, c :: rest =>
    if c = doubleQuote then
      .ok (.word .plain (yytext ++ [c])) :: scan (.initial 0) rest
    else if c = backslash then
      match rest with
      | [] => [.error unterminated]
      | d :: rest' =>
        if d = '\n' then scan (.quote [d]) rest' else scan (.quote (yytext ++ [c, d])) rest'
    else if c = '\r' then
      match rest with
      | [] => [.error unterminated]
      | d :: rest' =>
        if d = '\n' then scan (.quote (yytext ++ [c, d])) rest'
        else scan (.quote []) (d :: rest')
    else scan (.quote (yytext ++ [c])) rest

/-- The start condition that a text leaves behind. At the end of the text no rule begins the
initial one again: a comment goes on in the next text. -/
def startAfter : Scanning → List Char → Scanning
  | .initial _, [] => .initial 0
  | .comment, [] => .comment
  | .quote _, [] => .quote []
  | .initial (skip + 1), _ :: rest => startAfter (.initial skip) rest
  | .initial 0, c :: rest =>
    if startsWord c then startAfter (.initial (rest.takeWhile isWordChar).length) rest
    else if c = '#' then startAfter .comment rest
    else if c = doubleQuote then startAfter (.quote [c]) rest
    else startAfter (.initial 0) rest
  | .comment, c :: rest =>
    if c = '\n' then startAfter (.initial 0) rest else startAfter .comment rest
  | .quote yytext, c :: rest =>
    if c = doubleQuote then startAfter (.initial 0) rest
    else if c = backslash then
      match rest with
      | [] => .quote []
      | _ :: rest' => startAfter (.quote yytext) rest'
    else startAfter (.quote yytext) rest

abbrev Tokens := List (Except Failure Token)

def expect (c : Char) : Tokens → Option Tokens
  | .ok (.sign d) :: rest => if d = c then some rest else none
  | _ => none

def readWord : Tokens → Option (List Char × Tokens)
  | .ok (.word .plain text) :: rest => some (text, rest)
  | _ => none

/-- `name`: every word may be one. -/
def readName : Tokens → Option (List Char × Tokens)
  | .ok (.word _ text) :: rest => some (text, rest)
  | _ => none

/-- The values behind the first one; `xml` has one only. -/
def readMore : Nat → Tokens → Option (List (List Char) × Tokens)
  | 0, _ => none
  | fuel + 1, tokens =>
    match expect ',' tokens with
    | none => some ([], tokens)
    | some rest => do
      let (value, rest) ← readWord rest
      let (more, rest) ← readMore fuel rest
      some (value :: more, rest)

/-- `attr_list` without aliases; every tuple takes one of the turns. -/
def readList : Nat → Tokens → Option (List Item × Tokens)
  | 0, _ => none
  | fuel + 1, .ok (.word (.type type) _) :: rest => do
    let (name, rest) ← readName rest
    let (first, rest) ← readWord rest
    let (more, rest) ← if type = .xml then some ([], rest) else readMore fuel rest
    let rest ← expect ';' rest
    let (items, rest) ← readList fuel rest
    some (.attr type name first more :: items, rest)
  | fuel + 1, .ok (.word .plain name) :: rest => do
    let rest ← expect '\x7b' rest
    let (items, rest) ← readList fuel rest
    let rest ← expect '\x7d' rest
    let (more, rest) ← readList fuel rest
    some (.container name items :: more, rest)
  | _ + 1, tokens => some ([], tokens)

/-- `attributes` behind the first one. -/
def readAttributes : Nat → Tokens → Option (List (List Item))
  | 0, _ => none
  | fuel + 1, .ok (.word .attr _) :: rest => do
    let rest ← expect '\x7b' rest
    let (items, rest) ← readList fuel rest
    let rest ← expect '\x7d' rest
    match rest with
    | [] => some [items]
    | next => do
      let more ← readAttributes fuel next
      some (items :: more)
  | _ + 1, _ => none

/-- A text that is not derived, and one with an unterminated quote, has no tree. -/
def readText (start : Scanning) (text : List Char) : Option (List (List Item)) :=
  readAttributes (text.length + 2) (scan start text)

def noDasMsg : String :=
  "The attribute object returned from the dataset was null\nCheck that the URL is correct."

/-- `DAS::parse` into a new DAS. -/
def parseText (check : Keyword → List Char → Bool) (start : Scanning) (text : List Char) :
    Except Failure (Table × Nat) :=
  match readText start text with
  | none => throw (parseError noDasMsg)
  | some attributes => parse check { address := 0, name := [], attrMap := [] } 1 attributes

mutual
/-- `AttrTable::print` and `simple_print`, of tables without aliases. -/
def printEntry (pad : List Char) : Attribute → Except Failure (List Char)
  | .values name type _ attr => do
    let values ← demand attr
    let written ← writeValues type values
    pure (pad ++ (typeToString type).toList ++ [' '] ++ addSpaceEncoding name ++ [' '] ++
      written)
  | .container name _ _ attrMap => do
    let body ← printAll (pad ++ "    ".toList) attrMap
    pure (pad ++ addSpaceEncoding name ++ " \x7b\n".toList ++ body ++ pad ++ "\x7d\n".toList)

def printAll (pad : List Char) : List Attribute → Except Failure (List Char)
  | [] => pure []
  | e :: rest => do
    let first ← printEntry pad e
    let later ← printAll pad rest
    pure (first ++ later)
end

/-- `DAS::print`, of entries. -/
def printDas (es : List Attribute) : Except Failure (List Char) := do
  let body ← printAll "    ".toList es
  pure ("Attributes \x7b\n".toList ++ body ++ "\x7d\n".toList)

/-- `DDS::print_das`: the variables' tables one after the other, without their names. -/
def DDS.printDas (dds : DDS) : Except Failure (List Char) := do
  let global ← printAll "    ".toList dds.attr
  let vars ← dds.vars.mapM fun var => printAll "    ".toList var.var.attributes
  pure ("Attributes \x7b\n".toList ++ global ++ vars.flatten ++ "\x7d\n".toList)

end Libdap.Source.DASText
