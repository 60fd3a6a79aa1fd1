import Libdap.Source.AISResources

/-!
# AISDatabaseParser.cc: the callbacks of the database's parser

`xmlParseDocument` is a parameter: what it makes of a file are the events that it reports, with
their lines, and whether the document is well formed and valid. Attributes come as one array,
which is null for an element without any. `vsnprintf` with a message that has no further
arguments is a parameter, too.
-/
namespace Libdap.Source.AIS
open Libdap.Source.HTTPCacheTable (Chars)
open Libdap.Source.ErrorText (printInt)

inductive ParseState where
  | start | finish | ais | entry | primary | ancillary | unknown | error
  deriving DecidableEq, Repr

/-- `error_msg` is a text, `regexp` is not set before the first `primary`. -/
structure ParserState where
  state : ParseState
  prevState : ParseState
  unknownDepth : Int
  errorMsg : Chars
  resources : AISResources
  primary : Chars
  regexp : Bool
  rv : List Resource
  /-- A format had conversions for which there are no arguments. -/
  undefined : Bool
  deriving DecidableEq, Repr

/-- What the XML parser calls between the start and the end of the document. A warning, an error
and a fatal error have the same callback. -/
inductive Event where
  | startElement (name : Chars) (attrs : List (Chars × Chars))
  | endElement (name : Chars)
  | fatalError (msg : Chars)
  deriving DecidableEq, Repr

structure Document where
  /-- What is reported before the start of the document, as of its XML declaration. -/
  reported : List (Int × Chars)
  /-- Every event with its line. -/
  events : List (Int × Event)
  lastLine : Int
  wellFormed : Bool
  valid : Bool

def aisStartDocument (s : ParserState) : ParserState :=
  { s with state := .start, unknownDepth := 0, prevState := .unknown, errorMsg := [] }

/-- What `vsnprintf` makes of a format without arguments, if it has no conversions. -/
def formatted : Chars → Option Chars
  | [] => some []
  | '%' :: '%' :: rest => (formatted rest).map ('%' :: ·)
  | c :: rest => if c = '%' then none else (formatted rest).map (c :: ·)

/-- `str` has 1024 characters. -/
def appendError (line : Int) (s : ParserState) (text : Chars) : ParserState :=
  { s with
    state := .error
    errorMsg := s.errorMsg ++ ("At line: ".toList ++ printInt line ++ ": ".toList) ++
      (text.take 1023 ++ ['\n']) }

def aisFatalError (line : Int) (s : ParserState) (msg : Chars) : ParserState :=
  match formatted msg with
  | some text => appendError line s text
  | none => { s with state := .error, undefined := true }

def aisEndDocument (line : Int) (s : ParserState) : ParserState :=
  if s.unknownDepth ≠ 0 then
    aisFatalError line s "The document contained unbalanced tags.".toList
  else s

def goTo (state : ParseState) (s : ParserState) : ParserState :=
  { s with prevState := s.state, state }

def unknownElement (s : ParserState) : ParserState :=
  { goTo .unknown s with unknownDepth := s.unknownDepth + 1 }

/-- Only the first attribute is looked at, and another one leaves the last entry's. -/
def primaryElement (line : Int) (attrs : List (Chars × Chars)) (s : ParserState) : ParserState :=
  match attrs with
  | [] =>
    aisFatalError line s
      "Required attribute 'url' or 'regexp' missing from element 'primary'.".toList
  | (name, value) :: _ =>
    if name = "url".toList then { s with regexp := false, primary := value }
    else if name = "regexp".toList then { s with regexp := true, primary := value }
    else s

/-- The `url` and the `rule` of an element: those that come last, or the defaults. -/
def ancillaryAttributes : List (Chars × Chars) → Chars × Chars → Chars × Chars
  | [], found => found
  | (name, value) :: rest, (url, rule) =>
    ancillaryAttributes rest
      (if name = "url".toList then (value, rule)
        else if name = "rule".toList then (url, value) else (url, rule))

def ancillaryElement (line : Int) (attrs : List (Chars × Chars)) (s : ParserState) :
    ParserState :=
  let (url, rule) := ancillaryAttributes attrs ([], "overwrite".toList)
  if url = [] then
    aisFatalError line s
      "Required attribute 'url' missing from element 'ancillary'.".toList
  else if rule ≠ "overwrite".toList ∧ rule ≠ "replace".toList ∧ rule ≠ "fallback".toList then
    aisFatalError line s
      ("Optional attribute 'rule' in element 'ancillary' has a bad value: ".toList ++ rule ++
        "\nIt should be one of 'overwrite', 'replace' or 'fallback'.".toList)
  else
    match Resource.ofName url rule with
    | .ok r => { s with rv := s.rv ++ [r] }
    -- The constructor knows every rule that was let through.
    | .error _ => s

def aisStartElement (line : Int) (name : Chars) (attrs : List (Chars × Chars))
    (s : ParserState) : ParserState :=
  match s.state with
  | .start => { s with state := .ais }
  | .ais => if name = "entry".toList then goTo .entry s else unknownElement s
  | .entry =>
    if name = "primary".toList then primaryElement line attrs (goTo .primary s)
    else if name = "ancillary".toList then
      ancillaryElement line attrs (goTo .ancillary s)
    else unknownElement s
  | .unknown => { s with unknownDepth := s.unknownDepth + 1 }
  | .finish => s
  | .primary => s
  | .ancillary => s
  | .error => s

/-- What `primary` and `rv` hold is recorded. -/
def recordEntry (s : ParserState) : ParserState :=
  { s with
    resources :=
      if s.regexp then s.resources.addRegexpResource s.primary s.rv
      else s.resources.addUrlResource s.primary s.rv
    rv := [] }

def aisEndElement (s : ParserState) : ParserState :=
  match s.state with
  | .ais => goTo .finish s
  | .entry => recordEntry (goTo .ais s)
  | .primary => goTo .entry s
  | .ancillary => goTo .entry s
  | .unknown => { s with unknownDepth := s.unknownDepth - 1 }
  | .error => s
  | .start => s
  | .finish => s

def handle (line : Int) (s : ParserState) : Event → ParserState
  | .startElement name attrs => aisStartElement line name attrs s
  | .endElement _ => aisEndElement s
  | .fatalError msg => appendError line s msg

def handleAll (events : List (Int × Event)) (s : ParserState) : ParserState :=
  events.foldl (fun s e => handle e.1 s e.2) s

/-- The state before a document is read; `regexp` has any value. -/
def initial (garbage : Bool) (ais : AISResources) : ParserState where
  state := .start
  prevState := .unknown
  unknownDepth := 0
  errorMsg := []
  resources := ais
  primary := []
  regexp := garbage
  rv := []
  undefined := false

def readFailed (before : String) (s : ParserState) : Failure :=
  .error .unknownError
    ("The AIS database read failed: " ++ "\n" ++ before ++ "\n" ++ String.ofList s.errorMsg)

/-- `AISDatabaseParser::intern`, called by `read_database`; there is no document if the file
cannot be opened. An exception leaves what was recorded. -/
def readDatabase (garbage : Bool) (document : Option Document) (ais : AISResources) :
    AISResources × Except Failure Unit :=
  match document with
  | none => (ais, .ok ())
  | some doc =>
    let before := doc.reported.foldl (fun s e => appendError e.1 s e.2) (initial garbage ais)
    let s := aisEndDocument doc.lastLine (handleAll doc.events (aisStartDocument before))
    (s.resources,
      if s.undefined then .error .undefinedBehaviour
      else if doc.wellFormed = false then
        .error (readFailed "The database is not a well formed XML document." s)
      else if doc.valid = false then
        .error (readFailed "The database is not a valid document." s)
      else if s.state = .error then .error (readFailed "Error parsing AIS resources." s)
      else .ok ())

end Libdap.Source.AIS
