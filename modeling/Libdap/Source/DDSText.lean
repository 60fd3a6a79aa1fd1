import Libdap.Source.Declarations
import Libdap.Source.Words

/-!
# dds.lex, dds.yy: the DDS as text

The scanner starts in its initial state; line numbers, what is echoed and lines that do not fit
the scanner's buffer are left out. A text is read into the tree of its reductions before their
actions run; a text that is not derived has no tree.
-/
namespace Libdap.Source.DDSText
open Escaping Words Declarations

/-- What a word is to the grammar. -/
inductive Kind where
  | dataset | list | plain
  | constructor (isSequence : Bool)
  | grid
  | type (type : SimpleType)
  deriving DecidableEq, Repr

inductive Token where
  | sign (c : UInt8)
  | word (kind : Kind) (text : Text)
  deriving DecidableEq, Repr

def keywords : List (String × Kind) :=
  [("DATASET", .dataset), ("Dataset", .dataset), ("dataset", .dataset), ("LIST", .list),
    ("List", .list), ("list", .list), ("SEQUENCE", .constructor true),
    ("Sequence", .constructor true), ("sequence", .constructor true),
    ("STRUCTURE", .constructor false), ("Structure", .constructor false),
    ("structure", .constructor false), ("GRID", .grid), ("Grid", .grid), ("grid", .grid),
    ("BYTE", .type .byte), ("Byte", .type .byte), ("byte", .type .byte),
    ("INT16", .type .int16), ("Int16", .type .int16), ("int16", .type .int16),
    ("UINT16", .type .uint16), ("UInt16", .type .uint16), ("uint16", .type .uint16),
    ("INT32", .type .int32), ("Int32", .type .int32), ("int32", .type .int32),
    ("UINT32", .type .uint32), ("UInt32", .type .uint32), ("uint32", .type .uint32),
    ("FLOAT32", .type .float32), ("Float32", .type .float32), ("float32", .type .float32),
    ("FLOAT64", .type .float64), ("Float64", .type .float64), ("float64", .type .float64),
    ("STRING", .type .str), ("String", .type .str), ("string", .type .str),
    ("URL", .type .url), ("Url", .type .url), ("url", .type .url)]

def kindOf (s : Text) : Kind :=
  match keywords.find? fun word => bytes word.1 = s with
  | some word => word.2
  | none => .plain

/-- The first character of a `WORD`. -/
def startsWord (c : UInt8) : Bool :=
  (65 ≤ c && c ≤ 90) || (97 ≤ c && c ≤ 122) || (48 ≤ c && c ≤ 57) ||
    (92 :: text ['-', '+', '_', '/', '%', '.', '*']).contains c

def hash : UInt8 := 35

def newline : UInt8 := 10

def isWordChar (c : UInt8) : Bool := startsWord c || c = hash

def leftBrace : UInt8 := 123

def rightBrace : UInt8 := 125

def leftBracket : UInt8 := 91

def rightBracket : UInt8 := 93

def colon : UInt8 := 58

def semi : UInt8 := 59

def equal : UInt8 := 61

def isSign (c : UInt8) : Bool :=
  [leftBrace, rightBrace, leftBracket, rightBracket, colon, semi, equal].contains c

/-- One of the two rules that end the text. -/
def startsData (s : Text) : Bool :=
  (bytes "Data:\n").isPrefixOf s || (bytes "Data:\r\n").isPrefixOf s

/-- Where the scanner is: behind what is still to be skipped, or in a comment. -/
inductive Scanning where
  | initial (skip : Nat)
  | comment
  deriving DecidableEq, Repr

/-- The tokens up to the end of the text; `store_word` keeps what fits. A character that no rule
matches is passed. -/
def scan : Scanning → Text → List Token
  | _, [] => []
  | .initial (skip + 1), _ :: rest => scan (.initial skip) rest
  | .initial 0, c :: rest =>
    if startsData (c :: rest) then []
    else if startsWord c then
      let more := rest.takeWhile isWordChar
      .word (kindOf (c :: more)) (cut (c :: more)) :: scan (.initial more.length) rest
    else if isSign c then .sign c :: scan (.initial 0) rest
    else if c = hash then scan .comment rest
    else scan (.initial 0) rest
  | .comment, c :: rest => if c = newline then scan (.initial 0) rest else scan .comment rest

/-- How many characters there are up to the end of a rule that ends the text. -/
def dataEnd : Scanning → Text → Option Nat
  | _, [] => none
  | .initial (skip + 1), _ :: rest => (dataEnd (.initial skip) rest).map (· + 1)
  | .initial 0, c :: rest =>
    if (bytes "Data:\n").isPrefixOf (c :: rest) then some 6
    else if (bytes "Data:\r\n").isPrefixOf (c :: rest) then some 7
    else if startsWord c then
      (dataEnd (.initial (rest.takeWhile isWordChar).length) rest).map (· + 1)
    else if c = hash then (dataEnd .comment rest).map (· + 1)
    else (dataEnd (.initial 0) rest).map (· + 1)
  | .comment, c :: rest =>
    (if c = newline then dataEnd (.initial 0) rest else dataEnd .comment rest).map (· + 1)

/-- What is left in the file when this many characters have been asked for: `YY_INPUT` passes a
line at a time. -/
def behind (stream : Text) (asked : Nat) : Text :=
  match _found : stream.dropWhile (· ≠ newline) with
  | [] => []
  | _ :: rest =>
    let line := (stream.takeWhile (· ≠ newline) ++ [newline]).takeWhile (· ≠ 0)
    if asked ≤ line.length then rest else behind rest (asked - line.length)
  termination_by stream.length
  decreasing_by
    have shorter := (List.dropWhile_sublist (· ≠ newline) (l := stream)).length_le
    rw [_found, List.length_cons] at shorter
    omega

/-- `YY_INPUT` until it finds the end: the text for the scanner, and where the file is then. A
line is passed up to its first null character; the last one, if nothing ends it, is not passed. -/
def input (stream : Text) : Text × Text :=
  let line := stream.takeWhile (· ≠ newline)
  match _found : stream.dropWhile (· ≠ newline) with
  | [] => ([], [])
  | _ :: rest =>
    if line.head? = some 0 || line = bytes "Data:" then ([], rest)
    else
      let later := input rest
      ((line ++ [newline]).takeWhile (· ≠ 0) ++ later.1, later.2)
  termination_by stream.length
  decreasing_by
    have shorter := (List.dropWhile_sublist (· ≠ newline) (l := stream)).length_le
    rw [_found, List.length_cons] at shorter
    omega

/-- What the scanner leaves in the file: it asks for no line behind the one in which a rule ends
the text. -/
def left (stream : Text) : Text :=
  let (fed, rest) := input stream
  match dataEnd (.initial 0) fed with
  | none => rest
  | some asked => behind stream asked

/-- `var`: a name with its dimensions, each with a name or none and the word of its size. -/
structure Declarator where
  name : Text
  dims : List (Option Text × Text)
  deriving DecidableEq, Repr

inductive Declaration where
  | base (type : SimpleType) (var : Declarator)
  | constructor (isSequence : Bool) (declarations : List Declaration) (var : Declarator)
  | grid (arrayWord : Text) (array : Declaration) (mapsWord : Text) (maps : List Declaration)
      (var : Declarator)

abbrev Tokens := List Token

def expect (c : UInt8) : Tokens → Option Tokens
  | .sign d :: rest => if d = c then some rest else none
  | _ => none

def readWord : Tokens → Option (Text × Tokens)
  | .word .plain s :: rest => some (s, rest)
  | _ => none

/-- `array_decl`, as often as there is one. -/
def readDims : Nat → Tokens → Option (List (Option Text × Text) × Tokens)
  | 0, _ => none
  | fuel + 1, tokens =>
    match expect leftBracket tokens with
    | none => some ([], tokens)
    | some rest => do
      let (first, rest) ← readWord rest
      match expect equal rest with
      | none => do
        let rest ← expect rightBracket rest
        let (more, rest) ← readDims fuel rest
        some ((none, first) :: more, rest)
      | some rest => do
        let (size, rest) ← readWord rest
        let rest ← expect rightBracket rest
        let (more, rest) ← readDims fuel rest
        some ((some first, size) :: more, rest)

/-- `var`: every word but the keyword of a dataset may be a name. -/
def readVar (fuel : Nat) : Tokens → Option (Declarator × Tokens)
  | .word .dataset _ :: _ => none
  | .word _ name :: rest => do
    let (dims, rest) ← readDims fuel rest
    let rest ← expect semi rest
    some (⟨name, dims⟩, rest)
  | _ => none

mutual
/-- `declaration`, and as many as there are; each of them takes one of the turns. -/
def readDeclaration : Nat → Tokens → Option (Declaration × Tokens)
  | 0, _ => none
  | fuel + 1, .word (.type type) _ :: rest => do
    let (var, rest) ← readVar fuel rest
    some (.base type var, rest)
  | fuel + 1, .word (.constructor isSequence) _ :: rest => do
    let rest ← expect leftBrace rest
    let (declarations, rest) ← readDeclarations fuel rest
    let rest ← expect rightBrace rest
    let (var, rest) ← readVar fuel rest
    some (.constructor isSequence declarations var, rest)
  | fuel + 1, .word .grid _ :: rest => do
    let rest ← expect leftBrace rest
    let (arrayWord, rest) ← readWord rest
    let rest ← expect colon rest
    let (array, rest) ← readDeclaration fuel rest
    let (mapsWord, rest) ← readWord rest
    let rest ← expect colon rest
    let (maps, rest) ← readDeclarations fuel rest
    let rest ← expect rightBrace rest
    let (var, rest) ← readVar fuel rest
    some (.grid arrayWord array mapsWord maps var, rest)
  | _ + 1, _ => none

def readDeclarations : Nat → Tokens → Option (List Declaration × Tokens)
  | 0, _ => none
  | fuel + 1, tokens =>
    match expect rightBrace tokens with
    | some _ => some ([], tokens)
    | none => do
      let (first, rest) ← readDeclaration fuel tokens
      let (more, rest) ← readDeclarations fuel rest
      some (first :: more, rest)
end

/-- `datasets`: their declarations, and the name of each. -/
def readDatasets : Nat → Tokens → Option (List (List Declaration × Text))
  | 0, _ => none
  | fuel + 1, .word .dataset _ :: rest => do
    let rest ← expect leftBrace rest
    let (declarations, rest) ← readDeclarations fuel rest
    let rest ← expect rightBrace rest
    match rest with
    | .word _ name :: rest => do
      let rest ← expect semi rest
      match rest with
      | [] => some [(declarations, name)]
      | next => do
        let more ← readDatasets fuel next
        some ((declarations, name) :: more)
    | _ => none
  | _ + 1, _ => none

def readText (s : Text) : Option (List (List Declaration × Text)) :=
  let tokens := scan (.initial 0) s
  readDatasets (tokens.length + 2) tokens

end Libdap.Source.DDSText
