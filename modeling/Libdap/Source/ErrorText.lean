import Libdap.Source.Array
import Libdap.Source.Failure

/-!
# Error.cc, Error.lex, Error.yy: Error objects as text

The scanner starts in its initial state. Every rule of it reads at least one character, so a
word that was read is skipped character by character.
-/
namespace Libdap.Source.ErrorText
open Libdap.Source.Array

/-- `Error`; an `ErrorCode` is an `int`. -/
structure ErrorObject where
  code : Int
  message : List Char
  deriving DecidableEq, Repr

/-- `undefined_error`. -/
def undefinedError : Int := 1000

/-- `cannot_read_file`. -/
def cannotReadFile : Int := 1007

def errMessages : List String :=
  ["Undefined error", "Unknown error", "Internal error", "No such file", "No such variable",
    "Malformed expression", "No authorization", "Cannot read file", "Cannot read file"]

/-- `Error()`. -/
def ErrorObject.empty : ErrorObject := { code := undefinedError, message := [] }

/-- `OK`. -/
def ErrorObject.ok (e : ErrorObject) : Bool :=
  (e.code = undefinedError && e.message.isEmpty) ||
    (e.code ≠ undefinedError && !e.message.isEmpty)

def ErrorObject.setErrorCode (e : ErrorObject) (ec : Int) : ErrorObject :=
  if e.message.isEmpty && undefinedError < ec && ec ≤ cannotReadFile then
    { code := ec
      message := (errMessages.getD (ec - undefinedError).toNat "").toList }
  else { code := ec, message := "Undefined error".toList }

def ErrorObject.setErrorMessage (e : ErrorObject) (msg : List Char) : ErrorObject :=
  { e with message := msg }

def doubleQuote : Char := Char.ofNat 34

def backslash : Char := Char.ofNat 92

/-- What `c_str` is taken for. -/
def cStr (s : List Char) : List Char := s.takeWhile (· ≠ Char.ofNat 0)

/-- `%d` of a number that is not negative. -/
def decimal (n : Nat) : List Char :=
  if n = 0 then ['0'] else (Nat.digits 10 n).reverse.map fun d => Char.ofNat (48 + d)

def printInt (i : Int) : List Char :=
  if 0 ≤ i then decimal i.toNat else '-' :: decimal i.natAbs

/-- The first and the last character are double quotes; they may be the same. -/
def wrapped (s : List Char) : Bool :=
  s.head? = some doubleQuote && s.getLast? = some doubleQuote

/-- Its assertion fails for an object that is not `OK`. -/
def ErrorObject.print (e : ErrorObject) : Except Failure (List Char) :=
  if e.ok then
    let message :=
      if wrapped e.message then cStr e.message
      else [doubleQuote] ++ cStr e.message ++ [doubleQuote]
    .ok ("Error \x7b\n    code = ".toList ++ printInt e.code ++ ";\n    message = ".toList ++
      message ++ ";\n\x7d;\n".toList)
  else .error .undefinedBehaviour

inductive Token where
  | scanError | scanCode | scanMsg
  | scanInt (integer : Int)
  | scanStr (string : List Char)
  | sign (c : Char)
  deriving DecidableEq, Repr

/-- Where the scanner is: behind what `yytext` still skips, or in a comment, or in a quote
with the text of it so far and the line where it starts. -/
inductive Scanning where
  | initial (skip : Nat)
  | comment
  | quote (startLine : Nat) (yytext : List Char)
  deriving DecidableEq, Repr

def keywords : List (String × Token) :=
  [("error", .scanError), ("Error", .scanError), ("ERROR", .scanError), ("code", .scanCode),
    ("Code", .scanCode), ("CODE", .scanCode), ("message", .scanMsg), ("Message", .scanMsg),
    ("MESSAGE", .scanMsg)]

def isDigit (c : Char) : Bool := '0' ≤ c && c ≤ '9'

def digitsValue (digits : List Char) : Nat :=
  digits.foldl (fun v d => 10 * v + (d.toNat - 48)) 0

/-- `atoi` of digits, through a `long`. -/
def atoi (digits : List Char) : Int := int32 (min (2 ^ 63 - 1) (digitsValue digits))

/-- The token at the front, and how many characters follow its first one. -/
def tokenAt (cs : List Char) : Option (Token × Nat) :=
  match keywords.find? fun word => word.1.toList.isPrefixOf cs with
  | some (word, token) => some (token, word.length - 1)
  | none =>
    match cs with
    | [] => none
    | c :: _ =>
      if isDigit c then
        some (.scanInt (atoi (cs.takeWhile isDigit)), (cs.takeWhile isDigit).length - 1)
      else if c ∈ ['\x7b', '\x7d', ';', '='] then some (.sign c, 0)
      else none

def unterminated (startLine : Nat) : Failure :=
  .error .unknownError ("Error scanning the error response: Unterminated quote (starts on line "
    ++ toString startLine ++ ")\n")

/-- The tokens up to the end of the text or to what the scanner throws, each with the line
number when it is read. Other characters are ignored. In a quote a backslash before a line end
matches no rule: it is echoed, with all that was read of the quote. -/
def scan : Scanning → Nat → List Char → List (Nat × Except Failure Token)
  | .quote startLine _, line, [] => [(line, .error (unterminated startLine))]
  | _, _, [] => []
  | .initial (skip + 1), line, _ :: rest => scan (.initial skip) line rest
  | .initial 0, line, c :: rest =>
    if c = '\n' then scan (.initial 0) (line + 1) rest
    else if c = '#' then scan .comment line rest
    else if c = doubleQuote then scan (.quote line [c]) line rest
    else
      match tokenAt (c :: rest) with
      | some (token, skip) => (line, .ok token) :: scan (.initial skip) line rest
      | none => scan (.initial 0) line rest
  | .comment, line, c :: rest =>
    if c = '\n' then scan (.initial 0) (line + 1) rest else scan .comment line rest
  | .quote startLine yytext, line, c :: rest =>
    if c = doubleQuote then
      (line, .ok (.scanStr (yytext ++ [c]))) :: scan (.initial 0) line rest
    else if c = backslash then
      match rest with
      | [] => [(line, .error (unterminated startLine))]
      | d :: rest' =>
        if d = '\n' then scan (.quote startLine [d]) (line + 1) rest'
        else scan (.quote startLine (yytext ++ [c, d])) line rest'
    else if c = '\n' then scan (.quote startLine (yytext ++ [c])) (line + 1) rest
    else scan (.quote startLine (yytext ++ [c])) line rest

/-- `Errorerror`; at the end of the text the line number is set back. -/
def errorError (tokens : List (Nat × Except Failure Token)) : Failure :=
  match tokens with
  | [] => .error .unknownError "syntax error line: 1\n"
  | (line, _) :: _ => .error .unknownError ("syntax error line: " ++ toString line ++ "\n")

/-- The next token, which `accept` has a value for. -/
def shift {α : Type} (accept : Token → Option α) (tokens : List (Nat × Except Failure Token)) :
    Except Failure (α × List (Nat × Except Failure Token)) :=
  match tokens with
  | (_, .error failure) :: _ => .error failure
  | (_, .ok token) :: rest =>
    match accept token with
    | some x => .ok (x, rest)
    | none => .error (errorError tokens)
  | [] => .error (errorError tokens)

def expect (token : Token) : Token → Option Unit := fun t => if t = token then some () else none

def integer : Token → Option Int
  | .scanInt i => some i
  | _ => none

def string : Token → Option (List Char)
  | .scanStr s => some s
  | _ => none

/-- `Errorparse`: `code`, then `message` or not, and what is around them. -/
def errorParse (e : ErrorObject) (tokens : List (Nat × Except Failure Token)) :
    Except Failure ErrorObject := do
  let (_, tokens) ← shift (expect .scanError) tokens
  let (_, tokens) ← shift (expect (.sign '\x7b')) tokens
  let (_, tokens) ← shift (expect .scanCode) tokens
  let (_, tokens) ← shift (expect (.sign '=')) tokens
  let (i, tokens) ← shift integer tokens
  let (_, tokens) ← shift (expect (.sign ';')) tokens
  let e := e.setErrorCode i
  let (isMessage, rest) ← shift (fun t => some (decide (t = .scanMsg))) tokens
  let (e, tokens) ←
    if isMessage then do
      let (_, tokens) ← shift (expect (.sign '=')) rest
      let (s, tokens) ← shift string tokens
      let (_, tokens) ← shift (expect (.sign ';')) tokens
      pure (e.setErrorMessage s, tokens)
    else pure (e, tokens)
  let (_, tokens) ← shift (expect (.sign '\x7d')) tokens
  let (_, tokens) ← shift (expect (.sign ';')) tokens
  match tokens with
  | [] => pure e
  | (_, .error failure) :: _ => .error failure
  | (_, .ok _) :: _ => .error (errorError tokens)

/-- `Error::parse`: the object after it, and what it returns. What the scanner and the parser
throw becomes an `InternalErr`. -/
def ErrorObject.parse (e : ErrorObject) (text : List Char) :
    Except Failure (ErrorObject × Bool) :=
  match errorParse e (scan (.initial 0) 1 text) with
  | .ok e' => .ok (e', e'.ok)
  | .error (.error _ message) => .error (.internalErr message)
  | .error failure => .error failure

end Libdap.Source.ErrorText
