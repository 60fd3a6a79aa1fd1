import Libdap.Library.LineInput
import Libdap.Source.Failure
import Libdap.Source.HTTPCacheTable

/-!
# mime_util.cc: the parts of a multipart document

The readers come twice, for a `FILE` and for an `istream`. A character is a byte; `tolower`
is the one of the C locale.
-/
namespace Libdap.Source.MimeUtil
open Libdap.Library.LineInput
open Libdap.Source.HTTPCacheTable (Chars)

inductive ObjectType where
  | unknownType | dodsDas | dodsDds | dodsData | dodsError | webError | dap4Ddx | dap4Data
  | dap4Error | dap4DataDdx | dodsDdx
  deriving DecidableEq, Repr

inductive EncodingType where
  | unknownEnc | deflate | xPlain | gzip | binary
  deriving DecidableEq, Repr

def descrip : ObjectType → Chars
  | .unknownType => "unknown".toList
  | .dodsDas => "dods_das".toList
  | .dodsDds => "dods_dds".toList
  | .dodsData => "dods_data".toList
  | .dodsError => "dods_error".toList
  | .webError => "web_error".toList
  | .dap4Ddx => "dap4-ddx".toList
  | .dap4Data => "dap4-data".toList
  | .dap4Error => "dap4-error".toList
  | .dap4DataDdx => "dap4-data-ddx".toList
  | .dodsDdx => "dods_ddx".toList

def encoding : EncodingType → Chars
  | .unknownEnc => "unknown".toList
  | .deflate => "deflate".toList
  | .xPlain => "x-plain".toList
  | .gzip => "gzip".toList
  | .binary => "binary".toList

def getDescriptionType (value : Chars) : ObjectType :=
  if value = "dods_das".toList ∨ value = "dods-das".toList then .dodsDas
  else if value = "dods_dds".toList ∨ value = "dods-dds".toList then .dodsDds
  else if value = "dods_data".toList ∨ value = "dods-data".toList then .dodsData
  else if value = "dods_error".toList ∨ value = "dods-error".toList then .dodsError
  else if value = "web_error".toList ∨ value = "web-error".toList then .webError
  else if value = "dods_ddx".toList ∨ value = "dods-ddx".toList then .dodsDdx
  else if value = "dap4_ddx".toList ∨ value = "dap4-ddx".toList then .dap4Ddx
  else if value = "dap4_data".toList ∨ value = "dap4-data".toList then .dap4Data
  else if value = "dap4_error".toList ∨ value = "dap4-error".toList then .dap4Error
  else if value = "dap4_data_ddx".toList ∨ value = "dap4-data-ddx".toList then .dap4DataDdx
  else if value = "dods_ddx".toList ∨ value = "dods-ddx".toList then .dodsDdx
  else .unknownType

def downcase (s : Chars) : Chars := s.map Char.toLower

/-! ### Writing -/

def crlf : Chars := "\r\n".toList

def setMimeBoundary (contentType boundary cid : Chars) (type : ObjectType) (enc : EncodingType) :
    Chars :=
  "--".toList ++ boundary ++ crlf ++
  "Content-Type: ".toList ++ contentType ++ crlf ++
  "Content-Id: <".toList ++ cid ++ ">".toList ++ crlf ++
  "Content-Description: ".toList ++ descrip type ++ crlf ++
  (if enc ≠ .xPlain then "Content-Encoding: ".toList ++ encoding enc ++ crlf else []) ++
  crlf

def setMimeDdxBoundary : Chars → Chars → ObjectType → EncodingType → Chars :=
  setMimeBoundary "Text/xml; charset=iso-8859-1".toList

def setMimeDataBoundary : Chars → Chars → ObjectType → EncodingType → Chars :=
  setMimeBoundary "application/octet-stream".toList

/-! ### Reading -/

/-- Which of the two overloads. -/
inductive Version where
  | file | istream
  deriving DecidableEq, Repr

def lineLength : Nat := 1024

def noHeader : Failure :=
  .error .unknownError "I expected to find a MIME header, but got EOF instead."

/-- For a `FILE`. When `fgets` fails the buffer is not initialized, and of a string of less
than two characters the character in front of the buffer is read. -/
def fileMimeHeader (s : Input Char) : Except Failure (Chars × Input Char) :=
  if s.eof then .error noHeader
  else
    match s.fgets lineLength '\n' with
    | (none, _) => .error .undefinedBehaviour
    | (some line, s) =>
      if line.take 2 = crlf ∨ line.head? = some '\n' then .ok ([], s)
      else if (cstring '\x00' line).length < 2 then .error .undefinedBehaviour
      else
        -- The last character is taken for the newline.
        let kept := (cstring '\x00' line).dropLast
        .ok (if kept.getLast? = some '\r' then kept.dropLast else kept, s)

/-- For an `istream`. -/
def streamMimeHeader (s : Input Char) : Except Failure (Chars × Input Char) :=
  if s.eof then .error noHeader
  else
    let read := s.getline lineLength '\n'
    let line := cstring '\x00' read.1
    .ok (if '\r' ∈ line then line.dropLast else line, read.2.2)

def getNextMimeHeader : Version → Input Char → Except Failure (Chars × Input Char)
  | .file => fileMimeHeader
  | .istream => streamMimeHeader

/-- The name and the value. -/
def parseMimeHeader (header : Chars) : Chars × Chars :=
  let name := (Input.ofList header).getline 1023 ':'
  let value := (name.2.2.ignore 1023 ' ').getline 1023 '\n'
  (downcase (cstring '\x00' name.1), downcase (cstring '\x00' value.1))

/-- A line without a null; `strncmp` stops at the one of the boundary. -/
def isBoundary (line boundary : Chars) : Bool :=
  "--".toList.isPrefixOf line && line.take boundary.length = cstring '\x00' boundary

def brokenBoundary : Failure := .error .unknownError
  "The DAP4 data response document is broken - missing or malformed boundary."

def readMultipartBoundary (version : Version) (s : Input Char) (boundary : Chars) :
    Except Failure (Chars × Input Char) := do
  let (line, s) ← getNextMimeHeader version s
  if (boundary ≠ [] ∧ isBoundary line boundary) ∨ ¬ "--".toList.isPrefixOf line then
    .error brokenBoundary
  else
    pure (line, s)

/-- Which of the headers were there. -/
structure Headers where
  ct : Bool
  cd : Bool
  ci : Bool
  deriving DecidableEq, Repr

def shown (s : Chars) : String := String.ofList s

/-- One turn of the loop of `read_multipart_headers`. -/
def checkHeader (contentType : Chars) (objectType : ObjectType) (cid : Chars) (seen : Headers)
    (header : Chars) : Except Failure Headers :=
  let (name, value) := parseMimeHeader header
  if name = "content-type".toList then
    if ¬ contentType <:+: value then
      .error (.error .unknownError
        ("Content-Type for this part of a DAP4 data response must be " ++ shown contentType ++ "."))
    else .ok { seen with ct := true }
  else if name = "content-description".toList then
    if getDescriptionType value ≠ objectType then
      .error (.error .unknownError
        ("Content-Description for this part of a DAP4 data response must be dap4-ddx or " ++
          "dap4-data-ddx"))
    else .ok { seen with cd := true }
  else if name = "content-id".toList then
    if cid ≠ [] ∧ value ≠ cid then
      .error (.error .unknownError
        ("Content-Id mismatch. Expected: " ++ shown cid ++ ", but got: " ++ shown value))
    else .ok { seen with ci := true }
  else .ok seen

/-- The loop of `read_multipart_headers`. -/
def readHeaders (version : Version) (contentType : Chars) (objectType : ObjectType)
    (cid : Chars) : Nat → Headers → Input Char → Except Failure (Headers × Input Char)
  | 0, _, _ => .error .outOfFuel
  | fuel + 1, seen, s => do
    let (header, s) ← getNextMimeHeader version s
    if header = [] then pure (seen, s)
    else
      let seen ← checkHeader contentType objectType cid seen header
      readHeaders version contentType objectType cid fuel seen s

/-- A header takes one character at least. -/
def readMultipartHeaders (version : Version) (s : Input Char) (contentType : Chars)
    (objectType : ObjectType) (cid : Chars) : Except Failure (Input Char) := do
  let (seen, s) ← readHeaders version contentType objectType cid (s.rest.length + 1)
    ⟨false, false, false⟩ s
  if seen.ct && seen.cd && seen.ci then pure s
  else
    .error (.error .unknownError
      "The DAP4 data response document is broken - missing header.")

def cidToHeaderValue (cid : Chars) : Except Failure Chars :=
  if ¬ "cid:".toList.isPrefixOf cid then
    .error (.error .unknownError "expected CID to start with 'cid:'")
  else .ok (downcase ("<".toList ++ cid.drop 4 ++ ">".toList))

end Libdap.Source.MimeUtil
