import Libdap.Source.DDXParserSAX2
import Libdap.Source.ErrorText

/-!
# Resource.h, GNURegex.cc, AISResources.cc: the database of ancillary resources

`regcomp` and `regexec` of the C library are a parameter: a pattern is refused with a text or
says of which texts it matches a part.
-/
namespace Libdap.Source.AIS
open Libdap.Source.ErrorText (cStr)
open Libdap.Source.HTTPCacheTable (Chars)
open Libdap.Source.DDXParserSAX2 (mapInsert)

inductive Rule where
  | overwrite | replace | fallback
  deriving DecidableEq, Repr

structure Resource where
  url : Chars
  rule : Rule := .overwrite
  deriving DecidableEq, Repr

/-- The constructor that takes the name of the rule. -/
def Resource.ofName (url rule : Chars) : Except Failure Resource :=
  if rule = "replace".toList then .ok { url, rule := .replace }
  else if rule = "fallback".toList then .ok { url, rule := .fallback }
  else if rule = "overwrite".toList ∨ rule = "default".toList then .ok { url, rule := .overwrite }
  else
    .error (.error .unknownError
      ("An AIS Resource object was created with an unknown rule type '" ++ String.ofList rule))

/-- A primary resource with its ancillary resources. -/
abbrev Entry := Chars × List Resource

structure AISResources where
  /-- `d_db`, a map: sorted by the URL. -/
  db : List Entry
  /-- `d_re`, in the order of the first additions. -/
  re : List Entry
  deriving DecidableEq, Repr

/-- More resources for a primary that is there. -/
def append (primary : Chars) (rv : List Resource) : List Entry → List Entry
  | [] => []
  | e :: rest =>
    if e.1 = primary then (e.1, e.2 ++ rv) :: rest else e :: append primary rv rest

section
variable (regcomp : Chars → Except Chars (Chars → Bool))

/-- `Regex::match`, whose answer is only asked whether it is -1. A URL that is too long is
matched by nothing. -/
def regexMatch (regexec : Chars → Bool) (s : Chars) : Bool :=
  if s.length > 32766 then false else regexec (cStr s)

/-- `find_if` with a `MatchRegexp`, which makes a `Regex` of every pattern it comes to. -/
def matchRegexp (primary : Chars) : List Entry → Except Failure (Option Entry)
  | [] => .ok none
  | e :: rest =>
    match regcomp (cStr e.1) with
    | .error msg => .error (.error .unknownError ("Regex error: " ++ String.ofList msg))
    | .ok regexec =>
      if regexMatch regexec primary then .ok (some e) else matchRegexp primary rest

end

namespace AISResources

def empty : AISResources := { db := [], re := [] }

variable (ais : AISResources)

def addUrlResource (url : Chars) (rv : List Resource) : AISResources :=
  { ais with
    db :=
      match ais.db.lookup url with
      | none => mapInsert url rv ais.db
      | some _ => append url rv ais.db }

def addRegexpResource (re : Chars) (rv : List Resource) : AISResources :=
  { ais with
    re :=
      match ais.re.lookup re with
      | none => ais.re ++ [(re, rv)]
      | some _ => append re rv ais.re }

section
variable (regcomp : Chars → Except Chars (Chars → Bool))

def hasResource (primary : Chars) : Except Failure Bool :=
  if (ais.db.lookup primary).isSome then .ok true
  else do
    let found ← matchRegexp regcomp primary ais.re
    pure found.isSome

def noSuchPrimaryResource : Failure :=
  .error .unknownError "The primary resource given has no matching entry in the AIS database."

/-- What a regular expression gives is put in front. -/
def getResource (primary : Chars) : Except Failure (List Resource) := do
  let rv := (ais.db.lookup primary).getD []
  let found ← matchRegexp regcomp primary ais.re
  let rv := ((found.map Prod.snd).getD []) ++ rv
  if rv = [] then .error noSuchPrimaryResource else pure rv

end

end AISResources

/-! ## The database as text -/

def quoted (value : Chars) : Chars := Char.ofNat 34 :: value ++ [Char.ofNat 34]

def endl : Chars := ['\n']

def printRule : Rule → Chars
  | .overwrite => []
  | .fallback => " rule=".toList ++ quoted "fallback".toList
  | .replace => " rule=".toList ++ quoted "replace".toList

def Resource.print (r : Resource) : Chars :=
  "<ancillary".toList ++ printRule r.rule ++ " url=".toList ++ quoted r.url ++ "/>".toList

/-- An entry whose primary resource has the given attribute. -/
def printEntry (kind : String) (e : Entry) : Chars :=
  "<entry>".toList ++ endl ++
    ("<primary ".toList ++ kind.toList ++ "=".toList ++ quoted e.1 ++ "/>".toList ++ endl) ++
    e.2.flatMap (fun r => r.print ++ endl) ++ "</entry>".toList ++ endl

def xmlDeclaration : Chars :=
  "<?xml version=".toList ++ quoted "1.0".toList ++ " encoding=".toList ++
    quoted "US-ASCII".toList ++ " standalone=".toList ++ quoted "yes".toList ++ "?>".toList

def docType : Chars :=
  "<!DOCTYPE ais SYSTEM ".toList ++
    quoted "http://xml.opendap.org/ais/ais_database.dtd".toList ++ ">".toList

def AISResources.print (ais : AISResources) : Chars :=
  xmlDeclaration ++ endl ++ docType ++ endl ++
    "<ais xmlns=".toList ++ quoted "http://xml.opendap.org/ais".toList ++ ">".toList ++ endl ++
    ais.re.flatMap (printEntry "regexp") ++ ais.db.flatMap (printEntry "url") ++
    "</ais>".toList ++ endl

/-- The file is `none` if it cannot be opened; `written` says whether the stream is good at the
end. -/
def AISResources.writeDatabase (ais : AISResources) (filename : Chars) (opened written : Bool) :
    Except Failure Chars :=
  if opened = false then
    .error (.error .unknownError
      ("The AIS database write failed: Could not open file :" ++ String.ofList filename))
  else if written = false then .error (.error .unknownError "The AIS database write failed.")
  else .ok (ais.print ++ endl)

end Libdap.Source.AIS
