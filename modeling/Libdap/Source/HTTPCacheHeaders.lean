import Mathlib.Data.Char
import Libdap.Library.KeyedSet
import Libdap.Library.LineInput
import Libdap.Source.Failure
import Libdap.Source.HTTPCacheTable

/-!
# HTTPCache.cc: the headers of a cached response

The file of an entry's headers is its text. Files can be opened and written; what the headers
mean to the entry is in the table.
-/
namespace Libdap.Source.HTTPCacheHeaders
open Libdap.Library Libdap.Library.LineInput
open Libdap.Source.HTTPCacheTable (Chars)

def newline : Char := '\n'

def null : Char := '\x00'

def hopByHop : List Chars :=
  ["Connection".toList, "Keep-Alive".toList, "Proxy-Authenticate".toList,
    "Proxy-Authorization".toList, "Transfer-Encoding".toList, "Upgrade".toList]

/-- `find` of each of the six anywhere in the line. -/
def isHopByHopHeader (header : Chars) : Bool := hopByHop.any fun word => decide (word <:+: header)

/-- `write_metadata` from the headers at hand on. Nothing is written of an empty string, and
`fwrite` returns 0. -/
def writeMetadata (dest : Chars) : List Chars → Except Failure Chars
  | [] => .ok dest
  | header :: rest =>
    if isHopByHopHeader header then writeMetadata dest rest
    else if header = [] then .error (.internalErr "could not write header: '' 0")
    else writeMetadata (dest ++ (header ++ [newline])) rest

def lineSize : Nat := 1024

/-- `read_metadata`. The last character of a line is overwritten, in front of the buffer if the
line has none. -/
def readMetadata (md : Input Char) : Except Failure (List Chars) :=
  if md.eof then .ok []
  else
    match _ : md.fgets lineSize newline with
    | (none, _) => .ok []
    | (some line, md') =>
      if cstring null line = [] then .error .undefinedBehaviour
      else do
        let headers ← readMetadata md'
        pure ((cstring null line).dropLast :: headers)
termination_by md.rest.length
decreasing_by
  have read := fgets_length ‹_›
  have some_line := List.length_pos_iff.mpr (fgets_some_ne ‹_›)
  omega

def readFile (file : Chars) : Except Failure (List Chars) := readMetadata (Input.ofList file)

/-- What `HeaderLess` compares. -/
def headerName (header : Chars) : Chars := header.takeWhile (· ≠ ':')

/-- The headers go into a `set<string, HeaderLess>`, the new ones first. -/
def mergeHeaders (headers oldHeaders : List Chars) : List Chars :=
  KeyedSet.build headerName (headers ++ oldHeaders)

/-- What `update_response` does with the file of the entry that it has found and locked. -/
def updateMetadata (headers : List Chars) (file : Chars) : Except Failure Chars := do
  let oldHeaders ← readFile file
  writeMetadata [] (mergeHeaders headers oldHeaders).reverse

end Libdap.Source.HTTPCacheHeaders
