import Libdap.Library.LineInput
import Libdap.Source.Failure
import Libdap.Source.HTTPCacheTable

/-!
# D4ParserSax2.cc: reading a DMR from a stream

`D4ParserSax2::intern`, up to what the XML parser is given. The DDS has a factory of the class
the source casts it to.
-/
namespace Libdap.Source.D4ParserStream
open Libdap.Library.LineInput
open Libdap.Source.HTTPCacheTable (Chars)

def size : Nat := 1024

/-- The calls of libxml2: `xmlCreatePushParserCtxt`, and `xmlParseChunk` with its `terminate`. -/
inductive ParserCall where
  | create (chunk : Chars)
  | parseChunk (chunk : Chars) (terminate : Bool)
  deriving DecidableEq, Repr

/-- One call of `getline`, and the part of the buffer that is passed on, unless nothing was
counted. -/
def nextChunk (s : Input Char) : Option Chars × Input Char :=
  let (chars, res, s) := s.getline size '\n'
  (if 0 < res then some (chars.take (res - 1)) else none, s)

theorem nextChunk_length {s rest : Input Char} {chunk : Chars}
    (read : nextChunk s = (some chunk, rest)) : rest.rest.length < s.rest.length := by
  have taken := getline_length size '\n' s
  by_cases counted : 0 < (s.getline size '\n').2.1
  · have same : (s.getline size '\n').2.2 = rest := congrArg Prod.snd read
    rw [← same]
    omega
  · simp [nextChunk, counted] at read

/-- The loop, and the call that ends the parse. -/
def feedLines (s : Input Char) : List ParserCall :=
  match _read : nextChunk s with
  | (none, _) => [.parseChunk [] true]
  | (some chunk, s) => .parseChunk chunk false :: feedLines s
termination_by s.rest.length
decreasing_by exact nextChunk_length _read

/-- `intern(istream &, DDS *)`. -/
def intern (s : Input Char) : Except Failure (List ParserCall) :=
  if s.eof || s.fail then .error (.internalErr "Input stream not open or read error")
  else
    match nextChunk s with
    | (none, _) => .ok []
    | (some chunk, s) => .ok (.create chunk :: feedLines s)

/-- `intern(const string &, DDS *)`. -/
def internString (document : Chars) : Except Failure (List ParserCall) :=
  intern (Input.ofList document)

end Libdap.Source.D4ParserStream
