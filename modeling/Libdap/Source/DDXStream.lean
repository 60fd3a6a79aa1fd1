import Libdap.Source.MimeUtil

/-!
# DDXParserSAX2.cc: reading a DDX from a stream

Both versions of `DDXParser::intern_stream`, up to what the calls of `xmlParseChunk` are
given. The first read takes the four characters that it asks for, if they are there.
-/
namespace Libdap.Source.DDXStream
open Libdap.Library.LineInput
open Libdap.Source.HTTPCacheTable (Chars)
open Libdap.Source.MimeUtil

def size : Nat := 1024

/-- One call of `getline` or `fgets`: what the buffer is to the loop, or none at its end.
Over the last character that was counted a newline is written; of a `FILE` the string in the
buffer is used. -/
def nextChunk : Version → Input Char → Option Chars × Input Char
  | .istream, s =>
    let (chars, res, s) := s.getline size '\n'
    (if 0 < res then some (chars.take (res - 1) ++ ['\n']) else none, s)
  | .file, s =>
    let (chars, s) := s.fgets size '\n'
    (chars.map (cstring '\x00'), s)

/-- The loop; the stream is left behind the line it ended with. -/
def feedLines (version : Version) (boundary : Chars) :
    Nat → Input Char → Except Failure (List Chars × Input Char)
  | 0, _ => .error .outOfFuel
  | fuel + 1, s =>
    match nextChunk version s with
    | (none, s) => .ok ([], s)
    | (some chars, s) =>
      if isBoundary (cstring '\x00' chars) boundary then .ok ([], s)
      else do
        let (fed, s) ← feedLines version boundary fuel s
        pure (chars :: fed, s)

/-- The chunks that are fed, and the stream. The version for an `istream` writes in front of
its buffer when there is no line. -/
def internStream (version : Version) (s : Input Char) (boundary : Chars) :
    Except Failure (List Chars × Input Char) :=
  if s.eof || s.fail then .error (.internalErr "Input stream not open or read error")
  else
    let chars := s.rest.take 4
    let s := { s with rest := s.rest.drop 4 }
    if chars = [] then .ok ([], s)
    else if version = .istream ∧ (nextChunk version s).1 = none then .error .undefinedBehaviour
    else do
      let (fed, s) ← feedLines version boundary (s.rest.length + 1) s
      pure (chars :: fed, s)

end Libdap.Source.DDXStream
