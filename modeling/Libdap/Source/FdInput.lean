import Libdap.Library.Slices
import Libdap.Source.Failure

/-!
# fdiostream.cc: the input buffers of descriptors and files

Positions in the buffer count from its start. `char` is signed. A read gives one chunk or finds
the end; reads that fail are left out, and then the two classes do the same.
-/
namespace Libdap.Source.FdInput
open Libdap.Library.Slices

def bufferSize : Nat := 4096

def putBack : Nat := 128

/-- What one call of `read` or `fread` puts into the buffer. -/
structure Chunk where
  bytes : List UInt8
  some' : bytes ≠ []
  fits : bytes.length ≤ bufferSize - putBack

/-- The chunks `fread` takes from a file. -/
def freads (file : List UInt8) : List Chunk :=
  if some' : file = [] then []
  else
    { bytes := file.take (bufferSize - putBack)
      some' := by simp [some', bufferSize, putBack]
      fits := List.length_take_le _ _ } ::
      freads (file.drop (bufferSize - putBack))
termination_by file.length
decreasing_by
  have := List.length_pos_iff.mpr some'
  simp [bufferSize, putBack]
  omega

/-- `fdinbuf` or `fpinbuf`, with what the reads to come give. -/
structure InBuf where
  buffer : Vector UInt8 bufferSize
  eback : Nat
  gptr : Nat
  egptr : Nat
  source : List Chunk

def InBuf.setg (s : InBuf) (eback gptr egptr : Nat) : InBuf := { s with eback, gptr, egptr }

/-- The constructors; the bytes of the buffer are what the memory held. -/
def InBuf.make (memory : Vector UInt8 bufferSize) (source : List Chunk) : InBuf :=
  { buffer := memory, eback := putBack, gptr := putBack, egptr := putBack, source }

def fdinbuf (memory : Vector UInt8 bufferSize) (reads : List Chunk) : InBuf :=
  .make memory reads

def fpinbuf (memory : Vector UInt8 bufferSize) (file : List UInt8) : InBuf :=
  .make memory (freads file)

/-- Within the buffer. -/
def memcpy (buffer : Vector UInt8 bufferSize) (dest src n : Nat) :
    Except Failure (Vector UInt8 bufferSize) :=
  if dest + n ≤ bufferSize ∧ src + n ≤ bufferSize ∧
      (n = 0 ∨ dest + n ≤ src ∨ src + n ≤ dest) then
    .ok (blit buffer dest (slice buffer src n))
  else .error .undefinedBehaviour

def EOF : Int := -1

/-- `*gptr()`. -/
def InBuf.current (s : InBuf) : Except Failure UInt8 :=
  match s.buffer[s.gptr]? with
  | some c => .ok c
  | none => .error .undefinedBehaviour

/-- A `char` as an `int`. -/
def signed (c : UInt8) : Int := if c.toNat < 128 then c.toNat else (c.toNat : Int) - 256

/-- Of `fdinbuf` and of `fpinbuf`. -/
def InBuf.underflow (s : InBuf) : Except Failure (Int × InBuf) :=
  if s.gptr < s.egptr then do
    let c ← s.current
    pure (signed c, s)
  else do
    let numPutBack := min (s.gptr - s.eback) putBack
    let buffer ← memcpy s.buffer (putBack - numPutBack) (s.gptr - numPutBack) numPutBack
    match s.source with
    | [] => pure (EOF, { s with buffer })
    | chunk :: source =>
      let s : InBuf := { s with buffer := blit buffer putBack chunk.bytes, source }
      let s := s.setg (putBack - numPutBack) putBack (putBack + chunk.bytes.length)
      let c ← s.current
      pure (signed c, s)

/-! ## Of `std::streambuf` -/

/-- `to_int_type(*gptr())`, and `gbump(1)`. -/
def InBuf.take (s : InBuf) : Except Failure (Int × InBuf) := do
  let c ← s.current
  pure (c.toNat, { s with gptr := s.gptr + 1 })

def InBuf.uflow (s : InBuf) : Except Failure (Int × InBuf) := do
  let (c, s) ← s.underflow
  if c = EOF then pure (EOF, s) else s.take

def InBuf.sbumpc (s : InBuf) : Except Failure (Int × InBuf) :=
  if s.gptr < s.egptr then s.take else s.uflow

/-- `pbackfail` is the one of `std::streambuf`. -/
def InBuf.sungetc (s : InBuf) : Except Failure (Int × InBuf) :=
  if s.eback < s.gptr then do
    let s : InBuf := { s with gptr := s.gptr - 1 }
    let c ← s.current
    pure (c.toNat, s)
  else .ok (EOF, s)

/-- `n` calls, one after the other. -/
def InBuf.repeat (call : InBuf → Except Failure (Int × InBuf)) :
    Nat → InBuf → Except Failure (List Int × InBuf)
  | 0, s => .ok ([], s)
  | n + 1, s => do
    let (c, s) ← call s
    let (cs, s) ← InBuf.repeat call n s
    pure (c :: cs, s)

/-- What a reader does: it takes the next character, or puts `k` back and takes them again. -/
inductive Action where
  | next
  | again (k : Nat)
  deriving DecidableEq, Repr

def InBuf.act (s : InBuf) : Action → Except Failure (List Int × InBuf)
  | .next => InBuf.repeat InBuf.sbumpc 1 s
  | .again k => do
    let (back, s) ← InBuf.repeat InBuf.sungetc k s
    let (cs, s) ← InBuf.repeat InBuf.sbumpc k s
    pure (back ++ cs, s)

def InBuf.run (s : InBuf) : List Action → Except Failure (List Int)
  | [] => .ok []
  | a :: as => do
    let (cs, s) ← s.act a
    let rest ← s.run as
    pure (cs ++ rest)

end Libdap.Source.FdInput
