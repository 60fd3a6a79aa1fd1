import Libdap.Source.Failure

/-!
# fdiostream.cc: the output buffer of a file descriptor

Positions in the buffer count from its start. Every `write` writes all it is given, so that the
branches for a short write are left out.
-/
namespace Libdap.Source.FdStream

def bufferSize : Nat := 4096

/-- `fdoutbuf`, and what its calls of `write` gave to which descriptor, in order. -/
structure FdOutBuf where
  fd : Nat
  buffer : Vector UInt8 bufferSize
  pptr : Nat
  epptr : Nat
  writes : List (Nat × List UInt8)
  deriving DecidableEq, Repr

/-- The constructor; the bytes of the buffer are what the memory held. -/
def FdOutBuf.make (fd : Nat) (memory : Vector UInt8 bufferSize) : FdOutBuf where
  fd := fd
  buffer := memory
  pptr := 0
  epptr := bufferSize - 1
  writes := []

def FdOutBuf.write (b : FdOutBuf) (descriptor : Nat) (bytes : List UInt8) : FdOutBuf :=
  { b with writes := b.writes ++ [(descriptor, bytes)] }

/-- It writes to descriptor 1, whatever `fd` is. -/
def FdOutBuf.flushBuffer (b : FdOutBuf) : FdOutBuf :=
  let num := b.pptr
  let b := b.write 1 (b.buffer.toList.take num)
  { b with pptr := b.pptr - num }

/-- `*pptr() = c` and `pbump(1)`. -/
def FdOutBuf.store (b : FdOutBuf) (c : UInt8) : Except Failure FdOutBuf :=
  if inside : b.pptr < bufferSize then
    .ok { b with buffer := b.buffer.set b.pptr c inside, pptr := b.pptr + 1 }
  else .error .undefinedBehaviour

/-- Its argument is the value of an `unsigned char` here, never `EOF`. -/
def FdOutBuf.overflow (b : FdOutBuf) (c : UInt8) : Except Failure FdOutBuf := do
  let b ← b.store c
  pure b.flushBuffer

def FdOutBuf.sync (b : FdOutBuf) : FdOutBuf := b.flushBuffer

def FdOutBuf.xsputn (b : FdOutBuf) (s : List UInt8) : FdOutBuf := b.write b.fd s

/-- Of `std::streambuf`. -/
def FdOutBuf.sputc (b : FdOutBuf) (c : UInt8) : Except Failure FdOutBuf :=
  if b.pptr < b.epptr then b.store c else b.overflow c

inductive Call where
  | sputc (c : UInt8)
  | sputn (s : List UInt8)
  | sync
  deriving DecidableEq, Repr

def FdOutBuf.call (b : FdOutBuf) : Call → Except Failure FdOutBuf
  | .sputc c => b.sputc c
  | .sputn s => .ok (b.xsputn s)
  | .sync => .ok b.sync

def FdOutBuf.calls (b : FdOutBuf) (cs : List Call) : Except Failure FdOutBuf :=
  cs.foldlM FdOutBuf.call b

/-- The bytes a descriptor received. -/
def received (writes : List (Nat × List UInt8)) (descriptor : Nat) : List UInt8 :=
  (writes.filter fun w => w.1 = descriptor).flatMap (·.2)

end Libdap.Source.FdStream
