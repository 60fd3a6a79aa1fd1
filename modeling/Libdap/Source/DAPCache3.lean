import Mathlib.Tactic

/-!
# DAPCache3: the disk cache

Processes share a directory and the info file, whose content is one number. A lock on a
file belongs to a process; closing the file gives up what the process holds on it. Each
operation runs from its start to its end; one that would have to wait changes nothing.
-/
namespace Libdap.Source.DAPCache3

abbrev Process := Nat

abbrev Chars := List Char

inductive LockKind where
  | shared | exclusive
  deriving DecidableEq, Repr

/-- `struct cache_entry`, and a file of the directory. -/
structure CacheEntry where
  name : Chars
  size : Nat
  time : Int
  deriving DecidableEq, Repr

structure Config where
  cachePrefix : Chars
  /-- The name of the info file. -/
  infoName : Chars
  maxCacheSize : Nat
  targetSize : Nat

structure State where
  /-- The `unsigned long long` in the info file. -/
  info : Nat
  /-- The directory, but for the info file and the entries `.` and `..`, which a prefix of dots
  would match too. -/
  files : List CacheEntry
  locks : List (Process × Chars × LockKind)

/-- A new info file in an empty directory. -/
def State.initial : State := ⟨0, [], []⟩

def State.find (s : State) (file : Chars) : Option CacheEntry :=
  s.files.find? fun e => decide (e.name = file)

/-! ## Locks -/

/-- A lock of this kind has to wait for another process. -/
def State.conflicts (s : State) (p : Process) (file : Chars) (kind : LockKind) : Bool :=
  s.locks.any fun l => decide (l.1 ≠ p) && decide (l.2.1 = file) &&
    (decide (kind = .exclusive) || decide (l.2.2 = .exclusive))

/-- `unlock`, and any other close. -/
def State.unlock (s : State) (p : Process) (file : Chars) : State :=
  { s with locks := s.locks.filter fun l => !(decide (l.1 = p) && decide (l.2.1 = file)) }

def State.lock (s : State) (p : Process) (file : Chars) (kind : LockKind) : State :=
  { s with locks := (p, file, kind) :: (s.unlock p file).locks }

/-- `getExclusiveLockNB`. -/
def State.getExclusiveLockNB (s : State) (p : Process) (file : Chars) : Bool × State :=
  match s.find file with
  | none => (false, s)
  | some _ =>
    if s.conflicts p file .exclusive then (false, s.unlock p file)
    else (true, s.lock p file .exclusive)

/-! ## Operations -/

def State.unlink (s : State) (file : Chars) : State :=
  { s with files := s.files.filter fun e => !decide (e.name = file) }

def State.change (s : State) (file : Chars) (f : CacheEntry → CacheEntry) : State :=
  { s with files := s.files.map fun e => if e.name = file then f e else e }

/-- `create_and_lock`; a file that is there is left alone. -/
def State.createAndLock (s : State) (p : Process) (file : Chars) (time : Int) : State :=
  match s.find file with
  | some _ => s
  | none => ({ s with files := s.files ++ [⟨file, 0, time⟩] } : State).lock p file .exclusive

/-- `update_cache_info`; it raises for a file that is not there. -/
def State.updateCacheInfo (s : State) (file : Chars) : State :=
  match s.find file with
  | none => s
  | some e => { s with info := (s.info + e.size) % 2 ^ 64 }

def State.getReadLock (s : State) (p : Process) (file : Chars) : State :=
  match s.find file with
  | none => s
  | some _ => if s.conflicts p file .shared then s else s.lock p file .shared

/-- The directory with the info file, which has eight bytes. -/
def State.directory (config : Config) (s : State) : List CacheEntry :=
  ⟨config.infoName, 8, 0⟩ :: s.files

/-- `m_collect_cache_dir_info`: the files with the prefix, oldest access first, and their
total size. -/
def State.collect (config : Config) (s : State) : List CacheEntry × Nat :=
  let files := (s.directory config).filter fun e => config.cachePrefix.isPrefixOf e.name
  (files.insertionSort fun e1 e2 => e1.time ≤ e2.time,
    (files.map CacheEntry.size).sum % 2 ^ 64)

/-- `a - b` in 64 bits. -/
def minus (a b : Nat) : Nat := (a + (2 ^ 64 - b % 2 ^ 64)) % 2 ^ 64

/-- The loop of `update_and_purge`. -/
def purgeLoop (target : Nat) (p : Process) (newFile : Chars) :
    List CacheEntry → State → Nat → State × Nat
  | [], s, computed => (s, computed)
  | e :: rest, s, computed =>
    if computed ≤ target then (s, computed)
    else if e.name = newFile then purgeLoop target p newFile rest s computed
    else
      match s.getExclusiveLockNB p e.name with
      | (true, s) =>
        purgeLoop target p newFile rest ((s.unlink e.name).unlock p e.name)
          (minus computed e.size)
      | (false, s) => purgeLoop target p newFile rest s computed

def State.updateAndPurge (config : Config) (s : State) (p : Process) (newFile : Chars) : State :=
  let collected := s.collect config
  let purged :=
    if collected.2 > config.maxCacheSize then
      purgeLoop config.targetSize p newFile collected.1 s collected.2
    else (s, collected.2)
  { purged.1 with info := purged.2 }

def State.purgeFile (s : State) (p : Process) (file : Chars) : State :=
  match s.find file with
  | none => s
  | some e =>
    if s.conflicts p file .exclusive then s
    else { (s.unlink file).unlock p file with info := minus s.info e.size }

inductive Action where
  | createAndLock (p : Process) (file : Chars) (time : Int)
  /-- The creator writes its file. -/
  | write (p : Process) (file : Chars) (size : Nat) (time : Int)
  | updateCacheInfo (p : Process) (file : Chars)
  | getReadLock (p : Process) (file : Chars)
  /-- A file is read. -/
  | access (file : Chars) (time : Int)
  | unlockAndClose (p : Process) (file : Chars)
  | updateAndPurge (p : Process) (newFile : Chars)
  | purgeFile (p : Process) (file : Chars)

def State.step (config : Config) (s : State) : Action → State
  | .createAndLock p file time => s.createAndLock p file time
  | .write _ file size time => s.change file fun e => { e with size, time }
  | .updateCacheInfo _ file => s.updateCacheInfo file
  | .getReadLock p file => s.getReadLock p file
  | .access file time => s.change file fun e => { e with time }
  | .unlockAndClose p file => s.unlock p file
  | .updateAndPurge p newFile => s.updateAndPurge config p newFile
  | .purgeFile p file => s.purgeFile p file

end Libdap.Source.DAPCache3
