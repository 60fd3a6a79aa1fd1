import Libdap.Source.Failure

/-!
# ResponseCache.cc: the results of server functions on disk

`read_cached_dataset` keeps the result of a function clause in a file whose name is
made from the dataset's name and the clause. A file stands here for the request whose
result it holds, its size and its time. What the file system and the computation decide
(when, how large, whether it raises, which files a purge takes) is part of the call.
-/
namespace Libdap.Source.ResponseCache

abbrev Chars := List Char

structure Request where
  dataset : Chars
  constraint : Chars
  deriving DecidableEq, Repr

/-! ## File names -/

def firstSpecial : Chars := ['/', '(', ')', ',', '"', '\'']

/-- The comma is missing in the loop of the source. -/
def laterSpecial : Chars := ['/', '(', ')', '"', '\'']

def findFirstOf (special name : Chars) : Option Nat := name.findIdx? fun c => special.contains c

/-- The loop of `build_cache_file_name` (lines 82-85). -/
def replaceLoop : Nat → Chars → Option Nat → Except Failure Chars
  | 0, _, _ => .error .outOfFuel
  | _ + 1, name, none => .ok name
  | fuel + 1, name, some pos =>
    let name := name.set pos '#'
    replaceLoop fuel name (findFirstOf laterSpecial name)

/-- `build_cache_file_name` (lines 75-90); each turn of the loop replaces a character. -/
def buildCacheFileName (dataset ce : Chars) : Except Failure Chars :=
  let name := dataset ++ '#' :: ce
  replaceLoop (name.length + 2) name (findFirstOf firstSpecial name)

/-- The two members of DAPCache3 that a file name is made with. -/
structure Directory where
  cacheDir : Chars
  cachePrefix : Chars

/-- `DAPCache3::get_cache_file_name(src, false)`. -/
def Directory.getCacheFileName (d : Directory) (src : Chars) : Chars :=
  d.cacheDir ++ '/' :: d.cachePrefix ++ '#' :: src

def Directory.fileName (d : Directory) (r : Request) : Except Failure Chars := do
  let name ← buildCacheFileName r.dataset r.constraint
  pure (d.getCacheFileName name)

/-! ## Cached responses -/

structure Entry where
  /-- The request whose result was written, once it has been. -/
  result : Option Request
  size : Nat
  mtime : Int
  deriving DecidableEq, Repr

abbrev Files := Chars → Option Entry

structure Call where
  request : Request
  /-- Parsing, evaluating or writing raises. -/
  raises : Bool
  size : Nat
  now : Int
  /-- What `update_and_purge` takes; never the new file. -/
  purged : Chars → Bool

/-- `is_valid` (lines 101-131), with the time of each dataset that is a file. -/
def isValid (modified : Chars → Option Int) (files : Files) (name dataset : Chars) : Bool :=
  match files name with
  | none => false
  | some entry =>
    if entry.size = 0 then false
    else decide ¬ (modified dataset).getD entry.mtime > entry.mtime

def purgeFile (files : Files) (name : Chars) : Files := fun n => if n = name then none else files n

/-- The answer of a call is the request whose result it returns; none when it raises. -/
def readCachedDataset (d : Directory) (modified : Chars → Option Int) (files : Files) (c : Call) :
    Except Failure (Files × Option Request) := do
  let name ← d.fileName c.request
  let files := if isValid modified files name c.request.dataset then files
    else purgeFile files name
  match files name with
  | some entry => pure (files, entry.result)
  | none =>
    if c.raises then
      -- `create_and_lock` has made an empty file already.
      pure (fun n => if n = name then some ⟨none, 0, c.now⟩ else files n, none)
    else
      let written : Files := fun n =>
        if n = name then some ⟨some c.request, c.size, c.now⟩
        else if c.purged n then none else files n
      pure (written, some c.request)

/-- The answers to a list of calls. -/
def readAll (d : Directory) (modified : Chars → Option Int) :
    Files → List Call → Except Failure (List (Option Request))
  | _, [] => pure []
  | files, c :: calls => do
    let (files, answer) ← readCachedDataset d modified files c
    let answers ← readAll d modified files calls
    pure (answer :: answers)

end Libdap.Source.ResponseCache
