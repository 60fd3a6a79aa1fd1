import Libdap.Source.HTTPCacheTable

/-!
# HTTPCache: one operation after the other

Each operation holds the interface lock from its start to its end, so that an operation
that waits for an entry's lock is the last one there is (`hung`). What the file system
does, and the time, come with the call.
-/
namespace Libdap.Source.HTTPCache
open HTTPCacheTable

/-- Lines 78-85 and the values of `set_max_size`, which stay as they are here. -/
structure Config where
  totalSize : Nat
  folderSize : Nat
  gcBuffer : Nat
  maxEntrySize : Nat
  defaultExpiration : Int
  expireIgnored : Bool
  alwaysValidate : Bool
  lib : Parsing

def dumpFrequency : Int := 10

structure State where
  table : Table
  nextAddress : Nat
  hung : Bool

/-- The cache as the constructor makes it where there is no index file. -/
def State.empty (blockSize : Nat) : State :=
  { table := Table.empty blockSize, nextAddress := 0, hung := false }

/-! ## Garbage collection -/

variable (config : Config)

def stopGC (t : Table) : Bool :=
  decide ((t.currentSize : Int) + config.folderSize < config.totalSize - config.gcBuffer)

def startGC (t : Table) : Bool := decide (t.currentSize + config.folderSize > config.totalSize)

def expiredGC (now : Int) (t : Table) : Exit × Table :=
  if config.expireIgnored then (.returned, t) else t.deleteExpiredEntries now

def tooBigGC (t : Table) : Exit × Table :=
  if startGC config t then t.deleteBySize config.maxEntrySize else (.returned, t)

/-- The loop of `hits_gc`; past the bound it deletes nothing any more and goes on forever. -/
def hitsLoop : Nat → Int → Table → Exit × Table
  | 0, _, t => (.stuck, t)
  | fuel + 1, hits, t =>
    if stopGC config t then (.returned, t)
    else
      match t.deleteByHits hits with
      | (.returned, t) => hitsLoop fuel (hits + 1) t
      | (exit, t) => (exit, t)

def mostHits (t : Table) : Int :=
  (t.slots.flatten.filterMap id).foldl (fun most e => max most e.hits) 0

def hitsGC (t : Table) : Exit × Table :=
  if startGC config t then hitsLoop config ((mostHits t).toNat + 2) 0 t else (.returned, t)

def performGarbageCollection (now : Int) (t : Table) : Exit × Table :=
  match expiredGC config now t with
  | (.returned, t) =>
    match tooBigGC config t with
    | (.returned, t) => hitsGC config t
    | (exit, t) => (exit, t)
  | (exit, t) => (exit, t)

/-! ## The operations -/

/-- The file operations of a call that raise. -/
structure Disk where
  location : Bool
  writeBody : Bool
  writeMetadata : Bool
  readMetadata : Bool
  openBody : Bool
  writeIndex : Bool
  deriving DecidableEq, Repr

def Disk.works : Disk := ⟨false, false, false, false, false, false⟩

inductive Call where
  /-- The size of the body, the name `mkstemp` makes and the time come with the call. -/
  | cacheResponse (url : Chars) (requestTime : Int) (headers : List Chars) (body : Nat)
      (cachename : Chars) (now : Int) (disk : Disk)
  | updateResponse (url : Chars) (requestTime : Int) (headers : List Chars) (now : Int)
      (disk : Disk)
  | getConditionalRequestHeaders (url : Chars)
  | isUrlValid (url : Chars)
  /-- The file is the one `fopen` answers. -/
  | getCachedResponse (url : Chars) (file : File) (disk : Disk)
  | releaseCachedResponse (file : File)
  | performGarbageCollection (now : Int)
  | purgeCache

def isHttp (url : Chars) : Bool :=
  (findText "http:".toList url).isSome || (findText "https:".toList url).isSome

/-- `cache_index_write`, as far as the table goes. -/
def cacheIndexWrite (disk : Disk) (t : Table) : Exit × Table :=
  if disk.writeIndex then (.raised, t) else (.returned, { t with newEntries := 0 })

/-- The end of `cache_response` (lines 1190-1196). -/
def dumpIndex (now : Int) (disk : Disk) (t : Table) : Exit × Table :=
  if t.newEntries > dumpFrequency then
    if startGC config t then
      match performGarbageCollection config now t with
      | (.returned, t) => cacheIndexWrite disk t
      | (exit, t) => (exit, t)
    else cacheIndexWrite disk t
  else (.returned, t)

/-- `cache_response` (lines 1136-1209) behind the removal of the old entry; the new one
is write-locked until it is in the table. -/
def storeResponse (address : Nat) (url : Chars) (requestTime : Int) (headers : List Chars)
    (body : Nat) (cachename : Chars) (now : Int) (disk : Disk) (t : Table) : Exit × Table :=
  let entry := parseHeaders config.lib config.maxEntrySize (CacheEntry.make address url) headers
  if entry.noCache then (.returned, t)
  else
    let entry := calculateTime config.defaultExpiration requestTime now entry
    if disk.location || disk.writeBody || disk.writeMetadata then (.raised, t)
    else
      match t.addEntry { entry with cachename, size := body } with
      | (.returned, t) => dumpIndex config now disk t
      | (exit, t) => (exit, t)

/-- `update_response` (lines 1299-1355). -/
def updateEntry (url : Chars) (requestTime : Int) (headers : List Chars) (now : Int) (disk : Disk)
    (t : Table) : Exit × Table :=
  match t.find url with
  | none => (.raised, t)
  | some e =>
    match e.lockWriteResponse with
    | none => (.stuck, t)
    | some locked =>
      let merged := calculateTime config.defaultExpiration requestTime now
        (parseHeaders config.lib config.maxEntrySize locked headers)
      if disk.readMetadata || disk.writeMetadata then
        -- The handler gives back a read lock.
        (.raised, t.modify e.address fun _ => merged.unlockReadResponse)
      else (.returned, t.modify e.address fun _ => merged.unlockWriteResponse)

/-- What `get_conditional_request_headers` and `is_url_valid` do with the locks: both
give the read lock back on every way out. -/
def peek (url : Chars) (t : Table) : Exit × Table :=
  match t.find url with
  | none => (.raised, t)
  | some e =>
    match e.lockReadResponse with
    | none => (.stuck, t)
    | some locked => (.returned, t.modify e.address fun _ => locked.unlockReadResponse)

/-- `get_cached_response` (lines 1461-1505). -/
def getResponse (url : Chars) (file : File) (disk : Disk) (t : Table) : Exit × Table :=
  match t.find url with
  | none => (.returned, t)
  | some e =>
    match e.lockReadResponse with
    | none => (.stuck, t)
    | some locked =>
      let t := t.modify e.address fun _ => locked
      -- The handler frees the interface lock only.
      if disk.readMetadata || disk.openBody then (.raised, t)
      else (.returned, t.bindEntry e.address file)

def purge (t : Table) : Exit × Table :=
  if t.lockedEntries ≠ [] then (.raised, t) else t.deleteAllEntries

def perform (address : Nat) (t : Table) : Call → Exit × Table
  | .cacheResponse url requestTime headers body cachename now disk =>
    if isHttp url then
      match t.removeEntry url with
      | (.returned, t) =>
        storeResponse config address url requestTime headers body cachename now disk t
      | (exit, t) => (exit, t)
    else (.returned, t)
  | .updateResponse url requestTime headers now disk =>
    updateEntry config url requestTime headers now disk t
  | .getConditionalRequestHeaders url => peek url t
  | .isUrlValid url => if config.alwaysValidate then (.returned, t) else peek url t
  | .getCachedResponse url file disk => getResponse url file disk t
  | .releaseCachedResponse file => t.uncouple file
  | .performGarbageCollection now => performGarbageCollection config now t
  | .purgeCache => purge t

def State.step (s : State) (c : Call) : State :=
  if s.hung then s
  else
    match perform config s.nextAddress s.table c with
    | (.stuck, _) => { s with hung := true }
    | (_, table) => { s with table, nextAddress := s.nextAddress + 1 }

end Libdap.Source.HTTPCache
