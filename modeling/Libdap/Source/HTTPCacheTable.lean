import Mathlib.Tactic

/-!
# HTTPCacheTable: the entries of the client-side cache

An entry is the object at its address; the vectors of the table hold pointers to
entries or null pointers. A mutex is whether it is held. Removing a file never raises
(HTTPCacheMacros.h drops the result of `remove`). `parse_time` and `strtoul` are
parameters, a character is a byte, and a slot that was never used is an empty one.
-/
namespace Libdap.Source.HTTPCacheTable

abbrev Chars := List Char

def cacheTableSize : Nat := 1499

/-- `get_hash`; `c_str` ends at the first null byte. -/
def getHash (url : Chars) : Nat :=
  (url.takeWhile (· ≠ '\x00')).foldl (fun hash c => (hash * 3 + c.toNat) % cacheTableSize) 0

structure CacheEntry where
  address : Nat
  url : Chars
  hash : Int
  hits : Int
  cachename : Chars
  etag : Chars
  lm : Int
  expires : Int
  date : Int
  age : Int
  maxAge : Int
  size : Nat
  range : Bool
  freshnessLifetime : Int
  responseTime : Int
  correctedInitialAge : Int
  mustRevalidate : Bool
  noCache : Bool
  readers : Int
  responseLock : Bool
  responseWriteLock : Bool
  deriving DecidableEq, Repr

/-- The constructor without a URL. -/
def CacheEntry.blank (address : Nat) : CacheEntry :=
  { address, url := [], hash := -1, hits := 0, cachename := [], etag := [], lm := -1,
    expires := -1, date := -1, age := -1, maxAge := -1, size := 0, range := false,
    freshnessLifetime := 0, responseTime := 0, correctedInitialAge := 0,
    mustRevalidate := false, noCache := false, readers := 0, responseLock := false,
    responseWriteLock := false }

def CacheEntry.make (address : Nat) (url : Chars) : CacheEntry :=
  { CacheEntry.blank address with url, hash := getHash url }

/-! ## The two locks of an entry

None where the caller waits: whoever could free the lock needs the interface lock that
the caller holds. -/

def CacheEntry.lockReadResponse (e : CacheEntry) : Option CacheEntry :=
  if e.responseLock then
    if e.responseWriteLock then none else some { e with readers := e.readers + 1 }
  else some { e with responseLock := true, readers := e.readers + 1 }

def CacheEntry.unlockReadResponse (e : CacheEntry) : CacheEntry :=
  if e.readers - 1 = 0 then { e with readers := e.readers - 1, responseLock := false }
  else { e with readers := e.readers - 1 }

def CacheEntry.lockWriteResponse (e : CacheEntry) : Option CacheEntry :=
  if e.responseLock || e.responseWriteLock then none
  else some { e with responseLock := true, responseWriteLock := true }

def CacheEntry.unlockWriteResponse (e : CacheEntry) : CacheEntry :=
  { e with responseLock := false, responseWriteLock := false }

/-! ## The table -/

abbrev Slot := List (Option CacheEntry)

/-- A `FILE *`. -/
abbrev File := Nat

structure Table where
  slots : List Slot
  blockSize : Nat
  /-- An `unsigned long`. -/
  currentSize : Nat
  newEntries : Int
  /-- `d_locked_entries`, with the address of the entry or none for a null pointer. -/
  lockedEntries : List (File × Option Nat)

def Table.empty (blockSize : Nat) : Table :=
  { slots := List.replicate cacheTableSize [], blockSize, currentSize := 0, newEntries := 0,
    lockedEntries := [] }

/-- `entry_disk_space`: unsigned 32 bit arithmetic, and an `int` result. -/
def entryDiskSpace (size blockSize : Nat) : Int :=
  let blocks : Nat := ((size % 2 ^ 32 + blockSize) % 2 ^ 32) / blockSize
  let space : Nat := blocks * blockSize % 2 ^ 32
  if space < 2 ^ 31 then space else (space : Int) - 2 ^ 32

/-- How a member function ends: it returns, an exception leaves it, or it never ends. -/
inductive Exit where
  | returned | raised | stuck
  deriving DecidableEq, Repr

/-- `add_entry_to_cache_table`. -/
def Table.addEntry (t : Table) (e : CacheEntry) : Exit × Table :=
  if e.hash > cacheTableSize - 1 ∨ e.hash < 0 then (.raised, t)
  else
    (.returned, { t with
      slots := t.slots.modify e.hash.toNat (· ++ [some e]),
      currentSize := ((t.currentSize + entryDiskSpace e.size t.blockSize) % 2 ^ 64).toNat,
      newEntries := t.newEntries + 1 })

/-- The loop of the two `get_..._entry_from_cache_table`. -/
def Table.find (t : Table) (url : Chars) : Option CacheEntry :=
  ((t.slots[getHash url]?).getD []).findSome? fun p =>
    match p with
    | some e => if e.url = url then some e else none
    | none => none

/-- A change made through a pointer to an entry. -/
def Table.modify (t : Table) (address : Nat) (change : CacheEntry → CacheEntry) : Table :=
  { t with
    slots := t.slots.map fun slot => slot.map fun p => p.map fun e =>
      if e.address = address then change e else e }

/-! ## Deleting -/

/-- What a functor does with an entry: nothing, wait for its locks, or hand it, as it is
then, to `remove_cache_entry`. -/
inductive Disposal where
  | keep
  | wait
  | delete (e : CacheEntry)

/-- The size left by `remove_cache_entry`. -/
def release (blockSize currentSize : Nat) (e : CacheEntry) : Nat :=
  let eds := (entryDiskSpace e.size blockSize % 2 ^ 32).toNat
  if eds > currentSize then 0 else currentSize - eds

/-- `for_each` with a functor that deletes and nulls. -/
def forEach (dispose : CacheEntry → Disposal) (blockSize : Nat) :
    Slot → Nat → Exit × Slot × Nat
  | [], size => (.returned, [], size)
  | none :: rest, size =>
    let (exit, rest, size) := forEach dispose blockSize rest size
    (exit, none :: rest, size)
  | some e :: rest, size =>
    match dispose e with
    | .keep =>
      let (exit, rest, size) := forEach dispose blockSize rest size
      (exit, some e :: rest, size)
    | .wait => (.stuck, some e :: rest, size)
    | .delete e =>
      -- "Tried to delete a cache entry that is in use."
      if e.readers ≠ 0 then (.raised, some e :: rest, size)
      else
        let (exit, rest, size) := forEach dispose blockSize rest (release blockSize size e)
        (exit, none :: rest, size)

/-- `for_each` and, unless an exception leaves it, the erase of the null pointers. -/
def cleanSlot (dispose : CacheEntry → Disposal) (blockSize : Nat) (slot : Slot) (size : Nat) :
    Exit × Slot × Nat :=
  let (exit, slot, size) := forEach dispose blockSize slot size
  (exit, if exit = .returned then slot.filter Option.isSome else slot, size)

/-- The loop over the slots of the four functions that delete. -/
def cleanSlots (dispose : CacheEntry → Disposal) (blockSize : Nat) :
    List Slot → Nat → Exit × List Slot × Nat
  | [], size => (.returned, [], size)
  | slot :: rest, size =>
    match cleanSlot dispose blockSize slot size with
    | (.returned, slot, size) =>
      let (exit, rest, size) := cleanSlots dispose blockSize rest size
      (exit, slot :: rest, size)
    | (exit, slot, size) => (exit, slot :: rest, size)

def Table.clean (dispose : CacheEntry → Disposal) (t : Table) : Exit × Table :=
  let (exit, slots, currentSize) := cleanSlots dispose t.blockSize t.slots t.currentSize
  (exit, { t with slots, currentSize })

/-- The functors of the garbage collection pass over an entry that is being read. -/
def unread (doomed : CacheEntry → Bool) (e : CacheEntry) : Disposal :=
  if e.readers = 0 ∧ doomed e then .delete e else .keep

/-- `DeleteExpired`; a time of 0 stands for now. -/
def Table.deleteExpiredEntries (now : Int) (t : Table) : Exit × Table :=
  t.clean (unread fun e =>
    decide (e.freshnessLifetime < e.correctedInitialAge + (now - e.responseTime)))

def Table.deleteByHits (hits : Int) (t : Table) : Exit × Table :=
  t.clean (unread fun e => decide (e.hits ≤ hits))

/-- The bound is an `unsigned int`. -/
def Table.deleteBySize (size : Nat) (t : Table) : Exit × Table :=
  t.clean (unread fun e => decide (e.size > size % 2 ^ 32))

/-- `DeleteUnlockedCacheEntry`, which does not look at the locks. -/
def Table.deleteAllEntries (t : Table) : Exit × Table :=
  match t.clean .delete with
  | (.returned, t) => (.returned, { t with newEntries := 0 })
  | (exit, t) => (exit, t)

/-- `DeleteCacheEntry`. -/
def deleteCacheEntry (url : Chars) (e : CacheEntry) : Disposal :=
  if e.url = url then
    match e.lockWriteResponse with
    | none => .wait
    | some e => .delete e
  else .keep

def Table.removeEntry (url : Chars) (t : Table) : Exit × Table :=
  match t.slots[getHash url]? with
  | none => (.returned, t)
  | some slot =>
    let (exit, slot, currentSize) :=
      cleanSlot (deleteCacheEntry url) t.blockSize slot t.currentSize
    (exit, { t with slots := t.slots.set (getHash url) slot, currentSize })

/-! ## Headers and times -/

/-- What the library functions answer. -/
structure Parsing where
  parseTime : Chars → Int
  strtoul : Chars → Nat

/-- `find` of the standard library. -/
def findText (what text : Chars) : Option Nat :=
  (List.range (text.length + 1)).find? fun i => what.isPrefixOf (text.drop i)

/-- One turn of `parse_headers`. -/
def parseHeader (lib : Parsing) (maxEntrySize : Nat) (e : CacheEntry) (line : Chars) :
    CacheEntry :=
  match findText [':'] line with
  | none => e
  | some colon =>
    let header := line.take colon
    -- Without ": " the position is npos, and npos + 2 is 1.
    let value := line.drop (((findText [':', ' '] line).map (· + 2)).getD 1)
    if header = "ETag".toList then { e with etag := value }
    else if header = "Last-Modified".toList then { e with lm := lib.parseTime value }
    else if header = "Expires".toList then { e with expires := lib.parseTime value }
    else if header = "Date".toList then { e with date := lib.parseTime value }
    else if header = "Age".toList then { e with age := lib.parseTime value }
    else if header = "Content-Length".toList then
      if lib.strtoul value > maxEntrySize then { e with noCache := true } else e
    else if header = "Cache-Control".toList then
      if value = "no-cache".toList ∨ value = "no-store".toList then { e with noCache := true }
      else if value = "must-revalidate".toList then { e with mustRevalidate := true }
      -- `"=" + 1` is the empty string, which is found at 0.
      else if (findText "max-age".toList value).isSome then
        { e with maxAge := lib.parseTime value }
      else e
    else e

def parseHeaders (lib : Parsing) (maxEntrySize : Nat) (e : CacheEntry) (headers : List Chars) :
    CacheEntry :=
  headers.foldl (parseHeader lib maxEntrySize) e

/-- A `static_cast<int>`. -/
def toInt (n : Int) : Int := (n + 2 ^ 31) % 2 ^ 32 - 2 ^ 31

def maxLmExpiration : Int := 48 * 3600

/-- `calculate_time`, called at `now`. -/
def calculateTime (defaultExpiration requestTime now : Int) (e : CacheEntry) : CacheEntry :=
  let apparentAge := max 0 (toInt (now - e.date))
  let correctedReceivedAge := max apparentAge e.age
  let freshnessLifetime :=
    if e.maxAge < 0 then
      if e.expires < 0 then
        if e.lm < 0 then defaultExpiration
        else min maxLmExpiration (toInt ((e.date - e.lm).tdiv 10))
      else e.expires - e.date
    else e.maxAge
  { e with
    responseTime := now,
    correctedInitialAge := correctedReceivedAge + (now - requestTime),
    freshnessLifetime := max 0 (toInt freshnessLifetime) }

/-! ## Responses in use -/

/-- `bind_entry_to_data`. -/
def Table.bindEntry (t : Table) (address : Nat) (body : File) : Table :=
  { t.modify address (fun e => { e with hits := e.hits + 1 }) with
    lockedEntries := (body, some address) :: t.lockedEntries.filter (·.1 ≠ body) }

/-- `uncouple_entry_from_data`; looking a file up that is not there adds a null pointer. -/
def Table.uncouple (t : Table) (body : File) : Exit × Table :=
  match t.lockedEntries.find? (·.1 = body) with
  | none => (.raised, { t with lockedEntries := (body, none) :: t.lockedEntries })
  | some (_, none) => (.raised, t)
  | some (_, some address) =>
    let t := { t with lockedEntries := t.lockedEntries.filter (·.1 ≠ body) }
    let t := t.modify address CacheEntry.unlockReadResponse
    -- "An unlocked entry was released"
    if t.slots.any fun slot => slot.any fun p => match p with
        | some e => e.address = address && decide (e.readers < 0)
        | none => false
      then (.raised, t)
    else (.returned, t)

end Libdap.Source.HTTPCacheTable
