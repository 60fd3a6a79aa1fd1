import Libdap.Source.HTTPCacheTable
import Libdap.Source.ErrorText

/-!
# HTTPCacheTable: the index file

`cache_index_write` prints one line for each entry, `cache_index_read` reads the file
through a buffer of 1024 characters and takes each piece apart with the extraction
operators of `istringstream`. Opening and writing the file do not fail here.
-/
namespace Libdap.Source.HTTPCacheIndex
open HTTPCacheTable (Chars CacheEntry Slot Table Exit)
open ErrorText (cStr printInt isDigit digitsValue)

/-! ## Writing -/

def cacheEmptyEtag : Chars := "@cache@".toList

/-- `%ld` of an `unsigned long`. -/
def printSize (size : Nat) : Chars :=
  printInt (if size < 2 ^ 63 then size else (size : Int) - 2 ^ 64)

def printBool (b : Bool) : Chars := if b then ['1'] else ['0']

def writtenEtag (e : CacheEntry) : Chars := if e.etag = [] then cacheEmptyEtag else cStr e.etag

/-- The line without its end, `"%s %s %s %ld %ld %ld %c %d %d %ld %ld %ld %c\r"`. -/
def entryText (e : CacheEntry) : Chars :=
  cStr e.url ++ ' ' :: (cStr e.cachename ++ ' ' :: (writtenEtag e ++ ' ' :: (printInt e.lm ++
    ' ' :: (printInt e.expires ++ ' ' :: (printSize e.size ++ ' ' :: (printBool e.range ++
    ' ' :: (printInt e.hash ++ ' ' :: (printInt e.hits ++ ' ' :: (printInt e.freshnessLifetime ++
    ' ' :: (printInt e.responseTime ++ ' ' :: (printInt e.correctedInitialAge ++
    ' ' :: (printBool e.mustRevalidate ++ ['\r']))))))))))))

/-- `WriteOneCacheEntry`. -/
def writeOneCacheEntry (e : CacheEntry) : Chars := entryText e ++ ['\n']

/-- The file that `cache_index_write` leaves behind. -/
def cacheIndexWrite (t : Table) : Chars :=
  t.slots.flatMap fun slot => slot.flatMap fun p => (p.map writeOneCacheEntry).getD []

/-! ## Streams -/

/-- `isspace` in the C locale. -/
def isSpace (c : Char) : Bool := c = ' ' || ('\t' ≤ c && c ≤ '\r')

structure Stream where
  rest : Chars
  fail : Bool

def Stream.make (line : Chars) : Stream := ⟨cStr line, false⟩

/-- The sentry of an extraction: what follows the white space, none where the stream
failed before or there is nothing more. -/
def Stream.skip (s : Stream) : Option Chars :=
  if s.fail then none
  else if s.rest.dropWhile isSpace = [] then none
  else some (s.rest.dropWhile isSpace)

/-- The stream that an extraction makes fail; the old value stays where the sentry fails. -/
def Stream.failed : Stream := ⟨[], true⟩

def Stream.getString (s : Stream) (old : Chars) : Chars × Stream :=
  match s.skip with
  | none => (old, .failed)
  | some text =>
    (text.takeWhile fun c => !isSpace c, ⟨text.dropWhile fun c => !isSpace c, false⟩)

/-- The sign of a number, and what follows it. -/
def sign : Chars → Bool × Chars
  | '-' :: text => (true, text)
  | '+' :: text => (false, text)
  | text => (false, text)

/-- The extraction of a number; `convert` has its sign and magnitude, and whether the
value is in range. -/
def Stream.getNumber {α : Type} (convert : Bool → Nat → α × Bool) (zero : α) (s : Stream)
    (old : α) : α × Stream :=
  match s.skip with
  | none => (old, .failed)
  | some text =>
    let number := sign text
    let digits := number.2.takeWhile isDigit
    if digits = [] then (zero, .failed)
    else
      match convert number.1 (digitsValue digits) with
      | (value, true) => (value, ⟨number.2.dropWhile isDigit, false⟩)
      | (value, false) => (value, .failed)

def signed (negative : Bool) (magnitude : Nat) : Int :=
  if negative then -(magnitude : Int) else magnitude

/-- A signed type of this many bits: out of its range the nearest value, and a failure. -/
def toSigned (bits : Nat) (negative : Bool) (magnitude : Nat) : Int × Bool :=
  let value := signed negative magnitude
  if value < -2 ^ (bits - 1) then (-2 ^ (bits - 1), false)
  else if 2 ^ (bits - 1) ≤ value then (2 ^ (bits - 1) - 1, false)
  else (value, true)

/-- A minus sign is taken modulo 2^64. -/
def toUnsigned (negative : Bool) (magnitude : Nat) : Nat × Bool :=
  if 2 ^ 64 ≤ magnitude then (2 ^ 64 - 1, false)
  else (if negative then (2 ^ 64 - magnitude) % 2 ^ 64 else magnitude, true)

def toBool (negative : Bool) (magnitude : Nat) : Bool × Bool :=
  match signed negative magnitude with
  | 0 => (false, true)
  | 1 => (true, true)
  | _ => (true, false)

def Stream.getLong (s : Stream) (old : Int) : Int × Stream := s.getNumber (toSigned 64) 0 old

def Stream.getInt (s : Stream) (old : Int) : Int × Stream := s.getNumber (toSigned 32) 0 old

def Stream.getUnsigned (s : Stream) (old : Nat) : Nat × Stream := s.getNumber toUnsigned 0 old

def Stream.getBool (s : Stream) (old : Bool) : Bool × Stream := s.getNumber toBool false old

/-! ## Reading -/

/-- `cache_index_parse_line`. -/
def cacheIndexParseLine (address : Nat) (line : Chars) : CacheEntry :=
  let e := CacheEntry.blank address
  let url := (Stream.make line).getString e.url
  let cachename := url.2.getString e.cachename
  let etag := cachename.2.getString e.etag
  let lm := etag.2.getLong e.lm
  let expires := lm.2.getLong e.expires
  let size := expires.2.getUnsigned e.size
  let range := size.2.getBool e.range
  let hash := range.2.getInt e.hash
  let hits := hash.2.getInt e.hits
  let freshnessLifetime := hits.2.getLong e.freshnessLifetime
  let responseTime := freshnessLifetime.2.getLong e.responseTime
  let correctedInitialAge := responseTime.2.getLong e.correctedInitialAge
  let mustRevalidate := correctedInitialAge.2.getBool e.mustRevalidate
  { e with
    url := url.1, cachename := cachename.1,
    etag := if etag.1 = cacheEmptyEtag then [] else etag.1,
    lm := lm.1, expires := expires.1, size := size.1, range := range.1, hash := hash.1,
    hits := hits.1, freshnessLifetime := freshnessLifetime.1, responseTime := responseTime.1,
    correctedInitialAge := correctedInitialAge.1, mustRevalidate := mustRevalidate.1 }

/-- At most this many characters, up to the end of the line, and what follows them. -/
def fgets : Nat → Chars → Chars × Chars
  | 0, text => ([], text)
  | _ + 1, [] => ([], [])
  | n + 1, c :: text =>
    if c = '\n' then ([c], text) else (c :: (fgets n text).1, (fgets n text).2)

theorem fgets_rest (n : Nat) (text : Chars) : (fgets n text).2.length ≤ text.length := by
  induction n generalizing text with
  | zero => exact Nat.le_refl _
  | succ n ih =>
    cases text with
    | nil => exact Nat.le_refl _
    | cons c text =>
      unfold fgets
      split
      · exact Nat.le_succ _
      · exact (ih text).trans (Nat.le_succ _)

theorem fgets_shorter (n : Nat) (c : Char) (text : Chars) :
    (fgets (n + 1) (c :: text)).2.length < (c :: text).length := by
  unfold fgets
  split
  · exact Nat.lt_succ_self _
  · exact Nat.lt_succ_of_le (fgets_rest n text)

/-- The pieces of the file, through the buffer `line[1024]`. -/
def pieces : Chars → List Chars
  | [] => []
  | c :: text =>
    (fgets 1023 (c :: text)).1 :: pieces (fgets 1023 (c :: text)).2
termination_by text => text.length
decreasing_by exact fgets_shorter 1022 c text

/-- Each new entry is an object of its own. -/
def readEntries : Nat → List Chars → Table → Exit × Table
  | _, [], t => (.returned, t)
  | address, line :: rest, t =>
    match t.addEntry (cacheIndexParseLine address line) with
    | (.returned, t) => readEntries (address + 1) rest t
    | (exit, t) => (exit, t)

/-- `cache_index_read` of a file that is there. -/
def cacheIndexRead (file : Chars) (t : Table) : Exit × Table :=
  match readEntries 0 (pieces file) t with
  | (.returned, t) => (.returned, { t with newEntries := 0 })
  | (exit, t) => (exit, t)

end Libdap.Source.HTTPCacheIndex
