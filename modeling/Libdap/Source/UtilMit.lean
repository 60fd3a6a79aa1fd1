import Libdap.Source.HTTPCacheIndex

/-!
# util_mit: dates

A string is what stands in front of its null byte, and a pointer into it is what stands
behind it. None where the code reads behind the null byte. The calendar functions of the C
library are parameters.
-/
namespace Libdap.Source.UtilMit
open HTTPCacheTable (Chars toInt)
open ErrorText (decimal isDigit digitsValue)
open HTTPCacheIndex (isSpace sign signed)

/-- The fields of a `struct tm` that are set; the year counts from 1900. -/
structure Tm where
  sec : Int
  min : Int
  hour : Int
  mday : Int
  mon : Int
  year : Int
  deriving DecidableEq, Repr

structure Calendar where
  gmtime : Int → Tm
  /-- The `tm_wday` of `gmtime`. -/
  wday : Int → Nat
  timegm : Tm → Int

def months : List Chars :=
  ["Jan", "Feb", "Mar", "Apr", "May", "Jun", "Jul", "Aug", "Sep", "Oct", "Nov", "Dec"].map
    String.toList

def wkdays : List Chars :=
  ["Sun", "Mon", "Tue", "Wed", "Thu", "Fri", "Sat"].map String.toList

/-! ## Pieces of a string -/

/-- The result is only compared with 0. -/
def strncasecomp : Nat → Chars → Chars → Int
  | 0, _, _ => 0
  | n + 1, p :: a, q :: b =>
    let diff : Int := p.toLower.toNat - q.toLower.toNat
    if diff ≠ 0 then diff else strncasecomp n a b
  | _ + 1, p :: _, [] => p.toNat
  | _ + 1, [], q :: _ => -(q.toNat : Int)
  | _ + 1, [], [] => 0

/-- The pointer that comes back is read next, by `strtol` or behind a `++`. -/
def makeMonth (s : Chars) : Option (Int × Chars) :=
  let ptr := s.dropWhile fun c => !c.isAlpha
  if ptr.length < 3 then none
  else some ((months.findIdx? fun month => strncasecomp 3 month ptr = 0).getD 0, ptr.drop 3)

/-- `strtol` of base 10; the pointer does not move where there is no number. -/
def strtol (s : Chars) : Int × Chars :=
  let number := sign (s.dropWhile isSpace)
  let digits := number.2.takeWhile isDigit
  if digits = [] then (0, s)
  else
    (max (-2 ^ 63) (min (2 ^ 63 - 1) (signed number.1 (digitsValue digits))),
      number.2.dropWhile isDigit)

/-- `++s` in front of a `strtol`. -/
def next : Chars → Option Chars
  | [] => none
  | _ :: s => some s

/-! ## The formats -/

/-- Weekday, 00-Mon-00 00:00:00 GMT, behind the comma. -/
def rfc850 (s : Chars) : Option Tm := do
  let (mday, s) := strtol s
  let (mon, s) ← makeMonth s
  let s ← next s
  let (year, s) := strtol s
  let (hour, s) := strtol s
  let s ← next s
  let (min, s) := strtol s
  let s ← next s
  let (sec, _) := strtol s
  return ⟨toInt sec, toInt min, toInt hour, toInt mday, mon, toInt year⟩

/-- Wkd, 00 Mon 0000 00:00:00 GMT, behind the comma. -/
def rfc1123 (s : Chars) : Option Tm := do
  let (mday, s) := strtol s
  let (mon, s) ← makeMonth s
  let (year, s) := strtol s
  let (hour, s) := strtol s
  let s ← next s
  let (min, s) := strtol s
  let s ← next s
  let (sec, _) := strtol s
  return ⟨toInt sec, toInt min, toInt hour, toInt mday, mon, toInt (year - 1900)⟩

/-- YYYY.MM.DDThh:mmStzWkd; the month is not counted from 0. -/
def iso (s : Chars) : Option Tm := do
  let (year, s) := strtol s
  let s ← next s
  let (mon, s) := strtol s
  let s ← next s
  let (mday, s) := strtol s
  let s ← next s
  let (hour, s) := strtol s
  let s ← next s
  let (min, s) := strtol s
  let s ← next s
  let (sec, _) := strtol s
  return ⟨toInt sec, toInt min, toInt hour, toInt mday, toInt mon, toInt (year - 1900)⟩

/-- Wkd Mon 00 00:00:00 0000 GMT. -/
def ctime (s : Chars) : Option Tm := do
  let (mon, s) ← makeMonth s
  let (mday, s) := strtol s
  let (hour, s) := strtol s
  let s ← next s
  let (min, s) := strtol s
  let s ← next s
  let (sec, s) := strtol s
  let (year, _) := strtol s
  return ⟨toInt sec, toInt min, toInt hour, toInt mday, mon, toInt (year - 1900)⟩

/-- Lines 220-248. -/
def checked (cal : Calendar) (tm : Tm) : Int :=
  if tm.sec < 0 ∨ tm.sec > 59 ∨ tm.min < 0 ∨ tm.min > 59 ∨ tm.hour < 0 ∨ tm.hour > 23 ∨
      tm.mday < 1 ∨ tm.mday > 31 ∨ tm.mon < 0 ∨ tm.mon > 11 ∨ tm.year < 70 ∨ tm.year > 120 then 0
  else cal.timegm tm

/-- The length is an `int` here. -/
def scanned (cal : Calendar) (shortest : Int) (format : Chars → Option Tm) (s : Chars) :
    Option Int :=
  if toInt s.length < shortest then some 0 else (format s).map (checked cal)

def skipBlanks (s : Chars) : Chars := s.dropWhile (· = ' ')

def delta (now : Int) (expand : Bool) (s : Chars) : Int :=
  if expand then (now + (strtol s).1 + 2 ^ 63) % 2 ^ 64 - 2 ^ 63 else (strtol s).1

/-- `parse_time`, called at `now`. -/
def parseTime (cal : Calendar) (now : Int) (str : Chars) (expand : Bool) : Option Int :=
  if ',' ∈ str then
    let s := skipBlanks (str.dropWhile (· ≠ ',')).tail
    if '-' ∈ s then scanned cal 18 rfc850 s else scanned cal 20 rfc1123 s
  else if (str.head?.map isDigit).getD false then
    if 'T' ∈ str then scanned cal 21 iso (skipBlanks str) else some (delta now expand str)
  else scanned cal 24 ctime (skipBlanks str)

/-! ## Printing -/

/-- A number that is not negative, filled up from the left. -/
def padded (width : Nat) (fill : Char) (n : Int) : Chars :=
  List.replicate (width - (decimal n.toNat).length) fill ++ decimal n.toNat

def clockText (tm : Tm) : Chars :=
  padded 2 '0' tm.hour ++ ':' :: (padded 2 '0' tm.min ++ ':' :: padded 2 '0' tm.sec)

def monthText (tm : Tm) : Chars := months.getD tm.mon.toNat []

/-- `date_time_str` for GMT. -/
def dateTimeStr (cal : Calendar) (t : Int) : Chars :=
  let tm := cal.gmtime t
  wkdays.getD (cal.wday t) [] ++ ", ".toList ++ padded 2 '0' tm.mday ++ ' ' :: monthText tm ++
    ' ' :: padded 4 '0' (tm.year + 1900) ++ ' ' :: clockText tm ++ " GMT".toList

end Libdap.Source.UtilMit
