import Libdap.Source.Failure
import Libdap.Source.HTTPCacheTable
import Libdap.Source.UtilMit

/-!
# HTTPCache: is a cached response fresh

What `parse_headers` reads with `parse_time` in it, and what `is_url_valid` answers; the
locks are left to `HTTPCache.peek`.
-/
namespace Libdap.Source.HTTPCacheValidity
open HTTPCacheTable
open ErrorText (cStr)
open UtilMit (Calendar parseTime)

/-- The library functions as they are called at `now`; where `parse_time` reads behind its
string it answers anything. -/
def reading (cal : Calendar) (now : Int) (anything : Chars → Int) (strtoul : Chars → Nat) :
    Parsing where
  parseTime value := (parseTime cal now (cStr value) true).getD (anything value)
  strtoul := strtoul

/-- What a Cache-Control of the request asks for, -1 where it does not. -/
structure Directives where
  maxAge : Int
  maxStale : Int
  minFresh : Int
  deriving DecidableEq, Repr

def Directives.absent : Directives := ⟨-1, -1, -1⟩

/-- `is_url_valid` for the entry that it finds. -/
def isFresh (d : Directives) (now : Int) (e : CacheEntry) : Bool :=
  if e.mustRevalidate then false
  else
    let residentTime := now - e.responseTime
    let currentAge := e.correctedInitialAge + residentTime
    if d.maxAge ≥ 0 ∧ currentAge > d.maxAge then false
    else if d.minFresh ≥ 0 ∧ e.freshnessLifetime < currentAge + d.minFresh then false
    else decide (e.freshnessLifetime + (if d.maxStale ≥ 0 then d.maxStale else 0) > currentAge)

def isUrlValid (alwaysValidate : Bool) (d : Directives) (now : Int) (url : Chars) (t : Table) :
    Except Failure Bool :=
  if alwaysValidate then .ok false
  else
    match t.find url with
    | none =>
      .error (.error .unknownError ("There is no cache entry for the URL: " ++ String.ofList url))
    | some e => .ok (isFresh d now e)

end Libdap.Source.HTTPCacheValidity
