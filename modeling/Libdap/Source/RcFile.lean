import Libdap.Source.HTTPCacheIndex
import Libdap.Source.MimeUtil
import Libdap.Source.StringUtil
import Libdap.Source.UtilMit

/-!
# RCReader: the configuration file

Files are texts. The directory separator is the one of a system other than Windows.
-/
namespace Libdap.Source.RcFile
open Libdap.Library.LineInput
open HTTPCacheTable (Chars findText)
open HTTPCacheIndex (isSpace sign signed printBool)
open ErrorText (decimal printInt isDigit)
open StringUtil (Raised findFirstOf longToString)
open UtilMit (strtol)
open MimeUtil (downcase)

/-- The deprecated settings that no file has are left out. -/
structure RCReader where
  rcFilePath : Chars
  cacheRoot : Chars
  useCache : Bool
  cacheMax : UInt32
  cachedObj : UInt32
  ignExpires : Int32
  deflate : Bool
  defaultExpires : Int32
  alwaysValidate : Int32
  proxyServerProtocol : Chars
  proxyServerHost : Chars
  proxyServerPort : Int32
  proxyServerUserpw : Chars
  validateSsl : Int32
  noProxyFor : Bool
  noProxyForProtocol : Chars
  noProxyForHost : Chars
  aisDatabase : Chars
  cookieJar : Chars
  deriving DecidableEq

/-- The default values of the constructor. -/
def RCReader.new : RCReader where
  rcFilePath := []
  cacheRoot := []
  useCache := false
  cacheMax := 20
  cachedObj := 5
  ignExpires := 0
  deflate := false
  defaultExpires := 86400
  alwaysValidate := 0
  proxyServerProtocol := []
  proxyServerHost := []
  proxyServerPort := 0
  proxyServerUserpw := []
  validateSsl := 1
  noProxyFor := false
  noProxyForProtocol := []
  noProxyForHost := []
  aisDatabase := []
  cookieJar := []

/-! ## Numbers -/

/-- `atoi`, through a `long`. -/
def atoi (s : Chars) : Int32 := Int32.ofInt (strtol s).1

def digitIn (base : Nat) (c : Char) : Option Nat :=
  let value : Option Nat :=
    if isDigit c then some (c.toNat - 48)
    else if 'a' ≤ c ∧ c ≤ 'f' then some (c.toNat - 87)
    else if 'A' ≤ c ∧ c ≤ 'F' then some (c.toNat - 55)
    else none
  value.filter (· < base)

/-- The digits in front, behind those that make the value. -/
def digitsIn (base value : Nat) : Chars → Nat
  | [] => value
  | c :: s =>
    match digitIn base c with
    | some d => digitsIn base (base * value + d) s
    | none => value

/-- `strtol` of base 0: what stands in front of the digits tells the base. -/
def strtolAnyBase (s : Chars) : Int :=
  let text := sign (s.dropWhile isSpace)
  let magnitude :=
    match text.2 with
    | '0' :: x :: c :: rest =>
      if (x = 'x' ∨ x = 'X') ∧ (digitIn 16 c).isSome then digitsIn 16 0 (c :: rest)
      else digitsIn 8 0 (x :: c :: rest)
    | '0' :: rest => digitsIn 8 0 rest
    | digits => digitsIn 10 0 digits
  max (-2 ^ 63) (min (2 ^ 63 - 1) (signed text.1 magnitude))

namespace RCReader
variable (r : RCReader)

/-! ## Writing -/

def endl : Chars := ['\n']

/-- The value of `PROXY_SERVER`. -/
def proxyServer : Except Raised Chars := do
  let port ← longToString r.proxyServerPort.toInt64 10
  pure (r.proxyServerProtocol ++ "://".toList ++
    (if r.proxyServerUserpw = [] then [] else r.proxyServerUserpw ++ ['@']) ++
    r.proxyServerHost ++ ":".toList ++ port)

def proxyLines : Except Raised (List Chars) :=
  if r.proxyServerHost ≠ [] then do
    let value ← r.proxyServer
    pure ["PROXY_SERVER=".toList ++ value]
  else .ok []

def noProxyLines : List Chars :=
  if r.noProxyForHost ≠ [] then ["NO_PROXY_FOR=".toList ++ r.noProxyForHost] else []

def cacheRootLine : Chars := "CACHE_ROOT=".toList ++ r.cacheRoot

/-- The lines in front of the one with the cache's directory. -/
def cacheLines : List Chars :=
  ["# OPeNDAP client configuration file. See the OPeNDAP".toList,
    "# users guide for information.".toList,
    "USE_CACHE=".toList ++ printBool r.useCache,
    "# Cache and object size are given in megabytes (20 ==> 20Mb).".toList,
    "MAX_CACHE_SIZE=".toList ++ decimal r.cacheMax.toNat,
    "MAX_CACHED_OBJ=".toList ++ decimal r.cachedObj.toNat,
    "IGNORE_EXPIRES=".toList ++ printInt r.ignExpires.toInt]

/-- The lines between that one and the one of the proxy server. -/
def validationLines : List Chars :=
  ["DEFAULT_EXPIRES=".toList ++ printInt r.defaultExpires.toInt,
    "ALWAYS_VALIDATE=".toList ++ printInt r.alwaysValidate.toInt,
    "# Request servers compress responses if possible?".toList,
    "# 1 (yes) or 0 (false).".toList,
    "DEFLATE=".toList ++ printBool r.deflate,
    "# Should SSL certificates and hosts be validated? SSL".toList,
    "# will only work with signed certificates.".toList,
    "VALIDATE_SSL=".toList ++ printInt r.validateSsl.toInt,
    "# Proxy configuration (optional parts in []s).".toList,
    "# You may also use the 'http_proxy' environment variable".toList,
    "# but a value in this file will override that env variable.".toList,
    "# PROXY_SERVER=[http://][username:password@]host[:port]".toList]

def cookieLines : List Chars :=
  ["# AIS_DATABASE=<file or url>".toList,
    "# COOKIE_JAR=.dods_cookies".toList,
    "# The cookie jar is a file that holds cookies sent from".toList,
    "# servers such as single signon systems. Uncomment this".toList,
    "# option and provide a file name to activate this feature.".toList,
    "# If the value is a filename, it will be created in this".toList,
    "# directory; a full pathname can be used to force a specific".toList,
    "# location.".toList]

/-- `write_rc_file`: the text of the file, if it was created. -/
def writeRcFile : Except Raised Chars := do
  let proxy ← r.proxyLines
  let lines := r.cacheLines ++ [r.cacheRootLine] ++ r.validationLines ++ proxy ++
    ["# NO_PROXY_FOR=<host|domain>".toList] ++ r.noProxyLines ++ cookieLines
  pure (lines.flatMap (· ++ endl))

/-! ## Reading -/

def quote : String := String.singleton (Char.ofNat 34)

def protocolError : Failure :=
  .error .unknownError (s!"The only supported protocol for a proxy server is {quote}HTTP" ++
    s!"{quote}. Correct your {quote}.dodsrc{quote} file.")

/-- The host and the port. -/
def readHost (proxy : Chars) : RCReader :=
  match findFirstOf ':' proxy with
  | some colon =>
    { r with
      proxyServerHost := proxy.take colon
      proxyServerPort := Int32.ofInt (strtolAnyBase (proxy.drop (colon + 1))) }
  | none => { r with proxyServerHost := proxy, proxyServerPort := 80 }

/-- What is behind the `protocol://` prefix: the user, the host and the port. -/
def readMachine (proxy : Chars) : RCReader :=
  match findFirstOf '@' proxy with
  | some atSign =>
    { r with proxyServerUserpw := proxy.take atSign }.readHost (proxy.drop (atSign + 1))
  | none => { r with proxyServerUserpw := [] }.readHost proxy

/-- What is behind the comma, if there is one. -/
def readAddress (proxy : Chars) : RCReader :=
  match findText "://".toList proxy with
  | some protocol => r.readMachine (proxy.drop (protocol + 3))
  | none => r.readMachine proxy

def readProxyServer (value : Chars) : Except Failure RCReader :=
  match findFirstOf ',' value with
  | some comma =>
    let protocol := downcase (value.take comma)
    if protocol ≠ "http".toList then .error protocolError
    else .ok ({ r with proxyServerProtocol := protocol }.readAddress (value.drop (comma + 1)))
  | none => .ok ({ r with proxyServerProtocol := "http".toList }.readAddress value)

def readNoProxyFor (value : Chars) : RCReader :=
  match findFirstOf ',' value with
  | none =>
    { r with noProxyForProtocol := "http".toList, noProxyForHost := value, noProxyFor := true }
  | some comma =>
    { r with
      noProxyForProtocol := value.take comma
      noProxyForHost := value.drop (comma + 1)
      noProxyFor := true }

/-- A separator is added to what does not end with one; an empty value has no last
character. -/
def readCacheRoot (value : Chars) : Except Failure RCReader :=
  match value.getLast? with
  | none => .error .undefinedBehaviour
  | some c => .ok { r with cacheRoot := if c ≠ '/' then value ++ ['/'] else value }

/-- A path that is relative is put behind the directory of the file. -/
def readCookieJar (value : Chars) : RCReader :=
  let directory := match findText ".dodsrc".toList r.rcFilePath with
    | some i => r.rcFilePath.take i
    | none => r.rcFilePath
  { r with cookieJar := if value.head? = some '/' then value else directory ++ value }

/-- The setting whose name is in front of the sign: `strncmp` and the length of the name compare
all of it. -/
def readValue (token value : Chars) : Except Failure RCReader :=
  if token = "USE_CACHE".toList then .ok { r with useCache := atoi value ≠ 0 }
  else if token = "MAX_CACHE_SIZE".toList then .ok { r with cacheMax := (atoi value).toUInt32 }
  else if token = "MAX_CACHED_OBJ".toList then .ok { r with cachedObj := (atoi value).toUInt32 }
  else if token = "IGNORE_EXPIRES".toList then .ok { r with ignExpires := atoi value }
  else if token = "DEFLATE".toList then .ok { r with deflate := atoi value ≠ 0 }
  else if token = "CACHE_ROOT".toList then r.readCacheRoot value
  else if token = "DEFAULT_EXPIRES".toList then .ok { r with defaultExpires := atoi value }
  else if token = "ALWAYS_VALIDATE".toList then .ok { r with alwaysValidate := atoi value }
  else if token = "VALIDATE_SSL".toList then .ok { r with validateSsl := atoi value }
  else if token = "AIS_DATABASE".toList then .ok { r with aisDatabase := value }
  else if token = "COOKIE_JAR".toList then .ok (r.readCookieJar value)
  else if token = "PROXY_SERVER".toList then r.readProxyServer value
  else if token = "NO_PROXY_FOR".toList then .ok (r.readNoProxyFor value)
  else .ok r

/-- One line, as the buffer holds it. -/
def readLine (tempstr : Chars) : Except Failure RCReader :=
  match findFirstOf '=' tempstr with
  | none => .ok r
  | some tokenlength => r.readValue (tempstr.take tokenlength) (tempstr.drop (tokenlength + 1))

end RCReader

theorem getline_shorter {n : Nat} {s : Input Char}
    (good : ((s.getline n '\n').2.2.eof || (s.getline n '\n').2.2.fail) = false) :
    (s.getline n '\n').2.2.rest.length < s.rest.length := by
  have taken := (getline_length n '\n' s).2
  suffices 0 < (s.getline n '\n').2.1 by omega
  revert good
  unfold Input.getline
  split
  · simp
  · split <;> simp

/-- The loop of `read_rc_file`: a line that ends without a newline, or that is longer than the
buffer, ends it. -/
def RCReader.readLines (r : RCReader) (fpi : Input Char) : Except Failure RCReader :=
  let read := fpi.getline 1023 '\n'
  if good : (read.2.2.eof || read.2.2.fail) = false then
    have := getline_shorter good
    match r.readLine (cstring '\x00' read.1) with
    | .error failure => .error failure
    | .ok r => r.readLines read.2.2
  else .ok r
termination_by fpi.rest.length

/-- `read_rc_file`, of the text of the file if it can be opened. -/
def RCReader.readRcFile (r : RCReader) : Option Chars → Except Failure (RCReader × Bool)
  | none => .ok (r, false)
  | some text => do
    let r ← r.readLines (Input.ofList text)
    pure (r, true)

end Libdap.Source.RcFile
