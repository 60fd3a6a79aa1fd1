import Libdap.Guarantees.ProxySettings

/-!
# The configuration file as it is written

A reader that starts with the default values reads back what another one wrote, unless a line is
too long for the buffer, the directory of the cache is not on one line, or the first `@` of the
proxy server is not the last one.
-/
namespace Libdap.Guarantees.RcFileRoundTrip
open Libdap.Library Libdap.Library.LineInput
open Libdap.Source Libdap.Source.RcFile
open HTTPCacheTable (Chars)
open HTTPCacheIndex (printBool)
open ErrorText (decimal printInt isDigit)
open StringUtil (longToString)
open HTTPCacheIndex (printInt_dark printInt_noNull newline_of_dark)
open ProxySettings

/-! ## Lines that were written -/

theorem number_onLine (x : Int) : OnLine (printInt x) :=
  ⟨newline_of_dark (printInt_dark x), printInt_noNull x⟩

theorem decimal_onLine (n : Nat) : OnLine (decimal n) :=
  ⟨decimal_without (by decide) n, decimal_without (by decide) n⟩

theorem printBool_onLine (b : Bool) : OnLine (printBool b) := by
  cases b with
  | false => exact ⟨by decide, by decide⟩
  | true => exact ⟨by decide, by decide⟩

theorem onLine_append {front back : Chars} (first : OnLine front) (second : OnLine back) :
    OnLine (front ++ back) :=
  ⟨List.not_mem_append first.1 second.1, List.not_mem_append first.2 second.2⟩

theorem uint32_length (n : UInt32) : (decimal n.toNat).length ≤ 10 := by
  have small := n.toNat_lt
  exact DateRoundTrip.decimal_length (by decide) (by omega)

theorem int32_length (x : Int32) : (printInt x.toInt).length ≤ 11 := by
  have low := x.le_toInt
  have high := x.toInt_lt
  unfold printInt
  split
  · have length := DateRoundTrip.decimal_length (n := x.toInt.toNat) (k := 10) (by decide)
      (by omega)
    omega
  · have length := DateRoundTrip.decimal_length (n := x.toInt.natAbs) (k := 10) (by decide)
      (by omega)
    rw [List.length_cons]
    omega

/-- The name of a setting with a number behind it. -/
theorem setting_fits {name value : Chars} (named : OnLine name ∧ name.length < 100)
    (valued : OnLine value) (short : value.length ≤ 11) : Fits (name ++ value) := by
  refine ⟨onLine_append named.1 valued, ?_⟩
  have := named.2
  rw [List.length_append]
  omega

instance (text : Chars) : Decidable (OnLine text) := inferInstanceAs (Decidable (_ ∧ _))

instance (line : Chars) : Decidable (Fits line) := inferInstanceAs (Decidable (_ ∧ _))

/-- A line that names no setting. -/
def Comment (line : Chars) : Prop := line.head? = some '#' ∧ Fits line

instance (line : Chars) : Decidable (Comment line) := inferInstanceAs (Decidable (_ ∧ _))

-- To decide the characters of a string is faster than to decide the string.
theorem comment_ofList {line : Chars} (comment : Comment line) :
    Comment (String.ofList line).toList := by
  rw [String.toList_ofList]
  exact comment

theorem named_ofList {name : Chars} (named : OnLine name ∧ name.length < 100) :
    OnLine (String.ofList name).toList ∧ (String.ofList name).toList.length < 100 := by
  rw [String.toList_ofList]
  exact named

section
variable (w : RCReader)

theorem uint32_fits {name : Chars} (named : OnLine name ∧ name.length < 100) (n : UInt32) :
    Fits (name ++ decimal n.toNat) :=
  setting_fits named (decimal_onLine _) (by have := uint32_length n; omega)

theorem int32_fits {name : Chars} (named : OnLine name ∧ name.length < 100) (x : Int32) :
    Fits (name ++ printInt x.toInt) :=
  setting_fits named (number_onLine _) (int32_length x)

theorem bool_fits {name : Chars} (named : OnLine name ∧ name.length < 100) (b : Bool) :
    Fits (name ++ printBool b) :=
  setting_fits named (printBool_onLine b) (by cases b <;> decide)

theorem cacheLines_fit : ∀ line ∈ w.cacheLines, Fits line := by
  unfold RCReader.cacheLines
  simp only [List.forall_mem_cons]
  refine ⟨(comment_ofList (by decide)).2, (comment_ofList (by decide)).2,
    bool_fits (named_ofList (by decide)) _, (comment_ofList (by decide)).2,
    uint32_fits (named_ofList (by decide)) _, uint32_fits (named_ofList (by decide)) _,
    int32_fits (named_ofList (by decide)) _, ?_⟩
  exact List.forall_mem_nil _

theorem validationLines_fit : ∀ line ∈ w.validationLines, Fits line := by
  unfold RCReader.validationLines
  simp only [List.forall_mem_cons]
  refine ⟨int32_fits (named_ofList (by decide)) _, int32_fits (named_ofList (by decide)) _,
    (comment_ofList (by decide)).2, (comment_ofList (by decide)).2,
    bool_fits (named_ofList (by decide)) _, (comment_ofList (by decide)).2,
    (comment_ofList (by decide)).2, int32_fits (named_ofList (by decide)) _,
    (comment_ofList (by decide)).2, (comment_ofList (by decide)).2,
    (comment_ofList (by decide)).2, (comment_ofList (by decide)).2, ?_⟩
  exact List.forall_mem_nil _

end

theorem cookieLines_comments : ∀ line ∈ RCReader.cookieLines, Comment line := by
  unfold RCReader.cookieLines
  simp only [List.forall_mem_cons]
  refine ⟨comment_ofList (by decide), comment_ofList (by decide), comment_ofList (by decide),
    comment_ofList (by decide), comment_ofList (by decide), comment_ofList (by decide),
    comment_ofList (by decide), comment_ofList (by decide), ?_⟩
  exact List.forall_mem_nil _

theorem noProxyComment : Comment "# NO_PROXY_FOR=<host|domain>".toList :=
  comment_ofList (by decide)

/-! ## Reading them -/

section
variable (w r : RCReader)

theorem read_next {line : Chars} {lines : List Chars} {r r' r'' : RCReader}
    (first : r.readLine line = .ok r') (rest : lines.foldlM RCReader.readLine r' = .ok r'') :
    (line :: lines).foldlM RCReader.readLine r = .ok r'' := by
  rw [List.foldlM_cons, first]
  exact rest

/-- A comment is not the name of a setting. -/
theorem readLine_comment {line : Chars} (comment : Comment line) :
    r.readLine line = .ok r := by
  rcases line_cases line with plain | ⟨name, value, plain, rfl⟩
  · exact readLine_plain r plain
  · have other : ∀ setting : Chars, setting.head?.any (· ≠ '#') = true → name ≠ setting := by
      intro setting different same
      subst same
      cases name with
      | nil => cases different
      | cons c name =>
        obtain rfl := Option.some.inj comment.1
        cases different
    rw [readLine_token r plain]
    unfold RCReader.readValue
    iterate 13 rw [if_neg (other _ (by decide))]

/-- The numbers are read back, one setting after the other. -/
theorem cacheLines_read : w.cacheLines.foldlM RCReader.readLine r = .ok { r with
    useCache := w.useCache
    cacheMax := w.cacheMax
    cachedObj := w.cachedObj
    ignExpires := w.ignExpires } := by
  conv_rhs => rw [← atoi_printBool w.useCache, ← atoi_decimal w.cacheMax,
    ← atoi_decimal w.cachedObj, ← atoi_printInt w.ignExpires]
  apply read_next (readLine_comment _ (comment_ofList (by decide)))
  apply read_next (readLine_comment _ (comment_ofList (by decide)))
  apply read_next (readLine_token _ (by decide : '=' ∉ "USE_CACHE".toList) _)
  apply read_next (readLine_comment _ (comment_ofList (by decide)))
  apply read_next (readLine_token _ (by decide : '=' ∉ "MAX_CACHE_SIZE".toList) _)
  apply read_next (readLine_token _ (by decide : '=' ∉ "MAX_CACHED_OBJ".toList) _)
  apply read_next (readLine_token _ (by decide : '=' ∉ "IGNORE_EXPIRES".toList) _)
  rfl

theorem validationLines_read : w.validationLines.foldlM RCReader.readLine r = .ok { r with
    defaultExpires := w.defaultExpires
    alwaysValidate := w.alwaysValidate
    deflate := w.deflate
    validateSsl := w.validateSsl } := by
  conv_rhs => rw [← atoi_printInt w.defaultExpires, ← atoi_printInt w.alwaysValidate,
    ← atoi_printBool w.deflate, ← atoi_printInt w.validateSsl]
  apply read_next (readLine_token _ (by decide : '=' ∉ "DEFAULT_EXPIRES".toList) _)
  apply read_next (readLine_token _ (by decide : '=' ∉ "ALWAYS_VALIDATE".toList) _)
  apply read_next (readLine_comment _ (comment_ofList (by decide)))
  apply read_next (readLine_comment _ (comment_ofList (by decide)))
  apply read_next (readLine_token _ (by decide : '=' ∉ "DEFLATE".toList) _)
  apply read_next (readLine_comment _ (comment_ofList (by decide)))
  apply read_next (readLine_comment _ (comment_ofList (by decide)))
  apply read_next (readLine_token _ (by decide : '=' ∉ "VALIDATE_SSL".toList) _)
  apply read_next (readLine_comment _ (comment_ofList (by decide)))
  apply read_next (readLine_comment _ (comment_ofList (by decide)))
  apply read_next (readLine_comment _ (comment_ofList (by decide)))
  apply read_next (readLine_comment _ (comment_ofList (by decide)))
  rfl

/-- A directory with a separator at its end is taken as it is. -/
theorem readLine_root {path : Chars} (root : w.cacheRoot = path ++ ['/']) :
    r.readLine w.cacheRootLine = .ok { r with cacheRoot := w.cacheRoot } := by
  have last : w.cacheRoot.getLast? = some '/' := by
    rw [root]
    exact List.getLast?_concat
  have read : r.readLine w.cacheRootLine = r.readCacheRoot w.cacheRoot :=
    readLine_token r (by decide : '=' ∉ "CACHE_ROOT".toList) w.cacheRoot
  rw [read]
  unfold RCReader.readCacheRoot
  rw [last]
  dsimp only
  rw [if_neg (not_not_intro rfl)]

theorem comments_read {lines : List Chars} (comments : ∀ line ∈ lines, Comment line) :
    lines.foldlM RCReader.readLine r = .ok r := by
  induction lines with
  | nil => rfl
  | cons line lines ih =>
    obtain ⟨first, rest⟩ := List.forall_mem_cons.mp comments
    exact read_next (readLine_comment r first) (ih rest)

end

/-! ## The proxy server -/

/-- A reader with a proxy server of one of the forms. -/
structure Proxied (w : RCReader) : Prop where
  onLine : OnLine w.proxyServerProtocol
  comma : ',' ∉ w.proxyServerProtocol
  colon : ':' ∉ w.proxyServerProtocol
  isUserpw : IsUserpw w.proxyServerUserpw
  isHost : IsHost w.proxyServerHost
  low : 1 ≤ w.proxyServerPort.toInt
  high : w.proxyServerPort.toInt ≤ 65535

/-- The user that is written: none for an empty text. -/
def writtenUserpw (w : RCReader) : Option Chars :=
  if w.proxyServerUserpw = [] then none else some w.proxyServerUserpw

def proxyLine (w : RCReader) : Chars :=
  "PROXY_SERVER=".toList ++ (w.proxyServerProtocol ++ ("://".toList ++
    address (writtenUserpw w) w.proxyServerHost (some w.proxyServerPort.toInt.toNat)))

section
variable {w : RCReader} (r : RCReader)

theorem writtenUserpw_mem {u : Chars} (user : u ∈ writtenUserpw w) :
    u = w.proxyServerUserpw := by
  unfold writtenUserpw at user
  split at user
  · cases user
  · exact (Option.some.inj user).symm

theorem writtenUserpw_getD : (writtenUserpw w).getD [] = w.proxyServerUserpw := by
  unfold writtenUserpw
  split
  · next empty => rw [empty]; rfl
  · rfl

theorem Proxied.user (proxied : Proxied w) : ∀ u ∈ writtenUserpw w, IsUserpw u := by
  intro u user
  rw [writtenUserpw_mem user]
  exact proxied.isUserpw

theorem Proxied.port (proxied : Proxied w) :
    ∀ n ∈ some w.proxyServerPort.toInt.toNat, IsPort n := by
  intro n same
  obtain rfl := Option.some.inj same
  have low := proxied.low
  have high := proxied.high
  exact ⟨by omega, by omega⟩

theorem proxyLines_eq (proxied : Proxied w) : w.proxyLines = .ok [proxyLine w] := by
  have low := proxied.low
  have number : longToString w.proxyServerPort.toInt64 10 = _ := longToString_decimal (by omega)
  unfold RCReader.proxyLines
  rw [if_pos proxied.isHost.some']
  unfold RCReader.proxyServer
  rw [number]
  show Except.ok _ = _
  unfold proxyLine address writtenUserpw
  split <;> simp

/-- The protocol in front is skipped. -/
theorem readLine_proxyLine (proxied : Proxied w) : r.readLine (proxyLine w) =
    .ok ({ r with proxyServerProtocol := "http".toList }.readMachine
      (address (writtenUserpw w) w.proxyServerHost (some w.proxyServerPort.toInt.toNat))) := by
  have comma : ',' ∉ w.proxyServerProtocol ++ ("://".toList ++
      address (writtenUserpw w) w.proxyServerHost (some w.proxyServerPort.toInt.toNat)) := by
    apply List.not_mem_append proxied.comma
    apply List.not_mem_append (by decide)
    exact address_without (fun u user => (proxied.user u user).2.1) proxied.isHost.comma
      (by decide) (by decide) (by decide)
  have read : r.readLine (proxyLine w) = r.readProxyServer (w.proxyServerProtocol ++
      ("://".toList ++
        address (writtenUserpw w) w.proxyServerHost (some w.proxyServerPort.toInt.toNat))) :=
    readLine_token r (by decide : '=' ∉ "PROXY_SERVER".toList) _
  rw [read]
  unfold RCReader.readProxyServer
  rw [findFirstOf_none comma]
  dsimp only
  rw [readAddress_scheme _ proxied.colon]

theorem proxyLine_onLine (proxied : Proxied w) : OnLine (proxyLine w) := by
  have without : ∀ c, c ∉ w.proxyServerUserpw → c ∉ w.proxyServerHost → isDigit c = false →
      c ≠ ':' → c ≠ '@' → c ∉ address (writtenUserpw w) w.proxyServerHost
        (some w.proxyServerPort.toInt.toNat) := by
    intro c user host other colon at'
    apply address_without _ host other colon at'
    intro u same
    rw [writtenUserpw_mem same]
    exact user
  have machine : OnLine (address (writtenUserpw w) w.proxyServerHost
      (some w.proxyServerPort.toInt.toNat)) :=
    ⟨without _ proxied.isUserpw.1.1 proxied.isHost.onLine.1 (by decide) (by decide) (by decide),
      without _ proxied.isUserpw.1.2 proxied.isHost.onLine.2 (by decide) (by decide) (by decide)⟩
  exact onLine_append (by decide) (onLine_append proxied.onLine (onLine_append (by decide) machine))

/-- Where there is one sign at most the parts are read back. -/
theorem proxyLine_read (proxied : Proxied w) (plain : '@' ∉ w.proxyServerUserpw) :
    ∃ r', r.readLine (proxyLine w) = .ok r' ∧ r' = { r with
      proxyServerProtocol := "http".toList
      proxyServerUserpw := w.proxyServerUserpw
      proxyServerHost := w.proxyServerHost
      proxyServerPort := w.proxyServerPort } := by
  have user : ∀ u ∈ writtenUserpw w, '@' ∉ u := by
    intro u same
    rw [writtenUserpw_mem same]
    exact plain
  have low := proxied.low
  have port : Int32.ofNat w.proxyServerPort.toInt.toNat = w.proxyServerPort := by
    rw [← Int32.ofInt_eq_ofNat, Int.toNat_of_nonneg (by omega), Int32.ofInt_toInt]
  refine ⟨_, readLine_proxyLine r proxied, ?_⟩
  rw [readMachine_form _ user proxied.isHost proxied.port, writtenUserpw_getD]
  simp only [Option.elim_some, port]

/-- With another sign the user is cut off at the first one. -/
theorem proxyLine_early (proxied : Proxied w) (member : '@' ∈ w.proxyServerUserpw) :
    ∃ r', r.readLine (proxyLine w) = .ok r' ∧
      r'.proxyServerUserpw ≠ w.proxyServerUserpw := by
  have some' : w.proxyServerUserpw ≠ [] := List.ne_nil_of_mem member
  refine ⟨_, readLine_proxyLine r proxied, ?_⟩
  have shape : address (writtenUserpw w) w.proxyServerHost
      (some w.proxyServerPort.toInt.toNat) = w.proxyServerUserpw ++ '@' ::
        (w.proxyServerHost ++ ':' :: decimal w.proxyServerPort.toInt.toNat) := by
    unfold writtenUserpw address
    rw [if_neg some']
    simp
  rw [shape]
  exact readMachine_early _ member _

end

/-! ## The directory of the cache -/

section
variable {r r' : RCReader}

theorem readHost_root (r : RCReader) (proxy : Chars) :
    (r.readHost proxy).cacheRoot = r.cacheRoot := by
  unfold RCReader.readHost
  split <;> rfl

theorem readAddress_root (r : RCReader) (proxy : Chars) :
    (r.readAddress proxy).cacheRoot = r.cacheRoot := by
  have machine : ∀ proxy, (r.readMachine proxy).cacheRoot = r.cacheRoot := by
    intro proxy
    unfold RCReader.readMachine
    split
    · exact readHost_root _ _
    · exact readHost_root _ _
  unfold RCReader.readAddress
  split
  · exact machine _
  · exact machine _

theorem readProxyServer_root {value : Chars} (done : r.readProxyServer value = .ok r') :
    r'.cacheRoot = r.cacheRoot := by
  unfold RCReader.readProxyServer at done
  split at done
  · dsimp only at done
    split at done
    · cases done
    · cases done
      exact readAddress_root _ _
  · cases done
    exact readAddress_root _ _

/-- What is read from a line is on one line. -/
theorem readLine_onLine {line : Chars} (onLine : OnLine line) (root : OnLine r.cacheRoot)
    (done : r.readLine line = .ok r') : OnLine r'.cacheRoot := by
  rcases line_cases line with plain | ⟨name, value, plain, rfl⟩
  · cases (readLine_plain r plain).symm.trans done
    exact root
  · have valued : OnLine value :=
      ⟨fun member => onLine.1 (List.mem_append_right _ (List.mem_cons_of_mem _ member)),
        fun member => onLine.2 (List.mem_append_right _ (List.mem_cons_of_mem _ member))⟩
    rw [readLine_token r plain] at done
    rcases readValue_cases r name value with ⟨-, same⟩ | ⟨-, same⟩ | ⟨-, -, r'', ok, -, kept⟩
    · rw [same] at done
      unfold RCReader.readCacheRoot at done
      split at done
      · cases done
      · cases done
        dsimp only
        split
        · exact onLine_append valued (by decide)
        · exact valued
    · rw [same] at done
      rw [readProxyServer_root done]
      exact root
    · cases ok.symm.trans done
      rw [kept]
      exact root

/-- The directory that is read is on one line, whatever the file is. -/
theorem readLines_onLine {fpi : Input Char} (root : OnLine r.cacheRoot)
    (done : r.readLines fpi = .ok r') : OnLine r'.cacheRoot := by
  induction size : fpi.rest.length using Nat.strong_induction_on generalizing fpi r with
  | h n ih =>
    rw [RCReader.readLines] at done
    dsimp only at done
    split at done
    · next good =>
      have shorter := getline_shorter good
      have onLine : OnLine (cstring '\x00' (fpi.getline 1023 '\n').1) :=
        ⟨fun member => getline_without 1023 '\n' fpi ((List.takeWhile_prefix _).subset member),
          cstring_without _ _⟩
      split at done
      · cases done
      · next r₁ read => exact ih _ (size ▸ shorter) (readLine_onLine onLine root read) done rfl
    · cases done
      exact root

end

/-! ## The round trip -/

/-- The settings of the proxy, the cache and the validation are those of the other reader. -/
structure Restores (w r : RCReader) : Prop where
  proxy : SameProxy w r
  cacheRoot : r.cacheRoot = w.cacheRoot
  useCache : r.useCache = w.useCache
  cacheMax : r.cacheMax = w.cacheMax
  cachedObj : r.cachedObj = w.cachedObj
  ignExpires : r.ignExpires = w.ignExpires
  defaultExpires : r.defaultExpires = w.defaultExpires
  alwaysValidate : r.alwaysValidate = w.alwaysValidate
  validateSsl : r.validateSsl = w.validateSsl

/-- What is written is read back by a new reader. -/
def Restored (w : RCReader) : Prop :=
  ∃ text r, w.writeRcFile = .ok text ∧ RCReader.new.readRcFile (some text) = .ok (r, true) ∧
    Restores w r

/-- A reader whose directory ends with a separator and whose hosts are on one line; it has a
proxy server of one of the forms or none. -/
structure Written (w : RCReader) : Prop where
  root : ∃ path, w.cacheRoot = path ++ ['/']
  noProxy : OnLine w.noProxyForHost
  proxy : Proxied w ∨ w.proxyServerHost = [] ∧ w.proxyServerUserpw = [] ∧ w.proxyServerPort = 0

/-- The two lines that may be long fit into the buffer, and there is one `@` at most. -/
def Restorable (w : RCReader) : Prop :=
  Fits w.cacheRootLine ∧
    (w.proxyServerHost ≠ [] → '@' ∉ w.proxyServerUserpw ∧ (proxyLine w).length < 1023)

/-- The lines behind the proxy server. -/
def lastLines (w : RCReader) : List Chars :=
  ["# NO_PROXY_FOR=<host|domain>".toList] ++ w.noProxyLines ++ RCReader.cookieLines

theorem readLines_all {r r' : RCReader} {lines : List Chars} (fit : ∀ line ∈ lines, Fits line)
    (done : lines.foldlM RCReader.readLine r = .ok r') :
    r.readLines (.ofList (lines.flatMap (· ++ RCReader.endl))) = .ok r' := by
  have run := readLines_run r fit []
  rw [List.append_nil, done] at run
  rw [run]
  exact readLines_last r' List.not_mem_nil

/-- A line that is too long ends the reading; what was read in front of it stays. -/
theorem readLines_stopped {r r' : RCReader} {before : List Chars} {line : Chars}
    (after : List Chars) (fit : ∀ line ∈ before, Fits line)
    (done : before.foldlM RCReader.readLine r = .ok r')
    (inside : '\n' ∉ line) (long : ¬line.length < 1023) :
    r.readLines (.ofList ((before ++ line :: after).flatMap (· ++ RCReader.endl))) = .ok r' := by
  have shape : (before ++ line :: after).flatMap (· ++ RCReader.endl) =
      before.flatMap (· ++ RCReader.endl) ++
        (line ++ '\n' :: after.flatMap (· ++ RCReader.endl)) := by
    simp [RCReader.endl]
  rw [shape, readLines_run r fit, done]
  exact readLines_long r' inside (Nat.le_of_not_lt long) _

theorem read_append {lines lines' : List Chars} {r r' r'' : RCReader}
    (first : lines.foldlM RCReader.readLine r = .ok r')
    (rest : lines'.foldlM RCReader.readLine r' = .ok r'') :
    (lines ++ lines').foldlM RCReader.readLine r = .ok r'' := by
  rw [List.foldlM_append, first]
  exact rest

section
variable {w : RCReader}

theorem readNoProxyFor_keeps (r : RCReader) (value : Chars) :
    SameProxy r (r.readNoProxyFor value) ∧
      (Restores w r → Restores w (r.readNoProxyFor value)) := by
  unfold RCReader.readNoProxyFor
  split <;>
    exact ⟨⟨rfl, rfl, rfl⟩, fun kept => ⟨⟨kept.proxy.userpw, kept.proxy.host, kept.proxy.port⟩,
      kept.cacheRoot, kept.useCache, kept.cacheMax, kept.cachedObj, kept.ignExpires,
      kept.defaultExpires, kept.alwaysValidate, kept.validateSsl⟩⟩

/-- The lines behind the proxy server change no setting of another kind. -/
theorem lastLines_read (onLine : OnLine w.noProxyForHost) (r : RCReader) :
    ∃ r', r.readLines (.ofList ((lastLines w).flatMap (· ++ RCReader.endl))) = .ok r' ∧
      SameProxy r r' ∧ (Restores w r → Restores w r') := by
  unfold lastLines RCReader.noProxyLines
  split
  · by_cases short : ("NO_PROXY_FOR=".toList ++ w.noProxyForHost).length < 1023
    · have fits : Fits ("NO_PROXY_FOR=".toList ++ w.noProxyForHost) :=
        ⟨onLine_append (by decide) onLine, short⟩
      refine ⟨r.readNoProxyFor w.noProxyForHost, ?_, readNoProxyFor_keeps r _⟩
      apply readLines_all
      · intro line member
        rcases List.mem_cons.mp member with rfl | behind
        · exact noProxyComment.2
        · rcases List.mem_cons.mp behind with rfl | last
          · exact fits
          · exact (cookieLines_comments line last).2
      · apply read_next (readLine_comment _ noProxyComment)
        apply read_next (readLine_token _ (by decide : '=' ∉ "NO_PROXY_FOR".toList) _)
        exact comments_read _ cookieLines_comments
    · refine ⟨r, ?_, ⟨rfl, rfl, rfl⟩, id⟩
      have inside : '\n' ∉ "NO_PROXY_FOR=".toList ++ w.noProxyForHost :=
        (onLine_append (by decide : OnLine "NO_PROXY_FOR=".toList) onLine).1
      have done : ["# NO_PROXY_FOR=<host|domain>".toList].foldlM RCReader.readLine r = .ok r :=
        read_next (readLine_comment r noProxyComment) rfl
      have stopped := readLines_stopped RCReader.cookieLines
        (List.forall_mem_singleton.mpr noProxyComment.2) done inside short
      exact stopped
  · refine ⟨r, ?_, ⟨rfl, rfl, rfl⟩, id⟩
    apply readLines_all
    · intro line member
      rcases List.mem_cons.mp member with rfl | last
      · exact noProxyComment.2
      · exact (cookieLines_comments line last).2
    · exact read_next (readLine_comment _ noProxyComment) (comments_read _ cookieLines_comments)

/-- What is written, by the lines for the proxy server. -/
theorem writeRcFile_eq {proxy : List Chars} (lines : w.proxyLines = .ok proxy) :
    w.writeRcFile = .ok ((w.cacheLines ++ w.cacheRootLine :: (w.validationLines ++
      (proxy ++ lastLines w))).flatMap (· ++ RCReader.endl)) := by
  unfold RCReader.writeRcFile
  rw [lines]
  have shape : w.cacheLines ++ [w.cacheRootLine] ++ w.validationLines ++ proxy ++
      ["# NO_PROXY_FOR=<host|domain>".toList] ++ w.noProxyLines ++ RCReader.cookieLines =
      w.cacheLines ++ w.cacheRootLine :: (w.validationLines ++ (proxy ++ lastLines w)) := by
    simp only [lastLines, List.append_assoc, List.cons_append, List.nil_append]
  exact congrArg (fun lines => Except.ok (lines.flatMap (· ++ RCReader.endl))) shape

theorem readRcFile_ok {r r' : RCReader} {text : Chars}
    (read : r.readRcFile (some text) = .ok (r', true)) : r.readLines (.ofList text) = .ok r' := by
  obtain ⟨r'', lines, same⟩ := bind_success read
  cases same
  exact lines

/-- A new reader behind the lines of the cache and of the validation. -/
def validated (w : RCReader) : RCReader :=
  { RCReader.new with
    useCache := w.useCache
    cacheMax := w.cacheMax
    cachedObj := w.cachedObj
    ignExpires := w.ignExpires
    cacheRoot := w.cacheRoot
    defaultExpires := w.defaultExpires
    alwaysValidate := w.alwaysValidate
    deflate := w.deflate
    validateSsl := w.validateSsl }

theorem validated_read (written : Written w) :
    (w.cacheLines ++ w.cacheRootLine :: w.validationLines).foldlM RCReader.readLine .new =
      .ok (validated w) := by
  obtain ⟨path, root⟩ := written.root
  apply read_append (cacheLines_read w _)
  apply read_next (readLine_root w _ root)
  exact validationLines_read w _

theorem validated_fit (fits : Fits w.cacheRootLine) :
    ∀ line ∈ w.cacheLines ++ w.cacheRootLine :: w.validationLines, Fits line := by
  intro line member
  rcases List.mem_append.mp member with cache | behind
  · exact cacheLines_fit w line cache
  · rcases List.mem_cons.mp behind with rfl | validation
    · exact fits
    · exact validationLines_fit w line validation

/-- The part of the file that fits is read, then the last lines. -/
theorem readLines_head {proxy : List Chars} {r r' : RCReader} (fits : Fits w.cacheRootLine)
    (written : Written w) (proxyFit : ∀ line ∈ proxy, Fits line)
    (proxyRead : proxy.foldlM RCReader.readLine (validated w) = .ok r)
    (last : r.readLines (.ofList ((lastLines w).flatMap (· ++ RCReader.endl))) = .ok r') :
    RCReader.new.readLines (.ofList ((w.cacheLines ++ w.cacheRootLine :: (w.validationLines ++
      (proxy ++ lastLines w))).flatMap (· ++ RCReader.endl))) = .ok r' := by
  have shape : w.cacheLines ++ w.cacheRootLine :: (w.validationLines ++
      (proxy ++ lastLines w)) =
      (w.cacheLines ++ w.cacheRootLine :: w.validationLines) ++ proxy ++ lastLines w := by
    simp
  have fit : ∀ line ∈ (w.cacheLines ++ w.cacheRootLine :: w.validationLines) ++ proxy,
      Fits line := by
    intro line member
    rcases List.mem_append.mp member with front | behind
    · exact validated_fit fits line front
    · exact proxyFit line behind
  rw [shape, List.flatMap_append, readLines_run _ fit,
    read_append (validated_read written) proxyRead]
  exact last

theorem restored_of_restorable (written : Written w) (restorable : Restorable w) :
    Restored w := by
  obtain ⟨fits, machine⟩ := restorable
  have restored' : ∀ {proxy r}, w.proxyLines = .ok proxy → (∀ line ∈ proxy, Fits line) →
      proxy.foldlM RCReader.readLine (validated w) = .ok r → Restores w r → Restored w := by
    intro proxy r lines proxyFit proxyRead restores
    obtain ⟨r', last, -, kept⟩ := lastLines_read written.noProxy r
    refine ⟨_, r', writeRcFile_eq lines, ?_, kept restores⟩
    have read := readLines_head fits written proxyFit proxyRead last
    show (RCReader.new.readLines _ >>= fun r => pure (r, true)) = _
    rw [read]
    rfl
  rcases written.proxy with proxied | ⟨host, userpw, port⟩
  · obtain ⟨plain, short⟩ := machine proxied.isHost.some'
    obtain ⟨r, done, rfl⟩ := proxyLine_read (validated w) proxied plain
    refine restored' (proxyLines_eq proxied) ?_ (read_next done rfl)
      ⟨⟨rfl, rfl, rfl⟩, rfl, rfl, rfl, rfl, rfl, rfl, rfl, rfl⟩
    exact List.forall_mem_singleton.mpr ⟨proxyLine_onLine proxied, short⟩
  · have none' : w.proxyLines = .ok [] := by
      unfold RCReader.proxyLines
      rw [if_neg (not_not_intro host)]
    exact restored' none' (List.forall_mem_nil _) rfl
      ⟨⟨userpw.symm, host.symm, port.symm⟩, rfl, rfl, rfl, rfl, rfl, rfl, rfl, rfl⟩

theorem restorable_of_restored (written : Written w) (restored : Restored w) :
    Restorable w := by
  obtain ⟨text, r, text_eq, read, restores⟩ := restored
  have reads := readRcFile_ok read
  have onLine : OnLine w.cacheRoot := by
    rw [← restores.cacheRoot]
    exact readLines_onLine (by decide : OnLine RCReader.new.cacheRoot) reads
  have rootOnLine : OnLine w.cacheRootLine := onLine_append (by decide) onLine
  obtain ⟨proxy, lines⟩ : ∃ proxy, w.proxyLines = .ok proxy := by
    rcases written.proxy with proxied | ⟨host, -, -⟩
    · exact ⟨_, proxyLines_eq proxied⟩
    · refine ⟨[], ?_⟩
      unfold RCReader.proxyLines
      rw [if_neg (not_not_intro host)]
  cases (writeRcFile_eq lines).symm.trans text_eq
  have fits : Fits w.cacheRootLine := by
    refine ⟨rootOnLine, ?_⟩
    by_contra long
    have stopped := readLines_stopped (w.validationLines ++ (proxy ++ lastLines w))
      (cacheLines_fit w) (cacheLines_read w .new) rootOnLine.1 long
    cases reads.symm.trans stopped
    obtain ⟨path, root⟩ := written.root
    have empty : w.cacheRoot = [] := restores.cacheRoot.symm
    rw [root] at empty
    simp at empty
  refine ⟨fits, fun some' => ?_⟩
  have proxied : Proxied w := written.proxy.resolve_right fun none' => some' none'.1
  cases (proxyLines_eq proxied).symm.trans lines
  have short : (proxyLine w).length < 1023 := by
    by_contra long
    have stopped := readLines_stopped (lastLines w) (validated_fit fits) (validated_read written)
      (proxyLine_onLine proxied).1 long
    have shape : w.cacheLines ++ w.cacheRootLine :: (w.validationLines ++
        ([proxyLine w] ++ lastLines w)) =
        (w.cacheLines ++ w.cacheRootLine :: w.validationLines) ++ proxyLine w :: lastLines w := by
      simp
    rw [shape] at reads
    cases reads.symm.trans stopped
    exact some' restores.proxy.host.symm
  refine ⟨?_, short⟩
  intro member
  obtain ⟨r₁, done, early⟩ := proxyLine_early (validated w) proxied member
  obtain ⟨r', last, kept, -⟩ := lastLines_read written.noProxy r₁
  have whole := readLines_head fits written
    (List.forall_mem_singleton.mpr ⟨proxyLine_onLine proxied, short⟩) (read_next done rfl) last
  cases reads.symm.trans whole
  exact early (kept.userpw.symm.trans restores.proxy.userpw)

end

/-- Settings are read as they stand in the file, and read back as they were written, in these
cases only. -/
theorem proxy_settings_iff (f : ProxyFile) (w : RCReader) (written : Written w) :
    (ReadAsWritten f ↔ Readable f) ∧ (Restored w ↔ Restorable w) :=
  ⟨readable_iff f, restorable_of_restored written, restored_of_restorable written⟩

def userForm (u : Chars) (isUserpw : IsUserpw u) : ProxyForm where
  comma := false
  scheme := true
  userpw := some u
  host := "proxy.org".toList
  port := none
  isUserpw := by
    intro u' same
    cases same
    exact isUserpw
  isHost := ⟨by decide, by decide, by decide, by decide, by decide, by decide⟩
  isPort := nofun

theorem userForm_short {u : Chars} (isUserpw : IsUserpw u) (few : u.length < 900) :
    ∀ line ∈ ["USE_CACHE=1".toList] ++ (userForm u isUserpw).line :: ["DEFLATE=1".toList],
      OnLine line ∧ line.length < 1000 := by
  intro line member
  simp only [List.singleton_append, List.mem_cons, List.not_mem_nil, or_false] at member
  rcases member with rfl | rfl | rfl
  · decide
  · have front : OnLine ("PROXY_SERVER=".toList ++ "http://".toList) := by decide
    have user : OnLine (u ++ ['@'] ++ "proxy.org".toList) :=
      onLine_append (onLine_append isUserpw.1 (by decide)) (by decide)
    have whole := onLine_append front user
    refine ⟨whole, ?_⟩
    show ("PROXY_SERVER=".toList ++ "http://".toList ++
      (u ++ ['@'] ++ "proxy.org".toList)).length < 1000
    simp only [List.length_append]
    have lengths : "PROXY_SERVER=".toList.length = 13 ∧ "http://".toList.length = 7 ∧
        "proxy.org".toList.length = 9 ∧ ['@'].length = 1 := by decide
    omega
  · decide

theorem others_plain : ∀ line ∈ ["USE_CACHE=1".toList] ++ ["DEFLATE=1".toList],
    ¬"PROXY_SERVER=".toList <+: line := by decide

/-- A file with a line for this user of a proxy server, between two others. -/
def userFile (u : Chars) (isUserpw : IsUserpw u) (few : u.length < 900) : ProxyFile where
  before := ["USE_CACHE=1".toList]
  proxy := userForm u isUserpw
  after := ["DEFLATE=1".toList]
  newline := true
  short := userForm_short isUserpw few
  others := others_plain

def withCache : RCReader := { RCReader.new with cacheRoot := "/home/.dods_cache/".toList }

theorem withCache_written : Written withCache where
  root := ⟨"/home/.dods_cache".toList, rfl⟩
  noProxy := by decide
  proxy := Or.inr ⟨rfl, rfl, rfl⟩

def withProxy : RCReader :=
  { withCache with
    proxyServerProtocol := "http".toList
    proxyServerHost := "proxy.org".toList
    proxyServerPort := 8080
    proxyServerUserpw := "me:pw".toList }

theorem withProxy_written : Written withProxy where
  root := ⟨"/home/.dods_cache".toList, rfl⟩
  noProxy := by decide
  proxy := .inl
    { onLine := by decide
      comma := by decide
      colon := by decide
      isUserpw := ⟨by decide, by decide, by decide⟩
      isHost := ⟨by decide, by decide, by decide, by decide, by decide, by decide⟩
      low := by decide
      high := by decide }

theorem isUserpw_plain : IsUserpw "me:pw".toList := ⟨by decide, by decide, by decide⟩

theorem proxy_settings_plain :
    ReadAsWritten (userFile "me:pw".toList isUserpw_plain (by decide)) ∧ Restored withProxy := by
  have both := proxy_settings_iff (userFile "me:pw".toList isUserpw_plain (by decide)) withProxy
    withProxy_written
  refine ⟨both.1.mpr ⟨?_, Or.inl rfl, by decide⟩, both.2.mpr ⟨by decide, fun _ => ?_⟩⟩
  · intro u same
    cases same
    decide
  · exact ⟨by decide, by decide⟩

theorem isUserpw_at : IsUserpw "me@home:pw".toList := ⟨by decide, by decide, by decide⟩

/-- The name of this user has an `@`. -/
theorem proxy_settings_cut :
    ¬∀ (f : ProxyFile) (w : RCReader), Written w → ReadAsWritten f ∧ Restored w := by
  intro all
  have read := (all (userFile "me@home:pw".toList isUserpw_at (by decide)) withCache
    withCache_written).1
  exact ((readable_iff _).mp read).1 _ rfl (by decide)

end Libdap.Guarantees.RcFileRoundTrip
