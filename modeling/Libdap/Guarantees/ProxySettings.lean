import Libdap.Guarantees.DateRoundTrip
import Libdap.Guarantees.Freshness
import Libdap.Guarantees.Numerals
import Libdap.Library.Outcome
import Libdap.Source.RcFile

/-!
# Proxy settings

What the reader of the configuration file makes of a proxy server, and of the file that it
wrote itself. The name and the password end at the first `@`, and a line without a newline is
not read.
-/
namespace Libdap.Guarantees.ProxySettings
open Libdap.Library Libdap.Library.LineInput
open Libdap.Source Libdap.Source.RcFile
open HTTPCacheTable (Chars findText)
open HTTPCacheIndex (isSpace sign signed printBool)
open ErrorText (decimal printInt isDigit digitsValue)
open StringUtil (findFirstOf longToString)
open HTTPCacheIndex (sign_printInt printInt_dark printInt_ne_nil signed_natAbs
  isSpace_of_digit)
open ErrorRoundTrip (decimal_digits decimal_ne_nil decimal_value digit_char)

/-! ## Numbers -/

theorem dropWhile_none {p : Char → Bool} {text : Chars} (none' : ∀ c ∈ text, p c = false) :
    text.dropWhile p = text := by
  cases text with
  | nil => rfl
  | cons c text =>
    have other := none' c List.mem_cons_self
    exact List.dropWhile_cons_of_neg (by simp [other])

theorem strtol_printInt {x : Int} (low : -2 ^ 63 ≤ x) (high : x < 2 ^ 63) :
    (UtilMit.strtol (printInt x)).1 = x := by
  have signs : sign (printInt x) = (decide (x < 0), decimal x.natAbs) := by
    have both := sign_printInt x []
    rwa [List.append_nil, List.append_nil] at both
  have digits : (decimal x.natAbs).takeWhile isDigit = decimal x.natAbs :=
    List.takeWhile_eq_self_iff.mpr (decimal_digits x.natAbs)
  unfold UtilMit.strtol
  rw [dropWhile_none (printInt_dark x), signs]
  dsimp only
  rw [digits, if_neg (decimal_ne_nil _), decimal_value, signed_natAbs]
  dsimp only
  omega

theorem atoi_printInt (x : Int32) : atoi (printInt x.toInt) = x := by
  have low := x.le_toInt
  have high := x.toInt_lt
  unfold atoi
  rw [strtol_printInt (by omega) (by omega), Int32.ofInt_toInt]

theorem atoi_decimal (n : UInt32) : (atoi (decimal n.toNat)).toUInt32 = n := by
  have small := n.toNat_lt
  have same : decimal n.toNat = printInt (n.toNat : Int) := by
    unfold printInt
    rw [if_pos (Int.natCast_nonneg _), Int.toNat_natCast]
  unfold atoi
  rw [same, strtol_printInt (by omega) (by omega), Int32.ofInt_eq_ofNat, Int32.toUInt32_ofNat',
    UInt32.ofNat_toNat]

theorem atoi_printBool (b : Bool) : decide (atoi (printBool b) ≠ 0) = b := by
  cases b with
  | false => rfl
  | true => rfl

theorem digitIn_ten {c : Char} (digit : isDigit c = true) :
    digitIn 10 c = some (c.toNat - 48) := by
  have bounds := digit
  unfold isDigit at bounds
  rw [Bool.and_eq_true, decide_eq_true_eq, decide_eq_true_eq] at bounds
  have high : c.toNat ≤ 57 := bounds.2
  unfold digitIn
  rw [if_pos digit]
  simp
  omega

theorem digitsIn_ten {digits : Chars} (all : ∀ c ∈ digits, isDigit c = true) (value : Nat) :
    digitsIn 10 value digits = digits.foldl (fun v d => 10 * v + (d.toNat - 48)) value := by
  induction digits generalizing value with
  | nil => rfl
  | cons c digits ih =>
    rw [digitsIn, digitIn_ten (all c List.mem_cons_self)]
    exact ih (fun d member => all d (List.mem_cons_of_mem _ member)) _

/-- A number does not begin with a zero. -/
theorem decimal_head {n : Nat} (positive : 0 < n) : ∃ c digits,
    decimal n = c :: digits ∧ c ≠ '0' := by
  have nonzero : n ≠ 0 := Nat.ne_of_gt positive
  have some' : Nat.digits 10 n ≠ [] := Nat.digits_ne_nil_iff_ne_zero.mpr nonzero
  have shape := List.dropLast_append_getLast some'
  have last := Nat.getLast_digit_ne_zero 10 nonzero
  have small := Nat.digits_lt_base (m := n) (by decide : 1 < 10) (List.getLast_mem some')
  refine ⟨Char.ofNat (48 + (Nat.digits 10 n).getLast some'),
    (Nat.digits 10 n).dropLast.reverse.map fun d => Char.ofNat (48 + d), ?_, ?_⟩
  · unfold decimal
    rw [if_neg nonzero]
    conv_lhs => rw [← shape]
    simp
  · intro same
    have value := (digit_char small).1
    rw [same] at value
    have zero : '0'.toNat = 48 := rfl
    omega

theorem strtolAnyBase_decimal {n : Nat} (positive : 0 < n) (small : n < 2 ^ 63) :
    strtolAnyBase (decimal n) = n := by
  obtain ⟨c, digits, shape, other⟩ := decimal_head positive
  have all := decimal_digits n
  have dark : (decimal n).dropWhile isSpace = decimal n :=
    dropWhile_none fun d member => isSpace_of_digit (all d member)
  have signs : sign (decimal n) = (false, decimal n) := by
    have both := HTTPCacheIndex.sign_decimal n []
    rwa [List.append_nil] at both
  have value : digitsIn 10 0 (decimal n) = n := by
    rw [digitsIn_ten all]
    exact decimal_value n
  unfold strtolAnyBase
  rw [dark, signs]
  dsimp only
  split
  · next same =>
    rw [shape] at same
    exact absurd (List.cons.inj same).1 other
  · next same =>
    rw [shape] at same
    exact absurd (List.cons.inj same).1 other
  · rw [value]
    simp only [signed, Bool.false_eq_true, if_false]
    omega

/-- The two ways a number is written agree. -/
theorem longToString_decimal {port : Int32} (nonneg : 0 ≤ port.toInt) :
    longToString port.toInt64 10 = .ok (decimal port.toInt.toNat) := by
  have same : port.toInt64.toInt = port.toInt := Int32.toInt_toInt64 port
  have high := port.toInt_lt
  have least : port.toInt64 ≠ Int64.minValue := by
    intro equal
    rw [equal] at same
    have : Int64.minValue.toInt = -2 ^ 63 := by decide
    omega
  have positive : ¬port.toInt64 < 0 := by
    rw [Int64.lt_iff_toInt_lt, same]
    exact not_lt.mpr nonneg
  have digits : ∀ d < 10, Numerals.digitChar d = Char.ofNat (48 + d) := by decide
  have natAbs : port.toInt.natAbs = port.toInt.toNat := by omega
  unfold longToString
  rw [Numerals.append_eq (by decide) least, List.nil_append]
  unfold Numerals.numeralOf Numerals.signOf
  rw [if_neg positive, List.nil_append, same, natAbs]
  congr 1
  unfold Numerals.positional decimal
  show List.map Numerals.digitChar (if port.toInt.toNat = 0 then [0]
    else (Nat.digits 10 port.toInt.toNat).reverse) = _
  split
  · rfl
  · apply List.map_congr_left
    intro d member
    exact digits d (Nat.digits_lt_base (by decide) (List.mem_reverse.mp member))

/-! ## Lines -/

/-- Text that is part of one line. -/
def OnLine (text : Chars) : Prop := '\n' ∉ text ∧ '\x00' ∉ text

/-- A line that the buffer has room for. -/
def Fits (line : Chars) : Prop := OnLine line ∧ line.length < 1023

section
variable (r : RCReader) {line : Chars} {lines : List Chars}

theorem readLines_line (fits : Fits line) (more : Chars) :
    r.readLines (.ofList (line ++ '\n' :: more)) =
      r.readLine line >>= fun r => r.readLines (.ofList more) := by
  rw [RCReader.readLines]
  simp only [getline_line 1023 '\n' line more fits.1.1 fits.2, cstring_eq fits.1.2]
  rw [dif_pos (by rfl)]
  cases r.readLine line <;> rfl

/-- What is behind the last newline is not read. -/
theorem readLines_last (inside : '\n' ∉ line) : r.readLines (.ofList line) = .ok r := by
  rw [RCReader.readLines]
  by_cases long : 1023 ≤ line.length
  · have full := getline_full 1023 '\n' line [] inside long (by decide)
    rw [List.append_nil] at full
    simp only [full]
    exact dif_neg (by simp)
  · have read : scan '\n' (1023 - 1) line = (line, .input, []) :=
      scan_input inside (by omega)
    simp only [Input.getline, Input.ofList, read]
    exact dif_neg (by simp)

/-- A line that is longer than the buffer ends the loop. -/
theorem readLines_long (inside : '\n' ∉ line) (long : 1023 ≤ line.length) (more : Chars) :
    r.readLines (.ofList (line ++ more)) = .ok r := by
  rw [RCReader.readLines]
  simp only [getline_full 1023 '\n' line more inside long (by decide)]
  exact dif_neg (by simp)

theorem readLines_run (fit : ∀ line ∈ lines, Fits line) (rest : Chars) :
    r.readLines (.ofList (lines.flatMap (· ++ RCReader.endl) ++ rest)) =
      lines.foldlM RCReader.readLine r >>= fun r => r.readLines (.ofList rest) := by
  induction lines generalizing r with
  | nil => rfl
  | cons line lines ih =>
    have first := readLines_line r (fit line List.mem_cons_self)
      (lines.flatMap (· ++ RCReader.endl) ++ rest)
    have shape : (line :: lines).flatMap (· ++ RCReader.endl) ++ rest =
        line ++ '\n' :: (lines.flatMap (· ++ RCReader.endl) ++ rest) := by
      simp [RCReader.endl]
    rw [shape, first, List.foldlM_cons]
    cases r.readLine line with
    | error failure => rfl
    | ok r' => exact ih r' fun line member => fit line (List.mem_cons_of_mem _ member)

end

/-! ## Settings -/

theorem findFirstOf_behind {c : Char} {front : Chars} (absent : c ∉ front) (rest : Chars) :
    findFirstOf c (front ++ c :: rest) = some front.length := by
  unfold findFirstOf
  induction front with
  | nil => simp [List.findIdx?_cons]
  | cons d front ih =>
    obtain ⟨other, absent⟩ := List.ne_and_not_mem_of_not_mem_cons absent
    rw [List.cons_append, List.findIdx?_cons, ih absent]
    simp [Ne.symm other]

theorem findFirstOf_none {c : Char} {text : Chars} (absent : c ∉ text) :
    findFirstOf c text = none := by
  unfold findFirstOf
  rw [List.findIdx?_eq_none_iff]
  intro d member
  simp only [decide_eq_false_iff_not]
  rintro rfl
  exact absent member

section
variable (r : RCReader)

theorem readLine_token {name : Chars} (plain : '=' ∉ name) (value : Chars) :
    r.readLine (name ++ '=' :: value) = r.readValue name value := by
  have behind : (name ++ '=' :: value).drop (name.length + 1) = value := by
    rw [← List.drop_drop, List.drop_left]
    rfl
  unfold RCReader.readLine
  rw [findFirstOf_behind plain]
  dsimp only
  rw [List.take_left, behind]

theorem readLine_plain {line : Chars} (plain : '=' ∉ line) : r.readLine line = .ok r := by
  unfold RCReader.readLine
  rw [findFirstOf_none plain]

/-- Either there is no sign in a line or it is behind a name. -/
theorem line_cases (line : Chars) :
    '=' ∉ line ∨ ∃ name value, '=' ∉ name ∧ line = name ++ '=' :: value := by
  by_cases member : '=' ∈ line
  · obtain ⟨name, value, same, absent⟩ := List.eq_append_cons_of_mem member
    exact Or.inr ⟨name, value, absent, same⟩
  · exact Or.inl member

/-- What one reader has of the proxy server is what another has. -/
structure SameProxy (r r' : RCReader) : Prop where
  userpw : r'.proxyServerUserpw = r.proxyServerUserpw
  host : r'.proxyServerHost = r.proxyServerHost
  port : r'.proxyServerPort = r.proxyServerPort

theorem SameProxy.trans {r r' r'' : RCReader} (first : SameProxy r r')
    (second : SameProxy r' r'') : SameProxy r r'' :=
  ⟨second.userpw.trans first.userpw, second.host.trans first.host,
    second.port.trans first.port⟩

/-- A setting that has nothing to do with the proxy server or the cache's directory. -/
def Spared (result : Except Failure RCReader) : Prop :=
  ∃ r', result = .ok r' ∧ SameProxy r r' ∧ r'.cacheRoot = r.cacheRoot

theorem Spared.either {P : Prop} [Decidable P] {first second : Except Failure RCReader}
    (one : Spared r first) (other : Spared r second) : Spared r (if P then first else second) := by
  split
  · exact one
  · exact other

theorem Spared.ok {r r' : RCReader} (kept : SameProxy r r') (root : r'.cacheRoot = r.cacheRoot) :
    Spared r (.ok r') := ⟨r', rfl, kept, root⟩

/-- Two of the settings may fail or change what the others leave. -/
theorem readValue_cases (token value : Chars) :
    (token = "CACHE_ROOT".toList ∧ r.readValue token value = r.readCacheRoot value) ∨
    (token = "PROXY_SERVER".toList ∧ r.readValue token value = r.readProxyServer value) ∨
    (token ≠ "CACHE_ROOT".toList ∧ token ≠ "PROXY_SERVER".toList ∧
      Spared r (r.readValue token value)) := by
  by_cases root : token = "CACHE_ROOT".toList
  · subst root
    exact Or.inl ⟨rfl, rfl⟩
  · by_cases proxy : token = "PROXY_SERVER".toList
    · subst proxy
      exact Or.inr (Or.inl ⟨rfl, rfl⟩)
    · refine Or.inr (Or.inr ⟨root, proxy, ?_⟩)
      have noProxy : SameProxy r (r.readNoProxyFor value) ∧
          (r.readNoProxyFor value).cacheRoot = r.cacheRoot := by
        unfold RCReader.readNoProxyFor
        split <;> exact ⟨⟨rfl, rfl, rfl⟩, rfl⟩
      unfold RCReader.readValue
      rw [if_neg root, if_neg proxy]
      repeat' apply Spared.either
      all_goals first
        | exact Spared.ok ⟨rfl, rfl, rfl⟩ rfl
        | exact Spared.ok noProxy.1 noProxy.2

/-- A line of the file that says nothing of the proxy server. -/
theorem readLine_other {line : Chars} (other : ¬"PROXY_SERVER=".toList <+: line)
    (root : line ≠ "CACHE_ROOT=".toList) : ∃ r', r.readLine line = .ok r' ∧ SameProxy r r' := by
  rcases line_cases line with plain | ⟨name, value, plain, rfl⟩
  · exact ⟨r, readLine_plain r plain, rfl, rfl, rfl⟩
  · rw [readLine_token r plain]
    rcases readValue_cases r name value with ⟨rfl, same⟩ | ⟨rfl, -⟩ | ⟨-, -, r', done, kept, -⟩
    · have some' : value ≠ [] := by
        rintro rfl
        exact root rfl
      rw [same]
      unfold RCReader.readCacheRoot
      rw [List.getLast?_eq_some_getLast some']
      exact ⟨_, rfl, rfl, rfl, rfl⟩
    · exact absurd ⟨value, rfl⟩ other
    · exact ⟨r', done, kept⟩

theorem readLine_root_empty : r.readLine "CACHE_ROOT=".toList = .error .undefinedBehaviour :=
  readLine_token r (by decide : '=' ∉ "CACHE_ROOT".toList) []

theorem readLines_other {lines : List Chars}
    (other : ∀ line ∈ lines, ¬"PROXY_SERVER=".toList <+: line)
    (root : "CACHE_ROOT=".toList ∉ lines) :
    ∃ r', lines.foldlM RCReader.readLine r = .ok r' ∧ SameProxy r r' := by
  induction lines generalizing r with
  | nil => exact ⟨r, rfl, rfl, rfl, rfl⟩
  | cons line lines ih =>
    obtain ⟨here, behind⟩ := List.ne_and_not_mem_of_not_mem_cons root
    obtain ⟨r', first, kept⟩ := readLine_other r (other line List.mem_cons_self) (Ne.symm here)
    obtain ⟨r'', rest, kept'⟩ :=
      ih r' (fun line member => other line (List.mem_cons_of_mem _ member)) behind
    rw [List.foldlM_cons, first]
    exact ⟨r'', rest, kept.trans kept'⟩

end

/-! ## The proxy server -/

/-- The parts of `[u@]host[:port]`. -/
def address (userpw : Option Chars) (host : Chars) (port : Option Nat) : Chars :=
  userpw.elim [] (· ++ ['@']) ++ (host ++ port.elim [] fun n => ':' :: decimal n)

def IsUserpw (u : Chars) : Prop := OnLine u ∧ ',' ∉ u ∧ ¬"://".toList <:+: u

structure IsHost (host : Chars) : Prop where
  some' : host ≠ []
  onLine : OnLine host
  at' : '@' ∉ host
  colon : ':' ∉ host
  comma : ',' ∉ host
  slash : '/' ∉ host

def IsPort (n : Nat) : Prop := 1 ≤ n ∧ n ≤ 65535

theorem decimal_without {c : Char} (other : isDigit c = false) (n : Nat) : c ∉ decimal n := by
  intro member
  have digit := decimal_digits n c member
  rw [other] at digit
  cases digit

/-- Behind the host there are digits and a colon only. -/
theorem port_without {c : Char} (other : isDigit c = false) (colon : c ≠ ':') (port : Option Nat) :
    c ∉ port.elim [] fun n => ':' :: decimal n := by
  cases port with
  | none => exact List.not_mem_nil
  | some n => exact List.not_mem_cons_of_ne_of_not_mem colon (decimal_without other n)

section
variable (r : RCReader) {userpw : Option Chars} {host : Chars} {port : Option Nat}

theorem readHost_userpw (proxy : Chars) :
    (r.readHost proxy).proxyServerUserpw = r.proxyServerUserpw := by
  unfold RCReader.readHost
  split <;> rfl

theorem readHost_form (isHost : IsHost host) (isPort : ∀ n ∈ port, IsPort n) :
    r.readHost (host ++ port.elim [] fun n => ':' :: decimal n) =
      { r with
        proxyServerHost := host
        proxyServerPort := port.elim 80 fun n => Int32.ofNat n } := by
  unfold RCReader.readHost
  cases port with
  | none =>
    rw [Option.elim_none, List.append_nil, findFirstOf_none isHost.colon]
    rfl
  | some n =>
    obtain ⟨low, high⟩ := isPort n rfl
    have number : (host ++ ':' :: decimal n).drop (host.length + 1) = decimal n := by
      rw [← List.drop_drop, List.drop_left]
      rfl
    rw [Option.elim_some, findFirstOf_behind isHost.colon]
    dsimp only
    rw [List.take_left, number, strtolAnyBase_decimal low (by omega), Int32.ofInt_eq_ofNat]
    rfl

theorem readMachine_form (user : ∀ u ∈ userpw, '@' ∉ u) (isHost : IsHost host)
    (isPort : ∀ n ∈ port, IsPort n) : r.readMachine (address userpw host port) =
      { r with
        proxyServerUserpw := userpw.getD []
        proxyServerHost := host
        proxyServerPort := port.elim 80 fun n => Int32.ofNat n } := by
  have absent : '@' ∉ host ++ port.elim [] fun n => ':' :: decimal n := by
    intro member
    rcases List.mem_append.mp member with inHost | inPort
    · exact isHost.at' inHost
    · exact port_without (by decide) (by decide) port inPort
  unfold RCReader.readMachine address
  cases userpw with
  | none =>
    rw [Option.elim_none, List.nil_append, findFirstOf_none absent]
    dsimp only
    rw [readHost_form _ isHost isPort]
    rfl
  | some u =>
    have shape : u ++ ['@'] ++ (host ++ port.elim [] fun n => ':' :: decimal n) =
        u ++ '@' :: (host ++ port.elim [] fun n => ':' :: decimal n) := by simp
    have behind : (u ++ '@' :: (host ++ port.elim [] fun n => ':' :: decimal n)).drop
        (u.length + 1) = host ++ port.elim [] fun n => ':' :: decimal n := by
      rw [← List.drop_drop, List.drop_left]
      rfl
    rw [Option.elim_some, shape, findFirstOf_behind (user u rfl)]
    dsimp only
    rw [List.take_left, behind, readHost_form _ isHost isPort]
    rfl

/-- The name and the password end at the first sign. -/
theorem readMachine_early {u : Chars} (member : '@' ∈ u) (rest : Chars) :
    (r.readMachine (u ++ '@' :: rest)).proxyServerUserpw ≠ u := by
  obtain ⟨front, back, rfl, absent⟩ := List.eq_append_cons_of_mem member
  have shape : front ++ '@' :: back ++ '@' :: rest = front ++ '@' :: (back ++ '@' :: rest) := by
    simp
  unfold RCReader.readMachine
  rw [shape, findFirstOf_behind absent]
  dsimp only
  rw [readHost_userpw, List.take_left]
  intro same
  have lengths := congrArg List.length same
  simp at lengths

end

/-! ## What stands in front of it -/

theorem findText_none {what text : Chars} (absent : ¬what <:+: text) :
    findText what text = none := by
  unfold findText
  rw [List.find?_eq_none]
  intro i _ begins
  rw [List.isPrefixOf_iff_prefix] at begins
  exact absent (begins.isInfix.trans (List.drop_suffix i text).isInfix)

/-- A prefix of an address does not reach into what has no slash. -/
theorem slashes_front {front rest : Chars} (slash : '/' ∉ rest)
    (inside : "://".toList <:+: front ++ rest) : "://".toList <:+: front := by
  obtain ⟨before, after, same⟩ := inside
  have shape : before ++ ':' :: '/' :: '/' :: after = front ++ rest := by
    rw [← same]
    simp
  rcases List.append_eq_append_iff.mp shape with ⟨middle, rfl, rest_eq⟩ | ⟨middle, -, rest_eq⟩
  · match middle, rest_eq with
    | [], same =>
      have rest_eq : ':' :: '/' :: '/' :: after = rest := same
      exact absurd (by simp [← rest_eq]) slash
    | [_], same =>
      have rest_eq : '/' :: '/' :: after = rest := (List.cons.inj same).2
      exact absurd (by simp [← rest_eq]) slash
    | [_, _], same =>
      have rest_eq : '/' :: after = rest := (List.cons.inj (List.cons.inj same).2).2
      exact absurd (by simp [← rest_eq]) slash
    | c :: d :: e :: middle, same =>
      have first := (List.cons.inj same).1
      have second := (List.cons.inj (List.cons.inj same).2).1
      have third := (List.cons.inj (List.cons.inj (List.cons.inj same).2).2).1
      rw [← first, ← second, ← third]
      exact ⟨before, middle, by simp⟩
  · exact absurd (by simp [rest_eq]) slash

section
variable (r : RCReader) {userpw : Option Chars} {host : Chars} {port : Option Nat}

theorem address_slashes (isUserpw : ∀ u ∈ userpw, IsUserpw u) (isHost : IsHost host) :
    ¬"://".toList <:+: address userpw host port := by
  have slash : '/' ∉ host ++ port.elim [] fun n => ':' :: decimal n := by
    intro member
    rcases List.mem_append.mp member with inHost | inPort
    · exact isHost.slash inHost
    · exact port_without (by decide) (by decide) port inPort
  intro inside
  unfold address at inside
  have front := slashes_front slash inside
  cases userpw with
  | none => simp at front
  | some u => exact (isUserpw u rfl).2.2 (slashes_front (by decide) front)

theorem address_without {c : Char} (user : ∀ u ∈ userpw, c ∉ u) (inHost : c ∉ host)
    (other : isDigit c = false) (colon : c ≠ ':') (at' : c ≠ '@') :
    c ∉ address userpw host port := by
  intro member
  unfold address at member
  rcases List.mem_append.mp member with front | behind
  · cases userpw with
    | none => exact List.not_mem_nil front
    | some u =>
      rcases List.mem_append.mp front with inUser | sign'
      · exact user u rfl inUser
      · exact at' (List.mem_singleton.mp sign')
  · rcases List.mem_append.mp behind with inHost' | inPort
    · exact inHost inHost'
    · exact port_without other colon port inPort

theorem readAddress_plain {proxy : Chars} (plain : ¬"://".toList <:+: proxy) :
    r.readAddress proxy = r.readMachine proxy := by
  unfold RCReader.readAddress
  rw [findText_none plain]

theorem readAddress_scheme {scheme : Chars} (plain : ':' ∉ scheme) (proxy : Chars) :
    r.readAddress (scheme ++ ("://".toList ++ proxy)) = r.readMachine proxy := by
  have found : findText "://".toList (scheme ++ ("://".toList ++ proxy)) = some scheme.length :=
    Freshness.findText_behind "//".toList plain
  have behind : (scheme ++ ("://".toList ++ proxy)).drop (scheme.length + 3) = proxy := by
    rw [← List.drop_drop, List.drop_left]
    rfl
  unfold RCReader.readAddress
  rw [found]
  dsimp only
  rw [behind]

end

/-- A proxy server in one of the forms `[http,][http://][u@]host[:port]`. -/
structure ProxyForm where
  comma : Bool
  scheme : Bool
  userpw : Option Chars
  host : Chars
  port : Option Nat
  isUserpw : ∀ u ∈ userpw, IsUserpw u
  isHost : IsHost host
  isPort : ∀ n ∈ port, IsPort n

namespace ProxyForm
variable (f : ProxyForm)

def text : Chars :=
  (if f.comma then "http,".toList else []) ++ ((if f.scheme then "http://".toList else []) ++
    address f.userpw f.host f.port)

def line : Chars := "PROXY_SERVER=".toList ++ f.text

end ProxyForm

theorem readProxyServer_comma (r : RCReader) (proxy : Chars) :
    r.readProxyServer ("http,".toList ++ proxy) =
      .ok ({ r with proxyServerProtocol := "http".toList }.readAddress proxy) := by
  have shape : "http,".toList ++ proxy = "http".toList ++ ',' :: proxy := rfl
  have behind : ("http".toList ++ ',' :: proxy).drop ("http".toList.length + 1) = proxy := rfl
  have lower : MimeUtil.downcase "http".toList = "http".toList := by decide
  unfold RCReader.readProxyServer
  rw [shape, findFirstOf_behind (by decide)]
  dsimp only
  rw [List.take_left, behind, lower, if_neg (not_not_intro rfl)]

theorem readProxyServer_form (r : RCReader) (f : ProxyForm) : r.readProxyServer f.text =
    .ok ({ r with proxyServerProtocol := "http".toList }.readMachine
      (address f.userpw f.host f.port)) := by
  have comma : ',' ∉ address f.userpw f.host f.port :=
    address_without (fun u user => (f.isUserpw u user).2.1) f.isHost.comma (by decide) (by decide)
      (by decide)
  have reads : ∀ r : RCReader, r.readAddress ((if f.scheme then "http://".toList else []) ++
      address f.userpw f.host f.port) = r.readMachine (address f.userpw f.host f.port) := by
    intro r
    split
    · exact readAddress_scheme r (by decide : ':' ∉ "http".toList) _
    · exact readAddress_plain r (address_slashes f.isUserpw f.isHost)
  unfold ProxyForm.text
  cases f.comma with
  | true =>
    rw [if_pos rfl, readProxyServer_comma, reads]
  | false =>
    have absent : ',' ∉ (if f.scheme then "http://".toList else []) ++
        address f.userpw f.host f.port := by
      intro member
      rcases List.mem_append.mp member with front | behind
      · split at front
        · exact absurd front (by decide)
        · exact List.not_mem_nil front
      · exact comma behind
    unfold RCReader.readProxyServer
    rw [if_neg Bool.false_ne_true, List.nil_append, findFirstOf_none absent]
    dsimp only
    rw [reads]

/-! ## Reading a file -/

/-- A text file of short lines, one of which names the proxy server. -/
structure ProxyFile where
  before : List Chars
  proxy : ProxyForm
  after : List Chars
  /-- Whether there is a newline after the last line. -/
  newline : Bool
  short : ∀ line ∈ before ++ proxy.line :: after, OnLine line ∧ line.length < 1000
  others : ∀ line ∈ before ++ after, ¬"PROXY_SERVER=".toList <+: line

namespace ProxyFile
variable (f : ProxyFile)

def lines : List Chars := f.before ++ f.proxy.line :: f.after

def text : Chars := List.intercalate ['\n'] f.lines ++ if f.newline then ['\n'] else []

/-- The lines that end with a newline. -/
def complete : List Chars :=
  f.before ++ if f.newline then f.proxy.line :: f.after else (f.proxy.line :: f.after).dropLast

end ProxyFile

theorem intercalate_newline {lines : List Chars} (some' : lines ≠ []) :
    List.intercalate ['\n'] lines ++ ['\n'] = lines.flatMap (· ++ RCReader.endl) := by
  induction lines with
  | nil => exact absurd rfl some'
  | cons line lines ih =>
    cases lines with
    | nil => simp [List.intercalate, RCReader.endl]
    | cons line' lines =>
      have rest := ih (List.cons_ne_nil _ _)
      rw [List.flatMap_cons, ← rest]
      simp [List.intercalate, RCReader.endl]

/-- The text is its complete lines, and what is behind them. -/
theorem text_eq (f : ProxyFile) : ∃ rest, '\n' ∉ rest ∧
    f.text = f.complete.flatMap (· ++ RCReader.endl) ++ rest := by
  have some' : f.lines ≠ [] := by simp [ProxyFile.lines]
  unfold ProxyFile.text ProxyFile.complete
  cases f.newline with
  | true =>
    refine ⟨[], List.not_mem_nil, ?_⟩
    rw [if_pos rfl, if_pos rfl, List.append_nil]
    exact intercalate_newline some'
  | false =>
    have last : f.lines.getLast some' ∈ f.lines := List.getLast_mem some'
    refine ⟨f.lines.getLast some', (f.short _ last).1.1, ?_⟩
    have shape : f.before ++ (f.proxy.line :: f.after).dropLast = f.lines.dropLast := by
      unfold ProxyFile.lines
      rw [List.dropLast_append_of_ne_nil (List.cons_ne_nil _ _)]
    have joined : List.intercalate ['\n'] f.lines ++ ['\n'] =
        f.lines.dropLast.flatMap (· ++ RCReader.endl) ++ f.lines.getLast some' ++ ['\n'] := by
      rw [intercalate_newline some']
      conv_lhs => rw [← List.dropLast_append_getLast some']
      simp [RCReader.endl]
    rw [if_neg Bool.false_ne_true, if_neg Bool.false_ne_true, List.append_nil, shape]
    exact List.append_cancel_right joined

theorem complete_short (f : ProxyFile) : ∀ line ∈ f.complete, Fits line := by
  intro line member
  have inside : line ∈ f.lines := by
    unfold ProxyFile.complete at member
    unfold ProxyFile.lines
    rcases List.mem_append.mp member with front | behind
    · exact List.mem_append_left _ front
    · split at behind
      · exact List.mem_append_right _ behind
      · exact List.mem_append_right _ (List.mem_of_mem_dropLast behind)
  obtain ⟨onLine, short⟩ := f.short line inside
  exact ⟨onLine, by omega⟩

/-- The complete lines are read, one after the other. -/
theorem readRcFile_eq (r : RCReader) (f : ProxyFile) : r.readRcFile (some f.text) =
    (f.complete.foldlM RCReader.readLine r).map fun r => (r, true) := by
  obtain ⟨rest, inside, shape⟩ := text_eq f
  unfold RCReader.readRcFile
  dsimp only
  rw [shape, readLines_run r (complete_short f) rest]
  cases f.complete.foldlM RCReader.readLine r with
  | error failure => rfl
  | ok r' =>
    show (r'.readLines (.ofList rest) >>= fun r => pure (r, true)) = .ok (r', true)
    rw [readLines_last r' inside]
    rfl

/-- The settings are those of the line. -/
def ReadAsWritten (f : ProxyFile) : Prop :=
  ∀ r : RCReader, ∃ r', r.readRcFile (some f.text) = .ok (r', true) ∧
    r'.proxyServerUserpw = f.proxy.userpw.getD [] ∧ r'.proxyServerHost = f.proxy.host ∧
    r'.proxyServerPort.toInt = f.proxy.port.getD 80

/-- There is no `@` in the name and the password, a newline is behind the line of the proxy
server, and no complete line names an empty directory for the cache. -/
def Readable (f : ProxyFile) : Prop :=
  (∀ u ∈ f.proxy.userpw, '@' ∉ u) ∧ (f.newline = true ∨ f.after ≠ []) ∧
    "CACHE_ROOT=".toList ∉ f.complete

/-- The proxy server's line among the complete ones. -/
theorem complete_eq {f : ProxyFile} (ended : f.newline = true ∨ f.after ≠ []) :
    ∃ rest, f.complete = f.before ++ f.proxy.line :: rest ∧ ∀ line ∈ rest, line ∈ f.after := by
  unfold ProxyFile.complete
  split
  · exact ⟨f.after, rfl, fun _ => id⟩
  · next open' =>
    have some' : f.after ≠ [] := ended.resolve_left open'
    refine ⟨f.after.dropLast, ?_, fun _ => List.mem_of_mem_dropLast⟩
    rw [List.dropLast_cons_of_ne_nil some']

theorem complete_open {f : ProxyFile} (open' : ¬(f.newline = true ∨ f.after ≠ [])) :
    f.complete = f.before := by
  obtain ⟨none', empty⟩ := not_or.mp open'
  unfold ProxyFile.complete
  rw [if_neg none', not_not.mp empty]
  simp

theorem readLine_proxy (r : RCReader) (f : ProxyForm) : r.readLine f.line =
    .ok ({ r with proxyServerProtocol := "http".toList }.readMachine
      (address f.userpw f.host f.port)) := by
  rw [← readProxyServer_form]
  exact readLine_token r (by decide : '=' ∉ "PROXY_SERVER".toList) f.text

/-- What is read of the proxy server is what its line says. -/
theorem complete_read {f : ProxyFile} (ended : f.newline = true ∨ f.after ≠ [])
    (root : "CACHE_ROOT=".toList ∉ f.complete) (r : RCReader) :
    ∃ r₁ r', f.complete.foldlM RCReader.readLine r = .ok r' ∧
      SameProxy (RCReader.readMachine r₁
        (address f.proxy.userpw f.proxy.host f.proxy.port)) r' := by
  obtain ⟨rest, shape, behind⟩ := complete_eq ended
  rw [shape] at root ⊢
  have front : "CACHE_ROOT=".toList ∉ f.before := fun member =>
    root (List.mem_append_left _ member)
  have tail : "CACHE_ROOT=".toList ∉ rest := fun member =>
    root (List.mem_append_right _ (List.mem_cons_of_mem _ member))
  obtain ⟨r₁, first, -⟩ := readLines_other r
    (fun line member => f.others line (List.mem_append_left _ member)) front
  obtain ⟨r', last, kept⟩ := readLines_other
    ({ r₁ with proxyServerProtocol := "http".toList }.readMachine
      (address f.proxy.userpw f.proxy.host f.proxy.port))
    (fun line member => f.others line (List.mem_append_right _ (behind line member)))
    tail
  refine ⟨_, r', ?_, kept⟩
  rw [List.foldlM_append, first]
  show (f.proxy.line :: rest).foldlM RCReader.readLine r₁ = .ok r'
  rw [List.foldlM_cons, readLine_proxy]
  exact last

theorem port_toInt {port : Option Nat} (isPort : ∀ n ∈ port, IsPort n) :
    (port.elim (80 : Int32) fun n => Int32.ofNat n).toInt = port.getD 80 := by
  cases port with
  | none => rfl
  | some n =>
    have high := (isPort n rfl).2
    exact Int32.toInt_ofNat_of_lt (by omega)

theorem foldlM_fails {lines : List Chars} {line : Chars} (member : line ∈ lines)
    {failure : Failure} (fails : ∀ r : RCReader, r.readLine line = .error failure)
    (r r' : RCReader) : lines.foldlM RCReader.readLine r ≠ .ok r' := by
  induction lines generalizing r with
  | nil => cases member
  | cons first lines ih =>
    intro done
    rw [List.foldlM_cons] at done
    obtain ⟨r₁, read, rest⟩ := bind_success done
    rcases List.mem_cons.mp member with rfl | behind
    · cases (fails r).symm.trans read
    · exact ih behind r₁ rest

theorem readable_iff (f : ProxyFile) : ReadAsWritten f ↔ Readable f := by
  constructor
  · intro written
    obtain ⟨r', read, userpw, host, -⟩ := written .new
    rw [readRcFile_eq] at read
    have done : f.complete.foldlM RCReader.readLine .new = .ok r' := by
      cases run : f.complete.foldlM RCReader.readLine .new with
      | error failure =>
        rw [run] at read
        cases read
      | ok r'' =>
        rw [run] at read
        cases read
        rfl
    have root : "CACHE_ROOT=".toList ∉ f.complete := fun member =>
      foldlM_fails member readLine_root_empty _ _ done
    have ended : f.newline = true ∨ f.after ≠ [] := by
      by_contra open'
      have before := complete_open open'
      rw [before] at root done
      obtain ⟨r'', done', kept⟩ := readLines_other .new
        (fun line member => f.others line (List.mem_append_left _ member)) root
      cases done.symm.trans done'
      exact f.proxy.isHost.some' (host.symm.trans kept.host)
    refine ⟨?_, ended, root⟩
    intro u user member
    obtain ⟨r₁, r'', done', kept⟩ := complete_read ended root .new
    cases done.symm.trans done'
    have early := readMachine_early r₁ member
      (f.proxy.host ++ f.proxy.port.elim [] fun n => ':' :: decimal n)
    have shape : address f.proxy.userpw f.proxy.host f.proxy.port =
        u ++ '@' :: (f.proxy.host ++ f.proxy.port.elim [] fun n => ':' :: decimal n) := by
      rw [show f.proxy.userpw = some u from user]
      simp [address]
    rw [← shape, ← kept.userpw, userpw, show f.proxy.userpw = some u from user] at early
    exact early rfl
  · rintro ⟨plain, ended, root⟩ r
    obtain ⟨r₁, r', done, kept⟩ := complete_read ended root r
    have form := readMachine_form r₁ plain f.proxy.isHost f.proxy.isPort
    rw [form] at kept
    refine ⟨r', ?_, kept.userpw, kept.host, ?_⟩
    · rw [readRcFile_eq, done]
      rfl
    · rw [kept.port]
      exact port_toInt f.proxy.isPort

end Libdap.Guarantees.ProxySettings
