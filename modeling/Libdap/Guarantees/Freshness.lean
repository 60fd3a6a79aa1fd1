import Libdap.Guarantees.DateRoundTrip
import Libdap.Source.HTTPCacheValidity

/-!
# Freshness and the response headers

The lifetime of `max-age=N` is looked for behind the wrong text, so that the whole value goes
to `parse_time`, which takes it for a date it cannot read: the lifetime is 0. The number of an
Age header is taken for a time from now on.
-/
namespace Libdap.Guarantees.Freshness
open Libdap.Source Libdap.Source.HTTPCacheTable Libdap.Source.HTTPCacheValidity
open Libdap.Source.UtilMit (Calendar parseTime scanned strtol ctime skipBlanks delta)
open Libdap.Source.ErrorText (cStr isDigit digitsValue)
open Libdap.Source.HTTPCacheIndex (isSpace sign signed)
open DateRoundTrip
open HTTPCacheIndex (isSpace_of_digit)
open HTTPCacheLocks (field_ite)

/-- The name of a header line, the part in front of its first colon. -/
def named (name : String) (line : Chars) : Prop :=
  (findText [':'] line).map (line.take ·) = some name.toList

instance (name : String) : DecidablePred (named name) :=
  fun _ => inferInstanceAs (Decidable (_ = _))

def headerLine (name : String) (value : Chars) : Chars := name.toList ++ ':' :: ' ' :: value

def maxAgeValue (digits : Chars) : Chars := "max-age=".toList ++ digits

/-- Every header of this name is this line, and there is one. -/
def Only (name : String) (line : Chars) (headers : List Chars) : Prop :=
  line ∈ headers ∧ ∀ l ∈ headers, named name l → l = line

/-- A number as it stands in a header. -/
structure Number (digits : Chars) : Prop where
  all : ∀ d ∈ digits, isDigit d = true
  nonempty : digits ≠ []

/-- The Age headers: none, or one with this number. -/
def AgeIs (headers : List Chars) : Option Chars → Prop
  | none => ∀ l ∈ headers, ¬ named "Age" l
  | some digits => Number digits ∧ Only "Age" (headerLine "Age" digits) headers

/-! ## Finding the name and the value of a header -/

theorem findText_at {what text : Chars} {i : Nat} (bound : i ≤ text.length)
    (here : what.isPrefixOf (text.drop i) = true)
    (first : ∀ j, j < i → what.isPrefixOf (text.drop j) = false) : findText what text = some i := by
  unfold findText
  rw [List.find?_range_eq_some]
  refine ⟨here, List.mem_range.mpr (by omega), fun j earlier => ?_⟩
  rw [first j earlier]
  rfl

/-- A text that begins with a character which there is not in front of it. -/
theorem findText_behind {c : Char} (what : Chars) {front rest : Chars} (absent : c ∉ front) :
    findText (c :: what) (front ++ (c :: what ++ rest)) = some front.length := by
  refine findText_at ?_ ?_ fun j earlier => ?_
  · rw [List.length_append]
    omega
  · rw [List.drop_left]
    exact List.isPrefixOf_iff_prefix.mpr (List.prefix_append _ _)
  · have other : c ≠ front[j] := fun same => absent (same ▸ List.getElem_mem earlier)
    rw [List.drop_append_of_le_length (by omega), List.drop_eq_getElem_cons earlier,
      List.cons_append, List.isPrefixOf, beq_eq_false_iff_ne.mpr other, Bool.false_and]

theorem headerLine_colon {name : String} (plain : ':' ∉ name.toList) (value : Chars) :
    findText [':'] (headerLine name value) = some name.toList.length :=
  findText_behind [] plain

theorem headerLine_blank {name : String} (plain : ':' ∉ name.toList) (value : Chars) :
    findText [':', ' '] (headerLine name value) = some name.toList.length :=
  findText_behind [' '] plain

theorem maxAge_found (digits : Chars) :
    (findText "max-age".toList (maxAgeValue digits)).isSome = true := by
  rw [findText_at (Nat.zero_le _) rfl nofun]
  rfl

/-! ## What one header does -/

variable (lib : Parsing) (maxEntrySize : Nat) (e : CacheEntry)

theorem parseHeader_control (digits : Chars) :
    parseHeader lib maxEntrySize e (headerLine "Cache-Control" (maxAgeValue digits)) =
      { e with maxAge := lib.parseTime (maxAgeValue digits) } := by
  unfold parseHeader
  rw [headerLine_colon (by decide), headerLine_blank (by decide)]
  dsimp only [Option.map_some, Option.getD_some]
  have name : (headerLine "Cache-Control" (maxAgeValue digits)).take
      "Cache-Control".toList.length = "Cache-Control".toList := List.take_left
  have value : (headerLine "Cache-Control" (maxAgeValue digits)).drop
      ("Cache-Control".toList.length + 2) = maxAgeValue digits := rfl
  have other : ¬ (maxAgeValue digits = "no-cache".toList ∨
      maxAgeValue digits = "no-store".toList) := by
    rintro (same | same) <;> cases same
  have revalidate : ¬ maxAgeValue digits = "must-revalidate".toList := fun same => by
    have second := congrArg (·[1]?) same
    cases second
  rw [name, value, if_neg (by decide), if_neg (by decide), if_neg (by decide), if_neg (by decide),
    if_neg (by decide), if_neg (by decide), if_pos rfl, if_neg other, if_neg revalidate,
    if_pos (maxAge_found digits)]

theorem parseHeader_age (digits : Chars) :
    parseHeader lib maxEntrySize e (headerLine "Age" digits) =
      { e with age := lib.parseTime digits } := by
  unfold parseHeader
  rw [headerLine_colon (by decide), headerLine_blank (by decide)]
  dsimp only [Option.map_some, Option.getD_some]
  have name : (headerLine "Age" digits).take "Age".toList.length = "Age".toList := List.take_left
  have value : (headerLine "Age" digits).drop ("Age".toList.length + 2) = digits := rfl
  rw [name, value, if_neg (by decide), if_neg (by decide), if_neg (by decide), if_neg (by decide),
    if_pos rfl]

theorem parseHeader_uncontrolled {line : Chars} (other : ¬ named "Cache-Control" line) :
    (parseHeader lib maxEntrySize e line).maxAge = e.maxAge ∧
      (parseHeader lib maxEntrySize e line).mustRevalidate = e.mustRevalidate := by
  unfold named at other
  unfold parseHeader
  split
  · exact ⟨rfl, rfl⟩
  · next colon found =>
      rw [found, Option.map_some, Option.some.injEq] at other
      dsimp only
      rw [if_neg (c := line.take colon = "Cache-Control".toList) other]
      exact ⟨field_ite rfl (field_ite rfl (field_ite rfl (field_ite rfl (field_ite rfl
          (field_ite (field_ite rfl rfl) rfl))))),
        field_ite rfl (field_ite rfl (field_ite rfl (field_ite rfl (field_ite rfl
          (field_ite (field_ite rfl rfl) rfl)))))⟩

theorem parseHeader_ageless {line : Chars} (other : ¬ named "Age" line) :
    (parseHeader lib maxEntrySize e line).age = e.age := by
  unfold named at other
  unfold parseHeader
  split
  · rfl
  · next colon found =>
      rw [found, Option.map_some, Option.some.injEq] at other
      dsimp only
      rw [if_neg (c := line.take colon = "Age".toList) other]
      exact field_ite rfl (field_ite rfl (field_ite rfl (field_ite rfl
        (field_ite (field_ite rfl rfl)
          (field_ite (field_ite rfl (field_ite rfl (field_ite rfl rfl))) rfl)))))

/-! ## All the headers -/

variable {lib maxEntrySize}

/-- What only one line writes, and always the same, is so in the end. -/
theorem foldl_written {γ : Type} (step : CacheEntry → Chars → CacheEntry) (line : Chars)
    (field : CacheEntry → γ) {value : γ} (writes : ∀ e, field (step e line) = value)
    {lines : List Chars} (others : ∀ e, ∀ l ∈ lines, l ≠ line → field (step e l) = field e)
    (e : CacheEntry) (there : line ∈ lines ∨ field e = value) :
    field (lines.foldl step e) = value := by
  induction lines generalizing e with
  | nil => exact there.resolve_left List.not_mem_nil
  | cons l rest ih =>
    refine ih (fun e l member => others e l (List.mem_cons_of_mem _ member)) (step e l) ?_
    by_cases here : l = line
    · rw [here]
      exact .inr (writes e)
    · rw [others e l List.mem_cons_self here]
      rcases there with inside | already
      · exact .inl ((List.mem_cons.mp inside).resolve_left (Ne.symm here))
      · exact .inr already

theorem foldl_kept {γ : Type} (step : CacheEntry → Chars → CacheEntry) (field : CacheEntry → γ)
    {lines : List Chars} (keeps : ∀ e, ∀ l ∈ lines, field (step e l) = field e) (e : CacheEntry) :
    field (lines.foldl step e) = field e := by
  induction lines generalizing e with
  | nil => rfl
  | cons l rest ih =>
    exact (ih (fun e l member => keeps e l (List.mem_cons_of_mem _ member)) (step e l)).trans
      (keeps e l List.mem_cons_self)

/-! ## The two numbers -/

variable (cal : Calendar) (now : Int)

theorem cStr_digits {digits : Chars} (all : ∀ d ∈ digits, isDigit d = true) :
    cStr digits = digits := by
  refine List.takeWhile_eq_self_iff.mpr fun d member => decide_eq_true ?_
  rintro rfl
  exact absurd (all _ member) (by decide)

theorem digits_without {digits : Chars} (all : ∀ d ∈ digits, isDigit d = true) {c : Char}
    (other : isDigit c = false) : c ∉ digits := by
  intro member
  rw [all c member] at other
  cases other

/-- A number that nothing follows. -/
theorem strtol_number {digits : Chars} (number : Number digits) :
    strtol digits = (min (2 ^ 63 - 1) (digitsValue digits : Int), []) := by
  obtain ⟨d, tail, rfl⟩ := List.exists_cons_of_ne_nil number.nonempty
  have digit := number.all d List.mem_cons_self
  have front : (d :: tail).dropWhile isSpace = d :: tail :=
    List.dropWhile_cons_of_neg (by rw [isSpace_of_digit digit]; exact Bool.false_ne_true)
  unfold strtol
  rw [front, sign_digit digit]
  dsimp only
  rw [List.takeWhile_eq_self_iff.mpr number.all, List.dropWhile_eq_nil_iff.mpr number.all,
    if_neg number.nonempty]
  unfold signed
  rw [if_neg Bool.false_ne_true, max_eq_right (by omega)]

/-- The time so many seconds from now on, in a `time_t`. -/
def fromNow (now : Int) (seconds : Nat) : Int :=
  (now + min (2 ^ 63 - 1) (seconds : Int) + 2 ^ 63) % 2 ^ 64 - 2 ^ 63

/-- The time an Age header is taken for. -/
theorem parseTime_number {digits : Chars} (number : Number digits) :
    parseTime cal now digits true =
      some (fromNow now (digitsValue digits)) := by
  obtain ⟨d, tail, shape⟩ := List.exists_cons_of_ne_nil number.nonempty
  have digit : ((digits.head?.map isDigit).getD false) = true := by
    rw [shape]
    exact number.all d (by rw [shape]; exact List.mem_cons_self)
  unfold parseTime
  rw [if_neg (digits_without number.all rfl), if_pos digit,
    if_neg (digits_without number.all rfl), delta, if_pos rfl, strtol_number number]
  rfl

/-- No date begins with max-age. -/
theorem parseTime_maxAge {digits : Chars} (all : ∀ d ∈ digits, isDigit d = true) :
    parseTime cal now (maxAgeValue digits) true = some 0 := by
  have noComma : ',' ∉ maxAgeValue digits := by
    intro member
    rcases List.mem_append.mp member with front | digit
    · exact absurd front (by decide)
    · exact digits_without all rfl digit
  obtain ⟨tm, scan, dayless⟩ : ∃ tm, ctime (maxAgeValue digits) = some tm ∧ tm.mday = 0 :=
    ⟨_, rfl, rfl⟩
  have blanks : skipBlanks (maxAgeValue digits) = maxAgeValue digits := rfl
  unfold parseTime
  rw [if_neg noComma, if_neg (by exact Bool.false_ne_true), blanks]
  unfold scanned
  rw [scan, Option.map_some, checked_dayless dayless, ite_self]

/-! ## The times of an entry -/

variable {cal now} {anything : Chars → Int} {strtoul : Chars → Nat} {maxEntrySize : Nat}
  {headers : List Chars} {digits : Chars}

theorem parseHeaders_maxAge (number : Number digits)
    (control : Only "Cache-Control" (headerLine "Cache-Control" (maxAgeValue digits)) headers)
    (e : CacheEntry) :
    (parseHeaders (reading cal now anything strtoul) maxEntrySize e headers).maxAge = 0 := by
  have read : (reading cal now anything strtoul).parseTime (maxAgeValue digits) = 0 := by
    have text : cStr (maxAgeValue digits) = maxAgeValue digits := by
      unfold maxAgeValue cStr
      rw [List.takeWhile_append_of_pos (List.all_eq_true.mp (by decide))]
      exact congrArg _ (cStr_digits number.all)
    unfold reading
    dsimp only
    rw [text, parseTime_maxAge cal now number.all]
    rfl
  refine foldl_written _ _ CacheEntry.maxAge (fun e => ?_) (fun e l member other => ?_) e
    (.inl control.1)
  · rw [parseHeader_control]
    exact read
  · exact (parseHeader_uncontrolled _ _ e fun name => other (control.2 l member name)).1

theorem parseHeaders_mustRevalidate {lib : Parsing}
    (control : Only "Cache-Control" (headerLine "Cache-Control" (maxAgeValue digits)) headers)
    (e : CacheEntry) :
    (parseHeaders lib maxEntrySize e headers).mustRevalidate = e.mustRevalidate := by
  refine foldl_kept _ CacheEntry.mustRevalidate (fun e l member => ?_) e
  by_cases name : named "Cache-Control" l
  · rw [control.2 l member name, parseHeader_control]
  · exact (parseHeader_uncontrolled _ _ e name).2

/-- What an Age header is taken for; without one the entry keeps the age it had. -/
def ageRead (now had : Int) : Option Chars → Int
  | none => had
  | some digits => fromNow now (digitsValue digits)

theorem parseHeaders_age {age : Option Chars} (ages : AgeIs headers age) (e : CacheEntry) :
    (parseHeaders (reading cal now anything strtoul) maxEntrySize e headers).age =
      ageRead now e.age age := by
  cases age with
  | none =>
    exact foldl_kept _ CacheEntry.age (fun e l member => parseHeader_ageless _ _ e (ages l member))
      e
  | some digits =>
    have ⟨number, only⟩ := ages
    refine foldl_written _ _ CacheEntry.age (fun e => ?_) (fun e l member other => ?_) e
      (.inl only.1)
    · rw [parseHeader_age]
      unfold reading
      dsimp only
      rw [cStr_digits number.all, parseTime_number cal now number]
      rfl
    · exact parseHeader_ageless _ _ e fun name => other (only.2 l member name)

/-- The entry after these headers. -/
def timed (lib : Parsing) (maxEntrySize : Nat) (defaultExpiration requestTime responseTime : Int)
    (headers : List Chars) (e : CacheEntry) : CacheEntry :=
  calculateTime defaultExpiration requestTime responseTime
    (parseHeaders lib maxEntrySize e headers)

/-- What the headers say of the entry: the lifetime, the age between its bounds, and fresh as
long as the one exceeds the other. -/
structure Follows (lifetime age requestTime : Int) (e : CacheEntry) : Prop where
  freshness : e.freshnessLifetime = lifetime
  low : max age 0 ≤ e.correctedInitialAge
  high : e.correctedInitialAge ≤
    max (max age (e.responseTime - e.date)) 0 + (e.responseTime - requestTime)
  valid : ∀ now url t, t.find url = some e → isUrlValid false .absent now url t =
    .ok (decide (lifetime > e.correctedInitialAge + (now - e.responseTime)))

/-- The number of an Age header, -1 without one. -/
def ageSent : Option Chars → Int
  | none => -1
  | some digits => digitsValue digits

/-- The age since the Date header goes through an `int`, and the number of an Age header has
the time added to it, in 64 bits. Without one the age from before counts. -/
def AgeRight (now had requestTime responseTime date : Int) : Option Chars → Prop
  | none => max had (toInt (responseTime - date)) ≤ max (responseTime - date) 0
  | some digits =>
    toInt (responseTime - date) ≤ max (digitsValue digits : Int) (responseTime - date) ∧
      if now + digitsValue digits < 2 ^ 63 then
        now + digitsValue digits ≤ max (digitsValue digits : Int) (responseTime - date)
      else digitsValue digits ≤ max (toInt (responseTime - date)) 0 + (responseTime - requestTime)

/-- The age part of it. -/
theorem age_iff {now requestTime responseTime : Int} (had date : Int) (time : 0 < now)
    (range : now < 2 ^ 63) (ordered : requestTime ≤ responseTime) (age : Option Chars) :
    (max (ageSent age) 0 ≤
        max (max 0 (toInt (responseTime - date))) (ageRead now had age) +
          (responseTime - requestTime) ∧
      max (max 0 (toInt (responseTime - date))) (ageRead now had age) +
          (responseTime - requestTime) ≤
        max (max (ageSent age) (responseTime - date)) 0 + (responseTime - requestTime)) ↔
      AgeRight now had requestTime responseTime date age := by
  cases age with
  | none =>
    simp only [ageSent, ageRead, AgeRight]
    omega
  | some digits =>
    simp only [ageSent, ageRead, AgeRight]
    generalize toInt (responseTime - date) = since
    split
    · next small =>
        have taken : fromNow now (digitsValue digits) = now + digitsValue digits := by
          unfold fromNow
          omega
        rw [taken]
        omega
    · next large =>
        have wrapped : fromNow now (digitsValue digits) < 0 := by
          unfold fromNow
          omega
        omega

theorem isFresh_absent {e : CacheEntry} (free : e.mustRevalidate = false) (now : Int) :
    isFresh .absent now e = decide (e.freshnessLifetime > e.correctedInitialAge +
      (now - e.responseTime)) := by
  unfold isFresh Directives.absent
  rw [if_neg (by rw [free]; exact Bool.false_ne_true)]
  dsimp only
  rw [if_neg (by omega), if_neg (by omega), if_neg (by omega), Int.add_zero]

theorem isFresh_revalidate {e : CacheEntry} (must : e.mustRevalidate = true) (d : Directives)
    (now : Int) : isFresh d now e = false := by
  unfold isFresh
  rw [if_pos must]

/-- There is a table that the entry is found in. -/
theorem exists_table (e : CacheEntry) : ∃ t : Table, t.find e.url = some e := by
  refine ⟨{ Table.empty 1 with slots := List.replicate cacheTableSize [some e] }, ?_⟩
  unfold Table.find
  rw [List.getElem?_replicate, if_pos (HTTPCacheTable.getHash_lt e.url)]
  simp

/-- An entry that must be revalidated is never fresh, whatever its lifetime. -/
theorem follows_free {lifetime age requestTime : Int} {e : CacheEntry}
    (follows : Follows lifetime age requestTime e) : e.mustRevalidate = false := by
  by_contra must
  obtain ⟨t, found⟩ := exists_table e
  have answer := follows.valid (e.responseTime - e.correctedInitialAge + lifetime - 1) e.url t found
  unfold isUrlValid at answer
  rw [if_neg Bool.false_ne_true, found] at answer
  dsimp only at answer
  rw [isFresh_revalidate (Bool.eq_true_of_not_eq_false must), Except.ok.injEq] at answer
  have late := of_decide_eq_false answer.symm
  omega

theorem calculateTime_follows_iff {p : CacheEntry} {now had requestTime responseTime : Int}
    {age : Option Chars} (lifeless : p.maxAge = 0) (aged : p.age = ageRead now had age)
    (defaultExpiration : Int) (lifetime : Nat) (time : 0 < now) (range : now < 2 ^ 63)
    (ordered : requestTime ≤ responseTime) :
    Follows lifetime (ageSent age) requestTime
        (calculateTime defaultExpiration requestTime responseTime p) ↔
      lifetime = 0 ∧ p.mustRevalidate = false ∧
        AgeRight now had requestTime responseTime p.date age := by
  have ages := age_iff had p.date time range ordered age
  have freshness :
      (calculateTime defaultExpiration requestTime responseTime p).freshnessLifetime = 0 := by
    unfold calculateTime
    dsimp only
    rw [lifeless, if_neg (by decide)]
    rfl
  have initial :
      (calculateTime defaultExpiration requestTime responseTime p).correctedInitialAge =
        max (max 0 (toInt (responseTime - p.date))) (ageRead now had age) +
          (responseTime - requestTime) := by
    rw [← aged]
    rfl
  have response :
      (calculateTime defaultExpiration requestTime responseTime p).responseTime =
        responseTime := rfl
  have date : (calculateTime defaultExpiration requestTime responseTime p).date = p.date := rfl
  have stays : (calculateTime defaultExpiration requestTime responseTime p).mustRevalidate =
      p.mustRevalidate := rfl
  generalize calculateTime defaultExpiration requestTime responseTime p = e at *
  constructor
  · intro follows
    have low := follows.low
    have high := follows.high
    rw [initial] at low high
    rw [response, date] at high
    have none_left := follows.freshness
    rw [freshness] at none_left
    rw [← stays]
    exact ⟨by omega, follows_free follows, ages.mp ⟨low, high⟩⟩
  · intro right
    have bounds := ages.mpr right.2.2
    have lifetime_zero : (lifetime : Int) = 0 := by omega
    constructor
    · rw [freshness, lifetime_zero]
    · rw [initial]
      exact bounds.1
    · rw [initial, response, date]
      exact bounds.2
    · intro now url t found
      unfold isUrlValid
      rw [if_neg Bool.false_ne_true, found]
      dsimp only
      rw [isFresh_absent (stays.trans right.2.1), freshness, lifetime_zero]

/-- An entry follows its headers exactly where the lifetime is 0, it need not be revalidated
by what was read before, and the ages are right. -/
theorem follows_iff (cal : Calendar) (now : Int) (anything : Chars → Int)
    (strtoul : Chars → Nat) (maxEntrySize : Nat) (defaultExpiration requestTime responseTime : Int)
    (headers : List Chars) (digits : Chars) (age : Option Chars) (e : CacheEntry)
    (number : Number digits)
    (control : Only "Cache-Control" (headerLine "Cache-Control" (maxAgeValue digits)) headers)
    (ages : AgeIs headers age) (time : 0 < now) (range : now < 2 ^ 63)
    (ordered : requestTime ≤ responseTime) :
    Follows (digitsValue digits) (ageSent age) requestTime
        (timed (reading cal now anything strtoul) maxEntrySize defaultExpiration requestTime
          responseTime headers e) ↔
      digitsValue digits = 0 ∧ e.mustRevalidate = false ∧
        AgeRight now e.age requestTime responseTime
          (parseHeaders (reading cal now anything strtoul) maxEntrySize e headers).date age := by
  rw [← parseHeaders_mustRevalidate control e]
  exact calculateTime_follows_iff (parseHeaders_maxAge number control e) (parseHeaders_age ages e)
    defaultExpiration _ time range ordered

/-! ## One hour -/

def hour : Chars := headerLine "Cache-Control" (maxAgeValue "3600".toList)

def hourHeaders : List Chars := [hour, headerLine "Age" "5".toList]

theorem hour_number : Number "3600".toList := ⟨List.all_eq_true.mp (by decide), by decide⟩

theorem hour_control : Only "Cache-Control" hour hourHeaders := by
  refine ⟨List.mem_cons_self, fun l member name => ?_⟩
  rcases List.mem_cons.mp member with here | other
  · exact here
  · rw [List.mem_singleton.mp other] at name
    exact absurd name (by decide)

theorem hour_age : AgeIs hourHeaders (some "5".toList) := by
  refine ⟨⟨List.all_eq_true.mp (by decide), by decide⟩,
    List.mem_cons_of_mem _ List.mem_cons_self, fun l member name => ?_⟩
  rcases List.mem_cons.mp member with here | other
  · rw [here] at name
    exact absurd name (by decide)
  · exact List.mem_singleton.mp other

/-- A new entry after these headers, at the time 1000. -/
def hourEntry : CacheEntry :=
  timed (reading gregorian 1000 (fun _ => 0) (fun _ => 0)) 100 0 1000 1000 hourHeaders
    (CacheEntry.make 0 [])

theorem follows_iff_hour :
    Follows (digitsValue "3600".toList) (ageSent (some "5".toList)) 1000 hourEntry ↔
      digitsValue "3600".toList = 0 ∧ (CacheEntry.make 0 []).mustRevalidate = false ∧
        AgeRight 1000 (CacheEntry.make 0 []).age 1000 1000
          (parseHeaders (reading gregorian 1000 (fun _ => 0) (fun _ => 0)) 100
            (CacheEntry.make 0 []) hourHeaders).date (some "5".toList) :=
  follows_iff gregorian 1000 _ _ 100 0 1000 1000 hourHeaders _ _ _ hour_number hour_control
    hour_age (by decide) (by decide) le_rfl

/-- A response that may be used for an hour is stale at once. -/
theorem follows_fails : Only "Cache-Control" hour hourHeaders ∧
    ¬ Follows 3600 (ageSent (some "5".toList)) 1000 hourEntry := by
  refine ⟨hour_control, fun follows => ?_⟩
  have right := (calculateTime_follows_iff (parseHeaders_maxAge hour_number hour_control _)
    (parseHeaders_age hour_age _) 0 3600 (by decide) (by decide) le_rfl).mp follows
  exact absurd right.1 (by decide)

end Libdap.Guarantees.Freshness
