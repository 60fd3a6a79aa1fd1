import Libdap.Guarantees.DateBounds
import Libdap.Guarantees.HTTPCacheIndex
import Libdap.Library.Calendar

/-!
# Dates parse back

The RFC 1123 text of a time is read back up to the year 2020; from 2021 on the year counts as
illegal. The scanner takes the weekday of a `ctime` text for its month, and then finds no day.
It takes the two digits of an RFC 850 year as they are, so that they mean the years from 1970
to 1999 only.
-/
namespace Libdap.Guarantees.DateRoundTrip
open Libdap.Source.UtilMit
open Libdap.Source.HTTPCacheTable (Chars toInt)
open Libdap.Source.ErrorText (decimal isDigit digitsValue)
open Libdap.Source.HTTPCacheIndex (isSpace sign signed)
open Libdap.Library.Calendar
open ErrorRoundTrip (decimal_digits decimal_ne_nil decimal_value)
open HTTPCacheIndex (isSpace_of_digit takeWhile_stop dropWhile_stop)

/-! ## Numbers -/

theorem toInt_small {n : Int} (low : -2 ^ 31 ≤ n) (high : n < 2 ^ 31) : toInt n = n := by
  unfold toInt
  omega

theorem sign_digit {d : Char} (digit : isDigit d = true) (text : Chars) :
    sign (d :: text) = (false, d :: text) := by
  unfold sign
  split
  · next same =>
      cases same
      cases digit
  · next same =>
      cases same
      cases digit
  · rfl

/-- A number behind white space, up to the character that ends it. -/
theorem strtol_digits (spaces : Chars) {digits rest : Chars} {c : Char}
    (white : ∀ s ∈ spaces, isSpace s = true) (all : ∀ d ∈ digits, isDigit d = true)
    (nonempty : digits ≠ []) (small : digitsValue digits < 2 ^ 63) (stop : isDigit c = false) :
    strtol (spaces ++ (digits ++ c :: rest)) =
      ((digitsValue digits : Int), c :: rest) := by
  obtain ⟨d, tail, rfl⟩ := List.exists_cons_of_ne_nil nonempty
  have digit := all d List.mem_cons_self
  have front : (spaces ++ (d :: tail ++ c :: rest)).dropWhile isSpace = d :: tail ++ c :: rest := by
    rw [List.cons_append]
    exact dropWhile_stop white (isSpace_of_digit digit)
  have signs : sign (d :: tail ++ c :: rest) = (false, d :: tail ++ c :: rest) := sign_digit digit _
  unfold strtol
  rw [front, signs]
  dsimp only
  rw [takeWhile_stop all stop, dropWhile_stop all stop, if_neg nonempty]
  unfold signed
  refine Prod.ext ?_ rfl
  dsimp only
  rw [if_neg Bool.false_ne_true]
  omega

/-- Neither a number nor what may stand in front of one. -/
def Wordy (c : Char) : Prop := isSpace c = false ∧ isDigit c = false ∧ c ≠ '-' ∧ c ≠ '+'

instance : DecidablePred Wordy := fun _ => inferInstanceAs (Decidable (_ ∧ _ ∧ _ ∧ _))

/-- The pointer stays where it is in front of a word. -/
theorem strtol_word (spaces rest : Chars) {c : Char} (white : ∀ s ∈ spaces, isSpace s = true)
    (word : Wordy c) : strtol (spaces ++ c :: rest) = (0, spaces ++ c :: rest) := by
  rcases word with ⟨dark, digit, minus, plus⟩
  have front : (spaces ++ c :: rest).dropWhile isSpace = c :: rest := dropWhile_stop white dark
  have signs : sign (c :: rest) = (false, c :: rest) := by
    unfold sign
    split
    · next same =>
        cases same
        exact absurd rfl minus
    · next same =>
        cases same
        exact absurd rfl plus
    · rfl
  unfold strtol
  rw [front, signs]
  dsimp only
  rw [List.takeWhile_cons_of_neg (by rw [digit]; exact Bool.false_ne_true), if_pos rfl]

theorem digitsValue_zeros (k : Nat) (digits : Chars) :
    digitsValue (List.replicate k '0' ++ digits) = digitsValue digits := by
  induction k with
  | zero => rfl
  | succ k ih =>
    rw [List.replicate_succ, List.cons_append]
    exact ih

theorem decimal_length {n k : Nat} (positive : 0 < k) (small : n < 10 ^ k) :
    (decimal n).length ≤ k := by
  unfold decimal
  split
  · exact positive
  · rw [List.length_map, List.length_reverse]
    exact (Nat.digits_length_le_iff (by decide) n).mpr small

variable {width : Nat} {n : Int}

theorem padded_digits (width : Nat) (n : Int) : ∀ d ∈ padded width '0' n, isDigit d = true := by
  intro d member
  rcases List.mem_append.mp member with zero | digit
  · rw [List.eq_of_mem_replicate zero]
    rfl
  · exact decimal_digits _ d digit

theorem padded_ne_nil (width : Nat) (n : Int) : padded width '0' n ≠ [] := by
  intro empty
  exact decimal_ne_nil n.toNat (List.append_eq_nil_iff.mp empty).2

theorem padded_length {fill : Char} (positive : 0 < width) (small : n.toNat < 10 ^ width) :
    (padded width fill n).length = width := by
  have short := decimal_length positive small
  unfold padded
  rw [List.length_append, List.length_replicate]
  omega

/-- A number that fits in an `int`, up to the character that ends it. -/
theorem strtol_padded (spaces : Chars) {rest : Chars} {c : Char} (width : Nat)
    (white : ∀ s ∈ spaces, isSpace s = true) (low : 0 ≤ n) (high : n < 2 ^ 31)
    (stop : isDigit c = false) :
    strtol (spaces ++ (padded width '0' n ++ c :: rest)) = (n, c :: rest) := by
  have value : digitsValue (padded width '0' n) = n.toNat := by
    unfold padded
    rw [digitsValue_zeros, decimal_value]
  rw [strtol_digits spaces white (padded_digits width n) (padded_ne_nil width n) (by omega) stop,
    value, Int.toNat_of_nonneg low]

/-! ## Names -/

theorem month_cases {mon : Int} (low : 0 ≤ mon) (high : mon < 12) :
    ∃ m : Fin 12, mon = (m : Nat) :=
  ⟨⟨mon.toNat, by omega⟩, (Int.toNat_of_nonneg low).symm⟩

/-- The name of a month, behind what is not a letter. -/
theorem makeMonth_month {tm : Tm} (low : 0 ≤ tm.mon) (high : tm.mon < 12) {c : Char}
    (other : c.isAlpha = false) (rest : Chars) :
    makeMonth (c :: (monthText tm ++ rest)) = some (tm.mon, rest) := by
  obtain ⟨m, same⟩ := month_cases low high
  unfold makeMonth
  rw [List.dropWhile_cons_of_pos (by rw [other]; rfl)]
  unfold monthText
  rw [same]
  fin_cases m <;> rfl

theorem blank_white : ∀ s ∈ [' '], isSpace s = true := by
  intro s member
  rw [List.mem_singleton.mp member]
  rfl

theorem strtol_first {rest : Chars} {c : Char} (width : Nat) (low : 0 ≤ n) (high : n < 2 ^ 31)
    (stop : isDigit c = false) : strtol (padded width '0' n ++ c :: rest) = (n, c :: rest) :=
  strtol_padded [] width (List.forall_mem_nil _) low high stop

theorem strtol_blank {rest : Chars} {c : Char} (width : Nat) (low : 0 ≤ n) (high : n < 2 ^ 31)
    (stop : isDigit c = false) :
    strtol (' ' :: (padded width '0' n ++ c :: rest)) = (n, c :: rest) :=
  strtol_padded [' '] width blank_white low high stop

/-! ## Times -/

/-- The fields of a time from 1970 on. -/
structure Civil (tm : Tm) : Prop where
  sec : 0 ≤ tm.sec ∧ tm.sec ≤ 59
  min : 0 ≤ tm.min ∧ tm.min ≤ 59
  hour : 0 ≤ tm.hour ∧ tm.hour ≤ 23
  mon : 0 ≤ tm.mon ∧ tm.mon ≤ 11
  mday : 1 ≤ tm.mday ∧ tm.mday ≤ monthLength (tm.year + 1900).toNat tm.mon.toNat
  year : 70 ≤ tm.year

/-- `gmtime` and `timegm` are inverse on the civil calendar up to the year 9999. -/
structure Inverse (cal : Calendar) : Prop where
  civil : ∀ t, 0 ≤ t → Civil (cal.gmtime t)
  wday : ∀ t, 0 ≤ t → cal.wday t < 7
  timegm_gmtime : ∀ t, 0 ≤ t → (cal.gmtime t).year ≤ 8099 → cal.timegm (cal.gmtime t) = t
  gmtime_timegm : ∀ tm, Civil tm → tm.year ≤ 8099 → cal.gmtime (cal.timegm tm) = tm
  epoch : cal.gmtime 0 = ⟨0, 0, 0, 1, 0, 70⟩

variable {tm : Tm} {cal : Calendar}

theorem Civil.mday_le (civil : Civil tm) : tm.mday ≤ 31 := by
  have last := monthLength_le (tm.year + 1900).toNat tm.mon.toNat
  have inside := civil.mday.2
  omega

/-- The fields but the year go through an `int` unchanged. -/
theorem toInt_fields (civil : Civil tm) (year : Int) :
    (⟨toInt tm.sec, toInt tm.min, toInt tm.hour, toInt tm.mday, tm.mon, year⟩ : Tm) =
      { tm with year } := by
  have ⟨sec, min, hour, _, mday, _⟩ := civil
  have last := civil.mday_le
  rw [toInt_small (by omega) (by omega), toInt_small (by omega) (by omega),
    toInt_small (by omega) (by omega), toInt_small (by omega) (by omega)]

theorem checked_legal (civil : Civil tm) (recent : tm.year ≤ 120) :
    checked cal tm = cal.timegm tm := by
  have ⟨sec, min, hour, mon, mday, year⟩ := civil
  have last := civil.mday_le
  unfold checked
  rw [if_neg (by omega)]

theorem checked_late (late : 120 < tm.year) : checked cal tm = 0 := by
  unfold checked
  rw [if_pos (by omega)]

theorem checked_early (early : tm.year < 70) : checked cal tm = 0 := by
  unfold checked
  rw [if_pos (by omega)]

/-! ## RFC 1123 -/

/-- What `date_time_str` prints behind the weekday. -/
def rfc1123Text (tm : Tm) : Chars :=
  padded 2 '0' tm.mday ++ ' ' :: (monthText tm ++ ' ' :: (padded 4 '0' (tm.year + 1900) ++
    ' ' :: (clockText tm ++ " GMT".toList)))

/-- What the clock leaves behind the hour, and behind the minute. -/
def minutes (tm : Tm) (rest : Chars) : Chars :=
  padded 2 '0' tm.min ++ ':' :: (padded 2 '0' tm.sec ++ rest)

theorem strtol_hour (civil : Civil tm) (rest : Chars) :
    strtol (' ' :: (clockText tm ++ rest)) = (tm.hour, ':' :: minutes tm rest) := by
  have ⟨_, _, hour, _, _, _⟩ := civil
  have shape : clockText tm ++ rest = padded 2 '0' tm.hour ++ ':' :: minutes tm rest := by
    simp only [clockText, minutes, List.append_assoc, List.cons_append]
  rw [shape, strtol_blank 2 (by omega) (by omega) rfl]

theorem strtol_minute (civil : Civil tm) (rest : Chars) :
    strtol (minutes tm rest) = (tm.min, ':' :: (padded 2 '0' tm.sec ++ rest)) := by
  have ⟨_, min, _, _, _, _⟩ := civil
  exact strtol_first 2 (by omega) (by omega) rfl

theorem strtol_second (civil : Civil tm) {c : Char} (rest : Chars) (stop : isDigit c = false) :
    strtol (padded 2 '0' tm.sec ++ c :: rest) = (tm.sec, c :: rest) := by
  have ⟨sec, _, _, _, _, _⟩ := civil
  exact strtol_first 2 (by omega) (by omega) stop

theorem rfc1123_text (civil : Civil tm) (year : tm.year ≤ 8099) :
    rfc1123 (rfc1123Text tm) = some tm := by
  have ⟨sec, min, hour, mon, mday, past⟩ := civil
  have last := civil.mday_le
  have tail : " GMT".toList = [' ', 'G', 'M', 'T'] := rfl
  unfold rfc1123 rfc1123Text
  rw [tail, strtol_first 2 (by omega) (by omega) rfl]
  dsimp only
  rw [makeMonth_month mon.1 (by omega) rfl]
  simp only [Option.bind_eq_bind, Option.bind_some]
  rw [strtol_blank 4 (by omega) (by omega) rfl]
  dsimp only
  rw [strtol_hour civil]
  simp only [next, Option.bind_some]
  rw [strtol_minute civil]
  simp only [Option.bind_some]
  rw [strtol_second civil _ rfl, Int.add_sub_cancel,
    toInt_small (n := tm.year) (by omega) (by omega)]
  exact congrArg some (toInt_fields civil tm.year)

theorem padded_without {c : Char} (other : isDigit c = false) (width : Nat) (n : Int) :
    c ∉ padded width '0' n := by
  intro member
  rw [padded_digits width n c member] at other
  cases other

/-- Member of a list of names, or nothing. -/
theorem getD_names {names : List Chars} {P : Chars → Prop} (empty : P [])
    (all : names.Forall P) (i : Nat) : P (names.getD i []) := by
  rw [List.getD_eq_getElem?_getD]
  cases found : names[i]? with
  | none => exact empty
  | some name => exact List.forall_iff_forall_mem.mp all name (List.mem_of_getElem? found)

theorem monthText_length (civil : Civil tm) : (monthText tm).length = 3 := by
  obtain ⟨m, same⟩ := month_cases civil.mon.1 (by have := civil.mon; omega)
  unfold monthText
  rw [same]
  fin_cases m <;> rfl

theorem monthText_alpha (tm : Tm) : ∀ c ∈ monthText tm, c.isAlpha = true := by
  exact List.all_eq_true.mp
    (getD_names (P := fun month => month.all Char.isAlpha = true) rfl (by decide) _)

theorem skipBlanks_padded (width : Nat) (n : Int) (rest : Chars) :
    skipBlanks (' ' :: (padded width '0' n ++ rest)) = padded width '0' n ++ rest := by
  obtain ⟨d, digits, shape⟩ := List.exists_cons_of_ne_nil (padded_ne_nil width n)
  have digit := padded_digits width n d (by rw [shape]; exact List.mem_cons_self)
  have dark : ¬ d = ' ' := by
    rintro rfl
    cases digit
  unfold skipBlanks
  rw [shape, List.cons_append, List.dropWhile_cons_of_pos (by decide),
    List.dropWhile_cons_of_neg (by simpa using dark)]

/-- A text behind a weekday and a comma. -/
theorem parseTime_comma {weekday : Chars} (noComma : ',' ∉ weekday) (width : Nat) (n : Int)
    (rest : Chars) (now : Int) (expand : Bool) :
    parseTime cal now (weekday ++ ',' :: ' ' :: (padded width '0' n ++ rest)) expand =
      if '-' ∈ padded width '0' n ++ rest then scanned cal 18 rfc850 (padded width '0' n ++ rest)
      else scanned cal 20 rfc1123 (padded width '0' n ++ rest) := by
  have all : ∀ c ∈ weekday, decide (c ≠ ',') = true := by
    intro c member
    apply decide_eq_true
    rintro rfl
    exact noComma member
  unfold parseTime
  rw [if_pos (List.mem_append_right _ List.mem_cons_self), dropWhile_stop all rfl]
  dsimp only [List.tail_cons]
  rw [skipBlanks_padded]

theorem scanned_long {shortest : Int} {format : Chars → Option Tm} {s : Chars} {tm : Tm}
    (long : shortest ≤ s.length) (small : s.length < 2 ^ 31) (found : format s = some tm) :
    scanned cal shortest format s = some (checked cal tm) := by
  unfold scanned
  rw [toInt_small (by omega) (by omega), if_neg (by omega), found]
  rfl

theorem clockText_length (civil : Civil tm) : (clockText tm).length = 8 := by
  have ⟨sec, min, hour, _, _, _⟩ := civil
  simp only [clockText, List.length_append, List.length_cons]
  rw [padded_length (by decide) (by omega), padded_length (by decide) (by omega),
    padded_length (by decide) (by omega)]

theorem clockText_without {c : Char} (other : isDigit c = false) (colon : c ≠ ':') (tm : Tm) :
    c ∉ clockText tm := by
  simp only [clockText, List.mem_append, List.mem_cons, not_or]
  exact ⟨padded_without other 2 _, colon, padded_without other 2 _, colon,
    padded_without other 2 _⟩

theorem monthText_without {c : Char} (other : c.isAlpha = false) (tm : Tm) : c ∉ monthText tm := by
  intro member
  rw [monthText_alpha tm c member] at other
  cases other

theorem rfc1123Text_length (civil : Civil tm) (year : tm.year ≤ 8099) :
    (rfc1123Text tm).length = 24 := by
  have ⟨_, _, _, _, mday, past⟩ := civil
  have last := civil.mday_le
  have tail : " GMT".toList.length = 4 := rfl
  simp only [rfc1123Text, List.length_append, List.length_cons, clockText_length civil,
    monthText_length civil, tail]
  rw [padded_length (by decide) (by omega), padded_length (by decide) (by omega)]

theorem rfc1123Text_dash (tm : Tm) : '-' ∉ rfc1123Text tm := by
  simp only [rfc1123Text, List.mem_append, List.mem_cons, not_or]
  exact ⟨padded_without rfl 2 _, by decide, monthText_without rfl tm, by decide,
    padded_without rfl 4 _, by decide, clockText_without rfl (by decide) tm, by decide⟩

theorem dateTimeStr_eq (cal : Calendar) (t : Int) :
    dateTimeStr cal t =
      wkdays.getD (cal.wday t) [] ++ ',' :: ' ' :: rfc1123Text (cal.gmtime t) := by
  have comma : ", ".toList = [',', ' '] := rfl
  simp only [dateTimeStr, rfc1123Text, comma, List.append_assoc, List.cons_append, List.nil_append]

theorem parseTime_dateTimeStr {t : Int} (civil : Civil (cal.gmtime t))
    (year : (cal.gmtime t).year ≤ 8099) (now : Int) (expand : Bool) :
    parseTime cal now (dateTimeStr cal t) expand = some (checked cal (cal.gmtime t)) := by
  have noComma : ',' ∉ wkdays.getD (cal.wday t) [] :=
    getD_names (P := (',' ∉ ·)) (by decide) (by decide) _
  have length := rfc1123Text_length civil year
  have dash := rfc1123Text_dash (cal.gmtime t)
  have scan := rfc1123_text civil year
  rw [dateTimeStr_eq]
  unfold rfc1123Text at length dash scan ⊢
  rw [parseTime_comma noComma, if_neg dash]
  exact scanned_long (by omega) (by omega) scan

/-! ## RFC 850 -/

def longWkdays : List Chars :=
  ["Sunday", "Monday", "Tuesday", "Wednesday", "Thursday", "Friday", "Saturday"].map String.toList

def rfc850Text (tm : Tm) : Chars :=
  padded 2 '0' tm.mday ++ '-' :: (monthText tm ++ '-' :: (padded 2 '0' (tm.year % 100) ++
    ' ' :: (clockText tm ++ " GMT".toList)))

/-- Weekday, dd-Mon-yy hh:mm:ss GMT. -/
def rfc850Str (cal : Calendar) (t : Int) : Chars :=
  longWkdays.getD (cal.wday t) [] ++ ',' :: ' ' :: rfc850Text (cal.gmtime t)

/-- The year with the same two digits in the hundred years from 1970 on. -/
def windowed (tm : Tm) : Tm :=
  { tm with year := if tm.year % 100 < 70 then tm.year % 100 + 100 else tm.year % 100 }

theorem windowed_civil (civil : Civil tm) : Civil (windowed tm) := by
  have ⟨sec, min, hour, mon, mday, past⟩ := civil
  have range : 70 ≤ (windowed tm).year ∧ (windowed tm).year < 170 ∧
      (windowed tm).year % 100 = tm.year % 100 := by
    unfold windowed
    dsimp only
    split <;> omega
  have century : leap (tm.year + 1900).toNat = true →
      leap ((windowed tm).year + 1900).toNat = true :=
    fun here => leap_century (by omega) here fun hundred => by omega
  have longer := monthLength_mono tm.mon.toNat century
  refine ⟨sec, min, hour, mon, ⟨mday.1, ?_⟩, range.1⟩
  change tm.mday ≤ monthLength ((windowed tm).year + 1900).toNat tm.mon.toNat
  omega

theorem rfc850_text (civil : Civil tm) :
    rfc850 (rfc850Text tm) = some { tm with year := tm.year % 100 } := by
  have ⟨sec, min, hour, mon, mday, past⟩ := civil
  have last := civil.mday_le
  have tail : " GMT".toList = [' ', 'G', 'M', 'T'] := rfl
  unfold rfc850 rfc850Text
  rw [tail, strtol_first 2 (by omega) (by omega) rfl]
  dsimp only
  rw [makeMonth_month mon.1 (by omega) rfl]
  simp only [Option.bind_eq_bind, Option.bind_some, next]
  rw [strtol_first 2 (by omega) (by omega) rfl]
  dsimp only
  rw [strtol_hour civil]
  simp only [Option.bind_some]
  rw [strtol_minute civil]
  simp only [Option.bind_some]
  rw [strtol_second civil _ rfl, toInt_small (n := tm.year % 100) (by omega) (by omega)]
  exact congrArg some (toInt_fields civil (tm.year % 100))

theorem rfc850Text_length (civil : Civil tm) : (rfc850Text tm).length = 22 := by
  have ⟨_, _, _, _, mday, past⟩ := civil
  have last := civil.mday_le
  have tail : " GMT".toList.length = 4 := rfl
  simp only [rfc850Text, List.length_append, List.length_cons, clockText_length civil,
    monthText_length civil, tail]
  rw [padded_length (by decide) (by omega), padded_length (by decide) (by omega)]

theorem parseTime_rfc850Str {t : Int} (civil : Civil (cal.gmtime t)) (now : Int) (expand : Bool) :
    parseTime cal now (rfc850Str cal t) expand =
      some (checked cal { cal.gmtime t with year := (cal.gmtime t).year % 100 }) := by
  have noComma : ',' ∉ longWkdays.getD (cal.wday t) [] :=
    getD_names (P := (',' ∉ ·)) (by decide) (by decide) _
  have length := rfc850Text_length civil
  have scan := rfc850_text civil
  unfold rfc850Str
  unfold rfc850Text at length scan ⊢
  rw [parseTime_comma noComma, if_pos (List.mem_append_right _ List.mem_cons_self)]
  exact scanned_long (by omega) (by omega) scan

/-! ## ctime -/

/-- Wkd Mon dd hh:mm:ss yyyy GMT. -/
def ctimeStr (cal : Calendar) (fill : Char) (t : Int) : Chars :=
  let tm := cal.gmtime t
  wkdays.getD (cal.wday t) [] ++ ' ' :: (monthText tm ++ ' ' :: (padded 2 fill tm.mday ++
    ' ' :: (clockText tm ++ ' ' :: (padded 4 '0' (tm.year + 1900) ++ " GMT".toList))))

theorem monthText_words (civil : Civil tm) :
    ∃ a b c, monthText tm = [a, b, c] ∧ Wordy a ∧ Wordy b ∧ Wordy c := by
  obtain ⟨m, same⟩ := month_cases civil.mon.1 (by have := civil.mon; omega)
  unfold monthText
  rw [same]
  fin_cases m <;> exact ⟨_, _, _, rfl, by decide, by decide, by decide⟩

/-- The weekday is taken for a month that there is not. -/
theorem makeMonth_weekday {i : Nat} (day : i < 7) (rest : Chars) :
    makeMonth (wkdays.getD i [] ++ rest) = some (0, rest) := by
  obtain ⟨w, rfl⟩ : ∃ w : Fin 7, i = w := ⟨⟨i, day⟩, rfl⟩
  fin_cases w <;> rfl

/-- So the scan stands still in front of the name of the month, and finds no day. -/
theorem ctime_weekday (civil : Civil tm) {i : Nat} (day : i < 7) (rest : Chars) :
    ∃ found, ctime (wkdays.getD i [] ++ ' ' :: (monthText tm ++ rest)) = some found ∧
      found.mday = 0 := by
  obtain ⟨a, b, c, name, first, second, third⟩ := monthText_words civil
  have blank : strtol (' ' :: a :: b :: c :: rest) = (0, ' ' :: a :: b :: c :: rest) :=
    strtol_word [' '] _ blank_white first
  have letter : strtol (a :: b :: c :: rest) = (0, a :: b :: c :: rest) :=
    strtol_word [] _ (List.forall_mem_nil _) first
  unfold ctime
  rw [makeMonth_weekday day, name]
  simp only [Option.bind_eq_bind, Option.bind_some, List.cons_append, List.nil_append, blank,
    letter, next]
  exact ⟨_, rfl, rfl⟩

theorem checked_dayless (none_found : tm.mday = 0) : checked cal tm = 0 := by
  unfold checked
  rw [if_pos (by omega)]

theorem weekday_front {i : Nat} (day : i < 7) (rest : Chars) :
    (wkdays.getD i [] ++ rest).length = rest.length + 3 ∧
      skipBlanks (wkdays.getD i [] ++ rest) = wkdays.getD i [] ++ rest ∧
      ((wkdays.getD i [] ++ rest).head?.map isDigit).getD false = false := by
  obtain ⟨w, rfl⟩ : ∃ w : Fin 7, i = w := ⟨⟨i, day⟩, rfl⟩
  fin_cases w <;> exact ⟨rfl, rfl, rfl⟩

theorem ctimeStr_comma {fill : Char} (fills : fill = ' ' ∨ fill = '0') (cal : Calendar) (t : Int) :
    ',' ∉ ctimeStr cal fill t := by
  have weekday : ',' ∉ wkdays.getD (cal.wday t) [] :=
    getD_names (P := (',' ∉ ·)) (by decide) (by decide) _
  have day : ',' ∉ padded 2 fill (cal.gmtime t).mday := by
    intro member
    rcases List.mem_append.mp member with filled | digit
    · rw [← List.eq_of_mem_replicate filled] at fills
      exact absurd fills (by decide)
    · exact absurd (decimal_digits _ _ digit) (by decide)
  simp only [ctimeStr, List.mem_append, List.mem_cons, not_or]
  exact ⟨weekday, by decide, monthText_without rfl _, by decide, day, by decide,
    clockText_without rfl (by decide) _, by decide, padded_without rfl 4 _, by decide⟩

theorem parseTime_ctimeStr {t : Int} {fill : Char} (fills : fill = ' ' ∨ fill = '0')
    (civil : Civil (cal.gmtime t)) (year : (cal.gmtime t).year ≤ 8099) (weekday : cal.wday t < 7)
    (now : Int) (expand : Bool) : parseTime cal now (ctimeStr cal fill t) expand = some 0 := by
  have ⟨_, _, _, _, mday, past⟩ := civil
  have last := civil.mday_le
  have noComma := ctimeStr_comma fills cal t
  have tail : " GMT".toList.length = 4 := rfl
  have length : (ctimeStr cal fill t).length = 28 := by
    unfold ctimeStr
    rw [(weekday_front weekday _).1]
    simp only [List.length_append, List.length_cons, clockText_length civil, monthText_length civil,
      tail]
    rw [padded_length (by decide) (by omega), padded_length (by decide) (by omega)]
  dsimp only [ctimeStr] at noComma length ⊢
  have front := weekday_front weekday
  obtain ⟨found, scan, dayless⟩ := ctime_weekday civil weekday
    (' ' :: (padded 2 fill (cal.gmtime t).mday ++ ' ' :: (clockText (cal.gmtime t) ++
      ' ' :: (padded 4 '0' ((cal.gmtime t).year + 1900) ++ " GMT".toList))))
  unfold parseTime
  rw [if_neg noComma, (front _).2.2, if_neg Bool.false_ne_true, (front _).2.1,
    scanned_long (by omega) (by omega) scan, checked_dayless dayless]

/-! ## All three formats -/

/-- For which times each text is read back, and for which strings no read goes behind the
end. The RFC 850 text stands for the time in the hundred years from 1970 on. -/
theorem parses_back_iff (cal : Calendar) (inverse : Inverse cal) (now : Int) (expand : Bool) :
    (∀ t, 0 ≤ t → (cal.gmtime t).year ≤ 8099 →
      (parseTime cal now (dateTimeStr cal t) expand = some t ↔ (cal.gmtime t).year ≤ 120) ∧
      (∀ fill, fill = ' ' ∨ fill = '0' →
        (parseTime cal now (ctimeStr cal fill t) expand = some t ↔ t = 0)) ∧
      (parseTime cal now (rfc850Str cal t) expand =
          some (cal.timegm (windowed (cal.gmtime t))) ↔ 70 ≤ (cal.gmtime t).year % 100)) ∧
    ∀ str, (parseTime cal now str expand).isSome = true ↔ DateBounds.InBounds str := by
  refine ⟨fun t past year => ?_, fun str => DateBounds.parseTime_isSome cal now str expand⟩
  have civil := inverse.civil t past
  have back := inverse.timegm_gmtime t past year
  refine ⟨?_, fun fill fills => ?_, ?_⟩
  · rw [parseTime_dateTimeStr civil year, Option.some.injEq]
    rcases Int.lt_or_le 120 (cal.gmtime t).year with late | recent
    · rw [checked_late late]
      refine ⟨fun same => ?_, fun recent => absurd recent (by omega)⟩
      rw [← same, inverse.epoch] at late
      exact absurd late (by decide)
    · rw [checked_legal civil recent]
      exact ⟨fun _ => recent, fun _ => back⟩
  · rw [parseTime_ctimeStr fills civil year (inverse.wday t past), Option.some.injEq]
    exact eq_comm
  · have window := windowed_civil civil
    rw [parseTime_rfc850Str civil, Option.some.injEq]
    rcases Int.lt_or_le ((cal.gmtime t).year % 100) 70 with early | late
    · rw [checked_early early]
      have shifted : (windowed (cal.gmtime t)).year = (cal.gmtime t).year % 100 + 100 :=
        if_pos early
      have again := inverse.gmtime_timegm _ window (by omega)
      refine ⟨fun same => ?_, fun late => absurd late (by omega)⟩
      rw [← same, inverse.epoch] at again
      rw [← again] at shifted
      change (70 : Int) = _ at shifted
      omega
    · have same : windowed (cal.gmtime t) =
          { cal.gmtime t with year := (cal.gmtime t).year % 100 } := by
        unfold windowed
        rw [if_neg (by omega)]
      have recent : (windowed (cal.gmtime t)).year ≤ 120 := by
        rw [same]
        change (cal.gmtime t).year % 100 ≤ 120
        omega
      rw [← same, checked_legal window recent]
      exact ⟨fun _ => late, fun _ => rfl⟩

/-! ## The Gregorian calendar -/

/-- 1970-01-01 was a Thursday. -/
def gregorian : Calendar where
  gmtime t :=
    let day := civil 1970 (t / 86400).toNat
    ⟨t % 60, t / 60 % 60, t / 3600 % 24, day.2.2 + 1, day.2.1, (day.1 : Int) - 1900⟩
  wday t := ((t / 86400).toNat + 4) % 7
  timegm tm :=
    dayNumber 1970 (tm.year + 1900).toNat tm.mon.toNat (tm.mday - 1).toNat * 86400 +
      tm.hour * 3600 + tm.min * 60 + tm.sec

theorem gregorian_civil (t : Int) : Civil (gregorian.gmtime t) := by
  have ⟨year, month, day⟩ := civil_valid 1970 (t / 86400).toNat
  have back : (((civil 1970 (t / 86400).toNat).1 : Int) - 1900 + 1900).toNat =
      (civil 1970 (t / 86400).toNat).1 := by omega
  constructor <;> dsimp only [gregorian]
  · omega
  · omega
  · omega
  · omega
  · rw [back, Int.toNat_natCast]
    omega
  · omega

theorem gregorian_timegm {t : Int} (past : 0 ≤ t) :
    gregorian.timegm (gregorian.gmtime t) = t := by
  have number := dayNumber_civil 1970 (t / 86400).toNat
  have year : (((civil 1970 (t / 86400).toNat).1 : Int) - 1900 + 1900).toNat =
      (civil 1970 (t / 86400).toNat).1 := by omega
  have day : (((civil 1970 (t / 86400).toNat).2.2 : Int) + 1 - 1).toNat =
      (civil 1970 (t / 86400).toNat).2.2 := by omega
  dsimp only [gregorian]
  rw [year, day, Int.toNat_natCast, number]
  omega

theorem gregorian_gmtime (valid : Civil tm) : gregorian.gmtime (gregorian.timegm tm) = tm := by
  have ⟨sec, min, hour, mon, mday, year⟩ := valid
  have number : civil 1970 (dayNumber 1970 (tm.year + 1900).toNat tm.mon.toNat
      (tm.mday - 1).toNat) = ((tm.year + 1900).toNat, tm.mon.toNat, (tm.mday - 1).toNat) :=
    civil_dayNumber (by omega) (by omega) (by omega)
  have days : (gregorian.timegm tm / 86400).toNat = dayNumber 1970 (tm.year + 1900).toNat
      tm.mon.toNat (tm.mday - 1).toNat := by
    dsimp only [gregorian]
    omega
  have clock : gregorian.timegm tm % 60 = tm.sec ∧ gregorian.timegm tm / 60 % 60 = tm.min ∧
      gregorian.timegm tm / 3600 % 24 = tm.hour := by
    dsimp only [gregorian]
    omega
  have first : ((tm.mday - 1).toNat : Int) + 1 = tm.mday := by omega
  have month : (tm.mon.toNat : Int) = tm.mon := by omega
  have century : ((tm.year + 1900).toNat : Int) - 1900 = tm.year := by omega
  change Tm.mk _ _ _ _ _ _ = tm
  rw [days, number, clock.1, clock.2.1, clock.2.2]
  dsimp only
  rw [first, month, century]

theorem gregorian_inverse : Inverse gregorian where
  civil t _ := gregorian_civil t
  wday _ _ := Nat.mod_lt _ (by decide)
  timegm_gmtime _ past _ := gregorian_timegm past
  gmtime_timegm _ valid _ := gregorian_gmtime valid
  epoch := by decide

/-- Wed, 09 Jun 1993 01:29:59 GMT. -/
theorem parses_back_june :
    parseTime gregorian 0 (dateTimeStr gregorian 739589399) true = some 739589399 :=
  ((parses_back_iff gregorian gregorian_inverse 0 true).1 739589399 (by decide) (by decide)).1.mpr
    (by decide +kernel)

/-- Wed Jun  9 01:29:59 1993 GMT, the first second of 2021, and a day without a month. -/
theorem parses_back_fails :
    parseTime gregorian 0 (ctimeStr gregorian ' ' 739589399) true ≠ some 739589399 ∧
    parseTime gregorian 0 (dateTimeStr gregorian 1609459200) true ≠ some 1609459200 ∧
    parseTime gregorian 0 "Wed, 09-06-1993 01:29:59".toList true = none := by
  have june : (gregorian.gmtime 739589399).year = 93 := by decide +kernel
  have january : (gregorian.gmtime 1609459200).year = 121 := by decide +kernel
  refine ⟨?_, ?_, by decide⟩
  · rw [parseTime_ctimeStr (.inl rfl) (gregorian_civil _) (by omega) (Nat.mod_lt _ (by decide))]
    decide
  · rw [parseTime_dateTimeStr (gregorian_civil _) (by omega), checked_late (by omega)]
    decide

end Libdap.Guarantees.DateRoundTrip
