import Mathlib.Tactic
import Libdap.Source.UtilMit

/-!
# Where the date scanner reads behind the string

`make_month` runs on until it finds a letter and steps over three characters, and each `++s`
steps over what it takes for a separator. The length is only checked in front of the scan, so
what counts is what the numbers leave over.
-/
namespace Libdap.Guarantees.DateBounds
open Libdap.Source.UtilMit
open Libdap.Source.HTTPCacheTable (Chars toInt)

/-- What a number at the front leaves over. -/
def behindNumber (s : Chars) : Chars := (strtol s).2

def fromLetter (s : Chars) : Chars := s.dropWhile fun c => !c.isAlpha

/-- There is a letter, and two more characters behind it. -/
def MonthFits (s : Chars) : Prop := 3 ≤ (fromLetter s).length

def behindMonth (s : Chars) : Chars := (fromLetter s).drop 3

/-- Something follows the second of two numbers with one character between them. -/
def ClockFits (s : Chars) : Prop := behindNumber (behindNumber s).tail ≠ []

/-- The condition for each of the four formats, as far as the string is long enough. -/
def InBounds (str : Chars) : Prop :=
  if ',' ∈ str then
    let s := skipBlanks (str.dropWhile (· ≠ ',')).tail
    if '-' ∈ s then
      18 ≤ toInt s.length → MonthFits (behindNumber s) ∧
        ClockFits (behindNumber (behindMonth (behindNumber s)).tail)
    else
      20 ≤ toInt s.length → MonthFits (behindNumber s) ∧
        ClockFits (behindNumber (behindMonth (behindNumber s)))
  else if (str.head?.map Libdap.Source.ErrorText.isDigit).getD false then
    'T' ∈ str → 21 ≤ toInt (skipBlanks str).length →
      ClockFits (behindNumber (behindNumber (behindNumber (skipBlanks str)).tail).tail).tail
  else
    24 ≤ toInt (skipBlanks str).length → MonthFits (skipBlanks str) ∧
      ClockFits (behindNumber (behindMonth (skipBlanks str)))

theorem behindNumber_nil : behindNumber [] = [] := rfl

theorem makeMonth_isSome (s : Chars) :
    (∃ mon, makeMonth s = some (mon, behindMonth s)) ∧ MonthFits s ∨
      makeMonth s = none ∧ ¬ MonthFits s := by
  by_cases short : (fromLetter s).length < 3
  · exact .inr ⟨if_pos short, Nat.not_le.mpr short⟩
  · exact .inl ⟨⟨_, if_neg short⟩, Nat.not_lt.mp short⟩

/-- The end of a scan: hour, minute and second with a character between them. -/
theorem clock_isSome {α : Type} (s : Chars) (finish : Chars → Chars → Option α)
    (ends : ∀ minute second, (finish minute second).isSome = true) :
    ((next (behindNumber s)).bind fun minute =>
      (next (behindNumber minute)).bind fun second => finish minute second).isSome = true ↔
        ClockFits s := by
  unfold ClockFits
  cases first : behindNumber s with
  | nil => simp [next, behindNumber_nil]
  | cons c minute =>
    cases second : behindNumber minute with
    | nil => simp [next, second]
    | cons d rest => simp [next, second, ends]

/-- A month, and what follows it. -/
theorem month_isSome {α : Type} (s : Chars) (follow : Int × Chars → Option α) {fine : Prop}
    (ends : ∀ mon, (follow (mon, behindMonth s)).isSome = true ↔ fine) :
    ((makeMonth s).bind follow).isSome = true ↔ MonthFits s ∧ fine := by
  rcases makeMonth_isSome s with ⟨⟨mon, found⟩, fits⟩ | ⟨missing, short⟩
  · rw [found, Option.bind_some, ends]
    exact ⟨fun rest => ⟨fits, rest⟩, fun both => both.2⟩
  · rw [missing]
    exact ⟨nofun, fun both => absurd both.1 short⟩

theorem rfc850_isSome (s : Chars) : (rfc850 s).isSome = true ↔
    MonthFits (behindNumber s) ∧ ClockFits (behindNumber (behindMonth (behindNumber s)).tail) := by
  refine month_isSome (behindNumber s) _ fun mon => ?_
  dsimp only
  cases behindMonth (behindNumber s) with
  | nil => exact ⟨nofun, fun fits => absurd behindNumber_nil fits⟩
  | cons c rest => exact clock_isSome (behindNumber rest) _ fun _ _ => rfl

theorem rfc1123_isSome (s : Chars) : (rfc1123 s).isSome = true ↔
    MonthFits (behindNumber s) ∧ ClockFits (behindNumber (behindMonth (behindNumber s))) :=
  month_isSome (behindNumber s) _ fun _ =>
    clock_isSome (behindNumber (behindMonth (behindNumber s))) _ fun _ _ => rfl

theorem ctime_isSome (s : Chars) : (ctime s).isSome = true ↔
    MonthFits s ∧ ClockFits (behindNumber (behindMonth s)) :=
  month_isSome s _ fun _ => clock_isSome (behindNumber (behindMonth s)) _ fun _ _ => rfl

theorem clockFits_nil : ¬ ClockFits [] := fun fine => fine rfl

theorem iso_isSome (s : Chars) : (iso s).isSome = true ↔
    ClockFits (behindNumber (behindNumber (behindNumber s).tail).tail).tail := by
  have unfolded : iso s =
      (next (behindNumber s)).bind fun mon => (next (behindNumber mon)).bind fun mday =>
        (next (behindNumber mday)).bind fun hour =>
          (next (behindNumber hour)).bind fun minute =>
            (next (behindNumber minute)).bind fun second =>
              some ⟨toInt (strtol second).1, toInt (strtol minute).1, toInt (strtol hour).1,
                toInt (strtol mday).1, toInt (strtol mon).1,
                toInt ((strtol s).1 - 1900)⟩ := rfl
  rw [unfolded]
  cases year : behindNumber s with
  | nil => exact ⟨nofun, fun fine => absurd fine clockFits_nil⟩
  | cons c mon =>
    change (Option.bind (next (behindNumber mon)) _).isSome = true ↔
      ClockFits (behindNumber (behindNumber mon).tail).tail
    cases month : behindNumber mon with
    | nil => exact ⟨nofun, fun fine => absurd fine clockFits_nil⟩
    | cons c mday =>
      change (Option.bind (next (behindNumber mday)) _).isSome = true ↔
        ClockFits (behindNumber mday).tail
      cases day : behindNumber mday with
      | nil => exact ⟨nofun, fun fine => absurd fine clockFits_nil⟩
      | cons c hour => exact clock_isSome hour _ fun _ _ => rfl

theorem scanned_isSome (cal : Calendar) (shortest : Int) (format : Chars → Option Tm) (s : Chars) :
    (scanned cal shortest format s).isSome = true ↔
      (shortest ≤ toInt s.length → (format s).isSome = true) := by
  unfold scanned
  split
  · next short => exact ⟨fun _ long => absurd short (by omega), fun _ => rfl⟩
  · next long =>
      rw [Option.isSome_map]
      exact ⟨fun fine _ => fine, fun fine => fine (by omega)⟩

/-- No read goes behind the string exactly where the conditions of its format hold. -/
theorem parseTime_isSome (cal : Calendar) (now : Int) (str : Chars) (expand : Bool) :
    (parseTime cal now str expand).isSome = true ↔ InBounds str := by
  unfold parseTime InBounds
  split
  · dsimp only
    split
    · rw [scanned_isSome, rfc850_isSome]
    · rw [scanned_isSome, rfc1123_isSome]
  · split
    · split
      · next date =>
          rw [scanned_isSome, iso_isSome]
          exact ⟨fun fine _ => fine, fun fine => fine date⟩
      · next plain => exact ⟨fun _ date => absurd date plain, fun _ => rfl⟩
    · rw [scanned_isSome, ctime_isSome]

end Libdap.Guarantees.DateBounds
