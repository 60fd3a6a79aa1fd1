import Mathlib.Tactic

/-!
# Consecutive blocks, and the civil calendar

Blocks of given lengths lie one behind the other from 0 on; `locate` finds the block that a
position lies in and the place in it. Years are blocks of days, and the months of a year are.
-/
namespace Libdap.Library.Calendar

/-! ## Blocks -/

variable {length : Nat → Nat}

/-- Where block n begins. -/
def before (length : Nat → Nat) : Nat → Nat
  | 0 => 0
  | n + 1 => before length n + length n

/-- The search from block n on, for the place d behind its beginning. -/
def locateFrom (length : Nat → Nat) : Nat → Nat → Nat → Nat × Nat
  | 0, n, d => (n, d)
  | fuel + 1, n, d =>
    if d < length n then (n, d) else locateFrom length fuel (n + 1) (d - length n)

def locate (length : Nat → Nat) (d : Nat) : Nat × Nat := locateFrom length d 0 d

theorem before_mono (length : Nat → Nat) {m n : Nat} (ordered : m ≤ n) :
    before length m ≤ before length n := by
  induction n, ordered using Nat.le_induction with
  | base => exact le_rfl
  | succ n _ ih => exact ih.trans (Nat.le_add_right ..)

theorem locateFrom_spec (positive : ∀ n, 0 < length n) {fuel n d : Nat} (enough : d ≤ fuel) :
    (locateFrom length fuel n d).2 < length (locateFrom length fuel n d).1 ∧
      before length (locateFrom length fuel n d).1 + (locateFrom length fuel n d).2 =
        before length n + d := by
  induction fuel generalizing n d with
  | zero =>
    have start := positive n
    exact ⟨show d < length n by omega, rfl⟩
  | succ fuel ih =>
    rw [locateFrom]
    split
    · next inside => exact ⟨inside, rfl⟩
    · next beyond =>
        have start := positive n
        have later := ih (n := n + 1) (d := d - length n) (by omega)
        refine ⟨later.1, later.2.trans ?_⟩
        rw [before]
        omega

theorem locate_lt (positive : ∀ n, 0 < length n) (d : Nat) :
    (locate length d).2 < length (locate length d).1 :=
  (locateFrom_spec positive le_rfl).1

theorem before_locate (positive : ∀ n, 0 < length n) (d : Nat) :
    before length (locate length d).1 + (locate length d).2 = d := by
  have found := (locateFrom_spec (n := 0) positive (le_refl d)).2
  rw [before, Nat.zero_add] at found
  exact found

/-- A position lies in one block only. -/
theorem before_inj {m n r s : Nat} (inside : r < length m) (inside' : s < length n)
    (same : before length m + r = before length n + s) : m = n ∧ r = s := by
  have ordered : ∀ {m n r : Nat}, r < length m → m < n → before length m + r < before length n := by
    intro m n r inside earlier
    have := before_mono length (show m + 1 ≤ n from earlier)
    rw [before] at this
    omega
  rcases Nat.lt_trichotomy m n with earlier | rfl | later
  · have := ordered inside earlier
    omega
  · exact ⟨rfl, by omega⟩
  · have := ordered inside' later
    omega

theorem locate_before (length : Nat → Nat) (positive : ∀ n, 0 < length n) {n r : Nat}
    (inside : r < length n) :
    locate length (before length n + r) = (n, r) := by
  have same := before_inj (locate_lt positive (before length n + r)) inside
    (before_locate positive (before length n + r))
  exact Prod.ext same.1 same.2

/-! ## The Gregorian calendar -/

def leap (year : Nat) : Bool := year % 4 = 0 && (year % 100 ≠ 0 || year % 400 = 0)

/-- Months count from 0; there are no months from 12 on. -/
def monthLength (year month : Nat) : Nat :=
  if month = 1 then if leap year then 29 else 28
  else if month = 3 ∨ month = 5 ∨ month = 8 ∨ month = 10 then 30
  else 31

def yearLength (year : Nat) : Nat := if leap year then 366 else 365

theorem monthLength_pos (year month : Nat) : 0 < monthLength year month := by
  unfold monthLength
  split_ifs <;> decide

theorem yearLength_pos (year : Nat) : 0 < yearLength year := by
  unfold yearLength
  split_ifs <;> decide

theorem monthLength_le (year month : Nat) : monthLength year month ≤ 31 := by
  unfold monthLength
  split_ifs <;> decide

theorem before_twelve (year : Nat) : before (monthLength year) 12 = yearLength year := by
  simp only [before, monthLength, yearLength]
  cases leap year <;> rfl

/-- A month is as long at least in a leap year. -/
theorem monthLength_mono {year year' : Nat} (month : Nat)
    (kept : leap year = true → leap year' = true) :
    monthLength year month ≤ monthLength year' month := by
  unfold monthLength
  split
  · split
    · next here => rw [if_pos (kept here)]
    · split <;> decide
  · exact le_rfl

/-- A century that begins with a leap year has a leap year wherever any century has. -/
theorem leap_century {year year' : Nat} (same : year % 100 = year' % 100)
    (here : leap year = true) (hundred : year' % 100 = 0 → year' % 400 = 0) :
    leap year' = true := by
  simp only [leap, Bool.and_eq_true, Bool.or_eq_true, decide_eq_true_eq] at here ⊢
  omega

/-- The year, the month and the day of the month, from 0 on, of a day that is counted from
the first of January of `start` on. -/
def civil (start day : Nat) : Nat × Nat × Nat :=
  let year := locate (fun i => yearLength (start + i)) day
  let month := locate (monthLength (start + year.1)) year.2
  (start + year.1, month.1, month.2)

def dayNumber (start year month day : Nat) : Nat :=
  before (fun i => yearLength (start + i)) (year - start) + (before (monthLength year) month + day)

variable {start year month day : Nat}

theorem civil_valid (start day : Nat) :
    start ≤ (civil start day).1 ∧ (civil start day).2.1 < 12 ∧
      (civil start day).2.2 < monthLength (civil start day).1 (civil start day).2.1 := by
  have year := locate_lt (fun i => yearLength_pos (start + i)) day
  unfold civil
  dsimp only
  generalize locate (fun i => yearLength (start + i)) day = found at year ⊢
  have positive := monthLength_pos (start + found.1)
  refine ⟨Nat.le_add_right .., ?_, locate_lt positive found.2⟩
  by_contra beyond
  have late : before (monthLength (start + found.1)) 12 ≤
      before (monthLength (start + found.1)) (locate (monthLength (start + found.1)) found.2).1 :=
    before_mono _ (by omega)
  have total := before_locate positive found.2
  rw [before_twelve] at late
  omega

theorem dayNumber_civil (start day : Nat) :
    dayNumber start (civil start day).1 (civil start day).2.1 (civil start day).2.2 = day := by
  unfold dayNumber civil
  dsimp only
  rw [before_locate (monthLength_pos _), Nat.add_sub_cancel_left]
  exact before_locate (fun i => yearLength_pos (start + i)) day

theorem civil_dayNumber (late : start ≤ year) (inYear : month < 12)
    (inMonth : day < monthLength year month) :
    civil start (dayNumber start year month day) = (year, month, day) := by
  have ends : before (monthLength year) month + monthLength year month ≤ yearLength year := by
    rw [← before_twelve]
    exact before_mono (monthLength year) (show month + 1 ≤ 12 from inYear)
  have back : start + (year - start) = year := by omega
  have inside : before (monthLength year) month + day < yearLength (start + (year - start)) := by
    rw [back]
    omega
  unfold civil dayNumber
  rw [locate_before (fun i => yearLength (start + i)) (fun i => yearLength_pos (start + i)) inside]
  dsimp only
  rw [back, locate_before _ (monthLength_pos year) inMonth]

end Libdap.Library.Calendar
