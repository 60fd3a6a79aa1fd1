import Libdap.Source.StringUtil
import Mathlib.Data.List.TakeWhile
import Mathlib.Tactic

/-!
# Which strings are pruned of their leading spaces

Positions are cut to 32 bits. A string is pruned where no position that matters is cut, and where
cutting it happens to make no difference.
-/
namespace Libdap.Guarantees.LeadingSpaces
open Libdap.Source.StringUtil

def leading (s : List Char) : Nat := (s.takeWhile (· = ' ')).length

def behindSpaces (s : List Char) : List Char := s.dropWhile (· = ' ')

/-- Without the spaces after the first question mark. -/
def constraintPruned (url : List Char) : List Char :=
  match findFirstOf '?' url with
  | some q => url.take (q + 1) ++ behindSpaces (url.drop (q + 1))
  | none => url

/-- Without the leading spaces and those after the first question mark. -/
def pruned (s : List Char) : List Char := constraintPruned (behindSpaces s)

def Pruned (s : List Char) : Prop :=
  pruneSpaces s = .ok (pruned s) ∧ pruneSpaces (pruned s) = .ok (pruned s)

/-- The constraint begins below `2 ^ 32`, after fewer spaces than that, and is not made of
spaces that go on up to there; or it begins later, without a space, and where it is taken to begin
stand no spaces or a multiple of `2 ^ 32` of them. -/
def ConstraintFits (url : List Char) : Prop :=
  match findFirstOf '?' url with
  | none => True
  | some q =>
    if q + 1 < unsignedSize then
      leading (url.drop (q + 1)) < unsignedSize ∧
        (behindSpaces (url.drop (q + 1)) = [] → url.length < unsignedSize)
    else
      leading (url.drop (q + 1)) = 0 ∧
        leading (url.drop ((q + 1) % unsignedSize)) % unsignedSize = 0

/-- Nothing but spaces is pruned when there are between `2 ^ 32 - 1` and twice as many. -/
def Fits (s : List Char) : Prop :=
  ' ' ∉ s ∨
    (behindSpaces s = [] ∧ unsignedSize - 1 ≤ s.length ∧ s.length ≤ 2 * (unsignedSize - 1)) ∨
    (behindSpaces s ≠ [] ∧ leading s < unsignedSize ∧ ConstraintFits (behindSpaces s))

/-! ### Leading spaces -/

theorem behindSpaces_eq (s : List Char) : behindSpaces s = s.drop (leading s) := by
  induction s with
  | nil => rfl
  | cons c rest ih =>
    by_cases space : c = ' '
    · simpa [behindSpaces, leading, space] using ih
    · simp [behindSpaces, leading, space]

theorem leading_le (s : List Char) : leading s ≤ s.length :=
  (List.takeWhile_sublist _).length_le

theorem behindSpaces_nil {s : List Char} : behindSpaces s = [] ↔ leading s = s.length := by
  rw [behindSpaces_eq, List.drop_eq_nil_iff]
  have inside := leading_le s
  omega

theorem behindSpaces_head {s rest : List Char} {c : Char} (behind : behindSpaces s = c :: rest) :
    c ≠ ' ' := by
  have first := List.head?_dropWhile_not (· = ' ') s
  rw [show s.dropWhile (· = ' ') = c :: rest from behind] at first
  simpa using first

theorem leading_zero {c : Char} {rest : List Char} (other : c ≠ ' ') :
    leading (c :: rest) = 0 := by
  simp [leading, other]

theorem behindSpaces_other {c : Char} {rest : List Char} (other : c ≠ ' ') :
    behindSpaces (c :: rest) = c :: rest := by
  simp [behindSpaces, other]

@[simp] theorem leading_behindSpaces (s : List Char) : leading (behindSpaces s) = 0 := by
  cases behind : behindSpaces s with
  | nil => rfl
  | cons c rest => exact leading_zero (behindSpaces_head behind)

@[simp] theorem behindSpaces_again (s : List Char) :
    behindSpaces (behindSpaces s) = behindSpaces s := by
  rw [behindSpaces_eq (behindSpaces s), leading_behindSpaces, List.drop_zero]

/-- What is dropped of the leading spaces is missing from them. -/
theorem leading_drop {s : List Char} {n : Nat} (few : n ≤ leading s) :
    leading (s.drop n) = leading s - n := by
  induction n generalizing s with
  | zero => rfl
  | succ n ih =>
    cases s with
    | nil => simp [leading]
    | cons c rest =>
      by_cases space : c = ' '
      · have more : leading (c :: rest) = leading rest + 1 := by simp [leading, space]
        rw [List.drop_succ_cons, ih (by omega), more]
        omega
      · rw [leading_zero space] at few
        omega

theorem findIdx_spaces (s : List Char) :
    s.findIdx? (· ≠ ' ') = if behindSpaces s = [] then none else some (leading s) := by
  induction s with
  | nil => rfl
  | cons c rest ih =>
    by_cases space : c = ' '
    · have same : behindSpaces (c :: rest) = behindSpaces rest := by simp [behindSpaces, space]
      have more : leading (c :: rest) = leading rest + 1 := by simp [leading, space]
      rw [List.findIdx?_cons, ih, same, more]
      by_cases none : behindSpaces rest = [] <;> simp [space, none]
    · rw [behindSpaces_other space, leading_zero space]
      simp [List.findIdx?_cons, space]

/-- There are no more spaces than what is before another character. -/
theorem leading_before {s : List Char} {p : Nat} {c : Char} (here : s[p]? = some c)
    (other : c ≠ ' ') : leading s ≤ p := by
  induction s generalizing p with
  | nil => simp [leading]
  | cons d rest ih =>
    by_cases space : d = ' '
    · cases p with
      | zero =>
        rw [List.getElem?_cons_zero, Option.some_inj] at here
        exact absurd (here ▸ space) other
      | succ p =>
        have more : leading (d :: rest) = leading rest + 1 := by simp [leading, space]
        rw [more]
        exact Nat.succ_le_succ (ih (by simpa using here))
    · rw [leading_zero space]
      exact Nat.zero_le p

/-! ### Positions as they are kept -/

theorem position_some {s : List Char} {j : Nat} (some : behindSpaces (s.drop j) ≠ []) :
    unsignedPosition (findFirstNotOf ' ' s j) = (j + leading (s.drop j)) % unsignedSize := by
  rw [findFirstNotOf, findIdx_spaces, if_neg some]
  rfl

theorem position_none {s : List Char} {j : Nat} (none : behindSpaces (s.drop j) = []) :
    unsignedPosition (findFirstNotOf ' ' s j) = unsignedSize - 1 := by
  rw [findFirstNotOf, findIdx_spaces, if_pos none]
  rfl

theorem position_only {s : List Char} (none : behindSpaces s = []) :
    unsignedPosition (findFirstNotOf ' ' s 0) = unsignedSize - 1 :=
  position_none (by simpa using none)

/-! ### The constraint part -/

/-- From where the constraint is taken to begin. -/
def constraintStart (tmpName : List Char) : Nat :=
  match findFirstOf '?' tmpName with
  | some q => (q + 1) % unsignedSize
  | none => 0

/-- How much is erased there. -/
def erased (tmpName : List Char) (j : Nat) : Nat :=
  (unsignedSize + unsignedPosition (findFirstNotOf ' ' tmpName j) - j) % unsignedSize

theorem found {c : Char} {s : List Char} {q : Nat} (at_q : findFirstOf c s = some q) :
    s[q]? = some c ∧ ∀ p, p < q → s[p]? ≠ some c := by
  obtain ⟨inside, equal, before⟩ := List.findIdx?_eq_some_iff_getElem.mp at_q
  simp only [decide_eq_true_eq] at equal before
  refine ⟨by rw [List.getElem?_eq_getElem inside, equal], ?_⟩
  intro p earlier same
  obtain ⟨_, here⟩ := List.getElem?_eq_some_iff.mp same
  exact before p earlier here

theorem found_iff {c : Char} {s : List Char} {q : Nat} :
    findFirstOf c s = some q ↔ s[q]? = some c ∧ ∀ p, p < q → s[p]? ≠ some c := by
  refine ⟨found, ?_⟩
  intro first
  obtain ⟨inside, equal⟩ := List.getElem?_eq_some_iff.mp first.1
  refine List.findIdx?_eq_some_iff_getElem.mpr ⟨inside, by simp [equal], ?_⟩
  intro p earlier
  have other := first.2 p earlier
  rw [List.getElem?_eq_getElem (by omega)] at other
  simpa using other

theorem found_lt {c : Char} {s : List Char} {q : Nat} (at_q : findFirstOf c s = some q) :
    q < s.length :=
  (List.getElem?_eq_some_iff.mp (found at_q).1).1

theorem constraintStart_le (s : List Char) : constraintStart s ≤ s.length := by
  rw [constraintStart]
  split
  · next q at_q => exact (Nat.mod_le _ _).trans (found_lt at_q)
  · exact Nat.zero_le _

/-- The second half of `pruneSpaces`. -/
def constraintErased (tmpName : List Char) : List Char :=
  tmpName.take (constraintStart tmpName) ++
    tmpName.drop (constraintStart tmpName + erased tmpName (constraintStart tmpName))

/-- The two halves of `pruneSpaces`. -/
theorem pruneSpaces_eq {s : List Char} (spaces : ' ' ∈ s) :
    pruneSpaces s =
      (substr s (unsignedPosition (findFirstNotOf ' ' s 0))).map constraintErased := by
  obtain ⟨p, at_p⟩ : ∃ p, findFirstOf ' ' s = some p :=
    Option.isSome_iff_exists.mp (List.findIdx?_isSome.trans (by simpa using spaces))
  rw [pruneSpaces, at_p]
  simp only [bind, Except.bind]
  cases substr s (unsignedPosition (findFirstNotOf ' ' s 0)) with
  | error raised => rfl
  | ok tmpName =>
    change erase tmpName (constraintStart tmpName) (erased tmpName (constraintStart tmpName)) = _
    rw [erase, if_neg (not_lt.mpr (constraintStart_le tmpName))]
    rfl

theorem pruneSpaces_none {s : List Char} (none : ' ' ∉ s) : pruneSpaces s = .ok s := by
  have nowhere : findFirstOf ' ' s = Option.none :=
    List.findIdx?_eq_none_iff.mpr fun c member => by
      simpa using ne_of_mem_of_not_mem member none
  rw [pruneSpaces, nowhere]

/-- Nothing is erased where the constraint is taken to begin at the start. -/
theorem erased_start {s : List Char} (whole : leading s % unsignedSize = 0)
    (some : behindSpaces s ≠ []) : erased s 0 = 0 := by
  have kept : unsignedPosition (findFirstNotOf ' ' s 0) = leading s % unsignedSize := by
    rw [position_some (by simpa using some), List.drop_zero, Nat.zero_add]
  rw [erased, kept, whole]
  rfl

/-- Two ways of leaving out of `s` what is behind `j`. -/
theorem take_drop_eq {s : List Char} {j e t : Nat} (inside : j + t ≤ s.length) :
    s.take j ++ s.drop (j + e) = s.take j ++ s.drop (j + t) ↔
      e = t ∨ (s.length ≤ j + e ∧ s.length = j + t) := by
  rw [List.append_cancel_left_eq]
  constructor
  · intro same
    have sizes := congrArg List.length same
    simp only [List.length_drop] at sizes
    omega
  · intro either
    rcases either with rfl | ⟨all, end_⟩
    · rfl
    · rw [List.drop_eq_nil_of_le all, List.drop_eq_nil_of_le (by omega)]

/-- A constraint that begins late is pruned only where there is nothing to prune. -/
theorem late_eq {s : List Char} {q : Nat} (at_q : findFirstOf '?' s = some q) {j e : Nat}
    (early : j + e ≤ q) {t : Nat} (inside : q + 1 + t ≤ s.length) :
    s.take j ++ s.drop (j + e) = s.take (q + 1) ++ s.drop (q + 1 + t) ↔ t = 0 ∧ e = 0 := by
  obtain ⟨mark, before⟩ := found at_q
  constructor
  · intro same
    have none : e = 0 := by
      by_contra some
      have moved := congrArg (·[q - e]?) same
      simp only [List.getElem?_append, List.length_take, List.getElem?_drop] at moved
      rw [if_neg (by omega), if_pos (by omega), List.getElem?_take_of_lt (by omega),
        show j + e + (q - e - min j s.length) = q by omega, mark] at moved
      exact before (q - e) (by omega) moved.symm
    have sizes := congrArg List.length same
    simp only [List.length_append, List.length_take, List.length_drop, none] at sizes
    rw [Nat.min_eq_left (by omega), Nat.min_eq_left (by omega)] at sizes
    exact ⟨by omega, none⟩
  · intro neither
    simp [neither.1, neither.2]

/-- The second half prunes the constraints that fit. -/
theorem constraint_iff {c : Char} {rest : List Char} (other : c ≠ ' ') :
    constraintErased (c :: rest) = constraintPruned (c :: rest) ↔
      ConstraintFits (c :: rest) := by
  have size : unsignedSize = 4294967296 := rfl
  rw [constraintErased, constraintPruned, ConstraintFits]
  cases at_q : findFirstOf '?' (c :: rest) with
  | none =>
    have start : constraintStart (c :: rest) = 0 := by rw [constraintStart, at_q]
    rw [start, erased_start (by simp [leading_zero other]) (by simp [behindSpaces_other other])]
    simp
  | some q =>
    have inside := found_lt at_q
    have start : constraintStart (c :: rest) = (q + 1) % unsignedSize := by
      rw [constraintStart, at_q]
    generalize c :: rest = url at at_q inside start ⊢
    have behind := leading_le (url.drop (q + 1))
    rw [List.length_drop] at behind
    have nothing := behindSpaces_nil (s := url.drop (q + 1))
    rw [List.length_drop] at nothing
    simp only [start, nothing, size]
    rw [behindSpaces_eq, List.drop_drop]
    split
    · next early =>
      rw [Nat.mod_eq_of_lt early, take_drop_eq (by omega), erased]
      by_cases none : behindSpaces (url.drop (q + 1)) = []
      · rw [position_none none]
        rw [nothing] at none
        simp only [size]
        omega
      · rw [position_some none]
        rw [nothing] at none
        simp only [size]
        omega
    · next late =>
      have later : (q + 1) % 4294967296 ≤ q := by omega
      have mark : (url.drop ((q + 1) % 4294967296))[q - (q + 1) % 4294967296]? = some '?' := by
        rw [List.getElem?_drop, Nat.add_sub_cancel' later, (found at_q).1]
      have spaces := leading_before mark (by decide)
      have some : behindSpaces (url.drop ((q + 1) % 4294967296)) ≠ [] := by
        rw [Ne, behindSpaces_nil, List.length_drop]
        omega
      rw [erased, position_some some, size]
      rw [late_eq at_q (by omega) (by omega)]
      omega

/-- Up to the question mark nothing is pruned. -/
theorem pruned_parts {url : List Char} {q : Nat} (at_q : findFirstOf '?' url = some q) :
    findFirstOf '?' (constraintPruned url) = some q ∧
      (constraintPruned url).take (q + 1) = url.take (q + 1) ∧
      (constraintPruned url).drop (q + 1) = behindSpaces (url.drop (q + 1)) := by
  obtain ⟨mark, before⟩ := found at_q
  have inside := found_lt at_q
  have result : constraintPruned url = url.take (q + 1) ++ behindSpaces (url.drop (q + 1)) := by
    rw [constraintPruned, at_q]
  have size : (url.take (q + 1)).length = q + 1 := by
    rw [List.length_take]
    omega
  have kept : ∀ p, p < q + 1 → (constraintPruned url)[p]? = url[p]? := by
    intro p early
    rw [result, List.getElem?_append_left (by omega), List.getElem?_take_of_lt early]
  rw [found_iff, kept q (by omega), result, List.take_left' size, List.drop_left' size, ← result]
  refine ⟨⟨mark, ?_⟩, rfl, rfl⟩
  intro p early
  rw [kept p (by omega)]
  exact before p early

/-- What is pruned stays as it is, and fits. -/
theorem constraintPruned_again {url : List Char} (fits : ConstraintFits url) :
    constraintPruned (constraintPruned url) = constraintPruned url ∧
      ConstraintFits (constraintPruned url) := by
  cases at_q : findFirstOf '?' url with
  | none =>
    have same : constraintPruned url = url := by rw [constraintPruned, at_q]
    rw [same]
    exact ⟨same, fits⟩
  | some q =>
    have inside := found_lt at_q
    have result : constraintPruned url = url.take (q + 1) ++ behindSpaces (url.drop (q + 1)) := by
      rw [constraintPruned, at_q]
    obtain ⟨same_q, before, behind⟩ := pruned_parts at_q
    constructor
    · have step : constraintPruned (constraintPruned url) =
          (constraintPruned url).take (q + 1) ++
            behindSpaces ((constraintPruned url).drop (q + 1)) := by
        rw [constraintPruned, same_q]
      rw [step, before, behind, behindSpaces_again, result]
    · simp only [ConstraintFits, at_q] at fits
      simp only [ConstraintFits, same_q, behind, leading_behindSpaces, behindSpaces_again]
      split at fits
      · next early =>
        rw [if_pos early]
        refine ⟨by decide, ?_⟩
        intro nothing
        rw [result, nothing, List.append_nil, List.length_take]
        omega
      · next late =>
        have unchanged : constraintPruned url = url := by
          rw [result, behindSpaces_eq, fits.1, List.drop_zero, List.take_append_drop]
        rw [if_neg late, unchanged]
        exact ⟨trivial, fits.2⟩

theorem constraintPruned_head (c : Char) (rest : List Char) :
    ∃ rest', constraintPruned (c :: rest) = c :: rest' := by
  rw [constraintPruned]
  split
  · exact ⟨_, rfl⟩
  · exact ⟨rest, rfl⟩

/-! ### The first half -/

/-- Fewer than `2 ^ 32` leading spaces are left out. -/
theorem prune_leading {s rest : List Char} {c : Char} (behind : behindSpaces s = c :: rest)
    (few : leading s < unsignedSize) (spaces : ' ' ∈ s) :
    pruneSpaces s = .ok (constraintErased (c :: rest)) := by
  have kept : unsignedPosition (findFirstNotOf ' ' s 0) = leading s := by
    rw [position_some (by simp [behind]), List.drop_zero, Nat.zero_add, Nat.mod_eq_of_lt few]
  rw [pruneSpaces_eq spaces, kept, substr, if_neg (not_lt.mpr (leading_le s)),
    ← behindSpaces_eq, behind]
  rfl

/-- Of more of them a multiple of `2 ^ 32` stays. -/
theorem prune_many {s : List Char} (some : behindSpaces s ≠ [])
    (many : ¬leading s < unsignedSize) (spaces : ' ' ∈ s) :
    ∃ rest, pruneSpaces s = .ok (' ' :: rest) := by
  have size : unsignedSize = 4294967296 := rfl
  have kept : unsignedPosition (findFirstNotOf ' ' s 0) = leading s % unsignedSize := by
    rw [position_some (by simpa using some), List.drop_zero, Nat.zero_add]
  have inside := leading_le s
  have cut : leading s % unsignedSize ≤ leading s := Nat.mod_le _ _
  have left := leading_drop cut
  rw [pruneSpaces_eq spaces, kept, substr, if_neg (by omega)]
  have behind : behindSpaces (s.drop (leading s % unsignedSize)) ≠ [] := by
    rw [Ne, behindSpaces_nil, left, List.length_drop]
    rw [Ne, behindSpaces_nil] at some
    omega
  obtain ⟨rest, starts⟩ : ∃ rest, s.drop (leading s % unsignedSize) = ' ' :: rest := by
    cases tmp : s.drop (leading s % unsignedSize) with
    | nil =>
      rw [tmp] at behind
      exact absurd rfl behind
    | cons c rest =>
      by_cases space : c = ' '
      · exact ⟨rest, by rw [space]⟩
      · rw [tmp, leading_zero space, size] at left
        omega
  have whole : leading (' ' :: rest) % unsignedSize = 0 := by
    rw [← starts, left, size]
    omega
  rw [starts] at behind ⊢
  change ∃ r, Except.ok (constraintErased (' ' :: rest)) = Except.ok (' ' :: r)
  rw [constraintErased]
  cases start : constraintStart (' ' :: rest) with
  | zero =>
    rw [erased_start whole behind]
    exact ⟨rest, rfl⟩
  | succ j => exact ⟨_, rfl⟩

/-- A string of spaces only. -/
theorem prune_only {s : List Char} (none : behindSpaces s = []) (spaces : ' ' ∈ s) :
    pruneSpaces s = .ok [] ↔
      unsignedSize - 1 ≤ s.length ∧ s.length ≤ 2 * (unsignedSize - 1) := by
  have size : unsignedSize = 4294967296 := rfl
  have all := behindSpaces_nil.mp none
  rw [pruneSpaces_eq spaces, position_only none, substr]
  split
  · next short =>
    constructor
    · intro raised
      cases raised
    · intro bounds
      omega
  · next long =>
    have left := leading_drop (s := s) (n := unsignedSize - 1) (by omega)
    have only : behindSpaces (s.drop (unsignedSize - 1)) = [] := by
      rw [behindSpaces_nil, left, List.length_drop, all]
    have no_mark : findFirstOf '?' (s.drop (unsignedSize - 1)) = Option.none := by
      refine List.findIdx?_eq_none_iff.mpr fun c member => ?_
      have space := List.dropWhile_eq_nil_iff.mp only c member
      simp_all
    have start : constraintStart (s.drop (unsignedSize - 1)) = 0 := by
      rw [constraintStart, no_mark]
    change Except.ok (constraintErased (s.drop (unsignedSize - 1))) = Except.ok [] ↔ _
    rw [constraintErased, start, erased, position_only only, Except.ok.injEq, List.take_zero,
      List.nil_append, List.drop_drop, List.drop_eq_nil_iff]
    simp only [size]
    omega

theorem pruned_nothing {s : List Char} (none : ' ' ∉ s) : pruned s = s := by
  have stays : ∀ t : List Char, ' ' ∉ t → behindSpaces t = t := by
    intro t without
    cases t with
    | nil => rfl
    | cons c rest => exact behindSpaces_other (ne_of_mem_of_not_mem List.mem_cons_self without)
  rw [pruned, stays s none, constraintPruned]
  split
  · next q at_q =>
    rw [stays _ fun member => none (List.mem_of_mem_drop member), List.take_append_drop]
  · rfl

/-- The constraint fits where the string begins with another character. -/
theorem prune_again {url rest : List Char} {c : Char} (starts : url = c :: rest) (other : c ≠ ' ')
    (fits : ConstraintFits url) : pruneSpaces url = .ok (constraintPruned url) := by
  subst starts
  by_cases spaces : ' ' ∈ c :: rest
  · have zero : leading (c :: rest) = 0 := leading_zero other
    rw [prune_leading (behindSpaces_other other) (by rw [zero]; decide) spaces,
      (constraint_iff other).mpr fits]
  · have same := pruned_nothing spaces
    rw [pruned, behindSpaces_other other] at same
    rw [pruneSpaces_none spaces, same]

/-- Exactly the strings that fit are pruned of their leading spaces. -/
theorem pruned_iff_fits (s : List Char) : Pruned s ↔ Fits s := by
  by_cases spaces : ' ' ∈ s
  · cases behind : behindSpaces s with
    | nil =>
      have result : pruned s = [] := by
        rw [pruned, behind]
        rfl
      have again : pruneSpaces [] = .ok [] := pruneSpaces_none List.not_mem_nil
      rw [Pruned, Fits, result, prune_only behind spaces, behind]
      simp [spaces, again]
    | cons c rest =>
      have other := behindSpaces_head behind
      have result : pruned s = constraintPruned (c :: rest) := by rw [pruned, behind]
      rw [Pruned, Fits, result, behind]
      simp only [spaces, not_true_eq_false, List.cons_ne_nil, false_and, false_or, ne_eq,
        not_false_eq_true, true_and]
      constructor
      · intro right
        by_cases few : leading s < unsignedSize
        · refine ⟨few, (constraint_iff other).mp ?_⟩
          rw [prune_leading behind few spaces] at right
          exact Except.ok.inj right.1
        · obtain ⟨left, starts⟩ := prune_many (by simp [behind]) few spaces
          obtain ⟨rest', head⟩ := constraintPruned_head c rest
          rw [starts, head] at right
          exact absurd (List.cons.inj (Except.ok.inj right.1)).1.symm other
      · intro fits
        obtain ⟨same, fits_again⟩ := constraintPruned_again fits.2
        obtain ⟨rest', head⟩ := constraintPruned_head c rest
        rw [prune_leading behind fits.1 spaces, (constraint_iff other).mpr fits.2]
        exact ⟨rfl, (prune_again head other fits_again).trans (by rw [same])⟩
  · rw [Pruned, Fits, pruned_nothing spaces, pruneSpaces_none spaces]
    simp [spaces]

/-- On a single space `substr` raises. -/
theorem space_not_pruned : ¬ Pruned [' '] := by
  intro right
  exact absurd right.1 (by decide)

end Libdap.Guarantees.LeadingSpaces
