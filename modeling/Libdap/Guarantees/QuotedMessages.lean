import Libdap.Source.StringUtil
import Mathlib.Tactic

/-!
# How error messages are quoted

The loop goes from the second character to the last but one, so that a message of one double
quote, which is taken for both quotes, has it start behind its end.
-/
namespace Libdap.Guarantees.QuotedMessages
open Libdap.Source Libdap.Source.StringUtil

/-- The second text is the first with backslashes put in front of some of its double quotes. -/
inductive Escaped : List Char → List Char → Prop
  | nil : Escaped [] []
  | kept (c : Char) {x y : List Char} : Escaped x y → Escaped (c :: x) (c :: y)
  | escaped {x y : List Char} :
      Escaped x y → Escaped (quoteMark :: x) (backslash :: quoteMark :: y)

/-- Every double quote that is neither the first nor the last character is right behind a
backslash. -/
def InnerEscaped (r : List Char) : Prop :=
  ∀ i, 0 < i → i + 1 < r.length → r[i]? = some quoteMark → r[i - 1]? = some backslash

/-- The message with the enclosing quotes that are missing. -/
def enclosed (msg : List Char) : List Char :=
  (if msg.head? = some quoteMark then [] else [quoteMark]) ++ msg ++
    (if msg.getLast? = some quoteMark then [] else [quoteMark])

/-- The iterator stays in the string and the result is quoted. -/
def Quoted (msg : List Char) : Prop :=
  ∃ r, mungeErrorMessage msg = .ok r ∧ 2 ≤ r.length ∧ r.head? = some quoteMark ∧
    r.getLast? = some quoteMark ∧ InnerEscaped r ∧ Escaped (enclosed msg) r

/-! ### The loop -/

theorem escapeQuotes_insert {before : List Char} (d : Char) (rest : List Char)
    (bare : before.getLast? ≠ some backslash) :
    escapeQuotes before (quoteMark :: d :: rest) =
      escapeQuotes (before ++ [backslash, quoteMark]) (d :: rest) := by
  rw [escapeQuotes, if_pos ⟨rfl, bare⟩, escapeQuotes, if_neg (by simp), List.append_assoc]
  rfl

theorem escapeQuotes_keep {before : List Char} {c : Char} (d : Char) (rest : List Char)
    (quiet : ¬(c = quoteMark ∧ before.getLast? ≠ some backslash)) :
    escapeQuotes before (c :: d :: rest) = escapeQuotes (before ++ [c]) (d :: rest) := by
  rw [escapeQuotes, if_neg quiet]

/-- What the loop has passed and what it still adds: from `start` on every double quote but the
last character is behind a backslash. -/
def EscapedFrom (start : Nat) (r : List Char) : Prop :=
  ∀ i, start ≤ i → i + 1 < r.length → r[i]? = some quoteMark → r[i - 1]? = some backslash

theorem escapedFrom_more {n : Nat} {r : List Char} (later : EscapedFrom (n + 1) r)
    (here : r[n]? = some quoteMark → r[n - 1]? = some backslash) : EscapedFrom n r := by
  intro i low high mark
  rcases Nat.eq_or_lt_of_le low with rfl | more
  · exact here mark
  · exact later i more high mark

/-- The loop ends in front of the last character. -/
theorem escapeQuotes_spec {before miter : List Char} (before_some : before ≠ [])
    (miter_some : miter ≠ []) : ∃ tail, escapeQuotes before miter = .ok (before ++ tail) ∧
      Escaped miter tail ∧ tail.getLast? = miter.getLast? ∧ tail ≠ [] ∧
      EscapedFrom before.length (before ++ tail) := by
  induction miter generalizing before with
  | nil => exact absurd rfl miter_some
  | cons c miter ih =>
    cases miter with
    | nil =>
      refine ⟨[c], by rw [escapeQuotes], .kept c .nil, rfl, by simp, ?_⟩
      intro i low high
      simp only [List.length_append, List.length_singleton] at high
      omega
    | cons d rest =>
      have position : 0 < before.length := List.length_pos_iff.mpr before_some
      by_cases insert : c = quoteMark ∧ before.getLast? ≠ some backslash
      · obtain ⟨rfl, bare⟩ := insert
        obtain ⟨tail, done, escaped, last, tail_some, inner⟩ :=
          ih (show before ++ [backslash, quoteMark] ≠ [] by simp) (by simp)
        refine ⟨backslash :: quoteMark :: tail, ?_, .escaped escaped, ?_, by simp, ?_⟩
        · rw [escapeQuotes_insert d rest bare, done, List.append_assoc]
          rfl
        · rw [List.getLast?_cons_cons, List.getLast?_cons_cons, ← last]
          cases tail with
          | nil => exact absurd rfl tail_some
          | cons e tail => rw [List.getLast?_cons_cons]
        · rw [List.append_assoc] at inner
          apply escapedFrom_more
          · apply escapedFrom_more
            · simpa using inner
            · simp
          · intro mark
            simp [backslash, quoteMark] at mark
      · obtain ⟨tail, done, escaped, last, tail_some, inner⟩ :=
          ih (show before ++ [c] ≠ [] by simp) (by simp)
        refine ⟨c :: tail, ?_, .kept c escaped, ?_, by simp, ?_⟩
        · rw [escapeQuotes_keep d rest insert, done, List.append_assoc]
          rfl
        · rw [List.getLast?_cons_cons, ← last]
          cases tail with
          | nil => exact absurd rfl tail_some
          | cons e tail => rw [List.getLast?_cons_cons]
        · rw [List.append_assoc] at inner
          apply escapedFrom_more
          · simpa using inner
          · intro mark
            have same : c = quoteMark := by simpa using mark
            have closed : before.getLast? = some backslash :=
              not_not.mp fun bare => insert ⟨same, bare⟩
            rw [List.getElem?_append_left (by omega), ← List.getLast?_eq_getElem?, closed]

/-! ### Whole messages -/

theorem mungeErrorMessage_eq {msg : List Char} (nonempty : msg ≠ []) :
    mungeErrorMessage msg = escapeQuotes ((enclosed msg).take 1) ((enclosed msg).drop 1) := by
  have last : (quoteMark :: msg).getLast? = msg.getLast? := by
    cases msg with
    | nil => exact absurd rfl nonempty
    | cons c rest => rw [List.getLast?_cons_cons]
  rw [mungeErrorMessage, enclosed]
  by_cases first : msg.head? = some quoteMark <;> by_cases closed : msg.getLast? = some quoteMark <;>
    simp [first, closed, last]

theorem enclosed_eq {msg : List Char} (nonempty : msg ≠ []) (other : msg ≠ [quoteMark]) :
    ∃ tail, enclosed msg = quoteMark :: tail ∧ tail.getLast? = some quoteMark := by
  have closing : ∀ text : List Char, text.getLast? = msg.getLast? →
      (text ++ if msg.getLast? = some quoteMark then [] else [quoteMark]).getLast? =
        some quoteMark := by
    intro text same
    by_cases closed : msg.getLast? = some quoteMark
    · rw [if_pos closed, List.append_nil, same, closed]
    · rw [if_neg closed, List.getLast?_concat]
  rw [enclosed]
  by_cases first : msg.head? = some quoteMark
  · obtain ⟨rest, rfl⟩ := List.head?_eq_some_iff.mp first
    refine ⟨_, by rw [if_pos first, List.nil_append, List.cons_append], closing rest ?_⟩
    cases rest with
    | nil => exact absurd rfl other
    | cons d rest => rw [List.getLast?_cons_cons]
  · exact ⟨_, by rw [if_neg first, List.append_assoc, List.singleton_append], closing msg rfl⟩

/-- Exactly the empty message and the one of a double quote are not quoted. -/
theorem quoted_iff (msg : List Char) : Quoted msg ↔ msg ≠ [] ∧ msg ≠ [quoteMark] := by
  constructor
  · intro quoted
    obtain ⟨r, done, -⟩ := quoted
    constructor
    · rintro rfl
      have undefined : mungeErrorMessage [] = .error .undefinedBehaviour := by
        simp [mungeErrorMessage, escapeQuotes]
      rw [undefined] at done
      cases done
    · rintro rfl
      have undefined : mungeErrorMessage [quoteMark] = .error .undefinedBehaviour := by
        simp [mungeErrorMessage, escapeQuotes]
      rw [undefined] at done
      cases done
  · intro more
    obtain ⟨tail, whole, last⟩ := enclosed_eq more.1 more.2
    obtain ⟨r, done, escaped, same, r_some, inner⟩ := escapeQuotes_spec
      (List.cons_ne_nil quoteMark []) (show tail ≠ [] by rintro rfl; simp at last)
    refine ⟨quoteMark :: r, ?_, ?_, rfl, ?_, ?_, ?_⟩
    · rw [mungeErrorMessage_eq more.1, whole]
      exact done
    · have size := List.length_pos_iff.mpr r_some
      simp only [List.length_cons]
      omega
    · cases r with
      | nil => exact absurd rfl r_some
      | cons c r => rw [List.getLast?_cons_cons, same, last]
    · exact fun i low high mark => inner i low high mark
    · rw [whole]
      exact .kept quoteMark escaped

/-- On the empty message the iterator starts at the end. -/
theorem empty_not_quoted : ¬ Quoted [] := by
  intro quoted
  obtain ⟨r, done, -⟩ := quoted
  simp [mungeErrorMessage, escapeQuotes] at done

end Libdap.Guarantees.QuotedMessages
