import Libdap.Guarantees.CharacterClasses
import Mathlib.Tactic

/-!
# The parts of a pattern

A pattern is read into its parts once; the loop of `glob` on two strings is a search on the parts.
-/
namespace Libdap.Guarantees.PatternParts
open Libdap.Source Libdap.Source.Glob Libdap.Guarantees.CharacterClasses

/-- A part that stands for one character. A set is the text between its brackets; a bracket that
is not closed and a backslash at the end stand for no character. -/
inductive One where
  | any
  | char (x : UInt8)
  | set (body : Text)
  | broken
  deriving DecidableEq

inductive Item where
  | star
  | one (o : One)
  deriving DecidableEq

/-- The closing bracket of a set; the first character of the set is none. -/
def closing : Text → Option Nat
  | [] => none
  | [_] => none
  | _ :: y :: rest => if y = closeBracket then some 1 else (closing (y :: rest)).map (· + 1)

def items : Text → List Item
  | [] => []
  | x :: c =>
    if x = question then .one .any :: items c
    else if x = openBracket then
      match closing c with
      | none => [.one .broken]
      | some n => .one (.set (c.take n)) :: items (c.drop (n + 1))
    else if x = asterisk then .star :: items c
    else if x = backslash then
      match c.head? with
      | none => [.one .broken]
      | some y => .one (.char y) :: items c.tail
    else .one (.char x) :: items c
termination_by c => c.length
decreasing_by
  all_goals
    simp only [List.length_cons, List.length_drop, List.length_tail]
    omega

def test : One → Option UInt8 → Except Fault Bool
  | .any, x => .ok x.isSome
  | .char y, x => .ok (x = some y)
  | .set body, x => do checkBit (← globchars (body ++ [closeBracket])) (x.getD 0)
  | .broken, _ => .ok false

def search : Nat → List Item → Text → Except Fault Int
  | i, [], s => do
    let _ ← increment i
    pure (if s = [] then 0 else -1)
  | i, .star :: p, s => do
    let i ← increment i
    match ← tries (search 0 p) s s.length with
    | some true => pure 0
    | some false => pure i
    | none => search i p s
  | i, .one o :: p, s => do
    let i ← increment i
    if ← test o s.head? then search i p s.tail else pure i

/-! ### Zero bytes -/

theorem bracketEnd_eq {c : Text} (whole : (0 : UInt8) ∉ c) :
    bracketEnd (c ++ [0]) = .ok (closing c) := by
  fun_induction closing c with
  | case1 => rfl
  | case2 x =>
    have other : x ≠ 0 := by simpa [eq_comm] using whole
    simp [bracketEnd, other, closeBracket, bind, Except.bind, pure, Except.pure]
  | case3 x rest =>
    have other : x ≠ 0 := by
      rintro rfl
      simp at whole
    simp [bracketEnd, other]
  | case4 x y rest other ih =>
    have nonzero : x ≠ 0 := by
      rintro rfl
      simp at whole
    have next := ih (by simp at whole; simp [whole])
    rw [List.cons_append] at next
    rw [List.cons_append, List.cons_append, bracketEnd, if_neg nonzero]
    simp [other, next, bind, Except.bind, pure, Except.pure]

theorem closing_some {c : Text} {n : Nat} (found : closing c = some n) :
    n < c.length ∧ c.take (n + 1) = c.take n ++ [closeBracket] := by
  fun_induction closing c generalizing n with
  | case1 => simp at found
  | case2 x => simp at found
  | case3 x rest =>
    obtain rfl : 1 = n := by simpa using found
    simp
  | case4 x y rest other ih =>
    obtain ⟨m, inner, rfl⟩ := Option.map_eq_some_iff.mp found
    obtain ⟨inside, taken⟩ := ih inner
    rw [List.take_succ_cons, taken]
    simp at inside ⊢
    omega

theorem toEnd_eq {s : Text} (whole : (0 : UInt8) ∉ s) : toEnd (s ++ [0]) = .ok s.length := by
  induction s with
  | nil => rfl
  | cons x s ih =>
    obtain ⟨nonzero, rest⟩ := List.ne_and_not_mem_of_not_mem_cons whole
    rw [List.cons_append, toEnd, if_neg nonzero.symm, ih rest]
    rfl

theorem tries_congr {f g : Text → Except Fault Int} {here there : Text} {k : Nat}
    (same : ∀ j, 0 < j → j ≤ k → f (here.drop j) = g (there.drop j)) :
    tries f here k = tries g there k := by
  induction k with
  | zero => rfl
  | succ k ih =>
    rw [tries, tries, same (k + 1) (by omega) le_rfl, ih fun j low high => same j low (by omega)]

theorem bind_congr_of_ok {ε α β : Type} {x : Except ε α} {f g : α → Except ε β}
    (same : ∀ a, x = .ok a → f a = g a) : (x >>= f) = (x >>= g) := by
  cases x with
  | error e => rfl
  | ok a => exact same a rfl

theorem deref_array (s : Text) : deref (s ++ [0]) = .ok (s.head?.getD 0) := by
  cases s <;> rfl

theorem tail_array {s : Text} (more : s ≠ []) : (s ++ [0]).tail = s.tail ++ [0] :=
  List.tail_append_of_ne_nil more

theorem head_zero {s : Text} (whole : (0 : UInt8) ∉ s) : s.head?.getD 0 = 0 ↔ s = [] := by
  cases s with
  | nil => simp
  | cons x s =>
    obtain ⟨nonzero, -⟩ := List.ne_and_not_mem_of_not_mem_cons whole
    simpa using nonzero.symm

section
variable (c s : Text) (i : Nat)

theorem items_question : items (question :: c) = .one .any :: items c := by
  simp [items]

theorem items_set {n : Nat} (found : closing c = some n) :
    items (openBracket :: c) = .one (.set (c.take n)) :: items (c.drop (n + 1)) := by
  rw [items, if_neg (by decide), if_pos rfl, found]

theorem items_open (none : closing c = none) : items (openBracket :: c) = [.one .broken] := by
  rw [items, if_neg (by decide), if_pos rfl, none]

theorem items_star : items (asterisk :: c) = .star :: items c := by
  rw [items, if_neg (by decide), if_neg (by decide), if_pos rfl]

theorem items_escaped (y : UInt8) : items (backslash :: y :: c) = .one (.char y) :: items c := by
  rw [items, if_neg (by decide), if_neg (by decide), if_neg (by decide), if_pos rfl]
  rfl

theorem items_backslash : items [backslash] = [.one .broken] := by
  rw [items]
  decide

theorem items_char {x : UInt8}
    (plain : x ≠ question ∧ x ≠ openBracket ∧ x ≠ asterisk ∧ x ≠ backslash) :
    items (x :: c) = .one (.char x) :: items c := by
  rw [items, if_neg plain.1, if_neg plain.2.1, if_neg plain.2.2.1, if_neg plain.2.2.2]

theorem loop_question : globLoop i (question :: c) s = (do
    let i ← increment i
    if (← deref s) = 0 then pure (i : Int) else globLoop i c s.tail) := by
  rw [globLoop]
  simp [question]

theorem loop_set : globLoop i (openBracket :: c) s = (do
    let i ← increment i
    match ← bracketEnd c with
    | none => pure (i : Int)
    | some n =>
      let bitlist ← globchars (c.take (n + 1))
      if ← checkBit bitlist (← deref s) then globLoop i (c.drop (n + 1)) s.tail
      else pure (i : Int)) := by
  rw [globLoop]
  simp [question, openBracket]
  all_goals rfl

theorem loop_star : globLoop i (asterisk :: c) s = (do
    let i ← increment i
    match ← tries (fun t => do if (← deref c) ≠ 0 then globLoop 0 c t else atEnd t) s
        (← toEnd s) with
    | some true => pure 0
    | some false => pure (i : Int)
    | none => globLoop i c s) := by
  rw [globLoop]
  simp [question, openBracket, asterisk]
  all_goals rfl

theorem loop_backslash : globLoop i (backslash :: c) s = (do
    let i ← increment i
    let y ← deref c
    if y = 0 then pure (i : Int)
    else if (← deref s) ≠ y then pure (i : Int)
    else globLoop i c.tail s.tail) := by
  rw [globLoop]
  simp [question, openBracket, asterisk, backslash]

theorem loop_char {x : UInt8}
    (plain : x ≠ question ∧ x ≠ openBracket ∧ x ≠ asterisk ∧ x ≠ backslash) (nonzero : x ≠ 0) :
    globLoop i (x :: c) s = (do
      let i ← increment i
      if (← deref s) ≠ x then pure (i : Int) else globLoop i c s.tail) := by
  rw [globLoop]
  simp [plain, nonzero]

theorem loop_end : globLoop i [0] s = (do
    let _ ← increment i
    atEnd s) := by
  rw [globLoop]
  simp

end

/-- A step over a part that stands for one character. -/
theorem one_step {o : One} {p : List Item} {x : UInt8} {c rest s : Text} {i : Nat}
    (s_whole : (0 : UInt8) ∉ s)
    (loop : globLoop i (x :: c) (s ++ [0]) = (do
      let i ← increment i
      let taken ← test o s.head?
      if taken then globLoop i (rest ++ [0]) (s ++ [0]).tail else pure (i : Int)))
    (ends : test o none ≠ .ok true)
    (next : ∀ i (t : Text), (0 : UInt8) ∉ t →
      globLoop i (rest ++ [0]) (t ++ [0]) = search i p t) :
    globLoop i (x :: c) (s ++ [0]) = search i (.one o :: p) s := by
  have tails : (0 : UInt8) ∉ s.tail := fun member => s_whole (List.mem_of_mem_tail member)
  rw [loop, search]
  refine bind_congr fun i' => bind_congr_of_ok fun taken tested => ?_
  cases taken with
  | false => rfl
  | true =>
    have more : s ≠ [] := by
      rintro rfl
      exact ends tested
    rw [if_pos rfl, if_pos rfl, tail_array more, next _ _ tails]

theorem char_test {s : Text} {y : UInt8} (nonzero : y ≠ 0) (taken other : Except Fault Int) :
    (do if (← deref (s ++ [0])) ≠ y then other else taken) =
      (do if ← test (.char y) s.head? then taken else other) := by
  cases s with
  | nil => simp [deref, test, nonzero.symm, bind, Except.bind]
  | cons x s =>
    by_cases same : x = y
    · simp [deref, test, same, bind, Except.bind]
    · simp [deref, test, same, bind, Except.bind]

theorem any_test {s : Text} (whole : (0 : UInt8) ∉ s) (taken other : Except Fault Int) :
    (do if (← deref (s ++ [0])) = 0 then other else taken) =
      (do if ← test .any s.head? then taken else other) := by
  cases s with
  | nil => simp [deref, test, bind, Except.bind]
  | cons x s =>
    obtain ⟨nonzero, -⟩ := List.ne_and_not_mem_of_not_mem_cons whole
    simp [deref, test, nonzero.symm, bind, Except.bind]

/-- The zero byte at the end is in no set. -/
theorem set_test_end (body : Text) : test (.set body) none ≠ .ok true := by
  obtain ⟨filled, outside⟩ := globchars_spec (body ++ [closeBracket])
  by_cases fit : fitsTable (body ++ [closeBracket])
  · obtain ⟨b, made, bits⟩ := filled fit
    have zero := bits ⟨0, by decide⟩
    have off : bit b ⟨0, by decide⟩ = false := by
      rw [Bool.eq_false_iff, ne_eq, zero]
      simp [inSet]
    rw [test, made]
    refine fun same => ?_
    have value : checkBit b 0 = .ok true := same
    rw [checkBit_inside b (by decide)] at value
    exact Bool.noConfusion (off.symm.trans (Except.ok.inj value))
  · rw [test, outside fit]
    exact fun same => by cases same

theorem atEnd_array {s : Text} (whole : (0 : UInt8) ∉ s) :
    atEnd (s ++ [0]) = .ok (if s = [] then 0 else -1) := by
  simp [atEnd, deref_array, head_zero whole, bind, Except.bind, pure, Except.pure]

/-- A try behind an asterisk. -/
def retry (c t : Text) : Except Fault Int := do
  if (← deref c) ≠ 0 then globLoop 0 c t else atEnd t

theorem retry_eq {c t : Text} (c_whole : (0 : UInt8) ∉ c) (t_whole : (0 : UInt8) ∉ t)
    (next : globLoop 0 (c ++ [0]) (t ++ [0]) = search 0 (items c) t) :
    retry (c ++ [0]) (t ++ [0]) = search 0 (items c) t := by
  rw [retry, deref_array, next]
  by_cases empty : c = []
  · rw [empty, items, search, atEnd_array t_whole]
    rfl
  · have more : c.head?.getD 0 ≠ 0 := by rwa [ne_eq, head_zero c_whole]
    simp [more, bind, Except.bind]

theorem loop_retry (c s : Text) (i : Nat) : globLoop i (asterisk :: c) s = (do
    let i ← increment i
    match ← tries (retry c) s (← toEnd s) with
    | some true => pure 0
    | some false => pure (i : Int)
    | none => globLoop i c s) :=
  loop_star c s i

/-- A step over a set that is closed. -/
theorem set_step {p : List Item} {c s : Text} {n i : Nat} (c_whole : (0 : UInt8) ∉ c)
    (s_whole : (0 : UInt8) ∉ s) (found : closing c = some n)
    (next : ∀ i (t : Text), (0 : UInt8) ∉ t →
      globLoop i (c.drop (n + 1) ++ [0]) (t ++ [0]) = search i p t) :
    globLoop i (openBracket :: (c ++ [0])) (s ++ [0]) =
      search i (.one (.set (c.take n)) :: p) s := by
  obtain ⟨inside, taken⟩ := closing_some found
  refine one_step s_whole ?_ (set_test_end _) next
  rw [loop_set, bracketEnd_eq c_whole, found]
  have front : (c ++ [0]).take (n + 1) = c.take n ++ [closeBracket] :=
    (List.take_append_of_le_length inside).trans taken
  have back : (c ++ [0]).drop (n + 1) = c.drop (n + 1) ++ [0] :=
    List.drop_append_of_le_length inside
  refine bind_congr fun i' => ?_
  simp only [bind, Except.bind, test, front, back, deref_array]
  cases globchars (c.take n ++ [closeBracket]) <;> rfl

/-- A step over an asterisk. -/
theorem star_step {c s : Text} {i : Nat} (c_whole : (0 : UInt8) ∉ c) (s_whole : (0 : UInt8) ∉ s)
    (next : ∀ i (t : Text), (0 : UInt8) ∉ t →
      globLoop i (c ++ [0]) (t ++ [0]) = search i (items c) t) :
    globLoop i (asterisk :: (c ++ [0])) (s ++ [0]) = search i (.star :: items c) s := by
  have tried : ∀ j, 0 < j → j ≤ s.length →
      retry (c ++ [0]) ((s ++ [0]).drop j) = search 0 (items c) (s.drop j) := by
    intro j _ inside
    have ends : (0 : UInt8) ∉ s.drop j := fun member => s_whole (List.mem_of_mem_drop member)
    rw [List.drop_append_of_le_length inside]
    exact retry_eq c_whole ends (next 0 _ ends)
  rw [loop_retry, toEnd_eq s_whole, search]
  refine bind_congr fun i' => ?_
  simp only [bind, Except.bind]
  rw [tries_congr tried, next i' s s_whole]

/-- The loop on two strings is the search on the parts of the pattern. -/
theorem globLoop_eq {c s : Text} (c_whole : (0 : UInt8) ∉ c) (s_whole : (0 : UInt8) ∉ s) (i : Nat) :
    globLoop i (c ++ [0]) (s ++ [0]) = search i (items c) s := by
  induction length : c.length using Nat.strong_induction_on generalizing c s i with
  | _ n ih =>
    subst length
    cases c with
    | nil =>
      rw [List.nil_append, loop_end, items, search, atEnd_array s_whole]
      rfl
    | cons x c =>
      obtain ⟨nonzero, rest⟩ := List.ne_and_not_mem_of_not_mem_cons c_whole
      have next : ∀ i (t : Text), (0 : UInt8) ∉ t →
          globLoop i (c ++ [0]) (t ++ [0]) = search i (items c) t :=
        fun i t whole => ih c.length (by simp) rest whole i rfl
      rw [List.cons_append]
      by_cases isQuestion : x = question
      · subst isQuestion
        rw [items_question]
        refine one_step s_whole ?_ (by simp [test]) next
        rw [loop_question]
        exact bind_congr fun i' => any_test s_whole ..
      by_cases isBracket : x = openBracket
      · subst isBracket
        cases found : closing c with
        | none =>
          rw [items_open c found, loop_set, bracketEnd_eq rest, found]
          rfl
        | some n =>
          have behind : (0 : UInt8) ∉ c.drop (n + 1) :=
            fun member => rest (List.mem_of_mem_drop member)
          rw [items_set c found]
          exact set_step rest s_whole found fun i t whole =>
            ih (c.drop (n + 1)).length (by simp) behind whole i rfl
      by_cases isStar : x = asterisk
      · subst isStar
        rw [items_star]
        exact star_step rest s_whole next
      by_cases isBackslash : x = backslash
      · subst isBackslash
        cases c with
        | nil =>
          rw [items_backslash, loop_backslash]
          rfl
        | cons y c =>
          obtain ⟨other, later⟩ := List.ne_and_not_mem_of_not_mem_cons rest
          rw [items_escaped]
          refine one_step s_whole ?_ (by simp [test]) fun i t whole =>
            ih c.length (by simp) later whole i rfl
          rw [loop_backslash]
          refine bind_congr fun i' => Eq.trans ?_ (char_test other.symm ..)
          rw [List.cons_append, deref, List.tail_cons]
          simp [bind, Except.bind, other.symm]
      have plain := And.intro isQuestion (And.intro isBracket (And.intro isStar isBackslash))
      rw [items_char c plain]
      refine one_step s_whole ?_ (by simp [test]) next
      rw [loop_char _ _ _ plain nonzero.symm]
      exact bind_congr fun i' => char_test nonzero.symm ..

end Libdap.Guarantees.PatternParts
