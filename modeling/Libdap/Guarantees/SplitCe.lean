import Libdap.Guarantees.Keywords
import Libdap.Source.SplitCe
import Mathlib.Tactic

/-!
# Which calls are taken out of a constraint

The scan pairs the next opening parenthesis with the next closing one, so it sees neither where a
nested call ends nor where a clause begins behind a plain variable.
-/
namespace Libdap.Guarantees.SplitCe
open Libdap.Source Libdap.Source.Escaping Libdap.Source.Keywords Libdap.Source.SplitCe
open Libdap.Guarantees.Keywords

/-- The parentheses left open, where none closes that is not open. -/
def depth (opened : Nat) : Text → Option Nat
  | [] => some opened
  | c :: rest =>
    if c = openParen then depth (opened + 1) rest
    else if c = closeParen then
      match opened with
      | 0 => none
      | outer + 1 => depth outer rest
    else depth opened rest

/-- A name, or the path of a variable with its hyperslabs. -/
abbrev Word := { t : Text // t.all plain = true }

/-- The text between two parentheses that belong together. -/
abbrev Args := { t : Text // depth 0 t = some 0 }

inductive Clause where
  | path (name : Word)
  | call (function : Word) (args : Args)

def Clause.text : Clause → Text
  | .path name => name
  | .call function args => function ++ openParen :: (args ++ [closeParen])

structure Constraint where
  clauses : List Clause
  selection : Text
  apart : selection = [] ∨ selection.head? = some ampersand

/-- The registered functions; the names are words of the grammar. -/
structure Functions where
  list : List ServerFunction
  words : ∀ f ∈ list, f.name.all plain = true

def Functions.has (functions : Functions) (name : Text) : Bool :=
  findFunction functions.list name

def Clause.called (functions : Functions) : Clause → Bool
  | .path _ => false
  | .call function _ => functions.has function

def commaList (texts : List Text) : Text := [comma].intercalate texts

def textOf (clauses : List Clause) (selection : Text) : Text :=
  commaList (clauses.map Clause.text) ++ selection

def Constraint.text (c : Constraint) : Text := textOf c.clauses c.selection

def calls (functions : Functions) (clauses : List Clause) : List Clause :=
  clauses.filter (·.called functions)

def others (functions : Functions) (clauses : List Clause) : List Clause :=
  clauses.filter (!·.called functions)

/-- Wherever the constraint comes from, the calls are in the one string and what is left of the
constraint in the other. -/
def Splits (functions : Functions) (c : Constraint) : Prop :=
  ∀ expr ce, (if expr ≠ [] then expr else ce) = c.text →
    splitCe functions.list expr ce =
      (textOf (others functions c.clauses) c.selection,
        commaList ((calls functions c.clauses).map Clause.text))

def dropComma : Text → Text
  | [] => []
  | c :: rest => if c = comma then rest else c :: rest

/-- A call of a registered function is at the front, with a closing parenthesis somewhere. -/
def Opens (functions : Functions) (s : Text) : Prop :=
  ∃ name rest, s = name ++ openParen :: rest ∧ functions.has name = true ∧ closeParen ∈ rest

/-- No such call is at the front, nor behind any closing parenthesis and its comma. -/
def Quiet (functions : Functions) (s : Text) : Prop :=
  ¬ Opens functions s ∧ ∀ a b, s = a ++ closeParen :: b → ¬ Opens functions (dropComma b)

def Clause.isPath : Clause → Bool
  | .path _ => true
  | .call _ _ => false

/-- When the scan takes out the right clauses: a call that is taken has no call inside, is not
directly behind a path, and is not the last clause, unless nothing is left; nothing else that the
scan comes to looks like such a call. -/
structure Separable (functions : Functions) (clauses : List Clause) (selection : Text) : Prop where
  flat : ∀ function args, Clause.call function args ∈ clauses → functions.has function = true →
    openParen ∉ args.1
  quiet : ∀ k ∈ clauses, k.called functions = false → Quiet functions k.text
  quietSelection : Quiet functions selection
  front : clauses.IsChain fun k next => k.isPath = true → next.called functions = false
  last : (∀ k ∈ clauses, k.called functions = true) ∨
    ∀ k ∈ clauses.getLast?, k.called functions = false

/-! ### The scan -/

def commaOf : Text → Text
  | [] => []
  | c :: _ => if c = comma then [comma] else []

theorem commaOf_dropComma (s : Text) : commaOf s ++ dropComma s = s := by
  cases s with
  | nil => rfl
  | cons c rest =>
    rw [commaOf, dropComma]
    split
    · next same => rw [same, List.singleton_append]
    · rfl

theorem dropComma_length (s : Text) : (dropComma s).length ≤ s.length := by
  have parts := congrArg List.length (commaOf_dropComma s)
  rw [List.length_append] at parts
  omega

/-- The calls that are taken out of the text behind the position, and what is left of it. -/
def scan (functions : Functions) (s : Text) : List Text × Text :=
  match find openParen s, closing : find closeParen s with
  | some i, some j =>
    have := dropComma_length (s.drop (j + 1))
    have := (find_some closing).2.2
    have := (List.getElem?_eq_some_iff.mp this).1
    have : (s.drop (j + 1)).length = s.length - (j + 1) := List.length_drop
    let rest := scan functions (dropComma (s.drop (j + 1)))
    if functions.has (s.take i) then (s.take (j + 1) :: rest.1, rest.2)
    else (rest.1, s.take (j + 1) ++ (commaOf (s.drop (j + 1)) ++ rest.2))
  | _, _ => ([], s)
termination_by s.length
decreasing_by omega

def appended (btp piece : Text) : Text := (if btp = [] then btp else btp ++ [comma]) ++ piece

theorem find_behind (c : UInt8) (before s : Text) :
    findFrom c (before ++ s) before.length = (find c s).map (before.length + ·) := by
  rw [findFrom, List.drop_left]

theorem substr_behind (before s : Text) (n : Nat) : substr (before ++ s) before.length n =
    s.take n := by
  rw [substr, List.drop_left]

theorem erase_behind (before s : Text) (n : Nat) : erase (before ++ s) before.length n =
    before ++ s.drop n := by
  rw [erase, List.take_left, List.drop_append, List.drop_eq_nil_of_le (by omega),
    Nat.add_sub_cancel_left, List.nil_append]

theorem eraseComma_behind (before s : Text) : eraseComma (before ++ s) before.length =
    before ++ dropComma s := by
  rw [eraseComma, List.getElem?_append_right le_rfl, Nat.sub_self]
  cases s with
  | nil => simp [dropComma]
  | cons c rest =>
    by_cases same : c = comma
    · simp [same, dropComma, erase_behind]
    · simp [same, dropComma]

theorem behindComma_eq (before s : Text) : behindComma (before ++ s) before.length =
    (before ++ commaOf s).length := by
  rw [behindComma, List.getElem?_append_right le_rfl, Nat.sub_self]
  cases s with
  | nil => simp [commaOf]
  | cons c rest =>
    by_cases same : c = comma
    · simp [same, commaOf]
    · simp [same, commaOf]

theorem splitLoop_found {functions : Functions} {ce btp : Text} {pos i j : Nat}
    (opening : findFrom openParen ce pos = some i) (closing : findFrom closeParen ce pos = some j) :
    splitLoop functions.list ce btp pos =
      if functions.has (substr ce pos (i - pos)) then
        splitLoop functions.list (eraseComma (erase ce pos (j + 1 - pos)) pos)
          (appended btp (substr ce pos (j + 1 - pos))) pos
      else splitLoop functions.list ce btp (behindComma ce (j + 1)) := by
  rw [splitLoop]
  split
  · next a b here there =>
    obtain rfl : a = i := Option.some.inj (here.symm.trans opening)
    obtain rfl : b = j := Option.some.inj (there.symm.trans closing)
    rfl
  · next none => exact absurd closing (none i j opening)

theorem splitLoop_none {functions : List ServerFunction} {ce btp : Text} {pos : Nat}
    (none : findFrom openParen ce pos = none ∨ findFrom closeParen ce pos = none) :
    splitLoop functions ce btp pos = (ce, btp) := by
  rw [splitLoop]
  split
  · next here there => simp [here, there] at none
  · rfl

/-- The loop on a position is the scan of the text behind it. -/
theorem splitLoop_eq (functions : Functions) (before btp s : Text) :
    splitLoop functions.list (before ++ s) btp before.length =
      (before ++ (scan functions s).2, (scan functions s).1.foldl appended btp) := by
  fun_induction scan functions s generalizing before btp with
  | case1 s i j closing opening _ _ _ _ rest found ih =>
    have opened : findFrom openParen (before ++ s) before.length = some (before.length + i) := by
      rw [find_behind, opening, Option.map_some]
    have closed : findFrom closeParen (before ++ s) before.length = some (before.length + j) := by
      rw [find_behind, closing, Option.map_some]
    have firstLength : before.length + i - before.length = i := by omega
    have pieceLength : before.length + j + 1 - before.length = j + 1 := by omega
    rw [splitLoop_found opened closed, firstLength, pieceLength, substr_behind, if_pos found,
      erase_behind, eraseComma_behind, substr_behind, ih]
    rfl
  | case2 s i j closing opening _ _ _ _ rest other ih =>
    have opened : findFrom openParen (before ++ s) before.length = some (before.length + i) := by
      rw [find_behind, opening, Option.map_some]
    have closed : findFrom closeParen (before ++ s) before.length = some (before.length + j) := by
      rw [find_behind, closing, Option.map_some]
    have firstLength : before.length + i - before.length = i := by omega
    have inside := (List.getElem?_eq_some_iff.mp (find_some closing).2.2).1
    have kept : (before ++ s.take (j + 1)).length = before.length + j + 1 := by
      rw [List.length_append, List.length_take]
      omega
    have whole : before ++ s = (before ++ s.take (j + 1)) ++ s.drop (j + 1) := by
      rw [List.append_assoc, List.take_append_drop]
    have parts : (before ++ s.take (j + 1)) ++ s.drop (j + 1) =
        (before ++ s.take (j + 1) ++ commaOf (s.drop (j + 1))) ++ dropComma (s.drop (j + 1)) := by
      rw [List.append_assoc _ (commaOf _), commaOf_dropComma]
    rw [splitLoop_found opened closed, firstLength, substr_behind, if_neg other, whole, ← kept,
      behindComma_eq, parts, ih]
    simp [rest]
  | case3 s none =>
    refine splitLoop_none ?_
    rw [find_behind, find_behind]
    cases opening : find openParen s with
    | none => simp
    | some i =>
      cases closing : find closeParen s with
      | none => simp
      | some j => exact absurd closing (none i j opening)

/-! ### Words -/

theorem word_free {w : Text} {c : UInt8} (w_plain : w.all plain = true) (other : plain c = false) :
    c ∉ w := by
  intro member
  rw [List.all_eq_true.mp w_plain c member] at other
  exact Bool.noConfusion other

/-- A word ends at the first character that is not plain. -/
theorem word_unique {v w a b : Text} {c d : UInt8} (v_plain : v.all plain = true)
    (w_plain : w.all plain = true) (c_other : plain c = false) (d_other : plain d = false)
    (same : v ++ c :: a = w ++ d :: b) : v = w ∧ c = d ∧ a = b := by
  induction v generalizing w with
  | nil =>
    cases w with
    | nil => simpa using same
    | cons e w =>
      obtain ⟨rfl, -⟩ := List.cons.inj same
      simp [c_other] at w_plain
  | cons e v ih =>
    cases w with
    | nil =>
      obtain ⟨rfl, -⟩ := List.cons.inj same
      simp [d_other] at v_plain
    | cons f w =>
      obtain ⟨rfl, rest⟩ := List.cons.inj same
      rw [List.all_cons, Bool.and_eq_true] at v_plain w_plain
      obtain ⟨rfl, equal, behind⟩ := ih v_plain.2 w_plain.2 rest
      exact ⟨rfl, equal, behind⟩

theorem append_cons_split {p q a b : Text} {c : UInt8} (free : c ∉ p)
    (same : p ++ q = a ++ c :: b) : ∃ a', a = p ++ a' ∧ q = a' ++ c :: b := by
  obtain ⟨a', rfl, rest⟩ | ⟨c', rfl, rest⟩ := List.append_eq_append_iff.mp same
  · exact ⟨a', rfl, rest⟩
  · cases c' with
    | nil => exact ⟨[], by simp, by simpa using rest.symm⟩
    | cons d c' =>
      obtain ⟨rfl, -⟩ := List.cons.inj rest
      simp at free

theorem Functions.has_plain {functions : Functions} {name : Text}
    (found : functions.has name = true) : name.all plain = true := by
  obtain ⟨f, member, here⟩ := List.any_eq_true.mp found
  simp only [Bool.and_eq_true, decide_eq_true_eq] at here
  exact here.1 ▸ functions.words f member

/-! ### The pieces of a text -/

section
variable {functions : Functions}

theorem not_opens_of_free {s : Text} (free : closeParen ∉ s) : ¬ Opens functions s := by
  intro ⟨name, rest, whole, _, closed⟩
  rw [whole] at free
  simp [closed] at free

/-- Whether a call is at the front does not depend on what is behind the closing parenthesis. -/
theorem opens_change {body a b : Text} (opens : Opens functions (body ++ closeParen :: a)) :
    Opens functions (body ++ closeParen :: b) := by
  obtain ⟨name, rest, whole, found, -⟩ := opens
  have free : closeParen ∉ name := word_free (functions.has_plain found) (by decide)
  obtain ⟨inner, rfl, same⟩ | ⟨inner, rfl, same⟩ := List.append_eq_append_iff.mp whole
  · cases inner with
    | nil => simp [openParen, closeParen] at same
    | cons c inner =>
      obtain ⟨rfl, -⟩ := List.cons.inj same
      simp at free
  · cases inner with
    | nil => simp [openParen, closeParen] at same
    | cons c inner =>
      obtain ⟨rfl, -⟩ := List.cons.inj same
      exact ⟨name, inner ++ closeParen :: b, by simp, found, by simp⟩

theorem opens_append {s : Text} (opens : Opens functions s) (z : Text) :
    Opens functions (s ++ z) := by
  obtain ⟨name, rest, rfl, found, closed⟩ := opens
  exact ⟨name, rest ++ z, by simp, found, by simp [closed]⟩

theorem scan_stop {s : Text} (none : openParen ∉ s ∨ closeParen ∉ s) :
    scan functions s = ([], s) := by
  rw [scan]
  split
  · next i j opening closing =>
    cases none with
    | inl free => simp [find_none.mpr free] at opening
    | inr free => simp [find_none.mpr free] at closing
  · rfl

theorem scan_found {s : Text} {i j : Nat} (opening : find openParen s = some i)
    (closing : find closeParen s = some j) :
    scan functions s =
      if functions.has (s.take i) then
        (s.take (j + 1) :: (scan functions (dropComma (s.drop (j + 1)))).1,
          (scan functions (dropComma (s.drop (j + 1)))).2)
      else
        ((scan functions (dropComma (s.drop (j + 1)))).1,
          s.take (j + 1) ++
            (commaOf (s.drop (j + 1)) ++ (scan functions (dropComma (s.drop (j + 1)))).2)) := by
  rw [scan]
  split
  · next a b here there =>
    obtain rfl : a = i := Option.some.inj (here.symm.trans opening)
    obtain rfl : b = j := Option.some.inj (there.symm.trans closing)
    rfl
  · next none => exact absurd closing (none i j opening)

theorem take_behind (body rest : Text) (c : UInt8) :
    (body ++ c :: rest).take (body.length + 1) = body ++ [c] := by
  rw [List.take_length_add_append, List.take_succ_cons, List.take_zero]

theorem drop_behind (body rest : Text) (c : UInt8) :
    (body ++ c :: rest).drop (body.length + 1) = rest := by
  rw [List.drop_length_add_append, List.drop_succ_cons, List.drop_zero]

theorem scan_call {name x rest : Text} (found : functions.has name = true)
    (free : closeParen ∉ x) :
    scan functions (name ++ openParen :: (x ++ closeParen :: rest)) =
      ((name ++ openParen :: (x ++ [closeParen])) :: (scan functions (dropComma rest)).1,
        (scan functions (dropComma rest)).2) := by
  have name_plain := functions.has_plain found
  have opening := find_append (word_free (c := openParen) name_plain (by decide))
    (x ++ closeParen :: rest)
  have whole : name ++ openParen :: (x ++ closeParen :: rest) =
      (name ++ openParen :: x) ++ closeParen :: rest := by
    simp
  have before : closeParen ∉ name ++ openParen :: x := by
    rw [List.mem_append, List.mem_cons]
    rintro (inside | same | inside)
    · exact word_free name_plain (by decide) inside
    · exact absurd same (by decide)
    · exact free inside
  have closing := find_append before rest
  rw [← whole] at closing
  rw [scan_found opening closing, List.take_left, if_pos found, whole, take_behind, drop_behind]
  simp

theorem scan_skip {body rest : Text} (free : closeParen ∉ body)
    (closes : ¬ Opens functions (body ++ closeParen :: rest)) :
    scan functions (body ++ closeParen :: rest) =
      ((scan functions (dropComma rest)).1,
        body ++ closeParen :: (commaOf rest ++ (scan functions (dropComma rest)).2)) := by
  have closing := find_append free rest
  cases opening : find openParen (body ++ closeParen :: rest) with
  | none =>
    have none := find_none.mp opening
    have later : openParen ∉ dropComma rest := by
      intro member
      rw [← commaOf_dropComma rest] at none
      simp [member] at none
    rw [scan_stop (.inl none), scan_stop (.inl later), commaOf_dropComma]
  | some i =>
    obtain ⟨parts, -, -⟩ := find_some opening
    rw [scan_found opening closing, if_neg, take_behind, drop_behind]
    · simp
    · intro found
      refine closes ⟨_, _, parts, found, ?_⟩
      have member : closeParen ∈ body ++ closeParen :: rest := by simp
      rw [parts, List.mem_append, List.mem_cons] at member
      obtain inside | same | inside := member
      · exact absurd inside (word_free (functions.has_plain found) (by decide))
      · exact absurd same (by decide)
      · exact inside

/-- A text is scanned up to its first closing parenthesis, and then from there. -/
theorem segments (functions : Functions) {motive : Text → Prop}
    (stop : ∀ s, closeParen ∉ s → motive s)
    (call : ∀ name x rest, functions.has name = true → closeParen ∉ x →
      motive (dropComma rest) → motive (name ++ openParen :: (x ++ closeParen :: rest)))
    (skip : ∀ body rest, closeParen ∉ body → ¬ Opens functions (body ++ closeParen :: rest) →
      motive (dropComma rest) → motive (body ++ closeParen :: rest))
    (s : Text) : motive s := by
  induction length : s.length using Nat.strong_induction_on generalizing s with
  | _ n ih =>
    subst length
    by_cases opens : Opens functions s
    · obtain ⟨name, behind, rfl, found, closed⟩ := opens
      obtain ⟨x, rest, rfl, free⟩ := List.eq_append_cons_of_mem closed
      have shorter := dropComma_length rest
      exact call name x rest found free (ih _ (by simp; omega) _ rfl)
    · by_cases closed : closeParen ∈ s
      · obtain ⟨body, rest, rfl, free⟩ := List.eq_append_cons_of_mem closed
        have shorter := dropComma_length rest
        exact skip body rest free opens (ih _ (by simp; omega) _ rfl)
      · exact stop s closed

/-- What is left never begins with a call of a registered function. -/
theorem not_opens_kept (s : Text) : ¬ Opens functions (scan functions s).2 := by
  induction s using segments functions with
  | stop s free =>
    rw [scan_stop (.inr free)]
    exact not_opens_of_free free
  | call name x rest found free ih =>
    rw [scan_call found free]
    exact ih
  | skip body rest free closes ih =>
    rw [scan_skip free closes]
    exact fun opens => closes (opens_change opens)

/-! ### Quiet texts -/

theorem quiet_of_free {s : Text} (free : closeParen ∉ s) : Quiet functions s := by
  refine ⟨not_opens_of_free free, fun a b whole => ?_⟩
  rw [whole] at free
  simp at free

theorem comma_free (s : Text) : closeParen ∉ commaOf s := by
  cases s with
  | nil => simp [commaOf]
  | cons c rest =>
    rw [commaOf]
    split <;> decide

theorem quiet_skip {body rest : Text} (free : closeParen ∉ body) :
    Quiet functions (body ++ closeParen :: rest) ↔
      ¬ Opens functions (body ++ closeParen :: rest) ∧ Quiet functions (dropComma rest) := by
  constructor
  · intro quiet
    refine ⟨quiet.1, quiet.2 body rest rfl, fun a b whole => ?_⟩
    refine quiet.2 (body ++ closeParen :: (commaOf rest ++ a)) b ?_
    have parts := commaOf_dropComma rest
    rw [whole] at parts
    rw [List.append_assoc, List.cons_append, List.append_assoc, parts]
  · intro ⟨closes, quiet⟩
    refine ⟨closes, fun a b whole => ?_⟩
    obtain ⟨a', rfl, later⟩ := append_cons_split free whole
    cases a' with
    | nil =>
      obtain ⟨-, rfl⟩ := List.cons.inj later
      exact quiet.1
    | cons c a' =>
      obtain ⟨-, later⟩ := List.cons.inj later
      rw [← commaOf_dropComma rest] at later
      obtain ⟨a'', -, inside⟩ := append_cons_split (comma_free rest) later
      exact quiet.2 a'' b inside

theorem opens_call {name x rest : Text} (found : functions.has name = true) :
    Opens functions (name ++ openParen :: (x ++ closeParen :: rest)) :=
  ⟨name, _, rfl, found, by simp⟩

theorem pieces_nil_iff (s : Text) : (scan functions s).1 = [] ↔ Quiet functions s := by
  induction s using segments functions with
  | stop s free => simp [scan_stop (.inr free), quiet_of_free free]
  | call name x rest found free ih =>
    rw [scan_call found free]
    exact iff_of_false (by simp) fun quiet => quiet.1 (opens_call found)
  | skip body rest free closes ih =>
    rw [scan_skip free closes, quiet_skip free, ih]
    exact (and_iff_right closes).symm

theorem scan_quiet {s : Text} (quiet : Quiet functions s) : scan functions s = ([], s) := by
  induction s using segments functions with
  | stop s free => exact scan_stop (.inr free)
  | call name x rest found free ih => exact absurd (opens_call found) quiet.1
  | skip body rest free closes ih =>
    rw [scan_skip free closes, ih ((quiet_skip free).mp quiet).2, commaOf_dropComma]

/-! ### A text in front of another -/

theorem ends_behind {body rest : Text}
    (ends : (body ++ closeParen :: rest).getLast? = some closeParen)
    (more : rest ≠ []) : (dropComma rest).getLast? = some closeParen ∧ dropComma rest ≠ [] := by
  have last : rest.getLast? = some closeParen := by
    cases rest with
    | nil => exact absurd rfl more
    | cons c rest => simpa using ends
  cases rest with
  | nil => exact absurd rfl more
  | cons c rest =>
    rw [dropComma]
    split
    · next same =>
      cases rest with
      | nil => rw [same] at last; exact absurd last (by decide)
      | cons d rest => exact ⟨by simpa using last, by simp⟩
    · exact ⟨last, by simp⟩

theorem dropComma_append {rest : Text} (more : rest ≠ []) (tail : Text) :
    commaOf (rest ++ tail) = commaOf rest ∧ dropComma (rest ++ tail) = dropComma rest ++ tail := by
  cases rest with
  | nil => exact absurd rfl more
  | cons c rest =>
    rw [List.cons_append, commaOf, dropComma, commaOf, dropComma]
    split <;> simp

theorem comma_parts (s z : Text) : commaOf s ++ (dropComma s ++ z) = s ++ z := by
  rw [← List.append_assoc, commaOf_dropComma]

/-- A quiet text that ends with a closing parenthesis is left as it is. -/
theorem scan_through {t : Text} (ends : t.getLast? = some closeParen) (quiet : Quiet functions t)
    (tail : Text) : scan functions (t ++ tail) =
      ((scan functions (dropComma tail)).1,
        t ++ (commaOf tail ++ (scan functions (dropComma tail)).2)) := by
  induction t using segments functions with
  | stop t free => exact absurd (List.mem_of_getLast? ends) free
  | call name x rest found free ih => exact absurd (opens_call found) quiet.1
  | skip body rest free closes ih =>
    have apart : ¬ Opens functions (body ++ closeParen :: (rest ++ tail)) :=
      fun opens => closes (opens_change opens)
    rw [List.append_assoc, List.cons_append, scan_skip free apart]
    by_cases more : rest = []
    · simp [more]
    · obtain ⟨last, -⟩ := ends_behind ends more
      obtain ⟨lead, behind⟩ := dropComma_append more tail
      rw [lead, behind, ih last ((quiet_skip free).mp quiet).2]
      simp only
      rw [comma_parts, List.append_assoc, List.cons_append]

/-- A text that is not quiet loses a call, whatever is behind it. -/
theorem scan_loses {t : Text} (ends : t.getLast? = some closeParen) (loud : ¬ Quiet functions t)
    (tail z : Text) : (scan functions (t ++ tail)).2 ≠ t ++ z := by
  induction t using segments functions with
  | stop t free => exact absurd (List.mem_of_getLast? ends) free
  | call name x rest found free ih =>
    intro same
    have opens : Opens functions (name ++ openParen :: (x ++ closeParen :: rest)) :=
      opens_call found
    exact not_opens_kept _ (same ▸ opens_append opens z)
  | skip body rest free closes ih =>
    have apart : ¬ Opens functions (body ++ closeParen :: (rest ++ tail)) :=
      fun opens => closes (opens_change opens)
    rw [List.append_assoc, List.cons_append, scan_skip free apart]
    have inner : ¬ Quiet functions (dropComma rest) :=
      fun quiet => loud ((quiet_skip free).mpr ⟨closes, quiet⟩)
    by_cases more : rest = []
    · rw [more] at inner
      exact absurd (quiet_of_free (by simp [dropComma])) inner
    · obtain ⟨last, -⟩ := ends_behind ends more
      obtain ⟨lead, behind⟩ := dropComma_append more tail
      intro same
      refine ih last inner ((List.append_right_inj (commaOf rest)).mp ?_)
      rw [comma_parts]
      simpa [lead, behind] using same

theorem scan_behind {p v : Text} (p_plain : openParen ∉ p ∧ closeParen ∉ p)
    (apart : ¬ Opens functions (p ++ v)) (closes : ¬ Opens functions v) :
    scan functions (p ++ v) = ((scan functions v).1, p ++ (scan functions v).2) := by
  by_cases closed : closeParen ∈ v
  · obtain ⟨body, rest, rfl, free⟩ := List.eq_append_cons_of_mem closed
    rw [← List.append_assoc] at apart ⊢
    rw [scan_skip (by simp [p_plain.2, free]) apart, scan_skip free closes, List.append_assoc]
  · rw [scan_stop (.inr closed), scan_stop (.inr (by simp [p_plain.2, closed]))]

/-- A call behind something plain is left where it is. -/
theorem scan_hides {p v : Text} (p_plain : closeParen ∉ p) (apart : ¬ Opens functions (p ++ v))
    (opens : Opens functions v) :
    ∃ k, (scan functions (p ++ v)).2 = p ++ k ∧ Opens functions k := by
  obtain ⟨name, behind, rfl, found, closed⟩ := opens
  obtain ⟨x, rest, rfl, free⟩ := List.eq_append_cons_of_mem closed
  have whole : p ++ (name ++ openParen :: (x ++ closeParen :: rest)) =
      (p ++ (name ++ openParen :: x)) ++ closeParen :: rest := by
    simp
  have before : closeParen ∉ p ++ (name ++ openParen :: x) := by
    have name_free := word_free (c := closeParen) (functions.has_plain found) (by decide)
    simp [p_plain, name_free, free, show closeParen ≠ openParen by decide]
  rw [whole] at apart ⊢
  rw [scan_skip before apart]
  exact ⟨name ++ openParen :: (x ++ closeParen ::
    (commaOf rest ++ (scan functions (dropComma rest)).2)), by simp, opens_call found⟩

/-! ### Lists of clauses -/

/-- What stands behind the first text of a list. -/
def commaRest : List Text → Text
  | [] => []
  | t :: ts => comma :: commaList (t :: ts)

theorem commaList_cons (t : Text) (ts : List Text) : commaList (t :: ts) = t ++ commaRest ts := by
  cases ts with
  | nil => simp [commaList, commaRest]
  | cons u us => rw [commaRest, commaList, commaList, List.intercalate_cons_cons]; simp

theorem commaList_ne_nil {ts : List Text} (nonempty : ∀ t ∈ ts, t ≠ []) (more : ts ≠ []) :
    commaList ts ≠ [] := by
  cases ts with
  | nil => exact absurd rfl more
  | cons t ts =>
    rw [commaList_cons]
    simp [nonempty t (by simp)]

/-- The loop writes its pieces as a list with commas. -/
theorem foldl_appended (pieces : List Text) (btp : Text) (nonempty : btp ≠ []) :
    pieces.foldl appended btp = btp ++ commaRest pieces := by
  induction pieces generalizing btp with
  | nil => simp [commaRest]
  | cons t ts ih =>
    have longer : appended btp t ≠ [] := by simp [appended, nonempty]
    rw [List.foldl_cons, ih _ longer, appended, if_neg nonempty, commaRest, commaList_cons]
    simp

theorem foldl_commaList {pieces : List Text} (nonempty : ∀ t ∈ pieces, t ≠ []) :
    pieces.foldl appended [] = commaList pieces := by
  cases pieces with
  | nil => rfl
  | cons t ts =>
    have first : appended [] t = t := by simp [appended]
    rw [List.foldl_cons, first, foldl_appended ts t (nonempty t (by simp)), commaList_cons]

theorem commaList_cons_inj {t : Text} {ts us : List Text} (ts_nonempty : ∀ u ∈ ts, u ≠ [])
    (us_nonempty : ∀ u ∈ us, u ≠ []) :
    commaList (t :: ts) = commaList (t :: us) ↔ commaList ts = commaList us := by
  rw [commaList_cons, commaList_cons, List.append_cancel_left_eq]
  cases ts with
  | nil =>
    cases us with
    | nil => simp
    | cons u us =>
      have right := commaList_ne_nil us_nonempty (by simp)
      simpa [commaRest, commaList] using right.symm
  | cons v ts =>
    cases us with
    | nil =>
      have left := commaList_ne_nil ts_nonempty (by simp)
      simpa [commaRest, commaList] using left
    | cons u us => rw [commaRest, commaRest, List.cons.injEq, and_iff_right rfl]

/-! ### Parentheses -/

/-- The text opens exactly as many parentheses as it closes. -/
theorem count_depth {d e : Nat} {s : Text} (balanced : depth d s = some e) :
    d + s.count openParen = e + s.count closeParen := by
  fun_induction depth d s with
  | case1 d => simpa using balanced
  | case2 d rest ih =>
    have inner := ih balanced
    rw [List.count_cons_self, List.count_cons_of_ne (by decide)]
    omega
  | case3 rest _ => exact absurd balanced (by simp)
  | case4 rest _ outer ih =>
    have inner := ih balanced
    rw [List.count_cons_self, List.count_cons_of_ne (by decide)]
    omega
  | case5 d c rest opens closes ih =>
    have inner := ih balanced
    rw [List.count_cons_of_ne opens, List.count_cons_of_ne closes]
    omega

/-- A parenthesis that closes was opened before. -/
theorem opened_before {e : Nat} {x y : Text} (balanced : depth 0 (x ++ closeParen :: y) = some e) :
    openParen ∈ x := by
  induction x with
  | nil => simp [depth, openParen, closeParen] at balanced
  | cons c x ih =>
    rw [List.cons_append, depth] at balanced
    split at balanced
    · next same => simp [same]
    · split at balanced
      · exact absurd balanced (by simp)
      · exact List.mem_cons_of_mem _ (ih balanced)

theorem args_free {args : Args} (flat : openParen ∉ args.1) : closeParen ∉ args.1 := by
  intro closed
  obtain ⟨x, y, whole, -⟩ := List.eq_append_cons_of_mem closed
  have balanced := args.2
  rw [whole] at balanced flat
  exact flat (List.mem_append_left _ (opened_before balanced))

theorem commaList_count {c : UInt8} (other : c ≠ comma) (ts : List Text) :
    (commaList ts).count c = (ts.map (·.count c)).sum := by
  induction ts with
  | nil => rfl
  | cons t ts ih =>
    rw [commaList_cons, List.count_append, List.map_cons, List.sum_cons, ← ih]
    cases ts with
    | nil => rfl
    | cons u us => rw [commaRest, List.count_cons_of_ne other.symm]

/-- A piece has one closing parenthesis, and an opening one at least. -/
theorem piece_counts (s : Text) : ∀ p ∈ (scan functions s).1,
    p.count closeParen = 1 ∧ 1 ≤ p.count openParen := by
  induction s using segments functions with
  | stop s free => simp [scan_stop (.inr free)]
  | call name x rest found free ih =>
    have name_free := word_free (c := closeParen) (functions.has_plain found) (by decide)
    rw [scan_call found free, List.forall_mem_cons]
    refine ⟨⟨?_, by simp; omega⟩, ih⟩
    simp [List.count_eq_zero_of_not_mem name_free, List.count_eq_zero_of_not_mem free,
      show openParen ≠ closeParen by decide]
  | skip body rest free closes ih =>
    rw [scan_skip free closes]
    exact ih

theorem piece_nonempty (s : Text) : ∀ p ∈ (scan functions s).1, p ≠ [] := by
  intro p member empty
  have counts := (piece_counts s p member).1
  simp [empty] at counts

theorem pieces_counts (functions : Functions) (s : Text) :
    (commaList (scan functions s).1).count closeParen ≤
      (commaList (scan functions s).1).count openParen := by
  rw [commaList_count (by decide), commaList_count (by decide)]
  refine List.sum_le_sum fun p member => ?_
  obtain ⟨one, some⟩ := piece_counts s p member
  omega

theorem clause_counts (k : Clause) : k.text.count openParen = k.text.count closeParen := by
  cases k with
  | path name =>
    rw [Clause.text, List.count_eq_zero_of_not_mem (word_free name.2 (by decide)),
      List.count_eq_zero_of_not_mem (word_free name.2 (by decide))]
  | call function args =>
    have balanced := count_depth args.2
    have no_open :=
      List.count_eq_zero_of_not_mem (word_free (c := openParen) function.2 (by decide))
    have no_close :=
      List.count_eq_zero_of_not_mem (word_free (c := closeParen) function.2 (by decide))
    simp [Clause.text, no_open, no_close, show openParen ≠ closeParen by decide,
      show closeParen ≠ openParen by decide]
    omega

theorem clauses_counts (ks : List Clause) : (commaList (ks.map Clause.text)).count openParen =
    (commaList (ks.map Clause.text)).count closeParen := by
  rw [commaList_count (by decide), commaList_count (by decide), List.map_map, List.map_map]
  exact congrArg List.sum (List.map_congr_left fun k _ => clause_counts k)

/-! ### One clause after another -/

/-- A selection, where there is one, begins with its ampersand. -/
def Apart (selection : Text) : Prop := selection = [] ∨ selection.head? = some ampersand

/-- What the scan makes of the clauses is right. -/
def Right (functions : Functions) (clauses : List Clause) (selection : Text) : Prop :=
  (scan functions (textOf clauses selection)).2 = textOf (others functions clauses) selection ∧
    commaList (scan functions (textOf clauses selection)).1 =
      commaList ((calls functions clauses).map Clause.text)

/-- The text behind the first clause. -/
def tailOf (clauses : List Clause) (selection : Text) : Text :=
  commaRest (clauses.map Clause.text) ++ selection

theorem textOf_cons (k : Clause) (ks : List Clause) (selection : Text) :
    textOf (k :: ks) selection = k.text ++ tailOf ks selection := by
  rw [textOf, List.map_cons, commaList_cons, tailOf, List.append_assoc]

variable {selection : Text}

theorem tailOf_parts (apart : Apart selection) (ks : List Clause) :
    dropComma (tailOf ks selection) = textOf ks selection ∧
      commaOf (tailOf ks selection) = if ks = [] then [] else [comma] := by
  cases ks with
  | nil =>
    cases apart with
    | inl empty => simp [tailOf, textOf, commaList, commaRest, empty, dropComma, commaOf]
    | inr amp =>
      obtain ⟨rest, rfl⟩ := List.head?_eq_some_iff.mp amp
      simp [tailOf, textOf, commaList, commaRest, dropComma, commaOf,
        show ampersand ≠ comma by decide]
  | cons k ks => simp [tailOf, textOf, commaRest, dropComma, commaOf]

/-- The text behind a clause is empty or begins with a character that is not plain. -/
theorem tailOf_head (apart : Apart selection) (ks : List Clause) :
    tailOf ks selection = [] ∨ ∃ c rest, tailOf ks selection = c :: rest ∧ plain c = false ∧
      c ≠ openParen := by
  cases ks with
  | nil =>
    cases apart with
    | inl empty => simp [tailOf, commaRest, empty]
    | inr amp =>
      obtain ⟨rest, rfl⟩ := List.head?_eq_some_iff.mp amp
      exact .inr ⟨ampersand, rest, rfl, by decide, by decide⟩
  | cons k ks => exact .inr ⟨comma, _, rfl, by decide, by decide⟩

theorem not_opens_word {w tail : Text} (w_plain : w.all plain = true)
    (head : tail = [] ∨ ∃ c rest, tail = c :: rest ∧ plain c = false ∧ c ≠ openParen) :
    ¬ Opens functions (w ++ tail) := by
  intro ⟨name, rest, whole, found, closed⟩
  obtain rfl | ⟨c, behind, rfl, other, apart⟩ := head
  · have free := word_free (c := openParen) w_plain (by decide)
    rw [List.append_nil] at whole
    simp [whole] at free
  · obtain ⟨-, same, -⟩ :=
      word_unique w_plain (functions.has_plain found) other (by decide) whole
    exact apart same

theorem not_opens_selection (apart : Apart selection) : ¬ Opens functions selection := by
  have head : ¬ Opens functions ([] ++ tailOf [] selection) :=
    not_opens_word rfl (tailOf_head apart [])
  simpa [tailOf, commaRest] using head

theorem opens_cons (apart : Apart selection) (k : Clause) (ks : List Clause) :
    Opens functions (textOf (k :: ks) selection) ↔ k.called functions = true := by
  rw [textOf_cons]
  cases k with
  | path name =>
    exact iff_of_false (not_opens_word name.2 (tailOf_head apart ks)) (by simp [Clause.called])
  | call function args =>
    rw [Clause.text, List.append_assoc, List.cons_append, List.append_assoc, List.singleton_append]
    constructor
    · intro ⟨name, rest, whole, found, closed⟩
      obtain ⟨same, -, -⟩ :=
        word_unique function.2 (functions.has_plain found) (by decide) (by decide) whole
      rw [Clause.called, same]
      exact found
    · exact fun found => opens_call found

theorem not_opens_others (apart : Apart selection) (ks : List Clause) :
    ¬ Opens functions (textOf (others functions ks) selection) := by
  cases kept : others functions ks with
  | nil => simpa [textOf, commaList] using not_opens_selection apart
  | cons k more =>
    have member : k ∈ others functions ks := by simp [kept]
    have uncalled := (List.mem_filter.mp member).2
    rw [opens_cons apart]
    simpa using uncalled

theorem comma_cons_ne (apart : Apart selection) (a : Text) : comma :: a ≠ selection := by
  intro same
  rw [← same] at apart
  simp [Apart, show comma ≠ ampersand by decide] at apart

/-- A list with one more clause that is kept. -/
theorem right_kept (apart : Apart selection) {k : Clause} {ks : List Clause}
    (uncalled : k.called functions = false)
    (scanned : scan functions (textOf (k :: ks) selection) =
      ((scan functions (textOf ks selection)).1, k.text ++
        (commaOf (tailOf ks selection) ++ (scan functions (textOf ks selection)).2))) :
    Right functions (k :: ks) selection ↔
      Right functions ks selection ∧ (ks ≠ [] → others functions ks ≠ []) := by
  have kept : others functions (k :: ks) = k :: others functions ks := by
    simp [others, uncalled]
  have taken : calls functions (k :: ks) = calls functions ks := by
    simp [calls, uncalled]
  rw [Right, Right, scanned, kept, taken, textOf_cons, List.append_cancel_left_eq,
    (tailOf_parts apart ks).2]
  cases ks with
  | nil => simp [others, tailOf, textOf, commaRest, commaList]
  | cons l ls =>
    cases rest : others functions (l :: ls) with
    | nil =>
      have never := comma_cons_ne apart (scan functions (textOf (l :: ls) selection)).2
      simp [tailOf, commaRest, never]
    | cons m ms => simp [tailOf, textOf, commaRest]

theorem right_called_flat (apart : Apart selection) {function : Word} {args : Args}
    {ks : List Clause} (found : functions.has function = true) (flat : openParen ∉ args.1) :
    Right functions (.call function args :: ks) selection ↔ Right functions ks selection := by
  have called : (Clause.call function args).called functions = true := found
  have kept : others functions (.call function args :: ks) = others functions ks := by
    simp [others, called]
  have taken : calls functions (.call function args :: ks) =
      .call function args :: calls functions ks := by
    simp [calls, called]
  have scanned : scan functions (textOf (.call function args :: ks) selection) =
      ((Clause.call function args).text :: (scan functions (textOf ks selection)).1,
        (scan functions (textOf ks selection)).2) := by
    rw [textOf_cons, Clause.text, List.append_assoc, List.cons_append, List.append_assoc,
      List.singleton_append, scan_call found (args_free flat), (tailOf_parts apart ks).1]
  have clauses : ∀ t ∈ (calls functions ks).map Clause.text, t ≠ [] := by
    intro t member
    obtain ⟨k, inside, rfl⟩ := List.mem_map.mp member
    have outer := (List.mem_filter.mp inside).2
    cases k with
    | path name => simp [Clause.called] at outer
    | call f a => simp [Clause.text]
  rw [Right, Right, scanned, kept, taken, List.map_cons,
    commaList_cons_inj (piece_nonempty _) clauses]

/-- Of a nested call only a part is taken, with more opening than closing parentheses. -/
theorem not_right_nested {function : Word} {args : Args} {ks : List Clause}
    (found : functions.has function = true) (nested : openParen ∈ args.1) :
    ¬ Right functions (.call function args :: ks) selection := by
  intro right
  have closed : closeParen ∈ args.1 := by
    have balanced := count_depth args.2
    have positive := List.count_pos_iff.mpr nested
    exact List.count_pos_iff.mp (by omega)
  obtain ⟨x, y, whole, free⟩ := List.eq_append_cons_of_mem closed
  have opened : openParen ∈ x := opened_before (whole ▸ args.2)
  have split : textOf (.call function args :: ks) selection =
      function.1 ++ openParen :: (x ++ closeParen ::
        (y ++ closeParen :: tailOf ks selection)) := by
    rw [textOf_cons, Clause.text, whole]
    simp
  have counts := clauses_counts (calls functions (.call function args :: ks))
  rw [← right.2, split, scan_call found free, commaList_count (by decide),
    commaList_count (by decide), List.map_cons, List.map_cons, List.sum_cons, List.sum_cons,
    ← commaList_count (by decide), ← commaList_count (by decide)] at counts
  have more := pieces_counts functions (dropComma (y ++ closeParen :: tailOf ks selection))
  have inside := List.count_pos_iff.mpr opened
  have name_free := word_free (c := closeParen) function.2 (by decide)
  simp [List.count_eq_zero_of_not_mem name_free, List.count_eq_zero_of_not_mem free,
    show openParen ≠ closeParen by decide] at counts
  omega

theorem call_ends (function : Word) (args : Args) :
    (Clause.call function args).text.getLast? = some closeParen := by
  rw [Clause.text, List.getLast?_append, List.getLast?_cons]
  simp

theorem right_call (apart : Apart selection) {function : Word} {args : Args} {ks : List Clause}
    (other : functions.has function = false) :
    Right functions (.call function args :: ks) selection ↔
      Quiet functions (Clause.call function args).text ∧
        Right functions ks selection ∧ (ks ≠ [] → others functions ks ≠ []) := by
  have uncalled : (Clause.call function args).called functions = false := other
  by_cases quiet : Quiet functions (Clause.call function args).text
  · have scanned := scan_through (call_ends function args) quiet (tailOf ks selection)
    rw [← textOf_cons, (tailOf_parts apart ks).1] at scanned
    rw [right_kept apart uncalled scanned, and_iff_right quiet]
  · refine iff_of_false (fun right => ?_) fun all => quiet all.1
    have kept : others functions (.call function args :: ks) =
        .call function args :: others functions ks := by
      simp [others, uncalled]
    have left := right.1
    rw [kept, textOf_cons, textOf_cons] at left
    exact scan_loses (call_ends function args) quiet _ _ left

/-- A path with its comma, and the text behind it. -/
theorem path_text (apart : Apart selection) (name : Word) (ks : List Clause) :
    textOf (.path name :: ks) selection =
        (name.1 ++ commaOf (tailOf ks selection)) ++ textOf ks selection ∧
      openParen ∉ name.1 ++ commaOf (tailOf ks selection) ∧
      closeParen ∉ name.1 ++ commaOf (tailOf ks selection) := by
  constructor
  · rw [textOf_cons, Clause.text, List.append_assoc, ← (tailOf_parts apart ks).1,
      commaOf_dropComma]
  · rw [(tailOf_parts apart ks).2]
    have opening := word_free (c := openParen) name.2 (by decide)
    have closing := word_free (c := closeParen) name.2 (by decide)
    split
    · simp [opening, closing]
    · simp [opening, closing, show openParen ≠ comma by decide, show closeParen ≠ comma by decide]

/-- A call directly behind a path is left in the constraint. -/
theorem not_right_hidden (apart : Apart selection) {name : Word} {k : Clause} {ks : List Clause}
    (called : k.called functions = true) :
    ¬ Right functions (.path name :: k :: ks) selection := by
  intro right
  obtain ⟨parts, -, closed⟩ := path_text apart name (k :: ks)
  have closes : ¬ Opens functions (textOf (.path name :: k :: ks) selection) := by
    rw [opens_cons apart]
    simp [Clause.called]
  rw [parts] at closes
  obtain ⟨rest, hidden, inner⟩ := scan_hides closed closes ((opens_cons apart k ks).mpr called)
  have kept : others functions (.path name :: k :: ks) =
      .path name :: others functions (k :: ks) := by
    simp [others, Clause.called]
  have left := right.1
  rw [kept, parts, hidden, textOf_cons, Clause.text, List.append_assoc,
    List.append_cancel_left_eq, (tailOf_parts apart _).2, if_neg (by simp),
    List.singleton_append] at left
  cases more : others functions (k :: ks) with
  | nil =>
    rw [more] at left
    exact comma_cons_ne apart rest (by simpa [tailOf, commaRest] using left)
  | cons m ms =>
    rw [more] at left
    have same : rest = textOf (others functions (k :: ks)) selection := by
      rw [more]
      simpa [tailOf, commaRest, textOf] using left
    exact not_opens_others apart (k :: ks) (same ▸ inner)

theorem right_path (apart : Apart selection) {name : Word} {ks : List Clause} :
    Right functions (.path name :: ks) selection ↔
      (∀ k ∈ ks.head?, k.called functions = false) ∧
        Right functions ks selection ∧ (ks ≠ [] → others functions ks ≠ []) := by
  by_cases opens : Opens functions (textOf ks selection)
  · cases ks with
    | nil =>
      have opened : Opens functions selection := by simpa [textOf, commaList] using opens
      exact absurd opened (not_opens_selection apart)
    | cons k ks =>
      have called := (opens_cons apart k ks).mp opens
      exact iff_of_false (not_right_hidden apart called) (by simp [called])
  · have closes : ¬ Opens functions (textOf (.path name :: ks) selection) := by
      rw [opens_cons apart]
      simp [Clause.called]
    obtain ⟨parts, no_parens⟩ := path_text apart name ks
    have scanned := scan_behind no_parens (parts ▸ closes) opens
    rw [← parts, List.append_assoc] at scanned
    have head : ∀ k ∈ ks.head?, k.called functions = false := by
      intro k first
      obtain ⟨rest, rfl⟩ := List.head?_eq_some_iff.mp first
      simpa [opens_cons apart] using opens
    rw [right_kept apart rfl scanned, and_iff_right head]

theorem last_cons (k : Clause) (ks : List Clause) :
    ((∀ l ∈ k :: ks, l.called functions = true) ∨
      ∀ l ∈ (k :: ks).getLast?, l.called functions = false) ↔
    ((∀ l ∈ ks, l.called functions = true) ∨ ∀ l ∈ ks.getLast?, l.called functions = false) ∧
      (k.called functions = false → ks ≠ [] → others functions ks ≠ []) := by
  cases ks with
  | nil => simp
  | cons l ls =>
    have some_other : others functions (l :: ls) ≠ [] ↔
        ¬ ∀ m ∈ l :: ls, m.called functions = true := by
      simp only [others, ne_eq, List.filter_eq_nil_iff, Bool.not_eq_true', Bool.not_eq_false]
    have last_other : (∀ m ∈ (l :: ls).getLast?, m.called functions = false) →
        ¬ ∀ m ∈ l :: ls, m.called functions = true := by
      intro last all
      have here := List.getLast?_eq_some_getLast (List.cons_ne_nil l ls)
      have called := all _ (List.getLast_mem (List.cons_ne_nil l ls))
      simp [last _ here] at called
    rw [List.getLast?_cons_cons, List.forall_mem_cons, some_other]
    cases called : k.called functions with
    | true => simp
    | false =>
      simp only [Bool.false_eq_true, false_and, false_or, ne_eq, reduceCtorEq, not_false_eq_true,
        forall_const]
      exact ⟨fun last => ⟨.inr last, last_other last⟩, fun both => both.1.resolve_left both.2⟩

theorem separable_cons (k : Clause) (ks : List Clause) :
    Separable functions (k :: ks) selection ↔
      ((∀ function args, Clause.call function args = k → functions.has function = true →
          openParen ∉ args.1) ∧
        (k.called functions = false → Quiet functions k.text) ∧
        (k.isPath = true → ∀ next ∈ ks.head?, next.called functions = false)) ∧
      Separable functions ks selection ∧
        (k.called functions = false → ks ≠ [] → others functions ks ≠ []) := by
  constructor
  · intro separable
    obtain ⟨chain, behind⟩ := List.isChain_cons.mp separable.front
    obtain ⟨last, left⟩ := (last_cons k ks).mp separable.last
    exact ⟨⟨fun function args same => separable.flat function args (by simp [same]),
        separable.quiet k (by simp), fun path next first => chain next first path⟩,
      ⟨fun function args member => separable.flat function args (List.mem_cons_of_mem _ member),
        fun l member => separable.quiet l (List.mem_cons_of_mem _ member),
        separable.quietSelection, behind, last⟩, left⟩
  · intro ⟨⟨flat, quiet, head⟩, separable, left⟩
    refine ⟨fun function args member found => ?_, List.forall_mem_cons.mpr ⟨quiet, separable.quiet⟩,
      separable.quietSelection,
      List.isChain_cons.mpr ⟨fun next first path => head path next first, separable.front⟩,
      (last_cons k ks).mpr ⟨separable.last, left⟩⟩
    obtain same | inside := List.mem_cons.mp member
    · exact flat function args same found
    · exact separable.flat function args inside found

theorem right_iff (apart : Apart selection) (ks : List Clause) :
    Right functions ks selection ↔ Separable functions ks selection := by
  induction ks with
  | nil =>
    have scanned : Right functions [] selection ↔ Quiet functions selection := by
      have pieces : commaList (scan functions selection).1 = [] ↔
          (scan functions selection).1 = [] := by
        refine ⟨fun empty => ?_, fun empty => by simp [empty, commaList]⟩
        by_contra some
        exact commaList_ne_nil (piece_nonempty selection) some empty
      have nothing : (Right functions [] selection ↔ (scan functions selection).2 = selection ∧
          commaList (scan functions selection).1 = []) := by
        simp [Right, textOf, others, calls, commaList]
      rw [nothing, pieces, pieces_nil_iff]
      exact and_iff_right_of_imp fun quiet => by rw [scan_quiet quiet]
    rw [scanned]
    exact ⟨fun quiet => ⟨by simp, by simp, quiet, by simp, by simp⟩, (·.quietSelection)⟩
  | cons k ks ih =>
    rw [separable_cons, ← ih]
    cases k with
    | path name =>
      have free : closeParen ∉ (Clause.path name).text := word_free name.2 (by decide)
      rw [right_path apart]
      simp [Clause.called, Clause.isPath, quiet_of_free free]
    | call function args =>
      cases found : functions.has function with
      | false =>
        rw [right_call apart found]
        simp [Clause.called, Clause.isPath, found]
      | true =>
        by_cases nested : openParen ∈ args.1
        · refine iff_of_false (not_right_nested found nested) fun all => ?_
          exact all.1.1 function args rfl found nested
        · rw [right_called_flat apart found nested]
          simp [Clause.called, Clause.isPath, found, nested]

end

theorem splits_iff_right (functions : Functions) (c : Constraint) :
    Splits functions c ↔ Right functions c.clauses c.selection := by
  have whole : splitLoop functions.list c.text [] 0 =
      ((scan functions c.text).2, commaList (scan functions c.text).1) := by
    have loop := splitLoop_eq functions [] [] c.text
    rw [foldl_commaList (piece_nonempty c.text)] at loop
    simpa using loop
  have right : Right functions c.clauses c.selection ↔ splitLoop functions.list c.text [] 0 =
      (textOf (others functions c.clauses) c.selection,
        commaList ((calls functions c.clauses).map Clause.text)) := by
    rw [whole, Prod.mk.injEq]
    rfl
  rw [right]
  constructor
  · intro splits
    have result := splits c.text c.text (by simp)
    simpa [splitCe] using result
  · intro result expr ce same
    rw [splitCe, same]
    exact result

/-- The scan terminates; it takes out the right clauses in these constraints and in no others. -/
theorem splits_iff_separable (functions : Functions) (c : Constraint) :
    Splits functions c ↔ Separable functions c.clauses c.selection :=
  (splits_iff_right functions c).trans (right_iff c.apart c.clauses)

/-! ### A nested call -/

def mean : Word := ⟨text ['m', 'e', 'a', 'n'], by decide⟩

def oneFunction : Functions := ⟨[⟨mean, true⟩], by decide⟩

/-- `mean(u),x`: the call is taken out, the path is left. -/
example : Separable oneFunction
    [.call mean ⟨text ['u'], by decide⟩, .path ⟨text ['x'], by decide⟩] [] where
  flat := by
    intro function args mem _
    simp only [List.mem_cons, Clause.call.injEq, reduceCtorEq, List.not_mem_nil, or_false] at mem
    rw [mem.2]
    decide
  quiet := by
    intro k mem taken
    simp only [List.mem_cons, List.not_mem_nil, or_false] at mem
    rcases mem with rfl | rfl
    · cases taken
    · refine ⟨not_opens_of_free (by decide), fun a b split => ?_⟩
      have inside : closeParen ∈ text ['x'] := by
        change text ['x'] = _ at split
        rw [split]
        simp
      exact absurd inside (by decide)
  quietSelection :=
    ⟨not_opens_of_free List.not_mem_nil, fun a b split => by simp at split⟩
  front := by simp [Clause.isPath]
  last := .inr (by decide)

/-- `mean(abs(u))`. -/
def nestedCall : Constraint :=
  ⟨[.call mean ⟨text ['a', 'b', 's', '(', 'u', ')'], by decide⟩], [], by simp⟩

theorem nested_not_split : ¬ Splits oneFunction nestedCall := by
  rw [splits_iff_right]
  exact not_right_nested (by decide) (by decide)

end Libdap.Guarantees.SplitCe
