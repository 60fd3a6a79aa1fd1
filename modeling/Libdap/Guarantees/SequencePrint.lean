import Libdap.Guarantees.ConstraintNumbers
import Libdap.Library.Outcome
import Libdap.Source.SequencePrint

/-!
# Which Sequences are printed with a group for each row

The last row is printed after the loop over the others, so that a Sequence without rows prints a
group as well, here or inside a row.
-/
namespace Libdap.Guarantees.SequencePrint
open Libdap.Library
open Libdap.Source Libdap.Source.SequencePrint Libdap.Source.Array
open Libdap.Guarantees.ArrayConstraint (int32_eq)
open Libdap.Guarantees.ConstraintNumbers (int32_range)

/-! ### What is to be printed -/

/-- Texts separated by commas. -/
def separated : List (List Char) → List Char
  | [] => []
  | text :: texts => text ++ texts.flatMap fun t => ", ".toList ++ t

def group (texts : List (List Char)) : List Char :=
  "\x7b ".toList ++ separated texts ++ " \x7d".toList

section
variable {L : Type} (printVal : List Char → L → List Char) (printRowNum : Bool)

mutual

/-- A leaf, or a group with a group for each row. -/
def expected (space : List Char) : Value L → List Char
  | .leaf v => printVal space v
  | .sequence _ rows => group (expectedRows (space ++ "    ".toList) 0 rows)

/-- From row `i` on, each with the values that are not null. -/
def expectedRows (space : List Char) (i : Nat) :
    List (List (Option (Value L))) → List (List Char)
  | [] => []
  | fields :: rows =>
    (rowLabel space printRowNum i ++ group (expectedFields space fields)) ::
      expectedRows space (i + 1) rows

def expectedFields (space : List Char) : List (Option (Value L)) → List (List Char)
  | [] => []
  | none :: fields => expectedFields space fields
  | some v :: fields => expected space v :: expectedFields space fields

end

end

/-- With the declaration in front that is asked for. -/
def declared (decl : Option (List Char)) (text : List Char) : List Char :=
  match decl with
  | none => text
  | some decl => decl ++ " = ".toList ++ text ++ ";\n".toList

/-- However the other values print, a group is printed for each row. -/
def PrintsRows {L : Type} (elements : Nat) (rows : List (List (Option (Value L)))) : Prop :=
  ∀ (printVal : List Char → L → List Char) (printRowNum : Bool) (space : List Char)
    (decl : Option (List Char)), printValByRows printVal printRowNum space decl elements rows =
      .ok (declared decl (group (expectedRows printVal printRowNum space 0 rows)))

/-! ### When it is -/

section
variable {L : Type}

mutual

/-- Every Sequence has a row and fewer than `2 ^ 31` of them. -/
def Printable : Value L → Prop
  | .leaf _ => True
  | .sequence elements rows =>
    (rows ≠ [] ∧ rows.length < 2 ^ 31) ∧ RowsPrintable elements rows

def RowsPrintable (elements : Nat) : List (List (Option (Value L))) → Prop
  | [] => True
  | fields :: rows => FieldsPrintable elements fields ∧ RowsPrintable elements rows

/-- No value is behind the number of elements of its Sequence. -/
def FieldsPrintable : Nat → List (Option (Value L)) → Prop
  | _, [] => True
  | n, none :: fields => FieldsPrintable (n - 1) fields
  | n, some v :: fields => 0 < n ∧ Printable v ∧ FieldsPrintable (n - 1) fields

end

/-- As a Sequence that is printed has to be. -/
def AllPrintable (elements : Nat) (rows : List (List (Option (Value L)))) : Prop :=
  (rows ≠ [] ∧ rows.length < 2 ^ 31) ∧ RowsPrintable elements rows

end

/-! ### The loops, as texts one after the other -/

/-- As `separated`, of what may end abnormally. -/
def joinedMore : List Printed → Printed
  | [] => .ok []
  | p :: ps => do
    let text ← p
    let rest ← joinedMore ps
    pure (", ".toList ++ text ++ rest)

def joined : List Printed → Printed
  | [] => .ok []
  | p :: ps => do
    let text ← p
    let rest ← joinedMore ps
    pure (text ++ rest)

/-- The values of the fields before the `n`-th one. -/
def firstFields (n : Nat) (fields : List (Option Printed)) : List Printed :=
  (fields.take n).filterMap id

theorem firstFields_none (n : Nat) (fields : List (Option Printed)) :
    firstFields n (none :: fields) = firstFields (n - 1) fields := by
  cases n with
  | zero => rfl
  | succ n => simp [firstFields]

theorem firstFields_some (n : Nat) (p : Printed) (fields : List (Option Printed)) :
    firstFields (n + 1) (some p :: fields) = p :: firstFields n fields := by
  simp [firstFields]

/-- A group of what may end abnormally. -/
def rowText (label : List Char) (ps : List Printed) : Printed := do
  let text ← joined ps
  pure (label ++ "\x7b ".toList ++ text ++ " \x7d".toList)

/-- The field at a position is the first of those from there on, or there are none. -/
theorem field_at (fields : List (Option Printed)) (j : Nat) :
    (fields[j]? = none ∧ fields.drop j = [] ∧ fields.drop (j + 1) = []) ∨
      ∃ f, fields[j]? = some f ∧ fields.drop j = f :: fields.drop (j + 1) := by
  rcases Nat.lt_or_ge j fields.length with inside | beyond
  · exact .inr ⟨fields[j], List.getElem?_eq_getElem inside, List.drop_eq_getElem_cons inside⟩
  · exact .inl ⟨List.getElem?_eq_none beyond, List.drop_eq_nil_of_le beyond,
      List.drop_eq_nil_of_le (by omega)⟩

theorem firstFields_nil (n : Nat) : firstFields n [] = [] := by simp [firstFields]

theorem remainingValues_eq (fields : List (Option Printed)) (n j : Nat) :
    remainingValues (fun j => (fields[j]?).join) j n =
      joinedMore (firstFields n (fields.drop j)) := by
  induction n generalizing j with
  | zero => rfl
  | succ n ih =>
    rw [remainingValues]
    rcases field_at fields j with ⟨none, here, behind⟩ | ⟨f, some, here⟩
    · rw [none, here, firstFields_nil]
      simp only [Option.join_none, ih, behind, firstFields_nil]
    · rw [some, here]
      cases f with
      | none => simp only [Option.join_some, ih, firstFields_none, Nat.add_sub_cancel]
      | some p =>
        simp only [Option.join_some, ih, firstFields_some, joinedMore]

theorem firstValue_eq (fields : List (Option Printed)) (n j : Nat) :
    (do
      let (first, j, n) ← firstValue (fun j => (fields[j]?).join) j n
      let rest ← remainingValues (fun j => (fields[j]?).join) j n
      pure (first ++ rest)) = joined (firstFields n (fields.drop j)) := by
  induction n generalizing j with
  | zero => rfl
  | succ n ih =>
    rw [firstValue]
    rcases field_at fields j with ⟨none, here, behind⟩ | ⟨f, some, here⟩
    · rw [none, here, firstFields_nil]
      simp only [Option.join_none]
      rw [ih, behind, firstFields_nil]
    · rw [some, here]
      cases f with
      | none =>
        simp only [Option.join_some]
        rw [ih, firstFields_none, Nat.add_sub_cancel]
      | some p =>
        simp only [Option.join_some, firstFields_some, joined]
        cases p with
        | error failure => rfl
        | ok text =>
          change (remainingValues _ (j + 1) n >>= fun rest => pure (text ++ rest)) = _
          rw [remainingValues_eq]
          rfl

theorem printOneRow_eq (space : List Char) (printRowNum : Bool) (elements : Nat)
    (rows : List (List (Option Printed))) (row : Nat) :
    printOneRow space printRowNum elements rows row =
      rowText (rowLabel space printRowNum row) (firstFields elements (rows.getD row [])) := by
  have fields : varValue rows row = fun j => ((rows.getD row [])[j]?).join := by
    funext j
    rw [varValue, List.getD_eq_getElem?_getD]
    cases rows[row]? <;> rfl
  have both := firstValue_eq (rows.getD row []) elements 0
  rw [List.drop_zero] at both
  rw [rowText, ← both, printOneRow, fields]
  cases firstValue (fun j => ((rows.getD row [])[j]?).join) 0 elements with
  | error failure => rfl
  | ok found =>
    obtain ⟨first, j, n⟩ := found
    change (remainingValues _ j n >>= _) = ((remainingValues _ j n >>= _) >>= _)
    cases remainingValues (fun j => ((rows.getD row [])[j]?).join) j n with
    | error failure => rfl
    | ok rest =>
      simp [bind, Except.bind, pure, Except.pure]

/-- The rows of a table from row `i` on. -/
def printedRows (space : List Char) (printRowNum : Bool) (elements : Nat) :
    Nat → List (List (Option Printed)) → List Printed
  | _, [] => []
  | i, fields :: rows =>
    rowText (rowLabel space printRowNum i) (firstFields elements fields) ::
      printedRows space printRowNum elements (i + 1) rows

theorem joined_cons (p q : Printed) (ps : List Printed) :
    joined (p :: q :: ps) = (do
      let text ← p
      let rest ← joined (q :: ps)
      pure (text ++ ", ".toList ++ rest)) := by
  cases p with
  | error failure => rfl
  | ok text =>
    cases q with
    | error failure => rfl
    | ok next =>
      simp only [joined, joinedMore, bind, Except.bind, pure, Except.pure]
      cases joinedMore ps <;> simp

theorem printOneRow_at (space : List Char) (printRowNum : Bool) (elements : Nat)
    (rows : List (List (Option Printed))) {i : Nat} (inside : i < rows.length) :
    printOneRow space printRowNum elements rows i =
      rowText (rowLabel space printRowNum i) (firstFields elements rows[i]) := by
  rw [printOneRow_eq, List.getD_eq_getElem?_getD, List.getElem?_eq_getElem inside,
    Option.getD_some]

/-- The loop and the last row print the first rows of the table. -/
theorem printRows_eq (space : List Char) (printRowNum : Bool) (elements : Nat)
    (rows : List (List (Option Printed))) (n i : Nat) (inside : i + n < rows.length) :
    (do
      let before ← printRows space printRowNum elements rows i n
      let last ← printOneRow space printRowNum elements rows (i + n)
      pure (before ++ last)) =
      joined ((printedRows space printRowNum elements i (rows.drop i)).take (n + 1)) := by
  induction n generalizing i with
  | zero =>
    rw [List.drop_eq_getElem_cons (by omega : i < rows.length), printedRows, List.take_succ_cons,
      List.take_zero, ← printOneRow_at, printRows, Nat.add_zero]
    cases printOneRow space printRowNum elements rows i <;> simp [joined, joinedMore, bind,
      Except.bind, pure, Except.pure]
  | succ n ih =>
    have next := ih (i + 1) (by omega)
    rw [List.drop_eq_getElem_cons (by omega : i + 1 < rows.length), printedRows,
      List.take_succ_cons] at next
    rw [List.drop_eq_getElem_cons (by omega : i < rows.length), printedRows, List.take_succ_cons,
      List.drop_eq_getElem_cons (by omega : i + 1 < rows.length), printedRows,
      List.take_succ_cons, joined_cons, ← next, ← printOneRow_at, printRows,
      show i + (n + 1) = i + 1 + n by omega]
    cases printOneRow space printRowNum elements rows i with
    | error failure => rfl
    | ok row =>
      simp only [bind, Except.bind, pure, Except.pure]
      cases printRows space printRowNum elements rows (i + 1) n with
      | error failure => rfl
      | ok before =>
        cases printOneRow space printRowNum elements rows (i + 1 + n) <;> simp

theorem int32_le (n : Nat) : int32 n ≤ n := by
  by_cases few : (n : Int) < 2 ^ 31
  · rw [int32_eq (by omega) few]
  · have range := int32_range n
    omega

/-- How many rows are printed: one at least. -/
def printedCount (n : Nat) : Nat := (int32 n - 1).toNat + 1

theorem printRowsOf_eq (space : List Char) (printRowNum : Bool) (elements : Nat)
    (rows : List (List (Option Printed))) (some : rows ≠ [])
    (regular : int32 rows.length ≠ -2 ^ 31) :
    printRowsOf space printRowNum elements rows = rowText []
      ((printedRows space printRowNum elements 0 rows).take (printedCount rows.length)) := by
  have positive := List.length_pos_iff.mpr some
  have count := int32_le rows.length
  have both := printRows_eq space printRowNum elements rows (int32 rows.length - 1).toNat 0
    (by omega)
  rw [List.drop_zero, Nat.zero_add] at both
  rw [printRowsOf, if_neg regular, rowText, printedCount, ← both]
  dsimp only
  generalize (int32 rows.length - 1).toNat = n
  cases printRows space printRowNum elements rows 0 n with
  | error failure => rfl
  | ok before =>
    simp only [bind, Except.bind, pure, Except.pure]
    cases printOneRow space printRowNum elements rows n <;> simp

/-! ### Printed as expected -/

theorem joinedMore_ok (texts : List (List Char)) : joinedMore (texts.map .ok) =
    .ok (texts.flatMap fun t => ", ".toList ++ t) := by
  induction texts with
  | nil => rfl
  | cons text texts ih =>
    rw [List.map_cons, joinedMore, ih]
    simp [bind, Except.bind, pure, Except.pure]

theorem rowText_ok (label : List Char) (texts : List (List Char)) :
    rowText label (texts.map .ok) = .ok (label ++ group texts) := by
  have whole : joined (texts.map .ok) = .ok (separated texts) := by
    cases texts with
    | nil => rfl
    | cons text texts =>
      rw [List.map_cons, joined, joinedMore_ok]
      rfl
  rw [rowText, whole]
  simp [bind, Except.bind, pure, Except.pure, group]

theorem int32_count {n : Nat} (some : n ≠ 0) (few : n < 2 ^ 31) :
    int32 n ≠ -2 ^ 31 ∧ printedCount n = n := by
  have same : int32 n = n := int32_eq (by omega) (by omega)
  rw [printedCount, same]
  omega

section
variable {L : Type} (printVal : List Char → L → List Char) (printRowNum : Bool)

theorem tableOf_length (space : List Char) (rows : List (List (Option (Value L)))) :
    (tableOf printVal printRowNum space rows).length = rows.length := by
  induction rows with
  | nil => rfl
  | cons fields rows ih => rw [tableOf, List.length_cons, List.length_cons, ih]

theorem expectedRows_length (space : List Char) (i : Nat)
    (rows : List (List (Option (Value L)))) :
    (expectedRows printVal printRowNum space i rows).length = rows.length := by
  induction rows generalizing i with
  | nil => rfl
  | cons fields rows ih => rw [expectedRows, List.length_cons, List.length_cons, ih]

theorem tableOf_ne_nil {rows : List (List (Option (Value L)))} (some : rows ≠ [])
    (space : List Char) : tableOf printVal printRowNum space rows ≠ [] := by
  cases rows with
  | nil => exact absurd rfl some
  | cons fields rows => simp [tableOf]

/-- A table that prints its rows as expected, between one and `2 ^ 31 - 1` of them. -/
theorem printRowsOf_expected {elements : Nat} {rows : List (List (Option (Value L)))}
    {space : List Char} (some : rows ≠ []) (few : rows.length < 2 ^ 31)
    (each : printedRows space printRowNum elements 0 (tableOf printVal printRowNum space rows) =
      (expectedRows printVal printRowNum space 0 rows).map .ok) :
    printRowsOf space printRowNum elements (tableOf printVal printRowNum space rows) =
      .ok (group (expectedRows printVal printRowNum space 0 rows)) := by
  obtain ⟨regular, all⟩ := int32_count (by simpa using some) few
  rw [printRowsOf_eq _ _ _ _ (tableOf_ne_nil printVal printRowNum some _)
    (by rwa [tableOf_length]), tableOf_length, all, each,
    List.take_of_length_le (by simp [expectedRows_length]), rowText_ok, List.nil_append]

mutual

theorem printValue_expected (v : Value L) (printable : Printable v) (space : List Char) :
    printValue printVal printRowNum space v = .ok (expected printVal printRowNum space v) := by
  cases v with
  | leaf v => rfl
  | sequence elements rows =>
    obtain ⟨⟨some, few⟩, each⟩ := printable
    rw [printValue, expected]
    exact printRowsOf_expected printVal printRowNum some few (printedRows_expected rows each _ 0)

theorem printedRows_expected {elements : Nat} (rows : List (List (Option (Value L))))
    (printable : RowsPrintable elements rows) (space : List Char) (i : Nat) :
    printedRows space printRowNum elements i (tableOf printVal printRowNum space rows) =
      (expectedRows printVal printRowNum space i rows).map .ok := by
  cases rows with
  | nil => rfl
  | cons fields rows =>
    rw [tableOf, printedRows, expectedRows, List.map_cons, firstFields_expected fields printable.1,
      rowText_ok, printedRows_expected rows printable.2]

theorem firstFields_expected {n : Nat} (fields : List (Option (Value L)))
    (printable : FieldsPrintable n fields) (space : List Char) :
    firstFields n (fieldsOf printVal printRowNum space fields) =
      (expectedFields printVal printRowNum space fields).map .ok := by
  cases fields with
  | nil => exact firstFields_nil n
  | cons f fields =>
    cases f with
    | none =>
      rw [fieldsOf, firstFields_none, expectedFields, firstFields_expected fields printable]
    | some v =>
      obtain ⟨positive, own, later⟩ := printable
      obtain ⟨m, rfl⟩ := Nat.exists_eq_succ_of_ne_zero positive.ne'
      have rest : FieldsPrintable m fields := later
      rw [fieldsOf, firstFields_some, expectedFields, List.map_cons, printValue_expected v own,
        firstFields_expected fields rest]

end

end

/-! ### Printed otherwise -/

/-- What is printed, if anything, is not this text, whatever comes behind both. -/
def Differs (p : Printed) (text : List Char) : Prop :=
  ∀ t, p = .ok t → ∀ x y, t ++ x ≠ text ++ y

/-- The texts begin with something that is neither a blank nor missing. -/
def Starts (text : List Char) : Prop := ∃ c rest, text = c :: rest ∧ c ≠ ' '

/-- What is printed is short of a text or has a first one that differs. -/
inductive Apart : List Printed → List (List Char) → Prop
  | short {text : List Char} (texts : List (List Char)) : Starts text → Apart [] (text :: texts)
  | here {p : Printed} {text : List Char} (ps : List Printed) (texts : List (List Char)) :
      Differs p text → Apart (p :: ps) (text :: texts)
  | later (text : List Char) {ps : List Printed} {texts : List (List Char)} :
      Apart ps texts → Apart (.ok text :: ps) (text :: texts)

theorem joinedMore_apart {ps : List Printed} {texts : List (List Char)} (apart : Apart ps texts)
    {t : List Char} (done : joinedMore ps = .ok t) (x y : List Char) :
    t ++ (" \x7d".toList ++ x) ≠
      (texts.flatMap fun t => ", ".toList ++ t) ++ (" \x7d".toList ++ y) := by
  induction apart generalizing t with
  | short texts starts =>
    cases done
    simp
  | @here p text ps texts differs =>
    obtain ⟨first, own, done⟩ := bind_success done
    obtain ⟨rest, -, last⟩ := bind_success done
    cases last
    intro same
    have behind : first ++ (rest ++ (" \x7d".toList ++ x)) =
        text ++ ((texts.flatMap fun t => ", ".toList ++ t) ++ (" \x7d".toList ++ y)) := by
      simpa using same
    exact differs first own _ _ behind
  | @later text ps texts apart ih =>
    obtain ⟨first, own, done⟩ := bind_success done
    obtain ⟨rest, more, last⟩ := bind_success done
    cases own
    cases last
    intro same
    exact ih more (by simpa using same)

theorem joined_apart {ps : List Printed} {texts : List (List Char)} (apart : Apart ps texts)
    {t : List Char} (done : joined ps = .ok t) (x y : List Char) :
    t ++ (" \x7d".toList ++ x) ≠ separated texts ++ (" \x7d".toList ++ y) := by
  cases apart with
  | short texts starts =>
    obtain ⟨c, rest, rfl, other⟩ := starts
    cases done
    simp [separated, Ne.symm other]
  | @here p text ps texts differs =>
    obtain ⟨first, own, done⟩ := bind_success done
    obtain ⟨rest, -, last⟩ := bind_success done
    cases last
    intro same
    have behind : first ++ (rest ++ (" \x7d".toList ++ x)) =
        text ++ ((texts.flatMap fun t => ", ".toList ++ t) ++ (" \x7d".toList ++ y)) := by
      simpa [separated] using same
    exact differs first own _ _ behind
  | @later text ps texts apart =>
    obtain ⟨first, own, done⟩ := bind_success done
    obtain ⟨rest, more, last⟩ := bind_success done
    cases own
    cases last
    intro same
    exact joinedMore_apart apart more x y (by simpa [separated] using same)

theorem rowText_differs (label : List Char) {ps : List Printed} {texts : List (List Char)}
    (apart : Apart ps texts) : Differs (rowText label ps) (label ++ group texts) := by
  intro t done x y same
  obtain ⟨text, inner, last⟩ := bind_success done
  cases last
  exact joined_apart apart inner x y (by simpa [group] using same)

theorem group_starts (texts : List (List Char)) : Starts (group texts) :=
  ⟨'\x7b', ' ' :: (separated texts ++ " \x7d".toList), by simp [group], by decide⟩

theorem row_starts (space : List Char) (printRowNum : Bool) (i : Nat)
    (texts : List (List Char)) : Starts (rowLabel space printRowNum i ++ group texts) := by
  cases printRowNum with
  | false => exact group_starts texts
  | true => exact ⟨'\n', _, by simp [rowLabel]; rfl, by decide⟩

/-- Without rows a group is printed that should not be. -/
theorem empty_differs (space : List Char) (printRowNum : Bool) (elements : Nat) :
    Differs (printRowsOf space printRowNum elements []) (group []) := by
  intro t done x y same
  have zero : int32 ([] : List (List (Option Printed))).length = 0 := int32_eq (by simp) (by simp)
  have row : printOneRow space printRowNum elements [] 0 =
      .ok (rowLabel space printRowNum 0 ++ group []) := by
    rw [printOneRow_eq, List.getD_nil, firstFields_nil]
    exact rowText_ok _ []
  rw [printRowsOf, if_neg (by rw [zero]; decide), zero] at done
  have text : t = "\x7b ".toList ++ (rowLabel space printRowNum 0 ++ group []) ++
      " \x7d".toList := by
    dsimp only at done
    rw [show ((0 : Int) - 1).toNat = 0 from rfl, row] at done
    cases done
    simp
  obtain ⟨c, rest, whole, other⟩ := row_starts space printRowNum 0 []
  rw [text, whole] at same
  simp [group, separated, other] at same

theorem printedCount_lt {n : Nat} (many : 2 ^ 31 ≤ n) : printedCount n < n := by
  have range := int32_range n
  rw [printedCount]
  omega

section
variable {L : Type} (printVal : List Char → L → List Char) (printRowNum : Bool)

theorem expected_starts (starts : ∀ space v, Starts (printVal space v)) (space : List Char)
    (v : Value L) :
    Starts (expected printVal printRowNum space v) := by
  cases v with
  | leaf v => exact starts space v
  | sequence elements rows => exact group_starts _

/-- A table that is not as a Sequence has to be, where rows that are not printed and rows that are
not printable show. -/
theorem printRowsOf_differs (space : List Char) {elements : Nat}
    {rows : List (List (Option (Value L)))} (not : ¬AllPrintable elements rows)
    (apart : ∀ k, k < rows.length ∨ ¬RowsPrintable elements rows →
      Apart ((printedRows space printRowNum elements 0
        (tableOf printVal printRowNum space rows)).take k)
        (expectedRows printVal printRowNum space 0 rows)) :
    Differs (printRowsOf space printRowNum elements (tableOf printVal printRowNum space rows))
      (group (expectedRows printVal printRowNum space 0 rows)) := by
  by_cases none : rows = []
  · subst none
    exact empty_differs _ _ _
  · by_cases regular : int32 rows.length = -2 ^ 31
    · intro t done
      rw [printRowsOf, tableOf_length, if_pos regular] at done
      cases done
    · rw [printRowsOf_eq _ _ _ _ (tableOf_ne_nil printVal printRowNum none _)
        (by rwa [tableOf_length]), tableOf_length]
      refine rowText_differs [] (apart _ ?_)
      by_cases few : rows.length < 2 ^ 31
      · exact .inr fun each => not ⟨⟨none, few⟩, each⟩
      · exact .inl (printedCount_lt (not_lt.mp few))

mutual

theorem printValue_differs (starts : ∀ space v, Starts (printVal space v)) (v : Value L)
    (not : ¬Printable v) (space : List Char) :
    Differs (printValue printVal printRowNum space v) (expected printVal printRowNum space v) := by
  cases v with
  | leaf v => exact absurd trivial not
  | sequence elements rows =>
    rw [printValue, expected]
    exact printRowsOf_differs printVal printRowNum _ not fun k short =>
      printedRows_apart starts rows k short _ 0

theorem printedRows_apart (starts : ∀ space v, Starts (printVal space v)) {elements : Nat}
    (rows : List (List (Option (Value L)))) (k : Nat)
    (not : k < rows.length ∨ ¬RowsPrintable elements rows) (space : List Char) (i : Nat) :
    Apart ((printedRows space printRowNum elements i
      (tableOf printVal printRowNum space rows)).take k)
      (expectedRows printVal printRowNum space i rows) := by
  cases rows with
  | nil => exact absurd not (by simp [RowsPrintable])
  | cons fields rows =>
    rw [tableOf, printedRows, expectedRows]
    cases k with
    | zero => exact .short _ (row_starts _ _ _ _)
    | succ k =>
      rw [List.take_succ_cons]
      by_cases own : FieldsPrintable elements fields
      · rw [firstFields_expected printVal printRowNum fields own, rowText_ok]
        refine .later _ (printedRows_apart starts rows k ?_ space (i + 1))
        rcases not with short | not
        · exact .inl (Nat.lt_of_succ_lt_succ short)
        · exact .inr fun each => not ⟨own, each⟩
      · exact .here _ _ (rowText_differs _ (firstFields_apart starts fields own space))

theorem firstFields_apart (starts : ∀ space v, Starts (printVal space v)) {n : Nat}
    (fields : List (Option (Value L)))
    (not : ¬FieldsPrintable n fields) (space : List Char) :
    Apart (firstFields n (fieldsOf printVal printRowNum space fields))
      (expectedFields printVal printRowNum space fields) := by
  cases fields with
  | nil => exact absurd trivial not
  | cons f fields =>
    cases f with
    | none =>
      rw [fieldsOf, firstFields_none, expectedFields]
      exact firstFields_apart starts fields not space
    | some v =>
      rw [fieldsOf, expectedFields]
      cases n with
      | zero => exact .short _ (expected_starts printVal printRowNum starts space v)
      | succ n =>
        rw [firstFields_some]
        by_cases own : Printable v
        · rw [printValue_expected printVal printRowNum v own]
          refine .later _ (firstFields_apart starts fields ?_ space)
          exact fun each => not ⟨Nat.succ_pos n, own, each⟩
        · exact .here _ _ (printValue_differs starts v own space)

end

end

/-- A Sequence prints a group for each row, however its other values print, exactly if it and every
Sequence in it have between one row and `2 ^ 31 - 1` and no values behind their elements. -/
theorem printsRows_iff {L : Type} (elements : Nat) (rows : List (List (Option (Value L)))) :
    PrintsRows elements rows ↔ AllPrintable elements rows := by
  have by_rows : ∀ (printVal : List Char → L → List Char) printRowNum space decl,
      printValByRows printVal printRowNum space decl elements rows =
        (printRowsOf space printRowNum elements
          (tableOf printVal printRowNum space rows)).map (declared decl) := by
    intro printVal printRowNum space decl
    rw [printValByRows]
    cases printRowsOf space printRowNum elements (tableOf printVal printRowNum space rows) <;>
      cases decl <;> rfl
  constructor
  · intro prints
    by_contra not
    -- values that print as a letter show every row and value that is missing
    have starts : ∀ (_ : List Char) (_ : L), Starts ['x'] := fun _ _ => ⟨'x', [], rfl, by decide⟩
    have differs := printRowsOf_differs (fun _ _ => ['x']) false [] not fun k short =>
      printedRows_apart _ _ starts rows k short [] 0
    have done := prints (fun _ _ => ['x']) false [] none
    rw [by_rows] at done
    cases text : printRowsOf [] false elements (tableOf (fun _ _ => ['x']) false [] rows) with
    | error failure =>
      rw [text] at done
      cases done
    | ok text' =>
      rw [text] at done
      exact differs _ text [] [] (by simpa [Except.map, declared] using done)
  · intro printable printVal printRowNum space decl
    rw [by_rows, printRowsOf_expected printVal printRowNum printable.1.1 printable.1.2
      (printedRows_expected printVal printRowNum rows printable.2 space 0)]
    rfl

/-- A Sequence without rows prints a group. -/
theorem empty_not_printed : ¬ PrintsRows 1 ([] : List (List (Option (Value Nat)))) := by
  intro prints
  have done := prints (fun _ _ => []) false [] none
  exact absurd done (by decide)

end Libdap.Guarantees.SequencePrint
