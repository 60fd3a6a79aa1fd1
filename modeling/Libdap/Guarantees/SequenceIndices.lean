import Libdap.Guarantees.ConstraintNumbers
import Libdap.Library.Outcome

/-!
# Rows of a Sequence in brackets

A star is the stop -1, which comes before every start. The stride is not looked at, and of
several indices the last one stays.
-/
namespace Libdap.Guarantees.SequenceIndices
open Libdap.Library
open Libdap.Source Libdap.Source.Escaping Libdap.Source.Words Libdap.Source.Lookup
open Libdap.Source.Hyperslab Libdap.Source.Constraint
open Libdap.Guarantees.ConstraintNumbers

/-! ### What the notation denotes -/

/-- Row numbers from a start on, up to a limit or to the end. -/
structure Rows where
  start : Int
  stride : Int
  limit : Option Int

def Rows.Selects (r : Rows) (row : Int) : Prop :=
  (∃ k : Nat, row = r.start + k * r.stride) ∧ ∀ l, r.limit = some l → row ≤ l

def lastWords : Last → List Text
  | .word yytext => [yytext]
  | .star => []

def words : ArrayIndex → List Text
  | .one last => lastWords last
  | .two start last => start :: lastWords last
  | .three start stride last => start :: stride :: lastWords last

def lastIsStar : Last → Bool
  | .word _ => false
  | .star => true

def hasStar : ArrayIndex → Bool
  | .one last | .two _ last | .three _ _ last => lastIsStar last

/-- Every word is a number that is not negative. -/
def Accepted (i : ArrayIndex) : Prop := ∀ w ∈ words i, checkUint32 (storeId w) = true

/-- The number that was checked. -/
def number (yytext : Text) : Int := (literal (storeId yytext)).getD 0

/-- The number as `atoi` reads it. -/
def reading (yytext : Text) : Int := atoi (storeId yytext)

def lastNumber : Last → Option Int
  | .word yytext => some (number yytext)
  | .star => none

def denoted : ArrayIndex → Rows
  | .one (.word yytext) => ⟨number yytext, 1, some (number yytext)⟩
  | .one .star => ⟨0, 1, none⟩
  | .two start last => ⟨number start, 1, lastNumber last⟩
  | .three start stride last => ⟨number start, number stride, lastNumber last⟩

/-- The rows of a constraint, where the stop -1 is no limit. -/
def keptRows (start stop stride : Int) : Rows :=
  ⟨start, stride, if stop = -1 then none else some stop⟩

/-- A constraint of the Sequence that is well formed and selects the rows that are denoted. -/
structure Constrained (i : ArrayIndex) (start stop stride : Int) : Prop where
  start_positive : 0 ≤ start
  stride_positive : 1 ≤ stride
  upper_limit : start ≤ stop ∨ (stop = -1 ∧ hasStar i = true)
  selected : ∀ row, (keptRows start stop stride).Selects row ↔ (denoted i).Selects row

/-- The indices in brackets behind the name of the Sequence `p`. -/
def constrainRows (p : Path) (s : Projection) (indices : List ArrayIndex) :
    Except Failure Projection := do
  let indices ← arrayIndices indices
  processSequenceIndices p indices s

/-- What is not refused is one index, with its constraint; the forms with a star are not
refused. -/
structure RowsRight (p : Path) (s : Projection) (first : ArrayIndex) (rest : List ArrayIndex) :
    Prop where
  constrained : ∀ s', constrainRows p s (first :: rest) = .ok s' → rest = [] ∧
    ∃ start stop stride, s'.rows p = some (start, stop, stride) ∧
      Constrained first start stop stride
  star_accepted : rest = [] → hasStar first = true → Accepted first →
    1 ≤ (denoted first).stride → ∃ s', constrainRows p s [first] = .ok s'

/-! ### When the constraint is right -/

def lastReading : Last → Int
  | .word yytext => reading yytext
  | .star => -1

/-- The three numbers of an index with words that are accepted. -/
def readIndex : ArrayIndex → Index
  | .one last => ⟨if lastReading last = -1 then 0 else lastReading last, 1, lastReading last⟩
  | .two start last => ⟨reading start, 1, lastReading last⟩
  | .three start stride last => ⟨reading start, reading stride, lastReading last⟩

/-- The stop, which is -1 for a star, comes before the start. -/
def Backwards (i : ArrayIndex) : Prop := (readIndex i).stop < (readIndex i).start

def readRows (i : ArrayIndex) : Rows :=
  ⟨(readIndex i).start, (readIndex i).stride, some (readIndex i).stop⟩

/-- An index alone: with a star, only the stride 0 is to be refused; without, the stop comes
before the start, or the stride is positive and the words read in decimal select the rows that
are denoted. -/
def FitsAlone (i : ArrayIndex) : Prop :=
  if hasStar i then Backwards i ∧ (denoted i).stride < 1
  else Backwards i ∨
    (1 ≤ (readIndex i).stride ∧ ∀ row, (readRows i).Selects row ↔ (denoted i).Selects row)

/-- A word that is no number is refused; of several indices one has to be refused. -/
def Fits (first : ArrayIndex) (rest : List ArrayIndex) : Prop :=
  if rest = [] then ¬Accepted first ∨ FitsAlone first
  else ∃ i ∈ first :: rest, ¬Accepted i ∨ Backwards i

/-! ### Words and indices -/

theorem indexWord_accepted {w : Text} (accepted : checkUint32 (storeId w) = true) :
    indexWord w = .ok (reading w) := by
  rw [indexWord, if_pos accepted]
  rfl

theorem indexWord_refused {w : Text} (refused : ¬checkUint32 (storeId w) = true) :
    ∃ e, indexWord w = .error e :=
  ⟨_, by rw [indexWord, if_neg refused]⟩

theorem indexWord_ok {w : Text} {v : Int} (read : indexWord w = .ok v) :
    checkUint32 (storeId w) = true := by
  by_contra refused
  obtain ⟨e, error⟩ := indexWord_refused refused
  rw [error] at read
  cases read

theorem indexLast_accepted {last : Last}
    (accepted : ∀ w ∈ lastWords last, checkUint32 (storeId w) = true) :
    indexLast last = .ok (lastReading last) := by
  cases last with
  | word yytext => exact indexWord_accepted (accepted yytext List.mem_cons_self)
  | star => rfl

theorem indexLast_ok {last : Last} {v : Int} (read : indexLast last = .ok v) :
    ∀ w ∈ lastWords last, checkUint32 (storeId w) = true := by
  cases last with
  | word yytext =>
    intro w member
    rw [List.mem_singleton.mp member]
    exact indexWord_ok read
  | star => exact fun w member => absurd member List.not_mem_nil

theorem arrayIndex_accepted {i : ArrayIndex} (accepted : Accepted i) :
    arrayIndex i = .ok (readIndex i) := by
  cases i with
  | one last =>
    rw [arrayIndex, indexLast_accepted accepted]
    rfl
  | two start last =>
    obtain ⟨first, others⟩ := List.forall_mem_cons.mp accepted
    rw [arrayIndex, indexWord_accepted first, indexLast_accepted others]
    rfl
  | three start stride last =>
    obtain ⟨first, others⟩ := List.forall_mem_cons.mp accepted
    obtain ⟨second, others⟩ := List.forall_mem_cons.mp others
    rw [arrayIndex, indexWord_accepted first, indexWord_accepted second,
      indexLast_accepted others]
    rfl

theorem arrayIndex_ok {i : ArrayIndex} {index : Index} (read : arrayIndex i = .ok index) :
    Accepted i := by
  cases i with
  | one last =>
    obtain ⟨v, first, -⟩ := bind_success read
    exact indexLast_ok first
  | two start last =>
    obtain ⟨v, first, read⟩ := bind_success read
    obtain ⟨w, second, -⟩ := bind_success read
    exact List.forall_mem_cons.mpr ⟨indexWord_ok first, indexLast_ok second⟩
  | three start stride last =>
    obtain ⟨v, first, read⟩ := bind_success read
    obtain ⟨w, second, read⟩ := bind_success read
    obtain ⟨x, third, -⟩ := bind_success read
    exact List.forall_mem_cons.mpr ⟨indexWord_ok first,
      List.forall_mem_cons.mpr ⟨indexWord_ok second, indexLast_ok third⟩⟩

theorem arrayIndices_accepted {indices : List ArrayIndex}
    (accepted : ∀ i ∈ indices, Accepted i) :
    arrayIndices indices = .ok (indices.map readIndex) := by
  induction indices with
  | nil => rfl
  | cons i rest ih =>
    obtain ⟨first, others⟩ := List.forall_mem_cons.mp accepted
    rw [arrayIndices, List.mapM_cons, arrayIndex_accepted first]
    change (arrayIndices rest >>= fun rs => pure (readIndex i :: rs)) = _
    rw [ih others]
    rfl

theorem arrayIndices_ok {indices : List ArrayIndex} {read : List Index}
    (done : arrayIndices indices = .ok read) : ∀ i ∈ indices, Accepted i := by
  induction indices generalizing read with
  | nil => exact fun i member => absurd member List.not_mem_nil
  | cons i rest ih =>
    rw [arrayIndices, List.mapM_cons] at done
    obtain ⟨index, first, done⟩ := bind_success done
    obtain ⟨others, later, -⟩ := bind_success done
    exact List.forall_mem_cons.mpr ⟨arrayIndex_ok first, ih later⟩

/-! ### The constraint that stays -/

section
variable (p : Path) (s : Projection)

theorem process_one (i : Index) (inOrder : ¬i.stop < i.start) :
    ∃ s', processSequenceIndices p [i] s = .ok s' ∧
      s'.rows p = some (i.start, i.stop, i.stride) := by
  rw [processSequenceIndices, List.foldlM_cons, if_neg inOrder]
  exact ⟨_, rfl, if_pos rfl⟩

theorem process_succeeds_iff (indices : List Index) (s : Projection) :
    (∃ s', processSequenceIndices p indices s = .ok s') ↔
      ∀ i ∈ indices, ¬i.stop < i.start := by
  induction indices generalizing s with
  | nil => exact iff_of_true ⟨s, rfl⟩ fun i member => absurd member List.not_mem_nil
  | cons i rest ih =>
    rw [List.forall_mem_cons]
    simp only [processSequenceIndices, List.foldlM_cons]
    by_cases backwards : i.stop < i.start
    · rw [if_pos backwards]
      constructor
      · intro done
        obtain ⟨s', done⟩ := done
        cases done
      · exact fun right => absurd backwards right.1
    · rw [if_neg backwards]
      exact (ih _).trans (and_iff_right backwards).symm

theorem constrainRows_succeeds_iff (indices : List ArrayIndex) :
    (∃ s', constrainRows p s indices = .ok s') ↔
      ∀ i ∈ indices, Accepted i ∧ ¬Backwards i := by
  constructor
  · intro done
    obtain ⟨s', done⟩ := done
    obtain ⟨read, first, done⟩ := bind_success done
    have accepted := arrayIndices_ok first
    rw [arrayIndices_accepted accepted] at first
    cases first
    have inOrder := (process_succeeds_iff p _ s).mp ⟨s', done⟩
    exact fun i member => ⟨accepted i member, inOrder _ (List.mem_map_of_mem member)⟩
  · intro each
    rw [constrainRows, arrayIndices_accepted fun i member => (each i member).1]
    refine (process_succeeds_iff p _ s).mpr ?_
    intro index member
    obtain ⟨i, listed, rfl⟩ := List.mem_map.mp member
    exact (each i listed).2

theorem constrainRows_one {i : ArrayIndex} {s' : Projection}
    (done : constrainRows p s [i] = .ok s') :
    s'.rows p = some ((readIndex i).start, (readIndex i).stop, (readIndex i).stride) := by
  obtain ⟨accepted, inOrder⟩ :=
    (constrainRows_succeeds_iff p s [i]).mp ⟨s', done⟩ i List.mem_cons_self
  obtain ⟨right, last, rows⟩ := process_one p s (readIndex i) inOrder
  rw [constrainRows, arrayIndices_accepted (List.forall_mem_singleton.mpr accepted)] at done
  change processSequenceIndices p [readIndex i] s = .ok s' at done
  rw [last] at done
  cases done
  exact rows

end

/-! ### An index alone -/

theorem number_nonneg {w : Text} (accepted : checkUint32 (storeId w) = true) : 0 ≤ number w := by
  obtain ⟨plus, v, read, -⟩ := checkUint32_number accepted
  rw [number, literal_eq read, plus]
  exact Int.natCast_nonneg v

theorem denoted_nonneg {i : ArrayIndex} (accepted : Accepted i) :
    0 ≤ (denoted i).start ∧ 0 ≤ (denoted i).stride := by
  cases i with
  | one last =>
    cases last with
    | word yytext => exact ⟨number_nonneg (accepted yytext List.mem_cons_self), by simp [denoted]⟩
    | star => exact ⟨le_refl 0, by simp [denoted]⟩
  | two start last =>
    exact ⟨number_nonneg (accepted start List.mem_cons_self), by simp [denoted]⟩
  | three start stride last =>
    exact ⟨number_nonneg (accepted start List.mem_cons_self),
      number_nonneg (accepted stride (List.mem_cons_of_mem _ List.mem_cons_self))⟩

theorem denoted_row_nonneg {i : ArrayIndex} (accepted : Accepted i) {row : Int}
    (selected : (denoted i).Selects row) : 0 ≤ row := by
  obtain ⟨⟨k, equal⟩, -⟩ := selected
  obtain ⟨start, stride⟩ := denoted_nonneg accepted
  rw [equal]
  positivity

theorem stop_of_star {i : ArrayIndex} (star : hasStar i = true) : (readIndex i).stop = -1 := by
  have last : ∀ last, lastIsStar last = true → lastReading last = -1 := by
    intro last star
    cases last with
    | word yytext => cases star
    | star => rfl
  cases i with
  | one end_ | two _ end_ | three _ _ end_ => exact last end_ star

/-- From 0 on a stop is a limit. -/
theorem kept_eq {i : ArrayIndex} (positive : 0 ≤ (readIndex i).start) (inOrder : ¬Backwards i) :
    keptRows (readIndex i).start (readIndex i).stop (readIndex i).stride = readRows i := by
  rw [keptRows, readRows, if_neg]
  rw [Backwards] at inOrder
  omega

theorem constrained_iff {i : ArrayIndex} (accepted : Accepted i) (inOrder : ¬Backwards i) :
    Constrained i (readIndex i).start (readIndex i).stop (readIndex i).stride ↔
      1 ≤ (readIndex i).stride ∧
        ∀ row, (readRows i).Selects row ↔ (denoted i).Selects row := by
  constructor
  · intro right
    rw [← kept_eq right.start_positive inOrder]
    exact ⟨right.stride_positive, right.selected⟩
  · intro right
    obtain ⟨stride, same⟩ := right
    have limit : (readIndex i).start ≤ (readIndex i).stop := not_lt.mp inOrder
    have selected : (readRows i).Selects (readIndex i).start :=
      ⟨⟨0, by simp [readRows]⟩, fun l equal => Option.some.inj equal ▸ limit⟩
    have positive := denoted_row_nonneg accepted ((same _).mp selected)
    exact ⟨positive, stride, .inl limit, by rwa [kept_eq positive inOrder]⟩

/-- Behind a star a constraint that is kept starts below 0. -/
theorem fitsAlone_iff {i : ArrayIndex} (accepted : Accepted i) :
    FitsAlone i ↔
      (¬Backwards i →
        Constrained i (readIndex i).start (readIndex i).stop (readIndex i).stride) ∧
      (hasStar i = true → 1 ≤ (denoted i).stride → ¬Backwards i) := by
  rw [FitsAlone]
  by_cases star : hasStar i = true
  · rw [if_pos star]
    have stop := stop_of_star star
    have never : ¬Backwards i →
        ¬Constrained i (readIndex i).start (readIndex i).stop (readIndex i).stride := by
      intro inOrder right
      have positive := right.start_positive
      rw [Backwards] at inOrder
      omega
    constructor
    · intro fits
      exact ⟨fun inOrder => absurd fits.1 inOrder, fun _ stride => absurd fits.2 (by omega)⟩
    · intro right
      have backwards : Backwards i := by
        by_contra inOrder
        exact never inOrder (right.1 inOrder)
      exact ⟨backwards, not_le.mp fun stride => right.2 star stride backwards⟩
  · rw [if_neg star]
    by_cases backwards : Backwards i
    · simp [backwards, star]
    · rw [← constrained_iff accepted backwards]
      simp [backwards, star]

/-- Exactly the lists that fit give the right rows. -/
theorem rowsRight_iff_fits (p : Path) (s : Projection) (first : ArrayIndex)
    (rest : List ArrayIndex) : RowsRight p s first rest ↔ Fits first rest := by
  have succeeds := constrainRows_succeeds_iff p s
  rw [Fits]
  split
  · next alone =>
    subst alone
    by_cases accepted : Accepted first
    · rw [fitsAlone_iff accepted]
      have one : (∃ s', constrainRows p s [first] = .ok s') ↔ ¬Backwards first := by
        simp [succeeds, accepted]
      constructor
      · intro right
        refine .inr ⟨fun inOrder => ?_, fun star stride => ?_⟩
        · obtain ⟨s', done⟩ := one.mpr inOrder
          obtain ⟨-, start, stop, stride, rows, constrained⟩ := right.constrained s' done
          rw [constrainRows_one p s done] at rows
          cases rows
          exact constrained
        · exact one.mp (right.star_accepted rfl star accepted stride)
      · intro fits
        obtain ⟨constrained, star⟩ := fits.resolve_left (not_not.mpr accepted)
        refine ⟨fun s' done => ⟨rfl, _, _, _, constrainRows_one p s done, ?_⟩, ?_⟩
        · exact constrained (one.mp ⟨s', done⟩)
        · exact fun _ has_star _ stride => one.mpr (star has_star stride)
    · have none : ∀ s', constrainRows p s [first] ≠ .ok s' := by
        intro s' done
        exact accepted ((succeeds _).mp ⟨s', done⟩ first List.mem_cons_self).1
      exact iff_of_true ⟨fun s' done => absurd done (none s'), fun _ _ yes => absurd yes accepted⟩
        (.inl accepted)
  · next several =>
    have refused : (¬∃ s', constrainRows p s (first :: rest) = .ok s') ↔
        ∃ i ∈ first :: rest, ¬Accepted i ∨ Backwards i := by
      rw [succeeds]
      push Not
      simp only [imp_iff_not_or]
    rw [← refused]
    constructor
    · intro right done
      obtain ⟨s', done⟩ := done
      exact several (right.constrained s' done).1
    · intro never
      exact ⟨fun s' done => absurd ⟨s', done⟩ never, fun alone => absurd alone several⟩

/-- Nothing is constrained yet. -/
def whole : Projection where
  sendP := fun _ => false
  dims := fun _ => Array.fresh
  rows := fun _ => none

/-- The index `[*]` is refused. -/
theorem star_not_right : ¬ RowsRight [] whole (.one .star) [] := by
  intro right
  obtain ⟨s', done⟩ := right.star_accepted rfl rfl
    (fun w member => absurd member List.not_mem_nil) (by decide)
  cases done

/-! ### Numbers with one reading -/

theorem reading_eq {w : Text} (accepted : checkUint32 (storeId w) = true)
    (one : OneReading (splitSign (storeId w)).2) (small : number w < 2 ^ 31) :
    reading w = number w := by
  obtain ⟨plus, v, read, bound⟩ := checkUint32_number accepted
  have value : number w = signed (splitSign (storeId w)).1 v := by
    rw [number, literal_eq read]
    rfl
  rw [value] at small ⊢
  refine atoi_of_reading read bound one ?_ small
  rw [plus]
  exact le_trans (by decide) (Int.natCast_nonneg v)

/-- Numbers below `2 ^ 31` whose base does not matter: without a star only a stride of 0 is
kept wrongly. -/
theorem fitsAlone_plain {i : ArrayIndex} (accepted : Accepted i) (plain : hasStar i = false)
    (one : ∀ w ∈ words i, OneReading (splitSign (storeId w)).2 ∧ number w < 2 ^ 31) :
    FitsAlone i ↔ Backwards i ∨ 1 ≤ (denoted i).stride := by
  have same : ∀ w ∈ words i, reading w = number w := fun w member =>
    reading_eq (accepted w member) (one w member).1 (one w member).2
  have rows : readRows i = denoted i := by
    have end_ : ∀ last, lastIsStar last = false → (∀ w ∈ lastWords last, reading w = number w) →
        some (lastReading last) = lastNumber last := by
      intro last word each
      cases last with
      | word yytext => exact congrArg some (each yytext List.mem_cons_self)
      | star => cases word
    cases i with
    | one last =>
      cases last with
      | word yytext =>
        have equal := same yytext List.mem_cons_self
        have positive := number_nonneg (accepted yytext List.mem_cons_self)
        simp only [readRows, readIndex, lastReading, denoted, equal]
        rw [if_neg (by omega)]
      | star => cases plain
    | two start last =>
      obtain ⟨first, others⟩ := List.forall_mem_cons.mp same
      simp only [readRows, readIndex, denoted, first, end_ last plain others]
    | three start stride last =>
      obtain ⟨first, others⟩ := List.forall_mem_cons.mp same
      obtain ⟨second, others⟩ := List.forall_mem_cons.mp others
      simp only [readRows, readIndex, denoted, first, second, end_ last plain others]
  have stride : (readIndex i).stride = (denoted i).stride := by
    rw [← rows]
    rfl
  rw [FitsAlone, if_neg (by simp [plain]), rows, stride]
  simp

end Libdap.Guarantees.SequenceIndices
