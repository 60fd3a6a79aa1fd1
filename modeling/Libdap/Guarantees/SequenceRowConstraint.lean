import Libdap.Guarantees.SequenceGrows
import Libdap.Guarantees.SequenceRowNumbers

/-!
# A row number constraint on the inner of two Sequences

The inner Sequence is left behind its constraint with its counters as they are. The
next outer row then either finds rows behind that place, which `read_row` refuses, or
the end of its instance, where the counters are reset but the row still held counts
as row 0. An empty instance leaves such a row too. `InStep` says when none of this
shows. Both Sequences number one row more than they send.
-/
namespace Libdap.Guarantees.SequenceRowConstraint
open Libdap.Library Libdap.Library.Numbered
open Libdap.Source Libdap.Source.Sequence
open SequenceWalk SequenceSerialize SequenceRowNumbers

variable {V : Type}

/-- The outer rows with a selected inner row, each with all of these. -/
def expected (mask child : List Bool) (start stride stop : Nat) (rows : List (Row V)) :
    List (Row V) :=
  rows.filterMap fun r =>
    match picked child start stride stop (r.children.map Row.values) with
    | [] => none
    | c :: children => some (.mk (project mask r.values) (c :: children))

/-- Two Sequences, the inner one with a row number constraint, as they are sent. -/
def sendConstrained (mask child : List Bool) (start stride stop : Nat) (rows : List (Row V)) :
    Except Failure (Stream V) := do
  let inner ← (make child []).setRowNumberConstraint start stop stride
  send everything (setLeafSequence 1 (make mask rows) [inner])

/-- The rows with the numbers of the constraint are sent, and nothing else. -/
def SendsNumbered (mask child : List Bool) (start stride stop : Nat) (rows : List (Row V)) : Prop :=
  sendConstrained mask child start stride stop rows =
    .ok (encodeInstance 1 (expected mask child start stride stop rows))

/-! ## The inner Sequence from row to row -/

/-- The inner Sequence between two outer rows: reset, or left behind its constraint. -/
def Between (start stride stop : Nat) : Bool → Sequence V → Prop
  | true, c => c.rowNumber = firstBeyond start stride stop ∧
      c.current = firstBeyond start stride stop + 1
  | false, c => Idle c

/-- Instances of these lengths, one after the other, are read from where they start. -/
def InStep (start stride stop : Nat) : Bool → List Nat → Prop
  | _, [] => True
  | stopped, n :: rest =>
    (if stopped then n < start else start = 0 → 0 < n) ∧
      InStep start stride stop (!stopped && decide (firstBeyond start stride stop < n)) rest

/-- The inner Sequence once the outer one has read a row. -/
def arrived (rows : List (Row V)) (c : Sequence V) : Sequence V :=
  { ({ c with readP := false }.advance rows).1 with readP := true }

theorem arrive_leaf (rows : List (Row V)) (c : Sequence V) :
    arrive rows [c] = [arrived rows c] := rfl

/-- What counts as its rows: a row it holds from before comes first. -/
def effective (stopped : Bool) (c : Sequence V) (rows : List (Row V)) : List (List V) :=
  if stopped || rows.isEmpty then c.fields :: rows.map Row.values else rows.map Row.values

section
variable {mask child : List Bool} {start stride stop : Nat} {c : Sequence V} {stopped : Bool}
  {rows : List (Row V)}

theorem arrived_bounded (bounded : Bounded child start stride stop c) (rows : List (Row V)) :
    Bounded child start stride stop (arrived rows c) := by
  obtain ⟨h₁, h₂, h₃, h₄, h₅, h₆, h₇⟩ := bounded
  unfold arrived Sequence.advance
  simp only [Bool.false_eq_true, if_false]
  split <;> exact ⟨h₁, h₂, h₃, h₄, h₅, h₆, h₇⟩

/-- Where it does not find rows behind its place, it starts again. -/
theorem arrived_ready (between : Between start stride stop stopped c)
    (short : stopped = true → rows.length ≤ firstBeyond start stride stop + 1) :
    (arrived rows c).readP = true ∧ (arrived rows c).rowNumber = -1 ∧
      (arrived rows c).current ≤ (arrived rows c).rows.length ∧
      upcoming (arrived rows c) = effective stopped c rows ∧
      (arrived rows c).current = if stopped || rows.isEmpty then 0 else 1 := by
  cases stopped with
  | true =>
    have past : rows[c.current]? = none := by
      rw [List.getElem?_eq_none_iff, between.2]
      exact short rfl
    simp [arrived, Sequence.advance, past, upcoming, effective]
  | false =>
    obtain ⟨number, current⟩ := between
    cases rows with
    | nil => simp [arrived, Sequence.advance, upcoming, effective]
    | cons r rows => simp [arrived, Sequence.advance, current, number, upcoming, effective]

theorem arrived_sends (positive : 1 ≤ stride) (ordered : start ≤ stop)
    (bounded : Bounded child start stride stop c) (between : Between start stride stop stopped c)
    (short : stopped = true → rows.length ≤ firstBeyond start stride stop + 1)
    (countable : Countable start stride stop 0 (effective stopped c rows).length)
    (above : List (Sequence V)) (out : Stream V) :
    ∃ c', serialize everything 1 true (Place.mk above (arrived rows c) [] out) =
        .ok (Place.mk
          (afterInstance above out false 0
            (picked child start stride stop (effective stopped c rows))).1 c' []
          (afterInstance above out false 0
            (picked child start stride stop (effective stopped c rows))).2) ∧
      Bounded child start stride stop c' ∧ LeftAt start stride stop 0 (arrived rows c) c' := by
  have bounded' := arrived_bounded bounded rows
  obtain ⟨primed, number, room, coming, -⟩ := arrived_ready between short
  rw [← coming] at countable ⊢
  rw [serialize_of_leaf 0 bounded'.leaf]
  exact serializeLeaf_strided (serialize everything 0 true) positive ordered bounded' primed number
    room countable out

theorem arrived_overflows (positive : 1 ≤ stride) (ordered : start ≤ stop)
    (bounded : Bounded child start stride stop c) (between : Between start stride stop stopped c)
    (short : stopped = true → rows.length ≤ firstBeyond start stride stop + 1)
    (overflow : ¬ Countable start stride stop 0 (effective stopped c rows).length)
    (above : List (Sequence V)) (out : Stream V) :
    serialize everything 1 true (Place.mk above (arrived rows c) [] out) =
      .error .undefinedBehaviour := by
  have bounded' := arrived_bounded bounded rows
  obtain ⟨primed, number, room, coming, -⟩ := arrived_ready between short
  rw [← coming] at overflow
  rw [serialize_of_leaf 0 bounded'.leaf]
  exact serializeLeaf_strided_large (serialize everything 0 true) positive ordered bounded' primed
    number room overflow out

/-- Rows behind the place where it was left are refused. -/
theorem arrived_refuses (positive : 1 ≤ stride) (ordered : start ≤ stop)
    (bounded : Bounded child start stride stop c) (between : Between start stride stop true c)
    (long : firstBeyond start stride stop + 1 < rows.length) (above : List (Sequence V))
    (out : Stream V) :
    serialize everything 1 true (Place.mk above (arrived rows c) [] out) =
      .error (.internalErr "Trying to back up inside a sequence!") := by
  have bounded' := arrived_bounded bounded rows
  have beyond := lt_firstBeyond positive ordered
  have row : (arrived rows c).firstRow = start := by
    rw [Sequence.firstRow, bounded'.starting, if_pos (by omega)]
  have number : (arrived rows c).rowNumber = firstBeyond start stride stop := by
    rw [← between.1, arrived, Sequence.advance, between.2, List.getElem?_eq_getElem long]
    rfl
  rw [serialize_of_leaf 0 bounded'.leaf, serializeLeaf]
  simp only [row, Place.readRow, number]
  rw [if_pos (by omega)]
  rfl

theorem picked_short (child : List Bool) (stride stop : Nat) {values : List (List V)} (short : values.length ≤ start) :
    picked child start stride stop values = [] := by
  rw [picked, strided_start, List.drop_eq_nil_of_le short]
  rfl

/-- In step, what counts as its rows is its own instance, or ends before the first row
of the constraint. -/
theorem effective_inStep (c : Sequence V)
    (fine : if stopped then rows.length < start else start = 0 → 0 < rows.length) :
    (effective stopped c rows = c.fields :: rows.map Row.values ∧ rows.length < start) ∨
      effective stopped c rows = rows.map Row.values := by
  by_cases held : (stopped || rows.isEmpty) = true
  · refine Or.inl ⟨if_pos held, ?_⟩
    cases stopped with
    | true => exact fine
    | false =>
      rw [List.isEmpty_iff.mp held]
      rw [List.isEmpty_iff.mp held] at fine
      exact Nat.pos_of_ne_zero fun zero => Nat.lt_irrefl 0 (fine zero)
  · exact Or.inr (if_neg held)

theorem effective_countable (c : Sequence V)
    (fine : if stopped then rows.length < start else start = 0 → 0 < rows.length) :
    Countable start stride stop 0 (effective stopped c rows).length ↔
      Countable start stride stop 0 rows.length := by
  rcases effective_inStep c fine with ⟨values, few⟩ | values
  · have size : (effective stopped c rows).length = rows.length + 1 := by simp [values]
    rw [size]
    exact iff_of_true (countable_short few) (countable_short (Nat.le_of_lt few))
  · rw [values, List.length_map]

theorem inStep_short (positive : 1 ≤ stride) (ordered : start ≤ stop)
    (fine : if stopped then rows.length < start else start = 0 → 0 < rows.length) :
    stopped = true → rows.length ≤ firstBeyond start stride stop + 1 := by
  rintro rfl
  have beyond := lt_firstBeyond positive ordered
  rw [if_pos rfl] at fine
  omega

/-- In step, it sends the rows of the constraint from its own instance. -/
theorem arrived_inStep (positive : 1 ≤ stride) (ordered : start ≤ stop)
    (bounded : Bounded child start stride stop c) (between : Between start stride stop stopped c)
    (fine : if stopped then rows.length < start else start = 0 → 0 < rows.length)
    (countable : Countable start stride stop 0 rows.length)
    (above : List (Sequence V)) (out : Stream V) :
    ∃ c', serialize everything 1 true (Place.mk above (arrived rows c) [] out) =
        .ok (Place.mk
          (afterInstance above out false 0
            (picked child start stride stop (rows.map Row.values))).1 c' []
          (afterInstance above out false 0
            (picked child start stride stop (rows.map Row.values))).2) ∧
      Bounded child start stride stop c' ∧
      Between start stride stop (!stopped && decide (firstBeyond start stride stop < rows.length))
        c' ∧
      (firstBeyond start stride stop < rows.length →
        (rows.map Row.values)[firstBeyond start stride stop]? = some c'.fields) := by
  have beyond := lt_firstBeyond positive ordered
  have short := inStep_short positive ordered fine
  obtain ⟨-, -, -, coming, place⟩ := arrived_ready between short
  obtain ⟨c', sent, bounded', left⟩ := arrived_sends positive ordered bounded between short
    ((effective_countable c fine).mpr countable) above out
  by_cases held : (stopped || rows.isEmpty) = true
  · -- the row it holds from before stands in front of the constraint
    have few : rows.length < start := by
      cases stopped with
      | true => exact fine
      | false =>
        rw [List.isEmpty_iff.mp held]
        rw [List.isEmpty_iff.mp held] at fine
        exact Nat.pos_of_ne_zero fun zero => Nat.lt_irrefl 0 (fine zero)
    have values : effective stopped c rows = c.fields :: rows.map Row.values := if_pos held
    have size : (effective stopped c rows).length = rows.length + 1 := by simp [values]
    have nothing := picked_short child stride stop
      (show (effective stopped c rows).length ≤ start by omega)
    have nothing' := picked_short child stride stop
      (show (rows.map Row.values).length ≤ start by rw [List.length_map]; omega)
    have passed : (!stopped && decide (firstBeyond start stride stop < rows.length)) = false := by
      simp only [Bool.and_eq_false_imp, decide_eq_false_iff_not]
      omega
    rw [nothing] at sent
    rw [nothing', passed]
    refine ⟨c', sent, bounded', ?_, fun long => by omega⟩
    rcases left with ⟨-, idle⟩ | ⟨-, -, shown⟩
    · exact idle
    · have bound := (List.getElem?_eq_some_iff.mp shown).1
      rw [coming] at bound
      omega
  · have values : effective stopped c rows = rows.map Row.values := if_neg held
    rw [if_neg held] at place
    rw [values] at sent coming
    simp only [Bool.or_eq_true, not_or, Bool.not_eq_true] at held
    rw [held.1, Bool.not_false, Bool.true_and]
    rcases left with ⟨few, idle⟩ | ⟨number, current, shown⟩
    · rw [coming, List.length_map] at few
      rw [decide_eq_false (by omega)]
      exact ⟨c', sent, bounded', idle, fun long => by omega⟩
    · rw [coming] at shown
      have bound := (List.getElem?_eq_some_iff.mp shown).1
      rw [List.length_map] at bound
      rw [decide_eq_true (by omega)]
      exact ⟨c', sent, bounded', ⟨number, by rw [current, place]; omega⟩, fun _ => shown⟩

end

/-! ## The outer Sequence -/

/-- What has been sent of the outer rows so far. -/
def SentRows (rows : List (Row V)) (wrote : Bool) (out : Stream V) : Prop :=
  match rows with
  | [] => wrote = false ∧ out = []
  | r :: rows => wrote = true ∧ out = encodeRows 1 (r :: rows)

section
variable {mask child : List Bool} {start stride stop : Nat} {s : Sequence V}

/-- The inner rows of an outer row follow its values. -/
theorem afterInstance_row (mask' : s.fieldSendP = mask) (j : Nat) (r : Row V) (wrote : Bool)
    (out : Stream V) (c : Row V) (children : List (Row V)) :
    afterInstance [parentAt s j r wrote] out false 0 (c :: children) =
      ([{ parentAt s j r true with unsentData := false }],
        out ++ encodeRows 1 [.mk (project mask r.values) (c :: children)]) := by
  obtain ⟨commit, pending⟩ := committed_cons (s := parentAt s j r wrote) rfl []
  rw [afterInstance, commit, pending]
  simp [encodeInstance, encodeRows, parentAt, pendingRows, committed, serializeParentPartTwo,
    Row.values, Row.children, mask']

theorem expected_snoc (mask child : List Bool) (start stride stop : Nat) (done : List (Row V))
    (r : Row V) :
    expected mask child start stride stop (done ++ [r]) =
      expected mask child start stride stop done ++
        match picked child start stride stop (r.children.map Row.values) with
        | [] => []
        | c :: children => [.mk (project mask r.values) (c :: children)] := by
  simp only [expected, List.filterMap_append, List.append_cancel_left_eq]
  cases found : picked child start stride stop (r.children.map Row.values) <;> simp [found]

theorem SentRows.out_eq {rows : List (Row V)} {wrote : Bool} {out : Stream V}
    (sent : SentRows rows wrote out) : out = encodeRows 1 rows := by
  cases rows with
  | nil => exact sent.2
  | cons r rows => exact sent.2

theorem SentRows.snoc {rows : List (Row V)} {wrote : Bool} {out : Stream V}
    (sent : SentRows rows wrote out) (r : Row V) :
    SentRows (rows ++ [r]) true (out ++ encodeRows 1 [r]) := by
  cases rows with
  | nil =>
    obtain ⟨-, rfl⟩ := sent
    exact ⟨rfl, rfl⟩
  | cons first rows =>
    obtain ⟨-, rfl⟩ := sent
    exact ⟨rfl, (encodeRows_append 1 (first :: rows) [r]).symm⟩

/-- Sending the inner rows of one more outer row. -/
theorem sentRows_step (mask' : s.fieldSendP = mask) {done : List (Row V)} {wrote : Bool}
    {out : Stream V} (sent : SentRows (expected mask child start stride stop done) wrote out)
    (j : Nat) (r : Row V) :
    ∃ wrote' unsent,
      (afterInstance [parentAt s j r wrote] out false 0
        (picked child start stride stop (r.children.map Row.values))).1 =
        [{ parentAt s j r wrote' with unsentData := unsent }] ∧
      SentRows (expected mask child start stride stop (done ++ [r])) wrote'
        (afterInstance [parentAt s j r wrote] out false 0
          (picked child start stride stop (r.children.map Row.values))).2 := by
  have snoc := expected_snoc mask child start stride stop done r
  cases found : picked child start stride stop (r.children.map Row.values) with
  | nil =>
    rw [found, List.append_nil] at snoc
    rw [snoc]
    exact ⟨wrote, true, rfl, sent⟩
  | cons c children =>
    rw [found] at snoc
    rw [snoc, afterInstance_row mask']
    exact ⟨true, false, rfl, sent.snoc _⟩

/-- Between two outer rows, as long as the inner Sequence is in step. -/
def OnTime (s : Sequence V) (mask child : List Bool) (start stride stop : Nat)
    (done : List (Row V)) (wrote : Bool) (above : List (Sequence V)) (out : Stream V)
    (levels : List (Sequence V)) : Prop :=
  above = [] ∧ SentRows (expected mask child start stride stop done) wrote out ∧
    ∃ stopped c, levels = [c] ∧ Bounded child start stride stop c ∧
      Between start stride stop stopped c ∧
      InStep start stride stop stopped ((s.rows.drop done.length).map fun r => r.children.length)

theorem onTime_keeps (positive : 1 ≤ stride) (ordered : start ≤ stop)
    (mask' : s.fieldSendP = mask) :
    RowKeeps (serialize everything 1 true) s
      (fun r => Countable start stride stop 0 r.children.length)
      (OnTime s mask child start stride stop) := by
  rintro done r later wrote above out levels split countable ⟨rfl, sent, stopped, c, rfl, bounded,
    between, inStep⟩
  have ahead : s.rows.drop done.length = r :: later := by rw [split, List.drop_left]
  rw [ahead] at inStep
  obtain ⟨fine, next⟩ := inStep
  obtain ⟨wrote', unsent, parent, sent'⟩ := sentRows_step (s := s) mask' sent done.length r
  obtain ⟨c', called, bounded', between', -⟩ := arrived_inStep positive ordered bounded between fine
    countable [parentAt s done.length r wrote] out
  rw [parent] at called
  refine ⟨arrived r.children c, [], wrote', unsent, [], _, c', [], arrive_leaf .., ?_, called,
    bounded'.sendP, rfl, sent', _, c', rfl, bounded', between', ?_⟩
  · exact (arrived_bounded bounded _).sendP
  · rw [split]
    simpa using next

theorem onTime_fails (positive : 1 ≤ stride) (ordered : start ≤ stop) :
    RowFails (serialize everything 1 true) s
      (fun r => Countable start stride stop 0 r.children.length)
      (OnTime s mask child start stride stop) := by
  rintro done r later wrote above out levels split overflow ⟨rfl, -, stopped, c, rfl, bounded,
    between, inStep⟩
  have ahead : s.rows.drop done.length = r :: later := by rw [split, List.drop_left]
  rw [ahead] at inStep
  obtain ⟨fine, -⟩ := inStep
  refine ⟨arrived r.children c, [], arrive_leaf .., (arrived_bounded bounded _).sendP, ?_⟩
  exact arrived_overflows positive ordered bounded between (inStep_short positive ordered fine)
    (fun countable => overflow ((effective_countable c fine).mp countable)) _ _

end

/-! ## The run -/

section
variable (mask child : List Bool) (start stride stop : Nat) (rows : List (Row V))

/-- The two levels as they are tagged. -/
def outer : Sequence V := { make mask rows with topMost := true }

def inner : Sequence V :=
  { make child [] with
    startingRowNumber := start, rowStride := stride, endingRowNumber := stop, leafSequence := true }

theorem inner_bounded : Bounded child start stride stop (inner child start stride stop : Sequence V) :=
  ⟨rfl, rfl, rfl, rfl, rfl, rfl, rfl⟩

theorem inner_between :
    Between start stride stop false (inner child start stride stop : Sequence V) := ⟨rfl, rfl⟩

theorem sendConstrained_eq (ordered : start ≤ stop) :
    sendConstrained mask child start stride stop rows =
      (serializeParentPartOne everything (serialize everything 1 true)
        (Place.mk [] (outer mask rows) [inner child start stride stop] []) >>=
          fun p => pure p.sink) := by
  have constrained : sendConstrained mask child start stride stop rows =
      send everything [outer mask rows, inner child start stride stop] := by
    rw [sendConstrained, Sequence.setRowNumberConstraint, if_neg (by omega)]
    rfl
  rw [constrained, send, List.length_singleton, serialize_of_parent 1 rfl]

/-- The rows of the outer Sequence, once the first has been read. -/
def outerLoop (r : Row V) : Except Failure (Place V (Stream V)) :=
  parentLoop everything (serialize everything 1 true) (outer mask rows).turns 0 true
    (Place.mk [] (parentAt (outer mask rows) 0 r false)
      [arrived r.children (inner child start stride stop)] [])

end

section
variable {mask child : List Bool} {start stride stop : Nat} {rows : List (Row V)}

theorem sendConstrained_nil (ordered : start ≤ stop) :
    sendConstrained mask child start stride stop ([] : List (Row V)) =
      .ok [.marker endOfSequence] := by
  have read : (Place.mk [] (outer mask ([] : List (Row V))) [inner child start stride stop]
      ([] : Stream V)).readRow everything false 0 = _ :=
    readRow_start rfl rfl rfl rfl rfl
  rw [sendConstrained_eq _ _ _ _ _ _ ordered, serializeParentPartOne]
  simp only [show (outer mask ([] : List (Row V))).firstRow = 0 from rfl, read]
  rfl

/-- Sending comes to the loop over the outer rows and the end marker of the top. -/
theorem sendConstrained_cons (ordered : start ≤ stop) (r : Row V) (later : List (Row V)) :
    sendConstrained mask child start stride stop (r :: later) =
      (outerLoop mask child start stride stop (r :: later) r >>= fun p =>
        pure (if (p.self.topMost || p.self.wroteSoi) = true then writeEndOfSequence p.sink
          else p.sink)) := by
  have read : (Place.mk [] (outer mask (r :: later)) [inner child start stride stop]
      ([] : Stream V)).readRow everything false 0 =
      .ok (true, Place.mk [] (parentAt (outer mask (r :: later)) 0 r false)
        [arrived r.children (inner child start stride stop)] []) :=
    readRow_start rfl rfl rfl rfl rfl
  have turns : (parentAt (outer mask (r :: later)) 0 r false).turns =
      (outer mask (r :: later)).turns := rfl
  rw [sendConstrained_eq _ _ _ _ _ _ ordered, serializeParentPartOne, outerLoop, ← turns]
  simp only [show (outer mask (r :: later)).firstRow = 0 from rfl, read, bind, Except.bind]
  cases parentLoop everything (serialize everything 1 true)
      (parentAt (outer mask (r :: later)) 0 r false).turns 0 true
      (Place.mk [] (parentAt (outer mask (r :: later)) 0 r false)
        [arrived r.children (inner child start stride stop)] []) with
  | error failure => rfl
  | ok p =>
    dsimp only
    cases (p.self.topMost || p.self.wroteSoi) <;> rfl

/-- The outer Sequence and every instance of the inner one can number their rows. -/
def AllCountable (start stride stop : Nat) (lengths : List Nat) : Prop :=
  lengths.length < 2 ^ 31 ∧ ∀ n ∈ lengths, Countable start stride stop 0 n

theorem allCountable_rows : AllCountable start stride stop (rows.map fun r => r.children.length) ↔
    rows.length < 2 ^ 31 ∧ ∀ r ∈ rows, Countable start stride stop 0 r.children.length := by
  simp [AllCountable]

/-- In step, the rows of the constraint are sent exactly if they can be numbered. -/
theorem sendsNumbered_inStep (positive : 1 ≤ stride) (ordered : start ≤ stop)
    (inStep : InStep start stride stop false (rows.map fun r => r.children.length)) :
    SendsNumbered mask child start stride stop rows ↔
      AllCountable start stride stop (rows.map fun r => r.children.length) := by
  unfold SendsNumbered
  rw [allCountable_rows]
  cases rows with
  | nil =>
    rw [sendConstrained_nil ordered]
    exact iff_of_true rfl ⟨Nat.two_pow_pos 31, nofun⟩
  | cons r later =>
    have before : OnTime (outer mask (r :: later)) mask child start stride stop [] false [] []
        [inner child start stride stop] :=
      ⟨rfl, ⟨rfl, rfl⟩, false, _, rfl, inner_bounded .., inner_between .., inStep⟩
    have enough : later.length + 2 ≤ (outer mask (r :: later)).turns := by
      simp [Sequence.turns, outer, make]
    rw [sendConstrained_cons ordered]
    constructor
    · intro sends
      by_contra overflow
      have failed : outerLoop mask child start stride stop (r :: later) r =
          .error .undefinedBehaviour :=
        parentLoop_fails everything (s := outer mask (r :: later)) rfl rfl
          (onTime_keeps positive ordered rfl) (onTime_fails positive ordered)
          (show _ = [] ++ r :: later from rfl) overflow before enough
      rw [failed] at sends
      cases sends
    · rintro ⟨few, all⟩
      obtain ⟨wrote, above, out, levels, loop, rfl, sent, -⟩ :=
        parentLoop_keeps everything (s := outer mask (r :: later)) rfl rfl few
          (onTime_keeps positive ordered rfl) (show _ = [] ++ r :: later from rfl) all before enough
      have ran : outerLoop mask child start stride stop (r :: later) r = .ok _ := loop
      rw [ran, SentRows.out_eq sent]
      rfl

end

/-! ## Out of step -/

/-- Outer row `j` holds its number, its inner rows hold theirs. -/
def sampleRow (j n : Nat) : Row Nat := .mk [j] ((List.range n).map fun i => .mk [i] [])

def sample : Nat → List Nat → List (Row Nat)
  | _, [] => []
  | j, n :: rest => sampleRow j n :: sample (j + 1) rest

theorem sample_lengths (j : Nat) (lengths : List Nat) :
    (sample j lengths).map (fun r => r.children.length) = lengths := by
  induction lengths generalizing j with
  | nil => rfl
  | cons n rest ih =>
    rw [sample, List.map_cons, ih]
    simp [sampleRow, Row.children]

theorem sample_fits (j : Nat) (lengths : List Nat) :
    ∀ r ∈ sample j lengths, r.values.length = [true].length ∧
      ∀ c ∈ r.children, c.values.length = [true].length := by
  induction lengths generalizing j with
  | nil => simp [sample]
  | cons n rest ih =>
    rw [sample]
    refine List.forall_mem_cons.mpr ⟨⟨rfl, ?_⟩, ih (j + 1)⟩
    simp [sampleRow, Row.children, Row.values]

theorem sampleRow_values (j n : Nat) :
    (sampleRow j n).children.map Row.values = (List.range n).map fun i => [i] := by
  simp [sampleRow, Row.children, Row.values, Function.comp_def]

section
variable {start stride stop : Nat}

theorem picked_first {V : Type} (child : List Bool) (positive : 1 ≤ stride)
    (ordered : start ≤ stop) {values : List (List V)} {v : List V}
    (found : values[start]? = some v) :
    ∃ more, picked child start stride stop values = .mk (project child v) [] :: more := by
  obtain ⟨room, here⟩ := List.getElem?_eq_some_iff.mp found
  have first := strided_next positive (show start + 0 * stride ≤ stop by rw [Nat.zero_mul]; omega)
    v (values.drop (start + 1))
  simp only [Nat.zero_mul, Nat.add_zero] at first
  have shape : picked child start stride stop values =
      .mk (project child v) [] :: (numbered (strided start stride stop) (start + (0 + 1) * stride)
        ((values.drop (start + 1)).drop (stride - 1))).map fun v => .mk (project child v) [] := by
    rw [picked, strided_start, List.drop_eq_getElem_cons room, here, first, List.map_cons]
  exact ⟨_, shape⟩

theorem expected_sample (j : Nat) (lengths : List Nat) :
    ∀ r ∈ expected [true] [true] start stride stop (sample j lengths),
      ∃ i, j ≤ i ∧ r.values = [i] := by
  induction lengths generalizing j with
  | nil => simp [sample, expected]
  | cons n rest ih =>
    intro r member
    simp only [expected, sample, List.filterMap_cons] at member
    split at member
    · obtain ⟨i, later, value⟩ := ih (j + 1) r member
      exact ⟨i, by omega, value⟩
    · next kept shown =>
        rcases List.mem_cons.mp member with rfl | member
        · split at shown
          · cases shown
          · cases shown
            exact ⟨j, Nat.le_refl j, rfl⟩
        · obtain ⟨i, later, value⟩ := ih (j + 1) r member
          exact ⟨i, by omega, value⟩

/-- A row that is not the first of the constraint is not what should come next. -/
theorem not_expected (positive : 1 ≤ stride) (ordered : start ≤ stop) {j n : Nat}
    {rest : List Nat} {values : List Nat} {more : List (Row Nat)}
    (wrong : n ≤ start ∨ ∃ a, values = [a] ∧ a ≠ start) :
    ¬ encodeRows 1 [.mk [j] (.mk values [] :: more)] <+:
      encodeInstance 1 (expected [true] [true] start stride stop (sample j (n :: rest))) := by
  rintro ⟨tail, whole⟩
  have split : expected [true] [true] start stride stop (sample j (n :: rest)) =
      (match picked [true] start stride stop ((sampleRow j n).children.map Row.values) with
        | [] => []
        | c :: children => [.mk [j] (c :: children)]) ++
      expected [true] [true] start stride stop (sample (j + 1) rest) := by
    simp only [expected, sample, List.filterMap_cons]
    cases picked [true] start stride stop ((sampleRow j n).children.map Row.values) <;> rfl
  have differ : startOfInstance ≠ endOfSequence := by decide
  rw [split, sampleRow_values] at whole
  by_cases reached : start < n
  · -- the outer row is expected, with its row `start` first
    obtain ⟨a, rfl, other⟩ : ∃ a, values = [a] ∧ a ≠ start := by
      rcases wrong with few | one
      · omega
      · exact one
    have row : ((List.range n).map fun i => [i])[start]? = some [start] := by
      simp [reached]
    obtain ⟨others, first⟩ := picked_first [true] positive ordered row
    rw [first] at whole
    simp [encodeInstance, encodeRows, Row.values, Row.children, project] at whole
    exact other whole.1
  · -- the outer row is not expected at all
    have none := picked_short [true] stride stop
      (show ((List.range n).map fun i => [i]).length ≤ start by simp; omega)
    rw [none, List.nil_append] at whole
    have later : ∀ r ∈ expected [true] [true] start stride stop (sample (j + 1) rest),
        ∃ i, j + 1 ≤ i ∧ r.values = [i] := expected_sample (j + 1) rest
    cases found : expected [true] [true] start stride stop (sample (j + 1) rest) with
    | nil =>
      rw [found] at whole
      simp [encodeInstance, encodeRows, Row.values, differ] at whole
    | cons r others =>
      rw [found] at whole later
      obtain ⟨i, above, value⟩ := later r (List.mem_cons_self ..)
      obtain ⟨fields, children⟩ := r
      change fields = [i] at value
      subst value
      simp [encodeInstance, encodeRows, Row.values] at whole
      omega

/-- Out of step, the inner Sequence refuses or sends a row that should not come next. -/
theorem serialize_outOfStep (positive : 1 ≤ stride) (ordered : start ≤ stop) {j n : Nat}
    {stopped : Bool} {c : Sequence Nat} (bounded : Bounded [true] start stride stop c)
    (between : Between start stride stop stopped c)
    (stale : stopped = true → c.fields = [firstBeyond start stride stop])
    (late : ¬ if stopped then n < start else start = 0 → 0 < n) (above : List (Sequence Nat))
    (out : Stream Nat) :
    (∃ failure, serialize everything 1 true
        (Place.mk above (arrived (sampleRow j n).children c) [] out) = .error failure) ∨
      ∃ values more c', serialize everything 1 true
          (Place.mk above (arrived (sampleRow j n).children c) [] out) =
          .ok (Place.mk (afterInstance above out false 0 (.mk values [] :: more)).1 c' []
            (afterInstance above out false 0 (.mk values [] :: more)).2) ∧
        (n ≤ start ∨ ∃ a, values = [a] ∧ a ≠ start) := by
  have beyond := lt_firstBeyond positive ordered
  have size : (sampleRow j n).children.length = n := by simp [sampleRow, Row.children]
  by_cases refused : stopped = true ∧ firstBeyond start stride stop + 1 < n
  · obtain ⟨rfl, long⟩ := refused
    exact Or.inl ⟨_, arrived_refuses positive ordered bounded between (by rwa [size]) above out⟩
  · have short : stopped = true →
        (sampleRow j n).children.length ≤ firstBeyond start stride stop + 1 := by
      intro left
      rw [size]
      exact Nat.le_of_not_lt fun long => refused ⟨left, long⟩
    by_cases countable : Countable start stride stop 0
        (effective stopped c (sampleRow j n).children).length
    swap
    · exact Or.inl ⟨_, arrived_overflows positive ordered bounded between short countable above out⟩
    right
    obtain ⟨c', called, -, -⟩ :=
      arrived_sends positive ordered bounded between short countable above out
    have held : effective stopped c (sampleRow j n).children =
        c.fields :: (List.range n).map fun i => [i] := by
      unfold effective
      rw [if_pos, sampleRow_values]
      cases stopped with
      | true => rfl
      | false =>
        simp only [Bool.false_eq_true, if_false, Classical.not_imp] at late
        rw [Bool.false_or, List.isEmpty_iff, ← List.length_eq_zero_iff, size]
        omega
    rw [held] at called
    have first : ∃ v, (c.fields :: (List.range n).map fun i => [i])[start]? = some v ∧
        (n ≤ start ∨ ∃ a, project [true] v = [a] ∧ a ≠ start) := by
      cases stopped with
      | true =>
        rw [if_pos rfl] at late
        rw [stale rfl]
        cases start with
        | zero => exact ⟨_, rfl, Or.inr ⟨_, rfl, by omega⟩⟩
        | succ k =>
          have room : k < n := by omega
          exact ⟨[k], by simp [room], Or.inr ⟨k, rfl, by omega⟩⟩
      | false =>
        simp only [Bool.false_eq_true, if_false, Classical.not_imp] at late
        obtain ⟨rfl, empty⟩ := late
        exact ⟨c.fields, rfl, Or.inl (by omega)⟩
    obtain ⟨v, row, wrong⟩ := first
    obtain ⟨more, shape⟩ := picked_first [true] positive ordered row
    rw [shape] at called
    exact ⟨_, more, c', called, wrong⟩

/-- From then on what is sent is not what should be. -/
theorem parentLoop_outOfStep (positive : 1 ≤ stride) (ordered : start ≤ stop) {s : Sequence Nat}
    (mask : s.fieldSendP = [true]) (ending : s.endingRowNumber = -1)
    {j n : Nat} {rest : List Nat} {done : List (Row Nat)} {stopped wrote : Bool}
    {c : Sequence Nat} {out : Stream Nat} {fuel : Nat}
    (split : s.rows = done ++ sample j (n :: rest))
    (sent : SentRows (expected [true] [true] start stride stop done) wrote out)
    (bounded : Bounded [true] start stride stop c) (between : Between start stride stop stopped c)
    (stale : stopped = true → c.fields = [firstBeyond start stride stop])
    (late : ¬ if stopped then n < start else start = 0 → 0 < n) {p : Place Nat (Stream Nat)}
    (ran : parentLoop everything (serialize everything 1 true) fuel done.length true
      (Place.mk [] (parentAt s done.length (sampleRow j n) wrote)
        [arrived (sampleRow j n).children c] out) = .ok p) :
    ¬ p.sink <+: encodeInstance 1 (expected [true] [true] start stride stop s.rows) := by
  obtain ⟨fuel, rfl⟩ : ∃ m, fuel = m + 1 := by
    cases fuel with
    | zero => cases ran
    | succ fuel => exact ⟨fuel, rfl⟩
  have inside : (parentAt s done.length (sampleRow j n) wrote).isEndOfRows done.length = false := by
    simp [Sequence.isEndOfRows, parentAt, ending]
  have projected := (arrived_bounded bounded (sampleRow j n).children).sendP
  obtain ⟨middle, called, kept⟩ :=
    SequenceGrows.parentLoop_call (SequenceGrows.serialize_grows everything 1 true) inside ran
  unfold Place.onChild at called
  simp only [projected, if_true] at called
  rcases serialize_outOfStep positive ordered bounded between stale late
    [parentAt s done.length (sampleRow j n) wrote] out with
    ⟨failure, refused⟩ | ⟨values, more, c', answer, wrong⟩
  · rw [refused] at called
    cases called
  · rw [answer, afterInstance_row mask] at called
    cases called
    intro whole
    have added := kept.trans whole
    rw [split] at added
    have earlier : expected [true] [true] start stride stop (done ++ sample j (n :: rest)) =
        expected [true] [true] start stride stop done ++
          expected [true] [true] start stride stop (sample j (n :: rest)) :=
      List.filterMap_append ..
    rw [earlier, encodeInstance, encodeRows_append, sent.out_eq, List.append_assoc] at added
    exact not_expected positive ordered wrong ((List.prefix_append_right_inj _).mp added)

/-- The first row out of step spoils the whole run. -/
theorem parentLoop_spoiled (positive : 1 ≤ stride) (ordered : start ≤ stop) {s : Sequence Nat}
    (mask : s.fieldSendP = [true]) (unit : s.rowStride = 1) (ending : s.endingRowNumber = -1)
    {j n : Nat} {rest : List Nat} {done : List (Row Nat)} {stopped wrote : Bool}
    {c : Sequence Nat} {out : Stream Nat} {fuel : Nat}
    (split : s.rows = done ++ sample j (n :: rest))
    (sent : SentRows (expected [true] [true] start stride stop done) wrote out)
    (bounded : Bounded [true] start stride stop c) (between : Between start stride stop stopped c)
    (stale : stopped = true → c.fields = [firstBeyond start stride stop])
    (late : ¬ InStep start stride stop stopped (n :: rest)) {p : Place Nat (Stream Nat)}
    (ran : parentLoop everything (serialize everything 1 true) fuel done.length true
      (Place.mk [] (parentAt s done.length (sampleRow j n) wrote)
        [arrived (sampleRow j n).children c] out) = .ok p) :
    ¬ p.sink <+: encodeInstance 1 (expected [true] [true] start stride stop s.rows) := by
  induction rest generalizing j n done stopped wrote c out fuel with
  | nil =>
    have now : ¬ if stopped then n < start else start = 0 → 0 < n := fun fine =>
      late ⟨fine, trivial⟩
    exact parentLoop_outOfStep positive ordered mask ending split sent bounded between stale now ran
  | cons next rest ih =>
    by_cases fine : if stopped then n < start else start = 0 → 0 < n
    · obtain ⟨fuel, rfl⟩ : ∃ m, fuel = m + 1 := by
        cases fuel with
        | zero => cases ran
        | succ fuel => exact ⟨fuel, rfl⟩
      have size : (sampleRow j n).children.length = n := by simp [sampleRow, Row.children]
      have fine' : if stopped then (sampleRow j n).children.length < start
          else start = 0 → 0 < (sampleRow j n).children.length := by rwa [size]
      by_cases small : done.length + 1 < 2 ^ 31
      swap
      · rw [parentLoop_overflow (by exact unit) (by exact ending) fuel small] at ran
        cases ran
      by_cases countable : Countable start stride stop 0 (sampleRow j n).children.length
      swap
      · have failed := arrived_overflows positive ordered bounded between
          (inStep_short positive ordered fine')
          (fun countable' => countable ((effective_countable c fine').mp countable'))
          [parentAt s done.length (sampleRow j n) wrote] out
        rw [parentLoop_failure (by exact unit) (by exact ending) fuel small
          (arrived_bounded bounded _).sendP failed] at ran
        cases ran
      obtain ⟨c', called, bounded', between', shown⟩ := arrived_inStep positive ordered bounded
        between fine' countable [parentAt s done.length (sampleRow j n) wrote] out
      obtain ⟨wrote', unsent, parent, sent'⟩ :=
        sentRows_step (s := s) mask sent done.length (sampleRow j n)
      rw [parent] at called
      have following : s.rows[done.length + 1]? = some (sampleRow (j + 1) next) := by
        rw [split]
        simp [sample]
      rw [parentLoop_turn unit ending small (arrived_bounded bounded _).sendP called bounded'.sendP,
        following] at ran
      have number : ((done.length : Nat) : Int) + 1 = ((done ++ [sampleRow j n]).length : Nat) := by
        simp
      have place : done.length + 1 = (done ++ [sampleRow j n]).length := by simp
      dsimp only at ran
      rw [number, place, arrive_leaf] at ran
      rw [size] at between' shown
      refine ih (by simp [split, sample]) sent' bounded' between' ?_ ?_ ran
      · intro left
        simp only [Bool.and_eq_true, decide_eq_true_eq] at left
        have held := shown left.2
        rw [sampleRow_values] at held
        simpa [left.2] using held.symm
      · intro later
        exact late ⟨fine, later⟩
    · exact parentLoop_outOfStep positive ordered mask ending split sent bounded between stale fine
        ran

theorem inStep_of_sends (positive : 1 ≤ stride) (ordered : start ≤ stop) {lengths : List Nat}
    (sends : SendsNumbered [true] [true] start stride stop (sample 0 lengths)) :
    InStep start stride stop false lengths := by
  cases lengths with
  | nil => trivial
  | cons n rest =>
    by_contra late
    unfold SendsNumbered at sends
    rw [sample, sendConstrained_cons ordered] at sends
    obtain ⟨p, ran, same⟩ := bind_success sends
    have spoiled := parentLoop_spoiled positive ordered (s := outer [true] (sample 0 (n :: rest)))
      rfl rfl rfl (List.nil_append _).symm ⟨rfl, rfl⟩ (inner_bounded ..) (inner_between ..) nofun
      late ran
    apply spoiled
    change _ <+: encodeInstance 1 (expected [true] [true] start stride stop (sample 0 (n :: rest)))
    simp only [pure, Except.pure, Except.ok.injEq] at same
    rw [sample, ← same]
    split
    · exact List.prefix_append _ _
    · exact List.prefix_refl _

end

/-! ## The condition -/

/-- If row 0 is selected no instance is empty, and an instance with rows behind the
constraint is followed by one that ends before its start. -/
def ResetsInTime (start stride stop : Nat) (lengths : List Nat) : Prop :=
  (start = 0 → ∀ n ∈ lengths, 0 < n) ∧
    lengths.IsChain fun n next => n ≤ firstBeyond start stride stop ∨ next < start

theorem inStep_iff {start stride stop : Nat} (positive : 1 ≤ stride) (ordered : start ≤ stop)
    (stopped : Bool) (lengths : List Nat) :
    InStep start stride stop stopped lengths ↔
      (stopped = true → ∀ n ∈ lengths.head?, n < start) ∧
        ResetsInTime start stride stop lengths := by
  have beyond := lt_firstBeyond positive ordered
  unfold ResetsInTime
  induction lengths generalizing stopped with
  | nil => simp [InStep]
  | cons n rest ih =>
    have next := ih (!stopped && decide (firstBeyond start stride stop < n))
    apply (and_congr Iff.rfl next).trans
    rw [List.isChain_cons]
    cases stopped with
    | true =>
      simp only [if_true, Bool.not_true, Bool.false_and, Bool.false_eq_true, false_implies,
        true_and, true_implies, List.head?_cons, Option.mem_some_iff, forall_eq', List.mem_cons,
        forall_eq_or_imp]
      constructor
      · rintro ⟨few, positive_rest, chain⟩
        exact ⟨few, fun zero => by omega, fun _ _ => Or.inl (by omega), chain⟩
      · rintro ⟨few, positive_all, -, chain⟩
        exact ⟨few, fun zero => (positive_all zero).2, chain⟩
    | false =>
      simp only [Bool.false_eq_true, if_false, Bool.not_false, Bool.true_and, decide_eq_true_eq,
        false_implies, true_and, List.mem_cons, forall_eq_or_imp]
      constructor
      · rintro ⟨here, few, positive_rest, chain⟩
        refine ⟨fun zero => ⟨here zero, positive_rest zero⟩, ?_, chain⟩
        intro m member
        by_cases behind : firstBeyond start stride stop < n
        · exact Or.inr (few behind m member)
        · exact Or.inl (Nat.le_of_not_lt behind)
      · rintro ⟨positive_all, pairs, chain⟩
        refine ⟨fun zero => (positive_all zero).1, ?_, fun zero => (positive_all zero).2, chain⟩
        intro behind m member
        rcases pairs m member with within | few
        · omega
        · exact few

/-- The rows of the constraint are sent, whatever they hold, if and only if every
instance but the last leaves the inner Sequence where the next one can start, and all
rows can be numbered. -/
theorem sendsNumbered_iff (start stride stop : Nat) (lengths : List Nat)
    (ordered : start ≤ stop) (positive : 1 ≤ stride) :
    (∀ (V : Type) (mask child : List Bool) (rows : List (Row V)),
      (∀ r ∈ rows, r.values.length = mask.length ∧
        ∀ c ∈ r.children, c.values.length = child.length) →
      rows.map (fun r => r.children.length) = lengths →
      SendsNumbered mask child start stride stop rows) ↔
    ResetsInTime start stride stop lengths ∧ AllCountable start stride stop lengths := by
  have inStep := inStep_iff positive ordered false lengths
  simp only [Bool.false_eq_true, false_implies, true_and] at inStep
  rw [← inStep]
  constructor
  · intro sends
    have sample_sends := sends Nat _ _ (sample 0 lengths) (sample_fits 0 lengths)
      (sample_lengths 0 lengths)
    have steps := inStep_of_sends positive ordered sample_sends
    rw [← sample_lengths 0 lengths] at steps
    have numbered := (sendsNumbered_inStep positive ordered steps).mp sample_sends
    rw [sample_lengths] at steps numbered
    exact ⟨steps, numbered⟩
  · rintro ⟨steps, numbered⟩ V mask child rows _ shape
    rw [← shape] at steps numbered
    exact (sendsNumbered_inStep positive ordered steps).mpr numbered

theorem sendsNumbered_iff_first :
    (∀ (V : Type) (mask child : List Bool) (rows : List (Row V)),
      (∀ r ∈ rows, r.values.length = mask.length ∧
        ∀ c ∈ r.children, c.values.length = child.length) →
      rows.map (fun r => r.children.length) = [1, 1, 4] →
      SendsNumbered mask child 0 1 0 rows) ↔
    ResetsInTime 0 1 0 [1, 1, 4] ∧ AllCountable 0 1 0 [1, 1, 4] :=
  sendsNumbered_iff 0 1 0 [1, 1, 4] (by decide) (by decide)

/-- The first of three inner rows is asked for, of each of two outer rows. -/
theorem sendsNumbered_fails :
    ¬ SendsNumbered [true] [true] 0 1 0
      [.mk [1] [.mk [10] [], .mk [11] [], .mk [12] []],
        .mk [2] [.mk [20] [], .mk [21] [], .mk [22] []]] := by
  unfold SendsNumbered
  decide

end Libdap.Guarantees.SequenceRowConstraint
