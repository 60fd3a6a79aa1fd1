import Mathlib.Tactic
import Libdap.Source.Sequence

/-!
# What reading a row of a leaf Sequence does

A leaf holds the rows it has not read yet. `read_row` moves to the next row that
counts, or to the end of the instance, where `read` resets the row number; the
leaf loop hands on every row it stops at.
-/
namespace Libdap.Guarantees.SequenceRead
open Libdap.Source Libdap.Source.Sequence

variable {V σ : Type} {select : Selection V} {ceEval : Bool}
  {above : List (Sequence V)} {sink : σ}

/-- The row with `k` counted rows before it, and what follows it. -/
def findNth (counts : List V → Bool) : Nat → List (Row V) → Option (Row V × List (Row V))
  | _, [] => none
  | k, r :: rest =>
    if counts r.values then
      match k with
      | 0 => some (r, rest)
      | k + 1 => findNth counts k rest
    else findNth counts k rest

theorem findNth_length {counts : List V → Bool} {k : Nat} {rows rest : List (Row V)} {r : Row V}
    (found : findNth counts k rows = some (r, rest)) : rest.length < rows.length := by
  induction rows generalizing k with
  | nil => cases found
  | cons first rows ih =>
    unfold findNth at found
    split at found
    · cases k with
      | zero =>
        cases found
        exact Nat.lt_succ_self _
      | succ k => exact Nat.lt_succ_of_lt (ih found)
    · exact Nat.lt_succ_of_lt (ih found)

theorem findNth_suffix {counts : List V → Bool} {k : Nat} {rows rest : List (Row V)} {r : Row V}
    (found : findNth counts k rows = some (r, rest)) : rest <:+ rows := by
  induction rows generalizing k with
  | nil => cases found
  | cons first rows ih =>
    unfold findNth at found
    split at found
    · cases k with
      | zero =>
        cases found
        exact List.suffix_cons _ _
      | succ k => exact (ih found).trans (List.suffix_cons _ _)
    · exact (ih found).trans (List.suffix_cons _ _)

theorem findNth_zero_none {counts : List V → Bool} {rows : List (Row V)}
    (found : findNth counts 0 rows = none) : rows.filter (fun r => counts r.values) = [] := by
  induction rows with
  | nil => rfl
  | cons first rows ih =>
    unfold findNth at found
    split at found
    · cases found
    · next skipped => rw [List.filter_cons, if_neg skipped, ih found]

theorem findNth_zero_some {counts : List V → Bool} {rows rest : List (Row V)} {r : Row V}
    (found : findNth counts 0 rows = some (r, rest)) :
    rows.filter (fun r => counts r.values) = r :: rest.filter (fun r => counts r.values) := by
  induction rows with
  | nil => cases found
  | cons first rows ih =>
    unfold findNth at found
    split at found
    · next counted =>
        cases found
        rw [List.filter_cons, if_pos counted]
    · next skipped => rw [List.filter_cons, if_neg skipped, ih found]

/-- Whether `read_row` counts a row with these values, under the current rows of the
ancestors. -/
def counted (select : Selection V) (ceEval : Bool) (above : List (Sequence V))
    (values : List V) : Bool :=
  !ceEval || select (values :: above.map Sequence.fields)

theorem counted_def (values : List V) : counted select ceEval above values =
    (!ceEval || select (values :: above.map Sequence.fields)) := rfl

/-- A leaf at the end of its instance, as `read` leaves it. -/
def atEnd (s : Sequence V) (fields : List V) : Sequence V :=
  { s with current := 0, unsentData := false, rowNumber := -1, fields }

/-- A leaf that holds row `r` and has `rest` still to read. -/
def holding (s : Sequence V) (number : Int) (r : Row V) (rest : List (Row V)) : Sequence V :=
  { s with
    current := s.rows.length - rest.length, unsentData := true, rowNumber := number,
    fields := r.values }

theorem readTurn_row {s : Sequence V} {r : Row V} (unread : s.readP = false)
    (next : s.rows[s.current]? = some r) :
    (Place.mk above s [] sink).readTurn select ceEval =
      (false, Place.mk above
        { s with
          current := s.current + 1, unsentData := true, fields := r.values,
          rowNumber := if counted select ceEval above r.values then s.rowNumber + 1 else s.rowNumber }
        [] sink) := by
  obtain ⟨⟩ := s
  simp only at unread next
  subst unread
  simp only [Place.readTurn, Place.read, readInstance, Sequence.advance, next, Place.selected,
    Bool.false_eq_true, if_false, Option.isNone_some, Bool.not_false, Bool.true_and, counted]
  split
  · next counts => simp [counts, Place.setReadP]
  · next skipped => simp [skipped, Place.setReadP]

theorem readTurn_end {s : Sequence V} (unread : s.readP = false)
    (none_left : s.rows[s.current]? = none) :
    (Place.mk above s [] sink).readTurn select ceEval =
      (true, Place.mk above (atEnd s s.fields) [] sink) := by
  obtain ⟨⟩ := s
  simp only at unread none_left
  subst unread
  simp [Place.readTurn, Place.read, readInstance, Sequence.advance, none_left, Place.setReadP,
    atEnd]

/-- The values an exhausted leaf still shows: those of the last row it read. -/
def lastFields (fields : List V) (rows : List (Row V)) : List V :=
  match rows.getLast? with
  | none => fields
  | some r => r.values

theorem lastFields_cons (fields : List V) (r : Row V) (rest : List (Row V)) :
    lastFields fields (r :: rest) = lastFields r.values rest := by
  unfold lastFields
  cases rest with
  | nil => rfl
  | cons r' rest =>
    rw [List.getLast?_cons_cons, List.getLast?_cons]

theorem lastFields_findNth {counts : List V → Bool} {k : Nat} {rows rest : List (Row V)}
    {r : Row V} (fields : List V) (found : findNth counts k rows = some (r, rest)) :
    lastFields fields rows = lastFields r.values rest := by
  induction rows generalizing k fields with
  | nil => cases found
  | cons first rows ih =>
    rw [lastFields_cons]
    unfold findNth at found
    split at found
    · cases k with
      | zero =>
        cases found
        rfl
      | succ k => exact ih _ found
    · exact ih _ found

theorem holding_pending {s : Sequence V} {rest : List (Row V)} (number : Int) (r : Row V)
    (suffix : rest <:+ s.rows) :
    (holding s number r rest).rows.drop (holding s number r rest).current = rest :=
  (List.suffix_iff_eq_drop.mp suffix).symm

/-- The loop of `read_row`, for the row with `k` counted rows before it. -/
theorem readLoop_leaf {s : Sequence V} {pending : List (Row V)} (k fuel : Nat)
    (unread : s.readP = false) (left : s.rows.drop s.current = pending)
    (enough : pending.length + 2 ≤ fuel) :
    (Place.mk above s [] sink).readLoop select ceEval (s.rowNumber + k + 1) fuel false =
      match findNth (counted select ceEval above) k pending with
      | none => .ok (true, Place.mk above (atEnd s (lastFields s.fields pending)) [] sink)
      | some (r, rest) =>
        .ok (false, Place.mk above (holding s (s.rowNumber + k + 1) r rest) [] sink) := by
  induction pending generalizing s k fuel with
  | nil =>
    obtain ⟨fuel, rfl⟩ : ∃ n, fuel = n + 2 := ⟨fuel - 2, by simp at enough; omega⟩
    have none_left : s.rows[s.current]? = none := by
      rw [List.getElem?_eq_none_iff]
      exact List.drop_eq_nil_iff.mp left
    have before : s.rowNumber < s.rowNumber + k + 1 := by omega
    rw [Place.readLoop]
    simp only [Bool.not_false, Bool.true_and, before, decide_true, if_true,
      readTurn_end unread none_left]
    rw [Place.readLoop]
    simp [findNth, lastFields]
  | cons r pending ih =>
    obtain ⟨fuel, rfl⟩ : ∃ n, fuel = n + 1 := ⟨fuel - 1, by simp at enough; omega⟩
    have room : s.current < s.rows.length := by
      by_contra past
      rw [List.drop_eq_nil_of_le (by omega)] at left
      cases left
    rw [List.drop_eq_getElem_cons room, List.cons.injEq] at left
    obtain ⟨here, later⟩ := left
    have next : s.rows[s.current]? = some r := by rw [List.getElem?_eq_getElem room, here]
    have size : s.rows.length - pending.length = s.current + 1 := by
      have length := congrArg List.length later
      rw [List.length_drop] at length
      omega
    have before : s.rowNumber < s.rowNumber + k + 1 := by omega
    rw [Place.readLoop]
    simp only [Bool.not_false, Bool.true_and, before, decide_true, if_true,
      readTurn_row unread next]
    unfold findNth
    by_cases counts : counted select ceEval above r.values = true
    · simp only [counts, if_true]
      cases k with
      | zero =>
        obtain ⟨fuel, rfl⟩ : ∃ n, fuel = n + 1 := ⟨fuel - 1, by simp at enough; omega⟩
        rw [Place.readLoop]
        simp [holding, size]
      | succ k =>
        have target : s.rowNumber + ((k + 1 : Nat) : Int) + 1 = s.rowNumber + 1 + k + 1 := by
          push_cast
          ring
        rw [target]
        refine (ih (s := { s with
          current := s.current + 1, unsentData := true, fields := r.values,
          rowNumber := s.rowNumber + 1 }) k fuel unread later (by simp at enough; omega)).trans ?_
        rw [lastFields_cons]
        rfl
    · simp only [counts, if_false, Bool.false_eq_true]
      refine (ih (s := { s with
        current := s.current + 1, unsentData := true, fields := r.values }) k fuel unread later
        (by simp at enough; omega)).trans ?_
      rw [lastFields_cons]
      rfl

/-- What `read_row` answers, given the row it has found. -/
def rowResult (above : List (Sequence V)) (s : Sequence V) (sink : σ) (row : Int)
    (pending : List (Row V)) : Option (Row V × List (Row V)) → Bool × Place V σ
  | none => (false, Place.mk above { atEnd s (lastFields s.fields pending) with readP := true } []
      sink)
  | some (r, rest) => (true, Place.mk above { holding s row r rest with readP := true } [] sink)

theorem readRow_unread {s : Sequence V} {pending : List (Row V)} (k : Nat)
    (unread : s.readP = false) (left : s.rows.drop s.current = pending) :
    (Place.mk above s [] sink).readRow select ceEval (s.rowNumber + k + 1) =
      .ok (rowResult above s sink (s.rowNumber + k + 1) pending
        (findNth (counted select ceEval above) k pending)) := by
  have size := congrArg List.length left
  rw [List.length_drop] at size
  have loop : (Place.mk above s [] sink).readLoop select ceEval (s.rowNumber + k + 1)
      (s.rows.length + 3) false = _ := readLoop_leaf k _ unread left (by omega)
  unfold Place.readRow
  rw [if_neg (by simp only; omega), if_neg (by simp only; omega), loop]
  cases findNth (counted select ceEval above) k pending with
  | none => rfl
  | some found => rfl

/-- A leaf whose current row has been read already, by the read of its parent, counts
that row before it goes on. -/
theorem readRow_primed {s : Sequence V} {pending : List (Row V)} (k : Nat)
    (primed : s.readP = true) (left : s.rows.drop s.current = pending) :
    (Place.mk above s [] sink).readRow select ceEval (s.rowNumber + k + 1) =
      .ok (if counted select ceEval above s.fields then
          match k with
          | 0 => (true, Place.mk above { s with rowNumber := s.rowNumber + 1 } [] sink)
          | k + 1 => rowResult above s sink (s.rowNumber + (k + 1 : Nat) + 1) pending
              (findNth (counted select ceEval above) k pending)
        else rowResult above s sink (s.rowNumber + k + 1) pending
          (findNth (counted select ceEval above) k pending)) := by
  have size := congrArg List.length left
  rw [List.length_drop] at size
  have turn : (Place.mk above s [] sink).readTurn select ceEval =
      (false, Place.mk above
        { s with
          readP := false,
          rowNumber := if counted select ceEval above s.fields then s.rowNumber + 1
            else s.rowNumber } [] sink) := by
    simp only [Place.readTurn, primed, if_true, Bool.not_false, Bool.true_and, Place.selected,
      ← counted_def]
    by_cases counts : counted select ceEval above s.fields = true
    · rw [if_pos counts, if_pos counts]
      rfl
    · rw [if_neg counts, if_neg counts]
      rfl
  unfold Place.readRow
  rw [if_neg (by simp only; omega), if_neg (by simp only; omega)]
  have before : s.rowNumber < s.rowNumber + k + 1 := by omega
  rw [Place.readLoop]
  simp only [Bool.not_false, Bool.true_and, before, decide_true, if_true, turn]
  by_cases counts : counted select ceEval above s.fields = true
  · simp only [counts, if_true]
    cases k with
    | zero =>
      rw [Place.readLoop]
      obtain ⟨⟩ := s
      simp only at primed
      subst primed
      simp [Place.setReadP, pure, Except.pure, bind, Except.bind]
    | succ k =>
      have loop : (Place.mk above { s with readP := false, rowNumber := s.rowNumber + 1 } []
          sink).readLoop select ceEval (s.rowNumber + 1 + k + 1) (s.rows.length + 2) false = _ :=
        readLoop_leaf k (s.rows.length + 2) rfl left (by omega)
      have target : s.rowNumber + ((k + 1 : Nat) : Int) + 1 = s.rowNumber + 1 + k + 1 := by
        push_cast
        ring
      dsimp only
      rw [target, loop]
      cases findNth (counted select ceEval above) k pending with
      | none => rfl
      | some found => rfl
  · simp only [counts, if_false, Bool.false_eq_true]
    have loop : (Place.mk above { s with readP := false } [] sink).readLoop select ceEval
        (s.rowNumber + k + 1) (s.rows.length + 2) false = _ :=
      readLoop_leaf k (s.rows.length + 2) rfl left (by omega)
    rw [loop]
    cases findNth (counted select ceEval above) k pending with
    | none => rfl
    | some found => rfl

/-- A loop body that hands the projected values of a leaf's row to the sink and may
note in `wroteSoi` that it did. -/
structure Emits (emit : Place V σ → Except Failure (Place V σ)) (mark : Bool → Bool)
    (put : List V → σ → σ) : Prop where
  body : ∀ above s sink, emit (Place.mk above s [] sink) =
    .ok (Place.mk above { s with wroteSoi := mark s.wroteSoi } []
      (put (project s.fieldSendP s.fields) sink))
  again : ∀ b, mark (mark b) = mark b

section
variable {emit : Place V σ → Except Failure (Place V σ)} {mark : Bool → Bool}
  {put : List V → σ → σ}

theorem nextRow_small {i stride : Int} (small : i + stride < 2 ^ 31) :
    nextRow i stride = .ok (i + stride) := if_pos small

/-- A turn of the leaf loop asks for the next row first, which has to be an `int`. -/
theorem leafLoop_overflow {p : Place V σ} {i : Int} {fuel : Nat}
    (inside : p.self.isEndOfRows i = false) (large : ¬ i + p.self.rowStride < 2 ^ 31) :
    leafLoop select ceEval emit (fuel + 1) i true p = .error .undefinedBehaviour := by
  rw [leafLoop, if_pos (by simp [inside]), nextRow, if_neg large]
  rfl

/-- One turn of the leaf loop: the row is handed on, and the loop goes on where a row
is found behind it. -/
theorem leafLoop_turn (emits : Emits emit mark put) {s : Sequence V} {pending : List (Row V)}
    {k fuel : Nat} (stride : s.rowStride = k + 1) (left : s.rows.drop s.current = pending)
    (inside : s.isEndOfRows s.rowNumber = false) (small : s.rowNumber + k + 1 < 2 ^ 31) :
    leafLoop select ceEval emit (fuel + 2) s.rowNumber true (Place.mk above s [] sink) =
      match findNth (counted select ceEval above) k pending with
      | none =>
        .ok (Place.mk above
          { atEnd s (lastFields s.fields pending) with
            readP := true, wroteSoi := mark s.wroteSoi } []
          (put (project s.fieldSendP s.fields) sink))
      | some (r, rest) =>
        leafLoop select ceEval emit (fuel + 1) (s.rowNumber + k + 1) true
          (Place.mk above
            { holding s (s.rowNumber + k + 1) r rest with
              readP := true, wroteSoi := mark s.wroteSoi } []
            (put (project s.fieldSendP s.fields) sink)) := by
  have target : s.rowNumber + s.rowStride = s.rowNumber + k + 1 := by omega
  have read : (Place.mk above { s with readP := false, wroteSoi := mark s.wroteSoi } []
      (put (project s.fieldSendP s.fields) sink)).readRow select ceEval (s.rowNumber + k + 1) = _ :=
    readRow_unread (s := { s with readP := false, wroteSoi := mark s.wroteSoi }) k rfl left
  have next : ((Place.mk above { s with wroteSoi := mark s.wroteSoi } []
      (put (project s.fieldSendP s.fields) sink)).setReadP false).readRow select ceEval
        (s.rowNumber + k + 1) = _ := read
  have number : nextRow s.rowNumber s.rowStride = .ok (s.rowNumber + k + 1) :=
    target ▸ nextRow_small (target ▸ small)
  rw [leafLoop]
  simp only [inside, Bool.not_false, Bool.and_true, if_true, number, emits.body, bind,
    Except.bind, next]
  cases findNth (counted select ceEval above) k pending with
  | none => simp [rowResult, leafLoop, atEnd]
  | some found => rfl

/-- Without a row constraint the loop hands on every row that counts and ends at the
end of the instance, as long as the number behind the last of them is an `int`. -/
theorem leafLoop_all (emits : Emits emit mark put) {s : Sequence V} {pending : List (Row V)}
    {fuel : Nat} (stride : s.rowStride = 1) (ending : s.endingRowNumber = -1)
    (left : s.rows.drop s.current = pending) (enough : pending.length + 2 ≤ fuel)
    (small : s.rowNumber +
      (pending.filter fun r => counted select ceEval above r.values).length + 1 < 2 ^ 31) :
    leafLoop select ceEval emit fuel s.rowNumber true (Place.mk above s [] sink) =
      .ok (Place.mk above
        { atEnd s (lastFields s.fields pending) with
          readP := true, wroteSoi := mark s.wroteSoi } []
        ((s.fields :: (pending.filter fun r => counted select ceEval above r.values).map
          Row.values).foldl (fun sink values => put (project s.fieldSendP values) sink) sink)) := by
  induction size : pending.length using Nat.strongRecOn generalizing s pending fuel sink with
  | ind n ih =>
    obtain ⟨fuel, rfl⟩ : ∃ n, fuel = n + 2 := ⟨fuel - 2, by omega⟩
    have inside : s.isEndOfRows s.rowNumber = false := by simp [Sequence.isEndOfRows, ending]
    rw [leafLoop_turn (k := 0) emits (by simpa using stride) left inside (by omega)]
    cases found : findNth (counted select ceEval above) 0 pending with
    | none =>
      rw [findNth_zero_none found]
      rfl
    | some next =>
      obtain ⟨r, rest⟩ := next
      have shorter := findNth_length found
      have suffix : rest <:+ s.rows := by
        apply (findNth_suffix found).trans
        rw [← left]
        exact List.drop_suffix _ _
      rw [findNth_zero_some found, List.length_cons] at small
      refine (ih rest.length (by omega)
        (s := { holding s (s.rowNumber + (0 : Nat) + 1) r rest with
          readP := true, wroteSoi := mark s.wroteSoi })
        stride ending (holding_pending 0 r suffix) (by omega)
        (by simp only [holding]; omega) rfl).trans ?_
      rw [findNth_zero_some found, lastFields_findNth s.fields found]
      simp only [atEnd, holding, emits.again, List.map_cons, List.foldl_cons]

/-- With more rows that count it gets to a number that is not an `int`. -/
theorem leafLoop_large (emits : Emits emit mark put) {s : Sequence V} {pending : List (Row V)}
    {fuel : Nat} (stride : s.rowStride = 1) (ending : s.endingRowNumber = -1)
    (left : s.rows.drop s.current = pending) (enough : pending.length + 2 ≤ fuel)
    (large : 2 ^ 31 ≤ s.rowNumber +
      (pending.filter fun r => counted select ceEval above r.values).length + 1) :
    leafLoop select ceEval emit fuel s.rowNumber true (Place.mk above s [] sink) =
      .error .undefinedBehaviour := by
  induction size : pending.length using Nat.strongRecOn generalizing s pending fuel sink with
  | ind n ih =>
    obtain ⟨fuel, rfl⟩ : ∃ n, fuel = n + 2 := ⟨fuel - 2, by omega⟩
    have inside : s.isEndOfRows s.rowNumber = false := by simp [Sequence.isEndOfRows, ending]
    by_cases small : s.rowNumber + 1 < 2 ^ 31
    · rw [leafLoop_turn (k := 0) emits (by simpa using stride) left inside (by omega)]
      cases found : findNth (counted select ceEval above) 0 pending with
      | none =>
        rw [findNth_zero_none found, List.length_nil] at large
        omega
      | some next =>
        obtain ⟨r, rest⟩ := next
        have shorter := findNth_length found
        have suffix : rest <:+ s.rows := by
          apply (findNth_suffix found).trans
          rw [← left]
          exact List.drop_suffix _ _
        rw [findNth_zero_some found, List.length_cons] at large
        exact ih rest.length (by omega)
          (s := { holding s (s.rowNumber + (0 : Nat) + 1) r rest with
            readP := true, wroteSoi := mark s.wroteSoi })
          stride ending (holding_pending 0 r suffix) (by omega)
          (by simp only [holding]; omega) rfl
    · exact leafLoop_overflow inside (by rw [stride]; exact small)

end

end Libdap.Guarantees.SequenceRead
