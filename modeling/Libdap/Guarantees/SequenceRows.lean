import Libdap.Guarantees.SequenceSerialize
import Libdap.Library.Numbered
import Libdap.Library.Outcome
import Libdap.Source.SequenceRows

/-!
# The rows a one-level Sequence sends

Rows are numbered after the selection has dropped some of them, and of the rows so
numbered those of the row constraint are sent. This holds as long as the number of the
row behind the last one sent is still an `int`.
-/
namespace Libdap.Guarantees.SequenceRows
open Libdap.Library Libdap.Library.Numbered
open Libdap.Source Libdap.Source.SequenceRows
open Libdap.Source.Sequence
open SequenceRead SequenceSerialize

variable {V : Type}

/-! ## The row constraint as a progression -/

def first : Option RowConstraint → Nat
  | none => 0
  | some c => c.start

def step : Option RowConstraint → Nat
  | none => 1
  | some c => c.stride

def lastRow : Option RowConstraint → Int
  | none => -1
  | some c => c.stop

/-- The numbers of the rows that are asked for. -/
def wants : Option RowConstraint → Nat → Bool
  | none => fun _ => true
  | some c => strided c.start c.stride c.stop

def Inside : Option RowConstraint → Nat → Prop
  | none, _ => True
  | some c, n => n ≤ c.stop

/-- The numbers the loop gets to. -/
def Reached : Option RowConstraint → Nat → Prop
  | none, _ => True
  | some c, n => ∃ m, n = c.start + m * c.stride

variable {constraint : Option RowConstraint}

theorem step_positive (constraint : Option RowConstraint) : 1 ≤ step constraint := by
  cases constraint with
  | none => exact Nat.le_refl 1
  | some c => exact c.positive

theorem first_reached (constraint : Option RowConstraint) :
    Reached constraint (first constraint) := by
  cases constraint with
  | none => trivial
  | some c => exact ⟨0, by simp [first]⟩

theorem Reached.next {n : Nat} (reached : Reached constraint n) :
    Reached constraint (n + step constraint) := by
  cases constraint with
  | none => trivial
  | some c =>
    rcases reached with ⟨m, rfl⟩
    exact ⟨m + 1, by simp only [step]; ring⟩

theorem wants_of_inside {n : Nat} (reached : Reached constraint n) (inside : Inside constraint n) :
    wants constraint n = true := by
  cases constraint with
  | none => rfl
  | some c =>
    rcases reached with ⟨m, rfl⟩
    simpa [wants, strided, Inside] using inside

theorem wants_next {n : Nat} (reached : Reached constraint n) (inside : Inside constraint n)
    {α : Type} (x : α) (xs : List α) :
    numbered (wants constraint) n (x :: xs) =
      x :: numbered (wants constraint) (n + step constraint) (xs.drop (step constraint - 1)) := by
  cases constraint with
  | none => simp [numbered, wants, step]
  | some c =>
    rcases reached with ⟨m, rfl⟩
    have next := strided_next c.positive inside x xs
    rw [Nat.succ_mul, ← Nat.add_assoc] at next
    exact next

theorem wants_beyond {n : Nat} (beyond : ¬ Inside constraint n) {m : Nat} (later : n ≤ m) :
    wants constraint m = false := by
  cases constraint with
  | none => exact absurd trivial beyond
  | some c =>
    simp only [Inside] at beyond
    simp only [wants, strided, decide_eq_false_iff_not]
    omega

theorem wants_before {n : Nat} (before : n < first constraint) : wants constraint n = false := by
  cases constraint with
  | none => exact absurd before (Nat.not_lt_zero n)
  | some c =>
    simp only [first] at before
    simp only [wants, strided, decide_eq_false_iff_not]
    omega

/-- Between two numbers of the progression nothing is wanted. -/
theorem wants_between {n m : Nat} (reached : Reached constraint n) (above : n < m)
    (below : m < n + step constraint) : wants constraint m = false := by
  cases constraint with
  | none =>
    simp only [step] at below
    omega
  | some c =>
    rcases reached with ⟨k, rfl⟩
    simp only [step] at below
    simp only [wants, strided, decide_eq_false_iff_not]
    rintro ⟨-, -, d, multiple⟩
    have low : k * c.stride < d * c.stride := by rw [Nat.mul_comm d]; omega
    have high : d * c.stride < (k + 1) * c.stride := by
      rw [Nat.succ_mul, Nat.mul_comm d]
      omega
    have := Nat.lt_of_mul_lt_mul_right low
    have := Nat.lt_of_mul_lt_mul_right high
    omega

/-! ## The rows found and the rows that count -/

variable {counts : List V → Bool}

theorem findNth_none {k : Nat} {rows : List (Row V)} (found : findNth counts k rows = none) :
    (rows.filter fun r => counts r.values).length ≤ k := by
  induction rows generalizing k with
  | nil => exact Nat.zero_le k
  | cons r rows ih =>
    unfold findNth at found
    split at found
    · next counted =>
        rw [List.filter_cons, if_pos counted, List.length_cons]
        cases k with
        | zero => cases found
        | succ k => exact Nat.succ_le_succ (ih found)
    · next skipped =>
        rw [List.filter_cons, if_neg skipped]
        exact ih found

theorem findNth_some {k : Nat} {rows rest : List (Row V)} {r : Row V}
    (found : findNth counts k rows = some (r, rest)) :
    (rows.filter fun r => counts r.values).drop k =
      r :: rest.filter fun r => counts r.values := by
  induction rows generalizing k with
  | nil => cases found
  | cons first rows ih =>
    unfold findNth at found
    split at found
    · next counted =>
        rw [List.filter_cons, if_pos counted]
        cases k with
        | zero =>
          cases found
          rfl
        | succ k => exact ih found
    · next skipped =>
        rw [List.filter_cons, if_neg skipped]
        exact ih found

/-! ## The loop -/

/-- Every row asked for of the `count` rows from number `n` on has a number after which
the next one is still an `int`. -/
def Countable (constraint : Option RowConstraint) (n count : Nat) : Prop :=
  ∀ m, n ≤ m → m < n + count → wants constraint m = true → m + step constraint < 2 ^ 31

theorem countable_next {n count : Nat} (reached : Reached constraint n)
    (inside : Inside constraint n) :
    Countable constraint n (count + 1) ↔
      n + step constraint < 2 ^ 31 ∧
        Countable constraint (n + step constraint) (count - (step constraint - 1)) := by
  have positive := step_positive constraint
  constructor
  · intro countable
    refine ⟨countable n (Nat.le_refl n) (by omega) (wants_of_inside reached inside), ?_⟩
    exact fun m above below wanted => countable m (by omega) (by omega) wanted
  · rintro ⟨small, later⟩ m above below wanted
    by_cases here : m = n
    · rw [here]
      exact small
    · by_cases between : m < n + step constraint
      · rw [wants_between reached (by omega) between] at wanted
        cases wanted
      · exact later m (by omega) (by omega) wanted

theorem countable_beyond {n : Nat} (beyond : ¬ Inside constraint n) (count : Nat) :
    Countable constraint n count := by
  intro m above _ wanted
  rw [wants_beyond beyond above] at wanted
  cases wanted

/-- The constraint has arrived in the Sequence. -/
structure Constrained (constraint : Option RowConstraint) (s : Sequence V) : Prop where
  starting : s.firstRow = first constraint
  stride : s.rowStride = step constraint
  ending : s.endingRowNumber = lastRow constraint

variable {s : Sequence V} {select : Selection V}
  {call : Place V (Stream V) → Except Failure (Place V (Stream V))}

theorem Constrained.isEndOfRows (constrained : Constrained constraint s) (n : Nat) :
    s.isEndOfRows n = true ↔ ¬ Inside constraint n := by
  cases constraint with
  | none => simp [Sequence.isEndOfRows, constrained.ending, lastRow, Inside]
  | some c =>
    have stop : ((c.stop : Nat) : Int) ≠ -1 := by omega
    simp [Sequence.isEndOfRows, constrained.ending, lastRow, Inside, stop]

/-- The projected values of a row behind its marker. -/
def sentRow (s : Sequence V) (out : Stream V) : Stream V :=
  s.putFields (writeStartOfInstance out)

theorem sentRow_eq (s : Sequence V) (out : Stream V) :
    sentRow s out = out ++ encodeRows 0 [.mk (project s.fieldSendP s.fields) []] := by
  simp [sentRow, Sequence.putFields, writeStartOfInstance, encodeRows, Row.values]

theorem leafLoop_turn (constrained : Constrained constraint s) {n fuel : Nat} (out : Stream V)
    (number : s.rowNumber = n) (inside : Inside constraint n) :
    leafLoop select true (sendRow call) (fuel + 1) n true (Place.mk [] s [] out) =
      if n + step constraint < 2 ^ 31 then
        let (status, p) := rowResult [] { s with wroteSoi := true, readP := false } (sentRow s out)
          ((n + step constraint : Nat) : Int) (s.rows.drop s.current)
          (findNth (counted select true []) (step constraint - 1) (s.rows.drop s.current))
        leafLoop select true (sendRow call) fuel ((n + step constraint : Nat) : Int) status p
      else .error .undefinedBehaviour := by
  have going : s.isEndOfRows n = false := by
    rw [Bool.eq_false_iff]
    exact fun beyond => (constrained.isEndOfRows n).mp beyond inside
  have body : sendRow call (Place.mk [] s [] out) =
      .ok (Place.mk [] { s with wroteSoi := true } [] (sentRow s out)) := rfl
  have sum : ((n : Nat) : Int) + s.rowStride = ((n + step constraint : Nat) : Int) := by
    rw [constrained.stride]
    push_cast
    rfl
  rw [leafLoop]
  simp only [going, Bool.not_false, Bool.and_true, if_true, nextRow, sum]
  by_cases small : n + step constraint < 2 ^ 31
  · have int : ((n + step constraint : Nat) : Int) < 2 ^ 31 := by exact_mod_cast small
    rw [if_pos int, if_pos small]
    have positive := step_positive constraint
    have target : ((n + step constraint : Nat) : Int) =
        s.rowNumber + ((step constraint - 1 : Nat) : Int) + 1 := by
      rw [number]
      omega
    have read : (Place.mk [] { s with wroteSoi := true, readP := false } [] (sentRow s out)).readRow
        select true (s.rowNumber + ((step constraint - 1 : Nat) : Int) + 1) = _ :=
      readRow_unread (s := { s with wroteSoi := true, readP := false }) (step constraint - 1) rfl
        rfl
    rw [← target] at read
    have cleared : (Place.mk [] { s with wroteSoi := true } [] (sentRow s out)).setReadP false =
        Place.mk [] { s with wroteSoi := true, readP := false } [] (sentRow s out) := rfl
    simp only [bind, Except.bind, body, cleared, read]
  · have int : ¬ ((n + step constraint : Nat) : Int) < 2 ^ 31 := by exact_mod_cast small
    rw [if_neg int, if_neg small]
    rfl

/-- The values of the rows that satisfy the selection, behind the row a Sequence holds. -/
def coming (select : Selection V) (s : Sequence V) : List (List V) :=
  ((s.rows.drop s.current).filter fun r => counted select true [] r.values).map Row.values

theorem coming_none {k : Nat}
    (found : findNth (counted select true []) k (s.rows.drop s.current) = none) :
    (coming select s).length ≤ k := by
  rw [coming, List.length_map]
  exact findNth_none found

theorem coming_some {k : Nat} {r : Row V} {rest : List (Row V)} (number : Int)
    (found : findNth (counted select true []) k (s.rows.drop s.current) = some (r, rest)) :
    (coming select s).drop k = r.values :: coming select (holding s number r rest) := by
  have suffix := (findNth_suffix found).trans (List.drop_suffix s.current s.rows)
  unfold coming
  rw [holding_pending number r suffix, ← List.map_drop, findNth_some found, List.map_cons]

/-- The loop sends the rows asked for from the one it holds on, or comes to a number
that is not an `int`. -/
theorem leafLoop_sends (constrained : Constrained constraint s) {n fuel : Nat} (out : Stream V)
    (number : s.rowNumber = n) (reached : Reached constraint n)
    (enough : (s.rows.drop s.current).length + 2 ≤ fuel) :
    (Countable constraint n ((coming select s).length + 1) →
      ∃ s', leafLoop select true (sendRow call) fuel n true (Place.mk [] s [] out) =
          .ok (Place.mk [] s' [] (out ++ encodeRows 0
            ((numbered (wants constraint) n (s.fields :: coming select s)).map
              fun v => .mk (project s.fieldSendP v) []))) ∧
        s'.topMost = s.topMost) ∧
    (¬ Countable constraint n ((coming select s).length + 1) →
      leafLoop select true (sendRow call) fuel n true (Place.mk [] s [] out) = .error .undefinedBehaviour) := by
  induction size : (s.rows.drop s.current).length using Nat.strongRecOn
    generalizing s n fuel out with
  | ind left ih =>
    obtain ⟨fuel, rfl⟩ : ∃ k, fuel = k + 2 := ⟨fuel - 2, by omega⟩
    by_cases inside : Inside constraint n
    · rw [leafLoop_turn constrained out number inside, countable_next reached inside,
        wants_next reached inside]
      by_cases small : n + step constraint < 2 ^ 31
      · rw [if_pos small]
        simp only [small, true_and]
        have positive := step_positive constraint
        cases found : findNth (counted select true []) (step constraint - 1)
            (s.rows.drop s.current) with
        | none =>
          have few := coming_none found
          have ended : Countable constraint (n + step constraint)
              ((coming select s).length - (step constraint - 1)) := by
            intro m above below _
            omega
          let done : Sequence V :=
            { atEnd s (lastFields s.fields (s.rows.drop s.current)) with
              wroteSoi := true, readP := true }
          rw [List.drop_eq_nil_of_le few]
          refine ⟨fun _ => ⟨done, ?_, rfl⟩, fun overflow => absurd ended overflow⟩
          simp [rowResult, leafLoop, sentRow_eq, encodeRows, numbered, Row.values, done, atEnd]
        | some next =>
          rcases next with ⟨r, rest⟩
          have behind := coming_some ((n + step constraint : Nat) : Int) found
          have suffix := (findNth_suffix found).trans (List.drop_suffix s.current s.rows)
          have count := congrArg List.length behind
          rw [List.length_drop, List.length_cons] at count
          let held : Sequence V :=
            { holding s ((n + step constraint : Nat) : Int) r rest with
              wroteSoi := true, readP := true }
          have pending : held.rows.drop held.current = rest :=
            holding_pending ((n + step constraint : Nat) : Int) r suffix
          have shorter : (held.rows.drop held.current).length < left := by
            rw [pending, ← size]
            exact findNth_length found
          have same : coming select held =
              coming select (holding s ((n + step constraint : Nat) : Int) r rest) := rfl
          have constrained' : Constrained constraint held :=
            ⟨constrained.starting, constrained.stride, constrained.ending⟩
          have enough' : (held.rows.drop held.current).length + 2 ≤ fuel + 1 := by omega
          have later := ih _ shorter constrained' (sentRow s out) rfl reached.next enough' rfl
          rw [count, ← same, behind, ← same]
          refine ⟨fun countable => ?_, later.2⟩
          rcases later.1 countable with ⟨s', sent, top⟩
          refine ⟨s', sent.trans ?_, top⟩
          rw [sentRow_eq]
          simp [encodeRows, Row.values, held, holding]
      · rw [if_neg small]
        exact ⟨fun countable => absurd countable.1 small, fun _ => rfl⟩
    · constructor
      · intro _
        refine ⟨s, ?_, rfl⟩
        have stopped := (constrained.isEndOfRows n).mpr inside
        rw [leafLoop, if_neg (by simp [stopped]),
          numbered_none fun m later => wants_beyond inside later]
        simp [encodeRows]
      · exact fun overflow => absurd (countable_beyond inside _) overflow

/-! ## The whole Sequence -/

/-- There are no ancestors to send first. -/
theorem partTwo_root (s : Sequence V) (below : List (Sequence V)) (out : Stream V) :
    (Place.mk [] s below out).partTwo = Place.mk [] s below out := rfl

/-- The projected rows that are asked for, of those that satisfy the selection. -/
def asked (select : Selection V) (mask : List Bool) (rows : List (Row V))
    (constraint : Option RowConstraint) : List (Row V) :=
  (numbered (wants constraint) 0 ((rows.filter fun r => select [r.values]).map Row.values)).map
    fun v => .mk (project mask v) []

/-- A marker and the values for each row asked for, and the end marker. -/
def SendsAsked (select : Selection V) (mask : List Bool) (rows : List (Row V))
    (constraint : Option RowConstraint) : Prop :=
  sendFlat select mask rows constraint =
    .ok (encodeInstance 0 (asked select mask rows constraint))

theorem sendFlat_constrained (select : Selection V) (mask : List Bool) (rows : List (Row V))
    (constraint : Option RowConstraint) :
    ∃ s : Sequence V, Constrained constraint s ∧ s.rowNumber = -1 ∧ s.readP = false ∧
      s.topMost = true ∧ s.fieldSendP = mask ∧ s.rows = rows ∧ s.current = 0 ∧
      sendFlat select mask rows constraint =
        (do
          let p ← serializeLeaf select true (serialize select 0 true) (Place.mk [] s [] [])
          pure p.sink) := by
  cases constraint with
  | none =>
    exact ⟨{ make mask rows with leafSequence := true, topMost := true }, ⟨rfl, rfl, rfl⟩, rfl, rfl,
      rfl, rfl, rfl, rfl, rfl⟩
  | some c =>
    have ordered : ¬ ((c.stop : Nat) : Int) < c.start := by
      have := c.ordered
      omega
    have constrained : ({ make mask rows with leafSequence := true, topMost := true } :
        Sequence V).setRowNumberConstraint c.start c.stop c.stride =
          .ok { make mask rows with
            leafSequence := true, topMost := true, startingRowNumber := c.start,
            rowStride := c.stride, endingRowNumber := c.stop } := by
      unfold Sequence.setRowNumberConstraint
      rw [if_neg ordered]
    have given : ((c.start : Nat) : Int) ≠ -1 := by omega
    refine ⟨{ make mask rows with
      leafSequence := true, topMost := true, startingRowNumber := c.start,
      rowStride := c.stride, endingRowNumber := c.stop }, ⟨if_pos given, rfl, rfl⟩, rfl, rfl, rfl,
      rfl, rfl, rfl, ?_⟩
    unfold sendFlat
    simp only [constrained]
    rfl

theorem numbered_first {α : Type} (xs : List α) :
    numbered (wants constraint) 0 xs =
      numbered (wants constraint) (first constraint) (xs.drop (first constraint)) := by
  have skipped : ∀ i, 0 ≤ i → i < 0 + first constraint → wants constraint i = false :=
    fun i _ before => wants_before (by omega)
  rw [numbered_drop (first constraint) skipped xs, Nat.zero_add]

theorem asked_countable (count : Nat) :
    (∀ m < count, wants constraint m = true → m + step constraint < 2 ^ 31) ↔
      Countable constraint (first constraint) (count - first constraint) := by
  constructor
  · exact fun small m above below wanted => small m (by omega) wanted
  · intro countable m below wanted
    by_cases before : m < first constraint
    · rw [wants_before before] at wanted
      cases wanted
    · exact countable m (by omega) (by omega) wanted

/-- The rows asked for are sent exactly when behind each of them comes a number that is
an `int`. -/
theorem sendsAsked_iff (select : Selection V) (mask : List Bool) (rows : List (Row V))
    (constraint : Option RowConstraint) :
    SendsAsked select mask rows constraint ↔
      ∀ m < (rows.filter fun r => select [r.values]).length,
        wants constraint m = true → m + step constraint < 2 ^ 31 := by
  rcases sendFlat_constrained select mask rows constraint with
    ⟨s, constrained, number, unread, top, mask', rows', current, sending⟩
  have target : s.rowNumber + (first constraint : Int) + 1 = first constraint := by
    rw [number]
    omega
  have pending : s.rows.drop s.current = rows := by
    rw [rows', current, List.drop_zero]
  have read : (Place.mk [] s [] ([] : Stream V)).readRow select true
      (s.rowNumber + (first constraint : Int) + 1) = _ :=
    readRow_unread (first constraint) unread pending
  rw [target] at read
  rw [SendsAsked, sending, asked, numbered_first, asked_countable]
  cases found : findNth (counted select true []) (first constraint) rows with
  | none =>
    have few := findNth_none found
    change (rows.filter fun r => select [r.values]).length ≤ first constraint at few
    have nothing : Countable constraint (first constraint)
        ((rows.filter fun r => select [r.values]).length - first constraint) := by
      intro m above below _
      omega
    rw [List.drop_eq_nil_of_le (by rwa [List.length_map])]
    refine iff_of_true ?_ nothing
    unfold serializeLeaf
    simp only [constrained.starting, read, found]
    simp [bind, Except.bind, pure, Except.pure, rowResult, leafLoop, Sequence.turns, atEnd, top,
      numbered, encodeInstance, encodeRows, writeEndOfSequence]
  | some next =>
    rcases next with ⟨r, rest⟩
    have behind := findNth_some found
    change (rows.filter fun r => select [r.values]).drop _ = _ at behind
    have count := congrArg List.length behind
    rw [List.length_drop, List.length_cons] at count
    let held : Sequence V :=
      { holding s (first constraint : Int) r rest with readP := true, wroteSoi := false }
    have left : held.rows.drop held.current = rest := by
      apply holding_pending (first constraint : Int) r
      rw [rows']
      exact findNth_suffix found
    have values : (rest.filter fun r => counted select true [] r.values).map Row.values =
        coming select held := by rw [coming, left]
    have enough : (held.rows.drop held.current).length + 2 ≤ held.turns := by
      rw [left]
      change rest.length + 2 ≤ held.rows.length + 3
      have shorter := findNth_length found
      have size : held.rows.length = rows.length := congrArg List.length rows'
      omega
    have constrained' : Constrained constraint held :=
      ⟨constrained.starting, constrained.stride, constrained.ending⟩
    let send := sendRow (serialize select 0 true)
    have sends : (_ → ∃ s', leafLoop select true send held.turns _ _ _ = _ ∧ _) ∧ _ :=
      leafLoop_sends constrained' [] rfl (first_reached constraint) enough
    have more : (coming select held).length + 1 =
        (rows.filter fun r => select [r.values]).length - first constraint := by
      rw [count, ← values, List.length_map]
    rw [more] at sends
    rw [← List.map_drop, behind, List.map_cons, values]
    have whole : serializeLeaf select true (serialize select 0 true) (Place.mk [] s [] []) =
        (leafLoop select true send held.turns (first constraint) true (Place.mk [] held [] []) >>=
          fun p => if p.self.wroteSoi || p.self.topMost then
            pure { p with sink := writeEndOfSequence p.sink }
          else pure p) := by
      unfold serializeLeaf
      simp only [constrained.starting, read, found, rowResult, bind, Except.bind, partTwo_root,
        ite_self]
      rfl
    rw [whole]
    constructor
    · intro sent
      by_contra overflow
      rw [sends.2 overflow] at sent
      cases sent
    · intro countable
      rcases sends.1 countable with ⟨s', sent, top'⟩
      have top'' : s'.topMost = true := top'.trans top
      have shape : held.fieldSendP = mask := mask'
      rw [sent, shape]
      simp only [bind, Except.bind, pure, Except.pure, top'', Bool.or_true, if_true,
        List.nil_append]
      rfl

/-- `[1:2147483647:2147483647]`, of which only row 1 is asked for. -/
def farStride : RowConstraint where
  start := 1
  stop := 2 ^ 31 - 1
  stride := 2 ^ 31 - 1
  ordered := by decide
  positive := by decide
  stop_int := by decide
  stride_int := by decide

/-- Row 1 is sent, and the number of the row to look for next is not an `int`. -/
theorem sendsAsked_fails :
    ¬ SendsAsked (fun _ => true) [true] [.mk [10] [], .mk [20] [], .mk [30] []]
      (some farStride) := by
  have sent : sendFlat (fun _ => true) [true] [.mk [10] [], .mk [20] [], .mk [30] []]
      (some farStride) = .error .undefinedBehaviour := by rfl
  rw [SendsAsked, sent]
  exact nofun

example : sendFlat (fun values => values != [[20]]) [true, false]
    [.mk [10, 1] [], .mk [20] [], .mk [30, 2] [], .mk [40, 3] []]
    (some ⟨0, 2, 2, by decide, by decide, by decide, by decide⟩) =
      .ok [.marker 0x5A, .value 10, .marker 0x5A, .value 40, .marker 0xA5] := by rfl

end Libdap.Guarantees.SequenceRows
