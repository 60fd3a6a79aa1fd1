import Libdap.Guarantees.SequenceSerialize
import Libdap.Library.Numbered

/-!
# A leaf with a row number constraint

What such a leaf sends of the rows it has coming, and where it stops: at the end of
its instance, with its counters reset, or at the first row number behind the
constraint, with its counters as they are. Behind a row it sends it has to be able to
number the next one.
-/
namespace Libdap.Guarantees.SequenceRowNumbers
open Libdap.Library.Numbered
open Libdap.Source Libdap.Source.Sequence
open SequenceWalk SequenceSerialize

variable {V σ : Type}

/-- No selection: every row counts. -/
def everything : Selection V := fun _ => true

theorem findNth_every (above : List (Sequence V)) (k : Nat) (rows : List (Row V)) :
    SequenceRead.findNth (SequenceRead.counted everything true above) k rows =
      match rows.drop k with
      | [] => none
      | r :: rest => some (r, rest) := by
  have all : ∀ values, SequenceRead.counted everything true above values = true := fun _ => rfl
  induction rows generalizing k with
  | nil => simp [SequenceRead.findNth]
  | cons r rows ih =>
    cases k with
    | zero => simp [SequenceRead.findNth, all]
    | succ k => simp [SequenceRead.findNth, all, ih]

/-- A projected leaf with the row numbers from start to stop as its constraint. -/
structure Bounded (mask : List Bool) (start stride stop : Nat) (c : Sequence V) : Prop where
  mask : c.fieldSendP = mask
  leaf : c.leafSequence = true
  top : c.topMost = false
  sendP : c.sendP = true
  starting : c.startingRowNumber = start
  stride : c.rowStride = stride
  ending : c.endingRowNumber = stop

/-- The values a leaf holds and those behind them. -/
def upcoming (c : Sequence V) : List (List V) :=
  c.fields :: (c.rows.drop c.current).map Row.values

/-- Behind each row of the constraint among `count` rows from number `n` on comes a
number that is an `int`. -/
def Countable (start stride stop n count : Nat) : Prop :=
  ∀ k, n ≤ start + k * stride → start + k * stride ≤ stop → start + k * stride < n + count →
    start + (k + 1) * stride < 2 ^ 31

theorem countable_next {start stride stop m count : Nat} (positive : 1 ≤ stride)
    (inside : start + m * stride ≤ stop) (some_left : 0 < count) :
    Countable start stride stop (start + m * stride) count ↔
      start + (m + 1) * stride < 2 ^ 31 ∧
        Countable start stride stop (start + (m + 1) * stride) (count - stride) := by
  have step : start + (m + 1) * stride = start + m * stride + stride := by ring
  constructor
  · intro countable
    refine ⟨countable m (Nat.le_refl _) inside (by omega), ?_⟩
    exact fun k above below bound => countable k (by omega) below (by omega)
  · rintro ⟨small, later⟩ k above below bound
    have reached : m ≤ k :=
      Nat.le_of_mul_le_mul_right (Nat.le_of_add_le_add_left above) positive
    rcases Nat.eq_or_lt_of_le reached with rfl | further
    · exact small
    · have next : (m + 1) * stride ≤ k * stride := Nat.mul_le_mul_right stride further
      exact later k (by omega) below (by omega)

theorem countable_beyond {start stride stop n : Nat} (beyond : stop < n) (count : Nat) :
    Countable start stride stop n count := fun _ _ _ _ => by omega

theorem countable_start {start stride stop count : Nat} :
    Countable start stride stop 0 count ↔
      Countable start stride stop start (count - start) := by
  constructor
  · exact fun countable k _ below bound => countable k (by omega) below (by omega)
  · exact fun countable k _ below bound => countable k (by omega) below (by omega)

theorem countable_short {start stride stop count : Nat} (short : count ≤ start) :
    Countable start stride stop 0 count := fun _ _ _ _ => by omega

/-- A leaf that has read to the end of its instance. -/
def Idle (c : Sequence V) : Prop := c.rowNumber = -1 ∧ c.current = 0

/-- A leaf that has been left at row `number`, `moved` rows further on. -/
def StoppedAt (number : Nat) (c : Sequence V) (moved : Nat) (c' : Sequence V) : Prop :=
  c'.rowNumber = number ∧ c'.current = c.current + moved ∧
    (upcoming c)[moved]? = some c'.fields

section
variable {mask : List Bool} {start stride stop : Nat} {c : Sequence V}
  {above : List (Sequence V)}

theorem Bounded.inside (bounded : Bounded mask start stride stop c) {n : Nat} :
    c.isEndOfRows n = decide (stop < n) := by
  have set : c.endingRowNumber ≠ -1 := by
    rw [bounded.ending]
    omega
  rw [Sequence.isEndOfRows, if_neg set, bounded.ending]
  simp

theorem upcoming_pos (c : Sequence V) : 0 < (upcoming c).length := by simp [upcoming]

theorem upcoming_length (room : c.current ≤ c.rows.length) :
    (upcoming c).length + c.current = c.rows.length + 1 := by
  simp [upcoming]
  omega

/-- `moved` rows on, a leaf that holds the row found there has the rest coming. -/
theorem upcoming_holding (number : Int) {r : Row V} {rest : List (Row V)} {k : Nat}
    (found : (c.rows.drop c.current).drop k = r :: rest) :
    upcoming (SequenceRead.holding c number r rest) = (upcoming c).drop (k + 1) ∧
      (SequenceRead.holding c number r rest).current = c.current + (k + 1) ∧
      (SequenceRead.holding c number r rest).current ≤ c.rows.length := by
  have size := congrArg List.length found
  simp only [List.length_drop, List.length_cons] at size
  have moved : (SequenceRead.holding c number r rest).current = c.current + (k + 1) := by
    simp only [SequenceRead.holding]
    omega
  have behind : c.rows.drop (c.current + (k + 1)) = rest := by
    have tail := congrArg List.tail found
    rw [List.tail_drop, List.drop_drop] at tail
    exact tail
  refine ⟨?_, moved, by omega⟩
  unfold upcoming
  rw [moved]
  change r.values :: (c.rows.drop (c.current + (k + 1))).map Row.values = _
  rw [behind, List.drop_succ_cons, ← List.map_drop, found]
  rfl

/-- The first row of the constraint, for a leaf that holds row 0 unread. -/
theorem readRow_start (above : List (Sequence V)) (sink : σ)
    (bounded : Bounded mask start stride stop c) (primed : c.readP = true) (number : c.rowNumber = -1) (room : c.current ≤ c.rows.length) :
    ∃ c₁, Bounded mask start stride stop c₁ ∧
      ((upcoming c).length ≤ start ∧ Idle c₁ ∧
          (Place.mk above c [] sink).readRow everything true start =
            .ok (false, Place.mk above c₁ [] sink) ∨
        start < (upcoming c).length ∧ c₁.rowNumber = start ∧
          upcoming c₁ = (upcoming c).drop start ∧ c₁.current = c.current + start ∧
          c₁.current ≤ c₁.rows.length ∧ c₁.rows = c.rows ∧
          (Place.mk above c [] sink).readRow everything true start =
            .ok (true, Place.mk above c₁ [] sink)) := by
  have counts : SequenceRead.counted everything true above c.fields = true := rfl
  have row : c.rowNumber + start + 1 = start := by rw [number]; omega
  have read : (Place.mk above c [] sink).readRow everything true (c.rowNumber + start + 1) = _ :=
    SequenceRead.readRow_primed start primed rfl
  rw [if_pos counts, row] at read
  rw [read]
  have length := upcoming_length room
  cases start with
  | zero =>
    refine ⟨{ c with rowNumber := c.rowNumber + 1 }, ⟨bounded.mask, bounded.leaf, bounded.top,
      bounded.sendP, bounded.starting, bounded.stride, bounded.ending⟩,
      Or.inr ⟨by omega, ?_, rfl, rfl, room, rfl, rfl⟩⟩
    change c.rowNumber + 1 = _
    rw [number]
    rfl
  | succ k =>
    dsimp only
    rw [findNth_every, row]
    cases found : (c.rows.drop c.current).drop k with
    | nil =>
      have short := List.drop_eq_nil_iff.mp found
      rw [List.length_drop] at short
      let ended : Sequence V :=
        { SequenceRead.atEnd c (SequenceRead.lastFields c.fields (c.rows.drop c.current)) with
          readP := true }
      exact ⟨ended, ⟨bounded.mask, bounded.leaf, bounded.top, bounded.sendP, bounded.starting,
        bounded.stride, bounded.ending⟩, Or.inl ⟨by omega, ⟨rfl, rfl⟩, rfl⟩⟩
    | cons r rest =>
      obtain ⟨coming, moved, room'⟩ := upcoming_holding ((k + 1 : Nat) : Int) found
      have size := congrArg List.length found
      simp only [List.length_drop, List.length_cons] at size
      let held : Sequence V :=
        { SequenceRead.holding c ((k + 1 : Nat) : Int) r rest with readP := true }
      exact ⟨held, ⟨bounded.mask, bounded.leaf, bounded.top, bounded.sendP, bounded.starting,
        bounded.stride, bounded.ending⟩,
        Or.inr ⟨by omega, rfl, coming, moved, room', rfl, rfl⟩⟩

/-- How the loop of a leaf leaves it that had row number `n` and `count` rows coming. -/
def LeftAt (start stride stop n : Nat) (c c' : Sequence V) : Prop :=
  (upcoming c).length ≤ firstBeyond start stride stop - n ∧ Idle c' ∨
    StoppedAt (firstBeyond start stride stop) c (firstBeyond start stride stop - n) c'

/-- Where a run ends, seen from the row the last turn began with. -/
theorem LeftAt.earlier {n moved : Nat} {held c' : Sequence V}
    (left : LeftAt start stride stop (n + moved) held c')
    (further : n + moved ≤ firstBeyond start stride stop)
    (coming : upcoming held = (upcoming c).drop moved)
    (skipped : held.current = c.current + moved) : LeftAt start stride stop n c c' := by
  have sum : moved + (firstBeyond start stride stop - (n + moved)) =
      firstBeyond start stride stop - n := by omega
  unfold LeftAt at left ⊢
  rcases left with ⟨short, idle⟩ | ⟨stopped, reached, shown⟩
  · left
    rw [coming, List.length_drop] at short
    exact ⟨by omega, idle⟩
  · right
    rw [skipped, Nat.add_assoc, sum] at reached
    rw [coming, List.getElem?_drop, sum] at shown
    exact ⟨stopped, reached, shown⟩

/-- Behind the last row of the constraint the loop sends nothing more. -/
theorem leafLoop_beyond (above : List (Sequence V))
    (serializeChild : Place V (Stream V) → Except Failure (Place V (Stream V)))
    (bounded : Bounded mask start stride stop c) {n fuel : Nat} (out : Stream V)
    (number : c.rowNumber = (n : Nat)) (beyond : stop < n)
    (last : n = firstBeyond start stride stop) :
    leafLoop everything true (sendRow serializeChild) (fuel + 1) c.rowNumber true
        (Place.mk above c [] out) =
        .ok (Place.mk above c [] (out ++ encodeRows 0
          ((numbered (strided start stride stop) n (upcoming c)).map
            fun v => .mk (project mask v) []))) ∧
      LeftAt start stride stop n c c := by
  have behind : c.isEndOfRows c.rowNumber = true := by
    rw [number, bounded.inside]
    simpa using beyond
  refine ⟨?_, Or.inr ⟨?_, ?_, ?_⟩⟩
  · rw [leafLoop, if_neg (by simp [behind]), strided_beyond beyond]
    simp [encodeRows]
  · rw [number, last]
  · rw [last, Nat.sub_self, Nat.add_zero]
  · rw [last, Nat.sub_self]
    rfl

/-- The loop of the leaf sends the rows of the constraint from the one it holds on. -/
theorem leafLoop_strided (above : List (Sequence V))
    (serializeChild : Place V (Stream V) → Except Failure (Place V (Stream V)))
    (positive : 1 ≤ stride) (ordered : start ≤ stop)
    (bounded : Bounded mask start stride stop c) {m fuel : Nat} (out : Stream V)
    (number : c.rowNumber = (start + m * stride : Nat))
    (bound : start + m * stride ≤ firstBeyond start stride stop)
    (room : c.current ≤ c.rows.length) (enough : c.rows.length - c.current + 2 ≤ fuel)
    (countable : Countable start stride stop (start + m * stride) (upcoming c).length) :
    ∃ c', leafLoop everything true (sendRow serializeChild) fuel
        ((start + m * stride : Nat) : Int) true (Place.mk above c [] out) =
        .ok (Place.mk above c' [] (out ++ encodeRows 0
          ((numbered (strided start stride stop) (start + m * stride) (upcoming c)).map
            fun v => .mk (project mask v) []))) ∧
      Bounded mask start stride stop c' ∧
      (start + m * stride ≤ stop ∨ c.wroteSoi = true → c'.wroteSoi = true) ∧
      LeftAt start stride stop (start + m * stride) c c' := by
  induction size : c.rows.length - c.current using Nat.strongRecOn generalizing c m fuel out with
  | ind left ih =>
    rw [← number]
    obtain ⟨fuel, rfl⟩ : ∃ n, fuel = n + 2 := ⟨fuel - 2, by omega⟩
    by_cases inside : start + m * stride ≤ stop
    · obtain ⟨k, rfl⟩ : ∃ k, stride = k + 1 := ⟨stride - 1, by omega⟩
      have within : c.isEndOfRows c.rowNumber = false := by
        rw [number, bounded.inside]
        simpa using inside
      have further := next_le_firstBeyond positive inside
      have step : start + (m + 1) * (k + 1) = start + m * (k + 1) + (k + 1) := by ring
      obtain ⟨small, later⟩ := (countable_next positive inside (upcoming_pos c)).mp countable
      rw [SequenceRead.leafLoop_turn (k := k) (sendRow_emits serializeChild)
        (by rw [bounded.stride]; simp) rfl within (by rw [number]; omega), findNth_every]
      have sent := strided_next positive inside c.fields ((c.rows.drop c.current).map Row.values)
      rw [Nat.add_sub_cancel, ← List.map_drop] at sent
      rw [upcoming, sent]
      cases found : (c.rows.drop c.current).drop k with
      | nil =>
        have short := List.drop_eq_nil_iff.mp found
        let ended : Sequence V :=
          { SequenceRead.atEnd c (SequenceRead.lastFields c.fields (c.rows.drop c.current)) with
            readP := true, wroteSoi := true }
        have ended_bounded : Bounded mask start (k + 1) stop ended :=
          ⟨bounded.mask, bounded.leaf, bounded.top, bounded.sendP, bounded.starting,
            bounded.stride, bounded.ending⟩
        refine ⟨ended, ?_, ended_bounded, fun _ => rfl, Or.inl ⟨?_, rfl, rfl⟩⟩
        · simp [ended, numbered, encodeRows, bounded.mask, Row.values]
        · rw [List.length_drop] at short
          simp [upcoming]
          omega
      | cons r rest =>
        let held : Sequence V :=
          { SequenceRead.holding c (c.rowNumber + k + 1) r rest with
            readP := true, wroteSoi := true }
        have held_bounded : Bounded mask start (k + 1) stop held :=
          ⟨bounded.mask, bounded.leaf, bounded.top, bounded.sendP, bounded.starting,
            bounded.stride, bounded.ending⟩
        obtain ⟨coming, moved, room'⟩ : upcoming held = (upcoming c).drop (k + 1) ∧
            held.current = c.current + (k + 1) ∧ held.current ≤ c.rows.length :=
          upcoming_holding (c.rowNumber + k + 1) found
        have number' : held.rowNumber = (start + (m + 1) * (k + 1) : Nat) := by
          change c.rowNumber + k + 1 = _
          rw [number, step]
          push_cast
          ring
        have same_rows : held.rows = c.rows := rfl
        have less : held.rows.length - held.current < left := by
          rw [same_rows, moved]
          omega
        have enough' : held.rows.length - held.current + 2 ≤ fuel + 1 := by omega
        rw [← List.length_drop, ← coming] at later
        obtain ⟨c', loop, bounded', wrote, left'⟩ := ih _ less held_bounded
          (out ++ .marker startOfInstance :: (project mask c.fields).map .value) number' further
          room' enough' later rfl
        refine ⟨c', ?_, bounded', fun _ => wrote (Or.inr rfl), ?_⟩
        · rw [coming] at loop
          rw [← number'] at loop
          simp only [bounded.mask]
          apply loop.trans
          simp [encodeRows, Row.values, upcoming, List.map_drop, ← found]
        · rw [step] at left' further
          exact left'.earlier further coming moved
    · have last := eq_firstBeyond positive ordered (Nat.lt_of_not_le inside) bound
      obtain ⟨loop, left'⟩ := leafLoop_beyond above serializeChild bounded out number
        (Nat.lt_of_not_le inside) last
      refine ⟨c, loop, bounded, ?_, left'⟩
      rintro (below | wrote)
      · exact absurd below inside
      · exact wrote

/-- Otherwise it comes to a number that is not an `int`. -/
theorem leafLoop_strided_large (above : List (Sequence V))
    (serializeChild : Place V (Stream V) → Except Failure (Place V (Stream V)))
    (positive : 1 ≤ stride) (bounded : Bounded mask start stride stop c) {m fuel : Nat}
    (out : Stream V) (number : c.rowNumber = (start + m * stride : Nat))
    (enough : c.rows.length - c.current + 2 ≤ fuel)
    (overflow : ¬ Countable start stride stop (start + m * stride) (upcoming c).length) :
    leafLoop everything true (sendRow serializeChild) fuel
        ((start + m * stride : Nat) : Int) true (Place.mk above c [] out) =
      .error .undefinedBehaviour := by
  induction size : c.rows.length - c.current using Nat.strongRecOn generalizing c m fuel out with
  | ind left ih =>
    rw [← number]
    obtain ⟨fuel, rfl⟩ : ∃ n, fuel = n + 2 := ⟨fuel - 2, by omega⟩
    have inside : start + m * stride ≤ stop := by
      by_contra beyond
      exact overflow (countable_beyond (Nat.lt_of_not_le beyond) _)
    have within : c.isEndOfRows c.rowNumber = false := by
      rw [number, bounded.inside]
      simpa using inside
    have step : start + (m + 1) * stride = start + m * stride + stride := by ring
    rw [countable_next positive inside (upcoming_pos c)] at overflow
    by_cases small : start + (m + 1) * stride < 2 ^ 31
    · have later : ¬ Countable start stride stop (start + (m + 1) * stride)
          ((upcoming c).length - stride) := fun countable => overflow ⟨small, countable⟩
      obtain ⟨k, rfl⟩ : ∃ k, stride = k + 1 := ⟨stride - 1, by omega⟩
      rw [SequenceRead.leafLoop_turn (k := k) (sendRow_emits serializeChild)
        (by rw [bounded.stride]; simp) rfl within (by rw [number]; omega), findNth_every]
      cases found : (c.rows.drop c.current).drop k with
      | nil =>
        have short := List.drop_eq_nil_iff.mp found
        rw [List.length_drop] at short
        refine absurd ?_ later
        intro i above below bound
        simp only [upcoming, List.length_cons, List.length_map, List.length_drop] at bound
        omega
      | cons r rest =>
        let held : Sequence V :=
          { SequenceRead.holding c (c.rowNumber + k + 1) r rest with
            readP := true, wroteSoi := true }
        have held_bounded : Bounded mask start (k + 1) stop held :=
          ⟨bounded.mask, bounded.leaf, bounded.top, bounded.sendP, bounded.starting,
            bounded.stride, bounded.ending⟩
        obtain ⟨coming, moved, room'⟩ : upcoming held = (upcoming c).drop (k + 1) ∧
            held.current = c.current + (k + 1) ∧ held.current ≤ c.rows.length :=
          upcoming_holding (c.rowNumber + k + 1) found
        have number' : held.rowNumber = (start + (m + 1) * (k + 1) : Nat) := by
          change c.rowNumber + k + 1 = _
          rw [number, step]
          push_cast
          ring
        have same_rows : held.rows = c.rows := rfl
        have less : held.rows.length - held.current < left := by
          rw [same_rows, moved]
          rw [moved] at room'
          omega
        rw [← List.length_drop, ← coming] at later
        have failed := ih _ less held_bounded
          (out ++ .marker startOfInstance :: (project mask c.fields).map .value) number'
          (show held.rows.length - held.current + 2 ≤ fuel + 1 by omega) later rfl
        rw [← number'] at failed
        simp only [bounded.mask]
        exact failed
    · refine SequenceRead.leafLoop_overflow within ?_
      rw [bounded.stride, number]
      omega

/-- The rows of the constraint among these values, as they arrive at the client. -/
def picked (mask : List Bool) (start stride stop : Nat) (values : List (List V)) : List (Row V) :=
  (numbered (strided start stride stop) 0 values).map fun v => .mk (project mask v) []

/-- A leaf that holds row 0 unread sends the rows of the constraint among those it has
coming. -/
theorem serializeLeaf_strided
    (serializeChild : Place V (Stream V) → Except Failure (Place V (Stream V)))
    (positive : 1 ≤ stride) (ordered : start ≤ stop)
    (bounded : Bounded mask start stride stop c) (primed : c.readP = true)
    (number : c.rowNumber = -1) (room : c.current ≤ c.rows.length)
    (countable : Countable start stride stop 0 (upcoming c).length) (out : Stream V) :
    ∃ c', serializeLeaf everything true serializeChild (Place.mk above c [] out) =
        .ok (Place.mk
          (afterInstance above out false 0 (picked mask start stride stop (upcoming c))).1 c' []
          (afterInstance above out false 0 (picked mask start stride stop (upcoming c))).2) ∧
      Bounded mask start stride stop c' ∧ LeftAt start stride stop 0 c c' := by
  have row : c.firstRow = start := by
    rw [Sequence.firstRow, bounded.starting, if_pos (by omega)]
  have beyond := lt_firstBeyond positive ordered
  unfold serializeLeaf
  simp only [row]
  obtain ⟨c₁, bounded₁, ⟨short, idle, read⟩ | ⟨long, row₁, coming, moved, room₁, rows₁, read⟩⟩ :=
    readRow_start above out bounded primed number room
  · have none : picked mask start stride stop (upcoming c) = [] := by
      rw [picked, strided_start, List.drop_eq_nil_of_le short]
      rfl
    refine ⟨{ c₁ with wroteSoi := false }, ?_, ⟨bounded₁.mask, bounded₁.leaf, bounded₁.top,
      bounded₁.sendP, bounded₁.starting, bounded₁.stride, bounded₁.ending⟩,
      Or.inl ⟨by omega, idle⟩⟩
    rw [read, none]
    have top := bounded₁.top
    simp only [bind, Except.bind, Bool.false_and, Bool.false_eq_true, if_false, leafLoop,
      Sequence.turns, top, Bool.or_self, afterInstance]
    rfl
  · have inside : c₁.isEndOfRows start = false := by
      rw [bounded₁.inside]
      simpa using ordered
    have cleared : Bounded mask start stride stop { c₁ with wroteSoi := false } :=
      ⟨bounded₁.mask, bounded₁.leaf, bounded₁.top, bounded₁.sendP, bounded₁.starting,
        bounded₁.stride, bounded₁.ending⟩
    have committing : (Place.mk above c₁ [] out).partTwo =
        Place.mk (committed above) c₁ [] (out ++ pendingRows above) := by
      simp only [Place.partTwo, serializeParentPartTwo_eq]
    have at_start : ({ c₁ with wroteSoi := false } : Sequence V).rowNumber =
        (start + 0 * stride : Nat) := by
      rw [Nat.zero_mul, Nat.add_zero]
      exact row₁
    rw [countable_start, ← List.length_drop, ← coming] at countable
    obtain ⟨c', loop, bounded', wrote, left⟩ := leafLoop_strided (committed above) serializeChild
      positive ordered cleared (out ++ pendingRows above) at_start
      (by rw [Nat.zero_mul]; omega) room₁
      (show c₁.rows.length - c₁.current + 2 ≤ c₁.rows.length + 3 by omega)
      (by rw [Nat.zero_mul]; exact countable)
    simp only [Nat.zero_mul, Nat.add_zero] at loop wrote left
    have first := strided_next positive (show start + 0 * stride ≤ stop by rw [Nat.zero_mul]; omega)
      c₁.fields ((c₁.rows.drop c₁.current).map Row.values)
    rw [Nat.zero_mul, Nat.add_zero] at first
    have sent : picked mask start stride stop (upcoming c) =
        (numbered (strided start stride stop) start (upcoming c₁)).map
          fun v => .mk (project mask v) [] := by
      rw [picked, strided_start, coming]
    refine ⟨c', ?_, bounded', ?_⟩
    · rw [read, sent]
      simp only [bind, Except.bind, inside, Bool.not_false, Bool.and_true, if_true, committing]
      simp only [Sequence.turns]
      rw [loop]
      simp only [wrote (Or.inl ordered), Bool.true_or, if_true]
      have nonempty : ∃ v more, numbered (strided start stride stop) start (upcoming c₁) =
          v :: more := ⟨_, _, first⟩
      obtain ⟨v, more, shape⟩ := nonempty
      have same : numbered (strided start stride stop) start
          (upcoming { c₁ with wroteSoi := false }) = v :: more := shape
      rw [same, shape]
      simp [afterInstance, encodeInstance, writeEndOfSequence, pure, Except.pure]
    · have size := congrArg List.length coming
      rw [List.length_drop] at size
      rcases left with ⟨short, idle⟩ | ⟨stopped, reached, shown⟩
      · left
        change (upcoming c₁).length ≤ _ at short
        exact ⟨by omega, idle⟩
      · right
        change c'.current = c₁.current + _ at reached
        change (upcoming c₁)[_]? = _ at shown
        have sum : start + (firstBeyond start stride stop - start) =
            firstBeyond start stride stop - 0 := by omega
        rw [moved, Nat.add_assoc, sum] at reached
        rw [coming, List.getElem?_drop, sum] at shown
        exact ⟨stopped, reached, shown⟩

/-- Where it cannot number them all it fails. -/
theorem serializeLeaf_strided_large
    (serializeChild : Place V (Stream V) → Except Failure (Place V (Stream V)))
    (positive : 1 ≤ stride) (ordered : start ≤ stop)
    (bounded : Bounded mask start stride stop c) (primed : c.readP = true)
    (number : c.rowNumber = -1) (room : c.current ≤ c.rows.length)
    (overflow : ¬ Countable start stride stop 0 (upcoming c).length) (out : Stream V) :
    serializeLeaf everything true serializeChild (Place.mk above c [] out) =
      .error .undefinedBehaviour := by
  have row : c.firstRow = start := by
    rw [Sequence.firstRow, bounded.starting, if_pos (by omega)]
  unfold serializeLeaf
  simp only [row]
  obtain ⟨c₁, bounded₁, ⟨short, -⟩ | ⟨long, row₁, coming, moved, room₁, rows₁, read⟩⟩ :=
    readRow_start above out bounded primed number room
  · exact absurd (countable_short short) overflow
  · have inside : c₁.isEndOfRows start = false := by
      rw [bounded₁.inside]
      simpa using ordered
    have cleared : Bounded mask start stride stop { c₁ with wroteSoi := false } :=
      ⟨bounded₁.mask, bounded₁.leaf, bounded₁.top, bounded₁.sendP, bounded₁.starting,
        bounded₁.stride, bounded₁.ending⟩
    have committing : (Place.mk above c₁ [] out).partTwo =
        Place.mk (committed above) c₁ [] (out ++ pendingRows above) := by
      simp only [Place.partTwo, serializeParentPartTwo_eq]
    have at_start : ({ c₁ with wroteSoi := false } : Sequence V).rowNumber =
        (start + 0 * stride : Nat) := by
      rw [Nat.zero_mul, Nat.add_zero]
      exact row₁
    rw [countable_start, ← List.length_drop, ← coming] at overflow
    have failed := leafLoop_strided_large (committed above) serializeChild positive cleared
      (out ++ pendingRows above) at_start
      (show c₁.rows.length - c₁.current + 2 ≤ c₁.rows.length + 3 by omega)
      (by rw [Nat.zero_mul]; exact overflow)
    simp only [Nat.zero_mul, Nat.add_zero] at failed
    rw [read]
    simp only [bind, Except.bind, inside, Bool.not_false, Bool.and_true, if_true, committing]
    simp only [Sequence.turns]
    rw [failed]

end

end Libdap.Guarantees.SequenceRowNumbers
