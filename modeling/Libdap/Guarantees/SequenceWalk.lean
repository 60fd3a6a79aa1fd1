import Libdap.Guarantees.SequenceRead

/-!
# What the loop of a parent Sequence does

Between two rows of a parent every level below it is at rest: at the end of its
instance, its row number reset. Reading a row of the parent reads the first row of
every level below. `parentLoop_rule` is the rule of the loop: what a call on the
child keeps for one row, the loop keeps for all rows.
-/
namespace Libdap.Guarantees.SequenceWalk
open Libdap.Source Libdap.Source.Sequence

variable {V σ : Type} {select : Selection V}

/-- A projected level without a row constraint. -/
structure Level (projection : List Bool) (isLeaf isTop : Bool) (s : Sequence V) : Prop where
  mask : s.fieldSendP = projection
  leaf : s.leafSequence = isLeaf
  top : s.topMost = isTop
  sendP : s.sendP = true
  starting : s.startingRowNumber = -1
  stride : s.rowStride = 1
  ending : s.endingRowNumber = -1

/-- Such a level between two instances. A leaf clears `wroteSoi` itself. -/
structure AtRest (projection : List Bool) (isLeaf isTop : Bool) (s : Sequence V) : Prop
    extends Level projection isLeaf isTop s where
  rowNumber : s.rowNumber = -1
  current : s.current = 0
  wroteSoi : isLeaf = false → s.wroteSoi = false

/-- The levels below a parent, from its child down to the leaf, are at rest. -/
def Resting : List (List Bool) → List (Sequence V) → Prop
  | [], [] => True
  | mask :: masks, s :: below =>
    AtRest mask masks.isEmpty false s ∧ Resting masks below
  | _, _ => False

/-- The rows of an instance fill the levels: every row has a value for each variable and,
above the leaf, rows below it. -/
def Fits (mask : List Bool) : List (List Bool) → Row V → Prop
  | [], r => r.values.length = mask.length
  | child :: masks, r =>
    r.values.length = mask.length ∧ r.children ≠ [] ∧ ∀ c ∈ r.children, Fits child masks c

/-- The levels once the first row of an instance has been read, at every depth. -/
def primed : List (Row V) → List (Sequence V) → List (Sequence V)
  | _, [] => []
  | [], s :: below => s :: below
  | r :: rows, s :: below =>
    { s with
      rows := r :: rows, current := 1, unsentData := true, fields := r.values, readP := true } ::
      primed r.children below

def setReadP (state : Bool) (below : List (Sequence V)) : List (Sequence V) :=
  below.map fun s => { s with readP := state }

theorem Resting.setReadP {masks : List (List Bool)} {below : List (Sequence V)}
    (resting : Resting masks below) (state : Bool) : Resting masks (setReadP state below) := by
  induction masks generalizing below with
  | nil =>
    cases below with
    | nil => trivial
    | cons s below => cases resting
  | cons mask masks ih =>
    cases below with
    | nil => cases resting
    | cons s below =>
      obtain ⟨⟨level, rowNumber, current, wroteSoi⟩, later⟩ := resting
      exact ⟨⟨⟨level.mask, level.leaf, level.top, level.sendP, level.starting, level.stride,
        level.ending⟩, rowNumber, current, wroteSoi⟩, ih later⟩

theorem advance_first {s : Sequence V} (r : Row V) (rows : List (Row V))
    (start : s.current = 0) :
    { s with readP := false }.advance (r :: rows) =
      ({ s with
        readP := false, rows := r :: rows, current := 1, unsentData := true,
        fields := r.values }, some r) := by
  simp [Sequence.advance, start]

/-- The read of a level at rest reads the first row of its instance, and so on below. -/
theorem readInstance_resting {mask : List Bool} {masks : List (List Bool)} {s : Sequence V}
    {below : List (Sequence V)} {rows : List (Row V)}
    (resting : Resting (mask :: masks) (s :: below)) (filled : rows ≠ [])
    (fits : ∀ r ∈ rows, Fits mask masks r) :
    ∃ s' below', readInstance rows { s with readP := false } (setReadP false below) =
        (s', below', false) ∧ setReadP true (s' :: below') = primed rows (s :: below) := by
  induction masks generalizing mask s below rows with
  | nil =>
    obtain ⟨rest, later⟩ := resting
    cases below with
    | cons child below => cases later
    | nil =>
      cases rows with
      | nil => exact absurd rfl filled
      | cons r rows =>
        have first := advance_first r rows rest.current
        simp only [setReadP, List.map_nil, readInstance, first]
        exact ⟨_, _, rfl, rfl⟩
  | cons childMask masks ih =>
    obtain ⟨rest, later⟩ := resting
    cases below with
    | nil => cases later
    | cons child below =>
      cases rows with
      | nil => exact absurd rfl filled
      | cons r rows =>
        obtain ⟨-, children, deeper⟩ := fits r (List.mem_cons_self ..)
        obtain ⟨child', below', read, shown⟩ := ih later children deeper
        have first := advance_first r rows rest.current
        have projected : (child.sendP || child.inSelection) = true := by
          rw [later.1.sendP, Bool.true_or]
        have down : setReadP false (child :: below) =
            { child with readP := false } :: setReadP false below := rfl
        rw [down, readInstance, first]
        simp only [projected, if_true, read]
        refine ⟨_, _, rfl, ?_⟩
        rw [primed, ← shown]
        rfl

/-- The levels below a parent once it has read a row with these rows below it. -/
def arrive (rows : List (Row V)) : List (Sequence V) → List (Sequence V)
  | [] => []
  | child :: below =>
    let read := readInstance rows { child with readP := false } (setReadP false below)
    setReadP true (read.1 :: read.2.1)

theorem arrive_resting {mask : List Bool} {masks : List (List Bool)} {levels : List (Sequence V)}
    {rows : List (Row V)} (resting : Resting (mask :: masks) levels) (filled : rows ≠ [])
    (fits : ∀ r ∈ rows, Fits mask masks r) : arrive rows levels = primed rows levels := by
  cases levels with
  | nil => cases resting
  | cons s below =>
    obtain ⟨s', below', read, shown⟩ := readInstance_resting resting filled fits
    rw [arrive, read]
    exact shown

theorem setReadP_setReadP (a b : Bool) (below : List (Sequence V)) :
    setReadP a (setReadP b below) = setReadP a below := by
  simp [setReadP, Function.comp_def]

/-- The last turn of the loop in `read_row`. -/
theorem readLoop_stop {ceEval : Bool} {row : Int} {fuel : Nat} {eof : Bool} {p : Place V σ}
    (stop : eof = true ∨ row ≤ p.self.rowNumber) :
    p.readLoop select ceEval row (fuel + 1) eof = .ok (eof, p) := by
  rw [Place.readLoop, if_neg]
  rcases stop with rfl | reached
  · simp
  · simp only [Bool.and_eq_true, decide_eq_true_eq, not_and]
    omega

/-- One row further, a parent holds the next row and the level below has moved too; at
the end of its instance the levels below stay as they are. -/
theorem readRow_parent {above : List (Sequence V)} {s child : Sequence V} {sink : σ}
    {below : List (Sequence V)} (unread : s.readP = false) (number : s.rowNumber + 1 = s.current)
    (projected : child.sendP = true) :
    (Place.mk above s (setReadP false (child :: below)) sink).readRow select false s.current =
      match s.rows[s.current]? with
      | none =>
        .ok (false, Place.mk above
          { s with current := 0, unsentData := false, rowNumber := -1, readP := true }
          (setReadP true (child :: below)) sink)
      | some r =>
        .ok (true, Place.mk above
          { s with
            current := s.current + 1, unsentData := true, rowNumber := s.current,
            fields := r.values, readP := true } (arrive r.children (child :: below)) sink) := by
  have before : s.rowNumber < (s.current : Int) := by omega
  have reads : (child.sendP || child.inSelection) = true := by rw [projected, Bool.true_or]
  have down : setReadP false (child :: below) =
      { child with readP := false } :: setReadP false below := rfl
  unfold Place.readRow
  rw [if_neg (by simp only; omega), if_neg (by simp only; omega), Place.readLoop]
  simp only [Bool.not_false, Bool.true_and, before, decide_true, if_true]
  cases next : s.rows[s.current]? with
  | none =>
    have turn : (Place.mk above s (setReadP false (child :: below)) sink).readTurn select false =
        (true, Place.mk above
          { s with current := 0, unsentData := false, rowNumber := -1, readP := false }
          (setReadP false (setReadP false (child :: below))) sink) := by
      simp only [Place.readTurn, unread, Bool.false_eq_true, if_false, Place.read, down,
        readInstance, Sequence.advance, next]
      rfl
    rw [turn, readLoop_stop (Or.inl rfl)]
    simp only [bind, Except.bind, pure, Except.pure, Bool.not_true]
    rw [setReadP_setReadP]
    exact congrArg (fun levels => Except.ok (false, Place.mk above _ levels sink))
      (setReadP_setReadP true false (child :: below))
  | some r =>
    have shown : arrive r.children (child :: below) =
        let read := readInstance r.children { child with readP := false } (setReadP false below)
        setReadP true (read.1 :: read.2.1) := rfl
    dsimp only
    rw [shown]
    generalize read : readInstance r.children { child with readP := false }
      (setReadP false below) = result
    obtain ⟨child', below', eof⟩ := result
    have turn : (Place.mk above s (setReadP false (child :: below)) sink).readTurn select false =
        (false, Place.mk above
          { s with
            current := s.current + 1, unsentData := true, rowNumber := s.rowNumber + 1,
            fields := r.values, readP := false }
          (setReadP false (child' :: below')) sink) := by
      simp only [Place.readTurn, unread, Bool.false_eq_true, if_false, Place.read, down,
        readInstance, Sequence.advance, next, reads, if_true, read]
      rfl
    rw [turn, readLoop_stop (Or.inr (by simp only; omega))]
    simp only [bind, Except.bind, pure, Except.pure, Bool.not_false, number]
    exact congrArg (fun levels => Except.ok (true, Place.mk above _ levels sink))
      (setReadP_setReadP true false (child' :: below'))

/-- A parent whose first row came with the read of its own parent only counts it. -/
theorem readRow_parent_primed {above : List (Sequence V)} {s : Sequence V} {sink : σ}
    {below : List (Sequence V)} (read : s.readP = true) (number : s.rowNumber = -1)
    (below_read : setReadP true below = below) :
    (Place.mk above s below sink).readRow select false 0 =
      .ok (true, Place.mk above { s with rowNumber := 0 } below sink) := by
  have turn : (Place.mk above s below sink).readTurn select false =
      (false, Place.mk above { s with rowNumber := 0, readP := false } (setReadP false below)
        sink) := by
    simp only [Place.readTurn, read, if_true, Bool.not_false, Bool.true_and, Bool.true_or, number]
    rfl
  unfold Place.readRow
  rw [if_neg (by simp only; omega), if_neg (by simp only; omega), Place.readLoop]
  simp only [Bool.not_false, Bool.true_and, number, Int.reduceLT, Int.reduceNeg, decide_true,
    if_true, turn]
  rw [readLoop_stop (Or.inr (by simp))]
  obtain ⟨⟩ := s
  simp only at read
  subst read
  refine congrArg (fun levels => Except.ok (true, Place.mk above _ levels sink)) ?_
  exact (setReadP_setReadP true false below).trans below_read

/-- A parent that holds row number `j`. -/
def parentAt (s : Sequence V) (j : Nat) (r : Row V) (wroteSoi : Bool) : Sequence V :=
  { s with
    rowNumber := j, current := j + 1, unsentData := true, fields := r.values, readP := true,
    wroteSoi }

/-- A parent at the end of its instance. -/
def parentEnd (s : Sequence V) (fields : List V) (wroteSoi : Bool) : Sequence V :=
  { s with
    rowNumber := -1, current := 0, unsentData := false, fields, readP := true, wroteSoi }

theorem primed_sendP {mask : List Bool} {masks : List (List Bool)} {levels below : List (Sequence V)}
    {rows : List (Row V)} {c : Sequence V} (resting : Resting (mask :: masks) levels)
    (shown : primed rows levels = c :: below) : c.sendP = true := by
  cases levels with
  | nil => cases resting
  | cons s levels =>
    have projected := resting.1.sendP
    cases rows with
    | nil =>
      cases shown
      exact projected
    | cons r rows =>
      cases shown
      exact projected

theorem primed_cons {mask : List Bool} {masks : List (List Bool)} {levels : List (Sequence V)}
    (rows : List (Row V)) (resting : Resting (mask :: masks) levels) :
    ∃ c below, primed rows levels = c :: below := by
  cases levels with
  | nil => cases resting
  | cons s levels =>
    cases rows with
    | nil => exact ⟨_, _, rfl⟩
    | cons r rows => exact ⟨_, _, rfl⟩

/-- The first read of a parent that nobody has read for. -/
theorem readRow_start {above : List (Sequence V)} {s child : Sequence V} {sink : σ}
    {below : List (Sequence V)} (unread : s.readP = false) (number : s.rowNumber = -1)
    (first : s.current = 0) (projected : child.sendP = true)
    (unread_below : setReadP false (child :: below) = child :: below) :
    (Place.mk above s (child :: below) sink).readRow select false 0 =
      match s.rows[0]? with
      | none => .ok (false, Place.mk above (parentEnd s s.fields s.wroteSoi)
          (setReadP true (child :: below)) sink)
      | some r => .ok (true, Place.mk above (parentAt s 0 r s.wroteSoi)
          (arrive r.children (child :: below)) sink) := by
  have read : (Place.mk above s (setReadP false (child :: below)) sink).readRow select false
      (s.current : Int) = _ :=
    readRow_parent unread (by rw [number, first]; rfl) projected
  rw [unread_below, first] at read
  apply read.trans
  cases s.rows[0]? <;> rfl

/-- The same over levels at rest. -/
theorem readRow_first {above : List (Sequence V)} {s : Sequence V} {sink : σ}
    {mask : List Bool} {masks : List (List Bool)} {levels : List (Sequence V)}
    (unread : s.readP = false) (number : s.rowNumber = -1) (first : s.current = 0)
    (resting : Resting (mask :: masks) levels) (unread_below : setReadP false levels = levels)
    (filled : ∀ r ∈ s.rows, r.children ≠ [] ∧ ∀ c ∈ r.children, Fits mask masks c) :
    (Place.mk above s levels sink).readRow select false 0 =
      match s.rows[0]? with
      | none => .ok (false, Place.mk above (parentEnd s s.fields s.wroteSoi)
          (setReadP true levels) sink)
      | some r => .ok (true, Place.mk above (parentAt s 0 r s.wroteSoi)
          (primed r.children levels) sink) := by
  cases levels with
  | nil => cases resting
  | cons child below =>
    apply (readRow_start unread number first resting.1.sendP unread_below).trans
    cases row : s.rows[0]? with
    | none => rfl
    | some r =>
      obtain ⟨children, deeper⟩ := filled r (List.mem_of_getElem? row)
      dsimp only
      rw [arrive_resting resting children deeper]

section
variable {call : Place V σ → Except Failure (Place V σ)} {s : Sequence V} {mask : List Bool}
  {masks : List (List Bool)}

/-- The call on the child for one `good` row keeps `invariant`, which speaks of the rows
done, what the parent notes, the levels above, the sink and the levels below. -/
def RowKeeps (call : Place V σ → Except Failure (Place V σ)) (s : Sequence V)
    (good : Row V → Prop)
    (invariant : List (Row V) → Bool → List (Sequence V) → σ → List (Sequence V) → Prop) : Prop :=
  ∀ done r later wrote above sink levels, s.rows = done ++ r :: later → good r →
    invariant done wrote above sink levels →
    ∃ c below wrote' unsent above' sink' c' below',
      arrive r.children levels = c :: below ∧ c.sendP = true ∧
      call (Place.mk (parentAt s done.length r wrote :: above) c below sink) =
        .ok (Place.mk ({ parentAt s done.length r wrote' with unsentData := unsent } :: above')
          c' below' sink') ∧
      c'.sendP = true ∧ invariant (done ++ [r]) wrote' above' sink' (c' :: below')

/-- The call for any other row counts past the largest `int`. -/
def RowFails (call : Place V σ → Except Failure (Place V σ)) (s : Sequence V)
    (good : Row V → Prop)
    (invariant : List (Row V) → Bool → List (Sequence V) → σ → List (Sequence V) → Prop) : Prop :=
  ∀ done r later wrote above sink levels, s.rows = done ++ r :: later → ¬ good r →
    invariant done wrote above sink levels →
    ∃ c below, arrive r.children levels = c :: below ∧ c.sendP = true ∧
      call (Place.mk (parentAt s done.length r wrote :: above) c below sink) =
        .error .undefinedBehaviour

/-- So does the parent behind the row with the largest number there is. -/
theorem parentLoop_overflow {p : Place V σ} (stride : p.self.rowStride = 1)
    (ending : p.self.endingRowNumber = -1) {j : Nat} (fuel : Nat) (large : ¬ j + 1 < 2 ^ 31) :
    parentLoop select call (fuel + 1) j true p = .error .undefinedBehaviour := by
  have inside : p.self.isEndOfRows j = false := by simp [Sequence.isEndOfRows, ending]
  rw [parentLoop, if_pos (by simp [inside]), nextRow, if_neg (by rw [stride]; omega)]
  rfl

/-- A call that fails ends the loop. -/
theorem parentLoop_failure {above below : List (Sequence V)} {sink : σ} {s c : Sequence V}
    {failure : Failure} (stride : s.rowStride = 1) (ending : s.endingRowNumber = -1) {j : Nat}
    (fuel : Nat) (small : j + 1 < 2 ^ 31) (projected : c.sendP = true)
    (failed : call (Place.mk (s :: above) c below sink) = .error failure) :
    parentLoop select call (fuel + 1) j true (Place.mk above s (c :: below) sink) =
      .error failure := by
  have inside : s.isEndOfRows j = false := by simp [Sequence.isEndOfRows, ending]
  have number : nextRow j s.rowStride = .ok (j + 1) := by
    rw [stride]
    exact SequenceRead.nextRow_small (by omega)
  rw [parentLoop]
  simp only [inside, Bool.not_false, Bool.and_true, if_true, number, bind, Except.bind,
    Place.onChild, projected, failed]

/-- One turn of the parent loop: the call on the child, then the next row. -/
theorem parentLoop_turn (stride : s.rowStride = 1) (ending : s.endingRowNumber = -1)
    {j fuel : Nat} {r : Row V} {wrote wrote' unsent : Bool} (small : j + 1 < 2 ^ 31)
    {above above' below below' : List (Sequence V)} {c c' : Sequence V} {sink sink' : σ}
    (projected : c.sendP = true)
    (called : call (Place.mk (parentAt s j r wrote :: above) c below sink) =
      .ok (Place.mk ({ parentAt s j r wrote' with unsentData := unsent } :: above') c' below'
        sink'))
    (projected' : c'.sendP = true) :
    parentLoop select call (fuel + 1) j true
        (Place.mk above (parentAt s j r wrote) (c :: below) sink) =
      match s.rows[j + 1]? with
      | none => parentLoop select call fuel (j + 1) false
          (Place.mk above' (parentEnd s r.values wrote') (setReadP true (c' :: below')) sink')
      | some next => parentLoop select call fuel (j + 1) true
          (Place.mk above' (parentAt s (j + 1) next wrote')
            (arrive next.children (c' :: below')) sink') := by
  have inside : (parentAt s j r wrote).isEndOfRows j = false := by
    simp [Sequence.isEndOfRows, parentAt, ending]
  have step : nextRow j (parentAt s j r wrote).rowStride = .ok ((j + 1 : Nat) : Int) := by
    change nextRow j s.rowStride = _
    rw [stride]
    exact SequenceRead.nextRow_small (by omega)
  have moved : (Place.mk above (parentAt s j r wrote) (c :: below) sink).onChild
      call = .ok (Place.mk above' { parentAt s j r wrote' with unsentData := unsent }
        (c' :: below') sink') := by
    simp only [Place.onChild, projected, if_true, called, bind, Except.bind]
  have read : (Place.mk above'
      { parentAt s j r wrote' with unsentData := unsent, readP := false }
      (setReadP false (c' :: below')) sink').readRow select false ((j + 1 : Nat) : Int) = _ :=
    readRow_parent rfl (by simp [parentAt]) projected'
  have next : ((Place.mk above' { parentAt s j r wrote' with unsentData := unsent }
      (c' :: below') sink').setReadP false).readRow select false ((j + 1 : Nat) : Int) = _ := read
  rw [parentLoop]
  simp only [inside, Bool.not_false, Bool.and_true, if_true, step, moved, bind, Except.bind, next]
  simp only [parentAt]
  cases s.rows[j + 1]? with
  | none => rfl
  | some following => simp

/-- The rule of the parent loop, from a row it holds on. -/
theorem parentLoop_keeps (select : Selection V)
    {good : Row V → Prop}
    {invariant : List (Row V) → Bool → List (Sequence V) → σ → List (Sequence V) → Prop}
    (stride : s.rowStride = 1) (ending : s.endingRowNumber = -1) (few : s.rows.length < 2 ^ 31)
    (keeps : RowKeeps call s good invariant) {done later : List (Row V)} {r : Row V}
    {wrote : Bool} {above levels : List (Sequence V)} {sink : σ} {fuel : Nat}
    (split : s.rows = done ++ r :: later) (all : ∀ x ∈ r :: later, good x)
    (before : invariant done wrote above sink levels) (enough : later.length + 2 ≤ fuel) :
    ∃ wrote' above' sink' levels',
      parentLoop select call fuel done.length true
          (Place.mk above (parentAt s done.length r wrote) (arrive r.children levels) sink) =
        .ok (Place.mk above' (parentEnd s (SequenceRead.lastFields r.values later) wrote')
          (setReadP true levels') sink') ∧
      invariant s.rows wrote' above' sink' levels' := by
  induction later generalizing done r wrote above sink levels fuel with
  | nil =>
    obtain ⟨fuel, rfl⟩ : ∃ n, fuel = n + 2 := ⟨fuel - 2, by simp at enough; omega⟩
    obtain ⟨c, below, wrote', unsent, above', sink', c', below', arrived, projected, called,
      projected', after⟩ :=
      keeps done r [] wrote above sink levels split (all r (List.mem_cons_self ..)) before
    have small : done.length + 1 < 2 ^ 31 := by
      have size := congrArg List.length split
      simp only [List.length_append, List.length_cons] at size
      omega
    have last : s.rows[done.length + 1]? = none := by
      rw [List.getElem?_eq_none_iff, split]
      simp
    refine ⟨wrote', above', sink', c' :: below', ?_, ?_⟩
    · rw [arrived, parentLoop_turn stride ending small projected called projected', last]
      simp only
      rw [parentLoop]
      rfl
    · rwa [split]
  | cons following later ih =>
    obtain ⟨fuel, rfl⟩ : ∃ n, fuel = n + 1 := ⟨fuel - 1, by simp at enough; omega⟩
    obtain ⟨c, below, wrote', unsent, above', sink', c', below', arrived, projected, called,
      projected', after⟩ := keeps done r (following :: later) wrote above sink levels split
        (all r (List.mem_cons_self ..)) before
    have small : done.length + 1 < 2 ^ 31 := by
      have size := congrArg List.length split
      simp only [List.length_append, List.length_cons] at size
      omega
    have next : s.rows[done.length + 1]? = some following := by
      rw [split]
      simp
    have split' : s.rows = (done ++ [r]) ++ following :: later := by simp [split]
    have enough' : later.length + 2 ≤ fuel := by
      simp at enough
      omega
    obtain ⟨wrote'', above'', sink'', levels'', rest, whole⟩ :=
      ih split' (fun x member => all x (List.mem_cons_of_mem _ member)) after enough'
    refine ⟨wrote'', above'', sink'', levels'', ?_, whole⟩
    rw [arrived, parentLoop_turn stride ending small projected called projected', next]
    rw [SequenceRead.lastFields_cons, ← rest]
    simp

/-- It fails on the first row that is not good, or behind the last number. -/
theorem parentLoop_fails (select : Selection V) {good : Row V → Prop}
    {invariant : List (Row V) → Bool → List (Sequence V) → σ → List (Sequence V) → Prop}
    (stride : s.rowStride = 1) (ending : s.endingRowNumber = -1)
    (keeps : RowKeeps call s good invariant) (fails : RowFails call s good invariant)
    {done later : List (Row V)} {r : Row V} {wrote : Bool} {above levels : List (Sequence V)}
    {sink : σ} {fuel : Nat} (split : s.rows = done ++ r :: later)
    (bad : ¬ (s.rows.length < 2 ^ 31 ∧ ∀ x ∈ r :: later, good x))
    (before : invariant done wrote above sink levels) (enough : later.length + 2 ≤ fuel) :
    parentLoop select call fuel done.length true
        (Place.mk above (parentAt s done.length r wrote) (arrive r.children levels) sink) =
      .error .undefinedBehaviour := by
  induction later generalizing done r wrote above sink levels fuel with
  | nil =>
    obtain ⟨fuel, rfl⟩ : ∃ n, fuel = n + 1 := ⟨fuel - 1, by simp at enough; omega⟩
    by_cases small : done.length + 1 < 2 ^ 31
    · have few : s.rows.length < 2 ^ 31 := by
        rw [split]
        simpa using small
      have this_one : ¬ good r := fun fine => bad ⟨few, by simpa using fine⟩
      obtain ⟨c, below, arrived, projected, failed⟩ :=
        fails done r [] wrote above sink levels split this_one before
      rw [arrived]
      exact parentLoop_failure (s := parentAt s done.length r wrote) stride ending fuel small
        projected failed
    · exact parentLoop_overflow stride ending fuel small
  | cons following later ih =>
    obtain ⟨fuel, rfl⟩ : ∃ n, fuel = n + 1 := ⟨fuel - 1, by simp at enough; omega⟩
    by_cases small : done.length + 1 < 2 ^ 31
    · by_cases fine : good r
      · obtain ⟨c, below, wrote', unsent, above', sink', c', below', arrived, projected, called,
          projected', after⟩ :=
          keeps done r (following :: later) wrote above sink levels split fine before
        have next : s.rows[done.length + 1]? = some following := by
          rw [split]
          simp
        have bad' : ¬ (s.rows.length < 2 ^ 31 ∧ ∀ x ∈ following :: later, good x) :=
          fun whole => bad ⟨whole.1, List.forall_mem_cons.mpr ⟨fine, whole.2⟩⟩
        have enough' : later.length + 2 ≤ fuel := by
          simp at enough
          omega
        have split' : s.rows = (done ++ [r]) ++ following :: later := by simp [split]
        have rest := ih split' bad' after enough'
        rw [arrived, parentLoop_turn stride ending small projected called projected', next, ← rest]
        simp
      · obtain ⟨c, below, arrived, projected, failed⟩ :=
          fails done r (following :: later) wrote above sink levels split fine before
        rw [arrived]
        exact parentLoop_failure (s := parentAt s done.length r wrote) stride ending fuel small
          projected failed
    · exact parentLoop_overflow stride ending fuel small

/-- `RowKeeps` for levels at rest: the call leaves the levels below at rest. -/
def ChildKeeps (call : Place V σ → Except Failure (Place V σ)) (s : Sequence V)
    (mask : List Bool) (masks : List (List Bool)) (good : Row V → Prop)
    (invariant : List (Row V) → Bool → List (Sequence V) → σ → Prop) : Prop :=
  ∀ done r later wrote above sink levels c below, s.rows = done ++ r :: later → good r →
    invariant done wrote above sink → Resting (mask :: masks) levels →
    primed r.children levels = c :: below →
    ∃ wrote' unsent above' sink' c' below',
      call (Place.mk (parentAt s done.length r wrote :: above) c below sink) =
        .ok (Place.mk ({ parentAt s done.length r wrote' with unsentData := unsent } :: above')
          c' below' sink') ∧
      Resting (mask :: masks) (c' :: below') ∧ invariant (done ++ [r]) wrote' above' sink'

/-- `RowFails` for levels at rest. -/
def ChildFails (call : Place V σ → Except Failure (Place V σ)) (s : Sequence V)
    (mask : List Bool) (masks : List (List Bool)) (good : Row V → Prop)
    (invariant : List (Row V) → Bool → List (Sequence V) → σ → Prop) : Prop :=
  ∀ done r later wrote above sink levels c below, s.rows = done ++ r :: later → ¬ good r →
    invariant done wrote above sink → Resting (mask :: masks) levels →
    primed r.children levels = c :: below →
    call (Place.mk (parentAt s done.length r wrote :: above) c below sink) =
      .error .undefinedBehaviour

theorem ChildFails.rowFails {good : Row V → Prop}
    {invariant : List (Row V) → Bool → List (Sequence V) → σ → Prop}
    (filled : ∀ r ∈ s.rows, r.children ≠ [] ∧ ∀ c ∈ r.children, Fits mask masks c)
    (child : ChildFails call s mask masks good invariant) :
    RowFails call s good fun done wrote above sink levels =>
      invariant done wrote above sink ∧ Resting (mask :: masks) levels := by
  rintro done r later wrote above sink levels split bad ⟨before, resting⟩
  obtain ⟨children, deeper⟩ := filled r (by simp [split])
  obtain ⟨c, below, shown⟩ := primed_cons r.children resting
  exact ⟨c, below, (arrive_resting resting children deeper).trans shown,
    primed_sendP resting shown,
    child done r later wrote above sink levels c below split bad before resting shown⟩

theorem ChildKeeps.rowKeeps {good : Row V → Prop}
    {invariant : List (Row V) → Bool → List (Sequence V) → σ → Prop}
    (filled : ∀ r ∈ s.rows, r.children ≠ [] ∧ ∀ c ∈ r.children, Fits mask masks c)
    (child : ChildKeeps call s mask masks good invariant) :
    RowKeeps call s good fun done wrote above sink levels =>
      invariant done wrote above sink ∧ Resting (mask :: masks) levels := by
  rintro done r later wrote above sink levels split fine ⟨before, resting⟩
  obtain ⟨children, deeper⟩ := filled r (by simp [split])
  obtain ⟨c, below, shown⟩ := primed_cons r.children resting
  obtain ⟨wrote', unsent, above', sink', c', below', called, resting', after⟩ :=
    child done r later wrote above sink levels c below split fine before resting shown
  exact ⟨c, below, wrote', unsent, above', sink', c', below',
    (arrive_resting resting children deeper).trans shown, primed_sendP resting shown, called,
    resting'.1.sendP, after, resting'⟩

/-- The rule of the parent loop over levels at rest: what a call on the child keeps for
one row, the loop keeps for the whole instance. -/
theorem parentLoop_rule (select : Selection V) {good : Row V → Prop}
    {invariant : List (Row V) → Bool → List (Sequence V) → σ → Prop}
    (stride : s.rowStride = 1) (ending : s.endingRowNumber = -1) (few : s.rows.length < 2 ^ 31)
    (filled : ∀ r ∈ s.rows, r.children ≠ [] ∧ ∀ c ∈ r.children, Fits mask masks c)
    (child : ChildKeeps call s mask masks good invariant) (all : ∀ r ∈ s.rows, good r)
    {later : List (Row V)} {r : Row V} {above levels : List (Sequence V)} {sink : σ}
    (split : s.rows = r :: later)
    (before : invariant [] false above sink) (resting : Resting (mask :: masks) levels) :
    ∃ wrote above' sink' levels',
      parentLoop select call (parentAt s 0 r false).turns 0 true
          (Place.mk above (parentAt s 0 r false) (primed r.children levels) sink) =
        .ok (Place.mk above' (parentEnd s (SequenceRead.lastFields r.values later) wrote) levels'
          sink') ∧
      Resting (mask :: masks) levels' ∧ invariant s.rows wrote above' sink' := by
  have enough : later.length + 2 ≤ (parentAt s 0 r false).turns := by
    simp [Sequence.turns, parentAt, split]
  obtain ⟨children, deeper⟩ := filled r (by simp [split])
  obtain ⟨wrote, above', sink', levels', loop, after, resting'⟩ :=
    parentLoop_keeps select stride ending few (child.rowKeeps filled)
      (show s.rows = [] ++ r :: later from split) (split ▸ all) ⟨before, resting⟩
      enough
  rw [arrive_resting resting children deeper] at loop
  exact ⟨wrote, above', sink', _, loop, resting'.setReadP true, after⟩

/-- The loop fails where the call fails for one of the rows, or they are too many. -/
theorem parentLoop_rule_fails (select : Selection V) {good : Row V → Prop}
    {invariant : List (Row V) → Bool → List (Sequence V) → σ → Prop}
    (stride : s.rowStride = 1) (ending : s.endingRowNumber = -1)
    (filled : ∀ r ∈ s.rows, r.children ≠ [] ∧ ∀ c ∈ r.children, Fits mask masks c)
    (keeps : ChildKeeps call s mask masks good invariant)
    (fails : ChildFails call s mask masks good invariant)
    (bad : ¬ (s.rows.length < 2 ^ 31 ∧ ∀ r ∈ s.rows, good r))
    {later : List (Row V)} {r : Row V} {above levels : List (Sequence V)} {sink : σ}
    (split : s.rows = r :: later) (before : invariant [] false above sink)
    (resting : Resting (mask :: masks) levels) :
    parentLoop select call (parentAt s 0 r false).turns 0 true
        (Place.mk above (parentAt s 0 r false) (primed r.children levels) sink) =
      .error .undefinedBehaviour := by
  have enough : later.length + 2 ≤ (parentAt s 0 r false).turns := by
    simp [Sequence.turns, parentAt, split]
  obtain ⟨children, deeper⟩ := filled r (by simp [split])
  have loop := parentLoop_fails select stride ending (keeps.rowKeeps filled)
    (fails.rowFails filled) (show s.rows = [] ++ r :: later from split) (split ▸ bad)
    ⟨before, resting⟩ enough
  rw [arrive_resting resting children deeper] at loop
  exact loop

end

/-! ## The leaf -/

/-- The values of the rows a leaf hands on, below these ancestors. -/
def leafValues (select : Selection V) (above : List (Sequence V)) (rows : List (Row V)) :
    List (List V) :=
  (rows.filter fun r => SequenceRead.counted select true above r.values).map Row.values

/-- What the first `read_row` of a leaf comes to: no row at all, or the first of the
values with those of the unread rows behind it. -/
def LeafFinds (select : Selection V) (above : List (Sequence V)) (sink : σ) (mask : List Bool)
    (isTop : Bool) (values : List (List V)) (answer : Except Failure (Bool × Place V σ)) : Prop :=
  (values = [] ∧ ∃ s, answer = .ok (false, Place.mk above s [] sink) ∧ AtRest mask true isTop s) ∨
  ∃ s, answer = .ok (true, Place.mk above s [] sink) ∧ Level mask true isTop s ∧
    s.rowNumber = 0 ∧ values = s.fields :: leafValues select above (s.rows.drop s.current)

section
variable {above : List (Sequence V)} {sink : σ} {mask : List Bool} {isTop : Bool}
  {s : Sequence V}

theorem atEnd_atRest (level : Level mask true isTop s) (fields : List V) (readP wroteSoi : Bool) :
    AtRest mask true isTop { SequenceRead.atEnd s fields with readP, wroteSoi } :=
  ⟨⟨level.mask, level.leaf, level.top, level.sendP, level.starting, level.stride, level.ending⟩,
    rfl, rfl, nofun⟩

theorem leafFinds_rowResult {pending : List (Row V)} (level : Level mask true isTop s)
    (suffix : pending <:+ s.rows) :
    LeafFinds select above sink mask isTop (leafValues select above pending)
      (.ok (SequenceRead.rowResult above s sink 0 pending
        (SequenceRead.findNth (SequenceRead.counted select true above) 0 pending))) := by
  cases found : SequenceRead.findNth (SequenceRead.counted select true above) 0 pending with
  | none =>
    left
    refine ⟨?_, _, rfl, atEnd_atRest level _ true s.wroteSoi⟩
    rw [leafValues, SequenceRead.findNth_zero_none found, List.map_nil]
  | some next =>
    obtain ⟨r, rest⟩ := next
    right
    refine ⟨_, rfl, ⟨level.mask, level.leaf, level.top, level.sendP, level.starting,
      level.stride, level.ending⟩, rfl, ?_⟩
    have left := SequenceRead.holding_pending (s := s) 0 r
      ((SequenceRead.findNth_suffix found).trans suffix)
    rw [leafValues, SequenceRead.findNth_zero_some found, List.map_cons]
    exact congrArg (fun rows => r.values :: leafValues select above rows) left.symm

/-- A leaf that no parent has read for. -/
theorem leafFinds_unread (rest : AtRest mask true isTop s) (unread : s.readP = false) :
    LeafFinds select above sink mask isTop (leafValues select above s.rows)
      ((Place.mk above s [] sink).readRow select true 0) := by
  have left : s.rows.drop s.current = s.rows := by rw [rest.current, List.drop_zero]
  have row : s.rowNumber + (0 : Nat) + 1 = 0 := by rw [rest.rowNumber]; rfl
  have read : (Place.mk above s [] sink).readRow select true (s.rowNumber + (0 : Nat) + 1) = _ :=
    SequenceRead.readRow_unread 0 unread left
  rw [row] at read
  rw [read]
  exact leafFinds_rowResult rest.toLevel (List.suffix_refl _)

/-- A leaf whose first row came with the read of its parent. -/
theorem leafFinds_primed (rest : AtRest mask true isTop s) (r : Row V) (rows : List (Row V)) :
    LeafFinds select above sink mask isTop (leafValues select above (r :: rows))
      ((Place.mk above
        { s with
          rows := r :: rows, current := 1, unsentData := true, fields := r.values,
          readP := true } [] sink).readRow select true 0) := by
  let held : Sequence V := { s with
    rows := r :: rows, current := 1, unsentData := true, fields := r.values, readP := true }
  have level : Level mask true isTop held :=
    ⟨rest.mask, rest.leaf, rest.top, rest.sendP, rest.starting, rest.stride, rest.ending⟩
  have left : held.rows.drop held.current = rows := rfl
  have row : held.rowNumber + (0 : Nat) + 1 = 0 := by
    change s.rowNumber + (0 : Nat) + 1 = 0
    rw [rest.rowNumber]
    rfl
  have read : (Place.mk above held [] sink).readRow select true (held.rowNumber + (0 : Nat) + 1) =
    _ := SequenceRead.readRow_primed (s := held) 0 rfl left
  rw [row] at read
  change LeafFinds _ _ _ _ _ _ ((Place.mk above held [] sink).readRow select true 0)
  rw [read]
  by_cases counts : SequenceRead.counted select true above r.values = true
  · have shown : SequenceRead.counted select true above held.fields = true := counts
    simp only [shown, if_true]
    right
    refine ⟨_, rfl, ⟨level.mask, level.leaf, level.top, level.sendP, level.starting,
      level.stride, level.ending⟩, ?_, ?_⟩
    · change s.rowNumber + 1 = 0
      rw [rest.rowNumber]
      rfl
    · rw [leafValues, List.filter_cons, if_pos counts]
      rfl
  · have skipped : SequenceRead.counted select true above held.fields = false :=
      Bool.eq_false_iff.mpr counts
    simp only [skipped, Bool.false_eq_true, if_false]
    rw [leafValues, List.filter_cons, if_neg counts]
    exact leafFinds_rowResult level (List.suffix_cons _ _)

/-- The leaf loop hands all the values on and leaves the leaf at rest. -/
theorem leafLoop_values (select : Selection V) (above : List (Sequence V)) (sink : σ)
    {emit : Place V σ → Except Failure (Place V σ)} {mark : Bool → Bool} {put : List V → σ → σ}
    (emits : SequenceRead.Emits emit mark put) (level : Level mask true isTop s)
    (first : s.rowNumber = 0)
    (few : (leafValues select above (s.rows.drop s.current)).length + 1 < 2 ^ 31) :
    ∃ s', leafLoop select true emit s.turns 0 true (Place.mk above s [] sink) =
        .ok (Place.mk above s' [] ((s.fields :: leafValues select above
          (s.rows.drop s.current)).foldl (fun sink values => put (project mask values) sink)
            sink)) ∧
      AtRest mask true isTop s' ∧ s'.wroteSoi = mark s.wroteSoi := by
  have size : (s.rows.drop s.current).length + 2 ≤ s.turns := by
    rw [List.length_drop, Sequence.turns]
    omega
  have loop : leafLoop select true emit s.turns s.rowNumber true (Place.mk above s [] sink) = _ :=
    SequenceRead.leafLoop_all emits level.stride level.ending rfl size (by
      rw [leafValues, List.length_map] at few
      omega)
  rw [first, level.mask] at loop
  exact ⟨_, loop, atEnd_atRest level _ true (mark s.wroteSoi), rfl⟩

/-- Or they are too many to be counted. -/
theorem leafLoop_values_large (select : Selection V) (above : List (Sequence V)) (sink : σ)
    {emit : Place V σ → Except Failure (Place V σ)} {mark : Bool → Bool} {put : List V → σ → σ}
    (emits : SequenceRead.Emits emit mark put) (level : Level mask true isTop s)
    (first : s.rowNumber = 0)
    (many : ¬ (leafValues select above (s.rows.drop s.current)).length + 1 < 2 ^ 31) :
    leafLoop select true emit s.turns 0 true (Place.mk above s [] sink) =
      .error .undefinedBehaviour := by
  have size : (s.rows.drop s.current).length + 2 ≤ s.turns := by
    rw [List.length_drop, Sequence.turns]
    omega
  have loop : leafLoop select true emit s.turns s.rowNumber true (Place.mk above s [] sink) = _ :=
    SequenceRead.leafLoop_large emits level.stride level.ending rfl size (by
      rw [leafValues, List.length_map] at many
      omega)
  rw [first] at loop
  exact loop

end

end Libdap.Guarantees.SequenceWalk
