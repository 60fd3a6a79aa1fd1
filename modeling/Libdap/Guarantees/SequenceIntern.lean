import Libdap.Guarantees.SequenceRoundTrip
import Libdap.Guarantees.SequenceTables

/-!
# Interning gives the rows that sending and receiving give

Committing the ancestors opens a table for each row that was still pending, so the
table of the instance at hand is on top of the stack when its first row is interned.
A level takes its table off the stack when the instance has ended.
-/
namespace Libdap.Guarantees.SequenceIntern
open Libdap.Library Libdap.Source Libdap.Source.Sequence
open SequenceWalk SequenceSerialize SequenceTables

variable {V : Type} {select : Selection V}

/-! ## The ancestors -/

/-- There is a table on top of the stack, and all of them exist. -/
structure Stacked (m : Interned V) : Prop where
  filled : m.stack ≠ []
  known : ∀ t ∈ m.stack, t < m.tables.size

theorem Stacked.top {m : Interned V} (stacked : Stacked m) :
    ∃ t rest, m.stack = t :: rest ∧ m.top = .ok t ∧ t < m.tables.size := by
  obtain ⟨t, rest, shape⟩ := List.exists_cons_of_ne_nil stacked.filled
  refine ⟨t, rest, shape, ?_, stacked.known t (by simp [shape])⟩
  rw [Interned.top, shape]

section
variable {above above' : List (Sequence V)} {m m' : Interned V} {s : Sequence V}

/-- The values of a pending row go into the table on top; a table for its child is new
on top. -/
theorem partTwo_pending (unsent : s.unsentData = true) {t : Nat} {rest : List Nat}
    (earlier : internDataParentPartTwo above m = .ok (above', m')) (top : m'.stack = t :: rest) :
    internDataParentPartTwo (s :: above) m =
      .ok ({ s with unsentData := false } :: above',
        { tables := opened m'.tables t (project s.fieldSendP s.fields),
          stack := m'.tables.size :: t :: rest }) := by
  simp only [internDataParentPartTwo, earlier, bind, Except.bind, Interned.top, top, unsent,
    if_true, pure, Except.pure, Interned.duplicate, Interned.push, Interned.pushBack, opened]

theorem partTwo_sent (sent : s.unsentData = false)
    (earlier : internDataParentPartTwo above m = .ok (above', m')) (stacked : Stacked m') :
    internDataParentPartTwo (s :: above) m = .ok (s :: above', m') := by
  obtain ⟨t, rest, -, top, -⟩ := stacked.top
  simp only [internDataParentPartTwo, earlier, bind, Except.bind, top, sent, Bool.false_eq_true,
    if_false, pure, Except.pure]

/-- What committing leaves behind: no row is pending, the current values are the same and
the stack has not become shorter. -/
structure Committed (above : List (Sequence V)) (m : Interned V) (above' : List (Sequence V))
    (m' : Interned V) : Prop where
  ran : internDataParentPartTwo above m = .ok (above', m')
  stacked : Stacked m'
  settled : ∀ s ∈ above', s.unsentData = false
  fields : above'.map Sequence.fields = above.map Sequence.fields
  deeper : m.stack.length ≤ m'.stack.length

theorem exists_committed (above : List (Sequence V)) (stacked : Stacked m) :
    ∃ above' m', Committed above m above' m' := by
  induction above with
  | nil => exact ⟨[], m, rfl, stacked, by simp, rfl, Nat.le_refl _⟩
  | cons s above ih =>
    obtain ⟨above', m', earlier⟩ := ih
    obtain ⟨t, rest, shape, -, known⟩ := earlier.stacked.top
    have values := earlier.fields
    have longer := earlier.deeper
    cases unsent : s.unsentData with
    | false =>
      refine ⟨s :: above', m', partTwo_sent unsent earlier.ran earlier.stacked, earlier.stacked,
        ?_, by simp [values], longer⟩
      exact List.forall_mem_cons.mpr ⟨unsent, earlier.settled⟩
    | true =>
      refine ⟨_, _, partTwo_pending unsent earlier.ran shape, ⟨List.cons_ne_nil _ _, ?_⟩,
        List.forall_mem_cons.mpr ⟨rfl, earlier.settled⟩, by simp [values], ?_⟩
      · intro a member
        have old : ∀ b ∈ t :: rest, b < m'.tables.size := fun b h =>
          earlier.stacked.known b (shape ▸ h)
        rw [opened_size]
        rcases List.mem_cons.mp member with rfl | member
        · exact Nat.lt_succ_self _
        · exact Nat.lt_succ_of_lt (old a member)
      · rw [shape] at longer
        exact Nat.le_succ_of_le longer

/-- A pending row opens a table. -/
theorem Committed.opens (commit : Committed (s :: above) m above' m') (stacked : Stacked m)
    (unsent : s.unsentData = true) : m.stack.length < m'.stack.length := by
  obtain ⟨above₀, m₀, earlier⟩ := exists_committed above stacked
  obtain ⟨t, rest, shape, -⟩ := earlier.stacked.top
  have longer := earlier.deeper
  rw [shape] at longer
  have ran := (partTwo_pending unsent earlier.ran shape).symm.trans commit.ran
  cases ran
  exact Nat.lt_succ_of_le longer

/-- Committing again does nothing. -/
theorem partTwo_settled (settled : ∀ s ∈ above, s.unsentData = false) (stacked : Stacked m) :
    internDataParentPartTwo above m = .ok (above, m) := by
  induction above with
  | nil => rfl
  | cons s above ih =>
    obtain ⟨sent, earlier⟩ := List.forall_mem_cons.mp settled
    exact partTwo_sent sent (ih earlier) stacked

end

/-- What interning an instance with these accepted rows comes to: nothing without rows,
and otherwise the ancestors are committed, the rows in the table that was on top then,
and this table is no longer on the stack. -/
def AfterInstance (above : List (Sequence V)) (m : Interned V) (depth : Nat)
    (rows : List (Row V)) (above' : List (Sequence V)) (m' : Interned V) : Prop :=
  match rows with
  | [] => above' = above ∧ m' = m
  | r :: rows => ∃ m₁ t rest, internDataParentPartTwo above m = .ok (above', m₁) ∧
      m₁.stack = t :: rest ∧ m'.stack = rest ∧ Fills m₁.tables t depth (r :: rows) m'.tables

/-! ## The leaf -/

theorem internRow_emits (t : Nat) :
    SequenceRead.Emits (V := V) (internRow t) id
      (fun values m => m.pushBack t ⟨values, none⟩) where
  body := fun _ _ _ => rfl
  again := fun _ => rfl

theorem foldl_pushBack (mask : List Bool) (values : List (List V)) {m : Interned V} {t : Nat}
    (known : t < m.tables.size) :
    (values.foldl (fun m v => m.pushBack t ⟨project mask v, none⟩) m).stack = m.stack ∧
      Fills m.tables t 0 (values.map fun v => .mk (project mask v) [])
        (values.foldl (fun m v => m.pushBack t ⟨project mask v, none⟩) m).tables := by
  induction values generalizing m with
  | nil => exact ⟨rfl, Fills.refl ..⟩
  | cons v values ih =>
    have first := fills_row m.tables known (project mask v)
    have room : t < (m.pushBack t ⟨project mask v, none⟩).tables.size := by
      simpa [Interned.pushBack] using known
    obtain ⟨stack, filled⟩ := ih room
    exact ⟨stack, first.trans known filled⟩

/-- A leaf that finds `values` interns them. -/
theorem internDataForLeaf_eq {above : List (Sequence V)} {m : Interned V} {mask : List Bool}
    {isTop : Bool} {s : Sequence V} {values : List (List V)} (stacked : Stacked m)
    (start : s.startingRowNumber = -1)
    (finds : LeafFinds select above m mask isTop values
      ((Place.mk above s [] m).readRow select true 0)) (few : values.length < 2 ^ 31) :
    ∃ above' s' m', internDataForLeaf select (Place.mk above s [] m) =
        .ok (Place.mk above' s' [] m') ∧ AtRest mask true isTop s' ∧
      AfterInstance above m 0 (values.map fun v => .mk (project mask v) []) above' m' := by
  have row : s.firstRow = 0 := by simp [Sequence.firstRow, start]
  unfold internDataForLeaf
  simp only [row]
  rcases finds with ⟨rfl, s₁, read, rest⟩ | ⟨s₁, read, level, number, rfl⟩
  · rw [read]
    exact ⟨above, s₁, m, rfl, rest, rfl, rfl⟩
  · rw [read]
    obtain ⟨above', m₁, commit⟩ := exists_committed above stacked
    obtain ⟨t, rest, shape, top, known⟩ := commit.stacked.top
    have inside : s₁.isEndOfRows 0 = false := by simp [Sequence.isEndOfRows, level.ending]
    have same := leafValues_congr select commit.fields (s₁.rows.drop s₁.current)
    obtain ⟨s', loop, rested, -⟩ := leafLoop_values select above' m₁ (internRow_emits t) level
      number (by rwa [same])
    rw [same] at loop
    obtain ⟨stack, filled⟩ := foldl_pushBack mask
      (s₁.fields :: leafValues select above (s₁.rows.drop s₁.current)) known
    rw [shape] at stack
    refine ⟨above', s', ⟨_, rest⟩, ?_, rested, m₁, t, rest, commit.ran, shape, rfl, filled⟩
    simp only [bind, Except.bind, inside, Bool.not_false, Bool.and_true, if_true, commit.ran,
      top, loop, Interned.pop, stack]
    rfl

/-! ## The parents -/

/-- `call` interns whole instances of a level with `masks` below it, for a row of its
parent that is pending. -/
def InternsInstances (select : Selection V)
    (call : Place V (Interned V) → Except Failure (Place V (Interned V))) (mask : List Bool)
    (masks : List (List Bool)) : Prop :=
  ∀ rows levels s above m c below, s.unsentData = true → Stacked m →
    Resting (mask :: masks) levels → rows ≠ [] → (∀ r ∈ rows, Fits mask masks r) →
    Numberable select ((s :: above).map Sequence.fields) masks rows →
    primed rows levels = c :: below →
    ∃ above' m' c' below',
      call (Place.mk (s :: above) c below m) = .ok (Place.mk above' c' below' m') ∧
      Resting (mask :: masks) (c' :: below') ∧
      AfterInstance (s :: above) m masks.length
        (accepted select ((s :: above).map Sequence.fields) mask masks rows) above' m'

/-- Between two rows of a parent: if any row so far is accepted, the ancestors are
committed and the rows in the table that was on top then. -/
structure InternedSoFar (select : Selection V) (above : List (Sequence V)) (m : Interned V)
    (mask child : List Bool) (masks : List (List Bool)) (done : List (Row V)) (wrote : Bool)
    (above' : List (Sequence V)) (m' : Interned V) : Prop where
  wrote : wrote = false
  stacked : Stacked m'
  fields : above'.map Sequence.fields = above.map Sequence.fields
  rows : match accepted select (above.map Sequence.fields) mask (child :: masks) done with
    | [] => above' = above ∧ m' = m
    | r :: rows => ∃ m₁ t rest, Committed above m above' m₁ ∧ m₁.stack = t :: rest ∧
        m'.stack = t :: rest ∧ Fills m₁.tables t (masks.length + 1) (r :: rows) m'.tables

section
variable {above : List (Sequence V)} {m : Interned V} {mask child : List Bool}
  {masks : List (List Bool)}
  {internChild : Place V (Interned V) → Except Failure (Place V (Interned V))}

/-- Committing the ancestors now is what committing them first would have been, with the
rows so far in the table on top. -/
theorem InternedSoFar.commit {done : List (Row V)} {wrote : Bool} {above' : List (Sequence V)}
    {m' : Interned V} (stacked : Stacked m)
    (soFar : InternedSoFar select above m mask child masks done wrote above' m') :
    ∃ above₁ m₁ m₂ t rest, Committed above m above₁ m₁ ∧ Committed above' m' above₁ m₂ ∧
      m₁.stack = t :: rest ∧ m₂.stack = t :: rest ∧
      Fills m₁.tables t (masks.length + 1)
        (accepted select (above.map Sequence.fields) mask (child :: masks) done) m₂.tables := by
  have rows := soFar.rows
  split at rows
  · next none =>
    obtain ⟨rfl, rfl⟩ := rows
    obtain ⟨above₁, m₁, commit⟩ := exists_committed above' stacked
    obtain ⟨t, rest, shape, -⟩ := commit.stacked.top
    exact ⟨above₁, m₁, m₁, t, rest, commit, commit, shape, shape, none ▸ Fills.refl ..⟩
  · next some =>
    obtain ⟨m₁, t, rest, commit, shape, shape', filled⟩ := rows
    have again : Committed above' m' above' m' :=
      ⟨partTwo_settled commit.settled soFar.stacked, soFar.stacked, commit.settled, rfl,
        Nat.le_refl _⟩
    exact ⟨above', m₁, m', t, rest, commit, again, shape, shape', some ▸ filled⟩

theorem internedSoFar_keeps {s : Sequence V} {isTop : Bool} (level : Level mask false isTop s)
    (interns : InternsInstances select internChild child masks) (stacked : Stacked m)
    (filled : ∀ r ∈ s.rows, r.children ≠ [] ∧ ∀ c ∈ r.children, Fits child masks c) :
    ChildKeeps internChild s child masks
      (fun r => Numberable select (r.values :: above.map Sequence.fields) masks r.children)
      (InternedSoFar select above m mask child masks) := by
  intro done r later wrote above' m' levels c below split fine before resting shown
  obtain ⟨children, deeper⟩ := filled r (by simp [split])
  have values : (parentAt s done.length r wrote :: above').map Sequence.fields =
      r.values :: above.map Sequence.fields := by
    rw [List.map_cons, before.fields]
    rfl
  obtain ⟨above'', m'', c', below', called, resting', after⟩ := interns r.children levels
    (parentAt s done.length r wrote) above' m' c below rfl before.stacked resting children deeper
    (values ▸ fine) shown
  rw [values] at after
  have snoc := accepted_snoc select (above.map Sequence.fields) mask child masks done r
  cases found : accepted select (r.values :: above.map Sequence.fields) child masks r.children with
  | nil =>
    -- no row below `r` is accepted: nothing is interned for it
    rw [found, List.append_nil] at snoc
    rw [found] at after
    obtain ⟨rfl, rfl⟩ := after
    refine ⟨wrote, true, above', m'', c', below', called, resting', before.wrote, before.stacked,
      before.fields, ?_⟩
    rw [snoc]
    exact before.rows
  | cons first rest =>
    rw [found] at after snoc
    obtain ⟨above₁, m₁, m₂, t, under, commit, commit', shape, shape', soFar⟩ :=
      before.commit stacked
    have pending := partTwo_pending (s := parentAt s done.length r wrote) rfl commit'.ran shape'
    obtain ⟨m₃, t', rest', ran, shape₃, popped, nested⟩ := after
    rw [pending] at ran
    cases ran
    obtain ⟨rfl, rfl⟩ := List.cons.inj shape₃
    have mask' : (parentAt s done.length r wrote).fieldSendP = mask := level.mask
    have known : t < m₁.tables.size := commit.stacked.known t (by simp [shape])
    have known' : t < m₂.tables.size := Nat.lt_of_lt_of_le known soFar.same.grows
    have row := fills_parent known' nested
    rw [mask'] at row
    have rows := soFar.trans known row
    refine ⟨wrote, false, above₁, m'', c', below', called, resting', before.wrote, ⟨?_, ?_⟩,
      commit.fields, ?_⟩
    · rw [popped]
      exact List.cons_ne_nil _ _
    · intro a member
      rw [popped, ← shape] at member
      exact Nat.lt_of_lt_of_le (commit.stacked.known a member) rows.same.grows
    · rw [snoc]
      cases whole : accepted select (above.map Sequence.fields) mask (child :: masks) done with
      | nil =>
        rw [whole] at rows
        exact ⟨m₁, t, under, commit, shape, popped, rows⟩
      | cons r' rows' =>
        rw [whole] at rows
        exact ⟨m₁, t, under, commit, shape, popped, rows⟩

/-- A parent whose first row has been read interns what is accepted of the instance; it
then takes a table off the stack if there is one more than before. -/
theorem internDataParentPartOne_eq {s start : Sequence V} {isTop : Bool} {r : Row V}
    {later : List (Row V)} {levels below : List (Sequence V)} (level : Level mask false isTop s)
    (interns : InternsInstances select internChild child masks) (stacked : Stacked m)
    (split : s.rows = r :: later)
    (filled : ∀ r ∈ s.rows, r.children ≠ [] ∧ ∀ c ∈ r.children, Fits child masks c)
    (few : Numberable select (above.map Sequence.fields) (child :: masks) s.rows)
    (resting : Resting (child :: masks) levels) (first : start.startingRowNumber = -1)
    (read : (Place.mk above start below m).readRow select false 0 =
      .ok (true, Place.mk above (parentAt s 0 r false) (primed r.children levels) m)) :
    ∃ s' levels' above' m',
      internDataParentPartOne select internChild (Place.mk above start below m) =
        (if m.stack.length < m'.stack.length then do
          let sink ← m'.pop
          pure (Place.mk above' s' levels' sink)
        else pure (Place.mk above' s' levels' m')) ∧
      AtRest mask false isTop s' ∧ Resting (child :: masks) levels' ∧
      InternedSoFar select above m mask child masks s.rows false above' m' := by
  have row : start.firstRow = 0 := by simp [Sequence.firstRow, first]
  have nothing : InternedSoFar select above m mask child masks [] false above m :=
    ⟨rfl, stacked, rfl, rfl, rfl⟩
  obtain ⟨wrote, above', m', levels', loop, resting', soFar⟩ :=
    parentLoop_rule select level.stride level.ending few.1 filled
      (internedSoFar_keeps level interns stacked filled) few.2 split nothing resting
  have quiet := soFar.wrote
  subst quiet
  refine ⟨parentEnd s (SequenceRead.lastFields r.values later) false, levels', above', m', ?_,
    level_parentEnd level _, resting', soFar⟩
  unfold internDataParentPartOne
  simp only [row, read, bind, Except.bind, loop]
  rfl

theorem internDataPrivate_of_leaf (depth : Nat) {p : Place V (Interned V)}
    (leaf : p.self.leafSequence = true) :
    internDataPrivate select (depth + 1) p = internDataForLeaf select p := by
  rw [internDataPrivate, if_pos leaf]

theorem internDataPrivate_of_parent (depth : Nat) {p : Place V (Interned V)}
    (parent : p.self.leafSequence = false) :
    internDataPrivate select (depth + 1) p =
      internDataParentPartOne select (internDataPrivate select depth) p := by
  rw [internDataPrivate, if_neg (Bool.eq_false_iff.mp parent)]

/-- A leaf below other levels interns its instances. -/
theorem intern_leaf_interns (mask : List Bool) (depth : Nat) :
    InternsInstances select (internDataPrivate select (depth + 1)) mask [] := by
  intro rows levels s above m c below _ stacked resting filled fits few shown
  cases levels with
  | nil => cases resting
  | cons self levels =>
    cases levels with
    | cons s' levels => cases resting.2
    | nil =>
      cases rows with
      | nil => exact absurd rfl filled
      | cons r rows =>
        obtain ⟨rest, -⟩ := resting
        obtain ⟨rfl, rfl⟩ := List.cons.inj shown
        have leaf : (primedSelf self r rows).leafSequence = true := rest.leaf
        have starting : (primedSelf self r rows).startingRowNumber = -1 := rest.starting
        have finds : LeafFinds select (s :: above) m mask false
            (leafValues select (s :: above) (r :: rows))
            ((Place.mk (s :: above) (primedSelf self r rows) [] m).readRow select true 0) :=
          leafFinds_primed rest r rows
        obtain ⟨above', s', m', interned, rest', after⟩ :=
          internDataForLeaf_eq stacked starting finds
            ((leafValues_length (s :: above) (r :: rows)).mpr few)
        rw [accepted_leaf] at after
        exact ⟨above', m', s', [], (internDataPrivate_of_leaf depth leaf).trans interned,
          ⟨rest', trivial⟩, after⟩

theorem intern_parent_interns {depth : Nat}
    (interns : InternsInstances select (internDataPrivate select depth) child masks) :
    InternsInstances select (internDataPrivate select (depth + 1)) mask (child :: masks) := by
  intro rows levels s above m c below unsent stacked resting filled fits few shown
  cases levels with
  | nil => cases resting
  | cons self levels =>
    cases rows with
    | nil => exact absurd rfl filled
    | cons r rows =>
      obtain ⟨rest, deeper⟩ := resting
      obtain ⟨rfl, rfl⟩ := List.cons.inj shown
      have filled : ∀ row ∈ r :: rows, row.children ≠ [] ∧
          ∀ c ∈ row.children, Fits child masks c :=
        fun row member => (fits row member).2
      obtain ⟨children, grandchildren⟩ := filled r (List.mem_cons_self ..)
      have number : (primedSelf self r rows).rowNumber = -1 := rest.rowNumber
      have read : (Place.mk (s :: above) (primedSelf self r rows) (primed r.children levels)
          m).readRow select false 0 = _ :=
        readRow_parent_primed rfl number (primed_read deeper children grandchildren)
      rw [parentAt_primed rest] at read
      have leaf : (primedSelf self r rows).leafSequence = false := rest.leaf
      have first : (primedSelf self r rows).startingRowNumber = -1 := rest.starting
      obtain ⟨s', levels', above', m', interned, rest', resting', soFar⟩ :=
        internDataParentPartOne_eq (level_rows rest.toLevel (r :: rows)) interns stacked rfl
          filled few deeper first read
      have ran : internDataPrivate select (depth + 1) _ = _ :=
        (internDataPrivate_of_parent depth leaf).trans interned
      have whole := soFar.rows
      split at whole
      · next none =>
        obtain ⟨rfl, rfl⟩ := whole
        rw [if_neg (Nat.lt_irrefl _)] at ran
        exact ⟨_, _, s', levels', ran, ⟨rest', resting'⟩, none ▸ ⟨rfl, rfl⟩⟩
      · next some =>
        obtain ⟨m₁, t, under, commit, shape, shape', rows⟩ := whole
        have popped : m.stack.length < m'.stack.length := by
          rw [shape', ← shape]
          exact commit.opens stacked unsent
        have top : m'.pop = .ok { m' with stack := under } := by rw [Interned.pop, shape']
        rw [if_pos popped, top] at ran
        exact ⟨above', { m' with stack := under }, s', levels', ran, ⟨rest', resting'⟩,
          some ▸ ⟨m₁, t, under, commit.ran, shape, rfl, rows⟩⟩

end

/-- Every level below the top interns its instances. -/
theorem intern_interns (select : Selection V) (masks : List (List Bool)) (mask : List Bool) :
    InternsInstances select (internDataPrivate select (masks.length + 1)) mask masks := by
  induction masks generalizing mask with
  | nil => exact intern_leaf_interns mask 0
  | cons child masks ih => exact intern_parent_interns (ih child)

/-! ## The top-most Sequence -/

/-- The rows in `d_values` of the top-most Sequence. -/
def valuesOf (depth : Nat) (m : Interned V) : List (Row V) :=
  rowsOf m.tables depth (tableAt m.tables 0)

/-- The stack holds the empty `d_values` of the top-most Sequence. -/
def start : Interned V := { tables := ⟨[[]]⟩, stack := [0] }

theorem start_stacked : Stacked (start : Interned V) where
  filled := List.cons_ne_nil _ _
  known := fun _ member => List.mem_singleton.mp member ▸ Nat.zero_lt_one

theorem valuesOf_start (depth : Nat) : valuesOf depth (start : Interned V) = [] := by
  cases depth <;> rfl

theorem valuesOf_fills {depth : Nat} {rows : List (Row V)} {m : Interned V}
    (filled : Fills (start : Interned V).tables 0 depth rows m.tables) :
    valuesOf depth m = rows := by
  obtain ⟨new, table, read, -⟩ := filled.added
  rw [valuesOf, table]
  exact read

theorem internData_flat (select : Selection V) (mask : List Bool) {rows : List (Row V)}
    (few : Numberable select [] [] rows) :
    ∃ m, internData select (tagged mask [] rows) = .ok m ∧
      valuesOf 0 m = accepted select [] mask [] rows := by
  let top : Sequence V := { make mask rows with topMost := true, leafSequence := true }
  have rest : AtRest mask true true top :=
    ⟨⟨rfl, rfl, rfl, rfl, rfl, rfl, rfl⟩, rfl, rfl, nofun⟩
  have finds : LeafFinds select [] (start : Interned V) mask true (leafValues select [] rows)
      ((Place.mk [] top [] start).readRow select true 0) := leafFinds_unread rest rfl
  obtain ⟨above', s', m', interned, -, after⟩ :=
    internDataForLeaf_eq start_stacked rest.starting finds ((leafValues_length [] rows).mpr few)
  rw [accepted_leaf] at after
  have ran : internData select (tagged mask [] rows) = .ok m' := by
    have levels : tagged mask [] rows = [top] := rfl
    rw [levels, internData, List.length_nil, internDataPrivate_of_leaf 0 rfl]
    change ((internDataForLeaf select (Place.mk [] top [] start)) >>= fun p => pure p.sink) = _
    rw [interned]
    rfl
  refine ⟨m', ran, ?_⟩
  rw [List.map_nil] at after
  cases whole : accepted select [] mask [] rows with
  | nil =>
    rw [whole] at after
    obtain ⟨-, rfl⟩ := after
    exact valuesOf_start 0
  | cons r more =>
    rw [whole] at after
    obtain ⟨m₁, t, under, commit, shape, -, filled⟩ := after
    cases commit
    cases shape
    exact valuesOf_fills filled

theorem internData_nested (select : Selection V) (mask child : List Bool)
    (masks : List (List Bool)) {rows : List (Row V)}
    (fits : ∀ r ∈ rows, Fits mask (child :: masks) r)
    (few : Numberable select [] (child :: masks) rows) :
    ∃ m, internData select (tagged mask (child :: masks) rows) = .ok m ∧
      valuesOf (masks.length + 1) m = accepted select [] mask (child :: masks) rows := by
  let top : Sequence V := { make mask rows with topMost := true, leafSequence := false }
  let below : List (Sequence V) :=
    setLeafSequence 2 (make child []) (masks.map fun m => make m [])
  obtain ⟨resting, unread⟩ : Resting (child :: masks) below ∧ setReadP false below = below :=
    setLeafSequence_resting masks child [] (by decide)
  have rest : AtRest mask false true top :=
    ⟨⟨rfl, rfl, rfl, rfl, rfl, rfl, rfl⟩, rfl, rfl, fun _ => rfl⟩
  have filled : ∀ row ∈ rows, row.children ≠ [] ∧ ∀ c ∈ row.children, Fits child masks c :=
    fun row member => (fits row member).2
  have levels : tagged mask (child :: masks) rows = top :: below := rfl
  have depth : below.length = masks.length + 1 := by
    simp [below, setLeafSequence_length]
  have read : (Place.mk [] top below (start : Interned V)).readRow select false 0 = _ :=
    readRow_first rfl rfl rfl resting unread filled
  rw [levels, internData, depth]
  change ∃ m, (internDataPrivate select (masks.length + 1 + 1) (Place.mk [] top below start) >>=
    fun p => pure p.sink) = .ok m ∧ _
  rw [internDataPrivate_of_parent _ rfl]
  cases rows with
  | nil =>
    have ended : (Place.mk [] top below (start : Interned V)).readRow select false 0 = _ := read
    refine ⟨start, ?_, valuesOf_start _⟩
    simp only [internDataParentPartOne, show top.firstRow = 0 from rfl, ended, bind, Except.bind]
    rfl
  | cons r later =>
    have row : (Place.mk [] top below (start : Interned V)).readRow select false 0 =
        .ok (true, Place.mk [] (parentAt top 0 r false) (primed r.children below) start) := read
    have few : Numberable select (([] : List (Sequence V)).map Sequence.fields) (child :: masks)
        top.rows := few
    obtain ⟨s', levels', above', m', interned, -, -, soFar⟩ := internDataParentPartOne_eq
      rest.toLevel (intern_interns select masks child) start_stacked rfl filled few resting
      rest.starting row
    have whole := soFar.rows
    have same : m'.stack.length = 1 ∧
        valuesOf (masks.length + 1) m' =
          accepted select [] mask (child :: masks) (r :: later) := by
      split at whole
      · next none =>
        obtain ⟨-, rfl⟩ := whole
        exact ⟨rfl, (valuesOf_start _).trans none.symm⟩
      · next some =>
        obtain ⟨m₁, t, under, commit, shape, shape', filled⟩ := whole
        have ran := commit.ran
        cases ran
        cases shape
        exact ⟨congrArg List.length shape', (valuesOf_fills filled).trans some.symm⟩
    refine ⟨m', ?_, same.2⟩
    rw [interned, if_neg (by rw [same.1]; exact Nat.lt_irrefl 1)]
    rfl

/-- Interning never finds the stack empty, and `d_values` ends up with the accepted rows. -/
theorem internData_eq (select : Selection V) (mask : List Bool) (masks : List (List Bool))
    {rows : List (Row V)} (fits : ∀ r ∈ rows, Fits mask masks r)
    (few : Numberable select [] masks rows) :
    ∃ m, internData select (tagged mask masks rows) = .ok m ∧
      valuesOf masks.length m = accepted select [] mask masks rows := by
  cases masks with
  | nil => exact internData_flat select mask few
  | cons child masks => exact internData_nested select mask child masks fits few

/-- The rows that are interned are those a client receives. An empty stack would have
ended in a failure. -/
def InternsReceived (select : Selection V) (mask : List Bool) (masks : List (List Bool))
    (rows : List (Row V)) (dd : DataDDS) : Prop :=
  ∃ out m, send select (tagged mask masks rows) = .ok out ∧
    internData select (tagged mask masks rows) = .ok m ∧
    ∀ fuel, out.length ≤ fuel →
      deserialize (some dd) fuel (mask.count true) (masks.map fun m => m.count true) out =
        .ok (valuesOf masks.length m, [])

/-- Both ways give the same rows as long as those of every instance can be numbered. -/
theorem internsReceived_iff (select : Selection V) (mask : List Bool)
    (masks : List (List Bool)) (rows : List (Row V)) (dd : DataDDS)
    (fits : ∀ r ∈ rows, Fits mask masks r) (served : 2 ≤ dd.protocolMajor) :
    InternsReceived select mask masks rows dd ↔ Numberable select [] masks rows := by
  constructor
  · rintro ⟨out, m, sent, -⟩
    by_contra many
    rw [send_large select mask masks fits many] at sent
    cases sent
  · intro few
    obtain ⟨m, interned, values⟩ := internData_eq select mask masks fits few
    refine ⟨_, m, send_eq select mask masks fits few, interned, ?_⟩
    intro fuel enough
    have received := SequenceRoundTrip.deserialize_accepted select fits served [] enough
    rw [List.append_nil] at received
    rw [received, values]

/-- Two outer rows, one of them rejected with all of its inner rows. -/
theorem internsReceived_iff_two :
    InternsReceived (fun values => values.head? == some [3]) [true] [[true]]
      [.mk [1] [.mk [2] []], .mk [4] [.mk [5] [], .mk [3] []]] ⟨3, "3.2"⟩ := by
  refine (internsReceived_iff (fun values => values.head? == some [3]) [true] [[true]]
    [.mk [1] [.mk [2] []], .mk [4] [.mk [5] [], .mk [3] []]] ⟨3, "3.2"⟩
    (by simp [Fits, Row.values, Row.children]) (by decide)).mpr ?_
  simp [Numberable, Row.values, Row.children]

/-- The row behind number 2147483647 has no number. -/
theorem internsReceived_fails :
    ¬ InternsReceived (fun _ => true) [true] [] (List.replicate (2 ^ 31) (.mk [0] []))
      ⟨3, "3.2"⟩ := by
  rintro ⟨out, m, sent, -⟩
  rw [SequenceRoundTrip.send_replicate] at sent
  cases sent

end Libdap.Guarantees.SequenceIntern
