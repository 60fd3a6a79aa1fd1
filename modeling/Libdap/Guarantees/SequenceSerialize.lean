import Libdap.Guarantees.SequenceWalk

/-!
# What a hierarchy of Sequences sends

`accepted` is the tree of rows that should arrive: the leaf rows that satisfy the
selection, below the ancestor rows that have one. `encodeRows` is its linear form.
`serialize` sends it although no single function of it looks at a whole instance:
the leaf sends the pending rows of its ancestors before its own first row, and each
level ends its instance if it has sent a row of it. It fails exactly where an instance
has too many rows for an `int`.
-/
namespace Libdap.Guarantees.SequenceSerialize
open Libdap.Source Libdap.Source.Sequence
open SequenceWalk

variable {V : Type} {select : Selection V}

/-- The projected rows of an instance with a leaf row that is selected, under the current
values of the ancestors. -/
def accepted (select : Selection V) : List (List V) → List Bool → List (List Bool) →
    List (Row V) → List (Row V)
  | above, mask, [], rows =>
    (rows.filter fun r => select (r.values :: above)).map fun r => .mk (project mask r.values) []
  | above, mask, child :: masks, rows =>
    rows.filterMap fun r =>
      match accepted select (r.values :: above) child masks r.children with
      | [] => none
      | c :: children => some (.mk (project mask r.values) (c :: children))

/-- The number behind the last row of every instance is an `int`. A leaf counts the rows
that are selected, the levels above it all of theirs. -/
def Numberable (select : Selection V) : List (List V) → List (List Bool) → List (Row V) → Prop
  | above, [], rows => (rows.filter fun r => select (r.values :: above)).length < 2 ^ 31
  | above, _ :: masks, rows =>
    rows.length < 2 ^ 31 ∧
      ∀ r ∈ rows, Numberable select (r.values :: above) masks r.children

/-- Rows with `depth` levels below them, as they lie on the stream. -/
def encodeRows : Nat → List (Row V) → Stream V
  | 0, rows => rows.flatMap fun r => .marker startOfInstance :: r.values.map .value
  | depth + 1, rows =>
    rows.flatMap fun r =>
      .marker startOfInstance :: r.values.map .value ++ encodeRows depth r.children ++
        [.marker endOfSequence]

def encodeInstance (depth : Nat) (rows : List (Row V)) : Stream V :=
  encodeRows depth rows ++ [.marker endOfSequence]

theorem encodeRows_append (depth : Nat) (a b : List (Row V)) :
    encodeRows depth (a ++ b) = encodeRows depth a ++ encodeRows depth b := by
  cases depth <;> simp [encodeRows]

/-- The ancestors once their pending rows are sent. -/
def committed (above : List (Sequence V)) : List (Sequence V) :=
  (serializeParentPartTwo above []).1

/-- The pending rows of the ancestors. -/
def pendingRows (above : List (Sequence V)) : Stream V := (serializeParentPartTwo above []).2

theorem serializeParentPartTwo_eq (above : List (Sequence V)) (out : Stream V) :
    serializeParentPartTwo above out = (committed above, out ++ pendingRows above) := by
  unfold committed pendingRows
  induction above generalizing out with
  | nil => simp [serializeParentPartTwo]
  | cons s above ih =>
    simp only [serializeParentPartTwo]
    rw [ih out]
    split
    · simp [Sequence.putFields, writeStartOfInstance]
    · rfl

theorem committed_fields (above : List (Sequence V)) :
    (committed above).map Sequence.fields = above.map Sequence.fields := by
  unfold committed
  induction above with
  | nil => rfl
  | cons s above ih =>
    simp only [serializeParentPartTwo]
    split <;> simp [ih]

/-- Committing sends nothing a second time. -/
theorem committed_again (above : List (Sequence V)) :
    committed (committed above) = committed above ∧ pendingRows (committed above) = [] := by
  induction above with
  | nil => exact ⟨rfl, rfl⟩
  | cons s above ih =>
    obtain ⟨same, none⟩ := ih
    unfold committed pendingRows at *
    simp only [serializeParentPartTwo]
    split <;> simp_all [serializeParentPartTwo]

/-- What sending an instance with these accepted rows does to the ancestors and to the
stream. An empty instance shows only at the top. -/
def afterInstance (above : List (Sequence V)) (out : Stream V) (isTop : Bool) (depth : Nat) :
    List (Row V) → List (Sequence V) × Stream V
  | [] => (above, if isTop then out ++ [.marker endOfSequence] else out)
  | r :: rows => (committed above, out ++ pendingRows above ++ encodeInstance depth (r :: rows))

section
variable {above : List (Sequence V)} {out : Stream V} {mask : List Bool} {isTop : Bool}
  {serializeChild : Place V (Stream V) → Except Failure (Place V (Stream V))}

theorem sendRow_emits
    (serializeChild : Place V (Stream V) → Except Failure (Place V (Stream V))) :
    SequenceRead.Emits (sendRow serializeChild) (fun _ => true)
    (fun values out => out ++ .marker startOfInstance :: values.map .value) where
  body := by
    intro above s out
    simp [sendRow, Place.onChild, Sequence.putFields, writeStartOfInstance]
  again := fun _ => rfl

theorem foldl_rows (mask : List Bool) (values : List (List V)) (out : Stream V) :
    values.foldl (fun out v => out ++ .marker startOfInstance :: (project mask v).map .value) out =
      out ++ encodeRows 0 (values.map fun v => .mk (project mask v) []) := by
  induction values generalizing out with
  | nil => simp [encodeRows]
  | cons v values ih =>
    rw [List.foldl_cons, ih]
    simp [encodeRows, Row.values]

theorem leafValues_congr (select : Selection V) {above above' : List (Sequence V)}
    (same : above.map Sequence.fields = above'.map Sequence.fields) (rows : List (Row V)) :
    leafValues select above rows = leafValues select above' rows := by
  simp only [leafValues, SequenceRead.counted, same]

/-- A leaf that finds `values` sends them, after the pending rows of its ancestors. -/
theorem serializeLeaf_eq
    (serializeChild : Place V (Stream V) → Except Failure (Place V (Stream V))) {s : Sequence V}
    {values : List (List V)} (start : s.startingRowNumber = -1)
    (finds : LeafFinds select above out mask isTop values
      ((Place.mk above s [] out).readRow select true 0)) (few : values.length < 2 ^ 31) :
    ∃ s', serializeLeaf select true serializeChild (Place.mk above s [] out) =
        .ok (Place.mk
          (afterInstance above out isTop 0 (values.map fun v => .mk (project mask v) [])).1 s' []
          (afterInstance above out isTop 0 (values.map fun v => .mk (project mask v) [])).2) ∧
      AtRest mask true isTop s' := by
  have row : s.firstRow = 0 := by simp [Sequence.firstRow, start]
  unfold serializeLeaf
  simp only [row]
  rcases finds with ⟨rfl, s₁, read, rest⟩ | ⟨s₁, read, level, number, rfl⟩
  · rw [read]
    refine ⟨{ s₁ with wroteSoi := false }, ?_, ?_⟩
    · have top := rest.top
      simp only [bind, Except.bind, Bool.false_and, Bool.false_eq_true, if_false, leafLoop,
        Sequence.turns, Bool.false_or, top, List.map_nil, afterInstance]
      cases isTop <;> rfl
    · exact ⟨⟨rest.mask, rest.leaf, rest.top, rest.sendP, rest.starting, rest.stride,
        rest.ending⟩, rest.rowNumber, rest.current, Bool.noConfusion⟩
  · rw [read]
    have inside : s₁.isEndOfRows 0 = false := by simp [Sequence.isEndOfRows, level.ending]
    have cleared : Level mask true isTop { s₁ with wroteSoi := false } :=
      ⟨level.mask, level.leaf, level.top, level.sendP, level.starting, level.stride, level.ending⟩
    have sent : (Place.mk above s₁ [] out).partTwo =
        Place.mk (committed above) s₁ [] (out ++ pendingRows above) := by
      simp only [Place.partTwo, serializeParentPartTwo_eq]
    obtain ⟨s', loop, rest, wrote⟩ := leafLoop_values select (committed above)
      (out ++ pendingRows above) (sendRow_emits serializeChild) cleared number (by
        rwa [leafValues_congr select (committed_fields above)])
    have same := leafValues_congr select (committed_fields above)
      (s₁.rows.drop s₁.current)
    refine ⟨s', ?_, rest⟩
    simp only [bind, Except.bind, inside, Bool.not_false, Bool.and_true, if_true, sent]
    rw [show ({ s₁ with wroteSoi := false } : Sequence V).turns = s₁.turns from rfl] at loop
    simp only [Sequence.turns] at loop ⊢
    rw [loop]
    simp only [wrote, Bool.true_or, if_true, foldl_rows, same, writeEndOfSequence, afterInstance,
      List.map_cons, encodeInstance, List.append_assoc]
    rfl

/-- With more values than there are numbers the leaf fails. -/
theorem serializeLeaf_large
    (serializeChild : Place V (Stream V) → Except Failure (Place V (Stream V))) {s : Sequence V}
    {values : List (List V)} (start : s.startingRowNumber = -1)
    (finds : LeafFinds select above out mask isTop values
      ((Place.mk above s [] out).readRow select true 0)) (many : ¬ values.length < 2 ^ 31) :
    serializeLeaf select true serializeChild (Place.mk above s [] out) =
      .error .undefinedBehaviour := by
  have row : s.firstRow = 0 := by simp [Sequence.firstRow, start]
  unfold serializeLeaf
  simp only [row]
  rcases finds with ⟨rfl, -⟩ | ⟨s₁, read, level, number, rfl⟩
  · simp at many
  · rw [read]
    have inside : s₁.isEndOfRows 0 = false := by simp [Sequence.isEndOfRows, level.ending]
    have cleared : Level mask true isTop { s₁ with wroteSoi := false } :=
      ⟨level.mask, level.leaf, level.top, level.sendP, level.starting, level.stride, level.ending⟩
    have sent : (Place.mk above s₁ [] out).partTwo =
        Place.mk (committed above) s₁ [] (out ++ pendingRows above) := by
      simp only [Place.partTwo, serializeParentPartTwo_eq]
    have loop := leafLoop_values_large select (committed above) (out ++ pendingRows above)
      (sendRow_emits serializeChild) cleared number (by
        rwa [leafValues_congr select (committed_fields above)])
    rw [show ({ s₁ with wroteSoi := false } : Sequence V).turns = s₁.turns from rfl] at loop
    simp only [bind, Except.bind, inside, Bool.not_false, Bool.and_true, if_true, sent]
    simp only [Sequence.turns] at loop ⊢
    rw [loop]

/-- `call` sends whole instances of a level with `masks` below it. -/
def SendsInstances (select : Selection V)
    (call : Place V (Stream V) → Except Failure (Place V (Stream V))) (mask : List Bool)
    (masks : List (List Bool)) : Prop :=
  ∀ rows levels above out c below, Resting (mask :: masks) levels → rows ≠ [] →
    (∀ r ∈ rows, Fits mask masks r) →
    Numberable select (above.map Sequence.fields) masks rows → primed rows levels = c :: below →
    ∃ c' below',
      call (Place.mk above c below out) = .ok (Place.mk
        (afterInstance above out false masks.length
          (accepted select (above.map Sequence.fields) mask masks rows)).1 c' below'
        (afterInstance above out false masks.length
          (accepted select (above.map Sequence.fields) mask masks rows)).2) ∧
      Resting (mask :: masks) (c' :: below')

/-- It fails for those with too many rows. -/
def FailsInstances (select : Selection V)
    (call : Place V (Stream V) → Except Failure (Place V (Stream V))) (mask : List Bool)
    (masks : List (List Bool)) : Prop :=
  ∀ rows levels above out c below, Resting (mask :: masks) levels → rows ≠ [] →
    (∀ r ∈ rows, Fits mask masks r) →
    ¬ Numberable select (above.map Sequence.fields) masks rows → primed rows levels = c :: below →
    call (Place.mk above c below out) = .error .undefinedBehaviour

/-- Between two rows of a parent: the rows so far are sent if any is accepted. -/
def SentSoFar (select : Selection V) (above : List (Sequence V)) (out : Stream V)
    (mask child : List Bool) (masks : List (List Bool)) (done : List (Row V)) (wrote : Bool)
    (above' : List (Sequence V)) (out' : Stream V) : Prop :=
  match accepted select (above.map Sequence.fields) mask (child :: masks) done with
  | [] => wrote = false ∧ above' = above ∧ out' = out
  | r :: rows => wrote = true ∧ above' = committed above ∧
      out' = out ++ pendingRows above ++ encodeRows (masks.length + 1) (r :: rows)

theorem accepted_snoc (select : Selection V) (values : List (List V)) (mask child : List Bool)
    (masks : List (List Bool)) (done : List (Row V)) (r : Row V) :
    accepted select values mask (child :: masks) (done ++ [r]) =
      accepted select values mask (child :: masks) done ++
        match accepted select (r.values :: values) child masks r.children with
        | [] => []
        | c :: children => [.mk (project mask r.values) (c :: children)] := by
  simp only [accepted, List.filterMap_append, List.append_cancel_left_eq]
  cases found : accepted select (r.values :: values) child masks r.children <;> simp [found]

theorem committed_cons {s : Sequence V} (unsent : s.unsentData = true)
    (above : List (Sequence V)) :
    committed (s :: above) = { s with wroteSoi := true, unsentData := false } :: committed above ∧
      pendingRows (s :: above) = pendingRows above ++
        .marker startOfInstance :: (project s.fieldSendP s.fields).map .value := by
  unfold committed pendingRows
  simp only [serializeParentPartTwo, unsent, if_true, Sequence.putFields, writeStartOfInstance,
    List.append_assoc, List.cons_append, List.nil_append, and_self]

theorem SentSoFar.fields {mask child : List Bool} {masks : List (List Bool)}
    {done : List (Row V)} {wrote : Bool} {above' : List (Sequence V)} {out' : Stream V}
    (sent : SentSoFar select above out mask child masks done wrote above' out') :
    above'.map Sequence.fields = above.map Sequence.fields := by
  unfold SentSoFar at sent
  split at sent
  · rw [sent.2.1]
  · rw [sent.2.1, committed_fields]

theorem SentSoFar.with_parent {mask child : List Bool} {masks : List (List Bool)}
    {done : List (Row V)} {wrote : Bool} {above' : List (Sequence V)} {out' : Stream V}
    (sent : SentSoFar select above out mask child masks done wrote above' out') (s : Sequence V)
    (j : Nat) (r : Row V) :
    (parentAt s j r wrote :: above').map Sequence.fields =
      r.values :: above.map Sequence.fields := by
  rw [List.map_cons, sent.fields]
  rfl

theorem sentSoFar_keeps {s : Sequence V} {child : List Bool} {masks : List (List Bool)}
    (level : Level mask false isTop s)
    (sends : SendsInstances select serializeChild child masks)
    (filled : ∀ r ∈ s.rows, r.children ≠ [] ∧ ∀ c ∈ r.children, Fits child masks c) :
    ChildKeeps serializeChild s child masks
      (fun r => Numberable select (r.values :: above.map Sequence.fields) masks r.children)
      (SentSoFar select above out mask child masks) := by
  intro done r later wrote above' out' levels c below split fine before resting shown
  obtain ⟨children, deeper⟩ := filled r (by simp [split])
  have values := before.with_parent s done.length r
  obtain ⟨c', below', called, resting'⟩ := sends r.children levels
    (parentAt s done.length r wrote :: above') out' c below resting children deeper
    (values ▸ fine) shown
  rw [values] at called
  have snoc := accepted_snoc select (above.map Sequence.fields) mask child masks done r
  cases found : accepted select (r.values :: above.map Sequence.fields) child masks r.children with
  | nil =>
    -- no row below `r` is accepted: nothing is sent for it
    rw [found, List.append_nil] at snoc
    rw [found] at called
    refine ⟨wrote, true, above', out', c', below', called, resting', ?_⟩
    unfold SentSoFar at before ⊢
    rwa [snoc]
  | cons first rest =>
    -- the leaf has sent `r` and, before it, the ancestors that were still pending
    rw [found] at called snoc
    obtain ⟨commit, pending⟩ := committed_cons (s := parentAt s done.length r wrote) rfl above'
    refine ⟨true, false, committed above',
      out' ++ pendingRows (parentAt s done.length r wrote :: above') ++
        encodeInstance masks.length (first :: rest), c', below', ?_, resting', ?_⟩
    · rw [called]
      simp only [afterInstance, commit]
      rfl
    · unfold SentSoFar at before ⊢
      rw [snoc]
      split at before
      · next none =>
        obtain ⟨-, rfl, rfl⟩ := before
        simp only [none, List.nil_append, true_and, pending]
        simp [encodeInstance, encodeRows, parentAt, level.mask, Row.values, Row.children]
      · next some =>
        obtain ⟨-, rfl, rfl⟩ := before
        obtain ⟨same, nothing⟩ := committed_again above
        simp only [some, List.cons_append, true_and, pending, same, nothing]
        simp [encodeInstance, encodeRows, parentAt, level.mask, Row.values, Row.children]

theorem sentSoFar_fails {s : Sequence V} {child : List Bool} {masks : List (List Bool)}
    (fails : FailsInstances select serializeChild child masks)
    (filled : ∀ r ∈ s.rows, r.children ≠ [] ∧ ∀ c ∈ r.children, Fits child masks c) :
    ChildFails serializeChild s child masks
      (fun r => Numberable select (r.values :: above.map Sequence.fields) masks r.children)
      (SentSoFar select above out mask child masks) := by
  intro done r later wrote above' out' levels c below split bad before resting shown
  obtain ⟨children, deeper⟩ := filled r (by simp [split])
  exact fails r.children levels (parentAt s done.length r wrote :: above') out' c below resting
    children deeper (before.with_parent s done.length r ▸ bad) shown

theorem level_parentEnd {s : Sequence V} (level : Level mask false isTop s) (fields : List V) :
    AtRest mask false isTop (parentEnd s fields false) :=
  ⟨⟨level.mask, level.leaf, level.top, level.sendP, level.starting, level.stride, level.ending⟩,
    rfl, rfl, fun _ => rfl⟩

/-- A parent whose first row has been read sends what is accepted of the instance. -/
theorem serializeParentPartOne_eq {s start : Sequence V} {child : List Bool}
    {masks : List (List Bool)} {r : Row V} {later : List (Row V)}
    {levels below : List (Sequence V)} (level : Level mask false isTop s)
    (sends : SendsInstances select serializeChild child masks) (split : s.rows = r :: later)
    (filled : ∀ r ∈ s.rows, r.children ≠ [] ∧ ∀ c ∈ r.children, Fits child masks c)
    (few : Numberable select (above.map Sequence.fields) (child :: masks) s.rows)
    (resting : Resting (child :: masks) levels) (first : start.startingRowNumber = -1)
    (read : (Place.mk above start below out).readRow select false 0 =
      .ok (true, Place.mk above (parentAt s 0 r false) (primed r.children levels) out)) :
    ∃ s' levels',
      serializeParentPartOne select serializeChild (Place.mk above start below out) =
        .ok (Place.mk
          (afterInstance above out isTop (masks.length + 1)
            (accepted select (above.map Sequence.fields) mask (child :: masks) s.rows)).1
          s' levels'
          (afterInstance above out isTop (masks.length + 1)
            (accepted select (above.map Sequence.fields) mask (child :: masks) s.rows)).2) ∧
      AtRest mask false isTop s' ∧ Resting (child :: masks) levels' := by
  have row : start.firstRow = 0 := by simp [Sequence.firstRow, first]
  have none_sent : SentSoFar select above out mask child masks [] false above out :=
    ⟨rfl, rfl, rfl⟩
  obtain ⟨wrote, above', out', levels', loop, resting', sent⟩ :=
    parentLoop_rule select level.stride level.ending few.1 filled
      (sentSoFar_keeps level sends filled) few.2 split none_sent resting
  refine ⟨parentEnd s (SequenceRead.lastFields r.values later) false, levels', ?_,
    level_parentEnd level _, resting'⟩
  unfold serializeParentPartOne
  simp only [row, read, bind, Except.bind, loop]
  have top : (parentEnd s (SequenceRead.lastFields r.values later) wrote).topMost = isTop :=
    level.top
  unfold SentSoFar at sent
  split at sent
  · next none =>
    obtain ⟨rfl, rfl, rfl⟩ := sent
    simp only [none, afterInstance]
    cases isTop <;> simp_all [parentEnd, writeEndOfSequence, pure, Except.pure]
  · next some =>
    obtain ⟨rfl, rfl, rfl⟩ := sent
    simp only [some, afterInstance]
    simp [parentEnd, writeEndOfSequence, encodeInstance, pure, Except.pure]

/-- With too many rows somewhere in the instance it fails. -/
theorem serializeParentPartOne_large {s start : Sequence V} {child : List Bool}
    {masks : List (List Bool)} {r : Row V} {later : List (Row V)}
    {levels below : List (Sequence V)} (level : Level mask false isTop s)
    (sends : SendsInstances select serializeChild child masks)
    (fails : FailsInstances select serializeChild child masks) (split : s.rows = r :: later)
    (filled : ∀ r ∈ s.rows, r.children ≠ [] ∧ ∀ c ∈ r.children, Fits child masks c)
    (many : ¬ Numberable select (above.map Sequence.fields) (child :: masks) s.rows)
    (resting : Resting (child :: masks) levels) (first : start.startingRowNumber = -1)
    (read : (Place.mk above start below out).readRow select false 0 =
      .ok (true, Place.mk above (parentAt s 0 r false) (primed r.children levels) out)) :
    serializeParentPartOne select serializeChild (Place.mk above start below out) =
      .error .undefinedBehaviour := by
  have row : start.firstRow = 0 := by simp [Sequence.firstRow, first]
  have none_sent : SentSoFar select above out mask child masks [] false above out :=
    ⟨rfl, rfl, rfl⟩
  have loop := parentLoop_rule_fails select level.stride level.ending filled
    (sentSoFar_keeps level sends filled) (sentSoFar_fails fails filled) many split none_sent resting
  unfold serializeParentPartOne
  simp only [row, read, bind, Except.bind, loop]

end

theorem accepted_leaf (above : List (Sequence V)) (mask : List Bool) (rows : List (Row V)) :
    (leafValues select above rows).map (fun v => .mk (project mask v) []) =
      accepted select (above.map Sequence.fields) mask [] rows := by
  simp [leafValues, accepted, SequenceRead.counted, Function.comp_def]

theorem primed_read {masks : List (List Bool)} {mask : List Bool} {rows : List (Row V)}
    {levels : List (Sequence V)} (resting : Resting (mask :: masks) levels) (filled : rows ≠ [])
    (fits : ∀ r ∈ rows, Fits mask masks r) :
    setReadP true (primed rows levels) = primed rows levels := by
  induction masks generalizing mask rows levels with
  | nil =>
    cases levels with
    | nil => cases resting
    | cons s levels =>
      cases levels with
      | cons s' levels => cases resting.2
      | nil =>
        cases rows with
        | nil => exact absurd rfl filled
        | cons r rows => rfl
  | cons child masks ih =>
    cases levels with
    | nil => cases resting
    | cons s levels =>
      cases rows with
      | nil => exact absurd rfl filled
      | cons r rows =>
        obtain ⟨-, children, deeper⟩ := fits r (List.mem_cons_self ..)
        rw [primed]
        exact congrArg (List.cons _) (ih resting.2 children deeper)

/-- A level at rest whose first row has been read. -/
def primedSelf (s : Sequence V) (r : Row V) (rows : List (Row V)) : Sequence V :=
  { s with
    rows := r :: rows, current := 1, unsentData := true, fields := r.values, readP := true }

theorem serialize_of_leaf (depth : Nat) {p : Place V (Stream V)}
    (leaf : p.self.leafSequence = true) :
    serialize select (depth + 1) true p =
      serializeLeaf select true (serialize select depth true) p := by
  rw [serialize, if_pos leaf]

theorem serialize_of_parent (depth : Nat) {p : Place V (Stream V)}
    (parent : p.self.leafSequence = false) :
    serialize select (depth + 1) true p =
      serializeParentPartOne select (serialize select depth true) p := by
  rw [serialize, if_neg (Bool.eq_false_iff.mp parent)]

theorem leafValues_length (above : List (Sequence V)) (rows : List (Row V)) :
    (leafValues select above rows).length < 2 ^ 31 ↔
      Numberable select (above.map Sequence.fields) [] rows := by
  rw [leafValues, List.length_map]
  rfl

/-- A leaf below other levels sends its instances, whatever its ancestors hold. -/
theorem serialize_leaf_sends (mask : List Bool) (depth : Nat) :
    SendsInstances select (serialize select (depth + 1) true) mask [] := by
  intro rows levels above out c below resting filled fits few shown
  cases levels with
  | nil => cases resting
  | cons s levels =>
    cases levels with
    | cons s' levels => cases resting.2
    | nil =>
      cases rows with
      | nil => exact absurd rfl filled
      | cons r rows =>
        obtain ⟨rest, -⟩ := resting
        obtain ⟨rfl, rfl⟩ := List.cons.inj shown
        have leaf : (primedSelf s r rows).leafSequence = true := rest.leaf
        have starting : (primedSelf s r rows).startingRowNumber = -1 := rest.starting
        have finds : LeafFinds select above out mask false (leafValues select above (r :: rows))
            ((Place.mk above (primedSelf s r rows) [] out).readRow select true 0) :=
          leafFinds_primed rest r rows
        obtain ⟨s', sent, rest'⟩ := serializeLeaf_eq (serialize select depth true) starting finds
          ((leafValues_length above (r :: rows)).mpr few)
        rw [accepted_leaf] at sent
        refine ⟨s', [], ?_, rest', trivial⟩
        exact (serialize_of_leaf depth leaf).trans sent

theorem serialize_leaf_fails (mask : List Bool) (depth : Nat) :
    FailsInstances select (serialize select (depth + 1) true) mask [] := by
  intro rows levels above out c below resting filled fits many shown
  cases levels with
  | nil => cases resting
  | cons s levels =>
    cases levels with
    | cons s' levels => cases resting.2
    | nil =>
      cases rows with
      | nil => exact absurd rfl filled
      | cons r rows =>
        obtain ⟨rest, -⟩ := resting
        obtain ⟨rfl, rfl⟩ := List.cons.inj shown
        have leaf : (primedSelf s r rows).leafSequence = true := rest.leaf
        have starting : (primedSelf s r rows).startingRowNumber = -1 := rest.starting
        have finds : LeafFinds select above out mask false (leafValues select above (r :: rows))
            ((Place.mk above (primedSelf s r rows) [] out).readRow select true 0) :=
          leafFinds_primed rest r rows
        exact (serialize_of_leaf depth leaf).trans
          (serializeLeaf_large (serialize select depth true) starting finds
            fun few => many ((leafValues_length above (r :: rows)).mp few))

theorem parentAt_primed {mask : List Bool} {isTop : Bool} {s : Sequence V}
    (rest : AtRest mask false isTop s) (r : Row V) (rows : List (Row V)) :
    { primedSelf s r rows with rowNumber := 0 } =
      parentAt { s with rows := r :: rows } 0 r false := by
  simp [primedSelf, parentAt, rest.wroteSoi rfl]

theorem level_rows {mask : List Bool} {isLeaf isTop : Bool} {s : Sequence V}
    (level : Level mask isLeaf isTop s) (rows : List (Row V)) :
    Level mask isLeaf isTop { s with rows } :=
  ⟨level.mask, level.leaf, level.top, level.sendP, level.starting, level.stride, level.ending⟩

theorem serialize_parent_sends {mask child : List Bool} {masks : List (List Bool)} {depth : Nat}
    (sends : SendsInstances select (serialize select depth true) child masks) :
    SendsInstances select (serialize select (depth + 1) true) mask (child :: masks) := by
  intro rows levels above out c below resting filled fits few shown
  cases levels with
  | nil => cases resting
  | cons s levels =>
    cases rows with
    | nil => exact absurd rfl filled
    | cons r rows =>
      obtain ⟨rest, deeper⟩ := resting
      obtain ⟨rfl, rfl⟩ := List.cons.inj shown
      have filled : ∀ row ∈ r :: rows, row.children ≠ [] ∧
          ∀ c ∈ row.children, Fits child masks c :=
        fun row member => (fits row member).2
      obtain ⟨children, grandchildren⟩ := filled r (List.mem_cons_self ..)
      have number : (primedSelf s r rows).rowNumber = -1 := rest.rowNumber
      have read : (Place.mk above (primedSelf s r rows) (primed r.children levels) out).readRow
          select false 0 = _ :=
        readRow_parent_primed rfl number (primed_read deeper children grandchildren)
      rw [parentAt_primed rest] at read
      have leaf : (primedSelf s r rows).leafSequence = false := rest.leaf
      have first : (primedSelf s r rows).startingRowNumber = -1 := rest.starting
      obtain ⟨s', levels', sent, rest', resting'⟩ := serializeParentPartOne_eq
        (level_rows rest.toLevel (r :: rows)) sends rfl filled few deeper first read
      refine ⟨s', levels', ?_, rest', resting'⟩
      exact (serialize_of_parent depth leaf).trans sent

theorem serialize_parent_fails {mask child : List Bool} {masks : List (List Bool)} {depth : Nat}
    (sends : SendsInstances select (serialize select depth true) child masks)
    (fails : FailsInstances select (serialize select depth true) child masks) :
    FailsInstances select (serialize select (depth + 1) true) mask (child :: masks) := by
  intro rows levels above out c below resting filled fits many shown
  cases levels with
  | nil => cases resting
  | cons s levels =>
    cases rows with
    | nil => exact absurd rfl filled
    | cons r rows =>
      obtain ⟨rest, deeper⟩ := resting
      obtain ⟨rfl, rfl⟩ := List.cons.inj shown
      have filled : ∀ row ∈ r :: rows, row.children ≠ [] ∧
          ∀ c ∈ row.children, Fits child masks c :=
        fun row member => (fits row member).2
      obtain ⟨children, grandchildren⟩ := filled r (List.mem_cons_self ..)
      have number : (primedSelf s r rows).rowNumber = -1 := rest.rowNumber
      have read : (Place.mk above (primedSelf s r rows) (primed r.children levels) out).readRow
          select false 0 = _ :=
        readRow_parent_primed rfl number (primed_read deeper children grandchildren)
      rw [parentAt_primed rest] at read
      have leaf : (primedSelf s r rows).leafSequence = false := rest.leaf
      have first : (primedSelf s r rows).startingRowNumber = -1 := rest.starting
      exact (serialize_of_parent depth leaf).trans (serializeParentPartOne_large
        (level_rows rest.toLevel (r :: rows)) sends fails rfl filled many deeper first read)

/-- Every level below the top sends its instances. -/
theorem serialize_sends (select : Selection V) (masks : List (List Bool)) (mask : List Bool) :
    SendsInstances select (serialize select (masks.length + 1) true) mask masks := by
  induction masks generalizing mask with
  | nil => exact serialize_leaf_sends mask 0
  | cons child masks ih => exact serialize_parent_sends (ih child)

theorem serialize_fails (select : Selection V) (masks : List (List Bool)) (mask : List Bool) :
    FailsInstances select (serialize select (masks.length + 1) true) mask masks := by
  induction masks generalizing mask with
  | nil => exact serialize_leaf_fails mask 0
  | cons child masks ih =>
    exact serialize_parent_fails (serialize_sends select masks child) (ih child)

/-! ## The top-most Sequence -/

/-- A hierarchy as it is built over its rows, tagged by `set_leaf_sequence`. -/
def tagged (mask : List Bool) (masks : List (List Bool)) (rows : List (Row V)) :
    List (Sequence V) :=
  setLeafSequence 1 (make mask rows) (masks.map fun m => make m [])

theorem setLeafSequence_resting (masks : List (List Bool)) (mask : List Bool)
    (rows : List (Row V)) {lvl : Int} (below_top : 1 < lvl) :
    Resting (mask :: masks) (setLeafSequence lvl (make mask rows) (masks.map fun m => make m [])) ∧
      setReadP false (setLeafSequence lvl (make mask rows) (masks.map fun m => make m [])) =
        setLeafSequence lvl (make mask rows) (masks.map fun m => make m []) := by
  have inner : (false || decide (lvl = 1)) = false := by simp; omega
  induction masks generalizing mask rows lvl with
  | nil =>
    refine ⟨⟨⟨⟨rfl, rfl, inner, rfl, rfl, rfl, rfl⟩, rfl, rfl, fun _ => rfl⟩, trivial⟩, ?_⟩
    rfl
  | cons child masks ih =>
    have inner' : (false || decide (lvl + 1 = 1)) = false := by simp; omega
    obtain ⟨later, unread⟩ := ih child [] (by omega) inner'
    refine ⟨⟨⟨⟨rfl, rfl, inner, rfl, rfl, rfl, rfl⟩, rfl, rfl, fun _ => rfl⟩, later⟩, ?_⟩
    exact congrArg (List.cons _) unread

theorem setLeafSequence_length (lvl : Int) (s : Sequence V) (below : List (Sequence V)) :
    (setLeafSequence lvl s below).length = below.length + 1 := by
  induction below generalizing lvl s with
  | nil => rfl
  | cons child below ih =>
    unfold setLeafSequence
    dsimp only
    split
    · rw [List.length_cons, ih, List.length_cons]
    · rfl

/-- A flat Sequence sends what is accepted of its rows and ends the instance. -/
theorem send_flat (select : Selection V) (mask : List Bool) {rows : List (Row V)}
    (few : Numberable select [] [] rows) :
    send select (tagged mask [] rows) =
      .ok (encodeInstance 0 (accepted select [] mask [] rows)) := by
  let top : Sequence V := { make mask rows with topMost := true, leafSequence := true }
  have rest : AtRest mask true true top :=
    ⟨⟨rfl, rfl, rfl, rfl, rfl, rfl, rfl⟩, rfl, rfl, nofun⟩
  have finds : LeafFinds select [] ([] : Stream V) mask true (leafValues select [] rows)
      ((Place.mk [] top [] []).readRow select true 0) := leafFinds_unread rest rfl
  obtain ⟨s', sent, -⟩ := serializeLeaf_eq (serialize select 0 true) rest.starting finds
    ((leafValues_length [] rows).mpr few)
  have levels : tagged mask [] rows = [top] := rfl
  rw [accepted_leaf, List.map_nil] at sent
  rw [levels, send, List.length_nil, serialize_of_leaf 0 rfl, sent]
  cases accepted select [] mask [] rows <;> rfl

theorem send_flat_large (select : Selection V) (mask : List Bool) {rows : List (Row V)}
    (many : ¬ Numberable select [] [] rows) :
    send select (tagged mask [] rows) = .error .undefinedBehaviour := by
  let top : Sequence V := { make mask rows with topMost := true, leafSequence := true }
  have rest : AtRest mask true true top :=
    ⟨⟨rfl, rfl, rfl, rfl, rfl, rfl, rfl⟩, rfl, rfl, nofun⟩
  have finds : LeafFinds select [] ([] : Stream V) mask true (leafValues select [] rows)
      ((Place.mk [] top [] []).readRow select true 0) := leafFinds_unread rest rfl
  have failed := serializeLeaf_large (serialize select 0 true) rest.starting finds
    fun few => many ((leafValues_length [] rows).mp few)
  have levels : tagged mask [] rows = [top] := rfl
  rw [levels, send, List.length_nil, serialize_of_leaf 0 rfl, failed]
  rfl

/-- A nested Sequence does so too, with the levels below it. -/
theorem send_nested (select : Selection V) (mask child : List Bool) (masks : List (List Bool))
    {rows : List (Row V)} (fits : ∀ r ∈ rows, Fits mask (child :: masks) r)
    (few : Numberable select [] (child :: masks) rows) :
    send select (tagged mask (child :: masks) rows) =
      .ok (encodeInstance (masks.length + 1) (accepted select [] mask (child :: masks) rows)) := by
  let top : Sequence V := { make mask rows with topMost := true, leafSequence := false }
  let below : List (Sequence V) :=
    setLeafSequence 2 (make child []) (masks.map fun m => make m [])
  obtain ⟨resting, unread⟩ : Resting (child :: masks) below ∧ setReadP false below = below :=
    setLeafSequence_resting masks child [] (by decide)
  have rest : AtRest mask false true top :=
    ⟨⟨rfl, rfl, rfl, rfl, rfl, rfl, rfl⟩, rfl, rfl, fun _ => rfl⟩
  have filled : ∀ row ∈ rows, row.children ≠ [] ∧ ∀ c ∈ row.children, Fits child masks c :=
    fun row member => (fits row member).2
  have levels : tagged mask (child :: masks) rows = top :: below := rfl
  have depth : below.length = masks.length + 1 := by
    simp [below, setLeafSequence_length]
  have read : (Place.mk [] top below ([] : Stream V)).readRow select false 0 = _ :=
    readRow_first rfl rfl rfl resting unread filled
  rw [levels, send, depth, serialize_of_parent _ rfl]
  cases rows with
  | nil =>
    have ended : (Place.mk [] top below ([] : Stream V)).readRow select false 0 = _ := read
    simp only [serializeParentPartOne, show top.firstRow = 0 from rfl, ended, bind, Except.bind]
    rfl
  | cons r later =>
    have row : (Place.mk [] top below ([] : Stream V)).readRow select false 0 =
        .ok (true, Place.mk [] (parentAt top 0 r false) (primed r.children below) []) := read
    have few : Numberable select (([] : List (Sequence V)).map Sequence.fields) (child :: masks)
        top.rows := few
    obtain ⟨s', levels', sent, -, -⟩ := serializeParentPartOne_eq rest.toLevel
      (serialize_sends select masks child) rfl filled few resting rest.starting row
    rw [sent, List.map_nil]
    change Except.ok (afterInstance [] [] true (masks.length + 1)
      (accepted select [] mask (child :: masks) (r :: later))).2 = _
    cases accepted select [] mask (child :: masks) (r :: later) <;> rfl

theorem send_nested_large (select : Selection V) (mask child : List Bool)
    (masks : List (List Bool)) {rows : List (Row V)}
    (fits : ∀ r ∈ rows, Fits mask (child :: masks) r)
    (many : ¬ Numberable select [] (child :: masks) rows) :
    send select (tagged mask (child :: masks) rows) = .error .undefinedBehaviour := by
  let top : Sequence V := { make mask rows with topMost := true, leafSequence := false }
  let below : List (Sequence V) :=
    setLeafSequence 2 (make child []) (masks.map fun m => make m [])
  obtain ⟨resting, unread⟩ : Resting (child :: masks) below ∧ setReadP false below = below :=
    setLeafSequence_resting masks child [] (by decide)
  have rest : AtRest mask false true top :=
    ⟨⟨rfl, rfl, rfl, rfl, rfl, rfl, rfl⟩, rfl, rfl, fun _ => rfl⟩
  have filled : ∀ row ∈ rows, row.children ≠ [] ∧ ∀ c ∈ row.children, Fits child masks c :=
    fun row member => (fits row member).2
  have levels : tagged mask (child :: masks) rows = top :: below := rfl
  have depth : below.length = masks.length + 1 := by
    simp [below, setLeafSequence_length]
  have read : (Place.mk [] top below ([] : Stream V)).readRow select false 0 = _ :=
    readRow_first rfl rfl rfl resting unread filled
  rw [levels, send, depth, serialize_of_parent _ rfl]
  cases rows with
  | nil => exact absurd ⟨Nat.two_pow_pos 31, nofun⟩ many
  | cons r later =>
    have row : (Place.mk [] top below ([] : Stream V)).readRow select false 0 =
        .ok (true, Place.mk [] (parentAt top 0 r false) (primed r.children below) []) := read
    have many : ¬ Numberable select (([] : List (Sequence V)).map Sequence.fields)
        (child :: masks) top.rows := many
    rw [serializeParentPartOne_large rest.toLevel (serialize_sends select masks child)
      (serialize_fails select masks child) rfl filled many resting rest.starting row]
    rfl

/-- What the top-most Sequence sends is the linear form of its accepted rows. -/
theorem send_eq (select : Selection V) (mask : List Bool) (masks : List (List Bool))
    {rows : List (Row V)} (fits : ∀ r ∈ rows, Fits mask masks r)
    (few : Numberable select [] masks rows) :
    send select (tagged mask masks rows) =
      .ok (encodeInstance masks.length (accepted select [] mask masks rows)) := by
  cases masks with
  | nil => exact send_flat select mask few
  | cons child masks => exact send_nested select mask child masks fits few

/-- It sends nothing to the end where an instance has more rows than numbers. -/
theorem send_large (select : Selection V) (mask : List Bool) (masks : List (List Bool))
    {rows : List (Row V)} (fits : ∀ r ∈ rows, Fits mask masks r)
    (many : ¬ Numberable select [] masks rows) :
    send select (tagged mask masks rows) = .error .undefinedBehaviour := by
  cases masks with
  | nil => exact send_flat_large select mask many
  | cons child masks => exact send_nested_large select mask child masks fits many

end Libdap.Guarantees.SequenceSerialize
