import Libdap.Library.Orders
import Libdap.Guarantees.ArrayConstraint
import Libdap.Guarantees.ConstraintClauses
import Libdap.Guarantees.GridHyperslab
import Libdap.Guarantees.LongNames

/-!
# The order of projection clauses

Clauses made of names and hyperslabs of Arrays and Grids compare, reset and mark. What they do
together is looked at one path at a time: there each clause is a mark and an assignment.
-/
namespace Libdap.Guarantees.ClauseOrder
open Libdap.Library Libdap.Source Libdap.Source.Array Libdap.Source.Escaping
open Libdap.Source.Lookup Libdap.Source.Hyperslab Libdap.Source.Constraint
open Libdap.Guarantees.Marking Libdap.Guarantees.LongNames Libdap.Guarantees.ConstraintClauses
open Libdap.Guarantees.GridHyperslab (constrained setDims_same setDims_other)

variable {garbage : UInt8} {env : Environment} {vars : List BaseType}
variable {s s' t t' : Projection} {p q : Path} {n : Text}

/-! ### What a clause does, step by step -/

inductive Event where
  /-- `process_array_indices`. -/
  | compare (q : Path) (indices : List Index)
  /-- A map in `process_grid_indices`. -/
  | reset (q : Path) (index : Index)
  | mark (n : Text)

def Event.run (garbage : UInt8) (vars : List BaseType) : Event → Projection → Option Projection
  | .compare q indices, s => (processArrayIndices [] q indices s).toOption
  | .reset q index, s =>
    ((s.dims q).resetConstraint.addConstraint 0 index.start index.stride index.stop).toOption.map
      (s.setDims q)
  | .mark n, s => some (markAll garbage vars n s)

def runEvents (garbage : UInt8) (vars : List BaseType) (events : List Event) (s : Projection) :
    Option Projection :=
  events.foldlM (fun s e => e.run garbage vars s) s

theorem run_reset (q : Path) (index : Index) (s : Projection) :
    Event.run garbage vars (.reset q index) s =
      ((s.dims q).resetConstraint.addConstraint 0 index.start index.stride
        index.stop).toOption.map (s.setDims q) := rfl

theorem runEvents_cons (e : Event) (events : List Event) (s : Projection) :
    runEvents garbage vars (e :: events) s =
      (e.run garbage vars s).bind (runEvents garbage vars events) := rfl

theorem runEvents_append (before after : List Event) (s : Projection) :
    runEvents garbage vars (before ++ after) s =
      (runEvents garbage vars before s).bind (runEvents garbage vars after) :=
  List.foldlM_append

/-- The maps from `i` on, with their indices. -/
def resets (p : Path) (i : Nat) : List BaseType → List Index → Option (List Event)
  | _, [] => some []
  | [], _ :: _ => none
  | .vector .. :: maps, index :: indices =>
    (resets p (i + 1) maps indices).map (.reset (p ++ [i]) index :: ·)
  | _ :: _, _ :: _ => none

/-- What a hyperslab of a name is, for Arrays and Grids. -/
def hyperslabEvents (garbage : UInt8) (vars : List BaseType) (n : Text) (indices : List Index) :
    Option (List Event) :=
  match (ddsVar garbage vars n).1 with
  | some (p, .vector ..) => some [.compare p indices]
  | some (p, .grid _ (.vector ..) maps) =>
    (resets p 1 maps indices).map fun maps => .compare (p ++ [0]) indices :: (maps ++ [.mark n])
  | _ => none

/-- The hyperslab is none of a Sequence. -/
def TakesNoRows (garbage : UInt8) (vars : List BaseType) (n : Text) : Prop :=
  match (ddsVar garbage vars n).1 with
  | none => True
  | some (_, .vector ..) => True
  | some (_, .grid ..) => True
  | some (_, .constructor true ..) => False
  | some _ => parentIsSequence garbage vars n = none

/-! ### A Grid -/

theorem setAllSendP_outside {state : Bool} (vars : List BaseType) (flags : Flags) (p q : Path)
    (i : Nat) (each : ∀ v ∈ vars, ∀ flags p, (¬ ∃ r, q = p ++ r ∧ (descend v r).isSome) →
      setSendP state flags p v q = flags q)
    (outside : ¬ ∃ j r, q = p ++ (i + j) :: r ∧ (vars[j]?.bind (descend · r)).isSome) :
    setAllSendP state flags p i vars q = flags q := by
  induction vars generalizing flags i with
  | nil => rfl
  | cons v vars ih =>
    unfold setAllSendP
    rw [ih _ _ fun w mem => each w (List.mem_cons_of_mem v mem)]
    · apply each v List.mem_cons_self
      rintro ⟨r, same, inside⟩
      exact outside ⟨0, r, by simpa using same, inside⟩
    · rintro ⟨j, r, same, inside⟩
      refine outside ⟨j + 1, r, ?_, inside⟩
      rw [same, Nat.add_assoc, Nat.add_comm 1 j]

/-- `set_send_p` changes no flag outside the variable. -/
theorem setSendP_outside (state : Bool) (v : BaseType) (flags : Flags) (p q : Path)
    (outside : ¬ ∃ r, q = p ++ r ∧ (descend v r).isSome) :
    setSendP state flags p v q = flags q := by
  induction v using BaseType.members_induction generalizing flags p with
  | step v ih =>
    rw [inside_iff, not_or] at outside
    rw [setSendP_eq]
    unfold setFlag
    rw [if_neg outside.1]
    apply setAllSendP_outside _ _ _ _ _ (fun w mem flags p => ih w mem flags p)
    simpa using outside.2

/-- Nothing differs but flags inside the variable at `p`. -/
structure SameOutside (vars : List BaseType) (p : Path) (s t : Projection) : Prop where
  dims : s.dims = t.dims
  rows : s.rows = t.rows
  flags : ∀ q, ¬ (p <+: q ∧ (variableAt vars q).isSome) → s.sendP q = t.sendP q

/-- Once the variable is marked, nothing differs. -/
theorem markAll_same {v : BaseType} (found : (ddsVar garbage vars n).1 = some (p, v))
    (same : SameOutside vars p s t) : markAll garbage vars n s = markAll garbage vars n t := by
  have search : ddsVar garbage vars n = (some (p, v), (ddsVar garbage vars n).2) :=
    Prod.ext found rfl
  have there := (ddsVar_found search).there
  have flags : (mark garbage vars s.sendP n true).2 = (mark garbage vars t.sendP n true).2 := by
    funext q
    rw [Bool.eq_iff_iff, mark_true _ search q there, mark_true _ search q there]
    by_cases inside : p <+: q ∧ (variableAt vars q).isSome
    · simp [inside]
    · rw [same.flags q inside]
  obtain ⟨sendP, dims, rows⟩ := s
  obtain ⟨sendP', dims', rows'⟩ := t
  cases same.dims
  cases same.rows
  unfold markAll
  rw [flags]

/-- The maps are reset one after another. -/
theorem resets_cons (mapName : Text) (var : BaseType) (maps : List BaseType) (i : Nat)
    (index : Index) (indices : List Index) :
    ((resets p i (.vector mapName var :: maps) (index :: indices)).bind fun events =>
        runEvents garbage vars events t) =
      (Event.run garbage vars (.reset (p ++ [i]) index) t).bind fun t' =>
        (resets p (i + 1) maps indices).bind fun events => runEvents garbage vars events t' := by
  rw [resets]
  cases resets p (i + 1) maps indices with
  | none =>
    cases Event.run garbage vars (.reset (p ++ [i]) index) t <;> rfl
  | some events => exact runEvents_cons ..

theorem constrainMaps_events {maps : List BaseType} {i : Nat} {indices : List Index}
    (members : ∀ j v, maps[j]? = some v → variableAt vars (p ++ [i + j]) = some v)
    (same : SameOutside vars p s t) :
    Option.Rel (SameOutside vars p) (constrainMaps p i maps indices s).toOption
      ((resets p i maps indices).bind fun events => runEvents garbage vars events t) := by
  induction maps generalizing i indices s t with
  | nil =>
    cases indices with
    | nil => exact .some same
    | cons => exact .none
  | cons mv maps ih =>
    cases indices with
    | nil => exact .some same
    | cons index indices =>
      cases mv with
      | simple | constructor | grid => exact .none
      | vector mapName var =>
        have there := members 0 _ rfl
        rw [Nat.add_zero] at there
        have later : ∀ j v, maps[j]? = some v → variableAt vars (p ++ [i + 1 + j]) = some v := by
          intro j v listed
          rw [show i + 1 + j = i + (j + 1) by omega]
          exact members (j + 1) v listed
        have outside : ∀ q, ¬ (p <+: q ∧ (variableAt vars q).isSome) →
            setSendP true s.sendP (p ++ [i]) (.vector mapName var) q = t.sendP q := by
          intro q out
          rw [setSendP_outside, same.flags q out]
          rintro ⟨r, rfl, inside⟩
          rw [variableAt_append there, List.append_assoc] at out
          exact out ⟨List.prefix_append p _, inside⟩
        cases first : (s.dims (p ++ [i])).resetConstraint.addConstraint 0 index.start index.stride
            index.stop with
        | error e =>
          have left : constrainMaps p i (.vector mapName var :: maps) (index :: indices) s =
              .error e := by
            change (Dims.addConstraint _ _ _ _ _ >>= _) = _
            rw [first]
            rfl
          have right : Event.run garbage vars (.reset (p ++ [i]) index) t = none := by
            rw [run_reset, ← same.dims, first]
            rfl
          rw [left, resets_cons, right]
          exact .none
        | ok a =>
          have left : constrainMaps p i (.vector mapName var :: maps) (index :: indices) s =
              constrainMaps p (i + 1) maps indices ({ s with
                sendP := setSendP true s.sendP (p ++ [i]) (.vector mapName var) }.setDims
                  (p ++ [i]) a) := by
            change (Dims.addConstraint _ _ _ _ _ >>= _) = _
            rw [first]
            rfl
          have right : Event.run garbage vars (.reset (p ++ [i]) index) t =
              some (t.setDims (p ++ [i]) a) := by
            rw [run_reset, ← same.dims, first]
            rfl
          have next : SameOutside vars p ({ s with
              sendP := setSendP true s.sendP (p ++ [i]) (.vector mapName var) }.setDims
                (p ++ [i]) a) (t.setDims (p ++ [i]) a) := by
            refine ⟨?_, same.rows, outside⟩
            unfold Projection.setDims
            rw [same.dims]
          have rest : Option.Rel (SameOutside vars p) _ ((resets p (i + 1) maps indices).bind _) :=
            ih later next
          rw [left, resets_cons, right]
          exact rest

theorem constrainDims_name (name name' : Text) (sent : Bool) (a : Dims) (i : Nat)
    (indices : List Index) : (constrainDims name sent a i indices).toOption =
      (constrainDims name' sent a i indices).toOption := by
  induction indices generalizing a i with
  | nil => rfl
  | cons index indices ih =>
    unfold constrainDims
    split
    · rfl
    · split
      · rfl
      · cases first : a.addConstraint i index.start index.stride index.stop with
        | error e => rfl
        | ok b => exact ih b (i + 1)

/-- The name is for the texts of the exceptions. -/
theorem processArrayIndices_name (name name' : Text) (p : Path) (indices : List Index)
    (s : Projection) : (processArrayIndices name p indices s).toOption =
      (processArrayIndices name' p indices s).toOption := by
  unfold processArrayIndices
  split
  · rfl
  · have same := constrainDims_name name name' (s.sendP p) (s.dims p) 0 indices
    cases first : constrainDims name (s.sendP p) (s.dims p) 0 indices with
    | error e =>
      rw [first] at same
      cases second : constrainDims name' (s.sendP p) (s.dims p) 0 indices with
      | error e => rfl
      | ok a =>
        rw [second] at same
        cases same
    | ok a =>
      rw [first] at same
      cases second : constrainDims name' (s.sendP p) (s.dims p) 0 indices with
      | error e =>
        rw [second] at same
        cases same
      | ok b =>
        rw [second] at same
        cases same
        rfl

theorem toOption_bind {ε α β : Type} (x : Except ε α) (f : α → Except ε β) :
    (x >>= f).toOption = x.toOption.bind fun a => (f a).toOption := by
  cases x <;> rfl

theorem processArrayIndices_length {name : Text} {indices : List Index}
    (done : (processArrayIndices name p indices s).toOption = some s') :
    (s.dims p).shape.length = indices.length := by
  unfold processArrayIndices at done
  split at done
  · cases done
  · rename_i same
    exact not_not.mp same

/-- The maps of a Grid lie inside it. -/
theorem grid_member {name : Text} {arrayVar : BaseType} {maps : List BaseType}
    (found : (ddsVar garbage vars n).1 = some (p, .grid name arrayVar maps)) (j : Nat)
    (v : BaseType) (listed : maps[j]? = some v) : variableAt vars (p ++ [1 + j]) = some v := by
  have there := (ddsVar_found (Prod.ext found rfl :
    ddsVar garbage vars n = (_, (ddsVar garbage vars n).2))).there
  rw [variableAt_append there, Nat.add_comm]
  simp [descend, BaseType.members, listed]

theorem grid_events {name arrayName : Text} {var : BaseType} {maps : List BaseType}
    (found : (ddsVar garbage vars n).1 = some (p, .grid name (.vector arrayName var) maps))
    (indices : List Index) (s : Projection) :
    (processGridIndices name p (.vector arrayName var) maps indices s).toOption.map
        (markAll garbage vars n) =
      ((resets p 1 maps indices).map fun maps =>
        Event.compare (p ++ [0]) indices :: (maps ++ [.mark n])).bind fun events =>
          runEvents garbage vars events s := by
  have there := (ddsVar_found (Prod.ext found rfl :
    ddsVar garbage vars n = (_, (ddsVar garbage vars n).2))).there
  have named := processArrayIndices_name arrayName [] (p ++ [0]) indices s
  rw [Option.bind_map]
  cases compared : (processArrayIndices [] (p ++ [0]) indices s).toOption with
  | none =>
    rw [compared] at named
    have left : (processGridIndices name p (.vector arrayName var) maps indices s).toOption =
        none := by
      simp only [processGridIndices]
      split
      · rfl
      · rw [toOption_bind, named]
        rfl
    have right (events : List Event) :
        runEvents garbage vars (.compare (p ++ [0]) indices :: events) s = none := by
      rw [runEvents_cons]
      change ((processArrayIndices [] (p ++ [0]) indices s).toOption.bind _) = none
      rw [compared]
      rfl
    rw [left]
    cases resets p 1 maps indices with
    | none => rfl
    | some events => exact (right _).symm
  | some s₁ =>
    rw [compared] at named
    have left : (processGridIndices name p (.vector arrayName var) maps indices s).toOption =
        (constrainMaps p 1 maps indices
          { s₁ with sendP := setAllSendP false s₁.sendP p 1 maps }).toOption := by
      simp only [processGridIndices]
      rw [if_neg (not_not.mpr (processArrayIndices_length compared)), toOption_bind, named]
      rfl
    have right (events : List Event) :
        runEvents garbage vars (.compare (p ++ [0]) indices :: (events ++ [.mark n])) s =
          (runEvents garbage vars events s₁).map (markAll garbage vars n) := by
      rw [runEvents_cons]
      change ((processArrayIndices [] (p ++ [0]) indices s).toOption.bind _) = _
      rw [compared]
      change runEvents garbage vars (events ++ [.mark n]) s₁ = _
      rw [runEvents_append]
      cases runEvents garbage vars events s₁ <;> rfl
    have start : SameOutside vars p
        { s₁ with sendP := setAllSendP false s₁.sendP p 1 maps } s₁ := by
      refine ⟨rfl, rfl, ?_⟩
      intro q outside
      apply setAllSendP_outside
      · exact fun v _ flags p => setSendP_outside false v flags p q
      · rintro ⟨j, r, rfl, inside⟩
        apply outside
        refine ⟨List.prefix_append p _, ?_⟩
        rw [variableAt_append there, Nat.add_comm 1 j]
        exact inside
    have maps' := @constrainMaps_events garbage vars _ _ p maps 1 indices (grid_member found) start
    rw [left]
    cases events : resets p 1 maps indices with
    | none =>
      rw [events] at maps'
      cases constrained' : (constrainMaps p 1 maps indices
          { s₁ with sendP := setAllSendP false s₁.sendP p 1 maps }).toOption with
      | none => rfl
      | some s₂ =>
        rw [constrained'] at maps'
        cases maps'
    | some events' =>
      rw [events] at maps'
      change Option.Rel _ _ (runEvents garbage vars events' s₁) at maps'
      change _ = runEvents garbage vars (.compare (p ++ [0]) indices :: (events' ++ [.mark n])) s
      rw [right]
      generalize (constrainMaps p 1 maps indices
        { s₁ with sendP := setAllSendP false s₁.sendP p 1 maps }).toOption = x at maps' ⊢
      generalize runEvents garbage vars events' s₁ = y at maps' ⊢
      cases maps' with
      | some same => exact congrArg some (markAll_same found same)
      | none => rfl

/-- `bracket_projection` of an Array or a Grid, step by step. -/
theorem bracketProjection_events (arrays : TakesNoRows garbage vars n) (indices : List Index)
    (s : Projection) : (bracketProjection garbage vars n indices s).toOption.join =
      (hyperslabEvents garbage vars n indices).bind fun events =>
        runEvents garbage vars events s := by
  unfold TakesNoRows at arrays
  unfold bracketProjection hyperslabEvents
  cases found : (ddsVar garbage vars n).1 with
  | none => rfl
  | some r =>
    obtain ⟨p, v⟩ := r
    rw [found] at arrays
    cases v with
    | simple name =>
      simp only at arrays ⊢
      rw [arrays]
      rfl
    | vector name var =>
      have named := processArrayIndices_name name [] p indices s
      change (processArrayIndices name p indices s >>= fun s => pure (some s)).toOption.join =
        (processArrayIndices [] p indices s).toOption.bind some
      rw [toOption_bind, named]
      cases (processArrayIndices [] p indices s).toOption <;> rfl
    | constructor kind name members =>
      cases kind with
      | true => exact absurd arrays (by simp)
      | false =>
        simp only at arrays ⊢
        rw [arrays]
        rfl
    | grid name arrayVar maps =>
      cases arrayVar with
      | simple | constructor | grid => rfl
      | vector arrayName var =>
        have grid := grid_events found indices s
        change (processGridIndices name p (.vector arrayName var) maps indices s >>= fun s =>
          pure (some (markAll garbage vars n s))).toOption.join = Option.bind (Option.map _ _) _
        rw [toOption_bind, ← grid]
        cases (processGridIndices name p (.vector arrayName var) maps indices s).toOption <;> rfl

/-! ### One path -/

/-- The flag of a variable, and its shape if it is an Array. -/
abbrev View := Bool × List Dimension

def view (q : Path) (s : Projection) : View := (s.sendP q, (s.dims q).shape)

/-- The shape that `process_array_indices` leaves. -/
def constrainShape (sent : Bool) : List Dimension → List Index → Option (List Dimension)
  | [], [] => some []
  | d :: shape, index :: indices =>
    if sent && projectedDifferently d index then none
    else if rejects d index.start index.stride (lastIndex d index.stop) then none
    else (constrainShape sent shape indices).map (constrained d index :: ·)
  | _, _ => none

/-- The shape of a map that `process_grid_indices` leaves. -/
def resetShape (index : Index) : List Dimension → Option (List Dimension)
  | [] => none
  | d :: shape =>
    if rejects (resetDimension d) index.start index.stride
        (lastIndex (resetDimension d) index.stop) then none
    else some (constrained (resetDimension d) index :: shape.map resetDimension)

theorem addConstraint_shape (a : Dims) (i : Nat) (d : Dimension) (there : a.shape[i]? = some d)
    (index : Index) : (a.addConstraint i index.start index.stride index.stop).toOption.map
        Dims.shape =
      if rejects d index.start index.stride (lastIndex d index.stop) then none
      else some (a.shape.set i (constrained d index)) := by
  unfold Dims.addConstraint
  rw [there]
  simp only
  split <;> rfl

theorem constrainDims_shape {name : Text} {sent : Bool} {a : Dims} {i : Nat}
    {indices : List Index} {before shape : List Dimension} (whole : a.shape = before ++ shape)
    (at' : before.length = i) (count : shape.length = indices.length) :
    (constrainDims name sent a i indices).toOption.map Dims.shape =
      (constrainShape sent shape indices).map (before ++ ·) := by
  induction indices generalizing a i before shape with
  | nil =>
    cases List.length_eq_zero_iff.mp count
    exact congrArg some whole
  | cons index indices ih =>
    cases shape with
    | nil => cases count
    | cons d shape =>
      have there : a.shape[i]? = some d := by
        rw [whole, ← at', List.getElem?_append_right (Nat.le_refl _), Nat.sub_self]
        rfl
      unfold constrainDims constrainShape
      simp only [there]
      split
      · rfl
      · have added := addConstraint_shape a i d there index
        rw [toOption_bind]
        split
        · rename_i refused
          rw [if_pos refused, Option.map_eq_none_iff] at added
          rw [added]
          rfl
        · rename_i fine
          rw [if_neg fine, Option.map_eq_some_iff] at added
          obtain ⟨b, done, set⟩ := added
          have next : b.shape = (before ++ [constrained d index]) ++ shape := by
            rw [set, whole, ← at', List.set_append_right _ _ (Nat.le_refl _), Nat.sub_self]
            simp
          have length : (before ++ [constrained d index]).length = i + 1 := by simp [at']
          have rest := ih next length (by simpa using count)
          rw [done]
          change ((constrainDims name sent b (i + 1) indices).toOption).map _ = _
          rw [rest, Option.map_map]
          congr 1
          funext w
          simp

theorem constrainShape_length {sent : Bool} {shape shape' : List Dimension}
    {indices : List Index} (done : constrainShape sent shape indices = some shape') :
    shape.length = indices.length := by
  induction indices generalizing shape shape' with
  | nil =>
    cases shape with
    | nil => rfl
    | cons => cases done
  | cons index indices ih =>
    cases shape with
    | nil => cases done
    | cons d shape =>
      unfold constrainShape at done
      split at done
      · cases done
      · split at done
        · cases done
        · obtain ⟨w, rest, _⟩ := Option.map_eq_some_iff.mp done
          rw [List.length_cons, List.length_cons, ih rest]

theorem view_setDims (s : Projection) (q : Path) (a : Dims) :
    (fun r => view r (s.setDims q a)) = fun r => if r = q then (s.sendP q, a.shape) else view r s := by
  funext r
  unfold view
  by_cases same : r = q
  · rw [if_pos same, same, setDims_same]
    rfl
  · rw [if_neg same, setDims_other same]
    rfl

/-- `process_array_indices` looks at one Array and constrains it. -/
theorem compare_view (q : Path) (indices : List Index) (s : Projection) :
    ((Event.compare q indices).run garbage vars s).map (fun s' r => view r s') =
      (constrainShape (s.sendP q) (s.dims q).shape indices).map fun shape r =>
        if r = q then (s.sendP q, shape) else view r s := by
  change (processArrayIndices [] q indices s).toOption.map _ = _
  unfold processArrayIndices
  by_cases count : (s.dims q).shape.length = indices.length
  · have shapes : (constrainDims [] (s.sendP q) (s.dims q) 0 indices).toOption.map Dims.shape =
        (constrainShape (s.sendP q) (s.dims q).shape indices).map ([] ++ ·) :=
      constrainDims_shape rfl rfl count
    rw [if_neg (not_not.mpr count), toOption_bind]
    cases done : (constrainDims [] (s.sendP q) (s.dims q) 0 indices).toOption with
    | none =>
      rw [done] at shapes
      rw [Option.map_eq_none_iff.mp shapes.symm]
      rfl
    | some a =>
      rw [done] at shapes
      obtain ⟨w, same, shape⟩ := Option.map_eq_some_iff.mp shapes.symm
      rw [same, show w = a.shape from shape]
      exact congrArg some (view_setDims s q a)
  · rw [if_pos count]
    cases done : constrainShape (s.sendP q) (s.dims q).shape indices with
    | none => rfl
    | some w => exact absurd (constrainShape_length done) count

theorem reset_view (q : Path) (index : Index) (s : Projection) :
    ((Event.reset q index).run garbage vars s).map (fun s' r => view r s') =
      (resetShape index (s.dims q).shape).map fun shape r =>
        if r = q then (s.sendP q, shape) else view r s := by
  rw [run_reset]
  cases shape : (s.dims q).shape with
  | nil =>
    have none' : (s.dims q).resetConstraint.shape = [] := by
      unfold Dims.resetConstraint
      simp [shape, Dims.setLength]
    unfold Dims.addConstraint
    rw [none']
    rfl
  | cons d rest =>
    have reset : (s.dims q).resetConstraint.shape = resetDimension d :: rest.map resetDimension := by
      rw [ArrayConstraint.resetConstraint_eq (by simp [shape])]
      change (s.dims q).shape.map resetDimension = _
      rw [shape]
      rfl
    have there : (s.dims q).resetConstraint.shape[0]? = some (resetDimension d) := by
      rw [reset]
      rfl
    have added := addConstraint_shape (s.dims q).resetConstraint 0 (resetDimension d) there index
    simp only [resetShape]
    split
    · rename_i refused
      rw [if_pos refused, Option.map_eq_none_iff] at added
      rw [added]
      rfl
    · rename_i fine
      rw [if_neg fine, Option.map_eq_some_iff] at added
      obtain ⟨a, done, set⟩ := added
      rw [reset] at set
      rw [done]
      change some (fun r => view r (s.setDims q a)) = _
      rw [view_setDims, set]
      rfl

/-- Whether `mark` sets the flag at `q`. -/
def marked (garbage : UInt8) (vars : List BaseType) (n : Text) (q : Path) : Bool :=
  (mark garbage vars (fun _ => false) n true).2 q

theorem mark_view (n : Text) (s : Projection) (q : Path) :
    view q (markAll garbage vars n s) =
      (s.sendP q || marked garbage vars n q, (s.dims q).shape) := by
  unfold view markAll marked
  congr 1
  cases found : ddsVar garbage vars n with
  | mk r stack =>
    cases r with
    | none =>
      unfold mark
      simp [found]
    | some r =>
      obtain ⟨p, v⟩ := r
      have there := (ddsVar_found found).there
      rw [Bool.eq_iff_iff, Bool.or_eq_true, mark_true _ found q there, mark_true _ found q there]
      simp

/-- What a step does at a path. -/
def Event.atPath (garbage : UInt8) (vars : List BaseType) (q : Path) : Event → View → Option View
  | .compare r indices, (sent, shape) =>
    if q = r then (constrainShape sent shape indices).map (sent, ·) else some (sent, shape)
  | .reset r index, (sent, shape) =>
    if q = r then (resetShape index shape).map (sent, ·) else some (sent, shape)
  | .mark n, (sent, shape) => some (sent || marked garbage vars n q, shape)

/-- A step that changes one Array, by what it does to its shape. -/
theorem views_of_shape {r : Path} {x : Option Projection} {shape : Option (List Dimension)}
    (views : x.map (fun s' q => view q s') = shape.map fun shape q =>
      if q = r then (s.sendP r, shape) else view q s) :
    (∀ s', x = some s' → ∀ q, (if q = r then shape.map (s.sendP q, ·) else some (view q s)) =
      some (view q s')) ∧ (shape.isSome → x.isSome) := by
  constructor
  · intro s' done q
    rw [done] at views
    obtain ⟨w, same, each⟩ := Option.map_eq_some_iff.mp views.symm
    have here : (if q = r then (s.sendP r, w) else view q s) = view q s' := congrFun each q
    rw [← here, same]
    by_cases target : q = r
    · rw [if_pos target, if_pos target, target]
      rfl
    · rw [if_neg target, if_neg target]
  · intro present
    rw [← Option.isSome_map, ← views, Option.isSome_map] at present
    exact present

/-- A step does at each path what it does there alone. -/
theorem run_view {e : Event} (done : e.run garbage vars s = some s') (q : Path) :
    e.atPath garbage vars q (view q s) = some (view q s') := by
  cases e with
  | compare r indices =>
    have views := (views_of_shape (compare_view r indices s)).1 s' done q
    change (if q = r then (constrainShape (s.sendP q) (s.dims q).shape indices).map (s.sendP q, ·)
      else some (view q s)) = _
    rw [← views]
    by_cases target : q = r
    · subst target
      rfl
    · rw [if_neg target, if_neg target]
  | reset r index =>
    have views := (views_of_shape (reset_view r index s)).1 s' done q
    change (if q = r then (resetShape index (s.dims q).shape).map (s.sendP q, ·)
      else some (view q s)) = _
    rw [← views]
    by_cases target : q = r
    · subst target
      rfl
    · rw [if_neg target, if_neg target]
  | mark n =>
    cases done
    exact congrArg some (mark_view n s q).symm

theorem run_of_views {e : Event} (each : ∀ q, (e.atPath garbage vars q (view q s)).isSome) :
    (e.run garbage vars s).isSome := by
  cases e with
  | compare r indices =>
    apply (views_of_shape (compare_view r indices s)).2
    have here := each r
    unfold Event.atPath view at here
    simpa using here
  | reset r index =>
    apply (views_of_shape (reset_view r index s)).2
    have here := each r
    unfold Event.atPath view at here
    simpa using here
  | mark n => rfl

def atPath (garbage : UInt8) (vars : List BaseType) (q : Path) (events : List Event) (x : View) :
    Option View :=
  events.foldlM (fun x e => e.atPath garbage vars q x) x

theorem runEvents_view {events : List Event}
    (done : runEvents garbage vars events s = some s') (q : Path) :
    atPath garbage vars q events (view q s) = some (view q s') := by
  induction events generalizing s with
  | nil =>
    cases done
    rfl
  | cons e events ih =>
    rw [runEvents_cons] at done
    obtain ⟨s₁, first, rest⟩ := Option.bind_eq_some_iff.mp done
    change (e.atPath garbage vars q (view q s)).bind _ = _
    rw [run_view first q]
    exact ih rest

theorem runEvents_of_views {events : List Event}
    (each : ∀ q, (atPath garbage vars q events (view q s)).isSome) :
    (runEvents garbage vars events s).isSome := by
  induction events generalizing s with
  | nil => rfl
  | cons e events ih =>
    have split (q : Path) : (e.atPath garbage vars q (view q s)).isSome ∧
        ((e.atPath garbage vars q (view q s)).bind
          (atPath garbage vars q events)).isSome := by
      have here := each q
      change ((e.atPath garbage vars q (view q s)).bind _).isSome at here
      refine ⟨?_, here⟩
      exact Option.isSome_of_isSome_bind here
    obtain ⟨s₁, first⟩ := Option.isSome_iff_exists.mp (run_of_views fun q => (split q).1)
    rw [runEvents_cons, first]
    apply ih
    intro q
    have here := (split q).2
    rw [run_view first q] at here
    exact here

/-! ### A clause at a path -/

def hyperslabsEvents (garbage : UInt8) (vars : List BaseType) :
    List (Text × List Index) → Option (List Event)
  | [] => some []
  | (n, indices) :: rest =>
    (hyperslabEvents garbage vars n indices).bind fun events =>
      (hyperslabsEvents garbage vars rest).map (events ++ ·)

/-- The clause, if its name denotes something and its indices are numbers. -/
def clauseEvents (garbage : UInt8) (vars : List BaseType) : ProjClause → Option (List Event)
  | .name token =>
    (name garbage token).toOption.bind fun n =>
      if (ddsVar garbage vars n).1.isSome then some [.mark n] else none
  | .arrayProjection path =>
    (lookedUp garbage path).toOption.bind fun (hyperslabs, n) =>
      (hyperslabsEvents garbage vars hyperslabs).map (· ++ [.mark n])
  | _ => none

/-- What constraints leave as it is. -/
def extents (shape : List Dimension) : List (Int × String) := shape.map fun d => (d.size, d.name)

/-- The shape a step leaves, for an Array of the same extents. -/
def Event.assigns (q : Path) (shape : List Dimension) : Event → Option (List Dimension)
  | .compare r indices => if q = r then constrainShape false shape indices else none
  | .reset r index => if q = r then resetShape index shape else none
  | .mark _ => none

def Event.marks (garbage : UInt8) (vars : List BaseType) (q : Path) : Event → Bool
  | .mark n => marked garbage vars n q
  | _ => false

/-- The last shape of a list of steps. -/
def assigns (q : Path) (shape : List Dimension) : List Event → Option (List Dimension)
  | [] => none
  | e :: events => (assigns q shape events).or (e.assigns q shape)

theorem extents_cons {d d' : Dimension} {shape shape' : List Dimension} :
    extents (d :: shape) = extents (d' :: shape') ↔
      (d.size = d'.size ∧ d.name = d'.name) ∧ extents shape = extents shape' := by
  unfold extents
  rw [List.map_cons, List.map_cons, List.cons.injEq, Prod.mk.injEq]

theorem constrained_same {d d' : Dimension} (size : d.size = d'.size) (name : d.name = d'.name)
    (index : Index) : constrained d index = constrained d' index := by
  unfold constrained constrain lastIndex
  rw [size, name]

theorem rejects_same {d d' : Dimension} (size : d.size = d'.size) (index : Index) :
    rejects d index.start index.stride (lastIndex d index.stop) ↔
      rejects d' index.start index.stride (lastIndex d' index.stop) := by
  unfold rejects lastIndex
  rw [size]

/-- The constraint that is left depends on the extents alone. -/
theorem constrainShape_same {sent : Bool} {shape shape' w : List Dimension}
    {indices : List Index} (same : extents shape = extents shape')
    (done : constrainShape sent shape indices = some w) :
    constrainShape false shape' indices = some w ∧ extents w = extents shape := by
  induction indices generalizing shape shape' w with
  | nil =>
    cases shape with
    | nil =>
      cases done
      cases List.map_eq_nil_iff.mp same.symm
      exact ⟨rfl, rfl⟩
    | cons => cases done
  | cons index indices ih =>
    cases shape with
    | nil => cases done
    | cons d shape =>
      cases shape' with
      | nil => cases same
      | cons d' shape' =>
        obtain ⟨⟨size, name⟩, rest⟩ := extents_cons.mp same
        unfold constrainShape at done
        split at done
        · cases done
        · split at done
          · cases done
          · rename_i fine
            obtain ⟨w', after, whole⟩ := Option.map_eq_some_iff.mp done
            obtain ⟨equal, kept⟩ := ih rest after
            subst whole
            rw [rejects_same size] at fine
            constructor
            · unfold constrainShape
              rw [Bool.false_and, if_neg Bool.false_ne_true, if_neg fine, equal,
                constrained_same size name]
              rfl
            · exact extents_cons.mpr ⟨⟨rfl, rfl⟩, kept⟩

theorem resetDimension_same {d d' : Dimension} (size : d.size = d'.size) (name : d.name = d'.name) :
    resetDimension d = resetDimension d' := by
  unfold resetDimension
  rw [size, name]

theorem reset_map_same {shape shape' : List Dimension} (same : extents shape = extents shape') :
    shape.map resetDimension = shape'.map resetDimension := by
  induction shape generalizing shape' with
  | nil =>
    cases List.map_eq_nil_iff.mp same.symm
    rfl
  | cons d shape ih =>
    cases shape' with
    | nil => cases same
    | cons d' shape' =>
      obtain ⟨⟨size, name⟩, rest⟩ := extents_cons.mp same
      rw [List.map_cons, List.map_cons, ih rest, resetDimension_same size name]

theorem resetShape_same {shape shape' : List Dimension} (same : extents shape = extents shape')
    (index : Index) : resetShape index shape = resetShape index shape' := by
  have equal := reset_map_same same
  cases shape with
  | nil =>
    cases List.map_eq_nil_iff.mp same.symm
    rfl
  | cons d shape =>
    cases shape' with
    | nil => cases same
    | cons d' shape' =>
      rw [List.map_cons, List.map_cons, List.cons.injEq] at equal
      simp only [resetShape]
      rw [equal.1, equal.2]

theorem resetShape_extents {shape w : List Dimension} {index : Index}
    (done : resetShape index shape = some w) : extents w = extents shape := by
  cases shape with
  | nil => cases done
  | cons d shape =>
    simp only [resetShape] at done
    split at done
    · cases done
    · cases done
      apply extents_cons.mpr
      refine ⟨⟨rfl, rfl⟩, ?_⟩
      unfold extents
      rw [List.map_map]
      rfl

theorem Event.assigns_extents {e : Event} {shape w : List Dimension}
    (assigned : e.assigns q shape = some w) : extents w = extents shape := by
  unfold Event.assigns at assigned
  split at assigned
  · split at assigned
    · exact (constrainShape_same rfl assigned).2
    · cases assigned
  · split at assigned
    · exact resetShape_extents assigned
    · cases assigned
  · cases assigned

theorem assigns_extents {events : List Event} {shape w : List Dimension}
    (assigned : assigns q shape events = some w) : extents w = extents shape := by
  induction events with
  | nil => cases assigned
  | cons e events ih =>
    unfold assigns at assigned
    rcases Option.or_eq_some_iff.mp assigned with later | ⟨_, here⟩
    · exact ih later
    · exact e.assigns_extents here

theorem Event.does {e : Event} {sent : Bool} {shape v : List Dimension} {r : View}
    (valid : extents v = extents shape)
    (done : e.atPath garbage vars q (sent, v) = some r) :
    r = (sent || e.marks garbage vars q, (e.assigns q shape).getD v) := by
  cases e with
  | compare p indices =>
    change (if q = p then _ else _) = _ at done
    unfold Event.marks Event.assigns
    rw [Bool.or_false]
    split at done
    · rename_i target
      obtain ⟨w, constrained', rfl⟩ := Option.map_eq_some_iff.mp done
      simp only [if_pos target, (constrainShape_same valid constrained').1, Option.getD_some]
    · rename_i other
      cases done
      simp only [if_neg other, Option.getD_none]
  | reset p index =>
    change (if q = p then _ else _) = _ at done
    unfold Event.marks Event.assigns
    rw [Bool.or_false]
    split at done
    · rename_i target
      obtain ⟨w, reset', rfl⟩ := Option.map_eq_some_iff.mp done
      rw [resetShape_same valid] at reset'
      simp only [if_pos target, reset', Option.getD_some]
    · rename_i other
      cases done
      simp only [if_neg other, Option.getD_none]
  | mark n =>
    cases done
    rfl

theorem atPath_does {events : List Event} {sent : Bool} {shape v : List Dimension} {r : View}
    (valid : extents v = extents shape)
    (done : atPath garbage vars q events (sent, v) = some r) :
    r = (sent || events.any (Event.marks garbage vars q), (assigns q shape events).getD v) := by
  induction events generalizing sent v with
  | nil =>
    cases done
    simp [assigns]
  | cons e events ih =>
    change (e.atPath garbage vars q (sent, v)).bind (atPath garbage vars q events) = _ at done
    obtain ⟨st, first, rest⟩ := Option.bind_eq_some_iff.mp done
    rw [e.does valid first] at rest
    have next : extents ((e.assigns q shape).getD v) = extents shape := by
      cases assigned : e.assigns q shape with
      | none => exact valid
      | some w => exact e.assigns_extents assigned
    rw [ih next rest, List.any_cons, Bool.or_assoc]
    change _ = (_, ((assigns q shape events).or (e.assigns q shape)).getD v)
    cases assigns q shape events <;> rfl

/-- The clauses as marks and assignments at a path. -/
def clausesAt (garbage : UInt8) (vars : List BaseType) (q : Path) (shape : List Dimension) :
    Assignments ProjClause (List Dimension) where
  step c x := (clauseEvents garbage vars c).bind fun events => atPath garbage vars q events x
  valid v := extents v = extents shape
  marks c := ((clauseEvents garbage vars c).getD []).any (Event.marks garbage vars q)
  value c := (clauseEvents garbage vars c).bind (assigns q shape)
  does := by
    intro c sent v r valid done
    obtain ⟨events, is, done⟩ := Option.bind_eq_some_iff.mp done
    rw [is, Option.getD_some, Option.bind_some]
    exact atPath_does valid done
  value_valid := by
    intro c w assigned
    obtain ⟨events, _, assigned⟩ := Option.bind_eq_some_iff.mp assigned
    exact assigns_extents assigned

/-! ### A list of clauses -/

/-- What a clause does to the dataset. -/
def clauseRun (garbage : UInt8) (vars : List BaseType) (c : ProjClause) (s : Projection) :
    Option Projection :=
  (clauseEvents garbage vars c).bind fun events => runEvents garbage vars events s

def outcome (garbage : UInt8) (vars : List BaseType) (clauses : List ProjClause)
    (s : Projection) : Option Projection :=
  clauses.foldlM (fun s c => clauseRun garbage vars c s) s

theorem outcome_view {clauses : List ProjClause}
    (done : outcome garbage vars clauses s = some s') (q : Path) (shape : List Dimension) :
    (clausesAt garbage vars q shape).run clauses (view q s) = some (view q s') := by
  induction clauses generalizing s with
  | nil =>
    cases done
    rfl
  | cons c clauses ih =>
    change (clauseRun garbage vars c s).bind (outcome garbage vars clauses) = _ at done
    obtain ⟨s₁, first, rest⟩ := Option.bind_eq_some_iff.mp done
    obtain ⟨events, is, ran⟩ := Option.bind_eq_some_iff.mp first
    rw [Assignments.run_cons]
    have step : (clausesAt garbage vars q shape).step c (view q s) = some (view q s₁) := by
      change (clauseEvents garbage vars c).bind _ = _
      rw [is]
      exact runEvents_view ran q
    rw [step]
    exact ih rest

theorem outcome_of_views {clauses : List ProjClause} {shape : Path → List Dimension}
    (each : ∀ q, ((clausesAt garbage vars q (shape q)).run clauses (view q s)).isSome) :
    (outcome garbage vars clauses s).isSome := by
  induction clauses generalizing s with
  | nil => rfl
  | cons c clauses ih =>
    have accepted (q : Path) :
        ((clausesAt garbage vars q (shape q)).step c (view q s)).isSome :=
      Option.isSome_of_isSome_bind (each q)
    cases is : clauseEvents garbage vars c with
    | none =>
      have here := accepted []
      change ((clauseEvents garbage vars c).bind _).isSome at here
      rw [is] at here
      cases here
    | some events =>
      have ran : (runEvents garbage vars events s).isSome := by
        apply runEvents_of_views
        intro q
        have here := accepted q
        change ((clauseEvents garbage vars c).bind _).isSome at here
        rw [is] at here
        exact here
      obtain ⟨s₁, done⟩ := Option.isSome_iff_exists.mp ran
      have first : clauseRun garbage vars c s = some s₁ := by
        unfold clauseRun
        rw [is]
        exact done
      change ((clauseRun garbage vars c s).bind (outcome garbage vars clauses)).isSome
      rw [first]
      apply ih
      intro q
      have step : (clausesAt garbage vars q (shape q)).step c (view q s) = some (view q s₁) := by
        change (clauseEvents garbage vars c).bind _ = _
        rw [is]
        exact runEvents_view done q
      have rest := each q
      rw [Assignments.run_cons, step] at rest
      exact rest

/-- Every order raises, or every order leaves the same. -/
theorem outcomes_iff (clauses : List ProjClause) (s : Projection) :
    (∀ clauses', clauses.Perm clauses' →
      (outcome garbage vars clauses' s).map (fun s' q => view q s') =
        (outcome garbage vars clauses s).map fun s' q => view q s') ↔
      (∀ clauses', clauses.Perm clauses' → outcome garbage vars clauses' s = none) ∨
        ∀ q, (clausesAt garbage vars q (s.dims q).shape).Compatible clauses (s.sendP q)
          (s.dims q).shape := by
  have local' (q : Path) := (clausesAt garbage vars q (s.dims q).shape).everyOrder_iff
    (l := clauses) (f := s.sendP q) (v := (s.dims q).shape) rfl
  constructor
  · intro same
    cases first : outcome garbage vars clauses s with
    | none =>
      apply Or.inl
      intro clauses' perm
      have equal := same clauses' perm
      rw [first] at equal
      exact Option.map_eq_none_iff.mp equal
    | some s₁ =>
      apply Or.inr
      intro q
      apply (local' q).mp
      intro clauses' perm
      have equal := same clauses' perm
      rw [first] at equal
      obtain ⟨s₂, done, views⟩ := Option.map_eq_some_iff.mp equal
      have one := outcome_view first q (s.dims q).shape
      have two := outcome_view done q (s.dims q).shape
      have here : view q s₂ = view q s₁ := congrFun views q
      constructor
      · exact Option.isSome_of_eq_some two
      · exact two.trans ((congrArg some here).trans one.symm)
  · intro cases' clauses' perm
    rcases cases' with refused | compatible
    · rw [refused clauses' perm, refused clauses (List.Perm.refl _)]
    · have every (q : Path) := (local' q).mpr (compatible q)
      have one := Option.isSome_iff_exists.mp (outcome_of_views fun q =>
        (every q clauses (List.Perm.refl _)).1)
      have two := Option.isSome_iff_exists.mp (outcome_of_views fun q => (every q clauses' perm).1)
      obtain ⟨s₁, first⟩ := one
      obtain ⟨s₂, second⟩ := two
      rw [first, second]
      apply congrArg some
      funext q
      have here := (every q clauses' perm).2
      have left := outcome_view second q (s.dims q).shape
      have right := outcome_view first q (s.dims q).shape
      exact Option.some.inj (left.symm.trans (here.trans right))

/-! ### The parser -/

variable {st st' : State} {clauses : List ProjClause}

/-- A name, or a name with hyperslabs of Arrays and Grids. -/
def Plain (garbage : UInt8) (vars : List BaseType) : ProjClause → Prop
  | .name _ => True
  | .arrayProjection path => ∀ hyperslabs n, lookedUp garbage path = .ok (hyperslabs, n) →
      ∀ h ∈ hyperslabs, TakesNoRows garbage vars h.1
  | _ => False

def withProjection (st : State) (projection : Projection) : State := { st with projection }

theorem bracket_option (n : Text) (indices : List Index) (st : State) :
    (bracket garbage n indices st).toOption =
      (bracketProjection garbage st.vars n indices st.projection).toOption.join.map
        (withProjection st) := by
  unfold bracket
  rw [toOption_bind]
  cases (bracketProjection garbage st.vars n indices st.projection).toOption with
  | none => rfl
  | some r => cases r <;> rfl

theorem constrainAll_option (hyperslabs : List (Text × List Index)) (st : State)
    (arrays : ∀ h ∈ hyperslabs, TakesNoRows garbage st.vars h.1) :
    (constrainAll garbage hyperslabs st).toOption =
      ((hyperslabsEvents garbage st.vars hyperslabs).bind fun events =>
        runEvents garbage st.vars events st.projection).map (withProjection st) := by
  induction hyperslabs generalizing st with
  | nil => rfl
  | cons h rest ih =>
    obtain ⟨n, indices⟩ := h
    have first := @bracket_option garbage n indices st
    rw [bracketProjection_events (arrays _ List.mem_cons_self)] at first
    change (bracket garbage n indices st >>= constrainAll garbage rest).toOption = _
    rw [toOption_bind, first]
    unfold hyperslabsEvents
    cases hyperslabEvents garbage st.vars n indices with
    | none => rfl
    | some events =>
      simp only [Option.bind_some, Option.bind_map]
      cases ran : runEvents garbage st.vars events st.projection with
      | none =>
        cases hyperslabsEvents garbage st.vars rest with
        | none => rfl
        | some more =>
          change none = (runEvents garbage st.vars (events ++ more) st.projection).map _
          rw [runEvents_append, ran]
          rfl
      | some s₁ =>
        have later := ih (withProjection st s₁) fun h mem => arrays h (List.mem_cons_of_mem _ mem)
        change (constrainAll garbage rest (withProjection st s₁)).toOption = _
        rw [later]
        change ((hyperslabsEvents garbage st.vars rest).bind _).map _ = _
        cases hyperslabsEvents garbage st.vars rest with
        | none => rfl
        | some more =>
          change _ = (runEvents garbage st.vars (events ++ more) st.projection).map _
          rw [runEvents_append, ran]
          rfl

theorem arrayProjClause_option (path : ArrayClause) (st : State) :
    (arrayProjClause garbage path st).toOption =
      (lookedUp garbage path).toOption.bind fun (hyperslabs, n) =>
        (constrainAll garbage hyperslabs st).toOption.map fun st' => (n, st') := by
  induction path with
  | indices token indices =>
    unfold arrayProjClause lookedUp
    cases name garbage token with
    | error e => rfl
    | ok n =>
      cases arrayIndices indices with
      | error e => rfl
      | ok list =>
        change (bracket garbage n list st >>= fun s => pure (Words.cut n, s)).toOption =
          (bracket garbage n list st >>= pure).toOption.map _
        cases bracket garbage n list st <;> rfl
  | field c token ih =>
    unfold arrayProjClause lookedUp
    rw [toOption_bind, ih, toOption_bind]
    cases (lookedUp garbage c).toOption with
    | none => rfl
    | some r =>
      obtain ⟨hyperslabs, before⟩ := r
      simp only [Option.bind_some]
      cases name garbage token with
      | error e => cases constrainAll garbage hyperslabs st <;> rfl
      | ok n =>
        change _ = (constrainAll garbage hyperslabs st).toOption.map _
        cases constrainAll garbage hyperslabs st <;> rfl
  | fieldIndices c token indices ih =>
    unfold arrayProjClause lookedUp
    rw [toOption_bind, ih, toOption_bind]
    cases (lookedUp garbage c).toOption with
    | none => rfl
    | some r =>
      obtain ⟨hyperslabs, before⟩ := r
      simp only [Option.bind_some]
      cases name garbage token with
      | error e => cases constrainAll garbage hyperslabs st <;> rfl
      | ok n =>
        cases arrayIndices indices with
        | error e => cases constrainAll garbage hyperslabs st <;> rfl
        | ok list =>
          have last : constrainAll garbage (hyperslabs ++ [(before ++ n, list)]) st =
              (constrainAll garbage hyperslabs st >>= fun st =>
                bracket garbage (before ++ n) list st >>= pure) := List.foldlM_append
          change _ = (constrainAll garbage (hyperslabs ++ [(before ++ n, list)]) st).toOption.map _
          rw [last, toOption_bind]
          cases constrainAll garbage hyperslabs st with
          | error e => rfl
          | ok st₁ =>
            change (bracket garbage (before ++ n) list st₁ >>= fun s =>
              pure (Words.cut (before ++ n), s)).toOption =
                (bracket garbage (before ++ n) list st₁ >>= pure).toOption.map _
            cases bracket garbage (before ++ n) list st₁ <;> rfl

theorem runEvents_mark (events : List Event) (n : Text) (s : Projection) :
    runEvents garbage vars (events ++ [.mark n]) s =
      (runEvents garbage vars events s).map (markAll garbage vars n) := by
  rw [runEvents_append]
  cases runEvents garbage vars events s <;> rfl

theorem effect_option {c : ProjClause} (plain : Plain garbage st.vars c) :
    (effect garbage env st c).toOption =
      (clauseRun garbage st.vars c st.projection).map (withProjection st) := by
  cases c with
  | function | constantArray => exact plain.elim
  | name token =>
    have whole : effect garbage env st (.name token) = (name garbage token >>= fun n =>
        if (ddsVar garbage st.vars n).1.isSome then .ok (markName garbage n st)
        else .error (noSuchIdent n "identifier")) := by
      simp only [effect, projClause]
      cases name garbage token with
      | error e => rfl
      | ok n =>
        change Except.map Prod.snd (if _ then _ else _) = if _ then _ else _
        split <;> rfl
    rw [whole, toOption_bind]
    simp only [clauseRun, clauseEvents]
    cases (name garbage token).toOption with
    | none => rfl
    | some n =>
      simp only [Option.bind_some]
      split <;> rfl
  | arrayProjection path =>
    have parts := @arrayProjClause_option garbage path st
    have whole : (effect garbage env st (.arrayProjection path)).toOption =
        (arrayProjClause garbage path st).toOption.map fun r => markName garbage r.1 r.2 := by
      simp only [effect, projClause]
      cases arrayProjClause garbage path st <;> rfl
    rw [whole, parts]
    simp only [clauseRun, clauseEvents]
    cases looked : lookedUp garbage path with
    | error e => rfl
    | ok r =>
      obtain ⟨hyperslabs, n⟩ := r
      have all := constrainAll_option hyperslabs st (plain hyperslabs n looked)
      change ((constrainAll garbage hyperslabs st).toOption.map fun st' => (n, st')).map _ =
        (((hyperslabsEvents garbage st.vars hyperslabs).map _).bind _).map _
      rw [all]
      cases hyperslabsEvents garbage st.vars hyperslabs with
      | none => rfl
      | some events =>
        change _ = (runEvents garbage st.vars (events ++ [.mark n]) st.projection).map _
        rw [runEvents_mark, Option.bind_some]
        cases runEvents garbage st.vars events st.projection <;> rfl

theorem plain_ordinary {c : ProjClause} (plain : Plain garbage vars c) : Ordinary c := by
  intro form same
  subst same
  exact plain

theorem effects_option (plain : ∀ c ∈ clauses, Plain garbage st.vars c) :
    (effects garbage env clauses st).toOption =
      (outcome garbage st.vars clauses st.projection).map (withProjection st) := by
  induction clauses generalizing st with
  | nil => rfl
  | cons c clauses ih =>
    change (effect garbage env st c >>= effects garbage env clauses).toOption =
      ((clauseRun garbage st.vars c st.projection).bind
        (outcome garbage st.vars clauses)).map _
    rw [toOption_bind, effect_option (plain c List.mem_cons_self)]
    cases clauseRun garbage st.vars c st.projection with
    | none => rfl
    | some s₁ =>
      have rest : ∀ c ∈ clauses, Plain garbage (withProjection st s₁).vars c :=
        fun c mem => plain c (List.mem_cons_of_mem _ mem)
      exact ih rest

theorem parseConstraint_option (nonempty : clauses ≠ [])
    (plain : ∀ c ∈ clauses, Plain garbage st.vars c) :
    (parseConstraint garbage env ⟨clauses, []⟩ st).toOption =
      (outcome garbage st.vars clauses st.projection).map (withProjection st) := by
  rw [parseConstraint_nonempty nonempty,
    projection_ordinary fun c mem => plain_ordinary (plain c mem), ← effects_option plain]
  cases effects garbage env clauses st <;> rfl

/-- Every order of the clauses raises an exception or none does, and then the flags and the
shapes are the same. -/
def OrderIrrelevant (garbage : UInt8) (env : Environment) (clauses : List ProjClause)
    (st : State) : Prop :=
  ∀ clauses', clauses.Perm clauses' →
    ((∃ st', parseConstraint garbage env ⟨clauses', []⟩ st = .ok st') ↔
      ∃ st', parseConstraint garbage env ⟨clauses, []⟩ st = .ok st') ∧
    ∀ st₁ st₂, parseConstraint garbage env ⟨clauses, []⟩ st = .ok st₁ →
      parseConstraint garbage env ⟨clauses', []⟩ st = .ok st₂ →
        ∀ q, st₂.projection.sendP q = st₁.projection.sendP q ∧
          (st₂.projection.dims q).shape = (st₁.projection.dims q).shape

/-- No order is accepted, or the clauses go together at every variable. -/
def GoTogether (garbage : UInt8) (env : Environment) (clauses : List ProjClause)
    (st : State) : Prop :=
  (∀ clauses', clauses.Perm clauses' →
    ¬ ∃ st', parseConstraint garbage env ⟨clauses', []⟩ st = .ok st') ∨
  ∀ q, (clausesAt garbage st.vars q (st.projection.dims q).shape).Compatible clauses
    (st.projection.sendP q) (st.projection.dims q).shape

theorem toOption_eq_some {ε α : Type} {x : Except ε α} {a : α} :
    x.toOption = some a ↔ x = .ok a := by
  cases x with
  | error e => simp [Except.toOption]
  | ok b => simp [Except.toOption]

/-- A list with the same clauses in another order is parsed in the same way. -/
theorem parseConstraint_perm (nonempty : clauses ≠ [])
    (plain : ∀ c ∈ clauses, Plain garbage st.vars c) {clauses' : List ProjClause}
    (perm : clauses.Perm clauses') :
    (parseConstraint garbage env ⟨clauses', []⟩ st).toOption =
      (outcome garbage st.vars clauses' st.projection).map (withProjection st) := by
  have nonempty' : clauses' ≠ [] := by
    rintro rfl
    exact nonempty perm.eq_nil
  have plain' : ∀ c ∈ clauses', Plain garbage st.vars c :=
    fun c mem => plain c (perm.mem_iff.mpr mem)
  exact parseConstraint_option nonempty' plain'

/-- The property, by what the clauses do to the flags and the shapes. -/
theorem orderIrrelevant_views (nonempty : clauses ≠ [])
    (plain : ∀ c ∈ clauses, Plain garbage st.vars c) :
    OrderIrrelevant garbage env clauses st ↔ ∀ clauses', clauses.Perm clauses' →
      (outcome garbage st.vars clauses' st.projection).map (fun s' q => view q s') =
        (outcome garbage st.vars clauses st.projection).map fun s' q => view q s' := by
  apply forall_congr'
  intro clauses'
  apply imp_congr_right
  intro perm
  have one := @parseConstraint_option garbage env st clauses nonempty plain
  have two := @parseConstraint_perm garbage env st clauses nonempty plain clauses' perm
  simp only [← toOption_eq_some, one, two]
  cases outcome garbage st.vars clauses st.projection with
  | none =>
    cases outcome garbage st.vars clauses' st.projection with
    | none => simp
    | some s₂ => simp
  | some s₁ =>
    cases outcome garbage st.vars clauses' st.projection with
    | none => simp
    | some s₂ =>
      simp only [Option.map_some, Option.some.injEq, exists_eq', true_and]
      constructor
      · intro same
        funext q
        have here := same _ _ rfl rfl q
        exact Prod.ext here.1 here.2
      · rintro same _ _ rfl rfl q
        have here := congrFun same q
        exact ⟨congrArg Prod.fst here, congrArg Prod.snd here⟩

/-- For every dataset and every list of names and hyperslabs of Arrays and Grids. -/
theorem orderIrrelevant_iff (garbage : UInt8) (env : Environment) (clauses : List ProjClause)
    (st : State) (nonempty : clauses ≠ []) (plain : ∀ c ∈ clauses, Plain garbage st.vars c) :
    OrderIrrelevant garbage env clauses st ↔ GoTogether garbage env clauses st := by
  rw [orderIrrelevant_views nonempty plain, outcomes_iff]
  apply or_congr_left
  apply forall_congr'
  intro clauses'
  apply imp_congr_right
  intro perm
  have parsed := @parseConstraint_perm garbage env st clauses nonempty plain clauses' perm
  simp only [← toOption_eq_some, parsed]
  cases outcome garbage st.vars clauses' st.projection <;> simp

/-! An Array of three values. -/

def oneArray : List BaseType := [.vector [120] (.simple [120])]

def unprojected : State where
  vars := oneArray
  projection :=
    { sendP := fun _ => false, dims := fun _ => fresh.appendDim 3 "", rows := fun _ => none }
  inSelection := fun _ => false
  clauses := []
  counter := 1

def wholeArray : ProjClause := .name (.word [120])

/-- `x[0:1]`. -/
def twoValues : ProjClause := .arrayProjection (.indices (.word [120]) [.two [48] (.word [49])])

theorem oneArray_found :
    ddsVar 0 oneArray [120] = (some ([0], .vector [120] (.simple [120])), []) := by
  have unescaped : www2id 0 [120] = [120] := by decide
  rw [ddsVar, unescaped, ddsExactMatch_eq]
  rfl

theorem twoValues_lookedUp : lookedUp 0 (.indices (.word [120]) [.two [48] (.word [49])]) =
    .ok ([([120], [⟨0, 1, 1⟩])], [120]) := by
  rfl

theorem oneArray_plain : ∀ c ∈ [twoValues, wholeArray], Plain 0 unprojected.vars c := by
  intro c mem
  rcases List.mem_cons.mp mem with rfl | mem
  · intro hyperslabs n looked h mem
    cases twoValues_lookedUp.symm.trans looked
    cases List.mem_singleton.mp mem
    unfold TakesNoRows
    rw [show unprojected.vars = oneArray from rfl, oneArray_found]
    trivial
  · cases List.mem_singleton.mp mem
    trivial

/-- `x[0:1],x[0:1]`. -/
theorem orderIrrelevant_iff_twice : GoTogether 0 noFunctions [twoValues, twoValues] unprojected := by
  have plain : ∀ c ∈ [twoValues, twoValues], Plain 0 unprojected.vars c := by
    intro c mem
    have same : c = twoValues := by simpa using mem
    exact same ▸ oneArray_plain twoValues List.mem_cons_self
  refine (orderIrrelevant_iff 0 noFunctions [twoValues, twoValues] unprojected (by simp)
    plain).mp ?_
  intro clauses' perm
  have twice : clauses'.Perm (List.replicate 2 twoValues) := perm.symm
  obtain rfl := List.perm_replicate.mp twice
  refine ⟨Iff.rfl, fun st₁ st₂ first later q => ?_⟩
  cases first.symm.trans later
  exact ⟨rfl, rfl⟩

theorem wholeArray_events : clauseEvents 0 oneArray wholeArray = some [.mark [120]] := by
  have named : (name 0 (.word [120])).toOption = some [120] := rfl
  simp only [clauseEvents, wholeArray, named, Option.bind_some, oneArray_found]
  rfl

theorem twoValues_events : clauseEvents 0 oneArray twoValues =
    some [.compare [0] [⟨0, 1, 1⟩], .mark [120]] := by
  simp only [clauseEvents, twoValues, twoValues_lookedUp, Except.toOption, Option.bind_some,
    hyperslabsEvents, hyperslabEvents, oneArray_found]
  rfl

/-- `x[0:1],x` is accepted, `x,x[0:1]` is not. -/
theorem orderIrrelevant_fails :
    ¬ OrderIrrelevant 0 noFunctions [twoValues, wholeArray] unprojected := by
  intro irrelevant
  have views := (orderIrrelevant_views (by simp) oneArray_plain).mp irrelevant
    [wholeArray, twoValues] (List.Perm.swap _ _ _)
  have accepted : (outcome 0 oneArray [twoValues, wholeArray] unprojected.projection).isSome := by
    unfold outcome
    simp only [List.foldlM_cons, List.foldlM_nil, clauseRun, twoValues_events, wholeArray_events,
      Option.bind_some]
    rfl
  have sent : (markAll 0 oneArray [120] unprojected.projection).sendP [0] = true := by
    unfold markAll mark
    rw [oneArray_found]
    rfl
  have compared : processArrayIndices [] [0] [⟨0, 1, 1⟩]
      (markAll 0 oneArray [120] unprojected.projection) = .error (malformed
        "The Array was already projected differently in the constraint expression: " [] ".") := by
    unfold processArrayIndices
    rw [sent]
    rfl
  have refused : outcome 0 oneArray [wholeArray, twoValues] unprojected.projection = none := by
    unfold outcome
    simp only [List.foldlM_cons, List.foldlM_nil, clauseRun, twoValues_events, wholeArray_events,
      Option.bind_some]
    change ((processArrayIndices [] [0] [⟨0, 1, 1⟩]
      (markAll 0 oneArray [120] unprojected.projection)).toOption.bind _).bind _ = none
    rw [compared]
    rfl
  have none' : unprojected.vars = oneArray := rfl
  rw [none', refused] at views
  rw [Option.map_eq_none_iff.mp views.symm] at accepted
  cases accepted

end Libdap.Guarantees.ClauseOrder
