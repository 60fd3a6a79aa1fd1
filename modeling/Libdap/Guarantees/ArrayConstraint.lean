import Libdap.Library.Runs
import Libdap.Library.Strided
import Libdap.Source.Array

/-!
# The constraint invariant of Array

Every dimension selects the indices its constraint names and the cached length
is the product of the selected sizes. `add_constraint` breaks this when it lets
a start below zero or above the stop through, `clear_all_dims` because it keeps
the old length, and `reset_constraint` on an Array that has no dimension. No
other call does.
-/
namespace Libdap.Guarantees.ArrayConstraint
open Libdap.Library
open Libdap.Source.Array

structure WellFormed (d : Dimension) : Prop where
  start_nonneg : 0 ≤ d.start
  ordered : d.start ≤ d.stop
  stop_lt : d.stop < d.size
  stride_pos : 1 ≤ d.stride
  selected : d.cSize = (Strided.indices d.start d.stride d.stop).card
  bounds : 1 ≤ d.cSize ∧ d.cSize ≤ d.size

structure Invariant (a : Dims) : Prop where
  dimensions : ∀ d ∈ a.shape, WellFormed d
  length : a.length = (a.shape.map Dimension.cSize).prod

/-- The calls a caller may make: sizes of at least one, iterators of this shape,
and an element count that is an `int`. -/
def Admissible (a : Dims) : Call → Prop
  | .appendDim size _ | .prependDim size _ =>
      1 ≤ size ∧ size * (a.shape.map Dimension.size).prod < 2 ^ 31
  | .addConstraint i _ _ _ => i < a.shape.length
  | .resetConstraint | .clearAllDims => True

/-- The calls that keep the invariant, told from the state they are made in. -/
def Sound (a : Dims) : Call → Prop
  | .appendDim _ _ | .prependDim _ _ => True
  | .addConstraint i start stride stop => ∀ d ∈ a.shape[i]?,
      rejects d start stride (lastIndex d stop) ∨ 0 ≤ start ∧ start ≤ lastIndex d stop
  | .resetConstraint => a.shape ≠ []
  | .clearAllDims => a.length = 1

theorem int32_eq {n : Int} (low : -2 ^ 31 ≤ n) (high : n < 2 ^ 31) : int32 n = n := by
  unfold int32
  rw [BitVec.toInt_ofInt]
  exact Int.bmod_eq_of_le (by norm_num; omega) (by norm_num; omega)

theorem wellFormed_of_count {d : Dimension} (nonneg : 0 ≤ d.start) (ordered : d.start ≤ d.stop)
    (below : d.stop < d.size) (stride : 1 ≤ d.stride)
    (count : d.cSize = (d.stop - d.start) / d.stride + 1) : WellFormed d := by
  have positive : 0 < d.stride := by omega
  have quotient_nonneg : 0 ≤ (d.stop - d.start) / d.stride :=
    Int.ediv_nonneg (by omega) (by omega)
  have quotient_le : (d.stop - d.start) / d.stride ≤ d.stop - d.start :=
    Int.ediv_le_self _ (by omega)
  have card := Strided.card_indices positive ordered
  exact ⟨nonneg, ordered, below, stride, by rw [count, card], by omega⟩

theorem one_le_prod {values : List Int} (positive : ∀ v ∈ values, 1 ≤ v) : 1 ≤ values.prod := by
  induction values with
  | nil => simp
  | cons v values ih =>
    have head := positive v (List.mem_cons_self ..)
    have tail := ih fun w member => positive w (List.mem_cons_of_mem _ member)
    rw [List.prod_cons]
    exact one_le_mul_of_one_le_of_one_le head tail

/-- The fold of `update_length` does not overflow where the whole array does not. -/
theorem constrainedLength_from (shape : List Dimension) (acc : Int)
    (bounds : ∀ d ∈ shape, 1 ≤ d.cSize ∧ d.cSize ≤ d.size) (positive : 1 ≤ acc)
    (fits : acc * (shape.map Dimension.size).prod < 2 ^ 31) :
    shape.foldl (fun length d => int32 (length * if 0 < d.cSize then d.cSize else 1)) acc =
      acc * (shape.map Dimension.cSize).prod := by
  induction shape generalizing acc with
  | nil => simp
  | cons d shape ih =>
    obtain ⟨some_selected, at_most⟩ := bounds d (List.mem_cons_self ..)
    have later : ∀ d ∈ shape, 1 ≤ d.cSize ∧ d.cSize ≤ d.size :=
      fun d member => bounds d (List.mem_cons_of_mem _ member)
    have rest : 1 ≤ (shape.map Dimension.size).prod := by
      apply one_le_prod
      intro v member
      obtain ⟨e, mem, rfl⟩ := List.mem_map.mp member
      have := later e mem
      omega
    rw [List.map_cons, List.prod_cons, ← mul_assoc] at fits
    have grow : acc * d.cSize ≤ acc * d.size := Int.mul_le_mul_of_nonneg_left at_most (by omega)
    have one_le : 1 ≤ acc * d.cSize := one_le_mul_of_one_le_of_one_le positive some_selected
    have bound : acc * d.cSize * (shape.map Dimension.size).prod < 2 ^ 31 :=
      Int.lt_of_le_of_lt (Int.mul_le_mul_of_nonneg_right grow (by omega)) fits
    have small : acc * d.cSize < 2 ^ 31 :=
      Int.lt_of_le_of_lt (le_mul_of_one_le_right (by omega) rest) bound
    have counted : (if 0 < d.cSize then d.cSize else 1) = d.cSize := if_pos (by omega)
    rw [List.foldl_cons, counted, int32_eq (by omega) small, ih _ later one_le bound,
      List.map_cons, List.prod_cons, mul_assoc]

theorem constrainedLength_eq {shape : List Dimension} (wellFormed : ∀ d ∈ shape, WellFormed d)
    (fits : (shape.map Dimension.size).prod < 2 ^ 31) :
    constrainedLength shape = (shape.map Dimension.cSize).prod := by
  have fold := constrainedLength_from shape 1 (fun d member => (wellFormed d member).bounds)
    (by decide) (by rwa [one_mul])
  rw [one_mul] at fold
  exact fold

/-- After `update_length` the invariant is a matter of the dimensions alone. -/
theorem invariant_updateLength {a : Dims}
    (fits : (a.updateLength.shape.map Dimension.size).prod < 2 ^ 31) :
    Invariant a.updateLength ↔ ∀ d ∈ a.shape, WellFormed d := by
  constructor
  · intro invariant
    exact invariant.dimensions
  · intro wellFormed
    exact ⟨wellFormed, constrainedLength_eq wellFormed fits⟩

theorem newDimension_wellFormed {size : Int} (name : String) (positive : 1 ≤ size)
    (small : size < 2 ^ 31) : WellFormed (newDimension size name) := by
  have last : int32 (size - 1) = size - 1 := int32_eq (by omega) (by omega)
  exact wellFormed_of_count (Int.le_refl 0) (by simp only [newDimension, last]; omega)
    (by simp only [newDimension, last]; omega) (Int.le_refl 1) (by simp [newDimension, last])

theorem resetDimension_wellFormed {d : Dimension} (positive : 1 ≤ d.size)
    (small : d.size < 2 ^ 31) : WellFormed (resetDimension d) := by
  have last : int32 (d.size - 1) = d.size - 1 := int32_eq (by omega) (by omega)
  exact wellFormed_of_count (Int.le_refl 0) (by simp only [resetDimension, last]; omega)
    (by simp only [resetDimension, last]; omega) (Int.le_refl 1) (by simp [resetDimension, last])

/-- A constraint that passes the two tests is well formed if its start is. -/
theorem constrain_wellFormed_iff {d : Dimension} {start stride stop : Int}
    (small : d.size < 2 ^ 31) (accepted : ¬ rejects d start stride stop) :
    WellFormed (constrain d start stride stop) ↔ 0 ≤ start ∧ start ≤ stop := by
  simp only [rejects, not_or, not_le, not_lt] at accepted
  constructor
  · intro wellFormed
    exact ⟨wellFormed.start_nonneg, wellFormed.ordered⟩
  · rintro ⟨nonneg, ordered⟩
    have difference : int32 (stop - start) = stop - start := int32_eq (by omega) (by omega)
    have quotient : (stop - start).tdiv stride = (stop - start) / stride :=
      Int.tdiv_eq_ediv_of_nonneg (by omega)
    have quotient_nonneg : 0 ≤ (stop - start) / stride := Int.ediv_nonneg (by omega) (by omega)
    have quotient_le : (stop - start) / stride ≤ stop - start := Int.ediv_le_self _ (by omega)
    apply wellFormed_of_count
    · exact nonneg
    · exact ordered
    · exact accepted.2.1
    · exact accepted.2.2.2.1
    · simp only [constrain, difference, quotient]
      exact int32_eq (by omega) (by omega)

theorem modify_at_take (f : Dimension → Dimension) {l : List Dimension} {n : Nat}
    (h : n < l.length) :
    ((l.take n).map f ++ l.drop n).modify n f = (l.take (n + 1)).map f ++ l.drop (n + 1) := by
  induction l generalizing n with
  | nil => simp at h
  | cons d l ih =>
    cases n with
    | zero => simp
    | succ n => simpa using ih (by simpa using h)

/-- `reset_constraint` resets every dimension; only the turns of its loop set the length. -/
theorem resetConstraint_eq {a : Dims} (dimensions : a.shape ≠ []) :
    a.resetConstraint = { a with shape := a.shape.map resetDimension }.updateLength := by
  have turns : ∀ n, n + 1 ≤ a.shape.length →
      (List.range (n + 1)).foldl Dims.resetAt (a.setLength (-1)) =
        { a with
          shape := (a.shape.take (n + 1)).map resetDimension ++ a.shape.drop (n + 1)
        }.updateLength := by
    intro n
    induction n with
    | zero =>
      intro room
      have first := modify_at_take resetDimension (l := a.shape) (n := 0) (by omega)
      simp only [List.take_zero, List.map_nil, List.drop_zero, List.nil_append] at first
      simp [Dims.resetAt, Dims.setLength, Dims.updateLength, first]
    | succ n ih =>
      intro room
      have next := modify_at_take resetDimension (l := a.shape) (n := n + 1) (by omega)
      rw [List.range_succ, List.foldl_append, ih (by omega)]
      simp only [List.foldl_cons, List.foldl_nil, Dims.resetAt, Dims.setLength,
        Dims.updateLength, next]
  obtain ⟨n, size⟩ : ∃ n, a.shape.length = n + 1 :=
    Nat.exists_eq_succ_of_ne_zero (by simpa using dimensions)
  have all := turns n (Nat.le_of_eq size.symm)
  rw [← size, List.take_length, List.drop_length, List.append_nil] at all
  exact all

/-- The states a run goes through as long as the invariant holds. A fresh Array has
no dimension and a length of minus one. -/
structure Ready (a : Dims) : Prop where
  dimensions : ∀ d ∈ a.shape, WellFormed d
  fits : (a.shape.map Dimension.size).prod < 2 ^ 31
  length : a.shape ≠ [] → a.length = (a.shape.map Dimension.cSize).prod

theorem Ready.sizes_pos {a : Dims} (ready : Ready a) : ∀ v ∈ a.shape.map Dimension.size, 1 ≤ v := by
  intro v member
  obtain ⟨d, inside, rfl⟩ := List.mem_map.mp member
  have := (ready.dimensions d inside).bounds
  omega

theorem Ready.size_lt {a : Dims} (ready : Ready a) {d : Dimension} (member : d ∈ a.shape) :
    1 ≤ d.size ∧ d.size < 2 ^ 31 := by
  have sizes := ready.sizes_pos
  obtain ⟨before, after, split⟩ := List.append_of_mem member
  have fits := ready.fits
  rw [split, List.map_append, List.map_cons, List.prod_append, List.prod_cons] at fits
  rw [split, List.map_append, List.map_cons] at sizes
  have front := one_le_prod fun v mem => sizes v (List.mem_append_left _ mem)
  have back := one_le_prod fun v mem =>
    sizes v (List.mem_append_right _ (List.mem_cons_of_mem _ mem))
  have here : 1 ≤ d.size := sizes _ (by simp)
  refine ⟨here, Int.lt_of_le_of_lt ?_ fits⟩
  have inner : 1 ≤ d.size * (after.map Dimension.size).prod :=
    one_le_mul_of_one_le_of_one_le here back
  calc d.size ≤ d.size * (after.map Dimension.size).prod :=
        le_mul_of_one_le_right (by omega) back
    _ ≤ (before.map Dimension.size).prod * (d.size * (after.map Dimension.size).prod) :=
        le_mul_of_one_le_left (by omega) front

theorem Ready.new_size_lt {a : Dims} (ready : Ready a) {size : Int} (positive : 1 ≤ size)
    (fits : size * (a.shape.map Dimension.size).prod < 2 ^ 31) : size < 2 ^ 31 :=
  Int.lt_of_le_of_lt (le_mul_of_one_le_right (by omega) (one_le_prod ready.sizes_pos)) fits

theorem Ready.of_invariant {a : Dims} (invariant : Invariant a)
    (fits : (a.shape.map Dimension.size).prod < 2 ^ 31) : Ready a :=
  ⟨invariant.dimensions, fits, fun _ => invariant.length⟩

theorem fresh_ready : Ready fresh := ⟨by simp [fresh], by decide, by simp [fresh]⟩

theorem set_sizes {shape : List Dimension} {i : Nat} {d e : Dimension} (at_i : shape[i]? = some d)
    (same : e.size = d.size) : (shape.set i e).map Dimension.size = shape.map Dimension.size := by
  induction shape generalizing i with
  | nil => simp at at_i
  | cons first shape ih =>
    cases i with
    | zero =>
      cases at_i
      rw [List.set_cons_zero, List.map_cons, List.map_cons, same]
    | succ i => rw [List.set_cons_succ, List.map_cons, List.map_cons, ih at_i]

/-- The unconstrained sizes change only with the number of dimensions. -/
theorem call_fits {a : Dims} {c : Call} (ready : Ready a) (admissible : Admissible a c) :
    ((call a c).shape.map Dimension.size).prod < 2 ^ 31 := by
  cases c with
  | appendDim size name =>
    have fits := admissible.2
    simp only [call, Dims.appendDim, Dims.updateLength, Dims.setLength, List.map_append,
      List.map_singleton, List.prod_append, List.prod_singleton, newDimension]
    rwa [mul_comm]
  | prependDim size name =>
    simpa only [call, Dims.prependDim, Dims.updateLength, Dims.setLength, List.map_cons,
      List.prod_cons, newDimension] using admissible.2
  | addConstraint i start stride stop =>
    have fits := ready.fits
    cases at_i : a.shape[i]? with
    | none => simpa only [call, Dims.addConstraint, at_i] using fits
    | some d =>
      by_cases rejected : rejects d start stride (lastIndex d stop)
      · simpa only [call, Dims.addConstraint, at_i, if_pos rejected] using fits
      · simp only [call, Dims.addConstraint, at_i, if_neg rejected, Dims.updateLength,
          Dims.setLength]
        rwa [set_sizes at_i (show (constrain d start stride (lastIndex d stop)).size = _ from rfl)]
  | resetConstraint =>
    by_cases none : a.shape = []
    · simp [call, Dims.resetConstraint, Dims.setLength, none]
    · have fits := ready.fits
      simp only [call, resetConstraint_eq none, Dims.updateLength, Dims.setLength, List.map_map]
      exact fits
  | clearAllDims =>
    simp [call, Dims.clearAllDims]

theorem addConstraint_invariant_iff {a : Dims} (ready : Ready a) {i : Nat} {d : Dimension}
    (at_i : a.shape[i]? = some d) (start stride stop : Int) :
    Invariant (call a (.addConstraint i start stride stop)) ↔
      rejects d start stride (lastIndex d stop) ∨ 0 ≤ start ∧ start ≤ lastIndex d stop := by
  have member : d ∈ a.shape := List.mem_of_getElem? at_i
  by_cases rejected : rejects d start stride (lastIndex d stop)
  · have unchanged : call a (.addConstraint i start stride stop) = a := by
      simp only [call, Dims.addConstraint, at_i, if_pos rejected]
    have invariant : Invariant a := ⟨ready.dimensions, ready.length (List.ne_nil_of_mem member)⟩
    rw [unchanged]
    exact iff_of_true invariant (Or.inl rejected)
  · have after : call a (.addConstraint i start stride stop) =
        { a with shape := a.shape.set i (constrain d start stride (lastIndex d stop))
        }.updateLength := by
      simp only [call, Dims.addConstraint, at_i, if_neg rejected]
    have fits := call_fits (c := .addConstraint i start stride stop) ready
      (List.getElem?_eq_some_iff.mp at_i).1
    rw [after] at fits ⊢
    have small := (ready.size_lt member).2
    rw [invariant_updateLength fits, or_iff_right rejected,
      ← constrain_wellFormed_iff small rejected]
    constructor
    · intro wellFormed
      exact wellFormed _ (List.mem_set (List.getElem?_eq_some_iff.mp at_i).1 _)
    · intro constrained e mem
      rcases List.mem_or_eq_of_mem_set mem with old | rfl
      · exact ready.dimensions e old
      · exact constrained

/-- One step: the invariant holds after a call if and only if the call is sound. -/
theorem call_invariant_iff {a : Dims} {c : Call} (ready : Ready a)
    (admissible : Admissible a c) : Invariant (call a c) ↔ Sound a c := by
  have fits := call_fits ready admissible
  cases c with
  | appendDim size name =>
    have small := ready.new_size_lt admissible.1 admissible.2
    refine iff_of_true ((invariant_updateLength fits).mpr ?_) trivial
    intro d member
    rcases List.mem_append.mp member with old | new
    · exact ready.dimensions d old
    · rw [List.mem_singleton.mp new]
      exact newDimension_wellFormed name admissible.1 small
  | prependDim size name =>
    have small := ready.new_size_lt admissible.1 admissible.2
    refine iff_of_true ((invariant_updateLength fits).mpr ?_) trivial
    intro d member
    rcases List.mem_cons.mp member with rfl | old
    · exact newDimension_wellFormed name admissible.1 small
    · exact ready.dimensions d old
  | addConstraint i start stride stop =>
    have at_i : a.shape[i]? = some a.shape[i] := List.getElem?_eq_getElem admissible
    simp only [addConstraint_invariant_iff ready at_i, Sound, at_i, Option.mem_some_iff,
      forall_eq']
  | resetConstraint =>
    by_cases none : a.shape = []
    · refine iff_of_false ?_ (fun sound => sound none)
      intro invariant
      have length := invariant.length
      simp [call, Dims.resetConstraint, Dims.setLength, none] at length
    · rw [call, resetConstraint_eq none] at fits ⊢
      refine iff_of_true ((invariant_updateLength fits).mpr ?_) none
      intro d member
      obtain ⟨old, mem, rfl⟩ := List.mem_map.mp member
      exact resetDimension_wellFormed (ready.size_lt mem).1 (ready.size_lt mem).2
  | clearAllDims =>
    constructor
    · intro invariant
      exact invariant.length
    · intro length
      exact ⟨by simp [call, Dims.clearAllDims], length⟩

/-- Over a whole run from a fresh Array, the invariant holds after each call if and
only if every call is sound in the state it is made in. -/
theorem run_invariant_iff (calls : List Call)
    (admissible : Runs.AllSteps call Admissible fresh calls) :
    Runs.AfterEach call Invariant fresh calls ↔ Runs.AllSteps call Sound fresh calls :=
  Runs.afterEach_iff call (fun _ _ => call_invariant_iff)
    (fun _ _ ready allowed invariant => .of_invariant invariant (call_fits ready allowed))
    fresh_ready admissible

theorem run_invariant_iff_constrained :
    Runs.AfterEach call Invariant fresh [.appendDim 10 "x", .addConstraint 0 2 3 8] ↔
      Runs.AllSteps call Sound fresh [.appendDim 10 "x", .addConstraint 0 2 3 8] :=
  run_invariant_iff _ ⟨⟨by decide, by decide⟩, Nat.zero_lt_one, trivial⟩

/-- Start 5 and stop 2 pass both tests: ten elements, minus two of them selected. -/
theorem run_invariant_fails :
    ¬ Runs.AfterEach call Invariant fresh [.appendDim 10 "x", .addConstraint 0 5 1 2] := by
  rintro ⟨-, invariant, -⟩
  exact absurd (invariant.dimensions _ (List.mem_singleton_self _)).ordered (by decide)

end Libdap.Guarantees.ArrayConstraint
