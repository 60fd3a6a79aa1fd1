import Libdap.Library.Outcome
import Libdap.Source.Hyperslab
import Libdap.Guarantees.Marking

/-!
# A hyperslab of a Grid

The array and the maps are constrained by the same triples, and dimensions of one size come
out alike. The Grid is no longer one if a triple selects nothing, which `add_constraint`
lets through when the start lies just above the stop.
-/
namespace Libdap.Guarantees.GridHyperslab
open Libdap.Library Libdap.Source Libdap.Source.Array Libdap.Source.Escaping
open Libdap.Source.Lookup Libdap.Source.Hyperslab Libdap.Guarantees.Marking

variable {garbage : UInt8} {n name : Text} {vars mapVars : List BaseType} {arrayVar : BaseType}
variable {p : Path} {s s' : Projection} {indices : List Index} {a a' : Dims} {i : Nat}

/-- A dimension as the triple constrains it. -/
def constrained (d : Dimension) (index : Index) : Dimension :=
  constrain d index.start index.stride (lastIndex d index.stop)

theorem addConstraint_ok {start stride stop : Int}
    (done : a.addConstraint i start stride stop = .ok a') :
    ∃ d, a.shape[i]? = some d ∧
      a'.shape = a.shape.set i (constrain d start stride (lastIndex d stop)) := by
  unfold Dims.addConstraint at done
  split at done
  · cases done
  · rename_i d there
    split at done
    · cases done
    · cases done
      exact ⟨d, there, rfl⟩

theorem constrainDims_ok (done : constrainDims name false a i indices = .ok a') :
    a'.shape.length = a.shape.length ∧ (∀ j < i, a'.shape[j]? = a.shape[j]?) ∧
      ∀ k index, indices[k]? = some index →
        ∃ d, a.shape[i + k]? = some d ∧ a'.shape[i + k]? = some (constrained d index) := by
  induction indices generalizing a i with
  | nil =>
    cases done
    exact ⟨rfl, fun _ _ => rfl, fun k index none => by cases none⟩
  | cons index indices ih =>
    unfold constrainDims at done
    split at done
    · cases done
    · simp only [Bool.false_and, Bool.false_eq_true, if_false] at done
      obtain ⟨b, first, rest⟩ := bind_success done
      obtain ⟨d, there, shape⟩ := addConstraint_ok first
      have inside : i < a.shape.length := (List.getElem?_eq_some_iff.mp there).1
      obtain ⟨length, before, after⟩ := ih rest
      rw [shape] at length before after
      rw [List.length_set] at length
      refine ⟨length, ?_, ?_⟩
      · intro j low
        rw [before j (by omega), List.getElem?_set_ne (by omega)]
      · intro k index' there'
        cases k with
        | zero =>
          cases there'
          refine ⟨d, there, ?_⟩
          rw [Nat.add_zero, before i (by omega), List.getElem?_set_self inside]
          rfl
        | succ k =>
          obtain ⟨d', old, new⟩ := after k index' there'
          rw [List.getElem?_set_ne (by omega)] at old
          refine ⟨d', ?_, ?_⟩
          · rw [← old]
            congr 1
            omega
          · rw [← new]
            congr 1
            omega

/-- The map at `i` has one dimension, `m`. -/
def MapAt (s : Projection) (p : Path) (i : Nat) (m : Dimension) : Prop :=
  (s.dims (p ++ [i])).shape = [m]

theorem setDims_same (s : Projection) (q : Path) (a : Dims) : (s.setDims q a).dims q = a := by
  unfold Projection.setDims
  simp

theorem setDims_other {q r : Path} (other : r ≠ q) (s : Projection) (a : Dims) :
    (s.setDims q a).dims r = s.dims r := by
  unfold Projection.setDims
  simp [other]

theorem member_ne {j k : Nat} (other : j ≠ k) (p : Path) : p ++ [j] ≠ p ++ [k] := by
  intro same
  have last := List.append_cancel_left same
  simp only [List.cons.injEq, and_true] at last
  exact other last

theorem constrainMaps_ok (done : constrainMaps p i mapVars indices s = .ok s') :
    (∀ j < i, s'.dims (p ++ [j]) = s.dims (p ++ [j])) ∧
      ∀ k index m, indices[k]? = some index → MapAt s p (i + k) m →
        MapAt s' p (i + k) (constrained (resetDimension m) index) := by
  induction mapVars generalizing i indices s with
  | nil =>
    cases indices with
    | nil =>
      cases done
      exact ⟨fun _ _ => rfl, fun k index m none => by cases none⟩
    | cons => cases done
  | cons mv maps ih =>
    cases indices with
    | nil =>
      cases done
      exact ⟨fun _ _ => rfl, fun k index m none => by cases none⟩
    | cons index indices =>
      cases mv with
      | simple | constructor | grid => cases done
      | vector mapName var =>
        unfold constrainMaps at done
        obtain ⟨b, first, rest⟩ := bind_success done
        obtain ⟨before, after⟩ := ih rest
        constructor
        · intro j low
          rw [before j (by omega), setDims_other (member_ne (by omega) p)]
        · intro k index' m there at'
          cases k with
          | zero =>
            cases there
            unfold MapAt at at' ⊢
            rw [Nat.add_zero] at at' ⊢
            rw [before i (by omega), setDims_same]
            obtain ⟨d, old, new⟩ := addConstraint_ok first
            have reset : (s.dims (p ++ [i])).resetConstraint.shape = [resetDimension m] := by
              unfold Dims.resetConstraint
              simp [at', Dims.setLength, Dims.resetAt, Dims.updateLength]
            rw [reset] at old new
            cases old
            exact new
          | succ k =>
            have kept : MapAt ({ s with
                sendP := setSendP true s.sendP (p ++ [i]) (.vector mapName var) }.setDims
                  (p ++ [i]) b) p (i + 1 + k) m := by
              unfold MapAt at at' ⊢
              rw [setDims_other (member_ne (by omega) p)]
              rw [show i + 1 + k = i + (k + 1) by omega]
              exact at'
            have next := after k index' m there kept
            rw [show i + 1 + k = i + (k + 1) by omega] at next
            exact next

/-- What a Grid that passes `check_semantics` is like. -/
structure Sound (p : Path) (arrayVar : BaseType) (mapVars : List BaseType) (s : Projection) :
    Prop where
  array : ∃ name var, arrayVar = .vector name var
  count : mapVars.length = (s.dims (p ++ [0])).shape.length
  sizes : ∀ k d, (s.dims (p ++ [0])).shape[k]? = some d →
    ∃ m, MapAt s p (k + 1) m ∧ m.size = d.size

theorem checkMap_ok {arrayName : Text} {d : Dimension} {mv : BaseType}
    (passed : checkMap name arrayName d mv a = .ok ()) : ∃ m, a.shape = [m] ∧ m.size = d.size := by
  unfold checkMap at passed
  split at passed
  · cases passed
  · split at passed
    · split at passed
      · cases passed
      · split at passed
        · rename_i m shape
          split at passed
          · cases passed
          · rename_i same
            exact ⟨m, shape, not_not.mp same⟩
        · cases passed
    · cases passed

theorem checkMaps_ok {arrayName : Text} {shape : List Dimension}
    (count : mapVars.length = shape.length)
    (passed : checkMaps name arrayName s p i mapVars shape = .ok ()) :
    ∀ k d, shape[k]? = some d → ∃ m, MapAt s p (i + k) m ∧ m.size = d.size := by
  induction mapVars generalizing i shape with
  | nil =>
    have none' := List.length_eq_zero_iff.mp count.symm
    intro k d there
    rw [none'] at there
    cases there
  | cons mv maps ih =>
    cases shape with
    | nil => cases count
    | cons d shape =>
      unfold checkMaps at passed
      obtain ⟨_, first, rest⟩ := bind_success passed
      intro k d' there
      cases k with
      | zero =>
        cases there
        exact checkMap_ok first
      | succ k =>
        obtain ⟨m, at', size⟩ := ih (by simpa using count) rest k d' there
        rw [show i + 1 + k = i + (k + 1) by omega] at at'
        exact ⟨m, at', size⟩

theorem checkSemantics_sound (passed : checkSemantics name p arrayVar mapVars s = .ok ()) :
    Sound p arrayVar mapVars s := by
  unfold checkSemantics at passed
  split at passed
  · cases passed
  · split at passed
    · rename_i arrayName var
      split at passed
      · cases passed
      · split at passed
        · cases passed
        · rename_i same
          have count := not_not.mp same
          refine ⟨⟨arrayName, var, rfl⟩, count, ?_⟩
          intro k d there
          obtain ⟨m, at', size⟩ := checkMaps_ok count passed k d there
          rw [Nat.add_comm] at at'
          exact ⟨m, at', size⟩
    · cases passed

/-- Each map has the start, stride, stop and selected size of its dimension of the array. -/
def Aligned (s : Projection) (p : Path) : Prop :=
  ∀ k d, (s.dims (p ++ [0])).shape[k]? = some d →
    ∃ m, MapAt s p (k + 1) m ∧
      m.start = d.start ∧ m.stride = d.stride ∧ m.stop = d.stop ∧ m.cSize = d.cSize

/-- Dimensions of one size come out alike. -/
theorem constrained_alike {m d : Dimension} (size : m.size = d.size) (index : Index) :
    let m' := constrained (resetDimension m) index
    let d' := constrained d index
    m'.start = d'.start ∧ m'.stride = d'.stride ∧ m'.stop = d'.stop ∧ m'.cSize = d'.cSize := by
  have last : lastIndex (resetDimension m) index.stop = lastIndex d index.stop := by
    unfold lastIndex resetDimension
    rw [← size]
  simp [constrained, constrain, last]

/-- What `process_grid_indices` leaves for a Grid that passes the check and is not yet
projected. -/
theorem processGridIndices_ok (sound : Sound p arrayVar mapVars s)
    (unsent : s.sendP (p ++ [0]) = false)
    (done : processGridIndices name p arrayVar mapVars indices s = .ok s') :
    (s'.dims (p ++ [0])).shape.length = (s.dims (p ++ [0])).shape.length ∧
      indices.length = (s.dims (p ++ [0])).shape.length ∧
      ∀ k index, indices[k]? = some index → ∃ d m,
        (s.dims (p ++ [0])).shape[k]? = some d ∧ m.size = d.size ∧
        (s'.dims (p ++ [0])).shape[k]? = some (constrained d index) ∧
        MapAt s' p (k + 1) (constrained (resetDimension m) index) := by
  obtain ⟨⟨arrayName, var, rfl⟩, count, sizes⟩ := sound
  simp only [processGridIndices] at done
  split at done
  · cases done
  · rename_i counted
    have length := (not_not.mp counted).symm
    obtain ⟨s₁, first, rest⟩ := bind_success done
    unfold processArrayIndices at first
    split at first
    · cases first
    · obtain ⟨a, constrained', same⟩ := bind_success first
      cases same
      rw [unsent] at constrained'
      obtain ⟨length', _, arrays⟩ := constrainDims_ok constrained'
      obtain ⟨before, maps⟩ := constrainMaps_ok rest
      have array : s'.dims (p ++ [0]) = a := by
        rw [before 0 (by omega)]
        exact setDims_same s (p ++ [0]) a
      rw [array]
      refine ⟨length', length, ?_⟩
      intro k index there
      obtain ⟨d, old, new⟩ := arrays k index there
      rw [Nat.zero_add] at old new
      obtain ⟨m, at', size⟩ := sizes k d old
      refine ⟨d, m, old, size, new, ?_⟩
      have kept : MapAt { s.setDims (p ++ [0]) a with
          sendP := setAllSendP false (s.setDims (p ++ [0]) a).sendP p 1 mapVars } p (1 + k) m := by
        unfold MapAt at at' ⊢
        rw [Nat.add_comm 1 k]
        exact (congrArg Dims.shape (setDims_other (member_ne (by omega) p) s a)).trans at'
      have final := maps k index m there kept
      rw [Nat.add_comm 1 k] at final
      exact final

theorem aligned_after (sound : Sound p arrayVar mapVars s) (unsent : s.sendP (p ++ [0]) = false)
    (done : processGridIndices name p arrayVar mapVars indices s = .ok s') : Aligned s' p := by
  obtain ⟨length, count, each⟩ := processGridIndices_ok sound unsent done
  intro k d there
  have inside : k < indices.length := by
    rw [count, ← length]
    exact (List.getElem?_eq_some_iff.mp there).1
  obtain ⟨d₀, m, _, size, new, at'⟩ := each k _ (List.getElem?_eq_getElem inside)
  cases there.symm.trans new
  exact ⟨_, at', constrained_alike size _⟩

/-! ### Whether the Grid is still one -/

/-- The triple selects nothing: the stop lies below the start by at least one stride and by
less than two. -/
def Empty (d : Dimension) (index : Index) : Prop :=
  (int32 (lastIndex d index.stop - index.start)).tdiv index.stride = -1

instance (d : Dimension) (index : Index) : Decidable (Empty d index) :=
  inferInstanceAs (Decidable (_ = _))

theorem int32_zero {n : Int} (low : -2 ^ 31 ≤ n) (high : n < 2 ^ 31) :
    int32 (n + 1) = 0 ↔ n = -1 := by
  unfold int32
  rw [BitVec.toInt_ofInt]
  constructor
  · intro zero
    have := Int.emod_bmod (n + 1) (2 ^ 32)
    rw [Int.bmod_def] at zero
    split at zero <;> omega
  · rintro rfl
    rfl

theorem int32_bounds (n : Int) : -2 ^ 31 ≤ int32 n ∧ int32 n < 2 ^ 31 := by
  unfold int32
  have low := BitVec.le_toInt (BitVec.ofInt 32 n)
  have high := BitVec.toInt_lt (x := BitVec.ofInt 32 n)
  omega

theorem tdiv_bounds {n stride : Int} (positive : 0 < stride) (low : -2 ^ 31 ≤ n)
    (high : n < 2 ^ 31) : -2 ^ 31 ≤ n.tdiv stride ∧ n.tdiv stride < 2 ^ 31 := by
  have smaller : (n.tdiv stride).natAbs ≤ n.natAbs := by
    rw [Int.natAbs_tdiv]
    exact Nat.div_le_self _ _
  rcases Int.le_total 0 n with nonneg | negative
  · have := Int.tdiv_nonneg nonneg positive.le
    omega
  · have := Int.tdiv_nonneg (Int.neg_nonneg.mpr negative) positive.le
    rw [Int.neg_tdiv] at this
    omega

theorem cSize_zero (d : Dimension) (index : Index) (positive : 0 < index.stride) :
    (constrained d index).cSize = 0 ↔ Empty d index := by
  obtain ⟨low, high⟩ := int32_bounds (lastIndex d index.stop - index.start)
  obtain ⟨low', high'⟩ := tdiv_bounds positive low high
  exact int32_zero low' high'

/-- `process_grid_indices` has let the triple through, so its stride is positive. -/
theorem constrainDims_stride (done : constrainDims name false a i indices = .ok a') :
    ∀ index ∈ indices, 0 < index.stride := by
  induction indices generalizing a i with
  | nil => simp
  | cons index indices ih =>
    unfold constrainDims at done
    split at done
    · cases done
    · simp only [Bool.false_and, Bool.false_eq_true, if_false] at done
      obtain ⟨b, first, rest⟩ := bind_success done
      intro index' mem
      rcases List.mem_cons.mp mem with rfl | mem
      · unfold Dims.addConstraint at first
        split at first
        · cases first
        · split at first
          · cases first
          · rename_i fine
            unfold rejects at fine
            omega
      · exact ih rest index' mem

theorem processGridIndices_stride (sound : Sound p arrayVar mapVars s)
    (unsent : s.sendP (p ++ [0]) = false)
    (done : processGridIndices name p arrayVar mapVars indices s = .ok s') :
    ∀ index ∈ indices, 0 < index.stride := by
  obtain ⟨⟨arrayName, var, rfl⟩, _, _⟩ := sound
  simp only [processGridIndices] at done
  split at done
  · cases done
  · obtain ⟨s₁, first, _⟩ := bind_success done
    unfold processArrayIndices at first
    split at first
    · cases first
    · obtain ⟨a, constrained', _⟩ := bind_success first
      rw [unsent] at constrained'
      exact constrainDims_stride constrained'

/-- With aligned maps that are all sent, the loop looks for dimensions of no size. -/
theorem mapsMatch_iff {shape : List Dimension} (count : mapVars.length = shape.length)
    (sent : ∀ k < shape.length, s.sendP (p ++ [i + k]) = true)
    (aligned : ∀ k d, shape[k]? = some d → ∃ m, MapAt s p (i + k) m ∧
      m.start = d.start ∧ m.stride = d.stride ∧ m.stop = d.stop ∧ m.cSize = d.cSize) :
    mapsMatch s p i shape mapVars = true ↔ ∀ d ∈ shape, d.cSize ≠ 0 := by
  induction shape generalizing mapVars i with
  | nil => simp [mapsMatch]
  | cons d shape ih =>
    cases mapVars with
    | nil => cases count
    | cons mv maps =>
      obtain ⟨m, at', start, stride, stop, _⟩ := aligned 0 d rfl
      have here := sent 0 (by simp)
      rw [Nat.add_zero] at at' here
      have next (k : Nat) : i + 1 + k = i + (k + 1) := by omega
      have rest : mapsMatch s p (i + 1) shape maps = true ↔ ∀ d ∈ shape, d.cSize ≠ 0 := by
        apply ih (by simpa using count)
        · intro k low
          rw [next]
          exact sent (k + 1) (by simpa using low)
        · intro k d' there
          rw [next]
          exact aligned (k + 1) d' there
      unfold MapAt at at'
      unfold mapsMatch firstDimension
      rw [List.forall_mem_cons, ← rest, at', here]
      simp [start, stride, stop]

/-- One Grid, from a state of the dataset: what `process_grid_indices` accepts
aligns the maps, and after `bracket_projection` the Grid is still one. -/
def StaysGrid (garbage : UInt8) (vars : List BaseType) (n name : Text) (p : Path)
    (arrayVar : BaseType) (mapVars : List BaseType) (indices : List Index) (s : Projection) :
    Prop :=
  ∀ s₁, processGridIndices name p arrayVar mapVars indices s = .ok s₁ → Aligned s₁ p ∧
    ∀ s₂, bracketProjection garbage vars n indices s = .ok (some s₂) →
      Aligned s₂ p ∧ projectionYieldsGrid s₂ p mapVars = true

/-- There are triples, and each selects something. -/
def AllSelect (p : Path) (indices : List Index) (s : Projection) : Prop :=
  indices ≠ [] ∧ ∀ (k : Nat) (index : Index) (d : Dimension), indices[k]? = some index →
    (s.dims (p ++ [0])).shape[k]? = some d → ¬ Empty d index

theorem bracketProjection_grid {stack : List Path}
    (found : ddsVar garbage vars n = (some (p, .grid name arrayVar mapVars), stack))
    (done : processGridIndices name p arrayVar mapVars indices s = .ok s') :
    bracketProjection garbage vars n indices s = .ok (some (markAll garbage vars n s')) := by
  unfold bracketProjection
  rw [found]
  change (processGridIndices name p arrayVar mapVars indices s >>= _) = _
  rw [done]
  rfl

/-- After `mark` the array and all maps are sent. -/
theorem markAll_sent {stack : List Path}
    (found : ddsVar garbage vars n = (some (p, .grid name arrayVar mapVars), stack)) {k : Nat}
    (inside : k < mapVars.length + 1) :
    (markAll garbage vars n s).sendP (p ++ [k]) = true := by
  have there := (ddsVar_found found).there
  unfold markAll
  rw [mark_true s.sendP found _ there]
  refine .inr (.inl ⟨List.prefix_append p [k], ?_⟩)
  rw [variableAt_append there]
  have listed := List.getElem?_eq_getElem (l := arrayVar :: mapVars) inside
  simp [descend, BaseType.members, listed]

theorem yieldsGrid_iff {stack : List Path} (sound : Sound p arrayVar mapVars s)
    (unsent : s.sendP (p ++ [0]) = false)
    (found : ddsVar garbage vars n = (some (p, .grid name arrayVar mapVars), stack))
    (done : processGridIndices name p arrayVar mapVars indices s = .ok s') :
    projectionYieldsGrid (markAll garbage vars n s') p mapVars = true ↔ AllSelect p indices s := by
  have aligned := aligned_after sound unsent done
  obtain ⟨length, count, each⟩ := processGridIndices_ok sound unsent done
  have strides := processGridIndices_stride sound unsent done
  have sent := fun k (low : k < mapVars.length + 1) =>
    markAll_sent (s := s') found low
  have all : components (markAll garbage vars n s') p mapVars = mapVars.length + 1 := by
    unfold components
    rw [List.filter_eq_self.mpr (fun k mem => sent k (List.mem_range.mp mem)), List.length_range]
  have shape : ((markAll garbage vars n s').dims (p ++ [0])).shape = (s'.dims (p ++ [0])).shape :=
    rfl
  unfold projectionYieldsGrid
  rw [sent 0 (by omega), all, shape, Bool.true_and, Bool.and_eq_true, decide_eq_true_eq,
    mapsMatch_iff (sound.count.trans length.symm)
      (fun k low => by
        rw [Nat.add_comm 1 k]
        exact sent (k + 1) (by have := sound.count; omega))
      (fun k d there => by
        rw [Nat.add_comm 1 k]
        exact aligned k d there)]
  have nonempty : mapVars.length + 1 ≠ 1 ↔ indices ≠ [] := by
    rw [ne_eq, ne_eq, ← List.length_eq_zero_iff, count, ← sound.count]
    omega
  unfold AllSelect
  rw [nonempty]
  apply and_congr_right
  intro _
  constructor
  · intro sizes k index d there old empty
    obtain ⟨d', m, old', _, new, _⟩ := each k index there
    cases old.symm.trans old'
    exact sizes _ (List.mem_of_getElem? new)
      ((cSize_zero d index (strides index (List.mem_of_getElem? there))).mpr empty)
  · intro selects d mem zero
    obtain ⟨k, there⟩ := List.mem_iff_getElem?.mp mem
    have inside : k < indices.length := by
      rw [count, ← length]
      exact (List.getElem?_eq_some_iff.mp there).1
    have listed := List.getElem?_eq_getElem inside
    obtain ⟨d', m, old, _, new, _⟩ := each k _ listed
    cases there.symm.trans new
    exact selects k _ d' listed old
      ((cSize_zero d' _ (strides _ (List.mem_of_getElem? listed))).mp zero)

/-- For every Grid that passes `check_semantics` and whose array is not yet sent. -/
theorem staysGrid_iff (garbage : UInt8) (vars : List BaseType) (n name : Text) (p : Path)
    (arrayVar : BaseType) (mapVars : List BaseType) (stack : List Path) (s : Projection)
    (found : ddsVar garbage vars n = (some (p, .grid name arrayVar mapVars), stack))
    (passed : checkSemantics name p arrayVar mapVars s = .ok ())
    (unsent : s.sendP (p ++ [0]) = false) (indices : List Index) :
    StaysGrid garbage vars n name p arrayVar mapVars indices s ↔
      ((∃ s₁, processGridIndices name p arrayVar mapVars indices s = .ok s₁) →
        AllSelect p indices s) := by
  have sound := checkSemantics_sound passed
  constructor
  · rintro stays ⟨s₁, done⟩
    have after := ((stays s₁ done).2 _ (bracketProjection_grid found done)).2
    exact (yieldsGrid_iff sound unsent found done).mp after
  · intro selects s₁ done
    have aligned := aligned_after sound unsent done
    refine ⟨aligned, ?_⟩
    intro s₂ bracket
    cases (bracketProjection_grid found done).symm.trans bracket
    exact ⟨aligned, (yieldsGrid_iff sound unsent found done).mpr (selects ⟨s₁, done⟩)⟩

/-- A Grid of one dimension of size three. -/
def gridArray : BaseType := .vector [97] (.simple [97])

def gridMap : BaseType := .vector [109] (.simple [109])

def oneGrid : List BaseType := [.grid [103] gridArray [gridMap]]

def unprojected : Projection where
  sendP := fun _ => false
  dims := fun _ => Dims.appendDim Array.fresh 3 ""
  rows := fun _ => none

theorem oneGrid_found :
    ddsVar 0 oneGrid [103] = (some ([0], .grid [103] gridArray [gridMap]), []) := by
  have unescaped : www2id 0 [103] = [103] := by decide
  rw [ddsVar, unescaped, ddsExactMatch_eq]
  rfl

/-- `g[0:2:2]` selects two rows. -/
theorem staysGrid_witness :
    StaysGrid 0 oneGrid [103] [103] [0] gridArray [gridMap] [⟨0, 2, 2⟩] unprojected := by
  apply (staysGrid_iff 0 oneGrid [103] [103] [0] gridArray [gridMap] [] unprojected oneGrid_found
    (by decide) rfl [⟨0, 2, 2⟩]).mpr
  intro _
  refine ⟨by simp, ?_⟩
  intro k index d listed dimension
  cases k with
  | zero =>
    cases listed
    cases dimension
    decide
  | succ k => cases listed

/-- `g[2:1:1]` is accepted, and the Grid is sent as a Structure. -/
theorem staysGrid_fails :
    ¬ StaysGrid 0 oneGrid [103] [103] [0] gridArray [gridMap] [⟨2, 1, 1⟩] unprojected := by
  intro stays
  have accepted :
      (processGridIndices [103] [0] gridArray [gridMap] [⟨2, 1, 1⟩] unprojected).isOk := by
    decide
  cases done : processGridIndices [103] [0] gridArray [gridMap] [⟨2, 1, 1⟩] unprojected with
  | error e =>
    rw [done] at accepted
    cases accepted
  | ok s₁ =>
    have grid := ((stays s₁ done).2 _ (bracketProjection_grid oneGrid_found done)).2
    have passed : checkSemantics [103] [0] gridArray [gridMap] unprojected = .ok () := by decide
    have sound := checkSemantics_sound passed
    have selects := (yieldsGrid_iff sound rfl oneGrid_found done).mp grid
    exact selects.2 0 ⟨2, 1, 1⟩ (newDimension 3 "") rfl rfl (by decide)

end Libdap.Guarantees.GridHyperslab
