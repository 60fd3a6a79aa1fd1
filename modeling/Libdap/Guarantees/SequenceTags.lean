import Libdap.Library.Outcome
import Libdap.Source.SequenceTags

/-!
# Which Sequences are top-most

`set_leaf_sequence` of a Structure counts the level up before it hands it to a Sequence,
so no Sequence in a Structure is tagged as top-most. One without a row sends a row: the
Structure has set its `read_p`, which `read_row` takes for a row that is there.
The tags are right exactly when no Structure outside of Sequences holds a Sequence that is
projected.
-/
namespace Libdap.Guarantees.SequenceTags
open Libdap.Library
open Libdap.Source Libdap.Source.Sequence Libdap.Source.SequenceTags

variable {V : Type}

mutual
/-- The constructor leaves `d_top_most` false, and only tagging sets it. -/
def Untagged : Variable V → Prop
  | .simple _ _ => True
  | .sequence s vars => s.topMost = false ∧ AllUntagged vars
  | .structure _ vars => AllUntagged vars

def AllUntagged : List (Variable V) → Prop
  | [] => True
  | var :: vars => Untagged var ∧ AllUntagged vars
end

def projectedSequences (vars : List (Variable V)) : Nat :=
  vars.countP fun var => var.isSequence && var.sendP

mutual
/-- At most one projected Sequence in each Sequence and in each Structure. -/
def OneBelow : Variable V → Prop
  | .simple _ _ => True
  | .sequence _ vars => projectedSequences vars ≤ 1 ∧ AllOneBelow vars
  | .structure _ vars => projectedSequences vars ≤ 1 ∧ AllOneBelow vars

def AllOneBelow : List (Variable V) → Prop
  | [] => True
  | var :: vars => OneBelow var ∧ AllOneBelow vars
end

mutual
/-- A projected Sequence is top-most if and only if no Sequence is around it. -/
def Right (inSequence : Bool) : Variable V → Prop
  | .simple _ _ => True
  | .sequence s vars =>
    (s.sendP = true → (s.topMost = true ↔ inSequence = false)) ∧ AllRight true vars
  | .structure _ vars => AllRight inSequence vars

def AllRight (inSequence : Bool) : List (Variable V) → Prop
  | [] => True
  | var :: vars => Right inSequence var ∧ AllRight inSequence vars
end

mutual
/-- The members of each Structure that no Sequence is around. -/
def structuresOf : Variable V → List (List (Variable V))
  | .simple _ _ => []
  | .sequence _ _ => []
  | .structure _ vars => vars :: allStructures vars

def allStructures : List (Variable V) → List (List (Variable V))
  | [] => []
  | var :: vars => structuresOf var ++ allStructures vars
end

def HoldsFlat (vars : List (Variable V)) : Prop :=
  ∃ s, .sequence s [] ∈ vars ∧ s.sendP = true

mutual
/-- The Sequences that are sent are flat and their rows have a value for each field. -/
def Sendable : Variable V → Prop
  | .simple _ _ => True
  | .sequence s vars => s.sendP = true →
      vars = [] ∧ ∀ row ∈ s.rows, row.values.length = s.fieldSendP.length
  | .structure _ vars => AllSendable vars

def AllSendable : List (Variable V) → Prop
  | [] => True
  | var :: vars => Sendable var ∧ AllSendable vars
end

mutual
/-- What a client should have in the end. -/
def sent : Variable V → Received V
  | .simple _ value => .value value
  | .sequence s _ => .rows (s.rows.map fun row => .mk (project s.fieldSendP row.values) [])
  | .structure _ vars => .structure (sentMembers vars)

def sentMembers : List (Variable V) → List (Received V)
  | [] => []
  | var :: vars => if var.sendP then sent var :: sentMembers vars else sentMembers vars
end

/-- What a Structure with these members writes is read back, and no more than that. -/
def ReadsBack (vars : List (Variable V)) : Prop :=
  ∀ (select : Selection V) (dd : DataDDS), 2 ≤ dd.protocolMajor →
    ∃ out, serializeStructure select [] vars = .ok out ∧ ∀ rest, ∃ fuel,
      deserializeMembers (some dd) fuel (out ++ rest) vars = .ok (sentMembers vars, rest)

/-- The tags are right, and so is what Structures with flat Sequences send. -/
def TagsAndBytes (vars : List (Variable V)) : Prop :=
  ∃ vars', tagNestedSequences vars = .ok vars' ∧ AllRight false vars' ∧
    ∀ members ∈ allStructures vars', HoldsFlat members → AllSendable members → ReadsBack members

mutual
/-- No Sequence among the members of the Structures is projected. -/
def NoneProjectedIn : Variable V → Prop
  | .simple _ _ => True
  | .sequence s _ => s.sendP = false
  | .structure _ vars => NoneProjected vars

def NoneProjected : List (Variable V) → Prop
  | [] => True
  | var :: vars => NoneProjectedIn var ∧ NoneProjected vars
end

/-- A variable of the DDS itself may be a Sequence. -/
def NoneInStructure : Variable V → Prop
  | .structure _ vars => NoneProjected vars
  | _ => True

/-! ## What tagging keeps -/

variable {var var' : Variable V} {vars vars' : List (Variable V)} {lvl : Int} {has has' : Bool}

theorem sequenceLoop_cons (run : sequenceLoop lvl has (var :: vars) = .ok (vars', has')) :
    ∃ var' rest lvl' has'', vars' = var' :: rest ∧ lvl ≤ lvl' ∧
      sequenceLoop lvl' has'' vars = .ok (rest, has') ∧
      (var.setLeafSequence (lvl + 1) = .ok var' ∨
        (var.isStructure = true ∧ var.setLeafSequence lvl = .ok var') ∨ var' = var) := by
  rw [sequenceLoop] at run
  split at run
  · split at run
    · cases run
    · obtain ⟨var', first, run⟩ := bind_success run
      obtain ⟨result, rest, run⟩ := bind_success run
      cases run
      exact ⟨var', result.1, lvl + 1, true, rfl, by omega, rest, .inl first⟩
  · split at run
    · rename_i kind
      obtain ⟨var', first, run⟩ := bind_success run
      obtain ⟨result, rest, run⟩ := bind_success run
      cases run
      exact ⟨var', result.1, lvl, has, rfl, Int.le_refl _, rest, .inr (.inl ⟨kind, first⟩)⟩
    · obtain ⟨result, rest, run⟩ := bind_success run
      cases run
      exact ⟨var, result.1, lvl, has, rfl, Int.le_refl _, rest, .inr (.inr rfl)⟩

theorem structureLoop_cons (run : structureLoop lvl (var :: vars) = .ok vars') :
    ∃ var' rest lvl', vars' = var' :: rest ∧ lvl ≤ lvl' ∧
      structureLoop lvl' vars = .ok rest ∧
      (var.setLeafSequence (lvl + 1) = .ok var' ∨
        (var.isStructure = true ∧ var.setLeafSequence lvl = .ok var') ∨ var' = var) := by
  rw [structureLoop] at run
  split at run
  · obtain ⟨var', first, run⟩ := bind_success run
    obtain ⟨result, rest, run⟩ := bind_success run
    cases run
    exact ⟨var', result, lvl + 1, rfl, by omega, rest, .inl first⟩
  · split at run
    · rename_i kind
      obtain ⟨var', first, run⟩ := bind_success run
      obtain ⟨result, rest, run⟩ := bind_success run
      cases run
      exact ⟨var', result, lvl, rfl, Int.le_refl _, rest, .inr (.inl ⟨kind, first⟩)⟩
    · obtain ⟨result, rest, run⟩ := bind_success run
      cases run
      exact ⟨var, result, lvl, rfl, Int.le_refl _, rest, .inr (.inr rfl)⟩

theorem not_sequence_of_structure (kind : var.isStructure = true) : ¬ var.isSequence = true := by
  cases var <;> simp_all [Variable.isStructure, Variable.isSequence]

mutual
/-- From level 2 on no Sequence is tagged as top-most, and `send_p` stays what it is. -/
theorem setLeafSequence_kept (var : Variable V) (lvl : Int) (var' : Variable V)
    (untagged : Untagged var) (one : 1 ≤ lvl) (two : var.isSequence = true → 2 ≤ lvl)
    (run : var.setLeafSequence lvl = .ok var') :
    Untagged var' ∧ (NoneProjectedIn var' ↔ NoneProjectedIn var) := by
  cases var with
  | simple sendP value =>
    cases run
    exact ⟨trivial, Iff.rfl⟩
  | sequence s vars =>
    rw [Untagged] at untagged
    rw [Variable.setLeafSequence] at run
    obtain ⟨result, loop, run⟩ := bind_success run
    cases run
    have above : ¬ lvl = 1 := by
      have high := two rfl
      omega
    refine ⟨⟨?_, sequenceLoop_kept vars lvl false result.1 result.2 untagged.2 one loop⟩, ?_⟩
    · simp [tagged, untagged.1, above]
    · rw [NoneProjectedIn, NoneProjectedIn]
      rfl
  | «structure» sendP vars =>
    rw [Untagged] at untagged
    rw [Variable.setLeafSequence] at run
    obtain ⟨result, loop, run⟩ := bind_success run
    cases run
    exact structureLoop_kept vars lvl result untagged one loop

theorem sequenceLoop_kept (vars : List (Variable V)) (lvl : Int) (has : Bool)
    (vars' : List (Variable V)) (has' : Bool) (untagged : AllUntagged vars) (one : 1 ≤ lvl)
    (run : sequenceLoop lvl has vars = .ok (vars', has')) : AllUntagged vars' := by
  cases vars with
  | nil =>
    cases run
    trivial
  | cons var vars =>
    rw [AllUntagged] at untagged
    obtain ⟨var', rest, lvl', has'', rfl, le, later, first⟩ := sequenceLoop_cons run
    have tail := sequenceLoop_kept vars lvl' has'' rest has' untagged.2 (by omega) later
    refine ⟨?_, tail⟩
    rcases first with first | first | first
    · exact (setLeafSequence_kept var (lvl + 1) var' untagged.1 (by omega)
        (fun _ => by omega) first).1
    · exact (setLeafSequence_kept var lvl var' untagged.1 one
        (fun kind => absurd kind (not_sequence_of_structure first.1)) first.2).1
    · exact first ▸ untagged.1

theorem structureLoop_kept (vars : List (Variable V)) (level : Int)
    (vars' : List (Variable V)) (untagged : AllUntagged vars) (one : 1 ≤ level)
    (run : structureLoop level vars = .ok vars') :
    AllUntagged vars' ∧ (NoneProjected vars' ↔ NoneProjected vars) := by
  cases vars with
  | nil =>
    cases run
    exact ⟨trivial, Iff.rfl⟩
  | cons var vars =>
    rw [AllUntagged] at untagged
    obtain ⟨var', rest, level', rfl, le, later, first⟩ := structureLoop_cons run
    have tail := structureLoop_kept vars level' rest untagged.2 (by omega) later
    have head : Untagged var' ∧ (NoneProjectedIn var' ↔ NoneProjectedIn var) := by
      rcases first with first | first | first
      · exact setLeafSequence_kept var (level + 1) var' untagged.1 (by omega)
          (fun _ => by omega) first
      · exact setLeafSequence_kept var level var' untagged.1 one
          (fun kind => absurd kind (not_sequence_of_structure first.1)) first.2
      · subst first
        exact ⟨untagged.1, Iff.rfl⟩
    rw [NoneProjected, NoneProjected]
    exact ⟨⟨head.1, tail.1⟩, and_congr head.2 tail.2⟩
end

mutual
theorem right_of_untagged (var : Variable V) (untagged : Untagged var) : Right true var := by
  cases var with
  | simple sendP value => trivial
  | sequence s vars =>
    rw [Untagged] at untagged
    refine ⟨fun _ => ?_, allRight_of_untagged vars untagged.2⟩
    simp [untagged.1]
  | «structure» sendP vars =>
    rw [Untagged] at untagged
    exact allRight_of_untagged vars untagged

theorem allRight_of_untagged (vars : List (Variable V)) (untagged : AllUntagged vars) :
    AllRight true vars := by
  cases vars with
  | nil => trivial
  | cons var vars =>
    rw [AllUntagged] at untagged
    exact ⟨right_of_untagged var untagged.1, allRight_of_untagged vars untagged.2⟩
end

mutual
/-- Outside of Sequences an untagged Sequence is right only if it is not projected. -/
theorem right_iff (var : Variable V) (untagged : Untagged var) :
    Right false var ↔ NoneProjectedIn var := by
  cases var with
  | simple sendP value => exact Iff.rfl
  | sequence s vars =>
    rw [Untagged] at untagged
    rw [Right, NoneProjectedIn]
    have below := allRight_of_untagged vars untagged.2
    simp [untagged.1, below]
  | «structure» sendP vars =>
    rw [Untagged] at untagged
    rw [Right, NoneProjectedIn]
    exact allRight_iff_none vars untagged

theorem allRight_iff_none (vars : List (Variable V)) (untagged : AllUntagged vars) :
    AllRight false vars ↔ NoneProjected vars := by
  cases vars with
  | nil => exact Iff.rfl
  | cons var vars =>
    rw [AllUntagged] at untagged
    rw [AllRight, NoneProjected]
    exact and_congr (right_iff var untagged.1) (allRight_iff_none vars untagged.2)
end

/-! ## Tagging ends well -/

mutual
theorem setLeafSequence_total (var : Variable V) (lvl : Int) (single : OneBelow var) :
    ∃ var', var.setLeafSequence lvl = .ok var' := by
  cases var with
  | simple sendP value => exact ⟨_, rfl⟩
  | sequence s vars =>
    rw [OneBelow] at single
    obtain ⟨result, loop⟩ := sequenceLoop_total vars lvl false single.2 single.1
    rw [Variable.setLeafSequence, loop]
    exact ⟨_, rfl⟩
  | «structure» sendP vars =>
    rw [OneBelow] at single
    obtain ⟨result, loop⟩ := structureLoop_total vars lvl single.2
    rw [Variable.setLeafSequence, loop]
    exact ⟨_, rfl⟩

theorem sequenceLoop_total (vars : List (Variable V)) (lvl : Int) (has : Bool)
    (single : AllOneBelow vars) (count : projectedSequences vars ≤ if has then 0 else 1) :
    ∃ result, sequenceLoop lvl has vars = .ok result := by
  cases vars with
  | nil => exact ⟨_, rfl⟩
  | cons var vars =>
    rw [AllOneBelow] at single
    rw [projectedSequences, List.countP_cons] at count
    rw [sequenceLoop]
    by_cases projected : (var.isSequence && var.sendP) = true
    · rw [if_pos projected] at count ⊢
      cases has with
      | true =>
        rw [if_pos rfl] at count
        omega
      | false =>
        rw [if_neg (by decide)] at count ⊢
        obtain ⟨var', first⟩ := setLeafSequence_total var (lvl + 1) single.1
        obtain ⟨result, rest⟩ := sequenceLoop_total vars (lvl + 1) true single.2
          (by rw [if_pos rfl, projectedSequences]; omega)
        rw [first]
        simp only [bind, Except.bind, rest]
        exact ⟨_, rfl⟩
    · rw [if_neg projected] at count ⊢
      obtain ⟨result, rest⟩ := sequenceLoop_total vars lvl has single.2 count
      split
      · obtain ⟨var', first⟩ := setLeafSequence_total var lvl single.1
        rw [first]
        simp only [bind, Except.bind, rest]
        exact ⟨_, rfl⟩
      · rw [rest]
        exact ⟨_, rfl⟩

theorem structureLoop_total (vars : List (Variable V)) (level : Int)
    (single : AllOneBelow vars) : ∃ result, structureLoop level vars = .ok result := by
  cases vars with
  | nil => exact ⟨_, rfl⟩
  | cons var vars =>
    rw [AllOneBelow] at single
    rw [structureLoop]
    split
    · obtain ⟨var', first⟩ := setLeafSequence_total var (level + 1) single.1
      obtain ⟨result, rest⟩ := structureLoop_total vars (level + 1) single.2
      rw [first]
      simp only [bind, Except.bind, rest]
      exact ⟨_, rfl⟩
    · obtain ⟨result, rest⟩ := structureLoop_total vars level single.2
      split
      · obtain ⟨var', first⟩ := setLeafSequence_total var level single.1
        rw [first]
        simp only [bind, Except.bind, rest]
        exact ⟨_, rfl⟩
      · rw [rest]
        exact ⟨_, rfl⟩
end

/-! ## The whole DDS -/

mutual
theorem structuresOf_none (var : Variable V) (none_in : NoneProjectedIn var) :
    ∀ members ∈ structuresOf var, NoneProjected members := by
  cases var with
  | simple sendP value => exact fun _ mem => absurd mem List.not_mem_nil
  | sequence s vars => exact fun _ mem => absurd mem List.not_mem_nil
  | «structure» sendP vars =>
    rw [NoneProjectedIn] at none_in
    intro members mem
    rw [structuresOf, List.mem_cons] at mem
    cases mem with
    | inl own => exact own ▸ none_in
    | inr below => exact allStructures_none vars none_in members below

theorem allStructures_none (vars : List (Variable V)) (none_in : NoneProjected vars) :
    ∀ members ∈ allStructures vars, NoneProjected members := by
  cases vars with
  | nil => exact fun _ mem => absurd mem List.not_mem_nil
  | cons var vars =>
    rw [NoneProjected] at none_in
    intro members mem
    rw [allStructures, List.mem_append] at mem
    cases mem with
    | inl first => exact structuresOf_none var none_in.1 members first
    | inr rest => exact allStructures_none vars none_in.2 members rest
end

theorem noneProjected_mem (none_in : NoneProjected vars) (mem : var ∈ vars) :
    NoneProjectedIn var := by
  induction vars with
  | nil => cases mem
  | cons first vars ih =>
    rw [NoneProjected] at none_in
    cases mem with
    | head => exact none_in.1
    | tail _ later => exact ih none_in.2 later

theorem not_holdsFlat (none_in : NoneProjected vars) : ¬ HoldsFlat vars := by
  intro ⟨s, mem, sendP⟩
  have unprojected := noneProjected_mem none_in mem
  rw [NoneProjectedIn] at unprojected
  rw [unprojected] at sendP
  cases sendP

/-- Tagging one variable of the DDS. -/
theorem topLevel_tagged (var : Variable V) (untagged : Untagged var) (single : OneBelow var) :
    ∃ var', var.setLeafSequence 1 = .ok var' ∧ (Right false var' ↔ NoneInStructure var) ∧
      (NoneInStructure var → ∀ members ∈ structuresOf var', ¬ HoldsFlat members) := by
  obtain ⟨var', run⟩ := setLeafSequence_total var 1 single
  refine ⟨var', run, ?_⟩
  cases var with
  | simple sendP value =>
    cases run
    exact ⟨Iff.rfl, fun _ _ mem => absurd mem List.not_mem_nil⟩
  | sequence s vars =>
    rw [Untagged] at untagged
    rw [Variable.setLeafSequence] at run
    obtain ⟨result, loop, run⟩ := bind_success run
    cases run
    have below := allRight_of_untagged _
      (sequenceLoop_kept vars 1 false result.1 result.2 untagged.2 (Int.le_refl 1) loop)
    refine ⟨iff_of_true ⟨fun _ => ?_, below⟩ trivial, fun _ _ mem => absurd mem List.not_mem_nil⟩
    simp [tagged]
  | «structure» sendP vars =>
    rw [Untagged] at untagged
    rw [Variable.setLeafSequence] at run
    obtain ⟨result, loop, run⟩ := bind_success run
    cases run
    have kept := structureLoop_kept vars 1 result untagged (Int.le_refl 1) loop
    refine ⟨?_, fun none_in members mem => ?_⟩
    · rw [Right, NoneInStructure]
      exact (allRight_iff_none result kept.1).trans kept.2
    · rw [NoneInStructure] at none_in
      have none_in' := kept.2.mpr none_in
      rw [structuresOf, List.mem_cons] at mem
      cases mem with
      | inl own => exact own ▸ not_holdsFlat none_in'
      | inr below => exact not_holdsFlat (allStructures_none result none_in' members below)

theorem tagNestedSequences_tagged (vars : List (Variable V)) (untagged : AllUntagged vars)
    (single : AllOneBelow vars) :
    ∃ vars', tagNestedSequences vars = .ok vars' ∧
      (AllRight false vars' ↔ ∀ var ∈ vars, NoneInStructure var) ∧
      ((∀ var ∈ vars, NoneInStructure var) →
        ∀ members ∈ allStructures vars', ¬ HoldsFlat members) := by
  induction vars with
  | nil =>
    refine ⟨[], rfl, ?_, fun _ _ mem => absurd mem List.not_mem_nil⟩
    simp [AllRight]
  | cons var vars ih =>
    rw [AllUntagged] at untagged
    rw [AllOneBelow] at single
    obtain ⟨rest, loop, right, none_held⟩ := ih untagged.2 single.2
    obtain ⟨var', run, right', none_held'⟩ := topLevel_tagged var untagged.1 single.1
    -- Variables of other classes are left as they are, which their method would do too.
    have whole : tagNestedSequences (var :: vars) = .ok (var' :: rest) := by
      rw [tagNestedSequences]
      split
      · rw [run]
        simp only [bind, Except.bind, loop]
        rfl
      · rename_i other
        rw [loop]
        cases var with
        | simple sendP value =>
          cases run
          rfl
        | sequence s members => exact absurd rfl other
        | «structure» sendP members => exact absurd rfl other
    refine ⟨var' :: rest, whole, ?_, fun none_in members mem => ?_⟩
    · rw [AllRight, right, right', List.forall_mem_cons]
    · rw [List.forall_mem_cons] at none_in
      rw [allStructures, List.mem_append] at mem
      cases mem with
      | inl first => exact none_held' none_in.1 members first
      | inr later => exact none_held none_in.2 members later

/-- The tags are right, and so is what Structures send, exactly if no Sequence inside a Structure is
projected. -/
theorem tagsAndBytes_iff (vars : List (Variable V)) (untagged : AllUntagged vars)
    (single : AllOneBelow vars) :
    TagsAndBytes vars ↔ ∀ var ∈ vars, NoneInStructure var := by
  obtain ⟨vars', run, right, none_held⟩ := tagNestedSequences_tagged vars untagged single
  constructor
  · intro ⟨tagged', run', right', _⟩
    rw [run, Except.ok.injEq] at run'
    exact right.mp (run' ▸ right')
  · intro none_in
    exact ⟨vars', run, right.mpr none_in, fun members mem holds =>
      absurd holds (none_held none_in members mem)⟩

/-- A Sequence at the top level, with a Sequence in it. -/
def twoLevels : List (Variable Nat) :=
  [.sequence (make [true] []) [.sequence (make [true] []) []]]

/-- A Structure that holds a Sequence without rows. -/
def heldInStructure : List (Variable Nat) := [.structure true [.sequence (make [true] []) []]]

theorem tagsAndBytes_iff_twoLevels : TagsAndBytes twoLevels := by
  refine (tagsAndBytes_iff twoLevels ?_ ?_).mpr ?_
  · simp [twoLevels, AllUntagged, Untagged, make]
  · simp [twoLevels, AllOneBelow, OneBelow, projectedSequences, Variable.isSequence,
      Variable.sendP, make]
  · simp [twoLevels, NoneInStructure]

/-- A Sequence without rows sends the value its field has, and an end marker. -/
theorem readsBack_fails :
    ¬ ReadsBack (V := Nat)
      [.sequence { make [true] [] with fields := [0], leafSequence := true } []] := by
  intro readsBack
  obtain ⟨out, run, back⟩ := readsBack (fun _ => true) { protocolMajor := 2, protocol := "2.0" }
    (Int.le_refl 2)
  have sent : out = [.marker startOfInstance, .value 0, .marker endOfSequence] := by
    cases run
    rfl
  subst sent
  obtain ⟨fuel, done⟩ := back []
  cases fuel with
  | zero => cases done
  | succ fuel =>
    cases fuel with
    | zero => cases done
    | succ fuel => cases done

theorem tagsAndBytes_fails : ¬ TagsAndBytes heldInStructure := by
  intro ⟨vars', run, right, _⟩
  cases run
  simp only [AllRight, Right] at right
  have wrong := right.1.1.1 rfl
  simp [tagged, make] at wrong

end Libdap.Guarantees.SequenceTags
