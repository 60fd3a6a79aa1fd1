import Libdap.Library.Outcome
import Libdap.Guarantees.SequenceSerialize

/-!
# What has been sent stays sent

Every step of `serialize` only adds to the stream, whatever state the levels are in.
-/
namespace Libdap.Guarantees.SequenceGrows
open Libdap.Library Libdap.Source Libdap.Source.Sequence
open SequenceSerialize

variable {V σ : Type} {select : Selection V} {ceEval : Bool}

theorem readTurn_sink (p : Place V σ) : (p.readTurn select ceEval).2.sink = p.sink := by
  unfold Place.readTurn
  by_cases read : p.self.readP = true
  · simp only [read, if_true]
    split <;> rfl
  · simp only [read, Bool.false_eq_true, if_false]
    split <;> rfl

theorem readLoop_sink {row : Int} {fuel : Nat} {eof : Bool} {p : Place V σ}
    {result : Bool × Place V σ} (ran : p.readLoop select ceEval row fuel eof = .ok result) :
    result.2.sink = p.sink := by
  induction fuel generalizing eof p with
  | zero => cases ran
  | succ fuel ih =>
    rw [Place.readLoop] at ran
    split at ran
    · exact (ih ran).trans (readTurn_sink p)
    · cases ran
      rfl

theorem readRow_sink {row : Int} {p : Place V σ} {result : Bool × Place V σ}
    (ran : p.readRow select ceEval row = .ok result) : result.2.sink = p.sink := by
  unfold Place.readRow at ran
  split at ran
  · cases ran
  · split at ran
    · cases ran
      rfl
    · obtain ⟨middle, loop, same⟩ := bind_success ran
      cases same
      have kept : middle.2.sink = p.sink := readLoop_sink loop
      exact kept

/-- A step of sending that only adds to the stream. -/
def Grows (step : Place V (Stream V) → Except Failure (Place V (Stream V))) : Prop :=
  ∀ p q, step p = .ok q → p.sink <+: q.sink

variable {call emit : Place V (Stream V) → Except Failure (Place V (Stream V))}

theorem onChild_grows (grows : Grows call) : Grows fun p => p.onChild call := by
  intro p q ran
  change p.onChild call = .ok q at ran
  unfold Place.onChild at ran
  split at ran
  · cases ran
    exact List.prefix_refl _
  · split at ran
    · obtain ⟨middle, called, ran⟩ := bind_success ran
      have grown := grows _ _ called
      split at ran
      · cases ran
      · cases ran
        exact grown
    · cases ran
      exact List.prefix_refl _

theorem parentLoop_grows (grows : Grows call) (fuel : Nat) (i : Int) (status : Bool) :
    Grows (parentLoop select call fuel i status) := by
  intro p q ran
  induction fuel generalizing i status p with
  | zero => cases ran
  | succ fuel ih =>
    rw [parentLoop] at ran
    split at ran
    · obtain ⟨next, number, ran⟩ := bind_success ran
      obtain ⟨middle, called, ran⟩ := bind_success ran
      obtain ⟨⟨status', after⟩, read, ran⟩ := bind_success ran
      have unchanged : after.sink = middle.sink := readRow_sink read
      have rest := ih _ _ after ran
      rw [unchanged] at rest
      exact (onChild_grows grows p middle called).trans rest
    · cases ran
      exact List.prefix_refl _

/-- A turn of the parent loop keeps what the call on the child has sent. -/
theorem parentLoop_call (grows : Grows call) {fuel : Nat} {i : Int}
    {p q : Place V (Stream V)} (inside : p.self.isEndOfRows i = false)
    (ran : parentLoop select call (fuel + 1) i true p = .ok q) :
    ∃ middle, p.onChild call = .ok middle ∧ middle.sink <+: q.sink := by
  rw [parentLoop, if_pos (by simp [inside])] at ran
  obtain ⟨next, number, ran⟩ := bind_success ran
  obtain ⟨middle, called, ran⟩ := bind_success ran
  obtain ⟨⟨status, after⟩, read, ran⟩ := bind_success ran
  have unchanged : after.sink = middle.sink := readRow_sink read
  refine ⟨middle, called, ?_⟩
  rw [← unchanged]
  exact parentLoop_grows grows _ _ _ _ _ ran

theorem leafLoop_grows (grows : Grows emit) (fuel : Nat) (i : Int) (status : Bool) :
    Grows (leafLoop select ceEval emit fuel i status) := by
  intro p q ran
  induction fuel generalizing i status p with
  | zero => cases ran
  | succ fuel ih =>
    rw [leafLoop] at ran
    split at ran
    · obtain ⟨next, number, ran⟩ := bind_success ran
      obtain ⟨middle, called, ran⟩ := bind_success ran
      obtain ⟨⟨status', after⟩, read, ran⟩ := bind_success ran
      have unchanged : after.sink = middle.sink := readRow_sink read
      have rest := ih _ _ after ran
      rw [unchanged] at rest
      exact (grows p middle called).trans rest
    · cases ran
      exact List.prefix_refl _

theorem sendRow_grows (grows : Grows call) : Grows (sendRow call) := by
  intro p q ran
  have rest := onChild_grows grows _ _ ran
  refine List.IsPrefix.trans ?_ rest
  simp only [Sequence.putFields, writeStartOfInstance, List.append_assoc]
  exact List.prefix_append _ _

theorem partTwo_grows (p : Place V (Stream V)) : p.sink <+: p.partTwo.sink := by
  unfold Place.partTwo
  rw [serializeParentPartTwo_eq]
  exact List.prefix_append _ _

theorem serializeLeaf_grows (grows : Grows call) :
    Grows (serializeLeaf select ceEval call) := by
  intro p q ran
  unfold serializeLeaf at ran
  obtain ⟨⟨status, first⟩, read, ran⟩ := bind_success ran
  have unchanged : first.sink = p.sink := readRow_sink read
  obtain ⟨last, loop, ran⟩ := bind_success ran
  have looped := leafLoop_grows (sendRow_grows grows) _ _ _ _ _ loop
  have committing : p.sink <+: (if (status && !first.self.isEndOfRows p.self.firstRow) = true then
      first.partTwo else first).sink := by
    split
    · rw [← unchanged]
      exact partTwo_grows first
    · rw [unchanged]
  have sent := committing.trans looped
  split at ran
  · cases ran
    exact sent.trans (List.prefix_append _ _)
  · cases ran
    exact sent

theorem serializeParentPartOne_grows (grows : Grows call) :
    Grows (serializeParentPartOne select call) := by
  intro p q ran
  unfold serializeParentPartOne at ran
  obtain ⟨⟨status, first⟩, read, ran⟩ := bind_success ran
  have unchanged : first.sink = p.sink := readRow_sink read
  obtain ⟨last, loop, ran⟩ := bind_success ran
  have looped := parentLoop_grows grows _ _ _ _ _ loop
  rw [unchanged] at looped
  dsimp only at ran
  split at ran
  · cases ran
    exact looped.trans (List.prefix_append _ _)
  · cases ran
    exact looped

theorem serialize_grows (select : Selection V) (depth : Nat) (ceEval : Bool) :
    Grows (serialize select depth ceEval) := by
  induction depth generalizing ceEval with
  | zero =>
    intro p q ran
    cases ran
  | succ depth ih =>
    intro p q ran
    rw [serialize] at ran
    split at ran
    · exact serializeLeaf_grows (ih true) p q ran
    · exact serializeParentPartOne_grows (ih true) p q ran

end Libdap.Guarantees.SequenceGrows
