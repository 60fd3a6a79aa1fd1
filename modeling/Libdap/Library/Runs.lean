import Mathlib.Tactic

/-!
# Runs of a deterministic object

A run is a list of calls made one after the other. `AllSteps` says something
of every call in the state it is made in, `AfterEach` of every state a call
leaves behind. `afterEach_iff` turns a characterisation of one step into one of
whole runs.
-/
namespace Libdap.Library.Runs

variable {σ α : Type} (step : σ → α → σ)

def AllSteps (good : σ → α → Prop) : σ → List α → Prop
  | _, [] => True
  | s, c :: rest => good s c ∧ AllSteps good (step s c) rest

def AfterEach (holds : σ → Prop) : σ → List α → Prop
  | _, [] => True
  | s, c :: rest => holds (step s c) ∧ AfterEach holds (step s c) rest

theorem AllSteps.and {first second : σ → α → Prop} {s : σ} {calls : List α}
    (each : AllSteps step first s calls) (also : AllSteps step second s calls) :
    AllSteps step (fun s c => first s c ∧ second s c) s calls := by
  induction calls generalizing s with
  | nil => trivial
  | cons c rest ih => exact ⟨⟨each.1, also.1⟩, ih each.2 also.2⟩

/-- What is so after each call is so after the last. -/
theorem AfterEach.last {holds : σ → Prop} {s : σ} {calls : List α} {c : α}
    (each : AfterEach step holds s (calls ++ [c])) : holds (step (calls.foldl step s) c) := by
  induction calls generalizing s with
  | nil => exact each.1
  | cons first rest ih => exact ih each.2

/-- The first call that is not `sound` is where `holds` first fails. -/
theorem afterEach_iff {ready : σ → Prop} {admissible sound : σ → α → Prop} {holds : σ → Prop}
    (exact_step : ∀ s c, ready s → admissible s c → (holds (step s c) ↔ sound s c))
    (ready_after : ∀ s c, ready s → admissible s c → holds (step s c) → ready (step s c))
    {s : σ} {calls : List α} (start : ready s) (allowed : AllSteps step admissible s calls) :
    AfterEach step holds s calls ↔ AllSteps step sound s calls := by
  induction calls generalizing s with
  | nil => exact Iff.rfl
  | cons c rest ih =>
    obtain ⟨now, later⟩ := allowed
    have first := exact_step s c start now
    constructor
    · rintro ⟨here, afterwards⟩
      exact ⟨first.mp here, (ih (ready_after s c start now here) later).mp afterwards⟩
    · rintro ⟨here, afterwards⟩
      have holds_here := first.mpr here
      exact ⟨holds_here, (ih (ready_after s c start now holds_here) later).mpr afterwards⟩

/-- What follows of a call from an invariant holds of all calls of a run that keeps it. -/
theorem allSteps_of_kept {ready : σ → Prop} {admissible sound good : σ → α → Prop}
    (kept : ∀ s c, ready s → admissible s c → sound s c → ready (step s c))
    (gives : ∀ s c, ready s → admissible s c → sound s c → good s c) {s : σ} {calls : List α}
    (start : ready s) (allowed : AllSteps step admissible s calls)
    (right : AllSteps step sound s calls) : AllSteps step good s calls := by
  induction calls generalizing s with
  | nil => trivial
  | cons c rest ih =>
    have now := allowed.1
    exact ⟨gives s c start now right.1, ih (kept s c start now right.1) allowed.2 right.2⟩

/-- An invariant that every admissible call keeps holds after each of them. -/
theorem afterEach_of_kept {ready holds : σ → Prop} {admissible : σ → α → Prop}
    (kept : ∀ s c, ready s → admissible s c → ready (step s c)) (gives : ∀ s, ready s → holds s)
    {s : σ} {calls : List α} (start : ready s) (allowed : AllSteps step admissible s calls) :
    AfterEach step holds s calls := by
  induction calls generalizing s with
  | nil => trivial
  | cons c rest ih =>
    have next := kept s c start allowed.1
    exact ⟨gives _ next, ih next allowed.2⟩

end Libdap.Library.Runs
