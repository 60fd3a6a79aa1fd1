import Mathlib.Tactic

/-!
# Steps that may fail

A sequence of steps in `Except` that ends well has gone through a value at each of them.
-/
namespace Libdap.Library
variable {ε α β σ : Type}

theorem bind_success {x : Except ε α} {f : α → Except ε β} {r : β}
    (success : (x >>= f) = .ok r) : ∃ a, x = .ok a ∧ f a = .ok r := by
  cases x with
  | error failure => cases success
  | ok a => exact ⟨a, rfl, success⟩

/-- What every step keeps, a run of steps keeps. -/
theorem foldlM_keeps {step : σ → α → Except ε σ} {P : σ → σ → Prop} (start : ∀ s, P s s)
    (next : ∀ s a s' s'', step s a = .ok s' → P s' s'' → P s s'') {xs : List α} {s s' : σ}
    (run : xs.foldlM step s = .ok s') : P s s' := by
  induction xs generalizing s with
  | nil =>
    cases run
    exact start _
  | cons x xs ih =>
    obtain ⟨middle, first, rest⟩ := bind_success run
    exact next s x middle s' first (ih rest)

/-! With a state that a failing step leaves behind. -/
section
variable {s s' : σ}

theorem call_eq (x : EStateM ε σ α) (f : α → EStateM ε σ β) (s : σ) :
    (x >>= f) s = match x s with
      | .ok a s' => f a s'
      | .error e s' => .error e s' := by
  change EStateM.bind x f s = _
  unfold EStateM.bind
  cases x s <;> rfl

theorem call_ok {x : EStateM ε σ α} {f : α → EStateM ε σ β} {a : α} (done : x s = .ok a s') :
    (x >>= f) s = f a s' := by
  rw [call_eq, done]

theorem call_error {x : EStateM ε σ α} {f : α → EStateM ε σ β} {e : ε}
    (failed : x s = .error e s') : (x >>= f) s = .error e s' := by
  rw [call_eq, failed]

theorem bind_returned {x : EStateM ε σ α} {f : α → EStateM ε σ β} {r : β}
    (done : (x >>= f) s = .ok r s') : ∃ a s₁, x s = .ok a s₁ ∧ f a s₁ = .ok r s' := by
  rw [call_eq] at done
  cases first : x s with
  | ok a s₁ =>
    rw [first] at done
    exact ⟨a, s₁, rfl, done⟩
  | error e s₁ =>
    rw [first] at done
    cases done

theorem bind_error {x : EStateM ε σ α} {f : α → EStateM ε σ β} {e : ε}
    (failed : (x >>= f) s = .error e s') :
    x s = .error e s' ∨ ∃ a s₁, x s = .ok a s₁ ∧ f a s₁ = .error e s' := by
  rw [call_eq] at failed
  cases first : x s with
  | ok a s₁ =>
    rw [first] at failed
    exact .inr ⟨a, s₁, rfl, failed⟩
  | error e' s₁ =>
    rw [first] at failed
    cases failed
    exact .inl rfl

end

end Libdap.Library
