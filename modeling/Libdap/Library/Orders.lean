import Mathlib.Tactic

/-!
# Marks and assignments in any order

A step reads a mark and a value. If it accepts them, it may set the mark, and it may assign a
value, which does not depend on the value before. What such steps do together does not depend
on their order exactly if they assign the same and each accepts what the others may leave.
-/
namespace Libdap.Library
variable {α V : Type}

/-- Steps, with what each does where it accepts a valid value. -/
structure Assignments (α V : Type) where
  step : α → Bool × V → Option (Bool × V)
  valid : V → Prop
  marks : α → Bool
  value : α → Option V
  does : ∀ a f v r, valid v → step a (f, v) = some r → r = (f || marks a, (value a).getD v)
  value_valid : ∀ a x, value a = some x → valid x

namespace Assignments
variable (S : Assignments α V) {l l' m r : List α} {a b c : α} {f : Bool} {v x y : V}

def run (l : List α) (st : Bool × V) : Option (Bool × V) := l.foldlM (fun st a => S.step a st) st

def valueAfter (l : List α) (v : V) : V := l.foldl (fun v a => (S.value a).getD v) v

def after (l : List α) (f : Bool) (v : V) : Bool × V := (f || l.any S.marks, S.valueAfter l v)

theorem after_cons (a : α) (l : List α) (f : Bool) (v : V) :
    S.after (a :: l) f v = S.after l (f || S.marks a) ((S.value a).getD v) := by
  unfold after valueAfter
  rw [List.any_cons, Bool.or_assoc, List.foldl_cons]

theorem valid_next (valid : S.valid v) (a : α) : S.valid ((S.value a).getD v) := by
  cases assigned : S.value a with
  | none => exact valid
  | some x => exact S.value_valid a x assigned

theorem run_cons (a : α) (l : List α) (st : Bool × V) :
    S.run (a :: l) st = (S.step a st).bind (S.run l) := rfl

/-- An order that is accepted leaves what its assignments leave. -/
theorem run_after (valid : S.valid v) {st : Bool × V} (done : S.run l (f, v) = some st) :
    st = S.after l f v := by
  induction l generalizing f v with
  | nil =>
    cases done
    simp [after, valueAfter]
  | cons a l ih =>
    rw [run_cons] at done
    obtain ⟨st', first, rest⟩ := Option.bind_eq_some_iff.mp done
    rw [S.does a f v st' valid first] at rest
    rw [after_cons]
    exact ih (S.valid_next valid a) rest

theorem run_isSome (valid : S.valid v) (done : (S.run l (f, v)).isSome) :
    S.run l (f, v) = some (S.after l f v) := by
  obtain ⟨st, ended⟩ := Option.isSome_iff_exists.mp done
  rw [ended, S.run_after valid ended]

theorem run_append (l r : List α) (st : Bool × V) :
    S.run (l ++ r) st = (S.run l st).bind (S.run r) := List.foldlM_append

/-- In an order that is accepted each step accepts what those before it leave. -/
theorem step_of_run (valid : S.valid v) (done : (S.run (m ++ a :: r) (f, v)).isSome) :
    (S.step a (S.after m f v)).isSome := by
  rw [run_append] at done
  cases before : S.run m (f, v) with
  | none =>
    rw [before] at done
    cases done
  | some st =>
    rw [before, S.run_after valid before] at done
    change ((S.step a (S.after m f v)).bind (S.run r)).isSome at done
    cases next : S.step a (S.after m f v) with
    | none =>
      rw [next] at done
      cases done
    | some st' => rfl

theorem run_of_steps (valid : S.valid v)
    (accepts : ∀ m a r, l = m ++ a :: r → (S.step a (S.after m f v)).isSome) :
    (S.run l (f, v)).isSome := by
  induction l generalizing f v with
  | nil => rfl
  | cons a l ih =>
    have first := accepts [] a l rfl
    have start : S.after [] f v = (f, v) := by simp [after, valueAfter]
    rw [start] at first
    obtain ⟨st, done⟩ := Option.isSome_iff_exists.mp first
    rw [run_cons, done]
    change (S.run l st).isSome
    rw [S.does a f v st valid done]
    apply ih (S.valid_next valid a)
    intro m b r same
    have later := accepts (a :: m) b r (by rw [same]; rfl)
    rw [after_cons] at later
    exact later

/-! ### The values -/

theorem valueAfter_none (nothing : ∀ a ∈ l, S.value a = none) (v : V) :
    S.valueAfter l v = v := by
  unfold valueAfter
  induction l generalizing v with
  | nil => rfl
  | cons a l ih =>
    rw [List.foldl_cons, nothing a List.mem_cons_self]
    exact ih (fun b mem => nothing b (List.mem_cons_of_mem a mem)) v

/-- With one value that is assigned, it is the last. -/
theorem valueAfter_same (same : ∀ a ∈ l, ∀ y, S.value a = some y → y = x) (v : V)
    (present : v = x ∨ ∃ b ∈ l, S.value b = some x) : S.valueAfter l v = x := by
  unfold valueAfter
  induction l generalizing v with
  | nil =>
    rcases present with rfl | ⟨b, mem, _⟩
    · rfl
    · cases mem
  | cons a l ih =>
    rw [List.foldl_cons]
    apply ih (fun b mem => same b (List.mem_cons_of_mem a mem))
    cases assigned : S.value a with
    | some y => exact .inl (same a List.mem_cons_self y assigned)
    | none =>
      rcases present with here | ⟨b, mem, found⟩
      · exact .inl here
      · rcases List.mem_cons.mp mem with rfl | mem
        · rw [assigned] at found
          cases found
        · exact .inr ⟨b, mem, found⟩

/-! ### Every order -/

/-- The steps assign the same, and each accepts the value before all steps, also marked by
another that assigns nothing, and the value of another, also marked by a third. -/
structure Compatible (l : List α) (f : Bool) (v : V) : Prop where
  assigned : ∀ a b rest, l.Perm (a :: b :: rest) → ∀ x y, S.value a = some x →
    S.value b = some y → x = y
  first : ∀ a rest, l.Perm (a :: rest) → (S.step a (f, v)).isSome
  marked : ∀ a b rest, l.Perm (a :: b :: rest) → S.value b = none →
    (S.step a (f || S.marks b, v)).isSome
  replaced : ∀ a b rest, l.Perm (a :: b :: rest) → ∀ c ∈ b :: rest, ∀ x, S.value b = some x →
    (S.step a (f || S.marks b || S.marks c, x)).isSome

theorem perm_of_mem (mem : a ∈ l) : ∃ rest, l.Perm (a :: rest) := by
  obtain ⟨s, t, rfl⟩ := List.append_of_mem mem
  exact ⟨s ++ t, List.perm_middle⟩

section
variable {S}

/-- What is assigned by one step is assigned by all that assign. -/
theorem Compatible.same (compatible : S.Compatible l f v) (mem : b ∈ l)
    (value : S.value b = some x) : ∀ a ∈ l, ∀ y, S.value a = some y → y = x := by
  intro a other y value'
  obtain ⟨rest, perm⟩ := perm_of_mem mem
  rcases List.mem_cons.mp (perm.mem_iff.mp other) with rfl | other
  · rw [value] at value'
    cases value'
    rfl
  · obtain ⟨rest', perm'⟩ := perm_of_mem other
    exact (compatible.assigned b a rest' (perm.trans (perm'.cons b)) x y value value').symm

theorem Compatible.valueAfter (compatible : S.Compatible l f v) (within : ∀ a ∈ m, a ∈ l)
    (mem : b ∈ m) (value : S.value b = some x) (v' : V) : S.valueAfter m v' = x := by
  apply S.valueAfter_same _ _ (.inr ⟨b, mem, value⟩)
  exact fun a other => compatible.same (within b mem) value a (within a other)

/-- Each step accepts what any others leave. -/
theorem Compatible.accepts (compatible : S.Compatible l f v)
    (perm : l.Perm (m ++ a :: r)) : (S.step a (S.after m f v)).isSome := by
  have front : l.Perm (a :: (m ++ r)) := perm.trans List.perm_middle
  have within : ∀ c ∈ m, c ∈ l := fun c mem => perm.mem_iff.mpr (List.mem_append_left _ mem)
  have other {b : α} (mem : b ∈ m) :
      ∃ rest, l.Perm (a :: b :: rest) ∧ ∀ c ∈ m, c ∈ b :: rest := by
    obtain ⟨s, t, rfl⟩ := List.append_of_mem mem
    refine ⟨s ++ t ++ r, front.trans (List.Perm.cons a ?_), ?_⟩
    · rw [List.append_assoc, List.append_assoc]
      exact List.perm_middle
    · intro c listed
      rw [List.mem_append, List.mem_cons] at listed
      simp only [List.mem_cons, List.mem_append]
      tauto
  unfold after
  by_cases none' : ∀ b ∈ m, S.value b = none
  · rw [S.valueAfter_none none']
    by_cases any : m.any S.marks
    · obtain ⟨b, mem, sets⟩ := List.any_eq_true.mp any
      obtain ⟨rest, order, _⟩ := other mem
      have accepted := compatible.marked a b rest order (none' b mem)
      rw [sets] at accepted
      rw [any]
      exact accepted
    · rw [Bool.not_eq_true] at any
      rw [any, Bool.or_false]
      exact compatible.first a _ front
  · push Not at none'
    obtain ⟨b, mem, assigns⟩ := none'
    obtain ⟨x, value⟩ := Option.ne_none_iff_exists'.mp assigns
    rw [compatible.valueAfter within mem value v]
    obtain ⟨rest, order, listed⟩ := other mem
    by_cases any : m.any S.marks
    · obtain ⟨c, mem', sets⟩ := List.any_eq_true.mp any
      have accepted := compatible.replaced a b rest order c (listed c mem') x value
      rw [sets, Bool.or_true] at accepted
      rw [any, Bool.or_true]
      exact accepted
    · rw [Bool.not_eq_true] at any
      have unmarked : S.marks b = false := by
        rw [List.any_eq_false] at any
        simpa using any b mem
      have accepted := compatible.replaced a b rest order b List.mem_cons_self x value
      rw [unmarked, Bool.or_false, Bool.or_false] at accepted
      rw [any, Bool.or_false]
      exact accepted

theorem Compatible.run (compatible : S.Compatible l f v) (valid : S.valid v)
    (perm : l.Perm l') : (S.run l' (f, v)).isSome := by
  apply S.run_of_steps valid
  intro m a r same
  rw [same] at perm
  exact compatible.accepts perm

theorem Compatible.after (compatible : S.Compatible l f v) (perm : l.Perm l') :
    S.after l' f v = S.after l f v := by
  have value : S.valueAfter l' v = S.valueAfter l v := by
    by_cases none' : ∀ b ∈ l, S.value b = none
    · rw [S.valueAfter_none none', S.valueAfter_none]
      exact fun b mem => none' b (perm.mem_iff.mpr mem)
    · push Not at none'
      obtain ⟨b, mem, assigns⟩ := none'
      obtain ⟨x, value⟩ := Option.ne_none_iff_exists'.mp assigns
      rw [compatible.valueAfter (fun _ mem => mem) mem value v]
      exact compatible.valueAfter (fun _ mem => perm.mem_iff.mpr mem) (perm.mem_iff.mp mem) value v
  have marks : l'.any S.marks = l.any S.marks := (perm.any_eq).symm
  unfold Assignments.after
  rw [value, marks]

end

/-- Every order of the steps is accepted and leaves the same. -/
def EveryOrder (l : List α) (f : Bool) (v : V) : Prop :=
  ∀ l', l.Perm l' → (S.run l' (f, v)).isSome ∧ S.run l' (f, v) = S.run l (f, v)

theorem everyOrder_iff (valid : S.valid v) :
    S.EveryOrder l f v ↔ S.Compatible l f v := by
  constructor
  · intro every
    have accepted {m : List α} {a : α} {r : List α} (perm : l.Perm (m ++ a :: r)) :
        (S.step a (S.after m f v)).isSome := S.step_of_run valid (every _ perm).1
    have assigned : ∀ a b rest, l.Perm (a :: b :: rest) → ∀ x y, S.value a = some x →
        S.value b = some y → x = y := by
      intro a b rest perm x y first second
      have last {c : α} (z : V) (m : List α) (value : S.value c = some z)
          (perm : l.Perm (m ++ [c])) : S.run l (f, v) = some (f || (m ++ [c]).any S.marks, z) := by
        obtain ⟨done, same⟩ := every _ perm
        rw [← same, S.run_isSome valid done]
        unfold after valueAfter
        rw [List.foldl_append, List.foldl_cons, List.foldl_nil, value]
        rfl
      have perm₁ : l.Perm (a :: rest ++ [b]) :=
        perm.trans (List.Perm.cons a (List.perm_append_singleton _ _).symm)
      have perm₂ : l.Perm (b :: rest ++ [a]) :=
        perm.trans ((List.Perm.swap b a rest).trans
          (List.Perm.cons b (List.perm_append_singleton _ _).symm))
      have same := (last x _ first perm₂).symm.trans (last y _ second perm₁)
      exact (Prod.ext_iff.mp (Option.some.inj same)).2
    refine ⟨assigned, ?_, ?_, ?_⟩
    · intro a rest perm
      have start := accepted (m := []) perm
      rw [show S.after [] f v = (f, v) by simp [after, valueAfter]] at start
      exact start
    · intro a b rest perm value
      have second := accepted (m := [b]) (perm.trans (List.Perm.swap b a rest))
      simp only [after, valueAfter, List.any_cons, List.any_nil, Bool.or_false, List.foldl_cons,
        List.foldl_nil, value, Option.getD_none] at second
      exact second
    · intro a b rest perm c mem x value
      rcases List.mem_cons.mp mem with rfl | mem
      · have second := accepted (m := [c]) (perm.trans (List.Perm.swap c a rest))
        simp only [after, valueAfter, List.any_cons, List.any_nil, Bool.or_false, List.foldl_cons,
          List.foldl_nil, value, Option.getD_some] at second
        rw [Bool.or_assoc, Bool.or_self]
        exact second
      · obtain ⟨rest', order⟩ := perm_of_mem mem
        have middle : (a :: ([b, c] ++ rest')).Perm ([b, c] ++ a :: rest') :=
          List.perm_middle.symm
        have three := (perm.trans ((order.cons b).cons a)).trans middle
        have third := accepted three
        have kept : (S.value c).getD x = x := by
          cases value' : S.value c with
          | none => rfl
          | some y =>
            have pair : l.Perm (b :: c :: a :: rest') := three
            exact (assigned b c _ pair x y value value').symm
        simp only [after, valueAfter, List.any_cons, List.any_nil, Bool.or_false, List.foldl_cons,
          List.foldl_nil, value, Option.getD_some, kept, ← Bool.or_assoc] at third
        exact third
  · intro compatible l' perm
    have one := compatible.run valid perm
    have two := compatible.run valid (List.Perm.refl l)
    refine ⟨one, ?_⟩
    rw [S.run_isSome valid one, S.run_isSome valid two, compatible.after perm]

end Assignments

end Libdap.Library
