import Mathlib.Tactic

/-!
# Tables that gather values

An addition puts its values behind those that the table has under its key. Such a table,
whatever it is made of, has under each key the values of all its additions, in their order.
-/
namespace Libdap.Library.Gathering
variable {α κ ν τ : Type} [DecidableEq κ] (key : α → κ) (given : α → List ν)

/-- The values of all additions under a key. -/
def gathered (k : κ) (added : List α) : List ν :=
  added.flatMap fun a => if key a = k then given a else []

theorem gathered_cons (k : κ) (a : α) (added : List α) :
    gathered key given k (a :: added) =
      (if key a = k then given a else []) ++ gathered key given k added := by
  rw [gathered, List.flatMap_cons, gathered]

/-- What one addition does to what is found. -/
def Gathers (find : τ → κ → Option (List ν)) (add : τ → α → τ) : Prop :=
  ∀ t a k, find (add t a) k =
    if key a = k then some ((find t (key a)).getD [] ++ given a) else find t k

variable {key given} {find : τ → κ → Option (List ν)} {add : τ → α → τ}

theorem mem_gathered {v : ν} {k : κ} {added : List α} :
    v ∈ gathered key given k added ↔ ∃ a ∈ added, key a = k ∧ v ∈ given a := by
  simp only [gathered, List.mem_flatMap, List.mem_ite_nil_right]

theorem Gathers.values (gathers : Gathers key given find add) (t : τ) (added : List α) (k : κ) :
    (find (added.foldl add t) k).getD [] = (find t k).getD [] ++ gathered key given k added := by
  induction added generalizing t with
  | nil => simp [gathered]
  | cons a added ih =>
    rw [List.foldl_cons, ih, gathers, gathered_cons]
    by_cases same : key a = k
    · rw [if_pos same, if_pos same, Option.getD_some, List.append_assoc, same]
    · rw [if_neg same, if_neg same, List.nil_append]

theorem Gathers.isSome (gathers : Gathers key given find add) (t : τ) (added : List α) (k : κ) :
    (find (added.foldl add t) k).isSome ↔ (find t k).isSome ∨ ∃ a ∈ added, key a = k := by
  induction added generalizing t with
  | nil => simp
  | cons a added ih =>
    rw [List.foldl_cons, ih, gathers]
    by_cases same : key a = k
    · simp [same]
    · simp [same]

end Libdap.Library.Gathering
