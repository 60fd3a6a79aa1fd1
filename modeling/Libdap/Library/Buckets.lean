import Mathlib.Tactic

/-!
# Tables of buckets

`insert` puts an item at the end of the bucket of its key. A table whose items lie in the
buckets of their keys comes back when its items, bucket after bucket, are put into an empty
table.
-/
namespace Libdap.Library.Buckets

variable {α : Type} (key : α → Nat)

def insert (table : List (List α)) (x : α) : List (List α) :=
  table.modify (key x) (· ++ [x])

def fill (table : List (List α)) (items : List α) : List (List α) :=
  items.foldl (insert key) table

def Placed (table : List (List α)) : Prop :=
  ∀ (i : Nat) (bucket : List α), table[i]? = some bucket → ∀ x ∈ bucket, key x = i

/-- The items of a bucket are those of its key, in their order. -/
theorem fill_bucket (table : List (List α)) (items : List α) (i : Nat) :
    (fill key table items)[i]? =
      (table[i]?).map (· ++ items.filter fun x => decide (key x = i)) := by
  induction items generalizing table with
  | nil => simp [fill]
  | cons x rest ih =>
    have later := ih (insert key table x)
    change (fill key (insert key table x) rest)[i]? = _
    rw [later]
    unfold insert
    rw [List.getElem?_modify]
    by_cases own : key x = i
    · simp [own, Option.map_map, Function.comp_def]
    · simp [own]

/-- Of the items of a table, those of a key are those of its bucket. -/
theorem filter_flatten {table : List (List α)} {i offset : Nat}
    (placed : ∀ (j : Nat) (bucket : List α), table[j]? = some bucket →
      ∀ x ∈ bucket, key x = j + offset) :
    table.flatten.filter (fun x => decide (key x = i + offset)) = (table[i]?).getD [] := by
  induction table generalizing i offset with
  | nil => rfl
  | cons bucket rest ih =>
    have here := placed 0 bucket rfl
    have there := fun j b found => placed (j + 1) b (by simpa using found)
    rw [List.flatten_cons, List.filter_append]
    cases i with
    | zero =>
      have all : bucket.filter (fun x => decide (key x = 0 + offset)) = bucket :=
        List.filter_eq_self.mpr fun x member => decide_eq_true (here x member)
      have none : rest.flatten.filter (fun x => decide (key x = 0 + offset)) = [] := by
        apply List.filter_eq_nil_iff.mpr
        intro x member
        obtain ⟨b, inside, member⟩ := List.mem_flatten.mp member
        obtain ⟨j, found⟩ := List.mem_iff_getElem?.mp inside
        have := there j b found x member
        simp only [decide_eq_true_eq]
        omega
      rw [all, none, List.append_nil]
      rfl
    | succ i =>
      have none : bucket.filter (fun x => decide (key x = i + 1 + offset)) = [] := by
        apply List.filter_eq_nil_iff.mpr
        intro x member
        have := here x member
        simp only [decide_eq_true_eq]
        omega
      have shift : i + 1 + offset = i + (1 + offset) := by omega
      rw [none, List.nil_append, shift, List.getElem?_cons_succ]
      apply ih
      intro j b found x member
      have := there j b found x member
      omega

theorem fill_flatten {table : List (List α)} (placed : Placed key table) :
    fill key (List.replicate table.length []) table.flatten = table := by
  apply List.ext_getElem?
  intro i
  rw [fill_bucket]
  have own : table.flatten.filter (fun x => decide (key x = i + 0)) = (table[i]?).getD [] :=
    filter_flatten key placed
  rw [Nat.add_zero] at own
  rw [own]
  cases found : table[i]? with
  | none =>
    have outside : table.length ≤ i := List.getElem?_eq_none_iff.mp found
    rw [List.getElem?_eq_none (by simpa using outside)]
    rfl
  | some bucket =>
    have inside : i < table.length := (List.getElem?_eq_some_iff.mp found).1
    rw [List.getElem?_replicate, if_pos inside]
    rfl

end Libdap.Library.Buckets
