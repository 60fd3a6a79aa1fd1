import Mathlib.Data.List.Lex
import Mathlib.Tactic

/-!
# Ordered sets compared by a key

An insertion leaves a set as it is that has an element of the same key. A set built from a list
has of each key the element that came first.
-/
namespace Libdap.Library.KeyedSet
variable {α κ : Type} [LinearOrder κ] (key : α → κ)

def insert (x : α) : List α → List α
  | [] => [x]
  | first :: rest =>
    if key x < key first then x :: first :: rest
    else if key first < key x then first :: insert x rest
    else first :: rest

def build (xs : List α) : List α := xs.foldl (fun set x => insert key x set) []

abbrev Sorted (set : List α) : Prop := set.Pairwise fun a b => key a < key b

variable {key} {x y : α} {set xs : List α}

theorem mem_of_insert (mem : y ∈ insert key x set) : y = x ∨ y ∈ set := by
  induction set with
  | nil => simpa [insert] using mem
  | cons first rest ih =>
    unfold insert at mem
    split_ifs at mem
    · exact List.mem_cons.mp mem
    · rw [List.mem_cons] at mem
      obtain rfl | mem := mem
      · exact .inr List.mem_cons_self
      · exact (ih mem).imp_right (List.mem_cons_of_mem _)
    · exact .inr mem

theorem mem_insert_of_mem (mem : y ∈ set) : y ∈ insert key x set := by
  induction set with
  | nil => simp at mem
  | cons first rest ih =>
    unfold insert
    split_ifs
    · exact List.mem_cons_of_mem _ mem
    · rw [List.mem_cons] at mem ⊢
      exact mem.imp_right ih
    · exact mem

theorem Sorted.insert (sorted : Sorted key set) (x : α) : Sorted key (insert key x set) := by
  induction set with
  | nil => simp [KeyedSet.insert]
  | cons first rest ih =>
    have both := List.pairwise_cons.mp sorted
    unfold KeyedSet.insert
    split_ifs with before behind
    · refine List.pairwise_cons.mpr ⟨?_, sorted⟩
      intro y mem
      rw [List.mem_cons] at mem
      obtain rfl | mem := mem
      · exact before
      · exact before.trans (both.1 y mem)
    · refine List.pairwise_cons.mpr ⟨?_, ih both.2⟩
      intro y mem
      obtain rfl | mem := mem_of_insert mem
      · exact behind
      · exact both.1 y mem
    · exact sorted

/-- The new element is in the set unless one of its key was there. -/
theorem mem_insert_self (sorted : Sorted key set) (distinct : x ∉ set) :
    x ∈ insert key x set ↔ ∀ y ∈ set, key y ≠ key x := by
  induction set with
  | nil => simp [insert]
  | cons first rest ih =>
    rw [List.mem_cons, not_or] at distinct
    have both := List.pairwise_cons.mp sorted
    unfold insert
    split_ifs with before behind
    · apply iff_of_true List.mem_cons_self
      intro y mem
      rw [List.mem_cons] at mem
      obtain rfl | mem := mem
      · exact before.ne'
      · exact (before.trans (both.1 y mem)).ne'
    · rw [List.mem_cons, or_iff_right distinct.1, ih both.2 distinct.2, List.forall_mem_cons]
      exact (and_iff_right behind.ne).symm
    · have same : key first = key x := le_antisymm (not_lt.mp before) (not_lt.mp behind)
      refine iff_of_false ?_ fun all => all first List.mem_cons_self same
      rw [List.mem_cons, not_or]
      exact distinct

theorem build_append (xs : List α) (x : α) : build key (xs ++ [x]) = insert key x (build key xs) := by
  simp [build]

theorem build_sorted (xs : List α) : Sorted key (build key xs) := by
  induction xs using List.reverseRecOn with
  | nil => exact List.Pairwise.nil
  | append_singleton xs x ih =>
    rw [build_append]
    exact ih.insert x

theorem sorted_unique (sorted : Sorted key set) (memX : x ∈ set) (memY : y ∈ set)
    (same : key x = key y) : x = y := by
  induction set with
  | nil => simp at memX
  | cons first rest ih =>
    have both := List.pairwise_cons.mp sorted
    rw [List.mem_cons] at memX memY
    obtain rfl | memX := memX
    · obtain rfl | memY := memY
      · rfl
      · exact absurd same (both.1 y memY).ne
    · obtain rfl | memY := memY
      · exact absurd same (both.1 x memX).ne'
      · exact ih both.2 memX memY

theorem build_unique (xs : List α) (memX : x ∈ build key xs) (memY : y ∈ build key xs)
    (same : key x = key y) : x = y :=
  sorted_unique (build_sorted xs) memX memY same

theorem mem_of_build (mem : x ∈ build key xs) : x ∈ xs := by
  induction xs using List.reverseRecOn with
  | nil => exact mem
  | append_singleton xs y ih =>
    rw [build_append] at mem
    obtain rfl | mem := mem_of_insert mem
    · simp
    · exact List.mem_append_left _ (ih mem)

/-- Every key is in the set. -/
theorem build_covers (mem : x ∈ xs) : ∃ y ∈ build key xs, key y = key x := by
  induction xs using List.reverseRecOn with
  | nil => simp at mem
  | append_singleton xs z ih =>
    rw [build_append]
    rw [List.mem_append, List.mem_singleton] at mem
    obtain old | rfl := mem
    · obtain ⟨y, there, same⟩ := ih old
      exact ⟨y, mem_insert_of_mem there, same⟩
    · by_cases taken : ∃ y ∈ build key xs, key y = key x
      · obtain ⟨y, there, same⟩ := taken
        exact ⟨y, mem_insert_of_mem there, same⟩
      · have free : ∀ y ∈ build key xs, key y ≠ key x := fun y there same => taken ⟨y, there, same⟩
        have fresh : x ∉ build key xs := fun there => free x there rfl
        exact ⟨x, (mem_insert_self (build_sorted xs) fresh).mpr free, rfl⟩

/-- What came first of its key stays, and of a second list only the keys that the first lacks. -/
theorem mem_build_append {ys : List α} :
    x ∈ build key (xs ++ ys) ↔
      x ∈ build key xs ∨ x ∈ build key ys ∧ ∀ y ∈ xs, key y ≠ key x := by
  induction ys using List.reverseRecOn generalizing x with
  | nil => simp [build]
  | append_singleton ys z ih =>
    rw [← List.append_assoc, build_append, build_append]
    by_cases same : x = z
    · subst same
      by_cases old : x ∈ build key (xs ++ ys)
      · apply iff_of_true (mem_insert_of_mem old)
        exact (ih.mp old).imp_right fun both => ⟨mem_insert_of_mem both.1, both.2⟩
      · rw [mem_insert_self (build_sorted (xs ++ ys)) old]
        rw [ih, not_or] at old
        constructor
        · intro free
          have fresh : ∀ y ∈ xs ++ ys, key y ≠ key x := by
            intro y mem same
            obtain ⟨w, there, is⟩ : ∃ w ∈ build key (xs ++ ys), key w = key y := build_covers mem
            exact free w there (is.trans same)
          refine .inr ⟨?_, fun y mem => fresh y (List.mem_append_left _ mem)⟩
          have absent : x ∉ build key ys := fun mem =>
            fresh x (List.mem_append_right xs (mem_of_build mem)) rfl
          apply (mem_insert_self (build_sorted ys) absent).mpr
          exact fun y mem => fresh y (List.mem_append_right xs (mem_of_build mem))
        · intro there
          obtain first | ⟨second, free⟩ := there
          · exact absurd first old.1
          · have absent : x ∉ build key ys := fun mem => old.2 ⟨mem, free⟩
            have later := (mem_insert_self (build_sorted ys) absent).mp second
            intro y mem
            obtain left | right := ih.mp mem
            · exact free y (mem_of_build left)
            · exact later y right.1
    · have drop : ∀ set : List α, x ∈ insert key z set ↔ x ∈ set := by
        intro set
        constructor
        · intro mem
          exact (mem_of_insert mem).resolve_left same
        · exact mem_insert_of_mem
      rw [drop, drop, ih]

end Libdap.Library.KeyedSet
