import Mathlib.Data.Vector.Basic
import Mathlib.Tactic

/-!
# Parts of a memory of fixed size

`slice v a n` is what stands in the `n` places from `a` on, and `blit v a xs` the memory with
`xs` written from `a` on, as far as there is room.
-/
namespace Libdap.Library.Slices
variable {α : Type} {size : Nat}

def slice (v : Vector α size) (a n : Nat) : List α := (v.toList.drop a).take n

def blit (v : Vector α size) (a : Nat) (xs : List α) : Vector α size :=
  Vector.ofFn fun i => if a ≤ i.val then xs.getD (i.val - a) v[i] else v[i]

theorem slice_length {v : Vector α size} {a n : Nat} (inside : a + n ≤ size) :
    (slice v a n).length = n := by
  simp [slice]
  omega

theorem slice_length_le (v : Vector α size) (a n : Nat) : (slice v a n).length ≤ n := by
  simp [slice]

theorem slice_getElem? (v : Vector α size) (a n i : Nat) :
    (slice v a n)[i]? = if i < n then v[a + i]? else none := by
  unfold slice
  rw [List.getElem?_take]
  simp

/-- What was written is read again. -/
theorem slice_blit (v : Vector α size) {a : Nat} (xs : List α) (inside : a + xs.length ≤ size) :
    slice (blit v a xs) a xs.length = xs := by
  apply List.ext_getElem?
  intro i
  rw [slice_getElem?]
  by_cases low : i < xs.length
  · have place : a + i < size := by omega
    rw [if_pos low, Vector.getElem?_eq_getElem place, List.getElem?_eq_getElem low]
    simp [blit, low]
  · rw [if_neg low, List.getElem?_eq_none (by omega)]

/-- The other places stay as they are. -/
theorem slice_blit_apart (v : Vector α size) {a b n : Nat} {xs : List α}
    (apart : b + n ≤ a ∨ a + xs.length ≤ b) : slice (blit v a xs) b n = slice v b n := by
  apply List.ext_getElem?
  intro i
  rw [slice_getElem?, slice_getElem?]
  by_cases low : i < n
  · rw [if_pos low, if_pos low]
    by_cases place : b + i < size
    · rw [Vector.getElem?_eq_getElem place, Vector.getElem?_eq_getElem place]
      by_cases from' : a ≤ b + i
      · have behind : xs.length ≤ b + i - a := by omega
        simp [blit, from', List.getElem?_eq_none behind]
      · simp [blit, from']
    · rw [Vector.getElem?_eq_none (by omega), Vector.getElem?_eq_none (by omega)]
  · rw [if_neg low, if_neg low]

theorem slice_add (v : Vector α size) (a m n : Nat) :
    slice v a (m + n) = slice v a m ++ slice v (a + m) n := by
  unfold slice
  rw [List.take_add, List.drop_drop]

/-- The first place of a slice. -/
theorem getElem?_of_slice {v : Vector α size} {a n : Nat} {c : α} {rest : List α}
    (read : slice v a n = c :: rest) : v[a]? = some c := by
  have first := slice_getElem? v a n 0
  rw [read] at first
  by_cases some' : 0 < n
  · rw [if_pos some'] at first
    exact first.symm
  · rw [if_neg some'] at first
    cases first

/-- Where both parts are whole, they are the parts of the slice. -/
theorem slice_append {v : Vector α size} {a : Nat} (front back : List α)
    (read : slice v a (front.length + back.length) = front ++ back) :
    slice v a front.length = front ∧ slice v (a + front.length) back.length = back := by
  rw [slice_add] at read
  have lengths := congrArg List.length read
  rw [List.length_append, List.length_append] at lengths
  have := slice_length_le v a front.length
  have := slice_length_le v (a + front.length) back.length
  exact List.append_inj read (by omega)

theorem slice_drop (v : Vector α size) (a m n : Nat) :
    (slice v a (m + n)).drop m = slice v (a + m) n := by
  unfold slice
  rw [List.drop_take, List.drop_drop, Nat.add_sub_cancel_left]

end Libdap.Library.Slices
