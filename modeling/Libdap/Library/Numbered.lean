import Mathlib.Tactic

/-!
# Elements picked by their number

`numbered pick n xs` are the elements of a list whose numbers are picked, where the
first has number `n`. `strided` picks start, start + stride, ... not exceeding stop;
`firstBeyond` is the first number of this progression behind stop.
-/
namespace Libdap.Library.Numbered
variable {α β : Type}

def numbered (pick : Nat → Bool) : Nat → List α → List α
  | _, [] => []
  | n, x :: xs => if pick n then x :: numbered pick (n + 1) xs else numbered pick (n + 1) xs

theorem numbered_drop {pick : Nat → Bool} {n : Nat} (d : Nat)
    (skipped : ∀ i, n ≤ i → i < n + d → pick i = false) (xs : List α) :
    numbered pick n xs = numbered pick (n + d) (xs.drop d) := by
  induction d generalizing n xs with
  | zero => rfl
  | succ d ih =>
    cases xs with
    | nil => rfl
    | cons x xs =>
      have first : pick n = false := skipped n (Nat.le_refl _) (by omega)
      have later : ∀ i, n + 1 ≤ i → i < n + 1 + d → pick i = false :=
        fun i above bound => skipped i (by omega) (by omega)
      rw [numbered, if_neg (by simp [first]), ih later xs, List.drop_succ_cons]
      congr 1
      omega

theorem numbered_none {pick : Nat → Bool} {n : Nat} (skipped : ∀ i, n ≤ i → pick i = false)
    (xs : List α) : numbered pick n xs = [] := by
  rw [numbered_drop xs.length (fun i above _ => skipped i above) xs, List.drop_length]
  rfl

def strided (start stride stop : Nat) (i : Nat) : Bool :=
  decide (start ≤ i ∧ i ≤ stop ∧ stride ∣ i - start)

def firstBeyond (start stride stop : Nat) : Nat := start + ((stop - start) / stride + 1) * stride

section
variable {start stride stop : Nat}

theorem lt_firstBeyond (positive : 1 ≤ stride) (ordered : start ≤ stop) :
    stop < firstBeyond start stride stop := by
  have below := Nat.lt_mul_div_succ (stop - start) positive
  rw [Nat.mul_comm] at below
  unfold firstBeyond
  omega

/-- The progression is either inside the range or at its first number behind it. -/
theorem next_le_firstBeyond (positive : 1 ≤ stride) {m : Nat}
    (inside : start + m * stride ≤ stop) :
    start + (m + 1) * stride ≤ firstBeyond start stride stop := by
  have bound : m ≤ (stop - start) / stride := by
    rw [Nat.le_div_iff_mul_le positive]
    omega
  exact Nat.add_le_add_left (Nat.mul_le_mul_right stride (by omega)) start

theorem eq_firstBeyond (positive : 1 ≤ stride) (ordered : start ≤ stop) {m : Nat}
    (outside : stop < start + m * stride)
    (bound : start + m * stride ≤ firstBeyond start stride stop) :
    start + m * stride = firstBeyond start stride stop := by
  have least : (stop - start) / stride < m := by
    rw [Nat.div_lt_iff_lt_mul positive]
    omega
  have most : m * stride ≤ ((stop - start) / stride + 1) * stride := by
    unfold firstBeyond at bound
    omega
  have same : m = (stop - start) / stride + 1 := by
    have := Nat.le_of_mul_le_mul_right most positive
    omega
  rw [same, firstBeyond]

theorem strided_start (xs : List α) :
    numbered (strided start stride stop) 0 xs =
      numbered (strided start stride stop) start (xs.drop start) := by
  have skipped : ∀ i, 0 ≤ i → i < 0 + start → strided start stride stop i = false := by
    intro i _ below
    simp only [strided, decide_eq_false_iff_not]
    omega
  rw [numbered_drop start skipped xs, Nat.zero_add]

theorem strided_next (positive : 1 ≤ stride) {m : Nat} (inside : start + m * stride ≤ stop)
    (x : α) (xs : List α) :
    numbered (strided start stride stop) (start + m * stride) (x :: xs) =
      x :: numbered (strided start stride stop) (start + (m + 1) * stride)
        (xs.drop (stride - 1)) := by
  have here : strided start stride stop (start + m * stride) = true := by
    simp [strided, inside]
  have skipped : ∀ i, start + m * stride + 1 ≤ i → i < start + m * stride + 1 + (stride - 1) →
      strided start stride stop i = false := by
    intro i above below
    simp only [strided, decide_eq_false_iff_not]
    rintro ⟨-, -, c, multiple⟩
    have low : m * stride < c * stride := by rw [Nat.mul_comm c]; omega
    have high : c * stride < (m + 1) * stride := by
      rw [Nat.succ_mul, Nat.mul_comm c]
      omega
    have := Nat.lt_of_mul_lt_mul_right low
    have := Nat.lt_of_mul_lt_mul_right high
    omega
  have next : start + m * stride + 1 + (stride - 1) = start + (m + 1) * stride := by
    rw [Nat.succ_mul]
    omega
  rw [numbered, if_pos here, numbered_drop (stride - 1) skipped, next]

theorem strided_beyond {n : Nat} (outside : stop < n) (xs : List α) :
    numbered (strided start stride stop) n xs = [] := by
  refine numbered_none ?_ xs
  intro i above
  simp only [strided, decide_eq_false_iff_not]
  omega

end

end Libdap.Library.Numbered
