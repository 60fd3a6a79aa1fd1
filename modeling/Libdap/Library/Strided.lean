import Mathlib.Tactic
import Mathlib.Data.Int.Interval

/-!
# Strided index ranges

`indices start stride stop` is the set of start, start + stride, ... not
exceeding stop.
-/
namespace Libdap.Library.Strided

noncomputable def indices (start stride stop : Int) : Finset Int :=
  (Finset.Icc start stop).filter fun i => stride ∣ i - start

theorem indices_eq_image {start stride stop : Int} (positive : 0 < stride)
    (ordered : start ≤ stop) :
    indices start stride stop =
      (Finset.range (((stop - start) / stride + 1).toNat)).image
        fun k : Nat => start + k * stride := by
  have count : 0 ≤ (stop - start) / stride := Int.ediv_nonneg (by omega) (by omega)
  ext i
  simp only [indices, Finset.mem_filter, Finset.mem_Icc, Finset.mem_image, Finset.mem_range]
  constructor
  · rintro ⟨⟨above, below⟩, k, multiple⟩
    have nonneg : 0 ≤ k := by
      by_contra negative
      have := Int.mul_neg_of_pos_of_neg positive (Int.not_le.mp negative)
      omega
    have bound : k ≤ (stop - start) / stride := by
      rw [Int.le_ediv_iff_mul_le positive, Int.mul_comm]
      omega
    refine ⟨k.toNat, by omega, ?_⟩
    rw [Int.toNat_of_nonneg nonneg, Int.mul_comm]
    omega
  · rintro ⟨k, below, rfl⟩
    have nonneg : 0 ≤ (k : Int) * stride := Int.mul_nonneg (by omega) (by omega)
    have bound : (k : Int) ≤ (stop - start) / stride := by omega
    rw [Int.le_ediv_iff_mul_le positive] at bound
    exact ⟨⟨by omega, by omega⟩, k, by ring⟩

theorem card_indices {start stride stop : Int} (positive : 0 < stride) (ordered : start ≤ stop) :
    ((indices start stride stop).card : Int) = (stop - start) / stride + 1 := by
  have count : 0 ≤ (stop - start) / stride := Int.ediv_nonneg (by omega) (by omega)
  rw [indices_eq_image positive ordered, Finset.card_image_of_injective, Finset.card_range,
    Int.toNat_of_nonneg (by omega)]
  intro a b same
  have product : (a : Int) * stride = b * stride := by simpa using same
  exact_mod_cast Int.eq_of_mul_eq_mul_right (by omega) product

end Libdap.Library.Strided
