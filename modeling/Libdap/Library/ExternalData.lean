import Libdap.Library.Bytes

/-!
# External data representation

Every item takes a multiple of four bytes: an integer four of them, most significant
first, opaque data as many as it has and zeros up to the next multiple of four.
-/
namespace Libdap.Library.ExternalData
open Bytes

/-- The length of `n` bytes with their padding. -/
def rounded (n : Nat) : Nat := (n + 3) / 4 * 4

def unsigned (n : Nat) : List UInt8 := store .big 4 n

def opaqueData (data : List UInt8) : List UInt8 :=
  data ++ List.replicate (rounded data.length - data.length) 0

/-- Opaque data that carries its length. -/
def countedData (data : List UInt8) : List UInt8 := unsigned data.length ++ opaqueData data

/-- An array that carries the number of its elements, each with its own encoding. -/
def countedArray (elems : List (List UInt8)) : List UInt8 :=
  unsigned elems.length ++ elems.flatten

theorem le_rounded (n : Nat) : n ≤ rounded n := by
  unfold rounded
  omega

theorem rounded_le (n : Nat) : rounded n ≤ n + 3 := by
  unfold rounded
  omega

@[simp] theorem unsigned_length (n : Nat) : (unsigned n).length = 4 := by
  simp [unsigned]

@[simp] theorem opaqueData_length (data : List UInt8) :
    (opaqueData data).length = rounded data.length := by
  have := le_rounded data.length
  simp only [opaqueData, List.length_append, List.length_replicate]
  omega

@[simp] theorem countedData_length (data : List UInt8) :
    (countedData data).length = 4 + rounded data.length := by
  simp [countedData]

theorem opaqueData_take (data more : List UInt8) :
    (opaqueData data ++ more).take data.length = data := by
  rw [opaqueData, List.append_assoc, List.take_left]

theorem length_flatten {width : Nat} {elems : List (List UInt8)}
    (each : ∀ v ∈ elems, v.length = width) : elems.flatten.length = elems.length * width := by
  induction elems with
  | nil => simp
  | cons v elems ih =>
    have head : v.length = width := each v List.mem_cons_self
    have tail := ih fun u member => each u (List.mem_cons_of_mem v member)
    simp only [List.flatten_cons, List.length_append, List.length_cons, head, tail]
    rw [Nat.add_mul]
    omega

theorem pieces_flatten {width : Nat} {elems : List (List UInt8)}
    (each : ∀ v ∈ elems, v.length = width) (more : List UInt8) :
    pieces width elems.length (elems.flatten ++ more) = elems := by
  induction elems with
  | nil => rfl
  | cons v elems ih =>
    have head : v.length = width := each v List.mem_cons_self
    have tail := ih fun u member => each u (List.mem_cons_of_mem v member)
    rw [List.length_cons, pieces, List.flatten_cons, List.append_assoc, List.take_left' head,
      List.drop_left' head, tail]

end Libdap.Library.ExternalData
