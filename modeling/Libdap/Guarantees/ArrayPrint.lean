import Mathlib.Tactic
import Libdap.Source.ArrayPrint

/-!
# Every element of an Array is printed once

The loops of `print_array` see a size of zero as `2 ^ 32` and a negative one as the unsigned
number it converts to. The running index grows by the product of what they see, modulo `2 ^ 32`.
-/
namespace Libdap.Guarantees.ArrayPrint
open Libdap.Source
open Libdap.Source.Array
open Libdap.Source.ArrayPrint
open Variables (VarType)

/-- The indices of the elements asked for. -/
def requests (p : Printing) : List Nat :=
  p.pieces.filterMap fun
    | .text _ => none
    | .request index => some index.toNat

/-- The product of the constrained sizes. -/
def elements (a : Dims) : Int := (a.shape.map Dimension.cSize).prod

/-- The elements are asked for in order, each once, and their number is returned. -/
def VisitsEachOnce (a : Dims) (template : Option VarType) : Prop :=
  let printed := printArray template (shapeOf a) 0
  ∃ index, printed.index = .ok index ∧ (index.toNat : Int) = elements a ∧
    requests printed = List.range (elements a).toNat

/-! ### Requests -/

/-- The `n` elements from `start` on are asked for; the index wraps around. -/
structure Asks (p : Printing) (start : UInt32) (n : Nat) : Prop where
  index : p.index = .ok (start + UInt32.ofNat n)
  requests : requests p = (List.range n).map fun i => (start + UInt32.ofNat i).toNat

theorem requests_andThen {p : Printing} {index : UInt32} (next : UInt32 → Printing)
    (returned : p.index = .ok index) :
    requests (p.andThen next) = requests p ++ requests (next index) := by
  unfold Printing.andThen
  simp [returned, requests, List.filterMap_append]

theorem index_andThen {p : Printing} {index : UInt32} (next : UInt32 → Printing)
    (returned : p.index = .ok index) : (p.andThen next).index = (next index).index := by
  unfold Printing.andThen
  simp [returned]

theorem Asks.andThen {p : Printing} {next : UInt32 → Printing} {start : UInt32} {m n : Nat}
    (first : Asks p start m)
    (second : Asks (next (start + UInt32.ofNat m)) (start + UInt32.ofNat m) n) :
    Asks (p.andThen next) start (m + n) := by
  constructor
  · rw [index_andThen next first.index, second.index, UInt32.ofNat_add, UInt32.add_assoc]
  · rw [requests_andThen next first.index, first.requests, second.requests, List.range_add,
      List.map_append, List.map_map]
    congr 1
    apply List.map_congr_left
    intro i _
    simp [UInt32.add_assoc]

theorem say_asks (text : String) (index : UInt32) : Asks (say text index) index 0 := by
  constructor
  · simp [say]
  · simp [say, requests]

theorem printElement_asks {template : Option VarType} (serves : vectorVar template = .ok ())
    (index : UInt32) : Asks (printElement template index) index 1 := by
  constructor
  · simp [printElement, serves, Except.map]
  · simp [printElement, requests]

theorem turns_asks {part : UInt32 → Printing} {m : Nat} (each : ∀ i, Asks (part i) i m)
    (separator : String) (n : Nat) (index : UInt32) :
    Asks (turns part separator n index) index (n * m) := by
  induction n generalizing index with
  | zero =>
    constructor
    · simp [turns]
    · simp [turns, requests]
  | succ n ih =>
    have one := (each index).andThen (say_asks separator (index + UInt32.ofNat m))
    have more := one.andThen (ih _)
    have count : m + 0 + n * m = (n + 1) * m := by ring
    rw [count] at more
    exact more

/-- The number of elements or rows the loop and the statement behind it print. -/
def seen (size : UInt32) : Nat := (size - 1).toNat + 1

theorem printRow_asks {part : UInt32 → Printing} {m : Nat} (each : ∀ i, Asks (part i) i m)
    (separator : String) (size index : UInt32) :
    Asks (printRow part separator size index) index (seen size * m) := by
  have before := (say_asks "\x7b" index).andThen
    (turns_asks each separator (size - 1).toNat _)
  have last := (before.andThen (each _)).andThen (say_asks "\x7d" _)
  rw [Nat.zero_add, Nat.add_zero, ← Nat.succ_mul] at last
  exact last

/-- The run of `print_array`, by the recursion over the shape. -/
theorem printArray_asks {template : Option VarType} (serves : vectorVar template = .ok ())
    (shape : List UInt32) (dims : shape ≠ []) (index : UInt32) :
    Asks (printArray template shape index) index (shape.map seen).prod := by
  induction shape generalizing index with
  | nil => exact absurd rfl dims
  | cons size shape ih =>
    cases shape with
    | nil =>
      have row := printRow_asks (printElement_asks serves) ", " size index
      simpa [printArray] using row
    | cons next shape =>
      have row := printRow_asks (fun i => ih (List.cons_ne_nil next shape) i) "," size index
      rw [List.map_cons, List.prod_cons]
      exact row

/-! ### Elements that are refused -/

def Fails (p : Printing) : Prop := ∃ e, p.index = .error e

theorem Fails.andThen {p : Printing} (fails : Fails p) (next : UInt32 → Printing) :
    Fails (p.andThen next) := by
  obtain ⟨e, raised⟩ := fails
  exact ⟨e, by simp [Printing.andThen, raised]⟩

theorem andThen_fails (p : Printing) {next : UInt32 → Printing} (fails : ∀ i, Fails (next i)) :
    Fails (p.andThen next) := by
  cases returned : p.index with
  | error e => exact Fails.andThen ⟨e, returned⟩ next
  | ok index =>
    obtain ⟨e, raised⟩ := fails index
    exact ⟨e, by rw [index_andThen next returned, raised]⟩

theorem printRow_fails {part : UInt32 → Printing} (fails : ∀ i, Fails (part i))
    (separator : String) (size index : UInt32) : Fails (printRow part separator size index) :=
  (andThen_fails _ fails).andThen _

theorem printArray_fails {template : Option VarType} {e : Failure}
    (refuses : vectorVar template = .error e) (shape : List UInt32) (index : UInt32) :
    Fails (printArray template shape index) := by
  induction shape generalizing index with
  | nil => exact ⟨.undefinedBehaviour, rfl⟩
  | cons size shape ih =>
    cases shape with
    | nil =>
      apply printRow_fails
      intro i
      exact ⟨e, by simp [printElement, refuses, Except.map]⟩
    | cons next shape =>
      exact printRow_fails ih "," size index

/-! ### Sizes -/

theorem seen_pos (size : UInt32) : 1 ≤ seen size := Nat.le_add_left 1 _

/-- The size less one is taken modulo `2 ^ 32`. -/
theorem seen_ofInt (c : Int) : (seen (UInt32.ofInt c) : Int) = (c - 1) % 2 ^ 32 + 1 := by
  have less : UInt32.ofInt c - 1 = UInt32.ofInt (c - 1) := by
    rw [sub_eq_add_neg c 1, UInt32.ofInt_add, UInt32.ofInt_neg_one, ← UInt32.sub_eq_add_neg]
  have range : ((c - 1) % 2 ^ 32).toNat < 2 ^ 32 := by omega
  unfold seen
  rw [less, UInt32.ofInt, UInt32.toNat_ofNat_of_lt' range]
  omega

theorem seen_positive {c : Int} (positive : 0 < c) (small : c < 2 ^ 31) :
    (seen (UInt32.ofInt c) : Int) = c := by
  rw [seen_ofInt]
  omega

/-- A size that is not positive is more than `2 ^ 31` for the loops. -/
theorem seen_other {c : Int} (low : -2 ^ 31 ≤ c) (other : c ≤ 0) :
    2 ^ 31 ≤ seen (UInt32.ofInt c) := by
  have := seen_ofInt c
  omega

/-- How many elements are asked for. -/
def asked (shape : List Dimension) : Nat := (shape.map fun d => seen (UInt32.ofInt d.cSize)).prod

/-- The sizes are values of an `int`. -/
def Sized (shape : List Dimension) : Prop := ∀ d ∈ shape, -2 ^ 31 ≤ d.cSize ∧ d.cSize < 2 ^ 31

instance (shape : List Dimension) : Decidable (Sized shape) :=
  inferInstanceAs (Decidable (∀ d ∈ shape, _))

theorem asked_pos (shape : List Dimension) : 0 < asked shape := by
  apply List.prod_pos
  intro n member
  obtain ⟨d, -, rfl⟩ := List.mem_map.mp member
  exact seen_pos _

theorem asked_positive {shape : List Dimension} (sized : Sized shape)
    (positive : ∀ d ∈ shape, 0 < d.cSize) :
    (asked shape : Int) = (shape.map Dimension.cSize).prod := by
  induction shape with
  | nil => rfl
  | cons d shape ih =>
    obtain ⟨range, sized⟩ := List.forall_mem_cons.mp sized
    obtain ⟨first, positive⟩ := List.forall_mem_cons.mp positive
    have rest := ih sized positive
    unfold asked at rest ⊢
    rw [List.map_cons, List.prod_cons, List.map_cons, List.prod_cons, Nat.cast_mul, rest,
      seen_positive first range.2]

/-- Where one element is asked for, every size is one. -/
theorem positive_of_asked_one {shape : List Dimension} (sized : Sized shape)
    (one : asked shape = 1) : ∀ d ∈ shape, 0 < d.cSize := by
  intro d member
  by_contra other
  have many := seen_other (sized d member).1 (Int.not_lt.mp other)
  have divides : seen (UInt32.ofInt d.cSize) ∣ asked shape :=
    List.dvd_prod (List.mem_map_of_mem member)
  have := Nat.le_of_dvd (asked_pos shape) divides
  omega

/-- A size that is not positive leaves room for ones only, and then the product is that size. -/
theorem asked_matches {shape : List Dimension} (sized : Sized shape) (fits : asked shape < 2 ^ 32)
    (same : (asked shape : Int) = (shape.map Dimension.cSize).prod) : ∀ d ∈ shape, 0 < d.cSize := by
  intro d member
  by_contra other
  obtain ⟨front, back, rfl⟩ := List.append_of_mem member
  have many := seen_other (sized d member).1 (Int.not_lt.mp other)
  have split : asked (front ++ d :: back) =
      seen (UInt32.ofInt d.cSize) * asked (front ++ back) := by
    simp [asked, List.prod_append]
    ring
  have sizedRest : Sized (front ++ back) := by
    intro e inside
    apply sized
    simp at inside ⊢
    tauto
  have one : asked (front ++ back) = 1 := by
    have := asked_pos (front ++ back)
    by_contra more
    have : 2 ≤ asked (front ++ back) := by omega
    have := Nat.mul_le_mul many this
    omega
  have rest := asked_positive sizedRest (positive_of_asked_one sizedRest one)
  have product : ((front ++ d :: back).map Dimension.cSize).prod =
      d.cSize * ((front ++ back).map Dimension.cSize).prod := by
    simp [List.prod_append]
    ring
  have := asked_pos (front ++ d :: back)
  rw [product, ← rest, one] at same
  omega

/-! ### Arrays -/

/-- Every size is positive, there are fewer elements than an unsigned int counts, and `var` has
values of their type. -/
structure Printable (a : Dims) (template : Option VarType) : Prop where
  positive : ∀ d ∈ a.shape, 0 < d.cSize
  countable : elements a < 2 ^ 32
  served : vectorVar template = .ok ()

theorem shapeOf_asked (a : Dims) : ((shapeOf a).map seen).prod = asked a.shape := by
  unfold shapeOf asked
  rw [List.map_map]
  rfl

theorem range_requests {n : Nat} (fits : n ≤ 2 ^ 32) :
    (List.range n).map (fun i => ((0 : UInt32) + UInt32.ofNat i).toNat) = List.range n := by
  apply List.ext_getElem
  · simp
  · intro i _ inside
    have small : i < 2 ^ 32 := (List.length_range (n := n) ▸ inside).trans_le fits
    rw [List.getElem_map, List.getElem_range, UInt32.zero_add]
    exact UInt32.toNat_ofNat_of_lt' small

/-- The elements are printed in order, each once, exactly if no size is zero, an unsigned int counts
them, and `var` has values of their type. -/
theorem printArray_visits_iff (a : Dims) (template : Option VarType) (dims : a.shape ≠ [])
    (sized : Sized a.shape) : VisitsEachOnce a template ↔ Printable a template := by
  cases serves : vectorVar template with
  | error e =>
    constructor
    · rintro ⟨index, returned, -⟩
      obtain ⟨e', raised⟩ := printArray_fails serves (shapeOf a) 0
      rw [raised] at returned
      cases returned
    · intro printable
      have := printable.served
      rw [serves] at this
      cases this
  | ok served =>
    have shaped : shapeOf a ≠ [] := by simpa [shapeOf] using dims
    have asks := printArray_asks serves (shapeOf a) shaped 0
    rw [shapeOf_asked] at asks
    constructor
    · rintro ⟨index, returned, counted, visited⟩
      have count := congrArg List.length visited
      rw [asks.requests, List.length_map, List.length_range, List.length_range] at count
      have small := index.toNat_lt
      have same : (asked a.shape : Int) = elements a := by omega
      have positive := asked_matches sized (by omega) same
      exact ⟨positive, by omega, serves⟩
    · intro printable
      have same : (asked a.shape : Int) = elements a := asked_positive sized printable.positive
      have countable := printable.countable
      have small : asked a.shape < 2 ^ 32 := by omega
      refine ⟨_, asks.index, ?_, ?_⟩
      · rw [UInt32.zero_add, UInt32.toNat_ofNat_of_lt' small, same]
      · rw [asks.requests, range_requests small.le, ← same, Int.toNat_natCast]

def twoByThree : Dims := (fresh.appendDim 2 "y").appendDim 3 "x"

theorem twoByThree_visits : VisitsEachOnce twoByThree (some .int32) :=
  (printArray_visits_iff twoByThree (some .int32) (by decide) (by decide)).mpr
    ⟨by decide, by decide, rfl⟩

example : requests (printArray (some .int32) (shapeOf twoByThree) 0) = [0, 1, 2, 3, 4, 5] := by
  decide

def noRows : Dims := fresh.appendDim 0 "rows"

/-- The array has no element, and the loop asks for `2 ^ 32`. -/
theorem noRows_visits : ¬ VisitsEachOnce noRows (some .byte) := by
  rintro ⟨index, -, -, visited⟩
  have serves : vectorVar (some .byte) = .ok () := rfl
  have asks := printArray_asks serves (shapeOf noRows) (by decide) 0
  have many : ((shapeOf noRows).map seen).prod = 2 ^ 32 := by decide
  rw [many] at asks
  have count := congrArg List.length visited
  rw [asks.requests, List.length_map, List.length_range, List.length_range] at count
  revert count
  decide

end Libdap.Guarantees.ArrayPrint
