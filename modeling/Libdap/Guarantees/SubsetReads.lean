import Libdap.Guarantees.VectorBuffer
import Libdap.Source.VectorElements

/-!
# Reads by a list of indices

The index that is equal to the length passes the check, and what lies behind the last element is
read. Only an index in front of it that is too large ends the call before.
-/
namespace Libdap.Guarantees.SubsetReads
open Libdap.Source Libdap.Source.Vectors Libdap.Source.VectorElements Libdap.Guarantees.VectorBuffer

variable {O : Objects} {v : VectorElements.Vector O} {overload : Overload}
variable {element : Nat → Except Failure Value} {i k : Nat} {index : List UInt32}

/-- The storage of the Vector has as many values as its length says, and only numbers have a
buffer. -/
def HoldsExactly (v : VectorElements.Vector O) : Prop :=
  0 ≤ v.length ∧ v.length < 2 ^ 31 ∧
    match v.type with
    | .cardinal type => (v.buf.getD []).length = v.length.toNat * type.width
    | .str | .url => v.d_str.items.length = v.length.toNat ∧ v.buf = none
    | _ => v.vec.items.length = v.length.toNat ∧ v.buf = none

/-- The element at an index, of the type that the Vector has. -/
def elementAt (v : VectorElements.Vector O) (k : Nat) : Option Value :=
  match v.type with
  | .cardinal type => (v.numberAt type k).toOption
  | .str | .url => (v.stringAt k).toOption
  | _ => none

/-- An `Error` exactly if an index is not smaller than the length, else the elements; and no
element outside the storage is read. -/
def BoundsChecked (v : VectorElements.Vector O) (overload : Overload) (index : List UInt32)
    (b : List (List UInt8)) : Prop :=
  ((∃ code message, v.valueAt overload index b = .error (.error code message)) ↔
      ∃ k ∈ index, v.length ≤ k.toNat) ∧
    ((∀ k ∈ index, (k.toNat : Int) < v.length) →
      ∃ xs, v.valueAt overload index b = .ok xs ∧
        (xs.take index.length).map some = index.map fun k => elementAt v k.toNat) ∧
    v.valueAt overload index b ≠ .error .undefinedBehaviour

/-! ### The loop -/

/-- An element is read, or lies outside. -/
def Reads (element : Nat → Except Failure Value) : Prop :=
  ∀ k, element k ≠ .error .undefinedBehaviour → ∃ x, element k = .ok x

theorem numberAt_ok (type : CardType) :
    (∃ x, v.numberAt type k = .ok x) ↔ (k + 1) * type.width ≤ (v.buf.getD []).length := by
  unfold VectorElements.Vector.numberAt
  dsimp only
  split
  next inside => simp [inside]
  next beyond => simp [beyond]

theorem stringAt_ok : (∃ x, v.stringAt k = .ok x) ↔ k < v.d_str.items.length := by
  unfold VectorElements.Vector.stringAt StdVector.get
  by_cases inside : k < v.d_str.items.length
  · simp [inside]
  · simp [inside]

theorem numberAt_reads (v : VectorElements.Vector O) (type : CardType) :
    Reads (v.numberAt type) := by
  intro k defined
  unfold VectorElements.Vector.numberAt at defined ⊢
  dsimp only at defined ⊢
  split
  next inside => exact ⟨_, rfl⟩
  next beyond => simp [beyond] at defined

theorem stringAt_reads (v : VectorElements.Vector O) : Reads v.stringAt := by
  intro k defined
  unfold VectorElements.Vector.stringAt StdVector.get at defined ⊢
  cases there : v.d_str.items[k]? with
  | none => simp [there] at defined
  | some s => exact ⟨_, rfl⟩

theorem subset_cons {k : UInt32} {rest : List UInt32} {x : Value}
    (small : ¬ uint32 v.length < k.toNat) (read : element k.toNat = .ok x) (i : Nat) :
    v.subset element i (k :: rest) = (v.subset element (i + 1) rest).map (x :: ·) := by
  rw [VectorElements.Vector.subset, if_neg small, read]
  cases v.subset element (i + 1) rest <;> rfl

theorem subset_undefined {k : UInt32} {rest : List UInt32}
    (small : ¬ uint32 v.length < k.toNat) (beyond : element k.toNat = .error .undefinedBehaviour)
    (i : Nat) : v.subset element i (k :: rest) = .error .undefinedBehaviour := by
  rw [VectorElements.Vector.subset, if_neg small, beyond]
  rfl

/-- The call ends with an `Error` if all in front of the first large index can be read. -/
theorem subset_raises (v : VectorElements.Vector O) (reads : Reads element) (i : Nat)
    (index : List UInt32) :
    (∃ code message, v.subset element i index = .error (.error code message)) ↔
      ∃ a k c, index = a ++ k :: c ∧ uint32 v.length < k.toNat ∧
        ∀ j ∈ a, j.toNat ≤ uint32 v.length ∧ ∃ x, element j.toNat = .ok x := by
  induction index generalizing i with
  | nil => simp [VectorElements.Vector.subset]
  | cons k rest ih =>
    by_cases large : uint32 v.length < k.toNat
    · rw [VectorElements.Vector.subset, if_pos large]
      exact iff_of_true ⟨.unknownError, _, rfl⟩ ⟨[], k, rest, rfl, large, by simp⟩
    · have inFront : ∀ {a j c}, k :: rest = a ++ j :: c → uint32 v.length < j.toNat →
          ∃ a', a = k :: a' ∧ rest = a' ++ j :: c := by
        intro a j c split beyond
        cases a with
        | nil =>
          obtain ⟨rfl, -⟩ := List.cons.inj split
          exact absurd beyond large
        | cons e a =>
          obtain ⟨rfl, same⟩ := List.cons.inj split
          exact ⟨a, rfl, same⟩
      by_cases defined : element k.toNat = .error .undefinedBehaviour
      · rw [subset_undefined large defined]
        apply iff_of_false (by simp)
        intro ⟨a, j, c, split, beyond, before⟩
        obtain ⟨a', rfl, -⟩ := inFront split beyond
        obtain ⟨x, read⟩ := (before k List.mem_cons_self).2
        simp [defined] at read
      · obtain ⟨x, read⟩ := reads k.toNat defined
        have same : (∃ code message, v.subset element i (k :: rest) =
            .error (.error code message)) ↔
            ∃ code message, v.subset element (i + 1) rest = .error (.error code message) := by
          rw [subset_cons large read]
          cases v.subset element (i + 1) rest <;> simp [Except.map]
        rw [same, ih]
        constructor
        · intro ⟨a, j, c, split, beyond, before⟩
          refine ⟨k :: a, j, c, by rw [split, List.cons_append], beyond, ?_⟩
          exact List.forall_mem_cons.mpr ⟨⟨Nat.le_of_not_lt large, x, read⟩, before⟩
        · intro ⟨a, j, c, split, beyond, before⟩
          obtain ⟨a', rfl, rest_eq⟩ := inFront split beyond
          exact ⟨a', j, c, rest_eq, beyond, (List.forall_mem_cons.mp before).2⟩

theorem subset_returns {xs : List Value} (i : Nat) (index : List UInt32) :
    v.subset element i index = .ok xs ↔
      (∀ k ∈ index, k.toNat ≤ uint32 v.length) ∧
        List.Forall₂ (fun k x => element k.toNat = .ok x) index xs := by
  induction index generalizing i xs with
  | nil => simp [VectorElements.Vector.subset, eq_comm]
  | cons k rest ih =>
    by_cases large : uint32 v.length < k.toNat
    · rw [VectorElements.Vector.subset, if_pos large]
      apply iff_of_false (by simp)
      intro both
      exact absurd large (Nat.not_lt.mpr (both.1 k List.mem_cons_self))
    · cases read : element k.toNat with
      | error failure =>
        rw [VectorElements.Vector.subset, if_neg large, read]
        refine iff_of_false (fun done => by cases done) ?_
        intro both
        cases both.2 with
        | cons first _ => simp [read] at first
      | ok x =>
        rw [subset_cons large read, List.forall_mem_cons]
        constructor
        · intro done
          cases result : v.subset element (i + 1) rest with
          | error failure => simp [result, Except.map] at done
          | ok ys =>
            obtain ⟨small, each⟩ := (ih (i + 1)).mp result
            simp only [result, Except.map, Except.ok.injEq] at done
            subst done
            exact ⟨⟨Nat.le_of_not_lt large, small⟩, .cons read each⟩
        · intro ⟨⟨_, small⟩, each⟩
          cases each with
          | cons first later =>
            rw [(ih (i + 1)).mpr ⟨small, later⟩]
            rw [read] at first
            cases first
            rfl

/-! ### When a subset is what was asked for -/

/-- The overload looks at the indices. -/
def Looks (v : VectorElements.Vector O) : Overload → Prop
  | .numbers _ => True
  | .strings => v.type = .str ∨ v.type = .url

/-- The overload is that for the Vector's elements. -/
def Own (v : VectorElements.Vector O) : Overload → Prop
  | .numbers type => v.type = .cardinal type
  | .strings => v.type = .str ∨ v.type = .url

/-- What the overload reads for an index lies inside the storage. -/
def Inside (v : VectorElements.Vector O) : Overload → Nat → Prop
  | .numbers type, k => (k + 1) * type.width ≤ (v.buf.getD []).length
  | .strings, k => k < v.d_str.items.length

/-- Either an index is larger than the length, and everything in front of the first such lies
inside, or all indices are smaller than the length and the overload is the right one. -/
def Sheltered (v : VectorElements.Vector O) (overload : Overload) (index : List UInt32) : Prop :=
  (Looks v overload ∧ ∃ a k c, index = a ++ k :: c ∧ v.length < k.toNat ∧
      ∀ j ∈ a, (j.toNat : Int) ≤ v.length ∧ Inside v overload j.toNat) ∨
    (∀ k ∈ index, (k.toNat : Int) < v.length) ∧ (index = [] ∨ Own v overload)

def elementOf (v : VectorElements.Vector O) : Overload → Nat → Except Failure Value
  | .numbers type => v.numberAt type
  | .strings => v.stringAt

theorem elementOf_reads (v : VectorElements.Vector O) (overload : Overload) :
    Reads (elementOf v overload) := by
  cases overload with
  | numbers type => exact numberAt_reads v type
  | strings => exact stringAt_reads v

theorem elementOf_ok : (∃ x, elementOf v overload k = .ok x) ↔ Inside v overload k := by
  cases overload with
  | numbers type => exact numberAt_ok type
  | strings => exact stringAt_ok

theorem valueAt_looks (looks : Looks v overload) (b : List (List UInt8)) :
    v.valueAt overload index b = v.subset (elementOf v overload) 0 index := by
  cases overload with
  | numbers type => rfl
  | strings => exact if_pos looks

/-- The overload for the Vector's elements reads them. -/
theorem own_reads (holds : HoldsExactly v) (own : Own v overload) (inside : k < v.length) :
    ∃ x, elementOf v overload k = .ok x ∧ elementAt v k = some x := by
  obtain ⟨low, -, exact_size⟩ := holds
  have below : k + 1 ≤ v.length.toNat := by omega
  cases overload with
  | numbers type =>
    have is : v.type = .cardinal type := own
    rw [is] at exact_size
    have fits : (k + 1) * type.width ≤ (v.buf.getD []).length :=
      exact_size ▸ Nat.mul_le_mul_right _ below
    obtain ⟨x, read⟩ := (numberAt_ok type).mpr fits
    exact ⟨x, read, by simp [elementAt, is, read, Except.toOption]⟩
  | strings =>
    obtain is | is := own <;>
    · rw [is] at exact_size
      obtain ⟨x, read⟩ := stringAt_ok.mpr (show k < v.d_str.items.length by omega)
      exact ⟨x, read, by simp [elementAt, is, read, Except.toOption]⟩

theorem numberAt_shape {type : CardType} {x : Value} (read : v.numberAt type k = .ok x) :
    ∃ bytes, x = .number type bytes := by
  unfold VectorElements.Vector.numberAt at read
  dsimp only at read
  split at read
  · exact ⟨_, (Except.ok.inj read).symm⟩
  · cases read

theorem stringAt_shape {x : Value} (read : v.stringAt k = .ok x) : ∃ s, x = .string s := by
  unfold VectorElements.Vector.stringAt at read
  split at read
  · exact ⟨_, (Except.ok.inj read).symm⟩
  · cases read

theorem toOption_some {read : Except Failure Value} {x : Value} (is : read.toOption = some x) :
    read = .ok x := by
  cases read with
  | error failure => cases is
  | ok y => exact congrArg Except.ok (Option.some.inj is)

/-- What another overload reads is no element. -/
theorem own_of_element {x : Value} (read : elementOf v overload k = .ok x)
    (element : elementAt v k = some x) : Own v overload := by
  unfold elementAt at element
  cases overload with
  | numbers type =>
    obtain ⟨bytes, rfl⟩ := numberAt_shape read
    split at element
    next own is =>
      obtain ⟨_, same⟩ := numberAt_shape (toOption_some element)
      rw [Value.number.injEq] at same
      exact is.trans (by rw [same.1])
    · obtain ⟨_, same⟩ := stringAt_shape (toOption_some element)
      cases same
    · obtain ⟨_, same⟩ := stringAt_shape (toOption_some element)
      cases same
    · cases element
  | strings =>
    obtain ⟨s, rfl⟩ := stringAt_shape read
    split at element
    · obtain ⟨_, same⟩ := numberAt_shape (toOption_some element)
      cases same
    next is => exact .inl is
    next is => exact .inr is
    · cases element

/-! ### The result -/

theorem sheltered_of_checked (low : 0 ≤ v.length) (high : v.length < 2 ^ 31)
    (looks : Looks v overload) {b : List (List UInt8)}
    (checked : BoundsChecked v overload index b) : Sheltered v overload index := by
  obtain ⟨raises, gives, -⟩ := checked
  rw [valueAt_looks looks] at raises gives
  have length : uint32 v.length = v.length.toNat := uint32_nonneg low high
  by_cases large : ∃ k ∈ index, v.length ≤ k.toNat
  · obtain ⟨a, k, c, split, beyond, before⟩ :=
      (subset_raises v (elementOf_reads v overload) 0 index).mp (raises.mpr large)
    refine .inl ⟨looks, a, k, c, split, by omega, ?_⟩
    intro j mem
    obtain ⟨small, read⟩ := before j mem
    exact ⟨by omega, elementOf_ok.mp read⟩
  · have small : ∀ k ∈ index, (k.toNat : Int) < v.length := by
      intro k mem
      by_contra beyond
      exact large ⟨k, mem, by omega⟩
    refine .inr ⟨small, ?_⟩
    obtain ⟨xs, done, elements⟩ := gives small
    obtain ⟨-, each⟩ := (subset_returns 0 index).mp done
    cases each with
    | nil => exact .inl rfl
    | cons read later =>
      simp only [List.length_cons, List.take_succ_cons, List.map_cons, List.cons.injEq] at elements
      exact .inr (own_of_element read elements.1.symm)

/-- The other way round, when all indices are smaller than the length. -/
theorem elements_of_small (holds : HoldsExactly v) (own : Own v overload)
    (small : ∀ k ∈ index, (k.toNat : Int) < v.length) :
    ∃ xs, v.subset (elementOf v overload) 0 index = .ok xs ∧
      (xs.take index.length).map some = index.map fun k => elementAt v k.toNat := by
  have length : uint32 v.length = v.length.toNat := uint32_nonneg holds.1 holds.2.1
  have each : ∀ index : List UInt32, (∀ k ∈ index, (k.toNat : Int) < v.length) →
      ∃ xs, List.Forall₂ (fun k x => elementOf v overload k.toNat = .ok x) index xs ∧
        xs.map some = index.map fun k => elementAt v k.toNat := by
    intro index small
    induction index with
    | nil => exact ⟨[], .nil, rfl⟩
    | cons k rest ih =>
      rw [List.forall_mem_cons] at small
      obtain ⟨x, read, element⟩ := own_reads holds own small.1
      obtain ⟨xs, reads, elements⟩ := ih small.2
      exact ⟨x :: xs, .cons read reads, by simp [element, elements]⟩
  obtain ⟨xs, reads, elements⟩ := each index small
  refine ⟨xs, (subset_returns 0 index).mpr ⟨?_, reads⟩, ?_⟩
  · intro k mem
    have below := small k mem
    omega
  · rw [reads.length_eq, List.take_length, elements]

theorem no_large {n : Int} (small : ∀ k ∈ index, (k.toNat : Int) < n) :
    ¬ ∃ k ∈ index, n ≤ (k.toNat : Int) := by
  intro ⟨k, mem, large⟩
  have := small k mem
  omega

theorem checked_of_sheltered (holds : HoldsExactly v) (b : List (List UInt8))
    (sheltered : Sheltered v overload index) : BoundsChecked v overload index b := by
  have low := holds.1
  have length : uint32 v.length = v.length.toNat := uint32_nonneg low holds.2.1
  obtain ⟨looks, a, k, c, split, beyond, before⟩ | ⟨small, own⟩ := sheltered
  · have mem : k ∈ index := by simp [split]
    have failed : ∃ code message, v.valueAt overload index b = .error (.error code message) := by
      rw [valueAt_looks looks]
      refine (subset_raises v (elementOf_reads v overload) 0 index).mpr
        ⟨a, k, c, split, by omega, ?_⟩
      intro j mem
      obtain ⟨small, inside⟩ := before j mem
      exact ⟨by omega, elementOf_ok.mpr inside⟩
    refine ⟨iff_of_true failed ⟨k, mem, by omega⟩, ?_, ?_⟩
    · intro small
      have below := small k mem
      exact absurd beyond (by omega)
    · obtain ⟨code, message, failed⟩ := failed
      simp [failed]
  · have gives : ∃ xs, v.valueAt overload index b = .ok xs ∧
        (xs.take index.length).map some = index.map fun k => elementAt v k.toNat := by
      obtain rfl | own := own
      · by_cases looks : Looks v overload
        · exact ⟨[], valueAt_looks looks b, rfl⟩
        · cases overload with
          | numbers type => exact absurd trivial looks
          | strings => exact ⟨b.map .string, if_neg looks, rfl⟩
      · have looks : Looks v overload := by
          cases overload with
          | numbers type => trivial
          | strings => exact own
        rw [valueAt_looks looks]
        exact elements_of_small holds own small
    obtain ⟨xs, done, elements⟩ := gives
    refine ⟨iff_of_false (by simp [done]) (no_large small), fun _ => ⟨xs, done, elements⟩, ?_⟩
    simp [done]

theorem elementAt_other (other : ¬ (v.type = .str ∨ v.type = .url)) (s : List UInt8) :
    elementAt v k ≠ some (.string s) := by
  intro element
  unfold elementAt at element
  split at element
  · obtain ⟨_, same⟩ := numberAt_shape (toOption_some element)
    cases same
  next is => exact other (.inl is)
  next is => exact other (.inr is)
  · cases element

/-- An index past the end is refused, and nothing outside the storage is read, in these two cases
only. -/
theorem bounds_checked_iff (v : VectorElements.Vector O) (holds : HoldsExactly v)
    (overload : Overload) (index : List UInt32) (b : List (List UInt8)) :
    BoundsChecked v overload index b ↔ Sheltered v overload index := by
  refine ⟨?_, checked_of_sheltered holds b⟩
  by_cases looks : Looks v overload
  · exact sheltered_of_checked holds.1 holds.2.1 looks
  · -- strings are asked of a Vector without any, and nothing is done
    cases overload with
    | numbers type => exact absurd trivial looks
    | strings =>
      intro ⟨raises, gives, _⟩
      have done : v.valueAt .strings index b = .ok (b.map .string) := if_neg looks
      have small : ∀ k ∈ index, (k.toNat : Int) < v.length := by
        intro k mem
        by_contra large
        obtain ⟨code, message, failed⟩ := raises.mpr ⟨k, mem, by omega⟩
        rw [done] at failed
        cases failed
      refine .inr ⟨small, .inl ?_⟩
      obtain ⟨xs, same, elements⟩ := gives small
      rw [done] at same
      cases same
      cases index with
      | nil => rfl
      | cons k rest =>
        cases b with
        | nil => simp at elements
        | cons s b =>
          simp only [List.map_cons, List.length_cons, List.take_succ_cons, List.cons.injEq]
            at elements
          exact absurd elements.1.symm (elementAt_other looks s)

/-! ### A Vector with one byte -/

def noObjects : Objects := ⟨Empty, fun _ => .null, id⟩

def noItems {α : Type} : StdVector α := ⟨[], 0, Nat.le_refl 0⟩

def oneByte : VectorElements.Vector noObjects where
  name := "v"
  type := .cardinal .byte
  length := 1
  capacity := 1
  readP := true
  buf := some [some 7]
  d_str := noItems
  vec := noItems

theorem bounds_checked_first :
    HoldsExactly oneByte ∧
      (BoundsChecked oneByte (.numbers .byte) [0] [] ↔ Sheltered oneByte (.numbers .byte) [0]) :=
  have holds : HoldsExactly oneByte := ⟨by decide, by decide, rfl⟩
  ⟨holds, bounds_checked_iff oneByte holds (.numbers .byte) [0] []⟩

/-- The index 1 passes the check, and the byte behind the only one is read. -/
theorem length_passes : HoldsExactly oneByte ∧ ¬ BoundsChecked oneByte (.numbers .byte) [1] [] := by
  refine ⟨⟨by decide, by decide, rfl⟩, ?_⟩
  intro checked
  exact checked.2.2 rfl

end Libdap.Guarantees.SubsetReads
