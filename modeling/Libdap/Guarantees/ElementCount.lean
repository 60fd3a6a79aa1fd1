import Libdap.Source.ElementCount
import Libdap.Library.Outcome

/-!
# The element count of a tree

What `element_count(true)` should be depends on the type alone: the leaves of the tree.
The loop over the maps of a Grid adds each count to its iterator instead of to the sum,
so a map with a leaf is never counted, and usually the iterator leaves the vector.
-/
namespace Libdap.Guarantees.ElementCount
open Libdap.Library
open Libdap.Source Libdap.Source.ElementCount

mutual

/-- The leaf variables of a type. -/
def leaves : Shape → Nat
  | .simple _ => 1
  | .array template => leaves template
  | .record vars => leavesOf vars
  | .grid template maps => leaves template + leavesOf maps

def leavesOf : List Shape → Nat
  | [] => 0
  | s :: vars => leaves s + leavesOf vars

end

mutual

/-- Every Array has data, and no map of a Grid has a leaf. -/
def Countable : {s : Shape} → Variable s → Prop
  | _, .simple _ => True
  | _, .unread _ => False
  | _, .read first => Countable first
  | _, .record members => EachCountable members
  | _, @Variable.grid _ maps arrayVar mapVars =>
    Countable arrayVar ∧ EachCountable mapVars ∧ leavesOf maps = 0

def EachCountable : {vars : List Shape} → Members vars → Prop
  | _, .nil => True
  | _, .cons var rest => Countable var ∧ EachCountable rest

end

/-! ## No count is too large -/

mutual

theorem elementCount_le : {s : Shape} → (v : Variable s) → {n : Nat} →
    elementCount v = .ok n → n ≤ leaves s
  | _, .simple _, n, done => by
    cases done
    simp [leaves]
  | _, .unread _, n, done => by cases done
  | _, .read first, n, done => by
    rw [elementCount] at done
    exact elementCount_le first done
  | _, .record members, n, done => by
    rw [elementCount] at done
    exact memberCounts_le members done
  | _, .grid arrayVar mapVars, n, done => by
    rw [elementCount] at done
    obtain ⟨_, -, counted⟩ := bind_success done
    have below := elementCount_le arrayVar counted
    simp only [leaves] at below ⊢
    omega

theorem memberCounts_le : {vars : List Shape} → (members : Members vars) → {n : Nat} →
    memberCounts members = .ok n → n ≤ leavesOf vars
  | _, .nil, n, done => by
    cases done
    simp [leavesOf]
  | _, .cons var rest, n, done => by
    rw [memberCounts] at done
    obtain ⟨i, first, remaining⟩ := bind_success done
    obtain ⟨sum, others, total⟩ := bind_success remaining
    have below := elementCount_le var first
    have below' := memberCounts_le rest others
    cases total
    rw [leavesOf]
    omega

end

/-! ## Where the count is right -/

mutual

theorem elementCount_of_countable : {s : Shape} → (v : Variable s) → Countable v →
    elementCount v = .ok (leaves s)
  | _, .simple _, _ => by simp [elementCount, leaves]
  | _, .unread _, right => by cases right
  | _, .read first, right => by
    rw [elementCount, leaves]
    exact elementCount_of_countable first (by simpa [Countable] using right)
  | _, .record members, right => by
    rw [elementCount, leaves]
    exact memberCounts_of_countable members (by simpa [Countable] using right)
  | _, .grid arrayVar mapVars, right => by
    rw [Countable] at right
    obtain ⟨array, maps, none'⟩ := right
    have counted := elementCount_of_countable arrayVar array
    rw [leaves] at counted
    rw [elementCount, mapSteps_of_countable mapVars maps none', leaves, none', Nat.add_zero]
    exact counted

theorem memberCounts_of_countable : {vars : List Shape} → (members : Members vars) →
    EachCountable members → memberCounts members = .ok (leavesOf vars)
  | _, .nil, _ => by simp [memberCounts, leavesOf]
  | _, .cons var rest, right => by
    rw [EachCountable] at right
    rw [memberCounts, elementCount_of_countable var right.1, leavesOf]
    simp [bind, Except.bind, memberCounts_of_countable rest right.2]

/-- Maps without leaves let the iterator go on one by one. -/
theorem mapSteps_of_countable : {maps : List Shape} → (mapVars : Members maps) →
    EachCountable mapVars → leavesOf maps = 0 → mapSteps 0 mapVars = .ok ()
  | _, .nil, _, _ => by simp [mapSteps]
  | _, @Members.cons s vars var rest, right, none' => by
    rw [EachCountable] at right
    rw [leavesOf] at none'
    have counted := elementCount_of_countable var right.1
    rw [show leaves s = 0 by omega] at counted
    rw [mapSteps, counted]
    exact mapSteps_of_countable rest right.2 (by omega)

end

mutual

theorem countable_of_elementCount : {s : Shape} → (v : Variable s) →
    elementCount v = .ok (leaves s) → Countable v
  | _, .simple _, _ => by simp [Countable]
  | _, .unread _, done => by cases done
  | _, .read first, done => by
    rw [elementCount, leaves] at done
    rw [Countable]
    exact countable_of_elementCount first done
  | _, .record members, done => by
    rw [elementCount, leaves] at done
    rw [Countable]
    exact countable_of_memberCounts members done
  | _, @Variable.grid template maps arrayVar mapVars, done => by
    rw [elementCount] at done
    obtain ⟨_, stepped, counted⟩ := bind_success done
    have below := elementCount_le arrayVar counted
    -- only the array was counted, so nothing may be missing
    have none' : leavesOf maps = 0 := by
      simp only [leaves] at below
      omega
    rw [leaves, none', Nat.add_zero] at counted
    rw [Countable]
    exact ⟨countable_of_elementCount arrayVar (by rwa [leaves]),
      countable_of_mapSteps mapVars none' stepped, none'⟩

theorem countable_of_memberCounts : {vars : List Shape} → (members : Members vars) →
    memberCounts members = .ok (leavesOf vars) → EachCountable members
  | _, .nil, _ => by simp [EachCountable]
  | _, @Members.cons s vars var rest, done => by
    rw [memberCounts] at done
    obtain ⟨i, first, remaining⟩ := bind_success done
    obtain ⟨sum, others, total⟩ := bind_success remaining
    have below := elementCount_le var first
    have below' := memberCounts_le rest others
    have all : i + sum = leaves s + leavesOf vars := by
      rw [leavesOf] at total
      injection total
    have i_eq : i = leaves s := by omega
    have sum_eq : sum = leavesOf vars := by omega
    subst i_eq sum_eq
    rw [EachCountable]
    exact ⟨countable_of_elementCount var first, countable_of_memberCounts rest others⟩

theorem countable_of_mapSteps : {maps : List Shape} → (mapVars : Members maps) →
    leavesOf maps = 0 → {u : Unit} → mapSteps 0 mapVars = .ok u → EachCountable mapVars
  | _, .nil, _, _, _ => by simp [EachCountable]
  | _, @Members.cons s vars var rest, none', u, done => by
    rw [leavesOf] at none'
    rw [mapSteps] at done
    obtain ⟨j, counted, remaining⟩ := bind_success done
    have below := elementCount_le var counted
    have j_eq : j = 0 := by omega
    subst j_eq
    rw [EachCountable]
    refine ⟨countable_of_elementCount var ?_, countable_of_mapSteps rest (by omega) remaining⟩
    rw [counted, show leaves s = 0 by omega]

end

/-- The count is that of the leaves exactly if every Array has data and no map of a Grid has a leaf.
-/
theorem elementCount_eq_leaves_iff {s : Shape} (v : Variable s) :
    elementCount v = .ok (leaves s) ↔ Countable v :=
  ⟨countable_of_elementCount v, elementCount_of_countable v⟩

/-- An Int32 Array that has been read. -/
def readVector : Variable (.array (.simple .number)) := .read (.simple .number)

/-- A Grid over one map: the iterator is past the end after the first step. -/
theorem grid_with_map_not_counted :
    elementCount (.grid readVector (.cons readVector .nil)) ≠
      .ok (leaves (.grid (.simple .number) [.array (.simple .number)])) := by
  intro counted
  cases counted

end Libdap.Guarantees.ElementCount
