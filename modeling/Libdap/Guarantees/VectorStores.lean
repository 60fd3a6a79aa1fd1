import Libdap.Guarantees.SubsetReads
import Libdap.Library.Runs

/-!
# Objects stored in a Vector

`set_vec` makes `_vec` longer if the index is not below its capacity. An index between the size
and the capacity, as a reservation leaves them, is written behind the last element.
-/
namespace Libdap.Guarantees.VectorStores
open Libdap.Source Libdap.Source.Array Libdap.Source.Vectors Libdap.Source.VectorElements
open Libdap.Library.Runs Libdap.Guarantees.VectorBuffer Libdap.Guarantees.SubsetReads

/-- A call with the capacity that the library chooses if it makes room. -/
inductive Call (O : Objects) where
  | reserve (m : Fin (2 ^ 32)) (chosen : Nat)
  | setVec (i : Nat) (val : O.Object) (chosen : Nat)

variable {O : Objects} {v v' : VectorElements.Vector O} {calls : List (Call O)} {c : Call O}
variable {i j : Nat}

def call (v : VectorElements.Vector O) : Call O → Except Failure (VectorElements.Vector O)
  | .reserve m chosen => v.reserveValueCapacity m chosen
  | .setVec i val chosen => v.setVec i (some val) chosen

/-- A Vector of a constructor type. -/
def OfObjects (v : VectorElements.Vector O) : Prop :=
  (v.type = .array ∨ v.type = .struct ∨ v.type = .sequence ∨ v.type = .grid) ∧
    0 ≤ v.length ∧ v.length < 2 ^ 31

/-- The index is smaller than the length, and the object is of the type of the Vector. -/
def Admissible (v : VectorElements.Vector O) : Call O → Prop
  | .reserve _ _ => True
  | .setVec i val _ => (i : Int) < v.length ∧ O.type val = v.type

/-- What the call stores at an index. -/
def Call.storedAt (j : Nat) : Call O → Option O.Object
  | .reserve _ _ => none
  | .setVec i val _ => if i = j then some val else none

/-- What was stored last at an index. -/
def stored (j : Nat) : List (Call O) → Option O.Object
  | [] => none
  | c :: rest => (stored j rest).or (c.storedAt j)

/-- No call writes outside the elements; at every index is a copy of what was stored there last,
and where nothing was stored is what was there before. -/
def Stores (v : VectorElements.Vector O) (calls : List (Call O)) : Prop :=
  ∃ v', calls.foldlM call v = .ok v' ∧ ∀ j,
    (∀ x, stored j calls = some x → v'.vec.items[j]? = some (some (O.ptrDuplicate x))) ∧
      (stored j calls = none → ∀ x, v.vec.items[j]? = some x → v'.vec.items[j]? = some x)

/-- The index is that of an element, or the vector is made longer for it. -/
def Covered (v : VectorElements.Vector O) : Call O → Prop
  | .reserve _ _ => True
  | .setVec i _ _ => i < v.vec.items.length ∨ v.vec.capacity ≤ i ∧ i + 10 < 2 ^ 31

/-- The Vector after a call; after one that fails nothing is asked of it. -/
def after (v : VectorElements.Vector O) (c : Call O) : VectorElements.Vector O :=
  match call v c with
  | .ok v' => v'
  | .error _ => v

/-! ### One call -/

theorem int32_ten (i : Nat) (small : i < 2 ^ 31) :
    (i + 10 < 2 ^ 31 → int32 (i + 10) = i + 10) ∧ (2 ^ 31 ≤ i + 10 → int32 (i + 10) ≤ 0) := by
  unfold int32
  rw [BitVec.toInt_ofInt, Int.bmod_def]
  constructor
  · intro _
    omega
  · intro _
    omega

theorem store_ok {α : Type} {items : StdVector α} {x : α} :
    (∃ items', items.store i x = .ok items') ↔ i < items.items.length := by
  unfold StdVector.store
  split
  next inside => simp [inside]
  next beyond => simp [beyond]

theorem store_items {α : Type} {items items' : StdVector α} {x : α}
    (done : items.store i x = .ok items') :
    i < items.items.length ∧ items'.items = items.items.set i x := by
  unfold StdVector.store at done
  split at done
  next inside =>
    cases done
    exact ⟨inside, rfl⟩
  next beyond => cases done

/-- The elements of the vector that is written to, after room was made for the index. -/
def roomFor (v : VectorElements.Vector O) (i chosen : Nat) : VectorElements.Vector O :=
  if v.vec.capacity ≤ i then v.vecResize (int32 (i + 10)) chosen else v

theorem setVec_eq {val : O.Object} {chosen : Nat} (objects : OfObjects v)
    (inside : (i : Int) < v.length) (type : O.type val = v.type) :
    v.setVec i (some val) chosen = (do
      let vec ← (roomFor v i chosen).vec.store i (some (O.ptrDuplicate val))
      pure { roomFor v i chosen with vec }) := by
  have length := uint32_nonneg objects.2.1 objects.2.2
  unfold VectorElements.Vector.setVec
  rw [if_neg (by omega)]
  simp only [type, ne_eq, not_true_eq_false, if_false]
  rfl

theorem resize_length (v : VectorElements.Vector O) (l : Int) (chosen : Nat) :
    (v.vecResize l chosen).vec.items.length = if 0 < l then l.toNat else 0 := by
  unfold VectorElements.Vector.vecResize StdVector.resize
  simp only [List.length_append, List.length_take, List.length_replicate]
  omega

theorem roomFor_length (v : VectorElements.Vector O) (i chosen : Nat) (small : i < 2 ^ 31) :
    i < (roomFor v i chosen).vec.items.length ↔
      i < v.vec.items.length ∨ v.vec.capacity ≤ i ∧ i + 10 < 2 ^ 31 := by
  have fits := v.vec.fits
  obtain ⟨exact_sum, negative⟩ := int32_ten i small
  unfold roomFor
  split
  next full =>
    rw [resize_length]
    by_cases sum : i + 10 < 2 ^ 31
    · rw [exact_sum sum, if_pos (by omega)]
      omega
    · rw [if_neg (by have := negative (by omega); omega)]
      omega
  next room => omega

/-- Making room leaves the elements where they are, if the index is one afterwards. -/
theorem roomFor_keeps {chosen : Nat} {x : Option O.Object}
    (inside : i < (roomFor v i chosen).vec.items.length) (there : v.vec.items[j]? = some x) :
    (roomFor v i chosen).vec.items[j]? = some x := by
  have fits := v.vec.fits
  have below : j < v.vec.items.length := (List.getElem?_eq_some_iff.mp there).1
  unfold roomFor at inside ⊢
  split at inside
  next full =>
    rw [if_pos full]
    rw [resize_length] at inside
    unfold VectorElements.Vector.vecResize StdVector.resize
    simp only
    rw [List.getElem?_append_left (by simp; omega), List.getElem?_take_of_lt (by omega)]
    exact there
  next room =>
    rw [if_neg room]
    exact there

theorem reserve_done (objects : OfObjects v) (m chosen : Nat) :
    v.reserveValueCapacity m chosen =
      .ok { v with vec := v.vec.reserve chosen, capacity := m } := by
  unfold VectorElements.Vector.reserveValueCapacity
  obtain is | is | is | is := objects.1 <;>
  · rw [is]
    rfl

theorem call_ok (objects : OfObjects v) (admissible : Admissible v c) :
    (∃ v', call v c = .ok v') ↔ Covered v c := by
  cases c with
  | reserve m chosen => exact iff_of_true ⟨_, reserve_done objects m chosen⟩ trivial
  | setVec i val chosen =>
    obtain ⟨inside, type⟩ := admissible
    have small := objects.2.2
    change _ ↔ i < v.vec.items.length ∨ v.vec.capacity ≤ i ∧ i + 10 < 2 ^ 31
    rw [← roomFor_length v i chosen (by omega), ← store_ok, call,
      setVec_eq objects inside type]
    cases (roomFor v i chosen).vec.store i (some (O.ptrDuplicate val)) with
    | ok vec => exact iff_of_true ⟨_, rfl⟩ ⟨vec, rfl⟩
    | error failure =>
      refine iff_of_false ?_ (by simp)
      intro ⟨v', done⟩
      cases done

theorem roomFor_frame (v : VectorElements.Vector O) (i chosen : Nat) :
    (roomFor v i chosen).type = v.type ∧ (roomFor v i chosen).length = v.length := by
  unfold roomFor
  split
  · exact ⟨rfl, rfl⟩
  · exact ⟨rfl, rfl⟩

/-- What a call does to the elements. -/
theorem call_done (objects : OfObjects v) (admissible : Admissible v c)
    (done : call v c = .ok v') :
    (v'.type = v.type ∧ v'.length = v.length) ∧ ∀ j,
      (∀ x, c.storedAt j = some x → v'.vec.items[j]? = some (some (O.ptrDuplicate x))) ∧
        (c.storedAt j = none → ∀ x, v.vec.items[j]? = some x → v'.vec.items[j]? = some x) := by
  cases c with
  | reserve m chosen =>
    rw [call, reserve_done objects] at done
    cases done
    refine ⟨⟨rfl, rfl⟩, fun j => ⟨fun x stored => ?_, fun _ x there => there⟩⟩
    cases stored
  | setVec i val chosen =>
    rw [call, setVec_eq objects admissible.1 admissible.2] at done
    obtain ⟨vec, written, same⟩ := Library.bind_success done
    cases same
    obtain ⟨inside, items⟩ := store_items written
    refine ⟨roomFor_frame v i chosen, fun j => ⟨?_, ?_⟩⟩
    · intro x stored
      simp only [Call.storedAt, Option.ite_none_right_eq_some, Option.some.injEq] at stored
      obtain ⟨rfl, rfl⟩ := stored
      simp only [items]
      exact List.getElem?_set_self inside
    · intro other x there
      have different : i ≠ j := by simpa [Call.storedAt] using other
      simp only [items]
      rw [List.getElem?_set_ne different]
      exact roomFor_keeps inside there

theorem OfObjects.next (objects : OfObjects v) (frame : v'.type = v.type ∧ v'.length = v.length) :
    OfObjects v' := by
  unfold OfObjects
  rw [frame.1, frame.2]
  exact objects

theorem Admissible.next (frame : v'.type = v.type ∧ v'.length = v.length)
    (admissible : ∀ c ∈ calls, Admissible v c) : ∀ c ∈ calls, Admissible v' c := by
  intro c mem
  have before := admissible c mem
  cases c with
  | reserve m chosen => trivial
  | setVec i val chosen =>
    unfold Admissible at before ⊢
    rw [frame.1, frame.2]
    exact before

/-! ### Runs -/

theorem run_ok (objects : OfObjects v) (admissible : ∀ c ∈ calls, Admissible v c) :
    (∃ v', calls.foldlM call v = .ok v') ↔ AllSteps after Covered v calls := by
  induction calls generalizing v with
  | nil => exact iff_of_true ⟨v, rfl⟩ trivial
  | cons c rest ih =>
    rw [List.forall_mem_cons] at admissible
    have now := call_ok objects admissible.1
    rw [List.foldlM_cons]
    cases done : call v c with
    | error failure =>
      rw [done] at now
      constructor
      · intro ⟨v', run⟩
        cases run
      · intro covered
        obtain ⟨v', never⟩ := now.mpr covered.1
        cases never
    | ok v₁ =>
      obtain ⟨frame, -⟩ := call_done objects admissible.1 done
      have later := ih (objects.next frame) (Admissible.next frame admissible.2)
      have state : after v c = v₁ := by simp [after, done]
      rw [AllSteps, state, ← later]
      exact ⟨fun run => ⟨now.mp ⟨v₁, done⟩, run⟩, fun both => both.2⟩

theorem run_stores (objects : OfObjects v) (admissible : ∀ c ∈ calls, Admissible v c)
    (done : calls.foldlM call v = .ok v') (j : Nat) :
    (∀ x, stored j calls = some x → v'.vec.items[j]? = some (some (O.ptrDuplicate x))) ∧
      (stored j calls = none → ∀ x, v.vec.items[j]? = some x → v'.vec.items[j]? = some x) := by
  induction calls generalizing v with
  | nil =>
    cases done
    exact ⟨fun x stored => (by cases stored), fun _ x there => there⟩
  | cons c rest ih =>
    rw [List.forall_mem_cons] at admissible
    rw [List.foldlM_cons] at done
    obtain ⟨v₁, first, later⟩ := Library.bind_success done
    obtain ⟨frame, elements⟩ := call_done objects admissible.1 first
    obtain ⟨here, kept⟩ := ih (objects.next frame) (Admissible.next frame admissible.2) later
    obtain ⟨written, unchanged⟩ := elements j
    cases last : stored j rest with
    | some y =>
      have same : stored j (c :: rest) = some y := by simp [stored, last]
      rw [same]
      refine ⟨fun x is => here x (last.trans is), fun none_stored => by cases none_stored⟩
    | none =>
      have same : stored j (c :: rest) = c.storedAt j := by simp [stored, last]
      rw [same]
      exact ⟨fun x is => kept last _ (written x is),
        fun other x there => kept last x (unchanged other x there)⟩

theorem allSteps_front {good : VectorElements.Vector O → Call O → Prop} {front : List (Call O)}
    (before : front <+: calls) (all : AllSteps after good v calls) :
    AllSteps after good v front := by
  induction front generalizing v calls with
  | nil => trivial
  | cons c front ih =>
    cases calls with
    | nil => simp at before
    | cons d calls =>
      obtain ⟨rfl, later⟩ := List.cons_prefix_cons.mp before
      exact ⟨all.1, ih later all.2⟩

/-- The stores of a run, and of every part of it from its start on, are right exactly if each
index is that of an element or not below the capacity. -/
theorem always_stores_iff (v : VectorElements.Vector O) (objects : OfObjects v)
    (calls : List (Call O)) (admissible : ∀ c ∈ calls, Admissible v c) :
    (∀ front, front <+: calls → Stores v front) ↔ AllSteps after Covered v calls := by
  constructor
  · intro always
    obtain ⟨v', done, -⟩ := always calls (List.prefix_refl calls)
    exact (run_ok objects admissible).mp ⟨v', done⟩
  · intro covered front before
    have allowed : ∀ c ∈ front, Admissible v c := fun c mem => admissible c (before.subset mem)
    obtain ⟨v', done⟩ := (run_ok objects allowed).mpr (allSteps_front before covered)
    exact ⟨v', done, run_stores objects allowed done⟩

/-! ### A Vector of Structures -/

def structures : Objects := ⟨Nat, fun _ => .struct, id⟩

def fiveStructures : VectorElements.Vector structures where
  name := "v"
  type := .struct
  length := 5
  capacity := 0
  readP := false
  buf := none
  d_str := noItems
  vec := noItems

theorem five_structures_stored :
    OfObjects fiveStructures ∧
      (∀ c ∈ [Call.setVec 3 (7 : Nat) 13, .setVec 1 (8 : Nat) 13],
        Admissible fiveStructures c) ∧
      ((∀ front, front <+: [Call.setVec 3 (7 : Nat) 13, .setVec 1 (8 : Nat) 13] →
          Stores fiveStructures front) ↔
        AllSteps after Covered fiveStructures
          [Call.setVec 3 (7 : Nat) 13, .setVec 1 (8 : Nat) 13]) :=
  have objects : OfObjects fiveStructures := ⟨.inr (.inl rfl), by decide, by decide⟩
  have admissible : ∀ c ∈ [Call.setVec 3 (7 : Nat) 13, .setVec 1 (8 : Nat) 13],
      Admissible fiveStructures c := by
    intro c mem
    simp only [List.mem_cons, List.not_mem_nil, or_false] at mem
    obtain rfl | rfl := mem
    · exact ⟨by decide, rfl⟩
    · exact ⟨by decide, rfl⟩
  ⟨objects, admissible, always_stores_iff fiveStructures objects
    [Call.setVec 3 (7 : Nat) 13, .setVec 1 (8 : Nat) 13] admissible⟩

/-- After a reservation the first store goes behind the last element. -/
theorem reserved_store_lost :
    OfObjects fiveStructures ∧
      (∀ c ∈ [Call.reserve 5 5, .setVec 0 (7 : Nat) 13], Admissible fiveStructures c) ∧
      ¬ Stores fiveStructures [Call.reserve 5 5, .setVec 0 (7 : Nat) 13] := by
  refine ⟨⟨.inr (.inl rfl), by decide, by decide⟩, ?_, ?_⟩
  · intro c mem
    simp only [List.mem_cons, List.not_mem_nil, or_false] at mem
    obtain rfl | rfl := mem
    · trivial
    · exact ⟨by decide, rfl⟩
  · intro stores
    obtain ⟨v', done, -⟩ := stores
    cases done

end Libdap.Guarantees.VectorStores
