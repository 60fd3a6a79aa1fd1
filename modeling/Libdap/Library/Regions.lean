import Libdap.Library.Ownership

/-!
# Parts of a heap that do not concern each other

A region is a set of addresses that the objects in it do not refer out of. What happens
in one region, and in new cells, leaves every region apart from it as it is.
-/
namespace Libdap.Library
variable {α : Type} {parts : α → List Nat} {h h' h'' : Heap (Option α)} {R S : Nat → Prop}

structure Region (parts : α → List Nat) (h : Heap (Option α)) (R : Nat → Prop) : Prop where
  old : ∀ c, R c → c < h.size
  closed : ∀ c x, R c → h.lookup c = some x → ∀ d ∈ parts x, R d

/-- Outside `R` the second heap has all that the first has. -/
structure Confined (R : Nat → Prop) (h h' : Heap (Option α)) : Prop where
  grows : h.size ≤ h'.size
  kept : ∀ c < h.size, ¬ R c → h'.lookup c = h.lookup c

/-- The region together with the cells that are new. -/
def Grown (R : Nat → Prop) (h h' : Heap (Option α)) (c : Nat) : Prop :=
  R c ∨ (h.size ≤ c ∧ c < h'.size)

/-- A change that stays in a region, which grows by the new cells. -/
structure Moves (parts : α → List Nat) (R : Nat → Prop) (h h' : Heap (Option α)) : Prop where
  confined : Confined R h h'
  region : Region parts h' (Grown R h h')

/-- What lies below an object. -/
def Linked (parts : α → List Nat) (h : Heap (Option α)) : Nat → Nat → Prop :=
  Relation.ReflTransGen fun a b => ∃ x, h.lookup a = some x ∧ b ∈ parts x

namespace Confined

theorem refl (R : Nat → Prop) (h : Heap (Option α)) : Confined R h h :=
  ⟨Nat.le_refl _, fun _ _ _ => rfl⟩

theorem trans (first : Confined R h h') (second : Confined (Grown R h h') h' h'') :
    Confined R h h'' where
  grows := Nat.le_trans first.grows second.grows
  kept := by
    intro c old outside
    have still : ¬ Grown R h h' c := by
      intro grown
      cases grown with
      | inl inside => exact outside inside
      | inr new => omega
    rw [second.kept c (Nat.lt_of_lt_of_le old first.grows) still, first.kept c old outside]

theorem mono (confined : Confined R h h') (le : ∀ c < h.size, R c → S c) :
    Confined S h h' where
  grows := confined.grows
  kept := fun c old outside => confined.kept c old fun inside => outside (le c old inside)

end Confined

theorem grown_trans {c : Nat} (first : h.size ≤ h'.size) (second : h'.size ≤ h''.size) :
    Grown (Grown R h h') h' h'' c ↔ Grown R h h'' c := by
  unfold Grown
  rw [or_assoc]
  apply or_congr_right
  omega

theorem grown_same {c : Nat} (size : h'.size = h.size) : Grown R h h' c ↔ R c := by
  unfold Grown
  apply or_iff_left
  omega

namespace Region

theorem congr (region : Region parts h R) (same : ∀ c, R c ↔ S c) : Region parts h S :=
  (funext fun c => propext (same c) : R = S) ▸ region

theorem lookup_same (region : Region parts h S) (confined : Confined R h h')
    (apart : ∀ c, S c → ¬ R c) {c : Nat} (inside : S c) : h'.lookup c = h.lookup c :=
  confined.kept c (region.old c inside) (apart c inside)

/-- A region apart from all that changes. -/
theorem frame (region : Region parts h S) (confined : Confined R h h')
    (apart : ∀ c, S c → ¬ R c) : Region parts h' S where
  old := fun c inside => Nat.lt_of_lt_of_le (region.old c inside) confined.grows
  closed := by
    intro c x inside found
    rw [region.lookup_same confined apart inside] at found
    exact region.closed c x inside found

theorem linked {a b : Nat} (region : Region parts h R) (inside : R a)
    (linked : Linked parts h a b) : R b := by
  induction linked with
  | refl => exact inside
  | tail _ step ih =>
    obtain ⟨x, found, part⟩ := step
    exact region.closed _ x ih found _ part

theorem of_linked {a : Nat} (old : ∀ c, Linked parts h a c → c < h.size) :
    Region parts h (Linked parts h a) where
  old := old
  closed := fun _ x inside found _ part => inside.tail ⟨x, found, part⟩

theorem apart_grown (region : Region parts h S) (apart : ∀ c, S c → ¬ R c) :
    ∀ c, S c → ¬ Grown R h h' c := by
  intro c inside grown
  cases grown with
  | inl old => exact apart c inside old
  | inr new => exact absurd (region.old c inside) (Nat.not_lt.mpr new.1)

end Region

namespace Moves

theorem refl (region : Region parts h R) : Moves parts R h h where
  confined := .refl R h
  region := region.congr fun _ => (grown_same rfl).symm

theorem trans (first : Moves parts R h h') (second : Moves parts (Grown R h h') h' h'') :
    Moves parts R h h'' where
  confined := first.confined.trans second.confined
  region := second.region.congr fun _ =>
    grown_trans first.confined.grows second.confined.grows

theorem modify (region : Region parts h R) {a : Nat} (inside : R a) {f : α → α}
    (below : ∀ x, h.lookup a = some x → ∀ d ∈ parts (f x), R d) :
    Moves parts R h (h.modify a f) where
  confined :=
    { grows := Nat.le_of_eq (Heap.size_modify h a f).symm
      kept := by
        intro c _ outside
        have other : c ≠ a := by
          intro same
          exact outside (same ▸ inside)
        exact Heap.lookup_modify_other h other f }
  region := by
    apply Region.congr (R := R) _ fun _ => (grown_same (Heap.size_modify h a f)).symm
    constructor
    · intro c mem
      rw [Heap.size_modify]
      exact region.old c mem
    · intro c x mem found
      by_cases same : c = a
      · subst same
        rw [Heap.lookup_modify_same, Option.map_eq_some_iff] at found
        obtain ⟨y, there, rfl⟩ := found
        exact below y there
      · rw [Heap.lookup_modify_other h same] at found
        exact region.closed c x mem found

theorem free (region : Region parts h R) {a : Nat} (inside : R a) :
    Moves parts R h (h.free a) where
  confined :=
    { grows := Nat.le_of_eq (Heap.size_free h a).symm
      kept := by
        intro c _ outside
        have other : c ≠ a := by
          intro same
          exact outside (same ▸ inside)
        exact Heap.lookup_free_other h other }
  region := by
    apply Region.congr (R := R) _ fun _ => (grown_same (Heap.size_free h a)).symm
    constructor
    · intro c mem
      rw [Heap.size_free]
      exact region.old c mem
    · intro c x mem found
      by_cases same : c = a
      · subst same
        rw [Heap.lookup_free_same] at found
        cases found
      · rw [Heap.lookup_free_other h same] at found
        exact region.closed c x mem found

theorem alloc (region : Region parts h R) {x : α} (below : ∀ d ∈ parts x, R d) :
    Moves parts R h (h.alloc (some x)) where
  confined :=
    { grows := by simp
      kept := fun c old _ =>
        (Heap.Extends.alloc h (some x) h.size).lookup old (Nat.ne_of_lt old) }
  region := by
    constructor
    · intro c mem
      cases mem with
      | inl old =>
        have := region.old c old
        simp
        omega
      | inr new => exact new.2
    · intro c y mem found d part
      left
      by_cases old : c < h.size
      · rw [(Heap.Extends.alloc h (some x) h.size).lookup old (Nat.ne_of_lt old)] at found
        cases mem with
        | inl inside => exact region.closed c y inside found d part
        | inr new => omega
      · have last : c = h.size := by
          have there := Heap.lt_of_lookup found
          rw [Heap.size_alloc] at there
          omega
        subst last
        rw [Heap.lookup_alloc_new] at found
        cases found
        exact below d part

end Moves
end Libdap.Library
