import Libdap.Library.Heap

/-!
# Objects made of other objects

A cell of the heap holds an object or, once that is freed, nothing. A `Layout`
says which other cells an object refers to. `Copy` relates two objects that are
equal all the way down, the second one built from cells of its own.
-/
namespace Libdap.Library

namespace Heap
variable {α : Type}

/-- The object at an address, unless it was freed or never was there. -/
def lookup (h : Heap (Option α)) (a : Nat) : Option α := (h.read a).join

def modify (h : Heap (Option α)) (a : Nat) (f : α → α) : Heap (Option α) :=
  h.update a (Option.map f)

def free (h : Heap (Option α)) (a : Nat) : Heap (Option α) := h.update a fun _ => none

variable {h h' : Heap (Option α)} {a b changed : Nat} {x : α}

theorem lt_of_lookup (found : h.lookup a = some x) : a < h.size := by
  by_contra beyond
  have absent : h.read a = none := List.getElem?_eq_none (Nat.le_of_not_lt beyond)
  simp [lookup, absent] at found

@[simp] theorem size_modify (h : Heap (Option α)) (a : Nat) (f : α → α) :
    (h.modify a f).size = h.size :=
  size_update h a _

@[simp] theorem size_free (h : Heap (Option α)) (a : Nat) : (h.free a).size = h.size :=
  size_update h a _

@[simp] theorem lookup_alloc_new (h : Heap (Option α)) (x : α) :
    (h.alloc (some x)).lookup h.size = some x := by
  simp [lookup]

@[simp] theorem lookup_modify_same (h : Heap (Option α)) (a : Nat) (f : α → α) :
    (h.modify a f).lookup a = (h.lookup a).map f := by
  unfold lookup modify
  rw [read_update_same]
  cases h.read a with
  | none => rfl
  | some cell => cases cell <;> rfl

theorem lookup_modify_other (h : Heap (Option α)) (other : b ≠ a) (f : α → α) :
    (h.modify a f).lookup b = h.lookup b := by
  simp [lookup, modify, read_update_other h other]

@[simp] theorem lookup_free_same (h : Heap (Option α)) (a : Nat) :
    (h.free a).lookup a = none := by
  unfold lookup free
  rw [read_update_same]
  cases h.read a <;> rfl

theorem lookup_free_other (h : Heap (Option α)) (other : b ≠ a) :
    (h.free a).lookup b = h.lookup b := by
  simp [lookup, free, read_update_other h other]

theorem Extends.lookup (kept : h.Extends changed h') (old : a < h.size) (other : a ≠ changed) :
    h'.lookup a = h.lookup a := by
  simp [Heap.lookup, kept.kept a old other]

theorem Extends.modify (h : Heap (Option α)) (a : Nat) (f : α → α) :
    h.Extends a (h.modify a f) :=
  Extends.update h a _

end Heap

/-- How the objects of a heap refer to each other. -/
structure Layout (α β : Type) where
  parts : α → List Nat
  /-- The parts that know which object they belong to. -/
  members : α → List Nat
  members_parts : ∀ x, members x ⊆ parts x
  parent : α → Option Nat
  /-- The object without its references. -/
  shape : α → β
  /-- The invariant of a single object. -/
  sound : α → Prop

namespace Layout
variable {α β : Type} (L : Layout α β)

def Step (h : Heap (Option α)) (a b : Nat) : Prop :=
  ∃ x, h.lookup a = some x ∧ b ∈ L.parts x

def Reaches (h : Heap (Option α)) : Nat → Nat → Prop := Relation.ReflTransGen (L.Step h)

/-- A whole object: sound, and so are its parts, `n` levels deep at most. -/
def Standing (h : Heap (Option α)) : Nat → Nat → Prop
  | 0, _ => False
  | n + 1, a => ∃ x, h.lookup a = some x ∧ L.sound x ∧ ∀ c ∈ L.parts x, Standing h n c

/-- The object at `c` has its owner's address. -/
def OwnedBy (h : Heap (Option α)) (owner c : Nat) : Prop :=
  ∃ y, h.lookup c = some y ∧ L.parent y = some owner

/-- A copy that lies at an address from `base` on and above its owner. -/
structure Placed (base owner : Nat) (copy : Nat → Nat → Prop) (c c' : Nat) : Prop where
  fresh : base ≤ c'
  above : owner < c'
  copy : copy c c'

/-- The object at `a'` in `h'` equals the one at `a` in `h`, and its parts, and theirs,
are placed copies. -/
def Copy (base : Nat) (h h' : Heap (Option α)) : Nat → Nat → Nat → Prop
  | 0, _, _ => False
  | n + 1, a, a' =>
    ∃ x x', h.lookup a = some x ∧ h'.lookup a' = some x' ∧ L.shape x' = L.shape x ∧
      L.sound x' ∧
      List.Forall₂ (Placed base a' (Copy base h h' n)) (L.parts x) (L.parts x') ∧
      ∀ c' ∈ L.members x', L.OwnedBy h' a' c'

/-- The second heap has all that `a` reaches in the first. -/
def Sees (h₀ : Heap (Option α)) (a : Nat) (h : Heap (Option α)) : Prop :=
  ∀ b, L.Reaches h₀ a b → h.lookup b = h₀.lookup b

/-- Equal all the way down, wherever the parts lie. -/
def Alike (h h' : Heap (Option α)) : Nat → Nat → Nat → Prop
  | 0, _, _ => False
  | n + 1, a, a' =>
    ∃ x x', h.lookup a = some x ∧ h'.lookup a' = some x' ∧ L.shape x' = L.shape x ∧
      List.Forall₂ (Alike h h' n) (L.parts x) (L.parts x') ∧
      ∀ c' ∈ L.members x', L.OwnedBy h' a' c'

variable {L} {h h' h'' h₀ : Heap (Option α)} {a a' b c n base changed : Nat} {x x' x'' : α}

theorem Reaches.part (found : h.lookup a = some x) (part : c ∈ L.parts x)
    (reached : L.Reaches h c b) : L.Reaches h a b :=
  .head ⟨x, found, part⟩ reached

theorem Standing.root (whole : L.Standing h n a) : ∃ x, h.lookup a = some x := by
  cases n with
  | zero => exact whole.elim
  | succ n =>
    obtain ⟨x, found, _⟩ := whole
    exact ⟨x, found⟩

/-- All that a whole object reaches is there. -/
theorem Standing.reached (whole : L.Standing h n a) (reached : L.Reaches h a b) :
    ∃ x, h.lookup b = some x := by
  induction n generalizing a with
  | zero => exact whole.elim
  | succ n ih =>
    cases reached.cases_head with
    | inl same =>
      subst same
      exact whole.root
    | inr step =>
      obtain ⟨c, ⟨y, atRoot, part⟩, further⟩ := step
      obtain ⟨x, found, _, wholeParts⟩ := whole
      cases found.symm.trans atRoot
      exact ih (wholeParts c part) further

theorem Sees.refl (h : Heap (Option α)) (a : Nat) : L.Sees h a h := fun _ _ => rfl

theorem Sees.part (sees : L.Sees h₀ a h) (found : h₀.lookup a = some x)
    (part : c ∈ L.parts x) : L.Sees h₀ c h :=
  fun b reached => sees b (.part found part reached)

theorem Sees.extends (sees : L.Sees h₀ a h) (whole : L.Standing h₀ n a)
    (kept : h.Extends changed h') (apart : ¬ L.Reaches h₀ a changed) : L.Sees h₀ a h' := by
  intro b reached
  obtain ⟨x, found⟩ := whole.reached reached
  have here : h.lookup b = some x := (sees b reached).trans found
  have other : b ≠ changed := by
    intro same
    exact apart (same ▸ reached)
  rw [kept.lookup (Heap.lt_of_lookup here) other, sees b reached]

theorem partner {R : Nat → Nat → Prop} {xs ys : List Nat} {y : Nat}
    (paired : List.Forall₂ R xs ys) (mem : y ∈ ys) : ∃ x ∈ xs, R x y := by
  induction paired with
  | nil => cases mem
  | cons head _ ih =>
    cases mem with
    | head => exact ⟨_, List.mem_cons_self, head⟩
    | tail _ later =>
      obtain ⟨x, member, related⟩ := ih later
      exact ⟨x, List.mem_cons_of_mem _ member, related⟩

theorem Copy.standing (copy : L.Copy base h h' n a a') : L.Standing h' n a' := by
  induction n generalizing a a' with
  | zero => exact copy
  | succ n ih =>
    obtain ⟨x, x', _, found, _, sound, parts, _⟩ := copy
    refine ⟨x', found, sound, ?_⟩
    intro c' part
    obtain ⟨c, _, placed⟩ := partner parts part
    exact ih placed.copy

theorem Copy.alike (copy : L.Copy base h h' n a a') : L.Alike h h' n a a' := by
  induction n generalizing a a' with
  | zero => exact copy
  | succ n ih =>
    obtain ⟨x, x', atSource, found, alike, _, parts, owned⟩ := copy
    exact ⟨x, x', atSource, found, alike, parts.imp fun _ _ placed => ih placed.copy, owned⟩

/-- Whatever lies below a copy was made for it. -/
theorem Copy.reached (copy : L.Copy base h h' n a a') (reached : L.Reaches h' a' b) :
    b = a' ∨ (base ≤ b ∧ a' < b) := by
  induction n generalizing a a' with
  | zero => exact copy.elim
  | succ n ih =>
    obtain ⟨x, x', _, found, _, _, parts, _⟩ := copy
    cases reached.cases_head with
    | inl same => exact .inl same.symm
    | inr step =>
      obtain ⟨c', ⟨y, atRoot, part⟩, further⟩ := step
      cases found.symm.trans atRoot
      obtain ⟨c, _, placed⟩ := partner parts part
      cases ih placed.copy further with
      | inl same => exact .inr ⟨same ▸ placed.fresh, same ▸ placed.above⟩
      | inr deeper => exact .inr ⟨deeper.1, Nat.lt_trans placed.above deeper.2⟩

theorem Copy.mono {lower : Nat} (copy : L.Copy base h h' n a a') (le : lower ≤ base) :
    L.Copy lower h h' n a a' := by
  induction n generalizing a a' with
  | zero => exact copy.elim
  | succ n ih =>
    obtain ⟨x, x', atSource, found, alike, sound, parts, owned⟩ := copy
    refine ⟨x, x', atSource, found, alike, sound, ?_, owned⟩
    apply parts.imp
    intro c c' placed
    exact ⟨Nat.le_trans le placed.fresh, placed.above, ih placed.copy⟩

/-- A change of the root that only touches what a `shape` leaves out, and a second heap
that has all that lies below it, leave a copy a copy. -/
theorem Copy.frame (copy : L.Copy base h h' n a a') (root : h'.lookup a' = some x')
    (root' : h''.lookup a' = some x'') (shape : L.shape x'' = L.shape x')
    (sound : L.sound x' → L.sound x'') (parts : L.parts x'' = L.parts x')
    (members : L.members x'' = L.members x')
    (same : ∀ b y, base ≤ b → a' < b → h'.lookup b = some y → h''.lookup b = some y) :
    L.Copy base h h'' n a a' := by
  induction n generalizing a a' x' x'' with
  | zero => exact copy.elim
  | succ n ih =>
    obtain ⟨x, y', atSource, found, alike, whole, copies, owned⟩ := copy
    cases found.symm.trans root
    refine ⟨x, x'', atSource, root', shape.trans alike, sound whole, ?_, ?_⟩
    · rw [parts]
      apply copies.imp
      intro c c' placed
      refine ⟨placed.fresh, placed.above, ?_⟩
      obtain ⟨y, there⟩ := placed.copy.standing.root
      apply ih placed.copy there (same c' y placed.fresh placed.above there) rfl id rfl rfl
      intro b z fresh above
      exact same b z fresh (Nat.lt_trans placed.above above)
    · rw [members]
      intro c' member
      obtain ⟨c, _, placed⟩ := partner copies (L.members_parts _ member)
      obtain ⟨y, there, parent⟩ := owned c' member
      exact ⟨y, same c' y placed.fresh placed.above there, parent⟩

/-- What happens at an older address does not concern a copy. -/
theorem Copy.extends (copy : L.Copy base h h' n a a') (kept : h'.Extends changed h'')
    (other : a' ≠ changed) (old : changed < base) : L.Copy base h h'' n a a' := by
  obtain ⟨x', root⟩ := copy.standing.root
  have root' : h''.lookup a' = some x' :=
    (kept.lookup (Heap.lt_of_lookup root) other).trans root
  apply copy.frame root root' rfl id rfl rfl
  intro b y fresh _ there
  exact (kept.lookup (Heap.lt_of_lookup there) (by omega)).trans there

theorem OwnedBy.extends {owner : Nat} (owned : L.OwnedBy h owner c)
    (kept : h.Extends changed h') (other : c ≠ changed) : L.OwnedBy h' owner c := by
  obtain ⟨y, there, parent⟩ := owned
  exact ⟨y, (kept.lookup (Heap.lt_of_lookup there) other).trans there, parent⟩

theorem Sees.not_new (sees : L.Sees h₀ a h) (whole : L.Standing h₀ n a) :
    ¬ L.Reaches h₀ a h.size := by
  intro reached
  obtain ⟨x, found⟩ := whole.reached reached
  have here : h.lookup h.size = some x := (sees _ reached).trans found
  exact Nat.lt_irrefl _ (Heap.lt_of_lookup here)

end Layout
end Libdap.Library
