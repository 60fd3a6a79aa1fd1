import Mathlib.Tactic

/-!
# A heap of objects

Objects lie at the addresses below `size`, in the order of their allocation. An
allocation never moves an object and an update changes the one it names.
-/
namespace Libdap.Library

structure Heap (α : Type) where
  objects : List α
  deriving Repr

namespace Heap
variable {α : Type}

def size (h : Heap α) : Nat := h.objects.length

def read (h : Heap α) (a : Nat) : Option α := h.objects[a]?

/-- The new object lies at `h.size`. -/
def alloc (h : Heap α) (x : α) : Heap α := ⟨h.objects ++ [x]⟩

def update (h : Heap α) (a : Nat) (f : α → α) : Heap α := ⟨h.objects.modify a f⟩

@[simp] theorem size_alloc (h : Heap α) (x : α) : (h.alloc x).size = h.size + 1 := by
  simp [alloc, size]

@[simp] theorem size_update (h : Heap α) (a : Nat) (f : α → α) :
    (h.update a f).size = h.size := by
  simp [update, size]

@[simp] theorem read_alloc_new (h : Heap α) (x : α) : (h.alloc x).read h.size = some x := by
  simp [alloc, read, size]

theorem read_alloc_old {h : Heap α} {a : Nat} (old : a < h.size) (x : α) :
    (h.alloc x).read a = h.read a :=
  List.getElem?_append_left old

@[simp] theorem read_update_same (h : Heap α) (a : Nat) (f : α → α) :
    (h.update a f).read a = (h.read a).map f := by
  simp [update, read]

theorem read_update_other (h : Heap α) {a b : Nat} (other : b ≠ a) (f : α → α) :
    (h.update a f).read b = h.read b := by
  unfold update read
  simp [other.symm]

/-- Whatever the first heap holds, except at `changed`, the second holds too. -/
structure Extends (h : Heap α) (changed : Nat) (h' : Heap α) : Prop where
  grows : h.size ≤ h'.size
  kept : ∀ a < h.size, a ≠ changed → h'.read a = h.read a

namespace Extends
variable {h h' h'' : Heap α} {changed fresh : Nat}

theorem refl (h : Heap α) (changed : Nat) : h.Extends changed h :=
  ⟨Nat.le_refl _, fun _ _ _ => rfl⟩

theorem trans (first : h.Extends changed h') (second : h'.Extends changed h'') :
    h.Extends changed h'' where
  grows := Nat.le_trans first.grows second.grows
  kept := by
    intro a old other
    rw [second.kept a (Nat.lt_of_lt_of_le old first.grows) other, first.kept a old other]

/-- If nothing at all has changed, whatever may change. -/
theorem any (kept : h.Extends h.size h') (changed : Nat) : h.Extends changed h' where
  grows := kept.grows
  kept := fun a old _ => kept.kept a old (Nat.ne_of_lt old)

/-- Changes to an object the first heap does not have do not count. -/
theorem trans_fresh (first : h.Extends changed h') (second : h'.Extends fresh h'')
    (new : h.size ≤ fresh) : h.Extends changed h'' where
  grows := Nat.le_trans first.grows second.grows
  kept := by
    intro a old other
    rw [second.kept a (Nat.lt_of_lt_of_le old first.grows) (by omega), first.kept a old other]

theorem alloc (h : Heap α) (x : α) (changed : Nat) : h.Extends changed (h.alloc x) where
  grows := by simp
  kept := fun _ old _ => read_alloc_old old x

theorem update (h : Heap α) (a : Nat) (f : α → α) : h.Extends a (h.update a f) where
  grows := by simp
  kept := fun _ _ other => read_update_other h other f

end Extends

end Heap

end Libdap.Library
