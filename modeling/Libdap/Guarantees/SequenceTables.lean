import Libdap.Source.SequenceIntern

/-!
# The tables that interning fills

Each `d_values` is a table on the heap. `Fills` says what interning an instance does to
them: its rows are behind those of its own table, the rows below them in new tables,
and nothing else changes.
-/
namespace Libdap.Guarantees.SequenceTables
open Libdap.Library Libdap.Source Libdap.Source.Sequence

variable {V : Type} {tables tables' tables'' : Tables V} {t low depth : Nat} {rows : List (InternedRow V)}

theorem tableAt_addRow (row : InternedRow V) (known : t < tables.size) :
    tableAt (tables.update t (addRow row)) t = tableAt tables t ++ [row] := by
  obtain ⟨rows, stored⟩ : ∃ rows, tables.read t = some rows :=
    ⟨_, List.getElem?_eq_getElem known⟩
  simp [tableAt, stored, addRow]

theorem tableAt_kept (same : tables.Extends t tables') {a : Nat} (known : a < tables.size)
    (other : a ≠ t) : tableAt tables' a = tableAt tables a := by
  unfold tableAt
  rw [same.kept a known other]

/-- The tables below the rows lie at `low` and above. -/
def Within (tables : Tables V) (low : Nat) : Nat → List (InternedRow V) → Prop
  | 0, _ => True
  | depth + 1, rows =>
    ∀ r ∈ rows, ∃ child, r.child = some child ∧ low ≤ child ∧ child < tables.size ∧
      Within tables low depth (tableAt tables child)

theorem Within.mono (within : Within tables low depth rows) {lower : Nat} (le : lower ≤ low) :
    Within tables lower depth rows := by
  induction depth generalizing rows with
  | zero => trivial
  | succ depth ih =>
    intro r member
    obtain ⟨child, known, above, bound, deeper⟩ := within r member
    exact ⟨child, known, Nat.le_trans le above, bound, ih deeper⟩

/-- Rows stay as they are where the changed table is not below them. -/
theorem Within.frame (within : Within tables low depth rows) (same : tables.Extends t tables')
    (outside : t < low ∨ tables.size ≤ t) :
    Within tables' low depth rows ∧ rowsOf tables' depth rows = rowsOf tables depth rows := by
  induction depth generalizing rows with
  | zero => exact ⟨trivial, rfl⟩
  | succ depth ih =>
    constructor
    · intro r member
      obtain ⟨child, known, above, bound, deeper⟩ := within r member
      refine ⟨child, known, above, Nat.lt_of_lt_of_le bound same.grows, ?_⟩
      rw [tableAt_kept same bound (by omega)]
      exact (ih deeper).1
    · apply List.map_congr_left
      intro r member
      obtain ⟨child, known, above, bound, deeper⟩ := within r member
      simp only [known]
      rw [tableAt_kept same bound (by omega), (ih deeper).2]

theorem rowsOf_append (tables : Tables V) (depth : Nat) (a b : List (InternedRow V)) :
    rowsOf tables depth (a ++ b) = rowsOf tables depth a ++ rowsOf tables depth b := by
  cases depth <;> simp [rowsOf]

theorem Within.append {more : List (InternedRow V)} (first : Within tables low depth rows)
    (second : Within tables low depth more) : Within tables low depth (rows ++ more) := by
  cases depth with
  | zero => trivial
  | succ depth =>
    intro r member
    rcases List.mem_append.mp member with left | right
    · exact first r left
    · exact second r right

/-- The rows of an instance, `depth` levels deep, are behind what table `t` held. -/
structure Fills (tables : Tables V) (t depth : Nat) (rows : List (Row V))
    (tables' : Tables V) : Prop where
  same : tables.Extends t tables'
  added : ∃ new, tableAt tables' t = tableAt tables t ++ new ∧
    rowsOf tables' depth new = rows ∧ Within tables' tables.size depth new

theorem Fills.refl (tables : Tables V) (t depth : Nat) : Fills tables t depth [] tables where
  same := Heap.Extends.refl ..
  added := ⟨[], by simp, by cases depth <;> rfl, by cases depth <;> simp [Within]⟩

theorem Fills.trans {a b : List (Row V)} (known : t < tables.size)
    (first : Fills tables t depth a tables') (second : Fills tables' t depth b tables'') :
    Fills tables t depth (a ++ b) tables'' where
  same := first.same.trans second.same
  added := by
    obtain ⟨new, table, read, within⟩ := first.added
    obtain ⟨new', table', read', within'⟩ := second.added
    obtain ⟨framed, kept⟩ := within.frame second.same (Or.inl known)
    refine ⟨new ++ new', ?_, ?_, ?_⟩
    · rw [table', table, List.append_assoc]
    · rw [rowsOf_append, kept, read, read']
    · exact framed.append (within'.mono first.same.grows)

theorem fills_row (tables : Tables V) (known : t < tables.size) (values : List V) :
    Fills tables t 0 [.mk values []] (tables.update t (addRow ⟨values, none⟩)) where
  same := Heap.Extends.update ..
  added := ⟨[⟨values, none⟩], tableAt_addRow _ known, rfl, trivial⟩

/-- The row of a parent in table `t`, with a new table for its child. -/
def opened (tables : Tables V) (t : Nat) (values : List V) : Tables V :=
  (tables.alloc []).update t (addRow ⟨values, some tables.size⟩)

@[simp] theorem opened_size (tables : Tables V) (t : Nat) (values : List V) :
    (opened tables t values).size = tables.size + 1 := by
  simp [opened]

theorem opened_same (tables : Tables V) (t : Nat) (values : List V) :
    tables.Extends t (opened tables t values) :=
  (Heap.Extends.alloc tables [] t).trans (Heap.Extends.update ..)

theorem opened_child (known : t < tables.size) (values : List V) :
    tableAt (opened tables t values) tables.size = [] := by
  have other : tables.size ≠ t := by omega
  unfold tableAt opened
  rw [Heap.read_update_other _ other, Heap.read_alloc_new]
  rfl

theorem opened_table (known : t < tables.size) (values : List V) :
    tableAt (opened tables t values) t = tableAt tables t ++ [⟨values, some tables.size⟩] := by
  have room : t < (tables.alloc []).size := by
    rw [Heap.size_alloc]
    omega
  have kept : tableAt (tables.alloc []) t = tableAt tables t :=
    tableAt_kept (Heap.Extends.alloc tables [] tables.size) known (by omega)
  rw [opened, tableAt_addRow _ room, kept]

/-- Filling the table of its child completes the row of a parent. -/
theorem fills_parent (known : t < tables.size) {values : List V} {children : List (Row V)}
    (child : Fills (opened tables t values) tables.size depth children tables') :
    Fills tables t (depth + 1) [.mk values children] tables' where
  same := (opened_same tables t values).trans_fresh child.same (Nat.le_refl _)
  added := by
    obtain ⟨new, table, read, within⟩ := child.added
    have grows := child.same.grows
    rw [opened_size] at grows within
    rw [opened_child known, List.nil_append] at table
    refine ⟨[⟨values, some tables.size⟩], ?_, ?_, ?_⟩
    · rw [tableAt_kept child.same (by rw [opened_size]; omega) (by omega), opened_table known]
    · simp only [rowsOf, List.map_cons, List.map_nil, table, read]
    · intro r member
      rw [List.mem_singleton.mp member]
      refine ⟨_, rfl, Nat.le_refl _, grows, ?_⟩
      rw [table]
      exact within.mono (Nat.le_succ _)

end Libdap.Guarantees.SequenceTables
