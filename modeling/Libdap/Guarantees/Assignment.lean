import Libdap.Guarantees.DuplicateFrame

/-!
# Assignment of Structures, Sequences and Grids

`operator=` of the derived class runs that of Constructor, which copies the members,
and then copies them again; only `Grid::m_duplicate` clears `d_vars` before. What the
assigned variable held before is not cleared, but for the members of a Grid, which are
deleted.
-/
namespace Libdap.Guarantees.Assignment
open Libdap.Library Libdap.Source Libdap.Source.Variables
open PtrDuplicate DuplicateFrame

/-- A variable and all that its destructor deletes. -/
def holdings : Nat → Memory → Nat → List Nat
  | 0, _, _ => []
  | n + 1, m, a =>
    a :: match m.lookup a with
      | none => []
      | some v => v.owned.flatMap (holdings n m)

/-- Every object that the destructor comes to is there. -/
def Destructible (m : Memory) : Nat → Nat → Prop
  | 0, _ => False
  | n + 1, a => ∃ v, m.lookup a = some v ∧ ∀ c ∈ v.owned, Destructible m n c

variable {m m' : Memory} {n a b : Nat} {v w : Variable}

theorem holdings_there (there : Destructible m n a) (mem : b ∈ holdings n m a) :
    ∃ w, m.lookup b = some w := by
  induction n generalizing a with
  | zero => exact there.elim
  | succ n ih =>
    obtain ⟨v, found, below⟩ := there
    simp only [holdings, found, List.mem_cons, List.mem_flatMap] at mem
    rcases mem with rfl | ⟨c, owned, deeper⟩
    · exact ⟨v, found⟩
    · exact ih (below c owned) deeper

/-- Only the objects among the holdings count. -/
theorem holdings_congr (there : Destructible m n a)
    (same : ∀ b ∈ holdings n m a, m'.lookup b = m.lookup b) :
    Destructible m' n a ∧ holdings n m' a = holdings n m a := by
  induction n generalizing a with
  | zero => exact there.elim
  | succ n ih =>
    obtain ⟨v, found, below⟩ := there
    simp only [holdings, found, List.mem_cons, List.mem_flatMap] at same
    have found' : m'.lookup a = some v := (same a (.inl rfl)).trans found
    have parts : ∀ c ∈ v.owned, Destructible m' n c ∧ holdings n m' c = holdings n m c := by
      intro c owned
      exact ih (below c owned) fun b mem => same b (.inr ⟨c, owned, mem⟩)
    refine ⟨⟨v, found', fun c owned => (parts c owned).1⟩, ?_⟩
    simp only [holdings, found, found', List.cons.injEq, true_and]
    exact List.flatMap_congr fun c owned => (parts c owned).2

/-- What is destroyed is freed, and nothing else. -/
structure Freed (m : Memory) (cs : List Nat) (m' : Memory) : Prop where
  size : m'.size = m.size
  gone : ∀ b ∈ cs, m'.lookup b = none
  kept : ∀ b ∉ cs, m'.lookup b = m.lookup b

theorem Freed.append {cs ds : List Nat} {m'' : Memory} (first : Freed m cs m')
    (second : Freed m' ds m'') : Freed m (cs ++ ds) m'' where
  size := second.size.trans first.size
  gone := by
    intro b mem
    by_cases later : b ∈ ds
    · exact second.gone b later
    · have earlier : b ∈ cs := (List.mem_append.mp mem).resolve_right later
      rw [second.kept b later, first.gone b earlier]
  kept := by
    intro b outside
    rw [List.mem_append, not_or] at outside
    rw [second.kept b outside.2, first.kept b outside.1]

theorem destroyAll_freed {cs : List Nat}
    (ih : ∀ (m : Memory) c, Destructible m n c → (holdings n m c).Nodup →
      ∃ m', destroy n m c = .ok m' ∧ Freed m (holdings n m c) m')
    (there : ∀ c ∈ cs, Destructible m n c) (single : (cs.flatMap (holdings n m)).Nodup) :
    ∃ m', cs.foldlM (destroy n) m = .ok m' ∧ Freed m (cs.flatMap (holdings n m)) m' := by
  induction cs generalizing m with
  | nil => exact ⟨m, rfl, ⟨rfl, by simp, by simp⟩⟩
  | cons c cs ihCs =>
    rw [List.flatMap_cons, List.nodup_append] at single
    obtain ⟨single_c, single_cs, apart⟩ := single
    obtain ⟨m₁, first, freed⟩ := ih m c (there c List.mem_cons_self) single_c
    have same : ∀ d ∈ cs, Destructible m₁ n d ∧ holdings n m₁ d = holdings n m d := by
      intro d mem
      apply holdings_congr (there d (List.mem_cons_of_mem c mem))
      intro b held
      apply freed.kept
      intro earlier
      exact apart b earlier b (List.mem_flatMap.mpr ⟨d, mem, held⟩) rfl
    have all : cs.flatMap (holdings n m₁) = cs.flatMap (holdings n m) :=
      List.flatMap_congr fun d mem => (same d mem).2
    obtain ⟨m', rest, freed'⟩ :=
      ihCs (fun d mem => (same d mem).1) (all.symm ▸ single_cs)
    refine ⟨m', ?_, ?_⟩
    · rw [List.foldlM_cons, first]
      exact rest
    · rw [List.flatMap_cons, ← all]
      exact freed.append freed'

theorem destroy_freed (there : Destructible m n a) (single : (holdings n m a).Nodup) :
    ∃ m', destroy n m a = .ok m' ∧ Freed m (holdings n m a) m' := by
  induction n generalizing m a with
  | zero => exact there.elim
  | succ n ih =>
    obtain ⟨v, found, below⟩ := there
    simp only [holdings, found] at single ⊢
    obtain ⟨apart, single⟩ := List.nodup_cons.mp single
    obtain ⟨m₁, parts, freed⟩ := destroyAll_freed (fun _ _ there single => ih there single)
      below single
    refine ⟨m₁.free a, ?_, ?_, ?_, ?_⟩
    · unfold destroy
      rw [fetch_of_lookup found]
      simp only [bind, Except.bind, parts]
      rfl
    · rw [Heap.size_free, freed.size]
    · intro b mem
      by_cases same : b = a
      · subst same
        exact Heap.lookup_free_same m₁ b
      · rw [Heap.lookup_free_other m₁ same]
        exact freed.gone b ((List.mem_cons.mp mem).resolve_left same)
    · intro b outside
      rw [List.mem_cons, not_or] at outside
      rw [Heap.lookup_free_other m₁ outside.1, freed.kept b outside.2]

/-- Deleting the parts of a Grid frees all that it holds. -/
theorem deleteParts_freed (there : Destructible m (n + 1) a)
    (single : (holdings (n + 1) m a).Nodup) (found : m.lookup a = some w)
    {vars mapVars : List Nat} {arrayVar : Option Nat}
    (class_w : w.contents = .grid vars arrayVar mapVars) :
    ∃ m', deleteParts n m a = .ok m' ∧ m'.size = m.size ∧
      m'.lookup a = some (dropArray w) ∧
      (∀ b ∈ (holdings (n + 1) m a).tail, m'.lookup b = none) ∧
      ∀ b ∉ holdings (n + 1) m a, m'.lookup b = m.lookup b := by
  obtain ⟨w', found', below⟩ := there
  cases found.symm.trans found'
  have owned : w.owned = arrayVar.toList ++ mapVars := by simp [Variable.owned, class_w]
  rw [owned] at below
  have whole : holdings (n + 1) m a =
      a :: (arrayVar.toList.flatMap (holdings n m) ++ mapVars.flatMap (holdings n m)) := by
    simp only [holdings, found, owned, List.flatMap_append]
  rw [whole] at single ⊢
  obtain ⟨apart, single⟩ := List.nodup_cons.mp single
  obtain ⟨single_array, single_maps, separate⟩ := List.nodup_append.mp single
  rw [List.mem_append, not_or] at apart
  obtain ⟨m₁, first, freed⟩ := destroyAll_freed (fun _ _ => destroy_freed)
    (fun c mem => below c (List.mem_append_left _ mem)) single_array
  have found₁ : m₁.lookup a = some w := (freed.kept a apart.1).trans found
  have same : ∀ d ∈ mapVars, Destructible (m₁.modify a dropArray) n d ∧
      holdings n (m₁.modify a dropArray) d = holdings n m d := by
    intro d mem
    apply holdings_congr (below d (List.mem_append_right _ mem))
    intro b held
    have inMaps : b ∈ mapVars.flatMap (holdings n m) := List.mem_flatMap.mpr ⟨d, mem, held⟩
    have other : b ≠ a := fun same => apart.2 (same ▸ inMaps)
    rw [Heap.lookup_modify_other m₁ other]
    exact freed.kept b fun inArray => separate b inArray b inMaps rfl
  have all : mapVars.flatMap (holdings n (m₁.modify a dropArray)) =
      mapVars.flatMap (holdings n m) :=
    List.flatMap_congr fun d mem => (same d mem).2
  obtain ⟨m', second, freed'⟩ := destroyAll_freed (fun _ _ => destroy_freed)
    (fun d mem => (same d mem).1) (all.symm ▸ single_maps)
  rw [all] at freed'
  refine ⟨m', ?_, ?_, ?_, ?_, ?_⟩
  · unfold deleteParts
    rw [fetch_of_lookup found]
    simp only [bind, Except.bind, class_w]
    simp only [first]
    exact second
  · rw [freed'.size, Heap.size_modify, freed.size]
  · rw [freed'.kept a apart.2, Heap.lookup_modify_same, found₁]
    rfl
  · intro b mem
    by_cases inMaps : b ∈ mapVars.flatMap (holdings n m)
    · exact freed'.gone b inMaps
    · have inArray := (List.mem_append.mp mem).resolve_right inMaps
      have other : b ≠ a := fun same => apart.1 (same ▸ inArray)
      rw [freed'.kept b inMaps, Heap.lookup_modify_other m₁ other, freed.gone b inArray]
  · intro b outside
    rw [List.mem_cons, List.mem_append, not_or, not_or] at outside
    rw [freed'.kept b outside.2.2, Heap.lookup_modify_other m₁ outside.1,
      freed.kept b outside.2.1]

/-- After `lhs = rhs`: equal all the way down, with `lhs` the parent of its members;
none of its old members reachable from it; `rhs` and all below it as before. -/
def DeepCopied (depth : Nat) (m : Memory) (lhs rhs : Nat) : Prop :=
  ∃ m', assign depth m lhs rhs = .ok m' ∧
    layout.Alike m m' (depth + 1) rhs lhs ∧
    (∀ b ∈ (holdings (depth + 1) m lhs).tail, ¬ layout.Reaches m' lhs b) ∧
    ∀ b, layout.Reaches m rhs b → m'.lookup b = m.lookup b

/-- What the assignment of each class relies on. -/
def NothingLeft (depth : Nat) (m : Memory) (lhs rhs : Nat) (w v : Variable) : Prop :=
  match w.contents, v.contents with
  | .structure ws, .structure vs => ws = [] ∧ vs = []
  | .sequence _ ws values, .sequence _ vs _ =>
    ws = [] ∧ values = [] ∧ vs = [] ∧ ¬ layout.Reaches m rhs lhs
  | .grid _ _ mapVars, .grid .. =>
    mapVars = [] ∧ ∀ b ∈ holdings (depth + 1) m lhs, ¬ layout.Reaches m rhs b
  | _, _ => False

/-- The class of a compound variable. -/
def compoundClass (v : Variable) : Option VarType :=
  match v.contents with
  | .structure _ => some .structure
  | .sequence .. => some .sequence
  | .grid .. => some .grid
  | _ => none

section
variable {depth lhs rhs : Nat}

theorem holdings_old (there : Destructible m n a) (mem : b ∈ holdings n m a) : b < m.size := by
  obtain ⟨x, found⟩ := holdings_there there mem
  exact Heap.lt_of_lookup found

/-- A copy made in new cells meets all that is asked. -/
theorem deepCopied_of_copy (there : Destructible m (depth + 1) lhs)
    (single : (holdings (depth + 1) m lhs).Nodup) (assigned : assign depth m lhs rhs = .ok m')
    (copy : CopyOf m.size m m' (depth + 1) rhs lhs)
    (kept : ∀ b, layout.Reaches m rhs b → m'.lookup b = m.lookup b) :
    DeepCopied depth m lhs rhs := by
  refine ⟨m', assigned, copy.alike, ?_, kept⟩
  intro b mem reached
  have old : b < m.size := holdings_old there (List.mem_of_mem_tail mem)
  cases copy.reached reached with
  | inl same =>
    subst same
    simp only [holdings, List.tail_cons] at mem single
    exact (List.nodup_cons.mp single).1 mem
  | inr fresh => omega

theorem constructorAssign_eq (found : m.lookup rhs = some v) (other : rhs ≠ lhs) :
    constructorAssign depth m lhs rhs =
      copyMembers (ptrDuplicate depth) lhs pushVar (m.modify lhs (baseDuplicate v)) v.vars := by
  unfold constructorAssign
  rw [fetch_of_lookup found]
  apply constructorDuplicate_eq
  rw [Heap.lookup_modify_other m other, found]

/-- `Constructor::operator=` copies the base and appends copies of the members. -/
theorem constructorAssign_frame (found : m.lookup rhs = some v) (own : m.lookup lhs = some w)
    (other : rhs ≠ lhs) (assigned : constructorAssign depth m lhs rhs = .ok m') :
    ∃ cs', cs'.length = v.vars.length ∧
      m'.lookup lhs = some (pushAll pushVar cs' (baseDuplicate v w)) ∧ m.Extends lhs m' := by
  rw [constructorAssign_eq found other] at assigned
  have old := Heap.lt_of_lookup own
  obtain ⟨cs', count, _, final, kept⟩ :=
    copyMembers_frame (ptrDuplicate_frames depth) pushVar (by simpa using old) assigned
  refine ⟨cs', count, ?_, .trans (.modify m lhs _) kept⟩
  rw [final, Heap.lookup_modify_same, own]
  rfl

theorem structureAssign_frame (found : m.lookup rhs = some v) (own : m.lookup lhs = some w)
    (other : lhs ≠ rhs) (assigned : structureAssign depth m lhs rhs = .ok m') :
    ∃ cs cs', cs.length = v.vars.length ∧ cs'.length = v.vars.length ∧
      m'.lookup lhs = some (pushAll pushVar cs' (pushAll pushVar cs (baseDuplicate v w))) := by
  unfold structureAssign at assigned
  rw [if_neg other] at assigned
  obtain ⟨m₁, first, second⟩ := bind_success assigned
  obtain ⟨cs, count, own₁, kept⟩ := constructorAssign_frame found own other.symm first
  have found₁ : m₁.lookup rhs = some v :=
    (kept.lookup (Heap.lt_of_lookup found) other.symm).trans found
  obtain ⟨cs', count', _, final, _⟩ := constructorDuplicate_frame (ptrDuplicate_frames depth)
    (Heap.lt_of_lookup own₁) found₁ second
  exact ⟨cs, cs', count, count', by rw [final, own₁]; rfl⟩

theorem sequenceAssign_frame (found : m.lookup rhs = some v) (own : m.lookup lhs = some w)
    (other : lhs ≠ rhs) {state : RowState} {vs : List Nat} {values : List (List Nat)}
    (class_v : v.contents = .sequence state vs values)
    (assigned : sequenceAssign depth m lhs rhs = .ok m') :
    ∃ cs cs' rows', cs.length = vs.length ∧ cs'.length = vs.length ∧
      rows'.length = values.length ∧
      m'.lookup lhs = some (pushRows rows' (pushAll pushVar cs'
        (setState state (pushAll pushVar cs (baseDuplicate v w))))) := by
  unfold sequenceAssign at assigned
  rw [if_neg other] at assigned
  obtain ⟨m₁, first, second⟩ := bind_success assigned
  obtain ⟨cs, count, own₁, kept⟩ := constructorAssign_frame found own other.symm first
  have found₁ : m₁.lookup rhs = some v :=
    (kept.lookup (Heap.lt_of_lookup found) other.symm).trans found
  obtain ⟨state', vs', values', cs', rows', same, count', count_rows, final, _⟩ :=
    sequenceDuplicate_frame (ptrDuplicate_frames depth) (Heap.lt_of_lookup own₁) found₁ second
  cases class_v.symm.trans same
  have vars_v : v.vars = vs := by simp [Variable.vars, class_v]
  exact ⟨cs, cs', rows', vars_v ▸ count, count', count_rows, by rw [final, own₁]; rfl⟩

/-- The two sides of an assignment: different objects, the right one whole, the left one
ready to be destroyed without any object being destroyed twice. -/
structure Sides (depth : Nat) (m : Memory) (lhs rhs : Nat) (w v : Variable) : Prop where
  own : m.lookup lhs = some w
  found : m.lookup rhs = some v
  other : lhs ≠ rhs
  whole : Whole m (depth + 1) rhs
  there : Destructible m (depth + 1) lhs
  single : (holdings (depth + 1) m lhs).Nodup

theorem Sides.sound (sides : Sides depth m lhs rhs w v) :
    Sound v ∧ ∀ c ∈ parts v, Whole m depth c := by
  obtain ⟨x, found, sound, below⟩ := sides.whole
  cases sides.found.symm.trans found
  exact ⟨sound, below⟩

/-- Parts of `rhs` from which `lhs` is not reached can be copied in any later memory that
differs in `lhs` and new objects only. -/
theorem Sides.ready (sides : Sides depth m lhs rhs w v) (sees : layout.Sees m rhs m')
    (apart : ¬ layout.Reaches m rhs lhs) : Ready m depth lhs m' (parts v) := by
  intro c part
  refine ⟨sides.sound.2 c part, sees.part sides.found part, ?_⟩
  intro reached
  exact apart (.part sides.found part reached)

theorem Sides.shape (sides : Sides depth m lhs rhs w v) {u : Variable}
    (alike : layout.Alike m m' (depth + 1) rhs lhs) (final : m'.lookup lhs = some u) :
    detach u.contents = detach v.contents := by
  obtain ⟨x, x', found, found', shape, _⟩ := alike
  cases sides.found.symm.trans found
  cases final.symm.trans found'
  exact (Prod.mk.inj shape).2

theorem Sides.base (sides : Sides depth m lhs rhs w v) (u : Variable) :
    (baseDuplicate v u).base = v.base := by
  unfold baseDuplicate
  rw [copyAttr_plain sides.sound.1.plain]

/-- Without members `Constructor::operator=` copies the base only. -/
theorem Sides.base_copied (sides : Sides depth m lhs rhs w v) (empty : v.vars = []) :
    constructorAssign depth m lhs rhs = .ok (m.modify lhs (baseDuplicate v)) ∧
      (m.modify lhs (baseDuplicate v)).lookup lhs = some (baseDuplicate v w) := by
  constructor
  · rw [constructorAssign_eq sides.found sides.other.symm, empty]
    rfl
  · rw [Heap.lookup_modify_same, sides.own]
    rfl

theorem structure_deepCopied_iff (sides : Sides depth m lhs rhs w v) {ws vs : List Nat}
    (class_w : w.contents = .structure ws) (class_v : v.contents = .structure vs) :
    DeepCopied depth m lhs rhs ↔ ws = [] ∧ vs = [] := by
  have dispatch : assign depth m lhs rhs = structureAssign depth m lhs rhs := by
    unfold assign
    rw [fetch_of_lookup sides.own]
    simp only [bind, Except.bind, class_w]
  have vars_v : v.vars = vs := by simp [Variable.vars, class_v]
  constructor
  · rintro ⟨m', assigned, alike, _, _⟩
    rw [dispatch] at assigned
    obtain ⟨cs, cs', count, count', final⟩ :=
      structureAssign_frame sides.found sides.own sides.other assigned
    rw [vars_v] at count count'
    have contents := pushAll_structure cs' (pushAll_structure cs
      (v := baseDuplicate v w) (by simpa [baseDuplicate] using class_w))
    have lengths := sides.shape alike final
    simp only [contents, class_v, detach, Contents.structure.injEq] at lengths
    have sum := congrArg List.length lengths
    simp only [List.length_map, List.length_append] at sum
    exact ⟨List.length_eq_zero_iff.mp (by omega), List.length_eq_zero_iff.mp (by omega)⟩
  · rintro ⟨rfl, rfl⟩
    obtain ⟨first, own₁⟩ := sides.base_copied vars_v
    have changed : m.Extends lhs (m.modify lhs (baseDuplicate v)) := .modify m lhs _
    have parts_v : parts v = [] := by simp [parts, class_v]
    have only : ∀ b, layout.Reaches m rhs b → b = rhs := by
      intro b reached
      cases reached.cases_head with
      | inl same => exact same.symm
      | inr step =>
        obtain ⟨c, ⟨x, found, part⟩, _⟩ := step
        cases sides.found.symm.trans found
        change c ∈ parts v at part
        simp [parts_v] at part
    obtain ⟨m', second, copy, kept⟩ := structureDuplicate_copied (ptrDuplicate_copies m depth)
      sides.found (m := m.modify lhs (baseDuplicate v))
      ((Heap.lookup_modify_other m sides.other.symm _).trans sides.found) own₁
      (sides.base w) class_v (by simpa [baseDuplicate] using class_w) sides.sound.1
      (by rw [parts_v]; simp [Ready])
    rw [Heap.size_modify] at copy
    refine deepCopied_of_copy sides.there sides.single ?_ copy ?_
    · rw [dispatch]
      unfold structureAssign
      rw [if_neg sides.other, first]
      exact second
    · intro b reached
      cases only b reached
      exact (changed.trans kept).lookup (Heap.lt_of_lookup sides.found) sides.other.symm

theorem sequence_deepCopied_iff (sides : Sides depth m lhs rhs w v)
    {state state' : RowState} {ws vs : List Nat} {rows values : List (List Nat)}
    (class_w : w.contents = .sequence state' ws rows)
    (class_v : v.contents = .sequence state vs values) :
    DeepCopied depth m lhs rhs ↔
      ws = [] ∧ rows = [] ∧ vs = [] ∧ ¬ layout.Reaches m rhs lhs := by
  have dispatch : assign depth m lhs rhs = sequenceAssign depth m lhs rhs := by
    unfold assign
    rw [fetch_of_lookup sides.own]
    simp only [bind, Except.bind, class_w]
  have vars_v : v.vars = vs := by simp [Variable.vars, class_v]
  constructor
  · rintro ⟨m', assigned, alike, _, unchanged⟩
    rw [dispatch] at assigned
    obtain ⟨cs, cs', rows', count, count', count_rows, final⟩ :=
      sequenceAssign_frame sides.found sides.own sides.other class_v assigned
    have first := pushAll_sequence cs (v := baseDuplicate v w)
      (by simpa [baseDuplicate] using class_w)
    have set : (setState state (pushAll pushVar cs (baseDuplicate v w))).contents =
        .sequence state (ws ++ cs) rows := by
      simp [setState, first]
    have contents := pushRows_sequence rows' (pushAll_sequence cs' set)
    have lengths := sides.shape alike final
    simp only [contents, class_v, detach, Contents.sequence.injEq] at lengths
    have sum := congrArg List.length lengths.2.1
    have sum_rows := congrArg List.length lengths.2.2
    simp only [List.length_map, List.length_append] at sum sum_rows
    have no_ws : ws = [] := List.length_eq_zero_iff.mp (by omega)
    have no_rows : rows = [] := List.length_eq_zero_iff.mp (by omega)
    have no_vs : vs = [] := List.length_eq_zero_iff.mp (by omega)
    refine ⟨no_ws, no_rows, no_vs, ?_⟩
    intro reached
    -- `lhs` would have got the rows of `rhs`, and so `rhs` would have changed.
    have same : some (pushRows rows' _) = some w :=
      final.symm.trans ((unchanged lhs reached).trans sides.own)
    have same_rows := congrArg Variable.contents (Option.some.inj same)
    rw [contents, class_w] at same_rows
    injection same_rows with _ _ rows_eq
    have count_zero := congrArg List.length rows_eq
    simp only [no_rows, List.nil_append, List.length_nil] at count_zero
    have no_values : values = [] := List.length_eq_zero_iff.mp (by omega)
    cases reached.cases_head with
    | inl same => exact sides.other same.symm
    | inr step =>
      obtain ⟨c, ⟨x, found, part⟩, _⟩ := step
      cases sides.found.symm.trans found
      change c ∈ parts v at part
      simp [parts, class_v, no_vs, no_values] at part
  · rintro ⟨rfl, rfl, rfl, apart⟩
    obtain ⟨first, own₁⟩ := sides.base_copied vars_v
    have changed : m.Extends lhs (m.modify lhs (baseDuplicate v)) := .modify m lhs _
    have sees := (Layout.Sees.refl m rhs).extends sides.whole changed apart
    obtain ⟨m', second, copy, kept⟩ := sequenceDuplicate_copied (ptrDuplicate_copies m depth)
      sides.found (m := m.modify lhs (baseDuplicate v))
      ((Heap.lookup_modify_other m sides.other.symm _).trans sides.found) own₁
      (sides.base w) class_v (by simpa [baseDuplicate] using class_w) sides.sound.1
      (sides.ready sees apart)
    rw [Heap.size_modify] at copy
    refine deepCopied_of_copy sides.there sides.single ?_ copy ?_
    · rw [dispatch]
      unfold sequenceAssign
      rw [if_neg sides.other, first]
      exact second
    · exact sees.extends sides.whole kept apart

/-- What `Grid::operator=` leaves when it comes to an end: the maps of `w` are still in
`d_map_vars`. -/
theorem gridAssign_frame (sides : Sides depth m lhs rhs w v) {ws mapVars : List Nat}
    {arrayVar : Option Nat} (class_w : w.contents = .grid ws arrayVar mapVars)
    (assigned : gridAssign depth m lhs rhs = .ok m') :
    ∃ vs array maps array' cs', v.contents = .grid vs (some array) maps ∧
      cs'.length = maps.length ∧ m.size ≤ array' ∧
      (∃ u, m'.lookup lhs = some u ∧
        u.contents = .grid ([array'] ++ cs') (some array') (mapVars ++ cs')) ∧
      ∀ b ∈ (holdings (depth + 1) m lhs).tail, m'.lookup b = none := by
  unfold gridAssign at assigned
  rw [if_neg sides.other] at assigned
  obtain ⟨m₁, cleared, rest⟩ := bind_success assigned
  obtain ⟨m₂, first, second⟩ := bind_success rest
  obtain ⟨m₁', cleared', size₁, own₁, gone, kept₁⟩ :=
    deleteParts_freed sides.there sides.single sides.own class_w
  cases cleared.symm.trans cleared'
  obtain ⟨v', fetched, _⟩ := bind_success first
  have found₁ := fetch_success fetched
  have same_v : v' = v := by
    by_cases held : rhs ∈ holdings (depth + 1) m lhs
    · have inTail : rhs ∈ (holdings (depth + 1) m lhs).tail := by
        simp only [holdings, List.tail_cons] at held ⊢
        exact (List.mem_cons.mp held).resolve_left sides.other.symm
      rw [gone rhs inTail] at found₁
      cases found₁
    · rw [kept₁ rhs held, sides.found] at found₁
      exact (Option.some.inj found₁).symm
  subst same_v
  obtain ⟨cs, _, own₂, kept₂⟩ := constructorAssign_frame found₁ own₁ sides.other.symm first
  have found₂ : m₂.lookup rhs = some v' :=
    (kept₂.lookup (Heap.lt_of_lookup found₁) sides.other.symm).trans found₁
  obtain ⟨vs, array, maps, array', cs', class_v, count, news, final, kept₃⟩ :=
    gridDuplicate_frame (ptrDuplicate_frames depth) (Heap.lt_of_lookup own₂) found₂ second
  have grown : m.size ≤ m₂.size := size₁ ▸ kept₂.grows
  refine ⟨vs, array, maps, array', cs', class_v, count,
    Nat.le_trans grown (news.fresh array' List.mem_cons_self), ⟨_, final.trans (by rw [own₂]; rfl), ?_⟩, ?_⟩
  · have dropped : (baseDuplicate v' (dropArray w)).contents = .grid ws none mapVars := by
      simp [baseDuplicate, dropArray, class_w]
    have set : (setArray array' (pushAll pushVar cs (baseDuplicate v' (dropArray w)))).contents =
        .grid [array'] (some array') mapVars := by
      simp [setArray, pushAll_grid cs dropped]
    exact pushAll_maps cs' set
  · intro b mem
    have old : b < m.size := holdings_old sides.there (List.mem_of_mem_tail mem)
    have other : b ≠ lhs := by
      rintro rfl
      have single := sides.single
      simp only [holdings, List.tail_cons] at mem single
      exact (List.nodup_cons.mp single).1 mem
    rw [kept₃.lookup (by omega) other, kept₂.lookup (by omega) other, gone b mem]

theorem grid_dispatch (sides : Sides depth m lhs rhs w v) {ws mapVars : List Nat}
    {arrayVar : Option Nat} (class_w : w.contents = .grid ws arrayVar mapVars) :
    assign depth m lhs rhs = gridAssign depth m lhs rhs := by
  unfold assign
  rw [fetch_of_lookup sides.own]
  simp only [bind, Except.bind, class_w]

theorem grid_apart_of_deepCopied (sides : Sides depth m lhs rhs w v)
    {ws vs mapVars maps : List Nat} {arrayVar array : Option Nat}
    (class_w : w.contents = .grid ws arrayVar mapVars)
    (class_v : v.contents = .grid vs array maps) (copied : DeepCopied depth m lhs rhs) :
    mapVars = [] ∧ ∀ b ∈ holdings (depth + 1) m lhs, ¬ layout.Reaches m rhs b := by
  obtain ⟨m', assigned, alike, _, unchanged⟩ := copied
  rw [grid_dispatch sides class_w] at assigned
  obtain ⟨vs', array', maps', new, cs', class_v', count, fresh, ⟨u, final, contents⟩, gone⟩ :=
    gridAssign_frame sides class_w assigned
  cases class_v.symm.trans class_v'
  have lengths := sides.shape alike final
  simp only [contents, class_v, detach, Contents.grid.injEq] at lengths
  have sum := congrArg List.length lengths.2.2
  simp only [List.length_map, List.length_append] at sum
  refine ⟨List.length_eq_zero_iff.mp (by omega), ?_⟩
  intro b held reached
  have same := unchanged b reached
  simp only [holdings, List.mem_cons] at held
  rcases held with rfl | inTail
  · -- `lhs` itself is below `rhs`, and has a new array now.
    rw [final, sides.own] at same
    have same_contents := congrArg Variable.contents (Option.some.inj same)
    rw [contents, class_w] at same_contents
    injection same_contents with _ same_array _
    obtain ⟨x, found, below⟩ := sides.there
    cases sides.own.symm.trans found
    have owned : new ∈ w.owned := by simp [Variable.owned, class_w, ← same_array]
    have mem : new ∈ holdings depth m new := by
      cases depth with
      | zero => exact (below new owned).elim
      | succ d => simp [holdings]
    have old := holdings_old (below new owned) mem
    omega
  · have inTail' : b ∈ (holdings (depth + 1) m lhs).tail := by
      simpa only [holdings, List.tail_cons] using inTail
    obtain ⟨x, found⟩ := sides.whole.reached reached
    rw [gone b inTail', found] at same
    cases same

theorem grid_deepCopied (sides : Sides depth m lhs rhs w v) {ws vs maps : List Nat}
    {arrayVar array : Option Nat} (class_w : w.contents = .grid ws arrayVar [])
    (class_v : v.contents = .grid vs array maps)
    (apart : ∀ b ∈ holdings (depth + 1) m lhs, ¬ layout.Reaches m rhs b) :
    DeepCopied depth m lhs rhs := by
  have apart_lhs : ¬ layout.Reaches m rhs lhs := apart lhs (by simp [holdings])
  obtain ⟨m₁, cleared, size₁, own₁, _, kept₁⟩ :=
    deleteParts_freed sides.there sides.single sides.own class_w
  have sees₁ : layout.Sees m rhs m₁ := by
    intro b reached
    exact kept₁ b fun held => apart b held reached
  have found₁ : m₁.lookup rhs = some v := (sees₁ rhs .refl).trans sides.found
  have changed : m₁.Extends lhs (m₁.modify lhs (baseDuplicate v)) := .modify m₁ lhs _
  have sees₂ := sees₁.extends sides.whole changed apart_lhs
  have ready := sides.ready sees₂ apart_lhs
  have vars_v : v.vars = vs := by simp [Variable.vars, class_v]
  have sound := sides.sound.1
  have perm : vs.Perm (parts v) := by
    have contents := sound.contents
    simp only [SoundContents, class_v] at contents
    simpa [parts, class_v] using contents.2
  obtain ⟨cs, m₂, first, _, _, own₂, kept₂⟩ := copyMembers_copied (ptrDuplicate_copies m depth)
    pushVar (ready.subset perm.subset) (by simpa using Heap.lt_of_lookup own₁)
  have assigned : constructorAssign depth m₁ lhs rhs = .ok m₂ := by
    rw [constructorAssign_eq found₁ sides.other.symm, vars_v]
    exact first
  rw [Heap.lookup_modify_same, own₁, Option.map_some, Option.map_some] at own₂
  have sees₃ := sees₂.extends sides.whole kept₂ apart_lhs
  have dropped : (baseDuplicate v (dropArray w)).contents = .grid ws none [] := by
    simp [baseDuplicate, dropArray, class_w]
  have base_v : (pushAll pushVar cs (baseDuplicate v (dropArray w))).base = v.base :=
    (pushAll_base pushVar_base cs _).trans (sides.base _)
  obtain ⟨m', second, copy, kept₃⟩ := gridDuplicate_copied (ptrDuplicate_copies m depth)
    sides.found ((sees₃ rhs .refl).trans sides.found) own₂ base_v class_v
    (pushAll_grid cs dropped) sound (sides.ready sees₃ apart_lhs)
  have grown : m.size ≤ m₂.size := size₁ ▸ (changed.trans kept₂).grows
  refine deepCopied_of_copy sides.there sides.single ?_ (copy.mono grown) ?_
  · rw [grid_dispatch sides class_w]
    unfold gridAssign
    rw [if_neg sides.other, cleared]
    change (constructorAssign depth m₁ lhs rhs >>= _) = _
    rw [assigned]
    exact second
  · exact sees₃.extends sides.whole kept₃ apart_lhs

theorem grid_deepCopied_iff (sides : Sides depth m lhs rhs w v) {ws vs mapVars maps : List Nat}
    {arrayVar array : Option Nat} (class_w : w.contents = .grid ws arrayVar mapVars)
    (class_v : v.contents = .grid vs array maps) :
    DeepCopied depth m lhs rhs ↔
      mapVars = [] ∧ ∀ b ∈ holdings (depth + 1) m lhs, ¬ layout.Reaches m rhs b := by
  constructor
  · exact grid_apart_of_deepCopied sides class_w class_v
  · rintro ⟨rfl, apart⟩
    exact grid_deepCopied sides class_w class_v apart

/-- Assignment of compound variables is a deep copy exactly if nothing is left in `lhs`
that is not deleted or cleared, and, for all but Grids, `rhs` has no members. -/
theorem deepCopied_iff (depth : Nat) (m : Memory) (lhs rhs : Nat) (w v : Variable)
    (sides : Sides depth m lhs rhs w v) (compound : (compoundClass w).isSome)
    (same : compoundClass w = compoundClass v) :
    DeepCopied depth m lhs rhs ↔ NothingLeft depth m lhs rhs w v := by
  cases class_w : w.contents with
  | simple _ => simp [compoundClass, class_w] at compound
  | array _ _ _ _ _ _ _ => simp [compoundClass, class_w] at compound
  | «structure» ws =>
    cases class_v : v.contents with
    | «structure» vs =>
      rw [structure_deepCopied_iff sides class_w class_v]
      simp only [NothingLeft, class_w, class_v]
    | _ => simp [compoundClass, class_w, class_v] at same
  | sequence _ ws rows =>
    cases class_v : v.contents with
    | sequence _ vs values =>
      rw [sequence_deepCopied_iff sides class_w class_v]
      simp only [NothingLeft, class_w, class_v]
    | _ => simp [compoundClass, class_w, class_v] at same
  | grid ws arrayVar mapVars =>
    cases class_v : v.contents with
    | grid vs array maps =>
      rw [grid_deepCopied_iff sides class_w class_v]
      simp only [NothingLeft, class_w, class_v]
    | _ => simp [compoundClass, class_w, class_v] at same

end

def named (name : String) (type : VarType) (parent : Option Nat) (contents : Contents Nat) :
    Variable :=
  { base := { name, type, dataset := "", isRead := false, isSend := false,
              inSelection := false, isSynthesized := false,
              attr := [.container "c" [.values "u" "String" ["m"]]] },
    parent, contents }

theorem named_plain (name : String) (type : VarType) (parent : Option Nat)
    (contents : Contents Nat) : IsPlainTable (named name type parent contents).base.attr := by
  simp [named, IsPlainTable, IsPlain]

def vector (template : Nat) : Contents Nat :=
  .array (Array.fresh.appendDim 2 "") (some template) .byte [] [] (some [4, 5]) 2

/-- An empty Grid, and one of an array and a map. -/
def twoGrids : Memory :=
  ⟨[some (named "a" .grid none (.grid [] none [])),
    some (named "b" .grid none (.grid [2, 4] (some 2) [4])),
    some (named "t" .array (some 1) (vector 3)), some (named "t" .byte (some 2) (.simple [])),
    some (named "x" .array (some 1) (vector 5)), some (named "x" .byte (some 4) (.simple []))]⟩

theorem twoGrids_apart : ¬ layout.Reaches twoGrids 1 0 := by
  intro reached
  have parts_old : ∀ a < 6, ∀ c ∈ ((twoGrids.lookup a).map parts).getD [], 1 ≤ c := by decide
  have above : ∀ b, layout.Reaches twoGrids 1 b → 1 ≤ b := by
    intro b path
    cases path.cases_tail with
    | inl same => omega
    | inr step =>
      obtain ⟨a, _, x, found, part⟩ := step
      have old : a < 6 := Heap.lt_of_lookup found
      have mem : b ∈ ((twoGrids.lookup a).map parts).getD [] := by
        rw [found]
        exact part
      exact parts_old a old b mem
  exact absurd (above 0 reached) (by decide)

theorem twoGrids_sides : Sides 2 twoGrids 0 1 (named "a" .grid none (.grid [] none []))
    (named "b" .grid none (.grid [2, 4] (some 2) [4])) where
  own := rfl
  found := rfl
  other := by decide
  whole := by
    have byte : ∀ a name parent, twoGrids.lookup a = some (named name .byte parent (.simple [])) →
        Whole twoGrids 1 a := by
      intro a name parent found
      exact ⟨_, found, ⟨named_plain .., trivial⟩, by simp [layout, parts, named]⟩
    have array : ∀ a name, twoGrids.lookup a = some (named name .array (some 1) (vector (a + 1))) →
        Whole twoGrids 1 (a + 1) → Whole twoGrids 2 a := by
      intro a name found below
      have fits : BufferFits .byte (Array.fresh.appendDim 2 "").length (some [4, 5]) := by
        intro val same
        cases same
        exact ⟨1, rfl, by decide⟩
      refine ⟨_, found, ⟨named_plain .., .inl rfl, fits⟩, ?_⟩
      intro c part
      have same : c = a + 1 := by simpa [layout, parts, named, vector] using part
      exact same ▸ below
    refine ⟨_, rfl, ⟨named_plain .., rfl, List.Perm.refl _⟩, ?_⟩
    intro c part
    have which : c = 2 ∨ c = 4 := by simpa [layout, parts, named] using part
    rcases which with rfl | rfl
    · exact array 2 "t" rfl (byte 3 "t" _ rfl)
    · exact array 4 "x" rfl (byte 5 "x" _ rfl)
  there := ⟨_, rfl, by simp [Variable.owned, named]⟩
  single := by decide

theorem deepCopied_iff_twoGrids : DeepCopied 2 twoGrids 0 1 := by
  refine (deepCopied_iff 2 twoGrids 0 1 _ _ twoGrids_sides rfl rfl).mpr ⟨rfl, ?_⟩
  intro b held
  have same : b = 0 := by
    have only : holdings 3 twoGrids 0 = [0] := by decide
    simpa [only] using held
  subst same
  exact twoGrids_apart

/-- An empty Structure, and one with a single member. -/
def twoStructures : Memory :=
  ⟨[some (named "a" .structure none (.structure [])),
    some (named "b" .structure none (.structure [2])),
    some (named "x" .byte (some 1) (.simple [7]))]⟩

/-- The member is copied twice. -/
theorem deepCopied_fails :
    Sides 1 twoStructures 0 1 (named "a" .structure none (.structure []))
      (named "b" .structure none (.structure [2])) ∧
    (assign 1 twoStructures 0 1).toOption.bind (fun m => (m.lookup 0).map (·.contents)) =
      some (.structure [3, 4]) ∧
    ¬ DeepCopied 1 twoStructures 0 1 := by
  have sides : Sides 1 twoStructures 0 1 (named "a" .structure none (.structure []))
      (named "b" .structure none (.structure [2])) := by
    refine ⟨rfl, rfl, by decide, ⟨_, rfl, ⟨named_plain .., trivial⟩, ?_⟩, ⟨_, rfl, ?_⟩, by decide⟩
    · intro c part
      have same : c = 2 := by simpa [layout, parts, named] using part
      subst same
      exact ⟨_, rfl, ⟨named_plain .., trivial⟩, by simp [layout, parts, named]⟩
    · simp [Variable.owned, named]
  refine ⟨sides, by decide, ?_⟩
  intro copied
  have empty := (structure_deepCopied_iff sides rfl rfl).mp copied
  simp at empty

end Libdap.Guarantees.Assignment
