import Libdap.Guarantees.Assignment
import Libdap.Source.Groups

/-!
# Copying a Group

The copy functions of D4Group are those of Constructor: none of them copies the
enumeration definitions, and `operator=` copies the variables twice.
-/
namespace Libdap.Guarantees.GroupCopy
open Libdap.Library Libdap.Source Libdap.Source.Variables Libdap.Source.Groups
open PtrDuplicate DuplicateFrame Assignment

/-! ## Equal objects are printed alike -/

/-- The definitions of the Groups agree all the way down. -/
def SameDefinitions (w w' : World) : Nat → Nat → Nat → Prop
  | 0, _, _ => False
  | n + 1, a, a' =>
    ∃ v v', w.memory.lookup a = some v ∧ w'.memory.lookup a' = some v' ∧
      w'.definitionsOf a' = w.definitionsOf a ∧
      List.Forall₂ (SameDefinitions w w' n) (parts v) (parts v')

def SameObject (w w' : World) (n a a' : Nat) : Prop :=
  layout.Alike w.memory w'.memory n a a' ∧ SameDefinitions w w' n a a'

variable {w w' : World} {n depth : Nat}

theorem forall₂_and {α β : Type} {P Q : α → β → Prop} {as : List α} {bs : List β}
    (first : List.Forall₂ P as bs) (second : List.Forall₂ Q as bs) :
    List.Forall₂ (fun a b => P a b ∧ Q a b) as bs := by
  induction first with
  | nil => exact .nil
  | cons here _ ih =>
    cases second with
    | cons here' later => exact .cons ⟨here, here'⟩ (ih later)

/-- One level of two equal objects. -/
theorem SameObject.level {a a' : Nat} (same : SameObject w w' (n + 1) a a') :
    ∃ v v', w.memory.lookup a = some v ∧ w'.memory.lookup a' = some v' ∧ v'.base = v.base ∧
      detach v'.contents = detach v.contents ∧ w'.definitionsOf a' = w.definitionsOf a ∧
      List.Forall₂ (SameObject w w' n) (parts v) (parts v') := by
  obtain ⟨⟨v, v', found, found', shape, alike, -⟩, u, u', at_a, at_a', definitions, below⟩ := same
  cases found.symm.trans at_a
  cases found'.symm.trans at_a'
  obtain ⟨base, contents⟩ := Prod.mk.inj shape
  exact ⟨v, v', found, found', base, contents, definitions, forall₂_and alike below⟩

theorem printAll_same {f g : Nat → Except Failure (List Event)} {R : Nat → Nat → Prop}
    (same : ∀ a a', R a a' → g a' = f a) {as as' : List Nat} (related : List.Forall₂ R as as') :
    printAll g as' = printAll f as := by
  induction related with
  | nil => rfl
  | cons here _ ih => rw [printAll, printAll, same _ _ here, ih]

theorem gridPart_same {a a' : Nat} (same : SameObject w w' n a a') :
    gridPart w'.memory a' = gridPart w.memory a := by
  cases n with
  | zero => exact same.1.elim
  | succ n =>
    obtain ⟨v, v', found, found', base, contents, -, -⟩ := same.level
    unfold gridPart
    rw [fetch_of_lookup found, fetch_of_lookup found']
    simp only [bind, Except.bind, base]
    cases class_v : v.contents <;> cases class_v' : v'.contents <;>
      simp_all [detach]

theorem gridParts_same {as as' : List Nat} (related : List.Forall₂ (SameObject w w' n) as as') :
    gridParts w'.memory as' = gridParts w.memory as := by
  induction related with
  | nil => rfl
  | cons here _ ih => rw [gridParts, gridParts, gridPart_same here, ih]

theorem yieldsGrid_same {a a' : Nat} {as as' : List Nat} (array : SameObject w w' n a a')
    (maps : List.Forall₂ (SameObject w w' n) as as') :
    yieldsGrid w'.memory a' as' = yieldsGrid w.memory a as := by
  unfold yieldsGrid
  rw [gridPart_same array, gridParts_same maps]

/-- The class of a variable without its pointers, with the related pointers of another. -/
theorem detach_array {v v' : Variable} {dims : Array.Dims} {template : Option Nat}
    {type : VarType} {elements : List Nat} {strings : List String} {buf : Option (List UInt8)}
    {capacity : Nat} (same : detach v'.contents = detach v.contents)
    (class_v : v.contents = .array dims template type elements strings buf capacity) :
    ∃ template' elements' strings' buf' capacity',
      v'.contents = .array dims template' type elements' strings' buf' capacity' ∧
        template'.isSome = template.isSome := by
  rw [class_v] at same
  cases class_v' : v'.contents <;> simp only [class_v', detach, reduceCtorEq] at same
  rename_i dims' template' type' elements' strings' buf' capacity'
  simp only [Contents.array.injEq] at same
  obtain ⟨rfl, templates, rfl, -⟩ := same
  refine ⟨_, _, _, _, _, rfl, ?_⟩
  simpa using congrArg Option.isSome templates

theorem detach_structure {v v' : Variable} {vars : List Nat}
    (same : detach v'.contents = detach v.contents) (class_v : v.contents = .structure vars) :
    ∃ vars', v'.contents = .structure vars' ∧ vars'.length = vars.length := by
  rw [class_v] at same
  cases class_v' : v'.contents <;> simp only [class_v', detach, reduceCtorEq] at same
  simp only [Contents.structure.injEq] at same
  exact ⟨_, rfl, by simpa using congrArg List.length same⟩

theorem detach_sequence {v v' : Variable} {state : RowState} {vars : List Nat}
    {values : List (List Nat)} (same : detach v'.contents = detach v.contents)
    (class_v : v.contents = .sequence state vars values) :
    ∃ vars' values', v'.contents = .sequence state vars' values' ∧
      vars'.length = vars.length := by
  rw [class_v] at same
  cases class_v' : v'.contents <;> simp only [class_v', detach, reduceCtorEq] at same
  simp only [Contents.sequence.injEq] at same
  obtain ⟨rfl, vars_eq, -⟩ := same
  exact ⟨_, _, rfl, by simpa using congrArg List.length vars_eq⟩

theorem detach_grid {v v' : Variable} {vars mapVars : List Nat} {arrayVar : Option Nat}
    (same : detach v'.contents = detach v.contents)
    (class_v : v.contents = .grid vars arrayVar mapVars) :
    ∃ vars' arrayVar' mapVars', v'.contents = .grid vars' arrayVar' mapVars' ∧
      arrayVar'.isSome = arrayVar.isSome := by
  rw [class_v] at same
  cases class_v' : v'.contents <;> simp only [class_v', detach, reduceCtorEq] at same
  simp only [Contents.grid.injEq] at same
  obtain ⟨-, array, -⟩ := same
  exact ⟨_, _, _, rfl, by simpa using congrArg Option.isSome array⟩

/-- The document of an object depends on what it is equal to, all the way down. -/
theorem print_same (constrained : Bool) (printing : Printing) {a a' : Nat}
    (same : SameObject w w' n a a') :
    print w' constrained n printing a' = print w constrained n printing a := by
  induction n generalizing printing a a' with
  | zero => exact same.1.elim
  | succ n ih =>
    obtain ⟨v, v', found, found', base, contents, definitions, below⟩ := same.level
    unfold print
    rw [fetch_of_lookup found, fetch_of_lookup found']
    simp only [bind, Except.bind, base]
    cases class_v : v.contents with
    | simple value =>
      have class_v' : ∃ value', v'.contents = .simple value' := by
        rw [class_v] at contents
        cases class_v' : v'.contents <;> simp [class_v', detach] at contents ⊢
      obtain ⟨value', class_v'⟩ := class_v'
      rw [class_v']
      cases printing <;> rfl
    | array dims template type elements strings buf capacity =>
      obtain ⟨template', elements', strings', buf', capacity', class_v', some_iff⟩ :=
        detach_array contents class_v
      rw [class_v']
      simp only [parts, class_v, class_v'] at below
      cases template with
      | none =>
        obtain rfl : template' = none := by simpa using some_iff
        cases printing <;> rfl
      | some var =>
        obtain ⟨var', rfl⟩ := Option.isSome_iff_exists.mp some_iff
        obtain ⟨here, -⟩ := List.forall₂_cons.mp below
        cases printing <;> simp only [ih .nameless here]
    | «structure» vars =>
      obtain ⟨vars', class_v', -⟩ := detach_structure contents class_v
      rw [class_v']
      simp only [parts, class_v, class_v'] at below
      have members := printAll_same (fun _ _ here => ih .whole here) below
      cases printing with
      | tagged _ => rfl
      | whole | nameless => simp only [definitions, members]
    | sequence state vars values =>
      obtain ⟨vars', values', class_v', count⟩ := detach_sequence contents class_v
      rw [class_v']
      simp only [parts, class_v, class_v'] at below
      have fields := List.forall₂_take vars.length below
      rw [List.take_left, ← count, List.take_left] at fields
      have members := printAll_same (fun _ _ here => ih .whole here) fields
      cases printing with
      | tagged _ => rfl
      | whole | nameless => simp only [members]
    | grid vars arrayVar mapVars =>
      obtain ⟨vars', arrayVar', mapVars', class_v', some_iff⟩ := detach_grid contents class_v
      rw [class_v']
      simp only [parts, class_v, class_v'] at below
      cases arrayVar with
      | none =>
        obtain rfl : arrayVar' = none := by simpa using some_iff
        cases printing <;> rfl
      | some array =>
        obtain ⟨array', rfl⟩ := Option.isSome_iff_exists.mp some_iff
        obtain ⟨here, maps⟩ := List.forall₂_cons.mp below
        change List.Forall₂ (SameObject w w' n) mapVars mapVars' at maps
        have others := fun tag => printAll_same (fun _ _ here => ih (.tagged tag) here) maps
        cases printing with
        | tagged _ => rfl
        | whole | nameless =>
          simp only [ih .whole here, yieldsGrid_same here maps, others]

/-! ## A deep copy -/

/-- The definitions that the Groups hold are there, and none is held by two Groups. -/
structure Held (w : World) : Prop where
  live : ∀ b, ∀ d ∈ w.enums b, d < w.definitions.size
  unshared : ∀ b b' d, d ∈ w.enums b → d ∈ w.enums b' → b = b'

/-- The result of copying or assigning `rhs`: equal to it all the way down, definitions
included, and printed alike; made of new objects and new definitions; no definition is held
by two Groups; and `rhs` is as before. -/
def GroupCopied (depth : Nat) (w : World) (rhs : Nat) (result : Except Failure (Nat × World)) :
    Prop :=
  ∃ this w', result = .ok (this, w') ∧ SameObject w w' depth rhs this ∧
    (∀ constrained,
      print w' constrained depth .whole this = print w constrained depth .whole rhs) ∧
    (∀ b, layout.Reaches w'.memory this b → b = this ∨ w.memory.size ≤ b) ∧
    (∀ b, layout.Reaches w'.memory this b → ∀ d ∈ w'.enums b, w.definitions.size ≤ d) ∧
    (∀ b b' d, d ∈ w'.enums b → d ∈ w'.enums b' → b = b') ∧
    ∀ b, layout.Reaches w.memory rhs b →
      w'.memory.lookup b = w.memory.lookup b ∧ w'.enums b = w.enums b ∧
        ∀ d ∈ w.enums b, w'.definitions.lookup d = w.definitions.lookup d

variable {m' : Memory} {lhs rhs : Nat} {u v : Variable}

theorem withMemory_old {a : Nat} (old : a < w.memory.size) :
    (w.withMemory m').enums a = w.enums a :=
  if_pos old

theorem withMemory_new {a : Nat} (fresh : w.memory.size ≤ a) :
    (w.withMemory m').enums a = [] :=
  if_neg (Nat.not_lt.mpr fresh)

theorem withMemory_subset (a : Nat) : (w.withMemory m').enums a ⊆ w.enums a := by
  by_cases old : a < w.memory.size
  · rw [withMemory_old old]
    exact List.Subset.refl _
  · rw [withMemory_new (Nat.not_lt.mp old)]
    exact List.nil_subset _

theorem definitionsOf_eq_nil {a : Nat} : w.definitionsOf a = [] ↔ w.enums a = [] :=
  List.map_eq_nil_iff

/-- Whatever the original reaches has its partner. -/
theorem SameDefinitions.reached {a a' b : Nat} (same : SameDefinitions w w' n a a')
    (reached : layout.Reaches w.memory a b) :
    ∃ b', layout.Reaches w'.memory a' b' ∧ w'.definitionsOf b' = w.definitionsOf b := by
  induction n generalizing a a' with
  | zero => exact same.elim
  | succ n ih =>
    obtain ⟨v, v', found, found', definitions, below⟩ := same
    cases reached.cases_head with
    | inl here =>
      subst here
      exact ⟨a', .refl, definitions⟩
    | inr step =>
      obtain ⟨c, ⟨x, at_a, part⟩, later⟩ := step
      cases found.symm.trans at_a
      obtain ⟨c', part', same'⟩ := Layout.partner (List.Forall₂.flip below) part
      obtain ⟨b', reached', equal⟩ := ih same' later
      exact ⟨b', .part found' part' reached', equal⟩

theorem forall₂_members {P Q : Nat → Nat → Prop} {as bs : List Nat}
    (related : List.Forall₂ P as bs) (gives : ∀ a ∈ as, ∀ b ∈ bs, P a b → Q a b) :
    List.Forall₂ Q as bs := by
  induction related with
  | nil => exact .nil
  | cons here _ ih =>
    refine .cons (gives _ List.mem_cons_self _ List.mem_cons_self here) (ih ?_)
    intro a inside b inside'
    exact gives a (List.mem_cons_of_mem _ inside) b (List.mem_cons_of_mem _ inside')

/-- Without definitions there is nothing to differ in. -/
theorem sameDefinitions_of_none {a a' : Nat} (alike : layout.Alike w.memory w'.memory n a a')
    (none_here : ∀ b, layout.Reaches w.memory a b → w.enums b = [])
    (none_there : ∀ b, layout.Reaches w'.memory a' b → w'.enums b = []) :
    SameDefinitions w w' n a a' := by
  induction n generalizing a a' with
  | zero => exact alike.elim
  | succ n ih =>
    obtain ⟨v, v', found, found', shape, below, -⟩ := alike
    refine ⟨v, v', found, found', ?_, ?_⟩
    · rw [definitionsOf_eq_nil.mpr (none_here a .refl),
        definitionsOf_eq_nil.mpr (none_there a' .refl)]
    · apply forall₂_members below
      intro c part c' part' alike
      exact ih alike (fun b reached => none_here b (.part found part reached))
        fun b reached => none_there b (.part found' part' reached)

theorem reaches_only {m : Memory} {a b : Nat} {x : Variable} (found : m.lookup a = some x)
    (alone : parts x = []) (reached : layout.Reaches m a b) : b = a := by
  cases reached.cases_head with
  | inl same => exact same.symm
  | inr step =>
    obtain ⟨c, ⟨y, at_a, part⟩, -⟩ := step
    cases found.symm.trans at_a
    change c ∈ parts x at part
    rw [alone] at part
    cases part

/-! ## Copy construction -/

theorem groupCopy_eq (whole : Whole w.memory depth rhs) :
    ∃ this m', groupCopy depth w rhs = .ok (this, w.withMemory m') ∧ w.memory.size ≤ this ∧
      CopyOf w.memory.size w.memory m' depth rhs this ∧ w.memory.Extends w.memory.size m' := by
  obtain ⟨this, m', copied, fresh, copy, kept⟩ :=
    ptrDuplicate_copies w.memory depth w.memory rhs whole (.refl w.memory rhs)
  refine ⟨this, m', ?_, fresh, copy, kept⟩
  unfold groupCopy
  rw [copied]
  rfl

theorem copy_copied_iff (held : Held w) (whole : Whole w.memory depth rhs) :
    GroupCopied depth w rhs (groupCopy depth w rhs) ↔
      ∀ b, layout.Reaches w.memory rhs b → w.enums b = [] := by
  obtain ⟨this, m', copied, fresh, copy, kept⟩ := groupCopy_eq whole
  -- all that the copy reaches is new, and new Groups have no definitions
  have new : ∀ b, layout.Reaches m' this b → w.memory.size ≤ b := by
    intro b reached
    cases copy.reached reached with
    | inl same => exact same ▸ fresh
    | inr below => exact below.1
  have bare : ∀ b, layout.Reaches m' this b → (w.withMemory m').enums b = [] :=
    fun b reached => withMemory_new (new b reached)
  have old : ∀ b, layout.Reaches w.memory rhs b → b < w.memory.size := by
    intro b reached
    obtain ⟨x, there⟩ := whole.reached reached
    exact Heap.lt_of_lookup there
  constructor
  · rintro ⟨other, w', result, same, -⟩ b reached
    obtain ⟨rfl, rfl⟩ := Prod.mk.inj (Except.ok.inj (copied.symm.trans result))
    obtain ⟨b', reached', equal⟩ := same.2.reached reached
    rw [definitionsOf_eq_nil.mpr (bare b' reached')] at equal
    exact definitionsOf_eq_nil.mp equal.symm
  · intro none_held
    have same : SameObject w (w.withMemory m') depth rhs this :=
      ⟨copy.alike, sameDefinitions_of_none copy.alike none_held bare⟩
    refine ⟨this, w.withMemory m', copied, same, fun constrained => print_same _ _ same,
      fun b reached => .inr (new b reached), ?_, ?_, ?_⟩
    · intro b reached d inside
      rw [bare b reached] at inside
      cases inside
    · intro b b' d inside inside'
      exact held.unshared b b' d (withMemory_subset b inside) (withMemory_subset b' inside')
    · intro b reached
      have before := old b reached
      exact ⟨kept.lookup before (Nat.ne_of_lt before), withMemory_old before, fun _ _ => rfl⟩

/-! ## Assignment -/

theorem groupAssign_eq (other : lhs ≠ rhs) :
    groupAssign depth w lhs rhs =
      (structureAssign depth w.memory lhs rhs).map fun m => (lhs, w.withMemory m) := by
  unfold groupAssign structureAssign
  rw [if_neg other, if_neg other]
  cases constructorAssign depth w.memory lhs rhs with
  | error failure => rfl
  | ok m =>
    change (constructorDuplicate (ptrDuplicate depth) m lhs rhs >>= _) =
      Except.map _ (constructorDuplicate (ptrDuplicate depth) m lhs rhs)
    cases constructorDuplicate (ptrDuplicate depth) m lhs rhs <;> rfl

theorem assign_structure (own : w.memory.lookup lhs = some u) {us : List Nat}
    (class_u : u.contents = .structure us) :
    assign depth w.memory lhs rhs = structureAssign depth w.memory lhs rhs := by
  unfold assign
  rw [fetch_of_lookup own]
  simp only [bind, Except.bind, class_u]

theorem assign_copied_iff (held : Held w) (sides : Sides depth w.memory lhs rhs u v)
    {us vs : List Nat} (class_u : u.contents = .structure us)
    (class_v : v.contents = .structure vs) :
    GroupCopied (depth + 1) w rhs (groupAssign depth w lhs rhs) ↔
      us = [] ∧ vs = [] ∧ w.enums lhs = [] ∧ w.enums rhs = [] := by
  have old : lhs < w.memory.size := Heap.lt_of_lookup sides.own
  have dispatch : assign depth w.memory lhs rhs = structureAssign depth w.memory lhs rhs :=
    assign_structure sides.own class_u
  have deep := structure_deepCopied_iff sides class_u class_v
  rw [groupAssign_eq sides.other]
  constructor
  · rintro ⟨this, w', result, same, -, apart, new, -, kept⟩
    cases assigned : structureAssign depth w.memory lhs rhs with
    | error failure => rw [assigned] at result; cases result
    | ok m' =>
      rw [assigned] at result
      obtain ⟨rfl, rfl⟩ := Prod.mk.inj (Except.ok.inj result)
      have copied : DeepCopied depth w.memory lhs rhs := by
        refine ⟨m', dispatch.trans assigned, same.1, ?_, fun b reached => (kept b reached).1⟩
        intro b mem reached
        have before : b < w.memory.size := holdings_old sides.there (List.mem_of_mem_tail mem)
        rcases apart b reached with rfl | fresh
        · have single := sides.single
          simp only [holdings, List.tail_cons] at mem single
          exact (List.nodup_cons.mp single).1 mem
        · exact absurd before (Nat.not_lt.mpr fresh)
      have empty : w.enums lhs = [] := by
        apply List.eq_nil_iff_forall_not_mem.mpr
        intro d inside
        have fresh := new lhs .refl d (by rwa [withMemory_old old])
        exact absurd (held.live lhs d inside) (Nat.not_lt.mpr fresh)
      obtain ⟨-, -, -, -, definitions, -⟩ := same.2
      have none_there : (w.withMemory m').definitionsOf lhs = [] :=
        definitionsOf_eq_nil.mpr ((withMemory_old old).trans empty)
      rw [none_there] at definitions
      obtain ⟨no_us, no_vs⟩ := deep.mp copied
      exact ⟨no_us, no_vs, empty, definitionsOf_eq_nil.mp definitions.symm⟩
  · rintro ⟨rfl, rfl, empty, none_held⟩
    obtain ⟨m', assigned, alike, -, kept⟩ := deep.mpr ⟨rfl, rfl⟩
    rw [← dispatch, assigned]
    have level := alike
    obtain ⟨x, x', found, found', -, below, -⟩ := level
    cases sides.found.symm.trans found
    have no_parts : parts v = [] := by simp [parts, class_v]
    have no_parts' : parts x' = [] := by
      change List.Forall₂ _ (parts v) (parts x') at below
      rw [no_parts] at below
      exact List.forall₂_nil_left_iff.mp below
    have only_rhs : ∀ b, layout.Reaches w.memory rhs b → b = rhs :=
      fun b => reaches_only found no_parts
    have only_lhs : ∀ b, layout.Reaches m' lhs b → b = lhs :=
      fun b => reaches_only found' no_parts'
    have bare : (w.withMemory m').enums lhs = [] := (withMemory_old old).trans empty
    have before : rhs < w.memory.size := Heap.lt_of_lookup sides.found
    have same : SameObject w (w.withMemory m') (depth + 1) rhs lhs := by
      refine ⟨alike, sameDefinitions_of_none alike ?_ ?_⟩
      · intro b reached
        rw [only_rhs b reached]
        exact none_held
      · intro b reached
        rw [only_lhs b reached]
        exact bare
    refine ⟨lhs, w.withMemory m', rfl, same, fun constrained => print_same _ _ same,
      fun b reached => .inl (only_lhs b reached), ?_, ?_, ?_⟩
    · intro b reached d inside
      rw [only_lhs b reached, bare] at inside
      cases inside
    · intro b b' d inside inside'
      exact held.unshared b b' d (withMemory_subset b inside) (withMemory_subset b' inside')
    · intro b reached
      refine ⟨kept b reached, ?_, fun _ _ => rfl⟩
      rw [only_rhs b reached]
      exact withMemory_old before

/-- Copy construction, `ptr_duplicate`, and assignment to another Group. -/
theorem groupCopied_iff (depth : Nat) (w : World) (lhs rhs : Nat) (u v : Variable)
    (us vs : List Nat) (held : Held w) (sides : Sides depth w.memory lhs rhs u v)
    (class_u : u.contents = .structure us) (class_v : v.contents = .structure vs) :
    (GroupCopied (depth + 1) w rhs (groupCopy (depth + 1) w rhs) ↔
        ∀ b, layout.Reaches w.memory rhs b → w.enums b = []) ∧
      (GroupCopied (depth + 1) w rhs (groupPtrDuplicate (depth + 1) w rhs) ↔
        ∀ b, layout.Reaches w.memory rhs b → w.enums b = []) ∧
      (GroupCopied (depth + 1) w rhs (groupAssign depth w lhs rhs) ↔
        us = [] ∧ vs = [] ∧ w.enums lhs = [] ∧ w.enums rhs = []) :=
  ⟨copy_copied_iff held sides.whole, copy_copied_iff held sides.whole,
    assign_copied_iff held sides class_u class_v⟩

/-- An empty Group, and one with a single variable. -/
def twoGroups : Memory :=
  ⟨[some (named "t" .group none (.structure [])), some (named "g" .group none (.structure [2])),
    some (named "x" .byte (some 1) (.simple [7]))]⟩

theorem twoGroups_sides : Sides 1 twoGroups 0 1 (named "t" .group none (.structure []))
    (named "g" .group none (.structure [2])) := by
  refine ⟨rfl, rfl, by decide, ⟨_, rfl, ⟨named_plain .., trivial⟩, ?_⟩, ⟨_, rfl, ?_⟩, by decide⟩
  · intro c part
    have same : c = 2 := by simpa [layout, parts, named] using part
    subst same
    exact ⟨_, rfl, ⟨named_plain .., trivial⟩, by simp [layout, parts, named]⟩
  · simp [Variable.owned, named]

def bare : World := { memory := twoGroups, definitions := ⟨[]⟩, enums := fun _ => [] }

/-- The second Group defines an enumeration. -/
def defining : World :=
  { memory := twoGroups, definitions := ⟨[some ⟨"e", .byte, [("one", 1)]⟩]⟩,
    enums := fun a => if a = 1 then [0] else [] }

theorem bare_held : Held bare where
  live _ _ inside := nomatch inside
  unshared _ _ _ inside := nomatch inside

theorem defining_held : Held defining := by
  have only : ∀ b d, d ∈ defining.enums b → b = 1 ∧ d = 0 := by
    intro b d inside
    change d ∈ (if b = 1 then [0] else []) at inside
    split at inside
    · rename_i same
      exact ⟨same, List.mem_singleton.mp inside⟩
    · cases inside
  constructor
  · intro b d inside
    rw [(only b d inside).2]
    decide
  · intro b b' d inside inside'
    rw [(only b d inside).1, (only b' d inside').1]

theorem groupCopied_iff_bare : GroupCopied 2 bare 1 (groupCopy 2 bare 1) :=
  (groupCopied_iff 1 bare 0 1 _ _ [] [2] bare_held twoGroups_sides rfl rfl).1.mpr fun _ _ => rfl

/-- The copy has no definitions, and after the assignment the variable is there twice. -/
theorem groupCopied_fails :
    (groupCopy 2 defining 1).toOption.map (fun s => s.2.definitionsOf s.1) = some [] ∧
    ¬ GroupCopied 2 defining 1 (groupCopy 2 defining 1) ∧
    (groupAssign 1 defining 0 1).toOption.map
      (fun s => (s.2.definitionsOf 0, (s.2.memory.lookup 0).map (·.contents))) =
      some ([], some (.structure [3, 4])) ∧
    ¬ GroupCopied 2 defining 1 (groupAssign 1 defining 0 1) := by
  refine ⟨by decide, ?_, by decide, ?_⟩
  · intro copied
    have none_held := (copy_copied_iff defining_held twoGroups_sides.whole).mp copied 1 .refl
    cases none_held
  · intro copied
    have empty := (assign_copied_iff defining_held twoGroups_sides rfl rfl).mp copied
    cases empty.2.1

end Libdap.Guarantees.GroupCopy
