import Libdap.Library.Outcome
import Libdap.Source.Attributes

/-!
# The names in an attribute table

Every call that adds an entry decodes the name first and looks whether an entry of the
decoded name exists, but `append_container` looks for the name as it was given.
-/
namespace Libdap.Guarantees.AttributeNames
open Libdap.Library Libdap.Source Libdap.Source.Attributes

variable {α β : Type} {m m' : Memory} {this a b : Nat} {t : AttrTable}

def entriesAt (m : Memory) (this : Nat) : Option (List Entry) :=
  (tableAt m this).map AttrTable.attrMap

def names (es : List Entry) : List (List Char) := es.map Entry.name

/-- No two entries have the same name, so each is the one that is found. -/
def Unique (m : Memory) (this : Nat) : Prop :=
  ∀ t, tableAt m this = some t →
    (names t.attrMap).Nodup ∧ ∀ e ∈ t.attrMap, t.simpleFind e.name = some e

theorem reading_ok {f : Memory → Except Failure α} {x : α}
    (done : reading f m = .ok x m') : m' = m ∧ f m = .ok x := by
  unfold reading at done
  cases found : f m with
  | ok y =>
    simp only [found] at done
    cases done
    exact ⟨rfl, rfl⟩
  | error failure =>
    simp only [found] at done
    cases done

theorem reading_error {f : Memory → Except Failure α} {failure : Failure}
    (thrown : reading f m = .error failure m') : m' = m ∧ f m = .error failure := by
  unfold reading at thrown
  cases found : f m with
  | ok y =>
    simp only [found] at thrown
    cases thrown
  | error failure' =>
    simp only [found] at thrown
    cases thrown
    exact ⟨rfl, rfl⟩

theorem demand_ok {o : Option α} {x : α} (found : demand o = .ok x) : o = some x := by
  cases o with
  | none => cases found
  | some y =>
    cases found
    rfl

/-- An exception of the library, as opposed to a step without meaning. -/
def Thrown : Failure → Prop
  | .error _ _ | .internalErr _ => True
  | _ => False

theorem demand_not_thrown {o : Option α} {failure : Failure}
    (missing : demand o = .error failure) : ¬ Thrown failure := by
  cases o with
  | none =>
    cases missing
    exact id
  | some y => cases missing

/-- Calls that only free cells, and throw nothing. -/
def Frees (c : Call α) : Prop :=
  ∀ m, (∀ x m', c m = .ok x m' → ∀ b, m'.lookup b = m.lookup b ∨ m'.lookup b = none) ∧
    ∀ failure m', c m = .error failure m' → ¬ Thrown failure

theorem frees_pure (x : α) : Frees (pure x : Call α) := by
  intro m
  constructor
  · intro y m' done b
    cases done
    exact .inl rfl
  · intro failure m' thrown
    cases thrown

theorem Frees.bind {x : Call α} {f : α → Call β} (first : Frees x) (rest : ∀ y, Frees (f y)) :
    Frees (x >>= f) := by
  intro m
  constructor
  · intro r m' done b
    obtain ⟨y, m₁, before, after⟩ := bind_returned done
    rcases (rest y m₁).1 r m' after b with same | gone
    · rcases (first m).1 y m₁ before b with same' | gone'
      · exact .inl (same.trans same')
      · exact .inr (same.trans gone')
    · exact .inr gone
  · intro failure m' thrown
    rcases bind_error thrown with before | ⟨y, m₁, _, after⟩
    · exact (first m).2 failure m' before
    · exact (rest y m₁).2 failure m' after

theorem frees_reading (o : Memory → Option α) : Frees (reading fun m => demand (o m)) := by
  intro m
  constructor
  · intro x m' done b
    obtain ⟨rfl, _⟩ := reading_ok done
    exact .inl rfl
  · intro failure m' thrown
    exact demand_not_thrown (reading_error thrown).2

theorem frees_free (a : Nat) : Frees (modify fun m => m.free a : Call Unit) := by
  intro m
  constructor
  · intro x m' done b
    cases done
    by_cases same : b = a
    · subst same
      exact .inr (Heap.lookup_free_same m b)
    · exact .inl (Heap.lookup_free_other m same)
  · intro failure m' thrown
    cases thrown

theorem frees_forM {f : Entry → Call Unit} (each : ∀ e, Frees (f e)) (es : List Entry) :
    Frees (es.forM f) := by
  induction es with
  | nil => exact frees_pure ()
  | cons e es ih => exact (each e).bind fun _ => ih

theorem deleteEntry_frees (depth : Nat) (e : Entry) : Frees (deleteEntry depth e) := by
  induction depth generalizing e with
  | zero =>
    intro m
    constructor
    · intro x m' done
      cases done
    · intro failure m' thrown
      cases thrown
      exact id
  | succ depth ih =>
    unfold deleteEntry
    split
    · exact frees_pure ()
    · split
      · split
        · exact frees_pure ()
        · exact (frees_reading _).bind fun t => (frees_forM ih t.attrMap).bind fun _ => frees_free _
      · split
        · exact frees_pure ()
        · exact (frees_reading _).bind fun _ => frees_free _

theorem getTable_ok (done : getTable a m = .ok t m') : m' = m ∧ tableAt m a = some t := by
  rcases reading_ok done with ⟨rfl, found⟩
  exact ⟨rfl, demand_ok found⟩

theorem getTable_error {failure : Failure} (thrown : getTable a m = .error failure m') :
    m' = m ∧ ¬ Thrown failure := by
  rcases reading_error thrown with ⟨rfl, missing⟩
  exact ⟨rfl, demand_not_thrown missing⟩

theorem tableAt_lookup (same : m'.lookup b = m.lookup b) : tableAt m' b = tableAt m b := by
  unfold tableAt
  rw [same]

/-- The memory after `modifyTable`. -/
def tableModified (m : Memory) (a : Nat) (f : AttrTable → AttrTable) : Memory :=
  m.modify a fun cell =>
    match cell with
    | .table t => .table (f t)
    | .values v => .values v

theorem modifyTable_eq (a : Nat) (f : AttrTable → AttrTable) (m : Memory) :
    modifyTable a f m = .ok () (tableModified m a f) := rfl

theorem tableAt_modified_same (m : Memory) (a : Nat) (f : AttrTable → AttrTable) :
    tableAt (tableModified m a f) a = (tableAt m a).map f := by
  unfold tableAt tableModified
  rw [Heap.lookup_modify_same]
  cases m.lookup a with
  | none => rfl
  | some cell => cases cell <;> rfl

theorem tableAt_modified_other (other : b ≠ a) (f : AttrTable → AttrTable) :
    tableAt (tableModified m a f) b = tableAt m b :=
  tableAt_lookup (Heap.lookup_modify_other m other _)

/-- A change of a table that keeps its entries. -/
theorem entries_modified {f : AttrTable → AttrTable} (kept : ∀ t, (f t).attrMap = t.attrMap)
    (m : Memory) (a b : Nat) : entriesAt (tableModified m a f) b = entriesAt m b := by
  unfold entriesAt
  by_cases same : b = a
  · subst same
    rw [tableAt_modified_same, Option.map_map]
    cases tableAt m b with
    | none => rfl
    | some t => exact congrArg some (kept t)
  · rw [tableAt_modified_other same]

theorem entries_pushed (e : Entry) (found : tableAt m this = some t) :
    entriesAt (tableModified m this (pushEntry e)) this = some (t.attrMap ++ [e]) := by
  unfold entriesAt
  rw [tableAt_modified_same, found]
  rfl

theorem tableAt_modifyValues (m : Memory) (a b : Nat) (f : List String → List String) :
    ∃ m', modifyValues a f m = .ok () m' ∧ tableAt m' b = tableAt m b := by
  refine ⟨_, rfl, ?_⟩
  by_cases same : b = a
  · subst same
    unfold tableAt
    rw [Heap.lookup_modify_same]
    cases m.lookup b with
    | none => rfl
    | some cell => cases cell <;> rfl
  · exact tableAt_lookup (Heap.lookup_modify_other m same _)

theorem tableAt_allocate {cell : Cell} {p : Nat} (found : tableAt m b = some t)
    (done : allocate cell m = .ok p m') :
    p = m.size ∧ m' = m.alloc (some cell) ∧ tableAt m' b = some t := by
  cases done
  refine ⟨rfl, rfl, ?_⟩
  have old : b < m.size := by
    unfold tableAt at found
    split at found
    · rename_i there
      exact Heap.lt_of_lookup there
    · cases found
  have kept : (m.alloc (some cell)).lookup b = m.lookup b :=
    (Heap.Extends.alloc m _ m.size).lookup old (Nat.ne_of_lt old)
  exact (tableAt_lookup kept).trans found

/-- The name that `append_container` looks for. -/
def containerName : Mutation → Option (List Char)
  | .appendContainer name => some name
  | .appendTable _ name => some name
  | _ => none

/-- What a call that comes to an end has done to the entries. -/
inductive Effect (step : Mutation) (es : List Entry) : List Entry → Prop where
  | same : Effect step es es
  | pushed (e : Entry) (checked : containerName step = none) (absent : e.name ∉ names es) :
    Effect step es (es ++ [e])
  | container (e : Entry) (name : List Char) (given : containerName step = some name)
    (stored : e.name = removeSpaceEncoding name) (absent : name ∉ names es) :
    Effect step es (es ++ [e])
  | erased (name : List Char) : Effect step es (es.eraseP fun e => e.name = name)

theorem simpleFind_none {name : List Char} :
    t.simpleFind name = none ↔ name ∉ names t.attrMap := by
  unfold AttrTable.simpleFind names
  rw [List.find?_eq_none, List.mem_map, not_exists]
  constructor
  · intro none e there
    exact none e there.1 (by simpa using there.2)
  · intro absent e mem same
    exact absent e ⟨mem, by simpa using same⟩

/-- `append_attr` adds to the vector of the attribute of that name, or pushes a new one. -/
theorem appendValues_cases {name type : List Char} {values : List String} {n : Nat}
    (done : appendValues this name type values m = .ok n m') :
    ∃ t, tableAt m this = some t ∧
      ((∃ e attr, t.simpleFind (removeSpaceEncoding name) = some e ∧ e.type = stringToType type ∧
          e.type ≠ .container ∧ e.attr = some attr ∧
          modifyValues attr (· ++ values) m = .ok () m') ∨
        t.simpleFind (removeSpaceEncoding name) = none ∧
          tableAt (m.alloc (some (.values values))) this = some t ∧
          m' = tableModified (m.alloc (some (.values values))) this (pushEntry
            { newEntry (removeSpaceEncoding name) (stringToType type) with
              attr := some m.size })) := by
  obtain ⟨t, m₁, got, rest⟩ := bind_returned done
  rcases getTable_ok got with ⟨rfl, found⟩
  refine ⟨t, found, ?_⟩
  cases search : t.simpleFind (removeSpaceEncoding name) with
  | some e =>
    left
    simp only [search] at rest
    split at rest
    · cases rest
    · rename_i typed
      split at rest
      · cases rest
      · rename_i plain
        obtain ⟨attr, m₂, first, rest₂⟩ := bind_returned rest
        obtain ⟨old, m₃, second, rest₃⟩ := bind_returned rest₂
        obtain ⟨_, m₄, third, rest₄⟩ := bind_returned rest₃
        rcases reading_ok first with ⟨rfl, hasAttr⟩
        rcases reading_ok second with ⟨rfl, _⟩
        cases rest₄
        have kind : e.type ≠ .container := by
          intro container
          rw [container] at plain
          exact plain rfl
        exact ⟨e, attr, rfl, not_not.mp typed, kind, demand_ok hasAttr, third⟩
  | none =>
    right
    simp only [search] at rest
    obtain ⟨attr, m₂, first, rest₂⟩ := bind_returned rest
    obtain ⟨rfl, rfl, found₂⟩ := tableAt_allocate found first
    obtain ⟨_, m₃, second, rest₃⟩ := bind_returned rest₂
    rw [modifyTable_eq] at second
    cases second
    cases rest₃
    exact ⟨rfl, found₂, rfl⟩

theorem appendValues_ok {name type : List Char} {values : List String} {n : Nat} (step : Mutation)
    (checked : containerName step = none)
    (done : appendValues this name type values m = .ok n m') :
    ∃ t, tableAt m this = some t ∧
      ∀ es, entriesAt m' this = some es → Effect step t.attrMap es := by
  obtain ⟨t, found, ⟨e, attr, -, -, -, -, modified⟩ | ⟨absent, found₂, rfl⟩⟩ :=
    appendValues_cases done
  · refine ⟨t, found, fun es same => ?_⟩
    obtain ⟨m₅, modified', kept⟩ := tableAt_modifyValues m attr this (· ++ values)
    cases modified'.symm.trans modified
    unfold entriesAt at same
    rw [kept, found] at same
    cases same
    exact .same
  · refine ⟨t, found, fun es same => ?_⟩
    rw [entries_pushed _ found₂] at same
    cases same
    exact .pushed _ checked (simpleFind_none.mp absent)

theorem entriesAt_eq (found : tableAt m this = some t) :
    entriesAt m this = some t.attrMap := by
  unfold entriesAt
  rw [found]
  rfl

theorem setName_attrMap (n : List Char) (t : AttrTable) :
    (setName n t).attrMap = t.attrMap := rfl

/-- `append_container` names the table, pushes its entry and makes it the table's parent. -/
theorem appendTable_cases {at' p : Nat} {name : List Char}
    (done : appendTable this at' name m = .ok p m') :
    ∃ t t₁, tableAt m this = some t ∧ t.simpleFind name = none ∧ (tableAt m at').isSome ∧
      tableAt (tableModified m at' (setName (removeSpaceEncoding name))) this = some t₁ ∧
      t₁.attrMap = t.attrMap ∧
      m' = tableModified (tableModified (tableModified m at' (setName (removeSpaceEncoding name)))
          this (pushEntry { newEntry (removeSpaceEncoding name) .container with
            attributes := some at' }))
        at' fun t => { t with parent := some this } := by
  obtain ⟨t, m₁, got, rest⟩ := bind_returned done
  rcases getTable_ok got with ⟨rfl, found⟩
  cases search : t.simpleFind name with
  | some e =>
    simp only [search, Option.isSome_some, if_true] at rest
    cases rest
  | none =>
    simp only [search, Option.isSome_none, Bool.false_eq_true, if_false] at rest
    obtain ⟨_, m₂, first, rest₂⟩ := bind_returned rest
    obtain ⟨_, m₃, second, rest₃⟩ := bind_returned rest₂
    obtain ⟨_, m₄, third, rest₄⟩ := bind_returned rest₃
    obtain ⟨_, m₅, fourth, rest₅⟩ := bind_returned rest₄
    rcases getTable_ok first with ⟨rfl, given⟩
    rw [modifyTable_eq] at second third fourth
    cases second
    cases third
    cases fourth
    cases rest₅
    have renamed : entriesAt (tableModified m₂ at' (setName (removeSpaceEncoding name))) this =
        some t.attrMap :=
      (entries_modified (setName_attrMap _) m₂ at' this).trans (entriesAt_eq found)
    unfold entriesAt at renamed
    obtain ⟨t₁, found₁, same₁⟩ := Option.map_eq_some_iff.mp renamed
    exact ⟨t, t₁, found, search, Option.isSome_of_eq_some given, found₁, same₁, rfl⟩

/-- The entry comes to the end of the table, whatever the name it is stored under. -/
theorem appendTable_ok {at' p : Nat} {name : List Char}
    (done : appendTable this at' name m = .ok p m') :
    ∃ t e, tableAt m this = some t ∧ name ∉ names t.attrMap ∧
      e.name = removeSpaceEncoding name ∧ entriesAt m' this = some (t.attrMap ++ [e]) := by
  obtain ⟨t, t₁, found, absent, -, found₁, same₁, rfl⟩ := appendTable_cases done
  refine ⟨t, { newEntry (removeSpaceEncoding name) .container with attributes := some at' },
    found, simpleFind_none.mp absent, rfl, ?_⟩
  rw [entries_modified (f := fun t => { t with parent := some this }) (fun _ => rfl),
    entries_pushed _ found₁, same₁]

theorem appendTable_error {at' : Nat} {name : List Char} {failure : Failure}
    (thrown : appendTable this at' name m = .error failure m') (error : Thrown failure) :
    m' = m := by
  rcases bind_error thrown with missing | ⟨t, m₁, got, rest⟩
  · exact absurd error (getTable_error missing).2
  · rcases getTable_ok got with ⟨rfl, found⟩
    split at rest
    · cases rest
      rfl
    · rcases bind_error rest with missing | ⟨_, m₂, first, rest₂⟩
      · exact absurd error (getTable_error missing).2
      · rcases bind_error rest₂ with failed | ⟨_, m₃, second, rest₃⟩
        · cases failed
        · rcases bind_error rest₃ with failed | ⟨_, m₄, third, rest₄⟩
          · cases failed
          · rcases bind_error rest₄ with failed | ⟨_, m₅, fourth, rest₅⟩
            · cases failed
            · cases rest₅

theorem appendValues_error {name type : List Char} {values : List String} {failure : Failure}
    (thrown : appendValues this name type values m = .error failure m')
    (error : Thrown failure) : m' = m := by
  rcases bind_error thrown with missing | ⟨t, m₁, got, rest⟩
  · exact absurd error (getTable_error missing).2
  · rcases getTable_ok got with ⟨rfl, found⟩
    cases search : t.simpleFind (removeSpaceEncoding name) with
    | some e =>
      simp only [search] at rest
      split at rest
      · cases rest
        rfl
      · split at rest
        · cases rest
          rfl
        · rcases bind_error rest with missing | ⟨_, m₂, first, rest₂⟩
          · exact absurd error (demand_not_thrown (reading_error missing).2)
          · rcases bind_error rest₂ with missing | ⟨_, m₃, second, rest₃⟩
            · exact absurd error (demand_not_thrown (reading_error missing).2)
            · rcases bind_error rest₃ with failed | ⟨_, m₄, third, rest₄⟩
              · cases failed
              · cases rest₄
    | none =>
      simp only [search] at rest
      rcases bind_error rest with failed | ⟨_, m₂, first, rest₂⟩
      · cases failed
      · rcases bind_error rest₂ with failed | ⟨_, m₃, second, rest₃⟩
        · cases failed
        · cases rest₃

theorem addContainerAlias_ok {name : List Char} {src : Nat} (step : Mutation)
    (checked : containerName step = none)
    (done : addContainerAlias this name src m = .ok () m') :
    ∃ t, tableAt m this = some t ∧
      ∀ es, entriesAt m' this = some es → Effect step t.attrMap es := by
  obtain ⟨t, m₁, got, rest⟩ := bind_returned done
  rcases getTable_ok got with ⟨rfl, found⟩
  refine ⟨t, found, ?_⟩
  cases search : t.simpleFind (removeSpaceEncoding name) with
  | some e =>
    simp only [search, Option.isSome_some, if_true] at rest
    cases rest
  | none =>
    simp only [search, Option.isSome_none, Bool.false_eq_true, if_false] at rest
    obtain ⟨s, m₂, first, rest₂⟩ := bind_returned rest
    rcases getTable_ok first with ⟨rfl, _⟩
    rw [modifyTable_eq] at rest₂
    cases rest₂
    intro es same
    rw [entries_pushed _ found] at same
    cases same
    exact .pushed _ checked (simpleFind_none.mp search)

theorem addContainerAlias_error {name : List Char} {src : Nat} {failure : Failure}
    (thrown : addContainerAlias this name src m = .error failure m') (error : Thrown failure) :
    m' = m := by
  rcases bind_error thrown with missing | ⟨t, m₁, got, rest⟩
  · exact absurd error (getTable_error missing).2
  · rcases getTable_ok got with ⟨rfl, found⟩
    split at rest
    · cases rest
      rfl
    · rcases bind_error rest with missing | ⟨_, m₂, first, rest₂⟩
      · exact absurd error (getTable_error missing).2
      · cases rest₂

theorem addValueAlias_ok {depth das : Nat} {name source : List Char} (step : Mutation)
    (checked : containerName step = none)
    (done : addValueAlias depth this das name source m = .ok () m') :
    ∃ t, tableAt m this = some t ∧
      ∀ es, entriesAt m' this = some es → Effect step t.attrMap es := by
  obtain ⟨found, m₁, first, rest₂⟩ := bind_returned done
  rcases reading_ok first with ⟨rfl, _⟩
  cases found with
  | none => cases rest₂
  | some found =>
    obtain ⟨t, m₃, third, rest₃⟩ := bind_returned rest₂
    rcases getTable_ok third with ⟨rfl, there⟩
    refine ⟨t, there, ?_⟩
    split at rest₃
    · cases rest₃
    · cases search : t.simpleFind (removeSpaceEncoding name) with
      | some e =>
        simp only [search, Option.isSome_some, if_true] at rest₃
        cases rest₃
      | none =>
        simp only [search, Option.isSome_none, Bool.false_eq_true, if_false] at rest₃
        rw [modifyTable_eq] at rest₃
        cases rest₃
        intro es same
        rw [entries_pushed _ there] at same
        cases same
        exact .pushed _ checked (simpleFind_none.mp search)

theorem addValueAlias_error {depth das : Nat} {name source : List Char} {failure : Failure}
    (thrown : addValueAlias depth this das name source m = .error failure m')
    (error : Thrown failure) : m' = m := by
  rcases bind_error thrown with missing | ⟨found, m₁, first, rest⟩
  · exact (reading_error missing).1
  · rcases reading_ok first with ⟨rfl, _⟩
    cases found with
    | none =>
      cases rest
      rfl
    | some found =>
      rcases bind_error rest with missing | ⟨t, m₂, second, rest₂⟩
      · exact absurd error (getTable_error missing).2
      · rcases getTable_ok second with ⟨rfl, _⟩
        split at rest₂
        · cases rest₂
          rfl
        · split at rest₂
          · cases rest₂
            rfl
          · cases rest₂

theorem delAttr_ok {depth : Nat} {name : List Char} {i : Int}
    (done : delAttr depth this name i m = .ok () m') :
    ∃ t, tableAt m this = some t ∧
      ∀ es, entriesAt m' this = some es → Effect (.delAttr name i) t.attrMap es := by
  obtain ⟨t, m₁, got, rest⟩ := bind_returned done
  rcases getTable_ok got with ⟨rfl, found⟩
  refine ⟨t, found, ?_⟩
  cases search : t.simpleFind (removeSpaceEncoding name) with
  | none =>
    simp only [search] at rest
    cases rest
    intro es same
    rw [entriesAt_eq found] at same
    cases same
    exact .same
  | some e =>
    simp only [search] at rest
    split at rest
    · obtain ⟨_, m₂, first, rest₂⟩ := bind_returned rest
      rw [modifyTable_eq] at first
      cases first
      intro es same
      have erased := (deleteEntry_frees depth e _).1 () m' rest₂ this
      rcases erased with kept | gone
      · unfold entriesAt at same
        rw [tableAt_lookup kept, tableAt_modified_same, found] at same
        cases same
        exact .erased _
      · unfold entriesAt tableAt at same
        rw [gone] at same
        cases same
    · split at rest
      · cases rest
        intro es same
        rw [entriesAt_eq found] at same
        cases same
        exact .same
      · obtain ⟨attr, m₂, first, rest₂⟩ := bind_returned rest
        obtain ⟨values, m₃, second, rest₃⟩ := bind_returned rest₂
        rcases reading_ok first with ⟨rfl, _⟩
        rcases reading_ok second with ⟨rfl, _⟩
        split at rest₃
        · obtain ⟨m₄, modified, kept⟩ := tableAt_modifyValues m₃ attr this (·.eraseIdx i.toNat)
          cases modified.symm.trans rest₃
          intro es same
          unfold entriesAt at same
          rw [kept, found] at same
          cases same
          exact .same
        · cases rest₃

theorem delAttr_error {depth : Nat} {name : List Char} {i : Int} {failure : Failure}
    (thrown : delAttr depth this name i m = .error failure m') : ¬ Thrown failure := by
  rcases bind_error thrown with missing | ⟨t, m₁, got, rest⟩
  · exact (getTable_error missing).2
  · cases search : t.simpleFind (removeSpaceEncoding name) with
    | none =>
      simp only [search] at rest
      cases rest
    | some e =>
      simp only [search] at rest
      split at rest
      · rcases bind_error rest with failed | ⟨_, m₂, first, rest₂⟩
        · cases failed
        · exact (deleteEntry_frees depth e _).2 _ _ rest₂
      · split at rest
        · cases rest
        · rcases bind_error rest with missing | ⟨_, m₂, first, rest₂⟩
          · exact demand_not_thrown (reading_error missing).2
          · rcases bind_error rest₂ with missing | ⟨_, m₃, second, rest₃⟩
            · exact demand_not_thrown (reading_error missing).2
            · split at rest₃
              · cases rest₃
              · cases rest₃
                exact id

theorem tryCatch_eq (x : Call α) (handle : Failure → Call α) (m : Memory) :
    tryCatch x handle m = match x m with
      | .ok y m' => .ok y m'
      | .error failure m' => handle failure m' := by
  change EStateM.tryCatch x handle m = _
  unfold EStateM.tryCatch
  cases x m <;> rfl

theorem appendContainer_ok {p : Nat} {name : List Char} (found : tableAt m this = some t)
    (done : appendContainer this name m = .ok p m') :
    ∃ e, name ∉ names t.attrMap ∧ e.name = removeSpaceEncoding name ∧
      entriesAt m' this = some (t.attrMap ++ [e]) := by
  obtain ⟨newAt, m₁, first, rest⟩ := bind_returned done
  obtain ⟨rfl, rfl, found₁⟩ := tableAt_allocate found first
  rw [tryCatch_eq] at rest
  split at rest
  · rename_i q m₂ added
    cases rest
    obtain ⟨t', e, found', absent, stored, pushed⟩ := appendTable_ok added
    cases found₁.symm.trans found'
    exact ⟨e, absent, stored, pushed⟩
  · rename_i failure m₂ failed
    cases failure <;> cases rest

theorem appendContainer_error {name : List Char} {failure : Failure}
    (found : tableAt m this = some t)
    (thrown : appendContainer this name m = .error failure m') (error : Thrown failure) :
    entriesAt m' this = some t.attrMap := by
  rcases bind_error thrown with failed | ⟨newAt, m₁, first, rest⟩
  · cases failed
  · obtain ⟨rfl, rfl, found₁⟩ := tableAt_allocate found first
    rw [tryCatch_eq] at rest
    split at rest
    · cases rest
    · rename_i failure' m₂ failed
      have other : this ≠ m.size := by
        intro same
        subst same
        unfold tableAt Heap.lookup Heap.read Heap.size at found
        simp at found
      cases failure' with
      | error _ _ | internalErr _ =>
        have kept := appendTable_error failed trivial
        subst kept
        cases rest
        exact entriesAt_eq ((tableAt_lookup (Heap.lookup_free_other _ other)).trans found₁)
      | streamFailure | lengthError | undefinedBehaviour | outOfFuel =>
        cases rest
        cases error

/-- A call with a check of the stored name, or with the check of the name as given. -/
theorem mutate_ok {depth : Nat} {step : Mutation} (found : tableAt m this = some t)
    (done : mutate depth this step m = .ok () m') :
    ∀ es, entriesAt m' this = some es → Effect step t.attrMap es := by
  intro es entries
  cases step with
  | appendAttr name type value =>
    obtain ⟨n, m₁, first, rest⟩ := bind_returned done
    cases rest
    obtain ⟨t', found', effect⟩ := appendValues_ok (.appendAttr name type value) rfl first
    cases found.symm.trans found'
    exact effect es entries
  | appendAttrVector name type values =>
    obtain ⟨n, m₁, first, rest⟩ := bind_returned done
    cases rest
    obtain ⟨t', found', effect⟩ :=
      appendValues_ok (.appendAttrVector name type values) rfl first
    cases found.symm.trans found'
    exact effect es entries
  | appendContainer name =>
    obtain ⟨p, m₁, first, rest⟩ := bind_returned done
    cases rest
    obtain ⟨e, absent, stored, pushed⟩ := appendContainer_ok found first
    cases entries.symm.trans pushed
    exact .container e name rfl stored absent
  | appendTable at' name =>
    obtain ⟨p, m₁, first, rest⟩ := bind_returned done
    cases rest
    obtain ⟨t', e, found', absent, stored, pushed⟩ := appendTable_ok first
    cases found.symm.trans found'
    cases entries.symm.trans pushed
    exact .container e name rfl stored absent
  | addContainerAlias name src =>
    obtain ⟨t', found', effect⟩ := addContainerAlias_ok (.addContainerAlias name src) rfl done
    cases found.symm.trans found'
    exact effect es entries
  | addValueAlias das name source =>
    obtain ⟨t', found', effect⟩ :=
      addValueAlias_ok (.addValueAlias das name source) rfl done
    cases found.symm.trans found'
    exact effect es entries
  | delAttr name i =>
    obtain ⟨t', found', effect⟩ := delAttr_ok done
    cases found.symm.trans found'
    exact effect es entries

/-- After either form of `append_container` the table ends with the decoded name. -/
theorem mutate_container {depth : Nat} {step : Mutation} {name : List Char}
    (found : tableAt m this = some t) (given : containerName step = some name)
    (done : mutate depth this step m = .ok () m') :
    ∃ e, e.name = removeSpaceEncoding name ∧ entriesAt m' this = some (t.attrMap ++ [e]) := by
  cases step with
  | appendContainer name' =>
    cases given
    obtain ⟨p, m₁, first, rest⟩ := bind_returned done
    cases rest
    obtain ⟨e, _, stored, pushed⟩ := appendContainer_ok found first
    exact ⟨e, stored, pushed⟩
  | appendTable at' name' =>
    cases given
    obtain ⟨p, m₁, first, rest⟩ := bind_returned done
    cases rest
    obtain ⟨t', e, found', _, stored, pushed⟩ := appendTable_ok first
    cases found.symm.trans found'
    exact ⟨e, stored, pushed⟩
  | appendAttr | appendAttrVector | addContainerAlias | addValueAlias | delAttr => cases given

theorem mutate_error {depth : Nat} {step : Mutation} {failure : Failure}
    (found : tableAt m this = some t) (thrown : mutate depth this step m = .error failure m')
    (error : Thrown failure) : entriesAt m' this = some t.attrMap := by
  cases step with
  | appendAttr name type value | appendAttrVector name type values =>
    rcases bind_error thrown with failed | ⟨_, _, _, rest⟩
    · rw [appendValues_error failed error]
      exact entriesAt_eq found
    · cases rest
  | appendContainer name =>
    rcases bind_error thrown with failed | ⟨_, _, _, rest⟩
    · exact appendContainer_error found failed error
    · cases rest
  | appendTable at' name =>
    rcases bind_error thrown with failed | ⟨_, _, _, rest⟩
    · rw [appendTable_error failed error]
      exact entriesAt_eq found
    · cases rest
  | addContainerAlias name src =>
    rw [addContainerAlias_error thrown error]
    exact entriesAt_eq found
  | addValueAlias das name source =>
    rw [addValueAlias_error thrown error]
    exact entriesAt_eq found
  | delAttr name i => exact absurd error (delAttr_error thrown)

/-- The check that `append_container` leaves out: no entry has the decoded name, unless one
has the name as it was given. -/
def ChecksStored (step : Mutation) (es : List Entry) : Prop :=
  ∀ name, containerName step = some name →
    removeSpaceEncoding name ∈ names es → name ∈ names es

theorem Effect.nodup {step : Mutation} {es es' : List Entry} (effect : Effect step es es')
    (checks : ChecksStored step es) (single : (names es).Nodup) : (names es').Nodup := by
  have pushed (e : Entry) (absent : e.name ∉ names es) : (names (es ++ [e])).Nodup := by
    unfold names at *
    rw [List.map_append, List.map_singleton, List.nodup_append_comm, List.singleton_append,
      List.nodup_cons]
    exact ⟨absent, single⟩
  cases effect with
  | same => exact single
  | pushed e _ absent => exact pushed e absent
  | container e name given stored absent =>
    apply pushed
    intro taken
    rw [stored] at taken
    exact absent (checks name given taken)
  | erased name => exact single.sublist (List.eraseP_sublist.map Entry.name)

/-- Among entries of different names, each is the first of its name. -/
theorem find_of_nodup {es : List Entry} (single : (names es).Nodup) {e : Entry} (mem : e ∈ es) :
    (es.find? fun e' => e'.name = e.name) = some e := by
  induction es with
  | nil => cases mem
  | cons head es ih =>
    rw [names, List.map_cons, List.nodup_cons] at single
    cases mem with
    | head => simp
    | tail _ mem =>
      have other : head.name ≠ e.name := by
        intro same
        apply single.1
        rw [same]
        exact List.mem_map_of_mem mem
      rw [List.find?_cons_of_neg (by simpa using other)]
      exact ih single.2 mem

theorem unique_iff (found : tableAt m this = some t) :
    Unique m this ↔ (names t.attrMap).Nodup := by
  constructor
  · intro unique
    exact (unique t found).1
  · intro single t' found'
    cases found.symm.trans found'
    exact ⟨single, fun e mem => find_of_nodup single mem⟩

/-- In every state of a sequence of calls the names are unique, and a call that throws
leaves the entries as they are. The sequence ends where the table is deleted. -/
def AlwaysUnique (depth this : Nat) : Memory → List Mutation → Prop
  | m, [] => Unique m this
  | m, step :: steps => Unique m this ∧ ∀ t, tableAt m this = some t →
    (∀ m', mutate depth this step m = .ok () m' → AlwaysUnique depth this m' steps) ∧
    ∀ failure m', mutate depth this step m = .error failure m' → Thrown failure →
      entriesAt m' this = some t.attrMap ∧ AlwaysUnique depth this m' steps

/-- Every call that comes to an end makes the check in the state before it. -/
def AllChecked (depth this : Nat) : Memory → List Mutation → Prop
  | _, [] => True
  | m, step :: steps => ∀ t, tableAt m this = some t →
    (∀ m', mutate depth this step m = .ok () m' →
      ChecksStored step t.attrMap ∧ AllChecked depth this m' steps) ∧
    ∀ failure m', mutate depth this step m = .error failure m' → Thrown failure →
      AllChecked depth this m' steps

theorem AlwaysUnique.now {depth : Nat} {steps : List Mutation}
    (always : AlwaysUnique depth this m steps) : Unique m this := by
  cases steps with
  | nil => exact always
  | cons _ _ => exact always.1

theorem alwaysUnique_of_unique (depth : Nat) (steps : List Mutation) (unique : Unique m this) :
    AlwaysUnique depth this m steps ↔ AllChecked depth this m steps := by
  induction steps generalizing m with
  | nil => exact iff_of_true unique trivial
  | cons step steps ih =>
    constructor
    · rintro ⟨_, later⟩ t found
      constructor
      · intro m' done
        have always := (later t found).1 m' done
        refine ⟨?_, (ih always.now).mp always⟩
        intro name given taken
        obtain ⟨e, stored, pushed⟩ := mutate_container found given done
        obtain ⟨t', found', same⟩ := Option.map_eq_some_iff.mp pushed
        have single := (unique_iff found').mp always.now
        rw [same, names, List.map_append, List.map_singleton, List.nodup_append_comm,
          List.singleton_append, List.nodup_cons, stored] at single
        exact absurd taken single.1
      · intro failure m' thrown error
        have always := ((later t found).2 failure m' thrown error).2
        exact (ih always.now).mp always
    · intro checked
      refine ⟨unique, ?_⟩
      intro t found
      have single := (unique_iff found).mp unique
      constructor
      · intro m' done
        obtain ⟨checks, rest⟩ := (checked t found).1 m' done
        refine (ih ?_).mpr rest
        intro t' found'
        have effect := mutate_ok found done t'.attrMap (entriesAt_eq found')
        exact (unique_iff found').mpr (effect.nodup checks single) t' found'
      · intro failure m' thrown error
        have kept := mutate_error found thrown error
        refine ⟨kept, (ih ?_).mpr ((checked t found).2 failure m' thrown error)⟩
        intro t' found'
        have same : t'.attrMap = t.attrMap :=
          Option.some.inj ((entriesAt_eq found').symm.trans kept)
        exact (unique_iff found').mpr (same ▸ single) t' found'

/-- From the empty table on: names are unique all the time exactly if no container is added
whose decoded name is taken while its name as given is not. -/
theorem alwaysUnique_iff (depth this : Nat) (m : Memory) (t : AttrTable)
    (found : tableAt m this = some t) (empty : t.attrMap = []) (steps : List Mutation) :
    AlwaysUnique depth this m steps ↔ AllChecked depth this m steps := by
  apply alwaysUnique_of_unique
  rw [unique_iff found, empty]
  exact List.nodup_nil

/-- A memory with nothing but an empty table. -/
def oneTable : Memory := ⟨[some (.table emptyTable)]⟩

theorem alwaysUnique_iff_oneTable :
    AlwaysUnique 2 0 oneTable [.appendAttr "a%20b".toList "Byte".toList "1",
      .appendContainer "c".toList, .appendContainer "a b".toList] := by
  apply (alwaysUnique_iff 2 0 oneTable emptyTable rfl rfl _).mpr
  intro t found
  cases found
  refine ⟨fun m' run => ⟨?_, ?_⟩, fun failure m' thrown _ => ?_⟩
  · intro name given
    cases given
  · cases run
    intro t found
    cases found
    refine ⟨fun m' run => ⟨?_, ?_⟩, fun failure m' thrown _ => ?_⟩
    · intro name given
      cases given
      decide
    · cases run
      intro t found
      cases found
      refine ⟨fun m' run => ⟨?_, trivial⟩, fun _ _ _ _ => trivial⟩
      intro name given
      cases given
      decide
    · cases thrown
  · cases thrown

/-- The second container has the name of the first. -/
theorem alwaysUnique_fails :
    ¬ AlwaysUnique 2 0 oneTable
      [.appendContainer "a b".toList, .appendContainer "a%20b".toList] := by
  intro always
  have first := (always.2 emptyTable rfl).1 _ rfl
  have second := (first.2 _ rfl).1 _ rfl
  have single := (second _ rfl).1
  revert single
  decide

end Libdap.Guarantees.AttributeNames
