import Libdap.Guarantees.AttributeNames
import Libdap.Library.Regions
import Libdap.Source.AttributeCopies

/-!
# Copies of attribute tables

A copy shares with its source what aliases point to: the table of a container alias gets
a new parent, and the values of a value alias change in both. The pointer of an attribute
of unknown type is not copied at all. Without these, the source and its copy lie in
regions of their own.
-/
namespace Libdap.Guarantees.AttributeCopies
open Libdap.Library Libdap.Source Libdap.Source.Attributes
open AttributeNames

variable {m m' m₀ : Memory} {this a b c p n depth : Nat} {t own : AttrTable} {e : Entry}
  {R : Nat → Prop}

/-- Which pointer is followed depends on the type. -/
def pointer (e : Entry) : Option Nat :=
  if e.type = .container then e.attributes else e.attr

def pointers : Cell → List Nat
  | .table t => t.attrMap.filterMap pointer
  | .values _ => []

theorem tableAt_iff : tableAt m a = some t ↔ m.lookup a = some (.table t) := by
  unfold tableAt
  constructor
  · intro found
    split at found
    · rename_i there
      cases found
      exact there
    · cases found
  · intro found
    rw [found]

theorem valuesAt_iff {values : List String} :
    valuesAt m a = some values ↔ m.lookup a = some (.values values) := by
  unfold valuesAt
  constructor
  · intro found
    split at found
    · rename_i there
      cases found
      exact there
    · cases found
  · intro found
    rw [found]

theorem pointer_inside (region : Region pointers m R) (inside : R a)
    (found : tableAt m a = some t) (mem : e ∈ t.attrMap) (points : pointer e = some p) : R p :=
  region.closed a (.table t) inside (tableAt_iff.mp found) p
    (List.mem_filterMap.mpr ⟨e, mem, points⟩)

/-- A change of a table in a region whose entries point into the region. -/
theorem modifyTable_moves (region : Region pointers m R) (inside : R a)
    {f : AttrTable → AttrTable}
    (below : ∀ t, tableAt m a = some t → ∀ e ∈ (f t).attrMap, ∀ p, pointer e = some p → R p) :
    Moves pointers R m (tableModified m a f) := by
  apply Moves.modify region inside
  intro cell found d part
  cases cell with
  | values v => cases part
  | table t =>
    obtain ⟨e, mem, points⟩ := List.mem_filterMap.mp part
    exact below t (tableAt_iff.mpr found) e mem d points

theorem modifyValues_moves (region : Region pointers m R) (inside : R a)
    (f : List String → List String) :
    ∃ m', modifyValues a f m = .ok () m' ∧ Moves pointers R m m' := by
  refine ⟨_, rfl, Moves.modify region inside ?_⟩
  intro cell found d part
  cases cell with
  | values v => cases part
  | table t => exact region.closed a (.table t) inside found d part

theorem simpleFind_mem {name : List Char} (found : t.simpleFind name = some e) :
    e ∈ t.attrMap :=
  List.mem_of_find?_eq_some found

/-- Calls that make no new cell and change none outside the region. -/
def Stays (R : Nat → Prop) (call : Call Unit) : Prop :=
  ∀ m m', Region pointers m R → call m = .ok () m' →
    Moves pointers R m m' ∧ m'.size = m.size

theorem stays_pure (R : Nat → Prop) : Stays R (pure ()) := by
  intro m m' region done
  cases done
  exact ⟨.refl region, rfl⟩

theorem Stays.bind {first rest : Call Unit} (stays : Stays R first) (stays' : Stays R rest) :
    Stays R (first >>= fun _ => rest) := by
  intro m m'' region done
  obtain ⟨_, m', before, after⟩ := bind_returned done
  obtain ⟨moves, size⟩ := stays m m' region before
  have same : ∀ c, Grown R m m' c ↔ R c := fun _ => grown_same size
  obtain ⟨moves', size'⟩ := stays' m' m'' (moves.region.congr same) after
  have grown : Grown R m m' = R := funext fun c => propext (same c)
  exact ⟨moves.trans (grown.symm ▸ moves'), size'.trans size⟩

theorem stays_forM {f : Entry → Call Unit} {es : List Entry} (each : ∀ e ∈ es, Stays R (f e)) :
    Stays R (es.forM f) := by
  induction es with
  | nil => exact stays_pure R
  | cons e es ih =>
    exact (each e List.mem_cons_self).bind (ih fun e mem => each e (List.mem_cons_of_mem _ mem))

theorem stays_free (inside : R a) : Stays R (modify fun m => m.free a) := by
  intro m m' region done
  cases done
  exact ⟨.free region inside, Heap.size_free m a⟩

/-- `delete e` stays where `e` points to. -/
theorem deleteEntry_stays (depth : Nat) (e : Entry) (inside : ∀ p, pointer e = some p → R p) :
    Stays R (deleteEntry depth e) := by
  induction depth generalizing e with
  | zero =>
    intro m m' _ done
    cases done
  | succ depth ih =>
    intro m m' region done
    simp only [deleteEntry] at done
    split at done
    · exact stays_pure R m m' region done
    · split at done
      · rename_i kind
        cases points : e.attributes with
        | none =>
          simp only [points] at done
          exact stays_pure R m m' region done
        | some at' =>
          simp only [points] at done
          have atInside : R at' := inside at' (by simp [pointer, kind, points])
          obtain ⟨t, m₁, got, rest⟩ := bind_returned done
          rcases getTable_ok got with ⟨rfl, found⟩
          refine (stays_forM ?_).bind (stays_free atInside) m₁ m' region rest
          intro e' mem
          exact ih e' fun p => pointer_inside region atInside found mem
      · rename_i kind
        cases points : e.attr with
        | none =>
          simp only [points] at done
          exact stays_pure R m m' region done
        | some attr =>
          simp only [points] at done
          have attrInside : R attr := inside attr (by simp [pointer, kind, points])
          obtain ⟨_, m₁, got, rest⟩ := bind_returned done
          rcases reading_ok got with ⟨rfl, _⟩
          exact stays_free attrInside m₁ m' region rest

/-- A new attribute of type `Container` has no table. -/
theorem pointer_new {lname : List Char} {type : AttrType} {attr : Nat}
    (points : pointer { newEntry lname type with attr := some attr } = some p) : p = attr := by
  unfold pointer at points
  split at points
  · cases points
  · cases points
    rfl

/-- `append_attr` adds to a vector in the region, or a new one to the table. -/
theorem appendValues_moves {name type : List Char} {values : List String} {k : Nat}
    (region : Region pointers m R) (inside : R this)
    (done : appendValues this name type values m = .ok k m') : Moves pointers R m m' := by
  obtain ⟨t, found, ⟨e, attr, search, -, kind, hasAttr, modified⟩ | ⟨-, found₂, rfl⟩⟩ :=
    appendValues_cases done
  · have points : pointer e = some attr := by simp [pointer, kind, hasAttr]
    have attrInside := pointer_inside region inside found (simpleFind_mem search) points
    obtain ⟨m₅, modified', moves⟩ := modifyValues_moves region attrInside (· ++ values)
    cases modified'.symm.trans modified
    exact moves
  · have made : Moves pointers R m (m.alloc (some (.values values))) :=
      .alloc region fun _ part => by cases part
    refine made.trans (modifyTable_moves made.region (.inl inside) ?_)
    intro t' found' e' mem p points
    cases found₂.symm.trans found'
    cases List.mem_append.mp mem with
    | inl old => exact .inl (pointer_inside region inside found old points)
    | inr new =>
      cases List.mem_singleton.mp new
      cases pointer_new points
      exact .inr (by simp)

theorem delAttr_moves {name : List Char} {i : Int} (region : Region pointers m R)
    (inside : R this) (done : delAttr depth this name i m = .ok () m') :
    Moves pointers R m m' := by
  obtain ⟨t, m₁, got, rest⟩ := bind_returned done
  rcases getTable_ok got with ⟨rfl, found⟩
  cases search : t.simpleFind (removeSpaceEncoding name) with
  | none =>
    simp only [search] at rest
    cases rest
    exact .refl region
  | some e =>
    have points : ∀ p, pointer e = some p → R p :=
      fun p => pointer_inside region inside found (simpleFind_mem search)
    simp only [search] at rest
    split at rest
    · have erases : Stays R (modifyTable this fun t =>
          { t with attrMap := t.attrMap.eraseP fun e => e.name = removeSpaceEncoding name }) := by
        intro m m' region done
        rw [modifyTable_eq] at done
        cases done
        refine ⟨modifyTable_moves region inside ?_, Heap.size_modify m this _⟩
        intro t found e mem p
        exact pointer_inside region inside found (List.mem_of_mem_eraseP mem)
      exact (erases.bind (deleteEntry_stays depth e points) m₁ m' region rest).1
    · split at rest
      · cases rest
        exact .refl region
      · rename_i kind
        obtain ⟨attr, m₂, first, rest₂⟩ := bind_returned rest
        obtain ⟨values, m₃, second, rest₃⟩ := bind_returned rest₂
        rcases reading_ok first with ⟨rfl, hasAttr⟩
        rcases reading_ok second with ⟨rfl, _⟩
        split at rest₃
        · have attrInside : R attr := points attr (by simp [pointer, kind, demand_ok hasAttr])
          obtain ⟨m₄, modified, moves⟩ := modifyValues_moves region attrInside (·.eraseIdx i.toNat)
          cases modified.symm.trans rest₃
          exact moves
        · cases rest₃

/-- A cell without the parent, which is not printed. -/
def printed : Cell → Cell
  | .table t => .table { t with parent := none }
  | .values v => .values v

/-- Two memories hold the same at an address, parents apart. -/
def PrintsAlike (m m' : Memory) (c : Nat) : Prop :=
  (m'.lookup c).map printed = (m.lookup c).map printed

theorem printsAlike_of_eq (same : m'.lookup c = m.lookup c) : PrintsAlike m m' c :=
  congrArg (Option.map printed) same

theorem PrintsAlike.entries (alike : PrintsAlike m m' c) : entriesAt m' c = entriesAt m c := by
  unfold PrintsAlike at alike
  unfold entriesAt tableAt
  generalize m.lookup c = old at alike ⊢
  generalize m'.lookup c = new at alike ⊢
  rcases old with _ | ⟨_ | _⟩ <;> rcases new with _ | ⟨_ | _⟩ <;> simp_all [printed]

theorem PrintsAlike.values (alike : PrintsAlike m m' c) : valuesAt m' c = valuesAt m c := by
  unfold PrintsAlike at alike
  unfold valuesAt
  generalize m.lookup c = old at alike ⊢
  generalize m'.lookup c = new at alike ⊢
  rcases old with _ | ⟨_ | _⟩ <;> rcases new with _ | ⟨_ | _⟩ <;> simp_all [printed]

theorem mapM_agree {α β γ : Type} {f : α → Except Failure γ} {g : β → Except Failure γ}
    {xs : List α} {ys : List β} (agree : List.Forall₂ (fun x y => f x = g y) xs ys) :
    xs.mapM f = ys.mapM g := by
  induction agree with
  | nil => rfl
  | cons head _ ih => rw [List.mapM_cons, List.mapM_cons, head, ih]

/-- An entry is printed from the cell it points to. -/
theorem printEntry_agree {dereference : Bool} {pad : List Char} {e e' : Entry}
    {below below' : Nat → List Char → Except Failure (List Char)}
    (name : e'.name = e.name) (type : e'.type = e.type) (isAlias : e'.isAlias = e.isAlias)
    (aliasedTo : e'.aliasedTo = e.aliasedTo)
    (tables : e.type = .container → ∀ pad,
      (demand e'.attributes >>= fun p => below' p pad) =
        demand e.attributes >>= fun p => below p pad)
    (values : e.type ≠ .container →
      (demand e'.attr >>= fun q => demand (valuesAt m' q)) =
        demand e.attr >>= fun q => demand (valuesAt m q)) :
    printEntry m' dereference below' pad e' = printEntry m dereference below pad e := by
  unfold printEntry simplePrint
  rw [name, type, isAlias, aliasedTo]
  split
  · rfl
  · split
    · rename_i kind
      rw [← bind_assoc, tables kind, bind_assoc]
    · rename_i kind
      rw [← bind_assoc, values kind, bind_assoc]

/-- What is printed of an entry lies in the region it points into. -/
theorem printEntry_congr {dereference : Bool} {pad : List Char}
    {below below' : Nat → List Char → Except Failure (List Char)}
    (alike : ∀ c, R c → PrintsAlike m m' c)
    (tables : ∀ p pad, R p → below' p pad = below p pad)
    (inside : ∀ p, pointer e = some p → R p) :
    printEntry m' dereference below' pad e = printEntry m dereference below pad e := by
  refine printEntry_agree rfl rfl rfl rfl ?_ ?_
  · intro kind pad
    cases points : e.attributes with
    | none => rfl
    | some p => exact tables p pad (inside p (by simp [pointer, kind, points]))
  · intro kind
    cases points : e.attr with
    | none => rfl
    | some q =>
      exact congrArg demand (alike q (inside q (by simp [pointer, kind, points]))).values

/-- What is printed lies in the region of the table. -/
theorem printTable_congr (region : Region pointers m R) (alike : ∀ c, R c → PrintsAlike m m' c)
    (dereference : Bool) (fuel : Nat) (pad : List Char) (inside : R a) :
    printTable m' dereference fuel a pad = printTable m dereference fuel a pad := by
  induction fuel generalizing a pad with
  | zero => rfl
  | succ fuel ih =>
    have entries := (alike a inside).entries
    unfold entriesAt at entries
    unfold printTable
    cases found : tableAt m a with
    | none =>
      rw [found, Option.map_none, Option.map_eq_none_iff] at entries
      rw [entries]
      rfl
    | some t =>
      rw [found] at entries
      obtain ⟨t', found', same⟩ := Option.map_eq_some_iff.mp entries
      rw [found', demand, demand]
      simp only [bind, Except.bind, same]
      have each : ∀ e ∈ t.attrMap,
          printEntry m' dereference (printTable m' dereference fuel) pad e =
            printEntry m dereference (printTable m dereference fuel) pad e := by
        intro e mem
        exact printEntry_congr alike (fun p pad inside => ih pad inside)
          fun p => pointer_inside region inside found mem
      rw [mapM_agree (List.forall₂_same.mpr each)]

/-- The tables that a table holds, itself among them. -/
inductive Contains (m : Memory) (a : Nat) : Nat → Prop where
  | root : Contains m a a
  | container {b p : Nat} {t : AttrTable} {e : Entry} (holder : Contains m a b)
    (found : tableAt m b = some t) (mem : e ∈ t.attrMap) (own : e.isAlias = false)
    (kind : e.type = .container) (points : e.attributes = some p) : Contains m a p

/-- No entry is an alias or of unknown type. -/
def Plain (m : Memory) (a : Nat) : Prop :=
  ∀ b t e, Contains m a b → tableAt m b = some t → e ∈ t.attrMap →
    e.isAlias = false ∧ e.type ≠ .unknown

/-- What an entry owns is there. -/
def Stands (m : Memory) (below : Nat → Prop) (e : Entry) : Prop :=
  e.isAlias = false → ∃ p, pointer e = some p ∧
    if e.type = .container then below p else ∃ values, valuesAt m p = some values

/-- What a table owns is there, `n` levels deep at most. -/
def Tree (m : Memory) : Nat → Nat → Prop
  | 0, _ => False
  | n + 1, a => ∃ t, tableAt m a = some t ∧ ∀ e ∈ t.attrMap, Stands m (Tree m n) e

theorem Contains.under (found : tableAt m a = some t) (mem : e ∈ t.attrMap)
    (own : e.isAlias = false) (kind : e.type = .container) (points : e.attributes = some p)
    (holds : Contains m p b) : Contains m a b := by
  induction holds with
  | root => exact .container .root found mem own kind points
  | container _ found mem own kind points ih => exact .container ih found mem own kind points

theorem Plain.below (plain : Plain m a) (found : tableAt m a = some t) (mem : e ∈ t.attrMap)
    (own : e.isAlias = false) (kind : e.type = .container) (points : e.attributes = some p) :
    Plain m p :=
  fun b t' e' holds => plain b t' e' (holds.under found mem own kind points)

theorem pointer_container (kind : e.type = .container) : pointer e = e.attributes := by
  simp [pointer, kind]

theorem pointer_values (kind : e.type ≠ .container) : pointer e = e.attr := by
  simp [pointer, kind]

theorem linked_pointer (found : tableAt m a = some t) (mem : e ∈ t.attrMap)
    (points : pointer e = some p) (further : Linked pointers m p c) : Linked pointers m a c :=
  .head ⟨.table t, tableAt_iff.mp found, List.mem_filterMap.mpr ⟨e, mem, points⟩⟩ further

/-- All that a plain table reaches is there. -/
theorem Tree.linked (tree : Tree m n a) (plain : Plain m a) (reached : Linked pointers m a c) :
    c < m.size := by
  induction n generalizing a with
  | zero => exact tree.elim
  | succ n ih =>
    obtain ⟨t, found, entries⟩ := tree
    cases reached.cases_head with
    | inl same =>
      subst same
      exact Heap.lt_of_lookup (tableAt_iff.mp found)
    | inr step =>
      obtain ⟨p, ⟨cell, there, part⟩, further⟩ := step
      cases (tableAt_iff.mp found).symm.trans there
      obtain ⟨e, mem, points⟩ := List.mem_filterMap.mp part
      obtain ⟨own, known⟩ := plain a t e .root found mem
      obtain ⟨q, points', whole⟩ := entries e mem own
      cases points.symm.trans points'
      split at whole
      · rename_i kind
        rw [pointer_container kind] at points
        exact ih whole (plain.below found mem own kind points) further
      · obtain ⟨values, there'⟩ := whole
        cases further.cases_head with
        | inl same =>
          subst same
          exact Heap.lt_of_lookup (valuesAt_iff.mp there')
        | inr step =>
          obtain ⟨d, ⟨cell, at_p, part⟩, _⟩ := step
          cases (valuesAt_iff.mp there').symm.trans at_p
          cases part

theorem Tree.region (tree : Tree m n a) (plain : Plain m a) :
    Region pointers m (Linked pointers m a) :=
  .of_linked fun _ => tree.linked plain

/-- What `clone` is to do with the table at `a`, whose tree is as it was in `m₀`. -/
def Clones (m₀ : Memory) (clone : Nat → Nat → Call Unit) (a : Nat) : Prop :=
  ∀ m this own, m₀.size ≤ m.size →
    (∀ c, Linked pointers m₀ a c → m.lookup c = m₀.lookup c) → ¬ Linked pointers m₀ a this →
    tableAt m this = some own → own.attrMap = [] → ∃ m' own', clone this a m = .ok () m' ∧ Moves pointers (· = this) m m' ∧
      tableAt m' this = some own' ∧
      ∀ dereference fuel pad,
        printTable m' dereference fuel this pad = printTable m₀ dereference fuel a pad

/-- What the copy of an entry is like: all it points to is new. -/
structure EntryCloned (m₀ : Memory) (e : Entry) (m : Memory) (e' : Entry) (m' : Memory) :
    Prop where
  moves : Moves pointers (fun _ => False) m m'
  fresh : ∀ p, pointer e' = some p → m.size ≤ p ∧ p < m'.size
  type : e'.type = e.type
  table : e.type = .container → ∃ p own, e'.attributes = some p ∧ tableAt m' p = some own
  prints : ∀ dereference fuel pad,
    printEntry m' dereference (printTable m' dereference fuel) pad e' =
      printEntry m₀ dereference (printTable m₀ dereference fuel) pad e

theorem reading_demand {α : Type} {o : Memory → Option α} {x : α} (found : o m = some x) :
    reading (fun m => demand (o m)) m = .ok x m := by
  simp [reading, found, demand]

theorem getTable_eq (found : tableAt m a = some t) : getTable a m = .ok t m :=
  reading_demand found

theorem not_false_region (m : Memory) : Region pointers m fun _ => False :=
  ⟨fun _ inside => inside.elim, fun _ _ inside => inside.elim⟩

/-- The memory that `clone` of a new table starts from. -/
def withTable (m : Memory) : Memory := m.alloc (some (.table emptyTable))

theorem withTable_moves (m : Memory) : Moves pointers (fun _ => False) m (withTable m) :=
  .alloc (not_false_region m) fun _ part => by cases part

theorem grown_withTable (m : Memory) :
    Grown (fun _ => False) m (withTable m) = (· = m.size) := by
  funext c
  unfold Grown withTable
  rw [Heap.size_alloc, false_or, eq_iff_iff]
  omega

theorem newCopy_ok {clone : Nat → Nat → Call Unit}
    (done : clone m.size p (withTable m) = .ok () m') : newCopy clone p m = .ok m.size m' := by
  have start : allocate (.table emptyTable) m = .ok m.size (withTable m) := rfl
  exact (call_ok start).trans ((call_ok done).trans rfl)

/-- A new table that is cloned lies in new cells. -/
theorem newCopy_clones {clone : Nat → Nat → Call Unit} (grows : m₀.size ≤ m.size)
    (sees : ∀ c, Linked pointers m₀ p c → m.lookup c = m₀.lookup c)
    (old : ∀ c, Linked pointers m₀ p c → c < m₀.size) (clones : Clones m₀ clone p) :
    ∃ m' own', newCopy clone p m = .ok m.size m' ∧ Moves pointers (fun _ => False) m m' ∧
      m.size < m'.size ∧ tableAt m' m.size = some own' ∧
      ∀ dereference fuel pad,
        printTable m' dereference fuel m.size pad = printTable m₀ dereference fuel p pad := by
  have made := withTable_moves m
  obtain ⟨m', own', done, moves, there, prints⟩ := clones (withTable m) m.size emptyTable
    (Nat.le_trans grows made.confined.grows)
    (fun c below =>
      (made.confined.kept c (Nat.lt_of_lt_of_le (old c below) grows) id).trans (sees c below))
    (fun below => absurd (Nat.lt_of_lt_of_le (old _ below) grows) (Nat.lt_irrefl _))
    (tableAt_iff.mpr (Heap.lookup_alloc_new m _)) rfl
  refine ⟨m', own', newCopy_ok done, made.trans (grown_withTable m ▸ moves), ?_, there, prints⟩
  exact Heap.lt_of_lookup (tableAt_iff.mp there)

theorem cloneEntry_container {garbage : Option Nat} {clone : Nat → Nat → Call Unit}
    (own : e.isAlias = false) (kind : e.type = .container) (points : e.attributes = some p)
    (grows : m₀.size ≤ m.size) (sees : ∀ c, Linked pointers m₀ p c → m.lookup c = m₀.lookup c)
    (old : ∀ c, Linked pointers m₀ p c → c < m₀.size) (clones : Clones m₀ clone p) :
    ∃ e' m', cloneEntry garbage clone e m = .ok e' m' ∧ EntryCloned m₀ e m e' m' := by
  obtain ⟨m', own', done, moves, new, there, prints⟩ := newCopy_clones grows sees old clones
  refine ⟨{ e with attributes := some m.size, attr := garbage }, m', ?_, moves, ?_, rfl, ?_, ?_⟩
  · unfold cloneEntry
    simp only [kind, own, Bool.false_eq_true, if_false]
    exact (call_ok (reading_demand points)).trans ((call_ok done).trans rfl)
  · intro q target
    rw [pointer_container (by exact kind)] at target
    cases target
    exact ⟨Nat.le_refl _, new⟩
  · intro _
    exact ⟨m.size, own', rfl, there⟩
  · intro dereference fuel pad
    refine printEntry_agree rfl rfl rfl rfl ?_ ?_
    · intro _ pad
      rw [points]
      exact prints dereference fuel pad
    · intro other
      exact absurd kind other

theorem cloneEntry_values {garbage : Option Nat} {clone : Nat → Nat → Call Unit}
    {values : List String} (own : e.isAlias = false) (kind : e.type ≠ .container)
    (known : e.type ≠ .unknown) (points : e.attr = some p) (found : valuesAt m p = some values)
    (same : valuesAt m₀ p = some values) :
    ∃ e' m', cloneEntry garbage clone e m = .ok e' m' ∧ EntryCloned m₀ e m e' m' := by
  have moves : Moves pointers (fun _ => False) m (m.alloc (some (.values values))) :=
    .alloc (not_false_region m) fun _ part => by cases part
  refine ⟨{ e with attributes := garbage, attr := some m.size }, _, ?_, moves, ?_, rfl, ?_, ?_⟩
  · simp only [cloneEntry, own, Bool.false_eq_true, if_false]
    apply (call_ok (reading_demand points)).trans
    have read : reading (fun m => demand (valuesAt m p)) m = .ok values m :=
      reading_demand found
    exact (call_ok read).trans ((call_ok rfl).trans rfl)
  · intro q target
    rw [pointer_values (by exact kind)] at target
    cases target
    exact ⟨Nat.le_refl _, by simp⟩
  · intro container
    exact absurd container kind
  · intro dereference fuel pad
    refine printEntry_agree rfl rfl rfl rfl ?_ ?_
    · intro container
      exact absurd container kind
    · intro _
      rw [points]
      change demand (valuesAt _ m.size) = demand (valuesAt m₀ p)
      rw [same, valuesAt_iff.mpr (Heap.lookup_alloc_new m _)]

/-- The cells that were not there in the first memory. -/
def New (m m' : Memory) (c : Nat) : Prop := m.size ≤ c ∧ c < m'.size

theorem grown_false (m m' : Memory) : Grown (fun _ => False) m m' = New m m' := by
  funext c
  simp [Grown, New]

/-- What turns of the loop of `clone` add to `this`, which is older than all they make. -/
structure Added (m₀ : Memory) (this : Nat) (es : List Entry) (m : Memory) (es' : List Entry)
    (m' : Memory) : Prop where
  grows : m.size ≤ m'.size
  kept : ∀ c < m.size, c ≠ this → m'.lookup c = m.lookup c
  region : Region pointers m' (New m m')
  fresh : ∀ e ∈ es', ∀ p, pointer e = some p → New m m' p
  prints : ∀ dereference fuel pad, List.Forall₂ (fun e' e =>
    printEntry m' dereference (printTable m' dereference fuel) pad e' =
      printEntry m₀ dereference (printTable m₀ dereference fuel) pad e) es' es

theorem Added.nil (m₀ : Memory) (this : Nat) (m : Memory) : Added m₀ this [] m [] m where
  grows := Nat.le_refl _
  kept := fun _ _ _ => rfl
  region := grown_false m m ▸ (Moves.refl (not_false_region m)).region
  fresh := by simp
  prints := fun _ _ _ => .nil

/-- What was added first is printed as before: it lies in cells that no later turn changes. -/
theorem Added.append {es fs es' fs' : List Entry} {m'' : Memory} (old : this < m.size)
    (first : Added m₀ this es m es' m') (second : Added m₀ this fs m' fs' m'') :
    Added m₀ this (es ++ fs) m (es' ++ fs') m'' where
  grows := Nat.le_trans first.grows second.grows
  kept := by
    intro c before other
    rw [second.kept c (Nat.lt_of_lt_of_le before first.grows) other, first.kept c before other]
  region := by
    constructor
    · intro c mem
      exact mem.2
    · intro c x mem found d part
      by_cases early : c < m'.size
      · have other : c ≠ this := Nat.ne_of_gt (Nat.lt_of_lt_of_le old mem.1)
        rw [second.kept c early other] at found
        have inside := first.region.closed c x ⟨mem.1, early⟩ found d part
        exact ⟨inside.1, Nat.lt_of_lt_of_le inside.2 second.grows⟩
      · have inside := second.region.closed c x ⟨Nat.le_of_not_lt early, mem.2⟩ found d part
        exact ⟨Nat.le_trans first.grows inside.1, inside.2⟩
  fresh := by
    intro e mem p points
    cases List.mem_append.mp mem with
    | inl early =>
      have inside := first.fresh e early p points
      exact ⟨inside.1, Nat.lt_of_lt_of_le inside.2 second.grows⟩
    | inr late =>
      have inside := second.fresh e late p points
      exact ⟨Nat.le_trans first.grows inside.1, inside.2⟩
  prints := by
    intro dereference fuel pad
    refine List.rel_append ?_ (second.prints dereference fuel pad)
    have alike : ∀ c, New m m' c → PrintsAlike m' m'' c := by
      intro c inside
      exact printsAlike_of_eq
        (second.kept c inside.2 (Nat.ne_of_gt (Nat.lt_of_lt_of_le old inside.1)))
    have each : ∀ e' ∈ es',
        printEntry m'' dereference (printTable m'' dereference fuel) pad e' =
          printEntry m' dereference (printTable m' dereference fuel) pad e' := by
      intro e' mem
      exact printEntry_congr alike
        (fun p pad inside => printTable_congr first.region alike dereference fuel pad inside)
        (first.fresh e' mem)
    have before := first.prints dereference fuel pad
    rw [List.forall₂_iff_get] at before ⊢
    refine ⟨before.1, ?_⟩
    intro i lt lt'
    rw [← before.2 i lt lt']
    exact each _ (List.get_mem es' ⟨i, lt⟩)

theorem tableModified_confined (m : Memory) (a : Nat) (f : AttrTable → AttrTable) :
    Confined (· = a) m (tableModified m a f) where
  grows := Nat.le_of_eq (Heap.size_modify m a _).symm
  kept := fun _ _ other => Heap.lookup_modify_other m other _

theorem setParent_alike (m : Memory) (p this c : Nat) :
    PrintsAlike m (tableModified m p (setParent this)) c := by
  by_cases same : c = p
  · subst same
    unfold PrintsAlike tableModified
    rw [Heap.lookup_modify_same]
    cases m.lookup c with
    | none => rfl
    | some cell => cases cell <;> rfl
  · exact printsAlike_of_eq (Heap.lookup_modify_other m same _)

/-- A new parent keeps a region. -/
theorem setParent_region (region : Region pointers m R) (inside : R p) :
    Region pointers (tableModified m p (setParent this)) R := by
  refine (modifyTable_moves region inside ?_).region.congr
    fun _ => grown_same (Heap.size_modify m p _)
  intro t found e mem q
  exact pointer_inside region inside found mem

/-- Where an entry is cloned, the turn adds the copy. -/
theorem cloneTurn_added {garbage : Option Nat} {clone : Nat → Nat → Call Unit}
    {e' : Entry} {m₁ : Memory} (found : tableAt m this = some own)
    (cloned : cloneEntry garbage clone e m = .ok e' m₁) (copy : EntryCloned m₀ e m e' m₁) :
    ∃ m', cloneTurn garbage clone this e m = .ok () m' ∧
      tableAt m' this = some (pushEntry e' own) ∧ Added m₀ this [e] m [e'] m' := by
  have old : this < m.size := Heap.lt_of_lookup (tableAt_iff.mp found)
  have other : ∀ c, New m m₁ c → c ≠ this :=
    fun c new => Nat.ne_of_gt (Nat.lt_of_lt_of_le old new.1)
  have found₁ : tableAt m₁ this = some own :=
    (tableAt_lookup (copy.moves.confined.kept this old id)).trans found
  have region₁ : Region pointers m₁ (New m m₁) := grown_false m m₁ ▸ copy.moves.region
  generalize pushed : tableModified m₁ this (pushEntry e') = m₂
  have confined : Confined (· = this) m₁ m₂ := pushed ▸ tableModified_confined m₁ this _
  have size₂ : m₂.size = m₁.size := pushed ▸ Heap.size_modify m₁ this _
  have found₂ : tableAt m₂ this = some (pushEntry e' own) := by
    rw [← pushed, tableAt_modified_same, found₁]
    rfl
  have region₂ : Region pointers m₂ (New m m₁) := region₁.frame confined other
  have same₂ : ∀ c, New m m₁ c → m₂.lookup c = m₁.lookup c :=
    fun c new => region₁.lookup_same confined other new
  -- What follows the push only sets the parent of a new table.
  have added : ∀ m', m'.size = m₁.size → Region pointers m' (New m m₁) →
      (∀ c < m.size, m'.lookup c = m₂.lookup c) →
      (∀ c, New m m₁ c → PrintsAlike m₂ m' c) → Added m₀ this [e] m [e'] m' := by
    intro m' size region kept alike
    have whole : New m m' = New m m₁ := by
      unfold New
      rw [size]
    have alike₁ : ∀ c, New m m₁ c → PrintsAlike m₁ m' c :=
      fun c new => (alike c new).trans (printsAlike_of_eq (same₂ c new))
    refine ⟨size ▸ copy.moves.confined.grows, ?_, whole ▸ region, ?_, ?_⟩
    · intro c before apart
      rw [kept c before, confined.kept c (Nat.lt_of_lt_of_le before copy.moves.confined.grows)
        apart, copy.moves.confined.kept c before id]
    · intro e mem p points
      cases List.mem_singleton.mp mem
      exact whole ▸ copy.fresh p points
    · intro dereference fuel pad
      refine .cons ?_ .nil
      rw [← copy.prints dereference fuel pad]
      exact printEntry_congr alike₁
        (fun p pad inside => printTable_congr region₁ alike₁ dereference fuel pad inside)
        copy.fresh
  by_cases kind : e.type = .container
  · obtain ⟨p, below, points, there⟩ := copy.table kind
    have new : New m m₁ p :=
      copy.fresh p ((pointer_container (copy.type.trans kind)).trans points)
    have there₂ : tableAt m₂ p = some below := (tableAt_lookup (same₂ p new)).trans there
    refine ⟨tableModified m₂ p (setParent this), ?_, ?_, ?_⟩
    · refine (call_ok cloned).trans ((call_ok (modifyTable_eq this _ m₁)).trans ?_)
      rw [pushed, if_pos (copy.type.trans kind)]
      exact (call_ok (reading_demand points)).trans ((call_ok (getTable_eq there₂)).trans rfl)
    · rw [tableAt_modified_other (other p new).symm]
      exact found₂
    · refine added _ ((Heap.size_modify m₂ p _).trans size₂) (setParent_region region₂ new) ?_
        fun c _ => setParent_alike m₂ p this c
      intro c before
      exact Heap.lookup_modify_other m₂ (Nat.ne_of_lt (Nat.lt_of_lt_of_le before new.1)) _
  · refine ⟨m₂, ?_, found₂, added m₂ size₂ region₂ (fun _ _ => rfl) fun _ _ => rfl⟩
    refine (call_ok cloned).trans ((call_ok (modifyTable_eq this _ m₁)).trans ?_)
    rw [pushed, if_neg (fun container => kind (copy.type.symm.trans container))]
    rfl

/-- What an entry of the table at `a` needs for its turn. -/
structure Cloneable (m₀ : Memory) (clone : Nat → Nat → Call Unit) (a : Nat) (e : Entry) :
    Prop where
  own : e.isAlias = false
  known : e.type ≠ .unknown
  target : ∃ p, pointer e = some p ∧ Linked pointers m₀ a p ∧
    if e.type = .container then Clones m₀ clone p else ∃ values, valuesAt m₀ p = some values

theorem cloneEntry_cloneable (garbage : Option Nat) {clone : Nat → Nat → Call Unit}
    (old : ∀ c, Linked pointers m₀ a c → c < m₀.size) (able : Cloneable m₀ clone a e)
    (grows : m₀.size ≤ m.size)
    (sees : ∀ c, Linked pointers m₀ a c → m.lookup c = m₀.lookup c) :
    ∃ e' m', cloneEntry garbage clone e m = .ok e' m' ∧ EntryCloned m₀ e m e' m' := by
  obtain ⟨p, points, linked, target⟩ := able.target
  split at target
  · rename_i kind
    rw [pointer_container kind] at points
    exact cloneEntry_container able.own kind points grows
      (fun c below => sees c (linked.trans below)) (fun c below => old c (linked.trans below))
      target
  · rename_i kind
    rw [pointer_values kind] at points
    obtain ⟨values, found⟩ := target
    refine cloneEntry_values able.own kind able.known points ?_ found
    rw [valuesAt_iff, sees p linked]
    exact valuesAt_iff.mp found

theorem turns_added (garbage : Option Nat) {clone : Nat → Nat → Call Unit} {es : List Entry}
    (old : ∀ c, Linked pointers m₀ a c → c < m₀.size) (apart : ¬ Linked pointers m₀ a this)
    (able : ∀ e ∈ es, Cloneable m₀ clone a e) (grows : m₀.size ≤ m.size)
    (sees : ∀ c, Linked pointers m₀ a c → m.lookup c = m₀.lookup c)
    (found : tableAt m this = some own) :
    ∃ es' m', es.forM (cloneTurn garbage clone this) m = .ok () m' ∧
      tableAt m' this = some { own with attrMap := own.attrMap ++ es' } ∧
      Added m₀ this es m es' m' := by
  induction es generalizing m own with
  | nil => exact ⟨[], m, rfl, by simpa using found, .nil m₀ this m⟩
  | cons e es ih =>
    obtain ⟨e', m₁, cloned, copy⟩ := cloneEntry_cloneable garbage old
      (able e List.mem_cons_self) grows sees
    obtain ⟨m₂, turn, found₂, added⟩ := cloneTurn_added found cloned copy
    have sees₂ : ∀ c, Linked pointers m₀ a c → m₂.lookup c = m₀.lookup c := by
      intro c below
      have other : c ≠ this := fun same => apart (same ▸ below)
      exact (added.kept c (Nat.lt_of_lt_of_le (old c below) grows) other).trans (sees c below)
    obtain ⟨es', m₃, rest, found₃, added'⟩ :=
      ih (fun e mem => able e (List.mem_cons_of_mem _ mem))
        (Nat.le_trans grows added.grows) sees₂ found₂
    refine ⟨e' :: es', m₃, (call_ok turn).trans rest, ?_, ?_⟩
    · rw [found₃]
      simp [pushEntry]
    · exact added.append (Heap.lt_of_lookup (tableAt_iff.mp found)) added'

/-- A plain tree is cloned into cells of the copy's own, and prints as its source. -/
theorem cloneTable_clones (garbage : Option Nat) (tree : Tree m₀ n a) (plain : Plain m₀ a) :
    Clones m₀ (cloneTable garbage n) a := by
  induction n generalizing a with
  | zero => exact tree.elim
  | succ n ih =>
    intro m this own grows sees apart found empty
    obtain ⟨t, source, entries⟩ := id tree
    have old : ∀ c, Linked pointers m₀ a c → c < m₀.size := fun c => tree.linked plain
    have able : ∀ e ∈ t.attrMap, Cloneable m₀ (cloneTable garbage n) a e := by
      intro e mem
      obtain ⟨isOwn, known⟩ := plain a t e .root source mem
      obtain ⟨p, points, target⟩ := entries e mem isOwn
      refine ⟨isOwn, known, p, points, linked_pointer source mem points .refl, ?_⟩
      split at target
      · rename_i kind
        rw [if_pos kind]
        rw [pointer_container kind] at points
        exact ih target (plain.below source mem isOwn kind points)
      · rename_i kind
        rw [if_neg kind]
        exact target
    have other : a ≠ this := fun same => apart (same ▸ .refl)
    have head : tableAt (tableModified m this (cloneHead t)) this = some (cloneHead t own) := by
      rw [tableAt_modified_same, found]
      rfl
    have confined := tableModified_confined m this (cloneHead t)
    have sees₁ : ∀ c, Linked pointers m₀ a c →
        (tableModified m this (cloneHead t)).lookup c = m₀.lookup c := by
      intro c below
      have notThis : c ≠ this := fun same => apart (same ▸ below)
      exact (Heap.lookup_modify_other m notThis _).trans (sees c below)
    obtain ⟨es', m', loop, found', added⟩ := turns_added garbage old apart able
      (Nat.le_trans grows confined.grows) sees₁ head
    have attrMap : (cloneHead t own).attrMap ++ es' = es' := by
      simp [cloneHead, empty]
    have size : (tableModified m this (cloneHead t)).size = m.size := Heap.size_modify m this _
    have new : New (tableModified m this (cloneHead t)) m' = New m m' := by
      unfold New
      rw [size]
    refine ⟨m', _, ?_, ⟨?_, ?_⟩, found', ?_⟩
    · have atSource : tableAt m a = some t := by
        rw [tableAt_iff, sees a .refl]
        exact tableAt_iff.mp source
      exact (call_ok (getTable_eq atSource)).trans
        ((call_ok (modifyTable_eq this _ m)).trans loop)
    · refine confined.trans ⟨added.grows, ?_⟩
      intro c before outside
      exact added.kept c before fun same => outside (.inl same)
    · constructor
      · intro c mem
        cases mem with
        | inl same =>
          subst same
          exact Heap.lt_of_lookup (tableAt_iff.mp found')
        | inr fresh => exact fresh.2
      · intro c x mem there d part
        right
        change New m m' d
        rw [← new]
        cases mem with
        | inl same =>
          subst same
          cases (tableAt_iff.mp found').symm.trans there
          rw [attrMap] at part
          obtain ⟨e', mem, points⟩ := List.mem_filterMap.mp part
          exact added.fresh e' mem d points
        | inr fresh =>
          have inNew : New m m' c := fresh
          exact added.region.closed c x (new ▸ inNew) there d part
    · intro dereference fuel pad
      cases fuel with
      | zero => rfl
      | succ fuel =>
        unfold printTable
        rw [found', source, demand, demand]
        simp only [bind, Except.bind, attrMap]
        rw [mapM_agree (added.prints dereference fuel pad)]

/-- A table and all that its destructor deletes. -/
def heldBy (below : Nat → List Nat) (e : Entry) : List Nat :=
  if e.isAlias then []
  else (pointer e).toList.flatMap fun p => if e.type = .container then below p else [p]

def held (m : Memory) : Nat → Nat → List Nat
  | 0, _ => []
  | n + 1, a => a :: ((tableAt m a).toList.flatMap AttrTable.attrMap).flatMap (heldBy (held m n))

theorem held_succ (found : tableAt m a = some t) :
    held m (n + 1) a = a :: t.attrMap.flatMap (heldBy (held m n)) := by
  simp [held, found]

theorem heldBy_container {below : Nat → List Nat} (own : e.isAlias = false)
    (kind : e.type = .container) (points : pointer e = some p) : heldBy below e = below p := by
  simp [heldBy, own, kind, points]

theorem heldBy_values {below : Nat → List Nat} (own : e.isAlias = false)
    (kind : e.type ≠ .container) (points : pointer e = some p) : heldBy below e = [p] := by
  simp [heldBy, own, kind, points]

theorem stands_congr (stands : Stands m (Tree m n) e)
    (below : ∀ p, Tree m n p → (∀ c ∈ held m n p, m'.lookup c = m.lookup c) →
      Tree m' n p ∧ held m' n p = held m n p)
    (same : ∀ c ∈ heldBy (held m n) e, m'.lookup c = m.lookup c) :
    Stands m' (Tree m' n) e ∧ heldBy (held m' n) e = heldBy (held m n) e := by
  cases own : e.isAlias with
  | true =>
    refine ⟨fun isOwn => ?_, by simp [heldBy, own]⟩
    rw [own] at isOwn
    cases isOwn
  | false =>
    obtain ⟨p, points, target⟩ := stands own
    by_cases kind : e.type = .container
    · rw [if_pos kind] at target
      rw [heldBy_container own kind points] at same ⊢
      rw [heldBy_container own kind points]
      obtain ⟨tree, cells⟩ := below p target same
      refine ⟨fun _ => ⟨p, points, ?_⟩, cells⟩
      rw [if_pos kind]
      exact tree
    · rw [if_neg kind] at target
      rw [heldBy_values own kind points] at same ⊢
      rw [heldBy_values own kind points]
      obtain ⟨values, found⟩ := target
      refine ⟨fun _ => ⟨p, points, ?_⟩, rfl⟩
      rw [if_neg kind]
      exact ⟨values, valuesAt_iff.mpr
        ((same p (List.mem_singleton_self p)).trans (valuesAt_iff.mp found))⟩

/-- Only the cells of the tree count. -/
theorem tree_congr (tree : Tree m n a) (same : ∀ c ∈ held m n a, m'.lookup c = m.lookup c) :
    Tree m' n a ∧ held m' n a = held m n a := by
  induction n generalizing a with
  | zero => exact tree.elim
  | succ n ih =>
    obtain ⟨t, found, entries⟩ := tree
    rw [held_succ found] at same ⊢
    have found' : tableAt m' a = some t :=
      (tableAt_lookup (same a List.mem_cons_self)).trans found
    have each : ∀ e ∈ t.attrMap,
        Stands m' (Tree m' n) e ∧ heldBy (held m' n) e = heldBy (held m n) e := by
      intro e mem
      refine stands_congr (entries e mem) (fun p => ih) ?_
      intro c cell
      exact same c (List.mem_cons_of_mem a (List.mem_flatMap.mpr ⟨e, mem, cell⟩))
    refine ⟨⟨t, found', fun e mem => (each e mem).1⟩, ?_⟩
    rw [held_succ found', List.flatMap_congr fun e mem => (each e mem).2]

/-- Only the cells that are given may have changed. -/
structure Freed (m : Memory) (cs : List Nat) (m' : Memory) : Prop where
  size : m'.size = m.size
  kept : ∀ c ∉ cs, m'.lookup c = m.lookup c

theorem Freed.append {cs ds : List Nat} {m'' : Memory} (first : Freed m cs m')
    (second : Freed m' ds m'') : Freed m (cs ++ ds) m'' where
  size := second.size.trans first.size
  kept := by
    intro c outside
    rw [List.mem_append, not_or] at outside
    rw [second.kept c outside.2, first.kept c outside.1]

theorem Freed.free (m : Memory) (a : Nat) : Freed m [a] (m.free a) where
  size := Heap.size_free m a
  kept := by
    intro c outside
    exact Heap.lookup_free_other m (by simpa using outside)

theorem deleteAll_freed {k : Nat} {es : List Entry}
    (ih : ∀ m e, Stands m (Tree m n) e → (heldBy (held m n) e).Nodup →
      ∃ m', deleteEntry k e m = .ok () m' ∧ Freed m (heldBy (held m n) e) m')
    (there : ∀ e ∈ es, Stands m (Tree m n) e)
    (single : (es.flatMap (heldBy (held m n))).Nodup) :
    ∃ m', es.forM (deleteEntry k) m = .ok () m' ∧
      Freed m (es.flatMap (heldBy (held m n))) m' := by
  induction es generalizing m with
  | nil => exact ⟨m, rfl, rfl, by simp⟩
  | cons e es ihEs =>
    rw [List.flatMap_cons, List.nodup_append] at single
    obtain ⟨single_e, single_es, apart⟩ := single
    obtain ⟨m₁, first, freed⟩ := ih m e (there e List.mem_cons_self) single_e
    have same : ∀ f ∈ es, Stands m₁ (Tree m₁ n) f ∧
        heldBy (held m₁ n) f = heldBy (held m n) f := by
      intro f mem
      refine stands_congr (there f (List.mem_cons_of_mem e mem)) (fun p => tree_congr) ?_
      intro c cell
      apply freed.kept
      intro earlier
      exact apart c earlier c (List.mem_flatMap.mpr ⟨f, mem, cell⟩) rfl
    have all : es.flatMap (heldBy (held m₁ n)) = es.flatMap (heldBy (held m n)) :=
      List.flatMap_congr fun f mem => (same f mem).2
    obtain ⟨m', rest, freed'⟩ := ihEs (fun f mem => (same f mem).1) (all.symm ▸ single_es)
    refine ⟨m', (call_ok first).trans rest, ?_⟩
    rw [List.flatMap_cons, ← all]
    exact freed.append freed'

/-- The destructor of a table with entries `n` levels deep. -/
def deleteTable (n a : Nat) : Call Unit := do
  let t ← getTable a
  t.attrMap.forM (deleteEntry n)
  modify fun m => m.free a

theorem deleteEntry_freed
    (tables : ∀ m p, Tree m n p → (held m n p).Nodup →
      ∃ m', deleteTable n p m = .ok () m' ∧ Freed m (held m n p) m')
    (m : Memory) (e : Entry) (stands : Stands m (Tree m n) e)
    (single : (heldBy (held m n) e).Nodup) :
    ∃ m', deleteEntry (n + 1) e m = .ok () m' ∧ Freed m (heldBy (held m n) e) m' := by
  cases own : e.isAlias with
  | true =>
    refine ⟨m, ?_, rfl, fun _ _ => rfl⟩
    simp only [deleteEntry, own, if_true]
    rfl
  | false =>
    obtain ⟨p, points, target⟩ := stands own
    by_cases kind : e.type = .container
    · rw [if_pos kind] at target
      rw [heldBy_container own kind points] at single ⊢
      rw [pointer_container kind] at points
      obtain ⟨m', done, freed⟩ := tables m p target single
      refine ⟨m', ?_, freed⟩
      simp only [deleteEntry, own, kind, points, Bool.false_eq_true, if_false, if_true]
      exact done
    · rw [if_neg kind] at target
      rw [heldBy_values own kind points]
      rw [pointer_values kind] at points
      obtain ⟨values, found⟩ := target
      refine ⟨m.free p, ?_, .free m p⟩
      simp only [deleteEntry, own, kind, points, Bool.false_eq_true, if_false]
      exact (call_ok (reading_demand found)).trans rfl

/-- A table whose tree is there is deleted. -/
theorem deleteTable_freed (n : Nat) (m : Memory) (a : Nat) (tree : Tree m n a)
    (single : (held m n a).Nodup) :
    ∃ m', deleteTable n a m = .ok () m' ∧ Freed m (held m n a) m' := by
  induction n generalizing m a with
  | zero => exact tree.elim
  | succ n ih =>
    obtain ⟨t, found, entries⟩ := tree
    rw [held_succ found] at single ⊢
    obtain ⟨m₁, loop, freed⟩ := deleteAll_freed (deleteEntry_freed ih) entries
      (List.nodup_cons.mp single).2
    refine ⟨m₁.free a, (call_ok (getTable_eq found)).trans ((call_ok loop).trans rfl), ?_⟩
    have both := freed.append (.free m₁ a)
    refine ⟨both.size, ?_⟩
    intro c outside
    apply both.kept
    intro mem
    exact outside (List.mem_cons.mpr ((List.mem_append.mp mem).symm.imp_left List.mem_singleton.mp))

/-- `delete_attr_table`. -/
theorem deleteEntries_freed (tree : Tree m n a) (single : (held m n a).Nodup)
    (found : tableAt m a = some t) :
    ∃ m', t.attrMap.forM (deleteEntry n) m = .ok () m' ∧ Freed m (held m n a).tail m' := by
  cases n with
  | zero => exact tree.elim
  | succ n =>
    obtain ⟨t', found', entries⟩ := tree
    cases found.symm.trans found'
    rw [held_succ found] at single ⊢
    exact deleteAll_freed (deleteEntry_freed (deleteTable_freed n)) entries
      (List.nodup_cons.mp single).2

/-- What two tables print the same. -/
def SamePrint (m : Memory) (a : Nat) (m' : Memory) (a' : Nat) : Prop :=
  ∀ dereference fuel pad,
    printTable m' dereference fuel a' pad = printTable m dereference fuel a pad

/-- `append_attr` and `del_attr`. -/
def Edit : Mutation → Prop
  | .appendAttr .. | .appendAttrVector .. | .delAttr .. => True
  | _ => False

/-- A call comes to its end, or throws. -/
def Ends (call : Call Unit) (m m' : Memory) : Prop :=
  call m = .ok () m' ∨ ∃ failure, call m = .error failure m' ∧ Thrown failure

/-- A call on a table that one of the two holds never changes what the other prints. -/
def Unentangled (depth a b : Nat) : Memory → List (Nat × Mutation) → Prop
  | _, [] => True
  | m, (this, step) :: steps => Edit step → ∀ m', Ends (mutate depth this step) m m' →
    (Contains m a this → SamePrint m b m' b ∧ Unentangled depth a b m' steps) ∧
    (Contains m b this → SamePrint m a m' a ∧ Unentangled depth a b m' steps)

theorem mutate_moves {step : Mutation} (edit : Edit step) (region : Region pointers m R)
    (inside : R this) (ends : Ends (mutate depth this step) m m') : Moves pointers R m m' := by
  cases ends with
  | inl done =>
    cases step with
    | appendAttr | appendAttrVector =>
      obtain ⟨k, m₁, first, rest⟩ := bind_returned done
      cases rest
      exact appendValues_moves region inside first
    | delAttr name i => exact delAttr_moves region inside done
    | appendContainer | appendTable | addContainerAlias | addValueAlias => exact edit.elim
  | inr thrown =>
    obtain ⟨failure, failed, error⟩ := thrown
    cases step with
    | appendAttr | appendAttrVector =>
      rcases bind_error failed with first | ⟨_, _, _, rest⟩
      · rw [appendValues_error first error]
        exact .refl region
      · cases rest
    | delAttr name i => exact absurd error (delAttr_error failed)
    | appendContainer | appendTable | addContainerAlias | addValueAlias => exact edit.elim

theorem Contains.inside (region : Region pointers m R) (inside : R a) (holds : Contains m a b) :
    R b := by
  induction holds with
  | root => exact inside
  | container _ found mem own kind points ih =>
    exact pointer_inside region ih found mem ((pointer_container kind).trans points)

/-- In regions apart nothing is shared, now or later. -/
theorem unentangled_of_apart {S : Nat → Prop} (depth : Nat) (steps : List (Nat × Mutation))
    (region : Region pointers m R) (region' : Region pointers m S)
    (apart : ∀ c, R c → ¬ S c) (inside : R a) (inside' : S b) :
    Unentangled depth a b m steps := by
  induction steps generalizing m R S with
  | nil => trivial
  | cons next steps ih =>
    obtain ⟨this, step⟩ := next
    intro edit m' ends
    have apart' : ∀ c, S c → ¬ R c := fun c mem mem' => apart c mem' mem
    constructor
    · intro holds
      have moves := mutate_moves edit region (holds.inside region inside) ends
      have still := region'.frame moves.confined apart'
      constructor
      · intro dereference fuel pad
        exact printTable_congr region'
          (fun c mem => printsAlike_of_eq (region'.lookup_same moves.confined apart' mem))
          dereference fuel pad inside'
      · exact ih moves.region still
          (fun c mem mem' => region'.apart_grown apart' c mem' mem) (.inl inside) inside'
    · intro holds
      have moves := mutate_moves edit region' (holds.inside region' inside') ends
      have still := region.frame moves.confined apart
      constructor
      · intro dereference fuel pad
        exact printTable_congr region
          (fun c mem => printsAlike_of_eq (region.lookup_same moves.confined apart mem))
          dereference fuel pad inside
      · exact ih still moves.region (region.apart_grown apart) inside (.inl inside')

/-- What is asked of a copy in `m'` of the table `src` in `m`. -/
structure Independent (m : Memory) (src : Nat) (m' : Memory) (copy : Nat) : Prop where
  source : ∀ c, Linked pointers m src c → m'.lookup c = m.lookup c
  prints : SamePrint m src m' copy
  later : ∀ depth steps, Unentangled depth src copy m' steps

/-- The table is copied, and assigned to every table of a tree apart from its own. -/
def CopiesIndependent (n : Nat) (m : Memory) (src : Nat) : Prop :=
  ∀ garbage, (∃ copy m', copyTable garbage n src m = .ok copy m' ∧ Independent m src m' copy) ∧
    ∀ lhs, Tree m n lhs → (held m n lhs).Nodup → (∀ c ∈ held m n lhs, ¬ Linked pointers m src c) →
      ∃ m', assignTable garbage n lhs src m = .ok () m' ∧ Independent m src m' lhs

/-- A copy in cells apart from the source. -/
theorem independent_of_moves {src copy : Nat} {m₁ : Memory} (tree : Tree m n src)
    (plain : Plain m src) (grows : m.size ≤ m₁.size)
    (same : ∀ c, Linked pointers m src c → m₁.lookup c = m.lookup c)
    (apart : ¬ Linked pointers m src copy)
    (moves : Moves pointers (· = copy) m₁ m') (prints : SamePrint m src m' copy) :
    Independent m src m' copy := by
  have old : ∀ c, Linked pointers m src c → c < m₁.size :=
    fun c below => Nat.lt_of_lt_of_le (tree.linked plain below) grows
  have separate : ∀ c, Linked pointers m src c → ¬ Grown (· = copy) m₁ m' c := by
    intro c below grown
    cases grown with
    | inl isCopy => exact apart (isCopy ▸ below)
    | inr new => exact absurd (old c below) (Nat.not_lt.mpr new.1)
  have kept : ∀ c, Linked pointers m src c → m'.lookup c = m.lookup c := by
    intro c below
    have other : c ≠ copy := fun isCopy => apart (isCopy ▸ below)
    exact (moves.confined.kept c (old c below) other).trans (same c below)
  refine ⟨kept, prints, ?_⟩
  intro depth steps
  refine unentangled_of_apart depth steps ?_ moves.region separate .refl (.inl rfl)
  constructor
  · intro c below
    exact Nat.lt_of_lt_of_le (old c below) moves.confined.grows
  · intro c x below found d part
    rw [kept c below] at found
    exact (tree.region plain).closed c x below found d part

theorem copy_independent {src : Nat} (garbage : Option Nat) (tree : Tree m n src)
    (plain : Plain m src) :
    ∃ copy m', copyTable garbage n src m = .ok copy m' ∧ Independent m src m' copy := by
  have made := withTable_moves m
  have new : ¬ Linked pointers m src m.size :=
    fun below => Nat.lt_irrefl _ (tree.linked plain below)
  have there : tableAt (withTable m) m.size = some emptyTable :=
    tableAt_iff.mpr (Heap.lookup_alloc_new m _)
  have same : ∀ c, Linked pointers m src c → (withTable m).lookup c = m.lookup c :=
    fun c below => made.confined.kept c (tree.linked plain below) id
  obtain ⟨m', own', done, moves, _, prints⟩ :=
    cloneTable_clones garbage tree plain (withTable m) m.size emptyTable made.confined.grows same
      new there rfl
  exact ⟨m.size, m', newCopy_ok done,
    independent_of_moves tree plain made.confined.grows same new moves prints⟩

theorem assign_independent {src lhs : Nat} (garbage : Option Nat) (tree : Tree m n src)
    (plain : Plain m src) (treeLhs : Tree m n lhs) (single : (held m n lhs).Nodup)
    (apart : ∀ c ∈ held m n lhs, ¬ Linked pointers m src c) :
    ∃ m', assignTable garbage n lhs src m = .ok () m' ∧ Independent m src m' lhs := by
  cases n with
  | zero => exact tree.elim
  | succ n =>
    obtain ⟨t, found, _⟩ := id treeLhs
    obtain ⟨m₁, deleted, freed⟩ := deleteEntries_freed treeLhs single found
    have cells := held_succ (n := n) found
    rw [cells] at single apart freed
    have notSrc : ¬ Linked pointers m src lhs := apart lhs List.mem_cons_self
    have found₁ : tableAt m₁ lhs = some t :=
      (tableAt_lookup (freed.kept lhs (List.nodup_cons.mp single).1)).trans found
    generalize cleared : tableModified m₁ lhs (fun own => { own with attrMap := [] }) = m₂
    have size : m₂.size = m.size := by
      rw [← cleared]
      exact (Heap.size_modify m₁ lhs _).trans freed.size
    have found₂ : tableAt m₂ lhs = some { t with attrMap := [] } := by
      rw [← cleared, tableAt_modified_same, found₁]
      rfl
    have same : ∀ c, Linked pointers m src c → m₂.lookup c = m.lookup c := by
      intro c below
      have other : c ≠ lhs := fun isLhs => notSrc (isLhs ▸ below)
      have outside : c ∉ (lhs :: t.attrMap.flatMap (heldBy (held m n))).tail :=
        fun mem => apart c (List.mem_of_mem_tail mem) below
      rw [← cleared]
      exact (Heap.lookup_modify_other m₁ other _).trans (freed.kept c outside)
    obtain ⟨m', own', done, moves, _, prints⟩ := cloneTable_clones garbage tree plain m₂ lhs _
      (Nat.le_of_eq size.symm) same notSrc found₂ rfl
    refine ⟨m', ?_, independent_of_moves tree plain (Nat.le_of_eq size.symm) same notSrc
      moves prints⟩
    have different : lhs ≠ src := fun equal => notSrc (equal ▸ .refl)
    unfold assignTable
    rw [if_neg different]
    refine (call_ok (getTable_eq found)).trans ((call_ok deleted).trans ?_)
    apply (call_ok (modifyTable_eq lhs _ m₁)).trans
    rw [cleared]
    exact done

/-- Without aliases and attributes of unknown type, copies are independent. -/
theorem copiesIndependent_of_plain {src : Nat} (tree : Tree m n src) (plain : Plain m src) :
    CopiesIndependent n m src := by
  intro garbage
  refine ⟨copy_independent garbage tree plain, ?_⟩
  intro lhs treeLhs single apart
  exact assign_independent garbage tree plain treeLhs single apart

/-- A table with an attribute and a container that has one, too. -/
def nested : Memory :=
  ⟨[some (.table { emptyTable with attrMap :=
      [{ newEntry ['x'] .byte with attr := some 1 },
        { newEntry ['c'] .container with attributes := some 2 }] }),
    some (.values ["1"]),
    some (.table { emptyTable with
      name := ['c'], parent := some 0, attrMap := [{ newEntry ['y'] .string with attr := some 3 }] }),
    some (.values ["m", "s"])]⟩

theorem nested_plain : Plain nested 0 := by
  intro b t e _ found mem
  match b with
  | 0 =>
    cases found
    simp only [List.mem_cons, List.not_mem_nil, or_false] at mem
    rcases mem with rfl | rfl
    · decide
    · decide
  | 1 => cases found
  | 2 =>
    cases found
    cases List.mem_singleton.mp mem
    decide
  | 3 => cases found
  | b + 4 => cases found

theorem copiesIndependent_of_plain_nested : CopiesIndependent 2 nested 0 := by
  refine copiesIndependent_of_plain ⟨_, rfl, ?_⟩ nested_plain
  intro e mem _
  simp only [List.mem_cons, List.not_mem_nil, or_false] at mem
  rcases mem with rfl | rfl
  · exact ⟨1, rfl, ["1"], rfl⟩
  · refine ⟨2, rfl, _, rfl, fun e mem _ => ?_⟩
    cases List.mem_singleton.mp mem
    exact ⟨3, rfl, ["m", "s"], rfl⟩

/-- A container, and next to it an alias of it. -/
def aliased : Memory :=
  ⟨[some (.table { emptyTable with attrMap :=
      [{ newEntry ['c'] .container with attributes := some 1 },
        { newEntry ['d'] .container with
          isAlias := true, aliasedTo := ['c'], attributes := some 1 }] }),
    some (.table { emptyTable with name := ['c'], parent := some 0 })]⟩

/-- The container that is aliased gets the copy as its parent. -/
theorem copiesIndependent_fails : ¬ CopiesIndependent 2 aliased 0 := by
  intro independent
  obtain ⟨copy, m', done, whole⟩ := (independent none).1
  have below : Linked pointers aliased 0 1 :=
    .single ⟨_, rfl, List.mem_cons_self⟩
  have unchanged := whole.source 1 below
  cases done
  revert unchanged
  decide

end Libdap.Guarantees.AttributeCopies
