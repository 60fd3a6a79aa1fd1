import Libdap.Guarantees.AttributeNames
import Libdap.Guarantees.AttributeTransfer

/-!
# Containers by their path

`find_container` takes a dotted name apart from the left. At every table it first compares
the part with the name of the table itself, so a container named like the table that holds
it is passed over, and every later part is then looked for one table too high.
-/
namespace Libdap.Guarantees.ContainerPaths
open Libdap.Library Libdap.Source Libdap.Source.Attributes
open Libdap.Guarantees.AttributeNames
open Libdap.Guarantees.AttributeTransfer (Dotless splitFirst_dotless)

variable {m m' : Memory} {root a b c : Nat} {e : Entry}

/-! ## Trees -/

/-- The table at `a` has `c` as a container. -/
def Holds (m : Memory) (a : Nat) (e : Entry) (c : Nat) : Prop :=
  ∃ es, entriesAt m a = some es ∧ e ∈ es ∧ e.attributes = some c

/-- Nothing holds the root, and a table is held once. -/
structure Tree (root : Nat) (m : Memory) : Prop where
  top : ∀ a e, ¬ Holds m a e root
  once : ∀ a a' e e' c, Holds m a e c → Holds m a' e' c → a = a' ∧ e = e'
  inside : ∀ a e c, Holds m a e c → c < m.size
  allocated : root < m.size

/-- The memories that calls of `append_container` and `append_attr` make out of empty tables. -/
inductive Built (root : Nat) : Memory → Prop where
  | start {m : Memory} (there : root < m.size)
      (empty : ∀ a t, tableAt m a = some t → t.attrMap = []) : Built root m
  | container {m m' : Memory} {this p : Nat} {name : List Char} (before : Built root m)
      (done : appendContainer this name m = .ok p m') : Built root m'
  /-- A table that another table holds already is not given to a second one. -/
  | table {m m' : Memory} {this at' p : Nat} {name : List Char} (before : Built root m)
      (other : at' ≠ root) (free : ∀ a e, ¬ Holds m a e at')
      (done : appendTable this at' name m = .ok p m') : Built root m'
  | values {m m' : Memory} {this n : Nat} {name type : List Char} {texts : List String}
      (before : Built root m) (done : appendValues this name type texts m = .ok n m') :
      Built root m'

theorem Tree.added {this at' : Nat} {e₀ : Entry} (tree : Tree root m)
    (added : ∀ a e c, Holds m' a e c → Holds m a e c ∨ a = this ∧ e = e₀ ∧ c = at')
    (other : at' ≠ root) (free : ∀ a e, ¬ Holds m a e at') (there : at' < m'.size)
    (grows : m.size ≤ m'.size) : Tree root m' where
  top := by
    intro a e holds
    rcases added a e root holds with old | ⟨-, -, same⟩
    · exact tree.top a e old
    · exact other same.symm
  once := by
    intro a a' e e' c first second
    rcases added a e c first with old | ⟨rfl, rfl, rfl⟩
    · rcases added a' e' c second with old' | ⟨rfl, rfl, rfl⟩
      · exact tree.once a a' e e' c old old'
      · exact absurd old (free a e)
    · rcases added a' e' c second with old' | ⟨rfl, rfl, -⟩
      · exact absurd old' (free a' e')
      · exact ⟨rfl, rfl⟩
  inside := by
    intro a e c holds
    rcases added a e c holds with old | ⟨-, -, rfl⟩
    · exact Nat.lt_of_lt_of_le (tree.inside a e c old) grows
    · exact there
  allocated := Nat.lt_of_lt_of_le tree.allocated grows

theorem Tree.same (tree : Tree root m) (holds : ∀ a e c, Holds m' a e c → Holds m a e c)
    (grows : m.size ≤ m'.size) : Tree root m' where
  top a e held := tree.top a e (holds a e root held)
  once a a' e e' c first second := tree.once a a' e e' c (holds a e c first) (holds a' e' c second)
  inside a e c held := Nat.lt_of_lt_of_le (tree.inside a e c (holds a e c held)) grows
  allocated := Nat.lt_of_lt_of_le tree.allocated grows

/-! ## What the calls add -/

theorem size_tableModified (m : Memory) (a : Nat) (f : AttrTable → AttrTable) :
    (tableModified m a f).size = m.size := by
  simp [tableModified]

theorem entriesAt_other {f : AttrTable → AttrTable} (other : b ≠ a) :
    entriesAt (tableModified m a f) b = entriesAt m b := by
  unfold entriesAt
  rw [tableAt_modified_other other]

/-- An entry pushed to one table. -/
theorem holds_pushed {this : Nat} {t : AttrTable} {e₀ : Entry} (found : tableAt m this = some t)
    (holds : Holds (tableModified m this (pushEntry e₀)) a e c) :
    Holds m a e c ∨ a = this ∧ e = e₀ ∧ e₀.attributes = some c := by
  obtain ⟨es, entries, member, held⟩ := holds
  by_cases same : a = this
  · subst same
    rw [entries_pushed e₀ found] at entries
    cases entries
    rcases List.mem_append.mp member with old | new
    · exact .inl ⟨_, entriesAt_eq found, old, held⟩
    · have only := List.mem_singleton.mp new
      subst only
      exact .inr ⟨rfl, rfl, held⟩
  · rw [entriesAt_other same] at entries
    exact .inl ⟨es, entries, member, held⟩

theorem holds_kept {f : AttrTable → AttrTable} (kept : ∀ t, (f t).attrMap = t.attrMap) {d : Nat} :
    Holds (tableModified m d f) a e c ↔ Holds m a e c := by
  unfold Holds
  rw [entries_modified kept]

theorem appendTable_holds {this at' p : Nat} {name : List Char}
    (done : appendTable this at' name m = .ok p m') :
    (∃ e₀ : Entry, e₀.name = removeSpaceEncoding name ∧
      ∀ a e c, Holds m' a e c → Holds m a e c ∨ a = this ∧ e = e₀ ∧ c = at') ∧
      m'.size = m.size ∧ at' < m.size := by
  obtain ⟨t, t₁, -, -, given, found₁, -, rfl⟩ := appendTable_cases done
  refine ⟨⟨{ newEntry (removeSpaceEncoding name) .container with attributes := some at' }, rfl, ?_⟩,
    ?_, ?_⟩
  · intro a e c holds
    rw [holds_kept (f := fun t => { t with parent := some this }) fun _ => rfl] at holds
    rcases holds_pushed found₁ holds with old | ⟨here, new, held⟩
    · exact .inl ((holds_kept (setName_attrMap _)).mp old)
    · exact .inr ⟨here, new, (Option.some.inj held).symm⟩
  · simp only [size_tableModified]
  · unfold tableAt at given
    split at given
    · rename_i there
      exact Heap.lt_of_lookup there
    · cases given

theorem holds_allocated {cell : Cell} (no_entries : ∀ t, cell = .table t → t.attrMap = []) :
    Holds (m.alloc (some cell)) a e c → Holds m a e c := by
  intro holds
  obtain ⟨es, entries, member, held⟩ := holds
  unfold entriesAt at entries
  obtain ⟨t, found, same⟩ := Option.map_eq_some_iff.mp entries
  by_cases old : a < m.size
  · have kept : (m.alloc (some cell)).lookup a = m.lookup a :=
      (Heap.Extends.alloc m _ m.size).lookup old (Nat.ne_of_lt old)
    rw [tableAt_lookup kept] at found
    exact ⟨es, by unfold entriesAt; rw [found]; exact congrArg some same, member, held⟩
  · have there := found
    unfold tableAt at there
    split at there
    · rename_i u lookup
      have new : a = m.size := by
        have := Heap.lt_of_lookup lookup
        rw [Heap.size_alloc] at this
        omega
      rw [new, Heap.lookup_alloc_new] at lookup
      cases there
      rw [← same, no_entries t (Option.some.inj lookup)] at member
      cases member
    · cases there

theorem appendValues_holds {this n : Nat} {name type : List Char} {values : List String}
    (done : appendValues this name type values m = .ok n m') :
    (∀ a e c, Holds m' a e c → Holds m a e c) ∧ m.size ≤ m'.size := by
  obtain ⟨t, found, ⟨e, attr, -, -, -, -, modified⟩ | ⟨-, found₂, rfl⟩⟩ :=
    appendValues_cases done
  · constructor
    · intro a e c holds
      obtain ⟨es, entries, member, held⟩ := holds
      obtain ⟨m₅, modified', kept⟩ := tableAt_modifyValues m attr a (· ++ values)
      cases modified'.symm.trans modified
      unfold entriesAt at entries
      rw [kept] at entries
      exact ⟨es, entries, member, held⟩
    · cases modified
      simp
  · constructor
    · intro a e c holds
      rcases holds_pushed found₂ holds with old | ⟨-, -, held⟩
      · refine holds_allocated (fun t same => ?_) old
        cases same
      · cases held
    · rw [size_tableModified, Heap.size_alloc]
      omega

theorem appendContainer_holds {this p : Nat} {name : List Char}
    (done : appendContainer this name m = .ok p m') :
    (∃ e₀ : Entry, ∀ a e c, Holds m' a e c → Holds m a e c ∨ a = this ∧ e = e₀ ∧ c = m.size) ∧
      m'.size = m.size + 1 := by
  obtain ⟨newAt, m₁, first, rest⟩ := bind_returned done
  cases first
  rw [tryCatch_eq] at rest
  split at rest
  · rename_i q m₂ added
    cases rest
    obtain ⟨⟨e₀, -, new⟩, size, -⟩ := appendTable_holds added
    refine ⟨⟨e₀, ?_⟩, size.trans (Heap.size_alloc _ _)⟩
    intro a e c holds
    rcases new a e c holds with old | here
    · refine .inl (holds_allocated (fun t same => ?_) old)
      cases same
      rfl
    · exact .inr here
  · rename_i failure m₂ failed
    cases failure <;> cases rest

theorem Built.tree (built : Built root m) : Tree root m := by
  induction built with
  | @start m there empty =>
    have none_held : ∀ a e c, ¬ Holds m a e c := by
      intro a e c holds
      obtain ⟨es, entries, member, -⟩ := holds
      obtain ⟨t, found, same⟩ := Option.map_eq_some_iff.mp entries
      rw [← same, empty a t found] at member
      cases member
    exact {
      top := fun a e => none_held a e root
      once := fun a _ e _ c held _ => absurd held (none_held a e c)
      inside := fun a e c held => absurd held (none_held a e c)
      allocated := there }
  | container _ done tree =>
    obtain ⟨⟨e₀, added⟩, size⟩ := appendContainer_holds done
    refine tree.added added ?_ ?_ (by omega) (by omega)
    · have := tree.allocated
      omega
    · intro a e held
      exact Nat.lt_irrefl _ (tree.inside a e _ held)
  | table _ other free done tree =>
    obtain ⟨⟨e₀, -, added⟩, size, there⟩ := appendTable_holds done
    exact tree.added added other free (by omega) (by omega)
  | values _ done tree =>
    obtain ⟨kept, grows⟩ := appendValues_holds done
    exact tree.same kept grows

/-! ## Paths -/

/-- A step of a path: the table that is left and its entry for the next one. -/
structure Hop where
  table : AttrTable
  entry : Entry
  deriving DecidableEq

inductive Path (m : Memory) : Nat → List Hop → Nat → Prop where
  | nil (a : Nat) : Path m a [] a
  | cons {a c b : Nat} {hop : Hop} {rest : List Hop} (found : tableAt m a = some hop.table)
      (member : hop.entry ∈ hop.table.attrMap) (type : hop.entry.type = .container)
      (held : hop.entry.attributes = some c) (below : Path m c rest b) : Path m a (hop :: rest) b

/-- The container is not named like its table, and it is the first of its name there. -/
def Hop.Plain (hop : Hop) : Prop :=
  hop.table.name ≠ hop.entry.name ∧
    (hop.table.attrMap.find? fun e => e.type = .container && e.name = hop.entry.name) =
      some hop.entry

/-- `c1.c2...cm`. -/
def dotted : List (List Char) → List Char
  | [] => []
  | [name] => name
  | name :: rest => name ++ '.' :: dotted rest

def pathName (hops : List Hop) : List Char := dotted (hops.map fun hop => hop.entry.name)

theorem dotted_cons {name next : List Char} {rest : List (List Char)} :
    dotted (name :: next :: rest) = name ++ '.' :: dotted (next :: rest) := rfl

theorem splitFirst_dotted {name : List Char} (dotless : Dotless name) (field : List Char) :
    splitFirst (name ++ '.' :: field) = some (name, field) := by
  have until_dot : (name ++ '.' :: field).span (· ≠ '.') = (name, '.' :: field) := by
    rw [List.span_eq_takeWhile_dropWhile]
    have all : ∀ c ∈ name, decide (c ≠ '.') = true := by
      intro c member
      exact decide_eq_true fun same => dotless (same ▸ member)
    rw [List.takeWhile_append_of_pos all, List.dropWhile_append_of_pos all]
    simp
  unfold splitFirst
  rw [until_dot]

theorem splitLast_dotted {field : List Char} (dotless : Dotless field) (container : List Char) :
    splitLast (container ++ '.' :: field) = some (container, field) := by
  have reversed : (container ++ '.' :: field).reverse = field.reverse ++ '.' :: container.reverse := by
    simp
  unfold splitLast
  rw [reversed, splitFirst_dotted (by simpa [Dotless] using dotless)]
  simp

theorem Path.append {hops hops' : List Hop} (first : Path m a hops b) (second : Path m b hops' c) :
    Path m a (hops ++ hops') c := by
  induction first with
  | nil => exact second
  | cons found member type held _ ih => exact .cons found member type held (ih second)

/-- The last step of a path. -/
theorem Path.last {hops : List Hop} {hop : Hop} (path : Path m a (hops ++ [hop]) b) :
    ∃ d, Path m a hops d ∧ tableAt m d = some hop.table ∧ Holds m d hop.entry b := by
  induction hops generalizing a with
  | nil =>
    cases path with
    | cons found member _ held below =>
      cases below
      exact ⟨a, .nil a, found, _, entriesAt_eq found, member, held⟩
  | cons first hops ih =>
    cases path with
    | cons found member type held below =>
      obtain ⟨d, upper, last⟩ := ih below
      exact ⟨d, .cons found member type held upper, last⟩

/-- In a tree a table is reached in one way. -/
theorem Tree.path_unique (tree : Tree root m) {hops hops' : List Hop} (path : Path m root hops b)
    (path' : Path m root hops' b) : hops = hops' := by
  induction hops using List.reverseRecOn generalizing b hops' with
  | nil =>
    cases path
    cases hops' using List.reverseRecOn with
    | nil => rfl
    | append_singleton hops' hop =>
      obtain ⟨d, -, -, held⟩ := path'.last
      exact absurd held (tree.top d hop.entry)
  | append_singleton hops hop ih =>
    obtain ⟨d, upper, found, held⟩ := path.last
    cases hops' using List.reverseRecOn with
    | nil =>
      cases path'
      exact absurd held (tree.top d hop.entry)
    | append_singleton hops' hop' =>
      obtain ⟨d', upper', found', held'⟩ := path'.last
      obtain ⟨rfl, same⟩ := tree.once _ _ _ _ _ held held'
      have table : hop.table = hop'.table := Option.some.inj (found.symm.trans found')
      have equal : hop = hop' := by
        cases hop
        cases hop'
        simp_all
      rw [ih upper upper', equal]

/-! ## What `find_container` comes to -/

theorem simpleFindContainer_hop {t : AttrTable} {name : List Char} {c : Nat} (other : t.name ≠ name)
    (found : simpleFindContainer a t name = some c) :
    ∃ e ∈ t.attrMap, e.type = .container ∧ e.name = name ∧ e.attributes = some c ∧
      (t.attrMap.find? fun e => e.type = .container && e.name = name) = some e := by
  unfold simpleFindContainer at found
  rw [if_neg other] at found
  obtain ⟨e, first, held⟩ := Option.bind_eq_some_iff.mp found
  have both := List.find?_some first
  simp only [Bool.and_eq_true, decide_eq_true_eq] at both
  exact ⟨e, List.mem_of_find?_eq_some first, both.1, both.2, held, first⟩

/-- The table found lies at the end of a path no longer than the name, and where it is as
long, it is the path of that name with plain steps only. -/
theorem findContainer_path {fuel : Nat} {name : List Char} {rest : List (List Char)}
    (dotless : ∀ c ∈ name :: rest, Dotless c)
    (found : findContainer m fuel a (dotted (name :: rest)) = .ok (some b)) :
    ∃ hops, Path m a hops b ∧ hops.length ≤ rest.length + 1 ∧
      (hops.length = rest.length + 1 → ∀ hop ∈ hops, hop.Plain) := by
  induction rest generalizing fuel name a with
  | nil =>
    cases fuel with
    | zero => cases found
    | succ fuel =>
      obtain ⟨t, there, result⟩ := bind_success found
      have table := demand_ok there
      rw [dotted, splitFirst_dotless (dotless name List.mem_cons_self)] at result
      have simple : simpleFindContainer a t name = some b := Except.ok.inj result
      by_cases own : t.name = name
      · unfold simpleFindContainer at simple
        rw [if_pos own] at simple
        cases simple
        exact ⟨[], .nil _, by simp, by simp⟩
      · obtain ⟨e, member, type, named, held, first⟩ := simpleFindContainer_hop own simple
        refine ⟨[⟨t, e⟩], .cons table member type held (.nil _), by simp, ?_⟩
        intro _ hop inside
        rw [List.mem_singleton] at inside
        subst inside
        subst named
        exact ⟨own, first⟩
  | cons next rest ih =>
    cases fuel with
    | zero => cases found
    | succ fuel =>
      obtain ⟨t, there, result⟩ := bind_success found
      have table := demand_ok there
      rw [dotted_cons, splitFirst_dotted (dotless name List.mem_cons_self)] at result
      cases simple : simpleFindContainer a t name with
      | none =>
        simp only [simple] at result
        cases result
      | some below =>
        simp only [simple] at result
        obtain ⟨hops, path, short, plain⟩ :=
          ih (fun c member => dotless c (List.mem_cons_of_mem name member)) result
        by_cases own : t.name = name
        · unfold simpleFindContainer at simple
          rw [if_pos own] at simple
          cases simple
          refine ⟨hops, path, ?_, ?_⟩
          · rw [List.length_cons]
            omega
          · intro long
            rw [List.length_cons] at long
            omega
        · obtain ⟨e, member, type, named, held, first⟩ := simpleFindContainer_hop own simple
          refine ⟨⟨t, e⟩ :: hops, .cons table member type held path, ?_, ?_⟩
          · simp only [List.length_cons]
            omega
          · intro long hop inside
            rcases List.mem_cons.mp inside with rfl | later
            · subst named
              exact ⟨own, first⟩
            · refine plain ?_ hop later
              simp only [List.length_cons] at long
              omega

theorem simpleFindContainer_plain {hop : Hop} (plain : hop.Plain)
    (held : hop.entry.attributes = some c) :
    simpleFindContainer a hop.table hop.entry.name = some c := by
  unfold simpleFindContainer
  rw [if_neg plain.1, plain.2]
  exact held

theorem findContainer_plain {hops : List Hop} (path : Path m a hops b) (some' : hops ≠ [])
    (dotless : ∀ hop ∈ hops, Dotless hop.entry.name) (plain : ∀ hop ∈ hops, hop.Plain)
    (fuel : Nat) (enough : hops.length ≤ fuel) :
    findContainer m fuel a (pathName hops) = .ok (some b) := by
  induction path generalizing fuel with
  | nil => exact absurd rfl some'
  | @cons a c b hop rest found member type held below ih =>
    obtain ⟨fuel, rfl⟩ : ∃ n, fuel = n + 1 := ⟨fuel - 1, by
      rw [List.length_cons] at enough
      omega⟩
    have simple : simpleFindContainer a hop.table hop.entry.name = some c :=
      simpleFindContainer_plain (plain hop List.mem_cons_self) held
    have own := dotless hop List.mem_cons_self
    cases rest with
    | nil =>
      cases below
      simp only [findContainer, found, demand, pathName, List.map_cons, List.map_nil, dotted,
        splitFirst_dotless own, simple, bind, Except.bind, pure, Except.pure]
    | cons next rest =>
      have lower := ih (by simp) (fun h mem => dotless h (List.mem_cons_of_mem hop mem))
        (fun h mem => plain h (List.mem_cons_of_mem hop mem)) fuel (by
          simp only [List.length_cons] at enough ⊢
          omega)
      simp only [pathName, List.map_cons] at lower
      simp only [findContainer, found, demand, pathName, List.map_cons, dotted_cons,
        splitFirst_dotted own, simple, bind, Except.bind, lower]

theorem length_dotted (names : List (List Char)) : names.length ≤ (dotted names).length + 1 := by
  match names with
  | [] => simp
  | [name] => simp
  | name :: next :: rest =>
    have := length_dotted (next :: rest)
    rw [dotted_cons]
    simp only [List.length_append, List.length_cons] at this ⊢
    omega

theorem length_pathName (hops : List Hop) : hops.length ≤ (pathName hops).length + 1 := by
  simpa [pathName] using length_dotted (hops.map fun hop => hop.entry.name)

/-- The container at the end of a path is found under the name of the path exactly if every
step is plain, and then `find` gives the attributes in it. -/
theorem found_iff_plain (depth : Nat) (built : Built root m) (hops : List Hop) (path : Path m root hops b)
    (some' : hops ≠ []) (dotless : ∀ hop ∈ hops, Dotless hop.entry.name) :
    ((findContainer m ((pathName hops).length + 1) root (pathName hops) = .ok (some b) ∧
        ∀ t field e, tableAt m b = some t → Dotless field → t.simpleFind field = some e →
          find depth m root (pathName hops ++ '.' :: field) = .ok (some (b, e))) ↔
      ∀ hop ∈ hops, hop.Plain) := by
  constructor
  · intro both
    obtain ⟨first, rest, rfl⟩ : ∃ first rest, hops = first :: rest := List.exists_cons_of_ne_nil some'
    have named : pathName (first :: rest) =
        dotted (first.entry.name :: rest.map fun hop => hop.entry.name) := rfl
    have found := both.1
    rw [named] at found
    obtain ⟨hops', path', -, plain⟩ := findContainer_path (by
      intro c member
      rw [← List.map_cons (f := fun hop : Hop => hop.entry.name)] at member
      obtain ⟨hop, inside, rfl⟩ := List.mem_map.mp member
      exact dotless hop inside) found
    have same := built.tree.path_unique path path'
    rw [← same] at plain
    exact plain (by simp)
  · intro plain
    refine ⟨findContainer_plain path some' dotless plain _ (length_pathName hops), ?_⟩
    intro t field e table dotless_field there
    have container := findContainer_plain path some' dotless plain
      ((pathName hops ++ '.' :: field).length + 1) (by
        have := length_pathName hops
        rw [List.length_append]
        omega)
    simp only [find, splitLast_dotted dotless_field, container, bind, Except.bind, table, demand,
      there, pure, Except.pure, Option.map_some]

/-- No table has two containers of one name. -/
def OneOfAName (m : Memory) : Prop :=
  ∀ a t, tableAt m a = some t → ∀ e ∈ t.attrMap, ∀ e' ∈ t.attrMap,
    e.type = .container → e'.type = .container → e.name = e'.name → e = e'

/-- The tables of a path are tables of the memory, with the entries of the path in them. -/
theorem Path.tables {hops : List Hop} (path : Path m a hops b) :
    ∀ hop ∈ hops, ∃ d, tableAt m d = some hop.table ∧ hop.entry ∈ hop.table.attrMap ∧
      hop.entry.type = .container := by
  induction path with
  | nil =>
    intro hop inside
    cases inside
  | @cons a c b first rest found member type held below ih =>
    intro hop inside
    rcases List.mem_cons.mp inside with rfl | later
    · exact ⟨a, found, member, type⟩
    · exact ih hop later

/-- Where names are taken once, only the name of the table itself can be in the way. -/
theorem OneOfAName.plain_iff {hops : List Hop} (single : OneOfAName m) (path : Path m a hops b)
    {hop : Hop} (inside : hop ∈ hops) : hop.Plain ↔ hop.table.name ≠ hop.entry.name := by
  constructor
  · intro plain
    exact plain.1
  · intro other
    refine ⟨other, ?_⟩
    obtain ⟨d, table, member, type⟩ := path.tables hop inside
    have found : (hop.table.attrMap.find? fun e =>
        e.type = .container && e.name = hop.entry.name).isSome := by
      rw [List.find?_isSome]
      exact ⟨hop.entry, member, by simp [type]⟩
    obtain ⟨e, first⟩ := Option.isSome_iff_exists.mp found
    have both := List.find?_some first
    simp only [Bool.and_eq_true, decide_eq_true_eq] at both
    have same := single d hop.table table e (List.mem_of_find?_eq_some first) hop.entry member
      both.1 type both.2
    rw [first, same]

/-- Where no table has two containers of one name, the container at the end of a path is found
under the name of the path exactly if no container on the way is named like the table that holds
it, and then `find` gives the attributes in it. -/
theorem container_found_iff (depth : Nat) (built : Built root m) (single : OneOfAName m)
    (hops : List Hop) (path : Path m root hops b) (some' : hops ≠ [])
    (dotless : ∀ hop ∈ hops, Dotless hop.entry.name) :
    ((findContainer m ((pathName hops).length + 1) root (pathName hops) = .ok (some b) ∧
        ∀ t field e, tableAt m b = some t → Dotless field → t.simpleFind field = some e →
          find depth m root (pathName hops ++ '.' :: field) = .ok (some (b, e))) ↔
      ∀ hop ∈ hops, hop.table.name ≠ hop.entry.name) := by
  rw [found_iff_plain depth built hops path some' dotless]
  exact forall₂_congr fun hop inside => single.plain_iff path inside

/-! ## A container in a container of the same name -/

def entryFor (c : Nat) : Entry := { newEntry ['a'] .container with attributes := some c }

def outerTable : AttrTable := { emptyTable with attrMap := [entryFor 1] }

def middleTable : AttrTable :=
  { emptyTable with name := ['a'], parent := some 0, attrMap := [entryFor 2] }

def innerTable : AttrTable := { emptyTable with name := ['a'], parent := some 1 }

def oneTable : Memory := ⟨[some (.table emptyTable)]⟩

def twoTables : Memory := ⟨[some (.table outerTable), some (.table { middleTable with attrMap := [] })]⟩

def threeTables : Memory :=
  ⟨[some (.table outerTable), some (.table middleTable), some (.table innerTable)]⟩

theorem oneTable_built : Built 0 oneTable :=
  .start (by decide) fun a t found => by
    match a, found with
    | 0, found =>
      cases found
      rfl

theorem twoTables_built : Built 0 twoTables :=
  .container oneTable_built (show appendContainer 0 ['a'] oneTable = .ok 1 twoTables from rfl)

theorem threeTables_built : Built 0 threeTables :=
  .container twoTables_built (show appendContainer 1 ['a'] twoTables = .ok 2 threeTables from rfl)

def innerPath : List Hop := [⟨outerTable, entryFor 1⟩, ⟨middleTable, entryFor 2⟩]

theorem innerPath_path : Path threeTables 0 innerPath 2 :=
  .cons rfl List.mem_cons_self rfl rfl (.cons rfl List.mem_cons_self rfl rfl (.nil 2))

/-- A table `b` in `a`. -/
def lowerEntry : Entry := { newEntry ['b'] .container with attributes := some 2 }

def nestedTables : Memory :=
  ⟨[some (.table outerTable), some (.table { middleTable with attrMap := [lowerEntry] }),
    some (.table { emptyTable with name := ['b'], parent := some 1 })]⟩

theorem nestedTables_built : Built 0 nestedTables :=
  .container twoTables_built (show appendContainer 1 ['b'] twoTables = .ok 2 nestedTables from rfl)

theorem nestedTables_single : OneOfAName nestedTables := by
  intro a t found e member e' member' _ _ _
  match a, found with
  | 0, found | 1, found =>
    cases found
    rw [List.mem_singleton.mp member, List.mem_singleton.mp member']
  | 2, found =>
    cases found
    cases member

def lowerPath : List Hop :=
  [⟨outerTable, entryFor 1⟩, ⟨{ middleTable with attrMap := [lowerEntry] }, lowerEntry⟩]

theorem middle_container_found :
    (findContainer nestedTables 4 0 ['a', '.', 'b'] = .ok (some 2) ∧
        ∀ t field e, tableAt nestedTables 2 = some t → Dotless field →
          t.simpleFind field = some e →
            find 0 nestedTables 0 (['a', '.', 'b'] ++ '.' :: field) = .ok (some (2, e))) ↔
      ∀ hop ∈ lowerPath, hop.table.name ≠ hop.entry.name :=
  container_found_iff 0 nestedTables_built nestedTables_single lowerPath
    (.cons rfl List.mem_cons_self rfl rfl (.cons rfl List.mem_cons_self rfl rfl (.nil 2)))
    (by simp [lowerPath]) (by simp [lowerPath, Dotless, lowerEntry, entryFor, newEntry])

/-- `a.a` is the outer of the two. -/
theorem inner_container_not_found :
    Built 0 threeTables ∧ Path threeTables 0 innerPath 2 ∧
      (∀ hop ∈ innerPath, Dotless hop.entry.name) ∧
      findContainer threeTables ((pathName innerPath).length + 1) 0 (pathName innerPath) =
        .ok (some 1) :=
  ⟨threeTables_built, innerPath_path, by simp [innerPath, Dotless, entryFor, newEntry], by rfl⟩

end Libdap.Guarantees.ContainerPaths
