import Mathlib.Data.List.Forall2
import Mathlib.Data.List.Nodup
import Mathlib.Data.List.TakeWhile
import Libdap.Source.AttributeTransfer

/-!
# Where the attributes of a DAS are after they were transferred

Every leaf of the DAS has one home: the table of a variable or of a part of a Grid, or the
global table of the DDS. On a regular DAS the tables hold exactly the leaves whose home
they are, unless a part of a Grid has the Grid's own name and the container of that name
has a leaf: the search from that container finds the container itself.
-/
namespace Libdap.Guarantees.AttributeTransfer
open Libdap.Source Libdap.Source.AttributeTransfer
open Libdap.Source.Attributes (AttrType removeSpaceEncoding typeToString stringToType splitFirst
  demand)

/-- An attribute that is no container, with the names of the tables on the way to it. -/
structure Leaf where
  path : List (List Char)
  type : AttrType
  attr : Option (List String)
  deriving DecidableEq, Repr

def Leaf.under (name : List Char) (l : Leaf) : Leaf := { l with path := name :: l.path }

/-- The leaf as it lies in the container `name`, if it lies there. -/
def Leaf.inside (name : List Char) (l : Leaf) : Option Leaf :=
  match l.path with
  | first :: next :: rest =>
    if first = name then some { l with path := next :: rest } else none
  | _ => none

mutual
def leavesOf : Attribute → List Leaf
  | .values name type _ attr => [{ path := [name], type, attr }]
  | .container name _ _ attrMap => (leaves attrMap).map (Leaf.under name)

def leaves : List Attribute → List Leaf
  | [] => []
  | e :: rest => leavesOf e ++ leaves rest
end

def insideAll (name : List Char) (ls : List Leaf) : List Leaf := ls.filterMap (Leaf.inside name)

/-- The leaves in none of the containers. -/
def outsideAll (names : List (List Char)) (ls : List Leaf) : List Leaf :=
  ls.filter fun l => names.all fun name => (l.inside name).isNone

def partsOf (g : Grid) : List Variable := g.arrayVar :: g.mapVars

/-- The table of the variable holds these leaves and no others. -/
def Holds (ls : List Leaf) (v v' : Variable) : Prop :=
  v'.name = v.name ∧ (leaves v'.attributes).Perm ls

/-- What the tables of one variable hold of the leaves of a DAS. -/
def Placed (ls : List Leaf) : Member → Member → Prop
  | .other v, .other v' => Holds (insideAll v.name ls) v v'
  | .grid g, .grid g' =>
    let own := insideAll g.var.name ls
    Holds (outsideAll ((partsOf g).map Variable.name) own) g.var g'.var ∧
      List.Forall₂ (fun part part' => Holds (insideAll part.name own) part part')
        (partsOf g) (partsOf g')
  | _, _ => False

def names (dds : DDS) : List (List Char) := dds.vars.map fun var => var.var.name

def TransfersOnce (garbage : Option (List String)) (das : DAS) (marks : Marks) (dds : DDS) :
    Prop :=
  ∃ dds' marks', dds.transferAttributes garbage das marks = .ok (dds', marks') ∧
    List.Forall₂ (Placed (leaves das.topLevel.attrMap)) dds.vars dds'.vars ∧
    (leaves dds'.attr).Perm (outsideAll (names dds) (leaves das.topLevel.attrMap))

def Dotless (name : List Char) : Prop := '.' ∉ name

mutual
/-- No name below has a dot. -/
def DotlessBelow : Attribute → Prop
  | .values name _ _ _ => Dotless name
  | .container name _ _ attrMap => Dotless name ∧ AllDotless attrMap

def AllDotless : List Attribute → Prop
  | [] => True
  | e :: rest => DotlessBelow e ∧ AllDotless rest
end

def Bare : Member → Prop
  | .other v => v.attributes = []
  | .grid g => g.var.attributes = [] ∧ ∀ part ∈ partsOf g, part.attributes = []

def PartsDiffer : Member → Prop
  | .other _ => True
  | .grid g => ((partsOf g).map Variable.name).Nodup

/-- A DAS with containers only at the top level and no dots in its names, and a DDS without
attributes and without a current container whose variables have distinct names. -/
structure InScope (das : DAS) (dds : DDS) : Prop where
  containers : ∀ e ∈ das.topLevel.attrMap, e.isContainer = true
  dotless : AllDotless das.topLevel.attrMap
  current : dds.container = false
  attr : dds.attr = []
  bare : ∀ var ∈ dds.vars, Bare var
  distinct : (names dds).Nodup
  parts : ∀ var ∈ dds.vars, PartsDiffer var

mutual
/-- A copy keeps the values of all leaves. -/
def Whole : Attribute → Prop
  | .values _ type _ attr => type ≠ .unknown ∧ attr.isSome
  | .container _ _ _ attrMap => AllWhole attrMap

def AllWhole : List Attribute → Prop
  | [] => True
  | e :: rest => Whole e ∧ AllWhole rest
end

/-- An entry that can be moved: of an attribute the values are appended, and only a container
is copied. -/
def Carried : Attribute → Prop
  | .values _ _ _ attr => attr.isSome
  | .container _ _ _ attrMap => AllWhole attrMap

def Distinct (es : List Attribute) : Prop := (es.map Attribute.name).Nodup

/-- No name twice, and containers that have the name of their table. -/
structure Listed (es : List Attribute) : Prop where
  distinct : Distinct es
  named : ∀ e ∈ es, ∀ t, e.table = some t → t.name = e.name

def addressOf : Attribute → Option Nat
  | .values _ _ _ _ => none
  | .container _ address _ _ => some address

def entriesOf : Attribute → List Attribute
  | .values _ _ _ _ => []
  | .container _ _ _ attrMap => attrMap

def addresses (es : List Attribute) : List Nat := es.flatMap fun e => (addressOf e).toList

def gridNames (vars : List Member) : List (List Char) :=
  vars.filterMap fun
    | .other _ => none
    | .grid g => some g.var.name

/-- The table of an entry, and those inside it if the parts of a Grid search it. -/
def territory (grids : List (List Char)) (e : Attribute) : List Nat :=
  (addressOf e).toList ++ if grids.contains e.name then addresses (entriesOf e) else []

/-- The name does not lead to another table as a path, as one with dots may. -/
def Searched (t : Table) (name : List Char) : Prop :=
  getAttrTable t name = .ok (simpleFindContainer t name)

/-- An entry that is stored under its name and can be moved. -/
def Stored (e : Attribute) : Prop := removeSpaceEncoding e.name = e.name ∧ Carried e

/-- A container that a part of a Grid is named after: its entries are moved, and it is not
copied itself, as no part has the Grid's name. -/
def Emptied (var : Member) (b : Attribute) : Prop :=
  ∃ g, var = .grid g ∧ (b.isContainer ∧ b.name ∈ (partsOf g).map Variable.name) ∧
    (∀ part ∈ partsOf g, part.name ≠ g.var.name) ∧ ∀ c ∈ entriesOf b, Carried c

/-- What a variable needs of the DAS: neither its name nor those of its parts lead
elsewhere, and the entries it is given have no name twice and can be moved. -/
structure Served (topLevel : Table) (var : Member) : Prop where
  unnamed : topLevel.name ≠ var.var.name
  searched : Searched topLevel var.var.name
  claims : ∀ e ∈ topLevel.attrMap, e.name = var.var.name → Distinct (entriesOf e)
  moved : ∀ e ∈ topLevel.attrMap, e.name = var.var.name →
    ∀ b ∈ entriesOf e, Stored b ∨ Emptied var b
  parts : ∀ g, var = .grid g → ∀ e ∈ topLevel.attrMap, e.name = g.var.name →
    ∀ at', e.table = some at' → ∀ part ∈ partsOf g, Searched at' part.name
  below : ∀ g, var = .grid g → ∀ e ∈ topLevel.attrMap, e.name = g.var.name →
    ∀ b ∈ entriesOf e, b.name ∈ (partsOf g).map Variable.name →
      Distinct (entriesOf b) ∧ ∀ c ∈ entriesOf b, removeSpaceEncoding c.name = c.name

/-- What no part of a Grid claims is marked. -/
def GridMarked (topLevel : Table) (marks : Marks) (g : Grid) : Prop :=
  ∀ e ∈ topLevel.attrMap, e.name = g.var.name → ∀ b ∈ entriesOf e,
    ¬ (b.isContainer ∧ b.name ∈ (partsOf g).map Variable.name) →
      isGlobalAttribute marks b = true

/-- What no variable is named after. -/
def unclaimed (dds : DDS) (es : List Attribute) : List Attribute :=
  es.filter fun e => !(e.isContainer && (names dds).contains e.name)

/-- No two entries with one table at the top level or among those that a Grid searches, no name
twice where entries are searched or appended, nothing that is stored under another name or
copied without its values, and the marks of a DAS that was not transferred before. -/
structure Regular (das : DAS) (marks : Marks) (dds : DDS) : Prop where
  listed : Listed das.topLevel.attrMap
  stored : ∀ e ∈ unclaimed dds das.topLevel.attrMap, Stored e
  single : (das.topLevel.attrMap.flatMap (territory (gridNames dds.vars))).Nodup
  marked : ∀ e ∈ das.topLevel.attrMap, e.name ∉ names dds → isGlobalAttribute marks e = true
  served : ∀ var ∈ dds.vars, Served das.topLevel var
  gridMarked : ∀ g, .grid g ∈ dds.vars → GridMarked das.topLevel marks g

/-- A part of a Grid with the Grid's name, and a leaf in the container of that name. -/
def NoNamesake (ls : List Leaf) : Member → Prop
  | .other _ => True
  | .grid g => ∀ part ∈ partsOf g, part.name = g.var.name → insideAll g.var.name ls = []

/-! ## Leaves -/

variable {es fs own : List Attribute} {e : Attribute} {name : List Char} {t at' : Table}

mutual
theorem leavesOf_path (e : Attribute) : ∀ l ∈ leavesOf e, l.path ≠ [] := by
  cases e with
  | values name type isGlobal attr => simp [leavesOf]
  | container name address tableName attrMap => simp [leavesOf, Leaf.under]

theorem leaves_path (es : List Attribute) : ∀ l ∈ leaves es, l.path ≠ [] := by
  cases es with
  | nil => simp [leaves]
  | cons e rest =>
    intro l mem
    rw [leaves, List.mem_append] at mem
    exact mem.elim (leavesOf_path e l) (leaves_path rest l)
end

theorem inside_under (name first : List Char) (l : Leaf) (deep : l.path ≠ []) :
    (l.under first).inside name = if first = name then some l else none := by
  unfold Leaf.under Leaf.inside
  cases path : l.path with
  | nil => exact absurd path deep
  | cons next rest =>
    dsimp only
    split
    · rw [← path]
    · rfl

theorem insideAll_under (name first : List Char) (es : List Attribute) :
    insideAll name ((leaves es).map (Leaf.under first)) =
      if first = name then leaves es else [] := by
  have each : ∀ l ∈ leaves es,
      (Leaf.inside name ∘ Leaf.under first) l = if first = name then some l else none :=
    fun l mem => inside_under name first l (leaves_path es l mem)
  rw [insideAll, List.filterMap_map, List.filterMap_congr each]
  split
  · exact List.filterMap_some
  · exact List.filterMap_none _

/-- The leaves of one entry in the container `name`. -/
theorem insideAll_leavesOf (name : List Char) (e : Attribute) :
    insideAll name (leavesOf e) =
      if e.isContainer ∧ e.name = name then leaves (entriesOf e) else [] := by
  cases e with
  | values first type isGlobal attr =>
    simp only [leavesOf, insideAll, Leaf.inside, entriesOf, leaves, List.filterMap_cons,
      List.filterMap_nil, ite_self]
  | container first address tableName attrMap =>
    rw [leavesOf, insideAll_under]
    simp only [Attribute.isContainer, Attribute.name, entriesOf, true_and]

theorem insideAll_leaves (name : List Char) (es : List Attribute) :
    insideAll name (leaves es) = es.flatMap fun e =>
      if e.isContainer ∧ e.name = name then leaves (entriesOf e) else [] := by
  induction es with
  | nil => rfl
  | cons e es ih =>
    rw [leaves, insideAll, List.filterMap_append, List.flatMap_cons, ← insideAll_leavesOf, ← ih]
    rfl

/-- The container that a search by name finds among entries. -/
def containerIn (es : List Attribute) (name : List Char) : Option Attribute :=
  es.find? fun e => e.isContainer && e.name = name

theorem insideAll_found (distinct : (es.map Attribute.name).Nodup) (name : List Char) :
    insideAll name (leaves es) =
      ((containerIn es name).elim [] fun e => leaves (entriesOf e)) := by
  induction es with
  | nil => rfl
  | cons e es ih =>
    rw [List.map_cons, List.nodup_cons] at distinct
    have rest := ih distinct.2
    rw [insideAll_leaves] at rest ⊢
    rw [List.flatMap_cons, containerIn, List.find?_cons]
    by_cases named : e.isContainer ∧ e.name = name
    · have none_later : (es.flatMap fun e =>
          if e.isContainer ∧ e.name = name then leaves (entriesOf e) else []) = [] := by
        rw [List.flatMap_eq_nil_iff]
        intro f mem
        rw [if_neg]
        intro same
        exact distinct.1 (named.2.trans same.2.symm ▸ List.mem_map_of_mem mem)
      simp [named, none_later]
    · have skipped : (e.isContainer && decide (e.name = name)) = false := by
        simpa using named
      rw [if_neg named, skipped, List.nil_append]
      exact rest

theorem outsideAll_leavesOf (ns : List (List Char)) (e : Attribute) :
    outsideAll ns (leavesOf e) =
      if e.isContainer ∧ e.name ∈ ns then [] else leavesOf e := by
  unfold outsideAll
  cases e with
  | values first type isGlobal attr =>
    rw [if_neg (by simp [Attribute.isContainer]), List.filter_eq_self]
    intro l mem
    rw [leavesOf, List.mem_singleton] at mem
    simp [mem, Leaf.inside]
  | container first address tableName attrMap =>
    simp only [Attribute.isContainer, Attribute.name, true_and, leavesOf]
    have each : ∀ l ∈ leaves attrMap, ∀ name,
        ((l.under first).inside name).isNone = true ↔ first ≠ name := by
      intro l mem name
      rw [inside_under name first l (leaves_path attrMap l mem)]
      split <;> simp [*]
    split
    · rename_i named
      rw [List.filter_eq_nil_iff]
      intro l mem all
      obtain ⟨l', mem', rfl⟩ := List.mem_map.mp mem
      rw [List.all_eq_true] at all
      exact (each l' mem' first).mp (all first named) rfl
    · rename_i other
      rw [List.filter_eq_self]
      intro l mem
      obtain ⟨l', mem', rfl⟩ := List.mem_map.mp mem
      rw [List.all_eq_true]
      intro name known
      exact (each l' mem' name).mpr fun same => other (same ▸ known)

theorem outsideAll_leaves (ns : List (List Char)) (es : List Attribute) :
    outsideAll ns (leaves es) =
      leaves (es.filter fun e => ¬ (e.isContainer ∧ e.name ∈ ns)) := by
  induction es with
  | nil => rfl
  | cons e es ih =>
    have first := outsideAll_leavesOf ns e
    unfold outsideAll at first ih ⊢
    rw [leaves, List.filter_append, first, ih]
    by_cases named : e.isContainer ∧ e.name ∈ ns
    · simp [named]
    · rw [if_neg named, List.filter_cons_of_pos (by simpa only [decide_eq_true_eq] using named), leaves]

/-- Each way into a container makes a path shorter. -/
theorem insideAll_perm_self {ls : List Leaf} (same : ls.Perm (insideAll name ls)) : ls = [] := by
  have shorter : ∀ ls : List Leaf,
      ((insideAll name ls).map fun l => l.path.length).sum + (insideAll name ls).length ≤
        (ls.map fun l => l.path.length).sum := by
    intro ls
    induction ls with
    | nil => simp [insideAll]
    | cons l ls ih =>
      unfold insideAll at ih ⊢
      rw [List.filterMap_cons]
      cases found : l.inside name with
      | none =>
        simp only [List.map_cons, List.sum_cons]
        omega
      | some l' =>
        have one : l'.path.length + 1 = l.path.length := by
          unfold Leaf.inside at found
          split at found
          · rename_i path
            split at found
            · cases found
              simp [path]
            · cases found
          · cases found
        simp only [List.map_cons, List.sum_cons, List.length_cons]
        omega
  have sums := (same.map fun l => l.path.length).sum_eq
  have bound := shorter ls
  have lengths := same.length_eq
  exact List.length_eq_zero_iff.mp (by omega)

/-! ## What each call does -/

theorem allWhole_iff : AllWhole es ↔ ∀ e ∈ es, Whole e := by
  induction es with
  | nil => simp [AllWhole]
  | cons e es ih => simp [AllWhole, ih]

theorem Whole.carried (whole : Whole e) : Carried e := by
  cases e with
  | values name type isGlobal attr =>
    rw [Whole] at whole
    exact whole.2
  | container name address tableName attrMap =>
    rw [Whole] at whole
    exact whole

theorem carried_below (carried : Carried e) : ∀ b ∈ entriesOf e, Carried b := by
  cases e with
  | values name type isGlobal attr => exact fun b mem => nomatch mem
  | container name address tableName attrMap =>
    exact fun b mem => (allWhole_iff.mp carried b mem).carried

theorem Distinct.filter (distinct : Distinct es) (keep : Attribute → Bool) :
    Distinct (es.filter keep) :=
  distinct.sublist (List.filter_sublist.map Attribute.name)

theorem stringToType_typeToString (type : AttrType) :
    stringToType (typeToString type).toList = type := by
  cases type <;> decide

section
variable (garbage : Option (List String))

/-- The entry that stands for `e` in another table. -/
def transferred : Attribute → Attribute
  | .values name type _ attr => .values name type true attr
  | .container name address _ attrMap => .container name address name (copyAll garbage attrMap)

theorem transferred_name (e : Attribute) : (transferred garbage e).name = e.name := by
  cases e <;> rfl

mutual
theorem leavesOf_copy (e : Attribute) (whole : Whole e) :
    leavesOf (e.copy garbage) = leavesOf e := by
  cases e with
  | values name type isGlobal attr =>
    rw [Whole] at whole
    rw [Attribute.copy, if_neg whole.1]
  | container name address tableName attrMap =>
    rw [Whole] at whole
    rw [Attribute.copy, leavesOf, leavesOf, leaves_copyAll attrMap whole]

theorem leaves_copyAll (es : List Attribute) (whole : AllWhole es) :
    leaves (copyAll garbage es) = leaves es := by
  cases es with
  | nil => rfl
  | cons e rest =>
    rw [AllWhole] at whole
    rw [copyAll, leaves, leaves, leavesOf_copy e whole.1, leaves_copyAll rest whole.2]
end

theorem leavesOf_transferred (carried : Carried e) :
    leavesOf (transferred garbage e) = leavesOf e := by
  cases e with
  | values name type isGlobal attr => rfl
  | container name address tableName attrMap =>
    rw [transferred, leavesOf, leavesOf, leaves_copyAll garbage attrMap carried]

theorem leaves_transferred (carried : ∀ e ∈ es, Carried e) :
    leaves (es.map (transferred garbage)) = leaves es := by
  induction es with
  | nil => rfl
  | cons e es ih =>
    rw [List.map_cons, leaves, leaves, leavesOf_transferred garbage (carried e List.mem_cons_self),
      ih fun b mem => carried b (List.mem_cons_of_mem e mem)]

theorem simpleFind_none (absent : name ∉ own.map Attribute.name) :
    simpleFind own name = none := by
  refine List.find?_eq_none.mpr fun e mem same => ?_
  exact absent (List.mem_map.mpr ⟨e, mem, of_decide_eq_true same⟩)

theorem appendCopy_ok (decoded : removeSpaceEncoding name = name)
    (absent : name ∉ own.map Attribute.name) (t : Table) :
    appendCopy garbage own t name =
      .ok (own ++ [.container name t.address name (copyAll garbage t.attrMap)]) := by
  rw [appendCopy, simpleFind_none absent, decoded, decoded]
  rfl

theorem transferEntry_ok (stored : Stored e)
    (absent : e.name ∉ own.map Attribute.name) :
    transferEntry garbage own e = .ok (own ++ [transferred garbage e]) := by
  cases e with
  | values name type isGlobal attr =>
    obtain ⟨decoded, carried⟩ := stored
    obtain ⟨values, set⟩ := Option.isSome_iff_exists.mp carried
    simp only [Attribute.name] at decoded absent
    have run : appendAttr own name (typeToString type).toList values =
        .ok (own ++ [.values name type true (some values)]) := by
      simp only [appendAttr, decoded, simpleFind_none absent,
        stringToType_typeToString]
      rfl
    rw [set]
    exact run
  | container name address tableName attrMap =>
    exact appendCopy_ok garbage stored.1 absent _

/-- Entries whose names the table does not have yet are appended in order. -/
theorem fold_appends (own : List Attribute) {f : List Attribute → Attribute → Except Failure (List Attribute)}
    {g : Attribute → Attribute} (named : ∀ e ∈ es, (g e).name = e.name)
    (turn : ∀ e ∈ es, ∀ own : List Attribute, e.name ∉ own.map Attribute.name →
      f own e = .ok (own ++ [g e]))
    (distinct : (es.map Attribute.name).Nodup)
    (apart : ∀ e ∈ es, e.name ∉ own.map Attribute.name) :
    es.foldlM f own = .ok (own ++ es.map g) := by
  induction es generalizing own with
  | nil =>
    rw [List.map_nil, List.append_nil]
    rfl
  | cons e es ih =>
    rw [List.map_cons, List.nodup_cons] at distinct
    have first : f own e = .ok (own ++ [g e]) :=
      turn e List.mem_cons_self own (apart e List.mem_cons_self)
    have later : ∀ e' ∈ es, e'.name ∉ (own ++ [g e]).map Attribute.name := by
      intro e' mem known
      rw [List.map_append, List.mem_append] at known
      cases known with
      | inl old => exact apart e' (List.mem_cons_of_mem e mem) old
      | inr new =>
        rw [List.map_singleton, List.mem_singleton, named e List.mem_cons_self] at new
        exact distinct.1 (new ▸ List.mem_map_of_mem mem)
    have rest := ih (own ++ [g e]) (fun e' mem => named e' (List.mem_cons_of_mem e mem))
      (fun e' mem => turn e' (List.mem_cons_of_mem e mem)) distinct.2 later
    rw [List.foldlM_cons, List.map_cons, List.append_cons, first]
    exact rest

theorem transferAll_ok (distinct : Distinct es) (stored : ∀ e ∈ es, Stored e) :
    es.foldlM (transferEntry garbage) [] = .ok (es.map (transferred garbage)) :=
  fold_appends [] (fun e _ => transferred_name garbage e)
    (fun e mem _ absent => transferEntry_ok garbage (stored e mem) absent) distinct
    fun _ _ => List.not_mem_nil

theorem splitFirst_dotless (dotless : Dotless name) : splitFirst name = none := by
  have all : name.span (fun c => c ≠ '.') = (name, []) := by
    rw [List.span_eq_takeWhile_dropWhile, List.takeWhile_eq_self_iff.mpr,
      List.dropWhile_eq_nil_iff.mpr]
    · intro c mem
      exact decide_eq_true fun same => dotless (same ▸ mem)
    · intro c mem
      exact decide_eq_true fun same => dotless (same ▸ mem)
  unfold splitFirst
  rw [all]

theorem searched_of_dotless (dotless : Dotless name) : Searched t name := by
  rw [Searched, getAttrTable, findContainer, splitFirst_dotless dotless]
  rfl

/-- The marks after the tables at `cleared` were claimed. -/
def lower (marks : Marks) (cleared : List Nat) : Marks :=
  fun a => if a ∈ cleared then false else marks a

theorem setIsGlobalAttribute_false (marks : Marks) (a : Nat) :
    setIsGlobalAttribute marks a false = lower marks [a] := by
  funext b
  simp [setIsGlobalAttribute, lower]

theorem lower_lower (marks : Marks) (cleared more : List Nat) :
    lower (lower marks cleared) more = lower marks (cleared ++ more) := by
  funext b
  unfold lower
  by_cases first : b ∈ cleared
  · simp [first]
  · simp [first]

/-- What a search leaves in the table of the variable that made it. -/
def moved (found : Option Table) : List Attribute :=
  found.elim [] fun at' => at'.attrMap.map (transferred garbage)

def claimed (found : Option Table) : List Nat := found.elim [] fun at' => [at'.address]

/-- The table that the search finds can be moved. -/
def Movable (t : Table) (name : List Char) : Prop :=
  ∀ at', simpleFindContainer t name = some at' →
    Distinct at'.attrMap ∧ ∀ e ∈ at'.attrMap, Stored e

def carried (t : Table) (v : Variable) : Variable :=
  { v with attributes := moved garbage (simpleFindContainer t v.name) }

def claims (t : Table) (v : Variable) : List Nat := claimed (simpleFindContainer t v.name)

theorem Variable.transferAttributes_ok {v : Variable} (marks : Marks)
    (bare : v.attributes = []) (searched : Searched t v.name) (movable : Movable t v.name) :
    v.transferAttributes garbage t marks =
      .ok (carried garbage t v, lower marks (claims t v)) := by
  unfold Variable.transferAttributes carried claims
  rw [searched]
  cases found : simpleFindContainer t v.name with
  | none =>
    have same : lower marks [] = marks := by
      funext a
      simp [lower]
    cases v
    cases bare
    exact congrArg (fun marks => Except.ok (_, marks)) same.symm
  | some at' =>
    have whole := movable at' found
    have run := transferAll_ok garbage whole.1 whole.2
    change (do
      let own ← at'.attrMap.foldlM (transferEntry garbage) v.attributes
      pure ({ v with attributes := own }, setIsGlobalAttribute marks at'.address false)) = _
    rw [bare, run, setIsGlobalAttribute_false]
    rfl

theorem transferMaps_ok {vs : List Variable} (marks : Marks)
    (ready : ∀ v ∈ vs, v.attributes = [] ∧ Searched t v.name ∧ Movable t v.name) :
    transferMaps garbage t vs marks =
      .ok (vs.map (carried garbage t), lower marks (vs.flatMap (claims t))) := by
  induction vs generalizing marks with
  | nil =>
    have same : lower marks [] = marks := by
      funext a
      simp [lower]
    exact congrArg (fun marks => Except.ok ([], marks)) same.symm
  | cons v vs ih =>
    have own := ready v List.mem_cons_self
    have first := Variable.transferAttributes_ok garbage marks own.1 own.2.1 own.2.2
    have rest := ih (lower marks (claims t v)) fun v' mem => ready v' (List.mem_cons_of_mem v mem)
    rw [transferMaps, first]
    simp only [bind, Except.bind, rest]
    rw [lower_lower]
    rfl

/-- What `Grid::transfer_attributes` leaves when it finds the table `at'`. -/
def carriedGrid (at' : Table) (marks : Marks) (g : Grid) : Grid :=
  { var := { g.var with attributes :=
      (at'.attrMap.filter (isGlobalAttribute marks)).map (transferred garbage) }
    arrayVar := carried garbage at' g.arrayVar
    mapVars := g.mapVars.map (carried garbage at') }

theorem partsOf_carriedGrid (at' : Table) (marks : Marks) (g : Grid) :
    partsOf (carriedGrid garbage at' marks g) = (partsOf g).map (carried garbage at') := rfl

/-- What a Grid claims in the table of its name. -/
def gridClaims (at' : Table) (g : Grid) : List Nat :=
  at'.address :: (partsOf g).flatMap (claims at')

theorem Grid.transferAttributes_ok {g : Grid} (marks : Marks) (searched : Searched t g.var.name)
    (bare : Bare (.grid g)) (found : simpleFindContainer t g.var.name = some at')
    (parts : ∀ v ∈ partsOf g, Searched at' v.name ∧ Movable at' v.name)
    (distinct : Distinct at'.attrMap) (stored : ∀ e ∈ at'.attrMap.filter
      (isGlobalAttribute (lower marks (gridClaims at' g))), Stored e) :
    g.transferAttributes garbage t marks =
      .ok (carriedGrid garbage at' (lower marks (gridClaims at' g)) g,
        lower marks (gridClaims at' g)) := by
  have ready : ∀ v ∈ partsOf g, v.attributes = [] ∧ Searched at' v.name ∧ Movable at' v.name :=
    fun v mem => ⟨bare.2 v mem, parts v mem⟩
  have array := ready g.arrayVar List.mem_cons_self
  have arrayRun := Variable.transferAttributes_ok garbage (lower marks [at'.address])
    array.1 array.2.1 array.2.2
  have mapsRun := transferMaps_ok garbage
    (lower (lower marks [at'.address]) (claims at' g.arrayVar))
    fun v mem => ready v (List.mem_cons_of_mem _ mem)
  have marked : lower (lower (lower marks [at'.address]) (claims at' g.arrayVar))
      (g.mapVars.flatMap (claims at')) = lower marks (gridClaims at' g) := by
    rw [lower_lower, lower_lower]
    rfl
  have ownRun := transferAll_ok garbage (distinct.filter (isGlobalAttribute
    (lower marks (gridClaims at' g)))) stored
  unfold Grid.transferAttributes
  rw [searched, found]
  simp only [bind, Except.bind, setIsGlobalAttribute_false, arrayRun, mapsRun, marked,
    bare.1, ownRun]
  rfl

end

/-! ## Searches -/

theorem table_some (found : e.table = some at') :
    e.isContainer = true ∧ addressOf e = some at'.address ∧ entriesOf e = at'.attrMap := by
  cases e with
  | values name type isGlobal attr => cases found
  | container name address tableName attrMap =>
    cases found
    exact ⟨rfl, rfl, rfl⟩

theorem containerIn_some (found : containerIn es name = some e) :
    e ∈ es ∧ e.isContainer = true ∧ e.name = name := by
  have test := List.find?_some found
  rw [Bool.and_eq_true, decide_eq_true_eq] at test
  exact ⟨List.mem_of_find?_eq_some found, test⟩

theorem containerIn_mem (distinct : (es.map Attribute.name).Nodup) (mem : e ∈ es)
    (container : e.isContainer = true) : containerIn es e.name = some e := by
  cases search : containerIn es e.name with
  | none =>
    have missed := List.find?_eq_none.mp search e mem
    simp [container] at missed
  | some f =>
    have other := containerIn_some search
    exact congrArg some (List.inj_on_of_nodup_map distinct other.1 mem other.2.2)

theorem search_container (unnamed : t.name ≠ name) :
    simpleFindContainer t name = (containerIn t.attrMap name).bind Attribute.table := by
  rw [simpleFindContainer, if_neg unnamed]
  rfl

theorem search_entry (unnamed : t.name ≠ name)
    (found : simpleFindContainer t name = some at') :
    ∃ e ∈ t.attrMap, e.name = name ∧ e.table = some at' := by
  rw [search_container unnamed, Option.bind_eq_some_iff] at found
  obtain ⟨e, search, table⟩ := found
  have entry := containerIn_some search
  exact ⟨e, entry.1, entry.2.2, table⟩

/-- An address is found in one place only. -/
theorem unique_home {f : Attribute → List Nat} (single : (es.flatMap f).Nodup) {e' : Attribute}
    (mem : e ∈ es) (mem' : e' ∈ es) {a : Nat} (home : a ∈ f e) (home' : a ∈ f e') : e = e' := by
  by_contra differ
  have symmetric : Std.Symm (Function.onFun List.Disjoint f) :=
    ⟨fun _ _ disjoint => List.Disjoint.symm disjoint⟩
  have apart := (List.nodup_flatMap.mp single).2.forall mem mem' differ
  exact apart home home'

theorem leaves_moved (garbage : Option (List String))
    (distinct : (t.attrMap.map Attribute.name).Nodup) (movable : Movable t name) :
    leaves (moved garbage (simpleFindContainer t name)) =
      if t.name = name then leaves t.attrMap else insideAll name (leaves t.attrMap) := by
  split
  · rename_i same
    have found : simpleFindContainer t name = some t := by rw [simpleFindContainer, if_pos same]
    rw [found]
    exact leaves_transferred garbage fun e mem => ((movable t found).2 e mem).2
  · rename_i unnamed
    rw [insideAll_found distinct]
    cases search : containerIn t.attrMap name with
    | none =>
      rw [search_container unnamed, search]
      rfl
    | some e =>
      have entry := containerIn_some search
      cases e with
      | values name type isGlobal attr => cases entry.2.1
      | container first address tableName attrMap =>
        have found : simpleFindContainer t name =
            some { address, name := tableName, attrMap } := by
          rw [search_container unnamed, search]
          rfl
        rw [found]
        exact leaves_transferred garbage fun e mem => ((movable _ found).2 e mem).2

theorem leaves_filter_nil (keep : Attribute → Bool) (empty : leaves es = []) :
    leaves (es.filter keep) = [] := by
  induction es with
  | nil => rfl
  | cons e es ih =>
    rw [leaves, List.append_eq_nil_iff] at empty
    rw [List.filter_cons]
    split
    · rw [leaves, empty.1, ih empty.2]
      rfl
    · exact ih empty.2

/-! ## One variable -/

section
variable (garbage : Option (List String))

def memberClaims (t : Table) : Member → List Nat
  | .other v => claims t v
  | .grid g => (simpleFindContainer t g.var.name).elim [] fun at' => gridClaims at' g

def carriedMember (t : Table) (marks : Marks) : Member → Member
  | .other v => .other (carried garbage t v)
  | .grid g => .grid ((simpleFindContainer t g.var.name).elim g fun at' =>
      carriedGrid garbage at' (lower marks (gridClaims at' g)) g)

theorem lower_nil (marks : Marks) : lower marks [] = marks := by
  funext a
  simp [lower]

/-- What the top-level search of a variable leads to. -/
structure Led (t : Table) (var : Member) (e : Attribute) (at' : Table) : Prop where
  mem : e ∈ t.attrMap
  name : e.name = var.var.name
  table : e.table = some at'
  named : at'.name = var.var.name
  distinct : Distinct at'.attrMap
  moved : ∀ b ∈ at'.attrMap, Stored b ∨ Emptied var b

theorem led_of_found {var : Member} (served : Served t var) (listed : Listed t.attrMap)
    (found : simpleFindContainer t var.var.name = some at') :
    ∃ e, Led t var e at' := by
  obtain ⟨e, mem, named, table⟩ := search_entry served.unnamed found
  have below := table_some table
  exact ⟨e, mem, named, table, (listed.named e mem at' table).trans named,
    below.2.2 ▸ served.claims e mem named, below.2.2 ▸ served.moved e mem named⟩

theorem movable_top {v : Variable} (served : Served t (.other v)) (listed : Listed t.attrMap) :
    Movable t v.name := by
  intro at' found
  obtain ⟨e, led⟩ := led_of_found served listed found
  refine ⟨led.distinct, fun b mem => (led.moved b mem).resolve_right ?_⟩
  rintro ⟨g, same, _⟩
  cases same

theorem mem_claims {v : Variable} (distinct : (t.attrMap.map Attribute.name).Nodup)
    (other : t.name ≠ v.name) (mem : e ∈ t.attrMap) (named : e.name = v.name) {a : Nat}
    (address : addressOf e = some a) : a ∈ claims t v := by
  cases e with
  | values name type isGlobal attr => cases address
  | container name there tableName attrMap =>
    cases address
    have search := containerIn_mem distinct mem rfl
    have found : simpleFindContainer t v.name =
        some { address := a, name := tableName, attrMap } := by
      rw [search_container other, ← named, search]
      rfl
    rw [claims, found]
    exact List.mem_singleton_self a

/-- What a Grid is left with can be moved. -/
theorem left_stored {g : Grid} (marks : Marks) (led : Led t (.grid g) e at') :
    ∀ b ∈ at'.attrMap.filter (isGlobalAttribute (lower marks (gridClaims at' g))), Stored b := by
  intro b mem
  obtain ⟨inside, left⟩ := List.mem_filter.mp mem
  rcases led.moved b inside with stored | ⟨g', same, claimed, apart, _⟩
  · exact stored
  · cases same
    obtain ⟨container, named⟩ := claimed
    obtain ⟨v, part, name⟩ := List.mem_map.mp named
    have other : at'.name ≠ v.name := led.named ▸ (apart v part).symm
    cases b with
    | values _ _ _ _ => cases container
    | container n address tableName attrMap =>
      have claim : address ∈ gridClaims at' g := List.mem_cons_of_mem _
        (List.mem_flatMap.mpr ⟨v, part, mem_claims led.distinct other inside name.symm rfl⟩)
      simp [isGlobalAttribute, lower, claim] at left

theorem movable_part {g : Grid} {v : Variable} (served : Served t (.grid g))
    (led : Led t (.grid g) e at') (part : v ∈ partsOf g) : Movable at' v.name := by
  intro under found
  by_cases same : at'.name = v.name
  · rw [simpleFindContainer, if_pos same, Option.some.injEq] at found
    refine found ▸ ⟨led.distinct, fun b mem => (led.moved b mem).resolve_right ?_⟩
    rintro ⟨g', grid, _, apart, _⟩
    cases grid
    exact apart v part (same.symm.trans led.named)
  · obtain ⟨b, mem, named, table⟩ := search_entry same found
    have inside : b ∈ entriesOf e := (table_some led.table).2.2 ▸ mem
    have below := served.below g rfl e led.mem led.name b inside
      (List.mem_map.mpr ⟨v, part, named.symm⟩)
    have carried : ∀ c ∈ entriesOf b, Carried c := by
      rcases led.moved b mem with stored | ⟨_, _, _, _, carried⟩
      · exact carried_below stored.2
      · exact carried
    have entries := (table_some table).2.2
    rw [← entries]
    exact ⟨below.1, fun c there => ⟨below.2 c there, carried c there⟩⟩

theorem Member.transferAttributes_ok {var : Member} (marks : Marks) (bare : Bare var)
    (served : Served t var) (listed : Listed t.attrMap) :
    var.transferAttributes garbage t marks =
      .ok (carriedMember garbage t marks var, lower marks (memberClaims t var)) := by
  cases var with
  | other v =>
    have run := Variable.transferAttributes_ok garbage marks bare served.searched
      (movable_top served listed)
    rw [Member.transferAttributes, run]
    rfl
  | grid g =>
    rw [Member.transferAttributes, carriedMember, memberClaims]
    cases found : simpleFindContainer t g.var.name with
    | none =>
      have run : g.transferAttributes garbage t marks = .ok (g, marks) := by
        have searched : getAttrTable t g.var.name = .ok none :=
          served.searched.trans (congrArg Except.ok found)
        rw [Grid.transferAttributes, searched]
        rfl
      rw [run]
      dsimp only [Option.elim]
      rw [lower_nil]
      rfl
    | some at' =>
      obtain ⟨e, led⟩ := led_of_found served listed found
      have run := Grid.transferAttributes_ok garbage marks served.searched bare found
        (fun v part => ⟨served.parts g rfl e led.mem led.name at' led.table v part,
          movable_part served led part⟩)
        led.distinct (left_stored marks led)
      rw [run]
      rfl

theorem claims_home {v : Variable} (a : Nat) (claim : a ∈ claims t v) :
    a = t.address ∨ ∃ e ∈ t.attrMap, e.name = v.name ∧ addressOf e = some a := by
  unfold claims claimed at claim
  cases found : simpleFindContainer t v.name with
  | none =>
    rw [found] at claim
    cases claim
  | some at' =>
    rw [found] at claim
    have here : a = at'.address := List.mem_singleton.mp claim
    by_cases same : t.name = v.name
    · rw [simpleFindContainer, if_pos same, Option.some.injEq] at found
      exact .inl (found ▸ here)
    · obtain ⟨e, mem, named, table⟩ := search_entry same found
      exact .inr ⟨e, mem, named, here ▸ (table_some table).2.1⟩

theorem mem_addresses {a : Nat} : a ∈ addresses es ↔ ∃ e ∈ es, addressOf e = some a := by
  simp [addresses]

theorem gridNames_mem {vars : List Member} {g : Grid} (mem : .grid g ∈ vars) :
    g.var.name ∈ gridNames vars :=
  List.mem_filterMap.mpr ⟨_, mem, rfl⟩

/-- A variable claims nothing outside the entry of its name. -/
theorem memberClaims_home {var : Member} (served : Served t var) {grids : List (List Char)}
    (known : ∀ g, var = .grid g → g.var.name ∈ grids) {a : Nat}
    (claim : a ∈ memberClaims t var) :
    ∃ e ∈ t.attrMap, e.name = var.var.name ∧ a ∈ territory grids e := by
  cases var with
  | other v =>
    cases found : simpleFindContainer t v.name with
    | none =>
      rw [memberClaims, claims, found] at claim
      cases claim
    | some at' =>
      obtain ⟨e, mem, named, table⟩ := search_entry served.unnamed found
      rw [memberClaims, claims, found] at claim
      have here : a = at'.address := List.mem_singleton.mp claim
      refine ⟨e, mem, named, List.mem_append_left _ ?_⟩
      rw [(table_some table).2.1, here]
      exact List.mem_singleton_self _
  | grid g =>
    rw [memberClaims] at claim
    cases found : simpleFindContainer t g.var.name with
    | none =>
      rw [found] at claim
      cases claim
    | some at' =>
      rw [found] at claim
      obtain ⟨e, mem, named, table⟩ := search_entry served.unnamed found
      have below := table_some table
      have own : at'.address ∈ territory grids e := by
        apply List.mem_append_left _
        rw [below.2.1]
        exact List.mem_singleton_self _
      refine ⟨e, mem, named, ?_⟩
      cases claim with
      | head => exact own
      | tail _ parts =>
        obtain ⟨v, part, claim⟩ := List.mem_flatMap.mp parts
        cases claims_home a claim with
        | inl self => exact self ▸ own
        | inr sub =>
          obtain ⟨b, inside, _, address⟩ := sub
          have searched : grids.contains e.name = true :=
            List.contains_iff_mem.mpr (named ▸ known g rfl)
          refine List.mem_append_right _ ?_
          rw [if_pos searched, below.2.2]
          exact mem_addresses.mpr ⟨b, inside, address⟩

/-- Only the marks of what a Grid may claim decide what it is left with. -/
theorem carriedMember_congr {var : Member} {marks marks' : Marks} (served : Served t var)
    {grids : List (List Char)} (known : ∀ g, var = .grid g → g.var.name ∈ grids)
    (agree : ∀ e ∈ t.attrMap, e.name = var.var.name →
      ∀ a ∈ territory grids e, marks a = marks' a) :
    carriedMember garbage t marks var = carriedMember garbage t marks' var := by
  cases var with
  | other v => rfl
  | grid g =>
    simp only [carriedMember]
    cases found : simpleFindContainer t g.var.name with
    | none => rfl
    | some at' =>
      obtain ⟨e, mem, named, table⟩ := search_entry served.unnamed found
      have below := (table_some table).2.2
      have same : at'.attrMap.filter (isGlobalAttribute (lower marks (gridClaims at' g))) =
          at'.attrMap.filter (isGlobalAttribute (lower marks' (gridClaims at' g))) := by
        refine List.filter_congr fun b inside => ?_
        cases b with
        | values name type isGlobal attr => rfl
        | container name address tableName attrMap =>
          have searched : grids.contains e.name = true :=
            List.contains_iff_mem.mpr (named ▸ known g rfl)
          have home : address ∈ territory grids e := by
            refine List.mem_append_right _ ?_
            rw [if_pos searched, below]
            exact mem_addresses.mpr ⟨_, inside, rfl⟩
          simp only [isGlobalAttribute, lower, agree e mem named address home]
      simp only [carriedGrid, same, Option.elim]

theorem transferMembers_ok {vars : List Member} (marks : Marks) (bare : ∀ var ∈ vars, Bare var)
    (served : ∀ var ∈ vars, Served t var) (listed : Listed t.attrMap)
    {grids : List (List Char)} (known : ∀ g, .grid g ∈ vars → g.var.name ∈ grids)
    (single : (t.attrMap.flatMap (territory grids)).Nodup)
    (distinct : (vars.map fun var => var.var.name).Nodup) :
    transferMembers garbage t vars marks =
      .ok (vars.map (carriedMember garbage t marks),
        lower marks (vars.flatMap (memberClaims t))) := by
  induction vars generalizing marks with
  | nil =>
    rw [List.flatMap_nil, lower_nil]
    rfl
  | cons var vars ih =>
    rw [List.map_cons, List.nodup_cons] at distinct
    have own := served var List.mem_cons_self
    have later : ∀ var' ∈ vars, Served t var' := fun var' mem =>
      served var' (List.mem_cons_of_mem var mem)
    have first := Member.transferAttributes_ok garbage marks (bare var List.mem_cons_self) own
      listed
    have rest := ih (lower marks (memberClaims t var))
      (fun var' mem => bare var' (List.mem_cons_of_mem var mem)) later
      (fun g mem => known g (List.mem_cons_of_mem var mem)) distinct.2
    -- What `var` claims belongs to the entry of its name, which no later variable is given.
    have same : vars.map (carriedMember garbage t (lower marks (memberClaims t var))) =
        vars.map (carriedMember garbage t marks) := by
      refine List.map_congr_left fun var' mem' => carriedMember_congr garbage (later var' mem')
        (fun g same => known g (List.mem_cons_of_mem var (same ▸ mem'))) ?_
      intro e mem named a home
      have unclaimed : a ∉ memberClaims t var := by
        intro claim
        obtain ⟨e', there, named', home'⟩ := memberClaims_home own
          (fun g same => known g (same ▸ List.mem_cons_self)) claim
        have one := unique_home single mem there home home'
        refine distinct.1 (List.mem_map.mpr ⟨var', mem', ?_⟩)
        rw [← named, ← named', one]
      rw [lower, if_neg unclaimed]
    rw [transferMembers, first]
    simp only [bind, Except.bind, rest, same, lower_lower]
    rfl

theorem transferGlobal_ok (marks : Marks) (containers : ∀ e ∈ es, e.isContainer = true)
    (listed : Listed es) (stored : ∀ e ∈ es.filter (isGlobalAttribute marks), Stored e) :
    es.foldlM (transferGlobal garbage marks) [] =
      .ok ((es.filter (isGlobalAttribute marks)).map (transferred garbage)) := by
  have skips : ∀ own : List Attribute, es.foldlM (transferGlobal garbage marks) own =
      (es.filter (isGlobalAttribute marks)).foldlM (transferEntry garbage) own := by
    have named := listed.named
    clear stored listed
    induction es with
    | nil => exact fun own => rfl
    | cons e es ih =>
      intro own
      have rest := ih (fun f mem => containers f (List.mem_cons_of_mem e mem))
        fun f mem => named f (List.mem_cons_of_mem e mem)
      cases e with
      | values name type isGlobal attr => cases containers _ List.mem_cons_self
      | container name address tableName attrMap =>
        have same : tableName = name := named _ List.mem_cons_self _ rfl
        rw [List.foldlM_cons, List.filter_cons]
        by_cases marked : marks address = true
        · simp only [isGlobalAttribute, marked, if_true, List.foldlM_cons, transferGlobal,
            transferEntry, same]
          exact congrArg _ (funext rest)
        · simp only [isGlobalAttribute, marked, transferGlobal]
          exact rest own
  rw [skips]
  exact transferAll_ok garbage (listed.distinct.filter _) stored

/-! ## What the tables hold -/

/-- With no namesake, a Grid is left with what none of its parts is named after. -/
theorem marked_iff {g : Grid} {marks : Marks} (led : Led t (.grid g) e at')
    {grids : List (List Char)} (known : g.var.name ∈ grids)
    (single : (territory grids e).Nodup) (marked : GridMarked t marks g)
    (other : ∀ v ∈ partsOf g, v.name ≠ g.var.name) {b : Attribute} (mem : b ∈ at'.attrMap) :
    isGlobalAttribute (lower marks (gridClaims at' g)) b = true ↔
      ¬ (b.isContainer ∧ b.name ∈ (partsOf g).map Variable.name) := by
  have below := table_some led.table
  have inside : b ∈ entriesOf e := below.2.2 ▸ mem
  cases b with
  | values name type isGlobal attr =>
    have kept := marked e led.mem led.name _ inside
    simpa [isGlobalAttribute, Attribute.isContainer] using kept
  | container name address tableName attrMap =>
    simp only [isGlobalAttribute, Attribute.isContainer, Attribute.name, true_and]
    constructor
    · intro still known
      obtain ⟨v, part, named⟩ := List.mem_map.mp known
      have different : at'.name ≠ v.name := fun same => other v part (same ▸ led.named)
      have claim : address ∈ gridClaims at' g :=
        List.mem_cons_of_mem _ (List.mem_flatMap.mpr
          ⟨v, part, mem_claims led.distinct different mem named.symm rfl⟩)
      rw [lower, if_pos claim] at still
      cases still
    · intro unknown
      have searched : grids.contains e.name = true :=
        List.contains_iff_mem.mpr (led.name ▸ known)
      rw [territory, below.2.1, if_pos searched, List.nodup_append] at single
      have sub : address ∈ addresses (entriesOf e) := mem_addresses.mpr ⟨_, inside, rfl⟩
      have unclaimed : address ∉ gridClaims at' g := by
        intro claim
        cases claim with
        | head => exact single.2.2 _ (List.mem_singleton_self _) _ sub rfl
        | tail _ parts =>
          obtain ⟨v, part, claim⟩ := List.mem_flatMap.mp parts
          cases claims_home address claim with
          | inl self =>
            exact single.2.2 _ (List.mem_singleton_self _) _ sub self.symm
          | inr found =>
            obtain ⟨c, there, named, home⟩ := found
            have one := unique_home single.2.1 inside (below.2.2 ▸ there)
              (show address ∈ (some address).toList from List.mem_singleton_self _)
              (home ▸ List.mem_singleton_self _)
            exact unknown (List.mem_map.mpr ⟨v, part, by rw [← named, ← one]; rfl⟩)
      have kept := marked e led.mem led.name _ inside (fun named => unknown named.2)
      rw [lower, if_neg unclaimed]
      exact kept

theorem holds_carried {v : Variable} {ls : List Leaf}
    (distinct : (t.attrMap.map Attribute.name).Nodup) (movable : Movable t v.name)
    (same : (if t.name = v.name then leaves t.attrMap
      else insideAll v.name (leaves t.attrMap)) = ls) :
    Holds ls v (carried garbage t v) :=
  ⟨rfl, same ▸ leaves_moved garbage distinct movable ▸ .refl _⟩

theorem leaves_top {var : Member} (served : Served t var) (listed : Listed t.attrMap) :
    insideAll var.var.name (leaves t.attrMap) =
      (simpleFindContainer t var.var.name).elim [] fun at' => leaves at'.attrMap := by
  rw [insideAll_found listed.distinct, search_container served.unnamed]
  cases search : containerIn t.attrMap var.var.name with
  | none => rfl
  | some e =>
    cases e with
    | values name type isGlobal attr => cases (containerIn_some search).2.1
    | container name address tableName attrMap => rfl

/-- A variable other than a Grid with a namesake is given its leaves and no others. -/
theorem placed_iff {var : Member} {marks : Marks} (bare : Bare var) (served : Served t var)
    (listed : Listed t.attrMap) {grids : List (List Char)}
    (known : ∀ g, var = .grid g → g.var.name ∈ grids)
    (single : (t.attrMap.flatMap (territory grids)).Nodup)
    (marked : ∀ g, var = .grid g → GridMarked t marks g) :
    Placed (leaves t.attrMap) var (carriedMember garbage t marks var) ↔
      NoNamesake (leaves t.attrMap) var := by
  cases var with
  | other v =>
    refine iff_of_true ?_ trivial
    exact holds_carried garbage listed.distinct (movable_top served listed)
      (if_neg served.unnamed)
  | grid g =>
    have top := leaves_top served listed
    simp only [Member.var] at top
    simp only [carriedMember, Placed, NoNamesake]
    cases found : simpleFindContainer t g.var.name with
    | none =>
      rw [found] at top
      rw [top]
      refine iff_of_true ⟨⟨rfl, ?_⟩, List.forall₂_same.mpr fun v part => ⟨rfl, ?_⟩⟩
        fun _ _ _ => rfl
      · rw [Option.elim, bare.1]
        exact .refl _
      · rw [bare.2 v part]
        exact .refl _
    | some at' =>
      obtain ⟨e, led⟩ := led_of_found served listed found
      have entries := (table_some led.table).2.2
      rw [found, Option.elim] at top
      have territorySingle := (List.nodup_flatMap.mp single).1 e led.mem
      rw [top, Option.elim, partsOf_carriedGrid, List.forall₂_map_right_iff, List.forall₂_same]
      constructor
      · intro placed v part namesake
        have held := (placed.2 v part).2
        rw [carried, leaves_moved garbage led.distinct (movable_part served led part),
          if_pos (led.named.trans namesake.symm)] at held
        exact insideAll_perm_self held
      · intro none_named
        have parts : ∀ v ∈ partsOf g,
            Holds (insideAll v.name (leaves at'.attrMap)) v (carried garbage at' v) := by
          intro v part
          apply holds_carried garbage led.distinct (movable_part served led part)
          split
          · rename_i same
            rw [none_named v part (same.symm.trans led.named)]
            rfl
          · rfl
        refine ⟨⟨rfl, ?_⟩, parts⟩
        simp only [carriedGrid]
        rw [leaves_transferred garbage fun b mem => (left_stored marks led b mem).2,
          outsideAll_leaves]
        by_cases namesake : ∃ v ∈ partsOf g, v.name = g.var.name
        · obtain ⟨v, part, named⟩ := namesake
          have empty := none_named v part named
          rw [leaves_filter_nil _ empty, leaves_filter_nil _ empty]
        · have other : ∀ v ∈ partsOf g, v.name ≠ g.var.name :=
            fun v part named => namesake ⟨v, part, named⟩
          have same : at'.attrMap.filter (isGlobalAttribute (lower marks (gridClaims at' g))) =
              at'.attrMap.filter fun b =>
                ¬ (b.isContainer ∧ b.name ∈ (partsOf g).map Variable.name) := by
            refine List.filter_congr fun b mem => ?_
            rw [Bool.eq_iff_iff, decide_eq_true_eq]
            exact marked_iff led (known g rfl) territorySingle (marked g rfl) other mem
          rw [same]

end

variable {garbage : Option (List String)} {das : DAS} {marks : Marks} {dds : DDS}

/-- What no variable is named after is still marked when the variables are done. -/
theorem globals_iff (containers : ∀ e ∈ das.topLevel.attrMap, e.isContainer = true)
    (regular : Regular das marks dds) (mem : e ∈ das.topLevel.attrMap) :
    isGlobalAttribute (lower marks (dds.vars.flatMap (memberClaims das.topLevel))) e = true ↔
      ¬ (e.isContainer ∧ e.name ∈ names dds) := by
  have container := containers e mem
  cases e with
  | values name type isGlobal attr => cases container
  | container name address tableName attrMap =>
    have own : address ∈ territory (gridNames dds.vars)
        (.container name address tableName attrMap) :=
      List.mem_append_left _ (List.mem_singleton_self address)
    simp only [isGlobalAttribute, Attribute.isContainer, Attribute.name, true_and]
    constructor
    · intro still known
      obtain ⟨var, member, named⟩ := List.mem_map.mp known
      have served := regular.served var member
      have search := containerIn_mem regular.listed.distinct mem rfl
      have found : simpleFindContainer das.topLevel var.var.name =
          some { address, name := tableName, attrMap } := by
        rw [search_container served.unnamed, named]
        simp only [Attribute.name] at search
        rw [search]
        rfl
      have claim : address ∈ memberClaims das.topLevel var := by
        cases var with
        | other v =>
          rw [Member.var] at found
          rw [memberClaims, claims, found]
          exact List.mem_singleton_self address
        | grid g =>
          rw [Member.var] at found
          rw [memberClaims, found]
          exact List.mem_cons_self
      rw [lower, if_pos (List.mem_flatMap.mpr ⟨var, member, claim⟩)] at still
      cases still
    · intro unknown
      have unclaimed : address ∉ dds.vars.flatMap (memberClaims das.topLevel) := by
        intro claim
        obtain ⟨var, member, claim⟩ := List.mem_flatMap.mp claim
        obtain ⟨e', there, named, home⟩ := memberClaims_home (regular.served var member)
          (fun g same => gridNames_mem (same ▸ member)) claim
        have one := unique_home regular.single mem there own home
        exact unknown (List.mem_map.mpr ⟨var, member, by rw [← named, ← one]; rfl⟩)
      rw [lower, if_neg unclaimed]
      exact regular.marked _ mem unknown

theorem unclaimed_eq (dds : DDS) (es : List Attribute) :
    unclaimed dds es = es.filter fun e => ¬ (e.isContainer ∧ e.name ∈ names dds) := by
  refine List.filter_congr fun e _ => ?_
  simp

theorem filter_globals (containers : ∀ e ∈ das.topLevel.attrMap, e.isContainer = true)
    (regular : Regular das marks dds) :
    das.topLevel.attrMap.filter
        (isGlobalAttribute (lower marks (dds.vars.flatMap (memberClaims das.topLevel)))) =
      unclaimed dds das.topLevel.attrMap := by
  rw [unclaimed_eq]
  refine List.filter_congr fun e mem => ?_
  rw [Bool.eq_iff_iff, decide_eq_true_eq]
  exact globals_iff containers regular mem

/-- The DDS after the transfer. -/
def carriedDDS (garbage : Option (List String)) (das : DAS) (marks : Marks) (dds : DDS) : DDS :=
  { dds with
    vars := dds.vars.map (carriedMember garbage das.topLevel marks)
    attr := (das.topLevel.attrMap.filter (isGlobalAttribute
      (lower marks (dds.vars.flatMap (memberClaims das.topLevel))))).map (transferred garbage) }

theorem transferAttributes_ok (garbage : Option (List String))
    (containers : ∀ e ∈ das.topLevel.attrMap, e.isContainer = true)
    (current : dds.container = false) (attr : dds.attr = []) (bare : ∀ var ∈ dds.vars, Bare var)
    (distinct : (names dds).Nodup) (regular : Regular das marks dds) :
    dds.transferAttributes garbage das marks = .ok (carriedDDS garbage das marks dds,
      lower marks (dds.vars.flatMap (memberClaims das.topLevel))) := by
  have members := transferMembers_ok garbage marks bare regular.served regular.listed
    (fun _ => gridNames_mem) regular.single distinct
  have left := filter_globals containers regular
  have globals := transferGlobal_ok garbage
    (lower marks (dds.vars.flatMap (memberClaims das.topLevel))) containers
    regular.listed (left ▸ regular.stored)
  rw [DDS.transferAttributes, if_neg (by simp [current]), members]
  simp only [bind, Except.bind, attr, globals]
  rfl

theorem inside_other {l : Leaf} {other : List Char} (differ : other ≠ name)
    (here : (l.inside name).isSome) : l.inside other = none := by
  unfold Leaf.inside at here ⊢
  split
  · rename_i path
    rw [path] at here
    dsimp only at here
    split at here
    · rename_i first
      rw [if_neg]
      exact fun same => differ (same.symm.trans first)
    · cases here
  · rfl

theorem insideAll_outside (ls : List Leaf) {other : List Char} (differ : other ≠ name) :
    insideAll other (outsideAll [name] ls) = insideAll other ls := by
  unfold insideAll outsideAll
  rw [List.filterMap_filter]
  refine List.filterMap_congr fun l _ => ?_
  split
  · rfl
  · rename_i here
    rw [inside_other differ]
    simpa [Option.isSome_iff_ne_none] using here

theorem inside_or_outside (name : List Char) (ls : List Leaf) :
    (outsideAll [name] ls).length + (insideAll name ls).length = ls.length := by
  induction ls with
  | nil => rfl
  | cons l ls ih =>
    unfold outsideAll insideAll at ih ⊢
    rw [List.filter_cons, List.filterMap_cons]
    cases found : l.inside name with
    | none =>
      simp only [List.all_cons, List.all_nil, Bool.and_true] at ih ⊢
      rw [if_pos (found ▸ rfl), List.length_cons, List.length_cons]
      omega
    | some l' =>
      simp only [List.all_cons, List.all_nil, Bool.and_true] at ih ⊢
      rw [if_neg (by simp [found]), List.length_cons, List.length_cons]
      omega

/-- Every leaf is in one of the containers or in none. -/
theorem one_home {ns : List (List Char)} (distinct : ns.Nodup) (ls : List Leaf) :
    (outsideAll ns ls).length + (ns.map fun name => (insideAll name ls).length).sum =
      ls.length := by
  induction ns generalizing ls with
  | nil => simp [outsideAll]
  | cons name ns ih =>
    rw [List.nodup_cons] at distinct
    have rest := ih distinct.2 (outsideAll [name] ls)
    have shrunk : outsideAll ns (outsideAll [name] ls) = outsideAll (name :: ns) ls := by
      unfold outsideAll
      rw [List.filter_filter]
      refine List.filter_congr fun l _ => ?_
      simp [Bool.and_comm]
    have later : (ns.map fun other => (insideAll other (outsideAll [name] ls)).length) =
        ns.map fun other => (insideAll other ls).length := by
      refine List.map_congr_left fun other mem => ?_
      have differ : other ≠ name := fun same => distinct.1 (same ▸ mem)
      rw [insideAll_outside ls differ]
    have first := inside_or_outside name ls
    rw [shrunk, later] at rest
    rw [List.map_cons, List.sum_cons]
    omega

def heldBy : Member → Nat
  | .other v => (leaves v.attributes).length
  | .grid g => (leaves g.var.attributes).length +
      ((partsOf g).map fun part => (leaves part.attributes).length).sum

theorem placed_total {ls : List Leaf} {var var' : Member} (parts : PartsDiffer var)
    (placed : Placed ls var var') : heldBy var' = (insideAll var.var.name ls).length := by
  cases var with
  | other v =>
    cases var' with
    | other v' => exact placed.2.length_eq
    | grid g' => cases placed
  | grid g =>
    cases var' with
    | other v' => cases placed
    | grid g' =>
      have total := one_home parts (insideAll g.var.name ls)
      have own := placed.1.2.length_eq
      have below : ((partsOf g').map fun part => (leaves part.attributes).length) =
          (partsOf g).map fun part =>
            (insideAll part.name (insideAll g.var.name ls)).length := by
        rw [← List.forall₂_eq_eq_eq, List.forall₂_map_left_iff, List.forall₂_map_right_iff]
        exact placed.2.flip.imp fun part' part held => held.2.length_eq
      rw [List.map_map] at total
      rw [heldBy, own, below]
      exact total

/-- Together the tables have as many leaves as the DAS. -/
theorem transfersOnce_total (scope : InScope das dds) {garbage : Option (List String)}
    (once : TransfersOnce garbage das marks dds) :
    ∃ dds' marks', dds.transferAttributes garbage das marks = .ok (dds', marks') ∧
      (leaves dds'.attr).length + (dds'.vars.map heldBy).sum =
        (leaves das.topLevel.attrMap).length := by
  obtain ⟨dds', marks', run, placed, global⟩ := once
  refine ⟨dds', marks', run, ?_⟩
  have total := one_home scope.distinct (leaves das.topLevel.attrMap)
  have parts := scope.parts
  have below : dds'.vars.map heldBy = dds.vars.map fun var =>
      (insideAll var.var.name (leaves das.topLevel.attrMap)).length := by
    clear global total run
    generalize dds.vars = vars, dds'.vars = vars' at placed parts
    induction placed with
    | nil => rfl
    | cons first _ ih =>
      rw [List.map_cons, List.map_cons, placed_total (parts _ List.mem_cons_self) first,
        ih fun var mem => parts var (List.mem_cons_of_mem _ mem)]
  rw [names, List.map_map] at total
  rw [global.length_eq, below]
  exact total

/-- Attributes of a Grid `x` and of its map `y`, and global ones. -/
def gridDas : DAS :=
  { containerName := []
    topLevel :=
      { address := 0, name := []
        attrMap :=
          [.container ['x'] 1 ['x']
            [.values ['u'] .string true (some ["m"]),
              .container ['y'] 2 ['y'] [.values ['u'] .string true (some ["s"])]],
          .container ['g'] 3 ['g'] [.values ['t'] .string true (some ["title"])]] } }

def gridDds (array : List Char) : DDS :=
  { vars := [.grid
      { var := { name := ['x'], attributes := [] }
        arrayVar := { name := array, attributes := [] }
        mapVars := [{ name := ['y'], attributes := [] }] }]
    attr := [], containerName := [], container := false }

theorem gridDas_inScope (array : List Char) (other : ['y'] ≠ array) :
    InScope gridDas (gridDds array) where
  containers := by simp [gridDas, Attribute.isContainer]
  dotless := by simp [gridDas, AllDotless, DotlessBelow, Dotless]
  current := rfl
  attr := rfl
  bare := by simp [gridDds, Bare, partsOf]
  distinct := by simp [gridDds, names]
  parts := by simpa [gridDds, PartsDiffer, partsOf, eq_comm] using other

theorem gridDas_served : ∀ var ∈ (gridDds ['v']).vars, Served gridDas.topLevel var := by
  intro var mem
  obtain rfl := List.mem_singleton.mp mem
  have dotless : Dotless ['x'] ∧ Dotless ['y'] ∧ Dotless ['v'] := by simp [Dotless]
  refine ⟨by decide, searched_of_dotless dotless.1, ?_, ?_, ?_, ?_⟩
  · intro e entry named
    simp only [gridDas, List.mem_cons, List.not_mem_nil, or_false] at entry
    rcases entry with rfl | rfl
    · rw [Distinct]
      decide
    · cases named
  · intro e entry named b below
    simp only [gridDas, List.mem_cons, List.not_mem_nil, or_false] at entry
    rcases entry with rfl | rfl
    · simp only [entriesOf, List.mem_cons, List.not_mem_nil, or_false] at below
      rcases below with rfl | rfl
      · exact .inl ⟨by decide, rfl⟩
      · exact .inl ⟨by decide, by simp [Carried, AllWhole, Whole]⟩
    · cases named
  · intro g same e _ _ at' _ part inside
    cases same
    simp only [partsOf, List.mem_cons, List.not_mem_nil, or_false] at inside
    rcases inside with rfl | rfl
    · exact searched_of_dotless dotless.2.2
    · exact searched_of_dotless dotless.2.1
  · intro g same e entry named b below _
    simp only [gridDas, List.mem_cons, List.not_mem_nil, or_false] at entry
    rcases entry with rfl | rfl
    · simp only [entriesOf, List.mem_cons, List.not_mem_nil, or_false] at below
      rcases below with rfl | rfl
      · simp [Distinct, entriesOf]
      · refine ⟨List.nodup_singleton _, ?_⟩
        decide
    · cases same
      cases named

theorem gridDas_regular : Regular gridDas (fun _ => true) (gridDds ['v']) where
  listed := ⟨by unfold Distinct; decide, by simp [gridDas, Attribute.table, Attribute.name]⟩
  stored := by
    intro e mem
    simp only [unclaimed, gridDas, gridDds, names] at mem
    obtain rfl : e = .container ['g'] 3 ['g'] [.values ['t'] .string true (some ["title"])] := by
      simpa [Attribute.isContainer, Attribute.name, Member.var] using mem
    exact ⟨by decide, by simp [Carried, AllWhole, Whole]⟩
  single := by decide
  marked := by simp [gridDas, isGlobalAttribute]
  served := gridDas_served
  gridMarked := by
    intro g _ e entry _ b below _
    simp only [gridDas, List.mem_cons, List.not_mem_nil, or_false] at entry
    rcases entry with rfl | rfl
    · simp only [entriesOf, List.mem_cons, List.not_mem_nil, or_false] at below
      rcases below with rfl | rfl
      · rfl
      · rfl
    · simp only [entriesOf, List.mem_cons, List.not_mem_nil, or_false] at below
      exact below ▸ rfl

end Libdap.Guarantees.AttributeTransfer
