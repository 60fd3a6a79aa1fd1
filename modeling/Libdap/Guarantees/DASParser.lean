import Libdap.Guarantees.AttributeTransfer
import Libdap.Library.Outcome
import Libdap.Source.DASParser

/-!
# The DAS parser builds the tree that is written

Each block is given a new table unless a search from the table of the block around it
finds one: that table itself, an earlier container in it, or what its name leads to as a
path. So the tree is the one that is written if and only if no search finds anything and
no name is used twice.
-/
namespace Libdap.Guarantees.DASParser
open Libdap.Source Libdap.Source.AttributeTransfer Libdap.Source.DASParser
open Libdap.Guarantees.AttributeTransfer (simpleFind_none)
open Libdap.Library (bind_success)
open Libdap.Source.Attributes (removeSpaceEncoding stringToType)

mutual
/-- The entries of a block, and the next address after them. -/
def builtEntry (next : Nat) : Item → Attribute × Nat
  | .attr type name first more =>
    (.values (removeSpaceEncoding name) (stringToType type.type) true
      (some ((first :: more).map fun token => String.ofList (stored type token))), next)
  | .container name items =>
    (.container (removeSpaceEncoding name) next (removeSpaceEncoding name)
      (built (next + 1) items).1, (built (next + 1) items).2)

def built (next : Nat) : List Item → List Attribute × Nat
  | [] => ([], next)
  | item :: items =>
    ((builtEntry next item).1 :: (built (builtEntry next item).2 items).1,
      (built (builtEntry next item).2 items).2)
end

def Table.add (t : Table) (es : List Attribute) : Table := { t with attrMap := t.attrMap ++ es }

def Table.names (t : Table) : List (List Char) := t.attrMap.map Attribute.name

def newTable (next : Nat) (name : List Char) : Table :=
  { address := next, name := removeSpaceEncoding name, attrMap := [] }

/-- What a text is written to build: a tree with a new table for each block. -/
def Builds (check : Keyword → List Char → Bool) (das : Table) (next : Nat)
    (text : List (List Item)) : Prop :=
  parse check das next text =
    .ok (Table.add das (built next text.flatten).1, (built next text.flatten).2)

mutual
/-- No search from the table of a block finds a table, and no name is there already. -/
def FreshItem (t : Table) (next : Nat) : Item → Prop
  | .attr _ name _ _ => removeSpaceEncoding name ∉ Table.names t
  | .container name items => getWay t name = none ∧ name ∉ Table.names t ∧
      Fresh (newTable next name) (next + 1) items

def Fresh (t : Table) (next : Nat) : List Item → Prop
  | [] => True
  | item :: items => FreshItem t next item ∧
      Fresh (Table.add t [(builtEntry next item).1]) (builtEntry next item).2 items
end

section
variable (check : Keyword → List Char → Bool)

mutual
/-- Every value passes the check of its type. -/
def ValidItem : Item → Prop
  | .attr type _ first more =>
    ∀ token ∈ first :: more, hasChecker type = true → check type (stored type token) = true
  | .container _ items => Valid items

def Valid : List Item → Prop
  | [] => True
  | item :: items => ValidItem item ∧ Valid items
end

mutual
/-- Every value passes the check of its type, or its table is one for values that do not. -/
def CheckedItem (table : List Char) : Item → Prop
  | .attr type _ first more => dodsErrors <:+: table ∨
      ∀ token ∈ first :: more, hasChecker type = true → check type (stored type token) = true
  | .container name items => Checked (removeSpaceEncoding name) items

def Checked (table : List Char) : List Item → Prop
  | [] => True
  | item :: items => CheckedItem table item ∧ Checked table items
end

end

/-! ## Names -/

theorem removeSpaceEncoding_cons {l : List Char} {c : Char} {r : List Char}
    (found : removeSpaceEncoding l = c :: r) (visible : c ≠ ' ') :
    ∃ l', l = c :: l' ∧ removeSpaceEncoding l' = r := by
  revert found
  fun_cases removeSpaceEncoding l with
  | case1 => intro found; cases found
  | case2 rest =>
    intro found
    exact absurd (List.cons.inj found).1.symm visible
  | case3 c' rest _ =>
    intro found
    have parts := List.cons.inj found
    exact ⟨rest, congrArg (· :: rest) parts.1, parts.2⟩

theorem removeSpaceEncoding_twice (l : List Char) :
    removeSpaceEncoding (removeSpaceEncoding l) = removeSpaceEncoding l := by
  fun_induction removeSpaceEncoding l with
  | case1 => rfl
  | case2 rest ih =>
    rw [removeSpaceEncoding, ih]
    intro _ encoded
    cases encoded
  | case3 c rest plain ih =>
    rw [removeSpaceEncoding, ih]
    intro rest' same encoded
    obtain ⟨l, two, after⟩ := removeSpaceEncoding_cons encoded (by decide)
    obtain ⟨l', zero, _⟩ := removeSpaceEncoding_cons after (by decide)
    exact plain l' same (two ▸ zero ▸ rfl)

/-! ## A text all of whose names are new -/

variable {check : Keyword → List Char → Bool} {t t' at' below : Table} {next n : Nat}
  {type : Keyword} {name lname : List Char} {item : Item} {items : List Item} {way : Way}

@[simp] theorem add_attrMap (t : Table) (es : List Attribute) :
    (Table.add t es).attrMap = t.attrMap ++ es := rfl

@[simp] theorem add_add (t : Table) (es fs : List Attribute) :
    Table.add (Table.add t es) fs = Table.add t (es ++ fs) := by
  simp [Table.add]

theorem add_nil (t : Table) : Table.add t [] = t := by simp [Table.add]

theorem appendValue_new {value : List Char} (absent : removeSpaceEncoding name ∉ Table.names t) :
    appendValue t type.type name value = .ok (Table.add t [.values (removeSpaceEncoding name)
      (stringToType type.type) true (some [String.ofList value])]) := by
  simp only [appendValue, appendAttr, simpleFind_none absent]
  rfl

theorem appendToFirst_last {own : List Attribute} {values vs : List String}
    {kind : Attributes.AttrType} (absent : lname ∉ own.map Attribute.name) :
    appendToFirst lname values (own ++ [.values lname kind true (some vs)]) =
      own ++ [.values lname kind true (some (vs ++ values))] := by
  induction own with
  | nil => simp [appendToFirst]
  | cons e own ih =>
    rw [List.map_cons, List.mem_cons, not_or] at absent
    have rest := ih absent.2
    cases e with
    | values name type isGlobal attr =>
      have other : name ≠ lname := fun same => absent.1 same.symm
      rw [List.cons_append, appendToFirst, if_neg other, rest]
      rfl
    | container name address tableName attrMap =>
      rw [List.cons_append, appendToFirst, rest]
      · rfl
      · intro name type isGlobal attr same
        cases same

theorem typeToString_keyword (type : Keyword) :
    Attributes.typeToString (stringToType type.type) ≠ "Container" := by
  cases type <;> decide

theorem appendValue_more {value : List Char} {vs : List String}
    (absent : removeSpaceEncoding name ∉ Table.names t) :
    appendValue (Table.add t [.values (removeSpaceEncoding name) (stringToType type.type) true
        (some vs)]) type.type name value =
      .ok (Table.add t [.values (removeSpaceEncoding name) (stringToType type.type) true
        (some (vs ++ [String.ofList value]))]) := by
  have found : simpleFind (t.attrMap ++ [.values (removeSpaceEncoding name)
      (stringToType type.type) true (some vs)]) (removeSpaceEncoding name) =
        some (.values (removeSpaceEncoding name) (stringToType type.type) true (some vs)) := by
    have none_before := simpleFind_none absent
    unfold simpleFind at none_before ⊢
    rw [List.find?_append, none_before]
    simp [Attribute.name]
  have same : ¬ (Attribute.values (removeSpaceEncoding name) (stringToType type.type) true
      (some vs)).type ≠ stringToType type.type := fun differ => differ rfl
  have plain : ¬ Attributes.typeToString (Attribute.values (removeSpaceEncoding name)
      (stringToType type.type) true (some vs)).type = "Container" := typeToString_keyword type
  simp only [appendValue, appendAttr, add_attrMap, found]
  rw [if_neg same, if_neg plain, appendToFirst_last absent]
  rfl

theorem addAttribute_valid {value : List Char}
    (valid : hasChecker type = true → check type value = true) :
    addAttribute check t next type name value =
      (rethrow (appendValue t type.type name value)).map fun t => (t, next) := by
  have skipped : (hasChecker type && !check type value) = false := by
    cases checker : hasChecker type with
    | false => rfl
    | true => simp [valid checker]
  rw [addAttribute, skipped]
  cases rethrow (appendValue t type.type name value) <;> rfl

/-- A value that passes its check, or is in a table for those that do not, stays there. -/
theorem addAttribute_checked {value : List Char}
    (checked : dodsErrors <:+: t.name ∨ (hasChecker type = true → check type value = true))
    (run : appendValue t type.type name value = .ok t') :
    addAttribute check t next type name value = .ok (t', next) := by
  by_cases valid : hasChecker type = true → check type value = true
  · rw [addAttribute_valid valid, run]
    rfl
  · have failing : (hasChecker type && !check type value) = true := by simpa using valid
    rw [addAttribute, if_pos failing, addBadAttribute, if_pos (checked.resolve_right valid), run]
    rfl

theorem addValues_more {tokens : List (List Char)} (vs : List String)
    (checked : dodsErrors <:+: t.name ∨
      ∀ token ∈ tokens, hasChecker type = true → check type (stored type token) = true)
    (absent : removeSpaceEncoding name ∉ Table.names t) :
    addValues check type name (Table.add t [.values (removeSpaceEncoding name)
        (stringToType type.type) true (some vs)]) next tokens =
      .ok (Table.add t [.values (removeSpaceEncoding name) (stringToType type.type) true
        (some (vs ++ tokens.map fun token => String.ofList (stored type token)))], next) := by
  induction tokens generalizing vs with
  | nil =>
    rw [List.map_nil, List.append_nil]
    rfl
  | cons token tokens ih =>
    have rest := ih (vs ++ [String.ofList (stored type token)])
      (checked.imp_right fun all other mem => all other (List.mem_cons_of_mem token mem))
    rw [List.append_assoc, List.singleton_append] at rest
    rw [addValues, addAttribute_checked ?_ (appendValue_more absent)]
    · exact rest
    · exact checked.imp_right fun all => all token List.mem_cons_self

theorem addValues_new {first : List Char} {more : List (List Char)}
    (checked : dodsErrors <:+: t.name ∨ ∀ token ∈ first :: more,
      hasChecker type = true → check type (stored type token) = true)
    (absent : removeSpaceEncoding name ∉ Table.names t) :
    addValues check type name t next (first :: more) =
      .ok (Table.add t [(builtEntry next (.attr type name first more)).1], next) := by
  rw [addValues, addAttribute_checked (checked.imp_right fun all => all first List.mem_cons_self)
    (appendValue_new absent)]
  exact addValues_more _
    (checked.imp_right fun all other mem => all other (List.mem_cons_of_mem first mem)) absent

theorem appendContainer_new (absent : name ∉ Table.names t) :
    appendContainer t next name = .ok (Table.add t
      [.container (removeSpaceEncoding name) next (removeSpaceEncoding name) []]) := by
  rw [appendContainer, simpleFind_none absent, removeSpaceEncoding_twice]
  rfl

/-- The actions of a block work on the last entry. -/
theorem modifyAt_last {f : Table → Except Failure (Table × Nat)} {address : Nat}
    {tableName : List Char} {es : List Attribute} {fs : List Attribute}
    (run : f { address, name := tableName, attrMap := fs } =
      .ok ({ address, name := tableName, attrMap := es }, n)) :
    Table.modifyAt f [t.attrMap.length]
        (Table.add t [.container name address tableName fs]) =
      .ok (Table.add t [.container name address tableName es], n) := by
  simp only [Table.modifyAt, add_attrMap, List.getElem?_concat_length, run]
  simp only [bind, Except.bind, pure, Except.pure, Table.add]
  rw [List.set_append_right _ _ (Nat.le_refl _), Nat.sub_self]
  rfl

mutual
theorem attrTuple_checked (item : Item) (t : Table) (next : Nat)
    (checked : CheckedItem check t.name item) (fresh : FreshItem t next item) :
    attrTuple check t next item =
      .ok (Table.add t [(builtEntry next item).1], (builtEntry next item).2) := by
  cases item with
  | attr type name first more =>
    rw [CheckedItem] at checked
    rw [FreshItem] at fresh
    exact addValues_new checked fresh
  | container name items =>
    rw [CheckedItem] at checked
    rw [FreshItem] at fresh
    have body := attrList_checked items (newTable next name) (next + 1) checked fresh.2.2
    rw [attrTuple, fresh.1, appendContainer_new fresh.2.1]
    exact modifyAt_last body

theorem attrList_checked (items : List Item) (t : Table) (next : Nat)
    (checked : Checked check t.name items) (fresh : Fresh t next items) :
    attrList check t next items = .ok (Table.add t (built next items).1, (built next items).2) := by
  cases items with
  | nil =>
    rw [built, add_nil]
    rfl
  | cons item items =>
    rw [Checked] at checked
    rw [Fresh] at fresh
    have first := attrTuple_checked item t next checked.1 fresh.1
    have rest := attrList_checked items (Table.add t [(builtEntry next item).1])
      (builtEntry next item).2 checked.2 fresh.2
    rw [attrList, first]
    rw [add_add] at rest
    exact rest
end

mutual
theorem checkedItem_of_valid (item : Item) (table : List Char) (valid : ValidItem check item) :
    CheckedItem check table item := by
  cases item with
  | attr type name first more =>
    rw [ValidItem] at valid
    rw [CheckedItem]
    exact .inr valid
  | container name items =>
    rw [ValidItem] at valid
    rw [CheckedItem]
    exact checked_of_valid items (removeSpaceEncoding name) valid

theorem checked_of_valid (items : List Item) (table : List Char) (valid : Valid check items) :
    Checked check table items := by
  cases items with
  | nil => trivial
  | cons item items =>
    rw [Valid] at valid
    rw [Checked]
    exact ⟨checkedItem_of_valid item table valid.1, checked_of_valid items table valid.2⟩
end

theorem attrTuple_built (item : Item) (t : Table) (next : Nat) (valid : ValidItem check item)
    (fresh : FreshItem t next item) :
    attrTuple check t next item =
      .ok (Table.add t [(builtEntry next item).1], (builtEntry next item).2) :=
  attrTuple_checked item t next (checkedItem_of_valid item t.name valid) fresh

theorem attrList_built (items : List Item) (t : Table) (next : Nat) (valid : Valid check items)
    (fresh : Fresh t next items) :
    attrList check t next items = .ok (Table.add t (built next items).1, (built next items).2) :=
  attrList_checked items t next (checked_of_valid items t.name valid) fresh

/-! ## A name that is not new -/

mutual
def sizeOfEntry : Attribute → Nat
  | .values _ _ _ _ => 1
  | .container _ _ _ attrMap => 1 + entries attrMap

/-- How many entries there are, at all depths. -/
def entries : List Attribute → Nat
  | [] => 0
  | e :: rest => sizeOfEntry e + entries rest
end

mutual
def writtenItem : Item → Nat
  | .attr _ _ _ _ => 1
  | .container _ items => 1 + written items

/-- How many entries are written. -/
def written : List Item → Nat
  | [] => 0
  | item :: items => writtenItem item + written items
end

theorem entries_append (es fs : List Attribute) : entries (es ++ fs) = entries es + entries fs := by
  induction es with
  | nil => simp [entries]
  | cons e es ih =>
    rw [List.cons_append, entries, entries, ih]
    omega

mutual
theorem sizeOfEntry_built (item : Item) (next : Nat) :
    sizeOfEntry (builtEntry next item).1 = writtenItem item := by
  cases item with
  | attr type name first more => simp [builtEntry, sizeOfEntry, writtenItem]
  | container name items =>
    rw [builtEntry, sizeOfEntry, writtenItem, entries_built items (next + 1)]

theorem entries_built (items : List Item) (next : Nat) :
    entries (built next items).1 = written items := by
  cases items with
  | nil => rfl
  | cons item items =>
    rw [built, entries, written, sizeOfEntry_built item next, entries_built items]
end

theorem entries_set {es : List Attribute} {i : Nat} {e : Attribute} (e' : Attribute)
    (here : es[i]? = some e) :
    entries (es.set i e') + sizeOfEntry e = entries es + sizeOfEntry e' := by
  induction es generalizing i with
  | nil => cases here
  | cons f es ih =>
    cases i with
    | zero =>
      cases here
      simp only [List.set_cons_zero, entries]
      omega
    | succ i =>
      have rest := ih (by simpa using here)
      simp only [List.set_cons_succ, entries]
      omega

/-- The change is made to the container at the first position. -/
theorem modifyAt_cons_ok {f : Table → Except Failure (Table × Nat)} {i : Nat}
    (run : Table.modifyAt f (i :: way) t = .ok (t', n)) :
    ∃ name address tableName attrMap below,
      t.attrMap[i]? = some (.container name address tableName attrMap) ∧
      Table.modifyAt f way { address, name := tableName, attrMap } = .ok (below, n) ∧
      t' = { t with
        attrMap := t.attrMap.set i (.container name address below.name below.attrMap) } := by
  rw [Table.modifyAt] at run
  split at run
  · rename_i name address tableName attrMap here
    obtain ⟨⟨below, next⟩, inner, same⟩ := bind_success run
    cases same
    exact ⟨name, address, tableName, attrMap, below, here, inner, rfl⟩
  · cases run

/-- A change to a table on the way changes the size by as much. -/
theorem modifyAt_entries {f : Table → Except Failure (Table × Nat)} {k : Nat}
    (bound : ∀ at' below n, f at' = .ok (below, n) →
      entries below.attrMap ≤ entries at'.attrMap + k) :
    ∀ t t' n, Table.modifyAt f way t = .ok (t', n) →
      entries t'.attrMap ≤ entries t.attrMap + k := by
  induction way with
  | nil => exact bound
  | cons i way ih =>
    intro t t' n run
    obtain ⟨name, address, tableName, attrMap, below, here, inner, rfl⟩ := modifyAt_cons_ok run
    have smaller := ih _ _ _ inner
    have sizes := entries_set (.container name address below.name below.attrMap) here
    simp only [sizeOfEntry] at sizes
    dsimp only at smaller ⊢
    omega

theorem rethrow_ok {α : Type} {r : Except Failure α} {x : α} (run : rethrow r = .ok x) :
    r = .ok x := by
  cases r with
  | ok y => exact run
  | error failure => cases failure <;> cases run

theorem appendToFirst_size (lname : List Char) (vs : List String) (own : List Attribute) :
    entries (appendToFirst lname vs own) = entries own ∧
      (appendToFirst lname vs own).map Attribute.name = own.map Attribute.name := by
  fun_induction appendToFirst lname vs own with
  | case1 => exact ⟨rfl, rfl⟩
  | case2 type isGlobal attr rest => exact ⟨rfl, rfl⟩
  | case3 name type isGlobal attr rest other ih =>
    exact ⟨congrArg (1 + ·) ih.1, congrArg (name :: ·) ih.2⟩
  | case4 e rest _ ih =>
    exact ⟨congrArg (sizeOfEntry e + ·) ih.1, congrArg (e.name :: ·) ih.2⟩

/-- A value adds an entry exactly when there is none of its name. -/
theorem appendValue_size {value : List Char} (run : appendValue t type.type name value = .ok t') :
    removeSpaceEncoding name ∈ Table.names t' ∧
      (removeSpaceEncoding name ∈ Table.names t → entries t'.attrMap = entries t.attrMap) ∧
      entries t'.attrMap ≤ entries t.attrMap + 1 := by
  by_cases known : removeSpaceEncoding name ∈ Table.names t
  · obtain ⟨e, mem, named⟩ := List.mem_map.mp known
    cases found : simpleFind t.attrMap (removeSpaceEncoding name) with
    | none =>
      have missed := List.find?_eq_none.mp found e mem
      simp [named] at missed
    | some e' =>
      simp only [appendValue, appendAttr, found] at run
      split at run
      · cases run
      · split at run
        · cases run
        · cases run
          have size := appendToFirst_size (removeSpaceEncoding name) [String.ofList value] t.attrMap
          unfold Table.names at known ⊢
          dsimp only
          rw [size.1, size.2]
          exact ⟨known, fun _ => rfl, Nat.le_succ _⟩
  · rw [appendValue_new known] at run
    cases run
    refine ⟨?_, fun here => absurd here known, ?_⟩
    · simp [Table.names, Attribute.name]
    · rw [add_attrMap, entries_append]
      simp [entries, sizeOfEntry]

theorem addAttribute_ok {value : List Char}
    (valid : hasChecker type = true → check type value = true)
    (run : addAttribute check t next type name value = .ok (t', n)) :
    appendValue t type.type name value = .ok t' ∧ n = next := by
  rw [addAttribute_valid valid] at run
  cases appended : rethrow (appendValue t type.type name value) with
  | error failure =>
    rw [appended] at run
    cases run
  | ok t₁ =>
    rw [appended] at run
    cases run
    exact ⟨rethrow_ok appended, rfl⟩

theorem addValues_known {tokens : List (List Char)}
    (valid : ∀ token ∈ tokens, hasChecker type = true → check type (stored type token) = true)
    (known : removeSpaceEncoding name ∈ Table.names t)
    (run : addValues check type name t next tokens = .ok (t', n)) :
    entries t'.attrMap = entries t.attrMap := by
  induction tokens generalizing t next with
  | nil =>
    cases run
    rfl
  | cons token tokens ih =>
    rw [addValues] at run
    obtain ⟨⟨t₁, middle⟩, first, run⟩ := bind_success run
    have one := addAttribute_ok (valid token List.mem_cons_self) first
    have size := appendValue_size one.1
    rw [ih (fun other mem => valid other (List.mem_cons_of_mem token mem)) size.1 run,
      size.2.1 known]

theorem addValues_size {first : List Char} {more : List (List Char)}
    (valid : ∀ token ∈ first :: more,
      hasChecker type = true → check type (stored type token) = true)
    (run : addValues check type name t next (first :: more) = .ok (t', n)) :
    entries t'.attrMap ≤ entries t.attrMap + 1 ∧
      (entries t'.attrMap = entries t.attrMap + 1 → removeSpaceEncoding name ∉ Table.names t) := by
  rw [addValues] at run
  obtain ⟨⟨t₁, middle⟩, added, run⟩ := bind_success run
  have one := addAttribute_ok (valid first List.mem_cons_self) added
  have size := appendValue_size one.1
  have same := addValues_known
    (fun other mem => valid other (List.mem_cons_of_mem first mem)) size.1 run
  rw [same]
  refine ⟨size.2.2, fun more known => ?_⟩
  have unchanged := size.2.1 known
  omega

theorem appendContainer_ok (run : appendContainer t next name = .ok t') :
    name ∉ Table.names t ∧ t' = Table.add t
      [.container (removeSpaceEncoding name) next (removeSpaceEncoding name) []] := by
  by_cases known : name ∈ Table.names t
  · obtain ⟨e, mem, named⟩ := List.mem_map.mp known
    have found : (simpleFind t.attrMap name).isSome = true := by
      rw [simpleFind, List.find?_isSome]
      exact ⟨e, mem, decide_eq_true named⟩
    rw [appendContainer, found] at run
    cases run
  · rw [appendContainer_new known] at run
    cases run
    exact ⟨known, rfl⟩

theorem modifyAt_last_ok {f : Table → Except Failure (Table × Nat)} {address : Nat}
    {tableName : List Char} {fs : List Attribute}
    (run : Table.modifyAt f [t.attrMap.length]
      (Table.add t [.container name address tableName fs]) = .ok (t', n)) :
    ∃ below, f { address, name := tableName, attrMap := fs } = .ok (below, n) ∧
      entries t'.attrMap = entries t.attrMap + 1 + entries below.attrMap := by
  simp only [Table.modifyAt, add_attrMap, List.getElem?_concat_length] at run
  cases inner : f { address, name := tableName, attrMap := fs } with
  | error failure =>
    rw [inner] at run
    cases run
  | ok result =>
    rw [inner] at run
    cases run
    refine ⟨result.1, rfl, ?_⟩
    dsimp only
    rw [List.set_append_right _ _ (Nat.le_refl _), Nat.sub_self, List.set_cons_zero,
      entries_append]
    simp only [entries, sizeOfEntry]
    omega

mutual
/-- Every item adds at most what is written, and that much only if its names are new. -/
theorem attrTuple_size (item : Item) (t : Table) (next : Nat) (valid : ValidItem check item)
    (t' : Table) (n : Nat) (run : attrTuple check t next item = .ok (t', n)) :
    entries t'.attrMap ≤ entries t.attrMap + writtenItem item ∧
      (entries t'.attrMap = entries t.attrMap + writtenItem item → FreshItem t next item) := by
  cases item with
  | attr type name first more =>
    rw [ValidItem] at valid
    rw [FreshItem]
    exact addValues_size valid run
  | container name items =>
    rw [ValidItem] at valid
    rw [FreshItem, writtenItem]
    rw [attrTuple] at run
    cases searched : getWay t name with
    | some way =>
      rw [searched] at run
      have size := modifyAt_entries
        (fun at' below n run => (attrList_size items at' next valid below n run).1) t t' n run
      refine ⟨by omega, fun full => ?_⟩
      omega
    | none =>
      rw [searched] at run
      obtain ⟨t₁, appended, run⟩ := bind_success run
      have new := appendContainer_ok (rethrow_ok appended)
      rw [new.2] at run
      obtain ⟨below, inner, size⟩ := modifyAt_last_ok run
      have body := attrList_size items (newTable next name) (next + 1) valid below n inner
      have start : entries (newTable next name).attrMap = 0 := rfl
      rw [start] at body
      refine ⟨by omega, fun full => ⟨rfl, new.1, body.2 (by omega)⟩⟩

theorem attrList_size (items : List Item) (t : Table) (next : Nat) (valid : Valid check items)
    (t' : Table) (n : Nat) (run : attrList check t next items = .ok (t', n)) :
    entries t'.attrMap ≤ entries t.attrMap + written items ∧
      (entries t'.attrMap = entries t.attrMap + written items → Fresh t next items) := by
  cases items with
  | nil =>
    cases run
    exact ⟨Nat.le_refl _, fun _ => trivial⟩
  | cons item items =>
    rw [Valid] at valid
    rw [attrList] at run
    rw [Fresh, written]
    cases first : attrTuple check t next item with
    | error failure =>
      rw [first] at run
      cases run
    | ok result =>
      rw [first] at run
      have one := attrTuple_size item t next valid.1 result.1 result.2 first
      have rest := attrList_size items result.1 result.2 valid.2 t' n run
      refine ⟨by omega, fun full => ?_⟩
      have fresh := one.2 (by omega)
      have same := attrTuple_built item t next valid.1 fresh
      rw [first, Except.ok.injEq] at same
      have later := rest.2 (by omega)
      rw [same] at later
      exact ⟨fresh, later⟩
end

/-! ## The name of the table that is filled -/

theorem modifyAt_name {f : Table → Except Failure (Table × Nat)}
    (keeps : ∀ at' below n, f at' = .ok (below, n) → below.name = at'.name)
    (run : Table.modifyAt f way t = .ok (t', n)) : t'.name = t.name := by
  cases way with
  | nil => exact keeps t t' n run
  | cons i way =>
    obtain ⟨_, _, _, _, _, -, -, rfl⟩ := modifyAt_cons_ok run
    rfl

theorem appendValue_name {value kind : List Char} (run : appendValue t kind name value = .ok t') :
    t'.name = t.name := by
  rw [appendValue] at run
  cases appended : appendAttr t.attrMap name kind [String.ofList value] with
  | error failure =>
    rw [appended] at run
    cases run
  | ok own =>
    rw [appended] at run
    cases run
    rfl

theorem addValues_name {tokens : List (List Char)}
    (valid : ∀ token ∈ tokens, hasChecker type = true → check type (stored type token) = true)
    (run : addValues check type name t next tokens = .ok (t', n)) : t'.name = t.name := by
  induction tokens generalizing t next with
  | nil =>
    cases run
    rfl
  | cons token tokens ih =>
    rw [addValues] at run
    obtain ⟨⟨t₁, middle⟩, first, run⟩ := bind_success run
    have one := addAttribute_ok (valid token List.mem_cons_self) first
    have rest := ih (fun other mem => valid other (List.mem_cons_of_mem token mem)) run
    exact rest.trans (appendValue_name one.1)

mutual
theorem attrTuple_name (item : Item) (t : Table) (next : Nat) (valid : ValidItem check item)
    (t' : Table) (n : Nat) (run : attrTuple check t next item = .ok (t', n)) :
    t'.name = t.name := by
  cases item with
  | attr type name first more =>
    rw [ValidItem] at valid
    exact addValues_name valid run
  | container name items =>
    rw [ValidItem] at valid
    rw [attrTuple] at run
    cases searched : getWay t name with
    | some way =>
      rw [searched] at run
      exact modifyAt_name (fun at' below n run => attrList_name items at' next valid below n run) run
    | none =>
      rw [searched] at run
      obtain ⟨t₁, appended, run⟩ := bind_success run
      have new := appendContainer_ok (rethrow_ok appended)
      have kept := modifyAt_name
        (fun at' below n run => attrList_name items at' (next + 1) valid below n run) run
      rw [kept, new.2]
      rfl

theorem attrList_name (items : List Item) (t : Table) (next : Nat) (valid : Valid check items)
    (t' : Table) (n : Nat) (run : attrList check t next items = .ok (t', n)) :
    t'.name = t.name := by
  cases items with
  | nil =>
    cases run
    rfl
  | cons item items =>
    rw [Valid] at valid
    rw [attrList] at run
    obtain ⟨⟨t₁, middle⟩, first, run⟩ := bind_success run
    have one := attrTuple_name item t next valid.1 t₁ middle first
    exact (attrList_name items t₁ middle valid.2 t' n run).trans one
end

/-! ## The whole text -/

theorem attrList_append (items more : List Item) (t : Table) (next : Nat) :
    attrList check t next (items ++ more) =
      (attrList check t next items).bind fun result =>
        attrList check result.1 result.2 more := by
  induction items generalizing t next with
  | nil => rfl
  | cons item items ih =>
    rw [List.cons_append, attrList, attrList]
    cases attrTuple check t next item with
    | error failure => rfl
    | ok result => exact ih result.1 result.2

theorem parse_flatten (das : Table) (next : Nat) (text : List (List Item)) :
    parse check das next text = attrList check das next text.flatten := by
  induction text generalizing das next with
  | nil => rfl
  | cons items text ih =>
    rw [parse, List.flatten_cons, attrList_append]
    cases attrList check das next items with
    | error failure => rfl
    | ok result => exact ih result.1 result.2

/-- A text with valid values builds the tree it is written to build exactly if every name is new
where it is searched. -/
theorem builds_iff (check : Keyword → List Char → Bool) (das : Table) (next : Nat)
    (text : List (List Item)) (valid : Valid check text.flatten) :
    Builds check das next text ↔ Fresh das next text.flatten := by
  unfold Builds
  rw [parse_flatten]
  constructor
  · intro built
    have size := attrList_size text.flatten das next valid _ _ built
    apply size.2
    rw [add_attrMap, entries_append, entries_built]
  · exact attrList_built text.flatten das next valid

/-- The table of a DAS before a parse. -/
def emptyDas : Table := { address := 0, name := [], attrMap := [] }

/-- `a { Int32 x 1; }`. -/
def oneBlock : List (List Item) := [[.container ['a'] [.attr .int32 ['x'] ['1'] []]]]

/-- `a { a { Int32 x 1; } }`. -/
def sameName : List (List Item) :=
  [[.container ['a'] [.container ['a'] [.attr .int32 ['x'] ['1'] []]]]]

theorem builds_iff_oneBlock : Builds (fun _ _ => true) emptyDas 1 oneBlock := by
  refine (builds_iff (fun _ _ => true) emptyDas 1 oneBlock ?_).mpr ?_
  · simp [oneBlock, Valid, ValidItem]
  · refine ⟨⟨by decide, by decide, ?_, trivial⟩, trivial⟩
    rw [FreshItem]
    decide

/-- The inner block is given the table of the outer one. -/
theorem builds_fails : ¬ Builds (fun _ _ => true) emptyDas 1 sameName := by
  intro builds
  have run : parse (fun _ _ => true) emptyDas 1 sameName =
      .ok (Table.add emptyDas
        [.container ['a'] 1 ['a'] [.values ['x'] .int32 true (some ["1"])]], 2) := rfl
  rw [Builds, run] at builds
  simp [Table.add, sameName, built, builtEntry] at builds

end Libdap.Guarantees.DASParser
