import Libdap.Guarantees.DASText

/-!
# Searches in a table and in the one that is read back

What is printed and read has the names it had and new addresses, so a search takes the
same steps in both tables, and where it ends on the outermost level of the one it does so
in the other.
-/
namespace Libdap.Guarantees.TableCopies
open Libdap.Source Libdap.Source.AttributeTransfer Libdap.Source.DASParser
open Libdap.Source.Attributes (splitFirst)
open Libdap.Guarantees.AttributeTransfer Libdap.Guarantees.DASParser Libdap.Guarantees.DASText

variable {es : List Attribute} {e f : Attribute} {t t' b' top top' : Table}
  {name : List Char} {keep : Attribute → Bool}

/-! ## Addresses -/

mutual
/-- The addresses of all tables below. -/
def reachOf : Attribute → List Nat
  | .values _ _ _ _ => []
  | .container _ address _ attrMap => address :: reach attrMap

def reach : List Attribute → List Nat
  | [] => []
  | e :: rest => reachOf e ++ reach rest
end

mutual
theorem reachOf_built (item : Item) (next : Nat) : ∃ k, (builtEntry next item).2 = next + k ∧
    reachOf (builtEntry next item).1 = List.range' next k := by
  cases item with
  | attr type name first more => exact ⟨0, rfl, rfl⟩
  | container name items =>
    obtain ⟨k, last, below⟩ := reach_built items (next + 1)
    refine ⟨k + 1, ?_, ?_⟩
    · rw [builtEntry, last]
      omega
    · rw [builtEntry, reachOf, below, List.range'_succ]

/-- Blocks are given one address after the other. -/
theorem reach_built (items : List Item) (next : Nat) : ∃ k, (built next items).2 = next + k ∧
    reach (built next items).1 = List.range' next k := by
  cases items with
  | nil => exact ⟨0, rfl, rfl⟩
  | cons item items =>
    obtain ⟨j, middle, first⟩ := reachOf_built item next
    obtain ⟨k, last, later⟩ := reach_built items (builtEntry next item).2
    refine ⟨j + k, ?_, ?_⟩
    · rw [built, last, middle]
      omega
    · rw [built, reach, first, later, middle, List.range'_append_1]
end

theorem reach_nodup (items : List Item) (next : Nat) :
    (reach (built next items).1).Nodup ∧ ∀ a ∈ reach (built next items).1, next ≤ a := by
  obtain ⟨k, _, all⟩ := reach_built items next
  rw [all]
  exact ⟨List.nodup_range', fun a mem => (List.mem_range'_1.mp mem).1⟩

theorem reach_mem (mem : e ∈ es) {a : Nat} (below : a ∈ reachOf e) : a ∈ reach es := by
  induction es with
  | nil => cases mem
  | cons f es ih =>
    rw [reach, List.mem_append]
    cases mem with
    | head => exact .inl below
    | tail _ mem => exact .inr (ih mem)

theorem reachOf_entries {a : Nat} (below : a ∈ reach (entriesOf e)) : a ∈ reachOf e := by
  cases e with
  | values name type isGlobal attr => cases below
  | container name address tableName attrMap => exact List.mem_cons_of_mem _ below

theorem addresses_reach {a : Nat} (mem : a ∈ addresses es) : a ∈ reach es := by
  obtain ⟨e, inside, own⟩ := List.mem_flatMap.mp mem
  refine reach_mem inside ?_
  cases e with
  | values name type isGlobal attr => cases own
  | container name address tableName attrMap =>
    rw [addressOf, Option.toList_some, List.mem_singleton] at own
    exact own ▸ List.mem_cons_self

/-- What lies below an entry is on no outermost level. -/
theorem below_apart (single : (reach es).Nodup) (mem : e ∈ es) {a : Nat}
    (below : a ∈ reach (entriesOf e)) : a ∉ addresses es := by
  induction es with
  | nil => cases mem
  | cons f es ih =>
    rw [reach, List.nodup_append] at single
    obtain ⟨first, rest, disjoint⟩ := single
    rw [addresses, List.flatMap_cons, List.mem_append]
    cases mem with
    | head =>
      have inside := reachOf_entries below
      rintro (own | other)
      · cases e with
        | values name type isGlobal attr => cases own
        | container name address tableName attrMap =>
          rw [addressOf, Option.toList_some, List.mem_singleton] at own
          rw [reachOf, List.nodup_cons] at first
          exact first.1 (own ▸ below)
      · exact disjoint a inside a (addresses_reach other) rfl
    | tail _ mem =>
      rintro (own | other)
      · have here : a ∈ reachOf f := by
          cases f with
          | values name type isGlobal attr => cases own
          | container name address tableName attrMap =>
            rw [addressOf, Option.toList_some, List.mem_singleton] at own
            exact own ▸ List.mem_cons_self
        exact disjoint a here a (reach_mem mem (reachOf_entries below)) rfl
      · exact ih rest mem other

/-! ## Tables with the same names -/

/-- The same table at another address. -/
structure Alike (t t' : Table) : Prop where
  name : t'.name = t.name
  attrMap : eraseAll t'.attrMap = eraseAll t.attrMap

theorem eraseAll_map (es : List Attribute) : eraseAll es = es.map erase := by
  induction es with
  | nil => rfl
  | cons e es ih => rw [eraseAll, ih, List.map_cons]

theorem containerIn_erase (es : List Attribute) (name : List Char) :
    containerIn (eraseAll es) name = (containerIn es name).map erase := by
  rw [eraseAll_map, containerIn, containerIn, List.find?_map]
  congr 2
  funext e
  cases e <;> rfl

theorem alike_of_erase (same : erase f = erase e) (found : f.table = some t')  :
    ∃ t, e.table = some t ∧ Alike t t' := by
  cases f with
  | values name type isGlobal attr => cases found
  | container name address tableName attrMap =>
    cases found
    cases e with
    | values name type isGlobal attr => cases same
    | container name' address' tableName' attrMap' =>
      rw [erase, erase] at same
      injection same with named _ table entries
      exact ⟨_, rfl, table, entries⟩

/-- The container found in the one list is that found in the other. -/
theorem containerIn_alike {fs : List Attribute} (same : eraseAll fs = eraseAll es)
    (found : containerIn fs name = some f) :
    ∃ e, containerIn es name = some e ∧ erase f = erase e := by
  have both := containerIn_erase es name
  rw [← same, containerIn_erase, found, Option.map_some] at both
  obtain ⟨e, search, twin⟩ := Option.map_eq_some_iff.mp both.symm
  exact ⟨e, search, twin.symm⟩

theorem simpleFind_alike (alike : Alike t t') (found : simpleFindContainer t' name = some b') :
    ∃ b, simpleFindContainer t name = some b ∧
      ((b = t ∧ b' = t') ∨ Alike b b' ∧ ∃ f ∈ t'.attrMap, f.table = some b') := by
  by_cases own : t'.name = name
  · rw [simpleFindContainer, if_pos own] at found
    cases found
    exact ⟨t, if_pos (alike.name ▸ own), .inl ⟨rfl, rfl⟩⟩
  · rw [search_container own, Option.bind_eq_some_iff] at found
    obtain ⟨f, search, table⟩ := found
    obtain ⟨e, search', twin⟩ := containerIn_alike alike.attrMap search
    obtain ⟨b, table', both⟩ := alike_of_erase twin table
    refine ⟨b, ?_, .inr ⟨both, f, (containerIn_some search).1, table⟩⟩
    rw [search_container (alike.name ▸ own), search']
    exact table'

/-! ## Searches from the outermost tables -/

/-- A table, and some of its entries as they are read back. -/
structure ReadBack (top top' : Table) (keep : Attribute → Bool) : Prop where
  name : top'.name = top.name
  distinct : (top.attrMap.map Attribute.name).Nodup
  attrMap : eraseAll top'.attrMap = eraseAll (top.attrMap.filter keep)
  single : (reach top'.attrMap).Nodup

/-- Where the same search ends in the two. -/
inductive Meets (top top' : Table) (keep : Attribute → Bool) : Table → Table → Prop where
  | whole : Meets top top' keep top top'
  | entry {e : Attribute} {t t' : Table} (mem : e ∈ top.attrMap) (kept : keep e = true)
      (table : e.table = some t) (alike : Alike t t')
      (apart : ∀ a ∈ reach t'.attrMap, a ∉ addresses top'.attrMap) : Meets top top' keep t t'
  | inner {t t' : Table} (alike : Alike t t') (own : t'.address ∉ addresses top'.attrMap)
      (apart : ∀ a ∈ reach t'.attrMap, a ∉ addresses top'.attrMap) : Meets top top' keep t t'

/-- A search by a name without dots, in a table below the outermost. -/
theorem below_meets (alike : Alike t t') (meets : Meets top top' keep t t')
    (apart : ∀ a ∈ reach t'.attrMap, a ∉ addresses top'.attrMap)
    (found : simpleFindContainer t' name = some b') :
    ∃ b, simpleFindContainer t name = some b ∧ Meets top top' keep b b' := by
  obtain ⟨b, search, ⟨rfl, rfl⟩ | ⟨both, f, mem, table⟩⟩ := simpleFind_alike alike found
  · exact ⟨b, search, meets⟩
  · have parts := table_some table
    have inside : ∀ a ∈ reachOf f, a ∉ addresses top'.attrMap :=
      fun a below => apart a (reach_mem mem below)
    refine ⟨b, search, .inner both (inside _ ?_) fun a below => inside a ?_⟩
    · cases f with
      | values name type isGlobal attr => cases table
      | container name address tableName attrMap =>
        cases table
        exact List.mem_cons_self
    · exact reachOf_entries (parts.2.2 ▸ below)

theorem simpleFind_meets (back : ReadBack top top' keep) (meets : Meets top top' keep t t')
    (found : simpleFindContainer t' name = some b') :
    ∃ b, simpleFindContainer t name = some b ∧ Meets top top' keep b b' := by
  cases meets with
  | whole =>
    by_cases own : t'.name = name
    · rw [simpleFindContainer, if_pos own] at found
      cases found
      exact ⟨t, if_pos (back.name ▸ own), .whole⟩
    · rw [search_container own, Option.bind_eq_some_iff] at found
      obtain ⟨f, search, table⟩ := found
      obtain ⟨e, search', twin⟩ := containerIn_alike back.attrMap search
      obtain ⟨b, table', both⟩ := alike_of_erase twin table
      have entry := containerIn_some search'
      obtain ⟨mem, kept⟩ := List.mem_filter.mp entry.1
      have first := containerIn_mem back.distinct mem entry.2.1
      rw [entry.2.2] at first
      refine ⟨b, ?_, .entry mem kept table' both fun a below => ?_⟩
      · rw [search_container (back.name ▸ own), first]
        exact table'
      · refine below_apart back.single (containerIn_some search).1 ?_
        rw [(table_some table).2.2]
        exact below
  | entry mem kept table alike apart =>
    exact below_meets alike (.entry mem kept table alike apart) apart found
  | inner alike own apart => exact below_meets alike (.inner alike own apart) apart found

theorem findContainer_meets (back : ReadBack top top' keep) {fuel : Nat} {target : List Char}
    (meets : Meets top top' keep t t')
    (found : findContainer fuel t' target = .ok (some b')) :
    ∃ b, findContainer fuel t target = .ok (some b) ∧ Meets top top' keep b b' := by
  induction fuel generalizing t t' target with
  | zero => cases found
  | succ fuel ih =>
    rw [findContainer] at found ⊢
    cases split : splitFirst target with
    | none =>
      rw [split] at found
      obtain ⟨b, search, both⟩ := simpleFind_meets back meets (Except.ok.inj found)
      exact ⟨b, congrArg Except.ok search, both⟩
    | some parts =>
      obtain ⟨container, field⟩ := parts
      simp only [split] at found ⊢
      cases first : simpleFindContainer t' container with
      | none =>
        rw [first] at found
        cases found
      | some below =>
        rw [first] at found
        obtain ⟨b, search, both⟩ := simpleFind_meets back meets first
        rw [search]
        exact ih both found

/-- What is found in the table that is read back is found in the other. -/
theorem getAttrTable_meets (back : ReadBack top top' keep)
    (found : getAttrTable top' name = .ok (some b')) :
    ∃ b, getAttrTable top name = .ok (some b) ∧ Meets top top' keep b b' :=
  findContainer_meets back .whole found

theorem eraseAll_nil (none_there : eraseAll es = []) : es = [] := by
  cases es with
  | nil => rfl
  | cons e es => cases none_there

theorem meets_empty (back : ReadBack top top' keep) (meets : Meets top top' keep t t')
    (empty : t.attrMap = []) : t'.attrMap = [] := by
  cases meets with
  | whole =>
    have same := back.attrMap
    rw [empty] at same
    exact eraseAll_nil same
  | entry mem kept table alike apart =>
    exact eraseAll_nil (alike.attrMap.trans (by rw [empty]; rfl))
  | inner alike own apart => exact eraseAll_nil (alike.attrMap.trans (by rw [empty]; rfl))

/-- Where the one search ends at no entry that was kept, the other does not end on the outermost
level. -/
theorem meets_apart (own : top'.address ∉ addresses top'.attrMap)
    (dropped : ∀ e ∈ top.attrMap, e.table = some t → keep e = false)
    (meets : Meets top top' keep t t') : t'.address ∉ addresses top'.attrMap := by
  cases meets with
  | whole => exact own
  | entry mem kept table alike apart => simp [dropped _ mem table] at kept
  | inner alike below apart => exact below

/-! ## Every search ends -/

theorem splitFirst_shorter {target container field : List Char}
    (split : splitFirst target = some (container, field)) : field.length < target.length := by
  unfold splitFirst at split
  rw [List.span_eq_takeWhile_dropWhile] at split
  have size : (target.takeWhile (· ≠ '.') ++ target.dropWhile (· ≠ '.')).length = target.length :=
    congrArg List.length List.takeWhile_append_dropWhile
  cases rest : target.dropWhile (· ≠ '.') with
  | nil =>
    rw [rest] at split
    cases split
  | cons c field' =>
    rw [rest] at split size
    cases split
    rw [List.length_append, List.length_cons] at size
    omega

theorem findContainer_ends {fuel : Nat} {target : List Char} (enough : target.length < fuel) :
    ∃ found, findContainer fuel t target = .ok found := by
  induction fuel generalizing t target with
  | zero => exact absurd enough (Nat.not_lt_zero _)
  | succ fuel ih =>
    rw [findContainer]
    cases split : splitFirst target with
    | none => exact ⟨_, rfl⟩
    | some parts =>
      obtain ⟨container, field⟩ := parts
      have shorter := splitFirst_shorter split
      cases search : simpleFindContainer t container with
      | none => exact ⟨none, by simp only [search]; rfl⟩
      | some below =>
        simp only [search]
        exact ih (by omega)

theorem getAttrTable_ends (t : Table) (name : List Char) :
    ∃ found, getAttrTable t name = .ok found :=
  findContainer_ends (Nat.lt_succ_self _)

end Libdap.Guarantees.TableCopies
