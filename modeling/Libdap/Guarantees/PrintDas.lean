import Libdap.Guarantees.TableCopies
import Libdap.Library.Outcome

/-!
# The DAS held by a DDS, printed and transferred again

`print_das` writes the attributes of each variable without the variable's name around
them, so a second transfer finds none of them below that name. Counting entries shows that
this goes well only if no variable has an attribute.
-/
namespace Libdap.Guarantees.PrintDas
open Libdap.Library
open Libdap.Source Libdap.Source.AttributeTransfer Libdap.Source.DASParser Libdap.Source.DASText
open Libdap.Source.Attributes (removeSpaceEncoding addSpaceEncoding stringToType typeToString)
open Libdap.Guarantees.AttributeTransfer Libdap.Guarantees.DASParser Libdap.Guarantees.DASText
open Libdap.Guarantees.TableCopies

def tablesOf (dds : DDS) : List (List Attribute) :=
  dds.vars.map fun var => eraseAll var.var.attributes

/-- A DAS that was parsed, with all marks set. -/
def parsedDas (t : Table) : DAS := { containerName := [], topLevel := t }

/-- The text of `print_das` parses, and gives a second copy of the DDS the same attributes. -/
def KeepsAttributes (check : Keyword → List Char → Bool) (das : DAS) (marks : Marks)
    (dds : DDS) : Prop :=
  ∃ dds₁ marks₁ text t n dds₂ marks₂,
    dds.transferAttributes none das marks = .ok (dds₁, marks₁) ∧
    DDS.printDas dds₁ = .ok text ∧ parseText check (.initial 0) text = .ok (t, n) ∧
    dds.transferAttributes none (parsedDas t) (fun _ => true) = .ok (dds₂, marks₂) ∧
    tablesOf dds₁ = tablesOf dds₂ ∧ eraseAll dds₁.attr = eraseAll dds₂.attr

/-- A DAS with containers only at the top level that is read back as it is printed, all of
it or some of its containers, and a DDS of variables other than Grids, without attributes
and with distinct names. -/
structure Printable (check : Keyword → List Char → Bool) (das : DAS) (dds : DDS) : Prop where
  containers : ∀ e ∈ das.topLevel.attrMap, e.isContainer = true
  survive : AllSurvive check das.topLevel.attrMap
  fresh : ∀ keep : Attribute → Bool,
    Fresh emptyDas 1 (itemsOf (das.topLevel.attrMap.filter keep))
  current : dds.container = false
  attr : dds.attr = []
  bare : ∀ var ∈ dds.vars, Bare var
  distinct : (names dds).Nodup
  simple : ∀ var ∈ dds.vars, ∃ v, var = .other v

/-- The search ends at no table, or at one without entries. -/
def FindsNothing (t : Table) (name : List Char) : Prop :=
  ∀ at', getAttrTable t name = .ok (some at') → at'.attrMap = []

/-- No top-level name twice, and no variable that finds an attribute in the DAS, or anything
else in the DAS that is read back, where the outermost table has no name. -/
structure Unattributed (das : DAS) (dds : DDS) : Prop where
  distinct : Distinct das.topLevel.attrMap
  nothing : ∀ var ∈ dds.vars, FindsNothing das.topLevel var.var.name
  again : ∀ var ∈ dds.vars, ∀ at',
    getAttrTable { das.topLevel with name := [] } var.var.name = .ok (some at') →
      getAttrTable das.topLevel var.var.name = .ok (some at')

/-- Names that lead nowhere as a path or as that of the whole DAS. -/
def PlainNames (dds : DDS) : Prop := ∀ name ∈ names dds, name ≠ [] ∧ Dotless name

/-! ## What a transfer moves -/

variable {check : Keyword → List Char → Bool} {es own own' : List Attribute} {e : Attribute}
  {t : Table} {marks marks' : Marks} {das : DAS} {dds : DDS} {garbage : Option (List String)}

mutual
theorem sizeOfEntry_copy (e : Attribute) : sizeOfEntry (e.copy garbage) = sizeOfEntry e := by
  cases e with
  | values name type isGlobal attr => rfl
  | container name address tableName attrMap =>
    rw [Attribute.copy, sizeOfEntry, sizeOfEntry, entries_copyAll attrMap]

theorem entries_copyAll (es : List Attribute) : entries (copyAll garbage es) = entries es := by
  cases es with
  | nil => rfl
  | cons e es => rw [copyAll, entries, entries, sizeOfEntry_copy e, entries_copyAll es]
end

mutual
theorem sizeOfEntry_erase (e : Attribute) : sizeOfEntry (erase e) = sizeOfEntry e := by
  cases e with
  | values name type isGlobal attr => rfl
  | container name address tableName attrMap =>
    rw [erase, sizeOfEntry, sizeOfEntry, entries_eraseAll attrMap]

theorem entries_eraseAll (es : List Attribute) : entries (eraseAll es) = entries es := by
  cases es with
  | nil => rfl
  | cons e es => rw [eraseAll, entries, entries, sizeOfEntry_erase e, entries_eraseAll es]
end

theorem appendCopy_size {name : List Char} (run : appendCopy garbage own t name = .ok own') :
    entries own' = entries own + 1 + entries t.attrMap := by
  rw [appendCopy] at run
  split at run
  · cases run
  · cases run
    rw [entries_append, entries, sizeOfEntry, entries_copyAll, entries]
    omega

theorem transferEntry_size (run : transferEntry garbage own e = .ok own') :
    entries own' ≤ entries own + sizeOfEntry e := by
  cases e with
  | container name address tableName attrMap =>
    have size := appendCopy_size run
    dsimp only at size
    rw [sizeOfEntry]
    omega
  | values name type isGlobal attr =>
    rw [transferEntry] at run
    cases attr with
    | none => cases run
    | some values =>
      change appendAttr own name _ values = .ok own' at run
      rw [appendAttr] at run
      rw [sizeOfEntry]
      split at run
      · split at run
        · cases run
        · split at run
          · cases run
          · cases run
            rw [(appendToFirst_size _ _ own).1]
            exact Nat.le_succ _
      · cases run
        rw [entries_append]
        simp [entries, sizeOfEntry]

theorem fold_size {f : List Attribute → Attribute → Except Failure (List Attribute)}
    (turn : ∀ own e own', f own e = .ok own' → entries own' ≤ entries own + sizeOfEntry e)
    (run : es.foldlM f own = .ok own') : entries own' ≤ entries own + entries es := by
  induction es generalizing own with
  | nil =>
    cases run
    exact Nat.le_add_right _ _
  | cons e es ih =>
    obtain ⟨middle, first, rest⟩ := bind_success run
    have one := turn own e middle first
    have later := ih rest
    rw [entries]
    omega

theorem transferGlobal_size (run : es.foldlM (transferGlobal garbage marks) own = .ok own') :
    entries own' ≤ entries own + entries (es.filter (isGlobalAttribute marks)) := by
  induction es generalizing own with
  | nil =>
    cases run
    exact Nat.le_add_right _ _
  | cons e es ih =>
    obtain ⟨middle, first, rest⟩ := bind_success run
    have later := ih rest
    rw [List.filter_cons]
    cases e with
    | values name type isGlobal attr =>
      cases first
      split
      · rw [entries]
        omega
      · exact later
    | container name address tableName attrMap =>
      rw [transferGlobal] at first
      by_cases marked : marks address = true
      · rw [if_pos marked] at first
        have size := appendCopy_size first
        dsimp only at size
        have kept : isGlobalAttribute marks (.container name address tableName attrMap) = true :=
          marked
        rw [if_pos kept, entries, sizeOfEntry]
        omega
      · rw [if_neg marked] at first
        cases first
        have dropped : ¬ isGlobalAttribute marks (.container name address tableName attrMap) = true :=
          marked
        rw [if_neg dropped]
        exact later

/-- A variable that finds its container leaves the container itself behind. -/
theorem variable_size {v v' : Variable} (bare : v.attributes = []) (searched : Searched t v.name)
    (unnamed : t.name ≠ v.name) (run : v.transferAttributes garbage t marks = .ok (v', marks')) :
    (containerIn t.attrMap v.name = none ∧ v'.attributes = [] ∧ marks' = marks) ∨
      ∃ e, containerIn t.attrMap v.name = some e ∧ entries v'.attributes + 1 ≤ sizeOfEntry e ∧
        marks' = lower marks (addressOf e).toList := by
  rw [Variable.transferAttributes, searched] at run
  cases found : simpleFindContainer t v.name with
  | none =>
    rw [found] at run
    cases run
    refine .inl ⟨?_, bare, rfl⟩
    rw [search_container unnamed] at found
    cases search : containerIn t.attrMap v.name with
    | none => rfl
    | some e =>
      rw [search] at found
      cases e with
      | values name type isGlobal attr => cases (containerIn_some search).2.1
      | container name address tableName attrMap => cases found
  | some at' =>
    rw [found] at run
    obtain ⟨_, searched', run⟩ := bind_success run
    cases searched'
    obtain ⟨moved, fold, run⟩ := bind_success run
    cases run
    rw [search_container unnamed, Option.bind_eq_some_iff] at found
    obtain ⟨e, search, table⟩ := found
    have parts := table_some table
    refine .inr ⟨e, search, ?_, ?_⟩
    · have size := fold_size (fun _ _ _ => transferEntry_size) (bare ▸ fold)
      have start : entries [] = 0 := rfl
      cases e with
      | values name type isGlobal attr => cases table
      | container name address tableName attrMap =>
        cases table
        rw [sizeOfEntry]
        dsimp only at size ⊢
        omega
    · rw [parts.2.1, setIsGlobalAttribute_false]
      rfl

/-- The sizes of the containers that have these names. -/
def claimedSize (es : List Attribute) (ns : List (List Char)) : Nat :=
  (ns.map fun name => (containerIn es name).elim 0 sizeOfEntry).sum

theorem containerIn_cons_self (container : e.isContainer = true) :
    containerIn (e :: es) e.name = some e := by
  simp [containerIn, container]

theorem containerIn_cons_other {name : List Char} (other : ¬ (e.isContainer = true ∧ e.name = name)) :
    containerIn (e :: es) name = containerIn es name := by
  rw [containerIn, containerIn, List.find?_cons_of_neg]
  simpa using other

/-- What variables with distinct names claim, and what is left, is all there is. -/
theorem claimed_bound {ns : List (List Char)} (distinct : ns.Nodup) (keep : Attribute → Bool)
    (claimed : ∀ name ∈ ns, ∀ e, containerIn es name = some e → keep e = false) :
    claimedSize es ns + entries (es.filter keep) ≤ entries es := by
  induction es generalizing ns with
  | nil =>
    have none_found : claimedSize [] ns = 0 := by
      rw [claimedSize, List.sum_eq_zero_iff]
      intro n mem
      obtain ⟨name, _, rfl⟩ := List.mem_map.mp mem
      rfl
    rw [none_found]
    exact Nat.le_refl 0
  | cons e es ih =>
    by_cases here : e.isContainer = true ∧ e.name ∈ ns
    · have first : containerIn (e :: es) e.name = some e := containerIn_cons_self here.1
      have dropped := claimed e.name here.2 e first
      have others : ∀ name ∈ ns.erase e.name,
          containerIn (e :: es) name = containerIn es name := by
        intro name mem
        refine containerIn_cons_other fun same => ?_
        exact (distinct.mem_erase_iff.mp mem).1 same.2.symm
      have rest := ih (distinct.erase e.name) fun name mem f found =>
        claimed name (List.mem_of_mem_erase mem) f ((others name mem).trans found)
      have whole : claimedSize (e :: es) ns = sizeOfEntry e + claimedSize es (ns.erase e.name) := by
        have same : ((ns.erase e.name).map fun name =>
            (containerIn (e :: es) name).elim 0 sizeOfEntry) =
              (ns.erase e.name).map fun name => (containerIn es name).elim 0 sizeOfEntry :=
          List.map_congr_left fun name mem => by rw [others name mem]
        have split := ((List.perm_cons_erase here.2).map fun name =>
          (containerIn (e :: es) name).elim 0 sizeOfEntry).sum_eq
        rw [claimedSize, split, List.map_cons, List.sum_cons, first, same]
        rfl
      rw [whole, List.filter_cons_of_neg (by simp [dropped]), entries]
      omega
    · have others : ∀ name ∈ ns, containerIn (e :: es) name = containerIn es name := by
        intro name mem
        exact containerIn_cons_other fun same => here ⟨same.1, same.2 ▸ mem⟩
      have rest := ih distinct fun name mem f found =>
        claimed name mem f ((others name mem).trans found)
      have same : claimedSize (e :: es) ns = claimedSize es ns := by
        rw [claimedSize, claimedSize]
        refine congrArg List.sum (List.map_congr_left ?_)
        intro name mem
        rw [others name mem]
      rw [same, List.filter_cons, entries]
      split
      · rw [entries]
        omega
      · omega

/-- The tables of the variables, what their containers leave behind, and the marks. -/
structure Claimed (t : Table) (vars vars' : List Member) (marks' : Marks) : Prop where
  size : (vars'.map fun var => entries var.var.attributes).sum +
    vars.countP (fun var => (containerIn t.attrMap var.var.name).isSome) ≤
      claimedSize t.attrMap (vars.map fun var => var.var.name)
  cleared : ∀ var ∈ vars, ∀ e, containerIn t.attrMap var.var.name = some e →
    isGlobalAttribute marks' e = false

theorem isGlobalAttribute_lower {cleared : List Nat} (dropped : isGlobalAttribute marks e = false) :
    isGlobalAttribute (lower marks cleared) e = false := by
  cases e with
  | values name type isGlobal attr => exact dropped
  | container name address tableName attrMap =>
    simp only [isGlobalAttribute, lower] at dropped ⊢
    split
    · rfl
    · exact dropped

theorem var_other (v : Variable) : (Member.other v).var = v := rfl

theorem transferMembers_keeps {vars vars' : List Member}
    (simple : ∀ var ∈ vars, ∃ v, var = .other v)
    (bare : ∀ var ∈ vars, Bare var) (plain : ∀ var ∈ vars, Searched t var.var.name ∧
      t.name ≠ var.var.name)
    (run : transferMembers garbage t vars marks = .ok (vars', marks')) :
    Claimed t vars vars' marks' ∧
      ∀ e, isGlobalAttribute marks e = false → isGlobalAttribute marks' e = false := by
  induction vars generalizing marks vars' with
  | nil =>
    cases run
    exact ⟨⟨Nat.le_refl 0, fun _ mem => absurd mem List.not_mem_nil⟩, fun _ dropped => dropped⟩
  | cons var vars ih =>
    rw [transferMembers] at run
    obtain ⟨⟨var', middle⟩, first, run⟩ := bind_success run
    obtain ⟨⟨rest, last⟩, later, run⟩ := bind_success run
    cases run
    obtain ⟨v, rfl⟩ := simple var List.mem_cons_self
    rw [Member.transferAttributes] at first
    obtain ⟨⟨v', _⟩, moved, first⟩ := bind_success first
    cases first
    have own := plain _ List.mem_cons_self
    have tail := ih (fun var mem => simple var (List.mem_cons_of_mem _ mem))
      (fun var mem => bare var (List.mem_cons_of_mem _ mem))
      (fun var mem => plain var (List.mem_cons_of_mem _ mem)) later
    have size := tail.1.size
    have one := variable_size (bare _ List.mem_cons_self) own.1 own.2 moved
    rcases one with ⟨missing, empty, same⟩ | ⟨e, found, smaller, same⟩
    · subst same
      refine ⟨⟨?_, ?_⟩, tail.2⟩
      · rw [claimedSize] at size ⊢
        simp only [List.map_cons, List.sum_cons, var_other, missing, empty, entries,
          Option.elim_none, List.countP_cons, Option.isSome_none, Bool.false_eq_true, if_false]
        omega
      · intro var mem e found
        cases mem with
        | head =>
          rw [var_other, missing] at found
          cases found
        | tail _ mem => exact tail.1.cleared var mem e found
    · subst same
      refine ⟨⟨?_, ?_⟩, fun e dropped => tail.2 e (isGlobalAttribute_lower dropped)⟩
      · rw [claimedSize] at size ⊢
        simp only [List.map_cons, List.sum_cons, var_other, found, Option.elim_some,
          List.countP_cons, Option.isSome_some, if_true] at size ⊢
        omega
      · intro var mem f search
        cases mem with
        | head =>
          rw [var_other, found, Option.some.injEq] at search
          subst search
          apply tail.2 e
          cases e with
          | values name type isGlobal attr => cases (containerIn_some found).2.1
          | container name address tableName attrMap =>
            simp [isGlobalAttribute, lower, addressOf]
        | tail _ mem => exact tail.1.cleared var mem f search

theorem claimedSize_none {vars : List Member}
    (none_found : vars.countP (fun var => (containerIn es var.var.name).isSome) = 0) :
    claimedSize es (vars.map fun var => var.var.name) = 0 := by
  rw [claimedSize, List.sum_eq_zero_iff]
  intro n mem
  rw [List.map_map] at mem
  obtain ⟨var, member, rfl⟩ := List.mem_map.mp mem
  have missing := List.countP_eq_zero.mp none_found var member
  rw [Function.comp_apply]
  cases found : containerIn es var.var.name with
  | none => rfl
  | some e => simp [found] at missing

/-- A transfer does not make attributes, and each container a variable claims is lost. -/
theorem transfer_size {dds' : DDS} (simple : ∀ var ∈ dds.vars, ∃ v, var = .other v)
    (current : dds.container = false) (attr : dds.attr = []) (bare : ∀ var ∈ dds.vars, Bare var)
    (distinct : (names dds).Nodup)
    (plain : ∀ var ∈ dds.vars, Searched das.topLevel var.var.name ∧
      das.topLevel.name ≠ var.var.name)
    (run : dds.transferAttributes garbage das marks = .ok (dds', marks')) :
    (dds'.vars.map fun var => entries var.var.attributes).sum + entries dds'.attr +
        dds.vars.countP (fun var => (containerIn das.topLevel.attrMap var.var.name).isSome) ≤
      entries das.topLevel.attrMap ∧
    (dds.vars.countP (fun var => (containerIn das.topLevel.attrMap var.var.name).isSome) = 0 →
      (dds'.vars.map fun var => entries var.var.attributes).sum = 0) := by
  rw [DDS.transferAttributes, if_neg (by simp [current])] at run
  obtain ⟨⟨vars, last⟩, members, run⟩ := bind_success run
  obtain ⟨global, fold, run⟩ := bind_success run
  obtain ⟨rfl, rfl⟩ := Prod.mk.inj (Except.ok.inj run)
  have kept := transferMembers_keeps simple bare plain members
  have globalSize := transferGlobal_size fold
  rw [attr] at globalSize
  have start : entries [] = 0 := rfl
  have bound := claimed_bound distinct (isGlobalAttribute last) (by
    intro name mem e found
    obtain ⟨var, member, rfl⟩ := List.mem_map.mp mem
    exact kept.1.cleared var member e found)
  have size := kept.1.size
  rw [names] at bound
  refine ⟨?_, fun none_found => ?_⟩
  · dsimp only
    omega
  · have empty := claimedSize_none none_found
    dsimp only
    omega

/-! ## What is printed -/

theorem keywordOf_known {type : Attributes.AttrType} {k : Keyword} (found : keywordOf type = some k) :
    type ≠ .unknown := by
  intro same
  rw [same] at found
  cases found

mutual
theorem whole_of_survives (e : Attribute) (survives : Survives check e) : Whole e := by
  cases e with
  | values name type isGlobal attr =>
    rw [Survives] at survives
    obtain ⟨_, k, value, values, keyword, set, _⟩ := survives
    rw [Whole]
    exact ⟨keywordOf_known keyword, set ▸ rfl⟩
  | container name address tableName attrMap =>
    rw [Survives] at survives
    rw [Whole]
    exact allWhole_of_survive attrMap survives.2.2.2

theorem allWhole_of_survive (es : List Attribute) (survive : AllSurvive check es) :
    AllWhole es := by
  cases es with
  | nil => trivial
  | cons e es =>
    rw [AllSurvive] at survive
    rw [AllWhole]
    exact ⟨whole_of_survives e survive.1, allWhole_of_survive es survive.2⟩
end

mutual
theorem copy_whole (garbage : Option (List String)) (e : Attribute) (whole : Whole e) :
    e.copy garbage = e := by
  cases e with
  | values name type isGlobal attr =>
    rw [Whole] at whole
    rw [Attribute.copy, if_neg whole.1]
  | container name address tableName attrMap =>
    rw [Whole] at whole
    rw [Attribute.copy, copyAll_whole garbage attrMap whole]

theorem copyAll_whole (garbage : Option (List String)) (es : List Attribute)
    (whole : AllWhole es) : copyAll garbage es = es := by
  cases es with
  | nil => rfl
  | cons e es =>
    rw [AllWhole] at whole
    rw [copyAll, copy_whole garbage e whole.1, copyAll_whole garbage es whole.2]
end

theorem allSurvive_iff : AllSurvive check es ↔ ∀ e ∈ es, Survives check e := by
  induction es with
  | nil => simp [AllSurvive]
  | cons e es ih => simp [AllSurvive, ih]

theorem eraseAll_eq_map (es : List Attribute) : eraseAll es = es.map erase := by
  induction es with
  | nil => rfl
  | cons e es ih => rw [eraseAll, ih, List.map_cons]

theorem itemsOf_eq_map (es : List Attribute) : itemsOf es = es.map itemOf := by
  induction es with
  | nil => rfl
  | cons e es ih => rw [itemsOf, ih, List.map_cons]

theorem survives_transferred (survives : Survives check e) :
    Survives check (transferred garbage e) := by
  cases e with
  | values name type isGlobal attr => exact survives
  | container name address tableName attrMap =>
    have whole := whole_of_survives _ survives
    rw [Whole] at whole
    rw [Survives] at survives
    rw [transferred, copyAll_whole garbage attrMap whole, Survives]
    exact ⟨survives.1, survives.2.1, rfl, survives.2.2.2⟩

theorem itemOf_transferred (survives : Survives check e) :
    itemOf (transferred garbage e) = itemOf e := by
  cases e with
  | values name type isGlobal attr => rfl
  | container name address tableName attrMap =>
    have whole := whole_of_survives _ survives
    rw [Whole] at whole
    rw [transferred, copyAll_whole garbage attrMap whole, itemOf, itemOf]

theorem erase_transferred (whole : Whole e) (named : ∀ at', e.table = some at' → at'.name = e.name) :
    erase (transferred garbage e) = erase e := by
  cases e with
  | values name type isGlobal attr => rfl
  | container name address tableName attrMap =>
    have same : tableName = name := named _ rfl
    rw [Whole] at whole
    rw [transferred, copyAll_whole garbage attrMap whole, same]

theorem printAll_append {pad text more : List Char} {fs : List Attribute}
    (first : printAll pad es = .ok text) (later : printAll pad fs = .ok more) :
    printAll pad (es ++ fs) = .ok (text ++ more) := by
  induction es generalizing text with
  | nil =>
    cases first
    exact later
  | cons e es ih =>
    rw [printAll] at first
    obtain ⟨head, one, first⟩ := bind_success first
    obtain ⟨rest, two, first⟩ := bind_success first
    cases first
    rw [List.cons_append, printAll, one, ih two, List.append_assoc]
    rfl

theorem printVars_ok {vars : List Member}
    (survive : ∀ var ∈ vars, AllSurvive check var.var.attributes) :
    ∃ texts, (vars.mapM fun var => printAll "    ".toList var.var.attributes) = .ok texts ∧
      printAll "    ".toList (vars.flatMap fun var => var.var.attributes) =
        .ok texts.flatten := by
  induction vars with
  | nil => exact ⟨[], rfl, rfl⟩
  | cons var vars ih =>
    obtain ⟨texts, run, flat⟩ := ih fun var mem => survive var (List.mem_cons_of_mem _ mem)
    obtain ⟨text, first, _⟩ := printAll_gives _ (survive var List.mem_cons_self) "    ".toList
      (all_mem (by decide))
    refine ⟨text :: texts, ?_, ?_⟩
    · rw [List.mapM_cons, first, run]
      rfl
    · rw [List.flatMap_cons, List.flatten_cons]
      exact printAll_append first flat

/-- All entries that `print_das` writes, one table after the other. -/
def printedEntries (dds : DDS) : List Attribute :=
  dds.attr ++ dds.vars.flatMap fun var => var.var.attributes

theorem printDas_entries (global : AllSurvive check dds.attr)
    (survive : ∀ var ∈ dds.vars, AllSurvive check var.var.attributes) :
    DDS.printDas dds = DASText.printDas (printedEntries dds) := by
  obtain ⟨text, first, _⟩ := printAll_gives _ global "    ".toList (all_mem (by decide))
  obtain ⟨texts, run, flat⟩ := printVars_ok survive
  have whole := printAll_append first flat
  rw [DDS.printDas, DASText.printDas, printedEntries, first, run, whole]
  simp only [bind, Except.bind, List.append_assoc]

/-! ## What the first transfer gives -/

theorem allSurvive_append {fs : List Attribute} (first : AllSurvive check es)
    (later : AllSurvive check fs) : AllSurvive check (es ++ fs) := by
  rw [allSurvive_iff] at first later ⊢
  intro e mem
  exact (List.mem_append.mp mem).elim (first e) (later e)

theorem allSurvive_transferred (survive : AllSurvive check es) :
    AllSurvive check (es.map (transferred garbage)) := by
  rw [allSurvive_iff] at survive ⊢
  intro e mem
  obtain ⟨f, inside, rfl⟩ := List.mem_map.mp mem
  exact survives_transferred (survive f inside)

theorem carried_survive {v : Variable} (survive : AllSurvive check t.attrMap)
    (unnamed : t.name ≠ v.name) : AllSurvive check (carried garbage t v).attributes := by
  rw [carried]
  dsimp only
  cases found : simpleFindContainer t v.name with
  | none => trivial
  | some at' =>
    obtain ⟨e, mem, _, table⟩ := search_entry unnamed found
    have own := allSurvive_iff.mp survive e mem
    cases e with
    | values name type isGlobal attr => cases table
    | container name address tableName attrMap =>
      cases table
      rw [Survives] at own
      exact allSurvive_transferred own.2.2.2

theorem carriedDDS_survive (printable : Printable check das dds) (regular : Regular das marks dds) :
    AllSurvive check (carriedDDS none das marks dds).attr ∧
      ∀ var ∈ (carriedDDS none das marks dds).vars, AllSurvive check var.var.attributes := by
  constructor
  · refine allSurvive_transferred (allSurvive_iff.mpr fun e mem => ?_)
    exact allSurvive_iff.mp printable.survive e (List.mem_of_mem_filter mem)
  · intro var mem
    obtain ⟨var₀, mem₀, rfl⟩ := List.mem_map.mp mem
    have unnamed := (regular.served var₀ mem₀).unnamed
    obtain ⟨v, rfl⟩ := printable.simple var₀ mem₀
    exact carried_survive printable.survive unnamed

theorem entries_zero (none_there : entries es = 0) : es = [] := by
  cases es with
  | nil => rfl
  | cons e es =>
    rw [entries] at none_there
    cases e with
    | values name type isGlobal attr =>
      rw [sizeOfEntry] at none_there
      omega
    | container name address tableName attrMap =>
      rw [sizeOfEntry] at none_there
      omega

theorem entries_flatMap (vars : List Member) :
    entries (vars.flatMap fun var => var.var.attributes) =
      (vars.map fun var => entries var.var.attributes).sum := by
  induction vars with
  | nil => rfl
  | cons var vars ih => rw [List.flatMap_cons, entries_append, ih, List.map_cons, List.sum_cons]

theorem tables_size {dds' : DDS} (same : tablesOf dds = tablesOf dds') :
    (dds.vars.map fun var => entries var.var.attributes).sum =
      (dds'.vars.map fun var => entries var.var.attributes).sum := by
  have each : ∀ dds : DDS, (dds.vars.map fun var => entries var.var.attributes) =
      (tablesOf dds).map entries := by
    intro dds
    rw [tablesOf, List.map_map]
    exact List.map_congr_left fun var _ => (entries_eraseAll var.var.attributes).symm
  rw [each, each, same]

theorem carried_empty {v : Variable} (printable : Printable check das dds)
    (regular : Regular das marks dds) (mem : .other v ∈ dds.vars) :
    (carried none das.topLevel v).attributes = [] ↔
      ∀ e ∈ das.topLevel.attrMap, e.name = v.name → entriesOf e = [] := by
  have unnamed : das.topLevel.name ≠ v.name := (regular.served _ mem).unnamed
  rw [carried]
  dsimp only
  rw [search_container unnamed]
  constructor
  · intro empty e there named
    have search := containerIn_mem regular.listed.distinct there (printable.containers e there)
    rw [named] at search
    rw [search] at empty
    cases e with
    | values name type isGlobal attr => rfl
    | container name address tableName attrMap => exact List.map_eq_nil_iff.mp empty
  · intro empty
    cases search : containerIn das.topLevel.attrMap v.name with
    | none => rfl
    | some e =>
      have entry := containerIn_some search
      have none_inside := empty e entry.1 entry.2.2
      cases e with
      | values name type isGlobal attr => rfl
      | container name address tableName attrMap =>
        rw [entriesOf] at none_inside
        rw [none_inside]
        rfl

/-- A variable's attributes come back as global ones, or are lost. -/
theorem keeps_only (printable : Printable check das dds) (plain : PlainNames dds)
    (regular : Regular das marks dds) (keeps : KeepsAttributes check das marks dds) :
    ∀ var ∈ dds.vars, ∀ e ∈ das.topLevel.attrMap, e.name = var.var.name → entriesOf e = [] := by
  obtain ⟨dds₁, marks₁, text, t, n, dds₂, marks₂, first, print, parsed, second, tables, global⟩ :=
    keeps
  rw [transferAttributes_ok none printable.containers printable.current printable.attr
    printable.bare printable.distinct regular, Except.ok.injEq, Prod.mk.injEq] at first
  obtain ⟨rfl, rfl⟩ := first
  have survive := carriedDDS_survive printable regular
  rw [printDas_entries survive.1 survive.2] at print
  have written : AllSurvive check (printedEntries (carriedDDS none das marks dds)) := by
    refine allSurvive_append survive.1 (allSurvive_iff.mpr fun e mem => ?_)
    obtain ⟨var, there, inside⟩ := List.mem_flatMap.mp mem
    exact allSurvive_iff.mp (survive.2 var there) e inside
  have bound := parseText_entries written print parsed
  have size := transfer_size printable.simple printable.current printable.attr printable.bare
    printable.distinct (fun var mem =>
      have own := plain var.var.name (List.mem_map_of_mem mem)
      ⟨searched_of_dotless own.2, fun same => own.1 (same.symm.trans bound.2)⟩) second
  have vars := tables_size tables
  have globals : entries (carriedDDS none das marks dds).attr = entries dds₂.attr := by
    rw [← entries_eraseAll, global, entries_eraseAll]
  have parts : entries (printedEntries (carriedDDS none das marks dds)) =
      entries dds₂.attr + (dds₂.vars.map fun var => entries var.var.attributes).sum := by
    rw [printedEntries, entries_append, entries_flatMap, globals, vars]
  have room := size.1.trans bound.1
  have nothing := size.2 (by omega)
  rw [← vars, List.sum_eq_zero_iff] at nothing
  intro var mem
  obtain ⟨v, rfl⟩ := printable.simple var mem
  refine (carried_empty printable regular mem).mp (entries_zero (nothing _ ?_))
  exact List.mem_map.mpr ⟨_, List.mem_map_of_mem mem, rfl⟩

/-! ## When nothing is printed but global attributes -/

theorem erase_name (e : Attribute) : (erase e).name = e.name := by
  cases e <;> rfl

mutual
theorem whole_erase (e : Attribute) : Whole (erase e) ↔ Whole e := by
  cases e with
  | values name type isGlobal attr => exact Iff.rfl
  | container name address tableName attrMap =>
    rw [erase, Whole, Whole]
    exact allWhole_erase attrMap

theorem allWhole_erase (es : List Attribute) : AllWhole (eraseAll es) ↔ AllWhole es := by
  cases es with
  | nil => exact Iff.rfl
  | cons e es => rw [eraseAll, AllWhole, AllWhole, whole_erase e, allWhole_erase es]
end

/-- Entries as those of a DAS that can be transferred. -/
structure Settled (es : List Attribute) : Prop where
  containers : ∀ e ∈ es, e.isContainer = true
  listed : Listed es
  decoded : ∀ e ∈ es, removeSpaceEncoding e.name = e.name
  whole : AllWhole es

theorem settled_of_survive (containers : ∀ e ∈ es, e.isContainer = true)
    (distinct : Distinct es) (survive : AllSurvive check es) : Settled es where
  containers := containers
  whole := allWhole_of_survive es survive
  listed :=
    { distinct
      named := by
        intro e mem t table
        have own := allSurvive_iff.mp survive e mem
        cases e with
        | values name type isGlobal attr => cases table
        | container name address tableName attrMap =>
          cases table
          rw [Survives] at own
          exact own.2.2.1 }
  decoded := by
    intro e mem
    have own := allSurvive_iff.mp survive e mem
    cases e with
    | values name type isGlobal attr => cases containers _ mem
    | container name address tableName attrMap =>
      rw [Survives] at own
      have twice := removeSpaceEncoding_twice (addSpaceEncoding name)
      rw [own.1.decoded] at twice
      exact twice

theorem settled_erase : Settled (eraseAll es) ↔ Settled es := by
  have container : ∀ e, (erase e).isContainer = e.isContainer := fun e => by cases e <;> rfl
  have table : ∀ e, (∀ at', (erase e).table = some at' → at'.name = (erase e).name) ↔
      ∀ at', e.table = some at' → at'.name = e.name := by
    intro e
    cases e <;> simp [erase, Attribute.table, Attribute.name]
  have names : (es.map erase).map Attribute.name = es.map Attribute.name := by
    rw [List.map_map]
    exact List.map_congr_left fun e _ => erase_name e
  constructor
  · intro settled
    have whole := (allWhole_erase es).mp settled.whole
    rw [eraseAll_eq_map] at settled
    have inside : ∀ e ∈ es, erase e ∈ es.map erase := fun e mem => List.mem_map_of_mem mem
    refine ⟨fun e mem => container e ▸ settled.containers _ (inside e mem),
      ⟨?_, ?_⟩, ?_, whole⟩
    · rw [Distinct, ← names]
      exact settled.listed.distinct
    · exact fun e mem => (table e).mp (settled.listed.named _ (inside e mem))
    · intro e mem
      rw [← erase_name e]
      exact settled.decoded _ (inside e mem)
  · intro settled
    have whole := (allWhole_erase es).mpr settled.whole
    rw [eraseAll_eq_map] at whole ⊢
    refine ⟨?_, ⟨?_, ?_⟩, ?_, whole⟩
    · intro e mem
      obtain ⟨f, inside, rfl⟩ := List.mem_map.mp mem
      rw [container]
      exact settled.containers f inside
    · rw [Distinct, names]
      exact settled.listed.distinct
    · intro e mem
      obtain ⟨f, inside, rfl⟩ := List.mem_map.mp mem
      exact (table f).mpr (settled.listed.named f inside)
    · intro e mem
      obtain ⟨f, inside, rfl⟩ := List.mem_map.mp mem
      rw [erase_name]
      exact settled.decoded f inside

theorem Settled.stored (settled : Settled es) : ∀ e ∈ es, Stored e := by
  intro e mem
  refine ⟨settled.decoded e mem, ?_⟩
  have whole := allWhole_iff.mp settled.whole e mem
  cases e with
  | values name type isGlobal attr => cases settled.containers _ mem
  | container name address tableName attrMap =>
    rw [Whole] at whole
    exact whole

theorem eraseAll_transferred (settled : Settled es) :
    eraseAll (es.map (transferred garbage)) = eraseAll es := by
  rw [eraseAll_eq_map, eraseAll_eq_map, List.map_map]
  refine List.map_congr_left fun e mem => ?_
  exact erase_transferred (allWhole_iff.mp settled.whole e mem) (settled.listed.named e mem)

/-- The addresses of the tables that the variables find. -/
def Cleared (t : Table) (vars : List Member) (cleared : List Nat) : Prop :=
  ∀ a, a ∈ cleared ↔
    ∃ var ∈ vars, ∃ at', getAttrTable t var.var.name = .ok (some at') ∧ at'.address = a

/-- Variables that find no attribute are left as they are. -/
theorem transferMembers_nothing (garbage : Option (List String)) (marks : Marks)
    {vars : List Member} (simple : ∀ var ∈ vars, ∃ v, var = .other v)
    (nothing : ∀ var ∈ vars, FindsNothing t var.var.name) :
    ∃ cleared, transferMembers garbage t vars marks = .ok (vars, lower marks cleared) ∧
      Cleared t vars cleared := by
  induction vars generalizing marks with
  | nil => exact ⟨[], by rw [lower_nil]; rfl, fun a => by simp⟩
  | cons var vars ih =>
    obtain ⟨v, rfl⟩ := simple var List.mem_cons_self
    have own : ∃ first, v.transferAttributes garbage t marks = .ok (v, lower marks first) ∧
        ∀ a, a ∈ first ↔ ∃ at', getAttrTable t v.name = .ok (some at') ∧ at'.address = a := by
      obtain ⟨found, search⟩ := getAttrTable_ends t v.name
      rw [Variable.transferAttributes, search]
      cases found with
      | none => exact ⟨[], by rw [lower_nil]; rfl, fun a => by simp⟩
      | some at' =>
        have empty : at'.attrMap = [] := nothing _ List.mem_cons_self at' search
        refine ⟨[at'.address], ?_, fun a => by simp [eq_comm]⟩
        simp only [bind, Except.bind, empty, List.foldlM_nil, pure, Except.pure,
          setIsGlobalAttribute_false]
    obtain ⟨first, run, here⟩ := own
    obtain ⟨rest, later, there⟩ := ih (lower marks first)
      (fun var mem => simple var (List.mem_cons_of_mem _ mem))
      fun var mem => nothing var (List.mem_cons_of_mem _ mem)
    refine ⟨first ++ rest, ?_, fun a => ?_⟩
    · rw [transferMembers, Member.transferAttributes, run]
      simp only [bind, Except.bind, pure, Except.pure, later, lower_lower]
    · rw [List.mem_append, here, there]
      simp [var_other]

/-- Where no variable finds an attribute, the DAS is transferred to the globals. -/
theorem transfer_globals (garbage : Option (List String)) (marks : Marks)
    (settled : Settled das.topLevel.attrMap)
    (simple : ∀ var ∈ dds.vars, ∃ v, var = .other v) (current : dds.container = false)
    (attr : dds.attr = []) (nothing : ∀ var ∈ dds.vars, FindsNothing das.topLevel var.var.name) :
    ∃ cleared, dds.transferAttributes garbage das marks =
        .ok ({ dds with attr := (das.topLevel.attrMap.filter
          (isGlobalAttribute (lower marks cleared))).map (transferred garbage) },
          lower marks cleared) ∧
      Cleared das.topLevel dds.vars cleared := by
  obtain ⟨cleared, members, which⟩ := transferMembers_nothing garbage marks simple nothing
  have globals := transferGlobal_ok garbage (lower marks cleared) settled.containers
    settled.listed fun e mem => settled.stored e (List.mem_of_mem_filter mem)
  refine ⟨cleared, ?_, which⟩
  rw [DDS.transferAttributes, if_neg (by simp [current])]
  simp only [members, bind, Except.bind, attr, globals]
  rfl

/-- What is read back of the globals. -/
structure Returned (left es : List Attribute) : Prop where
  same : eraseAll es = eraseAll left
  settled : Settled es
  single : (reach es).Nodup
  apart : 0 ∉ addresses es

theorem parsed_back {left : List Attribute} (containers : ∀ e ∈ left, e.isContainer = true)
    (distinct : Distinct left) (survive : AllSurvive check left)
    (fresh : Fresh emptyDas 1 (itemsOf left)) :
    ∃ text es n, DASText.printDas (left.map (transferred none)) = .ok text ∧
      parseText check (.initial 0) text = .ok ({ address := 0, name := [], attrMap := es }, n) ∧
      Returned left es := by
  have settled := settled_of_survive containers distinct survive
  have moved : AllSurvive check (left.map (transferred none)) := allSurvive_transferred survive
  have items : itemsOf (left.map (transferred none)) = itemsOf left := by
    rw [itemsOf_eq_map, itemsOf_eq_map, List.map_map]
    exact List.map_congr_left fun e mem => itemOf_transferred (allSurvive_iff.mp survive e mem)
  obtain ⟨text, printed, parsed⟩ := parseText_printed moved (items ▸ fresh)
  have same : eraseAll (built 1 (itemsOf (left.map (transferred none)))).1 = eraseAll left :=
    (eraseAll_built _ moved 1).trans (eraseAll_transferred settled)
  have single := reach_nodup (itemsOf (left.map (transferred none))) 1
  refine ⟨text, _, _, printed, parsed, same, settled_erase.mp (same ▸ settled_erase.mpr settled),
    single.1, fun outermost => ?_⟩
  have least : 1 ≤ 0 := single.2 _ (addresses_reach outermost)
  omega

/-- Nothing is cleared on the outermost level. -/
theorem filter_lowered {cleared : List Nat} (containers : ∀ e ∈ es, e.isContainer = true)
    (stays : ∀ a ∈ cleared, a ∉ addresses es) :
    es.filter (isGlobalAttribute (lower (fun _ => true) cleared)) = es := by
  rw [List.filter_eq_self]
  intro e mem
  have container := containers e mem
  cases e with
  | values name type isGlobal attr => cases container
  | container name address tableName attrMap =>
    have outermost : address ∈ addresses es := List.mem_flatMap.mpr ⟨_, mem, by simp [addressOf]⟩
    have kept : address ∉ cleared := fun gone => stays address gone outermost
    simp [isGlobalAttribute, lower, kept]

theorem lowered_of_found {cleared : List Nat} {at' : Table} (gone : at'.address ∈ cleared)
    (table : e.table = some at') : isGlobalAttribute (lower marks cleared) e = false := by
  cases e with
  | values name type isGlobal attr => cases table
  | container name address tableName attrMap =>
    cases table
    simp [isGlobalAttribute, lower, gone]

theorem keeps_if (printable : Printable check das dds) (unattributed : Unattributed das dds) :
    KeepsAttributes check das marks dds := by
  have settled := settled_of_survive printable.containers unattributed.distinct printable.survive
  obtain ⟨cleared, run, which⟩ := transfer_globals none marks settled printable.simple
    printable.current printable.attr unattributed.nothing
  obtain ⟨keep, kept⟩ : ∃ keep, keep = isGlobalAttribute (lower marks cleared) := ⟨_, rfl⟩
  obtain ⟨left, remain⟩ : ∃ left, left = das.topLevel.attrMap.filter keep := ⟨_, rfl⟩
  rw [← kept, ← remain] at run
  have inside : ∀ e ∈ left, e ∈ das.topLevel.attrMap := fun e mem =>
    List.mem_of_mem_filter (remain ▸ mem)
  have survive : AllSurvive check left := allSurvive_iff.mpr fun e mem =>
    allSurvive_iff.mp printable.survive e (inside e mem)
  have settledLeft := settled_of_survive (fun e mem => printable.containers e (inside e mem))
    (remain ▸ unattributed.distinct.filter keep) survive
  obtain ⟨text, es, n, printed, parsed, returned⟩ := parsed_back settledLeft.containers
    settledLeft.listed.distinct survive (remain ▸ printable.fresh keep)
  -- The variables have no attributes, so only the globals are printed.
  have bare : ∀ var ∈ dds.vars, var.var.attributes = [] := by
    intro var mem
    have own := printable.bare var mem
    obtain ⟨v, rfl⟩ := printable.simple var mem
    exact own
  have print : DDS.printDas { dds with attr := left.map (transferred none) } =
      DASText.printDas (printedEntries { dds with attr := left.map (transferred none) }) :=
    printDas_entries (allSurvive_transferred survive) fun var mem => by
      rw [bare var mem]
      trivial
  rw [printedEntries, List.flatMap_eq_nil_iff.mpr bare, List.append_nil] at print
  obtain ⟨again, read⟩ : ∃ again, again = parsedDas { address := 0, name := [], attrMap := es } :=
    ⟨_, rfl⟩
  have entries : again.topLevel.attrMap = es := by rw [read, parsedDas]
  have back : ReadBack { das.topLevel with name := [] } again.topLevel keep :=
    ⟨by rw [read, parsedDas], unattributed.distinct, by rw [entries, returned.same, remain],
      entries ▸ returned.single⟩
  have finds : ∀ var ∈ dds.vars, ∀ at'',
      getAttrTable again.topLevel var.var.name = .ok (some at'') →
      ∃ at', getAttrTable das.topLevel var.var.name = .ok (some at') ∧
        Meets { das.topLevel with name := [] } again.topLevel keep at' at'' := by
    intro var mem at'' found
    obtain ⟨at', search, meets⟩ := getAttrTable_meets back found
    exact ⟨at', unattributed.again var mem at' search, meets⟩
  have nothing : ∀ var ∈ dds.vars, FindsNothing again.topLevel var.var.name := by
    intro var mem at'' found
    obtain ⟨at', search, meets⟩ := finds var mem at'' found
    exact meets_empty back meets (unattributed.nothing var mem at' search)
  have settledBack : Settled again.topLevel.attrMap := entries ▸ returned.settled
  obtain ⟨cleared', run', which'⟩ := transfer_globals none (fun _ => true) settledBack
    printable.simple printable.current printable.attr nothing
  -- A table that the second search finds was found by the first, and is not among the globals.
  have stays : ∀ a ∈ cleared', a ∉ addresses again.topLevel.attrMap := by
    intro a mem
    obtain ⟨var, member, at'', found, rfl⟩ := (which' a).mp mem
    obtain ⟨at', search, meets⟩ := finds var member at'' found
    have outermost : again.topLevel.address ∉ addresses again.topLevel.attrMap := by
      rw [entries, read, parsedDas]
      exact returned.apart
    refine meets_apart outermost (fun e _ table => ?_) meets
    rw [kept]
    exact lowered_of_found ((which at'.address).mpr ⟨var, member, at', search, rfl⟩) table
  rw [filter_lowered settledBack.containers stays, entries, read] at run'
  refine ⟨_, _, text, _, n, _, _, run, print.trans printed, parsed, run', rfl, ?_⟩
  exact (eraseAll_transferred settledLeft).trans
    (returned.same.symm.trans (eraseAll_transferred returned.settled).symm)

/-- What a variable with a plain name finds is the container of its name. -/
theorem unattributed_of_empty (plain : PlainNames dds) (regular : Regular das marks dds)
    (empty : ∀ var ∈ dds.vars, ∀ e ∈ das.topLevel.attrMap, e.name = var.var.name →
      entriesOf e = []) : Unattributed das dds where
  distinct := regular.listed.distinct
  nothing := by
    intro var mem at' found
    rw [(regular.served var mem).searched] at found
    obtain ⟨e, inside, named, table⟩ :=
      search_entry (regular.served var mem).unnamed (Except.ok.inj found)
    rw [← (table_some table).2.2]
    exact empty var mem e inside named
  again := by
    intro var mem at' found
    have own := plain var.var.name (List.mem_map_of_mem mem)
    rw [searched_of_dotless own.2, search_container own.1.symm] at found
    rw [(regular.served var mem).searched, search_container (regular.served var mem).unnamed]
    exact found

/-- Printing keeps the attributes if no variable has one, and only then where the DAS can be
transferred and the variables' names lead nowhere else. -/
theorem keepsAttributes_iff (printable : Printable check das dds) :
    (Unattributed das dds → KeepsAttributes check das marks dds) ∧
      (PlainNames dds → Regular das marks dds → KeepsAttributes check das marks dds →
        Unattributed das dds) :=
  ⟨keeps_if printable, fun plain regular keeps =>
    unattributed_of_empty plain regular (keeps_only printable plain regular keeps)⟩

/-- `x { Int32 u 1; }`. -/
def xDas : DAS :=
  { containerName := []
    topLevel :=
      { address := 0, name := []
        attrMap := [.container ['x'] 1 ['x'] [.values ['u'] .int32 true (some ["1"])]] } }

def oneDds (name : List Char) : DDS :=
  { vars := [.other { name, attributes := [] }], attr := [], containerName := []
    container := false }

theorem xDas_printable (name : List Char) :
    Printable (fun _ _ => true) xDas (oneDds name) where
  containers := by simp [xDas, Attribute.isContainer]
  survive := by
    have word : ∀ c : Char, startsWord c = true → Scans [c] := fun c starts =>
      scans_word starts (by simp)
    have one : valueText .int32 "1" = ['1'] := by decide
    have x : addSpaceEncoding ['x'] = ['x'] := by decide
    have u : addSpaceEncoding ['u'] = ['u'] := by decide
    have value : ValueSurvives (fun _ _ => true) .int32 .int32 "1" := by
      refine ⟨?_, ?_, fun _ => rfl⟩
      · rw [one]
        exact ⟨word '1' (by decide), by decide⟩
      · rw [one]
        decide
    refine ⟨⟨⟨x ▸ word 'x' (by decide), by decide⟩, ⟨x ▸ word 'x' (by decide), by decide⟩, rfl,
      ⟨⟨u ▸ word 'u' (by decide), by decide⟩, .int32, "1", [], rfl, rfl, by decide, ?_⟩, trivial⟩,
      trivial⟩
    intro v mem
    obtain rfl := List.mem_singleton.mp mem
    exact value
  fresh := by
    intro keep
    rw [xDas, List.filter_cons]
    split
    · refine ⟨⟨by decide, by decide, ?_, trivial⟩, trivial⟩
      rw [itemOf, FreshItem]
      decide
    · trivial
  current := rfl
  attr := rfl
  bare := by simp [oneDds, Bare]
  distinct := by simp [oneDds, names]
  simple := by simp [oneDds]

theorem xDas_listed : Listed xDas.topLevel.attrMap where
  distinct := List.nodup_singleton _
  named := by simp [xDas, Attribute.table, Attribute.name]

theorem xDas_stored : ∀ e ∈ xDas.topLevel.attrMap, Stored e := by
  intro e mem
  obtain rfl := List.mem_singleton.mp mem
  refine ⟨by decide, ?_⟩
  simp [Carried, AllWhole, Whole]

theorem xDas_regular (name : List Char) (named : name ≠ []) (dotless : Dotless name) :
    Regular xDas (fun _ => true) (oneDds name) where
  listed := xDas_listed
  stored := fun e mem => xDas_stored e (List.mem_of_mem_filter mem)
  single := by
    change (xDas.topLevel.attrMap.flatMap (territory [])).Nodup
    decide
  marked := by simp [xDas, isGlobalAttribute]
  served := by
    intro var mem
    obtain rfl := List.mem_singleton.mp mem
    refine ⟨named.symm, searched_of_dotless dotless, ?_, ?_, ?_, ?_⟩
    · intro e entry _
      obtain rfl := List.mem_singleton.mp entry
      exact List.nodup_singleton _
    · intro e entry _ b inside
      obtain rfl := List.mem_singleton.mp entry
      obtain rfl := List.mem_singleton.mp inside
      exact .inl ⟨by decide, rfl⟩
    · intro g same
      cases same
    · intro g same
      cases same
  gridMarked := by
    intro g mem
    simp [oneDds] at mem

theorem oneDds_plain (name : List Char) (named : name ≠ []) (dotless : Dotless name) :
    PlainNames (oneDds name) := by
  intro other mem
  obtain rfl := List.mem_singleton.mp mem
  exact ⟨named, dotless⟩

theorem xDas_unattributed : Unattributed xDas (oneDds ['y']) := by
  refine unattributed_of_empty (oneDds_plain _ (by decide) (by simp [Dotless]))
    (xDas_regular _ (by decide) (by simp [Dotless])) ?_
  simp [oneDds, xDas, Attribute.name, Member.var]

/-- No variable is named `x`. -/
theorem keepsAttributes_iff_xDas :
    KeepsAttributes (fun _ _ => true) xDas (fun _ => true) (oneDds ['y']) ∧
      Unattributed xDas (oneDds ['y']) := by
  have dotless : Dotless ['y'] := by simp [Dotless]
  have keeps : KeepsAttributes (fun _ _ => true) xDas (fun _ => true) (oneDds ['y']) :=
    (keepsAttributes_iff (xDas_printable ['y'])).1 xDas_unattributed
  exact ⟨keeps, (keepsAttributes_iff (xDas_printable ['y'])).2
    (oneDds_plain _ (by decide) dotless) (xDas_regular _ (by decide) dotless) keeps⟩

/-- The attribute of `x` is printed as one of the whole DAS. -/
theorem keepsAttributes_fails : Printable (fun _ _ => true) xDas (oneDds ['x']) ∧
    ¬ KeepsAttributes (fun _ _ => true) xDas (fun _ => true) (oneDds ['x']) := by
  have dotless : Dotless ['x'] := by simp [Dotless]
  refine ⟨xDas_printable ['x'], fun keeps => ?_⟩
  have nothing := keeps_only (xDas_printable ['x']) (oneDds_plain _ (by decide) dotless)
    (xDas_regular _ (by decide) dotless) keeps
  have empty := nothing _ (List.mem_singleton_self _) _ (List.mem_singleton_self _) rfl
  cases empty

end Libdap.Guarantees.PrintDas
