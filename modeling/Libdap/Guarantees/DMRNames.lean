import Libdap.Guarantees.DMRTables
import Libdap.Library.Outcome

/-!
# Names in the tables that the DMR parser builds

An entry is added to a table only where the table has none of its name. A container is looked
for under its name as it is written, so this holds for names without `%20`.
-/
namespace Libdap.Guarantees.DMRNames
open Libdap.Source Libdap.Source.DMR Libdap.Source.D4ParserSax2
open Libdap.Library (bind_success)
open DMRTables

mutual

/-- The names in the tables below are distinct. -/
def Attribute.Distinct : Attribute → Prop
  | .values _ _ _ => True
  | .container _ entries => TableDistinct entries

/-- The names in a table and in the tables below are distinct. -/
def TableDistinct : List Attribute → Prop
  | [] => True
  | e :: es => Attribute.Distinct e ∧ (∀ e' ∈ es, e'.name ≠ e.name) ∧ TableDistinct es

end

mutual

/-- All tables of a variable and of its members have distinct names. -/
def VarDistinct : BaseType → Prop
  | .mk _ _ attr vars _ => TableDistinct attr ∧ VarsDistinct vars

def VarsDistinct : List BaseType → Prop
  | [] => True
  | v :: vs => VarDistinct v ∧ VarsDistinct vs

end

theorem tableDistinct_iff {es : List Attribute} :
    TableDistinct es ↔ (es.map Attribute.name).Nodup ∧ ∀ e ∈ es, Attribute.Distinct e := by
  induction es with
  | nil => simp [TableDistinct]
  | cons e es ih =>
    have apart : (∀ e' ∈ es, e'.name ≠ e.name) ↔ e.name ∉ es.map Attribute.name := by simp
    rw [TableDistinct, ih, apart, List.map_cons, List.nodup_cons, List.forall_mem_cons]
    constructor
    · rintro ⟨own, new, names, inside⟩
      exact ⟨⟨new, names⟩, own, inside⟩
    · rintro ⟨⟨new, names⟩, own, inside⟩
      exact ⟨own, new, names, inside⟩

theorem varsDistinct_append {vs vs' : List BaseType} :
    VarsDistinct (vs ++ vs') ↔ VarsDistinct vs ∧ VarsDistinct vs' := by
  induction vs with
  | nil => simp [VarsDistinct]
  | cons v vs ih => simp only [List.cons_append, VarsDistinct, ih, and_assoc]

mutual

/-- An attribute as the functions of AttrTable make it, without aliases and `OtherXML`. -/
def Attribute.Made : Attribute → Prop
  | .values name type attr =>
    Spaceless name ∧ type ≠ .container ∧ type ≠ .otherXml ∧ attr.isSome = true
  | .container name entries => Spaceless name ∧ TableMade entries

/-- A container may be added twice under one name, if it is written in two ways. -/
def TableMade : List Attribute → Prop
  | [] => True
  | e :: es => Attribute.Made e ∧ TableMade es

end

mutual

theorem sound_of_made : ∀ e : Attribute, Attribute.Made e → Attribute.Distinct e →
    Attribute.Sound e
  | .values _ _ _, made, _ => made
  | .container _ entries, made, distinct => ⟨made.1, tableSound_of_made entries made.2 distinct⟩

theorem tableSound_of_made : ∀ es : List Attribute, TableMade es → TableDistinct es →
    TableSound es
  | [], _, _ => trivial
  | e :: es, made, distinct =>
    ⟨sound_of_made e made.1 distinct.1, distinct.2.1,
      tableSound_of_made es made.2 distinct.2.2⟩

end

/-! ## Copies -/

theorem clone_name (e : Attribute) : e.clone.name = e.name := by
  cases e <;> rfl

theorem cloneTable_names (es : List Attribute) :
    (cloneTable es).map Attribute.name = es.map Attribute.name := by
  induction es with
  | nil => rfl
  | cons e es ih => rw [cloneTable, List.map_cons, List.map_cons, clone_name, ih]

mutual

theorem clone_distinct : ∀ e : Attribute, Attribute.Distinct e → Attribute.Distinct e.clone
  | .values _ _ _, _ => trivial
  | .container _ entries, distinct => cloneTable_distinct entries distinct

theorem cloneTable_distinct : ∀ es : List Attribute,
    TableDistinct es → TableDistinct (cloneTable es)
  | [], _ => trivial
  | e :: es, distinct => by
    obtain ⟨own, new, rest⟩ := distinct
    refine ⟨clone_distinct e own, ?_, cloneTable_distinct es rest⟩
    intro e' member same
    have named := List.mem_map_of_mem (f := Attribute.name) member
    rw [cloneTable_names, same, clone_name] at named
    obtain ⟨e'', inside, equal⟩ := List.mem_map.mp named
    exact new e'' inside equal

end

mutual

theorem ptrDuplicate_distinct : ∀ v : BaseType, VarDistinct v → VarDistinct v.ptrDuplicate
  | .mk _ _ attr vars _, distinct =>
    ⟨cloneTable_distinct attr distinct.1, duplicateAll_distinct vars distinct.2⟩

theorem duplicateAll_distinct : ∀ vs : List BaseType,
    VarsDistinct vs → VarsDistinct (duplicateAll vs)
  | [], _ => trivial
  | v :: vs, distinct => ⟨ptrDuplicate_distinct v distinct.1, duplicateAll_distinct vs distinct.2⟩

end

/-! ## Changes of a table -/

/-- An entry of a name that the table does not have. -/
theorem TableDistinct.append {es : List Attribute} {e : Attribute} (distinct : TableDistinct es)
    (own : Attribute.Distinct e) (new : (es.find? fun e' => e'.name = e.name) = none) :
    TableDistinct (es ++ [e]) := by
  obtain ⟨names, inside⟩ := tableDistinct_iff.mp distinct
  refine tableDistinct_iff.mpr ⟨?_, ?_⟩
  · rw [List.map_append]
    refine List.nodup_append.mpr ⟨names, List.nodup_singleton _, ?_⟩
    rintro name member _ single rfl
    obtain ⟨e', there, same⟩ := List.mem_map.mp member
    rw [List.map_singleton, List.mem_singleton] at single
    have other := List.find?_eq_none.mp new e' there
    simp only [decide_eq_true_eq] at other
    exact other (same.trans single)
  · intro e' member
    rcases List.mem_append.mp member with old | single
    · exact inside e' old
    · exact List.mem_singleton.mp single ▸ own

theorem TableDistinct.set {es : List Attribute} {e : Attribute} {i : Nat}
    (distinct : TableDistinct es) (own : Attribute.Distinct e)
    (same : (es.set i e).map Attribute.name = es.map Attribute.name) :
    TableDistinct (es.set i e) := by
  obtain ⟨names, inside⟩ := tableDistinct_iff.mp distinct
  refine tableDistinct_iff.mpr ⟨same ▸ names, ?_⟩
  intro e' member
  rcases List.mem_or_eq_of_mem_set member with old | rfl
  · exact inside e' old
  · exact own

theorem pushValue_names {name value : String} {es es' : List Attribute}
    (done : pushValue name value es = .ok es') :
    es'.map Attribute.name = es.map Attribute.name ∧
      ((∀ e ∈ es, Attribute.Distinct e) → ∀ e ∈ es', Attribute.Distinct e) := by
  induction es generalizing es' with
  | nil => cases done
  | cons e es ih =>
    unfold pushValue at done
    split at done
    · obtain ⟨e', pushed, rest⟩ := bind_success done
      cases rest
      unfold Attribute.push at pushed
      split at pushed
      · cases pushed
        exact ⟨rfl, fun all => List.forall_mem_cons.mpr
          ⟨trivial, (List.forall_mem_cons.mp all).2⟩⟩
      · cases pushed
    · obtain ⟨rest, pushed, kept⟩ := bind_success done
      cases kept
      obtain ⟨names, inside⟩ := ih pushed
      refine ⟨by rw [List.map_cons, List.map_cons, names], fun all => ?_⟩
      obtain ⟨own, others⟩ := List.forall_mem_cons.mp all
      exact List.forall_mem_cons.mpr ⟨own, inside others⟩

theorem appendAttr_distinct {name type value : String} {es es' : List Attribute}
    (distinct : TableDistinct es) (done : appendAttr es name type value = .ok es') :
    TableDistinct es' := by
  unfold appendAttr at done
  dsimp only at done
  split at done
  · split at done
    · cases done
    · split at done
      · cases done
      · obtain ⟨names, inside⟩ := pushValue_names done
        obtain ⟨unique, own⟩ := tableDistinct_iff.mp distinct
        exact tableDistinct_iff.mpr ⟨names ▸ unique, inside own⟩
  · next missing =>
    cases done
    exact distinct.append trivial missing

theorem appendContainer_distinct {name : String} {es es' : List Attribute}
    (spaceless : Spaceless name) (distinct : TableDistinct es)
    (done : DMR.appendContainer es name = .ok es') : TableDistinct es' := by
  unfold DMR.appendContainer at done
  split at done
  · cases done
  · next missing =>
    cases done
    refine distinct.append trivial ?_
    rw [Option.not_isSome_iff_eq_none] at missing
    rw [Attribute.name, spaceless]
    exact missing

theorem changeAt_distinct {f : List Attribute → Except Failure (List Attribute)}
    (keeps : ∀ es es', TableDistinct es → f es = .ok es' → TableDistinct es') :
    ∀ (way : List Nat) (es es' : List Attribute), TableDistinct es →
      changeAt f way es = .ok es' → TableDistinct es' := by
  intro way
  induction way with
  | nil => exact keeps
  | cons i way ih =>
    intro es es' distinct done
    unfold changeAt at done
    split at done
    · next name entries there =>
      obtain ⟨entries', changed, kept⟩ := bind_success done
      cases kept
      have inside := (tableDistinct_iff.mp distinct).2 _ (List.mem_of_getElem? there)
      refine distinct.set (ih entries entries' inside changed) ?_
      have named : (es.map Attribute.name)[i]? = some name := by
        rw [List.getElem?_map, there]
        rfl
      rw [List.map_set]
      apply List.ext_getElem?
      intro j
      rw [List.getElem?_set]
      split
      · next same =>
        subst same
        rw [named, if_pos (List.getElem?_eq_some_iff.mp named).1]
        rfl
      · rfl
    · cases done

/-! ## The parser -/

/-- Every table of a variable on the stack has distinct names. -/
def Tidy (p : Parser) : Prop := ∀ bt ∈ p.btStack, VarDistinct bt

/-- What a callback leaves behind. -/
def Leaves (r : Except Failure Parser) : Prop := ∀ q, r = .ok q → Tidy q

variable {p : Parser}

theorem Leaves.ok (tidy : Tidy p) : Leaves (.ok p) := by
  rintro q ⟨⟩
  exact tidy

theorem Leaves.error {failure : Failure} : Leaves (.error failure) := nofun

theorem Tidy.checkRequired (tidy : Tidy p) (name : String) :
    Tidy (p.checkRequiredAttribute name) := by
  unfold Parser.checkRequiredAttribute
  split
  · exact tidy
  · exact tidy

theorem checkRequired_scratch (p : Parser) (name : String) :
    (p.checkRequiredAttribute name).scratch = p.scratch := by
  unfold Parser.checkRequiredAttribute
  split <;> rfl

theorem Tidy.push (tidy : Tidy p) (type : Variables.VarType) (name : String) :
    ∀ bt ∈ BaseType.mk type name [] [] [] :: p.btStack, VarDistinct bt := by
  intro bt member
  rcases List.mem_cons.mp member with rfl | old
  · exact ⟨trivial, trivial⟩
  · exact tidy bt old

theorem changeTable_leaves {f : List Attribute → Except Failure (List Attribute)}
    (tidy : Tidy p)
    (keeps : ∀ es es', TableDistinct es → f es = .ok es' → TableDistinct es') :
    Leaves (p.changeTable f) := by
  intro q done
  obtain ⟨⟨place, i, bt⟩, top, rest⟩ := bind_success done
  obtain ⟨table, changed, kept⟩ := bind_success rest
  cases kept
  have there : bt ∈ p.btStack := by
    unfold Parser.topTable at top
    split at top
    · cases top
    · dsimp only at top
      split at top
      · split at top
        · next found =>
          cases top
          exact List.mem_of_getElem? found
        · cases top
      · cases top
  have own := tidy bt there
  intro bt' member
  rcases List.mem_or_eq_of_mem_set member with old | rfl
  · exact tidy bt' old
  · rcases bt with ⟨type, name, attr, vars, enums⟩
    exact ⟨changeAt_distinct keeps _ _ _ own.1 changed, own.2⟩

theorem appendContainer_leaves {name : String} (tidy : Tidy p) (spaceless : Spaceless name) :
    Leaves (p.appendContainer name) := by
  intro q done
  obtain ⟨⟨place, i, bt⟩, -, rest⟩ := bind_success done
  dsimp only at rest
  split at rest
  · cases rest
  · obtain ⟨p', changed, kept⟩ := bind_success rest
    cases kept
    exact changeTable_leaves tidy (fun _ _ distinct => appendContainer_distinct spaceless distinct)
      p' changed

theorem processAttribute_leaves {tag : String} {attributes : List (String × String)}
    {r : Except Failure Parser} (tidy : Tidy p)
    (spaceless : tag = "Attribute" → Spaceless ((attributes.lookup "name").getD ""))
    (done : p.processAttribute tag attributes = some r) : Leaves r := by
  unfold Parser.processAttribute at done
  split at done
  · next named =>
    cases done
    have checked := Tidy.checkRequired (Tidy.checkRequired
      (p := p.transferXmlAttrs attributes) tidy "name") "type"
    unfold Parser.processAttributeHelper
    dsimp only
    split
    · refine appendContainer_leaves checked ?_
      unfold Parser.xmlAttr
      rw [checkRequired_scratch, checkRequired_scratch]
      exact spaceless named
    · split
      · exact .ok checked
      · exact .ok checked
  · cases done

theorem processVariableHelper_leaves (tidy : Tidy p) (t : Variables.VarType) (state : ParseState)
    (attributes : List (String × String)) :
    Leaves (p.processVariableHelper t state attributes) := by
  have checked := Tidy.checkRequired
    (p := (p.transferXmlAttrs attributes).setState state) tidy "name"
  unfold Parser.processVariableHelper factory
  dsimp only
  split
  · exact .error
  · next made =>
    split at made
    · cases made
    · cases made
    · cases made
      exact .ok (checked.push _ _)

theorem processVariable_leaves {tag : String} {attributes : List (String × String)}
    {r : Except Failure Parser} (tidy : Tidy p)
    (done : p.processVariable tag attributes = some r) : Leaves r := by
  unfold Parser.processVariable at done
  split at done
  · cases done
    exact processVariableHelper_leaves tidy _ _ _
  · split at done
    · cases done
      exact processVariableHelper_leaves tidy _ _ _
    · split at done
      · cases done
        exact processVariableHelper_leaves tidy _ _ _
      · cases done

theorem processEnumDef_leaves {tag : String} {attributes : List (String × String)}
    {r : Except Failure Parser} (tidy : Tidy p)
    (done : p.processEnumDef tag attributes = some r) : Leaves r := by
  unfold Parser.processEnumDef at done
  split at done
  · cases done
    have checked := Tidy.checkRequired (Tidy.checkRequired
      (p := p.transferXmlAttrs attributes) tidy "name") "basetype"
    unfold Parser.processEnumDefHelper
    dsimp only
    split
    · exact .ok checked
    · exact .ok checked
  · cases done

theorem processEnumConst_leaves {tag : String} {attributes : List (String × String)}
    {r : Except Failure Parser} (tidy : Tidy p)
    (done : p.processEnumConst tag attributes = some r) : Leaves r := by
  unfold Parser.processEnumConst at done
  split at done
  · cases done
    have checked := Tidy.checkRequired (Tidy.checkRequired
      (p := p.transferXmlAttrs attributes) tidy "name") "value"
    unfold Parser.processEnumConstHelper
    dsimp only
    split
    · exact .ok checked
    · split
      · exact .error
      · split
        · exact .ok checked
        · exact .ok checked
  · cases done

theorem addToParent_leaves (tidy : Tidy p) {btp : BaseType} (own : VarDistinct btp)
    (kind tag : String) : Leaves (p.addToParent btp kind tag) := by
  unfold Parser.addToParent
  split
  · exact .error
  · next parent below stack =>
    have all := List.forall_mem_cons.mp (show ∀ bt ∈ parent :: below, VarDistinct bt from
      stack ▸ tidy)
    split
    · refine .ok fun bt member => ?_
      rcases List.mem_cons.mp member with rfl | old
      · rcases parent with ⟨type, name, attr, vars, enums⟩
        exact ⟨all.1.1, varsDistinct_append.mpr
          ⟨all.1.2, ptrDuplicate_distinct btp own, trivial⟩⟩
      · exact all.2 bt old
    · exact .ok tidy

/-- The variable on top ends. -/
theorem pop_leaves (tidy : Tidy p) {btp : BaseType} {bts : List BaseType} {ats : List Place}
    (stack : p.btStack = btp :: bts) (kind tag : String) :
    Leaves (({ p.popState with btStack := bts, atStack := ats } : Parser).addToParent btp
      kind tag) := by
  have all := List.forall_mem_cons.mp (show ∀ bt ∈ btp :: bts, VarDistinct bt from stack ▸ tidy)
  exact addToParent_leaves (p := { p.popState with btStack := bts, atStack := ats }) all.2
    all.1 kind tag

theorem finishVariable_leaves (tidy : Tidy p) (tag : String) (t : Variables.VarType)
    (expected : String) : Leaves (p.finishVariable tag t expected) := by
  unfold Parser.finishVariable
  split
  · exact .ok tidy
  · split
    · next btp bts _ ats stack _ =>
      have all := List.forall_mem_cons.mp
        (show ∀ bt ∈ btp :: bts, VarDistinct bt from stack ▸ tidy)
      dsimp only
      split
      · exact .ok all.2
      · exact pop_leaves tidy stack _ _
    · exact .error

theorem endState_leaves (tidy : Tidy p) (tag expected : String) :
    Leaves (p.endState tag expected) := by
  unfold Parser.endState
  split
  · exact .ok tidy
  · exact .ok tidy

theorem endEnumDef_leaves (tidy : Tidy p) (tag : String) : Leaves (p.endEnumDef tag) := by
  unfold Parser.endEnumDef
  split
  · split
    · exact .error
    · next btp bts stack =>
      have all := List.forall_mem_cons.mp
        (show ∀ bt ∈ btp :: bts, VarDistinct bt from stack ▸ tidy)
      split
      · split
        · exact .error
        · refine .ok fun bt member => ?_
          rcases List.mem_cons.mp member with rfl | old
          · rcases btp with ⟨type, name, attr, vars, enums⟩
            exact all.1
          · exact all.2 bt old
      · exact .ok tidy
  · exact .ok tidy

theorem startRoot_leaves (tidy : Tidy p) (attributes : List (String × String)) :
    Leaves (p.startRoot attributes) := by
  intro q done
  unfold Parser.startRoot at done
  obtain ⟨version, -, rest⟩ := bind_success done
  have checked := Tidy.checkRequired
    (p := (p.setState .insideGroup).transferXmlAttrs attributes) tidy "name"
  cases rest
  exact checked.push _ _

theorem Leaves.getD {first : Option (Except Failure Parser)} {other : Except Failure Parser}
    (taken : ∀ r, first = some r → Leaves r) (otherwise : Leaves other) :
    Leaves (first.getD other) := by
  cases found : first with
  | none => exact otherwise
  | some r => exact taken r found

theorem leaves_orElse {first second : Option (Except Failure Parser)}
    (taken : ∀ r, first = some r → Leaves r) (taken' : ∀ r, second = some r → Leaves r) :
    ∀ r, (first <|> second) = some r → Leaves r := by
  intro r found
  cases first with
  | none => exact taken' r found
  | some r' =>
    cases found
    exact taken r rfl

/-- The names of containers are written without `%20`. -/
def NamePlain : Event → Prop
  | .start tag attributes =>
    tag = "Attribute" → Spaceless ((attributes.lookup "name").getD "")
  | _ => True

theorem startElement_leaves (tidy : Tidy p) {tag : String} {attributes : List (String × String)}
    (plain : NamePlain (.start tag attributes)) : Leaves (p.startElement tag attributes) := by
  have entry : ∀ r, p.processAttribute tag attributes = some r → Leaves r :=
    fun _ => processAttribute_leaves tidy plain
  have declared : ∀ r, p.processVariable tag attributes = some r → Leaves r :=
    fun _ => processVariable_leaves tidy
  unfold Parser.startElement
  split
  · exact .error
  · split
    · exact startRoot_leaves tidy attributes
    · exact .ok tidy
  · exact .getD (leaves_orElse entry (leaves_orElse declared fun _ => processEnumDef_leaves tidy))
      (.ok tidy)
  · exact .getD entry (.ok tidy)
  · refine .getD entry ?_
    split
    · exact .ok tidy
    · exact .ok tidy
  · exact .ok tidy
  · dsimp only
    split
    · exact .ok tidy
    · exact .ok tidy
  · exact .getD (fun _ => processEnumConst_leaves tidy) (.ok tidy)
  · exact .ok tidy
  · exact .getD entry (.ok tidy)
  · exact .getD (leaves_orElse entry declared) (.ok tidy)
  · exact .getD (leaves_orElse entry declared) (.ok tidy)
  · exact .ok tidy

theorem endElement_leaves (tidy : Tidy p) (tag : String) : Leaves (p.endElement tag) := by
  unfold Parser.endElement
  split
  · exact .error
  · exact .ok tidy
  · exact endState_leaves tidy _ _
  · split
    · split
      · exact .error
      · exact .ok tidy
    · exact .ok tidy
  · exact endState_leaves tidy _ _
  · split
    · intro q done
      obtain ⟨q', changed, kept⟩ := bind_success done
      cases kept
      exact changeTable_leaves (p := p.popState) tidy
        (fun _ _ distinct => appendAttr_distinct distinct) q' changed
    · exact .ok tidy
  · split
    · exact .error
    · dsimp only
      split
      · exact .ok tidy
      · exact .ok tidy
  · exact endEnumDef_leaves tidy tag
  · exact endState_leaves tidy _ _
  · unfold Parser.endSimpleType
    split
    · split
      · next stack _ => exact pop_leaves tidy stack _ _
      · exact .error
    · exact .ok tidy
  · exact finishVariable_leaves tidy _ _ _
  · exact finishVariable_leaves tidy _ _ _
  · exact .ok tidy

theorem step_leaves (tidy : Tidy p) {e : Event} (plain : NamePlain e) : Leaves (p.step e) := by
  cases e with
  | start tag attributes => exact startElement_leaves tidy plain
  | characters text =>
    change Leaves (p.getCharacters text)
    unfold Parser.getCharacters
    split
    · exact .error
    all_goals exact .ok tidy
  | finish tag => exact endElement_leaves tidy tag

section
variable (raw : String → List Event)

theorem attributeElement_plain {name : String} {type : Attributes.AttrType} {inner : List Event}
    (spaceless : Spaceless name) (plain : ∀ e ∈ inner, NamePlain e) :
    ∀ e ∈ attributeElement name type inner, NamePlain e := by
  intro e member
  unfold attributeElement at member
  rcases List.mem_cons.mp member with rfl | member
  · exact fun _ => spaceless
  · rcases List.mem_append.mp member with inside | last
    · exact plain e inside
    · rw [List.mem_singleton.mp last]
      trivial

theorem printValues_plain (values : List String) :
    ∀ e ∈ values.flatMap printValue, NamePlain e := by
  intro e member
  obtain ⟨value, -, inside⟩ := List.mem_flatMap.mp member
  unfold printValue at inside
  fin_cases inside
  · exact fun other => absurd other (by decide)
  · trivial
  · trivial

mutual

theorem printAttribute_plain : ∀ (e : Attribute) (events : List Event), Attribute.Made e →
    printAttribute raw e = .ok events → ∀ e ∈ events, NamePlain e
  | .values name type attr, events, made, done => by
    obtain ⟨spaceless, -, written, -⟩ := made
    cases attr with
    | none => cases done
    | some values =>
      rw [printAttribute] at done
      unfold printValues at done
      rw [if_neg written] at done
      cases done
      exact attributeElement_plain spaceless (printValues_plain values)
  | .container name entries, events, made, done => by
    rw [printAttribute] at done
    obtain ⟨inner, printed, kept⟩ := bind_success done
    cases kept
    exact attributeElement_plain made.1 (printAttrTable_plain entries inner made.2 printed)

/-- What is printed of a table names no container with `%20`. -/
theorem printAttrTable_plain : ∀ (es : List Attribute) (events : List Event), TableMade es →
    printAttrTable raw es = .ok events → ∀ e ∈ events, NamePlain e
  | [], _, _, done => by
    cases done
    simp
  | e :: es, events, made, done => by
    rw [printAttrTable] at done
    obtain ⟨first, printed, rest⟩ := bind_success done
    obtain ⟨others, printed', kept⟩ := bind_success rest
    cases kept
    intro e' member
    rcases List.mem_append.mp member with here | there
    · exact printAttribute_plain e first made.1 printed e' here
    · exact printAttrTable_plain es others made.2 printed' e' there

end

theorem printEnumDef_plain (e : Groups.D4EnumDef) : ∀ e' ∈ printEnumDef e, NamePlain e' := by
  intro e' member
  unfold printEnumDef at member
  rcases List.mem_cons.mp member with rfl | member
  · exact fun other => absurd other (by decide)
  · rcases List.mem_append.mp member with inside | last
    · obtain ⟨constant, -, inside⟩ := List.mem_flatMap.mp inside
      unfold printEnumConst at inside
      fin_cases inside
      · exact fun other => absurd other (by decide)
      · trivial
    · rw [List.mem_singleton.mp last]
      trivial

mutual

/-- The tables of a variable and of its members are made so. -/
def VarMade : BaseType → Prop
  | .mk _ _ attr vars _ => TableMade attr ∧ VarsMade vars

def VarsMade : List BaseType → Prop
  | [] => True
  | v :: vs => VarMade v ∧ VarsMade vs

end

mutual

theorem printVar_plain : ∀ (v : BaseType) (events : List Event), VarMade v →
    v.printXmlWriter raw = .ok events → ∀ e ∈ events, NamePlain e
  | .mk type name attr vars enums, events, made, done => by
    rw [BaseType.printXmlWriter] at done
    obtain ⟨attributes, printed, rest⟩ := bind_success done
    obtain ⟨members, printed', kept⟩ := bind_success rest
    cases kept
    intro e member
    rcases List.mem_cons.mp member with rfl | member
    · intro other
      cases type <;> exact absurd other (by decide)
    · rcases List.mem_append.mp member with inside | last
      · rcases List.mem_append.mp inside with inside | inside
        · rcases List.mem_append.mp inside with inside | inside
          · obtain ⟨enum, -, here⟩ := List.mem_flatMap.mp inside
            exact printEnumDef_plain enum e here
          · exact printAttrTable_plain raw attr attributes made.1 printed e inside
        · exact printVars_plain vars members made.2 printed' e inside
      · rw [List.mem_singleton.mp last]
        trivial

/-- What is printed of variables names no container with `%20`. -/
theorem printVars_plain : ∀ (vs : List BaseType) (events : List Event), VarsMade vs →
    printVars raw vs = .ok events → ∀ e ∈ events, NamePlain e
  | [], _, _, done => by
    cases done
    simp
  | v :: vs, events, made, done => by
    rw [printVars] at done
    obtain ⟨first, printed, rest⟩ := bind_success done
    obtain ⟨others, printed', kept⟩ := bind_success rest
    cases kept
    intro e member
    rcases List.mem_append.mp member with here | there
    · exact printVar_plain v first made.1 printed e here
    · exact printVars_plain vs others made.2 printed' e there

end

end

/-- A document whose containers have plain names leaves tables of distinct names behind. -/
theorem run_tidy : ∀ (events : List Event) {p q : Parser}, Tidy p →
    (∀ e ∈ events, NamePlain e) → events.foldlM Parser.step p = .ok q → Tidy q
  | [], _, _, tidy, _, done => by
    cases done
    exact tidy
  | e :: events, _, _, tidy, plain, done => by
    obtain ⟨p', stepped, rest⟩ := bind_success done
    exact run_tidy events (step_leaves tidy (plain e List.mem_cons_self) p' stepped)
      (fun e' member => plain e' (List.mem_cons_of_mem e member)) rest

end Libdap.Guarantees.DMRNames
