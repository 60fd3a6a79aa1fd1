import Libdap.Source.D4ParserSax2
import Libdap.Guarantees.AttributeTransfer

/-!
# Attribute tables through the DMR

The parser has a table again once it has read what is printed of it, but for the
attributes without a value: an attribute is made when its first value ends.
-/
namespace Libdap.Guarantees.DMRTables
open Libdap.Source Libdap.Source.DMR Libdap.Source.D4ParserSax2
open Attributes (AttrType typeToString stringToType)

/-! ## Names and types -/

/-- A name as the functions of AttrTable store it. -/
def Spaceless (name : String) : Prop := removeSpaces name = name

theorem container_of_string {type : AttrType} (name : typeToString type = "Container") :
    type = .container := by
  revert name
  cases type <;> decide

theorem otherXml_of_string {type : AttrType} (name : typeToString type = "OtherXML") :
    type = .otherXml := by
  revert name
  cases type <;> decide

mutual

/-- Values of a type that is written with them, or a container. -/
def Attribute.Sound : Attribute → Prop
  | .values name type attr =>
    Spaceless name ∧ type ≠ .container ∧ type ≠ .otherXml ∧ attr.isSome = true
  | .container name entries => Spaceless name ∧ TableSound entries

/-- A table as the functions of AttrTable make it, without aliases and `OtherXML`: an
attribute of a name that is there is not added again. -/
def TableSound : List Attribute → Prop
  | [] => True
  | e :: es => Attribute.Sound e ∧ (∀ e' ∈ es, e'.name ≠ e.name) ∧ TableSound es

end

mutual

/-- What the parser makes of what is printed of an attribute. -/
def reread : Attribute → List Attribute
  | .values name type (some (v :: vs)) => [.values name type (some (v :: vs))]
  | .values _ _ _ => []
  | .container name entries => [.container name (rereadTable entries)]

def rereadTable : List Attribute → List Attribute
  | [] => []
  | e :: es => reread e ++ rereadTable es

end

theorem reread_name {e e' : Attribute} (member : e' ∈ reread e) : e'.name = e.name := by
  cases e with
  | values name type attr =>
    rcases attr with _ | _ | ⟨v, vs⟩
    · cases member
    · cases member
    · obtain rfl := List.mem_singleton.mp member
      rfl
  | container name entries =>
    obtain rfl := List.mem_singleton.mp member
    rfl

/-! ## Tables below a table -/

/-- The table at the end of a way is another one. -/
def put : List Nat → List Attribute → List Attribute → List Attribute
  | [], _, new => new
  | i :: way, table, new =>
    match table[i]? with
    | some (.container name entries) => table.set i (.container name (put way entries new))
    | _ => table

theorem tableAt_cons {i : Nat} {way : List Nat} {table here : List Attribute}
    (found : tableAt (i :: way) table = some here) : ∃ name entries,
      table[i]? = some (.container name entries) ∧ tableAt way entries = some here := by
  rw [tableAt] at found
  cases at_i : table[i]? with
  | none =>
    rw [at_i] at found
    cases found
  | some e =>
    rw [at_i] at found
    cases e with
    | values name type attr => cases found
    | container name entries => exact ⟨name, entries, rfl, found⟩

section
variable {i : Nat} {way : List Nat} {table entries : List Attribute} {name : String}
  (at_i : table[i]? = some (.container name entries))
include at_i

theorem tableAt_into : tableAt (i :: way) table = tableAt way entries := by
  rw [tableAt, at_i]

theorem put_into (new : List Attribute) :
    put (i :: way) table new = table.set i (.container name (put way entries new)) := by
  rw [put, at_i]

theorem set_into (entries' : List Attribute) :
    (table.set i (.container name entries'))[i]? = some (.container name entries') :=
  List.getElem?_set_self (List.getElem?_eq_some_iff.mp at_i).1

end

theorem changeAt_put {f : List Attribute → Except Failure (List Attribute)}
    {here new : List Attribute} (done : f here = .ok new) :
    ∀ {way : List Nat} {table : List Attribute}, tableAt way table = some here →
      changeAt f way table = .ok (put way table new) := by
  intro way
  induction way with
  | nil =>
    intro table found
    obtain rfl := Option.some.inj found
    exact done
  | cons i way ih =>
    intro table found
    obtain ⟨name, entries, at_i, below⟩ := tableAt_cons found
    rw [put_into at_i, changeAt, at_i]
    dsimp only
    rw [ih below]
    rfl

theorem tableAt_put {here new : List Attribute} : ∀ {way : List Nat} {table : List Attribute},
    tableAt way table = some here → tableAt way (put way table new) = some new := by
  intro way
  induction way with
  | nil => intro table _; rfl
  | cons i way ih =>
    intro table found
    obtain ⟨name, entries, at_i, below⟩ := tableAt_cons found
    rw [put_into at_i, tableAt_into (set_into at_i _)]
    exact ih below

theorem put_put {here new newer : List Attribute} :
    ∀ {way : List Nat} {table : List Attribute}, tableAt way table = some here →
      put way (put way table new) newer = put way table newer := by
  intro way
  induction way with
  | nil => intro table _; rfl
  | cons i way ih =>
    intro table found
    obtain ⟨name, entries, at_i, below⟩ := tableAt_cons found
    rw [put_into at_i, put_into at_i, put_into (set_into at_i _), List.set_set, ih below]

theorem put_self {here : List Attribute} : ∀ {way : List Nat} {table : List Attribute},
    tableAt way table = some here → put way table here = table := by
  intro way
  induction way with
  | nil =>
    intro table found
    exact (Option.some.inj found).symm
  | cons i way ih =>
    intro table found
    obtain ⟨name, entries, at_i, below⟩ := tableAt_cons found
    obtain ⟨inside, same⟩ := List.getElem?_eq_some_iff.mp at_i
    rw [put_into at_i, ih below, ← same]
    exact List.set_getElem_self inside

section
variable {here inner : List Attribute} {i : Nat} {name : String}
  (container : here[i]? = some (.container name inner))
include container

/-- One step further. -/
theorem tableAt_below : ∀ {way : List Nat} {table : List Attribute},
    tableAt way table = some here → tableAt (way ++ [i]) table = some inner := by
  intro way
  induction way with
  | nil =>
    intro table found
    obtain rfl := Option.some.inj found
    exact tableAt_into container
  | cons j way ih =>
    intro table found
    obtain ⟨name', entries, at_j, below⟩ := tableAt_cons found
    rw [List.cons_append, tableAt_into at_j]
    exact ih below

theorem put_below (new : List Attribute) : ∀ {way : List Nat} {table : List Attribute},
    tableAt way table = some here →
      put (way ++ [i]) table new = put way table (here.set i (.container name new)) := by
  intro way
  induction way with
  | nil =>
    intro table found
    obtain rfl := Option.some.inj found
    exact put_into container new
  | cons j way ih =>
    intro table found
    obtain ⟨name', entries, at_j, below⟩ := tableAt_cons found
    rw [List.cons_append, put_into at_j, put_into at_j, ih below]

end

/-! ## Runs of callbacks -/

theorem run_cons {p q r : Parser} {e : Event} {events : List Event} (first : p.step e = .ok q)
    (rest : events.foldlM Parser.step q = .ok r) :
    (e :: events).foldlM Parser.step p = .ok r := by
  rw [List.foldlM_cons, first]
  exact rest

theorem run_append {p q r : Parser} {events events' : List Event}
    (first : events.foldlM Parser.step p = .ok q)
    (rest : events'.foldlM Parser.step q = .ok r) :
    (events ++ events').foldlM Parser.step p = .ok r := by
  rw [List.foldlM_append, first]
  exact rest

/-- The events lead to a state, whatever the fields are that hold what was read last. -/
def Reaches (p : Parser) (events : List Event) (q : Parser) : Prop :=
  ∃ scratch enumDef,
    events.foldlM Parser.step p = .ok { q with scratch, enumDef, charData := "" }

theorem Reaches.none {p : Parser} (empty : p.charData = "") : Reaches p [] p := by
  refine ⟨p.scratch, p.enumDef, ?_⟩
  rw [← empty]
  rfl

theorem Reaches.next {p q r : Parser} {e : Event} {events : List Event}
    (first : p.step e = .ok q) (rest : Reaches q events r) : Reaches p (e :: events) r := by
  obtain ⟨scratch, enumDef, run⟩ := rest
  exact ⟨scratch, enumDef, run_cons first run⟩

theorem Reaches.append {p q r : Parser} {events events' : List Event}
    (first : Reaches p events q)
    (rest : ∀ scratch enumDef, Reaches { q with scratch, enumDef, charData := "" } events' r) :
    Reaches p (events ++ events') r := by
  obtain ⟨scratch, enumDef, run⟩ := first
  obtain ⟨scratch', enumDef', run'⟩ := rest scratch enumDef
  exact ⟨scratch', enumDef', run_append run run'⟩

/-! ## The table on top -/

/-- The parser has this variable on top, and is to change this table of it. -/
structure OnTop (p : Parser) (b : BaseType) (bs : List BaseType) (way : List Nat)
    (table : List Attribute) : Prop where
  stack : p.btStack = b :: bs
  place : ∃ below, p.atStack = ⟨bs.length, way⟩ :: below
  table : tableAt way b.attr = some table

@[simp] theorem setAttr_attr (b : BaseType) (table : List Attribute) :
    (b.setAttr table).attr = table := by
  cases b
  rfl

@[simp] theorem setAttr_twice (b : BaseType) (table table' : List Attribute) :
    (b.setAttr table).setAttr table' = b.setAttr table' := by
  cases b
  rfl

/-- The variable with the table at the end of a way changed. -/
def withTable (b : BaseType) (way : List Nat) (new : List Attribute) : BaseType :=
  b.setAttr (put way b.attr new)

section
variable {p : Parser} {b : BaseType} {bs : List BaseType} {way : List Nat}
  {table new : List Attribute}

theorem OnTop.topTable (top : OnTop p b bs way table) :
    p.topTable = .ok (⟨bs.length, way⟩, 0, b) := by
  obtain ⟨below, place⟩ := top.place
  unfold Parser.topTable
  rw [place, top.stack]
  simp

theorem OnTop.changeTable (top : OnTop p b bs way table)
    {f : List Attribute → Except Failure (List Attribute)} (done : f table = .ok new) :
    p.changeTable f = .ok { p with btStack := withTable b way new :: bs } := by
  unfold Parser.changeTable
  rw [top.topTable]
  change (changeAt f way b.attr >>= fun table =>
    pure { p with btStack := p.btStack.set 0 (b.setAttr table) }) = _
  rw [changeAt_put done top.table, top.stack]
  rfl

theorem OnTop.appendContainer (top : OnTop p b bs way table) {name : String}
    (done : DMR.appendContainer table name = .ok new) :
    p.appendContainer name = .ok { p with
      btStack := withTable b way new :: bs
      atStack := ⟨bs.length, way ++ [table.length]⟩ :: p.atStack } := by
  have change : (p.changeTable fun table => DMR.appendContainer table name) = _ :=
    top.changeTable (f := fun table => DMR.appendContainer table name) done
  unfold Parser.appendContainer
  simp only [top.topTable, bind, Except.bind, top.table, change]
  rfl

/-- The changed table is on top. -/
theorem OnTop.changed (top : OnTop p b bs way table) {q : Parser}
    (stack : q.btStack = withTable b way new :: bs) (place : q.atStack = p.atStack) :
    OnTop q (withTable b way new) bs way new where
  stack := stack
  place := place ▸ top.place
  table := by
    unfold withTable
    rw [setAttr_attr]
    exact tableAt_put top.table

theorem withTable_twice (found : tableAt way b.attr = some table) (newer : List Attribute) :
    withTable (withTable b way new) way newer = withTable b way newer := by
  unfold withTable
  rw [setAttr_attr, setAttr_twice, put_put found]

theorem withTable_self (found : tableAt way b.attr = some table) : withTable b way table = b := by
  unfold withTable
  rw [put_self found]
  cases b
  rfl

end

/-! ## Values -/

theorem find_fresh {table : List Attribute} {name : String}
    (fresh : ∀ e ∈ table, e.name ≠ name) :
    (table.find? fun e => decide (e.name = name)) = none := by
  rw [List.find?_eq_none]
  intro e member
  simpa using fresh e member

theorem appendAttr_new {table : List Attribute} {name value : String} {type : AttrType}
    (spaceless : Spaceless name) (fresh : ∀ e ∈ table, e.name ≠ name) :
    appendAttr table name (typeToString type) value =
      .ok (table ++ [.values name type (some [value])]) := by
  have absent := find_fresh fresh
  unfold appendAttr
  rw [spaceless]
  dsimp only
  rw [absent, AttributeTransfer.stringToType_typeToString]

theorem pushValue_last {table : List Attribute} {name value : String} {type : AttrType}
    {values : List String} (fresh : ∀ e ∈ table, e.name ≠ name) :
    pushValue name value (table ++ [.values name type (some values)]) =
      .ok (table ++ [.values name type (some (values ++ [value]))]) := by
  induction table with
  | nil => simp [pushValue, Attribute.name, Attribute.push]
  | cons e es ih =>
    have other := fresh e List.mem_cons_self
    have rest := ih fun e' member => fresh e' (List.mem_cons_of_mem _ member)
    rw [List.cons_append, pushValue, if_neg other, rest]
    rfl

theorem appendAttr_more {table : List Attribute} {name value : String} {type : AttrType}
    {values : List String} (spaceless : Spaceless name) (fresh : ∀ e ∈ table, e.name ≠ name)
    (plain : type ≠ .container) :
    appendAttr (table ++ [.values name type (some values)]) name (typeToString type) value =
      .ok (table ++ [.values name type (some (values ++ [value]))]) := by
  have absent := find_fresh fresh
  have found : ((table ++ [Attribute.values name type (some values)]).find? fun e =>
      decide (e.name = name)) = some (.values name type (some values)) := by
    rw [List.find?_append, absent]
    simp [Attribute.name]
  have same : ¬ (Attribute.values name type (some values)).type ≠ type := not_not.mpr rfl
  have named : typeToString (Attribute.values name type (some values)).type ≠ "Container" :=
    fun same => plain (container_of_string same)
  unfold appendAttr
  rw [spaceless]
  dsimp only
  rw [found]
  dsimp only
  rw [AttributeTransfer.stringToType_typeToString, if_neg same, if_neg named]
  exact pushValue_last fresh

/-- One value is written into the attribute on top. -/
theorem value_run {p : Parser} {b : BaseType} {bs : List BaseType} {way : List Nat}
    {table new : List Attribute} {s : List ParseState} {value : String}
    (state : p.s = .insideAttribute :: s) (top : OnTop p b bs way table)
    (empty : p.charData = "")
    (done : appendAttr table p.scratch.dodsAttrName p.scratch.dodsAttrType value = .ok new) :
    (printValue value).foldlM Parser.step p =
      .ok { p with btStack := withTable b way new :: bs, charData := "" } := by
  have started : p.step (.start "value" []) = .ok (p.setState .insideAttributeValue) := by
    simp [Parser.step, Parser.startElement, state, Parser.processAttribute]
  have read : (p.setState .insideAttributeValue).step (.characters value) =
      .ok { p.setState .insideAttributeValue with charData := value } := by
    change Except.ok { p.setState .insideAttributeValue with charData := p.charData ++ value } = _
    rw [empty, String.empty_append]
  have inner : OnTop ({ p.setState .insideAttributeValue with charData := value } :
      Parser).popState b bs way table := ⟨top.stack, top.place, top.table⟩
  have ended : ({ p.setState .insideAttributeValue with charData := value } : Parser).step
      (.finish "value") =
      .ok { p with btStack := withTable b way new :: bs, charData := "" } := by
    have change := inner.changeTable (f := fun table => appendAttr table p.scratch.dodsAttrName
      p.scratch.dodsAttrType value) done
    change ((({ p.setState .insideAttributeValue with charData := value } :
      Parser).popState.changeTable fun table => appendAttr table p.scratch.dodsAttrName
        p.scratch.dodsAttrType value) >>= fun q => pure { q with charData := "" }) = _
    rw [change]
    rfl
  exact run_cons started (run_cons read (run_cons ended rfl))

/-- The other values go behind the first ones. -/
theorem values_run {p : Parser} {b : BaseType} {bs : List BaseType} {way : List Nat}
    {table : List Attribute} {s : List ParseState} {name : String} {type : AttrType}
    (spaceless : Spaceless name) (plain : type ≠ .container)
    (fresh : ∀ e ∈ table, e.name ≠ name) (state : p.s = .insideAttribute :: s)
    (attrName : p.scratch.dodsAttrName = name)
    (attrType : p.scratch.dodsAttrType = typeToString type) (empty : p.charData = "") :
    ∀ (more done : List String),
      OnTop p b bs way (table ++ [.values name type (some done)]) →
      (more.flatMap printValue).foldlM Parser.step p =
        .ok { p with
          btStack := withTable b way (table ++ [.values name type (some (done ++ more))]) :: bs
          charData := "" } := by
  intro more
  induction more generalizing p b with
  | nil =>
    intro done top
    rw [List.append_nil, withTable_self top.table, ← top.stack, ← empty]
    rfl
  | cons v vs ih =>
    intro done top
    have first : appendAttr (table ++ [.values name type (some done)]) p.scratch.dodsAttrName
        p.scratch.dodsAttrType v = .ok (table ++ [.values name type (some (done ++ [v]))]) := by
      rw [attrName, attrType]
      exact appendAttr_more spaceless fresh plain
    have run := value_run state top empty first
    have top' : OnTop ({ p with
          btStack := withTable b way (table ++ [.values name type (some (done ++ [v]))]) :: bs
          charData := "" } : Parser)
        (withTable b way (table ++ [.values name type (some (done ++ [v]))])) bs way
        (table ++ [.values name type (some (done ++ [v]))]) := top.changed rfl rfl
    have rest := ih (p := { p with
        btStack := withTable b way (table ++ [.values name type (some (done ++ [v]))]) :: bs
        charData := "" }) state attrName attrType rfl (done ++ [v]) top'
    rw [List.flatMap_cons, List.foldlM_append, run]
    change List.foldlM Parser.step _ (vs.flatMap printValue) = _
    rw [rest, withTable_twice top.table, List.append_assoc]
    rfl

/-- All values of an attribute, whose first one makes it. -/
theorem allValues_run {p : Parser} {b : BaseType} {bs : List BaseType} {way : List Nat}
    {table : List Attribute} {s : List ParseState} {name : String} {type : AttrType}
    (spaceless : Spaceless name) (plain : type ≠ .container)
    (fresh : ∀ e ∈ table, e.name ≠ name) (state : p.s = .insideAttribute :: s)
    (attrName : p.scratch.dodsAttrName = name)
    (attrType : p.scratch.dodsAttrType = typeToString type) (empty : p.charData = "")
    (top : OnTop p b bs way table) (values : List String) :
    (values.flatMap printValue).foldlM Parser.step p =
      .ok { p with
        btStack := withTable b way (table ++ reread (.values name type (some values))) :: bs
        charData := "" } := by
  cases values with
  | nil =>
    have same : withTable b way (table ++ reread (.values name type (some []))) = b := by
      change withTable b way (table ++ []) = b
      rw [List.append_nil, withTable_self top.table]
    rw [same, ← top.stack, ← empty]
    rfl
  | cons v vs =>
    have first : appendAttr table p.scratch.dodsAttrName p.scratch.dodsAttrType v =
        .ok (table ++ [.values name type (some [v])]) := by
      rw [attrName, attrType]
      exact appendAttr_new spaceless fresh
    have top' : OnTop ({ p with
          btStack := withTable b way (table ++ [.values name type (some [v])]) :: bs
          charData := "" } : Parser)
        (withTable b way (table ++ [.values name type (some [v])])) bs way
        (table ++ [.values name type (some [v])]) := top.changed rfl rfl
    have rest := values_run (p := { p with
        btStack := withTable b way (table ++ [.values name type (some [v])]) :: bs
        charData := "" }) spaceless plain fresh state attrName attrType rfl vs [v] top'
    rw [List.flatMap_cons, List.foldlM_append, value_run state top empty first]
    change List.foldlM Parser.step _ (vs.flatMap printValue) = _
    rw [rest, withTable_twice top.table]
    rfl

/-! ## Attributes -/

/-- The states in which an attribute may begin, of a Group, a variable or a container. -/
def TakesAttributes : ParseState → Prop
  | .insideGroup | .insideAttributeContainer | .insideSimpleType | .insideConstructor
  | .insideSequence => True
  | _ => False

theorem start_attribute {p : Parser} {state : ParseState} {s : List ParseState}
    (at_state : p.s = state :: s) (takes : TakesAttributes state)
    (attributes : List (String × String)) :
    p.step (.start "Attribute" attributes) = p.processAttributeHelper attributes := by
  unfold Parser.step
  dsimp only
  unfold Parser.startElement
  rw [at_state]
  cases state <;> first | exact takes.elim | rfl

def scratchFor (name type : String) : Scratch :=
  ⟨[("name", name), ("type", type)], name, type⟩

theorem processAttributeHelper_values {p : Parser} {name type : String}
    (plain : type ≠ "Container") (written : type ≠ "OtherXML") :
    p.processAttributeHelper [("name", name), ("type", type)] =
      .ok { p.setState .insideAttribute with scratch := scratchFor name type } := by
  have required : (((p.transferXmlAttrs [("name", name), ("type", type)]).checkRequiredAttribute
      "name").checkRequiredAttribute "type") =
      p.transferXmlAttrs [("name", name), ("type", type)] := rfl
  unfold Parser.processAttributeHelper
  rw [required]
  have read : (p.transferXmlAttrs [("name", name), ("type", type)]).xmlAttr "type" = type := rfl
  dsimp only
  rw [read, if_neg plain, if_neg written]
  rfl

theorem processAttributeHelper_container {p : Parser} {name : String} :
    p.processAttributeHelper [("name", name), ("type", "Container")] =
      ((p.transferXmlAttrs [("name", name), ("type", "Container")]).setState
        .insideAttributeContainer).appendContainer name := rfl

/-- The parser that reads one of the attributes of the table on top. -/
structure Ready (p : Parser) (b : BaseType) (bs : List BaseType) (way : List Nat)
    (table : List Attribute) : Prop where
  state : ∃ state s, p.s = state :: s ∧ TakesAttributes state
  top : OnTop p b bs way table
  empty : p.charData = ""

theorem finish_attribute {p : Parser} {s : List ParseState} (state : p.s = .insideAttribute :: s) :
    p.step (.finish "Attribute") = .ok p.popState := by
  unfold Parser.step
  dsimp only
  unfold Parser.endElement
  rw [state]
  rfl

/-- An attribute with its values, and nothing for one without any. -/
theorem values_reaches {p : Parser} {b : BaseType} {bs : List BaseType} {way : List Nat}
    {table : List Attribute} {name : String} {type : AttrType} {values : List String}
    (ready : Ready p b bs way table) (spaceless : Spaceless name) (plain : type ≠ .container)
    (written : type ≠ .otherXml) (fresh : ∀ e ∈ table, e.name ≠ name) :
    Reaches p (attributeElement name type (values.flatMap printValue)) { p with
      btStack :=
        withTable b way (table ++ reread (.values name type (some values))) :: bs } := by
  obtain ⟨state, s, at_state, takes⟩ := ready.state
  have begun : p.step (.start "Attribute" [("name", name), ("type", typeToString type)]) =
      .ok { p.setState .insideAttribute with scratch := scratchFor name (typeToString type) } :=
    (start_attribute at_state takes _).trans (processAttributeHelper_values
      (fun same => plain (container_of_string same)) fun same => written (otherXml_of_string same))
  have top : OnTop ({ p.setState .insideAttribute with
      scratch := scratchFor name (typeToString type) } : Parser) b bs way table :=
    ⟨ready.top.stack, ready.top.place, ready.top.table⟩
  have ended : ∀ q : Parser, q.s = .insideAttribute :: p.s → [Event.finish "Attribute"].foldlM
      Parser.step q = .ok { q with s := p.s } := by
    intro q state
    rw [List.foldlM_cons, finish_attribute state]
    change Except.ok q.popState = _
    unfold Parser.popState
    rw [state]
    rfl
  have run := allValues_run spaceless plain fresh (s := p.s) (p := {
    p.setState .insideAttribute with scratch := scratchFor name (typeToString type) })
    rfl rfl rfl ready.empty top values
  exact ⟨scratchFor name (typeToString type), p.enumDef,
    run_cons begun (run_append run (ended _ rfl))⟩

theorem appendContainer_new {table : List Attribute} {name : String}
    (spaceless : Spaceless name) (fresh : ∀ e ∈ table, e.name ≠ name) :
    DMR.appendContainer table name = .ok (table ++ [.container name []]) := by
  have absent := find_fresh fresh
  unfold DMR.appendContainer
  rw [absent, spaceless]
  rfl

/-- A container around what is read of the table inside it. -/
theorem container_reaches {p : Parser} {b : BaseType} {bs : List BaseType} {way : List Nat}
    {table inside : List Attribute} {name : String} {inner : List Event}
    (ready : Ready p b bs way table) (spaceless : Spaceless name)
    (fresh : ∀ e ∈ table, e.name ≠ name)
    (reads : ∀ (q : Parser) (b : BaseType) (way : List Nat), Ready q b bs way [] →
      Reaches q inner { q with btStack := withTable b way inside :: bs }) :
    Reaches p (attributeElement name .container inner) { p with
      btStack := withTable b way (table ++ [.container name inside]) :: bs } := by
  obtain ⟨state, s, at_state, takes⟩ := ready.state
  obtain ⟨below, place⟩ := ready.top.place
  let q : Parser := { p with
    s := .insideAttributeContainer :: p.s
    btStack := withTable b way (table ++ [.container name []]) :: bs
    atStack := ⟨bs.length, way ++ [table.length]⟩ :: p.atStack
    scratch := { p.scratch with xmlAttrs := [("name", name), ("type", "Container")] } }
  have begun : p.step (.start "Attribute" [("name", name), ("type", "Container")]) = .ok q := by
    have top : OnTop ((p.transferXmlAttrs [("name", name), ("type", "Container")]).setState
        .insideAttributeContainer) b bs way table :=
      ⟨ready.top.stack, ready.top.place, ready.top.table⟩
    rw [start_attribute at_state takes, processAttributeHelper_container,
      top.appendContainer (appendContainer_new spaceless fresh)]
    rfl
  have last : (table ++ [Attribute.container name []])[table.length]? =
      some (.container name []) := List.getElem?_concat_length ..
  have changed : tableAt way (withTable b way (table ++ [.container name []])).attr =
      some (table ++ [.container name []]) := by
    unfold withTable
    rw [setAttr_attr]
    exact tableAt_put ready.top.table
  have ready' : Ready q (withTable b way (table ++ [.container name []])) bs
      (way ++ [table.length]) [] :=
    ⟨⟨.insideAttributeContainer, p.s, rfl, trivial⟩,
      ⟨rfl, ⟨p.atStack, rfl⟩, tableAt_below last changed⟩, ready.empty⟩
  have whole : withTable (withTable b way (table ++ [.container name []]))
      (way ++ [table.length]) inside = withTable b way (table ++ [.container name inside]) := by
    have set : (table ++ [Attribute.container name []]).set table.length
        (.container name inside) = table ++ [.container name inside] := by simp
    have below := put_below last inside changed
    unfold withTable at below ⊢
    rw [below, set, setAttr_attr, setAttr_twice, put_put ready.top.table]
  refine Reaches.next begun ((reads q _ _ ready').append fun scratch enumDef => ?_)
  refine ⟨scratch, enumDef, ?_⟩
  rw [whole]
  rfl

/-- The parser with the changed table is ready for the next attribute. -/
theorem Ready.changed {p : Parser} {b : BaseType} {bs : List BaseType} {way : List Nat}
    {table new : List Attribute} (ready : Ready p b bs way table) (scratch : Scratch)
    (enumDef : Option Groups.D4EnumDef) :
    Ready { p with btStack := withTable b way new :: bs, scratch, enumDef, charData := "" }
      (withTable b way new) bs way new :=
  ⟨ready.state, ready.top.changed rfl rfl, rfl⟩

variable (raw : String → List Event)

mutual

/-- An attribute is printed, and what is printed read into the table on top. -/
theorem attribute_reaches : ∀ e : Attribute, Attribute.Sound e →
    ∃ events, printAttribute raw e = .ok events ∧
      ∀ p b bs way table, Ready p b bs way table → (∀ e' ∈ table, e'.name ≠ e.name) →
        Reaches p events { p with btStack := withTable b way (table ++ reread e) :: bs }
  | .values name type attr, sound => by
    obtain ⟨spaceless, plain, written, set⟩ := sound
    obtain ⟨values, rfl⟩ := Option.isSome_iff_exists.mp set
    refine ⟨attributeElement name type (values.flatMap printValue), ?_, ?_⟩
    · rw [printAttribute]
      exact if_neg written
    · intro p b bs way table ready fresh
      exact values_reaches ready spaceless plain written fresh
  | .container name entries, sound => by
    obtain ⟨spaceless, inside⟩ := sound
    obtain ⟨inner, printed, reads⟩ := table_reaches entries inside
    refine ⟨attributeElement name .container inner, ?_, ?_⟩
    · rw [printAttribute, printed]
      rfl
    · intro p b bs way table ready fresh
      refine container_reaches ready spaceless fresh fun q b way ready' => ?_
      exact reads q b bs way [] ready' fun _ _ _ member => nomatch member

theorem table_reaches : ∀ es : List Attribute, TableSound es →
    ∃ events, printAttrTable raw es = .ok events ∧
      ∀ p b bs way table, Ready p b bs way table → (∀ e ∈ es, ∀ e' ∈ table, e'.name ≠ e.name) →
        Reaches p events { p with btStack := withTable b way (table ++ rereadTable es) :: bs }
  | [], _ => by
    refine ⟨[], rfl, ?_⟩
    intro p b bs way table ready _
    have same : withTable b way (table ++ rereadTable []) = b := by
      rw [rereadTable, List.append_nil, withTable_self ready.top.table]
    rw [same, ← ready.top.stack]
    exact Reaches.none ready.empty
  | e :: es, sound => by
    obtain ⟨here, others, there⟩ := sound
    obtain ⟨first, printed, reads⟩ := attribute_reaches e here
    obtain ⟨rest, printed', reads'⟩ := table_reaches es there
    refine ⟨first ++ rest, ?_, ?_⟩
    · rw [printAttrTable, printed, printed']
      rfl
    · intro p b bs way table ready fresh
      have now := reads p b bs way table ready (fresh e List.mem_cons_self)
      refine now.append fun scratch enumDef => ?_
      have after := reads' _ _ bs way (table ++ reread e) (ready.changed scratch enumDef) ?_
      · rw [withTable_twice ready.top.table, List.append_assoc] at after
        exact after
      · intro e' member x present
        rcases List.mem_append.mp present with old | new
        · exact fresh e' (List.mem_cons_of_mem _ member) x old
        · rw [reread_name new]
          exact (others e' member).symm

end

/-! ## What stays as it is -/

mutual

/-- Every attribute has a value. -/
def Valued : Attribute → Prop
  | .values _ _ attr => attr ≠ some []
  | .container _ entries => TableValued entries

def TableValued : List Attribute → Prop
  | [] => True
  | e :: es => Valued e ∧ TableValued es

end

mutual

/-- No attribute is of an unknown type. -/
def Known : Attribute → Prop
  | .values _ type _ => type ≠ .unknown
  | .container _ entries => TableKnown entries

def TableKnown : List Attribute → Prop
  | [] => True
  | e :: es => Known e ∧ TableKnown es

end

theorem append_eq_cons {α : Type} {xs ys es : List α} {e : α} (short : xs.length ≤ 1)
    (shorter : ys.length ≤ es.length) : xs ++ ys = e :: es ↔ xs = [e] ∧ ys = es := by
  constructor
  · intro same
    rcases xs with _ | ⟨x, _ | ⟨x', xs⟩⟩
    · have lengths := congrArg List.length same
      simp at lengths
      omega
    · obtain ⟨rfl, rfl⟩ := List.cons.inj same
      exact ⟨rfl, rfl⟩
    · simp at short
  · rintro ⟨rfl, rfl⟩
    rfl

theorem reread_length (e : Attribute) : (reread e).length ≤ 1 := by
  cases e with
  | values name type attr => rcases attr with _ | _ | ⟨v, vs⟩ <;> simp [reread]
  | container name entries => simp [reread]

theorem rereadTable_length : ∀ es : List Attribute, (rereadTable es).length ≤ es.length
  | [] => Nat.le_refl 0
  | e :: es => by
    have here := reread_length e
    have there := rereadTable_length es
    rw [rereadTable, List.length_append, List.length_cons]
    omega

theorem cloneTable_length : ∀ es : List Attribute, (cloneTable es).length = es.length
  | [] => rfl
  | _ :: es => congrArg (· + 1) (cloneTable_length es)

theorem cloneTable_append : ∀ es es' : List Attribute,
    cloneTable (es ++ es') = cloneTable es ++ cloneTable es'
  | [], _ => rfl
  | e :: es, es' => congrArg (e.clone :: ·) (cloneTable_append es es')

mutual

theorem reread_same : ∀ e : Attribute, Attribute.Sound e → (reread e = [e] ↔ Valued e)
  | .values name type attr, sound => by
    obtain ⟨-, -, -, set⟩ := sound
    rcases attr with _ | _ | ⟨v, vs⟩
    · cases set
    · exact ⟨(fun same => nomatch same), fun valued => absurd rfl valued⟩
    · exact ⟨fun _ => nofun, fun _ => rfl⟩
  | .container name entries, sound => by
    have inside := rereadTable_same entries sound.2
    rw [reread, List.singleton_inj, Attribute.container.injEq]
    exact (and_iff_right rfl).trans inside

/-- A table comes back if every attribute in it has a value, and only then. -/
theorem rereadTable_same : ∀ es : List Attribute, TableSound es →
    (rereadTable es = es ↔ TableValued es)
  | [], _ => ⟨fun _ => trivial, fun _ => rfl⟩
  | e :: es, sound => by
    rw [rereadTable, append_eq_cons (reread_length e) (rereadTable_length es),
      reread_same e sound.1, rereadTable_same es sound.2.2]
    exact Iff.rfl

end

mutual

theorem clone_reread_same : ∀ e : Attribute, Attribute.Sound e →
    (cloneTable (reread e) = [e] ↔ Valued e ∧ Known e)
  | .values name type attr, sound => by
    obtain ⟨-, -, -, set⟩ := sound
    rcases attr with _ | _ | ⟨v, vs⟩
    · cases set
    · exact ⟨(fun same => nomatch same), fun kept => absurd rfl kept.1⟩
    · change [Attribute.values name type (if type = .unknown then none else some (v :: vs))] =
        [.values name type (some (v :: vs))] ↔ _
      by_cases unknown : type = .unknown
      · rw [if_pos unknown]
        exact ⟨(fun same => nomatch same), fun kept => absurd unknown kept.2⟩
      · rw [if_neg unknown]
        exact ⟨fun _ => ⟨nofun, unknown⟩, fun _ => rfl⟩
  | .container name entries, sound => by
    have inside := clone_rereadTable_same entries sound.2
    rw [reread, cloneTable, cloneTable, Attribute.clone, List.singleton_inj,
      Attribute.container.injEq]
    exact (and_iff_right rfl).trans inside

/-- A copy of what comes back of a table. -/
theorem clone_rereadTable_same : ∀ es : List Attribute, TableSound es →
    (cloneTable (rereadTable es) = es ↔ TableValued es ∧ TableKnown es)
  | [], _ => ⟨fun _ => ⟨trivial, trivial⟩, fun _ => rfl⟩
  | e :: es, sound => by
    have short : (cloneTable (reread e)).length ≤ 1 := by
      rw [cloneTable_length]
      exact reread_length e
    have shorter : (cloneTable (rereadTable es)).length ≤ es.length := by
      rw [cloneTable_length]
      exact rereadTable_length es
    rw [rereadTable, cloneTable_append, append_eq_cons short shorter,
      clone_reread_same e sound.1, clone_rereadTable_same es sound.2.2]
    exact and_and_and_comm

end

mutual

theorem clone_twice : ∀ e : Attribute, e.clone.clone = e.clone
  | .values name type attr => by
    by_cases unknown : type = .unknown <;> simp [Attribute.clone, unknown]
  | .container name entries => by
    rw [Attribute.clone, Attribute.clone, cloneTable_twice entries]

theorem cloneTable_twice : ∀ es : List Attribute, cloneTable (cloneTable es) = cloneTable es
  | [] => rfl
  | e :: es => by
    rw [cloneTable, cloneTable, clone_twice e, cloneTable_twice es]

end

end Libdap.Guarantees.DMRTables
