import Libdap.Source.DDXParserSAX2
import Libdap.Library.Outcome

/-!
# Malformed DDX documents

The states on the stack say how many variables and tables there are on the other two, and an
error on it stays there: no callback takes it away. So a parse in which an error was recorded
does not end in the first state again.
-/
namespace Libdap.Guarantees.DDXErrors
open Libdap.Source Libdap.Source.DDXParserSAX2 Libdap.Source.AttributeTransfer
open Libdap.Source.D4ParserSax2 (getType isSimpleType isVectorType isConstructorType)
open Libdap.Source.HTTPCacheTable (Chars)
open Libdap.Source.Variables (VarType)
open Libdap.Library

/-! ## What is on the stacks -/

/-- The variables that a state stands for. -/
def variablesOf : ParseState → Nat
  | .insideSimpleType | .insideArray | .insideGrid | .insideMap | .insideStructure
  | .insideSequence => 1
  | _ => 0

/-- The tables that a state stands for. -/
def tablesOf : ParseState → Nat
  | .insideAttributeContainer => 1
  | state => variablesOf state

structure Counts (s : List ParseState) (bts ats : Nat) (errors : List Chars) : Prop where
  bottom : ∃ above, s = above ++ [.parserStart] ∧ .parserStart ∉ above
  bts_eq : bts = 1 + (s.map variablesOf).sum
  ats_eq : ats = 1 + (s.map tablesOf).sum
  recorded : errors ≠ [] → .parserError ∈ s

def Balanced (p : Parser) : Prop := Counts p.s p.btStack.length p.atStack.length p.errorMsg

section
variable {s : List ParseState} {bts ats : Nat} {errors : List Chars} {state : ParseState}

theorem Counts.push (counts : Counts s bts ats errors) (other : state ≠ .parserStart) :
    Counts (state :: s) (bts + variablesOf state) (ats + tablesOf state) errors := by
  obtain ⟨above, rfl, inside⟩ := counts.bottom
  refine ⟨⟨state :: above, rfl, ?_⟩, ?_, ?_, fun some' => ?_⟩
  · simp [Ne.symm other, inside]
  · rw [List.map_cons, List.sum_cons, counts.bts_eq]
    omega
  · rw [List.map_cons, List.sum_cons, counts.ats_eq]
    omega
  · exact List.mem_cons_of_mem _ (counts.recorded some')

theorem Counts.record (counts : Counts s bts ats errors) (more : List Chars) :
    Counts (.parserError :: s) bts ats more := by
  have pushed : Counts (.parserError :: s) bts ats errors := counts.push (by decide)
  exact ⟨pushed.bottom, pushed.bts_eq, pushed.ats_eq, fun _ => by simp⟩

theorem Counts.pop (counts : Counts (state :: s) bts ats errors) (start : state ≠ .parserStart)
    (error : state ≠ .parserError) :
    ∃ bts' ats', bts = bts' + variablesOf state ∧ ats = ats' + tablesOf state ∧
      Counts s bts' ats' errors := by
  obtain ⟨above, same, inside⟩ := counts.bottom
  refine ⟨1 + (s.map variablesOf).sum, 1 + (s.map tablesOf).sum, ?_, ?_, ?_, rfl, rfl, ?_⟩
  · rw [counts.bts_eq, List.map_cons, List.sum_cons]
    omega
  · rw [counts.ats_eq, List.map_cons, List.sum_cons]
    omega
  · cases above with
    | nil => exact absurd (List.cons.inj same).1 start
    | cons first above =>
      exact ⟨above, (List.cons.inj same).2, fun member => inside (List.mem_cons_of_mem _ member)⟩
  · intro some'
    exact (List.mem_cons.mp (counts.recorded some')).resolve_left (Ne.symm error)

theorem Counts.nonempty (counts : Counts s bts ats errors) : 1 ≤ bts ∧ 1 ≤ ats := by
  have := counts.bts_eq
  have := counts.ats_eq
  omega

/-- In the first state nothing was recorded. -/
theorem Counts.start (counts : Counts (.parserStart :: s) bts ats errors) : errors = [] := by
  obtain ⟨above, same, inside⟩ := counts.bottom
  cases above with
  | nil =>
    by_contra some'
    have member := counts.recorded some'
    rw [same] at member
    simp at member
  | cons first above =>
    have head := (List.cons.inj same).1
    exact absurd (by simp [head]) inside

end

variable {p : Parser} {refused : Prop}

theorem Balanced.table (balanced : Balanced p) : ∃ t ats, p.atStack = t :: ats :=
  List.exists_cons_of_length_pos (Counts.nonempty balanced).2

theorem Balanced.top (balanced : Balanced p) : ∃ bt bts, p.btStack = bt :: bts :=
  List.exists_cons_of_length_pos (Counts.nonempty balanced).1

theorem Balanced.state (balanced : Balanced p) : ∃ state s, p.s = state :: s := by
  obtain ⟨above, same, _⟩ := Counts.bottom balanced
  cases above with
  | nil => exact ⟨_, _, same⟩
  | cons first above => exact ⟨_, _, same⟩

theorem Balanced.fatalError (balanced : Balanced p) (msg : Chars) : Balanced (p.fatalError msg) :=
  Counts.record balanced _

/-- A state that stands for nothing. -/
theorem Balanced.setState (balanced : Balanced p) {state : ParseState}
    (start : state ≠ .parserStart) (no_table : tablesOf state = 0) :
    Balanced (p.setState state) := by
  have pushed := Counts.push balanced start
  cases state <;> first | contradiction | exact pushed

theorem Balanced.popState (balanced : Balanced p) {state : ParseState} {s : List ParseState}
    (top : p.s = state :: s) (start : state ≠ .parserStart) (error : state ≠ .parserError)
    (plain : variablesOf state = 0) (no_table : tablesOf state = 0) : Balanced p.popState := by
  unfold Balanced at balanced
  rw [top] at balanced
  obtain ⟨bts, ats, bt, at', counts⟩ := balanced.pop start error
  rw [plain] at bt
  rw [no_table] at at'
  unfold Balanced Parser.popState
  rw [top, bt, at']
  exact counts

/-- The end of a variable: one of each. -/
theorem Balanced.popVariable (balanced : Balanced p) {state : ParseState} {s : List ParseState}
    (top : p.s = state :: s) (one : variablesOf state = 1) :
    ∃ btp bts table ats, p.btStack = btp :: bts ∧ p.atStack = table :: ats ∧
      Balanced { p.popState with btStack := bts, atStack := ats } := by
  unfold Balanced at balanced
  rw [top] at balanced
  obtain ⟨bts, ats, bt, at', counts⟩ := balanced.pop (by rintro rfl; cases one)
    (by rintro rfl; cases one)
  have one_table : tablesOf state = 1 := by
    cases state <;> first | contradiction | rfl
  rw [one] at bt
  rw [one_table] at at'
  obtain ⟨btp, bts', bts_eq⟩ := List.exists_cons_of_length_eq_add_one bt
  obtain ⟨table, ats', ats_eq⟩ := List.exists_cons_of_length_eq_add_one at'
  rw [bts_eq, List.length_cons, Nat.add_right_cancel_iff] at bt
  rw [ats_eq, List.length_cons, Nat.add_right_cancel_iff] at at'
  refine ⟨btp, bts', table, ats', bts_eq, ats_eq, ?_⟩
  unfold Balanced Parser.popState
  rw [top, bt, at']
  exact counts

/-! ## One callback -/

/-- The callback keeps the stacks in order and forgets no error, or something that was asked of
a table or a variable was refused. -/
def Fine (p : Parser) (refused : Prop) : Except Failure Parser → Prop
  | .ok p' => Balanced p' ∧ (p.errorMsg ≠ [] → p'.errorMsg ≠ [])
  | .error failure => failure ≠ .undefinedBehaviour ∧ refused

theorem fine_fatal (balanced : Balanced p) (msg : Chars) :
    Fine p refused (.ok (p.fatalError msg)) :=
  ⟨balanced.fatalError msg, fun _ => by simp [Parser.fatalError]⟩

theorem fine_expected (balanced : Balanced p) (what : String) (localname : Chars) :
    Fine p refused (.ok (p.expected what localname)) :=
  fine_fatal balanced _

theorem fine_unexpected (balanced : Balanced p) (inside : String) (localname : Chars) :
    Fine p refused (.ok (p.unexpected inside localname)) :=
  fine_fatal balanced _

/-- Of two steps the second. -/
theorem Fine.after (p' : Parser) {r : Except Failure Parser}
    (kept : p.errorMsg ≠ [] → p'.errorMsg ≠ []) (fine : Fine p' refused r) : Fine p refused r := by
  cases r with
  | ok q => exact ⟨fine.1, fun some' => fine.2 (kept some')⟩
  | error failure => exact fine

theorem Fine.popped {bts : List BaseType} {ats : List Table} {r : Except Failure Parser}
    (fine : Fine { p.popState with btStack := bts, atStack := ats } refused r) :
    Fine p refused r := by
  cases r with
  | ok q => exact fine
  | error failure => exact fine

theorem Fine.bind_pure {r : Except Failure Parser} (fine : Fine p refused r) (g : Parser → Parser)
    (kept : ∀ q, Balanced q → Balanced (g q) ∧ (g q).errorMsg = q.errorMsg) :
    Fine p refused (do
      let q ← r
      pure (g q)) := by
  cases r with
  | error failure => exact fine
  | ok q =>
    obtain ⟨balanced, same⟩ := kept q fine.1
    exact ⟨balanced, fun some' => same ▸ fine.2 some'⟩

theorem Fine.getD {o : Option (Except Failure Parser)} {r : Except Failure Parser}
    (found : ∀ x, o = some x → Fine p refused x) (fine : Fine p refused r) :
    Fine p refused (o.getD r) := by
  cases o with
  | none => exact fine
  | some x => exact found x rfl

theorem Fine.orElse {o o' : Option (Except Failure Parser)}
    (first : ∀ x, o = some x → Fine p refused x) (second : ∀ x, o' = some x → Fine p refused x) :
    ∀ x, (o <|> o') = some x → Fine p refused x := by
  intro x found
  cases o with
  | none => exact second x found
  | some y => exact first x found

section
variable (name : String)

theorem Balanced.checkRequiredAttribute (balanced : Balanced p) :
    Balanced (p.checkRequiredAttribute name) := by
  unfold Parser.checkRequiredAttribute
  split
  · exact balanced
  · exact balanced.fatalError _

theorem checkRequired_errors (some' : p.errorMsg ≠ []) :
    (p.checkRequiredAttribute name).errorMsg ≠ [] := by
  unfold Parser.checkRequiredAttribute
  split
  · exact some'
  · simp [Parser.errorAt, Parser.fatalError]

@[simp] theorem checkRequired_atStack :
    (p.checkRequiredAttribute name).atStack = p.atStack := by
  unfold Parser.checkRequiredAttribute
  split <;> rfl

@[simp] theorem checkRequired_attributeTable :
    (p.checkRequiredAttribute name).attributeTable = p.attributeTable := by
  unfold Parser.checkRequiredAttribute
  split <;> rfl

@[simp] theorem checkRequired_xmlAttr (other : String) :
    (p.checkRequiredAttribute name).xmlAttr other = p.xmlAttr other := by
  simp [Parser.xmlAttr]

end

/-! ## Tables -/

/-- Of the table on top of `at_stack`. -/
def OnTop (p : Parser) (condition : Table → Prop) : Prop :=
  ∃ t ∈ p.atStack.head?, condition t

def ContainerTaken (name : Chars) (t : Table) : Prop := (simpleFind t.attrMap name).isSome = true

def ValueRefused (type name : Chars) (t : Table) : Prop :=
  ∃ e, simpleFind t.attrMap (Attributes.removeSpaceEncoding name) = some e ∧
    (e.type ≠ Attributes.stringToType type ∨ Attributes.typeToString e.type = "Container")

def AliasRefused (name source : Chars) (t : Table) : Prop :=
  (simpleFind t.attrMap (Attributes.removeSpaceEncoding name)).isSome = true ∨
    ∀ e ∈ find t (Attributes.removeSpaceEncoding source), e.isContainer = false

theorem appendContainer_refuses {t : Table} {next : Nat} {name : Chars} {failure : Failure}
    (failed : DASParser.appendContainer t next name = .error failure) :
    failure ≠ .undefinedBehaviour ∧ ContainerTaken name t := by
  unfold DASParser.appendContainer at failed
  dsimp only at failed
  split at failed
  · next taken =>
    cases failed
    exact ⟨by simp [Attributes.nameError], taken⟩
  · cases failed

theorem appendValue_refuses {t : Table} {type name value : Chars} {failure : Failure}
    (failed : DASParser.appendValue t type name value = .error failure) :
    failure ≠ .undefinedBehaviour ∧ ValueRefused type name t := by
  unfold DASParser.appendValue at failed
  cases appended : appendAttr t.attrMap name type [String.ofList value] with
  | ok attrMap =>
    rw [appended] at failed
    cases failed
  | error failure' =>
    rw [appended] at failed
    cases failed
    unfold appendAttr at appended
    dsimp only at appended
    split at appended
    · next e found =>
      split at appended
      · next other =>
        cases appended
        exact ⟨by simp [Attributes.nameError], e, found, .inl other⟩
      · split at appended
        · next container =>
          cases appended
          exact ⟨by simp [Attributes.nameError], e, found, .inr container⟩
        · cases appended
    · cases appended

theorem attrAlias_refuses {t : Table} {name source : Chars} {failure : Failure}
    (failed : attrAlias t name source = .error failure) :
    failure ≠ .undefinedBehaviour ∧ AliasRefused name source t := by
  unfold attrAlias at failed
  dsimp only at failed
  split at failed
  · next missing =>
    cases failed
    exact ⟨by simp [tableError], .inr (by simp [missing])⟩
  · next found =>
    cases failed
    exact ⟨by simp, .inr (by simp [found, Attribute.isContainer])⟩
  · split at failed
    · next taken =>
      cases failed
      exact ⟨by simp [tableError], .inl taken⟩
    · cases failed

theorem changeTable_fine (balanced : Balanced p) {f : Table → Except Failure Table}
    {condition : Table → Prop}
    (refuses : ∀ t failure, f t = .error failure → failure ≠ .undefinedBehaviour ∧ condition t)
    (why : OnTop p condition → refused) : Fine p refused (p.changeTable f) := by
  obtain ⟨t, ats, tables⟩ := balanced.table
  unfold Parser.changeTable
  rw [tables]
  dsimp only
  cases result : f t with
  | error failure =>
    obtain ⟨defined, holds⟩ := refuses t failure result
    exact ⟨defined, why ⟨t, by simp [tables], holds⟩⟩
  | ok t' =>
    refine ⟨?_, id⟩
    unfold Balanced at balanced ⊢
    rw [tables] at balanced
    exact balanced

theorem appendContainer_fine (balanced : Balanced p) (name : Chars)
    (why : OnTop p (ContainerTaken name) → refused) :
    Fine p refused ((p.setState .insideAttributeContainer).appendContainer name) := by
  obtain ⟨t, ats, tables⟩ := balanced.table
  unfold Parser.appendContainer Parser.changeTable Parser.setState
  rw [tables]
  dsimp only
  cases result : DASParser.appendContainer t p.address name with
  | error failure =>
    obtain ⟨defined, taken⟩ := appendContainer_refuses result
    exact ⟨defined, why ⟨t, by simp [tables], taken⟩⟩
  | ok t' =>
    refine ⟨?_, id⟩
    unfold Balanced at balanced
    rw [tables] at balanced
    exact balanced.push (by decide)

/-! ## Elements -/

/-- The states in which Attribute and Alias elements are taken. -/
def takesEntries : ParseState → Bool
  | .insideDataset | .insideAttributeContainer | .insideAttribute | .insideSimpleType
  | .insideArray | .insideGrid | .insideMap | .insideStructure | .insideSequence => true
  | _ => false

/-- The states in which variables of every simple type are taken. -/
def takesVariables : ParseState → Bool
  | .insideDataset | .insideArray | .insideMap | .insideStructure | .insideSequence => true
  | _ => false

/-- The table on top does not take what an Attribute or Alias element asks of it. -/
def EntryRefused (p : Parser) (localname : Chars) (attributes : List SaxAttribute) : Prop :=
  let q := p.transferXmlAttrs attributes
  (localname = "Attribute".toList ∧ q.xmlAttr "type" = "Container".toList ∧
    OnTop p (ContainerTaken (q.xmlAttr "name"))) ∨
  (localname = "Alias".toList ∧ OnTop p (AliasRefused (q.xmlAttr "name") (q.xmlAttr "attribute")))

/-- A Grid has its array first. -/
def PartRefused (p : Parser) : Prop :=
  ∃ part parent below, p.btStack = part :: parent :: below ∧ parent.type = .grid ∧
    parent.vars = [] ∧ part.type ≠ .array

/-- The parser after two required attributes were looked for. -/
def checked (p : Parser) (attributes : List SaxAttribute) (first second : String) : Parser :=
  ((p.transferXmlAttrs attributes).checkRequiredAttribute first).checkRequiredAttribute second

section
variable (attributes : List SaxAttribute) (first second : String)

theorem checked_balanced (balanced : Balanced p) : Balanced (checked p attributes first second) :=
  (Balanced.checkRequiredAttribute (p := p.transferXmlAttrs attributes) first
    balanced).checkRequiredAttribute second

theorem checked_errors (some' : p.errorMsg ≠ []) :
    (checked p attributes first second).errorMsg ≠ [] :=
  checkRequired_errors second
    (checkRequired_errors (p := p.transferXmlAttrs attributes) first some')

theorem checked_atStack : (checked p attributes first second).atStack = p.atStack := by
  simp [checked, Parser.transferXmlAttrs]

end

theorem processAttributeElement_fine (balanced : Balanced p) (attributes : List SaxAttribute)
    (why : EntryRefused p "Attribute".toList attributes → refused) :
    Fine p refused (p.processAttributeElement attributes) := by
  have fine := checked_balanced attributes "name" "type" balanced
  have kept : p.errorMsg ≠ [] → (checked p attributes "name" "type").errorMsg ≠ [] :=
    checked_errors attributes "name" "type"
  unfold Parser.processAttributeElement
  dsimp only
  split
  · next container =>
    apply Fine.after (checked p attributes "name" "type") kept
    apply appendContainer_fine fine
    rintro ⟨t, head, taken⟩
    apply why
    rw [checked_atStack] at head
    simp only [checkRequired_xmlAttr] at container taken
    exact .inl ⟨rfl, container, t, head, taken⟩
  · split
    · exact ⟨fine.setState (by decide) rfl, kept⟩
    · exact ⟨fine.setState (by decide) rfl, kept⟩

theorem processAttributeAlias_fine (balanced : Balanced p) (attributes : List SaxAttribute)
    (why : EntryRefused p "Alias".toList attributes → refused) :
    Fine p refused (p.processAttributeAlias attributes) := by
  let q := (checked p attributes "name" "attribute").setState .insideAlias
  have fine : Balanced q :=
    (checked_balanced attributes "name" "attribute" balanced).setState (by decide) rfl
  unfold Parser.processAttributeAlias
  dsimp only
  apply Fine.after q (checked_errors attributes "name" "attribute")
  apply changeTable_fine fine (fun t failure => attrAlias_refuses)
  rintro ⟨t, head, alias_refused⟩
  apply why
  refine .inr ⟨rfl, t, ?_, ?_⟩
  · rw [← checked_atStack attributes "name" "attribute"]
    exact head
  · simpa [Parser.xmlAttr, Parser.setState] using alias_refused

theorem isAttributeOrAlias_fine (balanced : Balanced p) {localname : Chars}
    {attributes : List SaxAttribute} (why : EntryRefused p localname attributes → refused)
    {r : Except Failure Parser} (found : p.isAttributeOrAlias localname attributes = some r) :
    Fine p refused r := by
  unfold Parser.isAttributeOrAlias at found
  split at found
  · next same =>
    cases found
    rw [same] at why
    exact processAttributeElement_fine balanced attributes why
  · split at found
    · next same =>
      cases found
      rw [same] at why
      exact processAttributeAlias_fine balanced attributes why
    · cases found

theorem processVariable_fine (balanced : Balanced p) {t : VarType} {state : ParseState}
    (one : variablesOf state = 1) {attributes : List SaxAttribute}
    (made : ∀ name, factory t name ≠ none) :
    Fine p refused (p.processVariable t state attributes) := by
  obtain ⟨top, bts, variables_eq⟩ := balanced.top
  have one_table : tablesOf state = 1 := by
    cases state <;> first | contradiction | rfl
  have counts : Counts (state :: p.s) (p.btStack.length + variablesOf state)
      (p.atStack.length + tablesOf state) p.errorMsg :=
    Counts.push balanced (by rintro rfl; cases one)
  rw [one, one_table, variables_eq] at counts
  unfold Parser.processVariable Parser.transferXmlAttrs Parser.setState
  dsimp only
  rw [variables_eq]
  dsimp only
  split
  · next missing => exact absurd missing (made _)
  · next btp _ =>
    split
    · exact ⟨counts, id⟩
    · unfold Parser.checkRequiredAttribute
      split
      · exact ⟨counts, id⟩
      · exact ⟨counts.record _, fun _ => by simp [Parser.errorAt, Parser.fatalError]⟩

theorem factory_some {t : VarType} {name : Chars} (made : factory t [] ≠ none) :
    factory t name ≠ none := by
  cases t <;> first | contradiction | simp [factory]

theorem isVariable_fine (balanced : Balanced p) {localname : Chars}
    {attributes : List SaxAttribute}
    (made : isSimpleType (getType (String.ofList localname)) = true →
      factory (getType (String.ofList localname)) [] ≠ none)
    {r : Except Failure Parser} (found : p.isVariable localname attributes = some r) :
    Fine p refused r := by
  unfold Parser.isVariable at found
  dsimp only at found
  split at found
  · next simple =>
    cases found
    exact processVariable_fine balanced rfl fun _ => factory_some (made simple)
  · split at found
    · cases found
      exact processVariable_fine balanced rfl fun _ => by simp [factory]
    · split at found
      · cases found
        exact processVariable_fine balanced rfl fun _ => by simp [factory]
      · split at found
        · cases found
          exact processVariable_fine balanced rfl fun _ => by simp [factory]
        · split at found
          · cases found
            exact processVariable_fine balanced rfl fun _ => by simp [factory]
          · cases found

theorem processDimension_fine (balanced : Balanced p) (attributes : List SaxAttribute) :
    Fine p refused (p.processDimension attributes) := by
  let q := ((p.transferXmlAttrs attributes).checkRequiredAttribute "size").setState
    .insideDimension
  have fine : Balanced q :=
    (Balanced.checkRequiredAttribute (p := p.transferXmlAttrs attributes) "size"
      balanced).setState (by decide) rfl
  have kept : p.errorMsg ≠ [] → q.errorMsg ≠ [] :=
    checkRequired_errors (p := p.transferXmlAttrs attributes) "size"
  obtain ⟨top, bts, variables_eq⟩ := fine.top
  unfold Parser.processDimension
  dsimp only
  rw [variables_eq]
  dsimp only
  split
  · exact Fine.after q kept (fine_fatal fine _)
  · refine ⟨?_, kept⟩
    unfold Balanced at fine
    rw [variables_eq] at fine
    exact fine

theorem processBlob_fine (balanced : Balanced p) (attributes : List SaxAttribute) :
    Fine p refused (p.processBlob attributes) :=
  ⟨(Balanced.checkRequiredAttribute (p := p.transferXmlAttrs attributes) "href"
    balanced).setState (by decide) rfl,
    checkRequired_errors (p := p.transferXmlAttrs attributes) "href"⟩

/-- The version of a Dataset element is none that `set_dap_version` takes. -/
def VersionRefused (p : Parser) (attributes : List SaxAttribute) : Prop :=
  let q := p.transferXmlAttrs attributes
  q.checkAttribute "dapVersion" = true ∧
    ∃ failure, DapVersion.setDapVersion (q.xmlAttr "dapVersion") = .error failure

theorem startDataset_fine (balanced : Balanced p) (tag : StartTag)
    (why : VersionRefused p tag.attributes → refused) :
    Fine p refused (p.startDataset tag) := by
  let q := ({ p.setState .insideDataset with rootNs := tag.uri.getD [] } :
    Parser).transferXmlAttrs tag.attributes
  have fine : Balanced q := Balanced.setState balanced (by decide) rfl
  have kept : p.errorMsg ≠ [] → (q.checkRequiredAttribute "name").errorMsg ≠ [] :=
    checkRequired_errors (p := q) "name"
  have set : ∀ dds, Fine p refused (.ok { q.checkRequiredAttribute "name" with dds }) :=
    fun _ => ⟨fine.checkRequiredAttribute "name", kept⟩
  unfold Parser.startDataset
  change Fine p refused ((q.checkRequiredAttribute "name").datasetVersion >>= _)
  cases version : (q.checkRequiredAttribute "name").datasetVersion with
  | error failure =>
    unfold Parser.datasetVersion at version
    split at version
    · next given =>
      rw [checkRequired_xmlAttr] at version
      unfold Parser.checkAttribute at given
      rw [checkRequired_attributeTable] at given
      obtain ⟨message, rfl⟩ := DapVersion.setDapVersion_refuses version
      exact ⟨nofun, why ⟨given, _, version⟩⟩
    · cases version
  | ok version => exact set _

theorem startOtherXml_fine (balanced : Balanced p) (tag : StartTag) :
    Fine p refused (.ok (p.startOtherXml tag)) := by
  unfold Parser.startOtherXml
  dsimp only
  split <;> split <;> exact ⟨balanced, id⟩

theorem addToParent_fine (balanced : Balanced p) {btp : BaseType} (kind tag : Chars)
    (why : ∀ parent below, p.btStack = parent :: below → parent.type = .grid →
      parent.vars = [] → btp.type ≠ .array → refused) :
    Fine p refused (p.addToParent btp kind tag) := by
  obtain ⟨parent, below, variables_eq⟩ := balanced.top
  have kept : ∀ parent, Balanced { p with btStack := parent :: below } := fun _ => by
    unfold Balanced at balanced ⊢
    rw [variables_eq] at balanced
    exact balanced
  unfold Parser.addToParent
  rw [variables_eq]
  dsimp only
  split
  · unfold BaseType.addVar
    split
    · exact ⟨kept _, id⟩
    · next grid =>
      unfold BaseType.addPart
      split
      · next refuses =>
        exact ⟨by simp, why parent below variables_eq grid refuses.1 refuses.2⟩
      · exact ⟨kept _, id⟩
    · exact ⟨kept _, id⟩
  · exact fine_fatal balanced _

@[simp] theorem setAttr_type (btp : BaseType) (attr : List Attribute) :
    (btp.setAttr attr).type = btp.type := by
  cases btp
  rfl

section
variable {state : ParseState} {s : List ParseState} {localname : Chars}

theorem finishVariable_fine (balanced : Balanced p) (top : p.s = state :: s)
    (one : variablesOf state = 1) (t : VarType) (expected : String)
    (why : PartRefused p → refused) : Fine p refused (p.finishVariable localname t expected) := by
  obtain ⟨btp, bts, table, ats, variables_eq, tables_eq, popped⟩ := balanced.popVariable top one
  unfold Parser.finishVariable
  split
  · exact fine_fatal balanced _
  · rw [variables_eq, tables_eq]
    dsimp only
    split
    · exact Fine.popped (fine_fatal popped _)
    · split
      · exact Fine.popped (fine_fatal popped _)
      · apply Fine.popped
        apply addToParent_fine popped
        intro parent below below_eq grid empty other
        dsimp only at below_eq
        rw [setAttr_type] at other
        exact why ⟨btp, parent, below, by rw [variables_eq, below_eq], grid, empty, other⟩

theorem endSimpleType_fine (balanced : Balanced p) (top : p.s = state :: s)
    (one : variablesOf state = 1) (why : PartRefused p → refused) :
    Fine p refused (p.endSimpleType localname) := by
  obtain ⟨btp, bts, table, ats, variables_eq, tables_eq, popped⟩ := balanced.popVariable top one
  unfold Parser.endSimpleType
  split
  · rw [variables_eq, tables_eq]
    dsimp only
    apply Fine.popped
    apply addToParent_fine popped
    intro parent below below_eq grid empty other
    dsimp only at below_eq
    rw [setAttr_type] at other
    exact why ⟨btp, parent, below, by rw [variables_eq, below_eq], grid, empty, other⟩
  · exact fine_expected balanced _ _

theorem endState_fine (balanced : Balanced p) (top : p.s = state :: s)
    (start : state ≠ .parserStart) (error : state ≠ .parserError)
    (plain : variablesOf state = 0) (no_table : tablesOf state = 0) (names : List Chars)
    (what : String) : Fine p refused (.ok (p.endState localname names what)) := by
  unfold Parser.endState
  split
  · exact ⟨balanced.popState top start error plain no_table, id⟩
  · exact fine_expected balanced _ _

theorem endContainer_fine (balanced : Balanced p) (top : p.s = .insideAttributeContainer :: s) :
    Fine p refused (p.endContainer localname) := by
  obtain ⟨child, ats, tables_eq⟩ := balanced.table
  have counts := balanced
  unfold Balanced at counts
  rw [top, tables_eq] at counts
  obtain ⟨bts', ats', bt, at', popped⟩ := counts.pop (by decide) (by decide)
  change p.btStack.length = bts' at bt
  change ats.length + 1 = ats' + 1 at at'
  unfold Parser.endContainer
  split
  · rw [tables_eq]
    cases ats with
    | nil =>
      have := popped.nonempty.2
      simp at at'
      omega
    | cons parent ats =>
      refine ⟨?_, id⟩
      unfold Balanced Parser.popState
      rw [top, bt]
      change Counts s bts' (ats.length + 1) p.errorMsg
      rw [List.length_cons] at at'
      rw [Nat.add_right_cancel at']
      exact popped
  · exact fine_expected balanced _ _

theorem endOtherXml_fine (balanced : Balanced p) (top : p.s = .insideOtherXmlAttribute :: s)
    (pre : Option Chars) {uri : Option Chars}
    (defined : ¬(localname = "Attribute".toList ∧ uri = none))
    (why : localname = "Attribute".toList → uri = some p.rootNs →
      OnTop p (ValueRefused p.dodsAttrType p.dodsAttrName) → refused) :
    Fine p refused (p.endOtherXml localname pre uri) := by
  unfold Parser.endOtherXml
  rw [if_neg defined]
  split
  · next ends =>
    have popped := balanced.popState top (by decide) (by decide) rfl rfl
    have fine : Fine p.popState refused (p.popState.changeTable fun t =>
        DASParser.appendValue t p.dodsAttrType p.dodsAttrName p.otherXml) :=
      changeTable_fine popped (fun t failure => appendValue_refuses) (why ends.1 ends.2)
    exact Fine.after p.popState id
      (fine.bind_pure (fun q => { q with otherXml := [] }) fun q balanced => ⟨balanced, rfl⟩)
  · dsimp only
    split
    · exact ⟨balanced.fatalError _, fun _ => by simp [Parser.errorAt, Parser.fatalError]⟩
    · exact ⟨balanced, id⟩

theorem endValue_fine (balanced : Balanced p) (top : p.s = .insideAttributeValue :: s)
    (why : OnTop p (ValueRefused p.dodsAttrType p.dodsAttrName) → refused) :
    Fine p refused (do
      let p ← p.popState.changeTable fun t =>
        DASParser.appendValue t p.dodsAttrType p.dodsAttrName p.charData
      pure { p with charData := [] }) := by
  have popped := balanced.popState top (by decide) (by decide) rfl rfl
  have fine : Fine p.popState refused (p.popState.changeTable fun t =>
      DASParser.appendValue t p.dodsAttrType p.dodsAttrName p.charData) :=
    changeTable_fine popped (fun t failure => appendValue_refuses) why
  exact Fine.after p.popState id
    (fine.bind_pure (fun q => { q with charData := [] }) fun q balanced => ⟨balanced, rfl⟩)

end

/-! ## Every callback -/

/-- What the code cannot do anything with: a simple type that the factory does not make, and
an end of `Attribute` that is in no namespace inside an `OtherXML` attribute. -/
def Undefined (p : Parser) : Event → Prop
  | .start tag =>
    (∃ state ∈ p.s.head?, takesVariables state = true) ∧
      isSimpleType (getType (String.ofList tag.localname)) = true ∧
      factory (getType (String.ofList tag.localname)) [] = none
  | .finish localname _ uri =>
    p.s.head? = some .insideOtherXmlAttribute ∧ localname = "Attribute".toList ∧ uri = none
  | _ => False

/-- A table, a variable or the DDS throws. -/
def Refused (p : Parser) : Event → Prop
  | .start tag =>
    (∃ state ∈ p.s.head?, takesEntries state = true) ∧
        EntryRefused p tag.localname tag.attributes ∨
      p.s.head? = some .parserStart ∧ tag.localname = "Dataset".toList ∧
        VersionRefused p tag.attributes
  | .finish localname _ uri =>
    match p.s with
    | .insideAttributeValue :: _ =>
      localname = "value".toList ∧ OnTop p (ValueRefused p.dodsAttrType p.dodsAttrName)
    | .insideOtherXmlAttribute :: _ =>
      localname = "Attribute".toList ∧ uri = some p.rootNs ∧
        OnTop p (ValueRefused p.dodsAttrType p.dodsAttrName)
    | .insideSimpleType :: _ | .insideArray :: _ | .insideGrid :: _ | .insideMap :: _
    | .insideStructure :: _ | .insideSequence :: _ => PartRefused p
    | _ => False
  | _ => False

theorem startElement_fine (balanced : Balanced p) (tag : StartTag)
    (defined : ¬Undefined p (.start tag)) :
    Fine p (Refused p (.start tag)) (p.startElement tag) := by
  obtain ⟨state, s, top⟩ := balanced.state
  have head : p.s.head? = some state := by
    rw [top]
    rfl
  -- The elements that several states have in common.
  have entry : takesEntries state = true → ∀ r,
      p.isAttributeOrAlias tag.localname tag.attributes = some r →
        Fine p (Refused p (.start tag)) r := fun takes r =>
    isAttributeOrAlias_fine balanced fun refuses =>
      .inl ⟨⟨state, by simp [head], takes⟩, refuses⟩
  have variable_fine : takesVariables state = true → ∀ r,
      p.isVariable tag.localname tag.attributes = some r →
        Fine p (Refused p (.start tag)) r := fun takes r =>
    isVariable_fine balanced fun simple missing =>
      defined ⟨⟨state, by simp [head], takes⟩, simple, missing⟩
  unfold Parser.startElement
  dsimp only
  rw [top]
  cases state with
  | parserStart =>
    dsimp only
    split
    · next name => exact startDataset_fine balanced tag fun refuses => .inr ⟨head, name, refuses⟩
    · exact fine_expected balanced _ _
  | insideDataset =>
    apply Fine.getD (Fine.orElse (entry rfl) (variable_fine rfl))
    split
    · exact processBlob_fine balanced _
    · exact fine_expected balanced _ _
  | insideAttributeContainer =>
    exact Fine.getD (entry rfl) (fine_expected balanced _ _)
  | insideAttribute =>
    apply Fine.getD (entry rfl)
    split
    · exact ⟨balanced.setState (by decide) rfl, id⟩
    · exact fine_expected balanced _ _
  | insideAttributeValue => exact fine_unexpected balanced _ _
  | insideOtherXmlAttribute => exact startOtherXml_fine balanced tag
  | insideAlias => exact fine_unexpected balanced _ _
  | insideSimpleType => exact Fine.getD (entry rfl) (fine_expected balanced _ _)
  | insideArray =>
    apply Fine.getD
    · apply Fine.orElse (entry rfl)
      intro r found
      split at found
      · cases found
      · exact variable_fine rfl r found
    · split
      · exact processDimension_fine balanced _
      · exact fine_expected balanced _ _
  | insideDimension => exact fine_unexpected balanced _ _
  | insideGrid =>
    apply Fine.getD (entry rfl)
    split
    · exact processVariable_fine balanced rfl fun _ => by simp [factory]
    · split
      · exact processVariable_fine balanced rfl fun _ => by simp [factory]
      · exact fine_expected balanced _ _
  | insideMap =>
    apply Fine.getD
    · apply Fine.orElse (entry rfl)
      intro r found
      split at found
      · cases found
      · exact variable_fine rfl r found
    · split
      · exact processDimension_fine balanced _
      · exact fine_expected balanced _ _
  | insideStructure =>
    apply Fine.getD (Fine.orElse (entry rfl) (variable_fine rfl))
    exact fine_expected balanced _ _
  | insideSequence =>
    apply Fine.getD (Fine.orElse (entry rfl) (variable_fine rfl))
    exact fine_expected balanced _ _
  | insideBlobHref => exact fine_unexpected balanced _ _
  | parserUnknown => exact ⟨balanced.setState (by decide) rfl, id⟩
  | parserError => exact ⟨balanced, id⟩

theorem endElement_fine (balanced : Balanced p) (localname : Chars) (pre uri : Option Chars)
    (defined : ¬Undefined p (.finish localname pre uri)) :
    Fine p (Refused p (.finish localname pre uri)) (p.endElement localname pre uri) := by
  obtain ⟨state, s, top⟩ := balanced.state
  unfold Parser.endElement Refused
  dsimp only
  rw [top]
  cases state with
  | parserStart => exact fine_unexpected balanced _ _
  | insideDataset => exact endState_fine balanced top (by decide) (by decide) rfl rfl _ _
  | insideAttributeContainer => exact endContainer_fine balanced top
  | insideAttribute => exact endState_fine balanced top (by decide) (by decide) rfl rfl _ _
  | insideAttributeValue =>
    dsimp only
    split
    · next value => exact endValue_fine balanced top fun refuses => ⟨value, refuses⟩
    · exact fine_expected balanced _ _
  | insideOtherXmlAttribute =>
    have head : p.s.head? = some .insideOtherXmlAttribute := by
      rw [top]
      rfl
    apply endOtherXml_fine balanced top
    · exact fun none => defined ⟨head, none⟩
    · exact fun name root refuses => ⟨name, root, refuses⟩
  | insideAlias =>
    exact ⟨balanced.popState top (by decide) (by decide) rfl rfl, id⟩
  | insideSimpleType => exact endSimpleType_fine balanced top rfl id
  | insideArray => exact finishVariable_fine balanced top rfl _ _ id
  | insideDimension => exact endState_fine balanced top (by decide) (by decide) rfl rfl _ _
  | insideGrid => exact finishVariable_fine balanced top rfl _ _ id
  | insideMap => exact finishVariable_fine balanced top rfl _ _ id
  | insideStructure => exact finishVariable_fine balanced top rfl _ _ id
  | insideSequence => exact finishVariable_fine balanced top rfl _ _ id
  | insideBlobHref => exact endState_fine balanced top (by decide) (by decide) rfl rfl _ _
  | parserUnknown => exact ⟨balanced.popState top (by decide) (by decide) rfl rfl, id⟩
  | parserError => exact ⟨balanced, id⟩

theorem step_fine (balanced : Balanced p) {e : Event} (defined : ¬Undefined p e) :
    Fine p (Refused p e) (p.step e) := by
  obtain ⟨state, s, top⟩ := balanced.state
  cases e with
  | start tag => exact startElement_fine balanced tag defined
  | characters ch =>
    unfold Parser.step Parser.getCharacters
    dsimp only
    split
    · next empty => exact absurd (empty.symm.trans top) (by simp)
    all_goals exact ⟨balanced, id⟩
  | ignorableWhitespace ch =>
    unfold Parser.step Parser.ignoreableWhitespace
    dsimp only
    split
    · next empty => exact absurd (empty.symm.trans top) (by simp)
    all_goals exact ⟨balanced, id⟩
  | cdata value =>
    unfold Parser.step Parser.getCdata
    dsimp only
    split
    · next empty => exact absurd (empty.symm.trans top) (by simp)
    · exact ⟨balanced, id⟩
    · exact ⟨balanced, id⟩
    · exact fine_fatal balanced _
  | finish localname pre uri => exact endElement_fine balanced localname pre uri defined
  | problem msg => exact fine_fatal balanced msg

/-! ## The parse -/

/-- An error was recorded, or is recorded for this element before its table or the DDS is
asked. -/
def Reported (p : Parser) (e : Event) : Prop :=
  p.errorMsg ≠ [] ∨
    ∃ tag, e = .start tag ∧ ∃ required ∈ [("Dataset", "name"), ("Attribute", "type"),
      ("Attribute", "name"), ("Alias", "name"), ("Alias", "attribute")],
      tag.localname = required.1.toList ∧
        (p.transferXmlAttrs tag.attributes).checkAttribute required.2 = false

def Sound (p : Parser) (e : Event) : Prop :=
  ¬Undefined p e ∧ ¬(Reported p e ∧ Refused p e)

/-- The parser after some events. -/
def reached (dds : DDXParserSAX2.DDS) (events : List Event) : Except Failure Parser :=
  events.foldlM Parser.step (Parser.new dds).startDocument

/-- Every event of a run finds the parser in a state that is sound for it. -/
def SoundRun (p : Parser) (events : List Event) : Prop :=
  ∀ before e after q, events = before ++ e :: after →
    before.foldlM Parser.step p = .ok q → Sound q e

theorem SoundRun.head {e : Event} {events : List Event} (sound : SoundRun p (e :: events)) :
    Sound p e :=
  sound [] e events p rfl rfl

theorem SoundRun.tail {e : Event} {events : List Event} {p' : Parser}
    (sound : SoundRun p (e :: events)) (stepped : p.step e = .ok p') : SoundRun p' events := by
  intro before e' after q same run
  apply sound (e :: before) e' after q
  · rw [same, List.cons_append]
  · rw [List.foldlM_cons, stepped]
    exact run

theorem SoundRun.before {before after : List Event} (sound : SoundRun p (before ++ after)) :
    SoundRun p before := by
  intro before' e after' q same run
  apply sound before' e (after' ++ after) q ?_ run
  rw [same, List.append_assoc, List.cons_append]

theorem SoundRun.after {before after : List Event} {q : Parser}
    (sound : SoundRun p (before ++ after)) (run : before.foldlM Parser.step p = .ok q) :
    SoundRun q after := by
  intro before' e after' r same rest
  apply sound (before ++ before') e after' r
  · rw [same, List.append_assoc]
  · rw [List.foldlM_append, run]
    exact rest

theorem startDocument_balanced (dds : DDXParserSAX2.DDS) :
    Balanced (Parser.new dds).startDocument :=
  ⟨⟨[], rfl, by simp⟩, rfl, rfl, fun some' => absurd rfl some'⟩

theorem run_balanced {events : List Event} {q : Parser} (balanced : Balanced p)
    (sound : SoundRun p events) (run : events.foldlM Parser.step p = .ok q) : Balanced q := by
  induction events generalizing p with
  | nil =>
    cases run
    exact balanced
  | cons e events ih =>
    have fine := step_fine balanced sound.head.1
    rw [List.foldlM_cons] at run
    obtain ⟨p', stepped, rest⟩ := bind_success run
    rw [stepped] at fine
    exact ih fine.1 (sound.tail stepped) rest

/-- A run breaks off at an event that was refused. -/
theorem run_fails {events : List Event} {failure : Failure} (balanced : Balanced p)
    (sound : SoundRun p events) (run : events.foldlM Parser.step p = .error failure) :
    failure ≠ .undefinedBehaviour := by
  induction events generalizing p with
  | nil => cases run
  | cons e events ih =>
    have fine := step_fine balanced sound.head.1
    rw [List.foldlM_cons] at run
    cases stepped : p.step e with
    | error failure' =>
      rw [stepped] at fine run
      cases run
      exact fine.1
    | ok p' =>
      rw [stepped] at fine run
      exact ih fine.1 (sound.tail stepped) run

/-- After an error the run goes on to its end. -/
theorem run_recorded {events : List Event} (balanced : Balanced p) (sound : SoundRun p events)
    (some' : p.errorMsg ≠ []) :
    ∃ q, events.foldlM Parser.step p = .ok q ∧ Balanced q ∧ q.errorMsg ≠ [] := by
  induction events generalizing p with
  | nil => exact ⟨p, rfl, balanced, some'⟩
  | cons e events ih =>
    have fine := step_fine balanced sound.head.1
    cases stepped : p.step e with
    | error failure =>
      rw [stepped] at fine
      exact absurd ⟨.inl some', fine.2⟩ sound.head.2
    | ok p' =>
      rw [stepped] at fine
      obtain ⟨q, run, balanced', some''⟩ := ih fine.1 (sound.tail stepped) (fine.2 some')
      refine ⟨q, ?_, balanced', some''⟩
      rw [List.foldlM_cons, stepped]
      exact run

/-- The two callbacks at the end. -/
def finished (p : Parser) : Except Failure Parser := do
  let p ← p.endDocument
  p.cleanupParse

theorem parse_eq (dds : DDXParserSAX2.DDS) (events : List Event) :
    parse dds events = reached dds events >>= finished := rfl

theorem cleanupParse_error {s : List ParseState} (top : p.s = .parserError :: s) :
    ∃ msg, p.cleanupParse = .error (Parser.ddxParseFailed msg) := by
  unfold Parser.cleanupParse
  rw [top]
  exact ⟨_, rfl⟩

/-- Elements that are open at the end are an error. -/
theorem endDocument_open (balanced : Balanced p) {state : ParseState} {s : List ParseState}
    (top : p.s = state :: s) (other : state ≠ .parserStart) :
    p.endDocument = .ok (p.fatalError "The document contained unbalanced tags.".toList) := by
  obtain ⟨cp, bts, variables_eq⟩ := balanced.top
  have same : (p.fatalError "The document contained unbalanced tags.".toList).btStack =
      cp :: bts := variables_eq
  unfold Parser.endDocument
  rw [top]
  dsimp only
  rw [if_neg other, same]
  dsimp only
  rw [if_pos other]

theorem finished_open (balanced : Balanced p) {state : ParseState} {s : List ParseState}
    (top : p.s = state :: s) (other : state ≠ .parserStart) :
    ∃ msg, finished p = .error (Parser.ddxParseFailed msg) := by
  unfold finished
  rw [endDocument_open balanced top other]
  exact cleanupParse_error (p := p.fatalError _) rfl

theorem finished_recorded (balanced : Balanced p) (some' : p.errorMsg ≠ []) :
    ∃ msg, finished p = .error (Parser.ddxParseFailed msg) := by
  obtain ⟨state, s, top⟩ := balanced.state
  apply finished_open balanced top
  rintro rfl
  unfold Balanced at balanced
  rw [top] at balanced
  exact some' balanced.start

theorem finished_fine (balanced : Balanced p) :
    (∃ msg, finished p = .error (Parser.ddxParseFailed msg)) ∨
      ∃ q, finished p = .ok q ∧ q.errorMsg = [] := by
  obtain ⟨state, s, top⟩ := balanced.state
  by_cases start : state = .parserStart
  · subst start
    obtain ⟨cp, bts, variables_eq⟩ := balanced.top
    have none : p.errorMsg = [] := by
      unfold Balanced at balanced
      rw [top] at balanced
      exact balanced.start
    by_cases container : isConstructorType cp.type = true
    · right
      simp [finished, Parser.endDocument, Parser.cleanupParse, top, variables_eq, container,
        bind, Except.bind, none]
    · left
      have ended : p.endDocument = .ok (p.fatalError
          "Parse error: Expected a Structure, Sequence or Grid variable.".toList) := by
        simp [Parser.endDocument, top, variables_eq, container]
      unfold finished
      rw [ended]
      exact cleanupParse_error (p := p.fatalError _) rfl
  · exact .inl (finished_open balanced top start)

/-- Nothing is done that the language leaves undefined, an exception of a table or a variable
stands for no error that was recorded, and with an error recorded the parse fails. -/
structure Rejected (dds : DDXParserSAX2.DDS) (events : List Event) : Prop where
  defined : parse dds events ≠ .error .undefinedBehaviour
  unreported : ∀ before e after p failure, events = before ++ e :: after →
    reached dds before = .ok p → p.step e = .error failure → ¬Reported p e
  fails : ∀ before after p, events = before ++ after → reached dds before = .ok p →
    p.errorMsg ≠ [] → ∃ msg, parse dds events = .error (Parser.ddxParseFailed msg)
  returns : ∀ p, parse dds events = .ok p → p.errorMsg = []

/-- A document with an error is rejected in every run whose events find the parser in a state that
is sound for them. -/
theorem malformed_ddx_rejected (dds : DDXParserSAX2.DDS) (events : List Event)
    (sound : SoundRun (Parser.new dds).startDocument events) : Rejected dds events := by
  have balanced := startDocument_balanced dds
  refine ⟨?_, ?_, ?_, ?_⟩
  · intro undefined
    rw [parse_eq] at undefined
    cases run : reached dds events with
    | error failure =>
      rw [run] at undefined
      cases undefined
      exact run_fails balanced sound run rfl
    | ok q =>
      rw [run] at undefined
      rcases finished_fine (run_balanced balanced sound run) with ⟨msg, failed⟩ | ⟨r, done, _⟩
      · exact absurd (failed.symm.trans undefined) (by simp [Parser.ddxParseFailed])
      · cases done.symm.trans undefined
  · rintro before e after p failure rfl run failed reported
    have checked := sound before e after p rfl run
    have fine := step_fine (run_balanced balanced sound.before run) checked.1
    rw [failed] at fine
    exact checked.2 ⟨reported, fine.2⟩
  · rintro before after p rfl run some'
    obtain ⟨q, ended, balanced', some''⟩ :=
      run_recorded (run_balanced balanced sound.before run) (sound.after run) some'
    have whole : reached dds (before ++ after) = .ok q := by
      unfold reached at run ⊢
      rw [List.foldlM_append, run]
      exact ended
    rw [parse_eq, whole]
    exact finished_recorded balanced' some''
  · intro p done
    rw [parse_eq] at done
    obtain ⟨q, run, finishes⟩ := bind_success done
    rcases finished_fine (run_balanced balanced sound run) with ⟨msg, failed⟩ | ⟨r, ok, none⟩
    · cases failed.symm.trans finishes
    · cases ok.symm.trans finishes
      exact none

def element (localname : String) (attributes : List SaxAttribute) : Event :=
  .start ⟨localname.toList, none, none, [], attributes⟩

def ending (localname : String) : Event := .finish localname.toList none none

def named (name value : String) : SaxAttribute := ⟨name.toList, none, none, value.toList⟩

/-- An Attribute element without its name and its type. -/
def unnamed : List Event :=
  [element "Dataset" [named "name" "d"], element "Attribute" [], ending "Attribute",
    ending "Dataset"]

theorem sound_end {localname : String} {state : ParseState} (head : p.s.head? = some state)
    (plain : variablesOf state = 0) (no_value : state ≠ .insideAttributeValue)
    (no_xml : state ≠ .insideOtherXmlAttribute) : Sound p (ending localname) := by
  refine ⟨fun undefined => ?_, fun both => ?_⟩
  · rw [undefined.1] at head
    exact no_xml (Option.some.inj head).symm
  · have refuses := both.2
    unfold Refused ending at refuses
    dsimp only at refuses
    split at refuses
    all_goals first
      | exact refuses
      | (next same =>
          rw [same] at head
          cases head
          first | exact no_value rfl | exact no_xml rfl | cases plain)

theorem head_of_reached {dds : DDXParserSAX2.DDS} {events : List Event} {q : Parser}
    {state : ParseState} (run : reached dds events = .ok q)
    (head : (reached dds events).toOption.bind (fun p => p.s.head?) = some state) :
    q.s.head? = some state := by
  rw [run] at head
  exact head

def noData : DDXParserSAX2.DDS := ⟨[], [], []⟩

theorem unnamed_sound : SoundRun (Parser.new noData).startDocument unnamed := by
  intro before e after q same run
  have before_eq : before = unnamed.take before.length := by simp [same]
  have e_eq : unnamed[before.length]? = some e := by simp [same]
  have short : before.length < 4 := by
    have length_eq := congrArg List.length same
    simp [unnamed] at length_eq
    omega
  change reached noData before = .ok q at run
  rw [before_eq] at run
  generalize before.length = n at *
  interval_cases n
  · cases e_eq
    refine ⟨fun undefined => absurd undefined.2.1 (by decide), ?_⟩
    rintro ⟨_, ⟨_, ⟨other, _⟩ | ⟨other, _⟩⟩ | ⟨_, _, given, _⟩⟩
    · cases other
    · cases other
    · cases given
  · cases e_eq
    refine ⟨fun undefined => absurd undefined.2.1 (by decide), ?_⟩
    rintro ⟨_, ⟨_, ⟨_, container, _⟩ | ⟨other, _⟩⟩ | ⟨_, other, _⟩⟩
    · cases container
    · cases other
    · cases other
  · cases e_eq
    have head : q.s.head? = some .insideAttribute := head_of_reached run (by decide +kernel)
    exact sound_end head rfl (by decide) (by decide)
  · cases e_eq
    have head : q.s.head? = some .parserError := head_of_reached run (by decide +kernel)
    exact sound_end head rfl (by decide) (by decide)

theorem unnamed_attribute_rejected :
    Rejected noData unnamed ∧ (parse noData unnamed).toOption.isNone = true :=
  ⟨malformed_ddx_rejected noData unnamed unnamed_sound, by decide +kernel⟩

/-- A type that only the other response has: the factory makes nothing, and its table is
taken. -/
theorem int8_not_rejected :
    ¬∀ dds events, Rejected dds events := by
  intro all
  exact (all noData [element "Dataset" [named "name" "d"],
    element "Int8" [named "name" "x"], ending "Int8", ending "Dataset"]).defined rfl

end Libdap.Guarantees.DDXErrors
