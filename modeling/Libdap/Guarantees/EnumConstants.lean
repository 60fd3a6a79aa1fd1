import Libdap.Guarantees.DMRRoundTrip
import Libdap.Guarantees.LeadingNumbers

/-!
# The constants of an Enumeration

A constant is taken when its text begins with an integer that a `long long` and the base type
hold. What follows the integer is not looked at, and a value from `2 ^ 63` on is refused for
every type.
-/
namespace Libdap.Guarantees.EnumConstants
open Libdap.Source Libdap.Source.DMR Libdap.Source.D4ParserSax2
open Variables (VarType)
open Groups (D4EnumDef typeName)
open DMRTables (run_cons run_append)
open DMRRoundTrip (InBaseType)
open LeadingNumbers
open HTTPCacheIndex (InRange)

/-! ## Elements -/

/-- An EnumConst element, and the text in front of it and in it. -/
structure EnumConst where
  attributes : List (String × String)
  name : String
  value : String
  named : attributes.lookup "name" = some name
  valued : attributes.lookup "value" = some value
  before : List String
  inside : List String

def EnumConst.events (c : EnumConst) : List Event :=
  c.before.map .characters ++
    (.start "EnumConst" c.attributes :: (c.inside.map .characters ++ [.finish "EnumConst"]))

/-- An Enumeration element, and the text behind its constants. -/
structure Enumeration where
  attributes : List (String × String)
  name : String
  basetype : String
  named : attributes.lookup "name" = some name
  typed : attributes.lookup "basetype" = some basetype
  integer : isIntegerType (getType basetype) = true
  constants : List EnumConst
  distinct : (constants.map EnumConst.name).Nodup
  behind : List String

def Enumeration.type (e : Enumeration) : VarType := getType e.basetype

def Enumeration.events (e : Enumeration) : List Event :=
  .start "Enumeration" e.attributes :: (e.constants.flatMap EnumConst.events ++
    (e.behind.map .characters ++ [.finish "Enumeration"]))

/-- The parser is in a Group. -/
structure InGroup (p : Parser) (s : List ParseState) (g : BaseType) (bs : List BaseType) :
    Prop where
  state : p.s = .insideGroup :: s
  stack : p.btStack = g :: bs
  group : g.type = .group

/-- The text of a decimal integer in the range of the base type. -/
def Valid (type : VarType) (c : EnumConst) : Prop :=
  ∃ v, Denotes c.value.toList v ∧ InBaseType type v

/-- A valid value that a `long long` holds. -/
def Plain (type : VarType) (c : EnumConst) : Prop :=
  ∃ v, Denotes c.value.toList v ∧ InBaseType type v ∧ v < 2 ^ 63

/-- Whatever follows the integer in front. -/
def Leads (type : VarType) (c : EnumConst) : Prop :=
  ∃ v more, Begins c.value.toList v more ∧ InBaseType type v ∧ v < 2 ^ 63

/-- The integer of a 64-bit pattern, as a `long long`. -/
def pattern (v : Int) : Int := (BitVec.ofInt 64 v).toInt

def item (c : EnumConst) (v : Int) : String × Int := (c.name, pattern v)

/-- The definition has the given names and the integers of their texts, in order. -/
structure Defines (d : D4EnumDef) (e : Enumeration) : Prop where
  name : d.name = e.name
  type : d.type = e.type
  values : ∃ vs, List.Forall₂ (fun c v => Denotes (EnumConst.value c).toList v) e.constants vs ∧
    d.values = List.zipWith item e.constants vs ∧
    List.Forall₂ (fun c v => getValue d (EnumConst.name c) = .ok (pattern v)) e.constants vs

/-- An error is recorded for a value that is not valid, and otherwise the definition is added to
the Group. -/
def Exact (p : Parser) (g : BaseType) (bs : List BaseType) (e : Enumeration) : Prop :=
  ∃ q, e.events.foldlM Parser.step p = .ok q ∧
    (q.errorMsg ≠ p.errorMsg ↔ ∃ c ∈ e.constants, ¬ Valid e.type c) ∧
    (q.errorMsg = p.errorMsg → ∃ d, q.btStack = g.addEnumeration d :: bs ∧ Defines d e)

/-- All values are valid and below `2 ^ 63`, or one is not valid and one does not begin with a
value that is. -/
def Decided (e : Enumeration) : Prop :=
  (∀ c ∈ e.constants, Plain e.type c) ∨
    (∃ c ∈ e.constants, ¬ Valid e.type c) ∧ ∃ c ∈ e.constants, ¬ Leads e.type c

/-! ## Values -/

theorem valid_iff {type : VarType} (integer : isIntegerType type = true) (v : Int) :
    isValidEnumValue type v = true ↔ InBaseType type v := by
  cases type <;> simp [isIntegerType] at integer <;>
    simp only [InBaseType, isValidEnumValue, Bool.and_eq_true, decide_eq_true_eq] <;> omega

theorem inBaseType_low {type : VarType} {v : Int} (within : InBaseType type v) : -2 ^ 63 ≤ v := by
  cases type <;> simp only [InBaseType] at within <;> omega

theorem inRange_iff {type : VarType} {v : Int} (within : InBaseType type v) :
    InRange 64 v ↔ v < 2 ^ 63 := by
  have low := inBaseType_low within
  unfold InRange
  simp
  omega

theorem pattern_eq {v : Int} (range : InRange 64 v) : pattern v = v := by
  obtain ⟨low, high⟩ := range
  unfold pattern
  rw [BitVec.toInt_ofInt]
  exact Int.bmod_eq_of_le (by norm_num at low ⊢; omega) (by norm_num at high ⊢; omega)

theorem Plain.leads {type : VarType} {c : EnumConst} (plain : Plain type c) : Leads type c := by
  obtain ⟨v, ⟨more, begins, -⟩, within, small⟩ := plain
  exact ⟨v, more, begins, within, small⟩

theorem Plain.valid {type : VarType} {c : EnumConst} (plain : Plain type c) : Valid type c := by
  obtain ⟨v, denotes, within, -⟩ := plain
  exact ⟨v, denotes, within⟩

theorem plain_of_valid {type : VarType} {c : EnumConst} (valid : Valid type c)
    (leads : Leads type c) : Plain type c := by
  obtain ⟨v, ⟨more, begins, white⟩, within⟩ := valid
  obtain ⟨v', more', begins', -, small⟩ := leads
  obtain ⟨rfl, rfl⟩ := begins.unique begins'
  exact ⟨v, ⟨more, begins, white⟩, within, small⟩

/-! ## Events -/

theorem characters_run {p : Parser} {state : ParseState} {s : List ParseState}
    (top : p.s = state :: s) (quiet : state ≠ .insideAttributeValue)
    (other : state ≠ .insideOtherXmlAttribute) (texts : List String) :
    (texts.map Event.characters).foldlM Parser.step p = .ok p := by
  induction texts with
  | nil => rfl
  | cons text texts ih =>
    have one : p.step (.characters text) = .ok p := by
      unfold Parser.step Parser.getCharacters
      rw [top]
      cases state <;> simp_all
    exact run_cons one ih

/-- Nothing happens in the error state. -/
theorem error_run {p : Parser} {s : List ParseState} (top : p.s = .parserError :: s)
    (events : List Event) : events.foldlM Parser.step p = .ok p := by
  induction events with
  | nil => rfl
  | cons event events ih =>
    have one : p.step event = .ok p := by
      cases event <;>
        simp [Parser.step, Parser.startElement, Parser.getCharacters, Parser.endElement, top]
    exact run_cons one ih

theorem required {p : Parser} {attributes : List (String × String)} {name value : String}
    (found : attributes.lookup name = some value) :
    (p.transferXmlAttrs attributes).checkRequiredAttribute name = p.transferXmlAttrs attributes ∧
      (p.transferXmlAttrs attributes).xmlAttr name = value := by
  constructor
  · simp [Parser.checkRequiredAttribute, Parser.checkAttribute, Parser.transferXmlAttrs, found]
  · simp [Parser.xmlAttr, Parser.transferXmlAttrs, found]

/-- The end of a constant, whatever text stands in it. -/
theorem constEnd_run {p : Parser} {s : List ParseState} (top : p.s = .insideEnumConst :: s)
    (texts : List String) :
    (texts.map Event.characters ++ [Event.finish "EnumConst"]).foldlM Parser.step p =
      .ok p.popState := by
  have text := characters_run top (by decide) (by decide) texts
  have ended : p.step (Event.finish "EnumConst") = .ok p.popState := by
    simp [Parser.step, Parser.endElement, top, Parser.endState]
  exact run_append text (run_cons ended rfl)

theorem const_start {p : Parser} {s : List ParseState} (top : p.s = .insideEnumDef :: s)
    (c : EnumConst) :
    p.step (.start "EnumConst" c.attributes) = p.processEnumConstHelper c.attributes := by
  simp [Parser.step, Parser.startElement, top, Parser.processEnumConst]

theorem const_run {p q : Parser} {s s' : List ParseState} (c : EnumConst)
    (top : p.s = .insideEnumDef :: s) (started : p.processEnumConstHelper c.attributes = .ok q)
    (after : q.s = .insideEnumConst :: s') : c.events.foldlM Parser.step p = .ok q.popState := by
  have text := characters_run top (by decide) (by decide) c.before
  exact run_append text (run_cons ((const_start top c).trans started) (constEnd_run after c.inside))

/-- A constant that begins with a value that fits. -/
theorem const_taken {p : Parser} {s : List ParseState} {d : D4EnumDef} {c : EnumConst} {v : Int}
    {more : List Char} (top : p.s = .insideEnumDef :: s) (definition : p.enumDef = some d)
    (integer : isIntegerType d.type = true) (begins : Begins c.value.toList v more)
    (within : InBaseType d.type v) (small : v < 2 ^ 63) :
    ∃ scratch, c.events.foldlM Parser.step p = .ok { p with
      scratch, enumDef := some { d with values := d.values ++ [item c v] } } := by
  have range := (inRange_iff within).mpr small
  have read := getLong_leading c.value.toList
  rw [begins.leading] at read
  simp only [if_pos range] at read
  have fits : isValidEnumValue d.type v = true := (valid_iff integer v).mpr within
  have stored : addValue d c.name v = { d with values := d.values ++ [item c v] } := by
    unfold addValue item
    rw [DMRRoundTrip.longLong_unsignedLong range, pattern_eq range]
  have started : p.processEnumConstHelper c.attributes =
      .ok (({ p.transferXmlAttrs c.attributes with
        enumDef := some { d with values := d.values ++ [item c v] } } : Parser).setState
          .insideEnumConst) := by
    have same : (p.transferXmlAttrs c.attributes).enumDef = some d := definition
    unfold Parser.processEnumConstHelper
    simp only [(required c.named).1, (required c.valued).1, (required c.named).2,
      (required c.valued).2, read, same, fits, if_true, stored]
    rfl
  exact ⟨_, const_run c top started rfl⟩

/-- Any other constant is an error, whichever the message is. -/
theorem const_fatal {p : Parser} {d : D4EnumDef} {c : EnumConst}
    (definition : p.enumDef = some d) (integer : isIntegerType d.type = true)
    (refused : ¬ Leads d.type c) : ∃ msg, p.processEnumConstHelper c.attributes =
      .ok (((p.transferXmlAttrs c.attributes).fatalError msg).setState .insideEnumConst) := by
  have same : (p.transferXmlAttrs c.attributes).enumDef = some d := definition
  have checked := required (p := p) c.named
  have checked' := required (p := p) c.valued
  have failing (failed : (HTTPCacheIndex.Stream.getLong ⟨c.value.toList, false⟩ 0).2.fail = true) :
      ∃ msg, p.processEnumConstHelper c.attributes =
        .ok (((p.transferXmlAttrs c.attributes).fatalError msg).setState .insideEnumConst) := by
    unfold Parser.processEnumConstHelper
    simp only [checked.1, checked'.1, checked'.2, failed, if_true]
    exact ⟨_, rfl⟩
  have read := getLong_leading c.value.toList
  cases found : leading c.value.toList with
  | none =>
    rw [found] at read
    exact failing read
  | some number =>
    obtain ⟨v, more⟩ := number
    rw [found] at read
    by_cases range : InRange 64 v
    · simp only [if_pos range] at read
      have outside : isValidEnumValue d.type v = false := by
        rw [Bool.eq_false_iff]
        intro fits
        have within := (valid_iff integer v).mp fits
        exact refused ⟨v, more, begins_of_leading found, within, (inRange_iff within).mp range⟩
      unfold Parser.processEnumConstHelper
      simp only [checked.1, checked'.1, checked'.2, read, same, outside, if_false,
        Bool.false_eq_true]
      exact ⟨_, rfl⟩
    · simp only [if_neg range] at read
      exact failing read

theorem const_refused {p : Parser} {s : List ParseState} {d : D4EnumDef} {c : EnumConst}
    (top : p.s = .insideEnumDef :: s) (definition : p.enumDef = some d)
    (integer : isIntegerType d.type = true) (refused : ¬ Leads d.type c) :
    ∃ q msg, c.events.foldlM Parser.step p = .ok q ∧ q.s = .parserError :: p.s ∧
      q.errorMsg = p.errorMsg ++ [msg] := by
  obtain ⟨msg, started⟩ := const_fatal definition integer refused
  exact ⟨_, _, const_run c top started rfl, rfl, rfl⟩

/-! ## Enumerations -/

/-- The constants are taken up to the first that does not begin with a value that fits. -/
theorem constants_run {p : Parser} {s : List ParseState} {d : D4EnumDef}
    (top : p.s = .insideEnumDef :: s) (definition : p.enumDef = some d)
    (integer : isIntegerType d.type = true) (constants : List EnumConst) :
    (∃ vs scratch, List.Forall₂ (fun c v => ∃ more, Begins (EnumConst.value c).toList v more ∧
        InBaseType d.type v ∧ v < 2 ^ 63) constants vs ∧
      (constants.flatMap EnumConst.events).foldlM Parser.step p = .ok { p with
        scratch, enumDef := some { d with
          values := d.values ++ List.zipWith item constants vs } }) ∨
    (∃ c ∈ constants, ¬ Leads d.type c) ∧
      ∃ q s' msg, (constants.flatMap EnumConst.events).foldlM Parser.step p = .ok q ∧
        q.s = .parserError :: s' ∧ q.errorMsg = p.errorMsg ++ [msg] := by
  induction constants generalizing p d with
  | nil =>
    left
    refine ⟨[], p.scratch, .nil, ?_⟩
    rw [List.zipWith_nil_left, List.append_nil, ← definition]
    rfl
  | cons c constants ih =>
    by_cases leads : Leads d.type c
    · obtain ⟨v, more, begins, within, small⟩ := leads
      obtain ⟨scratch, first⟩ := const_taken top definition integer begins within small
      let taken : Parser := { p with
        scratch, enumDef := some { d with values := d.values ++ [item c v] } }
      rcases ih (p := taken) top rfl integer with
        ⟨vs, scratch', each, rest⟩ | ⟨⟨c', member, refused⟩, q, s', msg, rest, error, errors⟩
      · left
        refine ⟨v :: vs, scratch', .cons ⟨more, begins, within, small⟩ each, ?_⟩
        rw [List.append_assoc] at rest
        exact run_append first rest
      · right
        exact ⟨⟨c', List.mem_cons_of_mem _ member, refused⟩, q, s', msg, run_append first rest,
          error, errors⟩
    · right
      obtain ⟨q, msg, first, error, errors⟩ := const_refused top definition integer leads
      exact ⟨⟨c, List.mem_cons_self .., leads⟩, q, p.s, msg,
        run_append first (error_run error _), error, errors⟩

theorem enumeration_start {p : Parser} {s : List ParseState} (top : p.s = .insideGroup :: s)
    (e : Enumeration) : p.step (.start "Enumeration" e.attributes) =
      .ok (({ p.transferXmlAttrs e.attributes with
        enumDef := some ⟨e.name, e.type, []⟩ } : Parser).setState .insideEnumDef) := by
  have helper : p.processEnumDefHelper e.attributes =
      .ok (({ p.transferXmlAttrs e.attributes with
        enumDef := some ⟨e.name, e.type, []⟩ } : Parser).setState .insideEnumDef) := by
    have integer := e.integer
    unfold Parser.processEnumDefHelper
    simp only [(required e.named).1, (required e.typed).1, (required e.named).2,
      (required e.typed).2, integer, if_true]
    rfl
  unfold Parser.step
  dsimp only
  unfold Parser.startElement
  rw [top]
  exact helper

theorem enumeration_end {p : Parser} {s : List ParseState} {g : BaseType} {bs : List BaseType}
    {d : D4EnumDef} (top : p.s = .insideEnumDef :: s) (stack : p.btStack = g :: bs)
    (group : g.type = .group) (definition : p.enumDef = some d) (texts : List String) :
    (texts.map Event.characters ++ [Event.finish "Enumeration"]).foldlM Parser.step p =
      .ok { p.popState with btStack := g.addEnumeration d :: bs } := by
  have text := characters_run top (by decide) (by decide) texts
  have ended : p.step (Event.finish "Enumeration") =
      .ok { p.popState with btStack := g.addEnumeration d :: bs } := by
    simp [Parser.step, Parser.endElement, top, Parser.endEnumDef, stack, group, definition]
  exact run_append text (run_cons ended rfl)

/-- What a look-up finds behind names that are others. -/
theorem getValue_item {constants : List EnumConst} {vs : List Int} {R : EnumConst → Int → Prop}
    (each : List.Forall₂ R constants vs) (name : String) (type : VarType)
    (distinct : (constants.map EnumConst.name).Nodup) (done : List (String × Int))
    (others : ∀ x ∈ done, x.1 ∉ constants.map EnumConst.name) :
    List.Forall₂ (fun c v => getValue ⟨name, type, done ++ List.zipWith item constants vs⟩
      (EnumConst.name c) = .ok (pattern v)) constants vs := by
  induction each generalizing done with
  | nil => exact .nil
  | @cons c v constants vs _ _ ih =>
    rw [List.map_cons, List.nodup_cons] at distinct
    have absent : done.find? (fun x => x.1 = c.name) = none := by
      rw [List.find?_eq_none]
      intro x member same
      apply others x member
      simp only [decide_eq_true_eq] at same
      simp [same]
    constructor
    · simp [getValue, List.find?_append, absent, item]
    · have rest := ih distinct.2 (done ++ [item c v]) (by
        intro x member
        rcases List.mem_append.mp member with old | new
        · have := others x old
          simp only [List.map_cons, List.mem_cons, not_or] at this
          exact this.2
        · rw [List.mem_singleton.mp new]
          exact distinct.1)
      rw [List.append_assoc] at rest
      exact rest

theorem denotes_of_plain {type : VarType} {constants : List EnumConst} {vs : List Int}
    (each : List.Forall₂ (fun c v => ∃ more, Begins (EnumConst.value c).toList v more ∧
      InBaseType type v ∧ v < 2 ^ 63) constants vs) (plain : ∀ c ∈ constants, Plain type c) :
    List.Forall₂ (fun c v => Denotes (EnumConst.value c).toList v) constants vs := by
  induction each with
  | nil => exact .nil
  | cons first _ ih =>
    obtain ⟨more, begins, -⟩ := first
    obtain ⟨v', ⟨more', begins', white⟩, -⟩ := plain _ (List.mem_cons_self ..)
    obtain ⟨rfl, rfl⟩ := begins.unique begins'
    exact .cons ⟨_, begins, white⟩ (ih fun c member => plain c (List.mem_cons_of_mem _ member))

theorem leads_of_each {type : VarType} {constants : List EnumConst} {vs : List Int}
    (each : List.Forall₂ (fun c v => ∃ more, Begins (EnumConst.value c).toList v more ∧
      InBaseType type v ∧ v < 2 ^ 63) constants vs) : ∀ c ∈ constants, Leads type c := by
  induction each with
  | nil => simp
  | cons first _ ih =>
    obtain ⟨more, leads⟩ := first
    intro c member
    rcases List.mem_cons.mp member with rfl | behind
    · exact ⟨_, more, leads⟩
    · exact ih c behind

/-- The whole element, by whether its constants were all taken. -/
theorem enumeration_run {p : Parser} {s : List ParseState} {g : BaseType} {bs : List BaseType}
    (inGroup : InGroup p s g bs) (e : Enumeration) :
    (∃ vs q, e.events.foldlM Parser.step p = .ok q ∧ q.errorMsg = p.errorMsg ∧
      q.btStack = g.addEnumeration ⟨e.name, e.type, List.zipWith item e.constants vs⟩ :: bs ∧
      List.Forall₂ (fun c v => ∃ more, Begins (EnumConst.value c).toList v more ∧
        InBaseType e.type v ∧ v < 2 ^ 63) e.constants vs) ∨
    (∃ c ∈ e.constants, ¬ Leads e.type c) ∧
      ∃ q, e.events.foldlM Parser.step p = .ok q ∧ q.errorMsg ≠ p.errorMsg := by
  obtain ⟨state, stack, group⟩ := inGroup
  have started := enumeration_start state e
  let inside : Parser := ({ p.transferXmlAttrs e.attributes with
    enumDef := some ⟨e.name, e.type, []⟩ } : Parser).setState .insideEnumDef
  rcases constants_run (p := inside) rfl rfl e.integer e.constants with
    ⟨vs, scratch, each, taken⟩ | ⟨refused, q, s', msg, ran, error, errors⟩
  · left
    let filled : Parser := { inside with
      scratch, enumDef := some ⟨e.name, e.type, List.zipWith item e.constants vs⟩ }
    have ended := enumeration_end (p := filled) rfl stack group rfl e.behind
    exact ⟨vs, _, run_cons started (run_append taken ended), rfl, rfl, each⟩
  · right
    have run := run_cons started (run_append ran (error_run error
      (e.behind.map Event.characters ++ [Event.finish "Enumeration"])))
    have recorded : q.errorMsg = p.errorMsg ++ [msg] := errors
    exact ⟨refused, q, run, by simp [recorded]⟩

/-- A value that is not valid is reported, and the definition is otherwise the one that is written,
exactly if all values are valid and below `2 ^ 63` or one is refused. -/
theorem enumeration_exact_iff {p : Parser} {s : List ParseState} {g : BaseType}
    {bs : List BaseType} (inGroup : InGroup p s g bs) (e : Enumeration) :
    Exact p g bs e ↔ Decided e := by
  rcases enumeration_run inGroup e with
    ⟨vs, q, run, quiet, stack, each⟩ | ⟨refused, q, run, error⟩
  · have leads := leads_of_each each
    constructor
    · rintro ⟨q', run', errors, -⟩
      cases run.symm.trans run'
      left
      intro c member
      have valid : Valid e.type c := by
        by_contra invalid
        exact errors.mpr ⟨c, member, invalid⟩ quiet
      exact plain_of_valid valid (leads c member)
    · rintro (plain | ⟨-, c, member, refused⟩)
      · refine ⟨q, run, ⟨fun error => absurd quiet error, ?_⟩, fun _ => ?_⟩
        · rintro ⟨c, member, invalid⟩
          exact absurd (plain c member).valid invalid
        · exact ⟨_, stack, rfl, rfl, vs, denotes_of_plain each plain, rfl,
            getValue_item each e.name e.type e.distinct [] (by simp)⟩
      · exact absurd (leads c member) refused
  · constructor
    · rintro ⟨q', run', errors, -⟩
      cases run.symm.trans run'
      exact Or.inr ⟨errors.mp error, refused⟩
    · rintro (plain | ⟨invalid, -⟩)
      · obtain ⟨c, member, refused⟩ := refused
        exact absurd (plain c member).leads refused
      · exact ⟨q, run, ⟨fun _ => invalid, fun _ => error⟩, fun quiet => absurd quiet error⟩

/-! ## One constant -/

def rootGroup : BaseType := .mk .group "root" [] [] []

def inRoot : Parser :=
  { Parser.new { datasetName := "", dapVersion := "", requestXmlBase := "", vars := [] } with
    s := [.insideGroup], btStack := [rootGroup], atStack := [⟨0, []⟩] }

/-- An Enumeration of bytes with one constant. -/
def constant (name value : String) : EnumConst where
  attributes := [("name", name), ("value", value)]
  name := name
  value := value
  named := rfl
  valued := rfl
  before := []
  inside := []

def byteEnum (constants : List EnumConst) (distinct : (constants.map EnumConst.name).Nodup) :
    Enumeration where
  attributes := [("name", "colors"), ("basetype", "Byte")]
  name := "colors"
  basetype := "Byte"
  named := rfl
  typed := rfl
  integer := by decide
  constants := constants
  distinct := distinct
  behind := []

def colors : Enumeration := byteEnum [constant "red" " +12 ", constant "green" "255"] (by decide)

/-- The value of the constant has text behind its number. -/
def trailing : Enumeration := byteEnum [constant "red" "12abc"] (by decide)

theorem inRoot_group : InGroup inRoot [] rootGroup [] := ⟨rfl, rfl, rfl⟩

theorem colors_exact : Exact inRoot rootGroup [] colors := by
  apply (enumeration_exact_iff inRoot_group colors).mpr
  left
  have plus : Begins " +12 ".toList 12 [' '] := begins_of_leading (by decide)
  have top : Begins "255".toList 255 [] := begins_of_leading (by decide)
  have white : ∀ c ∈ [' '], HTTPCacheIndex.isSpace c = true := List.forall_mem_singleton.mpr rfl
  intro c member
  simp only [colors, byteEnum, List.mem_cons, List.not_mem_nil, or_false] at member
  rcases member with rfl | rfl
  · exact ⟨12, ⟨[' '], plus, white⟩,
      by simp [Enumeration.type, colors, byteEnum, getType, InBaseType], by decide⟩
  · exact ⟨255, ⟨[], top, fun _ mem => absurd mem List.not_mem_nil⟩,
      by simp [Enumeration.type, colors, byteEnum, getType, InBaseType], by decide⟩

/-- What follows the number is not looked at. -/
theorem colors_trailing : ¬ Exact inRoot rootGroup [] trailing := by
  have begins : Begins "12abc".toList 12 "abc".toList := begins_of_leading (by decide)
  have within : InBaseType trailing.type 12 := by
    simp [Enumeration.type, trailing, byteEnum, getType, InBaseType]
  rintro ⟨q, run, errors, -⟩
  rcases enumeration_run inRoot_group trailing with
    ⟨vs, q', run', quiet, -⟩ | ⟨⟨c, member, refused⟩, -⟩
  · cases run.symm.trans run'
    apply errors.mpr ⟨_, List.mem_singleton_self _, ?_⟩ quiet
    rintro ⟨v, ⟨more, begins', white⟩, -⟩
    obtain ⟨rfl, rfl⟩ := begins.unique begins'
    exact absurd (white 'a' (by decide)) (by decide)
  · rw [List.mem_singleton.mp member] at refused
    exact refused ⟨12, _, begins, within, by decide⟩

end Libdap.Guarantees.EnumConstants
