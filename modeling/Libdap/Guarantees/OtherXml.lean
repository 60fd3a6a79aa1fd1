import Libdap.Guarantees.DDXErrors
import Libdap.Library.XmlFragment

/-!
# XML kept in an attribute

The text that is built from the events of a fragment is the fragment again if no character of
it has to be escaped and each element that declares namespaces declares all that were declared
before it.
-/
namespace Libdap.Guarantees.OtherXml
open Libdap.Source Libdap.Source.DDXParserSAX2 Libdap.Source.AttributeTransfer
open Libdap.Source.HTTPCacheTable (Chars)
open Libdap.Library Libdap.Library.XmlFragment
open Libdap.Guarantees.DDXErrors (takesEntries)

/-! ## A fragment as it is reported -/

/-- How characters are reported. -/
inductive Kind where
  | characters | whitespace | cdata
  deriving DecidableEq, Repr

def Kind.event (ch : Chars) : Kind → Event
  | .characters => .characters ch
  | .whitespace => .ignorableWhitespace ch
  | .cdata => .cdata ch

inductive Item where
  | text (kind : Kind) (ch : Chars)
  | element (tag : StartTag) (content : List Item)

def startName (tag : StartTag) : QName := ⟨tag.pre.getD [], tag.localname⟩

/-- A prefix and what it stands for. -/
def declaration (ns : Chars × Chars) : Spec :=
  ⟨if ns.1 = [] then ⟨[], "xmlns".toList⟩ else ⟨"xmlns".toList, ns.1⟩, ns.2⟩

def attributeSpec (a : Chars × XMLAttribute) : Spec := ⟨⟨a.2.pre, a.1⟩, a.2.value⟩

def declared (tag : StartTag) : List (Chars × Chars) :=
  tag.namespaces.map fun ns => (ns.1.getD [], ns.2)

def given (tag : StartTag) : List (Chars × XMLAttribute) :=
  tag.attributes.map fun a => (a.localname, ⟨a.pre.getD [], a.uri.getD [], a.value⟩)

def specsOf (tag : StartTag) : List Spec :=
  (declared tag).map declaration ++ (given tag).map attributeSpec

mutual

def Item.events : Item → List Event
  | .text kind ch => [kind.event ch]
  | .element tag content =>
    .start tag :: (allEvents content ++ [.finish tag.localname tag.pre tag.uri])

def allEvents : List Item → List Event
  | [] => []
  | i :: items => i.events ++ allEvents items

end

mutual

def Item.nodes : Item → List Node
  | .text _ ch => ch.map Node.char
  | .element tag content => [.element (startName tag) (specsOf tag) (allNodes content)]

def allNodes : List Item → List Node
  | [] => []
  | i :: items => i.nodes ++ allNodes items

end

/-! ## What is written for it -/

section
variable {β : Type}

def insertAll (entries table : List (Chars × β)) : List (Chars × β) :=
  entries.foldl (fun table entry => mapInsert entry.1 entry.2 table) table

theorem mapInsert_perm {key : Chars} {value : β} {table : List (Chars × β)}
    (new : key ∉ table.map Prod.fst) :
    (mapInsert key value table).Perm ((key, value) :: table) := by
  induction table with
  | nil => exact .refl _
  | cons entry rest ih =>
    rw [List.map_cons, List.mem_cons, not_or] at new
    unfold mapInsert
    rw [if_neg new.1]
    split
    · exact .refl _
    · exact ((ih new.2).cons entry).trans (.swap _ _ _)

theorem insertAll_perm {entries table : List (Chars × β)}
    (distinct : (entries.map Prod.fst ++ table.map Prod.fst).Nodup) :
    (insertAll entries table).Perm (entries ++ table) := by
  induction entries generalizing table with
  | nil => exact .refl _
  | cons entry rest ih =>
    rw [List.map_cons, List.cons_append, List.nodup_cons, List.mem_append, not_or] at distinct
    have first : (mapInsert entry.1 entry.2 table).Perm (entry :: table) :=
      mapInsert_perm distinct.1.2
    have keys := first.map Prod.fst
    have later : (rest.map Prod.fst ++ (mapInsert entry.1 entry.2 table).map Prod.fst).Nodup := by
      rw [(keys.append_left (rest.map Prod.fst)).nodup_iff, List.map_cons,
        List.perm_middle.nodup_iff, List.nodup_cons, List.mem_append, not_or]
      exact distinct
    have whole : (insertAll rest (mapInsert entry.1 entry.2 table)).Perm
        (rest ++ mapInsert entry.1 entry.2 table) := ih later
    exact (whole.trans (first.append_left rest)).trans List.perm_middle

end

/-- `namespace_table` after the start of an element. -/
def namespacesAfter (tag : StartTag) (table : List (Chars × Chars)) : List (Chars × Chars) :=
  insertAll (declared tag) table

def openingText (tag : StartTag) (table : List (Chars × Chars)) : Chars :=
  "<".toList ++ Parser.qualified (tag.pre.getD []) tag.localname ++
    (if tag.namespaces = [] then [] else Parser.namespacesText (namespacesAfter tag table)) ++
    (if tag.attributes = [] then [] else Parser.attributesText (insertAll (given tag) [])) ++
    ">".toList

def endingText (tag : StartTag) : Chars :=
  "</".toList ++ Parser.qualified (tag.pre.getD []) tag.localname ++ ">".toList

mutual

/-- With `namespace_table` behind it. -/
def Item.written (table : List (Chars × Chars)) : Item → Chars × List (Chars × Chars)
  | .text _ ch => (ch, table)
  | .element tag content =>
    let inner := allWritten (namespacesAfter tag table) content
    (openingText tag table ++ inner.1 ++ endingText tag, inner.2)

def allWritten (table : List (Chars × Chars)) : List Item → Chars × List (Chars × Chars)
  | [] => ([], table)
  | i :: items =>
    let first := i.written table
    let later := allWritten first.2 items
    (first.1 ++ later.1, later.2)

end

/-! ## When it is kept -/

/-- The start tag is written as it was. -/
structure TagKept (tag : StartTag) (table : List (Chars × Chars)) : Prop where
  declares : tag.namespaces ≠ [] → (namespacesAfter tag table).Perm (declared tag)
  distinct : (tag.attributes.map SaxAttribute.localname).Nodup
  values : ∀ spec ∈ specsOf tag, spec.Plain

mutual

/-- An element that ends the attribute does not stand in it, `other_xml_depth` does not wrap
around, and the element is written as it was. -/
def Item.Kept (rootNs : Chars) (depth : Nat) (table : List (Chars × Chars)) : Item → Prop
  | .text _ ch => ∀ c ∈ ch, plain c = true
  | .element tag content =>
    ¬(tag.localname = "Attribute".toList ∧ (tag.uri = none ∨ tag.uri = some rootNs)) ∧
      depth + 1 < 2 ^ 32 ∧ TagKept tag table ∧ NoSectionEnd (allNodes content) ∧
      AllKept rootNs (depth + 1) (namespacesAfter tag table) content

def AllKept (rootNs : Chars) (depth : Nat) (table : List (Chars × Chars)) : List Item → Prop
  | [] => True
  | i :: items =>
    i.Kept rootNs depth table ∧ AllKept rootNs depth (i.written table).2 items

end

/-! ## The text is the fragment -/

theorem qualified_eq (q : QName) : Parser.qualified q.pre q.name = q.text := by
  unfold Parser.qualified QName.text
  split
  · rfl
  · simp

theorem attributesText_eq (table : List (Chars × XMLAttribute)) :
    Parser.attributesText table = (table.map attributeSpec).flatMap Spec.text := by
  unfold Parser.attributesText
  rw [List.flatMap_map]
  congr 1
  funext a
  have name_eq : Parser.qualified a.2.pre a.1 = (attributeSpec a).name.text :=
    qualified_eq (attributeSpec a).name
  rw [name_eq]
  simp [Spec.text, Parser.quoted, attributeSpec]

theorem namespacesText_eq (table : List (Chars × Chars)) :
    Parser.namespacesText table = (table.map declaration).flatMap Spec.text := by
  unfold Parser.namespacesText
  rw [List.flatMap_map]
  congr 1
  funext ns
  by_cases default : ns.1 = []
  · simp [declaration, Spec.text, Parser.quoted, QName.text, default]
  · simp [declaration, Spec.text, Parser.quoted, QName.text, default]

/-- What the start tag says, in the order it is written in. -/
def writtenSpecs (tag : StartTag) (table : List (Chars × Chars)) : List Spec :=
  (if tag.namespaces = [] then [] else (namespacesAfter tag table).map declaration) ++
    (insertAll (given tag) []).map attributeSpec

theorem openingText_eq (tag : StartTag) (table : List (Chars × Chars)) :
    openingText tag table =
      '<' :: (startName tag).text ++ (writtenSpecs tag table).flatMap Spec.text ++ ['>'] := by
  have name_eq : Parser.qualified (tag.pre.getD []) tag.localname = (startName tag).text :=
    qualified_eq (startName tag)
  have attributes_eq : (if tag.attributes = [] then []
      else Parser.attributesText (insertAll (given tag) [])) =
        ((insertAll (given tag) []).map attributeSpec).flatMap Spec.text := by
    split
    · next none => simp [given, none, insertAll]
    · exact attributesText_eq _
  have namespaces_eq : (if tag.namespaces = [] then []
      else Parser.namespacesText (namespacesAfter tag table)) =
        (if tag.namespaces = [] then [] else (namespacesAfter tag table).map declaration).flatMap
          Spec.text := by
    split
    · rfl
    · exact namespacesText_eq _
  unfold openingText writtenSpecs
  rw [name_eq, attributes_eq, namespaces_eq, List.flatMap_append]
  simp

theorem endingText_eq (tag : StartTag) :
    endingText tag = '<' :: '/' :: (startName tag).text ++ ['>'] := by
  have name_eq : Parser.qualified (tag.pre.getD []) tag.localname = (startName tag).text :=
    qualified_eq (startName tag)
  unfold endingText
  rw [name_eq]
  simp

theorem writtenSpecs_perm {tag : StartTag} {table : List (Chars × Chars)}
    (kept : TagKept tag table) : (writtenSpecs tag table).Perm (specsOf tag) := by
  unfold writtenSpecs specsOf
  apply List.Perm.append
  · split
    · next none =>
      rw [declared, none]
      exact .refl _
    · next some' => exact (kept.declares some').map declaration
  · apply List.Perm.map
    have distinct : ((given tag).map Prod.fst ++ ([] : List (Chars × XMLAttribute)).map
        Prod.fst).Nodup := by
      have names_eq : (given tag).map Prod.fst = tag.attributes.map SaxAttribute.localname := by
        simp [given]
      rw [names_eq, List.map_nil, List.append_nil]
      exact kept.distinct
    have inserted := insertAll_perm distinct
    rw [List.append_nil] at inserted
    exact inserted

mutual

theorem Item.reads (rootNs : Chars) (depth : Nat) (table : List (Chars × Chars)) :
    ∀ (i : Item) {t : Chars} {ns : List Node}, AllValid i.nodes → i.Kept rootNs depth table →
      NoSectionEnd (i.nodes ++ ns) → Reads t ns →
        Reads ((i.written table).1 ++ t) (i.nodes ++ ns)
  | .text _ ch, t, ns, valid, kept, outside, reads =>
    reads.chars (allValid_chars valid) kept outside
  | .element tag content, t, ns, valid, kept, _, reads => by
    obtain ⟨⟨name_valid, specs_valid, distinct, content_valid⟩, _⟩ := valid
    obtain ⟨_, _, tag_kept, no_end, content_kept⟩ := kept
    have inside := allReads rootNs (depth + 1) (namespacesAfter tag table) content content_valid
      content_kept no_end
    have whole := Reads.element name_valid
      (fun spec member => ⟨specs_valid spec member, tag_kept.values spec member⟩) distinct
      (writtenSpecs_perm tag_kept) inside reads
    unfold Item.written Item.nodes
    dsimp only
    rw [openingText_eq, endingText_eq]
    simpa using whole

theorem allReads (rootNs : Chars) (depth : Nat) (table : List (Chars × Chars)) :
    ∀ items : List Item, AllValid (allNodes items) → AllKept rootNs depth table items →
      NoSectionEnd (allNodes items) → Reads (allWritten table items).1 (allNodes items)
  | [], _, _, _ => Reads.nil
  | i :: items, valid, kept, outside => by
    obtain ⟨first_valid, rest_valid⟩ := allValid_append valid
    have rest := allReads rootNs depth (i.written table).2 items rest_valid kept.2
      (NoSectionEnd.of_append i.nodes outside)
    exact Item.reads rootNs depth table i first_valid kept.1 outside rest

end

/-! ## The events -/

/-- Inside the attribute nothing else changes. -/
def Grown (p : Parser) (written : Chars × List (Chars × Chars)) (q : Parser) : Prop :=
  ∃ attributeTable, q = { p with
    otherXml := p.otherXml ++ written.1, namespaceTable := written.2, attributeTable }

section
variable {p q : Parser} {s : List ParseState}

theorem step_text (top : p.s = .insideOtherXmlAttribute :: s) (kind : Kind) (ch : Chars) :
    p.step (kind.event ch) = .ok { p with otherXml := p.otherXml ++ ch } := by
  cases kind with
  | characters => simp only [Kind.event, Parser.step, Parser.getCharacters, top]
  | whitespace => simp only [Kind.event, Parser.step, Parser.ignoreableWhitespace, top]
  | cdata => simp only [Kind.event, Parser.step, Parser.getCdata, top]

theorem transferXmlNs_eq (tag : StartTag) :
    p.transferXmlNs tag.namespaces =
      { p with namespaceTable := namespacesAfter tag p.namespaceTable } := by
  simp only [Parser.transferXmlNs, namespacesAfter, insertAll, declared, List.foldl_map]

theorem transferXmlAttrs_eq (tag : StartTag) :
    p.transferXmlAttrs tag.attributes =
      { p with attributeTable := insertAll (given tag) [] } := by
  simp only [Parser.transferXmlAttrs, insertAll, given, List.foldl_map]

theorem startOtherXml_eq (tag : StartTag) (small : p.otherXmlDepth + 1 < 2 ^ 32) :
    ∃ attributeTable, p.startOtherXml tag = { p with
      otherXml := p.otherXml ++ openingText tag p.namespaceTable
      otherXmlDepth := p.otherXmlDepth + 1
      namespaceTable := namespacesAfter tag p.namespaceTable, attributeTable } := by
  unfold Parser.startOtherXml openingText
  rw [transferXmlNs_eq]
  by_cases declares : tag.namespaces = [] <;> by_cases gives : tag.attributes = []
  · refine ⟨p.attributeTable, ?_⟩
    simp [declares, gives, namespacesAfter, declared, insertAll]
    omega
  · refine ⟨insertAll (given tag) [], ?_⟩
    simp [declares, gives, transferXmlAttrs_eq, namespacesAfter, declared, insertAll]
    omega
  · refine ⟨p.attributeTable, ?_⟩
    simp [declares, gives]
    omega
  · refine ⟨insertAll (given tag) [], ?_⟩
    simp [declares, gives, transferXmlAttrs_eq]
    omega

theorem endOtherXml_eq (tag : StartTag)
    (inside : ¬(tag.localname = "Attribute".toList ∧
      (tag.uri = none ∨ tag.uri = some p.rootNs))) (deep : p.otherXmlDepth ≠ 0) :
    p.endOtherXml tag.localname tag.pre tag.uri = .ok { p with
      otherXml := p.otherXml ++ endingText tag, otherXmlDepth := p.otherXmlDepth - 1 } := by
  have named : ¬(tag.localname = "Attribute".toList ∧ tag.uri = none) :=
    fun both => inside ⟨both.1, .inl both.2⟩
  have rooted : ¬(tag.localname = "Attribute".toList ∧ tag.uri = some p.rootNs) :=
    fun both => inside ⟨both.1, .inr both.2⟩
  unfold Parser.endOtherXml endingText
  rw [if_neg named, if_neg rooted]
  dsimp only
  rw [if_neg deep, if_neg deep]
  simp

end

mutual

theorem Item.run : ∀ (i : Item) {p : Parser} {s : List ParseState},
    p.s = .insideOtherXmlAttribute :: s → i.Kept p.rootNs p.otherXmlDepth p.namespaceTable →
      ∃ q, i.events.foldlM Parser.step p = .ok q ∧ Grown p (i.written p.namespaceTable) q
  | .text kind ch, p, s, top, _ => by
    refine ⟨{ p with otherXml := p.otherXml ++ ch }, ?_, p.attributeTable, rfl⟩
    unfold Item.events
    rw [List.foldlM_cons, step_text top]
    rfl
  | .element tag content, p, s, top, kept => by
    obtain ⟨inside, small, _, _, content_kept⟩ := kept
    obtain ⟨attributeTable, opened_eq⟩ := startOtherXml_eq (p := p) tag small
    have opened : p.step (.start tag) = .ok (p.startOtherXml tag) := by
      simp only [Parser.step, Parser.startElement, top]
    rw [opened_eq] at opened
    obtain ⟨q, ran, attributeTable', grown⟩ := allRun content (p := { p with
      otherXml := p.otherXml ++ openingText tag p.namespaceTable
      otherXmlDepth := p.otherXmlDepth + 1
      namespaceTable := namespacesAfter tag p.namespaceTable, attributeTable }) top content_kept
    have closed : q.step (.finish tag.localname tag.pre tag.uri) = .ok { q with
        otherXml := q.otherXml ++ endingText tag, otherXmlDepth := q.otherXmlDepth - 1 } := by
      have top' : q.s = .insideOtherXmlAttribute :: s := by
        rw [grown]
        exact top
      have ends : q.step (.finish tag.localname tag.pre tag.uri) =
          q.endOtherXml tag.localname tag.pre tag.uri := by
        simp only [Parser.step, Parser.endElement, top']
      rw [ends]
      apply endOtherXml_eq
      · rw [grown]
        exact inside
      · rw [grown]
        exact Nat.succ_ne_zero _
    refine ⟨{ q with
      otherXml := q.otherXml ++ endingText tag, otherXmlDepth := q.otherXmlDepth - 1 }, ?_,
      attributeTable', ?_⟩
    · unfold Item.events
      rw [List.foldlM_cons, opened]
      change List.foldlM Parser.step _ _ = _
      rw [List.foldlM_append, ran]
      change List.foldlM Parser.step q _ = _
      rw [List.foldlM_cons, closed]
      rfl
    · rw [grown]
      simp [Item.written]

theorem allRun : ∀ (items : List Item) {p : Parser} {s : List ParseState},
    p.s = .insideOtherXmlAttribute :: s → AllKept p.rootNs p.otherXmlDepth p.namespaceTable items →
      ∃ q, (allEvents items).foldlM Parser.step p = .ok q ∧
        Grown p (allWritten p.namespaceTable items) q
  | [], p, s, _, _ => by
    refine ⟨p, rfl, p.attributeTable, ?_⟩
    simp [allWritten]
  | i :: items, p, s, top, kept => by
    obtain ⟨q, ran, attributeTable, grown⟩ := Item.run i top kept.1
    have top' : q.s = .insideOtherXmlAttribute :: s := by
      rw [grown]
      exact top
    have kept' : AllKept q.rootNs q.otherXmlDepth q.namespaceTable items := by
      rw [grown]
      exact kept.2
    obtain ⟨r, ran', attributeTable', grown'⟩ := allRun items top' kept'
    refine ⟨r, ?_, attributeTable', ?_⟩
    · unfold allEvents
      rw [List.foldlM_append, ran]
      exact ran'
    · rw [grown', grown]
      simp [allWritten]

end

/-! ## The attribute -/

/-- The start of an `OtherXML` attribute. -/
structure Opens (p : Parser) (tag : StartTag) : Prop where
  state : ∃ state s, p.s = state :: s ∧ takesEntries state = true
  element : tag.localname = "Attribute".toList
  named : (p.transferXmlAttrs tag.attributes).checkAttribute "name" = true
  typed : (p.transferXmlAttrs tag.attributes).xmlAttr "type" = "OtherXML".toList

def attributeEvents (tag : StartTag) (items : List Item) : List Event :=
  .start tag :: (allEvents items ++ [.finish tag.localname tag.pre tag.uri])

/-- The parser with the value, and what the next attribute sets anew. -/
def stored (p : Parser) (tag : StartTag) (text : Chars)
    (attributeTable : List (Chars × XMLAttribute)) : Except Failure Parser := do
  let name := (p.transferXmlAttrs tag.attributes).xmlAttr "name"
  let q ← p.changeTable fun t => DASParser.appendValue t "OtherXML".toList name text
  pure { q with dodsAttrName := name, dodsAttrType := "OtherXML".toList, attributeTable }

/-- The declarations of the fragment stay behind. -/
def behind (p : Parser) (items : List Item) (q : Parser) : Parser :=
  { q with namespaceTable := (allWritten p.namespaceTable items).2 }

/-- The value reads as the fragment. -/
def ValueSurvives (p : Parser) (tag : StartTag) (items : List Item) : Prop :=
  ∃ text attributeTable, Reads text (allNodes items) ∧
    (attributeEvents tag items).foldlM Parser.step p =
      (stored p tag text attributeTable).map (behind p items)

/-- The value reads as the fragment, and nothing is left of it for what follows. -/
def Survives (p : Parser) (tag : StartTag) (items : List Item) : Prop :=
  ∃ text attributeTable, Reads text (allNodes items) ∧
    (attributeEvents tag items).foldlM Parser.step p = stored p tag text attributeTable

/-- The parser has nothing left of another fragment, the attribute is in the namespace of the
document, and the fragment is kept. -/
structure Keeps (p : Parser) (tag : StartTag) (items : List Item) : Prop where
  blank : p.otherXml = []
  level : p.otherXmlDepth = 0
  rooted : tag.uri = some p.rootNs
  kept : AllKept p.rootNs 0 p.namespaceTable items
  outside : NoSectionEnd (allNodes items)

theorem Opens.step {p : Parser} {tag : StartTag} (opens : Opens p tag) :
    p.step (.start tag) = .ok { (p.transferXmlAttrs tag.attributes).setState
      .insideOtherXmlAttribute with
        dodsAttrName := (p.transferXmlAttrs tag.attributes).xmlAttr "name"
        dodsAttrType := "OtherXML".toList } := by
  obtain ⟨state, s, top, takes⟩ := opens.state
  have chosen : p.step (.start tag) = p.processAttributeElement tag.attributes := by
    have entry : p.isAttributeOrAlias tag.localname tag.attributes =
        some (p.processAttributeElement tag.attributes) := by
      rw [opens.element]
      rfl
    unfold Parser.step Parser.startElement
    dsimp only
    rw [top, entry]
    cases state <;> first | rfl | cases takes
  have typed : (p.transferXmlAttrs tag.attributes).checkAttribute "type" = true := by
    have value := opens.typed
    unfold Parser.xmlAttr at value
    unfold Parser.checkAttribute
    cases found : (p.transferXmlAttrs tag.attributes).attributeTable.lookup "type".toList with
    | none =>
      rw [found] at value
      cases value
    | some a => rfl
  rw [chosen]
  unfold Parser.processAttributeElement Parser.checkRequiredAttribute
  dsimp only
  rw [if_pos opens.named, if_pos typed, opens.typed, if_neg (by decide), if_pos rfl]

theorem changeTable_none {q : Parser} (none : q.atStack = [])
    (f : Table → Except Failure Table) :
    q.changeTable f = .error .undefinedBehaviour := by
  unfold Parser.changeTable
  rw [none]

theorem changeTable_top {q : Parser} {t : Table} {ats : List Table} (top : q.atStack = t :: ats)
    (f : Table → Except Failure Table) :
    q.changeTable f = (f t).map fun t' => { q with atStack := t' :: ats } := by
  unfold Parser.changeTable
  rw [top]
  dsimp only
  cases f t <;> rfl

/-- At the end of the attribute its text is stored, and everything else is as before but for
the declarations. -/
theorem closes {p q : Parser} {tag : StartTag} {items : List Item}
    {attributeTable : List (Chars × XMLAttribute)} (opens : Opens p tag)
    (keeps : Keeps p tag items)
    (grown : q = { (p.transferXmlAttrs tag.attributes).setState .insideOtherXmlAttribute with
      dodsAttrName := (p.transferXmlAttrs tag.attributes).xmlAttr "name"
      dodsAttrType := "OtherXML".toList
      otherXml := p.otherXml ++ (allWritten p.namespaceTable items).1
      namespaceTable := (allWritten p.namespaceTable items).2, attributeTable }) :
    q.step (.finish tag.localname tag.pre tag.uri) =
      (stored p tag (allWritten p.namespaceTable items).1 attributeTable).map (behind p items) := by
  have named : ¬(tag.localname = "Attribute".toList ∧ tag.uri = none) := by
    rw [keeps.rooted]
    simp
  have rooted : tag.localname = "Attribute".toList ∧ tag.uri = some q.rootNs := by
    rw [grown]
    exact ⟨opens.element, keeps.rooted⟩
  have ends : q.step (.finish tag.localname tag.pre tag.uri) =
      q.endOtherXml tag.localname tag.pre tag.uri := by
    rw [grown]
    rfl
  rw [ends]
  unfold Parser.endOtherXml
  rw [if_neg named, if_pos rooted, grown, keeps.blank]
  unfold stored
  dsimp only
  cases tables_eq : p.atStack with
  | nil =>
    rw [changeTable_none, changeTable_none tables_eq]
    · rfl
    · exact tables_eq
  | cons t ats =>
    rw [changeTable_top, changeTable_top tables_eq]
    rotate_left
    · exact tables_eq
    rw [List.nil_append]
    cases DASParser.appendValue t "OtherXML".toList
        ((p.transferXmlAttrs tag.attributes).xmlAttr "name")
        (allWritten p.namespaceTable items).1 with
    | error failure => rfl
    | ok t' =>
      change Except.ok _ = Except.ok _
      congr 1
      have blank := keeps.blank
      cases p
      cases blank
      rfl

/-- With no new declarations nothing stays behind. -/
theorem behind_stored {p : Parser} {items : List Item}
    (declared : (allWritten p.namespaceTable items).2 = p.namespaceTable) (tag : StartTag)
    (text : Chars) (attributeTable : List (Chars × XMLAttribute)) :
    (stored p tag text attributeTable).map (behind p items) = stored p tag text attributeTable := by
  unfold behind
  rw [declared]
  unfold stored Parser.changeTable
  cases p.atStack with
  | nil => rfl
  | cons t ats =>
    dsimp only
    cases DASParser.appendValue t "OtherXML".toList
        ((p.transferXmlAttrs tag.attributes).xmlAttr "name") text <;> rfl

theorem value_survives {p : Parser} {tag : StartTag} {items : List Item} (opens : Opens p tag)
    (valid : AllValid (allNodes items)) (keeps : Keeps p tag items) :
    ValueSurvives p tag items := by
  let opened : Parser := { (p.transferXmlAttrs tag.attributes).setState
    .insideOtherXmlAttribute with
      dodsAttrName := (p.transferXmlAttrs tag.attributes).xmlAttr "name"
      dodsAttrType := "OtherXML".toList }
  have kept : AllKept opened.rootNs opened.otherXmlDepth opened.namespaceTable items := by
    change AllKept p.rootNs p.otherXmlDepth p.namespaceTable items
    rw [keeps.level]
    exact keeps.kept
  obtain ⟨q, ran, attributeTable, grown⟩ := allRun items (p := opened) rfl kept
  refine ⟨(allWritten p.namespaceTable items).1, attributeTable,
    allReads p.rootNs 0 p.namespaceTable items valid keeps.kept keeps.outside, ?_⟩
  unfold attributeEvents
  rw [List.foldlM_cons, opens.step]
  change List.foldlM Parser.step opened _ = _
  rw [List.foldlM_append, ran]
  change List.foldlM Parser.step q [_] = _
  rw [List.foldlM_cons, closes opens keeps grown]
  cases stored p tag (allWritten p.namespaceTable items).1 attributeTable <;> rfl

/-- The value of such a fragment survives, and what follows is not affected if the fragment
leaves `namespace_table` as it was. -/
theorem other_xml_survives (p : Parser) (tag : StartTag) (items : List Item)
    (opens : Opens p tag) (valid : AllValid (allNodes items)) (keeps : Keeps p tag items) :
    ValueSurvives p tag items ∧
      ((allWritten p.namespaceTable items).2 = p.namespaceTable → Survives p tag items) := by
  refine ⟨value_survives opens valid keeps, fun declared => ?_⟩
  obtain ⟨text, attributeTable, reads, run⟩ := value_survives opens valid keeps
  rw [behind_stored declared] at run
  exact ⟨text, attributeTable, reads, run⟩

/-- A document of the namespace `n` that has begun. -/
def begun : Parser :=
  let p := (Parser.new ⟨[], [], []⟩).startDocument
  (p.startDataset ⟨"Dataset".toList, none, some ['n'], [],
    [⟨"name".toList, none, none, ['d']⟩]⟩).toOption.getD p

def otherXmlTag : StartTag :=
  ⟨"Attribute".toList, none, some ['n'], [], [⟨"name".toList, none, none, ['a']⟩,
    ⟨"type".toList, none, none, "OtherXML".toList⟩]⟩

theorem otherXmlTag_opens : Opens begun otherXmlTag :=
  ⟨⟨_, _, rfl, rfl⟩, rfl, rfl, rfl⟩

/-- `<p:b k="v">t</p:b>`. -/
def plainFragment : List Item :=
  [.element ⟨['b'], some ['p'], some ['u'], [], [⟨['k'], none, none, ['v']⟩]⟩
    [.text .characters ['t']]]

theorem isNCName_single {c : Char} (start : nameStart c = true) : IsNCName [c] :=
  ⟨c, [], rfl, start, by simp⟩

theorem plain_fragment_survives : Survives begun otherXmlTag plainFragment := by
  apply (other_xml_survives begun otherXmlTag plainFragment otherXmlTag_opens ?_ ?_).2 rfl
  · refine ⟨⟨⟨.inr (isNCName_single (by decide)), isNCName_single (by decide)⟩, ?_, ?_, ?_⟩,
      trivial⟩
    · intro spec member
      cases List.mem_singleton.mp member
      exact ⟨⟨.inl rfl, isNCName_single (by decide)⟩, List.forall_iff_forall_mem.mp (by decide)⟩
    · decide
    · exact ⟨(by decide : legal 't' = true), trivial⟩
  · refine ⟨rfl, rfl, rfl, ⟨⟨by decide, by decide, ⟨?_, by decide, ?_⟩, ?_, ?_, trivial⟩, trivial⟩,
      ?_⟩
    · exact fun some' => absurd rfl some'
    · intro spec member
      cases List.mem_singleton.mp member
      change ∀ c ∈ ['v'], c ∉ ['<', '&', '"', '\t', '\n', '\r']
      simp
    · intro found
      have := found.length_le
      simp [sectionEnd, allNodes, Item.nodes] at this
    · change ∀ c ∈ ['t'], plain c = true
      simp [plain]
    · intro found
      have := found.length_le
      simp [sectionEnd, allNodes, Item.nodes, plainFragment] at this

/-- `<Attribute xmlns=""/>` inside the attribute: its namespace is a null pointer. -/
theorem attribute_fragment_lost :
    ¬∀ p tag items, Opens p tag → AllValid (allNodes items) → Survives p tag items := by
  intro all
  let items : List Item := [.element ⟨"Attribute".toList, none, none, [(none, [])], []⟩ []]
  have valid : AllValid (allNodes items) := by
    have name : IsNCName "Attribute".toList :=
      ⟨'A', "ttribute".toList, rfl, by decide, List.forall_iff_forall_mem.mp (by decide)⟩
    refine ⟨⟨⟨.inl rfl, name⟩, ?_, by decide, trivial⟩, trivial⟩
    intro spec member
    cases List.mem_singleton.mp member
    have xmlns : IsNCName "xmlns".toList :=
      ⟨'x', "mlns".toList, rfl, by decide, List.forall_iff_forall_mem.mp (by decide)⟩
    exact ⟨⟨.inl rfl, xmlns⟩, List.forall_iff_forall_mem.mp (by decide)⟩
  obtain ⟨text, attributeTable, _, run⟩ := all begun otherXmlTag items otherXmlTag_opens valid
  have undefined : (attributeEvents otherXmlTag items).foldlM Parser.step begun =
      .error .undefinedBehaviour := rfl
  cases undefined.symm.trans run

end Libdap.Guarantees.OtherXml
