import Libdap.Guarantees.AISDatabase

/-!
# What a document adds to a database

The callbacks are followed through any events. A document only ever adds entries, and nothing
after the first error; the document that `write_database` writes adds what the database has.
-/
namespace Libdap.Guarantees.AISReading
open Libdap.Source Libdap.Source.AIS Libdap.Guarantees.AISAdditions Libdap.Guarantees.AISDatabase
open Libdap.Library
open Libdap.Source.HTTPCacheTable (Chars)

/-! ## The events of a document, one after the other -/

/-- From a state that satisfies `P` the events lead to one that satisfies `Q`, whatever lines
they are on. -/
def Takes (P : ParserState → Prop) (events : List Event)
    (Q : ParserState → Prop) : Prop :=
  ∀ s lined, P s → lined.map Prod.snd = events → Q (handleAll lined s)

variable {P Q R : ParserState → Prop} {events later : List Event}

theorem Takes.nil : Takes P [] P := by
  intro s lined holds same
  rw [List.map_eq_nil_iff.mp same]
  exact holds

theorem Takes.one {event : Event} (step : ∀ line s, P s → Q (handle line s event)) :
    Takes P [event] Q := by
  intro s lined holds same
  obtain ⟨⟨line, e⟩, rest, rfl, here, behind⟩ := List.map_eq_cons_iff.mp same
  obtain rfl := List.map_eq_nil_iff.mp behind
  subst here
  exact step line s holds

theorem Takes.append (first : Takes P events Q) (second : Takes Q later R) :
    Takes P (events ++ later) R := by
  intro s lined holds same
  obtain ⟨front, back, rfl, here, behind⟩ := List.map_eq_append_iff.mp same
  rw [handleAll, List.foldl_append]
  exact second _ back (first s front holds here) behind

theorem Takes.cons {event : Event} (step : ∀ line s, P s → Q (handle line s event))
    (rest : Takes Q events R) : Takes P (event :: events) R :=
  (Takes.one step).append rest

/-! ## Messages -/

theorem formatted_plain {msg : Chars} (plain : '%' ∉ msg) : formatted msg = some msg := by
  induction msg with
  | nil => rfl
  | cons c rest ih =>
    have first : c ≠ '%' := fun same => plain (same ▸ List.mem_cons_self)
    have later := ih fun mem => plain (List.mem_cons_of_mem c mem)
    rw [formatted.eq_def]
    split
    · rename_i same
      cases same
    · rename_i same
      cases same
      exact absurd rfl first
    · rename_i same
      cases same
      rw [if_neg first, later]
      rfl

theorem aisFatalError_plain {msg : Chars} (plain : '%' ∉ msg) (line : Int) (s : ParserState) :
    aisFatalError line s msg = appendError line s msg := by
  rw [aisFatalError, formatted_plain plain]

theorem aisFatalError_kept (line : Int) (s : ParserState) (msg : Chars) :
    (aisFatalError line s msg).rv = s.rv ∧ (aisFatalError line s msg).resources = s.resources := by
  unfold aisFatalError
  split <;> exact ⟨rfl, rfl⟩

/-! ## After an error -/

/-- An error was reported, with a message that needs no arguments. -/
structure Failed (s : ParserState) : Prop where
  state : s.state = .error
  defined : s.undefined = false

theorem error_handled {s : ParserState} (failed : Failed s) (line : Int) (event : Event) :
    Failed (handle line s event) ∧ (handle line s event).resources = s.resources := by
  cases event with
  | startElement name attrs =>
    rw [handle, aisStartElement, failed.state]
    exact ⟨failed, rfl⟩
  | endElement name =>
    rw [handle, aisEndElement, failed.state]
    exact ⟨failed, rfl⟩
  | fatalError msg => exact ⟨⟨rfl, failed.defined⟩, rfl⟩

theorem error_stays {s : ParserState} (failed : Failed s) (lined : List (Int × Event)) :
    Failed (handleAll lined s) ∧ (handleAll lined s).resources = s.resources := by
  induction lined generalizing s with
  | nil => exact ⟨failed, rfl⟩
  | cons e rest ih =>
    obtain ⟨now, kept⟩ := error_handled failed e.1 e.2
    obtain ⟨still, same⟩ := ih now
    exact ⟨still, same.trans kept⟩

theorem Takes.error : Takes Failed events Failed :=
  fun _ lined failed _ => (error_stays failed lined).1

/-! ## The document that is written -/

/-- Between the entries. -/
structure Between (ais : AISResources) (s : ParserState) : Prop where
  state : s.state = .ais
  rv : s.rv = []
  depth : s.unknownDepth = 0
  defined : s.undefined = false
  resources : s.resources = ais

/-- In an entry, or in one of its elements, with what was read of it. -/
structure Inside (state : ParseState) (ais : AISResources) (a : Addition) (s : ParserState) :
    Prop where
  state : s.state = state
  regexp : s.regexp = a.regexp
  primary : s.primary = a.primary
  rv : s.rv = a.rv
  depth : s.unknownDepth = 0
  defined : s.undefined = false
  resources : s.resources = ais

variable {ais : AISResources}

theorem ancillaryElement_written (line : Int) (r : Resource) (s : ParserState) :
    ancillaryElement line (ruleAttribute r.rule ++ [("url".toList, r.url)]) s =
      if r.url = [] then
        aisFatalError line s
          "Required attribute 'url' missing from element 'ancillary'.".toList
      else { s with rv := s.rv ++ [r] } := by
  obtain ⟨url, rule⟩ := r
  cases rule <;> rfl

theorem start_ancillary {s : ParserState} (state : s.state = .entry) (line : Int)
    (attrs : List (Chars × Chars)) :
    aisStartElement line "ancillary".toList attrs s =
      ancillaryElement line attrs (goTo .ancillary s) := by
  have other : "ancillary".toList ≠ "primary".toList := by decide
  simp only [aisStartElement, state, if_neg other, if_true]

theorem start_primary {s : ParserState} (state : s.state = .entry) (line : Int)
    (attrs : List (Chars × Chars)) :
    aisStartElement line "primary".toList attrs s =
      primaryElement line attrs (goTo .primary s) := by
  simp only [aisStartElement, state, if_true]

theorem primaryElement_written (line : Int) (regexp : Bool) (primary : Chars) (s : ParserState) :
    primaryElement line [((if regexp then "regexp" else "url").toList, primary)] s =
      { s with regexp, primary } := by
  cases regexp <;> rfl

/-- An ancillary resource is added. -/
theorem ancillary_takes (a : Addition) {r : Resource} (located : r.url ≠ []) :
    Takes (Inside .entry ais a) (ancillary r).events
      (Inside .entry ais { a with rv := a.rv ++ [r] }) := by
  refine Takes.cons (Q := Inside .ancillary ais { a with rv := a.rv ++ [r] }) ?_ (Takes.one ?_)
  · intro line s inside
    rw [handle, start_ancillary inside.state, ancillaryElement_written, if_neg located]
    exact ⟨rfl, inside.regexp, inside.primary, congrArg (· ++ [r]) inside.rv, inside.depth,
      inside.defined, inside.resources⟩
  · intro line s inside
    simp only [handle, aisEndElement, inside.state]
    exact ⟨rfl, inside.regexp, inside.primary, inside.rv, inside.depth, inside.defined,
      inside.resources⟩

/-- One without a URL is an error. -/
theorem ancillary_fails (a : Addition) {r : Resource} (nowhere : r.url = []) :
    Takes (Inside .entry ais a) (ancillary r).events Failed := by
  refine Takes.cons (Q := Failed) ?_ Takes.error
  intro line s inside
  rw [handle, start_ancillary inside.state, ancillaryElement_written, if_pos nowhere,
    aisFatalError_plain (by decide)]
  exact ⟨rfl, inside.defined⟩

/-- Every resource has a URL. -/
def Located (rv : List Resource) : Prop := ∀ r ∈ rv, r.url ≠ []

instance (rv : List Resource) : Decidable (Located rv) :=
  inferInstanceAs (Decidable (∀ r ∈ rv, r.url ≠ []))

theorem located_cons {r : Resource} {rv : List Resource} :
    Located (r :: rv) ↔ r.url ≠ [] ∧ Located rv := List.forall_mem_cons

/-- The resources are added up to the first without a URL. -/
theorem resources_take (a : Addition) (rv : List Resource) :
    Takes (Inside .entry ais a) (contentEvents (rv.map ancillary))
      (if Located rv then Inside .entry ais { a with rv := a.rv ++ rv }
        else Failed) := by
  induction rv generalizing a with
  | nil =>
    have same : ({ a with rv := a.rv ++ [] } : Addition) = a := by rw [List.append_nil]
    have none : Located [] := List.forall_mem_nil _
    rw [if_pos none, same]
    exact Takes.nil
  | cons r rv ih =>
    rw [List.map_cons, contentEvents]
    by_cases located : r.url = []
    · rw [if_neg fun all => (located_cons.mp all).1 located]
      exact (ancillary_fails a located).append Takes.error
    · have rest := ih { a with rv := a.rv ++ [r] }
      simp only [List.append_assoc, List.singleton_append] at rest
      simp only [located_cons, ne_eq, located, not_false_eq_true, true_and]
      exact (ancillary_takes a located).append rest

/-- An entry is recorded if all of its resources have a URL. -/
theorem entry_takes (a : Addition) :
    Takes (Between ais) (entry a).events
      (if Located a.rv then Between (add ais a) else Failed) := by
  have opened : Takes (Between ais)
      [.startElement "entry".toList []] (fun s => s.state = .entry ∧ s.rv = [] ∧
        s.unknownDepth = 0 ∧ s.undefined = false ∧ s.resources = ais) := by
    refine Takes.one fun line s between => ?_
    simp only [handle, aisStartElement, between.state, if_true]
    exact ⟨rfl, between.rv, between.depth, between.defined, between.resources⟩
  have primary : Takes
      (fun s => s.state = .entry ∧ s.rv = [] ∧ s.unknownDepth = 0 ∧ s.undefined = false ∧
        s.resources = ais)
      (Markup.empty "primary".toList
        [((if a.regexp then "regexp" else "url").toList, a.primary)]).events
      (Inside .entry ais { a with rv := [] }) := by
    refine Takes.cons (Q := Inside .primary ais { a with rv := [] }) ?_ (Takes.one ?_)
    · intro line s there
      rw [handle, start_primary there.1, primaryElement_written]
      exact ⟨rfl, rfl, rfl, there.2.1, there.2.2.1, there.2.2.2.1, there.2.2.2.2⟩
    · intro line s inside
      simp only [handle, aisEndElement, inside.state]
      exact ⟨rfl, inside.regexp, inside.primary, inside.rv, inside.depth, inside.defined,
      inside.resources⟩
  have resources := @resources_take ais { a with rv := [] } a.rv
  have events : (entry a).events = [.startElement "entry".toList []] ++
      ((Markup.empty "primary".toList
        [((if a.regexp then "regexp" else "url").toList, a.primary)]).events ++
      (contentEvents (a.rv.map ancillary) ++ [.endElement "entry".toList])) := by
    simp only [entry, Markup.events, contentEvents, List.cons_append, List.nil_append]
  rw [events]
  refine opened.append (primary.append (resources.append ?_))
  by_cases located : Located a.rv
  · rw [if_pos located, if_pos located]
    refine Takes.one fun line s inside => ?_
    simp only [handle, aisEndElement, inside.state]
    refine ⟨rfl, rfl, inside.depth, inside.defined, ?_⟩
    simp only [recordEntry, goTo, inside.regexp, inside.primary, inside.rv, inside.resources,
      List.nil_append, add]
  · rw [if_neg located, if_neg located]
    exact Takes.error

theorem entries_take (ais : AISResources) (additions : List Addition) :
    Takes (Between ais) (contentEvents (additions.map entry))
      (if ∀ a ∈ additions, Located a.rv then Between (addAll ais additions)
        else Failed) := by
  induction additions generalizing ais with
  | nil =>
    rw [if_pos (List.forall_mem_nil _)]
    exact Takes.nil
  | cons a rest ih =>
    rw [List.map_cons, contentEvents]
    have first := @entry_takes ais a
    by_cases located : Located a.rv
    · rw [if_pos located] at first
      simp only [List.forall_mem_cons, located, true_and]
      exact first.append (ih (add ais a))
    · rw [if_neg located] at first
      rw [if_neg fun all => located (all a List.mem_cons_self)]
      exact first.append Takes.error

theorem end_error {s : ParserState} (failed : Failed s) (line : Int) :
    Failed (aisEndDocument line s) ∧ (aisEndDocument line s).resources = s.resources := by
  rw [aisEndDocument]
  split_ifs
  · rw [aisFatalError_plain (by decide)]
    exact ⟨⟨rfl, failed.defined⟩, rfl⟩
  · exact ⟨failed, rfl⟩

/-- What is reported before the document starts is forgotten. -/
theorem started_eq (garbage : Bool) (ais : AISResources) (reported : List (Int × Chars)) :
    aisStartDocument (reported.foldl (fun s e => appendError e.1 s e.2) (initial garbage ais)) =
      aisStartDocument (initial garbage ais) := by
  induction reported using List.reverseRecOn with
  | nil => rfl
  | append_singleton reported e ih =>
    rw [List.foldl_append]
    exact ih

/-- A document with an error in it is not read, and what was recorded before is left. -/
theorem read_fails (garbage : Bool) (doc : Document)
    (failed : Failed (handleAll doc.events (aisStartDocument (initial garbage ais)))) :
    ∃ failure, readDatabase garbage (some doc) ais =
      ((handleAll doc.events (aisStartDocument (initial garbage ais))).resources,
        .error failure) ∧ failure ≠ .undefinedBehaviour := by
  obtain ⟨ended, resources⟩ := end_error failed doc.lastLine
  simp only [readDatabase, started_eq, ended.state, ended.defined, resources, if_true,
    Bool.false_eq_true, if_false]
  split_ifs <;> exact ⟨_, rfl, by simp [readFailed]⟩

/-- The whole document is read, up to the first resource without a URL. -/
theorem document_takes (db : AISResources) :
    Takes (fun s => s.state = .start ∧ s.rv = [] ∧ s.unknownDepth = 0 ∧ s.undefined = false ∧
        s.resources = ais)
      (markup db).events
      (if ∀ a ∈ listed db, Located a.rv then
        fun s => s.state = .finish ∧ s.unknownDepth = 0 ∧ s.undefined = false ∧
          s.resources = addAll ais (listed db)
      else Failed) := by
  rw [markup, Markup.events, List.cons_append]
  refine Takes.cons (Q := Between ais) ?_ ((entries_take ais (listed db)).append ?_)
  · intro line s there
    simp only [handle, aisStartElement, there.1]
    exact ⟨rfl, there.2.1, there.2.2.1, there.2.2.2.1, there.2.2.2.2⟩
  · by_cases located : ∀ a ∈ listed db, Located a.rv
    · rw [if_pos located, if_pos located]
      refine Takes.one fun line s between => ?_
      simp only [handle, aisEndElement, between.state]
      exact ⟨rfl, between.depth, between.defined, between.resources⟩
    · rw [if_neg located, if_neg located]
      exact Takes.error

/-- The resources that are listed are those that were added. -/
theorem located_listed (additions : List Addition) :
    (∀ a ∈ listed (addAll AISResources.empty additions), Located a.rv) ↔
      ∀ a ∈ additions, Located a.rv := by
  have same : ∀ k, Gathering.gathered Addition.key Addition.rv k
      (listed (addAll AISResources.empty additions)) =
      Gathering.gathered Addition.key Addition.rv k additions := by
    intro k
    have made : Regular (addAll AISResources.empty additions) :=
      addAll_regular empty_regular additions
    rw [gathered_listed made, addAll_values, find_empty]
    rfl
  constructor
  · intro all a mem r there
    have gathered : r ∈ Gathering.gathered Addition.key Addition.rv a.key additions :=
      Gathering.mem_gathered.mpr ⟨a, mem, rfl, there⟩
    rw [← same] at gathered
    obtain ⟨b, listed, _, inside⟩ := Gathering.mem_gathered.mp gathered
    exact all b listed r inside
  · intro all a mem r there
    have gathered : r ∈ Gathering.gathered Addition.key Addition.rv a.key
        (listed (addAll AISResources.empty additions)) :=
      Gathering.mem_gathered.mpr ⟨a, mem, rfl, there⟩
    rw [same] at gathered
    obtain ⟨b, added, _, inside⟩ := Gathering.mem_gathered.mp gathered
    exact all b added r inside

/-- The XML parser reads the document as valid and reports the elements of some markup. -/
structure Reports (doc : Document) (m : Markup) : Prop where
  wellFormed : doc.wellFormed = true
  valid : doc.valid = true
  events : doc.events.map Prod.snd = m.events

/-- What is written is markup behind the prolog. Read into any database it makes the same
additions again, if every resource has a URL; otherwise the reading fails. -/
theorem written_read_back (garbage : Bool)
    (more additions : List Addition) (filename : Chars) (doc : Document)
    (reports : Reports doc (markup (addAll AISResources.empty additions))) :
    (addAll AISResources.empty additions).writeDatabase filename true true =
      .ok (xmlDeclaration ++ endl ++ docType ++ endl ++
        (markup (addAll AISResources.empty additions)).print ++ endl) ∧
    ((∀ a ∈ additions, Located a.rv) →
      readDatabase garbage (some doc) (addAll AISResources.empty more) =
        (addAll AISResources.empty (more ++ additions), .ok ())) ∧
    ((∃ a ∈ additions, ¬Located a.rv) →
      ∃ left failure, readDatabase garbage (some doc)
        (addAll AISResources.empty more) = (left, .error failure) ∧
          failure ≠ .undefinedBehaviour) := by
  have ended := @document_takes (addAll AISResources.empty more)
    (addAll AISResources.empty additions)
    (aisStartDocument (initial garbage (addAll AISResources.empty more))) doc.events
    ⟨rfl, rfl, rfl, rfl, rfl⟩ reports.events
  refine ⟨?_, fun located => ?_, fun lost => ?_⟩
  · unfold AISResources.writeDatabase
    rw [print_markup]
    rfl
  · rw [if_pos ((located_listed additions).mpr located)] at ended
    obtain ⟨state, depth, defined, resources⟩ := ended
    rw [addAll_listed] at resources
    simp only [readDatabase, started_eq, aisEndDocument, depth, defined, Bool.false_eq_true, ne_eq, not_true_eq_false, if_false,
      reports.wellFormed, reports.valid, state, resources]
    rfl
  · obtain ⟨a, mem, bad⟩ := lost
    rw [if_neg fun all => bad ((located_listed additions).mp all a mem)] at ended
    obtain ⟨failure, fails⟩ := read_fails garbage doc ended
    exact ⟨_, failure, fails⟩

/-- A URL with a resource to fall back on, and a regular expression with none. -/
def twoAdditions : List Addition :=
  [⟨false, "http://a/b".toList, [{ url := "http://c/d".toList, rule := .fallback }]⟩,
    ⟨true, "http://a/.*".toList, []⟩]

def twoEntries : AISResources := addAll AISResources.empty twoAdditions

/-- The document of a database, all in one line. -/
def documentOf (ais : AISResources) : Document where
  reported := []
  events := (markup ais).events.map fun event => (1, event)
  lastLine := 1
  wellFormed := true
  valid := true

theorem documentOf_reports (ais : AISResources) : Reports (documentOf ais) (markup ais) := by
  refine ⟨rfl, rfl, ?_⟩
  rw [documentOf, List.map_map]
  exact List.map_id _

theorem two_entries_read_back :
    readDatabase false (some (documentOf twoEntries)) AISResources.empty =
      (twoEntries, .ok ()) :=
  (written_read_back false [] twoAdditions "ais.xml".toList (documentOf twoEntries)
    (documentOf_reports twoEntries)).2.1 (by decide)

/-! ## Any document -/

/-- What was read so far are entries whose resources have URLs. -/
def Records (ais : AISResources) (s : ParserState) : Prop :=
  Located s.rv ∧ ∃ recorded : List Addition,
    (∀ a ∈ recorded, Located a.rv) ∧ s.resources = addAll ais recorded

theorem Records.kept {s s' : ParserState} (records : Records ais s) (rv : s'.rv = s.rv)
    (resources : s'.resources = s.resources) : Records ais s' := by
  rw [Records, rv, resources]
  exact records

theorem Records.fatalError {s : ParserState} (records : Records ais s) (line : Int) (msg : Chars) :
    Records ais (aisFatalError line s msg) :=
  records.kept (aisFatalError_kept line s msg).1 (aisFatalError_kept line s msg).2

theorem goTo_records {s : ParserState} (records : Records ais s) (state : ParseState) :
    Records ais (goTo state s) := records.kept rfl rfl

theorem primaryElement_records {s : ParserState} (records : Records ais s) (line : Int)
    (attrs : List (Chars × Chars)) : Records ais (primaryElement line attrs s) := by
  cases attrs with
  | nil => exact records.fatalError line _
  | cons a rest =>
    rw [primaryElement]
    split_ifs <;> exact records.kept rfl rfl

theorem ofName_url {url rule : Chars} {r : Resource} (made : Resource.ofName url rule = .ok r) :
    r.url = url := by
  rw [Resource.ofName] at made
  split_ifs at made <;> cases made <;> rfl

theorem ancillaryElement_records {s : ParserState} (records : Records ais s) (line : Int)
    (attrs : List (Chars × Chars)) : Records ais (ancillaryElement line attrs s) := by
  simp only [ancillaryElement]
  split_ifs with nowhere unknown
  · exact records.fatalError line _
  · exact records.fatalError line _
  · cases made : Resource.ofName (ancillaryAttributes attrs ([], "overwrite".toList)).1
        (ancillaryAttributes attrs ([], "overwrite".toList)).2 with
    | error failure => exact records.kept rfl rfl
    | ok r =>
      refine ⟨fun other mem => ?_, records.2⟩
      obtain old | new := List.mem_append.mp mem
      · exact records.1 other old
      · rw [List.mem_singleton.mp new, ofName_url made]
        exact nowhere

theorem recordEntry_records {s : ParserState} (records : Records ais s) :
    Records ais (recordEntry s) := by
  obtain ⟨located, recorded, all, resources⟩ := records
  refine ⟨List.forall_mem_nil _, recorded ++ [⟨s.regexp, s.primary, s.rv⟩], ?_, ?_⟩
  · intro a mem
    obtain old | new := List.mem_append.mp mem
    · exact all a old
    · rw [List.mem_singleton.mp new]
      exact located
  · rw [addAll_append, ← resources]
    rfl

theorem handle_records {s : ParserState} (records : Records ais s) (line : Int) (event : Event) :
    Records ais (handle line s event) := by
  cases event with
  | fatalError msg => exact records.kept rfl rfl
  | endElement name =>
    rw [handle, aisEndElement]
    cases s.state with
    | entry => exact recordEntry_records (goTo_records records .ais)
    | _ => exact records.kept rfl rfl
  | startElement name attrs =>
    rw [handle, aisStartElement]
    cases s.state with
    | ais =>
      dsimp only
      split_ifs <;> exact records.kept rfl rfl
    | entry =>
      dsimp only
      split_ifs
      · exact primaryElement_records (goTo_records records .primary) line attrs
      · exact ancillaryElement_records (goTo_records records .ancillary) line attrs
      · exact records.kept rfl rfl
    | _ => exact records.kept rfl rfl

theorem handleAll_records {s : ParserState} (records : Records ais s)
    (lined : List (Int × Event)) : Records ais (handleAll lined s) := by
  induction lined generalizing s with
  | nil => exact records
  | cons e rest ih => exact ih (handle_records records e.1 e.2)

/-- No attribute is taken for a format with conversions: none of an ancillary resource has a
percent sign. -/
def RulesPlain : Event → Prop
  | .startElement name attrs =>
    name = "ancillary".toList → ∀ a ∈ attrs, a.1 = "rule".toList → '%' ∉ a.2
  | _ => True

theorem rule_plain : ∀ (attrs : List (Chars × Chars)) (found : Chars × Chars),
    (∀ a ∈ attrs, a.1 = "rule".toList → '%' ∉ a.2) → '%' ∉ found.2 →
      '%' ∉ (ancillaryAttributes attrs found).2
  | [], _, _, plain => plain
  | (name, value) :: rest, (url, rule), all, plain => by
    obtain ⟨first, later⟩ := List.forall_mem_cons.mp all
    rw [ancillaryAttributes]
    apply rule_plain rest _ later
    split_ifs with isUrl isRule
    · exact plain
    · exact first isRule
    · exact plain

theorem handle_defined {s : ParserState} (defined : s.undefined = false) (line : Int)
    {event : Event} (plain : RulesPlain event) : (handle line s event).undefined = false := by
  cases event with
  | fatalError msg => exact defined
  | endElement name =>
    rw [handle, aisEndElement]
    cases s.state <;> exact defined
  | startElement name attrs =>
    rw [handle, aisStartElement]
    cases s.state with
    | ais =>
      dsimp only
      split_ifs <;> exact defined
    | entry =>
      dsimp only
      split_ifs with isPrimary isAncillary
      · cases attrs with
        | nil =>
          rw [primaryElement, aisFatalError_plain (by decide)]
          exact defined
        | cons a rest =>
          rw [primaryElement]
          split_ifs <;> exact defined
      · have rule := rule_plain attrs ([], "overwrite".toList) (plain isAncillary) (by decide)
        simp only [ancillaryElement]
        split_ifs with nowhere unknown
        · rw [aisFatalError_plain (by decide)]
          exact defined
        · rw [aisFatalError_plain ?_]
          · exact defined
          · intro mem
            rcases List.mem_append.mp mem with mem | mem
            · rcases List.mem_append.mp mem with mem | mem
              · exact absurd mem (by decide)
              · exact rule mem
            · exact absurd mem (by decide)
        · cases Resource.ofName (ancillaryAttributes attrs ([], "overwrite".toList)).1
            (ancillaryAttributes attrs ([], "overwrite".toList)).2 <;> exact defined
      · exact defined
    | _ => exact defined

theorem handleAll_defined {s : ParserState} (defined : s.undefined = false)
    (lined : List (Int × Event)) (plain : ∀ e ∈ lined, RulesPlain e.2) :
    (handleAll lined s).undefined = false := by
  induction lined generalizing s with
  | nil => exact defined
  | cons e rest ih =>
    obtain ⟨first, later⟩ := List.forall_mem_cons.mp plain
    exact ih (handle_defined defined e.1 first) later

/-- Whatever a document is, if none of its rules has a percent sign: to read it is to add entries
whose resources have URLs, none of them after the first error behind the start of the document,
which makes the reading fail. -/
theorem any_document (garbage : Bool) (doc : Document) (ais : AISResources)
    (plain : ∀ e ∈ doc.events, RulesPlain e.2) :
    (∃ recorded : List Addition, (∀ a ∈ recorded, Located a.rv) ∧
      (readDatabase garbage (some doc) ais).1 = addAll ais recorded) ∧
    (readDatabase garbage (some doc) ais).2 ≠ .error .undefinedBehaviour ∧
    ∀ before after : List (Int × Event), doc.events = before ++ after →
      (handleAll before (aisStartDocument (initial garbage ais))).state = .error →
      ∃ failure, readDatabase garbage (some doc) ais =
        ((handleAll before (aisStartDocument (initial garbage ais))).resources,
          .error failure) := by
  have start : (aisStartDocument (initial garbage ais)).undefined = false := rfl
  refine ⟨?_, ?_, ?_⟩
  · have begun : Records ais (aisStartDocument (initial garbage ais)) :=
      ⟨List.forall_mem_nil _, [], List.forall_mem_nil _, rfl⟩
    obtain ⟨_, recorded, located, resources⟩ := handleAll_records begun doc.events
    refine ⟨recorded, located, ?_⟩
    rw [← resources]
    simp only [readDatabase, started_eq, aisEndDocument]
    split_ifs
    · rw [aisFatalError_plain (by decide)]
      rfl
    · rfl
  · have defined := handleAll_defined start doc.events plain
    have ended : (aisEndDocument doc.lastLine
        (handleAll doc.events (aisStartDocument (initial garbage ais)))).undefined = false := by
      rw [aisEndDocument]
      split_ifs
      · rw [aisFatalError_plain (by decide)]
        exact defined
      · exact defined
    simp only [readDatabase, started_eq, ended, Bool.false_eq_true, if_false]
    split_ifs <;> simp [readFailed]
  · intro before after split failed
    have whole : handleAll doc.events (aisStartDocument (initial garbage ais)) =
        handleAll after (handleAll before (aisStartDocument (initial garbage ais))) := by
      rw [split, handleAll, List.foldl_append]
      rfl
    have defined := handleAll_defined start before fun e mem =>
      plain e (split ▸ List.mem_append_left after mem)
    obtain ⟨still, kept⟩ := error_stays ⟨failed, defined⟩ after
    rw [← whole] at still kept
    obtain ⟨failure, fails, -⟩ := read_fails garbage doc still
    exact ⟨failure, by rw [fails, kept]⟩

/-- A primary resource without an attribute in front of an ancillary one. -/
def noPrimary : List (Int × Event) :=
  [(1, .startElement "ais".toList []), (2, .startElement "entry".toList []),
    (3, .startElement "primary".toList [])]

/-- Its XML declaration has a version that the XML parser warns of. -/
def noPrimaryDocument : Document where
  reported := [(1, "Unsupported version".toList)]
  events := noPrimary ++ [(3, .endElement "primary".toList)]
  lastLine := 9
  wellFormed := true
  valid := true

theorem noPrimary_plain : ∀ e ∈ noPrimaryDocument.events, RulesPlain e.2 := by
  intro e mem
  fin_cases mem
  · exact fun other => absurd other (by decide)
  · exact fun other => absurd other (by decide)
  · exact fun other => absurd other (by decide)
  · trivial

theorem no_primary_fails :
    ∃ failure, readDatabase false (some noPrimaryDocument) twoEntries =
      (twoEntries, .error failure) :=
  (any_document false noPrimaryDocument twoEntries noPrimary_plain).2.2 noPrimary
    [(3, .endElement "primary".toList)] rfl (by decide)

end Libdap.Guarantees.AISReading
