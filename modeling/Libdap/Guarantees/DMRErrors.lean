import Libdap.Guarantees.DMRTables
import Libdap.Source.D4ParserNamespaces
import Libdap.Library.Outcome

/-!
# Malformed DMR documents

Each state on the stack stands for a variable, a table or none on the other two. What lies above
an error still has its variables and tables, and the error comes to the top again when it is
gone. Of the element that ends an `OtherXML` attribute the namespace must not be null.
-/
namespace Libdap.Guarantees.DMRErrors
open Libdap.Source Libdap.Source.D4ParserSax2
open Libdap.Source.DMR hiding Event
open Libdap.Source.D4ParserNamespaces
open HTTPCacheTable (Chars)
open Attributes (typeToString stringToType nameError)
open DDXParserSAX2 (StartTag SaxAttribute Event)
open DMRTables
open Variables (VarType)
open Libdap.Library

/-! ## Tables -/

/-- The containers of the one table are in the other, at their positions. -/
def Extends (here new : List Attribute) : Prop :=
  ∀ (i : Nat) name entries, here[i]? = some (Attribute.container name entries) →
    new[i]? = some (.container name entries)

/-- No value below the table has a pointer that was never set. -/
def Whole (table : List Attribute) : Prop :=
  ∀ way here, tableAt way table = some here → ∀ name type, .values name type none ∉ here

/-- Every way into the one table leads into the other. -/
def Keeps (table new : List Attribute) : Prop :=
  ∀ way, (tableAt way table).isSome → (tableAt way new).isSome

theorem Keeps.refl (table : List Attribute) : Keeps table table := fun _ some' => some'

theorem Extends.append (here more : List Attribute) : Extends here (here ++ more) := by
  intro i name entries at_i
  rw [List.getElem?_append_left (List.getElem?_eq_some_iff.mp at_i).1]
  exact at_i

theorem Extends.keeps {here new : List Attribute} (extends' : Extends here new) :
    Keeps here new := by
  intro way some'
  cases way with
  | nil => rfl
  | cons i way =>
    obtain ⟨table, found⟩ := Option.isSome_iff_exists.mp some'
    obtain ⟨name, entries, at_i, below⟩ := tableAt_cons found
    rw [tableAt_into (extends' i name entries at_i), below]
    rfl

theorem put_keeps {here new : List Attribute} (keeps : Keeps here new) {way : List Nat}
    {table : List Attribute} (found : tableAt way table = some here) :
    Keeps table (put way table new) := by
  induction way generalizing table with
  | nil =>
    obtain rfl := Option.some.inj found
    exact keeps
  | cons i way ih =>
    obtain ⟨name, entries, at_i, below⟩ := tableAt_cons found
    rw [put_into at_i]
    intro other some'
    cases other with
    | nil => rfl
    | cons j other =>
      obtain ⟨table', found'⟩ := Option.isSome_iff_exists.mp some'
      obtain ⟨name', entries', at_j, below'⟩ := tableAt_cons found'
      by_cases same : j = i
      · subst same
        cases at_i.symm.trans at_j
        rw [tableAt_into (set_into at_i _)]
        exact ih below other (by rw [below']; rfl)
      · have kept : (table.set i (.container name (put way entries new)))[j]? =
            some (.container name' entries') := by
          rw [List.getElem?_set_ne (Ne.symm same)]
          exact at_j
        rw [tableAt_into kept, below']
        rfl

theorem whole_iff (table : List Attribute) : Whole table ↔
    (∀ name type, .values name type none ∉ table) ∧
      ∀ (i : Nat) name entries, table[i]? = some (Attribute.container name entries) →
        Whole entries := by
  constructor
  · intro whole
    refine ⟨fun name type => whole [] table rfl name type, ?_⟩
    intro i name entries at_i way here found
    exact whole (i :: way) here (by rw [tableAt_into at_i, found])
  · rintro ⟨set', inner⟩ way here found
    cases way with
    | nil =>
      obtain rfl := Option.some.inj found
      exact set'
    | cons i way =>
      obtain ⟨name, entries, at_i, below⟩ := tableAt_cons found
      exact inner i name entries at_i way here below

/-- The entry's values are there, or the table under it is whole. -/
def WholeEntry : Attribute → Prop
  | .values _ _ attr => attr ≠ none
  | .container _ entries => Whole entries

theorem whole_forall (table : List Attribute) : Whole table ↔ ∀ e ∈ table, WholeEntry e := by
  rw [whole_iff]
  constructor
  · rintro ⟨set', inner⟩ e member
    cases e with
    | values name type attr =>
      rintro rfl
      exact set' name type member
    | container name entries =>
      obtain ⟨i, at_i⟩ := List.getElem?_of_mem member
      exact inner i name entries at_i
  · intro each
    exact ⟨fun name type member => each _ member rfl,
      fun i name entries at_i => each _ (List.mem_of_getElem? at_i)⟩

theorem whole_cons (e : Attribute) (table : List Attribute) :
    Whole (e :: table) ↔ WholeEntry e ∧ Whole table := by
  rw [whole_forall, whole_forall, List.forall_mem_cons]

theorem Whole.below {table here : List Attribute} {way : List Nat} (whole : Whole table)
    (found : tableAt way table = some here) : Whole here := by
  induction way generalizing table with
  | nil =>
    obtain rfl := Option.some.inj found
    exact whole
  | cons i way ih =>
    obtain ⟨name, entries, at_i, below⟩ := tableAt_cons found
    exact ih (((whole_iff table).mp whole).2 i name entries at_i) below

theorem whole_nil : Whole [] :=
  (whole_iff []).mpr ⟨by simp, by simp⟩

theorem put_whole {here new : List Attribute} (whole' : Whole new) {way : List Nat}
    {table : List Attribute} (whole : Whole table) (found : tableAt way table = some here) :
    Whole (put way table new) := by
  induction way generalizing table with
  | nil => exact whole'
  | cons i way ih =>
    obtain ⟨name, entries, at_i, below⟩ := tableAt_cons found
    have each := (whole_forall table).mp whole
    have changed := ih (each _ (List.mem_of_getElem? at_i)) below
    rw [put_into at_i, whole_forall]
    intro e member
    rcases List.mem_or_eq_of_mem_set member with old | rfl
    · exact each e old
    · exact changed

theorem whole_append {table : List Attribute} {e : Attribute} (whole : Whole table)
    (set' : WholeEntry e) : Whole (table ++ [e]) := by
  rw [whole_forall, List.forall_mem_append]
  exact ⟨(whole_forall table).mp whole, List.forall_mem_singleton.mpr set'⟩

/-- A change of a table that stays within it, or an exception. -/
def Grows (here : List Attribute) : Except Failure (List Attribute) → Prop
  | .ok new => Extends here new ∧ Whole new
  | .error failure => failure ≠ .undefinedBehaviour

theorem appendContainer_grows {table : List Attribute} (whole : Whole table) (name : String) :
    Grows table (DMR.appendContainer table name) := by
  unfold DMR.appendContainer
  split
  · simp [Grows, nameError]
  · exact ⟨Extends.append table _, whole_append whole whole_nil⟩

theorem Extends.cons {first first' : Attribute} {here new : List Attribute}
    (same : ∀ name entries, first = .container name entries → first' = first)
    (extends' : Extends here new) : Extends (first :: here) (first' :: new) := by
  intro i name entries at_i
  cases i with
  | zero =>
    obtain rfl := Option.some.inj at_i
    rw [same name entries rfl]
    rfl
  | succ i => exact extends' i name entries at_i

theorem Extends.refl (here : List Attribute) : Extends here here := fun _ _ _ at_i => at_i

/-- The value goes to the first entry of the name, if that is no container. -/
theorem pushValue_grows {name value : String} {table : List Attribute} {e : Attribute}
    (found : table.find? (fun e => e.name = name) = some e) (values : e.type ≠ .container)
    (whole : Whole table) : Grows table (pushValue name value table) := by
  induction table with
  | nil => cases found
  | cons first rest ih =>
    obtain ⟨set', wholeRest⟩ := (whole_cons first rest).mp whole
    rw [pushValue]
    by_cases same : first.name = name
    · rw [List.find?_cons_of_pos (by simpa using same)] at found
      cases found
      rw [if_pos same]
      cases e with
      | container n entries => exact absurd rfl values
      | values n type attr =>
        cases attr with
        | none => exact absurd rfl set'
        | some attr =>
          refine ⟨.cons (fun _ _ container => ?_) (.refl rest),
            (whole_cons _ rest).mpr ⟨Option.some_ne_none _, wholeRest⟩⟩
          cases container
    · rw [List.find?_cons_of_neg (by simpa using same)] at found
      have rest' := ih found wholeRest
      rw [if_neg same]
      cases pushed : pushValue name value rest with
      | error failure =>
        rw [pushed] at rest'
        exact rest'
      | ok new =>
        rw [pushed] at rest'
        obtain ⟨extends', whole'⟩ := rest'
        exact ⟨.cons (fun _ _ _ => rfl) extends', (whole_cons first new).mpr ⟨set', whole'⟩⟩

theorem appendAttr_grows {table : List Attribute} (whole : Whole table)
    (name type value : String) : Grows table (appendAttr table name type value) := by
  unfold appendAttr
  dsimp only
  split
  · rename_i e found
    split
    · simp [Grows, nameError]
    · split
      · simp [Grows, nameError]
      · rename_i values
        apply pushValue_grows found _ whole
        intro container
        rw [container] at values
        exact values rfl
  · exact ⟨Extends.append table _, whole_append whole (Option.some_ne_none _)⟩

/-! ## What is on the stacks -/

/-- The table on top of the one stack belongs to the variable on top of the other. -/
def Table (bts : List BaseType) (ats : List Place) : Prop :=
  ∃ b bs place below, bts = b :: bs ∧ ats = place :: below ∧ place.level = bs.length ∧
    (tableAt place.way b.attr).isSome

/-- The variables below those a state stands for. -/
def variablesBelow : ParseState → List BaseType → List BaseType
  | .insideSimpleType, bts | .insideConstructor, bts | .insideSequence, bts => bts.tail
  | _, bts => bts

def tablesBelow : ParseState → List Place → List Place
  | .insideSimpleType, ats | .insideConstructor, ats | .insideSequence, ats
  | .insideAttributeContainer, ats => ats.tail
  | _, ats => ats

/-- What the states ask of the other stacks, down to an error. At the bottom is the variable of
the root element, once that was started. -/
def Fits (started : Prop) : List ParseState → List BaseType → List Place → Prop
  | [], _, _ => False
  | state :: s, bts, ats =>
    state = .parserError ∨
      (state = .parserStart ∧ s = [] ∧ (started → bts ≠ [])) ∨
      (state ≠ .parserStart ∧ Table bts ats ∧
        Table (variablesBelow state bts) (tablesBelow state ats) ∧
        Fits started s (variablesBelow state bts) (tablesBelow state ats))

/-- `called` is for an error before the part of the run that is looked at. -/
structure Inv (started called : Prop) (p : Parser) : Prop where
  fits : Fits started p.s p.btStack p.atStack
  whole : ∀ b ∈ p.btStack, Whole b.attr
  defined : ParseState.insideEnumDef ∈ p.s ∨ ParseState.insideEnumConst ∈ p.s →
    p.enumDef.isSome
  recorded : called ∨ p.errorMsg ≠ [] → ParseState.parserError ∈ p.s

theorem Table.nonempty {bts : List BaseType} {ats : List Place} (table : Table bts ats) :
    bts ≠ [] := by
  obtain ⟨b, bs, -, -, rfl, -⟩ := table
  exact List.cons_ne_nil b bs

section
variable {started : Prop} {state : ParseState} {s : List ParseState} {bts : List BaseType}
  {ats : List Place}

theorem Fits.inside (fits : Fits started (state :: s) bts ats) (error : state ≠ .parserError)
    (start : state ≠ .parserStart) : Table bts ats ∧
      Table (variablesBelow state bts) (tablesBelow state ats) ∧
      Fits started s (variablesBelow state bts) (tablesBelow state ats) := by
  rcases fits with same | ⟨same, -⟩ | ⟨-, inside⟩
  · exact absurd same error
  · exact absurd same start
  · exact inside

theorem Fits.begun (fits : Fits started s bts ats) (some' : bts ≠ []) : Fits True s bts ats := by
  induction s generalizing bts ats with
  | nil => exact fits
  | cons state s ih =>
    rcases fits with same | ⟨same, none', -⟩ | ⟨other, table, below, fits⟩
    · exact Or.inl same
    · exact Or.inr (Or.inl ⟨same, none', fun _ => some'⟩)
    · exact Or.inr (Or.inr ⟨other, table, below, ih fits below.nonempty⟩)

/-- The variable on top may get a table with more in it. -/
theorem Table.keep {b b' : BaseType} {bs : List BaseType} (table : Table (b :: bs) ats)
    (keeps : Keeps b.attr b'.attr) : Table (b' :: bs) ats := by
  obtain ⟨_, _, place, below, same, rfl, level, some'⟩ := table
  cases same
  exact ⟨b', bs, place, below, rfl, rfl, level, keeps _ some'⟩

theorem Fits.keep {b b' : BaseType} {bs : List BaseType} (fits : Fits started s (b :: bs) ats)
    (keeps : Keeps b.attr b'.attr) : Fits started s (b' :: bs) ats := by
  induction s generalizing ats with
  | nil => exact fits
  | cons state s ih =>
    rcases fits with same | ⟨same, none', -⟩ | ⟨other, table, below, fits⟩
    · exact Or.inl same
    · exact Or.inr (Or.inl ⟨same, none', fun _ => List.cons_ne_nil _ _⟩)
    · refine Or.inr (Or.inr ⟨other, table.keep keeps, ?_⟩)
      cases state <;> first
        | exact ⟨below, fits⟩
        | exact ⟨below.keep keeps, ih fits⟩

end

/-! ## One callback -/

/-- The callback keeps the stacks in order, or a table throws. -/
def Fine (started called : Prop) : Except Failure Parser → Prop
  | .ok p => Inv started called p
  | .error failure => failure ≠ .undefinedBehaviour

section
variable {started called : Prop} {p : Parser} {state : ParseState} {s : List ParseState}

/-- The table on top, with what it holds. -/
theorem Table.onTop (table : Table p.btStack p.atStack) :
    ∃ b bs way here below, OnTop p b bs way here ∧ p.atStack = ⟨bs.length, way⟩ :: below := by
  obtain ⟨b, bs, ⟨level, way⟩, below, stack, places, same, some'⟩ := table
  obtain ⟨here, found⟩ := Option.isSome_iff_exists.mp some'
  simp only at same found
  subst same
  exact ⟨b, bs, way, here, below, ⟨stack, ⟨below, places⟩, found⟩, places⟩

theorem Inv.fatalError (inv : Inv started called p) (msg : String) :
    Inv started called (p.fatalError msg) where
  fits := Or.inl rfl
  whole := inv.whole
  defined := by
    rintro (member | member)
    · exact inv.defined (Or.inl ((List.mem_cons.mp member).resolve_left (by decide)))
    · exact inv.defined (Or.inr ((List.mem_cons.mp member).resolve_left (by decide)))
  recorded := fun _ => List.mem_cons_self ..

theorem Inv.begun (inv : Inv started called p) (some' : p.btStack ≠ []) : Inv True called p :=
  { inv with fits := inv.fits.begun some' }

/-- A state above the one that is on top, with what it stands for. -/
theorem Inv.opened {q : Parser} (inv : Inv started called p) (start : state ≠ .parserStart)
    (states : q.s = state :: p.s) (stack : variablesBelow state q.btStack = p.btStack)
    (places : tablesBelow state q.atStack = p.atStack) (table : Table q.btStack q.atStack)
    (below : Table p.btStack p.atStack) (whole : ∀ b ∈ q.btStack, Whole b.attr)
    (messages : q.errorMsg = p.errorMsg)
    (enum : state = .insideEnumDef ∨ state = .insideEnumConst ∨ p.enumDef.isSome →
      q.enumDef.isSome) : Inv started called q where
  fits := by
    rw [states]
    refine Or.inr (Or.inr ⟨start, table, ?_⟩)
    rw [stack, places]
    exact ⟨below, inv.fits⟩
  whole := whole
  defined := by
    rw [states]
    intro member
    apply enum
    rcases member with member | member
    · rcases List.mem_cons.mp member with same | inside
      · exact Or.inl same.symm
      · exact Or.inr (Or.inr (inv.defined (Or.inl inside)))
    · rcases List.mem_cons.mp member with same | inside
      · exact Or.inr (Or.inl same.symm)
      · exact Or.inr (Or.inr (inv.defined (Or.inr inside)))
  recorded := by
    rw [states, messages]
    intro some'
    exact List.mem_cons_of_mem _ (inv.recorded some')

/-- A state that stands for nothing on the other stacks. -/
theorem Inv.push (inv : Inv started called p) (start : state ≠ .parserStart)
    (stack : variablesBelow state p.btStack = p.btStack)
    (places : tablesBelow state p.atStack = p.atStack) (table : Table p.btStack p.atStack)
    (enum : state = .insideEnumDef ∨ state = .insideEnumConst → p.enumDef.isSome) :
    Inv started called (p.setState state) := by
  apply inv.opened (q := p.setState state) start rfl stack places table table inv.whole rfl
  rintro (same | same | some')
  · exact enum (Or.inl same)
  · exact enum (Or.inr same)
  · exact some'

/-- The end of a state, with what it stands for. -/
theorem Inv.pop (inv : Inv started called p) (top : p.s = state :: s) (error : state ≠ .parserError)
    (start : state ≠ .parserStart) :
    Inv started called { p.popState with
      btStack := variablesBelow state p.btStack, atStack := tablesBelow state p.atStack } ∧
    Table p.btStack p.atStack ∧
    Table (variablesBelow state p.btStack) (tablesBelow state p.atStack) := by
  have fits := inv.fits
  rw [top] at fits
  obtain ⟨table, below, fits⟩ := fits.inside error start
  have tail : p.popState.s = s := by simp [Parser.popState, top]
  refine ⟨⟨?_, ?_, ?_, ?_⟩, table, below⟩
  · show Fits started p.popState.s _ _
    rw [tail]
    exact fits
  · intro b member
    apply inv.whole
    cases state <;> first
      | exact member
      | exact List.mem_of_mem_tail member
  · show ParseState.insideEnumDef ∈ p.popState.s ∨ ParseState.insideEnumConst ∈ p.popState.s → _
    rw [tail]
    intro member
    apply inv.defined
    rw [top]
    exact member.imp (List.mem_cons_of_mem _) (List.mem_cons_of_mem _)
  · intro some'
    have member := inv.recorded some'
    show ParseState.parserError ∈ p.popState.s
    rw [top] at member
    rw [tail]
    exact (List.mem_cons.mp member).resolve_left (Ne.symm error)

/-- The variable on top with a table that has grown. -/
theorem Inv.setTop (inv : Inv started called p) {b b' : BaseType} {bs : List BaseType}
    (stack : p.btStack = b :: bs) (keeps : Keeps b.attr b'.attr) (whole : Whole b'.attr) :
    Inv started called { p with btStack := b' :: bs } where
  fits := by
    have fits := inv.fits
    rw [stack] at fits
    exact fits.keep keeps
  whole := by
    intro other member
    rcases List.mem_cons.mp member with rfl | below
    · exact whole
    · exact inv.whole other (stack ▸ List.mem_cons_of_mem _ below)
  defined := inv.defined
  recorded := inv.recorded

theorem changeAt_error {f : List Attribute → Except Failure (List Attribute)}
    {here : List Attribute} {failure : Failure} (failed : f here = .error failure)
    {way : List Nat} {table : List Attribute} (found : tableAt way table = some here) :
    changeAt f way table = .error failure := by
  induction way generalizing table with
  | nil =>
    obtain rfl := Option.some.inj found
    exact failed
  | cons i way ih =>
    obtain ⟨name, entries, at_i, below⟩ := tableAt_cons found
    rw [changeAt, at_i]
    dsimp only
    rw [ih below]
    rfl

theorem changeTable_error {b : BaseType} {bs : List BaseType} {way : List Nat}
    {here : List Attribute} (top : OnTop p b bs way here)
    {f : List Attribute → Except Failure (List Attribute)} {failure : Failure}
    (failed : f here = .error failure) : p.changeTable f = .error failure := by
  unfold Parser.changeTable
  rw [top.topTable]
  change (changeAt f way b.attr >>= fun table =>
    pure { p with btStack := p.btStack.set 0 (b.setAttr table) }) = _
  rw [changeAt_error failed top.table]
  rfl

theorem withTable_grown {b : BaseType} {way : List Nat} {here new : List Attribute}
    (found : tableAt way b.attr = some here) (whole : Whole b.attr)
    (grown : Extends here new ∧ Whole new) :
    Keeps b.attr (withTable b way new).attr ∧ Whole (withTable b way new).attr := by
  unfold withTable
  rw [setAttr_attr]
  exact ⟨put_keeps grown.1.keeps found, put_whole grown.2 whole found⟩

/-- A change of the table on top that lets it grow. -/
theorem changeTable_fine (inv : Inv started called p) (table : Table p.btStack p.atStack)
    {f : List Attribute → Except Failure (List Attribute)}
    (grows : ∀ here, Whole here → Grows here (f here)) : Fine started called (p.changeTable f) := by
  obtain ⟨b, bs, way, here, below, top, -⟩ := table.onTop
  have whole := inv.whole b (top.stack ▸ List.mem_cons_self ..)
  have grown := grows here (whole.below top.table)
  cases done : f here with
  | error failure =>
    rw [done] at grown
    rw [changeTable_error top done]
    exact grown
  | ok new =>
    rw [done] at grown
    rw [top.changeTable done]
    obtain ⟨kept, wholeTop⟩ := withTable_grown top.table whole grown
    exact inv.setTop top.stack kept wholeTop

end

/-! ## Elements that start -/

section
variable {started called : Prop} {p : Parser} {state : ParseState} {s : List ParseState}

theorem fine_fatal (inv : Inv started called p) (msg : String) :
    Fine started called (.ok (p.fatalError msg)) := inv.fatalError msg

/-- A check of an attribute records an error at most. -/
theorem checkRequiredAttribute_cases (p : Parser) (name : String) :
    p.checkRequiredAttribute name = p ∨
      ∃ msg, p.checkRequiredAttribute name = p.fatalError msg := by
  unfold Parser.checkRequiredAttribute
  split
  · exact Or.inl rfl
  · exact Or.inr ⟨_, rfl⟩

theorem Inv.checked (inv : Inv started called p) (name : String) :
    Inv started called (p.checkRequiredAttribute name) := by
  obtain same | ⟨msg, same⟩ := checkRequiredAttribute_cases p name
  · rw [same]
    exact inv
  · rw [same]
    exact inv.fatalError msg

/-- The stacks of variables and tables stay as they are, and so does the Enumeration. -/
theorem checkRequiredAttribute_stacks (p : Parser) (name : String) :
    (p.checkRequiredAttribute name).btStack = p.btStack ∧
      (p.checkRequiredAttribute name).atStack = p.atStack ∧
      (p.checkRequiredAttribute name).enumDef = p.enumDef := by
  obtain same | ⟨msg, same⟩ := checkRequiredAttribute_cases p name <;> rw [same] <;>
    exact ⟨rfl, rfl, rfl⟩

/-- The attributes of an element with two that it must have. -/
def read (p : Parser) (attributes : List (String × String)) (first second : String) : Parser :=
  ((p.transferXmlAttrs attributes).checkRequiredAttribute first).checkRequiredAttribute second

theorem Inv.read (inv : Inv started called p) (attributes : List (String × String))
    (first second : String) : Inv started called (read p attributes first second) := by
  have transferred : Inv started called (p.transferXmlAttrs attributes) :=
    ⟨inv.fits, inv.whole, inv.defined, inv.recorded⟩
  exact (transferred.checked first).checked second

theorem read_stacks (p : Parser) (attributes : List (String × String)) (first second : String) :
    (read p attributes first second).btStack = p.btStack ∧
      (read p attributes first second).atStack = p.atStack ∧
      (read p attributes first second).enumDef = p.enumDef := by
  obtain ⟨stack, places, enum⟩ :=
    checkRequiredAttribute_stacks (p.transferXmlAttrs attributes) first
  obtain ⟨stack', places', enum'⟩ := checkRequiredAttribute_stacks
    ((p.transferXmlAttrs attributes).checkRequiredAttribute first) second
  exact ⟨stack'.trans stack, places'.trans places, enum'.trans enum⟩

theorem Table.read (table : Table p.btStack p.atStack) (attributes : List (String × String))
    (first second : String) : Table (read p attributes first second).btStack
      (DMRErrors.read p attributes first second).atStack := by
  obtain ⟨stack, places, -⟩ := read_stacks p attributes first second
  rw [stack, places]
  exact table

theorem appendContainer_fine (inv : Inv started called p) (table : Table p.btStack p.atStack)
    (name : String) :
    Fine started called ((p.setState .insideAttributeContainer).appendContainer name) := by
  obtain ⟨b, bs, way, here, below, top, places⟩ := table.onTop
  have top' : OnTop (p.setState .insideAttributeContainer) b bs way here :=
    ⟨top.stack, top.place, top.table⟩
  have whole := inv.whole b (top.stack ▸ List.mem_cons_self ..)
  have grown := appendContainer_grows (whole.below top.table) name
  cases done : DMR.appendContainer here name with
  | error failure =>
    rw [done] at grown
    unfold Parser.appendContainer
    simp only [top'.topTable, bind, Except.bind, top'.table]
    rw [changeTable_error top' done]
    exact grown
  | ok new =>
    rw [done] at grown
    obtain ⟨kept, wholeTop⟩ := withTable_grown top.table whole grown
    have inv' := inv.setTop top.stack kept wholeTop
    have last : new[here.length]? = some (.container (removeSpaces name) []) := by
      unfold DMR.appendContainer at done
      split at done
      · cases done
      · cases done
        exact List.getElem?_concat_length
    have under : Table (withTable b way new :: bs) p.atStack := by
      have table' := table
      rw [top.stack] at table'
      exact table'.keep kept
    rw [top'.appendContainer done]
    have found : tableAt way (withTable b way new).attr = some new := by
      unfold withTable
      rw [setAttr_attr]
      exact tableAt_put top.table
    have inside : (tableAt (way ++ [here.length]) (withTable b way new).attr).isSome := by
      rw [tableAt_below last found]
      rfl
    show Inv started called _
    refine inv'.opened (by decide : ParseState.insideAttributeContainer ≠ .parserStart) rfl rfl rfl
      ⟨_, bs, _, p.atStack, rfl, rfl, rfl, inside⟩ under inv'.whole rfl ?_
    rintro (same | same | some')
    · cases same
    · cases same
    · exact some'

/-- An Attribute element. -/
theorem processAttributeHelper_fine (inv : Inv started called p) (table : Table p.btStack p.atStack)
    (attributes : List (String × String)) :
    Fine started called (p.processAttributeHelper attributes) := by
  have inv' := inv.read attributes "name" "type"
  have table' := table.read attributes "name" "type"
  unfold Parser.processAttributeHelper
  dsimp only
  split
  · exact appendContainer_fine inv' table' _
  · split
    · have pushed := inv'.push (by decide : ParseState.insideOtherXmlAttribute ≠ .parserStart)
        rfl rfl table' (by simp)
      exact ⟨pushed.fits, pushed.whole, pushed.defined, pushed.recorded⟩
    · have pushed := inv'.push (by decide : ParseState.insideAttribute ≠ .parserStart)
        rfl rfl table' (by simp)
      exact ⟨pushed.fits, pushed.whole, pushed.defined, pushed.recorded⟩

theorem Inv.setEnum (inv : Inv started called p) (e : Groups.D4EnumDef) :
    Inv started called { p with enumDef := some e } :=
  ⟨inv.fits, inv.whole, fun _ => rfl, inv.recorded⟩

/-- An Enumeration element. -/
theorem processEnumDefHelper_fine (inv : Inv started called p) (table : Table p.btStack p.atStack)
    (attributes : List (String × String)) :
    Fine started called (p.processEnumDefHelper attributes) := by
  have inv' := inv.read attributes "name" "basetype"
  have table' := table.read attributes "name" "basetype"
  unfold Parser.processEnumDefHelper
  dsimp only
  show Inv started called _
  split
  · exact (inv'.setEnum _).push (by decide) rfl rfl table' (fun _ => rfl)
  · exact ((inv'.fatalError _).setEnum _).push (by decide) rfl rfl table' (fun _ => rfl)

/-- An EnumConst element, inside an Enumeration. -/
theorem processEnumConstHelper_fine (inv : Inv started called p) (table : Table p.btStack p.atStack)
    (some' : p.enumDef.isSome) (attributes : List (String × String)) :
    Fine started called (p.processEnumConstHelper attributes) := by
  have inv' := inv.read attributes "name" "value"
  have table' := table.read attributes "name" "value"
  have enum : (DMRErrors.read p attributes "name" "value").enumDef.isSome := by
    rw [(read_stacks p attributes "name" "value").2.2]
    exact some'
  unfold Parser.processEnumConstHelper
  dsimp only
  split
  · exact (inv'.fatalError _).push (by decide) rfl rfl table' (fun _ => enum)
  · split
    · next none' =>
      unfold DMRErrors.read at enum
      rw [none'] at enum
      cases enum
    · split
      · exact (inv'.setEnum _).push (by decide) rfl rfl table' (fun _ => rfl)
      · exact (inv'.fatalError _).push (by decide) rfl rfl table' (fun _ => enum)

theorem factory_some {t : VarType} (null : t ≠ .null) (enum : t ≠ .enum) (name : String) :
    factory t name = some (.mk t name [] [] []) := by
  cases t <;> first | rfl | exact absurd rfl null | exact absurd rfl enum

theorem getType_ne_enum (tag : String) : getType tag ≠ .enum := by
  have either : ∀ {P : Prop} [Decidable P] {t t' : VarType}, t ≠ .enum → t' ≠ .enum →
      (if P then t else t') ≠ .enum := by
    intro P _ t t' first second
    split
    · exact first
    · exact second
  unfold getType
  repeat' apply either
  all_goals decide

theorem Table.fresh (t : VarType) (name : String) (bts : List BaseType) (ats : List Place) :
    Table (.mk t name [] [] [] :: bts) (⟨bts.length, []⟩ :: ats) :=
  ⟨_, bts, _, ats, rfl, rfl, rfl, rfl⟩

theorem whole_fresh (inv : Inv started called p) (t : VarType) (name : String) :
    ∀ b ∈ BaseType.mk t name [] [] [] :: p.btStack, Whole b.attr := by
  intro b member
  rcases List.mem_cons.mp member with rfl | below
  · exact whole_nil
  · exact inv.whole b below

/-- The element of a variable. -/
theorem processVariableHelper_fine (inv : Inv started called p) (table : Table p.btStack p.atStack)
    {t : VarType} (null : t ≠ .null) (enum : t ≠ .enum)
    (variable' : state = .insideSimpleType ∨ state = .insideConstructor ∨ state = .insideSequence)
    (attributes : List (String × String)) :
    Fine started called (p.processVariableHelper t state attributes) := by
  have start : state ≠ .parserStart := by
    rintro rfl
    simp at variable'
  have opened : ∀ name, Inv started called { (p.transferXmlAttrs attributes).setState state with
      btStack := .mk t name [] [] [] :: p.btStack
      atStack := ⟨p.btStack.length, []⟩ :: p.atStack } := by
    intro name
    refine inv.opened start rfl ?_ ?_ (Table.fresh t name _ _) table (whole_fresh inv t name)
      rfl ?_
    · rcases variable' with rfl | rfl | rfl <;> rfl
    · rcases variable' with rfl | rfl | rfl <;> rfl
    · rintro (rfl | rfl | some')
      · simp at variable'
      · simp at variable'
      · exact some'
  unfold Parser.processVariableHelper
  simp only [factory_some null enum]
  obtain same | ⟨msg, same⟩ :=
    checkRequiredAttribute_cases ((p.transferXmlAttrs attributes).setState state) "name"
  · rw [same]
    exact opened _
  · rw [same]
    exact (opened _).fatalError msg

theorem processVariable_fine (inv : Inv started called p) (table : Table p.btStack p.atStack)
    {tag : String} {attributes : List (String × String)} {r : Except Failure Parser}
    (done : p.processVariable tag attributes = some r) : Fine started called r := by
  unfold Parser.processVariable at done
  split at done
  · next simple =>
    cases done
    have null : getType tag ≠ .null := by
      intro same
      rw [same] at simple
      cases simple
    exact processVariableHelper_fine inv table null (getType_ne_enum tag) (Or.inl rfl) attributes
  · split at done
    · cases done
      exact processVariableHelper_fine inv table (by decide) (by decide) (Or.inr (Or.inl rfl))
        attributes
    · split at done
      · cases done
        exact processVariableHelper_fine inv table (by decide) (by decide)
          (Or.inr (Or.inr rfl)) attributes
      · cases done

theorem processAttribute_fine (inv : Inv started called p) (table : Table p.btStack p.atStack)
    {tag : String} {attributes : List (String × String)} {r : Except Failure Parser}
    (done : p.processAttribute tag attributes = some r) : Fine started called r := by
  unfold Parser.processAttribute at done
  split at done
  · cases done
    exact processAttributeHelper_fine inv table attributes
  · cases done

theorem processEnumDef_fine (inv : Inv started called p) (table : Table p.btStack p.atStack)
    {tag : String} {attributes : List (String × String)} {r : Except Failure Parser}
    (done : p.processEnumDef tag attributes = some r) : Fine started called r := by
  unfold Parser.processEnumDef at done
  split at done
  · cases done
    exact processEnumDefHelper_fine inv table attributes
  · cases done

theorem processEnumConst_fine (inv : Inv started called p) (table : Table p.btStack p.atStack)
    (some' : p.enumDef.isSome) {tag : String} {attributes : List (String × String)}
    {r : Except Failure Parser} (done : p.processEnumConst tag attributes = some r) :
    Fine started called r := by
  unfold Parser.processEnumConst at done
  split at done
  · cases done
    exact processEnumConstHelper_fine inv table some' attributes
  · cases done

/-- The root element comes first: its variable is the one that stays at the bottom. -/
theorem startRoot_fine (inv : Inv started called p) (top : p.s = [.parserStart])
    (attributes : List (String × String)) : Fine True called (p.startRoot attributes) := by
  have root : Inv True called { p with
      btStack := .mk .group "root" [] [] [] :: p.btStack
      atStack := ⟨p.btStack.length, []⟩ :: p.atStack } := by
    refine ⟨?_, whole_fresh inv .group "root", inv.defined, inv.recorded⟩
    rw [top]
    exact Or.inr (Or.inl ⟨rfl, rfl, fun _ => List.cons_ne_nil _ _⟩)
  have table := Table.fresh .group "root" p.btStack p.atStack
  have opened := root.push (by decide : ParseState.insideGroup ≠ .parserStart) rfl rfl table
    (by simp)
  have opened' : ∀ dds, Inv True called { (p.setState .insideGroup).transferXmlAttrs attributes with
      dds
      btStack := .mk .group "root" [] [] [] :: p.btStack
      atStack := ⟨p.btStack.length, []⟩ :: p.atStack } :=
    fun dds => ⟨opened.fits, opened.whole, opened.defined, opened.recorded⟩
  have built : ∀ dds, Fine True called (.ok
      { ((p.setState .insideGroup).transferXmlAttrs attributes).checkRequiredAttribute "name" with
        dds
        btStack := .mk .group "root" [] [] [] :: p.btStack
        atStack := ⟨p.btStack.length, []⟩ :: p.atStack }) := by
    intro dds
    obtain same | ⟨msg, same⟩ :=
      checkRequiredAttribute_cases ((p.setState .insideGroup).transferXmlAttrs attributes) "name"
    · rw [same]
      exact opened' _
    · rw [same]
      exact (opened' _).fatalError msg
  have kept : (((p.setState .insideGroup).transferXmlAttrs attributes).checkRequiredAttribute
      "name").btStack = p.btStack ∧ (((p.setState .insideGroup).transferXmlAttrs
        attributes).checkRequiredAttribute "name").atStack = p.atStack := by
    obtain same | ⟨msg, same⟩ :=
      checkRequiredAttribute_cases ((p.setState .insideGroup).transferXmlAttrs attributes) "name"
    · rw [same]
      exact ⟨rfl, rfl⟩
    · rw [same]
      exact ⟨rfl, rfl⟩
  unfold Parser.startRoot
  simp only [factory_some (by decide : VarType.group ≠ .null) (by decide), kept]
  cases version : (((p.setState .insideGroup).transferXmlAttrs
      attributes).checkRequiredAttribute "name").rootVersion with
  | error failure =>
    unfold Parser.rootVersion at version
    split at version
    · cases set : DapVersion.setDapVersion
          ((((p.setState .insideGroup).transferXmlAttrs attributes).checkRequiredAttribute
            "name").xmlAttr "dapVersion").toList with
      | error failure' =>
        obtain ⟨message, rfl⟩ := DapVersion.setDapVersion_refuses set
        rw [set] at version
        cases version
        exact nofun
      | ok v =>
        rw [set] at version
        cases version
    · cases version
  | ok version => exact built _

/-- The first of the helpers that takes the element, or an error. -/
theorem getD_fine {first : Option (Except Failure Parser)} {other : Except Failure Parser}
    (fine : ∀ r, first = some r → Fine started called r) (otherwise : Fine started called other) :
    Fine started called (first.getD other) := by
  cases taken : first with
  | none => exact otherwise
  | some r => exact fine r taken

theorem orElse_fine {first second : Option (Except Failure Parser)}
    (fine : ∀ r, first = some r → Fine started called r)
    (fine' : ∀ r, second = some r → Fine started called r) :
    ∀ r, (first <|> second) = some r → Fine started called r := by
  intro r taken
  cases first with
  | none => exact fine' r taken
  | some r' => exact fine r taken

/-- A start inside the root element. -/
theorem startElement_inside (inv : Inv started called p) (top : p.s = state :: s)
    (error : state ≠ .parserError) (start : state ≠ .parserStart) (tag : String)
    (attributes : List (String × String)) :
    Fine started called (p.startElement tag attributes) := by
  have fits := inv.fits
  rw [top] at fits
  obtain ⟨table, -, -⟩ := fits.inside error start
  have attribute' : ∀ r, p.processAttribute tag attributes = some r → Fine started called r :=
    fun r done => processAttribute_fine inv table done
  have variable' : ∀ r, p.processVariable tag attributes = some r → Fine started called r :=
    fun r done => processVariable_fine inv table done
  unfold Parser.startElement
  rw [top]
  cases state with
  | parserStart => exact absurd rfl start
  | parserError => exact absurd rfl error
  | insideGroup =>
    have enumDef : ∀ r, p.processEnumDef tag attributes = some r → Fine started called r :=
      fun r done => processEnumDef_fine inv table done
    exact getD_fine (orElse_fine attribute' (orElse_fine variable' enumDef)) (fine_fatal inv _)
  | insideAttributeContainer => exact getD_fine attribute' (fine_fatal inv _)
  | insideAttribute =>
    refine getD_fine attribute' ?_
    split
    · exact inv.push (by decide) rfl rfl table (by simp)
    · exact fine_fatal inv _
  | insideAttributeValue => exact inv
  | insideOtherXmlAttribute =>
    dsimp only
    split
    · exact ⟨inv.fits, inv.whole, inv.defined, inv.recorded⟩
    · exact ⟨inv.fits, inv.whole, inv.defined, inv.recorded⟩
  | insideEnumDef =>
    have some' : p.enumDef.isSome := inv.defined (Or.inl (top ▸ List.mem_cons_self ..))
    exact getD_fine (fun r done => processEnumConst_fine inv table some' done) (fine_fatal inv _)
  | insideEnumConst => exact inv
  | insideSimpleType => exact getD_fine attribute' (fine_fatal inv _)
  | insideConstructor => exact getD_fine (orElse_fine attribute' variable') (fine_fatal inv _)
  | insideSequence => exact getD_fine (orElse_fine attribute' variable') (fine_fatal inv _)

theorem startElement_fine (inv : Inv started called p) (tag : String)
    (attributes : List (String × String)) : Fine True called (p.startElement tag attributes) := by
  have fits := inv.fits
  cases top : p.s with
  | nil =>
    rw [top] at fits
    exact fits.elim
  | cons state s =>
    rw [top] at fits
    by_cases error : state = .parserError
    · subst error
      unfold Parser.startElement
      rw [top]
      refine ⟨?_, inv.whole, inv.defined, inv.recorded⟩
      rw [top]
      exact Or.inl rfl
    · by_cases start : state = .parserStart
      · subst start
        obtain same | ⟨-, none', -⟩ | ⟨other, -⟩ := fits
        · cases same
        · subst none'
          unfold Parser.startElement
          rw [top]
          dsimp only
          split
          · exact startRoot_fine inv top attributes
          · exact ⟨Or.inl rfl, inv.whole, (inv.fatalError _).defined,
              (inv.fatalError _).recorded⟩
        · exact absurd rfl other
      · exact startElement_inside (inv.begun (fits.inside error start).1.nonempty) top error start
          tag attributes

end

/-! ## Elements that end -/

section
variable {started called : Prop} {p : Parser} {state : ParseState} {s : List ParseState}

/-- A state that ends with nothing else. -/
theorem endState_fine (inv : Inv started called p) (top : p.s = state :: s)
    (error : state ≠ .parserError) (start : state ≠ .parserStart)
    (stack : variablesBelow state p.btStack = p.btStack)
    (places : tablesBelow state p.atStack = p.atStack) (tag expected : String) :
    Fine started called (p.endState tag expected) := by
  have popped := (inv.pop top error start).1
  rw [stack, places] at popped
  unfold Parser.endState
  split
  · exact popped
  · exact fine_fatal inv _

theorem endEnumDef_fine (inv : Inv started called p) (top : p.s = .insideEnumDef :: s)
    (tag : String) : Fine started called (p.endEnumDef tag) := by
  obtain ⟨popped, table, -⟩ := inv.pop top (by decide) (by decide)
  obtain ⟨b, bs, -, -, stack, -⟩ := table
  obtain ⟨e, enum⟩ := Option.isSome_iff_exists.mp
    (inv.defined (Or.inl (top ▸ List.mem_cons_self ..)))
  have whole := inv.whole b (stack ▸ List.mem_cons_self ..)
  have same : (b.addEnumeration e).attr = b.attr := by
    cases b
    rfl
  unfold Parser.endEnumDef
  rw [stack]
  dsimp only
  split
  · split
    · rw [enum]
      have kept : Keeps b.attr (b.addEnumeration e).attr := by
        rw [same]
        exact Keeps.refl _
      exact popped.setTop stack kept (same ▸ whole)
    · exact fine_fatal inv _
  · exact fine_fatal inv _

/-- A variable goes into the one below it. -/
theorem addToParent_fine (inv : Inv started called p) (table : Table p.btStack p.atStack)
    (btp : BaseType) (kind tag : String) : Fine started called (p.addToParent btp kind tag) := by
  obtain ⟨parent, below, -, -, stack, -⟩ := table
  have whole := inv.whole parent (stack ▸ List.mem_cons_self ..)
  have same : (BaseType.addVar btp parent).attr = parent.attr := by
    cases parent
    rfl
  unfold Parser.addToParent
  rw [stack]
  dsimp only
  split
  · have kept : Keeps parent.attr (BaseType.addVar btp parent).attr := by
      rw [same]
      exact Keeps.refl _
    exact inv.setTop stack kept (same ▸ whole)
  · have failed := inv.fatalError (s!"Tried to add the {kind} variable '{tag}' to a " ++
      s!"non-constructor type ({Groups.typeName parent.type} {parent.name}).")
    exact failed

theorem endSimpleType_fine (inv : Inv started called p) (top : p.s = .insideSimpleType :: s)
    (tag : String) : Fine started called (p.endSimpleType tag) := by
  obtain ⟨popped, table, under⟩ := inv.pop top (by decide) (by decide)
  obtain ⟨b, bs, place, below, stack, places, -⟩ := table
  unfold Parser.endSimpleType
  split
  · rw [stack, places] at popped under ⊢
    exact addToParent_fine popped under b _ tag
  · exact fine_fatal inv _

theorem finishVariable_fine (inv : Inv started called p) (top : p.s = state :: s)
    (structured : state = .insideConstructor ∨ state = .insideSequence) (tag : String)
    (t : VarType) (expected : String) : Fine started called (p.finishVariable tag t expected) := by
  have error : state ≠ .parserError := by rcases structured with rfl | rfl <;> decide
  have start : state ≠ .parserStart := by rcases structured with rfl | rfl <;> decide
  obtain ⟨popped, table, under⟩ := inv.pop top error start
  obtain ⟨b, bs, place, below, stack, places, -⟩ := table
  have variables_eq : variablesBelow state p.btStack = bs := by
    rcases structured with rfl | rfl <;> rw [stack] <;> rfl
  have tables_eq : tablesBelow state p.atStack = below := by
    rcases structured with rfl | rfl <;> rw [places] <;> rfl
  rw [variables_eq, tables_eq] at popped under
  unfold Parser.finishVariable
  split
  · exact fine_fatal inv _
  · rw [stack, places]
    dsimp only
    split
    · exact fine_fatal popped _
    · exact addToParent_fine popped under b _ tag

/-- The states that keep the table in front of them. -/
theorem Inv.popState (inv : Inv started called p) (top : p.s = state :: s)
    (error : state ≠ .parserError) (start : state ≠ .parserStart)
    (stack : variablesBelow state p.btStack = p.btStack)
    (places : tablesBelow state p.atStack = p.atStack) :
    Inv started called p.popState ∧ Table p.popState.btStack p.popState.atStack := by
  obtain ⟨popped, table, -⟩ := inv.pop top error start
  rw [stack, places] at popped
  exact ⟨popped, table⟩

/-- A value goes into the table on top. -/
theorem value_fine (inv : Inv started called p) (table : Table p.btStack p.atStack)
    (name type value : String) :
    Fine started called (p.changeTable fun table => appendAttr table name type value) :=
  changeTable_fine inv table fun _ whole => appendAttr_grows whole name type value

theorem endElement_fine (inv : Inv started called p) (tag : String)
    (outside : p.s.head? ≠ some .insideOtherXmlAttribute) :
    Fine started called (p.endElement tag) := by
  have fits := inv.fits
  unfold Parser.endElement
  cases top : p.s with
  | nil =>
    rw [top] at fits
    exact fits.elim
  | cons state s =>
    cases state with
    | parserStart => exact fine_fatal inv _
    | parserError => exact inv
    | insideGroup => exact endState_fine inv top (by decide) (by decide) rfl rfl _ _
    | insideAttribute => exact endState_fine inv top (by decide) (by decide) rfl rfl _ _
    | insideEnumConst => exact endState_fine inv top (by decide) (by decide) rfl rfl _ _
    | insideEnumDef => exact endEnumDef_fine inv top tag
    | insideSimpleType => exact endSimpleType_fine inv top tag
    | insideConstructor => exact finishVariable_fine inv top (Or.inl rfl) _ _ _
    | insideSequence => exact finishVariable_fine inv top (Or.inr rfl) _ _ _
    | insideOtherXmlAttribute => exact absurd (by rw [top]; rfl) outside
    | insideAttributeContainer =>
      obtain ⟨popped, ⟨b, bs, place, below, stack, places, -⟩, -⟩ :=
        inv.pop top (by decide) (by decide)
      dsimp only
      split
      · rw [places] at popped ⊢
        exact popped
      · exact fine_fatal inv _
    | insideAttributeValue =>
      obtain ⟨popped, table⟩ := inv.popState top (by decide) (by decide) rfl rfl
      dsimp only
      split
      · have fine := value_fine popped table p.scratch.dodsAttrName p.scratch.dodsAttrType
          p.charData
        cases changed : p.popState.changeTable (fun table => appendAttr table
            p.scratch.dodsAttrName p.scratch.dodsAttrType p.charData) with
        | error failure =>
          rw [changed] at fine
          exact fine
        | ok q =>
          rw [changed] at fine
          exact ⟨fine.fits, fine.whole, fine.defined, fine.recorded⟩
      · exact fine_fatal inv _

theorem getCharacters_fine (inv : Inv started called p) (text : String) :
    Fine started called (p.getCharacters text) := by
  unfold Parser.getCharacters
  split
  · next empty =>
    have fits := inv.fits
    rw [empty] at fits
    exact fits.elim
  · exact ⟨inv.fits, inv.whole, inv.defined, inv.recorded⟩
  · exact ⟨inv.fits, inv.whole, inv.defined, inv.recorded⟩
  · exact inv

end

/-! ## All callbacks -/

/-- A document in which an element starts. -/
def Started (events : List Event) : Prop := ∃ tag, DDXParserSAX2.Event.start tag ∈ events

/-- The element that ends an `OtherXML` attribute has no namespace. -/
def Undefined (p : D4Parser) (e : Event) : Prop :=
  p.parser.s.head? = some .insideOtherXmlAttribute ∧
    ∃ pre, e = .finish "Attribute".toList pre none

def FineStep (started called : Prop) : Except Failure D4Parser → Prop
  | .ok p => Inv started called p.parser
  | .error failure => failure ≠ .undefinedBehaviour

section
variable {started called : Prop} {p : D4Parser}

theorem Inv.mono {started' : Prop} {p : Parser} (inv : Inv started called p)
    (implies : started' → started) : Inv started' called p := by
  have fits : ∀ {s bts ats}, Fits started s bts ats → Fits started' s bts ats := by
    intro s
    induction s with
    | nil => exact id
    | cons state s ih =>
      intro bts ats fits
      rcases fits with same | ⟨same, none', some'⟩ | ⟨other, table, below, fits⟩
      · exact Or.inl same
      · exact Or.inr (Or.inl ⟨same, none', fun holds => some' (implies holds)⟩)
      · exact Or.inr (Or.inr ⟨other, table, below, ih fits⟩)
  exact ⟨fits inv.fits, inv.whole, inv.defined, inv.recorded⟩

theorem FineStep.mono {started' : Prop} {r : Except Failure D4Parser}
    (fine : FineStep started called r) (implies : started' → started) :
    FineStep started' called r := by
  cases r with
  | error failure => exact fine
  | ok q => exact Inv.mono fine implies

theorem lift_fine {r : Except Failure Parser} (fine : Fine started called r)
    (fields : Parser → D4Parser) (same : ∀ q, (fields q).parser = q) :
    FineStep started called (r >>= fun parser => pure (fields parser)) := by
  cases r with
  | error failure => exact fine
  | ok q =>
    show Inv started called (fields q).parser
    rw [same]
    exact fine

theorem startOtherXml_fine (inv : Inv started called p.parser) (tag : StartTag) :
    Inv started called (p.startOtherXml tag).parser := by
  unfold D4Parser.startOtherXml
  dsimp only
  split <;> split <;> exact ⟨inv.fits, inv.whole, inv.defined, inv.recorded⟩

theorem start_fine (inv : Inv started called p.parser) (tag : StartTag) :
    FineStep True called (p.startElement tag) := by
  have fine := startElement_fine inv (String.ofList tag.localname)
    (plainAttributes tag.attributes)
  unfold D4Parser.startElement
  dsimp only
  split
  · next s top =>
    have fits := inv.fits
    rw [top] at fits
    have begun := inv.begun (fits.inside (by decide) (by decide)).1.nonempty
    exact startOtherXml_fine begun tag
  · split
    · exact lift_fine fine _ fun _ => rfl
    · exact lift_fine fine _ fun _ => rfl
  · exact lift_fine fine _ fun _ => rfl

theorem otherXml_fine (inv : Inv started called p.parser) {s : List ParseState}
    (top : p.parser.s = .insideOtherXmlAttribute :: s) (localname : Chars)
    (pre uri : Option Chars) (defined : ¬(localname = "Attribute".toList ∧ uri = none)) :
    FineStep started called (p.endOtherXml localname pre uri) := by
  unfold D4Parser.endOtherXml
  rw [if_neg defined]
  split
  · dsimp only
    obtain ⟨popped, table⟩ := inv.popState top (by decide) (by decide) rfl rfl
    have fine := value_fine popped table p.parser.scratch.dodsAttrName
      p.parser.scratch.dodsAttrType p.parser.otherXml
    cases changed : p.parser.popState.changeTable (fun table => appendAttr table
        p.parser.scratch.dodsAttrName p.parser.scratch.dodsAttrType p.parser.otherXml) with
    | error failure =>
      rw [changed] at fine
      exact fine
    | ok q =>
      rw [changed] at fine
      exact ⟨fine.fits, fine.whole, fine.defined, fine.recorded⟩
  · dsimp only
    split
    · have failed := inv.fatalError ("Expected an OtherXML attribute to end! Instead I found '" ++
        String.ofList localname ++ "'")
      exact ⟨failed.fits, failed.whole, failed.defined, failed.recorded⟩
    · exact ⟨inv.fits, inv.whole, inv.defined, inv.recorded⟩

theorem finish_fine (inv : Inv started called p.parser) (localname : Chars)
    (pre uri : Option Chars) (defined : ¬Undefined p (.finish localname pre uri)) :
    FineStep started called (p.endElement localname pre uri) := by
  unfold D4Parser.endElement
  split
  · next s top =>
    apply otherXml_fine inv top
    rintro ⟨rfl, rfl⟩
    exact defined ⟨by rw [top]; rfl, pre, rfl⟩
  · next outside =>
    apply lift_fine (endElement_fine inv _ _) _ fun _ => rfl
    intro head
    obtain ⟨s, top⟩ := List.head?_eq_some_iff.mp head
    exact outside s top

/-- Only the start of an element begins the root. -/
theorem step_fine (inv : Inv started called p.parser) {e : Event} (defined : ¬Undefined p e) :
    FineStep (started ∨ Started [e]) called (p.step e) := by
  have nonempty : p.parser.s ≠ [] := by
    intro empty
    have fits := inv.fits
    rw [empty] at fits
    exact fits.elim
  have same : (∀ tag, e ≠ .start tag) → started ∨ Started [e] → started := by
    rintro other (holds | ⟨tag, member⟩)
    · exact holds
    · exact absurd (List.mem_singleton.mp member).symm (other tag)
  cases e with
  | start tag => exact (start_fine inv tag).mono fun _ => trivial
  | characters ch =>
    exact (lift_fine (getCharacters_fine inv _) _ fun _ => rfl).mono (same (by simp))
  | ignorableWhitespace ch =>
    apply FineStep.mono _ (same (by simp))
    unfold D4Parser.step D4Parser.ignoreableWhitespace
    dsimp only
    split
    · next empty => exact absurd empty nonempty
    · exact ⟨inv.fits, inv.whole, inv.defined, inv.recorded⟩
    · exact inv
  | cdata value =>
    apply FineStep.mono _ (same (by simp))
    unfold D4Parser.step D4Parser.getCdata
    dsimp only
    split
    · next empty => exact absurd empty nonempty
    · exact ⟨inv.fits, inv.whole, inv.defined, inv.recorded⟩
    · exact inv.fatalError _
  | finish localname pre uri =>
    exact (finish_fine inv localname pre uri defined).mono (same (by simp))
  | problem msg => exact FineStep.mono (inv.fatalError _) (same (by simp))

end

/-! ## The parse -/

/-- Every event of a run finds the parser in a state that it is defined for. -/
def DefinedRun (p : D4Parser) (events : List Event) : Prop :=
  ∀ before e after q, events = before ++ e :: after →
    before.foldlM D4Parser.step p = .ok q → ¬Undefined q e

section
variable {started called : Prop} {p : D4Parser}

theorem DefinedRun.tail {e : Event} {events : List Event} {p' : D4Parser}
    (defined : DefinedRun p (e :: events)) (stepped : p.step e = .ok p') :
    DefinedRun p' events := by
  intro before e' after q same run
  apply defined (e :: before) e' after q
  · rw [same, List.cons_append]
  · rw [List.foldlM_cons, stepped]
    exact run

theorem DefinedRun.after {before after : List Event} {q : D4Parser}
    (defined : DefinedRun p (before ++ after)) (run : before.foldlM D4Parser.step p = .ok q) :
    DefinedRun q after := by
  intro before' e after' r same rest
  apply defined (before ++ before') e after' r
  · rw [same, List.append_assoc]
  · rw [List.foldlM_append, run]
    exact rest

theorem DefinedRun.before {before after : List Event}
    (defined : DefinedRun p (before ++ after)) : DefinedRun p before := by
  intro before' e after' q same run
  apply defined before' e (after' ++ after) q ?_ run
  rw [same, List.append_assoc, List.cons_append]

/-- A run keeps the stacks in order, and starts the root with its first element. -/
theorem run_fine {events : List Event} (inv : Inv started called p.parser)
    (defined : DefinedRun p events) :
    FineStep (started ∨ Started events) called (events.foldlM D4Parser.step p) := by
  induction events generalizing p started with
  | nil =>
    apply FineStep.mono (r := .ok p) inv
    rintro (holds | ⟨tag, member⟩)
    · exact holds
    · cases member
  | cons e events ih =>
    have fine := step_fine inv (defined [] e events p rfl rfl)
    rw [List.foldlM_cons]
    cases stepped : p.step e with
    | error failure =>
      rw [stepped] at fine
      exact fine
    | ok p' =>
      rw [stepped] at fine
      apply (ih fine (defined.tail stepped)).mono
      rintro (holds | ⟨tag, member⟩)
      · exact Or.inl (Or.inl holds)
      · rcases List.mem_cons.mp member with same | behind
        · exact Or.inl (Or.inr ⟨tag, List.mem_singleton.mpr same⟩)
        · exact Or.inr ⟨tag, behind⟩

theorem startDocument_inv (dds : D4ParserSax2.DDS) :
    Inv False False (D4Parser.new dds).startDocument.parser where
  fits := Or.inr (Or.inl ⟨rfl, rfl, False.elim⟩)
  whole := by simp [D4Parser.startDocument, D4Parser.new, Parser.startDocument, Parser.setState,
    Parser.new]
  defined := by simp [D4Parser.startDocument, D4Parser.new, Parser.startDocument,
    Parser.setState, Parser.new]
  recorded := by simp [D4Parser.startDocument, Parser.startDocument, Parser.setState]

/-- After an error the stacks are in order up to the end, with the error among the states. -/
theorem recorded_inv {dds : D4ParserSax2.DDS} {before after : List Event} {q : D4Parser}
    (defined : DefinedRun (D4Parser.new dds).startDocument (before ++ after))
    (root : Started (before ++ after))
    (run : before.foldlM D4Parser.step (D4Parser.new dds).startDocument = .ok p)
    (messages : p.parser.errorMsg ≠ [])
    (whole : (before ++ after).foldlM D4Parser.step (D4Parser.new dds).startDocument = .ok q) :
    Inv True True q.parser := by
  have fine := run_fine (startDocument_inv dds) defined.before
  rw [run] at fine
  have recorded : Inv (False ∨ Started before) True p.parser :=
    { fine with recorded := fun _ => fine.recorded (Or.inr messages) }
  have rest := run_fine recorded (defined.after run)
  rw [List.foldlM_append, run] at whole
  rw [show after.foldlM D4Parser.step p = .ok q from whole] at rest
  apply Inv.mono rest
  obtain ⟨tag, member⟩ := root
  rintro -
  rcases List.mem_append.mp member with first | second
  · exact Or.inl (Or.inr ⟨tag, first⟩)
  · exact Or.inr ⟨tag, second⟩

/-- The document ends with the root's variable, or with an error on top. -/
theorem endDocument_fine (inv : Inv True called p.parser) :
    ∃ q, p.endDocument = .ok q ∧ q.parser.s ≠ [] ∧
      (called ∨ q.parser.errorMsg ≠ [] → ∃ s, q.parser.s = .parserError :: s) := by
  have fits := inv.fits
  unfold D4Parser.endDocument Parser.endDocument
  cases top : p.parser.s with
  | nil =>
    rw [top] at fits
    exact fits.elim
  | cons state s =>
    rw [top] at fits
    dsimp only
    by_cases start : state = .parserStart
    · subst start
      obtain same | ⟨-, rfl, some'⟩ | ⟨other, -⟩ := fits
      · cases same
      · obtain ⟨btp, bts, stack⟩ := List.exists_cons_of_ne_nil (some' trivial)
        rw [if_pos rfl, stack]
        refine ⟨_, rfl, by simp, fun failed => ?_⟩
        have member := inv.recorded failed
        rw [top] at member
        simp at member
      · exact absurd rfl other
    · rw [if_neg start]
      exact ⟨_, rfl, List.cons_ne_nil _ _, fun _ => ⟨_, rfl⟩⟩

end

/-- The error was recorded before the end of the document, or is there when it ends. -/
def Called (dds : D4ParserSax2.DDS) (events : List Event) (q : D4Parser) : Prop :=
  q.parser.errorMsg ≠ [] ∨ ∃ before after p, events = before ++ after ∧
    before.foldlM D4Parser.step (D4Parser.new dds).startDocument = .ok p ∧
    p.parser.errorMsg ≠ []

/-- No callback does what the language leaves undefined, and once an error was recorded the
parse fails. -/
structure Rejected (dds : D4ParserSax2.DDS) (events : List Event) : Prop where
  defined : callbacks dds events ≠ .error .undefinedBehaviour
  cleans : ∀ q wellFormed valid, callbacks dds events = .ok q →
    q.cleanupParse wellFormed valid ≠ .error .undefinedBehaviour
  fails : ∀ q, callbacks dds events = .ok q → Called dds events q →
    q.parser.s.head? = some .parserError ∧
      ∀ wellFormed valid, ∃ msg, q.cleanupParse wellFormed valid =
        .error (D4Parser.d4ParseError msg)

theorem cleanupParse_defined {q : D4Parser} (some' : q.parser.s ≠ []) (wellFormed valid : Bool) :
    q.cleanupParse wellFormed valid ≠ .error .undefinedBehaviour := by
  unfold D4Parser.cleanupParse
  split
  · simp [D4Parser.d4ParseError]
  · split
    · simp [D4Parser.d4ParseError]
    · split
      · next empty => exact absurd empty some'
      · simp [D4Parser.d4ParseError]
      · simp

theorem cleanupParse_error {q : D4Parser} {s : List ParseState}
    (top : q.parser.s = .parserError :: s) (wellFormed valid : Bool) :
    ∃ msg, q.cleanupParse wellFormed valid = .error (D4Parser.d4ParseError msg) := by
  unfold D4Parser.cleanupParse
  split
  · exact ⟨_, rfl⟩
  · split
    · exact ⟨_, rfl⟩
    · rw [top]
      exact ⟨_, rfl⟩

/-- A document is rejected as it should be when no element without a namespace ends an
`OtherXML` attribute. -/
theorem malformed_dmr_rejected_iff (dds : D4ParserSax2.DDS) (events : List Event)
    (root : Started events) :
    Rejected dds events ↔ DefinedRun (D4Parser.new dds).startDocument events := by
  constructor
  · rintro rejected before e after p rfl run ⟨head, pre, rfl⟩
    obtain ⟨s, top⟩ := List.head?_eq_some_iff.mp head
    have failed : p.step (.finish "Attribute".toList pre none) = .error .undefinedBehaviour := by
      simp [D4Parser.step, D4Parser.endElement, top, D4Parser.endOtherXml]
    apply rejected.defined
    unfold callbacks
    rw [List.foldlM_append, run]
    simp only [bind, Except.bind, List.foldlM_cons]
    rw [failed]
  · intro defined
    have fine := run_fine (startDocument_inv dds) defined
    cases run : events.foldlM D4Parser.step (D4Parser.new dds).startDocument with
    | error failure =>
      rw [run] at fine
      have stopped : callbacks dds events = .error failure := by
        unfold callbacks
        rw [run]
        rfl
      refine ⟨?_, ?_, ?_⟩
      · rw [stopped]
        intro same
        cases same
        exact fine rfl
      · intro q _ _ done
        cases stopped.symm.trans done
      · intro q done
        cases stopped.symm.trans done
    | ok p =>
      rw [run] at fine
      have begun : Inv True False p.parser := Inv.mono fine fun _ => Or.inr root
      obtain ⟨q, ended, some', top⟩ := endDocument_fine begun
      have finished : callbacks dds events = .ok q := by
        unfold callbacks
        rw [run]
        exact ended
      refine ⟨?_, ?_, ?_⟩
      · rw [finished]
        simp
      · intro q' wellFormed valid done
        cases finished.symm.trans done
        exact cleanupParse_defined some' wellFormed valid
      · intro q' done called
        cases finished.symm.trans done
        have error : ∃ s, q.parser.s = .parserError :: s := by
          rcases called with messages | ⟨before, after, middle, rfl, run', messages⟩
          · exact top (Or.inr messages)
          · obtain ⟨r, ended', -, top'⟩ :=
              endDocument_fine (recorded_inv defined root run' messages run)
            cases ended.symm.trans ended'
            exact top' (Or.inl trivial)
        obtain ⟨s, top''⟩ := error
        exact ⟨by rw [top'']; rfl, cleanupParse_error top''⟩

/-- A response whose root has an `OtherXML` attribute. -/
def otherXmlDocument (uri : Option Chars) : List Event :=
  [.start ⟨"Group".toList, none, uri, [], [⟨"name".toList, none, none, "g".toList⟩]⟩,
    .start ⟨"Attribute".toList, none, uri, [], [⟨"name".toList, none, none, "a".toList⟩,
      ⟨"type".toList, none, none, "OtherXML".toList⟩]⟩,
    .finish "Attribute".toList none uri, .finish "Group".toList none uri]

theorem otherXmlDocument_started (uri : Option Chars) : Started (otherXmlDocument uri) :=
  ⟨_, List.mem_cons_self ..⟩

def noData : D4ParserSax2.DDS := ⟨"", "", "", []⟩

/-- An element that no Group takes, in front of such an attribute. -/
def unknownElement : List Event :=
  (otherXmlDocument (some "urn:dap".toList)).take 1 ++
    [.start ⟨"Blob".toList, none, some "urn:dap".toList, [], []⟩,
      .finish "Blob".toList none (some "urn:dap".toList)] ++
    (otherXmlDocument (some "urn:dap".toList)).drop 1

theorem unknownElement_started : Started unknownElement :=
  ⟨_, List.mem_cons_self ..⟩

theorem with_namespace_rejected :
    Rejected noData unknownElement ∧
      ((callbacks noData unknownElement).toOption.any fun q => q.parser.errorMsg ≠ []) = true := by
  refine ⟨(malformed_dmr_rejected_iff noData _ unknownElement_started).mpr ?_, by decide +kernel⟩
  rintro before e after q same - ⟨-, pre, rfl⟩
  have member : DDXParserSAX2.Event.finish "Attribute".toList pre none ∈ unknownElement := by
    rw [same]
    simp
  simp [unknownElement, otherXmlDocument] at member

/-- Without a namespace, null is compared with the one of the root. -/
theorem without_namespace_not_rejected :
    ¬∀ dds events, Started events → Rejected dds events := by
  intro all
  exact (all noData (otherXmlDocument none) (otherXmlDocument_started none)).defined rfl

end Libdap.Guarantees.DMRErrors
