import Libdap.Guarantees.DASText
import Libdap.Library.Outcome

/-!
# A parsed DAS printed and parsed again

Whatever the text was, every value of the tree that was parsed passes the check of its type
or is in a table for values that do not. So the tree is stable when all that is printed of
it is scanned back token by token and its names lead nowhere on the second way.
-/
namespace Libdap.Guarantees.DASStability
open Libdap.Library
open Libdap.Source Libdap.Source.AttributeTransfer Libdap.Source.DASParser Libdap.Source.DASText
open Libdap.Source.Attributes (removeSpaceEncoding addSpaceEncoding stringToType typeToString)
open Libdap.Guarantees.AttributeTransfer (table_some)
open Libdap.Guarantees.DASParser Libdap.Guarantees.DASText

/-- Printing the tree and parsing the text, by a scanner in this start condition, gives an equal
tree. -/
def Stable (check : Keyword → List Char → Bool) (start : Scanning) (t : Table) : Prop :=
  ∃ text t' n, printDas t.attrMap = .ok text ∧ parseText check start text = .ok (t', n) ∧
    t'.name = t.name ∧ eraseAll t'.attrMap = eraseAll t.attrMap

section
variable (check : Keyword → List Char → Bool)

def Houses (table : List Char) (type : Keyword) (value : List Char) : Prop :=
  dodsErrors <:+: table ∨ (hasChecker type = true → check type value = true)

mutual
/-- What the parser builds: values of a keyword's type in a table that may hold them. -/
def Kept (table : List Char) : Attribute → Prop
  | .values _ type _ attr => ∃ k values, type = stringToType k.type ∧ attr = some values ∧
      ∀ v ∈ values, Houses check table k v.toList
  | .container name _ tableName attrMap => tableName = name ∧ AllKept tableName attrMap

def AllKept (table : List Char) : List Attribute → Prop
  | [] => True
  | e :: es => Kept table e ∧ AllKept table es
end

def KeptTable (t : Table) : Prop := AllKept check t.name t.attrMap

end

/-! ## Values that are appended -/

variable {check : Keyword → List Char → Bool} {t t' at' : Table} {next n : Nat}
  {k k' : Keyword} {name lname table : List Char} {es own own' : List Attribute} {e : Attribute}
  {way : Way}

theorem allKept_iff : AllKept check table es ↔ ∀ e ∈ es, Kept check table e := by
  induction es with
  | nil => simp [AllKept]
  | cons e es ih => simp [AllKept, ih]

theorem allKept_append {fs : List Attribute} (first : AllKept check table es)
    (later : AllKept check table fs) : AllKept check table (es ++ fs) := by
  rw [allKept_iff] at first later ⊢
  intro e mem
  exact (List.mem_append.mp mem).elim (first e) (later e)

theorem keywordOf_stringToType (k : Keyword) : keywordOf (stringToType k.type) = some k := by
  cases k <;> decide

theorem stringToType_inj (same : stringToType k.type = stringToType k'.type) : k = k' := by
  have one := keywordOf_stringToType k
  rw [same, keywordOf_stringToType] at one
  exact (Option.some.inj one).symm

theorem appendToFirst_kept {value : List Char} (kept : AllKept check table own)
    (houses : Houses check table k value) (found : simpleFind own lname = some e)
    (type : e.type = stringToType k.type) :
    AllKept check table (appendToFirst lname [String.ofList value] own) := by
  induction own with
  | nil => trivial
  | cons f own ih =>
    rw [AllKept] at kept
    rw [simpleFind, List.find?_cons] at found
    by_cases here : f.name = lname
    · simp only [here, decide_true, Option.some.injEq] at found
      subst found
      cases f with
      | container name address tableName attrMap =>
        have impossible : Attributes.AttrType.container ≠ stringToType k.type := by
          cases k <;> decide
        exact absurd type impossible
      | values name kind isGlobal attr =>
        have same : name = lname := here
        obtain ⟨k', values, known, set, each⟩ := kept.1
        rw [known] at type
        have one := stringToType_inj type
        subst one
        rw [appendToFirst, if_pos same, set, AllKept, Kept]
        refine ⟨⟨k', values ++ [String.ofList value], known, rfl, ?_⟩, kept.2⟩
        intro v mem
        rcases List.mem_append.mp mem with old | new
        · exact each v old
        · rw [List.mem_singleton.mp new, String.toList_ofList]
          exact houses
    · simp only [here, decide_false] at found
      have rest := ih kept.2 found
      cases f with
      | container name address tableName attrMap =>
        rw [appendToFirst]
        · exact ⟨kept.1, rest⟩
        · intro _ _ _ _ same
          cases same
      | values name kind isGlobal attr =>
        have other : ¬ name = lname := here
        rw [appendToFirst, if_neg other]
        exact ⟨kept.1, rest⟩

theorem appendValue_kept {value : List Char} (kept : KeptTable check t)
    (houses : Houses check t.name k value) (run : appendValue t k.type name value = .ok t') :
    KeptTable check t' ∧ t'.name = t.name := by
  have named := appendValue_name run
  refine ⟨?_, named⟩
  rw [KeptTable, named]
  rw [appendValue, appendAttr] at run
  cases found : simpleFind t.attrMap (removeSpaceEncoding name) with
  | none =>
    rw [found] at run
    cases run
    refine allKept_append kept ⟨⟨k, _, rfl, rfl, ?_⟩, trivial⟩
    intro v mem
    rw [List.mem_singleton.mp mem, String.toList_ofList]
    exact houses
  | some e =>
    simp only [found] at run
    split at run
    · cases run
    · rename_i type
      split at run
      · cases run
      · cases run
        exact appendToFirst_kept kept houses found (not_not.mp type)

theorem appendContainer_kept (kept : KeptTable check t)
    (run : appendContainer t next name = .ok t') : KeptTable check t' ∧ t'.name = t.name := by
  have new := (appendContainer_ok run).2
  subst new
  exact ⟨allKept_append kept ⟨⟨rfl, trivial⟩, trivial⟩, rfl⟩

/-! ## Tables below -/

theorem kept_at (kept : KeptTable check t) (found : Table.at t way = some at') :
    KeptTable check at' := by
  induction way generalizing t with
  | nil =>
    cases found
    exact kept
  | cons i way ih =>
    rw [Table.at, Option.bind_eq_some_iff] at found
    obtain ⟨below, entry, found⟩ := found
    rw [Option.bind_eq_some_iff] at entry
    obtain ⟨e, here, table⟩ := entry
    have own := allKept_iff.mp kept e (List.mem_of_getElem? here)
    cases e with
    | values name type isGlobal attr => cases table
    | container name address tableName attrMap =>
      cases table
      exact ih (t := { address, name := tableName, attrMap }) own.2 found

theorem modifyAt_kept {f : Table → Except Failure (Table × Nat)} (kept : KeptTable check t)
    (keeps : ∀ at' below n, Table.at t way = some at' → KeptTable check at' →
      f at' = .ok (below, n) → KeptTable check below ∧ below.name = at'.name)
    (run : Table.modifyAt f way t = .ok (t', n)) : KeptTable check t' ∧ t'.name = t.name := by
  induction way generalizing t t' with
  | nil => exact keeps t t' n rfl kept run
  | cons i way ih =>
    obtain ⟨lname, address, tableName, attrMap, below, here, inner, rfl⟩ := modifyAt_cons_ok run
    have own := allKept_iff.mp kept _ (List.mem_of_getElem? here)
    have further : ∀ at' below n,
        Table.at { address, name := tableName, attrMap } way = some at' → KeptTable check at' →
          f at' = .ok (below, n) → KeptTable check below ∧ below.name = at'.name := by
      intro at' below n found
      apply keeps at' below n
      rw [Table.at, here]
      exact found
    have changed := ih (t := { address, name := tableName, attrMap }) own.2 further inner
    refine ⟨allKept_iff.mpr fun e mem => ?_, rfl⟩
    rcases List.mem_or_eq_of_mem_set mem with old | new
    · exact allKept_iff.mp kept e old
    · rw [new]
      exact ⟨changed.2.trans own.1, changed.1⟩

theorem at_append {more : Way} :
    Table.at t (way ++ more) = (Table.at t way).bind fun below => Table.at below more := by
  induction way generalizing t with
  | nil => rfl
  | cons i way ih =>
    rw [List.cons_append, Table.at, Table.at]
    cases t.attrMap[i]?.bind Attribute.table with
    | none => rfl
    | some below => exact ih

theorem simpleFindWay_name {target : List Char} (kept : KeptTable check t)
    (search : simpleFindWay t target = some way) (found : Table.at t way = some at') :
    at'.name = target := by
  rw [simpleFindWay] at search
  split at search
  · rename_i same
    cases search
    cases found
    exact same
  · rw [Option.map_eq_some_iff] at search
    obtain ⟨i, index, rfl⟩ := search
    rw [List.findIdx?_eq_some_iff_getElem] at index
    obtain ⟨bound, test, _⟩ := index
    rw [Table.at, List.getElem?_eq_getElem bound] at found
    have own := allKept_iff.mp kept _ (List.getElem_mem bound)
    cases here : t.attrMap[i] with
    | values name type isGlobal attr =>
      rw [here] at found
      cases found
    | container name address tableName attrMap =>
      rw [here] at found test own
      cases found
      exact own.1.trans (of_decide_eq_true test)

/-- A path leads to a table with the last part of its name. -/
theorem findWay_name {parts : List (List Char)} (kept : KeptTable check t)
    (search : findWay t parts = some way) (found : Table.at t way = some at') :
    parts.getLast? = some at'.name := by
  induction parts generalizing t way with
  | nil => cases search
  | cons container fields ih =>
    cases fields with
    | nil =>
      rw [findWay] at search
      rw [simpleFindWay_name kept search found]
      rfl
    | cons field fields =>
      rw [findWay] at search
      cases first : simpleFindWay t container with
      | none =>
        rw [first] at search
        cases search
      | some start =>
        simp only [first, Option.bind_eq_some_iff, Option.map_eq_some_iff] at search
        obtain ⟨below, there, rest, later, rfl⟩ := search
        rw [at_append, there] at found
        rw [List.getLast?_cons_cons]
        exact ih (kept_at kept there) later found

theorem last_part (parts : List (List Char)) {last : List Char}
    (ends : parts.getLast? = some last) :
    [ '.' ].intercalate parts = last ∨ ('.' :: last) <:+ [ '.' ].intercalate parts := by
  induction parts with
  | nil => cases ends
  | cons part parts ih =>
    cases parts with
    | nil =>
      cases ends
      exact .inl (by simp)
    | cons next parts =>
      rw [List.getLast?_cons_cons] at ends
      rw [List.intercalate_cons_cons]
      refine .inr ?_
      rcases ih ends with whole | later
      · rw [whole]
        exact ⟨part, by simp⟩
      · exact later.trans (List.suffix_append _ _)

theorem getWay_errors (kept : KeptTable check t)
    (search : getWay t (name ++ dodsErrors) = some way) (found : Table.at t way = some at') :
    dodsErrors <:+: at'.name := by
  have ends := findWay_name kept search found
  have text : [ '.' ].intercalate ((name ++ dodsErrors).splitOn '.') = name ++ dodsErrors :=
    List.intercalate_splitOn '.'
  have own : dodsErrors <:+ name ++ dodsErrors := List.suffix_append name dodsErrors
  rcases last_part _ ends with whole | later
  · rw [text] at whole
    rw [← whole]
    exact own.isInfix
  · rw [text] at later
    have noDot : '.' ∉ dodsErrors := by decide
    rcases List.suffix_or_suffix_of_suffix own later with short | long
    · cases short with
      | intro before same =>
        cases before with
        | nil =>
          rw [List.nil_append] at same
          exact absurd (same ▸ List.mem_cons_self) noDot
        | cons c before =>
          have tail := (List.cons.inj same).2
          exact ⟨before, [], (List.append_nil _).trans tail⟩
    · exact absurd (long.subset List.mem_cons_self) noDot

theorem removeSpaceEncoding_errors (name : List Char) :
    removeSpaceEncoding (name ++ dodsErrors) = removeSpaceEncoding name ++ dodsErrors := by
  have headed : dodsErrors.head? = some '_' := rfl
  have other : ∀ (c : Char) more, dodsErrors = c :: more → c = '_' := fun c more same =>
    (Option.some.inj (headed.symm.trans (congrArg List.head? same))).symm
  fun_induction removeSpaceEncoding name with
  | case1 => decide
  | case2 rest ih => rw [List.cons_append, List.cons_append, List.cons_append, removeSpaceEncoding,
      ih, List.cons_append]
  | case3 c rest plain ih =>
    rw [List.cons_append, removeSpaceEncoding, ih, List.cons_append]
    intro more percent same
    cases rest with
    | nil => exact absurd (other _ _ same) (by decide)
    | cons d rest =>
      rw [List.cons_append, List.cons.injEq] at same
      cases rest with
      | nil => exact absurd (other _ _ same.2) (by decide)
      | cons f rest =>
        rw [List.cons_append, List.cons.injEq] at same
        exact plain rest percent (by rw [same.1, same.2.1])

/-! ## What each action keeps -/

theorem addBadAttribute_kept {value msg : List Char} (kept : KeptTable check t)
    (run : addBadAttribute t next k.type name value msg = .ok (t', n)) :
    KeptTable check t' ∧ t'.name = t.name := by
  have fill : ∀ (next n : Nat) (at' below : Table), KeptTable check at' →
      dodsErrors <:+: at'.name → (do
        let errorCont ← appendValue at' k.type name value
        let errorCont ← appendValue errorCont "String".toList (name ++ "_explanation".toList) msg
        pure (errorCont, next)) = Except.ok (below, n) →
      KeptTable check below ∧ below.name = at'.name := by
    intro next n at' below kept errors run
    obtain ⟨middle, first, run⟩ := bind_success run
    obtain ⟨last, later, run⟩ := bind_success run
    cases run
    have one := appendValue_kept kept (.inl errors) first
    have two := appendValue_kept (k := .string) one.1 (.inr fun checker => by cases checker) later
    exact ⟨two.1, two.2.trans one.2⟩
  rw [addBadAttribute] at run
  split at run
  · rename_i errors
    obtain ⟨t₁, appended, run⟩ := bind_success run
    cases run
    exact appendValue_kept kept (.inl errors) appended
  · cases searched : getWay t (t.name ++ dodsErrors) with
    | some way =>
      rw [searched] at run
      exact modifyAt_kept kept (fun at' below n found below_kept run =>
        fill next n at' below below_kept (getWay_errors kept searched found) run) run
    | none =>
      rw [searched] at run
      obtain ⟨t₁, appended, run⟩ := bind_success run
      have new := appendContainer_kept kept appended
      have same := modifyAt_kept new.1 (fun at' below n found below_kept run => by
        refine fill (next + 1) n at' below below_kept ?_ run
        rw [(appendContainer_ok appended).2] at found
        simp only [Table.at, add_attrMap, List.getElem?_concat_length, Option.bind_some,
          Attribute.table, Option.some.injEq] at found
        rw [← found, removeSpaceEncoding_errors]
        exact (List.suffix_append _ _).isInfix) run
      exact ⟨same.1, same.2.trans new.2⟩

theorem addAttribute_kept {value : List Char} (kept : KeptTable check t)
    (run : addAttribute check t next k name value = .ok (t', n)) :
    KeptTable check t' ∧ t'.name = t.name := by
  by_cases valid : hasChecker k = true → check k value = true
  · exact appendValue_kept kept (.inr valid) (addAttribute_ok valid run).1
  · have failing : (hasChecker k && !check k value) = true := by simpa using valid
    rw [addAttribute, if_pos failing] at run
    exact addBadAttribute_kept kept run

theorem addValues_kept {tokens : List (List Char)} (kept : KeptTable check t)
    (run : addValues check k name t next tokens = .ok (t', n)) :
    KeptTable check t' ∧ t'.name = t.name := by
  induction tokens generalizing t next with
  | nil =>
    cases run
    exact ⟨kept, rfl⟩
  | cons token tokens ih =>
    rw [addValues] at run
    obtain ⟨⟨t₁, middle⟩, first, run⟩ := bind_success run
    have one := addAttribute_kept kept first
    have rest := ih one.1 run
    exact ⟨rest.1, rest.2.trans one.2⟩

mutual
theorem attrTuple_kept (item : Item) (t : Table) (next : Nat) (kept : KeptTable check t)
    (t' : Table) (n : Nat) (run : attrTuple check t next item = .ok (t', n)) :
    KeptTable check t' ∧ t'.name = t.name := by
  cases item with
  | attr type name first more => exact addValues_kept kept run
  | container name items =>
    rw [attrTuple] at run
    cases searched : getWay t name with
    | some way =>
      rw [searched] at run
      exact modifyAt_kept kept (fun at' below n _ below_kept run =>
        attrList_kept items at' next below_kept below n run) run
    | none =>
      rw [searched] at run
      obtain ⟨t₁, appended, run⟩ := bind_success run
      have new := appendContainer_kept kept (rethrow_ok appended)
      have same := modifyAt_kept new.1 (fun at' below n _ below_kept run =>
        attrList_kept items at' (next + 1) below_kept below n run) run
      exact ⟨same.1, same.2.trans new.2⟩

theorem attrList_kept (items : List Item) (t : Table) (next : Nat) (kept : KeptTable check t)
    (t' : Table) (n : Nat) (run : attrList check t next items = .ok (t', n)) :
    KeptTable check t' ∧ t'.name = t.name := by
  cases items with
  | nil =>
    cases run
    exact ⟨kept, rfl⟩
  | cons item items =>
    rw [attrList] at run
    obtain ⟨⟨t₁, middle⟩, first, run⟩ := bind_success run
    have one := attrTuple_kept item t next kept t₁ middle first
    have rest := attrList_kept items t₁ middle one.1 t' n run
    exact ⟨rest.1, rest.2.trans one.2⟩
end

/-- Every tree that is parsed from a text keeps its values where they belong. -/
theorem parseText_kept {begun : Scanning} {text : List Char}
    (parsed : parseText check begun text = .ok (t, n)) : KeptTable check t ∧ t.name = [] := by
  have start : KeptTable check emptyDas := trivial
  cases read : readText begun text with
  | none =>
    rw [parseText, read] at parsed
    cases parsed
  | some attributes =>
    rw [parseText_read read] at parsed
    exact attrList_kept attributes.flatten emptyDas 1 start t n parsed

/-! ## Stability -/

mutual
theorem checkedItem_of_kept {any : Keyword → List Char → Bool} (e : Attribute)
    (table : List Char) (kept : Kept check table e) (survives : Survives any e) :
    CheckedItem check table (itemOf e) := by
  cases e with
  | values name type isGlobal attr =>
    obtain ⟨k, values, known, set, each⟩ := kept
    rw [Survives] at survives
    obtain ⟨_, k', value, more, keyword, set', _, survive⟩ := survives
    rw [known, keywordOf_stringToType, Option.some.injEq] at keyword
    subst keyword
    rw [set, Option.some.injEq] at set'
    subst set'
    rw [itemOf, set, known, keywordOf_stringToType, CheckedItem]
    by_cases errors : dodsErrors <:+: table
    · exact .inl errors
    · refine .inr fun token mem checker => ?_
      have there : token ∈ (value :: more).map (valueText (stringToType k.type)) := by
        simpa using mem
      obtain ⟨v, inside, rfl⟩ := List.mem_map.mp there
      have own := survive v inside
      rw [known] at own
      have same : stored k (valueText (stringToType k.type) v) = v.toList := own.stored
      rw [Option.getD_some, same]
      exact (each v inside).resolve_left errors checker
  | container name address tableName attrMap =>
    rw [Survives] at survives
    rw [Kept] at kept
    rw [itemOf, CheckedItem, survives.1.decoded, ← kept.1]
    exact checked_of_kept attrMap tableName kept.2 survives.2.2.2

theorem checked_of_kept {any : Keyword → List Char → Bool} (es : List Attribute)
    (table : List Char) (kept : AllKept check table es) (survive : AllSurvive any es) :
    Checked check table (itemsOf es) := by
  cases es with
  | nil => trivial
  | cons e es =>
    rw [AllKept] at kept
    rw [AllSurvive] at survive
    rw [itemsOf, Checked]
    exact ⟨checkedItem_of_kept e table kept.1 survive.1,
      checked_of_kept es table kept.2 survive.2⟩
end

/-- A text that does not end in a comment, whatever was scanned before it: its tree is stable
when all that is printed of it is scanned back and stored as it was. -/
theorem stable_of_survive {start : Scanning} {text : List Char}
    (parsed : parseText check start text = .ok (t, n))
    (ended : startAfter start text = .initial 0)
    (survive : AllSurvive (fun _ _ => true) t.attrMap)
    (fresh : Fresh emptyDas 1 (itemsOf t.attrMap)) :
    Stable check (startAfter start text) t := by
  rw [ended]
  have kept := parseText_kept parsed
  have checked := checked_of_kept t.attrMap t.name kept.1 survive
  rw [kept.2] at checked
  obtain ⟨again, printed, built⟩ := parseText_checked survive checked fresh
  refine ⟨again, _, _, printed, built, kept.2.symm, ?_⟩
  exact eraseAll_built t.attrMap survive 1

theorem fresh_values {type : Attributes.AttrType} {isGlobal : Bool}
    {attr : Option (List String)} :
    FreshItem t next (itemOf (.values name type isGlobal attr)) ↔
      removeSpaceEncoding (addSpaceEncoding name) ∉ Table.names t := by
  rw [itemOf, FreshItem]

theorem scans_letter {c : Char} (starts : startsWord c = true) : Scans [c] :=
  scans_word starts (by simp)

/-- A value without quotes is kept with its explanation. -/
def wordText : List Char := "Attributes \x7b\n    Byte x a;\n\x7d\n".toList

def wordTree : Table :=
  { address := 0, name := []
    attrMap := [.container "_dods_errors".toList 1 "_dods_errors".toList
      [.values ['x'] .byte true (some ["a"]),
        .values "x_explanation".toList .string true (some ["`a' is not a Byte value."])]] }

theorem wordEntry_survives : Survives (fun _ _ => true) (.values ['x'] .byte true (some ["a"])) := by
  have x : addSpaceEncoding ['x'] = ['x'] := by decide
  have text : valueText .byte "a" = ['a'] := by decide
  refine ⟨⟨x ▸ scans_letter (by decide), by decide⟩, .byte, "a", [], rfl, rfl, by decide, ?_⟩
  intro v mem
  rw [List.mem_singleton.mp mem]
  refine ⟨?_, by decide, fun _ => rfl⟩
  rw [text]
  exact ⟨scans_letter (by decide), by decide⟩

theorem wordText_parsed : parseText (fun _ _ => false) (.initial 0) wordText = .ok (wordTree, 2) := by
  have printed : printDas [.values ['x'] .byte true (some ["a"])] = .ok wordText := by rfl
  have survive : AllSurvive (fun _ _ => true) [.values ['x'] .byte true (some ["a"])] :=
    ⟨wordEntry_survives, trivial⟩
  rw [parseText, readText_of_printed survive printed]
  rfl

theorem explanation_survives : Survives (fun _ _ => true)
    (.values "x_explanation".toList .string true (some ["`a' is not a Byte value."])) := by
  have name : addSpaceEncoding "x_explanation".toList = "x_explanation".toList := by decide
  have text : valueText .string "`a' is not a Byte value." =
      doubleQuote :: "`a' is not a Byte value.".toList ++ [doubleQuote] := by decide
  refine ⟨⟨name ▸ scans_word (by decide) (all_mem (by decide)), by decide⟩, .string, _, [], rfl, rfl,
    by decide, ?_⟩
  intro v mem
  rw [List.mem_singleton.mp mem]
  refine ⟨?_, by decide, fun _ => rfl⟩
  rw [text]
  exact scansPlain_quoted (all_mem (by decide))

theorem stable_of_survive_wordText :
    Stable (fun _ _ => false) (startAfter (.initial 0) wordText) wordTree := by
  have name : addSpaceEncoding "_dods_errors".toList = "_dods_errors".toList := by decide
  have scans : Scans "_dods_errors".toList := scans_word (by decide) (all_mem (by decide))
  refine stable_of_survive wordText_parsed (by decide +kernel) ?_ ?_
  · exact ⟨⟨⟨name ▸ scans, by decide⟩, ⟨name ▸ scans, by decide⟩, rfl, wordEntry_survives,
      explanation_survives, trivial⟩, trivial⟩
  · refine ⟨⟨by decide, by decide, ?_⟩, trivial⟩
    exact ⟨fresh_values.mpr (by decide), fresh_values.mpr (by decide), trivial⟩

/-- A value in quotes, with the quotes. -/
def quotedA : String := String.ofList [doubleQuote, 'a', doubleQuote]

theorem quotedA_survives : ValueSurvives (fun _ _ => true) .byte .byte quotedA where
  scans := by
    have text : valueText .byte quotedA = doubleQuote :: ['a'] ++ [doubleQuote] := by decide
    rw [text]
    exact scansPlain_quoted (all_mem (by decide))
  stored := by decide
  valid := fun _ => rfl

theorem byteEntry_survives : AllSurvive (fun _ _ => true) [.values ['x'] .byte true (some [quotedA])] := by
  have x : addSpaceEncoding ['x'] = ['x'] := by decide
  refine ⟨⟨⟨x ▸ scans_letter (by decide), by decide⟩, .byte, quotedA, [], rfl, rfl, by decide, ?_⟩,
    trivial⟩
  intro v mem
  rw [List.mem_singleton.mp mem]
  exact quotedA_survives

/-- `Attributes { Byte x "a"; }`, over three lines. -/
def badText : List Char :=
  "Attributes \x7b\n    Byte x ".toList ++ quotedA.toList ++ ";\n\x7d\n".toList

def badTree : Table :=
  { address := 0, name := []
    attrMap := [.container "_dods_errors".toList 1 "_dods_errors".toList
      [.values ['x'] .byte true (some [quotedA]),
        .values "x_explanation".toList .string true
          (some ["`" ++ quotedA ++ "' is not a Byte value."])]] }

theorem badText_parsed : parseText (fun _ _ => false) (.initial 0) badText = .ok (badTree, 2) := by
  have printed : printDas [.values ['x'] .byte true (some [quotedA])] = .ok badText := by rfl
  rw [parseText, readText_of_printed byteEntry_survives printed]
  rfl

/-- What is printed of the tree, up to the explanation. -/
def badPrinted : List Char :=
  "Attributes".toList ++ ' ' :: '\x7b' :: '\n' :: ("    ".toList ++ ("_dods_errors".toList ++
    ' ' :: '\x7b' :: '\n' :: ("        ".toList ++ ("Byte".toList ++ ' ' :: (['x'] ++ ' ' ::
      (quotedA.toList ++ ';' :: '\n' :: ("        ".toList ++ ("String".toList ++ ' ' ::
        ("x_explanation".toList ++ [' '])))))))))

theorem badPrinted_gives : Gives badPrinted
    [.word .attr "Attributes".toList, .sign '\x7b', .word .plain "_dods_errors".toList,
      .sign '\x7b', .word (.type .byte) "Byte".toList, .word .plain ['x'],
      .word .plain quotedA.toList, .sign ';', .word (.type .string) "String".toList,
      .word .plain "x_explanation".toList] := by
  have explanation : Gives ("x_explanation".toList ++ [' '])
      [tokenOf "x_explanation".toList] :=
    gives_before (scans_word (by decide) (all_mem (by decide))) (by decide)
      (gives_blank (.inl rfl) gives_nil)
  have string : Gives ("String".toList ++ ' ' :: ("x_explanation".toList ++ [' ']))
      [tokenOf "String".toList, tokenOf "x_explanation".toList] :=
    gives_before (scans_word (by decide) (all_mem (by decide))) (by decide)
      (gives_blank (.inl rfl) explanation)
  have quoted : Scans quotedA.toList := quotedA_survives.scans.1
  have value : Gives (quotedA.toList ++ ';' :: '\n' :: ("        ".toList ++ _)) _ :=
    gives_before quoted (by decide) (gives_sign (by decide) (gives_blank (.inr rfl)
      ((gives_blanks (all_mem (by decide) : ∀ c ∈ "        ".toList, c = ' ')).append string)))
  have byte : Gives ("Byte".toList ++ ' ' :: (['x'] ++ ' ' :: _)) _ :=
    gives_before (scans_word (by decide) (all_mem (by decide))) (by decide) (gives_blank (.inl rfl)
      (gives_before (scans_letter (by decide)) (by decide) (gives_blank (.inl rfl) value)))
  have container : Gives ("_dods_errors".toList ++ ' ' :: '\x7b' :: '\n' :: _) _ :=
    gives_before (scans_word (by decide) (all_mem (by decide))) (by decide) (gives_blank (.inl rfl)
      (gives_sign (by decide) (gives_blank (.inr rfl)
        ((gives_blanks (all_mem (by decide) : ∀ c ∈ "        ".toList, c = ' ')).append byte))))
  have whole : Gives ("Attributes".toList ++ ' ' :: '\x7b' :: '\n' :: _) _ :=
    gives_before (scans_word (by decide) (all_mem (by decide))) (by decide) (gives_blank (.inl rfl)
      (gives_sign (by decide) (gives_blank (.inr rfl)
        ((gives_blanks (all_mem (by decide) : ∀ c ∈ "    ".toList, c = ' ')).append container))))
  exact whole

/-- The explanation ends at the quote of the value. -/
theorem badTree_unread : ∃ text, printDas badTree.attrMap = .ok text ∧ readText (.initial 0) text = none := by
  obtain ⟨rest, shape⟩ : ∃ rest, printDas badTree.attrMap =
      .ok (badPrinted ++ (doubleQuote :: ['`'] ++ doubleQuote :: (['a'] ++ doubleQuote :: rest))) :=
    ⟨"' is not a Byte value.".toList ++ doubleQuote :: ";\n    \x7d\n\x7d\n".toList, rfl⟩
  refine ⟨_, shape, ?_⟩
  have plain : ∀ c ∈ ['`'], c ≠ doubleQuote ∧ c ≠ backslash ∧ c ≠ '\r' := all_mem (by decide)
  have quote := scan_quoted plain (['a'] ++ doubleQuote :: rest)
  have a := scans_letter (c := 'a') (by decide) doubleQuote rest (by decide)
  rw [readText, badPrinted_gives, quote, a]
  have long : 6 ≤ (badPrinted ++ (doubleQuote :: ['`'] ++ doubleQuote ::
      (['a'] ++ doubleQuote :: rest))).length := by
    rw [List.length_append]
    exact Nat.le_add_right_of_le (by decide)
  obtain ⟨fuel, length⟩ := Nat.exists_eq_add_of_le' long
  rw [length]
  rfl

theorem stable_fails : parseText (fun _ _ => false) (.initial 0) badText = .ok (badTree, 2) ∧
    ¬ Stable (fun _ _ => false) (startAfter (.initial 0) badText) badTree := by
  refine ⟨badText_parsed, fun stable => ?_⟩
  rw [show startAfter (.initial 0) badText = .initial 0 by decide +kernel] at stable
  obtain ⟨text, t, n, printed, parsed, _⟩ := stable
  obtain ⟨text', printed', unread⟩ := badTree_unread
  rw [printed, Except.ok.injEq] at printed'
  rw [parseText, printed', unread] at parsed
  cases parsed

end Libdap.Guarantees.DASStability
