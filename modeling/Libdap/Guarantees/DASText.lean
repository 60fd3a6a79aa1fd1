import Libdap.Guarantees.DASParser
import Libdap.Source.DASText

/-!
# A printed DAS is read back

Names and values that the scanner reads back one by one are read back in the text of a
whole DAS: the scanner gives the tokens of the entries, and the grammar the tree of the
entries.
-/
namespace Libdap.Guarantees.DASText
open Libdap.Source Libdap.Source.AttributeTransfer Libdap.Source.DASParser Libdap.Source.DASText
open Libdap.Source.Attributes (AttrType demand removeSpaceEncoding addSpaceEncoding stringToType
  typeToString writeAttribute writeValues isQuoted)
open Libdap.Guarantees.DASParser

def keywordOf : AttrType → Option Keyword
  | .byte => some .byte
  | .int16 => some .int16
  | .uint16 => some .uint16
  | .int32 => some .int32
  | .uint32 => some .uint32
  | .float32 => some .float32
  | .float64 => some .float64
  | .string => some .string
  | .url => some .url
  | .otherXml => some .xml
  | _ => none

/-- The token of a word or of a quote. -/
def tokenOf (s : List Char) : Token :=
  .word (if s.head? = some doubleQuote then .plain else kindOf s) s

/-- The scanner reads `s` as one token. -/
def Scans (s : List Char) : Prop :=
  ∀ c rest, isWordChar c = false →
    scan (.initial 0) (s ++ c :: rest) = .ok (tokenOf s) :: scan (.initial 0) (c :: rest)

/-- As `Scans`, and the token is no keyword. -/
def ScansPlain (s : List Char) : Prop := Scans s ∧ tokenOf s = .word .plain s

/-- A value as it is printed. -/
def valueText (type : AttrType) (value : String) : List Char :=
  writeAttribute type value.toList []

section
variable (check : Keyword → List Char → Bool)

/-- A value that is one token when it is printed, from which the parser stores it again. -/
structure ValueSurvives (k : Keyword) (type : AttrType) (value : String) : Prop where
  scans : ScansPlain (valueText type value)
  stored : stored k (valueText type value) = value.toList
  valid : hasChecker k = true → check k value.toList = true

structure NameSurvives (name : List Char) : Prop where
  scans : Scans (addSpaceEncoding name)
  decoded : removeSpaceEncoding (addSpaceEncoding name) = name

mutual
/-- Entries that survive being printed and read. -/
def Survives : Attribute → Prop
  | .values name type _ attr => NameSurvives name ∧
      ∃ k value values, keywordOf type = some k ∧ attr = some (value :: values) ∧
        (k = .xml → values = []) ∧ ∀ v ∈ value :: values, ValueSurvives check k type v
  | .container name _ tableName attrMap => NameSurvives name ∧
      ScansPlain (addSpaceEncoding name) ∧ tableName = name ∧ AllSurvive attrMap

def AllSurvive : List Attribute → Prop
  | [] => True
  | e :: es => Survives e ∧ AllSurvive es
end

end

mutual
/-- The tree of reductions of printed entries. -/
def itemOf : Attribute → Item
  | .values name type _ attr =>
    let tokens := (attr.getD []).map (valueText type)
    .attr ((keywordOf type).getD .string) (addSpaceEncoding name) (tokens.headD []) tokens.tail
  | .container name _ _ attrMap => .container (addSpaceEncoding name) (itemsOf attrMap)

def itemsOf : List Attribute → List Item
  | [] => []
  | e :: es => itemOf e :: itemsOf es
end

mutual
def tokensOf : Item → List Token
  | .attr type name first more =>
    .word (.type type) type.type :: tokenOf name :: tokenOf first ::
      (more.flatMap fun value => [.sign ',', tokenOf value]) ++ [.sign ';']
  | .container name items => tokenOf name :: .sign '\x7b' :: tokensAll items ++ [.sign '\x7d']

def tokensAll : List Item → List Token
  | [] => []
  | item :: items => tokensOf item ++ tokensAll items
end

/-! ## Scanning -/

variable {check : Keyword → List Char → Bool} {s rest : List Char} {c : Char} {es : List Attribute}

theorem scan_skip (skipped rest : List Char) :
    scan (.initial skipped.length) (skipped ++ rest) = scan (.initial 0) rest := by
  induction skipped with
  | nil => rfl
  | cons c skipped ih =>
    rw [List.length_cons, List.cons_append, scan.eq_def]
    exact ih

theorem scan_sign (sign : isSign c = true) :
    scan (.initial 0) (c :: rest) = .ok (.sign c) :: scan (.initial 0) rest := by
  have noWord : startsWord c = false := by
    simp only [isSign, List.mem_cons, List.not_mem_nil, or_false, decide_eq_true_eq] at sign
    rcases sign with rfl | rfl | rfl | rfl <;> decide
  rw [scan.eq_def]
  simp [noWord, sign]

theorem scan_blank (blank : c = ' ' ∨ c = '\n') :
    scan (.initial 0) (c :: rest) = scan (.initial 0) rest := by
  have other : startsWord c = false ∧ isSign c = false ∧ c ≠ '#' ∧ c ≠ doubleQuote := by
    rcases blank with rfl | rfl <;> decide
  rw [scan.eq_def]
  simp [other]

theorem all_mem {p : Char → Prop} [DecidablePred p] {cs : List Char}
    (all : (cs.all fun c => decide (p c)) = true) : ∀ c ∈ cs, p c := fun c mem =>
  of_decide_eq_true (List.all_eq_true.mp all c mem)

theorem scan_blanks {pad : List Char} (blanks : ∀ c ∈ pad, c = ' ') (rest : List Char) :
    scan (.initial 0) (pad ++ rest) = scan (.initial 0) rest := by
  induction pad with
  | nil => rfl
  | cons c pad ih =>
    rw [List.cons_append, scan_blank (.inl (blanks c List.mem_cons_self))]
    exact ih fun c' mem => blanks c' (List.mem_cons_of_mem c mem)

/-- A run of word characters is one token. -/
theorem scans_word {first : Char} {more : List Char} (starts : startsWord first = true)
    (all : ∀ c ∈ more, isWordChar c = true) : Scans (first :: more) := by
  intro c rest other
  have noQuote : ¬ (first :: more).head? = some doubleQuote := by
    intro same
    have quoted : first = doubleQuote := by simpa using same
    rw [quoted] at starts
    exact absurd starts (by decide)
  have run : (more ++ c :: rest).takeWhile isWordChar = more := by
    rw [List.takeWhile_append_of_pos all, List.takeWhile_cons_of_neg (by simp [other]),
      List.append_nil]
  rw [tokenOf, if_neg noQuote, List.cons_append, scan.eq_def]
  simp only [starts, if_true, run]
  rw [scan_skip]

/-- What is between two quotes is one token, unless it has another or a backslash. -/
theorem scan_quoted {body : List Char}
    (plain : ∀ c ∈ body, c ≠ doubleQuote ∧ c ≠ backslash ∧ c ≠ '\r') (rest : List Char) :
    scan (.initial 0) (doubleQuote :: body ++ doubleQuote :: rest) =
      .ok (.word .plain (doubleQuote :: body ++ [doubleQuote])) :: scan (.initial 0) rest := by
  have inside : ∀ yytext, scan (.quote yytext) (body ++ doubleQuote :: rest) =
      .ok (.word .plain (yytext ++ body ++ [doubleQuote])) :: scan (.initial 0) rest := by
    induction body with
    | nil =>
      intro yytext
      rw [List.nil_append, scan.eq_def, List.append_nil]
      simp
    | cons c body ih =>
      intro yytext
      have own := plain c List.mem_cons_self
      have later := ih (fun d mem => plain d (List.mem_cons_of_mem c mem)) (yytext ++ [c])
      rw [List.append_assoc yytext, List.singleton_append] at later
      rw [List.cons_append, scan.eq_def]
      simpa only [own.1, own.2.1, own.2.2, if_false] using later
  have other : startsWord doubleQuote = false ∧ isSign doubleQuote = false ∧
      doubleQuote ≠ '#' := by decide
  rw [List.cons_append, scan.eq_def]
  simpa [other] using inside [doubleQuote]

theorem scansPlain_quoted {body : List Char}
    (plain : ∀ c ∈ body, c ≠ doubleQuote ∧ c ≠ backslash ∧ c ≠ '\r') :
    ScansPlain (doubleQuote :: body ++ [doubleQuote]) := by
  have token : tokenOf (doubleQuote :: body ++ [doubleQuote]) =
      .word .plain (doubleQuote :: body ++ [doubleQuote]) := by simp [tokenOf]
  refine ⟨fun c rest _ => ?_, token⟩
  rw [token, List.append_assoc]
  exact scan_quoted plain (c :: rest)

theorem scans_type (k : Keyword) : Scans k.type ∧ tokenOf k.type = .word (.type k) k.type := by
  cases k <;> exact ⟨scans_word (by decide) (all_mem (by decide)), by decide⟩

theorem typeToString_of_keyword {type : AttrType} {k : Keyword} (found : keywordOf type = some k) :
    (typeToString type).toList = k.type ∧ stringToType k.type = type := by
  cases type <;> cases found <;> exact ⟨by decide, by decide⟩

theorem writeAttribute_term (type : AttrType) (value term : List Char) :
    writeAttribute type value term = writeAttribute type value [] ++ term := by
  unfold writeAttribute
  cases type <;> simp

/-- The text gives these tokens, whatever follows it. -/
def Gives (text : List Char) (tokens : List Token) : Prop :=
  ∀ rest, scan (.initial 0) (text ++ rest) = tokens.map .ok ++ scan (.initial 0) rest

theorem Gives.append {text more : List Char} {tokens later : List Token}
    (first : Gives text tokens) (second : Gives more later) :
    Gives (text ++ more) (tokens ++ later) := by
  intro rest
  rw [List.append_assoc, first, second, List.map_append, List.append_assoc]

theorem gives_blanks {pad : List Char} (blanks : ∀ c ∈ pad, c = ' ') : Gives pad [] :=
  fun rest => scan_blanks blanks rest

/-- A token and the character behind it. -/
theorem gives_before (scans : Scans s) (other : isWordChar c = false) {tokens : List Token}
    {text : List Char} (next : Gives (c :: text) tokens) :
    Gives (s ++ c :: text) (tokenOf s :: tokens) := by
  intro rest
  rw [List.append_assoc, List.cons_append, scans c (text ++ rest) other]
  exact congrArg (.ok (tokenOf s) :: ·) (next rest)

theorem gives_blank {text : List Char} {tokens : List Token} (blank : c = ' ' ∨ c = '\n')
    (next : Gives text tokens) : Gives (c :: text) tokens := by
  intro rest
  rw [List.cons_append, scan_blank blank]
  exact next rest

theorem gives_sign {text : List Char} {tokens : List Token} (sign : isSign c = true)
    (next : Gives text tokens) : Gives (c :: text) (.sign c :: tokens) := by
  intro rest
  rw [List.cons_append, scan_sign sign]
  exact congrArg (.ok (.sign c) :: ·) (next rest)

theorem gives_nil : Gives [] [] := fun _ => rfl

theorem writeValues_gives {type : AttrType} {value : String} {values : List String}
    (scans : ∀ v ∈ value :: values, ScansPlain (valueText type v)) :
    ∃ written, writeValues type (value :: values) = .ok written ∧
      Gives written (tokenOf (valueText type value) ::
        ((values.map (valueText type)).flatMap fun v => [.sign ',', tokenOf v]) ++ [.sign ';']) := by
  induction values generalizing value with
  | nil =>
    refine ⟨writeAttribute type value.toList ";\n".toList, rfl, ?_⟩
    rw [writeAttribute_term]
    exact gives_before (scans value List.mem_cons_self).1 (by decide)
      (gives_sign (by decide) (gives_blank (.inr rfl) gives_nil))
  | cons next values ih =>
    obtain ⟨written, run, gives⟩ := ih fun v mem => scans v (List.mem_cons_of_mem value mem)
    refine ⟨writeAttribute type value.toList ", ".toList ++ written, ?_, ?_⟩
    · rw [writeValues, run]
      rfl
    · rw [writeAttribute_term, List.append_assoc]
      exact gives_before (scans value List.mem_cons_self).1 (by decide)
        (gives_sign (by decide) (gives_blank (.inl rfl) gives))

theorem blanks_indent {pad : List Char} (blanks : ∀ c ∈ pad, c = ' ') :
    ∀ c ∈ pad ++ "    ".toList, c = ' ' := by
  intro c mem
  rw [List.mem_append] at mem
  cases mem with
  | inl before => exact blanks c before
  | inr added =>
    have spaces : ∀ c ∈ "    ".toList, c = ' ' := all_mem (by decide)
    exact spaces c added

mutual
/-- Printed entries give the tokens of their tree. -/
theorem printEntry_gives (e : Attribute) (survives : Survives check e) (pad : List Char)
    (blanks : ∀ c ∈ pad, c = ' ') :
    ∃ text, printEntry pad e = .ok text ∧ Gives text (tokensOf (itemOf e)) := by
  cases e with
  | values name type isGlobal attr =>
    rw [Survives] at survives
    obtain ⟨nameSurvives, k, value, values, keyword, set, _, each⟩ := survives
    obtain ⟨written, run, gives⟩ := writeValues_gives fun v mem => (each v mem).scans
    refine ⟨pad ++ (typeToString type).toList ++ [' '] ++ addSpaceEncoding name ++ [' '] ++
      written, ?_, ?_⟩
    · rw [printEntry, set]
      simp only [demand, bind, Except.bind, run]
      rfl
    · rw [itemOf, tokensOf, keyword, set, (typeToString_of_keyword keyword).1]
      have typeScans := scans_type k
      have whole := (gives_blanks blanks).append (gives_before typeScans.1 (by decide)
        (gives_blank (.inl rfl) (gives_before nameSurvives.scans (by decide)
          (gives_blank (.inl rfl) gives))))
      rw [typeScans.2] at whole
      simpa using whole
  | container name address tableName attrMap =>
    rw [Survives] at survives
    obtain ⟨nameSurvives, scans, _, below⟩ := survives
    obtain ⟨body, run, gives⟩ := printAll_gives attrMap below (pad ++ "    ".toList)
      (blanks_indent blanks)
    refine ⟨pad ++ addSpaceEncoding name ++ " \x7b\n".toList ++ body ++ pad ++
      "\x7d\n".toList, ?_, ?_⟩
    · rw [printEntry, run]
      rfl
    · rw [itemOf, tokensOf]
      have close : Gives (pad ++ "\x7d\n".toList) [.sign '\x7d'] :=
        (gives_blanks blanks).append
          (gives_sign (by decide) (gives_blank (.inr rfl) gives_nil))
      have inner : Gives ('\x7b' :: '\n' :: (body ++ (pad ++ "\x7d\n".toList)))
          (.sign '\x7b' :: (tokensAll (itemsOf attrMap) ++ [.sign '\x7d'])) :=
        gives_sign (by decide) (gives_blank (.inr rfl) (gives.append close))
      have whole := (gives_blanks blanks).append (gives_before nameSurvives.scans (by decide)
        (gives_blank (.inl rfl) inner))
      simpa using whole

theorem printAll_gives (es : List Attribute) (survive : AllSurvive check es) (pad : List Char)
    (blanks : ∀ c ∈ pad, c = ' ') :
    ∃ text, printAll pad es = .ok text ∧ Gives text (tokensAll (itemsOf es)) := by
  cases es with
  | nil => exact ⟨[], rfl, gives_nil⟩
  | cons e es =>
    rw [AllSurvive] at survive
    obtain ⟨first, run, gives⟩ := printEntry_gives e survive.1 pad blanks
    obtain ⟨later, runs, givesAll⟩ := printAll_gives es survive.2 pad blanks
    refine ⟨first ++ later, ?_, ?_⟩
    · rw [printAll, run]
      simp only [bind, Except.bind, runs]
      rfl
    · rw [itemsOf, tokensAll]
      exact gives.append givesAll
end

/-! ## Reading -/

theorem readMore_values {values : List (List Char)} (rest : Tokens)
    (plain : ∀ v ∈ values, tokenOf v = .word .plain v) (fuel : Nat)
    (enough : values.length < fuel) :
    readMore fuel ((values.flatMap fun v => [.sign ',', tokenOf v]).map .ok ++
      .ok (.sign ';') :: rest) = some (values, .ok (.sign ';') :: rest) := by
  induction values generalizing fuel with
  | nil =>
    cases fuel with
    | zero => cases enough
    | succ fuel => rfl
  | cons v values ih =>
    cases fuel with
    | zero => cases enough
    | succ fuel =>
      have later := ih (fun w mem => plain w (List.mem_cons_of_mem v mem)) fuel
        (Nat.lt_of_succ_lt_succ enough)
      rw [List.flatMap_cons, plain v List.mem_cons_self, List.map_append, List.append_assoc,
        readMore]
      simp only [List.map_cons, List.map_nil, List.cons_append, List.nil_append, expect, if_true,
        readWord, bind, Option.bind, later]

theorem readName_tokenOf (s : List Char) (rest : Tokens) :
    readName (.ok (tokenOf s) :: rest) = some (s, rest) := rfl

theorem length_flatMap_pairs (values : List (List Char)) :
    (values.flatMap fun v => [Token.sign ',', tokenOf v]).length = 2 * values.length := by
  induction values with
  | nil => rfl
  | cons v values ih =>
    rw [List.flatMap_cons, List.length_append, ih, List.length_cons]
    simp only [List.length_cons, List.length_nil]
    omega

theorem readList_survives (fuel : Nat) (es : List Attribute) (survive : AllSurvive check es)
    (tail : Tokens) (enough : (tokensAll (itemsOf es)).length < fuel) :
    readList fuel ((tokensAll (itemsOf es)).map .ok ++ .ok (.sign '\x7d') :: tail) =
      some (itemsOf es, .ok (.sign '\x7d') :: tail) := by
  induction fuel generalizing es tail with
  | zero => cases enough
  | succ fuel ih =>
    cases es with
    | nil => rfl
    | cons e es =>
      rw [AllSurvive] at survive
      rw [itemsOf, tokensAll, List.length_append] at enough
      rw [itemsOf, tokensAll, List.map_append, List.append_assoc]
      cases e with
      | values name type isGlobal attr =>
        obtain ⟨head, tailSurvive⟩ := survive
        rw [Survives] at head
        obtain ⟨_, k, value, values, keyword, set, single, each⟩ := head
        have plain : ∀ v ∈ values.map (valueText type), tokenOf v = .word .plain v := by
          intro v mem
          obtain ⟨w, there, rfl⟩ := List.mem_map.mp mem
          exact (each w (List.mem_cons_of_mem value there)).scans.2
        have first := (each value List.mem_cons_self).scans.2
        rw [itemOf, tokensOf, set, keyword] at enough ⊢
        simp only [Option.getD_some, List.map_cons, List.headD_cons, List.tail_cons, List.length_cons,
          List.length_append, length_flatMap_pairs] at enough
        have later := ih es tailSurvive tail (by omega)
        have more := readMore_values
          ((tokensAll (itemsOf es)).map .ok ++ .ok (.sign '\x7d') :: tail) plain fuel (by omega)
        simp only [Option.getD_some, List.map_cons, List.headD_cons, List.tail_cons, first,
          List.map_append, List.map_nil, List.cons_append, List.append_assoc, List.nil_append,
          readList, readName_tokenOf, readWord, bind, Option.bind]
        by_cases xml : k = .xml
        · rw [if_pos xml]
          have none_more := single xml
          subst none_more
          simp only [List.map_nil, List.flatMap_nil, List.nil_append, expect, if_true, later]
        · rw [if_neg xml]
          simp only [more, expect, if_true, later]
      | container name address tableName attrMap =>
        obtain ⟨head, tailSurvive⟩ := survive
        rw [Survives] at head
        obtain ⟨_, scans, _, below⟩ := head
        rw [itemOf, tokensOf, scans.2] at enough ⊢
        simp only [List.length_cons, List.length_append] at enough
        have inner := ih attrMap below
          ((tokensAll (itemsOf es)).map .ok ++ .ok (.sign '\x7d') :: tail) (by omega)
        have later := ih es tailSurvive tail (by omega)
        simp only [List.map_cons, List.map_append, List.map_nil, List.cons_append,
          List.append_assoc, List.nil_append, readList, expect, if_true, bind, Option.bind, inner,
          later]

/-- The scanner gives no more tokens than characters, and what it throws. -/
theorem scan_length (state : Scanning) (text : List Char) :
    (scan state text).length ≤ text.length + 1 := by
  fun_induction scan state text <;> simp_all <;> omega

/-- Entries that survive are printed as a text with their tree. -/
theorem readText_printed (survive : AllSurvive check es) :
    ∃ text, printDas es = .ok text ∧ readText (.initial 0) text = some [itemsOf es] := by
  obtain ⟨body, run, gives⟩ := printAll_gives es survive "    ".toList (all_mem (by decide))
  refine ⟨"Attributes \x7b\n".toList ++ body ++ "\x7d\n".toList, ?_, ?_⟩
  · rw [printDas, run]
    rfl
  · have close : Gives "\x7d\n".toList [.sign '\x7d'] :=
      gives_sign (by decide) (gives_blank (.inr rfl) gives_nil)
    have inner : Gives ('\x7b' :: '\n' :: (body ++ "\x7d\n".toList))
        (.sign '\x7b' :: (tokensAll (itemsOf es) ++ [.sign '\x7d'])) :=
      gives_sign (by decide) (gives_blank (.inr rfl) (gives.append close))
    have attributes : Scans "Attributes".toList := scans_word (by decide) (all_mem (by decide))
    have whole := gives_before attributes (by decide) (gives_blank (.inl rfl) inner) []
    have keyword : tokenOf "Attributes".toList = .word .attr "Attributes".toList := by decide
    have shape : "Attributes \x7b\n".toList ++ body ++ "\x7d\n".toList =
        "Attributes".toList ++ ' ' :: '\x7b' :: '\n' :: (body ++ "\x7d\n".toList) := by
      simp [show "Attributes \x7b\n".toList = "Attributes".toList ++ [' ', '\x7b', '\n'] from rfl]
    rw [List.append_nil, ← shape, keyword] at whole
    generalize "Attributes \x7b\n".toList ++ body ++ "\x7d\n".toList = text at whole ⊢
    have bound := scan_length (.initial 0) text
    have ended : scan (.initial 0) [] = [] := rfl
    rw [whole, ended, List.append_nil] at bound
    simp only [List.length_map, List.length_cons, List.length_append, List.length_nil] at bound
    have list := readList_survives (text.length + 1) es survive [] (by omega)
    rw [readText, whole, ended, List.append_nil]
    simp only [List.map_cons, List.map_append, List.map_nil, readAttributes, expect, if_true,
      bind, Option.bind, list]

theorem readText_of_printed (survive : AllSurvive check es) {text : List Char}
    (printed : printDas es = .ok text) : readText (.initial 0) text = some [itemsOf es] := by
  obtain ⟨text', run, read⟩ := readText_printed survive
  rw [printed, Except.ok.injEq] at run
  exact run ▸ read

/-! ## The tree again -/

mutual
/-- A table without the addresses of those below it. -/
def erase : Attribute → Attribute
  | .values name type _ attr => .values name type true attr
  | .container name _ tableName attrMap => .container name 0 tableName (eraseAll attrMap)

def eraseAll : List Attribute → List Attribute
  | [] => []
  | e :: es => erase e :: eraseAll es
end

theorem stored_values {k : Keyword} {type : AttrType} {values : List String}
    (each : ∀ v ∈ values, ValueSurvives check k type v) :
    (values.map (valueText type)).map (fun token => String.ofList (stored k token)) = values := by
  rw [List.map_map]
  refine (List.map_congr_left fun v mem => ?_).trans (List.map_id values)
  rw [Function.comp_apply, (each v mem).stored, String.ofList_toList, id]

mutual
/-- What the parser builds of printed entries is what was printed. -/
theorem erase_built (e : Attribute) (survives : Survives check e) (next : Nat) :
    erase (builtEntry next (itemOf e)).1 = erase e := by
  cases e with
  | values name type isGlobal attr =>
    rw [Survives] at survives
    obtain ⟨nameSurvives, k, value, values, keyword, set, _, each⟩ := survives
    have same := stored_values each
    rw [List.map_cons] at same
    rw [itemOf, keyword, set]
    simp only [Option.getD_some, List.map_cons, List.headD_cons, List.tail_cons, builtEntry, erase,
      nameSurvives.decoded, (typeToString_of_keyword keyword).2, same]
  | container name address tableName attrMap =>
    rw [Survives] at survives
    obtain ⟨nameSurvives, _, named, below⟩ := survives
    rw [itemOf, builtEntry, erase, erase, nameSurvives.decoded, named,
      eraseAll_built attrMap below (next + 1)]

theorem eraseAll_built (es : List Attribute) (survive : AllSurvive check es) (next : Nat) :
    eraseAll (built next (itemsOf es)).1 = eraseAll es := by
  cases es with
  | nil => rfl
  | cons e es =>
    rw [AllSurvive] at survive
    rw [itemsOf, built, eraseAll, eraseAll, erase_built e survive.1 next,
      eraseAll_built es survive.2]
end

mutual
theorem validItem_of_survives (e : Attribute) (survives : Survives check e) :
    ValidItem check (itemOf e) := by
  cases e with
  | values name type isGlobal attr =>
    rw [Survives] at survives
    obtain ⟨_, k, value, values, keyword, set, _, each⟩ := survives
    rw [itemOf, keyword, set, ValidItem]
    intro token mem checked
    have there : token ∈ (value :: values).map (valueText type) := by simpa using mem
    obtain ⟨v, inside, rfl⟩ := List.mem_map.mp there
    have survives := each v inside
    have same : stored k (valueText type v) = v.toList := survives.stored
    simp only [Option.getD_some] at checked ⊢
    rw [same]
    exact survives.valid checked
  | container name address tableName attrMap =>
    rw [Survives] at survives
    rw [itemOf, ValidItem]
    exact valid_of_survive attrMap survives.2.2.2

theorem valid_of_survive (es : List Attribute) (survive : AllSurvive check es) :
    Valid check (itemsOf es) := by
  cases es with
  | nil => trivial
  | cons e es =>
    rw [AllSurvive] at survive
    rw [itemsOf, Valid]
    exact ⟨validItem_of_survives e survive.1, valid_of_survive es survive.2⟩
end

mutual
theorem writtenItem_itemOf (e : Attribute) : writtenItem (itemOf e) = sizeOfEntry e := by
  cases e with
  | values name type isGlobal attr => rfl
  | container name address tableName attrMap =>
    rw [itemOf, writtenItem, sizeOfEntry, written_itemsOf attrMap]

theorem written_itemsOf (es : List Attribute) : written (itemsOf es) = entries es := by
  cases es with
  | nil => rfl
  | cons e es => rw [itemsOf, written, entries, writtenItem_itemOf e, written_itemsOf es]
end

/-- The actions of a text run from an empty DAS. -/
theorem parseText_read {start : Scanning} {text : List Char} {attributes : List (List Item)}
    (read : readText start text = some attributes) :
    parseText check start text = attrList check emptyDas 1 attributes.flatten := by
  rw [parseText, read, ← parse_flatten]
  rfl

/-- A printed DAS whose names are new to the searches, and whose values stay where they are,
is parsed to what it was. -/
theorem parseText_checked {any : Keyword → List Char → Bool} (survive : AllSurvive any es)
    (checked : Checked check [] (itemsOf es)) (fresh : Fresh emptyDas 1 (itemsOf es)) :
    ∃ text, printDas es = .ok text ∧
      parseText check (.initial 0) text = .ok (Table.add emptyDas (built 1 (itemsOf es)).1,
        (built 1 (itemsOf es)).2) := by
  obtain ⟨text, run, read⟩ := readText_printed survive
  refine ⟨text, run, ?_⟩
  rw [parseText_read read, List.flatten_singleton]
  exact attrList_checked (itemsOf es) emptyDas 1 checked fresh

theorem parseText_printed (survive : AllSurvive check es)
    (fresh : Fresh emptyDas 1 (itemsOf es)) :
    ∃ text, printDas es = .ok text ∧
      parseText check (.initial 0) text = .ok (Table.add emptyDas (built 1 (itemsOf es)).1,
        (built 1 (itemsOf es)).2) :=
  parseText_checked survive (checked_of_valid (itemsOf es) [] (valid_of_survive es survive)) fresh

/-- A printed DAS gives at most as many entries as it has, in the outermost table. -/
theorem parseText_entries (survive : AllSurvive check es) {text : List Char} {t : Table} {n : Nat}
    (printed : printDas es = .ok text) (parsed : parseText check (.initial 0) text = .ok (t, n)) :
    entries t.attrMap ≤ entries es ∧ t.name = [] := by
  rw [parseText_read (readText_of_printed survive printed), List.flatten_singleton] at parsed
  have valid := valid_of_survive es survive
  have bound := (attrList_size (itemsOf es) emptyDas 1 valid t n parsed).1
  rw [written_itemsOf] at bound
  have start : entries emptyDas.attrMap = 0 := rfl
  exact ⟨by omega, attrList_name (itemsOf es) emptyDas 1 valid t n parsed⟩

end Libdap.Guarantees.DASText
