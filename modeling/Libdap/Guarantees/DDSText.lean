import Libdap.Guarantees.IdentifierEscapes
import Libdap.Guarantees.SizeWords
import Libdap.Source.DDSText

/-!
# A printed DDS is scanned and read

What a declaration prints is tokens one after the other, each ended by the character behind it,
and the grammar reads the tokens of a declaration back into its tree.
-/
namespace Libdap.Guarantees.DDSText
open Libdap.Source Libdap.Source.Array Libdap.Source.Escaping Libdap.Source.Words
open Libdap.Source.Declarations Libdap.Source.DDSText
open Libdap.Guarantees.IdentifierEscapes

/-- Text that the scanner takes as one word and does not cut. -/
structure IsWord (s : Text) : Prop where
  nonempty : s ≠ []
  chars : ∀ c ∈ s, startsWord c = true
  short : s.length < idMax

/-- A name that a declaration may have. -/
structure Named (n : Text) : Prop where
  nonempty : n ≠ []
  nonzero : 0 ∉ n
  short : (id2www n).length < idMax
  name : kindOf (id2www n) ≠ .dataset

theorem named_of {n : Text} (fine : n ≠ [] ∧ 0 ∉ n ∧ (id2www n).length < idMax ∧
    kindOf (id2www n) ≠ .dataset) : Named n := ⟨fine.1, fine.2.1, fine.2.2.1, fine.2.2.2⟩

/-- A dimension that is printed with its name, which is no keyword, or without one, and whose
size is an `int`. -/
structure DimensionReads (d : Dimension) : Prop where
  low : -2 ^ 31 ≤ d.size
  high : d.size < 2 ^ 31
  name : d.name ≠ "" → 0 ∉ bytes d.name ∧ (id2www (bytes d.name)).length < idMax ∧
    kindOf (id2www (bytes d.name)) = .plain ∧ bytes d.name ≠ [] ∧
      Hyperslab.shown (bytes d.name) = d.name

mutual
/-- Variables whose declarations can be printed and read. An array's name is decoded twice. -/
def Readable : Var → Prop
  | .simple _ name _ => Named name
  | .array name _ var dims =>
    percent ∉ name ∧ var.name = name ∧ var.isArray = false ∧ Readable var ∧
      dims.shape ≠ [] ∧ ∀ d ∈ dims.shape, DimensionReads d
  | .constructor isSequence name sendP vars =>
    Named name ∧ checkSemantics false (.constructor isSequence name sendP vars) = true ∧
      AllReadable vars
  | .grid name sendP arrayVar mapVars =>
    Named name ∧ checkSemantics false (.grid name sendP arrayVar mapVars) = true ∧
      Readable arrayVar ∧ AllReadable mapVars

def AllReadable : List Var → Prop
  | [] => True
  | v :: vars => Readable v ∧ AllReadable vars
end

theorem Readable.name_nonempty {v : Var} (readable : Readable v) : v.name ≠ [] := by
  cases v with
  | simple type name sendP => exact Named.nonempty readable
  | array name sendP var dims =>
    rw [Readable] at readable
    obtain ⟨_, named, plain, template, _⟩ := readable
    rw [Var.name, ← named]
    cases var with
    | simple type n sendP => exact Named.nonempty template
    | array n sendP var dims => cases plain
    | constructor isSequence n sendP vars =>
      rw [Readable] at template
      exact template.1.nonempty
    | grid n sendP arrayVar mapVars =>
      rw [Readable] at template
      exact template.1.nonempty
  | constructor isSequence name sendP vars =>
    rw [Readable] at readable
    exact readable.1.nonempty
  | grid name sendP arrayVar mapVars =>
    rw [Readable] at readable
    exact readable.1.nonempty

theorem Readable.named {v : Var} (readable : Readable v) (plain : v.isArray = false) :
    Named v.name := by
  cases v with
  | simple type name sendP => exact readable
  | array name sendP var dims => cases plain
  | constructor isSequence name sendP vars =>
    rw [Readable] at readable
    exact readable.1
  | grid name sendP arrayVar mapVars =>
    rw [Readable] at readable
    exact readable.1

theorem Readable.valid {v : Var} (readable : Readable v) : checkSemantics false v = true := by
  have some' := readable.name_nonempty
  cases v with
  | simple type name sendP => simpa [checkSemantics, Var.name] using some'
  | array name sendP var dims =>
    rw [Readable] at readable
    simpa [checkSemantics] using ⟨some', readable.2.2.2.2.1⟩
  | constructor isSequence name sendP vars =>
    rw [Readable] at readable
    exact readable.2.1
  | grid name sendP arrayVar mapVars =>
    rw [Readable] at readable
    exact readable.2.1

/-! ## The tree of a variable -/

def sizeWord (n : Int) : Text := text (ErrorText.printInt n)

def dimensionOf (d : Dimension) : Option Text × Text :=
  (if d.name = "" then none else some (id2www (bytes d.name)), sizeWord d.size)

def Declarator.append (var : Declarator) (dims : List (Option Text × Text)) : Declarator :=
  { var with dims := var.dims ++ dims }

/-- The dimensions of an Array stand behind the declaration of its template. -/
def Declaration.append (dims : List (Option Text × Text)) : Declaration → Declaration
  | .base type var => .base type (Declarator.append var dims)
  | .constructor isSequence declarations var =>
    .constructor isSequence declarations (Declarator.append var dims)
  | .grid arrayWord array mapsWord maps var =>
    .grid arrayWord array mapsWord maps (Declarator.append var dims)

mutual
def declarationOf : Var → Declaration
  | .simple type name _ => .base type ⟨id2www name, []⟩
  | .array _ _ var dims => Declaration.append (dims.shape.map dimensionOf) (declarationOf var)
  | .constructor isSequence name _ vars =>
    .constructor isSequence (declarationsOf vars) ⟨id2www name, []⟩
  | .grid name _ arrayVar mapVars =>
    .grid (bytes "Array") (declarationOf arrayVar) (bytes "Maps") (declarationsOf mapVars)
      ⟨id2www name, []⟩

def declarationsOf : List Var → List Declaration
  | [] => []
  | v :: vars => declarationOf v :: declarationsOf vars
end

def dimensionTokens : Option Text × Text → List Token
  | (none, size) => [.sign leftBracket, .word .plain size, .sign rightBracket]
  | (some id, size) =>
    [.sign leftBracket, .word .plain id, .sign equal, .word .plain size, .sign rightBracket]

def declaratorTokens (var : Declarator) : List Token :=
  .word (kindOf var.name) var.name :: var.dims.flatMap dimensionTokens

mutual
/-- The tokens up to the semicolon, and those of several declarations. -/
def tokensOf : Declaration → List Token
  | .base type var => .word (.type type) (bytes type.typeName) :: declaratorTokens var
  | .constructor isSequence declarations var =>
    .word (.constructor isSequence) (bytes (constructorName isSequence)) :: .sign leftBrace ::
      (tokensAll declarations ++ .sign rightBrace :: declaratorTokens var)
  | .grid arrayWord array mapsWord maps var =>
    .word .grid (bytes "Grid") :: .sign leftBrace :: .word .plain arrayWord :: .sign colon ::
      (tokensOf array ++ .sign semi :: .word .plain mapsWord :: .sign colon ::
        (tokensAll maps ++ .sign rightBrace :: declaratorTokens var))

def tokensAll : List Declaration → List Token
  | [] => []
  | declaration :: declarations => tokensOf declaration ++ .sign semi :: tokensAll declarations
end

theorem tokensOf_append (dims : List (Option Text × Text)) (declaration : Declaration) :
    tokensOf (Declaration.append dims declaration) =
      tokensOf declaration ++ dims.flatMap dimensionTokens := by
  cases declaration <;>
    simp [Declaration.append, Declarator.append, tokensOf, declaratorTokens]

/-! ## Words -/

variable {s rest : Text} {c : UInt8}

theorem isWordChar_of_starts (starts : startsWord c = true) : isWordChar c = true := by
  rw [isWordChar, starts, Bool.true_or]

theorem startsWord_of_allowable (fine : allowable c = true) : startsWord c = true := by
  simp only [allowable, Bool.or_eq_true, startsWord] at fine ⊢
  rcases fine with letters | listed
  · exact .inl letters
  · right
    simp only [text, List.map_cons, List.map_nil, List.contains_cons, Bool.or_eq_true] at listed ⊢
    tauto

theorem startsWord_digit (digit : 48 ≤ c ∧ c ≤ 57) : startsWord c = true := by
  simp [startsWord, digit]

theorem startsWord_lower (letter : 97 ≤ c ∧ c ≤ 102) : startsWord c = true := by
  have upper : c ≤ 122 := UInt8.le_trans letter.2 (by decide)
  simp [startsWord, letter.1, upper]

theorem id2www_chars (n : Text) : ∀ c ∈ id2www n, startsWord c = true := by
  intro c mem
  rw [← id2wwwWith_default] at mem
  rcases mem_id2wwwWith mem with fine | rfl | digit | letter
  · exact startsWord_of_allowable fine
  · decide
  · exact startsWord_digit digit
  · exact startsWord_lower letter

theorem id2www_ne_nil {n : Text} (nonempty : n ≠ []) : id2www n ≠ [] := by
  obtain ⟨c, rest, rfl⟩ := List.exists_cons_of_ne_nil nonempty
  rw [id2www, List.flatMap_cons]
  split <;> simp

theorem isWord_id2www {n : Text} (nonempty : n ≠ []) (short : (id2www n).length < idMax) :
    IsWord (id2www n) :=
  ⟨id2www_ne_nil nonempty, id2www_chars n, short⟩

theorem Named.isWord {n : Text} (named : Named n) : IsWord (id2www n) :=
  isWord_id2www named.nonempty named.short

theorem isWord_bytes {s : String} (nonempty : bytes s ≠ [])
    (chars : ((bytes s).all startsWord) = true) (short : (bytes s).length < idMax) :
    IsWord (bytes s) :=
  ⟨nonempty, fun _ mem => List.all_eq_true.mp chars _ mem, short⟩

theorem isWord_typeName (type : SimpleType) : IsWord (bytes type.typeName) ∧
    kindOf (bytes type.typeName) = .type type := by
  cases type <;> exact ⟨isWord_bytes (by decide) (by decide) (by decide), by decide⟩

theorem isWord_constructorName (isSequence : Bool) : IsWord (bytes (constructorName isSequence)) ∧
    kindOf (bytes (constructorName isSequence)) = .constructor isSequence := by
  cases isSequence <;> exact ⟨isWord_bytes (by decide) (by decide) (by decide), by decide⟩

/-! ## Scanning -/

theorem scan_skip (skipped rest : Text) :
    scan (.initial skipped.length) (skipped ++ rest) = scan (.initial 0) rest := by
  induction skipped with
  | nil => rfl
  | cons c skipped ih =>
    rw [List.length_cons, List.cons_append, scan.eq_def]
    exact ih

/-- Of all texts only one that goes on with a colon can be the end. -/
theorem startsData_word (chars : ∀ c ∈ s, isWordChar c = true) (other : isWordChar c = false)
    (noColon : c ≠ colon) : startsData (s ++ c :: rest) = false := by
  have behind : ∀ s : Text, (∀ c ∈ s, isWordChar c = true) → ∀ c rest, isWordChar c = false →
      (s ++ c :: rest).dropWhile isWordChar = c :: rest := by
    intro s chars c rest other
    rw [List.dropWhile_append_of_pos chars, List.dropWhile_cons_of_neg (by simp [other])]
  have data : ∀ c ∈ bytes "Data", isWordChar c = true :=
    fun _ mem => List.all_eq_true.mp (by decide : (bytes "Data").all isWordChar = true) _ mem
  have ends : ∀ more : Text, ¬ bytes "Data" ++ colon :: more <+: s ++ c :: rest := by
    rintro more ⟨later, same⟩
    have drop := congrArg (List.dropWhile isWordChar) same
    rw [List.append_assoc, List.cons_append, behind _ data _ _ (by decide),
      behind s chars c rest other] at drop
    exact noColon (List.cons.inj drop).1.symm
  have line : bytes "Data:\n" = bytes "Data" ++ colon :: [newline] := by decide
  have carriage : bytes "Data:\r\n" = bytes "Data" ++ colon :: [13, newline] := by decide
  rw [startsData, line, carriage, Bool.or_eq_false_iff]
  exact ⟨Bool.eq_false_iff.mpr fun starts => ends _ (List.isPrefixOf_iff_prefix.mp starts),
    Bool.eq_false_iff.mpr fun starts => ends _ (List.isPrefixOf_iff_prefix.mp starts)⟩

theorem startsData_letter (letter : c ≠ 68) : startsData (c :: rest) = false := by
  have line : bytes "Data:\n" = 68 :: bytes "ata:\n" := by decide
  have carriage : bytes "Data:\r\n" = 68 :: bytes "ata:\r\n" := by decide
  rw [startsData, line, carriage]
  simp [List.isPrefixOf, Ne.symm letter]

theorem startsData_other (other : isWordChar c = false) : startsData (c :: rest) = false := by
  refine startsData_letter ?_
  rintro rfl
  exact absurd other (by decide)

/-- A word up to a character that is not part of it. -/
theorem scan_word (isWord : IsWord s) (other : isWordChar c = false)
    (noData : startsData (s ++ c :: rest) = false) :
    scan (.initial 0) (s ++ c :: rest) =
      .word (kindOf s) s :: scan (.initial 0) (c :: rest) := by
  obtain ⟨first, more, rfl⟩ := List.exists_cons_of_ne_nil isWord.nonempty
  have starts := isWord.chars first List.mem_cons_self
  have run : (more ++ c :: rest).takeWhile isWordChar = more := by
    rw [List.takeWhile_append_of_pos fun d mem =>
        isWordChar_of_starts (isWord.chars d (List.mem_cons_of_mem first mem)),
      List.takeWhile_cons_of_neg (by simp [other]), List.append_nil]
  have whole : cut (first :: more) = first :: more :=
    List.take_of_length_le (Nat.le_pred_of_lt isWord.short)
  rw [List.cons_append] at noData
  rw [List.cons_append, scan.eq_def]
  simp only [noData, starts, if_true, run, whole, Bool.false_eq_true, if_false]
  rw [scan_skip]

theorem scan_sign (sign : isSign c = true) :
    scan (.initial 0) (c :: rest) = .sign c :: scan (.initial 0) rest := by
  have noWord : isWordChar c = false := by
    simp only [isSign, List.contains_cons, Bool.or_eq_true, beq_iff_eq, List.contains_nil,
      Bool.false_eq_true, or_false] at sign
    rcases sign with rfl | rfl | rfl | rfl | rfl | rfl | rfl <;> decide
  have noStart : startsWord c = false := (Bool.or_eq_false_iff.mp noWord).1
  rw [scan.eq_def]
  simp [startsData_other noWord, noStart, sign]

theorem scan_blank (blank : c = 32 ∨ c = newline) :
    scan (.initial 0) (c :: rest) = scan (.initial 0) rest := by
  have other : isWordChar c = false ∧ startsWord c = false ∧ isSign c = false ∧ c ≠ hash := by
    rcases blank with rfl | rfl <;> decide
  rw [scan.eq_def]
  simp [startsData_other other.1, other.2]

/-- The text gives these tokens, whatever follows it. -/
def Gives (text : Text) (tokens : List Token) : Prop :=
  ∀ rest, scan (.initial 0) (text ++ rest) = tokens ++ scan (.initial 0) rest

theorem gives_nil : Gives [] [] := fun _ => rfl

theorem Gives.append {text more : Text} {tokens later : List Token} (first : Gives text tokens)
    (second : Gives more later) : Gives (text ++ more) (tokens ++ later) := by
  intro rest
  rw [List.append_assoc, first, second, List.append_assoc]

theorem gives_blank {text : Text} {tokens : List Token} (blank : c = 32 ∨ c = newline)
    (next : Gives text tokens) : Gives (c :: text) tokens := by
  intro rest
  rw [List.cons_append, scan_blank blank]
  exact next rest

theorem gives_blanks {pad : Text} (blanks : ∀ c ∈ pad, c = 32) : Gives pad [] := by
  induction pad with
  | nil => exact gives_nil
  | cons c pad ih =>
    exact gives_blank (.inl (blanks c List.mem_cons_self))
      (ih fun d mem => blanks d (List.mem_cons_of_mem c mem))

theorem gives_sign {text : Text} {tokens : List Token} (sign : isSign c = true)
    (next : Gives text tokens) : Gives (c :: text) (.sign c :: tokens) := by
  intro rest
  rw [List.cons_append, scan_sign sign]
  exact congrArg (.sign c :: ·) (next rest)

/-- A word and the character behind it. -/
theorem gives_word {text : Text} {tokens : List Token} (isWord : IsWord s)
    (other : isWordChar c = false) (noColon : c ≠ colon) (next : Gives (c :: text) tokens) :
    Gives (s ++ c :: text) (.word (kindOf s) s :: tokens) := by
  intro rest
  have chars : ∀ d ∈ s, isWordChar d = true := fun d mem =>
    isWordChar_of_starts (isWord.chars d mem)
  rw [List.append_assoc, List.cons_append,
    scan_word isWord other (startsData_word chars other noColon)]
  exact congrArg (.word (kindOf s) s :: ·) (next rest)

/-- As `gives_word` for a word that does not start as the end of the text does. -/
theorem gives_label {text : Text} {tokens : List Token} (isWord : IsWord s)
    (first : s.head? ≠ some 68) (next : Gives (colon :: text) tokens) :
    Gives (s ++ colon :: text) (.word (kindOf s) s :: tokens) := by
  intro rest
  have noData : startsData (s ++ colon :: (text ++ rest)) = false := by
    obtain ⟨d, more, rfl⟩ := List.exists_cons_of_ne_nil isWord.nonempty
    have letter : d ≠ 68 := by simpa using first
    exact startsData_letter letter
  rw [List.append_assoc, List.cons_append, scan_word isWord (by decide) noData]
  exact congrArg (.word (kindOf s) s :: ·) (next rest)

/-! ## What is printed -/

theorem startsWord_size {n : Int} : ∀ c ∈ sizeWord n, startsWord c = true := by
  intro c mem
  rcases SizeWords.printInt_bytes n c mem with digit | rfl
  · exact startsWord_digit digit
  · decide

theorem isWord_size {n : Int} (low : -2 ^ 31 ≤ n) (high : n < 2 ^ 31) : IsWord (sizeWord n) := by
  obtain ⟨nonempty, short⟩ := SizeWords.printInt_length low high
  exact ⟨nonempty, startsWord_size, Nat.lt_of_le_of_lt short (by decide)⟩

/-- Every keyword begins with a letter. -/
theorem kindOf_size {n : Int} (low : -2 ^ 31 ≤ n) (high : n < 2 ^ 31) :
    kindOf (sizeWord n) = .plain := by
  obtain ⟨first, more, shape⟩ := List.exists_cons_of_ne_nil (isWord_size low high).nonempty
  have front : first ≤ 57 := by
    have listed : first ∈ sizeWord n := shape ▸ List.mem_cons_self
    rcases SizeWords.printInt_bytes n first listed with digit | rfl
    · exact digit.2
    · decide
  have letters : (keywords.all fun word => (bytes word.1).head?.all (57 < ·)) = true := by decide
  have absent : keywords.find? (fun word => bytes word.1 = sizeWord n) = none := by
    rw [List.find?_eq_none]
    intro word listed same
    rw [decide_eq_true_eq] at same
    have letter := List.all_eq_true.mp letters word listed
    rw [same, shape, List.head?_cons, Option.all_some, decide_eq_true_eq] at letter
    exact UInt8.not_lt.mpr front letter
  rw [kindOf, absent]

section
variable {written : Text} {tokens : List Token}

theorem gives_dimension {d : Dimension} (reads : DimensionReads d) (next : Gives written tokens) :
    Gives (printDimension false d ++ written) (dimensionTokens (dimensionOf d) ++ tokens) := by
  have opens : bytes "[" = [leftBracket] := by decide
  have closes : bytes "]" = [rightBracket] := by decide
  have size := gives_word (isWord_size reads.low reads.high) (c := rightBracket) (by decide)
    (by decide) (gives_sign (by decide) next)
  rw [kindOf_size reads.low reads.high] at size
  by_cases unnamed : d.name = ""
  · have whole := gives_sign (c := leftBracket) (by decide) size
    simpa [printDimension, dimensionOf, dimensionTokens, unnamed, sizeWord, opens, closes]
      using whole
  · obtain ⟨_, short, plain, nonempty, _⟩ := reads.name unnamed
    have name := gives_word (isWord_id2www nonempty short) (c := 32) (by decide) (by decide)
      (gives_blank (.inl rfl) (gives_sign (c := equal) (by decide) (gives_blank (.inl rfl) size)))
    rw [plain] at name
    have whole := gives_sign (c := leftBracket) (by decide) name
    have equals : bytes " = " = [32, equal, 32] := by decide
    simpa [printDimension, dimensionOf, dimensionTokens, unnamed, sizeWord, opens, closes, equals]
      using whole

theorem gives_dimensions {shape : List Dimension} (reads : ∀ d ∈ shape, DimensionReads d)
    (next : Gives written tokens) :
    Gives (shape.flatMap (printDimension false) ++ written)
      ((shape.map dimensionOf).flatMap dimensionTokens ++ tokens) := by
  induction shape with
  | nil => exact next
  | cons d shape ih =>
    rw [List.flatMap_cons, List.map_cons, List.flatMap_cons, List.append_assoc, List.append_assoc]
    exact gives_dimension (reads d List.mem_cons_self)
      (ih fun e mem => reads e (List.mem_cons_of_mem d mem))

end

theorem blanks_of {pad : Text} (all : pad.all (· = 32) = true) : ∀ c ∈ pad, c = 32 :=
  fun c mem => of_decide_eq_true (List.all_eq_true.mp all c mem)

theorem blanks_indent {pad : Text} (blanks : ∀ c ∈ pad, c = 32) :
    ∀ c ∈ pad ++ bytes "    ", c = 32 := by
  intro c mem
  exact (List.mem_append.mp mem).elim (blanks c) (blanks_of (by decide) c)

/-- The semicolon is the last that is printed. -/
theorem printDecl_semi (space : Text) (v : Var) :
    printDecl false space true v = printDecl false space false v ++ semicolon true := by
  cases v <;> simp [printDecl, closing, semicolon]

/-- What may stand behind a declarator. -/
def Ends (c : UInt8) : Prop := c = semi ∨ c = leftBracket

theorem Ends.other {c : UInt8} (ends : Ends c) : isWordChar c = false ∧ c ≠ colon := by
  rcases ends with rfl | rfl <;> decide

theorem printDimensions_head {shape : List Dimension} (some' : shape ≠ []) (written : Text) :
    ∃ rest, shape.flatMap (printDimension false) ++ written = leftBracket :: rest := by
  obtain ⟨d, shape, rfl⟩ := List.exists_cons_of_ne_nil some'
  have opens : bytes "[" = [leftBracket] := by decide
  rw [List.flatMap_cons, printDimension, opens]
  simp only [List.append_assoc, List.cons_append]
  exact ⟨_, rfl⟩

/-- A keyword, and the blank behind it. -/
theorem gives_keyword {k : Kind} {word written : Text} {tokens : List Token}
    (isWord : IsWord word) (keyword : kindOf word = k) (next : Gives written tokens) :
    Gives (word ++ 32 :: written) (.word k word :: tokens) := by
  have whole := gives_word isWord (by decide) (by decide) (gives_blank (c := 32) (.inl rfl) next)
  rwa [keyword] at whole

/-- A name and what ends it. -/
theorem gives_name {n written : Text} {tokens : List Token} (named : Named n) {c : UInt8}
    (ends : Ends c) (next : Gives (c :: written) tokens) :
    Gives (id2www n ++ c :: written) (declaratorTokens ⟨id2www n, []⟩ ++ tokens) :=
  gives_word named.isWord ends.other.1 ends.other.2 next

mutual
/-- A declaration up to its semicolon, and declarations one after the other. -/
theorem gives_decl (v : Var) (readable : Readable v) {space : Text} (blanks : ∀ c ∈ space, c = 32)
    {c : UInt8} {written : Text} {tokens : List Token} (ends : Ends c)
    (next : Gives (c :: written) tokens) :
    Gives (printDecl false space false v ++ c :: written)
      (tokensOf (declarationOf v) ++ tokens) := by
  cases v with
  | simple type name sendP =>
    rw [Readable] at readable
    obtain ⟨isWord, keyword⟩ := isWord_typeName type
    have whole := (gives_blanks blanks).append
      (gives_keyword isWord keyword (gives_name readable ends next))
    have blank : bytes " " = [32] := by decide
    simpa [printDecl, declarationOf, tokensOf, semicolon, blank] using whole
  | array name sendP var dims =>
    rw [Readable] at readable
    obtain ⟨_, _, _, template, some', reads⟩ := readable
    have dimensions := gives_dimensions reads next
    obtain ⟨rest, shape⟩ := printDimensions_head some' (c :: written)
    rw [shape] at dimensions
    have whole := gives_decl var template blanks (.inr rfl) dimensions
    rw [← shape] at whole
    simpa [printDecl, declarationOf, tokensOf_append, semicolon] using whole
  | constructor isSequence name sendP vars =>
    rw [Readable] at readable
    obtain ⟨named, _, below⟩ := readable
    obtain ⟨isWord, keyword⟩ := isWord_constructorName isSequence
    have close := (gives_blanks blanks).append (gives_sign (c := rightBrace) (by decide)
      (gives_blank (c := 32) (.inl rfl) (gives_name named ends next)))
    have inner := (gives_all vars below (blanks_indent blanks)).append close
    have whole := (gives_blanks blanks).append (gives_keyword isWord keyword
      (gives_sign (c := leftBrace) (by decide) (gives_blank (c := newline) (.inr rfl) inner)))
    have opens : bytes " \x7b\n" = [32, leftBrace, newline] := by decide
    have closes : bytes "\x7d " = [rightBrace, 32] := by decide
    simpa [printDecl, declarationOf, tokensOf, semicolon, closing, opens, closes] using whole
  | grid name sendP arrayVar mapVars =>
    rw [Readable] at readable
    obtain ⟨named, _, array, maps⟩ := readable
    have close := (gives_blanks blanks).append (gives_sign (c := rightBrace) (by decide)
      (gives_blank (c := 32) (.inl rfl) (gives_name named ends next)))
    have mapsPart := (gives_all mapVars maps (blanks_indent blanks)).append close
    have two : ∀ c ∈ [32, 32], c = (32 : UInt8) := blanks_of (by decide)
    have mapsWord : IsWord (bytes "Maps") := isWord_bytes (by decide) (by decide) (by decide)
    have arrayWord : IsWord (bytes "Array") := isWord_bytes (by decide) (by decide) (by decide)
    have gridWord : IsWord (bytes "Grid") := isWord_bytes (by decide) (by decide) (by decide)
    have mapsLabel := ((gives_blanks blanks).append (gives_blanks two)).append
      (gives_label mapsWord (by decide) (gives_sign (c := colon) (by decide)
        (gives_blank (c := newline) (.inr rfl) mapsPart)))
    have arrayPart := gives_decl arrayVar array (blanks_indent blanks) (.inl rfl)
      (gives_sign (c := semi) (by decide) (gives_blank (c := newline) (.inr rfl) mapsLabel))
    have arrayLabel := ((gives_blanks blanks).append (gives_blanks two)).append
      (gives_label arrayWord (by decide) (gives_sign (c := colon) (by decide)
        (gives_blank (c := newline) (.inr rfl) arrayPart)))
    have whole := (gives_blanks blanks).append (gives_keyword gridWord (k := .grid) (by decide)
      (gives_sign (c := leftBrace) (by decide) (gives_blank (c := newline) (.inr rfl) arrayLabel)))
    have mapsPlain : kindOf (bytes "Maps") = .plain := by decide
    have arrayPlain : kindOf (bytes "Array") = .plain := by decide
    rw [mapsPlain, arrayPlain] at whole
    have opens : bytes "Grid \x7b\n" = bytes "Grid" ++ [32, leftBrace, newline] := by decide
    have arrays : bytes "  Array:\n" = [32, 32] ++ bytes "Array" ++ [colon, newline] := by decide
    have mapses : bytes "  Maps:\n" = [32, 32] ++ bytes "Maps" ++ [colon, newline] := by decide
    have closes : bytes "\x7d " = [rightBrace, 32] := by decide
    have ended : bytes ";\n" = [semi, newline] := by decide
    simpa [printDecl, declarationOf, tokensOf, semicolon, closing, opens, arrays, mapses, closes,
      ended, printDecl_semi] using whole

theorem gives_all (vars : List Var) (readable : AllReadable vars) {space : Text}
    (blanks : ∀ c ∈ space, c = 32) :
    Gives (printAll false space vars) (tokensAll (declarationsOf vars)) := by
  cases vars with
  | nil => exact gives_nil
  | cons v vars =>
    rw [AllReadable] at readable
    have later := gives_all vars readable.2 blanks
    have whole := gives_decl v readable.1 blanks (.inl rfl)
      (gives_sign (c := semi) (by decide) (gives_blank (c := newline) (.inr rfl) later))
    have ended : bytes ";\n" = [semi, newline] := by decide
    simpa [printAll, declarationsOf, tokensAll, printDecl_semi, semicolon, ended] using whole
end

/-! ## Reading -/

/-- The grammar has a place for the words of a declarator. -/
def Proper (var : Declarator) : Prop := kindOf var.name ≠ .dataset

mutual
def Reads : Declaration → Prop
  | .base _ var => Proper var
  | .constructor _ declarations var => Proper var ∧ ReadsAll declarations
  | .grid _ array _ maps var => Proper var ∧ Reads array ∧ ReadsAll maps

def ReadsAll : List Declaration → Prop
  | [] => True
  | declaration :: declarations => Reads declaration ∧ ReadsAll declarations
end

theorem reads_append {dims : List (Option Text × Text)} {declaration : Declaration}
    (reads : Reads declaration) : Reads (Declaration.append dims declaration) := by
  cases declaration <;> exact reads

mutual
theorem reads_declarationOf (v : Var) (readable : Readable v) : Reads (declarationOf v) := by
  cases v with
  | simple type name sendP => exact Named.name readable
  | array name sendP var dims =>
    rw [Readable] at readable
    exact reads_append (reads_declarationOf var readable.2.2.2.1)
  | constructor isSequence name sendP vars =>
    rw [Readable] at readable
    exact ⟨readable.1.name, readsAll_declarationsOf vars readable.2.2⟩
  | grid name sendP arrayVar mapVars =>
    rw [Readable] at readable
    exact ⟨readable.1.name, reads_declarationOf arrayVar readable.2.2.1,
      readsAll_declarationsOf mapVars readable.2.2.2⟩

theorem readsAll_declarationsOf (vars : List Var) (readable : AllReadable vars) :
    ReadsAll (declarationsOf vars) := by
  cases vars with
  | nil => trivial
  | cons v vars =>
    rw [AllReadable] at readable
    exact ⟨reads_declarationOf v readable.1, readsAll_declarationsOf vars readable.2⟩
end

theorem readDims_tokens (dims : List (Option Text × Text)) (rest : Tokens) (fuel : Nat)
    (enough : (dims.flatMap dimensionTokens).length < fuel) :
    readDims fuel (dims.flatMap dimensionTokens ++ .sign semi :: rest) =
      some (dims, .sign semi :: rest) := by
  induction dims generalizing fuel with
  | nil =>
    obtain ⟨n, rfl⟩ := Nat.exists_eq_succ_of_ne_zero (Nat.ne_of_gt enough)
    rfl
  | cons dim dims ih =>
    obtain ⟨n, rfl⟩ := Nat.exists_eq_succ_of_ne_zero (Nat.ne_of_gt (Nat.zero_lt_of_lt enough))
    obtain ⟨id, size⟩ := dim
    rw [List.flatMap_cons, List.length_append] at enough
    cases id with
    | none =>
      rw [dimensionTokens] at enough
      have later := ih n (by simp only [List.length_cons] at enough; omega)
      have other : rightBracket ≠ equal := by decide
      simp [readDims, dimensionTokens, expect, readWord, later, other]
    | some id =>
      rw [dimensionTokens] at enough
      have later := ih n (by simp only [List.length_cons] at enough; omega)
      simp [readDims, dimensionTokens, expect, readWord, later]

theorem readVar_tokens {var : Declarator} (proper : Proper var) (rest : Tokens) (fuel : Nat)
    (enough : (declaratorTokens var).length ≤ fuel) :
    readVar fuel (declaratorTokens var ++ .sign semi :: rest) = some (var, rest) := by
  rw [declaratorTokens, List.length_cons] at enough
  have dims := readDims_tokens var.dims rest fuel (by omega)
  rw [declaratorTokens, List.cons_append, readVar.eq_def]
  split
  · rename_i same
    exact absurd (Token.word.inj (List.cons.inj same).1).1 proper
  · rename_i same
    obtain ⟨⟨_, rfl⟩, rfl⟩ := And.intro (Token.word.inj (List.cons.inj same).1)
      (List.cons.inj same).2
    simp [dims, expect]
  · rename_i no
    exact absurd rfl (no _ _ _)

/-- No declaration begins with a brace. -/
theorem tokensOf_head (declaration : Declaration) :
    ∃ kind s rest, tokensOf declaration = .word kind s :: rest := by
  cases declaration <;> exact ⟨_, _, _, rfl⟩

mutual
theorem readDeclaration_tokens (declaration : Declaration) (reads : Reads declaration)
    (rest : Tokens) (fuel : Nat) (enough : (tokensOf declaration).length < fuel) :
    readDeclaration fuel (tokensOf declaration ++ .sign semi :: rest) =
      some (declaration, rest) := by
  obtain ⟨n, rfl⟩ := Nat.exists_eq_succ_of_ne_zero (Nat.ne_of_gt (Nat.zero_lt_of_lt enough))
  cases declaration with
  | base type var =>
    rw [tokensOf, List.length_cons] at enough
    have name := readVar_tokens reads rest n (by omega)
    rw [tokensOf, List.cons_append, readDeclaration, name]
    rfl
  | constructor isSequence declarations var =>
    rw [Reads] at reads
    simp only [tokensOf, List.length_cons, List.length_append] at enough
    have name := readVar_tokens reads.1 rest n (by omega)
    have inner := readDeclarations_tokens declarations reads.2
      (declaratorTokens var ++ .sign semi :: rest) n (by omega)
    simp only [tokensOf, List.cons_append, List.append_assoc, readDeclaration, expect, if_true,
      bind, Option.bind, inner, name]
  | grid arrayWord array mapsWord maps var =>
    rw [Reads] at reads
    simp only [tokensOf, List.length_cons, List.length_append] at enough
    have name := readVar_tokens reads.1 rest n (by omega)
    have mapsPart := readDeclarations_tokens maps reads.2.2
      (declaratorTokens var ++ .sign semi :: rest) n (by omega)
    have arrayPart := readDeclaration_tokens array reads.2.1
      (.word .plain mapsWord :: .sign colon :: (tokensAll maps ++ .sign rightBrace ::
        (declaratorTokens var ++ .sign semi :: rest))) n (by omega)
    simp only [tokensOf, List.cons_append, List.append_assoc, readDeclaration, expect, if_true,
      readWord, bind, Option.bind, arrayPart, mapsPart, name]

theorem readDeclarations_tokens (declarations : List Declaration) (reads : ReadsAll declarations)
    (rest : Tokens) (fuel : Nat) (enough : (tokensAll declarations).length < fuel) :
    readDeclarations fuel (tokensAll declarations ++ .sign rightBrace :: rest) =
      some (declarations, .sign rightBrace :: rest) := by
  obtain ⟨n, rfl⟩ := Nat.exists_eq_succ_of_ne_zero (Nat.ne_of_gt (Nat.zero_lt_of_lt enough))
  cases declarations with
  | nil => rfl
  | cons declaration declarations =>
    rw [ReadsAll] at reads
    rw [tokensAll, List.length_append, List.length_cons] at enough
    have first := readDeclaration_tokens declaration reads.1
      (tokensAll declarations ++ .sign rightBrace :: rest) n (by omega)
    have later := readDeclarations_tokens declarations reads.2 rest n (by omega)
    obtain ⟨kind, s, more, head⟩ := tokensOf_head declaration
    have noBrace : expect rightBrace (tokensOf declaration ++ .sign semi ::
        (tokensAll declarations ++ .sign rightBrace :: rest)) = none := by
      rw [head]
      rfl
    rw [tokensAll, List.append_assoc, List.cons_append, readDeclarations, noBrace]
    simp only [bind, Option.bind, first, later]
end

/-- The text of a dataset has the tree of its variables. -/
theorem readText_print {dds : DDS} (readable : AllReadable dds.vars) (named : Named dds.name)
    (plain : id2www dds.name = dds.name) :
    readText (dds.print false) = some [(declarationsOf dds.vars, dds.name)] := by
  have opens : bytes "Dataset \x7b\n" = bytes "Dataset" ++ [32, leftBrace, newline] := by decide
  have closes : bytes "\x7d " = [rightBrace, 32] := by decide
  have ended : bytes ";\n" = [semi, newline] := by decide
  have datasetWord : IsWord (bytes "Dataset") := isWord_bytes (by decide) (by decide) (by decide)
  have close := gives_sign (c := rightBrace) (by decide) (gives_blank (c := 32) (.inl rfl)
    (gives_name named (.inl rfl) (gives_sign (c := semi) (by decide)
      (gives_blank (c := newline) (.inr rfl) gives_nil))))
  have indent : ∀ c ∈ bytes "    ", c = 32 := blanks_of (by decide)
  have inner := (gives_all dds.vars readable indent).append close
  have whole := gives_keyword datasetWord (k := .dataset) (by decide)
    (gives_sign (c := leftBrace) (by decide) (gives_blank (c := newline) (.inr rfl) inner)) []
  have scanned : scan (.initial 0) (dds.print false) =
      .word .dataset (bytes "Dataset") :: .sign leftBrace :: (tokensAll (declarationsOf dds.vars) ++
        [.sign rightBrace, .word (kindOf dds.name) dds.name, .sign semi]) := by
    have nothing : scan (.initial 0) [] = [] := rfl
    rw [nothing] at whole
    simpa [DDS.print, opens, closes, ended, declaratorTokens, plain] using whole
  have declarations := readDeclarations_tokens (declarationsOf dds.vars)
    (readsAll_declarationsOf dds.vars readable) [.word (kindOf dds.name) dds.name, .sign semi]
    ((scan (.initial 0) (dds.print false)).length + 1) (by
      rw [scanned]
      simp only [List.length_cons, List.length_append]
      omega)
  rw [readText]
  rw [scanned] at declarations ⊢
  rw [readDatasets]
  simp only [expect, if_true, bind, Option.bind, declarations]

end Libdap.Guarantees.DDSText
