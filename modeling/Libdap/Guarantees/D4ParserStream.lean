import Libdap.Source.D4ParserStream

/-!
# What a DMR loses on its way to the XML parser

The newline that ends a line is taken for the one character to leave out, whether it was read or
not. Only the carriage returns in front of newlines keep lines apart.
-/
namespace Libdap.Guarantees.D4ParserStream
open Libdap.Library.LineInput
open Libdap.Source Libdap.Source.D4ParserStream
open Libdap.Source.HTTPCacheTable (Chars)

def chunk : ParserCall → Chars
  | .create chunk => chunk
  | .parseChunk chunk _ => chunk

/-- The bytes the XML parser is given. -/
def fed (calls : List ParserCall) : Chars := calls.flatMap chunk

/-- XML's white space. -/
def White (c : Char) : Prop := c = ' ' ∨ c = '\t' ∨ c = '\r' ∨ c = '\n'

/-- The bytes of a document in order, with some white space for every line end, be it a newline
or a carriage return and a newline. -/
inductive Delivers : Chars → Chars → Prop
  | nil : Delivers [] []
  | byte {c : Char} {document passed : Chars} (inside : c ≠ '\n') :
      Delivers document passed → Delivers (c :: document) (c :: passed)
  | newline {white document passed : Chars} (some' : white ≠ []) (space : ∀ c ∈ white, White c) :
      Delivers document passed → Delivers ('\n' :: document) (white ++ passed)
  | crlf {white document passed : Chars} (some' : white ≠ []) (space : ∀ c ∈ white, White c) :
      Delivers document passed → Delivers ('\r' :: '\n' :: document) (white ++ passed)

def PassedThrough (document : Chars) : Prop :=
  ∃ calls, internString document = .ok calls ∧ Delivers document (fed calls)

/-- Every line ends with a carriage return and a newline, and the buffer holds it. -/
inductive CrlfLines : Chars → Prop
  | nil : CrlfLines []
  | line {line more : Chars} (inside : '\n' ∉ line) (fits : line.length ≤ 1022) :
      CrlfLines more → CrlfLines (line ++ '\r' :: '\n' :: more)

/-! ### The loop line by line -/

/-- What the loop passes on of a stream that holds the text. -/
def passed (document : Chars) : Chars := fed (feedLines (Input.ofList document))

theorem feedLines_some {s rest : Input Char} {line : Chars}
    (read : nextChunk s = (some line, rest)) :
    fed (feedLines s) = line ++ fed (feedLines rest) := by
  rw [feedLines]
  split
  · rename_i same
    rw [read] at same
    cases same
  · rename_i same
    rw [read] at same
    cases same
    rfl

theorem feedLines_none {s rest : Input Char} (read : nextChunk s = (none, rest)) :
    fed (feedLines s) = [] := by
  rw [feedLines]
  split
  · rfl
  · rename_i same
    rw [read] at same
    cases same

theorem nextChunk_stopped {s : Input Char} (stopped : s.eof || s.fail) :
    (nextChunk s).1 = none := by
  simp [nextChunk, Input.getline, stopped]

theorem feedLines_stopped {s : Input Char} (stopped : s.eof || s.fail) :
    fed (feedLines s) = [] :=
  feedLines_none (Prod.ext (nextChunk_stopped stopped) rfl)

theorem passed_nil : passed [] = [] := by
  have read : nextChunk (Input.ofList []) = (none, { rest := [], eof := true, fail := true }) := by
    decide
  exact feedLines_none read

theorem passed_line {line : Chars} (more : Chars) (inside : '\n' ∉ line)
    (fits : line.length ≤ 1023) : passed (line ++ '\n' :: more) = line ++ passed more := by
  apply feedLines_some
  have read := getline_line size '\n' line more inside (by unfold size; omega)
  simp [nextChunk, read]

/-- The last character of a text without a newline is lost. -/
theorem passed_last {line : Chars} (inside : '\n' ∉ line) (fits : line.length ≤ 1023) :
    passed line = line.dropLast := by
  have read : scan '\n' (size - 1) line = (line, .input, []) := scan_input inside fits
  cases line with
  | nil => exact passed_nil
  | cons c line =>
    have next : nextChunk (Input.ofList (c :: line)) =
        (some ((c :: line).dropLast), { rest := [], eof := true, fail := false }) := by
      simp [nextChunk, Input.getline, Input.ofList, read, List.dropLast_eq_take]
    have rest : fed (feedLines { rest := [], eof := true, fail := false }) = [] :=
      feedLines_stopped rfl
    unfold passed
    rw [feedLines_some next, rest, List.append_nil]

/-- Of a line that the buffer does not hold, its beginning is all that is read. -/
theorem passed_long {line : Chars} (more : Chars) (inside : '\n' ∉ line)
    (long : 1024 ≤ line.length) : passed (line ++ more) = line.take 1022 := by
  have read : (Input.ofList (line ++ more)).getline 1024 '\n' = (line.take 1023, 1023,
      { rest := line.drop 1023 ++ more, eof := false, fail := true }) :=
    getline_full 1024 '\n' line more inside long (by decide)
  have next : nextChunk (Input.ofList (line ++ more)) =
      (some (line.take 1022),
        { rest := line.drop 1023 ++ more, eof := false, fail := true }) := by
    simp [nextChunk, size, read, List.take_take]
  unfold passed
  rw [feedLines_some next, feedLines_stopped rfl, List.append_nil]

/-- The first chunk creates the parser. -/
theorem internString_fed (document : Chars) :
    ∃ calls, internString document = .ok calls ∧ fed calls = passed document := by
  unfold internString intern
  rw [if_neg (by simp [Input.ofList])]
  cases read : nextChunk (Input.ofList document) with
  | mk chunk rest =>
    cases chunk with
    | none =>
      refine ⟨[], rfl, ?_⟩
      unfold passed
      rw [feedLines_none read]
      rfl
    | some chunk =>
      refine ⟨.create chunk :: feedLines rest, rfl, ?_⟩
      unfold passed
      rw [feedLines_some read]
      rfl

/-- The lines of a text, one after the other, up to the first that is not whole. -/
theorem lines_induction {motive : Chars → Prop}
    (last : ∀ line, '\n' ∉ line → line.length ≤ 1023 → motive line)
    (long : ∀ line more, '\n' ∉ line → 1024 ≤ line.length → motive (line ++ more))
    (line : ∀ line more, '\n' ∉ line → line.length ≤ 1023 → motive more →
      motive (line ++ '\n' :: more)) (document : Chars) : motive document := by
  by_cases newline : '\n' ∈ document
  · obtain ⟨front, more, same, inside⟩ := List.eq_append_cons_of_mem newline
    rw [same]
    by_cases fits : front.length ≤ 1023
    · have shorter : more.length < document.length := by
        rw [same, List.length_append, List.length_cons]
        omega
      exact line front more inside fits (lines_induction last long line more)
    · exact long front _ inside (by omega)
  · by_cases fits : document.length ≤ 1023
    · exact last document newline fits
    · have whole := long document [] newline (by omega)
      rwa [List.append_nil] at whole
termination_by document.length

/-! ### Line ends that show -/

/-- How many newlines stand behind a carriage return. -/
def crlfs : (behindReturn : Bool) → Chars → Nat
  | _, [] => 0
  | behindReturn, c :: rest =>
    (if behindReturn && c == '\n' then 1 else 0) + crlfs (c == '\r') rest

/-- Whether a line ends with a carriage return. -/
def endsWithReturn : (behindReturn : Bool) → Chars → Bool
  | behindReturn, [] => behindReturn
  | _, c :: rest => endsWithReturn (c == '\r') rest

theorem crlfs_line {line : Chars} (behindReturn : Bool) (more : Chars) (inside : '\n' ∉ line) :
    crlfs behindReturn (line ++ '\n' :: more) =
      (if endsWithReturn behindReturn line then 1 else 0) + crlfs false more := by
  induction line generalizing behindReturn with
  | nil => cases behindReturn <;> simp [crlfs, endsWithReturn]
  | cons c line ih =>
    obtain ⟨other, inside⟩ := List.ne_and_not_mem_of_not_mem_cons inside
    have rest := ih (c == '\r') inside
    have no_newline : (c == '\n') = false := beq_eq_false_iff_ne.mpr (Ne.symm other)
    rw [List.cons_append, crlfs, endsWithReturn, rest, no_newline, Bool.and_false]
    exact Nat.zero_add _

theorem crlfs_inside {line : Chars} (behindReturn : Bool) (more : Chars) (inside : '\n' ∉ line) :
    crlfs behindReturn (line ++ more) ≤ more.length := by
  induction line generalizing behindReturn with
  | nil =>
    rw [List.nil_append]
    induction more generalizing behindReturn with
    | nil => simp [crlfs]
    | cons c more ih =>
      have rest := ih (c == '\r')
      unfold crlfs
      rw [List.length_cons]
      split <;> omega
  | cons c line ih =>
    obtain ⟨other, inside⟩ := List.ne_and_not_mem_of_not_mem_cons inside
    have rest := ih (c == '\r') inside
    simp [crlfs, Ne.symm other, rest]

theorem crlfs_mono (behindReturn : Bool) (document : Chars) :
    crlfs false document ≤ crlfs behindReturn document := by
  cases document with
  | nil => simp [crlfs]
  | cons c document => simp [crlfs]

theorem endsWithReturn_append (behindReturn : Bool) (front : Chars) (c : Char) :
    endsWithReturn behindReturn (front ++ [c]) = (c == '\r') := by
  induction front generalizing behindReturn with
  | nil => rfl
  | cons d front ih => exact ih (d == '\r')

theorem return_of_endsWithReturn {line : Chars} (ends : endsWithReturn false line) :
    ∃ front, line = front ++ ['\r'] := by
  cases line using List.reverseRecOn with
  | nil => cases ends
  | append_singleton front c =>
    rw [endsWithReturn_append, beq_iff_eq] at ends
    exact ⟨front, by rw [ends]⟩

/-- At least one character is delivered for each line end. -/
theorem Delivers.length {document passed : Chars} (delivers : Delivers document passed) :
    document.length ≤ passed.length + crlfs false document := by
  induction delivers with
  | nil => simp
  | @byte c document passed inside _ ih =>
    have := crlfs_mono (c == '\r') document
    simp only [crlfs, List.length_cons, Bool.false_and]
    simp
    omega
  | @newline white document passed some' _ _ ih =>
    have := List.length_pos_iff.mpr some'
    simp [crlfs]
    omega
  | @crlf white document passed some' _ _ ih =>
    have := List.length_pos_iff.mpr some'
    simp [crlfs]
    omega

theorem Delivers.line {line document passed : Chars} (inside : '\n' ∉ line)
    (rest : Delivers document passed) : Delivers (line ++ document) (line ++ passed) := by
  induction line with
  | nil => exact rest
  | cons c line ih =>
    obtain ⟨other, inside⟩ := List.ne_and_not_mem_of_not_mem_cons inside
    exact .byte (Ne.symm other) (ih inside)

/-- What is passed on is too short, unless every line ends with a carriage return. -/
theorem passed_length (document : Chars) :
    (passed document).length + crlfs false document ≤ document.length ∧
      (document.length ≤ (passed document).length + crlfs false document →
        CrlfLines document) := by
  induction document using lines_induction with
  | last line inside fits =>
    have none' := crlfs_inside false [] inside
    rw [List.append_nil, List.length_nil] at none'
    rw [passed_last inside fits, List.length_dropLast]
    refine ⟨by omega, fun enough => ?_⟩
    have empty : line.length = 0 := by omega
    rw [List.length_eq_zero_iff.mp empty]
    exact .nil
  | long line more inside long =>
    have few := crlfs_inside false more inside
    rw [passed_long more inside long, List.length_take, List.length_append]
    exact ⟨by omega, fun enough => by omega⟩
  | line line more inside fits ih =>
    obtain ⟨short, lines⟩ := ih
    rw [passed_line more inside fits, crlfs_line false more inside]
    simp only [List.length_append, List.length_cons]
    by_cases ends : endsWithReturn false line
    · refine ⟨by simp [ends]; omega, fun enough => ?_⟩
      obtain ⟨front, rfl⟩ := return_of_endsWithReturn ends
      rw [List.length_append, List.length_singleton] at fits
      have inside' : '\n' ∉ front := fun member => inside (List.mem_append_left _ member)
      have crlf := CrlfLines.line inside' (by omega) (lines (by simp [ends] at enough; omega))
      simpa using crlf
    · exact ⟨by simp [ends]; omega, fun enough => by simp [ends] at enough; omega⟩

theorem CrlfLines.delivers {document : Chars} (lines : CrlfLines document) :
    Delivers document (passed document) := by
  induction lines with
  | nil =>
    rw [passed_nil]
    exact .nil
  | @line line more inside fits _ ih =>
    have inside' : '\n' ∉ line ++ ['\r'] := by simpa using inside
    have fits' : (line ++ ['\r']).length ≤ 1023 := by
      rw [List.length_append, List.length_singleton]
      omega
    have read := passed_line more inside' fits'
    rw [List.append_assoc, List.singleton_append] at read
    rw [read, List.append_assoc]
    exact .line inside (.crlf (by simp) (by simp [White]) ih)

/-- A document reaches the parser unchanged exactly if every line of it ends with a carriage return
and a newline. -/
theorem internString_passedThrough_iff (document : Chars) :
    PassedThrough document ↔ CrlfLines document := by
  obtain ⟨calls, run, same⟩ := internString_fed document
  constructor
  · rintro ⟨calls', run', delivers⟩
    cases run.symm.trans run'
    rw [same] at delivers
    exact (passed_length document).2 delivers.length
  · intro lines
    exact ⟨calls, run, same ▸ lines.delivers⟩

def twoLines : Chars := "<a".toList ++ '\n' :: ("b='1'/>".toList ++ ['\n'])

theorem twoLines_passed : passed twoLines = "<ab='1'/>".toList := by
  have start : '\n' ∉ "<a".toList := by decide
  have markup : '\n' ∉ "b='1'/>".toList := by decide
  have first := passed_line ("b='1'/>".toList ++ ['\n']) start (by decide)
  have second := passed_line [] markup (by decide)
  unfold twoLines
  rw [first, second, passed_nil]
  decide

/-- The two lines are joined. -/
theorem twoLines_joined : ¬ PassedThrough twoLines := by
  rintro ⟨calls, run, delivers⟩
  obtain ⟨calls', run', same⟩ := internString_fed twoLines
  cases run.symm.trans run'
  have length := delivers.length
  rw [same, twoLines_passed] at length
  revert length
  decide

end Libdap.Guarantees.D4ParserStream
