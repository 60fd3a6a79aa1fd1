import Libdap.Source.MimeUtil

/-!
# The framing of a multipart document

What the writers put in front of a part is read back, by both versions of the readers, as
long as no boundary is expected: the test of `read_multipart_boundary` refuses the boundary
that is expected and lets others pass.
-/
namespace Libdap.Guarantees.MultipartFraming
open Libdap.Library.LineInput
open Libdap.Source Libdap.Source.MimeUtil
open Libdap.Source.HTTPCacheTable (Chars)

variable {version : Version}

structure Printable (s : Chars) : Prop where
  characters : ∀ c ∈ s, ' ' < c ∧ c ≠ '\x7f'
  short : s.length < 900

/-- A line that a buffer holds, with its end. -/
structure Plain (line : Chars) : Prop where
  characters : ∀ c ∈ line, c ≠ '\n' ∧ c ≠ '\r' ∧ c ≠ '\x00'
  short : line.length ≤ 1000

theorem printable_of_forall {s : Chars} (characters : s.Forall fun c => ' ' < c ∧ c ≠ '\x7f')
    (short : s.length < 900) : Printable s :=
  ⟨List.forall_iff_forall_mem.mp characters, short⟩

/-- Checked one character after the other. -/
theorem plain_of_forall {line : Chars}
    (characters : line.Forall fun c => c ≠ '\n' ∧ c ≠ '\r' ∧ c ≠ '\x00')
    (short : line.length ≤ 1000) : Plain line :=
  ⟨List.forall_iff_forall_mem.mp characters, short⟩

theorem Plain.no_newline {line : Chars} (plain : Plain line) : '\n' ∉ line :=
  fun member => (plain.characters _ member).1 rfl

theorem Plain.no_return {line : Chars} (plain : Plain line) : '\r' ∉ line :=
  fun member => (plain.characters _ member).2.1 rfl

theorem Plain.no_null {line : Chars} (plain : Plain line) : '\x00' ∉ line :=
  fun member => (plain.characters _ member).2.2 rfl

theorem Plain.append {a b : Chars} (first : Plain a) (second : Plain b)
    (short : a.length + b.length ≤ 1000) : Plain (a ++ b) := by
  refine ⟨?_, by rwa [List.length_append]⟩
  intro c member
  rcases List.mem_append.mp member with left | right
  · exact first.characters c left
  · exact second.characters c right

theorem Printable.plain {s : Chars} (printable : Printable s) : Plain s := by
  refine ⟨?_, by have := printable.short; omega⟩
  intro c member
  have above := (printable.characters c member).1
  refine ⟨?_, ?_, ?_⟩ <;> rintro rfl <;> exact absurd above (by decide)

/-! ## What was written -/

/-- The two kinds of parts. -/
inductive Part where
  | ddx | data
  deriving DecidableEq, Repr

def Part.contentType : Part → Chars
  | .ddx => "Text/xml; charset=iso-8859-1".toList
  | .data => "application/octet-stream".toList

def Part.setBoundary : Part → Chars → Chars → ObjectType → EncodingType → Chars
  | .ddx => setMimeDdxBoundary
  | .data => setMimeDataBoundary

theorem setBoundary_eq (part : Part) :
    part.setBoundary = setMimeBoundary part.contentType := by
  cases part <;> rfl

theorem blank_line (more : Chars) :
    getNextMimeHeader version (Input.ofList (crlf ++ more)) = .ok ([], Input.ofList more) := by
  cases version with
  | file =>
    have read := fgets_line lineLength '\n' ['\r'] more
      (by decide) (by decide)
    change fileMimeHeader (Input.ofList (['\r'] ++ '\n' :: more)) = _
    unfold fileMimeHeader
    rw [read]
    rfl
  | istream =>
    have read := getline_line lineLength '\n' ['\r'] more
      (by decide) (by decide)
    change streamMimeHeader (Input.ofList (['\r'] ++ '\n' :: more)) = _
    unfold streamMimeHeader
    rw [read]
    rfl

theorem header_line {line : Chars} (plain : Plain line) (some' : line ≠ []) (more : Chars) :
    getNextMimeHeader version (Input.ofList (line ++ (crlf ++ more))) =
      .ok (line, Input.ofList more) := by
  have whole : line ++ (crlf ++ more) = (line ++ ['\r']) ++ '\n' :: more := by
    rw [List.append_assoc]
    rfl
  have inside : '\n' ∉ line ++ ['\r'] := by
    simp [plain.no_newline]
  have short := plain.short
  rw [whole]
  cases version with
  | file =>
    have read := fgets_line lineLength '\n' _ more inside
      (by rw [List.length_append]; simp [lineLength]; omega)
    have null : cstring '\x00' (line ++ ['\r'] ++ ['\n']) = line ++ ['\r'] ++ ['\n'] :=
      cstring_eq (by simp [plain.no_null])
    change fileMimeHeader _ = _
    unfold fileMimeHeader
    rw [read]
    obtain ⟨c, rest, rfl⟩ := List.exists_cons_of_ne_nil some'
    have first := plain.characters c (List.mem_cons_self ..)
    have not_blank : ¬ ((c :: rest ++ ['\r'] ++ ['\n']).take 2 = crlf ∨
        (c :: rest ++ ['\r'] ++ ['\n']).head? = some '\n') := by
      rintro (same | same)
      · exact first.2.1 (List.cons.inj same).1
      · exact first.1 (Option.some.inj same)
    dsimp only
    rw [if_neg not_blank, null, List.dropLast_concat]
    have two : ¬ (c :: rest ++ ['\r'] ++ ['\n']).length < 2 := by simp
    rw [if_neg two, if_pos List.getLast?_concat, List.dropLast_concat]
    rfl
  | istream =>
    have read := getline_line lineLength '\n' _ more inside
      (by rw [List.length_append]; simp [lineLength]; omega)
    have null : cstring '\x00' (line ++ ['\r']) = line ++ ['\r'] :=
      cstring_eq (by simp [plain.no_null])
    change streamMimeHeader _ = _
    unfold streamMimeHeader
    simp only [read, null]
    simp [Input.ofList]

theorem parseMimeHeader_eq (name : Chars) {value : Chars} (named : Plain name)
    (colon : ':' ∉ name)
    (valued : Plain value) :
    parseMimeHeader (name ++ (": ".toList ++ value)) = (downcase name, downcase value) := by
  have first := getline_line 1023 ':' name (' ' :: value) colon
    (by have := named.short; omega)
  have ignored : (Input.ofList (' ' :: value)).ignore 1023 ' ' = Input.ofList value := by
    simp [Input.ignore, Input.ofList, skip]
  have second : ((Input.ofList value).getline 1023 '\n').1 = value := by
    have read : scan '\n' 1022 value = (value, .input, []) :=
      scan_input valued.no_newline (by have := valued.short; omega)
    simp [Input.getline, Input.ofList, read]
  change parseMimeHeader (name ++ ':' :: ' ' :: value) = _
  simp only [parseMimeHeader, first, ignored, second, cstring_eq named.no_null,
    cstring_eq valued.no_null]

/-! ## The loop over the headers -/

/-- A header and what follows it. -/
def headerLine (name value more : Chars) : Chars :=
  name ++ (": ".toList ++ value) ++ (crlf ++ more)

section
variable {contentType cid : Chars} {type : ObjectType} {seen seen' : Headers} {fuel : Nat}

theorem header_step {name value : Chars} (named : Plain name) (valued : Plain value)
    (short : name.length + value.length ≤ 990) (more : Chars)
    (checked : checkHeader contentType type cid seen (name ++ (": ".toList ++ value)) =
      .ok seen') :
    readHeaders version contentType type cid (fuel + 1) seen
        (Input.ofList (headerLine name value more)) =
      readHeaders version contentType type cid fuel seen' (Input.ofList more) := by
  have separator : Plain ": ".toList := plain_of_forall (by decide) (by decide)
  have plain : Plain (name ++ (": ".toList ++ value)) := by
    have two : (": ".toList).length = 2 := rfl
    apply named.append
    · exact separator.append valued (by omega)
    · rw [List.length_append]
      omega
  have some' : name ++ (": ".toList ++ value) ≠ [] := by simp
  have line := @header_line version _ plain some' more
  rw [readHeaders, headerLine, line]
  change (if name ++ (": ".toList ++ value) = [] then _ else _) = _
  rw [if_neg some', checked]
  rfl

theorem cstring_length (s : Chars) : (cstring '\x00' s).length ≤ s.length :=
  (List.takeWhile_prefix _).length_le

/-- A header that is not the blank line was taken from the stream. -/
theorem header_length {s rest : Input Char} {line : Chars}
    (read : getNextMimeHeader version s = .ok (line, rest)) (some' : line ≠ []) :
    rest.rest.length < s.rest.length := by
  have positive := List.length_pos_iff.mpr some'
  cases version with
  | file =>
    change fileMimeHeader s = _ at read
    unfold fileMimeHeader at read
    split at read
    · cases read
    cases taken : s.fgets lineLength '\n' with
    | mk buffer after =>
      rw [taken] at read
      cases buffer with
      | none => cases read
      | some buffer =>
        have length := fgets_length taken
        dsimp only at read
        split at read
        · cases read
          exact absurd rfl some'
        split at read
        · cases read
        rename_i two
        have := cstring_length buffer
        cases read
        omega
  | istream =>
    change streamMimeHeader s = _ at read
    unfold streamMimeHeader at read
    split at read
    · cases read
    obtain ⟨stored, length⟩ := getline_length lineLength '\n' s
    have := cstring_length (s.getline lineLength '\n').1
    cases read
    split at positive
    · rw [List.length_dropLast] at positive
      omega
    · omega

theorem header_fuel (s : Input Char) : getNextMimeHeader version s ≠ .error .outOfFuel := by
  intro stuck
  cases version with
  | file =>
    change fileMimeHeader s = _ at stuck
    unfold fileMimeHeader at stuck
    split at stuck
    · cases stuck
    split at stuck
    · cases stuck
    · split at stuck
      · cases stuck
      · split at stuck <;> cases stuck
  | istream =>
    change streamMimeHeader s = _ at stuck
    unfold streamMimeHeader at stuck
    split at stuck <;> cases stuck

theorem check_fuel (header : Chars) :
    checkHeader contentType type cid seen header ≠ .error .outOfFuel := by
  unfold checkHeader
  intro stuck
  dsimp only at stuck
  split at stuck
  · split at stuck <;> cases stuck
  split at stuck
  · split at stuck <;> cases stuck
  split at stuck
  · split at stuck <;> cases stuck
  · cases stuck

/-- The loop ends for want of headers. -/
theorem readHeaders_ends {s : Input Char} (enough : s.rest.length < fuel) :
    readHeaders version contentType type cid fuel seen s ≠ .error .outOfFuel := by
  induction fuel generalizing seen s with
  | zero => omega
  | succ fuel ih =>
    intro stuck
    rw [readHeaders] at stuck
    cases read : getNextMimeHeader version s with
    | error e =>
      rw [read] at stuck
      cases stuck
      exact header_fuel s read
    | ok taken =>
      obtain ⟨line, rest⟩ := taken
      rw [read] at stuck
      change (if line = [] then _ else _) = _ at stuck
      split at stuck
      · cases stuck
      rename_i some'
      have length := header_length read some'
      cases checked : checkHeader contentType type cid seen line with
      | error e =>
        rw [checked] at stuck
        cases stuck
        exact check_fuel line checked
      | ok seen' =>
        rw [checked] at stuck
        exact ih (by omega) stuck

theorem check_contentType {value : Chars} (plain : Plain value)
    (matching : contentType <:+: downcase value) :
    checkHeader contentType type cid seen ("Content-Type".toList ++ (": ".toList ++ value)) =
      .ok { seen with ct := true } := by
  have parsed := parseMimeHeader_eq "Content-Type".toList (plain_of_forall (by decide) (by decide))
    (by decide) plain
  have name : downcase "Content-Type".toList = "content-type".toList := by decide
  simp only [checkHeader, parsed, name, if_true, if_neg (not_not.mpr matching)]

theorem check_contentId {value : Chars} (plain : Plain value) (same : downcase value = cid) :
    checkHeader contentType type cid seen ("Content-Id".toList ++ (": ".toList ++ value)) =
      .ok { seen with ci := true } := by
  have parsed := parseMimeHeader_eq "Content-Id".toList (plain_of_forall (by decide) (by decide))
    (by decide) plain
  have name : downcase "Content-Id".toList = "content-id".toList := by decide
  rw [checkHeader, parsed]
  dsimp only
  rw [name, if_neg (by decide), if_neg (by decide), if_pos rfl, same, if_neg (by simp)]

/-- Every description is known as its type. -/
theorem getDescriptionType_descrip (type : ObjectType) :
    getDescriptionType (downcase (descrip type)) = type := by
  cases type <;> decide

theorem check_description :
    checkHeader contentType type cid seen
      ("Content-Description".toList ++ (": ".toList ++ descrip type)) =
      .ok { seen with cd := true } := by
  have plain : Plain (descrip type) := by
    cases type <;> exact plain_of_forall (by decide) (by decide)
  have parsed := parseMimeHeader_eq "Content-Description".toList
    (plain_of_forall (by decide) (by decide)) (by decide) plain
  have name : downcase "Content-Description".toList = "content-description".toList := by decide
  rw [checkHeader, parsed]
  dsimp only
  rw [name, if_neg (by decide), if_pos rfl, getDescriptionType_descrip, if_neg (by simp)]

theorem check_encoding (enc : EncodingType) :
    checkHeader contentType type cid seen
      ("Content-Encoding".toList ++ (": ".toList ++ encoding enc)) = .ok seen := by
  have plain : Plain (encoding enc) := by
    cases enc <;> exact plain_of_forall (by decide) (by decide)
  have parsed := parseMimeHeader_eq "Content-Encoding".toList
    (plain_of_forall (by decide) (by decide)) (by decide) plain
  have name : downcase "Content-Encoding".toList = "content-encoding".toList := by decide
  rw [checkHeader, parsed]
  dsimp only
  rw [name, if_neg (by decide), if_neg (by decide), if_neg (by decide)]

theorem blank_step (more : Chars) :
    readHeaders version contentType type cid (fuel + 1) seen (Input.ofList (crlf ++ more)) =
      .ok (seen, Input.ofList more) := by
  rw [readHeaders, blank_line]
  rfl

/-- The encoding is written if it is not the plain one. -/
def encodingLine (enc : EncodingType) (more : Chars) : Chars :=
  if enc ≠ .xPlain then headerLine "Content-Encoding".toList (encoding enc) more else more

theorem last_headers (enc : EncodingType) (body : Chars) :
    readHeaders version contentType type cid (fuel + 2) seen
      (Input.ofList (encodingLine enc (crlf ++ body))) = .ok (seen, Input.ofList body) := by
  unfold encodingLine
  by_cases plain : enc = .xPlain
  · rw [if_neg (not_not.mpr plain)]
    exact blank_step body
  · rw [if_pos plain]
    have name : Plain "Content-Encoding".toList := plain_of_forall (by decide) (by decide)
    have value : Plain (encoding enc) := by
      cases enc <;> exact plain_of_forall (by decide) (by decide)
    have short : "Content-Encoding".toList.length + (encoding enc).length ≤ 990 := by
      cases enc <;> decide
    rw [header_step name value short (crlf ++ body) (check_encoding enc)]
    exact blank_step body

end

/-! ## The headers of a part -/

def bracketed (cid : Chars) : Chars := "<".toList ++ cid ++ ">".toList

/-- What follows the boundary. -/
def headers (contentType cid : Chars) (type : ObjectType) (enc : EncodingType)
    (body : Chars) : Chars :=
  headerLine "Content-Type".toList contentType
    (headerLine "Content-Id".toList (bracketed cid)
      (headerLine "Content-Description".toList (descrip type) (encodingLine enc (crlf ++ body))))

theorem setMimeBoundary_eq (contentType boundary cid : Chars) (type : ObjectType)
    (enc : EncodingType) (body : Chars) :
    setMimeBoundary contentType boundary cid type enc ++ body =
      "--".toList ++ boundary ++ (crlf ++ headers contentType cid type enc body) := by
  have content_type : "Content-Type: ".toList = "Content-Type".toList ++ ": ".toList := by decide
  have content_id : "Content-Id: <".toList = "Content-Id".toList ++ ": ".toList ++ "<".toList := by
    decide
  have content_description :
      "Content-Description: ".toList = "Content-Description".toList ++ ": ".toList := by decide
  have content_encoding :
      "Content-Encoding: ".toList = "Content-Encoding".toList ++ ": ".toList := by decide
  unfold setMimeBoundary headers headerLine bracketed encodingLine headerLine
  rw [content_type, content_id, content_description, content_encoding]
  split <;> simp only [List.append_assoc, List.nil_append]

theorem bracketed_plain {cid : Chars} (printable : Printable cid) : Plain (bracketed cid) := by
  have short := printable.short
  have opened : Plain ("<".toList ++ cid) := by
    apply Plain.append (plain_of_forall (by decide) (by decide)) printable.plain
    change 1 + cid.length ≤ 1000
    omega
  apply opened.append (plain_of_forall (by decide) (by decide))
  rw [List.length_append]
  change 1 + cid.length + 1 ≤ 1000
  omega

theorem bracketed_length (cid : Chars) : (bracketed cid).length = cid.length + 2 := by
  simp [bracketed]

theorem length_headerLine (name value more : Chars) :
    more.length < (headerLine name value more).length := by
  simp [headerLine]
  omega

theorem readMultipartHeaders_ends (s : Input Char) (contentType cid : Chars)
    (type : ObjectType) :
    readMultipartHeaders version s contentType type cid ≠ .error .outOfFuel := by
  intro stuck
  rw [readMultipartHeaders] at stuck
  cases loop : readHeaders version contentType type cid (s.rest.length + 1)
      ⟨false, false, false⟩ s with
  | error e =>
    rw [loop] at stuck
    cases stuck
    exact readHeaders_ends (Nat.lt_succ_self _) loop
  | ok done =>
    rw [loop] at stuck
    change (if _ then _ else _) = _ at stuck
    split at stuck <;> cases stuck

theorem headers_read (part : Part) {cid contentType : Chars} (printable : Printable cid)
    (type : ObjectType) (enc : EncodingType)
    (matching : contentType <:+: downcase part.contentType) (body : Chars) :
    readMultipartHeaders version (Input.ofList (headers part.contentType cid type enc body))
      contentType type (downcase (bracketed cid)) = .ok (Input.ofList body) := by
  have typed : Plain part.contentType := by
    cases part <;> exact plain_of_forall (by decide) (by decide)
  have type_short : "Content-Type".toList.length + part.contentType.length ≤ 990 := by
    cases part <;> decide
  have id_short : "Content-Id".toList.length + (bracketed cid).length ≤ 990 := by
    have := printable.short
    rw [bracketed_length]
    change 10 + _ ≤ 990
    omega
  have description : Plain (descrip type) := by
    cases type <;> exact plain_of_forall (by decide) (by decide)
  have description_short : "Content-Description".toList.length + (descrip type).length ≤ 990 := by
    cases type <;> decide
  have enough : ∃ fuel, (headers part.contentType cid type enc body).length + 1 =
      fuel + 2 + 1 + 1 + 1 := by
    have first := length_headerLine "Content-Description".toList (descrip type)
      (encodingLine enc (crlf ++ body))
    have second := length_headerLine "Content-Id".toList (bracketed cid)
      (headerLine "Content-Description".toList (descrip type) (encodingLine enc (crlf ++ body)))
    have third := length_headerLine "Content-Type".toList part.contentType
      (headerLine "Content-Id".toList (bracketed cid)
        (headerLine "Content-Description".toList (descrip type) (encodingLine enc (crlf ++ body))))
    have last : 2 ≤ (encodingLine enc (crlf ++ body)).length := by
      unfold encodingLine
      split
      · have := length_headerLine "Content-Encoding".toList (encoding enc) (crlf ++ body)
        simp [crlf] at this ⊢
        omega
      · simp [crlf]
    exact ⟨(headers part.contentType cid type enc body).length - 4, by unfold headers; omega⟩
  obtain ⟨fuel, enough⟩ := enough
  rw [readMultipartHeaders]
  change (readHeaders _ _ _ _ ((headers part.contentType cid type enc body).length + 1) _ _ >>= _) =
    _
  rw [enough, headers,
    header_step (plain_of_forall (by decide) (by decide)) typed type_short _
      (check_contentType typed matching),
    header_step (plain_of_forall (by decide) (by decide)) (bracketed_plain printable) id_short _
      (check_contentId (bracketed_plain printable) rfl),
    header_step (plain_of_forall (by decide) (by decide)) description description_short _
      check_description,
    last_headers]
  rfl

/-! ## The first line of any stream -/

/-- The version for a `FILE` reads in front of its buffer without two characters there, and
in a line that does not end it drops the last character. -/
def Readable (s : Chars) : Version → Prop
  | .file => s.head? = some '\n' ∨ ∃ a b, a ≠ '\x00' ∧ b ≠ '\x00' ∧ [a, b] <+: s
  | .istream => True

def Begins (front s : Chars) : Version → Prop
  | .file => ∃ c, c ≠ '\x00' ∧ front ++ [c] <+: s
  | .istream => front <+: s

/-- A buffer that holds a front of the stream. -/
theorem prefix_cstring {front buffer : Chars} (plain : Plain front) :
    front <+: cstring '\x00' buffer ↔ front <+: buffer := by
  apply prefix_takeWhile
  intro c member
  rw [decide_eq_true_eq]
  exact (plain.characters c member).2.2

theorem prefix_cstring_concat {front buffer : Chars} {c : Char} (plain : Plain front) :
    front ++ [c] <+: cstring '\x00' buffer ↔ c ≠ '\x00' ∧ front ++ [c] <+: buffer := by
  constructor
  · intro begins
    refine ⟨?_, begins.trans (List.takeWhile_prefix _)⟩
    have member : c ∈ cstring '\x00' buffer := begins.subset (by simp)
    simpa using List.mem_takeWhile_imp member
  · rintro ⟨other, begins⟩
    refine (prefix_takeWhile ?_).mpr begins
    intro d member
    rw [decide_eq_true_eq]
    rcases List.mem_append.mp member with old | new
    · exact (plain.characters d old).2.2
    · rw [List.mem_singleton.mp new]
      exact other

/-- A carriage return at the end is not part of a front without one. -/
theorem prefix_without_return {front line : Chars} (plain : Plain front) :
    front <+: (if line.getLast? = some '\r' then line.dropLast else line) ↔ front <+: line := by
  split
  · rename_i ends
    have some' : line ≠ [] := by
      rintro rfl
      cases ends
    constructor
    · intro begins
      exact begins.trans (List.dropLast_prefix line)
    · rintro ⟨more, rfl⟩
      cases more using List.reverseRecOn with
      | nil =>
        rw [List.append_nil] at ends
        exact absurd (List.mem_of_getLast? ends) plain.no_return
      | append_singleton more c =>
        rw [← List.append_assoc, List.dropLast_concat]
        exact List.prefix_append front more
  · rfl

theorem prefix_before_return {front line : Chars} (plain : Plain front) :
    front <+: (if '\r' ∈ line then line.dropLast else line) ↔ front <+: line := by
  split
  · rename_i inside
    constructor
    · intro begins
      exact begins.trans (List.dropLast_prefix line)
    · rintro ⟨more, rfl⟩
      cases more using List.reverseRecOn with
      | nil =>
        rw [List.append_nil] at inside
        exact absurd inside plain.no_return
      | append_singleton more c =>
        rw [← List.append_assoc, List.dropLast_concat]
        exact List.prefix_append front more
  · rfl

theorem stream_begins (s : Chars) : ∃ line rest,
    getNextMimeHeader .istream (Input.ofList s) = .ok (line, rest) ∧
      ∀ front, Plain front → (front <+: line ↔ Begins front s .istream) := by
  refine ⟨_, _, rfl, ?_⟩
  intro front plain
  have short := plain.short
  rw [prefix_before_return plain, getline_stored, prefix_cstring plain,
    prefix_scan plain.no_newline (by rw [lineLength]; omega)]
  rfl

/-- What `fgets` stores of the first line. -/
def stored (s : Chars) : Chars := (takeLine '\n' (lineLength - 1) s).1

theorem fgets_eq {s : Chars} (some' : stored s ≠ []) : ∃ rest,
    (Input.ofList s).fgets lineLength '\n' = (some (stored s), rest) := by
  refine ⟨_, Prod.ext ?_ rfl⟩
  rw [fgets_stored]
  exact if_neg some'

theorem prefix_stored {front s : Chars} {c : Char} (inside : '\n' ∉ front)
    (short : front.length ≤ 1000) : front ++ [c] <+: stored s ↔ front ++ [c] <+: s :=
  prefix_takeLine inside (by rw [lineLength]; omega)

/-- A front does not begin with the end of a line. -/
theorem Plain.not_begins {front s : Chars} (plain : Plain front) (some' : front ≠ []) {c : Char}
    (ends : c = '\n' ∨ c = '\r') (first : s.head? = some c) : ¬ Begins front s .file := by
  rintro ⟨d, -, begins⟩
  obtain ⟨e, rest, rfl⟩ := List.exists_cons_of_ne_nil some'
  obtain ⟨more, rfl⟩ := begins
  have other := plain.characters e (List.mem_cons_self ..)
  have same : e = c := Option.some.inj first
  rcases ends with rfl | rfl
  · exact other.1 same
  · exact other.2.1 same

theorem two_stored {s : Chars} {a b : Char} (other : a ≠ '\n') :
    [a, b] <+: stored s ↔ [a, b] <+: s :=
  @prefix_stored [a] s b (by simpa using Ne.symm other) (by simp)

theorem file_begins {s : Chars} (readable : Readable s .file) : ∃ line rest,
    getNextMimeHeader .file (Input.ofList s) = .ok (line, rest) ∧
      ∀ front, Plain front → front ≠ [] → (front <+: line ↔ Begins front s .file) := by
  by_cases blank : s.head? = some '\n'
  · obtain ⟨more, rfl⟩ := List.head?_eq_some_iff.mp blank
    refine ⟨[], Input.ofList more, rfl, ?_⟩
    intro front plain some'
    have not_begins := plain.not_begins some' (Or.inl rfl) blank
    rw [List.prefix_nil]
    exact iff_of_false some' not_begins
  · rw [Readable, or_iff_right blank] at readable
    obtain ⟨a, b, a_null, b_null, begins⟩ := readable
    obtain ⟨more, rfl⟩ := begins
    have other : a ≠ '\n' := fun same => blank (congrArg some same)
    have kept : [a, b] <+: stored ([a, b] ++ more) :=
      (two_stored other).mpr (List.prefix_append _ more)
    have some' : stored ([a, b] ++ more) ≠ [] := by
      intro none'
      rw [none'] at kept
      cases List.prefix_nil.mp kept
    obtain ⟨rest, read⟩ := fgets_eq some'
    by_cases crlf_first : b = '\n' ∧ a = '\r'
    · obtain ⟨rfl, rfl⟩ := crlf_first
      refine ⟨[], Input.ofList more, blank_line more, ?_⟩
      intro front plain front_some
      have not_begins := plain.not_begins front_some (Or.inr rfl)
        (s := ['\r', '\n'] ++ more) rfl
      rw [List.prefix_nil]
      exact iff_of_false front_some not_begins
    · obtain ⟨tail, tail_eq⟩ := kept
      have not_blank : ¬ ((stored ([a, b] ++ more)).take 2 = crlf ∨
          (stored ([a, b] ++ more)).head? = some '\n') := by
        rw [← tail_eq]
        rintro (same | same)
        · have two : [a, b] = ['\r', '\n'] := same
          cases two
          exact crlf_first ⟨rfl, rfl⟩
        · exact other (Option.some.inj same)
      have null : [a, b] <+: cstring '\x00' (stored ([a, b] ++ more)) := by
        apply (prefix_takeWhile ?_).mpr ⟨tail, tail_eq⟩
        simp [a_null, b_null]
      have two : ¬ (cstring '\x00' (stored ([a, b] ++ more))).length < 2 := by
        have long : 2 ≤ _ := null.length_le
        omega
      let kept := (cstring '\x00' (stored ([a, b] ++ more))).dropLast
      refine ⟨if kept.getLast? = some '\r' then kept.dropLast else kept, rest, ?_, ?_⟩
      · change fileMimeHeader _ = _
        unfold fileMimeHeader
        rw [read]
        dsimp only
        rw [if_neg not_blank, if_neg two]
        rfl
      · intro front plain front_some
        have text_some : cstring '\x00' (stored ([a, b] ++ more)) ≠ [] := by
          intro none'
          rw [none'] at two
          exact two (by decide)
        rw [prefix_without_return plain, prefix_dropLast text_some]
        apply exists_congr
        intro c
        rw [prefix_cstring_concat plain, prefix_stored plain.no_newline plain.short]

/-- Otherwise it does not read a line. -/
theorem file_undefined {s : Chars} (unreadable : ¬ Readable s .file) :
    getNextMimeHeader .file (Input.ofList s) = .error .undefinedBehaviour := by
  rw [Readable, not_or] at unreadable
  obtain ⟨blank, none'⟩ := unreadable
  change fileMimeHeader _ = _
  unfold fileMimeHeader
  cases s with
  | nil => rfl
  | cons a more =>
    have other : a ≠ '\n' := fun same => blank (congrArg some same)
    have first : ∃ tail, stored (a :: more) = a :: tail := by
      unfold stored
      change ∃ tail, (takeLine '\n' 1023 (a :: more)).1 = a :: tail
      simp [takeLine, other]
    obtain ⟨tail, first⟩ := first
    have some' : stored (a :: more) ≠ [] := by
      rw [first]
      exact List.cons_ne_nil _ _
    obtain ⟨rest, read⟩ := fgets_eq some'
    have no_pair : ∀ b, a ≠ '\x00' → b ≠ '\x00' → ¬ [a, b] <+: stored (a :: more) :=
      fun b a_null b_null begins => none' ⟨a, b, a_null, b_null, (two_stored other).mp begins⟩
    have not_blank : ¬ ((stored (a :: more)).take 2 = crlf ∨
        (stored (a :: more)).head? = some '\n') := by
      rintro (same | same)
      · have begins : ['\r', '\n'] <+: stored (a :: more) := by
          have two := List.take_prefix 2 (stored (a :: more))
          rwa [same] at two
        have a_eq : a = '\r' := by
          rw [first] at begins
          exact (List.cons_prefix_cons.mp begins).1.symm
        exact no_pair '\n' (by rw [a_eq]; decide) (by decide) (by rw [a_eq] at begins ⊢; exact begins)
      · rw [first] at same
        exact other (Option.some.inj same)
    have short : (cstring '\x00' (stored (a :: more))).length < 2 := by
      by_contra long
      rcases text : cstring '\x00' (stored (a :: more)) with _ | ⟨x, _ | ⟨y, rest'⟩⟩
      · simp [text] at long
      · simp [text] at long
      · have begins : [x, y] <+: cstring '\x00' (stored (a :: more)) := by
          rw [text]
          exact ⟨rest', rfl⟩
        have x_null : x ≠ '\x00' := by
          have := List.mem_takeWhile_imp (begins.subset (List.mem_cons_self ..))
          simpa using this
        have y_null : y ≠ '\x00' := by
          have := List.mem_takeWhile_imp
            (begins.subset (List.mem_cons_of_mem _ (List.mem_cons_self ..)))
          simpa using this
        have inside := begins.trans (List.takeWhile_prefix _)
        have same : x = a := by
          rw [first] at inside
          exact (List.cons_prefix_cons.mp inside).1
        rw [same] at inside x_null
        exact no_pair y x_null y_null inside
    rw [read]
    dsimp only
    rw [if_neg not_blank, if_pos short]
    rfl

theorem header_begins {s : Chars} (readable : Readable s version) : ∃ line rest,
    getNextMimeHeader version (Input.ofList s) = .ok (line, rest) ∧
      ∀ front, Plain front → front ≠ [] → (front <+: line ↔ Begins front s version) := by
  cases version with
  | file => exact file_begins readable
  | istream =>
    obtain ⟨line, rest, read, begins⟩ := stream_begins s
    exact ⟨line, rest, read, fun front plain _ => begins front plain⟩

theorem begins_prefix {front s : Chars} (begins : Begins front s version) : front <+: s := by
  cases version with
  | file =>
    obtain ⟨c, -, longer⟩ := begins
    exact (List.prefix_append front [c]).trans longer
  | istream => exact begins

theorem dashes_readable {s : Chars} (dashes : "--".toList <+: s) : Readable s version := by
  cases version with
  | file => exact Or.inr ⟨'-', '-', by decide, by decide, dashes⟩
  | istream => trivial

/-! ## What `read_multipart_boundary` refuses -/

def Raises (version : Version) (expected s : Chars) : Prop :=
  ∃ code message,
    readMultipartBoundary version (Input.ofList s) expected = .error (.error code message)

/-- The boundary that a caller may expect: none, or the line of one. -/
def Expectation (expected : Chars) : Prop :=
  expected = [] ∨ ∃ boundary, Printable boundary ∧ expected = "--".toList ++ boundary

/-- The first line is the expected one. -/
def FirstLine (expected s : Chars) : Prop :=
  if expected = [] then "--".toList <+: s
  else s = expected ∨ ∃ more, s = expected ++ '\n' :: more ∨ s = expected ++ (crlf ++ more)

theorem dashes_plain : Plain "--".toList := plain_of_forall (by decide) (by decide)

theorem expectation_plain {expected : Chars} (expectation : Expectation expected) :
    Plain expected := by
  rcases expectation with rfl | ⟨boundary, printable, rfl⟩
  · exact ⟨by simp, by simp⟩
  · apply dashes_plain.append printable.plain
    have := printable.short
    change 2 + boundary.length ≤ 1000
    omega

theorem isBoundary_iff {line boundary : Chars} (plain : Plain boundary) :
    isBoundary line boundary = true ↔ "--".toList <+: line ∧ boundary <+: line := by
  rw [isBoundary, Bool.and_eq_true, decide_eq_true_eq, List.isPrefixOf_iff_prefix,
    cstring_eq plain.no_null]
  have taken : boundary <+: line ↔ boundary = line.take boundary.length :=
    List.prefix_iff_eq_take
  rw [taken]
  exact and_congr_right fun _ => eq_comm

theorem boundary_refused {s line expected : Chars} {rest : Input Char}
    (read : getNextMimeHeader version (Input.ofList s) = .ok (line, rest))
    (refused : (expected ≠ [] ∧ isBoundary line expected) ∨ ¬ "--".toList.isPrefixOf line) :
    readMultipartBoundary version (Input.ofList s) expected = .error brokenBoundary := by
  rw [readMultipartBoundary, read]
  exact if_pos refused

theorem boundary_accepted {s line expected : Chars} {rest : Input Char}
    (read : getNextMimeHeader version (Input.ofList s) = .ok (line, rest))
    (accepted : ¬ ((expected ≠ [] ∧ isBoundary line expected) ∨
      ¬ "--".toList.isPrefixOf line)) :
    readMultipartBoundary version (Input.ofList s) expected = .ok (line, rest) := by
  rw [readMultipartBoundary, read]
  exact if_neg accepted

/-- The line is refused if it is the one that is expected, or no boundary at all. -/
theorem raises_iff {s expected : Chars} (readable : Readable s version)
    (expectation : Expectation expected) :
    Raises version expected s ↔
      (expected ≠ [] ∧ Begins expected s version) ∨ ¬ Begins "--".toList s version := by
  obtain ⟨line, rest, read, begins⟩ := header_begins readable
  have dashes := begins _ dashes_plain (by decide)
  have refused : ((expected ≠ [] ∧ isBoundary line expected) ∨ ¬ "--".toList.isPrefixOf line) ↔
      (expected ≠ [] ∧ Begins expected s version) ∨ ¬ Begins "--".toList s version := by
    rw [List.isPrefixOf_iff_prefix, dashes, isBoundary_iff (expectation_plain expectation), dashes]
    by_cases some' : expected = []
    · simp [some']
    · rw [begins _ (expectation_plain expectation) some']
      tauto
  rw [← refused]
  constructor
  · rintro ⟨code, message, raised⟩
    by_contra accepted
    rw [boundary_accepted read accepted] at raised
    cases raised
  · intro wrong
    exact ⟨_, _, boundary_refused read wrong⟩

theorem not_raises {s expected : Chars} (unreadable : ¬ Readable s version) :
    ¬ Raises version expected s := by
  rintro ⟨code, message, raised⟩
  cases version with
  | file =>
    rw [readMultipartBoundary, file_undefined unreadable] at raised
    cases raised
  | istream => exact unreadable trivial

theorem firstLine_dashes {s expected : Chars} (expectation : Expectation expected)
    (first : FirstLine expected s) : "--".toList <+: s := by
  unfold FirstLine at first
  split at first
  · exact first
  · rename_i some'
    obtain ⟨boundary, -, rfl⟩ := expectation.resolve_left some'
    rcases first with rfl | ⟨more, rfl | rfl⟩
    · exact List.prefix_append _ boundary
    · exact (List.prefix_append _ boundary).trans (List.prefix_append _ _)
    · exact (List.prefix_append _ boundary).trans (List.prefix_append _ _)

theorem firstLine_begins {s expected : Chars} (some' : expected ≠ [])
    (first : FirstLine expected s) : s = expected ∨ Begins expected s version := by
  rw [FirstLine, if_neg some'] at first
  rcases first with whole | ⟨more, rfl | rfl⟩
  · exact Or.inl whole
  · right
    cases version with
    | file => exact ⟨'\n', by decide, more, by simp⟩
    | istream => exact List.prefix_append _ _
  · right
    cases version with
    | file => exact ⟨'\r', by decide, '\n' :: more, by simp [crlf]⟩
    | istream => exact List.prefix_append _ _

/-- When a first line that is not the expected boundary is refused. -/
theorem refused_iff {s expected : Chars} (expectation : Expectation expected) :
    (¬ FirstLine expected s → Raises version expected s) ↔
      Readable s version ∧ (expected = [] ∨ s = expected ∨ Begins expected s version ∨
        ¬ Begins "--".toList s version) := by
  constructor
  · intro refused
    have readable : Readable s version := by
      by_cases first : FirstLine expected s
      · exact dashes_readable (firstLine_dashes expectation first)
      · by_contra unreadable
        exact not_raises unreadable (refused first)
    refine ⟨readable, ?_⟩
    by_cases none' : expected = []
    · exact Or.inl none'
    · right
      by_cases first : FirstLine expected s
      · rcases @firstLine_begins version _ _ none' first with whole | begins
        · exact Or.inl whole
        · exact Or.inr (Or.inl begins)
      · rcases (raises_iff readable expectation).mp (refused first) with ⟨-, begins⟩ | other
        · exact Or.inr (Or.inl begins)
        · exact Or.inr (Or.inr other)
  · rintro ⟨readable, condition⟩ other
    apply (raises_iff readable expectation).mpr
    by_cases none' : expected = []
    · right
      intro begins
      apply other
      rw [FirstLine, if_pos none']
      exact begins_prefix begins
    · rcases condition with same | whole | begins | no_dashes
      · exact absurd same none'
      · exact absurd (by rw [FirstLine, if_neg none']; exact Or.inl whole) other
      · exact Or.inl ⟨none', begins⟩
      · exact Or.inr no_dashes

/-! ## What is read back -/

/-- The part is accepted, and the stream is left at its body. -/
def ReadsBack (version : Version) (part : Part) (boundary cid : Chars) (type : ObjectType)
    (enc : EncodingType) (contentType body expected : Chars) : Prop :=
  ∃ line s header,
    readMultipartBoundary version
        (Input.ofList (part.setBoundary boundary cid type enc ++ body)) expected = .ok (line, s) ∧
      cidToHeaderValue ("cid:".toList ++ cid) = .ok header ∧
      readMultipartHeaders version s contentType type header = .ok (Input.ofList body)

theorem first_line_read (part : Part) {boundary : Chars} (printable : Printable boundary)
    (cid : Chars) (type : ObjectType) (enc : EncodingType) (body : Chars) :
    getNextMimeHeader version (Input.ofList (part.setBoundary boundary cid type enc ++ body)) =
      .ok ("--".toList ++ boundary,
        Input.ofList (headers part.contentType cid type enc body)) := by
  rw [setBoundary_eq, setMimeBoundary_eq]
  apply header_line
  · exact expectation_plain (Or.inr ⟨boundary, printable, rfl⟩)
  · exact List.append_ne_nil_of_left_ne_nil (by decide) boundary

theorem readsBack_none (part : Part) {boundary cid contentType : Chars}
    (printable : Printable boundary) (printable_id : Printable cid) (type : ObjectType)
    (enc : EncodingType) (matching : contentType <:+: downcase part.contentType)
    (body : Chars) : ReadsBack version part boundary cid type enc contentType body [] := by
  refine ⟨"--".toList ++ boundary, Input.ofList (headers part.contentType cid type enc body),
    downcase (bracketed cid), ?_, rfl, ?_⟩
  · apply boundary_accepted (first_line_read part printable cid type enc body)
    rintro (⟨same, -⟩ | no_dashes)
    · exact same rfl
    · exact no_dashes (List.isPrefixOf_iff_prefix.mpr (List.prefix_append _ boundary))
  · exact headers_read part printable_id type enc matching body

theorem not_readsBack_expected (part : Part) {boundary cid contentType : Chars}
    (printable : Printable boundary) (type : ObjectType) (enc : EncodingType) (body : Chars) :
    ¬ ReadsBack version part boundary cid type enc contentType body ("--".toList ++ boundary) := by
  rintro ⟨line, s, header, accepted, -⟩
  have some' : "--".toList ++ boundary ≠ [] :=
    List.append_ne_nil_of_left_ne_nil (by decide) boundary
  have plain := expectation_plain (Or.inr ⟨boundary, printable, rfl⟩)
  have refused := boundary_refused
    (@first_line_read version part _ printable cid type enc body)
    (Or.inl ⟨some', (isBoundary_iff plain).mpr
      ⟨List.prefix_append _ boundary, List.prefix_rfl⟩⟩)
  rw [refused] at accepted
  cases accepted

/-- A part is read back only where no boundary is expected; and what is no first line of a part is
refused unless it is taken for one. -/
theorem framing_iff (version : Version) (part : Part) (boundary cid contentType : Chars)
    (printable : Printable boundary) (printable_id : Printable cid) (type : ObjectType)
    (enc : EncodingType) (matching : contentType <:+: downcase part.contentType)
    (body expected : Chars) (choice : expected = [] ∨ expected = "--".toList ++ boundary)
    (s : Chars) :
    (ReadsBack version part boundary cid type enc contentType body expected ↔ expected = []) ∧
    ((¬ FirstLine expected s → Raises version expected s) ↔
      Readable s version ∧ (expected = [] ∨ s = expected ∨ Begins expected s version ∨
        ¬ Begins "--".toList s version)) := by
  constructor
  · constructor
    · intro readsBack
      by_contra some'
      rw [choice.resolve_left some'] at readsBack
      exact not_readsBack_expected part printable type enc body readsBack
    · rintro rfl
      exact readsBack_none part printable printable_id type enc matching body
  · apply refused_iff
    exact choice.imp id fun same => ⟨boundary, printable, same⟩

theorem framing_ddx :
    ReadsBack .file .ddx "b".toList "1".toList .dap4Ddx .xPlain "text/xml".toList "<D/>".toList
      [] :=
  (framing_iff .file .ddx "b".toList "1".toList "text/xml".toList
    (printable_of_forall (by decide) (by decide)) (printable_of_forall (by decide) (by decide))
    .dap4Ddx .xPlain (by decide) "<D/>".toList [] (Or.inl rfl) []).1.mpr rfl

/-- The boundary that is expected is refused, another one is not. -/
theorem expected_boundary_refused :
    ¬ ReadsBack .file .ddx "b".toList "1".toList .dap4Ddx .xPlain "text/xml".toList
        "<D/>".toList "--b".toList ∧
      ¬ FirstLine "--b".toList "--other\r\n".toList ∧
      ¬ Raises .file "--b".toList "--other\r\n".toList := by
  refine ⟨?_, ?_, ?_⟩
  · have printable : Printable "b".toList := printable_of_forall (by decide) (by decide)
    exact @not_readsBack_expected .file .ddx "b".toList "1".toList _ printable .dap4Ddx
      .xPlain "<D/>".toList
  · rw [FirstLine, if_neg (by decide)]
    rintro (same | ⟨more, same | same⟩)
    · exact absurd same (by decide)
    · cases same
    · cases same
  · rintro ⟨code, message, raised⟩
    have accepted : readMultipartBoundary .file (Input.ofList "--other\r\n".toList) "--b".toList =
        .ok ("--other".toList, Input.ofList []) := by rfl
    rw [accepted] at raised
    cases raised

end Libdap.Guarantees.MultipartFraming
