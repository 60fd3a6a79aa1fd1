import Libdap.Source.DDXStream

/-!
# A DDX in front of a boundary line

The document is passed through if it is cut into pieces that the buffer holds: four
characters, then lines with their newlines, for a `FILE` also parts of longer lines. No piece
may begin with the boundary.
-/
namespace Libdap.Guarantees.DDXStream
open Libdap.Library.LineInput
open Libdap.Source Libdap.Source.MimeUtil Libdap.Source.DDXStream
open Libdap.Source.HTTPCacheTable (Chars)

/-! ## Texts up to their line ends -/

/-- With a newline for every carriage return and newline. -/
def normalize : Chars → Chars
  | [] => []
  | [c] => [c]
  | c :: d :: rest =>
    if c = '\r' ∧ d = '\n' then '\n' :: normalize rest else c :: normalize (d :: rest)

theorem normalize_nil {l : Chars} (none' : normalize l = []) : l = [] := by
  match l with
  | [] => rfl
  | [_] => cases none'
  | c :: d :: rest =>
    unfold normalize at none'
    split at none' <;> cases none'

theorem normalize_append {l more : Chars} (same : normalize (l ++ more) = normalize l) :
    more = [] := by
  fun_induction normalize l with
  | case1 => exact normalize_nil same
  | case2 c =>
    cases more with
    | nil => rfl
    | cons d more =>
      rw [List.singleton_append] at same
      unfold normalize at same
      split at same
      · rename_i ends
        have head := (List.cons.inj same).1
        rw [ends.1] at head
        exact absurd head (by decide)
      · have tail := (List.cons.inj same).2
        cases normalize_nil tail
  | case3 c d rest ends ih =>
    rw [List.cons_append, List.cons_append, normalize, if_pos ends] at same
    exact ih (List.cons.inj same).2
  | case4 c d rest ends ih =>
    rw [List.cons_append, List.cons_append, normalize, if_neg ends] at same
    exact ih (List.cons.inj same).2

theorem normalize_cons {c : Char} {more : Chars} (single : c ≠ '\r' ∨ more.head? ≠ some '\n') :
    normalize (c :: more) = c :: normalize more := by
  cases more with
  | nil => rfl
  | cons d more =>
    rw [normalize, if_neg]
    rintro ⟨rfl, rfl⟩
    rcases single with other | other <;> exact other rfl

/-- A newline in the place of another character shows. -/
theorem normalize_differ (l after : Chars) {c : Char} {more : Chars} (other : c ≠ '\n')
    (no_newline : more.head? ≠ some '\n') :
    normalize (l ++ '\n' :: after) ≠ normalize (l ++ c :: more) := by
  have here : normalize ('\n' :: after) ≠ normalize (c :: more) := by
    rw [normalize_cons (Or.inl (by decide)), normalize_cons (Or.inr no_newline)]
    intro same
    exact other (List.cons.inj same).1.symm
  fun_induction normalize l with
  | case1 => exact here
  | case2 d =>
    have next : (c :: more).head? ≠ some '\n' := fun same => other (Option.some.inj same)
    rw [List.singleton_append, List.singleton_append, normalize_cons (Or.inr next)]
    by_cases ret : d = '\r'
    · rw [normalize, if_pos ⟨ret, rfl⟩, ret]
      intro same
      exact absurd (List.cons.inj same).1 (by decide)
    · rw [normalize_cons (Or.inl ret)]
      intro same
      exact here (List.cons.inj same).2
  | case3 d e rest ends ih =>
    rw [List.cons_append, List.cons_append, List.cons_append, List.cons_append, normalize,
      if_pos ends, normalize, if_pos ends]
    intro same
    exact ih (List.cons.inj same).2
  | case4 d e rest ends ih =>
    rw [List.cons_append, List.cons_append, List.cons_append, List.cons_append, normalize,
      if_neg ends, normalize, if_neg ends]
    intro same
    exact ih (List.cons.inj same).2

theorem count_normalize {c : Char} (other : c ≠ '\r') (l : Chars) :
    (normalize l).count c = l.count c := by
  fun_induction normalize l with
  | case1 => rfl
  | case2 => rfl
  | case3 d e rest ends ih =>
    rw [ends.1, ends.2, List.count_cons, List.count_cons, List.count_cons, ih]
    simp [Ne.symm other]
  | case4 d e rest ends ih =>
    rw [List.count_cons, ih]
    exact List.count_cons.symm

/-! ## Boundary lines and pieces -/

/-- The text of a boundary; the line has it, perhaps a carriage return, and a newline. -/
structure Boundary (boundary ret : Chars) : Prop where
  dashes : "--".toList <+: boundary
  characters : ∀ c ∈ boundary, c ≠ '\n' ∧ c ≠ '\r' ∧ c ≠ '\x00'
  ret : ret = [] ∨ ret = ['\r']

/-- What one turn of the loop takes whole. -/
def Piece : Version → Chars → Prop
  | .istream, p => ∃ line, p = line ++ ['\n'] ∧ '\n' ∉ line ∧ line.length < size
  | .file, p => '\x00' ∉ p ∧
      ((∃ line, p = line ++ ['\n'] ∧ '\n' ∉ line ∧ line.length + 1 < size) ∨
        '\n' ∉ p ∧ p.length + 1 = size)

/-- The boundary is seen in one turn. -/
def Fits (boundary ret : Chars) : Version → Prop
  | .istream => (boundary ++ ret).length < size
  | .file => boundary.length < size

structure Passable (version : Version) (boundary ret document : Chars) : Prop where
  fits : Fits boundary ret version
  cut : ∃ (front : Chars) (pieces : List Chars), document = front ++ pieces.flatten ∧
    front.length = 4 ∧ ∀ p ∈ pieces, Piece version p ∧ ¬ boundary <+: p

/-- The parser is fed the document, and what follows the boundary line is still there. -/
def PassesThrough (version : Version) (boundary ret document after : Chars) : Prop :=
  ∃ fed s, internStream version
      (Input.ofList (document ++ (boundary ++ ret ++ '\n' :: after))) boundary = .ok (fed, s) ∧
    normalize fed.flatten = normalize document ∧ after <:+ s.rest

variable {version : Version} {boundary ret : Chars}

theorem Boundary.no_newline (line : Boundary boundary ret) : '\n' ∉ boundary :=
  fun member => (line.characters _ member).1 rfl

theorem Boundary.line_no_newline (line : Boundary boundary ret) : '\n' ∉ boundary ++ ret := by
  have := line.no_newline
  rcases line.ret with rfl | rfl <;> simp [this]

theorem Boundary.starts (line : Boundary boundary ret) : ∃ rest, boundary = '-' :: rest := by
  obtain ⟨more, rfl⟩ := line.dashes
  exact ⟨'-' :: more, rfl⟩

theorem isBoundary_iff (line : Boundary boundary ret) (chars : Chars) :
    isBoundary (cstring '\x00' chars) boundary = true ↔ boundary <+: chars := by
  have no_null : ∀ c ∈ boundary, decide (c ≠ '\x00') = true := by
    intro c member
    rw [decide_eq_true_eq]
    exact (line.characters c member).2.2
  have whole : cstring '\x00' boundary = boundary :=
    List.takeWhile_eq_self_iff.mpr no_null
  have taken : ∀ l : Chars, boundary <+: l ↔ boundary = l.take boundary.length :=
    fun l => List.prefix_iff_eq_take
  have seen : boundary <+: cstring '\x00' chars ↔ boundary <+: chars := prefix_takeWhile no_null
  rw [isBoundary, Bool.and_eq_true, decide_eq_true_eq, List.isPrefixOf_iff_prefix, whole,
    ← seen]
  constructor
  · rintro ⟨-, same⟩
    exact (taken _).mpr same.symm
  · intro begins
    exact ⟨line.dashes.trans begins, ((taken _).mp begins).symm⟩

theorem piece_nonempty {p : Chars} (piece : Piece version p) : p ≠ [] := by
  rintro rfl
  cases version with
  | istream =>
    obtain ⟨line, same, -⟩ := piece
    simp at same
  | file =>
    rcases piece.2 with ⟨line, same, -⟩ | ⟨-, full⟩
    · simp at same
    · exact absurd full (by decide)

theorem nextChunk_getline {s s' : Input Char} {chars : Chars} {res : Nat}
    (read : s.getline size '\n' = (chars, res, s')) (some' : 0 < res) :
    nextChunk .istream s = (some (chars.take (res - 1) ++ ['\n']), s') := by
  rw [nextChunk, read]
  exact congrArg (·, s') (if_pos some')

theorem nextChunk_fgets {s s' : Input Char} {chars : Chars}
    (read : s.fgets size '\n' = (some chars, s')) :
    nextChunk .file s = (some (cstring '\x00' chars), s') := by
  rw [nextChunk, read]
  rfl

/-- A line with its newline. -/
theorem nextChunk_line {line : Chars} (inside : '\n' ∉ line) (fits : line.length < size)
    (more : Chars) :
    nextChunk .istream (Input.ofList (line ++ '\n' :: more)) =
      (some (line ++ ['\n']), Input.ofList more) := by
  have read := nextChunk_getline (getline_line size '\n' line more inside fits)
    (Nat.succ_pos _)
  rwa [Nat.add_sub_cancel, List.take_length] at read

theorem nextChunk_piece {p : Chars} (piece : Piece version p) (more : Chars) :
    nextChunk version (Input.ofList (p ++ more)) = (some p, Input.ofList more) := by
  cases version with
  | istream =>
    obtain ⟨line, rfl, inside, fits⟩ := piece
    rw [List.append_assoc]
    exact nextChunk_line inside fits more
  | file =>
    obtain ⟨no_null, ⟨line, rfl, inside, fits⟩ | ⟨inside, full⟩⟩ := piece
    · have read := nextChunk_fgets (fgets_line size '\n' line more inside fits)
      rw [List.append_assoc]
      rwa [cstring_eq no_null] at read
    · have read := takeLine_full more inside
      have room : p.length = size - 1 := by omega
      rw [room] at read
      have some' : (takeLine '\n' (size - 1) (p ++ more)).1 ≠ [] := by
        rw [read]
        rintro rfl
        exact absurd full (by decide)
      have taken := nextChunk_fgets (fgets_some some')
      rw [read] at taken
      rwa [cstring_eq no_null] at taken

theorem nextChunk_boundary (line : Boundary boundary ret) (fits : Fits boundary ret version)
    (after : Chars) : ∃ chars s,
      nextChunk version (Input.ofList (boundary ++ ret ++ '\n' :: after)) = (some chars, s) ∧
        boundary <+: chars ∧ after <:+ s.rest := by
  cases version with
  | istream =>
    refine ⟨_, _, nextChunk_line line.line_no_newline fits after, ?_, List.suffix_rfl⟩
    rw [List.append_assoc]
    exact List.prefix_append _ _
  | file =>
    have begins : boundary <+: (takeLine '\n' (size - 1) (boundary ++ ret ++ '\n' :: after)).1 := by
      apply (prefix_takeLine_full line.no_newline _).mpr
      · rw [List.append_assoc]
        exact List.prefix_append _ _
      · have short : boundary.length < size := fits
        omega
    have some' : (takeLine '\n' (size - 1) (boundary ++ ret ++ '\n' :: after)).1 ≠ [] := by
      intro none'
      obtain ⟨rest, rfl⟩ := line.starts
      rw [none'] at begins
      cases List.prefix_nil.mp begins
    refine ⟨_, _, nextChunk_fgets (fgets_some some'), ?_,
      takeLine_suffix _ after line.line_no_newline⟩
    apply (prefix_takeWhile _).mpr begins
    intro c member
    rw [decide_eq_true_eq]
    exact (line.characters c member).2.2

/-- A turn of the loop takes something from the stream. -/
theorem nextChunk_length {s s' : Input Char} {chars : Chars}
    (read : nextChunk version s = (some chars, s')) : s'.rest.length < s.rest.length := by
  cases version with
  | istream =>
    obtain ⟨-, length⟩ := getline_length size '\n' s
    rw [nextChunk] at read
    by_cases some' : 0 < (s.getline size '\n').2.1
    · have after : (s.getline size '\n').2.2 = s' := congrArg Prod.snd read
      rw [← after]
      omega
    · dsimp only at read
      rw [if_neg some'] at read
      cases read
  | file =>
    rw [nextChunk] at read
    cases taken : s.fgets size '\n' with
    | mk buffer after =>
      rw [taken] at read
      cases buffer with
      | none => cases read
      | some buffer =>
        have length := fgets_length taken
        have some' : buffer ≠ [] := by
          rintro rfl
          have stored := fgets_some_ne taken
          exact stored rfl
        have := List.length_pos_iff.mpr some'
        cases read
        omega

/-- The loop ends with a boundary line or with the stream. -/
theorem feedLines_ends {fuel : Nat} {s : Input Char} (enough : s.rest.length < fuel) :
    ∃ fed s', feedLines version boundary fuel s = .ok (fed, s') := by
  induction fuel generalizing s with
  | zero => omega
  | succ fuel ih =>
    rw [feedLines]
    split
    · exact ⟨_, _, rfl⟩
    · rename_i chars rest read
      split
      · exact ⟨_, _, rfl⟩
      · obtain ⟨fed, s', later⟩ := @ih rest (by have := nextChunk_length read; omega)
        rw [later]
        exact ⟨_, _, rfl⟩

/-! ## A document that is passed through -/

theorem feed_pieces (line : Boundary boundary ret) (fits : Fits boundary ret version)
    (after : Chars) {pieces : List Chars}
    (each : ∀ p ∈ pieces, Piece version p ∧ ¬ boundary <+: p) {fuel : Nat}
    (enough : pieces.length < fuel) : ∃ s,
      feedLines version boundary fuel
          (Input.ofList (pieces.flatten ++ (boundary ++ ret ++ '\n' :: after))) =
        .ok (pieces, s) ∧ after <:+ s.rest := by
  induction pieces generalizing fuel with
  | nil =>
    obtain ⟨fuel, rfl⟩ : ∃ k, fuel = k + 1 := ⟨fuel - 1, by simp at enough; omega⟩
    obtain ⟨chars, s, read, begins, left⟩ := nextChunk_boundary line fits after
    refine ⟨s, ?_, left⟩
    rw [List.flatten_nil, List.nil_append, feedLines, read]
    exact if_pos ((isBoundary_iff line chars).mpr begins)
  | cons p pieces ih =>
    obtain ⟨fuel, rfl⟩ : ∃ k, fuel = k + 1 := ⟨fuel - 1, by simp at enough; omega⟩
    obtain ⟨piece, other⟩ := each p (List.mem_cons_self ..)
    obtain ⟨s, rest, left⟩ := ih (fun q member => each q (List.mem_cons_of_mem _ member))
      (Nat.lt_of_succ_lt_succ enough)
    refine ⟨s, ?_, left⟩
    rw [List.flatten_cons, List.append_assoc, feedLines, nextChunk_piece piece]
    dsimp only
    rw [if_neg (fun seen => other ((isBoundary_iff line p).mp seen)), rest]
    rfl

theorem length_flatten {pieces : List Chars} (each : ∀ p ∈ pieces, p ≠ []) :
    pieces.length ≤ pieces.flatten.length := by
  induction pieces with
  | nil => simp
  | cons p pieces ih =>
    have first := List.length_pos_iff.mpr (each p (List.mem_cons_self ..))
    have rest := ih fun q member => each q (List.mem_cons_of_mem _ member)
    simp only [List.flatten_cons, List.length_append, List.length_cons]
    omega

theorem internStream_eq {l : Chars} (some' : l.take 4 ≠ [])
    (first : version = .istream → (nextChunk version (Input.ofList (l.drop 4))).1 ≠ none) :
    internStream version (Input.ofList l) boundary =
      (feedLines version boundary ((l.drop 4).length + 1) (Input.ofList (l.drop 4)) >>=
        fun read => pure (l.take 4 :: read.1, read.2)) := by
  unfold internStream
  rw [if_neg (by simp [Input.ofList])]
  have taken : (Input.ofList l).rest.take 4 ≠ [] := some'
  dsimp only
  rw [if_neg taken, if_neg (fun both => first both.1 both.2)]
  rfl

theorem passesThrough_of_passable (line : Boundary boundary ret) {document : Chars}
    (passable : Passable version boundary ret document) (after : Chars) :
    PassesThrough version boundary ret document after := by
  obtain ⟨fits, front, pieces, rfl, four, each⟩ := passable
  have rest_eq : (front ++ pieces.flatten ++ (boundary ++ ret ++ '\n' :: after)).drop 4 =
      pieces.flatten ++ (boundary ++ ret ++ '\n' :: after) := by
    rw [List.append_assoc, ← four, List.drop_left]
  have front_eq : (front ++ pieces.flatten ++ (boundary ++ ret ++ '\n' :: after)).take 4 =
      front := by
    rw [List.append_assoc, ← four, List.take_left]
  have some' : front ≠ [] := by
    rintro rfl
    cases four
  have lengths := length_flatten fun p member => piece_nonempty (each p member).1
  obtain ⟨s, fed, left⟩ := feed_pieces line fits after each
    (show pieces.length <
      (pieces.flatten ++ (boundary ++ ret ++ '\n' :: after)).length + 1 by
        rw [List.length_append]; omega)
  refine ⟨front :: pieces, s, ?_, by rw [List.flatten_cons], left⟩
  have first : (nextChunk version
      (Input.ofList (pieces.flatten ++ (boundary ++ ret ++ '\n' :: after)))).1 ≠ none := by
    cases pieces with
    | nil =>
      obtain ⟨chars, t, read, -⟩ := nextChunk_boundary line fits after
      rw [List.flatten_nil, List.nil_append, read]
      exact Option.some_ne_none chars
    | cons p pieces =>
      rw [List.flatten_cons, List.append_assoc,
        nextChunk_piece (each p (List.mem_cons_self ..)).1]
      exact Option.some_ne_none p
  rw [internStream_eq (by rwa [front_eq]) (fun _ => by rwa [rest_eq]), front_eq, rest_eq, fed]
  rfl

/-! ## A document that is not -/

/-- What is fed of a `FILE` has no null. -/
theorem fed_no_null {fuel : Nat} {s s' : Input Char} {fed : List Chars}
    (done : feedLines .file boundary fuel s = .ok (fed, s')) : '\x00' ∉ fed.flatten := by
  induction fuel generalizing s fed with
  | zero => cases done
  | succ fuel ih =>
    rw [feedLines] at done
    split at done
    · cases done
      simp
    · rename_i chars rest read
      split at done
      · cases done
        simp
      · cases later : feedLines .file boundary fuel rest with
        | error e =>
          rw [later] at done
          cases done
        | ok pair =>
          rw [later] at done
          cases done
          rw [List.flatten_cons, List.mem_append, not_or]
          refine ⟨?_, ih later⟩
          rw [nextChunk] at read
          cases taken : s.fgets size '\n' with
          | mk buffer after =>
            rw [taken] at read
            cases buffer with
            | none => cases read
            | some buffer =>
              cases read
              intro member
              have := List.mem_takeWhile_imp member
              simp at this

/-- What is left of the document does not begin with a piece. -/
def NoPiece (version : Version) (left : Chars) : Prop :=
  ∀ p more, Piece version p → left ≠ p ++ more

/-- Then what is fed shows, and the boundary is seen only if nothing is left. -/
structure Mismatch (version : Version) (boundary ret left chars : Chars) : Prop where
  shows : ∀ front after, normalize (front ++ (chars ++ after)) ≠ normalize (front ++ left)
  fits : left = [] → boundary <+: chars → Fits boundary ret version

theorem shows_longer {left chars : Chars} {c : Char} (longer : left ++ [c] <+: chars)
    (front after : Chars) :
    normalize (front ++ (chars ++ after)) ≠ normalize (front ++ left) := by
  obtain ⟨more, rfl⟩ := longer
  intro same
  have extra : front ++ (left ++ [c] ++ more ++ after) = front ++ left ++ (c :: more ++ after) := by
    simp
  rw [extra] at same
  cases normalize_append same

/-- The last character that was stored is lost. -/
theorem shows_cut {left : Chars} {n : Nat} (inside : '\n' ∉ left.take (n + 2))
    (long : n + 1 ≤ left.length) (front after : Chars) :
    normalize (front ++ (left.take n ++ ['\n'] ++ after)) ≠ normalize (front ++ left) := by
  cases rest : left.drop n with
  | nil =>
    have := congrArg List.length rest
    simp at this
    omega
  | cons c more =>
    have whole : left.take (n + 2) = left.take n ++ c :: more.take 1 := by
      rw [List.take_add, rest]
      rfl
    rw [whole] at inside
    have other : c ≠ '\n' := by
      rintro rfl
      exact inside (by simp)
    have no_newline : more.head? ≠ some '\n' := by
      intro same
      obtain ⟨tail, rfl⟩ := List.head?_eq_some_iff.mp same
      exact inside (by simp)
    have differ := normalize_differ (front ++ left.take n) after other no_newline
    have tail : front ++ left = front ++ left.take n ++ c :: more := by
      rw [List.append_assoc, ← rest, List.take_append_drop]
    rw [← tail] at differ
    simpa using differ

theorem mismatch_stream (line : Boundary boundary ret) {left : Chars}
    (none' : NoPiece .istream left) (after : Chars) : ∃ chars s,
      nextChunk .istream (Input.ofList (left ++ (boundary ++ ret ++ '\n' :: after))) =
        (some chars, s) ∧ Mismatch .istream boundary ret left chars := by
  obtain ⟨dashes, starts⟩ := line.starts
  by_cases newline : '\n' ∈ left
  · obtain ⟨first, rest, rfl, inside⟩ := List.eq_append_cons_of_mem newline
    have long : size ≤ first.length := by
      by_contra short
      exact none' (first ++ ['\n']) rest ⟨first, rfl, inside, by omega⟩ (by simp)
    have read := nextChunk_getline (getline_full size '\n' first
      ('\n' :: rest ++ (boundary ++ ret ++ '\n' :: after)) inside long (by decide)) (by decide)
    have cut : (first.take (size - 1)).take (size - 1 - 1) =
        (first ++ '\n' :: rest).take 1022 := by
      rw [List.take_take, List.take_append_of_le_length (by change 1024 ≤ _ at long; omega)]
      rfl
    rw [cut] at read
    refine ⟨_, _, by rw [List.append_assoc]; exact read, ?_, fun nil' => by simp at nil'⟩
    apply shows_cut
    · rw [show 1022 + 2 = size from rfl, List.take_append_of_le_length long]
      exact fun member => inside (List.mem_of_mem_take member)
    · change 1024 ≤ _ at long
      rw [List.length_append]
      omega
  · have inside : '\n' ∉ left ++ (boundary ++ ret) := by
      rw [List.mem_append, not_or]
      exact ⟨newline, line.line_no_newline⟩
    by_cases short : (left ++ (boundary ++ ret)).length < size
    · have read := nextChunk_line inside short after
      rw [List.append_assoc] at read
      refine ⟨_, _, read, ?_, ?_⟩
      · apply shows_longer (c := '-')
        exact ⟨dashes ++ ret ++ ['\n'], by simp [starts]⟩
      · rintro rfl -
        exact short
    · have long : size ≤ (left ++ (boundary ++ ret)).length := by omega
      have read := nextChunk_getline (getline_full size '\n' _ ('\n' :: after) inside long
        (by decide)) (by decide)
      have cut : ((left ++ (boundary ++ ret)).take (size - 1)).take (size - 1 - 1) =
          (left ++ (boundary ++ ret)).take 1022 := by
        rw [List.take_take]
        rfl
      rw [cut, List.append_assoc] at read
      refine ⟨_, _, read, ?_, ?_⟩
      · by_cases few : left.length ≤ 1022
        · obtain ⟨more, same⟩ : left <+: (left ++ (boundary ++ ret)).take 1022 :=
            List.prefix_take_iff.mpr ⟨List.prefix_append _ _, few⟩
          cases more with
          | nil =>
            apply shows_longer (c := '\n')
            exact ⟨[], by rw [← same]; simp⟩
          | cons c more =>
            apply shows_longer (c := c)
            exact ⟨more ++ ['\n'], by rw [← same]; simp⟩
        · rw [List.take_append_of_le_length (by omega)]
          apply shows_cut
          · exact fun member => newline (List.mem_of_mem_take member)
          · omega
      · rintro rfl begins
        exfalso
        rw [List.nil_append] at begins long
        have ret_short : ret.length ≤ 1 := by rcases line.ret with rfl | rfl <;> simp
        have taken : ((boundary ++ ret).take 1022 ++ ['\n']).length = 1023 := by
          change 1024 ≤ _ at long
          simp only [List.length_append, List.length_take, List.length_singleton] at long ⊢
          omega
        have equal : boundary.length = ((boundary ++ ret).take 1022 ++ ['\n']).length := by
          have := begins.length_le
          rw [List.length_append] at long
          change 1024 ≤ _ at long
          omega
        have same := begins.eq_of_length equal
        apply line.no_newline
        rw [same]
        simp

theorem mismatch_file (line : Boundary boundary ret) {left : Chars}
    (none' : NoPiece .file left) (no_null : '\x00' ∉ left) (after : Chars) : ∃ chars s,
      nextChunk .file (Input.ofList (left ++ (boundary ++ ret ++ '\n' :: after))) =
        (some chars, s) ∧ Mismatch .file boundary ret left chars := by
  obtain ⟨dashes, starts⟩ := line.starts
  have no_full : ¬ (size - 1 ≤ left.length ∧ '\n' ∉ left.take (size - 1)) := by
    rintro ⟨long, inside⟩
    apply none' (left.take (size - 1)) (left.drop (size - 1))
    · refine ⟨fun member => no_null (List.mem_of_mem_take member), Or.inr ⟨inside, ?_⟩⟩
      rw [List.length_take]
      change min 1023 _ + 1 = 1024
      change 1023 ≤ _ at long
      omega
    · exact (List.take_append_drop _ _).symm
  have newline : '\n' ∉ left := by
    intro member
    obtain ⟨first, rest, rfl, inside⟩ := List.eq_append_cons_of_mem member
    by_cases short : first.length + 1 < size
    · refine none' (first ++ ['\n']) rest ⟨?_, Or.inl ⟨first, rfl, inside, short⟩⟩ (by simp)
      intro null
      apply no_null
      rcases List.mem_append.mp null with old | new
      · exact List.mem_append_left _ old
      · simp at new
    · apply no_full
      constructor
      · rw [List.length_append]
        omega
      · rw [List.take_append_of_le_length (by omega)]
        exact fun member => inside (List.mem_of_mem_take member)
  have short : left.length < size - 1 := by
    by_contra long
    apply no_full
    exact ⟨by omega, fun member => newline (List.mem_of_mem_take member)⟩
  have begins : left ++ ['-'] <+:
      (takeLine '\n' (size - 1) (left ++ (boundary ++ ret ++ '\n' :: after))).1 := by
    apply (prefix_takeLine newline short).mpr
    exact ⟨dashes ++ ret ++ '\n' :: after, by simp [starts]⟩
  have some' : (takeLine '\n' (size - 1) (left ++ (boundary ++ ret ++ '\n' :: after))).1 ≠ [] := by
    intro nil'
    rw [nil'] at begins
    have := List.prefix_nil.mp begins
    simp at this
  refine ⟨_, _, nextChunk_fgets (fgets_some some'), ?_, ?_⟩
  · apply shows_longer (c := '-')
    apply (prefix_takeWhile _).mpr begins
    intro c member
    rw [decide_eq_true_eq]
    rintro rfl
    rcases List.mem_append.mp member with old | new
    · exact no_null old
    · simp at new
  · rintro - seen
    have room := takeLine_room '\n' (size - 1) (left ++ (boundary ++ ret ++ '\n' :: after))
    have length := (seen.trans (List.takeWhile_prefix _)).length_le
    change boundary.length < size
    change _ ≤ 1023 at room
    change _ < 1024
    omega

theorem mismatch (line : Boundary boundary ret) {left : Chars} (none' : NoPiece version left)
    (no_null : version = .file → '\x00' ∉ left) (after : Chars) : ∃ chars s,
      nextChunk version (Input.ofList (left ++ (boundary ++ ret ++ '\n' :: after))) =
        (some chars, s) ∧ Mismatch version boundary ret left chars := by
  cases version with
  | file => exact mismatch_file line none' (no_null rfl) after
  | istream => exact mismatch_stream line none' after

theorem front_nil {front left : Chars} (same : normalize front = normalize (front ++ left)) :
    left = [] := normalize_append same.symm

/-- What a run that passes the document through has cut it into. -/
theorem pieces_fed (line : Boundary boundary ret) (after : Chars) {fuel : Nat}
    {front left : Chars} {fed : List Chars} {s : Input Char}
    (no_null : version = .file → '\x00' ∉ left)
    (done : feedLines version boundary fuel
      (Input.ofList (left ++ (boundary ++ ret ++ '\n' :: after))) = .ok (fed, s))
    (same : normalize (front ++ fed.flatten) = normalize (front ++ left)) :
    Fits boundary ret version ∧ ∃ pieces : List Chars, left = pieces.flatten ∧
      ∀ p ∈ pieces, Piece version p ∧ ¬ boundary <+: p := by
  induction fuel generalizing front left fed with
  | zero => cases done
  | succ fuel ih =>
    by_cases some' : ∃ p more, Piece version p ∧ left = p ++ more
    · obtain ⟨p, more, piece, rfl⟩ := some'
      rw [List.append_assoc, feedLines, nextChunk_piece piece] at done
      dsimp only at done
      by_cases seen : isBoundary (cstring '\x00' p) boundary = true
      · rw [if_pos seen] at done
        cases done
        rw [List.flatten_nil, List.append_nil] at same
        exact absurd (List.append_eq_nil_iff.mp (front_nil same)).1 (piece_nonempty piece)
      · rw [if_neg seen] at done
        cases later : feedLines version boundary fuel
            (Input.ofList (more ++ (boundary ++ ret ++ '\n' :: after))) with
        | error e =>
          rw [later] at done
          cases done
        | ok pair =>
          rw [later] at done
          cases done
          rw [List.flatten_cons, ← List.append_assoc, ← List.append_assoc front p more] at same
          obtain ⟨fits, pieces, rfl, each⟩ := ih
            (fun file member => no_null file (List.mem_append_right _ member)) later same
          refine ⟨fits, p :: pieces, by rw [List.flatten_cons], ?_⟩
          intro q member
          rcases List.mem_cons.mp member with rfl | old
          · exact ⟨piece, fun begins => seen ((isBoundary_iff line q).mpr begins)⟩
          · exact each q old
    · have none' : NoPiece version left :=
        fun p more piece same => some' ⟨p, more, piece, same⟩
      obtain ⟨chars, t, read, wrong⟩ := mismatch line none' no_null after
      rw [feedLines, read] at done
      dsimp only at done
      by_cases seen : isBoundary (cstring '\x00' chars) boundary = true
      · rw [if_pos seen] at done
        cases done
        rw [List.flatten_nil, List.append_nil] at same
        have nil' := front_nil same
        refine ⟨wrong.fits nil' ((isBoundary_iff line chars).mp seen), [], ?_, ?_⟩
        · rw [nil', List.flatten_nil]
        · intro p member
          cases member
      · rw [if_neg seen] at done
        cases later : feedLines version boundary fuel t with
        | error e =>
          rw [later] at done
          cases done
        | ok pair =>
          rw [later] at done
          cases done
          rw [List.flatten_cons] at same
          exact absurd same (wrong.shows front _)

/-- A run that ends well has fed four characters, and then what the loop fed. -/
theorem internStream_ok {l : Chars} (some' : l.take 4 ≠ []) {fed : List Chars} {s : Input Char}
    (done : internStream version (Input.ofList l) boundary = .ok (fed, s)) : ∃ lines,
      fed = l.take 4 :: lines ∧ feedLines version boundary ((l.drop 4).length + 1)
        (Input.ofList (l.drop 4)) = .ok (lines, s) := by
  by_cases first : version = .istream ∧ (nextChunk version (Input.ofList (l.drop 4))).1 = none
  · unfold internStream at done
    rw [if_neg (by simp [Input.ofList])] at done
    have taken : (Input.ofList l).rest.take 4 ≠ [] := some'
    dsimp only at done
    rw [if_neg taken] at done
    split at done
    · cases done
    · rename_i other
      exact absurd first other
  · rw [internStream_eq some' (fun stream none' => first ⟨stream, none'⟩)] at done
    cases lines : feedLines version boundary ((l.drop 4).length + 1) (Input.ofList (l.drop 4)) with
    | error e =>
      rw [lines] at done
      cases done
    | ok pair =>
      rw [lines] at done
      cases done
      exact ⟨pair.1, rfl, rfl⟩

theorem passable_of_passesThrough (line : Boundary boundary ret) {document after : Chars}
    (through : PassesThrough version boundary ret document after) :
    Passable version boundary ret document := by
  obtain ⟨fed, s, done, same, -⟩ := through
  obtain ⟨dashes, starts⟩ := line.starts
  obtain ⟨lines, rfl, run⟩ := internStream_ok (by simp [starts]) done
  rw [List.flatten_cons] at same
  by_cases few : document.length < 4
  · exfalso
    obtain ⟨n, room⟩ : ∃ n, 4 - document.length = n + 1 := ⟨3 - document.length, by omega⟩
    rw [List.take_append, List.take_of_length_le (by omega), room, starts, List.cons_append,
      List.cons_append, List.take_succ_cons, List.append_assoc] at same
    cases normalize_append same
  · rw [List.take_append_of_le_length (by omega)] at same
    rw [List.drop_append_of_le_length (by omega)] at run
    have whole : document = document.take 4 ++ document.drop 4 :=
      (List.take_append_drop 4 document).symm
    have split : normalize (document.take 4 ++ lines.flatten) =
        normalize (document.take 4 ++ document.drop 4) := by
      rw [← whole]
      exact same
    have no_null : version = .file → '\x00' ∉ document.drop 4 := by
      rintro rfl
      have none' : lines.flatten.count '\x00' = 0 := List.count_eq_zero.mpr (fed_no_null run)
      have counts := congrArg (List.count '\x00') split
      rw [count_normalize (by decide), count_normalize (by decide), List.count_append,
        List.count_append, none'] at counts
      apply List.count_eq_zero.mp
      omega
    obtain ⟨fits, pieces, cut, each⟩ := pieces_fed line after no_null run split
    refine ⟨fits, document.take 4, pieces, ?_, ?_, each⟩
    · rw [← cut]
      exact whole
    · rw [List.length_take]
      omega

/-- When a document in front of a boundary line is passed through. -/
theorem passesThrough_iff (version : Version) (boundary ret : Chars)
    (line : Boundary boundary ret) (document after : Chars) :
    PassesThrough version boundary ret document after ↔
      Passable version boundary ret document :=
  ⟨passable_of_passesThrough line, fun passable => passesThrough_of_passable line passable after⟩

theorem passesThrough_short :
    PassesThrough .istream "--b".toList ['\r'] "<D/>\n".toList "rest".toList :=
  (passesThrough_iff .istream "--b".toList ['\r']
    ⟨by decide, List.forall_iff_forall_mem.mp (by decide), Or.inr rfl⟩
    "<D/>\n".toList "rest".toList).mpr
    ⟨by change _ < 1024; decide, "<D/>".toList, ["\n".toList], rfl, rfl, by
      intro p member
      rw [List.mem_singleton.mp member]
      exact ⟨⟨[], rfl, by simp, by decide⟩, by decide⟩⟩

/-- A piece ends with a newline or is as long as the buffer allows. -/
theorem piece_newline {p : Chars} (piece : Piece version p) : '\n' ∈ p ∨ p.length + 1 = size := by
  cases version with
  | istream =>
    obtain ⟨first, rfl, -⟩ := piece
    simp
  | file =>
    rcases piece.2 with ⟨first, rfl, -⟩ | ⟨-, full⟩
    · simp
    · exact Or.inr full

/-- A document without a final newline is run together with the boundary line. -/
theorem without_newline_not_passed :
    ¬ PassesThrough .istream "--b".toList ['\r'] "<D></D>".toList [] ∧
      ¬ PassesThrough .file "--b".toList ['\r'] "<D></D>".toList [] := by
  have line : Boundary "--b".toList ['\r'] :=
    ⟨by decide, List.forall_iff_forall_mem.mp (by decide), Or.inr rfl⟩
  have cut : ∀ version, ¬ Passable version "--b".toList ['\r'] "<D></D>".toList := by
    rintro version ⟨-, front, pieces, document, four, each⟩
    have rest : "/D>".toList = pieces.flatten := by
      have dropped := congrArg (List.drop 4) document
      rwa [← four, List.drop_left, four] at dropped
    cases pieces with
    | nil => cases rest
    | cons p pieces =>
      rw [List.flatten_cons] at rest
      rcases piece_newline (each p (List.mem_cons_self ..)).1 with newline | full
      · have member : '\n' ∈ "/D>".toList := rest ▸ List.mem_append_left _ newline
        exact absurd member (by decide)
      · have length := congrArg List.length rest
        rw [List.length_append] at length
        change 3 = _ at length
        change _ = 1024 at full
        omega
  exact ⟨fun through => cut _ (passable_of_passesThrough line through),
    fun through => cut _ (passable_of_passesThrough line through)⟩

end Libdap.Guarantees.DDXStream
