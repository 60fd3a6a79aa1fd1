import Libdap.Library.Outcome
import Libdap.Source.Keywords
import Mathlib.Tactic

/-!
# What is taken off the front of a constraint

A clause is taken for a keyword when it begins with one: what follows the first closing
parenthesis is not looked at.
-/
namespace Libdap.Guarantees.Keywords
open Libdap.Library
open Libdap.Source Libdap.Source.Escaping Libdap.Source.Keywords

/-- A known keyword with one of its values. -/
structure Clause where
  word : Text
  value : Text
  known : ∃ values, knownKeywords.lookup word = some values ∧ value ∈ values

def Clause.text (k : Clause) : Text := k.word ++ openParen :: (k.value ++ [closeParen])

/-- A constraint is clauses, each with its comma, and a rest; the comma after the last clause is
left out where the selection or nothing follows. -/
inductive Peels : Text → List Clause → Text → Prop
  | nothing (r : Text) : Peels r [] r
  | last (k : Clause) (r : Text) (stop : r = [] ∨ r.head? = some ampersand) :
      Peels (k.text ++ r) [k] r
  | more (k : Clause) {ce : Text} {ks : List Clause} {r : Text} :
      Peels ce ks r → Peels (k.text ++ comma :: ce) (k :: ks) r

def recorded (parsed : Parsed) (ks : List Clause) : Parsed :=
  ks.foldl (fun p k => p.add k.word k.value) parsed

/-- The constraint is clauses that are recorded and the rest that is returned, which does not
begin with a clause. -/
def Stripped (ce : Text) (parsed after : Parsed) (r : Text) : Prop :=
  ∃ ks, Peels ce ks r ∧ after = recorded parsed ks ∧ ∀ k : Clause, ¬ k.text <+: r

/-- A clause that `parse_keywords` takes for a keyword. -/
def isKeyword (clause : Text) : Bool :=
  match parseKeyword clause with
  | none => false
  | some (word, value) =>
    match isValidKeyword word value with
    | .ok valid => valid
    | .error _ => false

/-- The clauses up to the first that is no keyword. -/
def leadingKeywords (projection : Text) : List Text :=
  if nonempty : projection = [] then []
  else if isKeyword (nextWord projection).1 then
    have := nextWord_shorter nonempty
    (nextWord projection).1 :: leadingKeywords (nextWord projection).2
  else []
termination_by projection.length

/-- Each of these clauses ends with its first closing parenthesis. -/
def NothingBehind (ce : Text) : Prop :=
  ∀ clause ∈ leadingKeywords (splitSelection ce).1,
    find closeParen clause = some (clause.length - 1)

/-! ### Characters of the known keywords -/

def plain (c : UInt8) : Bool :=
  c ≠ openParen && c ≠ closeParen && c ≠ comma && c ≠ ampersand

theorem known_plain : ∀ entry ∈ knownKeywords, entry.1.all plain = true ∧ entry.1 ≠ [] ∧
    ∀ value ∈ entry.2, value.all plain = true ∧ value ≠ [] := by
  decide

theorem lookup_mem {word : Text} {values : List Text}
    (found : knownKeywords.lookup word = some values) : (word, values) ∈ knownKeywords := by
  obtain ⟨before, behind, list, -⟩ := List.lookup_eq_some_iff.mp found
  rw [list]
  simp

section
variable (k : Clause)

theorem word_plain : k.word.all plain = true ∧ k.word ≠ [] := by
  obtain ⟨values, found, -⟩ := k.known
  exact ⟨(known_plain _ (lookup_mem found)).1, (known_plain _ (lookup_mem found)).2.1⟩

theorem value_plain : k.value.all plain = true ∧ k.value ≠ [] := by
  obtain ⟨values, found, member⟩ := k.known
  exact (known_plain _ (lookup_mem found)).2.2 _ member

end

/-! ### Finding a character -/

theorem find_append {c : UInt8} {before : Text} (none : c ∉ before) (rest : Text) :
    find c (before ++ c :: rest) = some before.length := by
  induction before with
  | nil => exact (List.findIdx?_cons ..).trans (by simp)
  | cons d before ih =>
    obtain ⟨other, later⟩ := List.ne_and_not_mem_of_not_mem_cons none
    have next := ih later
    rw [find] at next ⊢
    rw [List.cons_append, List.findIdx?_cons, next]
    simp [Ne.symm other]

theorem find_none {c : UInt8} {s : Text} : find c s = none ↔ c ∉ s := by
  rw [find, List.findIdx?_eq_none_iff]
  simp only [decide_eq_false_iff_not]
  exact ⟨fun each member => each c member rfl, fun none d member same => none (same ▸ member)⟩

theorem find_some {c : UInt8} {s : Text} {i : Nat} (found : find c s = some i) :
    s = s.take i ++ c :: s.drop (i + 1) ∧ c ∉ s.take i ∧ s[i]? = some c := by
  obtain ⟨inside, equal, before⟩ := List.findIdx?_eq_some_iff_getElem.mp found
  simp only [decide_eq_true_eq] at equal before
  refine ⟨?_, ?_, by rw [List.getElem?_eq_getElem inside, equal]⟩
  · rw [← equal, List.getElem_cons_drop, List.take_append_drop]
  · intro member
    obtain ⟨p, early, here⟩ := List.mem_take_iff_getElem.mp member
    exact before p (lt_of_lt_of_le early (Nat.min_le_left ..)) here

/-- The first clause has no comma, and what is left is behind its comma. -/
theorem nextWord_parts (projection : Text) : comma ∉ (nextWord projection).1 ∧
    (projection = (nextWord projection).1 ++ comma :: (nextWord projection).2 ∨
      (projection = (nextWord projection).1 ∧ (nextWord projection).2 = [])) := by
  rw [nextWord]
  split
  · next i found =>
    obtain ⟨parts, none, -⟩ := find_some found
    exact ⟨none, .inl parts⟩
  · next none => exact ⟨find_none.mp none, .inr ⟨rfl, rfl⟩⟩

/-! ### Clauses -/

theorem not_mem_of_plain {t : Text} (all : t.all plain = true) :
    openParen ∉ t ∧ closeParen ∉ t ∧ comma ∉ t ∧ ampersand ∉ t := by
  have each := List.all_eq_true.mp all
  refine ⟨?_, ?_, ?_, ?_⟩ <;> exact fun member => absurd (each _ member) (by decide)

/-- The two parentheses of a clause are where they are looked for. -/
theorem find_clause (k : Clause) (behind : Text) :
    find openParen (k.text ++ behind) = some k.word.length ∧
      find closeParen (k.text ++ behind) = some (k.word.length + 1 + k.value.length) := by
  obtain ⟨word_open, word_close, -⟩ := not_mem_of_plain (word_plain k).1
  obtain ⟨-, value_close, -⟩ := not_mem_of_plain (value_plain k).1
  have first : k.text ++ behind = k.word ++ openParen :: (k.value ++ [closeParen] ++ behind) := by
    simp [Clause.text]
  have second : k.text ++ behind = (k.word ++ openParen :: k.value) ++ closeParen :: behind := by
    simp [Clause.text]
  constructor
  · rw [first, find_append word_open]
  · have none : closeParen ∉ k.word ++ openParen :: k.value := by
      rw [List.mem_append, List.mem_cons]
      exact not_or.mpr ⟨word_close, not_or.mpr ⟨by decide, value_close⟩⟩
    rw [second, find_append none]
    simp only [List.length_append, List.length_cons, Option.some.injEq]
    omega

/-- A clause with anything behind it is taken for the keyword. -/
theorem parseKeyword_clause (k : Clause) (behind : Text) :
    parseKeyword (k.text ++ behind) = some (k.word, k.value) := by
  obtain ⟨opens, closes⟩ := find_clause k behind
  have word : (k.text ++ behind).take k.word.length = k.word := by
    simp [Clause.text]
  have value : ((k.text ++ behind).drop (k.word.length + 1)).take k.value.length = k.value := by
    have split : k.text ++ behind =
        (k.word ++ [openParen]) ++ (k.value ++ closeParen :: behind) := by
      simp [Clause.text]
    rw [split, List.drop_left' (by simp), List.take_left]
  have later : ¬k.word.length + 1 + k.value.length < k.word.length + 1 := by omega
  rw [parseKeyword, opens, closes]
  simp only [word, if_neg later, Nat.add_sub_cancel_left, value]
  exact if_pos ⟨(word_plain k).2, (value_plain k).2⟩

theorem isValidKeyword_clause (k : Clause) : isValidKeyword k.word k.value = .ok true := by
  obtain ⟨values, found, member⟩ := k.known
  rw [isValidKeyword, found]
  exact if_pos member

theorem known_of_valid {word value : Text} (valid : isValidKeyword word value = .ok true) :
    ∃ values, knownKeywords.lookup word = some values ∧ value ∈ values := by
  rw [isValidKeyword] at valid
  split at valid
  · cases valid
  · next values found =>
    split at valid
    · next member => exact ⟨values, found, member⟩
    · cases valid

/-- What is taken for a keyword begins with its clause. -/
theorem clause_of_keyword {clause word value : Text}
    (parsed : parseKeyword clause = some (word, value))
    (valid : isValidKeyword word value = .ok true) :
    ∃ k : Clause, k.word = word ∧ k.value = value ∧ ∃ behind, clause = k.text ++ behind := by
  refine ⟨⟨word, value, known_of_valid valid⟩, rfl, rfl, ?_⟩
  have plain_word := not_mem_of_plain (word_plain ⟨word, value, known_of_valid valid⟩).1
  unfold parseKeyword at parsed
  cases opens : find openParen clause with
  | none => simp [opens] at parsed
  | some i =>
    cases closes : find closeParen clause with
    | none => simp [opens, closes] at parsed
    | some j =>
      simp only [opens, closes, Option.ite_none_right_eq_some, Option.some.injEq,
        Prod.mk.injEq] at parsed
      obtain ⟨-, same_word, same_value⟩ := parsed
      obtain ⟨-, -, at_i⟩ := find_some opens
      obtain ⟨parts, -, at_j⟩ := find_some closes
      have later : i + 1 ≤ j := by
        by_contra early
        rcases Nat.lt_or_ge j i with before | after
        · have member : closeParen ∈ clause.take i :=
            List.mem_of_getElem? ((List.getElem?_take_of_lt before).trans at_j)
          rw [same_word] at member
          exact plain_word.2.1 member
        · rw [show j = i by omega, at_i] at at_j
          exact absurd (Option.some.inj at_j) (by decide)
      rw [if_neg (by omega)] at same_value
      have first : clause.take (i + 1) = word ++ [openParen] := by
        rw [List.take_add_one, same_word, at_i]
        rfl
      have second : clause.take j = word ++ openParen :: value := by
        rw [← Nat.add_sub_cancel' later, List.take_add, first, same_value]
        simp
      refine ⟨clause.drop (j + 1), parts.trans ?_⟩
      rw [second]
      simp [Clause.text]

/-- Nothing is behind a clause exactly if it ends with its first closing parenthesis. -/
theorem text_closes (k : Clause) (behind : Text) :
    find closeParen (k.text ++ behind) = some ((k.text ++ behind).length - 1) ↔ behind = [] := by
  rw [(find_clause k behind).2]
  simp only [Clause.text, List.length_append, List.length_cons, List.length_nil,
    Option.some.injEq]
  constructor
  · intro same
    exact List.length_eq_zero_iff.mp (by omega)
  · intro nothing
    simp only [nothing, List.length_nil]
    omega

theorem isKeyword_iff (clause : Text) :
    isKeyword clause = true ↔ ∃ k : Clause, ∃ behind, clause = k.text ++ behind := by
  constructor
  · intro keyword
    rw [isKeyword] at keyword
    split at keyword
    · cases keyword
    · next word value parsed =>
      split at keyword
      · next valid found =>
        subst keyword
        obtain ⟨k, -, -, behind, whole⟩ := clause_of_keyword parsed found
        exact ⟨k, behind, whole⟩
      · cases keyword
  · intro begins
    obtain ⟨k, behind, rfl⟩ := begins
    simp only [isKeyword, parseKeyword_clause, isValidKeyword_clause]

/-- A text begins with one clause at most. -/
theorem clause_unique {k k' : Clause} {x y : Text} (same : k.text ++ x = k'.text ++ y) :
    k = k' ∧ x = y := by
  have parsed := parseKeyword_clause k x
  rw [same, parseKeyword_clause] at parsed
  have equal : k = k' := by
    obtain ⟨word, value, known⟩ := k
    obtain ⟨word', value', known'⟩ := k'
    cases parsed
    rfl
  subst equal
  exact ⟨rfl, List.append_cancel_left same⟩

theorem text_clean (k : Clause) : comma ∉ k.text ∧ ampersand ∉ k.text := by
  obtain ⟨-, -, word_comma, word_amp⟩ := not_mem_of_plain (word_plain k).1
  obtain ⟨-, -, value_comma, value_amp⟩ := not_mem_of_plain (value_plain k).1
  simp only [Clause.text, List.mem_append, List.mem_cons, List.not_mem_nil, or_false, not_or]
  exact ⟨⟨word_comma, by decide, value_comma, by decide⟩,
    ⟨word_amp, by decide, value_amp, by decide⟩⟩

/-- What follows starts with a character or is empty. -/
def StartsWith (c : UInt8) (rest : Text) : Prop := rest = [] ∨ rest.head? = some c

/-- A text without the character that ends what is in front is in front. -/
theorem prefix_front {c : UInt8} {t front rest : Text} (none : c ∉ t)
    (ends : StartsWith c rest) (begins : t <+: front ++ rest) : t <+: front := by
  rcases List.prefix_or_prefix_of_prefix begins (List.prefix_append front rest) with short | long
  · exact short
  · obtain ⟨more, rfl⟩ := long
    have inside := (List.prefix_append_right_inj front).mp begins
    cases more with
    | nil => exact ⟨[], by simp⟩
    | cons d more =>
      obtain ⟨behind, rfl⟩ := inside
      rcases ends with nothing | first
      · cases nothing
      · cases Option.some.inj first
        exact absurd (List.mem_append_right _ List.mem_cons_self) none

/-- Without a keyword in front no clause is in front. -/
theorem no_clause (projection : Text) {selection : Text} (ends : StartsWith ampersand selection)
    (other : projection = [] ∨ isKeyword (nextWord projection).1 = false) (k : Clause) :
    ¬ k.text <+: projection ++ selection := by
  intro begins
  have front := prefix_front (text_clean k).2 ends begins
  rcases other with rfl | other
  · have nothing := List.prefix_nil.mp front
    simp [Clause.text] at nothing
  · have keyword : isKeyword (nextWord projection).1 = true := by
      apply (isKeyword_iff _).mpr
      obtain ⟨-, parts | parts⟩ := nextWord_parts projection
      · rw [parts] at front
        obtain ⟨behind, whole⟩ := prefix_front (text_clean k).1 (.inr rfl) front
        exact ⟨k, behind, whole.symm⟩
      · rw [parts.1] at front
        obtain ⟨behind, whole⟩ := front
        exact ⟨k, behind, whole.symm⟩
    rw [other] at keyword
    cases keyword

/-! ### The loop -/

/-- A turn of the loop stops, or takes a clause with what is behind it. -/
theorem parseLoop_cases {parsed after : Parsed} {projection rest : Text}
    (done : parseLoop parsed projection = .ok (after, rest)) :
    (after = parsed ∧ rest = projection ∧
        (projection = [] ∨ isKeyword (nextWord projection).1 = false)) ∨
      projection ≠ [] ∧ ∃ k : Clause, ∃ behind, (nextWord projection).1 = k.text ++ behind ∧
        parseLoop (parsed.add k.word k.value) (nextWord projection).2 = .ok (after, rest) := by
  rw [parseLoop] at done
  split at done
  · next nothing =>
    cases done
    exact .inl ⟨rfl, rfl, .inl nothing⟩
  · next nonempty =>
    cases clause : parseKeyword (nextWord projection).1 with
    | none =>
      simp only [clause] at done
      cases done
      exact .inl ⟨rfl, rfl, .inr (by rw [isKeyword, clause])⟩
    | some pair =>
      obtain ⟨word, value⟩ := pair
      cases valid : isValidKeyword word value with
      | error failure =>
        simp only [clause, valid] at done
        cases done
      | ok yes =>
        cases yes with
        | false =>
          simp only [clause, valid] at done
          cases done
          exact .inl ⟨rfl, rfl, .inr (by simp only [isKeyword, clause, valid])⟩
        | true =>
          simp only [clause, valid] at done
          obtain ⟨k, rfl, rfl, behind, whole⟩ := clause_of_keyword clause valid
          exact .inr ⟨nonempty, k, behind, whole, done⟩

theorem parseLoop_length {parsed after : Parsed} {projection rest : Text}
    (done : parseLoop parsed projection = .ok (after, rest)) :
    rest.length ≤ projection.length := by
  induction size : projection.length using Nat.strong_induction_on
    generalizing parsed projection with
  | h n ih =>
    rcases parseLoop_cases done with ⟨-, rfl, -⟩ | ⟨nonempty, k, behind, -, later⟩
    · exact size.le
    · have shorter := nextWord_shorter nonempty
      have below := ih _ (by omega) later rfl
      omega

/-- What a text that is taken apart begins with when its first clause is known. -/
theorem peels_cons {k : Clause} {tail r : Text} {ks : List Clause}
    (peeled : Peels (k.text ++ tail) ks r) (shorter : r.length < (k.text ++ tail).length) :
    (ks = [k] ∧ r = tail ∧ StartsWith ampersand tail) ∨
      ∃ ce ks', tail = comma :: ce ∧ ks = k :: ks' ∧ Peels ce ks' r := by
  generalize whole : k.text ++ tail = text at peeled shorter
  cases peeled with
  | nothing => omega
  | last k' _ stop =>
    obtain ⟨rfl, rfl⟩ := clause_unique whole
    exact .inl ⟨rfl, rfl, stop⟩
  | more k' later =>
    obtain ⟨rfl, rfl⟩ := clause_unique whole
    exact .inr ⟨_, _, rfl, rfl, later⟩

theorem tail_starts {behind tail ce : Text} (no_comma : comma ∉ behind)
    (starts : behind ++ tail = comma :: ce) : behind = [] := by
  cases behind with
  | nil => rfl
  | cons d behind =>
    cases (List.cons.inj starts).1
    exact absurd List.mem_cons_self no_comma

theorem parseLoop_nil {parsed after : Parsed} {rest : Text}
    (done : parseLoop parsed [] = .ok (after, rest)) : after = parsed ∧ rest = [] := by
  rcases parseLoop_cases done with ⟨same, nothing, -⟩ | ⟨nonempty, -⟩
  · exact ⟨same, nothing⟩
  · exact absurd rfl nonempty

/-- A clause with a comma somewhere behind it. -/
theorem stripped_comma {parsed after : Parsed} {k : Clause} {behind ce r : Text}
    (no_comma : comma ∉ behind) (shorter : r.length < (comma :: ce).length) :
    Stripped (k.text ++ (behind ++ comma :: ce)) parsed after r ↔
      behind = [] ∧ Stripped ce (parsed.add k.word k.value) after r := by
  constructor
  · intro stripped
    obtain ⟨ks, peeled, same, none⟩ := stripped
    have sizes : r.length < (behind ++ comma :: ce).length := by
      rw [List.length_append]
      omega
    have all : r.length < (k.text ++ (behind ++ comma :: ce)).length := by
      rw [List.length_append]
      omega
    rcases peels_cons peeled all with ⟨-, equal, -⟩ | ⟨ce', ks', tail, rfl, later⟩
    · rw [equal] at sizes
      exact absurd sizes (lt_irrefl _)
    · have nothing := tail_starts no_comma tail
      subst nothing
      cases tail
      exact ⟨rfl, ks', later, same, none⟩
  · intro right
    obtain ⟨rfl, ks, peeled, same, none⟩ := right
    exact ⟨k :: ks, .more k peeled, same, none⟩

/-- The last clause, in front of the selection. -/
theorem stripped_last {parsed : Parsed} (k : Clause) {behind selection : Text}
    (no_comma : comma ∉ behind) (ends : StartsWith ampersand selection) :
    Stripped (k.text ++ (behind ++ selection)) parsed (parsed.add k.word k.value) selection ↔
      behind = [] := by
  constructor
  · intro stripped
    obtain ⟨ks, peeled, -⟩ := stripped
    have all : selection.length < (k.text ++ (behind ++ selection)).length := by
      simp only [Clause.text, List.length_append, List.length_cons]
      omega
    rcases peels_cons peeled all with ⟨-, equal, -⟩ | ⟨ce', ks', tail, -, -⟩
    · simpa using equal
    · exact tail_starts no_comma tail
  · intro nothing
    subst nothing
    exact ⟨[k], .last k selection ends, rfl, no_clause [] ends (.inl rfl)⟩

/-- The loop strips exactly when no clause it takes has something behind it. -/
theorem parseLoop_spec {parsed after : Parsed} {projection rest selection : Text}
    (ends : StartsWith ampersand selection) (clean : ampersand ∉ projection)
    (done : parseLoop parsed projection = .ok (after, rest)) :
    Stripped (projection ++ selection) parsed after (rest ++ selection) ↔
      ∀ clause ∈ leadingKeywords projection,
        find closeParen clause = some (clause.length - 1) := by
  induction size : projection.length using Nat.strong_induction_on
    generalizing parsed projection with
  | h n ih =>
    rcases parseLoop_cases done with ⟨rfl, rfl, other⟩ | ⟨nonempty, k, behind, whole, later⟩
    · have none : leadingKeywords rest = [] := by
        rw [leadingKeywords]
        rcases other with nothing | other
        · rw [dif_pos nothing]
        · simp [other]
      rw [none]
      exact iff_of_true ⟨[], .nothing _, rfl, no_clause _ ends other⟩ (by simp)
    · have shorter := nextWord_shorter nonempty
      have below := parseLoop_length later
      have keyword := (isKeyword_iff _).mpr ⟨k, behind, whole⟩
      have leading : leadingKeywords projection =
          (k.text ++ behind) :: leadingKeywords (nextWord projection).2 := by
        rw [leadingKeywords, dif_neg nonempty, if_pos keyword, whole]
      rw [leading, List.forall_mem_cons, text_closes]
      obtain ⟨no_comma, parts⟩ := nextWord_parts projection
      rw [whole] at no_comma parts
      have no_comma_behind : comma ∉ behind := fun member =>
        no_comma (List.mem_append_right _ member)
      rcases parts with parts | ⟨parts, nothing⟩
      · have clean_later : ampersand ∉ (nextWord projection).2 := fun member =>
          clean (parts ▸ List.mem_append_right _ (List.mem_cons_of_mem _ member))
        have text : projection ++ selection =
            k.text ++ (behind ++ comma :: ((nextWord projection).2 ++ selection)) := by
          conv_lhs => rw [parts]
          simp
        rw [text, stripped_comma no_comma_behind (by simp; omega),
          ih _ (by omega) clean_later later rfl]
      · rw [nothing] at later
        obtain ⟨rfl, rfl⟩ := parseLoop_nil later
        have text : projection ++ selection = k.text ++ (behind ++ selection) := by
          rw [parts, List.append_assoc]
        rw [text, nothing, List.nil_append, stripped_last k no_comma_behind ends, leadingKeywords]
        simp

/-! ### The whole constraint -/

theorem splitSelection_parts (ce : Text) : ce = (splitSelection ce).1 ++ (splitSelection ce).2 ∧
    ampersand ∉ (splitSelection ce).1 ∧ StartsWith ampersand (splitSelection ce).2 := by
  rw [splitSelection]
  split
  · next amp found =>
    obtain ⟨-, none, at_amp⟩ := find_some found
    exact ⟨(List.take_append_drop amp ce).symm, none, .inr (List.head?_drop.trans at_amp)⟩
  · next none => exact ⟨(List.append_nil ce).symm, find_none.mp none, .inl rfl⟩

/-- A constraint that is accepted is stripped exactly when nothing is behind its keywords. -/
theorem stripped_iff_nothingBehind (garbage : UInt8) (parsed after : Parsed) (ce r : Text)
    (done : parseKeywords garbage parsed ce = .ok (after, r)) :
    Stripped (decoded garbage ce) parsed after r ↔ NothingBehind (decoded garbage ce) := by
  obtain ⟨parts, clean, ends⟩ := splitSelection_parts (decoded garbage ce)
  obtain ⟨⟨after', rest⟩, loop, last⟩ := bind_success done
  cases last
  have spec := parseLoop_spec ends clean loop
  rw [← parts] at spec
  exact spec

def dapFour : Text := text ['d', 'a', 'p', '(', '4', ')', ',', 'u']

theorem dapFour_parsed :
    parseKeywords 0 (fun _ => none) dapFour =
      .ok (Parsed.add (fun _ => none) (text ['d', 'a', 'p']) (text ['4']), text ['u']) := by
  have same : decoded 0 dapFour = dapFour := by
    rw [decoded, www2idWith, www2idLoop]
    rfl
  have first : parseLoop (fun _ => none) dapFour =
      parseLoop (Parsed.add (fun _ => none) (text ['d', 'a', 'p']) (text ['4'])) (text ['u']) := by
    rw [parseLoop]
    rfl
  have second : ∀ parsed, parseLoop parsed (text ['u']) = .ok (parsed, text ['u']) := by
    intro parsed
    rw [parseLoop]
    rfl
  rw [parseKeywords, same]
  change (parseLoop (fun _ => none) dapFour >>= _) = _
  rw [first, second]
  rfl

theorem stripped_dapFour :
    Stripped (decoded 0 dapFour) (fun _ => none)
        (Parsed.add (fun _ => none) (text ['d', 'a', 'p']) (text ['4'])) (text ['u']) ↔
      NothingBehind (decoded 0 dapFour) :=
  stripped_iff_nothingBehind 0 _ _ dapFour _ dapFour_parsed

def dapTwoJunk : Text := text ['d', 'a', 'p', '(', '2', ')', 'j', 'u', 'n', 'k']

theorem dapTwoJunk_parsed :
    decoded 0 dapTwoJunk = dapTwoJunk ∧ parseKeywords 0 (fun _ => none) dapTwoJunk =
      .ok (Parsed.add (fun _ => none) (text ['d', 'a', 'p']) (text ['2']), []) := by
  have same : decoded 0 dapTwoJunk = dapTwoJunk := by
    rw [decoded, www2idWith, www2idLoop]
    rfl
  have first : parseLoop (fun _ => none) dapTwoJunk =
      parseLoop (Parsed.add (fun _ => none) (text ['d', 'a', 'p']) (text ['2'])) [] := by
    rw [parseLoop]
    rfl
  have second : ∀ parsed, parseLoop parsed [] = .ok (parsed, []) := by
    intro parsed
    rw [parseLoop]
    rfl
  refine ⟨same, ?_⟩
  rw [parseKeywords, same]
  change (parseLoop (fun _ => none) dapTwoJunk >>= _) = _
  rw [first, second]
  rfl

/-- The text behind the clause is gone. -/
theorem dapTwoJunk_not_stripped : ∃ after r, parseKeywords 0 (fun _ => none) dapTwoJunk =
    .ok (after, r) ∧ ¬ Stripped (decoded 0 dapTwoJunk) (fun _ => none) after r := by
  obtain ⟨same, parsed⟩ := dapTwoJunk_parsed
  refine ⟨_, _, parsed, ?_⟩
  rw [same]
  intro stripped
  let k : Clause := ⟨text ['d', 'a', 'p'], text ['2'], ⟨_, rfl, by decide⟩⟩
  have clean : comma ∉ text ['j', 'u', 'n', 'k'] := by decide
  have behind := (stripped_last k clean (.inl rfl)).mp stripped
  cases behind

end Libdap.Guarantees.Keywords
