import Libdap.Guarantees.DASText

/-!
# XML values in a quote of the DAS

Only double quotes are escaped, but the scanner takes every backslash for an escape, and the
escapes are undone before the quotes are removed. Texts have no NUL.
-/
namespace Libdap.Guarantees.QuotedXml
open Libdap.Source Libdap.Source.Attributes Libdap.Source.DASParser Libdap.Source.DASText

/-- As `write_xml_attribute_for_das` writes a value that is not quoted itself. -/
def written (s : List Char) : List Char := doubleQuote :: (escapeDoubleQuotes s ++ [doubleQuote])

/-- The text is one token, of which the grammar stores the value. -/
def SurvivesQuote (s : List Char) : Prop :=
  scan (.initial 0) (written s) = [.ok (.word .plain (written s))] ∧ stored .xml (written s) = s

/-- In a quote a backslash takes the next character with it. None takes a double quote, a line
end or the closing quote, and a carriage return alone is not taken by a backslash or is
followed by a line end. -/
def Paired : List Char → Prop
  | [] => True
  | c :: rest =>
    if c = backslash then
      match rest with
      | [] => False
      | d :: rest' => d ≠ doubleQuote ∧ d ≠ '\n' ∧ Paired rest'
    else if c = '\r' then
      match rest with
      | [] => False
      | d :: rest' => d = '\n' ∧ Paired rest'
    else Paired rest

/-! ### Escapes of double quotes -/

theorem escape_cons (c : Char) (s : List Char) : escapeDoubleQuotes (c :: s) =
    (if c = doubleQuote then [backslash, doubleQuote] else [c]) ++ escapeDoubleQuotes s := by
  by_cases same : c = doubleQuote
  · subst same
    rfl
  · have other : ¬c = Char.ofNat 34 := same
    rw [if_neg same, escapeDoubleQuotes, List.flatMap_cons, if_neg other]
    rfl

theorem escape_quote (s : List Char) : escapeDoubleQuotes (doubleQuote :: s) =
    backslash :: doubleQuote :: escapeDoubleQuotes s := rfl

theorem escape_other {c : Char} (other : c ≠ doubleQuote) (s : List Char) :
    escapeDoubleQuotes (c :: s) = c :: escapeDoubleQuotes s := by
  rw [escape_cons, if_neg other]
  rfl

/-- An escaped text does not begin with a double quote, and with a line end only if the text
does. -/
theorem escape_head (d : Char) (s : List Char) : ∃ e rest,
    escapeDoubleQuotes (d :: s) = e :: rest ∧ e ≠ doubleQuote ∧ (e = '\n' ↔ d = '\n') := by
  by_cases same : d = doubleQuote
  · subst same
    exact ⟨backslash, _, escape_quote s, by decide, by decide⟩
  · exact ⟨d, _, escape_other same s, same, Iff.rfl⟩

theorem unescape_other {c d : Char} (other : ¬(c = backslash ∧ d = doubleQuote))
    (s : List Char) : unescapeDoubleQuotes (c :: d :: s) = c :: unescapeDoubleQuotes (d :: s) := by
  rw [unescapeDoubleQuotes]
  exact if_neg other

theorem unescape_quote (s : List Char) :
    unescapeDoubleQuotes (backslash :: doubleQuote :: s) = doubleQuote :: unescapeDoubleQuotes s :=
  rfl

/-- Escapes are undone up to a backslash at the end, which takes the closing quote for one. -/
theorem unescape_escape (s : List Char) :
    unescapeDoubleQuotes (escapeDoubleQuotes s ++ [doubleQuote]) =
      (if s.getLast? = some backslash then s.dropLast else s) ++ [doubleQuote] := by
  induction s with
  | nil => rfl
  | cons c s ih =>
    by_cases quote : c = doubleQuote
    · subst quote
      rw [escape_quote, List.cons_append, List.cons_append, unescape_quote, ih]
      cases s with
      | nil => rfl
      | cons d s =>
        rw [List.getLast?_cons_cons, List.dropLast_cons_cons]
        split <;> rfl
    · cases s with
      | nil =>
        rw [escape_other quote]
        by_cases slash : c = backslash
        · subst slash
          rfl
        · rw [show escapeDoubleQuotes [] = [] from rfl, List.singleton_append,
            unescape_other fun both => slash both.1]
          simp [slash, unescapeDoubleQuotes]
      | cons d s =>
        obtain ⟨e, rest, whole, other, -⟩ := escape_head d s
        rw [escape_other quote, whole, List.cons_append, List.cons_append,
          unescape_other fun both => other both.2, ← List.cons_append, ← whole, ih,
          List.getLast?_cons_cons, List.dropLast_cons_cons]
        split <;> rfl

/-- The value is stored as it was unless it ends with a backslash. -/
theorem stored_iff (s : List Char) :
    stored .xml (written s) = s ↔ s.getLast? ≠ some backslash := by
  have whole : unescapeDoubleQuotes (written s) = doubleQuote ::
      ((if s.getLast? = some backslash then s.dropLast else s) ++ [doubleQuote]) := by
    rw [← unescape_escape, written]
    cases escapeDoubleQuotes s ++ [doubleQuote] with
    | nil => rfl
    | cons d rest => exact unescape_other (fun both => absurd both.1 (by decide)) rest
  have quoted : ∀ x : List Char, isQuoted (doubleQuote :: (x ++ [doubleQuote])) = true := by
    intro x
    rw [isQuoted, ← List.cons_append, List.getLast?_concat]
    rfl
  have value : stored .xml (written s) =
      if s.getLast? = some backslash then s.dropLast else s := by
    rw [stored, whole]
    simp only [quoted, removeQuotes, if_true, List.drop_one, List.tail_cons,
      List.dropLast_concat]
  rw [value]
  split
  · next slash =>
    refine iff_of_false ?_ (not_not.mpr slash)
    intro same
    have size := congrArg List.length same
    rw [List.length_dropLast] at size
    have positive : 0 < s.length := List.length_pos_iff.mpr fun nil => by simp [nil] at slash
    omega
  · next other => exact iff_of_true rfl other

/-! ### The scanner in a quote -/

section
variable (yytext rest : List Char)

theorem quote_close : scan (.quote yytext) (doubleQuote :: rest) =
    .ok (.word .plain (yytext ++ [doubleQuote])) :: scan (.initial 0) rest := by
  rw [scan.eq_def]
  simp

theorem quote_pair {d : Char} (other : d ≠ '\n') :
    scan (.quote yytext) (backslash :: d :: rest) =
      scan (.quote (yytext ++ [backslash, d])) rest := by
  rw [scan.eq_def]
  simp [show backslash ≠ doubleQuote by decide, other]

theorem quote_pair_line : scan (.quote yytext) (backslash :: '\n' :: rest) =
    scan (.quote ['\n']) rest := by
  rw [scan.eq_def]
  simp [show backslash ≠ doubleQuote by decide]

theorem quote_return_line : scan (.quote yytext) ('\r' :: '\n' :: rest) =
    scan (.quote (yytext ++ ['\r', '\n'])) rest := by
  rw [scan.eq_def]
  simp [show '\r' ≠ doubleQuote by decide, show '\r' ≠ backslash by decide]

theorem quote_return {d : Char} (other : d ≠ '\n') :
    scan (.quote yytext) ('\r' :: d :: rest) = scan (.quote []) (d :: rest) := by
  rw [scan.eq_def]
  simp [show '\r' ≠ doubleQuote by decide, show '\r' ≠ backslash by decide, other]

theorem quote_other {c : Char} (quote : c ≠ doubleQuote) (slash : c ≠ backslash)
    (line : c ≠ '\r') : scan (.quote yytext) (c :: rest) = scan (.quote (yytext ++ [c])) rest := by
  rw [scan.eq_def]
  simp [quote, slash, line]

end

/-- A token is no longer than what was read of the quote and what is left. -/
theorem token_length (n : Nat) {yytext text t : List Char} {k : Kind} {more : Tokens}
    (few : text.length ≤ n) (read : scan (.quote yytext) text = .ok (.word k t) :: more) :
    t.length ≤ yytext.length + text.length := by
  induction n generalizing yytext text with
  | zero =>
    cases List.length_eq_zero_iff.mp (Nat.le_zero.mp few)
    cases read
  | succ n ih =>
    cases text with
    | nil => cases read
    | cons c rest =>
      simp only [List.length_cons] at few ⊢
      by_cases quote : c = doubleQuote
      · subst quote
        rw [quote_close] at read
        cases read
        simp
      · by_cases slash : c = backslash
        · subst slash
          cases rest with
          | nil =>
            rw [scan.eq_def] at read
            simp [show backslash ≠ doubleQuote by decide] at read
          | cons d rest =>
            simp only [List.length_cons] at few ⊢
            by_cases line : d = '\n'
            · subst line
              rw [quote_pair_line] at read
              have bound := ih (by omega) read
              simp only [List.length_cons, List.length_nil] at bound
              omega
            · rw [quote_pair _ _ line] at read
              have bound := ih (by omega) read
              simp only [List.length_append, List.length_cons, List.length_nil] at bound
              omega
        · by_cases line : c = '\r'
          · subst line
            cases rest with
            | nil =>
              rw [scan.eq_def] at read
              simp [quote, slash] at read
            | cons d rest =>
              simp only [List.length_cons] at few ⊢
              by_cases line : d = '\n'
              · subst line
                rw [quote_return_line] at read
                have bound := ih (by omega) read
                simp only [List.length_append, List.length_cons, List.length_nil] at bound
                omega
              · rw [quote_return _ _ line] at read
                have bound := ih (by simp only [List.length_cons]; omega) read
                simp only [List.length_cons, List.length_nil] at bound
                omega
          · rw [quote_other _ _ quote slash line] at read
            have bound := ih (by omega) read
            simp only [List.length_append, List.length_cons, List.length_nil] at bound
            omega

/-- What is still to be read does not make up for what a line end took away. -/
theorem not_whole {yytext text whole : List Char}
    (short : yytext.length + text.length < whole.length) :
    scan (.quote yytext) text ≠ [.ok (.word .plain whole)] := by
  intro read
  have bound := token_length text.length le_rfl read
  omega

theorem paired_other {c : Char} (slash : c ≠ backslash) (line : c ≠ '\r') (s : List Char) :
    Paired (c :: s) ↔ Paired s := by
  cases s <;> simp [Paired, slash, line]

theorem paired_pair (d : Char) (s : List Char) :
    Paired (backslash :: d :: s) ↔ d ≠ doubleQuote ∧ d ≠ '\n' ∧ Paired s := by
  rw [Paired, if_pos rfl]

theorem paired_return (d : Char) (s : List Char) :
    Paired ('\r' :: d :: s) ↔ d = '\n' ∧ Paired s := by
  rw [Paired, if_neg (by decide), if_pos rfl]

/-- The text of a value of which the scanner has read `yytext`. -/
def remaining (s : List Char) : List Char := escapeDoubleQuotes s ++ [doubleQuote]

theorem remaining_quote (s : List Char) :
    remaining (doubleQuote :: s) = backslash :: doubleQuote :: remaining s := rfl

theorem remaining_other {c : Char} (other : c ≠ doubleQuote) (s : List Char) :
    remaining (c :: s) = c :: remaining s := by
  rw [remaining, escape_other other]
  rfl

/-- The value is read back whole, to its closing quote. -/
def ReadWhole (s yytext : List Char) : Prop :=
  scan (.quote yytext) (remaining s) = [.ok (.word .plain (yytext ++ remaining s))]

theorem readWhole_slash {s : List Char} (next : ∀ yytext, ReadWhole s yytext ↔ Paired s)
    (d : Char) (yytext : List Char) :
    ReadWhole (backslash :: d :: s) yytext ↔ Paired (backslash :: d :: s) := by
  rw [ReadWhole, remaining_other (by decide), paired_pair]
  by_cases again : d = doubleQuote
  · subst again
    refine iff_of_false ?_ fun paired => paired.1 rfl
    intro read
    rw [remaining_quote, quote_pair _ _ (by decide), quote_close] at read
    have same := congrArg List.length (Token.word.inj (Except.ok.inj
      (List.cons.inj read).1)).2
    simp [remaining] at same
  · rw [remaining_other again]
    by_cases line : d = '\n'
    · subst line
      rw [quote_pair_line]
      exact iff_of_false (not_whole (by simp; omega)) fun paired => paired.2.1 rfl
    · rw [quote_pair _ _ line, and_iff_right again, and_iff_right line,
        ← next (yytext ++ [backslash, d]), ReadWhole, List.append_assoc]
      rfl

theorem not_readWhole_slash (yytext : List Char) : ¬ ReadWhole [backslash] yytext := by
  intro read
  rw [ReadWhole, remaining_other (by decide), remaining,
    show escapeDoubleQuotes [] = [] from rfl, List.nil_append, quote_pair _ _ (by decide)] at read
  cases read

theorem readWhole_return {s : List Char} (next : ∀ yytext, ReadWhole s yytext ↔ Paired s)
    (d : Char) (yytext : List Char) :
    ReadWhole ('\r' :: d :: s) yytext ↔ Paired ('\r' :: d :: s) := by
  rw [ReadWhole, remaining_other (by decide), paired_return]
  by_cases line : d = '\n'
  · subst line
    rw [remaining_other (by decide), quote_return_line, and_iff_right rfl,
      ← next (yytext ++ ['\r', '\n']), ReadWhole, List.append_assoc]
    rfl
  · refine iff_of_false ?_ fun paired => line paired.1
    obtain ⟨e, rest, whole, -, same⟩ := escape_head d s
    rw [remaining, whole, List.cons_append, quote_return _ _ (line ∘ same.mp)]
    exact not_whole (by simp; omega)

theorem not_readWhole_return (yytext : List Char) : ¬ ReadWhole ['\r'] yytext := by
  rw [ReadWhole, remaining_other (by decide), remaining,
    show escapeDoubleQuotes [] = [] from rfl, List.nil_append, quote_return _ _ (by decide)]
  exact not_whole (by simp)

/-- Of an escaped text in a quote the scanner reads one token exactly if it is paired. -/
theorem scan_iff (n : Nat) {s : List Char} (few : s.length ≤ n) (yytext : List Char) :
    ReadWhole s yytext ↔ Paired s := by
  induction n generalizing s yytext with
  | zero =>
    cases List.length_eq_zero_iff.mp (Nat.le_zero.mp few)
    exact iff_of_true (quote_close yytext []) trivial
  | succ n ih =>
    cases s with
    | nil => exact iff_of_true (quote_close yytext []) trivial
    | cons c s =>
      simp only [List.length_cons] at few
      by_cases quote : c = doubleQuote
      · subst quote
        rw [ReadWhole, remaining_quote, quote_pair _ _ (by decide),
          paired_other (by decide) (by decide),
          ← ih (by omega) (yytext ++ [backslash, doubleQuote]), ReadWhole, List.append_assoc]
        rfl
      by_cases slash : c = backslash
      · subst slash
        cases s with
        | nil => exact iff_of_false (not_readWhole_slash yytext) (by simp [Paired])
        | cons d s =>
          simp only [List.length_cons] at few
          exact readWhole_slash (ih (by omega)) d yytext
      by_cases line : c = '\r'
      · subst line
        cases s with
        | nil => exact iff_of_false (not_readWhole_return yytext) (by simp [Paired, slash])
        | cons d s =>
          simp only [List.length_cons] at few
          exact readWhole_return (ih (by omega)) d yytext
      · rw [ReadWhole, remaining_other quote, quote_other _ _ quote slash line,
          paired_other slash line, ← ih (by omega) (yytext ++ [c]), ReadWhole, List.append_assoc]
        rfl

/-- The values that survive in a quote: paired, and without a backslash at the end. -/
theorem survivesQuote_iff (s : List Char) :
    SurvivesQuote s ↔ Paired s ∧ s.getLast? ≠ some backslash := by
  have other : startsWord doubleQuote = false ∧ isSign doubleQuote = false ∧
      doubleQuote ≠ '#' := by decide
  have starts : scan (.initial 0) (written s) = scan (.quote [doubleQuote]) (remaining s) := by
    rw [written, scan.eq_def]
    simp [other, remaining]
  rw [SurvivesQuote, stored_iff, starts]
  exact and_congr_left' (scan_iff s.length le_rfl [doubleQuote])

/-- A single backslash takes the closing quote with it. -/
theorem backslash_lost : ¬ SurvivesQuote [backslash] := by
  intro survives
  exact absurd survives.2 (by decide)

end Libdap.Guarantees.QuotedXml
