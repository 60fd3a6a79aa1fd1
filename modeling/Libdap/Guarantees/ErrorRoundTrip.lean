import Mathlib.Data.List.TakeWhile
import Libdap.Guarantees.ArrayConstraint
import Libdap.Library.Outcome
import Libdap.Source.ErrorText

/-!
# Error objects as text, and back

The printer puts quotes around a message that does not begin and end with one, and escapes
nothing; the scanner ends the message at the first quote without a backslash before it.
-/
namespace Libdap.Guarantees.ErrorRoundTrip
open Libdap.Library Libdap.Source Libdap.Source.ErrorText

/-- The same message, or one of the two in quotes. -/
def SameUpToQuotes (parsed message : List Char) : Prop :=
  parsed = message ∨ parsed = [doubleQuote] ++ message ++ [doubleQuote] ∨
    message = [doubleQuote] ++ parsed ++ [doubleQuote]

/-- The text is parsed, and gives the same code and the same message. -/
def Survives (e : ErrorObject) : Prop :=
  ∃ text e', e.print = .ok text ∧ ErrorObject.empty.parse text = .ok (e', true) ∧
    e'.code = e.code ∧ SameUpToQuotes e'.message e.message

/-- What the scanner reads as the inside of one string: no quote but after a backslash, and
after every other backslash a character other than a line end. -/
def Inside : List Char → Prop
  | [] => True
  | c :: rest =>
    if c = doubleQuote then False
    else if c = backslash then
      match rest with
      | [] => False
      | d :: rest' => d ≠ '\n' ∧ Inside rest'
    else Inside rest

/-- What is printed between quotes. -/
def body (message : List Char) : List Char :=
  if wrapped message then message.tail.dropLast else message

def Printable (message : List Char) : Prop := message ≠ [doubleQuote] ∧ Inside (body message)

theorem scan_header (rest : List Char) :
    scan (.initial 0) 1 ("Error \x7b\n    code = ".toList ++ rest) =
      [(1, .ok .scanError), (1, .ok (.sign '\x7b')), (2, .ok .scanCode), (2, .ok (.sign '='))] ++
        scan (.initial 0) 2 rest := by
  rfl

theorem scan_message (line : Nat) (rest : List Char) :
    scan (.initial 0) line (";\n    message = ".toList ++ rest) =
      [(line, .ok (.sign ';')), (line + 1, .ok .scanMsg), (line + 1, .ok (.sign '='))] ++
        scan (.initial 0) (line + 1) rest := by
  rfl

theorem scan_end (line : Nat) :
    scan (.initial 0) line ";\n\x7d;\n".toList =
      [(line, .ok (.sign ';')), (line + 1, .ok (.sign '\x7d')), (line + 1, .ok (.sign ';'))] := by
  rfl

theorem scan_skip (skipped rest : List Char) (line : Nat) :
    scan (.initial skipped.length) line (skipped ++ rest) = scan (.initial 0) line rest := by
  induction skipped with
  | nil => rfl
  | cons c skipped ih => exact ih

theorem digit_char {d : Nat} (small : d < 10) :
    (Char.ofNat (48 + d)).toNat = 48 + d ∧ isDigit (Char.ofNat (48 + d)) := by
  revert d
  decide

theorem decimal_digits (n : Nat) : ∀ c ∈ decimal n, isDigit c := by
  intro c mem
  unfold decimal at mem
  split at mem
  · cases List.mem_singleton.mp mem
    decide
  · obtain ⟨d, digit, rfl⟩ := List.mem_map.mp mem
    exact (digit_char (Nat.digits_lt_base (by decide) (List.mem_reverse.mp digit))).2

theorem decimal_ne_nil (n : Nat) : decimal n ≠ [] := by
  unfold decimal
  split
  · simp
  · rename_i positive
    simpa [Nat.digits_ne_nil_iff_ne_zero] using positive

theorem decimal_value (n : Nat) : digitsValue (decimal n) = n := by
  unfold digitsValue decimal
  split
  · rename_i zero
    rw [zero]
    rfl
  · have value : ∀ ds : List Nat, (∀ d ∈ ds, d < 10) →
        (ds.reverse.map fun d => Char.ofNat (48 + d)).foldl
          (fun v d => 10 * v + (d.toNat - 48)) 0 = Nat.ofDigits 10 ds := by
      intro ds small
      induction ds with
      | nil => rfl
      | cons d ds ih =>
        rw [List.reverse_cons, List.map_append, List.foldl_append,
          ih fun d mem => small d (List.mem_cons_of_mem _ mem), Nat.ofDigits_cons]
        simp only [List.map_cons, List.map_nil, List.foldl_cons, List.foldl_nil,
          (digit_char (small d List.mem_cons_self)).1]
        omega
    rw [value _ fun d mem => Nat.digits_lt_base (by decide) mem, Nat.ofDigits_digits]

theorem atoi_decimal {n : Nat} (small : n < 2 ^ 31) : atoi (decimal n) = n := by
  unfold atoi
  rw [decimal_value, min_eq_right (by omega)]
  exact ArrayConstraint.int32_eq (by omega) (by omega)

theorem keyword_none {c : Char} (digit : isDigit c) (rest : List Char) :
    (keywords.find? fun word => word.1.toList.isPrefixOf (c :: rest)) = none := by
  rw [List.find?_eq_none]
  intro word mem starts
  have nonempty : ∀ word ∈ keywords, word.1.toList ≠ [] := by decide
  have first : word.1.toList.head? = some c := by
    cases chars : word.1.toList with
    | nil => exact absurd chars (nonempty word mem)
    | cons d ds =>
      rw [chars, List.isPrefixOf_cons_cons, Bool.and_eq_true] at starts
      rw [List.head?_cons, beq_iff_eq.mp starts.1]
  have letters : ∀ word ∈ keywords, word.1.toList.head?.all (fun c => !isDigit c) = true := by
    decide
  have letter := letters word mem
  rw [first, Option.all_some, digit] at letter
  cases letter

theorem isDigit_other {c : Char} (digit : isDigit c) :
    c ≠ '\n' ∧ c ≠ '#' ∧ c ≠ doubleQuote := by
  refine ⟨?_, ?_, ?_⟩
  all_goals
    rintro rfl
    revert digit
    decide

/-- A number is one token. -/
theorem scan_decimal (n line : Nat) (rest : List Char)
    (next : ∀ c ∈ rest.head?, isDigit c = false) :
    scan (.initial 0) line (decimal n ++ rest) =
      (line, .ok (.scanInt (atoi (decimal n)))) :: scan (.initial 0) line rest := by
  have run : (decimal n ++ rest).takeWhile isDigit = decimal n := by
    rw [List.takeWhile_append_of_pos (decimal_digits n)]
    cases rest with
    | nil => simp
    | cons c rest => rw [List.takeWhile_cons_of_neg (by simp [next c rfl]), List.append_nil]
  obtain ⟨d, ds, split⟩ := List.exists_cons_of_ne_nil (decimal_ne_nil n)
  have digit : isDigit d := decimal_digits n d (split ▸ List.mem_cons_self)
  rw [split] at run ⊢
  rw [List.cons_append] at run ⊢
  obtain ⟨notLine, notComment, notQuote⟩ := isDigit_other digit
  have token : tokenAt (d :: (ds ++ rest)) = some (.scanInt (atoi (d :: ds)), ds.length) := by
    unfold tokenAt
    rw [keyword_none digit]
    simp only [digit, if_true, run]
    rfl
  rw [scan, if_neg notLine, if_neg notComment, if_neg notQuote, token]
  exact congrArg _ (scan_skip ds rest line)

theorem backslash_other : backslash ≠ doubleQuote ∧ backslash ≠ '\n' := by decide

/-- The token of a quote is the whole quote, unless a backslash before a line end has lost
what comes before. -/
def QuoteRead (yytext cs string rest : List Char) : Prop :=
  (∃ inner, Inside inner ∧ string = yytext ++ inner ++ [doubleQuote] ∧
    cs = inner ++ doubleQuote :: rest) ∨
  ∃ lost inner, string = '\n' :: inner ++ [doubleQuote] ∧
    cs = lost ++ backslash :: (string ++ rest)

theorem QuoteRead.cons {c : Char} {yytext cs string rest : List Char} (plain : c ≠ doubleQuote)
    (other : c ≠ backslash) (read : QuoteRead (yytext ++ [c]) cs string rest) :
    QuoteRead yytext (c :: cs) string rest := by
  rcases read with ⟨inner, inside, same, split⟩ | ⟨lost, inner, same, split⟩
  · refine .inl ⟨c :: inner, ?_, by simp [same], by rw [split, List.cons_append]⟩
    unfold Inside
    rw [if_neg plain, if_neg other]
    exact inside
  · exact .inr ⟨c :: lost, inner, same, by rw [split, List.cons_append]⟩

theorem QuoteRead.escape {d : Char} {yytext cs string rest : List Char} (other : d ≠ '\n')
    (read : QuoteRead (yytext ++ [backslash, d]) cs string rest) :
    QuoteRead yytext (backslash :: d :: cs) string rest := by
  rcases read with ⟨inner, inside, same, split⟩ | ⟨lost, inner, same, split⟩
  · refine .inl ⟨backslash :: d :: inner, ?_, by simp [same], by simp [split]⟩
    rw [Inside, if_neg backslash_other.1, if_pos rfl]
    exact ⟨other, inside⟩
  · exact .inr ⟨backslash :: d :: lost, inner, same, by simp [split]⟩

theorem QuoteRead.lose {yytext cs string rest : List Char}
    (read : QuoteRead ['\n'] cs string rest) :
    QuoteRead yytext (backslash :: '\n' :: cs) string rest := by
  rcases read with ⟨inner, _, same, split⟩ | ⟨lost, inner, same, split⟩
  · exact .inr ⟨[], inner, by simp [same], by simp [same, split]⟩
  · exact .inr ⟨backslash :: '\n' :: lost, inner, same, by simp [split]⟩

/-- In a quote the scanner throws, or reads to a double quote. -/
theorem scan_quote (start : Nat) (yytext : List Char) (line : Nat) (cs : List Char) :
    (∃ line' failure, scan (.quote start yytext) line cs = [(line', .error failure)]) ∨
    ∃ line' string rest, scan (.quote start yytext) line cs =
        (line', .ok (.scanStr string)) :: scan (.initial 0) line' rest ∧
      QuoteRead yytext cs string rest := by
  induction size : cs.length using Nat.strong_induction_on generalizing cs yytext line with
  | _ n ih =>
    cases cs with
    | nil => exact .inl ⟨line, unterminated start, rfl⟩
    | cons c cs =>
      rw [scan.eq_def]
      dsimp only
      split
      · rename_i quote
        subst quote
        exact .inr ⟨line, _, cs, rfl, .inl ⟨[], trivial, by simp, rfl⟩⟩
      · rename_i plain
        split
        · rename_i escape
          subst escape
          cases cs with
          | nil => exact .inl ⟨line, unterminated start, rfl⟩
          | cons d cs =>
            have shorter : cs.length < n := by
              simp at size
              omega
            dsimp only
            split
            · rename_i lineEnd
              subst lineEnd
              rcases ih _ shorter ['\n'] (line + 1) cs rfl with failed | ⟨l, s, r, done, read⟩
              · exact .inl failed
              · exact .inr ⟨l, s, r, done, read.lose⟩
            · rename_i other
              rcases ih _ shorter (yytext ++ [backslash, d]) line cs rfl with
                failed | ⟨l, s, r, done, read⟩
              · exact .inl failed
              · exact .inr ⟨l, s, r, done, read.escape other⟩
        · rename_i other
          have shorter : cs.length < n := by
            simp at size
            omega
          split
          · rcases ih _ shorter (yytext ++ [c]) (line + 1) cs rfl with
              failed | ⟨l, s, r, done, read⟩
            · exact .inl failed
            · exact .inr ⟨l, s, r, done, read.cons plain other⟩
          · rcases ih _ shorter (yytext ++ [c]) line cs rfl with failed | ⟨l, s, r, done, read⟩
            · exact .inl failed
            · exact .inr ⟨l, s, r, done, read.cons plain other⟩

theorem scan_inside {inner : List Char} (inside : Inside inner) (start : Nat)
    (yytext : List Char) (line : Nat) (rest : List Char) :
    ∃ line', scan (.quote start yytext) line (inner ++ doubleQuote :: rest) =
      (line', .ok (.scanStr (yytext ++ inner ++ [doubleQuote]))) ::
        scan (.initial 0) line' rest := by
  fun_induction Inside inner generalizing yytext line with
  | case1 => exact ⟨line, by rw [List.nil_append, scan.eq_def]; simp⟩
  | case2 | case3 => exact inside.elim
  | case4 d rest' plain ih =>
    obtain ⟨line', done⟩ := ih inside.2 (yytext ++ [backslash, d]) line
    refine ⟨line', ?_⟩
    rw [List.cons_append, List.cons_append, scan.eq_def]
    dsimp only
    rw [if_neg backslash_other.1, if_pos rfl, if_neg inside.1, done]
    simp
  | case5 c rest' plain other ih =>
    rw [List.cons_append, scan.eq_def]
    dsimp only
    rw [if_neg plain, if_neg other]
    split
    · obtain ⟨line', done⟩ := ih inside (yytext ++ [c]) (line + 1)
      exact ⟨line', by rw [done]; simp⟩
    · obtain ⟨line', done⟩ := ih inside (yytext ++ [c]) line
      exact ⟨line', by rw [done]; simp⟩

/-- The tokens up to the message. -/
def beginning (i : Int) : List (Nat × Except Failure Token) :=
  [(1, .ok .scanError), (1, .ok (.sign '\x7b')), (2, .ok .scanCode), (2, .ok (.sign '=')),
    (2, .ok (.scanInt i)), (2, .ok (.sign ';')), (3, .ok .scanMsg), (3, .ok (.sign '='))]

def parsed (i : Int) (s : List Char) : ErrorObject :=
  (ErrorObject.empty.setErrorCode i).setErrorMessage s

theorem parsed_fields (i : Int) (s : List Char) :
    (parsed i s).code = i ∧ (parsed i s).message = s := by
  refine ⟨?_, rfl⟩
  unfold parsed ErrorObject.setErrorMessage ErrorObject.setErrorCode
  split <;> rfl

theorem shift_ok {α : Type} {accept : Token → Option α} {x : α}
    {tokens rest : List (Nat × Except Failure Token)} (done : shift accept tokens = .ok (x, rest)) :
    ∃ line token, tokens = (line, .ok token) :: rest ∧ accept token = some x := by
  unfold shift at done
  split at done
  · cases done
  · rename_i line token rest'
    split at done
    · rename_i y accepted
      cases done
      exact ⟨line, token, rfl, accepted⟩
    · cases done
  · cases done

theorem string_some {token : Token} {s : List Char} (accepted : string token = some s) :
    token = .scanStr s := by
  cases token <;> cases accepted
  rfl

theorem expect_some {token t : Token} {x : Unit} (accepted : expect token t = some x) :
    t = token := by
  unfold expect at accepted
  split at accepted
  · assumption
  · cases accepted

/-- What is left to parse behind the message. -/
def parseString (i : Int) (tokens : List (Nat × Except Failure Token)) :
    Except Failure ErrorObject := do
  let (s, tokens) ← shift string tokens
  let (_, tokens) ← shift (expect (.sign ';')) tokens
  let (_, tokens) ← shift (expect (.sign '\x7d')) tokens
  let (_, tokens) ← shift (expect (.sign ';')) tokens
  match tokens with
  | [] => pure (parsed i s)
  | (_, .error failure) :: _ => .error failure
  | (_, .ok _) :: _ => .error (errorError tokens)

/-- A message that is parsed is followed by a semicolon. -/
theorem errorParse_ok {i : Int} {tokens : List (Nat × Except Failure Token)} {e : ErrorObject}
    (done : errorParse .empty (beginning i ++ tokens) = .ok e) :
    ∃ line s line' rest, tokens = (line, .ok (.scanStr s)) :: (line', .ok (.sign ';')) :: rest ∧
      e = parsed i s := by
  change parseString i tokens = .ok e at done
  obtain ⟨⟨s, tokens₁⟩, first, done⟩ := bind_success done
  obtain ⟨⟨_, tokens₂⟩, second, done⟩ := bind_success done
  obtain ⟨⟨_, tokens₃⟩, _, done⟩ := bind_success done
  obtain ⟨⟨_, tokens₄⟩, _, done⟩ := bind_success done
  obtain ⟨line, _, split, isString⟩ := shift_ok first
  obtain ⟨line', _, split', isSign⟩ := shift_ok second
  cases string_some isString
  cases expect_some isSign
  refine ⟨line, s, line', tokens₂, by rw [split, split'], ?_⟩
  cases tokens₄ with
  | nil =>
    cases done
    rfl
  | cons token rest =>
    obtain ⟨_, _ | _⟩ := token
    · cases done
    · cases done

/-- What `print` puts in place of the message, behind its first quote. -/
def quoted (message : List Char) : List Char :=
  if wrapped message then message.tail else message ++ [doubleQuote]

theorem print_ok {e : ErrorObject} {text : List Char} (code : 0 ≤ e.code)
    (nul : Char.ofNat 0 ∉ e.message) (done : e.print = .ok text) :
    e.ok = true ∧ text = "Error \x7b\n    code = ".toList ++ (decimal e.code.toNat ++
      (";\n    message = ".toList ++ (doubleQuote :: (quoted e.message ++
        ";\n\x7d;\n".toList)))) := by
  unfold ErrorObject.print at done
  split at done
  · rename_i ok
    refine ⟨ok, ?_⟩
    have whole : cStr e.message = e.message := by
      unfold cStr
      rw [List.takeWhile_eq_self_iff]
      intro c mem
      have other : c ≠ Char.ofNat 0 := by
        intro same
        exact nul (same ▸ mem)
      simpa using other
    have digits : printInt e.code = decimal e.code.toNat := by rw [printInt, if_pos code]
    have message : (if wrapped e.message then cStr e.message
        else [doubleQuote] ++ cStr e.message ++ [doubleQuote]) =
          doubleQuote :: quoted e.message := by
      rw [whole]
      unfold quoted
      split
      · rename_i both
        unfold wrapped at both
        rw [Bool.and_eq_true, decide_eq_true_eq, List.head?_eq_some_iff] at both
        obtain ⟨⟨rest, same⟩, _⟩ := both
        rw [same]
        rfl
      · rfl
    cases done
    rw [message, digits]
    simp
  · cases done

theorem print_of_ok {e : ErrorObject} (ok : e.ok = true) : ∃ text, e.print = .ok text := by
  unfold ErrorObject.print
  rw [if_pos ok]
  exact ⟨_, rfl⟩

/-- The text up to the message is read as it is meant. -/
theorem scan_print {code : Int} (low : 0 ≤ code) (high : code < 2 ^ 31) (rest : List Char) :
    scan (.initial 0) 1 ("Error \x7b\n    code = ".toList ++ (decimal code.toNat ++
      (";\n    message = ".toList ++ (doubleQuote :: rest)))) =
        beginning code ++ scan (.quote 3 [doubleQuote]) 3 rest := by
  rw [scan_header, scan_decimal _ _ _ (by simp; decide), scan_message,
    atoi_decimal (by omega), Int.toNat_of_nonneg low]
  rfl

theorem wrapped_iff {message : List Char} :
    wrapped message = true ↔ message = [doubleQuote] ∨
      ∃ inner, message = doubleQuote :: inner ++ [doubleQuote] := by
  unfold wrapped
  rw [Bool.and_eq_true, decide_eq_true_eq, decide_eq_true_eq]
  constructor
  · intro both
    obtain ⟨rest, same⟩ := List.head?_eq_some_iff.mp both.1
    obtain ⟨init, same'⟩ := List.getLast?_eq_some_iff.mp both.2
    cases init with
    | nil => exact .inl same'
    | cons c init =>
      rw [same'] at same
      cases same
      exact .inr ⟨init, same'⟩
  · intro shape
    rcases shape with rfl | ⟨inner, rfl⟩
    · exact ⟨rfl, rfl⟩
    · exact ⟨rfl, List.getLast?_eq_some_iff.mpr ⟨doubleQuote :: inner, rfl⟩⟩

/-- The two ways a message is printed: between the quotes lies its body. -/
theorem quoted_body {message : List Char} (several : message ≠ [doubleQuote]) :
    quoted message = body message ++ [doubleQuote] ∧
      (wrapped message = true → message = doubleQuote :: body message ++ [doubleQuote]) ∧
      (wrapped message = false → message = body message) := by
  unfold quoted body
  cases both : wrapped message with
  | false => exact ⟨rfl, by simp, by simp⟩
  | true =>
    rcases wrapped_iff.mp both with alone | ⟨inner, rfl⟩
    · exact absurd alone several
    · simp

/-- A printable message comes back, in quotes. -/
theorem survives_of_printable {e : ErrorObject} (low : 0 ≤ e.code) (high : e.code < 2 ^ 31)
    (nonempty : e.message ≠ []) (nul : Char.ofNat 0 ∉ e.message)
    (defined : e.code ≠ undefinedError) (printable : Printable e.message) : Survives e := by
  have ok : e.ok = true := by
    unfold ErrorObject.ok
    simp [defined, nonempty]
  obtain ⟨text, done⟩ := print_of_ok ok
  obtain ⟨split, isWrapped, isPlain⟩ := quoted_body printable.1
  have shape := (print_ok low nul done).2
  rw [split, List.append_assoc, List.singleton_append] at shape
  obtain ⟨line, string⟩ := scan_inside printable.2 3 [doubleQuote] 3 ";\n\x7d;\n".toList
  have tokens := scan_print low high (body e.message ++ doubleQuote :: ";\n\x7d;\n".toList)
  rw [← shape, string, scan_end] at tokens
  refine ⟨text, parsed e.code ([doubleQuote] ++ body e.message ++ [doubleQuote]), done, ?_,
    (parsed_fields _ _).1, ?_⟩
  · unfold ErrorObject.parse
    rw [tokens]
    have fields := parsed_fields e.code ([doubleQuote] ++ body e.message ++ [doubleQuote])
    have isOk : (parsed e.code ([doubleQuote] ++ body e.message ++ [doubleQuote])).ok = true := by
      unfold ErrorObject.ok
      rw [fields.1, fields.2]
      simp [defined]
    change Except.ok (parsed e.code _, (parsed e.code _).ok) = _
    rw [isOk]
  · rw [(parsed_fields _ _).2]
    cases both : wrapped e.message with
    | true => exact .inl (isWrapped both).symm
    | false => exact .inr (.inl (by rw [← isPlain both]))

/-- The trailer holds no quote. -/
theorem trailer_quote : doubleQuote ∉ ";\n\x7d;\n".toList := by decide

/-- What ends with a quote ends before the trailer. -/
theorem ends_before {u b rest : List Char}
    (split : u ++ ";\n\x7d;\n".toList = b ++ doubleQuote :: rest) :
    ∃ after, u = b ++ doubleQuote :: after ∧ rest = after ++ ";\n\x7d;\n".toList := by
  rcases List.append_eq_append_iff.mp split with ⟨a, same, tail⟩ | ⟨c, same, tail⟩
  · exfalso
    apply trailer_quote
    rw [tail]
    simp
  · cases c with
    | nil =>
      exfalso
      apply trailer_quote
      rw [List.nil_append] at tail
      rw [← tail]
      exact List.mem_cons_self
    | cons q after =>
      rw [List.cons_append, List.cons.injEq] at tail
      exact ⟨after, by rw [same, tail.1], tail.2⟩

theorem wrapped_of_both (inner : List Char) :
    wrapped ([doubleQuote] ++ inner ++ [doubleQuote]) = true :=
  wrapped_iff.mpr (.inr ⟨inner, rfl⟩)

/-- Where less than the whole quote is read, it is not the message, but for four quotes. -/
theorem early_same {message inner after : List Char}
    (early : quoted message = inner ++ doubleQuote :: after) (more : after ≠ [])
    (inside : Inside inner)
    (same : SameUpToQuotes ([doubleQuote] ++ inner ++ [doubleQuote]) message) :
    inner = [] ∧ after = [doubleQuote, doubleQuote] := by
  unfold quoted at early
  cases both : wrapped message with
  | false =>
    exfalso
    simp only [both, Bool.false_eq_true, if_false] at early
    have lengths := congrArg List.length early
    have some := List.length_pos_of_ne_nil more
    rcases same with same | same | same
    · rw [← same, wrapped_of_both] at both
      cases both
    · have lengths' := congrArg List.length same
      simp at lengths lengths'
      omega
    · rw [same, wrapped_of_both] at both
      cases both
  | true =>
    simp only [both, if_true] at early
    rcases wrapped_iff.mp both with alone | ⟨whole, rfl⟩
    · rw [alone] at early
      simp at early
    · rw [List.cons_append, List.tail_cons] at early
      have lengths := congrArg List.length early
      rcases same with same | same | same
      · have lengths' := congrArg List.length same
        have some := List.length_pos_of_ne_nil more
        simp at lengths lengths'
        omega
      · have lengths' := congrArg List.length same
        simp at lengths lengths'
        omega
      · have within : whole = doubleQuote :: inner ++ [doubleQuote] :=
          List.append_cancel_right (List.cons.inj same).2
        rw [within] at early
        cases inner with
        | nil => exact ⟨rfl, by simpa using early.symm⟩
        | cons c inner =>
          exfalso
          have first : doubleQuote = c := (List.cons.inj early).1
          unfold Inside at inside
          rw [if_pos first.symm] at inside
          exact inside

/-- What is read behind a lost line end is not the message. -/
theorem lost_same {message lost inner after : List Char}
    (early : quoted message = lost ++ backslash :: '\n' :: inner ++ doubleQuote :: after) :
    ¬ SameUpToQuotes ('\n' :: inner ++ [doubleQuote]) message := by
  have notQuote : '\n' ≠ doubleQuote := by decide
  have differ : '\n' :: inner ++ [doubleQuote] ++ [doubleQuote] ≠
      lost ++ backslash :: '\n' :: inner ++ doubleQuote :: after := by
    intro same
    have lengths := congrArg List.length same
    cases lost with
    | nil => exact backslash_other.2 (List.cons.inj same).1.symm
    | cons c lost =>
      simp at lengths
      omega
  intro same
  unfold quoted at early
  cases both : wrapped message with
  | false =>
    simp only [both, Bool.false_eq_true, if_false] at early
    rcases same with same | same | same
    · exact differ (same ▸ early)
    · exact notQuote (List.cons.inj same).1
    · have := wrapped_of_both ('\n' :: inner ++ [doubleQuote])
      rw [← same, both] at this
      cases this
  | true =>
    simp only [both, if_true] at early
    rcases wrapped_iff.mp both with alone | ⟨whole, rfl⟩
    · rw [alone] at early
      simp at early
    · rcases same with same | same | same
      · exact notQuote (List.cons.inj same).1
      · exact notQuote (List.cons.inj same).1
      · rw [same] at early
        exact differ early

/-- A message that comes back is printable. -/
theorem printable_of_survives {e : ErrorObject} (low : 0 ≤ e.code) (high : e.code < 2 ^ 31)
    (nul : Char.ofNat 0 ∉ e.message) (survives : Survives e) : Printable e.message := by
  obtain ⟨text, e', done, parses, _, same⟩ := survives
  have shape := (print_ok low nul done).2
  have tokens := scan_print low high (quoted e.message ++ ";\n\x7d;\n".toList)
  rw [← shape] at tokens
  unfold ErrorObject.parse at parses
  rw [tokens] at parses
  split at parses
  · rename_i read
    rw [Except.ok.injEq, Prod.mk.injEq] at parses
    obtain ⟨rfl, _⟩ := parses
    obtain ⟨line, s, line', rest, split, rfl⟩ := errorParse_ok read
    rw [(parsed_fields _ _).2] at same
    rcases scan_quote 3 [doubleQuote] 3 (quoted e.message ++ ";\n\x7d;\n".toList) with
      ⟨l, failure, failed⟩ | ⟨l, string, rest', found, quote⟩
    · rw [failed] at split
      cases split
    · rw [found] at split
      obtain ⟨first, next⟩ := List.cons.inj split
      cases first
      rcases quote with ⟨inner, inside, rfl, early⟩ | ⟨lost, inner, rfl, early⟩
      · obtain ⟨after, early', trailer⟩ := ends_before early
        by_cases more : after = []
        · subst more
          have several : e.message ≠ [doubleQuote] := by
            intro alone
            rw [alone] at early'
            simp [quoted, wrapped] at early'
          rw [(quoted_body several).1, List.append_cancel_right_eq] at early'
          exact ⟨several, early' ▸ inside⟩
        · exfalso
          obtain ⟨_, rfl⟩ := early_same early' more inside same
          -- The quote after the string is no semicolon.
          rw [trailer] at next
          cases next
      · exfalso
        have early' : quoted e.message ++ ";\n\x7d;\n".toList =
            (lost ++ backslash :: '\n' :: inner) ++ doubleQuote :: rest' := by
          rw [early]
          simp
        obtain ⟨after, early'', _⟩ := ends_before early'
        exact lost_same early'' same
  · cases parses
  · cases parses

/-- Errors with a message survive exactly if they have a code of their own and what is printed
between the quotes is read as one string. -/
theorem survives_iff (e : ErrorObject) (low : 0 ≤ e.code) (high : e.code < 2 ^ 31)
    (nonempty : e.message ≠ []) (nul : Char.ofNat 0 ∉ e.message) :
    Survives e ↔ e.code ≠ undefinedError ∧ Printable e.message := by
  constructor
  · intro survives
    refine ⟨?_, printable_of_survives low high nul survives⟩
    obtain ⟨text, _, done, _⟩ := survives
    have ok := (print_ok low nul done).1
    intro undefined
    simp [ErrorObject.ok, undefined, nonempty] at ok
  · intro condition
    exact survives_of_printable low high nonempty nul condition.1 condition.2

theorem survives_iff_escaped :
    Survives ⟨1003, ['a', backslash, doubleQuote]⟩ := by
  refine (survives_iff _ (by decide) (by decide) (by decide) (by decide)).mpr ⟨by decide, ?_⟩
  unfold Printable body
  rw [if_neg (by decide)]
  simp [Inside, doubleQuote, backslash]

/-- The message `a"b`. -/
theorem survives_fails : ¬ Survives ⟨1001, ['a', doubleQuote, 'b']⟩ := by
  intro survives
  have inside := (printable_of_survives (by decide) (by decide) (by decide) survives).2
  unfold body at inside
  rw [if_neg (by decide)] at inside
  simp [Inside, doubleQuote, backslash] at inside

end Libdap.Guarantees.ErrorRoundTrip
