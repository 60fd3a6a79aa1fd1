import Libdap.Library.Rewriting
import Libdap.Source.Escaping

/-!
# escaping.cc: strings escaped and restored in place

`id2www` and `www2id` with their parameters, `id2xml` and `xml2id`, `escattr` and `unescattr`.
-/
namespace Libdap.Source.Escaping
open Library.Rewriting

/-! ## Identifiers -/

theorem hexstring_length (c : UInt8) : (hexstring c).length = 2 := rfl

def wwwEscape (allowable : UInt8 → Bool) : Escape UInt8 where
  escaped c := !allowable c
  escape c := percent :: hexstring c
  step := 3
  covers c _ := by simp [hexstring_length]
  plain c _ d mem := by simp [hexstring] at mem

/-- `id2www` with any parameter `allowable`; `id2www` above has its default. -/
def id2wwwWith (allowable : UInt8 → Bool) (s : Text) : Text := (wwwEscape allowable).scan s 0

/-- The default of `id2www_ce` lacks the asterisk. -/
def allowableCe (c : UInt8) : Bool := allowable c && c ≠ 42

/-- The string of `unhexstring`, whose byte may end it at once. -/
def unhexText (garbage : UInt8) (s : Text) : Text :=
  if unhexstring garbage s = 0 then [] else [unhexstring garbage s]

def firstOf (chars : Text) : Text → Bool
  | [] => false
  | c :: _ => chars.contains c

theorem unhexText_length (garbage : UInt8) (s : Text) : (unhexText garbage s).length ≤ 1 := by
  unfold unhexText
  split <;> simp

theorem replaced_shorter {found : Text → Bool} {res put : Text} {i j : Nat}
    (place : searchFrom found res i = some j) (short : put.length ≤ 1) :
    (replace res j 3 put).length - (j + 1) < res.length - i ∧
      res.length - (j + 3) < res.length - i := by
  obtain ⟨a, b, rfl, rfl, later, visible, -⟩ := searchFrom_some place
  have positive := List.length_pos_iff.mpr visible
  simp only [replace, List.length_append, List.length_take, List.length_drop]
  omega

/-- The loop of `www2id` at the index `i`. -/
def www2idLoop (garbage : UInt8) (escape except : Text) (res : Text) (i : Nat) : Text :=
  match _ : searchFrom (firstOf escape) res i with
  | none => res
  | some j =>
    if (res.drop j).take 3 <:+: except then www2idLoop garbage escape except res (j + 3)
    else
      www2idLoop garbage escape except
        (replace res j 3 (unhexText garbage ((res.drop (j + 1)).take 2))) (j + 1)
termination_by res.length - i
decreasing_by
  · exact (replaced_shorter ‹_› (unhexText_length 0 [])).2
  · exact (replaced_shorter ‹_› (unhexText_length _ _)).1

def www2idWith (garbage : UInt8) (s escape except : Text) : Text :=
  www2idLoop garbage escape except s 0

/-! ## XML -/

def quote : UInt8 := 34

def ampersand : UInt8 := 38

def apostrophe : UInt8 := 39

def less : UInt8 := 60

def greater : UInt8 := 62

def gtEntity : Text := text ['&', 'g', 't', ';']

def ltEntity : Text := text ['&', 'l', 't', ';']

def ampEntity : Text := text ['&', 'a', 'm', 'p', ';']

def aposEntity : Text := text ['&', 'a', 'p', 'o', 's', ';']

def quotEntity : Text := text ['&', 'q', 'u', 'o', 't', ';']

/-- `none` is the `InternalErr` of an unrecognized character. -/
def entity (c : UInt8) : Option Text :=
  if c = greater then some gtEntity
  else if c = less then some ltEntity
  else if c = ampersand then some ampEntity
  else if c = apostrophe then some aposEntity
  else if c = quote then some quotEntity
  else none

/-- The default of the parameter `not_allowed` of `id2xml`. -/
def notAllowed : Text := [greater, less, ampersand, apostrophe, quote]

/-- Every character that is not allowed is recognized, so that nothing is thrown. -/
theorem entity_recognized {c : UInt8} (mem : c ∈ notAllowed) :
    ∃ t, entity c = some t ∧ 1 ≤ t.length ∧ ∀ d ∈ t.drop 1, d ∉ notAllowed := by
  simp only [notAllowed, List.mem_cons, List.not_mem_nil, or_false] at mem
  obtain rfl | rfl | rfl | rfl | rfl := mem
  · exact ⟨gtEntity, by decide, by decide, List.forall_iff_forall_mem.mp (by decide)⟩
  · exact ⟨ltEntity, by decide, by decide, List.forall_iff_forall_mem.mp (by decide)⟩
  · exact ⟨ampEntity, by decide, by decide, List.forall_iff_forall_mem.mp (by decide)⟩
  · exact ⟨aposEntity, by decide, by decide, List.forall_iff_forall_mem.mp (by decide)⟩
  · exact ⟨quotEntity, by decide, by decide, List.forall_iff_forall_mem.mp (by decide)⟩

def xmlEscape : Escape UInt8 where
  escaped c := notAllowed.contains c
  escape c := (entity c).getD []
  step := 1
  covers c escaped := by
    obtain ⟨t, known, visible, -⟩ := entity_recognized (by simpa using escaped)
    simpa [known] using visible
  plain c escaped d mem := by
    obtain ⟨t, known, -, plain⟩ := entity_recognized (by simpa using escaped)
    simp only [known, Option.getD_some] at mem
    simpa using plain d mem

def id2xml (s : Text) : Text := xmlEscape.scan s 0

/-- `while ((i = in.find(pattern, i)) != npos) in.replace(i, length, c);` -/
def onePattern (pattern : Text) (c : UInt8) (long : 1 < pattern.length) : Rules UInt8 where
  width := pattern.length
  accepts w := w == pattern
  put _ := [c]
  shorter _ _ _ := long

def gtRules : Rules UInt8 := onePattern gtEntity greater (by decide)

def ltRules : Rules UInt8 := onePattern ltEntity less (by decide)

def ampRules : Rules UInt8 := onePattern ampEntity ampersand (by decide)

def aposRules : Rules UInt8 := onePattern aposEntity apostrophe (by decide)

def quotRules : Rules UInt8 := onePattern quotEntity quote (by decide)

/-- After a replacement the search goes on where it was made. -/
def xml2id (s : Text) : Text :=
  let s := gtRules.exhaust id s 0
  let s := ltRules.exhaust id s 0
  let s := ampRules.exhaust id s 0
  let s := aposRules.exhaust id s 0
  quotRules.exhaust id s 0

/-! ## Attribute values -/

def backslash : UInt8 := 92

/-- A space, letters, digits and 32 others, of which 96, 92, 39 and 34 are the backquote, the
backslash and the quotes. -/
def printable (c : UInt8) : Bool :=
  c = 32 || (65 ≤ c && c ≤ 90) || (97 ≤ c && c ≤ 122) || (48 ≤ c && c ≤ 57) ||
    ([96, 92, 39, 34] ++ text ['~', '!', '@', '#', '$', '%', '^', '&', '*', '(', ')', '_', '-',
      '+', '=', '{', '[', '}', ']', '|', ':', ';', '<', ',', '>', '.', '?', '/']).contains c

def octDigit (n : Nat) : UInt8 := (48 + n).toUInt8

def octstring (val : UInt8) : Text :=
  [octDigit (val.toNat / 64), octDigit (val.toNat / 8 % 8), octDigit (val.toNat % 8)]

/-- What an extraction with `oct` makes of the digits at the front. -/
def octValue (value : Nat) : Text → Nat
  | [] => value
  | c :: rest =>
    if 48 ≤ c && c ≤ 55 then octValue (8 * value + (c.toNat - 48)) rest else value

/-- Called with digits only. The byte zero is an empty string. -/
def unoctstring (s : Text) : Text :=
  let val := (octValue 0 s).toUInt8
  if val = 0 then [] else [val]

theorem unoctstring_length (s : Text) : (unoctstring s).length ≤ 1 := by
  unfold unoctstring
  dsimp only
  split <;> simp

/-- The escape of one character by two. -/
def pairEscape (c : UInt8) : Escape UInt8 where
  escaped d := d = c
  escape _ := [backslash, c]
  step := 2
  covers _ _ := by simp
  plain _ _ d mem := by simp at mem

theorem octDigit_printable (n : Nat) (small : n < 8) : printable (octDigit n) = true := by
  interval_cases n <;> decide

theorem octstring_printable (c : UInt8) : ∀ d ∈ octstring c, printable d = true := by
  have bound := c.toNat_lt
  have first := octDigit_printable (c.toNat / 64) (by omega)
  have second := octDigit_printable (c.toNat / 8 % 8) (by omega)
  have third := octDigit_printable (c.toNat % 8) (by omega)
  simp [octstring, first, second, third]

/-- The scan goes on at the escape, in which all is printable. -/
def octalEscape : Escape UInt8 where
  escaped c := !printable c
  escape c := backslash :: octstring c
  step := 0
  covers _ _ := by simp
  plain c _ d mem := by
    simp only [List.drop_zero, List.mem_cons] at mem
    obtain rfl | mem := mem
    · decide
    · simp [octstring_printable c d mem]

def escattr (s : Text) : Text :=
  let s := (pairEscape backslash).scan s 0
  let s := octalEscape.scan s 0
  (pairEscape quote).scan s 0

/-- `[0-3][0-7][0-7]` behind a backslash. -/
def octalPattern : Text → Bool
  | [e, a, b, c] =>
    e = backslash && (48 ≤ a && a ≤ 51) && (48 ≤ b && b ≤ 55) && (48 ≤ c && c ≤ 55)
  | _ => false

def octal : Rules UInt8 where
  width := 4
  accepts := octalPattern
  put w := unoctstring (w.drop 1)
  shorter w _ _ := by
    have := unoctstring_length (w.drop 1)
    omega

def escQuote : Rules UInt8 := onePattern [backslash, quote] quote (by decide)

def escEsc : Rules UInt8 := onePattern [backslash, backslash] backslash (by decide)

/-- Every search starts at the beginning of the string, and one without a match ends its loop. -/
def unescattr (s : Text) : Text :=
  let s := escEsc.exhaust (fun _ => 0) s 0
  let s := escQuote.exhaust (fun _ => 0) s 0
  octal.exhaust (fun _ => 0) s 0

end Libdap.Source.Escaping
