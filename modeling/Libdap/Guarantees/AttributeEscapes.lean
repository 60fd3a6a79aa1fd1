import Libdap.Guarantees.XmlEntities

/-!
# Attribute values escaped and restored

The first loop of `unescattr` makes one backslash of every run of them, also where the first came
from the value and the next begins the escape of the character behind it. Such a backslash is
lost. The last loop reads a backslash of the value and three octal digits behind it as a byte.
-/
namespace Libdap.Guarantees.AttributeEscapes
open Libdap.Source Libdap.Source.Escaping Libdap.Library.Rewriting
open Libdap.Guarantees.XmlEntities

variable {s t : Text} {c : UInt8} {slashes quotes : Bool}

/-! ### The escapes of a value -/

/-- The escape of a character, with backslashes and quotes as they are if so wanted. -/
def image (slashes quotes : Bool) (c : UInt8) : Text :=
  if c = backslash then (if slashes then [backslash, backslash] else [backslash])
  else if printable c = false then backslash :: octstring c
  else if c = quote then (if quotes then [backslash, quote] else [quote])
  else [c]

def code (slashes quotes : Bool) (s : Text) : Text := s.flatMap (image slashes quotes)

theorem code_cons (slashes quotes : Bool) (c : UInt8) (s : Text) :
    code slashes quotes (c :: s) = image slashes quotes c ++ code slashes quotes s := rfl

theorem image_false (quotes : Bool) (c : UInt8) :
    image false quotes c =
      if c = backslash then [backslash]
      else if printable c = false then backslash :: octstring c
      else if c = quote ∧ quotes = true then [backslash, quote]
      else [c] := by
  unfold image
  by_cases mark : c = quote
  · cases quotes <;> simp [mark]
  · simp [mark]

theorem octDigit_plain : ∀ n < 8, octDigit n ≠ backslash ∧ octDigit n ≠ quote := by decide

theorem octstring_plain (c : UInt8) : backslash ∉ octstring c ∧ quote ∉ octstring c := by
  have bound := c.toNat_lt
  have first := octDigit_plain (c.toNat / 64) (by omega)
  have second := octDigit_plain (c.toNat / 8 % 8) (by omega)
  have third := octDigit_plain (c.toNat % 8) (by omega)
  unfold octstring
  constructor
  · simp [first.1.symm, second.1.symm, third.1.symm]
  · simp [first.2.symm, second.2.symm, third.2.symm]

theorem octstring_last (c : UInt8) :
    (octstring c).flatMap (pairEscape quote).images = octstring c := by
  apply Escape.images_plain _
  intro d mem
  simp only [pairEscape, decide_eq_false_iff_not]
  rintro rfl
  exact (octstring_plain c).2 mem

/-- The three passes together. -/
theorem escattr_code (s : Text) : escattr s = code true true s := by
  unfold escattr code
  dsimp only
  rw [Escape.scan_start, Escape.scan_start, Escape.scan_start, List.flatMap_assoc,
    List.flatMap_assoc]
  congr
  funext c
  by_cases slash : c = backslash
  · subst slash
    decide
  · have first : (pairEscape backslash).images c = [c] := by
      simp [Escape.images, pairEscape, slash]
    rw [first, List.flatMap_singleton]
    cases fine : printable c with
    | false =>
      have second : octalEscape.images c = backslash :: octstring c := by
        simp [Escape.images, octalEscape, fine]
      have plain : (pairEscape quote).images backslash = [backslash] := by decide
      rw [second, List.flatMap_cons, octstring_last, plain]
      simp [image, slash, fine]
    | true =>
      have second : octalEscape.images c = [c] := by simp [Escape.images, octalEscape, fine]
      rw [second, List.flatMap_singleton]
      by_cases mark : c = quote
      · subst mark
        decide
      · simp [Escape.images, pairEscape, image, slash, fine, mark]

/-! ### The three loops of rewritings -/

theorem escEsc_settles : escEsc.Settles fun _ => 0 where
  apart := by
    intro x y z some_x some_y width width' accepted accepted'
    have left : x ++ y = [backslash, backslash] := by simpa [escEsc, onePattern] using accepted
    have right : y ++ z = [backslash, backslash] := by simpa [escEsc, onePattern] using accepted'
    obtain ⟨a, x, rfl⟩ := List.exists_cons_of_ne_nil some_x
    obtain ⟨b, y, rfl⟩ := List.exists_cons_of_ne_nil some_y
    have first := congrArg List.length left
    have second := congrArg List.length right
    simp only [List.length_append, List.length_cons, List.length_nil] at first second
    obtain rfl := List.length_eq_zero_iff.mp (show x.length = 0 by omega)
    obtain rfl := List.length_eq_zero_iff.mp (show y.length = 0 by omega)
    obtain ⟨c, rfl⟩ := List.length_eq_one_iff.mp (show z.length = 1 by omega)
    simp only [List.singleton_append, List.cons.injEq, and_true] at left right
    simp [escEsc, onePattern, left, right]
  resumes := Rules.resumes_start

theorem escQuote_settles : escQuote.Settles fun _ => 0 where
  apart := onePattern_apart (by decide)
  resumes := Rules.resumes_start

theorem octalPattern_shape {w : Text} (accepted : octalPattern w = true) :
    ∃ x y z, w = [backslash, x, y, z] ∧ (48 ≤ x ∧ x ≤ 51) ∧ (48 ≤ y ∧ y ≤ 55) ∧
      (48 ≤ z ∧ z ≤ 55) := by
  match w with
  | [e, x, y, z] =>
    simp only [octalPattern, Bool.and_eq_true, decide_eq_true_eq] at accepted
    obtain ⟨⟨⟨rfl, first⟩, second⟩, third⟩ := accepted
    exact ⟨x, y, z, rfl, first, second, third⟩

theorem octal_settles : octal.Settles fun _ => 0 where
  apart := by
    apply Rules.apart_of_first backslash
    intro w accepted
    obtain ⟨x, y, z, rfl, first, second, third⟩ := octalPattern_shape accepted
    refine ⟨[x, y, z], rfl, ?_⟩
    have other : ∀ d : UInt8, d ≤ 55 → backslash ≠ d := by
      rintro d small rfl
      exact absurd small (by decide)
    simp [other x (UInt8.le_trans first.2 (by decide)), other y second.2, other z third.2]
  resumes := Rules.resumes_start

/-- An octal escape stands for its byte. -/
theorem octal_escape (c : UInt8) (nonzero : c ≠ 0) :
    octalPattern (backslash :: octstring c) = true ∧ unoctstring (octstring c) = [c] := by
  have digits : ∀ n < 8, 48 ≤ octDigit n ∧ octDigit n ≤ 55 ∧ (octDigit n).toNat - 48 = n := by
    decide
  have lead : ∀ n < 4, octDigit n ≤ 51 := by decide
  have bound := c.toNat_lt
  obtain ⟨a₁, a₂, a₃⟩ := digits (c.toNat / 64) (by omega)
  obtain ⟨b₁, b₂, b₃⟩ := digits (c.toNat / 8 % 8) (by omega)
  obtain ⟨d₁, d₂, d₃⟩ := digits (c.toNat % 8) (by omega)
  have small := lead (c.toNat / 64) (by omega)
  have value : 8 * (8 * (c.toNat / 64) + c.toNat / 8 % 8) + c.toNat % 8 = c.toNat := by omega
  constructor
  · simp [octalPattern, octstring, a₁, small, b₁, b₂, d₁, d₂]
  · simp [unoctstring, octstring, octValue, a₁, a₂, a₃, b₁, b₂, b₃, d₁, d₂, d₃, value, nonzero]

/-! ### Backslashes that are lost -/

/-- The escape of the character in front begins with a backslash. -/
def escapedFront : Text → Bool
  | [] => false
  | c :: _ => c = backslash || c = quote || !printable c

/-- The value without the backslashes in front of such a character. -/
def survivors : Text → Text
  | [] => []
  | c :: rest =>
    if c = backslash ∧ escapedFront rest = true then survivors rest else c :: survivors rest

/-- There are none. -/
def Clean (s : Text) : Prop := ∀ a b, s = a ++ backslash :: b → escapedFront b = false

theorem survivors_sublist (s : Text) : (survivors s).Sublist s := by
  induction s with
  | nil => exact .slnil
  | cons c rest ih =>
    unfold survivors
    split
    · exact ih.cons c
    · exact ih.cons_cons c

theorem escapedFront_survivors (s : Text) : escapedFront (survivors s) = escapedFront s := by
  induction s with
  | nil => rfl
  | cons c rest ih =>
    unfold survivors
    split
    next lost =>
      rw [ih, lost.2]
      simp [escapedFront, lost.1]
    · rfl

theorem Clean.of_cons (clean : Clean (c :: s)) : Clean s :=
  fun a b split => clean (c :: a) b (by simp [split])

theorem survivors_clean (s : Text) : Clean (survivors s) := by
  induction s with
  | nil =>
    intro a b split
    simp [survivors] at split
  | cons c rest ih =>
    unfold survivors
    split
    · exact ih
    next kept =>
      intro a b split
      cases a with
      | nil =>
        simp only [List.nil_append, List.cons.injEq] at split
        rw [← split.2, escapedFront_survivors]
        simpa [split.1] using kept
      | cons d a =>
        simp only [List.cons_append, List.cons.injEq] at split
        exact ih a b split.2

theorem Clean.survivors_eq (clean : Clean s) : survivors s = s := by
  induction s with
  | nil => rfl
  | cons c rest ih =>
    unfold survivors
    rw [if_neg, ih clean.of_cons]
    rintro ⟨rfl, front⟩
    rw [clean [] rest rfl] at front
    contradiction

/-! ### What the loops undo -/

theorem image_front (escaped : escapedFront (c :: s) = true) :
    ∃ i, image false true c = backslash :: i := by
  simp only [escapedFront, Bool.or_eq_true, decide_eq_true_eq, Bool.not_eq_true'] at escaped
  by_cases slash : c = backslash
  · exact ⟨[], by simp [image, slash]⟩
  · obtain (same | rfl) | fine := escaped
    · exact absurd same slash
    · exact ⟨[quote], by decide⟩
    · exact ⟨octstring c, by simp [image, slash, fine]⟩

/-- Behind the first character of an escape is no backslash. -/
theorem image_plain (quotes : Bool) (c : UInt8) :
    ∃ d i, image false quotes c = d :: i ∧ backslash ∉ i ∧
      (d = backslash → i = [] ∧ c = backslash ∨ escapedFront [c] = true ∧ i ≠ []) := by
  rw [image_false]
  split_ifs with slash unprintable mark
  · exact ⟨backslash, [], rfl, by simp, fun _ => .inl ⟨rfl, slash⟩⟩
  · exact ⟨backslash, octstring c, rfl, (octstring_plain c).1,
      fun _ => .inr ⟨by simp [escapedFront, unprintable], by simp [octstring]⟩⟩
  · exact ⟨backslash, [quote], rfl, by decide,
      fun _ => .inr ⟨by simp [escapedFront, mark.1], by simp⟩⟩
  · exact ⟨c, [], rfl, by simp, fun same => .inl ⟨rfl, same⟩⟩

theorem slashes_undone (s : Text) :
    escEsc.Steps (code true true s) (code false true s) := by
  induction s with
  | nil => exact .refl
  | cons c s ih =>
    rw [code_cons, code_cons]
    have later := fun i => ih.around i []
    simp only [List.append_nil] at later
    by_cases slash : c = backslash
    · subst slash
      have first : escEsc.Step ([] ++ ([backslash, backslash] ++ code true true s))
          ([] ++ (backslash :: code true true s)) := onePattern_step [] _
      exact .head first (later [backslash])
    · have same : image true true c = image false true c := by simp [image, slash]
      rw [same]
      exact later _

/-- A backslash and that of the next escape become one. -/
theorem slashes_lost (s : Text) :
    escEsc.Steps (code false true s) (code false true (survivors s)) := by
  induction s with
  | nil => exact .refl
  | cons c s ih =>
    unfold survivors
    split
    next lost =>
      obtain ⟨rfl, front⟩ := lost
      cases s with
      | nil => simp [escapedFront] at front
      | cons d s =>
        obtain ⟨i, begins⟩ := image_front front
        have collapse : escEsc.Step
            ([] ++ ([backslash, backslash] ++ (i ++ code false true s)))
            ([] ++ (backslash :: (i ++ code false true s))) := onePattern_step [] _
        have whole : code false true (d :: s) = backslash :: (i ++ code false true s) := by
          rw [code_cons, begins, List.cons_append]
        have before : code false true (backslash :: d :: s) =
            [backslash, backslash] ++ (i ++ code false true s) := by
          rw [code_cons, whole]
          rfl
        rw [whole] at ih
        rw [before]
        exact .head collapse ih
    · rw [code_cons, code_cons]
      simpa using ih.around (image false true c) []

theorem code_front {quotes : Bool} {d : UInt8} {rest : Text}
    (begins : code false quotes s = d :: rest) (special : d = backslash ∨ d = quote) :
    escapedFront s = true := by
  cases s with
  | nil => simp [code] at begins
  | cons c s =>
    obtain ⟨e, i, is, -, -⟩ := image_plain quotes c
    rw [code_cons, is, List.cons_append, List.cons.injEq] at begins
    obtain ⟨rfl, -⟩ := begins
    rw [image_false] at is
    simp only [escapedFront, Bool.or_eq_true, decide_eq_true_eq, Bool.not_eq_true']
    split_ifs at is with slash unprintable mark
    · exact .inl (.inl slash)
    · exact .inr unprintable
    · exact .inl (.inr mark.1)
    · rw [List.cons.injEq] at is
      obtain ⟨rfl, -⟩ := is
      exact .inl special

/-- In a clean value no backslash stands in front of a backslash or a quote, but for those that
`escattr` has put in front of quotes. -/
theorem pair_absent (clean : Clean s) (quotes : Bool) {d : UInt8}
    (special : d = backslash ∨ d = quote ∧ quotes = false) :
    ¬ [backslash, d] <:+: code false quotes s := by
  intro there
  induction s with
  | nil => simp [code] at there
  | cons c s ih =>
    obtain ⟨e, i, is, plain, begins⟩ := image_plain quotes c
    rw [code_cons, is, List.cons_append, List.infix_cons_iff] at there
    obtain front | later := there
    · rw [List.cons_prefix_cons] at front
      obtain ⟨rfl, front⟩ := front
      obtain ⟨rfl, rfl⟩ | ⟨escaped, visible⟩ := begins rfl
      · -- the backslash is that of the value
        obtain ⟨rest, split⟩ := front
        have begins : code false quotes s = d :: rest := by simpa using split.symm
        have escaped := code_front begins (special.imp_right And.left)
        rw [clean [] s rfl] at escaped
        contradiction
      · obtain ⟨x, i, rfl⟩ := List.exists_cons_of_ne_nil visible
        simp only [List.cons_append, List.cons_prefix_cons, List.nil_prefix, and_true] at front
        subst front
        obtain rfl | ⟨rfl, rfl⟩ := special
        · exact plain List.mem_cons_self
        · rw [image_false] at is
          split_ifs at is with slash unprintable mark
          · simp at is
          · rw [List.cons.injEq] at is
            exact (octstring_plain c).2 (is.2 ▸ List.mem_cons_self)
          · exact absurd mark.2 (by decide)
          · simp at is
    · exact ih clean.of_cons (infix_skip plain later)

theorem quotes_undone (s : Text) :
    escQuote.Steps (code false true s) (code false false s) := by
  induction s with
  | nil => exact .refl
  | cons c s ih =>
    rw [code_cons, code_cons]
    have later := fun i => ih.around i []
    simp only [List.append_nil] at later
    by_cases mark : c = quote
    · subst mark
      have first : escQuote.Step ([] ++ ([backslash, quote] ++ code false true s))
          ([] ++ (quote :: code false true s)) := onePattern_step [] _
      exact .head first (later [quote])
    · have same : image false true c = image false false c := by simp [image, mark]
      rw [same]
      exact later _

theorem octals_undone (noNul : 0 ∉ s) : octal.Steps (code false false s) s := by
  induction s with
  | nil => exact .refl
  | cons c s ih =>
    rw [List.mem_cons, not_or] at noNul
    rw [code_cons]
    have later := (ih noNul.2).around [c] []
    simp only [List.append_nil, List.singleton_append] at later
    by_cases coded : c ≠ backslash ∧ printable c = false
    · obtain ⟨accepted, put⟩ := octal_escape c (Ne.symm noNul.1)
      have first : octal.Step ((backslash :: octstring c) ++ code false false s)
          (c :: code false false s) :=
        ⟨[], backslash :: octstring c, code false false s, rfl, accepted, rfl, by
          simp [octal, put]⟩
      have same : image false false c = backslash :: octstring c := by
        simp [image, coded.1, coded.2]
      rw [same]
      exact .head first later
    · have same : image false false c = [c] := by
        rw [image_false]
        split_ifs with slash unprintable mark
        · rw [slash]
        · exact absurd ⟨slash, unprintable⟩ coded
        · exact absurd mark.2 (by decide)
        · rfl
      rw [same]
      exact later

/-! ### The round trip -/

/-- What comes back is what the last loop makes of the value without the lost backslashes. -/
theorem unescattr_escattr (noNul : 0 ∉ s) :
    unescattr (escattr s) = octal.exhaust (fun _ => 0) (survivors s) 0 := by
  have clean := survivors_clean s
  have kept : 0 ∉ survivors s := fun mem => noNul ((survivors_sublist s).mem mem)
  have first : escEsc.exhaust (fun _ => 0) (code true true s) 0 = code false true (survivors s) :=
    escEsc_settles.exhaust_eq ((slashes_undone s).trans (slashes_lost s))
      (onePattern_normal.mpr (pair_absent clean true (.inl rfl)))
  have second : escQuote.exhaust (fun _ => 0) (code false true (survivors s)) 0 =
      code false false (survivors s) :=
    escQuote_settles.exhaust_eq (quotes_undone _)
      (onePattern_normal.mpr (pair_absent clean false (.inr ⟨rfl, rfl⟩)))
  rw [unescattr, escattr_code, first, second, octal_settles.exhaust_congr (octals_undone kept)]

theorem octal_normal_iff :
    octal.Normal s ↔ ∀ a b, s = a ++ backslash :: b →
      octalPattern (backslash :: b.take 3) = false := by
  constructor
  · intro normal a b split
    by_contra accepted
    rw [Bool.not_eq_false] at accepted
    obtain ⟨x, y, z, window, -⟩ := octalPattern_shape accepted
    refine Bool.eq_false_iff.mp (normal a (backslash :: b.take 3) (b.drop 3) ?_ ?_) accepted
    · rw [List.cons_append, List.take_append_drop, split]
    · rw [window]
      rfl
  · intro absent a w b split width
    by_contra accepted
    rw [Bool.not_eq_false] at accepted
    obtain ⟨x, y, z, rfl, -⟩ := octalPattern_shape accepted
    have missed : octalPattern [backslash, x, y, z] = false := absent a ([x, y, z] ++ b) split
    exact absurd accepted (Bool.eq_false_iff.mp missed)

/-- A value comes back exactly if none of its backslashes stands in front of a backslash, a
quote, a byte that is not printable or three octal digits that make a byte. -/
theorem attribute_comes_back_iff (s : Text) (noNul : 0 ∉ s) :
    unescattr (escattr s) = s ↔
      ∀ a b, s = a ++ backslash :: b →
        escapedFront b = false ∧ octalPattern (backslash :: b.take 3) = false := by
  rw [unescattr_escattr noNul]
  constructor
  · intro back
    have short := Rules.exhaust_length octal (fun _ => 0) (survivors s)
    have shorter := (survivors_sublist s).length_le
    rw [back] at short
    have same := (survivors_sublist s).eq_of_length_le short
    have clean := survivors_clean s
    have normal := octal_settles.normal (survivors s)
    rw [same] at clean
    rw [back] at normal
    exact fun a b split => ⟨clean a b split, octal_normal_iff.mp normal a b split⟩
  · intro plain
    have clean : Clean s := fun a b split => (plain a b split).1
    rw [clean.survivors_eq]
    exact octal_settles.exhaust_eq .refl
      (octal_normal_iff.mpr fun a b split => (plain a b split).2)

/-- `a"` followed by a byte that is not printable. -/
theorem attribute_comes_back_example :
    0 ∉ [97, backslash, 98, quote, 200] ∧
      (unescattr (escattr [97, backslash, 98, quote, 200]) = [97, backslash, 98, quote, 200] ↔
        ∀ a b, [97, backslash, 98, quote, 200] = a ++ backslash :: b →
          escapedFront b = false ∧ octalPattern (backslash :: b.take 3) = false) :=
  ⟨by decide, attribute_comes_back_iff [97, backslash, 98, quote, 200] (by decide)⟩

/-- Of two backslashes one comes back. -/
theorem backslashes_collapse :
    ¬ ∀ s : Text, 0 ∉ s → unescattr (escattr s) = s := by
  intro back
  have two := back [backslash, backslash] (by decide)
  rw [unescattr_escattr (by decide)] at two
  have one : octal.exhaust (fun _ => 0) (survivors [backslash, backslash]) 0 = [backslash] := by
    decide +kernel
  rw [one] at two
  exact absurd two (by decide)

end Libdap.Guarantees.AttributeEscapes
