import Libdap.Guarantees.PatternParts
import Mathlib.Tactic

/-!
# What a pattern matches

The search behind an asterisk goes from the end of the string to the front, and gives up where the
rest of the pattern ends before the string does.
-/
namespace Libdap.Guarantees.Patterns
open Libdap.Source Libdap.Source.Glob
open Libdap.Guarantees.CharacterClasses Libdap.Guarantees.PatternParts

section
variable (accepts : One → UInt8 → Prop)

/-- A string matches a pattern: an asterisk stands for any number of characters. -/
def Matches : List Item → Text → Prop
  | [], s => s = []
  | .star :: p, s => ∃ k, Matches p (s.drop k)
  | .one o :: p, s => ∃ x t, s = x :: t ∧ accepts o x ∧ Matches p t

/-- The pattern ends before the string, where each asterisk stands for nothing as it has to. -/
def Exhausted : List Item → Text → Prop
  | [], s => s ≠ []
  | .star :: p, s =>
    (∀ k, 0 < k → k ≤ s.length → ¬ Matches accepts p (s.drop k) ∧ ¬ Exhausted p (s.drop k)) ∧
      Exhausted p s
  | .one o :: p, s => ∃ x t, s = x :: t ∧ accepts o x ∧ Exhausted p t

end

/-- The documented meaning. -/
def docAccepts : One → UInt8 → Prop
  | .any, _ => True
  | .char y, x => x = y
  | .set body, x => negated body (∃ q ∈ listed body, q.1 ≤ x ∧ x ≤ q.2)
  | .broken, _ => False

/-- The meaning in which the closing bracket belongs to the set, as a member or as the end of a
range, and the order is that of signed characters. -/
def codeAccepts : One → UInt8 → Prop
  | .any, _ => True
  | .char y, x => x = y
  | .set body, x => inSet (body ++ [closeBracket]) x.toNat
  | .broken, _ => False

/-- The set and the character that it is tested for are in the table. -/
def InTable : One → Option UInt8 → Prop
  | .set body, x => fitsTable (body ++ [closeBracket]) ∧ ∀ c ∈ x, c.toNat < 128
  | _, _ => True

/-- None of the shorter ends of the string is a match, or the end of the search. -/
def FailBehind (p : List Item) (s : Text) (k : Nat) : Prop :=
  ∀ j, k < j → j ≤ s.length →
    ¬ Matches codeAccepts p (s.drop j) ∧ ¬ Exhausted codeAccepts p (s.drop j)

/-- The tests that the search makes are in the table, and the parts of the pattern that it counts
are fewer than 2^31. -/
def Safe : Nat → List Item → Text → Prop
  | i, [], _ => i + 1 < 2 ^ 31
  | i, .star :: p, s =>
    i + 1 < 2 ^ 31 ∧
      (∀ k, 0 < k → k ≤ s.length → FailBehind p s k → Safe 0 p (s.drop k)) ∧
      (FailBehind p s 0 → Safe (i + 1) p s)
  | i, .one o :: p, s =>
    i + 1 < 2 ^ 31 ∧ InTable o s.head? ∧
      ∀ x t, s = x :: t → codeAccepts o x → Safe (i + 1) p t

/-- A string without its zero byte at the end. -/
abbrev CString := { t : Text // (0 : UInt8) ∉ t }

def CString.array (t : CString) : Text := t.1 ++ [0]

/-- No byte is read or written out of bounds, and the result is zero exactly where the string
matches. -/
def Meets (pattern string : CString) : Prop :=
  ∃ r, glob (some pattern.array) (some string.array) = .ok r ∧
    (r = 0 ↔ Matches docAccepts (items pattern) string)

/-! ### What the search finds -/

theorem increment_spec (i : Nat) : (i + 1 < 2 ^ 31 → increment i = .ok (i + 1)) ∧
    (¬ i + 1 < 2 ^ 31 → increment i = .error .overflow) :=
  ⟨fun small => if_pos small, fun large => if_neg large⟩

/-- The result says whether the string matches, and is negative where the pattern is exhausted. -/
def Verdict (p : List Item) (s : Text) (r : Int) : Prop :=
  (r = 0 ↔ Matches codeAccepts p s) ∧ (r < 0 ↔ Exhausted codeAccepts p s)

theorem verdict_none {p : List Item} {s : Text} {i : Nat} (differs : ¬ Matches codeAccepts p s)
    (goes_on : ¬ Exhausted codeAccepts p s) : Verdict p s ((i + 1 : Nat) : Int) :=
  ⟨iff_of_false (by omega) differs, iff_of_false (by omega) goes_on⟩

/-- Where the pattern is exhausted before the string, it matches no longer string that ends so. -/
theorem not_matches_of_exhausted {accepts : One → UInt8 → Prop} {p : List Item} {s : Text}
    (exhausted : Exhausted accepts p s) (a : Text) : ¬ Matches accepts p (a ++ s) := by
  induction p generalizing s a with
  | nil =>
    intro empty
    exact exhausted (List.append_eq_nil_iff.mp empty).2
  | cons item p ih =>
    cases item with
    | star =>
      intro ⟨k, matched⟩
      obtain ⟨shorter, same⟩ := exhausted
      rw [List.drop_append] at matched
      by_cases inside : k ≤ a.length
      · rw [Nat.sub_eq_zero_of_le inside, List.drop_zero] at matched
        exact ih same _ matched
      · rw [List.drop_eq_nil_of_le (by omega), List.nil_append] at matched
        by_cases short : k - a.length ≤ s.length
        · exact (shorter _ (by omega) short).1 matched
        · rw [List.drop_eq_nil_of_le (by omega)] at matched
          by_cases empty : s = []
          · exact ih same [] (by rwa [empty])
          · have whole := shorter s.length (List.length_pos_iff.mpr empty) le_rfl
            rw [List.drop_length] at whole
            exact whole.1 matched
    | one o =>
      intro ⟨x, t, whole, _, matched⟩
      obtain ⟨y, u, rfl, _, behind⟩ := exhausted
      cases a with
      | nil =>
        obtain ⟨rfl, rfl⟩ := List.cons.inj whole
        exact ih behind [] matched
      | cons z a =>
        obtain ⟨rfl, rfl⟩ := List.cons.inj whole
        exact ih behind (a ++ [y]) (by simpa using matched)

theorem test_spec (o : One) (x : Option UInt8) :
    (InTable o x → ∃ taken, test o x = .ok taken ∧ (taken = true ↔ ∃ c ∈ x, codeAccepts o c)) ∧
      (¬ InTable o x → ∃ fault, test o x = .error fault) := by
  cases o with
  | any => simp [InTable, test, codeAccepts, Option.isSome_iff_exists]
  | char y => simp [InTable, test, codeAccepts]
  | broken => simp [InTable, test, codeAccepts]
  | set body =>
    obtain ⟨filled, outside⟩ := globchars_spec (body ++ [closeBracket])
    by_cases fit : fitsTable (body ++ [closeBracket])
    · obtain ⟨b, made, bits⟩ := filled fit
      have value : test (.set body) x = checkBit b (x.getD 0) := by
        rw [test, made]
        rfl
      rw [value]
      cases x with
      | none =>
        have zero := bits ⟨0, by decide⟩
        refine ⟨fun _ => ⟨_, checkBit_inside b (by decide), ?_⟩, fun large => ?_⟩
        · exact zero.trans (by simp [inSet])
        · exact absurd ⟨fit, by simp⟩ large
      | some c =>
        by_cases small : c.toNat < 128
        · refine ⟨fun _ => ⟨_, checkBit_inside b small, ?_⟩, fun large => ?_⟩
          · simpa [codeAccepts] using bits ⟨c.toNat, small⟩
          · exact absurd ⟨fit, by simpa using small⟩ large
        · refine ⟨fun inside => absurd (inside.2 c rfl) small, fun _ => ⟨.outsideTable, ?_⟩⟩
          exact checkBit_outside b (by simpa using small)
    · refine ⟨fun inside => absurd inside.1 fit, fun _ => ⟨.outsideTable, ?_⟩⟩
      rw [test, outside fit]
      rfl

/-- What is known of the search from `i` on. -/
def Found (p : List Item) (i : Nat) (s : Text) : Prop :=
  (Safe i p s → ∃ r, search i p s = .ok r ∧ Verdict p s r) ∧
    (¬ Safe i p s → ∃ fault, search i p s = .error fault)

/-- How the tries behind an asterisk end. -/
inductive Ending (p : List Item) (s : Text) (k : Nat) : Option Bool → Prop
  | nothing (behind : FailBehind p s 0) : Ending p s k none
  | found (j : Nat) (positive : 0 < j) (inside : j ≤ k)
      (matched : Matches codeAccepts p (s.drop j)) : Ending p s k (some true)
  | gaveUp (j : Nat) (positive : 0 < j) (inside : j ≤ k) (behind : FailBehind p s j)
      (differs : ¬ Matches codeAccepts p (s.drop j))
      (exhausted : Exhausted codeAccepts p (s.drop j)) : Ending p s k (some false)

theorem Ending.mono {p : List Item} {s : Text} {k : Nat} {out : Option Bool}
    (ending : Ending p s k out) : Ending p s (k + 1) out := by
  cases ending with
  | nothing behind => exact .nothing behind
  | found j positive inside matched => exact .found j positive (by omega) matched
  | gaveUp j positive inside behind differs exhausted =>
    exact .gaveUp j positive (by omega) behind differs exhausted

/-- A try that ends the search is the last that has to be safe. -/
theorem safe_alone {p : List Item} {s : Text} {k : Nat} (inside : k + 1 ≤ s.length)
    (safe : Safe 0 p (s.drop (k + 1)))
    (ends : ¬ (¬ Matches codeAccepts p (s.drop (k + 1)) ∧
      ¬ Exhausted codeAccepts p (s.drop (k + 1)))) :
    ∀ j, 0 < j → j ≤ k + 1 → FailBehind p s j → Safe 0 p (s.drop j) := by
  intro j _ within fails
  obtain rfl | shorter := Nat.eq_or_lt_of_le within
  · exact safe
  · exact absurd (fails (k + 1) shorter inside) ends

theorem tries_spec {p : List Item} (each : ∀ t, Found p 0 t) (s : Text) (k : Nat)
    (inside : k ≤ s.length) (behind : FailBehind p s k) :
    ((∀ j, 0 < j → j ≤ k → FailBehind p s j → Safe 0 p (s.drop j)) →
      ∃ out, tries (search 0 p) s k = .ok out ∧ Ending p s k out) ∧
    (¬ (∀ j, 0 < j → j ≤ k → FailBehind p s j → Safe 0 p (s.drop j)) →
      ∃ fault, tries (search 0 p) s k = .error fault) := by
  induction k with
  | zero =>
    refine ⟨fun _ => ⟨none, rfl, .nothing behind⟩, fun outside => absurd ?_ outside⟩
    intro j positive none
    omega
  | succ k ih =>
    by_cases safe : Safe 0 p (s.drop (k + 1))
    · obtain ⟨r, result, zero, negative⟩ := (each _).1 safe
      have step : tries (search 0 p) s (k + 1) =
          if r = 0 then .ok (some true) else if r < 0 then .ok (some false)
            else tries (search 0 p) s k := by
        rw [tries, result]
        rfl
      rw [step]
      by_cases matched : Matches codeAccepts p (s.drop (k + 1))
      · have alone := safe_alone inside safe fun fails => fails.1 matched
        rw [if_pos (zero.mpr matched)]
        exact ⟨fun _ => ⟨_, rfl, .found (k + 1) (by omega) le_rfl matched⟩, (absurd alone ·)⟩
      · rw [if_neg fun equal => matched (zero.mp equal)]
        by_cases exhausted : Exhausted codeAccepts p (s.drop (k + 1))
        · have alone := safe_alone inside safe fun fails => fails.2 exhausted
          rw [if_pos (negative.mpr exhausted)]
          exact ⟨fun _ => ⟨_, rfl, .gaveUp (k + 1) (by omega) le_rfl behind matched exhausted⟩,
            (absurd alone ·)⟩
        · rw [if_neg fun less => exhausted (negative.mp less)]
          have further : FailBehind p s k := by
            intro j longer within
            obtain rfl | shorter := Nat.eq_or_lt_of_le (Nat.succ_le_of_lt longer)
            · exact ⟨matched, exhausted⟩
            · exact behind j shorter within
          obtain ⟨ends, fails⟩ := ih (by omega) further
          have same : (∀ j, 0 < j → j ≤ k + 1 → FailBehind p s j → Safe 0 p (s.drop j)) ↔
              ∀ j, 0 < j → j ≤ k → FailBehind p s j → Safe 0 p (s.drop j) := by
            refine ⟨fun all j positive within => all j positive (by omega), ?_⟩
            intro all j positive within fail
            obtain rfl | shorter := Nat.eq_or_lt_of_le within
            · exact safe
            · exact all j positive (by omega) fail
          rw [same]
          refine ⟨fun all => ?_, fails⟩
          obtain ⟨out, result, ending⟩ := ends all
          exact ⟨out, result, ending.mono⟩
    · obtain ⟨fault, failed⟩ := (each _).2 safe
      refine ⟨fun all => absurd (all (k + 1) (by omega) le_rfl behind) safe, fun _ => ⟨fault, ?_⟩⟩
      rw [tries, failed]
      rfl

theorem verdict_star {p : List Item} {s : Text} {r : Int} (behind : FailBehind p s 0)
    (verdict : Verdict p s r) : Verdict (.star :: p) s r := by
  constructor
  · rw [verdict.1]
    refine ⟨fun matched => ⟨0, by simpa using matched⟩, fun ⟨k, matched⟩ => ?_⟩
    by_cases whole : k = 0
    · simpa [whole] using matched
    by_cases inside : k ≤ s.length
    · exact absurd matched (behind k (by omega) inside).1
    by_cases empty : s = []
    · simpa [empty] using matched
    · have last := (behind s.length (List.length_pos_iff.mpr empty) le_rfl).1
      rw [List.drop_eq_nil_of_le le_rfl] at last
      rw [List.drop_eq_nil_of_le (by omega)] at matched
      exact absurd matched last
  · rw [verdict.2]
    exact ⟨fun exhausted => ⟨behind, exhausted⟩, fun exhausted => exhausted.2⟩

/-- No end of the string matches: the shorter ones have failed, and for the longer ones the
pattern is exhausted. -/
theorem not_matches_star {p : List Item} {s : Text} {j : Nat} (behind : FailBehind p s j)
    (differs : ¬ Matches codeAccepts p (s.drop j))
    (exhausted : Exhausted codeAccepts p (s.drop j)) : ¬ Matches codeAccepts (.star :: p) s := by
  intro ⟨k, matched⟩
  by_cases longer : k ≤ j
  · have parts : s.drop k = (s.drop k).take (j - k) ++ s.drop j := by
      rw [show s.drop j = (s.drop k).drop (j - k) by rw [List.drop_drop]; congr 1; omega,
        List.take_append_drop]
    exact not_matches_of_exhausted exhausted _ (parts ▸ matched)
  · by_cases inside : k ≤ s.length
    · exact (behind k (by omega) inside).1 matched
    · rw [List.drop_eq_nil_of_le (by omega)] at matched
      by_cases short : j < s.length
      · have last := (behind s.length short le_rfl).1
        rw [List.drop_length] at last
        exact last matched
      · rw [List.drop_eq_nil_of_le (by omega)] at differs
        exact differs matched

theorem found_one (o : One) {p : List Item} {i : Nat} {s : Text} (small : i + 1 < 2 ^ 31)
    (rest : ∀ t, Found p (i + 1) t) : Found (.one o :: p) i s := by
  obtain ⟨inside, outside⟩ := test_spec o s.head?
  rw [Found, search, (increment_spec i).1 small]
  by_cases table : InTable o s.head?
  · obtain ⟨taken, tested, accepted⟩ := inside table
    simp only [tested, bind, Except.bind]
    cases taken with
    | false =>
      have refused : ∀ x t, s = x :: t → ¬ codeAccepts o x := by
        rintro x t rfl accepts
        exact Bool.noConfusion (accepted.mpr ⟨x, rfl, accepts⟩)
      have safe : Safe i (.one o :: p) s :=
        ⟨small, table, fun x t whole accepts => absurd accepts (refused x t whole)⟩
      refine ⟨fun _ => ⟨_, rfl, verdict_none ?_ ?_⟩, (absurd safe ·)⟩
      · intro ends
        obtain ⟨x, t, whole, accepts, -⟩ := ends
        exact refused x t whole accepts
      · intro ends
        obtain ⟨x, t, whole, accepts, -⟩ := ends
        exact refused x t whole accepts
    | true =>
      obtain ⟨x, first, accepts⟩ := accepted.mp rfl
      obtain ⟨t, rfl⟩ := List.head?_eq_some_iff.mp first
      have same : Safe i (.one o :: p) (x :: t) ↔ Safe (i + 1) p t := by
        refine ⟨fun safe => safe.2.2 x t rfl accepts, fun safe => ⟨small, table, ?_⟩⟩
        rintro y u whole -
        obtain ⟨rfl, rfl⟩ := List.cons.inj whole
        exact safe
      have verdict : ∀ r, Verdict p t r → Verdict (.one o :: p) (x :: t) r := by
        intro r verdict
        simpa [Verdict, Matches, Exhausted, accepts] using verdict
      rw [same]
      refine ⟨fun safe => ?_, (rest t).2⟩
      obtain ⟨r, result, holds⟩ := (rest t).1 safe
      exact ⟨r, result, verdict r holds⟩
  · obtain ⟨fault, failed⟩ := outside table
    refine ⟨fun safe => absurd safe.2.1 table, fun _ => ⟨fault, ?_⟩⟩
    simp only [failed, bind, Except.bind]

theorem found_star {p : List Item} {i : Nat} {s : Text} (small : i + 1 < 2 ^ 31)
    (rest : ∀ i t, Found p i t) : Found (.star :: p) i s := by
  have none_behind : FailBehind p s s.length := fun j longer within => absurd within (by omega)
  obtain ⟨ends, fails⟩ := tries_spec (rest 0) s s.length le_rfl none_behind
  rw [Found, search, (increment_spec i).1 small]
  by_cases all : ∀ j, 0 < j → j ≤ s.length → FailBehind p s j → Safe 0 p (s.drop j)
  · obtain ⟨out, result, ending⟩ := ends all
    have same : Safe i (.star :: p) s ↔ (FailBehind p s 0 → Safe (i + 1) p s) :=
      ⟨fun safe => safe.2.2, fun behind => ⟨small, all, behind⟩⟩
    simp only [result, bind, Except.bind, pure, Except.pure]
    rw [same]
    cases ending with
    | nothing behind =>
      obtain ⟨inside, outside⟩ := rest (i + 1) s
      refine ⟨fun safe => ?_, fun unmet => outside fun safe => unmet fun _ => safe⟩
      obtain ⟨r, result, verdict⟩ := inside (safe behind)
      exact ⟨r, result, verdict_star behind verdict⟩
    | found j positive inside matched =>
      have some_behind : ¬ FailBehind p s 0 := fun fails => (fails j positive inside).1 matched
      refine ⟨fun _ => ⟨0, rfl, ?_⟩, fun unmet => absurd (absurd · some_behind) unmet⟩
      refine ⟨iff_of_true rfl ⟨j, matched⟩, iff_of_false (by omega) ?_⟩
      exact fun exhausted => (exhausted.1 j positive inside).1 matched
    | gaveUp j positive inside behind differs exhausted =>
      have some_behind : ¬ FailBehind p s 0 :=
        fun fails => (fails j positive inside).2 exhausted
      refine ⟨fun _ => ⟨_, rfl, verdict_none ?_ ?_⟩,
        fun unmet => absurd (absurd · some_behind) unmet⟩
      · exact not_matches_star behind differs exhausted
      · exact fun outer => (outer.1 j positive inside).2 exhausted
  · obtain ⟨fault, failed⟩ := fails all
    refine ⟨fun safe => absurd safe.2.1 all, fun _ => ⟨fault, ?_⟩⟩
    simp only [failed, bind, Except.bind]

/-- The search meets a fault exactly where it is not safe, and otherwise it finds what the pattern
matches where the closing bracket belongs to the set. -/
theorem search_spec (p : List Item) (i : Nat) (s : Text) : Found p i s := by
  induction p generalizing i s with
  | nil =>
    obtain ⟨small, large⟩ := increment_spec i
    refine ⟨fun safe => ⟨if s = [] then 0 else -1, ?_, ?_⟩, fun outside => ⟨.overflow, ?_⟩⟩
    · rw [search, small safe]
      rfl
    · by_cases empty : s = []
      · simp [Verdict, Matches, Exhausted, empty]
      · simp [Verdict, Matches, Exhausted, empty]
    · rw [search, large outside]
      rfl
  | cons item p ih =>
    by_cases small : i + 1 < 2 ^ 31
    · cases item with
      | star => exact found_star small ih
      | one o => exact found_one o small (ih (i + 1))
    · refine ⟨fun safe => absurd ?_ small, fun _ => ⟨.overflow, ?_⟩⟩
      · cases item <;> exact safe.1
      · cases item <;> rw [search, (increment_spec i).2 small] <;> rfl

theorem meets_iff_safe (pattern string : CString) :
    Meets pattern string ↔ Safe 0 (items pattern) string ∧
      (Matches codeAccepts (items pattern) string ↔ Matches docAccepts (items pattern) string) := by
  have run : glob (some pattern.array) (some string.array) = search 0 (items pattern) string :=
    globLoop_eq pattern.2 string.2 0
  obtain ⟨inside, outside⟩ := search_spec (items pattern) 0 string
  rw [Meets, run]
  by_cases safe : Safe 0 (items pattern) string
  · obtain ⟨r, result, verdict⟩ := inside safe
    rw [result, and_iff_right safe, ← verdict.1]
    exact ⟨fun ⟨q, same, holds⟩ => Except.ok.inj same ▸ holds, fun holds => ⟨r, rfl, holds⟩⟩
  · obtain ⟨fault, result⟩ := outside safe
    rw [result]
    exact iff_of_false (fun ⟨r, same, _⟩ => by cases same) fun both => safe both.1

/-! ### All strings of one pattern -/

def hasSet (p : List Item) : Prop := ∃ body, .one (.set body) ∈ p

/-- The parts that a call counts where the string has a character for each of them; the end of the
pattern is counted too. -/
def counted (p : List Item) : Nat := if .one .broken ∈ p then p.length else p.length + 1

/-- How many characters a pattern takes at least. -/
def ones : List Item → Nat
  | [] => 0
  | .star :: p => ones p
  | .one _ :: p => ones p + 1

theorem ones_append (p q : List Item) : ones (p ++ q) = ones p + ones q := by
  induction p with
  | nil => simp [ones]
  | cons item p ih =>
    cases item with
    | star => simpa [ones] using ih
    | one o =>
      rw [List.cons_append, ones, ones, ih]
      omega

theorem ones_le (accepts : One → UInt8 → Prop) (p : List Item) (s : Text) :
    (Matches accepts p s → ones p ≤ s.length) ∧ (Exhausted accepts p s → ones p ≤ s.length) := by
  induction p generalizing s with
  | nil => simp [ones]
  | cons item p ih =>
    cases item with
    | star =>
      refine ⟨fun ⟨k, matched⟩ => ?_, fun exhausted => (ih s).2 exhausted.2⟩
      have rest := (ih (s.drop k)).1 matched
      rw [List.length_drop] at rest
      rw [ones]
      omega
    | one o =>
      constructor
      · rintro ⟨x, t, rfl, -, matched⟩
        exact Nat.succ_le_succ ((ih t).1 matched)
      · rintro ⟨x, t, rfl, -, exhausted⟩
        exact Nat.succ_le_succ ((ih t).2 exhausted)

/-- A string too short for what is left of the pattern is no end of the search. -/
theorem failBehind_of_short {p : List Item} {s : Text} (long : s.length ≤ ones p) :
    FailBehind p s 0 := by
  intro j positive inside
  obtain ⟨matched, exhausted⟩ := ones_le codeAccepts p (s.drop j)
  rw [List.length_drop] at matched exhausted
  exact ⟨fun fits => absurd (matched fits) (by omega),
    fun fits => absurd (exhausted fits) (by omega)⟩

/-- Parts other than sets and broken ones. -/
def simple : Item → Prop
  | .star => True
  | .one .any => True
  | .one (.char x) => x ≠ 0
  | .one (.set _) => False
  | .one .broken => False

/-- The shortest string for such parts. -/
def shortest : List Item → Text
  | [] => []
  | .one (.char x) :: p => x :: shortest p
  | .one _ :: p => 1 :: shortest p
  | .star :: p => shortest p

theorem shortest_spec {p : List Item} (all : ∀ item ∈ p, simple item) :
    (shortest p).length = ones p ∧ (0 : UInt8) ∉ shortest p := by
  induction p with
  | nil => simp [shortest, ones]
  | cons item p ih =>
    obtain ⟨first, rest⟩ := List.forall_mem_cons.mp all
    obtain ⟨length, whole⟩ := ih rest
    cases item with
    | star => exact ⟨length, whole⟩
    | one o =>
      cases o with
      | any => simp [shortest, ones, length, whole]
      | char x => simp [shortest, ones, length, whole, Ne.symm first]
      | set body => exact absurd first id
      | broken => exact absurd first id

/-- On the shortest string the search comes to what is behind these parts. -/
theorem not_safe_behind {p q : List Item} {z : Text} {i : Nat} (all : ∀ item ∈ p, simple item)
    (short : z.length ≤ ones q) (outside : ¬ Safe (i + p.length) q z) :
    ¬ Safe i (p ++ q) (shortest p ++ z) := by
  induction p generalizing i with
  | nil => exact outside
  | cons item p ih =>
    obtain ⟨first, rest⟩ := List.forall_mem_cons.mp all
    have inner := ih (i := i + 1) rest (by rwa [List.length_cons, ← Nat.add_assoc,
      Nat.add_right_comm] at outside)
    have length := (shortest_spec rest).1
    cases item with
    | star =>
      have long : (shortest p ++ z).length ≤ ones (p ++ q) := by
        rw [List.length_append, length, ones_append]
        omega
      exact fun safe => inner (safe.2.2 (failBehind_of_short long))
    | one o =>
      cases o with
      | any => exact fun safe => inner (safe.2.2 1 _ rfl trivial)
      | char x => exact fun safe => inner (safe.2.2 x _ rfl rfl)
      | set body => exact absurd first id
      | broken => exact absurd first id

/-- The parts up to the first set, or to the end of the pattern. -/
theorem items_split {c : Text} (whole : (0 : UInt8) ∉ c) :
    ∃ p q, items c = p ++ q ∧ (∀ item ∈ p, simple item) ∧
      (q = [] ∨ q = [.one .broken] ∨ ∃ body r, q = .one (.set body) :: r) := by
  have more : ∀ (item : Item) {rest : Text}, simple item →
      (∃ p q, items rest = p ++ q ∧ (∀ item ∈ p, simple item) ∧
        (q = [] ∨ q = [.one .broken] ∨ ∃ body r, q = .one (.set body) :: r)) →
      ∃ p q, item :: items rest = p ++ q ∧ (∀ item ∈ p, simple item) ∧
        (q = [] ∨ q = [.one .broken] ∨ ∃ body r, q = .one (.set body) :: r) := by
    intro item rest first ⟨p, q, same, all, ends⟩
    have longer : item :: items rest = (item :: p) ++ q := by rw [same, List.cons_append]
    exact ⟨item :: p, q, longer, List.forall_mem_cons.mpr ⟨first, all⟩, ends⟩
  induction length : c.length using Nat.strong_induction_on generalizing c with
  | _ n ih =>
    subst length
    cases c with
    | nil => exact ⟨[], [], by simp [items], by simp, .inl rfl⟩
    | cons x c =>
      obtain ⟨nonzero, rest⟩ := List.ne_and_not_mem_of_not_mem_cons whole
      have next := ih c.length (by simp) rest rfl
      by_cases isQuestion : x = question
      · rw [isQuestion, items_question]
        exact more _ trivial next
      by_cases isBracket : x = openBracket
      · rw [isBracket]
        cases found : closing c with
        | none => exact ⟨[], _, items_open c found, by simp, .inr (.inl rfl)⟩
        | some n => exact ⟨[], _, items_set c found, by simp, .inr (.inr ⟨_, _, rfl⟩)⟩
      by_cases isStar : x = asterisk
      · rw [isStar, items_star]
        exact more _ trivial next
      by_cases isBackslash : x = backslash
      · rw [isBackslash]
        cases c with
        | nil => exact ⟨[], _, items_backslash, by simp, .inr (.inl rfl)⟩
        | cons y c =>
          obtain ⟨other, later⟩ := List.ne_and_not_mem_of_not_mem_cons rest
          rw [items_escaped]
          exact more _ other.symm (ih c.length (by simp) later rfl)
      · have plain := And.intro isQuestion (And.intro isBracket (And.intro isStar isBackslash))
        rw [items_char c plain]
        exact more _ nonzero.symm next

theorem counted_cons {item : Item} (p : List Item) (other : item ≠ .one .broken) :
    counted (item :: p) = counted p + 1 := by
  simp only [counted, List.mem_cons, List.length_cons, other.symm, false_or]
  split <;> rfl

/-- Without a set the search is safe as long as the parts can be counted. -/
theorem safe_of_counted {p : List Item} {i : Nat} (sets : ¬ hasSet p)
    (few : i + counted p < 2 ^ 31) (s : Text) : Safe i p s := by
  induction p generalizing i s with
  | nil => exact few
  | cons item p ih =>
    have rest : ¬ hasSet p := fun ⟨body, member⟩ => sets ⟨body, List.mem_cons_of_mem _ member⟩
    have one_more : 1 ≤ counted (item :: p) := by
      rw [counted]
      split <;> simp
    cases item with
    | star =>
      rw [counted_cons p (by simp)] at few
      exact ⟨by omega, fun k _ _ _ => ih rest (by omega) _, fun _ => ih rest (by omega) _⟩
    | one o =>
      have table : InTable o s.head? := by
        cases o with
        | set body => exact absurd ⟨body, List.mem_cons_self⟩ sets
        | any => trivial
        | char x => trivial
        | broken => trivial
      refine ⟨by omega, table, fun x t _ accepts => ih rest ?_ _⟩
      have other : Item.one o ≠ .one .broken := by
        intro same
        rw [Item.one.inj same] at accepts
        exact accepts
      rw [counted_cons p other] at few
      omega

theorem matches_congr {f g : One → UInt8 → Prop} {p : List Item}
    (same : ∀ o, Item.one o ∈ p → f o = g o) (s : Text) : Matches f p s ↔ Matches g p s := by
  induction p generalizing s with
  | nil => rfl
  | cons item p ih =>
    have rest := ih fun o member => same o (List.mem_cons_of_mem _ member)
    cases item with
    | star => exact exists_congr fun k => rest (s.drop k)
    | one o =>
      simp only [Matches, same o List.mem_cons_self, rest]

theorem meets_all_iff (pattern : CString) : (∀ string, Meets pattern string) ↔
    ¬ hasSet (items pattern) ∧ counted (items pattern) < 2 ^ 31 := by
  constructor
  · intro meets
    have safe : ∀ string : CString, Safe 0 (items pattern) string :=
      fun string => ((meets_iff_safe pattern string).mp (meets string)).1
    obtain ⟨p, q, parts, all, ends⟩ := items_split pattern.2
    have no_set : ∀ body, Item.one (.set body) ∉ p := fun body member => all _ member
    have no_broken : Item.one .broken ∉ p := fun member => all _ member
    have comes : ∀ z, (0 : UInt8) ∉ z → z.length ≤ ones q → Safe p.length q z := by
      intro z z_whole short
      by_contra outside
      have behind := not_safe_behind (i := 0) all short (by rwa [Nat.zero_add])
      have nonzero : (0 : UInt8) ∉ shortest p ++ z := by
        simp [(shortest_spec all).2, z_whole]
      exact behind (parts ▸ safe ⟨_, nonzero⟩)
    rw [parts]
    obtain rfl | rfl | ⟨body, r, rfl⟩ := ends
    · have last := comes [] (by simp) (by simp)
      refine ⟨fun ⟨body, member⟩ => no_set body (by simpa using member), ?_⟩
      have few : p.length + 1 < 2 ^ 31 := last
      simpa [counted, no_broken] using few
    · have last := comes [] (by simp) (by simp)
      refine ⟨fun ⟨body, member⟩ => no_set body (by simpa using member), ?_⟩
      simpa [counted] using last.1
    · have last := comes [128] (by decide) (by simp [ones])
      exact absurd (last.2.1.2 128 rfl) (by decide)
  · intro ⟨sets, few⟩ string
    refine (meets_iff_safe pattern string).mpr ⟨safe_of_counted sets (by omega) _, ?_⟩
    refine matches_congr (fun o member => ?_) _
    cases o with
    | set body => exact absurd ⟨body, member⟩ sets
    | any => rfl
    | char x => rfl
    | broken => rfl

/-- `glob` agrees with the documented meaning exactly where its tests stay in the table and the
closing brackets make no difference; it does so for all strings exactly where the pattern has no
set at all. -/
theorem meets_iff (pattern : CString) : (∀ string, Meets pattern string ↔
      Safe 0 (items pattern) string ∧
        (Matches codeAccepts (items pattern) string ↔
          Matches docAccepts (items pattern) string)) ∧
    ((∀ string, Meets pattern string) ↔
      ¬ hasSet (items pattern) ∧ counted (items pattern) < 2 ^ 31) :=
  ⟨meets_iff_safe pattern, meets_all_iff pattern⟩

/-! ### A closing bracket -/

/-- `[a]`. -/
def setOfA : CString := ⟨text ['[', 'a', ']'], by decide⟩

/-- `]`. -/
def bracket : CString := ⟨text [']'], by decide⟩

theorem bracket_matched : ¬ Meets setOfA bracket := by
  have parts : items setOfA = [.one (.set (text ['a']))] := by
    have split : items setOfA = _ := items_set (text ['a', ']']) (n := 1) (by decide)
    rw [split]
    simp [text, items]
  have code : Matches codeAccepts (items setOfA) bracket := by
    rw [parts]
    refine ⟨closeBracket, [], rfl, ⟨?_, by decide⟩, rfl⟩
    simp [text, negated, listed, ranges, inRange, closeBracket, caret, charValue]
  have documented : ¬ Matches docAccepts (items setOfA) bracket := by
    rw [parts]
    rintro ⟨x, t, whole, accepts, -⟩
    obtain ⟨rfl, -⟩ := List.cons.inj whole
    simp [docAccepts, text, negated, listed, ranges, caret] at accepts
  exact fun meets => documented (((meets_iff_safe _ _).mp meets).2.mp code)

end Libdap.Guarantees.Patterns
