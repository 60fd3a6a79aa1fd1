import Libdap.Source.HTTPCacheIndex
import Libdap.Guarantees.ErrorRoundTrip
import Libdap.Guarantees.HTTPCacheSize
import Libdap.Library.Buckets

/-!
# The index file gives the entries back

The extraction operators take the line apart at its white space, and the line has to fit
the buffer. Where an ETag has white space, or reads like the mark of an empty one, or a
line has more than 1023 characters, the table that is read differs from the one written.
-/
namespace Libdap.Guarantees.HTTPCacheIndex
open Libdap.Library
open Libdap.Source Libdap.Source.HTTPCacheTable Libdap.Source.HTTPCacheIndex
open ErrorText (cStr printInt isDigit digitsValue decimal)
open HTTPCacheTable HTTPCacheSize

/-! ## Extraction -/

theorem isDigit_of_space {c : Char} (space : isSpace c = true) : isDigit c = false := by
  unfold isSpace at space
  unfold isDigit
  rw [Bool.or_eq_true, Bool.and_eq_true, decide_eq_true_eq, decide_eq_true_eq,
    decide_eq_true_eq] at space
  rw [Bool.and_eq_false_iff]
  refine .inl (decide_eq_false ?_)
  rcases space with rfl | ⟨-, low⟩
  · decide
  · exact fun high => absurd (Char.le_trans high low) (by decide)

theorem isSpace_of_digit {c : Char} (digit : isDigit c = true) : isSpace c = false := by
  by_contra space
  rw [isDigit_of_space (Bool.eq_true_of_not_eq_false space)] at digit
  cases digit

def NoSpace (text : Chars) : Prop := ∀ c ∈ text, isSpace c = false

instance (text : Chars) : Decidable (NoSpace text) :=
  decidable_of_iff (text.all fun c => !isSpace c) (by simp [NoSpace])

theorem skip_space (text : Chars) :
    Stream.skip ⟨' ' :: text, false⟩ = Stream.skip ⟨text, false⟩ := by
  unfold Stream.skip
  rw [List.dropWhile_cons_of_pos (show isSpace ' ' = true from rfl)]

theorem skip_word {c : Char} {text : Chars} (dark : isSpace c = false) :
    Stream.skip ⟨c :: text, false⟩ = some (c :: text) := by
  unfold Stream.skip
  rw [List.dropWhile_cons_of_neg (by rw [dark]; decide)]
  rfl

theorem takeWhile_stop {p : Char → Bool} {word rest : Chars} {c : Char}
    (all : ∀ d ∈ word, p d = true) (stop : p c = false) :
    (word ++ c :: rest).takeWhile p = word := by
  rw [List.takeWhile_append_of_pos all, List.takeWhile_cons_of_neg (by rw [stop]; decide),
    List.append_nil]

theorem dropWhile_stop {p : Char → Bool} {word rest : Chars} {c : Char}
    (all : ∀ d ∈ word, p d = true) (stop : p c = false) :
    (word ++ c :: rest).dropWhile p = c :: rest := by
  rw [List.dropWhile_append_of_pos all, List.dropWhile_cons_of_neg (by rw [stop]; decide)]

/-- A word up to the white space behind it. -/
theorem getString_word {word rest old : Chars} {c : Char} (dark : NoSpace word)
    (nonempty : word ≠ []) (space : isSpace c = true) :
    Stream.getString ⟨word ++ c :: rest, false⟩ old = (word, ⟨c :: rest, false⟩) := by
  obtain ⟨d, tail, rfl⟩ := List.exists_cons_of_ne_nil nonempty
  have all : ∀ x ∈ d :: tail, (!isSpace x) = true := fun x member => by rw [dark x member]; rfl
  unfold Stream.getString
  rw [List.cons_append, skip_word (dark d List.mem_cons_self)]
  dsimp only
  rw [← List.cons_append, takeWhile_stop all (by rw [space]; rfl),
    dropWhile_stop all (by rw [space]; rfl)]

theorem getString_space (text old : Chars) :
    Stream.getString ⟨' ' :: text, false⟩ old = Stream.getString ⟨text, false⟩ old := by
  unfold Stream.getString
  rw [skip_space]

theorem sign_decimal (n : Nat) (text : Chars) :
    sign (decimal n ++ text) = (false, decimal n ++ text) := by
  obtain ⟨d, digits, shape⟩ := List.exists_cons_of_ne_nil (ErrorRoundTrip.decimal_ne_nil n)
  have digit := ErrorRoundTrip.decimal_digits n d (by rw [shape]; exact List.mem_cons_self)
  rw [shape]
  unfold sign
  split
  · next same =>
      cases same
      cases digit
  · next same =>
      cases same
      cases digit
  · rfl

theorem sign_printInt (x : Int) (text : Chars) :
    sign (printInt x ++ text) = (decide (x < 0), decimal x.natAbs ++ text) := by
  unfold printInt
  split
  · rename_i nonneg
    have same : x.toNat = x.natAbs := by omega
    rw [sign_decimal, same, decide_eq_false (by omega)]
  · rename_i negative
    rw [decide_eq_true (by omega)]
    rfl

theorem printInt_dark (x : Int) : NoSpace (printInt x) := by
  have digits : NoSpace (decimal x.natAbs) := fun c member =>
    isSpace_of_digit (ErrorRoundTrip.decimal_digits _ c member)
  unfold printInt
  split
  · rename_i nonneg
    have same : x.toNat = x.natAbs := by omega
    rw [same]
    exact digits
  · intro c member
    rcases List.mem_cons.mp member with rfl | member
    · rfl
    · exact digits c member

theorem printInt_ne_nil (x : Int) : printInt x ≠ [] := by
  unfold printInt
  split
  · exact ErrorRoundTrip.decimal_ne_nil _
  · exact List.cons_ne_nil _ _

/-- A printed number up to the white space behind it. -/
theorem getNumber_printInt {α : Type} {convert : Bool → Nat → α × Bool} {zero old value : α}
    {x : Int} {rest : Chars} {c : Char} (space : isSpace c = true)
    (converts : convert (decide (x < 0)) x.natAbs = (value, true)) :
    Stream.getNumber convert zero ⟨' ' :: (printInt x ++ c :: rest), false⟩ old =
      (value, ⟨c :: rest, false⟩) := by
  obtain ⟨d, tail, shape⟩ := List.exists_cons_of_ne_nil (printInt_ne_nil x)
  have dark : isSpace d = false := printInt_dark x d (by rw [shape]; exact List.mem_cons_self)
  have skipped : Stream.skip ⟨' ' :: (printInt x ++ c :: rest), false⟩ =
      some (printInt x ++ c :: rest) := by
    rw [skip_space, shape, List.cons_append, skip_word dark]
  have digits := ErrorRoundTrip.decimal_digits x.natAbs
  have stop := isDigit_of_space space
  unfold Stream.getNumber
  rw [skipped]
  dsimp only
  rw [sign_printInt]
  dsimp only
  rw [takeWhile_stop digits stop, dropWhile_stop digits stop,
    if_neg (ErrorRoundTrip.decimal_ne_nil _), ErrorRoundTrip.decimal_value, converts]

theorem signed_natAbs (x : Int) : signed (decide (x < 0)) x.natAbs = x := by
  unfold signed
  split
  · rename_i negative
    have := of_decide_eq_true negative
    omega
  · rename_i nonneg
    have : ¬ x < 0 := by simpa using nonneg
    omega

def InRange (bits : Nat) (x : Int) : Prop := -2 ^ (bits - 1) ≤ x ∧ x < 2 ^ (bits - 1)

instance (bits : Nat) (x : Int) : Decidable (InRange bits x) :=
  inferInstanceAs (Decidable (_ ∧ _))

theorem toSigned_printed {bits : Nat} {x : Int} (range : InRange bits x) :
    toSigned bits (decide (x < 0)) x.natAbs = (x, true) := by
  unfold toSigned
  rw [signed_natAbs, if_neg (not_lt.mpr range.1), if_neg (not_le.mpr range.2)]

theorem toUnsigned_printed {size : Nat} (range : size < 2 ^ 64) :
    toUnsigned (decide ((if size < 2 ^ 63 then (size : Int) else (size : Int) - 2 ^ 64) < 0))
      (if size < 2 ^ 63 then (size : Int) else (size : Int) - 2 ^ 64).natAbs = (size, true) := by
  unfold toUnsigned
  split
  · rename_i low
    rw [decide_eq_false (by omega), if_neg (by omega)]
    simp
  · rename_i high
    rw [decide_eq_true (by omega), if_neg (by omega), if_pos rfl]
    have value : (2 ^ 64 - ((size : Int) - 2 ^ 64).natAbs) % 2 ^ 64 = size := by omega
    rw [value]

theorem printBool_eq (b : Bool) : printBool b = printInt (if b then 1 else 0) := by
  cases b with
  | false => rfl
  | true => simp [printBool, printInt, decimal]

theorem toBool_printed (b : Bool) :
    toBool (decide ((if b then (1 : Int) else 0) < 0)) (if b then (1 : Int) else 0).natAbs =
      (b, true) := by
  cases b <;> rfl

/-! ## One line -/

/-- The ranges of the types of an entry's members. -/
structure Typed (e : CacheEntry) : Prop where
  lm : InRange 64 e.lm
  expires : InRange 64 e.expires
  size : e.size < 2 ^ 64
  hits : InRange 32 e.hits
  freshnessLifetime : InRange 64 e.freshnessLifetime
  responseTime : InRange 64 e.responseTime
  correctedInitialAge : InRange 64 e.correctedInitialAge

/-- An entry of `cache_response` whose URL and cache file name have no white space. -/
structure Made (e : CacheEntry) : Prop where
  typed : Typed e
  hash : e.hash = getHash e.url
  url : NoSpace e.url ∧ e.url ≠ []
  cachename : NoSpace e.cachename ∧ e.cachename ≠ []

def NoNull (text : Chars) : Prop := '\x00' ∉ text

/-- The entry's line gives it back: what is printed has no null character, the ETag is one
word that does not stand for an empty one, and the line fits the buffer. -/
structure Fits (e : CacheEntry) : Prop where
  url : NoNull e.url
  cachename : NoNull e.cachename
  etag : NoSpace e.etag ∧ NoNull e.etag ∧ e.etag ≠ cacheEmptyEtag
  line : (writeOneCacheEntry e).length ≤ 1023

/-- What the index keeps of an entry. -/
structure Saved where
  url : Chars
  cachename : Chars
  etag : Chars
  lm : Int
  expires : Int
  size : Nat
  hash : Int
  hits : Int
  freshnessLifetime : Int
  responseTime : Int
  correctedInitialAge : Int
  mustRevalidate : Bool
  deriving DecidableEq

def saved (e : CacheEntry) : Saved :=
  ⟨e.url, e.cachename, e.etag, e.lm, e.expires, e.size, e.hash, e.hits, e.freshnessLifetime,
    e.responseTime, e.correctedInitialAge, e.mustRevalidate⟩

theorem cStr_self {text : Chars} (clean : NoNull text) : cStr text = text := by
  apply List.takeWhile_eq_self_iff.mpr
  intro c member
  apply decide_eq_true
  rintro rfl
  exact clean member

theorem cStr_noNull (text : Chars) : NoNull (cStr text) := by
  intro member
  have := List.mem_takeWhile_imp member
  revert this
  decide

theorem printInt_noNull (x : Int) : NoNull (printInt x) := by
  have digits : NoNull (decimal x.natAbs) := fun member =>
    absurd (ErrorRoundTrip.decimal_digits _ _ member) (by decide)
  unfold printInt
  split
  · rename_i nonneg
    have same : x.toNat = x.natAbs := by omega
    rw [same]
    exact digits
  · intro member
    rcases List.mem_cons.mp member with bad | member
    · revert bad
      decide
    · exact digits member

theorem writtenEtag_noNull (e : CacheEntry) : NoNull (writtenEtag e) := by
  unfold writtenEtag
  split
  · unfold NoNull cacheEmptyEtag
    decide
  · exact cStr_noNull _

theorem entryText_noNull (e : CacheEntry) : NoNull (entryText e) := by
  have url := cStr_noNull e.url
  have cachename := cStr_noNull e.cachename
  have etag := writtenEtag_noNull e
  have number := printInt_noNull
  have bool : ∀ b, NoNull (printBool b) := fun b => by rw [printBool_eq]; exact number _
  have size : NoNull (printSize e.size) := number _
  have space : ('\x00' : Char) ≠ ' ' := by decide
  have back : ('\x00' : Char) ≠ '\r' := by decide
  unfold NoNull at *
  simp only [entryText, List.mem_append, List.mem_cons, List.not_mem_nil, not_or, url, cachename,
    etag, number, bool, size, space, back, not_false_eq_true, and_self]

section
variable {rest : Chars} {c : Char} (space : isSpace c = true)
include space

theorem getLong_printed {x : Int} (range : InRange 64 x) (old : Int) :
    Stream.getLong ⟨' ' :: (printInt x ++ c :: rest), false⟩ old = (x, ⟨c :: rest, false⟩) :=
  getNumber_printInt space (toSigned_printed range)

theorem getInt_printed {x : Int} (range : InRange 32 x) (old : Int) :
    Stream.getInt ⟨' ' :: (printInt x ++ c :: rest), false⟩ old = (x, ⟨c :: rest, false⟩) :=
  getNumber_printInt space (toSigned_printed range)

theorem getUnsigned_printed {size : Nat} (range : size < 2 ^ 64) (old : Nat) :
    Stream.getUnsigned ⟨' ' :: (printSize size ++ c :: rest), false⟩ old =
      (size, ⟨c :: rest, false⟩) :=
  getNumber_printInt space (toUnsigned_printed range)

theorem getBool_printed (b old : Bool) :
    Stream.getBool ⟨' ' :: (printBool b ++ c :: rest), false⟩ old = (b, ⟨c :: rest, false⟩) := by
  rw [printBool_eq]
  exact getNumber_printInt space (toBool_printed b)

end

theorem hash_range (url : Chars) : InRange 32 (getHash url) := by
  have small := getHash_lt url
  have size : cacheTableSize = 1499 := rfl
  unfold InRange
  omega

theorem writtenEtag_word {e : CacheEntry} (fits : Fits e) :
    NoSpace (writtenEtag e) ∧ writtenEtag e ≠ [] ∧
      (if writtenEtag e = cacheEmptyEtag then [] else writtenEtag e) = e.etag := by
  unfold writtenEtag
  split
  · rename_i empty
    rw [if_pos rfl, empty]
    decide
  · rename_i present
    rw [cStr_self fits.etag.2.1, if_neg fits.etag.2.2]
    exact ⟨fits.etag.1, present, rfl⟩

/-- The fields of a line that fits. -/
theorem parseLine_written {e : CacheEntry} (made : Made e) (fits : Fits e) (address : Nat) :
    saved (cacheIndexParseLine address (writeOneCacheEntry e)) = saved e := by
  have space : isSpace ' ' = true := rfl
  have back : isSpace '\r' = true := rfl
  have clean : NoNull (writeOneCacheEntry e) := by
    have text := entryText_noNull e
    unfold NoNull at *
    unfold writeOneCacheEntry
    rw [List.mem_append, not_or]
    exact ⟨text, by decide⟩
  have url : ∀ rest old, Stream.getString ⟨cStr e.url ++ ' ' :: rest, false⟩ old =
      (e.url, ⟨' ' :: rest, false⟩) := by
    intro rest old
    rw [cStr_self fits.url]
    exact getString_word made.url.1 made.url.2 space
  have cachename : ∀ rest old,
      Stream.getString ⟨' ' :: (cStr e.cachename ++ ' ' :: rest), false⟩ old =
        (e.cachename, ⟨' ' :: rest, false⟩) := by
    intro rest old
    rw [cStr_self fits.cachename, getString_space]
    exact getString_word made.cachename.1 made.cachename.2 space
  obtain ⟨dark, nonempty, reads⟩ := writtenEtag_word fits
  have etag : ∀ rest old,
      Stream.getString ⟨' ' :: (writtenEtag e ++ ' ' :: rest), false⟩ old =
        (writtenEtag e, ⟨' ' :: rest, false⟩) := by
    intro rest old
    rw [getString_space]
    exact getString_word dark nonempty space
  have hash : InRange 32 e.hash := by
    rw [made.hash]
    exact hash_range e.url
  have typed := made.typed
  unfold cacheIndexParseLine Stream.make
  rw [cStr_self clean]
  simp only [writeOneCacheEntry, entryText, List.append_assoc, List.cons_append, List.nil_append,
    url, cachename, etag, getLong_printed space typed.lm, getLong_printed space typed.expires,
    getUnsigned_printed space typed.size, getBool_printed space, getInt_printed space hash,
    getInt_printed space typed.hits, getLong_printed space typed.freshnessLifetime,
    getLong_printed space typed.responseTime, getLong_printed space typed.correctedInitialAge,
    getBool_printed back, reads, saved]

/-! ## The pieces of the file -/

theorem fgets_line {body rest : Chars} {n : Nat} (no_newline : '\n' ∉ body)
    (short : body.length < n) :
    fgets n (body ++ '\n' :: rest) = (body ++ ['\n'], rest) := by
  induction body generalizing n with
  | nil =>
    obtain ⟨n, rfl⟩ := Nat.exists_eq_succ_of_ne_zero (Nat.ne_of_gt short)
    rfl
  | cons c body ih =>
    obtain ⟨n, rfl⟩ := Nat.exists_eq_succ_of_ne_zero (Nat.ne_of_gt (Nat.zero_lt_of_lt short))
    have other : ¬ c = '\n' := fun same => no_newline (by rw [same]; exact List.mem_cons_self)
    rw [List.cons_append, fgets, if_neg other,
      ih (fun member => no_newline (List.mem_cons_of_mem _ member)) (Nat.lt_of_succ_lt_succ short)]
    rfl

theorem fgets_long {body rest : Chars} {n : Nat} (no_newline : '\n' ∉ body)
    (long : n ≤ body.length) :
    fgets n (body ++ rest) = (body.take n, body.drop n ++ rest) := by
  induction n generalizing body with
  | zero => rfl
  | succ n ih =>
    cases body with
    | nil => exact absurd long (Nat.not_succ_le_zero n)
    | cons c body =>
      have other : ¬ c = '\n' := fun same => no_newline (by rw [same]; exact List.mem_cons_self)
      rw [List.cons_append, fgets, if_neg other,
        ih (fun member => no_newline (List.mem_cons_of_mem _ member)) (Nat.le_of_succ_le_succ long)]
      rfl

theorem pieces_of_ne {text : Chars} (nonempty : text ≠ []) :
    pieces text = (fgets 1023 text).1 :: pieces (fgets 1023 text).2 := by
  obtain ⟨c, tail, rfl⟩ := List.exists_cons_of_ne_nil nonempty
  rw [pieces]

theorem pieces_line {body rest : Chars} (no_newline : '\n' ∉ body) (short : body.length < 1023) :
    pieces (body ++ '\n' :: rest) = (body ++ ['\n']) :: pieces rest := by
  rw [pieces_of_ne (by simp), fgets_line no_newline short]

/-- A line is at least one piece, and more than one where it does not fit the buffer. -/
theorem pieces_count {body : Chars} (rest : Chars) (no_newline : '\n' ∉ body) :
    (pieces rest).length < (pieces (body ++ '\n' :: rest)).length ∧
      (1023 ≤ body.length →
        (pieces rest).length + 1 < (pieces (body ++ '\n' :: rest)).length) := by
  induction size : body.length using Nat.strong_induction_on generalizing body with
  | h n ih =>
    by_cases short : body.length < 1023
    · rw [pieces_line no_newline short, List.length_cons]
      omega
    · have later := ih (body.drop 1023).length (by rw [List.length_drop]; omega)
        (fun member => no_newline (List.mem_of_mem_drop member)) rfl
      have first : pieces (body ++ '\n' :: rest) =
          body.take 1023 :: pieces (body.drop 1023 ++ '\n' :: rest) := by
        rw [pieces_of_ne (by simp), fgets_long no_newline (not_lt.mp short)]
      rw [first, List.length_cons]
      omega

theorem newline_of_dark {text : Chars} (dark : NoSpace text) : '\n' ∉ text := fun member =>
  absurd (dark _ member) (by decide)

theorem cStr_dark {text : Chars} (dark : NoSpace text) : NoSpace (cStr text) := fun c member =>
  dark c ((List.takeWhile_prefix _).subset member)

theorem entryText_newline {e : CacheEntry} (made : Made e) (etag : NoSpace e.etag) :
    '\n' ∉ entryText e := by
  have url := newline_of_dark (cStr_dark made.url.1)
  have cachename := newline_of_dark (cStr_dark made.cachename.1)
  have written : '\n' ∉ writtenEtag e := by
    unfold writtenEtag
    split
    · unfold cacheEmptyEtag
      decide
    · exact newline_of_dark (cStr_dark etag)
  have number := fun x => newline_of_dark (printInt_dark x)
  have bool : ∀ b, '\n' ∉ printBool b := fun b => by rw [printBool_eq]; exact number _
  have size : '\n' ∉ printSize e.size := number _
  have space : ('\n' : Char) ≠ ' ' := by decide
  have back : ('\n' : Char) ≠ '\r' := by decide
  simp only [entryText, List.mem_append, List.mem_cons, List.not_mem_nil, not_or, url, cachename,
    written, number, bool, size, space, back, not_false_eq_true, and_self]

theorem cacheIndexWrite_entries (t : Table) :
    cacheIndexWrite t = (entries t).flatMap writeOneCacheEntry := by
  unfold cacheIndexWrite entries
  induction t.slots with
  | nil => rfl
  | cons slot rest ih =>
    have here : (slot.flatMap fun p => (p.map writeOneCacheEntry).getD []) =
        (slot.filterMap id).flatMap writeOneCacheEntry := by
      induction slot with
      | nil => rfl
      | cons p slot ih' =>
        cases p with
        | none => simpa using ih'
        | some e => simpa using ih'
    rw [List.flatMap_cons, ih, here, List.flatten_cons, List.filterMap_append,
      List.flatMap_append]

theorem pieces_written {list : List CacheEntry} (made : ∀ e ∈ list, Made e)
    (fits : ∀ e ∈ list, Fits e) :
    pieces (list.flatMap writeOneCacheEntry) = list.map writeOneCacheEntry := by
  induction list with
  | nil => rw [List.flatMap_nil, pieces, List.map_nil]
  | cons e rest ih =>
    have fit := fits e List.mem_cons_self
    have line := fit.line
    have later := ih (fun e member => made e (List.mem_cons_of_mem _ member))
      fun e member => fits e (List.mem_cons_of_mem _ member)
    unfold writeOneCacheEntry at line
    rw [List.length_append] at line
    have split : (e :: rest).flatMap writeOneCacheEntry =
        entryText e ++ '\n' :: rest.flatMap writeOneCacheEntry := by
      simp [writeOneCacheEntry]
    rw [split, pieces_line (entryText_newline (made e List.mem_cons_self) fit.etag.1)
      (Nat.lt_of_succ_le line), later]
    rfl

/-- There are as many pieces as entries only if every line fits the buffer. -/
theorem pieces_exact {list : List CacheEntry} (made : ∀ e ∈ list, Made e)
    (etags : ∀ e ∈ list, NoSpace e.etag) :
    list.length ≤ (pieces (list.flatMap writeOneCacheEntry)).length ∧
      ((pieces (list.flatMap writeOneCacheEntry)).length = list.length →
        ∀ e ∈ list, (writeOneCacheEntry e).length ≤ 1023) := by
  induction list with
  | nil => exact ⟨Nat.zero_le _, fun _ _ member => nomatch member⟩
  | cons e rest ih =>
    obtain ⟨least, exact_fits⟩ := ih (fun e member => made e (List.mem_cons_of_mem _ member))
      fun e member => etags e (List.mem_cons_of_mem _ member)
    have split : (e :: rest).flatMap writeOneCacheEntry =
        entryText e ++ '\n' :: rest.flatMap writeOneCacheEntry := by
      simp [writeOneCacheEntry]
    obtain ⟨more, long⟩ := pieces_count (rest.flatMap writeOneCacheEntry)
      (entryText_newline (made e List.mem_cons_self) (etags e List.mem_cons_self))
    rw [split, List.length_cons]
    refine ⟨by omega, ?_⟩
    intro same other member
    rcases List.mem_cons.mp member with rfl | member
    · unfold writeOneCacheEntry
      rw [List.length_append]
      by_contra overlong
      have := long (by simpa using overlong)
      omega
    · exact exact_fits (by omega) other member

/-! ## The table that is read -/

/-- What the index keeps of the slots. -/
def view (t : Table) : List (List (Option Saved)) := t.slots.map (List.map (Option.map saved))

def slotOf (p : Option Saved) : Nat := (p.map fun s => getHash s.url).getD 0

structure SameIndex (t t' : Table) : Prop where
  slots : view t' = view t
  size : t'.currentSize = t.currentSize

def RoundTrips (t : Table) : Prop :=
  ∃ t', cacheIndexRead (cacheIndexWrite t) (Table.empty t.blockSize) = (.returned, t') ∧
    SameIndex t t'

theorem modify_map {α β : Type} (f : α → β) (g : α → α) (h : β → β)
    (same : ∀ a, f (g a) = h (f a)) (list : List α) (i : Nat) :
    (list.modify i g).map f = (list.map f).modify i h := by
  refine List.ext_getElem? fun j => ?_
  rw [List.getElem?_map, List.getElem?_modify, List.getElem?_modify, List.getElem?_map]
  cases list[j]? with
  | none => rfl
  | some a =>
    by_cases own : i = j
    · simp [own, same]
    · simp [own]

theorem view_withEntry (e : CacheEntry) (t : Table) :
    view (withEntry e t) = Buckets.insert slotOf (view t) (some (saved e)) :=
  modify_map _ _ _ (fun slot => by simp) _ _

/-- What is done when an entry was added or was not. -/
def readNext (address : Nat) (rest : List Chars) : Exit × Table → Exit × Table
  | (.returned, t) => readEntries (address + 1) rest t
  | (exit, t) => (exit, t)

theorem readEntries_added {address : Nat} {line : Chars} {rest : List Chars} {t t' : Table}
    (added : t.addEntry (cacheIndexParseLine address line) = (.returned, t')) :
    readEntries address (line :: rest) t = readEntries (address + 1) rest t' := by
  generalize same : cacheIndexParseLine address line = e at added
  change readNext address rest (t.addEntry (cacheIndexParseLine address line)) = _
  rw [same, added, readNext]

theorem readEntries_raised {address : Nat} {line : Chars} {rest : List Chars} {t t' : Table}
    (raised : t.addEntry (cacheIndexParseLine address line) = (.raised, t')) :
    readEntries address (line :: rest) t = (.raised, t') := by
  generalize same : cacheIndexParseLine address line = e at raised
  change readNext address rest (t.addEntry (cacheIndexParseLine address line)) = _
  simp only [same, raised, readNext]

/-- Reading the lines of entries adds what the index keeps of each. -/
theorem readEntries_written {list : List CacheEntry} (made : ∀ e ∈ list, Made e)
    (fits : ∀ e ∈ list, Fits e) (address : Nat) (t : Table) (bound : t.currentSize < 2 ^ 64) :
    ∃ t', readEntries address (list.map writeOneCacheEntry) t = (.returned, t') ∧
      view t' = Buckets.fill slotOf (view t) (list.map fun e => some (saved e)) ∧
      (t'.currentSize : Int) = (t.currentSize + total t.blockSize list) % 2 ^ 64 := by
  induction list generalizing address t with
  | nil =>
    refine ⟨t, rfl, rfl, ?_⟩
    simp only [total, List.map_nil, List.sum_nil]
    omega
  | cons e rest ih =>
    have same := parseLine_written (made e List.mem_cons_self) (fits e List.mem_cons_self) address
    generalize parsed_eq : cacheIndexParseLine address (writeOneCacheEntry e) = parsed at same
    have url : parsed.url = e.url := congrArg Saved.url same
    have hash : parsed.hash = getHash parsed.url := by
      rw [url, ← (made e List.mem_cons_self).hash]
      exact congrArg Saved.hash same
    have added := addEntry_eq hash t
    have size : ((withEntry parsed t).currentSize : Int) =
        (t.currentSize + space t.blockSize e) % 2 ^ 64 := by
      have same_size : parsed.size = e.size := congrArg Saved.size same
      unfold withEntry space
      rw [same_size]
      exact Int.toNat_of_nonneg (Int.emod_nonneg _ (by decide))
    have small : (withEntry parsed t).currentSize < 2 ^ 64 := by omega
    obtain ⟨t', reads, slots, sum⟩ := ih (fun e member => made e (List.mem_cons_of_mem _ member))
      (fun e member => fits e (List.mem_cons_of_mem _ member)) (address + 1)
      (withEntry parsed t) small
    refine ⟨t', ?_, ?_, ?_⟩
    · rw [List.map_cons, readEntries_added (by rw [parsed_eq, added])]
      exact reads
    · rw [slots, view_withEntry, same]
      rfl
    · have block : (withEntry parsed t).blockSize = t.blockSize := rfl
      rw [block] at sum
      rw [total_cons]
      omega

theorem view_empty (blockSize : Nat) :
    view (Table.empty blockSize) = List.replicate cacheTableSize [] := by
  simp [view, Table.empty]

/-- Every entry lies in the slot of its hash code, and there are no null pointers. -/
theorem view_placed {t : Table} (shape : Shape t) : Buckets.Placed slotOf (view t) := by
  intro i bucket found p member
  obtain ⟨slot, there, rfl⟩ := Option.map_eq_some_iff.mp (List.getElem?_map ▸ found)
  obtain ⟨q, inside, rfl⟩ := List.mem_map.mp member
  cases q with
  | none => exact absurd inside (shape.noNull slot (List.mem_of_getElem? there))
  | some e => exact (shape.placed i slot there e inside).symm

theorem view_slot {slot : Slot} (noNull : none ∉ slot) :
    slot.map (Option.map saved) = (slot.filterMap id).map fun e => some (saved e) := by
  induction slot with
  | nil => rfl
  | cons p slot ih =>
    rw [List.mem_cons, not_or] at noNull
    obtain ⟨e, rfl⟩ := Option.ne_none_iff_exists'.mp (Ne.symm noNull.1)
    rw [List.map_cons, ih noNull.2]
    rfl

theorem view_flatten {t : Table} (shape : Shape t) :
    (view t).flatten = (entries t).map fun e => some (saved e) := by
  unfold view entries
  have noNull := shape.noNull
  revert noNull
  induction t.slots with
  | nil => exact fun _ => rfl
  | cons slot rest ih =>
    intro noNull
    rw [List.map_cons, List.flatten_cons, List.flatten_cons, List.filterMap_append,
      List.map_append, view_slot (noNull slot List.mem_cons_self),
      ih fun s member => noNull s (List.mem_cons_of_mem _ member)]

theorem roundTrips_of_fits {t : Table} (sound : Sound t) (bound : t.currentSize < 2 ^ 64)
    (made : ∀ e ∈ entries t, Made e) (fits : ∀ e ∈ entries t, Fits e) : RoundTrips t := by
  obtain ⟨t', reads, slots, size⟩ :=
    readEntries_written made fits 0 (Table.empty t.blockSize) (by decide : 0 < 2 ^ 64)
  refine ⟨{ t' with newEntries := 0 }, ?_, ?_, ?_⟩
  · unfold cacheIndexRead
    rw [cacheIndexWrite_entries, pieces_written made fits, reads]
  · change view t' = view t
    have length : (view t).length = cacheTableSize :=
      (List.length_map ..).trans sound.shape.slots
    rw [slots, view_empty, ← view_flatten sound.shape, ← length]
    exact Buckets.fill_flatten slotOf (view_placed sound.shape)
  · change t'.currentSize = t.currentSize
    have empty : (Table.empty t.blockSize).currentSize = 0 := rfl
    have block : (Table.empty t.blockSize).blockSize = t.blockSize := rfl
    rw [empty, block, ← sound.size] at size
    omega

/-! ## What a reading can leave in the table -/

theorem skip_subset {s : Stream} {text : Chars} (skips : s.skip = some text) :
    text ⊆ s.rest := by
  unfold Stream.skip at skips
  split at skips
  · cases skips
  · split at skips
    · cases skips
    · rw [← Option.some.inj skips]
      exact (List.dropWhile_suffix _).subset

/-- A word that was read, and what is left of the stream. -/
theorem getString_clean {s : Stream} {old : Chars} (clean : NoNull s.rest)
    (before : NoSpace old ∧ NoNull old) :
    (NoSpace (s.getString old).1 ∧ NoNull (s.getString old).1) ∧
      NoNull (s.getString old).2.rest := by
  unfold Stream.getString
  split
  · exact ⟨before, List.not_mem_nil⟩
  · next text skips =>
      have inside := skip_subset skips
      refine ⟨⟨?_, ?_⟩, ?_⟩
      · intro c member
        have dark := List.mem_takeWhile_imp member
        simpa using dark
      · exact fun member => clean (inside ((List.takeWhile_prefix _).subset member))
      · exact fun member => clean (inside ((List.dropWhile_suffix _).subset member))

/-- No ETag with white space is ever read. -/
theorem parseLine_clean (address : Nat) (line : Chars) :
    let e := cacheIndexParseLine address line
    NoNull e.url ∧ NoNull e.cachename ∧
      (NoSpace e.etag ∧ NoNull e.etag ∧ e.etag ≠ cacheEmptyEtag) := by
  have blank : NoSpace [] ∧ NoNull [] := ⟨(fun _ member => nomatch member), List.not_mem_nil⟩
  have start : NoNull (Stream.make line).rest := cStr_noNull line
  obtain ⟨url, after_url⟩ := getString_clean start blank
  obtain ⟨cachename, after_cachename⟩ := getString_clean after_url blank
  obtain ⟨etag, -⟩ := getString_clean after_cachename blank
  refine ⟨url.2, cachename.2, ?_⟩
  change NoSpace (if _ = cacheEmptyEtag then _ else _) ∧
    NoNull (if _ = cacheEmptyEtag then _ else _) ∧
    (if _ = cacheEmptyEtag then _ else _) ≠ cacheEmptyEtag
  split
  · exact ⟨blank.1, blank.2, by unfold cacheEmptyEtag; decide⟩
  · next other => exact ⟨etag.1, etag.2, other⟩

theorem addEntry_cases {t : Table} (slots : t.slots.length = cacheTableSize) (e : CacheEntry) :
    t.addEntry e = (.raised, t) ∨
      ∃ t', t.addEntry e = (.returned, t') ∧ t'.slots.length = cacheTableSize ∧
        (entries t').Perm (e :: entries t) := by
  unfold Table.addEntry
  split
  · exact .inl rfl
  · rename_i inside
    have low : e.hash.toNat < t.slots.length := by omega
    refine .inr ⟨_, rfl, (List.length_modify ..).trans slots, ?_⟩
    exact (flatten_modify low (some e)).filterMap id

/-- What was read is one entry for each piece. -/
theorem readEntries_entries {lines : List Chars} {address : Nat} {t t' : Table}
    (slots : t.slots.length = cacheTableSize)
    (reads : readEntries address lines t = (.returned, t')) :
    (entries t').length = (entries t).length + lines.length ∧
      ∀ e ∈ entries t', e ∈ entries t ∨ ∃ a line, e = cacheIndexParseLine a line := by
  induction lines generalizing address t with
  | nil =>
    obtain rfl : t = t' := congrArg Prod.snd reads
    exact ⟨rfl, fun e member => .inl member⟩
  | cons line rest ih =>
    rcases addEntry_cases slots (cacheIndexParseLine address line) with
      raised | ⟨t₁, added, slots₁, perm⟩
    · rw [readEntries_raised raised] at reads
      cases reads
    · rw [readEntries_added added] at reads
      obtain ⟨count, from_lines⟩ := ih slots₁ reads
      rw [perm.length_eq, List.length_cons] at count
      refine ⟨by rw [count, List.length_cons]; omega, ?_⟩
      intro e member
      rcases from_lines e member with old | parsed
      · rcases List.mem_cons.mp (perm.mem_iff.mp old) with rfl | older
        · exact .inr ⟨address, line, rfl⟩
        · exact .inl older
      · exact .inr parsed

theorem mem_view {t : Table} {e : CacheEntry} (member : e ∈ entries t) :
    some (saved e) ∈ (view t).flatten := by
  obtain ⟨slot, inside, found⟩ := mem_entries.mp member
  refine List.mem_flatten.mpr ⟨_, List.mem_map_of_mem inside, ?_⟩
  exact List.mem_map_of_mem found

theorem exists_of_mem_view {t : Table} {kept : Saved} (member : some kept ∈ (view t).flatten) :
    ∃ e ∈ entries t, saved e = kept := by
  obtain ⟨bucket, inside, found⟩ := List.mem_flatten.mp member
  obtain ⟨slot, there, rfl⟩ := List.mem_map.mp inside
  obtain ⟨p, pointer, same⟩ := List.mem_map.mp found
  obtain ⟨e, rfl, same⟩ := Option.map_eq_some_iff.mp same
  exact ⟨e, mem_entries.mpr ⟨slot, there, pointer⟩, Option.some.inj same⟩

theorem view_count (t : Table) :
    ((view t).flatten.filterMap id).length = (entries t).length := by
  have maps : (view t).flatten.filterMap id = (entries t).map saved := by
    unfold view entries
    rw [← List.map_flatten, List.filterMap_map, List.map_filterMap]
    rfl
  rw [maps, List.length_map]

theorem fits_of_roundTrips {t : Table} (made : ∀ e ∈ entries t, Made e) (trips : RoundTrips t) :
    ∀ e ∈ entries t, Fits e := by
  obtain ⟨t', reads, same⟩ := trips
  have reads_all : ∃ t₁, readEntries 0 (pieces (cacheIndexWrite t)) (Table.empty t.blockSize) =
      (.returned, t₁) ∧ view t₁ = view t := by
    unfold cacheIndexRead at reads
    split at reads
    · next t₁ all =>
        refine ⟨t₁, all, ?_⟩
        have last : { t₁ with newEntries := 0 } = t' := congrArg Prod.snd reads
        rw [← same.slots, ← last]
        rfl
    · next stops all =>
        obtain rfl := congrArg Prod.fst reads
        exact (stops rfl).elim
  obtain ⟨t₁, all, views⟩ := reads_all
  obtain ⟨count, from_lines⟩ := readEntries_entries List.length_replicate all
  rw [HTTPCacheLocks.entries_empty] at count from_lines
  have clean : ∀ e ∈ entries t, NoNull e.url ∧ NoNull e.cachename ∧
      (NoSpace e.etag ∧ NoNull e.etag ∧ e.etag ≠ cacheEmptyEtag) := by
    intro e member
    obtain ⟨read, inside, kept⟩ := exists_of_mem_view (views ▸ mem_view member)
    rcases from_lines read inside with none | ⟨a, line, rfl⟩
    · cases none
    · have parsed := parseLine_clean a line
      have url : _ = e.url := congrArg Saved.url kept
      have cachename : _ = e.cachename := congrArg Saved.cachename kept
      have etag : _ = e.etag := congrArg Saved.etag kept
      rw [← url, ← cachename, ← etag]
      exact parsed
  have lines : (pieces (cacheIndexWrite t)).length = (entries t).length := by
    rw [← view_count t, ← views, view_count, count]
    simp
  have short := pieces_exact made fun e member => (clean e member).2.2.1
  rw [← cacheIndexWrite_entries] at short
  intro e member
  exact ⟨(clean e member).1, (clean e member).2.1, (clean e member).2.2, short.2 lines e member⟩

/-- The table comes back exactly if the line of each of its entries does. -/
theorem indexRoundTrips_iff {t : Table} (sound : Sound t) (bound : t.currentSize < 2 ^ 64)
    (made : ∀ e ∈ entries t, Made e) : RoundTrips t ↔ ∀ e ∈ entries t, Fits e :=
  ⟨fits_of_roundTrips made, roundTrips_of_fits sound bound made⟩

/-! One response is cached, with an ETag and without other headers. -/

def tagging (etag : Chars) : HTTPCache.Call :=
  .cacheResponse HTTPCacheLocks.page 0 ["ETag: ".toList ++ etag] 10 ['f'] 0 .works

def tagged (etag : Chars) : HTTPCache.State :=
  (HTTPCache.State.empty 4096).step HTTPCacheLocks.quietly (tagging etag)

def taggedEntry (etag : Chars) : CacheEntry :=
  { CacheEntry.make 0 HTTPCacheLocks.page with
    cachename := ['f'], etag, size := 10, freshnessLifetime := 86400, correctedInitialAge := 1 }

theorem tagged_sound {etag : Chars} (awake : (tagged etag).hung = false) :
    Sound (tagged etag).table := by
  have fits : HTTPCacheSize.Fits (Table.empty 4096) (tagging etag) := by
    refine ⟨by unfold HTTPCacheSize.Small; decide, ?_⟩
    rw [HTTPCacheLocks.entries_empty]
    decide
  have each := table_sound HTTPCacheLocks.quietly (by decide : 0 < 4096) [tagging etag]
    ⟨⟨trivial, rfl, fits⟩, trivial⟩
  exact each.1 awake

theorem taggedEntry_made (etag : Chars) : Made (taggedEntry etag) where
  typed :=
    ⟨(by decide : InRange 64 (-1)), (by decide : InRange 64 (-1)), (by decide : 10 < 2 ^ 64),
      (by decide : InRange 32 0), (by decide : InRange 64 86400), (by decide : InRange 64 0),
      (by decide : InRange 64 1)⟩
  hash := rfl
  url := by
    change NoSpace HTTPCacheLocks.page ∧ HTTPCacheLocks.page ≠ []
    decide
  cachename := by
    change NoSpace ['f'] ∧ ['f'] ≠ []
    decide

theorem tagged_entries : entries (tagged ['a', ' ', 'b']).table = [taggedEntry ['a', ' ', 'b']] ∧
    entries (tagged ['a', 'b']).table = [taggedEntry ['a', 'b']] := by
  decide +kernel

theorem indexRoundTrips_iff_tagged : RoundTrips (tagged ['a', 'b']).table ↔
    ∀ e ∈ entries (tagged ['a', 'b']).table, Fits e := by
  apply indexRoundTrips_iff (tagged_sound (by decide +kernel)) (by decide +kernel)
  rw [tagged_entries.2]
  intro e member
  obtain rfl := List.mem_singleton.mp member
  exact taggedEntry_made _

/-- The ETag is cut at its space, and the rest of it is taken for the next field. -/
theorem indexRoundTrips_fails : Sound (tagged ['a', ' ', 'b']).table ∧
    (∀ e ∈ entries (tagged ['a', ' ', 'b']).table, Made e) ∧
    ¬ RoundTrips (tagged ['a', ' ', 'b']).table := by
  have sound := tagged_sound (show (tagged ['a', ' ', 'b']).hung = false by decide +kernel)
  have made : ∀ e ∈ entries (tagged ['a', ' ', 'b']).table, Made e := by
    rw [tagged_entries.1]
    intro e member
    obtain rfl := List.mem_singleton.mp member
    exact taggedEntry_made _
  refine ⟨sound, made, fun trips => ?_⟩
  have fits : Fits (taggedEntry ['a', ' ', 'b']) := by
    apply fits_of_roundTrips made trips _
    rw [tagged_entries.1]
    exact List.mem_singleton_self _
  exact absurd (fits.etag.1 ' ' (by decide : ' ' ∈ ['a', ' ', 'b'])) (by decide)

end Libdap.Guarantees.HTTPCacheIndex
