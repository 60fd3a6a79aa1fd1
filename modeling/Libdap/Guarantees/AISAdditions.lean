import Libdap.Library.Gathering
import Libdap.Source.AISResources

/-!
# The database of ancillary resources holds what was added

A database is asked after any additions, in any order. A URL has the resources that were added
for it, in order, behind those of the regular expression that was added first of those that
match it.
-/
namespace Libdap.Guarantees.AISAdditions
open Libdap.Source Libdap.Source.AIS Libdap.Library.Gathering
open Libdap.Source.HTTPCacheTable (Chars)
open Libdap.Source.DDXParserSAX2 (mapInsert)
open Libdap.Source.ErrorText (cStr)

/-- What is added for a URL or for a regular expression. -/
structure Addition where
  regexp : Bool
  primary : Chars
  rv : List Resource
  deriving DecidableEq, Repr

def add (ais : AISResources) (a : Addition) : AISResources :=
  if a.regexp then ais.addRegexpResource a.primary a.rv else ais.addUrlResource a.primary a.rv

def addAll (ais : AISResources) (additions : List Addition) : AISResources :=
  additions.foldl add ais

def Addition.key (a : Addition) : Bool × Chars := (a.regexp, a.primary)

def find (ais : AISResources) (k : Bool × Chars) : Option (List Resource) :=
  if k.1 then ais.re.lookup k.2 else ais.db.lookup k.2

/-- All that was added for a URL. -/
def ofUrl (url : Chars) (additions : List Addition) : List Resource :=
  gathered Addition.key Addition.rv (false, url) additions

def ofRegexp (re : Chars) (additions : List Addition) : List Resource :=
  gathered Addition.key Addition.rv (true, re) additions

/-! ## The two tables -/

section
variable {primary k : Chars} {rv : List Resource} {entries : List Entry}

theorem lookup_first (e : Entry) (rest : List Entry) (k : Chars) :
    (e :: rest).lookup k = if e.1 = k then some e.2 else rest.lookup k := by
  rw [List.lookup_cons]
  by_cases same : e.1 = k
  · rw [if_pos same, beq_iff_eq.mpr same.symm]
  · rw [if_neg same, beq_false_of_ne (Ne.symm same)]

theorem lookup_append (there : (entries.lookup primary).isSome) (k : Chars) :
    (append primary rv entries).lookup k =
      if primary = k then some ((entries.lookup primary).getD [] ++ rv) else entries.lookup k := by
  induction entries with
  | nil => simp at there
  | cons e rest ih =>
    rw [lookup_first] at there
    rw [append, lookup_first, lookup_first]
    by_cases here : e.1 = primary
    · rw [if_pos here, if_pos here, lookup_first, here]
      split_ifs <;> rfl
    · rw [if_neg here] at there
      rw [if_neg here, if_neg here, lookup_first, ih there]
      by_cases first : e.1 = k
      · have other : primary ≠ k := fun same => here (first.trans same.symm)
        rw [if_pos first, if_pos first, if_neg other]
      · rw [if_neg first, if_neg first]

/-- A primary that is not there is neither the first nor behind it. -/
theorem absent_cons {e : Entry} {rest : List Entry}
    (absent : (e :: rest).lookup primary = none) :
    e.1 ≠ primary ∧ rest.lookup primary = none := by
  rw [lookup_first] at absent
  by_cases here : e.1 = primary
  · rw [if_pos here] at absent
    cases absent
  · rw [if_neg here] at absent
    exact ⟨here, absent⟩

theorem lookup_mapInsert (absent : entries.lookup primary = none) (k : Chars) :
    (mapInsert primary rv entries).lookup k =
      if primary = k then some rv else entries.lookup k := by
  induction entries with
  | nil => exact lookup_first (primary, rv) [] k
  | cons e rest ih =>
    obtain ⟨other, behind⟩ := absent_cons absent
    rw [mapInsert, if_neg (Ne.symm other)]
    by_cases before : primary < e.1
    · rw [if_pos before]
      exact lookup_first (primary, rv) (e :: rest) k
    · rw [if_neg before, lookup_first, lookup_first, ih behind]
      by_cases first : e.1 = k
      · have distinct : primary ≠ k := fun same => other (first.trans same.symm)
        rw [if_pos first, if_pos first, if_neg distinct]
      · rw [if_neg first, if_neg first]

theorem lookup_push (absent : entries.lookup primary = none) (k : Chars) :
    (entries ++ [(primary, rv)]).lookup k =
      if primary = k then some rv else entries.lookup k := by
  induction entries with
  | nil => exact lookup_first (primary, rv) [] k
  | cons e rest ih =>
    obtain ⟨other, behind⟩ := absent_cons absent
    rw [List.cons_append, lookup_first, lookup_first, ih behind]
    by_cases first : e.1 = k
    · have distinct : primary ≠ k := fun same => other (first.trans same.symm)
      rw [if_pos first, if_pos first, if_neg distinct]
    · rw [if_neg first, if_neg first]

end

theorem lookup_addUrl (ais : AISResources) (url : Chars) (rv : List Resource) (k : Chars) :
    (ais.addUrlResource url rv).db.lookup k =
      if url = k then some ((ais.db.lookup url).getD [] ++ rv) else ais.db.lookup k := by
  rw [AISResources.addUrlResource]
  cases there : ais.db.lookup url with
  | none => exact lookup_mapInsert there k
  | some old =>
    have found : (ais.db.lookup url).isSome := there ▸ rfl
    exact (lookup_append found k).trans (by rw [there])

theorem lookup_addRegexp (ais : AISResources) (re : Chars) (rv : List Resource) (k : Chars) :
    (ais.addRegexpResource re rv).re.lookup k =
      if re = k then some ((ais.re.lookup re).getD [] ++ rv) else ais.re.lookup k := by
  rw [AISResources.addRegexpResource]
  cases there : ais.re.lookup re with
  | none => exact lookup_push there k
  | some old =>
    have found : (ais.re.lookup re).isSome := there ▸ rfl
    exact (lookup_append found k).trans (by rw [there])

theorem gathers : Gathers Addition.key Addition.rv find add := by
  rintro ais ⟨regexp, primary, rv⟩ ⟨isRegexp, k⟩
  cases regexp <;> cases isRegexp
  · simpa [find, add, Addition.key] using lookup_addUrl ais primary rv k
  · simp [find, add, Addition.key, AISResources.addUrlResource]
  · simp [find, add, Addition.key, AISResources.addRegexpResource]
  · simpa [find, add, Addition.key] using lookup_addRegexp ais primary rv k

/-- What the database has under a URL after any additions. -/
theorem db_values (additions : List Addition) (url : Chars) :
    ((addAll AISResources.empty additions).db.lookup url).getD [] = ofUrl url additions :=
  gathers.values AISResources.empty additions (false, url)

theorem re_values (additions : List Addition) (re : Chars) :
    ((addAll AISResources.empty additions).re.lookup re).getD [] = ofRegexp re additions :=
  gathers.values AISResources.empty additions (true, re)

/-! ## The search -/

section
variable (regcomp : Chars → Except Chars (Chars → Bool)) (url : Chars)

/-- The first of some regular expressions that matches. -/
def firstMatch : List Chars → Except Failure (Option Chars)
  | [] => .ok none
  | re :: rest =>
    match regcomp (cStr re) with
    | .error msg => .error (.error .unknownError ("Regex error: " ++ String.ofList msg))
    | .ok regexec => if regexMatch regexec url then .ok (some re) else firstMatch rest

variable {regcomp url}

theorem firstMatch_append (first second : List Chars) :
    firstMatch regcomp url (first ++ second) =
      firstMatch regcomp url first >>= fun found =>
        if found.isSome then pure found else firstMatch regcomp url second := by
  induction first with
  | nil => rfl
  | cons re rest ih =>
    rw [List.cons_append, firstMatch, firstMatch]
    cases regcomp (cStr re) with
    | error msg => rfl
    | ok regexec =>
      cases matched : regexMatch regexec url with
      | true => simp only [matched]; rfl
      | false =>
        simp only [matched, Bool.false_eq_true, if_false]
        exact ih

/-- A regular expression that matches none of the first times does not match later. -/
theorem firstMatch_miss {patterns : List Chars} {re : Chars} (there : re ∈ patterns)
    (missed : firstMatch regcomp url patterns = .ok none) :
    firstMatch regcomp url [re] = .ok none := by
  induction patterns with
  | nil => cases there
  | cons p rest ih =>
    rw [firstMatch] at missed
    cases compiled : regcomp (cStr p) with
    | error msg => simp only [compiled] at missed; cases missed
    | ok regexec =>
      simp only [compiled] at missed
      by_cases matched : regexMatch regexec url = true
      · rw [if_pos matched] at missed
        cases missed
      · rw [if_neg matched] at missed
        obtain rfl | later := List.mem_cons.mp there
        · simp only [firstMatch, compiled, if_neg matched]
        · exact ih later missed

theorem firstMatch_found {patterns : List Chars} {re : Chars}
    (found : firstMatch regcomp url patterns = .ok (some re)) :
    firstMatch regcomp url [re] = .ok (some re) := by
  induction patterns with
  | nil => cases found
  | cons p rest ih =>
    rw [firstMatch] at found
    cases compiled : regcomp (cStr p) with
    | error msg => simp only [compiled] at found; cases found
    | ok regexec =>
      simp only [compiled] at found
      by_cases matched : regexMatch regexec url = true
      · rw [if_pos matched] at found
        cases found
        simp only [firstMatch, compiled, if_pos matched]
      · rw [if_neg matched] at found
        exact ih found

/-- A regular expression that is there already changes no search. -/
theorem firstMatch_again {patterns : List Chars} {re : Chars} (there : re ∈ patterns) :
    firstMatch regcomp url (patterns ++ [re]) = firstMatch regcomp url patterns := by
  rw [firstMatch_append]
  cases searched : firstMatch regcomp url patterns with
  | error failure => rfl
  | ok found =>
    cases found with
    | some p => rfl
    | none => exact firstMatch_miss there searched

/-- The entry that is found is the one of the first regular expression that matches. -/
theorem matchRegexp_eq (entries : List Entry) :
    matchRegexp regcomp url entries =
      firstMatch regcomp url (entries.map Prod.fst) >>= fun found =>
        pure (found.map fun re => (re, (entries.lookup re).getD [])) := by
  induction entries with
  | nil => rfl
  | cons e rest ih =>
    rw [List.map_cons, matchRegexp, firstMatch]
    cases compiled : regcomp (cStr e.1) with
    | error msg => rfl
    | ok regexec =>
      by_cases matched : regexMatch regexec url = true
      · simp only [if_pos matched]
        change _ = Except.ok (some (e.1, ((e :: rest).lookup e.1).getD []))
        rw [lookup_first, if_pos rfl]
        rfl
      · simp only [if_neg matched]
        rw [ih]
        cases searched : firstMatch regcomp url (rest.map Prod.fst) with
        | error failure => rfl
        | ok found =>
          cases found with
          | none => rfl
          | some re =>
            have other : e.1 ≠ re := by
              rintro rfl
              have again := firstMatch_found searched
              simp only [firstMatch, compiled, if_neg matched] at again
              cases again
            change Except.ok (some (re, _)) = Except.ok (some (re, _))
            rw [lookup_first, if_neg other]

end

/-- The regular expressions of some additions. -/
def patterns (additions : List Addition) : List Chars :=
  (additions.filter Addition.regexp).map Addition.primary

theorem append_keys (primary : Chars) (rv : List Resource) (entries : List Entry) :
    (append primary rv entries).map Prod.fst = entries.map Prod.fst := by
  induction entries with
  | nil => rfl
  | cons e rest ih =>
    rw [append]
    split_ifs
    · rfl
    · rw [List.map_cons, ih, List.map_cons]

theorem addAll_append (ais : AISResources) (additions : List Addition) (a : Addition) :
    addAll ais (additions ++ [a]) = add (addAll ais additions) a := by
  rw [addAll, addAll, List.foldl_append]
  rfl

theorem mem_patterns {additions : List Addition} {re : Chars} :
    re ∈ patterns additions ↔ ∃ a ∈ additions, a.key = (true, re) := by
  simp only [patterns, List.mem_map, List.mem_filter, Addition.key, Prod.mk.injEq, and_assoc]

theorem addRegexp_keys (ais : AISResources) (re : Chars) (rv : List Resource) :
    (ais.addRegexpResource re rv).re.map Prod.fst =
      if (ais.re.lookup re).isSome then ais.re.map Prod.fst else ais.re.map Prod.fst ++ [re] := by
  rw [AISResources.addRegexpResource]
  cases there : ais.re.lookup re with
  | none => exact List.map_append
  | some old => exact append_keys re rv ais.re

/-- A search goes through the regular expressions as they were added. -/
theorem firstMatch_re (regcomp : Chars → Except Chars (Chars → Bool)) (url : Chars)
    (additions : List Addition) :
    firstMatch regcomp url ((addAll AISResources.empty additions).re.map Prod.fst) =
      firstMatch regcomp url (patterns additions) := by
  induction additions using List.reverseRecOn with
  | nil => rfl
  | append_singleton additions a ih =>
    rw [addAll_append, add]
    cases kind : a.regexp with
    | false =>
      have same : patterns (additions ++ [a]) = patterns additions := by
        simp [patterns, kind]
      rw [same]
      exact ih
    | true =>
      have more : patterns (additions ++ [a]) = patterns additions ++ [a.primary] := by
        simp [patterns, kind]
      have is_there : ((addAll AISResources.empty additions).re.lookup a.primary).isSome ↔
          a.primary ∈ patterns additions := by
        rw [mem_patterns]
        exact (gathers.isSome AISResources.empty additions (true, a.primary)).trans
          (or_iff_right Bool.false_ne_true)
      rw [if_pos rfl, addRegexp_keys, more]
      by_cases there : a.primary ∈ patterns additions
      · rw [if_pos (is_there.mpr there), firstMatch_again there]
        exact ih
      · rw [if_neg (fun found => there (is_there.mp found)), firstMatch_append, firstMatch_append,
          ih]

/-! ## The answers -/

theorem matchRegexp_added (regcomp : Chars → Except Chars (Chars → Bool)) (url : Chars)
    (additions : List Addition) :
    matchRegexp regcomp url (addAll AISResources.empty additions).re =
      firstMatch regcomp url (patterns additions) >>= fun found =>
        pure (found.map fun re => (re, ofRegexp re additions)) := by
  rw [matchRegexp_eq, firstMatch_re]
  simp only [re_values]

/-- What a database gives for a URL, and whether it has something, after any additions. -/
theorem resources_of_additions (regcomp : Chars → Except Chars (Chars → Bool)) (url : Chars)
    (additions : List Addition) :
    ((addAll AISResources.empty additions).getResource regcomp url =
      firstMatch regcomp url (patterns additions) >>= fun found =>
        let rv := (found.map fun re => ofRegexp re additions).getD [] ++ ofUrl url additions
        if rv = [] then .error AISResources.noSuchPrimaryResource else .ok rv) ∧
    ((addAll AISResources.empty additions).hasResource regcomp url =
      if (false, url) ∈ additions.map Addition.key then .ok true
      else firstMatch regcomp url (patterns additions) >>= fun found => pure found.isSome) := by
  constructor
  · rw [AISResources.getResource, matchRegexp_added, db_values]
    cases firstMatch regcomp url (patterns additions) with
    | error failure => rfl
    | ok found =>
      cases found with
      | none => rfl
      | some re => rfl
  · have known : ((addAll AISResources.empty additions).db.lookup url).isSome ↔
        (false, url) ∈ additions.map Addition.key := by
      rw [List.mem_map]
      exact (gathers.isSome AISResources.empty additions (false, url)).trans
        (or_iff_right Bool.false_ne_true)
    rw [AISResources.hasResource, matchRegexp_added]
    by_cases there : (false, url) ∈ additions.map Addition.key
    · rw [if_pos there, if_pos (known.mpr there)]
    · rw [if_neg there, if_neg (fun found => there (known.mp found))]
      cases firstMatch regcomp url (patterns additions) with
      | error failure => rfl
      | ok found =>
        cases found with
        | none => rfl
        | some re => rfl

end Libdap.Guarantees.AISAdditions
