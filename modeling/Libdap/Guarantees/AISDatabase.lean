import Libdap.Guarantees.AISAdditions
import Libdap.Source.AISDatabaseParser
import Mathlib.Data.Char
import Mathlib.Data.List.Lex
import Mathlib.Data.List.Sort

/-!
# Reading a database that was written

Reading what `write_database` wrote makes all additions again that the database was made by. The
text is written as markup of which the XML parser reports the elements; a resource without a
URL makes the reading fail.
-/
namespace Libdap.Guarantees.AISDatabase
open Libdap.Source Libdap.Source.AIS Libdap.Library.Gathering Libdap.Guarantees.AISAdditions
open Libdap.Source.HTTPCacheTable (Chars)
open Libdap.Source.DDXParserSAX2 (mapInsert)

/-! ## Databases are what they answer -/

/-- No primary is there twice, and URLs are sorted. -/
structure Regular (ais : AISResources) : Prop where
  re : (ais.re.map Prod.fst).Nodup
  db : (ais.db.map Prod.fst).Pairwise (· < ·)

theorem mem_keys {entries : List Entry} {k : Chars} :
    (entries.lookup k).isSome ↔ k ∈ entries.map Prod.fst := by
  induction entries with
  | nil => simp
  | cons e rest ih =>
    rw [lookup_first, List.map_cons, List.mem_cons]
    by_cases same : e.1 = k
    · simp [same]
    · rw [if_neg same, ih, or_iff_right (Ne.symm same)]

theorem mapInsert_keys {entries : List Entry} {primary k : Chars} {rv : List Resource}
    (mem : k ∈ (mapInsert primary rv entries).map Prod.fst) :
    k = primary ∨ k ∈ entries.map Prod.fst := by
  induction entries with
  | nil => simpa [mapInsert] using mem
  | cons e rest ih =>
    rw [mapInsert] at mem
    split_ifs at mem with same before
    · exact .inr mem
    · exact List.mem_cons.mp mem
    · rw [List.map_cons, List.mem_cons] at mem ⊢
      exact mem.elim (fun here => .inr (.inl here)) fun later => (ih later).imp_right .inr

theorem mapInsert_sorted {entries : List Entry} (primary : Chars) (rv : List Resource)
    (sorted : (entries.map Prod.fst).Pairwise (· < ·)) :
    ((mapInsert primary rv entries).map Prod.fst).Pairwise (· < ·) := by
  induction entries with
  | nil => simp [mapInsert]
  | cons e rest ih =>
    have both := List.pairwise_cons.mp sorted
    rw [mapInsert]
    split_ifs with same before
    · exact sorted
    · refine List.pairwise_cons.mpr ⟨fun k mem => ?_, sorted⟩
      obtain rfl | later := List.mem_cons.mp mem
      · exact before
      · exact before.trans (both.1 k later)
    · refine List.pairwise_cons.mpr ⟨fun k mem => ?_, ih both.2⟩
      obtain rfl | later := mapInsert_keys mem
      · exact lt_of_le_of_ne (not_lt.mp before) (Ne.symm same)
      · exact both.1 k later

theorem add_regular {ais : AISResources} (regular : Regular ais) (a : Addition) :
    Regular (add ais a) := by
  rw [add]
  split_ifs
  · refine ⟨?_, regular.db⟩
    rw [addRegexp_keys]
    split_ifs with there
    · exact regular.re
    · rw [mem_keys] at there
      exact List.nodup_append'.mpr ⟨regular.re, List.nodup_singleton _, by simpa using there⟩
  · refine ⟨regular.re, ?_⟩
    rw [AISResources.addUrlResource]
    cases ais.db.lookup a.primary with
    | none => exact mapInsert_sorted a.primary a.rv regular.db
    | some old =>
      change ((append a.primary a.rv ais.db).map Prod.fst).Pairwise (· < ·)
      rw [append_keys]
      exact regular.db

theorem addAll_regular {ais : AISResources} (regular : Regular ais) (additions : List Addition) :
    Regular (addAll ais additions) := by
  induction additions generalizing ais with
  | nil => exact regular
  | cons a rest ih => exact ih (add_regular regular a)

theorem empty_regular : Regular AISResources.empty := ⟨List.nodup_nil, List.Pairwise.nil⟩

/-- A table is its primaries with what they have. -/
theorem entries_eq {entries : List Entry} (distinct : (entries.map Prod.fst).Nodup) :
    entries = (entries.map Prod.fst).map fun k => (k, (entries.lookup k).getD []) := by
  induction entries with
  | nil => rfl
  | cons e rest ih =>
    have both := List.nodup_cons.mp distinct
    have later : ∀ k ∈ rest.map Prod.fst,
        (k, (rest.lookup k).getD []) = (k, ((e :: rest).lookup k).getD []) := by
      intro k mem
      have other : e.1 ≠ k := fun same => both.1 (same ▸ mem)
      rw [lookup_first, if_neg other]
    rw [List.map_cons, List.map_cons, lookup_first, if_pos rfl, ← List.map_congr_left later,
      ← ih both.2]
    rfl

theorem db_nodup {ais : AISResources} (regular : Regular ais) : (ais.db.map Prod.fst).Nodup :=
  regular.db.imp fun before => ne_of_lt before

/-- Databases that answer the same, with the regular expressions in one order, are the same. -/
theorem ais_ext {ais other : AISResources} (regular : Regular ais) (also : Regular other)
    (order : ais.re.map Prod.fst = other.re.map Prod.fst) (same : ∀ k, find ais k = find other k) :
    ais = other := by
  have re : ais.re = other.re := by
    rw [entries_eq regular.re, entries_eq also.re, order]
    exact List.map_congr_left fun k _ => by rw [show ais.re.lookup k = _ from same (true, k)]; rfl
  have keys : ais.db.map Prod.fst = other.db.map Prod.fst := by
    apply List.Pairwise.eq_of_mem_iff regular.db also.db
    intro k
    rw [← mem_keys, ← mem_keys, show ais.db.lookup k = _ from same (false, k)]
    rfl
  have db : ais.db = other.db := by
    rw [entries_eq (db_nodup regular), entries_eq (db_nodup also), keys]
    exact List.map_congr_left fun k _ => by rw [show ais.db.lookup k = _ from same (false, k)]; rfl
  cases ais
  cases other
  cases re
  cases db
  rfl

/-! ## A database as additions -/

/-- The entries in the order in which they are written. -/
def listed (ais : AISResources) : List Addition :=
  ais.re.map (fun e => ⟨true, e.1, e.2⟩) ++ ais.db.map (fun e => ⟨false, e.1, e.2⟩)

/-- The regular expressions in the order of their first additions. -/
def push (keys : List Chars) (k : Chars) : List Chars :=
  if keys.any fun p => p = k then keys else keys ++ [k]

theorem push_old {keys : List Chars} {k : Chars} (there : k ∈ keys) : push keys k = keys :=
  if_pos (List.any_eq_true.mpr ⟨k, there, decide_eq_true rfl⟩)

theorem push_new {keys : List Chars} {k : Chars} (absent : k ∉ keys) :
    push keys k = keys ++ [k] := by
  refine if_neg fun found => ?_
  obtain ⟨p, mem, same⟩ := List.any_eq_true.mp found
  exact absent (of_decide_eq_true same ▸ mem)

theorem mem_push {keys : List Chars} {k p : Chars} : p ∈ push keys k ↔ p ∈ keys ∨ p = k := by
  by_cases there : k ∈ keys
  · rw [push_old there]
    exact ⟨.inl, fun either => either.elim id fun same => same ▸ there⟩
  · rw [push_new there, List.mem_append, List.mem_singleton]

theorem mem_foldl_push {keys patterns : List Chars} {p : Chars} :
    p ∈ patterns.foldl push keys ↔ p ∈ keys ∨ p ∈ patterns := by
  induction patterns generalizing keys with
  | nil => simp
  | cons k rest ih => rw [List.foldl_cons, ih, mem_push, List.mem_cons, or_assoc]

/-- What comes again may be left out before. -/
theorem foldl_push_firsts (keys patterns : List Chars) :
    (patterns.foldl push []).foldl push keys = patterns.foldl push keys := by
  induction patterns using List.reverseRecOn with
  | nil => rfl
  | append_singleton patterns p ih =>
    rw [List.foldl_append, List.foldl_append]
    by_cases again : p ∈ patterns.foldl push []
    · have there : p ∈ patterns.foldl push keys :=
        mem_foldl_push.mpr (.inr ((mem_foldl_push.mp again).resolve_left List.not_mem_nil))
      simp only [List.foldl_cons, List.foldl_nil]
      rw [push_old again, ih, push_old there]
    · simp only [List.foldl_cons, List.foldl_nil]
      rw [push_new again, List.foldl_append, ih]
      rfl

theorem add_re_keys (ais : AISResources) (a : Addition) :
    (add ais a).re.map Prod.fst =
      if a.regexp then push (ais.re.map Prod.fst) a.primary else ais.re.map Prod.fst := by
  rw [add]
  split_ifs
  · rw [addRegexp_keys]
    split_ifs with there
    · exact (push_old (mem_keys.mp there)).symm
    · exact (push_new fun mem => there (mem_keys.mpr mem)).symm
  · rfl

theorem addAll_re_keys (ais : AISResources) (additions : List Addition) :
    (addAll ais additions).re.map Prod.fst =
      (patterns additions).foldl push (ais.re.map Prod.fst) := by
  induction additions generalizing ais with
  | nil => rfl
  | cons a rest ih =>
    have step : addAll ais (a :: rest) = addAll (add ais a) rest := rfl
    rw [step, ih, add_re_keys]
    cases kind : a.regexp <;> simp [patterns, kind]

theorem gathered_kind {entries : List Entry} (distinct : (entries.map Prod.fst).Nodup)
    (kind isRegexp : Bool) (k : Chars) :
    gathered Addition.key Addition.rv (isRegexp, k) (entries.map fun e => ⟨kind, e.1, e.2⟩) =
      if kind = isRegexp then (entries.lookup k).getD [] else [] := by
  induction entries with
  | nil => simp [gathered]
  | cons e rest ih =>
    have both := List.nodup_cons.mp distinct
    rw [List.map_cons, gathered_cons, ih both.2, lookup_first]
    by_cases same : e.1 = k
    · have absent : (rest.lookup k).getD [] = [] := by
        cases found : rest.lookup k with
        | none => rfl
        | some rv =>
          have there : (rest.lookup k).isSome := found ▸ rfl
          exact absurd (same ▸ mem_keys.mp there) both.1
      rw [absent, if_pos same]
      cases kind <;> cases isRegexp <;> simp [Addition.key, same]
    · cases kind <;> cases isRegexp <;> simp [Addition.key, same]

/-- What is listed of a database is what it has. -/
theorem gathered_listed {ais : AISResources} (regular : Regular ais) (k : Bool × Chars) :
    gathered Addition.key Addition.rv k (listed ais) = (find ais k).getD [] := by
  obtain ⟨isRegexp, primary⟩ := k
  rw [listed, gathered, List.flatMap_append, ← gathered, ← gathered, gathered_kind regular.re,
    gathered_kind (db_nodup regular), find]
  cases isRegexp <;> simp

theorem mem_listed {ais : AISResources} {k : Bool × Chars} :
    (∃ a ∈ listed ais, a.key = k) ↔ (find ais k).isSome := by
  obtain ⟨isRegexp, primary⟩ := k
  cases isRegexp with
  | false =>
    rw [find, if_neg Bool.false_ne_true, mem_keys, List.mem_map]
    simp [listed, Addition.key, or_and_right, exists_or]
  | true =>
    rw [find, if_pos rfl, mem_keys, List.mem_map]
    simp [listed, Addition.key, or_and_right, exists_or]

theorem patterns_listed (ais : AISResources) : patterns (listed ais) = ais.re.map Prod.fst := by
  simp [patterns, listed, List.filter_map, Function.comp_def]

theorem find_empty (k : Bool × Chars) : find AISResources.empty k = none := by
  obtain ⟨isRegexp, primary⟩ := k
  cases isRegexp <;> rfl

theorem addAll_values (ais : AISResources) (additions : List Addition) (k : Bool × Chars) :
    (find (addAll ais additions) k).getD [] =
      (find ais k).getD [] ++ gathered Addition.key Addition.rv k additions :=
  gathers.values ais additions k

theorem addAll_isSome (ais : AISResources) (additions : List Addition) (k : Bool × Chars) :
    (find (addAll ais additions) k).isSome ↔
      (find ais k).isSome ∨ ∃ a ∈ additions, a.key = k :=
  gathers.isSome ais additions k

theorem option_eq {o p : Option (List Resource)} (has : o.isSome ↔ p.isSome)
    (same : o.getD [] = p.getD []) : o = p := by
  cases o with
  | none =>
    cases p with
    | none => rfl
    | some rv => exact absurd (has.mpr rfl) Bool.false_ne_true
  | some rv =>
    cases p with
    | none => exact absurd (has.mp rfl) Bool.false_ne_true
    | some other => exact congrArg some same

/-- To add what a database has is to make its additions again. -/
theorem addAll_listed (more additions : List Addition) :
    addAll (addAll AISResources.empty more) (listed (addAll AISResources.empty additions)) =
      addAll AISResources.empty (more ++ additions) := by
  have made : Regular (addAll AISResources.empty additions) :=
    addAll_regular empty_regular additions
  have base : Regular (addAll AISResources.empty more) := addAll_regular empty_regular more
  have both : addAll AISResources.empty (more ++ additions) =
      addAll (addAll AISResources.empty more) additions := List.foldl_append
  rw [both]
  apply ais_ext (addAll_regular base _) (addAll_regular base _)
  · rw [addAll_re_keys, addAll_re_keys _ additions, patterns_listed,
      addAll_re_keys AISResources.empty additions]
    exact foldl_push_firsts _ _
  · intro k
    have values := addAll_values AISResources.empty additions k
    have has := addAll_isSome AISResources.empty additions k
    rw [find_empty] at values has
    apply option_eq
    · rw [addAll_isSome, addAll_isSome _ additions, mem_listed]
      exact or_congr_right (has.trans (or_iff_right Bool.false_ne_true))
    · rw [addAll_values, addAll_values _ additions, gathered_listed made]
      exact congrArg _ values

/-! ## What is written -/

/-- Elements as they are written, a line for each tag. -/
inductive Markup where
  | empty (name : Chars) (attrs : List (Chars × Chars))
  | block (name : Chars) (attrs : List (Chars × Chars)) (content : List Markup)

def printAttribute (a : Chars × Chars) : Chars := ' ' :: a.1 ++ '=' :: quoted a.2

mutual

def Markup.print : Markup → Chars
  | .empty name attrs => '<' :: name ++ attrs.flatMap printAttribute ++ "/>".toList ++ endl
  | .block name attrs content =>
    '<' :: name ++ attrs.flatMap printAttribute ++ ['>'] ++ endl ++ printContent content ++
      "</".toList ++ name ++ ['>'] ++ endl

def printContent : List Markup → Chars
  | [] => []
  | m :: rest => m.print ++ printContent rest

end

mutual
/-- What the XML parser reports of the elements. -/
def Markup.events : Markup → List Event
  | .empty name attrs => [.startElement name attrs, .endElement name]
  | .block name attrs content =>
    .startElement name attrs :: contentEvents content ++ [.endElement name]

def contentEvents : List Markup → List Event
  | [] => []
  | m :: rest => m.events ++ contentEvents rest

end

def ruleAttribute : Rule → List (Chars × Chars)
  | .overwrite => []
  | .fallback => [("rule".toList, "fallback".toList)]
  | .replace => [("rule".toList, "replace".toList)]

def ancillary (r : Resource) : Markup :=
  .empty "ancillary".toList (ruleAttribute r.rule ++ [("url".toList, r.url)])

def entry (a : Addition) : Markup :=
  .block "entry".toList []
    (.empty "primary".toList [((if a.regexp then "regexp" else "url").toList, a.primary)] ::
      a.rv.map ancillary)

def markup (ais : AISResources) : Markup :=
  .block "ais".toList [("xmlns".toList, "http://xml.opendap.org/ais".toList)]
    ((listed ais).map entry)

theorem printContent_append (ms ns : List Markup) :
    printContent (ms ++ ns) = printContent ms ++ printContent ns := by
  induction ms with
  | nil => rfl
  | cons m ms ih => rw [List.cons_append, printContent, ih, printContent, List.append_assoc]

theorem ancillary_print (r : Resource) : (ancillary r).print = r.print ++ endl := by
  have name : "<ancillary".toList = '<' :: "ancillary".toList := by decide
  have rule : " rule=".toList = ' ' :: ("rule".toList ++ ['=']) := by decide
  have url : " url=".toList = ' ' :: ("url".toList ++ ['=']) := by decide
  unfold ancillary Markup.print ruleAttribute Resource.print printRule
  cases r.rule <;>
    simp only [printAttribute, quoted, name, rule, url, List.flatMap_cons, List.flatMap_nil,
      List.append_assoc, List.cons_append, List.nil_append]

theorem resources_print (rv : List Resource) :
    printContent (rv.map ancillary) = rv.flatMap fun r => r.print ++ endl := by
  induction rv with
  | nil => rfl
  | cons r rv ih => rw [List.map_cons, printContent, ih, ancillary_print, List.flatMap_cons]

theorem entry_print (a : Addition) :
    (entry a).print = printEntry (if a.regexp then "regexp" else "url") (a.primary, a.rv) := by
  have opening : "<entry>".toList = '<' :: ("entry".toList ++ ['>']) := by decide
  have closing : "</entry>".toList = "</".toList ++ ("entry".toList ++ ['>']) := by decide
  have primary : "<primary ".toList = '<' :: ("primary".toList ++ [' ']) := by decide
  have equals : "=".toList = ['='] := by decide
  unfold entry Markup.print printContent Markup.print printEntry
  simp only [resources_print, printAttribute, quoted, opening, closing, primary, equals,
    List.flatMap_cons, List.flatMap_nil, List.append_assoc, List.cons_append, List.nil_append,
    List.append_nil]

theorem entries_print (kind : Bool) (entries : List Entry) :
    printContent ((entries.map fun e => (⟨kind, e.1, e.2⟩ : Addition)).map entry) =
      entries.flatMap (printEntry (if kind then "regexp" else "url")) := by
  induction entries with
  | nil => rfl
  | cons e rest ih =>
    rw [List.map_cons, List.map_cons, printContent, ih, entry_print, List.flatMap_cons]

/-- The text is the markup behind the prolog. -/
theorem print_markup (ais : AISResources) :
    ais.print = xmlDeclaration ++ endl ++ docType ++ endl ++ (markup ais).print := by
  have opening : "<ais xmlns=".toList = '<' :: ("ais".toList ++ ' ' :: ("xmlns".toList ++ ['='])) :=
    by decide
  have right : ">".toList = ['>'] := by decide
  have closing : "</ais>".toList = "</".toList ++ ("ais".toList ++ ['>']) := by decide
  unfold AISResources.print markup Markup.print listed
  simp only [List.map_append, printContent_append, entries_print, printAttribute, quoted, opening,
    right, closing, if_true, Bool.false_eq_true, if_false, List.flatMap_cons, List.flatMap_nil,
    List.append_assoc, List.cons_append, List.nil_append, List.append_nil]

end Libdap.Guarantees.AISDatabase
