import Libdap.Library.Outcome
import Libdap.Source.HTTPCacheHeaders

/-!
# The stored headers of a cached response

A header comes back from its file if it has a line of its own there that the buffer of the reader
holds. One that mentions the name of a hop-by-hop header anywhere is not written, and an empty
one ends the writing. New headers are merged with the old ones by their names, so that of several
with one name only the first is stored.
-/
namespace Libdap.Guarantees.HTTPCacheHeaders
open Libdap.Source Libdap.Source.HTTPCacheHeaders Libdap.Library Libdap.Library.LineInput
open Libdap.Source.HTTPCacheTable (Chars)

variable {h l : Chars} {headers stored lines : List Chars} {file dest : Chars} {md : Input Char}

/-- The name of the header, and not only a part of the line, is that of a hop-by-hop header. -/
def HopName (h : Chars) : Prop := headerName h ∈ hopByHop

instance (h : Chars) : Decidable (HopName h) := inferInstanceAs (Decidable (_ ∈ _))

/-- The header is written and its line fits the buffer. -/
structure Kept (h : Chars) : Prop where
  visible : h ≠ []
  short : h.length ≤ 1022
  noNull : null ∉ h
  noWord : isHopByHopHeader h = false

/-- What is written is read back without the hop-by-hop headers. -/
def RoundTrip (headers : List Chars) : Prop :=
  ∃ file, writeMetadata [] headers = .ok file ∧
    readFile file = .ok (headers.filter fun h => decide (¬ HopName h))

/-- Afterwards the stored headers are the new ones and the old ones of other names. -/
def Merges (headers : List Chars) (file : Chars) (stored : List Chars) : Prop :=
  ∃ file' stored', updateMetadata headers file = .ok file' ∧ readFile file' = .ok stored' ∧
    ∀ l, l ∈ stored' ↔
      (l ∈ headers ∧ ¬ HopName l) ∨
        (l ∈ stored ∧ ∀ h ∈ headers, headerName h ≠ headerName l)

/-- Each new header is a hop-by-hop header, or is kept and alone with its name; and each old one
whose name does not come is written and alone with its name. -/
structure MergeFits (headers stored : List Chars) : Prop where
  new : ∀ h ∈ headers, HopName h ∨
    (Kept h ∧ ∀ h' ∈ headers, headerName h' = headerName h → h' = h)
  old : ∀ s ∈ stored, (∃ h ∈ headers, headerName h = headerName s) ∨
    (s ≠ [] ∧ isHopByHopHeader s = false ∧
      ∀ s' ∈ stored, headerName s' = headerName s → s' = s)

/-! ### Writing -/

theorem isHopByHop_of_name (hop : HopName h) : isHopByHopHeader h = true := by
  unfold isHopByHopHeader
  rw [List.any_eq_true]
  refine ⟨headerName h, hop, ?_⟩
  rw [decide_eq_true_eq]
  exact (List.takeWhile_prefix _).isInfix

def unlines (lines : List Chars) : Chars := lines.flatMap fun line => line ++ [newline]

def written (headers : List Chars) : List Chars := headers.filter fun h => !isHopByHopHeader h

theorem mem_written : l ∈ written headers ↔ l ∈ headers ∧ isHopByHopHeader l = false := by
  simp [written]

theorem writeMetadata_ok :
    writeMetadata dest headers = .ok file ↔
      [] ∉ written headers ∧ file = dest ++ unlines (written headers) := by
  induction headers generalizing dest with
  | nil => simp [writeMetadata, written, unlines, eq_comm]
  | cons h rest ih =>
    unfold writeMetadata
    cases hop : isHopByHopHeader h with
    | true =>
      have same : written (h :: rest) = written rest := by simp [written, hop]
      rw [if_pos rfl, ih, same]
    | false =>
      have same : written (h :: rest) = h :: written rest := by simp [written, hop]
      rw [if_neg (by simp), same]
      by_cases empty : h = []
      · simp [empty]
      · rw [if_neg empty, ih]
        simp [unlines, Ne.symm empty]

/-! ### Reading -/

theorem fgets_newline {line : Chars} {md' : Input Char}
    (read : md.fgets lineSize newline = (some line, md')) :
    line.length ≤ 1023 ∧ newline ∉ line.dropLast := by
  have clean : ∀ (room : Nat) (text : Chars), newline ∉ (takeLine newline room text).1.dropLast := by
    intro room text
    induction text generalizing room with
    | nil => cases room <;> simp [takeLine]
    | cons c text ih =>
      cases room with
      | zero => simp [takeLine]
      | succ room =>
        unfold takeLine
        split
        · simp
        next other =>
          have later := ih room
          cases front : (takeLine newline room text).1 with
          | nil => simp [front]
          | cons d rest =>
            rw [front] at later
            simp only [front, List.dropLast_cons_cons, List.mem_cons, not_or]
            exact ⟨Ne.symm other, later⟩
  have room := takeLine_room newline (lineSize - 1) md.rest
  have inner := clean (lineSize - 1) md.rest
  unfold Input.fgets at read
  split at read
  · cases read
  next some_line taken =>
    cases read
    rw [taken] at room inner
    exact ⟨room, inner⟩

/-- What a line is cut to. -/
theorem cut_line {line : Chars} (short : line.length ≤ 1023) (clean : newline ∉ line.dropLast) :
    (cstring null line).dropLast.length ≤ 1022 ∧ null ∉ (cstring null line).dropLast ∧
      newline ∉ (cstring null line).dropLast := by
  have front : cstring null line <+: line := List.takeWhile_prefix _
  have size := front.length_le
  have inside : (cstring null line).dropLast <+: line.dropLast := by
    obtain ⟨more, whole⟩ := front
    obtain rfl | some_more := List.eq_nil_or_concat more
    · rw [List.append_nil] at whole
      rw [whole]
    · obtain ⟨init, last, rfl⟩ := some_more
      have shorter : line.dropLast = cstring null line ++ init := by
        conv_lhs => rw [← whole, List.concat_eq_append, ← List.append_assoc, List.dropLast_concat]
      rw [shorter]
      exact (List.dropLast_prefix _).trans (List.prefix_append _ init)
  refine ⟨by simp; omega, ?_, fun mem => clean (inside.subset mem)⟩
  intro mem
  have kept := List.mem_takeWhile_imp (List.dropLast_subset _ mem)
  simp at kept

theorem readMetadata_lines (read : readMetadata md = .ok lines) :
    ∀ l ∈ lines, l.length ≤ 1022 ∧ null ∉ l ∧ newline ∉ l := by
  fun_induction readMetadata md generalizing lines with
  | case1 md ended =>
    cases read
    simp
  | case2 md open' md' nothing =>
    cases read
    simp
  | case3 md open' line md' got empty => cases read
  | case4 md open' line md' got visible ih =>
    obtain ⟨rest, later, same⟩ := bind_success read
    cases same
    obtain ⟨short, clean⟩ := fgets_newline got
    exact List.forall_mem_cons.mpr ⟨cut_line short clean, ih later⟩

theorem readFile_unlines
    (plain : ∀ l ∈ lines, l.length ≤ 1022 ∧ null ∉ l ∧ newline ∉ l) :
    readFile (unlines lines) = .ok lines := by
  unfold readFile
  induction lines with
  | nil =>
    rw [readMetadata]
    rfl
  | cons l lines ih =>
    rw [List.forall_mem_cons] at plain
    obtain ⟨⟨short, noNull, noNewline⟩, later⟩ := plain
    have text : unlines (l :: lines) = l ++ newline :: unlines lines := by simp [unlines]
    have got := fgets_line lineSize newline l (unlines lines) noNewline (by simp [lineSize]; omega)
    have whole : cstring null (l ++ [newline]) = l ++ [newline] := by
      apply cstring_eq
      rw [List.mem_append, not_or]
      exact ⟨noNull, by decide⟩
    rw [text, readMetadata, if_neg (by simp [Input.ofList])]
    split
    next md' missed =>
      rw [got] at missed
      cases missed
    next line md' read =>
      rw [got] at read
      cases read
      rw [whole, if_neg (by simp), ih later, List.dropLast_concat]
      rfl

/-! ### The round trip -/

theorem written_eq (kept : ∀ h ∈ headers, HopName h ∨ Kept h) :
    written headers = headers.filter fun h => decide (¬ HopName h) := by
  refine List.filter_congr fun h mem => ?_
  obtain hop | keep := kept h mem
  · simp [hop, isHopByHop_of_name hop]
  · have name : ¬ HopName h := by
      intro hop
      have word := isHopByHop_of_name hop
      rw [keep.noWord] at word
      cases word
    simp [name, keep.noWord]

theorem round_trip_iff (noNewline : ∀ h ∈ headers, newline ∉ h) :
    RoundTrip headers ↔ ∀ h ∈ headers, HopName h ∨ Kept h := by
  constructor
  · intro ⟨file, wrote, read⟩
    obtain ⟨visible, rfl⟩ := writeMetadata_ok.mp wrote
    have back := readMetadata_lines read
    have plain : ∀ l ∈ written headers, l.length ≤ 1022 ∧ null ∉ l ∧ newline ∉ l := by
      intro l mem
      obtain ⟨mem, word⟩ := mem_written.mp mem
      refine back l (List.mem_filter.mpr ⟨mem, ?_⟩)
      rw [decide_eq_true_eq]
      intro hop
      rw [isHopByHop_of_name hop] at word
      cases word
    rw [List.nil_append, readFile_unlines plain, Except.ok.injEq] at read
    intro h mem
    by_cases hop : HopName h
    · exact .inl hop
    · have there : h ∈ written headers := by
        rw [read]
        exact List.mem_filter.mpr ⟨mem, by simp [hop]⟩
      obtain ⟨short, noNull, -⟩ := plain h there
      exact .inr ⟨fun empty => visible (empty ▸ there), short, noNull, (mem_written.mp there).2⟩
  · intro kept
    have plain : ∀ l ∈ written headers, l ≠ [] ∧ l.length ≤ 1022 ∧ null ∉ l ∧ newline ∉ l := by
      intro l mem
      obtain ⟨mem, word⟩ := mem_written.mp mem
      obtain hop | keep := kept l mem
      · rw [isHopByHop_of_name hop] at word
        cases word
      · exact ⟨keep.visible, keep.short, keep.noNull, noNewline l mem⟩
    refine ⟨unlines (written headers), writeMetadata_ok.mpr ⟨?_, rfl⟩, ?_⟩
    · intro empty
      exact (plain [] empty).1 rfl
    · rw [readFile_unlines fun l mem => (plain l mem).2, written_eq kept]

/-! ### The merge -/

/-- The headers that the update writes. -/
def updated (headers stored : List Chars) : List Chars :=
  written (mergeHeaders headers stored).reverse

theorem mem_updated : l ∈ updated headers stored ↔
    isHopByHopHeader l = false ∧
      (l ∈ KeyedSet.build headerName headers ∨
        l ∈ KeyedSet.build headerName stored ∧ ∀ h ∈ headers, headerName h ≠ headerName l) := by
  rw [updated, mem_written, List.mem_reverse, mergeHeaders, KeyedSet.mem_build_append]
  exact and_comm

theorem updateMetadata_ok (was : readFile file = .ok stored) {file' : Chars} :
    updateMetadata headers file = .ok file' ↔
      [] ∉ updated headers stored ∧ file' = unlines (updated headers stored) := by
  unfold updateMetadata
  rw [was]
  exact writeMetadata_ok

/-- A header that is alone with its name is in the set. -/
theorem mem_build_alone {xs : List Chars} (mem : l ∈ xs)
    (alone : ∀ x ∈ xs, headerName x = headerName l → x = l) :
    l ∈ KeyedSet.build headerName xs := by
  obtain ⟨y, there, same⟩ : ∃ y ∈ KeyedSet.build headerName xs, headerName y = headerName l :=
    KeyedSet.build_covers mem
  rwa [alone y (KeyedSet.mem_of_build there) same] at there

theorem fits_of_merges (was : readFile file = .ok stored) (merges : Merges headers file stored) :
    MergeFits headers stored := by
  obtain ⟨file', stored', wrote, read, exact_lines⟩ := merges
  obtain ⟨visible, rfl⟩ := (updateMetadata_ok was).mp wrote
  have back := readMetadata_lines read
  have plain : ∀ l ∈ updated headers stored, l.length ≤ 1022 ∧ null ∉ l ∧ newline ∉ l := by
    intro l mem
    obtain ⟨word, from_headers | ⟨from_stored, free⟩⟩ := mem_updated.mp mem
    · refine back l ((exact_lines l).mpr (.inl ⟨KeyedSet.mem_of_build from_headers, ?_⟩))
      intro hop
      rw [isHopByHop_of_name hop] at word
      cases word
    · exact back l ((exact_lines l).mpr (.inr ⟨KeyedSet.mem_of_build from_stored, free⟩))
  rw [readFile_unlines plain, Except.ok.injEq] at read
  subst read
  have from_headers : ∀ h ∈ headers, ¬ HopName h →
      h ∈ updated headers stored ∧ h ∈ KeyedSet.build headerName headers := by
    intro h mem hop
    have there := (exact_lines h).mpr (.inl ⟨mem, hop⟩)
    obtain ⟨-, first | ⟨-, free⟩⟩ := mem_updated.mp there
    · exact ⟨there, first⟩
    · exact absurd rfl (free h mem)
  have from_stored : ∀ s ∈ stored, (∀ h ∈ headers, headerName h ≠ headerName s) →
      s ∈ updated headers stored ∧ s ∈ KeyedSet.build headerName stored := by
    intro s mem free
    have there := (exact_lines s).mpr (.inr ⟨mem, free⟩)
    obtain ⟨-, first | ⟨second, -⟩⟩ := mem_updated.mp there
    · exact absurd rfl (free s (KeyedSet.mem_of_build first))
    · exact ⟨there, second⟩
  constructor
  · intro h mem
    by_cases hop : HopName h
    · exact .inl hop
    · obtain ⟨there, first⟩ := from_headers h mem hop
      obtain ⟨short, noNull, -⟩ := plain h there
      refine .inr ⟨⟨fun empty => visible (empty ▸ there), short, noNull,
        (mem_updated.mp there).1⟩, ?_⟩
      intro h' mem' same
      have hop' : ¬ HopName h' := by
        unfold HopName
        rw [same]
        exact hop
      exact KeyedSet.build_unique headers (from_headers h' mem' hop').2 first same
  · intro s mem
    by_cases taken : ∃ h ∈ headers, headerName h = headerName s
    · exact .inl taken
    · have free : ∀ h ∈ headers, headerName h ≠ headerName s := fun h there same =>
        taken ⟨h, there, same⟩
      obtain ⟨there, first⟩ := from_stored s mem free
      refine .inr ⟨fun empty => visible (empty ▸ there), (mem_updated.mp there).1, ?_⟩
      intro s' mem' same
      exact KeyedSet.build_unique stored (from_stored s' mem' (by rw [same]; exact free)).2 first
        same

theorem merges_of_fits (noNewline : ∀ h ∈ headers, newline ∉ h)
    (was : readFile file = .ok stored) (fits : MergeFits headers stored) :
    Merges headers file stored := by
  have members : ∀ l, l ∈ updated headers stored ↔
      (l ∈ headers ∧ ¬ HopName l) ∨
        (l ∈ stored ∧ ∀ h ∈ headers, headerName h ≠ headerName l) := by
    intro l
    rw [mem_updated]
    constructor
    · intro ⟨word, there⟩
      refine there.imp (fun first => ⟨KeyedSet.mem_of_build first, ?_⟩)
        fun second => ⟨KeyedSet.mem_of_build second.1, second.2⟩
      intro hop
      rw [isHopByHop_of_name hop] at word
      cases word
    · intro there
      obtain ⟨mem, hop⟩ | ⟨mem, free⟩ := there
      · obtain ⟨keep, alone⟩ := (fits.new l mem).resolve_left hop
        exact ⟨keep.noWord, .inl (mem_build_alone mem alone)⟩
      · have other : ¬ ∃ h ∈ headers, headerName h = headerName l := by
          intro ⟨h, there, same⟩
          exact free h there same
        obtain ⟨_, word, alone⟩ := (fits.old l mem).resolve_left other
        exact ⟨word, .inr ⟨mem_build_alone mem alone, free⟩⟩
  have plain : ∀ l ∈ updated headers stored,
      l ≠ [] ∧ l.length ≤ 1022 ∧ null ∉ l ∧ newline ∉ l := by
    intro l there
    obtain ⟨mem, hop⟩ | ⟨mem, free⟩ := (members l).mp there
    · obtain ⟨keep, -⟩ := (fits.new l mem).resolve_left hop
      exact ⟨keep.visible, keep.short, keep.noNull, noNewline l mem⟩
    · have other : ¬ ∃ h ∈ headers, headerName h = headerName l := by
        intro ⟨h, there, same⟩
        exact free h there same
      exact ⟨((fits.old l mem).resolve_left other).1, readMetadata_lines was l mem⟩
  refine ⟨unlines (updated headers stored), updated headers stored,
    (updateMetadata_ok was).mpr ⟨?_, rfl⟩, ?_, members⟩
  · intro empty
    exact (plain [] empty).1 rfl
  · exact readFile_unlines fun l mem => (plain l mem).2

/-- Headers are stored, and merged into stored ones, exactly if each is a hop-by-hop header or is
kept, and, when they are merged, alone with its name. -/
theorem stored_headers_iff (headers : List Chars) (noNewline : ∀ h ∈ headers, newline ∉ h) :
    (RoundTrip headers ↔ ∀ h ∈ headers, HopName h ∨ Kept h) ∧
      ∀ file stored, readFile file = .ok stored →
        (Merges headers file stored ↔ MergeFits headers stored) :=
  ⟨round_trip_iff noNewline, fun _ _ was =>
    ⟨fits_of_merges was, merges_of_fits noNewline was⟩⟩

/-! ### A value that mentions a word -/

def mention : Chars := "Vary: Upgrade".toList

def plainHeaders : List Chars := ["ETag: a".toList, "Connection: close".toList]

theorem plain_headers_stored :
    RoundTrip plainHeaders ∧ ∀ file stored, readFile file = .ok stored →
      (Merges plainHeaders file stored ↔ MergeFits plainHeaders stored) := by
  have noNewline : ∀ h ∈ plainHeaders, newline ∉ h := List.forall_iff_forall_mem.mp (by decide)
  have both := stored_headers_iff plainHeaders noNewline
  refine ⟨both.1.mpr fun h mem => ?_, both.2⟩
  simp only [plainHeaders, List.mem_cons, List.not_mem_nil, or_false] at mem
  rcases mem with rfl | rfl
  · exact .inr ⟨by decide, by decide, by decide, by decide⟩
  · exact .inl (by decide)

/-- The header is no hop-by-hop header, and is not written. -/
theorem mention_lost :
    (∀ h ∈ [mention], newline ∉ h) ∧ ¬ HopName mention ∧ ¬ RoundTrip [mention] := by
  refine ⟨List.forall_iff_forall_mem.mp (by decide), by decide, ?_⟩
  intro ⟨file, wrote, read⟩
  have none_written : written [mention] = [] := by decide
  obtain ⟨-, rfl⟩ := writeMetadata_ok.mp wrote
  rw [none_written, List.nil_append, readFile_unlines (by simp), Except.ok.injEq] at read
  have stays : [mention].filter (fun h => decide (¬ HopName h)) = [mention] := by decide
  rw [stays] at read
  cases read

end Libdap.Guarantees.HTTPCacheHeaders
