import Mathlib.Data.List.TakeWhile
import Mathlib.Tactic

/-!
# Reading lines into a buffer

What the standard libraries of C and of C++ take from a stream for a buffer of `n` elements,
and the flags they leave. What they store in front of the terminating null is a list.
-/
namespace Libdap.Library.LineInput
variable {α : Type} [DecidableEq α]

structure Input (α : Type) where
  rest : List α
  eof : Bool
  fail : Bool
  deriving DecidableEq, Repr

/-- A stream that was not read. -/
def Input.ofList (rest : List α) : Input α := { rest, eof := false, fail := false }

/-- Why a line ended. -/
inductive LineEnd where
  | delimiter | input | room
  deriving DecidableEq, Repr

/-- The elements up to the delimiter, `room` of them at most. -/
def scan (delim : α) : Nat → List α → List α × LineEnd × List α
  | _, [] => ([], .input, [])
  | room, c :: rest =>
    if c = delim then ([], .delimiter, rest)
    else
      match room with
      | 0 => ([], .room, c :: rest)
      | room + 1 =>
        let later := scan delim room rest
        (c :: later.1, later.2)

/-- `istream::getline`: what it stores, what `gcount` is then, and the stream. -/
def Input.getline (n : Nat) (delim : α) (s : Input α) : List α × Nat × Input α :=
  if s.eof || s.fail then ([], 0, { s with fail := true })
  else
    match scan delim (n - 1) s.rest with
    | (line, .delimiter, rest) => (line, line.length + 1, { s with rest })
    | (line, .input, rest) => (line, line.length, { rest, eof := true, fail := line.isEmpty })
    | (line, .room, rest) => (line, line.length, { s with rest, fail := true })

/-- What is left behind the delimiter or `room` elements, and whether the end was seen. -/
def skip (delim : α) : Nat → List α → List α × Bool
  | 0, rest => (rest, false)
  | _ + 1, [] => ([], true)
  | room + 1, c :: rest => if c = delim then (rest, false) else skip delim room rest

/-- `istream::ignore`. -/
def Input.ignore (n : Nat) (delim : α) (s : Input α) : Input α :=
  if s.eof || s.fail then { s with fail := true }
  else { s with rest := (skip delim n s.rest).1, eof := (skip delim n s.rest).2 }

/-- The elements up to the newline and with it, `room` of them at most, what is left, and
whether the end was seen. -/
def takeLine (newline : α) : Nat → List α → List α × List α × Bool
  | 0, rest => ([], rest, false)
  | _ + 1, [] => ([], [], true)
  | room + 1, c :: rest =>
    if c = newline then ([c], rest, false)
    else
      let later := takeLine newline room rest
      (c :: later.1, later.2)

/-- `fgets`, for `n` at least two; nothing is stored for a null pointer. -/
def Input.fgets (n : Nat) (newline : α) (s : Input α) : Option (List α) × Input α :=
  match takeLine newline (n - 1) s.rest with
  | ([], rest, eof) => (none, { s with rest, eof := s.eof || eof })
  | (line, rest, eof) => (some line, { s with rest, eof := s.eof || eof })

/-- The string that a buffer holds. -/
def cstring (null : α) (s : List α) : List α := s.takeWhile (· ≠ null)

theorem cstring_eq {null : α} {s : List α} (none' : null ∉ s) : cstring null s = s := by
  apply List.takeWhile_eq_self_iff.mpr
  intro c member
  rw [decide_eq_true_eq]
  rintro rfl
  exact none' member

theorem cstring_without (null : α) (s : List α) : null ∉ cstring null s := by
  intro member
  have other := List.mem_takeWhile_imp member
  rw [decide_eq_true_eq] at other
  exact other rfl

/-! ### Lines -/

theorem scan_line {delim : α} {line more : List α} {room : Nat} (inside : delim ∉ line)
    (fits : line.length ≤ room) :
    scan delim room (line ++ delim :: more) = (line, .delimiter, more) := by
  induction line generalizing room with
  | nil => cases room <;> simp [scan]
  | cons c line ih =>
    obtain ⟨other, inside⟩ := List.ne_and_not_mem_of_not_mem_cons inside
    cases room with
    | zero => simp at fits
    | succ room =>
      have later := ih inside (Nat.le_of_succ_le_succ fits)
      simp [scan, Ne.symm other, later]

theorem scan_input {delim : α} {line : List α} {room : Nat} (inside : delim ∉ line)
    (fits : line.length ≤ room) : scan delim room line = (line, .input, []) := by
  induction line generalizing room with
  | nil => simp [scan]
  | cons c line ih =>
    obtain ⟨other, inside⟩ := List.ne_and_not_mem_of_not_mem_cons inside
    cases room with
    | zero => simp at fits
    | succ room =>
      have later := ih inside (Nat.le_of_succ_le_succ fits)
      simp [scan, Ne.symm other, later]

theorem takeLine_line {newline : α} {line : List α} {room : Nat} (more : List α)
    (inside : newline ∉ line) (fits : line.length < room) :
    takeLine newline room (line ++ newline :: more) = (line ++ [newline], more, false) := by
  induction line generalizing room with
  | nil =>
    cases room with
    | zero => simp at fits
    | succ room => simp [takeLine]
  | cons c line ih =>
    obtain ⟨other, inside⟩ := List.ne_and_not_mem_of_not_mem_cons inside
    cases room with
    | zero => simp at fits
    | succ room =>
      have later := ih inside (Nat.lt_of_succ_lt_succ fits)
      simp [takeLine, Ne.symm other, later]

theorem takeLine_full {newline : α} {piece : List α} (more : List α) (inside : newline ∉ piece) :
    takeLine newline piece.length (piece ++ more) = (piece, more, false) := by
  induction piece with
  | nil => simp [takeLine]
  | cons c piece ih =>
    obtain ⟨other, inside⟩ := List.ne_and_not_mem_of_not_mem_cons inside
    simp [takeLine, Ne.symm other, ih inside]

/-- Nothing behind the newline is taken. -/
theorem takeLine_suffix {newline : α} {line : List α} (room : Nat) (more : List α)
    (inside : newline ∉ line) : more <:+ (takeLine newline room (line ++ newline :: more)).2.1 := by
  induction line generalizing room with
  | nil =>
    cases room with
    | zero => exact List.suffix_cons newline more
    | succ room => simp [takeLine]
  | cons c line ih =>
    obtain ⟨other, inside⟩ := List.ne_and_not_mem_of_not_mem_cons inside
    cases room with
    | zero => exact ⟨c :: line ++ [newline], by simp [takeLine]⟩
    | succ room => simpa [takeLine, Ne.symm other] using ih room inside

theorem takeLine_room (newline : α) (room : Nat) (l : List α) :
    (takeLine newline room l).1.length ≤ room := by
  induction l generalizing room with
  | nil => cases room <;> simp [takeLine]
  | cons c l ih =>
    cases room with
    | zero => simp [takeLine]
    | succ room =>
      have := ih room
      unfold takeLine
      split <;> simp only [List.length_cons, List.length_nil] <;> omega

theorem scan_full {delim : α} {line : List α} {room : Nat} (more : List α) (inside : delim ∉ line)
    (long : room < line.length) :
    scan delim room (line ++ more) = (line.take room, .room, line.drop room ++ more) := by
  induction line generalizing room with
  | nil => simp at long
  | cons c line ih =>
    obtain ⟨other, inside⟩ := List.ne_and_not_mem_of_not_mem_cons inside
    cases room with
    | zero => simp [scan, Ne.symm other]
    | succ room => simp [scan, Ne.symm other, ih inside (Nat.lt_of_succ_lt_succ long)]

theorem getline_line (n : Nat) (delim : α) (line more : List α) (inside : delim ∉ line)
    (fits : line.length < n) :
    (Input.ofList (line ++ delim :: more)).getline n delim =
      (line, line.length + 1, Input.ofList more) := by
  have read : scan delim (n - 1) (line ++ delim :: more) = (line, .delimiter, more) :=
    scan_line inside (by omega)
  simp [Input.getline, Input.ofList, read]

/-- A line for which the buffer is too small. -/
theorem getline_full (n : Nat) (delim : α) (line more : List α) (inside : delim ∉ line)
    (long : n ≤ line.length) (positive : 0 < n) :
    (Input.ofList (line ++ more)).getline n delim =
      (line.take (n - 1), n - 1,
        { rest := line.drop (n - 1) ++ more, eof := false, fail := true }) := by
  have read : scan delim (n - 1) (line ++ more) =
      (line.take (n - 1), .room, line.drop (n - 1) ++ more) := scan_full more inside (by omega)
  have count : min (n - 1) line.length = n - 1 := by omega
  simp [Input.getline, Input.ofList, read, count]

theorem fgets_line (n : Nat) (newline : α) (line more : List α) (inside : newline ∉ line)
    (fits : line.length + 1 < n) :
    (Input.ofList (line ++ newline :: more)).fgets n newline =
      (some (line ++ [newline]), Input.ofList more) := by
  have read := takeLine_line more inside (show line.length < n - 1 by omega)
  cases line with
  | nil =>
    rw [List.nil_append] at read
    simp [Input.fgets, Input.ofList, read]
  | cons c line =>
    rw [List.cons_append] at read
    simp [Input.fgets, Input.ofList, read]

theorem scan_length (delim : α) (room : Nat) (l : List α) :
    (scan delim room l).1.length + (if (scan delim room l).2.1 = .delimiter then 1 else 0) +
      (scan delim room l).2.2.length = l.length := by
  induction l generalizing room with
  | nil => simp [scan]
  | cons c l ih =>
    unfold scan
    split
    · simp
      omega
    · cases room with
      | zero => simp
      | succ room =>
        have := ih room
        simp only [List.length_cons]
        omega

theorem takeLine_length (newline : α) (room : Nat) (l : List α) :
    (takeLine newline room l).1.length + (takeLine newline room l).2.1.length = l.length := by
  induction l generalizing room with
  | nil => cases room <;> simp [takeLine]
  | cons c l ih =>
    cases room with
    | zero => simp [takeLine]
    | succ room =>
      have := ih room
      unfold takeLine
      split <;> simp only [List.length_cons, List.length_nil]
      · omega
      · omega

/-- What was counted was taken from the stream, and no more was stored. -/
theorem getline_length (n : Nat) (delim : α) (s : Input α) :
    (s.getline n delim).1.length ≤ (s.getline n delim).2.1 ∧
      (s.getline n delim).2.1 + (s.getline n delim).2.2.rest.length = s.rest.length := by
  have read := scan_length delim (n - 1) s.rest
  unfold Input.getline
  split
  · simp
  · split <;> rename_i same <;> rw [same] at read <;> simp at read ⊢ <;> omega

theorem fgets_length {n : Nat} {newline : α} {s rest : Input α} {line : List α}
    (read : s.fgets n newline = (some line, rest)) :
    line.length + rest.rest.length = s.rest.length := by
  have length := takeLine_length newline (n - 1) s.rest
  unfold Input.fgets at read
  split at read
  · cases read
  · rename_i same
    cases read
    rw [same] at length
    exact length

theorem fgets_some_ne {n : Nat} {newline : α} {s rest : Input α} {line : List α}
    (read : s.fgets n newline = (some line, rest)) : line ≠ [] := by
  unfold Input.fgets at read
  split at read
  · cases read
  · rename_i some' same
    cases read
    rintro rfl
    exact some' rfl

theorem getline_stored (n : Nat) (delim : α) (l : List α) :
    ((Input.ofList l).getline n delim).1 = (scan delim (n - 1) l).1 := by
  unfold Input.getline
  rw [if_neg (by simp [Input.ofList])]
  split <;> rename_i read <;> exact (congrArg Prod.fst read).symm

theorem scan_without (delim : α) (room : Nat) (l : List α) : delim ∉ (scan delim room l).1 := by
  induction l generalizing room with
  | nil => simp [scan]
  | cons c l ih =>
    unfold scan
    split
    · exact List.not_mem_nil
    · next other =>
      cases room with
      | zero => exact List.not_mem_nil
      | succ room => exact List.not_mem_cons_of_ne_of_not_mem (Ne.symm other) (ih room)

theorem getline_without (n : Nat) (delim : α) (s : Input α) : delim ∉ (s.getline n delim).1 := by
  have stored := scan_without delim (n - 1) s.rest
  unfold Input.getline
  split
  · exact List.not_mem_nil
  · split <;> rename_i read <;> rw [read] at stored <;> exact stored

theorem fgets_stored (n : Nat) (newline : α) (l : List α) :
    ((Input.ofList l).fgets n newline).1 =
      if (takeLine newline (n - 1) l).1 = [] then none else some (takeLine newline (n - 1) l).1 := by
  unfold Input.fgets
  split
  · rename_i read
    exact (if_pos (congrArg Prod.fst read)).symm
  · rename_i line rest eof some' read
    have stored : (takeLine newline (n - 1) l).1 = line := congrArg Prod.fst read
    rw [stored, if_neg some']

theorem fgets_some {n : Nat} {newline : α} {l : List α}
    (some' : (takeLine newline (n - 1) l).1 ≠ []) :
    (Input.ofList l).fgets n newline = (some (takeLine newline (n - 1) l).1,
      { rest := (takeLine newline (n - 1) l).2.1, eof := (takeLine newline (n - 1) l).2.2,
        fail := false }) := by
  unfold Input.fgets
  split
  · rename_i read
    exact absurd (congrArg Prod.fst read) some'
  · rename_i line rest eof _ read
    have taken : takeLine newline (n - 1) l = (line, rest, eof) := read
    simp [taken, Input.ofList]

/-! ### What a line begins with -/

omit [DecidableEq α] in
theorem prefix_takeWhile {p : α → Bool} {front l : List α} (all : ∀ c ∈ front, p c) :
    front <+: l.takeWhile p ↔ front <+: l := by
  constructor
  · intro begins
    exact begins.trans (List.takeWhile_prefix p)
  · rintro ⟨more, rfl⟩
    rw [List.takeWhile_append_of_pos all]
    exact List.prefix_append front _

omit [DecidableEq α] in
theorem prefix_dropLast {front l : List α} (some' : l ≠ []) :
    front <+: l.dropLast ↔ ∃ c, front ++ [c] <+: l := by
  rw [List.dropLast_eq_take, List.prefix_take_iff]
  constructor
  · rintro ⟨⟨more, rfl⟩, room⟩
    cases more with
    | nil =>
      have := List.length_pos_iff.mpr some'
      rw [List.append_nil] at room this
      omega
    | cons c more => exact ⟨c, more, by simp⟩
  · rintro ⟨c, more, rfl⟩
    exact ⟨⟨c :: more, by simp⟩, by simp⟩

theorem prefix_scan {delim : α} {room : Nat} {front l : List α} (inside : delim ∉ front)
    (fits : front.length ≤ room) : front <+: (scan delim room l).1 ↔ front <+: l := by
  induction front generalizing room l with
  | nil => simp
  | cons c front ih =>
    obtain ⟨other, inside⟩ := List.ne_and_not_mem_of_not_mem_cons inside
    cases l with
    | nil => simp [scan]
    | cons d l =>
      cases room with
      | zero => simp at fits
      | succ room =>
        have later := ih (l := l) inside (Nat.le_of_succ_le_succ fits)
        by_cases ends : d = delim
        · subst ends
          simp [scan, List.cons_prefix_cons, Ne.symm other]
        · simp [scan, ends, List.cons_prefix_cons, later]

theorem prefix_takeLine {newline : α} {room : Nat} {front l : List α} {c : α}
    (inside : newline ∉ front) (fits : front.length < room) :
    front ++ [c] <+: (takeLine newline room l).1 ↔ front ++ [c] <+: l := by
  induction front generalizing room l with
  | nil =>
    cases room with
    | zero => simp at fits
    | succ room =>
      cases l with
      | nil => simp [takeLine]
      | cons d l =>
        by_cases ends : d = newline
        · simp [takeLine, ends, List.cons_prefix_cons]
        · simp [takeLine, ends, List.cons_prefix_cons]
  | cons e front ih =>
    obtain ⟨other, inside⟩ := List.ne_and_not_mem_of_not_mem_cons inside
    cases l with
    | nil => cases room <;> simp [takeLine]
    | cons d l =>
      cases room with
      | zero => simp at fits
      | succ room =>
        have later := ih (l := l) inside (Nat.lt_of_succ_lt_succ fits)
        by_cases ends : d = newline
        · subst ends
          simp [takeLine, List.cons_prefix_cons, Ne.symm other]
        · simp [takeLine, ends, List.cons_prefix_cons, later]

/-- The front may fill the buffer. -/
theorem prefix_takeLine_full {newline : α} {room : Nat} {front l : List α}
    (inside : newline ∉ front) (fits : front.length ≤ room) :
    front <+: (takeLine newline room l).1 ↔ front <+: l := by
  cases front using List.reverseRecOn with
  | nil => simp
  | append_singleton front c =>
    rw [List.length_append, List.length_singleton] at fits
    apply prefix_takeLine _ fits
    exact fun member => inside (List.mem_append_left _ member)

end Libdap.Library.LineInput
