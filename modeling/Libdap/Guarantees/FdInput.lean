import Libdap.Source.FdInput

/-!
# What is read through an input buffer

A reader of the text itself, with what lies before its position and what lies ahead, says what
the buffer should give. The put-back area follows it as long as the bytes to be moved there lie
behind it, and `underflow` must not return a byte for the end of the file.
-/
namespace Libdap.Guarantees.FdInput
open Libdap.Library.Slices
open Libdap.Source Libdap.Source.FdInput

/-! ## The text that is read -/

/-- A position in a text. -/
structure Text where
  before : List UInt8
  ahead : List UInt8

def codes (bytes : List UInt8) : List Int := bytes.map fun c => (c.toNat : Int)

/-- The last `k` characters that were read. -/
def Text.last (t : Text) (k : Nat) : List UInt8 := t.before.drop (t.before.length - k)

/-- What an action gives, and the position behind it. -/
def Text.act (t : Text) : Action → List Int × Text
  | .next =>
    match t.ahead with
    | [] => ([EOF], t)
    | c :: ahead => ([(c.toNat : Int)], { before := t.before ++ [c], ahead })
  | .again k => (codes (t.last k).reverse ++ codes (t.last k), t)

/-- At most 128 of the characters read are put back. -/
def Text.Allows (t : Text) : Action → Prop
  | .next => True
  | .again k => k ≤ min putBack t.before.length

def Text.run : Text → List Action → List Int
  | _, [] => []
  | t, a :: as => (t.act a).1 ++ (t.act a).2.run as

def Text.Runs : Text → List Action → Prop
  | _, [] => True
  | t, a :: as => t.Allows a ∧ (t.act a).2.Runs as

/-- The buffer gives what the text has, in every run. -/
def Refines (s : InBuf) (t : Text) : Prop := ∀ as, t.Runs as → s.run as = .ok (t.run as)

def bytesOf (chunks : List Chunk) : List UInt8 := chunks.flatMap Chunk.bytes

/-- No chunk begins with the byte 255, and all but the first fill the put-back area. -/
structure Served (chunks : List Chunk) : Prop where
  heads : ∀ chunk ∈ chunks, chunk.bytes.head? ≠ some 255
  lengths : ∀ chunk ∈ chunks.tail, putBack ≤ chunk.bytes.length

/-! ## The buffer -/

/-- How many of the characters read can be put back. -/
def kept (before : List UInt8) : Nat := min before.length putBack

/-- The buffer holds what lies ahead of its position, and what can be put back. -/
structure Holds (s : InBuf) (before ahead : List UInt8) : Prop where
  low : putBack ≤ s.gptr
  start : s.eback ≤ putBack
  stop : s.egptr = s.gptr + ahead.length
  high : s.egptr ≤ bufferSize
  read : slice s.buffer s.gptr ahead.length = ahead
  count : min (s.gptr - s.eback) putBack = kept before
  back : slice s.buffer (s.gptr - kept before) (kept before) =
    before.drop (before.length - kept before)

/-- What will be moved to the put-back area does not lie in it. -/
def Room (s : InBuf) : Prop := s.eback = putBack ∨ 2 * putBack ≤ s.egptr

theorem Room.of_eq {s s' : InBuf} (room : Room s) (eback : s'.eback = s.eback)
    (egptr : s'.egptr = s.egptr) : Room s' := by
  unfold Room
  rw [eback, egptr]
  exact room

theorem current_of_slice {s : InBuf} {c : UInt8} {n : Nat} {rest : List UInt8}
    (read : slice s.buffer s.gptr n = c :: rest) : s.current = .ok c := by
  unfold InBuf.current
  rw [getElem?_of_slice read]

theorem take_of_slice {s : InBuf} {c : UInt8} {n : Nat} {rest : List UInt8}
    (read : slice s.buffer s.gptr n = c :: rest) :
    s.take = .ok ((c.toNat : Int), { s with gptr := s.gptr + 1 }) := by
  unfold InBuf.take
  rw [current_of_slice read]
  rfl

theorem repeat_sbumpc (cs : List UInt8) {s : InBuf} (read : slice s.buffer s.gptr cs.length = cs)
    (inside : s.gptr + cs.length ≤ s.egptr) :
    InBuf.repeat InBuf.sbumpc cs.length s =
      .ok (codes cs, { s with gptr := s.gptr + cs.length }) := by
  induction cs generalizing s with
  | nil => rfl
  | cons c cs ih =>
    rw [List.length_cons] at inside
    have one : s.sbumpc = .ok ((c.toNat : Int), { s with gptr := s.gptr + 1 }) := by
      unfold InBuf.sbumpc
      rw [if_pos (by omega), take_of_slice read]
    have parts := slice_append [c] _ (by simpa [Nat.add_comm] using read)
    have rest := ih (s := { s with gptr := s.gptr + 1 }) parts.2 (by simp only; omega)
    rw [List.length_cons, InBuf.repeat, one]
    simp only [bind, Except.bind, rest]
    simp [codes, pure, Except.pure, Nat.add_assoc, Nat.add_comm 1]

theorem repeat_sungetc (back : List UInt8) {s : InBuf}
    (read : slice s.buffer (s.gptr - back.length) back.length = back)
    (inside : s.eback + back.length ≤ s.gptr) :
    InBuf.repeat InBuf.sungetc back.length s =
      .ok (codes back.reverse, { s with gptr := s.gptr - back.length }) := by
  induction back using List.reverseRecOn generalizing s with
  | nil => rfl
  | append_singleton back c ih =>
    rw [List.length_append, List.length_singleton] at read inside ⊢
    have parts := slice_append back [c] read
    have place : s.gptr - (back.length + 1) + back.length = s.gptr - 1 := by omega
    have front : s.gptr - 1 - back.length = s.gptr - (back.length + 1) := by omega
    have last : slice s.buffer (s.gptr - 1) 1 = [c] := place ▸ parts.2
    have one : s.sungetc = .ok ((c.toNat : Int), { s with gptr := s.gptr - 1 }) := by
      unfold InBuf.sungetc
      have current := current_of_slice (s := { s with gptr := s.gptr - 1 }) last
      rw [if_pos (by omega)]
      simp only [current]
      rfl
    have rest := ih (s := { s with gptr := s.gptr - 1 }) (by rw [front]; exact parts.1)
      (by simp only; omega)
    rw [InBuf.repeat, one]
    simp only [bind, Except.bind, rest, front]
    simp [codes, pure, Except.pure]

/-! ### The position moves -/

theorem kept_le (before : List UInt8) : kept before ≤ before.length := Nat.min_le_left _ _

theorem last_length {before : List UInt8} {k : Nat} (few : k ≤ before.length) :
    (before.drop (before.length - k)).length = k := by
  rw [List.length_drop]
  omega

/-- The last characters are a part of those that are kept. -/
theorem Holds.last {s : InBuf} {before ahead : List UInt8} (holds : Holds s before ahead) {k : Nat}
    (few : k ≤ kept before) :
    slice s.buffer (s.gptr - k) k = before.drop (before.length - k) := by
  have inside : kept before ≤ s.gptr := by
    have := holds.count
    omega
  have le := kept_le before
  have place : s.gptr - kept before + (kept before - k) = s.gptr - k := by omega
  have rest := slice_drop s.buffer (s.gptr - kept before) (kept before - k) k
  rw [Nat.sub_add_cancel few, holds.back, List.drop_drop, place] at rest
  rw [← rest]
  congr 1
  omega

/-- One character is taken from what is ahead. -/
theorem Holds.next {s : InBuf} {before ahead : List UInt8} {c : UInt8}
    (holds : Holds s before (c :: ahead)) :
    Holds { s with gptr := s.gptr + 1 } (before ++ [c]) ahead := by
  have stop := holds.stop
  rw [List.length_cons] at stop
  have parts := slice_append [c] _ (by simpa [Nat.add_comm] using holds.read)
  have more : kept (before ++ [c]) ≤ kept before + 1 := by
    simp [kept]
    omega
  have counted : min (s.gptr + 1 - s.eback) putBack = kept (before ++ [c]) := by
    have count := holds.count
    have start := holds.start
    have low := holds.low
    unfold kept at count ⊢
    rw [List.length_append, List.length_singleton]
    omega
  constructor
  · exact Nat.le_succ_of_le holds.low
  · exact holds.start
  · simp only
    omega
  · exact holds.high
  · exact parts.2
  · exact counted
  · have inside : kept before ≤ s.gptr := by
      have := holds.count
      omega
    have le := kept_le before
    have place : s.gptr - kept before + kept before = s.gptr := by omega
    have whole : slice s.buffer (s.gptr - kept before) (kept before + 1) =
        before.drop (before.length - kept before) ++ [c] := by
      rw [slice_add, holds.back, place]
      exact congrArg _ parts.1
    have place' : s.gptr - kept before + (kept before + 1 - kept (before ++ [c])) =
        s.gptr + 1 - kept (before ++ [c]) := by omega
    have rest := slice_drop s.buffer (s.gptr - kept before)
      (kept before + 1 - kept (before ++ [c])) (kept (before ++ [c]))
    rw [Nat.sub_add_cancel more, whole, place'] at rest
    rw [← rest, ← List.drop_append_of_le_length (by omega), List.drop_drop, List.length_append,
      List.length_singleton]
    congr 1
    omega

/-! ### The next chunk -/

/-- The buffer when the characters that are kept were moved. -/
def moved (s : InBuf) (before : List UInt8) : Vector UInt8 bufferSize :=
  blit s.buffer (putBack - kept before) (slice s.buffer (s.gptr - kept before) (kept before))

/-- The buffer when the chunk was read. -/
def entered (s : InBuf) (before : List UInt8) (chunk : Chunk) (source : List Chunk) : InBuf where
  buffer := blit (moved s before) putBack chunk.bytes
  eback := putBack - kept before
  gptr := putBack
  egptr := putBack + chunk.bytes.length
  source := source

theorem Holds.counted {s : InBuf} {before ahead : List UInt8} (holds : Holds s before ahead) :
    kept before ≤ putBack ∧ s.eback + kept before ≤ s.gptr ∧ s.gptr ≤ bufferSize := by
  have := holds.count
  have := holds.stop
  have := holds.high
  have := holds.low
  have := holds.start
  omega

/-- The characters that are moved lie behind the put-back area. -/
theorem Holds.apart {s : InBuf} {before : List UInt8} (holds : Holds s before []) (room : Room s) :
    kept before = 0 ∨ putBack ≤ s.gptr - kept before := by
  have count := holds.count
  have stop := holds.stop
  have counted := holds.counted
  rw [List.length_nil] at stop
  cases room with
  | inl first => omega
  | inr large => omega

theorem Holds.memcpy {s : InBuf} {before : List UInt8} (holds : Holds s before [])
    (room : Room s) :
    memcpy s.buffer (putBack - kept before) (s.gptr - kept before) (kept before) =
      .ok (moved s before) := by
  have apart := holds.apart room
  have counted := holds.counted
  have fits : putBack ≤ bufferSize := by decide
  unfold FdInput.memcpy
  rw [if_pos (by omega)]
  rfl

/-- Without room the source of the copy ends in its destination or behind it. -/
theorem Holds.overlap {s : InBuf} {before : List UInt8} (holds : Holds s before [])
    (room : ¬ Room s) :
    FdInput.memcpy s.buffer (putBack - kept before) (s.gptr - kept before) (kept before) =
      .error .undefinedBehaviour := by
  have count := holds.count
  have stop := holds.stop
  have low := holds.low
  have start := holds.start
  obtain ⟨later, small⟩ := not_or.mp room
  rw [List.length_nil] at stop
  unfold FdInput.memcpy
  rw [if_neg]
  have size : putBack = 128 := rfl
  omega

theorem Holds.moved_back {s : InBuf} {before : List UInt8} (holds : Holds s before [])
    (room : Room s) : Holds { s with buffer := moved s before } before [] := by
  have apart := holds.apart room
  have counted := holds.counted
  have length := slice_length_le s.buffer (s.gptr - kept before) (kept before)
  constructor
  · exact holds.low
  · exact holds.start
  · exact holds.stop
  · exact holds.high
  · rfl
  · exact holds.count
  · show slice (moved s before) (s.gptr - kept before) (kept before) = _
    rw [← holds.back]
    apply slice_blit_apart
    omega

/-- The put-back area and the chunk lie one behind the other. -/
theorem Holds.entered {s : InBuf} {before : List UInt8} (holds : Holds s before [])
    (chunk : Chunk) (source : List Chunk) :
    Holds (entered s before chunk source) before chunk.bytes := by
  have counted := holds.counted
  have fits := chunk.fits
  have size : putBack ≤ bufferSize := by decide
  have length := slice_length (v := s.buffer) (a := s.gptr - kept before) (n := kept before)
    (by omega)
  constructor
  · exact Nat.le_refl _
  · exact Nat.sub_le _ _
  · rfl
  · show putBack + chunk.bytes.length ≤ bufferSize
    omega
  · exact slice_blit _ _ (by omega)
  · show min (putBack - (putBack - kept before)) putBack = kept before
    omega
  · show slice (blit (moved s before) putBack chunk.bytes) (putBack - kept before) (kept before) = _
    rw [slice_blit_apart _ (by omega), ← holds.back]
    have copied : slice (moved s before) (putBack - kept before) _ = _ :=
      slice_blit s.buffer (slice s.buffer (s.gptr - kept before) (kept before)) (by omega)
    rw [length] at copied
    exact copied

theorem underflow_reads {s : InBuf} {before : List UInt8} (holds : Holds s before []) :
    s.underflow = (do
      let buffer ← FdInput.memcpy s.buffer (putBack - kept before) (s.gptr - kept before)
        (kept before)
      match s.source with
      | [] => pure (EOF, { s with buffer })
      | chunk :: source =>
        let s : InBuf := { s with buffer := blit buffer putBack chunk.bytes, source }
        let s := s.setg (putBack - kept before) putBack (putBack + chunk.bytes.length)
        let c ← s.current
        pure (signed c, s)) := by
  have stop := holds.stop
  rw [← holds.count]
  exact if_neg (by simp [stop])

theorem signed_eof (c : UInt8) : signed c = EOF ↔ c = 255 := by
  have range := c.toNat_lt
  have same : c = 255 ↔ c.toNat = 255 := UInt8.toNat_inj.symm
  unfold signed EOF
  rw [same]
  split <;> omega

theorem sbumpc_end {s : InBuf} {before : List UInt8} (holds : Holds s before []) (room : Room s)
    (ends : s.source = []) :
    s.sbumpc = .ok (EOF, { s with buffer := moved s before }) := by
  have stop := holds.stop
  unfold InBuf.sbumpc InBuf.uflow
  rw [if_neg (by simp [stop]), underflow_reads holds, holds.memcpy room, ends]
  rfl

theorem sbumpc_chunk {s : InBuf} {before rest : List UInt8} {c : UInt8} {chunk : Chunk}
    {source : List Chunk} (holds : Holds s before []) (room : Room s)
    (next : s.source = chunk :: source) (bytes : chunk.bytes = c :: rest) :
    s.sbumpc = if c = 255 then .ok (EOF, entered s before chunk source)
      else .ok ((c.toNat : Int),
        { entered s before chunk source with gptr := putBack + 1 }) := by
  have stop := holds.stop
  have read := (holds.entered chunk source).read
  have current : (entered s before chunk source).current = .ok c :=
    current_of_slice (read.trans bytes)
  have taken := take_of_slice (read.trans bytes)
  have reads : s.underflow = .ok (signed c, entered s before chunk source) := by
    rw [underflow_reads holds, holds.memcpy room, next]
    simp only [bind, Except.bind]
    exact congrArg (Except.map fun c => (signed c, entered s before chunk source)) current
  unfold InBuf.sbumpc InBuf.uflow
  rw [if_neg (by simp [stop]), reads]
  simp only [bind, Except.bind, signed_eof]
  split
  · rfl
  · exact taken

theorem sbumpc_overlap {s : InBuf} {before : List UInt8} (holds : Holds s before [])
    (room : ¬ Room s) : s.sbumpc = .error .undefinedBehaviour := by
  have stop := holds.stop
  unfold InBuf.sbumpc InBuf.uflow
  rw [if_neg (by simp [stop]), underflow_reads holds, holds.overlap room]
  rfl

/-! ## The buffer follows the text -/

/-- What the chunks to come must be when `before` was read. -/
structure Fits (before : List UInt8) (chunks : List Chunk) : Prop where
  heads : ∀ chunk ∈ chunks, chunk.bytes.head? ≠ some 255
  first : before = [] → ∀ chunk ∈ chunks.tail, putBack ≤ chunk.bytes.length
  later : before ≠ [] → ∀ chunk ∈ chunks, putBack ≤ chunk.bytes.length

structure Simulates (s : InBuf) (t : Text) (ahead : List UInt8) : Prop where
  text : t.ahead = ahead ++ bytesOf s.source
  holds : Holds s t.before ahead
  room : Room s
  fits : Fits t.before s.source
  fresh : t.before = [] → ahead = []

theorem Fits.grow {before : List UInt8} {chunks : List Chunk} (fits : Fits before chunks)
    (some' : before ≠ []) (more : List UInt8) : Fits (before ++ more) chunks where
  heads := fits.heads
  first := fun none' => absurd (List.append_eq_nil_iff.mp none').1 some'
  later := fun _ => fits.later some'

theorem Fits.tail {before : List UInt8} {chunk : Chunk} {chunks : List Chunk}
    (fits : Fits before (chunk :: chunks)) (c : UInt8) : Fits (before ++ [c]) chunks where
  heads := fun chunk member => fits.heads chunk (List.mem_cons_of_mem _ member)
  first := fun none' => by simp at none'
  later := by
    intro _ other member
    by_cases none' : before = []
    · exact fits.first none' other member
    · exact fits.later none' other (List.mem_cons_of_mem _ member)

/-- Behind the first chunk, or with a chunk that fills the put-back area, there is room. -/
theorem Fits.room {before : List UInt8} {chunk : Chunk} {chunks : List Chunk}
    (fits : Fits before (chunk :: chunks)) (s : InBuf) (source : List Chunk) :
    Room (entered s before chunk source) := by
  by_cases none' : before = []
  · left
    rw [none']
    rfl
  · right
    have long := fits.later none' chunk (List.mem_cons_self ..)
    show 2 * putBack ≤ putBack + chunk.bytes.length
    omega

theorem act_next {s s' : InBuf} {c : Int} (one : s.sbumpc = .ok (c, s')) :
    s.act .next = .ok ([c], s') := by
  simp [InBuf.act, InBuf.repeat, one, bind, Except.bind, pure, Except.pure]

theorem sbumpc_ahead {s : InBuf} {before ahead : List UInt8} {c : UInt8}
    (holds : Holds s before (c :: ahead)) :
    s.sbumpc = .ok ((c.toNat : Int), { s with gptr := s.gptr + 1 }) := by
  have stop := holds.stop
  rw [List.length_cons] at stop
  unfold InBuf.sbumpc
  rw [if_pos (by omega)]
  exact take_of_slice holds.read

theorem act_again {s : InBuf} {before ahead : List UInt8} (holds : Holds s before ahead) {k : Nat}
    (few : k ≤ kept before) :
    s.act (.again k) = .ok (codes (before.drop (before.length - k)).reverse ++
      codes (before.drop (before.length - k)), s) := by
  have counted := holds.counted
  have stop := holds.stop
  have length := last_length (few.trans (kept_le before))
  have last := holds.last few
  have back := repeat_sungetc (before.drop (before.length - k)) (s := s)
    (by rw [length]; exact last) (by omega)
  have forth := repeat_sbumpc (before.drop (before.length - k)) (s := { s with gptr := s.gptr - k })
    (by rw [length]; exact last) (by simp only [length]; omega)
  rw [length] at back forth
  have place : s.gptr - k + k = s.gptr := by omega
  simp only [place] at forth
  simp [InBuf.act, back, forth, bind, Except.bind, pure, Except.pure]

theorem Simulates.next {s : InBuf} {t : Text} {ahead : List UInt8}
    (simulates : Simulates s t ahead) :
    ∃ s' ahead', s.act .next = .ok ((t.act .next).1, s') ∧
      Simulates s' (t.act .next).2 ahead' := by
  obtain ⟨text, holds, room, fits, fresh⟩ := simulates
  cases ahead with
  | cons c ahead =>
    have some' : t.before ≠ [] := fun none' => List.cons_ne_nil _ _ (fresh none')
    rw [List.cons_append] at text
    have moves : t.act .next = ([(c.toNat : Int)],
        { before := t.before ++ [c], ahead := ahead ++ bytesOf s.source }) := by
      simp [Text.act, text]
    rw [moves]
    exact ⟨_, ahead, act_next (sbumpc_ahead holds), rfl, holds.next, room.of_eq rfl rfl,
      fits.grow some' [c],
      fun none' => by simp at none'⟩
  | nil =>
    cases next : s.source with
    | nil =>
      rw [next] at text
      have moves : t.act .next = ([EOF], t) := by
        simp [Text.act, text, bytesOf]
      rw [moves]
      refine ⟨_, [], act_next (sbumpc_end holds room next), ?_, holds.moved_back room, ?_, fits,
        fun _ => rfl⟩
      · show t.ahead = [] ++ bytesOf s.source
        rw [next]
        exact text
      · exact room.of_eq rfl rfl
    | cons chunk source =>
      obtain ⟨c, cs, bytes⟩ := List.exists_cons_of_ne_nil chunk.some'
      rw [next] at fits
      have other : c ≠ 255 := by
        have head := fits.heads chunk (List.mem_cons_self ..)
        rw [bytes, List.head?_cons] at head
        exact fun same => head (congrArg some same)
      have read := sbumpc_chunk holds room next bytes
      rw [if_neg other] at read
      have moves : t.act .next = ([(c.toNat : Int)],
          { before := t.before ++ [c], ahead := cs ++ bytesOf source }) := by
        simp [Text.act, text, next, bytesOf, bytes]
      have inside := holds.entered chunk source
      rw [bytes] at inside
      rw [moves]
      exact ⟨_, cs, act_next read, rfl, inside.next, fits.room s source, fits.tail c,
        fun none' => by simp at none'⟩

/-- One action. -/
theorem Simulates.act {s : InBuf} {t : Text} {ahead : List UInt8}
    (simulates : Simulates s t ahead) {a : Action} (allowed : t.Allows a) :
    ∃ s' ahead', s.act a = .ok ((t.act a).1, s') ∧ Simulates s' (t.act a).2 ahead' := by
  cases a with
  | next => exact simulates.next
  | again k =>
    have few : k ≤ kept t.before := by
      unfold kept
      rw [Nat.min_comm]
      exact allowed
    exact ⟨s, ahead, act_again simulates.holds few, simulates⟩

theorem run_cons {s s' : InBuf} {a : Action} {cs : List Int} (one : s.act a = .ok (cs, s'))
    (as : List Action) : s.run (a :: as) = (s'.run as).map (cs ++ ·) := by
  rw [InBuf.run, one]
  cases ran : s'.run as <;> simp [bind, Except.bind, Except.map, ran, pure, Except.pure]

/-- Whole runs. -/
theorem Simulates.refines {s : InBuf} {t : Text} {ahead : List UInt8}
    (simulates : Simulates s t ahead) : Refines s t := by
  intro as allowed
  induction as generalizing s t ahead with
  | nil => rfl
  | cons a as ih =>
    obtain ⟨s', ahead', one, later⟩ := simulates.act allowed.1
    rw [run_cons one, ih later allowed.2]
    rfl

/-! ## What a buffer that follows the text was given -/

/-- A step the buffer follows, and what it follows from there. -/
theorem Refines.next {s : InBuf} {t : Text} (refines : Refines s t) :
    ∃ s', s.act .next = .ok ((t.act .next).1, s') ∧ Refines s' (t.act .next).2 := by
  have one := refines [.next] ⟨trivial, trivial⟩
  cases ran : s.act .next with
  | error e =>
    rw [InBuf.run, ran] at one
    cases one
  | ok outcome =>
    obtain ⟨cs, s'⟩ := outcome
    rw [run_cons ran] at one
    have given : cs = (t.act .next).1 := by
      simpa [InBuf.run, Text.run, Except.map] using one
    rw [given] at ran
    refine ⟨s', by rw [given], ?_⟩
    intro as allowed
    have more := refines (.next :: as) ⟨trivial, allowed⟩
    rw [run_cons ran, Text.run] at more
    cases rest : s'.run as with
    | error e =>
      rw [rest] at more
      cases more
    | ok cs' =>
      rw [rest] at more
      exact congrArg Except.ok (List.append_cancel_left (Except.ok.inj more))

/-- The rest of a chunk is read. -/
theorem Refines.through {s : InBuf} {before ahead rest : List UInt8}
    (refines : Refines s { before, ahead := ahead ++ rest }) (holds : Holds s before ahead) :
    ∃ s', s'.source = s.source ∧ s'.eback = s.eback ∧ s'.egptr = s.egptr ∧
      Holds s' (before ++ ahead) [] ∧ Refines s' { before := before ++ ahead, ahead := rest } := by
  induction ahead generalizing s before with
  | nil =>
    rw [List.append_nil]
    exact ⟨s, rfl, rfl, rfl, holds, refines⟩
  | cons c ahead ih =>
    obtain ⟨s', one, later⟩ := refines.next
    rw [act_next (sbumpc_ahead holds)] at one
    cases one
    obtain ⟨s', source, eback, egptr, holds', refines'⟩ := ih later holds.next
    rw [List.append_assoc, List.singleton_append] at holds' refines'
    exact ⟨s', source, eback, egptr, holds', refines'⟩

/-- With room behind a chunk that was just read, the chunk is the first or fills the put-back
area alone. -/
theorem Room.long {s : InBuf} {before : List UInt8} {n : Nat} (room : Room s)
    (eback : s.eback = putBack - kept before) (egptr : s.egptr = putBack + n) :
    before = [] ∨ putBack ≤ n := by
  cases room with
  | inl first =>
    left
    have some' : 0 < putBack := by decide
    have none' : kept before = 0 := by omega
    unfold kept at none'
    exact List.length_eq_zero_iff.mp (by omega)
  | inr large =>
    right
    omega

/-- Each chunk that is read to its end was one that fits, by the first of them and the rest. -/
theorem Refines.fits {chunks : List Chunk} {s : InBuf} {before : List UInt8}
    (source : s.source = chunks) (holds : Holds s before []) (room : Room s)
    (refines : Refines s { before, ahead := bytesOf chunks }) : Fits before chunks := by
  induction chunks generalizing s before with
  | nil => exact ⟨by simp, by simp, by simp⟩
  | cons chunk chunks ih =>
    obtain ⟨c, cs, bytes⟩ := List.exists_cons_of_ne_nil chunk.some'
    have ahead : bytesOf (chunk :: chunks) = c :: (cs ++ bytesOf chunks) := by
      simp [bytesOf, bytes]
    have read := sbumpc_chunk holds room source bytes
    obtain ⟨s', one, later⟩ := refines.next
    simp only [ahead, Text.act] at one later
    have other : c ≠ 255 := by
      rintro rfl
      rw [if_pos rfl] at read
      rw [act_next read] at one
      simp [EOF] at one
    rw [if_neg other] at read
    rw [act_next read] at one
    obtain ⟨-, rfl⟩ := Prod.mk.inj (Except.ok.inj one)
    have inside := holds.entered chunk chunks
    rw [bytes] at inside
    obtain ⟨s', source', eback, egptr, holds', refines'⟩ := later.through inside.next
    rw [List.append_assoc, List.singleton_append, ← bytes] at holds' refines'
    have room' : Room s' := by
      by_contra tight
      obtain ⟨s'', one, -⟩ := refines'.next
      have overlap := sbumpc_overlap holds' tight
      simp [InBuf.act, InBuf.repeat, overlap, bind, Except.bind] at one
    have rest := ih source' holds' room' refines'
    have some' : before ++ chunk.bytes ≠ [] := by simp [chunk.some']
    have long : before = [] ∨ putBack ≤ chunk.bytes.length := room'.long eback egptr
    constructor
    · intro other' member
      cases List.mem_cons.mp member with
      | inl same =>
        rw [same, bytes, List.head?_cons]
        exact fun same => other (Option.some.inj same)
      | inr behind => exact rest.heads other' behind
    · intro _ other' member
      exact rest.later some' other' member
    · intro read other' member
      cases List.mem_cons.mp member with
      | inl same =>
        rw [same]
        exact long.resolve_left read
      | inr behind => exact rest.later some' other' behind

/-! ## Both classes -/

theorem make_holds (memory : Vector UInt8 bufferSize) (chunks : List Chunk) :
    Holds (.make memory chunks) [] [] := by
  constructor
  · exact Nat.le_refl _
  · exact Nat.le_refl _
  · rfl
  · exact (by decide : putBack ≤ bufferSize)
  · simp [slice]
  · simp [InBuf.make, kept]
  · simp [InBuf.make, kept, slice]

theorem served_iff_fits (chunks : List Chunk) : Served chunks ↔ Fits [] chunks :=
  ⟨fun served => ⟨served.heads, fun _ => served.lengths, fun some' => absurd rfl some'⟩,
    fun fits => ⟨fits.heads, fits.first rfl⟩⟩

theorem make_refines_iff (memory : Vector UInt8 bufferSize) (chunks : List Chunk) :
    Refines (.make memory chunks) { before := [], ahead := bytesOf chunks } ↔ Served chunks := by
  have holds := make_holds memory chunks
  rw [served_iff_fits]
  constructor
  · intro refines
    exact refines.fits rfl holds (Or.inl rfl)
  · intro fits
    have simulates :
        Simulates (.make memory chunks) { before := [], ahead := bytesOf chunks } [] :=
      ⟨rfl, holds, Or.inl rfl, fits, fun _ => rfl⟩
    exact simulates.refines

theorem bytesOf_freads (file : List UInt8) : bytesOf (freads file) = file := by
  fun_induction freads file with
  | case1 => rfl
  | case2 file some' ih =>
    unfold bytesOf at ih ⊢
    rw [List.flatMap_cons, ih, List.take_append_drop]

def twoReads : List Chunk :=
  [{ bytes := [97], some' := by decide, fits := by decide },
    { bytes := [98], some' := by decide, fits := by decide }]

/-- With one byte in the second read the copy at the end of the file overlaps. -/
theorem twoReads_refines :
    ¬ Refines (fdinbuf (Vector.replicate bufferSize 0) twoReads)
      { before := [], ahead := bytesOf twoReads } := by
  intro refines
  have served := (make_refines_iff _ twoReads).mp refines
  have short := served.lengths ⟨[98], by decide, by decide⟩ (by simp [twoReads])
  revert short
  decide

/-- An `fdinbuf` delivers the bytes of its reads and an `fpinbuf` those of its file. -/
theorem inbuf_refines_iff (memory : Vector UInt8 bufferSize) :
    (∀ reads, Refines (fdinbuf memory reads) { before := [], ahead := bytesOf reads } ↔
      Served reads) ∧
    ∀ file, Refines (fpinbuf memory file) { before := [], ahead := file } ↔
      Served (freads file) := by
  constructor
  · intro reads
    exact make_refines_iff memory reads
  · intro file
    have chunks := make_refines_iff memory (freads file)
    rw [bytesOf_freads] at chunks
    exact chunks

end Libdap.Guarantees.FdInput
