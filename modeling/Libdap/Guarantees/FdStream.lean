import Libdap.Source.FdStream
import Mathlib.Tactic

/-!
# What a descriptor receives through its output buffer

The buffer is seen as the bytes that wait in it. A stretch of calls ends where it is flushed:
with a `sync`, or with the `sputc` that finds one place left.
-/
namespace Libdap.Guarantees.FdStream
open Libdap.Source Libdap.Source.FdStream

def charactersOf : Call → List UInt8
  | .sputc c => [c]
  | .sputn s => s
  | .sync => []

def blockOf : Call → List UInt8
  | .sputn s => s
  | _ => []

def singleOf : Call → List UInt8
  | .sputc c => [c]
  | _ => []

/-- The characters given to the stream, in call order. -/
def spelled (cs : List Call) : List UInt8 := cs.flatMap charactersOf

def blocks (cs : List Call) : List UInt8 := cs.flatMap blockOf

def singles (cs : List Call) : List UInt8 := cs.flatMap singleOf

/-- After a final `sync` the descriptor has received what was given to the stream and no other
one anything, and after every call the put pointer is in the buffer. A store outside of the
buffer would be undefined behaviour. -/
structure Delivered (fd : Nat) (memory : Vector UInt8 bufferSize) (cs : List Call) : Prop where
  received_all : ∃ b, (FdOutBuf.make fd memory).calls (cs ++ [.sync]) = .ok b ∧
    received b.writes fd = spelled cs ∧ ∀ d, d ≠ fd → received b.writes d = []
  pointer_inside : ∀ earlier later, cs ++ [.sync] = earlier ++ later →
    ∃ b, (FdOutBuf.make fd memory).calls earlier = .ok b ∧ b.pptr < bufferSize

/-- The stretches of calls between two flushes, with `pending` bytes in the buffer and `current`
the calls since the last flush. -/
def stretchesFrom : Nat → List Call → List Call → List (List Call)
  | _, current, [] => [current]
  | _, current, .sync :: rest => current :: stretchesFrom 0 [] rest
  | pending, current, .sputn s :: rest => stretchesFrom pending (current ++ [.sputn s]) rest
  | pending, current, .sputc c :: rest =>
    if pending + 1 = bufferSize then (current ++ [.sputc c]) :: stretchesFrom 0 [] rest
    else stretchesFrom (pending + 1) (current ++ [.sputc c]) rest

def stretches (cs : List Call) : List (List Call) := stretchesFrom 0 [] cs

/-- Standard output needs the blocks of every stretch to be given before its single characters, or
to spell the same with them when they are put first; any other descriptor takes blocks only. -/
def BlocksFirst (fd : Nat) (cs : List Call) : Prop :=
  if fd = 1 then ∀ stretch ∈ stretches cs, blocks stretch ++ singles stretch = spelled stretch
  else ∀ c, Call.sputc c ∉ cs

@[simp] theorem blocks_snoc (cs : List Call) (c : Call) :
    blocks (cs ++ [c]) = blocks cs ++ blockOf c := by
  simp [blocks]

@[simp] theorem singles_snoc (cs : List Call) (c : Call) :
    singles (cs ++ [c]) = singles cs ++ singleOf c := by
  simp [singles]

section Received
variable (writes : List (Nat × List UInt8)) (d : Nat)

@[simp] theorem received_nil : received [] d = [] := rfl

theorem received_snoc (descriptor : Nat) (bytes : List UInt8) :
    received (writes ++ [(descriptor, bytes)]) d =
      received writes d ++ if descriptor = d then bytes else [] := by
  by_cases same : descriptor = d <;> simp [received, same]

end Received

/-! ### The buffer as the bytes that wait in it -/

/-- The waiting bytes and the writes so far. -/
structure View where
  waiting : List UInt8
  writes : List (Nat × List UInt8)

def View.step (fd : Nat) (v : View) : Call → View
  | .sputc c =>
    if v.waiting.length + 1 = bufferSize then ⟨[], v.writes ++ [(1, v.waiting ++ [c])]⟩
    else ⟨v.waiting ++ [c], v.writes⟩
  | .sputn s => ⟨v.waiting, v.writes ++ [(fd, s)]⟩
  | .sync => ⟨[], v.writes ++ [(1, v.waiting)]⟩

theorem step_full {v : View} (full : v.waiting.length + 1 = bufferSize) (fd : Nat) (c : UInt8) :
    v.step fd (.sputc c) = ⟨[], v.writes ++ [(1, v.waiting ++ [c])]⟩ :=
  if_pos full

theorem step_room {v : View} (room : ¬v.waiting.length + 1 = bufferSize) (fd : Nat) (c : UInt8) :
    v.step fd (.sputc c) = ⟨v.waiting ++ [c], v.writes⟩ :=
  if_neg room

/-- A buffer with at least one place left that shows `v`. -/
structure Shows (fd : Nat) (v : View) (b : FdOutBuf) : Prop where
  descriptor : b.fd = fd
  limit : b.epptr = bufferSize - 1
  room : b.pptr < bufferSize
  waiting : b.buffer.toList.take b.pptr = v.waiting
  writes : b.writes = v.writes

variable {fd : Nat} {v : View} {b : FdOutBuf}

theorem Shows.length (shows : Shows fd v b) : v.waiting.length = b.pptr := by
  have size : b.buffer.toList.length = bufferSize := b.buffer.size_toArray
  have room := shows.room
  rw [← shows.waiting, List.length_take, size]
  omega

theorem shows_make (fd : Nat) (memory : Vector UInt8 bufferSize) :
    Shows fd ⟨[], []⟩ (FdOutBuf.make fd memory) where
  descriptor := rfl
  limit := rfl
  room := by simp [FdOutBuf.make, bufferSize]
  waiting := rfl
  writes := rfl

theorem shows_flush (shows : Shows fd v b) :
    Shows fd ⟨[], v.writes ++ [(1, v.waiting)]⟩ b.flushBuffer where
  descriptor := shows.descriptor
  limit := shows.limit
  room := by simp [FdOutBuf.flushBuffer, FdOutBuf.write, bufferSize]
  waiting := by simp [FdOutBuf.flushBuffer, FdOutBuf.write]
  writes := by simp [FdOutBuf.flushBuffer, FdOutBuf.write, shows.writes, shows.waiting]

theorem store_eq (shows : Shows fd v b) (c : UInt8) : ∃ b', b.store c = .ok b' ∧
    b'.fd = fd ∧ b'.epptr = bufferSize - 1 ∧ b'.pptr = b.pptr + 1 ∧
    b'.buffer.toList.take b'.pptr = v.waiting ++ [c] ∧ b'.writes = v.writes := by
  have room := shows.room
  rw [FdOutBuf.store, dif_pos room]
  refine ⟨_, rfl, shows.descriptor, shows.limit, rfl, ?_, shows.writes⟩
  have size : b.pptr < b.buffer.toList.length := by simpa using room
  rw [← shows.waiting, Vector.toList_set, List.take_add_one, List.take_set_of_le le_rfl,
    List.getElem?_set_self size]
  rfl

/-- One call on the buffer is one call on what it shows. -/
theorem call_shows (shows : Shows fd v b) (c : Call) :
    ∃ b', b.call c = .ok b' ∧ Shows fd (v.step fd c) b' := by
  cases c with
  | sputn s =>
    exact ⟨_, rfl, ⟨shows.descriptor, shows.limit, shows.room, shows.waiting, by
      simp [FdOutBuf.xsputn, FdOutBuf.write, View.step, shows.writes, shows.descriptor]⟩⟩
  | sync => exact ⟨_, rfl, shows_flush shows⟩
  | sputc c =>
    obtain ⟨b', stored, descriptor, limit, pointer, waiting, writes⟩ := store_eq shows c
    have room := shows.room
    simp only [FdOutBuf.call, FdOutBuf.sputc, FdOutBuf.overflow, View.step, shows.length,
      shows.limit, stored]
    by_cases full : b.pptr + 1 = bufferSize
    · rw [if_neg (by omega), if_pos full]
      refine ⟨_, rfl, descriptor, limit, ?_, ?_, ?_⟩
      · simp [FdOutBuf.flushBuffer, FdOutBuf.write, bufferSize]
      · simp [FdOutBuf.flushBuffer, FdOutBuf.write]
      · simp [FdOutBuf.flushBuffer, FdOutBuf.write, waiting, writes]
    · rw [if_pos (by omega), if_neg full]
      exact ⟨b', rfl, descriptor, limit, by omega, waiting, writes⟩

theorem calls_show (shows : Shows fd v b) (cs : List Call) :
    ∃ b', b.calls cs = .ok b' ∧ Shows fd (cs.foldl (View.step fd) v) b' := by
  induction cs generalizing v b with
  | nil => exact ⟨b, rfl, shows⟩
  | cons c rest ih =>
    obtain ⟨b', called, shown⟩ := call_shows shows c
    obtain ⟨last, later, shown_last⟩ := ih shown
    refine ⟨last, ?_, shown_last⟩
    rw [FdOutBuf.calls, List.foldlM_cons, called]
    exact later

/-! ### Which descriptor receives what -/

/-- What is written to standard output, or waits for it, are the single characters. -/
theorem foldl_singles (elsewhere : fd ≠ 1) (cs : List Call) (v : View) :
    received (cs.foldl (View.step fd) v).writes 1 ++ (cs.foldl (View.step fd) v).waiting =
      received v.writes 1 ++ v.waiting ++ singles cs := by
  induction cs generalizing v with
  | nil => simp [singles]
  | cons c rest ih =>
    rw [List.foldl_cons, ih, show singles (c :: rest) = singleOf c ++ singles rest from rfl,
      ← List.append_assoc]
    congr 1
    cases c with
    | sync => simp [View.step, received_snoc, singleOf]
    | sputn s => simp [View.step, received_snoc, singleOf, elsewhere]
    | sputc c =>
      by_cases full : v.waiting.length + 1 = bufferSize <;>
        simp [View.step, received_snoc, singleOf, full]

/-- Without single characters the blocks go to the descriptor at once. -/
theorem foldl_blocks (fd : Nat) (cs : List Call) (w : List (Nat × List UInt8))
    (none_single : ∀ c, Call.sputc c ∉ cs) (d : Nat) :
    (cs.foldl (View.step fd) ⟨[], w⟩).waiting = [] ∧
      received (cs.foldl (View.step fd) ⟨[], w⟩).writes d =
        received w d ++ if fd = d then spelled cs else [] := by
  induction cs generalizing w with
  | nil => simp [spelled]
  | cons c rest ih =>
    have later : ∀ c, Call.sputc c ∉ rest := fun c i => none_single c (List.mem_cons_of_mem _ i)
    cases c with
    | sputc c => exact absurd List.mem_cons_self (none_single c)
    | sync =>
      obtain ⟨empty, all⟩ := ih (w ++ [(1, [])]) later
      exact ⟨empty, by simpa [View.step, received_snoc, spelled, charactersOf] using all⟩
    | sputn s =>
      obtain ⟨empty, all⟩ := ih (w ++ [(fd, s)]) later
      refine ⟨empty, all.trans ?_⟩
      by_cases same : fd = d <;> simp [received_snoc, spelled, charactersOf, same]

/-- What one stretch sends to standard output. -/
def sent (stretch : List Call) : List UInt8 := blocks stretch ++ singles stretch

/-- To standard output each stretch sends its blocks, then its single characters. -/
theorem foldl_stretches (cs : List Call) (v : View) (current : List Call) (past : List UInt8)
    (waiting : v.waiting = singles current) (out : received v.writes 1 = past ++ blocks current) :
    received (cs.foldl (View.step 1) v).writes 1 ++ (cs.foldl (View.step 1) v).waiting =
      past ++ (stretchesFrom v.waiting.length current cs).flatMap sent := by
  induction cs generalizing v current past with
  | nil => simp [stretchesFrom, waiting, out, sent]
  | cons c rest ih =>
    rw [List.foldl_cons]
    cases c with
    | sync =>
      rw [ih _ [] (past ++ sent current)]
      · simp [View.step, stretchesFrom]
      · rfl
      · simp [View.step, received_snoc, out, waiting, sent, blocks]
    | sputn s =>
      rw [ih _ (current ++ [.sputn s]) past]
      · simp [View.step, stretchesFrom]
      · simp [View.step, waiting, singleOf]
      · simp [View.step, received_snoc, out, blockOf]
    | sputc c =>
      by_cases full : v.waiting.length + 1 = bufferSize
      · rw [ih _ [] (past ++ sent (current ++ [.sputc c]))]
        · simp [step_full full, stretchesFrom, full]
        · simp [step_full full, singles]
        · simp [step_full full, received_snoc, out, ← waiting, sent, blocks, blockOf,
            singleOf]
      · rw [ih _ (current ++ [.sputc c]) past]
        · simp [step_room full, stretchesFrom, full]
        · simp [step_room full, waiting, singleOf]
        · simp [step_room full, out, blockOf]

theorem foldl_elsewhere (cs : List Call) (v : View) {d : Nat} (other : d ≠ 1) :
    received (cs.foldl (View.step 1) v).writes d = received v.writes d := by
  induction cs generalizing v with
  | nil => rfl
  | cons c rest ih =>
    rw [List.foldl_cons, ih]
    cases c with
    | sync => simp [View.step, received_snoc, other.symm]
    | sputn s => simp [View.step, received_snoc, other.symm]
    | sputc c =>
      by_cases full : v.waiting.length + 1 = bufferSize <;>
        simp [View.step, received_snoc, full, other.symm]

/-! ### When the stretches spell the calls -/

theorem spelled_stretches (cs : List Call) (pending : Nat) (current : List Call) :
    spelled current ++ spelled cs = (stretchesFrom pending current cs).flatMap spelled := by
  induction cs generalizing pending current with
  | nil => simp [stretchesFrom, spelled]
  | cons c rest ih =>
    cases c with
    | sync => simp [stretchesFrom, ← ih 0 [], spelled, charactersOf]
    | sputn s => simp [stretchesFrom, ← ih, spelled, charactersOf]
    | sputc c =>
      by_cases full : pending + 1 = bufferSize <;>
        simp [stretchesFrom, full, ← ih, spelled, charactersOf]

theorem sent_length (stretch : List Call) : (sent stretch).length = (spelled stretch).length := by
  induction stretch with
  | nil => rfl
  | cons c rest ih =>
    have counted : (blocks rest).length + (singles rest).length = (spelled rest).length := by
      simpa [sent] using ih
    simp only [sent, blocks, singles, spelled, List.length_append, List.flatMap_cons] at counted ⊢
    cases c <;> simp only [blockOf, singleOf, charactersOf, List.length_cons,
      List.length_nil] <;> omega

/-- Texts put together from pieces of the same lengths are the same when the pieces are. -/
theorem flatMap_eq_iff {α β : Type} {f g : α → List β} (same : ∀ x, (f x).length = (g x).length)
    (xs : List α) : xs.flatMap f = xs.flatMap g ↔ ∀ x ∈ xs, f x = g x := by
  induction xs with
  | nil => simp
  | cons x rest ih =>
    simp only [List.flatMap_cons, List.forall_mem_cons]
    constructor
    · intro equal
      obtain ⟨first, others⟩ := List.append_inj equal (same x)
      exact ⟨first, ih.mp others⟩
    · intro each
      rw [each.1, ih.mpr each.2]

/-! ### The characterisation -/

/-- The writes of a whole use of the stream. -/
def sentBy (fd : Nat) (cs : List Call) : View :=
  View.step fd (cs.foldl (View.step fd) ⟨[], []⟩) .sync

theorem delivered_iff_sent (fd : Nat) (memory : Vector UInt8 bufferSize) (cs : List Call) :
    Delivered fd memory cs ↔ received (sentBy fd cs).writes fd = spelled cs ∧
      ∀ d, d ≠ fd → received (sentBy fd cs).writes d = [] := by
  obtain ⟨last, called, shown⟩ := calls_show (shows_make fd memory) (cs ++ [.sync])
  have writes : last.writes = (sentBy fd cs).writes := by
    rw [shown.writes, List.foldl_append]
    rfl
  constructor
  · intro delivered
    obtain ⟨b, done, all, none_other⟩ := delivered.received_all
    cases called.symm.trans done
    exact ⟨writes ▸ all, writes ▸ none_other⟩
  · intro right
    refine ⟨⟨last, called, writes ▸ right.1, writes ▸ right.2⟩, ?_⟩
    intro earlier later split
    obtain ⟨b, reached, shown⟩ := calls_show (shows_make fd memory) earlier
    exact ⟨b, reached, shown.room⟩

theorem singles_eq_nil {cs : List Call} (empty : singles cs = []) (c : UInt8) :
    Call.sputc c ∉ cs := by
  intro member
  have single := List.flatMap_eq_nil_iff.mp empty _ member
  simp [singleOf] at single

/-- The stream delivers exactly the calls of which every stretch spells the same with its blocks
put first, on standard output, and only blocks on any other descriptor. -/
theorem delivered_iff_blocksFirst (fd : Nat) (memory : Vector UInt8 bufferSize)
    (cs : List Call) : Delivered fd memory cs ↔ BlocksFirst fd cs := by
  rw [delivered_iff_sent, BlocksFirst]
  split
  · next standard =>
    subst standard
    have out := foldl_stretches cs ⟨[], []⟩ [] [] rfl rfl
    have received_one : received (sentBy 1 cs).writes 1 = (stretches cs).flatMap sent := by
      simpa [sentBy, View.step, received_snoc, stretches] using out
    have others : ∀ d, d ≠ 1 → received (sentBy 1 cs).writes d = [] := by
      intro d other
      simp [sentBy, View.step, received_snoc, foldl_elsewhere cs _ other, other.symm]
    have text : spelled cs = (stretches cs).flatMap spelled := by
      simpa [spelled, stretches] using spelled_stretches cs 0 []
    rw [received_one, text, flatMap_eq_iff sent_length]
    exact and_iff_left others
  · next elsewhere =>
    constructor
    · intro right c
      have none_there := right.2 1 (Ne.symm elsewhere)
      have out := foldl_singles elsewhere cs ⟨[], []⟩
      simp only [sentBy, View.step, received_snoc, if_pos, out] at none_there
      have empty : singles cs = [] := by simpa using none_there
      exact singles_eq_nil empty c
    · intro none_single
      have out := foldl_blocks fd cs [] none_single
      have last : ∀ d, received (sentBy fd cs).writes d = if fd = d then spelled cs else [] := by
        intro d
        simp [sentBy, View.step, received_snoc, (out d).1, (out d).2]
      exact ⟨by simp [last], fun d other => by simp [last, other.symm]⟩

/-- One character put on descriptor 3 goes to standard output. -/
theorem not_delivered_elsewhere :
    ¬ Delivered 3 (Vector.replicate bufferSize 0) [.sputc 65] := by
  intro delivered
  obtain ⟨right, -⟩ := (delivered_iff_sent _ _ _).mp delivered
  exact absurd right (by decide)

end Libdap.Guarantees.FdStream
