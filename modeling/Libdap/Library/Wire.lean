import Libdap.Library.Outcome

/-!
# Writing to a stream and reading it back

A writer adds items behind those that are there; a reader takes items from the front of those
that are left. They agree on a value if the reader finds it in what the writer added, whatever
follows.
-/
namespace Libdap.Library.Wire
variable {ε ι α β γ : Type}

/-- The writer adds these items. -/
def Writes (put : EStateM ε (List ι) Unit) (items : List ι) : Prop :=
  ∀ out, put out = .ok () (out ++ items)

/-- The reader takes these items and returns the value. -/
def Reads (get : EStateM ε (List ι) α) (items : List ι) (a : α) : Prop :=
  ∀ more, get (items ++ more) = .ok a more

def Agree (put : EStateM ε (List ι) Unit) (get : EStateM ε (List ι) α) (a : α) : Prop :=
  ∃ items, Writes put items ∧ Reads get items a

/-- As often as the number says. -/
def times (get : EStateM ε (List ι) α) : Nat → EStateM ε (List ι) (List α)
  | 0 => pure []
  | n + 1 => do
    let a ← get
    let as ← times get n
    pure (a :: as)

section
variable {put put' : EStateM ε (List ι) Unit} {get : EStateM ε (List ι) α}
variable {g : α → EStateM ε (List ι) β} {items later : List ι} {a : α} {b : β}

theorem writes_nothing : Writes (pure () : EStateM ε (List ι) Unit) [] := fun out => by
  rw [List.append_nil]
  rfl

theorem Writes.andThen (first : Writes put items) (second : Writes put' later) :
    Writes (do put; put') (items ++ later) := by
  intro out
  rw [call_ok (first out), second, List.append_assoc]

theorem reads_nothing (a : α) : Reads (pure a : EStateM ε (List ι) α) [] a := fun _ => rfl

theorem Reads.andThen (first : Reads get items a) (second : Reads (g a) later b) :
    Reads (get >>= g) (items ++ later) b := by
  intro more
  rw [List.append_assoc, call_ok (first _), second]

theorem agree_nothing (a : α) :
    Agree (pure () : EStateM ε (List ι) Unit) (pure a : EStateM ε (List ι) α) a :=
  ⟨[], writes_nothing, reads_nothing a⟩

theorem Agree.andThen (first : Agree put get a) (second : Agree put' (g a) b) :
    Agree (do put; put') (get >>= g) b := by
  obtain ⟨items, writes, reads⟩ := first
  obtain ⟨later, writes', reads'⟩ := second
  exact ⟨items ++ later, writes.andThen writes', reads.andThen reads'⟩

/-- The reader makes something else of the value. -/
theorem Agree.returns (agree : Agree put get a) (f : α → γ) :
    Agree put (do let a ← get; pure (f a)) (f a) := by
  obtain ⟨items, writes, reads⟩ := agree
  have whole := reads.andThen (g := fun a => pure (f a)) (reads_nothing (f a))
  rw [List.append_nil] at whole
  exact ⟨items, writes, whole⟩

/-- A reader of two values, one behind the other. -/
theorem Agree.pair {next : EStateM ε (List ι) β} (first : Agree put get a)
    (second : Agree put' next b) (f : α → β → γ) :
    Agree (do put; put') (do let a ← get; let b ← next; pure (f a b)) (f a b) := by
  obtain ⟨items, writes, reads⟩ := first
  obtain ⟨later, writes', reads'⟩ := second
  refine ⟨items ++ later, writes.andThen writes', reads.andThen ?_⟩
  have whole := reads'.andThen (g := fun b => pure (f a b)) (reads_nothing (f a b))
  rwa [List.append_nil] at whole

end

/-- Values one after the other. -/
theorem agree_times {put : α → EStateM ε (List ι) Unit} {get : EStateM ε (List ι) β} {value : α → β}
    {as : List α} (each : ∀ a ∈ as, Agree (put a) get (value a)) :
    Agree (as.forM put) (times get as.length) (as.map value) := by
  induction as with
  | nil => exact agree_nothing []
  | cons a as ih =>
    have first := each a List.mem_cons_self
    have later := ih fun b mem => each b (List.mem_cons_of_mem a mem)
    exact first.pair later List.cons

/-- Values one after the other, each with its own reader. -/
theorem agree_mapM {put : α → EStateM ε (List ι) Unit} {get : α → EStateM ε (List ι) β}
    {value : α → β} {as : List α} (each : ∀ a ∈ as, Agree (put a) (get a) (value a)) :
    Agree (as.forM put) (as.mapM get) (as.map value) := by
  induction as with
  | nil => exact agree_nothing []
  | cons a as ih =>
    have first := each a List.mem_cons_self
    have later := ih fun b mem => each b (List.mem_cons_of_mem a mem)
    rw [List.mapM_cons]
    exact first.pair later List.cons

end Libdap.Library.Wire
