import Libdap.Library.Wire

/-!
# Readers that know where a value ends

Such a reader finds the same value whatever follows the items it takes, and it fails when
some of them are missing: no value is the beginning of another.
-/
namespace Libdap.Library.Wire
variable {ε ι α β : Type}

/-- With only the first of the items the reader fails. -/
def FailsShort (get : EStateM ε (List ι) α) (items : List ι) : Prop :=
  ∀ part missing, items = part ++ missing → missing ≠ [] → ∃ e left, get part = .error e left

def Delimiting (get : EStateM ε (List ι) α) : Prop :=
  ∀ stream a rest, get stream = .ok a rest →
    ∃ items, stream = items ++ rest ∧ Reads get items a ∧ FailsShort get items

theorem delimiting_nothing (a : α) : Delimiting (pure a : EStateM ε (List ι) α) := by
  intro stream b rest read
  cases read
  refine ⟨[], rfl, reads_nothing a, fun part missing split some' => ?_⟩
  exact absurd (List.append_eq_nil_iff.mp split.symm).2 some'

theorem delimiting_throw (e : ε) : Delimiting (throw e : EStateM ε (List ι) α) := by
  intro stream a rest read
  cases read

/-- Short of the second value the first is there; otherwise the first is short. -/
theorem FailsShort.andThen {get : EStateM ε (List ι) α} {g : α → EStateM ε (List ι) β}
    {items later : List ι} {a : α} (reads : Reads get items a) (first : FailsShort get items)
    (second : FailsShort (g a) later) : FailsShort (get >>= g) (items ++ later) := by
  intro part missing split some'
  rcases List.append_eq_append_iff.mp split with ⟨front, rfl, tail⟩ | ⟨cut, whole, rfl⟩
  · obtain ⟨e, left, failed⟩ := second front missing tail some'
    exact ⟨e, left, by rw [call_ok (reads front), failed]⟩
  · cases cut with
    | nil =>
      rw [List.append_nil] at whole
      obtain ⟨e, left, failed⟩ := second [] later rfl some'
      have read := reads []
      rw [List.append_nil] at read
      exact ⟨e, left, by rw [← whole, call_ok read, failed]⟩
    | cons i cut =>
      obtain ⟨e, left, failed⟩ := first part (i :: cut) whole (List.cons_ne_nil i cut)
      exact ⟨e, left, call_error failed⟩

theorem Delimiting.andThen {get : EStateM ε (List ι) α} {g : α → EStateM ε (List ι) β}
    (first : Delimiting get) (second : ∀ a, Delimiting (g a)) : Delimiting (get >>= g) := by
  intro stream b rest read
  obtain ⟨a, middle, got, later⟩ := bind_returned read
  obtain ⟨items, rfl, reads, short⟩ := first stream a middle got
  obtain ⟨behind, rfl, reads', short'⟩ := second a middle b rest later
  exact ⟨items ++ behind, (List.append_assoc ..).symm, reads.andThen reads',
    short.andThen reads short'⟩

/-- What has been read is not read from a part of it. -/
theorem Delimiting.short {get : EStateM ε (List ι) α} (delimiting : Delimiting get)
    {items : List ι} {a : α} (reads : Reads get items a) {k : Nat} (less : k < items.length) :
    ∃ e left, get (items.take k) = .error e left := by
  have whole := reads []
  obtain ⟨items', same, -, short⟩ := delimiting _ a [] whole
  rw [List.append_nil, List.append_nil] at same
  subst same
  have missing : items.drop k ≠ [] := by
    intro none'
    have length := congrArg List.length none'
    rw [List.length_drop, List.length_nil] at length
    omega
  exact short _ _ (List.take_append_drop ..).symm missing

theorem delimiting_times {get : EStateM ε (List ι) α} (each : Delimiting get) (n : Nat) :
    Delimiting (times get n) := by
  induction n with
  | zero => exact delimiting_nothing []
  | succ n ih => exact each.andThen fun a => ih.andThen fun as => delimiting_nothing (a :: as)

end Libdap.Library.Wire
