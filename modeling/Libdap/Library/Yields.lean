import Libdap.Library.Wire

/-!
# What a reader may return

Whatever is on the stream: a value that the reader returns has the property, and it goes on at
an end of what was there.
-/
namespace Libdap.Library.Wire
variable {ε ι α β : Type} {P : α → Prop} {Q : β → Prop}

def Yields (get : EStateM ε (List ι) α) (P : α → Prop) : Prop :=
  ∀ stream a rest, get stream = .ok a rest → P a ∧ rest <:+ stream

theorem yields_pure {a : α} (holds : P a) : Yields (pure a : EStateM ε (List ι) α) P := by
  intro stream b rest read
  cases read
  exact ⟨holds, List.suffix_rfl⟩

theorem yields_throw (e : ε) : Yields (throw e : EStateM ε (List ι) α) P := by
  intro stream a rest read
  cases read

theorem Yields.andThen {get : EStateM ε (List ι) α} {g : α → EStateM ε (List ι) β}
    (first : Yields get P) (second : ∀ a, P a → Yields (g a) Q) : Yields (get >>= g) Q := by
  intro stream b rest read
  obtain ⟨a, middle, got, later⟩ := bind_returned read
  obtain ⟨holds, behind⟩ := first stream a middle got
  obtain ⟨result, end'⟩ := second a holds middle b rest later
  exact ⟨result, end'.trans behind⟩

theorem yields_times {get : EStateM ε (List ι) α} (each : Yields get P) (n : Nat) :
    Yields (times get n) fun as => as.length = n ∧ ∀ a ∈ as, P a := by
  induction n with
  | zero => exact yields_pure ⟨rfl, fun _ mem => absurd mem List.not_mem_nil⟩
  | succ n ih =>
    refine each.andThen fun a holds => ih.andThen fun as all => yields_pure ?_
    exact ⟨congrArg Nat.succ all.1, List.forall_mem_cons.mpr ⟨holds, all.2⟩⟩

end Libdap.Library.Wire
