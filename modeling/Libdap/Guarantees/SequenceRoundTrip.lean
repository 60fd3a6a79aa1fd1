import Libdap.Guarantees.SequenceSerialize

/-!
# A client reads back the rows that were accepted

`deserialize` takes a linear form of rows back to the rows and stops behind its end
marker. With what `serialize` sends, the client holds exactly the accepted rows.
-/
namespace Libdap.Guarantees.SequenceRoundTrip
open Libdap.Source Libdap.Source.Sequence
open SequenceWalk SequenceSerialize

variable {V : Type} {select : Selection V}

/-- A row with a value for each of the `width` variables of its level, and so below. -/
def Shaped : Nat → List Nat → Row V → Prop
  | width, [], r => r.values.length = width ∧ r.children = []
  | width, child :: below, r => r.values.length = width ∧ ∀ c ∈ r.children, Shaped child below c

theorem getValues_map (values : List V) (rest : Stream V) :
    getValues values.length (values.map .value ++ rest) = .ok (values, rest) := by
  induction values with
  | nil => rfl
  | cons v values ih =>
    simp only [List.length_cons, List.map_cons, List.cons_append, getValues, getValue, bind,
      Except.bind, ih]
    rfl

theorem getValues_row {width : Nat} {r : Row V} (size : r.values.length = width)
    (rest : Stream V) :
    getValues width (r.values.map .value ++ rest) = .ok (r.values, rest) := by
  rw [← size, getValues_map]

/-- What the loop of `deserialize` reads for the children of one row. -/
def deserializeChildren (dds : Option DataDDS) (fuel : Nat) (below : List Nat)
    (stream : Stream V) : Except Failure (List (Row V) × Stream V) :=
  match below with
  | [] => pure ([], stream)
  | child :: rest => do
    checkProtocol dds
    deserializeRows dds fuel child rest stream

section
variable {dds : Option DataDDS} {fuel width : Nat} {below : List Nat}

theorem deserializeRows_end (rest : Stream V) :
    deserializeRows dds (fuel + 1) width below (.marker endOfSequence :: rest) =
      .ok ([], rest) := by
  rw [deserializeRows]
  simp [readMarker, bind, Except.bind, pure, Except.pure]

theorem deserializeRows_row {values : List V} {children rows : List (Row V)}
    {stream afterValues afterChildren rest : Stream V}
    (fields : getValues width stream = .ok (values, afterValues))
    (nested : deserializeChildren dds fuel below afterValues = .ok (children, afterChildren))
    (later : deserializeRows dds fuel width below afterChildren = .ok (rows, rest)) :
    deserializeRows dds (fuel + 1) width below (.marker startOfInstance :: stream) =
      .ok (.mk values children :: rows, rest) := by
  have not_end : startOfInstance ≠ endOfSequence := by decide
  rw [deserializeRows]
  simp only [readMarker, bind, Except.bind, not_end, if_false, if_true, fields]
  unfold deserializeChildren at nested
  cases below with
  | nil =>
    cases nested
    simp only [pure, Except.pure, later]
  | cons child below =>
    simp only [bind, Except.bind] at nested
    cases served : checkProtocol dds with
    | error failure =>
      rw [served] at nested
      cases nested
    | ok _ =>
      simp only [served] at nested
      simp only [nested, later, pure, Except.pure]

/-- `deserialize` gets the rows of an instance back and stops behind its end marker. -/
theorem deserializeRows_encodeInstance (served : checkProtocol dds = .ok ())
    {rows : List (Row V)} (shaped : ∀ r ∈ rows, Shaped width below r) (rest : Stream V)
    (enough : (encodeInstance below.length rows).length ≤ fuel) :
    deserializeRows dds fuel width below (encodeInstance below.length rows ++ rest) =
      .ok (rows, rest) := by
  induction below generalizing width rows rest fuel with
  | nil =>
    induction rows generalizing fuel with
    | nil =>
      obtain ⟨fuel, rfl⟩ : ∃ n, fuel = n + 1 := ⟨fuel - 1, by simp [encodeInstance] at enough; omega⟩
      exact deserializeRows_end rest
    | cons r rows ih =>
      obtain ⟨⟨size, leaf⟩, later⟩ := List.forall_mem_cons.mp shaped
      have split : encodeInstance 0 (r :: rows) =
          .marker startOfInstance :: (r.values.map .value ++ encodeInstance 0 rows) := by
        simp [encodeInstance, encodeRows]
      have cost := congrArg List.length split
      simp only [List.length_nil] at enough ih ⊢
      simp only [List.length_cons, List.length_append, List.length_map] at cost
      obtain ⟨fuel, rfl⟩ : ∃ n, fuel = n + 1 := ⟨fuel - 1, by omega⟩
      have room : (encodeInstance 0 rows).length ≤ fuel := by omega
      have tail := ih later room
      rw [split, List.cons_append, List.append_assoc]
      rw [deserializeRows_row (getValues_row size _) rfl tail]
      obtain ⟨⟩ := r
      cases leaf
      rfl
  | cons child below deeper =>
    induction rows generalizing fuel with
    | nil =>
      obtain ⟨fuel, rfl⟩ : ∃ n, fuel = n + 1 := ⟨fuel - 1, by simp [encodeInstance] at enough; omega⟩
      exact deserializeRows_end rest
    | cons r rows ih =>
      obtain ⟨⟨size, nested⟩, later⟩ := List.forall_mem_cons.mp shaped
      have split : encodeInstance (below.length + 1) (r :: rows) =
          .marker startOfInstance :: (r.values.map .value ++
            (encodeInstance below.length r.children ++ encodeInstance (below.length + 1) rows)) := by
        simp [encodeInstance, encodeRows]
      have cost := congrArg List.length split
      simp only [List.length_cons] at enough ih ⊢
      simp only [List.length_cons, List.length_append, List.length_map] at cost
      obtain ⟨fuel, rfl⟩ : ∃ n, fuel = n + 1 := ⟨fuel - 1, by omega⟩
      have room : (encodeInstance (below.length + 1) rows).length ≤ fuel := by omega
      have tail := ih later room
      have children : deserializeChildren dds fuel (child :: below)
          (encodeInstance below.length r.children ++
            (encodeInstance (below.length + 1) rows ++ rest)) =
          .ok (r.children, encodeInstance (below.length + 1) rows ++ rest) := by
        unfold deserializeChildren
        simp only [served, bind, Except.bind]
        exact deeper nested _ (by omega)
      rw [split, List.cons_append, List.append_assoc, List.append_assoc]
      rw [deserializeRows_row (getValues_row size _) children tail]
      obtain ⟨⟩ := r
      rfl

end

theorem project_length {mask : List Bool} {values : List V}
    (size : values.length = mask.length) :
    (project mask values).length = mask.count true := by
  induction mask generalizing values with
  | nil => rfl
  | cons sendP mask ih =>
    cases values with
    | nil => cases size
    | cons v values =>
      have rest := ih (Nat.succ.inj size)
      unfold project at rest ⊢
      cases sendP <;> simp [rest]

theorem Fits.values {mask : List Bool} {masks : List (List Bool)} {r : Row V}
    (fits : Fits mask masks r) : r.values.length = mask.length := by
  cases masks with
  | nil => exact fits
  | cons child masks => exact fits.1

/-- An accepted row has the projected values of its level, and so have the rows below. -/
theorem accepted_shaped (select : Selection V) (above : List (List V)) {mask : List Bool}
    {masks : List (List Bool)} {rows : List (Row V)} (fits : ∀ r ∈ rows, Fits mask masks r) :
    ∀ r ∈ accepted select above mask masks rows,
      Shaped (mask.count true) (masks.map fun m => m.count true) r := by
  induction masks generalizing mask rows above with
  | nil =>
    intro r member
    simp only [accepted, List.mem_map, List.mem_filter] at member
    obtain ⟨row, ⟨source, -⟩, rfl⟩ := member
    exact ⟨project_length (fits row source), rfl⟩
  | cons child masks ih =>
    intro r member
    simp only [accepted, List.mem_filterMap] at member
    obtain ⟨row, source, kept⟩ := member
    have below := ih (row.values :: above) (fits row source).2.2
    split at kept
    · cases kept
    · next c children found =>
        cases kept
        rw [found] at below
        exact ⟨project_length (fits row source).1, below⟩

/-- `deserialize` reads back the accepted rows from their linear form. -/
theorem deserialize_accepted (select : Selection V) {mask : List Bool} {masks : List (List Bool)}
    {rows : List (Row V)} {dd : DataDDS} (fits : ∀ r ∈ rows, Fits mask masks r)
    (served : 2 ≤ dd.protocolMajor) {fuel : Nat} (tail : Stream V)
    (enough : (encodeInstance masks.length
      (accepted select [] mask masks rows)).length ≤ fuel) :
    deserialize (some dd) fuel (mask.count true) (masks.map fun m => m.count true)
      (encodeInstance masks.length (accepted select [] mask masks rows) ++ tail) =
        .ok (accepted select [] mask masks rows, tail) := by
  have checked : checkProtocol (some dd) = .ok () := by
    rw [checkProtocol, if_neg (by omega)]
  have shaped := accepted_shaped select [] fits
  have depth : (masks.map fun m => m.count true).length = masks.length := List.length_map _
  have read := deserializeRows_encodeInstance checked shaped tail (depth.symm ▸ enough)
  rw [depth] at read
  rw [deserialize, checked]
  exact read

/-- The client ends up with exactly the accepted rows and has read the whole stream; a
data set without accepted rows is the end marker alone. -/
def ReadBack (select : Selection V) (mask : List Bool) (masks : List (List Bool))
    (rows : List (Row V)) (dd : DataDDS) : Prop :=
  ∃ out, send select (tagged mask masks rows) = .ok out ∧
    (∀ fuel tail, out.length ≤ fuel →
      deserialize (some dd) fuel (mask.count true) (masks.map fun m => m.count true)
        (out ++ tail) = .ok (accepted select [] mask masks rows, tail)) ∧
    (accepted select [] mask masks rows = [] → out = [.marker endOfSequence])

/-- What is sent is read back as long as the rows of every instance can be numbered. -/
theorem readBack_iff (select : Selection V) (mask : List Bool) (masks : List (List Bool))
    (rows : List (Row V)) (dd : DataDDS) (fits : ∀ r ∈ rows, Fits mask masks r)
    (served : 2 ≤ dd.protocolMajor) :
    ReadBack select mask masks rows dd ↔ Numberable select [] masks rows := by
  constructor
  · rintro ⟨out, sent, -⟩
    by_contra many
    rw [send_large select mask masks fits many] at sent
    cases sent
  · intro few
    refine ⟨_, send_eq select mask masks fits few, ?_, ?_⟩
    · intro fuel tail enough
      exact deserialize_accepted select fits served tail enough
    · intro none
      rw [none]
      cases masks <;> rfl

/-- Two outer rows, one of them rejected with all of its inner rows. -/
theorem readBack_iff_two :
    ReadBack (fun values => values.head? == some [3]) [true] [[true]]
      [.mk [1] [.mk [2] []], .mk [4] [.mk [5] [], .mk [3] []]] ⟨3, "3.2"⟩ := by
  refine (readBack_iff (fun values => values.head? == some [3]) [true] [[true]]
    [.mk [1] [.mk [2] []], .mk [4] [.mk [5] [], .mk [3] []]] ⟨3, "3.2"⟩
    (by simp [Fits, Row.values, Row.children]) (by decide)).mpr ?_
  simp [Numberable, Row.values, Row.children]

/-- The row behind number 2147483647 has no number. -/
theorem send_replicate (v : V) :
    send (fun _ => true) (tagged [true] [] (List.replicate (2 ^ 31) (.mk [v] []))) =
      .error .undefinedBehaviour := by
  apply send_large
  · intro r member
    rw [List.eq_of_mem_replicate member]
    rfl
  · intro few
    simp only [Numberable, List.filter_true, List.length_replicate] at few
    exact Nat.lt_irrefl _ few

theorem readBack_fails :
    ¬ ReadBack (fun _ => true) [true] [] (List.replicate (2 ^ 31) (.mk [0] [])) ⟨3, "3.2"⟩ := by
  rintro ⟨out, sent, -⟩
  rw [send_replicate] at sent
  cases sent

end Libdap.Guarantees.SequenceRoundTrip
