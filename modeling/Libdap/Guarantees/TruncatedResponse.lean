import Libdap.Guarantees.DataResponse
import Libdap.Library.Delimiting

/-!
# A data response that is cut short

Each value on the stream shows where it ends, so the data of declared variables do, and a
response that is not all there is an error, not other data. A Sequence is left out: what
`xdr_opaque` returns for its markers is not looked at.
-/
namespace Libdap.Guarantees.TruncatedResponse
open Libdap.Library Libdap.Library.Wire Libdap.Library.ExternalData
open Libdap.Source Libdap.Source.Escaping Libdap.Source.XDR
open Libdap.Source.Declarations Libdap.Source.DataResponse
open Libdap.Source.XDRFileUnMarshaller
open Libdap.Source.XDRStreamMarshaller (Put)
open Libdap.Source.XDRStreamUnMarshaller (store dodsMaxArray)
open Libdap.Guarantees.DDSText (AllReadable Named)
open Libdap.Guarantees.DDSRoundTrip Libdap.Guarantees.DDSProjection
open Libdap.Guarantees.XDROpaque (decodeCount reference)
open Libdap.Guarantees.XDRFile (referenceScalars referenceScalars_documented)
open Libdap.Guarantees.DataResponse

/-- A routine that decodes from the bytes it uses and from nothing behind them, and not
without all of them. -/
def Bounded {α : Type} (routine : List UInt8 → Option (α × Nat)) : Prop :=
  ∀ mem a used, routine mem = some (a, used) →
    used ≤ mem.length ∧ (∀ more, routine (mem.take used ++ more) = some (a, used)) ∧
      ∀ k < used, routine (mem.take k) = none

/-- What the library does at the end of its stream. -/
structure BoundedRoutines (xdr : ScalarRoutines) : Prop where
  char : Bounded xdr.decodeChar
  int : Bounded xdr.decodeInt
  element : ∀ t, Bounded (xdr.decodeElement t)
  string : ∀ maxsize, Bounded (xdr.decodeString maxsize)
  bytes : ∀ maxsize, Bounded (xdr.decodeBytes maxsize)
  array : ∀ t maxsize elsize mem num used,
    (xdr.decodeArray t maxsize elsize mem).result = some (num, used) →
      used ≤ mem.length ∧
        (∀ more, xdr.decodeArray t maxsize elsize (mem.take used ++ more) =
          xdr.decodeArray t maxsize elsize mem) ∧
        ∀ k < used, (xdr.decodeArray t maxsize elsize (mem.take k)).result = none

variable {xdr : ScalarRoutines}

/-! ## Values -/

/-- The first part of what was used, cut somewhere. -/
theorem cut_used {mem part missing : List UInt8} {used : Nat} (within : used ≤ mem.length)
    (split : mem.take used = part ++ missing) (some' : missing ≠ []) :
    part = mem.take part.length ∧ part.length < used := by
  have length := congrArg List.length split
  rw [List.length_take, List.length_append] at length
  have positive := List.length_pos_of_ne_nil some'
  have short : part.length < used := by omega
  have front := congrArg (List.take part.length) split
  rw [List.take_take, List.take_left, Nat.min_eq_left short.le] at front
  exact ⟨front.symm, short⟩

/-- A reader that goes on behind what it used. -/
theorem delimiting_of_used {α : Type} {get : Get α}
    (each : ∀ stream a rest, get stream = .ok a rest → ∃ used, used ≤ stream.length ∧
      rest = stream.drop used ∧ (∀ more, get (stream.take used ++ more) = .ok a more) ∧
        ∀ k < used, ∃ e left, get (stream.take k) = .error e left) : Delimiting get := by
  intro stream a rest read
  obtain ⟨used, within, rfl, again, less⟩ := each stream a rest read
  refine ⟨stream.take used, (List.take_append_drop ..).symm, again, ?_⟩
  intro part missing split some'
  obtain ⟨front, short⟩ := cut_used within split some'
  rw [front]
  exact less _ short

theorem taken_length {mem : List UInt8} {used : Nat} (within : used ≤ mem.length) :
    (mem.take used).length = used := by
  rw [List.length_take]
  omega

theorem delimiting_decode {α : Type} {routine : List UInt8 → Option (α × Nat)}
    (bounded : Bounded routine) (notRead : String) : Delimiting (decode routine notRead) := by
  refine delimiting_of_used fun stream a rest read => ?_
  unfold decode at read
  cases decoded : routine stream with
  | none =>
    rw [decoded] at read
    cases read
  | some pair =>
    obtain ⟨val, used⟩ := pair
    rw [decoded] at read
    cases read
    obtain ⟨within, again, less⟩ := bounded stream a used decoded
    refine ⟨used, within, rfl, fun more => ?_, fun k short => ?_⟩
    · simp only [decode, again]
      rw [List.drop_left' (taken_length within)]
    · simp only [decode, less k short]
      exact ⟨_, _, rfl⟩

theorem delimiting_getVectorBytes (bounded : BoundedRoutines xdr) (val : Option (List UInt8)) :
    Delimiting (getVectorBytes xdr val) := by
  refine delimiting_of_used fun stream a rest read => ?_
  unfold getVectorBytes at read
  cases decoded : xdr.decodeBytes dodsMaxArray stream with
  | none =>
    rw [decoded] at read
    cases read
  | some pair =>
    obtain ⟨data, used⟩ := pair
    rw [decoded] at read
    obtain ⟨within, again, less⟩ := bounded.bytes _ stream data used decoded
    have behind : ∀ more, (stream.take used ++ more).drop used = more := fun more =>
      List.drop_left' (taken_length within)
    have short : ∀ k < used, ∃ e left, getVectorBytes xdr val (stream.take k) = .error e left :=
      fun k fewer => ⟨.error .unknownError notPacked, stream.take k, by
        simp only [getVectorBytes, less k fewer]⟩
    simp only at read
    by_cases empty : data.length = 0
    · rw [if_pos empty] at read
      cases read
      refine ⟨used, within, rfl, fun more => ?_, short⟩
      simp only [getVectorBytes, again, behind, if_pos empty]
    · rw [if_neg empty] at read
      cases stored : store (val.getD (List.replicate data.length 0)) (0, data) with
      | error e =>
        rw [stored] at read
        cases read
      | ok target =>
        rw [stored] at read
        cases read
        refine ⟨used, within, rfl, fun more => ?_, short⟩
        simp only [getVectorBytes, again, behind, if_neg empty, stored]

theorem delimiting_getVector (bounded : BoundedRoutines xdr) (val : Option (List UInt8))
    (width : Nat) (type : Coder) : Delimiting (getVector xdr val width type) := by
  refine delimiting_of_used fun stream a rest read => ?_
  simp only [getVector] at read
  split at read
  · cases read
  · next target filled =>
    split at read
    · cases read
    · next num used result =>
      cases read
      obtain ⟨within, again, less⟩ := bounded.array type dodsMaxArray width stream num used result
      refine ⟨used, within, rfl, fun more => ?_, fun k fewer => ?_⟩
      · simp only [getVector, again]
        rw [filled]
        simp only [result, List.drop_left' (taken_length within)]
      · simp only [getVector, less k fewer]
        split
        · exact ⟨_, _, rfl⟩
        · exact ⟨_, _, rfl⟩

theorem delimiting_getStr (bounded : BoundedRoutines xdr) : Delimiting (getStr xdr) :=
  (delimiting_decode (bounded.string maxStrLen) _).andThen fun _ => delimiting_nothing _

theorem delimiting_getSimple (bounded : BoundedRoutines xdr) (type : SimpleType) :
    Delimiting (getSimple xdr type) := by
  cases type with
  | byte => exact (delimiting_decode bounded.char _).andThen fun _ => delimiting_nothing _
  | str => exact delimiting_getStr bounded
  | url => exact delimiting_getStr bounded
  | _ => exact delimiting_decode (bounded.element _) _

theorem delimiting_getCount (bounded : BoundedRoutines xdr) (length : Int) (who : String) :
    Delimiting (getCount xdr length who) := by
  refine (delimiting_decode bounded.int _).andThen fun num => ?_
  generalize (if length = -1 then num else BitVec.ofInt 32 length) = expected
  by_cases differs : num ≠ expected
  · rw [if_pos differs]
    exact delimiting_throw _
  · rw [if_neg differs]
    exact delimiting_nothing _

theorem delimiting_getSimpleVector (bounded : BoundedRoutines xdr) (length : Int)
    (kind : Storage) : Delimiting (getSimpleVector xdr length kind) := by
  cases kind with
  | bytes =>
    exact (delimiting_getCount bounded length _).andThen fun _ =>
      (delimiting_getVectorBytes bounded _).andThen fun _ => delimiting_nothing _
  | numbers type =>
    exact (delimiting_getCount bounded length _).andThen fun _ =>
      (delimiting_getVector bounded _ _ type).andThen fun _ => delimiting_nothing _
  | strings =>
    exact (delimiting_getCount bounded length _).andThen fun num =>
      (delimiting_times (delimiting_getStr bounded) num).andThen fun _ => delimiting_nothing _

/-! ## Variables -/

mutual
/-- Variables without a Sequence in them. -/
def Plain : Var → Prop
  | .simple .. => True
  | .array _ _ var _ => Plain var
  | .constructor isSequence _ _ vars => isSequence = false ∧ PlainAll vars
  | .grid _ _ arrayVar mapVars => Plain arrayVar ∧ PlainAll mapVars

def PlainAll : List Var → Prop
  | [] => True
  | v :: vars => Plain v ∧ PlainAll vars
end

variable {putSequence : List Var → Data → Put} {getSequence : List Var → Get Data}

mutual
theorem delimiting_variable (bounded : BoundedRoutines xdr) (v : Var) (plain : Plain v) :
    Delimiting (deserialize xdr getSequence v) := by
  cases v with
  | simple type name sendP =>
    exact (delimiting_getSimple bounded type).andThen fun _ => delimiting_nothing _
  | array name sendP var dims =>
    rw [deserialize]
    unfold getVectorOf
    split
    · exact delimiting_getSimpleVector bounded _ _
    · exact (delimiting_getCount bounded _ _).andThen fun num =>
        (delimiting_times (delimiting_variable bounded var plain) num).andThen fun _ =>
          delimiting_nothing _
  | constructor isSequence name sendP vars =>
    obtain ⟨rfl, plain⟩ := plain
    exact (delimiting_members bounded vars plain).andThen fun _ => delimiting_nothing _
  | grid name sendP arrayVar mapVars =>
    exact (delimiting_variable bounded arrayVar plain.1).andThen fun _ =>
      (delimiting_members bounded mapVars plain.2).andThen fun _ => delimiting_nothing _

theorem delimiting_members (bounded : BoundedRoutines xdr) (vars : List Var)
    (plain : PlainAll vars) : Delimiting (deserializeAll xdr getSequence vars) := by
  cases vars with
  | nil => exact delimiting_nothing []
  | cons v vars =>
    exact (delimiting_variable bounded v plain.1).andThen fun _ =>
      (delimiting_members bounded vars plain.2).andThen fun _ => delimiting_nothing _
end

/-! ## The response -/

mutual
theorem plain_of_fits (v : Var) (d : Data) (fits : Fits v d) : Plain (reset (projected v)) := by
  cases v with
  | simple type name sendP => trivial
  | array name sendP var dims =>
    rw [Fits] at fits
    obtain ⟨-, -, -, -, fits⟩ := fits
    rw [projected, reset, Plain]
    cases var with
    | simple type n s => trivial
    | _ =>
      cases d with
      | elements vec =>
        obtain ⟨some', -, each⟩ := fits
        cases vec with
        | nil => exact absurd rfl some'
        | cons first vec => exact plain_of_fits _ first (each first List.mem_cons_self)
      | _ => exact fits.elim
  | constructor isSequence name sendP vars =>
    cases isSequence with
    | true => exact fits.elim
    | false =>
      cases d with
      | members data => exact ⟨rfl, plain_of_fitsAll vars data fits⟩
      | _ => exact fits.elim
  | grid name sendP arrayVar mapVars =>
    cases d with
    | grid array maps =>
      rw [Fits] at fits
      have later := plain_of_fitsAll mapVars maps fits.2
      rw [projected]
      split
      · next yields =>
        have sent : arrayVar.sendP = true := by
          simp only [yieldsGrid, Bool.and_eq_true] at yields
          exact yields.1.1
        exact ⟨plain_of_fits arrayVar array (fits.1 sent), later⟩
      · by_cases sent : arrayVar.sendP = true
        · rw [if_pos sent]
          exact ⟨rfl, plain_of_fits arrayVar array (fits.1 sent), later⟩
        · rw [if_neg sent]
          exact ⟨rfl, later⟩
    | _ => exact fits.elim

theorem plain_of_fitsAll (vars : List Var) (data : List Data) (fits : FitsAll vars data) :
    PlainAll (resetAll (projectedAll vars)) := by
  cases vars with
  | nil => trivial
  | cons v vars =>
    cases data with
    | nil => exact fits.elim
    | cons d data =>
      rw [FitsAll] at fits
      have later := plain_of_fitsAll vars data fits.2
      rw [projectedAll]
      split
      · next sent => exact ⟨plain_of_fits v d (fits.1 sent), later⟩
      · exact later
end

/-- A response of which the end is missing, anywhere behind its declarations, is refused. -/
theorem truncated_response_refused (documented : xdr.Documented) (bounded : BoundedRoutines xdr)
    (garbage : UInt8) (dds : DDS) (data : List Data) (readable : AllReadable dds.vars)
    (projects : ProjectsAll dds.vars) (named : Named dds.name) (plain : id2www dds.name = dds.name)
    (fits : FitsAll dds.vars data) (out : Text) :
    ∃ sent,
      datasetConstraint xdr putSequence dds data out =
        .ok () (out ++ (dds.print true ++ (bytes "Data:\n" ++ sent))) ∧
      ∀ k < sent.length, ∃ e left,
        processData xdr getSequence garbage (dds.print true ++ (bytes "Data:\n" ++ sent.take k)) =
          some (resetDDS (projectedDDS dds), .error e left) := by
  obtain ⟨sent, writes, reads⟩ :=
    @agree_members xdr putSequence getSequence documented dds.vars data fits
  refine ⟨sent, datasetConstraint_writes writes out, fun k less => ?_⟩
  have members : Delimiting (deserializeAll xdr getSequence (resetAll (projectedAll dds.vars))) :=
    delimiting_members bounded _ (plain_of_fitsAll dds.vars data fits)
  obtain ⟨e, left, failed⟩ := members.short reads less
  exact ⟨e, left, by rw [processData_printed garbage readable projects named plain, failed]⟩

/-! ## A library that does what the manual says -/

theorem decodeCount_bounded {mem : List UInt8} {cnt : Nat} (decoded : decodeCount mem = some cnt) :
    4 ≤ mem.length ∧ (∀ n more, 4 ≤ n → decodeCount (mem.take n ++ more) = some cnt) ∧
      ∀ k < 4, decodeCount (mem.take k) = none := by
  unfold decodeCount at decoded ⊢
  by_cases long : 4 ≤ mem.length
  · rw [if_pos long] at decoded
    refine ⟨long, fun n more large => ?_, fun k short => ?_⟩
    · have enough : 4 ≤ (mem.take n).length := by
        rw [List.length_take]
        omega
      have room : 4 ≤ (mem.take n ++ more).length := by
        rw [List.length_append]
        omega
      rw [if_pos room, List.take_append_of_le_length enough, List.take_take,
        Nat.min_eq_left large]
      exact decoded
    · rw [if_neg (by rw [List.length_take]; omega)]
  · rw [if_neg long] at decoded
    cases decoded

theorem bounded_fixed {α : Type} {n : Nat} {value : List UInt8 → α}
    {routine : List UInt8 → Option (α × Nat)}
    (eq : ∀ mem, routine mem = if n ≤ mem.length then some (value mem, n) else none)
    (front : ∀ mem more, n ≤ mem.length → value (mem.take n ++ more) = value mem) :
    Bounded routine := by
  intro mem a used decoded
  rw [eq] at decoded
  by_cases long : n ≤ mem.length
  · rw [if_pos long] at decoded
    cases decoded
    refine ⟨long, fun more => ?_, fun k short => ?_⟩
    · have room : n ≤ (mem.take n ++ more).length := by
        rw [List.length_append, taken_length long]
        omega
      rw [eq, if_pos room, front mem more long]
    · rw [eq, if_neg (by rw [List.length_take]; omega)]
  · rw [if_neg long] at decoded
    cases decoded

/-- What is behind the count of bytes. -/
theorem behind_count {mem : List UInt8} {n : Nat} (within : 4 + n ≤ mem.length)
    (more : List UInt8) : (mem.take (4 + n) ++ more).drop 4 = (mem.drop 4).take n ++ more := by
  rw [List.drop_append_of_le_length (by rw [taken_length within]; omega), List.drop_take,
    Nat.add_sub_cancel_left]

/-- With less than the bytes that are counted, not all of them are behind the count. -/
theorem cut_count {mem : List UInt8} {cnt n k : Nat} (counted : decodeCount mem = some cnt)
    (short : k < 4 + n) : decodeCount (mem.take k) = none ∨
      decodeCount (mem.take k) = some cnt ∧ ((mem.take k).drop 4).length < n := by
  obtain ⟨-, again, less⟩ := decodeCount_bounded counted
  by_cases few : k < 4
  · exact .inl (less k few)
  · have found := again k [] (by omega)
    rw [List.append_nil] at found
    refine .inr ⟨found, ?_⟩
    rw [List.length_drop, List.length_take]
    omega

theorem bounded_bytes (maxsize : Nat) : Bounded (reference.decodeBytes maxsize) := by
  intro mem a used decoded
  simp only [reference] at decoded ⊢
  cases counted : decodeCount mem with
  | none =>
    rw [counted] at decoded
    cases decoded
  | some cnt =>
    obtain ⟨long, again, -⟩ := decodeCount_bounded counted
    simp only [counted] at decoded
    by_cases fits : cnt ≤ maxsize ∧ rounded cnt ≤ (mem.drop 4).length
    · rw [if_pos fits] at decoded
      cases decoded
      obtain ⟨small, there⟩ := fits
      have count := le_rounded cnt
      have within : 4 + rounded cnt ≤ mem.length := by
        rw [List.length_drop] at there
        omega
      have front : ((mem.drop 4).take (rounded cnt)).length = rounded cnt := taken_length there
      refine ⟨within, fun more => ?_, fun k short => ?_⟩
      · have room : rounded cnt ≤ ((mem.drop 4).take (rounded cnt) ++ more).length := by
          rw [List.length_append]
          omega
        simp only [again _ more (Nat.le_add_right 4 _), behind_count within]
        rw [if_pos ⟨small, room⟩, List.take_append_of_le_length (by omega), List.take_take,
          Nat.min_eq_left count]
      · rcases cut_count counted short with none' | ⟨found, missing⟩
        · simp only [none']
        · simp only [found]
          rw [if_neg fun fits => by omega]
    · rw [if_neg fits] at decoded
      cases decoded

theorem pieces_front {w : Nat} (count : Nat) {bs : List UInt8} (long : count * w ≤ bs.length)
    (more : List UInt8) :
    Bytes.pieces w count (bs.take (count * w) ++ more) = Bytes.pieces w count bs := by
  induction count generalizing bs with
  | zero => rfl
  | succ count ih =>
    have size : (count + 1) * w = w + count * w := by ring
    rw [size] at long ⊢
    have split : bs.take (w + count * w) = bs.take w ++ (bs.drop w).take (count * w) := by
      rw [List.take_add]
    have first : (bs.take w).length = w := taken_length (by omega)
    have behind : count * w ≤ (bs.drop w).length := by
      rw [List.length_drop]
      omega
    rw [Bytes.pieces, Bytes.pieces, split, List.append_assoc, List.take_left' first,
      List.drop_left' first, ih behind]

theorem bounded_array (t : Coder) (maxsize elsize : Nat) (mem : List UInt8) (num used : Nat)
    (decoded : (reference.decodeArray t maxsize elsize mem).result = some (num, used)) :
    used ≤ mem.length ∧
      (∀ more, reference.decodeArray t maxsize elsize (mem.take used ++ more) =
        reference.decodeArray t maxsize elsize mem) ∧
      ∀ k < used, (reference.decodeArray t maxsize elsize (mem.take k)).result = none := by
  simp only [reference] at decoded ⊢
  cases counted : decodeCount mem with
  | none =>
    rw [counted] at decoded
    cases decoded
  | some cnt =>
    obtain ⟨long, again, -⟩ := decodeCount_bounded counted
    simp only [counted] at decoded ⊢
    by_cases fits : cnt ≤ maxsize ∧ cnt * elsize < 2 ^ 32 ∧ cnt * t.wire ≤ (mem.drop 4).length
    · rw [if_pos fits] at decoded
      cases decoded
      obtain ⟨small, few, there⟩ := fits
      have within : 4 + num * t.wire ≤ mem.length := by
        rw [List.length_drop] at there
        omega
      refine ⟨within, fun more => ?_, fun k short => ?_⟩
      · have room : num * t.wire ≤ ((mem.drop 4).take (num * t.wire) ++ more).length := by
          rw [List.length_append, taken_length there]
          omega
        simp only [again _ more (Nat.le_add_right 4 _), behind_count within]
        rw [if_pos ⟨small, few, room⟩, if_pos ⟨small, few, there⟩, pieces_front num there]
      · rcases cut_count counted short with none' | ⟨found, missing⟩
        · simp only [none']
        · simp only [found]
          rw [if_neg fun fits => by omega]
    · rw [if_neg fits] at decoded
      cases decoded

theorem referenceScalars_bounded : BoundedRoutines referenceScalars where
  char := by
    refine @bounded_fixed _ 4 (fun mem => mem.getD 3 0) _ (fun _ => rfl) fun mem more long => ?_
    simp [List.getD, List.getElem?_append, long, Nat.lt_of_succ_le long]
  int := by
    refine @bounded_fixed _ 4 (fun mem => BitVec.ofNat 32 (Bytes.load .big (mem.take 4))) _
      (fun mem => ?_) fun mem more long => ?_
    · simp only [referenceScalars, reference, decodeCount]
      split <;> rfl
    · rw [List.take_left' (taken_length long)]
  element t := by
    refine @bounded_fixed _ t.wire (fun mem => (mem.take t.wire).drop (t.wire - t.width)) _
      (fun _ => rfl) fun mem more long => ?_
    simp only [List.take_left' (taken_length long)]
  string := bounded_bytes
  bytes := bounded_bytes
  array := bounded_array

theorem truncated_response_refused_heights :
    ∃ sent,
      datasetConstraint referenceScalars (fun _ _ => throw .undefinedBehaviour) heights heightsData
          [] = .ok () ([] ++ (heights.print true ++ (bytes "Data:\n" ++ sent))) ∧
      ∀ k < sent.length, ∃ e left,
        processData referenceScalars (fun _ => throw .undefinedBehaviour) 0
            (heights.print true ++ (bytes "Data:\n" ++ sent.take k)) =
          some (resetDDS (projectedDDS heights), .error e left) :=
  truncated_response_refused referenceScalars_documented referenceScalars_bounded 0 heights
    heightsData heights_readable heights_projects (DDSText.named_of (by decide)) (by decide)
    heights_fit []

end Libdap.Guarantees.TruncatedResponse
