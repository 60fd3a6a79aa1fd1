import Libdap.Guarantees.DAP4Put

/-!
# The checksum-only mode

A marshaller built without `write_data` should leave the stream alone and feed
the digest what the writing marshaller feeds it. The digest half always holds.
The byte form of `put_vector` is the one writer without the guard, so the
stream half holds of the runs that give it no bytes.
-/
namespace Libdap.Guarantees.DAP4ChecksumMode
open Libdap.Library Libdap.Library.Bytes
open Libdap.Source Libdap.Source.DAP4StreamMarshaller
open DAP4Put

/-- The bytes one call adds to the stream once the context is valid. -/
def written (writeData : Bool) (order : ByteOrder) : Call → List UInt8
  | .resetChecksum => []
  | .put d => if writeData then framing d ++ digested order d else unguarded d

def fed (order : ByteOrder) : Call → DigestCall
  | .resetChecksum => .init
  | .put d => .update (digested order d)

theorem run_valid (calls : List Call) {m : Marshaller} (valid : m.checksumCtxValid = true) :
    run calls m = .ok ()
      { m with
        out := m.out ++ calls.flatMap (written m.writeData m.hostOrder),
        digest := m.digest ++ calls.map (fed m.hostOrder) } := by
  induction calls generalizing m with
  | nil => simp [run, pure, EStateM.pure]
  | cons c rest ih =>
    cases c with
    | resetChecksum =>
      apply (call_ok (rfl : resetChecksum m = _)).trans
      rw [ih rfl]
      simp [written, fed, valid]
    | put d =>
      apply (call_ok (put_valid d valid)).trans
      rw [ih (by simpa using valid)]
      simp [written, fed]

/-- The marshaller when a run of calls has ended, by itself or by an exception. -/
def final (order : ByteOrder) (writeData : Bool) (calls : List Call) : Marshaller :=
  match run calls (make order writeData) with
  | .ok _ m => m
  | .error _ m => m

theorem final_reset (order : ByteOrder) (writeData : Bool) (rest : List Call) :
    final order writeData (.resetChecksum :: rest) =
      { hostOrder := order, writeData, checksumCtxValid := true,
        out := rest.flatMap (written writeData order),
        digest := .init :: rest.map (fed order) } := by
  have start : run (.resetChecksum :: rest) (make order writeData) = _ :=
    (call_ok (rfl : resetChecksum (make order writeData) = _)).trans (run_valid rest rfl)
  rw [final, start]
  simp [make]

/-- Without a context the first put ends the run. -/
theorem final_put (order : ByteOrder) (writeData : Bool) (d : Datum) (rest : List Call) :
    final order writeData (.put d :: rest) =
      { make order writeData with out := if writeData then early d else [] } := by
  have start : run (.put d :: rest) (make order writeData) = _ :=
    call_error (put_invalid d rfl)
  rw [final, start]
  rfl

/-- Both modes show the digest the same calls, whatever is put. -/
theorem digest_same (order : ByteOrder) (calls : List Call) :
    (final order false calls).digest = (final order true calls).digest := by
  cases calls with
  | nil => rfl
  | cons c rest =>
    cases c with
    | resetChecksum => simp only [final_reset]
    | put d => simp only [final_put, make]

/-- No data on the stream, and the digest of the writing mode. -/
def ChecksumOnly (order : ByteOrder) (calls : List Call) : Prop :=
  (final order false calls).out = [] ∧
    (final order false calls).digest = (final order true calls).digest

/-- Once the digest context is set up, the byte form of `put_vector` gets no bytes. -/
def ByteVectorsEmpty (calls : List Call) : Prop :=
  calls.head? = some .resetChecksum → ∀ val, .put (.vector val) ∈ calls → val.elems = []

theorem written_off_iff (order : ByteOrder) (c : Call) :
    written false order c = [] ↔ ∀ val, .put (.vector val) = c → val.elems = [] := by
  constructor
  · rintro none val rfl
    simpa [written, unguarded] using none
  · intro empty
    cases c with
    | resetChecksum => rfl
    | put d =>
      cases d with
      | vector val => simpa [written, unguarded] using empty val rfl
      | _ => simp [written, unguarded]

/-- Writing for the checksum alone puts no data on the stream, and has the digest of the writing
mode, exactly if the byte form of `put_vector` gets no bytes once the digest is set up. -/
theorem checksumOnly_iff (order : ByteOrder) (calls : List Call) :
    ChecksumOnly order calls ↔ ByteVectorsEmpty calls := by
  rw [ChecksumOnly, and_iff_left (digest_same order calls), ByteVectorsEmpty]
  cases calls with
  | nil => simp [final, run, make, pure, EStateM.pure]
  | cons c rest =>
    cases c with
    | put d => simp [final_put]
    | resetChecksum =>
      rw [final_reset]
      simp only [List.flatMap_eq_nil_iff, written_off_iff, List.head?_cons, List.mem_cons,
        reduceCtorEq, false_or, true_implies]
      constructor
      · intro none val sent
        exact none _ sent val rfl
      · rintro empty c sent val rfl
        exact empty val sent

/-- One byte put as a vector is on the stream although no data was asked for. -/
theorem checksumOnly_fails :
    ¬ ChecksumOnly .little [.resetChecksum, .put (.vector ⟨[7], by decide⟩)] := by
  rintro ⟨silent, -⟩
  exact absurd silent (by decide)

end Libdap.Guarantees.DAP4ChecksumMode
