import Libdap.Source.Failure
import Libdap.Source.HTTPCacheIndex

/-!
# DDS: the version of the protocol

`set_dap_version` takes the text apart with the extraction operators of `istringstream`. A
number that it cannot read is 0, one that it does not come to stays -1.
-/
namespace Libdap.Source.DapVersion
open HTTPCacheTable (Chars)
open HTTPCacheIndex (Stream)

/-- `major` and `minor`; the dot is not looked at where `minor` was not come to. -/
def majorMinor (v : Chars) : Option (Int × Int) :=
  let major := (Stream.mk v false).getInt (-1)
  match major.2.skip with
  | none | some [] => none
  | some (dot :: rest) =>
    let minor := (Stream.mk rest false).getInt (-1)
    if major.1 = -1 ∨ minor.1 = -1 ∨ dot ≠ '.' then none else some (major.1, minor.1)

/-- `DDS::set_dap_version`: the version that is set, for which there is a namespace. -/
def setDapVersion (v : Chars) : Except Failure Chars :=
  match majorMinor v with
  | none =>
    .error (.internalErr ("Could not parse dap version. Value given: " ++ String.ofList v))
  | some (major, _) =>
    if major = 2 ∨ major = 3 ∨ major = 4 then .ok v
    else .error (.internalErr "Unknown DAP version.")

theorem setDapVersion_ok {v w : Chars} (done : setDapVersion v = .ok w) : w = v := by
  unfold setDapVersion at done
  split at done
  · cases done
  · split at done
    · cases done
      rfl
    · cases done

theorem setDapVersion_refuses {v : Chars} {failure : Failure}
    (failed : setDapVersion v = .error failure) : ∃ message, failure = .internalErr message := by
  unfold setDapVersion at failed
  split at failed
  · cases failed
    exact ⟨_, rfl⟩
  · split at failed
    · cases failed
    · cases failed
      exact ⟨_, rfl⟩

example : setDapVersion "3.2".toList = .ok "3.2".toList := by decide

end Libdap.Source.DapVersion
