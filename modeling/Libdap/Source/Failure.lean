/-!
# How a call of the library ends abnormally

`Error` and `InternalErr` are the two exception classes of Error.h and
InternalErr.h; the texts are the arguments of the source's `throw` (the file
name and line number of an `InternalErr` are left out). The remaining cases are
raised outside the library, or are steps the language gives no meaning to.
-/
namespace Libdap.Source

/-- Error.h:52-60. -/
inductive ErrorCode where
  | undefinedError | unknownError | internalError | noSuchFile | noSuchVariable
  | malformedExpr | noAuthorization | cannotReadFile
  deriving DecidableEq, Repr

inductive Failure where
  | error (code : ErrorCode) (message : String)
  | internalErr (message : String)
  /-- `ios_base::failure`: a stream gave fewer bytes than were asked for. -/
  | streamFailure
  /-- A container of the standard library refused its size. -/
  | lengthError
  /-- Undefined behaviour of the language. -/
  | undefinedBehaviour
  /-- Not an outcome of the source: the bound on the turns of a loop was too small. -/
  | outOfFuel
  deriving DecidableEq, Repr

end Libdap.Source
