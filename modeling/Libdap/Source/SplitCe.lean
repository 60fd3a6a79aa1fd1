import Libdap.Source.Keywords

/-!
# ResponseBuilder.cc: server functions in a constraint
-/
namespace Libdap.Source.SplitCe
open Libdap.Source.Keywords

/-- A registered function; `btpFunc` is whether `get_btp_func` returns a pointer. -/
structure ServerFunction where
  name : Text
  btpFunc : Bool
  deriving DecidableEq

/-- `find_function` of a function that returns a value. -/
def findFunction (functions : List ServerFunction) (name : Text) : Bool :=
  functions.any fun f => f.name = name && f.btpFunc

/-- `string::find` from `pos` on. -/
def findFrom (c : UInt8) (s : Text) (pos : Nat) : Option Nat := (find c (s.drop pos)).map (pos + ·)

/-- `string::substr`. -/
def substr (s : Text) (pos n : Nat) : Text := (s.drop pos).take n

/-- `string::erase`. -/
def erase (s : Text) (pos n : Nat) : Text := s.take pos ++ s.drop (pos + n)

theorem findFrom_lt {c : UInt8} {s : Text} {pos i : Nat} (found : findFrom c s pos = some i) :
    pos ≤ i ∧ i < s.length := by
  obtain ⟨j, here, rfl⟩ := Option.map_eq_some_iff.mp found
  obtain ⟨inside, -, -⟩ := List.findIdx?_eq_some_iff_getElem.mp here
  rw [List.length_drop] at inside
  omega

/-- A comma at `pos` is erased. -/
def eraseComma (s : Text) (pos : Nat) : Text :=
  if s[pos]? = some comma then erase s pos 1 else s

/-- The position behind a comma at `pos`. -/
def behindComma (s : Text) (pos : Nat) : Nat := if s[pos]? = some comma then pos + 1 else pos

theorem erase_length (s : Text) (pos n : Nat) :
    (erase s pos n).length = min pos s.length + (s.length - (pos + n)) := by
  rw [erase, List.length_append, List.length_take, List.length_drop]

theorem eraseComma_length (s : Text) (pos : Nat) : (eraseComma s pos).length ≤ s.length := by
  rw [eraseComma]
  split
  · rw [erase_length]
    omega
  · exact le_rfl

theorem le_behindComma (s : Text) (pos : Nat) : pos ≤ behindComma s pos := by
  rw [behindComma]
  split <;> omega

/-- The loop of `split_ce`: the constraint and the functions afterwards. -/
def splitLoop (functions : List ServerFunction) (ce btp : Text) (pos : Nat) : Text × Text :=
  match findFrom openParen ce pos, closing : findFrom closeParen ce pos with
  | some firstParen, some closingParen =>
    have inside := findFrom_lt closing
    if findFunction functions (substr ce pos (firstParen - pos)) then
      have := erase_length ce pos (closingParen + 1 - pos)
      have := eraseComma_length (erase ce pos (closingParen + 1 - pos)) pos
      splitLoop functions (eraseComma (erase ce pos (closingParen + 1 - pos)) pos)
        ((if btp = [] then btp else btp ++ [comma]) ++ substr ce pos (closingParen + 1 - pos)) pos
    else
      have := le_behindComma ce (closingParen + 1)
      splitLoop functions ce btp (behindComma ce (closingParen + 1))
  | _, _ => (ce, btp)
termination_by ce.length - pos
decreasing_by all_goals omega

/-- `split_ce`: `d_ce` and `d_btp_func_ce` afterwards. -/
def splitCe (functions : List ServerFunction) (expr ce : Text) : Text × Text :=
  splitLoop functions (if expr ≠ [] then expr else ce) [] 0

end Libdap.Source.SplitCe
