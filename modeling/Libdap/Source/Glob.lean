import Libdap.Source.Escaping

/-!
# util.cc: patterns

A pointer into a string is the list of the bytes from there to the end of its array.
-/
namespace Libdap.Source.Glob

inductive Fault where
  | pastTheEnd
  | outsideTable
  | overflow
  deriving DecidableEq, Repr

def question : UInt8 := 63

def asterisk : UInt8 := 42

def backslash : UInt8 := 92

def openBracket : UInt8 := 91

def closeBracket : UInt8 := 93

def caret : UInt8 := 94

def dash : UInt8 := 45

def deref : Text → Except Fault UInt8
  | [] => .error .pastTheEnd
  | c :: _ => .ok c

/-- A `char` is signed. -/
def charValue (c : UInt8) : Int := if c.toNat < 128 then c.toNat else (c.toNat : Int) - 256

/-- `bitlist`. -/
abbrev Table := Vector (BitVec 8) 16

/-- `b[c / 8] |= (1 << (c % 8))`. Where `c` is negative, so is the index or the shift. -/
def setBit (b : Table) (c : Int) : Except Fault Table :=
  if inside : 0 ≤ c ∧ c.toNat / 8 < 16 then
    .ok (b.set (c.toNat / 8) (b[c.toNat / 8] ||| 1#8 <<< (c.toNat % 8)))
  else .error .outsideTable

def setRange (b : Table) (c last : Int) : Except Fault Table :=
  if c ≤ last then do setRange (← setBit b c) (c + 1) last else .ok b
termination_by (last + 1 - c).toNat

/-- The loop of `globchars`. -/
def setChars (b : Table) : Text → Except Fault Table
  | [] => .ok b
  | x :: d :: y :: rest =>
    if d = dash then do setChars (← setRange b (charValue x) (charValue y)) rest
    else do setChars (← setBit b (charValue x)) (d :: y :: rest)
  | x :: rest => do setChars (← setBit b (charValue x)) rest

/-- `globchars` of the bytes from `s` up to `e`; zero is taken out at the end. -/
def globchars (s : Text) : Except Fault Table := do
  let neg := s.head? = some caret
  let b ← setChars (Vector.replicate 16 0#8) (if neg then s.tail else s)
  let b := if neg then b.map (· ^^^ 0xFF#8) else b
  pure (b.set 0 (b[0] &&& 0xFE#8))

/-- `CHECK_BIT`. -/
def checkBit (b : Table) (bit : UInt8) : Except Fault Bool :=
  if inside : bit.toNat / 8 < 16 then
    .ok (b[bit.toNat / 8] &&& 1#8 <<< (bit.toNat % 8) ≠ 0#8)
  else .error .outsideTable

/-- The scan for the closing bracket: how far it is from `here`, unless the pattern ends. -/
def bracketEnd : Text → Except Fault (Option Nat)
  | [] => .error .pastTheEnd
  | x :: c =>
    if x = 0 then .ok none
    else
      match c with
      | [] => .error .pastTheEnd
      | y :: rest =>
        if y ≠ closeBracket then do return (← bracketEnd (y :: rest)).map (· + 1)
        else .ok (some 1)

/-- `++i` of an `int`. -/
def increment (i : Nat) : Except Fault Nat :=
  if i + 1 < 2 ^ 31 then .ok (i + 1) else .error .overflow

/-- How far the end of a string is. -/
def toEnd : Text → Except Fault Nat
  | [] => .error .pastTheEnd
  | x :: s => if x = 0 then .ok 0 else do return (← toEnd s) + 1

/-- The tries behind an asterisk, from the end of the string back to `here`. -/
def tries (attempt : Text → Except Fault Int) (here : Text) : Nat → Except Fault (Option Bool)
  | 0 => .ok none
  | k + 1 => do
    let r ← attempt (here.drop (k + 1))
    if r = 0 then return some true
    else if r < 0 then return some false
    else tries attempt here k

/-- Where the pattern has ended. -/
def atEnd (s : Text) : Except Fault Int := do return if (← deref s) ≠ 0 then -1 else 0

/-- The loop of `glob`. -/
def globLoop (i : Nat) (c s : Text) : Except Fault Int :=
  match c with
  | [] => .error .pastTheEnd
  | x :: c => do
    let i ← increment i
    if x = 0 then atEnd s
    else if x = question then
      if (← deref s) = 0 then return i else globLoop i c s.tail
    else if x = openBracket then
      match ← bracketEnd c with
      | none => return i
      | some n =>
        let bitlist ← globchars (c.take (n + 1))
        if ← checkBit bitlist (← deref s) then globLoop i (c.drop (n + 1)) s.tail else return i
    else if x = asterisk then
      match ← tries (fun t => do if (← deref c) ≠ 0 then globLoop 0 c t else atEnd t) s
          (← toEnd s) with
      | some true => return 0
      | some false => return i
      | none => globLoop i c s
    else if x = backslash then
      let y ← deref c
      if y = 0 then return i
      else if (← deref s) ≠ y then return i
      else globLoop i c.tail s.tail
    else if (← deref s) ≠ x then return i
    else globLoop i c s.tail
termination_by c.length
decreasing_by
  all_goals
    simp only [List.length_cons, List.length_drop, List.length_tail]
    omega

/-- `glob`; a null pointer is `none`. -/
def glob : Option Text → Option Text → Except Fault Int
  | some c, some s => globLoop 0 c s
  | _, _ => .ok 1

end Libdap.Source.Glob
