import Libdap.Source.Escaping

/-!
# DDS.cc, Constructor.cc, Vector.cc, Grid.cc: variables by name

A variable is known by its path: which variable of the dataset, which member of that one,
and so on. The element template of a Vector is its member 0, as is the array of a Grid,
which the maps follow. The value `garbage` is what `www2id` can come upon.
-/
namespace Libdap.Source.Lookup
open Libdap.Source.Escaping

/-- A variable and what it contains, for the classes as far as the search by name tells them
apart. -/
inductive BaseType where
  | simple (name : Text)
  | vector (name : Text) (var : BaseType)
  /-- A Structure or a Sequence. -/
  | constructor (isSequence : Bool) (name : Text) (vars : List BaseType)
  | grid (name : Text) (arrayVar : BaseType) (mapVars : List BaseType)
  deriving Repr

abbrev Path := List Nat

namespace BaseType

def name : BaseType → Text
  | .simple name => name
  | .vector name _ => name
  | .constructor _ name _ => name
  | .grid name _ _ => name

def isConstructorType : BaseType → Bool
  | .constructor .. => true
  | .grid .. => true
  | _ => false

def members : BaseType → List BaseType
  | .simple _ => []
  | .vector _ var => [var]
  | .constructor _ _ vars => vars
  | .grid _ arrayVar mapVars => arrayVar :: mapVars

theorem sizeOf_lt_of_mem {v w : BaseType} (mem : w ∈ v.members) : sizeOf w < sizeOf v := by
  cases v with
  | simple => cases mem
  | vector name var =>
    cases List.mem_singleton.mp mem
    simp
  | constructor kind name vars =>
    have smaller : sizeOf w < sizeOf vars := List.sizeOf_lt_of_mem mem
    simp
    omega
  | grid name arrayVar mapVars =>
    rcases List.mem_cons.mp mem with rfl | mem
    · simp
      omega
    · have smaller : sizeOf w < sizeOf mapVars := List.sizeOf_lt_of_mem mem
      simp
      omega

/-- Induction over what a variable contains. -/
theorem members_induction {P : BaseType → Prop}
    (step : ∀ v, (∀ w ∈ v.members, P w) → P v) (v : BaseType) : P v :=
  step v fun w mem =>
    have := sizeOf_lt_of_mem mem
    members_induction step w
  termination_by sizeOf v

end BaseType

/-- The first of the variables at `p` that has the name. -/
def named (n : Text) (p : Path) (vars : List BaseType) : Option (Path × BaseType) :=
  (vars.zipIdx.find? fun (v, _) => v.name = n).map fun (v, i) => (p ++ [i], v)

/-- A name up to its first dot, and what follows the dot. -/
def splitFirst : Text → Option (Text × Text)
  | [] => none
  | c :: rest =>
    if c = dot then some ([], rest)
    else (splitFirst rest).map fun (aggregate, field) => (c :: aggregate, field)

/-- What a search returns, and what it pushes on the stack, the first first. -/
abbrev Search := Option (Path × BaseType) × List Path

theorem www2id_length_le (garbage : UInt8) (n : Text) :
    (www2id garbage n).length ≤ n.length := by
  fun_induction www2id garbage n <;> simp_all <;> omega

theorem splitFirst_eq {n aggregate field : Text}
    (split : splitFirst n = some (aggregate, field)) : n = aggregate ++ dot :: field := by
  induction n generalizing aggregate with
  | nil => cases split
  | cons c rest ih =>
    unfold splitFirst at split
    by_cases here : c = dot
    · rw [if_pos here] at split
      cases split
      rw [here]
      rfl
    · rw [if_neg here] at split
      obtain ⟨⟨before, after⟩, found, same⟩ := Option.map_eq_some_iff.mp split
      cases same
      rw [ih found]
      rfl

theorem splitFirst_length {n aggregate field : Text}
    (split : splitFirst n = some (aggregate, field)) :
    aggregate.length < n.length ∧ field.length < n.length := by
  rw [splitFirst_eq split, List.length_append, List.length_cons]
  omega

section
variable (garbage : UInt8)

/-- `Grid::var`. -/
def gridVar (n : Text) (p : Path) (vars : List BaseType) : Search :=
  match named (www2id garbage n) p vars with
  | some found => (some found, [p])
  | none => (none, [])

mutual

/-- `var(n, false, s)` of a variable of a constructor type; no other is asked. -/
def leafVar (n : Text) : BaseType → Path → Search
  | .constructor _ _ vars, p => leafMatch (www2id garbage n) p vars 0
  | .grid _ arrayVar mapVars, p => gridVar garbage n p (arrayVar :: mapVars)
  | .simple _, _ | .vector .., _ => (none, [])

/-- `m_leaf_match` of the constructor at `p`, from its member `i` on. -/
def leafMatch (n : Text) (p : Path) : List BaseType → Nat → Search
  | [], _ => (none, [])
  | v :: vars, i =>
    if v.name = n then (some (p ++ [i], v), [p])
    else if v.isConstructorType then
      match leafVar n v (p ++ [i]) with
      | (some found, s) => (some found, s ++ [p])
      | (none, s) =>
        let (found, s') := leafMatch n p vars (i + 1)
        (found, s ++ s')
    else leafMatch n p vars (i + 1)

end

/-- `var(n, true, s)`; of a constructor, `m_exact_match` of the decoded name. -/
def exactVar (n : Text) : BaseType → Path → Search
  | .simple _, _ => (none, [])
  | .vector _ var, p =>
    if var.isConstructorType then
      if www2id garbage n = [] ∨ var.name = www2id garbage n then (some (p ++ [0], var), [p])
      else
        match exactVar (www2id garbage n) var (p ++ [0]) with
        | (some found, s) => (some found, s ++ [p])
        | (none, s) => (none, s)
    else (some (p ++ [0], var), [])
  | .constructor kind name vars, p =>
    match named (www2id garbage n) p vars with
    | some found => (some found, [p])
    | none =>
      match _split : splitFirst (www2id garbage n) with
      | none => (none, [])
      | some (aggregate, field) =>
        -- the aggregate is looked up without a stack
        match (exactVar aggregate (.constructor kind name vars) p).1 with
        | none => (none, [])
        | some (q, agg) =>
          let (found, s) := exactVar field agg q
          (found, p :: s)
  | .grid _ arrayVar mapVars, p => gridVar garbage n p (arrayVar :: mapVars)
  termination_by v => (n.length, sizeOf v)
  decreasing_by
    · have shorter := www2id_length_le garbage n
      rcases Nat.lt_or_eq_of_le shorter with less | same
      · exact Prod.Lex.left _ _ less
      · rw [same]
        apply Prod.Lex.right
        simp
    · have shorter := splitFirst_length _split
      have decoded := www2id_length_le garbage n
      exact Prod.Lex.left _ _ (by omega)
    · have shorter := splitFirst_length _split
      have decoded := www2id_length_le garbage n
      exact Prod.Lex.left _ _ (by omega)

/-- `DDS::leaf_match`, from the variable `i` on. -/
def ddsLeafMatch (n : Text) : List BaseType → Nat → Search
  | [], _ => (none, [])
  | v :: vars, i =>
    if v.name = n then (some ([i], v), [])
    else if v.isConstructorType then
      match leafVar garbage n v [i] with
      | (some found, s) => (some found, s)
      | (none, s) =>
        let (found, s') := ddsLeafMatch n vars (i + 1)
        (found, s ++ s')
    else ddsLeafMatch n vars (i + 1)

mutual

/-- `DDS::var` of a dataset without a current container. -/
def ddsVar (vars : List BaseType) (n : Text) : Search :=
  match ddsExactMatch vars (www2id garbage n) with
  | (some found, s) => (some found, s)
  | (none, s) =>
    let (found, s') := ddsLeafMatch garbage (www2id garbage n) vars 0
    (found, s ++ s')
  termination_by (n.length, 1)
  decreasing_by
    rcases Nat.lt_or_eq_of_le (www2id_length_le garbage n) with less | same
    · exact Prod.Lex.left _ _ less
    · rw [same]
      exact Prod.Lex.right _ (by omega)

/-- `DDS::exact_match`. -/
def ddsExactMatch (vars : List BaseType) (name : Text) : Search :=
  match named name [] vars with
  | some found => (some found, [])
  | none =>
    match _split : splitFirst name with
    | none => (none, [])
    | some (aggregate, field) =>
      match ddsVar vars aggregate with
      | (none, s) => (none, s)
      | (some (q, agg), s) =>
        let (found, s') := exactVar garbage field agg q
        (found, s ++ s')
  termination_by (name.length, 0)
  decreasing_by
    exact Prod.Lex.left _ _ (splitFirst_length _split).1

end

theorem ddsExactMatch_eq (vars : List BaseType) (name : Text) :
    ddsExactMatch garbage vars name =
      match named name [] vars with
      | some found => (some found, [])
      | none =>
        match splitFirst name with
        | none => (none, [])
        | some (aggregate, field) =>
          match ddsVar garbage vars aggregate with
          | (none, s) => (none, s)
          | (some (q, agg), s) =>
            let (found, s') := exactVar garbage field agg q
            (found, s ++ s') := by
  rw [ddsExactMatch]
  split
  · rfl
  · split <;> simp_all

theorem exactVar_constructor (n : Text) (kind : Bool) (name : Text) (vars : List BaseType) (p : Path) :
    exactVar garbage n (.constructor kind name vars) p =
      match named (www2id garbage n) p vars with
      | some found => (some found, [p])
      | none =>
        match splitFirst (www2id garbage n) with
        | none => (none, [])
        | some (aggregate, field) =>
          match (exactVar garbage aggregate (.constructor kind name vars) p).1 with
          | none => (none, [])
          | some (q, agg) =>
            let (found, s) := exactVar garbage field agg q
            (found, p :: s) := by
  rw [exactVar]
  split
  · rfl
  · split <;> simp_all

/-- The `send_p` flags of all variables. -/
abbrev Flags := Path → Bool

def setFlag (state : Bool) (flags : Flags) (p : Path) : Flags :=
  fun q => if q = p then state else flags q

mutual

/-- `set_send_p`: the members first, then the variable itself. -/
def setSendP (state : Bool) (flags : Flags) (p : Path) : BaseType → Flags
  | .simple _ => setFlag state flags p
  | .vector _ var => setFlag state (setSendP state flags (p ++ [0]) var) p
  | .constructor _ _ vars => setFlag state (setAllSendP state flags p 0 vars) p
  | .grid _ arrayVar mapVars =>
    setFlag state
      (setAllSendP state (setSendP state flags (p ++ [0]) arrayVar) p 1 mapVars) p

def setAllSendP (state : Bool) (flags : Flags) (p : Path) (i : Nat) : List BaseType → Flags
  | [] => flags
  | v :: vars => setAllSendP state (setSendP state flags (p ++ [i]) v) p (i + 1) vars

end

/-- `DDS::mark`: the last variable pushed is the first to be marked. -/
def mark (vars : List BaseType) (flags : Flags) (n : Text) (state : Bool) : Bool × Flags :=
  match ddsVar garbage vars n with
  | (none, _) => (false, flags)
  | (some (p, v), s) => (true, s.reverse.foldl (setFlag state) (setSendP state flags p v))

end

end Libdap.Source.Lookup
