import Libdap.Source.Hyperslab
import Libdap.Source.Operators
import Libdap.Source.Words

/-!
# ce_expr.yy: constraint expressions

A constraint is the tree of its reductions. The action of each rule changes the state of the
dataset and of the evaluator; the one of `array_const_special_form` as a projection returns
from the parser. An empty list of arguments is the null pointer.
-/
namespace Libdap.Source.Constraint
open Libdap.Source.Array Libdap.Source.Escaping Libdap.Source.Lookup Libdap.Source.Hyperslab
open Libdap.Source.Operators (Op)
open Libdap.Source.Words

/-! ### What the rules derive -/

/-- The token of a name: SCAN_WORD, or SCAN_STR without its quotes. -/
inductive Name where
  | word (yytext : Text)
  | str (s : Text)
  deriving DecidableEq, Repr

/-- What ends an index: SCAN_WORD or SCAN_STAR. -/
inductive Last where
  | word (yytext : Text)
  | star
  deriving DecidableEq, Repr

inductive ArrayIndex where
  | one (last : Last)
  | two (start : Text) (last : Last)
  | three (start stride : Text) (last : Last)
  deriving DecidableEq, Repr

inductive Hash where
  | byte | int16 | uint16 | int32 | uint32 | float32 | float64
  deriving DecidableEq, Repr

/-- `array_const_special_form`; there is at least one word. -/
structure ConstantForm where
  kind : Hash
  hint : Text
  values : List Text
  deriving DecidableEq, Repr

/-- `array_proj_clause`. -/
inductive ArrayClause where
  | indices (n : Name) (indices : List ArrayIndex)
  | field (c : ArrayClause) (n : Name)
  | fieldIndices (c : ArrayClause) (n : Name) (indices : List ArrayIndex)
  deriving DecidableEq, Repr

/-- `r_value`. -/
inductive RValueTree where
  | word (yytext : Text)
  | str (s : Text)
  | function (yytext : Text) (args : List RValueTree)
  | constantArray (form : ConstantForm)
  | arrayProjection (n : Name) (indices : List ArrayIndex)

inductive ProjClause where
  | name (n : Name)
  | function (yytext : Text) (args : List RValueTree)
  | arrayProjection (c : ArrayClause)
  | constantArray (form : ConstantForm)

/-- `clause`. -/
inductive SelClause where
  | list (left : RValueTree) (op : Op) (right : List RValueTree)
  | relation (left : RValueTree) (op : Op) (right : RValueTree)
  | function (yytext : Text) (args : List RValueTree)

/-- `constraint_expr`. Either part may be missing, that is, be empty. -/
structure ConstraintExpr where
  projection : List ProjClause
  selection : List SelClause

/-! ### What the actions make -/

/-- The values of a constant array are the words, to be read by `strtol` and the like. -/
inductive Value where
  | variable (p : Path)
  | int32 (v : Int)
  | uint32 (v : Int)
  | float64 (word : Text)
  | str (s : Text)
  | array (name : Text) (kind : Hash) (values : List Text)
  /-- What a function has made. -/
  | result (id : Nat)
  deriving DecidableEq, Repr

inductive RValue where
  | value (v : Value)
  | function (name : Text) (args : List RValue)

inductive Clause where
  | relational (op : Op) (arg1 : RValue) (args : List RValue)
  | boolean (func : Text) (args : List RValue)
  | basetype (func : Text) (args : List RValue)

structure State where
  vars : List BaseType
  projection : Projection
  inSelection : Flags
  /-- `expr` of the evaluator. -/
  clauses : List Clause
  /-- The next number for the name of a constant array; the source counts for each type of
  constants alone. -/
  counter : Nat

/-- The list of functions, which modules of the server fill, and `check_float64`, which asks
`strtod`. -/
structure Environment where
  boolFunc : Text → Bool
  btpFunc : Text → Option (List Value → State → Except Failure (Value × State))
  projFunc : Text → Option (List Value → State → Except Failure State)
  checkFloat64 : Text → Bool

mutual

def setInSelection (flags : Flags) (p : Path) : BaseType → Flags
  | .simple _ | .vector _ _ => setFlag true flags p
  | .constructor _ _ vars => setFlag true (setAllInSelection flags p 0 vars) p
  | .grid _ arrayVar mapVars =>
    setFlag true (setAllInSelection (setInSelection flags (p ++ [0]) arrayVar) p 1 mapVars) p

def setAllInSelection (flags : Flags) (p : Path) (i : Nat) : List BaseType → Flags
  | [] => flags
  | v :: vars => setAllInSelection (setInSelection flags (p ++ [i]) v) p (i + 1) vars

end

def exprError (msg : String) : Failure :=
  .error .malformedExpr ("Constraint expression parse error: " ++ msg)

def noSuchIdent (name : Text) (word : String) : Failure :=
  exprError ("No such " ++ word ++ " in dataset: " ++ shown name)

def noSuchFunc (name : Text) : Failure := exprError ("Not a registered function: " ++ shown name)

section
variable (garbage : UInt8) (env : Environment)

/-! ### Names and indices -/

/-- The action of `name`. -/
def name : Name → Except Failure Text
  | .word yytext => .ok (cut (www2id garbage (storeId yytext)))
  | .str s =>
    if s = [] then .error (exprError "Malformed string: ")
    else .ok (cut (www2id garbage s))

def indexWord (yytext : Text) : Except Failure Int :=
  if checkUint32 (storeId yytext) then .ok (atoi (storeId yytext))
  else .error (malformed "The word `" (storeId yytext) "' is not a valid array index.")

def indexLast : Last → Except Failure Int
  | .word yytext => indexWord yytext
  | .star => .ok (-1)

/-- The actions of `array_index`, with `make_array_index`. -/
def arrayIndex : ArrayIndex → Except Failure Index
  | .one last => do
    let i ← indexLast last
    pure { start := if i = -1 then 0 else i, stride := 1, stop := i }
  | .two start last => do
    let start ← indexWord start
    let stop ← indexLast last
    pure { start, stride := 1, stop }
  | .three start stride last => do
    let start ← indexWord start
    let stride ← indexWord stride
    let stop ← indexLast last
    pure { start, stride, stop }

def arrayIndices (indices : List ArrayIndex) : Except Failure (List Index) :=
  indices.mapM arrayIndex

def markName (n : Text) (s : State) : State :=
  { s with projection := markAll garbage s.vars n s.projection }

def bracket (n : Text) (indices : List Index) (s : State) : Except Failure State := do
  match ← bracketProjection garbage s.vars n indices s.projection with
  | some projection => pure { s with projection }
  | none => .error (noSuchIdent n "array, grid or sequence")

/-! ### Constant arrays -/

def decimal (n : Nat) : Text := (Nat.digits 10 n).reverse.map fun d => (48 + d).toUInt8

mutual

def names : BaseType → List Text
  | .simple n => [n]
  | .vector n var => n :: names var
  | .constructor _ n vars => n :: datasetNames vars
  | .grid n arrayVar mapVars => n :: (names arrayVar ++ datasetNames mapVars)

/-- The names in a dataset. One more number than there are names is enough for a name. -/
def datasetNames : List BaseType → List Text
  | [] => []
  | v :: vars => names v ++ datasetNames vars

end

/-- The loop of `build_constant_array`: the letter g and the first number that makes no name
of the dataset, with the number after it. -/
def freshName (vars : List BaseType) : Nat → Nat → Except Failure (Text × Nat)
  | 0, _ => .error .outOfFuel
  | fuel + 1, counter =>
    if (ddsVar garbage vars (103 :: decimal counter)).1.isSome then
      freshName vars fuel (counter + 1)
    else .ok (103 :: decimal counter, counter + 1)

/-- The actions of `arg_length_hint` and of `array_const_special_form`. The hint is given to
`reserve`, as an `unsigned long`. -/
def constantArray (form : ConstantForm) (s : State) : Except Failure (Value × State) :=
  if !checkInt32 (storeId form.hint) then
    .error (.error .malformedExpr
      "#<type>(hint, value, ...) special form expected hint to be an integer")
  else if atoi (storeId form.hint) < 0 then .error .lengthError
  else do
    let (name, counter) ← freshName garbage s.vars ((datasetNames s.vars).length + 1) s.counter
    pure (.array name form.kind (form.values.map storeId), { s with counter })

/-- `set_send_p(true)` and `add_var_nocopy` of a dataset without a current container: the array
is the last variable. -/
def addArray (name : Text) (values : List Text) (s : State) : State :=
  let p := [s.vars.length]
  let v := BaseType.vector name (.simple name)
  { s with
    vars := s.vars ++ [v]
    projection := { s.projection with
      sendP := setSendP true s.projection.sendP p v }.setDims p
        (fresh.appendDim (int32 values.length) "") }

/-! ### Values -/

/-- What `SCAN_WORD` stands for when there is no variable of the name; what `atoi` returns is
converted to a `dods_uint32` for the second kind. -/
def constant (word : Text) : Value :=
  if checkInt32 word then .int32 (atoi word)
  else if checkUint32 word then .uint32 (atoi word % 2 ^ 32)
  else if env.checkFloat64 word then .float64 word
  else .str (www2id garbage word)

mutual

def rValue (s : State) : RValueTree → Except Failure (RValue × State)
  | .word yytext =>
    match (ddsVar garbage s.vars (www2id garbage (storeId yytext))).1 with
    | some (p, v) =>
      .ok (.value (.variable p), { s with inSelection := setInSelection s.inSelection p v })
    | none => .ok (.value (constant garbage env (storeId yytext)), s)
  | .str t =>
    if t = [] then .error (exprError "Malformed string: ")
    else
      match (ddsVar garbage s.vars (www2id garbage t)).1 with
      | some (p, _) => .ok (.value (.variable p), s)
      | none => .ok (.value (.str t), s)
  | .function yytext args => do
    let (args, s) ← rValueList s args
    if (env.btpFunc (storeId yytext)).isSome then pure (.function (storeId yytext) args, s)
    else .error (noSuchFunc (storeId yytext))
  | .constantArray form => do
    let (array, s) ← constantArray garbage form s
    pure (.value array, s)
  | .arrayProjection n indices => do
    let n ← name garbage n
    let indices ← arrayIndices indices
    let s ← bracket garbage n indices s
    let s := markName garbage n s
    match (ddsVar garbage s.vars n).1 with
    | some (p, _) => pure (.value (.variable p), s)
    | none => .error .undefinedBehaviour

def rValueList (s : State) : List RValueTree → Except Failure (List RValue × State)
  | [] => .ok ([], s)
  | tree :: trees => do
    let (first, s) ← rValue s tree
    let (rest, s) ← rValueList s trees
    pure (first :: rest, s)

end

/-- `size_ok` for the pointers of a list of arguments and its end. -/
def argsFit (count : Nat) : Bool := count + 1 < (2 ^ 32 - 1) / 8

def tooManyArgs (count : Nat) : Failure :=
  .error .malformedExpr ("Malformed argument list (" ++ toString count ++ ").")

mutual

/-- `rvalue::bvalue`. It asks the list of arguments for its size, also when there is none. -/
def bvalue (s : State) : RValue → Except Failure (Value × State)
  | .value v => .ok (v, s)
  | .function name args =>
    if !argsFit args.length then .error (tooManyArgs args.length)
    else do
      let (argv, s) ← bvalues s args
      match env.btpFunc name with
      | some func => if argv = [] then .error .undefinedBehaviour else func argv s
      | none => .error .undefinedBehaviour

def bvalues (s : State) : List RValue → Except Failure (List Value × State)
  | [] => .ok ([], s)
  | arg :: args => do
    let (first, s) ← bvalue s arg
    let (rest, s) ← bvalues s args
    pure (first :: rest, s)

end

def buildBtpArgs (args : List RValue) (s : State) : Except Failure (List Value × State) :=
  if !argsFit args.length then .error (tooManyArgs args.length) else bvalues env s args

/-! ### The projection -/

def appendClause (c : Clause) (s : State) : State := { s with clauses := s.clauses ++ [c] }

def projFunction (yytext : Text) (args : List RValueTree) (s : State) : Except Failure State := do
  let (args, s) ← rValueList garbage env s args
  if (env.btpFunc (storeId yytext)).isSome then
    pure (appendClause (.basetype (storeId yytext) args) s)
  else
    match env.projFunc (storeId yytext) with
    | some func => do
      let (argv, s) ← buildBtpArgs env args s
      func argv s
    | none => .error (noSuchFunc (storeId yytext))

/-- `array_proj_clause`, with the name it leaves. -/
def arrayProjClause : ArrayClause → State → Except Failure (Text × State)
  | .indices n indices, s => do
    let n ← name garbage n
    let indices ← arrayIndices indices
    let s ← bracket garbage n indices s
    pure (cut n, s)
  | .field c n, s => do
    let (before, s) ← arrayProjClause c s
    let n ← name garbage n
    pure (cut (before ++ n), s)
  | .fieldIndices c n indices, s => do
    let (before, s) ← arrayProjClause c s
    let n ← name garbage n
    let indices ← arrayIndices indices
    let s ← bracket garbage (before ++ n) indices s
    pure (cut (before ++ n), s)

/-- Whether the action of a clause leaves the parser running. -/
inductive Turn where
  | running
  | returned
  deriving DecidableEq, Repr

def projClause (c : ProjClause) (s : State) : Except Failure (Turn × State) :=
  match c with
  | .name n => do
    let n ← name garbage n
    if (ddsVar garbage s.vars n).1.isSome then pure (.running, markName garbage n s)
    else .error (noSuchIdent n "identifier")
  | .function yytext args => do
    let s ← projFunction garbage env yytext args s
    pure (.running, s)
  | .arrayProjection c => do
    let (n, s) ← arrayProjClause garbage c s
    pure (.running, markName garbage n s)
  | .constantArray form => do
    let (value, s) ← constantArray garbage form s
    match value with
    | .array name _ values => pure (.returned, addArray name values s)
    | _ => .error (exprError "Could not create the anonymous vector using the # special form")

def projection : List ProjClause → State → Except Failure (Turn × State)
  | [], s => .ok (.running, s)
  | c :: cs, s => do
    let (turn, s) ← projClause garbage env c s
    match turn with
    | .running => projection cs s
    | .returned => pure (.returned, s)

/-! ### The selection -/

def clause (s : State) : SelClause → Except Failure State
  | .list left op right => do
    let (arg1, s) ← rValue garbage env s left
    let (args, s) ← rValueList garbage env s right
    pure (appendClause (.relational op arg1 args) s)
  | .relation left op right => do
    let (arg1, s) ← rValue garbage env s left
    let (arg, s) ← rValue garbage env s right
    pure (appendClause (.relational op arg1 [arg]) s)
  | .function yytext args => do
    let (args, s) ← rValueList garbage env s args
    if env.boolFunc (storeId yytext) then
      pure (appendClause (.boolean (storeId yytext) args) s)
    else .error (noSuchFunc (storeId yytext))

def selection (clauses : List SelClause) (s : State) : Except Failure State :=
  clauses.foldlM (clause garbage env) s

/-- `DDS::mark_all(true)`. -/
def markDataset (s : State) : State :=
  { s with projection := { s.projection with
      sendP := setAllSendP true s.projection.sendP [] 0 s.vars } }

/-- `parse_constraint`, which looks at no result of the parser. -/
def parseConstraint (c : ConstraintExpr) (s : State) : Except Failure State :=
  match c.projection with
  | [] => selection garbage env c.selection (markDataset s)
  | clauses => do
    let (turn, s) ← projection garbage env clauses s
    match turn with
    | .running => selection garbage env c.selection s
    | .returned => pure s

end

end Libdap.Source.Constraint
