import Libdap.Library.Outcome
import Libdap.Source.Constraint
import Libdap.Guarantees.ConstraintClauses
import Libdap.Guarantees.Marking
import Libdap.Guarantees.VariableNames

/-!
# Names longer than a buffer

A name goes through buffers of `ID_MAX` bytes, and each cuts off what does not fit. The rest
may denote another variable.
-/
namespace Libdap.Guarantees.LongNames
open Libdap.Library Libdap.Source Libdap.Source.Array Libdap.Source.Escaping
open Libdap.Source.Lookup Libdap.Source.Hyperslab Libdap.Source.Words Libdap.Source.Constraint
open Libdap.Guarantees.Marking Libdap.Guarantees.VariableNames
open Libdap.Guarantees.ConstraintClauses (noFunctions)

variable {garbage : UInt8} {env : Environment} {vars : List BaseType} {s s' : State}
variable {n n' : Text} {token : Name} {path : ArrayClause}

/-- The variable a name denotes. -/
def denoted (garbage : UInt8) (vars : List BaseType) (n : Text) : Option (Path × BaseType) :=
  (ddsVar garbage vars n).1

/-- A variable by its name, or by parts of its name with hyperslabs. -/
inductive Subject where
  | name (token : Name)
  | path (path : ArrayClause)

def Subject.constraint : Subject → ConstraintExpr
  | .name token => { projection := [.name token], selection := [] }
  | .path path => { projection := [.arrayProjection path], selection := [] }

/-! ### Names in full -/

/-- The name in full. -/
def whole (garbage : UInt8) : Name → Text
  | .word yytext => www2id garbage yytext
  | .str t => www2id garbage t

/-- The names with a hyperslab, and the name of the variable. -/
def inFull (garbage : UInt8) : ArrayClause → List Text × Text
  | .indices n _ => ([whole garbage n], whole garbage n)
  | .field c n => ((inFull garbage c).1, (inFull garbage c).2 ++ whole garbage n)
  | .fieldIndices c n _ => ((inFull garbage c).1 ++ [(inFull garbage c).2 ++ whole garbage n],
      (inFull garbage c).2 ++ whole garbage n)

def Subject.inFull (garbage : UInt8) : Subject → List Text × Text
  | .name token => ([], whole garbage token)
  | .path path => LongNames.inFull garbage path

/-! ### Names as the buffers leave them -/

/-- The names with their hyperslabs, and the name that is marked. -/
def lookedUp (garbage : UInt8) : ArrayClause → Except Failure (List (Text × List Index) × Text)
  | .indices n indices => do
    let n ← name garbage n
    let indices ← arrayIndices indices
    pure ([(n, indices)], cut n)
  | .field c n => do
    let (hyperslabs, before) ← lookedUp garbage c
    let n ← name garbage n
    pure (hyperslabs, cut (before ++ n))
  | .fieldIndices c n indices => do
    let (hyperslabs, before) ← lookedUp garbage c
    let n ← name garbage n
    let indices ← arrayIndices indices
    pure (hyperslabs ++ [(before ++ n, indices)], cut (before ++ n))

def Subject.lookedUp (garbage : UInt8) : Subject → Except Failure (List (Text × List Index) × Text)
  | .name token => do
    let n ← Constraint.name garbage token
    pure ([], n)
  | .path path => LongNames.lookedUp garbage path

/-- What two buffers leave of a token: the one of the scanner, and the one it is decoded in. -/
def decoded (garbage : UInt8) : Name → Text
  | .word yytext => cut (www2id garbage (storeId yytext))
  | .str t => cut (www2id garbage t)

/-- What the buffers leave of the names of a path, as `inFull` has them. -/
def remaining (garbage : UInt8) : ArrayClause → List Text × Text
  | .indices n _ => ([decoded garbage n], cut (decoded garbage n))
  | .field c n => ((remaining garbage c).1, cut ((remaining garbage c).2 ++ decoded garbage n))
  | .fieldIndices c n _ =>
    ((remaining garbage c).1 ++ [(remaining garbage c).2 ++ decoded garbage n],
      cut ((remaining garbage c).2 ++ decoded garbage n))

def Subject.remaining (garbage : UInt8) : Subject → List Text × Text
  | .name token => ([], decoded garbage token)
  | .path path => LongNames.remaining garbage path

def constrainAll (garbage : UInt8) (hyperslabs : List (Text × List Index)) (s : State) :
    Except Failure State :=
  hyperslabs.foldlM (fun s (n, indices) => bracket garbage n indices s) s

theorem cut_short {t : Text} (short : t.length < idMax) : cut t = t := by
  apply List.take_of_length_le
  unfold idMax at *
  omega

theorem name_ok (named : name garbage token = .ok n) : n = decoded garbage token := by
  cases token with
  | word yytext =>
    cases named
    rfl
  | str t =>
    simp only [name] at named
    split at named
    · cases named
    · cases named
      rfl

/-- The names that are looked up are what the buffers leave. -/
theorem lookedUp_remaining {subject : Subject} {hyperslabs : List (Text × List Index)}
    (looked : subject.lookedUp garbage = .ok (hyperslabs, n)) :
    (hyperslabs.map Prod.fst, n) = subject.remaining garbage := by
  cases subject with
  | name token =>
    obtain ⟨m, named, rest⟩ := bind_success looked
    cases rest
    rw [name_ok named]
    rfl
  | path path =>
    change lookedUp garbage path = _ at looked
    change _ = remaining garbage path
    induction path generalizing hyperslabs n with
    | indices token indices =>
      obtain ⟨m, named, looked⟩ := bind_success looked
      obtain ⟨list, _, looked⟩ := bind_success looked
      cases looked
      rw [name_ok named]
      rfl
    | field c token ih =>
      obtain ⟨⟨more, before⟩, first, looked⟩ := bind_success looked
      obtain ⟨m, named, looked⟩ := bind_success looked
      cases looked
      unfold remaining
      rw [← ih first, name_ok named]
    | fieldIndices c token indices ih =>
      obtain ⟨⟨more, before⟩, first, looked⟩ := bind_success looked
      obtain ⟨m, named, looked⟩ := bind_success looked
      obtain ⟨list, _, looked⟩ := bind_success looked
      cases looked
      unfold remaining
      rw [← ih first, name_ok named, List.map_append]
      rfl

/-- The length of a token. -/
def length : Name → Nat
  | .word yytext => yytext.length
  | .str t => t.length

theorem whole_length (garbage : UInt8) (token : Name) :
    (whole garbage token).length ≤ length token := by
  cases token with
  | word yytext => exact www2id_length_le garbage yytext
  | str t => exact www2id_length_le garbage t

/-- A token that fits is decoded as it is. -/
theorem name_short (short : length token < idMax) (named : name garbage token = .ok n) :
    n = whole garbage token := by
  have inside := whole_length garbage token
  rw [name_ok named]
  cases token with
  | word yytext =>
    have fits : yytext.length < idMax := short
    change cut (www2id garbage (cut yytext)) = www2id garbage yytext
    rw [cut_short fits]
    exact cut_short (inside.trans_lt short)
  | str t => exact cut_short (inside.trans_lt short)

/-- The length of all tokens of a path. -/
def pathLength : ArrayClause → Nat
  | .indices n _ => length n
  | .field c n => pathLength c + length n
  | .fieldIndices c n _ => pathLength c + length n

theorem inFull_length (garbage : UInt8) (path : ArrayClause) :
    (inFull garbage path).2.length ≤ pathLength path := by
  induction path with
  | indices n _ => exact whole_length garbage n
  | field c n ih | fieldIndices c n _ ih =>
    have part := whole_length garbage n
    unfold inFull pathLength
    rw [List.length_append]
    omega

/-- A path that fits is looked up as it is. -/
theorem lookedUp_short {hyperslabs : List (Text × List Index)}
    (short : pathLength path < idMax) (looked : lookedUp garbage path = .ok (hyperslabs, n)) :
    (hyperslabs.map Prod.fst, n) = inFull garbage path := by
  have fits := inFull_length garbage path
  induction path generalizing hyperslabs n with
  | indices token indices =>
    obtain ⟨m, named, looked⟩ := bind_success looked
    obtain ⟨list, _, looked⟩ := bind_success looked
    cases looked
    have same := name_short short named
    subst same
    have fits' : (whole garbage token).length < idMax := fits.trans_lt short
    unfold inFull
    rw [cut_short fits']
    rfl
  | field c token ih =>
    obtain ⟨⟨more, before⟩, first, looked⟩ := bind_success looked
    obtain ⟨m, named, looked⟩ := bind_success looked
    cases looked
    unfold pathLength at short
    have same := name_short (by omega) named
    subst same
    have earlier := ih (by omega) first (inFull_length garbage c)
    unfold inFull at fits ⊢
    rw [← earlier] at fits ⊢
    rw [cut_short (fits.trans_lt short)]
  | fieldIndices c token indices ih =>
    obtain ⟨⟨more, before⟩, first, looked⟩ := bind_success looked
    obtain ⟨m, named, looked⟩ := bind_success looked
    obtain ⟨list, _, looked⟩ := bind_success looked
    cases looked
    unfold pathLength at short
    have same := name_short (by omega) named
    subst same
    have earlier := ih (by omega) first (inFull_length garbage c)
    unfold inFull at fits ⊢
    rw [← earlier] at fits ⊢
    rw [cut_short (fits.trans_lt short), List.map_append]
    rfl

/-! ### What the parser does -/

theorem bracket_found {list : List Index} (done : bracket garbage n list s = .ok s') :
    (denoted garbage s.vars n).isSome ∧ s'.vars = s.vars := by
  obtain ⟨result, first, rest⟩ := bind_success done
  cases result with
  | none => cases rest
  | some projection =>
    cases rest
    refine ⟨?_, rfl⟩
    unfold bracketProjection at first
    unfold denoted
    split at first
    · cases first
    all_goals simp_all

/-- The hyperslabs of the names that are looked up. -/
theorem arrayProjClause_ok (done : arrayProjClause garbage path s = .ok (n, s')) :
    ∃ hyperslabs, lookedUp garbage path = .ok (hyperslabs, n) ∧
      constrainAll garbage hyperslabs s = .ok s' := by
  induction path generalizing n s' with
  | indices token indices =>
    obtain ⟨m, named, done⟩ := bind_success done
    obtain ⟨list, read, done⟩ := bind_success done
    obtain ⟨s₁, bracketed, done⟩ := bind_success done
    cases done
    refine ⟨[(m, list)], ?_, ?_⟩
    · unfold lookedUp
      rw [named, read]
      rfl
    · change (bracket garbage m list s >>= _) = _
      rw [bracketed]
      rfl
  | field c token ih =>
    obtain ⟨⟨before, s₁⟩, first, done⟩ := bind_success done
    obtain ⟨m, named, done⟩ := bind_success done
    cases done
    obtain ⟨hyperslabs, looked, constrained⟩ := ih first
    refine ⟨hyperslabs, ?_, constrained⟩
    unfold lookedUp
    rw [looked, named]
    rfl
  | fieldIndices c token indices ih =>
    obtain ⟨⟨before, s₁⟩, first, done⟩ := bind_success done
    obtain ⟨m, named, done⟩ := bind_success done
    obtain ⟨list, read, done⟩ := bind_success done
    obtain ⟨s₂, bracketed, done⟩ := bind_success done
    cases done
    obtain ⟨hyperslabs, looked, constrained⟩ := ih first
    refine ⟨hyperslabs ++ [(before ++ m, list)], ?_, ?_⟩
    · unfold lookedUp
      rw [looked, named, read]
      rfl
    · unfold constrainAll at constrained ⊢
      rw [List.foldlM_append, constrained]
      change (bracket garbage (before ++ m) list s₁ >>= _) = _
      rw [bracketed]
      rfl

theorem constrainAll_vars {hyperslabs : List (Text × List Index)}
    (done : constrainAll garbage hyperslabs s = .ok s') : s'.vars = s.vars := by
  apply foldlM_keeps (P := fun s s' => s'.vars = s.vars) (fun _ => rfl) _ done
  intro s hyperslab s₁ s₂ bracketed kept
  exact kept.trans (bracket_found bracketed).2

/-- The names are found and the hyperslabs accepted, up to the mark of the last name. -/
def Accepted (garbage : UInt8) (subject : Subject) (s s₁ : State) : Prop :=
  ∃ hyperslabs n, subject.lookedUp garbage = .ok (hyperslabs, n) ∧
    constrainAll garbage hyperslabs s = .ok s₁ ∧
    ∀ token, subject = .name token → (ddsVar garbage s.vars n).1.isSome

/-- The names that are looked up are constrained, and the last one is marked. -/
theorem parseConstraint_subject {subject : Subject}
    (parsed : parseConstraint garbage env subject.constraint s = .ok s') :
    ∃ hyperslabs n s₁, subject.lookedUp garbage = .ok (hyperslabs, n) ∧
      constrainAll garbage hyperslabs s = .ok s₁ ∧
      (∀ token, subject = .name token → (ddsVar garbage s.vars n).1.isSome) ∧
      s' = markName garbage n s₁ := by
  cases subject with
  | name token =>
    obtain ⟨⟨turn, s₁⟩, through, ended⟩ := bind_success parsed
    obtain ⟨⟨turn', s₂⟩, first, last⟩ := bind_success through
    obtain ⟨n, named, rest⟩ := bind_success first
    split at rest
    · rename_i found
      cases rest
      cases last
      cases ended
      refine ⟨[], n, s, ?_, rfl, fun _ _ => found, rfl⟩
      change (name garbage token >>= fun n => pure ([], n)) = _
      rw [named]
      rfl
    · cases rest
  | path path =>
    obtain ⟨⟨turn, s₁⟩, through, ended⟩ := bind_success parsed
    obtain ⟨⟨turn', s₂⟩, first, last⟩ := bind_success through
    obtain ⟨⟨n, s₃⟩, clause, rest⟩ := bind_success first
    cases rest
    cases last
    cases ended
    obtain ⟨hyperslabs, looked, constrained⟩ := arrayProjClause_ok clause
    refine ⟨hyperslabs, n, s₃, looked, constrained, ?_, rfl⟩
    intro token same
    cases same

theorem constrainAll_one {list : List Index} (done : constrainAll garbage [(n, list)] s = .ok s') :
    bracket garbage n list s = .ok s' := by
  obtain ⟨s₁, bracketed, rest⟩ := bind_success done
  cases rest
  exact bracketed

theorem constrainAll_append {first second : List (Text × List Index)}
    (done : constrainAll garbage (first ++ second) s = .ok s') :
    ∃ s₁, constrainAll garbage first s = .ok s₁ ∧ constrainAll garbage second s₁ = .ok s' := by
  unfold constrainAll at done
  rw [List.foldlM_append] at done
  exact bind_success done

theorem arrayProjClause_of {hyperslabs : List (Text × List Index)}
    (looked : lookedUp garbage path = .ok (hyperslabs, n))
    (constrained : constrainAll garbage hyperslabs s = .ok s') :
    arrayProjClause garbage path s = .ok (n, s') := by
  induction path generalizing hyperslabs n s' with
  | indices token indices =>
    obtain ⟨m, named, looked⟩ := bind_success looked
    obtain ⟨list, read, looked⟩ := bind_success looked
    cases looked
    unfold arrayProjClause
    rw [named]
    change (arrayIndices indices >>= _) = _
    rw [read]
    change (bracket garbage m list s >>= _) = _
    rw [constrainAll_one constrained]
    rfl
  | field c token ih =>
    obtain ⟨⟨more, before⟩, first, looked⟩ := bind_success looked
    obtain ⟨m, named, looked⟩ := bind_success looked
    cases looked
    unfold arrayProjClause
    rw [ih first constrained]
    change (name garbage token >>= _) = _
    rw [named]
    rfl
  | fieldIndices c token indices ih =>
    obtain ⟨⟨more, before⟩, first, looked⟩ := bind_success looked
    obtain ⟨m, named, looked⟩ := bind_success looked
    obtain ⟨list, read, looked⟩ := bind_success looked
    cases looked
    obtain ⟨s₁, earlier, last⟩ := constrainAll_append constrained
    unfold arrayProjClause
    rw [ih first earlier]
    change (name garbage token >>= _) = _
    rw [named]
    change (arrayIndices indices >>= _) = _
    rw [read]
    change (bracket garbage (before ++ m) list s₁ >>= _) = _
    rw [constrainAll_one last]
    rfl

/-- What is accepted is parsed. -/
theorem parseConstraint_accepted {subject : Subject} {hyperslabs : List (Text × List Index)}
    {s₁ : State} (looked : subject.lookedUp garbage = .ok (hyperslabs, n))
    (constrained : constrainAll garbage hyperslabs s = .ok s₁)
    (found : ∀ token, subject = .name token → (ddsVar garbage s.vars n).1.isSome) :
    parseConstraint garbage env subject.constraint s = .ok (markName garbage n s₁) := by
  cases subject with
  | name token =>
    obtain ⟨m, named, rest⟩ := bind_success looked
    cases rest
    cases constrained
    have clause : projClause garbage env (.name token) s =
        .ok (.running, markName garbage n s) := by
      simp only [projClause, named]
      exact if_pos (found token rfl)
    unfold Subject.constraint parseConstraint projection
    simp only [clause]
    rfl
  | path path =>
    have clause : projClause garbage env (.arrayProjection path) s =
        .ok (.running, markName garbage n s₁) := by
      simp only [projClause, arrayProjClause_of looked constrained]
      rfl
    unfold Subject.constraint parseConstraint projection
    simp only [clause]
    rfl

/-! ### The variable of the name in full -/

/-- Every name that is looked up denotes the variable it denotes in full. -/
def SameVariables (garbage : UInt8) (vars : List BaseType) (subject : Subject)
    (hyperslabs : List (Text × List Index)) (n : Text) : Prop :=
  hyperslabs.map (fun (n, _) => denoted garbage vars n) =
    (subject.inFull garbage).1.map (denoted garbage vars) ∧
  denoted garbage vars n = denoted garbage vars (subject.inFull garbage).2

/-- What is constrained and marked, if nothing is raised, are the variables of the names in
full. The last one gets a mark with its contents and with all that contains it, and nothing
else does. -/
def NeverMistaken (garbage : UInt8) (env : Environment) (subject : Subject) (s : State) : Prop :=
  ∀ p v, denoted garbage s.vars (subject.inFull garbage).2 = some (p, v) →
    ∀ s', parseConstraint garbage env subject.constraint s = .ok s' →
      ∃ hyperslabs n s₁, subject.lookedUp garbage = .ok (hyperslabs, n) ∧
        constrainAll garbage hyperslabs s = .ok s₁ ∧ s' = markName garbage n s₁ ∧
        SameVariables garbage s.vars subject hyperslabs n ∧
        ∀ q, s'.projection.sendP q = true ↔ s₁.projection.sendP q = true ∨
          (p <+: q ∧ (variableAt s.vars q).isSome) ∨ Above p q

def Subject.length : Subject → Nat
  | .name token => LongNames.length token
  | .path path => pathLength path

/-- What is left of a name is all of it, or is found where all of it is found. -/
def Kept (garbage : UInt8) (vars : List BaseType) (rest all : Text) : Prop :=
  rest = all ∨ (ddsVar garbage vars rest).1 = (ddsVar garbage vars all).1

/-- The tokens fit in a buffer, or what the buffers leave of each name is found where the name
is. If the hyperslabs are accepted, those that `var` passes without pushing them have a mark,
and it leaves nothing else behind. -/
def Unmistakable (garbage : UInt8) (subject : Subject) (s : State) : Prop :=
  (ddsVar garbage s.vars (subject.inFull garbage).2).1.isSome →
    ∀ s₁, Accepted garbage subject s s₁ →
      (subject.length < idMax ∨
        List.Forall₂ (Kept garbage s.vars) (subject.remaining garbage).1
          (subject.inFull garbage).1 ∧
        Kept garbage s.vars (subject.remaining garbage).2 (subject.inFull garbage).2) ∧
      Recorded garbage s.vars s₁.projection.sendP (subject.remaining garbage).2

theorem remaining_short {subject : Subject} {hyperslabs : List (Text × List Index)}
    (short : subject.length < idMax) (looked : subject.lookedUp garbage = .ok (hyperslabs, n)) :
    (hyperslabs.map Prod.fst, n) = subject.inFull garbage := by
  cases subject with
  | name token =>
    obtain ⟨m, named, rest⟩ := bind_success looked
    cases rest
    rw [name_short short named]
    rfl
  | path path => exact lookedUp_short short looked

theorem sameVariables_iff {subject : Subject} {hyperslabs : List (Text × List Index)}
    (looked : subject.lookedUp garbage = .ok (hyperslabs, n)) :
    SameVariables garbage vars subject hyperslabs n ↔
      List.Forall₂ (Kept garbage vars) (subject.remaining garbage).1 (subject.inFull garbage).1 ∧
        Kept garbage vars (subject.remaining garbage).2 (subject.inFull garbage).2 := by
  have kept : Kept garbage vars =
      fun rest all => denoted garbage vars rest = denoted garbage vars all := by
    funext rest all
    apply propext
    constructor
    · rintro (rfl | same)
      · rfl
      · exact same
    · exact .inr
  rw [← lookedUp_remaining looked, kept]
  have each : (fun (h : Text × List Index) => denoted garbage vars h.1) =
      denoted garbage vars ∘ Prod.fst := rfl
  unfold SameVariables
  rw [each, ← List.map_map, ← List.forall₂_eq_eq_eq, List.forall₂_map_left_iff,
    List.forall₂_map_right_iff]

theorem sameVariables_short {subject : Subject} {hyperslabs : List (Text × List Index)}
    (short : subject.length < idMax) (looked : subject.lookedUp garbage = .ok (hyperslabs, n)) :
    SameVariables garbage vars subject hyperslabs n := by
  unfold SameVariables
  rw [← remaining_short short looked, List.map_map]
  exact ⟨rfl, rfl⟩

/-- The last name is marked as `Recorded` says. -/
theorem markName_only {v : BaseType} {s₁ : State} (kept : s₁.vars = vars)
    (found : denoted garbage vars n = some (p, v)) :
    (∀ q, (markName garbage n s₁).projection.sendP q = true ↔ s₁.projection.sendP q = true ∨
      (p <+: q ∧ (variableAt vars q).isSome) ∨ Above p q) ↔
      Recorded garbage vars s₁.projection.sendP n := by
  rw [← marksOnly_iff]
  unfold MarksOnly
  have search : (ddsVar garbage vars n).1 = some (p, v) := found
  rw [search]
  have returned : (mark garbage vars s₁.projection.sendP n true).1 = true := by
    unfold mark
    rw [show ddsVar garbage vars n = (some (p, v), (ddsVar garbage vars n).2) from
      Prod.ext search rfl]
  have marked : (markName garbage n s₁).projection.sendP =
      (mark garbage vars s₁.projection.sendP n true).2 := by
    rw [← kept]
    rfl
  rw [marked]
  exact ⟨fun only => ⟨returned, only⟩, fun only => only.2⟩

/-- Two variables, one with a letter more than a buffer takes. -/
def longName : Text := List.replicate 256 97

def cutName : Text := List.replicate 255 97

def longAndCut : List BaseType := [.simple longName, .simple cutName]

theorem longName_plain : percent ∉ longName ∧ percent ∉ cutName := by
  unfold longName cutName
  rw [List.mem_replicate, List.mem_replicate]
  decide

theorem longName_cut : name 0 (.word longName) = .ok cutName := by
  have stored : storeId longName = cutName := List.take_replicate
  have fits : cutName.length < idMax := by
    unfold cutName idMax
    rw [List.length_replicate]
    omega
  change Except.ok (cut (www2id 0 (storeId longName))) = _
  rw [stored, www2id_plain 0 longName_plain.2, cut_short fits]

theorem longName_ne : longName ≠ cutName := by
  intro same
  have lengths := congrArg List.length same
  unfold longName cutName at lengths
  rw [List.length_replicate, List.length_replicate] at lengths
  cases lengths

theorem longName_denoted : denoted 0 longAndCut longName = some ([0], .simple longName) := by
  have first : named longName [] longAndCut = some ([0], .simple longName) := by
    simp [named, longAndCut, BaseType.name]
  unfold denoted
  rw [ddsVar_named (www2id_plain 0 longName_plain.1) first]

theorem cutName_denoted : denoted 0 longAndCut cutName = some ([1], .simple cutName) := by
  have second : named cutName [] longAndCut = some ([1], .simple cutName) := by
    simp [named, longAndCut, BaseType.name, longName_ne]
  unfold denoted
  rw [ddsVar_named (www2id_plain 0 longName_plain.2) second]

def nothingMarked : State :=
  { vars := longAndCut, projection := ⟨fun _ => false, fun _ => fresh, fun _ => none⟩,
    inSelection := fun _ => false, clauses := [], counter := 1 }

end Libdap.Guarantees.LongNames
