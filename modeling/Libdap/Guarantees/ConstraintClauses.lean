import Libdap.Library.Outcome
import Libdap.Source.Constraint
import Libdap.Guarantees.VariableNames

/-!
# Every clause of a constraint takes effect

Each action but one leaves the parser running. A constant array as a projection returns from
it, and the clauses after it are dropped.
-/
namespace Libdap.Guarantees.ConstraintClauses
open Libdap.Library Libdap.Source Libdap.Source.Escaping Libdap.Source.Lookup
open Libdap.Source.Constraint Libdap.Source.Words Libdap.Guarantees.VariableNames
open Libdap.Guarantees.Marking

variable {garbage : UInt8} {env : Environment} {s s' : State} {turn : Turn}

/-! ### The name of a constant array -/

theorem names_self (v : BaseType) : v.name ∈ names v := by
  cases v <;> simp [names, BaseType.name]

theorem names_of_mem {vars : List BaseType} {v : BaseType} {n : Text} (mem : v ∈ vars)
    (inside : n ∈ names v) : n ∈ datasetNames vars := by
  induction vars with
  | nil => cases mem
  | cons w vars ih =>
    unfold datasetNames
    rcases List.mem_cons.mp mem with rfl | mem
    · exact List.mem_append_left _ inside
    · exact List.mem_append_right _ (ih mem)

theorem names_member {v w : BaseType} {n : Text} (mem : w ∈ v.members) (inside : n ∈ names w) :
    n ∈ names v := by
  cases v with
  | simple => cases mem
  | vector name var =>
    cases List.mem_singleton.mp mem
    exact List.mem_cons_of_mem name inside
  | constructor kind name vars => exact List.mem_cons_of_mem name (names_of_mem mem inside)
  | grid name arrayVar mapVars =>
    apply List.mem_cons_of_mem name
    rcases List.mem_cons.mp mem with rfl | mem
    · exact List.mem_append_left _ inside
    · exact List.mem_append_right _ (names_of_mem mem inside)

theorem Along.name_mem {v w : BaseType} {as : List Text} {p : Path} (along : Along v as p w) :
    ∀ n ∈ as, n ∈ names v := by
  induction along with
  | @member v w i constructed there =>
    intro n mem
    cases List.mem_singleton.mp mem
    exact names_member (List.mem_of_getElem? there) (names_self w)
  | @down v w u i as p constructed there rest ih =>
    intro n mem
    apply names_member (List.mem_of_getElem? there)
    rcases List.mem_cons.mp mem with rfl | mem
    · exact names_self w
    · exact ih n mem

theorem found_listed {vars : List BaseType} {n : Text} (plain : percent ∉ n) (undotted : dot ∉ n)
    (found : (ddsVar garbage vars n).1.isSome) : n ∈ datasetNames vars := by
  obtain ⟨⟨q, w⟩, search⟩ := Option.isSome_iff_exists.mp found
  obtain ⟨i, v, there, named⟩ :=
    ddsVar_undotted plain undotted (Prod.ext search rfl : ddsVar garbage vars n = (_, _))
  apply names_of_mem (List.mem_of_getElem? there)
  rcases named with ⟨_, _, rfl⟩ | ⟨as, r, _, along⟩
  · exact names_self v
  · exact Along.name_mem along n (by simp)

theorem decimal_digit {n : Nat} {c : UInt8} (mem : c ∈ decimal n) :
    ∃ d < 10, c = (48 + d).toUInt8 := by
  unfold decimal at mem
  obtain ⟨d, listed, rfl⟩ := List.mem_map.mp mem
  exact ⟨d, Nat.digits_lt_base (by omega) (List.mem_reverse.mp listed), rfl⟩

theorem digit_plain : ∀ d < 10, (48 + d).toUInt8 ≠ percent ∧ (48 + d).toUInt8 ≠ dot := by decide

theorem digit_read : ∀ d < 10, (48 + d).toUInt8.toNat - 48 = d := by decide

/-- The digits tell the number. -/
theorem decimal_read (n : Nat) :
    Nat.ofDigits 10 ((decimal n).map fun c => c.toNat - 48).reverse = n := by
  have digits : (decimal n).map (fun c => c.toNat - 48) = (Nat.digits 10 n).reverse := by
    unfold decimal
    rw [List.map_map]
    nth_rewrite 2 [← List.map_id (Nat.digits 10 n).reverse]
    apply List.map_congr_left
    intro d mem
    exact digit_read d (Nat.digits_lt_base (by omega) (List.mem_reverse.mp mem))
  rw [digits, List.reverse_reverse, Nat.ofDigits_digits]

theorem constantName_injective : Function.Injective fun n => 103 :: decimal n := by
  intro m n same
  have digits : decimal m = decimal n := List.tail_eq_of_cons_eq same
  rw [← decimal_read m, digits, decimal_read]

theorem constantName_listed {vars : List BaseType} {n : Nat}
    (found : (ddsVar garbage vars (103 :: decimal n)).1.isSome) :
    103 :: decimal n ∈ datasetNames vars := by
  have plain : ∀ c ∈ 103 :: decimal n, c ≠ percent ∧ c ≠ dot := by
    intro c mem
    rcases List.mem_cons.mp mem with rfl | mem
    · decide
    · obtain ⟨d, low, rfl⟩ := decimal_digit mem
      exact digit_plain d low
  apply found_listed _ _ found
  · exact fun mem => (plain _ mem).1 rfl
  · exact fun mem => (plain _ mem).2 rfl

/-- Among more numbers than there are names, one makes no name of the dataset. -/
theorem exists_unused (garbage : UInt8) (vars : List BaseType) (fuel counter : Nat)
    (enough : (datasetNames vars).length < fuel) :
    ∃ k < fuel, (ddsVar garbage vars (103 :: decimal (counter + k))).1.isSome = false := by
  by_contra none
  have used : ∀ k < fuel, 103 :: decimal (counter + k) ∈ datasetNames vars := by
    intro k low
    apply @constantName_listed garbage
    by_contra unused
    exact none ⟨k, low, by simpa using unused⟩
  have card : (Finset.range fuel).card ≤ (datasetNames vars).toFinset.card := by
    apply Finset.card_le_card_of_injOn fun k => 103 :: decimal (counter + k)
    · intro k mem
      exact List.mem_toFinset.mpr (used k (Finset.mem_range.mp mem))
    · intro k _ l _ same
      exact Nat.add_left_cancel (constantName_injective same)
  have size := List.toFinset_card_le (datasetNames vars)
  rw [Finset.card_range] at card
  omega

theorem freshName_found {vars : List BaseType} {fuel counter k : Nat} (low : k < fuel)
    (unused : (ddsVar garbage vars (103 :: decimal (counter + k))).1.isSome = false) :
    ∃ r, freshName garbage vars fuel counter = .ok r := by
  induction fuel generalizing counter k with
  | zero => omega
  | succ fuel ih =>
    unfold freshName
    split
    · rename_i here
      cases k with
      | zero =>
        rw [Nat.add_zero, here] at unused
        cases unused
      | succ k =>
        apply ih (k := k) (by omega)
        rw [Nat.add_assoc, Nat.add_comm 1 k]
        exact unused
    · exact ⟨_, rfl⟩

/-- The loop of `build_constant_array` ends. -/
theorem freshName_total (garbage : UInt8) (vars : List BaseType) (counter : Nat) :
    ∃ r, freshName garbage vars ((datasetNames vars).length + 1) counter = .ok r := by
  obtain ⟨k, low, unused⟩ := exists_unused garbage vars ((datasetNames vars).length + 1) counter
    (Nat.lt_succ_self _)
  exact freshName_found low unused

/-! ### The parser goes on -/

theorem projClause_turn {c : ProjClause} (done : projClause garbage env c s = .ok (turn, s')) :
    turn = .returned ↔ ∃ form, c = .constantArray form := by
  cases c with
  | name n =>
    unfold projClause at done
    obtain ⟨_, _, rest⟩ := bind_success done
    split at rest
    · cases rest
      simp
    · cases rest
  | function yytext args =>
    obtain ⟨_, _, rest⟩ := bind_success done
    cases rest
    simp
  | arrayProjection c =>
    obtain ⟨⟨_, _⟩, _, rest⟩ := bind_success done
    cases rest
    simp
  | constantArray form =>
    obtain ⟨⟨value, _⟩, _, rest⟩ := bind_success done
    cases value with
    | array =>
      cases rest
      simp
    | _ => cases rest

/-- What the action of a clause does to the state. -/
def effect (garbage : UInt8) (env : Environment) (s : State) (c : ProjClause) :
    Except Failure State :=
  (projClause garbage env c s).map Prod.snd

/-- The effect of every projection clause once, left to right. -/
def effects (garbage : UInt8) (env : Environment) (clauses : List ProjClause) (s : State) :
    Except Failure State :=
  clauses.foldlM (effect garbage env) s

/-- Not the special form. -/
def Ordinary (c : ProjClause) : Prop := ∀ form, c ≠ .constantArray form

theorem projection_cons (c : ProjClause) (cs : List ProjClause) (s : State) :
    projection garbage env (c :: cs) s = (projClause garbage env c s >>= fun
      | (.running, s) => projection garbage env cs s
      | (.returned, s) => pure (.returned, s)) := by
  rw [projection]
  congr 1
  funext ⟨turn, s⟩
  cases turn <;> rfl

/-- Up to the first special form the parser applies one effect after the other. -/
theorem projection_append {before : List ProjClause} (ordinary : ∀ c ∈ before, Ordinary c)
    (after : List ProjClause) (s : State) :
    projection garbage env (before ++ after) s =
      (effects garbage env before s >>= projection garbage env after) := by
  induction before generalizing s with
  | nil => rfl
  | cons c cs ih =>
    rw [List.cons_append, projection_cons]
    unfold effects
    rw [List.foldlM_cons]
    unfold effect
    cases first : projClause garbage env c s with
    | error e => rfl
    | ok r =>
      obtain ⟨turn, s₁⟩ := r
      have running : turn = .running := by
        cases turn with
        | running => rfl
        | returned =>
          obtain ⟨form, same⟩ := (projClause_turn first).mp rfl
          exact absurd same (ordinary c List.mem_cons_self form)
      subst running
      exact ih (fun c mem => ordinary c (List.mem_cons_of_mem _ mem)) s₁

/-- Without a special form the parser applies all effects. -/
theorem projection_ordinary {clauses : List ProjClause} (ordinary : ∀ c ∈ clauses, Ordinary c)
    (s : State) : projection garbage env clauses s =
      (effects garbage env clauses s >>= fun s' => .ok (.running, s')) := by
  nth_rewrite 1 [← List.append_nil clauses]
  exact projection_append ordinary [] s

/-- At the first special form it returns. -/
theorem projection_special {before : List ProjClause} (ordinary : ∀ c ∈ before, Ordinary c)
    (form : ConstantForm) (after : List ProjClause) (s : State) :
    projection garbage env (before ++ .constantArray form :: after) s =
      (effects garbage env (before ++ [.constantArray form]) s >>= fun s' =>
        .ok (.returned, s')) := by
  rw [projection_append ordinary]
  unfold effects
  rw [List.foldlM_append, bind_assoc]
  congr 1
  funext s₁
  rw [projection_cons, List.foldlM_cons]
  unfold effect
  cases first : projClause garbage env (.constantArray form) s₁ with
  | error e => rfl
  | ok r =>
    obtain ⟨turn, s₂⟩ := r
    cases (projClause_turn first).mpr ⟨form, rfl⟩
    rfl

/-- Clauses without the special form, or up to the first. -/
theorem first_special (clauses : List ProjClause) :
    (∀ c ∈ clauses, Ordinary c) ∨ ∃ before form after,
      clauses = before ++ .constantArray form :: after ∧ ∀ c ∈ before, Ordinary c := by
  induction clauses with
  | nil => exact .inl (by simp)
  | cons c cs ih =>
    by_cases special : ∃ form, c = .constantArray form
    · obtain ⟨form, rfl⟩ := special
      exact .inr ⟨[], form, cs, rfl, by simp⟩
    · have here : Ordinary c := fun form same => special ⟨form, same⟩
      rcases ih with all | ⟨before, form, after, rfl, all⟩
      · exact .inl (List.forall_mem_cons.mpr ⟨here, all⟩)
      · exact .inr ⟨c :: before, form, after, rfl, List.forall_mem_cons.mpr ⟨here, all⟩⟩

/-! ### The selection -/

theorem constantArray_clauses {form : ConstantForm} {value : Value}
    (done : constantArray garbage form s = .ok (value, s')) : s'.clauses = s.clauses := by
  unfold constantArray at done
  split at done
  · cases done
  · split at done
    · cases done
    · obtain ⟨⟨_, _⟩, _, rest⟩ := bind_success done
      cases rest
      rfl

theorem bracket_clauses {n : Text} {indices : List Hyperslab.Index}
    (done : bracket garbage n indices s = .ok s') : s'.clauses = s.clauses := by
  obtain ⟨result, _, rest⟩ := bind_success done
  cases result with
  | none => cases rest
  | some projection =>
    cases rest
    rfl

mutual

/-- To read a value appends no clause. -/
theorem rValue_clauses (tree : RValueTree) {r : RValue} {s s' : State}
    (done : rValue garbage env s tree = .ok (r, s')) : s'.clauses = s.clauses := by
  cases tree with
  | word yytext =>
    unfold rValue at done
    split at done <;> cases done <;> rfl
  | str t =>
    unfold rValue at done
    split at done
    · cases done
    · split at done <;> cases done <;> rfl
  | function yytext args =>
    unfold rValue at done
    obtain ⟨⟨_, _⟩, first, rest⟩ := bind_success done
    have kept := rValueList_clauses args first
    simp only at rest
    split at rest
    · cases rest
      exact kept
    · cases rest
  | constantArray form =>
    unfold rValue at done
    obtain ⟨⟨_, _⟩, first, rest⟩ := bind_success done
    cases rest
    exact constantArray_clauses first
  | arrayProjection n indices =>
    unfold rValue at done
    obtain ⟨_, _, done⟩ := bind_success done
    obtain ⟨_, _, done⟩ := bind_success done
    obtain ⟨s₁, third, done⟩ := bind_success done
    simp only at done
    split at done
    · cases done
      have kept := bracket_clauses third
      exact kept
    · cases done

theorem rValueList_clauses (trees : List RValueTree) {args : List RValue} {s s' : State}
    (done : rValueList garbage env s trees = .ok (args, s')) : s'.clauses = s.clauses := by
  cases trees with
  | nil =>
    cases done
    rfl
  | cons tree trees =>
    unfold rValueList at done
    obtain ⟨⟨_, s₁⟩, first, done⟩ := bind_success done
    obtain ⟨⟨_, _⟩, second, done⟩ := bind_success done
    cases done
    exact (rValueList_clauses trees second).trans (rValue_clauses tree first)

end

theorem rValueList_length {trees : List RValueTree} {args : List RValue}
    (done : rValueList garbage env s trees = .ok (args, s')) : args.length = trees.length := by
  induction trees generalizing s s' args with
  | nil =>
    cases done
    rfl
  | cons tree trees ih =>
    unfold rValueList at done
    obtain ⟨⟨_, s₁⟩, _, done⟩ := bind_success done
    obtain ⟨⟨_, _⟩, second, done⟩ := bind_success done
    cases done
    rw [List.length_cons, List.length_cons, ih second]

/-- The clause of the evaluator for a clause of the selection. -/
def Records : SelClause → Clause → Prop
  | .list _ op right, .relational op' _ args => op' = op ∧ args.length = right.length
  | .relation _ op _, .relational op' _ args => op' = op ∧ args.length = 1
  | .function yytext args, .boolean func args' =>
    func = storeId yytext ∧ args'.length = args.length
  | _, _ => False

theorem clause_records {c : SelClause} (done : clause garbage env s c = .ok s') :
    ∃ new, s'.clauses = s.clauses ++ [new] ∧ Records c new := by
  cases c with
  | list left op right =>
    obtain ⟨⟨arg1, s₁⟩, first, done⟩ := bind_success done
    obtain ⟨⟨args, s₂⟩, second, done⟩ := bind_success done
    cases done
    refine ⟨.relational op arg1 args, ?_, rfl, rValueList_length second⟩
    exact congrArg (· ++ _) ((rValueList_clauses right second).trans (rValue_clauses left first))
  | relation left op right =>
    obtain ⟨⟨arg1, s₁⟩, first, done⟩ := bind_success done
    obtain ⟨⟨arg, s₂⟩, second, done⟩ := bind_success done
    cases done
    refine ⟨.relational op arg1 [arg], ?_, rfl, rfl⟩
    exact congrArg (· ++ _) ((rValue_clauses right second).trans (rValue_clauses left first))
  | function yytext args =>
    obtain ⟨⟨args', s₁⟩, first, done⟩ := bind_success done
    simp only at done
    split at done
    · cases done
      refine ⟨.boolean (storeId yytext) args', ?_, rfl, rValueList_length first⟩
      exact congrArg (· ++ _) (rValueList_clauses args first)
    · cases done

/-- The list of clauses grows by one for each clause of the selection. -/
theorem selection_records {clauses : List SelClause}
    (done : selection garbage env clauses s = .ok s') :
    ∃ new, s'.clauses = s.clauses ++ new ∧ List.Forall₂ Records clauses new := by
  unfold selection at done
  induction clauses generalizing s with
  | nil =>
    cases done
    exact ⟨[], (List.append_nil _).symm, .nil⟩
  | cons c cs ih =>
    obtain ⟨s₁, first, rest⟩ := bind_success done
    obtain ⟨new, one, records⟩ := clause_records first
    obtain ⟨more, all, recorded⟩ := ih rest
    refine ⟨new :: more, ?_, .cons records recorded⟩
    rw [all, one, List.append_assoc]
    rfl

/-! ### Every clause -/

/-- The state after the projection, if every clause of it takes effect. -/
def applied (garbage : UInt8) (env : Environment) (c : ConstraintExpr) (s : State) :
    Except Failure State :=
  match c.projection with
  | [] => .ok (markDataset s)
  | clauses => effects garbage env clauses s

/-- If the parser does not raise an exception, the state is that of all effects in order, and
the list of clauses ends with one for each clause of the selection. -/
def TakesEffect (garbage : UInt8) (env : Environment) (c : ConstraintExpr) (s : State) : Prop :=
  ∀ s', parseConstraint garbage env c s = .ok s' →
    ∃ s₁, applied garbage env c s = .ok s₁ ∧ selection garbage env c.selection s₁ = .ok s' ∧
      ∃ new, s'.clauses = s₁.clauses ++ new ∧ List.Forall₂ Records c.selection new

/-- No clause follows the first special form of the projection, unless all that follow change
nothing. -/
def DropsNothing (garbage : UInt8) (env : Environment) (c : ConstraintExpr) (s : State) : Prop :=
  ∀ before form after, c.projection = before ++ .constantArray form :: after →
    (∀ c ∈ before, Ordinary c) →
    ∀ s', effects garbage env (before ++ [.constantArray form]) s = .ok s' →
      (effects garbage env after s' >>= selection garbage env c.selection) = .ok s'

/-- With nothing after the first special form, nothing is dropped. -/
theorem dropsNothing_of_last {c : ConstraintExpr}
    (last : ∀ before form after, c.projection = before ++ .constantArray form :: after →
      (∀ c ∈ before, Ordinary c) → after = [] ∧ c.selection = []) :
    DropsNothing garbage env c s := by
  intro before form after same ordinary s' _
  obtain ⟨rfl, none⟩ := last before form after same ordinary
  rw [none]
  rfl

theorem parseConstraint_nonempty {clauses : List ProjClause} (nonempty : clauses ≠ [])
    (sel : List SelClause) (s : State) :
    parseConstraint garbage env ⟨clauses, sel⟩ s = (projection garbage env clauses s >>= fun
      | (.running, s) => selection garbage env sel s
      | (.returned, s) => pure s) := by
  unfold parseConstraint
  split
  · rename_i none
    exact absurd none nonempty
  · congr 1
    funext ⟨turn, s⟩
    cases turn <;> rfl

theorem applied_nonempty {clauses : List ProjClause} (nonempty : clauses ≠ [])
    (sel : List SelClause) (s : State) :
    applied garbage env ⟨clauses, sel⟩ s = effects garbage env clauses s := by
  unfold applied
  split
  · rename_i none
    exact absurd none nonempty
  · rfl

theorem effects_append (before after : List ProjClause) (s : State) :
    effects garbage env (before ++ after) s =
      (effects garbage env before s >>= effects garbage env after) :=
  List.foldlM_append

/-- The parser returns with the state after the first special form. -/
theorem parseConstraint_special {before : List ProjClause} (ordinary : ∀ c ∈ before, Ordinary c)
    (form : ConstantForm) (after : List ProjClause) (sel : List SelClause) (s : State) :
    parseConstraint garbage env ⟨before ++ .constantArray form :: after, sel⟩ s =
      effects garbage env (before ++ [.constantArray form]) s := by
  rw [parseConstraint_nonempty (by simp), projection_special ordinary]
  cases effects garbage env (before ++ [.constantArray form]) s <;> rfl

/-- Whatever takes effect is followed by one clause for each clause of the selection. -/
theorem takesEffect_of_all {c : ConstraintExpr}
    (all : ∀ s', parseConstraint garbage env c s = .ok s' →
      ∃ s₁, applied garbage env c s = .ok s₁ ∧ selection garbage env c.selection s₁ = .ok s') :
    TakesEffect garbage env c s := by
  intro s' parsed
  obtain ⟨s₁, first, second⟩ := all s' parsed
  exact ⟨s₁, first, second, selection_records second⟩

/-- All clauses take effect exactly if nothing that would change the state stands behind the first
special form. -/
theorem takesEffect_iff (garbage : UInt8) (env : Environment) (c : ConstraintExpr) (s : State) :
    TakesEffect garbage env c s ↔ DropsNothing garbage env c s := by
  obtain ⟨clauses, sel⟩ := c
  have split (before after : List ProjClause) (form : ConstantForm) :
      before ++ .constantArray form :: after = (before ++ [.constantArray form]) ++ after := by
    simp
  constructor
  · intro takes before form after same ordinary s' done
    change clauses = _ at same
    subst same
    have parsed := (parseConstraint_special ordinary form after sel s).trans done
    obtain ⟨s₁, all, selected, _⟩ := takes s' parsed
    rw [applied_nonempty (by simp), split, effects_append, done] at all
    change (effects garbage env after s' >>= _) = _
    change effects garbage env after s' = _ at all
    rw [all]
    exact selected
  · intro drops
    apply takesEffect_of_all
    intro s' parsed
    rcases first_special clauses with ordinary | ⟨before, form, after, rfl, ordinary⟩
    · by_cases none : clauses = []
      · subst none
        exact ⟨markDataset s, rfl, parsed⟩
      · rw [parseConstraint_nonempty none, projection_ordinary ordinary, bind_assoc] at parsed
        obtain ⟨s₁, first, rest⟩ := bind_success parsed
        exact ⟨s₁, (applied_nonempty none sel s).trans first, rest⟩
    · rw [parseConstraint_special ordinary] at parsed
      obtain ⟨s₁, first, second⟩ := bind_success (drops before form after rfl ordinary s' parsed)
      refine ⟨s₁, ?_, second⟩
      rw [applied_nonempty (by simp), split, effects_append, parsed]
      exact first

/-- A dataset with one variable, before any constraint. -/
def untouched : State where
  vars := [.simple [120]]
  projection := { sendP := fun _ => false, dims := fun _ => Array.fresh, rows := fun _ => none }
  inSelection := fun _ => false
  clauses := []
  counter := 1

/-- No functions. -/
def noFunctions : Environment where
  boolFunc := fun _ => false
  btpFunc := fun _ => none
  projFunc := fun _ => none
  checkFloat64 := fun _ => false

/-- `$Byte(1:7)&x=1`. -/
def selectedAfterSpecial : ConstraintExpr where
  projection := [.constantArray { kind := .byte, hint := [49], values := [[55]] }]
  selection := [.relation (.word [120]) (.comparison .equal) (.word [49])]

theorem takesEffect_fails : ¬ TakesEffect 0 noFunctions selectedAfterSpecial untouched := by
  intro takes
  obtain ⟨⟨name, counter⟩, fresh⟩ := freshName_total 0 untouched.vars untouched.counter
  have array : constantArray 0 { kind := .byte, hint := [49], values := [[55]] } untouched =
      .ok (.array name .byte [[55]], { untouched with counter }) := by
    have number : checkInt32 (storeId [49]) = true := by decide
    have positive : ¬ atoi (storeId [49]) < 0 := by decide
    unfold constantArray
    simp only [number, positive, fresh, Bool.not_true, Bool.false_eq_true, if_false]
    rfl
  have parsed : parseConstraint 0 noFunctions selectedAfterSpecial untouched =
      .ok (addArray name [[55]] { untouched with counter }) := by
    unfold parseConstraint selectedAfterSpecial projection projClause
    simp only [array]
    rfl
  obtain ⟨s₁, _, _, new, appended, records⟩ := takes _ parsed
  have one : new.length = 1 := records.length_eq.symm
  have none : [] = s₁.clauses ++ new := appended
  rw [(List.append_eq_nil_iff.mp none.symm).2] at one
  cases one

end Libdap.Guarantees.ConstraintClauses
