import Libdap.Source.Lookup

/-!
# Projecting a variable by its name

`DDS::mark` marks the variable it finds, what is inside it, and what the search has pushed.
A search in exact mode passes some containers without pushing them, and one that fails
leaves behind what it has pushed.
-/
namespace Libdap.Guarantees.Marking
open Libdap.Source Libdap.Source.Escaping Libdap.Source.Lookup

variable {garbage : UInt8} {n : Text} {v w : BaseType} {vars : List BaseType}
variable {p q x : Path} {s : List Path} {flags : Flags} {i : Nat}

/-- The part of a variable at a path in it. -/
def descend : BaseType → Path → Option BaseType
  | v, [] => some v
  | v, i :: p => v.members[i]?.bind fun w => descend w p

def variableAt (vars : List BaseType) : Path → Option BaseType
  | [] => none
  | i :: p => vars[i]?.bind fun v => descend v p

theorem descend_append (v : BaseType) (p q : Path) :
    descend v (p ++ q) = (descend v p).bind fun w => descend w q := by
  induction p generalizing v with
  | nil => rfl
  | cons i p ih =>
    simp only [List.cons_append, descend, ih, Option.bind_assoc]

theorem variableAt_append (there : variableAt vars p = some v) (q : Path) :
    variableAt vars (p ++ q) = descend v q := by
  cases p with
  | nil => cases there
  | cons i p =>
    change vars[i]?.bind (descend · p) = some v at there
    change vars[i]?.bind (descend · (p ++ q)) = descend v q
    simp only [descend_append]
    rw [← Option.bind_assoc, there]
    rfl

/-- From `p` on, above `q`. -/
def Between (p q x : Path) : Prop := p <+: x ∧ x <+: q ∧ x ≠ q

/-- A variable that contains the one at `q`. -/
def Above (q x : Path) : Prop := x ≠ [] ∧ x <+: q ∧ x ≠ q

/-- What lies above `q` lies above a variable on the way to `q` or from it on. -/
theorem between_trans {m : Path} (first : p <+: m) (second : m <+: q) :
    Between p q x ↔ Between p m x ∨ Between m q x := by
  constructor
  · rintro ⟨below, above, other⟩
    rcases List.prefix_or_prefix_of_prefix above second with le | le
    · by_cases same : x = m
      · subst same
        exact .inr ⟨List.prefix_rfl, above, other⟩
      · exact .inl ⟨below, le, same⟩
    · exact .inr ⟨le, above, other⟩
  · rintro (⟨below, above, other⟩ | ⟨below, above, other⟩)
    · refine ⟨below, above.trans second, ?_⟩
      rintro rfl
      exact other (above.eq_of_length_le second.length_le)
    · exact ⟨first.trans below, above, other⟩

theorem between_disjoint {m : Path} (low : Between p m x) : ¬ Between m q x := by
  rintro ⟨below, _, _⟩
  exact low.2.2 (low.2.1.eq_of_length_le below.length_le)

theorem above_trans {m : Path} (some' : m ≠ []) (second : m <+: q) :
    Above q x ↔ Above m x ∨ Between m q x := by
  constructor
  · rintro ⟨nonempty, above, other⟩
    rcases List.prefix_or_prefix_of_prefix above second with le | le
    · by_cases same : x = m
      · subst same
        exact .inr ⟨List.prefix_rfl, above, other⟩
      · exact .inl ⟨nonempty, le, same⟩
    · exact .inr ⟨le, above, other⟩
  · rintro (⟨nonempty, above, other⟩ | ⟨below, above, other⟩)
    · refine ⟨nonempty, above.trans second, ?_⟩
      rintro rfl
      exact other (above.eq_of_length_le second.length_le)
    · refine ⟨?_, above, other⟩
      rintro rfl
      exact some' (List.prefix_nil.mp below)

/-- The variable right below `p`. -/
theorem between_member (p : Path) (i : Nat) : Between p (p ++ [i]) x ↔ x = p := by
  constructor
  · rintro ⟨below, above, other⟩
    rcases List.prefix_concat_iff.mp above with same | le
    · exact absurd same other
    · exact le.eq_of_length_le below.length_le
  · rintro rfl
    exact ⟨List.prefix_rfl, List.prefix_append .., by simp⟩

theorem above_singleton (i : Nat) (x : Path) : Above [i] x ↔ False := by
  rw [iff_false]
  rintro ⟨nonempty, above, other⟩
  rcases List.prefix_cons_iff.mp above with rfl | ⟨t, rfl, rest⟩
  · exact nonempty rfl
  · rw [List.prefix_nil] at rest
    exact other (by rw [rest])

/-! ### What `set_send_p` marks -/

theorem setSendP_eq (state : Bool) (flags : Flags) (p : Path) (v : BaseType) :
    setSendP state flags p v = setFlag state (setAllSendP state flags p 0 v.members) p := by
  cases v <;> rfl

/-- The variable itself, or a part of one of its members. -/
theorem inside_iff (v : BaseType) (p q : Path) :
    (∃ r, q = p ++ r ∧ (descend v r).isSome) ↔
      q = p ∨ ∃ j r, q = p ++ j :: r ∧ (v.members[j]?.bind (descend · r)).isSome := by
  constructor
  · rintro ⟨r, rfl, inside⟩
    cases r with
    | nil => exact .inl (List.append_nil p)
    | cons j r => exact .inr ⟨j, r, rfl, inside⟩
  · rintro (rfl | ⟨j, r, rfl, inside⟩)
    · exact ⟨[], (List.append_nil q).symm, rfl⟩
    · exact ⟨j :: r, rfl, inside⟩

theorem setAllSendP_true (vars : List BaseType) (flags : Flags) (p q : Path) (i : Nat)
    (each : ∀ v ∈ vars, ∀ flags p, setSendP true flags p v q = true ↔
      flags q = true ∨ ∃ r, q = p ++ r ∧ (descend v r).isSome) :
    setAllSendP true flags p i vars q = true ↔
      flags q = true ∨ ∃ j r, q = p ++ (i + j) :: r ∧ (vars[j]?.bind (descend · r)).isSome := by
  induction vars generalizing flags i with
  | nil => simp [setAllSendP]
  | cons v vars ih =>
    unfold setAllSendP
    rw [ih _ _ fun w mem => each w (List.mem_cons_of_mem v mem), each v List.mem_cons_self,
      or_assoc]
    apply or_congr_right
    constructor
    · rintro (⟨r, same, inside⟩ | ⟨j, r, same, inside⟩)
      · exact ⟨0, r, by simpa using same, inside⟩
      · refine ⟨j + 1, r, ?_, inside⟩
        rw [same, Nat.add_assoc, Nat.add_comm 1 j]
    · rintro ⟨j, r, same, inside⟩
      cases j with
      | zero => exact .inl ⟨r, by simpa using same, inside⟩
      | succ j =>
        refine .inr ⟨j, r, ?_, inside⟩
        rw [same, Nat.add_assoc, Nat.add_comm 1 j]

theorem setSendP_true (v : BaseType) (flags : Flags) (p q : Path) :
    setSendP true flags p v q = true ↔
      flags q = true ∨ ∃ r, q = p ++ r ∧ (descend v r).isSome := by
  induction v using BaseType.members_induction generalizing flags p with
  | step v ih =>
    rw [inside_iff, setSendP_eq]
    unfold setFlag
    by_cases here : q = p
    · simp [here]
    · rw [if_neg here, setAllSendP_true v.members flags p q 0 fun w mem flags p => ih w mem flags p]
      simp [here]

theorem foldl_setFlag (s : List Path) (flags : Flags) (q : Path) :
    s.foldl (setFlag true) flags q = true ↔ flags q = true ∨ q ∈ s := by
  induction s generalizing flags with
  | nil => simp
  | cons x s ih =>
    rw [List.foldl_cons, ih, List.mem_cons]
    unfold setFlag
    by_cases here : q = x
    · simp [here]
    · simp [here]

/-! ### What the searches push -/

theorem named_some {n : Text} (found : named n p vars = some (q, w)) :
    ∃ i, q = p ++ [i] ∧ vars[i]? = some w ∧ w.name = n := by
  unfold named at found
  obtain ⟨⟨v, i⟩, first, same⟩ := Option.map_eq_some_iff.mp found
  cases same
  have mem := List.mem_of_find?_eq_some first
  have name := List.find?_some first
  exact ⟨i, rfl, List.mk_mem_zipIdx_iff_getElem?.mp mem, by simpa using name⟩

/-- The search from `v` at `p` has found a part of `v` and pushed what lies between. -/
def Exact (v : BaseType) (p : Path) (q : Path) (w : BaseType) (s : List Path) : Prop :=
  (∃ r, q = p ++ r ∧ r ≠ [] ∧ descend v r = some w) ∧ ∀ x, x ∈ s ↔ Between p q x

theorem gridVar_exact {name : Text} {arrayVar : BaseType} {mapVars : List BaseType}
    (found : gridVar garbage n p (arrayVar :: mapVars) = (some (q, w), s)) :
    Exact (.grid name arrayVar mapVars) p q w s := by
  unfold gridVar at found
  split at found
  · rename_i r first
    cases found
    obtain ⟨i, rfl, there, _⟩ := named_some first
    refine ⟨⟨[i], rfl, by simp, ?_⟩, ?_⟩
    · simp [descend, BaseType.members, there]
    · intro x
      rw [between_member, List.mem_singleton]
  · cases found

theorem gridVar_missing {vars : List BaseType} (missing : gridVar garbage n p vars = (none, s)) :
    s = [] := by
  unfold gridVar at missing
  split at missing
  · cases missing
  · cases missing
    rfl

/-- A member has been found, or a part of one. -/
def Member (vars : List BaseType) (p : Path) (i : Nat) (q : Path) (w : BaseType) : Prop :=
  ∃ j r, q = p ++ (i + j) :: r ∧ vars[j]?.bind (descend · r) = some w

theorem Member.later (member : Member vars p (i + 1) q w) : Member (v :: vars) p i q w := by
  obtain ⟨j, r, same, inside⟩ := member
  refine ⟨j + 1, r, ?_, inside⟩
  rw [same, Nat.add_assoc, Nat.add_comm 1 j]

theorem Member.exact (member : Member v.members p 0 q w) (pushed : ∀ x, x ∈ s ↔ Between p q x) :
    Exact v p q w s := by
  obtain ⟨j, r, same, inside⟩ := member
  rw [Nat.zero_add] at same
  exact ⟨⟨j :: r, same, by simp, inside⟩, pushed⟩

/-- What has been pushed below a member, and the constructor itself. -/
theorem Exact.up (below : Exact v (p ++ [i]) q w s) :
    ∀ x, x ∈ s ++ [p] ↔ Between p q x := by
  intro x
  obtain ⟨⟨r, same, _, _⟩, pushed⟩ := below
  rw [between_trans (List.prefix_append p [i]) ⟨r, same.symm⟩, between_member, List.mem_append,
    pushed, List.mem_singleton, or_comm]

theorem Exact.member (below : Exact v (p ++ [i]) q w s) : Member (v :: vars) p i q w := by
  obtain ⟨⟨r, same, _, inside⟩, _⟩ := below
  exact ⟨0, r, by simpa using same, inside⟩

/-- A search that finds something as told, or else has pushed nothing. -/
def Clean (P : Path → BaseType → List Path → Prop) : Search → Prop
  | (some (q, w), s) => P q w s
  | (none, s) => s = []

theorem Clean.imp {P Q : Path → BaseType → List Path → Prop} {search : Search}
    (clean : Clean P search) (weaker : ∀ q w s, P q w s → Q q w s) : Clean Q search := by
  obtain ⟨found, s⟩ := search
  cases found with
  | none => exact clean
  | some r => exact weaker r.1 r.2 s clean

/-- Nothing is left behind by a search that fails before another one is made. -/
theorem Clean.skip {P Q : Path → BaseType → List Path → Prop} {s : List Path} {next : Search}
    (failed : Clean P (none, s)) (clean : Clean Q next) : Clean Q (next.1, s ++ next.2) := by
  have nothing : s = [] := failed
  subst nothing
  exact clean

/-- What a search in leaf mode of `v` does. -/
def LeafSearch (garbage : UInt8) (v : BaseType) : Prop :=
  ∀ n p, Clean (Exact v p) (leafVar garbage n v p)

def FromMember (vars : List BaseType) (p : Path) (i : Nat) (q : Path) (w : BaseType)
    (s : List Path) : Prop :=
  Member vars p i q w ∧ ∀ x, x ∈ s ↔ Between p q x

theorem FromMember.later (from' : FromMember vars p (i + 1) q w s) :
    FromMember (v :: vars) p i q w s :=
  ⟨from'.1.later, from'.2⟩

theorem leafMatch_search (each : ∀ v ∈ vars, LeafSearch garbage v) (n : Text) (p : Path)
    (i : Nat) : Clean (FromMember vars p i) (leafMatch garbage n p vars i) := by
  induction vars generalizing i with
  | nil => rfl
  | cons v vars ih =>
    have rest := (ih (fun w mem => each w (List.mem_cons_of_mem v mem)) (i + 1)).imp
      fun q w s => FromMember.later (v := v)
    unfold leafMatch
    split
    · refine ⟨⟨0, [], rfl, rfl⟩, ?_⟩
      intro x
      rw [between_member, List.mem_singleton]
    · split
      · have first := each v List.mem_cons_self n (p ++ [i])
        cases below : leafVar garbage n v (p ++ [i]) with
        | mk found s =>
          rw [below] at first
          cases found with
          | some r =>
            have exact' : Exact v (p ++ [i]) r.1 r.2 s := first
            exact ⟨exact'.member, exact'.up⟩
          | none => exact first.skip rest
      · exact rest

theorem leafVar_search (garbage : UInt8) (v : BaseType) : LeafSearch garbage v := by
  induction v using BaseType.members_induction with
  | step v ih =>
    intro n p
    cases v with
    | simple | vector => rfl
    | constructor kind name vars =>
      apply (leafMatch_search ih (www2id garbage n) p 0).imp
      intro q w s from'
      exact from'.1.exact from'.2
    | grid name arrayVar mapVars =>
      change Clean _ (gridVar garbage n p (arrayVar :: mapVars))
      cases search : gridVar garbage n p (arrayVar :: mapVars) with
      | mk found s =>
        cases found with
        | none => exact gridVar_missing search
        | some r => exact gridVar_exact search

def FromDataset (vars : List BaseType) (i : Nat) (q : Path) (w : BaseType) (s : List Path) :
    Prop :=
  Member vars [] i q w ∧ ∀ x, x ∈ s ↔ Above q x

theorem FromDataset.later (from' : FromDataset vars (i + 1) q w s) :
    FromDataset (v :: vars) i q w s :=
  ⟨from'.1.later, from'.2⟩

/-- `leaf_match` of the dataset pushes what contains the variable it finds. -/
theorem ddsLeafMatch_search (garbage : UInt8) (n : Text) (vars : List BaseType) (i : Nat) :
    Clean (FromDataset vars i) (ddsLeafMatch garbage n vars i) := by
  induction vars generalizing i with
  | nil => rfl
  | cons v vars ih =>
    have rest := (ih (i + 1)).imp fun q w s => FromDataset.later (v := v)
    unfold ddsLeafMatch
    split
    · refine ⟨⟨0, [], rfl, rfl⟩, ?_⟩
      intro x
      rw [above_singleton]
      simp
    · split
      · have first := leafVar_search garbage v n [i]
        cases below : leafVar garbage n v [i] with
        | mk found s =>
          rw [below] at first
          cases found with
          | some r =>
            have exact' : Exact v ([] ++ [i]) r.1 r.2 s := first
            refine ⟨exact'.member, ?_⟩
            intro x
            obtain ⟨⟨t, same, _, _⟩, pushed⟩ := exact'
            rw [above_trans (List.cons_ne_nil i []) ⟨t, same.symm⟩, above_singleton, false_or,
              pushed]
            rfl
          | none => exact first.skip rest
      · exact rest

/-! ### What the searches in exact mode leave out -/

/-- The paths strictly between. -/
def strictlyBetween (p q : Path) : List Path :=
  ((List.range q.length).filter (p.length < ·)).map q.take

theorem mem_strictlyBetween (below : p <+: q) :
    x ∈ strictlyBetween p q ↔ Between p q x ∧ x ≠ p := by
  unfold strictlyBetween
  rw [List.mem_map]
  constructor
  · rintro ⟨k, mem, rfl⟩
    rw [List.mem_filter, List.mem_range, decide_eq_true_eq] at mem
    have length : (q.take k).length = k := List.length_take_of_le (Nat.le_of_lt mem.1)
    refine ⟨⟨?_, List.take_prefix k q, ?_⟩, ?_⟩
    · exact List.prefix_of_prefix_length_le below (List.take_prefix k q) (by omega)
    · intro same
      rw [same] at length
      omega
    · intro same
      rw [same] at length
      omega
  · rintro ⟨⟨low, high, other⟩, strict⟩
    refine ⟨x.length, ?_, (List.prefix_iff_eq_take.mp high).symm⟩
    rw [List.mem_filter, List.mem_range, decide_eq_true_eq]
    have shorter : x.length ≠ q.length := fun same => other (high.eq_of_length same)
    have longer : p.length ≠ x.length := fun same => strict (low.eq_of_length same).symm
    have := high.length_le
    have := low.length_le
    omega

/-- What a search in exact mode passes without pushing it: a Vector of a simple type, which
gives its element whatever the name is, and what lies between a constructor and an aggregate
that it finds further below, as the name of the aggregate has another dot once it is decoded
again. -/
def passed (garbage : UInt8) (n : Text) : BaseType → Path → List Path
  | .simple _, _ => []
  | .vector _ var, p =>
    if var.isConstructorType then
      if www2id garbage n = [] ∨ var.name = www2id garbage n then []
      else passed garbage (www2id garbage n) var (p ++ [0])
    else [p]
  | .constructor kind name vars, p =>
    match named (www2id garbage n) p vars with
    | some _ => []
    | none =>
      match _split : splitFirst (www2id garbage n) with
      | none => []
      | some (aggregate, field) =>
        match (exactVar garbage aggregate (.constructor kind name vars) p).1 with
        | none => []
        | some (q, agg) => strictlyBetween p q ++ passed garbage field agg q
  | .grid .., _ => []
  termination_by v => (n.length, sizeOf v)
  decreasing_by
    · have shorter := www2id_length_le garbage n
      rcases Nat.lt_or_eq_of_le shorter with less | same
      · exact Prod.Lex.left _ _ less
      · rw [same]
        apply Prod.Lex.right
        simp
    · have shorter := splitFirst_length _split
      have decoded := www2id_length_le garbage n
      exact Prod.Lex.left _ _ (by omega)

/-- The search has found a part of `v`; what lies between has been pushed or passed. -/
structure Descent (v : BaseType) (p q : Path) (w : BaseType) (s missed : List Path) : Prop where
  part : ∃ r, q = p ++ r ∧ r ≠ [] ∧ descend v r = some w
  covered : ∀ x, x ∈ s ∨ x ∈ missed ↔ Between p q x
  apart : ∀ x ∈ s, x ∉ missed

theorem Exact.descent (exact' : Exact v p q w s) : Descent v p q w s [] :=
  ⟨exact'.1, by simpa using exact'.2, by simp⟩

theorem Descent.prefix' {missed : List Path} (down : Descent v p q w s missed) : p <+: q := by
  obtain ⟨r, same, _, _⟩ := down.part
  exact ⟨r, same.symm⟩

theorem between_element (p : Path) (i : Nat) (low : p ++ [i] <+: q) :
    Between p q x ↔ x = p ∨ Between (p ++ [i]) q x := by
  rw [between_trans (List.prefix_append p [i]) low, between_member]

theorem Descent.up {name : Text} {missed : List Path}
    (down : Descent v (p ++ [0]) q w s missed) :
    Descent (.vector name v) p q w (s ++ [p]) missed := by
  have below := down.prefix'
  obtain ⟨⟨r, same, _, inside⟩, covered, apart⟩ := down
  refine ⟨⟨0 :: r, ?_, by simp, ?_⟩, ?_, ?_⟩
  · rw [same, List.append_assoc]
    rfl
  · simpa [descend, BaseType.members] using inside
  · intro x
    rw [between_element p 0 below, ← covered, List.mem_append, List.mem_singleton,
      or_right_comm, or_comm]
  · intro x mem missing
    rcases List.mem_append.mp mem with mem | mem
    · exact apart x mem missing
    · have above := (covered x).mp (.inr missing)
      rw [List.mem_singleton.mp mem] at above
      have := above.1.length_le
      simp at this

/-- Down to an aggregate without a stack, and from there on. -/
theorem Descent.through {m : Path} {agg : BaseType} {s₁ s₂ missed₁ missed₂ : List Path}
    (first : Descent v p m agg s₁ missed₁) (second : Descent agg m q w s₂ missed₂) :
    Descent v p q w (p :: s₂) (strictlyBetween p m ++ missed₂) := by
  have low := first.prefix'
  have high := second.prefix'
  obtain ⟨⟨r₁, same₁, some₁, inside₁⟩, _, _⟩ := first
  obtain ⟨⟨r₂, same₂, some₂, inside₂⟩, covered, apart⟩ := second
  have start : Between p m p := by
    refine ⟨List.prefix_rfl, low, ?_⟩
    intro same
    rw [← same] at same₁
    exact some₁ (List.append_right_eq_self.mp same₁.symm)
  refine ⟨⟨r₁ ++ r₂, ?_, by simp [some₁], ?_⟩, ?_, ?_⟩
  · rw [same₂, same₁, List.append_assoc]
  · rw [descend_append, inside₁]
    exact inside₂
  · intro x
    rw [between_trans low high, ← covered, List.mem_cons, List.mem_append,
      mem_strictlyBetween low]
    by_cases here : x = p
    · simp [here, start]
    · simp only [here, false_or, ne_eq, not_false_eq_true, and_true]
      exact or_left_comm
  · intro x mem missing
    rcases List.mem_append.mp missing with missing | missing
    · obtain ⟨between, strict⟩ := (mem_strictlyBetween low).mp missing
      rcases List.mem_cons.mp mem with same | mem
      · exact strict same
      · exact between_disjoint between ((covered x).mp (.inl mem))
    · rcases List.mem_cons.mp mem with same | mem
      · rw [same] at missing
        exact between_disjoint start ((covered p).mp (.inr missing))
      · exact apart x mem missing

theorem exactVar_descent (garbage : UInt8) (n : Text) (v : BaseType) (p : Path) :
    ∀ q w s, exactVar garbage n v p = (some (q, w), s) →
      Descent v p q w s (passed garbage n v p) := by
  fun_induction exactVar garbage n v p
  all_goals intro q w s found
  all_goals unfold passed
  case case1 => cases found
  case case2 constructed taken =>
    cases found
    rw [if_pos constructed, if_pos taken]
    refine Exact.descent ⟨⟨[0], rfl, by simp, rfl⟩, ?_⟩
    intro x
    rw [between_member, List.mem_singleton]
  case case3 constructed other r s' below ih =>
    cases found
    rw [if_pos constructed, if_neg other]
    exact (ih q w s' below).up
  case case4 => cases found
  case case5 simple =>
    cases found
    rw [if_neg simple]
    refine ⟨⟨[0], rfl, by simp, rfl⟩, ?_, by simp⟩
    intro x
    rw [between_member]
    simp
  case case6 r first =>
    cases found
    obtain ⟨i, rfl, there, _⟩ := named_some first
    simp only [first]
    refine Exact.descent ⟨⟨[i], rfl, by simp, ?_⟩, ?_⟩
    · simp [descend, BaseType.members, there]
    · intro x
      rw [between_member, List.mem_singleton]
  case case7 => cases found
  case case8 => cases found
  case case9 nowhere aggregate field split m agg first r s' second ih₁ ih₂ =>
    cases found
    have down := (ih₁ m agg _ (Prod.ext first rfl)).through (ih₂ q w s' second)
    simp only [nowhere]
    split
    · rename_i undotted
      cases split.symm.trans undotted
    · rename_i same
      cases split.symm.trans same
      simpa only [first] using down
  case case10 => exact (gridVar_exact found).descent

/-- What the searches that failed on the way have left on the stack: those of `exact_match`
for an aggregate, or for a field in one. -/
def leftBehind (garbage : UInt8) (vars : List BaseType) (name : Text) : List Path :=
  match named name [] vars with
  | some _ => []
  | none =>
    match _split : splitFirst name with
    | none => []
    | some (aggregate, field) =>
      match ddsVar garbage vars aggregate with
      | (none, s) => s
      | (some (q, agg), s) =>
        match exactVar garbage field agg q with
        | (some _, _) => leftBehind garbage vars (www2id garbage aggregate)
        | (none, s') => s ++ s'
  termination_by name.length
  decreasing_by
    have shorter := splitFirst_length _split
    have decoded := www2id_length_le garbage aggregate
    omega

/-- What `exact_match` passes without pushing it. -/
def passedBy (garbage : UInt8) (vars : List BaseType) (name : Text) : List Path :=
  match named name [] vars with
  | some _ => []
  | none =>
    match _split : splitFirst name with
    | none => []
    | some (aggregate, field) =>
      match ddsVar garbage vars aggregate with
      | (none, _) => []
      | (some (q, agg), _) =>
        match exactVar garbage field agg q with
        | (some _, _) =>
          passedBy garbage vars (www2id garbage aggregate) ++ passed garbage field agg q
        | (none, _) => []
  termination_by name.length
  decreasing_by
    have shorter := splitFirst_length _split
    have decoded := www2id_length_le garbage aggregate
    omega

/-- What has been found in the dataset and pushed. -/
structure Found (vars : List BaseType) (q : Path) (w : BaseType) (s missed left : List Path) :
    Prop where
  there : variableAt vars q = some w
  covered : ∀ x, x ∈ s ∨ x ∈ missed ↔ Above q x ∨ x ∈ left
  apart : ∀ x ∈ s, x ∈ missed → x ∈ left
  left_pushed : ∀ x ∈ left, x ∈ s

theorem Member.there (member : Member vars [] 0 q w) : variableAt vars q = some w := by
  obtain ⟨j, r, same, inside⟩ := member
  rw [same, Nat.zero_add]
  exact inside

/-- From an aggregate on, which has been found before. -/
theorem Found.through {m : Path} {agg : BaseType} {s₁ s₂ missed₁ missed₂ left : List Path}
    (first : Found vars m agg s₁ missed₁ left) (second : Descent agg m q w s₂ missed₂) :
    Found vars q w (s₁ ++ s₂) (missed₁ ++ missed₂) left := by
  have high := second.prefix'
  have nonempty : m ≠ [] := by
    rintro rfl
    cases first.there
  obtain ⟨⟨r, same, _, inside⟩, covered, apart⟩ := second
  refine ⟨?_, ?_, ?_, ?_⟩
  · rw [same, variableAt_append first.there]
    exact inside
  · intro x
    rw [above_trans nonempty high, List.mem_append, List.mem_append, or_or_or_comm,
      first.covered, covered, or_right_comm]
  · intro x mem missing
    have beyond : Between m q x → ¬ Above m x := by
      rintro below ⟨_, above, other⟩
      exact other (above.eq_of_length_le below.1.length_le)
    rw [List.mem_append] at mem missing
    rcases mem with old | new
    · rcases missing with missedOld | missedNew
      · exact first.apart x old missedOld
      · have below := (covered x).mp (.inr missedNew)
        exact ((first.covered x).mp (.inl old)).resolve_left (beyond below)
    · rcases missing with missedOld | missedNew
      · have below := (covered x).mp (.inl new)
        exact ((first.covered x).mp (.inr missedOld)).resolve_left (beyond below)
      · exact absurd missedNew (apart x new)
  · intro x mem
    exact List.mem_append_left s₂ (first.left_pushed x mem)

theorem leftBehind_eq (garbage : UInt8) (vars : List BaseType) (name : Text) :
    leftBehind garbage vars name =
      match named name [] vars with
      | some _ => []
      | none =>
        match splitFirst name with
        | none => []
        | some (aggregate, field) =>
          match ddsVar garbage vars aggregate with
          | (none, s) => s
          | (some (q, agg), s) =>
            match exactVar garbage field agg q with
            | (some _, _) => leftBehind garbage vars (www2id garbage aggregate)
            | (none, s') => s ++ s' := by
  rw [leftBehind]
  split
  · rfl
  · split <;> simp_all

theorem passedBy_eq (garbage : UInt8) (vars : List BaseType) (name : Text) :
    passedBy garbage vars name =
      match named name [] vars with
      | some _ => []
      | none =>
        match splitFirst name with
        | none => []
        | some (aggregate, field) =>
          match ddsVar garbage vars aggregate with
          | (none, _) => []
          | (some (q, agg), _) =>
            match exactVar garbage field agg q with
            | (some _, _) =>
              passedBy garbage vars (www2id garbage aggregate) ++ passed garbage field agg q
            | (none, _) => [] := by
  rw [passedBy]
  split
  · rfl
  · split <;> simp_all

theorem exactMatch_failed {name : Text} (missing : ddsExactMatch garbage vars name = (none, s)) :
    leftBehind garbage vars name = s ∧ passedBy garbage vars name = [] := by
  rw [ddsExactMatch_eq] at missing
  rw [leftBehind_eq, passedBy_eq]
  cases direct : named name [] vars with
  | some r =>
    simp only [direct] at missing
    cases missing
  | none =>
    cases split : splitFirst name with
    | none =>
      simp only [direct, split] at missing ⊢
      cases missing
      exact ⟨rfl, trivial⟩
    | some parts =>
      obtain ⟨aggregate, field⟩ := parts
      cases first : ddsVar garbage vars aggregate with
      | mk found s₁ =>
        simp only [direct, split, first] at missing ⊢
        cases found with
        | none =>
          cases missing
          exact ⟨rfl, rfl⟩
        | some r =>
          cases second : exactVar garbage field r.2 r.1 with
          | mk found' s₂ =>
            simp only [second] at missing ⊢
            cases missing
            exact ⟨rfl, rfl⟩

/-- What `exact_match` finds for the decoded name. -/
def ExactFound (garbage : UInt8) (vars : List BaseType) (name : Text) : Prop :=
  ∀ q w s, ddsExactMatch garbage vars name = (some (q, w), s) →
    Found vars q w s (passedBy garbage vars name) (leftBehind garbage vars name)

/-- `leaf_match` comes after what `exact_match` has left behind. -/
theorem ddsVar_found_of (exact' : ExactFound garbage vars (www2id garbage n))
    (found : ddsVar garbage vars n = (some (q, w), s)) :
    Found vars q w s (passedBy garbage vars (www2id garbage n))
      (leftBehind garbage vars (www2id garbage n)) := by
  rw [ddsVar] at found
  cases first : ddsExactMatch garbage vars (www2id garbage n) with
  | mk r s₁ =>
    cases r with
    | some r =>
      simp only [first] at found
      cases found
      exact exact' q w s first
    | none =>
      obtain ⟨left, missed⟩ := exactMatch_failed first
      have leaf := ddsLeafMatch_search garbage (www2id garbage n) vars 0
      cases second : ddsLeafMatch garbage (www2id garbage n) vars 0 with
      | mk r' s₂ =>
        simp only [first, second] at found
        cases found
        rw [second] at leaf
        obtain ⟨member, pushed⟩ : FromDataset vars 0 q w s₂ := leaf
        rw [left, missed]
        refine ⟨member.there, ?_, by simp, ?_⟩
        · intro x
          rw [List.mem_append, pushed]
          simp [or_comm]
        · intro x mem
          exact List.mem_append_left s₂ mem

theorem exactMatch_found (garbage : UInt8) (vars : List BaseType) (name : Text) :
    ExactFound garbage vars name := by
  induction length : name.length using Nat.strong_induction_on generalizing name with
  | h k ih =>
    intro q w s found
    rw [ddsExactMatch_eq] at found
    rw [leftBehind_eq, passedBy_eq]
    cases direct : named name [] vars with
    | some r =>
      simp only [direct] at found ⊢
      cases found
      obtain ⟨i, rfl, there, _⟩ := named_some direct
      refine ⟨?_, ?_, by simp, by simp⟩
      · simp [variableAt, there, descend]
      · intro x
        rw [List.nil_append, above_singleton]
        simp
    | none =>
      cases split : splitFirst name with
      | none =>
        simp only [direct, split] at found
        cases found
      | some parts =>
        obtain ⟨aggregate, field⟩ := parts
        have shorter := (splitFirst_length split).1
        have decoded := www2id_length_le garbage aggregate
        cases first : ddsVar garbage vars aggregate with
        | mk r s₁ =>
          cases r with
          | none =>
            simp only [direct, split, first] at found
            cases found
          | some r =>
            cases second : exactVar garbage field r.2 r.1 with
            | mk r' s₂ =>
              simp only [direct, split, first, second] at found ⊢
              cases found
              have above := ddsVar_found_of (ih _ (by omega) (www2id garbage aggregate) rfl) first
              exact above.through (exactVar_descent garbage field r.2 r.1 q w s₂ second)

theorem ddsVar_found (found : ddsVar garbage vars n = (some (q, w), s)) :
    Found vars q w s (passedBy garbage vars (www2id garbage n))
      (leftBehind garbage vars (www2id garbage n)) :=
  ddsVar_found_of (exactMatch_found garbage vars _) found

/-- `mark` of a name marks the variable that `var` finds for it, what is inside it and what
contains it, and nothing else; without such a variable it does nothing. -/
def MarksOnly (garbage : UInt8) (vars : List BaseType) (flags : Flags) (n : Text) : Prop :=
  match (ddsVar garbage vars n).1 with
  | none => mark garbage vars flags n true = (false, flags)
  | some (p, _) => (mark garbage vars flags n true).1 = true ∧
    ∀ q, (mark garbage vars flags n true).2 q = true ↔
      flags q = true ∨ (p <+: q ∧ (variableAt vars q).isSome) ∨ Above p q

/-- Whatever is passed has a mark or a place on the stack from a failed search, and a failed
search leaves nothing on the stack that has no mark and neither contains the variable nor
lies in it. -/
def Recorded (garbage : UInt8) (vars : List BaseType) (flags : Flags) (n : Text) : Prop :=
  ∀ p v, (ddsVar garbage vars n).1 = some (p, v) →
    (∀ q ∈ passedBy garbage vars (www2id garbage n),
      flags q = true ∨ q ∈ leftBehind garbage vars (www2id garbage n)) ∧
    ∀ q ∈ leftBehind garbage vars (www2id garbage n),
      flags q = true ∨ (p <+: q ∧ (variableAt vars q).isSome) ∨ Above p q

theorem mark_true (flags : Flags) (found : ddsVar garbage vars n = (some (p, v), s)) (q : Path)
    (there : variableAt vars p = some v) :
    (mark garbage vars flags n true).2 q = true ↔
      flags q = true ∨ (p <+: q ∧ (variableAt vars q).isSome) ∨ q ∈ s := by
  unfold mark
  simp only [found]
  rw [foldl_setFlag, setSendP_true, List.mem_reverse, or_assoc]
  apply or_congr_right
  apply or_congr_left
  constructor
  · rintro ⟨r, rfl, inside⟩
    rw [variableAt_append there]
    exact ⟨List.prefix_append p r, inside⟩
  · rintro ⟨⟨r, rfl⟩, inside⟩
    rw [variableAt_append there] at inside
    exact ⟨r, rfl, inside⟩

theorem above_not_inside (above : Above p q) : ¬ (p <+: q ∧ (variableAt vars q).isSome) := by
  rintro ⟨below, _⟩
  exact above.2.2 (above.2.1.eq_of_length_le below.length_le)

/-- For every name and every marking there is before. -/
theorem marksOnly_iff (garbage : UInt8) (vars : List BaseType) (flags : Flags) (n : Text) :
    MarksOnly garbage vars flags n ↔ Recorded garbage vars flags n := by
  unfold MarksOnly Recorded
  cases search : ddsVar garbage vars n with
  | mk found s =>
    cases found with
    | none =>
      have nothing : mark garbage vars flags n true = (false, flags) := by
        unfold mark
        simp only [search]
      exact iff_of_true nothing (by simp)
    | some r =>
      obtain ⟨p, v⟩ := r
      obtain ⟨there, covered, apart, pushed⟩ := ddsVar_found search
      have returned : (mark garbage vars flags n true).1 = true := by
        unfold mark
        simp only [search]
      have marked := fun q => mark_true flags search q there
      constructor
      · rintro ⟨_, only⟩ p' v' same
        cases same
        constructor
        · intro q missing
          rcases (covered q).mp (.inr missing) with above | left
          · rcases (marked q).mp ((only q).mpr (.inr (.inr above))) with set | inside | mem
            · exact .inl set
            · exact absurd inside (above_not_inside above)
            · exact .inr (apart q mem missing)
          · exact .inr left
        · intro q left
          exact (only q).mp ((marked q).mpr (.inr (.inr (pushed q left))))
      · intro recorded
        obtain ⟨noted, kept⟩ := recorded p v rfl
        refine ⟨returned, ?_⟩
        intro q
        rw [marked]
        constructor
        · rintro (set | inside | mem)
          · exact .inl set
          · exact .inr (.inl inside)
          · rcases (covered q).mp (.inl mem) with above | left
            · exact .inr (.inr above)
            · exact kept q left
        · rintro (set | inside | above)
          · exact .inl set
          · exact .inr (.inl inside)
          · rcases (covered q).mpr (.inl above) with mem | missing
            · exact .inr (.inr mem)
            · rcases noted q missing with set | left
              · exact .inl set
              · exact .inr (.inr (pushed q left))

/-- The element of an Array of a simple type comes back for the name of no member, and the
Array has no mark. -/
theorem marksOnly_fails : ¬ MarksOnly 0 [.vector [97] (.simple [97])] (fun _ => false)
    [97, 46, 120] := by
  have search : ddsVar 0 [.vector [97] (.simple [97])] [97, 46, 120] =
      (some ([0, 0], .simple [97]), []) := by
    have name : www2id 0 [97, 46, 120] = [97, 46, 120] := by decide
    have aggregate : www2id 0 [97] = [97] := by decide
    have top : ddsVar 0 [.vector [97] (.simple [97])] [97] =
        (some ([0], .vector [97] (.simple [97])), []) := by
      rw [ddsVar, aggregate, ddsExactMatch_eq]
      rfl
    have split : splitFirst [97, 46, 120] = some ([97], [120]) := by decide
    have nowhere : named [97, 46, 120] [] [.vector [97] (.simple [97])] = none := rfl
    rw [ddsVar, name, ddsExactMatch_eq]
    simp only [nowhere, split, top]
    rw [exactVar]
    rfl
  rintro only
  unfold MarksOnly at only
  rw [search] at only
  have unmarked := (only.2 [0]).mpr (.inr (.inr ⟨by simp, by simp, by simp⟩))
  unfold mark at unmarked
  rw [search] at unmarked
  exact absurd unmarked (by decide)

end Libdap.Guarantees.Marking
