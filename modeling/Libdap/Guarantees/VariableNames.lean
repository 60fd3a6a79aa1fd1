import Libdap.Guarantees.Marking

/-!
# Finding a variable by its path

Every class decodes the name it is asked for once more, a Vector of a simple type gives its
element for every name, and a Grid does not look below its members.
-/
namespace Libdap.Guarantees.VariableNames
open Libdap.Source Libdap.Source.Escaping Libdap.Source.Lookup Libdap.Guarantees.Marking

variable {garbage : UInt8} {n : Text} {v w : BaseType} {vars : List BaseType}
variable {p q : Path} {as : List Text} {s : List Path} {i : Nat}

/-! ### Escapes -/

theorem www2id_plain (garbage : UInt8) {n : Text} (plain : percent ∉ n) : www2id garbage n = n := by
  induction n with
  | nil => rfl
  | cons c rest ih =>
    rw [List.mem_cons, not_or] at plain
    rw [www2id_cons (Ne.symm plain.1), ih plain.2]

theorem hexDigit_read : ∀ d < 16, digitValue (hexDigit d) = some d ∧
    isSpace (hexDigit d) = false ∧ hexDigit d ≠ 43 ∧ hexDigit d ≠ 45 := by
  decide

theorem unhexstring_hexstring (garbage c : UInt8) : unhexstring garbage (hexstring c) = c := by
  have small : c.toNat < 256 := c.toNat_lt
  obtain ⟨high, visible, noPlus, noMinus⟩ := hexDigit_read (c.toNat / 16) (by omega)
  obtain ⟨low, _⟩ := hexDigit_read (c.toNat % 16) (by omega)
  have value : 16 * (c.toNat / 16) + c.toNat % 16 = c.toNat := Nat.div_add_mod _ _
  simp [unhexstring, hexstring, visible, noPlus, noMinus, hexValue, high,
    low, value]

theorem www2id_escaped {c : UInt8} (nonzero : c ≠ 0) (garbage : UInt8) (rest : Text) :
    www2id garbage (percent :: hexstring c ++ rest) = c :: www2id garbage rest := by
  have byte := unhexstring_hexstring garbage c
  unfold hexstring at byte ⊢
  rw [List.cons_append, List.cons_append, List.cons_append, www2id_escape, byte, if_neg nonzero]
  rfl

theorem www2id_id2www_append {n : Text} (nonzero : 0 ∉ n) (garbage : UInt8) (rest : Text) :
    www2id garbage (id2www n ++ rest) = n ++ www2id garbage rest := by
  induction n with
  | nil => rfl
  | cons c n ih =>
    rw [List.mem_cons, not_or] at nonzero
    unfold id2www at ih ⊢
    rw [List.flatMap_cons, List.append_assoc]
    split
    · rename_i fine
      have other : c ≠ percent := by
        rintro rfl
        exact absurd fine (by decide)
      rw [List.singleton_append, www2id_cons other, ih nonzero.2]
      rfl
    · rw [www2id_escaped (Ne.symm nonzero.1), ih nonzero.2]
      rfl

theorem www2id_id2www {n : Text} (nonzero : 0 ∉ n) (garbage : UInt8) :
    www2id garbage (id2www n) = n := by
  have whole := www2id_id2www_append nonzero garbage []
  rw [List.append_nil] at whole
  rw [whole]
  exact List.append_nil n

/-- A name path as a constraint writes it. -/
def join : List Text → Text
  | [] => []
  | [a] => a
  | a :: as => a ++ dot :: join as

theorem join_cons {as : List Text} (more : as ≠ []) (a : Text) :
    join (a :: as) = a ++ dot :: join as := by
  cases as with
  | nil => exact absurd rfl more
  | cons b as => rfl

/-- Dots are not escaped. -/
theorem id2www_dotted (a b : Text) : id2www (a ++ dot :: b) = id2www a ++ dot :: id2www b := by
  unfold id2www
  rw [List.flatMap_append, List.flatMap_cons, if_pos (show allowable dot = true by decide)]
  rfl

theorem id2www_join (as : List Text) : join (as.map id2www) = id2www (join as) := by
  induction as with
  | nil => rfl
  | cons a as ih =>
    by_cases more : as = []
    · subst more
      rfl
    · have mapped : as.map id2www ≠ [] := by simpa using more
      rw [List.map_cons, join_cons mapped, join_cons more, ih, id2www_dotted]

theorem mem_join {c : UInt8} (mem : c ∈ join as) : c = dot ∨ ∃ a ∈ as, c ∈ a := by
  induction as with
  | nil => cases mem
  | cons a as ih =>
    by_cases more : as = []
    · subst more
      exact .inr ⟨a, List.mem_cons_self, mem⟩
    · rw [join_cons more, List.mem_append, List.mem_cons] at mem
      rcases mem with here | rfl | later
      · exact .inr ⟨a, List.mem_cons_self, here⟩
      · exact .inl rfl
      · rcases ih later with same | ⟨b, listed, inside⟩
        · exact .inl same
        · exact .inr ⟨b, List.mem_cons_of_mem a listed, inside⟩

/-! ### Paths of names -/

/-- A part of a variable and its names, from the member of the variable on. A Vector of a
constructor type may be passed without naming its element. -/
inductive Reaches : BaseType → List Text → Path → Prop where
  | member {v w : BaseType} {i : Nat} (constructed : v.isConstructorType)
    (there : v.members[i]? = some w) : Reaches v [w.name] [i]
  | down {v w : BaseType} {i : Nat} {as : List Text} {p : Path}
    (constructed : v.isConstructorType) (there : v.members[i]? = some w)
    (rest : Reaches w as p) : Reaches v (w.name :: as) (i :: p)
  | element (name : Text) (w : BaseType) : Reaches (.vector name w) [w.name] [0]
  | inElement {w : BaseType} {as : List Text} {p : Path} (name : Text)
    (constructed : w.isConstructorType) (rest : Reaches w as p) :
    Reaches (.vector name w) as (0 :: p)

/-- The same for a dataset. -/
inductive Denotes (vars : List BaseType) : List Text → Path → Prop where
  | top {v : BaseType} {i : Nat} (there : vars[i]? = some v) : Denotes vars [v.name] [i]
  | inside {v : BaseType} {i : Nat} {as : List Text} {p : Path} (there : vars[i]? = some v)
    (rest : Reaches v as p) : Denotes vars (v.name :: as) (i :: p)

/-- Names that siblings may have. -/
def Distinct (vars : List BaseType) : Prop :=
  (vars.map BaseType.name).Nodup ∧ ∀ v ∈ vars, dot ∉ v.name ∧ 0 ∉ v.name

def WellNamed (vars : List BaseType) : Prop :=
  Distinct vars ∧ ∀ p v, variableAt vars p = some v → Distinct v.members

theorem Reaches.names_nonempty (reaches : Reaches v as p) : as ≠ [] := by
  induction reaches with
  | member | down | element => simp
  | inElement _ _ _ ih => exact ih

theorem Reaches.path_nonempty (reaches : Reaches v as p) : p ≠ [] := by
  cases reaches <;> simp

/-- Without a dot in it, a name is one component. -/
theorem splitFirst_dotted {a : Text} (undotted : dot ∉ a) (b : Text) :
    splitFirst (a ++ dot :: b) = some (a, b) := by
  induction a with
  | nil => rfl
  | cons c a ih =>
    rw [List.mem_cons, not_or] at undotted
    rw [List.cons_append, splitFirst, if_neg (Ne.symm undotted.1), ih undotted.2]
    rfl

theorem splitFirst_undotted {n : Text} (undotted : dot ∉ n) : splitFirst n = none := by
  cases split : splitFirst n with
  | none => rfl
  | some parts =>
    rw [splitFirst_eq split] at undotted
    simp at undotted

theorem find_self (single : (vars.map BaseType.name).Nodup) (there : vars[i]? = some v)
    (k : Nat) :
    ((vars.zipIdx k).find? fun (w, _) => w.name = v.name) = some (v, k + i) := by
  induction vars generalizing i k with
  | nil => cases there
  | cons head vars ih =>
    rw [List.map_cons, List.nodup_cons] at single
    rw [List.zipIdx_cons]
    cases i with
    | zero =>
      cases there
      simp
    | succ i =>
      have listed : v ∈ vars := List.mem_of_getElem? there
      have other : head.name ≠ v.name := by
        intro same
        rw [same] at single
        exact single.1 (List.mem_map_of_mem listed)
      rw [List.find?_cons_of_neg (by simpa using other), ih single.2 there, Nat.add_assoc,
        Nat.add_comm 1 i]

theorem named_self (distinct : Distinct vars) (there : vars[i]? = some v) (p : Path) :
    named v.name p vars = some (p ++ [i], v) := by
  unfold named
  rw [find_self distinct.1 there 0, Nat.zero_add]
  rfl

theorem named_absent {n : Text} (absent : ∀ v ∈ vars, v.name ≠ n) (p : Path) :
    named n p vars = none := by
  unfold named
  rw [Option.map_eq_none_iff, List.find?_eq_none]
  rintro ⟨v, i⟩ mem
  have listed := List.fst_mem_of_mem_zipIdx mem
  simpa using absent v listed

/-- Nothing is above the top, and nothing below it. -/
def Flat (vars : List BaseType) : Prop := ∀ v ∈ vars, v.members = []

/-- Each variable is found under its escaped names, and what is found for a name has it, decoded
once, as the end of its names. -/
def LookupExact (garbage : UInt8) (vars : List BaseType) : Prop :=
  (∀ as p, Denotes vars as p →
    ∃ v s, ddsVar garbage vars (join (as.map id2www)) = (some (p, v), s)) ∧
  ∀ n p v s, ddsVar garbage vars n = (some (p, v), s) →
    ∃ before as, as ≠ [] ∧ Denotes vars (before ++ as) p ∧ www2id garbage n = join as

/-! ### Datasets in which nothing contains anything -/

theorem exactVar_empty (garbage : UInt8) {v : BaseType} (empty : v.members = []) (n : Text)
    (p : Path) :
    (exactVar garbage n v p).1 = none := by
  cases v with
  | simple => rw [exactVar]
  | vector => cases empty
  | grid => cases empty
  | constructor kind name vars =>
    have none' : vars = [] := empty
    subst none'
    induction length : n.length using Nat.strong_induction_on generalizing n with
    | h k ih =>
      rw [exactVar_constructor]
      cases split : splitFirst (www2id garbage n) with
      | none => rfl
      | some parts =>
        obtain ⟨aggregate, field⟩ := parts
        have shorter := (splitFirst_length split).1
        have decoded := www2id_length_le garbage n
        simp only [named, List.zipIdx_nil, List.find?_nil, Option.map_none,
          ih _ (by omega) aggregate rfl]

theorem leafVar_empty {v : BaseType} (empty : v.members = []) (n : Text) (p : Path) :
    leafVar garbage n v p = (none, []) := by
  cases v with
  | simple => rfl
  | vector => cases empty
  | grid => cases empty
  | constructor kind name vars =>
    have none' : vars = [] := empty
    subst none'
    rfl

theorem ddsLeafMatch_flat (flat : Flat vars) {k : Nat}
    (found : ddsLeafMatch garbage n vars k = (some (p, w), s)) :
    ∃ i, p = [k + i] ∧ vars[i]? = some w ∧ w.name = n := by
  induction vars generalizing k s with
  | nil => cases found
  | cons v vars ih =>
    have flat' : Flat vars := fun u mem => flat u (List.mem_cons_of_mem v mem)
    have later {s' : List Path} (rest : ddsLeafMatch garbage n vars (k + 1) = (some (p, w), s')) :
        ∃ i, p = [k + i] ∧ (v :: vars)[i]? = some w ∧ w.name = n := by
      obtain ⟨i, same, there, name⟩ := ih flat' rest
      refine ⟨i + 1, ?_, there, name⟩
      rw [same, Nat.add_assoc, Nat.add_comm 1 i]
    unfold ddsLeafMatch at found
    split at found
    · rename_i name
      cases found
      exact ⟨0, rfl, rfl, name⟩
    · split at found
      · rw [leafVar_empty (flat v List.mem_cons_self)] at found
        cases rest : ddsLeafMatch garbage n vars (k + 1) with
        | mk r s' =>
          simp only [rest] at found
          cases found
          exact later rest
      · exact later found

theorem ddsVar_flat (flat : Flat vars) (n : Text) :
    ∀ p w s, ddsVar garbage vars n = (some (p, w), s) →
      ∃ i, p = [i] ∧ vars[i]? = some w ∧ w.name = www2id garbage n := by
  induction length : n.length using Nat.strong_induction_on generalizing n with
  | h k ih =>
    intro p w s found
    rw [ddsVar] at found
    cases first : ddsExactMatch garbage vars (www2id garbage n) with
    | mk r s₁ =>
      cases r with
      | none =>
        cases second : ddsLeafMatch garbage (www2id garbage n) vars 0 with
        | mk r s₂ =>
          simp only [first, second] at found
          cases found
          obtain ⟨i, same, there, name⟩ := ddsLeafMatch_flat flat second
          exact ⟨i, by rw [same, Nat.zero_add], there, name⟩
      | some r =>
        simp only [first] at found
        cases found
        rw [ddsExactMatch_eq] at first
        cases direct : named (www2id garbage n) [] vars with
        | some r =>
          simp only [direct] at first
          cases first
          exact named_some direct
        | none =>
          cases split : splitFirst (www2id garbage n) with
          | none =>
            simp only [direct, split] at first
            cases first
          | some parts =>
            obtain ⟨aggregate, field⟩ := parts
            have shorter := (splitFirst_length split).1
            have decoded := www2id_length_le garbage n
            cases above : ddsVar garbage vars aggregate with
            | mk r s₂ =>
              cases r with
              | none =>
                simp only [direct, split, above] at first
                cases first
              | some r =>
                obtain ⟨i, _, there, _⟩ := ih _ (by omega) aggregate rfl r.1 r.2 s₂ above
                have nothing := exactVar_empty garbage
                  (flat r.2 (List.mem_of_getElem? there)) field r.1
                simp only [direct, split, above] at first
                cases below : exactVar garbage field r.2 r.1 with
                | mk r' s₃ =>
                  rw [below] at nothing first
                  cases nothing
                  cases first

theorem ddsVar_named {name : Text} (decoded : www2id garbage n = name)
    (direct : named name [] vars = some (p, v)) :
    ddsVar garbage vars n = (some (p, v), []) := by
  rw [ddsVar, decoded, ddsExactMatch_eq, direct]

theorem lookupExact_flat (garbage : UInt8) (named' : WellNamed vars) (flat : Flat vars) :
    LookupExact garbage vars := by
  constructor
  · intro as p denotes
    cases denotes with
    | @top v i there =>
      have listed := List.mem_of_getElem? there
      have direct := named_self named'.1 there []
      exact ⟨v, [], ddsVar_named (www2id_id2www (named'.1.2 v listed).2 garbage) direct⟩
    | @inside v i as p there rest =>
      have empty := flat v (List.mem_of_getElem? there)
      cases rest with
      | member _ inside => simp [empty] at inside
      | down _ inside _ => simp [empty] at inside
      | element => cases empty
      | inElement => cases empty
  · intro n p v s found
    obtain ⟨i, rfl, there, name⟩ := ddsVar_flat flat n p v s found
    exact ⟨[], [v.name], by simp, .top there, name.symm⟩

/-! ### A variable inside another under a name that is no path -/

theorem hexDigit_plain : ∀ d < 16, hexDigit d ≠ 0 ∧ hexDigit d ≠ dot := by decide

theorem hexstring_plain (c : UInt8) : 0 ∉ hexstring c ∧ dot ∉ hexstring c := by
  have small : c.toNat < 256 := c.toNat_lt
  have high := hexDigit_plain (c.toNat / 16) (by omega)
  have low := hexDigit_plain (c.toNat % 16) (by omega)
  unfold hexstring
  constructor
  · simp [high.1.symm, low.1.symm]
  · simp [high.2.symm, low.2.symm]

theorem id2www_length (a : Text) : a.length ≤ (id2www a).length := by
  induction a with
  | nil => exact Nat.le_refl 0
  | cons c a ih =>
    unfold id2www at ih ⊢
    rw [List.flatMap_cons, List.length_append]
    split
    · simp only [List.length_cons, List.length_nil]
      omega
    · simp only [List.length_cons]
      omega

theorem mem_id2www {c : UInt8} {a : Text} (mem : c ∈ id2www a) :
    c ∈ a ∨ c = percent ∨ ∃ b, c ∈ hexstring b := by
  unfold id2www at mem
  obtain ⟨b, listed, inside⟩ := List.mem_flatMap.mp mem
  split at inside
  · cases List.mem_singleton.mp inside
    exact .inl listed
  · rcases List.mem_cons.mp inside with same | inside
    · exact .inr (.inl same)
    · exact .inr (.inr ⟨b, inside⟩)

theorem id2www_plain {a : Text} (undotted : dot ∉ a) (nonzero : 0 ∉ a) :
    dot ∉ id2www a ∧ 0 ∉ id2www a := by
  constructor
  · intro mem
    rcases mem_id2www mem with mem | same | ⟨b, mem⟩
    · exact undotted mem
    · exact absurd same (by decide)
    · exact (hexstring_plain b).2 mem
  · intro mem
    rcases mem_id2www mem with mem | same | ⟨b, mem⟩
    · exact nonzero mem
    · exact absurd same (by decide)
    · exact (hexstring_plain b).1 mem

/-- A name with its first byte escaped in any case. -/
def encoded : Text → Text
  | [] => [percent, 48, 48]
  | c :: rest => percent :: hexstring c ++ id2www rest

theorem www2id_encoded {a : Text} (nonzero : 0 ∉ a) (garbage : UInt8) :
    www2id garbage (encoded a) = a := by
  cases a with
  | nil => rfl
  | cons c rest =>
    rw [List.mem_cons, not_or] at nonzero
    unfold encoded
    rw [www2id_escaped (Ne.symm nonzero.1), www2id_id2www nonzero.2]

theorem encoded_length (a : Text) : a.length < (encoded a).length := by
  cases a with
  | nil => decide
  | cons c rest =>
    have := id2www_length rest
    simp [encoded, hexstring]
    omega

theorem encoded_nonzero {a : Text} (undotted : dot ∉ a) (nonzero : 0 ∉ a) : 0 ∉ encoded a := by
  cases a with
  | nil => decide
  | cons c rest =>
    rw [List.mem_cons, not_or] at undotted nonzero
    have hex := (hexstring_plain c).1
    have more := (id2www_plain undotted.2 nonzero.2).2
    change 0 ∉ percent :: (hexstring c ++ id2www rest)
    rw [List.mem_cons, List.mem_append]
    rintro (same | mem | mem)
    · exact absurd same (by decide)
    · exact hex mem
    · exact more mem

/-- Any name of a variable's first member finds it, once it is decoded. -/
theorem exactVar_first {u : BaseType} (first : v.members[0]? = some u)
    (distinct : Distinct v.members) (decoded : www2id garbage n = u.name) (p : Path) :
    (exactVar garbage n v p).1 = some (p ++ [0], u) := by
  cases v with
  | simple => cases first
  | vector name var =>
    have same : var = u := Option.some.inj first
    subst same
    rw [exactVar]
    by_cases constructed : var.isConstructorType = true
    · rw [if_pos constructed, if_pos (.inr decoded.symm)]
    · rw [if_neg constructed]
  | constructor kind name vars =>
    have direct := named_self distinct first p
    rw [exactVar_constructor, decoded]
    simp only [BaseType.members] at direct
    simp only [direct]
  | grid name arrayVar mapVars =>
    have direct := named_self distinct first p
    rw [exactVar, gridVar, decoded]
    simp only [BaseType.members] at direct
    simp only [direct]

theorem denotes_second {u : BaseType} (there : vars[i]? = some v)
    (first : v.members[0]? = some u) (denotes : Denotes vars as [i, 0]) :
    as = [v.name, u.name] := by
  cases denotes with
  | inside there' rest =>
    cases there.symm.trans there'
    cases rest with
    | member _ first' =>
      cases first.symm.trans first'
      rfl
    | down _ _ rest => exact absurd rfl rest.path_nonempty
    | element =>
      cases first
      rfl
    | inElement _ _ rest => exact absurd rfl rest.path_nonempty

theorem lookupExact_deep (garbage : UInt8) (named' : WellNamed vars) {u : BaseType}
    (there : vars[i]? = some v) (first : v.members[0]? = some u) : ¬ LookupExact garbage vars := by
  rintro ⟨_, sound⟩
  have below : variableAt vars [i] = some v := by simp [variableAt, there, descend]
  have distinct := named'.2 [i] v below
  obtain ⟨undotted, nonzero⟩ := named'.1.2 v (List.mem_of_getElem? there)
  obtain ⟨undotted', nonzero'⟩ := distinct.2 u (List.mem_of_getElem? first)
  have plain := id2www_plain undotted nonzero
  -- decoded once, the name still has escapes
  let once := id2www v.name ++ dot :: encoded u.name
  have nonzeroOnce : 0 ∉ once := by
    rw [List.mem_append, List.mem_cons]
    rintro (mem | same | mem)
    · exact plain.2 mem
    · exact absurd same (by decide)
    · exact encoded_nonzero undotted' nonzero' mem
  have decoded := www2id_id2www nonzeroOnce garbage
  have nowhere : named once [] vars = none := by
    apply named_absent
    rintro w mem same
    apply (named'.1.2 w mem).1
    rw [same]
    simp [once]
  have split : splitFirst once = some (id2www v.name, encoded u.name) :=
    splitFirst_dotted plain.1 _
  have above := ddsVar_named (www2id_id2www nonzero garbage) (named_self named'.1 there [])
  have inside := exactVar_first first distinct (www2id_encoded nonzero' garbage) [i]
  obtain ⟨s, search⟩ : ∃ s, ddsVar garbage vars (id2www once) = (some ([i, 0], u), s) := by
    rw [ddsVar, decoded, ddsExactMatch_eq]
    simp only [nowhere, split, above, List.nil_append]
    cases found : exactVar garbage (encoded u.name) v [i] with
    | mk r s =>
      rw [found] at inside
      cases inside
      exact ⟨s, rfl⟩
  obtain ⟨before, as, nonempty, denotes, same⟩ := sound _ _ _ _ search
  rw [decoded] at same
  have longer : v.name.length + 1 + u.name.length < once.length := by
    have := id2www_length v.name
    have := encoded_length u.name
    simp only [once, List.length_append, List.length_cons]
    omega
  have whole := denotes_second there first denotes
  have shorter : (join as).length ≤ v.name.length + 1 + u.name.length := by
    cases before with
    | nil =>
      cases whole
      simp [join]
      omega
    | cons b before =>
      obtain ⟨_, rest⟩ := List.cons.inj whole
      cases before with
      | nil =>
        cases rest
        simp [join]
      | cons b' before =>
        obtain ⟨_, rest'⟩ := List.cons.inj rest
        exact absurd (List.append_eq_nil_iff.mp rest').2 nonempty
  rw [← same] at shorter
  omega

theorem lookupExact_iff_flat (garbage : UInt8) (named' : WellNamed vars) :
    LookupExact garbage vars ↔ Flat vars := by
  constructor
  · intro exact' v listed
    by_contra more
    obtain ⟨i, there⟩ := List.mem_iff_getElem?.mp listed
    obtain ⟨u, us, same⟩ := List.exists_cons_of_ne_nil more
    have first : v.members[0]? = some u := by rw [same]; rfl
    exact lookupExact_deep garbage named' there first exact'
  · exact lookupExact_flat garbage named'

/-! ### Names without escapes -/

/-- Names that lead from one variable into another: through the members of Structures and
Sequences, to the members of a Grid, and past an element that does not have the name. -/
inductive Direct : BaseType → List Text → Path → Prop where
  | member {v w : BaseType} {i : Nat} (constructed : v.isConstructorType)
    (there : v.members[i]? = some w) : Direct v [w.name] [i]
  | down {vars : List BaseType} {w : BaseType} {i : Nat} {as : List Text} {p : Path}
    (kind : Bool) (name : Text) (there : vars[i]? = some w) (rest : Direct w as p) :
    Direct (.constructor kind name vars) (w.name :: as) (i :: p)
  | element (name : Text) (w : BaseType) : Direct (.vector name w) [w.name] [0]
  | inElement {w : BaseType} {as : List Text} {p : Path} (name : Text)
    (constructed : w.isConstructorType) (rest : Direct w as p) (other : join as ≠ w.name)
    (some' : join as ≠ []) : Direct (.vector name w) as (0 :: p)

inductive DirectlyDenotes (vars : List BaseType) : List Text → Path → Prop where
  | top {v : BaseType} {i : Nat} (there : vars[i]? = some v) : DirectlyDenotes vars [v.name] [i]
  | inside {v : BaseType} {i : Nat} {as : List Text} {p : Path} (there : vars[i]? = some v)
    (rest : Direct v as p) : DirectlyDenotes vars (v.name :: as) (i :: p)

theorem Direct.names_nonempty (direct : Direct v as p) : as ≠ [] := by
  induction direct with
  | member | down | element => simp
  | inElement _ _ _ _ _ ih => exact ih

theorem percent_not_join (plain : ∀ a ∈ as, percent ∉ a) : percent ∉ join as := by
  intro mem
  rcases mem_join mem with same | ⟨a, listed, inside⟩
  · exact absurd same (by decide)
  · exact plain a listed inside

/-- Whatever lies inside `v` is well named. -/
def WellNamedInside (v : BaseType) : Prop :=
  ∀ p w, descend v p = some w → Distinct w.members

theorem WellNamedInside.member (inside : WellNamedInside v) (there : v.members[i]? = some w) :
    WellNamedInside w := by
  intro p u found
  apply inside (i :: p) u
  simp [descend, there, found]

theorem named_dotted (distinct : Distinct vars) (a b : Text) (p : Path) :
    named (a ++ dot :: b) p vars = none := by
  apply named_absent
  intro w mem same
  apply (distinct.2 w mem).1
  rw [same]
  simp

/-- A member of a constructor under its own name. -/
theorem exactVar_member (constructed : v.isConstructorType) (distinct : Distinct v.members)
    (there : v.members[i]? = some w) (decoded : www2id garbage n = w.name) (p : Path) :
    exactVar garbage n v p = (some (p ++ [i], w), [p]) := by
  have direct := named_self distinct there p
  cases v with
  | simple => cases constructed
  | vector => cases constructed
  | constructor kind name vars =>
    rw [exactVar_constructor, decoded]
    simp only [BaseType.members] at direct
    simp only [direct]
  | grid name arrayVar mapVars =>
    rw [exactVar, gridVar, decoded]
    simp only [BaseType.members] at direct
    simp only [direct]

theorem exactVar_direct (garbage : UInt8) (direct : Direct v as p) (inside : WellNamedInside v)
    (plain : ∀ a ∈ as, percent ∉ a) (base : Path) :
    ∃ w, (exactVar garbage (join as) v base).1 = some (base ++ p, w) := by
  induction direct generalizing base with
  | @member v w i constructed there =>
    have decoded : www2id garbage (join [w.name]) = w.name :=
      www2id_plain garbage (plain w.name List.mem_cons_self)
    rw [exactVar_member constructed (inside [] v rfl) there decoded]
    exact ⟨w, rfl⟩
  | @down vars w i as p kind name there rest ih =>
    have distinct := inside [] _ rfl
    have undotted := (distinct.2 w (List.mem_of_getElem? there)).1
    have split : splitFirst (join (w.name :: as)) = some (w.name, join as) := by
      rw [join_cons rest.names_nonempty]
      exact splitFirst_dotted undotted _
    have nowhere : named (join (w.name :: as)) base vars = none := by
      rw [join_cons rest.names_nonempty]
      exact named_dotted distinct _ _ _
    have aggregate := exactVar_member (v := .constructor kind name vars) rfl distinct there
      (www2id_plain garbage (plain w.name List.mem_cons_self)) base
    obtain ⟨u, found⟩ := ih (inside.member there)
      (fun a mem => plain a (List.mem_cons_of_mem _ mem)) (base ++ [i])
    refine ⟨u, ?_⟩
    rw [exactVar_constructor, www2id_plain garbage (percent_not_join plain)]
    simp only [nowhere, split, aggregate, found]
    rw [List.append_assoc]
    rfl
  | element name w =>
    refine ⟨w, ?_⟩
    have decoded : www2id garbage (join [w.name]) = w.name :=
      www2id_plain garbage (plain w.name List.mem_cons_self)
    exact exactVar_first (v := .vector name w) rfl (inside [] _ rfl) decoded base
  | @inElement w as p name constructed rest other some' ih =>
    obtain ⟨u, found⟩ := ih (inside.member (i := 0) rfl) plain (base ++ [0])
    refine ⟨u, ?_⟩
    rw [exactVar, www2id_plain garbage (percent_not_join plain), if_pos constructed,
      if_neg (by simp [some', Ne.symm other])]
    cases search : exactVar garbage (join as) w (base ++ [0]) with
    | mk r s =>
      rw [search] at found
      cases found
      simp

theorem WellNamed.inside (named' : WellNamed vars) (there : vars[i]? = some v) :
    WellNamedInside v := by
  intro p w found
  apply named'.2 (i :: p) w
  simp [variableAt, there, found]

theorem Direct.nonzero (direct : Direct v as p) (inside : WellNamedInside v) :
    ∀ a ∈ as, 0 ∉ a := by
  induction direct with
  | @member v w i constructed there =>
    intro a mem
    cases List.mem_singleton.mp mem
    exact ((inside [] v rfl).2 w (List.mem_of_getElem? there)).2
  | @down vars w i as p kind name there rest ih =>
    intro a mem
    rcases List.mem_cons.mp mem with rfl | mem
    · exact ((inside [] _ rfl).2 w (List.mem_of_getElem? there)).2
    · exact ih (inside.member there) a mem
  | element name w =>
    intro a mem
    cases List.mem_singleton.mp mem
    exact ((inside [] _ rfl).2 w (List.mem_singleton_self w)).2
  | @inElement w as p name constructed rest other some' ih =>
    exact ih (inside.member (i := 0) rfl)

theorem ddsVar_direct (garbage : UInt8) (named' : WellNamed vars)
    (direct : DirectlyDenotes vars as p) (plain : ∀ a ∈ as, percent ∉ a) :
    ∃ v s, ddsVar garbage vars (join (as.map id2www)) = (some (p, v), s) := by
  cases direct with
  | @top v i there =>
    have listed := List.mem_of_getElem? there
    exact ⟨v, [], ddsVar_named (www2id_id2www (named'.1.2 v listed).2 garbage)
      (named_self named'.1 there [])⟩
  | @inside v i as p there rest =>
    obtain ⟨undotted, nonzero⟩ := named'.1.2 v (List.mem_of_getElem? there)
    have whole : join (v.name :: as) = v.name ++ dot :: join as := join_cons rest.names_nonempty _
    have decoded : www2id garbage (join ((v.name :: as).map id2www)) = join (v.name :: as) := by
      rw [id2www_join]
      apply www2id_id2www
      intro mem
      rcases mem_join mem with same | ⟨a, listed, zero⟩
      · exact absurd same (by decide)
      · rcases List.mem_cons.mp listed with rfl | listed
        · exact nonzero zero
        · exact rest.nonzero (named'.inside there) a listed zero
    have top := ddsVar_named (www2id_plain garbage (plain v.name List.mem_cons_self))
      (named_self named'.1 there [])
    obtain ⟨w, found⟩ := exactVar_direct garbage rest (named'.inside there)
      (fun a mem => plain a (List.mem_cons_of_mem _ mem)) [i]
    rw [ddsVar, decoded, ddsExactMatch_eq, whole, splitFirst_dotted undotted]
    simp only [named_dotted named'.1, top, List.nil_append]
    cases search : exactVar garbage (join as) v [i] with
    | mk r s =>
      rw [search] at found
      cases found
      exact ⟨w, s, rfl⟩

theorem splitFirst_before {n a b : Text} (split : splitFirst n = some (a, b)) : dot ∉ a := by
  induction n generalizing a with
  | nil => cases split
  | cons c rest ih =>
    unfold splitFirst at split
    by_cases here : c = dot
    · rw [if_pos here] at split
      cases split
      simp
    · rw [if_neg here] at split
      obtain ⟨⟨a', b'⟩, found, same⟩ := Option.map_eq_some_iff.mp split
      cases same
      rw [List.mem_cons, not_or]
      exact ⟨Ne.symm here, ih found⟩

/-- Members of members, without a Vector on the way. -/
inductive Along : BaseType → List Text → Path → BaseType → Prop where
  | member {v w : BaseType} {i : Nat} (constructed : v.isConstructorType)
    (there : v.members[i]? = some w) : Along v [w.name] [i] w
  | down {v w u : BaseType} {i : Nat} {as : List Text} {p : Path}
    (constructed : v.isConstructorType) (there : v.members[i]? = some w)
    (rest : Along w as p u) : Along v (w.name :: as) (i :: p) u

theorem Along.reaches {u : BaseType} (along : Along v as p u) : Reaches v as p := by
  induction along with
  | member constructed there => exact .member constructed there
  | down constructed there _ ih => exact .down constructed there ih

theorem Along.through {u : BaseType} {bs : List Text} (along : Along v as p u)
    (rest : Reaches u bs q) : Reaches v (as ++ bs) (p ++ q) := by
  induction along with
  | member constructed there => exact .down constructed there rest
  | down constructed there _ ih => exact .down constructed there (ih rest)

/-- An element of a Vector, which a search may give for another name. -/
def IsElement (v : BaseType) (p : Path) : Prop :=
  ∃ q name w, p = q ++ [0] ∧ descend v q = some (.vector name w)

theorem exactVar_undotted {kind : Bool} {name : Text} (plain : percent ∉ n) (undotted : dot ∉ n)
    {found : Path × BaseType}
    (search : (exactVar garbage n (.constructor kind name vars) p).1 = some found) :
    ∃ i, found.1 = p ++ [i] ∧ vars[i]? = some found.2 ∧ found.2.name = n := by
  rw [exactVar_constructor, www2id_plain garbage plain, splitFirst_undotted undotted] at search
  cases direct : named n p vars with
  | none =>
    simp only [direct] at search
    cases search
  | some r =>
    simp only [direct] at search
    cases search
    exact named_some direct

theorem IsElement.inElement {name : Text} (element : IsElement v p) :
    IsElement (.vector name v) (0 :: p) := by
  obtain ⟨q, name', u, rfl, there⟩ := element
  exact ⟨0 :: q, name', u, rfl, by simpa [descend, BaseType.members] using there⟩

theorem IsElement.member (element : IsElement w p) (there : v.members[i]? = some w) :
    IsElement v (i :: p) := by
  obtain ⟨q, name, u, rfl, found⟩ := element
  exact ⟨i :: q, name, u, rfl, by simp [descend, there, found]⟩

/-- In exact mode, what is found has the name as its names, if it is no element. -/
theorem exactVar_sound (garbage : UInt8) (n : Text) (v : BaseType) (base : Path) :
    percent ∉ n → ∀ r w s, exactVar garbage n v base = (some (base ++ r, w), s) →
      ¬ IsElement v r → ∃ as, Reaches v as r ∧ n = join as := by
  fun_induction exactVar garbage n v base
  all_goals intro plain r w s found ordinary
  case case1 => cases found
  case case2 name _ _ _ _ =>
    obtain ⟨same, _⟩ := Prod.mk.inj (Option.some.inj (Prod.mk.inj found).1)
    rw [← List.append_cancel_left same] at ordinary
    exact absurd ⟨[], name, _, rfl, rfl⟩ ordinary
  case case3 n name var p constructed other r' s' below ih =>
    rw [www2id_plain garbage plain] at below ih
    cases found
    obtain ⟨⟨t, same, _, _⟩, _, _⟩ := exactVar_descent garbage n var (p ++ [0]) _ _ _ below
    have tail : r = 0 :: t := by
      rw [List.append_assoc] at same
      exact List.append_cancel_left same
    subst tail
    obtain ⟨as, reaches, whole⟩ := ih plain t w s' (by simpa using below)
      fun element => ordinary element.inElement
    exact ⟨as, .inElement name constructed reaches, whole⟩
  case case4 => cases found
  case case5 name _ _ _ =>
    obtain ⟨same, _⟩ := Prod.mk.inj (Option.some.inj (Prod.mk.inj found).1)
    rw [← List.append_cancel_left same] at ordinary
    exact absurd ⟨[], name, _, rfl, rfl⟩ ordinary
  case case6 n name vars p r' first =>
    cases found
    obtain ⟨i, same, there, whole⟩ := named_some first
    rw [List.append_cancel_left same]
    rw [www2id_plain garbage plain] at whole
    exact ⟨[w.name], .member rfl there, whole.symm⟩
  case case7 => cases found
  case case8 => cases found
  case case9 n name vars p nowhere aggregate field split m agg first r' s' second ih₁ ih₂ =>
    rw [www2id_plain garbage plain] at split
    have whole := splitFirst_eq split
    rw [whole, List.mem_append, List.mem_cons, not_or, not_or] at plain
    obtain ⟨i, same, there, name'⟩ :=
      exactVar_undotted plain.1 (splitFirst_before split) first
    cases found
    obtain ⟨⟨t, low, _, _⟩, _, _⟩ := exactVar_descent garbage field agg m _ _ _ second
    have same' : m = p ++ [i] := same
    have tail : r = i :: t := by
      rw [same', List.append_assoc] at low
      exact List.append_cancel_left low
    subst tail
    obtain ⟨as, reaches, rest⟩ := ih₂ plain.2.2 t w s' (low ▸ second)
      fun element => ordinary (element.member there)
    refine ⟨agg.name :: as, .down rfl there reaches, ?_⟩
    rw [whole, join_cons reaches.names_nonempty, rest]
    exact congrArg (· ++ dot :: join as) name'.symm
  case case10 n name arrayVar mapVars p =>
    unfold gridVar at found
    rw [www2id_plain garbage plain] at found
    split at found
    · rename_i r' first
      cases found
      obtain ⟨i, same, there, whole⟩ := named_some first
      rw [List.append_cancel_left same]
      exact ⟨[w.name], .member rfl there, whole.symm⟩
    · cases found

/-- A member of a variable, or a part of a member, that has the name. -/
def MemberNamed (n : Text) (vars : List BaseType) (k : Nat) (base q : Path) (w : BaseType) :
    Prop :=
  ∃ i v, vars[i]? = some v ∧
    ((q = base ++ [k + i] ∧ w = v ∧ v.name = n) ∨
      ∃ as r, q = base ++ (k + i) :: r ∧ Along v (as ++ [n]) r w)

theorem MemberNamed.later {k : Nat} {base : Path}
    (member : MemberNamed n vars (k + 1) base q w) : MemberNamed n (v :: vars) k base q w := by
  obtain ⟨i, u, there, here⟩ := member
  refine ⟨i + 1, u, there, ?_⟩
  rw [Nat.add_assoc, Nat.add_comm 1 i] at here
  exact here

/-- In leaf mode, what is found has the name as its last one. -/
def LeafSound (garbage : UInt8) (v : BaseType) : Prop :=
  ∀ n base q w s, percent ∉ n → leafVar garbage n v base = (some (q, w), s) →
    ∃ as r, q = base ++ r ∧ Along v (as ++ [n]) r w

theorem leafMatch_sound (each : ∀ v ∈ vars, LeafSound garbage v) {k : Nat} {base : Path}
    (plain : percent ∉ n) (found : leafMatch garbage n base vars k = (some (q, w), s)) :
    MemberNamed n vars k base q w := by
  induction vars generalizing k s with
  | nil => cases found
  | cons v vars ih =>
    have later {s' : List Path}
        (rest : leafMatch garbage n base vars (k + 1) = (some (q, w), s')) :
        MemberNamed n (v :: vars) k base q w :=
      (ih (fun u mem => each u (List.mem_cons_of_mem v mem)) rest).later
    unfold leafMatch at found
    split at found
    · rename_i name
      cases found
      exact ⟨0, _, rfl, .inl ⟨rfl, rfl, name⟩⟩
    · split at found
      · split at found
        · rename_i r s' below
          cases found
          obtain ⟨as, t, same, along⟩ := each v List.mem_cons_self n _ _ _ _ plain below
          refine ⟨0, v, rfl, .inr ⟨as, t, ?_, along⟩⟩
          rw [same, List.append_assoc]
          rfl
        · cases rest : leafMatch garbage n base vars (k + 1) with
          | mk r s' =>
            simp only [rest] at found
            cases found
            exact later rest
      · exact later found

theorem MemberNamed.along {base : Path} (constructed : v.isConstructorType)
    (member : MemberNamed n v.members 0 base q w) :
    ∃ as r, q = base ++ r ∧ Along v (as ++ [n]) r w := by
  obtain ⟨i, u, there, ⟨rfl, rfl, rfl⟩ | ⟨as, r, rfl, along⟩⟩ := member
  · exact ⟨[], [i], by rw [Nat.zero_add], .member constructed there⟩
  · exact ⟨u.name :: as, i :: r, by rw [Nat.zero_add], .down constructed there along⟩

theorem leafVar_sound (garbage : UInt8) (v : BaseType) : LeafSound garbage v := by
  induction v using BaseType.members_induction with
  | step v ih =>
    intro n base q w s plain found
    cases v with
    | simple | vector => cases found
    | constructor kind name vars =>
      unfold leafVar at found
      rw [www2id_plain garbage plain] at found
      have member : MemberNamed n vars 0 base q w := leafMatch_sound ih plain found
      exact member.along rfl
    | grid name arrayVar mapVars =>
      unfold leafVar gridVar at found
      rw [www2id_plain garbage plain] at found
      split at found
      · rename_i r first
        cases found
        obtain ⟨i, same, there, rfl⟩ := named_some first
        exact ⟨[], [i], same, .member rfl there⟩
      · cases found

theorem ddsLeafMatch_sound {k : Nat} (plain : percent ∉ n)
    (found : ddsLeafMatch garbage n vars k = (some (q, w), s)) :
    MemberNamed n vars k [] q w := by
  induction vars generalizing k s with
  | nil => cases found
  | cons v vars ih =>
    have later {s' : List Path}
        (rest : ddsLeafMatch garbage n vars (k + 1) = (some (q, w), s')) :
        MemberNamed n (v :: vars) k [] q w := (ih rest).later
    unfold ddsLeafMatch at found
    split at found
    · rename_i name
      cases found
      exact ⟨0, _, rfl, .inl ⟨rfl, rfl, name⟩⟩
    · split at found
      · split at found
        · rename_i r s' below
          cases found
          obtain ⟨as, t, same, along⟩ := leafVar_sound garbage v n _ _ _ _ plain below
          exact ⟨0, v, rfl, .inr ⟨as, t, same, along⟩⟩
        · cases rest : ddsLeafMatch garbage n vars (k + 1) with
          | mk r s' =>
            simp only [rest] at found
            cases found
            exact later rest
      · exact later found

/-- The variable at `p` is an element of a Vector. -/
def ElementAt (vars : List BaseType) (p : Path) : Prop :=
  ∃ q name w, p = q ++ [0] ∧ variableAt vars q = some (.vector name w)

theorem MemberNamed.ends (member : MemberNamed n vars 0 [] q w) :
    ∃ before as, as ≠ [] ∧ Denotes vars (before ++ as) q ∧ n = join as := by
  obtain ⟨i, v, there, ⟨rfl, rfl, rfl⟩ | ⟨as, r, rfl, along⟩⟩ := member
  · refine ⟨[], [w.name], by simp, ?_, rfl⟩
    rw [List.nil_append, Nat.zero_add]
    exact .top there
  · refine ⟨v.name :: as, [n], by simp, ?_, rfl⟩
    rw [List.nil_append, Nat.zero_add]
    exact .inside there along.reaches

/-- A name without a dot is found at the top, or as a leaf. -/
theorem ddsVar_undotted (plain : percent ∉ n) (undotted : dot ∉ n)
    (found : ddsVar garbage vars n = (some (q, w), s)) : MemberNamed n vars 0 [] q w := by
  rw [ddsVar, www2id_plain garbage plain, ddsExactMatch_eq, splitFirst_undotted undotted] at found
  cases direct : named n [] vars with
  | some r =>
    simp only [direct] at found
    cases found
    obtain ⟨i, same, there, name⟩ := named_some direct
    exact ⟨i, w, there, .inl ⟨by rw [same, Nat.zero_add], rfl, name⟩⟩
  | none =>
    cases leaf : ddsLeafMatch garbage n vars 0 with
    | mk r s' =>
      simp only [direct, leaf] at found
      cases found
      exact ddsLeafMatch_sound plain leaf

/-- From an aggregate on, which has been found before. -/
theorem MemberNamed.through {as : List Text} {r : Path}
    (member : MemberNamed n vars 0 [] q w) (reaches : Reaches w as r) :
    ∃ before, Denotes vars (before ++ n :: as) (q ++ r) := by
  obtain ⟨i, v, there, ⟨rfl, rfl, rfl⟩ | ⟨bs, t, rfl, along⟩⟩ := member
  · refine ⟨[], ?_⟩
    rw [List.nil_append, Nat.zero_add]
    exact .inside there reaches
  · refine ⟨v.name :: bs, ?_⟩
    have down := along.through reaches
    rw [List.append_assoc] at down
    rw [List.nil_append, Nat.zero_add]
    exact .inside there down

theorem ddsVar_sound (plain : percent ∉ www2id garbage n)
    (found : ddsVar garbage vars n = (some (p, v), s)) (ordinary : ¬ ElementAt vars p) :
    ∃ before as, as ≠ [] ∧ Denotes vars (before ++ as) p ∧ www2id garbage n = join as := by
  rw [ddsVar] at found
  cases first : ddsExactMatch garbage vars (www2id garbage n) with
  | mk r s₁ =>
    cases r with
    | none =>
      cases second : ddsLeafMatch garbage (www2id garbage n) vars 0 with
      | mk r s₂ =>
        simp only [first, second] at found
        cases found
        exact (ddsLeafMatch_sound plain second).ends
    | some r =>
      simp only [first] at found
      cases found
      rw [ddsExactMatch_eq] at first
      cases direct : named (www2id garbage n) [] vars with
      | some r =>
        simp only [direct] at first
        cases first
        obtain ⟨i, rfl, there, name⟩ := named_some direct
        exact ⟨[], [v.name], by simp, .top there, name.symm⟩
      | none =>
        cases split : splitFirst (www2id garbage n) with
        | none =>
          simp only [direct, split] at first
          cases first
        | some parts =>
          obtain ⟨aggregate, field⟩ := parts
          have whole := splitFirst_eq split
          rw [whole, List.mem_append, List.mem_cons, not_or, not_or] at plain
          cases above : ddsVar garbage vars aggregate with
          | mk r s₂ =>
            cases r with
            | none =>
              simp only [direct, split, above] at first
              cases first
            | some r =>
              cases below : exactVar garbage field r.2 r.1 with
              | mk r' s₃ =>
                simp only [direct, split, above, below] at first
                cases first
                obtain ⟨⟨t, same, _, _⟩, _, _⟩ := exactVar_descent garbage field r.2 r.1 _ _ _ below
                subst same
                have there := (ddsVar_found above).there
                obtain ⟨as, reaches, rest⟩ :=
                  exactVar_sound garbage field r.2 r.1 plain.2.2 t v s₃ below fun element => by
                    obtain ⟨q, name, u, rfl, inside⟩ := element
                    apply ordinary
                    refine ⟨r.1 ++ q, name, u, by rw [List.append_assoc], ?_⟩
                    rw [variableAt_append there, inside]
                have aggregated := ddsVar_undotted plain.1 (splitFirst_before split) above
                obtain ⟨before, denotes⟩ := aggregated.through reaches
                refine ⟨before, aggregate :: as, by simp, denotes, ?_⟩
                rw [whole, join_cons reaches.names_nonempty, rest]

/-- For a dataset with distinct names: the lookup is exact for every variable and every name
just if no variable contains another. In any dataset a variable is found by the names that
lead to it if there is no escape in them, and what is found for a name without an escape
left has that name, unless it is an element of a Vector. -/
theorem lookupExact_iff (garbage : UInt8) (vars : List BaseType) (named' : WellNamed vars) :
    (LookupExact garbage vars ↔ Flat vars) ∧
      (∀ as p, DirectlyDenotes vars as p → (∀ a ∈ as, percent ∉ a) →
        ∃ v s, ddsVar garbage vars (join (as.map id2www)) = (some (p, v), s)) ∧
      ∀ n p v s, percent ∉ www2id garbage n →
        ddsVar garbage vars n = (some (p, v), s) → ¬ ElementAt vars p →
          ∃ before as, as ≠ [] ∧ Denotes vars (before ++ as) p ∧ www2id garbage n = join as :=
  ⟨lookupExact_iff_flat garbage named',
    fun _ _ direct plain => ddsVar_direct garbage named' direct plain,
    fun _ _ _ _ plain found ordinary => ddsVar_sound plain found ordinary⟩

/-- A Structure `s` with a Byte `a`. -/
def oneStructure : List BaseType := [.constructor false [115] [.simple [97]]]

theorem oneStructure_named : WellNamed oneStructure := by
  have top : Distinct oneStructure := by
    unfold Distinct
    decide
  refine ⟨top, ?_⟩
  intro p v found
  rcases p with _ | ⟨_ | i, p⟩
  · cases found
  · rcases p with _ | ⟨_ | i, p⟩
    · cases found
      unfold Distinct
      decide
    · rcases p with _ | ⟨i, p⟩
      · cases found
        unfold Distinct
        decide
      · cases found
    · cases found
  · cases found

theorem lookupExact_iff_oneStructure : WellNamed oneStructure ∧
    (LookupExact 0 oneStructure ↔ Flat oneStructure) :=
  ⟨oneStructure_named, (lookupExact_iff 0 oneStructure oneStructure_named).1⟩

/-- The name `s.%2561` is `s.%61` once it is decoded, and still finds `s.a`. -/
theorem lookupExact_fails : ¬ LookupExact 0 oneStructure ∧
    www2id 0 [115, 46, 37, 50, 53, 54, 49] = [115, 46, 37, 54, 49] ∧
    (ddsVar 0 oneStructure [115, 46, 37, 50, 53, 54, 49]).1 = some ([0, 0], .simple [97]) := by
  have deep : ¬ LookupExact 0 oneStructure :=
    lookupExact_deep (i := 0) (v := .constructor false [115] [.simple [97]]) 0 oneStructure_named rfl rfl
  refine ⟨deep, by decide, ?_⟩
  have decoded : www2id 0 [115, 46, 37, 50, 53, 54, 49] = [115, 46, 37, 54, 49] := by decide
  have nowhere : named [115, 46, 37, 54, 49] [] oneStructure = none := by decide
  have split : splitFirst [115, 46, 37, 54, 49] = some ([115], [37, 54, 49]) := by decide
  have above : ddsVar 0 oneStructure [115] = (some ([0], .constructor false [115] [.simple [97]]), []) :=
    ddsVar_named (show www2id 0 [115] = [115] by decide) rfl
  have field : www2id 0 [37, 54, 49] = [97] := by decide
  rw [ddsVar, decoded, ddsExactMatch_eq]
  simp only [nowhere, split, above]
  rw [exactVar_constructor, field]
  rfl

end Libdap.Guarantees.VariableNames
