import Libdap.Source.Operators

/-!
# Selections of numeric values

A floating point number loses its fraction when it is compared with an unsigned integer.
-/
namespace Libdap.Guarantees.Selection
open Libdap.Source Libdap.Source.Operators

variable {x y : Value} {c : Comparison} {a b : ℚ}

/-- A negative signed operand counts as zero against an unsigned one. -/
def counted (v other : Value) : ℚ :=
  if other.isUnsigned ∧ ¬ v.isUnsigned ∧ v.toRat < 0 then 0 else v.toRat

/-- The comparison that a clause stands for. -/
def holds (c : Comparison) (x y : Value) : Bool := relate (counted x y) (counted y x) c

/-- The conversion of a signed integer to the type of a floating point number, for the
comparison with it, keeps the value. -/
def ConvertsExactly (v other : Value) : Prop :=
  v.isUnsigned = false → v.isFloat = false →
    match other with
    | .float32 _ => roundToBits 24 v.toRat.num = v.toRat.num
    | .float64 _ => roundToBits 53 v.toRat.num = v.toRat.num
    | _ => True

def ops' (c : Comparison) (x y : Value) : Except Failure Bool :=
  ops ⟨x, true⟩ ⟨y, true⟩ (.comparison c)

/-- A fraction does not decide the comparison of `a`, an integer, with `b`. -/
def WholeEnough (c : Comparison) (a b : ℚ) : Prop :=
  b < 0 ∨ (b < 2 ^ 64 ∧ ((⌊b⌋ : ℚ) = a → b = a ∨ c = .greater ∨ c = .lessEql))

def mirror : Comparison → Comparison
  | .equal => .equal
  | .notEqual => .notEqual
  | .greater => .less
  | .greaterEql => .lessEql
  | .less => .greater
  | .lessEql => .greaterEql

/-- The comparison is no matter of a fraction that is dropped. -/
def Faithful (c : Comparison) (x y : Value) : Prop :=
  (x.isUnsigned → y.isFloat → WholeEnough c x.toRat y.toRat) ∧
    (x.isFloat → y.isUnsigned → WholeEnough (mirror c) y.toRat x.toRat)

theorem relate_mirror (a b : ℚ) (c : Comparison) : relate a b c = relate b a (mirror c) := by
  cases c <;> simp [relate, mirror, eq_comm]

/-- By cases of the type: what `ops` compares. -/
theorem ops_unsigned (unsigned : x.isUnsigned = true) (c : Comparison) :
    ops' c x y = if y.isUnsigned then Cmp (.comparison c) x y else USCmp (.comparison c) x y := by
  cases x <;> first | rfl | cases unsigned

theorem ops_signed (signed : x.isUnsigned = false) (c : Comparison) :
    ops' c x y = if y.isUnsigned then SUCmp (.comparison c) x y else Cmp (.comparison c) x y := by
  cases x <;> first | rfl | cases signed

theorem unsigned_toRat (unsigned : x.isUnsigned = true) : ∃ n : Nat, x.toRat = n ∧ n < 2 ^ 32 := by
  cases x with
  | byte v =>
    have := v.toNat_lt
    exact ⟨v.toNat, rfl, by omega⟩
  | uint16 v =>
    have := v.toNat_lt
    exact ⟨v.toNat, rfl, by omega⟩
  | uint32 v =>
    have := v.toNat_lt
    exact ⟨v.toNat, rfl, by omega⟩
  | int16 | int32 | float32 | float64 => cases unsigned

theorem signed_toRat (signed : x.isUnsigned = false) (whole : x.isFloat = false) :
    ∃ n : Int, x.toRat = n ∧ n < 2 ^ 32 := by
  cases x with
  | int16 v =>
    have := v.toInt_lt
    exact ⟨v.toInt, rfl, by omega⟩
  | int32 v =>
    have := v.toInt_lt
    exact ⟨v.toInt, rfl, by omega⟩
  | byte | uint16 | uint32 => cases signed
  | float32 | float64 => cases whole

/-- Two unsigned integers are compared in a type that holds both. -/
theorem convert_unsigned (first : x.isUnsigned = true) (second : y.isUnsigned = true) :
    convert (commonType x y) x = x.toRat := by
  have common : commonType x y = .int ∨ commonType x y = .unsignedInt := by
    cases x <;> first | cases first; done | cases y <;> first | cases second; done | simp [commonType]
  have whole : x.isFloat = false := by
    cases x <;> first | rfl | cases first
  unfold convert
  rw [if_neg (by simp [whole])]
  obtain ⟨n, value, small⟩ := unsigned_toRat first
  rcases common with common | common
  · rw [common]
  · rw [common, value]
    have kept : ((n : ℚ).num % 2 ^ 32 : Int) = n := by
      rw [Rat.num_natCast]
      omega
    simp only [kept]
    rfl

/-- A signed integer or a floating point number against another. -/
theorem convert_signed (first : x.isUnsigned = false) (second : y.isUnsigned = false)
    (exact' : ConvertsExactly x y) : convert (commonType x y) x = x.toRat := by
  unfold convert
  by_cases float : x.isFloat = true
  · rw [if_pos float]
  · rw [if_neg float]
    have rounded := exact' first (by simpa using float)
    obtain ⟨n, value, _⟩ := signed_toRat first (by simpa using float)
    rw [value, Rat.num_intCast] at rounded ⊢
    cases y with
    | byte | uint16 | uint32 => cases second
    | int16 | int32 =>
      cases x with
      | int16 | int32 => rfl
      | byte | uint16 | uint32 => cases first
      | float32 | float64 => exact absurd rfl float
    | float32 =>
      cases x with
      | int16 | int32 => exact congrArg Int.cast rounded
      | byte | uint16 | uint32 => cases first
      | float32 | float64 => exact absurd rfl float
    | float64 =>
      cases x with
      | int16 | int32 => exact congrArg Int.cast rounded
      | byte | uint16 | uint32 => cases first
      | float32 | float64 => exact absurd rfl float

theorem commonType_comm (x y : Value) : commonType x y = commonType y x := by
  cases x <;> cases y <;> rfl

theorem cmp_unsigned (first : x.isUnsigned = true) (second : y.isUnsigned = true)
    (c : Comparison) : Cmp (.comparison c) x y = .ok (holds c x y) := by
  unfold Cmp apply holds counted
  rw [convert_unsigned first second, commonType_comm, convert_unsigned second first]
  simp [first, second]

theorem cmp_signed (first : x.isUnsigned = false) (second : y.isUnsigned = false)
    (exact₁ : ConvertsExactly x y) (exact₂ : ConvertsExactly y x) (c : Comparison) :
    Cmp (.comparison c) x y = .ok (holds c x y) := by
  unfold Cmp apply holds counted
  rw [convert_signed first second exact₁, commonType_comm, convert_signed second first exact₂]
  simp [first, second]

theorem relate_of_lt (less : a < b) (c : Comparison) :
    relate a b c = (c = .notEqual ∨ c = .less ∨ c = .lessEql) := by
  cases c <;> simp [relate, less, less.ne, less.le, not_lt_of_ge less.le]

theorem relate_of_gt (greater : b < a) (c : Comparison) :
    relate a b c = (c = .notEqual ∨ c = .greater ∨ c = .greaterEql) := by
  cases c <;> simp [relate, greater, greater.ne', greater.le, not_lt_of_ge greater.le]

theorem relate_self (a : ℚ) (c : Comparison) :
    relate a a c = (c = .equal ∨ c = .greaterEql ∨ c = .lessEql) := by
  cases c <;> simp [relate]

/-- Against an integer, only a tie after the fraction is dropped makes a difference. -/
theorem relate_floor (n : Nat) (b : ℚ) (c : Comparison) :
    relate n ⌊b⌋ c = relate n b c ↔
      ((⌊b⌋ : ℚ) = n → b = n ∨ c = .greater ∨ c = .lessEql) := by
  have low : (⌊b⌋ : ℚ) ≤ b := Int.floor_le b
  have high : b < ⌊b⌋ + 1 := Int.lt_floor_add_one b
  rcases lt_trichotomy (⌊b⌋ : ℚ) n with below | tie | above
  · have next : (⌊b⌋ : ℚ) + 1 ≤ n := by exact_mod_cast below
    have same : relate n ⌊b⌋ c = relate n b c :=
      Bool.eq_iff_iff.mpr (by rw [relate_of_gt below, relate_of_gt (by linarith : b < n)])
    exact iff_of_true same fun tie => absurd tie below.ne
  · rw [tie]
    by_cases whole : b = n
    · rw [whole]
      simp
    · have more : (n : ℚ) < b := lt_of_le_of_ne (tie ▸ low) (Ne.symm whole)
      rw [Bool.eq_iff_iff, relate_self, relate_of_lt more]
      cases c <;> simp [whole]
  · have same : relate n ⌊b⌋ c = relate n b c :=
      Bool.eq_iff_iff.mpr (by rw [relate_of_lt above, relate_of_lt (by linarith : n < b)])
    exact iff_of_true same fun tie => absurd tie above.ne'

theorem counted_negative (signed : x.isUnsigned = false) (unsigned : y.isUnsigned = true)
    (negative : x.toRat < 0) : counted x y = 0 := by
  unfold counted
  rw [if_pos ⟨unsigned, by simp [signed], negative⟩]

theorem counted_nonneg (nonneg : ¬ x.toRat < 0) (y : Value) : counted x y = x.toRat := by
  unfold counted
  rw [if_neg (fun both => nonneg both.2.2)]

/-- An unsigned integer against a signed integer or a floating point number. -/
theorem usCmp_iff (first : x.isUnsigned = true) (second : y.isUnsigned = false)
    (c : Comparison) : USCmp (.comparison c) x y = .ok (holds c x y) ↔
      (y.isFloat → WholeEnough c x.toRat y.toRat) := by
  obtain ⟨n, value, small⟩ := unsigned_toRat first
  have left : counted x y = x.toRat := by
    apply counted_nonneg
    rw [value, not_lt]
    exact Nat.cast_nonneg n
  unfold USCmp holds
  by_cases negative : y.toRat < 0
  · have floored : dapFloorZero y = .ok 0 := by
      unfold dapFloorZero
      rw [if_pos negative]
    rw [floored, left, counted_negative second first negative]
    exact iff_of_true rfl fun _ => .inl negative
  · rw [left, counted_nonneg negative]
    by_cases inRange : y.toRat < 2 ^ 64
    · have floored : dapFloorZero y = .ok ⌊y.toRat⌋ := by
        unfold dapFloorZero
        rw [if_neg negative, if_pos inRange]
      rw [floored, value]
      change Except.ok (relate n ⌊y.toRat⌋ c) = .ok (relate n y.toRat c) ↔ _
      rw [Except.ok.injEq, relate_floor]
      cases float : y.isFloat with
      | true => simp [WholeEnough, negative, inRange]
      | false =>
        obtain ⟨k, value', _⟩ := signed_toRat second float
        rw [value', Int.floor_intCast]
        simp only [Bool.false_eq_true, false_implies, iff_true]
        exact fun same => .inl same
    · have floored : dapFloorZero y = .error .undefinedBehaviour := by
        unfold dapFloorZero
        rw [if_neg negative, if_neg inRange]
      rw [floored]
      refine iff_of_false (fun same => by cases same) ?_
      intro whole
      cases float : y.isFloat with
      | true =>
        rcases whole float with below | ⟨below, _⟩
        · exact negative below
        · exact inRange below
      | false =>
        obtain ⟨k, value', bound⟩ := signed_toRat second float
        apply inRange
        rw [value']
        have : (k : ℚ) < 2 ^ 32 := by exact_mod_cast bound
        linarith

theorem suCmp_mirror (x y : Value) (c : Comparison) :
    SUCmp (.comparison c) x y = USCmp (.comparison (mirror c)) y x := by
  unfold SUCmp USCmp
  cases dapFloorZero x with
  | error failure => rfl
  | ok floored => exact congrArg Except.ok (relate_mirror floored y.toRat c)

theorem holds_mirror (x y : Value) (c : Comparison) : holds c x y = holds (mirror c) y x :=
  relate_mirror _ _ c

theorem float_signed (float : x.isFloat = true) : x.isUnsigned = false := by
  cases x <;> first | rfl | cases float

/-- For every pair of types: one comparison is right exactly if no fraction decides it. -/
theorem ops_iff (exact₁ : ConvertsExactly x y) (exact₂ : ConvertsExactly y x) (c : Comparison) :
    ops' c x y = .ok (holds c x y) ↔ Faithful c x y := by
  unfold Faithful
  cases first : x.isUnsigned with
  | true =>
    have integer : ¬ x.isFloat = true := fun float => by simp [float_signed float] at first
    rw [ops_unsigned first]
    cases second : y.isUnsigned with
    | true =>
      have integer' : ¬ y.isFloat = true := fun float => by simp [float_signed float] at second
      rw [if_pos rfl, cmp_unsigned first second]
      simp [integer, integer']
    | false =>
      rw [if_neg (by simp), usCmp_iff first second]
      simp
  | false =>
    rw [ops_signed first]
    cases second : y.isUnsigned with
    | true =>
      rw [if_pos rfl, suCmp_mirror, holds_mirror, usCmp_iff second first]
      simp
    | false =>
      rw [if_neg (by simp), cmp_signed first second exact₁ exact₂]
      simp

theorem mirror_mirror (c : Comparison) : mirror (mirror c) = c := by
  cases c <;> rfl

/-- `x op c` and `c op' x` come to the same, whatever it is. -/
theorem ops_mirror (x y : Value) (c : Comparison) : ops' c x y = ops' (mirror c) y x := by
  have cmp : Cmp (.comparison c) x y = Cmp (.comparison (mirror c)) y x := by
    unfold Cmp
    rw [commonType_comm]
    exact congrArg Except.ok (relate_mirror _ _ c)
  cases first : x.isUnsigned with
  | true =>
    rw [ops_unsigned first]
    cases second : y.isUnsigned with
    | true =>
      rw [ops_unsigned second, first]
      exact cmp
    | false =>
      rw [ops_signed second, first]
      simp only [if_true, Bool.false_eq_true, if_false]
      rw [suCmp_mirror, mirror_mirror]
  | false =>
    rw [ops_signed first]
    cases second : y.isUnsigned with
    | true =>
      rw [ops_unsigned second, first]
      simp only [if_true, Bool.false_eq_true, if_false]
      exact suCmp_mirror x y c
    | false =>
      rw [ops_signed second, first]
      exact cmp

/-- The cast of a floating point number to an integer has a meaning. -/
def CastDefined (x y : Value) : Prop :=
  (x.isUnsigned → y.isFloat → y.toRat < 2 ^ 64) ∧ (x.isFloat → y.isUnsigned → x.toRat < 2 ^ 64)

theorem dapFloorZero_defined (inRange : x.toRat < 2 ^ 64) : ∃ a, dapFloorZero x = .ok a := by
  unfold dapFloorZero
  by_cases negative : x.toRat < 0
  · rw [if_pos negative]
    exact ⟨_, rfl⟩
  · rw [if_neg negative, if_pos inRange]
    exact ⟨_, rfl⟩

theorem small_unless_float (signed : x.isUnsigned = false)
    (float : x.isFloat → x.toRat < 2 ^ 64) : x.toRat < 2 ^ 64 := by
  cases whole : x.isFloat with
  | true => exact float whole
  | false =>
    obtain ⟨n, value, small⟩ := signed_toRat signed whole
    rw [value]
    have : (n : ℚ) < 2 ^ 32 := by exact_mod_cast small
    linarith

/-- All comparisons of two values are comparisons of the same two numbers. -/
theorem ops_relate (inRange : CastDefined x y) : ∃ a b, ∀ c, ops' c x y = .ok (relate a b c) := by
  cases first : x.isUnsigned with
  | true =>
    cases second : y.isUnsigned with
    | true =>
      refine ⟨convert (commonType x y) x, convert (commonType x y) y, fun c => ?_⟩
      rw [ops_unsigned first, if_pos second]
      rfl
    | false =>
      obtain ⟨b, floored⟩ := dapFloorZero_defined (small_unless_float second (inRange.1 first))
      refine ⟨x.toRat, b, fun c => ?_⟩
      rw [ops_unsigned first, if_neg (by simp [second])]
      unfold USCmp
      rw [floored]
      rfl
  | false =>
    cases second : y.isUnsigned with
    | true =>
      obtain ⟨a, floored⟩ :=
        dapFloorZero_defined (small_unless_float first fun float => inRange.2 float second)
      refine ⟨a, y.toRat, fun c => ?_⟩
      rw [ops_signed first, if_pos second]
      unfold SUCmp
      rw [floored]
      rfl
    | false =>
      refine ⟨convert (commonType x y) x, convert (commonType x y) y, fun c => ?_⟩
      rw [ops_signed first, if_neg (by simp [second])]
      rfl

/-- Exactly one of `=`, `<` and `>`, and `!=` if not `=`. -/
def Consistent (x y : Value) : Prop :=
  ∃ equal less greater : Bool,
    ops' .equal x y = .ok equal ∧ ops' .less x y = .ok less ∧ ops' .greater x y = .ok greater ∧
    ops' .notEqual x y = .ok (!equal) ∧
    [equal, less, greater].count true = 1

theorem consistent (inRange : CastDefined x y) : Consistent x y := by
  obtain ⟨a, b, compared⟩ := ops_relate inRange
  refine ⟨_, _, _, compared .equal, compared .less, compared .greater, ?_, ?_⟩
  · rw [compared]
    simp [relate]
  · rcases lt_trichotomy a b with less | equal | greater
    · simp [relate, less, less.ne, not_lt_of_ge less.le]
    · simp [relate, equal]
    · simp [relate, greater, greater.ne', not_lt_of_ge greater.le]

/-- The clause `x op {c1, ..., cn}`. -/
structure Test where
  op : Comparison
  x : Value
  args : List Value

def Test.clause (t : Test) : Clause :=
  .relation (.comparison t.op) ⟨t.x, true⟩ (t.args.map fun arg => ⟨arg, true⟩)

def evaluate (sel : List Test) : Except Failure Bool := evalSelection (sel.map Test.clause)

/-- For every clause there is some argument for which the comparison holds. -/
def Specified (sel : List Test) : Prop := ∀ t ∈ sel, ∃ arg ∈ t.args, holds t.op t.x arg = true

/-- The selection evaluates to whether it holds. -/
def Right (sel : List Test) : Prop :=
  ∃ result, evaluate sel = .ok result ∧ (result = true ↔ Specified sel)

theorem anyHolds_right {op : Comparison} (args : List Value)
    (each : ∀ arg ∈ args, ops' op x arg = .ok (holds op x arg)) :
    anyHolds ⟨x, true⟩ (.comparison op) (args.map fun arg => ⟨arg, true⟩) =
      .ok (args.any fun arg => holds op x arg) := by
  induction args with
  | nil => rfl
  | cons arg args ih =>
    have first : ops ⟨x, true⟩ ⟨arg, true⟩ (.comparison op) = .ok (holds op x arg) :=
      each arg List.mem_cons_self
    have rest := ih fun arg' mem => each arg' (List.mem_cons_of_mem arg mem)
    rw [List.map_cons, anyHolds, first, List.any_cons]
    cases holds op x arg with
    | true => rfl
    | false => exact rest

theorem evaluate_right (sel : List Test)
    (each : ∀ t ∈ sel, ∀ arg ∈ t.args, ops' t.op t.x arg = .ok (holds t.op t.x arg)) :
    evaluate sel = .ok (sel.all fun t => t.args.any fun arg => holds t.op t.x arg) := by
  unfold evaluate
  induction sel with
  | nil => rfl
  | cons t sel ih =>
    have first : t.clause.value = .ok (t.args.any fun arg => holds t.op t.x arg) :=
      anyHolds_right t.args (each t List.mem_cons_self)
    have rest := ih fun t' mem => each t' (List.mem_cons_of_mem t mem)
    rw [List.map_cons, evalSelection, first, List.all_cons]
    cases t.args.any fun arg => holds t.op t.x arg with
    | true => exact rest
    | false => rfl

theorem right_of_faithful (sel : List Test)
    (each : ∀ t ∈ sel, ∀ arg ∈ t.args, ops' t.op t.x arg = .ok (holds t.op t.x arg)) :
    Right sel := by
  refine ⟨_, evaluate_right sel each, ?_⟩
  simp [Specified]

/-- A single comparison as a selection. -/
theorem right_single (op : Comparison) (x arg : Value) :
    Right [⟨op, x, [arg]⟩] ↔ ops' op x arg = .ok (holds op x arg) := by
  have value : evaluate [⟨op, x, [arg]⟩] = ops' op x arg := by
    change evalSelection [.relation (.comparison op) ⟨x, true⟩ [⟨arg, true⟩]] =
      ops ⟨x, true⟩ ⟨arg, true⟩ (.comparison op)
    rw [evalSelection, Clause.value, anyHolds]
    cases ops ⟨x, true⟩ ⟨arg, true⟩ (.comparison op) with
    | error failure => rfl
    | ok result => cases result <;> rfl
  have specified : Specified [⟨op, x, [arg]⟩] ↔ holds op x arg = true := by simp [Specified]
  unfold Right
  rw [value, specified]
  constructor
  · rintro ⟨result, same, iff⟩
    rw [same, Bool.eq_iff_iff.mpr iff]
  · intro same
    exact ⟨_, same, Iff.rfl⟩

/-- The selection, and each comparison in it as a selection of its own. -/
def AllRight (sel : List Test) : Prop :=
  Right sel ∧ ∀ t ∈ sel, ∀ arg ∈ t.args, Right [⟨t.op, t.x, [arg]⟩]

/-- For every selection whose signed integers convert exactly: it evaluates as it should, in
whole and in its comparisons, exactly if no comparison with an unsigned integer is decided
by a fraction. Whatever the values, the operators agree with one another. -/
theorem allRight_iff (sel : List Test)
    (exact' : ∀ t ∈ sel, ∀ arg ∈ t.args, ConvertsExactly t.x arg ∧ ConvertsExactly arg t.x) :
    (AllRight sel ↔ ∀ t ∈ sel, ∀ arg ∈ t.args, Faithful t.op t.x arg) ∧
      ∀ x y, (CastDefined x y → Consistent x y) ∧ ∀ op, ops' op x y = ops' (mirror op) y x := by
  refine ⟨?_, fun x y => ⟨consistent, ops_mirror x y⟩⟩
  constructor
  · rintro ⟨_, each⟩ t mem arg inside
    obtain ⟨exact₁, exact₂⟩ := exact' t mem arg inside
    exact (ops_iff exact₁ exact₂ t.op).mp ((right_single _ _ _).mp (each t mem arg inside))
  · intro faithful
    have each : ∀ t ∈ sel, ∀ arg ∈ t.args, ops' t.op t.x arg = .ok (holds t.op t.x arg) := by
      intro t mem arg inside
      obtain ⟨exact₁, exact₂⟩ := exact' t mem arg inside
      exact (ops_iff exact₁ exact₂ t.op).mpr (faithful t mem arg inside)
    exact ⟨right_of_faithful sel each, fun t mem arg inside =>
      (right_single _ _ _).mpr (each t mem arg inside)⟩

/-- `-2 < {1, 7}` and `3 = 3`. -/
def twoTests : List Test :=
  [⟨.less, .int16 (-2), [.uint32 1, .uint32 7]⟩, ⟨.equal, .int32 3, [.int32 3]⟩]

theorem twoTests_all {P : Test → Value → Prop} (uint : ∀ n, P ⟨.less, .int16 (-2),
    [.uint32 1, .uint32 7]⟩ (.uint32 n)) (int : P ⟨.equal, .int32 3, [.int32 3]⟩ (.int32 3)) :
    ∀ t ∈ twoTests, ∀ arg ∈ t.args, P t arg := by
  intro t mem arg inside
  simp only [twoTests, List.mem_cons, List.not_mem_nil, or_false] at mem
  rcases mem with rfl | rfl
  · simp only [List.mem_cons, List.not_mem_nil, or_false] at inside
    rcases inside with rfl | rfl
    · exact uint 1
    · exact uint 7
  · cases List.mem_singleton.mp inside
    exact int

theorem allRight_iff_ints : AllRight twoTests := by
  have exact' : ∀ t ∈ twoTests, ∀ arg ∈ t.args,
      ConvertsExactly t.x arg ∧ ConvertsExactly arg t.x :=
    twoTests_all (fun _ => ⟨fun _ _ => trivial, fun unsigned => by cases unsigned⟩)
      ⟨fun _ _ => trivial, fun _ _ => trivial⟩
  refine (allRight_iff _ exact').1.mpr (twoTests_all (fun n => ?_) ?_)
  · exact ⟨fun unsigned => (by cases unsigned), fun float => (by cases float)⟩
  · exact ⟨fun unsigned => (by cases unsigned), fun unsigned => (by cases unsigned)⟩

/-- The UInt32 1 is found equal to 1.5. -/
theorem allRight_fails : ¬ Right [⟨.equal, .uint32 1, [.float64 (3 / 2)]⟩] := by
  have floored : ((⌊(3 / 2 : ℚ)⌋ : Int) : ℚ) = 1 := by norm_num
  have one : (Value.uint32 1).toRat = 1 := by
    change ((1 : Nat) : ℚ) = 1
    norm_num
  rw [right_single, ops_unsigned rfl, if_neg (by decide), usCmp_iff rfl rfl, one]
  intro whole
  change true = true → WholeEnough .equal 1 (3 / 2) at whole
  rcases whole rfl with negative | ⟨_, tie⟩
  · norm_num at negative
  · rcases tie floored with same | same | same
    · norm_num at same
    · cases same
    · cases same

end Libdap.Guarantees.Selection
