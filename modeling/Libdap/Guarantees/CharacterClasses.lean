import Libdap.Source.Glob
import Mathlib.Tactic

/-!
# The class table of `globchars`

The table has a bit for each of the first 128 characters. It is filled from the text up to and
including the closing bracket.
-/
namespace Libdap.Guarantees.CharacterClasses
open Libdap.Source Libdap.Source.Glob

/-- The ranges that a set lists; a single character is a range of one. -/
def ranges : Text → List (UInt8 × UInt8)
  | [] => []
  | x :: d :: y :: rest =>
    if d = dash then (x, y) :: ranges rest else (x, x) :: ranges (d :: y :: rest)
  | x :: rest => (x, x) :: ranges rest

/-- The characters of a set, without the caret that negates it. -/
def listed (set : Text) : List (UInt8 × UInt8) :=
  ranges (if set.head? = some caret then set.tail else set)

/-- A set with its caret: a set that begins with one is that of the other characters. -/
def negated (set : Text) (inside : Prop) : Prop :=
  if set.head? = some caret then ¬ inside else inside

/-- The bit of a character. -/
def bit (b : Table) (n : Fin 128) : Bool := b[n.val / 8].getLsbD (n.val % 8)

theorem charValue_lt (c : UInt8) : charValue c < 128 := by
  have bounded := c.toNat_lt
  rw [charValue]
  split <;> omega

theorem bit_set (b : Table) (c n : Fin 128) :
    bit (b.set (c.val / 8) (b[c.val / 8] ||| 1#8 <<< (c.val % 8))) n =
      (bit b n || decide (n = c)) := by
  have small : n.val % 8 < 8 := Nat.mod_lt _ (by decide)
  have halves := Nat.div_add_mod n.val 8
  have halves' := Nat.div_add_mod c.val 8
  rw [bit, bit, Vector.getElem_set]
  by_cases same : c.val / 8 = n.val / 8
  · by_cases equal : n = c
    · have position : c.val % 8 < 8 := Nat.mod_lt _ (by decide)
      simp [equal, position]
    · have apart : ¬ n.val % 8 = c.val % 8 := fun low => equal (Fin.ext (by omega))
      simp [same, equal, small]
      omega
  · have apart : n ≠ c := fun equal => same (by rw [equal])
    simp [same, apart]

theorem setBit_inside (b : Table) {c : Int} (low : 0 ≤ c) (high : c < 128) :
    ∃ b', setBit b c = .ok b' ∧
      ∀ n : Fin 128, bit b' n = (bit b n || decide ((n.val : Int) = c)) := by
  have inside : 0 ≤ c ∧ c.toNat / 8 < 16 := by omega
  rw [setBit, dif_pos inside]
  refine ⟨_, rfl, fun n => ?_⟩
  have same : n.val = c.toNat ↔ (n.val : Int) = c := by omega
  rw [bit_set b ⟨c.toNat, by omega⟩ n, decide_eq_decide.mpr (Fin.ext_iff.trans same)]

theorem setBit_outside (b : Table) {c : Int} (low : c < 0) : setBit b c = .error .outsideTable :=
  dif_neg (by omega)

/-- The numbers that the loop over a range goes through. -/
def inRange (r : UInt8 × UInt8) (n : Int) : Prop := charValue r.1 ≤ n ∧ n ≤ charValue r.2

instance (r : UInt8 × UInt8) (n : Int) : Decidable (inRange r n) :=
  inferInstanceAs (Decidable (_ ∧ _))

/-- A range that is not empty does not begin with a negative character. -/
def fits (r : UInt8 × UInt8) : Prop := charValue r.1 ≤ charValue r.2 → 0 ≤ charValue r.1

theorem setRange_spec (b : Table) (c last : Int) (high : last < 128) :
    ((c ≤ last → 0 ≤ c) → ∃ b', setRange b c last = .ok b' ∧
      ∀ n : Fin 128, bit b' n = (bit b n || decide (c ≤ n.val ∧ (n.val : Int) ≤ last))) ∧
    (¬ (c ≤ last → 0 ≤ c) → setRange b c last = .error .outsideTable) := by
  fun_induction setRange b c last with
  | case1 b c more ih =>
    constructor
    · intro low
      obtain ⟨b', set, here⟩ := setBit_inside b (low more) (by omega)
      obtain ⟨b'', rest, there⟩ := (ih b').1 (by omega)
      refine ⟨b'', by rw [set]; exact rest, fun n => ?_⟩
      rw [there, here, Bool.or_assoc, ← Bool.decide_or]
      exact congrArg _ (decide_eq_decide.mpr (by omega))
    · intro negative
      rw [setBit_outside b (by omega)]
      rfl
  | case2 b c done =>
    refine ⟨fun _ => ⟨b, rfl, fun n => ?_⟩, fun negative => absurd negative (by omega)⟩
    rw [decide_eq_false (by omega), Bool.or_false]

theorem setBit_eq_setRange (b : Table) (x : UInt8) :
    setBit b (charValue x) = setRange b (charValue x) (charValue x) := by
  rw [setRange, if_pos le_rfl]
  cases set : setBit b (charValue x) with
  | error fault => rfl
  | ok b' =>
    have done : setRange b' (charValue x + 1) (charValue x) = .ok b' := by
      rw [setRange, if_neg (by omega)]
    exact done.symm

/-- Setting the bits of one range and then of the others. -/
theorem setRange_bind {b : Table} {r : UInt8 × UInt8} {rs : List (UInt8 × UInt8)}
    {rest : Table → Except Fault Table}
    (later : ∀ b, ((∀ q ∈ rs, fits q) → ∃ b', rest b = .ok b' ∧
        ∀ n : Fin 128, bit b' n = (bit b n || decide (∃ q ∈ rs, inRange q n.val))) ∧
      (¬ (∀ q ∈ rs, fits q) → rest b = .error .outsideTable)) :
    ((∀ q ∈ r :: rs, fits q) →
      ∃ b', (setRange b (charValue r.1) (charValue r.2) >>= rest) = .ok b' ∧
        ∀ n : Fin 128, bit b' n = (bit b n || decide (∃ q ∈ r :: rs, inRange q n.val))) ∧
      (¬ (∀ q ∈ r :: rs, fits q) →
        (setRange b (charValue r.1) (charValue r.2) >>= rest) = .error .outsideTable) := by
  have range := setRange_spec b (charValue r.1) (charValue r.2) (charValue_lt _)
  rw [List.forall_mem_cons]
  by_cases first : fits r
  · obtain ⟨b', set, here⟩ := range.1 first
    rw [set, and_iff_right first]
    refine ⟨fun others => ?_, (later b').2⟩
    obtain ⟨b'', done, there⟩ := (later b').1 others
    refine ⟨b'', done, fun n => ?_⟩
    rw [there, here, Bool.or_assoc, ← Bool.decide_or]
    exact congrArg _ (decide_eq_decide.mpr (by simp [inRange]))
  · rw [range.2 first]
    exact ⟨fun all => absurd all.1 first, fun _ => rfl⟩

theorem setChars_spec (b : Table) (s : Text) :
    ((∀ q ∈ ranges s, fits q) → ∃ b', setChars b s = .ok b' ∧
        ∀ n : Fin 128, bit b' n = (bit b n || decide (∃ q ∈ ranges s, inRange q n.val))) ∧
      (¬ (∀ q ∈ ranges s, fits q) → setChars b s = .error .outsideTable) := by
  fun_induction ranges s generalizing b with
  | case1 => simp [setChars]
  | case2 x y rest ih =>
    rw [setChars, if_pos rfl]
    exact setRange_bind ih
  | case3 x d y rest other ih =>
    rw [setChars, if_neg other, setBit_eq_setRange]
    exact setRange_bind ih
  | case4 x rest short ih =>
    rw [setChars, setBit_eq_setRange]
    · exact setRange_bind ih
    · exact short

theorem bit_flip (b : Table) (n : Fin 128) : bit (b.map (· ^^^ 0xFF#8)) n = !bit b n := by
  have small : n.val % 8 < 8 := Nat.mod_lt _ (by decide)
  have ones : ∀ k : Fin 8, (0xFF#8).getLsbD k.val = true := by decide
  rw [bit, bit, Vector.getElem_map, BitVec.getLsbD_xor, ones ⟨_, small⟩, Bool.xor_true]

theorem bit_masked (b : Table) {i : Nat} (inside : i < 16) (mask : BitVec 8) (n : Fin 128) :
    bit (b.set i (b[i] &&& mask)) n =
      (bit b n && (!decide (n.val / 8 = i) || mask.getLsbD (n.val % 8))) := by
  rw [bit, bit, Vector.getElem_set]
  by_cases own : i = n.val / 8
  · rw [if_pos own, BitVec.getLsbD_and]
    simp [← own]
  · rw [if_neg own, decide_eq_false (Ne.symm own), Bool.not_false, Bool.true_or, Bool.and_true]

/-- The mask `0376` on the first byte takes only the first bit. -/
theorem mask_first (n : Fin 128) :
    (!decide (n.val / 8 = 0) || (0xFE#8).getLsbD (n.val % 8)) = !decide (n.val = 0) := by
  have small : n.val % 8 < 8 := Nat.mod_lt _ (by decide)
  have zeros : ∀ k : Fin 8, (0xFE#8).getLsbD k.val = !decide (k.val = 0) := by decide
  have halves := Nat.div_add_mod n.val 8
  have same : n.val = 0 ↔ n.val / 8 = 0 ∧ n.val % 8 = 0 := by omega
  rw [zeros ⟨_, small⟩, ← Bool.not_and, ← Bool.decide_and, decide_eq_decide.mpr same]

theorem bit_empty (n : Fin 128) : bit (Vector.replicate 16 0#8) n = false := by
  simp [bit]

theorem mask_test (v : BitVec 8) {k : Nat} (small : k < 8) :
    v &&& 1#8 <<< k ≠ 0#8 ↔ v.getLsbD k = true := by
  have bits : ∀ i, i < 8 → (v &&& 1#8 <<< k).getLsbD i = (v.getLsbD i && decide (i = k)) := by
    intro i inside
    have single : (1#8 <<< k).getLsbD i = decide (i = k) := by
      rw [BitVec.getLsbD_shiftLeft, BitVec.getLsbD_one]
      simp only [inside, decide_true, Bool.true_and]
      by_cases below : i < k
      · simp [below, Nat.ne_of_lt below]
      · simp [below]
        omega
    rw [BitVec.getLsbD_and, single]
  constructor
  · intro some
    by_contra off
    refine some (BitVec.eq_of_getLsbD_eq fun i inside => ?_)
    rw [bits i inside]
    by_cases here : i = k
    · simpa [here] using off
    · simp [here]
  · intro on none
    have here := bits k small
    simp [none, on] at here

theorem checkBit_inside (b : Table) {x : UInt8} (small : x.toNat < 128) :
    checkBit b x = .ok (bit b ⟨x.toNat, small⟩) := by
  have inside : x.toNat / 8 < 16 := by omega
  have position : x.toNat % 8 < 8 := Nat.mod_lt _ (by decide)
  rw [checkBit, dif_pos inside, bit]
  exact congrArg Except.ok (Bool.eq_iff_iff.mpr
    (decide_eq_true_iff.trans (mask_test b[x.toNat / 8] position)))

theorem checkBit_outside (b : Table) {x : UInt8} (large : 128 ≤ x.toNat) :
    checkBit b x = .error .outsideTable :=
  dif_neg (by omega)

/-- The characters for which the table has a bit set: zero is in no set. -/
def inSet (set : Text) (n : Nat) : Prop :=
  negated set (∃ q ∈ listed set, inRange q n) ∧ n ≠ 0

/-- Every range that a set lists fits into the table. -/
def fitsTable (set : Text) : Prop := ∀ q ∈ listed set, fits q

theorem globchars_spec (set : Text) :
    (fitsTable set → ∃ b, globchars set = .ok b ∧ ∀ n : Fin 128, bit b n = true ↔ inSet set n) ∧
      (¬ fitsTable set → globchars set = .error .outsideTable) := by
  have filled := setChars_spec (Vector.replicate 16 0#8)
    (if set.head? = some caret then set.tail else set)
  constructor
  · intro fit
    obtain ⟨b, set_, here⟩ := filled.1 fit
    rw [globchars, set_]
    refine ⟨_, rfl, fun n => ?_⟩
    rw [bit_masked, mask_first, inSet, negated]
    split
    · rw [bit_flip, here, bit_empty]
      simp [listed]
    · rw [here, bit_empty]
      simp [listed]
  · intro outside
    rw [globchars, filled.2 outside]
    rfl

end Libdap.Guarantees.CharacterClasses
