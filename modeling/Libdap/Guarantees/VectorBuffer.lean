import Libdap.Guarantees.ArrayConstraint
import Libdap.Library.Outcome
import Libdap.Source.Vectors

/-!
# The buffer of a Vector and its capacity

A buffer is made for a number of elements that is multiplied with their width in 32 bits; a
copy makes its buffer for the length, and takes over the capacity.
-/
namespace Libdap.Guarantees.VectorBuffer
open Libdap.Library Libdap.Source Libdap.Source.Array Libdap.Source.Vectors

/-- The buffer, if there is one, holds exactly as many elements as the capacity says. -/
def HoldsCapacity (v : Vector) : Prop :=
  ∀ buf, v.buf = some buf → buf.length = v.capacity * v.var.width

/-- No copy goes beyond a buffer. -/
def InBounds {α : Type} (result : Except Failure α) : Prop := result ≠ .error .undefinedBehaviour

/-- Reading the whole Vector, as far as there is room for its elements. -/
def Readable (v : Vector) : Prop :=
  0 ≤ v.length → v.length ≤ v.capacity → InBounds v.buf2val ∧ InBounds v.value

/-- In every state the buffers agree with the capacities and can be read, and no step copies
out of bounds. A step that raises ends the sequence. -/
def AlwaysRight : Pool → List Step → Prop
  | s, [] => ∀ v ∈ s, HoldsCapacity v ∧ Readable v
  | s, next :: steps => (∀ v ∈ s, HoldsCapacity v ∧ Readable v) ∧ InBounds (step s next) ∧
    ∀ s', step s next = .ok s' → AlwaysRight s' steps

/-- The elements take less than 2^32 bytes. -/
def Small (var : CardType) (n : Nat) : Prop := n * var.width < 2 ^ 32

/-- The slice that the checks let pass ends within the numbers of an `unsigned int`, and its
bytes are an `int`. -/
def SliceFits (v row : Vector) (startElement : Nat) : Prop :=
  v.var = row.var → row.readP = true → 0 ≤ row.length → row.length ≤ row.capacity →
    v.buf.isSome → row.buf.isSome →
    (startElement + row.length.toNat) % 2 ^ 32 ≤ v.capacity →
    startElement + row.length.toNat < 2 ^ 32 ∧ row.length.toNat * row.var.width < 2 ^ 31

/-- The length takes as many bytes as the capacity. -/
def CopyFits (v : Vector) : Prop := v.buf.isSome → v.width = v.capacity * v.var.width

/-- What a step needs of the state before it. -/
def Fits (s : Pool) : Step → Prop
  | .new _ | .clearLocalData _ | .setLength _ _ | .setReadP _ _ => True
  | .setValue i type val sz => ∀ v, s[i]? = some v → val.isSome → v.var = type →
    0 ≤ int32 sz → Small v.var (int32 sz).toNat
  | .val2buf i val => ∀ v, s[i]? = some v → val.isSome → Small v.var (uint32 v.length)
  | .reserveValueCapacity i numElements => ∀ v, s[i]? = some v → Small v.var numElements
  | .setValueSlice i rowMajorData startElement => ∀ v row, s[i]? = some v →
    s[rowMajorData]? = some row → SliceFits v row startElement
  | .ptrDuplicate i => ∀ v, s[i]? = some v → CopyFits v
  | .assign i rhs => ∀ w v, s[i]? = some w → s[rhs]? = some v → i ≠ rhs → CopyFits v

def AllFit : Pool → List Step → Prop
  | _, [] => True
  | s, next :: steps => Fits s next ∧ ∀ s', step s next = .ok s' → AllFit s' steps

/-- The invariant of a Vector. -/
structure Sound (v : Vector) : Prop where
  holds : HoldsCapacity v
  empty : v.buf = none → v.capacity = 0
  small : Small v.var v.capacity
  low : -2 ^ 31 ≤ v.length
  high : v.length < 2 ^ 31

variable {v v' row : Vector} {s s' : Pool}

theorem int32_range (n : Int) : -2 ^ 31 ≤ int32 n ∧ int32 n < 2 ^ 31 := by
  unfold int32
  have low := (BitVec.ofInt 32 n).le_toInt
  have high := (BitVec.ofInt 32 n).toInt_lt
  exact ⟨by simpa using low, by simpa using high⟩

theorem memcpy_bounds {dest src : Buffer} {offset n : Nat} :
    InBounds (memcpy dest offset src n) ↔ offset + n ≤ dest.length ∧ n ≤ src.length := by
  unfold InBounds memcpy
  split
  · simp [*]
  · simp [*]

theorem memcpy_length {dest src buf : Buffer} {offset n : Nat}
    (done : memcpy dest offset src n = .ok buf) : buf.length = dest.length := by
  unfold memcpy at done
  split at done
  · cases done
    simp
    omega
  · cases done

theorem memcpyFrom_bounds {dest : Buffer} {val : Nat → UInt8} {n : Nat} :
    InBounds (memcpyFrom dest val n) ↔ n ≤ dest.length := by
  unfold InBounds memcpyFrom
  split
  · simp [*]
  · simp [*]

theorem memcpyFrom_length {dest buf : Buffer} {val : Nat → UInt8} {n : Nat}
    (done : memcpyFrom dest val n = .ok buf) : buf.length = dest.length := by
  unfold memcpyFrom at done
  split at done
  · cases done
    simp
    omega
  · cases done

theorem width_le (var : CardType) : var.width ≤ 8 := by cases var <;> decide

theorem uint32_nonneg {i : Int} (low : 0 ≤ i) (high : i < 2 ^ 31) : uint32 i = i.toNat := by
  unfold uint32
  omega

theorem sizeT_mul {i : Int} (low : 0 ≤ i) (high : i < 2 ^ 31) (var : CardType) :
    sizeT (i * var.width) = i.toNat * var.width := by
  have product : i * var.width = ((i.toNat * var.width : Nat) : Int) := by
    rw [Nat.cast_mul, Int.toNat_of_nonneg low]
  have bound : i.toNat * var.width ≤ 2 ^ 31 * 8 :=
    Nat.mul_le_mul (by omega) (width_le var)
  rw [product]
  unfold sizeT
  omega

/-- The bytes of a sound Vector's elements are its buffer. -/
theorem Sound.readable (sound : Sound v) : Readable v := by
  intro low fits
  have small := sound.small
  unfold Small at small
  have le : v.length.toNat * v.var.width ≤ v.capacity * v.var.width :=
    Nat.mul_le_mul_right _ (by omega)
  have width : v.width = v.length.toNat * v.var.width := by
    unfold Vector.width
    rw [uint32_nonneg low sound.high, Nat.mod_eq_of_lt (by omega)]
  constructor
  · unfold Vector.buf2val
    cases there : v.buf with
    | none => simp [InBounds]
    | some buf =>
      have size := sound.holds buf there
      refine memcpy_bounds.mpr ⟨by simp, ?_⟩
      omega
  · unfold Vector.value
    rw [sizeT_mul low sound.high]
    refine memcpy_bounds.mpr ⟨by simp, ?_⟩
    cases there : v.buf with
    | none =>
      have zero := sound.empty there
      rw [zero] at le
      simpa using le
    | some buf =>
      have size := sound.holds buf there
      simp only [Option.getD_some]
      omega

/-- What is asked of a call on a Vector. -/
def Safe (result : Except Failure Vector) : Prop :=
  InBounds result ∧ ∀ v', result = .ok v' → HoldsCapacity v'

theorem safe_ok : Safe (.ok v) ↔ HoldsCapacity v := by
  unfold Safe InBounds
  simp

theorem safe_raised (text : String) : Safe (.error (.internalErr text)) := by
  unfold Safe InBounds
  simp

/-- A copy into a buffer, and the Vector that then has it. -/
theorem safe_bind {copy : Except Failure Buffer} {f : Buffer → Vector} :
    Safe (copy >>= fun buf => pure (f buf)) ↔
      InBounds copy ∧ ∀ buf, copy = .ok buf → HoldsCapacity (f buf) := by
  cases copy with
  | error failure => simp [Safe, InBounds, bind, Except.bind]
  | ok buf => simp [Safe, InBounds, bind, Except.bind, pure, Except.pure]

theorem created_length (v : Vector) (n : Nat) :
    ((v.createBuffer n).buf.getD []).length = (v.var.width * n) % 2 ^ 32 := by
  simp [Vector.createBuffer]

/-- Whether the product of the bytes overflows. -/
theorem product_mod {var : CardType} {n : Nat} :
    (var.width * n) % 2 ^ 32 = n * var.width ↔ Small var n := by
  unfold Small
  rw [Nat.mul_comm]
  omega

theorem createBuffer_holds {n : Nat} : HoldsCapacity (v.createBuffer n) ↔ Small v.var n := by
  rw [← product_mod]
  unfold HoldsCapacity
  simp [Vector.createBuffer]

theorem Sound.created {n : Nat} (small : Small v.var n) (low : -2 ^ 31 ≤ v.length)
    (high : v.length < 2 ^ 31) : Sound (v.createBuffer n) where
  holds := createBuffer_holds.mpr small
  empty := by simp [Vector.createBuffer]
  small := small
  low := low
  high := high

/-- The same Vector with other bytes. -/
theorem Sound.refilled {buf buf' : Buffer} (readP : Bool) (sound : Sound v)
    (there : v.buf = some buf) (length : buf'.length = buf.length) :
    Sound { v with buf := some buf', readP := readP } where
  holds := by
    intro b same
    cases same
    exact length.trans (sound.holds buf there)
  empty := by simp
  small := sound.small
  low := sound.low
  high := sound.high

/-- A buffer is made for `n` elements, and `m` bytes of the caller's are copied into it. -/
theorem fill_safe (w : Vector) (n m : Nat) (val : Nat → UInt8) (readP : Bool) :
    Safe (memcpyFrom ((w.createBuffer n).buf.getD []) val m >>= fun buf =>
      pure { w.createBuffer n with buf := some buf, readP := readP }) ↔
        m ≤ (w.var.width * n) % 2 ^ 32 ∧ Small w.var n := by
  rw [safe_bind, memcpyFrom_bounds, created_length]
  apply and_congr_right
  intro fits
  rw [← product_mod]
  constructor
  · intro holds
    cases done : memcpyFrom ((w.createBuffer n).buf.getD []) val m with
    | error failure =>
      unfold memcpyFrom at done
      rw [created_length, if_pos fits] at done
      cases done
    | ok buf =>
      have length := memcpyFrom_length done
      rw [created_length] at length
      exact length.symm.trans (holds buf done buf rfl)
  · intro bytes buf done b same
    cases same
    have length := memcpyFrom_length done
    rw [created_length] at length
    exact length.trans bytes

theorem fill_sound {w : Vector} {n m : Nat} {val : Nat → UInt8} (readP : Bool)
    (small : Small w.var n) (low : -2 ^ 31 ≤ w.length) (high : w.length < 2 ^ 31)
    (done : (memcpyFrom ((w.createBuffer n).buf.getD []) val m >>= fun buf =>
      pure { w.createBuffer n with buf := some buf, readP := readP }) = .ok v') : Sound v' := by
  obtain ⟨buf, copied, rest⟩ := bind_success done
  cases rest
  apply (Sound.created small low high).refilled readP rfl
  have length := memcpyFrom_length copied
  rw [created_length] at length
  rw [length, List.length_replicate]

theorem setCardinalValues_eq (v : Vector) (val : Nat → UInt8) {n : Int} (low : 0 ≤ n)
    (high : n < 2 ^ 31) :
    v.setCardinalValues val n =
      memcpyFrom (((v.setLength n).createBuffer n.toNat).buf.getD []) val (n.toNat * v.var.width)
        >>= fun buf => pure
          { (v.setLength n).createBuffer n.toNat with buf := some buf, readP := true } := by
  unfold Vector.setCardinalValues
  rw [if_neg (by omega), uint32_nonneg low high, ← sizeT_mul low high]
  rfl

theorem setLength_range (v : Vector) (l : Int) :
    -2 ^ 31 ≤ (v.setLength l).length ∧ (v.setLength l).length < 2 ^ 31 :=
  int32_range l

theorem setCardinalValues_safe (v : Vector) (val : Nat → UInt8) {n : Int} (high : n < 2 ^ 31) :
    Safe (v.setCardinalValues val n) ↔ (0 ≤ n → Small v.var n.toNat) := by
  by_cases low : 0 ≤ n
  · rw [setCardinalValues_eq v val low high, fill_safe, forall_prop_of_true low]
    change n.toNat * v.var.width ≤ v.var.width * n.toNat % 2 ^ 32 ∧ Small v.var n.toNat ↔ _
    apply and_iff_right_of_imp
    intro small
    exact Nat.le_of_eq (product_mod.mpr small).symm
  · unfold Vector.setCardinalValues
    rw [if_pos (by omega)]
    exact iff_of_true (safe_raised _) fun nonneg => absurd nonneg low

theorem setCardinalValues_sound {val : Nat → UInt8} {n : Int} (high : n < 2 ^ 31)
    (small : 0 ≤ n → Small v.var n.toNat) (done : v.setCardinalValues val n = .ok v') :
    Sound v' := by
  by_cases low : 0 ≤ n
  · rw [setCardinalValues_eq v val low high] at done
    exact fill_sound (w := v.setLength n) true (small low) (setLength_range v n).1
      (setLength_range v n).2 done
  · unfold Vector.setCardinalValues at done
    rw [if_pos (by omega)] at done
    cases done

theorem setValue_safe (sound : Sound v) (type : CardType) (val : Option (Nat → UInt8))
    (sz : Int) :
    Safe (v.setValue type val sz) ↔
      (val.isSome → v.var = type → 0 ≤ int32 sz → Small v.var (int32 sz).toNat) := by
  cases val with
  | none => exact iff_of_true (safe_ok.mpr sound.holds) (by simp)
  | some val =>
    simp only [Option.isSome_some, forall_const]
    unfold Vector.setValue
    by_cases same : v.var = type
    · simp only [if_pos same, forall_prop_of_true same]
      exact setCardinalValues_safe v val (int32_range sz).2
    · simp only [if_neg same]
      exact iff_of_true (safe_ok.mpr sound.holds) fun same' => absurd same' same

theorem setValue_sound {type : CardType} {val : Option (Nat → UInt8)} {sz : Int}
    (sound : Sound v)
    (fits : val.isSome → v.var = type → 0 ≤ int32 sz → Small v.var (int32 sz).toNat)
    (done : v.setValue type val sz = .ok v') : Sound v' := by
  unfold Vector.setValue at done
  split at done
  · split at done
    · rename_i same
      exact setCardinalValues_sound (int32_range sz).2 (fits rfl same) done
    · cases done
      exact sound
  · cases done
    exact sound

theorem val2buf_safe (v : Vector) (val : Option (Nat → UInt8)) :
    Safe (v.val2buf val) ↔ (val.isSome → Small v.var (uint32 v.length)) := by
  cases val with
  | none => exact iff_of_true (safe_raised _) (by simp)
  | some val =>
    simp only [Option.isSome_some, forall_const]
    refine (fill_safe v (uint32 v.length) v.width val v.readP).trans (and_iff_right ?_)
    unfold Vector.width
    rw [Nat.mul_comm]

theorem val2buf_sound {val : Option (Nat → UInt8)} (sound : Sound v)
    (fits : val.isSome → Small v.var (uint32 v.length)) (done : v.val2buf val = .ok v') :
    Sound v' := by
  cases val with
  | none => cases done
  | some val =>
    have filled := fill_sound v.readP (fits rfl) sound.low sound.high done
    exact filled

/-- The copy has the bytes of the length, and the capacity of the source. -/
theorem duplicate_safe (sound : Sound v) : Safe v.duplicate ↔ CopyFits v := by
  unfold CopyFits Vector.duplicate
  cases there : v.buf with
  | none => exact iff_of_true (safe_ok.mpr sound.holds) (by simp)
  | some buf =>
    have size := sound.holds buf there
    have made : ((v.createBuffer (uint32 v.length)).buf.getD []).length = v.width := by
      rw [created_length, Nat.mul_comm]
      rfl
    simp only [Option.isSome_some, forall_const]
    apply safe_bind.trans
    rw [memcpy_bounds, made, size]
    constructor
    · intro safe
      cases done : memcpy ((v.createBuffer (uint32 v.length)).buf.getD []) 0 buf v.width with
      | error failure =>
        unfold memcpy at done
        rw [made, size, if_pos safe.1] at done
        cases done
      | ok copied =>
        have holds := safe.2 copied done copied rfl
        rw [memcpy_length done, made] at holds
        exact holds
    · intro same
      refine ⟨by omega, ?_⟩
      intro copied done b equal
      cases equal
      rw [memcpy_length done, made]
      exact same

theorem duplicate_sound (sound : Sound v) (fits : CopyFits v) (done : v.duplicate = .ok v') :
    Sound v' := by
  have holds := ((duplicate_safe sound).mpr fits).2 v' done
  unfold Vector.duplicate at done
  cases there : v.buf with
  | none =>
    rw [there] at done
    cases done
    exact sound
  | some buf =>
    rw [there] at done
    obtain ⟨copied, _, rest⟩ := bind_success done
    cases rest
    exact ⟨holds, by simp, sound.small, sound.low, sound.high⟩

/-- The number of bytes of a slice, through an `int` to a `size_t`. -/
theorem sizeT_int32 (width : Nat) (small : width < 2 ^ 32) :
    (width < 2 ^ 31 → sizeT (int32 width) = width) ∧
      (2 ^ 31 ≤ width → 2 ^ 63 ≤ sizeT (int32 width)) := by
  unfold sizeT int32
  rw [BitVec.toInt_ofInt, Int.bmod_def]
  constructor
  · intro _
    omega
  · intro _
    omega

/-- The bounds of the copy, in numbers. -/
theorem slice_bounds {var : CardType} {start length capacity rowCapacity : Nat}
    (startSmall : start < 2 ^ 32) (small : Small var capacity) (rowSmall : Small var rowCapacity)
    (le : length ≤ rowCapacity) (checked : (start + length) % 2 ^ 32 ≤ capacity) :
    ((start * var.width) % 2 ^ 32 + sizeT (int32 (length * var.width : Nat)) ≤
        capacity * var.width ∧
      sizeT (int32 (length * var.width : Nat)) ≤ rowCapacity * var.width) ↔
      start + length < 2 ^ 32 ∧ length * var.width < 2 ^ 31 := by
  unfold Small at small rowSmall
  have bytes : length * var.width ≤ rowCapacity * var.width := Nat.mul_le_mul_right _ le
  obtain ⟨exact, huge⟩ := sizeT_int32 (length * var.width) (by omega)
  by_cases half : length * var.width < 2 ^ 31
  · rw [exact half]
    cases var <;> simp only [CardType.width] at * <;> omega
  · have := huge (by omega)
    omega

theorem setValueSlice_safe {start : Nat} (sound : Sound v) (soundRow : Sound row)
    (startSmall : start < 2 ^ 32) :
    Safe (v.setValueSlice row start) ↔ SliceFits v row start := by
  unfold Vector.setValueSlice SliceFits
  by_cases type : v.var = row.var
  · rw [if_neg (not_not.mpr type)]
    by_cases read : row.readP = true
    · rw [if_neg (by simp [read])]
      by_cases low : row.length < 0
      · rw [if_pos low]
        refine iff_of_true (safe_raised _) fun _ _ nonneg => ?_
        omega
      · rw [if_neg low, uint32_nonneg (by omega) soundRow.high]
        by_cases short : row.capacity < row.length.toNat
        · rw [if_pos short]
          refine iff_of_true (safe_raised _) fun _ _ _ le => ?_
          omega
        · rw [if_neg short]
          by_cases room : v.capacity < (start + row.length.toNat) % 2 ^ 32
          · rw [if_pos room]
            refine iff_of_true (safe_raised _) fun _ _ _ _ _ _ le => ?_
            omega
          · rw [if_neg room]
            cases into : v.buf with
            | none => exact iff_of_true (safe_raised _) (by simp)
            | some buf =>
              cases from' : row.buf with
              | none => exact iff_of_true (safe_raised _) (by simp)
              | some rowBuf =>
                have size := sound.holds buf into
                have rowSize := soundRow.holds rowBuf from'
                have width : row.width = row.length.toNat * row.var.width := by
                  have bytes : row.length.toNat * row.var.width ≤ row.capacity * row.var.width :=
                    Nat.mul_le_mul_right _ (by omega)
                  have small := soundRow.small
                  unfold Small at small
                  unfold Vector.width
                  rw [uint32_nonneg (by omega) soundRow.high, Nat.mod_eq_of_lt (by omega)]
                have bounds := slice_bounds startSmall sound.small (type ▸ soundRow.small)
                  (Nat.le_of_not_lt short) (Nat.le_of_not_lt room)
                apply safe_bind.trans
                rw [memcpy_bounds, size, rowSize, width, ← type]
                constructor
                · intro safe _ _ _ _ _ _ _
                  exact bounds.mp safe.1
                · intro fits
                  refine ⟨bounds.mpr (fits rfl read (by omega) (by omega) rfl rfl
                    (Nat.le_of_not_lt room)), ?_⟩
                  intro copied done b same
                  cases same
                  rw [memcpy_length done]
                  exact size
    · rw [if_pos (by simpa using read)]
      exact iff_of_true (safe_raised _) fun _ read' => absurd read' read
  · rw [if_pos type]
    exact iff_of_true (safe_raised _) fun type' => absurd type' type

theorem setValueSlice_sound {start : Nat} (sound : Sound v)
    (done : v.setValueSlice row start = .ok v') : Sound v' := by
  unfold Vector.setValueSlice at done
  split at done
  · cases done
  · split at done
    · cases done
    · split at done
      · cases done
      · split at done
        · cases done
        · split at done
          · cases done
          · split at done
            · cases done
            · cases done
            · rename_i buf rowBuf there _
              obtain ⟨copied, copy, rest⟩ := bind_success done
              cases rest
              exact sound.refilled v.readP there (memcpy_length copy)

/-- What is asked of a step. -/
def StepSafe (result : Except Failure Pool) : Prop :=
  InBounds result ∧ ∀ s', result = .ok s' → ∀ v ∈ s', HoldsCapacity v

/-- A call on the Vector at `i`, whose result is put into the pool. -/
def called (s : Pool) (i : Nat) (op : Vector → Except Failure Vector) (put : Vector → Pool) :
    Except Failure Pool := do
  let v ← vectorAt s i
  let v' ← op v
  pure (put v')

theorem vectorAt_some {i : Nat} (found : s[i]? = some v) : vectorAt s i = .ok v := by
  unfold vectorAt
  rw [found]

theorem called_eq {i : Nat} (op : Vector → Except Failure Vector) (put : Vector → Pool)
    (found : s[i]? = some v) : called s i op put = op v >>= fun v' => pure (put v') := by
  unfold called
  rw [vectorAt_some found]
  rfl

theorem called_none {i : Nat} (op : Vector → Except Failure Vector) (put : Vector → Pool)
    (missing : s[i]? = none) : called s i op put = .error (.internalErr "no Vector") := by
  unfold called vectorAt
  rw [missing]
  rfl

/-- The call is right if it is right for the Vector, the others being as before. -/
theorem called_safe {i : Nat} (op : Vector → Except Failure Vector) {put : Vector → Pool}
    (sound : ∀ v ∈ s, Sound v) (there : ∀ v', s[i]? ≠ none → v' ∈ put v')
    (others : ∀ v' u, u ∈ put v' → u = v' ∨ u ∈ s) :
    StepSafe (called s i op put) ↔ ∀ v, s[i]? = some v → Safe (op v) := by
  cases found : s[i]? with
  | none =>
    rw [called_none op put found]
    refine iff_of_true ?_ (by simp)
    exact ⟨by simp [InBounds], by simp⟩
  | some v =>
    rw [called_eq op put found]
    simp only [Option.some.injEq, forall_eq']
    cases done : op v with
    | error failure =>
      simp [StepSafe, Safe, InBounds, bind, Except.bind]
    | ok v' =>
      constructor
      · intro safe
        refine safe_ok.mpr (safe.2 (put v') rfl v' (there v' ?_))
        simp [found]
      · intro safe
        refine ⟨by simp [InBounds, bind, Except.bind, pure, Except.pure], ?_⟩
        intro s' same u mem
        cases same
        rcases others v' u mem with rfl | old
        · exact safe_ok.mp safe
        · exact (sound u old).holds

theorem called_sound {i : Nat} (op : Vector → Except Failure Vector) {put : Vector → Pool}
    (sound : ∀ v ∈ s, Sound v) (others : ∀ v' u, u ∈ put v' → u = v' ∨ u ∈ s)
    (each : ∀ v v', s[i]? = some v → Sound v → op v = .ok v' → Sound v')
    (done : called s i op put = .ok s') : ∀ v ∈ s', Sound v := by
  cases found : s[i]? with
  | none =>
    rw [called_none op put found] at done
    cases done
  | some v =>
    rw [called_eq op put found] at done
    obtain ⟨v', result, rest⟩ := bind_success done
    cases rest
    intro u mem
    rcases others v' u mem with rfl | old
    · exact each v u found (sound v (List.mem_of_getElem? found)) result
    · exact sound u old

theorem set_there {i : Nat} (v' : Vector) (there : s[i]? ≠ none) : v' ∈ s.set i v' := by
  have lt : i < s.length := by
    by_contra beyond
    exact there (List.getElem?_eq_none (Nat.le_of_not_lt beyond))
  exact List.mem_set lt v'

theorem set_others {i : Nat} (v' u : Vector) (mem : u ∈ s.set i v') : u = v' ∨ u ∈ s :=
  (List.mem_or_eq_of_mem_set mem).symm

theorem append_others (v' u : Vector) (mem : u ∈ s ++ [v']) : u = v' ∨ u ∈ s := by
  simpa [or_comm] using mem

theorem append_there {i : Nat} (v' : Vector) (_ : s[i]? ≠ none) : v' ∈ s ++ [v'] := by simp

theorem new_sound (var : CardType) : Sound (Vector.new var) where
  holds := by
    intro buf there
    cases there
  empty := fun _ => rfl
  small := by simp [Small, Vector.new]
  low := by simp [Vector.new]
  high := by simp [Vector.new]

theorem clear_sound (sound : Sound v) : Sound v.clearLocalData where
  holds := by
    intro buf there
    cases there
  empty := fun _ => rfl
  small := by simp [Small, Vector.clearLocalData]
  low := sound.low
  high := sound.high

theorem setLength_sound (sound : Sound v) (l : Int) : Sound (v.setLength l) where
  holds := sound.holds
  empty := sound.empty
  small := sound.small
  low := (setLength_range v l).1
  high := (setLength_range v l).2

theorem setReadP_sound (sound : Sound v) (state : Bool) : Sound { v with readP := state } where
  holds := sound.holds
  empty := sound.empty
  small := sound.small
  low := sound.low
  high := sound.high

theorem stepSafe_sound (sound : ∀ v ∈ s, Sound v) : StepSafe (.ok s) :=
  ⟨by simp [InBounds], fun _ same v mem => by cases same; exact (sound v mem).holds⟩

/-- The slice of a Vector that is there. -/
def slice (s : Pool) (rowMajorData startElement : Nat) (v : Vector) : Except Failure Vector := do
  let row ← vectorAt s rowMajorData
  v.setValueSlice row startElement

theorem step_setValueSlice (s : Pool) (i rowMajorData : Nat) (startElement : Fin (2 ^ 32)) :
    step s (.setValueSlice i rowMajorData startElement) =
      called s i (slice s rowMajorData startElement) fun v' => s.set i v' := by
  simp only [step, called, slice, bind_assoc]

theorem step_assign_self {i rhs : Nat} (found : s[i]? = some v) (same : i = rhs) :
    step s (.assign i rhs) = .ok s := by
  subst same
  simp only [step, vectorAt_some found, if_true]
  rfl

theorem step_assign_other {i rhs : Nat} (found : s[i]? = some v) (other : i ≠ rhs) :
    step s (.assign i rhs) = called s rhs Vector.duplicate fun v' => s.set i v' := by
  simp only [step, vectorAt_some found, if_neg other]
  rfl

theorem step_assign_none {i rhs : Nat} (missing : s[i]? = none) :
    step s (.assign i rhs) = .error (.internalErr "no Vector") := by
  simp only [step, vectorAt, missing]
  rfl

/-- A step is right exactly if it fits. -/
theorem step_safe (sound : ∀ v ∈ s, Sound v) (next : Step) :
    StepSafe (step s next) ↔ Fits s next := by
  have at_ (i : Nat) (v : Vector) (found : s[i]? = some v) : Sound v :=
    sound v (List.mem_of_getElem? found)
  cases next with
  | new var =>
    refine iff_of_true ⟨by simp [step, InBounds, pure, Except.pure], ?_⟩ trivial
    intro s' same u mem
    cases same
    rcases append_others _ u mem with rfl | old
    · exact (new_sound var).holds
    · exact (sound u old).holds
  | setValue i type val sz =>
    refine (called_safe (fun v => v.setValue type val sz) sound (fun v' => set_there v')
      set_others).trans ?_
    exact forall_congr' fun v => forall_congr' fun found => setValue_safe (at_ i v found) type val sz
  | val2buf i val =>
    refine (called_safe _ sound (fun v' => set_there v') set_others).trans ?_
    exact forall_congr' fun v => forall_congr' fun _ => val2buf_safe v val
  | reserveValueCapacity i numElements =>
    refine (called_safe (fun v => .ok (v.reserveValueCapacity numElements)) sound
      (fun v' => set_there v') set_others).trans ?_
    exact forall_congr' fun v => forall_congr' fun _ => safe_ok.trans createBuffer_holds
  | setValueSlice i rowMajorData startElement =>
    rw [step_setValueSlice]
    refine (called_safe _ sound (fun v' => set_there v') set_others).trans ?_
    refine forall_congr' fun v => ?_
    cases there : s[rowMajorData]? with
    | none =>
      have raised : slice s rowMajorData startElement v = .error (.internalErr "no Vector") := by
        simp only [slice, vectorAt, there]
        rfl
      rw [raised]
      exact iff_of_true (fun _ => safe_raised _) (by simp)
    | some row =>
      have result : slice s rowMajorData startElement v = v.setValueSlice row startElement := by
        simp only [slice, vectorAt_some there]
        rfl
      rw [result]
      simp only [Option.some.injEq]
      constructor
      · intro safe row' found same
        subst same
        exact (setValueSlice_safe (at_ i v found) (at_ _ _ there) startElement.isLt).mp (safe found)
      · intro fits found
        exact (setValueSlice_safe (at_ i v found) (at_ _ _ there) startElement.isLt).mpr
          (fits row found rfl)
  | clearLocalData i =>
    refine iff_of_true ((called_safe (fun v => .ok v.clearLocalData) sound
      (fun v' => set_there v') set_others).mpr ?_) trivial
    exact fun v found => safe_ok.mpr (clear_sound (at_ i v found)).holds
  | setLength i l =>
    refine iff_of_true ((called_safe (fun v => .ok (v.setLength l)) sound
      (fun v' => set_there v') set_others).mpr ?_) trivial
    exact fun v found => safe_ok.mpr (setLength_sound (at_ i v found) l).holds
  | setReadP i state =>
    refine iff_of_true ((called_safe (fun v => .ok { v with readP := state }) sound
      (fun v' => set_there v') set_others).mpr ?_) trivial
    exact fun v found => safe_ok.mpr (setReadP_sound (at_ i v found) state).holds
  | ptrDuplicate i =>
    refine (called_safe _ sound (fun v' => append_there v') append_others).trans ?_
    exact forall_congr' fun v => forall_congr' fun found => duplicate_safe (at_ i v found)
  | assign i rhs =>
    cases found : s[i]? with
    | none =>
      rw [step_assign_none found]
      exact iff_of_true ⟨by simp [InBounds], by simp⟩ (by simp [Fits, found])
    | some w =>
      by_cases same : i = rhs
      · rw [step_assign_self found same]
        exact iff_of_true (stepSafe_sound sound) fun _ _ _ _ other => absurd same other
      · rw [step_assign_other found same]
        have there (v' : Vector) : v' ∈ s.set i v' := set_there v' (by simp [found])
        refine (called_safe _ sound (fun v' _ => there v') set_others).trans ?_
        constructor
        · intro safe w' v _ at_rhs _
          exact (duplicate_safe (at_ rhs v at_rhs)).mp (safe v at_rhs)
        · intro fits v at_rhs
          exact (duplicate_safe (at_ rhs v at_rhs)).mpr (fits w v found at_rhs same)

/-- A step that fits keeps the invariant. -/
theorem step_sound (sound : ∀ v ∈ s, Sound v) {next : Step} (fits : Fits s next)
    (done : step s next = .ok s') : ∀ v ∈ s', Sound v := by
  cases next with
  | new var =>
    cases done
    intro u mem
    rcases append_others _ u mem with rfl | old
    · exact new_sound var
    · exact sound u old
  | setValue i type val sz =>
    refine called_sound (fun v => v.setValue type val sz) sound set_others ?_ done
    exact fun v v' found sound result => setValue_sound sound (fits v found) result
  | val2buf i val =>
    refine called_sound (fun v => v.val2buf val) sound set_others ?_ done
    exact fun v v' found sound result => val2buf_sound sound (fits v found) result
  | reserveValueCapacity i numElements =>
    refine called_sound (fun v => .ok (v.reserveValueCapacity numElements)) sound
      set_others ?_ done
    intro v v' found sound result
    cases result
    exact .created (fits v found) sound.low sound.high
  | setValueSlice i rowMajorData startElement =>
    rw [step_setValueSlice] at done
    refine called_sound _ sound set_others ?_ done
    intro v v' _ sound result
    obtain ⟨row, _, copied⟩ := bind_success result
    exact setValueSlice_sound sound copied
  | clearLocalData i =>
    refine called_sound (fun v => .ok v.clearLocalData) sound set_others ?_ done
    intro v v' _ sound result
    cases result
    exact clear_sound sound
  | setLength i l =>
    refine called_sound (fun v => .ok (v.setLength l)) sound set_others ?_ done
    intro v v' _ sound result
    cases result
    exact setLength_sound sound l
  | setReadP i state =>
    refine called_sound (fun v => .ok { v with readP := state }) sound set_others ?_ done
    intro v v' _ sound result
    cases result
    exact setReadP_sound sound state
  | ptrDuplicate i =>
    refine called_sound Vector.duplicate sound append_others ?_ done
    exact fun v v' found sound result => duplicate_sound sound (fits v found) result
  | assign i rhs =>
    cases found : s[i]? with
    | none =>
      rw [step_assign_none found] at done
      cases done
    | some w =>
      by_cases same : i = rhs
      · rw [step_assign_self found same] at done
        cases done
        exact sound
      · rw [step_assign_other found same] at done
        refine called_sound _ sound set_others ?_ done
        exact fun v v' at_rhs sound result =>
          duplicate_sound sound (fits w v found at_rhs same) result

theorem AlwaysRight.now {steps : List Step} (always : AlwaysRight s steps) :
    ∀ v ∈ s, HoldsCapacity v ∧ Readable v := by
  cases steps with
  | nil => exact always
  | cons _ _ => exact always.1

theorem alwaysRight_of_sound (sound : ∀ v ∈ s, Sound v) (steps : List Step) :
    AlwaysRight s steps ↔ AllFit s steps := by
  have now : ∀ v ∈ s, HoldsCapacity v ∧ Readable v :=
    fun v mem => ⟨(sound v mem).holds, (sound v mem).readable⟩
  induction steps generalizing s with
  | nil => exact iff_of_true now trivial
  | cons next steps ih =>
    have later (fits : Fits s next) (s' : Pool) (done : step s next = .ok s') :
        AlwaysRight s' steps ↔ AllFit s' steps := by
      have sound' := step_sound sound fits done
      exact ih sound' fun v mem => ⟨(sound' v mem).holds, (sound' v mem).readable⟩
    constructor
    · intro always
      have fits : Fits s next := by
        refine (step_safe sound next).mp ⟨always.2.1, ?_⟩
        intro s' done v mem
        exact ((always.2.2 s' done).now v mem).1
      exact ⟨fits, fun s' done => (later fits s' done).mp (always.2.2 s' done)⟩
    · intro fit
      refine ⟨now, ((step_safe sound next).mpr fit.1).1, ?_⟩
      exact fun s' done => (later fit.1 s' done).mpr (fit.2 s' done)

/-- From no Vectors on: the buffers agree with the capacities, and no copy leaves a buffer,
exactly if every step fits the state before it. -/
theorem alwaysRight_iff (steps : List Step) : AlwaysRight [] steps ↔ AllFit [] steps :=
  alwaysRight_of_sound (by simp) steps

/-- Room for ten elements, a length of four, and a copy. -/
theorem alwaysRight_fails :
    ¬ AlwaysRight [] [.new .int32, .setLength 0 4, .reserveValueCapacity 0 10, .ptrDuplicate 0] := by
  intro always
  have reserved := ((always.2.2 _ rfl).2.2 _ rfl).2.2 _ rfl
  have copy := (reserved.2.2 _ rfl).now _ (List.mem_cons_of_mem _ List.mem_cons_self)
  have length := copy.1 _ rfl
  revert length
  decide

end Libdap.Guarantees.VectorBuffer
