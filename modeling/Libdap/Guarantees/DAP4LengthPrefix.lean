import Libdap.Library.Varint
import Libdap.Source.DAP4StreamUnMarshaller

/-!
# The length prefix of DAP4 strings, opaques and varying vectors

The writer's hard-coded size search produces the base-128 varint of the length.
The reader shifts each digit as an `int`, so the digits above bit 31 have no
meaning and bit 31 is taken for a sign: lengths below `2 ^ 31` come back, and a
length below `2 ^ 32` comes back in the low 32 bits.
-/
namespace Libdap.Guarantees.DAP4LengthPrefix
open Libdap.Library
open Libdap.Source Libdap.Source.DAP4StreamMarshaller Libdap.Source.DAP4StreamUnMarshaller

theorem or_top_bit (x : Nat) : UInt8.ofNat (x ||| 0x80) = UInt8.ofNat (x % 128 + 128) := by
  have bytes : ∀ i : Fin 256, i.val ||| 0x80 = i.val % 128 + 128 := by decide +kernel
  have low := bytes ⟨x % 256, Nat.mod_lt _ (by decide)⟩
  apply UInt8.toNat_inj.mp
  rw [UInt8.toNat_ofNat', UInt8.toNat_ofNat', Nat.or_mod_two_pow]
  have same : x % 256 % 128 = x % 128 := by omega
  simp only [same] at low
  have top : (0x80 : Nat) % 2 ^ 8 = 0x80 := by decide
  rw [top, show x % 2 ^ 8 = x % 256 from rfl, low]
  omega

/-- Clearing the top bit of the last digit leaves the digit itself. -/
theorem clear_top_bit {x : Nat} (h : x < 128) :
    UInt8.ofNat (x % 128 + 128) &&& 0x7F = UInt8.ofNat x := by
  have bytes : ∀ i : Fin 128, UInt8.ofNat (i.val % 128 + 128) &&& 0x7F = UInt8.ofNat i.val := by
    decide +kernel
  exact bytes ⟨x, h⟩

theorem modify_last (l : List UInt8) (b : UInt8) (f : UInt8 → UInt8) :
    (l ++ [b]).modify l.length f = l ++ [f b] := by
  induction l with
  | nil => rfl
  | cons a l ih => simpa using ih

/-- The ten digits the writer can store, whatever the size found. -/
theorem stored_digits (value : BitVec 64) :
    let low8 (part : BitVec 32) : UInt8 := UInt8.ofNat (part ||| 0x80#32).toNat
    let part0 := value.setWidth 32
    let part1 := (value >>> 28).setWidth 32
    let part2 := (value >>> 56).setWidth 32
    [low8 part0, low8 (part0 >>> 7), low8 (part0 >>> 14), low8 (part0 >>> 21),
      low8 part1, low8 (part1 >>> 7), low8 (part1 >>> 14), low8 (part1 >>> 21),
      low8 part2, low8 (part2 >>> 7)] = (List.range 10).map (Varint.digit value.toNat) := by
  have bound := value.isLt
  have digit_eq : ∀ (part : BitVec 32) (k : Nat),
      part.toNat % 128 = value.toNat / 128 ^ k % 128 →
      UInt8.ofNat (part ||| 0x80#32).toNat = Varint.digit value.toNat k := by
    intro part k same
    rw [BitVec.toNat_or, show (0x80#32).toNat = 0x80 from rfl, or_top_bit, same]
    rfl
  have part0 : (value.setWidth 32).toNat = value.toNat % 2 ^ 32 := BitVec.toNat_setWidth ..
  have part1 : ((value >>> 28).setWidth 32).toNat = value.toNat / 2 ^ 28 % 2 ^ 32 := by
    rw [BitVec.toNat_setWidth, BitVec.toNat_ushiftRight, Nat.shiftRight_eq_div_pow]
  have part2 : ((value >>> 56).setWidth 32).toNat = value.toNat / 2 ^ 56 % 2 ^ 32 := by
    rw [BitVec.toNat_setWidth, BitVec.toNat_ushiftRight, Nat.shiftRight_eq_div_pow]
  simp only [show (List.range 10).map (Varint.digit value.toNat) = [_, _, _, _, _, _, _, _, _, _]
    from rfl, List.cons.injEq, and_true]
  refine ⟨digit_eq _ 0 ?_, digit_eq _ 1 ?_, digit_eq _ 2 ?_, digit_eq _ 3 ?_, digit_eq _ 4 ?_,
    digit_eq _ 5 ?_, digit_eq _ 6 ?_, digit_eq _ 7 ?_, digit_eq _ 8 ?_, digit_eq _ 9 ?_⟩
  all_goals
    simp only [BitVec.toNat_ushiftRight, Nat.shiftRight_eq_div_pow, part0, part1, part2]
    omega

/-- The size search finds the number of base-128 digits. -/
theorem varintSize_digits (value : BitVec 64) :
    ∃ k, k < 10 ∧
      varintSize (value.setWidth 32) ((value >>> 28).setWidth 32) ((value >>> 56).setWidth 32)
        = k + 1 ∧
      (k = 0 ∨ 128 ^ k ≤ value.toNat) ∧ value.toNat < 128 ^ (k + 1) := by
  have bound := value.isLt
  have part0 : (value.setWidth 32).toNat = value.toNat % 2 ^ 32 := BitVec.toNat_setWidth ..
  have part1 : ((value >>> 28).setWidth 32).toNat = value.toNat / 2 ^ 28 % 2 ^ 32 := by
    rw [BitVec.toNat_setWidth, BitVec.toNat_ushiftRight, Nat.shiftRight_eq_div_pow]
  have part2 : ((value >>> 56).setWidth 32).toNat = value.toNat / 2 ^ 56 % 2 ^ 32 := by
    rw [BitVec.toNat_setWidth, BitVec.toNat_ushiftRight, Nat.shiftRight_eq_div_pow]
  have isZero : ∀ part : BitVec 32, part = 0 ↔ part.toNat = 0 := by
    intro part
    rw [← BitVec.toNat_inj]
    rfl
  simp only [varintSize, isZero, part0, part1, part2]
  split
  · split
    · split
      · split
        · exact ⟨0, by omega⟩
        · exact ⟨1, by omega⟩
      · split
        · exact ⟨2, by omega⟩
        · exact ⟨3, by omega⟩
    · split
      · split
        · exact ⟨4, by omega⟩
        · exact ⟨5, by omega⟩
      · split
        · exact ⟨6, by omega⟩
        · exact ⟨7, by omega⟩
  · split
    · exact ⟨8, by omega⟩
    · exact ⟨9, by omega⟩

/-- What `WriteVarint64ToArrayInline` stores is the varint of its argument. -/
theorem writeVarint64_eq_encode (value : BitVec 64) :
    writeVarint64ToArrayInline value = Varint.encode value.toNat := by
  obtain ⟨k, small, size, low, high⟩ := varintSize_digits value
  have cut : ((List.range 10).map (Varint.digit value.toNat)).take (k + 1) =
      (List.range k).map (Varint.digit value.toNat) ++ [Varint.digit value.toNat k] := by
    rw [← List.map_take, List.take_range, Nat.min_eq_left (by omega), List.range_succ,
      List.map_append, List.map_singleton]
  have last : Varint.digit value.toNat k &&& 0x7F = UInt8.ofNat (value.toNat / 128 ^ k) :=
    clear_top_bit (Nat.div_lt_of_lt_mul (by rwa [← pow_succ]))
  have digits := stored_digits value
  dsimp only at digits
  simp only [writeVarint64ToArrayInline, size, Nat.add_sub_cancel]
  rw [digits, cut, Varint.encode_of_digits k _ low high, ← last]
  simpa using modify_last ((List.range k).map (Varint.digit value.toNat))
    (Varint.digit value.toNat k) (· &&& 0x7F)

/-- The reader's accumulator for a length below `2 ^ 32`: an `int` widened to 64 bits. -/
def widened (n : Nat) : BitVec 64 := (BitVec.ofNat 32 n).signExtend 64

theorem widened_toNat {n : Nat} (h : n < 2 ^ 32) :
    (widened n).toNat = if n < 2 ^ 31 then n else n + (2 ^ 64 - 2 ^ 32) := by
  have word : (BitVec.ofNat 32 n).toNat = n := by
    rw [BitVec.toNat_ofNat, Nat.mod_eq_of_lt h]
  rw [widened, BitVec.toNat_signExtend, BitVec.msb_eq_decide, BitVec.toNat_setWidth_of_le (by decide),
    word]
  by_cases small : n < 2 ^ 31
  · rw [if_pos small, decide_eq_false (by omega)]
    rfl
  · rw [if_neg small, decide_eq_true (by omega)]
    rfl

theorem payload_toNat (b : UInt8) : (b &&& 0x7F).toNat = b.toNat % 128 := by
  rw [UInt8.toNat_and]
  exact Nat.and_two_pow_sub_one_eq_mod b.toNat 7

theorem shiftedPayload_small (b : UInt8) {count : Nat} (h : count ≤ 4) :
    shiftedPayload b (7 * count) = some (widened (b.toNat % 128 * 128 ^ count)) := by
  have shift : 7 * count < 32 := by omega
  have power : 2 ^ (7 * count) = 128 ^ count := by
    rw [pow_mul]
    rfl
  rw [shiftedPayload, if_pos shift, payload_toNat, widened]
  congr 2
  apply BitVec.eq_of_toNat_eq
  simp only [BitVec.toNat_shiftLeft, BitVec.toNat_ofNat, Nat.shiftLeft_eq, power]
  rw [Nat.mod_mul_mod]

theorem shiftedPayload_large (b : UInt8) {count : Nat} (h : 5 ≤ count) :
    shiftedPayload b (7 * count) = none := by
  rw [shiftedPayload, if_neg (by omega)]

theorem continues_iff (b : UInt8) : b &&& 0x80 ≠ 0 ↔ 128 ≤ b.toNat := by
  have bytes : ∀ i : Fin 256, UInt8.ofNat i.val &&& 0x80 ≠ 0 ↔ 128 ≤ i.val := by decide +kernel
  have h := bytes ⟨b.toNat, b.toNat_lt⟩
  rwa [UInt8.ofNat_toNat] at h

/-- A digit below the ones already known to be there carries nothing into the sign. -/
theorem widened_add {count digit above : Nat} (hc : count ≤ 3) (hd : digit < 128)
    (fits : (digit + 128 * above) * 128 ^ count < 2 ^ 32) :
    widened (digit * 128 ^ count) + widened (above * 128 ^ (count + 1)) =
      widened ((digit + 128 * above) * 128 ^ count) := by
  have split : (digit + 128 * above) * 128 ^ count =
      digit * 128 ^ count + above * 128 ^ (count + 1) := by
    rw [pow_succ]
    ring
  have bounds : digit * 128 ^ count < 2 ^ 31 ∧ above * 128 ^ (count + 1) < 2 ^ 32 ∧
      (above * 128 ^ (count + 1) < 2 ^ 31 ↔
        digit * 128 ^ count + above * 128 ^ (count + 1) < 2 ^ 31) := by
    rw [split] at fits
    interval_cases count <;> norm_num at fits ⊢ <;> omega
  obtain ⟨low, high, sign⟩ := bounds
  rw [split] at fits ⊢
  apply BitVec.eq_of_toNat_eq
  rw [BitVec.toNat_add, widened_toNat (by omega), widened_toNat high, widened_toNat fits,
    if_pos low]
  by_cases small : above * 128 ^ (count + 1) < 2 ^ 31
  · rw [if_pos small, if_pos (sign.mp small), Nat.mod_eq_of_lt (by omega)]
  · rw [if_neg small, if_neg (fun h => small (sign.mpr h)), Nat.mod_eq_of_lt (by omega)]
    omega

/-- Reading the varint of a number whose remaining digits fit 32 bits. -/
theorem lengthPrefixLoop_encode (count n : Nat) (acc : BitVec 64) (rest : List UInt8)
    (hc : count ≤ 4) (fits : n * 128 ^ count < 2 ^ 32) :
    lengthPrefixLoop count acc (Varint.encode n ++ rest) =
      .ok (acc + widened (n * 128 ^ count), rest) := by
  induction n using Nat.strongRecOn generalizing count acc with
  | ind n ih =>
    by_cases last : n < 128
    · have byte : (UInt8.ofNat n).toNat = n := by
        rw [UInt8.toNat_ofNat']
        omega
      have stop : ¬ (UInt8.ofNat n &&& 0x80 ≠ 0) := by
        rw [continues_iff, byte]
        omega
      rw [Varint.encode_last last, List.singleton_append, lengthPrefixLoop,
        shiftedPayload_small _ hc, byte, Nat.mod_eq_of_lt last]
      simp only [if_neg stop]
    · have byte : (UInt8.ofNat (n % 128 + 128)).toNat = n % 128 + 128 := by
        rw [UInt8.toNat_ofNat']
        omega
      have more : UInt8.ofNat (n % 128 + 128) &&& 0x80 ≠ 0 := by
        rw [continues_iff, byte]
        omega
      have digit : (n % 128 + 128) % 128 = n % 128 := by omega
      have parts : n % 128 + 128 * (n / 128) = n := Nat.mod_add_div n 128
      have hc' : count ≤ 3 := by
        by_contra h
        have four : count = 4 := by omega
        subst four
        norm_num at fits
        omega
      have total : (n % 128 + 128 * (n / 128)) * 128 ^ count < 2 ^ 32 := by rwa [parts]
      have fits' : n / 128 * 128 ^ (count + 1) < 2 ^ 32 := by
        refine Nat.lt_of_le_of_lt ?_ fits
        calc n / 128 * 128 ^ (count + 1) = n / 128 * 128 * 128 ^ count := by rw [pow_succ]; ring
          _ ≤ n * 128 ^ count := Nat.mul_le_mul_right _ (Nat.div_mul_le_self n 128)
      rw [Varint.encode_more (Nat.le_of_not_lt last), List.cons_append, lengthPrefixLoop,
        shiftedPayload_small _ hc, byte, digit]
      simp only [if_pos more]
      rw [ih (n / 128) (by omega) (count + 1) _ (by omega) fits', BitVec.add_assoc,
        widened_add hc' (Nat.mod_lt _ (by decide)) total, parts]

/-- Only four bits of the digit at bit 28 stay in the `int`. -/
theorem widened_fourth (x : Nat) : widened (x * 128 ^ 4) = widened (x % 16 * 128 ^ 4) := by
  have word : BitVec.ofNat 32 (x * 128 ^ 4) = BitVec.ofNat 32 (x % 16 * 128 ^ 4) := by
    apply BitVec.eq_of_toNat_eq
    rw [BitVec.toNat_ofNat, BitVec.toNat_ofNat]
    norm_num
    omega
  rw [widened, word, widened]

/-- No stream makes the reader return a length from `2 ^ 31` up: what it accepts is
below, or is negative as an `int`. -/
theorem lengthPrefixLoop_range (count : Nat) (acc result : BitVec 64) (input rest : List UInt8)
    (small : acc.toNat < 128 ^ count ∧ count ≤ 4 ∨ 5 ≤ count)
    (h : lengthPrefixLoop count acc input = .ok (result, rest)) :
    result.toNat < 2 ^ 31 ∨ 2 ^ 64 - 2 ^ 31 ≤ result.toNat := by
  induction input generalizing count acc with
  | nil => cases h
  | cons b input ih =>
    rw [lengthPrefixLoop] at h
    by_cases large : 5 ≤ count
    · rw [shiftedPayload_large b large] at h
      cases h
    · obtain ⟨bound, hc⟩ := small.resolve_right large
      rw [shiftedPayload_small b hc] at h
      simp only at h
      have digit : b.toNat % 128 < 128 := Nat.mod_lt _ (by decide)
      by_cases four : count = 4
      · subst four
        have sum : (acc + widened (b.toNat % 128 * 128 ^ 4)).toNat < 2 ^ 31 ∨
            2 ^ 64 - 2 ^ 31 ≤ (acc + widened (b.toNat % 128 * 128 ^ 4)).toNat := by
          rw [widened_fourth, BitVec.toNat_add, widened_toNat (by omega)]
          norm_num at bound ⊢
          split <;> omega
        split at h
        · exact ih 5 _ (Or.inr (Nat.le_refl 5)) h
        · cases h
          exact sum
      · have low : b.toNat % 128 * 128 ^ count < 2 ^ 31 ∧
            acc.toNat + b.toNat % 128 * 128 ^ count < 128 ^ (count + 1) ∧
            128 ^ (count + 1) ≤ 2 ^ 31 := by
          have cases : count ≤ 3 := by omega
          interval_cases count <;> norm_num at bound ⊢ <;> omega
        have sum : (acc + widened (b.toNat % 128 * 128 ^ count)).toNat =
            acc.toNat + b.toNat % 128 * 128 ^ count := by
          rw [BitVec.toNat_add, widened_toNat (by omega), if_pos low.1,
            Nat.mod_eq_of_lt (by omega)]
        split at h
        · exact ih (count + 1) _ (Or.inl ⟨by rw [sum]; exact low.2.1, by omega⟩) h
        · cases h
          omega

theorem getLengthPrefix_encode {n : Nat} (fits : n < 2 ^ 32) (r : UnMarshaller) (rest : List UInt8)
    (input : r.input = Varint.encode n ++ rest) :
    getLengthPrefix r = .ok (widened n) { r with input := rest } := by
  have loop := lengthPrefixLoop_encode 0 n 0 rest (by decide) (by simpa using fits)
  rw [pow_zero, Nat.mul_one] at loop
  simp only [getLengthPrefix, input, loop]
  rw [show (0 : BitVec 64) + widened n = widened n from BitVec.zero_add _]

theorem getLengthPrefix_range {r r' : UnMarshaller} {len : BitVec 64}
    (h : getLengthPrefix r = .ok len r') : len.toNat < 2 ^ 31 ∨ len.toInt < 0 := by
  rw [getLengthPrefix] at h
  cases loop : lengthPrefixLoop 0 0 r.input with
  | error e =>
    rw [loop] at h
    cases h
  | ok pair =>
    rw [loop] at h
    cases h
    rcases lengthPrefixLoop_range 0 0 _ _ _ (Or.inl (by decide)) loop with low | high
    · exact Or.inl low
    · right
      have bound := pair.1.isLt
      rw [BitVec.toInt_eq_toNat_cond, if_neg (by omega)]
      omega

/-! ## Prefixes written and read back -/

/-- The bytes are chained by their top bits: set on all but the last. -/
def Chained : List UInt8 → Prop
  | [] => False
  | [b] => b &&& 0x80 = 0
  | b :: c :: rest => b &&& 0x80 ≠ 0 ∧ Chained (c :: rest)

theorem chained_encode (n : Nat) : Chained (Varint.encode n) := by
  induction n using Nat.strongRecOn with
  | ind n ih =>
    by_cases last : n < 128
    · rw [Varint.encode_last last, Chained]
      by_contra more
      have top := (continues_iff (UInt8.ofNat n)).mp more
      rw [UInt8.toNat_ofNat'] at top
      omega
    · have below := ih (n / 128) (by omega)
      have top : UInt8.ofNat (n % 128 + 128) &&& 0x80 ≠ 0 := by
        rw [continues_iff, UInt8.toNat_ofNat']
        omega
      rw [Varint.encode_more (Nat.le_of_not_lt last)]
      cases rest : Varint.encode (n / 128) with
      | nil =>
        rw [rest] at below
        cases below
      | cons c more =>
        rw [rest] at below
        exact ⟨top, below⟩

/-- What `put_length_prefix` writes stays in its buffer of 9 bytes, is chained, and is read
back whatever follows it. -/
def PrefixReturns (value : BitVec 64) : Prop :=
  ∀ m : Marshaller, m.writeData = true → ∃ sent,
    putLengthPrefix value m = .ok () { m with out := m.out ++ sent } ∧
      sent.length ≤ 9 ∧ Chained sent ∧
      ∀ (r : UnMarshaller) (rest : List UInt8),
        getLengthPrefix { r with input := sent ++ rest } = .ok value { r with input := rest }

theorem putLengthPrefix_writing {value : BitVec 64} {m : Marshaller} (writing : m.writeData = true) :
    putLengthPrefix value m =
      if (Varint.encode value.toNat).length ≤ 9 then
        .ok () { m with out := m.out ++ Varint.encode value.toNat }
      else .error .undefinedBehaviour m := by
  simp only [putLengthPrefix, whenWriting, writing, if_true, writeVarint64_eq_encode, write]

/-- Exactly the lengths below `2 ^ 31` come back. -/
theorem prefixReturns_iff (value : BitVec 64) : PrefixReturns value ↔ value.toNat < 2 ^ 31 := by
  constructor
  · intro returns
    obtain ⟨sent, written, _, _, reads⟩ := returns (DAP4StreamMarshaller.make .little true) rfl
    have read := reads ⟨.little, false, []⟩ []
    have range := getLengthPrefix_range read
    refine range.resolve_right fun negative => ?_
    -- A negative length has ten digits, one more than the buffer.
    have long : ¬ (Varint.encode value.toNat).length ≤ 9 := by
      have top : 128 ^ 9 ≤ value.toNat := by
        rw [BitVec.toInt_eq_toNat_cond] at negative
        split at negative <;> omega
      have digits := Varint.encode_of_digits 9 value.toNat (.inr top) (by
        have bound := value.isLt
        omega)
      rw [digits, List.length_append, List.length_map, List.length_range]
      simp
    rw [putLengthPrefix_writing rfl, if_neg long] at written
    cases written
  · intro small m writing
    have short : (Varint.encode value.toNat).length ≤ 9 :=
      Varint.encode_length_le 8 value.toNat (by omega)
    refine ⟨Varint.encode value.toNat, ?_, short, chained_encode value.toNat, ?_⟩
    · rw [putLengthPrefix_writing writing, if_pos short]
    · intro r rest
      have read := getLengthPrefix_encode (n := value.toNat) (by omega)
        { r with input := Varint.encode value.toNat ++ rest } rest rfl
      have same : widened value.toNat = value := by
        apply BitVec.eq_of_toNat_eq
        rw [widened_toNat (by omega), if_pos small]
      rw [read, same]

/-- Five digits, of which the reader shifts the last into the sign of an `int`. -/
theorem prefixReturns_fails : ¬ PrefixReturns 0x80000000 := by
  intro returns
  obtain ⟨sent, written, _, _, reads⟩ := returns (DAP4StreamMarshaller.make .little true) rfl
  have bytes : putLengthPrefix 0x80000000 (DAP4StreamMarshaller.make .little true) =
      .ok () { DAP4StreamMarshaller.make .little true with out := [0x80, 0x80, 0x80, 0x80, 0x08] } := by rfl
  rw [bytes] at written
  have out := congrArg (fun r : EStateM.Result Failure Marshaller Unit => match r with
    | .ok _ m => m.out
    | .error _ m => m.out) written
  have same : [0x80, 0x80, 0x80, 0x80, 0x08] = sent := out
  have read := reads ⟨.little, false, []⟩ []
  rw [← same] at read
  have got : getLengthPrefix ⟨.little, false, [0x80, 0x80, 0x80, 0x80, 0x08]⟩ =
      .ok 0xFFFFFFFF80000000 ⟨.little, false, []⟩ := by rfl
  rw [List.append_nil, got] at read
  cases read

end Libdap.Guarantees.DAP4LengthPrefix
