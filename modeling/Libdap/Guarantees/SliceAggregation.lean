import Libdap.Guarantees.SubsetReads

/-!
# Vectors set one behind the other

`reserve_value_capacity` makes a new buffer for numbers, and `_capacity` says how many there is
room for. The strings of a Vector lie in a `std::vector`, whose size no reservation changes: the
slices are written beyond its end unless the Vector has had as many strings before.
-/
namespace Libdap.Guarantees.SliceAggregation
open Libdap.Source Libdap.Source.Array Libdap.Source.Vectors Libdap.Source.VectorElements
open Libdap.Guarantees.VectorBuffer Libdap.Guarantees.SubsetReads

variable {O : Objects} {v v' row : VectorElements.Vector O} {rows : List (VectorElements.Vector O)}
variable {type : CardType} {start : Nat}

/-- A Vector that was read in: it has as many values as its length says, and room for them. -/
def ReadIn (v : VectorElements.Vector O) : Prop :=
  v.readP = true ∧ 0 ≤ v.length ∧ v.length < 2 ^ 31 ∧ v.length.toNat ≤ v.capacity ∧
    match v.type with
    | .cardinal type => ∃ buf, v.buf = some buf ∧ v.length.toNat * type.width ≤ buf.length
    | .str | .url => v.length.toNat ≤ v.d_str.items.length
    | _ => False

/-- The first `n` values: the bytes of numbers, or strings. -/
def contents (v : VectorElements.Vector O) (n : Nat) : List (Option UInt8 ⊕ List UInt8) :=
  match v.type with
  | .cardinal type => ((v.buf.getD []).take (n * type.width)).map .inl
  | .str | .url => (v.d_str.items.take n).map .inr
  | _ => []

theorem contents_numbers (type : CardType) (is : v.type = .cardinal type) (n : Nat) :
    contents v n = ((v.buf.getD []).take (n * type.width)).map .inl := by
  simp [contents, is]

theorem contents_strings (is : v.type = .str ∨ v.type = .url) (n : Nat) :
    contents v n = (v.d_str.items.take n).map .inr := by
  obtain is | is := is <;> simp [contents, is]

def lengths (rows : List (VectorElements.Vector O)) : List Nat :=
  rows.map fun row => row.length.toNat

/-- The sum can be reserved, every call succeeds and returns the length of its Vector, and the
values are those of the Vectors in their order. -/
def Aggregates (v : VectorElements.Vector O) (rows : List (VectorElements.Vector O))
    (chosen : Nat) : Prop :=
  (lengths rows).sum < 2 ^ 32 ∧
    ∃ v₀ v', v.reserveValueCapacity (lengths rows).sum chosen = .ok v₀ ∧
      v₀.setSlices rows 0 = .ok (v', lengths rows) ∧
      contents v' (lengths rows).sum = rows.flatMap fun row => contents row row.length.toNat

/-- Numbers have as many bytes as an `unsigned int` and each slice as many as an `int` can count.
For strings the Vector has to have as many before. -/
def Room (v : VectorElements.Vector O) (rows : List (VectorElements.Vector O)) : Prop :=
  match v.type with
  | .cardinal type =>
    (lengths rows).sum * type.width < 2 ^ 32 ∧
      ∀ row ∈ rows, row.length.toNat * type.width < 2 ^ 31
  | .str | .url => (lengths rows).sum < 2 ^ 32 ∧ (lengths rows).sum ≤ v.d_str.items.length
  | _ => False

/-! ### One slice -/

/-- What a call that succeeds has done. -/
theorem setValueSlice_done {n : Nat} (done : v.setValueSlice row start = .ok (v', n)) :
    (∃ type into from' buf, v.type = .cardinal type ∧ v.buf = some into ∧
        row.buf = some from' ∧
        memcpy into ((start * type.width) % 2 ^ 32) from'
          (sizeT (int32 (row.numbers type).width)) = .ok buf ∧
        v' = { v with buf := some buf }) ∨
      ((v.type = .str ∨ v.type = .url) ∧ ∃ d_str,
        copyStrings start row.d_str 0 (uint32 row.length) v.d_str = .ok d_str ∧
        v' = { v with d_str }) := by
  unfold VectorElements.Vector.setValueSlice at done
  split_ifs at done
  split at done
  next type is =>
    split at done
    · cases done
    · cases done
    next into from' intoBuf fromBuf =>
      obtain ⟨buf, copied, same⟩ := Library.bind_success done
      cases same
      exact .inl ⟨type, into, from', buf, is, intoBuf, fromBuf, copied, rfl⟩
  next is =>
    obtain ⟨d_str, copied, same⟩ := Library.bind_success done
    cases same
    exact .inr ⟨.inl is, d_str, copied, rfl⟩
  next is =>
    obtain ⟨d_str, copied, same⟩ := Library.bind_success done
    cases same
    exact .inr ⟨.inr is, d_str, copied, rfl⟩
  all_goals cases done

/-- The checks pass. -/
theorem setValueSlice_checked (start : Nat) (same : row.type = v.type) (readIn : ReadIn row)
    (room : start + row.length.toNat ≤ v.capacity) (small : v.capacity < 2 ^ 32) :
    (∀ type into from', v.type = .cardinal type → v.buf = some into → row.buf = some from' →
      v.setValueSlice row start = (do
        let buf ← memcpy into ((start * type.width) % 2 ^ 32) from'
          (sizeT (int32 (row.numbers type).width))
        pure ({ v with buf := some buf }, row.length.toNat))) ∧
      (v.type = .str ∨ v.type = .url → v.setValueSlice row start = (do
        let d_str ← copyStrings start row.d_str 0 row.length.toNat v.d_str
        pure ({ v with d_str }, row.length.toNat))) := by
  obtain ⟨read, low, high, capacity, -⟩ := readIn
  have length : uint32 row.length = row.length.toNat := uint32_nonneg low high
  unfold VectorElements.Vector.setValueSlice
  rw [length, if_neg (not_not.mpr same), if_neg (by simp [read]), if_neg (by omega),
    if_neg (by omega), Nat.mod_eq_of_lt (by omega), if_neg (by omega)]
  constructor
  · intro type into from' is intoBuf fromBuf
    rw [is, intoBuf, fromBuf]
  · intro is
    obtain is | is := is
    · rw [is]
    · rw [is]

/-! ### Strings -/

theorem store_length {α : Type} {items items' : StdVector α} {i : Nat} {x : α}
    (done : items.store i x = .ok items') : items'.items.length = items.items.length := by
  unfold StdVector.store at done
  split at done
  · cases done
    simp
  · cases done

theorem copyStrings_length {rows d d' : StdVector (List UInt8)} {i n : Nat}
    (done : copyStrings start rows i n d = .ok d') : d'.items.length = d.items.length := by
  induction n generalizing i d with
  | zero =>
    cases done
    rfl
  | succ n ih =>
    obtain ⟨s, -, done⟩ := Library.bind_success done
    obtain ⟨d₁, stored, done⟩ := Library.bind_success done
    rw [ih done, store_length stored]

/-- From string `i` on, `n` strings are copied behind each other. -/
theorem copyStrings_eq (rows : StdVector (List UInt8)) (start : Nat) {n : Nat} (small : start + n < 2 ^ 32) :
    ∀ (left i : Nat) (d : StdVector (List UInt8)), i + left = n → n ≤ rows.items.length →
      start + n ≤ d.items.length →
      ∃ d', copyStrings start rows i left d = .ok d' ∧
        d'.items.take (start + n) =
          d.items.take (start + i) ++ (rows.items.take n).drop i := by
  intro left
  induction left with
  | zero =>
    intro i d total _ fits
    refine ⟨d, rfl, ?_⟩
    obtain rfl : i = n := by omega
    simp
  | succ left ih =>
    intro i d total enough fits
    have inRows : i < rows.items.length := by omega
    have inside : start + i < d.items.length := by omega
    have got : rows.get i = .ok rows.items[i] := by simp [StdVector.get, inRows]
    have stored : ∃ d₁, d.store ((start + i) % 2 ^ 32) rows.items[i] = .ok d₁ ∧
        d₁.items = d.items.set (start + i) rows.items[i] := by
      rw [Nat.mod_eq_of_lt (by omega)]
      exact ⟨_, if_pos inside, rfl⟩
    obtain ⟨d₁, stored, items⟩ := stored
    obtain ⟨d', done, copied⟩ := ih (i + 1) d₁ (by omega) enough (by simp [items]; omega)
    refine ⟨d', ?_, ?_⟩
    · rw [copyStrings, got]
      change (d.store _ _ >>= _) = _
      rw [stored]
      exact done
    · have front : d₁.items.take (start + (i + 1)) =
          d.items.take (start + i) ++ [rows.items[i]] := by
        rw [items, ← Nat.add_assoc, List.take_set, List.take_succ_eq_append_getElem inside,
          List.set_append_right _ _ (by simp)]
        simp [Nat.min_eq_left (Nat.le_of_lt inside)]
      have back : (rows.items.take n).drop i =
          rows.items[i] :: (rows.items.take n).drop (i + 1) := by
        rw [List.drop_eq_getElem_cons (by simp; omega)]
        simp
      rw [copied, front, back, List.append_assoc, List.singleton_append]

/-! ### All slices -/

theorem lengths_cons (row : VectorElements.Vector O) (rows : List (VectorElements.Vector O)) :
    (lengths (row :: rows)).sum = row.length.toNat + (lengths rows).sum := by
  simp [lengths]

theorem setSlices_cons {n : Nat} (done : v.setValueSlice row start = .ok (v', n))
    (length : uint32 row.length = row.length.toNat) :
    v.setSlices (row :: rows) start =
      (v'.setSlices rows (start + row.length.toNat)).map fun r => (r.1, n :: r.2) := by
  rw [VectorElements.Vector.setSlices, done, length]
  change (v'.setSlices rows _ >>= _) = _
  cases v'.setSlices rows (start + row.length.toNat) <;> rfl

theorem setSlices_strings (start : Nat) (same : ∀ row ∈ rows, row.type = v.type ∧ ReadIn row)
    (strings : v.type = .str ∨ v.type = .url) (small : v.capacity < 2 ^ 32)
    (room : start + (lengths rows).sum ≤ v.capacity)
    (fits : start + (lengths rows).sum ≤ v.d_str.items.length) :
    ∃ d_str, v.setSlices rows start = .ok ({ v with d_str }, lengths rows) ∧
      d_str.items.take (start + (lengths rows).sum) = v.d_str.items.take start ++
        rows.flatMap fun row => row.d_str.items.take row.length.toNat := by
  induction rows generalizing v start with
  | nil => exact ⟨v.d_str, rfl, by simp [lengths]⟩
  | cons row rows ih =>
    rw [List.forall_mem_cons] at same
    obtain ⟨⟨type, readIn⟩, later⟩ := same
    rw [lengths_cons] at room fits ⊢
    have checked := (setValueSlice_checked start type readIn (by omega) small).2 strings
    obtain ⟨_, low, high, _, holds⟩ := readIn
    have enough : row.length.toNat ≤ row.d_str.items.length := by
      obtain is | is := strings
      · rw [type, is] at holds
        exact holds
      · rw [type, is] at holds
        exact holds
    obtain ⟨d₁, copied, items⟩ := copyStrings_eq row.d_str start
      (n := row.length.toNat) (by omega) row.length.toNat 0 v.d_str (by omega) enough (by omega)
    have size := copyStrings_length copied
    rw [copied] at checked
    obtain ⟨d', done, all⟩ := ih (v := { v with d_str := d₁ })
      (start + row.length.toNat) later strings small
      (show start + row.length.toNat + (lengths rows).sum ≤ v.capacity by omega)
      (show start + row.length.toNat + (lengths rows).sum ≤ d₁.items.length by omega)
    refine ⟨d', ?_, ?_⟩
    · rw [setSlices_cons checked (uint32_nonneg low high), done]
      rfl
    · rw [← Nat.add_assoc, all]
      simp only [Nat.add_zero, List.drop_zero] at items
      rw [items, List.flatMap_cons, List.append_assoc]

theorem memcpy_take {into from' : Buffer} (offset n : Nat) (inside : offset + n ≤ into.length)
    (enough : n ≤ from'.length) :
    ∃ buf, memcpy into offset from' n = .ok buf ∧ buf.length = into.length ∧
      buf.take (offset + n) = into.take offset ++ from'.take n := by
  refine ⟨into.take offset ++ from'.take n ++ into.drop (offset + n), ?_, ?_, ?_⟩
  · exact if_pos ⟨inside, enough⟩
  · simp
    omega
  · have front : (into.take offset ++ from'.take n).length = offset + n := by
      simp
      omega
    rw [List.take_left' front]

theorem numbers_width (type : CardType) (row : VectorElements.Vector O) (low : 0 ≤ row.length)
    (high : row.length < 2 ^ 31) (small : row.length.toNat * type.width < 2 ^ 32) :
    (row.numbers type).width = row.length.toNat * type.width := by
  unfold Vectors.Vector.width VectorElements.Vector.numbers
  dsimp only
  rw [uint32_nonneg low high, Nat.mod_eq_of_lt small]

theorem setSlices_numbers (start : Nat) (same : ∀ row ∈ rows, row.type = v.type ∧ ReadIn row)
    (numbers : v.type = .cardinal type) {into : Buffer} (intoBuf : v.buf = some into)
    (small : v.capacity < 2 ^ 32) (room : start + (lengths rows).sum ≤ v.capacity)
    (fits : (start + (lengths rows).sum) * type.width ≤ into.length) (bytes : into.length < 2 ^ 32)
    (counted : ∀ row ∈ rows, row.length.toNat * type.width < 2 ^ 31) :
    ∃ buf, v.setSlices rows start = .ok ({ v with buf := some buf }, lengths rows) ∧
      buf.take ((start + (lengths rows).sum) * type.width) = into.take (start * type.width) ++
        rows.flatMap fun row => (row.buf.getD []).take (row.length.toNat * type.width) := by
  induction rows generalizing v start into with
  | nil =>
    refine ⟨into, ?_, by simp [lengths]⟩
    rw [← intoBuf]
    rfl
  | cons row rows ih =>
    rw [List.forall_mem_cons] at same counted
    obtain ⟨⟨is, readIn⟩, later⟩ := same
    rw [lengths_cons] at room fits ⊢
    have checked := (setValueSlice_checked start is readIn (by omega) small).1
    obtain ⟨_, low, high, _, holds⟩ := readIn
    rw [is, numbers] at holds
    obtain ⟨from', fromBuf, enough⟩ := holds
    have width := numbers_width type row low high (by omega)
    have count : sizeT (int32 (row.numbers type).width) = row.length.toNat * type.width := by
      rw [width]
      exact (sizeT_int32 _ (by omega)).1 counted.1
    have offsets : (start + row.length.toNat) * type.width =
        start * type.width + row.length.toNat * type.width := Nat.add_mul _ _ _
    have below : (start + row.length.toNat) * type.width ≤
        (start + (row.length.toNat + (lengths rows).sum)) * type.width :=
      Nat.mul_le_mul_right _ (by omega)
    obtain ⟨buf₁, copied, size, items⟩ := memcpy_take (start * type.width)
      (row.length.toNat * type.width) (fits.trans' (offsets ▸ below)) enough
    have first : v.setValueSlice row start =
        .ok ({ v with buf := some buf₁ }, row.length.toNat) := by
      rw [checked type into from' numbers intoBuf fromBuf, count, Nat.mod_eq_of_lt (by omega),
        copied]
      rfl
    obtain ⟨buf, done, all⟩ := ih (v := { v with buf := some buf₁ })
      (start + row.length.toNat) later numbers rfl small
      (show start + row.length.toNat + (lengths rows).sum ≤ v.capacity by omega)
      (by rw [size, Nat.add_assoc]; exact fits) (by omega) counted.2
    refine ⟨buf, ?_, ?_⟩
    · rw [setSlices_cons first (uint32_nonneg low high), done]
      rfl
    · rw [← Nat.add_assoc, all, offsets, items, List.flatMap_cons, fromBuf, List.append_assoc,
        Option.getD_some]

/-! ### What calls that succeed say -/

/-- The storage stays as large as it is, and no slice has more bytes than there are. -/
theorem setSlices_done {ns : List Nat} (done : v.setSlices rows start = .ok (v', ns)) :
    v'.type = v.type ∧ v'.d_str.items.length = v.d_str.items.length ∧
      (v'.buf.getD []).length = (v.buf.getD []).length ∧
      ∀ type, v.type = .cardinal type → ∀ row ∈ rows,
        sizeT (int32 (row.numbers type).width) ≤ (v.buf.getD []).length := by
  induction rows generalizing v start ns with
  | nil =>
    cases done
    exact ⟨rfl, rfl, rfl, by simp⟩
  | cons row rows ih =>
    obtain ⟨⟨v₁, n⟩, first, done⟩ := Library.bind_success done
    obtain ⟨⟨v₂, ns'⟩, rest, done⟩ := Library.bind_success done
    cases done
    obtain ⟨type, strings, bytes, counted⟩ := ih rest
    obtain ⟨t, into, from', buf, is, intoBuf, fromBuf, copied, rfl⟩ | ⟨is, d_str, copied, rfl⟩ :=
      setValueSlice_done first
    · have size : buf.length = into.length := memcpy_length copied
      have bounded : InBounds (memcpy into ((start * t.width) % 2 ^ 32) from'
          (sizeT (int32 (row.numbers t).width))) := by
        rw [InBounds, copied]
        simp
      have inside := (memcpy_bounds.mp bounded).1
      simp only [Option.getD_some, size] at bytes counted
      simp only [intoBuf, Option.getD_some]
      refine ⟨type, strings, bytes, ?_⟩
      intro t' is'
      rw [is] at is'
      cases is'
      exact List.forall_mem_cons.mpr ⟨by omega, counted t is⟩
    · refine ⟨type, strings.trans (copyStrings_length copied), bytes, ?_⟩
      intro t' is'
      rw [is'] at is
      simp at is

theorem contents_length (same : row.type = v.type) (readIn : ReadIn row) :
    (contents row row.length.toNat).length =
      match v.type with
      | .cardinal type => row.length.toNat * type.width
      | _ => row.length.toNat := by
  obtain ⟨_, _, _, _, holds⟩ := readIn
  unfold contents
  rw [same] at holds ⊢
  cases is : v.type with
  | cardinal type =>
    simp only [is] at holds ⊢
    obtain ⟨buf, there, enough⟩ := holds
    simp [there, enough]
  | str =>
    simp only [is] at holds ⊢
    simp [holds]
  | url =>
    simp only [is] at holds ⊢
    simp [holds]
  | array | struct | sequence | grid | null =>
    simp only [is] at holds

theorem flatMap_length (same : ∀ row ∈ rows, row.type = v.type ∧ ReadIn row) :
    (rows.flatMap fun row => contents row row.length.toNat).length =
      match v.type with
      | .cardinal type => (lengths rows).sum * type.width
      | _ => (lengths rows).sum := by
  induction rows with
  | nil => cases v.type <;> simp [lengths]
  | cons row rows ih =>
    rw [List.forall_mem_cons] at same
    rw [List.flatMap_cons, List.length_append, contents_length same.1.1 same.1.2, ih same.2,
      lengths_cons]
    cases v.type <;> simp [Nat.add_mul]

theorem le_lengths_sum (mem : row ∈ rows) : row.length.toNat ≤ (lengths rows).sum :=
  List.le_sum_of_mem (List.mem_map_of_mem mem)

/-! ### The result -/

theorem aggregates_of_room {chosen : Nat} (same : ∀ row ∈ rows, row.type = v.type ∧ ReadIn row)
    (room : Room v rows) : Aggregates v rows chosen := by
  cases is : v.type with
  | cardinal type =>
    unfold Room at room
    rw [is] at room
    obtain ⟨bytes, counted⟩ := room
    have positive : 1 ≤ type.width := by cases type <;> decide
    have small : (lengths rows).sum < 2 ^ 32 :=
      Nat.lt_of_le_of_lt (Nat.le_mul_of_pos_right _ positive) bytes
    have made : v.reserveValueCapacity (lengths rows).sum chosen =
        .ok { v with
          buf := some (List.replicate ((type.width * (lengths rows).sum) % 2 ^ 32) none)
          capacity := (lengths rows).sum } := by
      unfold VectorElements.Vector.reserveValueCapacity
      rw [is]
      rfl
    rw [Nat.mod_eq_of_lt (by rw [Nat.mul_comm]; exact bytes)] at made
    obtain ⟨buf, done, all⟩ := setSlices_numbers 0
      (v := { v with
        buf := some (List.replicate (type.width * (lengths rows).sum) none)
        capacity := (lengths rows).sum })
      same is rfl small (Nat.le_of_eq (Nat.zero_add _)) (by simp [Nat.mul_comm])
      (by simpa [Nat.mul_comm] using bytes) counted
    refine ⟨small, _, _, made, done, ?_⟩
    rw [Nat.zero_add, Nat.zero_mul, List.take_zero, List.nil_append] at all
    rw [contents_numbers type]
    · rw [Option.getD_some, all, List.map_flatMap]
      refine List.flatMap_congr fun row mem => ?_
      rw [contents_numbers type ((same row mem).1.trans is)]
    · exact is
  | str | url =>
    unfold Room at room
    rw [is] at room
    have made : v.reserveValueCapacity (lengths rows).sum chosen =
        .ok { v with d_str := v.d_str.reserve chosen, capacity := (lengths rows).sum } := by
      unfold VectorElements.Vector.reserveValueCapacity
      rw [is]
      rfl
    obtain ⟨d_str, done, all⟩ := setSlices_strings 0
      (v := { v with d_str := v.d_str.reserve chosen, capacity := (lengths rows).sum })
      same (by simp [is]) room.1 (Nat.le_of_eq (Nat.zero_add _))
      (by simpa [StdVector.reserve] using room.2)
    refine ⟨room.1, _, _, made, done, ?_⟩
    rw [Nat.zero_add, List.take_zero, List.nil_append] at all
    rw [contents_strings]
    · rw [all, List.map_flatMap]
      refine List.flatMap_congr fun row mem => ?_
      rw [contents_strings (by simp [(same row mem).1, is])]
    · simp [is]
  | array | struct | sequence | grid | null =>
    unfold Room at room
    rw [is] at room
    exact room.elim

theorem room_of_aggregates {chosen : Nat} (same : ∀ row ∈ rows, row.type = v.type ∧ ReadIn row)
    (simple : (∃ type, v.type = .cardinal type) ∨ v.type = .str ∨ v.type = .url)
    (aggregates : Aggregates v rows chosen) : Room v rows := by
  obtain ⟨small, v₀, v', made, done, all⟩ := aggregates
  obtain ⟨type, strings, bytes, counted⟩ := setSlices_done done
  have total := congrArg List.length all
  rw [flatMap_length same] at total
  unfold Room
  obtain ⟨t, is⟩ | is | is := simple
  · unfold VectorElements.Vector.reserveValueCapacity at made
    rw [is] at made ⊢
    cases made
    have size : (v'.buf.getD []).length = (t.width * (lengths rows).sum) % 2 ^ 32 := by
      rw [bytes]
      exact List.length_replicate
    unfold contents at total
    rw [type, is] at total
    simp only [List.length_map, List.length_take] at total ⊢
    have product : (lengths rows).sum * t.width < 2 ^ 32 := by omega
    refine ⟨product, ?_⟩
    intro row mem
    obtain ⟨_, low, high, _⟩ := (same row mem).2
    have part : row.length.toNat * t.width ≤ (lengths rows).sum * t.width :=
      Nat.mul_le_mul_right _ (le_lengths_sum mem)
    have inside := counted t rfl row mem
    rw [← bytes, size, numbers_width t row low high (by omega)] at inside
    by_contra large
    have huge := (sizeT_int32 (row.length.toNat * t.width) (by omega)).2 (by omega)
    omega
  all_goals
    unfold VectorElements.Vector.reserveValueCapacity at made
    rw [is] at made ⊢
    cases made
    unfold contents at total
    rw [type, is] at total
    simp only [List.length_map, List.length_take, strings] at total
    refine ⟨small, ?_⟩
    simp only [StdVector.reserve] at total
    omega

/-- Rows of one simple type become one Vector exactly if the Vector has room for them. -/
theorem aggregates_iff (v : VectorElements.Vector O) (rows : List (VectorElements.Vector O))
    (chosen : Nat) (simple : (∃ type, v.type = .cardinal type) ∨ v.type = .str ∨ v.type = .url)
    (same : ∀ row ∈ rows, row.type = v.type ∧ ReadIn row) :
    Aggregates v rows chosen ↔ Room v rows :=
  ⟨room_of_aggregates same simple, aggregates_of_room same⟩

/-! ### One string -/

def oneString : VectorElements.Vector noObjects where
  name := "s"
  type := .str
  length := 1
  capacity := 1
  readP := true
  buf := none
  d_str := ⟨[[97]], 1, Nat.le_refl 1⟩
  vec := noItems

/-- A Vector that has had no strings yet. -/
def noStrings : VectorElements.Vector noObjects where
  name := "t"
  type := .str
  length := -1
  capacity := 0
  readP := false
  buf := none
  d_str := noItems
  vec := noItems

theorem one_string_read : ∀ row ∈ [oneString], row.type = noStrings.type ∧ ReadIn row := by
  intro row mem
  rw [List.mem_singleton.mp mem]
  exact ⟨rfl, rfl, by decide, by decide, by decide, Nat.le_refl 1⟩

theorem one_byte_aggregates :
    ((∃ type, oneByte.type = .cardinal type) ∨ oneByte.type = .str ∨ oneByte.type = .url) ∧
      (∀ row ∈ [oneByte, oneByte], row.type = oneByte.type ∧ ReadIn row) ∧
      (Aggregates oneByte [oneByte, oneByte] 0 ↔ Room oneByte [oneByte, oneByte]) :=
  have simple := .inl ⟨.byte, rfl⟩
  have read : ReadIn oneByte :=
    ⟨rfl, by decide, by decide, by decide, [some 7], rfl, Nat.le_refl 1⟩
  have same : ∀ row ∈ [oneByte, oneByte], row.type = oneByte.type ∧ ReadIn row := by
    intro row mem
    obtain rfl : row = oneByte := by simpa using mem
    exact ⟨rfl, read⟩
  ⟨simple, same, aggregates_iff oneByte [oneByte, oneByte] 0 simple same⟩

/-- The string is written behind the end of `d_str`, which is empty. -/
theorem string_beyond_end :
    (∀ row ∈ [oneString], row.type = noStrings.type ∧ ReadIn row) ∧
      ¬ Aggregates noStrings [oneString] 1 := by
  refine ⟨one_string_read, ?_⟩
  intro ⟨_, v₀, v', made, done, _⟩
  cases made
  cases done

end Libdap.Guarantees.SliceAggregation
