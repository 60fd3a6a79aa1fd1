import Mathlib.Tactic

/-!
# Fixed-width words as byte lists

A word of `w` bytes is a natural number below `256 ^ w`. `store` gives the
bytes a machine of a byte order keeps in memory for it and `load` reads them
back; `byteReverse` is the exchange of byte order on the number itself. Vectors
are stored element after element and cut apart again by `pieces`.
-/
namespace Libdap.Library.Bytes

inductive ByteOrder where
  | big | little
  deriving DecidableEq, Repr

def encodeLE : Nat → Nat → List UInt8
  | 0, _ => []
  | w + 1, n => UInt8.ofNat n :: encodeLE w (n / 256)

def decodeLE : List UInt8 → Nat
  | [] => 0
  | b :: bs => b.toNat + 256 * decodeLE bs

@[simp] theorem encodeLE_length (w n : Nat) : (encodeLE w n).length = w := by
  induction w generalizing n with
  | zero => rfl
  | succ w ih => simp only [encodeLE, List.length_cons, ih]

theorem decodeLE_encodeLE (w n : Nat) : decodeLE (encodeLE w n) = n % 256 ^ w := by
  induction w generalizing n with
  | zero => simp [encodeLE, decodeLE, Nat.mod_one]
  | succ w ih =>
    have low : (UInt8.ofNat n).toNat = n % 256 := UInt8.toNat_ofNat'
    rw [encodeLE, decodeLE, ih, low, pow_succ', Nat.mod_mul]

theorem encodeLE_add (k w n : Nat) :
    encodeLE (k + w) n = encodeLE k n ++ encodeLE w (n / 256 ^ k) := by
  induction k generalizing n with
  | zero => simp [encodeLE]
  | succ k ih =>
    have next : k + 1 + w = k + w + 1 := by omega
    have above : n / 256 / 256 ^ k = n / 256 ^ (k + 1) := by
      rw [Nat.div_div_eq_div_mul, pow_succ']
    rw [next, encodeLE, encodeLE, ih, above, List.cons_append]

theorem decodeLE_append (as bs : List UInt8) :
    decodeLE (as ++ bs) = decodeLE as + 256 ^ as.length * decodeLE bs := by
  induction as with
  | nil => simp [decodeLE]
  | cons a as ih =>
    rw [List.cons_append, decodeLE, ih, decodeLE, List.length_cons, pow_succ']
    ring

theorem decodeLE_lt (bs : List UInt8) : decodeLE bs < 256 ^ bs.length := by
  induction bs with
  | nil => simp [decodeLE]
  | cons b bs ih =>
    have hb : b.toNat < 256 := b.toNat_lt
    rw [decodeLE, List.length_cons, pow_succ]
    omega

theorem encodeLE_decodeLE (bs : List UInt8) : encodeLE bs.length (decodeLE bs) = bs := by
  induction bs with
  | nil => rfl
  | cons b bs ih =>
    have hb : b.toNat < 256 := b.toNat_lt
    have tail : (b.toNat + 256 * decodeLE bs) / 256 = decodeLE bs := by omega
    have head : UInt8.ofNat (b.toNat + 256 * decodeLE bs) = b := by
      apply UInt8.toNat_inj.mp
      rw [UInt8.toNat_ofNat']
      omega
    rw [List.length_cons, decodeLE, encodeLE, tail, ih, head]

/-- The number whose `w` bytes are those of `n` in the opposite order. -/
def byteReverse (w n : Nat) : Nat := decodeLE (encodeLE w n).reverse

theorem byteReverse_decodeLE (bs : List UInt8) :
    byteReverse bs.length (decodeLE bs) = decodeLE bs.reverse := by
  rw [byteReverse, encodeLE_decodeLE]

theorem byteReverse_byteReverse {w n : Nat} (h : n < 256 ^ w) :
    byteReverse w (byteReverse w n) = n := by
  have again := byteReverse_decodeLE (encodeLE w n).reverse
  rw [List.length_reverse, encodeLE_length, List.reverse_reverse, decodeLE_encodeLE,
    Nat.mod_eq_of_lt h] at again
  exact again

theorem byteReverse_lt (w n : Nat) : byteReverse w n < 256 ^ w := by
  have h := decodeLE_lt (encodeLE w n).reverse
  rwa [List.length_reverse, encodeLE_length] at h

/-- The low bytes of a reversed number are its high bytes reversed. -/
theorem byteReverse_low (k w n : Nat) :
    byteReverse (k + w) n % 256 ^ w = byteReverse w (n / 256 ^ k) := by
  have small := byteReverse_lt w (n / 256 ^ k)
  rw [byteReverse] at small ⊢
  rw [encodeLE_add, List.reverse_append, decodeLE_append, List.length_reverse, encodeLE_length,
    Nat.add_mul_mod_self_left, Nat.mod_eq_of_lt small, byteReverse]

/-- The bytes of a `w`-byte word in the memory of a machine. -/
def store (order : ByteOrder) (w n : Nat) : List UInt8 :=
  match order with
  | .little => encodeLE w n
  | .big => (encodeLE w n).reverse

def load (order : ByteOrder) (bs : List UInt8) : Nat :=
  match order with
  | .little => decodeLE bs
  | .big => decodeLE bs.reverse

@[simp] theorem store_length (order : ByteOrder) (w n : Nat) : (store order w n).length = w := by
  cases order <;> simp [store]

theorem load_store (order : ByteOrder) {w n : Nat} (h : n < 256 ^ w) :
    load order (store order w n) = n := by
  cases order <;>
    simp only [load, store, List.reverse_reverse, decodeLE_encodeLE, Nat.mod_eq_of_lt h]

theorem load_store_differ {written read : ByteOrder} (differ : written ≠ read) (w n : Nat) :
    load read (store written w n) = byteReverse w n := by
  cases written <;> cases read <;> simp_all [load, store, byteReverse]

/-- A word stored under one order and loaded under the other comes back
byte-reversed, so that one more reversal restores it. -/
theorem byteReverse_load_store {written read : ByteOrder} (differ : written ≠ read) {w n : Nat}
    (h : n < 256 ^ w) : byteReverse w (load read (store written w n)) = n := by
  rw [load_store_differ differ, byteReverse_byteReverse h]

/-- The memory of a vector of `w`-byte elements. -/
def storeAll (order : ByteOrder) (w : Nat) (ns : List Nat) : List UInt8 :=
  ns.flatMap (store order w)

/-- `count` consecutive pieces of `w` bytes; short memory gives short pieces. -/
def pieces (w : Nat) : Nat → List UInt8 → List (List UInt8)
  | 0, _ => []
  | count + 1, bs => bs.take w :: pieces w count (bs.drop w)

theorem pieces_succ (w count : Nat) (bs : List UInt8) :
    pieces w (count + 1) bs = pieces w count bs ++ [(bs.drop (count * w)).take w] := by
  induction count generalizing bs with
  | zero => simp [pieces]
  | succ count ih =>
    have further : w + count * w = (count + 1) * w := by ring
    rw [pieces, ih, pieces, List.cons_append, List.drop_drop, further]

@[simp] theorem pieces_length (w count : Nat) (bs : List UInt8) :
    (pieces w count bs).length = count := by
  induction count generalizing bs with
  | zero => rfl
  | succ count ih => rw [pieces, List.length_cons, ih]

@[simp] theorem storeAll_length (order : ByteOrder) (w : Nat) (ns : List Nat) :
    (storeAll order w ns).length = ns.length * w := by
  induction ns with
  | nil => simp [storeAll]
  | cons n ns ih =>
    have tail : (ns.flatMap (store order w)).length = ns.length * w := ih
    simp only [storeAll, List.flatMap_cons, List.length_append, store_length, tail,
      List.length_cons]
    rw [Nat.add_mul]
    omega

theorem pieces_storeAll (order : ByteOrder) (w : Nat) (ns : List Nat) :
    pieces w ns.length (storeAll order w ns) = ns.map (store order w) := by
  induction ns with
  | nil => rfl
  | cons n ns ih =>
    have cut : storeAll order w (n :: ns) = store order w n ++ storeAll order w ns := by
      simp [storeAll]
    have size : (store order w n).length = w := store_length order w n
    rw [List.length_cons, pieces, cut, List.take_left' size, List.drop_left' size, ih,
      List.map_cons]

end Libdap.Library.Bytes
