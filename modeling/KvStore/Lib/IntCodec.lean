import Mathlib.Algebra.Ring.Nat

/-! # Integers as bytes

The little-endian bytes of a number, and the four bytes in which a file stores a signed 32-bit integer. -/

namespace IntCodec

/-- The last `n` base-256 digits of a number, the least one first. -/
def bytesLE : Nat → Nat → List UInt8
  | 0, _ => []
  | n + 1, x => UInt8.ofNat x :: bytesLE n (x / 256)

def ofBytesLE : List UInt8 → Nat
  | [] => 0
  | b :: bs => b.toNat + 256 * ofBytesLE bs

@[simp] theorem length_bytesLE : ∀ n x : Nat, (bytesLE n x).length = n
  | 0, _ => rfl
  | n + 1, x => by simp [bytesLE, length_bytesLE n]

theorem ofBytesLE_bytesLE : ∀ n x : Nat, ofBytesLE (bytesLE n x) = x % 256 ^ n
  | 0, x => by simp [bytesLE, ofBytesLE, Nat.mod_one]
  | n + 1, x => by
    have ih := ofBytesLE_bytesLE n (x / 256)
    have hpow : 256 ^ (n + 1) = 256 * 256 ^ n := pow_succ' 256 n
    rw [bytesLE, ofBytesLE, ih, UInt8.toNat_ofNat', hpow, Nat.mod_mul]

theorem ofBytesLE_lt : ∀ b : List UInt8, ofBytesLE b < 256 ^ b.length
  | [] => Nat.one_pos
  | b :: bs => by
    have ih := ofBytesLE_lt bs
    have hb := b.toNat_lt
    rw [ofBytesLE, List.length_cons, pow_succ']
    omega

theorem bytesLE_ofBytesLE : ∀ b : List UInt8, bytesLE b.length (ofBytesLE b) = b
  | [] => rfl
  | b :: bs => by
    have hb := b.toNat_lt
    have hdigit : UInt8.ofNat (b.toNat + 256 * ofBytesLE bs) = b :=
      UInt8.toNat.inj (by rw [UInt8.toNat_ofNat']; omega)
    have hrest : (b.toNat + 256 * ofBytesLE bs) / 256 = ofBytesLE bs := by omega
    rw [List.length_cons, ofBytesLE, bytesLE, hdigit, hrest, bytesLE_ofBytesLE bs]

/-- The bytes of `n` as a signed integer of 32 bits, which keeps `n` modulo `2 ^ 32`. -/
def int32 (n : Int) : List UInt8 := bytesLE 4 (n % UInt32.size).toNat

def ofInt32 (b : List UInt8) : Int := (ofBytesLE b : Int).bmod UInt32.size

@[simp] theorem length_int32 (n : Int) : (int32 n).length = 4 := length_bytesLE 4 _

@[simp] theorem ofInt32_int32 (n : Int) : ofInt32 (int32 n) = n.bmod UInt32.size := by
  have hpos : (0 : Int) < UInt32.size := by decide
  have hnonneg := Int.emod_nonneg n (Int.ne_of_gt hpos)
  have hlt := (Int.toNat_lt hnonneg).mpr (Int.emod_lt_of_pos n hpos)
  have hsize : 256 ^ 4 = UInt32.size := by decide
  have hbytes : ofBytesLE (int32 n) = (n % UInt32.size).toNat := by
    rw [int32, ofBytesLE_bytesLE, hsize, Nat.mod_eq_of_lt hlt]
  calc ofInt32 (int32 n) = (ofBytesLE (int32 n) : Int).bmod UInt32.size := rfl
    _ = ((n % UInt32.size).toNat : Int).bmod UInt32.size := by rw [hbytes]
    _ = (n % UInt32.size).bmod UInt32.size := by rw [Int.toNat_of_nonneg hnonneg]
    _ = n.bmod UInt32.size := Int.emod_bmod n _

theorem toNat_bmod_emod {n : Nat} (h : n < UInt32.size) : ((n : Int).bmod UInt32.size % UInt32.size).toNat = n := by
  have hlt : (n : Int) < (UInt32.size : Nat) := Int.ofNat_lt.mpr h
  rw [Int.bmod_emod, Int.emod_eq_of_lt (Int.natCast_nonneg _) hlt, Int.toNat_natCast]

/-- Any four bytes are the bytes of the integer that they are read as. -/
theorem int32_ofInt32 {b : List UInt8} (h : b.length = 4) : int32 (ofInt32 b) = b := by
  have hsize : 256 ^ 4 = UInt32.size := by decide
  have hlt : ofBytesLE b < UInt32.size := by
    rw [← hsize, ← h]
    exact ofBytesLE_lt b
  have hmod : (ofInt32 b % UInt32.size).toNat = ofBytesLE b := toNat_bmod_emod hlt
  have hbytes := bytesLE_ofBytesLE b
  rw [h] at hbytes
  rw [int32, hmod]
  exact hbytes

/-- The range of a signed integer of 32 bits. -/
def IsInt32 (n : Int) : Prop := -2147483648 ≤ n ∧ n < 2147483648

theorem bmod_of_isInt32 {n : Int} (h : IsInt32 n) : n.bmod UInt32.size = n := by
  obtain ⟨h₁, h₂⟩ := h
  exact Int.bmod_eq_of_le (by simpa [UInt32.size] using h₁) (by simpa [UInt32.size] using h₂)

theorem bmod_isInt32 (n : Int) : IsInt32 (n.bmod UInt32.size) :=
  ⟨Int.le_bmod (by decide), Int.bmod_lt (by decide)⟩

theorem isInt32_ofInt32 (b : List UInt8) : IsInt32 (ofInt32 b) := bmod_isInt32 _

end IntCodec
