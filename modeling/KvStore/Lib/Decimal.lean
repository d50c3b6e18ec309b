import Mathlib.Algebra.Ring.Nat
import Mathlib.Data.List.Induction
import Mathlib.Tactic.Common

/-! # Decimal numbers as bytes

The digits that a number is printed with, and the number that a list of digits stands for. The first digits of a
printed number stand for a smaller number, unless they are all of them. -/

namespace Decimal

/-- The number in base ten, the first digit first. -/
def decimal (n : Nat) : List UInt8 := (Nat.toDigits 10 n).map fun c => UInt8.ofNat c.toNat

def IsDigit (b : UInt8) : Prop := 48 ≤ b.toNat ∧ b.toNat ≤ 57

instance (b : UInt8) : Decidable (IsDigit b) := inferInstanceAs (Decidable (_ ∧ _))

def digitVal (b : UInt8) : Nat := b.toNat - 48

/-- The number that digits stand for. -/
def value (ds : List UInt8) : Nat := ds.foldl (fun n b => n * 10 + digitVal b) 0

theorem value_singleton (b : UInt8) : value [b] = digitVal b := by
  simp [value]

theorem value_concat (ds : List UInt8) (b : UInt8) : value (ds ++ [b]) = value ds * 10 + digitVal b := by
  simp [value]

theorem decimal_of_lt {n : Nat} (h : n < 10) : decimal n = [UInt8.ofNat (48 + n)] := by
  rw [decimal, Nat.toDigits_of_lt_base h, List.map_singleton, Nat.toNat_digitChar_of_lt_ten h]

theorem decimal_of_ge {n : Nat} (h : 10 ≤ n) : decimal n = decimal (n / 10) ++ [UInt8.ofNat (48 + n % 10)] := by
  have hmod : n % 10 < 10 := Nat.mod_lt n (by decide)
  rw [decimal, Nat.toDigits_of_base_le (by decide) h, List.map_append, List.map_singleton,
    Nat.toNat_digitChar_of_lt_ten hmod]
  rfl

/-- A property of printed numbers, from those of one digit and from one digit more. -/
theorem decimal_rec {P : Nat → Prop} (one : ∀ n < 10, P n) (more : ∀ n, 10 ≤ n → P (n / 10) → P n) (n : Nat) :
    P n := by
  induction n using Nat.strongRecOn with
  | ind n ih =>
    by_cases h : n < 10
    · exact one n h
    · exact more n (by omega) (ih (n / 10) (by omega))

theorem toNat_digit {n : Nat} (h : n < 10) : (UInt8.ofNat (48 + n)).toNat = 48 + n := by
  rw [UInt8.toNat_ofNat']
  omega

theorem isDigit_digit {n : Nat} (h : n < 10) : IsDigit (UInt8.ofNat (48 + n)) := by
  rw [IsDigit, toNat_digit h]
  omega

theorem digitVal_digit {n : Nat} (h : n < 10) : digitVal (UInt8.ofNat (48 + n)) = n := by
  rw [digitVal, toNat_digit h, Nat.add_sub_cancel_left]

@[simp] theorem decimal_ne_nil (n : Nat) : decimal n ≠ [] := by
  simp [decimal]

theorem length_decimal_le {n k : Nat} (hk : 0 < k) (h : n < 10 ^ k) : (decimal n).length ≤ k := by
  rw [decimal, List.length_map]
  exact (Nat.length_toDigits_le_iff (by decide) hk).mpr h

theorem isDigit_of_mem_decimal (n : Nat) : ∀ b ∈ decimal n, IsDigit b := by
  induction n using decimal_rec with
  | one n h =>
    rw [decimal_of_lt h]
    simpa using isDigit_digit h
  | more n h ih =>
    rw [decimal_of_ge h]
    intro b hb
    rcases List.mem_append.mp hb with hb | hb
    · exact ih b hb
    · rw [List.mem_singleton.mp hb]
      exact isDigit_digit (Nat.mod_lt n (by decide))

@[simp] theorem value_decimal (n : Nat) : value (decimal n) = n := by
  induction n using decimal_rec with
  | one n h =>
    rw [decimal_of_lt h, value_singleton, digitVal_digit h]
  | more n h ih =>
    rw [decimal_of_ge h, value_concat, ih, digitVal_digit (Nat.mod_lt n (by decide))]
    omega

/-- More digits stand for no smaller number, and for one at least ten times as large. -/
theorem value_append_ge (ds es : List UInt8) (h : es ≠ []) : 10 * value ds ≤ value (ds ++ es) := by
  induction es using List.reverseRecOn with
  | nil => exact absurd rfl h
  | append_singleton es b ih =>
    rw [← List.append_assoc, value_concat]
    by_cases hes : es = []
    · rw [hes, List.append_nil]
      omega
    · have := ih hes
      omega

theorem value_le_of_prefix {ds es : List UInt8} (h : ds <+: es) : value ds ≤ value es := by
  obtain ⟨es, rfl⟩ := h
  by_cases hes : es = []
  · simp [hes]
  · have := value_append_ge ds es hes
    omega

/-- Digits at the start of a printed number that stand for the number are all of its digits. -/
theorem eq_decimal_of_prefix {ds : List UInt8} {n : Nat} (hds : ds ≠ []) (h : ds <+: decimal n) (hv : value ds = n) :
    ds = decimal n := by
  obtain ⟨es, hes⟩ := h
  by_cases hnil : es = []
  · rw [← hes, hnil, List.append_nil]
  · have hge := value_append_ge ds es hnil
    rw [hes, value_decimal, hv] at hge
    -- only zero is ten times itself, and zero has one digit
    obtain rfl : n = 0 := by omega
    rw [decimal_of_lt (by decide)] at hes
    have hlen := congrArg List.length hes
    have hpos := List.length_pos_iff.mpr hds
    have hpos' := List.length_pos_iff.mpr hnil
    simp only [List.length_append, List.length_singleton] at hlen
    omega

end Decimal
