import Mathlib.Data.List.Lex
import Mathlib.Data.List.TakeWhile
import Mathlib.Order.Lattice
import Mathlib.Tactic.Common

/-! C strings. The engines hold keys and values as NUL-terminated `char` arrays and compare them with
    `strcmp`, that is byte by byte as `unsigned char`. A `CString` is the content of such an array up to
    its terminator. A buffer that need not be terminated (one that was read from a file) is a plain
    list of bytes, and a read past its end is a fault. -/

namespace KvStore

/-- The bytes of a C string before the terminating NUL. -/
structure CString where
  bytes : List UInt8
  noNul : (0 : UInt8) ∉ bytes
deriving DecidableEq

namespace CString

theorem ext_bytes {s t : CString} (h : s.bytes = t.bytes) : s = t := by
  cases s
  cases t
  simpa using h

/-- What a C function sees of an object that starts with `b` and is terminated at the latest after it,
    as `std::string::c_str` guarantees. -/
def ofBytes (b : List UInt8) : CString where
  bytes := b.takeWhile (· != 0)
  noNul h := by simpa using List.mem_takeWhile_imp h

@[simp] theorem ofBytes_bytes (s : CString) : ofBytes s.bytes = s :=
  ext_bytes (List.takeWhile_eq_self_iff.mpr fun b hb => by
    have : b ≠ 0 := fun h => s.noNul (h ▸ hb)
    simpa using this)

/-- The object a C string occupies in memory, its terminator included. -/
def buf (s : CString) : List UInt8 := s.bytes ++ [0]

theorem ofBytes_buf (s : CString) : ofBytes s.buf = s := by
  refine ext_bytes ?_
  have hall : ∀ b ∈ s.bytes, (b != 0) = true := by
    intro b hb
    have : b ≠ 0 := fun h => s.noNul (h ▸ hb)
    simpa using this
  simp [ofBytes, buf, List.takeWhile_append_of_pos hall]

/-- `strlen` -/
def strlen (s : CString) : Nat := s.bytes.length

end CString

/-! ### strcmp -/

/-- `strcmp` on the contents of two terminated strings: the difference of the first bytes that differ. -/
def strcmpBytes : List UInt8 → List UInt8 → Int
  | [], [] => 0
  | [], b :: _ => -b.toNat
  | a :: _, [] => a.toNat
  | a :: as, b :: bs => if a = b then strcmpBytes as bs else a.toNat - b.toNat

def strcmp (s t : CString) : Int := strcmpBytes s.bytes t.bytes

/-- `strcmp(s, buf)` where `buf` is an object of the given bytes: reading on after its last byte is a fault. -/
def strcmpBufBytes : List UInt8 → List UInt8 → Option Int
  | _, [] => none
  | [], b :: _ => some (-b.toNat)
  | a :: as, b :: bs =>
    if a = b then strcmpBufBytes as bs else some (a.toNat - b.toNat)

def strcmpBuf (s : CString) (b : List UInt8) : Option Int := strcmpBufBytes s.bytes b

/-- `strncpy(dst, buf, n)` followed by `dst[n] = '\0'`, as a string: at most `n` bytes are read, none after a
    NUL, and reading on after the last byte of `buf` is a fault. -/
def strncpyBytes : Nat → List UInt8 → Option (List UInt8)
  | 0, _ => some []
  | _ + 1, [] => none
  | n + 1, b :: bs => if b = 0 then some [] else (strncpyBytes n bs).map (b :: ·)

/-! ### The order of `strcmp` -/

/-- The bytes as numbers, on which the order of strings is lexicographic. -/
def CString.ranks (s : CString) : List Nat := s.bytes.map UInt8.toNat

theorem CString.ranks_injective : Function.Injective CString.ranks := fun _ _ h =>
  CString.ext_bytes (List.map_injective_iff.mpr (fun _ _ => UInt8.toNat.inj) h)

instance : LinearOrder CString := LinearOrder.lift' CString.ranks CString.ranks_injective

theorem CString.lt_iff {s t : CString} : s < t ↔ s.ranks < t.ranks := Iff.rfl

theorem toNat_pos {b : UInt8} (h : b ≠ 0) : 0 < b.toNat := by
  rcases Nat.eq_zero_or_pos b.toNat with h0 | h0
  · exact absurd (UInt8.toNat.inj h0) h
  · exact h0

theorem strcmpBytes_neg_iff : ∀ {as bs : List UInt8}, (0 : UInt8) ∉ as → (0 : UInt8) ∉ bs →
    (strcmpBytes as bs < 0 ↔ as.map UInt8.toNat < bs.map UInt8.toNat)
  | [], [], _, _ => by simp [strcmpBytes]
  | [], b :: bs, _, hb => by
    have := toNat_pos (b := b) (by rintro rfl; simp at hb)
    simp only [strcmpBytes, List.map_nil, List.map_cons, List.nil_lt_cons, iff_true]
    omega
  | a :: as, [], _, _ => by
    simp [strcmpBytes]
  | a :: as, b :: bs, ha, hb => by
    have ih := strcmpBytes_neg_iff (List.not_mem_of_not_mem_cons ha) (List.not_mem_of_not_mem_cons hb)
    simp only [strcmpBytes, List.map_cons, List.cons_lt_cons_iff]
    split
    · next h => simp [h, ih]
    · next h =>
      have : a.toNat ≠ b.toNat := fun h' => h (UInt8.toNat.inj h')
      omega

theorem strcmpBytes_swap : ∀ as bs : List UInt8, strcmpBytes as bs = -strcmpBytes bs as
  | [], [] => by simp [strcmpBytes]
  | [], b :: bs => by simp [strcmpBytes]
  | a :: as, [] => by simp [strcmpBytes]
  | a :: as, b :: bs => by
    simp only [strcmpBytes, eq_comm (a := b)]
    split
    · exact strcmpBytes_swap as bs
    · omega

@[simp] theorem strcmp_neg {s t : CString} : strcmp s t < 0 ↔ s < t :=
  strcmpBytes_neg_iff s.noNul t.noNul

@[simp] theorem strcmp_pos {s t : CString} : 0 < strcmp s t ↔ t < s := by
  rw [← strcmp_neg]
  have := strcmpBytes_swap s.bytes t.bytes
  unfold strcmp
  omega

@[simp] theorem strcmp_eq_zero {s t : CString} : strcmp s t = 0 ↔ s = t := by
  have h₁ : strcmp s t < 0 ↔ s < t := strcmp_neg
  have h₂ : 0 < strcmp s t ↔ t < s := strcmp_pos
  constructor
  · intro h
    exact le_antisymm (not_lt.mp fun h' => by have := h₂.mpr h'; omega)
      (not_lt.mp fun h' => by have := h₁.mpr h'; omega)
  · rintro rfl
    have := mt h₁.mp (lt_irrefl s)
    have := mt h₂.mp (lt_irrefl s)
    omega

@[simp] theorem strcmp_nonneg {s t : CString} : 0 ≤ strcmp s t ↔ t ≤ s :=
  Int.not_lt.symm.trans ((not_congr strcmp_neg).trans not_lt)

@[simp] theorem strcmp_nonpos {s t : CString} : strcmp s t ≤ 0 ↔ s ≤ t :=
  Int.not_lt.symm.trans ((not_congr strcmp_pos).trans not_lt)

/-! ### Buffers that hold a terminated string -/

theorem strcmpBufBytes_append : ∀ {as bs : List UInt8}, (0 : UInt8) ∉ as → (0 : UInt8) ∉ bs →
    ∀ rest, strcmpBufBytes as (bs ++ 0 :: rest) = some (strcmpBytes as bs)
  | [], [], _, _, _ => by simp [strcmpBufBytes, strcmpBytes]
  | [], b :: bs, _, _, _ => by simp [strcmpBufBytes, strcmpBytes]
  | a :: as, [], ha, _, _ => by
    have : a ≠ 0 := by rintro rfl; simp at ha
    simp [strcmpBufBytes, strcmpBytes, this]
  | a :: as, b :: bs, ha, hb, rest => by
    have ih := strcmpBufBytes_append (List.not_mem_of_not_mem_cons ha) (List.not_mem_of_not_mem_cons hb) rest
    simp only [List.cons_append, strcmpBufBytes, strcmpBytes]
    split
    · exact ih
    · rfl

@[simp] theorem strcmpBuf_buf (s t : CString) : strcmpBuf s t.buf = some (strcmp s t) :=
  strcmpBufBytes_append s.noNul t.noNul []

theorem strncpyBytes_buf : ∀ {n : Nat} {b : List UInt8}, (0 : UInt8) ∉ b →
    ∀ rest, strncpyBytes n (b ++ 0 :: rest) = some (b.take n)
  | 0, _, _, _ => by simp [strncpyBytes]
  | n + 1, [], _, _ => by simp [strncpyBytes]
  | n + 1, b :: bs, hb, rest => by
    have : b ≠ 0 := by rintro rfl; simp at hb
    have ih := strncpyBytes_buf (n := n) (List.not_mem_of_not_mem_cons hb) rest
    simp [strncpyBytes, this, ih]

/-! ### Buffers without a terminator -/

/-- Only the comparison with the beginning of the string itself reads on behind the buffer. -/
theorem strcmpBufBytes_of_not_prefix : ∀ {as bs : List UInt8}, ¬bs <+: as →
    strcmpBufBytes as bs = some (strcmpBytes as bs)
  | _, [], h => absurd List.nil_prefix h
  | [], _ :: _, _ => rfl
  | a :: as, b :: bs, h => by
    simp only [strcmpBufBytes, strcmpBytes]
    split
    · next hab =>
      exact strcmpBufBytes_of_not_prefix fun hpre => h (hab ▸ List.cons_prefix_cons.mpr ⟨rfl, hpre⟩)
    · rfl

theorem strcmpBufBytes_of_length {as bs : List UInt8} (hlen : as.length = bs.length) (hne : as ≠ bs) :
    strcmpBufBytes as bs = some (strcmpBytes as bs) :=
  strcmpBufBytes_of_not_prefix fun hpre => hne (hpre.eq_of_length hlen.symm).symm

/-- The comparison with the bytes of the string itself reads on behind them. -/
theorem strcmpBufBytes_self : ∀ b : List UInt8, strcmpBufBytes b b = none
  | [] => rfl
  | _ :: b => by simpa [strcmpBufBytes] using strcmpBufBytes_self b

theorem strcmpBufBytes_ne_zero : ∀ {as bs : List UInt8} {c : Int}, (0 : UInt8) ∉ bs →
    strcmpBufBytes as bs = some c → c ≠ 0
  | [], [], _, _, h => by simp [strcmpBufBytes] at h
  | _ :: _, [], _, _, h => by simp [strcmpBufBytes] at h
  | [], b :: bs, c, hb, h => by
    have := toNat_pos (b := b) (by rintro rfl; simp at hb)
    simp only [strcmpBufBytes, Option.some.injEq] at h
    omega
  | a :: as, b :: bs, c, hb, h => by
    simp only [strcmpBufBytes] at h
    split at h
    · exact strcmpBufBytes_ne_zero (List.not_mem_of_not_mem_cons hb) h
    · next hab =>
      have : a.toNat ≠ b.toNat := fun h' => hab (UInt8.toNat.inj h')
      simp only [Option.some.injEq] at h
      omega

theorem strncpyBytes_of_le : ∀ {n : Nat} {b : List UInt8}, (0 : UInt8) ∉ b → n ≤ b.length →
    strncpyBytes n b = some (b.take n)
  | 0, _, _, _ => rfl
  | n + 1, [], _, hlen => absurd hlen (Nat.not_succ_le_zero n)
  | n + 1, b :: bs, hb, hlen => by
    have : b ≠ 0 := by rintro rfl; simp at hb
    simp [strncpyBytes, this, strncpyBytes_of_le (List.not_mem_of_not_mem_cons hb) (Nat.le_of_succ_le_succ hlen)]

theorem strncpyBytes_of_length {b : List UInt8} (hb : (0 : UInt8) ∉ b) : strncpyBytes b.length b = some b := by
  rw [strncpyBytes_of_le hb le_rfl, List.take_length]

theorem strncpyBytes_short : ∀ {n : Nat} {b : List UInt8}, (0 : UInt8) ∉ b → b.length < n → strncpyBytes n b = none
  | _ + 1, [], _, _ => rfl
  | n + 1, b :: bs, hb, hlen => by
    have : b ≠ 0 := by rintro rfl; simp at hb
    simp [strncpyBytes, this, strncpyBytes_short (List.not_mem_of_not_mem_cons hb) (Nat.lt_of_succ_lt_succ hlen)]

/-! ### Truncation -/

/-- The string cut to 255 bytes. -/
def CString.trunc (s : CString) : CString := ⟨s.bytes.take 255, fun h => s.noNul (List.mem_of_mem_take h)⟩

theorem CString.strlen_trunc (s : CString) : s.trunc.strlen ≤ 255 := by
  simp [strlen, trunc]

theorem CString.trunc_of_le {s : CString} (h : s.strlen ≤ 255) : s.trunc = s :=
  ext_bytes (List.take_of_length_le h)

theorem not_lt_take : ∀ (n : Nat) (b : List Nat), ¬b < b.take n
  | 0, b => by simp
  | _ + 1, [] => by simp
  | n + 1, x :: b => by
    have ih := not_lt_take n b
    simp [ih]

theorem take_not_lt : ∀ {n : Nat} {a b : List Nat}, a.length ≤ n → a < b → ¬b.take n < a
  | _, [], _, _, _ => by simp
  | _ + 1, x :: a, [], _, h => by simp at h
  | n + 1, x :: a, y :: b, hlen, h => by
    rw [List.take_succ_cons, List.cons_lt_cons_iff]
    rcases List.cons_lt_cons_iff.mp h with hxy | ⟨rfl, hab⟩
    · omega
    · have ih := take_not_lt (Nat.le_of_succ_le_succ hlen) hab
      simp [ih]

theorem CString.ranks_trunc (s : CString) : s.trunc.ranks = s.ranks.take 255 := List.map_take

theorem CString.trunc_le (s : CString) : s.trunc ≤ s := by
  rw [← not_lt, lt_iff, ranks_trunc]
  exact not_lt_take 255 s.ranks

/-- A short string before `s` is not behind what is left of `s`. -/
theorem CString.le_trunc {s t : CString} (hs : t.strlen ≤ 255) (h : t < s) : t ≤ s.trunc := by
  rw [← not_lt, lt_iff, ranks_trunc]
  exact take_not_lt (by simpa [ranks, strlen] using hs) h

end KvStore
