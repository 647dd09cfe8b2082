import Mathlib.Data.Nat.Log
import Mathlib.Data.Fin.Basic
import Mathlib.Order.Fin.Basic
import Mathlib.Tactic

/-!
# Unsigned machine integers

Words of a fixed width with the operations of Rust's unsigned integers.  Arithmetic is checked: an
operation computes the exact result on natural numbers and fails (`none`) when that does not fit, so
that a computation which returns `some` has neither overflowed nor lost a bit.  Conversions between
widths saturate or truncate, and keep the value when it fits.
-/

namespace Machine

/-- The unsigned integers of width `w`. -/
abbrev Word (w : ℕ) := Fin (2 ^ w)

/-- `u32` -/
abbrev U32 := Word 32

/-- `u64` -/
abbrev U64 := Word 64

variable {v w : ℕ}

instance instOfNatWord (n : ℕ) : OfNat (Word w) n := ⟨Fin.ofNat (2 ^ w) n⟩

/-- The word with a given value, if there is one. -/
def ofNat? (n : ℕ) : Option (Word w) :=
  if h : n < 2 ^ w then some ⟨n, h⟩ else none

theorem ofNat?_of_lt {n : ℕ} (h : n < 2 ^ w) : ofNat? n = some (⟨n, h⟩ : Word w) :=
  dif_pos h

theorem ofNat?_of_le {n : ℕ} (h : 2 ^ w ≤ n) : (ofNat? n : Option (Word w)) = none :=
  dif_neg (Nat.not_lt.mpr h)

theorem ofNat?_val (a : Word w) : ofNat? a.val = some a :=
  ofNat?_of_lt a.isLt

/-! ### Arithmetic -/

/-- `checked_add` -/
def checkedAdd (a b : Word w) : Option (Word w) := ofNat? (a.val + b.val)

/-- `checked_sub` -/
def checkedSub (a b : Word w) : Option (Word w) :=
  if b ≤ a then ofNat? (a.val - b.val) else none

/-- `checked_mul` -/
def checkedMul (a b : Word w) : Option (Word w) := ofNat? (a.val * b.val)

/-- `checked_div` -/
def checkedDiv (a b : Word w) : Option (Word w) :=
  if b.val = 0 then none else ofNat? (a.val / b.val)

/-- `checked_rem` -/
def checkedRem (a b : Word w) : Option (Word w) :=
  if b.val = 0 then none else ofNat? (a.val % b.val)

/-- `checked_next_power_of_two` -/
def checkedNextPowerOfTwo (a : Word w) : Option (Word w) := ofNat? (2 ^ Nat.clog 2 a.val)

/-- The shift to the right by a constant less than the width. -/
def shiftRight (a : Word w) (k : ℕ) : Word w :=
  ⟨a.val >>> k, Nat.lt_of_le_of_lt (Nat.shiftRight_le a.val k) a.isLt⟩

/-- The word with a given value, or the greatest one if there is none. -/
def saturate (w n : ℕ) : Word w :=
  ⟨min n (2 ^ w - 1), (Nat.min_le_right _ _).trans_lt (Nat.sub_one_lt (Nat.two_pow_pos w).ne')⟩

/-- `saturating_add` -/
def saturatingAdd (a b : Word w) : Word w := saturate w (a.val + b.val)

/-- `saturating_mul` -/
def saturatingMul (a b : Word w) : Word w := saturate w (a.val * b.val)

theorem saturate_val (a : Word w) : saturate w a.val = a :=
  Fin.ext (Nat.min_eq_left (Nat.le_sub_one_of_lt a.isLt))

theorem saturate_of_le {n : ℕ} (h : 2 ^ w - 1 ≤ n) :
    saturate w n = ⟨2 ^ w - 1, Nat.sub_one_lt (Nat.two_pow_pos w).ne'⟩ :=
  Fin.ext (Nat.min_eq_right h)

/-- Incrementing a saturated value fails exactly at the limit. -/
theorem checkedAdd_saturate (hw : 0 < w) (n : ℕ) :
    checkedAdd (saturate w n) 1 = if 2 ^ w - 1 ≤ n then none else some (saturate w (n + 1)) := by
  have h1 : (1 : Word w).val = 1 := Nat.mod_eq_of_lt (Nat.one_lt_two_pow hw.ne')
  have hpos : 0 < 2 ^ w := Nat.two_pow_pos w
  have hsum : checkedAdd (saturate w n) 1 = ofNat? (min n (2 ^ w - 1) + 1) := by
    rw [checkedAdd, h1]
    rfl
  rw [hsum]
  by_cases h : 2 ^ w - 1 ≤ n
  · rw [if_pos h]
    exact ofNat?_of_le (by omega)
  · rw [if_neg h, ofNat?_of_lt (by omega)]
    exact congrArg some (Fin.ext (by simp only [saturate]; omega))

theorem saturatingAdd_val (a b : Word w) :
    (saturatingAdd a b).val = min (a.val + b.val) (2 ^ w - 1) := rfl

theorem checkedSub_of_le {a b : Word w} (h : b ≤ a) : checkedSub a b = ofNat? (a.val - b.val) :=
  if_pos h

theorem checkedDiv_of_pos (a : Word w) {b : Word w} (h : 0 < b.val) :
    checkedDiv a b = some ⟨a.val / b.val, Nat.lt_of_le_of_lt (Nat.div_le_self _ _) a.isLt⟩ := by
  rw [checkedDiv, if_neg h.ne', ofNat?_of_lt]

theorem checkedDiv_one (a : Word (w + 1)) : checkedDiv a 1 = some a := by
  have h1 : (1 : Word (w + 1)).val = 1 := Nat.mod_eq_of_lt (Nat.one_lt_two_pow w.succ_ne_zero)
  rw [checkedDiv, h1, if_neg Nat.one_ne_zero, Nat.div_one, ofNat?_val]

theorem checkedMul_one (a : Word (w + 1)) : checkedMul a 1 = some a := by
  have h1 : (1 : Word (w + 1)).val = 1 := Nat.mod_eq_of_lt (Nat.one_lt_two_pow w.succ_ne_zero)
  rw [checkedMul, h1, Nat.mul_one, ofNat?_val]

theorem checkedRem_of_pos (a : Word w) {b : Word w} (h : 0 < b.val) :
    checkedRem a b = some ⟨a.val % b.val, Nat.lt_of_le_of_lt (Nat.mod_le _ _) a.isLt⟩ := by
  rw [checkedRem, if_neg h.ne', ofNat?_of_lt]

/-- A power of two is its own next power of two. -/
theorem checkedNextPowerOfTwo_of_pow {a : Word w} {k : ℕ} (h : a.val = 2 ^ k) :
    checkedNextPowerOfTwo a = some a := by
  rw [checkedNextPowerOfTwo, h, Nat.clog_pow 2 k Nat.one_lt_two, ← h, ofNat?_val]

/-! ### Conversions -/

/-- `saturated_into` -/
def saturatedInto (v : ℕ) (a : Word w) : Word v :=
  if h : a.val < 2 ^ v then ⟨a.val, h⟩ else ⟨2 ^ v - 1, Nat.sub_one_lt (Nat.two_pow_pos v).ne'⟩

/-- The cast with `as`, which truncates. -/
def cast (v : ℕ) (a : Word w) : Word v :=
  ⟨a.val % 2 ^ v, Nat.mod_lt _ (Nat.two_pow_pos v)⟩

theorem saturatedInto_of_lt {a : Word w} (h : a.val < 2 ^ v) : saturatedInto v a = ⟨a.val, h⟩ :=
  dif_pos h

theorem saturatedInto_val (h : w ≤ v) (a : Word w) : (saturatedInto v a).val = a.val := by
  rw [saturatedInto_of_lt (a.isLt.trans_le (Nat.pow_le_pow_right Nat.two_pos h))]

end Machine
