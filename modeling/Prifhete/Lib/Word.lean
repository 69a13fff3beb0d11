import Mathlib.Algebra.GroupWithZero.Nat

/-! # Arithmetic of 64-bit words

    When the successor on `UInt64` is the one of `Nat`.
-/

namespace Word

/-- Below the largest word the successor does not wrap. -/
theorem toNat_add_one {a : UInt64} (h : a ≠ -1) : (a + 1).toNat = a.toNat + 1 := by
  have hlt := a.toNat_lt
  have hne : a.toNat ≠ 2 ^ 64 - 1 := by
    intro he
    exact h (UInt64.toNat.inj (by rw [he]; rfl))
  rw [UInt64.toNat_add, UInt64.toNat_one]
  omega

/-- Anything below another word is not the largest. -/
theorem ne_max_of_lt {a b : UInt64} (h : a < b) : a ≠ -1 := by
  intro hmax
  have hlt := UInt64.lt_iff_toNat_lt.mp h
  have hb := b.toNat_lt
  rw [hmax, show (-1 : UInt64).toNat = 2 ^ 64 - 1 from rfl] at hlt
  omega

theorem add_one_ne_self (a : UInt64) : a + 1 ≠ a := by
  intro h
  have hn := congrArg UInt64.toNat h
  have hlt := a.toNat_lt
  rw [UInt64.toNat_add, UInt64.toNat_one] at hn
  omega

end Word
