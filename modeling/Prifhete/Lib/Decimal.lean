import Mathlib.Data.List.Basic

/-! # Decimal numerals in a text

    A natural number is the value of its decimal digits, and no digit is a
    separator. So a text made of numerals and separators in between can be
    read in one way only.
-/

namespace Decimal

theorem toDigits_inj {a b : ℕ} : Nat.toDigits 10 a = Nat.toDigits 10 b ↔ a = b := by
  constructor
  · intro h
    have hvalue := congrArg (fun digits => Nat.ofDigitChars 10 digits 0) h
    simpa using hvalue
  · intro h
    rw [h]

/-- A character that is no digit does not occur in a numeral. -/
theorem notMem_toDigits {c : Char} (hc : c.isDigit = false) (n : ℕ) :
    c ∉ Nat.toDigits 10 n := by
  intro hmem
  rw [Nat.isDigit_of_mem_toDigits (by decide) (by decide) hmem] at hc
  contradiction

/-- A numeral ends where the separator begins. -/
theorem takeWhile_toDigits {c : Char} (hc : c.isDigit = false) (n : ℕ) (rest : List Char) :
    (Nat.toDigits 10 n ++ c :: rest).takeWhile (· ≠ c) = Nat.toDigits 10 n := by
  rw [List.takeWhile_append_of_pos, List.takeWhile_cons_of_neg (by simp), List.append_nil]
  intro d hd
  have hne : d ≠ c := fun heq => notMem_toDigits hc n (heq ▸ hd)
  simpa using hne

/-- Two numerals around a separator. -/
theorem toDigits_separated_inj {c : Char} (hc : c.isDigit = false) {rest : List Char}
    {a b a' b' : ℕ} :
    Nat.toDigits 10 a ++ c :: (rest ++ Nat.toDigits 10 b) =
        Nat.toDigits 10 a' ++ c :: (rest ++ Nat.toDigits 10 b') ↔ a = a' ∧ b = b' := by
  constructor
  · intro h
    -- the separator ends the first numeral on both sides
    have hfirst := congrArg (List.takeWhile (· ≠ c)) h
    rw [takeWhile_toDigits hc, takeWhile_toDigits hc, toDigits_inj] at hfirst
    subst hfirst
    simpa [toDigits_inj] using h
  · intro ⟨ha, hb⟩
    rw [ha, hb]

/-- Digits are ASCII characters. -/
theorem toNat_lt_of_mem_toDigits {c : Char} {n : ℕ} (hc : c ∈ Nat.toDigits 10 n) :
    c.toNat < 128 := by
  have hdigit := Nat.isDigit_of_mem_toDigits (by decide) (by decide) hc
  simp only [Char.isDigit, Bool.and_eq_true, decide_eq_true_eq] at hdigit
  have hle := UInt32.le_iff_toNat_le.mp hdigit.2
  exact Nat.lt_of_le_of_lt hle (by decide)

end Decimal
