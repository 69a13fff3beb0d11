import Mathlib.Data.Nat.Digits.Defs
import Prifhete.Lib.Gates

/-! # Words of bits

    A word is a list of bits, the lowest one first, and stands for a number.
    A chain of one-bit adders or subtracters, each of which hands its upper
    output to the next, adds and subtracts words of any width: what leaves
    the chain at its end is the carry or the borrow.
-/

universe u

namespace Gates

/-- The number a word stands for. -/
def value (word : List Bool) : Nat := Nat.ofDigits 2 (word.map Bool.toNat)

@[simp] theorem value_nil : value [] = 0 := rfl

@[simp] theorem value_cons (b : Bool) (word : List Bool) :
    value (b :: word) = b.toNat + 2 * value word := Nat.ofDigits_cons

theorem digit_lt {w : List Bool} {d : Nat} (hd : d ∈ w.map Bool.toNat) : d < 2 := by
  obtain ⟨b, _, hb⟩ := List.mem_map.mp hd
  rw [← hb]
  exact Bool.toNat_lt b

theorem value_lt (word : List Bool) : value word < 2 ^ word.length := by
  have hlt := Nat.ofDigits_lt_base_pow_length Nat.one_lt_two fun _ => digit_lt (w := word)
  rw [List.length_map] at hlt
  exact hlt

theorem value_concat (word : List Bool) (b : Bool) :
    value (word ++ [b]) = value word + 2 ^ word.length * b.toNat := by
  simp [value, Nat.ofDigits_append]

/-- The low bits of a number are the word of it modulo the word size. -/
theorem value_testBit (n x : Nat) : value ((List.range n).map x.testBit) = x % 2 ^ n := by
  induction n with
  | zero => rw [List.range_zero, List.map_nil, value_nil, Nat.pow_zero, Nat.mod_one]
  | succ n ih =>
    have hbit : (x.testBit n).toNat = x / 2 ^ n % 2 := Nat.toNat_testBit x n
    rw [List.range_succ, List.map_append, List.map_singleton, value_concat, ih, List.length_map,
      List.length_range, hbit, Nat.pow_succ, Nat.mod_mul]

/-- A word of a given width is determined by its number. -/
theorem value_inj {word word' : List Bool} (hlen : word.length = word'.length) :
    value word = value word' ↔ word = word' := by
  constructor
  · intro hvalue
    have hlen' : (word.map Bool.toNat).length = (word'.map Bool.toNat).length := by
      rw [List.length_map, List.length_map, hlen]
    have hdigits := Nat.ofDigits_inj_of_len_eq Nat.one_lt_two hlen' (fun _ => digit_lt)
      (fun _ => digit_lt) hvalue
    have hinj : Function.Injective Bool.toNat := Function.LeftInverse.injective Bool.ofNat_toNat
    exact List.map_injective_iff.mpr hinj hdigits
  · intro heq
    rw [heq]

theorem value_eq_zero {word : List Bool} : value word = 0 ↔ ∀ b ∈ word, b = false := by
  induction word with
  | nil => simp
  | cons b word ih =>
    rw [value_cons, List.forall_mem_cons, ← ih, ← Bool.toNat_eq_zero]
    omega

/-! ### Chains -/

variable {β : Type u}

/-- A one-bit circuit at every place of two words, with its upper output
    handed to the next place. -/
def ripple (lower upper : β → β → β → β) : List (β × β) → β → List β × β
  | [], chain => ([], chain)
  | (l, r) :: places, chain =>
    let rest := ripple lower upper places (upper l r chain)
    (lower l r chain :: rest.1, rest.2)

theorem length_ripple (lower upper : β → β → β → β) (places : List (β × β))
    (chain : β) : (ripple lower upper places chain).1.length = places.length := by
  induction places generalizing chain with
  | nil => rfl
  | cons p places ih => exact congrArg Nat.succ (ih (upper p.1 p.2 chain))

/-- A chain of adders. -/
def sum (g : Gates β) : List (β × β) → β → List β × β := ripple g.parity g.carry

/-- A chain of subtracters. -/
def difference (g : Gates β) : List (β × β) → β → List β × β := ripple g.parity g.borrow

theorem length_sum (g : Gates β) (places : List (β × β)) (carry_in : β) :
    (g.sum places carry_in).1.length = places.length := length_ripple _ _ places carry_in

theorem length_difference (g : Gates β) (places : List (β × β)) (borrow_in : β) :
    (g.difference places borrow_in).1.length = places.length := length_ripple _ _ places borrow_in

/-- What a chain of adders adds up to. -/
theorem bool_sum_value (places : List (Bool × Bool)) (carry_in : Bool) :
    value (bool.sum places carry_in).1 + 2 ^ places.length * (bool.sum places carry_in).2.toNat =
      value (places.map Prod.fst) + value (places.map Prod.snd) + carry_in.toNat := by
  induction places generalizing carry_in with
  | nil => simp [sum, ripple]
  | cons p places ih =>
    have hlow := bool_sum p.1 p.2 carry_in
    have hhigh := ih (bool.carry p.1 p.2 carry_in)
    show value (bool.parity p.1 p.2 carry_in :: (bool.sum places _).1) +
        2 ^ (places.length + 1) * (bool.sum places (bool.carry p.1 p.2 carry_in)).2.toNat = _
    rw [value_cons, List.map_cons, List.map_cons, value_cons, value_cons, Nat.pow_succ',
      Nat.mul_assoc]
    omega

/-- What a chain of subtracters leaves, and what it owes. -/
theorem bool_difference_value (places : List (Bool × Bool)) (borrow_in : Bool) :
    value (bool.difference places borrow_in).1 + value (places.map Prod.snd) +
        borrow_in.toNat =
      value (places.map Prod.fst) +
        2 ^ places.length * (bool.difference places borrow_in).2.toNat := by
  induction places generalizing borrow_in with
  | nil => simp [difference, ripple]
  | cons p places ih =>
    have hlow := bool_difference p.1 p.2 borrow_in
    have hhigh := ih (bool.borrow p.1 p.2 borrow_in)
    show value (bool.parity p.1 p.2 borrow_in :: (bool.difference places _).1) + _ + _ =
      _ + 2 ^ (places.length + 1) *
        (bool.difference places (bool.borrow p.1 p.2 borrow_in)).2.toNat
    rw [value_cons, List.map_cons, List.map_cons, value_cons, value_cons, Nat.pow_succ',
      Nat.mul_assoc]
    omega

section Chain

variable (places : List (Bool × Bool)) (borrow_in : Bool)

theorem value_difference_lt :
    value (bool.difference places borrow_in).1 < 2 ^ places.length := by
  have hlt := value_lt (bool.difference places borrow_in).1
  rw [length_difference] at hlt
  exact hlt

/-- The borrow compares the words. -/
theorem bool_borrow_iff :
    (bool.difference places borrow_in).2 = true ↔
      value (places.map Prod.fst) < value (places.map Prod.snd) + borrow_in.toNat := by
  have hvalue := bool_difference_value places borrow_in
  have hlt := value_difference_lt places borrow_in
  cases hborrow : (bool.difference places borrow_in).2 with
  | true =>
    rw [hborrow, Bool.toNat_true, Nat.mul_one] at hvalue
    simp only [true_iff]
    omega
  | false =>
    rw [hborrow, Bool.toNat_false, Nat.mul_zero] at hvalue
    simp only [Bool.false_eq_true, false_iff]
    omega

/-- Adding what was taken away gives back the word, and the carry pays the
    borrow. -/
theorem bool_sum_difference {lhs rhs : List Bool} (hlen : lhs.length = rhs.length) :
    bool.sum ((bool.difference (lhs.zip rhs) borrow_in).1.zip rhs) borrow_in =
      (lhs, (bool.difference (lhs.zip rhs) borrow_in).2) := by
  have hdifference := bool_difference_value (lhs.zip rhs) borrow_in
  have hwidth := bool.length_difference (lhs.zip rhs) borrow_in
  rw [List.map_fst_zip hlen.le, List.map_snd_zip hlen.ge] at hdifference
  rw [List.length_zip, ← hlen, Nat.min_self] at hdifference hwidth
  generalize bool.difference (lhs.zip rhs) borrow_in = d at hdifference hwidth ⊢
  have hsum := bool_sum_value (d.1.zip rhs) borrow_in
  have hlength := bool.length_sum (d.1.zip rhs) borrow_in
  rw [List.map_fst_zip (hwidth.trans hlen).le, List.map_snd_zip (hwidth.trans hlen).ge] at hsum
  rw [List.length_zip, ← hlen, hwidth, Nat.min_self] at hsum hlength
  generalize bool.sum (d.1.zip rhs) borrow_in = s at hsum hlength ⊢
  -- the two words with one bit more stand for the same number
  have hsame : value (s.1 ++ [s.2]) = value (lhs ++ [d.2]) := by
    rw [value_concat, value_concat, hlength, hsum, hdifference]
  have hword := (value_inj (by simp [hlength])).mp hsame
  obtain ⟨hlow, hhigh⟩ := List.append_inj hword hlength
  exact Prod.ext hlow (List.singleton_inj.mp hhigh)

/-- Words are equal when nothing is left of their difference. -/
theorem bool_difference_eq_zero_iff {lhs rhs : List Bool} (hlen : lhs.length = rhs.length) :
    (∀ b ∈ (bool.difference (lhs.zip rhs) false).1, b = false) ↔ lhs = rhs := by
  have hdifference := bool_difference_value (lhs.zip rhs) false
  rw [List.map_fst_zip hlen.le, List.map_snd_zip hlen.ge, List.length_zip, ← hlen, Nat.min_self,
    Bool.toNat_false, Nat.add_zero] at hdifference
  have hlt := value_lt rhs
  have hlt' := value_lt (bool.difference (lhs.zip rhs) false).1
  rw [length_difference, List.length_zip, ← hlen, Nat.min_self] at hlt'
  rw [← hlen] at hlt
  rw [← value_eq_zero, ← value_inj hlen]
  cases hborrow : (bool.difference (lhs.zip rhs) false).2 with
  | true =>
    rw [hborrow, Bool.toNat_true] at hdifference
    omega
  | false =>
    rw [hborrow, Bool.toNat_false] at hdifference
    omega

end Chain

end Gates
