import Mathlib.Algebra.BigOperators.Group.Finset.Basic
import Mathlib.Algebra.Order.BigOperators.Group.Finset
import Mathlib.Data.Int.ModEq
import Mathlib.Logic.Function.Basic

/-! # Double entry over bounded registers

    Accounts whose balances are registers modulo `W`. A credit that does not
    fit leaves a carry behind; a debit is only made when it is covered. Each
    account carries the law that ties its balance to its credits, debits and
    carries, so the law holds of every book there is.

    `Posted` relates a list of postings to the book they lead to. From it
    follow the sums over the postings of one account and of a whole set of
    accounts, and when no value is lost.
-/

universe u v

namespace Bookkeeping

/-! ### One account -/

/-- A register modulo `W` with what it has seen. -/
structure Account (W : ℕ) where
  balance : ℕ
  credited : ℕ
  debited : ℕ
  carries : ℕ
  balance_lt : balance < W
  law : balance + debited + W * carries = credited

namespace Account

variable {W : ℕ}

/-- A new account. -/
def opened [NeZero W] : Account W where
  balance := 0
  credited := 0
  debited := 0
  carries := 0
  balance_lt := Nat.pos_of_neZero W
  law := rfl

/-- Adding to the register, modulo `W`. -/
def credit (a : Account W) (amount : ℕ) : Account W where
  balance := (a.balance + amount) % W
  credited := a.credited + amount
  debited := a.debited
  carries := a.carries + (a.balance + amount) / W
  balance_lt := Nat.mod_lt _ (Nat.lt_of_le_of_lt (Nat.zero_le _) a.balance_lt)
  law := by
    have hlaw := a.law
    have hdiv := Nat.mod_add_div (a.balance + amount) W
    rw [Nat.mul_add]
    omega

/-- Taking a covered amount from the register. -/
def debit (a : Account W) (amount : ℕ) (hcovered : amount ≤ a.balance) : Account W where
  balance := a.balance - amount
  credited := a.credited
  debited := a.debited + amount
  carries := a.carries
  balance_lt := Nat.lt_of_le_of_lt (Nat.sub_le _ _) a.balance_lt
  law := by
    have hlaw := a.law
    omega

/-- What the register would show without a bound. -/
def worth (a : Account W) : ℕ := a.balance + W * a.carries

@[simp] theorem opened_worth [NeZero W] : (opened : Account W).worth = 0 := rfl

theorem credit_worth (a : Account W) (amount : ℕ) :
    (a.credit amount).worth = a.worth + amount := by
  have hdiv := Nat.mod_add_div (a.balance + amount) W
  simp only [worth, credit, Nat.mul_add]
  omega

theorem debit_worth (a : Account W) {amount : ℕ} (hcovered : amount ≤ a.balance) :
    (a.debit amount hcovered).worth + amount = a.worth := by
  simp only [worth, debit]
  omega

/-- A credit leaves no carry exactly when it fits. -/
theorem credit_carries_eq_zero (a : Account W) (amount : ℕ) :
    (a.credit amount).carries = 0 ↔ a.carries = 0 ∧ a.balance + amount < W := by
  have hpos : 0 < W := Nat.lt_of_le_of_lt (Nat.zero_le _) a.balance_lt
  simp only [credit, Nat.add_eq_zero_iff, Nat.div_eq_zero_iff, hpos.ne', false_or]

/-- An account never shows more than its credits leave after its debits. -/
theorem balance_add_debited_le (a : Account W) : a.balance + a.debited ≤ a.credited := by
  have hlaw := a.law
  omega

/-- Up to carries the balance is the difference of credits and debits. -/
theorem balance_modEq (a : Account W) :
    (a.balance : ℤ) ≡ a.credited - a.debited [ZMOD W] := by
  have hlaw : ((a.balance + a.debited + W * a.carries : ℕ) : ℤ) = a.credited := by rw [a.law]
  push_cast at hlaw
  rw [Int.modEq_iff_dvd]
  exact ⟨a.carries, by omega⟩

end Account

/-! ### Postings and books -/

variable {ι : Type u} {W : ℕ}

/-- An amount that comes from outside, or goes from one account to another. -/
inductive Posting (ι : Type u) where
  | deposit (payee : ι) (amount : ℕ)
  | payment (payer payee : ι) (amount : ℕ)

/-- What a posting brings in from outside. -/
def Posting.deposited : Posting ι → ℕ
  | .deposit _ amount => amount
  | .payment .. => 0

/-- A posting stays within a set of accounts. -/
def Posting.Within (s : Set ι) : Posting ι → Prop
  | .deposit payee _ => payee ∈ s
  | .payment payer payee _ => payer ∈ s ∧ payee ∈ s

abbrev Book (ι : Type u) (W : ℕ) := ι → Account W

variable [DecidableEq ι]

/-- What a posting credits to an account. -/
def Posting.credit (i : ι) : Posting ι → ℕ
  | .deposit payee amount => if payee = i then amount else 0
  | .payment _ payee amount => if payee = i then amount else 0

/-- What a posting debits from an account. -/
def Posting.debit (i : ι) : Posting ι → ℕ
  | .deposit .. => 0
  | .payment payer _ amount => if payer = i then amount else 0

/-- The credits to an account in a list of postings. -/
def credited (ps : List (Posting ι)) (i : ι) : ℕ := (ps.map (·.credit i)).sum

/-- The debits from an account in a list of postings. -/
def debited (ps : List (Posting ι)) (i : ι) : ℕ := (ps.map (·.debit i)).sum

/-- What a list of postings brings in from outside. -/
def deposited (ps : List (Posting ι)) : ℕ := (ps.map (·.deposited)).sum

namespace Book

/-- The payer of a posting can pay. -/
def Covers (book : Book ι W) : Posting ι → Prop
  | .deposit .. => True
  | .payment payer _ amount => amount ≤ (book payer).balance

/-- The credit of a posting does not leave a carry. What an account pays to
    itself always fits, as the debit comes first. -/
def Fits (book : Book ι W) : Posting ι → Prop
  | .deposit payee amount => (book payee).balance + amount < W
  | .payment payer payee amount => payer = payee ∨ (book payee).balance + amount < W

def credit (book : Book ι W) (payee : ι) (amount : ℕ) : Book ι W :=
  Function.update book payee ((book payee).credit amount)

def debit (book : Book ι W) (payer : ι) (amount : ℕ)
    (hcovered : amount ≤ (book payer).balance) : Book ι W :=
  Function.update book payer ((book payer).debit amount hcovered)

/-- Entering a covered posting, the debit first. -/
def post (book : Book ι W) : (p : Posting ι) → book.Covers p → Book ι W
  | .deposit payee amount, _ => book.credit payee amount
  | .payment payer payee amount, hcovered =>
    (book.debit payer amount hcovered).credit payee amount

variable (book : Book ι W)

theorem credit_self (payee : ι) (amount : ℕ) :
    book.credit payee amount payee = (book payee).credit amount := Function.update_self ..

theorem credit_of_ne {payee i : ι} (h : i ≠ payee) (amount : ℕ) :
    book.credit payee amount i = book i := Function.update_of_ne h ..

theorem debit_self {payer : ι} {amount : ℕ} (hcovered : amount ≤ (book payer).balance) :
    book.debit payer amount hcovered payer = (book payer).debit amount hcovered :=
  Function.update_self ..

theorem debit_of_ne {payer i : ι} (h : i ≠ payer) {amount : ℕ}
    (hcovered : amount ≤ (book payer).balance) :
    book.debit payer amount hcovered i = book i := Function.update_of_ne h ..

/-- What a change of one account leaves alone there, it leaves alone everywhere. -/
theorem read_update {β : Type v} (g : Account W → β) (k : ι) (a : Account W)
    (hkeep : g a = g (book k)) (i : ι) : g (Function.update book k a i) = g (book i) := by
  by_cases hi : i = k
  · rw [hi, Function.update_self, hkeep]
  · rw [Function.update_of_ne hi]

/-- The balances the book shows. -/
def balances (i : ι) : ℕ := (book i).balance

theorem credit_balances (payee : ι) (amount : ℕ) :
    (book.credit payee amount).balances =
      Function.update book.balances payee ((book.balances payee + amount) % W) :=
  Function.comp_update Account.balance book payee ((book payee).credit amount)

theorem debit_balances {payer : ι} {amount : ℕ} (hcovered : amount ≤ (book payer).balance) :
    (book.debit payer amount hcovered).balances =
      Function.update book.balances payer (book.balances payer - amount) :=
  Function.comp_update Account.balance book payer ((book payer).debit amount hcovered)

/-- What posting adds to the credits of an account. -/
theorem post_credited (p : Posting ι) (hcovers : book.Covers p) (i : ι) :
    (book.post p hcovers i).credited = (book i).credited + p.credit i := by
  have hcredit : ∀ (b : Book ι W) (payee : ι) (amount : ℕ),
      (b.credit payee amount i).credited =
        (b i).credited + if payee = i then amount else 0 := by
    intro b payee amount
    by_cases hi : i = payee
    · subst hi
      rw [credit_self, if_pos rfl]
      rfl
    · rw [credit_of_ne b hi, if_neg (Ne.symm hi), Nat.add_zero]
  cases p with
  | deposit payee amount => exact hcredit book payee amount
  | payment payer payee amount =>
    have hcovered : amount ≤ (book payer).balance := hcovers
    have hdebit : (book.debit payer amount hcovered i).credited = (book i).credited := by
      apply book.read_update Account.credited payer
      rfl
    show ((book.debit payer amount hcovered).credit payee amount i).credited = _
    rw [hcredit, hdebit]
    rfl

/-- What posting adds to the debits of an account. -/
theorem post_debited (p : Posting ι) (hcovers : book.Covers p) (i : ι) :
    (book.post p hcovers i).debited = (book i).debited + p.debit i := by
  have hcredit : ∀ (b : Book ι W) (payee : ι) (amount : ℕ),
      (b.credit payee amount i).debited = (b i).debited := by
    intro b payee amount
    apply b.read_update Account.debited payee
    rfl
  cases p with
  | deposit payee amount => exact hcredit book payee amount
  | payment payer payee amount =>
    have hcovered : amount ≤ (book payer).balance := hcovers
    show ((book.debit payer amount hcovered).credit payee amount i).debited = _
    rw [hcredit, Posting.debit]
    by_cases hi : i = payer
    · subst hi
      rw [debit_self, if_pos rfl]
      rfl
    · rw [debit_of_ne book hi, if_neg (Ne.symm hi), Nat.add_zero]

/-- Posting leaves the book without carries exactly when it had none and the
    posting fits. -/
theorem post_carries_eq_zero (p : Posting ι) (hcovers : book.Covers p) :
    (∀ i, (book.post p hcovers i).carries = 0) ↔
      (∀ i, (book i).carries = 0) ∧ book.Fits p := by
  have hcredit : ∀ (b : Book ι W) (payee : ι) (amount : ℕ),
      (∀ i, (b.credit payee amount i).carries = 0) ↔
        (∀ i, (b i).carries = 0) ∧ (b payee).balance + amount < W := by
    intro b payee amount
    constructor
    · intro h
      have hpayee := h payee
      rw [credit_self, Account.credit_carries_eq_zero] at hpayee
      refine ⟨?_, hpayee.2⟩
      intro i
      by_cases hi : i = payee
      · exact hi ▸ hpayee.1
      · have hother := h i
        rwa [credit_of_ne b hi] at hother
    · intro ⟨h, hfits⟩ i
      by_cases hi : i = payee
      · subst hi
        rw [credit_self, Account.credit_carries_eq_zero]
        exact ⟨h i, hfits⟩
      · rw [credit_of_ne b hi]
        exact h i
  cases p with
  | deposit payee amount => exact hcredit book payee amount
  | payment payer payee amount =>
    have hcovered : amount ≤ (book payer).balance := hcovers
    have hdebit : ∀ i, (book.debit payer amount hcovered i).carries = (book i).carries := by
      apply book.read_update Account.carries payer
      rfl
    show (∀ i, ((book.debit payer amount hcovered).credit payee amount i).carries = 0) ↔
      _ ∧ (payer = payee ∨ _)
    simp only [hcredit, hdebit]
    by_cases hself : payer = payee
    · -- what was taken out just before fits in again
      subst hself
      have hlt := (book payer).balance_lt
      have hback : (book.debit payer amount hcovered payer).balance + amount < W := by
        rw [debit_self]
        simp only [Account.debit]
        omega
      simp [hback]
    · rw [debit_of_ne book (Ne.symm hself)]
      simp [hself]

end Book

/-- Replacing one value changes a sum by the difference. -/
theorem sum_update {α : Type v} {s : Finset ι} (f : ι → α) (g : α → ℕ) {i : ι}
    (hi : i ∈ s) (a : α) :
    ∑ x ∈ s, g (Function.update f i a x) + g (f i) = ∑ x ∈ s, g (f x) + g a := by
  have hrest : ∑ x ∈ s.erase i, g (Function.update f i a x) = ∑ x ∈ s.erase i, g (f x) := by
    apply Finset.sum_congr rfl
    intro x hx
    rw [Function.update_of_ne (Finset.ne_of_mem_erase hx)]
  rw [← Finset.add_sum_erase s _ hi, ← Finset.add_sum_erase s (fun x => g (f x)) hi, hrest,
    Function.update_self]
  omega

/-- Posting within a set of accounts adds to their worth what it deposits. -/
theorem Book.post_sum_worth (book : Book ι W) {s : Finset ι} (p : Posting ι)
    (hcovers : book.Covers p) (hwithin : p.Within (s : Set ι)) :
    ∑ i ∈ s, (book.post p hcovers i).worth = ∑ i ∈ s, (book i).worth + p.deposited := by
  have hcredit : ∀ (b : Book ι W) (payee : ι) (amount : ℕ), payee ∈ s →
      ∑ i ∈ s, (b.credit payee amount i).worth = ∑ i ∈ s, (b i).worth + amount := by
    intro b payee amount hpayee
    have hsum := sum_update b Account.worth hpayee ((b payee).credit amount)
    rw [Account.credit_worth] at hsum
    unfold Book.credit
    omega
  cases p with
  | deposit payee amount => exact hcredit book payee amount hwithin
  | payment payer payee amount =>
    have hcovered : amount ≤ (book payer).balance := hcovers
    have hsum := sum_update book Account.worth hwithin.1 ((book payer).debit amount hcovered)
    have hworth := (book payer).debit_worth hcovered
    show ∑ i ∈ s, ((book.debit payer amount hcovered).credit payee amount i).worth = _ + 0
    rw [hcredit _ payee amount hwithin.2]
    unfold Book.debit
    omega

/-! ### Lists of postings -/

/-- The book that a list of covered postings leads to. -/
inductive Posted [NeZero W] : List (Posting ι) → Book ι W → Prop where
  | nil : Posted [] fun _ => Account.opened
  | concat {ps : List (Posting ι)} {book : Book ι W} {p : Posting ι} (hposted : Posted ps book)
      (hcovers : book.Covers p) : Posted (ps ++ [p]) (book.post p hcovers)

namespace Posted

variable [NeZero W] {ps : List (Posting ι)} {book : Book ι W}

theorem credited_eq (h : Posted ps book) (i : ι) : (book i).credited = credited ps i := by
  induction h with
  | nil => rfl
  | concat _ hcovers ih =>
    rw [Book.post_credited, ih]
    simp [credited]

theorem debited_eq (h : Posted ps book) (i : ι) : (book i).debited = debited ps i := by
  induction h with
  | nil => rfl
  | concat _ hcovers ih =>
    rw [Book.post_debited, ih]
    simp [debited]

/-- No account is debited beyond its credits. -/
theorem balance_add_debited_le (h : Posted ps book) (i : ι) :
    (book i).balance + debited ps i ≤ credited ps i := by
  rw [← h.debited_eq, ← h.credited_eq]
  exact (book i).balance_add_debited_le

theorem balance_modEq (h : Posted ps book) (i : ι) :
    ((book i).balance : ℤ) ≡ credited ps i - debited ps i [ZMOD W] := by
  rw [← h.debited_eq, ← h.credited_eq]
  exact (book i).balance_modEq

/-- The worth of all accounts is what has come in from outside. -/
theorem sum_worth (h : Posted ps book) {s : Finset ι}
    (hwithin : ∀ p ∈ ps, p.Within (s : Set ι)) :
    ∑ i ∈ s, (book i).worth = deposited ps := by
  induction h with
  | nil => simp [deposited]
  | @concat ps book p _ hcovers ih =>
    have hprev := ih fun q hq => hwithin q (List.mem_append_left _ hq)
    rw [Book.post_sum_worth book p hcovers (hwithin p (by simp)), hprev]
    simp [deposited]

/-- Balances do not add up to more than has come in. -/
theorem sum_balance_le (h : Posted ps book) {s : Finset ι}
    (hwithin : ∀ p ∈ ps, p.Within (s : Set ι)) :
    ∑ i ∈ s, (book i).balance ≤ deposited ps := by
  rw [← h.sum_worth hwithin]
  exact Finset.sum_le_sum fun i _ => Nat.le_add_right _ _

/-- An account no posting touches has no carries. -/
theorem carries_of_not_within (h : Posted ps book) {s : Set ι} (hwithin : ∀ p ∈ ps, p.Within s)
    {i : ι} (hi : i ∉ s) : (book i).carries = 0 := by
  have huntouched : credited ps i = 0 := by
    rw [credited, List.sum_eq_zero_iff]
    intro amount hamount
    obtain ⟨p, hp, rfl⟩ := List.mem_map.mp hamount
    have hin := hwithin p hp
    cases p with
    | deposit payee amount =>
      rw [Posting.credit, if_neg]
      intro heq
      exact hi (heq ▸ hin)
    | payment payer payee amount =>
      rw [Posting.credit, if_neg]
      intro heq
      exact hi (heq ▸ hin.2)
  have hlaw := (book i).law
  rw [h.credited_eq, huntouched] at hlaw
  have hzero : W * (book i).carries = 0 := by omega
  rcases Nat.mul_eq_zero.mp hzero with hW | hcarries
  · exact absurd hW (NeZero.ne W)
  · exact hcarries

/-- They add up to exactly that when no carry has been left anywhere. -/
theorem sum_balance_eq_iff (h : Posted ps book) {s : Finset ι}
    (hwithin : ∀ p ∈ ps, p.Within (s : Set ι)) :
    ∑ i ∈ s, (book i).balance = deposited ps ↔ ∀ i, (book i).carries = 0 := by
  have hworth := h.sum_worth hwithin
  simp only [Account.worth, Finset.sum_add_distrib] at hworth
  constructor
  · intro htotal i
    by_cases hi : i ∈ s
    · -- the worth that the balances do not show is in the carries
      have hlost : ∑ i ∈ s, W * (book i).carries = 0 := by omega
      have hzero := (Finset.sum_eq_zero_iff.mp hlost) i hi
      rcases Nat.mul_eq_zero.mp hzero with hW | hcarries
      · exact absurd hW (NeZero.ne W)
      · exact hcarries
    · exact h.carries_of_not_within hwithin (by simpa using hi)
  · intro hcarries
    have hlost : ∑ i ∈ s, W * (book i).carries = 0 :=
      Finset.sum_eq_zero fun i _ => by rw [hcarries i, Nat.mul_zero]
    omega

end Posted

end Bookkeeping
