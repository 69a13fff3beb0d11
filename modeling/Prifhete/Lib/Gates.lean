import Mathlib.Algebra.Order.Ring.Nat
import Mathlib.Algebra.Order.Ring.Int
import Mathlib.Data.List.Zip

/-! # Gates and the circuits made of them

    A set of gates over a type of wires, and three circuits that only use
    its gates: equality of two words, one bit of an adder and one bit of a
    subtracter. Over the Boolean gates each circuit computes what it is
    named after.
-/

universe u

/-- The gates a circuit is built from. -/
structure Gates (β : Type u) where
  constant : Bool → β
  xor : β → β → β
  and : β → β → β
  or : β → β → β
  not : β → β

namespace Gates

variable {β : Type u} (g : Gates β)

/-- The conjunction of all bits, from the first to the last. -/
def allOf (bits : List β) : β := bits.foldl g.and (g.constant true)

/-- Equality of two words of any lengths. -/
def equal (lhs rhs : List β) : β :=
  if lhs.length = rhs.length then
    g.allOf ((lhs.zip rhs).map fun p => g.not (g.xor p.1 p.2))
  else g.constant false

/-- The lower bit of a sum of three, and that of a difference of three. -/
def parity (lhs rhs chain : β) : β := g.xor (g.xor lhs rhs) chain

/-- The upper bit of a sum of three. -/
def carry (lhs rhs carry_in : β) : β :=
  g.or (g.and lhs rhs) (g.and (g.xor lhs rhs) carry_in)

/-- What a difference of three takes from the next bit. -/
def borrow (lhs rhs borrow_in : β) : β :=
  g.or (g.and (g.not lhs) (g.or rhs borrow_in)) (g.and rhs borrow_in)

/-! ### Boolean gates -/

/-- The gates on truth values. -/
def bool : Gates Bool where
  constant := id
  xor := Bool.xor
  and := Bool.and
  or := Bool.or
  not := Bool.not

/-- Gates on wires of which nothing is recorded. -/
def unit : Gates Unit where
  constant _ := ()
  xor _ _ := ()
  and _ _ := ()
  or _ _ := ()
  not _ := ()

private theorem foldl_and (bits : List Bool) (b : Bool) :
    bits.foldl Bool.and b = true ↔ b = true ∧ ∀ c ∈ bits, c = true := by
  induction bits generalizing b with
  | nil => simp
  | cons c bits ih => rw [List.foldl_cons, ih]; cases b <;> simp

theorem bool_allOf (bits : List Bool) : bool.allOf bits = true ↔ ∀ b ∈ bits, b = true := by
  show bits.foldl Bool.and true = true ↔ _
  rw [foldl_and]
  simp

/-- Two words of one length are equal iff no two bits at one place differ. -/
private theorem eq_iff_zip {lhs rhs : List Bool} (hlen : lhs.length = rhs.length) :
    lhs = rhs ↔ ∀ p ∈ lhs.zip rhs, p.1 = p.2 := by
  induction lhs generalizing rhs with
  | nil => cases rhs with
    | nil => simp
    | cons r rhs => contradiction
  | cons l lhs ih => cases rhs with
    | nil => contradiction
    | cons r rhs =>
      rw [List.zip_cons_cons, List.forall_mem_cons, List.cons.injEq, ih (Nat.succ.inj hlen)]

theorem bool_equal (lhs rhs : List Bool) : bool.equal lhs rhs = true ↔ lhs = rhs := by
  unfold equal
  split
  · next hlen =>
    rw [bool_allOf, eq_iff_zip hlen, List.forall_mem_map]
    -- the negated exclusive or of two bits is their equality
    simp [bool]
  · next hlen =>
    have hne : lhs ≠ rhs := fun heq => hlen (congrArg List.length heq)
    simp [bool, hne]

/-- One bit of a sum: two output bits carry the sum of three. -/
theorem bool_sum (a b c : Bool) :
    (bool.parity a b c).toNat + 2 * (bool.carry a b c).toNat = a.toNat + b.toNat + c.toNat := by
  cases a <;> cases b <;> cases c <;> rfl

/-- One bit of a difference, with what it borrows from the next bit. -/
theorem bool_difference (a b c : Bool) :
    ((bool.parity a b c).toNat : Int) - 2 * (bool.borrow a b c).toNat =
      a.toNat - b.toNat - c.toNat := by
  cases a <;> cases b <;> cases c <;> rfl

end Gates
