import Prifhete.Lib.Checked

/-! # Bits and the backends that compute on them

    `BitValue`, the `BitBackend` interface and `FakeBitContext`, which
    computes in the clear.

    The payload of a bit is a `std::shared_ptr<const void>`: a null pointer
    is `none`, and nothing is known of the type `Opaque` behind the others.
    A virtual member function of a backend is a computation that checks
    assertions, on a world of type `σ` of which nothing is known either (an
    encrypting backend draws randomness from it). Assertions are compiled in.
-/

namespace Prifhete

inductive BitBackendKind
  | kFake
  | kBinFHE
  deriving DecidableEq, Repr

structure BitValue (Opaque : Type) where
  backend_ : BitBackendKind := .kFake
  fake_value_ : Bool := false
  opaque_payload_ : Option Opaque := none

open Checked

variable {σ Opaque : Type}

namespace BitValue

def fake (value : Bool) : BitValue Opaque := ⟨.kFake, value, none⟩

def binFHEPlaceholder (opaque_payload : Option Opaque := none) : BitValue Opaque :=
  ⟨.kBinFHE, false, opaque_payload⟩

def isBackend (bit : BitValue Opaque) (backend : BitBackendKind) : Bool := bit.backend_ = backend

def isFake (bit : BitValue Opaque) : Bool := bit.backend_ = .kFake

def isBinFHE (bit : BitValue Opaque) : Bool := bit.backend_ = .kBinFHE

def fake_value (bit : BitValue Opaque) : Checked σ Bool := do
  assert bit.isFake "IsFake()"
  return bit.fake_value_

def has_opaque_payload (bit : BitValue Opaque) : Bool := bit.opaque_payload_.isSome

/-- The value of a fake bit can be read. -/
theorem fake_value_of_isFake {bit : BitValue Opaque} (h : bit.isFake = true) :
    (bit.fake_value : Checked σ Bool) = pure bit.fake_value_ :=
  assert_bind h

end BitValue

abbrev BitVector (Opaque : Type) := List (BitValue Opaque)

/-- The virtual member functions of a backend. -/
structure BitBackend (σ Opaque : Type) where
  kind : BitBackendKind
  constant : Bool → Checked σ (BitValue Opaque)
  xor : BitValue Opaque → BitValue Opaque → Checked σ (BitValue Opaque)
  and : BitValue Opaque → BitValue Opaque → Checked σ (BitValue Opaque)
  or : BitValue Opaque → BitValue Opaque → Checked σ (BitValue Opaque)
  not : BitValue Opaque → Checked σ (BitValue Opaque)

/-! ### The fake backend -/

namespace FakeBitContext

def kind : BitBackendKind := .kFake

def constant (value : Bool) : Checked σ (BitValue Opaque) := return .fake value

def xor (lhs rhs : BitValue Opaque) : Checked σ (BitValue Opaque) := do
  assert (lhs.isBackend kind) "lhs.IsBackend(kind())"
  assert (rhs.isBackend kind) "rhs.IsBackend(kind())"
  return .fake ((← lhs.fake_value) != (← rhs.fake_value))

def and (lhs rhs : BitValue Opaque) : Checked σ (BitValue Opaque) := do
  assert (lhs.isBackend kind) "lhs.IsBackend(kind())"
  assert (rhs.isBackend kind) "rhs.IsBackend(kind())"
  -- `&&` reads its right operand only if the left one is true
  let value ← if ← lhs.fake_value then rhs.fake_value else pure false
  return .fake value

def or (lhs rhs : BitValue Opaque) : Checked σ (BitValue Opaque) := do
  assert (lhs.isBackend kind) "lhs.IsBackend(kind())"
  assert (rhs.isBackend kind) "rhs.IsBackend(kind())"
  let value ← if ← lhs.fake_value then pure true else rhs.fake_value
  return .fake value

def not (input : BitValue Opaque) : Checked σ (BitValue Opaque) := do
  assert (input.isBackend kind) "input.IsBackend(kind())"
  return .fake (!(← input.fake_value))

/-- The backend that a `FakeBitContext` is. -/
def toBitBackend : BitBackend σ Opaque := { kind, constant, xor, and, or, not }

/-! A gate on fake bits passes its assertions. -/

variable {lhs rhs : BitValue Opaque}

/-- The tag the gates ask for is that of the fake bits. -/
theorem isBackend_kind (bit : BitValue Opaque) : bit.isBackend kind = bit.isFake := rfl

theorem xor_eq (hlhs : lhs.isFake = true) (hrhs : rhs.isFake = true) :
    (xor lhs rhs : Checked σ _) = pure (.fake (lhs.fake_value_ != rhs.fake_value_)) := by
  unfold xor
  rw [isBackend_kind, isBackend_kind, assert_bind hlhs, assert_bind hrhs,
    BitValue.fake_value_of_isFake hlhs, BitValue.fake_value_of_isFake hrhs]
  rfl

theorem and_eq (hlhs : lhs.isFake = true) (hrhs : rhs.isFake = true) :
    (and lhs rhs : Checked σ _) = pure (.fake (lhs.fake_value_ && rhs.fake_value_)) := by
  unfold and
  rw [isBackend_kind, isBackend_kind, assert_bind hlhs, assert_bind hrhs,
    BitValue.fake_value_of_isFake hlhs, BitValue.fake_value_of_isFake hrhs, pure_bind]
  cases lhs.fake_value_ <;> rfl

theorem or_eq (hlhs : lhs.isFake = true) (hrhs : rhs.isFake = true) :
    (or lhs rhs : Checked σ _) = pure (.fake (lhs.fake_value_ || rhs.fake_value_)) := by
  unfold or
  rw [isBackend_kind, isBackend_kind, assert_bind hlhs, assert_bind hrhs,
    BitValue.fake_value_of_isFake hlhs, BitValue.fake_value_of_isFake hrhs, pure_bind]
  cases lhs.fake_value_ <;> rfl

theorem not_eq (hlhs : lhs.isFake = true) :
    (not lhs : Checked σ _) = pure (.fake (!lhs.fake_value_)) := by
  unfold not
  rw [isBackend_kind, assert_bind hlhs, BitValue.fake_value_of_isFake hlhs]
  rfl

end FakeBitContext

end Prifhete
