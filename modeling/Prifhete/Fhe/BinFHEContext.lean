import Prifhete.Common.Types
import Prifhete.Fhe.BitValue

/-! # The BinFHE backend

    `BinFHEContext` as the build with or without `PRIFHETE_ENABLE_OPENFHE`
    compiles it. Its bits are placeholders that carry a label and no
    ciphertext. `static_pointer_cast` is the conversion of a handle to a
    `std::shared_ptr<const void>`, which is never null.
-/

namespace Prifhete

open Checked

structure PlaceholderBinFHEBit where
  label : StdString
  deriving DecidableEq, Repr

variable {σ Opaque : Type} (static_pointer_cast : PlaceholderBinFHEBit → Opaque)

def makePlaceholderHandle (label : String) : Option Opaque :=
  some (static_pointer_cast { label := .ofAscii label })

def assertBinFHEBit (bit : BitValue Opaque) : Checked σ Unit := do
  assert bit.isBinFHE "bit.IsBinFHE()"
  assert bit.has_opaque_payload "bit.has_opaque_payload()"

/-- `BinFHEContext` and, with no members of its own, its `Impl`. -/
structure BinFHEContext where
  impl_ : Option Unit := none
  enabled_ : Bool := false
  deriving DecidableEq, Repr

namespace BinFHEContext

/-! ### The implementation -/

namespace Impl

def constant (value : Bool) : Checked σ (BitValue Opaque) :=
  return .binFHEPlaceholder
    (makePlaceholderHandle static_pointer_cast (if value then "const-1" else "const-0"))

/-- A gate with two operands. -/
def binary (label : String) (lhs rhs : BitValue Opaque) : Checked σ (BitValue Opaque) := do
  assertBinFHEBit lhs
  assertBinFHEBit rhs
  return .binFHEPlaceholder (makePlaceholderHandle static_pointer_cast label)

def xor (lhs rhs : BitValue Opaque) : Checked σ (BitValue Opaque) :=
  binary static_pointer_cast "xor" lhs rhs

def and (lhs rhs : BitValue Opaque) : Checked σ (BitValue Opaque) :=
  binary static_pointer_cast "and" lhs rhs

def or (lhs rhs : BitValue Opaque) : Checked σ (BitValue Opaque) :=
  binary static_pointer_cast "or" lhs rhs

def not (input : BitValue Opaque) : Checked σ (BitValue Opaque) := do
  assertBinFHEBit input
  return .binFHEPlaceholder (makePlaceholderHandle static_pointer_cast "not")

end Impl

/-! ### The context -/

variable (PRIFHETE_ENABLE_OPENFHE : Bool)

/-- `Initialize`, whose name alone is a keyword here. -/
def initializeContext (ctx : BinFHEContext) : Status × BinFHEContext :=
  if PRIFHETE_ENABLE_OPENFHE then
    (okStatus, { ctx with impl_ := some (), enabled_ := true })
  else
    (unimplementedStatus "OpenFHE support is disabled",
      { ctx with impl_ := none, enabled_ := false })

def kind : BitBackendKind := .kBinFHE

/-- What the member functions have in common: the checks, and a gate of the
    implementation or, in a build without one, a bit with no payload. -/
def dispatch (ctx : BinFHEContext) (gate : Checked σ (BitValue Opaque)) :
    Checked σ (BitValue Opaque) := do
  assert ctx.enabled_ "enabled_"
  if PRIFHETE_ENABLE_OPENFHE then
    assert ctx.impl_.isSome "impl_ != nullptr"
    gate
  else return .binFHEPlaceholder

def constant (ctx : BinFHEContext) (value : Bool) : Checked σ (BitValue Opaque) :=
  ctx.dispatch PRIFHETE_ENABLE_OPENFHE (Impl.constant static_pointer_cast value)

def xor (ctx : BinFHEContext) (lhs rhs : BitValue Opaque) : Checked σ (BitValue Opaque) :=
  ctx.dispatch PRIFHETE_ENABLE_OPENFHE (Impl.xor static_pointer_cast lhs rhs)

def and (ctx : BinFHEContext) (lhs rhs : BitValue Opaque) : Checked σ (BitValue Opaque) :=
  ctx.dispatch PRIFHETE_ENABLE_OPENFHE (Impl.and static_pointer_cast lhs rhs)

def or (ctx : BinFHEContext) (lhs rhs : BitValue Opaque) : Checked σ (BitValue Opaque) :=
  ctx.dispatch PRIFHETE_ENABLE_OPENFHE (Impl.or static_pointer_cast lhs rhs)

def not (ctx : BinFHEContext) (input : BitValue Opaque) : Checked σ (BitValue Opaque) :=
  ctx.dispatch PRIFHETE_ENABLE_OPENFHE (Impl.not static_pointer_cast input)

/-- The backend that a `BinFHEContext` is. -/
def toBitBackend (ctx : BinFHEContext) : BitBackend σ Opaque where
  kind := kind
  constant := ctx.constant static_pointer_cast PRIFHETE_ENABLE_OPENFHE
  xor := ctx.xor static_pointer_cast PRIFHETE_ENABLE_OPENFHE
  and := ctx.and static_pointer_cast PRIFHETE_ENABLE_OPENFHE
  or := ctx.or static_pointer_cast PRIFHETE_ENABLE_OPENFHE
  not := ctx.not static_pointer_cast PRIFHETE_ENABLE_OPENFHE

/-! ### Bits with a payload -/

/-- The operands that the gates of the implementation accept. -/
def HasPayload (bit : BitValue Opaque) : Prop :=
  bit.isBinFHE = true ∧ bit.has_opaque_payload = true

instance (bit : BitValue Opaque) : Decidable (HasPayload bit) :=
  inferInstanceAs (Decidable (_ ∧ _))

theorem hasPayload_placeholder (label : String) :
    HasPayload (.binFHEPlaceholder (makePlaceholderHandle static_pointer_cast label)) :=
  ⟨rfl, rfl⟩

theorem assertBinFHEBit_bind {bit : BitValue Opaque} {rest : Unit → Checked σ (BitValue Opaque)}
    (h : HasPayload bit) : (assertBinFHEBit bit >>= rest) = rest () := by
  obtain ⟨hbinfhe, hpayload⟩ := h
  unfold assertBinFHEBit
  rw [assert_bind hbinfhe, hpayload]
  rfl

namespace Impl

theorem constant_returns (value : Bool) :
    Returns (constant static_pointer_cast value : Checked σ _) HasPayload :=
  Returns.pure (hasPayload_placeholder static_pointer_cast _)

theorem binary_returns (label : String) {lhs rhs : BitValue Opaque} (hlhs : HasPayload lhs)
    (hrhs : HasPayload rhs) :
    Returns (binary static_pointer_cast label lhs rhs : Checked σ _) HasPayload := by
  unfold binary
  rw [assertBinFHEBit_bind hlhs, assertBinFHEBit_bind hrhs]
  exact Returns.pure (hasPayload_placeholder static_pointer_cast label)

theorem not_returns {input : BitValue Opaque} (hinput : HasPayload input) :
    Returns (not static_pointer_cast input : Checked σ _) HasPayload := by
  unfold not
  rw [assertBinFHEBit_bind hinput]
  exact Returns.pure (hasPayload_placeholder static_pointer_cast _)

end Impl

end BinFHEContext

end Prifhete
