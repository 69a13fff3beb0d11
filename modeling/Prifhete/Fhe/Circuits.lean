import Prifhete.Fhe.BinFHEContext
import Prifhete.Lib.Gates

/-! # Circuits on bits of any backend

    The four circuits of the source, each built from the gates of a
    backend. A relation between the bits of the backend and the wires of a
    set of gates that every gate respects (`Simulates`) is respected by the
    circuits. Two relations are of interest:

    * a bit and what it decodes to, so the circuits compute what they are
      named after, over every backend;
    * the bits whose gates pass their assertions, so no circuit ever fails
      one, however the circuits are composed.
-/

namespace Prifhete

open Checked

variable {σ Opaque : Type}

/-! ### The circuits -/

def assertBitVectorBackend (backend : BitBackend σ Opaque) (bits : BitVector Opaque) :
    Checked σ PUnit :=
  forM bits fun bit => assert (bit.isBackend backend.kind) "bit.IsBackend(backend.kind())"

def reduceAnd (backend : BitBackend σ Opaque) (bits : BitVector Opaque) :
    Checked σ (BitValue Opaque) := do
  assertBitVectorBackend backend bits
  let accumulated ← backend.constant true
  bits.foldlM (fun accumulated bit => backend.and accumulated bit) accumulated

def equalBitVectors (backend : BitBackend σ Opaque) (lhs rhs : BitVector Opaque) :
    Checked σ (BitValue Opaque) := do
  assertBitVectorBackend backend lhs
  assertBitVectorBackend backend rhs
  if lhs.length ≠ rhs.length then
    backend.constant false
  else
    -- the loop reads both vectors at the same positions
    let equal_bits ← (lhs.zip rhs).mapM fun bits => do
      backend.not (← backend.xor bits.1 bits.2)
    reduceAnd backend equal_bits

structure FullAdderResult (Opaque : Type) where
  sum : BitValue Opaque
  carry_out : BitValue Opaque

structure FullSubtracterResult (Opaque : Type) where
  difference : BitValue Opaque
  borrow_out : BitValue Opaque

def fullAdder (backend : BitBackend σ Opaque) (lhs rhs carry_in : BitValue Opaque) :
    Checked σ (FullAdderResult Opaque) := do
  assert (lhs.isBackend backend.kind) "lhs.IsBackend(backend.kind())"
  assert (rhs.isBackend backend.kind) "rhs.IsBackend(backend.kind())"
  assert (carry_in.isBackend backend.kind) "carry_in.IsBackend(backend.kind())"
  let lhs_xor_rhs ← backend.xor lhs rhs
  let sum ← backend.xor lhs_xor_rhs carry_in
  let carry_from_inputs ← backend.and lhs rhs
  let carry_from_carry_in ← backend.and lhs_xor_rhs carry_in
  let carry_out ← backend.or carry_from_inputs carry_from_carry_in
  return { sum, carry_out }

def fullSubtracter (backend : BitBackend σ Opaque) (lhs rhs borrow_in : BitValue Opaque) :
    Checked σ (FullSubtracterResult Opaque) := do
  assert (lhs.isBackend backend.kind) "lhs.IsBackend(backend.kind())"
  assert (rhs.isBackend backend.kind) "rhs.IsBackend(backend.kind())"
  assert (borrow_in.isBackend backend.kind) "borrow_in.IsBackend(backend.kind())"
  let lhs_xor_rhs ← backend.xor lhs rhs
  let difference ← backend.xor lhs_xor_rhs borrow_in
  let not_lhs ← backend.not lhs
  let rhs_or_borrow_in ← backend.or rhs borrow_in
  let borrow_from_lhs ← backend.and not_lhs rhs_or_borrow_in
  let borrow_from_chain ← backend.and rhs borrow_in
  let borrow_out ← backend.or borrow_from_lhs borrow_from_chain
  return { difference, borrow_out }

/-! ### Simulation by a set of gates -/

variable {β : Type}

/-- Every gate of the backend returns, and respects the relation. -/
structure Simulates (R : BitValue Opaque → β → Prop) (backend : BitBackend σ Opaque)
    (g : Gates β) : Prop where
  /-- The bits that are related to a wire pass the assertions of the circuits. -/
  tagged : ∀ {bit w}, R bit w → bit.isBackend backend.kind = true
  constant : ∀ value, Returns (backend.constant value) (R · (g.constant value))
  xor : ∀ {l a r b}, R l a → R r b → Returns (backend.xor l r) (R · (g.xor a b))
  and : ∀ {l a r b}, R l a → R r b → Returns (backend.and l r) (R · (g.and a b))
  or : ∀ {l a r b}, R l a → R r b → Returns (backend.or l r) (R · (g.or a b))
  not : ∀ {l a}, R l a → Returns (backend.not l) (R · (g.not a))

namespace Simulates

variable {R : BitValue Opaque → β → Prop} {backend : BitBackend σ Opaque} {g : Gates β}
  (sim : Simulates R backend g)

include sim

theorem assert_vector_bind {α : Type} {bits : BitVector Opaque} {ws : List β}
    (hbits : List.Forall₂ R bits ws) {rest : PUnit → Checked σ α} :
    (assertBitVectorBackend backend bits >>= rest) = rest () := by
  have htagged : ∀ bit ∈ bits, bit.isBackend backend.kind = true :=
    ((List.forall₂_and_left _ _).mp (hbits.imp fun _ _ h => ⟨sim.tagged h, h⟩)).1
  exact forM_assert_bind htagged

theorem reduceAnd {bits : BitVector Opaque} {ws : List β} (hbits : List.Forall₂ R bits ws) :
    Returns (reduceAnd backend bits) (R · (g.allOf ws)) := by
  unfold Prifhete.reduceAnd
  rw [sim.assert_vector_bind hbits]
  apply (sim.constant true).bind
  intro accumulated hacc
  exact Returns.foldlM (R := R) (fun _ _ _ _ hl hr => sim.and hl hr) hbits hacc

theorem equalBitVectors {lhs rhs : BitVector Opaque} {as bs : List β}
    (hlhs : List.Forall₂ R lhs as) (hrhs : List.Forall₂ R rhs bs) :
    Returns (equalBitVectors backend lhs rhs) (R · (g.equal as bs)) := by
  -- one position of the two vectors
  have hposition : ∀ (p : BitValue Opaque × BitValue Opaque) (q : β × β),
      R p.1 q.1 ∧ R p.2 q.2 →
      Returns (do backend.not (← backend.xor p.1 p.2)) (R · (g.not (g.xor q.1 q.2))) := by
    intro p q ⟨hl, hr⟩
    apply (sim.xor hl hr).bind
    intro bit hbit
    exact sim.not hbit
  unfold Prifhete.equalBitVectors Gates.equal
  rw [sim.assert_vector_bind hlhs, sim.assert_vector_bind hrhs, hlhs.length_eq, hrhs.length_eq,
    ite_not]
  split
  · apply (Returns.mapM hposition (forall₂_zip hlhs hrhs)).bind
    intro equal_bits hequal
    exact sim.reduceAnd hequal
  · exact sim.constant false

theorem fullAdder {lhs rhs carry_in : BitValue Opaque} {a b c : β} (hlhs : R lhs a)
    (hrhs : R rhs b) (hcarry : R carry_in c) :
    Returns (fullAdder backend lhs rhs carry_in) fun result =>
      R result.sum (g.parity a b c) ∧ R result.carry_out (g.carry a b c) := by
  unfold Prifhete.fullAdder
  rw [assert_bind (sim.tagged hlhs), assert_bind (sim.tagged hrhs),
    assert_bind (sim.tagged hcarry)]
  refine (sim.xor hlhs hrhs).bind fun lhs_xor_rhs hxor => ?_
  refine (sim.xor hxor hcarry).bind fun sum hsum => ?_
  refine (sim.and hlhs hrhs).bind fun carry_from_inputs hinputs => ?_
  refine (sim.and hxor hcarry).bind fun carry_from_carry_in hchain => ?_
  refine (sim.or hinputs hchain).bind fun carry_out hout => ?_
  exact Returns.pure ⟨hsum, hout⟩

theorem fullSubtracter {lhs rhs borrow_in : BitValue Opaque} {a b c : β} (hlhs : R lhs a)
    (hrhs : R rhs b) (hborrow : R borrow_in c) :
    Returns (fullSubtracter backend lhs rhs borrow_in) fun result =>
      R result.difference (g.parity a b c) ∧ R result.borrow_out (g.borrow a b c) := by
  unfold Prifhete.fullSubtracter
  rw [assert_bind (sim.tagged hlhs), assert_bind (sim.tagged hrhs),
    assert_bind (sim.tagged hborrow)]
  refine (sim.xor hlhs hrhs).bind fun lhs_xor_rhs hxor => ?_
  refine (sim.xor hxor hborrow).bind fun difference hdifference => ?_
  refine (sim.not hlhs).bind fun not_lhs hnot => ?_
  refine (sim.or hrhs hborrow).bind fun rhs_or_borrow_in hor => ?_
  refine (sim.and hnot hor).bind fun borrow_from_lhs hfrom => ?_
  refine (sim.and hrhs hborrow).bind fun borrow_from_chain hchain => ?_
  refine (sim.or hfrom hchain).bind fun borrow_out hout => ?_
  exact Returns.pure ⟨hdifference, hout⟩

end Simulates

/-- A vector is related to the wires that a function picks for its bits. -/
theorem related_map {R : BitValue Opaque → β → Prop} {f : BitValue Opaque → β}
    {bits : BitVector Opaque} (h : ∀ bit ∈ bits, R bit (f bit)) :
    List.Forall₂ R bits (bits.map f) :=
  List.forall₂_map_right_iff.mpr (List.forall₂_same.mpr h)

/-! ### Decoding -/

/-- `D` decodes the bits that `IsBit` picks out: every gate returns such a
    bit on such bits, and decodes to the Boolean operation. -/
structure Decodes (backend : BitBackend σ Opaque) (IsBit : BitValue Opaque → Prop)
    (D : BitValue Opaque → Bool) : Prop where
  tagged : ∀ {bit}, IsBit bit → bit.isBackend backend.kind = true
  constant : ∀ value, Returns (backend.constant value) fun bit => IsBit bit ∧ D bit = value
  xor : ∀ {l r}, IsBit l → IsBit r →
    Returns (backend.xor l r) fun bit => IsBit bit ∧ D bit = (D l != D r)
  and : ∀ {l r}, IsBit l → IsBit r →
    Returns (backend.and l r) fun bit => IsBit bit ∧ D bit = (D l && D r)
  or : ∀ {l r}, IsBit l → IsBit r →
    Returns (backend.or l r) fun bit => IsBit bit ∧ D bit = (D l || D r)
  not : ∀ {l}, IsBit l → Returns (backend.not l) fun bit => IsBit bit ∧ D bit = !D l

/-- The backend computes on truth values, behind the decoding. -/
theorem Decodes.simulates {backend : BitBackend σ Opaque} {IsBit : BitValue Opaque → Prop}
    {D : BitValue Opaque → Bool} (h : Decodes backend IsBit D) :
    Simulates (fun bit b => IsBit bit ∧ D bit = b) backend Gates.bool where
  tagged hbit := h.tagged hbit.1
  constant := h.constant
  xor := by
    intro l a r b ⟨hl, hla⟩ ⟨hr, hrb⟩
    rw [← hla, ← hrb]
    exact h.xor hl hr
  and := by
    intro l a r b ⟨hl, hla⟩ ⟨hr, hrb⟩
    rw [← hla, ← hrb]
    exact h.and hl hr
  or := by
    intro l a r b ⟨hl, hla⟩ ⟨hr, hrb⟩
    rw [← hla, ← hrb]
    exact h.or hl hr
  not := by
    intro l a ⟨hl, hla⟩
    rw [← hla]
    exact h.not hl

/-- Fake bits decode to the value they hold. -/
theorem FakeBitContext.decodes :
    Decodes (FakeBitContext.toBitBackend : BitBackend σ Opaque) (fun bit => bit.isFake = true)
      (fun bit => bit.fake_value_) where
  tagged hbit := hbit
  constant _ := Returns.pure ⟨rfl, rfl⟩
  xor hl hr := by
    show Returns (FakeBitContext.xor _ _) _
    rw [FakeBitContext.xor_eq hl hr]
    exact Returns.pure ⟨rfl, rfl⟩
  and hl hr := by
    show Returns (FakeBitContext.and _ _) _
    rw [FakeBitContext.and_eq hl hr]
    exact Returns.pure ⟨rfl, rfl⟩
  or hl hr := by
    show Returns (FakeBitContext.or _ _) _
    rw [FakeBitContext.or_eq hl hr]
    exact Returns.pure ⟨rfl, rfl⟩
  not hl := by
    show Returns (FakeBitContext.not _) _
    rw [FakeBitContext.not_eq hl]
    exact Returns.pure ⟨rfl, rfl⟩

/-- The circuits over every backend and every decoding of its bits, on
    vectors of any lengths: equality, conjunction, and one bit of a sum and
    of a difference. Fake bits, read by `fake_value`, are an instance. -/
theorem circuits_correct :
    (∀ {σ Opaque : Type} {backend : BitBackend σ Opaque} {IsBit : BitValue Opaque → Prop}
      {D : BitValue Opaque → Bool}, Decodes backend IsBit D →
      (∀ lhs rhs : BitVector Opaque,
        (∀ bit ∈ lhs, IsBit bit) → (∀ bit ∈ rhs, IsBit bit) →
        Returns (equalBitVectors backend lhs rhs) fun result =>
          D result = true ↔ lhs.map D = rhs.map D) ∧
      (∀ bits : BitVector Opaque, (∀ bit ∈ bits, IsBit bit) →
        Returns (reduceAnd backend bits) fun result =>
          D result = true ↔ ∀ bit ∈ bits, D bit = true) ∧
      (∀ a b c, IsBit a → IsBit b → IsBit c →
        Returns (fullAdder backend a b c) fun result =>
          (D result.sum).toNat + 2 * (D result.carry_out).toNat =
            (D a).toNat + (D b).toNat + (D c).toNat) ∧
      (∀ a b c, IsBit a → IsBit b → IsBit c →
        Returns (fullSubtracter backend a b c) fun result =>
          ((D result.difference).toNat : Int) - 2 * (D result.borrow_out).toNat =
            (D a).toNat - (D b).toNat - (D c).toNat)) ∧
    (∀ {σ Opaque : Type},
      Decodes (FakeBitContext.toBitBackend : BitBackend σ Opaque) (fun bit => bit.isFake = true)
        (fun bit => bit.fake_value_) ∧
      ∀ bit : BitValue Opaque, bit.isFake = true →
        (bit.fake_value : Checked σ Bool) = pure bit.fake_value_) := by
  refine ⟨?_, FakeBitContext.decodes, fun bit => BitValue.fake_value_of_isFake⟩
  intro σ Opaque backend IsBit D h
  have sim := h.simulates
  have hrelated : ∀ bits : BitVector Opaque, (∀ bit ∈ bits, IsBit bit) →
      List.Forall₂ (fun bit b => IsBit bit ∧ D bit = b) bits (bits.map D) :=
    fun bits hbits => related_map fun bit hbit => ⟨hbits bit hbit, rfl⟩
  refine ⟨?_, ?_, ?_, ?_⟩
  · intro lhs rhs hlhs hrhs
    apply (sim.equalBitVectors (hrelated lhs hlhs) (hrelated rhs hrhs)).mono
    intro result ⟨_, hresult⟩
    rw [hresult]
    exact Gates.bool_equal _ _
  · intro bits hbits
    apply (sim.reduceAnd (hrelated bits hbits)).mono
    intro result ⟨_, hresult⟩
    rw [hresult, Gates.bool_allOf, List.forall_mem_map]
  · intro a b c ha hb hc
    apply (sim.fullAdder ⟨ha, rfl⟩ ⟨hb, rfl⟩ ⟨hc, rfl⟩).mono
    intro result ⟨⟨_, hsum⟩, ⟨_, hcarry⟩⟩
    rw [hsum, hcarry]
    exact Gates.bool_sum _ _ _
  · intro a b c ha hb hc
    apply (sim.fullSubtracter ⟨ha, rfl⟩ ⟨hb, rfl⟩ ⟨hc, rfl⟩).mono
    intro result ⟨⟨_, hdifference⟩, ⟨_, hborrow⟩⟩
    rw [hdifference, hborrow]
    exact Gates.bool_difference _ _ _

/-- Two fake vectors of different widths compare as different, and `1 + 1`
    is `0` with a carry. -/
theorem circuits_correct_fake :
    let backend : BitBackend Unit Empty := FakeBitContext.toBitBackend
    (Returns (equalBitVectors backend [.fake true] [.fake true, .fake false]) fun result =>
      result.fake_value_ = true ↔ [true] = [true, false]) ∧
    Returns (fullAdder backend (.fake true) (.fake true) (.fake false)) fun result =>
      result.sum.fake_value_.toNat + 2 * result.carry_out.fake_value_.toNat = 2 := by
  obtain ⟨hequal, _, hadder, _⟩ := circuits_correct.1
    (circuits_correct.2.1 : Decodes (FakeBitContext.toBitBackend : BitBackend Unit Empty) _ _)
  exact ⟨hequal _ _ (by decide) (by decide), hadder _ _ _ rfl rfl rfl⟩

/-! ### Assertions -/

/-- On bits of which `P` holds no circuit fails an assertion, and `P` holds
    of the bits it returns. -/
structure SafeOn (backend : BitBackend σ Opaque) (P : BitValue Opaque → Prop) : Prop where
  equalBitVectors : ∀ {lhs rhs : BitVector Opaque}, (∀ bit ∈ lhs, P bit) →
    (∀ bit ∈ rhs, P bit) → Returns (equalBitVectors backend lhs rhs) P
  reduceAnd : ∀ {bits : BitVector Opaque}, (∀ bit ∈ bits, P bit) →
    Returns (reduceAnd backend bits) P
  fullAdder : ∀ {lhs rhs carry_in}, P lhs → P rhs → P carry_in →
    Returns (fullAdder backend lhs rhs carry_in) fun result => P result.sum ∧ P result.carry_out
  fullSubtracter : ∀ {lhs rhs borrow_in}, P lhs → P rhs → P borrow_in →
    Returns (fullSubtracter backend lhs rhs borrow_in) fun result =>
      P result.difference ∧ P result.borrow_out

/-- The bits that circuits compute from inputs of which `P` holds, feeding
    the outputs of circuits to circuits. -/
inductive Wired (backend : BitBackend σ Opaque) (P : BitValue Opaque → Prop) :
    BitValue Opaque → Prop
  | input {bit} : P bit → Wired backend P bit
  | equal {lhs rhs : BitVector Opaque} {s bit s'} :
      (∀ l ∈ lhs, Wired backend P l) → (∀ r ∈ rhs, Wired backend P r) →
      (equalBitVectors backend lhs rhs).run s = .ok (bit, s') → Wired backend P bit
  | reduced {bits : BitVector Opaque} {s bit s'} : (∀ b ∈ bits, Wired backend P b) →
      (reduceAnd backend bits).run s = .ok (bit, s') → Wired backend P bit
  | sum {lhs rhs carry_in s result s'} : Wired backend P lhs → Wired backend P rhs →
      Wired backend P carry_in → (fullAdder backend lhs rhs carry_in).run s = .ok (result, s') →
      Wired backend P result.sum
  | carry_out {lhs rhs carry_in s result s'} : Wired backend P lhs → Wired backend P rhs →
      Wired backend P carry_in → (fullAdder backend lhs rhs carry_in).run s = .ok (result, s') →
      Wired backend P result.carry_out
  | difference {lhs rhs borrow_in s result s'} : Wired backend P lhs → Wired backend P rhs →
      Wired backend P borrow_in →
      (fullSubtracter backend lhs rhs borrow_in).run s = .ok (result, s') →
      Wired backend P result.difference
  | borrow_out {lhs rhs borrow_in s result s'} : Wired backend P lhs → Wired backend P rhs →
      Wired backend P borrow_in →
      (fullSubtracter backend lhs rhs borrow_in).run s = .ok (result, s') →
      Wired backend P result.borrow_out

section Safe

variable {backend : BitBackend σ Opaque} {P : BitValue Opaque → Prop}

/-- Gates that keep `P` make circuits that keep it. -/
theorem SafeOn.of_simulates (sim : Simulates (fun bit (_ : Unit) => P bit) backend Gates.unit) :
    SafeOn backend P where
  equalBitVectors hlhs hrhs :=
    sim.equalBitVectors (related_map (f := fun _ => ()) hlhs) (related_map (f := fun _ => ()) hrhs)
  reduceAnd hbits := sim.reduceAnd (related_map (f := fun _ => ()) hbits)
  fullAdder hlhs hrhs hcarry := sim.fullAdder (a := ()) (b := ()) (c := ()) hlhs hrhs hcarry
  fullSubtracter hlhs hrhs hborrow :=
    sim.fullSubtracter (a := ()) (b := ()) (c := ()) hlhs hrhs hborrow

/-- By induction on how a bit was computed: circuits keep `P` to any depth. -/
theorem SafeOn.of_wired (safe : SafeOn backend P) {bit : BitValue Opaque}
    (hbit : Wired backend P bit) : P bit := by
  induction hbit with
  | input hbit => exact hbit
  | equal _ _ hrun hlhs hrhs => exact (safe.equalBitVectors hlhs hrhs).of_run hrun
  | reduced _ hrun hbits => exact (safe.reduceAnd hbits).of_run hrun
  | sum _ _ _ hrun ha hb hc => exact ((safe.fullAdder ha hb hc).of_run hrun).1
  | carry_out _ _ _ hrun ha hb hc => exact ((safe.fullAdder ha hb hc).of_run hrun).2
  | difference _ _ _ hrun ha hb hc => exact ((safe.fullSubtracter ha hb hc).of_run hrun).1
  | borrow_out _ _ _ hrun ha hb hc => exact ((safe.fullSubtracter ha hb hc).of_run hrun).2

/-- So circuits are safe on the outputs of circuits. -/
theorem SafeOn.wired (safe : SafeOn backend P) : SafeOn backend (Wired backend P) where
  equalBitVectors hlhs hrhs := by
    apply (safe.equalBitVectors (fun l hl => safe.of_wired (hlhs l hl))
      fun r hr => safe.of_wired (hrhs r hr)).run.mono
    intro bit ⟨s, s', hrun⟩
    exact Wired.equal hlhs hrhs hrun
  reduceAnd hbits := by
    apply (safe.reduceAnd fun b hb => safe.of_wired (hbits b hb)).run.mono
    intro bit ⟨s, s', hrun⟩
    exact Wired.reduced hbits hrun
  fullAdder ha hb hc := by
    apply (safe.fullAdder (safe.of_wired ha) (safe.of_wired hb) (safe.of_wired hc)).run.mono
    intro result ⟨s, s', hrun⟩
    exact ⟨Wired.sum ha hb hc hrun, Wired.carry_out ha hb hc hrun⟩
  fullSubtracter ha hb hc := by
    apply (safe.fullSubtracter (safe.of_wired ha) (safe.of_wired hb) (safe.of_wired hc)).run.mono
    intro result ⟨s, s', hrun⟩
    exact ⟨Wired.difference ha hb hc hrun, Wired.borrow_out ha hb hc hrun⟩

end Safe

/-- The gates of an initialized context, which are those of its
    implementation, keep the payload. -/
theorem BinFHEContext.simulates (static_pointer_cast : PlaceholderBinFHEBit → Opaque)
    (ctx : BinFHEContext) :
    Simulates (fun bit (_ : Unit) => HasPayload bit)
      ((ctx.initializeContext true).2.toBitBackend static_pointer_cast true : BitBackend σ Opaque)
      Gates.unit where
  tagged hbit := hbit.1
  constant value := Impl.constant_returns static_pointer_cast value
  xor hl hr := Impl.binary_returns static_pointer_cast "xor" hl hr
  and hl hr := Impl.binary_returns static_pointer_cast "and" hl hr
  or hl hr := Impl.binary_returns static_pointer_cast "or" hl hr
  not hl := Impl.not_returns static_pointer_cast hl

/-- The gates of the fake backend keep the tag. -/
theorem FakeBitContext.simulates :
    Simulates (fun bit (_ : Unit) => bit.isFake = true)
      (FakeBitContext.toBitBackend : BitBackend σ Opaque) Gates.unit where
  tagged hbit := hbit
  constant value := (decodes.constant value).mono fun _ h => h.1
  xor hl hr := (decodes.xor hl hr).mono fun _ h => h.1
  and hl hr := (decodes.and hl hr).mono fun _ h => h.1
  or hl hr := (decodes.or hl hr).mono fun _ h => h.1
  not hl := (decodes.not hl).mono fun _ h => h.1

/-- In a build with OpenFHE no circuit fails an assertion on bits with a
    payload, once `Initialize` was called, and its outputs have a payload
    again; nor does one on fake bits. So the outputs of circuits may be fed
    to circuits, to any depth. -/
theorem circuits_never_fail (static_pointer_cast : PlaceholderBinFHEBit → Opaque)
    (ctx : BinFHEContext) :
    let binfhe : BitBackend σ Opaque :=
      (ctx.initializeContext true).2.toBitBackend static_pointer_cast true
    let fake : BitBackend σ Opaque := FakeBitContext.toBitBackend
    (SafeOn binfhe (fun bit => bit.isBinFHE = true ∧ bit.has_opaque_payload = true) ∧
      SafeOn fake (fun bit => bit.isFake = true)) ∧
    (SafeOn binfhe (Wired binfhe BinFHEContext.HasPayload) ∧
      ∀ bit, Wired binfhe BinFHEContext.HasPayload bit → BinFHEContext.HasPayload bit) ∧
    (SafeOn fake (Wired fake fun bit => bit.isFake = true) ∧
      ∀ bit, Wired fake (fun bit => bit.isFake = true) bit → bit.isFake = true) := by
  intro binfhe fake
  have hbinfhe : SafeOn binfhe BinFHEContext.HasPayload :=
    SafeOn.of_simulates (ctx.simulates static_pointer_cast)
  have hfake : SafeOn fake fun bit => bit.isFake = true :=
    SafeOn.of_simulates FakeBitContext.simulates
  exact ⟨⟨hbinfhe, hfake⟩, ⟨hbinfhe.wired, fun _ => hbinfhe.of_wired⟩,
    ⟨hfake.wired, fun _ => hfake.of_wired⟩⟩

end Prifhete
