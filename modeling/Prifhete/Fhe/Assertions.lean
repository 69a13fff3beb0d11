import Prifhete.Fhe.Circuits

/-! # Which assertion fails

    On bits of any kind a circuit either returns or stops at an assertion.
    Which one it is can be read off the inputs: the circuits look at the tags
    of all their inputs first, then the gates at the state of the backend,
    then at the inputs in the order of use. No later gate finds fault with
    what an earlier one has returned.
-/

namespace Prifhete

open Checked

variable {σ Opaque : Type}

/-- The assertions of the gates of a backend. A gate checks the backend
    (`ready`), then its operands from left to right (`operand`); it returns
    bits of which `P` holds, with which no gate finds fault. -/
structure GatesAssert (backend : BitBackend σ Opaque) (ready : List (Bool × String))
    (operand : BitValue Opaque → List (Bool × String)) (P : BitValue Opaque → Prop) :
    Prop where
  tagged : ∀ {bit}, P bit → bit.isBackend backend.kind = true
  pass : ∀ {bit}, P bit → Pass (operand bit)
  constant : ∀ value, Guarded ready (backend.constant value) P
  xor : ∀ {l r}, l.isBackend backend.kind = true → r.isBackend backend.kind = true →
    Guarded (ready ++ (operand l ++ operand r)) (backend.xor l r) P
  and : ∀ {l r}, l.isBackend backend.kind = true → r.isBackend backend.kind = true →
    Guarded (ready ++ (operand l ++ operand r)) (backend.and l r) P
  or : ∀ {l r}, l.isBackend backend.kind = true → r.isBackend backend.kind = true →
    Guarded (ready ++ (operand l ++ operand r)) (backend.or l r) P
  not : ∀ {l}, l.isBackend backend.kind = true → Guarded (ready ++ operand l) (backend.not l) P

/-- What `AssertBitVectorBackend` checks. -/
def vectorTags (kind : BitBackendKind) (bits : BitVector Opaque) : List (Bool × String) :=
  bits.map fun bit => (bit.isBackend kind, "bit.IsBackend(backend.kind())")

/-- Every circuit stops at the first assertion in a list that depends on its
    inputs, or returns bits of which `P` holds. -/
structure CircuitsAssert (backend : BitBackend σ Opaque) (ready : List (Bool × String))
    (operand : BitValue Opaque → List (Bool × String)) (P : BitValue Opaque → Prop) :
    Prop where
  reduceAnd : ∀ bits : BitVector Opaque,
    Guarded (vectorTags backend.kind bits ++ (ready ++ bits.flatMap operand))
      (reduceAnd backend bits) P
  /-- Vectors of two lengths are told apart without a look at their bits. -/
  equalBitVectors : ∀ lhs rhs : BitVector Opaque,
    Guarded (vectorTags backend.kind lhs ++ (vectorTags backend.kind rhs ++ (ready ++
        if lhs.length = rhs.length then
          (lhs.zip rhs).flatMap fun p => operand p.1 ++ operand p.2
        else [])))
      (equalBitVectors backend lhs rhs) P
  fullAdder : ∀ lhs rhs carry_in,
    Guarded ([(lhs.isBackend backend.kind, "lhs.IsBackend(backend.kind())"),
        (rhs.isBackend backend.kind, "rhs.IsBackend(backend.kind())"),
        (carry_in.isBackend backend.kind, "carry_in.IsBackend(backend.kind())")] ++
        (ready ++ (operand lhs ++ operand rhs) ++ operand carry_in))
      (fullAdder backend lhs rhs carry_in) fun result => P result.sum ∧ P result.carry_out
  fullSubtracter : ∀ lhs rhs borrow_in,
    Guarded ([(lhs.isBackend backend.kind, "lhs.IsBackend(backend.kind())"),
        (rhs.isBackend backend.kind, "rhs.IsBackend(backend.kind())"),
        (borrow_in.isBackend backend.kind, "borrow_in.IsBackend(backend.kind())")] ++
        (ready ++ (operand lhs ++ operand rhs) ++ operand borrow_in))
      (fullSubtracter backend lhs rhs borrow_in) fun result =>
        P result.difference ∧ P result.borrow_out

/-! ### The circuits over such gates -/

namespace GatesAssert

variable {backend : BitBackend σ Opaque} {ready : List (Bool × String)}
  {operand : BitValue Opaque → List (Bool × String)} {P : BitValue Opaque → Prop}
  (gates : GatesAssert backend ready operand P)

theorem assertBitVectorBackend (backend : BitBackend σ Opaque) (bits : BitVector Opaque) :
    Guarded (vectorTags backend.kind bits) (assertBitVectorBackend backend bits)
      fun _ => True := by
  unfold vectorTags Prifhete.assertBitVectorBackend
  rw [List.map_eq_flatMap]
  exact Guarded.forM (fun bit => Guarded.assert _ _) bits

theorem pass_vectorTags {kind : BitBackendKind} {bits : BitVector Opaque} :
    Pass (vectorTags kind bits) ↔ ∀ bit ∈ bits, bit.isBackend kind = true :=
  List.forall_mem_map

/-- The assertions that the adder and the subtracter start with. -/
theorem assert_three {α : Type} {Q : α → Prop} {checks : List (Bool × String)}
    {bl br bc : Bool} {textL textR textChain : String} {rest : Unit → Checked σ α}
    (hrest : bl = true → br = true → bc = true → Guarded checks (rest ()) Q) :
    Guarded ([(bl, textL), (br, textR), (bc, textChain)] ++ checks)
      (assert bl textL >>= fun _ => assert br textR >>= fun _ => assert bc textChain >>= rest)
      Q := by
  apply (Guarded.assert bl textL).bind
  intro hl _ _
  apply (Guarded.assert br textR).bind
  intro hr _ _
  apply (Guarded.assert bc textChain).bind
  intro hchain _ _
  exact hrest (pass_cons.mp hl).1 (pass_cons.mp hr).1 (pass_cons.mp hchain).1

include gates

theorem reduceAnd (bits : BitVector Opaque) :
    Guarded (vectorTags backend.kind bits ++ (ready ++ bits.flatMap operand))
      (reduceAnd backend bits) P := by
  unfold Prifhete.reduceAnd
  apply (assertBitVectorBackend backend bits).bind
  intro htags _ _
  apply (gates.constant true).bind
  intro hready accumulated hacc
  refine Guarded.foldlM (fun acc hacc bit hbit => ?_) hacc
  -- the backend and the accumulator are in order, so only the bit matters
  have htag := pass_vectorTags.mp htags bit hbit
  exact ((gates.and (gates.tagged hacc) htag).skip hready).skip (gates.pass hacc)

/-- Bits that the circuits have returned are safe. -/
theorem reduceAnd_returns (hready : Pass ready) {bits : BitVector Opaque}
    (hbits : ∀ bit ∈ bits, P bit) : Returns (Prifhete.reduceAnd backend bits) P := by
  apply (gates.reduceAnd bits).returns
  rw [pass_append, pass_append, pass_vectorTags]
  refine ⟨fun bit hbit => gates.tagged (hbits bit hbit), hready, ?_⟩
  intro check hcheck
  obtain ⟨bit, hbit, hmem⟩ := List.mem_flatMap.mp hcheck
  exact gates.pass (hbits bit hbit) check hmem

/-- One position of two vectors. -/
theorem position {p : BitValue Opaque × BitValue Opaque}
    (hl : p.1.isBackend backend.kind = true) (hr : p.2.isBackend backend.kind = true) :
    Guarded (ready ++ (operand p.1 ++ operand p.2))
      (do backend.not (← backend.xor p.1 p.2)) P := by
  rw [← List.append_nil (ready ++ (operand p.1 ++ operand p.2))]
  apply (gates.xor hl hr).bind
  intro hpass bit hbit
  have hready : Pass ready := (pass_append.mp hpass).1
  apply Guarded.of_returns
  exact ((gates.not (gates.tagged hbit)).skip hready).returns (gates.pass hbit)

/-- The loop over the positions and the conjunction after it. -/
theorem positions {pairs : List (BitValue Opaque × BitValue Opaque)}
    (htags : ∀ p ∈ pairs,
      p.1.isBackend backend.kind = true ∧ p.2.isBackend backend.kind = true) :
    Guarded (ready ++ pairs.flatMap fun p => operand p.1 ++ operand p.2)
      (do
        let equal_bits ← pairs.mapM fun p => do backend.not (← backend.xor p.1 p.2)
        Prifhete.reduceAnd backend equal_bits) P := by
  by_cases hready : Pass ready
  · have hloop : Guarded (pairs.flatMap fun p => operand p.1 ++ operand p.2)
        (pairs.mapM fun p => do backend.not (← backend.xor p.1 p.2)) fun bits =>
          ∀ bit ∈ bits, P bit := by
      apply Guarded.mapM
      intro p hp
      exact (gates.position (htags p hp).1 (htags p hp).2).skip hready
    have hall := hloop.bind fun _ bits hbits =>
      Guarded.of_returns (gates.reduceAnd_returns hready hbits)
    rw [List.append_nil] at hall
    apply hall.congr
    rw [firstFailed_append ready, firstFailed_eq_none.mpr hready, Option.none_or]
  · cases pairs with
    | nil => exact gates.reduceAnd []
    | cons p pairs =>
      -- the first gate stops already
      obtain ⟨hl, hr⟩ := htags p List.mem_cons_self
      have hstops : ¬ Pass (ready ++ (operand p.1 ++ operand p.2)) :=
        fun hpass => hready (pass_append.mp hpass).1
      rw [List.flatMap_cons, ← List.append_assoc, List.mapM_cons, bind_assoc]
      exact (gates.position hl hr).bind_of_stops hstops

theorem equalBitVectors (lhs rhs : BitVector Opaque) :
    Guarded (vectorTags backend.kind lhs ++ (vectorTags backend.kind rhs ++ (ready ++
        if lhs.length = rhs.length then
          (lhs.zip rhs).flatMap fun p => operand p.1 ++ operand p.2
        else [])))
      (equalBitVectors backend lhs rhs) P := by
  unfold Prifhete.equalBitVectors
  apply (assertBitVectorBackend backend lhs).bind
  intro hlhs _ _
  apply (assertBitVectorBackend backend rhs).bind
  intro hrhs _ _
  rw [ite_not]
  split
  · apply gates.positions
    intro p hp
    obtain ⟨hl, hr⟩ := List.of_mem_zip hp
    exact ⟨pass_vectorTags.mp hlhs _ hl, pass_vectorTags.mp hrhs _ hr⟩
  · rw [List.append_nil]
    exact gates.constant false

theorem fullAdder (lhs rhs carry_in : BitValue Opaque) :
    Guarded ([(lhs.isBackend backend.kind, "lhs.IsBackend(backend.kind())"),
        (rhs.isBackend backend.kind, "rhs.IsBackend(backend.kind())"),
        (carry_in.isBackend backend.kind, "carry_in.IsBackend(backend.kind())")] ++
        (ready ++ (operand lhs ++ operand rhs) ++ operand carry_in))
      (fullAdder backend lhs rhs carry_in) fun result => P result.sum ∧ P result.carry_out := by
  unfold Prifhete.fullAdder
  apply assert_three
  intro hlhs hrhs hcarry
  apply (gates.xor hlhs hrhs).bind
  intro hoperands lhs_xor_rhs hxor
  obtain ⟨hready, _⟩ := pass_append.mp hoperands
  rw [← List.append_nil (operand carry_in)]
  have hsum := ((gates.xor (gates.tagged hxor) hcarry).skip hready).skip (gates.pass hxor)
  apply hsum.bind
  intro hchain sum hsum
  -- all inputs have been looked at
  have hagain : Pass (operand lhs_xor_rhs ++ operand carry_in) :=
    pass_append.mpr ⟨gates.pass hxor, hchain⟩
  apply Guarded.of_returns
  apply ((gates.and hlhs hrhs).returns hoperands).bind
  intro carry_from_inputs hinputs
  apply (((gates.and (gates.tagged hxor) hcarry).skip hready).returns hagain).bind
  intro carry_from_carry_in hcarried
  have hboth : Pass (operand carry_from_inputs ++ operand carry_from_carry_in) :=
    pass_append.mpr ⟨gates.pass hinputs, gates.pass hcarried⟩
  apply (((gates.or (gates.tagged hinputs) (gates.tagged hcarried)).skip hready).returns
    hboth).bind
  intro carry_out hout
  exact Returns.pure ⟨hsum, hout⟩

theorem fullSubtracter (lhs rhs borrow_in : BitValue Opaque) :
    Guarded ([(lhs.isBackend backend.kind, "lhs.IsBackend(backend.kind())"),
        (rhs.isBackend backend.kind, "rhs.IsBackend(backend.kind())"),
        (borrow_in.isBackend backend.kind, "borrow_in.IsBackend(backend.kind())")] ++
        (ready ++ (operand lhs ++ operand rhs) ++ operand borrow_in))
      (fullSubtracter backend lhs rhs borrow_in) fun result =>
        P result.difference ∧ P result.borrow_out := by
  unfold Prifhete.fullSubtracter
  apply assert_three
  intro hlhs hrhs hborrow
  apply (gates.xor hlhs hrhs).bind
  intro hoperands lhs_xor_rhs hxor
  obtain ⟨hready, hinputs⟩ := pass_append.mp hoperands
  obtain ⟨hleft, hright⟩ := pass_append.mp hinputs
  rw [← List.append_nil (operand borrow_in)]
  have hdifference := ((gates.xor (gates.tagged hxor) hborrow).skip hready).skip (gates.pass hxor)
  apply hdifference.bind
  intro hchain difference hdifference
  -- all inputs have been looked at
  have hagain : Pass (operand rhs ++ operand borrow_in) := pass_append.mpr ⟨hright, hchain⟩
  apply Guarded.of_returns
  apply (((gates.not hlhs).skip hready).returns hleft).bind
  intro not_lhs hnot
  apply (((gates.or hrhs hborrow).skip hready).returns hagain).bind
  intro rhs_or_borrow_in hor
  have hfirst : Pass (operand not_lhs ++ operand rhs_or_borrow_in) :=
    pass_append.mpr ⟨gates.pass hnot, gates.pass hor⟩
  apply (((gates.and (gates.tagged hnot) (gates.tagged hor)).skip hready).returns hfirst).bind
  intro borrow_from_lhs hfrom
  apply (((gates.and hrhs hborrow).skip hready).returns hagain).bind
  intro borrow_from_chain hchained
  have hboth : Pass (operand borrow_from_lhs ++ operand borrow_from_chain) :=
    pass_append.mpr ⟨gates.pass hfrom, gates.pass hchained⟩
  apply (((gates.or (gates.tagged hfrom) (gates.tagged hchained)).skip hready).returns
    hboth).bind
  intro borrow_out hout
  exact Returns.pure ⟨hdifference, hout⟩

theorem circuits : CircuitsAssert backend ready operand P where
  reduceAnd := gates.reduceAnd
  equalBitVectors := gates.equalBitVectors
  fullAdder := gates.fullAdder
  fullSubtracter := gates.fullSubtracter

end GatesAssert

/-! ### The two backends -/

theorem FakeBitContext.gatesAssert :
    GatesAssert (FakeBitContext.toBitBackend : BitBackend σ Opaque) [] (fun _ => [])
      (fun bit => bit.isFake = true) where
  tagged hbit := hbit
  pass _ := pass_nil
  constant value := simulates.constant value
  xor hl hr := simulates.xor (a := ()) (b := ()) hl hr
  and hl hr := simulates.and (a := ()) (b := ()) hl hr
  or hl hr := simulates.or (a := ()) (b := ()) hl hr
  not hl := simulates.not (a := ()) hl

namespace BinFHEContext

variable (static_pointer_cast : PlaceholderBinFHEBit → Opaque) (PRIFHETE_ENABLE_OPENFHE : Bool)

/-- What every member function checks about the context. -/
def contextChecks (ctx : BinFHEContext) : List (Bool × String) :=
  if PRIFHETE_ENABLE_OPENFHE then
    [(ctx.enabled_, "enabled_"), (ctx.impl_.isSome, "impl_ != nullptr")]
  else [(ctx.enabled_, "enabled_")]

/-- What a gate checks about an operand with the tag of the backend. -/
def payloadChecks (bit : BitValue Opaque) : List (Bool × String) :=
  if PRIFHETE_ENABLE_OPENFHE then [(bit.has_opaque_payload, "bit.has_opaque_payload()")] else []

/-- The bits that the gates return. -/
def Output (bit : BitValue Opaque) : Prop :=
  bit.isBinFHE = true ∧ bit.has_opaque_payload = PRIFHETE_ENABLE_OPENFHE

theorem dispatch_guarded (ctx : BinFHEContext) {gate : Checked σ (BitValue Opaque)}
    {checks : List (Bool × String)}
    (hgate : Guarded checks gate fun bit => Output true bit) :
    Guarded (ctx.contextChecks PRIFHETE_ENABLE_OPENFHE ++
        if PRIFHETE_ENABLE_OPENFHE then checks else [])
      (ctx.dispatch PRIFHETE_ENABLE_OPENFHE gate) (Output PRIFHETE_ENABLE_OPENFHE) := by
  unfold dispatch contextChecks
  cases PRIFHETE_ENABLE_OPENFHE with
  | true =>
    apply (Guarded.assert ctx.enabled_ "enabled_").bind
    intro _ _ _
    apply (Guarded.assert ctx.impl_.isSome "impl_ != nullptr").bind
    intro _ _ _
    exact hgate
  | false =>
    apply (Guarded.assert ctx.enabled_ "enabled_").bind
    intro _ _ _
    exact Returns.pure ⟨rfl, rfl⟩

theorem assertBinFHEBit_guarded {bit : BitValue Opaque} (htag : bit.isBinFHE = true) :
    Guarded (payloadChecks true bit) (assertBinFHEBit bit : Checked σ Unit) fun _ => True := by
  unfold assertBinFHEBit
  rw [assert_bind htag]
  exact Guarded.assert _ _

theorem output_placeholder (label : String) :
    Output true (.binFHEPlaceholder (makePlaceholderHandle static_pointer_cast label)) :=
  ⟨rfl, rfl⟩

theorem binary_guarded (label : String) {l r : BitValue Opaque} (hl : l.isBinFHE = true)
    (hr : r.isBinFHE = true) :
    Guarded (payloadChecks true l ++ payloadChecks true r)
      (Impl.binary static_pointer_cast label l r : Checked σ _) (Output true) := by
  apply (assertBinFHEBit_guarded hl).bind
  intro _ _ _
  rw [← List.append_nil (payloadChecks true r)]
  apply (assertBinFHEBit_guarded hr).bind
  intro _ _ _
  exact Returns.pure (output_placeholder static_pointer_cast label)

theorem not_guarded {l : BitValue Opaque} (hl : l.isBinFHE = true) :
    Guarded (payloadChecks true l) (Impl.not static_pointer_cast l : Checked σ _)
      (Output true) := by
  rw [← List.append_nil (payloadChecks true l)]
  apply (assertBinFHEBit_guarded hl).bind
  intro _ _ _
  exact Returns.pure (output_placeholder static_pointer_cast _)

/-- A gate with two operands, in a build with OpenFHE or without. -/
theorem dispatch_binary_guarded (ctx : BinFHEContext) (label : String) {l r : BitValue Opaque}
    (hl : l.isBinFHE = true) (hr : r.isBinFHE = true) :
    Guarded (ctx.contextChecks PRIFHETE_ENABLE_OPENFHE ++
        (payloadChecks PRIFHETE_ENABLE_OPENFHE l ++ payloadChecks PRIFHETE_ENABLE_OPENFHE r))
      (ctx.dispatch PRIFHETE_ENABLE_OPENFHE
        (Impl.binary static_pointer_cast label l r : Checked σ _))
      (Output PRIFHETE_ENABLE_OPENFHE) := by
  have hgate := dispatch_guarded PRIFHETE_ENABLE_OPENFHE ctx
    (binary_guarded (σ := σ) static_pointer_cast label hl hr)
  cases PRIFHETE_ENABLE_OPENFHE with
  | true => exact hgate
  | false => exact hgate

/-- The gates of any context, initialized or not, in either build. -/
theorem gatesAssert (ctx : BinFHEContext) :
    GatesAssert
      (ctx.toBitBackend static_pointer_cast PRIFHETE_ENABLE_OPENFHE : BitBackend σ Opaque)
      (ctx.contextChecks PRIFHETE_ENABLE_OPENFHE) (payloadChecks PRIFHETE_ENABLE_OPENFHE)
      (Output PRIFHETE_ENABLE_OPENFHE) where
  tagged hbit := hbit.1
  pass hbit := by
    cases PRIFHETE_ENABLE_OPENFHE with
    | true => exact pass_cons.mpr ⟨hbit.2, pass_nil⟩
    | false => exact pass_nil
  constant value := by
    have hgate := dispatch_guarded PRIFHETE_ENABLE_OPENFHE ctx
      (Guarded.of_returns (σ := σ) (Returns.pure (output_placeholder static_pointer_cast
        (if value then "const-1" else "const-0"))))
    cases PRIFHETE_ENABLE_OPENFHE with
    | true => exact hgate
    | false => exact hgate
  xor hl hr := dispatch_binary_guarded static_pointer_cast _ ctx "xor" hl hr
  and hl hr := dispatch_binary_guarded static_pointer_cast _ ctx "and" hl hr
  or hl hr := dispatch_binary_guarded static_pointer_cast _ ctx "or" hl hr
  not hl := by
    have hgate := dispatch_guarded PRIFHETE_ENABLE_OPENFHE ctx
      (not_guarded (σ := σ) static_pointer_cast hl)
    cases PRIFHETE_ENABLE_OPENFHE with
    | true => exact hgate
    | false => exact hgate

end BinFHEContext

/-- On bits of any tag and payload, for a context in any state and either
    build, each circuit stops at the first assertion of a list or returns
    bits that its gates accept again; so does each on the fake backend. -/
theorem circuits_stop_where (static_pointer_cast : PlaceholderBinFHEBit → Opaque)
    (PRIFHETE_ENABLE_OPENFHE : Bool) (ctx : BinFHEContext) :
    CircuitsAssert
        (ctx.toBitBackend static_pointer_cast PRIFHETE_ENABLE_OPENFHE : BitBackend σ Opaque)
        (ctx.contextChecks PRIFHETE_ENABLE_OPENFHE)
        (BinFHEContext.payloadChecks PRIFHETE_ENABLE_OPENFHE)
        (BinFHEContext.Output PRIFHETE_ENABLE_OPENFHE) ∧
      CircuitsAssert (FakeBitContext.toBitBackend : BitBackend σ Opaque) [] (fun _ => [])
        (fun bit => bit.isFake = true) :=
  ⟨(ctx.gatesAssert static_pointer_cast PRIFHETE_ENABLE_OPENFHE).circuits,
    FakeBitContext.gatesAssert.circuits⟩

end Prifhete
