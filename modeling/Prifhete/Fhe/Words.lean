import Prifhete.Fhe.Circuits
import Prifhete.Lib.Words

/-! # Adding and subtracting words

    `FullAdder` and `FullSubtracter` handle one bit. Here they are used at
    every place of two words, lowest bit first, with `carry_out` as the next
    `carry_in` and `borrow_out` as the next `borrow_in`. Over any backend
    whose gates decode to the Boolean operations the chain adds and subtracts
    the numbers behind two words of one width, and the last borrow compares
    them. The chains are the reader's use of the circuits: the source stops
    at one bit.
-/

namespace Prifhete

open Checked Gates

variable {σ Opaque : Type}

/-- A circuit at every place, its second output passed to the next place. -/
def chained (circuit : BitValue Opaque → BitValue Opaque → BitValue Opaque →
      Checked σ (BitValue Opaque × BitValue Opaque)) :
    List (BitValue Opaque × BitValue Opaque) → BitValue Opaque →
      Checked σ (BitVector Opaque × BitValue Opaque)
  | [], chain => return ([], chain)
  | (l, r) :: places, chain => do
    let out ← circuit l r chain
    let rest ← chained circuit places out.2
    return (out.1 :: rest.1, rest.2)

/-- `FullAdder` along two words. -/
def addWords (backend : BitBackend σ Opaque) (lhs rhs : BitVector Opaque)
    (carry_in : BitValue Opaque) : Checked σ (BitVector Opaque × BitValue Opaque) :=
  chained (fun l r chain => do
    let result ← fullAdder backend l r chain
    return (result.sum, result.carry_out)) (lhs.zip rhs) carry_in

/-- `FullSubtracter` along two words. -/
def subtractWords (backend : BitBackend σ Opaque) (lhs rhs : BitVector Opaque)
    (borrow_in : BitValue Opaque) : Checked σ (BitVector Opaque × BitValue Opaque) :=
  chained (fun l r chain => do
    let result ← fullSubtracter backend l r chain
    return (result.difference, result.borrow_out)) (lhs.zip rhs) borrow_in

/-! ### Chains over a set of gates -/

section Chains

variable {β : Type} {R : BitValue Opaque → β → Prop}

/-- By induction on the places: one circuit respects the relation, so the
    chain does. -/
theorem chained_returns {lower upper : β → β → β → β}
    {circuit : BitValue Opaque → BitValue Opaque → BitValue Opaque →
      Checked σ (BitValue Opaque × BitValue Opaque)}
    (hcircuit : ∀ {l r chain a b c}, R l a → R r b → R chain c →
      Returns (circuit l r chain) fun out => R out.1 (lower a b c) ∧ R out.2 (upper a b c))
    {places : List (BitValue Opaque × BitValue Opaque)} {wires : List (β × β)}
    (hplaces : List.Forall₂ (fun p q => R p.1 q.1 ∧ R p.2 q.2) places wires)
    {chain : BitValue Opaque} {c : β} (hchain : R chain c) :
    Returns (chained circuit places chain) fun out =>
      List.Forall₂ R out.1 (ripple lower upper wires c).1 ∧
        R out.2 (ripple lower upper wires c).2 := by
  induction hplaces generalizing chain c with
  | nil => exact Returns.pure ⟨List.Forall₂.nil, hchain⟩
  | cons hplace _ ih =>
    apply (hcircuit hplace.1 hplace.2 hchain).bind
    intro out ⟨hlower, hupper⟩
    apply (ih hupper).bind
    intro rest ⟨hword, hlast⟩
    exact Returns.pure ⟨List.Forall₂.cons hlower hword, hlast⟩

variable {backend : BitBackend σ Opaque} {g : Gates β} (sim : Simulates R backend g)
  {lhs rhs : BitVector Opaque} {as bs : List β} (hlhs : List.Forall₂ R lhs as)
  (hrhs : List.Forall₂ R rhs bs) {chain : BitValue Opaque} {c : β} (hchain : R chain c)

include sim hlhs hrhs hchain

theorem Simulates.addWords :
    Returns (addWords backend lhs rhs chain) fun out =>
      List.Forall₂ R out.1 (g.sum (as.zip bs) c).1 ∧ R out.2 (g.sum (as.zip bs) c).2 := by
  refine chained_returns ?_ (forall₂_zip hlhs hrhs) hchain
  intro l r chain a b c hl hr hc
  apply (sim.fullAdder hl hr hc).bind
  intro result hresult
  exact Returns.pure hresult

theorem Simulates.subtractWords :
    Returns (subtractWords backend lhs rhs chain) fun out =>
      List.Forall₂ R out.1 (g.difference (as.zip bs) c).1 ∧
        R out.2 (g.difference (as.zip bs) c).2 := by
  refine chained_returns ?_ (forall₂_zip hlhs hrhs) hchain
  intro l r chain a b c hl hr hc
  apply (sim.fullSubtracter hl hr hc).bind
  intro result hresult
  exact Returns.pure hresult

end Chains

/-! ### Chains behind a decoding -/

section Decoded

variable {backend : BitBackend σ Opaque} {IsBit : BitValue Opaque → Prop}
  {D : BitValue Opaque → Bool}

/-- A vector and the word it decodes to. -/
theorem forall₂_decoded {bits : BitVector Opaque} {word : List Bool} :
    List.Forall₂ (fun bit b => IsBit bit ∧ D bit = b) bits word ↔
      (∀ bit ∈ bits, IsBit bit) ∧ bits.map D = word := by
  rw [List.forall₂_and_left, ← List.forall₂_map_left_iff, List.forall₂_eq_eq_eq]

variable (h : Decodes backend IsBit D) {lhs rhs : BitVector Opaque}
  (hlhs : ∀ bit ∈ lhs, IsBit bit) (hrhs : ∀ bit ∈ rhs, IsBit bit)
  {chain : BitValue Opaque} (hchain : IsBit chain)

include h hlhs hrhs hchain

theorem Decodes.addWords_bits :
    Returns (addWords backend lhs rhs chain) fun out =>
      (∀ bit ∈ out.1, IsBit bit) ∧ IsBit out.2 ∧
        (out.1.map D, D out.2) = bool.sum ((lhs.map D).zip (rhs.map D)) (D chain) := by
  apply (h.simulates.addWords (forall₂_decoded.mpr ⟨hlhs, rfl⟩)
    (forall₂_decoded.mpr ⟨hrhs, rfl⟩) ⟨hchain, rfl⟩).mono
  intro out ⟨hword, hlast⟩
  obtain ⟨hbits, hdecoded⟩ := forall₂_decoded.mp hword
  exact ⟨hbits, hlast.1, Prod.ext hdecoded hlast.2⟩

theorem Decodes.subtractWords_bits :
    Returns (subtractWords backend lhs rhs chain) fun out =>
      (∀ bit ∈ out.1, IsBit bit) ∧ IsBit out.2 ∧
        (out.1.map D, D out.2) = bool.difference ((lhs.map D).zip (rhs.map D)) (D chain) := by
  apply (h.simulates.subtractWords (forall₂_decoded.mpr ⟨hlhs, rfl⟩)
    (forall₂_decoded.mpr ⟨hrhs, rfl⟩) ⟨hchain, rfl⟩).mono
  intro out ⟨hword, hlast⟩
  obtain ⟨hbits, hdecoded⟩ := forall₂_decoded.mp hword
  exact ⟨hbits, hlast.1, Prod.ext hdecoded hlast.2⟩

variable (hlen : lhs.length = rhs.length)

include hlen

/-- The chain in numbers. -/
theorem Decodes.addWords_value :
    Returns (addWords backend lhs rhs chain) fun out =>
      ((∀ bit ∈ out.1, IsBit bit) ∧ out.1.length = lhs.length) ∧
        value (out.1.map D) + 2 ^ lhs.length * (D out.2).toNat =
          value (lhs.map D) + value (rhs.map D) + (D chain).toNat := by
  have hwidth : (lhs.map D).length = (rhs.map D).length := by
    rw [List.length_map, List.length_map, hlen]
  apply (h.addWords_bits hlhs hrhs hchain).mono
  intro out ⟨hbits, _, hout⟩
  have hword : out.1.map D = _ := congrArg Prod.fst hout
  have hlast : D out.2 = _ := congrArg Prod.snd hout
  have hsum := bool_sum_value ((lhs.map D).zip (rhs.map D)) (D chain)
  have hlength := bool.length_sum ((lhs.map D).zip (rhs.map D)) (D chain)
  rw [← hword] at hlength
  rw [← hword, ← hlast, List.map_fst_zip hwidth.le, List.map_snd_zip hwidth.ge] at hsum
  rw [List.length_zip, ← hwidth, Nat.min_self, List.length_map] at hsum hlength
  rw [List.length_map] at hlength
  exact ⟨⟨hbits, hlength⟩, hsum⟩

theorem Decodes.subtractWords_value :
    Returns (subtractWords backend lhs rhs chain) fun out =>
      ((∀ bit ∈ out.1, IsBit bit) ∧ out.1.length = lhs.length) ∧
        value (out.1.map D) + value (rhs.map D) + (D chain).toNat =
            value (lhs.map D) + 2 ^ lhs.length * (D out.2).toNat ∧
          (D out.2 = true ↔ value (lhs.map D) < value (rhs.map D) + (D chain).toNat) := by
  have hwidth : (lhs.map D).length = (rhs.map D).length := by
    rw [List.length_map, List.length_map, hlen]
  apply (h.subtractWords_bits hlhs hrhs hchain).mono
  intro out ⟨hbits, _, hout⟩
  have hword : out.1.map D = _ := congrArg Prod.fst hout
  have hlast : D out.2 = _ := congrArg Prod.snd hout
  have hdifference := bool_difference_value ((lhs.map D).zip (rhs.map D)) (D chain)
  have hborrow := bool_borrow_iff ((lhs.map D).zip (rhs.map D)) (D chain)
  have hlength := bool.length_difference ((lhs.map D).zip (rhs.map D)) (D chain)
  rw [← hword] at hlength
  rw [← hword, ← hlast, List.map_fst_zip hwidth.le, List.map_snd_zip hwidth.ge] at hdifference
  rw [← hlast, List.map_fst_zip hwidth.le, List.map_snd_zip hwidth.ge] at hborrow
  rw [List.length_zip, ← hwidth, Nat.min_self, List.length_map] at hdifference hlength
  rw [List.length_map] at hlength
  exact ⟨⟨hbits, hlength⟩, hdifference, hborrow⟩

end Decoded

/-- Two words of one width, whatever it is, over any backend and decoding:
    the chain of `FullAdder`s adds, the chain of `FullSubtracter`s subtracts
    and its last borrow compares; adding back what was taken away restores
    the word, the carry paying the borrow; and if no borrow comes in, the
    difference is zero exactly where `EqualBitVectors` finds none. -/
theorem words_correct {backend : BitBackend σ Opaque} {IsBit : BitValue Opaque → Prop}
    {D : BitValue Opaque → Bool} (h : Decodes backend IsBit D) {lhs rhs : BitVector Opaque}
    (hlen : lhs.length = rhs.length) (hlhs : ∀ bit ∈ lhs, IsBit bit)
    (hrhs : ∀ bit ∈ rhs, IsBit bit) {chain : BitValue Opaque} (hchain : IsBit chain) :
    (Returns (addWords backend lhs rhs chain) fun out =>
      value (out.1.map D) + 2 ^ lhs.length * (D out.2).toNat =
        value (lhs.map D) + value (rhs.map D) + (D chain).toNat) ∧
    (Returns (subtractWords backend lhs rhs chain) fun out =>
      value (out.1.map D) + value (rhs.map D) + (D chain).toNat =
          value (lhs.map D) + 2 ^ lhs.length * (D out.2).toNat ∧
        (D out.2 = true ↔ value (lhs.map D) < value (rhs.map D) + (D chain).toNat)) ∧
    (Returns (do
        let out ← subtractWords backend lhs rhs chain
        let back ← addWords backend out.1 rhs chain
        return (out, back)) fun r => r.2.1.map D = lhs.map D ∧ D r.2.2 = D r.1.2) ∧
    (Returns (do
        let same ← equalBitVectors backend lhs rhs
        let out ← subtractWords backend lhs rhs chain
        return (same, out)) fun r =>
      D chain = false → (D r.1 = true ↔ ∀ bit ∈ r.2.1, D bit = false)) := by
  have hwidth : (lhs.map D).length = (rhs.map D).length := by
    rw [List.length_map, List.length_map, hlen]
  have hsubtract := h.subtractWords_bits hlhs hrhs hchain
  refine ⟨?_, ?_, ?_, ?_⟩
  · exact (h.addWords_value hlhs hrhs hchain hlen).mono fun _ hout => hout.2
  · exact (h.subtractWords_value hlhs hrhs hchain hlen).mono fun _ hout => hout.2
  · apply hsubtract.bind
    intro out ⟨hbits, _, hout⟩
    apply (h.addWords_bits hbits hrhs hchain).bind
    intro back ⟨_, _, hback⟩
    have hrestored := bool_sum_difference (D chain) hwidth
    rw [← hout, ← hback] at hrestored
    obtain ⟨hword, hcarry⟩ := Prod.mk.inj hrestored
    exact Returns.pure ⟨hword, hcarry⟩
  · apply (h.simulates.equalBitVectors (forall₂_decoded.mpr ⟨hlhs, rfl⟩)
      (forall₂_decoded.mpr ⟨hrhs, rfl⟩)).bind
    intro same ⟨_, hsame⟩
    apply hsubtract.bind
    intro out ⟨_, _, hout⟩
    refine Returns.pure fun hzero => ?_
    have hnothing := bool_difference_eq_zero_iff hwidth
    rw [hzero] at hout
    rw [← hout, List.forall_mem_map] at hnothing
    rw [hsame, bool_equal, hnothing]

/-- `1 + 3` and `1 - 3` on fake words of two bits. -/
theorem words_correct_fake :
    let backend : BitBackend Unit Empty := FakeBitContext.toBitBackend
    let one : BitVector Empty := [.fake true, .fake false]
    let three : BitVector Empty := [.fake true, .fake true]
    (Returns (addWords backend one three (.fake false)) fun out =>
      value (out.1.map (·.fake_value_)) + 4 * out.2.fake_value_.toNat = 4) ∧
    Returns (subtractWords backend one three (.fake false)) fun out =>
      value (out.1.map (·.fake_value_)) + 3 + 0 = 1 + 4 * out.2.fake_value_.toNat ∧
        (out.2.fake_value_ = true ↔ 1 < 3 + 0) := by
  intro backend one three
  have hlen : one.length = three.length := rfl
  have hone : ∀ bit ∈ one, bit.isFake = true := by decide
  have hthree : ∀ bit ∈ three, bit.isFake = true := by decide
  have hzero : (BitValue.fake false : BitValue Empty).isFake = true := rfl
  obtain ⟨hadd, hsubtract, _⟩ :=
    words_correct (FakeBitContext.decodes : Decodes backend _ _) hlen hone hthree hzero
  exact ⟨hadd, hsubtract⟩

end Prifhete
