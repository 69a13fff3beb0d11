import Prifhete.Fhe.Words
import Prifhete.State.Batches

/-! # The plaintext model as an oracle for the circuits

    The plaintext model computes on balances of 64 bits, the circuits on
    single bits. Words of 64 bits that decode to the balances and to the
    value of a transfer lead, through `FullSubtracter` and `FullAdder`, to
    the decision and to the balances that the plaintext model arrives at.
-/

namespace Prifhete

open Checked Gates PlaintextModel

variable {σ Opaque : Type} {backend : BitBackend σ Opaque} {IsBit : BitValue Opaque → Prop}
  {D : BitValue Opaque → Bool}

/-- A word of 64 bits that decodes to the number. -/
structure Encodes (IsBit : BitValue Opaque → Prop) (D : BitValue Opaque → Bool)
    (word : BitVector Opaque) (x : UInt64) : Prop where
  bits : ∀ bit ∈ word, IsBit bit
  width : word.length = 64
  decoded : value (word.map D) = x.toNat

section Arithmetic

variable (h : Decodes backend IsBit D) {lhs rhs : BitVector Opaque} {x y : UInt64}
  (hlhs : Encodes IsBit D lhs x) (hrhs : Encodes IsBit D rhs y) {zero : BitValue Opaque}
  (hbit : IsBit zero) (hzero : D zero = false)

include h hlhs hrhs hbit hzero

/-- Adding words wraps around as `+=` on balances does. -/
theorem Encodes.add :
    Returns (addWords backend lhs rhs zero) fun out => Encodes IsBit D out.1 (x + y) := by
  apply (h.addWords_value hlhs.bits hrhs.bits hbit (hlhs.width.trans hrhs.width.symm)).mono
  intro out ⟨⟨hbits, hlength⟩, hvalue⟩
  rw [hlhs.width] at hlength hvalue
  rw [hlhs.decoded, hrhs.decoded, hzero, Bool.toNat_false, Nat.add_zero] at hvalue
  have hlt := value_lt (out.1.map D)
  rw [List.length_map, hlength] at hlt
  refine ⟨hbits, hlength, ?_⟩
  rw [UInt64.toNat_add, ← hvalue, Nat.add_mul_mod_self_left, Nat.mod_eq_of_lt hlt]

/-- Subtracting words wraps around as `-=` does, and the borrow compares. -/
theorem Encodes.sub :
    Returns (subtractWords backend lhs rhs zero) fun out =>
      Encodes IsBit D out.1 (x - y) ∧ (D out.2 = true ↔ x < y) := by
  apply (h.subtractWords_value hlhs.bits hrhs.bits hbit (hlhs.width.trans hrhs.width.symm)).mono
  intro out ⟨⟨hbits, hlength⟩, hvalue, hborrow⟩
  rw [hlhs.width] at hlength hvalue
  rw [hlhs.decoded, hrhs.decoded, hzero, Bool.toNat_false, Nat.add_zero] at hvalue hborrow
  have hlt := value_lt (out.1.map D)
  rw [List.length_map, hlength] at hlt
  refine ⟨⟨hbits, hlength, ?_⟩, hborrow.trans UInt64.lt_iff_toNat_lt.symm⟩
  have hx := x.toNat_lt
  have hy := y.toNat_lt
  rw [UInt64.toNat_sub]
  cases hlast : D out.2 with
  | true =>
    rw [hlast, Bool.toNat_true] at hvalue
    omega
  | false =>
    rw [hlast, Bool.toNat_false] at hvalue
    omega

end Arithmetic

/-- The circuits composed as `Transfer` moves its value: debit the sender's
    word, credit the receiver's, which is the debited one if they are the
    same. The source has the circuits and not yet this composition. -/
def settleWords (backend : BitBackend σ Opaque) (same : Bool)
    (sender receiver amount : BitVector Opaque) :
    Checked σ
      ((BitVector Opaque × BitValue Opaque) × (BitVector Opaque × BitValue Opaque)) := do
  let zero ← backend.constant false
  let debit ← subtractWords backend sender amount zero
  let credit ← addWords backend (if same then debit.1 else receiver) amount zero
  return (debit, credit)

/-- All checks of a transfer but the one of the balance. -/
structure OnlyBalanceOpen (m : PlaintextModel) (t : PrivateTransfer) : Prop where
  id : t.transaction_id ≠ []
  sender : m.isValidAccountIndex t.sender_index = true
  receiver : m.isValidAccountIndex t.receiver_index = true
  root : m.isValidRoot t.referenced_root = true
  fresh : m.hasSeenPrfOutputInCurrentEpoch t.prf_output = false

theorem OnlyBalanceOpen.ok_iff {m : PlaintextModel} {t : PrivateTransfer}
    (h : OnlyBalanceOpen m t) :
    (m.transfer t).1.status.ok = true ↔ ¬ m.balanceRef t.sender_index < t.value := by
  rw [UInt64.not_lt]
  have haccepted : (m.transfer t).1.status.ok = true ↔ _ := accepted_iff (t := .transfer t)
  rw [haccepted]
  constructor
  · intro hchecks
    exact hchecks.2.2.2.2
  · intro hcovered
    refine ⟨h.id, ?_, h.root, h.fresh, hcovered⟩
    intro i hi
    rcases List.mem_pair.mp hi with hs | hr
    · rw [hs]
      exact h.sender
    · rw [hr]
      exact h.receiver

/-- The balances that an accepted transfer reports. -/
theorem reported_balances {m : PlaintextModel} {l : AbstractLedger} (h : Represents m l)
    {t : PrivateTransfer} (hok : (m.transfer t).1.status.ok = true) :
    let debited := m.balanceRef t.sender_index - t.value
    let credited := (if t.sender_index = t.receiver_index then debited
      else m.balanceRef t.receiver_index) + t.value
    (m.transfer t).1.receiver_balance = credited ∧
      (m.transfer t).1.sender_balance =
        if t.sender_index = t.receiver_index then credited else debited := by
  intro debited credited
  obtain ⟨l', h', hafter⟩ := h.after (t := .transfer t) hok
  have hbalances := balanceRef_after h h' hafter
  have hresult := transfer_of_admissible (transfer_ok_iff.mp hok)
  have hstate : (m.exec (Transaction.transfer t).call).2 = (m.transfer t).2 := rfl
  rw [hstate, hresult] at hbalances
  rw [hresult]
  simp only [hbalances, Transaction.settle]
  by_cases hsame : t.sender_index = t.receiver_index
  · rw [← hsame]
    simp [debited, credited, hsame]
  · have hother : t.receiver_index ≠ t.sender_index := Ne.symm hsame
    simp [debited, credited, hsame, hother]

/-- After any run, for a transfer that passes the other checks: over any
    backend and decoding the borrow of the debit says whether the plaintext
    model rejects it as an overspend, and if not, the words that the circuits
    return decode to the balances it reports. -/
theorem circuits_agree_with_oracle (h : Decodes backend IsBit D) (calls : List Call)
    {t : PrivateTransfer} (hopen : OnlyBalanceOpen (machine.final calls) t)
    {sender receiver amount : BitVector Opaque}
    (hsender : Encodes IsBit D sender ((machine.final calls).balanceRef t.sender_index))
    (hreceiver : Encodes IsBit D receiver ((machine.final calls).balanceRef t.receiver_index))
    (hamount : Encodes IsBit D amount t.value) :
    let result := ((machine.final calls).transfer t).1
    let same := decide (t.sender_index = t.receiver_index)
    Returns (settleWords backend same sender receiver amount) fun out =>
      (D out.1.2 = true ↔ result.status.ok = false) ∧
      (result.status.ok = true →
        Encodes IsBit D (if same then out.2.1 else out.1.1) result.sender_balance ∧
          Encodes IsBit D out.2.1 result.receiver_balance) := by
  intro result same
  apply (h.constant false).bind
  intro zero ⟨hbit, hzero⟩
  apply (hsender.sub h hamount hbit hzero).bind
  intro debit ⟨hdebit, hborrow⟩
  have hcredited : Encodes IsBit D (if same then debit.1 else receiver)
      (if t.sender_index = t.receiver_index then
        (machine.final calls).balanceRef t.sender_index - t.value
      else (machine.final calls).balanceRef t.receiver_index) := by
    by_cases hsame : t.sender_index = t.receiver_index
    · simpa [same, hsame] using hdebit
    · simpa [same, hsame] using hreceiver
  apply (hcredited.add h hamount hbit hzero).bind
  intro credit hcredit
  refine Returns.pure ⟨?_, ?_⟩
  · rw [hborrow, ← Bool.not_eq_true, hopen.ok_iff, not_not]
  · intro hok
    obtain ⟨hr, hs⟩ := reported_balances (run_represents calls) hok
    rw [show result.receiver_balance = _ from hr, show result.sender_balance = _ from hs]
    refine ⟨?_, hcredit⟩
    by_cases hsame : t.sender_index = t.receiver_index
    · simpa [same, hsame] using hcredit
    · simpa [same, hsame] using hdebit

/-- The fake bits of a number, lowest first. -/
def fakeWord (x : UInt64) : BitVector Opaque :=
  (List.range 64).map fun i => .fake (x.toNat.testBit i)

theorem fakeWord_encodes (x : UInt64) :
    Encodes (fun bit => bit.isFake = true) (·.fake_value_) (fakeWord x : BitVector Opaque) x where
  bits := List.forall_mem_map.mpr fun _ _ => rfl
  width := by rw [fakeWord, List.length_map, List.length_range]
  decoded := by
    have hlt := x.toNat_lt
    rw [fakeWord, List.map_map]
    show value ((List.range 64).map x.toNat.testBit) = x.toNat
    rw [value_testBit, Nat.mod_eq_of_lt hlt]

/-- A payment out of a mint, and one to oneself, on fake bits. -/
theorem circuits_agree_with_oracle_payments :
    let calls : List Call :=
      [.register { account_id := StdString.ofAscii "alice", public_key := {} },
        .register { account_id := StdString.ofAscii "bob", public_key := {} },
        .mint { transaction_id := StdString.ofAscii "mint-1", recipient_index := { value := 0 },
                value := 5, prf_output := { bytes := [1] },
                referenced_root := rootFor 0 { value := 3 } }]
    let paymentTo (receiver : UInt64) : PrivateTransfer :=
      { transaction_id := StdString.ofAscii "transfer-1", sender_index := { value := 0 },
        receiver_index := { value := receiver }, value := 3, prf_output := { bytes := [2] },
        referenced_root := rootFor 0 { value := 4 } }
    let toBob := ((machine.final calls).transfer (paymentTo 1)).1
    let toAlice := ((machine.final calls).transfer (paymentTo 0)).1
    let backend : BitBackend Unit Empty := FakeBitContext.toBitBackend
    let number (word : BitVector Empty) : Nat := value (word.map (·.fake_value_))
    (Returns (settleWords backend false (fakeWord 5) (fakeWord 0) (fakeWord 3)) fun out =>
      (out.1.2.fake_value_ = true ↔ toBob.status.ok = false) ∧
        number out.1.1 = toBob.sender_balance.toNat ∧
        number out.2.1 = toBob.receiver_balance.toNat) ∧
    Returns (settleWords backend true (fakeWord 5) (fakeWord 5) (fakeWord 3)) fun out =>
      (out.1.2.fake_value_ = true ↔ toAlice.status.ok = false) ∧
        number out.2.1 = toAlice.sender_balance.toNat ∧
        number out.2.1 = toAlice.receiver_balance.toNat := by
  intro calls paymentTo toBob toAlice backend number
  have hbob : OnlyBalanceOpen (machine.final calls) (paymentTo 1) :=
    ⟨by decide, by decide +kernel, by decide +kernel, by decide +kernel, by decide +kernel⟩
  have halice : OnlyBalanceOpen (machine.final calls) (paymentTo 0) :=
    ⟨by decide, by decide +kernel, by decide +kernel, by decide +kernel, by decide +kernel⟩
  have hfive : (machine.final calls).balanceRef { value := 0 } = 5 := by decide +kernel
  have hzero : (machine.final calls).balanceRef { value := 1 } = 0 := by decide +kernel
  have hsender : Encodes (fun bit => bit.isFake = true) (·.fake_value_)
      (fakeWord 5 : BitVector Empty) ((machine.final calls).balanceRef { value := 0 }) := by
    rw [hfive]
    exact fakeWord_encodes 5
  have hreceiver : Encodes (fun bit => bit.isFake = true) (·.fake_value_)
      (fakeWord 0 : BitVector Empty) ((machine.final calls).balanceRef { value := 1 }) := by
    rw [hzero]
    exact fakeWord_encodes 0
  have hpaid : toBob.status.ok = true := by decide +kernel
  have hkept : toAlice.status.ok = true := by decide +kernel
  constructor
  · apply (circuits_agree_with_oracle (FakeBitContext.decodes : Decodes backend _ _) calls hbob
      hsender hreceiver (fakeWord_encodes 3)).mono
    intro out ⟨hborrow, hbalances⟩
    obtain ⟨hdebited, hcredited⟩ := hbalances hpaid
    exact ⟨hborrow, hdebited.decoded, hcredited.decoded⟩
  · apply (circuits_agree_with_oracle (FakeBitContext.decodes : Decodes backend _ _) calls halice
      hsender hsender (fakeWord_encodes 3)).mono
    intro out ⟨hborrow, hbalances⟩
    obtain ⟨hdebited, hcredited⟩ := hbalances hkept
    exact ⟨hborrow, hdebited.decoded, hcredited.decoded⟩

end Prifhete
