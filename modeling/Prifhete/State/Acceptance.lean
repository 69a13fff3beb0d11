import Prifhete.State.Accounts
import Prifhete.State.PrfOutputs
import Prifhete.State.Roots

/-! # Acceptance against the history

    Whether a transaction is accepted is decided from the size of the
    account vector, the root map and the set of seen PRF outputs. With the
    invariants of these three, the decision is read off the history of the
    run: the ids it has stored, the points it has passed through and the
    transactions it has accepted since the epoch last changed.
-/

namespace Prifhete

open Sequences

namespace PlaintextModel

/-- An index is valid when it is below the number of stored ids. -/
theorem isValidAccountIndex_iff_history (calls : List Call) (i : AccountIndex) :
    (machine.final calls).isValidAccountIndex i = true ↔
      i.value.toNat < (storedIds (machine.events calls)).toFinset.card := by
  have hlength : (machine.final calls).account_states_.toList.length =
      (machine.final calls).ids.length := by rw [ids, List.length_map]
  rw [isValidAccountIndex_iff, hlength, ids_eq_firstOccurrences, length_firstOccurrences]

/-- A reference is known when it has been the current root. -/
theorem lookup_eq_some_iff_history (calls : List Call) (root : RootReference) :
    (machine.final calls).valid_roots_.lookup root.key = some { reference := root } ↔
      ∃ p ∈ machine.points calls, p.current_root_ = root := by
  rw [(rootHistory calls).known, issuedRoots, mem_successive, List.mem_map]
  constructor
  · intro h
    exact h.1
  · intro h
    exact ⟨h, rfl⟩

/-- A root is accepted when it has been the current one, in the current
    epoch or the one before it. -/
def RootAcceptable (points : List PlaintextModel) (epoch : EpochNumber)
    (root : RootReference) : Prop :=
  (∃ p ∈ points, p.current_root_ = root) ∧
    root.epoch.toNat ≤ epoch.toNat ∧ epoch.toNat - root.epoch.toNat ≤ 1

theorem validateReferencedRoot_iff_history (calls : List Call) (root : RootReference) :
    ((machine.final calls).validateReferencedRoot root).ok = true ↔
      RootAcceptable (machine.points calls) (machine.final calls).current_epoch_ root := by
  rw [validateReferencedRoot_ok, lookup_eq_some_iff_history, isRootAcceptableForCurrentEpoch_iff]
  rfl

/-- The status of a mint says whether it has passed the checks. -/
theorem mint_ok_iff {m : PlaintextModel} {t : PublicToPrivateMint} :
    (m.mint t).1.status.ok = true ↔ m.mintAdmissible t = true := by
  cases hadm : m.mintAdmissible t with
  | true => simp [mint_of_admissible hadm]
  | false =>
    obtain ⟨result, hresult, hok, _⟩ := mint_refused hadm
    simp [hresult, hok]

theorem transfer_ok_iff {m : PlaintextModel} {t : PrivateTransfer} :
    (m.transfer t).1.status.ok = true ↔ m.transferAdmissible t = true := by
  cases hadm : m.transferAdmissible t with
  | true => simp [transfer_of_admissible hadm]
  | false =>
    obtain ⟨result, hresult, hok, _⟩ := transfer_refused hadm
    simp [hresult, hok]

/-- **Acceptance is decided by the history.** At the end of every run a
    transfer is accepted exactly when it has a transaction id, its indices
    are below the number of ids stored so far, its root has been the current
    one and is not outside the window, its PRF bytes are new since the epoch
    last changed, and the sender can pay; a mint likewise, but for the payment. -/
theorem acceptance_iff_history (calls : List Call) :
    let h := machine.events calls
    let m := machine.final calls
    (∀ t : PrivateTransfer, (m.transfer t).1.status.ok = true ↔
      t.transaction_id ≠ [] ∧
      (t.sender_index.value.toNat < (storedIds h).toFinset.card ∧
        t.receiver_index.value.toNat < (storedIds h).toFinset.card) ∧
      RootAcceptable (machine.points calls) m.current_epoch_ t.referenced_root ∧
      (∀ used ∈ usedPrfs (sinceEpochChange h), used.bytes ≠ t.prf_output.bytes) ∧
      (∃ balance, m.inspectBalance t.sender_index = some balance ∧ t.value ≤ balance)) ∧
    (∀ t : PublicToPrivateMint, (m.mint t).1.status.ok = true ↔
      t.transaction_id ≠ [] ∧
      t.recipient_index.value.toNat < (storedIds h).toFinset.card ∧
      RootAcceptable (machine.points calls) m.current_epoch_ t.referenced_root ∧
      (∀ used ∈ usedPrfs (sinceEpochChange h), used.bytes ≠ t.prf_output.bytes)) := by
  intro h m
  constructor
  · intro t
    rw [transfer_ok_iff, transferAdmissible_iff, isValidAccountIndex_iff_history,
      isValidAccountIndex_iff_history, validateReferencedRoot_iff_history, fresh_iff]
    constructor
    · intro ⟨hid, hsender, hreceiver, hroot, hprf, hfunds⟩
      have hvalid := (isValidAccountIndex_iff_history calls t.sender_index).mpr hsender
      exact ⟨hid, ⟨hsender, hreceiver⟩, hroot, hprf, _, inspectBalance_of_valid hvalid,
        hfunds⟩
    · intro ⟨hid, ⟨hsender, hreceiver⟩, hroot, hprf, balance, hbalance, hfunds⟩
      have hvalid := (isValidAccountIndex_iff_history calls t.sender_index).mpr hsender
      rw [inspectBalance_of_valid hvalid, Option.some.injEq] at hbalance
      exact ⟨hid, hsender, hreceiver, hroot, hprf, hbalance ▸ hfunds⟩
  · intro t
    rw [mint_ok_iff, mintAdmissible_iff, isValidAccountIndex_iff_history,
      validateReferencedRoot_iff_history, fresh_iff]

end PlaintextModel

end Prifhete
