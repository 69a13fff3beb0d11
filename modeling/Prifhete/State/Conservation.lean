import Prifhete.State.Balances

/-! # Conservation of value

    The law of the book read on the model: no balance exceeds what the
    account has received less what it has paid, and nothing but an accepted
    transaction touches a balance. The additions are not guarded, so value
    is conserved exactly in the runs in which every credit fits.
-/

namespace Prifhete

open Bookkeeping Sequences

namespace PlaintextModel

/-! ### The balances the queries show -/

theorem totalBalance_eq_sum (m : PlaintextModel) :
    m.totalBalance = ∑ i ∈ Finset.range m.account_states_.toList.length, m.balanceAt i :=
  (sum_valueAt _ _).symm

theorem exists_balance {m : PlaintextModel} {i : AccountIndex} (h : i.value < m.account_count) :
    ∃ balance, m.inspectBalance i = some balance := by
  refine ⟨_, inspectBalance_of_valid ?_⟩
  rw [isValidAccountIndex_iff, ← StdVector.toNat_size]
  exact UInt64.lt_iff_toNat_lt.mp h

/-- Where nothing changes by position, nothing changes for the queries. -/
theorem inspectBalance_of_balanceAt {m m' : PlaintextModel}
    (hgrow : m.account_states_.toList.length ≤ m'.account_states_.toList.length)
    (hsame : m'.balanceAt = m.balanceAt) {i : AccountIndex} {balance : UInt64}
    (h : m.inspectBalance i = some balance) : m'.inspectBalance i = some balance := by
  have hlt : i.value.toNat < m.account_states_.toList.length := by
    rw [inspectBalance_eq, Option.map_eq_some_iff] at h
    obtain ⟨state, hstate, _⟩ := h
    exact (List.getElem?_eq_some_iff.mp hstate).1
  have hvalid : m'.isValidAccountIndex i = true := by
    rw [isValidAccountIndex_iff]
    omega
  rw [inspectBalance_of_valid hvalid, Option.some.injEq]
  apply UInt64.toNat.inj
  rw [toNat_balanceRef hvalid, hsame, toNat_inspectBalance h]

/-- Rejected calls and calls of other operations leave the balances alone. -/
theorem inspectBalance_unchanged {m m' : PlaintextModel} {call : Call} {reply : Reply}
    {trail : List PlaintextModel} (hstep : Transition m call reply trail m')
    (hcall : reply.rejected = true ∨ (∀ t, call ≠ .mint t) ∧ (∀ t, call ≠ .transfer t))
    {i : AccountIndex} {balance : UInt64} (h : m.inspectBalance i = some balance) :
    m'.inspectBalance i = some balance := by
  have hnone : ifAccepted Call.posting? call reply = none := by
    rcases hcall with hreject | ⟨hmint, htransfer⟩
    · exact ifAccepted_of_refused _ (accepted_of_rejected hreject)
    · apply ifAccepted_of_none
      cases call with
      | mint t => exact absurd rfl (hmint t)
      | transfer t => exact absurd rfl (htransfer t)
      | _ => rfl
  exact inspectBalance_of_balanceAt (length_states_mono hstep)
    (balanceAt_of_no_posting hstep hnone) h

/-! ### The double-entry law -/

/-- **Double-entry law.** After every run the balance of an account is the
    difference of its credits and debits modulo the word size and never more
    than that difference; the balances together do not exceed the value
    minted; and calls other than accepted transactions change no balance. -/
theorem double_entry_law (calls : List Call) :
    let h := machine.events calls
    let m := machine.final calls
    (∀ i : AccountIndex, i.value < m.account_count →
      ∃ balance, m.inspectBalance i = some balance ∧
        (balance.toNat : ℤ) ≡ credited (postings h) i.value.toNat -
          debited (postings h) i.value.toNat [ZMOD 2 ^ 64] ∧
        balance.toNat + debited (postings h) i.value.toNat ≤
          credited (postings h) i.value.toNat) ∧
    (∀ i : AccountIndex, i.value < m.account_count →
      debited (postings h) i.value.toNat ≤ credited (postings h) i.value.toNat) ∧
    m.totalBalance ≤ deposited (postings h) ∧
    (∀ e ∈ h, e.reply.rejected = true ∨
        (∀ t, e.call ≠ .mint t) ∧ (∀ t, e.call ≠ .transfer t) →
      ∀ i balance, e.before.inspectBalance i = some balance →
        e.after.inspectBalance i = some balance) := by
  intro h m
  obtain ⟨book, hbook⟩ := exists_book calls
  have hbalance : ∀ i, (book i).balance = m.balanceAt i := fun i => congrFun hbook.balances i
  refine ⟨?_, ?_, ?_, ?_⟩
  · intro i hi
    obtain ⟨balance, hshown⟩ := exists_balance hi
    have hvalue := toNat_inspectBalance hshown
    refine ⟨balance, hshown, ?_, ?_⟩
    · have hmod := hbook.posted.balance_modEq i.value.toNat
      rw [hbalance, ← hvalue] at hmod
      simpa using hmod
    · have hle := hbook.posted.balance_add_debited_le i.value.toNat
      rw [hbalance, ← hvalue] at hle
      exact hle
  · intro i _
    have hle := hbook.posted.balance_add_debited_le i.value.toNat
    exact Nat.le_trans (Nat.le_add_left _ _) hle
  · rw [totalBalance_eq_sum, ← hbook.balances]
    exact hbook.posted.sum_balance_le hbook.within
  · intro e he hcall i balance hshown
    obtain ⟨pre, call, post, _, rfl⟩ := machine.mem_events.mp he
    exact inspectBalance_unchanged ((machine.final pre).exec_transition call) hcall hshown

/-! ### Exact conservation -/

theorem map_toNat_inspectBalance {m : PlaintextModel} {i : AccountIndex}
    (h : m.isValidAccountIndex i = true) :
    (m.inspectBalance i).map (·.toNat) = some (m.balanceAt i.value.toNat) := by
  rw [inspectBalance_of_valid h, Option.map_some, toNat_balanceRef h]

/-- An index stays valid. -/
theorem isValidAccountIndex_mono {m m' : PlaintextModel} {call : Call} {reply : Reply}
    {trail : List PlaintextModel} (hstep : Transition m call reply trail m') {i : AccountIndex}
    (h : m.isValidAccountIndex i = true) : m'.isValidAccountIndex i = true := by
  have hmono := length_states_mono hstep
  rw [isValidAccountIndex_iff] at h ⊢
  omega

/-- A credit that fits is applied exactly. -/
theorem appliedExactly_of_fits {m m' : PlaintextModel} {call : Call} {reply : Reply}
    {trail : List PlaintextModel} (hstep : Transition m call reply trail m')
    (hfits : CreditFits m call) :
    AppliedExactly { before := m, call := call, reply := reply, after := m' } := by
  have hvalid := fun {i : AccountIndex} (hi : m.isValidAccountIndex i = true) =>
    isValidAccountIndex_mono hstep hi
  cases hstep with
  | idle hreply =>
    -- what was not accepted need not have moved anything
    cases call with
    | mint t =>
      intro hok
      simp only [hreply] at hok
      contradiction
    | transfer t =>
      intro hok
      simp only [hreply] at hok
      contradiction
    | _ => trivial
  | @minted t _ hadm _ =>
    intro _
    obtain ⟨_, hrecipient, _⟩ := mintAdmissible_iff.mp hadm
    have hsum := hfits hadm
    rw [toNat_balanceRef hrecipient] at hsum
    show ((m.minted t).inspectBalance _).map _ = _
    rw [map_toNat_inspectBalance (hvalid hrecipient), inspectBalance_of_valid hrecipient,
      Option.map_some, toNat_balanceRef hrecipient, minted_balanceAt hadm,
      Function.update_self, Nat.mod_eq_of_lt hsum]
  | @transferred t _ hadm _ =>
    intro _ hne
    obtain ⟨_, hsender, hreceiver, _⟩ := transferAdmissible_iff.mp hadm
    have hpos : t.receiver_index.value.toNat ≠ t.sender_index.value.toNat := by
      intro heq
      rw [UInt64.toNat_inj] at heq
      exact hne (AccountIndex.ext heq.symm)
    have hsum := hfits hadm hne
    rw [toNat_balanceRef hreceiver] at hsum
    show ((m.transferred t).inspectBalance _).map _ = _ ∧
      ((m.transferred t).inspectBalance _).map _ = _
    constructor
    · -- the credit comes second and goes to another account
      have hcovered := transfer_covered hadm
      rw [inspectBalance_of_valid (hvalid hsender), inspectBalance_of_valid hsender,
        Option.map_some, Option.map_some, toNat_balanceRef (hvalid hsender),
        toNat_balanceRef hsender, transferred_balanceAt hadm, Function.update_of_ne hpos.symm,
        Function.update_self, Nat.sub_add_cancel hcovered]
    · rw [map_toNat_inspectBalance (hvalid hreceiver), inspectBalance_of_valid hreceiver,
        Option.map_some, toNat_balanceRef hreceiver, transferred_balanceAt hadm,
        Function.update_self, Function.update_of_ne hpos, Nat.mod_eq_of_lt hsum]
  | advanced hmoves =>
    cases call <;> trivial
  | _ => trivial

/-- **Exact conservation.** Over a run every accepted transaction is applied
    exactly and the balances add up to the value minted, if and only if every
    credit of the run fits into 64 bits. -/
theorem conservation_iff_credits_fit (calls : List Call) :
    ((∀ e ∈ machine.events calls, AppliedExactly e) ∧
      (machine.final calls).totalBalance = deposited (postings (machine.events calls))) ↔
    ∀ e ∈ machine.events calls, CreditFits e.before e.call := by
  obtain ⟨book, hbook⟩ := exists_book calls
  -- the sum is exact when no carry is left, and no carry when all credits fit
  have htotal : (machine.final calls).totalBalance = deposited (postings (machine.events calls)) ↔
      ∀ e ∈ machine.events calls, CreditFits e.before e.call := by
    rw [totalBalance_eq_sum, ← hbook.balances, ← hbook.carries]
    exact hbook.posted.sum_balance_eq_iff hbook.within
  constructor
  · intro ⟨_, hsum⟩
    exact htotal.mp hsum
  · intro hfits
    refine ⟨?_, htotal.mpr hfits⟩
    intro e he
    have hfit := hfits e he
    obtain ⟨pre, call, post, _, rfl⟩ := machine.mem_events.mp he
    exact appliedExactly_of_fits ((machine.final pre).exec_transition call) hfit

/-- A second mint of one unit wraps a full balance around to nothing, and is
    accepted. -/
theorem credit_wraps_around :
    let mintOf (id : String) (value : UInt64) (prf : UInt8) : Call := .mint {
      transaction_id := StdString.ofAscii id
      recipient_index := { value := 0 }
      value := value
      prf_output := { bytes := [prf] }
      referenced_root := rootFor 0 { value := 2 } }
    let calls : List Call :=
      [.register { account_id := StdString.ofAscii "alice", public_key := {} },
        mintOf "mint-1" (-1) 1, mintOf "mint-2" 1 2]
    (∀ e ∈ machine.events calls, e.reply.accepted = true) ∧
      (machine.final calls).inspectBalance { value := 0 } = some 0 ∧
      ¬ ((∀ e ∈ machine.events calls, AppliedExactly e) ∧
        (machine.final calls).totalBalance = deposited (postings (machine.events calls))) := by
  intro mintOf calls
  have htotal : (machine.final calls).totalBalance = 0 := by decide
  have hminted : deposited (postings (machine.events calls)) = 2 ^ 64 := by decide
  refine ⟨by decide, by decide, ?_⟩
  intro h
  rw [htotal, hminted] at h
  exact absurd h.2 (by decide)

end PlaintextModel

end Prifhete
