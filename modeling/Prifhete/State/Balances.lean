import Prifhete.Lib.Book
import Prifhete.State.Accounts

/-! # The balances as a double-entry book

    An accepted mint is a deposit and an accepted transfer a payment. The
    balances of every reachable state are those of the book that the
    postings of its history lead to, with registers of 64 bits. What the
    book says about credits, debits and lost carries then holds of the model.
-/

namespace Prifhete

open Bookkeeping Sequences

namespace PlaintextModel

/-! ### Postings -/

/-- The posting a transaction asks for. -/
def Call.posting? : Call → Option (Posting ℕ)
  | .mint t => some (.deposit t.recipient_index.value.toNat t.value.toNat)
  | .transfer t =>
    some (.payment t.sender_index.value.toNat t.receiver_index.value.toNat t.value.toNat)
  | _ => none

/-- The postings of a history: its accepted transactions, oldest first. -/
def postings (h : List Event) : List (Posting ℕ) := ofAccepted Call.posting? h

theorem posting_of_movesEpoch {call : Call} (h : call.movesEpoch = true) :
    call.posting? = none :=
  Call.of_movesEpoch (P := fun call => call.posting? = none) rfl (fun _ => rfl) (fun _ => rfl) h

/-- The balances by position in the account vector. -/
def balanceAt (m : PlaintextModel) : ℕ → ℕ :=
  valueAt (·.balance.toNat) m.account_states_.toList

/-- The sum of all balances. -/
def totalBalance (m : PlaintextModel) : ℕ :=
  (m.account_states_.toList.map (·.balance.toNat)).sum

/-- At a valid index the balance an operation works with is the one in the
    vector. -/
theorem toNat_balanceRef {m : PlaintextModel} {i : AccountIndex}
    (h : m.isValidAccountIndex i = true) :
    (m.balanceRef i).toNat = m.balanceAt i.value.toNat := by
  obtain ⟨state, hstate⟩ := exists_state_of_valid h
  rw [balanceRef, StdVector.at_index_of_getElem? hstate, balanceAt, valueAt, hstate]
  rfl

theorem toNat_inspectBalance {m : PlaintextModel} {i : AccountIndex} {balance : UInt64}
    (h : m.inspectBalance i = some balance) : balance.toNat = m.balanceAt i.value.toNat := by
  rw [inspectBalance_eq] at h
  obtain ⟨state, hstate, hbalance⟩ := Option.map_eq_some_iff.mp h
  rw [← hbalance, balanceAt, valueAt, hstate]
  rfl

/-! ### What the operations do to the balances -/

theorem issueRoot_balanceAt (m : PlaintextModel) : m.issueRoot.balanceAt = m.balanceAt := by
  rw [balanceAt, issueRoot_account_states, valueAt_map]
  rfl

theorem advancedBy_balanceAt (m : PlaintextModel) (n : Nat) :
    (m.advancedBy n).balanceAt = m.balanceAt := by
  induction n with
  | zero => rfl
  | succ n ih =>
    rw [advancedBy_succ, ← ih]
    show (issueRoot _).balanceAt = (m.advancedBy n).balanceAt
    exact issueRoot_balanceAt _

theorem updateBalance_balanceAt {m : PlaintextModel} {i : AccountIndex}
    (h : m.isValidAccountIndex i = true) (f : UInt64 → UInt64) :
    (m.updateBalance i f).balanceAt =
      Function.update m.balanceAt i.value.toNat (f (m.balanceRef i)).toNat := by
  obtain ⟨state, hstate⟩ := exists_state_of_valid h
  rw [balanceAt, updateBalance, StdVector.toList_modify, valueAt_modify hstate, balanceRef,
    StdVector.at_index_of_getElem? hstate]
  rfl

/-- A new account starts with nothing. -/
theorem push_back_balanceAt {states grown : StdVector AccountState} {entry : PrivateAccountEntry}
    (hpush : states.push_back { entry := entry, balance := 0 } = some grown) :
    valueAt (·.balance.toNat) grown.toList = valueAt (·.balance.toNat) states.toList := by
  rw [StdVector.push_back_eq_some hpush]
  apply valueAt_append_zero
  rfl

theorem replacedEntry_balanceAt (m : PlaintextModel) (index : UInt64)
    (entry : PrivateAccountEntry) : (m.replacedEntry index entry).balanceAt = m.balanceAt := by
  funext i
  -- the update keeps the balance of the element it touches
  rw [balanceAt, replacedEntry, StdVector.toList_modify, valueAt, List.getElem?_modify, balanceAt,
    valueAt]
  cases m.account_states_.toList[i]? with
  | none => rfl
  | some state =>
    by_cases hi : index.toNat = i
    · simp [hi]
    · simp [hi]

/-- A mint credits its recipient, modulo the word size. -/
theorem minted_balanceAt {m : PlaintextModel} {t : PublicToPrivateMint}
    (hadm : m.mintAdmissible t = true) :
    (m.minted t).balanceAt =
      Function.update m.balanceAt t.recipient_index.value.toNat
        ((m.balanceAt t.recipient_index.value.toNat + t.value.toNat) % 2 ^ 64) := by
  have hvalid := (mintAdmissible_iff.mp hadm).2.1
  rw [minted, issueRoot_balanceAt, updateBalance_balanceAt (m := m.recordedPrf t.prf_output) hvalid,
    UInt64.toNat_add, toNat_balanceRef (m := m.recordedPrf t.prf_output) hvalid]
  rfl

/-- A transfer debits the sender and then credits the receiver; where they
    are the same account, the credit sees the debit. -/
theorem transferred_balanceAt {m : PlaintextModel} {t : PrivateTransfer}
    (hadm : m.transferAdmissible t = true) :
    (m.transferred t).balanceAt =
      let debited := Function.update m.balanceAt t.sender_index.value.toNat
        (m.balanceAt t.sender_index.value.toNat - t.value.toNat)
      Function.update debited t.receiver_index.value.toNat
        ((debited t.receiver_index.value.toNat + t.value.toNat) % 2 ^ 64) := by
  obtain ⟨_, hsender, hreceiver, _, _, hfunds⟩ := transferAdmissible_iff.mp hadm
  have hdebit : ((m.recordedPrf t.prf_output).updateBalance t.sender_index
      (· - t.value)).balanceAt =
        Function.update m.balanceAt t.sender_index.value.toNat
          (m.balanceAt t.sender_index.value.toNat - t.value.toNat) := by
    rw [updateBalance_balanceAt (m := m.recordedPrf t.prf_output) hsender,
      show (m.recordedPrf t.prf_output).balanceRef t.sender_index =
        m.balanceRef t.sender_index from rfl,
      UInt64.toNat_sub_of_le _ _ hfunds, toNat_balanceRef hsender]
    rfl
  -- the debit leaves the receiver a valid index
  have hreceiver' : ((m.recordedPrf t.prf_output).updateBalance t.sender_index
      (· - t.value)).isValidAccountIndex t.receiver_index = true := by
    rw [isValidAccountIndex_iff] at hreceiver ⊢
    simpa [updateBalance, recordedPrf] using hreceiver
  rw [transferred, issueRoot_balanceAt, updateBalance_balanceAt hreceiver', UInt64.toNat_add,
    toNat_balanceRef hreceiver', hdebit]

/-- A transfer is covered. -/
theorem transfer_covered {m : PlaintextModel} {t : PrivateTransfer}
    (hadm : m.transferAdmissible t = true) :
    t.value.toNat ≤ m.balanceAt t.sender_index.value.toNat := by
  obtain ⟨_, hsender, _, _, _, hfunds⟩ := transferAdmissible_iff.mp hadm
  rw [← toNat_balanceRef hsender]
  exact UInt64.le_iff_toNat_le.mp hfunds

/-- Calls without an accepted posting leave every balance as it was. -/
theorem balanceAt_of_no_posting {m m' : PlaintextModel} {call : Call} {reply : Reply}
    {trail : List PlaintextModel} (hstep : Transition m call reply trail m')
    (hnone : ifAccepted Call.posting? call reply = none) : m'.balanceAt = m.balanceAt := by
  cases hstep with
  | idle => rfl
  | reached => rfl
  | @registered _ _ states _ _ hpush _ =>
    rw [registered, issueRoot_balanceAt]
    show valueAt (·.balance.toNat) states.toList = m.balanceAt
    exact push_back_balanceAt hpush
  | replaced => exact replacedEntry_balanceAt ..
  | inserted _ _ hpush => exact push_back_balanceAt hpush
  | minted _ hok =>
    rw [ifAccepted_of_accepted _ (accepted_mint hok)] at hnone
    exact absurd hnone (Option.some_ne_none _)
  | transferred _ hok =>
    rw [ifAccepted_of_accepted _ (accepted_transfer hok)] at hnone
    exact absurd hnone (Option.some_ne_none _)
  | advanced => exact advancedBy_balanceAt ..
  | movedBack => exact issueRoot_balanceAt _

/-! ### Exactness -/

/-- The credit of a call that passes the checks fits into 64 bits. What an
    account transfers to itself always fits. -/
def CreditFits (m : PlaintextModel) : Call → Prop
  | .mint t =>
    m.mintAdmissible t = true →
      (m.balanceRef t.recipient_index).toNat + t.value.toNat < 2 ^ 64
  | .transfer t =>
    m.transferAdmissible t = true → t.sender_index ≠ t.receiver_index →
      (m.balanceRef t.receiver_index).toNat + t.value.toNat < 2 ^ 64
  | _ => True

/-- An accepted mint, or transfer between distinct accounts, has moved
    exactly its value, as natural numbers. -/
def AppliedExactly (e : Event) : Prop :=
  match e.call with
  | .mint t =>
    e.reply.accepted = true →
      (e.after.inspectBalance t.recipient_index).map (·.toNat) =
        (e.before.inspectBalance t.recipient_index).map (·.toNat + t.value.toNat)
  | .transfer t =>
    e.reply.accepted = true → t.sender_index ≠ t.receiver_index →
      (e.after.inspectBalance t.sender_index).map (·.toNat + t.value.toNat) =
        (e.before.inspectBalance t.sender_index).map (·.toNat) ∧
      (e.after.inspectBalance t.receiver_index).map (·.toNat) =
        (e.before.inspectBalance t.receiver_index).map (·.toNat + t.value.toNat)
  | _ => True

/-! ### The book of a run -/

/-- The book that the postings of a history lead to shows the balances, and
    has no carries as long as every credit has fitted. -/
structure BookFollows (h : List Event) (m : PlaintextModel) (book : Book ℕ (2 ^ 64)) : Prop where
  posted : Posted (postings h) book
  balances : book.balances = m.balanceAt
  within : ∀ p ∈ postings h, p.Within (Finset.range m.account_states_.toList.length : Set ℕ)
  carries : (∀ i, (book i).carries = 0) ↔ ∀ e ∈ h, CreditFits e.before e.call

theorem create_bookFollows : BookFollows [] create fun _ => Account.opened where
  posted := .nil
  balances := rfl
  within := by
    intro p hp
    contradiction
  carries := by
    constructor
    · intro _ e he
      contradiction
    · intro _ _
      rfl

theorem Within.mono {p : Posting ℕ} {n n' : ℕ} (hle : n ≤ n')
    (h : p.Within (Finset.range n : Set ℕ)) : p.Within (Finset.range n' : Set ℕ) := by
  have hsub : ∀ i, i ∈ (Finset.range n : Set ℕ) → i ∈ (Finset.range n' : Set ℕ) := by
    intro i hi
    simp only [Finset.coe_range, Set.mem_Iio] at hi ⊢
    omega
  cases p with
  | deposit => exact hsub _ h
  | payment => exact ⟨hsub _ h.1, hsub _ h.2⟩

/-- An accepted transaction is a covered posting on existing accounts, and
    posting it leads to the new balances. It fits the book when it fits the
    model. -/
theorem posting_step {m m' : PlaintextModel} {call : Call} {reply : Reply}
    {trail : List PlaintextModel} (hstep : Transition m call reply trail m')
    {p : Posting ℕ} (hposting : ifAccepted Call.posting? call reply = some p)
    {book : Book ℕ (2 ^ 64)} (hbalances : book.balances = m.balanceAt) :
    p.Within (Finset.range m.account_states_.toList.length : Set ℕ) ∧
      (book.Fits p ↔ CreditFits m call) ∧
      ∃ hcovers : book.Covers p, (book.post p hcovers).balances = m'.balanceAt := by
  have hvalid : ∀ i : AccountIndex, m.isValidAccountIndex i = true →
      i.value.toNat ∈ (Finset.range m.account_states_.toList.length : Set ℕ) := by
    intro i hi
    simpa using isValidAccountIndex_iff.mp hi
  have hbook : ∀ i, (book i).balance = m.balanceAt i := fun i => congrFun hbalances i
  cases hstep with
  | idle hreply =>
    rw [ifAccepted_of_refused _ hreply] at hposting
    contradiction
  | @minted t _ hadm hok =>
    rw [ifAccepted_of_accepted _ (accepted_mint hok)] at hposting
    cases hposting
    obtain ⟨_, hrecipient, _⟩ := mintAdmissible_iff.mp hadm
    refine ⟨hvalid _ hrecipient, ?_, trivial, ?_⟩
    · simp only [Book.Fits, CreditFits, hadm, hbook, toNat_balanceRef hrecipient, true_imp_iff]
    · show (book.credit _ _).balances = _
      rw [Book.credit_balances, hbalances, minted_balanceAt hadm]
  | @transferred t _ hadm hok =>
    rw [ifAccepted_of_accepted _ (accepted_transfer hok)] at hposting
    cases hposting
    obtain ⟨_, hsender, hreceiver, _⟩ := transferAdmissible_iff.mp hadm
    have hcovered : t.value.toNat ≤ (book t.sender_index.value.toNat).balance := by
      rw [hbook]
      exact transfer_covered hadm
    refine ⟨⟨hvalid _ hsender, hvalid _ hreceiver⟩, ?_, hcovered, ?_⟩
    · -- one account is one position
      have hsame : t.sender_index.value.toNat = t.receiver_index.value.toNat ↔
          t.sender_index = t.receiver_index := by
        rw [UInt64.toNat_inj, AccountIndex.ext_iff]
      simp only [Book.Fits, CreditFits, hadm, hbook, toNat_balanceRef hreceiver, true_imp_iff,
        hsame]
      exact Decidable.or_iff_not_imp_left
    · show ((book.debit _ _ hcovered).credit _ _).balances = _
      rw [Book.credit_balances, Book.debit_balances, hbalances, transferred_balanceAt hadm]
  | advanced hmoves =>
    rw [ifAccepted_of_none _ (posting_of_movesEpoch hmoves)] at hposting
    contradiction
  | _ =>
    rw [ifAccepted_of_none _ rfl] at hposting
    contradiction

/-- Without an accepted posting there is no credit that could fail to fit. -/
theorem creditFits_of_no_posting {m m' : PlaintextModel} {call : Call} {reply : Reply}
    {trail : List PlaintextModel} (hexec : (m.exec call).1 = reply)
    (hstep : Transition m call reply trail m')
    (hnone : ifAccepted Call.posting? call reply = none) : CreditFits m call := by
  cases call with
  | mint t =>
    intro hadm
    simp only [exec, mint_of_admissible hadm] at hexec
    subst hexec
    rw [ifAccepted_of_accepted _ (accepted_mint okStatus_ok)] at hnone
    exact absurd hnone (Option.some_ne_none _)
  | transfer t =>
    intro hadm
    simp only [exec, transfer_of_admissible hadm] at hexec
    subst hexec
    rw [ifAccepted_of_accepted _ (accepted_transfer okStatus_ok)] at hnone
    exact absurd hnone (Option.some_ne_none _)
  | _ => trivial

/-- The balances of every run are those of a book. -/
theorem exists_book (calls : List Call) :
    ∃ book, BookFollows (machine.events calls) (machine.final calls) book := by
  refine machine.history_invariant (fun h m => ∃ book, BookFollows h m book)
    ⟨_, create_bookFollows⟩ ?_ calls
  intro h m call ⟨book, hbook⟩
  have hstep := m.exec_transition call
  have hmono := length_states_mono hstep
  have hpostings : postings (h ++ [machine.event m call]) =
      postings h ++ (ifAccepted Call.posting? call (m.exec call).1).toList :=
    ofAccepted_concat ..
  have hall : (∀ e ∈ h ++ [machine.event m call], CreditFits e.before e.call) ↔
      (∀ e ∈ h, CreditFits e.before e.call) ∧ CreditFits m call := by
    simp only [List.mem_append, List.mem_singleton, or_imp, forall_and, forall_eq]
    rfl
  cases hposting : ifAccepted Call.posting? call (m.exec call).1 with
  | none =>
    -- nothing is posted, and the book stays
    rw [hposting, Option.toList_none, List.append_nil] at hpostings
    refine ⟨book, ?_, ?_, ?_, ?_⟩
    · rw [hpostings]
      exact hbook.posted
    · rw [hbook.balances]
      exact (balanceAt_of_no_posting hstep hposting).symm
    · rw [hpostings]
      exact fun p hp => Within.mono hmono (hbook.within p hp)
    · rw [hall, hbook.carries]
      have hfits := creditFits_of_no_posting rfl hstep hposting
      exact ⟨fun hprev => ⟨hprev, hfits⟩, fun hprev => hprev.1⟩
  | some p =>
    -- the posting is entered in the book
    rw [hposting, Option.toList_some] at hpostings
    obtain ⟨hwithin, hfits, hcovers, hbalances⟩ := posting_step hstep hposting hbook.balances
    refine ⟨book.post p hcovers, ?_, hbalances, ?_, ?_⟩
    · rw [hpostings]
      exact .concat hbook.posted hcovers
    · rw [hpostings]
      intro q hq
      rcases List.mem_append.mp hq with hq | hq
      · exact Within.mono hmono (hbook.within q hq)
      · rw [List.mem_singleton.mp hq]
        exact Within.mono hmono hwithin
    · rw [hall, Book.post_carries_eq_zero, hbook.carries, hfits]

end PlaintextModel

end Prifhete
