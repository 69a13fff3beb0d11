import Prifhete.Lib.Simulation
import Prifhete.State.AbstractLedger
import Prifhete.State.Acceptance
import Prifhete.State.EpochJumps
import Prifhete.State.Ledger

/-! # The model refines the abstract ledger

    A model represents a ledger when its account vector holds the accounts
    of the ledger and the two maps agree with it, when the roots issued on
    the way to it are those of the ledger, and when its two PRF structures
    hold the spent outputs. Every call keeps this, and is answered by both
    in the same way.
-/

namespace Prifhete

namespace PlaintextModel

open AbstractLedger Sequences

/-! ### Issued roots -/

/-- The roots issued on the way to `m` are those of these epochs. -/
def IssuedAre (m : PlaintextModel) (issued : List EpochNumber) : Prop :=
  ∃ ps, ps.getLast? = some m ∧ RootHistory ps m ∧ issuedRoots ps = rootsOf issued ∧
    epochRoots ps = currentStretch (·.epoch) (rootsOf issued)

/-- The root fields of the model, computed from the epochs. -/
theorem IssuedAre.fields {m : PlaintextModel} {issued : List EpochNumber}
    (h : IssuedAre m issued) (hstarted : issued ≠ []) :
    m.current_epoch_ = issued.getLast hstarted ∧
      m.root_version_ = { value := UInt64.ofNat issued.length } ∧
      m.current_root_ = rootFor m.current_epoch_ m.root_version_ := by
  obtain ⟨ps, hlast, hhistory, hissued, _⟩ := h
  have hroot := hhistory.last_issued
  rw [hissued, getLast?_rootsOf hstarted, Option.some.injEq, hhistory.own] at hroot
  refine ⟨?_, ?_, hhistory.own⟩
  · exact (congrArg RootReference.epoch hroot).symm
  · exact (congrArg RootReference.version hroot).symm

/-- The root map knows the issued roots. -/
theorem IssuedAre.known {m : PlaintextModel} {issued : List EpochNumber} (h : IssuedAre m issued)
    (key : StdString) (record : RootRecord) :
    m.valid_roots_.lookup key = some record ↔
      record.reference ∈ rootsOf issued ∧ record.reference.key = key := by
  obtain ⟨ps, _, hhistory, hissued, _⟩ := h
  rw [← hissued]
  exact hhistory.known key record

theorem IssuedAre.stay {m m' : PlaintextModel} {issued : List EpochNumber} (h : IssuedAre m issued)
    (hsame : SameRoots m m') : IssuedAre m' issued := by
  obtain ⟨ps, hlast, hhistory, hissued, hepoch⟩ := h
  refine ⟨ps ++ [m'], List.getLast?_concat, hhistory.stay hlast hsame, ?_, ?_⟩
  · rw [issuedRoots_concat hlast, if_pos hsame.current_root.symm, hissued]
  · rw [epochRoots_concat hlast, if_pos hsame.current_epoch.symm, if_pos hsame.current_root.symm,
      hepoch]

theorem IssuedAre.issue {m m' : PlaintextModel} {issued : List EpochNumber}
    (h : IssuedAre m issued) (hstarted : issued ≠ []) (hissue : IssuesRoot m m') :
    IssuedAre m' (issued ++ [m'.current_epoch_]) := by
  obtain ⟨_, hversion, hown⟩ := h.fields hstarted
  obtain ⟨ps, hlast, hhistory, hissued, hepoch⟩ := h
  have hne := hissue.current_root_ne hown
  have hroot : m'.current_root_ =
      rootFor m'.current_epoch_ { value := UInt64.ofNat (issued.length + 1) } := by
    rw [hissue.current_root, hissue.root_version, hversion, UInt64.ofNat_add]
    rfl
  have hlastroot : (rootsOf issued).getLast? = some m.current_root_ := by
    rw [← hissued]
    exact hhistory.last_issued
  refine ⟨ps ++ [m'], List.getLast?_concat, hhistory.issue hlast hissue, ?_, ?_⟩
  · rw [issuedRoots_concat hlast, if_neg hne, hissued, rootsOf_concat, hroot]
  · -- the stretch goes on exactly when the epoch stays
    rw [epochRoots_concat hlast, if_neg hne, rootsOf_concat, currentStretch_concat _ hlastroot,
      ← hepoch, ← hroot, hown, hissue.current_root]
    rfl

/-! ### Spent PRF outputs -/

/-- The log and the set hold these outputs. -/
def SpentAre (m : PlaintextModel) (spent : List PRFOutput) : Prop :=
  m.accepted_prf_outputs_in_current_epoch_ = spent ∧
    m.prf_outputs_in_current_epoch_ = (spent.map fun prf => toKey prf.bytes).toFinset

theorem SpentAre.mem_seen {m : PlaintextModel} {spent : List PRFOutput} (h : SpentAre m spent)
    (prf : PRFOutput) :
    toKey prf.bytes ∈ m.prf_outputs_in_current_epoch_ ↔ prf.bytes ∈ spent.map (·.bytes) := by
  rw [h.2, List.mem_toFinset, List.mem_map, List.mem_map]
  simp only [toKey_inj]

theorem SpentAre.record {m : PlaintextModel} {spent : List PRFOutput} (h : SpentAre m spent)
    (prf : PRFOutput) : SpentAre (m.recordedPrf prf) (spent ++ [prf]) := by
  obtain ⟨hlog, hseen⟩ := h
  refine ⟨?_, ?_⟩
  · rw [← hlog]
    rfl
  · rw [List.map_append, List.map_singleton, List.toFinset_append, ← hseen]
    ext key
    simp [recordedPrf, or_comm]

/-! ### Representation -/

structure Represents (m : PlaintextModel) (l : AbstractLedger) : Prop where
  agree : AccountsAgree m
  accounts : m.account_states_.toList = l.accounts.records
  issued : IssuedAre m l.issued
  spent : SpentAre m l.spent

namespace Represents

variable {m : PlaintextModel} {l : AbstractLedger}

theorem current_epoch (h : Represents m l) : m.current_epoch_ = l.epoch :=
  (h.issued.fields l.started).1

theorem current_root (h : Represents m l) : m.current_root_ = l.current_root := by
  obtain ⟨hepoch, hversion, hown⟩ := h.issued.fields l.started
  rw [hown, hepoch, hversion]
  rfl

theorem ids (h : Represents m l) : m.ids = l.ids := by
  rw [PlaintextModel.ids, h.accounts]
  rfl

theorem hasIndex (h : Represents m l) (i : AccountIndex) :
    m.isValidAccountIndex i = l.hasIndex i := by
  rw [Bool.eq_iff_iff, isValidAccountIndex_iff, AbstractLedger.hasIndex, h.accounts,
    decide_eq_true_eq]

theorem balance (h : Represents m l) (i : AccountIndex) : m.balanceRef i = l.balance i := by
  unfold balanceRef AbstractLedger.balance StdVector.at_index
  rw [h.accounts, List.getD_eq_getElem?_getD]
  cases l.accounts.records[i.value.toNat]? with
  | none => rfl
  | some state => rfl

theorem isFresh (h : Represents m l) (prf : PRFOutput) :
    m.validateFreshPrfOutput prf =
      firstFailure [(l.isFresh prf, "duplicate PRFOutput in current epoch")] := by
  unfold validateFreshPrfOutput AbstractLedger.isFresh
  split
  · next hseen => simp [(h.spent.mem_seen prf).mp hseen]
  · next hfresh =>
    rw [h.spent.mem_seen] at hfresh
    simp [hfresh]

theorem inWindow (h : Represents m l) (root : RootReference) :
    m.isRootAcceptableForCurrentEpoch root = l.inWindow root.epoch := by
  rw [Bool.eq_iff_iff, isRootAcceptableForCurrentEpoch_iff, AbstractLedger.inWindow,
    h.current_epoch, decide_eq_true_eq]

/-- The root map is asked in two steps, and the answers are those of the
    list of issued roots. -/
theorem rootStatus (h : Represents m l) (root : RootReference) :
    m.validateReferencedRoot root = firstFailure (l.rootChecks root) := by
  unfold validateReferencedRoot AbstractLedger.rootChecks
  split
  · next hnone =>
    have hunknown : (l.roots.any fun known => known.root.bytes = root.root.bytes) = false := by
      rw [List.any_eq_false]
      intro known hknown hbytes
      have hlookup := (h.issued.known (toKey root.root.bytes) { reference := known }).mpr
        ⟨hknown, by rw [RootReference.key, of_decide_eq_true hbytes]⟩
      rw [hnone] at hlookup
      contradiction
    rw [hunknown, firstFailure_cons_false]
  · next record hsome =>
    obtain ⟨hmem, hkey⟩ := (h.issued.known _ _).mp hsome
    have hknown : (l.roots.any fun known => known.root.bytes = root.root.bytes) = true := by
      rw [List.any_eq_true]
      exact ⟨record.reference, hmem, decide_eq_true (toKey_inj.mp hkey)⟩
    rw [hknown, firstFailure_cons_true, ← h.inWindow]
    by_cases hsame : record.reference = root
    · have hroot : decide (root ∈ l.roots) = true := decide_eq_true (hsame ▸ hmem)
      rw [if_neg (not_not_intro hsame), hroot, firstFailure_cons_true]
      cases m.isRootAcceptableForCurrentEpoch root <;> rfl
    · -- the key stands for another root, so this one has not been issued
      have hroot : decide (root ∈ l.roots) = false := by
        apply decide_eq_false
        intro hissued
        have hlookup := (h.issued.known (toKey root.root.bytes) { reference := root }).mpr
          ⟨hissued, rfl⟩
        rw [hsome, Option.some.injEq] at hlookup
        exact hsame (congrArg RootRecord.reference hlookup)
      rw [if_pos hsame, hroot, firstFailure_cons_false]

end Represents

/-! ### Updates -/

/-- Issuing a root, once the other parts of the two states correspond. -/
theorem represents_issueRoot {m p : PlaintextModel} {l : AbstractLedger}
    (hissued : IssuedAre m l.issued) (hissue : IssuesRoot m p.issueRoot)
    (hagree : AccountsAgree p.issueRoot) (haccounts : p.account_states_.toList = l.accounts.records)
    (hspent : SpentAre p l.spent) : Represents p.issueRoot (l.issue p.current_epoch_) := by
  have hissued' := hissued.issue l.started hissue
  obtain ⟨_, hversion, hown⟩ := hissued'.fields (List.append_ne_nil_of_right_ne_nil _
    (List.cons_ne_nil _ _))
  rw [hversion, List.length_append, List.length_singleton] at hown
  refine ⟨hagree, ?_, hissued', hspent⟩
  rw [issueRoot_account_states, haccounts]
  apply List.map_congr_left
  intro state _
  unfold refreshEntry stamp
  rw [hown]
  rfl

namespace Represents

variable {m : PlaintextModel} {l : AbstractLedger}

theorem minted (h : Represents m l) {t : PublicToPrivateMint} (hadm : m.mintAdmissible t = true)
    (hfresh : l.isFresh t.prf_output = true) : Represents (m.minted t) (l.minted t) := by
  have hagree := h.agree.step (m.exec_mint t)
  rw [show (m.exec (.mint t)).2 = m.minted t by simp [exec, mint_of_admissible hadm]] at hagree
  rw [AbstractLedger.minted, ← h.current_epoch]
  refine represents_issueRoot (l := (l.spend t.prf_output).post t.recipient_index (· + t.value))
    ?_ (.minted m t) hagree ?_ ?_
  · show IssuedAre m (l.spend t.prf_output).issued
    rw [spend_issued]
    exact h.issued
  · rw [post_records, spend_accounts, ← h.accounts]
    rfl
  · show SpentAre (m.recordedPrf t.prf_output) (l.spend t.prf_output).spent
    rw [spend_spent, if_pos hfresh]
    exact h.spent.record t.prf_output

theorem transferred (h : Represents m l) {t : PrivateTransfer}
    (hadm : m.transferAdmissible t = true) (hfresh : l.isFresh t.prf_output = true) :
    Represents (m.transferred t) (l.transferred t) := by
  have hagree := h.agree.step (m.exec_transfer t)
  rw [show (m.exec (.transfer t)).2 = m.transferred t by
    simp [exec, transfer_of_admissible hadm]] at hagree
  rw [AbstractLedger.transferred, ← h.current_epoch]
  refine represents_issueRoot (l := ((l.spend t.prf_output).post t.sender_index
    (· - t.value)).post t.receiver_index (· + t.value)) ?_ (.transferred m t) hagree ?_ ?_
  · show IssuedAre m (l.spend t.prf_output).issued
    rw [spend_issued]
    exact h.issued
  · rw [post_records, post_records, spend_accounts, ← h.accounts]
    rfl
  · show SpentAre (m.recordedPrf t.prf_output) (l.spend t.prf_output).spent
    rw [spend_spent, if_pos hfresh]
    exact h.spent.record t.prf_output

theorem registered (h : Represents m l) {request : RegistrationRequest}
    {states : StdVector AccountState} (hnew : m.hasAccount request.account_id = false)
    (hpush : m.account_states_.push_back
      { entry := m.registrationEntry request, balance := 0 } = some states) :
    Represents (m.registered request states) (l.registered request) := by
  have hagree := h.agree.registered hnew hpush
  have hfresh : (l.registrationEntry request).account_id ∉ l.ids := by
    rw [← h.ids, ← hasAccount_iff h.agree]
    exact ne_true_of_eq_false hnew
  have hentry : m.registrationEntry request = l.registrationEntry request := by
    rw [PlaintextModel.registrationEntry, h.current_epoch]
    rfl
  rw [AbstractLedger.registered, ← h.current_epoch]
  refine represents_issueRoot (l := l.openAccount (l.registrationEntry request))
    ?_ (.registered m request states) hagree ?_ ?_
  · rw [openAccount_issued]
    exact h.issued
  · rw [openAccount_records, if_pos hfresh, ← h.accounts, ← hentry]
    exact StdVector.push_back_eq_some hpush
  · rw [openAccount_spent]
    exact h.spent

theorem enterEpoch (h : Represents m l) {epoch : EpochNumber} (hne : m.current_epoch_ ≠ epoch) :
    Represents (m.enterEpoch epoch) (l.enter epoch) :=
  represents_issueRoot (l := { l with spent := [], once := List.nodup_nil }) h.issued
    (.enterEpoch hne) (h.agree.enterEpoch epoch) h.accounts ⟨rfl, rfl⟩

theorem advancedBy (h : Represents m l) (n : Nat) :
    Represents (m.advancedBy n) (l.advanceBy n) := by
  induction n with
  | zero => exact h
  | succ n ih =>
    rw [advancedBy_succ, nextEpoch, advanceBy, ← ih.current_epoch]
    exact ih.enterEpoch (Word.add_one_ne_self _).symm

theorem insertedEntry (h : Represents m l) {entry : PrivateAccountEntry}
    {states : StdVector AccountState}
    (hnew : m.account_indices_.lookup entry.account_id = none)
    (hpush : m.account_states_.push_back { entry := entry, balance := 0 } = some states) :
    Represents (m.insertedEntry entry states) (l.openAccount entry) := by
  have hfresh : entry.account_id ∉ l.ids := by
    rw [← h.ids]
    exact h.agree.indexes.not_mem hnew
  refine ⟨h.agree.insertedEntry hnew hpush, ?_, ?_, ?_⟩
  · rw [openAccount_records, if_pos hfresh, ← h.accounts]
    exact StdVector.push_back_eq_some hpush
  · rw [openAccount_issued]
    exact h.issued.stay (.insertedEntry m entry states)
  · rw [openAccount_spent]
    exact h.spent

theorem replacedEntry (h : Represents m l) {entry : PrivateAccountEntry} {index : UInt64}
    (hindex : m.account_indices_.lookup entry.account_id = some index) :
    Represents (m.replacedEntry index entry) (l.replaceEntry entry) := by
  refine ⟨(h.agree.replacedEntry hindex).1, ?_, h.issued.stay (.replacedEntry m index entry),
    h.spent⟩
  have hid := (h.agree.indexes _ _).mp hindex
  have hnodup := h.agree.indexes.nodup
  rw [replaceEntry_records, ← h.accounts]
  apply List.ext_getElem?
  intro j
  rw [List.getElem?_map]
  show (m.account_states_.toList.modify index.toNat _)[j]? = _
  rw [List.getElem?_modify]
  cases hstate : m.account_states_.toList[j]? with
  | none => rfl
  | some state =>
    have hj : m.ids[j]? = some (idOf state) := by
      rw [PlaintextModel.ids, List.getElem?_map, hstate]
      rfl
    by_cases hij : index.toNat = j
    · -- the position of the id
      rw [hij, hj, Option.some.injEq] at hid
      simp [hij, hid]
    · -- another position has another id
      have hother : idOf state ≠ entry.account_id := by
        intro heq
        rw [heq] at hj
        have hlt := (List.getElem?_eq_some_iff.mp hid).1
        exact hij ((List.getElem?_inj hlt hnodup).mp (hid.trans hj.symm))
      simp [hij, hother]

end Represents

/-! ### Refusals -/

theorem validateTransactionId_eq (transaction_id : StdString) :
    validateTransactionId transaction_id =
      firstFailure [(!transaction_id.isEmpty, "transaction_id must not be empty")] := by
  unfold validateTransactionId
  cases transaction_id.isEmpty <;> rfl

theorem validateAccountId_eq (account_id : StdString) :
    validateAccountId account_id =
      firstFailure [(!account_id.isEmpty, "account_id must not be empty")] := by
  unfold validateAccountId
  cases account_id.isEmpty <;> rfl

namespace Represents

variable {m : PlaintextModel} {l : AbstractLedger}

/-- A mint is refused with the text of the first check that fails. -/
theorem mint_refused (h : Represents m l) {t : PublicToPrivateMint}
    (hrefused : (firstFailure (l.mintChecks t)).ok = false) :
    m.mint t =
      ({ root := l.current_root, status := firstFailure (l.mintChecks t) }, m) := by
  unfold PlaintextModel.mint
  rw [mintChecks, firstFailure_append, firstFailure_append] at hrefused ⊢
  rw [validateTransactionId_eq, h.hasIndex, h.rootStatus, h.isFresh, h.current_root]
  -- the exits in the order of the source
  cases hid : t.transaction_id.isEmpty with
  | true => rfl
  | false =>
    cases hindex : l.hasIndex t.recipient_index with
    | false => rfl
    | true =>
      cases hroot : (firstFailure (l.rootChecks t.referenced_root)).ok with
      | false => simp [hroot]
      | true =>
        cases hfresh : l.isFresh t.prf_output with
        | false => simp [hroot]
        | true => simp [hid, hindex, hroot, hfresh] at hrefused

theorem mintAdmissible (h : Represents m l) (t : PublicToPrivateMint) :
    m.mintAdmissible t = (firstFailure (l.mintChecks t)).ok := by
  unfold PlaintextModel.mintAdmissible
  rw [mintChecks, firstFailure_append, firstFailure_append, validateTransactionId_eq, h.hasIndex,
    h.rootStatus, h.isFresh]
  cases t.transaction_id.isEmpty with
  | true => rfl
  | false =>
    cases l.hasIndex t.recipient_index with
    | false => rfl
    | true => cases hroot : (firstFailure (l.rootChecks t.referenced_root)).ok <;> simp [hroot]

theorem exec_mint (h : Represents m l) (t : PublicToPrivateMint) :
    (m.exec (.mint t)).1 = (l.exec (.mint t)).1 ∧
      Represents (m.exec (.mint t)).2 (l.exec (.mint t)).2 := by
  simp only [exec, AbstractLedger.exec]
  cases hok : (firstFailure (l.mintChecks t)).ok with
  | false =>
    rw [h.mint_refused hok]
    simp [h]
  | true =>
    have hadm : m.mintAdmissible t = true := by rw [h.mintAdmissible, hok]
    obtain ⟨_, _, _, hfresh⟩ := mintChecks_ok.mp hok
    have hminted := h.minted hadm hfresh
    rw [mint_of_admissible hadm]
    simp [hminted, hminted.current_root, hminted.balance]

/-- So is a transfer, and it reports balances only when it overspends. -/
theorem transfer_refused (h : Represents m l) {t : PrivateTransfer}
    (hrefused : (firstFailure (l.transferChecks t)).ok = false) :
    m.transfer t =
      ({ root := l.current_root, status := firstFailure (l.transferChecks t) }, m) := by
  unfold PlaintextModel.transfer
  rw [transferChecks, firstFailure_append, firstFailure_append] at hrefused ⊢
  rw [validateTransactionId_eq, h.hasIndex, h.hasIndex, h.rootStatus, h.isFresh, h.current_root]
  -- the exits in the order of the source
  cases hid : t.transaction_id.isEmpty with
  | true => rfl
  | false =>
    cases hsender : l.hasIndex t.sender_index with
    | false => rfl
    | true =>
      cases hreceiver : l.hasIndex t.receiver_index with
      | false => rfl
      | true =>
        cases hroot : (firstFailure (l.rootChecks t.referenced_root)).ok with
        | false => simp [hroot]
        | true =>
          cases hfresh : l.isFresh t.prf_output with
          | false => simp [hroot]
          | true => simp [hid, hsender, hreceiver, hroot, hfresh] at hrefused

theorem transferAdmissible (h : Represents m l) (t : PrivateTransfer) :
    m.transferAdmissible t =
      ((firstFailure (l.transferChecks t)).ok && !decide (l.balance t.sender_index < t.value)) := by
  unfold PlaintextModel.transferAdmissible
  rw [transferChecks, firstFailure_append, firstFailure_append, validateTransactionId_eq,
    h.hasIndex, h.hasIndex, h.rootStatus, h.isFresh, h.balance]
  cases t.transaction_id.isEmpty with
  | true => rfl
  | false =>
    cases l.hasIndex t.sender_index with
    | false => rfl
    | true =>
      cases l.hasIndex t.receiver_index with
      | false => rfl
      | true => cases hroot : (firstFailure (l.rootChecks t.referenced_root)).ok <;> simp [hroot]

/-- All checks are passed, but the sender has too little. -/
theorem transfer_overspent (h : Represents m l) {t : PrivateTransfer}
    (hok : (firstFailure (l.transferChecks t)).ok = true)
    (hover : l.balance t.sender_index < t.value) :
    m.transfer t =
      ({ root := l.current_root
         sender_balance := l.balance t.sender_index
         receiver_balance := l.balance t.receiver_index
         status := ⟨false, "overspend rejected"⟩ }, m) := by
  obtain ⟨hnamed, hsender, hreceiver, hroot, hfresh⟩ := transferChecks_ok.mp hok
  have hid : (!t.transaction_id.isEmpty) = true := by simpa using hnamed
  unfold PlaintextModel.transfer
  rw [validateTransactionId_eq, h.hasIndex, h.hasIndex, h.rootStatus, h.isFresh, h.current_root,
    h.balance, h.balance]
  simp only [hid, hsender, hreceiver, hroot, hfresh, hover, firstFailure_cons_true,
    firstFailure_nil, okStatus_ok, Bool.not_true, Bool.false_eq_true, if_false, if_true]

theorem exec_transfer (h : Represents m l) (t : PrivateTransfer) :
    (m.exec (.transfer t)).1 = (l.exec (.transfer t)).1 ∧
      Represents (m.exec (.transfer t)).2 (l.exec (.transfer t)).2 := by
  simp only [exec, AbstractLedger.exec]
  cases hok : (firstFailure (l.transferChecks t)).ok with
  | false =>
    rw [h.transfer_refused hok]
    simp [h]
  | true =>
    by_cases hover : l.balance t.sender_index < t.value
    · rw [h.transfer_overspent hok hover]
      simp [hover, h]
    · have hadm : m.transferAdmissible t = true := by simp [h.transferAdmissible, hok, hover]
      obtain ⟨_, _, _, _, hfresh⟩ := transferChecks_ok.mp hok
      have htransferred := h.transferred hadm hfresh
      rw [transfer_of_admissible hadm]
      simp [hover, htransferred, htransferred.current_root, htransferred.balance]

theorem register_refused (h : Represents m l) {request : RegistrationRequest}
    (hrefused : (firstFailure (l.registerChecks request)).ok = false) :
    m.register request =
      some ({ account_index := {}
              entry := {}
              root := l.current_root
              status := firstFailure (l.registerChecks request) }, m) := by
  have hknown : m.hasAccount request.account_id = decide (request.account_id ∈ l.ids) := by
    rw [Bool.eq_iff_iff, hasAccount_iff h.agree, h.ids, decide_eq_true_eq]
  unfold PlaintextModel.register registerChecks at *
  rw [validateAccountId_eq, hknown, h.current_root]
  cases hid : request.account_id.isEmpty with
  | true => rfl
  | false =>
    by_cases hmem : request.account_id ∈ l.ids
    · simp [hmem]
    · simp [hid, hmem] at hrefused

/-- There is room exactly when the vector can grow. -/
theorem hasRoom (h : Represents m l) (state : AccountState) :
    (m.account_states_.push_back state).isSome = l.hasRoom := by
  have hle := m.account_states_.length_le
  rw [Bool.eq_iff_iff, Option.isSome_iff_ne_none, ne_eq, StdVector.push_back_eq_none,
    AbstractLedger.hasRoom, decide_eq_true_eq, ← h.accounts]
  omega

/-- The entry at the end of the ledger after a registration. -/
theorem registered_entry (h : Represents m l) {request : RegistrationRequest}
    {states : StdVector AccountState}
    (hfresh : (l.registrationEntry request).account_id ∉ l.ids)
    (hregistered : Represents (m.registered request states) (l.registered request)) :
    (m.registered request states).account_states_.at_index m.account_states_.size =
      stamp (l.registered request).current_root { entry := l.registrationEntry request } := by
  apply StdVector.at_index_of_getElem?
  rw [StdVector.toNat_size, hregistered.accounts, h.accounts, AbstractLedger.registered]
  show (List.map _ (l.openAccount _).accounts.records)[_]? = _
  rw [openAccount_records, if_pos hfresh, List.map_append, List.map_singleton,
    List.getElem?_append_right (by simp), List.length_map, Nat.sub_self, openAccount_issued]
  simp [AbstractLedger.current_root, issue_issued]

theorem exec_register (h : Represents m l) (request : RegistrationRequest) :
    (m.exec (.register request)).1 = (l.exec (.register request)).1 ∧
      Represents (m.exec (.register request)).2 (l.exec (.register request)).2 := by
  simp only [exec, AbstractLedger.exec]
  cases hok : (firstFailure (l.registerChecks request)).ok with
  | false =>
    rw [h.register_refused hok]
    simp [h]
  | true =>
    obtain ⟨hid, hfresh⟩ := registerChecks_ok.mp hok
    have hnew : m.hasAccount request.account_id = false := by
      rw [← Bool.not_eq_true, hasAccount_iff h.agree, h.ids]
      exact hfresh
    rw [register_of_fresh hid hnew, ← h.hasRoom { entry := m.registrationEntry request }]
    cases hpush : m.account_states_.push_back { entry := m.registrationEntry request } with
    | none => simp [h]
    | some states =>
      have hregistered := h.registered hnew hpush
      have hsize : m.account_states_.size = UInt64.ofNat l.accounts.records.length := by
        rw [StdVector.size, h.accounts]
      have hentry := h.registered_entry hfresh hregistered
      rw [hsize] at hentry
      simp only [Option.map_some, Option.isSome_some, if_true, Bool.not_true, Bool.false_eq_true,
        if_false, hsize, hentry, hregistered.current_root, hregistered, and_true]

theorem exec_upsertAccount (h : Represents m l) (entry : PrivateAccountEntry) :
    (m.exec (.upsertAccount entry)).1 = (l.exec (.upsertAccount entry)).1 ∧
      Represents (m.exec (.upsertAccount entry)).2 (l.exec (.upsertAccount entry)).2 := by
  simp only [exec, AbstractLedger.exec]
  by_cases hid : entry.account_id = []
  · have hrefused : m.upsertAccount entry =
        some (⟨false, "account_id must not be empty"⟩, m) := by
      unfold upsertAccount validateAccountId
      rw [hid]
      rfl
    rw [hrefused, if_pos hid]
    exact ⟨rfl, h⟩
  · rw [if_neg hid]
    cases hindex : m.account_indices_.lookup entry.account_id with
    | some index =>
      have hmem : entry.account_id ∈ l.ids := by
        rw [← h.ids]
        exact List.mem_of_getElem? ((h.agree.indexes _ _).mp hindex)
      rw [upsertAccount_of_known hid hindex, if_pos hmem]
      exact ⟨rfl, h.replacedEntry hindex⟩
    | none =>
      have hfresh : entry.account_id ∉ l.ids := by
        rw [← h.ids]
        exact h.agree.indexes.not_mem hindex
      rw [upsertAccount_of_unknown hid hindex, if_neg hfresh, ← h.hasRoom { entry := entry }]
      cases hpush : m.account_states_.push_back { entry := entry } with
      | none => exact ⟨rfl, h⟩
      | some states => exact ⟨rfl, h.insertedEntry hindex hpush⟩

theorem advanceTo (h : Represents m l) (epoch : EpochNumber) :
    Represents (m.advancedBy (epoch.toNat - m.current_epoch_.toNat)) (l.advanceTo epoch) := by
  rw [AbstractLedger.advanceTo, ← h.current_epoch]
  exact h.advancedBy _

theorem exec_advanceEpoch (h : Represents m l) :
    (m.exec .advanceEpoch).1 = (l.exec .advanceEpoch).1 ∧
      Represents (m.exec .advanceEpoch).2 (l.exec .advanceEpoch).2 := by
  simp only [exec, AbstractLedger.exec]
  rw [← h.current_epoch]
  by_cases hmax : m.current_epoch_ = -1
  · rw [advanceEpoch_refused hmax, if_pos hmax]
    exact ⟨rfl, h⟩
  · rw [advanceEpoch_of_room hmax, if_neg hmax]
    exact ⟨rfl, h.enterEpoch (Word.add_one_ne_self _).symm⟩

theorem exec_advanceToEpoch (h : Represents m l) (epoch : EpochNumber) :
    (m.exec (.advanceToEpoch epoch)).1 = (l.exec (.advanceToEpoch epoch)).1 ∧
      Represents (m.exec (.advanceToEpoch epoch)).2 (l.exec (.advanceToEpoch epoch)).2 := by
  simp only [exec, AbstractLedger.exec]
  rw [← h.current_epoch]
  by_cases hback : epoch < m.current_epoch_
  · rw [advanceToEpoch_refused hback, if_pos hback]
    exact ⟨rfl, h⟩
  · rw [advanceToEpoch_of_le (UInt64.not_lt.mp hback), if_neg hback]
    exact ⟨rfl, h.advanceTo epoch⟩

theorem exec_set_current_epoch (h : Represents m l) (epoch : EpochNumber) :
    (m.exec (.set_current_epoch epoch)).1 = (l.exec (.set_current_epoch epoch)).1 ∧
      Represents (m.exec (.set_current_epoch epoch)).2 (l.exec (.set_current_epoch epoch)).2 := by
  simp only [exec, AbstractLedger.exec]
  rw [← h.current_epoch]
  by_cases hback : epoch < m.current_epoch_
  · rw [set_current_epoch_of_lt hback, if_pos hback]
    exact ⟨rfl, h.enterEpoch (UInt64.ne_of_lt hback).symm⟩
  · rw [set_current_epoch_of_le (UInt64.not_lt.mp hback),
      advanceToEpoch_of_le (UInt64.not_lt.mp hback), if_neg hback]
    exact ⟨rfl, h.advanceTo epoch⟩

/-- Every call is answered alike, and keeps the representation. -/
theorem exec (h : Represents m l) (call : Call) :
    (m.exec call).1 = (l.exec call).1 ∧ Represents (m.exec call).2 (l.exec call).2 := by
  cases call with
  | register request => exact h.exec_register request
  | upsertAccount entry => exact h.exec_upsertAccount entry
  | mint t => exact h.exec_mint t
  | transfer t => exact h.exec_transfer t
  | advanceEpoch => exact h.exec_advanceEpoch
  | advanceToEpoch epoch => exact h.exec_advanceToEpoch epoch
  | set_current_epoch epoch => exact h.exec_set_current_epoch epoch

end Represents

/-! ### Runs -/

theorem create_represents : Represents create opened where
  agree := create_agree
  accounts := rfl
  issued := ⟨[create], rfl, create_rootHistory, rfl, by
    rw [epochRoots, currentStretch_singleton]
    exact (currentStretch_singleton _ _).symm⟩
  spent := ⟨rfl, rfl⟩

/-- The ledger follows the model call by call. -/
theorem follows : Machine.Follows machine AbstractLedger.machine (fun _ _ => True) some Represents
    fun _ => Eq :=
  Machine.follows_of_total (f := id) create_represents fun _ _ call _ h => h.exec call

theorem run_represents (calls : List Call) :
    Represents (machine.final calls) (AbstractLedger.machine.final calls) := by
  have hfinal := follows.final (machine.along_true calls)
  rwa [List.filterMap_some] at hfinal

end PlaintextModel

end Prifhete
