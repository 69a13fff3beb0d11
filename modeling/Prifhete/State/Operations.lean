import Prifhete.State.PlaintextModel

/-! # What each operation does

    One specification per member function: the condition under which it
    goes through, written with the validation functions of the source, and
    the state it then leaves. An operation that does not go through leaves
    the model as it was. Later modules cite these and unfold no operation.
-/

namespace Prifhete

namespace PlaintextModel

/-! ### Issuing a root -/

/-- The root reference of an epoch and a version. -/
def rootFor (epoch : EpochNumber) (version : RootVersion) : RootReference :=
  { root := makeRoot epoch version, epoch := epoch, version := version }

@[simp] theorem rootFor_root (epoch : EpochNumber) (version : RootVersion) :
    (rootFor epoch version).root = makeRoot epoch version := rfl

@[simp] theorem rootFor_epoch (epoch : EpochNumber) (version : RootVersion) :
    (rootFor epoch version).epoch = epoch := rfl

@[simp] theorem rootFor_version (epoch : EpochNumber) (version : RootVersion) :
    (rootFor epoch version).version = version := rfl

/-- The key under which a root is known. -/
def RootReference.key (root : RootReference) : StdString := toKey root.root.bytes

/-- The root the next allocation returns. -/
def nextRoot (m : PlaintextModel) : RootReference :=
  rootFor m.current_epoch_ { value := m.root_version_.value + 1 }

/-- `current_root_ = AllocateNextRoot(); RefreshAllAccountRoots();` -/
def issueRoot (m : PlaintextModel) : PlaintextModel :=
  let (root, m) := m.allocateNextRoot
  let m := { m with current_root_ := root }
  m.refreshAllAccountRoots

/-- An entry brought up to the current epoch and root of the model. -/
def refreshEntry (m : PlaintextModel) (entry : PrivateAccountEntry) : PrivateAccountEntry :=
  { entry with epoch := m.current_epoch_, inclusion_root := m.current_root_.root }

@[simp] theorem refreshEntry_account_id (m : PlaintextModel) (entry : PrivateAccountEntry) :
    (m.refreshEntry entry).account_id = entry.account_id := rfl

@[simp] theorem refreshEntry_public_key (m : PlaintextModel) (entry : PrivateAccountEntry) :
    (m.refreshEntry entry).public_key = entry.public_key := rfl

section IssueRoot

variable (m : PlaintextModel)

@[simp] theorem issueRoot_current_epoch : m.issueRoot.current_epoch_ = m.current_epoch_ := rfl

@[simp] theorem issueRoot_root_version :
    m.issueRoot.root_version_ = { value := m.root_version_.value + 1 } := rfl

@[simp] theorem issueRoot_current_root : m.issueRoot.current_root_ = m.nextRoot := rfl

@[simp] theorem issueRoot_valid_roots :
    m.issueRoot.valid_roots_ =
      m.valid_roots_.insert m.nextRoot.key { reference := m.nextRoot } := rfl

@[simp] theorem issueRoot_current_epoch_root_keys :
    m.issueRoot.current_epoch_root_keys_ =
      m.current_epoch_root_keys_ ++ [m.nextRoot.key] := rfl

@[simp] theorem issueRoot_prf_outputs :
    m.issueRoot.prf_outputs_in_current_epoch_ = m.prf_outputs_in_current_epoch_ := rfl

@[simp] theorem issueRoot_accepted_prf_outputs :
    m.issueRoot.accepted_prf_outputs_in_current_epoch_ =
      m.accepted_prf_outputs_in_current_epoch_ := rfl

@[simp] theorem issueRoot_account_indices :
    m.issueRoot.account_indices_ = m.account_indices_ := rfl

/-- The refresh touches the entries of the account vector and nothing else in it. -/
@[simp] theorem issueRoot_account_states :
    m.issueRoot.account_states_.toList = m.account_states_.toList.map fun state =>
      { state with entry := m.issueRoot.refreshEntry state.entry } := rfl

theorem issueRoot_accounts :
    m.issueRoot.accounts_ = m.issueRoot.account_states_.toList.foldl
      (fun accounts state => accounts.insert state.entry.account_id state.entry)
      m.accounts_ := rfl

end IssueRoot

/-- Moving to an epoch: what `ApplyEpochTransition` does, and the backward
    branch of `set_current_epoch` once more. -/
def enterEpoch (m : PlaintextModel) (epoch : EpochNumber) : PlaintextModel :=
  issueRoot { m with
    current_epoch_ := epoch
    prf_outputs_in_current_epoch_ := ∅
    accepted_prf_outputs_in_current_epoch_ := []
    current_epoch_root_keys_ := [] }

/-! ### Account indices -/

/-- The reserved value lies beyond any vector, so one comparison decides. -/
theorem isValidAccountIndex_iff {m : PlaintextModel} {account_index : AccountIndex} :
    m.isValidAccountIndex account_index = true ↔
      account_index.value.toNat < m.account_states_.toList.length := by
  have hle := m.account_states_.length_le
  have hsize := m.account_states_.toNat_size
  unfold isValidAccountIndex
  rw [Bool.and_eq_true, bne_iff_ne, decide_eq_true_eq, UInt64.lt_iff_toNat_lt, hsize]
  constructor
  · intro h
    exact h.2
  · intro h
    refine ⟨?_, h⟩
    -- the reserved value would need a vector of more than `maxSize` elements
    intro heq
    have hmax := maxSize_lt
    rw [heq, show kInvalidIndexValue.toNat = 2 ^ 64 - 1 from rfl] at h
    omega

/-- A valid index denotes an element of the account vector. -/
theorem exists_state_of_valid {m : PlaintextModel} {account_index : AccountIndex}
    (h : m.isValidAccountIndex account_index = true) :
    ∃ state, m.account_states_.toList[account_index.value.toNat]? = some state :=
  ⟨_, List.getElem?_eq_getElem (isValidAccountIndex_iff.mp h)⟩

/-- A query that checks the index first reads the account vector. -/
theorem read_at_index {α : Type} (m : PlaintextModel) (account_index : AccountIndex)
    (f : AccountState → α) :
    (if m.isValidAccountIndex account_index then
        some (f (m.account_states_.at_index account_index.value))
      else none) =
      (m.account_states_.toList[account_index.value.toNat]?).map f := by
  split
  · next hvalid =>
    obtain ⟨state, hstate⟩ := exists_state_of_valid hvalid
    rw [StdVector.at_index_of_getElem? hstate, hstate, Option.map_some]
  · next hvalid =>
    rw [isValidAccountIndex_iff, Nat.not_lt] at hvalid
    rw [List.getElem?_eq_none hvalid, Option.map_none]

theorem findAccountByIndex_eq (m : PlaintextModel) (account_index : AccountIndex) :
    m.findAccountByIndex account_index =
      (m.account_states_.toList[account_index.value.toNat]?).map (·.entry) :=
  m.read_at_index account_index (·.entry)

theorem inspectBalance_eq (m : PlaintextModel) (account_index : AccountIndex) :
    m.inspectBalance account_index =
      (m.account_states_.toList[account_index.value.toNat]?).map (·.balance) :=
  m.read_at_index account_index (·.balance)

/-- At a valid index the balance an operation works with is the one shown. -/
theorem inspectBalance_of_valid {m : PlaintextModel} {account_index : AccountIndex}
    (h : m.isValidAccountIndex account_index = true) :
    m.inspectBalance account_index = some (m.balanceRef account_index) := by
  unfold inspectBalance balanceRef
  rw [if_pos h]

/-! ### Validation -/

@[simp] theorem validateAccountId_ok {account_id : StdString} :
    (validateAccountId account_id).ok = true ↔ account_id ≠ [] := by
  unfold validateAccountId
  split <;> simp_all [okStatus]

@[simp] theorem validateTransactionId_ok {transaction_id : StdString} :
    (validateTransactionId transaction_id).ok = true ↔ transaction_id ≠ [] := by
  unfold validateTransactionId
  split <;> simp_all [okStatus]

@[simp] theorem validateFreshPrfOutput_ok {m : PlaintextModel} {prf_output : PRFOutput} :
    (m.validateFreshPrfOutput prf_output).ok = true ↔
      toKey prf_output.bytes ∉ m.prf_outputs_in_current_epoch_ := by
  unfold validateFreshPrfOutput
  split <;> simp_all [okStatus]

/-- The epoch window: the current epoch and the one before it. -/
theorem isRootAcceptableForCurrentEpoch_iff {m : PlaintextModel} {root : RootReference} :
    m.isRootAcceptableForCurrentEpoch root = true ↔
      root.epoch.toNat ≤ m.current_epoch_.toNat ∧
        m.current_epoch_.toNat - root.epoch.toNat ≤ 1 := by
  unfold isRootAcceptableForCurrentEpoch
  split
  · next hgt =>
    have hnat := UInt64.lt_iff_toNat_lt.mp hgt
    simp only [Bool.false_eq_true, false_iff]
    omega
  · next hle =>
    have hle' : root.epoch ≤ m.current_epoch_ := UInt64.not_lt.mp hle
    have hnat := UInt64.le_iff_toNat_le.mp hle'
    -- the subtraction does not wrap
    rw [decide_eq_true_eq, UInt64.le_iff_toNat_le, UInt64.toNat_sub_of_le _ _ hle',
      show kRootValidityWindow.toNat = 1 from rfl]
    exact ⟨fun h => ⟨hnat, h⟩, fun h => h.2⟩

/-- A reference is accepted when it is the one recorded under its key and
    lies inside the window. -/
theorem validateReferencedRoot_ok {m : PlaintextModel} {root : RootReference} :
    (m.validateReferencedRoot root).ok = true ↔
      m.valid_roots_.lookup root.key = some { reference := root } ∧
        m.isRootAcceptableForCurrentEpoch root = true := by
  unfold validateReferencedRoot RootReference.key
  split
  · next hnone => simp [hnone]
  · next record hsome =>
    obtain ⟨reference⟩ := record
    rw [hsome]
    split
    · -- another reference is recorded under the key
      next hne => simp [hne]
    · next heq =>
      split
      · next hstale => simp_all
      · next hfresh => simp_all [okStatus]

/-! ### Recording a PRF output -/

/-- The state after a PRF output has been recorded. -/
def recordedPrf (m : PlaintextModel) (prf_output : PRFOutput) : PlaintextModel :=
  { m with
    prf_outputs_in_current_epoch_ :=
      insert (toKey prf_output.bytes) m.prf_outputs_in_current_epoch_
    accepted_prf_outputs_in_current_epoch_ :=
      m.accepted_prf_outputs_in_current_epoch_ ++ [prf_output] }

/-- After the validation of the PRF output, recording it cannot fail. -/
theorem recordPrfOutput_of_fresh {m : PlaintextModel} {prf_output : PRFOutput}
    (h : (m.validateFreshPrfOutput prf_output).ok = true) :
    m.recordPrfOutput prf_output = (okStatus, m.recordedPrf prf_output) := by
  unfold recordPrfOutput recordedPrf
  simp [h]

/-! ### `Mint` -/

/-- The checks a mint has to pass. -/
def mintAdmissible (m : PlaintextModel) (mint : PublicToPrivateMint) : Bool :=
  (validateTransactionId mint.transaction_id).ok &&
  m.isValidAccountIndex mint.recipient_index &&
  (m.validateReferencedRoot mint.referenced_root).ok &&
  (m.validateFreshPrfOutput mint.prf_output).ok

/-- The state an admitted mint leaves. -/
def minted (m : PlaintextModel) (mint : PublicToPrivateMint) : PlaintextModel :=
  ((m.recordedPrf mint.prf_output).updateBalance mint.recipient_index (· + mint.value)).issueRoot

theorem mintAdmissible_iff {m : PlaintextModel} {mint : PublicToPrivateMint} :
    m.mintAdmissible mint = true ↔
      mint.transaction_id ≠ [] ∧
      m.isValidAccountIndex mint.recipient_index = true ∧
      (m.validateReferencedRoot mint.referenced_root).ok = true ∧
      toKey mint.prf_output.bytes ∉ m.prf_outputs_in_current_epoch_ := by
  simp only [mintAdmissible, Bool.and_eq_true, validateTransactionId_ok,
    validateFreshPrfOutput_ok, and_assoc]

theorem mint_of_admissible {m : PlaintextModel} {mint : PublicToPrivateMint}
    (h : m.mintAdmissible mint = true) :
    m.mint mint =
      ({ root := current_root_ (m.minted mint)
         recipient_balance := (m.minted mint).balanceRef mint.recipient_index
         status := okStatus }, m.minted mint) := by
  simp only [mintAdmissible, Bool.and_eq_true] at h
  obtain ⟨⟨⟨hid, hindex⟩, hroot⟩, hprf⟩ := h
  unfold PlaintextModel.mint
  -- every early exit is closed by one of the checks
  rw [recordPrfOutput_of_fresh hprf]
  simp only [hid, hindex, hroot, hprf, Bool.not_true, Bool.false_eq_true, if_false, okStatus_ok]
  rfl

theorem mint_refused {m : PlaintextModel} {mint : PublicToPrivateMint}
    (h : m.mintAdmissible mint = false) :
    ∃ result, m.mint mint = (result, m) ∧ result.status.ok = false ∧
      result.root = m.current_root_ := by
  unfold PlaintextModel.mint
  -- the exits in the order of the source
  simp only [Bool.not_eq_true']
  split
  · next hid => exact ⟨_, rfl, hid, rfl⟩
  split
  · exact ⟨_, rfl, rfl, rfl⟩
  split
  · next hroot => exact ⟨_, rfl, hroot, rfl⟩
  split
  · next hprf => exact ⟨_, rfl, hprf, rfl⟩
  -- every check has been passed
  · next hid hindex hroot hprf => simp_all [mintAdmissible]

/-! ### `Transfer` -/

/-- The checks a transfer has to pass. -/
def transferAdmissible (m : PlaintextModel) (transfer : PrivateTransfer) : Bool :=
  (validateTransactionId transfer.transaction_id).ok &&
  m.isValidAccountIndex transfer.sender_index &&
  m.isValidAccountIndex transfer.receiver_index &&
  (m.validateReferencedRoot transfer.referenced_root).ok &&
  (m.validateFreshPrfOutput transfer.prf_output).ok &&
  !decide (m.balanceRef transfer.sender_index < transfer.value)

/-- The state an admitted transfer leaves. -/
def transferred (m : PlaintextModel) (transfer : PrivateTransfer) : PlaintextModel :=
  (((m.recordedPrf transfer.prf_output).updateBalance transfer.sender_index
    (· - transfer.value)).updateBalance transfer.receiver_index (· + transfer.value)).issueRoot

theorem transferAdmissible_iff {m : PlaintextModel} {transfer : PrivateTransfer} :
    m.transferAdmissible transfer = true ↔
      transfer.transaction_id ≠ [] ∧
      m.isValidAccountIndex transfer.sender_index = true ∧
      m.isValidAccountIndex transfer.receiver_index = true ∧
      (m.validateReferencedRoot transfer.referenced_root).ok = true ∧
      toKey transfer.prf_output.bytes ∉ m.prf_outputs_in_current_epoch_ ∧
      transfer.value ≤ m.balanceRef transfer.sender_index := by
  simp only [transferAdmissible, Bool.and_eq_true, validateTransactionId_ok,
    validateFreshPrfOutput_ok, Bool.not_eq_true', decide_eq_false_iff_not, UInt64.not_lt,
    and_assoc]

theorem transfer_of_admissible {m : PlaintextModel} {transfer : PrivateTransfer}
    (h : m.transferAdmissible transfer = true) :
    m.transfer transfer =
      ({ root := current_root_ (m.transferred transfer)
         sender_balance := (m.transferred transfer).balanceRef transfer.sender_index
         receiver_balance := (m.transferred transfer).balanceRef transfer.receiver_index
         status := okStatus }, m.transferred transfer) := by
  simp only [transferAdmissible, Bool.and_eq_true, Bool.not_eq_true', decide_eq_false_iff_not] at h
  obtain ⟨⟨⟨⟨⟨hid, hsender⟩, hreceiver⟩, hroot⟩, hprf⟩, hfunds⟩ := h
  unfold PlaintextModel.transfer
  rw [recordPrfOutput_of_fresh hprf]
  simp only [hid, hsender, hreceiver, hroot, hprf, hfunds, Bool.not_true, Bool.false_eq_true,
    if_false, okStatus_ok]
  rfl

theorem transfer_refused {m : PlaintextModel} {transfer : PrivateTransfer}
    (h : m.transferAdmissible transfer = false) :
    ∃ result, m.transfer transfer = (result, m) ∧ result.status.ok = false ∧
      result.root = m.current_root_ := by
  unfold PlaintextModel.transfer
  -- the exits in the order of the source
  simp only [Bool.not_eq_true']
  split
  · next hid => exact ⟨_, rfl, hid, rfl⟩
  split
  · exact ⟨_, rfl, rfl, rfl⟩
  split
  · exact ⟨_, rfl, rfl, rfl⟩
  split
  · next hroot => exact ⟨_, rfl, hroot, rfl⟩
  split
  · next hprf => exact ⟨_, rfl, hprf, rfl⟩
  split
  · exact ⟨_, rfl, rfl, rfl⟩
  -- every check has been passed
  · next hid hsender hreceiver hroot hprf hfunds => simp_all [transferAdmissible]

/-! ### `Register` and `UpsertAccount` -/

/-- The entry `Register` builds from a request. -/
def registrationEntry (m : PlaintextModel) (request : RegistrationRequest) :
    PrivateAccountEntry :=
  { account_id := request.account_id
    public_key := request.public_key
    epoch := m.current_epoch_ }

/-- The state a registration leaves once `states` is the grown vector. -/
def registered (m : PlaintextModel) (request : RegistrationRequest)
    (states : StdVector AccountState) : PlaintextModel :=
  issueRoot { m with
    account_states_ := states
    account_indices_ := m.account_indices_.insert request.account_id m.account_states_.size }

/-- A registration of a fresh id grows the vector, or throws on a full one. -/
theorem register_of_fresh {m : PlaintextModel} {request : RegistrationRequest}
    (hid : request.account_id ≠ []) (hnew : m.hasAccount request.account_id = false) :
    m.register request =
      (m.account_states_.push_back { entry := m.registrationEntry request, balance := 0 }).map
        fun states =>
          ({ account_index := { value := m.account_states_.size }
             entry := ((m.registered request states).account_states_.at_index
               m.account_states_.size).entry
             root := current_root_ (m.registered request states)
             status := okStatus }, m.registered request states) := by
  unfold register
  simp only [validateAccountId_ok.mpr hid, hnew, Bool.not_true, Bool.false_eq_true, if_false]
  rfl

theorem register_refused {m : PlaintextModel} {request : RegistrationRequest}
    (h : request.account_id = [] ∨ m.hasAccount request.account_id = true) :
    ∃ result, m.register request = some (result, m) ∧ result.status.ok = false ∧
      result.root = m.current_root_ := by
  unfold register
  simp only [Bool.not_eq_true']
  split
  · next hid => exact ⟨_, rfl, hid, rfl⟩
  split
  · exact ⟨_, rfl, rfl, rfl⟩
  -- neither exit has been taken, against the hypothesis
  · next hid hnew =>
    rw [Bool.not_eq_false, validateAccountId_ok] at hid
    rcases h with h | h
    · exact absurd h hid
    · exact absurd h hnew

/-- The state after the entry of an account that exists has been replaced. -/
def replacedEntry (m : PlaintextModel) (index : UInt64) (entry : PrivateAccountEntry) :
    PlaintextModel :=
  { m with
    account_states_ := m.account_states_.modify index (fun state => { state with entry := entry })
    accounts_ := m.accounts_.insert entry.account_id entry }

/-- The state after a new entry has been stored at the end of the vector. -/
def insertedEntry (m : PlaintextModel) (entry : PrivateAccountEntry)
    (states : StdVector AccountState) : PlaintextModel :=
  { m with
    account_states_ := states
    account_indices_ := m.account_indices_.insert entry.account_id m.account_states_.size
    accounts_ := m.accounts_.insert entry.account_id entry }

theorem upsertAccount_refused {m : PlaintextModel} {entry : PrivateAccountEntry}
    (h : entry.account_id = []) :
    ∃ status, m.upsertAccount entry = some (status, m) ∧ status.ok = false := by
  refine ⟨validateAccountId entry.account_id, ?_, ?_⟩
  · unfold upsertAccount
    simp [h, validateAccountId]
  · simp [h, validateAccountId]

theorem upsertAccount_of_known {m : PlaintextModel} {entry : PrivateAccountEntry} {index : UInt64}
    (hid : entry.account_id ≠ []) (h : m.account_indices_.lookup entry.account_id = some index) :
    m.upsertAccount entry = some (okStatus, m.replacedEntry index entry) := by
  unfold upsertAccount findAccountIndex
  simp only [validateAccountId_ok.mpr hid, h, Bool.not_true, Bool.false_eq_true, if_false]
  rfl

theorem upsertAccount_of_unknown {m : PlaintextModel} {entry : PrivateAccountEntry}
    (hid : entry.account_id ≠ []) (h : m.account_indices_.lookup entry.account_id = none) :
    m.upsertAccount entry =
      (m.account_states_.push_back { entry := entry, balance := 0 }).map
        fun states => (okStatus, m.insertedEntry entry states) := by
  unfold upsertAccount findAccountIndex
  simp only [validateAccountId_ok.mpr hid, h, Bool.not_true, Bool.false_eq_true, if_false]
  rfl

/-! ### Epoch changes -/

@[simp] theorem enterEpoch_current_epoch (m : PlaintextModel) (epoch : EpochNumber) :
    (m.enterEpoch epoch).current_epoch_ = epoch := rfl

/-- The step to the following epoch. -/
def nextEpoch (m : PlaintextModel) : PlaintextModel := m.enterEpoch (m.current_epoch_ + 1)

/-- `n` such steps. -/
def advancedBy (m : PlaintextModel) (n : Nat) : PlaintextModel := nextEpoch^[n] m

@[simp] theorem advancedBy_zero (m : PlaintextModel) : m.advancedBy 0 = m := rfl

theorem advancedBy_succ (m : PlaintextModel) (n : Nat) :
    m.advancedBy (n + 1) = (m.advancedBy n).nextEpoch := Function.iterate_succ_apply' ..

theorem advancedBy_succ' (m : PlaintextModel) (n : Nat) :
    m.advancedBy (n + 1) = m.nextEpoch.advancedBy n := rfl

theorem advanceEpoch_of_room {m : PlaintextModel} (h : m.current_epoch_ ≠ -1) :
    m.advanceEpoch = (okStatus, m.nextEpoch) := by
  unfold advanceEpoch
  rw [if_neg h]
  rfl

theorem advanceEpoch_refused {m : PlaintextModel} (h : m.current_epoch_ = -1) :
    m.advanceEpoch = (⟨false, "epoch overflow"⟩, m) := by
  unfold advanceEpoch
  rw [if_pos h]

/-- The epoch `n` steps on, as long as it exists. -/
theorem advancedBy_current_epoch {m : PlaintextModel} {n : Nat}
    (h : m.current_epoch_.toNat + n < 2 ^ 64) :
    (m.advancedBy n).current_epoch_.toNat = m.current_epoch_.toNat + n := by
  induction n with
  | zero => rfl
  | succ n ih =>
    have hn := ih (by omega)
    rw [advancedBy_succ, nextEpoch, enterEpoch_current_epoch, Word.toNat_add_one, hn]
    · omega
    · -- the bound leaves room for one more step
      intro hmax
      rw [hmax, show (-1 : UInt64).toNat = 2 ^ 64 - 1 from rfl] at hn
      omega

/-- Stepping forward ends in the epoch asked for. -/
theorem advancedBy_reaches {m : PlaintextModel} {epoch : EpochNumber}
    (hle : m.current_epoch_ ≤ epoch) :
    (m.advancedBy (epoch.toNat - m.current_epoch_.toNat)).current_epoch_ = epoch := by
  have hnat := UInt64.le_iff_toNat_le.mp hle
  have hlt := epoch.toNat_lt
  apply UInt64.toNat.inj
  rw [advancedBy_current_epoch (by omega)]
  omega

/-- The loop takes one step per missing epoch and never meets the refusal:
    below its bound the epoch is not the last one. -/
theorem advanceToEpochLoop_eq (epoch : EpochNumber) (m : PlaintextModel) :
    advanceToEpochLoop epoch m =
      (okStatus, m.advancedBy (epoch.toNat - m.current_epoch_.toNat)) := by
  fun_induction advanceToEpochLoop epoch m with
  | case1 m hlt hok ih =>
    -- one pass, and the rest of the loop by induction
    have hmax := Word.ne_max_of_lt hlt
    have hnext : m.advanceEpoch.2 = m.nextEpoch := by rw [advanceEpoch_of_room hmax]
    have hepoch := advanceEpoch_epoch hok
    have hbound := UInt64.lt_iff_toNat_lt.mp hlt
    rw [ih, hepoch, hnext, ← advancedBy_succ']
    congr 2
    omega
  | case2 m hlt hok =>
    -- the early return
    rw [advanceEpoch_of_room (Word.ne_max_of_lt hlt)] at hok
    exact absurd rfl hok
  | case3 m hge =>
    have hbound := UInt64.le_iff_toNat_le.mp (UInt64.not_lt.mp hge)
    rw [Nat.sub_eq_zero_of_le hbound, advancedBy_zero]

theorem advanceToEpoch_of_le {m : PlaintextModel} {epoch : EpochNumber}
    (h : m.current_epoch_ ≤ epoch) :
    m.advanceToEpoch epoch =
      (okStatus, m.advancedBy (epoch.toNat - m.current_epoch_.toNat)) := by
  unfold advanceToEpoch
  rw [if_neg (UInt64.not_lt.mpr h), advanceToEpochLoop_eq]

theorem advanceToEpoch_refused {m : PlaintextModel} {epoch : EpochNumber}
    (h : epoch < m.current_epoch_) :
    m.advanceToEpoch epoch = (⟨false, "cannot move epoch backwards"⟩, m) := by
  unfold advanceToEpoch
  rw [if_pos h]

theorem set_current_epoch_self (m : PlaintextModel) :
    m.set_current_epoch m.current_epoch_ = m := by
  unfold set_current_epoch
  rw [if_pos rfl]

/-- The backward branch repeats the body of `ApplyEpochTransition`. -/
theorem set_current_epoch_of_lt {m : PlaintextModel} {epoch : EpochNumber}
    (h : epoch < m.current_epoch_) : m.set_current_epoch epoch = m.enterEpoch epoch := by
  unfold set_current_epoch
  rw [if_neg (UInt64.ne_of_lt h), if_pos h]
  rfl

/-- The forward branch is `AdvanceToEpoch`; its fallback is never taken. -/
theorem set_current_epoch_of_gt {m : PlaintextModel} {epoch : EpochNumber}
    (h : m.current_epoch_ < epoch) :
    m.set_current_epoch epoch = m.advancedBy (epoch.toNat - m.current_epoch_.toNat) := by
  unfold set_current_epoch
  rw [if_neg (UInt64.ne_of_lt h).symm, if_neg (UInt64.not_lt.mpr (UInt64.le_of_lt h)),
    advanceToEpoch_of_le (UInt64.le_of_lt h)]
  rfl

end PlaintextModel

end Prifhete
