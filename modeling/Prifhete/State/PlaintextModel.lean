import Prifhete.Common.Types
import Prifhete.Lib.Word
import Mathlib.Data.Finset.Insert

/-! # The plaintext oracle model

    `PlaintextModel` member by member. A member function that changes the
    model takes it as an argument and returns it next to its result; one
    that can meet the `std::length_error` of the account vector returns
    `none` for it, having written nothing.
-/

namespace Prifhete

namespace PlaintextModel

/-- `static_cast<std::size_t>(-1)`. -/
def kInvalidIndexValue : UInt64 := -1

@[ext] structure AccountIndex where
  value : UInt64 := kInvalidIndexValue
  deriving DecidableEq, Repr

structure RootVersion where
  value : UInt64 := 0
  deriving DecidableEq, Repr

structure RootReference where
  root : MerkleRoot := {}
  epoch : EpochNumber := 0
  version : RootVersion := {}
  deriving DecidableEq, Repr

structure RegistrationRequest where
  account_id : StdString
  public_key : PrivateAccountPK
  deriving DecidableEq, Repr

structure RegistrationResult where
  account_index : AccountIndex
  entry : PrivateAccountEntry
  root : RootReference
  status : Status
  deriving DecidableEq, Repr

structure PublicToPrivateMint where
  transaction_id : StdString
  recipient_index : AccountIndex
  value : UInt64 := 0
  prf_output : PRFOutput
  referenced_root : RootReference
  deriving DecidableEq, Repr

structure MintResult where
  root : RootReference
  recipient_balance : UInt64 := 0
  status : Status
  deriving DecidableEq, Repr

structure PrivateTransfer where
  transaction_id : StdString
  sender_index : AccountIndex
  receiver_index : AccountIndex
  value : UInt64 := 0
  prf_output : PRFOutput
  referenced_root : RootReference
  deriving DecidableEq, Repr

structure TransferResult where
  root : RootReference
  sender_balance : UInt64 := 0
  receiver_balance : UInt64 := 0
  status : Status
  deriving DecidableEq, Repr

structure EpochStateView where
  current_epoch : EpochNumber := 0
  current_root_version : RootVersion
  current_root : RootReference
  accepted_prf_output_count : Nat := 0
  used_prf_output_count : Nat := 0
  deriving DecidableEq, Repr

structure AccountState where
  entry : PrivateAccountEntry := {}
  balance : UInt64 := 0
  deriving DecidableEq, Repr, Inhabited

structure RootRecord where
  reference : RootReference
  deriving DecidableEq, Repr

def kRootValidityWindow : EpochNumber := 1

end PlaintextModel

open PlaintextModel in
/-- The data members of the class. -/
@[ext] structure PlaintextModel where
  accounts_ : UnorderedMap StdString PrivateAccountEntry := ∅
  account_states_ : StdVector AccountState := .empty
  account_indices_ : UnorderedMap StdString UInt64 := ∅
  valid_roots_ : UnorderedMap StdString RootRecord := ∅
  current_epoch_root_keys_ : List StdString := []
  prf_outputs_in_current_epoch_ : Finset StdString := ∅
  accepted_prf_outputs_in_current_epoch_ : List PRFOutput := []
  current_epoch_ : EpochNumber := 0
  root_version_ : RootVersion := {}
  current_root_ : RootReference := {}

namespace PlaintextModel

/-! ### Keys and roots -/

def toKey (bytes : ByteString) : StdString := bytes.map UInt8.toInt8

/-- The text `plaintext-root:e<epoch>:v<root_version>`, both numbers in
    decimal as `operator<<` prints them. -/
def encodeRoot (epoch : EpochNumber) (root_version : RootVersion) : String :=
  "plaintext-root:e" ++ toString epoch.toNat ++ ":v" ++ toString root_version.value.toNat

def makeRoot (epoch : EpochNumber) (root_version : RootVersion) : MerkleRoot :=
  let encoded := StdString.ofAscii (encodeRoot epoch root_version)
  { bytes := encoded.map Int8.toUInt8 }

def allocateNextRoot (m : PlaintextModel) : RootReference × PlaintextModel :=
  let m := { m with root_version_ := { value := m.root_version_.value + 1 } }
  let next_root : RootReference :=
    { epoch := m.current_epoch_
      version := m.root_version_
      root := makeRoot m.current_epoch_ m.root_version_ }
  let key := toKey next_root.root.bytes
  let m := { m with
    valid_roots_ := m.valid_roots_.insert key { reference := next_root }
    current_epoch_root_keys_ := m.current_epoch_root_keys_ ++ [key]
    current_root_ := next_root }
  (next_root, m)

/-- The body of the refresh loop on one element of the account vector. -/
def refreshAccountState (m : PlaintextModel) (state : AccountState) : AccountState :=
  { state with entry := { state.entry with
      epoch := m.current_epoch_
      inclusion_root := m.current_root_.root } }

/-- The loop rewrites each element and then stores its entry in the map. -/
def refreshAllAccountRoots (m : PlaintextModel) : PlaintextModel :=
  let account_states := m.account_states_.map m.refreshAccountState
  { m with
    account_states_ := account_states
    accounts_ := account_states.toList.foldl
      (fun accounts state => accounts.insert state.entry.account_id state.entry) m.accounts_ }

/-- The constructor. -/
def create : PlaintextModel :=
  let m : PlaintextModel := {}
  let (root, m) := m.allocateNextRoot
  { m with current_root_ := root }

/-! ### Accounts -/

def hasAccount (m : PlaintextModel) (account_id : StdString) : Bool :=
  (m.accounts_.lookup account_id).isSome

def validateAccountId (account_id : StdString) : Status :=
  if account_id.isEmpty then ⟨false, "account_id must not be empty"⟩ else okStatus

def validateTransactionId (transaction_id : StdString) : Status :=
  if transaction_id.isEmpty then ⟨false, "transaction_id must not be empty"⟩ else okStatus

def findAccount (m : PlaintextModel) (account_id : StdString) : Option PrivateAccountEntry :=
  m.accounts_.lookup account_id

def isValidAccountIndex (m : PlaintextModel) (account_index : AccountIndex) : Bool :=
  account_index.value != kInvalidIndexValue && account_index.value < m.account_states_.size

/-- The overload of `FindAccount` that takes an index. -/
def findAccountByIndex (m : PlaintextModel) (account_index : AccountIndex) :
    Option PrivateAccountEntry :=
  if m.isValidAccountIndex account_index then
    some (m.account_states_.at_index account_index.value).entry
  else none

def findAccountIndex (m : PlaintextModel) (account_id : StdString) : Option AccountIndex :=
  (m.account_indices_.lookup account_id).map fun index => { value := index }

def upsertAccount (m : PlaintextModel) (entry : PrivateAccountEntry) :
    Option (Status × PlaintextModel) :=
  let account_id_status := validateAccountId entry.account_id
  if !account_id_status.ok then
    some (account_id_status, m)
  else
    match m.findAccountIndex entry.account_id with
    | some existing_index =>
      -- the whole entry is replaced, public key included, and no root is issued
      some (okStatus, { m with
        account_states_ := m.account_states_.modify existing_index.value
          (fun state => { state with entry := entry })
        accounts_ := m.accounts_.insert entry.account_id entry })
    | none =>
      -- `push_back` comes first, so a throw leaves both maps as they were
      let index := m.account_states_.size
      (m.account_states_.push_back { entry := entry, balance := 0 }).map fun account_states =>
        (okStatus, { m with
          account_states_ := account_states
          account_indices_ := m.account_indices_.insert entry.account_id index
          accounts_ := m.accounts_.insert entry.account_id entry })

def register (m : PlaintextModel) (request : RegistrationRequest) :
    Option (RegistrationResult × PlaintextModel) :=
  let account_id_status := validateAccountId request.account_id
  if !account_id_status.ok then
    some ({ account_index := { value := kInvalidIndexValue }
            entry := {}
            root := m.current_root_
            status := account_id_status }, m)
  else if m.hasAccount request.account_id then
    some ({ account_index := { value := kInvalidIndexValue }
            entry := {}
            root := m.current_root_
            status := ⟨false, "account_id already exists"⟩ }, m)
  else
    let entry : PrivateAccountEntry :=
      { account_id := request.account_id
        public_key := request.public_key
        epoch := m.current_epoch_ }
    let index := m.account_states_.size
    (m.account_states_.push_back { entry := entry, balance := 0 }).map fun account_states =>
      -- the entry map gets the new entry from the refresh loop
      let m := { m with
        account_states_ := account_states
        account_indices_ := m.account_indices_.insert entry.account_id index }
      let (root, m) := m.allocateNextRoot
      let m := { m with current_root_ := root }
      let m := m.refreshAllAccountRoots
      ({ account_index := { value := index }
         entry := (m.account_states_.at_index index).entry
         root := m.current_root_
         status := okStatus }, m)

/-! ### Transactions -/

def isRootAcceptableForCurrentEpoch (m : PlaintextModel) (root : RootReference) : Bool :=
  if root.epoch > m.current_epoch_ then false
  else m.current_epoch_ - root.epoch ≤ kRootValidityWindow

def validateReferencedRoot (m : PlaintextModel) (root : RootReference) : Status :=
  match m.valid_roots_.lookup (toKey root.root.bytes) with
  | none => ⟨false, "referenced_root is not known"⟩
  | some record =>
    if record.reference ≠ root then ⟨false, "referenced_root metadata mismatch"⟩
    else if !m.isRootAcceptableForCurrentEpoch root then ⟨false, "referenced_root is stale"⟩
    else okStatus

def validateFreshPrfOutput (m : PlaintextModel) (prf_output : PRFOutput) : Status :=
  if toKey prf_output.bytes ∈ m.prf_outputs_in_current_epoch_ then
    ⟨false, "duplicate PRFOutput in current epoch"⟩
  else okStatus

def recordPrfOutput (m : PlaintextModel) (prf_output : PRFOutput) : Status × PlaintextModel :=
  let freshness_status := m.validateFreshPrfOutput prf_output
  if !freshness_status.ok then (freshness_status, m)
  else
    (okStatus, { m with
      prf_outputs_in_current_epoch_ :=
        insert (toKey prf_output.bytes) m.prf_outputs_in_current_epoch_
      accepted_prf_outputs_in_current_epoch_ :=
        m.accepted_prf_outputs_in_current_epoch_ ++ [prf_output] })

/-- The balance behind the reference `account_states_[index]`. -/
def balanceRef (m : PlaintextModel) (account_index : AccountIndex) : UInt64 :=
  (m.account_states_.at_index account_index.value).balance

/-- An assignment to the balance behind that reference. -/
def updateBalance (m : PlaintextModel) (account_index : AccountIndex) (f : UInt64 → UInt64) :
    PlaintextModel :=
  { m with
    account_states_ := m.account_states_.modify account_index.value
      (fun state => { state with balance := f state.balance }) }

def mint (m : PlaintextModel) (mint : PublicToPrivateMint) : MintResult × PlaintextModel :=
  let transaction_id_status := validateTransactionId mint.transaction_id
  if !transaction_id_status.ok then
    ({ root := m.current_root_, status := transaction_id_status }, m)
  else if !m.isValidAccountIndex mint.recipient_index then
    ({ root := m.current_root_, status := ⟨false, "invalid recipient account index"⟩ }, m)
  else
    let root_status := m.validateReferencedRoot mint.referenced_root
    if !root_status.ok then
      ({ root := m.current_root_, status := root_status }, m)
    else
      let prf_status := m.validateFreshPrfOutput mint.prf_output
      if !prf_status.ok then
        ({ root := m.current_root_, status := prf_status }, m)
      else
        -- recording checks for freshness once more
        let (record_status, m) := m.recordPrfOutput mint.prf_output
        if !record_status.ok then
          ({ root := m.current_root_
             recipient_balance := m.balanceRef mint.recipient_index
             status := record_status }, m)
        else
          -- an unguarded 64-bit addition
          let m := m.updateBalance mint.recipient_index (· + mint.value)
          let (root, m) := m.allocateNextRoot
          let m := { m with current_root_ := root }
          let m := m.refreshAllAccountRoots
          ({ root := m.current_root_
             recipient_balance := m.balanceRef mint.recipient_index
             status := okStatus }, m)

def transfer (m : PlaintextModel) (transfer : PrivateTransfer) :
    TransferResult × PlaintextModel :=
  let transaction_id_status := validateTransactionId transfer.transaction_id
  if !transaction_id_status.ok then
    ({ root := m.current_root_, status := transaction_id_status }, m)
  else if !m.isValidAccountIndex transfer.sender_index then
    ({ root := m.current_root_, status := ⟨false, "invalid sender account index"⟩ }, m)
  else if !m.isValidAccountIndex transfer.receiver_index then
    ({ root := m.current_root_, status := ⟨false, "invalid receiver account index"⟩ }, m)
  else
    let root_status := m.validateReferencedRoot transfer.referenced_root
    if !root_status.ok then
      ({ root := m.current_root_, status := root_status }, m)
    else
      let prf_status := m.validateFreshPrfOutput transfer.prf_output
      if !prf_status.ok then
        ({ root := m.current_root_, status := prf_status }, m)
      else if m.balanceRef transfer.sender_index < transfer.value then
        ({ root := m.current_root_
           sender_balance := m.balanceRef transfer.sender_index
           receiver_balance := m.balanceRef transfer.receiver_index
           status := ⟨false, "overspend rejected"⟩ }, m)
      else
        let (record_status, m) := m.recordPrfOutput transfer.prf_output
        if !record_status.ok then
          ({ root := m.current_root_
             sender_balance := m.balanceRef transfer.sender_index
             receiver_balance := m.balanceRef transfer.receiver_index
             status := record_status }, m)
        else
          -- the two references may be the same element, so the order matters
          let m := m.updateBalance transfer.sender_index (· - transfer.value)
          let m := m.updateBalance transfer.receiver_index (· + transfer.value)
          let (root, m) := m.allocateNextRoot
          let m := { m with current_root_ := root }
          let m := m.refreshAllAccountRoots
          ({ root := m.current_root_
             sender_balance := m.balanceRef transfer.sender_index
             receiver_balance := m.balanceRef transfer.receiver_index
             status := okStatus }, m)

/-! ### Epochs -/

def applyEpochTransition (m : PlaintextModel) (epoch : EpochNumber) : Status × PlaintextModel :=
  let m := { m with
    current_epoch_ := epoch
    prf_outputs_in_current_epoch_ := ∅
    accepted_prf_outputs_in_current_epoch_ := []
    current_epoch_root_keys_ := [] }
  let (root, m) := m.allocateNextRoot
  let m := { m with current_root_ := root }
  let m := m.refreshAllAccountRoots
  (okStatus, m)

def advanceEpoch (m : PlaintextModel) : Status × PlaintextModel :=
  if m.current_epoch_ = -1 then (⟨false, "epoch overflow"⟩, m)
  else m.applyEpochTransition (m.current_epoch_ + 1)

/-- A step of `AdvanceEpoch` that is not refused moves one epoch on. -/
theorem advanceEpoch_epoch {m : PlaintextModel} (hok : m.advanceEpoch.1.ok = true) :
    m.advanceEpoch.2.current_epoch_.toNat = m.current_epoch_.toNat + 1 := by
  unfold advanceEpoch at hok ⊢
  split at hok
  · contradiction
  · next hmax =>
    rw [if_neg hmax]
    exact Word.toNat_add_one hmax

/-- The loop of `AdvanceToEpoch`. -/
def advanceToEpochLoop (epoch : EpochNumber) (m : PlaintextModel) : Status × PlaintextModel :=
  if _hlt : m.current_epoch_ < epoch then
    if _hok : m.advanceEpoch.1.ok = true then advanceToEpochLoop epoch m.advanceEpoch.2
    else m.advanceEpoch
  else (okStatus, m)
termination_by epoch.toNat - m.current_epoch_.toNat
decreasing_by
  have hepoch := advanceEpoch_epoch _hok
  have hbound := UInt64.lt_iff_toNat_lt.mp _hlt
  omega

def advanceToEpoch (m : PlaintextModel) (epoch : EpochNumber) : Status × PlaintextModel :=
  if epoch < m.current_epoch_ then (⟨false, "cannot move epoch backwards"⟩, m)
  else advanceToEpochLoop epoch m

def set_current_epoch (m : PlaintextModel) (epoch : EpochNumber) : PlaintextModel :=
  if epoch = m.current_epoch_ then m
  else if epoch < m.current_epoch_ then
    -- the body of `ApplyEpochTransition`, written out a second time
    let m := { m with
      current_epoch_ := epoch
      prf_outputs_in_current_epoch_ := ∅
      accepted_prf_outputs_in_current_epoch_ := []
      current_epoch_root_keys_ := [] }
    let (root, m) := m.allocateNextRoot
    let m := { m with current_root_ := root }
    m.refreshAllAccountRoots
  else
    let (status, m) := m.advanceToEpoch epoch
    -- the fallback sets the epoch without issuing a root
    if !status.ok then { m with current_epoch_ := epoch } else m

/-! ### Queries -/

def inspectBalance (m : PlaintextModel) (account_index : AccountIndex) : Option UInt64 :=
  if m.isValidAccountIndex account_index then
    some (m.account_states_.at_index account_index.value).balance
  else none

/-- The out parameter is the value behind the pointer, `none` for a null
    pointer; it is returned as the call leaves it. -/
def tryGetBalance (m : PlaintextModel) (account_index : AccountIndex) (balance : Option UInt64) :
    Bool × Option UInt64 :=
  if !m.isValidAccountIndex account_index || balance.isNone then (false, balance)
  else (true, some (m.account_states_.at_index account_index.value).balance)

def account_count (m : PlaintextModel) : UInt64 := m.account_states_.size

def current_root (m : PlaintextModel) : MerkleRoot := m.current_root_.root

def current_root_reference (m : PlaintextModel) : RootReference := m.current_root_

def isValidRoot (m : PlaintextModel) (root : RootReference) : Bool :=
  (m.validateReferencedRoot root).ok

def hasSeenPrfOutputInCurrentEpoch (m : PlaintextModel) (prf_output : PRFOutput) : Bool :=
  toKey prf_output.bytes ∈ m.prf_outputs_in_current_epoch_

def accepted_prf_outputs (m : PlaintextModel) : List PRFOutput :=
  m.accepted_prf_outputs_in_current_epoch_

/-- A key that the root map does not know is skipped. -/
def current_root_versions (m : PlaintextModel) : List RootReference :=
  m.current_epoch_root_keys_.filterMap fun key =>
    (m.valid_roots_.lookup key).map (·.reference)

def inspectEpochState (m : PlaintextModel) : EpochStateView :=
  { current_epoch := m.current_epoch_
    current_root_version := m.current_root_.version
    current_root := m.current_root_
    accepted_prf_output_count := m.accepted_prf_outputs_in_current_epoch_.length
    used_prf_output_count := m.prf_outputs_in_current_epoch_.card }

def current_epoch (m : PlaintextModel) : EpochNumber := m.current_epoch_

end PlaintextModel

end Prifhete
