import Prifhete.State.PlaintextModel

/-! # The protocol entry points

    The algorithms of the protocol layer as they stand. `Registration` stores
    an entry in the model and then reports that it is not implemented; the
    transactions only look at the shape of their argument. The model is
    passed along by all of them.
-/

namespace Prifhete

namespace Protocol

structure RegistrationRequest where
  account_id : StdString
  public_key : PrivateAccountPK
  epoch : EpochNumber := 0
  deriving DecidableEq, Repr

structure RegistrationResult where
  entry : PrivateAccountEntry
  status : Status
  deriving DecidableEq, Repr

structure MintResult where
  transaction : MintTx
  status : Status
  deriving DecidableEq, Repr

structure TransferResult where
  transaction : TransferTx
  status : Status
  deriving DecidableEq, Repr

structure ProcessTransactionResult where
  status : Status
  deriving DecidableEq, Repr

/-- The entry `Registration` stores. -/
def RegistrationRequest.entry (request : RegistrationRequest) : PrivateAccountEntry :=
  { account_id := request.account_id
    public_key := request.public_key
    epoch := request.epoch }

/-- `none` is the `std::length_error` of the account vector. -/
def registration (model : PlaintextModel) (request : RegistrationRequest) :
    Option (RegistrationResult × PlaintextModel) :=
  if request.account_id.isEmpty then
    some ({ entry := {}, status := ⟨false, "account_id must not be empty"⟩ }, model)
  else
    (model.upsertAccount request.entry).map fun (status, model) =>
      if !status.ok then ({ entry := {}, status := status }, model)
      else
        ({ entry := request.entry
           status := unimplementedStatus "Registration is not implemented" }, model)

def mint (model : PlaintextModel) (transaction : MintTx) : MintResult × PlaintextModel :=
  if transaction.recipient_account_id.isEmpty then
    ({ transaction := {}
       status := ⟨false, "recipient_account_id must not be empty"⟩ }, model)
  else
    ({ transaction := transaction
       status := unimplementedStatus "Mint is not implemented" }, model)

def transfer (model : PlaintextModel) (transaction : TransferTx) :
    TransferResult × PlaintextModel :=
  if transaction.sender_account_id.isEmpty || transaction.receiver_account_id.isEmpty then
    ({ transaction := {}
       status :=
         ⟨false, "sender_account_id and receiver_account_id must not be empty"⟩ }, model)
  else
    ({ transaction := transaction
       status := unimplementedStatus "Transfer is not implemented" }, model)

def processMintTransaction (model : PlaintextModel) (transaction : MintTx) :
    ProcessTransactionResult × PlaintextModel :=
  let (result, model) := mint model transaction
  ({ status := result.status }, model)

def processTransferTransaction (model : PlaintextModel) (transaction : TransferTx) :
    ProcessTransactionResult × PlaintextModel :=
  let (result, model) := transfer model transaction
  ({ status := result.status }, model)

/-! ### What they leave behind -/

@[simp] theorem processMintTransaction_model (model : PlaintextModel) (transaction : MintTx) :
    (processMintTransaction model transaction).2 = model := by
  show (mint model transaction).2 = model
  unfold mint
  split
  · rfl
  · rfl

@[simp] theorem processTransferTransaction_model (model : PlaintextModel)
    (transaction : TransferTx) : (processTransferTransaction model transaction).2 = model := by
  show (transfer model transaction).2 = model
  unfold transfer
  split
  · rfl
  · rfl

end Protocol

end Prifhete
