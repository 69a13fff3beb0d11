import Prifhete.Common.Containers

/-! # Shared protocol types

    The byte-string wrappers, the account entry, the transactions of the
    protocol layer and the status every operation returns.
-/

namespace Prifhete

/-- `std::vector<std::uint8_t>`. -/
abbrev ByteString := List UInt8

abbrev EpochNumber := UInt64

structure CiphertextBytes where
  bytes : ByteString := []
  deriving DecidableEq, Repr

structure ProofBytes where
  bytes : ByteString := []
  deriving DecidableEq, Repr

structure CommitmentBytes where
  bytes : ByteString := []
  deriving DecidableEq, Repr

structure MerkleRoot where
  bytes : ByteString := []
  deriving DecidableEq, Repr

structure PRFOutput where
  bytes : ByteString := []
  deriving DecidableEq, Repr

structure PrivateAccountPK where
  bytes : ByteString := []
  deriving DecidableEq, Repr

/-- One private account as the ledger publishes it. -/
structure PrivateAccountEntry where
  account_id : StdString := []
  public_key : PrivateAccountPK := {}
  ciphertext : CiphertextBytes := {}
  commitment : CommitmentBytes := {}
  inclusion_root : MerkleRoot := {}
  epoch : EpochNumber := 0
  deriving DecidableEq, Repr

structure MintTx where
  transaction_id : StdString := []
  recipient_account_id : StdString := []
  value : UInt64 := 0
  recipient_ciphertext : CiphertextBytes := {}
  proof : ProofBytes := {}
  epoch : EpochNumber := 0
  deriving DecidableEq, Repr

structure TransferTx where
  transaction_id : StdString := []
  sender_account_id : StdString := []
  receiver_account_id : StdString := []
  sender_ciphertext : CiphertextBytes := {}
  receiver_ciphertext : CiphertextBytes := {}
  proof : ProofBytes := {}
  epoch : EpochNumber := 0
  deriving DecidableEq, Repr

structure Status where
  ok : Bool := false
  message : String := ""
  deriving DecidableEq, Repr

def okStatus : Status := ⟨true, "ok"⟩

def unimplementedStatus (message : String) : Status := ⟨false, message⟩

@[simp] theorem okStatus_ok : okStatus.ok = true := rfl

@[simp] theorem unimplementedStatus_ok (message : String) :
    (unimplementedStatus message).ok = false := rfl

end Prifhete
