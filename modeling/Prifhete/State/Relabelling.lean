import Prifhete.State.Queries

/-! # Names and key material are opaque to the model

    The model compares account ids and PRF outputs and asks whether an id
    is empty, and it copies keys, ciphertexts and commitments without
    looking at them. A transaction id is asked for and then forgotten. So a
    run in which all these are exchanged for others goes through the same
    states, up to the exchange.
-/

namespace Prifhete

open PlaintextModel

/-- An exchange of names and of key material. Different names stay
    different, and what is empty by default stays empty. -/
structure Relabelling where
  account_id : StdString → StdString
  account_id_injective : Function.Injective account_id
  account_id_nil : account_id [] = []
  /-- Different transaction ids may become the same. -/
  transaction_id : StdString → StdString
  transaction_id_nil : ∀ id, (transaction_id id).isEmpty = id.isEmpty
  prf : ByteString → ByteString
  prf_injective : Function.Injective prf
  public_key : PrivateAccountPK → PrivateAccountPK
  ciphertext : CiphertextBytes → CiphertextBytes
  ciphertext_empty : ciphertext {} = {}
  commitment : CommitmentBytes → CommitmentBytes
  commitment_empty : commitment {} = {}

namespace Relabelling

variable (ρ : Relabelling)

def entry (entry : PrivateAccountEntry) : PrivateAccountEntry :=
  { entry with
    account_id := ρ.account_id entry.account_id
    public_key := ρ.public_key entry.public_key
    ciphertext := ρ.ciphertext entry.ciphertext
    commitment := ρ.commitment entry.commitment }

def state (state : AccountState) : AccountState := { state with entry := ρ.entry state.entry }

def prf_output (prf_output : PRFOutput) : PRFOutput := { bytes := ρ.prf prf_output.bytes }

def request (request : RegistrationRequest) : RegistrationRequest :=
  { account_id := ρ.account_id request.account_id
    public_key := ρ.public_key request.public_key }

def mint (t : PublicToPrivateMint) : PublicToPrivateMint :=
  { t with
    transaction_id := ρ.transaction_id t.transaction_id
    prf_output := ρ.prf_output t.prf_output }

def transfer (t : PrivateTransfer) : PrivateTransfer :=
  { t with
    transaction_id := ρ.transaction_id t.transaction_id
    prf_output := ρ.prf_output t.prf_output }

def call : Call → Call
  | .register request => .register (ρ.request request)
  | .upsertAccount entry => .upsertAccount (ρ.entry entry)
  | .mint t => .mint (ρ.mint t)
  | .transfer t => .transfer (ρ.transfer t)
  | call => call

/-- Only an accepted registration reports an entry of the caller. -/
def reply : Reply → Reply
  | .registration result =>
    .registration (if result.status.ok then { result with entry := ρ.entry result.entry }
      else result)
  | reply => reply

theorem idOf_state (state : AccountState) :
    idOf (ρ.state state) = ρ.account_id (idOf state) := rfl

theorem account_id_isEmpty (id : StdString) : (ρ.account_id id).isEmpty = id.isEmpty := by
  rw [Bool.eq_iff_iff, List.isEmpty_iff, List.isEmpty_iff]
  constructor
  · intro h
    exact ρ.account_id_injective (h.trans ρ.account_id_nil.symm)
  · intro h
    rw [h, ρ.account_id_nil]

theorem account_id_eq_nil (id : StdString) : ρ.account_id id = [] ↔ id = [] := by
  rw [← List.isEmpty_iff, ρ.account_id_isEmpty, List.isEmpty_iff]

/-! ### The ledger -/

theorem map_prf_bytes (spent : List PRFOutput) :
    (spent.map ρ.prf_output).map (·.bytes) = (spent.map (·.bytes)).map ρ.prf := by
  rw [List.map_map, List.map_map]
  rfl

/-- The ledger after the exchange. -/
def ledger (l : AbstractLedger) : AbstractLedger where
  accounts := l.accounts.relabel ρ.state ρ.account_id ρ.account_id_injective ρ.idOf_state
  issued := l.issued
  started := l.started
  spent := l.spent.map ρ.prf_output
  once := by
    rw [map_prf_bytes]
    exact l.once.map ρ.prf_injective

section Ledger

variable (l : AbstractLedger)

@[simp] theorem ledger_records :
    (ρ.ledger l).accounts.records = l.accounts.records.map ρ.state := rfl

@[simp] theorem ledger_epoch : (ρ.ledger l).epoch = l.epoch := rfl

@[simp] theorem ledger_current_root : (ρ.ledger l).current_root = l.current_root := rfl

@[simp] theorem ledger_rootChecks (root : RootReference) :
    (ρ.ledger l).rootChecks root = l.rootChecks root := rfl

@[simp] theorem ledger_hasIndex (i : AccountIndex) :
    (ρ.ledger l).hasIndex i = l.hasIndex i := by
  simp [AbstractLedger.hasIndex]

@[simp] theorem ledger_hasRoom : (ρ.ledger l).hasRoom = l.hasRoom := by
  simp [AbstractLedger.hasRoom]

@[simp] theorem ledger_balance (i : AccountIndex) :
    (ρ.ledger l).balance i = l.balance i := by
  simp only [AbstractLedger.balance, ledger_records, List.getElem?_map, Option.map_map]
  rfl

@[simp] theorem ledger_mem_ids (id : StdString) :
    ρ.account_id id ∈ (ρ.ledger l).ids ↔ id ∈ l.ids :=
  Registry.mem_keys_relabel l.accounts ρ.account_id_injective ρ.idOf_state

@[simp] theorem ledger_isFresh (prf_output : PRFOutput) :
    (ρ.ledger l).isFresh (ρ.prf_output prf_output) = l.isFresh prf_output := by
  rw [Bool.eq_iff_iff]
  simp only [AbstractLedger.isFresh, decide_eq_true_eq]
  show _ ∉ (l.spent.map ρ.prf_output).map (·.bytes) ↔ _
  rw [map_prf_bytes]
  exact not_congr (List.mem_map_of_injective ρ.prf_injective)

end Ledger

/-! ### Updates commute with the exchange -/

section Updates

variable (l : AbstractLedger)

theorem issue_ledger (epoch : EpochNumber) :
    (ρ.ledger l).issue epoch = ρ.ledger (l.issue epoch) := by
  apply AbstractLedger.ext
  · apply Registry.ext
    show (l.accounts.records.map ρ.state).map _ = (l.accounts.records.map _).map ρ.state
    rw [List.map_map, List.map_map]
    rfl
  · rfl
  · rfl

theorem enter_ledger (epoch : EpochNumber) :
    (ρ.ledger l).enter epoch = ρ.ledger (l.enter epoch) :=
  ρ.issue_ledger { l with spent := [], once := List.nodup_nil } epoch

theorem advanceBy_ledger (n : Nat) : (ρ.ledger l).advanceBy n = ρ.ledger (l.advanceBy n) := by
  induction n with
  | zero => rfl
  | succ n ih =>
    rw [AbstractLedger.advanceBy, AbstractLedger.advanceBy, ih, ledger_epoch]
    exact ρ.enter_ledger (l.advanceBy n) _

theorem post_ledger (i : AccountIndex) (f : UInt64 → UInt64) :
    (ρ.ledger l).post i f = ρ.ledger (l.post i f) := by
  apply AbstractLedger.ext
  · apply Registry.ext
    rw [AbstractLedger.post_records, ledger_records, ledger_records, AbstractLedger.post_records]
    symm
    apply Sequences.map_modify_comm
    intro state
    rfl
  · rfl
  · rfl

theorem spend_ledger (prf_output : PRFOutput) :
    (ρ.ledger l).spend (ρ.prf_output prf_output) = ρ.ledger (l.spend prf_output) := by
  cases hfresh : l.isFresh prf_output with
  | false =>
    have hold : ¬ (ρ.ledger l).isFresh (ρ.prf_output prf_output) = true := by simp [hfresh]
    unfold AbstractLedger.spend
    rw [dif_neg hold, dif_neg (by simp [hfresh])]
  | true =>
    have hnew : (ρ.ledger l).isFresh (ρ.prf_output prf_output) = true := by simp [hfresh]
    apply AbstractLedger.ext
    · apply Registry.ext
      rw [AbstractLedger.spend_accounts, ledger_records, ledger_records,
        AbstractLedger.spend_accounts]
    · rw [AbstractLedger.spend_issued]
      exact (l.spend_issued prf_output).symm
    · rw [AbstractLedger.spend_spent, if_pos hnew]
      show _ = (l.spend prf_output).spent.map ρ.prf_output
      rw [AbstractLedger.spend_spent, if_pos hfresh, List.map_append]
      rfl

theorem openAccount_ledger (entry : PrivateAccountEntry) :
    (ρ.ledger l).openAccount (ρ.entry entry) = ρ.ledger (l.openAccount entry) := by
  have hmem : (ρ.entry entry).account_id ∈ (ρ.ledger l).ids ↔ entry.account_id ∈ l.ids :=
    ρ.ledger_mem_ids l entry.account_id
  unfold AbstractLedger.openAccount
  by_cases hfresh : entry.account_id ∉ l.ids
  · rw [dif_pos (mt hmem.mp hfresh), dif_pos hfresh]
    apply AbstractLedger.ext
    · apply Registry.ext
      show (l.accounts.records.map ρ.state) ++ _ = (l.accounts.records ++ _).map ρ.state
      rw [List.map_append]
      rfl
    · rfl
    · rfl
  · rw [dif_neg (mt (mt hmem.mpr) hfresh), dif_neg hfresh]

theorem replaceEntry_ledger (entry : PrivateAccountEntry) :
    (ρ.ledger l).replaceEntry (ρ.entry entry) = ρ.ledger (l.replaceEntry entry) := by
  apply AbstractLedger.ext
  · apply Registry.ext
    rw [AbstractLedger.replaceEntry_records, ledger_records, ledger_records,
      AbstractLedger.replaceEntry_records, List.map_map, List.map_map]
    apply List.map_congr_left
    intro state _
    -- an id is met exactly when it was met before the exchange
    have hid : idOf (ρ.state state) = (ρ.entry entry).account_id ↔
        idOf state = entry.account_id := ρ.account_id_injective.eq_iff
    by_cases hsame : idOf state = entry.account_id
    · simp only [Function.comp_apply, if_pos hsame, if_pos (hid.mpr hsame)]
      rfl
    · simp only [Function.comp_apply, if_neg hsame, if_neg (mt hid.mp hsame)]
  · rfl
  · rfl

theorem registrationEntry_ledger (request : RegistrationRequest) :
    (ρ.ledger l).registrationEntry (ρ.request request) =
      ρ.entry (l.registrationEntry request) := by
  unfold AbstractLedger.registrationEntry entry Relabelling.request
  simp only [ρ.ciphertext_empty, ρ.commitment_empty, ledger_epoch]

end Updates

/-! ### Calls -/

section Calls

variable (l : AbstractLedger)

theorem registered_ledger (request : RegistrationRequest) :
    (ρ.ledger l).registered (ρ.request request) = ρ.ledger (l.registered request) := by
  unfold AbstractLedger.registered
  rw [registrationEntry_ledger, openAccount_ledger, ledger_epoch, issue_ledger]

theorem minted_ledger (t : PublicToPrivateMint) :
    (ρ.ledger l).minted (ρ.mint t) = ρ.ledger (l.minted t) := by
  unfold AbstractLedger.minted mint
  rw [spend_ledger, post_ledger, ledger_epoch, issue_ledger]

theorem transferred_ledger (t : PrivateTransfer) :
    (ρ.ledger l).transferred (ρ.transfer t) = ρ.ledger (l.transferred t) := by
  unfold AbstractLedger.transferred transfer
  rw [spend_ledger, post_ledger, post_ledger, ledger_epoch, issue_ledger]

theorem advanceTo_ledger (epoch : EpochNumber) :
    (ρ.ledger l).advanceTo epoch = ρ.ledger (l.advanceTo epoch) := ρ.advanceBy_ledger l _

/-- After the exchange a call is answered as before it. -/
theorem exec_ledger (call : Call) :
    (ρ.ledger l).exec (ρ.call call) = (ρ.reply (l.exec call).1, ρ.ledger (l.exec call).2) := by
  cases call with
  | register request =>
    have hchecks : (ρ.ledger l).registerChecks (ρ.request request) =
        l.registerChecks request := by
      simp only [AbstractLedger.registerChecks, Relabelling.request, account_id_isEmpty,
        ledger_mem_ids]
    simp only [call, AbstractLedger.exec, hchecks, ledger_hasRoom, ledger_current_root,
      registered_ledger, registrationEntry_ledger]
    split
    · next hrefused =>
      rw [Bool.not_eq_true'] at hrefused
      simp only [reply, hrefused, Bool.false_eq_true, if_false]
    split
    · -- the entry and its index are reported after the exchange
      show (Reply.registration _, _) = (Reply.registration (if okStatus.ok then _ else _), _)
      rw [okStatus_ok, if_pos rfl, ledger_records, List.length_map]
      rfl
    · rfl
  | upsertAccount entry =>
    have hid : (ρ.entry entry).account_id = [] ↔ entry.account_id = [] :=
      ρ.account_id_eq_nil entry.account_id
    have hmem : (ρ.entry entry).account_id ∈ (ρ.ledger l).ids ↔ entry.account_id ∈ l.ids :=
      ρ.ledger_mem_ids l entry.account_id
    simp only [call, AbstractLedger.exec, hid, hmem, ledger_hasRoom]
    split
    · rfl
    split
    · rw [replaceEntry_ledger]
      rfl
    split
    · rw [openAccount_ledger]
      rfl
    · rfl
  | mint t =>
    have hchecks : (ρ.ledger l).mintChecks (ρ.mint t) = l.mintChecks t := by
      simp only [AbstractLedger.mintChecks, mint, ρ.transaction_id_nil, ledger_hasIndex,
        ledger_rootChecks, ledger_isFresh]
    simp only [call, AbstractLedger.exec, hchecks, minted_ledger, ledger_current_root,
      ledger_balance]
    split <;> rfl
  | transfer t =>
    have hchecks : (ρ.ledger l).transferChecks (ρ.transfer t) = l.transferChecks t := by
      simp only [AbstractLedger.transferChecks, transfer, ρ.transaction_id_nil, ledger_hasIndex,
        ledger_rootChecks, ledger_isFresh]
    simp only [call, AbstractLedger.exec, hchecks, transferred_ledger, ledger_current_root,
      ledger_balance]
    have hover : l.balance (ρ.transfer t).sender_index < (ρ.transfer t).value ↔
        l.balance t.sender_index < t.value := Iff.rfl
    simp only [hover]
    split
    · rfl
    split <;> rfl
  | advanceEpoch =>
    simp only [call, AbstractLedger.exec, ledger_epoch, enter_ledger]
    split <;> rfl
  | advanceToEpoch epoch =>
    simp only [call, AbstractLedger.exec, ledger_epoch, advanceTo_ledger]
    split <;> rfl
  | set_current_epoch epoch =>
    simp only [call, AbstractLedger.exec, ledger_epoch, enter_ledger, advanceTo_ledger]
    split <;> rfl

end Calls

/-! ### Runs -/

theorem follows : Machine.Follows AbstractLedger.machine AbstractLedger.machine (fun _ _ => True)
    (fun call => some (ρ.call call)) (fun l l' => l' = ρ.ledger l)
    (fun _ reply reply' => ρ.reply reply = reply') := by
  refine Machine.follows_of_total ?_ ?_
  · rfl
  · intro l l' call _ hl
    rw [hl, AbstractLedger.machine_exec, AbstractLedger.machine_exec, ρ.exec_ledger]
    exact ⟨rfl, rfl⟩

/-- What the queries show after the exchange, against what they showed
    before it. -/
structure Exchanged (m m' : PlaintextModel) : Prop where
  hasAccount : ∀ id, m'.hasAccount (ρ.account_id id) = m.hasAccount id
  findAccount : ∀ id, m'.findAccount (ρ.account_id id) = (m.findAccount id).map ρ.entry
  findAccountIndex : ∀ id, m'.findAccountIndex (ρ.account_id id) = m.findAccountIndex id
  isValidAccountIndex : ∀ i, m'.isValidAccountIndex i = m.isValidAccountIndex i
  findAccountByIndex : ∀ i, m'.findAccountByIndex i = (m.findAccountByIndex i).map ρ.entry
  inspectBalance : ∀ i, m'.inspectBalance i = m.inspectBalance i
  tryGetBalance : ∀ i out, m'.tryGetBalance i out = m.tryGetBalance i out
  account_count : m'.account_count = m.account_count
  current_root : m'.current_root = m.current_root
  current_root_reference : m'.current_root_reference = m.current_root_reference
  isValidRoot : ∀ root, m'.isValidRoot root = m.isValidRoot root
  hasSeenPrfOutput : ∀ prf_output, m'.hasSeenPrfOutputInCurrentEpoch (ρ.prf_output prf_output) =
    m.hasSeenPrfOutputInCurrentEpoch prf_output
  accepted_prf_outputs : m'.accepted_prf_outputs = m.accepted_prf_outputs.map ρ.prf_output
  current_root_versions : m'.current_root_versions = m.current_root_versions
  inspectEpochState : m'.inspectEpochState = m.inspectEpochState
  current_epoch : PlaintextModel.current_epoch m' = PlaintextModel.current_epoch m

theorem prf_output_injective : Function.Injective ρ.prf_output := by
  intro prf prf' hsame
  cases prf
  cases prf'
  simpa [prf_output, ρ.prf_injective.eq_iff] using hsame

theorem find?_ledger (l : AbstractLedger) (id : StdString) :
    (ρ.ledger l).accounts.find? (ρ.account_id id) = (l.accounts.find? id).map ρ.state :=
  Registry.find?_relabel l.accounts ρ.account_id_injective ρ.idOf_state id

theorem exchanged {m m' : PlaintextModel} {l : AbstractLedger} (h : QueriesAgree m l)
    (h' : QueriesAgree m' (ρ.ledger l)) : ρ.Exchanged m m' where
  hasAccount id := by rw [h.hasAccount, h'.hasAccount, find?_ledger, Option.isSome_map]
  findAccount id := by
    rw [h.findAccount, h'.findAccount, find?_ledger, Option.map_map, Option.map_map]
    rfl
  findAccountIndex id := by
    rw [h.findAccountIndex, h'.findAccountIndex]
    exact congrArg _
      (Registry.position?_relabel l.accounts ρ.account_id_injective ρ.idOf_state id)
  isValidAccountIndex i := by
    rw [h.isValidAccountIndex, h'.isValidAccountIndex, ledger_hasIndex]
  findAccountByIndex i := by
    rw [h.findAccountByIndex, h'.findAccountByIndex, ledger_records, List.getElem?_map,
      Option.map_map, Option.map_map]
    rfl
  inspectBalance i := by
    rw [h.inspectBalance, h'.inspectBalance, ledger_records, List.getElem?_map, Option.map_map]
    rfl
  tryGetBalance i out := by
    rw [h.tryGetBalance, h'.tryGetBalance, ledger_records, List.getElem?_map]
    cases out with
    | none => rfl
    | some balance =>
      cases l.accounts.records[i.value.toNat]? with
      | none => rfl
      | some state => rfl
  account_count := by
    apply UInt64.toNat.inj
    rw [h.account_count, h'.account_count, ledger_records, List.length_map]
  current_root := by rw [h.current_root, h'.current_root, ledger_current_root]
  current_root_reference := by
    rw [h.current_root_reference, h'.current_root_reference, ledger_current_root]
  isValidRoot root := by
    rw [h.isValidRoot, h'.isValidRoot]
    rfl
  hasSeenPrfOutput prf_output := by
    rw [h.hasSeenPrfOutput, h'.hasSeenPrfOutput, decide_eq_decide]
    exact List.mem_map_of_injective ρ.prf_output_injective
  accepted_prf_outputs := by
    rw [h.accepted_prf_outputs, h'.accepted_prf_outputs]
    rfl
  current_root_versions := by
    rw [h.current_root_versions, h'.current_root_versions]
    rfl
  inspectEpochState := by
    rw [h.inspectEpochState, h'.inspectEpochState]
    simp only [ledger_current_root, ledger_epoch]
    show _ = EpochStateView.mk _ _ _ l.spent.length l.spent.length
    rw [show (ρ.ledger l).spent.length = l.spent.length from List.length_map _]
  current_epoch := by rw [h.current_epoch, h'.current_epoch, ledger_epoch]

/-- A run after an exchange of names and key material is the run before it:
    the replies are the same up to the exchange, and so is what the queries
    show at its end. -/
theorem names_are_opaque (calls : List Call) :
    (PlaintextModel.machine.events (calls.map ρ.call)).map (·.reply) =
        (PlaintextModel.machine.events calls).map (fun e => ρ.reply e.reply) ∧
      ρ.Exchanged (PlaintextModel.machine.final calls)
        (PlaintextModel.machine.final (calls.map ρ.call)) := by
  have hreplies := ρ.follows.replies_map (AbstractLedger.machine.along_true calls)
  have hfinal : _ = ρ.ledger _ := ρ.follows.final_map (AbstractLedger.machine.along_true calls)
  have hledger := (run_represents (calls.map ρ.call)).queries
  rw [hfinal] at hledger
  refine ⟨?_, ρ.exchanged (run_represents calls).queries hledger⟩
  rw [← List.forall₂_map_left_iff, List.forall₂_eq_eq_eq] at hreplies
  rw [replies_eq_ledger, ← hreplies, ← replies_eq_ledger, List.map_map]
  rfl

/-- Two ids and two PRF outputs change places, transaction ids are cut to
    their first character, and all other bytes are reversed. -/
def exchangeTwo (id id' : StdString) (hid : id ≠ []) (hid' : id' ≠ []) (prf prf' : ByteString) :
    Relabelling where
  account_id := Equiv.swap id id'
  account_id_injective := (Equiv.swap id id').injective
  account_id_nil := Equiv.swap_apply_of_ne_of_ne hid.symm hid'.symm
  transaction_id := List.take 1
  transaction_id_nil := by
    intro id
    cases id with
    | nil => rfl
    | cons c id => rfl
  prf := Equiv.swap prf prf'
  prf_injective := (Equiv.swap prf prf').injective
  public_key := fun key => { bytes := key.bytes.reverse }
  ciphertext := fun ciphertext => { bytes := ciphertext.bytes.reverse }
  ciphertext_empty := rfl
  commitment := fun commitment => { bytes := commitment.bytes.reverse }
  commitment_empty := rfl

/-- Alice and Bob change places in a run that pays one of them. -/
theorem names_are_opaque_alice_and_bob :
    let alice := StdString.ofAscii "alice"
    let bob := StdString.ofAscii "bob"
    let ρ := exchangeTwo alice bob (by decide) (by decide) [1] [2]
    let calls : List Call :=
      [.register { account_id := alice, public_key := { bytes := [1, 2] } },
        .register { account_id := bob, public_key := { bytes := [3, 4] } },
        .mint { transaction_id := StdString.ofAscii "mint-1", recipient_index := { value := 0 },
                value := 5, prf_output := { bytes := [1] },
                referenced_root := rootFor 0 { value := 3 } }]
    let m' := PlaintextModel.machine.final (calls.map ρ.call)
    (PlaintextModel.machine.events (calls.map ρ.call)).map (·.reply) =
        (PlaintextModel.machine.events calls).map (fun e => ρ.reply e.reply) ∧
      m'.findAccountIndex bob = some { value := 0 } ∧
      m'.hasSeenPrfOutputInCurrentEpoch { bytes := [2] } = true := by
  intro alice bob ρ calls m'
  obtain ⟨hreplies, hexchanged⟩ := ρ.names_are_opaque calls
  have hindex := hexchanged.findAccountIndex alice
  have hseen := hexchanged.hasSeenPrfOutput { bytes := [1] }
  have hbob : ρ.account_id alice = bob := Equiv.swap_apply_left alice bob
  have hprf : ρ.prf [1] = [2] := Equiv.swap_apply_left _ _
  rw [hbob] at hindex
  rw [prf_output, hprf] at hseen
  exact ⟨hreplies, hindex.trans (by decide +kernel), hseen.trans (by decide +kernel)⟩

end Relabelling

end Prifhete
