import Prifhete.Lib.Registry
import Prifhete.Lib.Sequences
import Prifhete.State.Run

/-! # The ledger the model stands for

    What a `PlaintextModel` is for: the accounts in the order they were
    opened in, each with its balance and with its entry as it was last
    stamped, the epoch of each root that has been issued, and the PRF outputs
    spent in the current epoch. The maps, the sets, the key list, the counters
    and the current root of the model are not part of it; they are computed
    where they are needed.

    A request passes a list of checks, each with the text it is refused
    with, and the first one that fails decides (`firstFailure`).
-/

namespace Prifhete

open PlaintextModel Sequences

/-! ### Checks -/

/-- The text of the first check that fails. -/
def firstFailure (checks : List (Bool × String)) : Status :=
  match checks.find? (!·.1) with
  | some check => ⟨false, check.2⟩
  | none => okStatus

@[simp] theorem firstFailure_nil : firstFailure [] = okStatus := rfl

@[simp] theorem firstFailure_cons_true (text : String) (checks : List (Bool × String)) :
    firstFailure ((true, text) :: checks) = firstFailure checks := rfl

@[simp] theorem firstFailure_cons_false (text : String) (checks : List (Bool × String)) :
    firstFailure ((false, text) :: checks) = ⟨false, text⟩ := rfl

/-- Checks made one group after the other. -/
theorem firstFailure_append (checks later : List (Bool × String)) :
    firstFailure (checks ++ later) =
      if (firstFailure checks).ok then firstFailure later else firstFailure checks := by
  induction checks with
  | nil => rfl
  | cons check checks ih =>
    obtain ⟨passed, text⟩ := check
    cases passed with
    | true => exact ih
    | false => rfl

theorem firstFailure_ok {checks : List (Bool × String)} :
    (firstFailure checks).ok = true ↔ ∀ check ∈ checks, check.1 = true := by
  induction checks with
  | nil => simp
  | cons check checks ih =>
    obtain ⟨passed, text⟩ := check
    cases passed with
    | true => simp [ih]
    | false => simp

/-- Checks that all pass give the status `ok`. -/
theorem firstFailure_of_ok {checks : List (Bool × String)} (h : (firstFailure checks).ok = true) :
    firstFailure checks = okStatus := by
  unfold firstFailure at h ⊢
  split at h
  · contradiction
  · rfl

/-! ### The ledger -/

/-- The id under which an account is known. -/
def idOf (state : AccountState) : StdString := state.entry.account_id

/-- Accounts, issued roots and spent PRF outputs. -/
@[ext] structure AbstractLedger where
  accounts : Registry idOf
  /-- The epochs of the roots issued, oldest first. -/
  issued : List EpochNumber
  started : issued ≠ []
  /-- The PRF outputs spent in the current epoch, in order. -/
  spent : List PRFOutput
  once : (spent.map (·.bytes)).Nodup

namespace AbstractLedger

/-- No account, and the root of epoch `0`. -/
def opened : AbstractLedger where
  accounts := .empty
  issued := [0]
  started := List.cons_ne_nil _ _
  spent := []
  once := List.nodup_nil

def epoch (l : AbstractLedger) : EpochNumber := l.issued.getLast l.started

/-- A root carries its epoch and its place in the order of issue, modulo the
    word size. -/
def rootsOf (issued : List EpochNumber) : List RootReference :=
  issued.mapIdx fun k epoch => rootFor epoch { value := UInt64.ofNat (k + 1) }

def roots (l : AbstractLedger) : List RootReference := rootsOf l.issued

def current_root (l : AbstractLedger) : RootReference :=
  rootFor l.epoch { value := UInt64.ofNat l.issued.length }

/-- The roots issued since the epoch last changed. -/
def epochRoots (l : AbstractLedger) : List RootReference := currentStretch (·.epoch) l.roots

def ids (l : AbstractLedger) : List StdString := l.accounts.keys

/-- The balance at an index, zero where there is no account. -/
def balance (l : AbstractLedger) (i : AccountIndex) : UInt64 :=
  ((l.accounts.records[i.value.toNat]?).map (·.balance)).getD 0

/-- The epoch is the current one or the one before it. -/
def inWindow (l : AbstractLedger) (epoch : EpochNumber) : Bool :=
  epoch.toNat ≤ l.epoch.toNat ∧ l.epoch.toNat - epoch.toNat ≤ 1

def isFresh (l : AbstractLedger) (prf_output : PRFOutput) : Bool :=
  prf_output.bytes ∉ l.spent.map (·.bytes)

/-! ### Updates -/

/-- An entry brought up to a root. -/
def stamp (root : RootReference) (state : AccountState) : AccountState :=
  { state with entry := { state.entry with epoch := root.epoch, inclusion_root := root.root } }

@[simp] theorem idOf_stamp (root : RootReference) (state : AccountState) :
    idOf (stamp root state) = idOf state := rfl

/-- One more root, for which every entry is stamped. -/
def issue (l : AbstractLedger) (epoch : EpochNumber) : AbstractLedger :=
  { l with
    accounts := l.accounts.map
      (stamp (rootFor epoch { value := UInt64.ofNat (l.issued.length + 1) })) (idOf_stamp _)
    issued := l.issued ++ [epoch]
    started := List.append_ne_nil_of_right_ne_nil _ (List.cons_ne_nil _ _) }

/-- A change of epoch, which frees the PRF outputs. -/
def enter (l : AbstractLedger) (epoch : EpochNumber) : AbstractLedger :=
  { l with spent := [], once := List.nodup_nil }.issue epoch

/-- The epochs up to `epoch`, one after the other. -/
def advanceBy (l : AbstractLedger) : Nat → AbstractLedger
  | 0 => l
  | n + 1 => (l.advanceBy n).enter ((l.advanceBy n).epoch + 1)

def spend (l : AbstractLedger) (prf_output : PRFOutput) : AbstractLedger :=
  if hfresh : l.isFresh prf_output = true then
    { l with
      spent := l.spent ++ [prf_output]
      once := by
        rw [List.map_append, List.map_singleton]
        apply List.nodup_append'.mpr
        refine ⟨l.once, List.nodup_singleton _, List.disjoint_singleton.mpr ?_⟩
        simpa [isFresh] using hfresh }
  else l

/-- A change of the balance at an index. -/
def post (l : AbstractLedger) (i : AccountIndex) (f : UInt64 → UInt64) : AbstractLedger :=
  { l with
    accounts := l.accounts.modify i.value.toNat
      (fun state => { state with balance := f state.balance }) fun _ => rfl }

/-- A new account, with nothing on it. -/
def openAccount (l : AbstractLedger) (entry : PrivateAccountEntry) : AbstractLedger :=
  if hfresh : entry.account_id ∉ l.ids then
    { l with accounts := l.accounts.add { entry := entry, balance := 0 } hfresh }
  else l

/-- The entry of the account with the same id, replaced as a whole. -/
def replaceEntry (l : AbstractLedger) (entry : PrivateAccountEntry) : AbstractLedger :=
  { l with
    accounts := l.accounts.map
      (fun state => if idOf state = entry.account_id then { state with entry := entry } else state)
      (by
        intro state
        split
        · next hid => exact hid.symm
        · rfl) }

/-! ### The roots -/

theorem rootsOf_concat (issued : List EpochNumber) (epoch : EpochNumber) :
    rootsOf (issued ++ [epoch]) =
      rootsOf issued ++ [rootFor epoch { value := UInt64.ofNat (issued.length + 1) }] := by
  simp [rootsOf, List.mapIdx_append]

theorem length_rootsOf (issued : List EpochNumber) : (rootsOf issued).length = issued.length := by
  simp [rootsOf]

theorem getLast?_rootsOf {issued : List EpochNumber} (hstarted : issued ≠ []) :
    (rootsOf issued).getLast? =
      some (rootFor (issued.getLast hstarted) { value := UInt64.ofNat issued.length }) := by
  cases issued using List.reverseRecOn with
  | nil => contradiction
  | append_singleton front last =>
    rw [rootsOf_concat, List.getLast?_concat, List.getLast_concat, List.length_append,
      List.length_singleton]

/-- The root issued next, for an epoch. -/
def newRoot (l : AbstractLedger) (epoch : EpochNumber) : RootReference :=
  rootFor epoch { value := UInt64.ofNat (l.issued.length + 1) }

theorem issue_records (l : AbstractLedger) (epoch : EpochNumber) :
    (l.issue epoch).accounts.records = l.accounts.records.map (stamp (l.newRoot epoch)) := rfl

theorem issue_roots (l : AbstractLedger) (epoch : EpochNumber) :
    (l.issue epoch).roots = l.roots ++ [l.newRoot epoch] := rootsOf_concat l.issued epoch

/-- A new epoch starts a new stretch. -/
theorem issue_epochRoots (l : AbstractLedger) (epoch : EpochNumber) :
    (l.issue epoch).epochRoots =
      if l.epoch = epoch then l.epochRoots ++ [l.newRoot epoch] else [l.newRoot epoch] := by
  unfold epochRoots
  rw [issue_roots, roots, currentStretch_concat _ (getLast?_rootsOf l.started)]
  rfl

section Updates

variable (l : AbstractLedger)

@[simp] theorem issue_epoch (epoch : EpochNumber) : (l.issue epoch).epoch = epoch :=
  List.getLast_concat

@[simp] theorem issue_issued (epoch : EpochNumber) :
    (l.issue epoch).issued = l.issued ++ [epoch] := rfl

@[simp] theorem enter_epoch (epoch : EpochNumber) : (l.enter epoch).epoch = epoch :=
  List.getLast_concat

@[simp] theorem post_records (i : AccountIndex) (f : UInt64 → UInt64) :
    (l.post i f).accounts.records = l.accounts.records.modify i.value.toNat
      (fun state => { state with balance := f state.balance }) := rfl

@[simp] theorem replaceEntry_records (entry : PrivateAccountEntry) :
    (l.replaceEntry entry).accounts.records = l.accounts.records.map fun state =>
      if idOf state = entry.account_id then { state with entry := entry } else state := rfl

@[simp] theorem spend_accounts (prf_output : PRFOutput) :
    (l.spend prf_output).accounts = l.accounts := by
  unfold spend
  split <;> rfl

@[simp] theorem spend_issued (prf_output : PRFOutput) :
    (l.spend prf_output).issued = l.issued := by
  unfold spend
  split <;> rfl

@[simp] theorem spend_epoch (prf_output : PRFOutput) : (l.spend prf_output).epoch = l.epoch := by
  unfold spend
  split <;> rfl

theorem spend_spent (prf_output : PRFOutput) :
    (l.spend prf_output).spent =
      if l.isFresh prf_output = true then l.spent ++ [prf_output] else l.spent := by
  unfold spend
  split <;> rfl

theorem openAccount_records (entry : PrivateAccountEntry) :
    (l.openAccount entry).accounts.records =
      if entry.account_id ∉ l.ids then l.accounts.records ++ [{ entry := entry, balance := 0 }]
      else l.accounts.records := by
  unfold openAccount
  split <;> rfl

@[simp] theorem openAccount_issued (entry : PrivateAccountEntry) :
    (l.openAccount entry).issued = l.issued := by
  unfold openAccount
  split <;> rfl

@[simp] theorem openAccount_epoch (entry : PrivateAccountEntry) :
    (l.openAccount entry).epoch = l.epoch := by
  unfold openAccount
  split <;> rfl

@[simp] theorem openAccount_spent (entry : PrivateAccountEntry) :
    (l.openAccount entry).spent = l.spent := by
  unfold openAccount
  split <;> rfl

end Updates

/-- Stepping forward, as long as there are epochs left. -/
theorem advanceBy_epoch {l : AbstractLedger} {n : Nat} (hroom : l.epoch.toNat + n < 2 ^ 64) :
    (l.advanceBy n).epoch.toNat = l.epoch.toNat + n := by
  induction n with
  | zero => rfl
  | succ n ih =>
    have hn := ih (by omega)
    have hmax : (l.advanceBy n).epoch ≠ -1 := by
      intro hmax
      rw [hmax, show (-1 : UInt64).toNat = 2 ^ 64 - 1 from rfl] at hn
      omega
    rw [advanceBy, enter_epoch, Word.toNat_add_one hmax, hn]
    omega

/-! ### Requests -/

/-- The three ways a root may be refused. -/
def rootChecks (l : AbstractLedger) (root : RootReference) : List (Bool × String) :=
  [(l.roots.any fun known => known.root.bytes = root.root.bytes, "referenced_root is not known"),
    (root ∈ l.roots, "referenced_root metadata mismatch"),
    (l.inWindow root.epoch, "referenced_root is stale")]

/-- An issued root is in particular one with its bytes. -/
theorem rootChecks_ok {l : AbstractLedger} {root : RootReference} :
    (firstFailure (l.rootChecks root)).ok = true ↔
      root ∈ l.roots ∧ l.inWindow root.epoch = true := by
  rw [firstFailure_ok]
  simp only [rootChecks, List.mem_cons, List.not_mem_nil, or_false, forall_eq_or_imp, forall_eq,
    decide_eq_true_eq, List.any_eq_true]
  constructor
  · intro ⟨_, hmem, hwindow⟩
    exact ⟨hmem, hwindow⟩
  · intro ⟨hmem, hwindow⟩
    exact ⟨⟨root, hmem, rfl⟩, hmem, hwindow⟩

def hasIndex (l : AbstractLedger) (i : AccountIndex) : Bool :=
  i.value.toNat < l.accounts.records.length

def mintChecks (l : AbstractLedger) (t : PublicToPrivateMint) : List (Bool × String) :=
  [(!t.transaction_id.isEmpty, "transaction_id must not be empty"),
    (l.hasIndex t.recipient_index, "invalid recipient account index")] ++
  l.rootChecks t.referenced_root ++
  [(l.isFresh t.prf_output, "duplicate PRFOutput in current epoch")]

/-- All checks of a transfer but the one of the balance. -/
def transferChecks (l : AbstractLedger) (t : PrivateTransfer) : List (Bool × String) :=
  [(!t.transaction_id.isEmpty, "transaction_id must not be empty"),
    (l.hasIndex t.sender_index, "invalid sender account index"),
    (l.hasIndex t.receiver_index, "invalid receiver account index")] ++
  l.rootChecks t.referenced_root ++
  [(l.isFresh t.prf_output, "duplicate PRFOutput in current epoch")]

def registerChecks (l : AbstractLedger) (request : RegistrationRequest) : List (Bool × String) :=
  [(!request.account_id.isEmpty, "account_id must not be empty"),
    (request.account_id ∉ l.ids, "account_id already exists")]

theorem mintChecks_ok {l : AbstractLedger} {t : PublicToPrivateMint} :
    (firstFailure (l.mintChecks t)).ok = true ↔
      t.transaction_id ≠ [] ∧ l.hasIndex t.recipient_index = true ∧
        (firstFailure (l.rootChecks t.referenced_root)).ok = true ∧
        l.isFresh t.prf_output = true := by
  simp [firstFailure_ok, mintChecks, or_imp, forall_and]

theorem transferChecks_ok {l : AbstractLedger} {t : PrivateTransfer} :
    (firstFailure (l.transferChecks t)).ok = true ↔
      t.transaction_id ≠ [] ∧ l.hasIndex t.sender_index = true ∧
        l.hasIndex t.receiver_index = true ∧
        (firstFailure (l.rootChecks t.referenced_root)).ok = true ∧
        l.isFresh t.prf_output = true := by
  simp [firstFailure_ok, transferChecks, or_imp, forall_and]

theorem registerChecks_ok {l : AbstractLedger} {request : RegistrationRequest} :
    (firstFailure (l.registerChecks request)).ok = true ↔
      request.account_id ≠ [] ∧ request.account_id ∉ l.ids := by
  simp [firstFailure_ok, registerChecks]

/-- There is a position left for one more account. -/
def hasRoom (l : AbstractLedger) : Bool := l.accounts.records.length < maxSize

/-- The entry a registration opens an account with. -/
def registrationEntry (l : AbstractLedger) (request : RegistrationRequest) : PrivateAccountEntry :=
  { account_id := request.account_id
    public_key := request.public_key
    epoch := l.epoch }

/-- The ledger after an accepted mint. -/
def minted (l : AbstractLedger) (t : PublicToPrivateMint) : AbstractLedger :=
  ((l.spend t.prf_output).post t.recipient_index (· + t.value)).issue l.epoch

/-- The ledger after an accepted transfer. -/
def transferred (l : AbstractLedger) (t : PrivateTransfer) : AbstractLedger :=
  (((l.spend t.prf_output).post t.sender_index (· - t.value)).post t.receiver_index
    (· + t.value)).issue l.epoch

/-- The ledger after an accepted registration. -/
def registered (l : AbstractLedger) (request : RegistrationRequest) : AbstractLedger :=
  (l.openAccount (l.registrationEntry request)).issue l.epoch

def advanceTo (l : AbstractLedger) (epoch : EpochNumber) : AbstractLedger :=
  l.advanceBy (epoch.toNat - l.epoch.toNat)

/-- One call. -/
def exec (l : AbstractLedger) : Call → Reply × AbstractLedger
  | .register request =>
    let status := firstFailure (l.registerChecks request)
    if !status.ok then
      (.registration
        { account_index := {}, entry := {}, root := l.current_root, status := status }, l)
    else if l.hasRoom then
      let l' := l.registered request
      (.registration
        { account_index := { value := UInt64.ofNat l.accounts.records.length }
          entry := (stamp l'.current_root { entry := l.registrationEntry request }).entry
          root := l'.current_root
          status := okStatus }, l')
    else (.lengthError, l)
  | .upsertAccount entry =>
    if entry.account_id = [] then (.status ⟨false, "account_id must not be empty"⟩, l)
    else if entry.account_id ∈ l.ids then (.status okStatus, l.replaceEntry entry)
    else if l.hasRoom then (.status okStatus, l.openAccount entry)
    else (.lengthError, l)
  | .mint t =>
    let status := firstFailure (l.mintChecks t)
    if !status.ok then (.mint { root := l.current_root, status := status }, l)
    else
      let l' := l.minted t
      (.mint
        { root := l'.current_root
          recipient_balance := l'.balance t.recipient_index
          status := okStatus }, l')
  | .transfer t =>
    let status := firstFailure (l.transferChecks t)
    if !status.ok then (.transfer { root := l.current_root, status := status }, l)
    else if l.balance t.sender_index < t.value then
      -- the only refusal that reports balances
      (.transfer
        { root := l.current_root
          sender_balance := l.balance t.sender_index
          receiver_balance := l.balance t.receiver_index
          status := ⟨false, "overspend rejected"⟩ }, l)
    else
      let l' := l.transferred t
      (.transfer
        { root := l'.current_root
          sender_balance := l'.balance t.sender_index
          receiver_balance := l'.balance t.receiver_index
          status := okStatus }, l')
  | .advanceEpoch =>
    if l.epoch = -1 then (.status ⟨false, "epoch overflow"⟩, l)
    else (.status okStatus, l.enter (l.epoch + 1))
  | .advanceToEpoch epoch =>
    if epoch < l.epoch then (.status ⟨false, "cannot move epoch backwards"⟩, l)
    else (.status okStatus, l.advanceTo epoch)
  | .set_current_epoch epoch =>
    if epoch < l.epoch then (.void, l.enter epoch)
    else (.void, l.advanceTo epoch)

/-! ### What a call can do -/

/-- The replies and ledgers a call can lead to: it is refused, or it has
    passed its checks and makes its update. -/
inductive Outcome (l : AbstractLedger) : Call → Reply × AbstractLedger → Prop
  | refused {call : Call} {reply : Reply} (hrefused : reply.accepted = false)
      (hroot : reply.root? = none ∨ reply.root? = some l.current_root) :
      Outcome l call (reply, l)
  | registered {request : RegistrationRequest} {reply : Reply}
      (hpassed : (firstFailure (l.registerChecks request)).ok = true) (hroom : l.hasRoom = true)
      (haccepted : reply.accepted = true)
      (hroot : reply.root? = some (l.registered request).current_root) :
      Outcome l (.register request) (reply, l.registered request)
  | replaced {entry : PrivateAccountEntry} (hid : entry.account_id ≠ [])
      (hknown : entry.account_id ∈ l.ids) :
      Outcome l (.upsertAccount entry) (.status okStatus, l.replaceEntry entry)
  | opened {entry : PrivateAccountEntry} (hid : entry.account_id ≠ [])
      (hfresh : entry.account_id ∉ l.ids) (hroom : l.hasRoom = true) :
      Outcome l (.upsertAccount entry) (.status okStatus, l.openAccount entry)
  | minted {t : PublicToPrivateMint} {reply : Reply}
      (hpassed : (firstFailure (l.mintChecks t)).ok = true) (haccepted : reply.accepted = true)
      (hroot : reply.root? = some (l.minted t).current_root) :
      Outcome l (.mint t) (reply, l.minted t)
  | transferred {t : PrivateTransfer} {reply : Reply}
      (hpassed : (firstFailure (l.transferChecks t)).ok = true)
      (hcovered : ¬ l.balance t.sender_index < t.value) (haccepted : reply.accepted = true)
      (hroot : reply.root? = some (l.transferred t).current_root) :
      Outcome l (.transfer t) (reply, l.transferred t)
  | stepped (hmax : l.epoch ≠ -1) :
      Outcome l .advanceEpoch (.status okStatus, l.enter (l.epoch + 1))
  | advanced {call : Call} {reply : Reply} {epoch : EpochNumber}
      (hcall : call = .advanceToEpoch epoch ∨ call = .set_current_epoch epoch)
      (hle : l.epoch ≤ epoch) (hroot : reply.root? = none) :
      Outcome l call (reply, l.advanceTo epoch)
  | wentBack {epoch : EpochNumber} (hback : epoch < l.epoch) :
      Outcome l (.set_current_epoch epoch) (.void, l.enter epoch)

theorem exec_outcome (l : AbstractLedger) (call : Call) : Outcome l call (l.exec call) := by
  cases call with
  | register request =>
    simp only [exec]
    split
    · next hfailed =>
      rw [Bool.not_eq_true'] at hfailed
      exact .refused (refused_registration hfailed) (Or.inr rfl)
    next hpassed =>
    rw [Bool.not_eq_true', Bool.not_eq_false] at hpassed
    split
    · next hroom => exact .registered hpassed hroom rfl rfl
    · exact .refused rfl (Or.inl rfl)
  | upsertAccount entry =>
    simp only [exec]
    split
    · exact .refused rfl (Or.inl rfl)
    next hid =>
    split
    · next hknown => exact .replaced hid hknown
    next hfresh =>
    split
    · next hroom => exact .opened hid hfresh hroom
    · exact .refused rfl (Or.inl rfl)
  | mint t =>
    simp only [exec]
    split
    · next hfailed =>
      rw [Bool.not_eq_true'] at hfailed
      exact .refused (refused_mint hfailed) (Or.inr rfl)
    next hpassed =>
    rw [Bool.not_eq_true', Bool.not_eq_false] at hpassed
    exact .minted hpassed rfl rfl
  | transfer t =>
    simp only [exec]
    split
    · next hfailed =>
      rw [Bool.not_eq_true'] at hfailed
      exact .refused (refused_transfer hfailed) (Or.inr rfl)
    next hpassed =>
    rw [Bool.not_eq_true', Bool.not_eq_false] at hpassed
    split
    · exact .refused rfl (Or.inr rfl)
    · next hcovered => exact .transferred hpassed hcovered rfl rfl
  | advanceEpoch =>
    simp only [exec]
    split
    · exact .refused rfl (Or.inl rfl)
    · next hmax => exact .stepped hmax
  | advanceToEpoch epoch =>
    simp only [exec]
    split
    · exact .refused rfl (Or.inl rfl)
    · next hforward => exact .advanced (Or.inl rfl) (UInt64.not_lt.mp hforward) rfl
  | set_current_epoch epoch =>
    simp only [exec]
    split
    · next hback => exact .wentBack hback
    · next hforward => exact .advanced (Or.inr rfl) (UInt64.not_lt.mp hforward) rfl

/-- The ledger as a machine. -/
def machine : Machine AbstractLedger Call Reply where
  init := opened
  exec := exec
  trail := fun l call => [(l.exec call).2]
  trail_last := fun _ _ => rfl

@[simp] theorem machine_init : machine.init = opened := rfl

@[simp] theorem machine_exec (l : AbstractLedger) (call : Call) :
    machine.exec l call = l.exec call := rfl

end AbstractLedger

end Prifhete
