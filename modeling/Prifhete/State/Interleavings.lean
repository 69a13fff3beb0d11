import Prifhete.State.Reachable
import Mathlib.Data.UInt

/-! # Registrations among transactions

    Within an epoch many clients register, mint and transfer at once, and
    the model sees some interleaving of their calls. What it comes to is
    determined by the registrations that were accepted, in their order, and
    by the transactions that were accepted, in any order: an interleaving
    shows only in the order of the PRF log. The reason is a closed form of
    the state (`Tally`): ids appended, balances shifted by sums, roots
    counted, entries brought up to the current root.
-/

namespace Prifhete

open PlaintextModel AbstractLedger

namespace PlaintextModel

/-- A registration, mint or transfer. -/
def Call.inEpoch : Call → Bool
  | .register _ => true
  | .mint _ => true
  | .transfer _ => true
  | _ => false

def Call.registration? : Call → Option RegistrationRequest
  | .register request => some request
  | _ => none

def Call.transaction? : Call → Option Transaction
  | .mint t => some (.mint t)
  | .transfer t => some (.transfer t)
  | _ => none

theorem Transaction.transaction?_call (t : Transaction) : t.call.transaction? = some t := by
  cases t <;> rfl

theorem Transaction.registration?_call (t : Transaction) : t.call.registration? = none := by
  cases t <;> rfl

/-- What the transactions add to the balance at an index. -/
def received (i : AccountIndex) (ts : List Transaction) : UInt64 :=
  (((ts.flatMap Transaction.shifts).filter fun shift => shift.1 = i).map (·.2)).sum

theorem received_concat (i : AccountIndex) (ts : List Transaction) (t : Transaction) :
    received i (ts ++ [t]) = received i ts + received i [t] := by
  simp [received]

theorem received_perm {ts ts' : List Transaction} (h : ts.Perm ts') (i : AccountIndex) :
    received i ts = received i ts' := by
  unfold received
  exact (((h.flatMap_right _).filter _).map _).sum_eq

/-- The balances after a transaction, by what it adds to each. -/
theorem settle_eq_received (balance : AccountIndex → UInt64) (t : Transaction)
    (i : AccountIndex) : t.settle balance i = balance i + received i [t] := by
  cases t with
  | mint t =>
    by_cases hi : t.recipient_index = i
    · simp [received, Transaction.shifts, Transaction.settle, hi]
    · simp [received, Transaction.shifts, Transaction.settle, hi,
        Function.update_of_ne (Ne.symm hi)]
  | transfer t =>
    have hsub : ∀ a b : UInt64, a - b = a + -b := fun a b => UInt64.sub_eq_add_neg a b
    by_cases hs : t.sender_index = i
    · by_cases hr : t.receiver_index = i
      · simp [received, Transaction.shifts, Transaction.settle, hs, hr, hsub]
      · simp [received, Transaction.shifts, Transaction.settle, hs, hr, hsub,
          Function.update_of_ne (Ne.symm hr)]
    · by_cases hr : t.receiver_index = i
      · simp [received, Transaction.shifts, Transaction.settle, hs, hr,
          Function.update_of_ne (Ne.symm hs)]
      · simp [received, Transaction.shifts, Transaction.settle, hs, hr,
          Function.update_of_ne (Ne.symm hr), Function.update_of_ne (Ne.symm hs)]

end PlaintextModel

namespace AbstractLedger

variable {l : AbstractLedger}

/-! ### One call -/

/-- An entry without its stamp. -/
def core (state : AccountState) : PrivateAccountEntry :=
  { state.entry with epoch := 0, inclusion_root := {} }

@[simp] theorem core_stamp (root : RootReference) (state : AccountState) :
    core (stamp root state) = core state := rfl

/-- A stamp covers the one before it. -/
@[simp] theorem stamp_stamp (root root' : RootReference) (state : AccountState) :
    stamp root (stamp root' state) = stamp root state := rfl

/-- A stamped entry is known from the root and the rest of it. -/
theorem entry_stamp (root : RootReference) (state : AccountState) :
    (stamp root state).entry =
      { core state with epoch := root.epoch, inclusion_root := root.root } := rfl

/-- The entry a registration opens an account with, without its stamp. -/
def coreOf (request : RegistrationRequest) : PrivateAccountEntry :=
  { account_id := request.account_id, public_key := request.public_key }

/-- Every entry is brought up to the current root. -/
def Stamped (l : AbstractLedger) : Prop :=
  ∀ state ∈ l.accounts.records, stamp l.current_root state = state

theorem issue_current_root (l : AbstractLedger) (epoch : EpochNumber) :
    (l.issue epoch).current_root = l.newRoot epoch := by
  rw [current_root, issue_epoch, issue_issued, List.length_append, List.length_singleton, newRoot]

theorem issue_stamped (l : AbstractLedger) (epoch : EpochNumber) : (l.issue epoch).Stamped := by
  intro state hstate
  rw [issue_records] at hstate
  obtain ⟨before, _, hbefore⟩ := List.mem_map.mp hstate
  rw [issue_current_root, ← hbefore, stamp_stamp]

theorem issue_cores (l : AbstractLedger) (epoch : EpochNumber) :
    (l.issue epoch).accounts.records.map core = l.accounts.records.map core := by
  rw [issue_records]
  exact Registry.map_key_map (core_stamp _)

theorem post_cores (l : AbstractLedger) (i : AccountIndex) (f : UInt64 → UInt64) :
    (l.post i f).accounts.records.map core = l.accounts.records.map core :=
  Registry.map_key_modify fun _ => rfl

/-- What an accepted registration does. -/
structure Joined (l : AbstractLedger) (request : RegistrationRequest) (l' : AbstractLedger) :
    Prop where
  epoch : l'.epoch = l.epoch
  issued : l'.issued = l.issued ++ [l.epoch]
  spent : l'.spent = l.spent
  cores : l'.accounts.records.map core = l.accounts.records.map core ++ [coreOf request]
  stamped : l'.Stamped
  balance : l'.balance = l.balance

theorem joined_registered {request : RegistrationRequest} (hfresh : request.account_id ∉ l.ids) :
    Joined l request (l.registered request) := by
  refine ⟨issue_epoch _ _, ?_, ?_, ?_, issue_stamped _ _, ?_⟩
  · rw [registered, issue_issued, openAccount_issued]
  · show (l.openAccount _).spent = _
    rw [openAccount_spent]
  · have hnew : (l.registrationEntry request).account_id ∉ l.ids := hfresh
    rw [registered, issue_cores, openAccount_records, if_pos hnew, List.map_append]
    rfl
  · rw [registered, issue_balance, openAccount_balance]

/-- The accounts after an accepted transaction. -/
structure Restamped (l l' : AbstractLedger) : Prop where
  cores : l'.accounts.records.map core = l.accounts.records.map core
  stamped : l'.Stamped

/-- A call within an epoch is without effect, or it is an accepted
    registration or an accepted transaction. -/
theorem exec_inEpoch {call : Call} (h : call.inEpoch = true) :
    ((l.exec call).1.accepted = false ∧ (l.exec call).2 = l) ∨
    (∃ request, call = .register request ∧ (l.exec call).1.accepted = true ∧
      Joined l request (l.exec call).2) ∨
    (∃ t : Transaction, call = t.call ∧ (l.exec call).1.accepted = true ∧
      After l t (l.exec call).2 ∧ Restamped l (l.exec call).2) := by
  have houtcome := l.exec_outcome call
  generalize l.exec call = result at houtcome ⊢
  cases houtcome with
  | refused hrefused hroot => exact Or.inl ⟨hrefused, rfl⟩
  | @registered request reply hpassed hroom haccepted hroot =>
    obtain ⟨_, hfresh⟩ := registerChecks_ok.mp hpassed
    exact Or.inr (Or.inl ⟨request, rfl, haccepted, joined_registered hfresh⟩)
  | @minted t reply hpassed haccepted hroot =>
    obtain ⟨_, hindex, _, hfresh⟩ := mintChecks_ok.mp hpassed
    refine Or.inr (Or.inr ⟨.mint t, rfl, haccepted, after_minted hindex hfresh, ?_,
      issue_stamped _ _⟩)
    rw [minted, issue_cores, post_cores, spend_accounts]
  | @transferred t reply hpassed hcovered haccepted hroot =>
    obtain ⟨_, hsender, hreceiver, _, hfresh⟩ := transferChecks_ok.mp hpassed
    refine Or.inr (Or.inr ⟨.transfer t, rfl, haccepted,
      after_transferred hsender hreceiver hfresh, ?_, issue_stamped _ _⟩)
    rw [transferred, issue_cores, post_cores, post_cores, spend_accounts]
  | advanced hcall hle hroot =>
    -- the epoch does not move
    rcases hcall with hto | hset
    · rw [hto] at h
      contradiction
    · rw [hset] at h
      contradiction
  | _ => contradiction

/-! ### The closed form -/

/-- What accepted registrations and transactions within an epoch come to. -/
structure Tally (l : AbstractLedger) (rs : List RegistrationRequest) (ts : List Transaction)
    (l' : AbstractLedger) : Prop where
  epoch : l'.epoch = l.epoch
  issued : l'.issued = l.issued ++ List.replicate (rs.length + ts.length) l.epoch
  spent : l'.spent = l.spent ++ ts.map (·.prf_output)
  cores : l'.accounts.records.map core = l.accounts.records.map core ++ rs.map coreOf
  balance : ∀ i, l'.balance i = l.balance i + received i ts
  untouched : rs = [] → ts = [] → l' = l
  stamped : rs ≠ [] ∨ ts ≠ [] → l'.Stamped

theorem Tally.refl (l : AbstractLedger) : Tally l [] [] l where
  epoch := rfl
  issued := (List.append_nil _).symm
  spent := (List.append_nil _).symm
  cores := (List.append_nil _).symm
  balance := fun _ => (UInt64.add_zero _).symm
  untouched := fun _ _ => rfl
  stamped := by simp

section Steps

variable {k k' : AbstractLedger} {rs : List RegistrationRequest} {ts : List Transaction}

theorem Tally.join (h : Tally l rs ts k) {request : RegistrationRequest}
    (hjoin : Joined k request k') : Tally l (rs ++ [request]) ts k' where
  epoch := hjoin.epoch.trans h.epoch
  issued := by
    rw [hjoin.issued, h.issued, h.epoch, List.append_assoc, ← List.replicate_succ',
      List.length_append, List.length_singleton, Nat.add_right_comm]
  spent := hjoin.spent.trans h.spent
  cores := by rw [hjoin.cores, h.cores, List.append_assoc, List.map_append]; rfl
  balance := fun i => by rw [hjoin.balance, h.balance]
  untouched := by simp
  stamped := fun _ => hjoin.stamped

theorem Tally.pay (h : Tally l rs ts k) {t : Transaction} (hafter : After k t k')
    (hentries : Restamped k k') : Tally l rs (ts ++ [t]) k' where
  epoch := hafter.epoch.trans h.epoch
  issued := by
    rw [hafter.issued, h.issued, h.epoch, List.append_assoc, ← List.replicate_succ',
      List.length_append, List.length_singleton, Nat.add_assoc]
  spent := by rw [hafter.spent, h.spent, List.append_assoc, List.map_append]; rfl
  cores := hentries.cores.trans h.cores
  balance := fun i => by
    rw [hafter.balance, settle_eq_received, h.balance, UInt64.add_assoc, ← received_concat]
  untouched := by simp
  stamped := fun _ => hentries.stamped

end Steps

/-- Under one root, what an entry is without its stamp tells the entry. -/
theorem entries_of_cores {k k' : AbstractLedger}
    (hcores : k'.accounts.records.map core = k.accounts.records.map core) (hk : k.Stamped)
    (hk' : k'.Stamped) (hroot : k'.current_root = k.current_root) :
    k'.accounts.records.map (·.entry) = k.accounts.records.map (·.entry) := by
  have hrestore : ∀ {p : AbstractLedger}, p.Stamped → p.accounts.records.map (·.entry) =
      (p.accounts.records.map core).map fun entry =>
        { entry with epoch := p.current_root.epoch, inclusion_root := p.current_root.root } := by
    intro p hp
    rw [List.map_map]
    apply List.map_congr_left
    intro state hstate
    rw [Function.comp, ← entry_stamp, hp state hstate]
  rw [hrestore hk, hrestore hk', hcores, hroot]

/-- The closed form leaves nothing open but the order of the PRF outputs. -/
theorem Tally.unique {rs : List RegistrationRequest} {ts ts' : List Transaction}
    {k k' : AbstractLedger} (h : Tally l rs ts k) (h' : Tally l rs ts' k') (hperm : ts.Perm ts')
    (hbound : k.accounts.records.length ≤ maxSize) :
    k'.accounts = k.accounts ∧ k'.issued = k.issued ∧ k'.spent.Perm k.spent := by
  have hissued : k'.issued = k.issued := by rw [h.issued, h'.issued, hperm.length_eq]
  refine ⟨?_, hissued, ?_⟩
  · by_cases hnone : rs = [] ∧ ts = []
    · obtain ⟨hrs, hts⟩ := hnone
      rw [hts, List.nil_perm] at hperm
      rw [h.untouched hrs hts, h'.untouched hrs hperm]
    · rw [not_and_or] at hnone
      have hnone' : rs ≠ [] ∨ ts' ≠ [] := by
        refine hnone.imp_right ?_
        intro hts hts'
        rw [hts', List.perm_nil] at hperm
        exact hts hperm
      have hroot : k'.current_root = k.current_root := by
        rw [current_root, current_root, h.epoch, h'.epoch, hissued]
      refine Registry.ext (records_eq_of hbound ?_ ?_)
      · exact entries_of_cores (h.cores.symm ▸ h'.cores) (h.stamped hnone)
          (h'.stamped hnone') hroot
      · intro i _
        rw [h.balance, h'.balance, received_perm hperm]
  · rw [h.spent, h'.spent]
    exact (hperm.map _).symm.append_left _

end AbstractLedger

/-! ### Runs -/

namespace PlaintextModel

variable {m m' : PlaintextModel} {l l' : AbstractLedger}

/-- A run within an epoch comes to what it has accepted. -/
theorem exists_tally (h : Represents m l) {later : List Call}
    (hin : ∀ c ∈ later, c.inEpoch = true) :
    ∃ k, Represents ((machine.startingAt m).final later) k ∧
      Tally l (ofAccepted Call.registration? ((machine.startingAt m).events later))
        (ofAccepted Call.transaction? ((machine.startingAt m).events later)) k := by
  induction later using List.reverseRecOn with
  | nil => exact ⟨l, h, .refl l⟩
  | append_singleton later c ih =>
    obtain ⟨k, hk, htally⟩ := ih fun d hd => hin d (List.mem_append_left _ hd)
    have hc : c.inEpoch = true := hin c (by simp)
    obtain ⟨hreply, hk'⟩ := hk.exec c
    refine ⟨(k.exec c).2, ?_, ?_⟩
    · rw [Machine.final_concat]
      exact hk'
    rw [Machine.events_concat, ofAccepted_concat, ofAccepted_concat, Machine.event_call,
      Machine.event_reply, machine.startingAt_exec, machine_exec, hreply]
    rcases exec_inEpoch (l := k) hc with
      ⟨hrefused, hsame⟩ | ⟨request, hcall, hok, hjoined⟩ |
      ⟨t, hcall, hok, hafter, hentries⟩
    · rw [ifAccepted_of_refused _ hrefused, ifAccepted_of_refused _ hrefused, hsame]
      simpa using htally
    · rw [ifAccepted_of_accepted _ hok, ifAccepted_of_accepted _ hok]
      rw [hcall] at hjoined ⊢
      simpa [Call.registration?, Call.transaction?] using htally.join hjoined
    · rw [ifAccepted_of_accepted _ hok, ifAccepted_of_accepted _ hok]
      rw [hcall] at hafter hentries ⊢
      rw [t.transaction?_call, t.registration?_call]
      simpa using htally.pay hafter hentries

/-- The log may be put in the order of another ledger. -/
theorem Represents.relogged (h : Represents m l) (haccounts : l'.accounts = l.accounts)
    (hissued : l'.issued = l.issued) (hspent : l'.spent.Perm l.spent) :
    Represents { m with accepted_prf_outputs_in_current_epoch_ := l'.spent } l' where
  agree := ⟨h.agree.indexes, h.agree.stores⟩
  accounts := h.accounts.trans (congrArg Registry.records haccounts.symm)
  issued := hissued ▸ h.issued.stay ⟨rfl, rfl, rfl, rfl, rfl⟩
  spent := by
    refine ⟨rfl, h.spent.2.trans ?_⟩
    exact List.toFinset_eq_of_perm _ _ (hspent.map _).symm

/-- **Interleavings agree.** Two continuations of a run by registrations,
    mints and transfers, in which the same registrations are accepted in the
    same order and the same transactions in any order, end in the same
    state, but for the order of the PRF log. -/
theorem interleavings_agree (calls later later' : List Call)
    (hin : ∀ c ∈ later, c.inEpoch = true) (hin' : ∀ c ∈ later', c.inEpoch = true) :
    let s := machine.final calls
    let history := (machine.startingAt s).events later
    let history' := (machine.startingAt s).events later'
    ofAccepted Call.registration? history = ofAccepted Call.registration? history' →
    (ofAccepted Call.transaction? history).Perm (ofAccepted Call.transaction? history') →
      (machine.final (calls ++ later)).withoutLog = (machine.final (calls ++ later')).withoutLog ∧
        (machine.final (calls ++ later)).accepted_prf_outputs.Perm
          (machine.final (calls ++ later')).accepted_prf_outputs := by
  intro s history history' hregistrations htransactions
  obtain ⟨k, hk, htally⟩ := exists_tally (run_represents calls) hin
  obtain ⟨k', hk', htally'⟩ := exists_tally (run_represents calls) hin'
  rw [← machine.final_append] at hk hk'
  have hbound := (machine.final (calls ++ later)).account_states_.length_le
  rw [hk.accounts] at hbound
  rw [← show ofAccepted Call.registration? history = _ from hregistrations] at htally'
  obtain ⟨haccounts, hissued, hspent⟩ := htally.unique htally' htransactions hbound
  have hsame := (hk.relogged haccounts hissued hspent).unique hk'
  have hview := congrArg PlaintextModel.withoutLog hsame
  refine ⟨hview, ?_⟩
  rw [show (machine.final (calls ++ later)).accepted_prf_outputs = k.spent from hk.spent.1,
    show (machine.final (calls ++ later')).accepted_prf_outputs = k'.spent from hk'.spent.1]
  exact hspent.symm

/-- A registration before and after a mint. -/
theorem interleavings_agree_mint_and_registration :
    let calls : List Call :=
      [.register { account_id := StdString.ofAscii "alice", public_key := {} }]
    let bob : Call := .register { account_id := StdString.ofAscii "bob", public_key := {} }
    let mint : Call := .mint {
      transaction_id := StdString.ofAscii "mint-1"
      recipient_index := { value := 0 }
      value := 5
      prf_output := { bytes := [1] }
      referenced_root := rootFor 0 { value := 2 } }
    ofAccepted Call.transaction?
        ((machine.startingAt (machine.final calls)).events [bob, mint]) ≠ [] ∧
      (machine.final (calls ++ [bob, mint])).withoutLog =
        (machine.final (calls ++ [mint, bob])).withoutLog := by
  intro calls bob mint
  have hin : ∀ c ∈ [bob, mint], c.inEpoch = true := by decide
  have hin' : ∀ c ∈ [mint, bob], c.inEpoch = true := by decide
  refine ⟨by decide +kernel, ?_⟩
  exact (interleavings_agree calls [bob, mint] [mint, bob] hin hin' (by decide +kernel)
    (List.Perm.of_eq (by decide +kernel))).1

end PlaintextModel

end Prifhete
