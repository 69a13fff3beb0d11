import Prifhete.Lib.Machine
import Prifhete.State.Operations

/-! # Runs of the model

    The seven public operations that change a `PlaintextModel`, as the calls
    of a machine that starts with the constructor. `AdvanceToEpoch` loops,
    and `set_current_epoch` may call it, so the trail of these two calls is
    the list of states after each pass of the loop.

    `Transition` says once what a call can do; the invariants of the later
    modules are proved by cases on it.
-/

namespace Prifhete

namespace PlaintextModel

/-! ### Calls and replies -/

/-- A call of a public operation that changes the model. -/
inductive Call where
  | register (request : RegistrationRequest)
  | upsertAccount (entry : PrivateAccountEntry)
  | mint (mint : PublicToPrivateMint)
  | transfer (transfer : PrivateTransfer)
  | advanceEpoch
  | advanceToEpoch (epoch : EpochNumber)
  | set_current_epoch (epoch : EpochNumber)
  deriving DecidableEq, Repr

/-- What the caller gets back. -/
inductive Reply where
  | registration (result : RegistrationResult)
  | status (status : Status)
  | mint (result : MintResult)
  | transfer (result : TransferResult)
  /-- `set_current_epoch` returns nothing. -/
  | void
  /-- The call threw `std::length_error`. -/
  | lengthError
  deriving DecidableEq, Repr

/-- The status a reply carries. -/
def Reply.status? : Reply → Option Status
  | .registration result => some result.status
  | .status st => some st
  | .mint result => some result.status
  | .transfer result => some result.status
  | .void => none
  | .lengthError => none

/-- The call returned a status with `ok = true`. -/
def Reply.accepted (reply : Reply) : Bool := reply.status?.any (·.ok)

/-- The call returned a status with `ok = false`. -/
def Reply.rejected (reply : Reply) : Bool := reply.status?.any (!·.ok)

section Replies

variable {registration : RegistrationResult} {status : Status} {mint : MintResult}
  {transfer : TransferResult}

theorem accepted_registration (h : registration.status.ok = true) :
    (Reply.registration registration).accepted = true := h

theorem accepted_mint (h : mint.status.ok = true) : (Reply.mint mint).accepted = true := h

theorem accepted_transfer (h : transfer.status.ok = true) :
    (Reply.transfer transfer).accepted = true := h

theorem refused_registration (h : registration.status.ok = false) :
    (Reply.registration registration).accepted = false := h

theorem refused_status (h : status.ok = false) : (Reply.status status).accepted = false := h

theorem refused_mint (h : mint.status.ok = false) : (Reply.mint mint).accepted = false := h

theorem refused_transfer (h : transfer.status.ok = false) :
    (Reply.transfer transfer).accepted = false := h

/-- A call is not both accepted and rejected. -/
theorem accepted_of_rejected {reply : Reply} (h : reply.rejected = true) :
    reply.accepted = false := by
  unfold Reply.rejected at h
  unfold Reply.accepted
  cases hstatus : reply.status? with
  | none => rfl
  | some status =>
    rw [hstatus] at h
    simpa using h

theorem rejected_of_accepted {reply : Reply} (h : reply.accepted = true) :
    reply.rejected = false := by
  cases hreject : reply.rejected with
  | false => rfl
  | true =>
    rw [accepted_of_rejected hreject] at h
    contradiction

end Replies

/-- The root reference a reply carries. -/
def Reply.root? : Reply → Option RootReference
  | .registration result => some result.root
  | .mint result => some result.root
  | .transfer result => some result.root
  | _ => none

/-- The calls that only concern the epoch. -/
def Call.movesEpoch : Call → Bool
  | .advanceEpoch => true
  | .advanceToEpoch _ => true
  | .set_current_epoch _ => true
  | _ => false

/-- What holds of these three holds of every call that moves the epoch. -/
theorem Call.of_movesEpoch {P : Call → Prop} (hadvance : P .advanceEpoch)
    (hto : ∀ epoch, P (.advanceToEpoch epoch)) (hset : ∀ epoch, P (.set_current_epoch epoch))
    {call : Call} (h : call.movesEpoch = true) : P call := by
  cases call with
  | advanceEpoch => exact hadvance
  | advanceToEpoch epoch => exact hto epoch
  | set_current_epoch epoch => exact hset epoch
  | _ => contradiction

/-! ### The machine -/

/-- One call. -/
def exec (m : PlaintextModel) : Call → Reply × PlaintextModel
  | .register request =>
    match m.register request with
    | some (result, m') => (.registration result, m')
    | none => (.lengthError, m)
  | .upsertAccount entry =>
    match m.upsertAccount entry with
    | some (status, m') => (.status status, m')
    | none => (.lengthError, m)
  | .mint mint => (.mint (m.mint mint).1, (m.mint mint).2)
  | .transfer transfer => (.transfer (m.transfer transfer).1, (m.transfer transfer).2)
  | .advanceEpoch => (.status m.advanceEpoch.1, m.advanceEpoch.2)
  | .advanceToEpoch epoch => (.status (m.advanceToEpoch epoch).1, (m.advanceToEpoch epoch).2)
  | .set_current_epoch epoch => (.void, m.set_current_epoch epoch)

/-- The states after each pass of the loop of `AdvanceToEpoch`. -/
def advanceToEpochTrail (epoch : EpochNumber) (m : PlaintextModel) : List PlaintextModel :=
  if _hlt : m.current_epoch_ < epoch then
    if _hok : m.advanceEpoch.1.ok = true then
      m.advanceEpoch.2 :: advanceToEpochTrail epoch m.advanceEpoch.2
    else [m.advanceEpoch.2]
  else []
termination_by epoch.toNat - m.current_epoch_.toNat
decreasing_by
  have hepoch := advanceEpoch_epoch _hok
  have hbound := UInt64.lt_iff_toNat_lt.mp _hlt
  omega

/-- The states a call passes through. -/
def trail (m : PlaintextModel) : Call → List PlaintextModel
  | .advanceToEpoch epoch => advanceToEpochTrail epoch m
  | .set_current_epoch epoch =>
    if m.current_epoch_ < epoch then
      -- the fallback of the source assigns the epoch once more
      advanceToEpochTrail epoch m ++
        if (m.advanceToEpoch epoch).1.ok then [] else [m.set_current_epoch epoch]
    else [m.set_current_epoch epoch]
  | call => [(m.exec call).2]

/-- The loop passes through the following epochs one by one. -/
theorem advanceToEpochTrail_eq (epoch : EpochNumber) (m : PlaintextModel) :
    advanceToEpochTrail epoch m =
      (List.range (epoch.toNat - m.current_epoch_.toNat)).map fun k => m.advancedBy (k + 1) := by
  fun_induction advanceToEpochTrail epoch m with
  | case1 m hlt hok ih =>
    have hnext : m.advanceEpoch.2 = m.nextEpoch := by
      rw [advanceEpoch_of_room (Word.ne_max_of_lt hlt)]
    have hepoch := advanceEpoch_epoch hok
    have hbound := UInt64.lt_iff_toNat_lt.mp hlt
    have hcount : epoch.toNat - m.current_epoch_.toNat =
        epoch.toNat - (m.current_epoch_.toNat + 1) + 1 := by omega
    rw [ih, hepoch, hnext, hcount, List.range_succ_eq_map, List.map_cons, List.map_map]
    rfl
  | case2 m hlt hok =>
    rw [advanceEpoch_of_room (Word.ne_max_of_lt hlt)] at hok
    exact absurd rfl hok
  | case3 m hge =>
    have hbound := UInt64.le_iff_toNat_le.mp (UInt64.not_lt.mp hge)
    rw [Nat.sub_eq_zero_of_le hbound]
    rfl

/-- The trail of `n` steps. -/
def advanceTrail (m : PlaintextModel) (n : Nat) : List PlaintextModel :=
  (List.range n).map fun k => m.advancedBy (k + 1)

theorem advanceTrail_succ (m : PlaintextModel) (n : Nat) :
    m.advanceTrail (n + 1) = m.advanceTrail n ++ [m.advancedBy (n + 1)] := by
  simp [advanceTrail, List.range_succ]

/-- Everything a call can do. -/
inductive Transition (m : PlaintextModel) :
    Call → Reply → List PlaintextModel → PlaintextModel → Prop where
  /-- Refused, thrown, or asked for the epoch the model is in. -/
  | idle {call : Call} {reply : Reply} {trail : List PlaintextModel}
      (hreply : reply.accepted = false) (htrail : trail = [] ∨ trail = [m])
      (hroot : ∀ root, reply.root? = some root → root = m.current_root_) :
      Transition m call reply trail m
  /-- `AdvanceToEpoch` of the current epoch. -/
  | reached {epoch : EpochNumber} :
      Transition m (.advanceToEpoch epoch) (.status okStatus) [] m
  | registered {request : RegistrationRequest} {result : RegistrationResult}
      {states : StdVector AccountState}
      (hid : request.account_id ≠ []) (hnew : m.hasAccount request.account_id = false)
      (hpush : m.account_states_.push_back
        { entry := m.registrationEntry request, balance := 0 } = some states)
      (hok : result.status.ok = true) :
      Transition m (.register request) (.registration result)
        [m.registered request states] (m.registered request states)
  | replaced {entry : PrivateAccountEntry} {index : UInt64}
      (hid : entry.account_id ≠ [])
      (hindex : m.account_indices_.lookup entry.account_id = some index) :
      Transition m (.upsertAccount entry) (.status okStatus)
        [m.replacedEntry index entry] (m.replacedEntry index entry)
  | inserted {entry : PrivateAccountEntry} {states : StdVector AccountState}
      (hid : entry.account_id ≠ [])
      (hnew : m.account_indices_.lookup entry.account_id = none)
      (hpush : m.account_states_.push_back { entry := entry, balance := 0 } = some states) :
      Transition m (.upsertAccount entry) (.status okStatus)
        [m.insertedEntry entry states] (m.insertedEntry entry states)
  | minted {mint : PublicToPrivateMint} {result : MintResult}
      (hadm : m.mintAdmissible mint = true) (hok : result.status.ok = true) :
      Transition m (.mint mint) (.mint result) [m.minted mint] (m.minted mint)
  | transferred {transfer : PrivateTransfer} {result : TransferResult}
      (hadm : m.transferAdmissible transfer = true) (hok : result.status.ok = true) :
      Transition m (.transfer transfer) (.transfer result)
        [m.transferred transfer] (m.transferred transfer)
  /-- One or more steps forward. -/
  | advanced {call : Call} {reply : Reply} {n : Nat} (hmoves : call.movesEpoch = true)
      (hreply : reply.rejected = false) (hpos : 0 < n)
      (hroom : m.current_epoch_.toNat + n < 2 ^ 64) :
      Transition m call reply (m.advanceTrail n) (m.advancedBy n)
  /-- The backward branch of `set_current_epoch`. -/
  | movedBack {epoch : EpochNumber} (hlt : epoch < m.current_epoch_) :
      Transition m (.set_current_epoch epoch) .void [m.enterEpoch epoch] (m.enterEpoch epoch)

/-- The trail of a list of steps ends where they lead. -/
theorem getLast_advanceTrail (m : PlaintextModel) (n : Nat) :
    (m :: m.advanceTrail n).getLast (List.cons_ne_nil _ _) = m.advancedBy n := by
  cases n with
  | zero => rfl
  | succ n => simp [advanceTrail_succ]

theorem exec_register (m : PlaintextModel) (request : RegistrationRequest) :
    Transition m (.register request) (m.exec (.register request)).1
      (m.trail (.register request)) (m.exec (.register request)).2 := by
  simp only [trail]
  by_cases hrefused : request.account_id = [] ∨ m.hasAccount request.account_id = true
  · obtain ⟨result, hresult, hok, hroot⟩ := register_refused hrefused
    simp only [exec, hresult]
    exact .idle (refused_registration hok) (Or.inr rfl) (by simp [Reply.root?, hroot])
  · obtain ⟨hid, hnew⟩ := not_or.mp hrefused
    rw [Bool.not_eq_true] at hnew
    have hregister := register_of_fresh hid hnew
    -- a full vector throws
    cases hpush : m.account_states_.push_back
        { entry := m.registrationEntry request, balance := 0 } with
    | none =>
      simp only [exec, hregister, hpush, Option.map_none]
      exact .idle rfl (Or.inr rfl) nofun
    | some states =>
      simp only [exec, hregister, hpush, Option.map_some]
      exact .registered hid hnew hpush rfl

theorem exec_upsertAccount (m : PlaintextModel) (entry : PrivateAccountEntry) :
    Transition m (.upsertAccount entry) (m.exec (.upsertAccount entry)).1
      (m.trail (.upsertAccount entry)) (m.exec (.upsertAccount entry)).2 := by
  simp only [trail]
  by_cases hid : entry.account_id = []
  · obtain ⟨status, hstatus, hok⟩ := upsertAccount_refused (m := m) hid
    simp only [exec, hstatus]
    exact .idle (refused_status hok) (Or.inr rfl) nofun
  · cases hindex : m.account_indices_.lookup entry.account_id with
    | some index =>
      simp only [exec, upsertAccount_of_known hid hindex]
      exact .replaced hid hindex
    | none =>
      have hupsert := upsertAccount_of_unknown hid hindex
      cases hpush : m.account_states_.push_back { entry := entry, balance := 0 } with
      | none =>
        simp only [exec, hupsert, hpush, Option.map_none]
        exact .idle rfl (Or.inr rfl) nofun
      | some states =>
        simp only [exec, hupsert, hpush, Option.map_some]
        exact .inserted hid hindex hpush

theorem exec_mint (m : PlaintextModel) (t : PublicToPrivateMint) :
    Transition m (.mint t) (m.exec (.mint t)).1 (m.trail (.mint t)) (m.exec (.mint t)).2 := by
  simp only [trail, exec]
  cases hadm : m.mintAdmissible t with
  | true =>
    rw [mint_of_admissible hadm]
    exact .minted hadm rfl
  | false =>
    obtain ⟨result, hresult, hok, hroot⟩ := mint_refused hadm
    rw [hresult]
    exact .idle (refused_mint hok) (Or.inr rfl) (by simp [Reply.root?, hroot])

theorem exec_transfer (m : PlaintextModel) (t : PrivateTransfer) :
    Transition m (.transfer t) (m.exec (.transfer t)).1 (m.trail (.transfer t))
      (m.exec (.transfer t)).2 := by
  simp only [trail, exec]
  cases hadm : m.transferAdmissible t with
  | true =>
    rw [transfer_of_admissible hadm]
    exact .transferred hadm rfl
  | false =>
    obtain ⟨result, hresult, hok, hroot⟩ := transfer_refused hadm
    rw [hresult]
    exact .idle (refused_transfer hok) (Or.inr rfl) (by simp [Reply.root?, hroot])

theorem exec_advanceEpoch (m : PlaintextModel) :
    Transition m .advanceEpoch (m.exec .advanceEpoch).1 (m.trail .advanceEpoch)
      (m.exec .advanceEpoch).2 := by
  simp only [trail, exec]
  by_cases hmax : m.current_epoch_ = -1
  · rw [advanceEpoch_refused hmax]
    exact .idle rfl (Or.inr rfl) nofun
  · rw [advanceEpoch_of_room hmax]
    have hnext := Word.toNat_add_one hmax
    have hlt := (m.current_epoch_ + 1).toNat_lt
    exact .advanced (n := 1) rfl rfl Nat.one_pos (by omega)

theorem exec_advanceToEpoch (m : PlaintextModel) (epoch : EpochNumber) :
    Transition m (.advanceToEpoch epoch) (m.exec (.advanceToEpoch epoch)).1
      (m.trail (.advanceToEpoch epoch)) (m.exec (.advanceToEpoch epoch)).2 := by
  simp only [trail, exec]
  have hlt := epoch.toNat_lt
  by_cases hback : epoch < m.current_epoch_
  · have hnat := UInt64.lt_iff_toNat_lt.mp hback
    rw [advanceToEpoch_refused hback, advanceToEpochTrail_eq,
      Nat.sub_eq_zero_of_le (by omega)]
    exact .idle rfl (Or.inl rfl) nofun
  · have hle := UInt64.not_lt.mp hback
    have hnat := UInt64.le_iff_toNat_le.mp hle
    rw [advanceToEpoch_of_le hle, advanceToEpochTrail_eq]
    by_cases hstay : epoch.toNat - m.current_epoch_.toNat = 0
    · -- the loop is not entered, and the call reports success
      rw [hstay]
      exact .reached
    · exact .advanced rfl rfl (by omega) (by omega)

theorem exec_set_current_epoch (m : PlaintextModel) (epoch : EpochNumber) :
    Transition m (.set_current_epoch epoch) (m.exec (.set_current_epoch epoch)).1
      (m.trail (.set_current_epoch epoch)) (m.exec (.set_current_epoch epoch)).2 := by
  simp only [trail, exec]
  have hbound := epoch.toNat_lt
  by_cases hforward : m.current_epoch_ < epoch
  · have hnat := UInt64.lt_iff_toNat_lt.mp hforward
    -- the loop succeeds, so the fallback adds nothing to the trail
    rw [if_pos hforward, advanceToEpoch_of_le (UInt64.le_of_lt hforward),
      set_current_epoch_of_gt hforward, advanceToEpochTrail_eq]
    simp only [okStatus_ok, if_true, List.append_nil]
    exact .advanced rfl rfl (by omega) (by omega)
  · rw [if_neg hforward]
    by_cases hback : epoch < m.current_epoch_
    · rw [set_current_epoch_of_lt hback]
      exact .movedBack hback
    · have hsame : epoch = m.current_epoch_ :=
        UInt64.le_antisymm (UInt64.not_lt.mp hforward) (UInt64.not_lt.mp hback)
      rw [hsame, set_current_epoch_self]
      exact .idle rfl (Or.inr rfl) nofun

/-- Every call makes one of the transitions. -/
theorem exec_transition (m : PlaintextModel) (call : Call) :
    Transition m call (m.exec call).1 (m.trail call) (m.exec call).2 := by
  cases call with
  | register request => exact m.exec_register request
  | upsertAccount entry => exact m.exec_upsertAccount entry
  | mint t => exact m.exec_mint t
  | transfer t => exact m.exec_transfer t
  | advanceEpoch => exact m.exec_advanceEpoch
  | advanceToEpoch epoch => exact m.exec_advanceToEpoch epoch
  | set_current_epoch epoch => exact m.exec_set_current_epoch epoch

/-- The last state a call passes through is the one it leaves. -/
theorem Transition.getLast_trail {m m' : PlaintextModel} {call : Call} {reply : Reply}
    {trail : List PlaintextModel} (h : Transition m call reply trail m') :
    (m :: trail).getLast (List.cons_ne_nil _ _) = m' := by
  cases h with
  | idle _ htrail => rcases htrail with rfl | rfl <;> rfl
  | advanced => exact getLast_advanceTrail ..
  | _ => rfl

/-- The model as a machine. -/
def machine : Machine PlaintextModel Call Reply where
  init := create
  exec := exec
  trail := trail
  trail_last := fun m call => (m.exec_transition call).getLast_trail

@[simp] theorem machine_init : machine.init = create := rfl

@[simp] theorem machine_exec (m : PlaintextModel) (call : Call) :
    machine.exec m call = m.exec call := rfl

@[simp] theorem machine_trail (m : PlaintextModel) (call : Call) :
    machine.trail m call = m.trail call := rfl

end PlaintextModel

/-- One call of a run of the model. -/
abbrev Event :=
  Machine.Event PlaintextModel PlaintextModel.Call PlaintextModel.Reply

namespace PlaintextModel

/-! ### What the accepted calls of a history carry -/

variable {α : Type}

/-- What `f` reads off a call, if the call has been accepted. -/
def ifAccepted (f : Call → Option α) (call : Call) (reply : Reply) : Option α :=
  if reply.accepted = true then f call else none

/-- What `f` reads off the accepted calls of a history, oldest first. -/
def ofAccepted (f : Call → Option α) (h : List Event) : List α :=
  h.filterMap fun e => ifAccepted f e.call e.reply

variable (f : Call → Option α)

@[simp] theorem ofAccepted_nil : ofAccepted f [] = [] := rfl

theorem ofAccepted_concat (h : List Event) (e : Event) :
    ofAccepted f (h ++ [e]) = ofAccepted f h ++ (ifAccepted f e.call e.reply).toList := by
  rw [ofAccepted, List.filterMap_append]
  cases he : ifAccepted f e.call e.reply <;> simp [ofAccepted, he]

theorem ifAccepted_of_accepted {call : Call} {reply : Reply} (h : reply.accepted = true) :
    ifAccepted f call reply = f call := if_pos h

theorem ifAccepted_eq_some {call : Call} {reply : Reply} {a : α} :
    ifAccepted f call reply = some a ↔ reply.accepted = true ∧ f call = some a := by
  unfold ifAccepted
  split
  · next hok => simp [hok]
  · next hok => simp [hok]

theorem ifAccepted_of_refused {call : Call} {reply : Reply} (h : reply.accepted = false) :
    ifAccepted f call reply = none := by
  rw [ifAccepted, h]
  rfl

theorem ifAccepted_of_none {call : Call} (h : f call = none) (reply : Reply) :
    ifAccepted f call reply = none := by
  rw [ifAccepted, h]
  split
  · rfl
  · rfl

end PlaintextModel

end Prifhete
