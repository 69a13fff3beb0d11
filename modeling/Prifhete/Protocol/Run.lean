import Prifhete.Protocol.EntryPoints
import Prifhete.State.Accounts
import Prifhete.State.Roots

/-! # Runs of model and protocol together

    The calls of the model interleaved with those of the protocol entry
    points. To the model an entry point is a call of its own or nothing at
    all: `Registration` stores what `UpsertAccount` would, and the
    transactions change nothing. So the invariants of the model hold here.
-/

namespace Prifhete

namespace Protocol

/-! ### The machine -/

/-- A call of the model or of a protocol entry point. -/
inductive Call where
  | model (call : PlaintextModel.Call)
  | registration (request : RegistrationRequest)
  | processMintTransaction (transaction : MintTx)
  | processTransferTransaction (transaction : TransferTx)
  deriving DecidableEq, Repr

/-- What the caller gets back. -/
inductive Reply where
  | model (reply : PlaintextModel.Reply)
  | registration (result : RegistrationResult)
  | processed (result : ProcessTransactionResult)
  /-- The call threw `std::length_error`. -/
  | lengthError
  deriving DecidableEq, Repr

/-- One call. -/
def exec (m : PlaintextModel) : Call → Reply × PlaintextModel
  | .model call => (.model (m.exec call).1, (m.exec call).2)
  | .registration request =>
    match registration m request with
    | some (result, m') => (.registration result, m')
    | none => (.lengthError, m)
  | .processMintTransaction transaction =>
    (.processed (processMintTransaction m transaction).1,
      (processMintTransaction m transaction).2)
  | .processTransferTransaction transaction =>
    (.processed (processTransferTransaction m transaction).1,
      (processTransferTransaction m transaction).2)

/-- The states a call passes through. -/
def trail (m : PlaintextModel) : Call → List PlaintextModel
  | .model call => m.trail call
  | call => [(exec m call).2]

/-- The call of the model with the same effect, if there is one. -/
def Call.onModel? : Call → Option PlaintextModel.Call
  | .model call => some call
  | .registration request => some (.upsertAccount request.entry)
  | _ => none

/-- `Registration` has the effect of `UpsertAccount`. -/
theorem exec_registration (m : PlaintextModel) (request : RegistrationRequest) :
    (exec m (.registration request)).2 = (m.exec (.upsertAccount request.entry)).2 := by
  by_cases hid : request.account_id = []
  · obtain ⟨status, hstatus, _⟩ := PlaintextModel.upsertAccount_refused (m := m)
      (show request.entry.account_id = [] from hid)
    simp only [exec, PlaintextModel.exec, hstatus, registration, hid]
    rfl
  · have hnonempty : request.account_id.isEmpty = false := by simpa using hid
    simp only [exec, PlaintextModel.exec, registration, hnonempty]
    cases m.upsertAccount request.entry with
    | none => rfl
    | some result =>
      obtain ⟨status, m'⟩ := result
      cases hok : status.ok with
      | true => simp [hok]
      | false => simp [hok]

/-- An entry point without an effect on the model. -/
theorem exec_of_onModel_none {m : PlaintextModel} {call : Call} (h : call.onModel? = none) :
    (exec m call).2 = m ∧ trail m call = [m] := by
  cases call with
  | processMintTransaction transaction => simp [exec, trail]
  | processTransferTransaction transaction => simp [exec, trail]
  | _ => contradiction

/-- An entry point with the effect of a call of the model. -/
theorem exec_of_onModel {m : PlaintextModel} {call : Call} {call' : PlaintextModel.Call}
    (h : call.onModel? = some call') :
    (exec m call).2 = (m.exec call').2 ∧ trail m call = m.trail call' := by
  cases call with
  | model call =>
    cases h
    exact ⟨rfl, rfl⟩
  | registration request =>
    cases h
    refine ⟨exec_registration m request, ?_⟩
    simp only [trail, exec_registration]
    rfl
  | _ => contradiction

/-- A property of the effects that the calls of the model have, and doing
    nothing has too, is a property of the effects of all calls. -/
theorem exec_cases {P : PlaintextModel → List PlaintextModel → PlaintextModel → Prop}
    (m : PlaintextModel) (call : Call) (hidle : P m [m] m)
    (hmodel : ∀ call', call.onModel? = some call' → P m (m.trail call') (m.exec call').2) :
    P m (trail m call) (exec m call).2 := by
  cases hcall : call.onModel? with
  | none =>
    obtain ⟨hexec, htrail⟩ := exec_of_onModel_none (m := m) hcall
    rw [hexec, htrail]
    exact hidle
  | some call' =>
    obtain ⟨hexec, htrail⟩ := exec_of_onModel (m := m) hcall
    rw [hexec, htrail]
    exact hmodel call' hcall

/-- Model and entry points as a machine. -/
def machine : Machine PlaintextModel Call Reply where
  init := PlaintextModel.create
  exec := exec
  trail := trail
  trail_last := fun m call =>
    exec_cases (P := fun m trail m' => (m :: trail).getLast (List.cons_ne_nil _ _) = m') m call rfl
      fun call' _ => (m.exec_transition call').getLast_trail

@[simp] theorem machine_init : machine.init = PlaintextModel.create := rfl

@[simp] theorem machine_exec (m : PlaintextModel) (call : Call) :
    machine.exec m call = exec m call := rfl

@[simp] theorem machine_trail (m : PlaintextModel) (call : Call) :
    machine.trail m call = trail m call := rfl

/-! ### The invariants of the model -/

theorem accounts_agree (calls : List Call) :
    PlaintextModel.AccountsAgree (machine.final calls) := by
  refine machine.final_invariant _ PlaintextModel.create_agree ?_ calls
  intro m call h
  exact exec_cases (P := fun _ _ m' => PlaintextModel.AccountsAgree m') m call h
    fun call' _ => h.step (m.exec_transition call')

theorem root_chain (m : PlaintextModel) (call : Call) :
    (m :: trail m call).IsChain PlaintextModel.RootStep := by
  refine exec_cases (P := fun m trail _ => (m :: trail).IsChain PlaintextModel.RootStep) m call
    ?_ ?_
  · exact List.isChain_pair.mpr (.stay (PlaintextModel.SameRoots.refl m))
  · exact fun call' _ => (m.exec_transition call').root_chain

theorem rootHistory (calls : List Call) :
    PlaintextModel.RootHistory (machine.points calls) (machine.final calls) :=
  PlaintextModel.rootHistory_of_chain
    (machine.points_chain fun pre call _ _ => root_chain (machine.final pre) call)
    (machine.getLast?_points calls)

end Protocol

end Prifhete
