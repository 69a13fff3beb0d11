import Prifhete.Protocol.Run
import Prifhete.State.Ledger

/-! # What registration does to the ledger

    Two properties that `Register` has and the direct storing of entries
    breaks: that the current root identifies the ledger, and that an account
    keeps its public key. `UpsertAccount` and the protocol entry point
    `Registration`, which calls it, issue no root and overwrite what they
    find. Each property holds of a run exactly when these calls store nothing
    that matters for it.
-/

namespace Prifhete

open PlaintextModel (RootsIdentify StoresNothing issuedRoots)

namespace Protocol

/-- The entry a call hands to `UpsertAccount`. -/
def Call.storedEntry? : Call → Option PrivateAccountEntry
  | .model (.upsertAccount entry) => some entry
  | .registration request => some request.entry
  | _ => none

theorem storedEntry_of_onModel {call : Call} {entry : PrivateAccountEntry}
    (h : call.onModel? = some (.upsertAccount entry)) : call.storedEntry? = some entry := by
  cases call with
  | model call =>
    cases h
    rfl
  | registration request =>
    cases h
    rfl
  | _ => contradiction

/-- Such a call does what `UpsertAccount` does with the entry. -/
theorem exec_of_storedEntry {m : PlaintextModel} {call : Call} {entry : PrivateAccountEntry}
    (h : call.storedEntry? = some entry) :
    (exec m call).2 = (m.exec (.upsertAccount entry)).2 := by
  cases call with
  | model call =>
    cases call with
    | upsertAccount other =>
      cases h
      rfl
    | _ => contradiction
  | registration request =>
    cases h
    exact exec_registration m request
  | _ => contradiction

/-! ### The root and the ledger -/

/-- The calls that store entries directly store nothing. -/
def StoresNothingNew (calls : List Call) : Prop :=
  machine.Along (fun _ m call =>
    ∀ entry, call.storedEntry? = some entry → m.StoresNothing entry) calls

/-- Every call that changes the ledger issues a root version that no root
    had before. -/
def ChangesIssueVersions (calls : List Call) : Prop :=
  ∀ pre call post, calls = pre ++ call :: post →
    (machine.final (pre ++ [call])).ledger ≠ (machine.final pre).ledger →
      ∀ p ∈ machine.points pre, p.current_root_reference.version ≠
        (machine.final (pre ++ [call])).current_root_reference.version

theorem rootsIdentify {calls : List Call} (hnothing : StoresNothingNew calls)
    (hfew : (issuedRoots (machine.points calls)).length < 2 ^ 64) :
    RootsIdentify (machine.points calls) := by
  refine PlaintextModel.rootsIdentify_of_chain (machine.points_chain ?_) hfew
  intro pre call post hcalls
  have hgood := hnothing pre call post hcalls
  refine exec_cases (P := fun m trail _ => (m :: trail).IsChain PlaintextModel.LedgerStep)
    (machine.final pre) call ?_ ?_
  · exact List.isChain_pair.mpr (.refl _)
  · intro call' hcall
    apply ((machine.final pre).exec_transition call').ledger_chain
    intro entry hentry
    rw [hentry] at hcall ⊢
    exact PlaintextModel.upsertAccount_of_storesNothing (accounts_agree pre)
      (hgood entry (storedEntry_of_onModel hcall))

/-- The roots issued up to some point of a run, against all of them. -/
theorem issuedRoots_of_split {calls pre : List Call} (hpre : pre <+: calls)
    (hfew : (issuedRoots (machine.points calls)).length < 2 ^ 64) :
    (issuedRoots (machine.points pre)).length < 2 ^ 64 := by
  obtain ⟨rest, hrest⟩ := hpre
  have hgrow := PlaintextModel.issuedRoots_grow (machine.points_prefix pre rest)
  rw [hrest] at hgrow
  exact Nat.lt_of_le_of_lt hgrow.length_le hfew

theorem final_mem_points_of_split {calls pre : List Call} (hpre : pre <+: calls) :
    machine.final pre ∈ machine.points calls := by
  obtain ⟨rest, hrest⟩ := hpre
  rw [← hrest]
  exact (machine.points_prefix pre rest).subset (machine.final_mem_points pre)

/-- Where the root identifies the ledger, a change of the ledger shows in the
    version. -/
theorem changesIssueVersions {calls : List Call}
    (hfew : (issuedRoots (machine.points calls)).length < 2 ^ 64)
    (hidentify : RootsIdentify (machine.points calls)) : ChangesIssueVersions calls := by
  intro pre call post hcalls hledger p hp hversion
  have hbefore : pre <+: calls := ⟨call :: post, hcalls.symm⟩
  have hafter : pre ++ [call] <+: calls := ⟨post, by rw [hcalls]; simp⟩
  have hold := (rootHistory pre).version_le (issuedRoots_of_split hbefore hfew) hp
  have hnew := (rootHistory (pre ++ [call])).current_version (issuedRoots_of_split hafter hfew)
  have hgrow := PlaintextModel.issuedRoots_grow (machine.points_prefix pre [call])
  -- an old version means that the call has issued no root
  have hnone : issuedRoots (machine.points pre) =
      issuedRoots (machine.points (pre ++ [call])) := by
    apply hgrow.eq_of_length_le
    rw [← hnew]
    rw [show p.current_root_.version =
        (PlaintextModel.current_root_ (machine.final (pre ++ [call]))).version
      from hversion] at hold
    exact hold
  have hroot : PlaintextModel.current_root_ (machine.final (pre ++ [call])) =
      PlaintextModel.current_root_ (machine.final pre) := by
    apply Option.some.inj
    rw [← (rootHistory pre).last_issued, ← (rootHistory (pre ++ [call])).last_issued, hnone]
  exact hledger (hidentify _ (final_mem_points_of_split hafter) _
    (final_mem_points_of_split hbefore) hroot)

/-- Where it does, no call can have stored an entry directly. -/
theorem storesNothingNew {calls : List Call} (hidentify : RootsIdentify (machine.points calls)) :
    StoresNothingNew calls := by
  intro pre call post hcalls entry hentry
  by_contra hstores
  have hbefore : pre <+: calls := ⟨call :: post, hcalls.symm⟩
  have hafter : pre ++ [call] <+: calls := ⟨post, by rw [hcalls]; simp⟩
  have hfinal : machine.final (pre ++ [call]) =
      ((machine.final pre).exec (.upsertAccount entry)).2 := by
    rw [machine.final_concat, machine_exec, exec_of_storedEntry hentry]
  obtain ⟨hother, hstored⟩ :=
    PlaintextModel.upsertAccount_of_stores (accounts_agree pre) hstores
  -- the entry map has changed, the root has not
  have hroot := (PlaintextModel.upsertAccount_sameRoots (machine.final pre) entry).current_root
  rw [← hfinal] at hroot hstored
  have hledger := hidentify _ (final_mem_points_of_split hafter) _
    (final_mem_points_of_split hbefore) hroot
  have haccounts : (machine.final (pre ++ [call])).accounts_ = (machine.final pre).accounts_ :=
    congrArg (fun ledger => ledger.2.1) hledger
  unfold PlaintextModel.findAccount at hother hstored
  rw [haccounts] at hstored
  exact hother hstored

/-- **The root identifies the ledger** along a run, and every change of the
    ledger comes with a version never issued before, if and only if no call
    of `UpsertAccount` or `Registration` stores an entry that was not there. -/
theorem root_identifies_ledger_iff (calls : List Call)
    (hfew : (issuedRoots (machine.points calls)).length < 2 ^ 64) :
    ((∀ p ∈ machine.points calls, ∀ q ∈ machine.points calls,
        p.current_root_reference = q.current_root_reference → p.ledger = q.ledger) ∧
      ChangesIssueVersions calls) ↔ StoresNothingNew calls := by
  constructor
  · intro ⟨hidentify, _⟩
    exact storesNothingNew hidentify
  · intro hnothing
    have hidentify := rootsIdentify hnothing hfew
    exact ⟨hidentify, changesIssueVersions hfew hidentify⟩

/-- A registration that is refused, and an entry that is there already. -/
theorem root_identifies_ledger_nothing_stored :
    let alice : PrivateAccountEntry :=
      { account_id := StdString.ofAscii "alice", public_key := { bytes := [1] },
        inclusion_root := PlaintextModel.makeRoot 0 { value := 2 } }
    let register : Call :=
      .model (.register { account_id := alice.account_id, public_key := alice.public_key })
    let refused : Call := .registration { account_id := [], public_key := { bytes := [2] } }
    let again : Call := .model (.upsertAccount alice)
    let calls : List Call := [register, refused, again, .model .advanceEpoch]
    (issuedRoots (machine.points calls)).length < 2 ^ 64 ∧
      (∀ p ∈ machine.points calls, ∀ q ∈ machine.points calls,
        p.current_root_reference = q.current_root_reference → p.ledger = q.ledger) ∧
      ChangesIssueVersions calls := by
  intro alice register refused again calls
  have hfew : (issuedRoots (machine.points calls)).length < 2 ^ 64 := by decide +kernel
  have hstored : (machine.final [register, refused]).findAccount alice.account_id = some alice := by
    decide +kernel
  have hnothing : StoresNothingNew ([] ++ [register] ++ [refused] ++ [again] ++
      [.model .advanceEpoch]) := by
    refine machine.along_concat.mpr ⟨machine.along_concat.mpr ⟨machine.along_concat.mpr
      ⟨machine.along_concat.mpr ⟨?_, ?_⟩, ?_⟩, ?_⟩, ?_⟩
    · intro pre call post hcalls
      simp at hcalls
    · intro entry hentry
      simp [register, Call.storedEntry?] at hentry
    · intro entry hentry
      rw [← Option.some.inj hentry]
      exact Or.inl rfl
    · intro entry hentry
      rw [← Option.some.inj hentry]
      exact Or.inr (Or.inl hstored)
    · intro entry hentry
      simp [Call.storedEntry?] at hentry
  exact ⟨hfew, (root_identifies_ledger_iff calls hfew).mpr hnothing⟩

/-- A new account stored through `Registration` is not covered by a root. -/
theorem registration_without_root :
    let calls : List Call :=
      [.registration { account_id := StdString.ofAscii "alice", public_key := {} }]
    (issuedRoots (machine.points calls)).length < 2 ^ 64 ∧
    ¬ ((∀ p ∈ machine.points calls, ∀ q ∈ machine.points calls,
        p.current_root_reference = q.current_root_reference → p.ledger = q.ledger) ∧
      ChangesIssueVersions calls) := by
  intro calls
  refine ⟨by decide +kernel, ?_⟩
  intro ⟨hidentify, _⟩
  have hroot : (machine.final calls).current_root_reference =
      (machine.final []).current_root_reference := by decide +kernel
  have hledger := hidentify _ (machine.final_mem_points calls) _ (by simp [Machine.points]) hroot
  have hids : (machine.final calls).account_indices_ = (machine.final []).account_indices_ :=
    congrArg Prod.fst hledger
  have hknown : (machine.final calls).account_indices_.lookup (StdString.ofAscii "alice") =
      some 0 := by decide +kernel
  have hunknown : (machine.final []).account_indices_.lookup (StdString.ofAscii "alice") =
      none := by decide +kernel
  rw [hids, hunknown] at hknown
  contradiction

/-! ### Public keys -/

/-- `UpsertAccount` called from outside the protocol layer. -/
def Call.isUpsert : Call → Bool
  | .model (.upsertAccount _) => true
  | _ => false

/-- A public key found once under an id is found there ever after. -/
def KeysPersist (calls : List Call) : Prop :=
  ∀ pre mid post, calls = pre ++ mid ++ post →
    ∀ id entry, (machine.final pre).findAccount id = some entry →
      ∃ entry', (machine.final (pre ++ mid)).findAccount id = some entry' ∧
        entry'.public_key = entry.public_key

/-- `Registration` of an id that exists leaves its entry as it was. -/
def RegistrationKeepsEntries (calls : List Call) : Prop :=
  ∀ pre request post, calls = pre ++ .registration request :: post →
    ∀ entry, (machine.final pre).findAccount request.account_id = some entry →
      (machine.final (pre ++ [.registration request])).findAccount request.account_id = some entry

/-- Every `Registration` of an id that exists carries the entry stored there. -/
def RegistersStoredEntries (calls : List Call) : Prop :=
  machine.Along (fun _ m call => ∀ request, call = .registration request →
    request.account_id ≠ [] → ∀ stored, m.findAccount request.account_id = some stored →
      stored = request.entry) calls

/-- Registering what is stored, or nothing, changes nothing. -/
theorem registration_of_stored {m : PlaintextModel} (h : PlaintextModel.AccountsAgree m)
    {request : RegistrationRequest} {entry : PrivateAccountEntry}
    (hfind : m.findAccount request.account_id = some entry)
    (hsame : request.account_id ≠ [] → entry = request.entry) :
    (exec m (.registration request)).2 = m := by
  rw [exec_registration]
  apply PlaintextModel.upsertAccount_of_storesNothing h
  by_cases hid : request.account_id = []
  · exact Or.inl hid
  · refine Or.inr (Or.inl ?_)
    show m.findAccount request.account_id = some request.entry
    rw [hfind, hsame hid]

/-- A call that registers what is stored touches no public key. -/
theorem exec_keepsKeys {m : PlaintextModel} (h : PlaintextModel.AccountsAgree m) {call : Call}
    (hdirect : call.isUpsert = false)
    (hstored : ∀ request, call = .registration request → request.account_id ≠ [] →
      ∀ stored, m.findAccount request.account_id = some stored → stored = request.entry) :
    m.KeepsKeys (exec m call).2 := by
  apply exec_cases (P := fun m _ m' => m.KeepsKeys m') m call (.refl m)
  intro call' hcall
  refine (m.exec_transition call').keepsKeys ?_ h
  intro entry hentry hknown
  rw [hentry] at hcall ⊢
  -- only a registration leads to `UpsertAccount` here
  cases call with
  | model call =>
    cases hcall
    contradiction
  | registration request =>
    cases hcall
    obtain ⟨stored, hfind⟩ := Option.ne_none_iff_exists'.mp hknown
    rw [← exec_registration]
    exact registration_of_stored h hfind fun hid => hstored request rfl hid stored hfind
  | _ => contradiction

theorem keysPersist {calls : List Call} (hdirect : ∀ c ∈ calls, c.isUpsert = false)
    (hstored : RegistersStoredEntries calls) : KeysPersist calls := by
  intro pre mid post hcalls id entry hfind
  have halong : machine.Along (fun _ m call => m.KeepsKeys (machine.exec m call).2)
      (pre ++ mid) := by
    intro front call back hsplit
    refine exec_keepsKeys (accounts_agree front) (hdirect call ?_) ?_
    · rw [hcalls, hsplit]
      simp
    · apply hstored front call (back ++ post)
      rw [hcalls, hsplit, List.append_assoc, List.cons_append]
  have hkeys := machine.final_append_of_along PlaintextModel.KeepsKeys.refl
    (fun _ _ _ => PlaintextModel.KeepsKeys.trans) halong
  exact hkeys.findAccount (accounts_agree pre) (accounts_agree (pre ++ mid)) hfind

/-- **Registration and public keys.** In a run without direct calls of
    `UpsertAccount`, every account keeps its public key and `Registration`
    leaves the entries that exist untouched, if and only if each
    `Registration` of an id that exists carries the entry stored there. -/
theorem registration_takes_over_iff (calls : List Call)
    (hdirect : ∀ c ∈ calls, c.isUpsert = false) :
    (KeysPersist calls ∧ RegistrationKeepsEntries calls) ↔ RegistersStoredEntries calls := by
  constructor
  · intro ⟨_, hkeeps⟩ pre call post hcalls request hcall hid stored hfind
    subst hcall
    have hafter := hkeeps pre request post hcalls stored hfind
    rw [machine.final_concat, machine_exec, exec_registration] at hafter
    by_cases hnothing : (machine.final pre).StoresNothing request.entry
    · rcases hnothing with hempty | hsame | ⟨hnone, _⟩
      · exact absurd hempty hid
      · exact Option.some.inj (hfind.symm.trans hsame)
      · exact absurd (hfind.symm.trans hnone) (Option.some_ne_none stored)
    · have hstored := (PlaintextModel.upsertAccount_of_stores (accounts_agree pre) hnothing).2
      exact Option.some.inj (hafter.symm.trans hstored)
  · intro hstored
    refine ⟨keysPersist hdirect hstored, ?_⟩
    intro pre request post hcalls entry hfind
    have hsame := registration_of_stored (accounts_agree pre) hfind fun hid =>
      hstored pre _ post hcalls request rfl hid entry hfind
    rw [machine.final_concat, machine_exec, hsame]
    exact hfind

/-- Registering the same entry twice. -/
theorem registration_takes_over_iff_same_entry :
    let alice : Call :=
      .registration { account_id := StdString.ofAscii "alice", public_key := { bytes := [1] } }
    (∀ c ∈ [alice, alice], c.isUpsert = false) ∧ KeysPersist [alice, alice] := by
  intro alice
  have hdirect : ∀ c ∈ [alice, alice], c.isUpsert = false := by decide
  have hunknown : (machine.final []).findAccount (StdString.ofAscii "alice") = none := by
    decide +kernel
  have hknown : (machine.final [alice]).findAccount (StdString.ofAscii "alice") = some
      { account_id := StdString.ofAscii "alice", public_key := { bytes := [1] } } := by
    decide +kernel
  have hstored : RegistersStoredEntries ([] ++ [alice] ++ [alice]) := by
    refine machine.along_concat.mpr ⟨machine.along_concat.mpr ⟨?_, ?_⟩, ?_⟩
    · intro pre call post hcalls
      simp at hcalls
    · intro request hcall _ stored hfind
      rw [← Call.registration.inj hcall, hunknown] at hfind
      contradiction
    · intro request hcall _ stored hfind
      rw [← Call.registration.inj hcall] at hfind ⊢
      exact Option.some.inj (hfind.symm.trans hknown)
  exact ⟨hdirect, ((registration_takes_over_iff _ hdirect).mpr hstored).1⟩

/-- A second registration puts another public key under the id. -/
theorem registration_takes_over :
    let registrationOf (key : UInt8) : Call :=
      .registration { account_id := StdString.ofAscii "alice", public_key := { bytes := [key] } }
    let calls : List Call := [registrationOf 1, registrationOf 2]
    (∀ c ∈ calls, c.isUpsert = false) ∧
      ¬ (KeysPersist calls ∧ RegistrationKeepsEntries calls) := by
  intro registrationOf calls
  refine ⟨by decide, ?_⟩
  intro ⟨hpersist, _⟩
  have hfirst : (machine.final [registrationOf 1]).findAccount (StdString.ofAscii "alice") = some
      { account_id := StdString.ofAscii "alice", public_key := { bytes := [1] } } := by
    decide +kernel
  have hsecond : (machine.final ([registrationOf 1] ++ [registrationOf 2])).findAccount
      (StdString.ofAscii "alice") = some
        { account_id := StdString.ofAscii "alice", public_key := { bytes := [2] } } := by
    decide +kernel
  obtain ⟨entry', hentry', hkey⟩ :=
    hpersist [registrationOf 1] [registrationOf 2] [] rfl _ _ hfirst
  rw [hsecond] at hentry'
  cases hentry'
  exact absurd hkey (by decide)

end Protocol

end Prifhete
