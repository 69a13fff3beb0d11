import Prifhete.State.Reachable
import Prifhete.State.Ledger

/-! # Noticing a change

    A call changes the state or it does not, and its arguments and the state
    before it decide which (`Idle`). No change is silent: an observer who
    compares the current root and the entries by id, and nothing else, knows
    after any number of calls whether the state is still the same, the
    balances, the spent PRF outputs and the roots of the past included.
-/

namespace Prifhete

open PlaintextModel AbstractLedger

namespace PlaintextModel

/-- What the observer compares. -/
def LooksSame (m m' : PlaintextModel) : Prop :=
  m'.current_root_reference = m.current_root_reference ∧
    ∀ id, m'.findAccount id = m.findAccount id

/-- The calls that leave a state as it is. -/
def Idle (m : PlaintextModel) : Call → Prop
  | .register request =>
    request.account_id = [] ∨ m.hasAccount request.account_id = true ∨
      m.account_count.toNat = maxSize
  | .upsertAccount entry => m.StoresNothing entry
  | .mint t => m.mintAdmissible t = false
  | .transfer t => m.transferAdmissible t = false
  | call => call.requestedEpoch m = none

/-! ### One call -/

section OneCall

variable {m : PlaintextModel}

/-- A call that issues a root shows in the current root. -/
theorem not_looksSame_of_issuesRoot
    (hown : m.current_root_ = rootFor m.current_epoch_ m.root_version_)
    {m' : PlaintextModel} (hissue : IssuesRoot m m') : ¬ LooksSame m m' :=
  fun hsame => hissue.current_root_ne hown hsame.1.symm

/-- A call that moves the epoch shows there too, for the root names it. -/
theorem not_looksSame_of_epoch (calls : List Call) {call : Call} {epoch : EpochNumber}
    (hrequest : call.requestedEpoch (machine.final calls) = some epoch) :
    ¬ LooksSame (machine.final calls) (machine.final (calls ++ [call])) := by
  intro hsame
  have hepoch := congrArg RootReference.epoch hsame.1
  have hbefore := (rootHistory calls).own
  have hafter := (rootHistory (calls ++ [call])).own
  rw [show (machine.final calls).current_root_reference = _ from hbefore,
    show (machine.final (calls ++ [call])).current_root_reference = _ from hafter, rootFor_epoch,
    rootFor_epoch, machine.final_concat, machine_exec, current_epoch_exec, hrequest] at hepoch
  exact requestedEpoch_ne hrequest hepoch.symm

/-- A call that is not idle shows. -/
theorem LooksSame.idle {calls : List Call} {call : Call}
    (hsame : LooksSame (machine.final calls) (machine.final (calls ++ [call]))) :
    (machine.final calls).Idle call := by
  have hown := (rootHistory calls).own
  by_contra hbusy
  have hfinal := machine.final_concat calls call
  cases call with
  | register request =>
    rw [Idle, not_or, not_or, Bool.not_eq_true] at hbusy
    obtain ⟨hid, hnew, hroom⟩ := hbusy
    rw [account_count, StdVector.toNat_size] at hroom
    cases hpush : (machine.final calls).account_states_.push_back
        { entry := (machine.final calls).registrationEntry request, balance := 0 } with
    | none => exact hroom (StdVector.push_back_eq_none.mp hpush)
    | some states =>
      simp only [machine_exec, exec, register_of_fresh hid hnew, hpush, Option.map_some] at hfinal
      rw [hfinal] at hsame
      exact not_looksSame_of_issuesRoot hown (.registered _ request states) hsame
  | upsertAccount entry =>
    obtain ⟨hother, hstored⟩ := upsertAccount_of_stores (accounts_agree calls) hbusy
    have hentry := hsame.2 entry.account_id
    rw [hfinal, machine_exec, hstored] at hentry
    exact hother hentry.symm
  | mint t =>
    rw [Idle, Bool.not_eq_false] at hbusy
    simp only [machine_exec, exec, mint_of_admissible hbusy] at hfinal
    rw [hfinal] at hsame
    exact not_looksSame_of_issuesRoot hown (.minted _ t) hsame
  | transfer t =>
    rw [Idle, Bool.not_eq_false] at hbusy
    simp only [machine_exec, exec, transfer_of_admissible hbusy] at hfinal
    rw [hfinal] at hsame
    exact not_looksSame_of_issuesRoot hown (.transferred _ t) hsame
  | _ =>
    obtain ⟨epoch, hrequest⟩ := Option.ne_none_iff_exists'.mp hbusy
    exact not_looksSame_of_epoch calls hrequest hsame

end OneCall

end PlaintextModel

/-! ### Any number of calls -/

namespace AbstractLedger

variable {l : AbstractLedger}

/-- Entering an epoch adds a root. -/
theorem issued_ne_enter {k : AbstractLedger} (hk : l.issued <+: k.issued) (epoch : EpochNumber) :
    (k.enter epoch).issued ≠ l.issued := by
  intro heq
  have hlength := congrArg List.length heq
  have hle := hk.length_le
  rw [enter, issue_issued, List.length_append, List.length_singleton] at hlength
  simp only at hlength
  omega

theorem advanceTo_of_same_issued {epoch : EpochNumber} (h : (l.advanceTo epoch).issued = l.issued) :
    l.advanceTo epoch = l := by
  unfold advanceTo at h ⊢
  cases hn : epoch.toNat - l.epoch.toNat with
  | zero => rfl
  | succ n =>
    rw [hn, advanceBy] at h
    exact absurd h (issued_ne_enter (l.advanceBy_issued n) _)

/-- A step that issues no root stores an entry, or nothing. -/
theorem exec_of_same_issued {call : Call} (h : (l.exec call).2.issued = l.issued) :
    (l.exec call).2 = l ∨ ∃ entry, (l.exec call).2 = l.replaceEntry entry ∨
      (entry.account_id ∉ l.ids ∧ (l.exec call).2 = l.openAccount entry) := by
  have hissue : ∀ k : AbstractLedger, k.issued = l.issued →
      (k.issue l.epoch).issued ≠ l.issued := by
    intro k hk heq
    rw [issue_issued, hk] at heq
    simp at heq
  have houtcome := l.exec_outcome call
  generalize l.exec call = result at h houtcome ⊢
  cases houtcome with
  | refused hrefused hroot => exact Or.inl rfl
  | registered hpassed hroom haccepted hroot => exact absurd h (hissue _ (openAccount_issued _ _))
  | @replaced entry hid hknown => exact Or.inr ⟨entry, Or.inl rfl⟩
  | @opened entry hid hfresh hroom => exact Or.inr ⟨entry, Or.inr ⟨hfresh, rfl⟩⟩
  | minted hpassed haccepted hroot => exact absurd h (hissue _ (spend_issued _ _))
  | transferred hpassed hcovered haccepted hroot => exact absurd h (hissue _ (spend_issued _ _))
  | stepped hmax => exact absurd h (issued_ne_enter List.prefix_rfl _)
  | advanced hcall hle hroot => exact Or.inl (advanceTo_of_same_issued h)
  | wentBack hback => exact absurd h (issued_ne_enter List.prefix_rfl _)

/-- From one ledger to a later one: roots are added, and as long as none is,
    the accounts stay in place with their balances and nothing is spent. -/
structure Keeps (l l' : AbstractLedger) : Prop where
  issued : l.issued <+: l'.issued
  spent : l'.issued = l.issued → l'.spent = l.spent
  ids : l'.issued = l.issued → l.ids <+: l'.ids
  balance : l'.issued = l.issued → ∀ i, l.hasIndex i = true → l'.balance i = l.balance i

theorem Keeps.refl (l : AbstractLedger) : Keeps l l :=
  ⟨List.prefix_rfl, fun _ => rfl, fun _ => List.prefix_rfl, fun _ _ _ => rfl⟩

theorem hasIndex_of_ids_le {l l' : AbstractLedger} (h : l.ids <+: l'.ids) {i : AccountIndex}
    (hi : l.hasIndex i = true) : l'.hasIndex i = true := by
  rw [hasIndex_iff_ids] at hi ⊢
  exact Nat.lt_of_lt_of_le hi h.length_le

theorem Keeps.trans {k l m : AbstractLedger} (h : Keeps k l) (h' : Keeps l m) : Keeps k m := by
  -- what is between two equal lists of roots is equal to both
  have hmiddle : m.issued = k.issued → l.issued = k.issued ∧ m.issued = l.issued := by
    intro heq
    have hlk : l.issued = k.issued :=
      h.issued.eq_of_length_le (heq ▸ h'.issued.length_le) |>.symm
    exact ⟨hlk, heq.trans hlk.symm⟩
  refine ⟨h.issued.trans h'.issued, ?_, ?_, ?_⟩
  · intro heq
    obtain ⟨hl, hm⟩ := hmiddle heq
    rw [h'.spent hm, h.spent hl]
  · intro heq
    obtain ⟨hl, hm⟩ := hmiddle heq
    exact (h.ids hl).trans (h'.ids hm)
  · intro heq i hi
    obtain ⟨hl, hm⟩ := hmiddle heq
    rw [h'.balance hm i (hasIndex_of_ids_le (h.ids hl) hi), h.balance hl i hi]

theorem exec_keeps (l : AbstractLedger) (call : Call) : Keeps l (l.exec call).2 := by
  have hcases : (l.exec call).2.issued = l.issued → _ := exec_of_same_issued
  refine ⟨exec_issued l call, ?_, ?_, ?_⟩
  · intro heq
    rcases hcases heq with hsame | ⟨entry, hreplaced | ⟨_, hopened⟩⟩
    · rw [hsame]
    · rw [hreplaced]
      rfl
    · rw [hopened, openAccount_spent]
  · intro heq
    rcases hcases heq with hsame | ⟨entry, hreplaced | ⟨hfresh, hopened⟩⟩
    · rw [hsame]
    · rw [hreplaced, replaceEntry_ids]
    · rw [hopened, openAccount_ids hfresh]
      exact List.prefix_append _ _
  · intro heq i hi
    rcases hcases heq with hsame | ⟨entry, hreplaced | ⟨_, hopened⟩⟩
    · rw [hsame]
    · rw [hreplaced, replaceEntry_balance]
    · rw [hopened, openAccount_balance]

theorem final_keeps (calls later : List Call) :
    Keeps (machine.final calls) (machine.final (calls ++ later)) := by
  apply machine.final_append_of_along Keeps.refl
  · exact fun _ _ _ => Keeps.trans
  · exact fun _ _ _ _ => exec_keeps _ _

end AbstractLedger

namespace PlaintextModel

section Observing

variable {m m' : PlaintextModel} {l l' : AbstractLedger}

/-- The current root counts the roots. -/
theorem issued_of_root (h : Represents m l) (h' : Represents m' l')
    (hroot : m'.current_root_reference = m.current_root_reference) (hgrow : l.issued <+: l'.issued)
    (hfew : l'.issued.length < 2 ^ 64) : l'.issued = l.issued := by
  have hle := hgrow.length_le
  have hversion := congrArg (fun root : RootReference => root.version.value.toNat)
    (h'.current_root.symm.trans (hroot.trans h.current_root))
  simp only [AbstractLedger.current_root, rootFor_version, UInt64.toNat_ofNat'] at hversion
  rw [Nat.mod_eq_of_lt hfew, Nat.mod_eq_of_lt (Nat.lt_of_le_of_lt hle hfew)] at hversion
  exact (hgrow.eq_of_length hversion.symm).symm

theorem findAccount_of_record (h : Represents m l) {state : AccountState}
    (hmem : state ∈ l.accounts.records) : m.findAccount (idOf state) = some state.entry := by
  rw [h.findAccount, Registry.find?_eq_some.mpr ⟨hmem, rfl⟩, Option.map_some]

/-- A new account would show. -/
theorem ids_of_entries (h : Represents m l) (h' : Represents m' l')
    (hentries : ∀ id, m'.findAccount id = m.findAccount id) (hgrow : l.ids <+: l'.ids) :
    l'.ids = l.ids := by
  obtain ⟨rest, hrest⟩ := hgrow
  cases rest with
  | nil => rw [← hrest, List.append_nil]
  | cons id rest =>
    have hnew : id ∈ l'.ids := by
      rw [← hrest]
      simp
    obtain ⟨state, hstate, hid⟩ := List.mem_map.mp hnew
    have hfound := hentries id
    rw [← hid, findAccount_of_record h' hstate, h.findAccount] at hfound
    have hold : id ∈ l.ids := by
      rw [← hid]
      apply Registry.find?_isSome.mp
      cases hfind : l.accounts.find? (idOf state) with
      | none =>
        rw [hfind] at hfound
        contradiction
      | some _ => rfl
    have hdistinct : l'.ids.Nodup := l'.accounts.distinct
    rw [← hrest] at hdistinct
    exact absurd List.mem_cons_self ((List.nodup_append'.mp hdistinct).2.2 hold)

theorem records_of_entries (h : Represents m l) (h' : Represents m' l')
    (hentries : ∀ id, m'.findAccount id = m.findAccount id) (hids : l'.ids = l.ids)
    (hbalance : ∀ i, l.hasIndex i = true → l'.balance i = l.balance i) :
    l'.accounts.records = l.accounts.records := by
  have hlength : l'.accounts.records.length = l.accounts.records.length := by
    rw [← length_ids, hids, length_ids]
  have hbound := m.account_states_.length_le
  rw [h.accounts] at hbound
  refine records_eq_of hbound (List.ext_getElem (by simp [hlength]) ?_) hbalance
  intro k hk' hk
  rw [List.length_map] at hk' hk
  rw [List.getElem_map, List.getElem_map]
  -- both are found under the same id
  have hid : idOf l'.accounts.records[k] = idOf l.accounts.records[k] := by
    have hget : l'.ids[k]? = l.ids[k]? := by rw [hids]
    rw [getElem?_ids, getElem?_ids, List.getElem?_eq_getElem hk',
      List.getElem?_eq_getElem hk] at hget
    exact Option.some.inj hget
  have hentry := hentries (idOf l.accounts.records[k])
  rw [findAccount_of_record h (List.getElem_mem hk), ← hid,
    findAccount_of_record h' (List.getElem_mem hk')] at hentry
  exact Option.some.inj hentry

end Observing

/-- **An observer of the current root and the entries misses nothing.** As
    long as no version is used twice, the state after some calls is the same
    as before them exactly when the current root and the entries are. -/
theorem same_state_iff_looksSame (calls later : List Call)
    (hfew : (AbstractLedger.machine.final (calls ++ later)).roots.length < 2 ^ 64) :
    machine.final (calls ++ later) = machine.final calls ↔
      LooksSame (machine.final calls) (machine.final (calls ++ later)) := by
  constructor
  · intro heq
    rw [heq]
    exact ⟨rfl, fun _ => rfl⟩
  · intro hsame
    have h := run_represents calls
    have h' := run_represents (calls ++ later)
    have hkeeps := final_keeps calls later
    rw [roots, length_rootsOf] at hfew
    have hissued := issued_of_root h h' hsame.1 hkeeps.issued hfew
    have hids := ids_of_entries h h' hsame.2 (hkeeps.ids hissued)
    have hrecords := records_of_entries h h' hsame.2 hids (hkeeps.balance hissued)
    have hledger : AbstractLedger.machine.final (calls ++ later) =
        AbstractLedger.machine.final calls :=
      AbstractLedger.ext (Registry.ext hrecords) hissued (hkeeps.spent hissued)
    rw [hledger] at h'
    exact h'.unique h

/-- An entry that is replaced shows, and so does that it is put back. -/
theorem same_state_iff_looksSame_put_back :
    let alice : PrivateAccountEntry :=
      { account_id := StdString.ofAscii "alice", public_key := { bytes := [1] },
        inclusion_root := (rootFor 0 { value := 2 }).root }
    let calls : List Call :=
      [.register { account_id := alice.account_id, public_key := alice.public_key }]
    let replace : Call := .upsertAccount { alice with ciphertext := { bytes := [7] } }
    let later : List Call := [replace, .upsertAccount alice]
    (AbstractLedger.machine.final (calls ++ later)).roots.length < 2 ^ 64 ∧
      machine.final (calls ++ [replace]) ≠ machine.final calls ∧
      machine.final (calls ++ later) = machine.final calls := by
  intro alice calls replace later
  have hreplaced : (AbstractLedger.machine.final (calls ++ [replace])).roots.length < 2 ^ 64 := by
    decide +kernel
  have hfew : (AbstractLedger.machine.final (calls ++ later)).roots.length < 2 ^ 64 := by
    decide +kernel
  refine ⟨hfew, ?_, ?_⟩
  · rw [ne_eq, same_state_iff_looksSame calls [replace] hreplaced]
    intro ⟨_, hentries⟩
    exact absurd (hentries alice.account_id) (by decide +kernel)
  · rw [same_state_iff_looksSame calls later hfew]
    have haccounts : (machine.final (calls ++ later)).accounts_ =
        (machine.final calls).accounts_ := by
      decide +kernel
    refine ⟨by decide +kernel, ?_⟩
    intro id
    rw [findAccount, haccounts, ← findAccount]

end PlaintextModel

end Prifhete
