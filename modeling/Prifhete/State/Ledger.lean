import Prifhete.State.Accounts
import Prifhete.State.Roots

/-! # What changes the ledger

    The ledger is what the model says about accounts: their indices, entries
    and balances. Every change of it comes with a new root, except for those
    that `UpsertAccount` makes. The public keys in it never change, except
    again by `UpsertAccount`.
-/

namespace Prifhete

open Sequences

namespace PlaintextModel

/-- The accounts with their indices, entries and balances. -/
def ledger (m : PlaintextModel) :
    UnorderedMap StdString UInt64 × UnorderedMap StdString PrivateAccountEntry ×
      StdVector AccountState :=
  (m.account_indices_, m.accounts_, m.account_states_)

/-! ### Entries that are stored directly -/

/-- `UpsertAccount` of the entry leaves the model as it is: the id is empty,
    the entry is the one stored already, or the id is new and there is no
    room for it. -/
def StoresNothing (m : PlaintextModel) (entry : PrivateAccountEntry) : Prop :=
  entry.account_id = [] ∨ m.findAccount entry.account_id = some entry ∨
    (m.findAccount entry.account_id = none ∧ m.account_count.toNat = maxSize)

/-- An id is known to both maps or to none. -/
theorem AccountsAgree.findAccount_eq_none {m : PlaintextModel} (h : AccountsAgree m)
    {id : StdString} : m.findAccount id = none ↔ m.account_indices_.lookup id = none := by
  have hboth := hasAccount_iff_isSome h id
  rw [findAccountIndex, Option.isSome_map, hasAccount, Option.isSome_iff_ne_none,
    Option.isSome_iff_ne_none] at hboth
  exact not_iff_not.mp hboth

/-- Replacing an entry by itself. -/
theorem replacedEntry_self {m : PlaintextModel} (h : AccountsAgree m)
    {entry : PrivateAccountEntry} {index : UInt64}
    (hindex : m.account_indices_.lookup entry.account_id = some index)
    (hstored : m.findAccount entry.account_id = some entry) :
    m.replacedEntry index entry = m := by
  have haccounts : m.accounts_.insert entry.account_id entry = m.accounts_ :=
    insert_eq_self hstored
  have hstates : m.account_states_.modify index (fun state => { state with entry := entry }) =
      m.account_states_ := by
    -- the element at the index of the id is the one with that entry
    have hsame : ∀ state, m.account_states_.toList[index.toNat]? = some state →
        state.entry = entry := by
      intro state hstate
      have hid := (h.indexes _ _).mp hindex
      rw [ids, List.getElem?_map, hstate, Option.map_some, Option.some.injEq] at hid
      have hmem : state.entry ∈ m.entries := List.mem_map_of_mem (List.mem_of_getElem? hstate)
      have hlookup := (h.stores entry.account_id state.entry).mpr ⟨hmem, hid⟩
      exact Option.some.inj (hlookup.symm.trans hstored)
    have hmodify := map_modify_of_getElem? (l := m.account_states_.toList) (i := index.toNat)
      (f := fun state => { state with entry := entry }) (g := id) fun state hstate => by
        rw [← hsame state hstate]
    apply StdVector.ext
    simpa using hmodify
  unfold replacedEntry
  rw [haccounts, hstates]

/-- When the entry stores nothing, nothing changes. -/
theorem upsertAccount_of_storesNothing {m : PlaintextModel} (h : AccountsAgree m)
    {entry : PrivateAccountEntry} (hnothing : m.StoresNothing entry) :
    (m.exec (.upsertAccount entry)).2 = m := by
  by_cases hid : entry.account_id = []
  · obtain ⟨status, hstatus, _⟩ := upsertAccount_refused (m := m) hid
    simp only [exec, hstatus]
  · rcases hnothing with hempty | hstored | ⟨hnone, hfull⟩
    · exact absurd hempty hid
    · cases hindex : m.account_indices_.lookup entry.account_id with
      | none =>
        rw [h.findAccount_eq_none.mpr hindex] at hstored
        contradiction
      | some index =>
        simp only [exec, upsertAccount_of_known hid hindex]
        exact replacedEntry_self h hindex hstored
    · rw [h.findAccount_eq_none] at hnone
      rw [account_count, StdVector.toNat_size] at hfull
      have hthrow := StdVector.push_back_eq_none (x := { entry := entry, balance := 0 }).mpr hfull
      simp only [exec, upsertAccount_of_unknown hid hnone, hthrow, Option.map_none]

/-- When it stores something, its id has another entry afterwards. -/
theorem upsertAccount_of_stores {m : PlaintextModel} (h : AccountsAgree m)
    {entry : PrivateAccountEntry} (hstores : ¬ m.StoresNothing entry) :
    m.findAccount entry.account_id ≠ some entry ∧
      (m.exec (.upsertAccount entry)).2.findAccount entry.account_id = some entry := by
  rw [StoresNothing, not_or, not_or] at hstores
  obtain ⟨hid, hother, hroom⟩ := hstores
  refine ⟨hother, ?_⟩
  cases hindex : m.account_indices_.lookup entry.account_id with
  | some index =>
    simp only [exec, upsertAccount_of_known hid hindex]
    show (m.accounts_.insert entry.account_id entry).lookup entry.account_id = some entry
    exact Finmap.lookup_insert _
  | none =>
    rw [account_count, StdVector.toNat_size] at hroom
    cases hpush : m.account_states_.push_back { entry := entry, balance := 0 } with
    | none =>
      have hfull := StdVector.push_back_eq_none.mp hpush
      exact absurd ⟨h.findAccount_eq_none.mpr hindex, hfull⟩ hroom
    | some states =>
      simp only [exec, upsertAccount_of_unknown hid hindex, hpush, Option.map_some]
      show (m.accounts_.insert entry.account_id entry).lookup entry.account_id = some entry
      exact Finmap.lookup_insert _

/-- In neither case is a root issued. -/
theorem upsertAccount_sameRoots (m : PlaintextModel) (entry : PrivateAccountEntry) :
    SameRoots m (m.exec (.upsertAccount entry)).2 := by
  by_cases hid : entry.account_id = []
  · obtain ⟨status, hstatus, _⟩ := upsertAccount_refused (m := m) hid
    simp only [exec, hstatus]
    exact .refl m
  · cases hindex : m.account_indices_.lookup entry.account_id with
    | some index =>
      simp only [exec, upsertAccount_of_known hid hindex]
      exact .replacedEntry m index entry
    | none =>
      simp only [exec, upsertAccount_of_unknown hid hindex]
      cases m.account_states_.push_back { entry := entry, balance := 0 } with
      | none => exact .refl m
      | some states => exact .insertedEntry m entry states

/-! ### Changes of the ledger and roots -/

/-- A step changes neither ledger nor roots, or it issues a root. -/
inductive LedgerStep (m m' : PlaintextModel) : Prop where
  | stay (hsame : SameRoots m m') (hledger : m'.ledger = m.ledger)
  | issue (hissue : IssuesRoot m m')

theorem LedgerStep.refl (m : PlaintextModel) : LedgerStep m m := .stay (SameRoots.refl m) rfl

/-- All calls take such steps, as long as the entries stored directly store
    nothing. -/
theorem Transition.ledger_chain {m m' : PlaintextModel} {call : Call} {reply : Reply}
    {trail : List PlaintextModel} (h : Transition m call reply trail m')
    (hupsert : ∀ entry, call = .upsertAccount entry → m' = m) :
    (m :: trail).IsChain LedgerStep := by
  cases h with
  | idle _ htrail => exact idle_chain (.refl m) htrail
  | reached => exact List.isChain_singleton m
  | registered => exact List.isChain_pair.mpr (.issue (.registered ..))
  | replaced =>
    rw [hupsert _ rfl]
    exact List.isChain_pair.mpr (.refl m)
  | inserted =>
    rw [hupsert _ rfl]
    exact List.isChain_pair.mpr (.refl m)
  | minted => exact List.isChain_pair.mpr (.issue (.minted ..))
  | transferred => exact List.isChain_pair.mpr (.issue (.transferred ..))
  | advanced => exact advanceTrail_chain (fun p => .issue (.nextEpoch p)) m _
  | movedBack hlt =>
    exact List.isChain_pair.mpr (.issue (.enterEpoch (UInt64.ne_of_lt hlt).symm))

/-- While the versions do not wrap, the version of a root says how many had
    been issued. -/
theorem RootHistory.version_le {ps : List PlaintextModel} {m : PlaintextModel}
    (h : RootHistory ps m) (hfew : (issuedRoots ps).length < 2 ^ 64) {p : PlaintextModel}
    (hp : p ∈ ps) : p.current_root_.version.value.toNat ≤ (issuedRoots ps).length := by
  have hmem : p.current_root_ ∈ issuedRoots ps := mem_successive.mpr (List.mem_map_of_mem hp)
  obtain ⟨k, hk⟩ := List.mem_iff_getElem?.mp hmem
  have hlt := (List.getElem?_eq_some_iff.mp hk).1
  rw [h.version_toNat hfew hk]
  exact hlt

theorem RootHistory.current_version {ps : List PlaintextModel} {m : PlaintextModel}
    (h : RootHistory ps m) (hfew : (issuedRoots ps).length < 2 ^ 64) :
    m.current_root_.version.value.toNat = (issuedRoots ps).length := by
  rw [h.own, rootFor_version, h.version, UInt64.toNat_ofNat', Nat.mod_eq_of_lt hfew]

/-- The last root issued is the current one. -/
theorem RootHistory.last_issued {ps : List PlaintextModel} {m : PlaintextModel}
    (h : RootHistory ps m) : (issuedRoots ps).getLast? = some m.current_root_ := by
  obtain ⟨front, hfront⟩ := h.suffix
  rw [← hfront, List.getLast?_append, h.last]
  rfl

/-- Points with the same current root show the same ledger. -/
def RootsIdentify (ps : List PlaintextModel) : Prop :=
  ∀ p ∈ ps, ∀ q ∈ ps, p.current_root_ = q.current_root_ → p.ledger = q.ledger

/-- A step that leaves roots and ledger alone adds nothing to compare. -/
theorem RootsIdentify.stay {ps : List PlaintextModel} {p q : PlaintextModel} (hp : p ∈ ps)
    (h : RootsIdentify ps) (hroot : q.current_root_ = p.current_root_)
    (hledger : q.ledger = p.ledger) : RootsIdentify (ps ++ [q]) := by
  have hlike : ∀ r ∈ ps ++ [q], ∃ r' ∈ ps,
      r.current_root_ = r'.current_root_ ∧ r.ledger = r'.ledger := by
    intro r hr
    rcases List.mem_append.mp hr with hr | hr
    · exact ⟨r, hr, rfl, rfl⟩
    · rw [List.mem_singleton.mp hr]
      exact ⟨p, hp, hroot, hledger⟩
  intro r hr s hs heq
  obtain ⟨r', hr', hrroot, hrledger⟩ := hlike r hr
  obtain ⟨s', hs', hsroot, hsledger⟩ := hlike s hs
  rw [hrledger, hsledger]
  exact h r' hr' s' hs' (by rw [← hrroot, ← hsroot, heq])

/-- A state whose root is new is like no point before it. -/
theorem RootsIdentify.issue {ps : List PlaintextModel} {q : PlaintextModel}
    (h : RootsIdentify ps) (hfresh : ∀ p ∈ ps, p.current_root_ ≠ q.current_root_) :
    RootsIdentify (ps ++ [q]) := by
  intro r hr s hs heq
  rcases List.mem_append.mp hr with hr | hr
  · rcases List.mem_append.mp hs with hs | hs
    · exact h r hr s hs heq
    · rw [List.mem_singleton.mp hs] at heq
      exact absurd heq (hfresh r hr)
  · rw [List.mem_singleton.mp hr] at heq ⊢
    rcases List.mem_append.mp hs with hs | hs
    · exact absurd heq.symm (hfresh s hs)
    · rw [List.mem_singleton.mp hs]

/-- Along a chain of such steps the current root identifies the ledger. -/
theorem rootsIdentify_of_chain {ps : List PlaintextModel}
    (hchain : (create :: ps).IsChain LedgerStep)
    (hfew : (issuedRoots (create :: ps)).length < 2 ^ 64) : RootsIdentify (create :: ps) := by
  have hlast := List.getLast?_eq_some_getLast (List.cons_ne_nil create ps)
  refine (chain_invariant (fun qs m => RootHistory qs m ∧
    ((issuedRoots qs).length < 2 ^ 64 → RootsIdentify qs)) ?_ ?_ hchain hlast).2 hfew
  · refine ⟨create_rootHistory, ?_⟩
    intro _ p hp q hq _
    rw [List.mem_singleton.mp hp, List.mem_singleton.mp hq]
  · intro qs p q hp ⟨h, hidentify⟩ hstep
    have hmono := (issuedRoots_grow (List.prefix_append qs [q])).length_le
    cases hstep with
    | stay hsame hledger =>
      refine ⟨h.stay hp hsame, ?_⟩
      intro hfew
      exact (hidentify (by omega)).stay (List.mem_of_getLast? hp) hsame.current_root hledger
    | issue hissue =>
      have hnext := h.issue hp hissue
      refine ⟨hnext, ?_⟩
      intro hfew
      apply (hidentify (by omega)).issue
      intro r hr heq
      -- earlier versions are at most the number of roots before the step
      have hold := h.version_le (by omega) hr
      have hnew := hnext.current_version hfew
      rw [issuedRoots_concat hp, if_neg (hissue.current_root_ne h.own), List.length_append,
        List.length_singleton] at hnew
      rw [heq] at hold
      omega

/-! ### Public keys -/

/-- Every account of `m` is in `m'`, under its id and with its public key. -/
def KeepsKeys (m m' : PlaintextModel) : Prop :=
  ∀ entry ∈ m.entries, ∃ entry' ∈ m'.entries,
    entry'.account_id = entry.account_id ∧ entry'.public_key = entry.public_key

theorem KeepsKeys.refl (m : PlaintextModel) : KeepsKeys m m :=
  fun entry hentry => ⟨entry, hentry, rfl, rfl⟩

theorem KeepsKeys.trans {m m' m'' : PlaintextModel} (h : KeepsKeys m m')
    (h' : KeepsKeys m' m'') : KeepsKeys m m'' := by
  intro entry hentry
  obtain ⟨entry', hentry', hid, hkey⟩ := h entry hentry
  obtain ⟨entry'', hentry'', hid', hkey'⟩ := h' entry' hentry'
  exact ⟨entry'', hentry'', hid'.trans hid, hkey'.trans hkey⟩

theorem KeepsKeys.of_subset {m m' : PlaintextModel} (h : m.entries ⊆ m'.entries) :
    KeepsKeys m m' :=
  fun entry hentry => ⟨entry, h hentry, rfl, rfl⟩

/-- What the two maps make of it. -/
theorem KeepsKeys.findAccount {m m' : PlaintextModel} (hkeys : KeepsKeys m m')
    (h : AccountsAgree m) (h' : AccountsAgree m') {id : StdString} {entry : PrivateAccountEntry}
    (hfind : m.findAccount id = some entry) :
    ∃ entry', m'.findAccount id = some entry' ∧ entry'.public_key = entry.public_key := by
  obtain ⟨hmem, hid⟩ := (h.stores id entry).mp hfind
  obtain ⟨entry', hmem', hid', hkey⟩ := hkeys entry hmem
  exact ⟨entry', (h'.stores id entry').mpr ⟨hmem', hid'.trans hid⟩, hkey⟩

/-- The refresh rewrites epoch and inclusion root only. -/
theorem KeepsKeys.issueRoot (m : PlaintextModel) : KeepsKeys m m.issueRoot := by
  intro entry hentry
  refine ⟨m.issueRoot.refreshEntry entry, ?_, refreshEntry_account_id _ _,
    refreshEntry_public_key _ _⟩
  obtain ⟨state, hstate, rfl⟩ := List.mem_map.mp hentry
  rw [entries, issueRoot_account_states, List.map_map]
  exact List.mem_map_of_mem hstate

theorem KeepsKeys.enterEpoch (m : PlaintextModel) (epoch : EpochNumber) :
    KeepsKeys m (m.enterEpoch epoch) := by
  show KeepsKeys m (PlaintextModel.issueRoot _)
  refine KeepsKeys.trans ?_ (.issueRoot _)
  exact KeepsKeys.of_subset (List.Subset.refl _)

theorem KeepsKeys.advancedBy (m : PlaintextModel) (n : Nat) : KeepsKeys m (m.advancedBy n) := by
  induction n with
  | zero => exact .refl m
  | succ n ih =>
    rw [advancedBy_succ]
    exact ih.trans (.enterEpoch _ _)

/-- No call but `UpsertAccount` of a known id touches a public key. -/
theorem Transition.keepsKeys {m m' : PlaintextModel} {call : Call} {reply : Reply}
    {trail : List PlaintextModel} (hstep : Transition m call reply trail m')
    (hupsert : ∀ entry, call = .upsertAccount entry →
      m.findAccount entry.account_id ≠ none → m' = m) (h : AccountsAgree m) :
    KeepsKeys m m' := by
  cases hstep with
  | idle => exact .refl m
  | reached => exact .refl m
  | @registered request result states _ _ hpush _ =>
    refine KeepsKeys.trans ?_ (.issueRoot _)
    apply KeepsKeys.of_subset
    show m.entries ⊆ states.toList.map (·.entry)
    rw [push_back_entries hpush]
    exact List.subset_append_left _ _
  | @replaced entry index _ hindex =>
    have hknown : m.findAccount entry.account_id ≠ none := by
      rw [Ne, h.findAccount_eq_none, hindex]
      exact Option.some_ne_none _
    rw [hupsert entry rfl hknown]
    exact .refl m
  | @inserted entry states _ _ hpush =>
    apply KeepsKeys.of_subset
    show m.entries ⊆ states.toList.map (·.entry)
    rw [push_back_entries hpush]
    exact List.subset_append_left _ _
  | @minted t _ _ _ =>
    refine KeepsKeys.trans ?_ (.issueRoot _)
    apply KeepsKeys.of_subset
    rw [updateBalance_entries]
    show m.entries ⊆ m.entries
    exact List.Subset.refl _
  | @transferred t _ _ _ =>
    refine KeepsKeys.trans ?_ (.issueRoot _)
    apply KeepsKeys.of_subset
    rw [updateBalance_entries, updateBalance_entries]
    show m.entries ⊆ m.entries
    exact List.Subset.refl _
  | advanced => exact .advancedBy m _
  | movedBack => exact .enterEpoch m _

end PlaintextModel

end Prifhete
