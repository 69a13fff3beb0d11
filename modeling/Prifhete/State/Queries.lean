import Prifhete.State.Refinement

/-! # What the queries show

    Every public query of the model is answered by the ledger it represents,
    so along every run model and ledger cannot be told apart. The members
    of the model hold no more than the ledger does, and as long as the
    version counter has not wrapped around no less.
-/

namespace Prifhete

namespace PlaintextModel

open AbstractLedger Sequences

/-! ### Queries -/

/-- Every public query of the model, answered from the ledger. -/
structure QueriesAgree (m : PlaintextModel) (l : AbstractLedger) : Prop where
  hasAccount : ∀ id, m.hasAccount id = (l.accounts.find? id).isSome
  findAccount : ∀ id, m.findAccount id = (l.accounts.find? id).map (·.entry)
  findAccountIndex : ∀ id, m.findAccountIndex id =
    (l.accounts.position? id).map fun i => { value := UInt64.ofNat i }
  isValidAccountIndex : ∀ i, m.isValidAccountIndex i = l.hasIndex i
  findAccountByIndex : ∀ i : AccountIndex, m.findAccountByIndex i =
    (l.accounts.records[i.value.toNat]?).map (·.entry)
  inspectBalance : ∀ i : AccountIndex, m.inspectBalance i =
    (l.accounts.records[i.value.toNat]?).map (·.balance)
  /-- The pointee is written exactly when there is one and the index is valid. -/
  tryGetBalance : ∀ (i : AccountIndex) (out : Option UInt64), m.tryGetBalance i out =
    match out, l.accounts.records[i.value.toNat]? with
    | some _, some state => (true, some state.balance)
    | _, _ => (false, out)
  account_count : m.account_count.toNat = l.accounts.records.length
  current_root : m.current_root = l.current_root.root
  current_root_reference : m.current_root_reference = l.current_root
  isValidRoot : ∀ root, m.isValidRoot root = (decide (root ∈ l.roots) && l.inWindow root.epoch)
  hasSeenPrfOutput : ∀ prf, m.hasSeenPrfOutputInCurrentEpoch prf = decide (prf ∈ l.spent)
  accepted_prf_outputs : m.accepted_prf_outputs = l.spent
  current_root_versions : m.current_root_versions = l.epochRoots
  inspectEpochState : m.inspectEpochState =
    { current_epoch := l.epoch
      current_root_version := l.current_root.version
      current_root := l.current_root
      accepted_prf_output_count := l.spent.length
      used_prf_output_count := l.spent.length }
  current_epoch : PlaintextModel.current_epoch m = l.epoch

namespace Represents

variable {m : PlaintextModel} {l : AbstractLedger}

theorem findAccount (h : Represents m l) (id : StdString) :
    m.findAccount id = (l.accounts.find? id).map (·.entry) := by
  apply Option.ext
  intro entry
  rw [Option.map_eq_some_iff, PlaintextModel.findAccount, h.agree.stores, entries, h.accounts,
    List.mem_map]
  constructor
  · intro hstored
    obtain ⟨⟨state, hmem, hentry⟩, hid⟩ := hstored
    rw [← hentry] at hid
    exact ⟨state, Registry.find?_eq_some.mpr ⟨hmem, hid⟩, hentry⟩
  · intro hfound
    obtain ⟨state, hfind, hentry⟩ := hfound
    obtain ⟨hmem, hid⟩ := Registry.find?_eq_some.mp hfind
    exact ⟨⟨state, hmem, hentry⟩, hentry ▸ hid⟩

theorem findAccountIndex (h : Represents m l) (id : StdString) :
    m.findAccountIndex id =
      (l.accounts.position? id).map fun i => { value := UInt64.ofNat i } := by
  apply Option.ext
  intro i
  rw [findAccountIndex_eq_some h.agree, Option.map_eq_some_iff, h.ids]
  constructor
  · intro hget
    exact ⟨i.value.toNat, Registry.position?_eq_some.mpr hget, by simp⟩
  · intro ⟨k, hk, hi⟩
    have hget := Registry.position?_eq_some.mp hk
    have hlt : k < m.ids.length := by
      rw [h.ids]
      exact (List.getElem?_eq_some_iff.mp hget).1
    rw [← hi, toNat_ofNat_of_lt_ids hlt]
    exact hget

theorem isValidRoot (h : Represents m l) (root : RootReference) :
    m.isValidRoot root = (decide (root ∈ l.roots) && l.inWindow root.epoch) := by
  rw [Bool.eq_iff_iff, PlaintextModel.isValidRoot, h.rootStatus, rootChecks_ok, Bool.and_eq_true,
    decide_eq_true_eq]

theorem tryGetBalance (h : Represents m l) (i : AccountIndex) (out : Option UInt64) :
    m.tryGetBalance i out =
      match out, l.accounts.records[i.value.toNat]? with
      | some _, some state => (true, some state.balance)
      | _, _ => (false, out) := by
  have hread := m.inspectBalance_eq i
  unfold PlaintextModel.tryGetBalance
  rw [h.accounts] at hread
  unfold PlaintextModel.inspectBalance at hread
  cases hvalid : m.isValidAccountIndex i with
  | false =>
    rw [hvalid] at hread
    cases hstate : l.accounts.records[i.value.toNat]? with
    | none => cases out <;> rfl
    | some state => rw [hstate] at hread; contradiction
  | true =>
    rw [hvalid, if_pos rfl] at hread
    cases hstate : l.accounts.records[i.value.toNat]? with
    | none => rw [hstate] at hread; contradiction
    | some state =>
      rw [hstate, Option.map_some, Option.some.injEq] at hread
      cases out with
      | none => rfl
      | some value => simp [hread]

theorem current_root_versions (h : Represents m l) : m.current_root_versions = l.epochRoots := by
  obtain ⟨ps, _, hhistory, _, hepoch⟩ := h.issued
  rw [hhistory.current_root_versions_eq, hepoch]
  rfl

theorem card_seen (h : Represents m l) :
    m.prf_outputs_in_current_epoch_.card = l.spent.length := by
  have hkeys : (l.spent.map fun prf => toKey prf.bytes).Nodup := by
    have hbytes : (l.spent.map fun prf => toKey prf.bytes) =
        (l.spent.map (·.bytes)).map toKey := by rw [List.map_map]; rfl
    rw [hbytes]
    exact l.once.map fun _ _ hkey => toKey_inj.mp hkey
  rw [h.spent.2, List.toFinset_card_of_nodup hkeys, List.length_map]

theorem queries (h : Represents m l) : QueriesAgree m l where
  hasAccount id := by
    rw [← Option.isSome_map (f := fun state : AccountState => state.entry), ← h.findAccount]
    rfl
  findAccount := h.findAccount
  findAccountIndex := h.findAccountIndex
  isValidAccountIndex := h.hasIndex
  findAccountByIndex i := by rw [findAccountByIndex_eq, h.accounts]
  inspectBalance i := by rw [inspectBalance_eq, h.accounts]
  tryGetBalance := h.tryGetBalance
  account_count := by rw [PlaintextModel.account_count, StdVector.toNat_size, h.accounts]
  current_root := by rw [PlaintextModel.current_root, h.current_root]
  current_root_reference := h.current_root
  isValidRoot := h.isValidRoot
  hasSeenPrfOutput prf := by
    have hmem : prf.bytes ∈ l.spent.map (·.bytes) ↔ prf ∈ l.spent := by
      obtain ⟨bytes⟩ := prf
      rw [List.mem_map]
      constructor
      · intro hseen
        obtain ⟨used, hused, hbytes⟩ := hseen
        cases hbytes
        exact hused
      · intro hused
        exact ⟨_, hused, rfl⟩
    unfold hasSeenPrfOutputInCurrentEpoch
    rw [decide_eq_decide, h.spent.mem_seen, hmem]
  accepted_prf_outputs := h.spent.1
  current_root_versions := h.current_root_versions
  inspectEpochState := by
    unfold PlaintextModel.inspectEpochState
    rw [h.current_root, h.current_epoch, h.card_seen, h.spent.1]
  current_epoch := h.current_epoch

end Represents

theorem replies_eq_ledger (calls : List Call) :
    (machine.events calls).map (·.reply) =
      (AbstractLedger.machine.events calls).map (·.reply) := by
  have hreplies := follows.replies (machine.along_true calls)
  rw [List.filterMap_some, List.forall₂_eq_eq_eq] at hreplies
  simpa using hreplies

/-- Along every run the model answers every call as the ledger does, with
    the same status text, root, balances, index and entry, and after it
    every query. -/
theorem model_refines_ledger (calls : List Call) :
    (machine.events calls).map (·.reply) =
        (AbstractLedger.machine.events calls).map (·.reply) ∧
      QueriesAgree (machine.final calls) (AbstractLedger.machine.final calls) :=
  ⟨replies_eq_ledger calls, (run_represents calls).queries⟩

/-! ### No more and no less than the ledger -/

namespace Represents

variable {m m' : PlaintextModel} {l l' : AbstractLedger}

/-- The members of the model are functions of what the ledger says: the
    accounts, the set of issued roots, those of the current epoch, the
    current root, and the spent outputs. -/
theorem eq_of (h : Represents m l) (h' : Represents m' l')
    (haccounts : l.accounts.records = l'.accounts.records)
    (hroots : ∀ root, root ∈ l.roots ↔ root ∈ l'.roots)
    (hepochRoots : l.epochRoots = l'.epochRoots)
    (hroot : l.current_root = l'.current_root) (hspent : l.spent = l'.spent) : m = m' := by
  have hstates : m.account_states_ = m'.account_states_ :=
    StdVector.ext (h.accounts.trans (haccounts.trans h'.accounts.symm))
  have hentries : m.entries = m'.entries := by rw [entries, entries, hstates]
  have hids : m.ids = m'.ids := by rw [PlaintextModel.ids, PlaintextModel.ids, hstates]
  have hmap : m.accounts_ = m'.accounts_ := by
    apply Finmap.ext_lookup
    intro id
    apply Option.ext
    intro entry
    rw [h.agree.stores, h'.agree.stores, hentries]
  have hindices : m.account_indices_ = m'.account_indices_ := by
    apply Finmap.ext_lookup
    intro id
    apply Option.ext
    intro index
    rw [h.agree.indexes, h'.agree.indexes, hids]
  have hknown : m.valid_roots_ = m'.valid_roots_ := by
    apply Finmap.ext_lookup
    intro key
    apply Option.ext
    intro record
    rw [h.issued.known, h'.issued.known]
    exact and_congr_left fun _ => hroots _
  have hkeys : m.current_epoch_root_keys_ = m'.current_epoch_root_keys_ := by
    obtain ⟨ps, _, hhistory, _, hepoch⟩ := h.issued
    obtain ⟨ps', _, hhistory', _, hepoch'⟩ := h'.issued
    rw [hhistory.keys, hhistory'.keys, hepoch, hepoch']
    exact congrArg (List.map _) hepochRoots
  have hlog : m.accepted_prf_outputs_in_current_epoch_ =
      m'.accepted_prf_outputs_in_current_epoch_ := by rw [h.spent.1, h'.spent.1, hspent]
  have hseen : m.prf_outputs_in_current_epoch_ = m'.prf_outputs_in_current_epoch_ := by
    rw [h.spent.2, h'.spent.2, hspent]
  have hcurrent : m.current_root_ = m'.current_root_ := by
    rw [h.current_root, h'.current_root, hroot]
  have hepoch : m.current_epoch_ = m'.current_epoch_ := by
    rw [h.current_epoch, h'.current_epoch]
    exact congrArg RootReference.epoch hroot
  have hversion : m.root_version_ = m'.root_version_ := by
    rw [(h.issued.fields l.started).2.1, (h'.issued.fields l'.started).2.1]
    exact congrArg RootReference.version hroot
  cases m
  cases m'
  simp only [PlaintextModel.mk.injEq]
  exact ⟨hmap, hstates, hindices, hknown, hkeys, hseen, hlog, hepoch, hversion, hcurrent⟩

theorem unique (h : Represents m l) (h' : Represents m' l) : m = m' :=
  h.eq_of h' rfl (fun _ => Iff.rfl) rfl rfl rfl

/-- The root map gives the epoch of each version, as long as no version has
    been issued twice. -/
theorem issued_le (h : Represents m l) (h' : Represents m l')
    (hfew : l.issued.length < 2 ^ 64) (hfew' : l'.issued.length < 2 ^ 64) (k : Nat)
    (hk : k < l.issued.length) : l'.issued[k]? = some l.issued[k] := by
  have hroot : rootFor l.issued[k] { value := UInt64.ofNat (k + 1) } ∈ rootsOf l.issued := by
    rw [rootsOf, List.mem_mapIdx]
    exact ⟨k, hk, rfl⟩
  have hknown := (h.issued.known _ { reference := _ }).mpr ⟨hroot, rfl⟩
  obtain ⟨hroot', _⟩ := (h'.issued.known _ _).mp hknown
  rw [rootsOf, List.mem_mapIdx] at hroot'
  obtain ⟨j, hj, heq⟩ := hroot'
  have hepoch := congrArg RootReference.epoch heq
  have hversion := congrArg (fun root => root.version.value.toNat) heq
  simp only [rootFor_epoch, rootFor_version, UInt64.toNat_ofNat'] at hepoch hversion
  -- both places are below the word size, so the versions give them away
  have hplace : j = k := by
    rw [Nat.mod_eq_of_lt (by omega), Nat.mod_eq_of_lt (by omega)] at hversion
    omega
  subst hplace
  exact List.getElem?_eq_some_iff.mpr ⟨hj, hepoch⟩

theorem ledger_unique (h : Represents m l) (h' : Represents m l')
    (hfew : l.issued.length < 2 ^ 64) (hfew' : l'.issued.length < 2 ^ 64) : l = l' := by
  have hissued : l.issued = l'.issued := by
    apply List.ext_getElem?
    intro k
    rcases Nat.lt_or_ge k l.issued.length with hk | hk
    · rw [h.issued_le h' hfew hfew' k hk, List.getElem?_eq_getElem hk]
    · rcases Nat.lt_or_ge k l'.issued.length with hk' | hk'
      · rw [h'.issued_le h hfew' hfew k hk', List.getElem?_eq_getElem hk']
      · rw [List.getElem?_eq_none hk, List.getElem?_eq_none hk']
  apply AbstractLedger.ext
  · exact Registry.ext (h.accounts.symm.trans h'.accounts)
  · exact hissued
  · exact h.spent.1.symm.trans h'.spent.1

end Represents

/-- Two runs that have issued fewer than `2^64` roots end in the same state,
    member by member, exactly when they end in the same ledger. -/
theorem state_is_ledger (calls calls' : List Call)
    (hfew : (AbstractLedger.machine.final calls).roots.length < 2 ^ 64)
    (hfew' : (AbstractLedger.machine.final calls').roots.length < 2 ^ 64) :
    machine.final calls = machine.final calls' ↔
      AbstractLedger.machine.final calls = AbstractLedger.machine.final calls' := by
  have h := run_represents calls
  have h' := run_represents calls'
  rw [roots, length_rootsOf] at hfew hfew'
  constructor
  · intro heq
    rw [heq] at h
    exact h.ledger_unique h' hfew hfew'
  · intro heq
    rw [heq] at h
    exact h.unique h'

/-- Alice pays Bob, or both are paid by mints: different states on the way,
    and the same state in the end. -/
theorem state_is_ledger_two_ways :
    let registrations : List Call :=
      [.register { account_id := StdString.ofAscii "alice", public_key := { bytes := [1] } },
        .register { account_id := StdString.ofAscii "bob", public_key := { bytes := [2] } }]
    let mintOf (recipient value : UInt64) (prf : UInt8) (version : UInt64) : Call :=
      .mint { transaction_id := StdString.ofAscii "mint", recipient_index := { value := recipient },
              value := value, prf_output := { bytes := [prf] },
              referenced_root := rootFor 0 { value := version } }
    let payment : Call :=
      .transfer { transaction_id := StdString.ofAscii "transfer", sender_index := { value := 0 },
                  receiver_index := { value := 1 }, value := 3, prf_output := { bytes := [2] },
                  referenced_root := rootFor 0 { value := 4 } }
    let calls := registrations ++ [mintOf 0 5 1 3]
    let calls' := registrations ++ [mintOf 1 3 1 3]
    (AbstractLedger.machine.final (calls ++ [payment])).roots.length < 2 ^ 64 ∧
      (AbstractLedger.machine.final (calls' ++ [mintOf 0 2 2 4])).roots.length < 2 ^ 64 ∧
      machine.final calls ≠ machine.final calls' ∧
      machine.final (calls ++ [payment]) = machine.final (calls' ++ [mintOf 0 2 2 4]) := by
  intro registrations mintOf payment calls calls'
  have hfew : (AbstractLedger.machine.final calls).roots.length < 2 ^ 64 := by decide +kernel
  have hfew' : (AbstractLedger.machine.final calls').roots.length < 2 ^ 64 := by decide +kernel
  have hpaid : (AbstractLedger.machine.final (calls ++ [payment])).roots.length < 2 ^ 64 := by
    decide +kernel
  have hminted : (AbstractLedger.machine.final (calls' ++ [mintOf 0 2 2 4])).roots.length <
      2 ^ 64 := by
    decide +kernel
  refine ⟨hpaid, hminted, ?_, ?_⟩
  · rw [ne_eq, state_is_ledger calls calls' hfew hfew']
    intro hledger
    have hbalance := congrArg (fun l => l.balance { value := 0 }) hledger
    exact absurd hbalance (by decide +kernel)
  · rw [state_is_ledger _ _ hpaid hminted]
    apply AbstractLedger.ext
    · apply Registry.ext
      decide +kernel
    · decide +kernel
    · decide +kernel

end PlaintextModel

end Prifhete
