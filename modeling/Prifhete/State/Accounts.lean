import Prifhete.Lib.Sequences
import Prifhete.State.Run

/-! # The three account structures

    The model keeps its accounts in a vector, in a map from ids to entries
    and in a map from ids to indices. `AccountsAgree` says that the two maps
    are views of the vector; every transition preserves it. Against the
    history of the run, the vector lists the stored ids in the order of
    their first insertion.
-/

namespace Prifhete

open Sequences

namespace PlaintextModel

/-! ### The invariant -/

/-- The entries of the account vector. -/
def entries (m : PlaintextModel) : List PrivateAccountEntry :=
  m.account_states_.toList.map (·.entry)

/-- The account ids in the order of the vector. -/
def ids (m : PlaintextModel) : List StdString :=
  m.account_states_.toList.map (·.entry.account_id)

theorem ids_eq_map_entries (m : PlaintextModel) : m.ids = m.entries.map (·.account_id) := by
  simp [ids, entries]

/-- The index map gives each listed id its position, and knows no other id. -/
def Indexes (ids : List StdString) (indices : UnorderedMap StdString UInt64) : Prop :=
  ∀ id index, indices.lookup id = some index ↔ ids[index.toNat]? = some id

/-- The entry map gives each listed entry under its id, and knows no other. -/
def Stores (entries : List PrivateAccountEntry)
    (accounts : UnorderedMap StdString PrivateAccountEntry) : Prop :=
  ∀ id entry, accounts.lookup id = some entry ↔ entry ∈ entries ∧ entry.account_id = id

/-- The two maps are views of the account vector. -/
structure AccountsAgree (m : PlaintextModel) : Prop where
  indexes : Indexes m.ids m.account_indices_
  stores : Stores m.entries m.accounts_

/-- A position in the account vector is a `std::size_t`. -/
theorem toNat_ofNat_of_lt_ids {m : PlaintextModel} {i : Nat} (h : i < m.ids.length) :
    (UInt64.ofNat i).toNat = i := by
  have hle := m.account_states_.length_le
  have hmax := maxSize_lt
  rw [ids, List.length_map] at h
  rw [UInt64.toNat_ofNat']
  omega

/-- Each listed id has the index of its position. -/
theorem Indexes.lookup_getElem {m : PlaintextModel} (h : Indexes m.ids m.account_indices_)
    {i : Nat} {id : StdString} (hid : m.ids[i]? = some id) :
    m.account_indices_.lookup id = some (UInt64.ofNat i) := by
  have hlt := (List.getElem?_eq_some_iff.mp hid).1
  rw [h, toNat_ofNat_of_lt_ids hlt]
  exact hid

/-- No id is listed twice. -/
theorem Indexes.nodup {m : PlaintextModel} (h : Indexes m.ids m.account_indices_) :
    m.ids.Nodup := by
  rw [List.nodup_iff_getElem?_ne_getElem?]
  intro i j hij hj heq
  -- the index map would give one id two positions
  have hid := List.getElem?_eq_getElem hj
  have hi := h.lookup_getElem (heq.trans hid)
  rw [h.lookup_getElem hid, Option.some.injEq] at hi
  have hnat := congrArg UInt64.toNat hi
  rw [toNat_ofNat_of_lt_ids hj, toNat_ofNat_of_lt_ids (hij.trans hj)] at hnat
  omega

/-- An id the index map does not know is not listed. -/
theorem Indexes.not_mem {m : PlaintextModel} (h : Indexes m.ids m.account_indices_)
    {id : StdString} (hnew : m.account_indices_.lookup id = none) : id ∉ m.ids := by
  intro hmem
  obtain ⟨i, hi, hid⟩ := List.mem_iff_getElem.mp hmem
  have hlookup := h.lookup_getElem (List.getElem?_eq_some_iff.mpr ⟨hi, hid⟩)
  rw [hnew] at hlookup
  contradiction

/-- An id the entry map does not know is not listed. -/
theorem Stores.not_mem {m : PlaintextModel} (h : Stores m.entries m.accounts_)
    {id : StdString} (hnew : m.accounts_.lookup id = none) : id ∉ m.ids := by
  intro hmem
  rw [ids_eq_map_entries] at hmem
  obtain ⟨entry, hentry, hid⟩ := List.mem_map.mp hmem
  have hlookup := (h id entry).mpr ⟨hentry, hid⟩
  rw [hnew] at hlookup
  contradiction

/-- What the entry map knows is listed. -/
theorem Stores.mem_ids {m : PlaintextModel} (h : Stores m.entries m.accounts_)
    {id : StdString} {entry : PrivateAccountEntry} (hlookup : m.accounts_.lookup id = some entry) :
    id ∈ m.ids := by
  obtain ⟨hmem, hid⟩ := (h id entry).mp hlookup
  rw [ids_eq_map_entries]
  exact hid ▸ List.mem_map_of_mem hmem

/-! ### Preservation -/

/-- Giving a fresh id the position at the end keeps the index map exact. -/
theorem Indexes.concat {m : PlaintextModel} (h : Indexes m.ids m.account_indices_)
    {id : StdString} (hnew : id ∉ m.ids) :
    Indexes (m.ids ++ [id]) (m.account_indices_.insert id m.account_states_.size) := by
  intro other index
  have hsize : m.account_states_.size.toNat = m.ids.length := by
    rw [StdVector.toNat_size, ids, List.length_map]
  by_cases hother : other = id
  · -- the new id, at the end and nowhere else
    subst hother
    rw [Finmap.lookup_insert, Option.some.injEq]
    constructor
    · intro hindex
      rw [← hindex, hsize]
      simp
    · intro hget
      apply UInt64.toNat.inj
      rw [hsize]
      by_contra hne
      -- beyond the end there is nothing, and before it the id is not listed
      rcases Nat.lt_or_gt_of_ne hne with hlt | hgt
      · rw [List.getElem?_append_right (Nat.le_of_lt hlt)] at hget
        have hzero : index.toNat - m.ids.length ≠ 0 := by omega
        simp [hzero] at hget
      · rw [List.getElem?_append_left hgt] at hget
        exact hnew (List.mem_of_getElem? hget)
  · -- another id keeps its place
    rw [Finmap.lookup_insert_of_ne _ hother, h]
    constructor
    · intro hget
      rw [List.getElem?_append_left (List.getElem?_eq_some_iff.mp hget).1]
      exact hget
    · intro hget
      rcases Nat.lt_or_ge index.toNat m.ids.length with hlt | hge
      · rwa [List.getElem?_append_left hlt] at hget
      · rw [List.getElem?_append_right hge] at hget
        have hmem := List.mem_of_getElem? hget
        exact absurd (List.mem_singleton.mp hmem) hother

/-- Storing a new entry at the end keeps the entry map exact. -/
theorem Stores.concat {m : PlaintextModel} (h : Stores m.entries m.accounts_)
    {entry : PrivateAccountEntry} (hnew : entry.account_id ∉ m.ids) :
    Stores (m.entries ++ [entry]) (m.accounts_.insert entry.account_id entry) := by
  intro id other
  by_cases hid : id = entry.account_id
  · subst hid
    rw [Finmap.lookup_insert, Option.some.injEq, List.mem_append, List.mem_singleton]
    constructor
    · intro heq
      rw [← heq]
      exact ⟨Or.inr rfl, rfl⟩
    · intro ⟨hmem, hother⟩
      rcases hmem with hmem | heq
      · -- the id was not listed before
        rw [ids_eq_map_entries, ← hother] at hnew
        exact absurd (List.mem_map_of_mem hmem) hnew
      · exact heq.symm
  · rw [Finmap.lookup_insert_of_ne _ hid, h, List.mem_append, List.mem_singleton]
    constructor
    · intro hmem
      exact ⟨Or.inl hmem.1, hmem.2⟩
    · intro ⟨hmem, hother⟩
      rcases hmem with hmem | heq
      · exact ⟨hmem, hother⟩
      · rw [heq] at hother
        exact absurd hother.symm hid

/-- Replacing the entry at a position by one with the same id keeps the
    entry map exact. -/
theorem Stores.set {entries : List PrivateAccountEntry}
    {accounts : UnorderedMap StdString PrivateAccountEntry} (h : Stores entries accounts)
    (hnodup : (entries.map (·.account_id)).Nodup) {i : Nat} {entry : PrivateAccountEntry}
    (hi : (entries.map (·.account_id))[i]? = some entry.account_id) :
    Stores (entries.set i entry) (accounts.insert entry.account_id entry) := by
  have hlt : i < entries.length := by simpa using (List.getElem?_eq_some_iff.mp hi).1
  -- the replaced position is the only one with that id
  have hunique : ∀ j e, entries[j]? = some e → e.account_id = entry.account_id → j = i := by
    intro j e hj he
    have hjid : (entries.map (·.account_id))[j]? = some entry.account_id := by
      rw [List.getElem?_map, hj, Option.map_some, he]
    have hjlt := (List.getElem?_eq_some_iff.mp hjid).1
    have hilt := (List.getElem?_eq_some_iff.mp hi).1
    exact (List.getElem?_inj hjlt hnodup).mp (hjid.trans hi.symm)
  intro id other
  by_cases hid : id = entry.account_id
  · subst hid
    rw [Finmap.lookup_insert, Option.some.injEq]
    constructor
    · intro heq
      rw [← heq]
      exact ⟨List.mem_set hlt entry, rfl⟩
    · intro ⟨hmem, hother⟩
      obtain ⟨j, hj⟩ := List.mem_iff_getElem?.mp hmem
      rw [List.getElem?_set] at hj
      split at hj
      · exact Option.some.inj hj
      · next hij => exact absurd (hunique j other hj hother).symm hij
  · rw [Finmap.lookup_insert_of_ne _ hid, h]
    constructor
    · intro ⟨hmem, hother⟩
      obtain ⟨j, hj⟩ := List.mem_iff_getElem?.mp hmem
      -- an entry with another id is not the one replaced
      have hij : i ≠ j := by
        intro heq
        rw [heq, List.getElem?_map, hj, Option.map_some, Option.some.injEq] at hi
        exact hid (hother ▸ hi)
      refine ⟨List.mem_iff_getElem?.mpr ⟨j, ?_⟩, hother⟩
      rw [List.getElem?_set_ne hij, hj]
    · intro ⟨hmem, hother⟩
      rcases List.mem_or_eq_of_mem_set hmem with hmem | heq
      · exact ⟨hmem, hother⟩
      · rw [heq] at hother
        exact absurd hother.symm hid

@[simp] theorem issueRoot_ids (m : PlaintextModel) : m.issueRoot.ids = m.ids := by
  simp [ids, Function.comp_def]

/-- The refresh loop brings the entry map in line with the vector, whatever
    entries the map held for listed ids before. -/
theorem issueRoot_agree {m : PlaintextModel} (hindexes : Indexes m.ids m.account_indices_)
    (hknown : ∀ id entry, m.accounts_.lookup id = some entry → id ∈ m.ids) :
    AccountsAgree m.issueRoot := by
  refine ⟨by simpa using hindexes, ?_⟩
  intro id entry
  have hnodup : (m.issueRoot.account_states_.toList.map (·.entry.account_id)).Nodup := by
    have h := hindexes.nodup
    rw [← issueRoot_ids] at h
    exact h
  rw [issueRoot_accounts, lookup_foldl_insert _ _ hnodup]
  constructor
  · intro h
    rcases h with ⟨state, hmem, hid, hentry⟩ | ⟨hnot, hlookup⟩
    · rw [← hentry]
      exact ⟨List.mem_map_of_mem hmem, hid⟩
    · -- what the loop does not overwrite is an id that is not listed
      have hmem := hknown id entry hlookup
      rw [← issueRoot_ids] at hmem
      exact absurd hmem hnot
  · intro ⟨hmem, hid⟩
    obtain ⟨state, hstate, hentry⟩ := List.mem_map.mp hmem
    rw [← hentry] at hid
    exact Or.inl ⟨state, hstate, hid, hentry⟩

/-- Issuing a root from a state whose three structures agree. -/
theorem AccountsAgree.issueRoot {m : PlaintextModel} (h : AccountsAgree m) :
    AccountsAgree m.issueRoot :=
  issueRoot_agree h.indexes fun _ _ hlookup => h.stores.mem_ids hlookup

theorem updateBalance_account_states (m : PlaintextModel) (account_index : AccountIndex)
    (f : UInt64 → UInt64) :
    (m.updateBalance account_index f).account_states_.toList =
      m.account_states_.toList.modify account_index.value.toNat
        (fun state => { state with balance := f state.balance }) := rfl

@[simp] theorem updateBalance_entries (m : PlaintextModel) (account_index : AccountIndex)
    (f : UInt64 → UInt64) : (m.updateBalance account_index f).entries = m.entries := by
  unfold entries updateBalance
  exact map_modify_of_getElem? fun _ _ => rfl

@[simp] theorem updateBalance_ids (m : PlaintextModel) (account_index : AccountIndex)
    (f : UInt64 → UInt64) : (m.updateBalance account_index f).ids = m.ids := by
  rw [ids_eq_map_entries, ids_eq_map_entries, updateBalance_entries]

/-- A balance is no part of the three structures. -/
theorem AccountsAgree.updateBalance {m : PlaintextModel} (h : AccountsAgree m)
    (account_index : AccountIndex) (f : UInt64 → UInt64) :
    AccountsAgree (m.updateBalance account_index f) := by
  constructor
  · rw [updateBalance_ids]
    exact h.indexes
  · rw [updateBalance_entries]
    exact h.stores

theorem AccountsAgree.recordedPrf {m : PlaintextModel} (h : AccountsAgree m)
    (prf_output : PRFOutput) : AccountsAgree (m.recordedPrf prf_output) :=
  ⟨h.indexes, h.stores⟩

theorem AccountsAgree.enterEpoch {m : PlaintextModel} (h : AccountsAgree m)
    (epoch : EpochNumber) : AccountsAgree (m.enterEpoch epoch) :=
  AccountsAgree.issueRoot ⟨h.indexes, h.stores⟩

theorem AccountsAgree.advancedBy {m : PlaintextModel} (h : AccountsAgree m) (n : Nat) :
    AccountsAgree (m.advancedBy n) := by
  induction n with
  | zero => exact h
  | succ n ih => rw [advancedBy_succ]; exact ih.enterEpoch _

/-- A registration adds its id at the end. -/
theorem registered_ids {m : PlaintextModel} {request : RegistrationRequest}
    {states : StdVector AccountState}
    (hpush : m.account_states_.push_back
      { entry := m.registrationEntry request, balance := 0 } = some states) :
    (m.registered request states).ids = m.ids ++ [request.account_id] := by
  rw [registered, issueRoot_ids]
  simp only [ids, StdVector.push_back_eq_some hpush, List.map_append]
  rfl

theorem AccountsAgree.registered {m : PlaintextModel} (h : AccountsAgree m)
    {request : RegistrationRequest} {states : StdVector AccountState}
    (hnew : m.hasAccount request.account_id = false)
    (hpush : m.account_states_.push_back
      { entry := m.registrationEntry request, balance := 0 } = some states) :
    AccountsAgree (m.registered request states) := by
  have hnone : m.accounts_.lookup request.account_id = none := by
    simpa [hasAccount] using hnew
  have hnot := h.stores.not_mem hnone
  have hids : states.toList.map (·.entry.account_id) = m.ids ++ [request.account_id] := by
    rw [StdVector.push_back_eq_some hpush, List.map_append]
    rfl
  -- `Register` leaves the entry map to the refresh loop
  apply issueRoot_agree
  · simp only [ids, hids]
    exact h.indexes.concat hnot
  · intro id entry hlookup
    simp only [ids, hids]
    exact List.mem_append_left _ (h.stores.mem_ids hlookup)

theorem AccountsAgree.insertedEntry {m : PlaintextModel} (h : AccountsAgree m)
    {entry : PrivateAccountEntry} {states : StdVector AccountState}
    (hnew : m.account_indices_.lookup entry.account_id = none)
    (hpush : m.account_states_.push_back { entry := entry, balance := 0 } = some states) :
    AccountsAgree (m.insertedEntry entry states) := by
  have hnot := h.indexes.not_mem hnew
  have hstates := StdVector.push_back_eq_some hpush
  constructor
  · have hids : (m.insertedEntry entry states).ids = m.ids ++ [entry.account_id] := by
      simp [ids, PlaintextModel.insertedEntry, hstates]
    rw [hids]
    exact h.indexes.concat hnot
  · have hentries : (m.insertedEntry entry states).entries = m.entries ++ [entry] := by
      simp [entries, PlaintextModel.insertedEntry, hstates]
    rw [hentries]
    exact h.stores.concat hnot

/-- A grown vector has one entry more. -/
theorem push_back_entries {m : PlaintextModel} {entry : PrivateAccountEntry}
    {states : StdVector AccountState}
    (hpush : m.account_states_.push_back { entry := entry, balance := 0 } = some states) :
    states.toList.map (·.entry) = m.entries ++ [entry] := by
  rw [StdVector.push_back_eq_some hpush, List.map_append]
  rfl

theorem replacedEntry_entries (m : PlaintextModel) (index : UInt64)
    (entry : PrivateAccountEntry) :
    (m.replacedEntry index entry).entries = m.entries.set index.toNat entry := by
  apply List.ext_getElem?
  intro j
  simp only [entries, replacedEntry, StdVector.toList_modify, List.getElem?_map,
    List.getElem?_modify, List.getElem?_set, List.length_map]
  by_cases hj : index.toNat = j
  · subst hj
    cases hstate : m.account_states_.toList[index.toNat]? with
    | none =>
      have hge := List.getElem?_eq_none_iff.mp hstate
      simp [Nat.not_lt.mpr hge]
    | some state =>
      have hlt := (List.getElem?_eq_some_iff.mp hstate).1
      simp [hlt]
  · simp [hj]

theorem AccountsAgree.replacedEntry {m : PlaintextModel} (h : AccountsAgree m)
    {entry : PrivateAccountEntry} {index : UInt64}
    (hindex : m.account_indices_.lookup entry.account_id = some index) :
    AccountsAgree (m.replacedEntry index entry) ∧ (m.replacedEntry index entry).ids = m.ids := by
  have hid := (h.indexes _ _).mp hindex
  have hids : (m.replacedEntry index entry).ids = m.ids := by
    unfold ids PlaintextModel.replacedEntry
    -- the new entry carries the id that stood there
    apply map_modify_of_getElem?
    intro state hstate
    rw [ids, List.getElem?_map, hstate, Option.map_some, Option.some.injEq] at hid
    exact hid.symm
  refine ⟨⟨?_, ?_⟩, hids⟩
  · rw [hids]
    exact h.indexes
  · rw [replacedEntry_entries]
    have hnodup := h.indexes.nodup
    rw [ids_eq_map_entries] at hnodup hid
    exact h.stores.set hnodup hid

/-- Every transition keeps the three structures in agreement. -/
theorem AccountsAgree.step {m m' : PlaintextModel} {call : Call} {reply : Reply}
    {trail : List PlaintextModel} (h : AccountsAgree m)
    (hstep : Transition m call reply trail m') : AccountsAgree m' := by
  cases hstep with
  | idle => exact h
  | reached => exact h
  | registered _ hnew hpush _ => exact h.registered hnew hpush
  | replaced _ hindex => exact (h.replacedEntry hindex).1
  | inserted _ hnew hpush => exact h.insertedEntry hnew hpush
  | minted => exact ((h.recordedPrf _).updateBalance _ _).issueRoot
  | transferred => exact (((h.recordedPrf _).updateBalance _ _).updateBalance _ _).issueRoot
  | advanced => exact h.advancedBy _
  | movedBack => exact h.enterEpoch _

theorem create_agree : AccountsAgree create := by
  constructor
  · intro id index
    simp [create, allocateNextRoot, ids]
  · intro id entry
    simp [create, allocateNextRoot, entries]

/-! ### The vector only grows -/

theorem length_issueRoot (m : PlaintextModel) :
    m.issueRoot.account_states_.toList.length = m.account_states_.toList.length := by simp

theorem length_advancedBy (m : PlaintextModel) (n : Nat) :
    (m.advancedBy n).account_states_.toList.length = m.account_states_.toList.length := by
  induction n with
  | zero => rfl
  | succ n ih =>
    rw [advancedBy_succ, ← ih]
    show (issueRoot _).account_states_.toList.length = _
    exact length_issueRoot _

theorem length_minted (m : PlaintextModel) (mint : PublicToPrivateMint) :
    (m.minted mint).account_states_.toList.length = m.account_states_.toList.length := by
  rw [minted, length_issueRoot]
  simp [updateBalance, recordedPrf]

theorem length_states_mono {m m' : PlaintextModel} {call : Call} {reply : Reply}
    {trail : List PlaintextModel} (hstep : Transition m call reply trail m') :
    m.account_states_.toList.length ≤ m'.account_states_.toList.length := by
  cases hstep with
  | idle => exact Nat.le_refl _
  | reached => exact Nat.le_refl _
  | registered _ _ hpush =>
    rw [registered, length_issueRoot]
    simp [StdVector.push_back_eq_some hpush]
  | replaced => simp [replacedEntry]
  | inserted _ _ hpush => simp [insertedEntry, StdVector.push_back_eq_some hpush]
  | minted => rw [length_minted]
  | transferred =>
    rw [transferred, length_issueRoot]
    simp [updateBalance, recordedPrf]
  | advanced => rw [length_advancedBy]
  | movedBack =>
    rw [enterEpoch, length_issueRoot]

/-! ### The ids against the history -/

/-- The account id a call registers or upserts, if it is one. -/
def Call.storedId? : Call → Option StdString
  | .register request => if request.account_id ≠ [] then some request.account_id else none
  | .upsertAccount entry => if entry.account_id ≠ [] then some entry.account_id else none
  | _ => none

/-- The ids a history has registered or upserted with success, one for each
    such call. -/
def storedIds (h : List Event) : List StdString := ofAccepted Call.storedId? h

theorem storedId_of_movesEpoch {call : Call} (h : call.movesEpoch = true) :
    call.storedId? = none :=
  Call.of_movesEpoch (P := fun call => call.storedId? = none) rfl (fun _ => rfl) (fun _ => rfl) h

@[simp] theorem enterEpoch_ids (m : PlaintextModel) (epoch : EpochNumber) :
    (m.enterEpoch epoch).ids = m.ids := issueRoot_ids _

@[simp] theorem advancedBy_ids (m : PlaintextModel) (n : Nat) :
    (m.advancedBy n).ids = m.ids := by
  induction n with
  | zero => rfl
  | succ n ih => rw [advancedBy_succ, nextEpoch, enterEpoch_ids, ih]

/-- A transition stores an id at the end, unless it is listed already. -/
theorem ids_step {m m' : PlaintextModel} {call : Call} {reply : Reply}
    {trail : List PlaintextModel} (h : AccountsAgree m)
    (hstep : Transition m call reply trail m') :
    m'.ids = match ifAccepted Call.storedId? call reply with
      | none => m.ids
      | some id => if id ∈ m.ids then m.ids else m.ids ++ [id] := by
  cases hstep with
  | idle hreply => rw [ifAccepted_of_refused _ hreply]
  | reached => rfl
  | @registered request result states hid hnew hpush hok =>
    have hstored : ifAccepted Call.storedId? (.register request) (.registration result) =
        some request.account_id := by
      rw [ifAccepted_of_accepted _ (accepted_registration hok)]
      exact if_pos hid
    have hnone : m.accounts_.lookup request.account_id = none := by
      simpa [hasAccount] using hnew
    rw [hstored]
    simp only [h.stores.not_mem hnone, if_false]
    exact registered_ids hpush
  | @replaced entry index hid hindex =>
    have hstored : ifAccepted Call.storedId? (.upsertAccount entry) (.status okStatus) =
        some entry.account_id := if_pos hid
    have hmem := List.mem_of_getElem? ((h.indexes _ _).mp hindex)
    rw [hstored, (h.replacedEntry hindex).2]
    simp only [hmem, if_true]
  | @inserted entry states hid hnew hpush =>
    have hstored : ifAccepted Call.storedId? (.upsertAccount entry) (.status okStatus) =
        some entry.account_id := if_pos hid
    rw [hstored]
    simp only [h.indexes.not_mem hnew, if_false]
    simp [ids, insertedEntry, StdVector.push_back_eq_some hpush]
  | minted =>
    rw [ifAccepted_of_none _ rfl]
    rw [minted, issueRoot_ids, updateBalance_ids]
    rfl
  | transferred =>
    rw [ifAccepted_of_none _ rfl]
    rw [transferred, issueRoot_ids, updateBalance_ids, updateBalance_ids]
    rfl
  | advanced hmoves =>
    rw [ifAccepted_of_none _ (storedId_of_movesEpoch hmoves), advancedBy_ids]
  | movedBack => exact enterEpoch_ids _ _

/-- The three structures agree in every reachable state. -/
theorem accounts_agree (calls : List Call) : AccountsAgree (machine.final calls) :=
  machine.final_invariant AccountsAgree create_agree
    (fun m call h => h.step (m.exec_transition call)) calls

/-- The account vector lists the stored ids in the order of first insertion. -/
theorem ids_eq_firstOccurrences (calls : List Call) :
    (machine.final calls).ids = firstOccurrences (storedIds (machine.events calls)) := by
  induction calls using List.reverseRecOn with
  | nil => rfl
  | append_singleton calls call ih =>
    have hstep := ids_step (accounts_agree calls)
      ((machine.final calls).exec_transition call)
    rw [machine.final_concat, machine.events_concat, storedIds, ofAccepted_concat, machine_exec,
      hstep]
    simp only [Machine.event_call, Machine.event_reply, machine_exec]
    cases ifAccepted Call.storedId? call ((machine.final calls).exec call).1 with
    | none => simpa [storedIds] using ih
    | some id =>
      -- both lists grow by the id, unless they have it already
      rw [storedIds] at ih
      rw [Option.toList_some, firstOccurrences_concat, ih]
      by_cases hmem : id ∈ firstOccurrences (ofAccepted Call.storedId? (machine.events calls))
      · simp only [hmem, if_true]
      · simp only [hmem, if_false]

/-- The ids of a state stay in front, in their places, in all later ones. -/
theorem ids_grow (calls later : List Call) :
    (machine.final calls).ids <+: (machine.final (calls ++ later)).ids := by
  induction later using List.reverseRecOn with
  | nil => rw [List.append_nil]
  | append_singleton later call ih =>
    have hstep := ids_step (accounts_agree (calls ++ later))
      ((machine.final (calls ++ later)).exec_transition call)
    rw [← List.append_assoc, machine.final_concat, machine_exec, hstep]
    split
    · exact ih
    · split
      · exact ih
      · exact ih.trans (List.prefix_append _ _)

/-! ### What the queries see -/

theorem findAccountIndex_eq_some {m : PlaintextModel} (h : AccountsAgree m) {id : StdString}
    {i : AccountIndex} : m.findAccountIndex id = some i ↔ m.ids[i.value.toNat]? = some id := by
  rw [← h.indexes, findAccountIndex, Option.map_eq_some_iff]
  constructor
  · intro ⟨index, hindex, hi⟩
    rw [← hi]
    exact hindex
  · intro hindex
    exact ⟨i.value, hindex, rfl⟩

theorem hasAccount_iff {m : PlaintextModel} (h : AccountsAgree m) {id : StdString} :
    m.hasAccount id = true ↔ id ∈ m.ids := by
  rw [hasAccount, Option.isSome_iff_exists]
  constructor
  · intro ⟨entry, hentry⟩
    exact h.stores.mem_ids hentry
  · intro hmem
    rw [ids_eq_map_entries] at hmem
    obtain ⟨entry, hentry, hid⟩ := List.mem_map.mp hmem
    exact ⟨entry, (h.stores _ _).mpr ⟨hentry, hid⟩⟩

theorem toNat_account_count (m : PlaintextModel) : m.account_count.toNat = m.ids.length := by
  rw [account_count, StdVector.toNat_size, ids, List.length_map]

theorem lt_account_count {m : PlaintextModel} {i : AccountIndex} :
    i.value < m.account_count ↔ i.value.toNat < m.ids.length := by
  rw [UInt64.lt_iff_toNat_lt, toNat_account_count]

/-- The id map knows exactly the ids the entry map knows. -/
theorem hasAccount_iff_isSome {m : PlaintextModel} (h : AccountsAgree m) (id : StdString) :
    m.hasAccount id = true ↔ (m.findAccountIndex id).isSome = true := by
  rw [hasAccount_iff h, findAccountIndex, Option.isSome_map, Option.isSome_iff_exists]
  constructor
  · intro hmem
    obtain ⟨i, hi⟩ := List.mem_iff_getElem?.mp hmem
    exact ⟨_, h.indexes.lookup_getElem hi⟩
  · intro ⟨index, hindex⟩
    exact List.mem_of_getElem? ((h.indexes _ _).mp hindex)

theorem findAccountByIndex_eq_entries (m : PlaintextModel) (i : AccountIndex) :
    m.findAccountByIndex i = m.entries[i.value.toNat]? := by
  rw [findAccountByIndex_eq, entries, List.getElem?_map]

/-- At the index of an id both overloads of `FindAccount` give its entry. -/
theorem findAccount_of_index {m : PlaintextModel} (h : AccountsAgree m) {id : StdString}
    {i : AccountIndex} (hi : m.findAccountIndex id = some i) :
    ∃ entry, m.findAccountByIndex i = some entry ∧ entry.account_id = id ∧
      m.findAccount id = some entry := by
  have hget := (findAccountIndex_eq_some h).mp hi
  rw [ids_eq_map_entries, List.getElem?_map, Option.map_eq_some_iff] at hget
  obtain ⟨entry, hentry, hid⟩ := hget
  refine ⟨entry, ?_, hid, (h.stores _ _).mpr ⟨List.mem_of_getElem? hentry, hid⟩⟩
  rw [findAccountByIndex_eq_entries]
  exact hentry

/-- The index of an id is its place in the order of first insertion. -/
theorem findAccountIndex_eq_idxOf? {m : PlaintextModel} (h : AccountsAgree m) (id : StdString) :
    (m.findAccountIndex id).map (·.value.toNat) = m.ids.idxOf? id := by
  cases hindex : m.findAccountIndex id with
  | none =>
    rw [Option.map_none, eq_comm, List.idxOf?_eq_none_iff]
    intro hmem
    rw [← hasAccount_iff h, hasAccount_iff_isSome h, hindex] at hmem
    contradiction
  | some i =>
    have hget := (findAccountIndex_eq_some h).mp hindex
    obtain ⟨hlt, hid⟩ := List.getElem?_eq_some_iff.mp hget
    rw [Option.map_some, eq_comm, List.idxOf?_eq_some_iff]
    refine ⟨hlt, hid, ?_⟩
    -- no earlier position has the id, as no id is listed twice
    intro j hj heq
    have hji : j = i.value.toNat :=
      h.indexes.nodup.getElem_inj_iff.mp (heq.trans hid.symm)
    omega

/-- **The three account structures are one indexed set.** After every run
    the two id maps know the same ids; the index of an id is valid, and the
    entry there carries the id and is the entry stored under it; every valid
    index belongs to exactly one id, the indices following the order of first
    insertion; and no later call takes an index away from its id. -/
theorem account_structures_indexed (calls : List Call) :
    let m := machine.final calls
    (∀ id, m.hasAccount id = true ↔ (m.findAccountIndex id).isSome = true) ∧
    (∀ id i, m.findAccountIndex id = some i →
      i.value < m.account_count ∧
      ∃ entry, m.findAccountByIndex i = some entry ∧ entry.account_id = id ∧
        m.findAccount id = some entry) ∧
    (∀ id₁ id₂ i, m.findAccountIndex id₁ = some i → m.findAccountIndex id₂ = some i →
      id₁ = id₂) ∧
    (∀ i : AccountIndex,
      i.value < m.account_count → ∃! id, m.findAccountIndex id = some i) ∧
    (∀ id, (m.findAccountIndex id).map (·.value.toNat) =
      (firstOccurrences (storedIds (machine.events calls))).idxOf? id) ∧
    (∀ later id i, m.findAccountIndex id = some i →
      (machine.final (calls ++ later)).findAccountIndex id = some i) ∧
    (∀ later, m.account_count ≤ (machine.final (calls ++ later)).account_count) := by
  intro m
  have h : AccountsAgree m := accounts_agree calls
  have hinj : ∀ id₁ id₂ i, m.findAccountIndex id₁ = some i →
      m.findAccountIndex id₂ = some i → id₁ = id₂ := by
    intro id₁ id₂ i h₁ h₂
    rw [findAccountIndex_eq_some h] at h₁ h₂
    exact Option.some.inj (h₁.symm.trans h₂)
  refine ⟨hasAccount_iff_isSome h, ?_, hinj, ?_, ?_, ?_, ?_⟩
  · intro id i hi
    have hget := (findAccountIndex_eq_some h).mp hi
    exact ⟨lt_account_count.mpr (List.getElem?_eq_some_iff.mp hget).1,
      findAccount_of_index h hi⟩
  · intro i hi
    have hget := List.getElem?_eq_getElem (lt_account_count.mp hi)
    have hfind := (findAccountIndex_eq_some h).mpr hget
    exact ⟨_, hfind, fun id hid => hinj _ _ i hid hfind⟩
  · intro id
    rw [findAccountIndex_eq_idxOf? h, ids_eq_firstOccurrences]
  · intro later id i hi
    rw [findAccountIndex_eq_some h] at hi
    rw [findAccountIndex_eq_some (accounts_agree _)]
    obtain ⟨rest, hrest⟩ := ids_grow calls later
    rw [← hrest, List.getElem?_append_left (List.getElem?_eq_some_iff.mp hi).1]
    exact hi
  · intro later
    rw [UInt64.le_iff_toNat_le, toNat_account_count, toNat_account_count]
    exact (ids_grow calls later).length_le

end PlaintextModel

end Prifhete
