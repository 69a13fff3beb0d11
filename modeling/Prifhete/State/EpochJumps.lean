import Prifhete.State.Operations

/-! # Jumping to an epoch

    `AdvanceToEpoch` loops over `AdvanceEpoch`, whose refusal at the last
    epoch would end the loop early, and `set_current_epoch` repeats or calls
    both. The loop stops before that refusal: a jump is as many single steps
    as epochs lie ahead, through the last epoch of all. `Jumped` says what
    such steps add up to.
-/

namespace Prifhete

namespace PlaintextModel

/-- The roots that `n` steps forward issue, in the order of issue: one for
    each epoch that is entered. -/
def jumpRoots (m : PlaintextModel) (n : Nat) : List RootReference :=
  (List.range n).map fun k =>
    rootFor (m.current_epoch_ + .ofNat (k + 1)) { value := m.root_version_.value + .ofNat (k + 1) }

/-- Storing a root under its key. -/
def storeRoot (roots : UnorderedMap StdString RootRecord) (root : RootReference) :
    UnorderedMap StdString RootRecord :=
  roots.insert root.key { reference := root }

/-- What `n` steps forward from `m` leave. -/
structure Jumped (m : PlaintextModel) (n : Nat) (m' : PlaintextModel) : Prop where
  current_epoch : m'.current_epoch_ = m.current_epoch_ + .ofNat n
  root_version : m'.root_version_ = { value := m.root_version_.value + .ofNat n }
  valid_roots : m'.valid_roots_ = (m.jumpRoots n).foldl storeRoot m.valid_roots_
  /-- Only the last of the roots belongs to the epoch reached. -/
  root_keys : 0 < n → m'.current_epoch_root_keys_ = [m'.current_root_.key] ∧
    (m.jumpRoots n).getLast? = some m'.current_root_
  forgets : 0 < n → m'.accepted_prf_outputs_in_current_epoch_ = [] ∧
    m'.prf_outputs_in_current_epoch_ = ∅
  account_indices : m'.account_indices_ = m.account_indices_
  balances : m'.account_states_.toList.map (·.balance) = m.account_states_.toList.map (·.balance)

theorem jumpRoots_succ (m : PlaintextModel) (n : Nat) :
    m.jumpRoots (n + 1) = m.jumpRoots n ++
      [rootFor (m.current_epoch_ + .ofNat (n + 1))
        { value := m.root_version_.value + .ofNat (n + 1) }] := by
  simp [jumpRoots, List.range_succ]

/-- One step further. -/
theorem Jumped.nextEpoch {m p : PlaintextModel} {n : Nat} (h : Jumped m n p) :
    Jumped m (n + 1) p.nextEpoch := by
  have hepoch : p.current_epoch_ + 1 = m.current_epoch_ + .ofNat (n + 1) := by
    rw [h.current_epoch, UInt64.ofNat_add, UInt64.add_assoc]
    rfl
  have hversion : p.root_version_.value + 1 = m.root_version_.value + .ofNat (n + 1) := by
    rw [h.root_version, UInt64.ofNat_add, UInt64.add_assoc]
    rfl
  have hroot : current_root_ p.nextEpoch = rootFor (m.current_epoch_ + .ofNat (n + 1))
      { value := m.root_version_.value + .ofNat (n + 1) } := by
    rw [← hepoch, ← hversion]
    rfl
  refine ⟨hepoch, congrArg RootVersion.mk hversion, ?_, ?_, fun _ => ⟨rfl, rfl⟩,
    h.account_indices, ?_⟩
  · -- the root of the step is stored after those of the steps before
    rw [jumpRoots_succ, List.foldl_append, ← h.valid_roots, ← hroot]
    rfl
  · intro _
    rw [jumpRoots_succ, List.getLast?_concat, hroot]
    refine ⟨?_, rfl⟩
    rw [← hroot]
    rfl
  · rw [← h.balances]
    show (issueRoot _).account_states_.toList.map _ = _
    rw [issueRoot_account_states, List.map_map]
    rfl

theorem jumped_advancedBy (m : PlaintextModel) (n : Nat) : Jumped m n (m.advancedBy n) := by
  induction n with
  | zero =>
    refine ⟨?_, ?_, rfl, fun h => absurd h (Nat.lt_irrefl 0), fun h => absurd h (Nat.lt_irrefl 0),
      rfl, rfl⟩
    · exact (UInt64.add_zero _).symm
    · exact congrArg RootVersion.mk (UInt64.add_zero _).symm
  | succ n ih =>
    rw [advancedBy_succ]
    exact ih.nextEpoch

/-- The last root is the one the model reports for the epoch reached. -/
theorem Jumped.current_root_versions {m m' : PlaintextModel} {n : Nat} (h : Jumped m n m')
    (hpos : 0 < n) : m'.current_root_versions = (m.jumpRoots n).getLast?.toList := by
  obtain ⟨hkeys, hlast⟩ := h.root_keys hpos
  obtain ⟨front, hfront⟩ := List.getLast?_eq_some_iff.mp hlast
  have hlookup : m'.valid_roots_.lookup m'.current_root_.key =
      some { reference := m'.current_root_ } := by
    rw [h.valid_roots, hfront, List.foldl_append]
    exact Finmap.lookup_insert _
  unfold PlaintextModel.current_root_versions
  rw [hkeys, hlast, List.filterMap_cons, hlookup]
  rfl

theorem Jumped.findAccountIndex {m m' : PlaintextModel} {n : Nat} (h : Jumped m n m')
    (id : StdString) : m'.findAccountIndex id = m.findAccountIndex id := by
  unfold PlaintextModel.findAccountIndex
  rw [h.account_indices]

theorem Jumped.inspectBalance {m m' : PlaintextModel} {n : Nat} (h : Jumped m n m')
    (i : AccountIndex) : m'.inspectBalance i = m.inspectBalance i := by
  have hbalance := congrArg (·[i.value.toNat]?) h.balances
  simp only [List.getElem?_map] at hbalance
  rw [inspectBalance_eq, inspectBalance_eq, hbalance]

/-- As long as there are epochs to enter, `AdvanceEpoch` is not refused. -/
theorem iterate_advanceEpoch {m : PlaintextModel} {n : Nat}
    (hroom : m.current_epoch_.toNat + n < 2 ^ 64) :
    (fun p : PlaintextModel => p.advanceEpoch.2)^[n] m = m.advancedBy n ∧
      ∀ k < n, (m.advancedBy k).advanceEpoch.1 = okStatus := by
  have hstep : ∀ k < n, (m.advancedBy k).advanceEpoch = (okStatus, m.advancedBy (k + 1)) := by
    intro k hk
    have hepoch := advancedBy_current_epoch (m := m) (n := k) (by omega)
    have hmax : (m.advancedBy k).current_epoch_ ≠ -1 := by
      intro hmax
      rw [hmax, show (-1 : UInt64).toNat = 2 ^ 64 - 1 from rfl] at hepoch
      omega
    rw [advanceEpoch_of_room hmax, advancedBy_succ]
  refine ⟨?_, fun k hk => by rw [hstep k hk]⟩
  induction n with
  | zero => rfl
  | succ n ih =>
    have hprev := ih (by omega) fun k hk => hstep k (by omega)
    rw [Function.iterate_succ_apply', hprev, hstep n (by omega)]

/-- Jumping by way of an epoch in between. -/
theorem advancedBy_add (m : PlaintextModel) (i j : Nat) :
    (m.advancedBy i).advancedBy j = m.advancedBy (i + j) := by
  rw [Nat.add_comm]
  exact (Function.iterate_add_apply nextEpoch j i m).symm

theorem advanceToEpoch_by_way_of {m : PlaintextModel} {mid epoch : EpochNumber}
    (hmid : m.current_epoch_ ≤ mid) (hrest : mid ≤ epoch) :
    (m.advanceToEpoch mid).2.advanceToEpoch epoch = m.advanceToEpoch epoch := by
  have hnat := UInt64.le_iff_toNat_le.mp hmid
  have hnat' := UInt64.le_iff_toNat_le.mp hrest
  -- the steps to the stop and those from it on
  have hsteps : mid.toNat - m.current_epoch_.toNat + (epoch.toNat - mid.toNat) =
      epoch.toNat - m.current_epoch_.toNat := by omega
  rw [advanceToEpoch_of_le hmid, advanceToEpoch_of_le (by rwa [advancedBy_reaches hmid]),
    advancedBy_reaches hmid, advancedBy_add, hsteps,
    advanceToEpoch_of_le (UInt64.le_trans hmid hrest)]

/-- Forward, or to the epoch the model is in, `set_current_epoch` is a jump. -/
theorem set_current_epoch_of_le {m : PlaintextModel} {epoch : EpochNumber}
    (hle : m.current_epoch_ ≤ epoch) :
    m.set_current_epoch epoch = (m.advanceToEpoch epoch).2 := by
  rw [advanceToEpoch_of_le hle]
  by_cases hsame : epoch = m.current_epoch_
  · rw [hsame, set_current_epoch_self, Nat.sub_self, advancedBy_zero]
  · exact set_current_epoch_of_gt (UInt64.lt_of_le_of_ne hle (Ne.symm hsame))

/-- **Jumps are repeated steps.** From every state and to every epoch from
    the current one on, the last one included, `AdvanceToEpoch` succeeds,
    with the state that as many calls of `AdvanceEpoch` leave as epochs lie
    ahead, none of which is refused: the epoch asked for, the version as
    many roots on, the root map with a root for each epoch entered and
    nothing else, the last of them and no PRF output in the epoch reached,
    and indices and balances as they were. A stop on the way makes no
    difference, and `set_current_epoch` does the same. -/
theorem jumps_are_repeated_steps (m : PlaintextModel) (epoch : EpochNumber)
    (hle : m.current_epoch_ ≤ epoch) :
    let n := epoch.toNat - m.current_epoch_.toNat
    let m' := (m.advanceToEpoch epoch).2
    (m.advanceToEpoch epoch).1 = okStatus ∧
    (m' = (fun p : PlaintextModel => p.advanceEpoch.2)^[n] m ∧
      ∀ k < n, ((fun p : PlaintextModel => p.advanceEpoch.2)^[k] m).advanceEpoch.1 = okStatus) ∧
    (m'.current_epoch_ = epoch ∧
      m'.root_version_ = { value := m.root_version_.value + .ofNat n } ∧
      m'.valid_roots_ = (m.jumpRoots n).foldl storeRoot m.valid_roots_ ∧
      (m.current_epoch_ < epoch →
        m'.current_root_versions = (m.jumpRoots n).getLast?.toList ∧
        m'.accepted_prf_outputs_in_current_epoch_ = [] ∧
        m'.prf_outputs_in_current_epoch_ = ∅) ∧
      (∀ id, m'.findAccountIndex id = m.findAccountIndex id) ∧
      (∀ i, m'.inspectBalance i = m.inspectBalance i) ∧
      (epoch = m.current_epoch_ → m' = m)) ∧
    (∀ mid, m.current_epoch_ ≤ mid → mid ≤ epoch →
      (m.advanceToEpoch mid).2.advanceToEpoch epoch = m.advanceToEpoch epoch) ∧
    m.set_current_epoch epoch = m' := by
  intro n m'
  have hnat := UInt64.le_iff_toNat_le.mp hle
  have hroom : m.current_epoch_.toNat + n < 2 ^ 64 := by
    have hlt := epoch.toNat_lt
    omega
  have hjump : m.advanceToEpoch epoch = (okStatus, m.advancedBy n) := advanceToEpoch_of_le hle
  have hm' : m' = m.advancedBy n := congrArg Prod.snd hjump
  have hjumped : Jumped m n m' := by
    rw [hm']
    exact m.jumped_advancedBy n
  refine ⟨congrArg Prod.fst hjump, ⟨?_, ?_⟩,
    ⟨?_, hjumped.root_version, hjumped.valid_roots, ?_, hjumped.findAccountIndex,
      hjumped.inspectBalance, ?_⟩,
    fun mid hmid hrest => advanceToEpoch_by_way_of hmid hrest, set_current_epoch_of_le hle⟩
  · rw [hm', (iterate_advanceEpoch hroom).1]
  · intro k hk
    rw [(iterate_advanceEpoch (m := m) (n := k) (by omega)).1]
    exact (iterate_advanceEpoch hroom).2 k hk
  · rw [hm']
    exact advancedBy_reaches hle
  · intro hlt
    have hpos : 0 < n := by
      have hlt' := UInt64.lt_iff_toNat_lt.mp hlt
      omega
    exact ⟨hjumped.current_root_versions hpos, hjumped.forgets hpos⟩
  · intro heq
    have hzero : n = 0 := by
      rw [show n = epoch.toNat - m.current_epoch_.toNat from rfl, heq, Nat.sub_self]
    rw [hm', hzero, advancedBy_zero]

/-- From the first epoch to the last one there is. -/
theorem jumps_are_repeated_steps_to_the_end :
    (0 : EpochNumber) ≤ -1 ∧ (create.advanceToEpoch (-1)).1 = okStatus ∧
      (create.advanceToEpoch (-1)).2.current_epoch_ = -1 := by
  have hle : create.current_epoch_ ≤ -1 := by decide
  obtain ⟨hok, _, ⟨hepoch, _⟩, _⟩ := jumps_are_repeated_steps create (-1) hle
  exact ⟨hle, hok, hepoch⟩

end PlaintextModel

end Prifhete
