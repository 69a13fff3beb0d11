import Prifhete.State.Acceptance

/-! # Replay of PRF outputs and of whole requests

    The model forgets the PRF outputs of an epoch when it leaves it. As long
    as no call returns to an epoch in which a transaction has been accepted,
    each PRF output is used at most once per epoch number; once one does,
    the next mint can use one again.

    In runs that only move forward this bounds the replay of a request: its
    root is acceptable for two epochs and its PRF output for one.
-/

namespace Prifhete

open Sequences

namespace PlaintextModel

/-! ### Epochs asked for -/

/-- The epoch a call moves to, if it moves to another one. -/
def Call.requestedEpoch (m : PlaintextModel) : Call → Option EpochNumber
  | .advanceEpoch => if m.current_epoch_ = -1 then none else some (m.current_epoch_ + 1)
  | .advanceToEpoch epoch => if m.current_epoch_ < epoch then some epoch else none
  | .set_current_epoch epoch => if m.current_epoch_ = epoch then none else some epoch
  | _ => none

/-- Other operations stay in the epoch. -/
theorem Transition.current_epoch {m m' : PlaintextModel} {call : Call} {reply : Reply}
    {trail : List PlaintextModel} (hstep : Transition m call reply trail m')
    (hstay : call.movesEpoch = false) : m'.current_epoch_ = m.current_epoch_ := by
  cases hstep with
  | advanced hmoves =>
    rw [hmoves] at hstay
    contradiction
  | movedBack => contradiction
  | _ => rfl

/-- A call leads to the epoch it asks for, and otherwise stays. -/
theorem current_epoch_exec (m : PlaintextModel) (call : Call) :
    (m.exec call).2.current_epoch_ = (call.requestedEpoch m).getD m.current_epoch_ := by
  have hstep := m.exec_transition call
  cases call with
  | advanceEpoch =>
    simp only [exec, Call.requestedEpoch]
    by_cases hmax : m.current_epoch_ = -1
    · rw [advanceEpoch_refused hmax, if_pos hmax]
      rfl
    · rw [advanceEpoch_of_room hmax, if_neg hmax]
      rfl
  | advanceToEpoch epoch =>
    simp only [exec, Call.requestedEpoch]
    by_cases hforward : m.current_epoch_ < epoch
    · rw [advanceToEpoch_of_le (UInt64.le_of_lt hforward), if_pos hforward]
      exact advancedBy_reaches (UInt64.le_of_lt hforward)
    · rw [if_neg hforward]
      by_cases hback : epoch < m.current_epoch_
      · rw [advanceToEpoch_refused hback]
        rfl
      · have hle := UInt64.not_lt.mp hback
        rw [advanceToEpoch_of_le hle]
        show (m.advancedBy _).current_epoch_ = m.current_epoch_
        rw [advancedBy_reaches hle]
        exact UInt64.le_antisymm (UInt64.not_lt.mp hforward) hle
  | set_current_epoch epoch =>
    simp only [exec, Call.requestedEpoch]
    by_cases hsame : m.current_epoch_ = epoch
    · rw [if_pos hsame, ← hsame, set_current_epoch_self]
      rfl
    · rw [if_neg hsame]
      by_cases hforward : m.current_epoch_ < epoch
      · rw [set_current_epoch_of_gt hforward]
        exact advancedBy_reaches (UInt64.le_of_lt hforward)
      · have hback := UInt64.lt_of_le_of_ne (UInt64.not_lt.mp hforward) (Ne.symm hsame)
        rw [set_current_epoch_of_lt hback]
        rfl
  | _ => exact hstep.current_epoch rfl

theorem requestedEpoch_ne {m : PlaintextModel} {call : Call} {epoch : EpochNumber}
    (h : call.requestedEpoch m = some epoch) : m.current_epoch_ ≠ epoch := by
  cases call with
  | advanceEpoch =>
    simp only [Call.requestedEpoch] at h
    split at h
    · contradiction
    · cases h
      exact (Word.add_one_ne_self _).symm
  | advanceToEpoch target =>
    simp only [Call.requestedEpoch] at h
    split at h
    · next hlt =>
      cases h
      exact UInt64.ne_of_lt hlt
    · contradiction
  | set_current_epoch target =>
    simp only [Call.requestedEpoch] at h
    split at h
    · contradiction
    · next hne =>
      cases h
      exact hne
  | _ => contradiction

/-! ### Uses of PRF outputs -/

/-- The epoch and the PRF bytes of an accepted transaction. -/
def prfUse (e : Event) : Option (EpochNumber × ByteString) :=
  (ifAccepted Call.prf_output? e.call e.reply).map fun prf => (e.before.current_epoch_, prf.bytes)

/-- The uses of PRF outputs in a history, oldest first. -/
def prfUses (h : List Event) : List (EpochNumber × ByteString) := h.filterMap prfUse

/-- In no epoch number has a PRF output been used twice. -/
def OncePerEpoch (h : List Event) : Prop :=
  ∀ epoch bytes, (prfUses h).count (epoch, bytes) ≤ 1

theorem oncePerEpoch_iff_nodup {h : List Event} : OncePerEpoch h ↔ (prfUses h).Nodup := by
  rw [List.nodup_iff_count_le_one]
  constructor
  · intro honce use
    exact honce use.1 use.2
  · intro hcount epoch bytes
    exact hcount (epoch, bytes)

theorem prfUses_concat (h : List Event) (e : Event) :
    prfUses (h ++ [e]) = prfUses h ++ (prfUse e).toList := by
  rw [prfUses, List.filterMap_append]
  cases huse : prfUse e <;> simp [prfUses, huse]

/-- The call moves to an epoch in which the history has accepted a transaction. -/
def EntersUsedEpoch (h : List Event) (m : PlaintextModel) (call : Call) : Prop :=
  ∃ epoch, call.requestedEpoch m = some epoch ∧ ∃ use ∈ prfUses h, use.1 = epoch

/-- No use is repeated, and those of the current epoch number are all
    remembered. -/
structure PrfGuarded (h : List Event) (m : PlaintextModel) : Prop where
  nodup : (prfUses h).Nodup
  remembered : ∀ use ∈ prfUses h, use.1 = m.current_epoch_ →
    toKey use.2 ∈ m.prf_outputs_in_current_epoch_

/-- A call that changes the epoch has asked for the new one. -/
theorem requestedEpoch_of_ne {m : PlaintextModel} {call : Call}
    (hne : m.current_epoch_ ≠ (m.exec call).2.current_epoch_) :
    call.requestedEpoch m = some (m.exec call).2.current_epoch_ := by
  rw [current_epoch_exec] at hne ⊢
  cases hrequest : call.requestedEpoch m with
  | none =>
    rw [hrequest] at hne
    exact absurd rfl hne
  | some epoch => rfl

/-- A call that does not return to a used epoch keeps the guard up. -/
theorem PrfGuarded.step {h : List Event} {m : PlaintextModel} (hguard : PrfGuarded h m)
    {call : Call} (hfresh : ¬ EntersUsedEpoch h m call) :
    PrfGuarded (h ++ [machine.event m call]) (m.exec call).2 := by
  have hstep := m.exec_transition call
  have hconcat : prfUses (h ++ [machine.event m call]) =
      prfUses h ++ (prfUse (machine.event m call)).toList := prfUses_concat ..
  have hused : prfUse (machine.event m call) =
      (ifAccepted Call.prf_output? call (m.exec call).1).map
        fun prf => (m.current_epoch_, prf.bytes) := rfl
  -- what has been used in the epoch of the new state is remembered there
  have hold : ∀ use ∈ prfUses h, use.1 = (m.exec call).2.current_epoch_ →
      toKey use.2 ∈ (m.exec call).2.prf_outputs_in_current_epoch_ := by
    intro use huse hepoch
    rcases prf_step hstep with ⟨hsame, _, hseen⟩ | ⟨hne, _, _⟩
    · rw [hseen, mem_seenAfter]
      exact Or.inl (hguard.remembered use huse (hepoch.trans hsame.symm))
    · exact absurd ⟨_, requestedEpoch_of_ne hne, use, huse, hepoch⟩ hfresh
  cases hprf : ifAccepted Call.prf_output? call (m.exec call).1 with
  | none =>
    rw [hused, hprf, Option.map_none, Option.toList_none, List.append_nil] at hconcat
    constructor
    · rw [hconcat]
      exact hguard.nodup
    · rw [hconcat]
      exact hold
  | some prf =>
    rw [hused, hprf, Option.map_some, Option.toList_some] at hconcat
    obtain ⟨hok, hcarries⟩ := (ifAccepted_eq_some _).mp hprf
    have hkey := usedPrf_fresh hstep hok hcarries
    constructor
    · -- the use is new, for otherwise its key would be remembered
      rw [hconcat]
      refine List.nodup_append.mpr ⟨hguard.nodup, List.nodup_singleton _, ?_⟩
      intro use huse other hother heq
      rw [List.mem_singleton] at hother
      rw [heq, hother] at huse
      exact hkey (hguard.remembered _ huse rfl)
    · rw [hconcat]
      intro use huse hepoch
      rcases List.mem_append.mp huse with huse | huse
      · exact hold use huse hepoch
      · rw [List.mem_singleton] at huse
        subst huse
        rcases prf_step hstep with ⟨_, _, hseen⟩ | ⟨hne, _, _⟩
        · rw [hseen, mem_seenAfter, hprf]
          exact Or.inr ⟨prf, rfl, rfl⟩
        · exact absurd hepoch hne

/-- The run never returns to a used epoch. -/
def KeepsUsedEpochs (calls : List Call) : Prop :=
  machine.Along (fun h m call => ¬ EntersUsedEpoch h m call) calls

theorem prfGuarded {calls : List Call} (hkeeps : KeepsUsedEpochs calls) :
    PrfGuarded (machine.events calls) (machine.final calls) := by
  refine machine.along_invariant PrfGuarded ?_ ?_ hkeeps
  · refine ⟨List.nodup_nil, ?_⟩
    intro use huse
    contradiction
  · intro h m call hfresh hguard
    exact hguard.step hfresh

/-! ### Runs that only move forward -/

/-- The operations that leave the epoch or move it forward, direct entry
    updates apart. -/
def Call.movesForward : Call → Bool
  | .register _ => true
  | .mint _ => true
  | .transfer _ => true
  | .advanceEpoch => true
  | .advanceToEpoch _ => true
  | _ => false

theorem requestedEpoch_gt {m : PlaintextModel} {call : Call} {epoch : EpochNumber}
    (hforward : call.movesForward = true) (h : call.requestedEpoch m = some epoch) :
    m.current_epoch_.toNat < epoch.toNat := by
  cases call with
  | advanceEpoch =>
    simp only [Call.requestedEpoch] at h
    split at h
    · contradiction
    · next hmax =>
      cases h
      rw [Word.toNat_add_one hmax]
      exact Nat.lt_succ_self _
  | advanceToEpoch target =>
    simp only [Call.requestedEpoch] at h
    split at h
    · next hlt =>
      cases h
      exact UInt64.lt_iff_toNat_lt.mp hlt
    · contradiction
  | set_current_epoch => contradiction
  | upsertAccount => contradiction
  | _ => contradiction

theorem current_epoch_mono {m : PlaintextModel} {call : Call}
    (hforward : call.movesForward = true) :
    m.current_epoch_.toNat ≤ (m.exec call).2.current_epoch_.toNat := by
  rw [current_epoch_exec]
  cases hrequest : call.requestedEpoch m with
  | none => exact Nat.le_refl _
  | some epoch => exact Nat.le_of_lt (requestedEpoch_gt hforward hrequest)

/-- The epochs of the events never decrease, and the state is in the last. -/
theorem epochs_sorted {calls : List Call} (hforward : ∀ c ∈ calls, c.movesForward = true) :
    (machine.events calls).Pairwise
        (fun e₁ e₂ => e₁.before.current_epoch_.toNat ≤ e₂.before.current_epoch_.toNat) ∧
      ∀ e ∈ machine.events calls,
        e.before.current_epoch_.toNat ≤ (machine.final calls).current_epoch_.toNat := by
  induction calls using List.reverseRecOn with
  | nil =>
    refine ⟨List.Pairwise.nil, ?_⟩
    intro e he
    contradiction
  | append_singleton calls call ih =>
    obtain ⟨hsorted, hlast⟩ := ih fun c hc => hforward c (List.mem_append_left _ hc)
    have hmono := current_epoch_mono (m := machine.final calls) (hforward call (by simp))
    rw [machine.events_concat, machine.final_concat]
    constructor
    · rw [List.pairwise_append]
      refine ⟨hsorted, List.pairwise_singleton _ _, ?_⟩
      intro e₁ he₁ e₂ he₂
      rw [List.mem_singleton.mp he₂]
      exact hlast e₁ he₁
    · intro e he
      rcases List.mem_append.mp he with he | he
      · exact Nat.le_trans (hlast e he) hmono
      · rw [List.mem_singleton.mp he]
        exact hmono

/-- A run that only moves forward returns to no epoch. -/
theorem keepsUsedEpochs_of_forward {calls : List Call}
    (hforward : ∀ c ∈ calls, c.movesForward = true) : KeepsUsedEpochs calls := by
  show machine.Along (fun h m call => ¬ EntersUsedEpoch h m call) calls
  refine machine.along_of_forall hforward ?_
  intro pre call hpre hcall ⟨epoch, hrequest, use, huse, hepoch⟩
  have hgt := requestedEpoch_gt hcall hrequest
  -- the epoch of the use is not later than the current one
  obtain ⟨e, he, heuse⟩ := List.mem_filterMap.mp huse
  obtain ⟨prf, _, hprf⟩ := Option.map_eq_some_iff.mp heuse
  have hle := (epochs_sorted hpre).2 e he
  rw [← hepoch, ← hprf] at hgt
  exact Nat.not_lt.mpr hle hgt

/-! ### Returning to a used epoch -/

/-- An accepted transaction concerns an account. -/
theorem account_of_accepted {m m' : PlaintextModel} {call : Call} {reply : Reply}
    {trail : List PlaintextModel} (hstep : Transition m call reply trail m') {prf : PRFOutput}
    (hok : reply.accepted = true) (hprf : call.prf_output? = some prf) :
    0 < m.account_states_.toList.length := by
  rcases hstep.admitted hok hprf with ⟨t, _, hadm⟩ | ⟨t, _, hadm⟩
  · have hlt := isValidAccountIndex_iff.mp (mintAdmissible_iff.mp hadm).2.1
    omega
  · have hlt := isValidAccountIndex_iff.mp (transferAdmissible_iff.mp hadm).2.1
    omega

theorem account_of_prfUses (calls : List Call) (hused : prfUses (machine.events calls) ≠ []) :
    0 < (machine.final calls).account_states_.toList.length := by
  refine machine.history_invariant
    (fun h m => prfUses h ≠ [] → 0 < m.account_states_.toList.length) ?_ ?_ calls hused
  · intro hne
    exact absurd rfl hne
  · intro h m call ih hne
    have hstep := m.exec_transition call
    refine Nat.lt_of_lt_of_le ?_ (length_states_mono hstep)
    cases hprf : ifAccepted Call.prf_output? call (m.exec call).1 with
    | none =>
      apply ih
      intro hnil
      apply hne
      rw [prfUses_concat, hnil, prfUse]
      simp [hprf]
    | some prf =>
      obtain ⟨hok, hcarries⟩ := (ifAccepted_eq_some _).mp hprf
      exact account_of_accepted hstep hok hcarries

/-- A mint of nothing with given PRF bytes and the current root. -/
def probe (m : PlaintextModel) (bytes : ByteString) : PublicToPrivateMint where
  transaction_id := [0]
  recipient_index := { value := 0 }
  value := 0
  prf_output := { bytes := bytes }
  referenced_root := m.current_root_

/-- Right after an epoch change such a mint passes the checks. -/
theorem probe_admissible {calls : List Call} {call : Call}
    (haccount : 0 < (machine.final calls).account_states_.toList.length)
    (hne : (machine.final calls).current_epoch_ ≠
      (machine.final (calls ++ [call])).current_epoch_) (bytes : ByteString) :
    (machine.final (calls ++ [call])).mintAdmissible
      (probe (machine.final (calls ++ [call])) bytes) = true := by
  have hstep := (machine.final calls).exec_transition call
  rw [mintAdmissible_iff]
  refine ⟨List.cons_ne_nil _ _, ?_, ?_, ?_⟩
  · rw [isValidAccountIndex_iff, machine.final_concat]
    show 0 < (machine.exec _ call).2.account_states_.toList.length
    exact Nat.lt_of_lt_of_le haccount (length_states_mono hstep)
  · rw [validateReferencedRoot_iff_history]
    have hown : (PlaintextModel.current_root_ (machine.final (calls ++ [call]))).epoch =
        (machine.final (calls ++ [call])).current_epoch_ := by
      rw [(rootHistory (calls ++ [call])).own]
      rfl
    refine ⟨⟨_, machine.final_mem_points _, rfl⟩, ?_⟩
    show (PlaintextModel.current_root_ (machine.final (calls ++ [call]))).epoch.toNat ≤ _ ∧ _ -
      (PlaintextModel.current_root_ (machine.final (calls ++ [call]))).epoch.toNat ≤ 1
    rw [hown]
    omega
  · rcases prf_step hstep with ⟨hsame, _, _⟩ | ⟨_, _, hseen⟩
    · rw [machine.final_concat] at hne
      exact absurd hsame hne
    · rw [machine.final_concat, machine_exec, hseen]
      exact Finset.notMem_empty _

/-- Returning to a used epoch lets one of its PRF outputs be used again. -/
theorem reused_after_return {calls : List Call} {call : Call}
    (henters : EntersUsedEpoch (machine.events calls) (machine.final calls) call) :
    ∃ t, ¬ OncePerEpoch (machine.events (calls ++ [call] ++ [.mint t])) := by
  obtain ⟨epoch, hrequest, use, huse, hepoch⟩ := henters
  have hreached : (machine.final (calls ++ [call])).current_epoch_ = epoch := by
    rw [machine.final_concat, machine_exec, current_epoch_exec, hrequest]
    rfl
  have hadm := probe_admissible (account_of_prfUses calls (List.ne_nil_of_mem huse))
    (hreached ▸ requestedEpoch_ne hrequest) use.2
  refine ⟨(machine.final (calls ++ [call])).probe use.2, ?_⟩
  rw [oncePerEpoch_iff_nodup, machine.events_concat, prfUses_concat, List.nodup_append]
  intro ⟨_, _, hdisjoint⟩
  -- the use before the return and the one after it are the same
  refine hdisjoint use ?_ use ?_ rfl
  · rw [machine.events_concat, prfUses_concat]
    exact List.mem_append_left _ huse
  · rw [Option.mem_toList, prfUse]
    simp only [Machine.event_call, Machine.event_reply, Machine.event_before, machine_exec, exec,
      mint_of_admissible hadm]
    rw [ifAccepted_of_accepted _ rfl, hreached, ← hepoch]
    rfl

theorem oncePerEpoch_of_keeps {calls : List Call} (hkeeps : KeepsUsedEpochs calls) :
    OncePerEpoch (machine.events calls) := by
  rw [oncePerEpoch_iff_nodup]
  exact (prfGuarded hkeeps).nodup

/-- A prefix, and a mint after it, return to no epoch the run does not return to. -/
theorem KeepsUsedEpochs.then_mint {calls pre : List Call} (hkeeps : KeepsUsedEpochs calls)
    (hpre : pre <+: calls) (t : PublicToPrivateMint) : KeepsUsedEpochs (pre ++ [.mint t]) := by
  obtain ⟨rest, hcalls⟩ := hpre
  rw [← hcalls] at hkeeps
  refine machine.along_concat.mpr ⟨Machine.Along.of_append _ hkeeps, ?_⟩
  -- a mint asks for no epoch
  intro ⟨epoch, hrequest, _⟩
  contradiction

/-- **At most once per epoch.** A run that never returns to an epoch in which
    it has accepted a transaction uses each PRF output at most once in each
    epoch number; and it is exactly in these runs that no mint, whenever it
    is submitted, can use one a second time. -/
theorem prf_once_per_epoch (calls : List Call) :
    (KeepsUsedEpochs calls → OncePerEpoch (machine.events calls)) ∧
    (KeepsUsedEpochs calls ↔
      ∀ pre, pre <+: calls → ∀ t, OncePerEpoch (machine.events (pre ++ [.mint t]))) := by
  refine ⟨oncePerEpoch_of_keeps, ?_, ?_⟩
  · intro hkeeps pre hpre t
    exact oncePerEpoch_of_keeps (hkeeps.then_mint hpre t)
  · intro honce pre call post hcalls henters
    obtain ⟨t, hreused⟩ := reused_after_return henters
    apply hreused
    apply honce
    rw [hcalls]
    exact ⟨post, by rw [List.append_assoc, List.singleton_append]⟩

/-- One PRF output used in two epochs. -/
theorem prf_once_per_epoch_two_epochs :
    let mintOf (id : String) : Call := .mint {
      transaction_id := StdString.ofAscii id
      recipient_index := { value := 0 }
      value := 5
      prf_output := { bytes := [1] }
      referenced_root := rootFor 0 { value := 2 } }
    let calls : List Call :=
      [.register { account_id := StdString.ofAscii "alice", public_key := {} }, mintOf "mint-1",
        mintOf "mint-2", .advanceEpoch, mintOf "mint-3"]
    KeepsUsedEpochs calls ∧ prfUses (machine.events calls) = [(0, [1]), (1, [1])] ∧
      OncePerEpoch (machine.events calls) := by
  intro mintOf calls
  have hkeeps : KeepsUsedEpochs calls := keepsUsedEpochs_of_forward (by decide)
  exact ⟨hkeeps, by decide +kernel, (prf_once_per_epoch calls).1 hkeeps⟩

/-- After stepping forward and back the same mint is accepted a second time
    in the same epoch. -/
theorem prf_reused_after_stepping_back :
    let mintOf : Call := .mint {
      transaction_id := StdString.ofAscii "mint-1"
      recipient_index := { value := 0 }
      value := 5
      prf_output := { bytes := [1] }
      referenced_root := rootFor 0 { value := 2 } }
    let calls : List Call :=
      [.register { account_id := StdString.ofAscii "alice", public_key := {} }, mintOf,
        .advanceEpoch, .set_current_epoch 0, mintOf]
    ¬ OncePerEpoch (machine.events calls) := by
  intro mintOf calls honce
  have htwice : (prfUses (machine.events calls)).count (0, [1]) = 2 := by decide
  have hle := honce 0 [1]
  omega

/-! ### Replay of requests -/

/-- The root a transaction refers to. -/
def Call.referenced_root? : Call → Option RootReference
  | .mint t => some t.referenced_root
  | .transfer t => some t.referenced_root
  | _ => none

/-- A transaction carries a PRF output along with its root. -/
theorem exists_prf_output {call : Call} {root : RootReference}
    (hroot : call.referenced_root? = some root) : ∃ prf, call.prf_output? = some prf := by
  cases call with
  | mint t => exact ⟨t.prf_output, rfl⟩
  | transfer t => exact ⟨t.prf_output, rfl⟩
  | _ => contradiction

/-- The root of an accepted transaction is in the window. -/
theorem accepted_root_window {m m' : PlaintextModel} {call : Call} {reply : Reply}
    {trail : List PlaintextModel} (hstep : Transition m call reply trail m')
    {root : RootReference} (hok : reply.accepted = true)
    (hroot : call.referenced_root? = some root) :
    root.epoch.toNat ≤ m.current_epoch_.toNat ∧
      m.current_epoch_.toNat - root.epoch.toNat ≤ 1 := by
  have hwindow : ∀ r, (m.validateReferencedRoot r).ok = true →
      r.epoch.toNat ≤ m.current_epoch_.toNat ∧
        m.current_epoch_.toNat - r.epoch.toNat ≤ 1 := by
    intro r hr
    exact isRootAcceptableForCurrentEpoch_iff.mp (validateReferencedRoot_ok.mp hr).2
  obtain ⟨prf, hprf⟩ := exists_prf_output hroot
  rcases hstep.admitted hok hprf with ⟨t, hcall, hadm⟩ | ⟨t, hcall, hadm⟩
  · rw [hcall] at hroot
    obtain rfl : t.referenced_root = root := Option.some.inj hroot
    exact hwindow _ (mintAdmissible_iff.mp hadm).2.2.1
  · rw [hcall] at hroot
    obtain rfl : t.referenced_root = root := Option.some.inj hroot
    exact hwindow _ (transferAdmissible_iff.mp hadm).2.2.2.1

/-- A transaction that is not accepted is rejected. -/
theorem rejected_of_not_accepted {m : PlaintextModel} {call : Call} {root : RootReference}
    (hroot : call.referenced_root? = some root) (h : (m.exec call).1.accepted = false) :
    (m.exec call).1.rejected = true := by
  cases call with
  | mint t =>
    have hok : (m.mint t).1.status.ok = false := h
    simp [exec, Reply.rejected, Reply.status?, hok]
  | transfer t =>
    have hok : (m.transfer t).1.status.ok = false := h
    simp [exec, Reply.rejected, Reply.status?, hok]
  | _ => contradiction

/-- The second of two acceptances of one request: its root belongs to the
    epoch of the first, and the epoch is the following one. -/
def AcceptedInNextEpoch (root : RootReference) (e₁ e₂ : Event) : Prop :=
  root.epoch = e₁.before.current_epoch_ ∧
    e₂.before.current_epoch_.toNat = e₁.before.current_epoch_.toNat + 1

/-- Two acceptances of one request are one epoch apart. -/
theorem accepted_twice {calls : List Call} (hforward : ∀ c ∈ calls, c.movesForward = true) :
    (machine.events calls).Pairwise fun e₁ e₂ =>
      e₂.call = e₁.call → ∀ root, e₁.call.referenced_root? = some root →
        e₁.reply.accepted = true → e₂.reply.accepted = true →
          AcceptedInNextEpoch root e₁ e₂ := by
  -- within one epoch number the PRF output cannot be used twice
  have hnodup := (prfGuarded (keepsUsedEpochs_of_forward hforward)).nodup
  have huses := List.pairwise_filterMap.mp hnodup
  have hboth := huses.and (epochs_sorted hforward).1
  apply hboth.imp_of_mem
  intro e₁ e₂ he₁ he₂ ⟨hdistinct, hsorted⟩ hcall root hroot hok₁ hok₂
  obtain ⟨prf, hprf⟩ := exists_prf_output hroot
  have huse : ∀ e : Event, e.call = e₁.call → e.reply.accepted = true →
      prfUse e = some (e.before.current_epoch_, prf.bytes) := by
    intro e he hok
    rw [prfUse, (ifAccepted_eq_some _).mpr ⟨hok, he ▸ hprf⟩]
    rfl
  have hne : e₁.before.current_epoch_ ≠ e₂.before.current_epoch_ := by
    intro heq
    apply hdistinct _ (huse e₁ rfl hok₁) _ (huse e₂ hcall hok₂)
    rw [heq]
  have hlt : e₁.before.current_epoch_.toNat < e₂.before.current_epoch_.toNat := by
    apply Nat.lt_of_le_of_ne hsorted
    intro heq
    exact hne (UInt64.toNat.inj heq)
  -- the root is acceptable on both occasions
  have hwindow : ∀ e ∈ machine.events calls, e.call = e₁.call → e.reply.accepted = true →
      root.epoch.toNat ≤ e.before.current_epoch_.toNat ∧
        e.before.current_epoch_.toNat - root.epoch.toNat ≤ 1 := by
    intro e he hsame hok
    obtain ⟨pre, call, post, _, rfl⟩ := machine.mem_events.mp he
    rw [← hsame] at hroot
    exact accepted_root_window ((machine.final pre).exec_transition call) hok hroot
  have hw₁ := hwindow e₁ he₁ rfl hok₁
  have hw₂ := hwindow e₂ he₂ hcall hok₂
  refine ⟨UInt64.toNat.inj ?_, ?_⟩
  · omega
  · omega

/-- **Replay across epochs.** In a run that only moves forward, a request that
    has been accepted is rejected whenever it is submitted again, unless its
    root belongs to the epoch in which it was accepted and that epoch has
    just been left; and it is not accepted a third time. -/
theorem replay_rejected (calls : List Call) (hforward : ∀ c ∈ calls, c.movesForward = true) :
    ((machine.events calls).Pairwise fun e₁ e₂ =>
      e₂.call = e₁.call → ∀ root, e₁.call.referenced_root? = some root →
        e₁.reply.accepted = true →
          e₂.reply.rejected = true ∨ AcceptedInNextEpoch root e₁ e₂) ∧
    (∀ call root, call.referenced_root? = some root →
      (machine.events calls).countP
        (fun e => decide (e.call = call) && e.reply.accepted) ≤ 2) := by
  have htwice := accepted_twice hforward
  constructor
  · apply htwice.imp_of_mem
    intro e₁ e₂ _ he₂ hpair hcall root hroot hok₁
    cases hok₂ : e₂.reply.accepted with
    | true => exact Or.inr (hpair hcall root hroot hok₁ hok₂)
    | false =>
      obtain ⟨pre, call, post, _, rfl⟩ := machine.mem_events.mp he₂
      have hroot₂ : call.referenced_root? = some root := by
        rw [← hroot, ← hcall]
        rfl
      exact Or.inl (rejected_of_not_accepted hroot₂ hok₂)
  · intro call root hroot
    rw [List.countP_eq_length_filter]
    apply length_le_two (fun e => e.before.current_epoch_.toNat)
    -- three acceptances would lie in three epochs, each following the other two
    have hfilter := htwice.filter fun e => decide (e.call = call) && e.reply.accepted
    apply hfilter.imp_of_mem
    intro e₁ e₂ he₁ he₂ hpair
    have hacc₁ := (List.mem_filter.mp he₁).2
    have hacc₂ := (List.mem_filter.mp he₂).2
    simp only [Bool.and_eq_true, decide_eq_true_eq] at hacc₁ hacc₂
    rw [← hacc₁.1] at hroot
    exact (hpair (hacc₂.1.trans hacc₁.1.symm) root hroot hacc₁.2 hacc₂.2).2

/-- A mint accepted again in the following epoch, and then no more. -/
theorem replay_rejected_after_window :
    let mintOf : Call := .mint {
      transaction_id := StdString.ofAscii "mint-1"
      recipient_index := { value := 0 }
      value := 5
      prf_output := { bytes := [1] }
      referenced_root := rootFor 0 { value := 2 } }
    let calls : List Call :=
      [.register { account_id := StdString.ofAscii "alice", public_key := {} }, mintOf,
        .advanceEpoch, mintOf, mintOf, .advanceEpoch, mintOf]
    (∀ c ∈ calls, c.movesForward = true) ∧
      (machine.events calls).countP
        (fun e => decide (e.call = mintOf) && e.reply.accepted) ≤ 2 := by
  intro mintOf calls
  have hforward : ∀ c ∈ calls, c.movesForward = true := by decide
  exact ⟨hforward, (replay_rejected calls hforward).2 mintOf _ rfl⟩

/-- Without the exception it would fail: the root of the epoch just left
    and a forgotten PRF output let the same mint through again. -/
theorem replay_accepted_in_next_epoch :
    let mintOf : Call := .mint {
      transaction_id := StdString.ofAscii "mint-1"
      recipient_index := { value := 0 }
      value := 5
      prf_output := { bytes := [1] }
      referenced_root := rootFor 0 { value := 2 } }
    let calls : List Call :=
      [.register { account_id := StdString.ofAscii "alice", public_key := {} }, mintOf,
        .advanceEpoch, mintOf]
    (∀ c ∈ calls, c.movesForward = true) ∧
    ¬ (machine.events calls).Pairwise fun e₁ e₂ =>
      e₂.call = e₁.call → ∀ root, e₁.call.referenced_root? = some root →
        e₁.reply.accepted = true → e₂.reply.rejected = true := by
  intro mintOf calls
  have hforward : ∀ c ∈ calls, c.movesForward = true := by decide
  refine ⟨hforward, ?_⟩
  intro hreject
  have hlength : (machine.events calls).length = 4 := rfl
  have hpair := List.pairwise_iff_getElem.mp hreject 1 3 (by omega) (by omega) (by omega)
  have hcall : (machine.events calls)[3].call = (machine.events calls)[1].call := by
    decide +kernel
  have hroot : (machine.events calls)[1].call.referenced_root? =
      some (rootFor 0 { value := 2 }) := by decide +kernel
  have hfirst : (machine.events calls)[1].reply.accepted = true := by decide +kernel
  have hsecond : (machine.events calls)[3].reply.rejected = false := by decide +kernel
  have hrejected := hpair hcall _ hroot hfirst
  rw [hsecond] at hrejected
  exact Bool.false_ne_true hrejected

end PlaintextModel

end Prifhete
