import Prifhete.State.Roots

/-! # What the root map knows, it knows for good

    A root is stored under the key of its text, and the text determines
    epoch and version. So storing a root can only repeat a record that is
    there already, and what the map holds at one point of a run it holds at
    every later point, with the epoch moving either way in between.
-/

namespace Prifhete

namespace PlaintextModel

/-- Every record of the root map of `m` is in that of `m'`, unchanged. -/
def KeepsRoots (m m' : PlaintextModel) : Prop :=
  ∀ key record, m.valid_roots_.lookup key = some record →
    m'.valid_roots_.lookup key = some record

/-- What has been issued stays known. -/
theorem RootHistory.keepsRoots {ps qs : List PlaintextModel} {p q : PlaintextModel}
    (hp : RootHistory ps p) (hq : RootHistory qs q) (hps : ps <+: qs) : KeepsRoots p q := by
  intro key record hlookup
  obtain ⟨hmem, hkey⟩ := (hp.known key record).mp hlookup
  exact (hq.known key record).mpr ⟨(issuedRoots_grow hps).subset hmem, hkey⟩

/-- `AllocateNextRoot` overwrites no record by another one, whatever has been
    done to the epoch and the version before it is called. -/
theorem RootHistory.allocateNextRoot_keepsRoots {ps : List PlaintextModel} {p q : PlaintextModel}
    (h : RootHistory ps p) (hroots : q.valid_roots_ = p.valid_roots_) :
    KeepsRoots p q.allocateNextRoot.2 := by
  intro key record hlookup
  obtain ⟨hmem, hkey⟩ := (h.known key record).mp hlookup
  have hinsert := (h.known_insert q.current_epoch_ { value := q.root_version_.value + 1 } key
    record).mpr ⟨List.mem_append_left _ hmem, hkey⟩
  rw [← hroots] at hinsert
  exact hinsert

/-- The root history of a run at each point it passes through. -/
theorem rootHistory_at {calls : List Call} {ps : List PlaintextModel} {p : PlaintextModel}
    (hps : ps <+: machine.points calls) (hlast : ps.getLast? = some p) : RootHistory ps p := by
  cases ps with
  | nil => contradiction
  | cons first ps =>
    -- a nonempty prefix starts with the constructor
    obtain ⟨rest, hrest⟩ := hps
    obtain ⟨rfl, _⟩ := List.cons.inj hrest
    have hchain := points_root_chain calls
    rw [← hrest, List.isChain_append] at hchain
    exact rootHistory_of_chain hchain.1 hlast

theorem points_keepRoots (calls : List Call) : (machine.points calls).Pairwise KeepsRoots := by
  rw [List.pairwise_iff_getElem]
  intro i j hi hj hij
  have hlast : ∀ k (hk : k < (machine.points calls).length),
      ((machine.points calls).take (k + 1)).getLast? = some (machine.points calls)[k] := by
    intro k hk
    rw [← List.take_concat_get' _ _ hk, List.getLast?_concat]
  exact (rootHistory_at (List.take_prefix _ _) (hlast i hi)).keepsRoots
    (rootHistory_at (List.take_prefix _ _) (hlast j hj)) (List.take_prefix_take_left (by omega))

/-- **The root map is write-once.** The keys of two roots are the same only
    if epochs and versions are; so in every run `AllocateNextRoot`, called
    with the root map of any point, keeps every record of it, and what is
    stored at one point of the run is found unchanged at every later one. -/
theorem root_map_write_once :
    (∀ epoch₁ epoch₂ : EpochNumber, ∀ version₁ version₂ : UInt64,
      toKey (makeRoot epoch₁ { value := version₁ }).bytes =
          toKey (makeRoot epoch₂ { value := version₂ }).bytes ↔
        epoch₁ = epoch₂ ∧ version₁ = version₂) ∧
    (∀ calls, ∀ p ∈ machine.points calls, ∀ q : PlaintextModel,
      q.valid_roots_ = p.valid_roots_ → KeepsRoots p q.allocateNextRoot.2) ∧
    (∀ calls, (machine.points calls).Pairwise KeepsRoots) ∧
    ∀ calls later, KeepsRoots (machine.final calls) (machine.final (calls ++ later)) := by
  refine ⟨?_, ?_, points_keepRoots, ?_⟩
  · intro epoch₁ epoch₂ version₁ version₂
    show (rootFor epoch₁ _).key = (rootFor epoch₂ _).key ↔ _
    rw [rootFor_key_inj, RootVersion.mk.injEq]
  · intro calls p hp q hroots
    obtain ⟨front, rest, hpoints⟩ := List.append_of_mem hp
    have hps : front ++ [p] <+: machine.points calls := ⟨rest, by simp [hpoints]⟩
    exact (rootHistory_at hps List.getLast?_concat).allocateNextRoot_keepsRoots hroots
  · intro calls later
    exact (rootHistory calls).keepsRoots (rootHistory (calls ++ later))
      (machine.points_prefix calls later)

end PlaintextModel

end Prifhete
